import ActorNet.Text

/-!
# The range of decimals

A decimal numeral is taken as `significand · 10 ^ exponent`, where the significand is at most a
64-bit word: digits that do not fit any more count only for the exponent. Its value is the product
of the doubles nearest to the two factors, and it is in range if this product is finite. Near the
limit this is not the same as the range of the exact decimal.
-/

namespace ActorNet.Decimal

open Text

/-- `significand · 10 ^ exponent`. -/
structure Scaled where
  significand : Nat
  exponent : Int
deriving DecidableEq, Repr

/-- Append digits to a significand up to the first one with which it would not fit a 64-bit word. -/
def absorb (significand : Nat) : List Char → Nat
  | [] => significand
  | d :: ds =>
    let next := 10 * significand + digitsValue [d]
    if next ≤ word64Max then absorb next ds else significand

def leftOver (significand : Nat) : List Char → Nat
  | [] => 0
  | d :: ds =>
    let next := 10 * significand + digitsValue [d]
    if next ≤ word64Max then leftOver next ds else ds.length + 1

/-- The numeral with the given digits before and after the point and the given exponent. Digits left
over before the point raise the exponent; those left over after it are dropped. -/
def Scaled.ofDigits (whole fraction : List Char) (exponent : Int) : Scaled :=
  let significand := absorb 0 whole
  let places := fraction.length - leftOver significand fraction
  ⟨absorb significand fraction, exponent + leftOver 0 whole - places⟩

/-- The double nearest to a natural number, as long as it is finite: 53 bits, and of two that are
equally near the one with the even last bit. -/
def nearestDouble (n : Nat) : Nat :=
  let unit := Nat.pow 2 (n.log2 + 1 - 53)
  let below := n / unit
  let excess := 2 * (n % unit)
  if unit < excess ∨ (unit = excess ∧ below % 2 = 1) then (below + 1) * unit else below * unit

/-- The least natural number that is nearer to infinity than to a finite double: half a unit above
the largest one. -/
def doubleLimit : Nat :=
  Nat.pow 2 1024 - Nat.pow 2 970

def maxPower : Nat := 308

def Scaled.isFinite (x : Scaled) : Bool :=
  if x.significand = 0 ∨ x.exponent < 0 then true
  else if maxPower < x.exponent then false
  else nearestDouble x.significand * nearestDouble (Nat.pow 10 x.exponent.toNat) < doubleLimit

end ActorNet.Decimal
