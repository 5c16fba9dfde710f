/-!
# Shortest decimals

The decimal with the fewest digits that reads back as a given binary floating-point number, in exact
arithmetic on natural numbers. A number is `m · 2 ^ q`; all reals nearer to it than to its
neighbours read back as it.
-/

namespace ActorNet.Decimal

/-- A positive number `m · 2 ^ q` of a binary format. -/
structure Binary where
  m : Nat
  q : Int
  /-- Whether the neighbour below is only half as far away as the one above. -/
  lowerIsNear : Bool
deriving DecidableEq, Repr

structure Fraction where
  num : Nat
  den : Nat
deriving DecidableEq, Repr

def dyadic (n : Nat) (e : Int) : Fraction :=
  if 0 ≤ e then ⟨n * Nat.pow 2 e.toNat, 1⟩ else ⟨n, Nat.pow 2 (-e).toNat⟩

def Fraction.shift (x : Fraction) (e : Int) : Fraction :=
  if 0 ≤ e then ⟨x.num * Nat.pow 10 e.toNat, x.den⟩ else ⟨x.num, x.den * Nat.pow 10 (-e).toNat⟩

def Fraction.floor (x : Fraction) : Nat :=
  x.num / x.den

namespace Binary

def value (x : Binary) : Fraction :=
  dyadic (4 * x.m) (x.q - 2)

def low (x : Binary) : Fraction :=
  dyadic (4 * x.m - if x.lowerIsNear then 1 else 2) (x.q - 2)

def high (x : Binary) : Fraction :=
  dyadic (4 * x.m + 2) (x.q - 2)

/-- Whether `c · 10 ^ s` reads back as the number. The ends count if `m` is even. -/
def readsBack (x : Binary) (c : Nat) (s : Int) : Bool :=
  let low := x.low.shift (-s)
  let high := x.high.shift (-s)
  if x.m % 2 = 0 then low.num ≤ c * low.den && c * high.den ≤ high.num
  else low.num < c * low.den && c * high.den < high.num

/-- The number of digits before the decimal point, or minus the number of zeros after it. -/
def order (x : Binary) : Int :=
  let whole := x.value.floor
  if whole ≠ 0 then (Nat.toDigits 10 whole).length
  else
    let zeros := (List.range 400).findIdx fun (k : Nat) => (x.value.shift (k + 1)).floor ≠ 0
    0 - zeros

/-- The decimal `c · 10 ^ s` with `digits` digits that reads back and is nearest to the number; of
two that are equally near, the larger one. -/
def nearest? (x : Binary) (digits : Nat) : Option (Nat × Int) :=
  let s := x.order - digits
  let scaled := x.value.shift (-s)
  let below := scaled.floor
  let fitsBelow := x.readsBack below s
  let fitsAbove := x.readsBack (below + 1) s
  let upIsNearer := scaled.den ≤ 2 * (scaled.num - below * scaled.den)
  if fitsAbove && (!fitsBelow || upIsNearer) then some (below + 1, s)
  else if fitsBelow then some (below, s)
  else none

/-- The decimal `c · 10 ^ s` with the fewest digits that reads back as the number. Seventeen digits
always do. -/
def shortest (x : Binary) : Nat × Int :=
  ((List.range 17).findSome? fun n => x.nearest? (n + 1)).getD (0, 0)

end Binary

/-- `c · 10 ^ s` without an exponent and without zeros at the end of the fraction. -/
def positional (c : Nat) (s : Int) : String :=
  if 0 ≤ s then String.ofList (Nat.toDigits 10 c ++ List.replicate s.toNat '0')
  else
    let places := (-s).toNat
    let fraction := Nat.toDigits 10 (c % Nat.pow 10 places)
    let padded := List.replicate (places - fraction.length) '0' ++ fraction
    let trimmed := (padded.reverse.dropWhile (· = '0')).reverse
    let whole := String.ofList (Nat.toDigits 10 (c / Nat.pow 10 places))
    if trimmed.isEmpty then whole else whole ++ "." ++ String.ofList trimmed

/-- The text of a double given by its bits: the shortest decimal that reads back, never with an
exponent. -/
def ofBits (bits : UInt64) : String :=
  let n := bits.toNat
  let sign := if n / Nat.pow 2 63 = 1 then "-" else ""
  let exponent : Nat := n / Nat.pow 2 52 % Nat.pow 2 11
  let fraction := n % Nat.pow 2 52
  if exponent = 2047 then
    if fraction = 0 then sign ++ "inf" else "NaN"
  else if exponent = 0 ∧ fraction = 0 then sign ++ "0"
  else
    let x : Binary :=
      if exponent = 0 then ⟨fraction, -1074, false⟩
      else ⟨Nat.pow 2 52 + fraction, (exponent : Int) - 1075, fraction = 0 ∧ 1 < exponent⟩
    let (c, s) := x.shortest
    sign ++ positional c s

end ActorNet.Decimal
