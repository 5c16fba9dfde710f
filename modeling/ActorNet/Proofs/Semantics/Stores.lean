import ActorNet.Proofs.Semantics.Machine
import ActorNet.Proofs.Structure.Listings

/-!
# Stores to elements

A load walks down a path of indexes, and a store rebuilds the lists along one. Both find the same
elements, and a store replaces just the one that its path leads to (`Context.store_replaces`).
-/

namespace ActorNet

open List

namespace Value

variable {proc : String} {i j : Int64} {path : List Int64} {v w x y z : Value}

lemma position?_eq_some {length k : Nat} : position? i length = some k ↔ i.toInt = k ∧ k < length := by
  unfold position?
  split
  · simp only [Option.some.injEq]
    omega
  · simp only [reduceCtorEq, false_iff]
    omega

lemma item?_setItem (h : v.item? i = some w) : (v.setItem i z).item? j = if j = i then some z else v.item? j := by
  cases v with
  | list items =>
    obtain ⟨k, hk, _⟩ := bind_eq_some_iff.mp h
    obtain ⟨hi, hlt⟩ := position?_eq_some.mp hk
    simp only [setItem, item?, length_set, hi, Int.toNat_natCast]
    split
    · rename_i hj
      rw [hj, hk]
      exact getElem?_set_self hlt
    · rename_i hj
      refine Option.bind_congr fun l hl => getElem?_set_ne fun hkl => hj (Int64.toInt_inj.mp ?_)
      rw [hi, hkl, (position?_eq_some.mp hl).1]
  | bool | int | float | str => cases h

/-- The part of a value under a path of indexes. -/
def under (v : Value) (path : List Int64) : Option Value :=
  path.foldlM item? v

lemma under_cons : v.under (i :: path) = (v.item? i).bind (·.under path) := rfl

lemma under_setItem (h : v.item? i = some w) :
    (v.setItem i z).under (j :: path) = if j = i then z.under path else v.under (j :: path) := by
  rw [under_cons, item?_setItem h]
  split <;> rfl

/-- A store finds the element under a path exactly where a load does. -/
lemma storeAt_iff_under : (∃ y, v.storeAt proc path x = .ok y) ↔ ∃ y, v.under path = some y := by
  induction path generalizing v with
  | nil => exact ⟨fun _ => ⟨v, rfl⟩, fun _ => ⟨x, rfl⟩⟩
  | cons i rest ih =>
    simp only [storeAt_cons_ok, under_cons, bind_eq_some_iff]
    constructor
    · rintro ⟨_, item, z, hitem, hz, rfl⟩
      obtain ⟨y, hy⟩ := ih.mp ⟨z, hz⟩
      exact ⟨y, item, hitem, hy⟩
    · rintro ⟨y, item, hitem, hy⟩
      obtain ⟨z, hz⟩ := ih.mpr ⟨y, hy⟩
      exact ⟨_, item, z, hitem, hz, rfl⟩

def length? : Value → Option Nat
  | list items => some items.length
  | _ => none

lemma length?_setItem : (v.setItem i z).length? = v.length? := by
  cases v <;> simp [setItem, length?]

/-- After a store the path leads to what was stored, paths that lead elsewhere lead to what they
did, and lists outside of the element keep their lengths. -/
structure Replaced (path : List Int64) (v x y : Value) : Prop where
  stored : y.under path = some x
  others : ∀ other, ¬ path <+: other → ¬ other <+: path → y.under other = v.under other
  lengths : ∀ other, ¬ path <+: other → (y.under other).bind length? = (v.under other).bind length?

lemma replaced_of_storeAt (h : v.storeAt proc path x = .ok y) : Replaced path v x y := by
  induction path generalizing v y with
  | nil =>
    cases h
    exact ⟨rfl, fun _ hno => absurd nil_prefix hno, fun _ hno => absurd nil_prefix hno⟩
  | cons i rest ih =>
    obtain ⟨item, z, hitem, hz, rfl⟩ := storeAt_cons_ok.mp h
    obtain ⟨hstored, hothers, hlengths⟩ := ih hz
    refine ⟨?_, fun other hno hno' => ?_, fun other hno => ?_⟩
    · rw [under_setItem hitem, if_pos rfl, hstored]
    · cases other with
      | nil => exact absurd nil_prefix hno'
      | cons j other =>
        rw [under_setItem hitem]
        split
        · subst_vars
          rw [prefix_cons_inj] at hno hno'
          rw [under_cons, hitem, Option.bind_some, hothers other hno hno']
        · rfl
    · cases other with
      | nil => exact length?_setItem
      | cons j other =>
        rw [under_setItem hitem]
        split
        · subst_vars
          rw [prefix_cons_inj] at hno
          rw [under_cons, hitem, Option.bind_some, hlengths other hno]
        · rfl

end Value

namespace Context

variable {c : Context} {env : Env} {m : Machine} {v target : VarRef} {path : List Int64}
  {value : Expr} {x y : Value} {r : Reader} {s : State}

/-- A path that is written out in an instruction. -/
def literals (path : List Int64) : List Expr :=
  path.map fun n => .int n (.int 64)

lemma path_literals (s : State) (path : List Int64) : s.path (literals path) = some path := by
  rw [State.path, State.toOption_eq_some]
  induction path with
  | nil => rfl
  | cons i rest ih => exact path_cons_ok.mpr ⟨i, rest, rfl, ih, rfl⟩

lemma select_literals {v : Value} : select r v (literals path) = .ok y ↔ v.under path = some y := by
  induction path generalizing v with
  | nil => simp [literals, select, Value.under]
  | cons i rest ih =>
    rw [Value.under_cons, bind_eq_some_iff, literals, map_cons, select_cons_ok]
    constructor
    · rintro ⟨_, w, ⟨⟩, hw, h⟩
      exact ⟨w, Value.element_ok.mp hw, ih.mp h⟩
    · rintro ⟨w, hw, h⟩
      exact ⟨i, w, rfl, Value.element_ok.mpr hw, ih.mpr h⟩

/-- A load from a variable under a path gives a value, and changes nothing else. -/
def Loads (c : Context) (env : Env) (m : Machine) (v : VarRef) (path : List Int64) (y : Value) : Prop :=
  ∀ dest, Yields (c.execInst env (.load dest v (literals path))) m (.next, env.set dest y) m

lemma loads_iff : c.Loads env m v path y ↔ ((env.on m).read v).bind (·.under path) = some y := by
  have hload : (env.on m).load v (literals path) = some y ↔ ((env.on m).read v).bind (·.under path) = some y := by
    simp only [State.load_eq_some, bind_eq_some_iff, select_literals]
  simp only [← hload, Loads, execInst, yields_bind, yields_eval, load_reader_ok, yields_pure, Prod.mk.injEq]
  constructor
  · intro h
    obtain ⟨z, _, ⟨hz, rfl⟩, ⟨_, hset⟩, _⟩ := h ⟨0⟩
    have hget := congrArg (Env.get? · ⟨0⟩) hset
    simp only [Env.get?_set, if_true] at hget
    rw [hz, hget]
  · intro h dest
    exact ⟨y, m, ⟨h, rfl⟩, ⟨trivial, rfl⟩, rfl⟩

lemma read_write {old : Value} (hold : s.read target = some old) :
    (s.write target y).read v = if v = target then some y else s.read v := by
  cases target with
  | loc id => cases v <;> simp [State.write, State.set, State.read]
  | glob id =>
    obtain ⟨_, hsome, _⟩ := bind_eq_some_iff.mp hold
    have hlt := (List.getElem?_eq_some_iff.mp hsome).1
    cases v with
    | loc i => simp [State.write, State.setGlobal, State.read]
    | glob g =>
      obtain ⟨⟨i⟩, ⟨j⟩⟩ := id, g
      simp only [State.write, State.setGlobal, State.read, getElem?_set]
      by_cases hj : i = j <;> simp_all [eq_comm]

/-- A store evaluates, and only then writes. -/
lemma atomic_store (indexes : List Expr) : Atomic (c.execInst env (.store target indexes value)) := by
  refine Atomic.of_triple fun m => ?_
  mvcgen [execInst, eval, Run.lift, write]

lemma yields_store (hpath : path ≠ []) (hx : (env.on m).eval value = some x) {f : Flow} {env' : Env} {m' : Machine} :
    Yields (c.execInst env (.store target (literals path) value)) m (f, env') m' ↔
      ∃ whole y, (env.on m).read target = some whole ∧ whole.storeAt "" path x = .ok y ∧ f = .next ∧
        Yields (write env target y) m env' m' := by
  have hstored : ∀ y, (env.on m).stored target (literals path) x = some y ↔
      ∃ whole, (env.on m).read target = some whole ∧ whole.storeAt "" path x = .ok y := by
    intro y
    rw [State.stored, path_literals]
    cases path with
    | nil => exact absurd rfl hpath
    | cons => simp only [bind_eq_some_iff, State.toOption_eq_some]
  rw [yields_execInst_store]
  constructor
  · rintro ⟨x', y, hx', hy, hwrite⟩
    cases hx.symm.trans hx'
    obtain ⟨whole, hread, hstore⟩ := (hstored y).mp hy
    exact ⟨whole, y, hread, hstore, hwrite⟩
  · rintro ⟨whole, y, hread, hstore, hwrite⟩
    exact ⟨x, y, hx, (hstored y).mpr ⟨whole, hread, hstore⟩, hwrite⟩

/-- A store under a path changes nothing if it fails, and it succeeds exactly where a load does. It
replaces what the path leads to: loads under other paths and from other variables give what they
did. -/
theorem store_replaces (c : Context) (env : Env) (target : VarRef) (value : Expr) (hpath : path ≠ []) :
    Atomic (c.execInst env (.store target (literals path) value)) ∧ ∀ m x, (env.on m).eval value = some x →
      ((∃ a m', Yields (c.execInst env (.store target (literals path) value)) m a m') ↔ ∃ y, c.Loads env m target path y) ∧
      ∀ f env' m', Yields (c.execInst env (.store target (literals path) value)) m (f, env') m' →
        c.Loads env' m' target path x ∧
        (∀ other, ¬ path <+: other → ¬ other <+: path → ∀ y, c.Loads env' m' target other y ↔ c.Loads env m target other y) ∧
        (∀ other items, ¬ path <+: other → c.Loads env m target other (.list items) →
          ∃ items', c.Loads env' m' target other (.list items') ∧ items'.length = items.length) ∧
        ∀ v, v ≠ target → ∀ other y, c.Loads env' m' v other y ↔ c.Loads env m v other y := by
  refine ⟨atomic_store _, fun m x hx => ⟨⟨?_, ?_⟩, fun f env' m' h => ?_⟩⟩
  · rintro ⟨⟨f, env'⟩, m', h⟩
    obtain ⟨whole, y, hread, hstore, _⟩ := (yields_store hpath hx).mp h
    obtain ⟨z, hz⟩ := Value.storeAt_iff_under.mp ⟨y, hstore⟩
    exact ⟨z, loads_iff.mpr (bind_eq_some_iff.mpr ⟨whole, hread, hz⟩)⟩
  · rintro ⟨z, hz⟩
    obtain ⟨whole, hread, hz⟩ := bind_eq_some_iff.mp (loads_iff.mp hz)
    obtain ⟨y, hstore⟩ := Value.storeAt_iff_under.mpr ⟨z, hz⟩
    obtain ⟨env', m', hwrite⟩ := write_yields env m target y
    exact ⟨_, m', (yields_store hpath hx).mpr ⟨whole, y, hread, hstore, rfl, hwrite⟩⟩
  · obtain ⟨whole, y, hread, hstore, _, hwrite⟩ := (yields_store hpath hx).mp h
    have hafter : ∀ v, (env'.on m').read v = if v = target then some y else (env.on m).read v := fun v => by
      rw [(yields_write hwrite).1, read_write hread]
    obtain ⟨hpart, hothers, hlengths⟩ := Value.replaced_of_storeAt hstore
    simp only [loads_iff, hafter, if_true, hread, Option.bind_some]
    refine ⟨hpart, fun other hno hno' z => by rw [hothers other hno hno'], fun other items hno hitems => ?_,
      fun v hv other z => by rw [if_neg hv]⟩
    have hlength := hlengths other hno
    rw [hitems] at hlength
    obtain ⟨w, hw, hlength⟩ := bind_eq_some_iff.mp hlength
    cases w with
    | list items' => exact ⟨items', hw, Option.some.inj hlength⟩
    | bool | int | float | str => cases hlength

/-- Two rows in a local. -/
def grid : Env :=
  [(⟨0⟩, .list [.list [.int 1, .int 2], .list [.int 3]])]

/-- The first element of the second row is replaced, and the first row is as it was. -/
theorem store_replaces_grid : [1, 0] ≠ ([] : List Int64) ∧ ∀ (c : Context) (m : Machine), ∃ env' m',
    Yields (c.execInst grid (.store (.loc ⟨0⟩) (literals [1, 0]) (.bool true))) m (.next, env') m' ∧
      c.Loads env' m' (.loc ⟨0⟩) [1, 0] (.bool true) ∧ c.Loads env' m' (.loc ⟨0⟩) [0, 1] (.int 2) := by
  have hpath : [1, 0] ≠ ([] : List Int64) := by decide
  refine ⟨hpath, fun c m => ?_⟩
  obtain ⟨hiff, hafter⟩ := (c.store_replaces grid (.loc ⟨0⟩) (.bool true) hpath).2 m (.bool true) rfl
  obtain ⟨⟨f, env'⟩, m', h⟩ := hiff.mpr ⟨.int 3, loads_iff.mpr rfl⟩
  obtain ⟨hstored, hothers, _⟩ := hafter f env' m' h
  obtain ⟨_, _, _, _, rfl, _⟩ := (yields_store hpath rfl).mp h
  exact ⟨env', m', h, hstored, (hothers [0, 1] (by decide) (by decide) (.int 2)).mpr (loads_iff.mpr rfl)⟩

end Context

end ActorNet
