import ActorNet.Pass.SingleStore
import ActorNet.Proofs.Lookup
import ActorNet.Proofs.Semantics.Locals

/-!
# Locals in the place of state variables

`Code.redirect` is the redirection of loads and stores on code. While the redirected code runs, the
state variables keep the values they had at entry; `Tracks` says where the current value of each of
them is: in the local that is bound to it, or still in the state variable if nothing has been stored
to it. The redirected code does what the code does (`redirect_sim`).
-/

namespace ActorNet

open Code List State

variable {bound bound' locals : Bindings} {c : Code} {edge : Edge} {g : GlobalId} {i : Inst}
  {P : GlobalId → Prop} {entry : List (Option Value)} {l : LocalId} {n : Nat} {s s' : State}

/-! ## Redirecting code -/

namespace Inst

def redirected (locals bound : Bindings) : Inst → Inst × Bindings
  | .store (.glob g) [] value =>
    match locals.lookup g with
    | some target => (.assign target value, (g, target) :: bound)
    | none => (.store (.glob g) [] value, bound)
  | .load target (.glob g) [] =>
    match bound.lookup g with
    | some source => (.assign target (.var (.loc source)), bound)
    | none => (.load target (.glob g) [], (g, target) :: bound)
  | i => (i, bound)

def isWhole (i : Inst) : Bool :=
  i.storesWhole?.isSome || i.loadsWhole

/-- Whether an instruction stores a whole state variable for which there is a local. -/
def isRedirected (locals : Bindings) (i : Inst) : Bool :=
  i.storesWhole?.any fun g => (locals.lookup g).isSome

lemma isRedirected_store (locals : Bindings) (g : GlobalId) (value : Expr) :
    (store (.glob g) [] value).isRedirected locals = (locals.lookup g).isSome := rfl

/-- What redirection does with an instruction. -/
lemma redirected_cases (locals bound : Bindings) (i : Inst) :
    (∃ g value target, i = .store (.glob g) [] value ∧ locals.lookup g = some target ∧
      i.redirected locals bound = (.assign target value, (g, target) :: bound)) ∨
    (∃ target g source, i = .load target (.glob g) [] ∧ bound.lookup g = some source ∧
      i.redirected locals bound = (.assign target (.var (.loc source)), bound)) ∨
    (∃ target g, i = .load target (.glob g) [] ∧ bound.lookup g = none ∧
      i.redirected locals bound = (i, (g, target) :: bound)) ∨
    (i.loadsWhole = false ∧ (∀ g, i.storesWhole? = some g → locals.lookup g = none) ∧
      i.redirected locals bound = (i, bound)) := by
  unfold redirected
  split
  · rename_i g value
    cases h : locals.lookup g with
    | some target => exact .inl ⟨g, value, target, rfl, h, rfl⟩
    | none =>
      refine .inr (.inr (.inr ⟨rfl, fun g' hg' => ?_, rfl⟩))
      cases hg'
      exact h
  · rename_i target g
    cases h : bound.lookup g with
    | some source => exact .inr (.inl ⟨target, g, source, rfl, h, rfl⟩)
    | none => exact .inr (.inr (.inl ⟨target, g, rfl, h, rfl⟩))
  · rename_i hstore hload
    refine .inr (.inr (.inr ⟨?_, fun g hg => ?_, rfl⟩))
    · unfold loadsWhole
      split
      · exact absurd rfl (hload _ _)
      · rfl
    · unfold storesWhole? at hg
      split at hg
      · exact absurd rfl (hstore _ _)
      · cases hg

end Inst

namespace Code

/-- Redirection on code. What is bound inside of a conditional or a loop stays inside. -/
def redirect (locals : Bindings) : Bindings → Code → Code
  | _, done => done
  | bound, inst i predicate rest =>
    inst (i.redirected locals bound).1 predicate (rest.redirect locals (i.redirected locals bound).2)
  | bound, branch condition t e phis rest =>
    branch condition (t.redirect locals bound) (e.redirect locals bound) phis (rest.redirect locals bound)
  | bound, loop condition body phis rest =>
    loop condition (body.redirect locals bound) phis (rest.redirect locals bound)

/-- The number of stores that are redirected. -/
def redirectCount (locals : Bindings) (c : Code) : Nat :=
  c.insts.countP (Inst.isRedirected locals)

lemma redirectCount_append (locals : Bindings) (c d : Code) :
    (c.append d).redirectCount locals = c.redirectCount locals + d.redirectCount locals := by
  rw [redirectCount, insts_append, countP_append]
  rfl

lemma redirectCount_ofLines (locals : Bindings) (lines : List (Inst × Option Expr)) :
    (ofLines lines).redirectCount locals = lines.countP (·.1.isRedirected locals) := by
  rw [redirectCount, insts_ofLines, countP_map]
  rfl

lemma countP_isRedirected_phis (locals : Bindings) (phis : List Phi) :
    (phis.map Phi.inst).countP (Inst.isRedirected locals) = 0 := by
  rw [countP_eq_zero, forall_mem_map]
  exact fun _ _ => Bool.false_ne_true

lemma redirectCount_branch (locals : Bindings) (condition : Expr) (t e : Code) (phis : List Phi)
    (rest : Code) : (branch condition t e phis rest).redirectCount locals =
      t.redirectCount locals + e.redirectCount locals + rest.redirectCount locals := by
  simp only [redirectCount, insts, countP_append, countP_isRedirected_phis, Nat.add_zero]

lemma redirectCount_loop (locals : Bindings) (condition : Expr) (body : Code) (phis : List Phi) (rest : Code) :
    (loop condition body phis rest).redirectCount locals = body.redirectCount locals + rest.redirectCount locals := by
  simp only [redirectCount, insts, countP_append, countP_isRedirected_phis, Nat.zero_add]

def bindings (locals : Bindings) : Bindings → Code → Bindings
  | bound, done => bound
  | bound, inst i _ rest => rest.bindings locals (i.redirected locals bound).2
  | bound, branch _ _ _ _ rest => rest.bindings locals bound
  | bound, loop _ _ _ rest => rest.bindings locals bound

lemma redirect_append (locals bound : Bindings) (c d : Code) : (c.append d).redirect locals bound =
    (c.redirect locals bound).append (d.redirect locals (c.bindings locals bound)) := by
  induction c generalizing bound with
  | done => rfl
  | inst i predicate rest ih | branch condition t e phis rest _ _ ih | loop condition body phis rest _ ih =>
    simp only [append, redirect, bindings, ih]

lemma bindings_append (locals bound : Bindings) (c d : Code) :
    (c.append d).bindings locals bound = d.bindings locals (c.bindings locals bound) := by
  induction c generalizing bound with
  | done => rfl
  | inst i predicate rest ih | branch condition t e phis rest _ _ ih | loop condition body phis rest _ ih =>
    simp only [append, bindings, ih]

end Code

/-! ## What code may do with state variables -/

/-- One of the first `n` state variables. -/
def VarRef.Declared (n : Nat) : VarRef → Prop
  | .glob g => g.index < n
  | .loc _ => False

instance (n : Nat) : (v : VarRef) → Decidable (v.Declared n)
  | .glob g => inferInstanceAs (Decidable (g.index < n))
  | .loc _ => isFalse fun h => h

/-- An instruction reads and writes the first `n` state variables only as a whole, with loads and
stores. -/
def Inst.Whole (n : Nat) (i : Inst) : Prop :=
  i.loadsWhole = true ∨
    (∀ v ∈ i.uses, ¬ v.Declared n) ∧ (i.storesWhole? = none → ∀ v ∈ i.writes?, ¬ v.Declared n)
deriving Decidable

def VarRef.IsOf (P : GlobalId → Prop) : VarRef → Prop
  | .glob g => P g
  | .loc _ => False

/-- Of the first `n` state variables, an instruction reads and writes those with the given property
only as a whole, with loads and stores, and no others as a whole. -/
structure Inst.WholeOf (P : GlobalId → Prop) (n : Nat) (i : Inst) : Prop where
  loaded : ∀ t g, i = .load t (.glob g) [] → g.index < n → P g
  stored : ∀ g, i.storesWhole? = some g → g.index < n → P g
  parts : i.loadsWhole = true ∨
    (∀ v ∈ i.uses, ¬ v.IsOf P) ∧ (i.storesWhole? = none → ∀ v ∈ i.writes?, ¬ v.IsOf P)

/-- Every store inside of a conditional or a loop is to a state variable with the given property. -/
def Code.NestedStores (P : GlobalId → Prop) : Code → Prop
  | done => True
  | inst _ _ rest => rest.NestedStores P
  | branch _ t e _ rest => (∀ i ∈ t.insts ++ e.insts, ∀ g, i.storesWhole? = some g → P g) ∧ rest.NestedStores P
  | loop _ body _ rest => (∀ i ∈ body.insts, ∀ g, i.storesWhole? = some g → P g) ∧ rest.NestedStores P

lemma Code.nestedStores_of_forall {P : GlobalId → Prop}
    (h : ∀ i ∈ c.insts, ∀ g, i.storesWhole? = some g → P g) : c.NestedStores P := by
  induction c with
  | done => exact trivial
  | inst i predicate rest ih => exact ih fun i hi => h i (mem_cons_of_mem _ hi)
  | branch condition t e phis rest _ _ ih =>
    simp only [insts, List.append_assoc, mem_append] at h
    refine ⟨fun i hi => h i ?_, ih fun i hi => h i (.inr (.inr (.inr hi)))⟩
    rcases mem_append.mp hi with hi | hi
    · exact .inl hi
    · exact .inr (.inl hi)
  | loop condition body phis rest _ ih =>
    simp only [insts, List.append_assoc, mem_append] at h
    exact ⟨fun i hi => h i (.inr (.inl hi)), ih fun i hi => h i (.inr (.inr hi))⟩

/-- Code that redirection with locals for state variables among the first `n` preserves: no
predicates, no calls, the state variables with the given property only as a whole, and a local for
each of them that is stored. -/
def Code.Redirectable (P : GlobalId → Prop) (locals : Bindings) (n : Nat) : Code → Prop :=
  Forall
    (fun i predicate => predicate = none ∧ i.isCall = false ∧ i.WholeOf P n ∧
      ∀ g, i.storesWhole? = some g → locals.lookup g = none → n ≤ g.index)
    (fun condition phis => (∀ v ∈ condition.uses, ¬ v.IsOf P) ∧ ∀ φ ∈ phis, ∀ arm ∈ φ.arms, ¬ arm.var.IsOf P)
    (fun condition phis => (∀ v ∈ condition.uses, ¬ v.IsOf P) ∧ ∀ φ ∈ phis, ∀ arm ∈ φ.arms, ¬ arm.var.IsOf P)

/-- The locals belong to different state variables among the first `n`, all of them with the given
property. -/
structure Assigned (P : GlobalId → Prop) (locals : Bindings) (n : Nat) : Prop where
  injective : ∀ g g' l, locals.lookup g = some l → locals.lookup g' = some l → g = g'
  declared : ∀ g l, locals.lookup g = some l → g.index < n
  whole : ∀ g l, locals.lookup g = some l → P g

/-- Bindings that code can start with which writes some locals: a state variable is bound to its own
local or to one that belongs to no state variable, and the code does not write what is bound. -/
structure Admits (locals bound : Bindings) (written : List LocalId) : Prop where
  own : ∀ g l, bound.lookup g = some l → locals.lookup g = some l ∨ l ∉ locals.map (·.2)
  kept : ∀ g l, bound.lookup g = some l → l ∉ written
  fresh : ∀ l ∈ locals.map (·.2), l ∉ written

lemma Admits.mono {ids ids' : List LocalId} (h : Admits locals bound ids)
    (hsub : ∀ l ∈ ids', l ∈ ids) : Admits locals bound ids' :=
  ⟨h.own, fun g l hl hmem => h.kept g l hl (hsub l hmem), fun l hl hmem => h.fresh l hl (hsub l hmem)⟩

/-! ## What is known at a place of the code -/

namespace State

variable {g' : GlobalId} {x : Value}

lemma read_setGlobal_self (h : g.index < s.globals.length) : (s.setGlobal g x).read (.glob g) = some x := by
  show (s.globals.set g.index (some x))[g.index]?.join = some x
  rw [getElem?_set_self h]
  rfl

lemma globals_setGlobal_ne (s : State) (h : g' ≠ g) : (s.setGlobal g x).globals[g'.index]? = s.globals[g'.index]? := by
  refine getElem?_set_ne fun heq => ?_
  cases g
  cases g'
  exact h (congrArg GlobalId.mk heq.symm)

lemma read_setGlobal_ne (s : State) (h : g' ≠ g) : (s.setGlobal g x).read (.glob g') = s.read (.glob g') :=
  congrArg Option.join (globals_setGlobal_ne s h)

lemma length_setGlobal (s : State) (g : GlobalId) (x : Value) : (s.setGlobal g x).globals.length = s.globals.length :=
  length_set

end State

/-- How a run of the redirected code ends: none of the state variables that are kept in locals has
changed since entry. -/
structure Ended (P : GlobalId → Prop) (locals : Bindings) (entry : List (Option Value)) (s s' : State) : Prop where
  trace : s'.trace = s.trace
  unchanged : ∀ g, P g → s'.globals[g.index]? = entry[g.index]?
  length : s'.globals.length = entry.length
  others : ∀ id, id ∉ locals.map (·.2) → s'.locals id = s.locals id

/-- The state of the redirected code beside the state of the code, where some bindings hold. -/
structure Tracks (P : GlobalId → Prop) (locals : Bindings) (entry : List (Option Value))
    (bound : Bindings) (s s' : State) : Prop extends Ended P locals entry s s' where
  same_length : s.globals.length = entry.length
  defined : ∀ g l, locals.lookup g = some l → (s.read (.glob g)).isSome
  unused : ∀ id ∈ locals.map (·.2), s.locals id = none
  whole : ∀ g l, bound.lookup g = some l → g.index < entry.length → P g
  /-- What is bound to a state variable has its value. -/
  held : ∀ g l, bound.lookup g = some l → s'.locals l = s.read (.glob g)
  /-- A state variable that is not bound to its own local has been stored by both or by none. -/
  unstored : ∀ g, (∀ l, locals.lookup g = some l → bound.lookup g ≠ some l) →
    s'.globals[g.index]? = s.globals[g.index]?

namespace Tracks

section

variable (h : Tracks P locals entry bound s s')
include h

lemma read (ha : Assigned P locals n) {v : VarRef} (hv : ¬ v.IsOf P) {x : Value}
    (hx : s.read v = some x) : s'.read v = some x := by
  cases v with
  | loc id =>
    by_cases hid : id ∈ locals.map (·.2)
    · rw [read_loc, h.unused id hid] at hx
      cases hx
    · rw [read_loc, h.others id hid]
      exact hx
  | glob g =>
    rw [State.read, h.unstored g fun l hl => absurd (ha.whole g l hl) hv]
    exact hx

lemma set {id : LocalId} (hid : id ∉ locals.map (·.2)) (hkept : ∀ g l, bound.lookup g = some l →
    l ≠ id) (x : Value) : Tracks P locals entry bound (s.set id x) (s'.set id x) where
  trace := h.trace
  unchanged := h.unchanged
  length := h.length
  same_length := h.same_length
  defined := h.defined
  others := by
    intro i hi
    rw [set_locals, set_locals, h.others i hi]
  unused := by
    intro i hi
    rw [set_locals_ne]
    · exact h.unused i hi
    · intro heq
      exact hid (heq ▸ hi)
  whole := h.whole
  held := by
    intro g l hl
    rw [set_locals_ne _ _ (hkept g l hl)]
    exact h.held g l hl
  unstored := h.unstored

lemma setAll {values : List (LocalId × Value)}
    (hvalues : ∀ b ∈ values, b.1 ∉ locals.map (·.2) ∧ ∀ g l, bound.lookup g = some l → l ≠ b.1) :
    Tracks P locals entry bound (s.setAll values) (s'.setAll values) := by
  unfold State.setAll
  induction values generalizing s s' with
  | nil => exact h
  | cons b rest ih =>
    obtain ⟨hb, hkept⟩ := hvalues b mem_cons_self
    exact ih (h.set hb hkept b.2) fun b' hb' => hvalues b' (mem_cons_of_mem b hb')

lemma setGlobal (ha : Assigned P locals n) (hg : P g → entry.length ≤ g.index) (x : Value) :
    Tracks P locals entry bound (s.setGlobal g x) (s'.setGlobal g x) := by
  by_cases hlt : g.index < entry.length
  · have hnot : ¬ P g := fun hP => Nat.not_le.mpr hlt (hg hP)
    have hne : ∀ g', P g' → g' ≠ g := fun g' hP heq => hnot (heq ▸ hP)
    refine ⟨⟨h.trace, fun g' hP => ?_, ?_, h.others⟩, ?_, fun g' l hl => ?_, h.unused, h.whole,
      fun g' l hl => ?_, fun g' hg' => ?_⟩
    · rw [globals_setGlobal_ne _ (hne g' hP)]
      exact h.unchanged g' hP
    · rw [length_setGlobal, h.length]
    · rw [length_setGlobal, h.same_length]
    · rw [read_setGlobal_ne _ (hne g' (ha.whole g' l hl))]
      exact h.defined g' l hl
    · rw [read_setGlobal_ne]
      · exact h.held g' l hl
      · rintro rfl
        exact hnot (h.whole g' l hl hlt)
    · by_cases heq : g' = g
      · subst heq
        exact (getElem?_set_self (h.length ▸ hlt)).trans (getElem?_set_self (h.same_length ▸ hlt)).symm
      · rw [globals_setGlobal_ne _ heq, globals_setGlobal_ne _ heq]
        exact h.unstored g' hg'
  · have hle := Nat.not_lt.mp hlt
    rw [State.setGlobal, State.setGlobal, set_eq_of_length_le (h.same_length ▸ hle), set_eq_of_length_le (h.length ▸ hle)]
    exact h

/-- A load from a state variable that is not bound binds its target. -/
lemma bind (hg : bound.lookup g = none) (hwhole : g.index < entry.length → P g)
    (hl : s'.locals l = s.read (.glob g)) : Tracks P locals entry ((g, l) :: bound) s s' where
  toEnded := h.toEnded
  same_length := h.same_length
  defined := h.defined
  unused := h.unused
  whole := by
    intro g' l' hl'
    rcases lookup_cons_eq_some.mp hl' with ⟨rfl, _⟩ | ⟨_, hl'⟩
    · exact hwhole
    · exact h.whole g' l' hl'
  held := by
    intro g' l' hl'
    rcases lookup_cons_eq_some.mp hl' with ⟨rfl, rfl⟩ | ⟨_, hl'⟩
    · exact hl
    · exact h.held g' l' hl'
  unstored := by
    intro g' hg'
    refine h.unstored g' fun l' hl' hbound => hg' l' hl' (lookup_cons_eq_some.mpr (.inr ⟨?_, hbound⟩))
    rintro rfl
    cases hg.symm.trans hbound

/-- A store to a state variable that has a local is an assignment to the local. -/
lemma store (ha : Assigned P locals entry.length)
    (hown : ∀ g l, bound.lookup g = some l → locals.lookup g = some l ∨ l ∉ locals.map (·.2))
    {g : GlobalId} {l : LocalId} (hl : locals.lookup g = some l) (x : Value) :
    Tracks P locals entry ((g, l) :: bound) (s.setGlobal g x) (s'.set l x) := by
  have hmem : l ∈ locals.map (·.2) := mem_map_of_mem (mem_of_lookup hl)
  have hlt : g.index < s.globals.length := by
    rw [h.same_length]
    exact ha.declared g l hl
  refine ⟨⟨h.trace, h.unchanged, h.length, ?_⟩, ?_, ?_, h.unused, ?_, ?_, ?_⟩
  · intro id hid
    rw [set_locals_ne]
    · exact h.others id hid
    · exact fun heq => hid (heq ▸ hmem)
  · rw [length_setGlobal, h.same_length]
  · intro g' l' hl'
    by_cases heq : g' = g
    · rw [heq, read_setGlobal_self hlt]
      rfl
    · rw [read_setGlobal_ne _ heq]
      exact h.defined g' l' hl'
  · intro g' l' hl'
    rcases lookup_cons_eq_some.mp hl' with ⟨rfl, _⟩ | ⟨_, hl'⟩
    · exact fun _ => ha.whole g' l hl
    · exact h.whole g' l' hl'
  · intro g' l' hl'
    rcases lookup_cons_eq_some.mp hl' with ⟨rfl, rfl⟩ | ⟨hne, hbound⟩
    · rw [set_locals_self, read_setGlobal_self hlt]
    · rw [read_setGlobal_ne _ hne, set_locals_ne]
      · exact h.held g' l' hbound
      · rintro rfl
        rcases hown g' l' hbound with hown | hown
        · exact hne (ha.injective g' g l' hown hl)
        · exact hown hmem
  · intro g' hg'
    have hne : g' ≠ g := by
      rintro rfl
      exact hg' l hl (lookup_cons_eq_some.mpr (.inl ⟨rfl, rfl⟩))
    rw [globals_setGlobal_ne _ hne]
    exact h.unstored g' fun l' hl' hbound => hg' l' hl' (lookup_cons_eq_some.mpr (.inr ⟨hne, hbound⟩))

end

end Tracks

/-- Bindings that hold at least what others hold, where no further state variable is bound to its
own local. -/
structure Extends (locals bound bound' : Bindings) : Prop where
  keeps : ∀ g l, bound.lookup g = some l → bound'.lookup g = some l
  own : ∀ g l, locals.lookup g = some l → bound'.lookup g = some l → bound.lookup g = some l

lemma Extends.refl (locals bound : Bindings) : Extends locals bound bound :=
  ⟨fun _ _ h => h, fun _ _ _ h => h⟩

lemma Extends.trans {bound'' : Bindings} (h : Extends locals bound bound')
    (h' : Extends locals bound' bound'') : Extends locals bound bound'' :=
  ⟨fun g l hl => h'.keeps g l (h.keeps g l hl), fun g l hl hl' => h.own g l hl (h'.own g l hl hl')⟩

lemma Tracks.restrict (h : Tracks P locals entry bound' s s') (he : Extends locals bound bound') :
    Tracks P locals entry bound s s' where
  toEnded := h.toEnded
  same_length := h.same_length
  defined := h.defined
  unused := h.unused
  whole := fun g l hl => h.whole g l (he.keeps g l hl)
  held := fun g l hl => h.held g l (he.keeps g l hl)
  unstored := fun g hg => h.unstored g fun l hl hl' => hg l hl (he.own g l hl hl')

section Bindings

lemma extends_redirected (hfresh : ∀ l ∈ locals.map (·.2), i.writesLocal? ≠ some l)
    (hstores : ∀ g t, i.storesWhole? = some g → locals.lookup g = some t →
    bound.lookup g = some t) : Extends locals bound (i.redirected locals bound).2 := by
  rcases Inst.redirected_cases locals bound i with ⟨g, value, t, rfl, ht, heq⟩ | ⟨_, _, _, _, _, heq⟩ |
    ⟨t, g, rfl, hg, heq⟩ | ⟨_, _, heq⟩
  · rw [heq]
    -- the variable is bound to its local already
    have hbound := hstores g t rfl ht
    have hlookup : ∀ g', List.lookup g' ((g, t) :: bound) = bound.lookup g' := by
      intro g'
      rw [lookup_cons_ite]
      by_cases hg' : g' = g
      · rw [if_pos hg', hg', hbound]
      · rw [if_neg hg']
    exact ⟨fun g' l hl => (hlookup g').trans hl, fun g' l _ hl => (hlookup g').symm.trans hl⟩
  · rw [heq]
    exact Extends.refl locals bound
  · rw [heq]
    refine ⟨fun g' l hl => lookup_cons_eq_some.mpr (.inr ⟨?_, hl⟩), fun g' l hl hl' => ?_⟩
    · rintro rfl
      cases hg.symm.trans hl
    · rcases lookup_cons_eq_some.mp hl' with ⟨rfl, rfl⟩ | ⟨_, hl'⟩
      · exact absurd rfl (hfresh l (mem_map_of_mem (mem_of_lookup hl)))
      · exact hl'
  · rw [heq]
    exact Extends.refl locals bound

/-- Code that stores only to state variables bound to their own locals adds bindings of loads at
most. -/
lemma extends_bindings (hfresh : ∀ l ∈ locals.map (·.2), l ∉ c.writes)
    (hstores : ∀ i ∈ c.insts, ∀ g t, i.storesWhole? = some g → locals.lookup g = some t →
    bound.lookup g = some t) : Extends locals bound (c.bindings locals bound) := by
  induction c generalizing bound with
  | done => exact Extends.refl locals bound
  | inst i predicate rest ih =>
    simp only [writes_inst, mem_append, not_or, Option.mem_toList] at hfresh
    have hfirst := extends_redirected (fun l hl => (hfresh l hl).1) (hstores i mem_cons_self)
    refine hfirst.trans (ih (fun l hl => (hfresh l hl).2) fun j hj g t hg ht => ?_)
    exact hfirst.keeps g t (hstores j (mem_cons_of_mem i hj) g t hg ht)
  | branch condition t e phis rest _ _ ih | loop condition body phis rest _ ih =>
    simp only [writes_branch, writes_loop, mem_append, not_or] at hfresh
    exact ih (fun l hl => (hfresh l hl).2) fun j hj => hstores j (mem_append_right _ hj)

lemma Admits.cons {written : List LocalId} (h : Admits locals bound written)
    (hown : locals.lookup g = some l ∨ l ∉ locals.map (·.2)) (hkept : l ∉ written) :
    Admits locals ((g, l) :: bound) written := by
  refine ⟨fun g' l' hl => ?_, fun g' l' hl => ?_, h.fresh⟩
  · rcases lookup_cons_eq_some.mp hl with ⟨rfl, rfl⟩ | ⟨_, hl⟩
    · exact hown
    · exact h.own g' l' hl
  · rcases lookup_cons_eq_some.mp hl with ⟨rfl, rfl⟩ | ⟨_, hl⟩
    · exact hkept
    · exact h.kept g' l' hl

/-- The bindings after an instruction can be those at the beginning of what follows. -/
lemma Admits.redirected {predicate : Option Expr} {rest : Code}
    (h : Admits locals bound (inst i predicate rest).writes) (hnodup : (inst i predicate rest).writes.Nodup) :
    Admits locals (i.redirected locals bound).2 rest.writes := by
  rw [writes_inst] at h hnodup
  have hrest : Admits locals bound rest.writes := h.mono fun l hl => mem_append_right _ hl
  rcases Inst.redirected_cases locals bound i with ⟨g, value, t, rfl, ht, heq⟩ | ⟨_, _, _, _, _, heq⟩ |
    ⟨t, g, rfl, hg, heq⟩ | ⟨_, _, heq⟩
  · rw [heq]
    exact hrest.cons (.inl ht) (hrest.fresh t (mem_map_of_mem (mem_of_lookup ht)))
  · rw [heq]
    exact hrest
  · rw [heq]
    -- the target of the load is written here, so it is no local of a state variable and not written
    -- again
    have ht : t ∈ (Inst.load t (.glob g) []).writesLocal?.toList := mem_singleton.mpr rfl
    refine hrest.cons (.inr fun hmem => h.fresh t hmem (mem_append_left _ ht)) fun hmem => ?_
    exact (nodup_append.mp hnodup).2.2 t ht t hmem rfl
  · rw [heq]
    exact hrest

end Bindings

/-! ## Simulation -/

section Simulation

variable {calls calls' : CallStep}

/-- An instruction that neither loads nor stores a state variable that is kept in a local does the
same in both states. -/
lemma Tracks.transfer (ha : Assigned P locals n) (hload : i.loadsWhole = false)
    (hcall : i.isCall = false) (hwhole : i.WholeOf P entry.length)
    (hstore : ∀ g, i.storesWhole? = some g → entry.length ≤ g.index)
    (hadmits : Admits locals bound i.writesLocal?.toList) : Step.Sim (Tracks P locals entry bound)
      (Tracks P locals entry bound) (Ended P locals entry) (i.step calls) (i.step calls') := by
  intro s s' f u h hstep
  rcases hwhole.parts with hwhole | ⟨huses, hwrites⟩
  · rw [hload] at hwhole
    cases hwhole
  have hreads : ∀ v ∈ i.reads, ¬ v.IsOf P := by
    intro v hv
    unfold Inst.reads at hv
    split at hv
    · rcases mem_cons.mp hv with rfl | hv
      · exact hwrites (by cases v <;> rfl) v rfl
      · exact huses v hv
    · exact huses v hv
  rcases Inst.step_transfer calls' hcall (fun v hv x => h.read ha (hreads v hv)) hstep with
    ⟨v, x, hv, rfl, rfl, hstep'⟩ | ⟨r, rfl, rfl, hstep'⟩
  · refine ⟨_, hstep', ?_⟩
    cases v with
    | loc id =>
      have hid : id ∈ i.writesLocal?.toList := by
        rw [Inst.writesLocal?, hv]
        exact mem_singleton.mpr rfl
      exact h.set (fun hmem => hadmits.fresh id hmem hid) (fun g l hl heq => hadmits.kept g l hl (heq ▸ hid)) x
    | glob g =>
      refine h.setGlobal ha (fun hP => ?_) x
      cases hs : i.storesWhole? with
      | none => exact absurd hP (hwrites hs (.glob g) hv)
      | some g' =>
        have hg : g' = g := by
          unfold Inst.storesWhole? at hs
          split at hs
          · cases hs
            cases hv
            rfl
          · cases hs
        exact hg ▸ hstore g' hs
  · exact ⟨s', hstep', h.toEnded⟩

/-- One instruction. -/
lemma redirected_sim (ha : Assigned P locals entry.length) (hcall : i.isCall = false)
    (hwhole : i.WholeOf P entry.length)
    (hstores : ∀ g, i.storesWhole? = some g → locals.lookup g = none → entry.length ≤ g.index)
    (hadmits : Admits locals bound i.writesLocal?.toList) :
    Step.Sim (Tracks P locals entry bound) (Tracks P locals entry (i.redirected locals bound).2)
      (Ended P locals entry) (i.step calls) ((i.redirected locals bound).1.step calls') := by
  rcases Inst.redirected_cases locals bound i with ⟨g, value, t, rfl, ht, heq⟩ | ⟨t, g, source, rfl, hg, heq⟩ |
    ⟨t, g, rfl, hg, heq⟩ | ⟨hload, hnone, heq⟩
  · rw [heq]
    intro s s' f u h ⟨x, y, hx, hy, hf, hu⟩
    cases hy
    subst hf hu
    rcases hwhole.parts with hwhole | ⟨huses, _⟩
    · cases hwhole
    · exact ⟨_, ⟨x, eval_mono (fun v hv _ => h.read ha (huses v hv)) hx, rfl, rfl⟩, h.store ha hadmits.own ht x⟩
  · rw [heq]
    have ht : t ∈ (Inst.load t (.glob g) []).writesLocal?.toList := mem_singleton.mpr rfl
    intro s s' f u h ⟨x, hx, hf, hu⟩
    subst hf hu
    rw [load_nil] at hx
    refine ⟨_, ⟨x, ?_, rfl, rfl⟩, h.set (fun hmem => hadmits.fresh t hmem ht) (fun g l hl heq => ?_) x⟩
    · rw [eval_var, read_loc, h.held g source hg, hx]
    · exact hadmits.kept g l hl (heq ▸ ht)
  · rw [heq]
    have ht : t ∈ (Inst.load t (.glob g) []).writesLocal?.toList := mem_singleton.mpr rfl
    intro s s' f u h ⟨x, hx, hf, hu⟩
    subst hf hu
    rw [load_nil] at hx
    have hread : s'.read (.glob g) = some x := by
      rw [State.read, h.unstored g fun l _ hl => by rw [hg] at hl; cases hl]
      exact hx
    refine ⟨s'.set t x, ⟨x, ?_, rfl, rfl⟩, Tracks.bind ?_ hg (hwhole.loaded t g rfl) ?_⟩
    · rw [load_nil]
      exact hread
    · exact h.set (fun hmem => hadmits.fresh t hmem ht) (fun g l hl heq => hadmits.kept g l hl (heq ▸ ht)) x
    · rw [set_locals_self]
      exact hx.symm
  · rw [heq]
    exact Tracks.transfer ha hload hcall hwhole (fun g hg => hstores g hg (hnone g hg)) hadmits

/-- The phis of a join. -/
lemma Tracks.join_sim (ha : Assigned P locals n) {phis : List Phi}
    (hphis : ∀ φ ∈ phis, ∀ arm ∈ φ.arms, ¬ arm.var.IsOf P) (hadmits : Admits locals bound (phis.map (·.target))) :
    Step.Sim (Tracks P locals entry bound) (Tracks P locals entry bound) (Ended P locals entry) (Step.join edge phis)
      (Step.join edge phis) := by
  intro s s' f u h ⟨hf, hu⟩
  subst hf
  obtain ⟨values, hvalues, rfl⟩ := map_eq_some_iff.mp hu
  have hvalues' : s'.phiValues edge phis = some values :=
    phiValues_mono (fun φ hφ arm harm _ => h.read ha (hphis φ hφ arm harm)) hvalues
  refine ⟨s'.setAll values, ⟨rfl, ?_⟩, h.setAll fun b hb => ?_⟩
  · rw [join, hvalues', map_some]
  · have hmem := target_mem_of_phiValues hvalues hb
    exact ⟨fun hfresh => hadmits.fresh b.1 hfresh hmem, fun g l hl heq => hadmits.kept g l hl (heq ▸ hmem)⟩

/-- Code inside of a conditional or a loop, and the join after it: what the code binds is
forgotten. -/
lemma Tracks.inner_sim (ha : Assigned P locals n) {d : Code} {phis : List Phi}
    (hsim : Step.Sim (Tracks P locals entry bound) (Tracks P locals entry (d.bindings locals bound)) (Ended P locals entry)
      (d.step calls) ((d.redirect locals bound).step calls')) (hfresh : ∀ l ∈ locals.map (·.2), l ∉ d.writes)
    (hstores : ∀ i ∈ d.insts, ∀ g t, i.storesWhole? = some g → locals.lookup g = some t → bound.lookup g = some t)
    (hphis : ∀ φ ∈ phis, ∀ arm ∈ φ.arms, ¬ arm.var.IsOf P) (hadmits : Admits locals bound (phis.map (·.target))) :
    Step.Sim (Tracks P locals entry bound) (Tracks P locals entry bound) (Ended P locals entry)
      ((d.step calls).seq (Step.join edge phis)) (((d.redirect locals bound).step calls').seq (Step.join edge phis)) :=
  Step.Sim.seq (hsim.imp fun _ _ h => h.restrict (extends_bindings hfresh hstores)) (Tracks.join_sim ha hphis hadmits)

lemma lookup_redirected (hl : locals.lookup g = some l) (h : bound.lookup g = some l ∨
    i.storesWhole? = some g) : (i.redirected locals bound).2.lookup g = some l := by
  rcases Inst.redirected_cases locals bound i with ⟨g', value, t, rfl, ht, heq⟩ | ⟨_, _, _, rfl, _, heq⟩ |
    ⟨t, g', rfl, hg', heq⟩ | ⟨_, hnone, heq⟩
  · rw [heq, lookup_cons_ite]
    by_cases hg : g = g'
    · rw [if_pos hg, ← ht, ← hg, hl]
    · rw [if_neg hg]
      exact h.resolve_right fun hg' => hg (Option.some.inj hg').symm
  · rw [heq]
    exact h.resolve_right nofun
  · rw [heq]
    have hbound := h.resolve_right nofun
    refine lookup_cons_eq_some.mpr (.inr ⟨?_, hbound⟩)
    rintro rfl
    cases hg'.symm.trans hbound
  · rw [heq]
    refine h.resolve_right fun hg => ?_
    cases (hnone g hg).symm.trans hl

/-- Code with everything inside of it. The induction is on the code; what is bound inside of a
conditional or a loop is forgotten at its join, where nothing but the bindings before it is
needed. -/
theorem redirect_sim {seeded : Bindings} (ha : Assigned P locals entry.length)
    (hsub : ∀ g t, seeded.lookup g = some t → locals.lookup g = some t)
    (hc : c.Redirectable P locals entry.length)
    (hnested : c.NestedStores fun g => ∀ t, locals.lookup g = some t → seeded.lookup g = some t)
    (hseeded : ∀ g t, seeded.lookup g = some t → bound.lookup g = some t)
    (hadmits : Admits locals bound c.writes) (hnodup : c.writes.Nodup) :
    Step.Sim (Tracks P locals entry bound) (Tracks P locals entry (c.bindings locals bound))
      (Ended P locals entry) (c.step calls) ((c.redirect locals bound).step calls') := by
  induction c generalizing bound with
  | done => exact Step.Sim.skip
  | inst i predicate rest ih =>
    obtain ⟨⟨rfl, hcall, hwhole, hstores⟩, hrest⟩ := hc
    refine Step.Sim.seq (redirected_sim ha hcall hwhole hstores ?_)
      (ih hrest hnested (fun g t hg => lookup_redirected (hsub g t hg) (.inl (hseeded g t hg)))
        (hadmits.redirected hnodup) ?_)
    · refine hadmits.mono fun l hl => ?_
      rw [writes_inst]
      exact mem_append_left _ hl
    · rw [writes_inst] at hnodup
      exact (nodup_append.mp hnodup).2.1
  | branch condition t e phis rest iht ihe ih =>
    obtain ⟨⟨hcond, hphis⟩, ht, he, hrest⟩ := hc
    obtain ⟨hstores, hnested⟩ := hnested
    rw [writes_branch] at hadmits hnodup
    obtain ⟨hnodup, hnodupr, _⟩ := nodup_append.mp hnodup
    obtain ⟨hnodupte, _, _⟩ := nodup_append.mp hnodup
    obtain ⟨hnodupt, hnodupe, _⟩ := nodup_append.mp hnodupte
    have hw : ∀ ids : List LocalId, (∀ l ∈ ids, l ∈ t.writes ++ e.writes ++ phis.map (·.target) ++ rest.writes) →
        Admits locals bound ids := fun ids => hadmits.mono
    have hwt := hw t.writes fun l hl => by simp [hl]
    have hwe := hw e.writes fun l hl => by simp [hl]
    have hwp := hw (phis.map (·.target)) fun l hl => by
      simp only [mem_append]
      exact .inl (.inr hl)
    have hown : ∀ i ∈ t.insts ++ e.insts, ∀ g l, i.storesWhole? = some g → locals.lookup g = some l →
        bound.lookup g = some l := fun i hi g l hg hl => hseeded g l (hstores i hi g hg l hl)
    have hthen := iht ht (nestedStores_of_forall fun i hi => hstores i (mem_append_left _ hi)) hseeded hwt hnodupt
    have helse := ihe he (nestedStores_of_forall fun i hi => hstores i (mem_append_right _ hi)) hseeded hwe hnodupe
    refine Step.Sim.seq (Step.Sim.choose (fun s s' h b => test_mono fun v hv _ => h.read ha (hcond v hv)) ?_ ?_)
      (ih hrest hnested hseeded (hw rest.writes fun l hl => by simp [hl]) hnodupr)
    · exact Tracks.inner_sim ha hthen hwt.fresh (fun i hi => hown i (mem_append_left _ hi)) hphis hwp
    · exact Tracks.inner_sim ha helse hwe.fresh (fun i hi => hown i (mem_append_right _ hi)) hphis hwp
  | loop condition body phis rest ihb ih =>
    obtain ⟨⟨hcond, hphis⟩, hb, hrest⟩ := hc
    obtain ⟨hstores, hnested⟩ := hnested
    rw [writes_loop] at hadmits hnodup
    obtain ⟨hnodup, hnodupr, _⟩ := nodup_append.mp hnodup
    obtain ⟨_, hnodupb, _⟩ := nodup_append.mp hnodup
    have hw : ∀ ids : List LocalId, (∀ l ∈ ids, l ∈ phis.map (·.target) ++ body.writes ++ rest.writes) →
        Admits locals bound ids := fun ids => hadmits.mono
    have hwb := hw body.writes fun l hl => by simp [hl]
    have hwp := hw (phis.map (·.target)) fun l hl => by
      simp only [mem_append]
      exact .inl (.inl hl)
    have hown : ∀ i ∈ body.insts, ∀ g l, i.storesWhole? = some g → locals.lookup g = some l → bound.lookup g = some l :=
      fun i hi g l hg hl => hseeded g l (hstores i hi g hg l hl)
    have hbody := ihb hb (nestedStores_of_forall hstores) hseeded hwb hnodupb
    refine Step.Sim.seq (Step.Sim.seq (Tracks.join_sim ha hphis hwp) (Step.Sim.loops ?_ ?_))
      (ih hrest hnested hseeded (hw rest.writes fun l hl => by simp [hl]) hnodupr)
    · exact fun s s' h b => test_mono fun v hv _ => h.read ha (hcond v hv)
    · exact Tracks.inner_sim ha hbody hwb.fresh hown hphis hwp

end Simulation

end ActorNet
