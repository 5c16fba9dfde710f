import ActorNet.Proofs.Semantics.Locals

/-!
# Reading through a substitution

A `Subst` says which variable is read for each local. Code whose reads follow a substitution does in
a state what the code itself does in the state seen through the substitution (`Code.sim_subst`),
provided that the substitution spares what the code writes: it is read as itself, and nothing else
is read as it.
-/

namespace ActorNet

open List State

/-- Which variable is read for each local. -/
abbrev Subst := LocalId → VarRef

namespace Subst

/-- The variable that is read for a variable. State variables are read as themselves. -/
def apply (σ : Subst) : VarRef → VarRef
  | .loc id => σ id
  | .glob id => .glob id

/-- Nothing is read differently. -/
def id : Subst := .loc

/-- One substitution after another. -/
def andThen (σ τ : Subst) : Subst := fun x => τ.apply (σ x)

/-- One local is read differently. -/
def single (old : LocalId) (new : VarRef) : Subst := fun x => if x = old then new else .loc x

/-- A variable is read as itself, and no local is read as it. -/
def Spares (σ : Subst) (v : VarRef) : Prop :=
  σ.apply v = v ∧ ∀ x, σ x = v → VarRef.loc x = v

lemma apply_id (v : VarRef) : Subst.id.apply v = v := by
  cases v <;> rfl

lemma apply_andThen (σ τ : Subst) (v : VarRef) : (σ.andThen τ).apply v = τ.apply (σ.apply v) := by
  cases v <;> rfl

lemma replace_eq_apply (old : LocalId) (new v : VarRef) :
    (VarRef.replace (.loc old) new v).1 = (single old new).apply v := by
  cases v with
  | glob g => simp [VarRef.replace, apply]
  | loc x => by_cases h : x = old <;> simp [VarRef.replace, apply, single, h]

end Subst

/-! ## Substitution in code -/

namespace Expr

mutual

def subst (σ : Subst) : Expr → Expr
  | .bool b => .bool b
  | .int value ty => .int value ty
  | .str s => .str s
  | .list elems ty => .list (substAll σ elems) ty
  | .unary op e ty => .unary op (e.subst σ) ty
  | .binary op lhs rhs ty => .binary op (lhs.subst σ) (rhs.subst σ) ty
  | .var v => .var (σ.apply v)

def substAll (σ : Subst) : List Expr → List Expr
  | [] => []
  | e :: rest => e.subst σ :: substAll σ rest

end

mutual

lemma replaceVar_fst (old : LocalId) (new : VarRef) :
    ∀ e : Expr, (e.replaceVar (.loc old) new).1 = e.subst (.single old new)
  | .bool _ | .int _ _ | .str _ => rfl
  | .var v => by simp only [replaceVar, subst, Subst.replace_eq_apply]
  | .unary op e ty => by simp only [replaceVar, subst, replaceVar_fst old new e]
  | .binary op lhs rhs ty => by simp only [replaceVar, subst, replaceVar_fst old new lhs, replaceVar_fst old new rhs]
  | .list elems ty => by simp only [replaceVar, subst, replaceVars_fst old new elems]

lemma replaceVars_fst (old : LocalId) (new : VarRef) :
    ∀ es : List Expr, (replaceVars (.loc old) new es).1 = substAll (.single old new) es
  | [] => rfl
  | e :: rest => by simp only [replaceVars, substAll, replaceVar_fst old new e, replaceVars_fst old new rest]

end

mutual

lemma subst_id : ∀ e : Expr, e.subst .id = e
  | .bool _ | .int _ _ | .str _ => rfl
  | .var v => by simp only [subst, Subst.apply_id]
  | .unary op e ty => by simp only [subst, subst_id e]
  | .binary op lhs rhs ty => by simp only [subst, subst_id lhs, subst_id rhs]
  | .list elems ty => by simp only [subst, substAll_id elems]

lemma substAll_id : ∀ es : List Expr, substAll .id es = es
  | [] => rfl
  | e :: rest => by simp only [substAll, subst_id e, substAll_id rest]

end

mutual

lemma subst_subst (σ τ : Subst) : ∀ e : Expr, (e.subst σ).subst τ = e.subst (σ.andThen τ)
  | .bool _ | .int _ _ | .str _ => rfl
  | .var v => by simp only [subst, Subst.apply_andThen]
  | .unary op e ty => by simp only [subst, subst_subst σ τ e]
  | .binary op lhs rhs ty => by simp only [subst, subst_subst σ τ lhs, subst_subst σ τ rhs]
  | .list elems ty => by simp only [subst, substAll_substAll σ τ elems]

lemma substAll_substAll (σ τ : Subst) : ∀ es : List Expr, substAll τ (substAll σ es) = substAll (σ.andThen τ) es
  | [] => rfl
  | e :: rest => by simp only [substAll, subst_subst σ τ e, substAll_substAll σ τ rest]

end

mutual

lemma uses_subst (σ : Subst) : ∀ e : Expr, (e.subst σ).uses = e.uses.map σ.apply
  | .bool _ | .int _ _ | .str _ | .var _ => rfl
  | .unary op e ty => by simp only [subst, uses, uses_subst σ e]
  | .binary op lhs rhs ty => by simp only [subst, uses, uses_subst σ lhs, uses_subst σ rhs, map_append]
  | .list elems ty => by simp only [subst, uses, usesOf_substAll σ elems]

lemma usesOf_substAll (σ : Subst) : ∀ es : List Expr, usesOf (substAll σ es) = (usesOf es).map σ.apply
  | [] => rfl
  | e :: rest => by simp only [substAll, usesOf, uses_subst σ e, usesOf_substAll σ rest, map_append]

end

end Expr

def PhiArm.subst (σ : Subst) (arm : PhiArm) : PhiArm :=
  { arm with var := σ.apply arm.var, guard := arm.guard.map (Expr.subst σ) }

/-- An instruction whose reads follow a substitution. What it defines or stores to stays. -/
def Inst.subst (σ : Subst) : Inst → Inst
  | .assign target value => .assign target (value.subst σ)
  | .load target source indexes => .load target (σ.apply source) (Expr.substAll σ indexes)
  | .store target indexes value => .store target (Expr.substAll σ indexes) (value.subst σ)
  | .call target callee args => .call target callee (Expr.substAll σ args)
  | .phi target arms => .phi target (arms.map (PhiArm.subst σ))
  | .ret value => .ret (value.map (Expr.subst σ))
  | .cast source target ty => .cast (σ.apply source) target ty

def Phi.subst (σ : Subst) (φ : Phi) : Phi :=
  { φ with arms := φ.arms.map (PhiArm.subst σ) }

def Code.subst (σ : Subst) : Code → Code
  | .done => .done
  | .inst i predicate rest => .inst (i.subst σ) (predicate.map (Expr.subst σ)) (rest.subst σ)
  | .branch condition t e phis rest =>
    .branch (condition.subst σ) (t.subst σ) (e.subst σ) (phis.map (Phi.subst σ)) (rest.subst σ)
  | .loop condition body phis rest => .loop (condition.subst σ) (body.subst σ) (phis.map (Phi.subst σ)) (rest.subst σ)

def substLine (σ : Subst) (line : Inst × Option Expr) : Inst × Option Expr :=
  (line.1.subst σ, line.2.map (Expr.subst σ))

lemma PhiArm.replaceUse_fst (old : LocalId) (new : VarRef) (arm : PhiArm) :
    (arm.replaceUse (.loc old) new).1 = arm.subst (.single old new) := by
  obtain ⟨edge, var, _ | guard⟩ := arm <;>
    simp only [PhiArm.replaceUse, PhiArm.subst, Subst.replace_eq_apply, map_none, map_some, Expr.replaceVar_fst]

lemma PhiArm.subst_id (arm : PhiArm) : arm.subst .id = arm := by
  obtain ⟨edge, var, _ | guard⟩ := arm <;> simp only [PhiArm.subst, Subst.apply_id, map_none, map_some, Expr.subst_id]

lemma PhiArm.subst_subst (σ τ : Subst) (arm : PhiArm) : (arm.subst σ).subst τ = arm.subst (σ.andThen τ) := by
  obtain ⟨edge, var, _ | guard⟩ := arm <;>
    simp only [PhiArm.subst, Subst.apply_andThen, map_none, map_some, Expr.subst_subst]

lemma PhiArm.uses_subst (σ : Subst) (arm : PhiArm) : (arm.subst σ).uses = arm.uses.map σ.apply := by
  obtain ⟨edge, var, _ | guard⟩ := arm
  · rfl
  · simp only [PhiArm.subst, PhiArm.uses, map_some, Expr.uses_subst, map_cons]

namespace Inst

lemma replaceArms_fst (old : LocalId) (new : VarRef) (arms : List PhiArm) :
    (replaceArms (.loc old) new arms).1 = arms.map (PhiArm.subst (.single old new)) := by
  induction arms with
  | nil => rfl
  | cons arm rest ih => simp only [replaceArms, PhiArm.replaceUse_fst, ih, map_cons]

lemma replaceUse_fst (old : LocalId) (new : VarRef) (i : Inst) :
    (i.replaceUse (.loc old) new).1 = i.subst (.single old new) := by
  cases i with
  | ret value => cases value <;> simp only [replaceUse, subst, map_none, map_some, Expr.replaceVar_fst]
  | _ => simp only [replaceUse, subst, Subst.replace_eq_apply, Expr.replaceVar_fst, Expr.replaceVars_fst, replaceArms_fst]

lemma subst_id (i : Inst) : i.subst .id = i := by
  cases i with
  | ret value => cases value <;> simp only [subst, map_none, map_some, Expr.subst_id]
  | _ => simp only [subst, Subst.apply_id, Expr.subst_id, Expr.substAll_id, funext PhiArm.subst_id, List.map_id']

lemma subst_subst (σ τ : Subst) (i : Inst) : (i.subst σ).subst τ = i.subst (σ.andThen τ) := by
  cases i with
  | ret value => cases value <;> simp only [subst, map_none, map_some, Expr.subst_subst]
  | _ =>
    simp only [subst, Subst.apply_andThen, Expr.subst_subst, Expr.substAll_substAll, List.map_map,
      Function.comp_def, PhiArm.subst_subst]

lemma uses_subst (σ : Subst) (i : Inst) : (i.subst σ).uses = i.uses.map σ.apply := by
  cases i with
  | ret value => cases value <;> simp only [subst, uses, map_none, map_some, Expr.uses_subst, map_nil]
  | cast => rfl
  | _ =>
    simp only [subst, uses, Expr.uses_subst, Expr.usesOf_substAll, map_cons, map_append,
      flatMap_map, map_flatMap, PhiArm.uses_subst]

lemma def?_subst (σ : Subst) (i : Inst) : (i.subst σ).def? = i.def? := by
  cases i <;> rfl

lemma writes?_subst (σ : Subst) (i : Inst) : (i.subst σ).writes? = i.writes? := by
  cases i <;> rfl

lemma isCall_subst (σ : Subst) (i : Inst) : (i.subst σ).isCall = i.isCall := by
  cases i <;> rfl

end Inst

lemma Phi.subst_id (φ : Phi) : φ.subst .id = φ := by
  simp only [Phi.subst, funext PhiArm.subst_id, List.map_id']

namespace Code

protected lemma subst_id (c : Code) : c.subst .id = c := by
  induction c with
  | done => rfl
  | inst i p rest ih => cases p <;> simp only [subst, Inst.subst_id, map_none, map_some, Expr.subst_id, ih]
  | branch c t e phis rest iht ihe ih =>
    simp only [subst, Expr.subst_id, iht, ihe, ih, funext Phi.subst_id, List.map_id']
  | loop c body phis rest ihb ih => simp only [subst, Expr.subst_id, ihb, ih, funext Phi.subst_id, List.map_id']

lemma subst_append (σ : Subst) (c d : Code) : (c.append d).subst σ = (c.subst σ).append (d.subst σ) := by
  induction c with
  | done => rfl
  | inst i p rest ih | branch c t e phis rest _ _ ih | loop c body phis rest _ ih => simp only [append, subst, ih]

lemma subst_ofLines (σ : Subst) (lines : List (Inst × Option Expr)) :
    (ofLines lines).subst σ = ofLines (lines.map (substLine σ)) := by
  induction lines with
  | nil => rfl
  | cons line rest ih => simp only [ofLines, subst, ih, map_cons, substLine]

lemma insts_subst (σ : Subst) (c : Code) : (c.subst σ).insts = c.insts.map (Inst.subst σ) := by
  induction c with
  | done => rfl
  | inst i p rest ih => simp only [insts, subst, ih, map_cons]
  | branch c t e phis rest iht ihe ih =>
    simp only [insts, subst, iht, ihe, ih, map_append, List.map_map, Function.comp_def]
    rfl
  | loop c body phis rest ihb ih =>
    simp only [insts, subst, ihb, ih, map_append, List.map_map, Function.comp_def]
    rfl

end Code

/-! ## States seen through a substitution -/

namespace State

/-- The state in which every local has the value that is read for it. -/
def through (s : State) (σ : Subst) : State :=
  { s with locals := fun x => s.read (σ x) }

lemma read_through (s : State) (σ : Subst) (v : VarRef) : (s.through σ).read v = s.read (σ.apply v) := by
  cases v <;> rfl

lemma reader_through (s : State) (σ : Subst) (v : VarRef) :
    (s.through σ).reader.read v = s.reader.read (σ.apply v) := by
  simp only [reader, read_through]

end State

namespace Expr

mutual

lemma eval_through (s : State) (σ : Subst) : ∀ e : Expr, e.eval (s.through σ).reader = (e.subst σ).eval s.reader
  | .bool _ => rfl
  | .int value ty => by cases ty <;> rfl
  | .str _ => rfl
  | .var v => reader_through s σ v
  | .unary op e ty => by
    simp only [subst, eval, eval_through s σ e]
    rfl
  | .binary op lhs rhs ty => by
    simp only [subst, eval, eval_through s σ lhs, eval_through s σ rhs]
    rfl
  | .list elems ty => by simp only [subst, eval, evalAll_through s σ elems]

lemma evalAll_through (s : State) (σ : Subst) :
    ∀ es : List Expr, evalAll (s.through σ).reader es = evalAll s.reader (substAll σ es)
  | [] => rfl
  | e :: rest => by simp only [substAll, evalAll, eval_through s σ e, evalAll_through s σ rest]

end

end Expr

namespace Context

lemma select_through (s : State) (σ : Subst) (v : Value) (indexes : List Expr) :
    select (s.through σ).reader v indexes = select s.reader v (Expr.substAll σ indexes) := by
  induction indexes generalizing v with
  | nil => rfl
  | cons index rest ih =>
    simp only [Expr.substAll, select, Expr.evalInt, Expr.eval_through, ih]
    rfl

lemma path_through (s : State) (σ : Subst) (indexes : List Expr) :
    path (s.through σ).reader indexes = path s.reader (Expr.substAll σ indexes) := by
  induction indexes with
  | nil => rfl
  | cons index rest ih =>
    simp only [Expr.substAll, path, Expr.evalInt, Expr.eval_through, ih]
    rfl

end Context

lemma armOn_subst (σ : Subst) (arms : List PhiArm) (edge : Edge) :
    armOn (arms.map (PhiArm.subst σ)) edge = (armOn arms edge).map (PhiArm.subst σ) := by
  have hfind : (arms.map (PhiArm.subst σ)).find? (·.edge = edge) =
      (arms.find? (·.edge = edge)).map (PhiArm.subst σ) := by
    rw [find?_map]
    rfl
  rw [armOn, armOn, hfind, getElem?_map, Option.map_or]

namespace State

variable (s : State) (σ : Subst)

lemma eval_through (e : Expr) : (s.through σ).eval e = s.eval (e.subst σ) := by
  rw [eval, eval, Expr.eval_through]

lemma test_through (e : Expr) : (s.through σ).test e = s.test (e.subst σ) := by
  refine Option.ext fun b => ?_
  rw [test_eq_some, test_eq_some, eval_through]

lemma load_through (source : VarRef) (indexes : List Expr) :
    (s.through σ).load source indexes = s.load (σ.apply source) (Expr.substAll σ indexes) := by
  rw [load, load, reader_through, funext fun v => Context.select_through s σ v indexes]

lemma stored_through {target : VarRef} (htarget : σ.apply target = target) (indexes : List Expr) (x : Value) :
    (s.through σ).stored target indexes x = s.stored target (Expr.substAll σ indexes) x := by
  rw [stored, stored, path, path, Context.path_through, read_through, htarget]

lemma converted_through (source : VarRef) (ty : Ty) :
    (s.through σ).converted source ty = s.converted (σ.apply source) ty := by
  rw [converted, converted, read_through]

lemma picks_through (arms : List PhiArm) :
    s.picks (arms.map (PhiArm.subst σ)) = ((s.through σ).picks arms).map (PhiArm.subst σ) := by
  induction arms with
  | nil => rfl
  | cons arm rest ih =>
    rw [map_cons, picks, picks]
    cases hg : arm.guard with
    | none => simp only [PhiArm.subst, hg, map_none, ih]
    | some guard =>
      simp only [PhiArm.subst, hg, map_some, test_through]
      cases s.test (guard.subst σ) with
      | none => rfl
      | some b =>
        cases b with
        | true => rw [map_some, PhiArm.subst, hg, map_some]
        | false => exact ih

lemma phiValues_through (edge : Edge) (phis : List Phi) :
    (s.through σ).phiValues edge phis = s.phiValues edge (phis.map (Phi.subst σ)) := by
  induction phis with
  | nil => rfl
  | cons φ rest ih =>
    rw [map_cons, phiValues, phiValues, ih, Phi.subst, armOn_subst]
    cases armOn φ.arms edge with
    | none => rfl
    | some arm => simp only [bind_some, map_some, read_through, PhiArm.subst]

variable {σ}

lemma set_through {x : LocalId} (h : σ.Spares (.loc x)) (y : Value) :
    (s.set x y).through σ = (s.through σ).set x y := by
  refine State.ext rfl rfl (funext fun z => ?_)
  show (s.set x y).read (σ z) = if z = x then some y else s.read (σ z)
  by_cases hz : z = x
  · rw [if_pos hz, hz, show σ x = .loc x from h.1, read_loc, set_locals_self]
  · rw [if_neg hz]
    cases hσ : σ z with
    | glob g => rfl
    | loc w =>
      refine set_locals_ne s y fun hw => hz ?_
      rw [hw] at hσ
      exact VarRef.loc.inj (h.2 z hσ)

lemma setGlobal_through {g : GlobalId} (h : σ.Spares (.glob g)) (y : Value) :
    (s.setGlobal g y).through σ = (s.through σ).setGlobal g y := by
  refine State.ext rfl rfl (funext fun z => ?_)
  show (s.setGlobal g y).read (σ z) = s.read (σ z)
  cases hσ : σ z with
  | loc w => rfl
  | glob k =>
    have hne : g.index ≠ k.index := by
      intro heq
      have hgk : k = g := by
        cases k
        cases g
        exact congrArg GlobalId.mk heq.symm
      rw [hgk] at hσ
      cases h.2 z hσ
    simp only [read, setGlobal, getElem?_set_ne hne]

lemma write_through {v : VarRef} (h : σ.Spares v) (y : Value) : (s.write v y).through σ = (s.through σ).write v y := by
  cases v with
  | loc x => exact set_through s h y
  | glob g => exact setGlobal_through s h y

lemma setAll_through {bindings : List (LocalId × Value)} (h : ∀ b ∈ bindings, σ.Spares (.loc b.1)) :
    (s.setAll bindings).through σ = (s.through σ).setAll bindings := by
  unfold setAll
  induction bindings generalizing s with
  | nil => rfl
  | cons b rest ih =>
    rw [foldl_cons, foldl_cons, ih _ fun b' hb' => h b' (mem_cons_of_mem b hb'),
      set_through s (h b mem_cons_self)]

end State

/-! ## Code in states seen through a substitution -/

def SeenThrough (σ : Subst) (s s' : State) : Prop := s = s'.through σ

section Sim

variable {calls : CallStep} {σ : Subst}

lemma Inst.sim_subst {i : Inst} (hcall : i.isCall = false) (hwrites : ∀ v ∈ i.writes?, σ.Spares v) :
    Step.Sim (SeenThrough σ) (SeenThrough σ) (SeenThrough σ) (i.step calls) ((i.subst σ).step calls) := by
  intro s s' f u hs h
  subst hs
  cases i with
  | assign target | load target | cast source target =>
    obtain ⟨x, hx, rfl, rfl⟩ := h
    simp only [eval_through, load_through, converted_through] at hx
    exact ⟨s'.set target x, ⟨x, hx, rfl, rfl⟩, (set_through s' (hwrites _ rfl) x).symm⟩
  | store target indexes value =>
    obtain ⟨x, y, hx, hy, rfl, rfl⟩ := h
    rw [eval_through] at hx
    rw [stored_through s' σ (hwrites target rfl).1] at hy
    exact ⟨s'.write target y, ⟨x, y, hx, hy, rfl, rfl⟩, (write_through s' (hwrites _ rfl) y).symm⟩
  | call target callee args => cases hcall
  | phi target arms =>
    obtain ⟨arm, x, harm, hx, rfl, rfl⟩ := h
    rw [read_through] at hx
    refine ⟨s'.set target x, ⟨arm.subst σ, x, ?_, hx, rfl, rfl⟩, (set_through s' (hwrites _ rfl) x).symm⟩
    rw [picks_through, harm, map_some]
  | ret value =>
    cases value with
    | none =>
      obtain ⟨rfl, rfl⟩ := h
      exact ⟨s', ⟨rfl, rfl⟩, rfl⟩
    | some value =>
      obtain ⟨x, hx, rfl, rfl⟩ := h
      rw [eval_through] at hx
      exact ⟨s', ⟨x, hx, rfl, rfl⟩, rfl⟩

lemma Step.join_sim_subst {edge : Edge} {phis : List Phi}
    (h : ∀ φ ∈ phis, σ.Spares (.loc φ.target)) : Step.Sim (SeenThrough σ) (SeenThrough σ)
      (SeenThrough σ) (Step.join edge phis) (Step.join edge (phis.map (Phi.subst σ))) := by
  intro s s' f u hs ⟨hf, hu⟩
  subst hs hf
  obtain ⟨values, hvalues, rfl⟩ := map_eq_some_iff.mp hu
  have htargets := phiValues_targets hvalues
  rw [phiValues_through] at hvalues
  refine ⟨s'.setAll values, ⟨rfl, ?_⟩, ?_⟩
  · rw [State.join, hvalues, map_some]
  · refine (setAll_through s' fun b hb => ?_).symm
    have hmem : b.1 ∈ phis.map (·.target) := htargets ▸ mem_map_of_mem hb
    obtain ⟨φ, hφ, heq⟩ := mem_map.mp hmem
    exact heq ▸ h φ hφ

/-- Code whose reads follow a substitution does in a state what the code does in the state seen
through the substitution. -/
theorem Code.sim_subst {c : Code} (hcalls : ∀ i ∈ c.insts, i.isCall = false)
    (hwrites : ∀ i ∈ c.insts, ∀ v ∈ i.writes?, σ.Spares v) : Step.Sim
    (SeenThrough σ) (SeenThrough σ) (SeenThrough σ) (c.step calls) ((c.subst σ).step calls) := by
  have htest : ∀ (e : Expr) (s s' : State), SeenThrough σ s s' → ∀ b, s.test e = some b →
      s'.test (e.subst σ) = some b := by
    intro e s s' hs b hb
    rw [hs, test_through] at hb
    exact hb
  have hphis : ∀ phis : List Phi, (∀ i ∈ phis.map Phi.inst, ∀ v ∈ i.writes?, σ.Spares v) →
      ∀ φ ∈ phis, σ.Spares (.loc φ.target) := fun phis h φ hφ => h φ.inst (mem_map_of_mem hφ) _ rfl
  induction c with
  | done => exact Step.Sim.skip
  | inst i predicate rest ih =>
    simp only [insts, mem_cons, forall_eq_or_imp] at hcalls hwrites
    refine Step.Sim.seq ?_ (ih hcalls.2 hwrites.2)
    have hi : Step.Sim (SeenThrough σ) (SeenThrough σ) (SeenThrough σ) (i.step calls) ((i.subst σ).step calls) :=
      Inst.sim_subst hcalls.1 hwrites.1
    cases predicate with
    | none => exact hi
    | some q => exact Step.Sim.choose (htest q) hi Step.Sim.skip
  | branch condition t e phis rest iht ihe ih =>
    simp only [insts, mem_append] at hcalls hwrites
    have hjoin := hphis phis fun i hi => hwrites i (.inl (.inr hi))
    refine Step.Sim.seq (Step.Sim.choose (htest condition) ?_ ?_)
      (ih (fun i hi => hcalls i (.inr hi)) fun i hi => hwrites i (.inr hi))
    · exact (iht (fun i hi => hcalls i (.inl (.inl (.inl hi)))) fun i hi => hwrites i (.inl (.inl (.inl hi)))).seq
        (Step.join_sim_subst hjoin)
    · exact (ihe (fun i hi => hcalls i (.inl (.inl (.inr hi)))) fun i hi => hwrites i (.inl (.inl (.inr hi)))).seq
        (Step.join_sim_subst hjoin)
  | loop condition body phis rest ihb ih =>
    simp only [insts, mem_append] at hcalls hwrites
    have hjoin := hphis phis fun i hi => hwrites i (.inl (.inl hi))
    refine Step.Sim.seq (Step.Sim.seq (Step.join_sim_subst hjoin) (Step.Sim.loops (htest condition) ?_))
      (ih (fun i hi => hcalls i (.inr hi)) fun i hi => hwrites i (.inr hi))
    exact (ihb (fun i hi => hcalls i (.inl (.inr hi))) fun i hi => hwrites i (.inl (.inr hi))).seq
      (Step.join_sim_subst hjoin)

end Sim

end ActorNet
