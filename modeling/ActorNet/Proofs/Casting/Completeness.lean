import ActorNet.Proofs.Casting.Preservation

/-!
# Casting leaves no cast missing

After casts have been inserted into a procedure in single assignment form, every expression in the
lists of the procedure has the type that its place requires, and so have the operands of phis
(`Procedure.TypesSettled`). A place for a list takes any list that is as wide in all: casting
compares the class and the width of types only, and the width of a list is counted up to the largest
word of 32 bits.
-/

namespace ActorNet

open List

/-! ## Comparisons of scalars can be computed -/

namespace Expr

instance (Γ : Scope) (e : Expr) : Decidable (e.IsScalar Γ) :=
  inferInstanceAs (Decidable (∃ ty ∈ e.ty? Γ, ty.isList = false))

mutual

def decideComparesScalars (Γ : Scope) : (e : Expr) → Decidable (e.ComparesScalars Γ)
  | .unary _ e _ => e.decideComparesScalars Γ
  | .binary _ lhs rhs _ => @instDecidableAnd _ _ (lhs.decideComparesScalars Γ)
      (@instDecidableAnd _ _ (rhs.decideComparesScalars Γ) inferInstance)
  | .list elems _ => decideAllCompareScalars Γ elems
  | .bool _ | .int _ _ | .str _ | .var _ => isTrue trivial

def decideAllCompareScalars (Γ : Scope) : (es : List Expr) → Decidable (AllCompareScalars Γ es)
  | [] => isTrue trivial
  | e :: rest => @instDecidableAnd _ _ (e.decideComparesScalars Γ) (decideAllCompareScalars Γ rest)

end

instance (Γ : Scope) (e : Expr) : Decidable (e.ComparesScalars Γ) := e.decideComparesScalars Γ

instance (Γ : Scope) (es : List Expr) : Decidable (AllCompareScalars Γ es) := decideAllCompareScalars Γ es

end Expr

instance (Γ : Scope) : (i : Inst) → Decidable (i.ComparesScalars Γ)
  | .assign _ value => inferInstanceAs (Decidable (value.ComparesScalars Γ))
  | .load _ _ es | .call _ _ es => inferInstanceAs (Decidable (Expr.AllCompareScalars Γ es))
  | .store .. => inferInstanceAs (Decidable (_ ∧ _))
  | .ret value => inferInstanceAs (Decidable (∀ e ∈ value, e.ComparesScalars Γ))
  | .phi .. | .cast .. => isTrue trivial

/-! ## Procedures without missing casts -/

/-- A node stands in a list, or in a list of a node that does. -/
inductive Procedure.Lists (p : Procedure) : List NodeId → NodeId → Prop
  | here {ids : List NodeId} {n : NodeId} (hn : n ∈ ids) : p.Lists ids n
  | inside {ids : List NodeId} {m n : NodeId} {node : Node} (hm : m ∈ ids) (hnode : p.node? m = some node)
      (hn : p.Lists node.listed n) : p.Lists ids n

/-- No cast is missing in the instructions of a block, or in the condition of a construct and the
phis of its join. -/
def Node.Settled (o : Outside) (S : Prop) (p : Procedure) : Node → Prop
  | block insts => ∀ i ∈ insts, ∀ d ∈ p.inst? i, d.inst.Settled o S p
  | branch condition _ _ join => condition.Suits (p.scope o.globals) S (some .bool) ∧
      ∀ φ ∈ (p.blockInsts join).filterMap p.phi?, φ.Settled (p.scope o.globals)
  | loop condition _ join => condition.Suits (p.scope o.globals) S (some .bool) ∧
      ∀ φ ∈ (p.blockInsts join).filterMap p.phi?, φ.Settled (p.scope o.globals)

namespace Procedure

variable {p p' : Procedure} {o : Outside} {S : Prop} {ids ids' : List NodeId} {id n : NodeId} {node : Node} {t : Tree}

/-- No cast is missing in the nodes of some lists. -/
def TypesSettledFrom (o : Outside) (S : Prop) (p : Procedure) (ids : List NodeId) : Prop :=
  ∀ n node, p.Lists ids n → p.node? n = some node → node.Settled o S p

/-- No cast is missing in a procedure. -/
def TypesSettled (o : Outside) (S : Prop) (p : Procedure) : Prop :=
  p.TypesSettledFrom o S p.body

/-- The operands of comparisons in the procedure have types that are no lists. -/
@[mk_iff]
structure ComparesScalars (globals : List Variable) (p : Procedure) : Prop where
  insts : ∀ d ∈ p.allInsts, d.inst.ComparesScalars (p.scope globals)
  conditions : ∀ node ∈ p.parts, ∀ condition ∈ node.condition?, condition.ComparesScalars (p.scope globals)

instance (globals : List Variable) (p : Procedure) : Decidable (p.ComparesScalars globals) :=
  decidable_of_iff' _ (comparesScalars_iff _ _)

/-! ## From code to nodes -/

lemma lists_cons : p.Lists (id :: ids) n ↔
    (n = id ∨ ∃ node, p.node? id = some node ∧ p.Lists node.listed n) ∨ p.Lists ids n := by
  constructor
  · rintro (hn | ⟨hm, hnode, hn⟩)
    · exact (mem_cons.mp hn).imp .inl .here
    · rcases mem_cons.mp hm with rfl | hm
      · exact .inl (.inr ⟨_, hnode, hn⟩)
      · exact .inr (.inside hm hnode hn)
  · rintro ((rfl | ⟨node, hnode, hn⟩) | hn | ⟨hm, hnode, hn⟩)
    · exact .here mem_cons_self
    · exact .inside mem_cons_self hnode hn
    · exact .here (mem_cons_of_mem _ hn)
    · exact .inside (mem_cons_of_mem _ hm) hnode hn

lemma not_lists_nil : ¬ p.Lists [] n := by
  rintro (hn | ⟨hm, _, _⟩)
  · cases hn
  · cases hm

lemma lists_append : p.Lists (ids ++ ids') n ↔ p.Lists ids n ∨ p.Lists ids' n := by
  induction ids with
  | nil => exact ⟨.inr, fun h => h.resolve_left not_lists_nil⟩
  | cons id ids ih => simp only [cons_append, lists_cons, ih, or_assoc]

lemma typesSettledFrom_nil : p.TypesSettledFrom o S [] := fun _ _ hn => absurd hn not_lists_nil

lemma typesSettledFrom_append : p.TypesSettledFrom o S (ids ++ ids') ↔
    p.TypesSettledFrom o S ids ∧ p.TypesSettledFrom o S ids' := by
  simp only [TypesSettledFrom, lists_append, or_imp, forall_and]

lemma TypesSettledFrom.cons (hid : p.node? id = some node) (hnode : node.Settled o S p)
    (hlisted : p.TypesSettledFrom o S node.listed) (hrest : p.TypesSettledFrom o S ids) :
    p.TypesSettledFrom o S (id :: ids) := by
  intro n found hn hfound
  rcases lists_cons.mp hn with (rfl | ⟨inner, hinner, hn⟩) | hn
  · cases hid.symm.trans hfound
    exact hnode
  · cases hid.symm.trans hinner
    exact hlisted n found hn hfound
  · exact hrest n found hn hfound

lemma typesSettledFrom_of_code (hfits : t.Fits p) (h : (t.code p).Settled o S p) : p.TypesSettledFrom o S t.roots := by
  induction t with
  | nil => exact typesSettledFrom_nil
  | block id is rest ih =>
    obtain ⟨hid, hfits⟩ := hfits
    obtain ⟨hlines, hrest⟩ := Code.forall_append.mp h
    refine .cons hid (fun i hi d hd => ?_) typesSettledFrom_nil (ih hfits hrest)
    exact Code.forall_ofLines.mp hlines (d.inst, d.predicate) (mem_filterMap.mpr ⟨i, hi, by rw [line?, hd]; rfl⟩)
  | branch id t e join phis rest iht ihe ih =>
    obtain ⟨⟨c, hid⟩, hfitst, hfitse, hjoin, hfits⟩ := hfits
    obtain ⟨⟨hcond, hphis⟩, ht, he, hrest⟩ := h
    rw [condition, hid] at hcond
    refine .cons hid ⟨hcond, hjoin ▸ hphis⟩ ?_ (ih hfits hrest)
    exact typesSettledFrom_append.mpr ⟨iht hfitst ht, ihe hfitse he⟩
  | loop id body join phis rest ihb ih =>
    obtain ⟨⟨c, hid⟩, hfitsb, hjoin, hfits⟩ := hfits
    obtain ⟨⟨hcond, hphis⟩, hb, hrest⟩ := h
    rw [condition, hid] at hcond
    exact .cons hid ⟨hcond, hjoin ▸ hphis⟩ (ihb hfitsb hb) (ih hfits hrest)

/-! ## The pass -/

/-- What casting needs to leave a procedure settled: what its instructions define is declared. -/
lemma ready_code (ht : t.Spans p)
    (hlive : ∀ i ∈ t.insts, ∀ d, p.inst? i = some d → p.LiveIn (fun _ => False) d.inst.named)
    (hS : S → p.ComparesScalars o.globals) : (t.code p).Ready o p S := by
  have hdef : ∀ d ∈ p.allInsts, ∀ x ∈ d.inst.def?, x.index < p.locals.size := by
    intro d hd x hx
    obtain ⟨i, hi, hinst⟩ := mem_filterMap.mp hd
    rw [forward_eq ht] at hi
    have hnamed : .loc x ∈ d.inst.named := by simp [Inst.named, Option.mem_def.mp hx]
    exact index_lt_of_local? ((hlive i hi d hinst x hnamed).resolve_left not_false)
  have hphis : ∀ node ∈ p.parts, ∀ join, node.join? = some join → join ∈ p.nodesIn p.body →
      ∀ φ ∈ p.joinPhis node, φ.target.index < p.locals.size := by
    intro node _ join hjoin hmem φ hφ
    obtain ⟨d, hd, hinst⟩ := exists_inst_of_mem_phis (mem_phis_of_joinPhis hjoin hmem hφ)
    exact hdef d hd φ.target (by rw [hinst]; rfl)
  refine forall_code ?_ ?_ ?_ ht
  · exact fun d _ hd => ⟨fun hs => (hS hs).insts d hd, hdef d hd⟩
  · exact fun c ts es j hnode hj => ⟨fun hs => (hS hs).conditions _ hnode c rfl, hphis _ hnode j rfl hj⟩
  · exact fun c bs j hnode hj => ⟨fun hs => (hS hs).conditions _ hnode c rfl, hphis _ hnode j rfl hj⟩

/-- Casts that are inserted are counted, and no cast is missing afterwards. -/
lemma insertCasts_spec {k : Nat} (hverify : p.verify = .ok ()) (hsingle : p.SingleAssignment)
    (hS : S → p.ComparesScalars o.globals) (h : Yields (insertCasts o) p k p') : p'.TypesSettled o S ∧
      p'.allInsts.countP (fun d => d.inst.isCast) = p.allInsts.countP (fun d => d.inst.isCast) + k := by
  obtain ⟨t, ht, hlive⟩ := exists_live_tree_of_verify hverify
  obtain ⟨_, _, τ, t', ht', _, hcasted⟩ := insertCasts_casted h ht
    (ready_code ht hlive hS) (writes_code ht ▸ hsingle.once)
  refine ⟨?_, ?_⟩
  · rw [TypesSettled, ← ht'.roots]
    exact typesSettledFrom_of_code ht'.sound.fits hcasted.settled
  · have hcasts := hcasted.casts
    rw [Code.casts, Code.casts, insts_code_eq ht', insts_code_eq ht, countP_map, countP_map] at hcasts
    exact hcasts

/-- After casts have been inserted, every expression in the lists of a procedure has the type that
its place requires, or is a list where a list of the same width is required. So have the operands of
comparisons, if they are no lists. -/
theorem insertCasts_typesSettled {k : Nat} (hverify : p.verify = .ok ()) (hsingle : p.SingleAssignment)
    (h : (insertCasts o).run p = (.ok k, p')) : p'.TypesSettled o (p.ComparesScalars o.globals) :=
  (insertCasts_spec hverify hsingle id h).1

/-- Seven casts settle operands, a phi, the condition of a loop, what is stored and what is
loaded. -/
theorem insertCasts_typesSettled_count :
    Actor.count.verify = .ok () ∧ Actor.count.SingleAssignment ∧ Actor.count.ComparesScalars
    (Actor.counting Actor.count).globals ∧ (Actor.casted Actor.count).TypesSettled
    ⟨(Actor.counting Actor.count).globals, (Actor.counting Actor.count).signatures⟩
      (Actor.count.ComparesScalars (Actor.counting Actor.count).globals) := by
  have hverify : Actor.count.verify = .ok () := by decide +kernel
  have hsingle : Actor.count.SingleAssignment := by decide +kernel
  exact ⟨hverify, hsingle, by decide +kernel, insertCasts_typesSettled hverify hsingle Actor.insertCasts_count⟩

/-- A procedure that assigns a list to a variable of another list type, with elements twice as
wide. -/
def spread : Procedure :=
  { name := "spread", params := [⟨0⟩], returnTy := .void
    locals := .full [{ name := "y", ty := .list 4294967295 (.int 8) },
      { name := "x", ty := .list 4294967295 (.int 16) }]
    nodes := .full [.block [⟨0⟩]]
    insts := .full [{ inst := .assign ⟨1⟩ (.var (.loc ⟨0⟩)), block := ⟨0⟩ }]
    body := [⟨0⟩] }

/-- The lists have as many elements, of which one kind is twice as wide as the other. The count of
bits stops before it is through with either list, so no cast is inserted between the two types. -/
theorem insertCasts_spread : spread.verify = .ok () ∧ spread.SingleAssignment ∧
    (insertCasts ⟨[], []⟩).run spread = (.ok 0, spread) ∧
    spread.allInsts.map (·.inst) = [.assign ⟨1⟩ (.var (.loc ⟨0⟩))] ∧
    (spread.scope []).ty? (.loc ⟨1⟩) = some (.list 4294967295 (.int 16)) ∧
    (Expr.var (.loc ⟨0⟩)).ty? (spread.scope []) = some (.list 4294967295 (.int 8)) ∧
    (Ty.list 4294967295 (.int 16)).totalBits ≠ (Ty.list 4294967295 (.int 8)).totalBits :=
  ⟨by decide +kernel, by decide +kernel, rfl, rfl, rfl, rfl, by decide⟩

end Procedure

end ActorNet
