import ActorNet.Proofs.Casting.Completeness

/-!
# Casting a second time

Where no cast is missing, casting finds nothing to do: it answers that it inserted no cast, and
every instruction, every node and every local is as before (`insertCasts_of_typesSettled`). So
casting is idempotent, for it leaves no cast missing.

The walk makes an empty block for the instructions of each condition, and frees it again. While it
walks through the body of a loop, the block of the loop's condition is still there, in no list.
-/

namespace ActorNet

open List Procedure

variable {e : Expr} {es : List Expr} {i : InstId} {data : InstData} {ids : List InstId}
  {nodes : List NodeId} {o : Outside} {q q' q1 : Procedure} {required : Option Ty} {spot : Spot}
  {done : JoinCasts} {L : NodeList} {id n : NodeId} {casts depth pos : Nat}

/-! ## Expressions -/

lemma castIfRequired_fits (h : ∀ ty ∈ required, e.Fits (q.scope o.globals) ty) :
    Yields (castIfRequired o spot required e) q (e, 0) q := by
  cases required with
  | none => exact yields_pure.mpr ⟨rfl, rfl⟩
  | some ty =>
    obtain ⟨found, hfound, hagrees⟩ := h ty rfl
    refine yields_bind.mpr ⟨found, q, yields_requireTy.mpr ⟨hfound, rfl⟩, ?_⟩
    rw [Ty.agrees_iff_not_needsCast.mp hagrees]
    exact yields_pure.mpr ⟨rfl, rfl⟩

/-- The operands of a settled operator have the type that it requires. -/
lemma BinaryOp.operand?_of_takes {op : BinaryOp} {ty operand : Ty} {Γ : Scope} {lhs rhs : Expr}
    (h : op.Takes True ty operand) (hlhs : lhs.Fits Γ operand) (hrhs : rhs.Fits Γ operand) :
    op.operand? (lhs.ty? Γ) (rhs.ty? Γ) ty = some operand := by
  unfold BinaryOp.Takes at h
  unfold BinaryOp.operand?
  split
  · rename_i hop
    rw [if_pos hop] at h
    rw [h]
  · rename_i hop
    rw [if_neg hop] at h
    split
    · rename_i hcomp
      rw [if_pos hcomp] at h
      have hscalar := h trivial
      obtain ⟨l, hl, hagrees⟩ := hlhs
      obtain ⟨r, hr, hagrees'⟩ := hrhs
      cases hagrees.eq hscalar
      cases hagrees'.eq hscalar
      rw [hl, hr, bind_some, map_some, Ty.lub_self hscalar]
      rfl
    · rename_i hcomp
      rw [if_neg hcomp] at h
      rw [h]

mutual

lemma castExpr_settled : ∀ (e : Expr) {required : Option Ty}, e.Suits (q.scope o.globals) True required →
    Yields (castExpr o spot required e) q (e, 0) q
  | .bool _, _, h | .int _ _, _, h | .str _, _, h | .var _, _, h => castIfRequired_fits h.2
  | .unary op inner ty, required, ⟨⟨hinner, hfits⟩, h⟩ => by
    simp only [castExpr, yields_bind, yields_pure]
    refine ⟨_, q, castExpr_settled inner ⟨hinner, fun _ ha => Option.mem_some.mp ha ▸ hfits⟩, _, q,
      castIfRequired_fits h, rfl, rfl⟩
  | .binary op lhs rhs ty, required, ⟨⟨hlhs, hrhs, operand, htakes, hfl, hfr⟩, h⟩ => by
    simp only [castExpr, yields_bind, yields_pure]
    refine ⟨operand, q, yields_operandTy.mpr ⟨BinaryOp.operand?_of_takes htakes hfl hfr, rfl⟩, _, q,
      castExpr_settled lhs ⟨hlhs, fun _ ha => Option.mem_some.mp ha ▸ hfl⟩, _, q,
      castExpr_settled rhs ⟨hrhs, fun _ ha => Option.mem_some.mp ha ▸ hfr⟩, _, q, castIfRequired_fits h, rfl, rfl⟩
  | .list elems ty, required, ⟨helems, h⟩ => by
    simp only [castExpr, yields_bind, yields_pure]
    exact ⟨_, q, castAll_settled elems helems, _, q, castIfRequired_fits h, rfl, rfl⟩

lemma castAll_settled : ∀ (es : List Expr) {required : Option Ty},
    Expr.AllSettled (q.scope o.globals) True required es → Yields (castAll o spot required es) q (es, 0) q
  | [], _, _ => yields_pure.mpr ⟨rfl, rfl⟩
  | e :: rest, required, ⟨he, hrest⟩ => by
    simp only [castAll, yields_bind, yields_pure]
    exact ⟨_, q, castExpr_settled e he, _, q, castAll_settled rest hrest, rfl, rfl⟩

end

lemma castArgs_settled {tys : List Ty}
    (h : List.Forall₂ (fun e ty => e.Suits (q.scope o.globals) True (some ty)) es tys) :
    Yields (castArgs o spot es tys) q (es, 0) q := by
  induction h with
  | nil => exact yields_pure.mpr ⟨rfl, rfl⟩
  | cons he _ ih =>
    simp only [castArgs, yields_bind, yields_pure]
    exact ⟨_, q, castExpr_settled _ he, _, q, ih, rfl, rfl⟩

/-! ## Instructions -/

lemma replaceInst_self (hdata : q.inst? i = some data) : Yields (replaceInst i data.inst) q data.inst q := by
  refine yields_replaceInst.mpr ⟨data, hdata, rfl, ?_⟩
  have hslots : q.insts.slots.modify i.index (Option.map fun d => { d with inst := data.inst }) = q.insts.slots := by
    refine Array.ext_getElem? fun j => ?_
    rw [Array.getElem?_modify]
    split
    · rename_i hij
      subst hij
      have hslot : q.insts.slots[i.index]? = some (some data) := Option.join_eq_some_iff.mp hdata
      rw [hslot]
      rfl
    · rfl
  rw [Arena.modify, hslots]

lemma castInst_settled (hdata : q.inst? i = some data) (h : data.inst.Settled o True q) :
    Yields (castInst o i data.inst) q 0 q := by
  have hself := replaceInst_self hdata
  obtain ⟨inst, block, predicate⟩ := data
  cases inst with
  | assign target value =>
    obtain ⟨ty, hty, hsuits⟩ := h
    simp only [castInst, yields_bind, yields_pure, yields_liftM]
    exact ⟨ty, q, yields_requireTy.mpr ⟨hty, rfl⟩, _, q, castExpr_settled _ hsuits, _, q, hself, rfl, rfl⟩
  | load target source indexes =>
    obtain ⟨hindexes, declared, loaded, hdeclared, hloaded, hagrees⟩ := h
    simp only [castInst, yields_bind, yields_liftM]
    refine ⟨_, q, castAll_settled _ hindexes,
      _, q, hself, loaded, q, yields_requireElement.mpr ⟨hloaded, rfl⟩, declared, q,
      yields_requireTy.mpr ⟨hdeclared, rfl⟩, ?_⟩
    rw [Ty.agrees_iff_not_needsCast.mp hagrees]
    exact yields_pure.mpr ⟨rfl, rfl⟩
  | store target indexes value =>
    obtain ⟨hindexes, ty, hty, hsuits⟩ := h
    simp only [castInst, yields_bind, yields_pure, yields_liftM]
    exact ⟨_, q, castAll_settled _ hindexes, ty, q, yields_requireElement.mpr ⟨hty, rfl⟩, _, q,
      castExpr_settled _ hsuits, _, q, hself, rfl, rfl⟩
  | call target callee args =>
    obtain ⟨s, hs, hargs⟩ := h
    simp only [castInst, yields_bind, yields_pure, yields_liftM]
    exact ⟨s.params, q, yields_requireParams.mpr ⟨s, hs, hargs.length_eq.symm, rfl, rfl⟩, _, q,
      castArgs_settled hargs, _, q, hself, rfl, rfl⟩
  | ret value =>
    cases value with
    | none => exact yields_pure.mpr ⟨rfl, rfl⟩
    | some value =>
      obtain ⟨hvoid, hsuits⟩ := h value rfl
      simp only [castInst, yields_read]
      rw [if_neg hvoid]
      simp only [yields_bind, yields_pure, yields_liftM]
      exact ⟨_, q, castExpr_settled _ hsuits, _, q, hself, rfl, rfl⟩
  | phi | cast => exact yields_pure.mpr ⟨rfl, rfl⟩

lemma castInsts_settled (h : ∀ i ∈ ids, ∀ d ∈ q.inst? i, d.inst.Settled o True q) : Yields (castInsts o ids) q 0 q := by
  induction ids with
  | nil => exact yields_pure.mpr ⟨rfl, rfl⟩
  | cons i rest ih =>
    obtain ⟨hi, hrest⟩ := forall_mem_cons.mp h
    rw [castInsts, yields_read]
    cases hdata : q.inst? i with
    | none =>
      simp only [yields_bind, yields_pure]
      exact ⟨0, q, ⟨rfl, rfl⟩, 0, q, ih hrest, rfl, rfl⟩
    | some data =>
      simp only [yields_bind, yields_pure]
      exact ⟨0, q, castInst_settled hdata (hi data hdata), 0, q, ih hrest, rfl, rfl⟩

/-! ## Joins -/

lemma castArms_settled {arms : List PhiArm}
    {ty : Ty} (h : ∀ arm ∈ arms, (Expr.var arm.var).Fits (q.scope o.globals) ty) :
    Yields (castArms o L ty done arms) q (arms, done) q := by
  induction arms with
  | nil => exact yields_pure.mpr ⟨rfl, rfl⟩
  | cons arm rest ih =>
    obtain ⟨⟨found, hfound, hagrees⟩, hrest⟩ := forall_mem_cons.mp h
    simp only [castArms, yields_bind]
    refine ⟨found, q, yields_requireTy.mpr ⟨hfound, rfl⟩, ?_⟩
    rw [Ty.agrees_iff_not_needsCast.mp hagrees]
    exact yields_bind.mpr ⟨_, q, ih hrest, yields_pure.mpr ⟨rfl, rfl⟩⟩

lemma castPhis_settled (h : ∀ φ ∈ ids.filterMap q.phi?, φ.Settled (q.scope o.globals)) :
    Yields (castPhis o L done ids) q done q := by
  induction ids with
  | nil => exact yields_pure.mpr ⟨rfl, rfl⟩
  | cons i rest ih =>
    have hrest := ih fun φ hφ => h φ (((sublist_cons_self i rest).filterMap _).subset hφ)
    rw [castPhis, yields_read]
    split
    · rename_i target arms b predicate hdata
      obtain ⟨ty, hty, harms⟩ := h ⟨target, arms⟩
        (mem_filterMap.mpr ⟨i, mem_cons_self, phi?_eq_some.mpr ⟨b, predicate, hdata⟩⟩)
      have hself := replaceInst_self hdata
      simp only [yields_bind, yields_liftM]
      exact ⟨ty, q, yields_requireTy.mpr ⟨hty, rfl⟩, (arms, done), q, castArms_settled harms, _, q, hself, hrest⟩
    · exact hrest

/-! ## Nodes -/

/-- A procedure has the same nodes as another one, but may have more slots for them. -/
structure Procedure.Same (q q' : Procedure) : Prop where
  rest : q' = { q with nodes := q'.nodes }
  nodes : ∀ n, q'.node? n = q.node? n

/-- A procedure has the nodes of another one, and an empty block in a slot where the other one has
none. -/
structure Procedure.Pads (s : NodeId) (q q' : Procedure) : Prop where
  rest : q' = { q with nodes := q'.nodes }
  fresh : q.node? s = none
  nodes : ∀ n, q'.node? n = if n = s then some (.block []) else q.node? n

namespace Procedure

lemma Same.refl (q : Procedure) : q.Same q := ⟨rfl, fun _ => rfl⟩

lemma Same.trans (h : q.Same q1) (h' : q1.Same q') : q.Same q' := by
  refine ⟨?_, fun n => (h'.nodes n).trans (h.nodes n)⟩
  rw [h'.rest, h.rest]

lemma TypesSettledFrom.of_blocks (h : q.TypesSettledFrom o True nodes) (hrest : q' = { q with nodes := q'.nodes })
    (hnodes : ∀ n, q'.node? n = q.node? n ∨ q.node? n = none ∧ q'.node? n = some (.block [])) :
    q'.TypesSettledFrom o True nodes := by
  have hinsts : ∀ n, q'.blockInsts n = q.blockInsts n := by
    intro n
    rw [blockInsts, blockInsts]
    rcases hnodes n with heq | ⟨hnone, hblock⟩
    · rw [heq]
    · rw [hnone, hblock]
  have hlists : ∀ {ids n}, q'.Lists ids n → q.Lists ids n := by
    intro ids n hn
    induction hn with
    | here hn => exact .here hn
    | @inside ids m n node hm hnode _ ih =>
      rcases hnodes m with heq | ⟨_, hblock⟩
      · exact .inside hm (heq ▸ hnode) ih
      · cases hblock.symm.trans hnode
        exact absurd ih not_lists_nil
  intro n node hn hnode
  rcases hnodes n with heq | ⟨_, hblock⟩
  · have hsettled := h n node (hlists hn) (heq ▸ hnode)
    obtain ⟨slots, rfl⟩ : ∃ slots, q' = { q with nodes := slots } := ⟨_, hrest⟩
    cases node with
    | block => exact hsettled
    | branch _ _ _ join | loop _ _ join =>
      refine ⟨hsettled.1, ?_⟩
      rw [hinsts]
      exact hsettled.2
  · cases hblock.symm.trans hnode
    exact forall_mem_nil _

lemma Same.settled (h : q.Same q') (hs : q.TypesSettledFrom o True nodes) : q'.TypesSettledFrom o True nodes :=
  hs.of_blocks h.rest fun n => .inl (h.nodes n)

lemma Pads.settled {s : NodeId} (h : q.Pads s q') (hs : q.TypesSettledFrom o True nodes) :
    q'.TypesSettledFrom o True nodes := by
  refine hs.of_blocks h.rest fun n => ?_
  rw [h.nodes]
  split
  · rename_i hn
    exact .inr ⟨hn ▸ h.fresh, rfl⟩
  · exact .inl rfl

end Procedure

lemma castCondition_settled {node : Node} {c : Expr} (hid : q.node? id = some node)
    (hc : node.condition? = some c) (h : c.Suits (q.scope o.globals) True (some .bool)) :
    ∃ s q', Yields (castCondition o id c) q (s, 0) q' ∧ q.Pads s q' := by
  have hfresh : q.node? ⟨q.nodes.size⟩ = none := Arena.get?_eq_none_of_size_le _ le_rfl
  have hne : id ≠ ⟨q.nodes.size⟩ := by
    rintro rfl
    cases hfresh.symm.trans hid
  simp only [castCondition, yields_bind, yields_liftM, yields_pure]
  refine ⟨_, _, ⟨_, _, yields_newBlock.mpr ⟨rfl, rfl⟩, (c, 0), _, castExpr_settled c h, (), _,
    yields_modify.mpr rfl, rfl, rfl⟩, rfl, hfresh, fun n => ?_⟩
  rw [node?_modify, node?_push]
  by_cases hn : n = id
  · rw [if_pos hn, if_neg (hn ▸ hne), hn, hid]
    cases node with
    | block => cases hc
    | branch | loop =>
      cases hc
      rfl
  · rw [if_neg hn]

lemma Procedure.Pads.free {s : NodeId} (h : q.Pads s q1) (hsame : q1.Same q') :
    ∃ q2, Yields (freeNode s) q' () q2 ∧ q.Same q2 := by
  have hs : q'.node? s = some (.block []) := by rw [hsame.nodes, h.nodes, if_pos rfl]
  have hfree : freeTo (q'.nodes.size + 1) s q' = { q' with nodes := q'.nodes.erase s.index } := by
    rw [freeTo, hs]
    rfl
  refine ⟨_, yields_modify.mpr rfl, ?_, fun n => ?_⟩
  · rw [hfree, hsame.rest, h.rest]
  · rw [hfree, node?_erase, hsame.nodes, h.nodes]
    split
    · rename_i hn
      rw [hn, h.fresh]
    · rfl

lemma Procedure.Pads.blockInsts {s : NodeId} (h : q.Pads s q1) (hsame : q1.Same q') : q'.blockInsts s = [] := by
  rw [Procedure.blockInsts, hsame.nodes, h.nodes, if_pos rfl]

/-- Where no cast is missing in a list, walking through it changes nothing. -/
lemma visitEach_settled (pos casts : Nat)
    (hnode : ∀ (q : Procedure) (pos : Nat) (id : NodeId) (casts : Nat), q.TypesSettledFrom o True [id] →
      ∃ q', Yields (castNode o depth L pos id casts) q (0, casts) q' ∧ q.Same q')
    (h : q.TypesSettledFrom o True nodes) :
    ∃ q', Yields (Transform.visitEach (castNode o depth L) pos nodes casts) q casts q' ∧ q.Same q' := by
  induction nodes generalizing q pos with
  | nil => exact ⟨q, yields_pure.mpr ⟨rfl, rfl⟩, Same.refl q⟩
  | cons id rest ih =>
    obtain ⟨hid, hrest⟩ : q.TypesSettledFrom o True [id] ∧ q.TypesSettledFrom o True rest := typesSettledFrom_append.mp h
    obtain ⟨q1, hfirst, hsame1⟩ := hnode q pos id casts hid
    obtain ⟨q', hothers, hsame⟩ := ih _ (hsame1.settled hrest)
    exact ⟨q', yields_bind.mpr ⟨(0, casts), q1, hfirst, hothers⟩, hsame1.trans hsame⟩

/-- Where no cast is missing in a node, casting it changes nothing. The induction is on the
depth. -/
lemma castNode_settled (o : Outside) (depth : Nat) (L : NodeList) (q : Procedure) (pos : Nat)
    (id : NodeId) (casts : Nat) (h : q.TypesSettledFrom o True [id]) :
    ∃ q', Yields (castNode o depth L pos id casts) q (0, casts) q' ∧ q.Same q' := by
  induction depth generalizing L q pos id casts with
  | zero => exact ⟨q, yields_pure.mpr ⟨rfl, rfl⟩, Same.refl q⟩
  | succ depth ih =>
    rw [castNode]
    cases hid : q.node? id with
    | none =>
      refine ⟨q, yields_read.mpr ?_, Same.refl q⟩
      rw [hid]
      exact yields_pure.mpr ⟨rfl, rfl⟩
    | some node =>
      have hnode := h id node (.here mem_cons_self) hid
      have hinner : q.TypesSettledFrom o True node.listed := fun n found hn =>
        h n found (.inside mem_cons_self hid hn)
      cases node with
      | block insts =>
        refine ⟨q, yields_read.mpr ?_, Same.refl q⟩
        rw [hid]
        exact yields_bind.mpr ⟨0, q, castInsts_settled hnode, yields_pure.mpr ⟨rfl, rfl⟩⟩
      | branch c ts es join =>
        obtain ⟨hts, hes⟩ := typesSettledFrom_append.mp hinner
        obtain ⟨s, q1, hcond, hpads⟩ := castCondition_settled hid rfl hnode.1
        obtain ⟨q2, hfree, hsame2⟩ := hpads.free (Same.refl q1)
        obtain ⟨q3, hthen, hsame3⟩ := visitEach_settled 0 casts (ih (.thenOf id)) (hsame2.settled hts)
        have hsame3 := hsame2.trans hsame3
        obtain ⟨q4, helse, hsame4⟩ := visitEach_settled 0 casts (ih (.elseOf id)) (hsame3.settled hes)
        have hsame4 := hsame3.trans hsame4
        have hnode4 := hsame4.settled h id _ (.here mem_cons_self) ((hsame4.nodes id).trans hid)
        refine ⟨q4, yields_read.mpr ?_, hsame4⟩
        rw [hid]
        simp only [↓yields_read, yields_bind, yields_liftM, yields_pure]
        refine ⟨(s, 0), q1, hcond, 0, q1, ?_, (), q2, hfree, casts, q3, ?_, casts, q4, ?_,
          ⟨pos, casts⟩, q4, castPhis_settled hnode4.2, ?_, rfl⟩
        · rw [placeBefore, yields_get_bind, hpads.blockInsts (Same.refl q1)]
          exact yields_pure.mpr ⟨rfl, rfl⟩
        · rw [listNodes, hsame2.nodes, hid]
          exact hthen
        · rw [listNodes, hsame3.nodes, hid]
          exact helse
        · rw [Nat.sub_self]
      | loop c body join =>
        obtain ⟨s, q1, hcond, hpads⟩ := castCondition_settled hid rfl hnode.1
        have hid1 : q1.node? id = some (.loop c body join) := by
          rw [hpads.nodes, if_neg, hid]
          rintro rfl
          cases hpads.fresh.symm.trans hid
        obtain ⟨q2, hbody, hsame2⟩ := visitEach_settled 0 casts (ih (.bodyOf id)) (hpads.settled hinner)
        have hnode2 := hsame2.settled (hpads.settled h) id _ (.here mem_cons_self) ((hsame2.nodes id).trans hid1)
        obtain ⟨q3, hfree, hsame3⟩ := hpads.free hsame2
        refine ⟨q3, yields_read.mpr ?_, hsame3⟩
        rw [hid]
        simp only [↓yields_read, yields_bind, yields_liftM, yields_pure]
        refine ⟨(s, 0), q1, hcond, casts, q2, ?_, ⟨pos, casts⟩, q2, castPhis_settled hnode2.2, 0,
          q2, ?_, (), q3, hfree, ?_, rfl⟩
        · rw [listNodes, hid1]
          exact hbody
        · rw [placeAround, yields_get_bind, hpads.blockInsts hsame2]
          exact yields_pure.mpr ⟨rfl, rfl⟩
        · rw [hpads.blockInsts hsame2, Nat.add_zero, Nat.sub_self]
          rfl

/-! ## The pass -/

namespace Procedure

lemma insertCasts_of_typesSettled (h : q.TypesSettled o True) : ∃ q', Yields (insertCasts o) q 0 q' ∧ q.Same q' := by
  obtain ⟨q', hq, hsame⟩ := visitEach_settled 0 0 (castNode_settled o (q.depth + 1) .body) h
  exact ⟨q', yields_get_bind.mpr hq, hsame⟩

/-- The answer of casting is the number of casts by which the reachable instructions have grown.
Casting again succeeds, inserts nothing, and changes nothing: all parts but the arena of the nodes
are the same, and so is every node in it. -/
theorem insertCasts_idempotent {p p' : Procedure} {k : Nat} (hverify : p.verify = .ok ()) (hsingle : p.SingleAssignment)
    (hscalars : p.ComparesScalars o.globals) (h : (insertCasts o).run p = (.ok k, p')) :
    p'.allInsts.countP (fun d => d.inst.isCast) = p.allInsts.countP (fun d => d.inst.isCast) + k ∧
      ∃ p'', (insertCasts o).run p' = (.ok 0, p'') ∧ p'' = { p' with nodes := p''.nodes } ∧
        ∀ id, p''.node? id = p'.node? id := by
  obtain ⟨hsettled, hcount⟩ := insertCasts_spec hverify hsingle (S := True) (fun _ => hscalars) h
  obtain ⟨p'', hagain, hsame⟩ := insertCasts_of_typesSettled hsettled
  exact ⟨hcount, p'', hagain, hsame.rest, hsame.nodes⟩

/-- The seven casts of a loop that counts in narrow integers are not inserted twice. -/
theorem insertCasts_idempotent_count : Actor.count.verify = .ok () ∧ Actor.count.SingleAssignment ∧
    Actor.count.ComparesScalars (Actor.counting Actor.count).globals ∧
    (Actor.casted Actor.count).allInsts.countP (fun d => d.inst.isCast) =
      Actor.count.allInsts.countP (fun d => d.inst.isCast) + 7 ∧
    ∃ p'', (insertCasts ⟨(Actor.counting Actor.count).globals, (Actor.counting Actor.count).signatures⟩).run
        (Actor.casted Actor.count) = (.ok 0, p'') ∧ p'' = { Actor.casted Actor.count with nodes := p''.nodes } ∧
      ∀ id, p''.node? id = (Actor.casted Actor.count).node? id := by
  have hverify : Actor.count.verify = .ok () := by decide +kernel
  have hsingle : Actor.count.SingleAssignment := by decide +kernel
  have hscalars : Actor.count.ComparesScalars (Actor.counting Actor.count).globals := by decide +kernel
  exact ⟨hverify, hsingle, hscalars, insertCasts_idempotent hverify hsingle hscalars Actor.insertCasts_count⟩

end Procedure

end ActorNet
