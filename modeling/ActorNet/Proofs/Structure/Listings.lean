import Mathlib
import ActorNet.Proc.Copy
import ActorNet.Proofs.Structure.Edits

/-!
# Listings of instructions

A block lists its instructions, and an instruction records its block. `Procedure.Exact` says that
the two agree: an instruction stands in the block that it records, once, and nowhere else. Every
primitive change keeps this, also one that fails on a handle that is stale or names no block
(`Primitive.maintains_edit`), so it holds after any sequence of them. Changes of instructions are
all or nothing (`Atomic`).
-/

namespace ActorNet

open List Std.Do

set_option mvcgen.warning false

attribute [spec] Edit.fail

variable {b block : NodeId} {p : Procedure} {α : Type}

/-! ## What holds whatever the outcome is -/

section Outcomes

variable {ε σ : Type} {I : σ → Prop} {R : α → σ → Prop} {act : ExceptT ε (StateM σ) α} {s s' : σ}

lemma Yields.of_triple {x : α} {E : ExceptConds (.except ε (.arg σ .pure))} (hy : Yields act s x s')
    (h : ⦃fun s => ⌜I s⌝⦄ act ⦃(fun x s => ⌜R x s⌝, E)⦄) (hs : I s) : R x s' := by
  have hrun := h s hs
  simp [wp] at hrun
  have hact : StateT.run act.run s = (Except.ok x, s') := hy
  rw [hact] at hrun
  exact hrun

/-- A computation keeps a property of the state, whether it succeeds or fails. -/
abbrev Maintains (I : σ → Prop) (act : ExceptT ε (StateM σ) α) : Prop :=
  ⦃fun s => ⌜I s⌝⦄ act ⦃post⟨fun _ s => ⌜I s⌝, fun _ s => ⌜I s⌝⟩⦄

lemma Maintains.run (h : Maintains I act) (hs : I s) : I (act.run s).2 := by
  have hrun := h s hs
  simp [wp] at hrun
  show I (StateT.run act.run s).2
  rcases hact : StateT.run act.run s with ⟨_ | _, _⟩ <;> rw [hact] at hrun <;> exact hrun

/-- A computation that changes nothing if it fails. -/
def Atomic (act : ExceptT ε (StateM σ) α) : Prop :=
  ∀ ⦃s e s'⦄, act.run s = (.error e, s') → s' = s

lemma Atomic.of_triple
    (h : ∀ s0, ⦃fun s => ⌜s = s0⌝⦄ act ⦃post⟨fun _ _ => ⌜True⌝, fun _ s => ⌜s = s0⌝⟩⦄) : Atomic act := by
  intro s e s' hact
  have hrun := h s s rfl
  simp [wp] at hrun
  have hact : StateT.run act.run s = (Except.error e, s') := hact
  rw [hact] at hrun
  exact hrun

end Outcomes

namespace Procedure

variable {p' : Procedure} {inst : Inst} {id : InstId} {list : NodeList} {source target : NodeId} {index : Nat}
  {ids : List InstId}

/-! ## Changes of nodes -/

/-- Only nodes and lists of nodes differ, and all blocks list the same instructions. -/
structure SameListings (p p' : Procedure) : Prop where
  listed : ∀ b, p'.blockInsts b = p.blockInsts b
  rest : p' = { p with nodes := p'.nodes, body := p'.body }

lemma SameListings.refl (p : Procedure) : SameListings p p := ⟨fun _ => rfl, rfl⟩

lemma SameListings.trans {q : Procedure} (h : SameListings p q) (h' : SameListings q p') : SameListings p p' :=
  ⟨fun b => (h'.listed b).trans (h.listed b), by rw [h'.rest, h.rest]⟩

lemma SameListings.push {node : Node} (h : ∀ is, node = .block is → is = []) :
    SameListings p { p with nodes := p.nodes.push node } := by
  refine ⟨fun b => ?_, rfl⟩
  simp only [blockInsts, node?_push]
  by_cases hb : b = ⟨p.nodes.size⟩
  · have hnone : p.node? b = none := hb ▸ Arena.get?_eq_none_of_size_le _ le_rfl
    rw [if_pos hb, hnone]
    cases node with
    | block is => exact h is rfl
    | branch _ _ _ _ | loop _ _ _ => rfl
  · rw [if_neg hb]

lemma sameListings_of_updateList? {f : List NodeId → List NodeId}
    (h : p.updateList? list f = some p') : SameListings p p' := by
  have hchange := listChange_of_updateList? h
  refine ⟨fun b => ?_, hchange.rest⟩
  by_cases hb : list.owner? = some b
  · -- the owner of a list is no block, before and after
    have hnone : ∀ {q : Procedure}, (q.around? list).isSome → q.blockInsts b = [] := by
      intro q hq
      cases list <;> cases hb <;> simp only [around?] at hq <;> split at hq <;> simp_all [blockInsts]
    have hsome : (p.around? list).isSome := by
      cases list <;> cases hb <;> simp only [updateList?] at h <;> split at h <;> simp_all [around?]
    rw [hnone hsome, hnone (hchange.around ▸ hsome)]
  · exact Tree.blockInsts_congr (hchange.nodes b hb)

section Lists

variable {I : Procedure → Prop} (hI : ∀ {q q'}, SameListings q q' → I q → I q')

include hI

lemma maintains_newBlock : Maintains I newBlock := by
  mvcgen [newBlock, addNode]
  exact hI (.push fun _ h => by cases h; rfl) ‹_›

lemma maintains_updateList (list : NodeList) (f : List NodeId → List NodeId) : Maintains I (updateList list f) := by
  mvcgen [updateList]
  exact hI (sameListings_of_updateList? ‹_›) ‹_›

lemma maintains_ensureLastBlock (list : NodeList) : Maintains I (ensureLastBlock list) := by
  have hnew := maintains_newBlock hI
  have hlist := maintains_updateList hI
  mvcgen [ensureLastBlock, pushNode, hnew, hlist]

lemma maintains_blockBefore (list : NodeList) (pos : Nat) : Maintains I (blockBefore list pos) := by
  have hnew := maintains_newBlock hI
  have hlist := maintains_updateList hI
  mvcgen [blockBefore, insertNode, hnew, hlist]

lemma maintains_edgeBlock (list : NodeList) (pos : Nat) (edge : Edge) : Maintains I (edgeBlock list pos edge) := by
  have hlast := maintains_ensureLastBlock hI
  have hbefore := maintains_blockBefore hI
  mvcgen [edgeBlock, hlast, hbefore]

end Lists

lemma SameListings.of_maintains {act : Edit α} {x : α} (h : Maintains (SameListings p) act)
    (hy : Yields act p x p') : SameListings p p' :=
  hy.of_triple h (.refl p)

lemma sameListings_ensureLastBlock (hy : Yields (ensureLastBlock list) p b p') : SameListings p p' :=
  .of_maintains (maintains_ensureLastBlock (fun h h' => h'.trans h) list) hy

lemma sameListings_blockBefore {pos : Nat} {x : NodeId × Bool}
    (hy : Yields (blockBefore list pos) p x p') : SameListings p p' :=
  .of_maintains (maintains_blockBefore (fun h h' => h'.trans h) list pos) hy

lemma sameListings_edgeBlock {pos : Nat} {edge : Edge} {x : NodeId × Bool}
    (hy : Yields (edgeBlock list pos edge) p x p') : SameListings p p' :=
  .of_maintains (maintains_edgeBlock (fun h h' => h'.trans h) list pos edge) hy

/-! ## Listings and records agree -/

def blockOf? (p : Procedure) (i : InstId) : Option NodeId :=
  (p.inst? i).map (·.block)

/-- An instruction is listed once in the block that it records, and not at all in other blocks; one
that is not there is listed nowhere. -/
def Exact (p : Procedure) : Prop :=
  ∀ b i, (p.blockInsts b).count i = if p.blockOf? i = some b then 1 else 0

namespace Exact

lemma congr (h : p.Exact) (hlisted : ∀ b, p'.blockInsts b = p.blockInsts b)
    (hrecorded : ∀ i, p'.blockOf? i = p.blockOf? i) : p'.Exact := by
  intro b i
  rw [hlisted, hrecorded]
  exact h b i

lemma mem_iff (h : p.Exact) {i : InstId} : i ∈ p.blockInsts b ↔ p.blockOf? i = some b := by
  rw [← count_pos_iff, h b i]
  split <;> simp_all

/-- The instructions of a block are taken off, and with them what they record. -/
lemma clear (h : p.Exact) (block : NodeId)
    (hlisted : ∀ b, p'.blockInsts b = if b = block then [] else p.blockInsts b)
    (hrecorded : ∀ i, p'.blockOf? i = if i ∈ p.blockInsts block then none else p.blockOf? i) : p'.Exact := by
  intro b i
  have hcount := h b i
  have hmem : i ∈ p.blockInsts block ↔ p.blockOf? i = some block := h.mem_iff
  rw [hlisted, hrecorded]
  grind

end Exact

lemma SameListings.exact (h : SameListings p p') (hp : p.Exact) : p'.Exact :=
  hp.congr h.listed fun i => by rw [h.rest]; rfl

lemma insertAt_perm (index : Nat) (x : α) (l : List α) : (insertAt index x l).Perm (x :: l) := by
  have hmiddle : (l.take index ++ x :: l.drop index).Perm (x :: (l.take index ++ l.drop index)) := perm_middle
  rwa [take_append_drop] at hmiddle

lemma split_of_position? {k : Nat} (h : p.position? id = some (b, k)) : ∃ pre post,
    p.node? b = some (.block (pre ++ id :: post)) ∧ k = pre.length ∧ p.blockOf? id = some b := by
  simp only [position?, Option.bind_eq_bind, bind_eq_some_iff] at h
  obtain ⟨d, hd, index, hindex, hpos⟩ := h
  cases hpos
  obtain ⟨hlt, hid, -⟩ := findIdx?_eq_some_iff_getElem.mp hindex
  have hsplit : p.blockInsts d.block = (p.blockInsts d.block).take k ++ id :: (p.blockInsts d.block).drop (k + 1) := by
    rw [← of_decide_eq_true hid, ← drop_eq_getElem_cons hlt, take_append_drop]
  refine ⟨(p.blockInsts d.block).take k, (p.blockInsts d.block).drop (k + 1), ?_,
    (length_take_of_le (Nat.le_of_lt hlt)).symm, by rw [blockOf?, hd]; rfl⟩
  rw [← hsplit]
  unfold blockInsts at hlt ⊢
  split at hlt
  · rename_i insts hnode
    rw [hnode]
  · cases hlt

namespace Exact

variable {insts : List InstId} {pos : NodeId × Nat}

lemma insert (hp : p.Exact) (hblock : p.node? block = some (.block insts))
    (hp' : p' = { p with insts := p.insts.push { inst := inst, block := block } }.setBlock block
      (insertAt index ⟨p.insts.size⟩ insts)) : p'.Exact := by
  have hlisted : ∀ b, p'.blockInsts b = if b = block then insertAt index ⟨p.insts.size⟩ insts else p.blockInsts b := by
    rw [hp']
    exact blockInsts_setBlock (p := { p with insts := _ }) hblock _
  have hrecorded : ∀ i, p'.blockOf? i = if i = ⟨p.insts.size⟩ then some block else p.blockOf? i := by
    intro i
    rw [hp', blockOf?, inst?_setBlock, inst?_push]
    split <;> rfl
  -- the handle is new, so it was listed nowhere
  have hnew : p.inst? ⟨p.insts.size⟩ = none := Arena.get?_eq_none_of_size_le _ le_rfl
  have hfresh : p.blockOf? ⟨p.insts.size⟩ = none := by rw [blockOf?, hnew, map_none]
  intro b i
  have hcount := hp b i
  have hperm := (insertAt_perm index (InstId.mk p.insts.size) insts).count_eq i
  rw [hlisted, hrecorded]
  grind [blockInsts_eq hblock]

lemma remove (hp : p.Exact) (hpos : p.position? id = some pos)
    (hp' : p' = (p.setBlock pos.1 ((p.blockInsts pos.1).eraseIdx pos.2)).eraseInsts [id]) : p'.Exact := by
  obtain ⟨block, index⟩ := pos
  obtain ⟨pre, post, hblock, rfl, hrec⟩ := split_of_position? hpos
  simp only [blockInsts_eq hblock, eraseIdx_middle] at hp'
  have hlisted : ∀ b, p'.blockInsts b = if b = block then pre ++ post else p.blockInsts b := by
    rw [hp']
    exact blockInsts_setBlock hblock _
  have hrecorded : ∀ i, p'.blockOf? i = if i = id then none else p.blockOf? i := by
    intro i
    rw [hp', blockOf?, inst?_eraseInsts, inst?_setBlock]
    by_cases hi : i = id <;> simp [hi, blockOf?]
  intro b i
  have hcount := hp b i
  rw [hlisted, hrecorded]
  grind [blockInsts_eq hblock]

lemma modify (hp : p.Exact) (id : InstId) {f : InstData → InstData}
    (hf : ∀ d, (f d).block = d.block) : { p with insts := p.insts.modify id.index f }.Exact := by
  refine hp.congr (fun _ => rfl) fun i => ?_
  rw [blockOf?, inst?_modify, blockOf?]
  split
  · rw [Option.map_map]
    exact Option.map_congr fun d _ => hf d
  · rfl

lemma blockOf?_recordBlock (hids : ∀ i ∈ ids, (p.blockOf? i).isSome) (i : InstId) :
    (p.recordBlock block ids).blockOf? i = if i ∈ ids then some block else p.blockOf? i := by
  rw [blockOf?, inst?_recordBlock]
  split
  · rename_i hi
    have hsome := hids i hi
    rw [blockOf?, Option.isSome_map] at hsome
    obtain ⟨d, hd⟩ := isSome_iff_exists.mp hsome
    rw [hd]
    rfl
  · rfl

lemma move (hp : p.Exact) (hpos : p.position? id = some pos) (htarget : p.node? target = some (.block insts))
    (hp' : p' = let q := p.setBlock pos.1 ((p.blockInsts pos.1).eraseIdx pos.2)
      (q.setBlock target (q.blockInsts target ++ [id])).recordBlock target [id]) : p'.Exact := by
  obtain ⟨block, index⟩ := pos
  obtain ⟨pre, post, hblock, rfl, hrec⟩ := split_of_position? hpos
  simp only [blockInsts_eq hblock, eraseIdx_middle] at hp'
  have hout : ∀ b, (p.setBlock block (pre ++ post)).blockInsts b = if b = block then pre ++ post else p.blockInsts b :=
    blockInsts_setBlock hblock _
  have htarget' : ∃ is, (p.setBlock block (pre ++ post)).node? target = some (.block is) := by
    rw [node?_setBlock, htarget]
    split
    · exact ⟨_, rfl⟩
    · exact ⟨_, rfl⟩
  obtain ⟨is, htarget'⟩ := htarget'
  have hlisted : ∀ b, p'.blockInsts b = if b = target then (p.setBlock block (pre ++ post)).blockInsts target ++ [id]
      else (p.setBlock block (pre ++ post)).blockInsts b := by
    rw [hp']
    exact blockInsts_setBlock htarget' _
  have hrecorded : ∀ i, p'.blockOf? i = if i = id then some target else p.blockOf? i := by
    intro i
    rw [hp', blockOf?_recordBlock]
    · simp only [mem_singleton]
      rfl
    · intro j hj
      cases mem_singleton.mp hj
      exact Option.isSome_of_eq_some hrec
  intro b i
  have hcount := hp b i
  rw [hlisted, hrecorded, hout, hout]
  have := hp target i
  grind [blockInsts_eq hblock]

lemma append {kept moved : List InstId} (hp : p.Exact) (hne : ¬ target = source)
    (htarget : p.node? target = some (.block kept)) (hsource : p.node? source = some (.block moved))
    (hp' : p' = ((p.setBlock source []).recordBlock target moved).setBlock target (kept ++ moved)) : p'.Exact := by
  have hempty : ∀ b, (p.setBlock source []).blockInsts b = if b = source then [] else p.blockInsts b :=
    blockInsts_setBlock hsource _
  have hlisted : ∀ b, p'.blockInsts b = if b = target then kept ++ moved
      else (p.setBlock source []).blockInsts b := by
    have hkept : ((p.setBlock source []).recordBlock target moved).node? target = some (.block kept) := by
      show (p.setBlock source []).node? target = _
      rw [node?_setBlock, if_neg hne, htarget]
    rw [hp']
    exact blockInsts_setBlock hkept _
  have hrecorded : ∀ i, p'.blockOf? i = if i ∈ moved then some target else p.blockOf? i := by
    intro i
    rw [hp']
    refine blockOf?_recordBlock (p := p.setBlock source []) (fun j hj => ?_) i
    rw [← blockInsts_eq hsource, hp.mem_iff] at hj
    exact Option.isSome_of_eq_some hj
  intro b i
  have hcount := hp b i
  have hmoved : i ∈ moved ↔ p.blockOf? i = some source := by rw [← hp.mem_iff, blockInsts_eq hsource]
  have hsource' := hp source i
  rw [hlisted, hrecorded, hempty]
  grind [blockInsts_eq hsource, blockInsts_eq htarget]

lemma clearBlock (hp : p.Exact) (hblock : p.node? block = some (.block insts)) :
    ((p.setBlock block []).eraseInsts insts).Exact := by
  refine hp.clear block (blockInsts_setBlock hblock []) fun i => ?_
  rw [blockInsts_eq hblock, blockOf?, inst?_eraseInsts, inst?_setBlock]
  split <;> rfl

/-! ## Freeing -/

lemma freeTo {depth : Nat} {id : NodeId} (hp : p.Exact) : (freeTo depth id p).Exact := by
  induction depth generalizing id p with
  | zero => exact hp
  | succ depth ih =>
    have heach : ∀ (children : List NodeId) (q : Procedure), q.Exact →
        (children.foldl (fun q child => Procedure.freeTo depth child q) q).Exact := by
      intro children
      induction children with
      | nil => exact fun _ hq => hq
      | cons child rest ihrest => exact fun q hq => ihrest _ (ih hq)
    have hlisted : ∀ b, { p with nodes := p.nodes.erase id.index }.blockInsts b =
        if b = id then [] else p.blockInsts b := by
      intro b
      rw [blockInsts, node?_erase]
      by_cases hb : b = id
      · rw [if_pos hb, if_pos hb]
      · rw [if_neg hb, if_neg hb, blockInsts]
    -- a node that is no block takes no instruction with it
    have hinner : p.blockInsts id = [] → { p with nodes := p.nodes.erase id.index }.Exact := by
      intro hnone
      refine hp.congr (fun b => ?_) fun _ => rfl
      rw [hlisted]
      split
      · rename_i hb
        rw [hb, hnone]
      · rfl
    rw [Procedure.freeTo]
    cases hnode : p.node? id with
    | none => exact hp
    | some node =>
      cases node with
      | block insts =>
        refine hp.clear id hlisted fun i => ?_
        rw [blockInsts_eq hnode, blockOf?, inst?_eraseInsts]
        split <;> rfl
      | branch | loop => exact heach _ _ (hinner (by rw [blockInsts, hnode]))

end Exact

lemma maintains_copyInsts (target : NodeId) (seen : List (InstId × InstId)) (ids : List InstId) :
    Maintains Exact (copyInsts target seen ids) := by
  induction ids generalizing seen with
  | nil => mvcgen [copyInsts]
  | cons id rest ih =>
    mvcgen [copyInsts, appendInst, insertInst, requireBlock, setPredicate, ih]
    exact Exact.modify (Exact.insert ‹_› ‹_› rfl) _ fun _ => rfl

end Procedure

/-! ## Sequences of changes -/

/-- A call of one of the primitive changes, with any handles. -/
inductive Primitive where
  | newBlock
  | newBranch (condition : Expr)
  | newLoop (condition : Expr)
  | insertNode (list : NodeList) (index : Nat) (node : NodeId)
  | ensureFirstBlock (list : NodeList)
  | ensureLastBlock (list : NodeList)
  | blockBefore (list : NodeList) (pos : Nat)
  | edgeBlock (list : NodeList) (pos : Nat) (edge : Edge)
  | freeNode (id : NodeId)
  | insertInst (block : NodeId) (index : Nat) (inst : Inst)
  | insertBefore (anchor : InstId) (inst : Inst)
  | insertAfter (anchor : InstId) (inst : Inst)
  | removeInst (id : InstId)
  | replaceInst (id : InstId) (inst : Inst)
  | moveInst (id : InstId) (target : NodeId)
  | appendBlock (target source : NodeId)
  | clearBlock (block : NodeId)
  | copyInsts (ids : List InstId) (target : NodeId)

namespace Primitive

/-- What a call does; its answer is left out. -/
def edit : Primitive → Edit Unit
  | newBlock => discard Procedure.newBlock
  | newBranch condition => discard (Procedure.newBranch condition)
  | newLoop condition => discard (Procedure.newLoop condition)
  | insertNode list index node => Procedure.insertNode list index node
  | ensureFirstBlock list => discard (Procedure.ensureFirstBlock list)
  | ensureLastBlock list => discard (Procedure.ensureLastBlock list)
  | blockBefore list pos => discard (Procedure.blockBefore list pos)
  | edgeBlock list pos edge => discard (Procedure.edgeBlock list pos edge)
  | freeNode id => Procedure.freeNode id
  | insertInst block index inst => discard (Procedure.insertInst block index inst)
  | insertBefore anchor inst => discard (Procedure.insertBefore anchor inst)
  | insertAfter anchor inst => discard (Procedure.insertAfter anchor inst)
  | removeInst id => discard (Procedure.removeInst id)
  | replaceInst id inst => discard (Procedure.replaceInst id inst)
  | moveInst id target => Procedure.moveInst id target
  | appendBlock target source => Procedure.appendBlock target source
  | clearBlock block => Procedure.clearBlock block
  | copyInsts ids target => discard (Procedure.copyInsts target [] ids)

/-- The procedure after a call, whether it has succeeded or failed. -/
def apply (p : Procedure) (call : Primitive) : Procedure :=
  (call.edit.run p).2

/-- Whether a call changes one instruction, or the instructions of one or two blocks. -/
def changesInsts : Primitive → Bool
  | insertInst _ _ _ | insertBefore _ _ | insertAfter _ _ | removeInst _ | replaceInst _ _ | moveInst _ _
  | appendBlock _ _ | clearBlock _ => true
  | _ => false

open Procedure

lemma discard_eq_map (act : Edit α) : discard act = (fun _ => ()) <$> act := rfl

lemma maintains_edit (call : Primitive) : Maintains Exact call.edit := by
  have hsame : ∀ {q q'}, SameListings q q' → q.Exact → q'.Exact := SameListings.exact
  have hnew := maintains_newBlock hsame
  have hlist := maintains_updateList hsame
  have hlast := maintains_ensureLastBlock hsame
  have hbefore := maintains_blockBefore hsame
  have hedge := maintains_edgeBlock hsame
  cases call <;> simp only [edit, discard_eq_map]
  case newBranch | newLoop =>
    mvcgen [Procedure.newBranch, Procedure.newLoop, addNode, hnew]
    exact hsame (.push fun _ h => by cases h) ‹_›
  case insertInst | insertBefore | insertAfter =>
    mvcgen [Procedure.insertInst, Procedure.insertBefore, Procedure.insertAfter, requireBlock, requirePosition]
    exact Exact.insert ‹_› ‹_› rfl
  case removeInst =>
    mvcgen [Procedure.removeInst, requirePosition]
    exact Exact.remove ‹_› ‹_› rfl
  case replaceInst =>
    mvcgen [Procedure.replaceInst]
    exact Exact.modify ‹_› _ fun _ => rfl
  case moveInst =>
    mvcgen [Procedure.moveInst, requireBlock, requirePosition]
    exact Exact.move ‹_› ‹_› ‹_› rfl
  case appendBlock =>
    mvcgen [Procedure.appendBlock, requireBlock]
    exact Exact.append ‹_› ‹_› ‹_› ‹_› rfl
  case clearBlock =>
    mvcgen [Procedure.clearBlock, requireBlock]
    exact Exact.clearBlock ‹_› ‹_›
  case freeNode =>
    mvcgen [Procedure.freeNode]
    exact Exact.freeTo ‹_›
  all_goals mvcgen [Procedure.insertNode, Procedure.ensureFirstBlock, hnew, hlist, hlast, hbefore,
    hedge, maintains_copyInsts]

/-- Handles are checked before anything is changed. -/
lemma atomic_edit {call : Primitive} (h : call.changesInsts = true) : Atomic call.edit := by
  refine Atomic.of_triple fun p => ?_
  cases call with
  | newBlock | newBranch | newLoop | insertNode | ensureFirstBlock | ensureLastBlock | blockBefore | edgeBlock | freeNode
  | copyInsts => cases h
  | _ =>
    simp only [edit, discard_eq_map]
    mvcgen [Procedure.insertInst, Procedure.insertBefore, Procedure.insertAfter,
      Procedure.removeInst, Procedure.replaceInst, Procedure.moveInst, Procedure.appendBlock,
      Procedure.clearBlock, requireBlock, requirePosition]

lemma exact_empty (name : String) (returnTy : Ty) : Exact { name := name, returnTy := returnTy } := by
  intro b i
  have hnode : ({ name := name, returnTy := returnTy } : Procedure).node? b = none := rfl
  have hinst : ({ name := name, returnTy := returnTy } : Procedure).inst? i = none := rfl
  rw [blockInsts, hnode, blockOf?, hinst]
  rfl

lemma exact_foldl_apply (calls : List Primitive) (h : p.Exact) : (calls.foldl apply p).Exact := by
  induction calls generalizing p with
  | nil => exact h
  | cons call rest ih => exact ih ((maintains_edit call).run h)

/-- After any calls on an empty procedure, a live instruction is listed once in the block that it
records and in no other block, and every listed instruction is live. Calls that change instructions
change nothing if they fail. -/
theorem listed_once_after_calls (name : String) (returnTy : Ty) (calls : List Primitive) :
    let p := calls.foldl apply { name := name, returnTy := returnTy }
    (∀ i d, p.inst? i = some d →
      (p.blockInsts d.block).count i = 1 ∧ ∀ b, b ≠ d.block → i ∉ p.blockInsts b) ∧
    (∀ b, ∀ i ∈ p.blockInsts b, (p.inst? i).isSome) ∧
    ∀ call : Primitive, call.changesInsts = true → ∀ e, (call.edit.run p).1 = .error e → apply p call = p := by
  intro p
  have hexact : p.Exact := exact_foldl_apply calls (exact_empty name returnTy)
  refine ⟨fun i d hd => ?_, fun b i hi => ?_, fun call hcall e he => ?_⟩
  · have hrec : p.blockOf? i = some d.block := by rw [blockOf?, hd, Option.map_some]
    refine ⟨by rw [hexact, if_pos hrec], fun b hb hi => hb ?_⟩
    rw [hexact.mem_iff, hrec] at hi
    exact (Option.some.inj hi).symm
  · rw [hexact.mem_iff, blockOf?] at hi
    obtain ⟨d, hd, -⟩ := Option.map_eq_some_iff.mp hi
    exact Option.isSome_of_eq_some hd
  · exact atomic_edit hcall (Prod.ext he rfl)

/-- A conditional that contains itself and whose join takes over the instructions of a block; calls
with handles that are stale or name no block, one of which has copied an instruction before it
fails; and the conditional is freed. -/
def tangle : List Primitive :=
  [newBlock, newBranch (.bool true), insertNode (.thenOf ⟨2⟩) 0 ⟨2⟩, insertNode (.elseOf ⟨2⟩) 0 ⟨0⟩,
    insertInst ⟨0⟩ 0 (.ret none), insertBefore ⟨0⟩ (.ret none), moveInst ⟨0⟩ ⟨0⟩, appendBlock ⟨1⟩ ⟨0⟩,
    appendBlock ⟨1⟩ ⟨1⟩, newBlock, copyInsts [⟨1⟩, ⟨9⟩] ⟨3⟩, insertInst ⟨2⟩ 0 (.ret none), freeNode ⟨2⟩, removeInst ⟨0⟩]

/-- Of all instructions, the copy is left, in the only block that is left; moving it to a freed
block fails. -/
theorem listed_once_after_calls_tangle :
    let p := tangle.foldl apply { name := "tangle", returnTy := .void }
    (∃ d, p.inst? ⟨2⟩ = some d ∧ d.block = ⟨3⟩ ∧ (p.blockInsts ⟨3⟩).count ⟨2⟩ = 1) ∧ (p.inst? ⟨1⟩).isNone ∧
      (∃ e, ((moveInst ⟨2⟩ ⟨1⟩).edit.run p).1 = .error e) ∧ apply p (moveInst ⟨2⟩ ⟨1⟩) = p := by
  intro p
  obtain ⟨honce, -, hatomic⟩ := listed_once_after_calls "tangle" .void tangle
  have hcopy : p.blockOf? ⟨2⟩ = some ⟨3⟩ := by decide +kernel
  have hfreed : (p.inst? ⟨1⟩).isNone := by decide +kernel
  have hfails : ((moveInst ⟨2⟩ ⟨1⟩).edit.run p).1 = .error ⟨"tangle", .staleNode ⟨1⟩⟩ := by decide +kernel
  obtain ⟨d, hd, hblock⟩ := Option.map_eq_some_iff.mp hcopy
  exact ⟨⟨d, hd, hblock, hblock ▸ (honce ⟨2⟩ d hd).1⟩, hfreed, ⟨_, hfails⟩, hatomic _ rfl _ hfails⟩

end Primitive

end ActorNet
