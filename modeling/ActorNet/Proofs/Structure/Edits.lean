import ActorNet.Proofs.Structure.Layout

/-!
# What edits do to the tables

One lemma for each primitive edit says when it succeeds and what it leaves, and one lemma for each
change of a table says what is in its slots afterwards. `around?` is the node around a list with the
list left out, so that a list and its surroundings can be talked about apart.

The number of a temporary is found among as many candidates as there are locals, and one more.
Different numbers give different names, so one of them is free (`freeTemp_spec`). A free name is not
the name of another location; it is not the shown name of another local either, unless a suffix or
the index of a version makes up the number in it.
-/

namespace ActorNet

open Arena List

variable {c : Expr} {inst : Inst} {d : InstData} {i id new : InstId} {e t : List NodeId} {f : List NodeId → List NodeId}
  {pos : Nat} {b block j n : NodeId} {x : NodeId × Bool} {list L : NodeList} {α : Type} {u : Unit} {p p' q : Procedure}

lemma NodeId.index_inj {m : NodeId} : m.index = n.index ↔ m = n := by
  cases m
  cases n
  simp

lemma InstId.index_inj {j : InstId} : i.index = j.index ↔ i = j := by
  cases i
  cases j
  simp

lemma LocalId.index_inj {i j : LocalId} : i.index = j.index ↔ i = j := by
  cases i
  cases j
  simp

namespace Procedure

/-! ## Slots after a change -/

lemma index_lt_of_node? {node : Node} (h : p.node? n = some node) : n.index < p.nodes.size :=
  lt_size_of_get? h

lemma index_lt_of_inst? (h : p.inst? i = some d) : i.index < p.insts.size :=
  lt_size_of_get? h

lemma node?_push (node : Node) (n : NodeId) : { p with nodes := p.nodes.push node }.node? n =
    if n = ⟨p.nodes.size⟩ then some node else p.node? n := by
  simp only [node?, get?_push, ← NodeId.index_inj]

lemma node?_modify (f : Node → Node) (id n : NodeId) :
    { p with nodes := p.nodes.modify id.index f }.node? n = if n = id then (p.node? n).map f else p.node? n := by
  simp only [node?, get?_modify, NodeId.index_inj, @eq_comm _ id n]

lemma node?_erase (id n : NodeId) :
    { p with nodes := p.nodes.erase id.index }.node? n = if n = id then none else p.node? n := by
  simp only [node?, get?_erase, NodeId.index_inj, @eq_comm _ id n]

lemma inst?_push (d : InstData) (i : InstId) : { p with insts := p.insts.push d }.inst? i =
    if i = ⟨p.insts.size⟩ then some d else p.inst? i := by
  simp only [inst?, get?_push, ← InstId.index_inj]

lemma inst?_modify (f : InstData → InstData) (id i : InstId) :
    { p with insts := p.insts.modify id.index f }.inst? i = if i = id then (p.inst? i).map f else p.inst? i := by
  simp only [inst?, get?_modify, InstId.index_inj, @eq_comm _ id i]

lemma node?_setBlock (id n : NodeId) (insts : List InstId) : (p.setBlock id insts).node? n =
    if n = id then (p.node? n).map fun _ => .block insts else p.node? n :=
  node?_modify _ id n

lemma blockInsts_setBlock {is : List InstId} (hb : p.node? b = some (.block is)) (l : List InstId)
    (n : NodeId) : (p.setBlock b l).blockInsts n = if n = b then l else p.blockInsts n := by
  by_cases hn : n = b
  · rw [if_pos hn, hn, blockInsts, node?_setBlock, if_pos rfl, hb]
    rfl
  · rw [if_neg hn, blockInsts, blockInsts, node?_setBlock, if_neg hn]

@[simp] lemma inst?_setBlock (id : NodeId) (insts : List InstId) (i : InstId) :
    (p.setBlock id insts).inst? i = p.inst? i := rfl

@[simp] lemma size_nodes_setBlock (id : NodeId) (insts : List InstId) :
    (p.setBlock id insts).nodes.size = p.nodes.size :=
  size_modify _ _ _

lemma inst?_eraseInsts (ids : List InstId) (i : InstId) :
    (p.eraseInsts ids).inst? i = if i ∈ ids then none else p.inst? i := by
  unfold eraseInsts inst?
  show (ids.foldl (fun insts id => insts.erase id.index) p.insts).get? i.index = _
  generalize p.insts = insts
  induction ids generalizing insts with
  | nil => rfl
  | cons j rest ih =>
    rw [foldl_cons, ih, get?_erase]
    by_cases hj : i = j
    · simp [hj]
    · have : ¬ j.index = i.index := fun h => hj (InstId.index_inj.mp h.symm)
      simp [hj, this]

lemma size_insts_eraseInsts (ids : List InstId) : (p.eraseInsts ids).insts.size = p.insts.size := by
  unfold eraseInsts
  show (ids.foldl (fun insts id => insts.erase id.index) p.insts).size = _
  generalize p.insts = insts
  induction ids generalizing insts with
  | nil => rfl
  | cons j rest ih => rw [foldl_cons, ih, size_erase]

lemma inst?_recordBlock (block : NodeId) (ids : List InstId) (i : InstId) :
    (p.recordBlock block ids).inst? i = if i ∈ ids then (p.inst? i).map fun d => { d with block := block }
      else p.inst? i := by
  unfold recordBlock inst?
  show (ids.foldl (fun insts id => insts.modify id.index fun d => { d with block := block }) p.insts).get? i.index = _
  generalize p.insts = insts
  induction ids generalizing insts with
  | nil => rfl
  | cons j rest ih =>
    rw [foldl_cons, ih, get?_modify]
    by_cases hj : i = j
    · subst hj
      by_cases hi : i ∈ rest
      · simp only [hi, if_true, mem_cons, true_or, Option.map_map, Function.comp_def]
      · simp only [hi, if_false, if_true, mem_cons, true_or]
    · have hne : ¬ j.index = i.index := fun h => hj (InstId.index_inj.mp h.symm)
      simp only [hne, if_false, mem_cons, hj, false_or]

/-! ## Lists and what is around them -/

/-- The node around a list with the list left out, nothing for the body; none if there is no such
list. -/
def around? (p : Procedure) : NodeList → Option (Option Node)
  | .body => some none
  | .thenOf id =>
    match p.node? id with
    | some (.branch c _ e j) => some (some (.branch c [] e j))
    | _ => none
  | .elseOf id =>
    match p.node? id with
    | some (.branch c t _ j) => some (some (.branch c t [] j))
    | _ => none
  | .bodyOf id =>
    match p.node? id with
    | some (.loop c _ j) => some (some (.loop c [] j))
    | _ => none

lemma around?_congr (h : ∀ o, list.owner? = some o → q.node? o = p.node? o) : q.around? list = p.around? list := by
  cases list with
  | body => rfl
  | thenOf id | elseOf id | bodyOf id => simp only [around?, h id rfl]

lemma listNodes_congr (hbody : q.body = p.body) (h : ∀ o, list.owner? = some o →
    q.node? o = p.node? o) : q.listNodes list = p.listNodes list := by
  cases list with
  | body => exact hbody
  | thenOf id | elseOf id | bodyOf id => simp only [listNodes, h id rfl]

lemma owner_live {a : Option Node} (h : p.around? list = some a) :
    ∀ o, list.owner? = some o → ∃ node, p.node? o = some node := by
  intro o ho
  cases hnode : p.node? o with
  | some node => exact ⟨node, rfl⟩
  | none =>
    cases list with
    | body => cases ho
    | thenOf id | elseOf id | bodyOf id =>
      cases ho
      simp [around?, hnode] at h

/-- A node of a procedure with its lists left out. -/
def bare? (p : Procedure) (n : NodeId) : Option Node :=
  (p.node? n).map fun
    | .block insts => .block insts
    | .branch c _ _ j => .branch c [] [] j
    | .loop c _ j => .loop c [] j

/-- What changing a list changes. -/
structure ListChange (list : NodeList) (f : List NodeId → List NodeId) (p p' : Procedure) : Prop where
  listed : p'.listNodes list = f (p.listNodes list)
  lists : ∀ list', list' ≠ list → p'.listNodes list' = p.listNodes list'
  bare : ∀ n, p'.bare? n = p.bare? n
  around : p'.around? list = p.around? list
  nodes : ∀ n, list.owner? ≠ some n → p'.node? n = p.node? n
  size : p'.nodes.size = p.nodes.size
  body : list = .body ∨ p'.body = p.body
  rest : p' = { p with nodes := p'.nodes, body := p'.body }

lemma listChange_of_updateList? (h : p.updateList? list f = some p') : ListChange list f p p' := by
  have hnode : ∀ (id : NodeId) (node : Node) (n : NodeId), some id ≠ some n →
      { p with nodes := p.nodes.modify id.index fun _ => node }.node? n = p.node? n := by
    intro id node n hn
    rw [node?_modify, if_neg]
    intro hne
    exact hn (congrArg some hne.symm)
  have hself : ∀ (id : NodeId) (node old : Node), p.node? id = some old →
      { p with nodes := p.nodes.modify id.index fun _ => node }.node? id = some node := by
    intro id node old hold
    rw [node?_modify, if_pos rfl, hold, map_some]
  cases list with
  | body =>
    cases h
    refine ⟨rfl, fun list' hne => ?_, fun _ => rfl, rfl, fun _ _ => rfl, rfl, .inl rfl, rfl⟩
    cases list' with
    | body => exact absurd rfl hne
    | _ => rfl
  | thenOf id | elseOf id | bodyOf id =>
    simp only [updateList?] at h
    split at h
    · rename_i hid
      cases h
      refine ⟨?_, fun list' hne => ?_, fun n => ?_, ?_, fun n => hnode id _ n, size_modify _ _ _, .inr rfl, rfl⟩
      · simp only [listNodes, hself id _ _ hid, hid]
      · by_cases howner : list'.owner? = some id
        · cases list' <;> cases howner <;> first | exact absurd rfl hne | simp only [listNodes, hself id _ _ hid, hid]
        · exact listNodes_congr rfl fun o ho => hnode id _ o fun heq => howner (heq ▸ ho)
      · by_cases hn : n = id
        · rw [hn, bare?, bare?, hself id _ _ hid, hid]
          rfl
        · rw [bare?, bare?, hnode id _ n fun heq => hn (Option.some.inj heq).symm]
      · simp only [around?, hself id _ _ hid, hid]
    · cases h

/-! ## Edits that succeed -/

lemma yields_newTemp {ty : Ty} {hint : String} {id : LocalId} :
    Yields (newTemp ty hint) p id p' ↔ id = ⟨p.locals.size⟩ ∧ p' = { p with
      nextTemp := p.freeTemp hint + 1, locals := p.locals.push { name := tempName hint (p.freeTemp hint), ty := ty } } := by
  simp [newTemp, addLocal]

lemma yields_newBlock {id : NodeId} : Yields newBlock p id p' ↔
    id = ⟨p.nodes.size⟩ ∧ p' = { p with nodes := p.nodes.push (.block []) } := by
  simp [newBlock, addNode]

lemma yields_updateList : Yields (updateList list f) p u p' ↔ p.updateList? list f = some p' := by
  rw [updateList, yields_get_bind]
  cases p.updateList? list f <;> simp [eq_comm]

lemma yields_requireBlock {id : NodeId} {insts : List InstId} :
    Yields (requireBlock id) p insts p' ↔ p.node? id = some (.block insts) ∧ p' = p := by
  rw [requireBlock, yields_get_bind]
  rcases p.node? id with _ | ⟨_ | _ | _⟩ <;> simp [eq_comm]

lemma yields_insertInst {index : Nat} :
    Yields (insertInst block index inst) p id p' ↔ ∃ insts, p.node? block = some (.block insts) ∧
      id = .mk p.insts.size ∧ p' = { p with insts := p.insts.push { inst := inst, block := block } }.setBlock block
        (insertAt index (InstId.mk p.insts.size) insts) := by
  simp [insertInst, yields_requireBlock, and_assoc]

lemma insertAt_length (x : α) (l : List α) : insertAt l.length x l = l ++ [x] := by
  simp [insertAt]

lemma insertAt_append (x : α) (l m : List α) : insertAt l.length x (l ++ m) = l ++ x :: m := by
  simp [insertAt]

lemma eraseIdx_middle (pre : List α) (x : α) (post : List α) :
    (pre ++ x :: post).eraseIdx pre.length = pre ++ post := by
  rw [eraseIdx_append_of_length_le (Nat.le_refl _), Nat.sub_self, eraseIdx_cons_zero]

lemma yields_appendInst : Yields (appendInst block inst) p id p' ↔ ∃ insts, p.node? block = some (.block insts) ∧
      id = .mk p.insts.size ∧ p' = { p with insts := p.insts.push { inst := inst, block := block } }.setBlock block
        (insts ++ [InstId.mk p.insts.size]) := by
  simp only [appendInst, yields_bind, yields_requireBlock, yields_insertInst, and_assoc, exists_and_left, exists_eq_left]
  refine exists_congr fun insts => and_congr_right fun hid => ?_
  simp [hid, insertAt_length]

lemma yields_clearBlock : Yields (clearBlock block) p u p' ↔ ∃ insts,
      p.node? block = some (.block insts) ∧ p' = (p.setBlock block []).eraseInsts insts := by
  simp [clearBlock, yields_requireBlock, and_assoc]

lemma yields_setPredicate {predicate : Option Expr} : Yields (setPredicate id predicate) p u p' ↔
      p' = { p with insts := p.insts.modify id.index fun d => { d with predicate := predicate } } := by
  simp [setPredicate]

lemma yields_replaceInst {old : Inst} :
    Yields (replaceInst id inst) p old p' ↔ ∃ d, p.inst? id = some d ∧ old = d.inst ∧
      p' = { p with insts := p.insts.modify id.index fun d => { d with inst := inst } } := by
  rw [replaceInst, yields_get_bind]
  cases p.inst? id <;> simp [and_comm]

lemma yields_requirePosition {pos : NodeId × Nat} :
    Yields (requirePosition id) p pos p' ↔ p.position? id = some pos ∧ p' = p := by
  rw [requirePosition, yields_get_bind]
  cases p.position? id <;> simp [eq_comm]

section Positioned

variable {block : NodeId} {pre post : List InstId} {id : InstId} {d : InstData}
  (hblock : p.node? block = some (.block (pre ++ id :: post))) (hpre : id ∉ pre) (hd : p.inst? id = some d)
  (hrec : d.block = block)

include hblock hpre hd hrec

lemma position?_eq : p.position? id = some (block, pre.length) := by
  have hidx : (pre ++ id :: post).findIdx? (· = id) = some pre.length := by
    rw [findIdx?_append, findIdx?_eq_none_iff.mpr, findIdx?_cons]
    · simp
    · intro x hx
      simp only [decide_eq_false_iff_not]
      exact fun h => hpre (h ▸ hx)
  unfold position?
  simp only [hd, Option.bind_eq_bind, bind_some, hrec, blockInsts, hblock, hidx]
  rfl

lemma yields_positioned {f : NodeId × Nat → Edit α} {x : α} :
    Yields (requirePosition id >>= f) p x p' ↔ Yields (f (block, pre.length)) p x p' := by
  simp [yields_requirePosition, position?_eq hblock hpre hd hrec]

lemma yields_insertBefore : Yields (insertBefore id inst) p new p' ↔ new = .mk p.insts.size ∧
      p' = { p with insts := p.insts.push { inst := inst, block := block } }.setBlock block
        (pre ++ InstId.mk p.insts.size :: id :: post) := by
  rw [insertBefore, yields_positioned hblock hpre hd hrec]
  simp [yields_insertInst, hblock, insertAt_append]

lemma yields_insertAfter : Yields (insertAfter id inst) p new p' ↔ new = .mk p.insts.size ∧
      p' = { p with insts := p.insts.push { inst := inst, block := block } }.setBlock block
        (pre ++ id :: InstId.mk p.insts.size :: post) := by
  have hinsert : insertAt (pre.length + 1) (InstId.mk p.insts.size) (pre ++ id :: post) =
      pre ++ id :: InstId.mk p.insts.size :: post := by
    simpa using insertAt_append (InstId.mk p.insts.size) (pre ++ [id]) post
  rw [insertAfter, yields_positioned hblock hpre hd hrec]
  simp [yields_insertInst, hblock, hinsert]

lemma yields_removeInst {old : InstData} : Yields (removeInst id) p old p' ↔
    old = d ∧ p' = (p.setBlock block (pre ++ post)).eraseInsts [id] := by
  rw [removeInst, yields_positioned hblock hpre hd hrec, yields_get_bind, hd]
  simp [blockInsts, hblock, eraseIdx_middle, and_comm]

/-- Moving an instruction out of the block in which it stands to the end of another one. -/
lemma yields_moveInst {target : NodeId} {done : List InstId} (htarget : p.node? target = some (.block done))
    (hne : block ≠ target) : Yields (moveInst id target) p u p' ↔
      p' = ((p.setBlock block (pre ++ post)).setBlock target (done ++ [id])).recordBlock target [id] := by
  have hlisted : (p.setBlock block (pre ++ post)).blockInsts target = done := by
    rw [blockInsts, node?_setBlock, if_neg hne.symm, htarget]
  have herase : (p.blockInsts block).eraseIdx pre.length = pre ++ post := by
    rw [blockInsts, hblock]
    exact eraseIdx_middle pre id post
  rw [moveInst, yields_positioned hblock hpre hd hrec]
  simp [yields_requireBlock, htarget, herase, hlisted]

end Positioned

end Procedure

/-! ## Names of temporaries -/

namespace Procedure

lemma tempName_injective (hint : String) : (tempName hint).Injective := by
  intro m n h
  have hchars := congrArg String.toList h
  simp only [tempName, String.toList_append] at hchars
  have hdigits := congrArg (Nat.ofDigitChars 10 · 0) (append_cancel_left hchars)
  simpa [Nat.toString_eq_ofList_toDigits] using hdigits

lemma length_values_le (a : Arena Variable) : a.values.length ≤ a.size :=
  Nat.le_trans (length_filterMap_le _ _) (Nat.le_of_eq Array.length_toList)

lemma hasLocation_iff {p : Procedure} {name : String} :
    p.hasLocation name = true ↔ ∃ v ∈ p.locals.values, v.name = name ∧ v.suffix = none := by
  simp [hasLocation]

/-- Among the candidates there is one whose name is free: each local takes the name of one number at
most. -/
lemma exists_free (p : Procedure) (hint : String) : ∃ n ∈
    (range (p.locals.size + 1)).map (p.nextTemp + ·), p.hasLocation (tempName hint n) = false := by
  by_contra! htaken
  have hsub : (range (p.locals.size + 1)).map (fun i => tempName hint (p.nextTemp + i)) ⊆
      p.locals.values.map (·.name) := by
    intro name hname
    obtain ⟨i, hi, rfl⟩ := mem_map.mp hname
    have hloc := htaken (p.nextTemp + i) (mem_map_of_mem hi)
    obtain ⟨v, hv, heq, -⟩ := hasLocation_iff.mp (by simpa using hloc)
    exact mem_map.mpr ⟨v, hv, heq⟩
  have hnodup : ((range (p.locals.size + 1)).map fun i => tempName hint (p.nextTemp + i)).Nodup :=
    nodup_range.map fun _ _ h => Nat.add_left_cancel (tempName_injective hint h)
  have hlength := (hnodup.subperm hsub).length_le
  have hvalues := length_values_le p.locals
  simp only [length_map, length_range] at hlength
  omega

lemma freeTemp_spec (p : Procedure) (hint : String) : (∃ i ≤ p.locals.size, p.freeTemp hint = p.nextTemp + i) ∧
      p.hasLocation (tempName hint (p.freeTemp hint)) = false := by
  obtain ⟨n, hn, hfree⟩ := exists_free p hint
  have hsome := find?_isSome (p := fun n => !p.hasLocation (tempName hint n)).mpr ⟨n, hn, by simpa using hfree⟩
  obtain ⟨k, hk⟩ := isSome_iff_exists.mp hsome
  obtain ⟨i, hi, rfl⟩ := mem_map.mp (mem_of_find?_eq_some hk)
  have hfound : p.freeTemp hint = p.nextTemp + i := by rw [freeTemp, hk, Option.getD_some]
  rw [hfound]
  exact ⟨⟨i, Nat.le_of_lt_succ (mem_range.mp hi), rfl⟩, by simpa using find?_some hk⟩

lemma BoundsTemps.of_newTemp {ty : Ty} {hint : String} {x : LocalId}
    (hy : Yields (newTemp ty hint) p x p') : p.BoundsTemps p' := by
  obtain ⟨i, hi, hn⟩ := (freeTemp_spec p hint).1
  have hsquare := Nat.add_one_mul_add_one p.locals.size p.locals.size
  rw [BoundsTemps, (yields_newTemp.mp hy).2, size_push, hn]
  simp only
  omega

end Procedure

end ActorNet
