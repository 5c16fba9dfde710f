import ActorNet.Proofs.Documents.Reload
import ActorNet.Proofs.WellFormed.Layout

/-!
# Which handles of a document resolve

An actor that is read from a document has been checked. The check follows the nodes of each
procedure from the body (`Procedure.Reaches`) and looks at what the instructions read and define, at
the instructions of joins, and at what the actions and transitions name (`Actor.Checked`). It does
not look at the locals in conditions and predicates or stored to, at state variables, at the
procedures that are called, at whether a join is a block, or at the states of the state machine
(`Actor.Unchecked`): all handles resolve exactly if these do.
-/

namespace ActorNet

namespace Actor

/-- What the check of an actor finds out about its handles. -/
structure Checked (a : Actor) : Prop where
  consistent : a.Consistent
  procs : ∀ p ∈ a.procs, p.Checked

/-- All handles resolve: the variables that reached nodes name, the procedures that they call, the
joins, the states of the state machine, and the state variables in initial values. -/
structure Resolves (a : Actor) : Prop where
  vars : ∀ p ∈ a.procs, ∀ n, p.Reaches n → ∀ v ∈ p.operands n ++ p.tests n, (p.var? a.globals v).isSome
  callees : ∀ p ∈ a.procs, ∀ n, p.Reaches n → ∀ id ∈ p.callees n, (a.proc? id).isSome
  joins : ∀ p ∈ a.procs, ∀ n, p.Reaches n → ∀ j ∈ p.join? n,
    p.isBlock j = true ∧ ∀ i ∈ p.blockInsts j, ∃ d, p.inst? i = some d ∧ d.inst.isPhi = true
  states : ∀ m ∈ a.fsm, ∀ s ∈ m.initial :: m.transitions.flatMap fun t => [t.source, t.target], (m.state? s).isSome
  inits : ∀ v ∈ a.globals, ∀ e ∈ v.init, ∀ x ∈ e.uses, ∀ g ∈ x.global?, g.index < a.globals.length

/-- The handles that the check does not look at resolve. -/
structure Unchecked (a : Actor) : Prop where
  locals : ∀ p ∈ a.procs, ∀ n, p.Reaches n → ∀ id, .loc id ∈ p.tests n → (p.local? id).isSome
  globals : ∀ p ∈ a.procs, ∀ n, p.Reaches n → ∀ g, .glob g ∈ p.operands n ++ p.tests n → g.index < a.globals.length
  callees : ∀ p ∈ a.procs, ∀ n, p.Reaches n → ∀ id ∈ p.callees n, (a.proc? id).isSome
  joins : ∀ p ∈ a.procs, ∀ n, p.Reaches n → ∀ j ∈ p.join? n, p.isBlock j = true
  states : ∀ m ∈ a.fsm, ∀ s ∈ m.initial :: m.transitions.flatMap fun t => [t.source, t.target], (m.state? s).isSome
  inits : ∀ v ∈ a.globals, ∀ e ∈ v.init, ∀ x ∈ e.uses, ∀ g ∈ x.global?, g.index < a.globals.length

variable {a : Actor}

lemma Checked.of_check (h : a.check = .ok ()) : a.Checked :=
  have ⟨hconsistent, hverify⟩ := check_eq_ok.mp h
  ⟨hconsistent, fun p hp => Procedure.checked_of_verify (hverify p hp)⟩

lemma Resolves.unchecked (h : a.Resolves) : a.Unchecked where
  locals p hp n hn _ hid := h.vars p hp n hn _ (List.mem_append_right _ hid)
  globals p hp n hn _ hg := by simpa [Procedure.var?] using h.vars p hp n hn _ hg
  callees := h.callees
  joins p hp n hn j hj := (h.joins p hp n hn j hj).1
  states := h.states
  inits := h.inits

lemma Checked.resolves (h : a.Checked) (hrest : a.Unchecked) : a.Resolves where
  vars p hp n hn v hv := by
    cases v with
    | loc id =>
      rcases List.mem_append.mp hv with hv | hv
      · exact (h.procs p hp).locals n hn id hv
      · exact hrest.locals p hp n hn id hv
    | glob g => simpa [Procedure.var?] using hrest.globals p hp n hn g hv
  callees := hrest.callees
  joins p hp n hn j hj := by
    refine ⟨hrest.joins p hp n hn j hj, fun i hi => ?_⟩
    -- the join is reached as well
    obtain ⟨node, hnode, hjoin⟩ := bind_eq_some_iff.mp hj
    have hj' : p.Reaches j := .child hn hnode (by cases node <;> cases hjoin <;> simp [Node.children])
    obtain ⟨d, hd, -⟩ := (h.procs p hp).insts j hj' i hi
    exact ⟨d, hd, (h.procs p hp).phis n hn j hj d (List.mem_filterMap.mpr ⟨i, hi, hd⟩)⟩
  states := hrest.states
  inits := hrest.inits

/-- In an actor that is read from a document, the handles that the check looks at resolve, and all
of them do exactly if the others do as well. -/
theorem resolves_of_load {text : String} (h : load text = .ok a) : a.Checked ∧ (a.Resolves ↔ a.Unchecked) :=
  have hchecked := Checked.of_check (of_load h).1
  ⟨hchecked, Resolves.unchecked, hchecked.resolves⟩

/-- What an actor names in the places that the check does not look at. -/
structure Links where
  condition : LocalId := ⟨0⟩
  predicate : LocalId := ⟨0⟩
  stored : LocalId := ⟨0⟩
  loaded : GlobalId := ⟨0⟩
  init : GlobalId := ⟨0⟩
  callee : ProcId := ⟨0⟩
  join : Node := .block []
  initial : StateId := ⟨0⟩
  source : StateId := ⟨0⟩
  target : StateId := ⟨0⟩

/-- An actor with one action and a state machine, in whose body a predicated store and a call stand
before a conditional. -/
def linked (l : Links) : Actor :=
  { name := "linked"
    globals := [{ name := "g", ty := .bool, init := some (.var (.glob l.init)) }]
    procs := [.alwaysTrue "always",
      { name := "main", returnTy := .void
        locals := .full [{ name := "x", ty := .bool }]
        nodes := .full [.block [⟨0⟩, ⟨1⟩, ⟨2⟩], l.join, .branch (.var (.loc l.condition)) [] [] ⟨1⟩, .block []]
        insts := .full [{ inst := .load ⟨0⟩ (.glob l.loaded) [], block := ⟨0⟩ },
          { inst := .store (.loc l.stored) [] (.bool true), block := ⟨0⟩, predicate := some (.var (.loc l.predicate)) },
          { inst := .call none l.callee [], block := ⟨0⟩ }]
        body := [⟨0⟩, ⟨2⟩] }]
    actions := [{ id := ⟨0⟩, name := "step", scheduler := ⟨0⟩, body := ⟨1⟩ }]
    fsm := some { states := ["idle"], initial := l.initial, transitions := [⟨l.source, ⟨0⟩, l.target⟩] }
    ids := ⟨1⟩ }

/-- All handles of the actor resolve if it names what is there. -/
theorem resolves_of_load_linked : load (linked {}).document = .ok (linked {}) ∧ (linked {}).Resolves := by
  have hload : load (linked {}).document = .ok (linked {}) :=
    load_document ⟨by decide +kernel, by decide +kernel⟩ (by decide +kernel) (by decide +kernel)
  obtain ⟨hchecked, hiff⟩ := resolves_of_load hload
  -- a node that is reached has a slot in the table of nodes
  have hslot : ∀ p ∈ (linked {}).procs, ∀ n, p.Reaches n → n ∈ (List.range p.nodes.size).map NodeId.mk :=
    fun p hp n hn => List.mem_map.mpr
      ⟨n.index, List.mem_range.mpr (Procedure.index_lt_of_node? (Option.get_mem ((hchecked.procs p hp).nodes n hn))), rfl⟩
  have htables : ∀ p ∈ (linked {}).procs, ∀ n ∈ (List.range p.nodes.size).map NodeId.mk,
      (∀ v ∈ p.operands n ++ p.tests n, (p.var? (linked {}).globals v).isSome) ∧
      (∀ id ∈ p.callees n, ((linked {}).proc? id).isSome) ∧ ∀ j ∈ p.join? n, p.isBlock j = true := by decide +kernel
  refine ⟨hload, hiff.mpr ⟨?_, ?_, ?_, ?_, by decide +kernel, by decide +kernel⟩⟩
  · exact fun p hp n hn id hid => (htables p hp n (hslot p hp n hn)).1 (.loc id) (List.mem_append_right _ hid)
  · intro p hp n hn g hg
    simpa [Procedure.var?] using (htables p hp n (hslot p hp n hn)).1 (.glob g) hg
  · exact fun p hp n hn => (htables p hp n (hslot p hp n hn)).2.1
  · exact fun p hp n hn => (htables p hp n (hslot p hp n hn)).2.2

/-- Actors with one handle in them that does not resolve, one for each place that the check does not
look at. -/
def dangling : List Actor :=
  [linked { condition := ⟨7⟩ }, linked { predicate := ⟨7⟩ }, linked { stored := ⟨7⟩ }, linked { loaded := ⟨7⟩ },
    linked { init := ⟨7⟩ }, linked { callee := ⟨7⟩ }, linked { join := .branch (.bool true) [] [] ⟨3⟩ },
    linked { initial := ⟨7⟩ }, linked { source := ⟨7⟩ }, linked { target := ⟨7⟩ }]

/-- Each of the actors is read from its document, and not all of its handles resolve. -/
theorem resolves_of_load_dangling : dangling.length = 10 ∧ ∀ a ∈ dangling, load a.document = .ok a ∧ ¬ a.Resolves := by
  have hload : ∀ a ∈ dangling, (∀ ty ∈ a.types, ty.Within 64 64) ∧ (∀ n ∈ a.words, n ≤ Text.word32Max) ∧
      a.toJson.height ≤ Json.maxDepth ∧ a.check = .ok () := by decide +kernel
  -- the body of each actor reaches the block and the conditional, and one of the places does not
  -- resolve
  have hbroken : ∀ a ∈ dangling, ¬ ((∀ p ∈ a.procs, ∀ n ∈ p.body,
      (∀ v ∈ p.operands n ++ p.tests n, (p.var? a.globals v).isSome) ∧ (∀ id ∈ p.callees n, (a.proc? id).isSome) ∧
        ∀ j ∈ p.join? n, p.isBlock j = true) ∧
      (∀ m ∈ a.fsm, ∀ s ∈ m.initial :: m.transitions.flatMap fun t => [t.source, t.target], (m.state? s).isSome) ∧
      ∀ v ∈ a.globals, ∀ e ∈ v.init, ∀ x ∈ e.uses, ∀ g ∈ x.global?, g.index < a.globals.length) := by decide +kernel
  refine ⟨rfl, fun a ha => ?_⟩
  obtain ⟨htypes, hwords, hdepth, hcheck⟩ := hload a ha
  have hids : { a with ids := {} }.reserveIds = a := by
    simp only [dangling, List.mem_cons, List.not_mem_nil, or_false] at ha
    rcases ha with rfl | rfl | rfl | rfl | rfl | rfl | rfl | rfl | rfl | rfl <;> rfl
  refine ⟨(load_document ⟨htypes, hwords⟩ hdepth hcheck).trans (congrArg _ hids), fun h => ?_⟩
  refine hbroken a ha ⟨fun p hp n hn => ?_, h.states, h.inits⟩
  exact ⟨h.vars p hp n (.body hn), h.callees p hp n (.body hn), fun j hj => (h.joins p hp n (.body hn) j hj).1⟩

end Actor

end ActorNet
