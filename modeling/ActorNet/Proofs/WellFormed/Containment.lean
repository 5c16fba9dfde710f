import ActorNet.Proofs.WellFormed.Layout

/-!
# What the check certifies

Node lists and joins may name any nodes, so the nodes of a procedure form a graph of any shape
before the check. The check visits pending nodes until there are none (`Procedure.Visits`). This
ends in every graph, for a node that is visited twice is a fault. If it ends without a fault, the
graph is a tree: nothing contains itself, and a walk through it lists every node and every
instruction once (`Procedure.verify_certifies_containment`).
-/

namespace ActorNet

open List

namespace Procedure

variable {p : Procedure} {v : Visit} {n : NodeId}

/-! ## Visits end -/

/-- Visiting pending nodes until there are none, however many visits this takes. -/
inductive Visits (p : Procedure) : Visit → Except ProcFault Unit → Prop where
  | done {nodes : List NodeId} {insts : List InstId} : Visits p ⟨[], nodes, insts⟩ (.ok ())
  | fault {nodes : List NodeId} {insts : List InstId} {id : NodeId} {isJoin : Bool} {rest : List (NodeId × Bool)}
      {e : ProcFault} : p.verifyNode ⟨(id, isJoin) :: rest, nodes, insts⟩ id isJoin rest = .error e →
      Visits p ⟨(id, isJoin) :: rest, nodes, insts⟩ (.error e)
  | visit {nodes : List NodeId} {insts : List InstId} {id : NodeId} {isJoin : Bool} {rest : List (NodeId × Bool)}
      {next : Visit} {r : Except ProcFault Unit} :
      p.verifyNode ⟨(id, isJoin) :: rest, nodes, insts⟩ id isJoin rest = .ok next → Visits p next r →
      Visits p ⟨(id, isJoin) :: rest, nodes, insts⟩ r

lemma Visits.unique {r r' : Except ProcFault Unit} (h : p.Visits v r) (h' : p.Visits v r') : r' = r := by
  induction h with
  | done =>
    cases h'
    rfl
  | fault he =>
    cases h' with
    | fault he' =>
      cases he.symm.trans he'
      rfl
    | visit hnext' _ => cases he.symm.trans hnext'
  | visit hnext _ ih =>
    cases h' with
    | fault he' => cases hnext.symm.trans he'
    | visit hnext' h' =>
      cases hnext.symm.trans hnext'
      exact ih h'

/-- Visits end with the answer of the check. Every visit adds a live node to those that were seen,
which are all different, so there are no more visits than nodes. -/
lemma visits_verifyFrom {fuel : Nat} (hnodup : v.nodes.Nodup) (hlive : ∀ n ∈ v.nodes, ∃ node, p.node? n = some node)
    (hfuel : p.nodes.size < fuel + v.nodes.length) : p.Visits v (p.verifyFrom fuel v) := by
  induction fuel generalizing v with
  | zero =>
    have hle := Tree.length_le_of_live hnodup hlive
    omega
  | succ fuel ih =>
    obtain ⟨pending, nodes, insts⟩ := v
    cases pending with
    | nil => exact .done
    | cons first rest =>
      obtain ⟨id, isJoin⟩ := first
      unfold verifyFrom
      cases hnext : p.verifyNode ⟨(id, isJoin) :: rest, nodes, insts⟩ id isJoin rest with
      | error e =>
        simp only [hnext]
        exact .fault hnext
      | ok next =>
        simp only [hnext]
        obtain ⟨node, _, hnode, hseen, _, rfl⟩ := verifyNode_eq_ok.mp hnext
        refine .visit hnext (ih (nodup_cons.mpr ⟨hseen, hnodup⟩) (forall_mem_cons.mpr ⟨⟨node, hnode⟩, hlive⟩) ?_)
        simp only [length_cons] at hfuel ⊢
        omega

def firstVisit (p : Procedure) : Visit := { pending := p.body.reverse.map (·, false) }

/-- What the check answers after the visits: parameters have to be live, too. -/
def verdict (p : Procedure) (visited : Except ProcFault Unit) : Except ProcError Unit :=
  (visited.bind fun _ => match p.staleLocal? (p.params.map VarRef.loc) with
    | some id => .error (.staleLocal id)
    | none => .ok ()).mapError (⟨p.name, ·⟩)

/-! ## Containment -/

/-- A node stands in a list of another node, or is its join. -/
def Contains (p : Procedure) (o c : NodeId) : Prop := ∃ node, p.node? o = some node ∧ c ∈ node.children

/-- Going down from a node that has a place ends, for numbers grow up to a bound. -/
lemma acc_contains {spared : LocalId → Prop} {π : Layout} {rank : NodeId → Nat} {bound : Nat} (hfits : π.Fits spared p)
    (hrank : π.Ranked p rank bound) {x : Place} (hn : π n = some x) : Acc (fun c o => p.Contains o c) n := by
  induction hk : bound - rank n using Nat.strongRecOn generalizing n x with
  | _ k ih =>
    refine ⟨n, fun c hc => ?_⟩
    obtain ⟨node, hnode, hc⟩ := hc
    obtain ⟨y, hy⟩ : ∃ y, (c, y) ∈ node.inside n := Node.exists_inside hc
    rw [← inside_eq hnode] at hy
    have hdeeper := hrank.deeper n x hn _ hy
    have hlt := hrank.lt_bound n x hn
    exact ih _ (by simp only at hdeeper; omega) ((hfits.stands n x hn).placed _ hy) rfl

/-- The check ends for all tables and lists, with the answer of visiting nodes until there are none.
It accepts a procedure exactly if a layout fits it and its parameters are live. Then nothing that is
reached from the body contains itself, directly or not, so all walks down from the body end, and
going deeper finds no more nodes. No node and no instruction is listed twice, all listed nodes are
live, and listed instructions are live and record the block that lists them. -/
theorem verify_certifies_containment (p : Procedure) :
    (∃ r, p.Visits p.firstVisit r ∧ (∀ r', p.Visits p.firstVisit r' → r' = r) ∧ p.verify = p.verdict r) ∧
      (p.verify = .ok () ↔ (∃ π : Layout, π.Fits (fun _ => False) p) ∧ ∀ id ∈ p.params, (p.local? id).isSome) ∧
      (p.verify = .ok () → (∀ n, p.Reaches n → Acc (fun c o => p.Contains o c) n) ∧
        (∀ depth, p.depth ≤ depth → p.body.flatMap (p.nodesUnder depth) = p.nodesIn p.body) ∧
        (p.nodesIn p.body).Nodup ∧ p.forward.Nodup ∧ ∀ n ∈ p.nodesIn p.body, (∃ node, p.node? n = some node) ∧
          ∀ i ∈ p.blockInsts n, ∃ d, p.inst? i = some d ∧ d.block = n) := by
  refine ⟨?_, ⟨fun h => ⟨exists_layout h, params_live_of_verify h⟩, ?_⟩, fun h => ?_⟩
  · have hvisits : p.Visits p.firstVisit (p.verifyFrom (p.nodes.size + 1) p.firstVisit) :=
      visits_verifyFrom nodup_nil nofun (Nat.lt_succ_self _)
    exact ⟨_, hvisits, fun r' hr' => hvisits.unique hr', rfl⟩
  · rintro ⟨⟨π, hfits⟩, hparams⟩
    exact hfits.verify hparams
  · obtain ⟨π, rank, bound, hfits, hrank⟩ := exists_ranked h
    obtain ⟨t, ht⟩ := exists_tree_of_verify h
    have hnodes := nodesIn_body ht
    refine ⟨fun n hn => ?_, fun depth hdepth => ?_, hnodes ▸ ht.sound.nodes_nodup, ?_, fun n hn => ?_⟩
    · obtain ⟨x, hx⟩ := hn.placed hfits
      exact acc_contains hfits hrank hx
    · rw [hnodes, ← ht.roots]
      exact nodesUnder_roots ht.sound.fits (Nat.le_trans ht.sound.height_le hdepth)
    · rw [forward_eq ht]
      exact ht.sound.insts_nodup
    · rw [hnodes] at hn
      obtain ⟨x, _, hx⟩ := hfits.place_of_mem ht.roots ht.sound.fits hn
      exact ⟨(hfits.stands n x hx).live, (hfits.stands n x hx).recorded⟩

/-- A conditional in a loop. The walk lists the join of the loop before its body, and that of the
conditional after its branches. -/
def nested : Procedure :=
  { name := "nested", params := [⟨0⟩], returnTy := .void, locals := .full [{ name := "b", ty := .bool }]
    nodes := .full [.loop (.var (.loc ⟨0⟩)) [⟨2⟩] ⟨1⟩, .block [],
      .branch (.var (.loc ⟨0⟩)) [⟨3⟩] [] ⟨4⟩, .block [⟨0⟩], .block []]
    insts := .full [{ inst := .assign ⟨0⟩ (.bool false), block := ⟨3⟩ }]
    body := [⟨0⟩] }

theorem verify_certifies_containment_nested : nested.verify = .ok () ∧
    nested.nodesIn nested.body = [⟨0⟩, ⟨1⟩, ⟨2⟩, ⟨3⟩, ⟨4⟩] ∧ nested.forward = [⟨0⟩] ∧
    Acc (fun c o => nested.Contains o c) ⟨0⟩ :=
  have hverify : nested.verify = .ok () := by decide +kernel
  ⟨hverify, by decide +kernel, by decide +kernel,
    ((verify_certifies_containment nested).2.2 hverify).1 _ (.body mem_cons_self)⟩

/-- A loop that contains itself is a fault. -/
example : { nested with nodes := .full [.loop (.bool true) [⟨0⟩] ⟨1⟩, .block []] }.verify =
    .error ⟨"nested", .sharedNode ⟨0⟩⟩ := by decide +kernel

end Procedure

end ActorNet
