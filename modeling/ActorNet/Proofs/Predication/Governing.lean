import ActorNet.Proofs.Predication.Hoist
import ActorNet.Proofs.WellFormed.Trees

/-!
# The conditions that govern an instruction

Which conditions have to hold for an instruction to run can be read off the nodes around it
(`Governed`). Predication writes exactly these onto the instruction: it becomes one of a single
block, under the conjunction of the conditions that govern the block it stood in, and the phi of a
join picks its operands by the conjunctions that govern the two sides. A loop is what predication
refuses, and all that it refuses (`ifConvert_governs`).
-/

namespace ActorNet

open Expr List Procedure Tree

variable {cs ds : List Expr} {g : Option Expr} {id n : NodeId} {node : Node} {p p' : Procedure} {t : Tree}

/-- The left-nested conjunction of conditions; there is none of no conditions. -/
def conjunction? : List Expr → Option Expr
  | [] => none
  | c :: cs => some (cs.foldl both c)

lemma conjunction?_concat (cs : List Expr) (c : Expr) :
    conjunction? (cs ++ [c]) = some (under (conjunction? cs) c) := by
  cases cs with
  | nil => rfl
  | cons d cs => rw [cons_append, conjunction?, foldl_append, conjunction?, under, foldl_cons, foldl_nil]

/-- The nodes inside of a conditional that conditions govern, with what governs them: on each side
the condition or its negation as well. At the join it does not, but it comes along. -/
def Node.governs (cs : List Expr) : Node → List (NodeId × List Expr × Option Expr)
  | branch c ts es join => ts.map (·, cs ++ [c], none) ++ es.map (·, cs ++ [c.negate], none) ++ [(join, cs, some c)]
  | _ => []

/-- A node runs under the given conditions, from the outermost one. The join of a conditional has
the condition of that conditional with it. -/
inductive Procedure.Governed (p : Procedure) : NodeId → List Expr → Option Expr → Prop
  | body {n : NodeId} (hn : n ∈ p.body) : p.Governed n [] none
  | inside {id n : NodeId} {node : Node} {cs ds : List Expr} {c? : Option Expr} (h : p.Governed id cs none)
      (hid : p.node? id = some node) (hn : (n, ds, c?) ∈ node.governs cs) : p.Governed n ds c?

/-- An instruction without branches around it: the operands of a phi are guarded by what governs the
side they come from. -/
def Inst.selecting (cs : List Expr) : Option Expr → Inst → Inst
  | some c, .phi target arms => .phi target (arms.map fun arm =>
      match arm.edge with
      | .thenEnd => { arm with guard := conjunction? (cs ++ [c]) }
      | .elseEnd => { arm with guard := conjunction? (cs ++ [c.negate]) }
      | _ => arm)
  | _, inst => inst

lemma Phi.guarded_inst (φ : Phi) (cs : List Expr) (c : Expr) :
    (φ.guarded (under (conjunction? cs) c) (under (conjunction? cs) c.negate)).inst = φ.inst.selecting cs (some c) := by
  simp only [Phi.inst, Phi.guarded, Inst.selecting, conjunction?_concat]
  rfl

/-- An instruction of a node, as predication leaves it in a block. -/
def Procedure.hoisted? (p : Procedure)
    (target : NodeId) (cs : List Expr) (c? : Option Expr) (i : InstId) : Option InstData :=
  (p.inst? i).map fun d => ⟨d.inst.selecting cs c?, target, conjunction? cs⟩

namespace Tree

/-- The nodes of a tree without loops with what governs them. -/
def contexts (p : Procedure) : List Expr → Tree → List (NodeId × List Expr × Option Expr)
  | _, nil => []
  | cs, block id _ rest => (id, cs, none) :: rest.contexts p cs
  | cs, branch id t e join _ rest => (id, cs, none) :: (t.contexts p (cs ++ [p.condition id]) ++
      e.contexts p (cs ++ [(p.condition id).negate]) ++ (join, cs, some (p.condition id)) :: rest.contexts p cs)
  | cs, loop _ _ _ _ rest => rest.contexts p cs

lemma map_contexts (hloops : t.LoopFree) (p : Procedure) (cs : List Expr) : (t.contexts p cs).map (·.1) = t.nodes := by
  induction t generalizing cs with
  | nil => rfl
  | block id is rest ih => rw [contexts, map_cons, ih hloops, nodes]
  | branch id t e join phis rest iht ihe ih =>
    simp only [contexts, nodes, map_cons, map_append, iht hloops.1, ihe hloops.2.1, ih hloops.2.2]
  | loop => exact hloops.elim

lemma listed_eq_contexts (hloops : t.LoopFree) (p : Procedure) (cs : List Expr) :
    t.listed = ((t.contexts p cs).filter fun x => x.2.2.isNone).map (·.1) := by
  induction t generalizing cs with
  | nil => rfl
  | block id is rest ih => rw [listed, contexts, ih hloops cs, filter_cons_of_pos rfl, map_cons]
  | branch id t e join phis rest iht ihe ih =>
    rw [listed, iht hloops.1, ihe hloops.2.1, ih hloops.2.2 cs, contexts, filter_cons_of_pos rfl,
      map_cons, filter_append, filter_append, filter_cons_of_neg (by simp), map_append, map_append]
  | loop => exact hloops.elim

lemma mem_contexts_of_root (hloops : t.LoopFree) (p : Procedure) (cs : List Expr)
    (hn : n ∈ t.roots) : (n, cs, none) ∈ t.contexts p cs := by
  induction t with
  | nil => cases hn
  | block id is rest ih =>
    rcases mem_cons.mp hn with rfl | hn
    · exact mem_cons_self
    · exact mem_cons_of_mem _ (ih hloops hn)
  | branch id t e join phis rest _ _ ih =>
    rcases mem_cons.mp hn with rfl | hn
    · exact mem_cons_self
    · exact mem_cons_of_mem _ (mem_append_right _ (mem_cons_of_mem _ (ih hloops.2.2 hn)))
  | loop => exact hloops.elim

lemma governs_subset_contexts (hloops : t.LoopFree) (hfits : t.Fits p) (hid : p.node? id = some node)
    (h : (id, ds, none) ∈ t.contexts p cs) : node.governs ds ⊆ t.contexts p cs := by
  induction t generalizing cs with
  | nil => cases h
  | block id' is rest ih =>
    rcases mem_cons.mp h with heq | h
    · cases heq
      cases hid.symm.trans hfits.1
      exact nil_subset _
    · exact fun x hx => mem_cons_of_mem _ (ih hloops hfits.2 h hx)
  | branch id' t e join phis rest iht ihe ih =>
    obtain ⟨⟨c, hid'⟩, ht, he, _, hrest⟩ := hfits
    obtain ⟨hloopst, hloopse, hloops⟩ := hloops
    simp only [contexts, mem_cons, mem_append, Prod.mk.injEq, reduceCtorEq, and_false, false_or] at h
    intro x hx
    simp only [contexts, mem_cons, mem_append]
    rcases h with ⟨rfl, rfl, _⟩ | (h | h) | h
    · cases hid.symm.trans hid'
      have hcond : p.condition id = c := by
        rw [condition, hid]
        rfl
      rw [hcond]
      simp only [Node.governs, mem_append, mem_map, mem_singleton] at hx
      rcases hx with (⟨n, hn, rfl⟩ | ⟨n, hn, rfl⟩) | rfl
      · exact .inr (.inl (.inl (mem_contexts_of_root hloopst p _ hn)))
      · exact .inr (.inl (.inr (mem_contexts_of_root hloopse p _ hn)))
      · exact .inr (.inr (.inl rfl))
    · exact .inr (.inl (.inl (iht hloopst ht h hx)))
    · exact .inr (.inl (.inr (ihe hloopse he h hx)))
    · exact .inr (.inr (.inr (ih hloops hrest h hx)))
  | loop => exact hloops.elim

lemma governed_of_mem_contexts (hloops : t.LoopFree) (hfits : t.Fits p) (hroots : ∀ n ∈ t.roots, p.Governed n cs none) :
    ∀ x ∈ t.contexts p cs, p.Governed x.1 x.2.1 x.2.2 := by
  induction t generalizing cs with
  | nil => exact forall_mem_nil _
  | block id is rest ih =>
    obtain ⟨hid, hroots⟩ := forall_mem_cons.mp hroots
    exact forall_mem_cons.mpr ⟨hid, ih hloops hfits.2 hroots⟩
  | branch id t e join phis rest iht ihe ih =>
    obtain ⟨⟨c, hid⟩, ht, he, _, hrest⟩ := hfits
    obtain ⟨hgov, hroots⟩ := forall_mem_cons.mp hroots
    have hcond : p.condition id = c := by
      rw [condition, hid]
      rfl
    simp only [contexts, hcond, forall_mem_cons, forall_mem_append]
    refine ⟨hgov, ⟨iht hloops.1 ht fun n hn => ?_, ihe hloops.2.1 he fun n hn => ?_⟩, ?_, ih hloops.2.2 hrest hroots⟩
    all_goals exact .inside hgov hid (by simp [Node.governs, *])
  | loop => exact hloops.elim

lemma governed_iff (hloops : t.LoopFree) (hfits : t.Fits p) (hroots : t.roots = p.body) :
    p.Governed n cs g ↔ (n, cs, g) ∈ t.contexts p [] := by
  refine ⟨fun h => ?_, fun h => governed_of_mem_contexts hloops hfits (fun n hn => .body (hroots ▸ hn)) _ h⟩
  induction h with
  | body hn => exact mem_contexts_of_root hloops p [] (hroots ▸ hn)
  | inside _ hid hn ih => exact governs_subset_contexts hloops hfits hid ih hn

lemma map_filterMap_of_some {α β γ : Type} {f : α → Option β} {l : List α} (h : ∀ a ∈ l, ∃ b, f a = some b) (k : β → γ) :
    (l.filterMap f).map (fun b => some (k b)) = l.map fun a => (f a).map k := by
  induction l with
  | nil => rfl
  | cons a l ih =>
    obtain ⟨⟨b, hb⟩, hl⟩ := forall_mem_cons.mp h
    rw [filterMap_cons_some hb, map_cons, map_cons, ih hl, hb, map_some]

/-- The flattened code of a tree, node by node. -/
lemma flatten_contexts (hloops : t.LoopFree) (hsound : t.Sound p) (target : NodeId) :
    ((t.code p).flatten (conjunction? cs)).map (fun line => some ⟨line.1, target, line.2⟩) =
      (t.contexts p cs).flatMap fun x => (p.blockInsts x.1).map (p.hoisted? target x.2.1 x.2.2) := by
  induction t generalizing cs with
  | nil => rfl
  | block id is rest ih =>
    have hparts : (Tree.append (block id is nil) rest).Sound p := hsound
    obtain ⟨hblock, hrest, _⟩ := sound_append.mp hparts
    obtain ⟨hid, _, hrec⟩ := sound_block.mp hblock
    have hlive : ∀ i ∈ is, ∃ line, p.line? i = some line := by
      intro i hi
      obtain ⟨d, hd, _⟩ := hrec i hi
      exact ⟨_, by rw [line?, hd, map_some]⟩
    rw [code, Code.flatten_append, Code.flatten_ofLines, map_append, ih hloops hrest, contexts,
      flatMap_cons, blockInsts_eq hid, map_map]
    refine congrArg (· ++ _) ((map_filterMap_of_some hlive _).trans (map_congr_left fun i _ => ?_))
    rw [line?, Option.map_map]
    rfl
  | branch id t e join phis rest iht ihe ih =>
    have hparts : (Tree.append (branch id t e join phis nil) rest).Sound p := hsound
    obtain ⟨hbranch, hrest, _⟩ := sound_append.mp hparts
    obtain ⟨⟨c, hid⟩, ht, he, hj, _⟩ := sound_branch.mp hbranch
    have hnone : p.blockInsts id = [] := by rw [blockInsts, hid]
    have hphis : ((phis.filterMap p.phi?).map fun φ => some (InstData.mk (φ.inst.selecting cs (some (p.condition id)))
        target (conjunction? cs))) = phis.map (p.hoisted? target cs (some (p.condition id))) := by
      refine (map_filterMap_of_some hj.phis _).trans (map_congr_left fun i hi => ?_)
      obtain ⟨φ, hφ⟩ := hj.phis i hi
      obtain ⟨b, own, hd⟩ := phi?_eq_some.mp hφ
      rw [hφ, hoisted?, hd]
      rfl
    simp only [code, Code.flatten, contexts, map_append, map_map, Function.comp_def, flatMap_cons,
      flatMap_append, hnone, map_nil, nil_append, List.append_assoc, Phi.guarded_inst]
    rw [← conjunction?_concat, ← conjunction?_concat,
      iht hloops.1 ht, ihe hloops.2.1 he, ih hloops.2.2 hrest, hj.listed, hphis]
  | loop => exact hloops.elim

/-- Where the instructions of a tree have become its flattened code, each has become what its node
says. -/
lemma hoisted_of_data {target : NodeId} (hloops : t.LoopFree) (hsound : t.Sound p)
    (hdata : t.insts.map p'.inst? = ((t.code p).flatten none).map fun line => some ⟨line.1, target, line.2⟩) :
    ∀ x ∈ t.contexts p [], ∀ i ∈ p.blockInsts x.1, p'.inst? i = p.hoisted? target x.2.1 x.2.2 i := by
  have hpairs : ∀ f : InstId → NodeId × List Expr × Option Expr → Option InstData,
      ((t.contexts p []).flatMap fun x => (p.blockInsts x.1).map (f · x)) =
        ((t.contexts p []).flatMap fun x => (p.blockInsts x.1).map (·, x)).map fun y => f y.1 y.2 := by
    intro f
    rw [map_flatMap]
    simp only [map_map, Function.comp_def]
  have hcontexts : conjunction? [] = none := rfl
  rw [← hcontexts, flatten_contexts hloops hsound, hpairs fun i x =>
    p.hoisted? target x.2.1 x.2.2 i, ← flatMap_blockInsts hsound.fits, ← map_contexts hloops p [],
    flatMap_map, map_flatMap, hpairs fun i _ => p'.inst? i, map_inj_left] at hdata
  exact fun x hx i hi => hdata (i, x) (mem_flatMap.mpr ⟨x, hx, mem_map_of_mem hi⟩)

end Tree

namespace Procedure

lemma run_ifConvert_of_hasLoop (h : p.hasLoop = true) : ifConvert.run p = (.error ⟨p.name, .unsupportedLoop⟩, p) := by
  show (if p.hasLoop then Transform.fail .unsupportedLoop else _ : Transform Nat).run p = _
  rw [if_pos h]
  rfl

/-- The conditionals of the lists of a procedure without loops. -/
lemma exists_conditionals (hloop : p.hasLoop = false) (ht : t.Spans p) :
    ∃ ids : List NodeId, ids.Nodup ∧ (t.code p).conditions.length = ids.length ∧ ∀ n, n ∈ ids ↔
      (∃ cs, p.Governed n cs none) ∧ ∃ c ts es j, p.node? n = some (.branch c ts es j) := by
  have hloops := LoopFree.of_hasLoop ht hloop
  have hlisted : ∀ n, n ∈ t.listed ↔ ∃ cs, p.Governed n cs none := by
    intro n
    rw [listed_eq_contexts hloops p []]
    simp [governed_iff hloops ht.sound.fits ht.roots]
  refine ⟨t.listed.filter fun n => (p.condition? n).isSome, ?_, ?_, fun n => ?_⟩
  · exact (t.nodes_perm.nodup_iff.mp ht.sound.nodes_nodup).of_append_left.filter _
  · rw [conditions_code ht.sound.fits, length_filterMap_eq_countP, countP_eq_length_filter]
  · rw [mem_filter, ← hlisted]
    refine and_congr_right fun hn => ?_
    have hnot : ∀ c body j, p.node? n ≠ some (.loop c body j) := by
      intro c body j hnode
      rw [hasLoop_iff.mpr ⟨n, nodesIn_body ht ▸ mem_nodes_of_listed hn, c, body, j, hnode⟩] at hloop
      cases hloop
    rw [condition?]
    rcases hnode : p.node? n with _ | _ | _ | ⟨c, body, j⟩
    · simp
    · simp [Node.condition?]
    · simp [Node.condition?]
    · exact absurd hnode (hnot c body j)

/-- Predication fails on a well-formed procedure if and only if there is a loop in it, and then
leaves it as it is. Otherwise the procedure becomes a single block of its instructions in their
order. Each is as it was, under the conjunction of the conditions that govern it, and the phis of
joins select by what governs the two sides. The answer is the number of conditionals that stood in
the lists of the procedure. -/
theorem ifConvert_governs (p : Procedure) (hverify : p.verify = .ok ()) :
    ((∃ e, (ifConvert.run p).1 = .error e) ↔ ∃ n ∈ p.nodesIn p.body, ∃ c body j, p.node? n = some (.loop c body j)) ∧
      (∀ e p', ifConvert.run p = (.error e, p') → p' = p) ∧ ∀ removed p', ifConvert.run p = (.ok removed, p') →
        (∃ b, p'.body = [b] ∧ p'.node? b = some (.block p.forward) ∧ p'.forward = p.forward ∧ p.forward.Nodup ∧
          (∀ i ∈ p.forward, ∃ n cs c?, p.Governed n cs c? ∧ i ∈ p.blockInsts n) ∧
          ∀ n cs c?, p.Governed n cs c? → ∀ i ∈ p.blockInsts n, ∃ d, p.inst? i = some d ∧
            p'.inst? i = some ⟨d.inst.selecting cs c?, b, conjunction? cs⟩) ∧
        ∃ conditionals : List NodeId, conditionals.Nodup ∧ removed = conditionals.length ∧ ∀ n, n ∈ conditionals ↔
          (∃ cs, p.Governed n cs none) ∧ ∃ c ts es j, p.node? n = some (.branch c ts es j) := by
  obtain ⟨t, ht⟩ := exists_tree_of_verify hverify
  obtain ⟨π, hfits⟩ : ∃ π : Layout, π.Fits (fun _ => False) p := exists_layout hverify
  rw [← hasLoop_iff]
  cases hloop : p.hasLoop with
  | true =>
    rw [run_ifConvert_of_hasLoop hloop]
    refine ⟨iff_of_true ⟨_, rfl⟩ rfl, ?_, ?_⟩
    · rintro _ _ ⟨⟩
      rfl
    · rintro _ _ ⟨⟩
  | false =>
    obtain ⟨p', hyield, hpred⟩ := ifConvert_yields hfits ht hloop
    have hrun : ifConvert.run p = (.ok (t.code p).conditions.length, p') := hyield
    have hloops := LoopFree.of_hasLoop ht hloop
    rw [hrun]
    refine ⟨iff_of_false (fun ⟨_, h⟩ => nomatch h) nofun, nofun, ?_⟩
    rintro _ _ ⟨⟩
    rw [forward_eq ht, forward_eq hpred.spans]
    refine ⟨⟨_, hpred.body, (sound_block.mp hpred.sound).1, ?_, ht.sound.insts_nodup,
      fun i hi => ?_, ?_⟩, exists_conditionals hloop ht⟩
    · rw [Tree.insts, Tree.insts, List.append_nil]
    · rw [← flatMap_blockInsts ht.sound.fits] at hi
      obtain ⟨n, hn, hi⟩ := mem_flatMap.mp hi
      rw [← map_contexts hloops p []] at hn
      obtain ⟨⟨_, cs, c?⟩, hx, rfl⟩ := mem_map.mp hn
      exact ⟨_, cs, c?, (governed_iff hloops ht.sound.fits ht.roots).mpr hx, hi⟩
    · intro n cs c? hgov i hi
      have hx := (governed_iff hloops ht.sound.fits ht.roots).mp hgov
      have hmem : n ∈ t.nodes := map_contexts hloops p [] ▸ mem_map_of_mem hx
      obtain ⟨x, _, hplace⟩ := hfits.place_of_mem ht.roots ht.sound.fits hmem
      obtain ⟨d, hd, _⟩ := (hfits.stands n x hplace).recorded i hi
      refine ⟨d, hd, ?_⟩
      rw [hoisted_of_data hloops ht.sound hpred.data _ hx i hi, hoisted?, hd, Option.map_some]

/-- A conditional on the else side of another one, with a phi at its join. -/
def choice : Procedure :=
  { name := "choice", params := [⟨0⟩, ⟨1⟩], returnTy := .void
    locals := .full [{ name := "a", ty := .bool }, { name := "b", ty := .bool }, { name := "x", ty := .bool }]
    nodes := .full [.branch (.var (.loc ⟨0⟩)) [] [⟨1⟩] ⟨2⟩, .branch (.var (.loc ⟨1⟩)) [] [] ⟨3⟩, .block [], .block [⟨0⟩]]
    insts := .full [{ inst := .phi ⟨2⟩ [⟨.thenEnd, .loc ⟨0⟩, none⟩, ⟨.elseEnd, .loc ⟨1⟩, none⟩], block := ⟨3⟩ }]
    body := [⟨0⟩] }

theorem ifConvert_governs_choice : choice.verify = .ok () ∧ ∃ p' b, ifConvert.run choice = (.ok 2, p') ∧ p'.body = [b] ∧
    p'.inst? ⟨0⟩ = some ⟨.phi ⟨2⟩ [⟨.thenEnd, .loc ⟨0⟩, some ((var (.loc ⟨0⟩)).negate.both (.var (.loc ⟨1⟩)))⟩,
        ⟨.elseEnd, .loc ⟨1⟩, some ((var (.loc ⟨0⟩)).negate.both (var (.loc ⟨1⟩)).negate)⟩], b,
      some (var (.loc ⟨0⟩)).negate⟩ := by
  have hverify : choice.verify = .ok () := by decide +kernel
  have hinner : choice.Governed ⟨1⟩ [(var (.loc ⟨0⟩)).negate] none :=
    .inside (.body mem_cons_self) rfl (by simp [Node.governs])
  have hjoin : choice.Governed ⟨3⟩ [(var (.loc ⟨0⟩)).negate] (some (.var (.loc ⟨1⟩))) :=
    .inside hinner rfl (by simp [Node.governs])
  obtain ⟨p', hrun⟩ : ∃ p', ifConvert.run choice = (.ok 2, p') := ⟨_, rfl⟩
  obtain ⟨⟨b, hbody, _, _, _, _, hinsts⟩, _⟩ := (ifConvert_governs choice hverify).2.2 2 p' hrun
  obtain ⟨d, hd, hinst⟩ := hinsts _ _ _ hjoin ⟨0⟩ mem_cons_self
  cases hd
  exact ⟨hverify, p', b, hrun, hbody, hinst⟩

end Procedure

end ActorNet
