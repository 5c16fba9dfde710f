import ActorNet.Proofs.Semantics.Limits
import ActorNet.Proofs.Structure.Parts
import Mathlib.Logic.Relation

/-!
# What a call may change

A call changes a state variable only if the called procedure, or one that it reaches through calls,
has an instruction that stores to the variable. The machine may end in a fault, with whatever was
stored before, so this is about the machine after the call and not about its answer.
-/

namespace ActorNet

open Actor

open Run (Frame)

variable {a : Actor} {g : GlobalId} {p : Procedure}

/-- Some instruction of a procedure stores to a state variable, or to a part of it. -/
def Procedure.StoresTo (p : Procedure) (g : GlobalId) : Prop :=
  ∃ d ∈ p.allInsts, d.inst.writes? = some (.glob g)
deriving Decidable

namespace Actor

def Calls (a : Actor) (id callee : ProcId) : Prop :=
  ∃ p, a.proc? id = some p ∧ ∃ d ∈ p.allInsts, d.inst.callee? = some callee

/-- A procedure is another one or is called by it, directly or through others. -/
def Reaches (a : Actor) : ProcId → ProcId → Prop :=
  Relation.ReflTransGen a.Calls

end Actor

/-- A state variable keeps its value. -/
instance : Frame fun m m' => m'.global? g = m.global? g where
  refl _ := rfl
  trans h h' := h'.trans h
  step _ := rfl
  call _ h := h

lemma Machine.global?_setGlobal {g' : GlobalId} (h : g' ≠ g) (m : Machine) (x : Value) :
    (m.setGlobal g' x).global? g = m.global? g := by
  have hindex : g'.index ≠ g.index := fun hindex => h (congrArg GlobalId.mk hindex)
  rw [global?, global?, setGlobal, List.getElem?_set_ne hindex]

lemma Procedure.reached_eq {t : Tree} (ht : t.Spans p) : p.reached = p.forward := by
  rw [reached, ← ht.roots, nodesUnder_roots ht.sound.fits (Nat.le_succ_of_le ht.sound.height_le),
    flatMap_blockInsts ht.sound.fits, forward_eq ht]

/-- Whatever its outcome, a call leaves every state variable as it was to which no procedure stores
that the called one reaches. -/
theorem Machine.call_keeps_unstored (hcheck : a.check = .ok ()) (limits : Limits) (id : ProcId)
    (args : List Value) (m : Machine) (g : GlobalId)
    (hstores : ∀ callee, a.Reaches id callee → ∀ p, a.proc? callee = some p → ¬ p.StoresTo g) :
    ((call a limits id args).on m).2.global? g = m.global? g := by
  -- what is reached stays so along calls
  have hallows : ∀ callee, a.Reaches id callee → ∀ p, a.proc? callee = some p →
      p.Allows (fun m m' => m'.global? g = m.global? g) (a.Reaches id) p.reached := by
    intro callee hcallee p hp i hi d hd
    obtain ⟨t, ht⟩ := hasTrees_of_check hcheck callee p hp
    rw [Procedure.reached_eq ht] at hi
    have hmem : d ∈ p.allInsts := List.mem_filterMap.mpr ⟨i, hi, hd⟩
    constructor
    · rintro g' hwrites m x
      refine global?_setGlobal ?_ m x
      rintro rfl
      exact hstores callee hcallee p hp ⟨d, hmem, hwrites⟩
    · exact fun next hnext => hcallee.tail ⟨p, hp, d, hmem, hnext⟩
  exact (cutOf_call (Nat.le_refl _) (Nat.le_refl _) hallows .refl args).allowed m

/-- An actor that counts what it sells and writes down the price of one piece; a third procedure
changes the tax. -/
def Actor.till : Actor :=
  { name := "till"
    globals := [{ name := "sold", ty := .int 8 }, { name := "price", ty := .int 8 }, { name := "tax", ty := .int 8 }]
    procs := [
      { name := "sell", returnTy := .void
        nodes := .full [.block [⟨0⟩, ⟨1⟩]]
        insts := .full [
          { inst := .store (.glob ⟨0⟩) [] (.binary .add (.var (.glob ⟨0⟩)) (.int 1 (.int 8)) (.int 8)), block := ⟨0⟩ },
          { inst := .call none ⟨1⟩ [], block := ⟨0⟩ }]
        body := [⟨0⟩] },
      { name := "share", returnTy := .void
        nodes := .full [.block [⟨0⟩]]
        insts := .full [
          { inst := .store (.glob ⟨1⟩) [] (.binary .div (.int 9 (.int 8)) (.var (.glob ⟨2⟩)) (.int 8)), block := ⟨0⟩ }]
        body := [⟨0⟩] },
      { name := "levy", returnTy := .void
        nodes := .full [.block [⟨0⟩]]
        insts := .full [{ inst := .store (.glob ⟨2⟩) [] (.int 1 (.int 8)), block := ⟨0⟩ }]
        body := [⟨0⟩] }] }

/-- A sale that fails has been counted, and the tax is what it was. -/
theorem Machine.call_keeps_unstored_till : till.check = .ok () ∧
    ((call till {} ⟨0⟩ []).on { globals := [some (.int 4), none, some (.int 0)] }).2.globals.head? =
      some (some (.int 5)) ∧
    ((call till {} ⟨0⟩ []).on { globals := [some (.int 4), none, some (.int 0)] }).2.global? ⟨2⟩ =
      some (.int 0) := by
  have hreached : ∀ callee, till.Reaches ⟨0⟩ callee → callee = ⟨0⟩ ∨ callee = ⟨1⟩ := by
    intro callee hcallee
    induction hcallee with
    | refl => exact .inl rfl
    | tail _ hcalls ih =>
      obtain ⟨p, hp, d, hd, hnext⟩ := hcalls
      rcases ih with rfl | rfl
      · have hcallees : ∀ p ∈ till.proc? ⟨0⟩, ∀ d ∈ p.allInsts, ∀ next ∈ d.inst.callee?, next = ⟨1⟩ := by decide
        exact .inr (hcallees p hp d hd _ hnext)
      · have hcallees : ∀ p ∈ till.proc? ⟨1⟩, ∀ d ∈ p.allInsts, d.inst.callee? = none := by decide
        rw [hcallees p hp d hd] at hnext
        cases hnext
  refine ⟨by rfl, by rfl, call_keeps_unstored (by rfl) _ _ _ _ _ fun callee hcallee p hp => ?_⟩
  have hstores : ∀ id, id = ⟨0⟩ ∨ id = ⟨1⟩ → ∀ p ∈ till.proc? id, ¬ p.StoresTo ⟨2⟩ := by
    rintro id (rfl | rfl) <;> decide
  exact hstores callee (hreached callee hcallee) p hp

end ActorNet
