import ActorNet.Proofs.Casting.Settled
import ActorNet.Proofs.Structure.Loose

/-!
# Casting an expression keeps its value

Casting puts instructions in front of a place and gives an expression for the place. If every cast
among the instructions widens, then they run whenever the expression had a value, they change
nothing but temporaries, and the new expression has that value (`castExpr_runs`).

The instructions evaluate parts of the expression in any case, while a logical operator evaluates
its right operand only if the left one does not decide. So no cast may be needed inside of a right
operand (`Expr.Orderly`).
-/

namespace ActorNet

open BinaryOp List Procedure State

variable {e e' : Expr} {i : InstId} {insts' insts : List Inst} {new pre post new' : List InstId}
  {globals : List Variable} {k m n : Nat} {p q p' : Procedure} {Γ Δ : Scope} {s u t : State} {required ty : Ty}
  {y : Value} {v : VarRef} {σ : Subst} {b : NodeId} {spot : Spot} {o : Outside} {calls : CallStep}

/-! ## Where no cast is needed -/

namespace Expr

/-- An expression has the type that its place requires, and so have its parts. -/
def Exact (Γ : Scope) : Expr → Ty → Prop
  | .bool _, required => Ty.bool.needsCast required = false
  | .int _ ty, required => ty.needsCast required = false
  | .var v, required => ∃ ty ∈ Γ.ty? v, ty.needsCast required = false
  | .unary op e ty, required => e.Exact Γ (unaryOperandTy op ty) ∧ ty.needsCast required = false
  | .binary op lhs rhs ty, required =>
    (∃ operand ∈ op.operand? (lhs.ty? Γ) (rhs.ty? Γ) ty, lhs.Exact Γ operand ∧ rhs.Exact Γ operand) ∧
      ty.needsCast required = false
  | .str _, _ | .list _ _, _ => False

/-- No cast is needed inside of the right operand of a logical operator. -/
def Orderly (Γ : Scope) : Expr → Prop
  | .unary _ e _ => e.Orderly Γ
  | .binary op lhs rhs _ => lhs.Orderly Γ ∧ rhs.Orderly Γ ∧ (op.isLogical = true → rhs.Exact Γ .bool)
  | _ => True

def decideExact (Γ : Scope) : (e : Expr) → (required : Ty) → Decidable (e.Exact Γ required)
  | .bool _, _ | .int _ _, _ => inferInstanceAs (Decidable (_ = _))
  | .var v, _ => inferInstanceAs (Decidable (∃ ty ∈ Γ.ty? v, _ = _))
  | .unary _ e _, _ => @instDecidableAnd _ _ (e.decideExact Γ _) inferInstance
  | .binary _ lhs rhs _, _ =>
    have _operands : DecidablePred fun operand => lhs.Exact Γ operand ∧ rhs.Exact Γ operand := fun operand =>
      @instDecidableAnd _ _ (lhs.decideExact Γ operand) (rhs.decideExact Γ operand)
    inferInstanceAs (Decidable ((∃ operand ∈ _, lhs.Exact Γ operand ∧ rhs.Exact Γ operand) ∧ _ = _))
  | .str _, _ | .list _ _, _ => isFalse id

instance (Γ : Scope) (e : Expr) (required : Ty) : Decidable (e.Exact Γ required) := e.decideExact Γ required

def decideOrderly (Γ : Scope) : (e : Expr) → Decidable (e.Orderly Γ)
  | .unary _ e _ => e.decideOrderly Γ
  | .binary op lhs rhs _ =>
    @instDecidableAnd _ _ (lhs.decideOrderly Γ) (@instDecidableAnd _ _ (rhs.decideOrderly Γ)
      (inferInstanceAs (Decidable (op.isLogical = true → rhs.Exact Γ .bool))))
  | .bool _ | .int _ _ | .var _ | .str _ | .list _ _ => isTrue trivial

instance (Γ : Scope) (e : Expr) : Decidable (e.Orderly Γ) := e.decideOrderly Γ

end Expr

namespace Scope.Maps

lemma plain (h : Γ.Maps Δ σ) : ∀ {e : Expr}, e.Plain Γ → (e.subst σ).Plain Δ
  | .bool _, _ => trivial
  | .int _ _, he => he
  | .var v, ⟨ty, hty, hplain⟩ => ⟨ty, h v ty hty, hplain⟩
  | .unary _ _ _, he => ⟨h.plain he.1, he.2⟩
  | .binary _ _ _ _, he => ⟨h.plain he.1, h.plain he.2.1, he.2.2⟩

lemma exact (h : Γ.Maps Δ σ) : ∀ {e : Expr} {required : Ty}, e.Plain Γ → e.Exact Γ required →
    (e.subst σ).Exact Δ required
  | .bool _, _, _, he => he
  | .int _ _, _, _, he => he
  | .var v, _, _, ⟨ty, hty, hcast⟩ => ⟨ty, h v ty hty, hcast⟩
  | .unary _ _ _, _, hplain, he => ⟨h.exact hplain.1 he.1, he.2⟩
  | .binary op lhs rhs ty, _, hplain, ⟨⟨operand, hoperand, hl, hr⟩, hcast⟩ => by
    obtain ⟨l, hlty⟩ := hplain.1.exists_ty
    obtain ⟨r, hrty⟩ := hplain.2.1.exists_ty
    refine ⟨⟨operand, ?_, h.exact hplain.1 hl, h.exact hplain.2.1 hr⟩, hcast⟩
    rw [Expr.ty?_subst h hlty, Expr.ty?_subst h hrty, ← hlty, ← hrty]
    exact hoperand

lemma orderly (h : Γ.Maps Δ σ) : ∀ {e : Expr}, e.Plain Γ → e.Orderly Γ → (e.subst σ).Orderly Δ
  | .bool _, _, _ | .int _ _, _, _ | .var _, _, _ => trivial
  | .unary _ e _, hplain, he => h.orderly (e := e) hplain.1 he
  | .binary _ _ _ _, hplain, he =>
    ⟨h.orderly hplain.1 he.1, h.orderly hplain.2.1 he.2.1, fun hop => h.exact hplain.2.1 (he.2.2 hop)⟩

end Scope.Maps

lemma Scope.maps_of_locals (h : ∀ x v, p.local? x = some v → p'.local? x = some v)
    (globals : List Variable) : (p.scope globals).Maps (p'.scope globals) .id := by
  intro v ty hty
  rw [Subst.apply_id]
  cases v with
  | glob g => exact hty
  | loc x =>
    obtain ⟨var, hvar, rfl⟩ := map_eq_some_iff.mp hty
    exact map_eq_some_iff.mpr ⟨var, h x var hvar, rfl⟩

/-! ## New instructions at a place -/

/-- A new instruction is put between two parts of the instructions of a block. -/
def Spot.At (b : NodeId) (pre post : List InstId) (p : Procedure) : Spot → Prop
  | before anchor => ∃ rest d, post = anchor :: rest ∧ p.node? b = some (.block (pre ++ anchor :: rest)) ∧
      anchor ∉ pre ∧ p.inst? anchor = some d ∧ d.block = b
  | atEnd block => block = b ∧ post = [] ∧ p.node? b = some (.block pre)

variable {hint : String} {temp : LocalId} {inst : Inst}

section Emitted

variable {added : List (Inst × Option Expr)}

lemma Spot.At.node (h : spot.At b pre post p) : p.node? b = some (.block (pre ++ post)) := by
  cases spot with
  | before anchor =>
    obtain ⟨rest, _, rfl, hb, _⟩ := h
    exact hb
  | atEnd block =>
    obtain ⟨_, rfl, hb⟩ := h
    rw [List.append_nil]
    exact hb

lemma Emitted.further (h : Emitted b pre post new added p p') (hat : spot.At b pre post p) :
    spot.At b (pre ++ new) post p' := by
  cases spot with
  | before anchor =>
    obtain ⟨rest, d, rfl, _, hpre, hd, hblock⟩ := hat
    have hlt := index_lt_of_inst? hd
    refine ⟨rest, d, rfl, h.block, ?_, (h.insts anchor hlt).trans hd, hblock⟩
    rw [mem_append, not_or]
    exact ⟨hpre, fun hmem => Nat.not_le.mpr hlt (h.fresh anchor hmem)⟩
  | atEnd block =>
    obtain ⟨rfl, rfl, _⟩ := hat
    have hb := h.block
    rw [List.append_nil] at hb
    exact ⟨rfl, rfl, hb⟩

lemma Procedure.Extends.scope (h : p.Extends p') (globals : List Variable) :
    (p.scope globals).Maps (p'.scope globals) .id :=
  Scope.maps_of_locals h.locals globals

/-- A new instruction that defines a new temporary. -/
lemma emitted_temp (hat : spot.At b pre post p)
    (htemp : Yields (newTemp ty hint) p temp q) (hemit : Yields (emit spot inst) q i p') :
    temp = ⟨p.locals.size⟩ ∧ Emitted b pre post [i] [(inst, none)] p p' ∧
      p'.locals.size = p.locals.size + 1 ∧ ∃ v, p'.local? temp = some v ∧ v.ty = ty := by
  obtain ⟨hext, rfl, hsize, hvar⟩ := Extends.of_newTemp htemp
  obtain ⟨-, hq⟩ := yields_newTemp.mp htemp
  have hrest : q = { p with locals := q.locals, nextTemp := q.nextTemp } := by rw [hq]
  have hnode : ∀ n, q.node? n = p.node? n := fun n => by rw [hrest]; rfl
  have hinst : ∀ j, q.inst? j = p.inst? j := fun j => by rw [hrest]; rfl
  have hfirst : Emitted b pre post [] [] p q := by
    refine ⟨hext, ?_, fun n _ => hnode n, by rw [hrest], forall_mem_nil _, nodup_nil, rfl, by rw [hrest]⟩
    rw [hnode, hat.node, List.append_nil]
  -- wherever the place is, the instruction stands between the two parts
  have hp' : i = .mk q.insts.size ∧ p' = { q with insts := q.insts.push { inst := inst, block := b } }.setBlock b
      (pre ++ InstId.mk q.insts.size :: post) := by
    cases spot with
    | before anchor =>
      obtain ⟨rest, d, rfl, hb, hpre, hd, hblock⟩ := hat
      exact (yields_insertBefore ((hnode b).trans hb) hpre ((hinst anchor).trans hd) hblock).mp hemit
    | atEnd block =>
      obtain ⟨rfl, rfl, hb⟩ := hat
      obtain ⟨is, his, hi, hp'⟩ := yields_appendInst.mp hemit
      cases (hnode _).symm.trans his |>.symm.trans hb
      exact ⟨hi, hp'⟩
  obtain ⟨rfl, hp'⟩ := hp'
  have hlocals : p'.locals = q.locals := by
    rw [hp']
    rfl
  refine ⟨rfl, hfirst.trans (.single hfirst.block (by rw [hp', List.append_nil])), by rw [hlocals, hsize], ?_⟩
  rw [local?, hlocals]
  exact hvar

end Emitted

/-! ## Widening casts -/

/-- The instruction in a slot is no cast, or one from an integer type to an integer type whose range
contains that of the first. -/
def Procedure.WidensAt (p : Procedure) (globals : List Variable) (id : InstId) : Prop :=
  match p.inst? id with
  | some ⟨.cast source _ ty, _, _⟩ => ∀ a ∈ (p.scope globals).ty? source, a.Widens ty
  | _ => True

instance (p : Procedure) (globals : List Variable) (id : InstId) : Decidable (p.WidensAt globals id) := by
  unfold Procedure.WidensAt
  split <;> infer_instance

/-- All casts in the slots from a number on go from an integer type to an integer type whose range
contains that of the first. -/
def Procedure.WidensFrom (p : Procedure) (globals : List Variable) (n : Nat) : Prop :=
  ∀ k < p.insts.size, n ≤ k → p.WidensAt globals ⟨k⟩

instance (p : Procedure) (globals : List Variable) (n : Nat) : Decidable (p.WidensFrom globals n) :=
  inferInstanceAs (Decidable (∀ _ < _, _ → _))

lemma Procedure.WidensFrom.cast {p : Procedure} {globals : List Variable} {n : Nat} (h : p.WidensFrom globals n)
    {i : InstId} (hi : n ≤ i.index) {d : InstData} (hd : p.inst? i = some d) {source : VarRef} {target : LocalId} {a b : Ty}
    (hcast : d.inst = .cast source target b) (hty : (p.scope globals).ty? source = some a) : a.Widens b := by
  have hwidens := h i.index (index_lt_of_inst? hd) hi
  obtain ⟨inst, block, predicate⟩ := d
  subst hcast
  unfold Procedure.WidensAt at hwidens
  rw [hd] at hwidens
  exact hwidens a hty

/-! ## Temporaries -/

/-- Nothing but locals from a position on may have changed. -/
structure State.SameBelow (s : State) (n : Nat) (u : State) : Prop where
  world : u.toWorld = s.toWorld
  locals : ∀ x : LocalId, x.index < n → u.locals x = s.locals x

/-- A variable is no local from a position on. -/
def VarRef.Below (n : Nat) : VarRef → Prop
  | loc id => id.index < n
  | glob _ => True

def Inst.Defines (lo hi : Nat) : Inst → Prop
  | assign target _ => lo ≤ target.index ∧ target.index < hi
  | cast _ target _ => lo ≤ target.index ∧ target.index < hi
  | _ => False

variable {x : LocalId}

namespace State.SameBelow

lemma refl (s : State) (n : Nat) : s.SameBelow n s := ⟨rfl, fun _ _ => rfl⟩

lemma trans (h : s.SameBelow m t) (h' : t.SameBelow n u) (hmn : m ≤ n) : s.SameBelow m u :=
  ⟨h'.world.trans h.world, fun x hx => (h'.locals x (hx.trans_le hmn)).trans (h.locals x hx)⟩

lemma mono (h : s.SameBelow n u) (hmn : m ≤ n) : s.SameBelow m u :=
  ⟨h.world, fun x hx => h.locals x (hx.trans_le hmn)⟩

lemma set (s : State) (hx : n ≤ x.index) (y : Value) : s.SameBelow n (s.set x y) := by
  refine ⟨rfl, fun z hz => set_locals_ne s y fun heq => ?_⟩
  rw [heq] at hz
  exact Nat.not_le.mpr hz hx

lemma read (h : s.SameBelow n u) {v : VarRef} (hv : v.Below n) : u.read v = s.read v := by
  cases v with
  | loc x => exact h.locals x hv
  | glob g =>
    have hglobals : u.globals = s.globals := congrArg World.globals h.world
    rw [State.read, State.read, hglobals]

lemma eval (h : s.SameBelow n u) (he : ∀ v ∈ e.uses, v.Below n) : u.eval e = s.eval e :=
  eval_congr fun v hv => h.read (he v hv)

lemma hasTypes (h : s.SameBelow n u) {vars : List VarRef} (hvars : ∀ v ∈ vars, v.Below n)
    (hs : s.HasTypes Γ vars) : u.HasTypes Γ vars := by
  intro v hv ty hty x hx
  rw [h.read (hvars v hv)] at hx
  exact hs v hv ty hty x hx

end State.SameBelow

lemma VarRef.Below.mono (h : v.Below m) (hmn : m ≤ n) : v.Below n := by
  cases v with
  | loc x => exact h.trans_le hmn
  | glob g => trivial

lemma Inst.Defines.mono {lo hi lo' hi' : Nat} {i : Inst} (h : i.Defines lo hi) (hlo : lo' ≤ lo)
    (hhi : hi ≤ hi') : i.Defines lo' hi' := by
  cases i with
  | assign | cast => exact ⟨hlo.trans h.1, h.2.trans_le hhi⟩
  | load | store | call | phi | ret => exact h.elim

lemma VarRef.below_of_ty? (h : (p.scope globals).ty? v = some ty) : v.Below p.locals.size := by
  cases v with
  | glob g => trivial
  | loc x =>
    obtain ⟨var, hvar, _⟩ := map_eq_some_iff.mp h
    exact index_lt_of_local? (isSome_iff_exists.mpr ⟨var, hvar⟩)

lemma Expr.Plain.declared {Γ : Scope} : ∀ {e : Expr}, e.Plain Γ → ∀ v ∈ e.uses, ∃ ty, Γ.ty? v = some ty
  | .bool _, _, _, hv => nomatch hv
  | .int _ _, _, _, hv => nomatch hv
  | .var _, ⟨ty, hty, _⟩, _, hv => ⟨ty, mem_singleton.mp hv ▸ hty⟩
  | .unary _ _ _, he, v, hv => he.1.declared v hv
  | .binary _ _ _ _, he, v, hv => (mem_append.mp hv).elim (fun hv => he.1.declared v hv) fun hv => he.2.1.declared v hv

lemma Expr.Plain.below (h : e.Plain (p.scope globals)) : ∀ v ∈ e.uses, v.Below p.locals.size := by
  intro v hv
  obtain ⟨ty, hty⟩ := h.declared v hv
  exact VarRef.below_of_ty? hty

lemma Procedure.liveIn_of_ty? {spared : LocalId → Prop}
    (h : (p.scope globals).ty? v = some ty) : p.LiveIn spared [v] := by
  intro x hx
  obtain rfl := mem_singleton.mp hx
  obtain ⟨var, hvar, _⟩ := map_eq_some_iff.mp h
  exact .inr (isSome_iff_exists.mpr ⟨var, hvar⟩)

/-! ## Expressions -/

/-- Instructions run in a state, change nothing but locals from a position on, and give an
expression a value. -/
def Computes (calls : CallStep) (n : Nat) (insts : List Inst) (s : State) (e : Expr) (y : Value) : Prop :=
  ∃ u, (Code.ofInsts insts).step calls s .next u ∧ s.SameBelow n u ∧ u.eval e = some y

/-- Instructions have been put at a place. They define temporaries, they are settled, and some of
them are casts. -/
structure Prepared (o : Outside) (S : Prop) (b : NodeId) (pre post new : List InstId)
    (insts : List Inst) (k : Nat) (p p' : Procedure) : Prop where
  emitted : Emitted b pre post new (insts.map (·, none)) p p'
  defines : ∀ i ∈ insts, i.Defines p.locals.size p'.locals.size
  settled : ∀ i ∈ insts, i.Settled o S p'
  casts : insts.countP Inst.isCast = k

/-- If some variables are live, then so is what new instructions name, and so are other variables
after them. -/
def StaysLive (vars : List VarRef) (insts : List Inst) (vars' : List VarRef) (p p' : Procedure) : Prop :=
  ∀ spared, p.LiveIn spared vars → (∀ i ∈ insts, p'.LiveIn spared i.named) ∧ p'.LiveIn spared vars'

/-- An expression has been cast at a place to the type that is required, if any. If all casts widen,
the instructions that were put there run whenever the expression had a value, and give it to the new
expression. -/
structure CastTo (o : Outside) (S : Prop) (n : Nat) (b : NodeId) (pre post : List InstId)
    (required : Option Ty) (e e' : Expr) (new : List InstId) (insts : List Inst) (k : Nat)
    (p p' : Procedure) : Prop extends Prepared o S b pre post new insts k p p' where
  suits : e'.Suits (p'.scope o.globals) S required
  live : StaysLive e.uses insts e'.uses p p'
  computes : e.Plain (p.scope o.globals) → e.Orderly (p.scope o.globals) → p'.WidensFrom o.globals n →
    ∀ calls s y, s.HasTypes (p.scope o.globals) e.uses → s.eval e = some y →
      Computes calls p.locals.size insts s e' y ∧ ∀ ty ∈ required, y.HasTy ty

section CastTo

namespace StaysLive

variable {vars vars' vars1 vars1' : List VarRef} {insts : List Inst}

lemma refl (vars : List VarRef) (p : Procedure) : StaysLive vars [] vars p p :=
  fun _ h => ⟨forall_mem_nil _, h⟩

lemma trans (h : StaysLive vars insts vars' p q) (h' : StaysLive vars' insts' vars1 q p')
    (hlocals : q.KeepsLive p') : StaysLive vars (insts ++ insts') vars1 p p' := by
  intro spared hvars
  obtain ⟨hinsts, hvars'⟩ := h spared hvars
  obtain ⟨hinsts', hvars1⟩ := h' spared hvars'
  exact ⟨forall_mem_append.mpr ⟨fun i hi => (hinsts i hi).mono hlocals, hinsts'⟩, hvars1⟩

lemma append (h : StaysLive vars insts vars' p q) (h' : StaysLive vars1 insts' vars1' q p') (hlocals : p.KeepsLive q)
    (hlocals' : q.KeepsLive p') : StaysLive (vars ++ vars1) (insts ++ insts') (vars' ++ vars1') p p' := by
  intro spared hvars
  obtain ⟨hvars, hvars1⟩ := liveIn_append.mp hvars
  obtain ⟨hinsts, hvars'⟩ := h spared hvars
  obtain ⟨hinsts', hvars1'⟩ := h' spared (hvars1.mono hlocals)
  exact ⟨forall_mem_append.mpr ⟨fun i hi => (hinsts i hi).mono hlocals', hinsts'⟩,
    liveIn_append.mpr ⟨hvars'.mono hlocals', hvars1'⟩⟩

end StaysLive

lemma Computes.nil (h : s.eval e = some y) : Computes calls n [] s e y :=
  ⟨s, ⟨rfl, rfl⟩, State.SameBelow.refl s n, h⟩

/-- Instructions after which others compute a value. -/
lemma Computes.append {insts : List Inst} (hstep : (Code.ofInsts insts).step calls s .next u)
    (hsame : s.SameBelow n u) (hnm : n ≤ m) (h : Computes calls m insts' u e y) :
    Computes calls n (insts ++ insts') s e y := by
  obtain ⟨w, hstep', hsame', hy⟩ := h
  refine ⟨w, ?_, hsame.trans hsame' hnm, hy⟩
  rw [Code.ofInsts_append, Code.step_append]
  exact .inl ⟨u, hstep, hstep'⟩

lemma Computes.set {i : Inst} (hstep : i.step calls s .next (s.set x y)) (hx : n ≤ x.index) :
    Computes calls n [i] s (.var (.loc x)) y := by
  refine ⟨s.set x y, .inl ⟨_, hstep, rfl, rfl⟩, State.SameBelow.set s hx y, ?_⟩
  rw [eval_var, read_loc, set_locals_self]

lemma Procedure.Extends.widensFrom (h : p.Extends p') (hwide : p'.WidensFrom globals n) : p.WidensFrom globals n := by
  intro k hk hn
  unfold Procedure.WidensAt
  split
  · rename_i source target ty block predicate hd
    intro a ha
    have hty := h.scope globals source a ha
    rw [Subst.apply_id] at hty
    exact hwide.cast (i := ⟨k⟩) hn ((h.insts ⟨k⟩ hk).trans hd) rfl hty
  · trivial

lemma Emitted.eq_nil {insts : List Inst} (h : Emitted b pre post new (insts.map (·, none)) p p)
    (hb : p.node? b = some (.block (pre ++ post))) : insts = [] := by
  have hblock := Node.block.inj (Option.some.inj (h.block.symm.trans hb))
  rw [append_left_inj, append_right_eq_self] at hblock
  have hdata := h.data
  rw [hblock] at hdata
  exact map_eq_nil_iff.mp (map_eq_nil_iff.mp hdata.symm)

lemma Emitted.settled {added : List (Inst × Option Expr)} {S : Prop}
    (h : Emitted b pre post new added p p') (hinst : inst.Settled o S p) : inst.Settled o S p' := by
  have hsubst := hinst.subst (h.scope o.globals) (by rw [h.rest]) fun v _ => Subst.apply_id v
  rw [Inst.subst_id] at hsubst
  exact hsubst

lemma Procedure.Extends.suits {S : Prop} {required : Option Ty} (h : p.Extends p')
    (he : e.Suits (p.scope o.globals) S required) : e.Suits (p'.scope o.globals) S required := by
  have hsubst := he.subst (h.scope o.globals).agrees
  rw [Expr.subst_id] at hsubst
  exact hsubst

namespace Prepared

variable {S : Prop} {insts : List Inst}

lemma refl (hat : spot.At b pre post p) : Prepared o S b pre post [] [] 0 p p :=
  ⟨Emitted.refl hat.node, forall_mem_nil _, forall_mem_nil _, rfl⟩

lemma trans (h : Prepared o S b pre post new insts k p q) (h' : Prepared o S b (pre ++ new) post new' insts' m q p') :
    Prepared o S b pre post (new ++ new') (insts ++ insts') (k + m) p p' where
  emitted := by
    rw [map_append]
    exact h.emitted.trans h'.emitted
  defines := forall_mem_append.mpr
    ⟨fun i hi => (h.defines i hi).mono le_rfl h'.emitted.locals_size,
      fun i hi => (h'.defines i hi).mono h.emitted.locals_size le_rfl⟩
  settled := forall_mem_append.mpr ⟨fun i hi => h'.emitted.settled (h.settled i hi), h'.settled⟩
  casts := by rw [countP_append, h.casts, h'.casts]

/-- An instruction that defines a new temporary. -/
lemma of_temp (hat : spot.At b pre post p) (htemp : Yields (newTemp ty hint) p temp q)
    (hemit : Yields (emit spot inst) q i p') (hdefines : inst.Defines temp.index (temp.index + 1))
    (hsettled : ∀ p', (p'.scope o.globals).ty? (.loc temp) = some ty →
    p.Extends p' → inst.Settled o S p') :
    temp = ⟨p.locals.size⟩ ∧ Prepared o S b pre post [i] [inst] ([inst].countP Inst.isCast) p p' ∧
      (p'.scope o.globals).ty? (.loc temp) = some ty := by
  obtain ⟨rfl, hemitted, hsize, var, hvar, rfl⟩ := emitted_temp hat htemp hemit
  have htype : (p'.scope o.globals).ty? (.loc ⟨p.locals.size⟩) = some var.ty := map_eq_some_iff.mpr ⟨var, hvar, rfl⟩
  refine ⟨rfl, ⟨hemitted, forall_mem_singleton.mpr ?_,
    forall_mem_singleton.mpr (hsettled p' htype hemitted.toExtends), rfl⟩, htype⟩
  rw [hsize]
  exact hdefines

end Prepared

variable {S : Prop} {insts : List Inst}

lemma materialize_runs (hat : spot.At b pre post p) (he : e.Settled (p.scope o.globals) S)
    (hty : e.ty? (p.scope o.globals) = some ty) (hy : Yields (materialize spot e ty) p v p') :
    ∃ new insts, Prepared o S b pre post new insts 0 p p' ∧ (p'.scope o.globals).ty? v = some ty ∧
      StaysLive e.uses insts [v] p p' ∧
      ∀ calls s y, s.eval e = some y → Computes calls p.locals.size insts s (.var v) y := by
  unfold materialize at hy
  split at hy
  · rename_i w hw
    obtain ⟨rfl, rfl⟩ := yields_pure.mp hy
    obtain rfl : e = .var v := by
      cases e <;> cases hw
      rfl
    exact ⟨[], [], Prepared.refl hat, hty, .refl _ p', fun calls s y hval => Computes.nil hval⟩
  · simp only [yields_bind, yields_pure] at hy
    obtain ⟨temp, q, htemp, i, q', hemit, rfl, rfl⟩ := hy
    obtain ⟨rfl, hprepared, htype⟩ := Prepared.of_temp (S := S) hat htemp hemit ⟨le_rfl, Nat.lt_succ_self _⟩
      fun p' htype hext => ⟨ty, htype, hext.suits ⟨he, fun ty' hty' => ⟨ty, hty, Option.some.inj hty' ▸ .refl ty⟩⟩⟩
    refine ⟨_, _, hprepared, htype, fun spared he => ⟨forall_mem_singleton.mpr (liveIn_append.mpr ⟨?_, ?_⟩), ?_⟩,
      fun calls s y hval => Computes.set ⟨y, hval, rfl, rfl⟩ le_rfl⟩
    · exact he.mono hprepared.emitted.keepsLive
    · exact liveIn_of_ty? htype
    · exact liveIn_of_ty? htype

/-- Casting an expression whose parts have been cast. -/
lemma castTo_runs (hat : spot.At b pre post p) (hn : n ≤ p.insts.size)
    (he : e.Settled (p.scope o.globals) S) (hy : Yields (castTo o spot required e) p (e', k) p') :
    ∃ ty new insts, e.ty? (p.scope o.globals) = some ty ∧ Prepared o S b pre post new insts k p p' ∧
      e'.Suits (p'.scope o.globals) S (some required) ∧ StaysLive e.uses insts e'.uses p p' ∧
      (p'.WidensFrom o.globals n → ∀ calls s y, y.HasTy ty → s.eval e = some y →
        Computes calls p.locals.size insts s e' y ∧ y.HasTy required) := by
  unfold castTo at hy
  obtain ⟨ty, q, hty, hrest⟩ := yields_bind.mp hy
  obtain ⟨hty, hq⟩ := yields_requireTy.mp hty
  rw [hq] at hrest
  split at hrest
  · simp only [yields_bind, yields_pure, yields_liftM, Prod.mk.injEq] at hrest
    obtain ⟨source, q1, hsource, temp, q2, htemp, i, q3, hemit, ⟨rfl, rfl⟩, rfl⟩ := hrest
    obtain ⟨new, insts, hfirst, hsource, hlive, hcomputes⟩ := materialize_runs hat he hty hsource
    obtain ⟨rfl, hcast, htype⟩ := Prepared.of_temp (o := o) (S := S) (hfirst.emitted.further hat) htemp hemit
      ⟨le_rfl, Nat.lt_succ_self _⟩ fun _ _ _ => trivial
    refine ⟨ty, _, _, hty, hfirst.trans hcast,
      ⟨trivial, fun ty' hty' => ⟨required, htype, Option.some.inj hty' ▸ .refl _⟩⟩, hlive.trans
      (fun spared hvar => ?_) hcast.emitted.keepsLive, fun hwide calls s y hyty hval => ?_⟩
    · have htemp : p'.LiveIn spared _ := liveIn_of_ty? htype
      exact ⟨forall_mem_singleton.mpr (liveIn_append.mpr ⟨hvar.mono hcast.emitted.keepsLive, htemp⟩), htemp⟩
    have hwiden : ty.Widens required := by
      have hd := hcast.emitted.data
      rw [map_singleton, map_singleton, map_singleton, singleton_inj] at hd
      have hsource' := hcast.emitted.scope o.globals source ty hsource
      rw [Subst.apply_id] at hsource'
      exact hwide.cast (Nat.le_trans (hn.trans hfirst.emitted.insts_size)
        (hcast.emitted.fresh i mem_cons_self)) hd rfl hsource'
    obtain ⟨u, hstep, hsame, hval'⟩ := hcomputes calls s y hval
    rw [eval_var] at hval'
    refine ⟨Computes.append hstep hsame hfirst.emitted.locals_size
      (Computes.set ⟨y, ?_, rfl, rfl⟩ le_rfl), hyty.widen hwiden⟩
    exact converted_eq_some.mpr ⟨y, hval', hyty.convert hwiden ""⟩
  · rename_i hcast
    obtain ⟨hpair, rfl⟩ := yields_pure.mp hrest
    obtain ⟨rfl, rfl⟩ := Prod.mk.inj hpair
    have hagrees : ty.Agrees required := Ty.agrees_iff_not_needsCast.mpr (Bool.eq_false_iff.mpr hcast)
    refine ⟨ty, [], [], hty, Prepared.refl hat, ⟨he, fun ty' hty' => ⟨ty, hty, Option.some.inj hty' ▸ hagrees⟩⟩,
      .refl _ _, fun _ calls s y hyty hval => ⟨Computes.nil hval, ?_⟩⟩
    exact Ty.eq_of_not_needsCast hyty.isPlain (Bool.eq_false_iff.mpr hcast) ▸ hyty

lemma castTo_exact (hty : e.ty? (p.scope o.globals) = some ty) (hcast : ty.needsCast required = false)
    (hy : Yields (castTo o spot required e) p (e', k) p') : e' = e ∧ p' = p := by
  unfold castTo at hy
  obtain ⟨found, q, hfound, hrest⟩ := yields_bind.mp hy
  obtain ⟨hfound, rfl⟩ := yields_requireTy.mp hfound
  cases hty.symm.trans hfound
  rw [hcast] at hrest
  simp only [Bool.false_eq_true, if_false, yields_pure, Prod.mk.injEq] at hrest
  exact ⟨hrest.1.1, hrest.2⟩

/-- Where no cast is needed, nothing happens. -/
lemma castExpr_exact : ∀ (e : Expr) {required : Ty} {p p' : Procedure} {e' : Expr} {k : Nat},
    e.Exact (p.scope o.globals) required → Yields (castExpr o spot (some required) e) p (e', k) p' →
    e' = e ∧ p' = p
  | .bool b, required, p, p', e', k, he, hy => castTo_exact rfl he hy
  | .int value ty, required, p, p', e', k, he, hy => castTo_exact rfl he hy
  | .var v, required, p, p', e', k, ⟨ty, hty, hcast⟩, hy => castTo_exact hty hcast hy
  | .unary op inner ty, required, p, p', e', k, he, hy => by
    simp only [castExpr, yields_bind, yields_pure, Prod.mk.injEq] at hy
    obtain ⟨⟨inner', m⟩, q1, hi, ⟨e1, k1⟩, q2, hcast, ⟨rfl, _⟩, rfl⟩ := hy
    obtain ⟨rfl, rfl⟩ := castExpr_exact inner he.1 hi
    exact castTo_exact rfl he.2 hcast
  | .binary op lhs rhs ty, required, p, p', e', k, ⟨⟨operand, hoperand, hl, hr⟩, hcast⟩, hy => by
    simp only [castExpr, yields_bind, yields_pure, Prod.mk.injEq] at hy
    obtain ⟨found, q, hfound, ⟨lhs', m⟩, q1, hlhs, ⟨rhs', m'⟩, q2, hrhs, ⟨e1, k1⟩, q3, he, ⟨rfl, _⟩, rfl⟩ := hy
    obtain ⟨hfound, rfl⟩ := yields_operandTy.mp hfound
    cases hoperand.symm.trans hfound
    obtain ⟨rfl, rfl⟩ := castExpr_exact lhs hl hlhs
    obtain ⟨rfl, rfl⟩ := castExpr_exact rhs hr hrhs
    exact castTo_exact rfl hcast he
  | .str _, required, p, p', e', k, he, hy => he.elim
  | .list _ _, required, p, p', e', k, he, hy => he.elim

lemma CastTo.refl (hat : spot.At b pre post p) (he : e.Settled (p.scope o.globals) S) :
    CastTo o S n b pre post none e e [] [] 0 p p :=
  ⟨Prepared.refl hat, ⟨he, nofun⟩, .refl _ p, fun _ _ _ _ _ _ _ hy =>
    ⟨Computes.nil hy, nofun⟩⟩

lemma CastTo.below {required : Option Ty} (h : CastTo o S n b pre post required e e' new insts k p p')
    (he : e.Plain (p.scope o.globals)) : ∀ v ∈ e'.uses, v.Below p'.locals.size := by
  have hlive : p.LiveIn (fun _ => False) e.uses := by
    intro x hx
    obtain ⟨ty, hty⟩ := he.declared _ hx
    have hlive : p.LiveIn (fun _ => False) [.loc x] := liveIn_of_ty? hty
    exact hlive x mem_cons_self
  intro v hv
  cases v with
  | glob g => trivial
  | loc x => exact index_lt_of_local? (((h.live _ hlive).2 x hv).resolve_left not_false)

/-- An expression is built from what has been cast, and is cast itself. -/
lemma CastTo.rebuild {e1 : Expr} {required : Option Ty} (h : CastTo o S n b pre post none e e1 new insts k p q)
    (hat : spot.At b pre post p) (hn : n ≤ p.insts.size)
    (hty : ∀ ty, e.ty? (p.scope o.globals) = some ty → e1.ty? (q.scope o.globals) = some ty)
    (hy : Yields (castIfRequired o spot required e1) q (e', m) p') :
    ∃ new' insts', CastTo o S n b pre post required e e' new' insts' (k + m) p p' := by
  cases required with
  | none =>
    obtain ⟨hpair, rfl⟩ := yields_pure.mp hy
    obtain ⟨rfl, rfl⟩ := Prod.mk.inj hpair
    exact ⟨new, insts, h⟩
  | some required =>
    obtain ⟨ty, new', insts', hty1, hprepared, hsuits, hlive, hcomputes⟩ :=
      castTo_runs (h.emitted.further hat) (hn.trans h.emitted.insts_size) h.suits.1 hy
    refine ⟨new ++ new', insts ++ insts', h.toPrepared.trans hprepared, hsuits,
      h.live.trans hlive hprepared.emitted.keepsLive, fun he ho hwide calls s y hs hval => ?_⟩
    obtain ⟨ty', hty'⟩ := he.exists_ty
    cases hty1.symm.trans (hty ty' hty')
    obtain ⟨⟨u, hstep, hsame, hval1⟩, _⟩ := h.computes he ho (hprepared.emitted.widensFrom hwide) calls s y hs hval
    obtain ⟨hlast, hyty⟩ := hcomputes hwide calls u y (Expr.hasTy_of_eval e he hs hval hty') hval1
    exact ⟨Computes.append hstep hsame h.emitted.locals_size hlast, fun r hr => Option.some.inj hr ▸ hyty⟩

/-- The operator of an expression takes operands of the type to which they are cast. -/
lemma BinaryOp.takes_of_operand? {op : BinaryOp} {lhs rhs : Expr} {operand : Ty}
    (h : op.operand? (lhs.ty? Γ) (rhs.ty? Γ) ty = some operand)
    (hS : S → (Expr.binary op lhs rhs ty).ComparesScalars Γ) : op.Takes S ty operand := by
  unfold operand? at h
  unfold Takes
  split at h
  · rename_i hop
    rw [if_pos hop]
    exact (Option.some.inj h).symm
  · rename_i hop
    rw [if_neg hop]
    split at h
    · rename_i hcomp
      rw [if_pos hcomp]
      intro hs
      obtain ⟨l, hl, h⟩ := bind_eq_some_iff.mp h
      obtain ⟨r, _, rfl⟩ := map_eq_some_iff.mp h
      obtain ⟨l', hl', hscalar⟩ := ((hS hs).2.2 hcomp).1
      cases hl.symm.trans hl'
      exact Ty.isList_lub hscalar r
    · rename_i hcomp
      rw [if_neg hcomp]
      exact (Option.some.inj h).symm

lemma Procedure.Extends.comparesScalars (h : p.Extends p')
    (he : e.ComparesScalars (p.scope o.globals)) : e.ComparesScalars (p'.scope o.globals) :=
  e.subst_id ▸ he.subst (h.scope o.globals)

lemma Procedure.Extends.allCompareScalars {es : List Expr} (h : p.Extends p')
    (hes : Expr.AllCompareScalars (p.scope o.globals) es) : Expr.AllCompareScalars (p'.scope o.globals) es :=
  Expr.substAll_id es ▸ hes.subst (h.scope o.globals)

mutual

/-- Casting an expression keeps its value, if no cast is needed in right operands of logical
operators. -/
theorem castExpr_runs : ∀ (e : Expr) {required : Option Ty} {pre : List InstId} {p p' : Procedure} {e' : Expr} {k : Nat},
    (S → e.ComparesScalars (p.scope o.globals)) → spot.At b pre post p → n ≤ p.insts.size →
    Yields (castExpr o spot required e) p (e', k) p' →
    ∃ new insts, CastTo o S n b pre post required e e' new insts k p p'
  | .bool _, _, _, _, _, _, k, _, hat, hn, hy | .int _ _, _, _, _, _, _, k, _, hat, hn, hy
  | .var _, _, _, _, _, _, k, _, hat, hn, hy | .str _, _, _, _, _, _, k, _, hat, hn, hy => by
    rw [← Nat.zero_add k]
    refine (CastTo.refl hat ?_).rebuild hat hn (fun _ hty => hty) hy
    trivial
  | .unary op inner ty, required, pre, p, p', e', k, hS, hat, hn, hy => by
    simp only [castExpr, yields_bind, yields_pure, Prod.mk.injEq] at hy
    obtain ⟨⟨inner', m⟩, q, hi, ⟨e1, k1⟩, q2, hcast, ⟨rfl, rfl⟩, rfl⟩ := hy
    obtain ⟨new, insts, hinner⟩ := castExpr_runs inner hS hat hn hi
    have hwhole : CastTo o S n b pre post none (.unary op inner ty) (.unary op inner' ty) new insts m p q := by
      refine ⟨hinner.toPrepared, ⟨⟨hinner.suits.1, hinner.suits.2 _ rfl⟩, nofun⟩, hinner.live,
        fun he ho hwide calls s y hs hval => ⟨?_, nofun⟩⟩
      obtain ⟨x, hx, happly⟩ := eval_unary.mp hval
      obtain ⟨⟨u, hstep, hsame, hx'⟩, _⟩ := hinner.computes he.1 ho hwide calls s x hs hx
      exact ⟨u, hstep, hsame, eval_unary.mpr ⟨x, hx', happly⟩⟩
    exact hwhole.rebuild hat hn (fun _ hty => hty) hcast
  | .list elems ty, required, pre, p, p', e', k, hS, hat, hn, hy => by
    simp only [castExpr, yields_bind, yields_pure, Prod.mk.injEq] at hy
    obtain ⟨⟨elems', m⟩, q, hi, ⟨e1, k1⟩, q2, hcast, ⟨rfl, rfl⟩, rfl⟩ := hy
    obtain ⟨new, insts, hprepared, hsettled, hlive⟩ := castAll_runs elems hS hat hn hi
    have hwhole : CastTo o S n b pre post none (.list elems ty) (.list elems' ty) new insts m p q :=
      ⟨hprepared, ⟨hsettled, nofun⟩, hlive, fun he => he.elim⟩
    exact hwhole.rebuild hat hn (fun _ hty => hty) hcast
  | .binary op lhs rhs ty, required, pre, p, p', e', k, hS, hat, hn, hy => by
    simp only [castExpr, yields_bind, yields_pure, Prod.mk.injEq] at hy
    obtain ⟨operand, q, hoperand, ⟨lhs', m⟩, q1, hl, ⟨rhs', m'⟩, q2, hr, ⟨e1, k1⟩, q3, hcast, ⟨rfl, rfl⟩, rfl⟩ := hy
    obtain ⟨hoperand, rfl⟩ := yields_operandTy.mp hoperand
    obtain ⟨new, insts, hlhs⟩ := castExpr_runs lhs (fun hs => (hS hs).1) hat hn hl
    obtain ⟨new', insts', hrhs⟩ := castExpr_runs rhs (fun hs => hlhs.emitted.comparesScalars (hS hs).2.1)
      (hlhs.emitted.further hat) (hn.trans hlhs.emitted.insts_size) hr
    have hmaps := hlhs.emitted.scope o.globals
    have hplain : rhs.Plain (q.scope o.globals) → rhs.Plain (q1.scope o.globals) := fun he =>
      rhs.subst_id ▸ hmaps.plain he
    have hlsuits := hrhs.emitted.suits hlhs.suits
    have hwhole : CastTo o S n b pre post none (.binary op lhs rhs ty) (.binary op lhs' rhs' ty) (new ++ new')
        (insts ++ insts') (m + m') q q2 := by
      refine ⟨hlhs.toPrepared.trans hrhs.toPrepared, ⟨⟨hlsuits.1, hrhs.suits.1, operand, takes_of_operand? hoperand hS,
        hlsuits.2 _ rfl, hrhs.suits.2 _ rfl⟩, nofun⟩,
        hlhs.live.append hrhs.live hlhs.emitted.keepsLive hrhs.emitted.keepsLive,
        fun he ho hwide calls s y hs hval => ⟨?_, nofun⟩⟩
      have hrbelow := he.2.1.below
      obtain ⟨hsl, hsr⟩ := hasTypes_append.mp hs
      have hwide1 := hrhs.emitted.widensFrom hwide
      cases hop : op.isLogical with
      | true =>
        -- nothing is put in front of the right operand
        have hexact : rhs.Exact (q1.scope o.globals) operand := by
          rw [operand?, hop, if_pos rfl] at hoperand
          rw [← Option.some.inj hoperand, ← rhs.subst_id]
          exact hmaps.exact he.2.1 (ho.2.2 hop)
        obtain ⟨rfl, rfl⟩ := castExpr_exact rhs hexact hr
        rw [hrhs.emitted.eq_nil (hlhs.emitted.further hat).node, List.append_nil]
        obtain ⟨a, ha, hrest⟩ := (eval_logical hop).mp hval
        obtain ⟨⟨u, hstep, hsame, ha'⟩, _⟩ := hlhs.computes he.1 ho.1 hwide1 calls s _ hsl ha
        refine ⟨u, hstep, hsame, (eval_logical hop).mpr ⟨a, ha', ?_⟩⟩
        rw [hsame.eval hrbelow]
        exact hrest
      | false =>
        have horderly : rhs.Orderly (q1.scope o.globals) := rhs.subst_id ▸ hmaps.orderly he.2.1 ho.2.1
        obtain ⟨x, x', hx, hx', happly⟩ := (eval_binary hop).mp hval
        obtain ⟨⟨u, hstep, hsame, hux⟩, _⟩ := hlhs.computes he.1 ho.1 hwide1 calls s x hsl hx
        -- the left operand's instructions leave the right operand alone, and the other way round
        have hur : u.HasTypes (q1.scope o.globals) rhs.uses := by
          intro v hv ty' hty' z hz
          obtain ⟨ty0, hty0⟩ := he.2.1.declared v hv
          have hmap := hmaps v ty0 hty0
          rw [Subst.apply_id] at hmap
          cases hmap.symm.trans hty'
          rw [hsame.read (hrbelow v hv)] at hz
          exact hsr v hv ty' hty0 z hz
        obtain ⟨⟨w, hstep', hsame', hwx'⟩, _⟩ := hrhs.computes (hplain he.2.1) horderly hwide calls u x' hur
          ((hsame.eval hrbelow).trans hx')
        refine Computes.append hstep hsame hlhs.emitted.locals_size ⟨w, hstep', hsame', ?_⟩
        exact (eval_binary hop).mpr ⟨x, x', (hsame'.eval (hlhs.below he.1)).trans hux, hwx', happly⟩
    exact hwhole.rebuild hat hn (fun _ hty => hty) hcast

/-- Casting expressions one after the other. -/
lemma castAll_runs : ∀ (es : List Expr) {required : Option Ty} {pre : List InstId} {p p' : Procedure}
    {es' : List Expr} {k : Nat}, (S → Expr.AllCompareScalars (p.scope o.globals) es) → spot.At b pre post p →
    n ≤ p.insts.size → Yields (castAll o spot required es) p (es', k) p' →
    ∃ new insts, Prepared o S b pre post new insts k p p' ∧ Expr.AllSettled (p'.scope o.globals) S required es' ∧
      StaysLive (Expr.usesOf es) insts (Expr.usesOf es') p p'
  | [], required, pre, p, p', es', k, _, hat, _, hy => by
    simp only [castAll, yields_pure, Prod.mk.injEq] at hy
    obtain ⟨⟨rfl, rfl⟩, rfl⟩ := hy
    exact ⟨[], [], Prepared.refl hat, trivial, .refl _ _⟩
  | e :: rest, required, pre, p, p', es', k, hS, hat, hn, hy => by
    simp only [castAll, yields_bind, yields_pure, Prod.mk.injEq] at hy
    obtain ⟨⟨e', m⟩, q, he, ⟨rest', m'⟩, q', hrest, ⟨rfl, rfl⟩, rfl⟩ := hy
    obtain ⟨new, insts, hfirst⟩ := castExpr_runs e (fun hs => (hS hs).1) hat hn he
    obtain ⟨new', insts', hothers, hsettled, hlive⟩ :=
      castAll_runs rest (fun hs => hfirst.emitted.allCompareScalars (hS hs).2)
      (hfirst.emitted.further hat) (hn.trans hfirst.emitted.insts_size) hrest
    exact ⟨_, _, hfirst.toPrepared.trans hothers, ⟨hothers.emitted.suits hfirst.suits, hsettled⟩,
      hfirst.live.append hlive hfirst.emitted.keepsLive hothers.emitted.keepsLive⟩

end

/-- Casting arguments to the types of parameters. -/
lemma castArgs_runs {args args' : List Expr} {tys : List Ty} (hlength : tys.length = args.length)
    (hS : S → Expr.AllCompareScalars (p.scope o.globals) args) (hat : spot.At b pre post p) (hn : n ≤ p.insts.size)
    (hy : Yields (castArgs o spot args tys) p (args', k) p') : ∃ new insts, Prepared o S b pre post new insts k p p' ∧
      List.Forall₂ (fun e ty => e.Suits (p'.scope o.globals) S (some ty)) args' tys ∧
      StaysLive (Expr.usesOf args) insts (Expr.usesOf args') p p' := by
  induction args generalizing tys pre p args' k with
  | nil =>
    simp only [castArgs, yields_pure, Prod.mk.injEq] at hy
    obtain ⟨⟨rfl, rfl⟩, rfl⟩ := hy
    rw [length_eq_zero_iff.mp hlength]
    exact ⟨[], [], Prepared.refl hat, .nil, .refl _ _⟩
  | cons e rest ih =>
    obtain ⟨ty, tys, rfl⟩ := exists_cons_of_length_eq_add_one hlength
    simp only [castArgs, yields_bind, yields_pure, Prod.mk.injEq] at hy
    obtain ⟨⟨e', m⟩, q, he, ⟨rest', m'⟩, q', hrest, ⟨rfl, rfl⟩, rfl⟩ := hy
    obtain ⟨new, insts, hfirst⟩ := castExpr_runs e (fun hs => (hS hs).1) hat hn he
    obtain ⟨new', insts', hothers, hsuits, hlive⟩ := ih (Nat.succ.inj hlength) (fun hs =>
      hfirst.emitted.allCompareScalars (hS hs).2) (hfirst.emitted.further hat)
      (hn.trans hfirst.emitted.insts_size) hrest
    exact ⟨_, _, hfirst.toPrepared.trans hothers, .cons (hothers.emitted.suits hfirst.suits) hsuits,
      hfirst.live.append hlive hfirst.emitted.keepsLive hothers.emitted.keepsLive⟩

end CastTo

end ActorNet
