import ActorNet.Proofs.Network.Derivations
import ActorNet.Proofs.Network.Lexing

/-!
# The reader accepts the sentences of the grammar

While the reader takes tokens, a derivation can be kept beside it: a `Draft` has what is derived so
far. At every place the draft tells which tokens have been taken (`Draft.follows_step`), so what is
read to the end is a sentence. Conversely the tokens of a tree lead the reader to what the tree
denotes, and the draft to the tree (`track_tokens`). So the reader accepts the sentences
(`accepts_iff`), and a sentence has one derivation (`NetworkTree.tokens_injective`). For whole
texts, `parse` accepts those that hold no bad characters and whose tokens are a sentence
(`parse_accepts_sentences`).
-/

namespace ActorNet.Grammar

open List
open Reading (goto)

variable {α : Type} {f : α → List Token} {owner : Owner} {name : String} {lists : List (List Literal)} {t : Token}
  {ts ts' : List Token} {used tokens : List (Token × Span)} {r next : Reading} {span : Span} {decl : NetworkDecl}

/-! ## Derivations that grow -/

namespace Sequence

/-- A further element, which is the first one or stands after a comma. -/
def push (x : α) : Sequence α → Sequence α
  | empty => elements x [] false
  | elements first more _ => elements first (more ++ [x]) false

/-- A comma after the last element. -/
def comma : Sequence α → Sequence α
  | empty => empty
  | elements first more _ => elements first more true

/-- Whether an element can follow. -/
def isOpen : Sequence α → Bool
  | empty => true
  | elements _ _ trailing => trailing

lemma toList_push (x : α) (items : Sequence α) : (items.push x).toList = items.toList ++ [x] := by
  cases items <;> rfl

lemma toList_comma (items : Sequence α) : items.comma.toList = items.toList := by
  cases items <;> rfl

lemma tokens_push {items : Sequence α} (h : items.isOpen = true) (x : α) :
    (items.push x).tokens f = items.tokens f ++ f x := by
  cases items with
  | empty => simp [push, tokens, tailTokens]
  | elements => cases h; simp [push, tokens, tailTokens]

lemma tokens_comma {items : Sequence α} (h : items.isOpen = false) :
    items.comma.tokens f = items.tokens f ++ [.comma] := by
  cases items with
  | empty => cases h
  | elements => cases h; simp [comma, tokens, tailTokens]

lemma isOpen_push (x : α) (items : Sequence α) : (items.push x).isOpen = false := by
  cases items <;> rfl

lemma isOpen_comma (items : Sequence α) : items.comma.isOpen = true := by
  cases items <;> rfl

end Sequence

/-- What is derived from the tokens so far: a tree with the items that are complete, the parameters
of an item after them, and lists that are not closed, the innermost first. -/
structure Draft extends NetworkTree where
  params : Option (Sequence ParamTree) := none
  lists : List (Sequence LiteralTree) := []

def NetworkTree.add (tree : NetworkTree) (item : ItemTree) : NetworkTree :=
  { tree with items := tree.items ++ [item] }

/-- The draft after the items of a tree. -/
abbrev NetworkTree.draft (tree : NetworkTree) : Draft := ⟨tree, none, []⟩

def scalarTree? : Token → Option LiteralTree
  | .kwTrue => some (.bool true)
  | .kwFalse => some (.bool false)
  | .int n => some (.int n)
  | .str s => some (.str s)
  | _ => none

namespace Draft

variable {d : Draft}

def endLiteral (d : Draft) (name : String) (tree : LiteralTree) : Draft :=
  match d.lists with
  | [] => { d with params := d.params.map (·.push ⟨name, tree⟩) }
  | inner :: outer => { d with lists := inner.push tree :: outer }

def endList (d : Draft) (name : String) : Draft :=
  match d.lists with
  | [] => d
  | inner :: outer => { d with lists := outer }.endLiteral name (.list inner)

def startLiteral (d : Draft) (name : String) (t : Token) : Draft :=
  match scalarTree? t with
  | some tree => d.endLiteral name tree
  | none => { d with lists := .empty :: d.lists }

def endItem (d : Draft) (owner : Owner) : Draft :=
  (d.toNetworkTree.add ⟨owner, d.params⟩).draft

/-- The draft after a token that the reader takes. -/
def take (d : Draft) : Place → Token → Draft
  | .networkOpen name, _ => { d with name := name }
  | .afterClass id cls, .semi => d.endItem (.inst id cls)
  | .afterTarget src srcPort dst dstPort, .semi => d.endItem (.conn src srcPort dst dstPort)
  | .afterParams owner, _ => d.endItem owner
  | .afterClass _ _, _ | .afterTarget _ _ _ _, _ => { d with params := some .empty }
  | .afterValue _, .comma => { d with params := d.params.map .comma }
  | .afterItem _ _ _ _, .comma => { d with lists := d.lists.modifyHead .comma }
  | .listItem _ name _ _, .rbracket | .afterItem _ name _ _, _ => d.endList name
  | .paramValue _ name, t | .listItem _ name _ _, t => d.startLiteral name t
  | _, _ => d

/-! ## The tokens of a draft -/

/-- The tokens of an item up to its parameters. -/
def paramTokens (d : Draft) (owner : Owner) : List Token :=
  owner.tokens ++ owner.opener :: (d.params.elim [] (·.tokens ParamTree.tokens))

def listTokens : List (Sequence LiteralTree) → List Token
  | [] => []
  | inner :: outer => listTokens outer ++ .lbracket :: inner.tokens LiteralTree.tokens

/-- The tokens of an item up to a literal. -/
def literalTokens (d : Draft) (owner : Owner) (name : String) : List Token :=
  d.paramTokens owner ++ .ident name :: .equals :: listTokens d.lists

/-- The tokens of the item in which the reader stands. -/
def itemTokens (d : Draft) : Place → List Token
  | .instanceId => [.kwInstance]
  | .instanceColon id => [.kwInstance, .ident id]
  | .instanceClass id => [.kwInstance, .ident id, .colon]
  | .afterClass id cls => (Owner.inst id cls).tokens
  | .srcDot src => [.ident src]
  | .srcPort src => [.ident src, .dot]
  | .arrow src srcPort => [.ident src, .dot, .ident srcPort]
  | .dst src srcPort => [.ident src, .dot, .ident srcPort, .arrow]
  | .dstDot src srcPort dst => [.ident src, .dot, .ident srcPort, .arrow, .ident dst]
  | .dstPort src srcPort dst => [.ident src, .dot, .ident srcPort, .arrow, .ident dst, .dot]
  | .afterTarget src srcPort dst dstPort => (Owner.conn src srcPort dst dstPort).tokens
  | .param owner | .afterValue owner => d.paramTokens owner
  | .paramEquals owner name => d.paramTokens owner ++ [.ident name]
  | .paramValue owner name | .listItem owner name _ _ | .afterItem owner name _ _ => d.literalTokens owner name
  | .afterParams owner => d.paramTokens owner ++ [owner.closer]
  | _ => []

/-- The tokens up to an item. -/
def prior (d : Draft) : List Token :=
  .kwNetwork :: .ident d.name :: .lbrace :: d.items.flatMap ItemTree.tokens

/-- All tokens up to a place of the reader. -/
def taken (d : Draft) : Place → List Token
  | .start => []
  | .networkName => [.kwNetwork]
  | .networkOpen name => [.kwNetwork, .ident name]
  | .done => d.toNetworkTree.tokens
  | place => d.prior ++ d.itemTokens place

/-- A literal can follow inside of a number of lists. -/
def Open (d : Draft) (depth : Nat) : Prop :=
  d.lists.length = depth ∧ (∀ items ∈ d.lists, items.isOpen = true) ∧ ∃ items ∈ d.params, items.isOpen = true

/-- The draft is one for the place of the reader. -/
def Fits (d : Draft) : Place → Prop
  | .start | .networkName | .networkOpen _ => d = (NetworkTree.mk "" []).draft
  | .param _ | .paramEquals _ _ | .paramValue _ _ => d.Open 0
  | .listItem _ _ _ outer => d.Open (outer.length + 1)
  | .afterItem _ _ _ outer => ∃ inner rest, d.lists = inner :: rest ∧ inner.isOpen = false ∧
      { d with lists := rest }.Open outer.length
  | .afterValue _ => d.lists = [] ∧ ∃ items ∈ d.params, items.isOpen = false
  | .afterParams _ => d.lists = [] ∧ d.params.isSome
  | _ => d.lists = [] ∧ d.params = none

/-! ## The reader takes the tokens of its draft -/

lemma follows_endLiteral (r : Reading) (owner : Owner) (name : String) (h : d.Open lists.length) (tree : LiteralTree)
    (value : Literal) : (d.endLiteral name tree).Fits (r.endLiteral owner name value lists).place ∧
      (d.endLiteral name tree).taken (r.endLiteral owner name value lists).place =
        d.prior ++ d.literalTokens owner name ++ tree.tokens := by
  obtain ⟨hlength, hopen, items, hparams, hitems⟩ := h
  obtain ⟨_, params, dlists⟩ := d
  cases hparams
  match lists, dlists with
  | [], [] =>
    refine ⟨⟨rfl, items.push ⟨name, tree⟩, rfl, items.isOpen_push _⟩, ?_⟩
    simp [endLiteral, Reading.endLiteral, taken, prior, itemTokens, literalTokens, paramTokens,
      listTokens, ParamTree.tokens, Sequence.tokens_push hitems]
  | _ :: _, inner :: rest =>
    obtain ⟨hinner, hrest⟩ := forall_mem_cons.mp hopen
    refine ⟨⟨inner.push tree, rest, rfl, inner.isOpen_push tree, Nat.succ.inj hlength, hrest, items, rfl, hitems⟩, ?_⟩
    simp [endLiteral, Reading.endLiteral, goto, taken, prior, itemTokens, literalTokens,
      paramTokens, listTokens, Sequence.tokens_push hinner]

lemma follows_endList (r : Reading) (owner : Owner) (name : String) {inner : Sequence LiteralTree}
    {rest : List (Sequence LiteralTree)} (hlists : d.lists = inner :: rest) (h : { d with lists := rest }.Open lists.length)
    (value : Literal) : (d.endList name).Fits (r.endLiteral owner name value lists).place ∧
      (d.endList name).taken (r.endLiteral owner name value lists).place =
        d.prior ++ d.literalTokens owner name ++ [.rbracket] := by
  obtain ⟨hfits, htaken⟩ := follows_endLiteral r owner name h (.list inner) value
  simp only [endList, hlists]
  refine ⟨hfits, htaken.trans ?_⟩
  simp [prior, literalTokens, paramTokens, hlists, listTokens, LiteralTree.tokens_list]

lemma follows_startLiteral (lists : List (List Literal)) (h : d.Open lists.length)
    (hstep : r.literal? owner name lists t = some next) : (d.startLiteral name t).Fits next.place ∧
      (d.startLiteral name t).taken next.place = d.prior ++ d.literalTokens owner name ++ [t] := by
  rw [Reading.literal?] at hstep
  split at hstep
  · rename_i value hvalue
    obtain ⟨tree, htree, htokens⟩ : ∃ tree, scalarTree? t = some tree ∧ tree.tokens = [t] := by
      cases t <;> simp_all [scalarTree?, Reading.scalar?, LiteralTree.tokens]
    cases hstep
    simp only [startLiteral, htree, ← htokens]
    exact follows_endLiteral r owner name h tree value
  · split at hstep
    · rename_i hopen
      cases hstep
      cases hopen
      obtain ⟨hlength, hopen, hparams⟩ := h
      refine ⟨⟨congrArg Nat.succ hlength, forall_mem_cons.mpr ⟨rfl, hopen⟩, hparams⟩, ?_⟩
      simp [startLiteral, scalarTree?, goto, taken, prior, itemTokens, literalTokens, paramTokens,
        listTokens, Sequence.tokens]
    · cases hstep

/-- A token that the reader takes is the next token of the draft. -/
theorem follows_step (hstep : r.step t span = some next) (h : d.Fits r.place) :
    (d.take r.place t).Fits next.place ∧ (d.take r.place t).taken next.place = d.taken r.place ++ [t] := by
  unfold Reading.step at hstep
  cases hplace : r.place with
  | paramValue owner name =>
    rw [hplace] at h hstep
    exact follows_startLiteral [] h hstep
  | listItem owner name inner outer =>
    rw [hplace] at h hstep
    cases t with
    | rbracket =>
      cases hstep
      obtain ⟨hlength, hopen, hparams⟩ := h
      obtain ⟨last, rest, hlists⟩ := exists_cons_of_length_eq_add_one hlength
      rw [hlists] at hlength hopen
      exact follows_endList r owner name hlists ⟨Nat.succ.inj hlength, (forall_mem_cons.mp hopen).2, hparams⟩ _
    | _ => exact follows_startLiteral (inner :: outer) h hstep
  | afterItem owner name inner outer =>
    rw [hplace] at h hstep
    obtain ⟨last, rest, hlists, hlast, hlength, hopen, hparams⟩ := h
    cases t with
    | comma =>
      cases hstep
      refine ⟨⟨?_, ?_, hparams⟩, ?_⟩
      · simpa [take, hlists] using hlength
      · simpa [take, hlists, Sequence.isOpen_comma] using hopen
      · simp [take, hlists, goto, taken, prior, itemTokens, literalTokens, paramTokens, listTokens,
          Sequence.tokens_comma hlast]
    | rbracket =>
      cases hstep
      exact follows_endList r owner name hlists ⟨hlength, hopen, hparams⟩ _
    | _ => cases hstep
  | afterValue owner =>
    obtain ⟨hlists, items, hparams, hitems⟩ := hplace ▸ h
    cases t with
    | comma =>
      simp only [hplace, Option.some.injEq] at hstep
      subst hstep
      simp_all [goto, take, Fits, Open, taken, prior, itemTokens, paramTokens,
        Sequence.isOpen_comma, Sequence.tokens_comma]
    | _ =>
      rw [hplace] at hstep
      obtain ⟨hcloser, hnext⟩ := Option.ite_none_right_eq_some.mp hstep
      cases hnext
      simp_all [goto, take, Fits, taken, prior, itemTokens]
  | param owner =>
    obtain ⟨hlength, hopen, items, hparams, hitems⟩ := hplace ▸ h
    cases t with
    | ident name =>
      simp only [hplace, Option.some.injEq] at hstep
      subst hstep
      simp_all [goto, take, Fits, taken, prior, itemTokens]
    | _ =>
      rw [hplace] at hstep
      obtain ⟨hcloser, hnext⟩ := Option.ite_none_right_eq_some.mp hstep
      cases hnext
      simp_all [goto, take, Fits, taken, prior, itemTokens]
  | afterParams owner =>
    obtain ⟨hlists, hsome⟩ := hplace ▸ h
    obtain ⟨items, hparams⟩ := Option.isSome_iff_exists.mp hsome
    cases t <;> simp only [hplace, reduceCtorEq, Option.some.injEq] at hstep
    subst hstep
    cases owner <;>
      simp_all [Reading.endItem, take, endItem, NetworkTree.add, Fits, taken, prior, itemTokens,
        paramTokens, ItemTree.tokens, Owner.paramTokens]
  | _ =>
    cases t <;> simp only [hplace, reduceCtorEq, Option.some.injEq] at hstep <;> subst hstep <;>
      simp_all [goto, Reading.endItem, take, endItem, NetworkTree.add, Fits, Open, taken, prior,
        itemTokens, literalTokens, paramTokens, listTokens, ItemTree.tokens, Owner.tokens,
        Owner.paramTokens, Owner.opener, NetworkTree.tokens, Sequence.tokens, Sequence.isOpen]

end Draft

/-! ## The tokens of a tree -/

/-- The reader takes a token, and so does the draft. -/
def track (x : Reading × Draft) (token : Token × Span) : Option (Reading × Draft) :=
  (x.1.step token.1 token.2).map fun next => (next, x.2.take x.1.place token.1)

/-- The tokens lead from one state to another, wherever they stand in the text. -/
def Takes (x : Reading × Draft) (ts : List Token) (y : Reading × Draft) : Prop :=
  ∀ used : List (Token × Span), used.map (·.1) = ts → used.foldlM track x = some y

section Takes

variable {x y z : Reading × Draft} {d : Draft}

lemma takes_nil : Takes x [] x := by
  intro used hused
  rw [map_eq_nil_iff.mp hused]
  rfl

lemma takes_cons (h : ∀ span, track x (t, span) = some y) (h' : Takes y ts z) : Takes x (t :: ts) z := by
  intro used hused
  obtain ⟨⟨_, span⟩, rest, rfl, rfl, hrest⟩ := map_eq_cons_iff.mp hused
  rw [foldlM_cons, h span]
  exact h' rest hrest

lemma Takes.append (h : Takes x ts y) (h' : Takes y ts' z) : Takes x (ts ++ ts') z := by
  intro used hused
  obtain ⟨first, rest, rfl, hfirst, hrest⟩ := map_eq_append_iff.mp hused
  rw [foldlM_append, h first hfirst]
  exact h' rest hrest

lemma takes_token (h : ∀ span, track x (t, span) = some y) : Takes x [t] y := takes_cons h takes_nil

/-- The tokens of a separated list, from where an element can stand up to the token that closes
it. -/
lemma takes_sequence (opened inner closed : Sequence α → Reading × Draft) {closer : Token} (items : Sequence α)
    (helement : ∀ x ∈ items.toList, ∀ seq, Takes (opened seq) (f x) (inner (seq.push x)))
    (hcomma : ∀ seq, Takes (inner seq) [.comma] (opened seq.comma))
    (hopened : ∀ seq, Takes (opened seq) [closer] (closed seq)) (hinner : ∀ seq, Takes (inner seq) [closer] (closed seq)) :
    Takes (opened .empty) (items.tokens f ++ [closer]) (closed items) := by
  cases items with
  | empty => exact hopened .empty
  | elements first more trailing =>
    obtain ⟨hfirst, hrest⟩ := forall_mem_cons.mp helement
    have hmore (done : List α) : Takes (inner (.elements first done false)) (more.flatMap (.comma :: f ·))
        (inner (.elements first (done ++ more) false)) := by
      clear helement
      induction more generalizing done with
      | nil => simpa using takes_nil
      | cons x rest ih =>
        obtain ⟨hx, hrest⟩ := forall_mem_cons.mp hrest
        have hnext := ((hcomma (.elements first done false)).append (hx _)).append (ih hrest (done ++ [x]))
        simpa using hnext
    have hall := (hfirst .empty).append (hmore [])
    cases trailing with
    | false => simpa [Sequence.tokens, Sequence.tailTokens] using hall.append (hinner _)
    | true =>
      simpa [Sequence.tokens, Sequence.tailTokens, Sequence.comma] using hall.append ((hcomma _).append (hopened _))

/-- The place where a literal stands, inside of lists. -/
def literalPlace (owner : Owner) (name : String) : List (List Literal) → Place
  | [] => .paramValue owner name
  | inner :: outer => .listItem owner name inner outer

lemma takes_literal (owner : Owner) (name : String) (lists : List (List Literal))
    (tree : LiteralTree) : Takes (r.goto (literalPlace owner name lists), d) tree.tokens
      (r.endLiteral owner name tree.value lists, d.endLiteral name tree) := by
  induction tree using LiteralTree.induct generalizing lists r d with
  | bool b => cases b <;> cases lists <;> exact takes_token fun _ => rfl
  | int n | str s => cases lists <;> exact takes_token fun _ => rfl
  | list items ih =>
    let state (place : Owner → String → List Literal → List (List Literal) → Place) (seq : Sequence LiteralTree) :=
      (r.goto (place owner name (seq.toList.map LiteralTree.value).reverse lists), { d with lists := seq :: d.lists })
    rw [LiteralTree.tokens_list, LiteralTree.value_list]
    refine takes_cons (y := state .listItem .empty) (fun _ => by cases lists <;> rfl) ?_
    refine takes_sequence (state .listItem) (state .afterItem)
      (fun seq => (r.endLiteral owner name
        (.list (seq.toList.map LiteralTree.value)) lists, d.endLiteral name (.list seq)))
      items (fun x hx seq => ?_) (fun seq => takes_token fun _ => ?_) (fun seq => takes_token fun _ => ?_)
      fun seq => takes_token fun _ => ?_
    · have hx := ih x hx (r := r) (d := { d with lists := seq :: d.lists })
        ((seq.toList.map LiteralTree.value).reverse :: lists)
      simpa [state, Sequence.toList_push, literalPlace, Reading.endLiteral, Draft.endLiteral] using hx
    · simp [state, track, Reading.step, goto, Draft.take, Sequence.toList_comma]
    all_goals cases lists <;> simp [state, track, Reading.step, goto, Reading.endLiteral, Draft.take, Draft.endList]

lemma takes_params {tree : NetworkTree} (hr : r.params = []) (params : Sequence ParamTree) :
    Takes (r.goto (.param owner), ⟨tree, some .empty, []⟩) (params.tokens ParamTree.tokens ++ [owner.closer])
      ({ r with params := (ItemTree.mk owner (some params)).entries.reverse }.goto (.afterParams owner),
        ⟨tree, some params, []⟩) := by
  let state (place : Owner → Place) (seq : Sequence ParamTree) : Reading × Draft :=
    ({ r with params := (ItemTree.mk owner (some seq)).entries.reverse }.goto (place owner), ⟨tree, some seq, []⟩)
  have hstart : (r.goto (.param owner), ⟨tree, some .empty, []⟩) = state .param .empty := by
    simp [state, ItemTree.entries, Sequence.toList, goto, hr]
  rw [hstart]
  refine takes_sequence (state .param) (state .afterValue) (state .afterParams) params (fun x _ seq => ?_)
    (fun seq => takes_token fun _ => ?_) (fun seq => takes_token fun _ => ?_) fun seq => takes_token fun _ => ?_
  · refine takes_cons (y := state (.paramEquals · x.name) seq) (fun _ => rfl) ?_
    refine takes_cons (y := state (.paramValue · x.name) seq) (fun _ => rfl) ?_
    have hx := takes_literal (r := (state .param seq).1) (d := (state .param seq).2) owner x.name [] x.value
    simpa [state, ItemTree.entries, Sequence.toList_push, literalPlace, Reading.endLiteral,
      Draft.endLiteral, goto] using hx
  · simp [state, track, Reading.step, goto, Draft.take, ItemTree.entries, Sequence.toList_comma]
  · cases owner <;> rfl
  · cases owner <;> rfl

/-- The place after the first part of an item. -/
def afterHead : Owner → Place
  | .inst id cls => .afterClass id cls
  | .conn src srcPort dst dstPort => .afterTarget src srcPort dst dstPort

/-- The first part of an item, where the first token tells where the item starts. -/
lemma takes_head (d : Draft) : (owner : Owner) → ∃ t ts place, owner.tokens = t :: ts ∧
    (∀ r : Reading, r.place = .item → ∀ span, track (r, d) (t, span) =
      some ({ r with place := place, itemStart := span.start }, d)) ∧
    ∀ r : Reading, Takes (r.goto place, d) ts (r.goto (afterHead owner), d)
  | .inst id cls => by
    refine ⟨_, _, .instanceId, rfl, fun r hr span => ?_, fun r => ?_⟩
    · simp [track, Reading.step, hr, Draft.take]
    · refine takes_cons (y := (r.goto (.instanceColon id), d)) (fun _ => rfl) ?_
      exact takes_cons (y := (r.goto (.instanceClass id), d)) (fun _ => rfl) (takes_token fun _ => rfl)
  | .conn src srcPort dst dstPort => by
    refine ⟨_, _, .srcDot src, rfl, fun r hr span => ?_, fun r => ?_⟩
    · simp [track, Reading.step, hr, Draft.take]
    · refine takes_cons (y := (r.goto (.srcPort src), d)) (fun _ => rfl) ?_
      refine takes_cons (y := (r.goto (.arrow src srcPort), d)) (fun _ => rfl) ?_
      refine takes_cons (y := (r.goto (.dst src srcPort), d)) (fun _ => rfl) ?_
      refine takes_cons (y := (r.goto (.dstDot src srcPort dst), d)) (fun _ => rfl) ?_
      exact takes_cons (y := (r.goto (.dstPort src srcPort dst), d)) (fun _ => rfl) (takes_token fun _ => rfl)

/-- The rest of an item, where the last token tells where the item ends. -/
lemma takes_rest (tree : NetworkTree) (owner : Owner) (hr : r.params = []) (params : Option (Sequence ParamTree)) :
    ∃ place, Takes (r.goto (afterHead owner), tree.draft) (owner.paramTokens params)
        ({ r with params := (ItemTree.mk owner params).entries.reverse }.goto place, ⟨tree, params, []⟩) ∧
      ∀ (r : Reading) span, track (r.goto place, ⟨tree, params, []⟩) (.semi, span) =
        some (r.endItem owner span.stop, (tree.add ⟨owner, params⟩).draft) := by
  cases params with
  | none =>
    refine ⟨afterHead owner, ?_, fun r span => by cases owner <;> rfl⟩
    rw [ItemTree.entries, Option.map_none, Option.getD_none, map_nil, reverse_nil, ← hr]
    exact takes_nil
  | some params =>
    refine ⟨.afterParams owner, takes_cons (fun _ => ?_) (takes_params hr params), fun r span => by cases owner <;> rfl⟩
    cases owner <;> rfl

end Takes

/-! ## Items and descriptions -/

lemma covering_ends (first last : Token × Span) (used : List (Token × Span)) :
    covering (first :: (used ++ [last])) = some ⟨first.2.start, last.2.stop⟩ := by
  have hlast : (first :: (used ++ [last])).getLast? = some last := by rw [← cons_append, getLast?_concat]
  simp [covering, hlast]

/-- The reading after an item that covers a part of the text. -/
def Reading.addItem (r : Reading) (item : ItemTree) (span : Span) : Reading :=
  { r with itemStart := span.start, params := item.entries.reverse }.endItem item.head span.stop

lemma track_item (tree : NetworkTree) {item : ItemTree} (hplace : r.place = .item) (hparams : r.params = [])
    (hused : used.map (·.1) = item.tokens) : ∃ span, covering used = some span ∧ used.foldlM track (r, tree.draft) =
      some (r.addItem item span, (tree.add item).draft) := by
  obtain ⟨owner, params⟩ := item
  obtain ⟨t, ts, place, howner, hfirst, hhead⟩ := takes_head tree.draft owner
  have htokens : used.map (·.1) = t :: ((ts ++ owner.paramTokens params) ++ [.semi]) := by
    rw [hused, ItemTree.tokens, howner, List.append_assoc, cons_append]
  obtain ⟨⟨_, first⟩, _, rfl, rfl, hrest⟩ := map_eq_cons_iff.mp htokens
  obtain ⟨used, _, rfl, hmiddle, hlast⟩ := map_eq_append_iff.mp hrest
  obtain ⟨⟨_, last⟩, rfl, rfl⟩ := map_eq_singleton_iff.mp hlast
  obtain ⟨place', hrest, hsemi⟩ := takes_rest (r := { r with itemStart := first.start }) tree owner hparams params
  refine ⟨_, covering_ends _ _ _, ?_⟩
  rw [foldlM_cons, hfirst r hplace, Option.bind_eq_bind, Option.bind_some, foldlM_append]
  have hrun := (hhead { r with itemStart := first.start }).append hrest used hmiddle
  rw [goto] at hrun
  rw [hrun, Option.bind_eq_bind, Option.bind_some, foldlM_cons, hsemi]
  rfl

/-- The description after further items, given the tokens up to the end. -/
def Reading.declAfter (r : Reading) (items : List ItemTree) (tokens : List (Token × Span)) : NetworkDecl :=
  { name := r.name
    instances := r.instances.reverse ++ (placed items tokens).filterMap fun (item, span) => item.instance? span
    connections := r.connections.reverse ++ (placed items tokens).filterMap fun (item, span) => item.connection? span
    span := tokens.getLast?.map fun last => ⟨r.start, last.2.stop⟩ }

lemma declAfter_cons {item : ItemTree} {rest : List (Token × Span)} (items : List ItemTree)
    (hused : used.map (·.1) = item.tokens) (hspan : covering used = some span) (hrest : rest ≠ []) :
    r.declAfter (item :: items) (used ++ rest) = (r.addItem item span).declAfter items rest := by
  have hlength : item.tokens.length = used.length := by rw [← hused, length_map]
  have hlast : (used ++ rest).getLast? = rest.getLast? := by
    rw [getLast?_append, getLast?_eq_some_getLast hrest, Option.some_or]
  obtain ⟨_ | _, params⟩ := item <;>
    simp [Reading.declAfter, Reading.addItem, Reading.endItem, placed, hlength, hspan, hlast,
      ItemTree.instance?, ItemTree.connection?, Json.collectEntries_eq_lastValues]

/-- The items of a tree, up to the end of the description. -/
lemma track_items (tree : NetworkTree) (items : List ItemTree) (hplace : r.place = .item) (hparams : r.params = [])
    (hused : used.map (·.1) = items.flatMap ItemTree.tokens ++ [.rbrace]) : ∃ next, used.foldlM track (r, tree.draft) =
      some (next, NetworkTree.draft ⟨tree.name, tree.items ++ items⟩) ∧ next.finish? = some (r.declAfter items used) := by
  induction items generalizing r tree used with
  | nil =>
    obtain ⟨⟨_, span⟩, rfl, rfl⟩ := map_eq_singleton_iff.mp hused
    simp [track, Reading.step, hplace, Draft.take, Reading.finish?, Reading.declAfter, placed]
  | cons item items ih =>
    rw [flatMap_cons, List.append_assoc] at hused
    obtain ⟨used, rest, rfl, hitem, hrest⟩ := map_eq_append_iff.mp hused
    obtain ⟨span, hspan, hrun⟩ := track_item tree hplace hparams hitem
    obtain ⟨hplace', hparams'⟩ : (r.addItem item span).place = .item ∧ (r.addItem item span).params = [] := by
      obtain ⟨_ | _, _⟩ := item <;> exact ⟨rfl, rfl⟩
    obtain ⟨next, hnext, hfinish⟩ := ih (tree.add item) hplace' hparams' hrest
    refine ⟨next, ?_, ?_⟩
    · rw [foldlM_append, hrun, append_cons tree.items item items]
      exact hnext
    · rw [hfinish, declAfter_cons items hitem hspan]
      rintro rfl
      simp at hrest

/-- The tokens of a tree lead to what the tree denotes, and the draft is the tree. -/
theorem track_tokens (tree : NetworkTree) (h : tokens.map (·.1) = tree.tokens) :
    ∃ next, tokens.foldlM track ({}, (NetworkTree.mk "" []).draft) = some (next, tree.draft) ∧
      next.finish? = some (tree.decl tokens) := by
  obtain ⟨name, items⟩ := tree
  obtain ⟨⟨_, first⟩, _, rfl, rfl, hname⟩ := map_eq_cons_iff.mp h
  obtain ⟨second, _, rfl, hsecond, hopen⟩ := map_eq_cons_iff.mp hname
  obtain ⟨third, rest, rfl, hthird, hrest⟩ := map_eq_cons_iff.mp hopen
  obtain ⟨next, hnext, hfinish⟩ :=
    track_items (r := { place := .item, start := first.start, name := name }) ⟨name, []⟩ items rfl rfl hrest
  refine ⟨next, ?_, ?_⟩
  · simpa [track, Reading.step, hsecond, hthird, goto, Draft.take] using hnext
  · obtain ⟨used, _, rfl, -, hlast⟩ := map_eq_append_iff.mp hrest
    obtain ⟨last, rfl, -⟩ := map_eq_singleton_iff.mp hlast
    have hcovering := covering_ends (.kwNetwork, first) last (second :: third :: used)
    simp only [cons_append] at hcovering
    rw [hfinish]
    simp [Reading.declAfter, NetworkTree.decl, hcovering]

/-- A sentence has one derivation. -/
theorem NetworkTree.tokens_injective {tree tree' : NetworkTree} (h : tree.tokens = tree'.tokens) : tree = tree' := by
  have htokens : (tree.tokens.map fun t => (t, (⟨0, 0⟩ : Span))).map (·.1) = tree.tokens := by simp [Function.comp_def]
  obtain ⟨next, hnext, -⟩ := track_tokens tree htokens
  obtain ⟨next', hnext', -⟩ := track_tokens tree' (htokens.trans h)
  cases hnext.symm.trans hnext'
  rfl

namespace Reading

/-- Take all tokens, if each of them can stand where it does. -/
def advance (r : Reading) : List (Token × Span) → Option Reading :=
  foldlM (fun r x => r.step x.1 x.2) r

lemma run_eq_ok_iff (stop : Nat) : r.run stop tokens = .ok decl ↔
    ∃ next, r.advance tokens = some next ∧ next.finish? = some decl := by
  induction tokens generalizing r with
  | nil => cases h : r.finish? <;> simp [run, advance, h]
  | cons head rest ih => cases h : r.step head.1 head.2 <;> simp_all [run, advance]

lemma advance_eq (r : Reading) (d : Draft) (tokens : List (Token × Span)) :
    r.advance tokens = (tokens.foldlM track (r, d)).map (·.1) := by
  induction tokens generalizing r d with
  | nil => rfl
  | cons head rest ih =>
    cases h : r.step head.1 head.2 with
    | none => simp [advance, track, h]
    | some next => simpa [advance, track, h] using ih next (d.take r.place head.1)

end Reading

lemma Draft.follows_track {d d' : Draft} (hd : d.Fits r.place) (h : tokens.foldlM track (r, d) = some (next, d')) :
    d'.taken next.place = d.taken r.place ++ tokens.map (·.1) := by
  induction tokens generalizing r d with
  | nil =>
    cases h
    exact (append_nil _).symm
  | cons head rest ih =>
    rw [foldlM_cons, track] at h
    obtain ⟨_, hhead, hrest⟩ := Option.bind_eq_some_iff.mp h
    obtain ⟨after, hstep, rfl⟩ := Option.map_eq_some_iff.mp hhead
    obtain ⟨hfits, htaken⟩ := follows_step hstep hd
    rw [ih hfits hrest, htaken, map_cons, ← append_cons]

/-- The reader gives a description if the tokens are a sentence, and it is the one that the sentence
denotes. -/
theorem accepts_iff : (∃ next, ({} : Reading).advance tokens = some next ∧ next.finish? = some decl) ↔
    ∃ tree : NetworkTree, tree.tokens = tokens.map (·.1) ∧ decl = tree.decl tokens := by
  rw [Reading.advance_eq {} (NetworkTree.mk "" []).draft]
  constructor
  · rintro ⟨_, hnext, hfinish⟩
    obtain ⟨⟨next, d⟩, hrun, rfl⟩ := Option.map_eq_some_iff.mp hnext
    have htaken := Draft.follows_track (r := {}) rfl hrun
    have hdone : next.place = .done := by
      cases h : next.place <;> simp [Reading.finish?, h] at hfinish ⊢
    rw [hdone] at htaken
    obtain ⟨next', hrun', hfinish'⟩ := track_tokens d.toNetworkTree htaken.symm
    obtain rfl : next = next' := congrArg Prod.fst (Option.some.inj (hrun.symm.trans hrun'))
    exact ⟨_, htaken, Option.some.inj (hfinish.symm.trans hfinish')⟩
  · rintro ⟨tree, htree, rfl⟩
    obtain ⟨next, hrun, hfinish⟩ := track_tokens tree htree.symm
    exact ⟨next, by rw [hrun]; rfl, hfinish⟩

end ActorNet.Grammar

namespace ActorNet

/-! ## Texts of network descriptions -/

open Grammar Lexer

lemma parse_eq_some_iff {source : String} {decl : NetworkDecl} : (parse source).errors = [] ∧
    (parse source).network = some decl ↔ (lex source).errors = [] ∧ ∃ tree : NetworkTree,
        tree.tokens = (lex source).tokens.map (·.1) ∧ decl = tree.decl (lex source).tokens := by
  rw [← accepts_iff, ← Reading.run_eq_ok_iff source.utf8ByteSize, parse]
  cases ({} : Reading).run source.utf8ByteSize (lex source).tokens <;> simp

/-- A text gives a description without errors if it has no bad characters and its tokens are a
sentence of the grammar. The derivation is unique, the description is what it denotes, and its
identifiers are spelled as in the text. -/
theorem parse_accepts_sentences (source : String) :
    (∀ decl, (parse source).errors = [] ∧ (parse source).network = some decl ↔
      (lex source).errors = [] ∧ ∃ tree : NetworkTree,
        tree.tokens = (lex source).tokens.map (·.1) ∧ decl = tree.decl (lex source).tokens) ∧
    (∀ tree other : NetworkTree, tree.tokens = other.tokens → tree = other) ∧
    ∀ name span, (.ident name, span) ∈ (lex source).tokens → ∃ before after,
      source.toList = before ++ name.toList ++ after ∧
        span = ⟨byteLength before, byteLength (before ++ name.toList)⟩ := by
  refine ⟨fun decl => parse_eq_some_iff, fun tree other => NetworkTree.tokens_injective, fun name span h => ?_⟩
  obtain ⟨parts, hcut, htokens, -⟩ := exists_cut_lex source
  rw [htokens] at h
  obtain ⟨⟨_ | t | _, text, _⟩, hmem, heq⟩ := List.mem_filterMap.mp h <;> cases heq
  obtain ⟨before, after, hsource, -, ⟨rfl, -⟩, hspan⟩ := hcut.holds _ hmem
  exact ⟨before, after, hsource, by simpa using hspan⟩

end ActorNet
