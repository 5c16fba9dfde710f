import ActorNet.Json.Decode

/-!
# Token patterns

A pattern says how many tokens an action takes from or puts on each port. Ports are kept in
ascending order, each once, so patterns are equal exactly when they ask for the same.
-/

namespace ActorNet

/-- Token counts by port. -/
structure Pattern where
  entries : List (String × Nat)
  sorted : entries.Pairwise (fun a b => a.1 < b.1)

namespace Pattern

instance : DecidableEq Pattern := fun p q =>
  if h : p.entries = q.entries then
    .isTrue (by cases p; cases q; simp_all)
  else .isFalse (fun e => h (e ▸ rfl))

def empty : Pattern :=
  ⟨[], List.Pairwise.nil⟩

instance : Inhabited Pattern := ⟨empty⟩

/-- Set the count of a port in an ascending list: in place if the port is there, else where it
belongs. -/
def insert (port : String) (count : Nat) : List (String × Nat) → List (String × Nat)
  | [] => [(port, count)]
  | (p, n) :: rest =>
    if port < p then (port, count) :: (p, n) :: rest
    else if port = p then (port, count) :: rest
    else (p, n) :: insert port count rest

theorem lt_of_not_lt_of_ne {a b : String} (h : ¬ a < b) (ne : a ≠ b) : b < a :=
  Decidable.byContradiction fun h' => ne (String.le_antisymm (String.not_lt.mp h') (String.not_lt.mp h))

theorem mem_insert {port : String} {count : Nat} {l : List (String × Nat)} {e : String × Nat}
    (h : e ∈ insert port count l) : e.1 = port ∨ e ∈ l := by
  induction l with
  | nil =>
    simp only [insert, List.mem_singleton] at h
    exact .inl (h ▸ rfl)
  | cons head rest ih =>
    obtain ⟨p, n⟩ := head
    simp only [insert] at h
    split at h
    · rcases List.mem_cons.mp h with rfl | h
      · exact .inl rfl
      · exact .inr h
    · split at h
      · rcases List.mem_cons.mp h with rfl | h
        · exact .inl rfl
        · exact .inr (List.mem_cons_of_mem _ h)
      · rcases List.mem_cons.mp h with rfl | h
        · exact .inr List.mem_cons_self
        · rcases ih h with h | h
          · exact .inl h
          · exact .inr (List.mem_cons_of_mem _ h)

theorem sorted_insert (port : String) (count : Nat) {l : List (String × Nat)}
    (h : l.Pairwise (fun a b => a.1 < b.1)) : (insert port count l).Pairwise (fun a b => a.1 < b.1) := by
  induction l with
  | nil => simp [insert]
  | cons head rest ih =>
    obtain ⟨p, n⟩ := head
    have hrest := List.pairwise_cons.mp h
    simp only [insert]
    split
    · rename_i lt
      refine List.pairwise_cons.mpr ⟨fun e he => ?_, h⟩
      rcases List.mem_cons.mp he with rfl | he
      · exact lt
      · exact String.lt_trans lt (hrest.1 e he)
    · split
      · rename_i eq
        subst eq
        exact List.pairwise_cons.mpr ⟨hrest.1, hrest.2⟩
      · rename_i nlt ne
        refine List.pairwise_cons.mpr ⟨fun e he => ?_, ih hrest.2⟩
        rcases mem_insert he with eq | he
        · exact eq ▸ lt_of_not_lt_of_ne nlt ne
        · exact hrest.1 e he

def set (p : Pattern) (port : String) (count : Nat) : Pattern :=
  ⟨insert port count p.entries, sorted_insert port count p.sorted⟩

def get (p : Pattern) (port : String) : Nat :=
  (p.entries.lookup port).getD 0

def ofList (entries : List (String × Nat)) : Pattern :=
  entries.foldl (fun p entry => p.set entry.1 entry.2) empty

def isEmpty (p : Pattern) : Bool :=
  p.entries.isEmpty

def max (p q : Pattern) : Pattern :=
  q.entries.foldl (fun p entry => p.set entry.1 (Nat.max (p.get entry.1) entry.2)) p

def maxOf (ps : List Pattern) : Pattern :=
  ps.foldl max empty

def text (p : Pattern) : String :=
  "\x7b" ++ String.intercalate ", " (p.entries.map fun entry => entry.1 ++ ": " ++ toString entry.2) ++ "\x7d"

def toJson (p : Pattern) : Json :=
  .obj (p.entries.map fun entry => (entry.1, .int entry.2))

def ofJson? (j : Json) : Option Pattern :=
  (Json.mapOf? Json.asWord32? j).map ofList

end Pattern

end ActorNet
