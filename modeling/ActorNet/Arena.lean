/-!
# Slot tables

A table of numbered slots. A slot is filled when it is made and may be emptied later; its number is
never given to another object. `Arena.get?` is the view through which tables are talked about.
-/

namespace ActorNet

/-- A table of slots. -/
structure Arena (α : Type) where
  slots : Array (Option α) := #[]
deriving Inhabited

namespace Arena

variable {α : Type}

def size (a : Arena α) : Nat :=
  a.slots.size

/-- The object in a slot; none if the slot is empty or there is no such slot. -/
def get? (a : Arena α) (i : Nat) : Option α :=
  a.slots[i]?.join

/-- Fill a new slot; its number is the size of the table. -/
def push (a : Arena α) (x : α) : Arena α :=
  ⟨a.slots.push (some x)⟩

def erase (a : Arena α) (i : Nat) : Arena α :=
  ⟨a.slots.setIfInBounds i none⟩

def modify (a : Arena α) (i : Nat) (f : α → α) : Arena α :=
  ⟨a.slots.modify i (Option.map f)⟩

def map (a : Arena α) (f : α → α) : Arena α :=
  ⟨a.slots.map (Option.map f)⟩

/-- The objects with the numbers of their slots, in order. -/
def entries (a : Arena α) : List (Nat × α) :=
  a.slots.toList.zipIdx.filterMap fun (slot, i) => slot.map (i, ·)

def values (a : Arena α) : List α :=
  a.slots.toList.filterMap id

def ofList (slots : List (Option α)) : Arena α :=
  ⟨slots.toArray⟩

def full (elems : List α) : Arena α :=
  ofList (elems.map some)

/-! ## The view of each operation -/

@[simp] theorem size_push (a : Arena α) (x : α) : (a.push x).size = a.size + 1 := by
  simp [push, size]

@[simp] theorem size_erase (a : Arena α) (i : Nat) : (a.erase i).size = a.size := by
  simp [erase, size]

@[simp] theorem size_modify (a : Arena α) (i : Nat) (f : α → α) : (a.modify i f).size = a.size := by
  simp [modify, size]

@[simp] theorem size_map (a : Arena α) (f : α → α) : (a.map f).size = a.size := by
  simp [map, size]

theorem get?_push (a : Arena α) (x : α) (i : Nat) :
    (a.push x).get? i = if i = a.size then some x else a.get? i := by
  by_cases h : i = a.slots.size <;> simp [push, get?, size, Array.getElem?_push, h]

theorem get?_erase (a : Arena α) (i j : Nat) :
    (a.erase i).get? j = if i = j then none else a.get? j := by
  simp only [erase, get?, Array.getElem?_setIfInBounds]
  split
  · split <;> rfl
  · rfl

theorem get?_modify (a : Arena α) (i : Nat) (f : α → α) (j : Nat) :
    (a.modify i f).get? j = if i = j then (a.get? j).map f else a.get? j := by
  simp only [modify, get?, Array.getElem?_modify]
  split
  · cases a.slots[j]? <;> rfl
  · rfl

theorem modify_push (a : Arena α) (x : α) (f : α → α) : (a.push x).modify a.size f = a.push (f x) := by
  simp only [push, modify, size, mk.injEq]
  refine Array.ext_getElem? fun i => ?_
  rw [Array.getElem?_modify, Array.getElem?_push, Array.getElem?_push]
  by_cases h : i = a.slots.size
  · simp [h]
  · rw [if_neg h, if_neg h, if_neg (Ne.symm h)]

theorem get?_map (a : Arena α) (f : α → α) (i : Nat) : (a.map f).get? i = (a.get? i).map f := by
  simp only [map, get?, Array.getElem?_map]
  cases a.slots[i]? <;> rfl

theorem get?_full (l : List α) (i : Nat) : (full l).get? i = l[i]? := by
  simp only [full, ofList, get?, List.getElem?_toArray, List.getElem?_map]
  cases l[i]? <;> rfl

theorem mem_values {a : Arena α} {i : Nat} {x : α} (h : a.get? i = some x) : x ∈ a.values := by
  have hslot : a.slots[i]? = some (some x) := Option.join_eq_some_iff.mp h
  exact List.mem_filterMap.mpr ⟨some x, Array.mem_toList_iff.mpr (Array.mem_of_getElem? hslot), rfl⟩

theorem get?_eq_none_of_size_le (a : Arena α) {i : Nat} (h : a.size ≤ i) : a.get? i = none := by
  have : a.slots[i]? = none := Array.getElem?_eq_none h
  simp [get?, this]

theorem lt_size_of_get? {a : Arena α} {i : Nat} {x : α} (h : a.get? i = some x) : i < a.size := by
  refine Nat.lt_of_not_le fun hle => ?_
  rw [get?_eq_none_of_size_le a hle] at h
  cases h

end Arena

end ActorNet
