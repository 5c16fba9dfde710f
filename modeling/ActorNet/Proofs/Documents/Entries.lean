import ActorNet.Json.Decode
import ActorNet.Proofs.Lookup
import Mathlib.Data.List.Induction

/-!
# Entries of mappings

`collectEntries` works through entries from the left and changes what it has. What comes out is said
at once by `lastValues` (`collectEntries_eq_lastValues`): every name once, where it occurs first,
with the value it has last.
-/

namespace ActorNet.Json

open List

variable {α : Type} {entries : List (String × α)}

def lastValues (entries : List (String × α)) : List (String × α) :=
  (entries.map (·.1)).eraseDups.filterMap fun name => (entries.reverse.lookup name).map (name, ·)

/-! ## One entry -/

lemma lookup_setEntry (entries : List (String × α)) (name : String) (value : α) (x : String) :
    (setEntry entries name value).lookup x = if x = name then some value else entries.lookup x := by
  induction entries with
  | nil | cons => grind [setEntry]

lemma names_setEntry (entries : List (String × α)) (name : String) (value : α) :
    (setEntry entries name value).map (·.1) =
      if name ∈ entries.map (·.1) then entries.map (·.1) else entries.map (·.1) ++ [name] := by
  induction entries with
  | nil => simp [setEntry]
  | cons e rest ih => grind [setEntry]

lemma setEntry_of_not_mem {name : String} {value : α} (h : ∀ e ∈ entries, e.1 ≠ name) :
    setEntry entries name value = entries ++ [(name, value)] := by
  induction entries with
  | nil => rfl
  | cons e rest ih =>
    obtain ⟨hne, hrest⟩ := forall_mem_cons.mp h
    rw [setEntry, if_neg hne, ih hrest, cons_append]

/-! ## All entries -/

lemma collectEntries_append (entries : List (String × α)) (e : String × α) :
    collectEntries (entries ++ [e]) = setEntry (collectEntries entries) e.1 e.2 := by
  simp [collectEntries]

lemma lookup_collectEntries (entries : List (String × α)) (x : String) :
    (collectEntries entries).lookup x = entries.reverse.lookup x := by
  induction entries using List.reverseRecOn with
  | nil => rfl
  | append_singleton entries e ih =>
    rw [collectEntries_append, lookup_setEntry, ih, reverse_concat, List.lookup_cons]
    grind

lemma names_collectEntries (entries : List (String × α)) :
    (collectEntries entries).map (·.1) = (entries.map (·.1)).eraseDups := by
  induction entries using List.reverseRecOn with
  | nil => rfl
  | append_singleton entries e ih =>
    rw [collectEntries_append, names_setEntry, ih, map_append, eraseDups_append]
    by_cases h : e.1 ∈ entries.map (·.1)
    · simp_all [List.removeAll]
    · simp_all [List.removeAll, eraseDups_cons]

lemma nodup_setEntry {name : String} {value : α} (h : (entries.map (·.1)).Nodup) :
    ((setEntry entries name value).map (·.1)).Nodup := by
  rw [names_setEntry]
  grind [nodup_append]

lemma nodup_collectEntries (entries : List (String × α)) : ((collectEntries entries).map (·.1)).Nodup := by
  induction entries using List.reverseRecOn with
  | nil => exact nodup_nil
  | append_singleton entries e ih =>
    rw [collectEntries_append]
    exact nodup_setEntry ih

lemma collectEntries_of_nodup (h : (entries.map (·.1)).Nodup) : collectEntries entries = entries := by
  induction entries using List.reverseRecOn with
  | nil => rfl
  | append_singleton entries e ih =>
    rw [map_append, nodup_append] at h
    rw [collectEntries_append, ih h.1, setEntry_of_not_mem]
    simpa using h.2.2

lemma filterMap_lookup (h : (entries.map (·.1)).Nodup) :
    (entries.map (·.1)).filterMap (fun name => (entries.lookup name).map (name, ·)) = entries := by
  rw [filterMap_map]
  calc entries.filterMap (fun e => (entries.lookup e.1).map (e.1, ·))
      = entries.filterMap some := filterMap_congr fun e he => by rw [lookup_of_mem h he]; rfl
    _ = entries := filterMap_some

lemma collectEntries_eq_lastValues (entries : List (String × α)) : collectEntries entries = lastValues entries := by
  rw [lastValues, ← names_collectEntries, ← filterMap_lookup (nodup_collectEntries entries)]
  simp only [← lookup_collectEntries, filterMap_lookup (nodup_collectEntries entries)]

end ActorNet.Json
