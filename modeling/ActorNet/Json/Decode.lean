import ActorNet.Json.Basic
import ActorNet.Text

/-!
# Decoding JSON values

The conventions shared by all documents:

* a record is an object with named fields, or an array of its field values in declaration order;
  unknown fields are skipped, a field given twice is refused;
* a tagged value is a one-field object whose name is the tag, or just the tag as a string if it
  carries nothing;
* a mapping is an object in which the last value of a repeated name counts, at the position of the
  first;
* integers are refused outside the range of their field.
-/

namespace ActorNet.Json

/-! ## Scalars and lists -/

def asBool? : Json → Option Bool
  | .bool b => some b
  | _ => none

def asString? : Json → Option String
  | .str s => some s
  | _ => none

def asNat? (limit : Nat) : Json → Option Nat
  | .int n => if 0 ≤ n ∧ n ≤ limit then some n.toNat else none
  | _ => none

def asWord32? : Json → Option Nat :=
  asNat? Text.word32Max

def asInt64? : Json → Option Int64
  | .int n => if -(Text.int64Max + 1) ≤ n ∧ n ≤ Text.int64Max then some (Int64.ofInt n) else none
  | _ => none

def listOf? {α : Type} (decode : Json → Option α) : Json → Option (List α)
  | .arr elems => elems.mapM decode
  | _ => none

def optionOf? {α : Type} (decode : Json → Option α) : Json → Option (Option α)
  | .null => some none
  | j => (decode j).map some

/-! ## Mappings -/

/-- Set the value of a name: in place if the name is there, else at the end. -/
def setEntry {α : Type} (entries : List (String × α)) (name : String) (value : α) : List (String × α) :=
  match entries with
  | [] => [(name, value)]
  | (n, v) :: rest => if n = name then (n, value) :: rest else (n, v) :: setEntry rest name value

/-- Collect entries in order; a repeated name keeps its first position and takes the last value. -/
def collectEntries {α : Type} (entries : List (String × α)) : List (String × α) :=
  entries.foldl (fun seen entry => setEntry seen entry.1 entry.2) []

def mapOf? {α : Type} (decode : Json → Option α) : Json → Option (List (String × α))
  | .obj fields => (fields.mapM fun (field : String × Json) => (decode field.2).map (field.1, ·)).map collectEntries
  | _ => none

/-! ## Records -/

/-- The known fields of a record found in a document. -/
structure Record where
  fields : List (String × Json)
  /-- The record was written as a plain list of values. -/
  positional : Bool

def record? (names : List String) : Json → Option Record
  | .obj fields =>
    let known := fields.filter fun field => names.contains field.1
    if (known.map (·.1)).Nodup then some ⟨known, false⟩ else none
  | .arr values => if values.length ≤ names.length then some ⟨names.zip values, true⟩ else none
  | _ => none

namespace Record

def required? {α : Type} (r : Record) (name : String) (decode : Json → Option α) : Option α :=
  (r.fields.lookup name).bind decode

def defaulting? {α : Type} (r : Record) (name : String) (default : α) (decode : Json → Option α) : Option α :=
  match r.fields.lookup name with
  | some j => decode j
  | none => some default

/-- A field that may be absent or `null`. In a plain list of values it has to be given. -/
def optional? {α : Type} (r : Record) (name : String) (decode : Json → Option α) : Option (Option α) :=
  match r.fields.lookup name with
  | some j => optionOf? decode j
  | none => if r.positional then none else some none

end Record

/-! ## Tagged values -/

def tagged? : Json → Option (String × Option Json)
  | .str tag => some (tag, none)
  | .obj [(tag, value)] => some (tag, some value)
  | _ => none

def bareTag? (j : Json) : Option String :=
  match tagged? j with
  | some (tag, none) => some tag
  | some (tag, some .null) => some tag
  | _ => none

/-- The tag of a value that carries something, and what it carries. -/
def payload? (j : Json) : Option (String × Json) :=
  match tagged? j with
  | some (tag, some value) => some (tag, value)
  | _ => none

/-! ## Nesting -/

mutual

def height : Json → Nat
  | .arr elems => elemsHeight elems + 1
  | .obj fields => fieldsHeight fields + 1
  | _ => 0

def elemsHeight : List Json → Nat
  | [] => 0
  | j :: rest => max j.height (elemsHeight rest)

def fieldsHeight : List (String × Json) → Nat
  | [] => 0
  | (_, j) :: rest => max j.height (fieldsHeight rest)

end

end ActorNet.Json
