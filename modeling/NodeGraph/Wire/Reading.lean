import NodeGraph.Json.Value

/-! Reading records and variants from JSON values. -/
namespace NodeGraph.Wire

open Json

/-- Reads a value; `none` if it has another shape. -/
abbrev Reading (α : Type) := Json → Option α

def text : Reading String := string?

def flag : Reading Bool
  | .bool b => some b
  | _ => none

/-- A signed 64-bit integer. -/
def int64 : Reading Int
  | int i => if Int64.minValue.toInt ≤ i ∧ i ≤ Int64.maxValue.toInt then some i else none
  | _ => none

/-- An unsigned 64-bit integer. -/
def nat64 : Reading Nat
  | int i => if 0 ≤ i ∧ i < UInt64.size then some i.toNat else none
  | _ => none

def list {α : Type} (item : Reading α) : Reading (List α)
  | arr items => items.mapM item
  | _ => none

/-- Null reads as `none`. -/
def optional {α : Type} (item : Reading α) : Reading (Option α)
  | null => some none
  | v => (item v).map some

/-- The fields of a record by name: an object, or an array that lists them in order. -/
def record (names : List String) : Reading (List (String × Json))
  | obj fields => some fields
  | arr items => if items.length = names.length then some (names.zip items) else none
  | _ => none

/-- A field that must be there. -/
def field {α : Type} (fields : List (String × Json)) (name : String) (item : Reading α) :
    Option α :=
  (Keyed.get? name fields).bind item

/-- A field that reads as `none` where it is missing. -/
def optionalField {α : Type} (fields : List (String × Json)) (name : String)
    (item : Reading α) : Option (Option α) :=
  match Keyed.get? name fields with
  | none => some none
  | some v => optional item v

/-- The name and payload of a variant: a bare name, or an object with one field. -/
def variant : Reading (String × Option Json)
  | str name => some (name, none)
  | obj [(name, payload)] => some (name, some payload)
  | _ => none

/-- A variant without payload, found among `all` by its name. -/
def choice {α : Type} (all : List α) (nameOf : α → String) : Reading α := fun v => do
  let (name, payload) ← variant v
  match payload with
  | none | some null => all.find? (nameOf · = name)
  | some _ => none

/-- The value of an option, null where there is none. -/
def orNull {α : Type} (f : α → Json) : Option α → Json
  | none => null
  | some a => f a

def texts (items : List String) : Json :=
  arr (items.map str)

end NodeGraph.Wire
