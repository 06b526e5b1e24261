import NodeGraph.Json.Value

/-! Putting the lines of a TOML text together into tables. -/
namespace NodeGraph.Toml

/-- How a table has come into being, which decides who may add to it. -/
inductive Origin where
  /-- By its own header, or in braces. -/
  | header
  /-- On the way to the table of a longer header. -/
  | passage
  /-- On the way of a dotted key. -/
  | dotted
  deriving DecidableEq, Repr

inductive Entry where
  | value (v : Json)
  | table (origin : Origin) (entries : List (String × Entry))
  /-- The tables of one array, oldest first. -/
  | tables (items : List (List (String × Entry)))

abbrev Entries := Keyed Entry

/-- Changes the last item of a list that has one. -/
def onLast {α : Type} (f : α → Option α) (items : List α) : Option (List α) :=
  match items.getLast? with
  | some item => (f item).map fun item => items.dropLast ++ [item]
  | none => none

/-- Changes the table that a path leads to. Tables that are missing on the way come into being
with the origin `onTheWay`. Of an array of tables the last one is meant. A dotted key does not
lead through a table that has its own header. -/
def changeAt (onTheWay : Origin) (change : Origin → Entries → Option Entries) :
    List String → Origin → Entries → Option Entries
  | [], origin, entries => change origin entries
  | key :: path, _, entries =>
    match entries.get? key with
    | none =>
      (changeAt onTheWay change path onTheWay []).map fun inner =>
        entries.insert key (.table onTheWay inner)
    | some (.value _) => none
    | some (.table origin inner) =>
      if onTheWay = .dotted ∧ origin = .header then none
      else
        (changeAt onTheWay change path origin inner).map fun inner =>
          entries.insert key (.table origin inner)
    | some (.tables items) =>
      (onLast (changeAt onTheWay change path .header) items).map fun items =>
        entries.insert key (.tables items)

/-- Adds a value under a new key. A dotted key adds to tables of dotted keys only, a plain key
only to others. -/
def place (isDotted : Bool) (key : String) (v : Json) (origin : Origin) (entries : Entries) :
    Option Entries :=
  if isDotted = decide (origin = .dotted) ∧ (entries.get? key).isNone then
    some (entries.insert key (.value v))
  else none

/-- Adds the value of a key to a table with its own header. The key is the last part of `path`. -/
def assign (path : List String) (v : Json) (entries : Entries) : Option Entries :=
  match path.getLast? with
  | some key =>
    changeAt .dotted (place (path.dropLast ≠ []) key v) path.dropLast .header entries
  | none => none

/-- Gives a table its header, which it must not have already. -/
def declare (key : String) (entries : Entries) : Option Entries :=
  match entries.get? key with
  | none => some (entries.insert key (.table .header []))
  | some (.table .passage inner) => some (entries.insert key (.table .header inner))
  | some _ => none

/-- Adds a table to an array of tables. -/
def append (key : String) (entries : Entries) : Option Entries :=
  match entries.get? key with
  | none => some (entries.insert key (.tables [[]]))
  | some (.tables items) => some (entries.insert key (.tables (items ++ [[]])))
  | some _ => none

/-- A line that says something. -/
inductive Statement where
  | assign (path : List String) (v : Json)
  /-- The header of a table. -/
  | declare (path : List String)
  /-- The header of one more table of an array. -/
  | append (path : List String)

/-- Opens the table of a header. -/
def openTable (step : String → Entries → Option Entries) (path : List String)
    (entries : Entries) : Option Entries :=
  match path.getLast? with
  | some key => changeAt .passage (fun _ => step key) path.dropLast .header entries
  | none => none

/-- What a statement adds to the tables; `current` is the path of the last header. -/
def Statement.run (state : List String × Entries) :
    Statement → Option (List String × Entries)
  | assign path v =>
    (changeAt .passage (fun _ => Toml.assign path v) state.1 .header state.2).map (state.1, ·)
  | declare path => (openTable Toml.declare path state.2).map (path, ·)
  | append path => (openTable Toml.append path state.2).map (path, ·)

mutual

def Entry.toJson : Entry → Json
  | .value v => v
  | .table _ entries => .obj (fieldsToJson entries)
  | .tables items => .arr (itemsToJson items)

def fieldsToJson : List (String × Entry) → List (String × Json)
  | [] => []
  | (key, entry) :: rest => (key, entry.toJson) :: fieldsToJson rest

def itemsToJson : List (List (String × Entry)) → List Json
  | [] => []
  | entries :: rest => .obj (fieldsToJson entries) :: itemsToJson rest

end

/-- The table that the statements of a text make, as an object. -/
def assemble (statements : List Statement) : Option Json :=
  (statements.foldlM Statement.run ([], [])).map fun state => .obj (fieldsToJson state.2)

/-- The table that the entries between braces make. -/
def inlineTable (entries : List (List String × Json)) : Option Json :=
  (entries.foldlM (fun table entry => assign entry.1 entry.2 table) []).map fun table =>
    .obj (fieldsToJson table)

end NodeGraph.Toml
