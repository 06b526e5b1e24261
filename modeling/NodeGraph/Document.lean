import NodeGraph.Fault
import NodeGraph.Json.Printer
import NodeGraph.Json.Reader

/-! Documents: what collaborators write and the graph is derived from. -/
namespace NodeGraph

/-- What a document is about. One public id may have one document of each type. -/
inductive DocumentType where
  | editor
  | space
  | graph
  | methodGraph
  deriving DecidableEq, Repr

namespace DocumentType

def name : DocumentType → String
  | editor => "EDITOR"
  | space => "SPACE"
  | graph => "GRAPH"
  | methodGraph => "METHOD_GRAPH"

def all : List DocumentType :=
  [editor, space, graph, methodGraph]

def ofName (name : String) : Except Fault DocumentType :=
  match all.find? (·.name = name) with
  | some t => .ok t
  | none => .error (.unknownDocumentType name)

theorem ofName_name (t : DocumentType) : ofName t.name = .ok t := by
  cases t <;> rfl

end DocumentType

/-- The value of an optional JSON text. -/
def decodePayload : Option String → Except Fault (Option Json)
  | none => .ok none
  | some text =>
    match Json.parse text with
    | some v => .ok (some v)
    | none => .error .malformedJson

/-- A document with its value decoded. -/
structure Document where
  id : Int
  publicId : String
  type : DocumentType
  data : List UInt8
  json : Option Json
  createdAt : Int
  updatedAt : Int

/-- A document as stored: any text may stand in the type and the JSON column. -/
structure DocumentRow where
  id : Int
  publicId : String
  type : String
  data : List UInt8
  json : Option String
  createdAt : Int
  updatedAt : Int
  deriving DecidableEq, Repr

def DocumentRow.decode (row : DocumentRow) : Except Fault Document := do
  let type ← DocumentType.ofName row.type
  let json ← decodePayload row.json
  return { row with type, json }

/-- An immutable copy of a document's data, with the hash of its JSON at that time. -/
structure Version where
  id : Int
  publicId : String
  type : String
  documentId : Int
  fingerprint : String
  data : List UInt8
  createdAt : Int
  deriving DecidableEq, Repr

end NodeGraph
