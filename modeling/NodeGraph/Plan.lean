import NodeGraph.Event
import NodeGraph.Node

/-! Plans: the graph mutation that an event asks for. -/
namespace NodeGraph

/-- Why an event asks for no mutation. -/
inductive Inaction where
  | deleted
  | missingPayload
  deriving DecidableEq, Repr

def Inaction.name : Inaction → String
  | deleted => "Deleted"
  | missingPayload => "MissingPayload"

def Inaction.all : List Inaction :=
  [.deleted, .missingPayload]

inductive Plan where
  /-- Replace the content of a node. -/
  | editor (publicId : String) (content : Json)
  /-- Make the titled nodes the members of a space. -/
  | space (publicId : String) (titles : Keyed String)
  /-- Add nodes below a node. -/
  | graph (publicId : String) (type : DocumentType) (kind : NodeKind) (children : List String)
  | ignore (reason : Inaction)

namespace Plan

def titleOf (entry : Json) : String :=
  ((entry.field? "title").bind Json.string?).getD ""

/-- The titles under `nodes`, by node; a missing title is empty. -/
def titlesIn (data : Json) : Keyed String :=
  match (data.field? "nodes").bind Json.fields? with
  | none => []
  | some nodes => nodes.map fun (id, entry) => (id, titleOf entry)

/-- The node that an item of a list of children names. -/
def childOf : Json → Option String
  | .str id => some id
  | .obj fields => (Keyed.get? "id" fields).bind Json.string?
  | _ => none

/-- The children under `nodes`, in payload order: the keys of an object, or the nodes named by the
items of an array. -/
def childrenIn (data : Option Json) : List String :=
  match data.bind (·.field? "nodes") with
  | some (.obj nodes) => nodes.map (·.1)
  | some (.arr items) => items.filterMap childOf
  | _ => []

def graphKind : DocumentType → NodeKind
  | .methodGraph => .method
  | _ => .default

/-- Deletions are ignored; the other events follow the type of their document. -/
def ofEvent (e : Event) : Plan :=
  match e.action with
  | .delete => .ignore .deleted
  | _ =>
    match e.type with
    | .editor => .editor e.publicId (e.newData.getD .null)
    | .space =>
      match e.newData with
      | some data => .space e.publicId (titlesIn data)
      | none => .ignore .missingPayload
    | type => .graph e.publicId type (graphKind type) (childrenIn e.newData)

def describe : Plan → String
  | editor publicId _ => "Editor(" ++ publicId ++ ")"
  | space publicId titles =>
    "Space(" ++ publicId ++ ", " ++ toString titles.length ++ " nodes)"
  | graph publicId type _ children =>
    type.name ++ "(" ++ publicId ++ ", " ++ toString children.length ++ " children)"
  | ignore reason => "Ignore(" ++ reason.name ++ ")"

end Plan
end NodeGraph
