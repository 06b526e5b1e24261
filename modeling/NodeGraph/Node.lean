import NodeGraph.Document
import NodeGraph.Text.Leaves

/-! Nodes and spaces: what the graph is made of. -/
namespace NodeGraph

inductive NodeKind where
  | default
  | method
  deriving DecidableEq, Repr

namespace NodeKind

def name : NodeKind → String
  | default => "default"
  | method => "method"

def all : List NodeKind :=
  [default, method]

def ofName (name : String) : Except Fault NodeKind :=
  match all.find? (·.name = name) with
  | some k => .ok k
  | none => .error (.unknownNodeKind name)

theorem ofName_name (k : NodeKind) : ofName k.name = .ok k := by
  cases k <;> rfl

end NodeKind

/-- Counts the tokens of a text. -/
abbrev Tokenizer := String → Nat

/-- A vertex of the graph. The text and both token counts are derived from content and title. -/
structure Node where
  id : Int
  publicId : String
  kind : NodeKind
  title : String
  titleTokens : Option Int
  content : Option Json
  text : String
  textTokens : Option Int
  removed : Bool
  editorDocument : Option Int
  graphDocument : Option Int
  createdAt : Int
  updatedAt : Int

/-- Derives the text from the content and counts the tokens of text and title. -/
def Node.refresh (tokens : Tokenizer) (node : Node) : Node :=
  let text := Json.plainText node.content
  { node with text, textTokens := some (tokens text), titleTokens := some (tokens node.title) }

def Node.describe (node : Node) : String :=
  "Node(" ++ node.publicId ++ ", '" ++ node.title ++ "', kind: " ++ node.kind.name
    ++ (if node.removed then ", removed" else "") ++ ")"

/-- A node as stored: any text may stand in the kind and the content column. -/
structure NodeRow where
  id : Int
  publicId : String
  kind : String
  title : String
  titleTokens : Option Int
  content : Option String
  text : String
  textTokens : Option Int
  removed : Bool
  editorDocument : Option Int
  graphDocument : Option Int
  createdAt : Int
  updatedAt : Int
  deriving DecidableEq, Repr

def NodeRow.decode (row : NodeRow) : Except Fault Node := do
  let kind ← NodeKind.ofName row.kind
  let content ← decodePayload row.content
  return { row with kind, content }

def Node.encode (node : Node) : NodeRow :=
  { node with kind := node.kind.name, content := node.content.map Json.compact }

/-- The part of a node that is known without reading its content. -/
structure NodeSummary where
  id : Int
  publicId : String
  title : String
  createdAt : Int
  deriving DecidableEq, Repr

def NodeRow.summary (row : NodeRow) : NodeSummary :=
  { row with }

/-- A workspace that nodes are members of. The slug is fixed when the space is created. -/
structure Space where
  id : Int
  publicId : String
  title : String
  slug : String
  document : Option Int
  createdAt : Int
  updatedAt : Int
  deriving DecidableEq, Repr

/-- A principal with a role in a space. -/
structure Member where
  space : Int
  principal : String
  role : String
  deriving DecidableEq, Repr

end NodeGraph
