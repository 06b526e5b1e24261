import NodeGraph.Store.Documents

/-! Nodes and the edges between them. -/
namespace NodeGraph

namespace Store

def nodeRow? (s : Store) (publicId : String) : Option NodeRow :=
  s.nodes.find? (·.publicId = publicId)

def hasNode (s : Store) (publicId : String) : Bool :=
  s.nodes.any (·.publicId = publicId)

def hasNodeId (s : Store) (id : Int) : Bool :=
  s.nodes.any (·.id = id)

def hasDocumentId (s : Store) (id : Int) : Bool :=
  s.documents.any (·.id = id)

/-- Whether a reference to a document is absent or leads to one. -/
def isSoundReference (s : Store) (ref : Option Int) : Bool :=
  match ref with
  | none => true
  | some id => s.hasDocumentId id

/-- Takes the events that the thief of a node is after. -/
def rob (rivals : Rivals) (publicId : String) (s : Store) : Store :=
  match rivals.theft with
  | some theft =>
    if theft.node = publicId then
      { s with queue := s.queue.keep (·.publicId ≠ theft.events) }
    else s
  | none => s

def addNode (rivals : Rivals) (row : Int → NodeRow) (s : Store) : Store :=
  { s with nodes := s.nodes.add row }.rob rivals (row s.nodes.nextId).publicId

/-- Changes the node of a row id. -/
def updateNode (id : Int) (f : NodeRow → NodeRow) (s : Store) : Store :=
  { s with nodes := s.nodes.update (·.id = id) f }

def sortedNodes (s : Store) : List NodeRow :=
  s.nodes.rows.mergeSort fun a b => stampLe (a.createdAt, a.id) (b.createdAt, b.id)

/-- The nodes of a list of row ids, by public id. -/
def nodesOf (s : Store) (ids : List Int) : List NodeRow :=
  (s.nodes.rows.filter fun row => row.id ∈ ids).mergeSort fun a b =>
    decide (a.publicId ≤ b.publicId)

/-- Headers of the nodes with the given public ids, the newest first. -/
def summaries (s : Store) (publicIds : List String) : List NodeSummary :=
  ((s.nodes.rows.filter fun row => row.publicId ∈ publicIds).mergeSort fun a b =>
    stampLe (b.createdAt, b.id) (a.createdAt, a.id)).map NodeRow.summary

/-- Adds an edge unless it is there; a fault if one of its ends is missing. -/
def addEdge (parent child : Int) (s : Store) : Except Fault (Bool × Store) :=
  if s.edges.contains (parent, child) then .ok (false, s)
  else if s.hasNodeId parent && s.hasNodeId child then
    .ok (true, { s with edges := addPair (parent, child) s.edges })
  else .error .brokenReference

end Store

namespace Nodes

def uniqueColumn : String := "nodes.public_id"

/-- The row of a node that a rival inserts. -/
def rivalRow (env : Env) (rival : RivalNode) (id : Int) : NodeRow where
  id := id
  publicId := rival.publicId
  kind := rival.kind
  title := rival.title
  titleTokens := none
  content := none
  text := ""
  textTokens := none
  removed := false
  editorDocument := none
  graphDocument := none
  createdAt := env.now
  updatedAt := env.now

/-- Inserts a node. The public id must be free, and a rival for it makes the insertion fail. -/
def insert (env : Env) (row : Int → NodeRow) : Command Int := do
  let s ← EStateM.get
  let id := s.nodes.nextId
  let publicId := (row id).publicId
  match env.rivals.node.filter (·.publicId = publicId) with
  | some rival =>
    if !rival.vanishes && !s.hasNode publicId then
      EStateM.set (s.addNode env.rivals (rivalRow env rival))
    throw (.duplicateKey uniqueColumn)
  | none =>
    if s.hasNode publicId then throw (.duplicateKey uniqueColumn)
    EStateM.set (s.addNode env.rivals row)
    return id

def decode (row : NodeRow) : Command Node :=
  Command.decoded row.decode

def get (publicId : String) : Command (Option Node) := do
  match (← EStateM.get).nodeRow? publicId with
  | none => return none
  | some row => return some (← decode row)

/-- The headers of the nodes of public ids, each of which is a parameter. -/
def summaries (publicIds : List String) : Command (List NodeSummary) := do
  Command.given publicIds.length
  return (← EStateM.get).summaries publicIds

/-- A new node without content. -/
def blank (env : Env) (publicId title : String) (kind : NodeKind) (id : Int) : Node :=
  Node.refresh env.tokens
    { id, publicId, kind, title, titleTokens := none, content := none, text := ""
      textTokens := none, removed := false, editorDocument := none, graphDocument := none
      createdAt := env.now, updatedAt := env.now }

def createOn (db : Database) (env : Env) (publicId title : String) (kind : NodeKind) :
    Command Node := do
  let id ← db.run .insertNode (insert env fun id => (blank env publicId title kind id).encode)
  return blank env publicId title kind id

def create (env : Env) (publicId title : String) (kind : NodeKind) : Command Node :=
  createOn .sound env publicId title kind

/-- Fetches a node, creating it with `kind` where there is none. If another writer is first, its
node is fetched. -/
def ensureOn (db : Database) (env : Env) (publicId : String) (kind : NodeKind) :
    Command Node := do
  match ← db.run .findNode (get publicId) with
  | some node => return node
  | none =>
    (createOn db env publicId "" kind).ifTaken do
      match ← db.run .findNodeAgain (get publicId) with
      | some node => return node
      | none => throw (.vanishedNode publicId)

def ensure (env : Env) (publicId : String) (kind : NodeKind) : Command Node :=
  ensureOn .sound env publicId kind

/-- Writes every column of a node after deriving text and token counts anew. -/
def save (env : Env) (node : Node) : Command Node := do
  let s ← EStateM.get
  let node := { node.refresh env.tokens with updatedAt := env.now }
  if s.hasNodeId node.id
      && !(s.isSoundReference node.editorDocument && s.isSoundReference node.graphDocument) then
    throw .brokenReference
  EStateM.set (s.updateNode node.id fun row =>
    { node.encode with publicId := row.publicId, createdAt := row.createdAt })
  return node

/-- Writes the title and its token count alone. -/
def retitle (env : Env) (id : Int) (title : String) (s : Store) : Store :=
  s.updateNode id fun row =>
    { row with title, titleTokens := some (env.tokens title), updatedAt := env.now }

/-- Fills in the document references that a node lacks; `graphType` is the type of its graph
document. Tells whether any was found. -/
def withDocuments (s : Store) (graphType : DocumentType) (node : Node) : Bool × Node :=
  let graph :=
    if node.graphDocument.isNone then s.documentId? node.publicId graphType else none
  let editor :=
    if node.editorDocument.isNone then s.documentId? node.publicId .editor else none
  (graph.isSome || editor.isSome,
    { node with
      graphDocument := graph.or node.graphDocument
      editorDocument := editor.or node.editorDocument })

def link (parent child : Int) : Command Bool := do
  let (added, s) ← Command.ofExcept ((← EStateM.get).addEdge parent child)
  EStateM.set s
  return added

def all : Command (List Node) := do
  (← EStateM.get).sortedNodes.mapM decode

/-- The nodes that are not removed. -/
def active : Command (List Node) := do
  ((← EStateM.get).sortedNodes.filter (!·.removed)).mapM decode

/-- The nodes below a node, by public id. -/
def below (publicId : String) : Command (List Node) := do
  let s ← EStateM.get
  match s.nodeRow? publicId with
  | none => return []
  | some row =>
    (s.nodesOf ((s.edges.filter (·.1 = row.id)).map (·.2))).mapM decode

/-- The nodes above a node, by public id. -/
def above (publicId : String) : Command (List Node) := do
  let s ← EStateM.get
  match s.nodeRow? publicId with
  | none => return []
  | some row =>
    (s.nodesOf ((s.edges.filter (·.2 = row.id)).map (·.1))).mapM decode

/-- Gives a node a title. It is counted with the tokenizer of the passes, which is assumed to be the
shared one: it is unless they have been given another model. -/
def setTitleOn (db : Database) (env : Env) (publicId title : String) : Command Node :=
  db.transaction do
    match ← db.run .findNode (get publicId) with
    | none => throw (.missingNode publicId)
    | some node => db.run .saveNode (save env { node with title })

def setTitle (env : Env) (publicId title : String) : Command Node :=
  setTitleOn .sound env publicId title

/-- Marks a node as removed or not. -/
def setRemovedOn (db : Database) (env : Env) (removed : Bool) (publicId : String) :
    Command Unit :=
  db.run .markNode do
    let s ← EStateM.get
    if !s.hasNode publicId then throw (.missingNode publicId)
    EStateM.set { s with
      nodes := s.nodes.update (·.publicId = publicId) fun row =>
        { row with removed, updatedAt := env.now } }

def setRemoved (env : Env) (removed : Bool) (publicId : String) : Command Unit :=
  setRemovedOn .sound env removed publicId

def remove (env : Env) (publicId : String) : Command Unit :=
  setRemoved env true publicId

def restore (env : Env) (publicId : String) : Command Unit :=
  setRemoved env false publicId

end Nodes
end NodeGraph
