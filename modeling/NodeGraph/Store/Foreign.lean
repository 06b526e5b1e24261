import NodeGraph.Store.Queue
import NodeGraph.Store.Spaces

/-! Rows that other programs write straight into the tables. -/
namespace NodeGraph

/-- What another program puts into a column. -/
inductive Cell where
  | null
  | int (i : Int)
  | text (s : String)
  | bytes (b : List UInt8)
  deriving DecidableEq, Repr

namespace Cell

/-- The content of a text column, which holds texts: a number is written out, and bytes, which no
reader of the column could decode, are taken for nothing. -/
def text? : Cell → Option String
  | int i => some (toString i)
  | text s => some s
  | _ => none

/-- The content of a number column. -/
def int? : Cell → Option Int
  | int i => some i
  | text s => s.toInt?
  | _ => none

def bytes? : Cell → Option (List UInt8)
  | bytes b => some b
  | text s => some s.toUTF8.toList
  | _ => none

end Cell

namespace Foreign

/-- The cells of a row by column; a column that is not given is null. -/
abbrev Cells := Keyed Cell

def cell (cells : Cells) (column : String) : Cell :=
  (Keyed.get? column cells).getD .null

/-- A column that must not be null. -/
def required {α : Type} (column : String) (value : Option α) : Except Fault α :=
  match value with
  | some a => .ok a
  | none => .error (.missingColumn column)

def event (cells : Cells) : Except Fault (Int → QueuedEvent) := do
  let publicId ← required "document_events.public_id" (cell cells "public_id").text?
  let type ← required "document_events.document_type" (cell cells "document_type").text?
  let action ← required "document_events.action" (cell cells "action").text?
  let createdAt ← required "document_events.created_at" (cell cells "created_at").int?
  return fun id =>
    { id, publicId, type, action, oldData := (cell cells "old_data").text?
      newData := (cell cells "new_data").text?, createdAt }

def document (cells : Cells) : Except Fault (Int → DocumentRow) := do
  let publicId ← required "documents.public_id" (cell cells "public_id").text?
  let type ← required "documents.document_type" (cell cells "document_type").text?
  let data ← required "documents.data" (cell cells "data").bytes?
  let createdAt ← required "documents.created_at" (cell cells "created_at").int?
  let updatedAt ← required "documents.updated_at" (cell cells "updated_at").int?
  return fun id =>
    { id, publicId, type, data, json := (cell cells "json").text?, createdAt, updatedAt }

def node (cells : Cells) : Except Fault (Int → NodeRow) := do
  let publicId ← required "nodes.public_id" (cell cells "public_id").text?
  let kind ← required "nodes.kind" (cell cells "kind").text?
  let title ← required "nodes.title" (cell cells "title").text?
  let text ← required "nodes.text" (cell cells "text").text?
  let removed ← required "nodes.removed" (cell cells "removed").int?
  let createdAt ← required "nodes.created_at" (cell cells "created_at").int?
  let updatedAt ← required "nodes.updated_at" (cell cells "updated_at").int?
  return fun id =>
    { id, publicId, kind, title, titleTokens := (cell cells "title_token_count").int?
      content := (cell cells "content").text?, text
      textTokens := (cell cells "text_token_count").int?, removed := removed ≠ 0
      editorDocument := (cell cells "editor_document_id").int?
      graphDocument := (cell cells "graph_document_id").int?, createdAt, updatedAt }

def documentKey : String := "documents.public_id, documents.document_type"

/-- A row of the queue, whose payloads are texts or nothing and whose time is a number. -/
def addEvent (cells : Cells) : Command Int := do
  let row ← Command.ofExcept (event cells)
  let s ← EStateM.get
  EStateM.set { s with queue := s.queue.add row }
  return s.queue.nextId

def addDocument (env : Env) (cells : Cells) : Command Int := do
  let row ← Command.ofExcept (document cells)
  let s ← EStateM.get
  let id := s.documents.nextId
  if (s.document? (row id).publicId (row id).type).isSome then
    throw (.duplicateKey documentKey)
  EStateM.set (s.addDocument env.clock row)
  return id

def addNode (env : Env) (cells : Cells) : Command Int := do
  let row ← Command.ofExcept (node cells)
  let s ← EStateM.get
  let sample := row s.nodes.nextId
  let isFree := !s.hasNode sample.publicId
    && !env.rivals.node.any (·.publicId = sample.publicId)
  if isFree && !(s.isSoundReference sample.editorDocument
      && s.isSoundReference sample.graphDocument) then
    throw .brokenReference
  Nodes.insert env row

/-- The tables that other programs write to. -/
inductive Target where
  | documents
  | events
  | failures
  | versions
  | nodes
  | spaces
  deriving DecidableEq, Repr

def setDocument (column : String) (c : Cell) (row : DocumentRow) : Except Fault DocumentRow := do
  match column with
  | "public_id" => return { row with publicId := ← required "documents.public_id" c.text? }
  | "document_type" => return { row with type := ← required "documents.document_type" c.text? }
  | "data" => return { row with data := ← required "documents.data" c.bytes? }
  | "json" => return { row with json := c.text? }
  | "created_at" => return { row with createdAt := ← required "documents.created_at" c.int? }
  | "updated_at" => return { row with updatedAt := ← required "documents.updated_at" c.int? }
  | _ => return row

def setEvent (column : String) (c : Cell) (row : QueuedEvent) : Except Fault QueuedEvent := do
  match column with
  | "public_id" => return { row with publicId := ← required "document_events.public_id" c.text? }
  | "document_type" =>
    return { row with type := ← required "document_events.document_type" c.text? }
  | "action" => return { row with action := ← required "document_events.action" c.text? }
  | "old_data" => return { row with oldData := c.text? }
  | "new_data" => return { row with newData := c.text? }
  | "created_at" =>
    return { row with createdAt := ← required "document_events.created_at" c.int? }
  | _ => return row

def setFailure (column : String) (c : Cell) (row : DeadLetter) : Except Fault DeadLetter := do
  let name := "document_event_failures." ++ column
  match column with
  | "event_id" => return { row with eventId := ← required name c.int? }
  | "public_id" => return { row with publicId := ← required name c.text? }
  | "document_type" => return { row with type := ← required name c.text? }
  | "action" => return { row with action := ← required name c.text? }
  | "old_data" => return { row with oldData := c.text? }
  | "new_data" => return { row with newData := c.text? }
  | "event_created_at" => return { row with eventCreatedAt := ← required name c.int? }
  | "error" => return { row with error := ← required name c.text? }
  | "failed_at" => return { row with failedAt := ← required name c.int? }
  | _ => return row

def setVersion (column : String) (c : Cell) (row : Version) : Except Fault Version := do
  let name := "document_versions." ++ column
  match column with
  | "public_id" => return { row with publicId := ← required name c.text? }
  | "document_type" => return { row with type := ← required name c.text? }
  | "document_id" => return { row with documentId := ← required name c.int? }
  | "json_hash" => return { row with fingerprint := ← required name c.text? }
  | "data" => return { row with data := ← required name c.bytes? }
  | "created_at" => return { row with createdAt := ← required name c.int? }
  | _ => return row

def setNode (column : String) (c : Cell) (row : NodeRow) : Except Fault NodeRow := do
  let name := "nodes." ++ column
  match column with
  | "public_id" => return { row with publicId := ← required name c.text? }
  | "kind" => return { row with kind := ← required name c.text? }
  | "title" => return { row with title := ← required name c.text? }
  | "title_token_count" => return { row with titleTokens := c.int? }
  | "content" => return { row with content := c.text? }
  | "text" => return { row with text := ← required name c.text? }
  | "text_token_count" => return { row with textTokens := c.int? }
  | "removed" => return { row with removed := decide ((← required name c.int?) ≠ 0) }
  | "editor_document_id" => return { row with editorDocument := c.int? }
  | "graph_document_id" => return { row with graphDocument := c.int? }
  | "created_at" => return { row with createdAt := ← required name c.int? }
  | "updated_at" => return { row with updatedAt := ← required name c.int? }
  | _ => return row

def setSpace (column : String) (c : Cell) (row : Space) : Except Fault Space := do
  let name := "spaces." ++ column
  match column with
  | "public_id" => return { row with publicId := ← required name c.text? }
  | "title" => return { row with title := ← required name c.text? }
  | "title_slug" => return { row with slug := ← required name c.text? }
  | "document_id" => return { row with document := c.int? }
  | "created_at" => return { row with createdAt := ← required name c.int? }
  | "updated_at" => return { row with updatedAt := ← required name c.int? }
  | _ => return row

/-- Whether no element is there twice. -/
def noneTwice {α : Type} [DecidableEq α] : List α → Bool
  | [] => true
  | a :: rest => a ∉ rest && noneTwice rest

/-- Changes the rows that satisfy `p`. -/
def changeRows {ρ : Type} (t : Table ρ) (p : ρ → Bool) (f : ρ → Except Fault ρ) :
    Except Fault (Table ρ) := do
  return { t with rows := ← t.rows.mapM fun row => if p row then f row else .ok row }

/-- The documents of a public id, oldest first. -/
def documentsOf (s : Store) (publicId : String) : List DocumentRow :=
  s.documents.rows.filter (·.publicId = publicId)

/-- Sets a column of the documents of a public id, each of which is told of. -/
def updateDocuments (env : Env) (publicId column : String) (c : Cell) : Command Nat :=
  Command.transaction do
    let rows := documentsOf (← EStateM.get) publicId
    for old in rows do
      let row ← Command.ofExcept (setDocument column c old)
      modify fun s => s.replaceDocument env.clock old row
    let s ← EStateM.get
    if !noneTwice (s.documents.rows.map fun row => (row.publicId, row.type)) then
      throw (.duplicateKey documentKey)
    return rows.length

/-- Sets a column of the rows of a public id and yields how many there are. -/
def update (env : Env) (target : Target) (publicId column : String) (c : Cell) : Command Nat :=
  Command.transaction do
    let s ← EStateM.get
    match target with
    | .documents => updateDocuments env publicId column c
    | .events =>
      let queue ← Command.ofExcept
        (changeRows s.queue (·.publicId = publicId) (setEvent column c))
      EStateM.set { s with queue }
      return s.queue.rows.countP (·.publicId = publicId)
    | .failures =>
      let deadLetters ← Command.ofExcept
        (changeRows s.deadLetters (·.publicId = publicId) (setFailure column c))
      EStateM.set { s with deadLetters }
      return s.deadLetters.rows.countP (·.publicId = publicId)
    | .versions =>
      let versions ← Command.ofExcept
        (changeRows s.versions (·.publicId = publicId) (setVersion column c))
      if !versions.rows.all (fun v => s.hasDocumentId v.documentId) then throw .brokenReference
      EStateM.set { s with versions }
      return s.versions.rows.countP (·.publicId = publicId)
    | .nodes =>
      let nodes ← Command.ofExcept (changeRows s.nodes (·.publicId = publicId) (setNode column c))
      if !noneTwice (nodes.rows.map (·.publicId)) then
        throw (.duplicateKey Nodes.uniqueColumn)
      if !nodes.rows.all (fun row =>
          s.isSoundReference row.editorDocument && s.isSoundReference row.graphDocument) then
        throw .brokenReference
      EStateM.set { s with nodes }
      return s.nodes.rows.countP (·.publicId = publicId)
    | .spaces =>
      let spaces ← Command.ofExcept
        (changeRows s.spaces (·.publicId = publicId) (setSpace column c))
      if !noneTwice (spaces.rows.map (·.publicId)) then
        throw (.duplicateKey "spaces.public_id")
      if !noneTwice (spaces.rows.map (·.slug)) then throw (.duplicateKey "spaces.title_slug")
      if !spaces.rows.all (fun row => s.isSoundReference row.document) then
        throw .brokenReference
      EStateM.set { s with spaces }
      return s.spaces.rows.countP (·.publicId = publicId)

/-- Deletes a node; its edges and memberships go with it. -/
def deleteNode (id : Int) (s : Store) : Store :=
  { s with
    nodes := s.nodes.keep (·.id ≠ id)
    edges := withoutFirst id (withoutSecond id s.edges)
    live := withoutSecond id s.live
    deleted := withoutSecond id s.deleted }

/-- Deletes a space; its memberships and members go with it. -/
def deleteSpace (id : Int) (s : Store) : Store :=
  { s with
    spaces := s.spaces.keep (·.id ≠ id)
    live := withoutFirst id s.live
    deleted := withoutFirst id s.deleted
    members := s.members.filter (·.space ≠ id) }

/-- Deletes the rows of a public id with all that refers to them. -/
def delete (env : Env) (target : Target) (publicId : String) (s : Store) : Nat × Store :=
  match target with
  | .documents =>
    let rows := documentsOf s publicId
    (rows.length, rows.foldl (fun s row => s.deleteDocument env.clock row) s)
  | .events =>
    (s.queue.rows.countP (·.publicId = publicId),
      { s with queue := s.queue.keep (·.publicId ≠ publicId) })
  | .failures =>
    (s.deadLetters.rows.countP (·.publicId = publicId),
      { s with deadLetters := s.deadLetters.keep (·.publicId ≠ publicId) })
  | .versions =>
    (s.versions.rows.countP (·.publicId = publicId),
      { s with versions := s.versions.keep (·.publicId ≠ publicId) })
  | .nodes =>
    let ids := (s.nodes.rows.filter (·.publicId = publicId)).map (·.id)
    (ids.length, ids.foldl (fun s id => deleteNode id s) s)
  | .spaces =>
    let ids := (s.spaces.rows.filter (·.publicId = publicId)).map (·.id)
    (ids.length, ids.foldl (fun s id => deleteSpace id s) s)

end Foreign
end NodeGraph
