import NodeGraph.Store.Basic

/-! Writing documents. Every write of a row queues the event that tells of it. -/
namespace NodeGraph

namespace Store

def document? (s : Store) (publicId type : String) : Option DocumentRow :=
  s.documents.find? fun row => row.publicId = publicId && row.type = type

/-- The id of the document of a type. -/
def documentId? (s : Store) (publicId : String) (type : DocumentType) : Option Int :=
  (s.document? publicId type.name).map (·.id)

/-- Queues the event for a written document. -/
def tell (clock : Int) (row : DocumentRow) (action : Action) (oldData newData : Option String)
    (s : Store) : Store :=
  { s with
    queue := s.queue.add fun id =>
      { id, publicId := row.publicId, type := row.type, action := action.name, oldData, newData
        createdAt := Clock.eventTime clock } }

def addDocument (clock : Int) (row : Int → DocumentRow) (s : Store) : Store :=
  let added := row s.documents.nextId
  { s with documents := s.documents.add row }.tell clock added .insert none added.json

/-- Replaces the row with the id of `row`. -/
def replaceDocument (clock : Int) (old row : DocumentRow) (s : Store) : Store :=
  { s with documents := s.documents.update (·.id = old.id) fun _ => row }.tell clock row .update
    old.json row.json

/-- Forgets a document wherever it is referred to; its versions go with it. -/
def detachDocument (id : Int) (s : Store) : Store :=
  let clear (ref : Option Int) : Option Int := if ref = some id then none else ref
  { s with
    versions := s.versions.keep (·.documentId ≠ id)
    nodes := { s.nodes with
      rows := s.nodes.rows.map fun row =>
        { row with
          editorDocument := clear row.editorDocument, graphDocument := clear row.graphDocument } }
    spaces := { s.spaces with
      rows := s.spaces.rows.map fun row => { row with document := clear row.document } } }

def deleteDocument (clock : Int) (row : DocumentRow) (s : Store) : Store :=
  { s with documents := s.documents.keep (·.id ≠ row.id) }.detachDocument row.id |>.tell clock row
    .delete row.json none

end Store

namespace Documents

def get (publicId : String) (type : DocumentType) : Command (Option Document) := do
  match (← EStateM.get).document? publicId type.name with
  | none => return none
  | some row => return some (← Command.decoded row.decode)

/-- Inserts a document, or replaces data and JSON of the one there is. A replacement keeps the id
of the document and takes a fresh one all the same. -/
def upsertOn (db : Database) (env : Env) (publicId : String) (type : DocumentType)
    (data : List UInt8) (json : Option Json) : Command Document :=
  db.run .writeDocument do
    let s ← EStateM.get
    let text := json.map Json.compact
    match s.document? publicId type.name with
    | none =>
      let row (id : Int) : DocumentRow :=
        { id, publicId, type := type.name, data, json := text, createdAt := env.now
          updatedAt := env.now }
      EStateM.set (s.addDocument env.clock row)
      Command.decoded (row s.documents.nextId).decode
    | some old =>
      let row := { old with data, json := text, updatedAt := env.now }
      EStateM.set ({ s with documents := s.documents.skipId }.replaceDocument env.clock old row)
      Command.decoded row.decode

def upsert (env : Env) (publicId : String) (type : DocumentType) (data : List UInt8)
    (json : Option Json) : Command Document :=
  upsertOn .sound env publicId type data json

/-- Deletes a document; false if there is none. -/
def deleteOn (db : Database) (env : Env) (publicId : String) (type : DocumentType) :
    Command Bool :=
  db.run .deleteDocument do
    let s ← EStateM.get
    match s.document? publicId type.name with
    | none => return false
    | some row =>
      EStateM.set (s.deleteDocument env.clock row)
      return true

def delete (env : Env) (publicId : String) (type : DocumentType) : Command Bool :=
  deleteOn .sound env publicId type

/-- The versions of a document, oldest first. -/
def versions (s : Store) (publicId : String) (type : DocumentType) : List Version :=
  (s.versions.rows.filter fun v => v.publicId = publicId && v.type = type.name).mergeSort
    fun a b => stampLe (a.createdAt, a.id) (b.createdAt, b.id)

end Documents
end NodeGraph
