import NodeGraph.Hub
import NodeGraph.Store.Documents

/-! Writing documents with notice to everyone who listens. -/
namespace NodeGraph

/-- The store and the hub that its document writes are told on. -/
structure Workspace where
  store : Store := {}
  hub : Hub := {}

namespace Workspace

def defaultChannel : String := "document_events"

/-- The notice of a written document. -/
def noticeOf (channel publicId : String) (type : DocumentType) : Notice :=
  ⟨channel, type.name ++ " " ++ publicId⟩

def publish (w : Workspace) (n : Notice) : Workspace :=
  { w with hub := (w.hub.publish n).2 }

/-- Writes a document, then publishes a notice unless the writing failed. -/
def upsertOn (db : Database) (env : Env) (channel publicId : String) (type : DocumentType)
    (data : List UInt8) (json : Option Json) (w : Workspace) :
    Except Fault Document × Workspace :=
  match (Documents.upsertOn db env publicId type data json).outcome w.store with
  | (.ok document, store) =>
    (.ok document, { w with store }.publish (noticeOf channel publicId type))
  | (.error fault, store) => (.error fault, { w with store })

def upsert (env : Env) (channel publicId : String) (type : DocumentType) (data : List UInt8)
    (json : Option Json) (w : Workspace) : Except Fault Document × Workspace :=
  w.upsertOn .sound env channel publicId type data json

/-- Deletes a document, then publishes a notice if there was one. -/
def deleteOn (db : Database) (env : Env) (channel publicId : String) (type : DocumentType)
    (w : Workspace) : Except Fault Bool × Workspace :=
  match (Documents.deleteOn db env publicId type).outcome w.store with
  | (.ok true, store) => (.ok true, { w with store }.publish (noticeOf channel publicId type))
  | (result, store) => (result, { w with store })

def delete (env : Env) (channel publicId : String) (type : DocumentType) (w : Workspace) :
    Except Fault Bool × Workspace :=
  w.deleteOn .sound env channel publicId type

end Workspace
end NodeGraph
