import NodeGraph.Document

/-! Change events: the queued record of what happened to a document. -/
namespace NodeGraph

inductive Action where
  | insert
  | update
  | delete
  deriving DecidableEq, Repr

namespace Action

def name : Action → String
  | insert => "INSERT"
  | update => "UPDATE"
  | delete => "DELETE"

def all : List Action :=
  [insert, update, delete]

def ofName (name : String) : Except Fault Action :=
  match all.find? (·.name = name) with
  | some a => .ok a
  | none => .error (.unknownAction name)

theorem ofName_name (a : Action) : ofName a.name = .ok a := by
  cases a <;> rfl

end Action

/-- An event as queued. Its columns are unchecked texts, since anyone may write to the queue. -/
structure QueuedEvent where
  id : Int
  publicId : String
  type : String
  action : String
  oldData : Option String
  newData : Option String
  createdAt : Int
  deriving DecidableEq, Repr

/-- An event whose columns have been understood. -/
structure Event where
  id : Int
  publicId : String
  type : DocumentType
  action : Action
  oldData : Option Json
  newData : Option Json
  createdAt : Int

/-- The type and action of an event; an unknown type is reported first. -/
def QueuedEvent.kinds (e : QueuedEvent) : Except Fault (DocumentType × Action) := do
  let type ← DocumentType.ofName e.type
  let action ← Action.ofName e.action
  return (type, action)

/-- The kinds are looked at first, then the old value, then the new one. -/
def QueuedEvent.decode (e : QueuedEvent) : Except Fault Event := do
  let (type, action) ← e.kinds
  let oldData ← decodePayload e.oldData
  let newData ← decodePayload e.newData
  return { e with type, action, oldData, newData }

def Event.describe (e : Event) : String :=
  "DocumentEvent(id: " ++ toString e.id ++ ", " ++ e.type.name ++ " " ++ e.action.name ++ " "
    ++ e.publicId ++ ")"

/-- An event that could not be carried out, with its columns unchanged and the reason. -/
structure DeadLetter where
  id : Int
  eventId : Int
  publicId : String
  type : String
  action : String
  oldData : Option String
  newData : Option String
  eventCreatedAt : Int
  error : String
  failedAt : Int
  deriving DecidableEq, Repr

end NodeGraph
