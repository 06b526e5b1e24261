import NodeGraph.Store.Documents

/-! The queue of events and the letters of those that failed. -/
namespace NodeGraph

namespace Store

/-- Queued events in the order they are processed in. -/
def pending (s : Store) : List QueuedEvent :=
  s.queue.rows.mergeSort fun a b => stampLe (a.createdAt, a.id) (b.createdAt, b.id)

/-- Failed events in the order they failed in. -/
def failures (s : Store) : List DeadLetter :=
  s.deadLetters.rows.mergeSort fun a b => stampLe (a.failedAt, a.id) (b.failedAt, b.id)

def isQueued (s : Store) (id : Int) : Bool :=
  s.queue.any (·.id = id)

/-- Takes an event off the queue. -/
def claim (id : Int) (s : Store) : Store :=
  { s with queue := s.queue.keep (·.id ≠ id) }

/-- Keeps a failed event with the reason of its failure. -/
def bury (now : Int) (e : QueuedEvent) (fault : Fault) (s : Store) : Store :=
  { s with
    deadLetters := s.deadLetters.add fun id =>
      { id, eventId := e.id, publicId := e.publicId, type := e.type, action := e.action
        oldData := e.oldData, newData := e.newData, eventCreatedAt := e.createdAt
        error := fault.message, failedAt := now } }

end Store

namespace Queue

/-- Appends an event that no document write tells of. -/
def enqueueOn (db : Database) (env : Env) (publicId type action : String)
    (oldData newData : Option Json) : Command Int :=
  db.run .queueEvent do
    let s ← EStateM.get
    EStateM.set { s with
      queue := s.queue.add fun id =>
        { id, publicId, type, action, oldData := oldData.map Json.compact
          newData := newData.map Json.compact, createdAt := env.now } }
    return s.queue.nextId

def enqueue (env : Env) (publicId type action : String) (oldData newData : Option Json) :
    Command Int :=
  enqueueOn .sound env publicId type action oldData newData

def sameDocument (a b : DeadLetter) : Bool :=
  a.publicId = b.publicId && a.type = b.type

/-- Whether `b` is a later event than `a`. -/
def isLater (a b : DeadLetter) : Bool :=
  decide (a.eventCreatedAt < b.eventCreatedAt
    ∨ (a.eventCreatedAt = b.eventCreatedAt ∧ a.id < b.id))

/-- The latest failure of each document, in the order of the events. -/
def latestFailures (letters : List DeadLetter) : List DeadLetter :=
  (letters.filter fun a => !letters.any fun b => sameDocument a b && isLater a b).mergeSort
    fun a b => stampLe (a.eventCreatedAt, a.id) (b.eventCreatedAt, b.id)

/-- The event that replays a failure. Where the document exists its present value is replayed,
and a failed deletion of it becomes an update. -/
def replay (document : Option DocumentRow) (letter : DeadLetter) (id : Int) : QueuedEvent where
  id := id
  publicId := letter.publicId
  type := letter.type
  action :=
    if document.isSome && letter.action = Action.delete.name then Action.update.name
    else letter.action
  oldData := letter.oldData
  newData :=
    match document with
    | some row => row.json
    | none => letter.newData
  createdAt := letter.eventCreatedAt

/-- Moves the latest failure of each document back to the queue and forgets all failures; yields
how many were moved. -/
def requeueOn (db : Database) : Command Nat :=
  db.transaction do
    let moved ← db.run .replayFailures do
      let s ← EStateM.get
      let letters := latestFailures s.deadLetters.rows
      let queue := letters.foldl (fun queue letter =>
        queue.add (replay (s.document? letter.publicId letter.type) letter)) s.queue
      EStateM.set { s with queue }
      return letters.length
    db.run .forgetFailures <| modify fun s =>
      { s with deadLetters := { s.deadLetters with rows := [] } }
    return moved

def requeue : Command Nat :=
  requeueOn .sound

end Queue
end NodeGraph
