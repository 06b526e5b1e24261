import NodeGraph.Reconcile
import NodeGraph.Store.Lease
import NodeGraph.Store.Queue

/-! Passes: draining the queue into the graph, one event at a time. -/
namespace NodeGraph

/-- What became of the events of a pass. -/
structure Tally where
  claimed : Nat := 0
  applied : Nat := 0
  ignored : Nat := 0
  failed : Nat := 0
  skipped : Nat := 0
  deriving DecidableEq, Repr

/-- How a pass or a snapshot pass ended. -/
inductive Completion (α : Type) where
  /-- The lease was running; nothing was done. -/
  | contended
  | completed (stats : α)
  deriving DecidableEq, Repr

namespace Pass

/-- What an attempt at an event came to. Only a failed event is still queued. -/
inductive Attempt where
  | applied
  | ignored
  | skipped
  | failed (fault : Fault)
  deriving DecidableEq, Repr

/-- Takes an event of unknown kind off the queue. -/
def drop (e : QueuedEvent) (s : Store) : Attempt × Store :=
  if s.isQueued e.id then (.ignored, s.claim e.id) else (.skipped, s)

/-- Takes an event off the queue and applies its plan in one transaction. -/
def carryOut (env : Env) (event : Event) (s : Store) : Attempt × Store :=
  if s.isQueued event.id then
    match Reconcile.apply env (Plan.ofEvent event) (s.claim event.id) with
    | .ok .applied s' => (.applied, s')
    | .ok (.ignored _) s' => (.ignored, s')
    | .error fault _ => (.failed fault, s)
  else (.skipped, s)

/-- The first transaction of an event. An event of unknown kind is dropped; one whose payload is
not understood, or whose plan fails, stays queued. -/
def attempt (env : Env) (e : QueuedEvent) (s : Store) : Attempt × Store :=
  match e.kinds with
  | .error _ => drop e s
  | .ok _ =>
    match e.decode with
    | .error fault => (.failed fault, s)
    | .ok event => carryOut env event s

/-- The second transaction of an event that failed: it moves from the queue to the failures,
unless another pass has taken it. -/
def setAside (env : Env) (e : QueuedEvent) (fault : Fault) (s : Store) : Store :=
  if s.isQueued e.id then (s.claim e.id).bury env.now e fault else s

def Attempt.count (attempt : Attempt) (tally : Tally) : Tally :=
  match attempt with
  | applied => { tally with applied := tally.applied + 1 }
  | ignored => { tally with ignored := tally.ignored + 1 }
  | skipped => { tally with skipped := tally.skipped + 1 }
  | failed _ => { tally with failed := tally.failed + 1 }

/-- Both transactions of an event. -/
def handle (env : Env) (e : QueuedEvent) (s : Store) : Attempt × Store :=
  match attempt env e s with
  | (.failed fault, s') => (.failed fault, setAside env e fault s')
  | done => done

/-- Handles events in order. A strict pass ends at the first one that fails. -/
def drain (env : Env) (strict : Bool) : List QueuedEvent → Tally → Command Tally
  | [], tally => pure tally
  | e :: rest, tally => fun s =>
    match handle env e s with
    | (.failed fault, s') =>
      if strict then .error fault s'
      else drain env strict rest ((Attempt.failed fault).count tally) s'
    | (done, s') => drain env strict rest (done.count tally) s'

/-- Runs a command under a lease, which is given up however the command ends. If that is refused the
lease stays, and so does what the command has done; its own fault comes before that one. -/
def underLeaseOn {α : Type} (db : Database) (env : Env) (owner : Nat) (name : String) (ttl : Int)
    (work : Command α) : Command (Completion α) :=
  db.run .takeLease fun s =>
    match Lease.acquire env.now owner name ttl s with
    | (none, s) => .ok .contended s
    | (some lease, s) =>
      match work s with
      | .ok stats s' => (do
          db.run .releaseLease (modify lease.release)
          return .completed stats : Command (Completion α)) s'
      | .error fault s' =>
        .error fault ((db.run .releaseLease (modify lease.release)).outcome s').2

def underLease {α : Type} (env : Env) (owner : Nat) (name : String) (ttl : Int)
    (work : Command α) : Command (Completion α) :=
  underLeaseOn .sound env owner name ttl work

/-- Reads the queue and handles all of its events. -/
def drainQueue (env : Env) (strict : Bool) : Command Tally := do
  let events := (← EStateM.get).pending
  drain env strict events { claimed := events.length }

/-- One pass over the queue. -/
def run (env : Env) (owner : Nat) (strict : Bool) (ttl : Int) : Command (Completion Tally) :=
  underLease env owner Lease.processing ttl (drainQueue env strict)

end Pass
end NodeGraph
