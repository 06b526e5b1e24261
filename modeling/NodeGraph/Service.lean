import NodeGraph.Listener
import NodeGraph.Settings.Folder

/-! The service: workers that keep the graph up to date while documents are written. -/
namespace NodeGraph

/-- A service with its workspace. The listener and the workers run while `listener` is the number
of a receiver of the hub. -/
structure Service where
  settings : Settings
  workspace : Workspace := {}
  listener : Option Nat := none
  /-- Whether a pass has been asked for; asking again changes nothing. -/
  permit : Bool := false

namespace Service

/-- Whether a database can be opened, or made, at a path. The empty path stands for a database
that is gone when it is closed. -/
def canOpen (path : String) : Bool :=
  match Folder.place path with
  | .file _ => true
  | .folder => false
  | .nowhere => path.isEmpty
  | .refused _ => false

/-- A service that is not running. The database is opened before the model is looked up. -/
def create (settings : Settings) : Except Fault Service := do
  match settings.databasePath.text? with
  | some path => if !canOpen path then throw .unopenableDatabase
  | none => throw .pathWithoutText
  Model.check settings.tokenizerModel
  return { settings }

def isRunning (service : Service) : Bool :=
  service.listener.isSome

def setStore (service : Service) (store : Store) : Service :=
  { service with workspace := { service.workspace with store } }

/-- Runs a command on the store. -/
def perform {α : Type} (c : Command α) (service : Service) : Except Fault α × Service :=
  let (result, store) := c.outcome service.workspace.store
  (result, service.setStore store)

/-- One pass over the queue. -/
def pass (env : Env) (owner : Nat) (service : Service) :
    Except Fault (Completion Tally) × Service :=
  service.perform (Pass.run env owner service.settings.strict service.settings.passTtl)

/-- One snapshot pass. -/
def snapshotPass (env : Env) (owner : Nat) (service : Service) :
    Except Fault (Completion Snapshot.Stats) × Service :=
  service.perform (Snapshot.run env owner service.settings.snapshotOptions env.now)

/-- Asks for a pass, which a worker runs once there is one. -/
def wake (service : Service) : Service :=
  { service with permit := true }

/-- The listener takes what the hub has for it. -/
def hear (service : Service) : Service :=
  match service.listener with
  | none => service
  | some receiver =>
    let (permit, hub) :=
      Listener.attend service.workspace.hub receiver service.settings.channel service.permit
    { service with workspace := { service.workspace with hub }, permit }

/-- Lets the listener and then the worker go on until both wait. A pass that fails is not
repeated. -/
def settle (env : Env) (owner : Nat) (service : Service) : Service :=
  if service.isRunning then
    let service := service.hear
    if service.permit then { (service.pass env owner).2 with permit := false } else service
  else service

/-- Starts the listener and the workers, which begin with a pass and a snapshot pass. A snapshot
interval of zero leaves the service without a snapshot worker. -/
def start (env : Env) (owner : Nat) (service : Service) : Except Fault Service := do
  if service.isRunning then throw .alreadyRunning
  let (receiver, hub) := service.workspace.hub.subscribe
  let service :=
    { service with workspace := { service.workspace with hub }, listener := some receiver }
  let service := service.wake.settle env owner
  return if service.settings.snapshot.interval = 0 then service
    else (service.snapshotPass env owner).2

/-- Stops the listener and the workers. -/
def shutDown (service : Service) : Service :=
  match service.listener with
  | none => service
  | some receiver =>
    let hub := (service.workspace.hub.unsubscribe receiver).2
    { service with workspace := { service.workspace with hub }, listener := none }

/-- Whether nothing is queued, no lease is out and enough versions have been written. -/
def isIdle (versions : Nat) (service : Service) : Bool :=
  let store := service.workspace.store
  store.queue.rows.isEmpty && store.leases.isEmpty && decide (versions ≤ store.versions.rows.length)

end Service
end NodeGraph
