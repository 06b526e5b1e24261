import NodeGraph.Model
import NodeGraph.Snapshot
import NodeGraph.Text.Raw
import NodeGraph.Workspace

/-! What a service can be told: where its database is, and how its workers run. -/
namespace NodeGraph

/-- Seconds between polls of the queue, and the most that a pass may take. -/
structure ProcessorSettings where
  pollInterval : Nat := 30
  passTimeout : Nat := 300
  deriving DecidableEq, Repr

/-- Seconds between snapshots, how far they look back, and the most that one may take. -/
structure SnapshotSettings where
  interval : Nat := 300
  lookback : Nat := 24 * 60 * 60
  timeout : Nat := 600
  deriving DecidableEq, Repr

structure Settings where
  databasePath : RawText := "docgraph.db"
  tokenizerModel : String := Model.default
  /-- Whether a pass ends at the first event that fails. -/
  strict : Bool := false
  channel : String := Workspace.defaultChannel
  processor : ProcessorSettings := {}
  snapshot : SnapshotSettings := {}
  deriving DecidableEq, Repr

namespace Settings

def milliseconds (seconds : Nat) : Int :=
  1000 * seconds

/-- The lease of a pass ends when the pass would have run out of time. -/
def passTtl (settings : Settings) : Int :=
  milliseconds settings.processor.passTimeout

def snapshotOptions (settings : Settings) : Snapshot.Options where
  interval := milliseconds settings.snapshot.interval
  lookback := milliseconds settings.snapshot.lookback
  leaseTtl := milliseconds settings.snapshot.timeout

/-- Whether a worker would never have time for a pass. -/
def lacksTime (settings : Settings) : Bool :=
  settings.processor.passTimeout = 0 || settings.snapshot.timeout = 0

end Settings
end NodeGraph
