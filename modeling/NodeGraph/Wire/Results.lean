import NodeGraph.Service
import NodeGraph.Wire.Records

/-! The results of passes as JSON values. -/
namespace NodeGraph

open Json Wire

def Tally.toJson (t : Tally) : Json :=
  obj [
    ("claimed", int t.claimed), ("applied", int t.applied), ("ignored", int t.ignored),
    ("failed", int t.failed), ("skipped", int t.skipped)]

def Snapshot.Stats.toJson (s : Snapshot.Stats) : Json :=
  obj [
    ("created", int s.created), ("unchanged", int s.unchanged), ("initial", int s.initial),
    ("invalid", int s.invalid)]

def Completion.toJson {α : Type} (stats : α → Json) : Completion α → Json
  | contended => str "Contended"
  | completed s => obj [("Completed", stats s)]

def Outcome.toJson : Outcome → Json
  | applied => str "Applied"
  | ignored reason => obj [("Ignored", str reason.name)]

end NodeGraph
