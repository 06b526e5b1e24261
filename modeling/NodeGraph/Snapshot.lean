import NodeGraph.Hex
import NodeGraph.Pass
import NodeGraph.Sha256

/-! Snapshots: versions of the documents whose JSON has changed. -/
namespace NodeGraph

/-- The text that stands for a JSON value whatever the order of its keys; a missing value stands
as null. -/
def canonicalText (json : Option Json) : String :=
  match json with
  | some v => v.canonical.compact
  | none => Json.null.compact

def fingerprint (json : Option Json) : String :=
  Hex.encode (Sha256.digest (canonicalText json).toUTF8.toList)

namespace Snapshot

/-- Durations in milliseconds. -/
structure Options where
  interval : Int
  lookback : Int
  leaseTtl : Int

/-- What a pass did with the documents it looked at. -/
structure Stats where
  created : Nat := 0
  unchanged : Nat := 0
  initial : Nat := 0
  invalid : Nat := 0
  deriving DecidableEq, Repr

/-- A document is settled once it was last written before this time. -/
def threshold (options : Options) (now : Int) : Int :=
  Clock.before now options.interval

/-- Documents last written before this time have been looked at by an earlier pass. -/
def lowerThreshold (options : Options) (now : Int) : Int :=
  Clock.before (threshold options now) options.lookback

def rowFingerprint (row : DocumentRow) : Option String :=
  match decodePayload row.json with
  | .ok json => some (fingerprint json)
  | .error _ => none

def later (a b : Version) : Version :=
  if stampLe (a.createdAt, a.id) (b.createdAt, b.id) then b else a

/-- The latest version of a document. -/
def latest? (versions : List Version) (documentId : Int) : Option Version :=
  match versions.filter (·.documentId = documentId) with
  | [] => none
  | v :: rest => some (rest.foldl later v)

/-- Whether a versioned document is looked at: settled, but not long ago, and its latest version
is older than the interval. -/
def isDue (options : Options) (now : Int) (row : DocumentRow) (latest : Version) : Bool :=
  decide (latest.createdAt < threshold options now
    ∧ lowerThreshold options now < row.updatedAt
    ∧ row.updatedAt < threshold options now)

def writeVersion (now : Int) (row : DocumentRow) (hash : String) (s : Store) : Store :=
  { s with
    versions := s.versions.add fun id =>
      { id, publicId := row.publicId, type := row.type, documentId := row.id, fingerprint := hash
        data := row.data, createdAt := now } }

/-- Looks at a versioned document: a version is written if its hash differs from the latest. -/
def revise (now : Int) (acc : Stats × Store) (due : DocumentRow × Version) : Stats × Store :=
  let (stats, s) := acc
  let (row, latest) := due
  match rowFingerprint row with
  | none => ({ stats with invalid := stats.invalid + 1 }, s)
  | some hash =>
    if hash = latest.fingerprint then ({ stats with unchanged := stats.unchanged + 1 }, s)
    else ({ stats with created := stats.created + 1 }, writeVersion now row hash s)

/-- Looks at a document without versions: its first one is written. -/
def initiate (now : Int) (acc : Stats × Store) (row : DocumentRow) : Stats × Store :=
  let (stats, s) := acc
  match rowFingerprint row with
  | none => ({ stats with invalid := stats.invalid + 1 }, s)
  | some hash => ({ stats with initial := stats.initial + 1 }, writeVersion now row hash s)

/-- The documents that are due, with their latest versions. -/
def dueDocuments (options : Options) (now : Int) (s : Store) : List (DocumentRow × Version) :=
  s.documents.rows.filterMap fun row =>
    match latest? s.versions.rows row.id with
    | some latest => if isDue options now row latest then some (row, latest) else none
    | none => none

def unversioned (s : Store) : List DocumentRow :=
  s.documents.rows.filter fun row => !s.versions.any (·.documentId = row.id)

def Stats.written (stats : Stats) : Nat :=
  stats.created + stats.initial

/-- Looks at one document. The version that is written of it, if one is, takes a statement. -/
def look {δ : Type} (db : Database) (id : δ → Int) (step : Stats × Store → δ → Stats × Store)
    (stats : Stats) (document : δ) : Command Stats := do
  let (found, s) := step (stats, ← EStateM.get) document
  if stats.written < found.written then
    db.run (.insertVersion (id document)) (EStateM.set s)
  return found

/-- Due documents first, then those that have no version after that, in one transaction. -/
def takeAll (db : Database) (options : Options) (now : Int) : Command Stats :=
  db.transaction do
    let due ← db.run .findDue (return dueDocuments options now (← EStateM.get))
    let revised ← due.foldlM (look db (·.1.id) (revise now)) {}
    let rest ← db.run .findUnversioned (return unversioned (← EStateM.get))
    rest.foldlM (look db (·.id) (initiate now)) revised

/-- One snapshot pass as if the time were `time`. -/
def runOn (db : Database) (env : Env) (owner : Nat) (options : Options) (time : Int) :
    Command (Completion Stats) :=
  Pass.underLeaseOn db env owner Lease.snapshots options.leaseTtl (takeAll db options time)

def run (env : Env) (owner : Nat) (options : Options) (time : Int) : Command (Completion Stats) :=
  runOn .sound env owner options time

end Snapshot
end NodeGraph
