import NodeGraph.Json.Printer
import NodeGraph.Settings.Basic
import NodeGraph.Toml.Reader
import NodeGraph.Wire.Reading

/-! Settings as JSON values and as TOML text. -/
namespace NodeGraph

open Json Wire

/-- How many items an array may have that gives the fields of a record in order. -/
inductive Surplus where
  | refused
  | ignored
  deriving DecidableEq, Repr

/-- The fields of a record in which any may be missing, as an object or as an array of the first
of them in order. -/
def Wire.partialRecord (surplus : Surplus) (names : List String) :
    Reading (List (String × Json))
  | obj fields => some fields
  | arr items =>
    if surplus = .refused ∧ names.length < items.length then none else some (names.zip items)
  | _ => none

/-- A field, or the given value where it is missing. -/
def Wire.fieldOr {α : Type} (fields : List (String × Json)) (name : String) (item : Reading α)
    (missing : α) : Option α :=
  match Keyed.get? name fields with
  | none => some missing
  | some v => item v

namespace ProcessorSettings

def fieldNames : List String :=
  ["poll_interval_secs", "pass_timeout_secs"]

def read (surplus : Surplus) : Reading ProcessorSettings := fun v => do
  let fields ← partialRecord surplus fieldNames v
  let missing : ProcessorSettings := {}
  return {
    pollInterval := ← fieldOr fields "poll_interval_secs" nat64 missing.pollInterval
    passTimeout := ← fieldOr fields "pass_timeout_secs" nat64 missing.passTimeout }

def toJson (s : ProcessorSettings) : Json :=
  obj [("poll_interval_secs", int s.pollInterval), ("pass_timeout_secs", int s.passTimeout)]

end ProcessorSettings

namespace SnapshotSettings

def fieldNames : List String :=
  ["interval_secs", "lookback_secs", "timeout_secs"]

def read (surplus : Surplus) : Reading SnapshotSettings := fun v => do
  let fields ← partialRecord surplus fieldNames v
  let missing : SnapshotSettings := {}
  return {
    interval := ← fieldOr fields "interval_secs" nat64 missing.interval
    lookback := ← fieldOr fields "lookback_secs" nat64 missing.lookback
    timeout := ← fieldOr fields "timeout_secs" nat64 missing.timeout }

def toJson (s : SnapshotSettings) : Json :=
  obj [("interval_secs", int s.interval), ("lookback_secs", int s.lookback),
    ("timeout_secs", int s.timeout)]

end SnapshotSettings

/-- A path is given by its text. -/
def Wire.path : Reading RawText := fun v =>
  (text v).map .ofText

namespace Settings

def fieldNames : List String :=
  ["database_path", "tokenizer_model", "strict", "notification_channel", "processor", "snapshot"]

/-- Fields that are missing have their defaults and unknown ones are ignored. -/
def read (surplus : Surplus) : Reading Settings := fun v => do
  let fields ← partialRecord surplus fieldNames v
  let missing : Settings := {}
  return {
    databasePath := ← fieldOr fields "database_path" path missing.databasePath
    tokenizerModel := ← fieldOr fields "tokenizer_model" text missing.tokenizerModel
    strict := ← fieldOr fields "strict" flag missing.strict
    channel := ← fieldOr fields "notification_channel" text missing.channel
    processor := ← fieldOr fields "processor" (ProcessorSettings.read surplus) missing.processor
    snapshot := ← fieldOr fields "snapshot" (SnapshotSettings.read surplus) missing.snapshot }

def ofJson (v : Json) : Except Fault Settings :=
  match read .refused v with
  | some settings => .ok settings
  | none => .error .malformedJson

/-- A path without a text shows as null. -/
def toJson (s : Settings) : Json :=
  obj [
    ("database_path", orNull str s.databasePath.text?), ("tokenizer_model", str s.tokenizerModel),
    ("strict", Json.bool s.strict), ("notification_channel", str s.channel),
    ("processor", s.processor.toJson), ("snapshot", s.snapshot.toJson)]

def ofToml (text : String) : Except Fault Settings :=
  match (Toml.parse text).bind (read .ignored) with
  | some settings => .ok settings
  | none => .error .malformedToml

/-- One line that gives a key its value. -/
def line (key : String) (value : List Char) : List Char :=
  key.toList ++ ' ' :: '=' :: ' ' :: (value ++ ['\n'])

def textLine (key value : String) : List Char :=
  line key (Toml.quoted value)

def flagLine (key : String) (value : Bool) : List Char :=
  line key (if value then "true" else "false").toList

def countLine (key : String) (value : Nat) : List Char :=
  line key (Nat.toDigits 10 value)

/-- The header of a table, after a blank line. -/
def header (name : String) : List Char :=
  '\n' :: '[' :: (name.toList ++ [']', '\n'])

/-- The lines of settings whose database has the path `path`. -/
def chars (path : String) (s : Settings) : List Char :=
  textLine "database_path" path
    ++ textLine "tokenizer_model" s.tokenizerModel
    ++ flagLine "strict" s.strict
    ++ textLine "notification_channel" s.channel
    ++ header "processor"
    ++ countLine "poll_interval_secs" s.processor.pollInterval
    ++ countLine "pass_timeout_secs" s.processor.passTimeout
    ++ header "snapshot"
    ++ countLine "interval_secs" s.snapshot.interval
    ++ countLine "lookback_secs" s.snapshot.lookback
    ++ countLine "timeout_secs" s.snapshot.timeout

/-- The numbers of the settings. -/
def counts (s : Settings) : List Nat :=
  [s.processor.pollInterval, s.processor.passTimeout, s.snapshot.interval, s.snapshot.lookback,
    s.snapshot.timeout]

/-- The settings as TOML, which is a text and whose integers are signed 64-bit ones. -/
def toToml (s : Settings) : Except Fault String :=
  match s.databasePath.text? with
  | some path =>
    if s.counts.all (· < 1 <<< 63) then .ok (.ofList (s.chars path)) else .error .unwritableToml
  | none => .error .unwritableToml

end Settings
end NodeGraph
