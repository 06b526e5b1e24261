import NodeGraph.Proofs.Keyed
import NodeGraph.Proofs.Toml.Reader
import NodeGraph.Settings.Folder

/-!
Settings in a file: what is written to it is what is read from it, and settings that cannot be
written leave it as it is.
-/
namespace NodeGraph

open Toml

theorem RawText.text?_ofText (s : String) : (ofText s).text? = some s := by
  have hbytes : (⟨(ofText s).bytes.toArray⟩ : ByteArray) = s.toByteArray := rfl
  unfold text? String.fromUTF8?
  rw [hbytes, dif_pos s.isValidUTF8]
  rfl

theorem RawText.text?_eq_some_iff {raw : RawText} {s : String} :
    raw.text? = some s ↔ raw = .ofText s := by
  constructor
  · intro h
    unfold text? String.fromUTF8? at h
    split_ifs at h with hvalid
    rw [← Option.some.inj h]
    rfl
  · rintro rfl
    exact text?_ofText s

/-! ### Files -/

namespace Folder

variable {path name text : String} {folder written : Folder}

theorem write_eq_ok_iff : folder.write path text = .ok written ↔
    ∃ name, place path = .file name ∧ written = folder.insert name (.ofText text) := by
  unfold write
  split
  · rename_i name hplace
    simp [hplace, eq_comm]
  all_goals
    rename_i hplace
    simp [hplace]

theorem read_insert (h : place path = .file name) (text : String) (folder : Folder) :
    read path (folder.insert name (.ofText text)) = .ok (some text) := by
  simp only [read, h, Keyed.get?_insert_self, RawText.text?_ofText]

end Folder

/-! ### Numbers -/

theorem Wire.nat64_intCast {n : ℕ} (h : n < 1 <<< 63) : nat64 (.int n) = some n := by
  have hlimit : 1 <<< 63 = 2 ^ 63 := rfl
  have hsize : UInt64.size = 2 ^ 64 := rfl
  simp only [nat64]
  rw [if_pos (by omega), Int.toNat_natCast]

theorem Wire.fieldOr_of_get? {α : Type} {fields : Keyed Json} {name : String} {v : Json}
    (h : fields.get? name = some v) (item : Reading α) (missing : α) :
    fieldOr fields name item missing = item v := by
  rw [fieldOr, h]

theorem Wire.fieldOr_count {fields : Keyed Json} {name : String} {n : ℕ}
    (h : fields.get? name = some (.int n)) (hn : n < 1 <<< 63) (missing : ℕ) :
    fieldOr fields name nat64 missing = some n := by
  rw [fieldOr_of_get? h, nat64_intCast hn]

/-- Settings are read from any table that has their fields. -/
theorem ProcessorSettings.read_obj {s : ProcessorSettings} {fields : Keyed Json}
    (hpoll : s.pollInterval < 1 <<< 63) (hpass : s.passTimeout < 1 <<< 63)
    (hpollField : fields.get? "poll_interval_secs" = some (.int s.pollInterval))
    (hpassField : fields.get? "pass_timeout_secs" = some (.int s.passTimeout)) :
    ProcessorSettings.read .ignored (.obj fields) = some s := by
  simp only [ProcessorSettings.read, Wire.partialRecord, Wire.fieldOr_count hpollField hpoll,
    Wire.fieldOr_count hpassField hpass, Option.bind_eq_bind, Option.bind_some]
  rfl

theorem SnapshotSettings.read_obj {s : SnapshotSettings} {fields : Keyed Json}
    (hinterval : s.interval < 1 <<< 63) (hlookback : s.lookback < 1 <<< 63)
    (htimeout : s.timeout < 1 <<< 63)
    (hintervalField : fields.get? "interval_secs" = some (.int s.interval))
    (hlookbackField : fields.get? "lookback_secs" = some (.int s.lookback))
    (htimeoutField : fields.get? "timeout_secs" = some (.int s.timeout)) :
    SnapshotSettings.read .ignored (.obj fields) = some s := by
  simp only [SnapshotSettings.read, Wire.partialRecord,
    Wire.fieldOr_count hintervalField hinterval, Wire.fieldOr_count hlookbackField hlookback,
    Wire.fieldOr_count htimeoutField htimeout, Option.bind_eq_bind, Option.bind_some]
  rfl

/-- The table of the lines of settings, its fields in the order of their keys. -/
def ProcessorSettings.table (s : ProcessorSettings) : Keyed Json :=
  [("pass_timeout_secs", .int s.passTimeout), ("poll_interval_secs", .int s.pollInterval)]

def SnapshotSettings.table (s : SnapshotSettings) : Keyed Json :=
  [("interval_secs", .int s.interval), ("lookback_secs", .int s.lookback),
    ("timeout_secs", .int s.timeout)]

namespace Settings

variable {settings : Settings} {path key : String} {folder : Folder}

/-! ### Lines -/

theorem readLines_textLine (hkey : Bare key) (s : String) (fuel : ℕ) (rest : List Char) :
    readLines (fuel + 1) (textLine key s ++ rest) =
      (readLines fuel rest).map (.assign [key] (.str s) :: ·) := by
  rw [← readLines_assign hkey (writes_quoted s)]
  simp [textLine, line]

theorem readLines_flagLine (hkey : Bare key) (b : Bool) (fuel : ℕ) (rest : List Char) :
    readLines (fuel + 1) (flagLine key b ++ rest) =
      (readLines fuel rest).map (.assign [key] (.bool b) :: ·) := by
  rw [← readLines_assign hkey (writes_flag b)]
  simp [flagLine, line]

theorem readLines_countLine (hkey : Bare key) {n : ℕ} (h : n < 1 <<< 63) (fuel : ℕ)
    (rest : List Char) : readLines (fuel + 1) (countLine key n ++ rest) =
      (readLines fuel rest).map (.assign [key] (.int n) :: ·) := by
  rw [← readLines_assign hkey (writes_toDigits h)]
  simp [countLine, line]

/-- The blank line before a header says nothing. -/
theorem readLines_header_append (hkey : Bare key) (fuel : ℕ) (rest : List Char) :
    readLines (fuel + 2) (header key ++ rest) =
      (readLines fuel rest).map (.declare [key] :: ·) := by
  rw [← readLines_header hkey, ← readLines_feed (fuel + 1)]
  simp [header]

/-- What the lines of settings say. -/
def statements (path : String) (s : Settings) : List Statement := [
  .assign ["database_path"] (.str path),
  .assign ["tokenizer_model"] (.str s.tokenizerModel),
  .assign ["strict"] (.bool s.strict),
  .assign ["notification_channel"] (.str s.channel),
  .declare ["processor"],
  .assign ["poll_interval_secs"] (.int s.processor.pollInterval),
  .assign ["pass_timeout_secs"] (.int s.processor.passTimeout),
  .declare ["snapshot"],
  .assign ["interval_secs"] (.int s.snapshot.interval),
  .assign ["lookback_secs"] (.int s.snapshot.lookback),
  .assign ["timeout_secs"] (.int s.snapshot.timeout)]

theorem readLines_chars (hcounts : ∀ n ∈ settings.counts, n < 1 <<< 63) (fuel : ℕ) :
    readLines (fuel + 14) (settings.chars path) = some (statements path settings) := by
  simp only [counts, List.forall_mem_cons] at hcounts
  obtain ⟨hpoll, hpass, hinterval, hlookback, htimeout, -⟩ := hcounts
  have hend : readLines (fuel + 1) [] = some [] := rfl
  rw [chars, ← List.append_nil (countLine "timeout_secs" _)]
  simp only [List.append_assoc]
  rw [readLines_textLine (by decide), readLines_textLine (by decide),
    readLines_flagLine (by decide), readLines_textLine (by decide),
    readLines_header_append (by decide), readLines_countLine (by decide) hpoll,
    readLines_countLine (by decide) hpass,
    readLines_header_append (by decide), readLines_countLine (by decide) hinterval,
    readLines_countLine (by decide) hlookback, readLines_countLine (by decide) htimeout, hend]
  rfl

/-- The table that the lines of settings make, its fields in the order of their keys. -/
def table (path : String) (s : Settings) : Keyed Json := [
  ("database_path", .str path), ("notification_channel", .str s.channel),
  ("processor", .obj s.processor.table), ("snapshot", .obj s.snapshot.table),
  ("strict", .bool s.strict), ("tokenizer_model", .str s.tokenizerModel)]

theorem assemble_statements (path : String) (s : Settings) :
    assemble (statements path s) = some (.obj (table path s)) := by
  rfl

theorem read_obj {fields : Keyed Json}
    (hdatabase : fields.get? "database_path" = some (.str path))
    (hmodel : fields.get? "tokenizer_model" = some (.str settings.tokenizerModel))
    (hstrict : fields.get? "strict" = some (.bool settings.strict))
    (hchannel : fields.get? "notification_channel" = some (.str settings.channel))
    (hprocessor : fields.get? "processor" = some (.obj settings.processor.table))
    (hsnapshot : fields.get? "snapshot" = some (.obj settings.snapshot.table))
    (hcounts : ∀ n ∈ settings.counts, n < 1 <<< 63)
    (hpath : settings.databasePath = .ofText path) :
    read .ignored (.obj fields) = some settings := by
  simp only [counts, List.forall_mem_cons] at hcounts
  obtain ⟨hpoll, hpass, hinterval, hlookback, htimeout, -⟩ := hcounts
  have hreadProcessor : ProcessorSettings.read .ignored (.obj settings.processor.table) =
      some settings.processor := ProcessorSettings.read_obj hpoll hpass rfl rfl
  have hreadSnapshot : SnapshotSettings.read .ignored (.obj settings.snapshot.table) =
      some settings.snapshot := SnapshotSettings.read_obj hinterval hlookback htimeout rfl rfl rfl
  simp only [read, Wire.partialRecord, Wire.fieldOr_of_get? hdatabase,
    Wire.fieldOr_of_get? hmodel, Wire.fieldOr_of_get? hstrict, Wire.fieldOr_of_get? hchannel,
    Wire.fieldOr_of_get? hprocessor, Wire.fieldOr_of_get? hsnapshot, hreadProcessor,
    hreadSnapshot, Wire.path, Wire.text, Wire.flag, Json.string?, Option.map_some,
    Option.bind_eq_bind, Option.bind_some, ← hpath]
  rfl

theorem skipMark_chars (path : String) (s : Settings) : skipMark (s.chars path) = s.chars path :=
  rfl

theorem length_chars (path : String) (s : Settings) : 14 ≤ (s.chars path).length := by
  simp [chars, textLine, line]

/-- Saved settings are loaded as they were. -/
theorem ofToml_chars (hcounts : ∀ n ∈ settings.counts, n < 1 <<< 63)
    (hpath : settings.databasePath = .ofText path) :
    ofToml (.ofList (settings.chars path)) = .ok settings := by
  have hread : read .ignored (.obj (table path settings)) = some settings :=
    read_obj rfl rfl rfl rfl rfl rfl hcounts hpath
  have hlength := length_chars path settings
  obtain ⟨fuel, hfuel⟩ : ∃ fuel, (settings.chars path).length + 1 = fuel + 14 :=
    ⟨(settings.chars path).length - 13, by omega⟩
  have hparse : parse (.ofList (settings.chars path)) = some (.obj (table path settings)) := by
    unfold parse
    dsimp only
    rw [String.toList_ofList, skipMark_chars, hfuel, readLines_chars hcounts]
    exact assemble_statements path settings
  rw [ofToml, hparse, Option.bind_some, hread]

/-! ### Saving and loading -/

theorem lt_limit_iff {n : ℕ} : n < 1 <<< 63 ↔ (n : ℤ) ≤ Int64.maxValue.toInt := by
  have hlimit : 1 <<< 63 = 2 ^ 63 := rfl
  have hmost : Int64.maxValue.toInt = 2 ^ 63 - 1 := rfl
  omega

theorem toToml_eq_ok_iff {text : String} : settings.toToml = .ok text ↔
    ∃ path, settings.databasePath = .ofText path ∧ (∀ n ∈ settings.counts, n < 1 <<< 63) ∧
      text = .ofList (settings.chars path) := by
  unfold toToml
  constructor
  · intro h
    split at h
    · rename_i path hpath
      split_ifs at h with hcounts
      exact ⟨path, RawText.text?_eq_some_iff.mp hpath, by simpa using hcounts,
        (Except.ok.inj h).symm⟩
    · exact nomatch h
  · rintro ⟨path, hpath, hcounts, rfl⟩
    rw [hpath, RawText.text?_ofText]
    exact if_pos (by simpa using hcounts)

/-- Settings are written unless their path has no text or a number is too large. -/
theorem toToml_eq_error_iff {fault : Fault} : settings.toToml = .error fault ↔
    fault = .unwritableToml ∧
      (settings.databasePath.text? = none ∨ ∃ n ∈ settings.counts, Int64.maxValue.toInt < n) := by
  unfold toToml
  constructor
  · intro h
    split at h
    · rename_i path hpath
      split_ifs at h with hcounts
      rw [List.all_eq_true] at hcounts
      push Not at hcounts
      obtain ⟨n, hn, hlarge⟩ := hcounts
      rw [ne_eq, decide_eq_true_iff, lt_limit_iff, not_le] at hlarge
      exact ⟨(Except.error.inj h).symm, Or.inr ⟨n, hn, hlarge⟩⟩
    · rename_i hpath
      exact ⟨(Except.error.inj h).symm, Or.inl hpath⟩
  · rintro ⟨rfl, hpath | ⟨n, hn, hlarge⟩⟩
    · rw [hpath]
    · have hcounts : ¬(settings.counts.all (· < 1 <<< 63) = true) := fun hall =>
        not_le.mpr hlarge (lt_limit_iff.mp (of_decide_eq_true (List.all_eq_true.mp hall n hn)))
      split
      · exact if_neg hcounts
      · rfl

/-- The text of settings says what they are. -/
theorem ofToml_of_toToml {text : String} (h : settings.toToml = .ok text) :
    ofToml text = .ok settings := by
  obtain ⟨path, hpath, hcounts, rfl⟩ := toToml_eq_ok_iff.mp h
  exact ofToml_chars hcounts hpath

/-- The folder after an attempt to save. -/
def afterSaving (settings : Settings) (path : String) (folder : Folder) : Folder :=
  match settings.save path folder with
  | .ok written => written
  | .error _ => folder

theorem save_eq_ok_iff {written : Folder} : settings.save path folder = .ok written ↔
    ∃ text name, settings.toToml = .ok text ∧ Folder.place path = .file name ∧
      written = folder.insert name (.ofText text) := by
  have hsave : settings.save path folder =
      settings.toToml.bind fun text => folder.write path text := rfl
  rw [hsave]
  cases settings.toToml with
  | error fault => simp [Except.bind]
  | ok text => simp [Except.bind, Folder.write_eq_ok_iff]

/-- Settings that have been saved are loaded, unless they leave a worker no time. -/
theorem load_of_save {written : Folder} (h : settings.save path folder = .ok written) :
    load path written =
      if settings.lacksTime then .error (.zeroTimeout path) else .ok settings := by
  obtain ⟨text, name, htext, hplace, rfl⟩ := save_eq_ok_iff.mp h
  have hread := Folder.read_insert hplace text folder
  simp only [load, hread, bind, Except.bind, ofToml_of_toToml htext]
  split_ifs <;> rfl

/-- Whatever a file holds, settings that are saved to it are loaded from it, whatever characters
their texts have, and no other file changes. Settings that are no TOML change nothing. -/
theorem save_then_load (settings : Settings) (path : String) (folder : Folder) :
    (∀ database name, settings.databasePath = .ofText database →
      (∀ n ∈ settings.counts, (n : ℤ) ≤ Int64.maxValue.toInt) →
      1 ≤ settings.processor.passTimeout → 1 ≤ settings.snapshot.timeout →
      Folder.place path = .file name →
        (∃ written, settings.save path folder = .ok written) ∧
        load path (settings.afterSaving path folder) = .ok settings ∧
        ∀ other ≠ name, (settings.afterSaving path folder).get? other = folder.get? other) ∧
    ((∃ fault, settings.toToml = .error fault) ↔ settings.databasePath.text? = none ∨
      ∃ n ∈ settings.counts, Int64.maxValue.toInt < n) ∧
    ∀ fault, settings.toToml = .error fault →
      settings.save path folder = .error fault ∧ settings.afterSaving path folder = folder ∧
        load path (settings.afterSaving path folder) = load path folder := by
  refine ⟨?_, ?_, ?_⟩
  · intro database name hdatabase hcounts hpass htimeout hplace
    have htext := toToml_eq_ok_iff.mpr
      ⟨database, hdatabase, fun n hn => lt_limit_iff.mpr (hcounts n hn), rfl⟩
    have hsave : settings.save path folder = .ok _ :=
      save_eq_ok_iff.mpr ⟨_, name, htext, hplace, rfl⟩
    have hlacks : settings.lacksTime = false := by
      simp only [lacksTime, Bool.or_eq_false_iff, decide_eq_false_iff_not]
      omega
    rw [afterSaving, hsave]
    refine ⟨⟨_, rfl⟩, ?_, ?_⟩
    · rw [load_of_save hsave, hlacks]
      rfl
    · intro other hother
      rw [Keyed.get?_insert, if_neg hother.symm]
  · simp only [toToml_eq_error_iff, exists_eq_left]
  · intro fault hfault
    have hsave : settings.save path folder = .error fault := by
      unfold save
      rw [hfault]
      rfl
    have hafter : settings.afterSaving path folder = folder := by rw [afterSaving, hsave]
    rw [hafter]
    exact ⟨hsave, rfl, rfl⟩

/-- Settings with texts that have to be quoted, and with the largest number. -/
def awkward : Settings where
  databasePath := "a \"b\" 'c' \\ # = [d]"
  tokenizerModel := "'''\"\"\"\n\t\r\x00\x7f"
  channel := "\n\"\"\"\"\\"
  snapshot := { lookback := 9223372036854775807 }

/-- A file that is no text is replaced, but not by settings with a number that is too large or a
path that is no text. -/
theorem save_then_load_awkward :
    load defaultPath (awkward.afterSaving defaultPath [(defaultPath, ⟨[0xff]⟩)]) = .ok awkward ∧
    afterSaving { processor := { passTimeout := 9223372036854775808 } } defaultPath
      [(defaultPath, ⟨[0xff]⟩)] = [(defaultPath, ⟨[0xff]⟩)] ∧
    afterSaving { databasePath := ⟨[0xff]⟩ } defaultPath [(defaultPath, ⟨[0xff]⟩)] =
      [(defaultPath, ⟨[0xff]⟩)] := by
  refine ⟨?_, ?_, ?_⟩
  · exact ((save_then_load awkward defaultPath _).1 _ defaultPath rfl (by decide) (by decide)
      (by decide) (by decide)).2.1
  · exact ((save_then_load _ defaultPath _).2.2 .unwritableToml (by decide)).2.1
  · exact ((save_then_load _ defaultPath _).2.2 .unwritableToml (by decide)).2.1

end Settings
end NodeGraph
