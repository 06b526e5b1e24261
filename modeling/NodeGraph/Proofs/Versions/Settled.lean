import NodeGraph.Proofs.Versions.Lineage

/-!
No revision that has settled is missed: while snapshots are taken more often than they look back, a
document that was last written before the interval has a version of its present JSON.
-/
namespace NodeGraph

open Snapshot Store

namespace Operation

variable {options : Options} {clock : ℤ} {op : Operation}

/-- What is done where JSON can be read back that was written, no lease is left behind and all
snapshots are taken of the present with the same options. -/
def Regular (options : Options) (clock : ℤ) : Operation → Prop
  | upsert _ _ _ json => ∃ value, decodePayload (json.map Json.compact) = .ok value
  | snapshot _ given time => given = options ∧ time = Clock.now clock ∧ options.Exact time
  | op => op.Tame

theorem Regular.tame (h : op.Regular options clock) : op.Tame := by
  cases op <;> first | exact trivial | exact h

/-- The time of which a snapshot is taken. -/
def snapshotTime? : Operation → Option ℤ
  | snapshot _ _ time => some time
  | _ => none

theorem snapshotTime?_of_not (h : ¬ op.IsSnapshot) : op.snapshotTime? = none := by
  cases op with
  | snapshot owner given time => exact absurd ⟨owner, given, time, rfl⟩ h
  | _ => rfl

end Operation

variable {tokens : Tokenizer} {env : Env} {options : Options} {passes : List ℤ} {s t : Store}

/-- Without a lease around, a snapshot pass completes. -/
theorem Snapshot.run_of_noLeases (h : s.documents.Numbered (·.id)) (hleases : s.leases = [])
    (env : Env) (owner : ℕ) (options : Options) (time : ℤ) : ∃ stats t,
      run env owner options time s = .ok (.completed stats) t ∧ Wrote options time s t := by
  have hfree : Lease.isTaken env.now Lease.snapshots s = false := by
    unfold Lease.isTaken
    rw [hleases]
    rfl
  set leased := Pass.leased env.now owner Lease.snapshots options.leaseTtl s
  refine ⟨(take options time leased).1, _, ?_, wrote_release_take h
    ⟨Lease.snapshots, owner, Clock.after env.now options.leaseTtl⟩ leased.leases options time⟩
  unfold run
  refine (Pass.underLease_of_free hfree).trans ?_
  rw [takeAll_eq]
  rfl

namespace Store

/-- The latest version of a row has its hash, or the row has been written since, and no pass has
found it settled since then. -/
def Covers (options : Options) (passes : List ℤ) (row : DocumentRow) (latest : Version) : Prop :=
  rowFingerprint row = some latest.fingerprint ∨
    (latest.createdAt ≤ row.updatedAt ∧ ∀ pass ∈ passes, pass - options.interval ≤ row.updatedAt)

/-- What passes at the given times have left. -/
structure Tracked (options : Options) (passes : List ℤ) (s : Store) : Prop extends
    Versioned s where
  stamps : ∀ v ∈ s.versions.rows, v.createdAt ∈ passes
  decodes : ∀ row ∈ s.documents.rows, ∃ json, decodePayload row.json = .ok json
  covered : ∀ row ∈ s.documents.rows, ∀ latest ∈ latest? s.versions.rows row.id,
    Covers options passes row latest

theorem tracked_empty (options : Options) : Tracked options [] {} :=
  ⟨versioned_empty, fun _ hv => absurd hv List.not_mem_nil,
    fun _ hrow => absurd hrow List.not_mem_nil, fun _ hrow => absurd hrow List.not_mem_nil⟩

theorem mem_of_latest? {id : ℤ} {latest : Version} (hs : s.Versioned)
    (h : latest? s.versions.rows id = some latest) :
    latest ∈ s.versions.rows ∧ latest.documentId = id := by
  rw [hs.latest? id] at h
  exact mem_versionsOf.mp (List.mem_of_getLast? h)

theorem Tracked.congr (h : Tracked options passes s) (hdocuments : t.documents = s.documents)
    (hversions : t.versions = s.versions) : Tracked options passes t := by
  have hkept : Retains s t := (spares_of_eq hdocuments hversions).retains h.known
  refine ⟨hkept.versioned h.toVersioned, ?_, ?_, ?_⟩
  · rw [hversions]
    exact h.stamps
  · rw [hdocuments]
    exact h.decodes
  · rw [hdocuments, hversions]
    exact h.covered

/-- A row that is written now has not been settled at any pass so far. -/
theorem covers_of_written (hinterval : 0 ≤ options.interval) (h : Tracked options passes s)
    {now : ℤ} (hpassed : ∀ pass ∈ passes, pass ≤ now) {row : DocumentRow}
    (hrow : row.updatedAt = now) {latest : Version} (hlatest : latest ∈ s.versions.rows) :
    Covers options passes row latest := by
  right
  rw [hrow]
  refine ⟨hpassed _ (h.stamps latest hlatest), fun pass hpass => ?_⟩
  have hle := hpassed pass hpass
  omega

theorem Tracked.upserted (hinterval : 0 ≤ options.interval) (h : Tracked options passes s)
    (hpassed : ∀ pass ∈ passes, pass ≤ env.now) (p : String) (type : DocumentType)
    (data : List UInt8) {json value : Option Json}
    (hjson : decodePayload (json.map Json.compact) = .ok value) :
    Tracked options passes (s.upserted env p type data json) := by
  have hspares := spares_upserted env s p type data json
  have hrows : ∀ row ∈ (s.upserted env p type data json).documents.rows,
      row ∈ s.documents.rows ∨ (row.json = json.map Json.compact ∧ row.updatedAt = env.now) := by
    intro row hrow
    unfold Store.upserted at hrow
    split at hrow
    · rcases List.mem_append.mp hrow with hold | hnew
      · exact Or.inl hold
      · rw [List.mem_singleton.mp hnew]
        exact Or.inr ⟨rfl, rfl⟩
    · obtain ⟨old, hold, rfl⟩ := List.mem_map.mp hrow
      split
      · exact Or.inr ⟨rfl, rfl⟩
      · exact Or.inl hold
  refine ⟨(hspares.retains h.known).versioned h.toVersioned, ?_, fun row hrow => ?_,
    fun row hrow latest hlatest => ?_⟩
  · rw [hspares.versions]
    exact h.stamps
  · rcases hrows row hrow with hold | ⟨hwritten, -⟩
    · exact h.decodes row hold
    · exact ⟨value, hwritten ▸ hjson⟩
  · rw [hspares.versions] at hlatest
    rcases hrows row hrow with hold | ⟨-, hwritten⟩
    · exact h.covered row hold latest hlatest
    · exact covers_of_written hinterval h hpassed hwritten (mem_of_latest? h.toVersioned hlatest).1

theorem Tracked.withoutDocument (h : Tracked options passes s) (env : Env) (p : String)
    (type : DocumentType) : Tracked options passes (s.withoutDocument env p type) := by
  have hretains := retains_withoutDocument env h.known p type
  have hversioned := hretains.versioned h.toVersioned
  have hrows : ∀ row ∈ (s.withoutDocument env p type).documents.rows, row ∈ s.documents.rows := by
    intro row hrow
    unfold Store.withoutDocument at hrow
    split at hrow
    · exact hrow
    · exact (List.mem_filter.mp hrow).1
  refine ⟨hversioned, fun v hv => ?_, fun row hrow => h.decodes row (hrows row hrow),
    fun row hrow latest hlatest => ?_⟩
  · rw [hretains.versions] at hv
    exact h.stamps v (List.mem_filter.mp hv).1
  · rw [Option.mem_def, hversioned.latest? row.id,
      hretains.versionsOf (hasDocumentId_iff.mpr ⟨row, hrow, rfl⟩), ← h.latest? row.id] at hlatest
    exact h.covered row (hrows row hrow) latest hlatest

/-- A row that is neither up to date nor found by a pass has not settled at the pass. -/
theorem not_settled_of_finding {now : ℤ} (hexact : options.Exact now)
    (hgap : ∀ pass ∈ passes.getLast?, now - pass < options.lookback) {row : DocumentRow}
    {hash : String} (hprint : rowFingerprint row = some hash) {latest : Version}
    (hstamp : latest.createdAt ∈ passes) (h : Covers options passes row latest)
    (hfound : finding options now row (some latest) = none) :
    Covers options (passes ++ [now]) row latest := by
  by_cases hsame : hash = latest.fingerprint
  · exact Or.inl (hsame ▸ hprint)
  · obtain ⟨hage, hpasses⟩ := h.resolve_left fun hcurrent =>
      hsame (Option.some.inj (hprint.symm.trans hcurrent))
    have hnotDue : ¬ isDue options now row latest = true := by
      intro hdue
      simp [finding, hdue, newFingerprint, hprint, Option.filter, hsame] at hfound
    rw [hexact.isDue_iff] at hnotDue
    obtain ⟨last, hlast⟩ := Option.isSome_iff_exists.mp
      (List.getLast?_isSome.mpr (List.ne_nil_of_mem hstamp))
    -- The window begins before the last pass looked, so that only its end can leave the row out.
    have hrecent := hgap last hlast
    have hafter := hpasses last (List.mem_of_getLast? hlast)
    have hnow : now - options.interval ≤ row.updatedAt := by omega
    refine Or.inr ⟨hage, fun pass hpass => ?_⟩
    rcases List.mem_append.mp hpass with hold | hnew
    · exact hpasses pass hold
    · exact List.mem_singleton.mp hnew ▸ hnow

theorem exists_rowFingerprint (h : Tracked options passes s) {row : DocumentRow}
    (hrow : row ∈ s.documents.rows) :
    ∃ json, decodePayload row.json = .ok json ∧ rowFingerprint row = some (fingerprint json) := by
  obtain ⟨json, hjson⟩ := h.decodes row hrow
  refine ⟨json, hjson, ?_⟩
  unfold rowFingerprint
  rw [hjson]

/-- A pass leaves every document with a version that is up to date. -/
theorem Tracked.latest_wrote {now : ℤ} (hexact : options.Exact now)
    (hgap : ∀ pass ∈ passes.getLast?, now - pass < options.lookback) (h : Tracked options passes s)
    (hwrote : Wrote options now s t) {row : DocumentRow} (hrow : row ∈ s.documents.rows) :
    ∃ latest, latest? t.versions.rows row.id = some latest ∧
      Covers options (passes ++ [now]) row latest := by
  have hversioned : t.Versioned := h.toVersioned.wrote hexact hwrote
  obtain ⟨json, -, hprint⟩ := exists_rowFingerprint h hrow
  obtain ⟨n, -, hversions⟩ := hwrote.found row hrow
  rw [hversioned.latest? row.id, hversions]
  cases hfound : finding options now row (latest? s.versions.rows row.id) with
  | some hash =>
    refine ⟨copy now row hash n, List.getLast?_concat, Or.inl ?_⟩
    exact rowFingerprint_of_finding hfound
  | none =>
    cases hlatest : latest? s.versions.rows row.id with
    | none =>
      rw [hlatest] at hfound
      exact absurd (hprint.symm.trans hfound) (Option.some_ne_none _)
    | some latest =>
      rw [hlatest] at hfound
      have hstamp := h.stamps latest (mem_of_latest? h.toVersioned hlatest).1
      refine ⟨latest, ?_, not_settled_of_finding hexact hgap hprint hstamp
        (h.covered row hrow latest hlatest) hfound⟩
      rw [Option.map_none, Option.toList_none, List.append_nil, ← h.latest? row.id, hlatest]

theorem Tracked.wrote {now : ℤ} (hexact : options.Exact now)
    (hgap : ∀ pass ∈ passes.getLast?, now - pass < options.lookback) (h : Tracked options passes s)
    (hwrote : Wrote options now s t) : Tracked options (passes ++ [now]) t := by
  refine ⟨h.toVersioned.wrote hexact hwrote, fun v hv => ?_, ?_, fun row hrow latest hlatest => ?_⟩
  · rcases hwrote.mem_cases hv with hold | ⟨row, -, hash, -, hcopy⟩
    · exact List.mem_append_left _ (h.stamps v hold)
    · rw [hcopy]
      exact List.mem_append_right _ (List.mem_singleton.mpr rfl)
  · rw [hwrote.documents]
    exact h.decodes
  · rw [hwrote.documents] at hrow
    obtain ⟨other, hother, hcurrent⟩ := h.latest_wrote hexact hgap hwrote hrow
    obtain rfl : other = latest := Option.some.inj (hother.symm.trans hlatest)
    exact hcurrent

end Store

/-! ### Histories -/

namespace Operation

theorem tracked_perform (quiet : env.rivals = {}) (h : s.Sound env.tokens) (hleases : s.leases = [])
    (hinterval : 0 ≤ options.interval) (htracked : Tracked options passes s) {op : Operation}
    (hregular : op.Regular options env.clock) (hpassed : ∀ pass ∈ passes, pass ≤ env.now)
    (hgap : ∀ time ∈ op.snapshotTime?, ∀ pass ∈ passes.getLast?, time - pass < options.lookback) :
    Tracked options (passes ++ op.snapshotTime?.toList) (op.perform env s) := by
  by_cases hsnapshot : op.IsSnapshot
  · obtain ⟨owner, given, time, rfl⟩ := hsnapshot
    obtain ⟨rfl, -, hexact⟩ := hregular
    obtain ⟨stats, t, hrun, hwrote⟩ :=
      Snapshot.run_of_noLeases h.documentIds hleases env owner given time
    have hperform : (snapshot owner given time).perform env s = t := Command.outcome_of_ok hrun
    rw [hperform]
    exact htracked.wrote hexact (hgap time rfl) hwrote
  · rw [snapshotTime?_of_not hsnapshot, Option.toList_none, List.append_nil]
    by_cases hleaves : op.LeavesDocuments
    · obtain ⟨hdocuments, hversions⟩ := records_perform quiet h hleaves hsnapshot
      exact htracked.congr hdocuments hversions
    · cases op with
      | upsert p type data json =>
        obtain ⟨value, hjson⟩ := hregular
        rw [perform_upsert]
        exact htracked.upserted hinterval hpassed p type data hjson
      | delete p type =>
        rw [perform_delete]
        exact htracked.withoutDocument env p type
      | addDocument cells => exact hregular.elim
      | changeRows table p column cell => exact hregular.elim
      | deleteRows table p => exact hregular.elim
      | _ => exact absurd trivial hleaves

end Operation

namespace History

/-- The times of which snapshots are taken in a history. -/
def passTimes (history : List (ℤ × Operation)) : List ℤ :=
  history.filterMap (·.2.snapshotTime?)

theorem passTimes_concat (history : List (ℤ × Operation)) (entry : ℤ × Operation) :
    passTimes (history ++ [entry]) = passTimes history ++ entry.2.snapshotTime?.toList := by
  unfold passTimes
  rw [List.filterMap_append]
  cases htime : entry.2.snapshotTime? <;> simp [htime]

/-- Histories in which the clock does not go back, JSON can be read back that was written, and
successive passes are less than the lookback apart. -/
structure Steady (options : Options) (history : List (ℤ × Operation)) : Prop where
  clocks : (history.map (·.1)).Pairwise (· ≤ ·)
  regular : ∀ entry ∈ history, entry.2.Regular options entry.1
  gaps : (passTimes history).IsChain fun a b => b - a < options.lookback

theorem Steady.init {past : List (ℤ × Operation)} {entry : ℤ × Operation}
    (h : Steady options (past ++ [entry])) : Steady options past := by
  obtain ⟨hclocks, hregular, hgaps⟩ := h
  rw [List.map_append, List.pairwise_append] at hclocks
  rw [passTimes_concat, List.isChain_append] at hgaps
  exact ⟨hclocks.1, fun other hother => hregular other (List.mem_append_left _ hother), hgaps.1⟩

theorem Steady.last {past : List (ℤ × Operation)} {entry : ℤ × Operation}
    (h : Steady options (past ++ [entry])) : entry.2.Regular options entry.1 :=
  h.regular entry (List.mem_append_right _ (List.mem_singleton.mpr rfl))

theorem Steady.gap {past : List (ℤ × Operation)} {entry : ℤ × Operation}
    (h : Steady options (past ++ [entry])) : ∀ time ∈ entry.2.snapshotTime?,
      ∀ pass ∈ (passTimes past).getLast?, time - pass < options.lookback := by
  intro time htime pass hpass
  have hgaps := h.gaps
  rw [passTimes_concat, List.isChain_append] at hgaps
  refine hgaps.2.2 pass hpass time ?_
  rw [htime]
  rfl

/-- No pass has been taken later than now. -/
theorem Steady.le_now {past : List (ℤ × Operation)} {entry : ℤ × Operation}
    (h : Steady options (past ++ [entry])) : ∀ pass ∈ passTimes past, pass ≤ Clock.now entry.1 := by
  intro pass hpass
  obtain ⟨⟨clock, op⟩, hother, htime⟩ := List.mem_filterMap.mp hpass
  have hlater : clock ≤ entry.1 := by
    have hclocks := h.clocks
    rw [List.map_append, List.pairwise_append] at hclocks
    exact hclocks.2.2 clock (List.mem_map_of_mem hother) entry.1 (List.mem_singleton.mpr rfl)
  cases op with
  | snapshot owner given time =>
    obtain ⟨-, hnow, -⟩ := h.init.regular _ hother
    have hsame : pass = Clock.now clock := (Option.some.inj htime).symm.trans hnow
    rw [hsame]
    exact Clock.now_mono hlater
  | _ => exact nomatch htime

theorem tracked_run (tokens : Tokenizer) (hinterval : 0 ≤ options.interval)
    {history : List (ℤ × Operation)} (h : Steady options history) :
    (run tokens history {}).Sound tokens ∧ (run tokens history {}).leases = [] ∧
      Tracked options (passTimes history) (run tokens history {}) := by
  induction history using List.reverseRecOn with
  | nil => exact ⟨Store.sound_empty tokens, rfl, tracked_empty options⟩
  | append_singleton past entry ih =>
    obtain ⟨hsound, hleases, htracked⟩ := ih h.init
    have hquiet : ({ clock := entry.1, tokens } : Env).rivals = {} := rfl
    rw [run_concat, passTimes_concat]
    refine ⟨?_, ?_, ?_⟩
    · exact Operation.perform_sound hquiet h.last.tame.held hsound
    · exact Operation.leases_perform hquiet h.last.tame hsound hleases
    · exact Operation.tracked_perform hquiet hsound hleases hinterval htracked h.last h.le_now h.gap

/-- A snapshot of the present. -/
def snapshotNow (clock : ℤ) (owner : ℕ) (options : Snapshot.Options) : ℤ × Operation :=
  (clock, .snapshot owner options (Clock.now clock))

/-- While the clock does not go back and successive passes are less than the lookback apart, each
pass completes, and then every document that was last written before the interval has a version, the
latest of which has the hash of its present JSON. -/
theorem settled_captured (tokens : Tokenizer) (options : Snapshot.Options)
    (past : List (ℤ × Operation)) (clock : ℤ) (owner : ℕ)
    (hsteady : Steady options (past ++ [snapshotNow clock owner options])) :
    ∃ stats present,
      Snapshot.run { clock, tokens } owner options (Clock.now clock) (run tokens past {}) =
        .ok (.completed stats) present ∧
      run tokens (past ++ [snapshotNow clock owner options]) {} = present ∧
      ∀ row ∈ present.documents.rows, row.updatedAt < Clock.now clock - options.interval →
        ∃ latest json, Snapshot.latest? present.versions.rows row.id = some latest ∧
          decodePayload row.json = .ok json ∧ latest.fingerprint = fingerprint json := by
  obtain ⟨-, -, hexact⟩ := hsteady.last
  obtain ⟨hsound, hleases, htracked⟩ := tracked_run tokens hexact.interval hsteady.init
  obtain ⟨stats, present, hrun, hwrote⟩ := Snapshot.run_of_noLeases hsound.documentIds hleases
    { clock, tokens } owner options (Clock.now clock)
  refine ⟨stats, present, hrun, ?_, ?_⟩
  · rw [run_concat]
    exact Command.outcome_of_ok hrun
  · intro row hrow hsettled
    rw [hwrote.documents] at hrow
    obtain ⟨json, hjson, hprint⟩ := exists_rowFingerprint htracked hrow
    obtain ⟨latest, hlatest, hcovers⟩ :=
      htracked.latest_wrote hexact (hsteady.gap _ rfl) hwrote hrow
    refine ⟨latest, json, hlatest, hjson, ?_⟩
    rcases hcovers with hsame | ⟨-, hpasses⟩
    · exact Option.some.inj (hsame.symm.trans hprint)
    · have hunsettled := hpasses _ (List.mem_append_right _ (List.mem_singleton.mpr rfl))
      omega

/-- A document is written once more after its first version. -/
def writtenAgain : List (ℤ × Operation) :=
  [(1000, .upsert "n" .editor [1] (some (.int 1))),
    snapshotNow 1000 1 { interval := 100, lookback := 1000, leaseTtl := 60000 },
    (1100, .upsert "n" .editor [2] (some (.int 2)))]

theorem settled_captured_writtenAgain :
    let options : Snapshot.Options := { interval := 100, lookback := 1000, leaseTtl := 60000 }
    let history := writtenAgain ++ [snapshotNow 1300 2 options]
    Steady options history ∧
      (run String.length history {}).versions.rows.map (·.createdAt) = [1000, 1300] ∧
      ∃ stats present,
        Snapshot.run { clock := 1300, tokens := String.length } 2 options (Clock.now 1300)
          (run String.length writtenAgain {}) = .ok (.completed stats) present ∧
        run String.length history {} = present ∧
        ∀ row ∈ present.documents.rows, row.updatedAt < 1200 →
          ∃ latest json, Snapshot.latest? present.versions.rows row.id = some latest ∧
            decodePayload row.json = .ok json ∧ latest.fingerprint = fingerprint json := by
  intro options history
  have hwindow : ∀ time, 1000 ≤ time ∧ time ≤ 1300 → options.Exact time := by
    intro time htime
    constructor <;> simp only [Clock.IsInt64, options] <;> omega
  have hregular : ∀ entry ∈ history, entry.2.Regular options entry.1 := by
    simp only [history, writtenAgain, snapshotNow, List.cons_append, List.nil_append,
      List.forall_mem_cons, List.not_mem_nil, IsEmpty.forall_iff, implies_true, and_true]
    exact ⟨⟨some (.int 1), rfl⟩, ⟨rfl, rfl, hwindow _ (by decide)⟩,
      ⟨some (.int 2), rfl⟩, rfl, rfl, hwindow _ (by decide)⟩
  have hsteady : Steady options history := ⟨by decide, hregular, by decide⟩
  exact ⟨hsteady, by decide +kernel,
    settled_captured String.length options writtenAgain 1300 2 hsteady⟩

end History
end NodeGraph
