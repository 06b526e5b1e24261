import NodeGraph.Proofs.Versions.Findings

/-!
Snapshot passes look at each document by itself: what a pass writes of it depends on its row and its
versions alone. Every document that is looked at is counted once.
-/
namespace NodeGraph.Snapshot

variable {s t : Store} {options : Options} {now : ℤ} {row : DocumentRow} {id : ℤ}

/-! ### The decision -/

theorem latest?_congr (h : s.versionsOf id = t.versionsOf id) :
    latest? s.versions.rows id = latest? t.versions.rows id := by
  unfold Store.versionsOf at h
  unfold latest?
  rw [h]

/-- No version is written of a document whose value is not understood. -/
theorem finding_of_not_decoded (h : ∀ json, decodePayload row.json ≠ .ok json)
    (latest : Option Version) : finding options now row latest = none := by
  cases hfound : finding options now row latest with
  | none => rfl
  | some hash =>
    obtain ⟨json, hjson, -⟩ := decodes_of_rowFingerprint (rowFingerprint_of_finding hfound)
    exact absurd hjson (h json)

/-! ### Counting -/

/-- How many documents a pass has looked at. -/
def Stats.total (stats : Stats) : ℕ :=
  stats.created + stats.unchanged + stats.initial + stats.invalid

theorem total_revise (acc : Stats × Store) (due : DocumentRow × Version) :
    (revise now acc due).1.total = acc.1.total + 1 := by
  unfold revise Stats.total
  dsimp only
  split
  · dsimp only
    omega
  · split <;> dsimp only <;> omega

theorem total_initiate (acc : Stats × Store) (row : DocumentRow) :
    (initiate now acc row).1.total = acc.1.total + 1 := by
  unfold initiate Stats.total
  dsimp only
  split <;> dsimp only <;> omega

/-- Where each step counts one, all are counted. -/
theorem total_foldl {α : Type} {step : Stats × Store → α → Stats × Store}
    (hstep : ∀ acc a, (step acc a).1.total = acc.1.total + 1) (items : List α)
    (acc : Stats × Store) : (items.foldl step acc).1.total = acc.1.total + items.length := by
  induction items generalizing acc with
  | nil => rfl
  | cons a rest ih =>
    rw [List.foldl_cons, ih, hstep, List.length_cons]
    omega

theorem isUnversioned_iff (s : Store) (row : DocumentRow) :
    (!s.versions.any (·.documentId = row.id)) = true ↔
      decide (s.versionsOf row.id = []) = true := by
  unfold Store.versionsOf Table.any
  rw [decide_eq_true_eq, List.filter_eq_nil_iff]
  simp

/-- Whoever has versions after the due documents had some before. -/
theorem unversioned_revised (h : s.documents.Numbered (·.id)) :
    unversioned (revised options now s) = unversioned s := by
  unfold unversioned
  rw [documents_revised]
  apply List.filter_congr
  intro row hrow
  rw [Bool.eq_iff_iff, isUnversioned_iff, isUnversioned_iff, decide_eq_true_eq, decide_eq_true_eq]
  cases hlatest : latest? s.versions.rows row.id with
  | none => rw [versionsOf_revised_of_none hlatest]
  | some latest =>
    have hsome : s.versionsOf row.id ≠ [] := fun hempty => by
      rw [latest?_eq_none.mpr hempty] at hlatest
      exact nomatch hlatest
    obtain ⟨n, -, hversions⟩ := versionsOf_revised options now h hrow hlatest
    rw [hversions, List.append_eq_nil_iff]
    constructor
    · exact And.left
    · exact fun hempty => absurd hempty hsome

theorem length_unversioned (s : Store) : (unversioned s).length =
    s.documents.rows.countP fun row => s.versionsOf row.id = [] := by
  unfold unversioned
  rw [← List.countP_eq_length_filter]
  exact List.countP_congr fun row _ => by rw [isUnversioned_iff]

theorem length_dueDocuments (options : Options) (now : ℤ) (s : Store) :
    (dueDocuments options now s).length = s.documents.rows.countP fun row =>
      (latest? s.versions.rows row.id).any (isDue options now row) := by
  unfold dueDocuments
  rw [List.length_filterMap_eq_countP]
  apply List.countP_congr
  intro row _
  cases latest? s.versions.rows row.id with
  | none => rfl
  | some latest => cases hdue : isDue options now row latest <;> simp [hdue]

/-- A pass looks at the documents that are due and at those without versions. -/
theorem total_take (h : s.documents.Numbered (·.id)) : (take options now s).1.total =
    (s.documents.rows.countP fun row => s.versionsOf row.id = []) +
      s.documents.rows.countP fun row =>
        (latest? s.versions.rows row.id).any (isDue options now row) := by
  have hrevised : ((dueDocuments options now s).foldl (revise now) ({}, s)).2 =
      revised options now s := foldl_revise _ _
  have hstart : (({}, s) : Stats × Store).1.total = 0 := rfl
  unfold take
  dsimp only
  rw [total_foldl total_initiate, total_foldl total_revise, hrevised, unversioned_revised h,
    length_unversioned, length_dueDocuments, hstart]
  omega

/-- With durations that are exact, a document is due in the window that they say. -/
theorem Options.Exact.isDue_eq (h : options.Exact now) (row : DocumentRow) :
    isDue options now row = fun latest => decide (latest.createdAt < now - options.interval ∧
      now - options.interval - options.lookback < row.updatedAt ∧
      row.updatedAt < now - options.interval) := by
  funext latest
  rw [Bool.eq_iff_iff, h.isDue_iff, decide_eq_true_eq]

/-! ### A whole pass -/

/-- A pass that finds its lease free completes: it has written what is to be written of each
document, and counted those that are due and those without versions. -/
theorem run_of_free (h : s.documents.Numbered (·.id)) {env : Env} (owner : ℕ) (options : Options)
    (time : ℤ) (hfree : Lease.isTaken env.now Lease.snapshots s = false) :
    ∃ stats t, run env owner options time s = .ok (.completed stats) t ∧
      Wrote options time s t ∧ stats.total =
        (s.documents.rows.countP fun row => s.versionsOf row.id = []) +
          s.documents.rows.countP fun row =>
            (latest? s.versions.rows row.id).any (isDue options time row) := by
  let u := Pass.leased env.now owner Lease.snapshots options.leaseTtl s
  have hrun : run env owner options time s = .ok (.completed (take options time u).1)
      (Lease.release ⟨Lease.snapshots, owner, Clock.after env.now options.leaseTtl⟩
        (take options time u).2) := by
    refine (Pass.underLease_of_free hfree).trans ?_
    rw [takeAll_eq]
  have hleased : u.documents.Numbered (·.id) := h
  refine ⟨(take options time u).1, _, hrun, ?_, ?_⟩
  · exact wrote_release_take h _ u.leases options time
  · exact total_take hleased

/-- Of two stores, whatever else they hold and whoever runs a pass over them: a document that is in
both with the same versions gets the same version in both, or none. -/
theorem run_local (hexact : options.Exact now) (hs : s.documents.Numbered (·.id))
    (ht : t.documents.Numbered (·.id)) {env env' : Env} (owner owner' : ℕ)
    (hfree : Lease.isTaken env.now Lease.snapshots s = false)
    (hfree' : Lease.isTaken env'.now Lease.snapshots t = false) :
    ∃ stats stats' u v, run env owner options now s = .ok (.completed stats) u ∧
      run env' owner' options now t = .ok (.completed stats') v ∧
      (∀ row ∈ s.documents.rows, row ∈ t.documents.rows →
        t.versionsOf row.id = s.versionsOf row.id →
        ∃ (found : Option String) (n n' : ℤ),
          u.versionsOf row.id =
            s.versionsOf row.id ++ (found.map fun hash => copy now row hash n).toList ∧
          v.versionsOf row.id =
            t.versionsOf row.id ++ (found.map fun hash => copy now row hash n').toList) ∧
      (∀ id, u.versionsOf id = s.versionsOf id ∨
        ∃ version, u.versionsOf id = s.versionsOf id ++ [version]) ∧
      (∀ row ∈ s.documents.rows, (∀ json, decodePayload row.json ≠ .ok json) →
        u.versionsOf row.id = s.versionsOf row.id) ∧
      stats.created + stats.unchanged + stats.initial + stats.invalid =
        (s.documents.rows.countP fun row => s.versionsOf row.id = []) +
          s.documents.rows.countP fun row => (latest? s.versions.rows row.id).any fun latest =>
            latest.createdAt < now - options.interval ∧
            now - options.interval - options.lookback < row.updatedAt ∧
            row.updatedAt < now - options.interval := by
  obtain ⟨stats, u, hrun, hwrote, htotal⟩ := run_of_free hs owner options now hfree
  obtain ⟨stats', v, hrun', hwrote', -⟩ := run_of_free ht owner' options now hfree'
  refine ⟨stats, stats', u, v, hrun, hrun', ?_, ?_, ?_, ?_⟩
  · intro row hrow hrow' hversions
    obtain ⟨n, -, hu⟩ := hwrote.found row hrow
    obtain ⟨n', -, hv⟩ := hwrote'.found row hrow'
    rw [latest?_congr hversions] at hv
    exact ⟨_, n, n', hu, hv⟩
  · intro id
    rcases hwrote.cases id with hsame | ⟨row, -, -, hash, n, -, -, hwritten⟩
    · exact Or.inl hsame
    · exact Or.inr ⟨_, hwritten⟩
  · intro row hrow hjson
    obtain ⟨n, -, hu⟩ := hwrote.found row hrow
    rw [hu, finding_of_not_decoded hjson]
    exact List.append_nil _
  · simp only [hexact.isDue_eq] at htotal
    exact htotal

/-- A document that has changed since its only version. -/
def changedRow : DocumentRow :=
  ⟨1, "a", "EDITOR", [1], some "7", 100, 6000⟩

/-- The document beside one that is not understood, and beside another. -/
def besideBroken : Store where
  documents := { rows := [changedRow, ⟨2, "b", "EDITOR", [], some "[", 100, 6000⟩], lastId := 2 }
  versions := { rows := [⟨1, "a", "EDITOR", 1, "", [], 200⟩], lastId := 1 }

def besideOther : Store where
  documents := { rows := [changedRow, ⟨5, "c", "SPACE", [], none, 100, 6000⟩], lastId := 5 }
  versions := { rows := [⟨1, "a", "EDITOR", 1, "", [], 200⟩], lastId := 9 }

theorem run_local_besideBroken :
    let options : Options := { interval := 1000, lookback := 5000, leaseTtl := 60000 }
    let env : Env := { clock := 10000, tokens := String.length }
    ∃ stats stats' u v, run env 1 options 10000 besideBroken = .ok (.completed stats) u ∧
      run env 2 options 10000 besideOther = .ok (.completed stats') v ∧
      (u.versionsOf 1).map (fun version => (version.fingerprint, version.createdAt)) =
        (v.versionsOf 1).map (fun version => (version.fingerprint, version.createdAt)) ∧
      (u.versionsOf 1).length = 2 ∧ u.versionsOf 2 = [] ∧
      stats.created + stats.unchanged + stats.initial + stats.invalid = 2 := by
  intro options env
  have hexact : options.Exact 10000 := by
    constructor <;> simp [options, Clock.IsInt64]
  have hbroken : besideBroken.documents.Numbered (·.id) := ⟨by decide, by decide⟩
  have hfree : Lease.isTaken env.now Lease.snapshots besideBroken = false := by decide
  have hfree' : Lease.isTaken env.now Lease.snapshots besideOther = false := by decide
  have hother : besideOther.documents.Numbered (·.id) := ⟨by decide, by decide⟩
  obtain ⟨stats, stats', u, v, hrun, hrun', hsame, -, hundecoded, htotal⟩ :=
    run_local hexact hbroken hother 1 2 hfree hfree'
  refine ⟨stats, stats', u, v, hrun, hrun', ?_, ?_, ?_, ?_⟩
  · obtain ⟨found, n, n', hu, hv⟩ := hsame changedRow (by decide) (by decide) (by decide)
    have hu : u.versionsOf 1 = _ := hu
    have hv : v.versionsOf 1 = _ := hv
    rw [hu, hv]
    cases found <;> rfl
  · have hend : u = ((run env 1 options 10000).outcome besideBroken).2 := by
      rw [Command.outcome_of_ok hrun]
    rw [hend]
    decide +kernel
  · apply hundecoded ⟨2, "b", "EDITOR", [], some "[", 100, 6000⟩ (by decide)
    intro json hjson
    cases hjson
  · rw [htotal]
    decide

end NodeGraph.Snapshot
