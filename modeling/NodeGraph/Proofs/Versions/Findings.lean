import NodeGraph.Proofs.Clock
import NodeGraph.Proofs.Snapshot

/-!
What a snapshot pass makes of one document, whatever the others are: whether a version of it is
written depends on its row and on its latest version.
-/
namespace NodeGraph

/-- The versions of a document, in the order in which they were written. -/
def Store.versionsOf (s : Store) (id : ℤ) : List Version :=
  s.versions.rows.filter (·.documentId = id)

theorem Store.mem_versionsOf {s : Store} {id : ℤ} {v : Version} :
    v ∈ s.versionsOf id ↔ v ∈ s.versions.rows ∧ v.documentId = id := by
  unfold versionsOf
  rw [List.mem_filter, decide_eq_true_eq]

namespace Snapshot

/-- The version that is written of a document. -/
def copy (now : ℤ) (row : DocumentRow) (hash : String) (id : ℤ) : Version :=
  { id, publicId := row.publicId, type := row.type, documentId := row.id, fingerprint := hash
    data := row.data, createdAt := now }

/-- The hash of a document that is not that of its latest version. -/
def newFingerprint (row : DocumentRow) (latest : Version) : Option String :=
  (rowFingerprint row).filter (· ≠ latest.fingerprint)

/-- The hash with which a version of a document is written, if one is. -/
def finding (options : Options) (now : ℤ) (row : DocumentRow) : Option Version → Option String
  | none => rowFingerprint row
  | some latest => if isDue options now row latest then newFingerprint row latest else none

theorem rowFingerprint_of_finding {options : Options} {now : ℤ} {row : DocumentRow}
    {latest : Option Version} {hash : String} (h : finding options now row latest = some hash) :
    rowFingerprint row = some hash := by
  cases latest with
  | none => exact h
  | some latest =>
    simp only [finding] at h
    split at h
    · exact (Option.filter_eq_some_iff.mp h).1
    · exact nomatch h

theorem decodes_of_rowFingerprint {row : DocumentRow} {hash : String}
    (h : rowFingerprint row = some hash) :
    ∃ json, decodePayload row.json = .ok json ∧ hash = fingerprint json := by
  unfold rowFingerprint at h
  split at h
  · rename_i json hjson
    exact ⟨json, hjson, (Option.some.inj h).symm⟩
  · exact nomatch h

variable {s : Store} {options : Options} {now : ℤ} {row : DocumentRow} {id : ℤ}

/-! ### The window -/

theorem lowerThreshold_eq_before (options : Options) (now : ℤ) :
    lowerThreshold options now = Clock.before now (options.interval + options.lookback) :=
  Clock.before_before now options.interval options.lookback

/-- Durations that are none of them negative, and with which 64 bits hold the window of a pass. -/
structure Options.Exact (options : Options) (now : ℤ) : Prop where
  interval : 0 ≤ options.interval
  lookback : 0 ≤ options.lookback
  upper : Clock.IsInt64 (now - options.interval)
  lower : Clock.IsInt64 (now - (options.interval + options.lookback))

theorem Options.Exact.isDue_iff (h : options.Exact now) {latest : Version} :
    isDue options now row latest = true ↔ latest.createdAt < now - options.interval ∧
      now - options.interval - options.lookback < row.updatedAt ∧
      row.updatedAt < now - options.interval := by
  have hthreshold : threshold options now = now - options.interval :=
    Clock.before_eq_sub.mpr h.upper
  have hlower : lowerThreshold options now = now - options.interval - options.lookback := by
    rw [lowerThreshold_eq_before, Clock.before_eq_sub.mpr h.lower]
    omega
  unfold isDue
  rw [decide_eq_true_eq, hthreshold, hlower]

/-! ### Writing -/

/-- Writes the version of a document, if there is a hash for it. -/
def record (now : ℤ) (s : Store) (item : DocumentRow × Option String) : Store :=
  match item.2 with
  | none => s
  | some hash => writeVersion now item.1 hash s

theorem documents_record (item : DocumentRow × Option String) :
    (record now s item).documents = s.documents := by
  unfold record
  split <;> rfl

theorem lastId_record (item : DocumentRow × Option String) :
    s.versions.lastId ≤ (record now s item).versions.lastId := by
  unfold record
  split
  · exact le_rfl
  · exact (Int.lt_succ _).le

theorem lastId_foldl_record (items : List (DocumentRow × Option String)) :
    s.versions.lastId ≤ (items.foldl (record now) s).versions.lastId := by
  induction items generalizing s with
  | nil => exact le_rfl
  | cons item rest ih => exact (lastId_record item).trans ih

theorem documents_foldl_record (items : List (DocumentRow × Option String)) :
    (items.foldl (record now) s).documents = s.documents := by
  induction items generalizing s with
  | nil => rfl
  | cons item rest ih => exact ih.trans (documents_record item)

theorem versionsOf_record (item : DocumentRow × Option String) :
    (record now s item).versionsOf item.1.id = s.versionsOf item.1.id ++
      (item.2.map fun hash => copy now item.1 hash s.versions.nextId).toList := by
  obtain ⟨row, found⟩ := item
  cases found with
  | none => exact (List.append_nil _).symm
  | some hash =>
    show (s.versions.rows ++ [copy now row hash s.versions.nextId]).filter _ = _
    rw [List.filter_append]
    simp [Store.versionsOf, copy]

theorem versionsOf_record_of_ne {item : DocumentRow × Option String}
    (h : item.2 = none ∨ item.1.id ≠ id) :
    (record now s item).versionsOf id = s.versionsOf id := by
  obtain ⟨row, found⟩ := item
  cases found with
  | none => rfl
  | some hash =>
    have hne : row.id ≠ id := h.resolve_left (Option.some_ne_none hash)
    show (s.versions.rows ++ [copy now row hash s.versions.nextId]).filter _ = _
    rw [List.filter_append]
    simp [Store.versionsOf, copy, hne]

theorem versionsOf_foldl_record_of_ne {items : List (DocumentRow × Option String)}
    (h : ∀ item ∈ items, item.1.id ≠ id) :
    (items.foldl (record now) s).versionsOf id = s.versionsOf id := by
  induction items generalizing s with
  | nil => rfl
  | cons item rest ih =>
    have hfirst : (record now s item).versionsOf id = s.versionsOf id :=
      versionsOf_record_of_ne (Or.inr (h item List.mem_cons_self))
    exact (ih fun other hother => h other (List.mem_cons_of_mem _ hother)).trans hfirst

/-- Where no document comes up twice, each gets the version that is to be written of it, with an
id above all that were given. -/
theorem versionsOf_foldl_record (now : ℤ) (s : Store) {items : List (DocumentRow × Option String)}
    (hids : (items.map (·.1.id)).Nodup) {found : Option String} (hitem : (row, found) ∈ items) :
    ∃ n, s.versions.lastId < n ∧ (items.foldl (record now) s).versionsOf row.id =
      s.versionsOf row.id ++ (found.map fun hash => copy now row hash n).toList := by
  induction items generalizing s with
  | nil => exact absurd hitem List.not_mem_nil
  | cons item rest ih =>
    obtain ⟨hid, hrest⟩ := List.nodup_cons.mp hids
    rcases List.mem_cons.mp hitem with rfl | hlater
    · refine ⟨s.versions.nextId, Int.lt_succ _, ?_⟩
      rw [List.foldl_cons, versionsOf_foldl_record_of_ne, versionsOf_record]
      exact fun other hother heq => hid (List.mem_map.mpr ⟨other, hother, heq⟩)
    · have hne : item.1.id ≠ row.id := fun heq =>
        hid (List.mem_map.mpr ⟨(row, found), hlater, heq.symm⟩)
      obtain ⟨n, hn, hversions⟩ := ih (record now s item) hrest hlater
      refine ⟨n, (lastId_record item).trans_lt hn, ?_⟩
      rw [List.foldl_cons, hversions, versionsOf_record_of_ne (Or.inr hne)]

/-! ### The two halves of a pass -/

theorem foldl_revise (due : List (DocumentRow × Version)) (acc : Stats × Store) :
    (due.foldl (revise now) acc).2 = (due.map fun entry =>
      (entry.1, newFingerprint entry.1 entry.2)).foldl (record now) acc.2 := by
  induction due generalizing acc with
  | nil => rfl
  | cons first rest ih =>
    rw [List.foldl_cons, List.map_cons, List.foldl_cons, ih]
    congr 1
    unfold revise record newFingerprint
    dsimp only
    cases hhash : rowFingerprint first.1 with
    | none => rfl
    | some hash =>
      by_cases hsame : hash = first.2.fingerprint
      · simp [hsame, Option.filter]
      · simp [hsame, Option.filter]

theorem foldl_initiate (rows : List DocumentRow) (acc : Stats × Store) :
    (rows.foldl (initiate now) acc).2 =
      (rows.map fun row => (row, rowFingerprint row)).foldl (record now) acc.2 := by
  induction rows generalizing acc with
  | nil => rfl
  | cons first rest ih =>
    rw [List.foldl_cons, List.map_cons, List.foldl_cons, ih]
    congr 1
    unfold initiate record
    dsimp only
    cases rowFingerprint first <;> rfl

/-- The store after the documents that were due. -/
def revised (options : Options) (now : ℤ) (s : Store) : Store :=
  ((dueDocuments options now s).map fun entry =>
    (entry.1, newFingerprint entry.1 entry.2)).foldl (record now) s

theorem documents_revised : (revised options now s).documents = s.documents :=
  documents_foldl_record _

theorem lastId_revised : s.versions.lastId ≤ (revised options now s).versions.lastId :=
  lastId_foldl_record _

theorem take_eq (options : Options) (now : ℤ) (s : Store) : (take options now s).2 =
    ((unversioned (revised options now s)).map fun row =>
      (row, rowFingerprint row)).foldl (record now) (revised options now s) := by
  have hrevised : ((dueDocuments options now s).foldl (revise now) ({}, s)).2 =
      revised options now s := foldl_revise _ _
  unfold take
  dsimp only
  rw [foldl_initiate, hrevised]

theorem mem_dueDocuments {latest : Version} : (row, latest) ∈ dueDocuments options now s ↔
    row ∈ s.documents.rows ∧ latest? s.versions.rows row.id = some latest ∧
      isDue options now row latest = true := by
  unfold dueDocuments
  rw [List.mem_filterMap]
  constructor
  · rintro ⟨other, hother, hlooked⟩
    split at hlooked
    · rename_i found hfound
      split at hlooked
      · rename_i hdue
        obtain ⟨rfl, rfl⟩ := Prod.mk.inj (Option.some.inj hlooked)
        exact ⟨hother, hfound, hdue⟩
      · exact nomatch hlooked
    · exact nomatch hlooked
  · rintro ⟨hrow, hlatest, hdue⟩
    exact ⟨row, hrow, by simp [hlatest, hdue]⟩

theorem latest?_eq_none {versions : List Version} :
    latest? versions id = none ↔ versions.filter (·.documentId = id) = [] := by
  unfold latest?
  split
  · rename_i hnone
    simp [hnone]
  · rename_i hsome
    simp [hsome]

theorem mem_unversioned :
    row ∈ unversioned s ↔ row ∈ s.documents.rows ∧ s.versionsOf row.id = [] := by
  unfold unversioned Store.versionsOf
  rw [List.mem_filter, List.filter_eq_nil_iff, Bool.not_eq_true', ← Bool.not_eq_true, Table.any_iff]
  simp

theorem nodup_map_of_sublist {rows : List DocumentRow} (h : s.documents.Numbered (·.id))
    (hrows : rows.Sublist s.documents.rows) : (rows.map (·.id)).Nodup :=
  h.nodup.sublist (hrows.map _)

theorem sublist_dueDocuments (options : Options) (now : ℤ) (s : Store) :
    ((dueDocuments options now s).map (·.1)).Sublist s.documents.rows := by
  unfold dueDocuments
  induction s.documents.rows with
  | nil => exact List.Sublist.slnil
  | cons first rest ih =>
    rw [List.filterMap_cons]
    split
    · exact ih.cons _
    · rename_i entry hentry
      have hfirst : entry.1 = first := by
        split at hentry
        · split at hentry
          · rw [← Option.some.inj hentry]
          · exact nomatch hentry
        · exact nomatch hentry
      rw [List.map_cons, hfirst]
      exact ih.cons_cons _

theorem documents_take : (take options now s).2.documents = s.documents := by
  obtain ⟨versions, htaken⟩ := take_onlyVersions options now s
  rw [htaken]

/-- A document without versions is not due. -/
theorem versionsOf_revised_of_none (h : latest? s.versions.rows id = none) :
    (revised options now s).versionsOf id = s.versionsOf id := by
  refine versionsOf_foldl_record_of_ne fun item hitem => ?_
  obtain ⟨entry, hentry, rfl⟩ := List.mem_map.mp hitem
  rintro rfl
  rw [(mem_dueDocuments.mp hentry).2.1] at h
  exact nomatch h

/-- A document with versions gets another one if it is due and has changed. -/
theorem versionsOf_revised (options : Options) (now : ℤ) (h : s.documents.Numbered (·.id))
    (hrow : row ∈ s.documents.rows) {latest : Version}
    (hlatest : latest? s.versions.rows row.id = some latest) :
    ∃ n, s.versions.lastId < n ∧ (revised options now s).versionsOf row.id =
      s.versionsOf row.id ++ ((finding options now row (some latest)).map fun hash =>
        copy now row hash n).toList := by
  cases hdue : isDue options now row latest with
  | true =>
    have hids : (((dueDocuments options now s).map fun entry =>
        (entry.1, newFingerprint entry.1 entry.2)).map (·.1.id)).Nodup := by
      have hdueIds := nodup_map_of_sublist h (sublist_dueDocuments options now s)
      rwa [List.map_map] at hdueIds ⊢
    have hitem : (row, newFingerprint row latest) ∈ (dueDocuments options now s).map fun entry =>
        (entry.1, newFingerprint entry.1 entry.2) :=
      List.mem_map.mpr ⟨(row, latest), mem_dueDocuments.mpr ⟨hrow, hlatest, hdue⟩, rfl⟩
    obtain ⟨n, hn, hversions⟩ := versionsOf_foldl_record now s hids hitem
    refine ⟨n, hn, hversions.trans ?_⟩
    simp only [finding, hdue, if_true]
  | false =>
    refine ⟨s.versions.nextId, Int.lt_succ _, ?_⟩
    simp only [finding, hdue, Bool.false_eq_true, if_false, Option.map_none, Option.toList_none,
      List.append_nil]
    refine versionsOf_foldl_record_of_ne fun item hitem heq => ?_
    obtain ⟨entry, hentry, rfl⟩ := List.mem_map.mp hitem
    obtain ⟨hmem, hfound, hlooked⟩ := mem_dueDocuments.mp hentry
    rw [h.eq_of_id_eq hmem hrow heq] at hfound hlooked
    rw [hlatest] at hfound
    rw [← Option.some.inj hfound, hdue] at hlooked
    exact nomatch hlooked

/-- What a pass has written of a document, seen from the document. -/
theorem versionsOf_take (h : s.documents.Numbered (·.id)) (hrow : row ∈ s.documents.rows) :
    ∃ n, s.versions.lastId < n ∧ (take options now s).2.versionsOf row.id = s.versionsOf row.id ++
      ((finding options now row (latest? s.versions.rows row.id)).map fun hash =>
        copy now row hash n).toList := by
  have hdocuments : (revised options now s).documents = s.documents := documents_revised
  rw [take_eq]
  -- A document is looked at in one half of the pass: which one is settled by what it had before.
  cases hlatest : latest? s.versions.rows row.id with
  | none =>
    have hkept : (revised options now s).versionsOf row.id = s.versionsOf row.id :=
      versionsOf_revised_of_none hlatest
    have hnone : s.versionsOf row.id = [] := latest?_eq_none.mp hlatest
    have hids : (((unversioned (revised options now s)).map fun row =>
        (row, rowFingerprint row)).map (·.1.id)).Nodup := by
      rw [List.map_map]
      exact nodup_map_of_sublist (hdocuments.symm ▸ h) List.filter_sublist
    have hitem : (row, rowFingerprint row) ∈ (unversioned (revised options now s)).map fun row =>
        (row, rowFingerprint row) :=
      List.mem_map_of_mem (mem_unversioned.mpr ⟨hdocuments ▸ hrow, hkept.trans hnone⟩)
    obtain ⟨n, hn, hversions⟩ :=
      versionsOf_foldl_record now (revised options now s) hids hitem
    refine ⟨n, lastId_revised.trans_lt hn, ?_⟩
    rw [hversions, hkept]
    rfl
  | some latest =>
    obtain ⟨n, hn, hversions⟩ := versionsOf_revised options now h hrow hlatest
    refine ⟨n, hn, ?_⟩
    rw [versionsOf_foldl_record_of_ne, hversions]
    intro item hitem heq
    obtain ⟨other, hfresh, rfl⟩ := List.mem_map.mp hitem
    obtain ⟨hmem, hnone⟩ := mem_unversioned.mp hfresh
    have hsome : s.versionsOf row.id ≠ [] := fun hnone => by
      rw [latest?_eq_none.mpr hnone] at hlatest
      exact nomatch hlatest
    have hsame : other = row := h.eq_of_id_eq (hdocuments ▸ hmem) hrow heq
    rw [hsame, hversions] at hnone
    exact hsome (List.append_eq_nil_iff.mp hnone).1

/-- No version is written of a document that is not there. -/
theorem versionsOf_take_of_absent (h : s.hasDocumentId id = false) :
    (take options now s).2.versionsOf id = s.versionsOf id := by
  have hne : ∀ row ∈ s.documents.rows, row.id ≠ id := by
    rintro row hrow rfl
    rw [Store.hasDocumentId_iff.mpr ⟨row, hrow, rfl⟩] at h
    exact nomatch h
  have hrevised : (revised options now s).versionsOf id = s.versionsOf id := by
    refine versionsOf_foldl_record_of_ne fun item hitem => ?_
    obtain ⟨entry, hentry, rfl⟩ := List.mem_map.mp hitem
    exact hne entry.1 (mem_dueDocuments.mp hentry).1
  have hdocuments : (revised options now s).documents = s.documents := documents_revised
  rw [take_eq, versionsOf_foldl_record_of_ne, hrevised]
  intro item hitem
  obtain ⟨row, hrow, rfl⟩ := List.mem_map.mp hitem
  exact hne row (hdocuments ▸ (mem_unversioned.mp hrow).1)

theorem numbered_take (h : s.versions.Numbered (·.id)) :
    (take options now s).2.versions.Numbered (·.id) := by
  refine take_induction (P := fun t : Store => t.versions.Numbered (·.id)) options now h
    fun t row hash _ _ ht => ?_
  show (t.versions.add (copy now row hash)).Numbered (·.id)
  exact ht.add rfl

/-! ### Under the lease -/

/-- What a pass that was carried out has made of a store. -/
structure Wrote (options : Options) (time : ℤ) (s t : Store) : Prop where
  documents : t.documents = s.documents
  numbered : s.versions.Numbered (·.id) → t.versions.Numbered (·.id)
  found : ∀ row ∈ s.documents.rows, ∃ n, s.versions.lastId < n ∧ t.versionsOf row.id =
    s.versionsOf row.id ++ ((finding options time row (latest? s.versions.rows row.id)).map
      fun hash => copy time row hash n).toList
  absent : ∀ id, s.hasDocumentId id = false → t.versionsOf id = s.versionsOf id

/-- A lease has nothing to do with it. -/
theorem wrote_release_take (h : s.documents.Numbered (·.id)) (lease : Lease)
    (leases : List LeaseRow) (options : Options) (time : ℤ) :
    Wrote options time s (lease.release (take options time { s with leases }).2) := by
  have hleased : ({ s with leases } : Store).documents.Numbered (·.id) := h
  refine ⟨documents_take, fun hnumbered => ?_, fun row hrow => ?_, fun id hid => ?_⟩
  · exact numbered_take (s := { s with leases }) hnumbered
  · exact versionsOf_take hleased hrow
  · exact versionsOf_take_of_absent (s := { s with leases }) hid

theorem run_wrote (h : s.documents.Numbered (·.id)) (env : Env) (owner : ℕ) (options : Options)
    (time : ℤ) : ((run env owner options time).outcome s).2 = s ∨
      Wrote options time s ((run env owner options time).outcome s).2 := by
  rcases run_taken env owner options time s with hsame | htaken
  · exact Or.inl hsame
  · right
    rw [htaken]
    exact wrote_release_take h _ _ options time

/-- A document gets no version, or one that is a copy of it. -/
theorem Wrote.cases {t : Store} {time : ℤ} (h : Wrote options time s t) (id : ℤ) :
    t.versionsOf id = s.versionsOf id ∨ ∃ row ∈ s.documents.rows, row.id = id ∧
      ∃ hash n, s.versions.lastId < n ∧
        finding options time row (latest? s.versions.rows id) = some hash ∧
        t.versionsOf id = s.versionsOf id ++ [copy time row hash n] := by
  cases hid : s.hasDocumentId id with
  | false => exact Or.inl (h.absent id hid)
  | true =>
    obtain ⟨row, hrow, rfl⟩ := Store.hasDocumentId_iff.mp hid
    obtain ⟨n, hn, hversions⟩ := h.found row hrow
    cases hfound : finding options time row (latest? s.versions.rows row.id) with
    | none =>
      left
      rw [hversions, hfound]
      exact List.append_nil _
    | some hash =>
      right
      rw [hfound] at hversions
      exact ⟨row, hrow, rfl, hash, n, hn, hfound, hversions⟩

/-- A version that was not there is a copy of a document. -/
theorem Wrote.mem_cases {t : Store} {time : ℤ} (h : Wrote options time s t) {v : Version}
    (hv : v ∈ t.versions.rows) : v ∈ s.versions.rows ∨ ∃ row ∈ s.documents.rows, ∃ hash,
      rowFingerprint row = some hash ∧ v = copy time row hash v.id := by
  have hpresent : v ∈ t.versionsOf v.documentId := Store.mem_versionsOf.mpr ⟨hv, rfl⟩
  rcases h.cases v.documentId with hsame | ⟨row, hrow, -, hash, n, -, hfound, hwritten⟩
  · rw [hsame] at hpresent
    exact Or.inl (Store.mem_versionsOf.mp hpresent).1
  · rw [hwritten] at hpresent
    rcases List.mem_append.mp hpresent with hold | hnew
    · exact Or.inl (Store.mem_versionsOf.mp hold).1
    · have hcopy : v = copy time row hash n := List.mem_singleton.mp hnew
      refine Or.inr ⟨row, hrow, hash, rowFingerprint_of_finding hfound, ?_⟩
      rw [hcopy]
      rfl

end Snapshot
end NodeGraph
