import NodeGraph.Proofs.Versions.Records

/-!
The versions of a document over a whole history: they are copies of it at different times, the
times increase, neighbours differ, and while the document stays none is changed or taken away.
-/
namespace NodeGraph

/-! ### The latest version -/

namespace Snapshot

theorem foldl_later {v : Version} {rest : List Version}
    (h : (v :: rest).Pairwise (·.createdAt < ·.createdAt)) :
    some (rest.foldl later v) = (v :: rest).getLast? := by
  induction rest generalizing v with
  | nil => rfl
  | cons w rest ih =>
    obtain ⟨hfirst, hrest⟩ := List.pairwise_cons.mp h
    have hlater : later v w = w := by
      unfold later
      exact if_pos (stampLe_iff.mpr (Or.inl (hfirst w List.mem_cons_self)))
    rw [List.foldl_cons, hlater, ih hrest, List.getLast?_cons_cons]

/-- Where times increase, the version that was written last is the latest. -/
theorem latest?_eq_getLast? {s : Store} {id : ℤ}
    (h : (s.versionsOf id).Pairwise (·.createdAt < ·.createdAt)) :
    latest? s.versions.rows id = (s.versionsOf id).getLast? := by
  unfold latest? Store.versionsOf at *
  split
  · rename_i hnone
    rw [hnone]
    rfl
  · rename_i v rest hsome
    rw [hsome] at h ⊢
    exact foldl_later h

/-- The last of increasing times is the greatest. -/
theorem createdAt_le_last {versions : List Version} {v last : Version}
    (h : versions.Pairwise (·.createdAt < ·.createdAt)) (hlast : versions.getLast? = some last)
    (hv : v ∈ versions) : v.createdAt ≤ last.createdAt := by
  obtain ⟨front, rfl⟩ := List.getLast?_eq_some_iff.mp hlast
  rcases List.mem_append.mp hv with hfront | hend
  · exact ((List.pairwise_append.mp h).2.2 v hfront last (List.mem_singleton.mpr rfl)).le
  · exact (congrArg Version.createdAt (List.mem_singleton.mp hend)).le

end Snapshot

open Snapshot

namespace Store

variable {tokens : Tokenizer} {env : Env} {options : Options} {time : ℤ} {s t u : Store}

/-- What holds of the versions of each document. -/
structure Versioned (s : Store) : Prop where
  numbered : s.versions.Numbered (·.id)
  known : s.Known
  ages : ∀ id, (s.versionsOf id).Pairwise (·.createdAt < ·.createdAt)
  changes : ∀ id, (s.versionsOf id).IsChain (·.fingerprint ≠ ·.fingerprint)

theorem versioned_empty : Versioned {} :=
  ⟨Table.numbered_empty, fun _ hv => absurd hv List.not_mem_nil, fun _ => List.Pairwise.nil,
    fun _ => List.IsChain.nil⟩

theorem Versioned.latest? (h : s.Versioned) (id : ℤ) :
    latest? s.versions.rows id = (s.versionsOf id).getLast? :=
  latest?_eq_getLast? (h.ages id)

theorem Versioned.ids (h : s.Versioned) (id : ℤ) : (s.versionsOf id).Pairwise (·.id < ·.id) :=
  (List.pairwise_map.mp h.numbered.1).filter _

theorem Retains.versioned (h : Retains s t) (hs : s.Versioned) : t.Versioned := by
  have hversions : ∀ id, t.versionsOf id = s.versionsOf id ∨ t.versionsOf id = [] := by
    intro id
    cases hid : t.hasDocumentId id with
    | true => exact Or.inl (h.versionsOf hid)
    | false => exact Or.inr (h.known.versionsOf_of_absent hid)
  refine ⟨?_, h.known, fun id => ?_, fun id => ?_⟩
  · rw [h.versions]
    exact hs.numbered.keep _
  · rcases hversions id with hkept | hgone
    · rw [hkept]
      exact hs.ages id
    · rw [hgone]
      exact List.Pairwise.nil
  · rcases hversions id with hkept | hgone
    · rw [hkept]
      exact hs.changes id
    · rw [hgone]
      exact List.IsChain.nil

/-- A version is written of a document only if the latest one is older and differs from it. -/
theorem finding_after (hexact : options.Exact time) {row : DocumentRow} {latest : Version}
    {hash : String} (h : finding options time row (some latest) = some hash) :
    latest.createdAt < time ∧ latest.fingerprint ≠ hash := by
  simp only [finding] at h
  split at h
  · rename_i hdue
    obtain ⟨hsettled, -, -⟩ := hexact.isDue_iff.mp hdue
    have hinterval := hexact.interval
    refine ⟨by omega, fun heq => ?_⟩
    have hdiffers := (Option.filter_eq_some_iff.mp h).2
    simp [heq] at hdiffers
  · cases h

theorem Versioned.wrote (hexact : options.Exact time) (hs : s.Versioned)
    (h : Wrote options time s t) : t.Versioned := by
  have hknown : t.Known := by
    intro v hv
    have hthere : s.hasDocumentId v.documentId = true := by
      rcases h.mem_cases hv with hold | ⟨row, hrow, hash, -, hcopy⟩
      · exact hs.known v hold
      · rw [hcopy]
        exact hasDocumentId_iff.mpr ⟨row, hrow, rfl⟩
    unfold Store.hasDocumentId at hthere ⊢
    rwa [h.documents]
  -- A new version comes after the last of the others, so that it is enough to look at that one.
  have hlast : ∀ id row hash, finding options time row (Snapshot.latest? s.versions.rows id) =
      some hash → ∀ v ∈ (s.versionsOf id).getLast?, v.createdAt < time ∧ v.fingerprint ≠ hash := by
    intro id row hash hfound v hv
    rw [hs.latest? id, hv] at hfound
    exact finding_after hexact hfound
  refine ⟨h.numbered hs.numbered, hknown, fun id => ?_, fun id => ?_⟩
  · rcases h.cases id with hsame | ⟨row, -, -, hash, n, -, hfound, hwritten⟩
    · rw [hsame]
      exact hs.ages id
    · rw [hwritten, List.pairwise_append]
      refine ⟨hs.ages id, List.pairwise_singleton _ _, fun v hv w hw => ?_⟩
      rw [List.mem_singleton.mp hw]
      cases hend : (s.versionsOf id).getLast? with
      | none => exact absurd (List.getLast?_eq_none_iff.mp hend) (List.ne_nil_of_mem hv)
      | some last =>
        have hle : v.createdAt ≤ last.createdAt := createdAt_le_last (hs.ages id) hend hv
        exact hle.trans_lt (hlast id row hash hfound last hend).1
  · rcases h.cases id with hsame | ⟨row, -, -, hash, n, -, hfound, hwritten⟩
    · rw [hsame]
      exact hs.changes id
    · rw [hwritten, List.isChain_append]
      refine ⟨hs.changes id, List.isChain_singleton _, fun v hv w hw => ?_⟩
      obtain rfl := Option.some.inj hw
      exact (hlast id row hash hfound v hv).2

/-! ### From one store to a later one -/

/-- The documents of `t` are those of `s` or newer, and those that are there have all the versions
that they had. -/
structure Keeps (s t : Store) : Prop where
  documents : s.documents.Continues (·.id) (fun _ => ()) t.documents
  versions : ∀ id, t.hasDocumentId id = true → s.versionsOf id <+: t.versionsOf id

theorem keeps_refl (s : Store) : Keeps s s :=
  ⟨.refl _, fun _ _ => List.prefix_rfl⟩

theorem Keeps.trans (hids : s.documents.Numbered (·.id)) (hknown : s.Known) (h : Keeps s t)
    (h' : Keeps t u) : Keeps s u := by
  refine ⟨h.documents.trans h'.documents, fun id hid => ?_⟩
  cases hversions : s.versionsOf id with
  | nil => exact List.nil_prefix
  | cons v rest =>
    have hv : v ∈ s.versionsOf id := hversions ▸ List.mem_cons_self
    obtain ⟨hmem, rfl⟩ := mem_versionsOf.mp hv
    have hle := (hknown.le_lastId hids hmem).trans h.documents.lastId
    have hthere := hasDocumentId_of_continues h'.documents hle hid
    rw [← hversions]
    exact (h.versions _ hthere).trans (h'.versions _ hid)

theorem Retains.keeps (h : Retains s t) : Keeps s t := by
  refine ⟨h.documents, fun id hid => ?_⟩
  rw [h.versionsOf hid]

theorem keeps_of_wrote (h : Wrote options time s t) : Keeps s t := by
  refine ⟨Table.continues_of_eq h.documents, fun id _ => ?_⟩
  rcases h.cases id with hsame | ⟨_, -, -, _, _, -, -, hwritten⟩
  · rw [hsame]
  · rw [hwritten]
    exact List.prefix_append _ _

/-- Since `s` no document has been written, and at most one version of each, with the hash that the
document has. -/
structure Settles (s t : Store) : Prop where
  documents : t.documents = s.documents
  versions : ∀ id, t.versionsOf id = s.versionsOf id ∨
    ∃ row ∈ s.documents.rows, row.id = id ∧ ∃ v,
      rowFingerprint row = some v.fingerprint ∧ t.versionsOf id = s.versionsOf id ++ [v]

theorem settles_refl (s : Store) : Settles s s :=
  ⟨rfl, fun _ => Or.inl rfl⟩

/-- A document that has its latest version gets none. -/
theorem Settles.wrote (hexact : options.Exact time) (hids : s.documents.Numbered (·.id))
    (ht : t.Versioned) (h : Settles s t) (hwrote : Wrote options time t u) : Settles s u := by
  refine ⟨hwrote.documents.trans h.documents, fun id => ?_⟩
  rcases hwrote.cases id with hsame | ⟨row, hrow, hid, hash, n, -, hfound, hwritten⟩
  · rw [hsame]
    exact h.versions id
  · rw [h.documents] at hrow
    rcases h.versions id with hkept | ⟨other, hother, hotherId, v, hprint, hversions⟩
    · refine Or.inr ⟨row, hrow, hid, copy time row hash n, rowFingerprint_of_finding hfound, ?_⟩
      rw [hwritten, hkept]
    · obtain rfl : other = row := hids.eq_of_id_eq hother hrow (hotherId.trans hid.symm)
      have hlatest : Snapshot.latest? t.versions.rows id = some v := by
        rw [ht.latest? id, hversions, List.getLast?_concat]
      rw [hlatest] at hfound
      have hdiffers := (finding_after hexact hfound).2
      rw [rowFingerprint_of_finding hfound] at hprint
      exact absurd (Option.some.inj hprint).symm hdiffers

end Store

/-! ### Histories -/

namespace Operation

open Store

variable {env : Env} {s : Store} {op : Operation}

/-- The durations of a snapshot are not negative, and its window can be reckoned. -/
def Exact : Operation → Prop
  | snapshot _ options time => options.Exact time
  | _ => True

theorem perform_snapshot (h : s.documents.Numbered (·.id)) (owner : ℕ) (options : Options)
    (time : ℤ) : (snapshot owner options time).perform env s = s ∨
      Wrote options time s ((snapshot owner options time).perform env s) :=
  run_wrote h env owner options time

theorem perform_cases (quiet : env.rivals = {}) (h : s.Sound env.tokens) (hknown : s.Known)
    (op : Operation) :
    (∃ owner options time, op = snapshot owner options time ∧
        Wrote options time s (op.perform env s)) ∨ Retains s (op.perform env s) := by
  by_cases hsnapshot : op.IsSnapshot
  · obtain ⟨owner, options, time, rfl⟩ := hsnapshot
    rcases perform_snapshot h.documentIds owner options time with hsame | hwrote
    · right
      rw [hsame]
      exact retains_refl hknown
    · exact Or.inl ⟨owner, options, time, rfl, hwrote⟩
  · exact Or.inr (retains_perform quiet h hknown hsnapshot)

theorem versioned_perform (quiet : env.rivals = {}) (h : s.Sound env.tokens) (hs : s.Versioned)
    (hexact : op.Exact) : (op.perform env s).Versioned := by
  rcases perform_cases quiet h hs.known op with ⟨owner, options, time, rfl, hwrote⟩ | hretains
  · exact hs.wrote hexact hwrote
  · exact hretains.versioned hs

theorem keeps_perform (quiet : env.rivals = {}) (h : s.Sound env.tokens) (hs : s.Versioned)
    (op : Operation) : Keeps s (op.perform env s) := by
  rcases perform_cases quiet h hs.known op with ⟨owner, options, time, rfl, hwrote⟩ | hretains
  · exact keeps_of_wrote hwrote
  · exact hretains.keeps

theorem settles_perform (quiet : env.rivals = {}) {t : Store} (ht : t.Sound env.tokens)
    (htv : t.Versioned) (hids : s.documents.Numbered (·.id)) (hexact : op.Exact)
    (hleaves : op.LeavesDocuments) (h : Settles s t) : Settles s (op.perform env t) := by
  by_cases hsnapshot : op.IsSnapshot
  · obtain ⟨owner, options, time, rfl⟩ := hsnapshot
    rcases perform_snapshot ht.documentIds owner options time with hsame | hwrote
    · rw [hsame]
      exact h
    · exact h.wrote hexact hids htv hwrote
  · obtain ⟨hdocuments, hversions⟩ := records_perform quiet ht hleaves hsnapshot
    refine ⟨hdocuments.trans h.documents, fun id => ?_⟩
    have hsame : (op.perform env t).versionsOf id = t.versionsOf id := by
      unfold Store.versionsOf
      rw [hversions]
    rw [hsame]
    exact h.versions id

end Operation

namespace History

open Store

variable {tokens : Tokenizer} {s : Store} {history : List (ℤ × Operation)}

theorem run_concat (history : List (ℤ × Operation)) (entry : ℤ × Operation) (s : Store) :
    run tokens (history ++ [entry]) s =
      entry.2.perform { clock := entry.1, tokens } (run tokens history s) :=
  List.foldl_concat _ _ _ _

/-- What holds of a sound store whose versions are in order and is kept by every operation, holds
after a history. -/
theorem run_induction {P : Store → Prop} (hstep : ∀ (s : Store) (entry : ℤ × Operation),
      entry ∈ history → s.Sound tokens → s.Versioned → P s →
      P (entry.2.perform { clock := entry.1, tokens } s))
    (hheld : ∀ entry ∈ history, entry.2.Held) (hexact : ∀ entry ∈ history, entry.2.Exact)
    (h : s.Sound tokens) (hs : s.Versioned) (hP : P s) :
    (run tokens history s).Versioned ∧ P (run tokens history s) := by
  induction history generalizing s with
  | nil => exact ⟨hs, hP⟩
  | cons entry rest ih =>
    have hquiet : ({ clock := entry.1, tokens } : Env).rivals = {} := rfl
    refine ih (fun s other hother => hstep s other (List.mem_cons_of_mem _ hother))
      (fun other hother => hheld other (List.mem_cons_of_mem _ hother))
      (fun other hother => hexact other (List.mem_cons_of_mem _ hother)) ?_ ?_ ?_
    · exact Operation.perform_sound hquiet (hheld entry List.mem_cons_self) h
    · exact Operation.versioned_perform hquiet h hs (hexact entry List.mem_cons_self)
    · exact hstep s entry List.mem_cons_self h hs hP

theorem versioned_run (hheld : ∀ entry ∈ history, entry.2.Held)
    (hexact : ∀ entry ∈ history, entry.2.Exact) (h : s.Sound tokens) (hs : s.Versioned) :
    (run tokens history s).Versioned :=
  (run_induction (P := fun _ => True) (fun _ _ _ _ _ _ => trivial) hheld hexact h hs trivial).1

theorem keeps_run (hheld : ∀ entry ∈ history, entry.2.Held)
    (hexact : ∀ entry ∈ history, entry.2.Exact) (h : s.Sound tokens) (hs : s.Versioned) :
    Keeps s (run tokens history s) := by
  refine (run_induction (P := Keeps s) (fun t entry _ ht htv hkeeps => ?_) hheld hexact h hs
    (keeps_refl s)).2
  have hquiet : ({ clock := entry.1, tokens } : Env).rivals = {} := rfl
  exact hkeeps.trans h.documentIds hs.known (entry.2.keeps_perform hquiet ht htv)

theorem settles_run (hheld : ∀ entry ∈ history, entry.2.Held)
    (hexact : ∀ entry ∈ history, entry.2.Exact)
    (hleaves : ∀ entry ∈ history, entry.2.LeavesDocuments) (h : s.Sound tokens)
    (hs : s.Versioned) : Settles s (run tokens history s) := by
  refine (run_induction (P := Settles s) (fun t entry hentry ht htv hsettles => ?_) hheld hexact h
    hs (settles_refl s)).2
  have hquiet : ({ clock := entry.1, tokens } : Env).rivals = {} := rfl
  exact Operation.settles_perform hquiet ht htv h.documentIds (hexact entry hentry)
    (hleaves entry hentry) hsettles

/-- A snapshot of the history has written the version, as a copy of a document as it was then. -/
def Copied (tokens : Tokenizer) (history : List (ℤ × Operation)) (v : Version) : Prop :=
  ∃ before clock owner options time after,
    history = before ++ (clock, .snapshot owner options time) :: after ∧
    ∃ row ∈ (run tokens before {}).documents.rows, ∃ json, decodePayload row.json = .ok json ∧
      v = Snapshot.copy time row (fingerprint json) v.id ∧
      v ∉ (run tokens before {}).versions.rows ∧
      v ∈ (run tokens (before ++ [(clock, .snapshot owner options time)]) {}).versions.rows

theorem Copied.concat {v : Version} (h : Copied tokens history v) (entry : ℤ × Operation) :
    Copied tokens (history ++ [entry]) v := by
  obtain ⟨before, clock, owner, options, time, after, rfl, hcopied⟩ := h
  exact ⟨before, clock, owner, options, time, after ++ [entry], by simp, hcopied⟩

theorem copied_of_mem (hheld : ∀ entry ∈ history, entry.2.Held)
    (hexact : ∀ entry ∈ history, entry.2.Exact) {v : Version}
    (hv : v ∈ (run tokens history {}).versions.rows) : Copied tokens history v := by
  induction history using List.reverseRecOn with
  | nil => exact absurd hv List.not_mem_nil
  | append_singleton past entry ih =>
    have hpastHeld : ∀ other ∈ past, other.2.Held := fun other hother =>
      hheld other (List.mem_append_left _ hother)
    have hpastExact : ∀ other ∈ past, other.2.Exact := fun other hother =>
      hexact other (List.mem_append_left _ hother)
    have hsound := run_sound hpastHeld (Store.sound_empty tokens)
    have hversioned := versioned_run hpastHeld hpastExact (Store.sound_empty tokens) versioned_empty
    have hquiet : ({ clock := entry.1, tokens } : Env).rivals = {} := rfl
    by_cases hold : v ∈ (run tokens past {}).versions.rows
    · exact (ih hpastHeld hpastExact hold).concat entry
    · rcases Operation.perform_cases hquiet hsound hversioned.known entry.2 with
        ⟨owner, options, time, hop, hwrote⟩ | hretains
      · have hwritten := hv
        rw [run_concat] at hwritten
        obtain ⟨row, hrow, hash, hprint, hcopy⟩ :=
          (hwrote.mem_cases hwritten).resolve_left hold
        obtain ⟨json, hjson, rfl⟩ := decodes_of_rowFingerprint hprint
        obtain ⟨clock, op⟩ := entry
        obtain rfl : op = .snapshot owner options time := hop
        exact ⟨past, clock, owner, options, time, [], rfl, row, hrow, json, hjson, hcopy, hold, hv⟩
      · rw [run_concat, hretains.versions] at hv
        exact absurd (List.mem_filter.mp hv).1 hold

/-- Whatever has been done, and at whatever times snapshots have been taken: the versions of a
document have increasing ids and times, so that the latest is the last, and neighbours have
different hashes; each is a copy of its document as it was when a snapshot wrote it; versions that
were there at some point are there still, in the same order, before all newer ones, unless the
document is gone; and as long as documents are left alone, snapshots write no more than one version
of each. -/
theorem versions_lineage (tokens : Tokenizer) (history : List (ℤ × Operation))
    (hheld : ∀ entry ∈ history, entry.2.Held) (hexact : ∀ entry ∈ history, entry.2.Exact) :
    let present := run tokens history {}
    (∀ id, (present.versionsOf id).Pairwise (fun a b => a.id < b.id ∧ a.createdAt < b.createdAt) ∧
        (present.versionsOf id).IsChain (·.fingerprint ≠ ·.fingerprint) ∧
        Snapshot.latest? present.versions.rows id = (present.versionsOf id).getLast?) ∧
      (∀ v ∈ present.versions.rows, Copied tokens history v) ∧
      ∀ before after, history = before ++ after →
        let past := run tokens before {}
        (∀ id, (present.hasDocumentId id = true → past.versionsOf id <+: present.versionsOf id) ∧
          (present.hasDocumentId id = false → present.versionsOf id = [])) ∧
        ((∀ entry ∈ after, entry.2.LeavesDocuments) → ∀ id, ∃ fresh,
          present.versionsOf id = past.versionsOf id ++ fresh ∧ fresh.length ≤ 1) := by
  intro present
  have hversioned : present.Versioned :=
    versioned_run hheld hexact (Store.sound_empty tokens) versioned_empty
  refine ⟨fun id => ?_, fun v hv => copied_of_mem hheld hexact hv, ?_⟩
  · exact ⟨(hversioned.ids id).and (hversioned.ages id), hversioned.changes id,
      hversioned.latest? id⟩
  · rintro before after rfl past
    have hpastHeld : ∀ entry ∈ before, entry.2.Held := fun entry hentry =>
      hheld entry (List.mem_append_left _ hentry)
    have hpastExact : ∀ entry ∈ before, entry.2.Exact := fun entry hentry =>
      hexact entry (List.mem_append_left _ hentry)
    have hlaterHeld : ∀ entry ∈ after, entry.2.Held := fun entry hentry =>
      hheld entry (List.mem_append_right _ hentry)
    have hlaterExact : ∀ entry ∈ after, entry.2.Exact := fun entry hentry =>
      hexact entry (List.mem_append_right _ hentry)
    have hsound : past.Sound tokens := run_sound hpastHeld (Store.sound_empty tokens)
    have hpast : past.Versioned :=
      versioned_run hpastHeld hpastExact (Store.sound_empty tokens) versioned_empty
    have hpresent : present = run tokens after past := run_append before after
    refine ⟨fun id => ⟨fun hid => ?_, fun hid => hversioned.known.versionsOf_of_absent hid⟩,
      fun hleaves id => ?_⟩
    · rw [hpresent] at hid ⊢
      exact (keeps_run hlaterHeld hlaterExact hsound hpast).versions id hid
    · rw [hpresent]
      rcases (settles_run hlaterHeld hlaterExact hleaves hsound hpast).versions id with
        hsame | ⟨row, -, -, v, -, hwritten⟩
      · exact ⟨[], by rw [hsame, List.append_nil], Nat.zero_le 1⟩
      · exact ⟨[v], hwritten, le_rfl⟩

/-- A document is written twice; snapshots are taken at times that go back and forth. -/
def revisedTwice : List (ℤ × Operation) :=
  let options : Snapshot.Options := { interval := 100, lookback := 1000, leaseTtl := 60000 }
  [(1000, .upsert "n" .editor [1] (some (.int 1))), (1000, .snapshot 1 options 1000),
    (1100, .upsert "n" .editor [2] (some (.int 2))), (1300, .snapshot 2 options 900),
    (1300, .snapshot 3 options 1400), (1300, .snapshot 4 options 1100),
    (1300, .snapshot 5 options 1500)]

theorem versions_lineage_revisedTwice :
    (∀ entry ∈ revisedTwice, entry.2.Held) ∧ (∀ entry ∈ revisedTwice, entry.2.Exact) ∧
      ((run String.length revisedTwice {}).versionsOf 1).map (·.createdAt) = [1000, 1400] ∧
      ((run String.length revisedTwice {}).versionsOf 1).Pairwise
        (fun a b => a.id < b.id ∧ a.createdAt < b.createdAt) := by
  have hheld : ∀ entry ∈ revisedTwice, entry.2.Held := by
    simp [revisedTwice, Operation.Held]
  have hexact : ∀ entry ∈ revisedTwice, entry.2.Exact := by
    have hwindow : ∀ time ∈ [900, 1000, 1100, 1400, 1500],
        Options.Exact { interval := 100, lookback := 1000, leaseTtl := 60000 } time := by
      intro time htime
      have hbounds : 0 ≤ time ∧ time ≤ 1500 := by
        simp only [List.mem_cons, List.not_mem_nil, or_false] at htime
        omega
      constructor <;> simp only [Clock.IsInt64] <;> omega
    simp [revisedTwice, Operation.Exact, hwindow]
  exact ⟨hheld, hexact, by decide +kernel,
    ((versions_lineage String.length revisedTwice hheld hexact).1 1).1⟩

end History
end NodeGraph
