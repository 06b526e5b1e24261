import NodeGraph.Proofs.Store.Documents
import NodeGraph.Proofs.Store.Queue

/-!
Rows of events and documents that other programs write: ids stay what they are, and a store that
was sound stays so.
-/
namespace NodeGraph.Foreign

open Store

variable {tokens : Tokenizer} {env : Env} {s : Store}

/-! ### Ids -/

theorem id_event {cells : Cells} {row : ℤ → QueuedEvent} (h : event cells = .ok row) (id : ℤ) :
    (row id).id = id := by
  unfold event at h
  simp only [bind, Except.bind, pure, Except.pure] at h
  repeat' split at h
  all_goals cases h
  rfl

theorem id_document {cells : Cells} {row : ℤ → DocumentRow} (h : document cells = .ok row)
    (id : ℤ) : (row id).id = id := by
  unfold document at h
  simp only [bind, Except.bind, pure, Except.pure] at h
  repeat' split at h
  all_goals cases h
  rfl

theorem id_setEvent {column : String} {c : Cell} {row row' : QueuedEvent}
    (h : setEvent column c row = .ok row') : row'.id = row.id := by
  unfold setEvent at h
  simp only [bind, Except.bind, pure, Except.pure] at h
  repeat' split at h
  all_goals cases h
  all_goals rfl

theorem id_setDocument {column : String} {c : Cell} {row row' : DocumentRow}
    (h : setDocument column c row = .ok row') : row'.id = row.id := by
  unfold setDocument at h
  simp only [bind, Except.bind, pure, Except.pure] at h
  repeat' split at h
  all_goals cases h
  all_goals rfl

theorem map_eq_of_mapM {ρ κ : Type} {key : ρ → κ} {f : ρ → Except Fault ρ}
    (hf : ∀ row row', f row = .ok row' → key row' = key row) {rows rows' : List ρ}
    (h : rows.mapM f = .ok rows') : rows'.map key = rows.map key := by
  induction rows generalizing rows' with
  | nil =>
    rw [List.mapM_nil] at h
    obtain rfl := Except.ok.inj h
    rfl
  | cons row rest ih =>
    rw [List.mapM_cons] at h
    cases hrow : f row with
    | error fault => simp [hrow, bind, Except.bind] at h
    | ok row' =>
      cases hrest : rest.mapM f with
      | error fault => simp [hrow, hrest, bind, Except.bind] at h
      | ok rest' =>
        simp only [hrow, hrest, bind, Except.bind, pure, Except.pure, Except.ok.injEq] at h
        rw [← h, List.map_cons, List.map_cons, hf row row' hrow, ih hrest]

/-- Rows changed in place keep what each of them keeps. -/
theorem map_eq_of_changeRows {ρ κ : Type} {key : ρ → κ} {t t' : Table ρ} {p : ρ → Bool}
    {f : ρ → Except Fault ρ} (hf : ∀ row row', f row = .ok row' → key row' = key row)
    (hchange : changeRows t p f = .ok t') :
    t'.rows.map key = t.rows.map key ∧ t'.lastId = t.lastId := by
  unfold changeRows at hchange
  cases hrows : t.rows.mapM fun row => if p row then f row else .ok row with
  | error fault => simp [hrows, bind, Except.bind] at hchange
  | ok rows =>
    simp only [hrows, bind, Except.bind, pure, Except.pure, Except.ok.injEq] at hchange
    rw [← hchange]
    refine ⟨map_eq_of_mapM (fun row row' hrow => ?_) hrows, rfl⟩
    split at hrow
    · exact hf row row' hrow
    · rw [Except.ok.inj hrow]

/-- Rows changed in place keep their numbers. -/
theorem changeRows_numbered {ρ : Type} {id : ρ → ℤ} {t t' : Table ρ} {p : ρ → Bool}
    {f : ρ → Except Fault ρ} (hf : ∀ row row', f row = .ok row' → id row' = id row)
    (h : t.Numbered id) (hchange : changeRows t p f = .ok t') : t'.Numbered id := by
  obtain ⟨hrows, hlast⟩ := map_eq_of_changeRows hf hchange
  have hkept := h.of_map_eq hrows
  exact ⟨hkept.1, hlast ▸ hkept.2⟩

theorem nodup_of_noneTwice {α : Type} [DecidableEq α] {items : List α}
    (h : noneTwice items = true) : items.Nodup := by
  induction items with
  | nil => exact List.nodup_nil
  | cons a rest ih =>
    unfold noneTwice at h
    rw [Bool.and_eq_true, decide_eq_true_eq] at h
    exact List.nodup_cons.mpr ⟨h.1, ih h.2⟩

/-! ### Events -/

/-- Another program adds an event, or nothing happens. -/
theorem addEvent_outcome (s : Store) (cells : Cells) :
    ((addEvent cells).outcome s).2 = s ∨
      ∃ row : ℤ → QueuedEvent, (∀ id, (row id).id = id) ∧
        ((addEvent cells).outcome s).2 = { s with queue := s.queue.add row } := by
  unfold addEvent
  cases hrow : event cells with
  | error fault => exact Or.inl rfl
  | ok row => exact Or.inr ⟨row, id_event hrow, rfl⟩

/-- Another program changes the queue in place, or nothing happens. -/
theorem updateEvents_outcome (env : Env) (s : Store) (p column : String) (c : Cell) :
    ((update env .events p column c).outcome s).2 = s ∨
      ∃ queue, changeRows s.queue (·.publicId = p) (setEvent column c) = .ok queue ∧
        ((update env .events p column c).outcome s).2 = { s with queue } := by
  refine Command.transaction_induction (P := fun t => t = s ∨ ∃ queue,
    changeRows s.queue (·.publicId = p) (setEvent column c) = .ok queue ∧ t = { s with queue })
    (Or.inl rfl) fun n s' hok => ?_
  obtain ⟨_, _, hget, hok⟩ := Command.bind_eq_ok.mp hok
  obtain ⟨rfl, rfl⟩ := EStateM.Result.ok.inj hget
  obtain ⟨queue, _, hqueue, hset⟩ := Command.bind_eq_ok.mp hok
  cases hchange : changeRows s.queue (·.publicId = p) (setEvent column c) with
  | error fault =>
    rw [hchange] at hqueue
    exact nomatch hqueue
  | ok queue' =>
    rw [hchange] at hqueue
    obtain ⟨rfl, rfl⟩ := EStateM.Result.ok.inj hqueue
    obtain ⟨-, rfl⟩ := EStateM.Result.ok.inj hset
    exact Or.inr ⟨_, rfl, rfl⟩

theorem addEvent_sound (h : s.Sound tokens) (cells : Cells) :
    ((addEvent cells).outcome s).2.Sound tokens := by
  rcases addEvent_outcome s cells with hsame | ⟨row, hid, hadded⟩
  · rw [hsame]
    exact h
  · rw [hadded]
    exact h.withQueue (h.queueIds.add (hid _))

theorem updateEvents_sound (h : s.Sound tokens) (p column : String) (c : Cell) :
    ((update env .events p column c).outcome s).2.Sound tokens := by
  rcases updateEvents_outcome env s p column c with hsame | ⟨queue, hchange, hupdated⟩
  · rw [hsame]
    exact h
  · rw [hupdated]
    exact h.withQueue (changeRows_numbered (fun _ _ => id_setEvent) h.queueIds hchange)

/-! ### Documents -/

/-- Another program adds a document whose key is free, or nothing happens. -/
theorem addDocument_outcome (env : Env) (s : Store) (cells : Cells) :
    ((Foreign.addDocument env cells).outcome s).2 = s ∨
      ∃ row : ℤ → DocumentRow, (∀ id, (row id).id = id) ∧
        s.document? (row s.documents.nextId).publicId (row s.documents.nextId).type = none ∧
        ((Foreign.addDocument env cells).outcome s).2 = s.addDocument env.clock row := by
  unfold Foreign.addDocument
  cases hrow : document cells with
  | error fault => exact Or.inl rfl
  | ok row =>
    rw [Command.outcome_bind (show Command.ofExcept (.ok row) s = .ok row s from rfl),
      Command.outcome_bind (Command.get_eq s)]
    dsimp only
    by_cases hfree : (s.document? (row s.documents.nextId).publicId
        (row s.documents.nextId).type).isSome
    · rw [if_pos hfree]
      exact Or.inl rfl
    · rw [if_neg hfree]
      rw [Bool.not_eq_true, Option.isSome_eq_false_iff, Option.isNone_iff_eq_none] at hfree
      exact Or.inr ⟨row, id_document hrow, hfree, rfl⟩

/-- Another program replaces documents one by one, after which no key is there twice, or nothing
happens. While it does so, two of them may have the same key for a time. -/
theorem updateDocuments_outcome {P : Store → Prop} (h : P s)
    (hreplace : ∀ t old row, row.id = old.id → P t → P (t.replaceDocument env.clock old row))
    (p column : String) (c : Cell) :
    ((update env .documents p column c).outcome s).2 = s ∨
      P ((update env .documents p column c).outcome s).2 ∧
        (((update env .documents p column c).outcome s).2.documents.rows.map fun row =>
          (row.publicId, row.type)).Nodup := by
  refine Command.transaction_induction (P := fun t : Store => t = s ∨ P t ∧
    (t.documents.rows.map fun row => (row.publicId, row.type)).Nodup) (Or.inl rfl)
    fun n s' hok => ?_
  have hinner : updateDocuments env p column c s = .ok n s' := hok
  rw [← Command.outcome_of_ok hinner]
  refine Command.transaction_induction (P := fun t : Store => t = s ∨ P t ∧
    (t.documents.rows.map fun row => (row.publicId, row.type)).Nodup) (Or.inl rfl)
    fun n s' hok => ?_
  obtain ⟨_, _, hget, hok⟩ := Command.bind_eq_ok.mp hok
  obtain ⟨rfl, rfl⟩ := EStateM.Result.ok.inj hget
  obtain ⟨_, t, hloop, hok⟩ := Command.bind_eq_ok.mp hok
  have ht : P t := by
    refine Command.forIn_induction (fun old _ t step t' ht hbody => ?_) h hloop
    cases hrow : setDocument column c old with
    | error fault =>
      rw [hrow] at hbody
      exact nomatch hbody
    | ok row =>
      rw [hrow] at hbody
      obtain ⟨-, rfl⟩ := EStateM.Result.ok.inj hbody
      exact hreplace _ _ _ (id_setDocument hrow) ht
  obtain ⟨_, _, hget, hok⟩ := Command.bind_eq_ok.mp hok
  obtain ⟨rfl, rfl⟩ := EStateM.Result.ok.inj hget
  by_cases hkeys : noneTwice (t.documents.rows.map fun row => (row.publicId, row.type)) = true
  · rw [if_neg (by simp [hkeys])] at hok
    obtain ⟨-, rfl⟩ := EStateM.Result.ok.inj hok
    exact Or.inr ⟨ht, nodup_of_noneTwice hkeys⟩
  · rw [if_pos (by simp [hkeys])] at hok
    exact nomatch hok

theorem addDocument_sound (h : s.Sound tokens) (env : Env) (cells : Cells) :
    ((Foreign.addDocument env cells).outcome s).2.Sound tokens := by
  rcases addDocument_outcome env s cells with hsame | ⟨row, hid, hfree, hadded⟩
  · rw [hsame]
    exact h
  · rw [hadded]
    exact Store.addDocument_sound h (hid _) hfree

theorem updateDocuments_sound (h : s.Sound tokens) (p column : String) (c : Cell) :
    ((update env .documents p column c).outcome s).2.Sound tokens := by
  have hparts : s.GraphSound tokens ∧ s.documents.Numbered (·.id) ∧ s.QueueSound :=
    ⟨h.toGraphSound, h.documentIds, h.toQueueSound⟩
  have hreplace : ∀ (t : Store) (old row : DocumentRow), row.id = old.id →
      t.GraphSound tokens ∧ t.documents.Numbered (·.id) ∧ t.QueueSound →
      (t.replaceDocument env.clock old row).GraphSound tokens ∧
        (t.replaceDocument env.clock old row).documents.Numbered (·.id) ∧
        (t.replaceDocument env.clock old row).QueueSound := fun t old row hid ht =>
    replaceDocument_sound env.clock ht.1 ht.2.1 ht.2.2 hid
  rcases updateDocuments_outcome (P := fun t : Store => t.GraphSound tokens ∧
      t.documents.Numbered (·.id) ∧ t.QueueSound) hparts hreplace p column c with
    hsame | ⟨⟨hgraph, hids, hqueue⟩, hkeys⟩
  · rw [hsame]
    exact h
  · exact ⟨⟨hids, hkeys⟩, hqueue, hgraph⟩

theorem delete_sound (h : s.Sound tokens) (p : String) :
    (delete env .documents p s).2.Sound tokens ∧ (delete env .events p s).2.Sound tokens := by
  constructor
  · show ((documentsOf s p).foldl (fun s row => s.deleteDocument env.clock row) s).Sound tokens
    generalize documentsOf s p = rows
    induction rows generalizing s with
    | nil => exact h
    | cons row rest ih => exact ih (deleteDocument_sound _ h row)
  · exact h.withQueue (h.queueIds.keep _)

end NodeGraph.Foreign
