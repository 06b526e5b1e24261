import NodeGraph.Proofs.History
import NodeGraph.Proofs.Reflection

/-!
The invariant of convergence.

For each document there are three ways to stand: its last queued event carries its value, or
nothing is queued of it and either a failure of it is kept or the graph shows it.
-/
namespace NodeGraph

open Store

theorem DocumentRow.decode_eq_ok {row : DocumentRow} {document : Document}
    (h : row.decode = .ok document) :
    document.id = row.id ∧ document.publicId = row.publicId ∧ document.type.name = row.type ∧
      decodePayload row.json = .ok document.json := by
  unfold decode DocumentType.ofName at h
  simp only [bind, Except.bind, pure, Except.pure] at h
  cases htype : DocumentType.all.find? (fun t => t.name = row.type) with
  | none => simp [htype] at h
  | some t =>
    cases hjson : decodePayload row.json with
    | error fault => simp [htype, hjson] at h
    | ok json =>
      simp only [htype, hjson, Except.ok.injEq] at h
      rw [← h]
      exact ⟨rfl, rfl, by simpa using List.find?_some htype, rfl⟩

theorem DocumentRow.decode_of_written {row : DocumentRow} {t : DocumentType} (ht : row.type = t.name)
    (h : Written row.json) : ∃ document, row.decode = .ok document ∧ document.type = t := by
  obtain ⟨json, hjson, -⟩ := h.decode
  refine ⟨{ row with type := t, json }, ?_, rfl⟩
  unfold decode
  rw [ht, hjson, DocumentType.ofName_name]
  rfl

namespace Store

/-- The last queued event of a document carries its value. -/
def Awaits (s : Store) (row : DocumentRow) : Prop :=
  ∃ e ∈ s.queue.rows, e.key = row.key ∧ e.newData = row.json ∧ e.action ≠ Action.delete.name ∧
    ∀ other ∈ s.queue.rows, other.key = row.key → stampLe other.stamp e.stamp = true

/-- Nothing is queued of a document. -/
def IsIdle (s : Store) (key : DocumentKey) : Prop :=
  ∀ e ∈ s.queue.rows, e.key ≠ key

/-- A failure of a document is kept. -/
def HasFailed (s : Store) (key : DocumentKey) : Prop :=
  ∃ letter ∈ s.deadLetters.rows, letter.key = key

/-- The graph shows a document. -/
def Presents (s : Store) (row : DocumentRow) : Prop :=
  ∀ document, row.decode = .ok document →
    s.Shows document.publicId document.id document.type document.json

/-- How a document stands, if it may also have failed in some way. -/
def Settled (s : Store) (row : DocumentRow) (failed : Prop) : Prop :=
  s.Awaits row ∨ s.IsIdle row.key ∧ (failed ∨ s.Presents row)

/-- What is known of a store when nothing but documents is written to it and the triggers have
stamped no event later than `now`. -/
structure Converging (tokens : Tokenizer) (now : ℤ) (s : Store) : Prop where
  sound : s.Sound tokens
  documents : ∀ row ∈ s.documents.rows, (∃ t : DocumentType, row.type = t.name) ∧ Written row.json
  events : ∀ e ∈ s.queue.rows,
    IsNamed e.type e.action ∧ Written e.oldData ∧ Written e.newData ∧ e.createdAt ≤ now
  letters : ∀ l ∈ s.deadLetters.rows,
    IsNamed l.type l.action ∧ Written l.oldData ∧ Written l.newData ∧ l.eventCreatedAt ≤ now
  owned : s.Owned
  settled : ∀ row ∈ s.documents.rows, s.Settled row (s.HasFailed row.key)

end Store

/-! ### One event -/

section Settle

variable {env : Env} {s : Store} {e : QueuedEvent} {now : ℤ}

theorem mem_letters_settledAs {v : Verdict} {letter : DeadLetter}
    (h : letter ∈ (Pass.settledAs env e s v).deadLetters.rows) :
    letter ∈ s.deadLetters.rows ∨ ∃ fault, v = .buried fault ∧ letter.key = e.key ∧
      letter.type = e.type ∧ letter.action = e.action ∧ letter.oldData = e.oldData ∧
      letter.newData = e.newData ∧ letter.eventCreatedAt = e.createdAt := by
  cases v with
  | dropped => exact Or.inl h
  | buried fault =>
    rcases List.mem_append.mp h with hold | hnew
    · exact Or.inl hold
    · rw [List.mem_singleton.mp hnew]
      exact Or.inr ⟨fault, rfl, rfl, rfl, rfl, rfl, rfl, rfl⟩
  | carried plan =>
    have hsame : (Pass.settledAs env e s (.carried plan)).deadLetters = s.deadLetters :=
      (Reconcile.sameRecords_carriedOut env _ plan).deadLetters
    rw [hsame] at h
    exact Or.inl h

theorem mem_queue_settledAs {v : Verdict} {other : QueuedEvent} :
    other ∈ (Pass.settledAs env e s v).queue.rows ↔ other ∈ s.queue.rows ∧ other.id ≠ e.id := by
  rw [Pass.queue_settledAs, Table.rows_keep, List.mem_filter, decide_eq_true_eq]

theorem documents_settledAs (v : Verdict) : (Pass.settledAs env e s v).documents = s.documents := by
  cases v with
  | dropped => rfl
  | buried fault => rfl
  | carried plan => exact (Reconcile.sameRecords_carriedOut env _ plan).documents

theorem hasFailed_settledAs {v : Verdict} {key : DocumentKey} (h : s.HasFailed key) :
    (Pass.settledAs env e s v).HasFailed key := by
  obtain ⟨letter, hletter, hkey⟩ := h
  refine ⟨letter, ?_, hkey⟩
  cases v with
  | dropped => exact hletter
  | buried fault => exact List.mem_append_left _ hletter
  | carried plan =>
    have hsame : (Pass.settledAs env e s (.carried plan)).deadLetters = s.deadLetters :=
      (Reconcile.sameRecords_carriedOut env _ plan).deadLetters
    rw [hsame]
    exact hletter

theorem owned_carriedOut (h : s.GraphSound env.tokens) (howned : s.Owned)
    {event : Event} (hdata : ∀ v ∈ event.newData, v.Sound)
    (hspace : (Plan.ofEvent event).obstacle? s = none) :
    (Reconcile.carriedOut env (Plan.ofEvent event) s).Owned := by
  have hasked := Plan.asked event
  have hplan := Plan.sound_ofEvent hdata
  generalize Plan.ofEvent event = plan at *
  cases hasked with
  | deleted => exact howned
  | editor => exact Reconcile.owned_withContent howned
  | space _ _ data _ =>
    obtain ⟨space, hrow⟩ := Plan.obstacle?_eq_none.mp hspace
    rw [Reconcile.carriedOut_space hrow]
    exact howned.grows (Reconcile.grows_withMembers env s space hplan)
  | missing => exact howned
  | graph => exact howned.grows (Reconcile.grows_withChildren h _ _ _ _)

theorem awaits_settledAs {row : DocumentRow} {v : Verdict} {last : QueuedEvent}
    (hlast : last ∈ s.queue.rows) (hne : last.id ≠ e.id) (hkey : last.key = row.key)
    (hdata : last.newData = row.json) (haction : last.action ≠ Action.delete.name)
    (hmax : ∀ other ∈ s.queue.rows, other.key = row.key →
      stampLe other.stamp last.stamp = true) : (Pass.settledAs env e s v).Awaits row :=
  ⟨last, mem_queue_settledAs.mpr ⟨hlast, hne⟩, hkey, hdata, haction, fun other hother hokey =>
    hmax other (mem_queue_settledAs.mp hother).1 hokey⟩

/-- When the last event of a document is settled, it fails or the graph shows the document. -/
theorem presents_settledAs (quiet : env.rivals = {}) (h : s.Converging env.tokens now)
    (he : e ∈ s.queue.rows) {row : DocumentRow} (hrow : row ∈ s.documents.rows)
    (hkey : e.key = row.key) (hdata : e.newData = row.json)
    (haction : e.action ≠ Action.delete.name) :
    (∃ fault, e.verdict s = .buried fault) ∨
      (Pass.settledAs env e s (e.verdict s)).Presents row := by
  obtain ⟨hnamed, hold, hnew, -⟩ := h.events e he
  rcases e.verdict_cases hnamed s with ⟨fault, -, hverdict⟩ | ⟨event, hevent, hcase⟩
  · exact Or.inl ⟨fault, hverdict⟩
  · rcases hcase with ⟨fault, -, hverdict⟩ | ⟨hspace, hverdict⟩
    · exact Or.inl ⟨fault, hverdict⟩
    · right
      intro document hdocument
      obtain ⟨hid, hpublicId, htype, hjson⟩ := DocumentRow.decode_eq_ok hdocument
      obtain ⟨-, -, hnewData, -, heventId, -⟩ := QueuedEvent.decode_eq_ok.mp hevent
      obtain ⟨htypeName, hactionName⟩ := QueuedEvent.names_of_decode hevent
      obtain ⟨event', hevent', hback⟩ := QueuedEvent.decode_of_written hnamed hold hnew
      obtain rfl : event' = event := Except.ok.inj (hevent'.symm.trans hevent)
      have hkeys := Prod.mk.inj hkey
      have hsameType : document.type = event'.type :=
        DocumentType.name_injective (htype.trans (hkeys.2.symm.trans htypeName.symm))
      have hsameId : document.publicId = event'.publicId :=
        hpublicId.trans (hkeys.1.symm.trans heventId.symm)
      have hsameJson : document.json = event'.newData := by
        rw [← hdata, hnewData] at hjson
        exact (Except.ok.inj hjson).symm
      have hclaimed := Pass.claim_sound h.sound.toGraphSound e.id
      have hlookup : (s.claim e.id).documentId? event'.publicId event'.type = some row.id := by
        have hfound : s.document? event'.publicId event'.type.name = some row :=
          h.sound.document?_eq_some.mpr ⟨hrow, hpublicId.symm.trans hsameId,
            htype.symm.trans (congrArg _ hsameType)⟩
        show (s.document? event'.publicId event'.type.name).map (·.id) = some row.id
        rw [hfound]
        rfl
      have hnotDelete : event'.action ≠ .delete := by
        intro heq
        rw [heq] at hactionName
        exact haction hactionName.symm
      rw [hverdict, hsameId, hsameType, hsameJson, hid]
      exact Reconcile.shows_carriedOut hclaimed hback hspace quiet hnotDelete
        (h.owned.congr rfl rfl) hlookup

/-- An event of one document leaves what the graph shows of another. -/
theorem presents_settledAs_of_ne (quiet : env.rivals = {}) (h : s.Converging env.tokens now)
    (he : e ∈ s.queue.rows) {row : DocumentRow} (hrow : row ∈ s.documents.rows)
    (hkey : e.key ≠ row.key) (hpresents : s.Presents row) :
    (Pass.settledAs env e s (e.verdict s)).Presents row := by
  obtain ⟨hnamed, hold, hnew, -⟩ := h.events e he
  intro document hdocument
  have hshows := hpresents document hdocument
  obtain ⟨-, hpublicId, htype, hjson⟩ := DocumentRow.decode_eq_ok hdocument
  obtain ⟨json, hdecode, hback⟩ := (h.documents row hrow).2.decode
  obtain rfl : json = document.json := Except.ok.inj (hdecode.symm.trans hjson)
  rcases e.verdict_cases hnamed s with ⟨fault, -, hverdict⟩ | ⟨event, hevent, hcase⟩
  · rw [hverdict]
    exact shows_congr rfl rfl rfl rfl hshows
  · rcases hcase with ⟨fault, -, hverdict⟩ | ⟨hspace, hverdict⟩
    · rw [hverdict]
      exact shows_congr rfl rfl rfl rfl hshows
    · rw [hverdict]
      have hclaimed := Pass.claim_sound h.sound.toGraphSound e.id
      obtain ⟨-, -, -, -, heventId, -⟩ := QueuedEvent.decode_eq_ok.mp hevent
      obtain ⟨htypeName, -⟩ := QueuedEvent.names_of_decode hevent
      obtain ⟨event', hevent', heventBack⟩ := QueuedEvent.decode_of_written hnamed hold hnew
      obtain rfl : event' = event := Except.ok.inj (hevent'.symm.trans hevent)
      have hne : (event'.publicId, event'.type) ≠ (document.publicId, document.type) := by
        intro heq
        obtain ⟨hid, hsame⟩ := Prod.mk.inj heq
        apply hkey
        show (e.publicId, e.type) = (row.publicId, row.type)
        rw [← heventId, ← hpublicId, ← htypeName, ← htype, hid, hsame]
      exact Reconcile.shows_carriedOut_of_ne hclaimed heventBack hspace quiet hback hne
        (shows_congr rfl rfl rfl rfl hshows)

/-- When the first event of the queue is settled, every document stands as it may if what a failure
of its last event leaves counts as having failed. -/
theorem settled_settledAs (quiet : env.rivals = {}) (h : s.Converging env.tokens now)
    (he : e ∈ s.queue.rows)
    (hfirst : ∀ other ∈ s.queue.rows, stampLe e.stamp other.stamp = true) {row : DocumentRow}
    (hrow : row ∈ s.documents.rows) {failed failed' : Prop} (hstill : failed → failed')
    (hburied : ∀ fault, e.key = row.key → e.newData = row.json → e.verdict s = .buried fault →
      failed')
    (hsettled : s.Settled row failed) :
    (Pass.settledAs env e s (e.verdict s)).Settled row failed' := by
  by_cases hkey : e.key = row.key
  · rcases hsettled with ⟨last, hlast, hlkey, hdata, haction, hmax⟩ | ⟨hidle, -⟩
    · by_cases hsame : last.id = e.id
      · obtain rfl := h.sound.queueIds.eq_of_id_eq hlast he hsame
        right
        refine ⟨fun other hother hokey => ?_, ?_⟩
        · obtain ⟨hmem, hne⟩ := mem_queue_settledAs.mp hother
          have hstamps := stampLe_antisymm (hmax other hmem hokey) (hfirst other hmem)
          exact hne (congrArg Prod.snd hstamps)
        · exact (presents_settledAs quiet h he hrow hkey hdata haction).imp_left
            fun ⟨fault, hverdict⟩ => hburied fault hkey hdata hverdict
      · exact Or.inl (awaits_settledAs hlast hsame hlkey hdata haction hmax)
    · exact absurd hkey (hidle e he)
  · rcases hsettled with ⟨last, hlast, hlkey, hdata, haction, hmax⟩ | ⟨hidle, hstands⟩
    · left
      refine awaits_settledAs hlast (fun hsame => hkey ?_) hlkey hdata haction hmax
      rw [← h.sound.queueIds.eq_of_id_eq hlast he hsame]
      exact hlkey
    · right
      exact ⟨fun other hother => hidle other (mem_queue_settledAs.mp hother).1,
        hstands.imp hstill (presents_settledAs_of_ne quiet h he hrow hkey)⟩

/-- The first event of the queue is settled. -/
theorem Store.Converging.settledAs (quiet : env.rivals = {}) (h : s.Converging env.tokens now)
    (he : e ∈ s.queue.rows)
    (hfirst : ∀ other ∈ s.queue.rows, stampLe e.stamp other.stamp = true) :
    (Pass.settledAs env e s (e.verdict s)).Converging env.tokens now := by
  have hqueued : s.isQueued e.id = true := isQueued_iff.mpr ⟨e, he, rfl⟩
  have hsettle := Pass.settle_of_queued quiet h.sound.toGraphSound hqueued
  obtain ⟨hnamed, hold, hnew, hstamp⟩ := h.events e he
  refine ⟨hsettle ▸ Pass.settle_sound quiet h.sound e, ?_, ?_, ?_, ?_, ?_⟩
  · rw [documents_settledAs]
    exact h.documents
  · exact fun other hother => h.events other (mem_queue_settledAs.mp hother).1
  · intro letter hletter
    rcases mem_letters_settledAs hletter with hkept | ⟨fault, -, -, htype, haction, ho, hn, hat⟩
    · exact h.letters letter hkept
    · rw [htype, haction, ho, hn, hat]
      exact ⟨hnamed, hold, hnew, hstamp⟩
  · have hclaimed := Pass.claim_sound h.sound.toGraphSound e.id
    rcases e.verdict_cases hnamed s with ⟨fault, -, hverdict⟩ | ⟨event, hevent, hcase⟩
    · rw [hverdict]
      exact h.owned.congr rfl rfl
    · rcases hcase with ⟨fault, -, hverdict⟩ | ⟨hspace, hverdict⟩
      · rw [hverdict]
        exact h.owned.congr rfl rfl
      · rw [hverdict]
        exact owned_carriedOut hclaimed (h.owned.congr rfl rfl)
          (QueuedEvent.sound_decode hevent) hspace
  · rw [documents_settledAs]
    intro row hrow
    refine settled_settledAs quiet h he hfirst hrow hasFailed_settledAs ?_ (h.settled row hrow)
    intro fault hkey _ hverdict
    rw [hverdict]
    exact ⟨_, List.mem_append_right _ List.mem_cons_self, hkey⟩

end Settle

/-! ### Replays -/

section Requeue

variable {tokens : Tokenizer} {s : Store} {now : ℤ}

/-- Of the queued events of a document, one is the last. -/
theorem exists_last_event {e : QueuedEvent} (he : e ∈ s.queue.rows) :
    ∃ last ∈ s.queue.rows, last.key = e.key ∧
      ∀ other ∈ s.queue.rows, other.key = e.key → stampLe other.stamp last.stamp = true := by
  set same := (s.queue.rows.filter fun other => other.key = e.key).toFinset with hsame
  have hmem : ∀ other, other ∈ same ↔ other ∈ s.queue.rows ∧ other.key = e.key := by
    intro other
    rw [hsame, List.mem_toFinset, List.mem_filter, decide_eq_true_eq]
  obtain ⟨last, hlast, hmax⟩ := same.exists_max_image (fun other => toLex other.stamp)
    ⟨e, (hmem e).mpr ⟨he, rfl⟩⟩
  obtain ⟨hthere, hkey⟩ := (hmem last).mp hlast
  refine ⟨last, hthere, hkey, fun other hother hokey => ?_⟩
  have hle := hmax other ((hmem other).mpr ⟨hother, hokey⟩)
  rw [Prod.Lex.toLex_le_toLex] at hle
  exact stampLe_iff.mpr hle

theorem action_replay {row : DocumentRow} {letter : DeadLetter} {id : ℤ} :
    (Queue.replay (some row) letter id).action ≠ Action.delete.name := by
  unfold Queue.replay
  dsimp only
  split
  · decide
  · rename_i h
    simpa using h

/-- A replay is the last event of its document, or the one that was last before still is. -/
theorem awaits_requeued (h : s.Converging tokens now) {row : DocumentRow}
    (hrow : row ∈ s.documents.rows) {e : QueuedEvent} (he : e ∈ s.requeued.queue.rows)
    (hkey : e.key = row.key) : s.requeued.Awaits row := by
  obtain ⟨last, hlast, hlkey, hmax⟩ := exists_last_event he
  rw [hkey] at hlkey hmax
  have hcarries : last.newData = row.json ∧ last.action ≠ Action.delete.name := by
    rcases Queue.mem_queue_requeued.mp hlast with hold | ⟨letter, -, i, -, rfl⟩
    · rcases h.settled row hrow with ⟨old, hthere, hokey, hdata, haction, hold'⟩ | ⟨hidle, -⟩
      · have hmem : old ∈ s.requeued.queue.rows := Queue.mem_queue_requeued.mpr (Or.inl hthere)
        have hstamps := stampLe_antisymm (hold' last hold hlkey) (hmax old hmem hokey)
        obtain rfl := h.sound.queueIds.eq_of_id_eq hold hthere (congrArg Prod.snd hstamps)
        exact ⟨hdata, haction⟩
      · exact absurd hlkey (hidle last hold)
    · obtain ⟨hid, htype⟩ := Prod.mk.inj hlkey
      have hfound : s.document? letter.publicId letter.type = some row :=
        h.sound.document?_eq_some.mpr ⟨hrow, hid.symm, htype.symm⟩
      rw [hfound]
      exact ⟨rfl, action_replay⟩
  exact ⟨last, hlast, hlkey, hcarries.1, hcarries.2, hmax⟩

theorem Store.Converging.requeued (h : s.Converging tokens now) :
    s.requeued.Converging tokens now := by
  refine ⟨requeued_sound h.sound, h.documents, ?_, fun l hl => absurd hl List.not_mem_nil,
    h.owned.congr rfl rfl, ?_⟩
  · intro e he
    rcases Queue.mem_queue_requeued.mp he with hold | ⟨letter, hletter, i, -, rfl⟩
    · exact h.events e hold
    · obtain ⟨⟨htype, haction⟩, hold, hnew, hstamp⟩ :=
        h.letters letter (Queue.mem_latestFailures.mp hletter).1
      refine ⟨⟨htype, ?_⟩, hold, ?_, hstamp⟩
      · unfold Queue.replay
        dsimp only
        split
        · exact ⟨.update, rfl⟩
        · exact haction
      · unfold Queue.replay
        cases hfound : s.document? letter.publicId letter.type with
        | none => exact hnew
        | some row => exact (h.documents row (List.mem_of_find?_eq_some hfound)).2
  · intro row hrow
    by_cases hqueued : ∃ e ∈ s.requeued.queue.rows, e.key = row.key
    · obtain ⟨e, he, hkey⟩ := hqueued
      exact Or.inl (awaits_requeued h hrow he hkey)
    · have hidle : s.requeued.IsIdle row.key := fun e he hkey => hqueued ⟨e, he, hkey⟩
      right
      refine ⟨hidle, Or.inr ?_⟩
      rcases h.settled row hrow with ⟨last, hlast, hkey, -⟩ | ⟨-, hstands⟩
      · exact absurd hkey (hidle last (Queue.mem_queue_requeued.mpr (Or.inl hlast)))
      · rcases hstands with ⟨letter, hletter, hkey⟩ | hpresents
        · obtain ⟨latest, hlatest, hid, htype⟩ := Queue.exists_latestFailure hletter
          obtain ⟨id, hreplay⟩ := Queue.exists_replay hlatest
          exact absurd ((Prod.ext hid htype : latest.key = letter.key).trans hkey)
            (hidle _ hreplay)
        · exact fun document hdocument =>
            shows_congr rfl rfl rfl rfl (hpresents document hdocument)

end Requeue

/-! ### Writes -/

section Write

variable {tokens : Tokenizer} {env : Env} {s t : Store} {now : ℤ}

theorem Store.Converging.congr (h : s.Converging tokens now) (hdocuments : t.documents = s.documents)
    (hqueue : t.queue = s.queue) (hletters : t.deadLetters = s.deadLetters)
    (hnodes : t.nodes = s.nodes) (hedges : t.edges = s.edges) (hspaces : t.spaces = s.spaces)
    (hlive : t.live = s.live) : t.Converging tokens now := by
  refine ⟨h.sound.congr hdocuments hqueue hletters hnodes hedges hspaces hlive,
    hdocuments ▸ h.documents, hqueue ▸ h.events, hletters ▸ h.letters,
    h.owned.congr hnodes hdocuments, fun row hrow => ?_⟩
  rw [hdocuments] at hrow
  unfold Settled Awaits IsIdle HasFailed
  rw [hqueue, hletters]
  rcases h.settled row hrow with hawaits | ⟨hidle, hfailed | hpresents⟩
  · exact Or.inl hawaits
  · exact Or.inr ⟨hidle, Or.inl hfailed⟩
  · exact Or.inr ⟨hidle, Or.inr fun document hdocument =>
      shows_congr hnodes hedges hspaces hlive (hpresents document hdocument)⟩

/-- An event of another document changes nothing about how a document stands. -/
theorem settled_of_told {row : DocumentRow} {e : QueuedEvent}
    (hqueue : t.queue.rows = s.queue.rows ++ [e]) (hletters : t.deadLetters = s.deadLetters)
    (hkey : e.key ≠ row.key) (hpresents : s.Presents row → t.Presents row)
    (h : s.Settled row (s.HasFailed row.key)) : t.Settled row (t.HasFailed row.key) := by
  unfold Settled Awaits IsIdle HasFailed at *
  rw [hqueue, hletters]
  rcases h with ⟨last, hlast, hlkey, hdata, haction, hmax⟩ | ⟨hidle, hstands⟩
  · left
    refine ⟨last, List.mem_append_left _ hlast, hlkey, hdata, haction, fun other hother hokey => ?_⟩
    rcases List.mem_append.mp hother with hold | hnew
    · exact hmax other hold hokey
    · exact absurd ((List.mem_singleton.mp hnew) ▸ hokey) hkey
  · right
    refine ⟨fun other hother => ?_, hstands.imp_right hpresents⟩
    rcases List.mem_append.mp hother with hold | hnew
    · exact hidle other hold
    · rw [List.mem_singleton.mp hnew]
      exact hkey

/-- The documents after a write are the one that is written and those that have another key. -/
theorem rows_upserted (h : s.Sound tokens) (env : Env) (p : String) (type : DocumentType)
    (data : List UInt8) (json : Option Json) {d : DocumentRow}
    (hd : d ∈ (s.upserted env p type data json).documents.rows) :
    (s.upserted env p type data json).document? p type.name = some d ∨
      d ∈ s.documents.rows ∧ d.key ≠ (p, type.name) := by
  obtain ⟨row, -, -, -, -, hdocument⟩ := document?_upserted h env p type data json
  have hfound := (upserted_sound h env p type data json).document?_eq_some.mpr ⟨hd, rfl, rfl⟩
  by_cases hkey : d.publicId = p ∧ d.type = type.name
  · rw [hkey.1, hkey.2] at hfound
    exact Or.inl hfound
  · rw [hdocument, if_neg hkey] at hfound
    exact Or.inr ⟨(h.document?_eq_some.mp hfound).1, fun heq => hkey (Prod.mk.inj heq)⟩

/-- A document that a node refers to keeps its id when it is written again. -/
theorem Store.Owned.upserted (howned : s.Owned) (h : s.Sound tokens) (env : Env) (p : String)
    (type : DocumentType) (data : List UInt8) (json : Option Json) :
    (s.upserted env p type data json).Owned := by
  obtain ⟨row, -, -, -, hrowId, hdocument⟩ := document?_upserted h env p type data json
  obtain ⟨hnodes, -⟩ := upserted_frame env s p type data json
  rw [Store.Owned, hnodes]
  intro node hnode id hid
  have howns := howned node hnode id hid
  unfold documentId? at howns ⊢
  rw [hdocument]
  split
  · rename_i hkey
    rw [hkey.1, hkey.2] at howns
    obtain ⟨old, hfound, rfl⟩ := Option.map_eq_some_iff.mp howns
    rw [Option.map_some, hrowId old hfound]
  · exact howns

theorem Store.Converging.upserted (h : s.Converging tokens now)
    (hnow : now ≤ Clock.eventTime env.clock) (p : String) (type : DocumentType)
    (data : List UInt8) {json : Option Json} (hjson : ∀ v ∈ json, v.Sound ∧ v.ReadsBack) :
    (s.upserted env p type data json).Converging tokens (Clock.eventTime env.clock) := by
  have hsound := upserted_sound h.sound env p type data json
  obtain ⟨row, hpublicId, htype, hvalue, -, hdocument⟩ :=
    document?_upserted h.sound env p type data json
  obtain ⟨action, oldData, haction, hold, hqueue⟩ := queue_upserted env s p type data json
  obtain ⟨hnodes, hedges, hspaces, hlive, hletters, -⟩ := upserted_frame env s p type data json
  have howned := h.owned.upserted h.sound env p type data json
  have hrows : ∀ d ∈ (s.upserted env p type data json).documents.rows,
      d = row ∨ d ∈ s.documents.rows ∧ d.key ≠ (p, type.name) := by
    intro d hd
    refine (rows_upserted h.sound env p type data json hd).imp_left fun hfound => ?_
    rw [hdocument, if_pos ⟨rfl, rfl⟩] at hfound
    exact (Option.some.inj hfound).symm
  generalize s.upserted env p type data json = t at *
  have hwritten : Written row.json := hvalue ▸ written_compact hjson
  have hqueueRows : t.queue.rows = s.queue.rows ++ [{
      id := s.queue.nextId, publicId := p, type := type.name, action := action.name, oldData
      newData := json.map Json.compact, createdAt := Clock.eventTime env.clock }] := by
    rw [hqueue]
    rfl
  refine ⟨hsound, ?_, ?_, ?_, howned, ?_⟩
  · intro d hd
    rcases hrows d hd with rfl | ⟨hd, -⟩
    · exact ⟨⟨type, htype⟩, hwritten⟩
    · exact h.documents d hd
  · intro e he
    rw [hqueueRows] at he
    rcases List.mem_append.mp he with hthere | hnew
    · obtain ⟨hnamed, holdData, hnewData, hstamp⟩ := h.events e hthere
      exact ⟨hnamed, holdData, hnewData, hstamp.trans hnow⟩
    · rw [List.mem_singleton.mp hnew]
      refine ⟨⟨⟨type, rfl⟩, action, rfl⟩, ?_, written_compact hjson, le_rfl⟩
      rcases hold with rfl | ⟨old, hthere, rfl⟩
      · exact written_none
      · exact (h.documents old (List.mem_of_find?_eq_some hthere)).2
  · rw [hletters]
    intro l hl
    obtain ⟨hnamed, holdData, hnewData, hstamp⟩ := h.letters l hl
    exact ⟨hnamed, holdData, hnewData, hstamp.trans hnow⟩
  · intro d hd
    rcases hrows d hd with rfl | ⟨hmem, hne⟩
    · left
      refine ⟨_, hqueueRows ▸ List.mem_append_right _ List.mem_cons_self, ?_, hvalue.symm,
        fun heq => haction (Action.name_injective heq), ?_⟩
      · show (p, type.name) = (d.publicId, d.type)
        rw [hpublicId, htype]
      · intro other hother _
        rw [hqueueRows] at hother
        rw [stampLe_iff]
        rcases List.mem_append.mp hother with hthere | hnew
        · obtain ⟨-, -, -, hstamp⟩ := h.events other hthere
          have hid := h.sound.queueIds.lt_nextId other hthere
          show other.createdAt < Clock.eventTime env.clock ∨
            other.createdAt = Clock.eventTime env.clock ∧ other.id ≤ s.queue.nextId
          omega
        · rw [List.mem_singleton.mp hnew]
          exact Or.inr ⟨rfl, le_rfl⟩
    · refine settled_of_told hqueueRows hletters ?_ ?_ (h.settled d hmem)
      · exact fun heq => hne heq.symm
      · exact fun hpresents document hdecode =>
          shows_congr hnodes hedges hspaces hlive (hpresents document hdecode)

theorem extends_deleteDocument (clock : ℤ) (s : Store) (row : DocumentRow) :
    Extends s (s.deleteDocument clock row) := by
  obtain ⟨hnodes, hspaces⟩ := rows_deleteDocument clock s row
  refine ⟨fun node hnode => ?_, fun space hspace => ?_, fun _ hpair => hpair⟩
  · refine ⟨node.detached row.id, ?_, rfl, rfl⟩
    rw [hnodes]
    exact List.mem_map_of_mem hnode
  · refine ⟨space.detached row.id, ?_, rfl, rfl⟩
    rw [hspaces]
    exact List.mem_map_of_mem hspace

/-- What is shown of other documents outlasts the deletion of one. -/
theorem presents_deleteDocument (h : s.Sound tokens) {row other : DocumentRow}
    (hne : other.id ≠ row.id) (hpresents : s.Presents other) :
    (s.deleteDocument env.clock row).Presents other := by
  have hextends := extends_deleteDocument env.clock s row
  have hsound := (deleteDocument_sound env.clock h row).toGraphSound
  intro document hdocument
  have hshows := hpresents document hdocument
  obtain ⟨hid, -⟩ := DocumentRow.decode_eq_ok hdocument
  rw [← hid] at hne
  refine shows_of_extends hsound hextends (fun _ hnode => ?_)
    (fun _ q => isMember_congr h.toGraphSound hsound hextends fun _ _ _ _ => Iff.rfl) hshows
  obtain ⟨node, hnode, hkey, hcontent, heditor⟩ := hnode
  refine ⟨node.detached row.id, ?_, hkey, hcontent, ?_⟩
  · rw [(rows_deleteDocument env.clock s row).1]
    exact List.mem_map_of_mem hnode
  · unfold NodeRow.detached
    rw [heditor]
    exact if_neg fun heq => hne (Option.some.inj heq)

theorem Store.Converging.mono (h : s.Converging tokens now) {later : ℤ} (hnow : now ≤ later) :
    s.Converging tokens later := by
  refine ⟨h.sound, h.documents, fun e he => ?_, fun l hl => ?_, h.owned, h.settled⟩
  · obtain ⟨hnamed, holdData, hnewData, hstamp⟩ := h.events e he
    exact ⟨hnamed, holdData, hnewData, hstamp.trans hnow⟩
  · obtain ⟨hnamed, holdData, hnewData, hstamp⟩ := h.letters l hl
    exact ⟨hnamed, holdData, hnewData, hstamp.trans hnow⟩

theorem owned_deleteDocument (h : s.Converging tokens now) {row : DocumentRow}
    (hrow : row ∈ s.documents.rows) : (s.deleteDocument env.clock row).Owned := by
  intro node hnode id hid
  rw [(rows_deleteDocument env.clock s row).1] at hnode
  obtain ⟨old, hold, rfl⟩ := List.mem_map.mp hnode
  have hcleared : (if old.editorDocument = some row.id then none else old.editorDocument) =
      some id := hid
  by_cases heq : old.editorDocument = some row.id
  · rw [if_pos heq] at hcleared
    exact nomatch hcleared
  · rw [if_neg heq] at hcleared
    have howned := h.owned old hold id hcleared
    unfold documentId? at howned ⊢
    rw [document?_deleteDocument h.sound hrow]
    split
    · rename_i hkey
      have hfound : s.document? old.publicId DocumentType.editor.name = some row :=
        h.sound.document?_eq_some.mpr ⟨hrow, hkey.1.symm, hkey.2.symm⟩
      rw [hfound, Option.map_some] at howned
      exact absurd (hcleared.trans howned.symm) heq
    · exact howned

theorem Store.Converging.withoutDocument (h : s.Converging tokens now)
    (hnow : now ≤ Clock.eventTime env.clock) (p : String) (type : DocumentType) :
    (s.withoutDocument env p type).Converging tokens (Clock.eventTime env.clock) := by
  unfold Store.withoutDocument
  cases hfound : s.document? p type.name with
  | none => exact h.mono hnow
  | some row =>
    have hrow := List.mem_of_find?_eq_some hfound
    have hmono := h.mono hnow
    have hkept : ∀ d ∈ (s.deleteDocument env.clock row).documents.rows,
        d ∈ s.documents.rows ∧ d.id ≠ row.id := by
      intro d hd
      obtain ⟨hmem, hne⟩ := List.mem_filter.mp hd
      exact ⟨hmem, of_decide_eq_true hne⟩
    refine ⟨deleteDocument_sound env.clock h.sound row, fun d hd => h.documents d (hkept d hd).1, ?_,
      hmono.letters, owned_deleteDocument h hrow, ?_⟩
    · intro e he
      rcases List.mem_append.mp he with hold | hnew
      · exact hmono.events e hold
      · rw [List.mem_singleton.mp hnew]
        obtain ⟨htype, hwritten⟩ := h.documents row hrow
        exact ⟨⟨htype, .delete, rfl⟩, hwritten, written_none, le_rfl⟩
    · intro d hd
      obtain ⟨hmem, hne⟩ := hkept d hd
      have hpresents : s.Presents d → (s.deleteDocument env.clock row).Presents d :=
        presents_deleteDocument h.sound hne
      have hletters : (s.deleteDocument env.clock row).deadLetters = s.deadLetters := rfl
      have hqueue : (s.deleteDocument env.clock row).queue.rows = s.queue.rows ++ [{
          id := s.queue.nextId, publicId := row.publicId, type := row.type
          action := Action.delete.name, oldData := row.json, newData := none
          createdAt := Clock.eventTime env.clock }] := rfl
      refine settled_of_told hqueue hletters (fun heq => hne ?_) hpresents (h.settled d hmem)
      exact congrArg _ (List.inj_on_of_nodup_map h.sound.documentKeys hmem hrow heq.symm)

theorem Store.Converging.addSpace (h : s.Converging tokens now) {p : String}
    (hfree : s.space? p = none) (title slug : String) (members : List Member) :
    Converging tokens now
      { s with spaces := s.spaces.add (Spaces.newSpace env p title slug), members } := by
  have hsound := Spaces.addSpace_sound env h.sound hfree title slug members
  set t : Store :=
    { s with spaces := s.spaces.add (Spaces.newSpace env p title slug), members } with ht
  have hextends : Extends s t := by
    refine ⟨fun node hnode => ⟨node, hnode, rfl, rfl⟩, fun space hspace => ?_, fun _ hpair => hpair⟩
    exact ⟨space, List.mem_append_left _ hspace, rfl, rfl⟩
  refine ⟨hsound, h.documents, h.events, h.letters, h.owned.congr rfl rfl, fun row hrow => ?_⟩
  rcases h.settled row hrow with hawaits | ⟨hidle, hfailed | hpresents⟩
  · exact Or.inl hawaits
  · exact Or.inr ⟨hidle, Or.inl hfailed⟩
  · refine Or.inr ⟨hidle, Or.inr fun document hdocument => ?_⟩
    refine shows_of_extends hsound.toGraphSound hextends (fun _ hnode => hnode) (fun _ q => ?_)
      (hpresents document hdocument)
    exact isMember_congr h.sound.toGraphSound hsound.toGraphSound hextends fun _ _ _ _ => Iff.rfl

end Write

end NodeGraph
