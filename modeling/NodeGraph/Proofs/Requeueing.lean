import NodeGraph.Proofs.Events
import NodeGraph.Proofs.Persistence

/-!
Requeueing: of every document that has failures the latest is queued again, once and in the order of
the failed events, with the document's present value; then all failures are forgotten.
-/
namespace NodeGraph

namespace Queue

variable {letters : List DeadLetter} {a b : DeadLetter}

/-! ### The latest failures -/

theorem isLater_iff : isLater a b = true ↔
    a.eventCreatedAt < b.eventCreatedAt ∨ (a.eventCreatedAt = b.eventCreatedAt ∧ a.id < b.id) := by
  unfold isLater
  exact decide_eq_true_iff

theorem sameDocument_iff_key : sameDocument a b = true ↔ a.key = b.key := by
  rw [sameDocument_iff]
  unfold DeadLetter.key
  rw [Prod.mk.injEq]

/-- Of two letters one is the later. -/
theorem isLater_of_not_isLater (hid : a.id ≠ b.id) (h : isLater a b = false) :
    isLater b a = true := by
  rw [← Bool.not_eq_true, isLater_iff] at h
  rw [isLater_iff]
  omega

theorem not_isLater_of_isLater (h : isLater a b = true) : isLater b a = false := by
  rw [isLater_iff] at h
  rw [← Bool.not_eq_true, isLater_iff]
  omega

/-- A failure is the latest if it is later than all others of its document. -/
theorem mem_latestFailures_iff (hids : (letters.map (·.id)).Nodup) : a ∈ latestFailures letters ↔
    a ∈ letters ∧ ∀ b ∈ letters, b.key = a.key → b ≠ a → isLater b a = true := by
  rw [mem_latestFailures]
  constructor
  · rintro ⟨ha, hlatest⟩
    refine ⟨ha, ?_⟩
    intro b hb hkey hne
    have hid : a.id ≠ b.id := fun heq => hne (List.inj_on_of_nodup_map hids hb ha heq.symm)
    exact isLater_of_not_isLater hid (hlatest b hb (sameDocument_iff_key.mpr hkey.symm))
  · rintro ⟨ha, hlatest⟩
    refine ⟨ha, ?_⟩
    intro b hb hsame
    by_cases heq : b = a
    · subst heq
      rw [← Bool.not_eq_true, isLater_iff]
      omega
    · exact not_isLater_of_isLater (hlatest b hb (sameDocument_iff_key.mp hsame).symm heq)

theorem ids_latestFailures_nodup (hids : (letters.map (·.id)).Nodup) :
    ((latestFailures letters).map (·.id)).Nodup := by
  unfold latestFailures
  rw [((List.mergeSort_perm _ _).map _).nodup_iff]
  exact hids.sublist (List.filter_sublist.map _)

/-- No document has two latest failures. -/
theorem keys_latestFailures_nodup (hids : (letters.map (·.id)).Nodup) :
    ((latestFailures letters).map DeadLetter.key).Nodup := by
  apply List.Nodup.map_on
  · intro a ha b hb hkey
    by_contra hne
    obtain ⟨hmem, hlatest⟩ := (mem_latestFailures_iff hids).mp ha
    obtain ⟨hmem', hlatest'⟩ := (mem_latestFailures_iff hids).mp hb
    have hlater := hlatest b hmem' hkey.symm (Ne.symm hne)
    have hearlier := hlatest' a hmem hkey hne
    rw [not_isLater_of_isLater hlater] at hearlier
    exact nomatch hearlier
  · exact (ids_latestFailures_nodup hids).of_map

/-- Every document that has a failure has a latest one. -/
theorem mem_keys_latestFailures (k : DocumentKey) :
    k ∈ (latestFailures letters).map DeadLetter.key ↔ k ∈ letters.map DeadLetter.key := by
  rw [List.mem_map, List.mem_map]
  constructor
  · rintro ⟨a, ha, rfl⟩
    exact ⟨a, (mem_latestFailures.mp ha).1, rfl⟩
  · rintro ⟨a, ha, rfl⟩
    obtain ⟨latest, hlatest, hpublicId, htype⟩ := exists_latestFailure ha
    exact ⟨latest, hlatest, Prod.ext hpublicId htype⟩

theorem length_latestFailures (hids : (letters.map (·.id)).Nodup) :
    (latestFailures letters).length = (letters.map DeadLetter.key).toFinset.card := by
  have hsame : ((latestFailures letters).map DeadLetter.key).toFinset =
      (letters.map DeadLetter.key).toFinset := by
    ext k
    rw [List.mem_toFinset, List.mem_toFinset, mem_keys_latestFailures]
  rw [← hsame, List.toFinset_card_of_nodup (keys_latestFailures_nodup hids), List.length_map]

theorem length_latestFailures_le : (latestFailures letters).length ≤ letters.length := by
  unfold latestFailures
  rw [(List.mergeSort_perm _ _).length_eq]
  exact List.length_filter_le _ _

/-- The latest failures are in the order of the events. -/
theorem latestFailures_sorted (hids : (letters.map (·.id)).Nodup) :
    (latestFailures letters).Pairwise fun a b => isLater a b = true := by
  have hsorted : (latestFailures letters).Pairwise fun a b =>
      stampLe (a.eventCreatedAt, a.id) (b.eventCreatedAt, b.id) = true :=
    @List.pairwise_mergeSort DeadLetter
      (fun a b => stampLe (a.eventCreatedAt, a.id) (b.eventCreatedAt, b.id))
      (fun _ _ _ => stampLe_trans) (fun _ _ => stampLe_total _ _) _
  have hapart : (latestFailures letters).Pairwise fun a b => a.id ≠ b.id :=
    List.pairwise_map.mp (ids_latestFailures_nodup hids)
  apply (hsorted.and hapart).imp
  rintro a b ⟨hle, hne⟩
  rw [stampLe_iff] at hle
  rw [isLater_iff]
  dsimp only at hle
  omega

end Queue

/-! ### The replays -/

/-- An event that replays a failure: it has the old value and the time of the event that failed.
Where the document exists it has the document's text, and an update stands for a deletion; else it
has what failed. -/
structure Store.Replays (s : Store) (letter : DeadLetter) (e : QueuedEvent) : Prop where
  key : e.key = letter.key
  oldData : e.oldData = letter.oldData
  createdAt : e.createdAt = letter.eventCreatedAt
  present : ∀ row ∈ s.documents.rows, row.key = letter.key → e.newData = row.json ∧
    e.action = if letter.action = Action.delete.name then Action.update.name else letter.action
  absent : (∀ row ∈ s.documents.rows, row.key ≠ letter.key) →
    e.newData = letter.newData ∧ e.action = letter.action

namespace Queue

variable {s : Store}

/-- A failure is replayed with the one document of its key. -/
theorem replays_replay (h : s.DocumentsSound) (letter : DeadLetter) (id : ℤ) :
    s.Replays letter (replay (s.document? letter.publicId letter.type) letter id) where
  key := rfl
  oldData := rfl
  createdAt := rfl
  present := by
    intro row hrow hkey
    obtain ⟨hpublicId, htype⟩ := Prod.mk.inj hkey
    have hdocument : s.document? letter.publicId letter.type = some row :=
      h.document?_eq_some.mpr ⟨hrow, hpublicId, htype⟩
    rw [hdocument]
    unfold replay
    simp
  absent := by
    intro habsent
    have hdocument : s.document? letter.publicId letter.type = none :=
      Store.document?_eq_none.mpr habsent
    rw [hdocument]
    exact ⟨rfl, rfl⟩

end Queue

/-- Rows that are added in order, one for each item. -/
theorem Table.forall₂_mapIdx {α ρ : Type} {R : α → ρ → Prop} (items : List α) {f : ℕ → α → ρ}
    (h : ∀ i a, R a (f i a)) : List.Forall₂ R items (items.mapIdx f) := by
  induction items generalizing f with
  | nil => exact List.Forall₂.nil
  | cons a rest ih =>
    rw [List.mapIdx_cons]
    exact List.Forall₂.cons (h 0 a) (ih fun i => h (i + 1))

/-- In a reachable store, requeueing replays of each document that has failures the latest: the one
later than all others. The replays are added to the queue in the order of the failed events, one
for each; their number is returned, which is that of the documents and at most that of the failures.
Then no failure is left, and nothing else has changed. -/
theorem Reachable.requeues {tokens : Tokenizer} {s : Store} (h : Reachable tokens s) :
    let letters := s.deadLetters.rows
    let latest := Queue.latestFailures letters
    ((∀ a, a ∈ latest ↔ a ∈ letters ∧
        ∀ b ∈ letters, b.key = a.key → b ≠ a → Queue.isLater b a = true) ∧
      (latest.map DeadLetter.key).Nodup ∧
      (∀ k, k ∈ latest.map DeadLetter.key ↔ k ∈ letters.map DeadLetter.key) ∧
      latest.Pairwise fun a b => Queue.isLater a b = true) ∧
    ∃ count t events, Queue.requeue s = .ok count t ∧
      (count = (letters.map DeadLetter.key).toFinset.card ∧ count ≤ letters.length) ∧
      (t.queue.rows = s.queue.rows ++ events ∧ List.Forall₂ s.Replays latest events ∧
        events.map (·.id) = (List.range count).map fun i : ℕ => s.queue.nextId + (i : ℤ)) ∧
      t.deadLetters.rows = [] ∧
      t = { s with queue := t.queue, deadLetters := t.deadLetters } := by
  intro letters latest
  have hids : (letters.map (·.id)).Nodup := h.sound.letterIds.nodup
  refine ⟨⟨fun a => Queue.mem_latestFailures_iff hids, Queue.keys_latestFailures_nodup hids,
    Queue.mem_keys_latestFailures, Queue.latestFailures_sorted hids⟩, ?_⟩
  let replayed := fun (i : ℕ) (letter : DeadLetter) =>
    Queue.replay (s.document? letter.publicId letter.type) letter (s.queue.nextId + i)
  refine ⟨latest.length, s.requeued, latest.mapIdx replayed, rfl,
    ⟨Queue.length_latestFailures hids, Queue.length_latestFailures_le⟩, ⟨?_, ?_, ?_⟩, rfl, rfl⟩
  · exact Table.rows_foldl_add (fun letter : DeadLetter =>
      Queue.replay (s.document? letter.publicId letter.type) letter) latest s.queue
  · apply Table.forall₂_mapIdx
    intro i letter
    exact Queue.replays_replay h.sound.toDocumentsSound letter _
  · apply List.ext_getElem
    · simp
    · intro i _ _
      simp [replayed, Queue.replay]

/-- Two events of a space that is not there fail; so does a deletion of a document that is there,
with an old value that is cut off. All are of the same time. -/
def failingTogether : List (ℤ × Operation) :=
  let deletion : Foreign.Cells :=
    [("public_id", .text "a"), ("document_type", .text "EDITOR"), ("action", .text "DELETE"),
      ("old_data", .text "["), ("created_at", .int 999)]
  [.upsert "a" .editor [] (some (.int 7)), .upsert "s" .space [] (some (.obj [])),
    .upsert "s" .space [] (some (.arr [])), .upsert "s" .space [] none, .addEvent deletion].flatMap
    fun write => [(1000, write), (1000, .pass 1 false 60000)]

/-- The later of the two failures of the space. -/
def failedUpdate : DeadLetter :=
  ⟨2, 3, "s", "SPACE", "UPDATE", some "\x7b\x7d", some "[]", 999,
    (Fault.missingSpace "s").message, 1000⟩

def failedDeletion : DeadLetter :=
  ⟨3, 5, "a", "EDITOR", "DELETE", some "[", none, 999, Fault.malformedJson.message, 1000⟩

theorem Reachable.requeues_failingTogether :
    let s := History.run String.length failingTogether {}
    Reachable String.length s ∧ s.deadLetters.rows.length = 3 ∧ s.queue.rows = [] ∧
      ∃ t update deletion, Queue.requeue s = .ok 2 t ∧ t.deadLetters.rows = [] ∧
        t.queue.rows = [update, deletion] ∧
        (update.id, update.action, update.oldData, update.newData) =
          (6, "UPDATE", some "\x7b\x7d", none) ∧
        (deletion.id, deletion.action, deletion.oldData, deletion.newData) =
          (7, "UPDATE", some "[", some "7") := by
  intro s
  have hreachable : Reachable String.length s :=
    Reachable.empty.run (by simp [failingTogether, Operation.Held])
  have hfree : s.queue.rows = [] := by decide +kernel
  have hlatest : Queue.latestFailures s.deadLetters.rows = [failedUpdate, failedDeletion] := by
    have hfiltered : s.deadLetters.rows.filter (fun a =>
        !s.deadLetters.rows.any fun b => Queue.sameDocument a b && Queue.isLater a b) =
          [failedUpdate, failedDeletion] := by
      decide +kernel
    unfold Queue.latestFailures
    rw [hfiltered]
    exact List.mergeSort_of_pairwise (by decide)
  obtain ⟨-, count, t, events, hrequeue, ⟨hcount, -⟩, ⟨hqueue, hevents, hids⟩, hempty, -⟩ :=
    hreachable.requeues
  have hcount : count = 2 := hcount.trans (by decide +kernel)
  subst hcount
  rw [hlatest] at hevents
  obtain ⟨update, _, hupdate, hlast, rfl⟩ := List.forall₂_cons_left_iff.mp hevents
  obtain ⟨deletion, _, hdeletion, hnone, rfl⟩ := List.forall₂_cons_left_iff.mp hlast
  obtain rfl := List.forall₂_nil_left_iff.mp hnone
  obtain ⟨hid, hid'⟩ : update.id = 6 ∧ deletion.id = 7 := by
    have hnext : s.queue.nextId = 6 := by decide +kernel
    rw [hnext] at hids
    simpa [List.range_succ] using hids
  obtain ⟨hvalue, haction⟩ := hupdate.present ⟨2, "s", "SPACE", [], none, 1000, 1000⟩
    (by decide +kernel) rfl
  obtain ⟨hvalue', haction'⟩ := hdeletion.present ⟨1, "a", "EDITOR", [], some "7", 1000, 1000⟩
    (by decide +kernel) rfl
  rw [hfree] at hqueue
  refine ⟨hreachable, by decide +kernel, hfree, t, update, deletion, hrequeue, hempty, hqueue, ?_,
    ?_⟩
  · rw [hid, haction, hupdate.oldData, hvalue]
    rfl
  · rw [hid', haction', hdeletion.oldData, hvalue']
    rfl

end NodeGraph
