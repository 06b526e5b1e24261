import NodeGraph.Proofs.Store.Sound

/-!
The events and letters of a sound store: queueing an event and replaying the failures.
-/
namespace NodeGraph

namespace Store

variable {tokens : Tokenizer} {s : Store}

/-- The store after the latest failure of each document has been queued again. -/
def requeued (s : Store) : Store :=
  { s with
    queue := (Queue.latestFailures s.deadLetters.rows).foldl (fun queue letter =>
      queue.add (Queue.replay (s.document? letter.publicId letter.type) letter)) s.queue
    deadLetters := { s.deadLetters with rows := [] } }

/-- Another queue, and letters of which some are gone. -/
theorem Sound.withQueue (h : s.Sound tokens) {queue : Table QueuedEvent}
    (hqueue : queue.Numbered (·.id)) : Sound tokens { s with queue } :=
  ⟨h.toDocumentsSound.congr rfl, ⟨hqueue, h.letterIds⟩,
    h.toGraphSound.congr rfl rfl rfl rfl rfl⟩

theorem requeued_sound (h : s.Sound tokens) : s.requeued.Sound tokens := by
  have hqueue : s.requeued.queue.Numbered (·.id) := by
    apply Table.Numbered.foldl_add
    · intro letter id
      rfl
    · exact h.queueIds
  have hletters : s.requeued.deadLetters.Numbered (·.id) := by
    apply h.letterIds.sublist
    exact List.nil_sublist _
  exact ⟨h.toDocumentsSound.congr rfl, ⟨hqueue, hletters⟩,
    h.toGraphSound.congr rfl rfl rfl rfl rfl⟩

end Store

namespace Queue

open Store

/-- The letters that are replayed are the latest of their documents. -/
theorem mem_latestFailures {letters : List DeadLetter} {a : DeadLetter} :
    a ∈ latestFailures letters ↔
      a ∈ letters ∧ ∀ b ∈ letters, sameDocument a b = true → isLater a b = false := by
  unfold latestFailures
  rw [(List.mergeSort_perm _ _).mem_iff, List.mem_filter]
  simp

/-- What is queued after a replay: what was queued before, and the replays. -/
theorem mem_queue_requeued {s : Store} {e : QueuedEvent} :
    e ∈ s.requeued.queue.rows ↔ e ∈ s.queue.rows ∨
      ∃ letter ∈ latestFailures s.deadLetters.rows, ∃ i : ℕ,
        (latestFailures s.deadLetters.rows)[i]? = some letter ∧
        e = replay (s.document? letter.publicId letter.type) letter (s.queue.nextId + i) := by
  show e ∈ ((latestFailures s.deadLetters.rows).foldl (fun queue letter =>
    queue.add (replay (s.document? letter.publicId letter.type) letter)) s.queue).rows ↔ _
  rw [Table.rows_foldl_add (fun letter : DeadLetter =>
    replay (s.document? letter.publicId letter.type) letter), List.mem_append, List.mem_mapIdx]
  constructor
  · rintro (hold | ⟨i, hi, rfl⟩)
    · exact Or.inl hold
    · exact Or.inr ⟨_, List.getElem_mem hi, i, List.getElem?_eq_getElem hi, rfl⟩
  · rintro (hold | ⟨letter, -, i, hi, rfl⟩)
    · exact Or.inl hold
    · obtain ⟨hlt, rfl⟩ := List.getElem?_eq_some_iff.mp hi
      exact Or.inr ⟨i, hlt, rfl⟩

theorem exists_replay {s : Store} {letter : DeadLetter}
    (h : letter ∈ latestFailures s.deadLetters.rows) : ∃ id,
      replay (s.document? letter.publicId letter.type) letter id ∈ s.requeued.queue.rows := by
  obtain ⟨i, hi, rfl⟩ := List.mem_iff_getElem.mp h
  exact ⟨_, mem_queue_requeued.mpr
    (Or.inr ⟨_, List.getElem_mem hi, i, List.getElem?_eq_getElem hi, rfl⟩)⟩

theorem sameDocument_iff {a b : DeadLetter} :
    sameDocument a b = true ↔ a.publicId = b.publicId ∧ a.type = b.type := by
  simp [sameDocument]

/-- Of the failures of a document, one is the latest. -/
theorem exists_latestFailure {letters : List DeadLetter} {letter : DeadLetter}
    (h : letter ∈ letters) : ∃ latest ∈ latestFailures letters,
      latest.publicId = letter.publicId ∧ latest.type = letter.type := by
  set same := (letters.filter fun other => sameDocument letter other).toFinset with hsame
  have hmem : ∀ other, other ∈ same ↔ other ∈ letters ∧ sameDocument letter other = true := by
    intro other
    rw [hsame, List.mem_toFinset, List.mem_filter]
  obtain ⟨latest, hlatest, hmax⟩ := same.exists_max_image
    (fun other => toLex (other.eventCreatedAt, other.id))
    ⟨letter, (hmem letter).mpr ⟨h, sameDocument_iff.mpr ⟨rfl, rfl⟩⟩⟩
  obtain ⟨hthere, hkey⟩ := (hmem latest).mp hlatest
  rw [sameDocument_iff] at hkey
  refine ⟨latest, mem_latestFailures.mpr ⟨hthere, fun other hother hothersame => ?_⟩,
    hkey.1.symm, hkey.2.symm⟩
  rw [sameDocument_iff] at hothersame
  have hle := hmax other ((hmem other).mpr ⟨hother, sameDocument_iff.mpr
    ⟨hkey.1.trans hothersame.1, hkey.2.trans hothersame.2⟩⟩)
  rw [Prod.Lex.toLex_le_toLex] at hle
  unfold isLater
  rw [decide_eq_false_iff_not]
  omega

end Queue
end NodeGraph
