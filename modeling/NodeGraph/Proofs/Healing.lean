import NodeGraph.Proofs.Courses
import NodeGraph.Proofs.Obstacles

/-!
Healing: a failure whose document can be read by now, and whose space is there, is replayed with the
value of the document. The replay still carries the old value of the event that failed, and fails
again if and only if that one cannot be read.
-/
namespace NodeGraph

open Store

/-! ### Spaces stay -/

theorem Course.persists_run {tokens : Tokenizer} {s : Store} {course : List Occurrence}
    (h : Reachable tokens s) (hheld : ∀ o ∈ course, o.Held) :
    Persists s (run tokens course s) := by
  induction course generalizing s with
  | nil => exact .refl s
  | cons o rest ih =>
    obtain ⟨ho, hrest⟩ := List.forall_mem_cons.mp hheld
    have hfirst : Persists s (o.run tokens s) := by
      cases o with
      | operation clock op =>
        have hquiet : ({ clock, tokens } : Env).rivals = {} := rfl
        exact op.persists_perform hquiet h.sound
      | passes schedule => exact persists_passes h.sound schedule
    exact hfirst.trans (ih (Occurrence.reachable_run ho h) hrest)

/-! ### What fails -/

namespace QueuedEvent

variable {e : QueuedEvent} {s : Store}

/-- An event of known kinds is not understood if and only if one of its values is not. -/
theorem exists_decode_error_iff (h : IsNamed e.type e.action) :
    (∃ fault, e.decode = .error fault) ↔
      (∃ fault, decodePayload e.oldData = .error fault) ∨
        ∃ fault, decodePayload e.newData = .error fault := by
  obtain ⟨⟨t, ht⟩, a, ha⟩ := h
  unfold decode
  rw [kinds_of_isNamed ht ha]
  cases decodePayload e.oldData with
  | error fault => simp [bind, Except.bind]
  | ok oldData => cases decodePayload e.newData <;> simp [bind, Except.bind, pure, Except.pure]

/-- An event of known kinds that lacks no space, and whose nodes fit, is buried if and only if it is
not understood. -/
theorem exists_buried_iff (h : IsNamed e.type e.action)
    (hspace : e.type = DocumentType.space.name → s.space? e.publicId ≠ none)
    (hfits : ∀ event, e.decode = .ok event → (Plan.ofEvent event).Fits s) :
    (∃ fault, e.verdict s = .buried fault) ↔ ∃ fault, e.decode = .error fault := by
  rcases verdict_cases h s with ⟨fault, hfault, hburied⟩ | ⟨event, hevent, hverdict⟩
  · exact ⟨fun _ => ⟨fault, hfault⟩, fun _ => ⟨fault, hburied⟩⟩
  · rcases hverdict with ⟨p, hobstacle, -⟩ | ⟨-, hcarried⟩
    · obtain ⟨hlacks, -⟩ := (Plan.obstacle?_ofEvent_iff (hfits event hevent)).mp hobstacle
      obtain ⟨hname, -⟩ := names_of_decode hevent
      have hnone := Store.space?_eq_none.mpr hlacks.absent
      rw [(decode_eq_ok.mp hevent).2.2.2.2.1] at hnone
      exact absurd hnone (hspace (hname.symm.trans (congrArg DocumentType.name hlacks.type)))
    · rw [hcarried, hevent]
      simp

end QueuedEvent

namespace Pass

variable {env : Env} {s u : Store}

theorem fate_eq_failed {e : QueuedEvent} {fault : Fault} :
    fate s e = .failed fault ↔ e.verdict s = .buried fault := by
  unfold fate reported
  cases e.verdict s with
  | carried plan => cases houtcome : plan.outcome <;> simp [houtcome]
  | dropped => simp
  | buried other => simp

theorem mem_failed {fate : QueuedEvent → Attempt} {events : List QueuedEvent} {e : QueuedEvent}
    {fault : Fault} :
    (e, fault) ∈ failed fate events ↔ e ∈ events ∧ fate e = .failed fault := by
  unfold failed
  rw [List.mem_filterMap]
  constructor
  · rintro ⟨other, hother, hentry⟩
    obtain ⟨_, hfault, heq⟩ := Option.map_eq_some_iff.mp hentry
    obtain ⟨rfl, rfl⟩ := Prod.mk.inj heq
    cases hfate : fate other <;> simp_all [Attempt.fault?]
  · rintro ⟨he, hfate⟩
    exact ⟨e, he, by simp [hfate]⟩

/-- A lenient pass that completes writes letters of the events that are buried when their turn
comes, and leaves nothing queued. -/
theorem letters_of_completed (quiet : env.rivals = {}) (h : s.Sound env.tokens) {owner : ℕ}
    {ttl : ℤ} {tally : Tally} (hrun : run env owner false ttl s = .ok (.completed tally) u) :
    u.queue.rows = [] ∧ ∃ letters, u.deadLetters.rows = s.deadLetters.rows ++ letters ∧
      ∀ e ∈ s.queue.rows, (∃ letter ∈ letters, letter.event = e) ↔
        ∃ fault, e.verdict (turnOf env s e) = .buried fault := by
  have hfree : Lease.isTaken env.now Lease.processing s = false := by
    rw [Bool.eq_false_iff]
    intro htaken
    have hcontended : run env owner false ttl s = .ok .contended s := by
      unfold run
      rw [underLease_eq, acquire_of_taken htaken]
    rw [hcontended] at hrun
    cases hrun
  have hleased : (leased env.now owner Lease.processing ttl s).Sound env.tokens :=
    withLeases_sound h _
  have hfated := fated_pending env h.queueIds
  obtain ⟨-, rfl⟩ :=
    EStateM.Result.ok.inj ((run_eq quiet h hfated owner ttl hfree).symm.trans hrun)
  refine ⟨queue_settled quiet hleased fun e he => mem_pending.mpr he, _,
    deadLetters_settled quiet hleased (hfated.leased quiet h _ _ _), fun e he => ?_⟩
  set t := leased env.now owner Lease.processing ttl s
  have hevents : ((failed (fateOf env s) t.pending).mapIdx fun i entry =>
      entry.1.letter env.now entry.2 (t.deadLetters.nextId + i)).map DeadLetter.event =
        (failed (fateOf env s) t.pending).map Prod.fst :=
    List.ext_getElem (by simp) fun i _ _ => by simp
  rw [← List.mem_map, hevents, List.mem_map]
  constructor
  · rintro ⟨⟨other, fault⟩, hfailed, rfl⟩
    exact ⟨fault, fate_eq_failed.mp (mem_failed.mp hfailed).2⟩
  · rintro ⟨fault, hburied⟩
    exact ⟨(e, fault), mem_failed.mpr ⟨mem_pending.mpr he, fate_eq_failed.mpr hburied⟩, rfl⟩

end Pass

theorem Queue.isNamed_replay {document : Option DocumentRow} {letter : DeadLetter} {id : ℤ}
    (h : IsNamed letter.type letter.action) :
    IsNamed (replay document letter id).type (replay document letter id).action := by
  refine ⟨h.1, ?_⟩
  unfold replay
  dsimp only
  split
  · exact ⟨.update, rfl⟩
  · exact h.2

/-- Let the latest failure of a document be requeued while the document is there, its value can be
read and, if it is one of a space, so is the space, with no more nodes listed than one statement
can be given. Its replay carries the value of the document, and whatever happens while it is queued,
the next lenient pass that completes takes it off the queue and fails it again if and only if the
old value of the failed event cannot be read. -/
theorem Reachable.heals_iff {tokens : Tokenizer} {s : Store} (h : Reachable tokens s)
    {letter : DeadLetter} (hletter : letter ∈ Queue.latestFailures s.deadLetters.rows)
    {row : DocumentRow} (hrow : s.document? letter.publicId letter.type = some row)
    {json : Option Json} (hjson : decodePayload row.json = .ok json)
    (hspace : letter.type = DocumentType.space.name → s.space? letter.publicId ≠ none)
    (hshort : letter.type = DocumentType.space.name →
      ∀ v ∈ json, 2 * (Plan.titlesIn v).length ≤ maxParameters) (clock : ℤ) :
    let start := Operation.requeue.perform { clock, tokens } s
    ∃ id, let replay := Queue.replay (some row) letter id
      replay ∈ start.queue.rows ∧ replay.newData = row.json ∧
      ∀ (later : List Occurrence), (∀ o ∈ later, o.Held) →
        let t := Course.run tokens later start
        replay ∈ t.queue.rows → ∀ (passClock : ℤ) (owner : ℕ) (ttl : ℤ) (tally : Tally) (u : Store),
          Pass.run { clock := passClock, tokens } owner false ttl t = .ok (.completed tally) u →
          u.queue.rows = [] ∧ ∃ letters, u.deadLetters.rows = t.deadLetters.rows ++ letters ∧
            ((∃ failure ∈ letters, failure.event = replay) ↔
              ∃ fault, decodePayload letter.oldData = .error fault) := by
  intro start
  have hstart : Reachable tokens start := h.perform clock .requeue trivial
  obtain ⟨id, hreplay⟩ := Queue.exists_replay hletter
  rw [hrow] at hreplay
  refine ⟨id, hreplay, rfl, ?_⟩
  intro later hheld t hqueued passClock owner ttl tally u hrun
  set replay := Queue.replay (some row) letter id with hdef
  have hquiet : ({ clock := passClock, tokens } : Env).rivals = {} := rfl
  have ht : t.Sound tokens := (Course.reachable_run hstart hheld).sound
  obtain ⟨hempty, letters, hletters, hburied⟩ := Pass.letters_of_completed hquiet ht hrun
  refine ⟨hempty, letters, hletters, ?_⟩
  have hnamed : IsNamed replay.type replay.action :=
    Queue.isNamed_replay (h.letters_named letter (Queue.mem_latestFailures.mp hletter).1)
  set env : Env := { clock := passClock, tokens }
  set turn := Pass.turnOf env t replay with hturn
  have hsound : turn.Sound tokens := Pass.foldl_settle_sound hquiet ht _
  -- Neither the requeueing nor anything later takes a space away.
  have hthere : replay.type = DocumentType.space.name → turn.space? replay.publicId ≠ none := by
    intro htype
    have hkept : start.space? replay.publicId ≠ none := hspace htype
    have hpersists := (Course.persists_run hstart hheld).trans
      (Pass.persists_foldl_settle hquiet ht (t.pending.takeWhile (·.id ≠ replay.id)))
    exact space?_ne_none_of_extends hsound.toGraphSound hpersists.toExtends hkept
  have hnew : decodePayload replay.newData = .ok json := hjson
  have hfits : ∀ event, replay.decode = .ok event → (Plan.ofEvent event).Fits turn := by
    intro event hevent
    have hdata : event.newData = json :=
      Except.ok.inj ((QueuedEvent.decode_eq_ok.mp hevent).2.2.1.symm.trans hnew)
    obtain ⟨hname, -⟩ := QueuedEvent.names_of_decode hevent
    refine (Plan.short_ofEvent fun htype => ?_).fits hsound.toGraphSound
      (Plan.sound_ofEvent (QueuedEvent.sound_decode hevent))
    rw [hdata]
    exact hshort (hname.symm.trans (congrArg DocumentType.name htype))
  rw [hburied replay hqueued, QueuedEvent.exists_buried_iff hnamed hthere hfits,
    QueuedEvent.exists_decode_error_iff hnamed]
  rw [hnew]
  simp [hdef, Queue.replay]

/-- The first write of a space document fails, since the space is created only then. -/
def spacelessFirst : List (ℤ × Operation) :=
  [(1000, .upsert "s" .space [] (some .null)), (2000, .pass 1 false 60000),
    (3000, .createSpace "s" "" none fun _ => "")]

def spacelessLetter : DeadLetter where
  id := 1
  eventId := 1
  publicId := "s"
  type := "SPACE"
  action := "INSERT"
  oldData := none
  newData := some "null"
  eventCreatedAt := Clock.eventTime 1000
  error := (Fault.missingSpace "s").message
  failedAt := 2000

theorem Reachable.heals_spacelessFirst :
    let s := History.run String.length spacelessFirst {}
    let start := Operation.requeue.perform { clock := 4000, tokens := String.length } s
    Reachable String.length s ∧ spacelessLetter ∈ Queue.latestFailures s.deadLetters.rows ∧
      s.document? "s" "SPACE" = some ⟨1, "s", "SPACE", [], some "null", 1000, 1000⟩ ∧
      decodePayload (some "null") = .ok (some .null) ∧ s.space? "s" ≠ none ∧
      2 * (Plan.titlesIn .null).length ≤ maxParameters ∧
      ∃ tally u, Pass.run { clock := 5000, tokens := String.length } 1 false 60000 start =
          .ok (.completed tally) u ∧ u.queue.rows = [] ∧
        ∃ replay ∈ start.queue.rows, ∀ failure ∈ u.deadLetters.rows, failure.event ≠ replay := by
  intro s start
  have hreachable : Reachable String.length s :=
    Reachable.empty.run (by simp [spacelessFirst, Operation.Held])
  have hletter : spacelessLetter ∈ Queue.latestFailures s.deadLetters.rows := by decide +kernel
  have hrow : s.document? "s" "SPACE" = some ⟨1, "s", "SPACE", [], some "null", 1000, 1000⟩ := by
    decide +kernel
  have hjson : decodePayload (some "null") = .ok (some .null) := by rfl
  have hspace : s.space? "s" ≠ none := by decide +kernel
  have hfree : Lease.isTaken (Clock.now 5000) Lease.processing start = false := by decide +kernel
  have hshort : 2 * (Plan.titlesIn .null).length ≤ maxParameters := by decide
  obtain ⟨id, hreplay, -, hheals⟩ := hreachable.heals_iff hletter hrow hjson (fun _ => hspace)
    (fun _ v hv => Option.some.inj hv ▸ hshort) 4000
  obtain ⟨tally, hrun⟩ := Pass.run_lenient { clock := 5000, tokens := String.length } 1 60000 hfree
  obtain ⟨hempty, letters, hletters, hfails⟩ :=
    hheals [] (by simp) hreplay 5000 1 60000 tally _ hrun
  refine ⟨hreachable, hletter, hrow, hjson, hspace, hshort, tally, _, hrun, hempty, _, hreplay, ?_⟩
  intro failure hfailure hevent
  have hnew : failure ∈ letters := by
    rw [hletters] at hfailure
    exact hfailure
  obtain ⟨fault, hfault⟩ := hfails.mp ⟨failure, hnew, hevent⟩
  cases hfault

/-- A document is written by another program with a value that is cut off, and then written anew;
neither event is understood. -/
def cutOffThenWritten : List (ℤ × Operation) :=
  [(1000, .addDocument [("created_at", .int 1000), ("data", .bytes []),
      ("document_type", .text "EDITOR"), ("json", .text "["), ("public_id", .text "x"),
      ("updated_at", .int 1000)]),
    (2000, .pass 1 false 60000), (3000, .upsert "x" .editor [] (some .null)),
    (4000, .pass 1 false 60000)]

/-- The document can be read, and its latest failure is replayed with its value, but the replay
fails for the value that was there before. -/
theorem replay_fails_again :
    let s := History.run String.length cutOffThenWritten {}
    let start := Operation.requeue.perform { clock := 5000, tokens := String.length } s
    let u := (Pass.run { clock := 6000, tokens := String.length } 1 false 60000).outcome start
    Reachable String.length s ∧
      (Queue.latestFailures s.deadLetters.rows).map DeadLetter.event =
        [⟨2, "x", "EDITOR", "UPDATE", some "[", some "null", Clock.eventTime 3000⟩] ∧
      (s.document? "x" "EDITOR").map (·.json) = some (some "null") ∧
      decodePayload (some "null") = .ok (some .null) ∧
      start.queue.rows =
        [⟨3, "x", "EDITOR", "UPDATE", some "[", some "null", Clock.eventTime 3000⟩] ∧
      u.1.toOption = some (.completed { claimed := 1, failed := 1 }) ∧
      u.2.deadLetters.rows.map DeadLetter.event =
        [⟨3, "x", "EDITOR", "UPDATE", some "[", some "null", Clock.eventTime 3000⟩] := by
  intro s start u
  have hreachable : Reachable String.length s :=
    Reachable.empty.run (by simp [cutOffThenWritten, Operation.Held])
  exact ⟨hreachable, by decide +kernel, by decide +kernel, by rfl, by decide +kernel,
    by decide +kernel, by decide +kernel⟩

end NodeGraph
