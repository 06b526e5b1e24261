import NodeGraph.Proofs.Courses
import NodeGraph.Proofs.Replay

/-!
Precedence: a replay keeps the time of the event that failed first. It comes before an event that
was enqueued later if and only if the clock showed another time by then, since its own id is new.
-/
namespace NodeGraph

open Store

/-! ### Times -/

namespace Store

variable {s t : Store} {id time : ℤ}

/-- The event of that id, wherever it is now, is of that time. -/
structure Dates (id time : ℤ) (s : Store) : Prop where
  given : id ≤ s.queue.lastId
  events : ∀ e ∈ s.queue.rows, e.id = id → e.createdAt = time
  letters : ∀ letter ∈ s.deadLetters.rows, letter.eventId = id → letter.eventCreatedAt = time

/-- An event keeps its time while it is queued and when it fails. -/
theorem Dates.follows {dated : Prop} (hdated : dated) (hfollows : Follows dated s t)
    (h : s.Dates id time) : t.Dates id time := by
  have htimes := hfollows.times hdated
  refine ⟨h.given.trans htimes.lastId, fun e he hid => ?_, fun letter hletter hid => ?_⟩
  · obtain ⟨old, hold, hoid, htime⟩ := htimes.rows e he (hid.trans_le h.given)
    exact htime.symm.trans (h.events old hold (hoid.trans hid))
  · rcases hfollows.letters letter hletter with ⟨old, hold, hevent⟩ | ⟨hqueued, -⟩
    · have hoid : old.eventId = letter.eventId := congrArg QueuedEvent.id hevent
      have htime : old.eventCreatedAt = letter.eventCreatedAt :=
        congrArg QueuedEvent.createdAt hevent
      exact htime.symm.trans (h.letters old hold (hoid.trans hid))
    · exact h.events letter.event hqueued hid

/-- A queued event that no letter tells of is of its time. -/
theorem dates_of_mem (hids : s.queue.Numbered (·.id)) {e : QueuedEvent} (he : e ∈ s.queue.rows)
    (hletters : ∀ letter ∈ s.deadLetters.rows, letter.eventId ≠ e.id) :
    s.Dates e.id e.createdAt :=
  ⟨hids.2 e he, fun _ hother hid => congrArg QueuedEvent.createdAt (hids.eq_of_id_eq hother he hid),
    fun letter hletter hid => absurd hid (hletters letter hletter)⟩

/-- Of two queued events the one with the smaller stamp is processed first. -/
theorem pair_sublist_pending {a b : QueuedEvent}
    (ha : a ∈ s.queue.rows) (hb : b ∈ s.queue.rows) (hne : a.id ≠ b.id) :
    [a, b].Sublist s.pending ↔ stampLe a.stamp b.stamp = true := by
  have hsorted : ∀ a b, [a, b].Sublist s.pending → stampLe a.stamp b.stamp = true := fun _ _ =>
    List.pairwise_iff_forall_sublist.mp (Pass.pending_sorted s)
  refine ⟨hsorted a b, fun hle => ?_⟩
  obtain ⟨before, after, hsplit⟩ := List.append_of_mem (Pass.mem_pending.mpr ha)
  have hmem : b ∈ before ++ a :: after := hsplit ▸ Pass.mem_pending.mpr hb
  rw [hsplit] at hsorted ⊢
  rcases List.mem_append.mp hmem with hbefore | hafter
  · have hswapped : [b, a].Sublist (before ++ a :: after) :=
      (List.singleton_sublist.mpr hbefore).append (List.singleton_sublist.mpr List.mem_cons_self)
    have hstamps := stampLe_antisymm hle (hsorted b a hswapped)
    exact absurd (congrArg Prod.snd hstamps) hne
  · rcases List.mem_cons.mp hafter with rfl | hafter
    · exact absurd rfl hne
    · exact ((List.singleton_sublist.mpr hafter).cons_cons a).trans
        (List.sublist_append_right before (a :: after))

end Store

/-! ### Replays of replays -/

/-- In the course the event of that id was enqueued when the clock showed the time, or it replays
the failure of such an event, be it a replay itself. -/
inductive Stems (tokens : Tokenizer) (time : ℤ) : List Occurrence → ℤ → Prop
  | enqueued (course : List Occurrence) (p type action : String) (oldData newData : Option Json) :
    Stems tokens time
      (course ++ [.operation time (.enqueue p type action oldData newData)])
      (Course.run tokens course {}).queue.nextId
  | later {course : List Occurrence} {id : ℤ} (h : Stems tokens time course id) (o : Occurrence) :
    Stems tokens time (course ++ [o]) id
  | replayed {course : List Occurrence} {letter : DeadLetter}
    (h : Stems tokens time course letter.eventId) (clock : ℤ) {i : ℕ}
    (hletter : (Queue.latestFailures (Course.run tokens course {}).deadLetters.rows)[i]? =
      some letter) :
    Stems tokens time (course ++ [.operation clock .requeue])
      ((Course.run tokens course {}).queue.nextId + i)

section

variable {tokens : Tokenizer} {course : List Occurrence}

theorem Course.sound_run (tokens : Tokenizer) (hheld : ∀ o ∈ course, o.Held) :
    (run tokens course {}).Sound tokens :=
  (reachable_run .empty hheld).sound

/-- No letter tells of an id that has not been given yet. -/
theorem Course.eventId_le (hheld : ∀ o ∈ course, o.Held) (hkept : ∀ o ∈ course, o.KeepsTimes) :
    ∀ letter ∈ (run tokens course {}).deadLetters.rows,
      letter.eventId ≤ (run tokens course {}).queue.lastId := by
  induction course using List.reverseRecOn with
  | nil => exact fun letter hletter => absurd hletter List.not_mem_nil
  | append_singleton course o ih =>
    obtain ⟨hheld, -⟩ := List.forall_mem_append.mp hheld
    obtain ⟨hkept, hlast⟩ := List.forall_mem_append.mp hkept
    have hlast : o.KeepsTimes := List.forall_mem_singleton.mp hlast
    have hsound := sound_run tokens hheld
    have hfollows := o.follows_run hsound
    rw [run_concat]
    intro letter hletter
    refine le_trans ?_ (hfollows.times hlast).lastId
    rcases hfollows.letters letter hletter with ⟨old, hold, hevent⟩ | ⟨hqueued, -⟩
    · have hid : old.eventId = letter.eventId := congrArg QueuedEvent.id hevent
      exact hid ▸ ih hheld hkept old hold
    · exact hsound.queueIds.2 letter.event hqueued

/-- Through all failures and replays an event keeps the time at which it was enqueued. -/
theorem Stems.dates {time id : ℤ} (h : Stems tokens time course id)
    (hheld : ∀ o ∈ course, o.Held) (hkept : ∀ o ∈ course, o.KeepsTimes) :
    (Course.run tokens course {}).Dates id (Clock.now time) := by
  induction h with
  | enqueued course p type action oldData newData =>
    obtain ⟨hheld', -⟩ := List.forall_mem_append.mp hheld
    obtain ⟨hkept', -⟩ := List.forall_mem_append.mp hkept
    have hsound := Course.sound_run tokens hheld
    rw [Course.run_concat] at hsound ⊢
    set s := Course.run tokens course {}
    refine dates_of_mem hsound.queueIds (List.mem_append_right _ (List.mem_singleton_self _))
      fun letter hletter => ?_
    have hold : letter.eventId ≤ s.queue.lastId := Course.eventId_le hheld' hkept' letter hletter
    exact ne_of_lt (Int.lt_add_one_of_le hold)
  | later _ o ih =>
    obtain ⟨hheld, -⟩ := List.forall_mem_append.mp hheld
    obtain ⟨hkept, hlast⟩ := List.forall_mem_append.mp hkept
    rw [Course.run_concat]
    exact (ih hheld hkept).follows (List.forall_mem_singleton.mp hlast)
      (o.follows_run (Course.sound_run tokens hheld))
  | @replayed course letter _ clock i hletter ih =>
    obtain ⟨hheld', -⟩ := List.forall_mem_append.mp hheld
    obtain ⟨hkept', -⟩ := List.forall_mem_append.mp hkept
    have hsound := Course.sound_run tokens hheld
    rw [Course.run_concat] at hsound ⊢
    set s := Course.run tokens course {}
    have hmem := List.mem_of_getElem? hletter
    have htime : letter.eventCreatedAt = Clock.now time :=
      (ih hheld' hkept').letters letter (Queue.mem_latestFailures.mp hmem).1 rfl
    have hreplay := Queue.mem_queue_requeued.mpr (Or.inr ⟨letter, hmem, i, hletter, rfl⟩)
    rw [← htime]
    exact dates_of_mem hsound.queueIds hreplay fun other hother => absurd hother List.not_mem_nil

/-- However often an event has failed and been replayed before, its replay comes before a queued
event that was enqueued at another time, directly or by a replay of its own, if and only if the
clock showed an earlier time then; of two events of the same time the replay comes last. -/
theorem Stems.precedes_iff {letter : DeadLetter} {i : ℕ} {e : QueuedEvent} {time₁ time₂ : ℤ}
    (hheld : ∀ o ∈ course, o.Held) (hkept : ∀ o ∈ course, o.KeepsTimes)
    (hletter : (Queue.latestFailures (Course.run tokens course {}).deadLetters.rows)[i]? =
      some letter)
    (hfailed : Stems tokens time₁ course letter.eventId)
    (he : e ∈ (Course.run tokens course {}).queue.rows)
    (hqueued : Stems tokens time₂ course e.id) (clock : ℤ) :
    let s := Course.run tokens course {}
    let replay := Queue.replay (s.document? letter.publicId letter.type) letter (s.queue.nextId + i)
    let t := Operation.requeue.perform { clock, tokens } s
    (replay ∈ t.queue.rows ∧ e ∈ t.queue.rows) ∧
      ([replay, e].Sublist t.pending ↔ Clock.now time₁ < Clock.now time₂) ∧
      ([e, replay].Sublist t.pending ↔ Clock.now time₂ ≤ Clock.now time₁) := by
  intro s replay t
  have hsound : s.Sound tokens := Course.sound_run tokens hheld
  have hmem := List.mem_of_getElem? hletter
  have hreplay : replay ∈ t.queue.rows :=
    Queue.mem_queue_requeued.mpr (Or.inr ⟨letter, hmem, i, hletter, rfl⟩)
  have hthere : e ∈ t.queue.rows := Queue.mem_queue_requeued.mpr (Or.inl he)
  have htime₁ : replay.createdAt = Clock.now time₁ :=
    (hfailed.dates hheld hkept).letters letter (Queue.mem_latestFailures.mp hmem).1 rfl
  have htime₂ : e.createdAt = Clock.now time₂ := (hqueued.dates hheld hkept).events e he rfl
  have hlater : e.id < replay.id :=
    lt_of_lt_of_le (hsound.queueIds.lt_nextId e he)
      (Int.le_add_of_nonneg_right (Int.natCast_nonneg i))
  refine ⟨⟨hreplay, hthere⟩, ?_, ?_⟩
  · rw [pair_sublist_pending hreplay hthere hlater.ne', stampLe_iff]
    unfold QueuedEvent.stamp
    dsimp only
    omega
  · rw [pair_sublist_pending hthere hreplay hlater.ne, stampLe_iff]
    unfold QueuedEvent.stamp
    dsimp only
    omega

end

/-- The members of a space that is not there are set, which fails; so does the replay, and then they
are set again. -/
def twiceFailed : List Occurrence :=
  [.operation 1000 (.enqueue "s" "SPACE" "UPDATE" none (some .null)),
    .operation 1500 (.pass 1 false 60000), .operation 2000 .requeue,
    .operation 2500 (.pass 1 false 60000),
    .operation 3000 (.enqueue "s" "SPACE" "UPDATE" none (some .null))]

def twiceFailedLetter : DeadLetter where
  id := 2
  eventId := 2
  publicId := "s"
  type := "SPACE"
  action := "UPDATE"
  oldData := none
  newData := some "null"
  eventCreatedAt := 1000
  error := (Fault.missingSpace "s").message
  failedAt := 2500

theorem Stems.precedes_twiceFailed :
    let s := Course.run String.length twiceFailed {}
    let e : QueuedEvent := ⟨3, "s", "SPACE", "UPDATE", none, some "null", 3000⟩
    let replay : QueuedEvent := ⟨4, "s", "SPACE", "UPDATE", none, some "null", 1000⟩
    (∀ o ∈ twiceFailed, o.Held) ∧ (∀ o ∈ twiceFailed, o.KeepsTimes) ∧
      (Queue.latestFailures s.deadLetters.rows)[0]? = some twiceFailedLetter ∧
      Stems String.length 1000 twiceFailed twiceFailedLetter.eventId ∧ e ∈ s.queue.rows ∧
      Stems String.length 3000 twiceFailed e.id ∧
      [replay, e].Sublist
        (Operation.requeue.perform { clock := 4000, tokens := String.length } s).pending := by
  intro s e replay
  have hheld : ∀ o ∈ twiceFailed, o.Held := by
    simp [twiceFailed, Occurrence.Held, Operation.Held]
  have hkept : ∀ o ∈ twiceFailed, o.KeepsTimes := by
    simp [twiceFailed, Occurrence.KeepsTimes, Operation.KeepsTimes]
  have hletter : (Queue.latestFailures s.deadLetters.rows)[0]? = some twiceFailedLetter := by
    decide +kernel
  have hmem : e ∈ s.queue.rows := by decide +kernel
  have hfirst : Stems String.length 1000 (twiceFailed.take 2) 1 :=
    (Stems.enqueued [] "s" "SPACE" "UPDATE" none (some .null)).later _
  have hfailed : (Queue.latestFailures (Course.run String.length (twiceFailed.take 2)
      {}).deadLetters.rows)[0]? =
        some { twiceFailedLetter with id := 1, eventId := 1, failedAt := 1500 } := by
    decide +kernel
  have hnext : (Course.run String.length (twiceFailed.take 2) {}).queue.nextId + (0 : ℕ) = 2 := by
    decide +kernel
  have hreplayed : Stems String.length 1000 (twiceFailed.take 3) 2 :=
    hnext ▸ hfirst.replayed 2000 hfailed
  have hstems : Stems String.length 1000 twiceFailed 2 := (hreplayed.later _).later _
  have hlast : (Course.run String.length (twiceFailed.take 4) {}).queue.nextId = 3 := by
    decide +kernel
  have hstems' : Stems String.length 3000 twiceFailed 3 :=
    hlast ▸ .enqueued (twiceFailed.take 4) "s" "SPACE" "UPDATE" none (some .null)
  obtain ⟨-, hbefore, -⟩ := hstems.precedes_iff hheld hkept hletter hmem hstems' 4000
  have hreplay : Queue.replay (s.document? "s" "SPACE") twiceFailedLetter
      (s.queue.nextId + (0 : ℕ)) = replay := by decide +kernel
  rw [← hreplay]
  exact ⟨hheld, hkept, hletter, hstems, hmem, hstems', hbefore.mpr (by decide)⟩

/-- In one millisecond the members of a space that is not there are set, which fails, the space is
created and its members are set anew. -/
def sameMillisecond : List Occurrence :=
  [.operation 1000 (.enqueue "s" "SPACE" "UPDATE" none (some (History.listing "a"))),
    .operation 1000 (.pass 1 false 60000), .operation 1000 (.createSpace "s" "" none fun _ => ""),
    .operation 1000 (.enqueue "s" "SPACE" "UPDATE" none (some (History.listing "b")))]

/-- The event of that id that sets one node. -/
def listed (id : ℤ) (node : String) : QueuedEvent :=
  ⟨id, "s", "SPACE", "UPDATE", none, some (History.listing node).compact, 1000⟩

/-- The event that failed had been enqueued before the one that is queued, but its replay comes
after that one, and the older members stay. -/
theorem replay_follows_newer :
    let env : Env := { clock := 1000, tokens := String.length }
    let s := Course.run String.length sameMillisecond {}
    let t := Operation.requeue.perform env s
    (∀ o ∈ sameMillisecond, o.Held) ∧ (∀ o ∈ sameMillisecond, o.KeepsTimes) ∧
      s.deadLetters.rows.map DeadLetter.event = [listed 1 "a"] ∧
      Stems String.length 1000 (sameMillisecond.take 2) 1 ∧ s.queue.rows = [listed 2 "b"] ∧
      Stems String.length 1000 sameMillisecond 2 ∧ t.pending = [listed 2 "b", listed 3 "a"] ∧
      ¬ [listed 3 "a", listed 2 "b"].Sublist t.pending ∧
      History.memberIds "s" ((Operation.pass 2 false 60000).perform env t) = some ["a"] := by
  intro env s t
  have hheld : ∀ o ∈ sameMillisecond, o.Held := by
    simp [sameMillisecond, Occurrence.Held, Operation.Held]
  have hkept : ∀ o ∈ sameMillisecond, o.KeepsTimes := by
    simp [sameMillisecond, Occurrence.KeepsTimes, Operation.KeepsTimes]
  have holder : Stems String.length 1000 (sameMillisecond.take 2) 1 :=
    (Stems.enqueued [] "s" "SPACE" "UPDATE" none (some (History.listing "a"))).later _
  have hlast : (Course.run String.length (sameMillisecond.take 3) {}).queue.nextId = 2 := by
    decide +kernel
  have hnewer : Stems String.length 1000 sameMillisecond 2 :=
    hlast ▸ .enqueued (sameMillisecond.take 3) "s" "SPACE" "UPDATE" none
      (some (History.listing "b"))
  have hrows : t.queue.rows = [listed 2 "b", listed 3 "a"] := by decide +kernel
  have hids : t.queue.Numbered (·.id) := ⟨by rw [hrows]; decide, by rw [hrows]; decide +kernel⟩
  have hpending : t.pending = [listed 2 "b", listed 3 "a"] :=
    pending_eq hids (hrows ▸ List.Perm.refl _) (by decide +kernel)
  have hleases : t.leases = [] := by decide +kernel
  refine ⟨hheld, hkept, by decide +kernel, holder, by decide +kernel, hnewer, hpending, ?_, ?_⟩
  · rw [hpending]
    decide +kernel
  · rw [Operation.perform_pass hleases, hpending]
    decide +kernel

end NodeGraph
