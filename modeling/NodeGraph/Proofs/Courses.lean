import NodeGraph.Proofs.Draining
import NodeGraph.Proofs.Persistence

/-!
Courses: what happens to a store, one thing after the other. Events keep their ids and, unless
someone rewrites them, their times; and every letter tells of an event that was queued and of known
kinds.
-/
namespace NodeGraph

open Store

/-- The event that a letter tells of, as it was queued. -/
def DeadLetter.event (letter : DeadLetter) : QueuedEvent where
  id := letter.eventId
  publicId := letter.publicId
  type := letter.type
  action := letter.action
  oldData := letter.oldData
  newData := letter.newData
  createdAt := letter.eventCreatedAt

@[simp] theorem DeadLetter.event_letter (now : ℤ) (e : QueuedEvent) (fault : Fault) (id : ℤ) :
    (e.letter now fault id).event = e := rfl

theorem QueuedEvent.isNamed_of_buried {e : QueuedEvent} {s : Store} {fault : Fault}
    (h : e.verdict s = .buried fault) : IsNamed e.type e.action := by
  unfold verdict at h
  cases hkinds : e.kinds with
  | error other => simp [hkinds] at h
  | ok kinds =>
    obtain ⟨htype, haction⟩ := names_of_kinds hkinds
    exact ⟨⟨_, htype.symm⟩, _, haction.symm⟩

/-! ### Letters -/

/-- Every letter of `t` tells of what a letter of `s` told of, or of an event that was queued in `s`
and is of known kinds. -/
def Store.LettersFrom (s t : Store) : Prop :=
  ∀ letter ∈ t.deadLetters.rows, (∃ old ∈ s.deadLetters.rows, old.event = letter.event) ∨
    (letter.event ∈ s.queue.rows ∧ IsNamed letter.type letter.action)

theorem Store.lettersFrom_of_eq {s t : Store} (h : t.deadLetters = s.deadLetters) :
    LettersFrom s t :=
  fun letter hletter => Or.inl ⟨letter, h ▸ hletter, rfl⟩

namespace Pass

variable {env : Env} {s : Store} {letter : DeadLetter}

theorem mem_letters_settle (quiet : env.rivals = {}) (h : s.GraphSound env.tokens)
    {e : QueuedEvent} (hletter : letter ∈ (settle env s e).deadLetters.rows) :
    letter ∈ s.deadLetters.rows ∨ (letter.event = e ∧ IsNamed letter.type letter.action) := by
  rcases settle_cases quiet h e with ⟨-, hsame⟩ | ⟨-, hsettled⟩
  · exact Or.inl (hsame ▸ hletter)
  · rw [hsettled, deadLetters_settledAs] at hletter
    cases hverdict : e.verdict s with
    | buried fault =>
      rw [hverdict] at hletter
      rcases List.mem_append.mp hletter with hold | hnew
      · exact Or.inl hold
      · obtain rfl := List.mem_singleton.mp hnew
        exact Or.inr ⟨rfl, QueuedEvent.isNamed_of_buried hverdict⟩
    | dropped =>
      rw [hverdict] at hletter
      exact Or.inl hletter
    | carried plan =>
      rw [hverdict] at hletter
      unfold reported at hletter
      cases houtcome : plan.outcome <;> exact Or.inl (by simpa [houtcome] using hletter)

/-- The letters after events have been settled are older, or tell of those events. -/
theorem mem_letters_foldl_settle (quiet : env.rivals = {}) (h : s.Sound env.tokens)
    {events : List QueuedEvent}
    (hletter : letter ∈ (events.foldl (settle env) s).deadLetters.rows) :
    letter ∈ s.deadLetters.rows ∨
      (letter.event ∈ events ∧ IsNamed letter.type letter.action) := by
  induction events generalizing s with
  | nil => exact Or.inl hletter
  | cons e rest ih =>
    rcases ih (settle_sound quiet h e) hletter with hmiddle | ⟨hevent, hnamed⟩
    · rcases mem_letters_settle quiet h.toGraphSound hmiddle with hold | ⟨rfl, hnamed⟩
      · exact Or.inl hold
      · exact Or.inr ⟨List.mem_cons_self, hnamed⟩
    · exact Or.inr ⟨List.mem_cons_of_mem e hevent, hnamed⟩

theorem lettersFrom_foldl_settle (quiet : env.rivals = {}) (h : s.Sound env.tokens)
    {events : List QueuedEvent} (hevents : ∀ e ∈ events, e ∈ s.queue.rows) :
    LettersFrom s (events.foldl (settle env) s) := by
  intro letter hletter
  rcases mem_letters_foldl_settle quiet h hletter with hold | ⟨hevent, hnamed⟩
  · exact Or.inl ⟨letter, hold, rfl⟩
  · exact Or.inr ⟨hevents _ hevent, hnamed⟩

end Pass

/-- Stores that are alike have letters of the same events. -/
theorem Store.Alike.lettersFrom {s t u : Store} (halike : t.Alike u) (h : LettersFrom s t) :
    LettersFrom s u := by
  intro letter hletter
  have hletters : t.deadLetters.map DeadLetter.undated = u.deadLetters.map DeadLetter.undated :=
    congrArg Store.deadLetters halike.1
  have hrows : t.deadLetters.rows.map DeadLetter.undated =
      u.deadLetters.rows.map DeadLetter.undated := congrArg Table.rows hletters
  have hmem : letter.undated ∈ t.deadLetters.rows.map DeadLetter.undated :=
    hrows ▸ List.mem_map_of_mem hletter
  obtain ⟨other, hother, hsame⟩ := List.mem_map.mp hmem
  have hundated : other.undated.event = letter.undated.event := congrArg DeadLetter.event hsame
  have hevent : other.event = letter.event := hundated
  rcases h other hother with ⟨old, hold, hoevent⟩ | ⟨hqueued, hnamed⟩
  · exact Or.inl ⟨old, hold, hoevent.trans hevent⟩
  · have htype : other.type = letter.type := congrArg QueuedEvent.type hevent
    have haction : other.action = letter.action := congrArg QueuedEvent.action hevent
    exact Or.inr ⟨hevent ▸ hqueued, htype ▸ haction ▸ hnamed⟩

/-! ### Queue and letters -/

namespace Store

variable {s t u : Store} {dated : Prop}

/-- Letters are older or tell of events that were queued, and, where times are kept, an event has
the id and the time that it had; others have new ids. -/
structure Follows (dated : Prop) (s t : Store) : Prop where
  letters : LettersFrom s t
  times : dated → s.queue.Continues (·.id) (·.createdAt) t.queue

theorem follows_of_letters (hletters : t.deadLetters = s.deadLetters)
    (htimes : dated → s.queue.Continues (·.id) (·.createdAt) t.queue) : Follows dated s t :=
  ⟨lettersFrom_of_eq hletters, htimes⟩

theorem follows_of_records (hqueue : t.queue = s.queue) (hletters : t.deadLetters = s.deadLetters) :
    Follows dated s t :=
  follows_of_letters hletters fun _ => Table.continues_of_eq hqueue

theorem Follows.refl (s : Store) : Follows dated s s :=
  follows_of_records rfl rfl

/-- One more event is queued. -/
theorem Follows.append (h : Follows dated s t) {e : QueuedEvent}
    (hrows : u.queue.rows = t.queue.rows ++ [e]) (hlast : u.queue.lastId = t.queue.nextId)
    (hid : e.id = t.queue.nextId) (hletters : u.deadLetters = t.deadLetters) :
    Follows dated s u :=
  ⟨fun letter hletter => h.letters letter (hletters ▸ hletter),
    fun hdated => (h.times hdated).trans (Table.continues_of_append hrows hlast hid)⟩

/-- A requeued event takes a new id. -/
theorem continues_requeued (s : Store) :
    s.queue.Continues (·.id) (·.createdAt) s.requeued.queue := by
  have hadded : ∀ letters : List DeadLetter, ∀ queue : Table QueuedEvent,
      queue.Continues (·.id) (·.createdAt) (letters.foldl (fun queue letter =>
        queue.add (Queue.replay (s.document? letter.publicId letter.type) letter)) queue) := by
    intro letters
    induction letters with
    | nil => exact fun queue => .refl queue
    | cons letter rest ih => exact fun queue => (Table.continues_add rfl).trans (ih _)
  exact hadded _ s.queue

end Store

namespace Pass

variable {env : Env} {s : Store} {dated : Prop}

theorem follows_foldl_settle (quiet : env.rivals = {}) (h : s.Sound env.tokens)
    {events : List QueuedEvent} (hevents : ∀ e ∈ events, e ∈ s.queue.rows) :
    Follows dated s (events.foldl (settle env) s) := by
  refine ⟨lettersFrom_foldl_settle quiet h hevents, fun _ => ?_⟩
  clear hevents
  induction events generalizing s with
  | nil => exact .refl _
  | cons e rest ih =>
    have hfirst : s.queue.Continues (·.id) (·.createdAt) (settle env s e).queue := by
      rw [queue_settle quiet h.toGraphSound e]
      exact Table.continues_keep _
    exact hfirst.trans (ih (settle_sound quiet h e))

theorem follows_run (quiet : env.rivals = {}) (h : s.Sound env.tokens) (owner : ℕ)
    (strict : Bool) (ttl : ℤ) : Follows dated s ((run env owner strict ttl).outcome s).2 := by
  rcases run_outcome env owner strict ttl s with hsame | ⟨handled, hhandled, hworked⟩
  · rw [hsame]
    exact .refl s
  · have hleased := withLeases_sound h (leased env.now owner Lease.processing ttl s).leases
    have hsettled : Follows dated _ _ := follows_foldl_settle quiet hleased fun e he =>
      mem_pending.mp (hhandled.subset he)
    rw [hworked]
    exact ⟨hsettled.letters, hsettled.times⟩

end Pass

theorem follows_passes {tokens : Tokenizer} {s : Store} (h : s.Sound tokens)
    (schedule : List Turn) {dated : Prop} :
    Follows dated s (Passes.run tokens schedule { store := s }).store := by
  have hserial := serial_run h schedule
  have hquiet : ({ clock := 0, tokens } : Env).rivals = {} := rfl
  have halike := (hserial.effects { clock := 0, tokens } rfl rfl).symm
  have hsettled : Follows dated s _ := Pass.follows_foldl_settle hquiet h fun e he =>
    Pass.mem_pending.mp (hserial.split ▸ List.mem_append_left _ he)
  exact ⟨halike.lettersFrom hsettled.letters, fun hdated => halike.queue ▸ hsettled.times hdated⟩

namespace Operation

variable {env : Env} {s : Store}

/-- The operation does not rewrite the times of events. -/
def KeepsTimes : Operation → Prop
  | changeRows .events _ column _ => column ≠ "created_at"
  | _ => True

/-- A column other than the time is set in the rows of events. -/
theorem follows_changeEvents {p column : String} {cell : Cell} {queue : Table QueuedEvent}
    (hchange : Foreign.changeRows s.queue (·.publicId = p) (Foreign.setEvent column cell) =
      .ok queue) : Follows (column ≠ "created_at") s { s with queue } := by
  have hset : column ≠ "created_at" → ∀ row row', Foreign.setEvent column cell row = .ok row' →
      (row'.id, row'.createdAt) = (row.id, row.createdAt) := by
    intro hcolumn row row' hrow
    unfold Foreign.setEvent at hrow
    simp only [bind, Except.bind, pure, Except.pure] at hrow
    repeat' split at hrow
    all_goals first | exact absurd rfl hcolumn | (cases hrow; rfl) | cases hrow
  refine follows_of_letters rfl fun hcolumn => ?_
  obtain ⟨hrows, hlast⟩ := Foreign.map_eq_of_changeRows (hset hcolumn) hchange
  exact Table.continues_of_keys hlast hrows

theorem follows_replaces {clock : ℤ} {t : Store} {dated : Prop} (h : Replaces clock s t) :
    Follows dated s t := by
  induction h with
  | refl => exact .refl s
  | tail _ hstep ih =>
    obtain ⟨old, row, -, rfl⟩ := hstep
    exact ih.append rfl rfl rfl rfl

theorem follows_perform (quiet : env.rivals = {}) (h : s.Sound env.tokens) (op : Operation) :
    Follows op.KeepsTimes s (op.perform env s) := by
  have heffect := op.effect_perform quiet h.toGraphSound
  generalize op.perform env s = t at heffect ⊢
  cases heffect with
  | nothing => exact .refl s
  | upsert p type data json =>
    unfold upserted
    split <;> exact (Follows.refl s).append rfl rfl rfl rfl
  | delete | enqueue | addDocument => exact (Follows.refl s).append rfl rfl rfl rfl
  | addEvent cells hid => exact (Follows.refl s).append rfl rfl (hid _) rfl
  | changeDocuments p column cell hreplaces hkeys => exact follows_replaces hreplaces
  | changeEvents hchange => exact follows_changeEvents hchange
  | deleteDocuments p =>
    exact List.foldlRecOn _ _ (.refl s) fun t ht row _ => ht.append rfl rfl rfl rfl
  | deleteEvents p => exact follows_of_letters rfl fun _ => Table.continues_keep _
  | pass owner strict ttl => exact Pass.follows_run quiet h owner strict ttl
  | requeue =>
    exact ⟨fun _ hletter => absurd hletter List.not_mem_nil, fun _ => continues_requeued s⟩
  | _ => exact follows_of_records rfl rfl

end Operation

/-! ### Courses -/

/-- What happens to a store: an operation while the clock shows a time, or passes that overlap. -/
inductive Occurrence where
  | operation (clock : ℤ) (op : Operation)
  | passes (schedule : List Turn)

namespace Occurrence

variable {tokens : Tokenizer} {s : Store}

def run (tokens : Tokenizer) : Occurrence → Store → Store
  | operation clock op, s => op.perform { clock, tokens } s
  | passes schedule, s => (Passes.run tokens schedule { store := s }).store

def Held : Occurrence → Prop
  | operation _ op => op.Held
  | passes _ => True

def KeepsTimes : Occurrence → Prop
  | operation _ op => op.KeepsTimes
  | passes _ => True

theorem reachable_run {o : Occurrence} (hheld : o.Held) (h : Reachable tokens s) :
    Reachable tokens (o.run tokens s) := by
  cases o with
  | operation clock op => exact h.perform clock op hheld
  | passes schedule => exact h.passes schedule

theorem follows_run (h : s.Sound tokens) (o : Occurrence) :
    Follows o.KeepsTimes s (o.run tokens s) := by
  cases o with
  | operation clock op =>
    have hquiet : ({ clock, tokens } : Env).rivals = {} := rfl
    exact op.follows_perform hquiet h
  | passes schedule => exact follows_passes h schedule

end Occurrence

namespace Course

variable {tokens : Tokenizer} {s : Store} {course : List Occurrence}

/-- The store after one thing after the other. -/
def run (tokens : Tokenizer) (course : List Occurrence) (s : Store) : Store :=
  course.foldl (fun s o => o.run tokens s) s

theorem run_concat (course : List Occurrence) (o : Occurrence) (s : Store) :
    run tokens (course ++ [o]) s = o.run tokens (run tokens course s) := by
  unfold run
  rw [List.foldl_append]
  rfl

theorem reachable_run (h : Reachable tokens s) (hheld : ∀ o ∈ course, o.Held) :
    Reachable tokens (run tokens course s) := by
  induction course using List.reverseRecOn with
  | nil => exact h
  | append_singleton course o ih =>
    obtain ⟨hcourse, ho⟩ := List.forall_mem_append.mp hheld
    rw [run_concat]
    exact Occurrence.reachable_run (List.forall_mem_singleton.mp ho) (ih hcourse)

end Course

/-- In a reachable store the kinds of every letter are known. -/
theorem Reachable.letters_named {tokens : Tokenizer} {s : Store} (h : Reachable tokens s) :
    ∀ letter ∈ s.deadLetters.rows, IsNamed letter.type letter.action := by
  have hstep : ∀ {s t : Store} {dated : Prop}, Follows dated s t →
      (∀ letter ∈ s.deadLetters.rows, IsNamed letter.type letter.action) →
      ∀ letter ∈ t.deadLetters.rows, IsNamed letter.type letter.action := by
    intro s t dated hfollows hnamed letter hletter
    rcases hfollows.letters letter hletter with ⟨old, hold, hevent⟩ | ⟨-, hnew⟩
    · have htype : old.type = letter.type := congrArg QueuedEvent.type hevent
      have haction : old.action = letter.action := congrArg QueuedEvent.action hevent
      exact htype ▸ haction ▸ hnamed old hold
    · exact hnew
  induction h with
  | empty => exact fun letter hletter => absurd hletter List.not_mem_nil
  | perform hreachable clock op hheld ih =>
    have hquiet : ({ clock, tokens } : Env).rivals = {} := rfl
    exact hstep (op.follows_perform hquiet hreachable.sound) ih
  | passes hreachable schedule ih =>
    have hfollows : Follows True _ _ := follows_passes hreachable.sound schedule
    exact hstep hfollows ih

end NodeGraph
