import NodeGraph.Proofs.History
import NodeGraph.Proofs.Timeless

/-!
Passes that overlap: whatever the order of their transactions, and whichever of them are abandoned,
they settle every event once and in order, as one pass does that is not interrupted.
-/
namespace NodeGraph

open Store

/-! ### Transactions of several passes -/

/-- Where a pass stands between two transactions. -/
inductive Progress where
  | idle
  | contended
  | ready (lease : Lease)
  | working (lease : Lease) (todo : List QueuedEvent)
  /-- The event has failed but has not been set aside. -/
  | failing (lease : Lease) (e : QueuedEvent) (fault : Fault) (todo : List QueuedEvent)
  | ended
  | abandoned
  deriving DecidableEq

/-- The lease of a pass that is under way. -/
def Progress.lease? : Progress → Option Lease
  | ready lease => some lease
  | working lease _ => some lease
  | failing lease _ _ _ => some lease
  | _ => none

/-- The pass has not read the queue. -/
def Progress.isUnread : Progress → Bool
  | idle => true
  | ready _ => true
  | _ => false

/-- The events that a pass has read and not finished. -/
def Progress.listed : Progress → List QueuedEvent
  | working _ todo => todo
  | failing _ e _ todo => e :: todo
  | _ => []

/-- The events that a pass has yet to come to. -/
def Progress.ahead : Progress → List QueuedEvent
  | working _ todo => todo
  | failing _ _ _ todo => todo
  | _ => []

/-- Lenient passes over one store. The log tells which events have left the queue, and how. -/
structure Passes where
  store : Store
  progress : ℕ → Progress := fun _ => .idle
  log : List (QueuedEvent × Pass.Attempt) := []

/-- What a pass may do next: a transaction, or nothing ever more. What it had begun is rolled back
when it is abandoned, and its lease stays unless it gives it up. -/
inductive Move where
  | enter (owner : ℕ) (ttl : ℤ)
  | next
  | abandon
  | giveUp

/-- A pass makes a move when the clock shows a time. -/
structure Turn where
  pass : ℕ
  clock : ℤ
  move : Move

namespace Passes

/-- The pass is now elsewhere, and the transaction has left another store. -/
def moved (c : Passes) (i : ℕ) (store : Store) (progress : Progress)
    (news : List (QueuedEvent × Pass.Attempt)) : Passes where
  store := store
  progress := Function.update c.progress i progress
  log := c.log ++ news

/-- The next transaction of a pass that has its lease. -/
def advance (env : Env) (i : ℕ) (c : Passes) : Passes :=
  match c.progress i with
  | .ready lease => c.moved i c.store (.working lease c.store.pending) []
  | .working lease [] => c.moved i (lease.release c.store) .ended []
  | .working lease (e :: rest) =>
    match Pass.attempt env e c.store with
    | (.failed fault, s) => c.moved i s (.failing lease e fault rest) []
    | (.skipped, s) => c.moved i s (.working lease rest) []
    | (done, s) => c.moved i s (.working lease rest) [(e, done)]
  | .failing lease e fault rest =>
    c.moved i (Pass.setAside env e fault c.store) (.working lease rest)
      (if c.store.isQueued e.id then [(e, .failed fault)] else [])
  | _ => c

def enter (env : Env) (i owner : ℕ) (ttl : ℤ) (c : Passes) : Passes :=
  match c.progress i with
  | .idle =>
    match Lease.acquire env.now owner Lease.processing ttl c.store with
    | (some lease, s) => c.moved i s (.ready lease) []
    | (none, s) => c.moved i s .contended []
  | _ => c

/-- A pass that is under way ends early, and keeps or releases its lease. -/
def stop (release : Bool) (i : ℕ) (c : Passes) : Passes :=
  match (c.progress i).lease? with
  | some lease => c.moved i (if release then lease.release c.store else c.store) .abandoned []
  | none => c

def take (tokens : Tokenizer) (c : Passes) (turn : Turn) : Passes :=
  match turn.move with
  | .enter owner ttl => c.enter { clock := turn.clock, tokens } turn.pass owner ttl
  | .next => c.advance { clock := turn.clock, tokens } turn.pass
  | .abandon => c.stop false turn.pass
  | .giveUp => c.stop true turn.pass

def run (tokens : Tokenizer) (schedule : List Turn) (c : Passes) : Passes :=
  schedule.foldl (take tokens) c

end Passes

/-! ### One pass -/

namespace Pass

/-- What is reported of events that are settled one after the other. -/
def reports (env : Env) : List QueuedEvent → Store → List (QueuedEvent × Attempt)
  | [], _ => []
  | e :: rest, s => (e, (handle env e s).1) :: reports env rest (settle env s e)

theorem reports_concat (env : Env) (events : List QueuedEvent) (e : QueuedEvent) (s : Store) :
    reports env (events ++ [e]) s =
      reports env events s ++ [(e, (handle env e (events.foldl (settle env) s)).1)] := by
  induction events generalizing s with
  | nil => rfl
  | cons first rest ih =>
    rw [List.cons_append, reports, ih]
    rfl

end Pass

namespace Passes

variable {tokens : Tokenizer} {clock : ℤ} {c : Passes} {i : ℕ}

/-- The pass alone goes on. -/
def continued (tokens : Tokenizer) (i : ℕ) (clock : ℤ) (n : ℕ) (c : Passes) : Passes :=
  c.run tokens (List.replicate n ⟨i, clock, .next⟩)

theorem continued_succ (n : ℕ) : c.continued tokens i clock (n + 1) =
    (c.advance { clock, tokens } i).continued tokens i clock n := by
  unfold continued run
  rw [List.replicate_succ, List.foldl_cons]
  rfl

theorem progress_moved (store : Store) (progress : Progress)
    (news : List (QueuedEvent × Pass.Attempt)) :
    (c.moved i store progress news).progress i = progress :=
  Function.update_self ..

theorem moved_self (c : Passes) (i : ℕ) : c.moved i c.store (c.progress i) [] = c := by
  unfold moved
  rw [Function.update_eq_self, List.append_nil]

/-- Entering concerns a pass that is idle, and the leases alone. -/
theorem enter_cases (env : Env) (i owner : ℕ) (ttl : ℤ) (c : Passes) :
    c.enter env i owner ttl = c ∨ c.progress i = .idle ∧ ∃ leases,
      c.enter env i owner ttl = c.moved i { c.store with leases } .contended [] ∨
        ∃ lease, c.enter env i owner ttl = c.moved i { c.store with leases } (.ready lease) [] := by
  unfold enter
  cases hprogress : c.progress i with
  | idle =>
    right
    cases htaken : Lease.isTaken env.now Lease.processing c.store with
    | true =>
      rw [Pass.acquire_of_taken htaken]
      exact ⟨rfl, c.store.leases, Or.inl rfl⟩
    | false =>
      rw [Pass.acquire_of_free htaken]
      exact ⟨rfl, _, Or.inr ⟨_, rfl⟩⟩
  | _ => exact Or.inl rfl

theorem stop_cases (release : Bool) (i : ℕ) (c : Passes) : c.stop release i = c ∨
    ∃ leases, c.stop release i = c.moved i { c.store with leases } .abandoned [] := by
  unfold stop
  cases (c.progress i).lease? with
  | none => exact Or.inl rfl
  | some lease =>
    right
    cases release with
    | false => exact ⟨c.store.leases, rfl⟩
    | true => exact ⟨(lease.release c.store).leases, rfl⟩

/-! The transactions of a pass, by where it stands. -/

section Advance

variable (env : Env) {lease : Lease} {e : QueuedEvent} {todo : List QueuedEvent} {fault : Fault}

theorem enter_of_free (owner : ℕ) (ttl : ℤ) (h : c.progress i = .idle)
    (hfree : Lease.isTaken env.now Lease.processing c.store = false) :
    c.enter env i owner ttl = c.moved i (Pass.leased env.now owner Lease.processing ttl c.store)
      (.ready ⟨Lease.processing, owner, Clock.after env.now ttl⟩) [] := by
  unfold enter
  rw [h]
  dsimp only
  rw [Pass.acquire_of_free hfree]

theorem advance_of_ready (h : c.progress i = .ready lease) :
    c.advance env i = c.moved i c.store (.working lease c.store.pending) [] := by
  unfold advance
  rw [h]

theorem advance_of_done (h : c.progress i = .working lease []) :
    c.advance env i = c.moved i (lease.release c.store) .ended [] := by
  unfold advance
  rw [h]

theorem advance_of_working (h : c.progress i = .working lease (e :: todo)) :
    c.advance env i = match Pass.attempt env e c.store with
      | (.failed fault, s) => c.moved i s (.failing lease e fault todo) []
      | (.skipped, s) => c.moved i s (.working lease todo) []
      | (done, s) => c.moved i s (.working lease todo) [(e, done)] := by
  unfold advance
  rw [h]

theorem advance_of_failing (h : c.progress i = .failing lease e fault todo) :
    c.advance env i = c.moved i (Pass.setAside env e fault c.store) (.working lease todo)
      (if c.store.isQueued e.id then [(e, .failed fault)] else []) := by
  unfold advance
  rw [h]

end Advance

/-- One transaction or two settle the event that a pass has before it. -/
theorem exists_settled (tokens : Tokenizer) (clock : ℤ) {lease : Lease} {e : QueuedEvent}
    {rest : List QueuedEvent} (hprogress : c.progress i = .working lease (e :: rest)) :
    ∃ n, (c.continued tokens i clock n).progress i = .working lease rest ∧
      (c.continued tokens i clock n).store = Pass.settle { clock, tokens } c.store e := by
  set env : Env := { clock, tokens } with henv
  have hadvance := advance_of_working env hprogress
  cases hattempt : Pass.attempt env e c.store with
  | mk attempt s =>
    have hhandle : Pass.settle env c.store e = (Pass.handle env e c.store).2 := rfl
    unfold Pass.handle at hhandle
    rw [hattempt] at hadvance hhandle
    cases attempt with
    | failed fault =>
      have hfailing : (c.advance env i).progress i = .failing lease e fault rest := by
        rw [hadvance]
        exact progress_moved s _ _
      have hstore : (c.advance env i).store = s := by
        rw [hadvance]
        rfl
      have hset := advance_of_failing env hfailing
      rw [hstore] at hset
      refine ⟨2, ?_, ?_⟩
      · rw [continued_succ, continued_succ, ← henv, hset]
        exact progress_moved _ _ _
      · rw [continued_succ, continued_succ, ← henv, hset, hhandle]
        rfl
    | _ =>
      refine ⟨1, ?_, ?_⟩
      · rw [continued_succ, ← henv, hadvance]
        exact progress_moved s _ _
      · rw [continued_succ, ← henv, hadvance, hhandle]
        rfl

theorem continued_add (m n : ℕ) : c.continued tokens i clock (m + n) =
    (c.continued tokens i clock m).continued tokens i clock n := by
  unfold continued run
  rw [List.replicate_add, List.foldl_append]

theorem exists_drained (tokens : Tokenizer) (clock : ℤ) {lease : Lease} {todo : List QueuedEvent}
    (hprogress : c.progress i = .working lease todo) :
    ∃ n, (c.continued tokens i clock n).progress i = .ended ∧
      (c.continued tokens i clock n).store =
        lease.release (todo.foldl (Pass.settle { clock, tokens }) c.store) := by
  induction todo generalizing c with
  | nil =>
    have hadvance := advance_of_done { clock, tokens } hprogress
    refine ⟨1, ?_, ?_⟩
    · rw [continued_succ, hadvance]
      exact progress_moved _ _ _
    · rw [continued_succ, hadvance]
      rfl
  | cons e rest ih =>
    obtain ⟨m, hworking, hstore⟩ := exists_settled tokens clock hprogress
    obtain ⟨n, hended, hdrained⟩ := ih hworking
    refine ⟨m + n, ?_, ?_⟩
    · rw [continued_add]
      exact hended
    · rw [continued_add, hdrained, hstore]
      rfl

/-- A pass that is alone and not interrupted is a pass of the program. -/
theorem run_alone (s : Store) (i owner : ℕ) (ttl : ℤ)
    (hfree : Lease.isTaken (Clock.now clock) Lease.processing s = false) :
    ∃ n tally, (run tokens (⟨i, clock, .enter owner ttl⟩ ::
        List.replicate n ⟨i, clock, .next⟩) { store := s }).progress i = .ended ∧
      Pass.run { clock, tokens } owner false ttl s = .ok (.completed tally)
        (run tokens (⟨i, clock, .enter owner ttl⟩ ::
          List.replicate n ⟨i, clock, .next⟩) { store := s }).store := by
  set env : Env := { clock, tokens } with henv
  set start : Passes := { store := s } with hstart
  have hidle : start.progress i = .idle := rfl
  have hentered := enter_of_free env owner ttl hidle hfree
  have hready : (start.enter env i owner ttl).progress i =
      .ready ⟨Lease.processing, owner, Clock.after env.now ttl⟩ := by
    rw [hentered]
    exact progress_moved _ _ _
  have hread := advance_of_ready env hready
  have hworking : ((start.enter env i owner ttl).advance env i).progress i =
      .working ⟨Lease.processing, owner, Clock.after env.now ttl⟩ s.pending := by
    rw [hread, hentered]
    exact progress_moved _ _ _
  have hstore : ((start.enter env i owner ttl).advance env i).store =
      Pass.leased env.now owner Lease.processing ttl s := by
    rw [hread, hentered]
    rfl
  obtain ⟨n, hended, hdrained⟩ := exists_drained tokens clock hworking
  obtain ⟨tally, hrun⟩ := Pass.run_lenient env owner ttl hfree
  have hwhole : run tokens (⟨i, clock, .enter owner ttl⟩ ::
      List.replicate (n + 1) ⟨i, clock, .next⟩) start =
        ((start.enter env i owner ttl).advance env i).continued tokens i clock n := by
    rw [henv, ← continued_succ]
    rfl
  refine ⟨n + 1, tally, ?_, ?_⟩
  · rw [hwhole]
    exact hended
  · rw [hwhole, hdrained, hstore]
    exact hrun

end Passes

/-! ### The invariant -/

section Invariant

variable {tokens : Tokenizer} {env : Env} {s₀ : Store} {c : Passes} {i : ℕ}

/-- A pass has yet to handle the last of all events, and the ones it has handled are settled. -/
def Behind (all settled todo : List QueuedEvent) : Prop :=
  ∃ handled, handled ++ todo = all ∧ handled <+: settled

/-- Where a pass may stand: it handles no event before those ahead of it are settled, fails no
event that another would not, and ends when nothing is queued. -/
def Progress.OnCourse (all settled : List QueuedEvent) (s : Store) : Progress → Prop
  | working _ todo => Behind all settled todo
  | failing _ e fault todo => Behind all settled (e :: todo) ∧
    (s.isQueued e.id = true → e.verdict s = .buried fault)
  | ended => s.pending = []
  | _ => True

/-- The passes have done what one pass does with the first of the events. -/
structure Serial (tokens : Tokenizer) (s₀ : Store) (c : Passes) : Prop where
  sound : c.store.Sound tokens
  split : c.log.map Prod.fst ++ c.store.pending = s₀.pending
  reports : ∀ env : Env, env.rivals = {} → env.tokens = tokens →
    c.log = Pass.reports env (c.log.map Prod.fst) s₀
  effects : ∀ env : Env, env.rivals = {} → env.tokens = tokens →
    c.store.Alike ((c.log.map Prod.fst).foldl (Pass.settle env) s₀)
  passes : ∀ i, (c.progress i).OnCourse s₀.pending (c.log.map Prod.fst) c.store

theorem nodup_pending (h : s₀.Sound tokens) : (s₀.pending.map (·.id)).Nodup :=
  ((List.mergeSort_perm _ _).map _).nodup_iff.mpr h.queueIds.nodup

/-- The event that a pass is about to handle is the first of the queue, or is settled. -/
theorem Behind.cases {s : Store} {settled todo : List QueuedEvent} {e : QueuedEvent}
    (hids : (s₀.pending.map (·.id)).Nodup) (hsplit : settled ++ s.pending = s₀.pending)
    (h : Behind s₀.pending settled (e :: todo)) :
    (s.isQueued e.id = true ∧ s.pending = e :: todo) ∨
      (s.isQueued e.id = false ∧ Behind s₀.pending settled todo) := by
  obtain ⟨handled, hall, more, rfl⟩ := h
  have hrest : more ++ s.pending = e :: todo := by
    rw [← hsplit, List.append_assoc] at hall
    exact (List.append_cancel_left hall).symm
  cases more with
  | nil =>
    left
    have hpending : s.pending = e :: todo := hrest
    have hmem : e ∈ s.pending := hpending ▸ List.mem_cons_self
    exact ⟨isQueued_iff.mpr ⟨e, Pass.mem_pending.mp hmem, rfl⟩, hpending⟩
  | cons first more =>
    right
    obtain ⟨rfl, -⟩ := List.cons.inj hrest
    constructor
    · rw [Bool.eq_false_iff]
      intro hqueued
      obtain ⟨other, hother, hid⟩ := isQueued_iff.mp hqueued
      rw [← hsplit, List.map_append, List.nodup_append] at hids
      refine hids.2.2 first.id ?_ other.id ?_ hid.symm
      · exact List.mem_map_of_mem (List.mem_append_right _ List.mem_cons_self)
      · exact List.mem_map_of_mem (Pass.mem_pending.mpr hother)
    · refine ⟨handled ++ [first], ?_, more, by simp⟩
      rw [List.append_assoc, List.singleton_append]
      exact hall

theorem Behind.mono {all settled todo : List QueuedEvent} (h : Behind all settled todo)
    (e : QueuedEvent) : Behind all (settled ++ [e]) todo := by
  obtain ⟨handled, hall, hprefix⟩ := h
  exact ⟨handled, hall, hprefix.trans (List.prefix_append _ _)⟩

/-- The first of the queue leaves it, and the others keep their order. -/
theorem pending_settle (quiet : env.rivals = {}) {s : Store} (h : s.Sound env.tokens)
    {e : QueuedEvent} {rest : List QueuedEvent} (hfirst : s.pending = e :: rest) :
    (Pass.settle env s e).pending = rest := by
  have hids := nodup_pending h
  rw [hfirst, List.map_cons, List.nodup_cons] at hids
  have hothers : ∀ other ∈ rest, other.id ≠ e.id := fun other hother heq =>
    hids.1 (List.mem_map.mpr ⟨other, hother, heq⟩)
  have hperm : (Pass.settle env s e).pending.Perm rest := by
    have hqueue : (Pass.settle env s e).queue.rows.Perm
        ((e :: rest).filter fun other => other.id ≠ e.id) := by
      rw [Pass.queue_settle quiet h.toGraphSound e, Table.rows_keep, ← hfirst]
      exact (List.mergeSort_perm _ _).symm.filter _
    rw [List.filter_cons_of_neg (by simp),
      List.filter_eq_self.mpr fun other hother => decide_eq_true (hothers other hother)] at hqueue
    exact (List.mergeSort_perm _ _).trans hqueue
  have hsorted : rest.Pairwise fun a b => stampLe a.stamp b.stamp = true := by
    have hall := Pass.pending_sorted s
    rw [hfirst] at hall
    exact (List.pairwise_cons.mp hall).2
  refine hperm.eq_of_pairwise (fun a b ha hb hab hba => ?_) (Pass.pending_sorted _) hsorted
  have hstamps := stampLe_antisymm hab hba
  have ha' : a ∈ rest := hperm.mem_iff.mp ha
  exact List.inj_on_of_nodup_map hids.2 ha' hb (congrArg Prod.snd hstamps)

/-- What a pass may stand at outlasts the settling of the first event by another pass. -/
theorem Progress.OnCourse.settle (quiet : env.rivals = {}) {s : Store} (h₀ : s₀.Sound tokens)
    (h : s.Sound env.tokens) {settled rest : List QueuedEvent} {e : QueuedEvent}
    (hsplit : settled ++ s.pending = s₀.pending) (hfirst : s.pending = e :: rest)
    {progress : Progress} (hcourse : progress.OnCourse s₀.pending settled s) :
    progress.OnCourse s₀.pending (settled ++ [e]) (Pass.settle env s e) := by
  cases progress with
  | working lease todo => exact Behind.mono hcourse e
  | failing lease other fault todo =>
    obtain ⟨hbehind, -⟩ := hcourse
    refine ⟨hbehind.mono e, fun hqueued => ?_⟩
    -- An event that is still queued would have been the first, and that one is gone.
    obtain ⟨row, hrow, hid⟩ := isQueued_iff.mp hqueued
    rw [Pass.queue_settle quiet h.toGraphSound e, Table.rows_keep, List.mem_filter,
      decide_eq_true_eq] at hrow
    rcases hbehind.cases (nodup_pending h₀) hsplit with ⟨-, hother⟩ | ⟨hfree, -⟩
    · rw [hfirst] at hother
      exact absurd (hid.trans (congrArg QueuedEvent.id (List.cons.inj hother).1).symm) hrow.2
    · rw [isQueued_iff.mpr ⟨row, hrow.1, hid⟩] at hfree
      exact absurd hfree (by simp)
  | ended =>
    have hempty : s.pending = [] := hcourse
    rw [hfirst] at hempty
    exact absurd hempty (by simp)
  | _ => trivial

theorem serial_start (h₀ : s₀.Sound tokens) : Serial tokens s₀ { store := s₀ } :=
  ⟨h₀, rfl, fun _ _ _ => rfl, fun _ _ _ => Alike.refl s₀, fun _ => trivial⟩

/-- A transaction that concerns the leases alone. -/
theorem Serial.moved (h : Serial tokens s₀ c) (leases : List LeaseRow) {progress : Progress}
    (hprogress : progress.OnCourse s₀.pending (c.log.map Prod.fst) c.store) :
    Serial tokens s₀ (c.moved i { c.store with leases } progress []) := by
  have hlog : c.log ++ [] = c.log := List.append_nil _
  refine ⟨Pass.withLeases_sound h.sound leases, ?_, ?_, ?_, fun j => ?_⟩
  · show (c.log ++ []).map Prod.fst ++ c.store.pending = _
    rw [hlog]
    exact h.split
  · show ∀ env : Env, _ → _ → c.log ++ [] = Pass.reports env ((c.log ++ []).map Prod.fst) s₀
    rw [hlog]
    exact h.reports
  · intro env quiet htokens
    show Alike _ (((c.log ++ []).map Prod.fst).foldl (Pass.settle env) s₀)
    rw [hlog]
    exact (alike_withLeases c.store leases).symm.trans (h.effects env quiet htokens)
  · have hcourse : (Function.update c.progress i progress j).OnCourse s₀.pending
        (c.log.map Prod.fst) c.store := by
      by_cases hj : j = i
      · subst hj
        rw [Function.update_self]
        exact hprogress
      · rw [Function.update_of_ne hj]
        exact h.passes j
    show (Function.update c.progress i progress j).OnCourse s₀.pending
      ((c.log ++ []).map Prod.fst) { c.store with leases }
    rw [hlog]
    generalize Function.update c.progress i progress j = other at hcourse ⊢
    cases other <;> exact hcourse

/-- A transaction that settles the first event of the queue. -/
theorem Serial.settled (h₀ : s₀.Sound tokens) (h : Serial tokens s₀ c) (quiet : env.rivals = {})
    (htokens : env.tokens = tokens) {e : QueuedEvent} {rest : List QueuedEvent}
    (hfirst : c.store.pending = e :: rest) {progress : Progress}
    (hprogress : progress.OnCourse s₀.pending (c.log.map Prod.fst ++ [e])
      (Pass.settle env c.store e)) :
    Serial tokens s₀ (c.moved i (Pass.settle env c.store e) progress
      [(e, (Pass.handle env e c.store).1)]) := by
  subst htokens
  have hlog : (c.log ++ [(e, (Pass.handle env e c.store).1)]).map Prod.fst =
      c.log.map Prod.fst ++ [e] := by
    rw [List.map_append, List.map_singleton]
  have hqueued : c.store.isQueued e.id = true := by
    have hmem : e ∈ c.store.pending := hfirst ▸ List.mem_cons_self
    exact isQueued_iff.mpr ⟨e, Pass.mem_pending.mp hmem, rfl⟩
  have hsame : ∀ other : Env, other.rivals = {} → other.tokens = env.tokens →
      (Pass.handle env e c.store).1 = (Pass.handle other e
        ((c.log.map Prod.fst).foldl (Pass.settle other) s₀)).1 ∧
      (Pass.settle env c.store e).Alike (Pass.settle other
        ((c.log.map Prod.fst).foldl (Pass.settle other) s₀) e) := by
    intro other quiet' htokens
    have hother : s₀.Sound other.tokens := htokens ▸ h₀
    have hsound := (Pass.foldl_settle_sound quiet' hother (c.log.map Prod.fst)).toGraphSound
    have halike := h.effects other quiet' htokens
    exact ⟨halike.handle quiet quiet' h.sound.toGraphSound hsound hqueued,
      halike.settle quiet quiet' htokens.symm h.sound.toGraphSound hsound e⟩
  refine ⟨Pass.settle_sound quiet h.sound e, ?_, ?_, ?_, fun j => ?_⟩
  · show (c.log ++ [(e, (Pass.handle env e c.store).1)]).map Prod.fst ++
      (Pass.settle env c.store e).pending = _
    rw [hlog, pending_settle quiet h.sound hfirst, List.append_assoc, List.singleton_append,
      ← hfirst]
    exact h.split
  · intro other quiet' htokens
    show c.log ++ [(e, (Pass.handle env e c.store).1)] = Pass.reports other (List.map _ (_ ++ _)) s₀
    rw [hlog, Pass.reports_concat, ← h.reports other quiet' htokens,
      (hsame other quiet' htokens).1]
  · intro other quiet' htokens
    show Alike _ ((List.map _ (_ ++ _)).foldl (Pass.settle other) s₀)
    rw [hlog, List.foldl_append]
    exact (hsame other quiet' htokens).2
  · show (Function.update c.progress i progress j).OnCourse s₀.pending (List.map _ (_ ++ _))
      (Pass.settle env c.store e)
    rw [hlog]
    by_cases hj : j = i
    · subst hj
      rw [Function.update_self]
      exact hprogress
    · rw [Function.update_of_ne hj]
      exact (h.passes j).settle quiet h₀ h.sound h.split hfirst

/-- A pass that has come to the first event of the queue settles it and goes on to the rest. -/
theorem Serial.settled_working (h₀ : s₀.Sound tokens) (h : Serial tokens s₀ c)
    (quiet : env.rivals = {}) (htokens : env.tokens = tokens) {e : QueuedEvent}
    {rest : List QueuedEvent} (hfirst : c.store.pending = e :: rest)
    (hqueued : c.store.isQueued e.id = true) (lease : Lease) :
    Serial tokens s₀ (c.moved i (Pass.settledAs env e c.store (e.verdict c.store))
      (.working lease rest) [(e, Pass.reported (e.verdict c.store))]) := by
  have hgraph : c.store.GraphSound env.tokens := htokens ▸ h.sound.toGraphSound
  have hdone : Behind s₀.pending (c.log.map Prod.fst ++ [e]) rest := by
    refine ⟨c.log.map Prod.fst ++ [e], ?_, List.prefix_rfl⟩
    rw [← h.split, hfirst, List.append_assoc, List.singleton_append]
  have hworking : Progress.OnCourse s₀.pending (c.log.map Prod.fst ++ [e])
      (Pass.settle env c.store e) (.working lease rest) := hdone
  have hsettled := h.settled (i := i) h₀ quiet htokens hfirst hworking
  rw [Pass.handle_of_queued quiet hgraph hqueued, Pass.settle_of_queued quiet hgraph hqueued]
    at hsettled
  exact hsettled

/-- The first transaction of an event: it settles the event, finds it gone, or fails it. -/
theorem Serial.attempt (h₀ : s₀.Sound tokens) (h : Serial tokens s₀ c) (quiet : env.rivals = {})
    (htokens : env.tokens = tokens) {lease : Lease} {e : QueuedEvent} {rest : List QueuedEvent}
    (hprogress : c.progress i = .working lease (e :: rest)) :
    Serial tokens s₀ (c.advance env i) := by
  have hbehind : Behind s₀.pending (c.log.map Prod.fst) (e :: rest) := by
    have hcourse := h.passes i
    rw [hprogress] at hcourse
    exact hcourse
  rw [Passes.advance_of_working env hprogress]
  rcases hbehind.cases (nodup_pending h₀) h.split with ⟨hqueued, hfirst⟩ | ⟨hfree, hrest⟩
  · have hgraph : c.store.GraphSound env.tokens := htokens ▸ h.sound.toGraphSound
    have hattempt := Pass.attempt_of_queued quiet hgraph hqueued
    have hsettled := h.settled_working (i := i) h₀ quiet htokens hfirst hqueued lease
    cases hverdict : e.verdict c.store with
    | dropped =>
      rw [hverdict] at hattempt hsettled
      rw [hattempt]
      exact hsettled
    | buried fault =>
      rw [hverdict] at hattempt
      rw [hattempt]
      exact h.moved c.store.leases ⟨hbehind, fun _ => hverdict⟩
    | carried plan =>
      have hcarried : Pass.settledAs env e c.store (.carried plan) =
          Reconcile.carriedOut env plan (c.store.claim e.id) := rfl
      rw [hverdict] at hattempt hsettled
      rw [hcarried] at hsettled
      rw [hattempt]
      unfold Pass.reported at hsettled ⊢
      cases houtcome : plan.outcome <;> simpa only [houtcome] using hsettled
  · rcases Pass.attempt_of_not_queued env hfree with hskipped | ⟨fault, hfailed⟩
    · rw [hskipped]
      exact h.moved c.store.leases hrest
    · rw [hfailed]
      refine h.moved c.store.leases ⟨hbehind, fun hqueued => ?_⟩
      rw [hfree] at hqueued
      exact absurd hqueued (by simp)

/-- The second transaction of an event that failed: it settles the event or finds it gone. -/
theorem Serial.setAside (h₀ : s₀.Sound tokens) (h : Serial tokens s₀ c) (quiet : env.rivals = {})
    (htokens : env.tokens = tokens) {lease : Lease} {e : QueuedEvent} {fault : Fault}
    {rest : List QueuedEvent} (hprogress : c.progress i = .failing lease e fault rest) :
    Serial tokens s₀ (c.advance env i) := by
  obtain ⟨hbehind, hfault⟩ : Behind s₀.pending (c.log.map Prod.fst) (e :: rest) ∧
      (c.store.isQueued e.id = true → e.verdict c.store = .buried fault) := by
    have hcourse := h.passes i
    rw [hprogress] at hcourse
    exact hcourse
  rw [Passes.advance_of_failing env hprogress]
  unfold Pass.setAside
  rcases hbehind.cases (nodup_pending h₀) h.split with ⟨hqueued, hfirst⟩ | ⟨hfree, hrest⟩
  · have hsettled := h.settled_working (i := i) h₀ quiet htokens hfirst hqueued lease
    rw [hfault hqueued] at hsettled
    rw [if_pos hqueued, if_pos hqueued]
    exact hsettled
  · rw [if_neg (by simp [hfree]), if_neg (by simp [hfree])]
    exact h.moved c.store.leases hrest

theorem Serial.advance (h₀ : s₀.Sound tokens) (h : Serial tokens s₀ c) (quiet : env.rivals = {})
    (htokens : env.tokens = tokens) (i : ℕ) : Serial tokens s₀ (c.advance env i) := by
  cases hprogress : c.progress i with
  | ready lease =>
    have hall : Behind s₀.pending (c.log.map Prod.fst) c.store.pending :=
      ⟨c.log.map Prod.fst, h.split, List.prefix_rfl⟩
    have hworking : Progress.OnCourse s₀.pending (c.log.map Prod.fst) c.store
        (.working lease c.store.pending) := hall
    rw [Passes.advance_of_ready env hprogress]
    exact h.moved c.store.leases hworking
  | working lease todo =>
    cases todo with
    | nil =>
      have hempty : c.store.pending = [] := by
        have hcourse := h.passes i
        rw [hprogress] at hcourse
        obtain ⟨handled, hall, hprefix⟩ := hcourse
        rw [List.append_nil] at hall
        obtain ⟨more, hmore⟩ := hprefix
        have hsplit := h.split
        rw [← hmore, hall, List.append_assoc] at hsplit
        exact (List.append_eq_nil_iff.mp (List.append_right_eq_self.mp hsplit)).2
      have hended : Progress.OnCourse s₀.pending (c.log.map Prod.fst) c.store .ended := hempty
      rw [Passes.advance_of_done env hprogress]
      exact h.moved (lease.release c.store).leases hended
    | cons e rest => exact h.attempt h₀ quiet htokens hprogress
  | failing lease e fault rest => exact h.setAside h₀ quiet htokens hprogress
  | _ =>
    unfold Passes.advance
    rw [hprogress]
    exact h

theorem Serial.enter (h : Serial tokens s₀ c) (env : Env) (i owner : ℕ) (ttl : ℤ) :
    Serial tokens s₀ (c.enter env i owner ttl) := by
  rcases c.enter_cases env i owner ttl with
    hsame | ⟨-, leases, hcontended | ⟨lease, hready⟩⟩
  · rw [hsame]
    exact h
  · rw [hcontended]
    exact h.moved leases trivial
  · rw [hready]
    exact h.moved leases trivial

theorem Serial.stop (h : Serial tokens s₀ c) (release : Bool) (i : ℕ) :
    Serial tokens s₀ (c.stop release i) := by
  rcases c.stop_cases release i with hsame | ⟨leases, hstopped⟩
  · rw [hsame]
    exact h
  · rw [hstopped]
    exact h.moved leases trivial

theorem Serial.take (h₀ : s₀.Sound tokens) (h : Serial tokens s₀ c) (turn : Turn) :
    Serial tokens s₀ (c.take tokens turn) := by
  unfold Passes.take
  split
  · exact h.enter _ _ _ _
  · exact h.advance h₀ rfl rfl _
  · exact h.stop false _
  · exact h.stop true _

theorem serial_run (h₀ : s₀.Sound tokens) (schedule : List Turn) :
    Serial tokens s₀ (Passes.run tokens schedule { store := s₀ }) := by
  have hfold : ∀ c, Serial tokens s₀ c → Serial tokens s₀ (c.run tokens schedule) := by
    induction schedule with
    | nil => exact fun c h => h
    | cons turn rest ih => exact fun c h => ih _ (h.take h₀ turn)
  exact hfold _ (serial_start h₀)

/-! ### What turns keep -/

/-- What a transaction of a pass leaves: other leases, or the store after the first event of the
queue. -/
inductive Passes.Leaves (env : Env) (c d : Passes) : Prop
  | leases (leases : List LeaseRow) (hstore : d.store = { c.store with leases })
    (hlog : d.log = c.log)
  | settled {e : QueuedEvent} {rest : List QueuedEvent} (hfirst : c.store.pending = e :: rest)
    (hstore : d.store = Pass.settle env c.store e)
    (hlog : d.log = c.log ++ [(e, (Pass.handle env e c.store).1)])

theorem Passes.leaves_moved (env : Env) (c : Passes) (i : ℕ) (leases : List LeaseRow)
    (progress : Progress) : c.Leaves env (c.moved i { c.store with leases } progress []) :=
  .leases leases rfl (List.append_nil _)

theorem Passes.leaves_enter (env : Env) (i owner : ℕ) (ttl : ℤ) (c : Passes) :
    c.Leaves env (c.enter env i owner ttl) := by
  rcases c.enter_cases env i owner ttl with
    hsame | ⟨-, leases, hcontended | ⟨lease, hready⟩⟩
  · exact .leases c.store.leases (congrArg store hsame) (congrArg log hsame)
  · rw [hcontended]
    exact leaves_moved env c i leases _
  · rw [hready]
    exact leaves_moved env c i leases _

theorem Passes.leaves_stop (env : Env) (release : Bool) (i : ℕ) (c : Passes) :
    c.Leaves env (c.stop release i) := by
  rcases c.stop_cases release i with hsame | ⟨leases, hstopped⟩
  · exact .leases c.store.leases (congrArg store hsame) (congrArg log hsame)
  · rw [hstopped]
    exact leaves_moved env c i leases _

theorem Serial.leaves_advance (h₀ : s₀.Sound tokens) (h : Serial tokens s₀ c)
    (quiet : env.rivals = {}) (htokens : env.tokens = tokens) (i : ℕ) :
    c.Leaves env (c.advance env i) := by
  have hgraph : c.store.GraphSound env.tokens := htokens ▸ h.sound.toGraphSound
  have hcourse := h.passes i
  cases hprogress : c.progress i with
  | ready lease =>
    rw [Passes.advance_of_ready env hprogress]
    exact .leases c.store.leases rfl (List.append_nil _)
  | working lease todo =>
    rw [hprogress] at hcourse
    cases todo with
    | nil =>
      rw [Passes.advance_of_done env hprogress]
      exact Passes.leaves_moved env c i (lease.release c.store).leases _
    | cons e rest =>
      rw [Passes.advance_of_working env hprogress]
      rcases Behind.cases (nodup_pending h₀) h.split hcourse with ⟨hqueued, hfirst⟩ | ⟨hfree, -⟩
      · rcases Pass.attempt_cases quiet hgraph hqueued with
          ⟨fault, -, hfailed⟩ | ⟨done, hdone, hsettled, hhandle⟩
        · rw [hfailed]
          exact .leases c.store.leases rfl (List.append_nil _)
        · rw [hsettled]
          rcases hdone with rfl | rfl <;> exact .settled hfirst rfl (by rw [hhandle]; rfl)
      · rcases Pass.attempt_of_not_queued env hfree with hskipped | ⟨fault, hfailed⟩
        · rw [hskipped]
          exact .leases c.store.leases rfl (List.append_nil _)
        · rw [hfailed]
          exact .leases c.store.leases rfl (List.append_nil _)
  | failing lease e fault rest =>
    rw [hprogress] at hcourse
    obtain ⟨hbehind, hfault⟩ := hcourse
    rw [Passes.advance_of_failing env hprogress]
    unfold Pass.setAside
    rcases Behind.cases (nodup_pending h₀) h.split hbehind with ⟨hqueued, hfirst⟩ | ⟨hfree, -⟩
    · have hhandle := Pass.handle_of_queued quiet hgraph hqueued
      rw [hfault hqueued] at hhandle
      rw [if_pos hqueued, if_pos hqueued]
      exact .settled hfirst (congrArg Prod.snd hhandle).symm (by rw [hhandle]; rfl)
    · rw [if_neg (by simp [hfree]), if_neg (by simp [hfree])]
      exact .leases c.store.leases rfl (List.append_nil _)
  | _ =>
    unfold Passes.advance
    rw [hprogress]
    exact .leases c.store.leases rfl rfl

theorem Serial.leaves_take (h₀ : s₀.Sound tokens) (h : Serial tokens s₀ c) (turn : Turn) :
    c.Leaves { clock := turn.clock, tokens } (c.take tokens turn) := by
  unfold Passes.take
  split
  · exact Passes.leaves_enter _ _ _ _ c
  · exact h.leaves_advance h₀ rfl rfl _
  · exact Passes.leaves_stop _ false _ c
  · exact Passes.leaves_stop _ true _ c

/-- What holds at first and outlasts any change of leases and the settling of the first event holds
after any turns. -/
theorem Passes.run_induction {P : List (QueuedEvent × Pass.Attempt) → Store → Prop}
    (h₀ : s₀.Sound tokens) (start : P [] s₀)
    (leases : ∀ log s leases, P log s → P log { s with leases })
    (settle : ∀ log s e clock, s.Sound tokens → e ∈ s.queue.rows → P log s →
      P (log ++ [(e, (Pass.handle { clock, tokens } e s).1)]) (Pass.settle { clock, tokens } s e))
    (schedule : List Turn) :
    let c := run tokens schedule { store := s₀ }
    P c.log c.store := by
  induction schedule using List.reverseRecOn with
  | nil => exact start
  | append_singleton schedule turn ih =>
    intro d
    set c := run tokens schedule { store := s₀ } with hc
    have hserial : Serial tokens s₀ c := serial_run h₀ schedule
    have hd : d = c.take tokens turn := by
      show run tokens (schedule ++ [turn]) { store := s₀ } = _
      unfold run
      rw [List.foldl_append]
      rfl
    rw [hd]
    cases hserial.leaves_take h₀ turn with
    | leases changed hstore hlog =>
      rw [hstore, hlog]
      exact leases _ _ changed ih
    | @settled e rest hfirst hstore hlog =>
      have hmem : e ∈ c.store.pending := hfirst ▸ List.mem_cons_self
      rw [hstore, hlog]
      exact settle _ _ e turn.clock hserial.sound (Pass.mem_pending.mp hmem) ih

end Invariant

/-! ### Every interleaving -/

/-- The stores that an empty one may become: by whole operations, and by passes that overlap or are
abandoned. -/
inductive Reachable (tokens : Tokenizer) : Store → Prop
  | empty : Reachable tokens {}
  | perform {s : Store} (h : Reachable tokens s) (clock : ℤ) (op : Operation) (hheld : op.Held) :
    Reachable tokens (op.perform { clock, tokens } s)
  | passes {s : Store} (h : Reachable tokens s) (schedule : List Turn) :
    Reachable tokens (Passes.run tokens schedule { store := s }).store

theorem Reachable.sound {tokens : Tokenizer} {s : Store} (h : Reachable tokens s) :
    s.Sound tokens := by
  induction h with
  | empty => exact sound_empty tokens
  | perform _ clock op hheld ih =>
    have hquiet : ({ clock, tokens } : Env).rivals = {} := rfl
    exact Operation.perform_sound hquiet hheld ih
  | passes _ schedule ih => exact (serial_run ih schedule).sound

/-- However lenient passes over a reachable store overlap and whichever of them are abandoned, the
events that have left the queue are at any time the first ones, in order and each of them once;
they have been reported, and the store is, as if one pass had settled them. When a pass has come to
its end, the store is that of a single pass that is not interrupted. -/
theorem passes_serial {tokens : Tokenizer} {s : Store} (h : Reachable tokens s)
    (schedule : List Turn) (clock : ℤ) :
    let env : Env := { clock, tokens }
    let c := Passes.run tokens schedule { store := s }
    let settled := c.log.map Prod.fst
    (settled ++ c.store.pending = s.pending ∧ (settled.map (·.id)).Nodup ∧
        settled.Pairwise (fun a b => stampLe a.stamp b.stamp = true) ∧
        c.log = Pass.reports env settled s ∧
        c.store.Alike (settled.foldl (Pass.settle env) s)) ∧
      ∀ i, c.progress i = .ended → ∀ owner ttl, Lease.isTaken env.now Lease.processing s = false →
        ∃ tally t, Pass.run env owner false ttl s = .ok (.completed tally) t ∧
          settled = s.pending ∧ c.store.Alike t := by
  intro env c settled
  have hserial : Serial tokens s c := serial_run h.sound schedule
  have hsplit : settled ++ c.store.pending = s.pending := hserial.split
  have hids := nodup_pending h.sound
  have hsorted := Pass.pending_sorted s
  rw [← hsplit] at hids hsorted
  rw [List.map_append, List.nodup_append] at hids
  refine ⟨⟨hsplit, hids.1, (List.pairwise_append.mp hsorted).1, hserial.reports env rfl rfl,
    hserial.effects env rfl rfl⟩, fun i hended owner ttl hfree => ?_⟩
  have hempty : c.store.pending = [] := by
    have hcourse := hserial.passes i
    rw [hended] at hcourse
    exact hcourse
  have hall : settled = s.pending := by
    rw [hempty, List.append_nil] at hsplit
    exact hsplit
  obtain ⟨tally, hrun⟩ := Pass.run_lenient env owner ttl hfree
  refine ⟨tally, _, hrun, hall, ?_⟩
  have heffects : c.store.Alike (settled.foldl (Pass.settle env) s) :=
    hserial.effects env rfl rfl
  rw [hall] at heffects
  -- The pass that is not interrupted works on a store that has its lease.
  have hleased : (s.pending.foldl (Pass.settle env) s).Alike (s.pending.foldl (Pass.settle env)
      (Pass.leased env.now owner Lease.processing ttl s)) :=
    (alike_withLeases s _).foldl_settle rfl rfl rfl h.sound (Pass.withLeases_sound h.sound _) _
  exact (heffects.trans hleased).trans (alike_withLeases _ _)

/-- A document of a space that is not there has been written. -/
def spaceless : Store :=
  Operation.perform { clock := 1000, tokens := String.length }
    (.upsert "s" .space [] (some (.obj []))) {}

/-- The lease of the first pass runs out while the event fails; the second pass sets it aside and is
abandoned, and the first one goes on. -/
def overlapping : List Turn :=
  [⟨0, 2000, .enter 1 0⟩, ⟨0, 2000, .next⟩, ⟨0, 2000, .next⟩, ⟨1, 3000, .enter 2 60000⟩,
    ⟨1, 3000, .next⟩, ⟨1, 3000, .next⟩, ⟨1, 3000, .next⟩, ⟨1, 4000, .abandon⟩, ⟨0, 4000, .next⟩,
    ⟨0, 4000, .next⟩]

theorem passes_serial_overlapping :
    let c := Passes.run String.length overlapping { store := spaceless }
    Reachable String.length spaceless ∧ c.progress 0 = .ended ∧ c.progress 1 = .abandoned ∧
      Lease.isTaken (Clock.now 5000) Lease.processing spaceless = false ∧
      c.log.map Prod.snd = [.failed (.missingSpace "s")] ∧
      ∃ tally t, Pass.run { clock := 5000, tokens := String.length } 3 false 60000 spaceless =
          .ok (.completed tally) t ∧
        c.log.map Prod.fst = spaceless.pending ∧ c.store.Alike t := by
  intro c
  have hreachable : Reachable String.length spaceless := .perform .empty 1000 _ trivial
  have hended : c.progress 0 = .ended := by decide +kernel
  have hfree : Lease.isTaken (Clock.now 5000) Lease.processing spaceless = false := by
    decide +kernel
  exact ⟨hreachable, hended, by decide +kernel, hfree, by decide +kernel,
    (passes_serial hreachable overlapping 5000).2 0 hended 3 60000 hfree⟩

end NodeGraph
