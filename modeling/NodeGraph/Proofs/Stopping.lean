import NodeGraph.Proofs.SingleFlight
import NodeGraph.Proofs.Tallies

/-!
A strict pass stops at the first event that fails, as if the queue had ended there; events behind
it stay queued.
-/
namespace NodeGraph

open Store

namespace Table

variable {ρ : Type}

theorem keep_keep (t : Table ρ) (p q : ρ → Bool) :
    (t.keep p).keep q = t.keep fun row => p row && q row := by
  unfold keep
  rw [List.filter_filter]
  congr 1
  apply List.filter_congr
  intro row _
  exact Bool.and_comm _ _

end Table

namespace Pass

variable {env : Env} {s : Store} {e : QueuedEvent}

/-! ### Another queue -/

/-- Nothing but the event itself is taken off the queue, whatever else is queued. -/
theorem settledAs_withQueue (queue : Table QueuedEvent) (v : Verdict) :
    settledAs env e { s with queue } v =
      { settledAs env e s v with queue := queue.keep (·.id ≠ e.id) } := by
  cases v with
  | dropped => rfl
  | buried fault => rfl
  | carried plan =>
    let claimed : Store := { s with queue := queue.keep (·.id ≠ e.id) }
    have hframe := Reconcile.sameRecords_carriedOut env (s.claim e.id) plan
    show Reconcile.carriedOut env plan ((s.claim e.id).withRecords claimed) =
      { Reconcile.carriedOut env plan (s.claim e.id) with queue := claimed.queue }
    rw [carriedOut_withRecords]
    unfold Store.withRecords
    dsimp only
    rw [hframe.deadLetters, hframe.versions, hframe.leases]
    rfl

theorem settle_withQueue (quiet : env.rivals = {}) (h : s.GraphSound env.tokens)
    {queue : Table QueuedEvent} (hqueued : s.isQueued e.id = true)
    (hother : ({ s with queue } : Store).isQueued e.id = true) :
    settle env { s with queue } e = { settle env s e with queue := queue.keep (·.id ≠ e.id) } := by
  have hsound : ({ s with queue } : Store).GraphSound env.tokens := h.congr rfl rfl rfl rfl rfl
  have hverdict : e.verdict { s with queue } = e.verdict s := rfl
  rw [settle_of_queued quiet hsound hother, settle_of_queued quiet h hqueued, hverdict]
  exact settledAs_withQueue queue _

/-- Events that are queued are settled in the same way beside any others. -/
theorem foldl_settle_withQueue (quiet : env.rivals = {}) (h : s.Sound env.tokens)
    {queue : Table QueuedEvent} (hqueue : queue.Numbered (·.id)) {events : List QueuedEvent}
    (hqueued : Queued s events) (hother : Queued { s with queue } events) :
    events.foldl (settle env) { s with queue } =
      { events.foldl (settle env) s with queue := queue.keep (·.id ∉ events.map (·.id)) } := by
  induction events generalizing s queue with
  | nil =>
    have hall : queue.keep (·.id ∉ List.map QueuedEvent.id []) = queue := by
      unfold Table.keep
      simp
    rw [hall]
    rfl
  | cons e rest ih =>
    have hsound : ({ s with queue } : Store).Sound env.tokens := h.withQueue hqueue
    have hfirst := settle_withQueue quiet h.toGraphSound
      (hqueued.queued e List.mem_cons_self) (hother.queued e List.mem_cons_self)
    have hrest := hother.settle quiet hsound.toGraphSound
    rw [hfirst] at hrest
    have hkept : (queue.keep (·.id ≠ e.id)).keep (·.id ∉ rest.map (·.id)) =
        queue.keep (·.id ∉ (e :: rest).map (·.id)) := by
      rw [Table.keep_keep]
      congr 1
      funext other
      simp [not_or]
    rw [List.foldl_cons, List.foldl_cons, hfirst, ih (settle_sound quiet h e) (hqueue.keep _)
      (hqueued.settle quiet h.toGraphSound) hrest, hkept]

theorem Fated.withQueue (quiet : env.rivals = {}) (h : s.Sound env.tokens)
    {queue : Table QueuedEvent} (hqueue : queue.Numbered (·.id)) {events : List QueuedEvent}
    (hqueued : Queued s events) (hother : Queued { s with queue } events)
    {fates : QueuedEvent → Attempt} (hfates : Fated env fates events s) :
    Fated env fates events { s with queue } := by
  induction events generalizing s queue with
  | nil => trivial
  | cons e rest ih =>
    have hsound : ({ s with queue } : Store).Sound env.tokens := h.withQueue hqueue
    have hfirst := settle_withQueue quiet h.toGraphSound
      (hqueued.queued e List.mem_cons_self) (hother.queued e List.mem_cons_self)
    have hrest := hother.settle quiet hsound.toGraphSound
    rw [hfirst] at hrest
    refine ⟨hfates.1, ?_⟩
    rw [hfirst]
    exact ih (settle_sound quiet h e) (hqueue.keep _) (hqueued.settle quiet h.toGraphSound) hrest
      hfates.2

theorem Queued.left {first last : List QueuedEvent} (h : Queued s (first ++ last)) :
    Queued s first := by
  have hids := h.ids
  rw [List.map_append] at hids
  constructor
  · exact (List.nodup_append.mp hids).1
  · intro e he
    exact h.queued e (List.mem_append_left last he)

/-- Events stay queued while those before them are settled. -/
theorem Queued.foldl_settle (quiet : env.rivals = {}) (h : s.Sound env.tokens)
    {first last : List QueuedEvent} (hqueued : Queued s (first ++ last)) :
    Queued (first.foldl (Pass.settle env) s) last := by
  induction first generalizing s with
  | nil => exact hqueued
  | cons e rest ih =>
    exact ih (settle_sound quiet h e) (hqueued.settle quiet h.toGraphSound)

theorem failed_eq_nil {fate : QueuedEvent → Attempt} {events : List QueuedEvent}
    (hgood : ∀ e ∈ events, (fate e).fault? = none) : failed fate events = [] := by
  unfold failed
  rw [List.filterMap_eq_nil_iff]
  intro e he
  rw [hgood e he]
  rfl

theorem failed_of_first {fate : QueuedEvent → Attempt} {before : List QueuedEvent} {fault : Fault}
    (hgood : ∀ other ∈ before, (fate other).fault? = none) (hfault : (fate e).fault? = some fault) :
    failed fate (before ++ [e]) = [(e, fault)] := by
  have hbefore := failed_eq_nil hgood
  unfold failed at hbefore ⊢
  rw [List.filterMap_append, hbefore, List.nil_append]
  simp [hfault]

/-! ### Stopping -/

/-- A pass goes on behind a queued event, unless it is strict and the event fails. Then it ends with
the fault, once the event has been set aside. -/
theorem drain_cons_queued (quiet : env.rivals = {}) (h : s.GraphSound env.tokens) (strict : Bool)
    (hqueued : s.isQueued e.id = true) (rest : List QueuedEvent) (tally : Tally) :
    drain env strict (e :: rest) tally s =
      match strict, (fate s e).fault? with
      | true, some fault => .error fault (settle env s e)
      | _, _ => drain env strict rest ((fate s e).count tally) (settle env s e) := by
  have hhandle : (handle env e s).1 = fate s e :=
    congrArg Prod.fst (handle_of_queued quiet h hqueued)
  rw [drain_cons_eq, ← hhandle]
  unfold settle
  cases handle env e s with
  | mk attempt t => cases attempt <;> cases strict <;> rfl

/-- A pass, strict or not, handles events that do not fail one after the other. -/
theorem drain_append (quiet : env.rivals = {}) (h : s.Sound env.tokens) (strict : Bool)
    {fates : QueuedEvent → Attempt} {before rest : List QueuedEvent}
    (hqueued : Queued s (before ++ rest)) (hfates : Fated env fates before s)
    (hgood : ∀ e ∈ before, (fates e).fault? = none) (tally : Tally) :
    drain env strict (before ++ rest) tally s =
      drain env strict rest (before.foldl (fun tally e => (fates e).count tally) tally)
        (before.foldl (settle env) s) := by
  induction before generalizing s tally with
  | nil => rfl
  | cons e others ih =>
    have hrest := ih (settle_sound quiet h e) (hqueued.settle quiet h.toGraphSound) hfates.2
      (fun other hother => hgood other (List.mem_cons_of_mem e hother)) ((fates e).count tally)
    rw [List.cons_append, List.foldl_cons, List.foldl_cons, ← hrest,
      drain_cons_queued quiet h.toGraphSound strict (hqueued.queued e List.mem_cons_self),
      ← hfates.1, hgood e List.mem_cons_self]
    cases strict <;> rfl

/-- Where no event fails, a strict pass and a lenient one are the same. -/
theorem run_of_no_failure (quiet : env.rivals = {}) (h : s.Sound env.tokens) (owner : ℕ)
    (ttl : ℤ) (hfree : Lease.isTaken env.now Lease.processing s = false)
    (hgood : ∀ e ∈ s.pending, (fateOf env s e).fault? = none) :
    run env owner true ttl s = run env owner false ttl s := by
  set t := leased env.now owner Lease.processing ttl s with ht
  have hsound : t.Sound env.tokens := withLeases_sound h _
  have hqueued : Queued t (s.pending ++ []) := by
    rw [List.append_nil]
    exact queued_pending h.queueIds
  have hdrain : ∀ strict, drainQueue env strict t =
      drain env strict [] (s.pending.foldl (fun tally e => (fateOf env s e).count tally)
        { claimed := s.pending.length }) (s.pending.foldl (settle env) t) := by
    intro strict
    have happend := drain_append quiet hsound strict hqueued
      ((fated_pending env h.queueIds).leased quiet h _ _ _) hgood { claimed := s.pending.length }
    rw [List.append_nil] at happend
    exact happend
  unfold run
  rw [underLease_of_free hfree, underLease_of_free hfree, ← ht, hdrain, hdrain]
  rfl

section Failure

variable {before after : List QueuedEvent} {fault : Fault}

/-- A strict pass settles the first event that fails and those before it, and gives up its lease. -/
theorem run_of_failure (quiet : env.rivals = {}) (h : s.Sound env.tokens) (owner : ℕ) (ttl : ℤ)
    (hfree : Lease.isTaken env.now Lease.processing s = false)
    (hpending : s.pending = before ++ e :: after)
    (hgood : ∀ other ∈ before, (fateOf env s other).fault? = none)
    (hfate : (fateOf env s e).fault? = some fault) :
    run env owner true ttl s = .error fault
      (Lease.release ⟨Lease.processing, owner, Clock.after env.now ttl⟩
        ((before ++ [e]).foldl (settle env) (leased env.now owner Lease.processing ttl s))) := by
  set t := leased env.now owner Lease.processing ttl s with ht
  have hsound : t.Sound env.tokens := withLeases_sound h _
  have hqueued : Queued t (before ++ e :: after) := hpending ▸ queued_pending h.queueIds
  have hlast : (before.foldl (settle env) t).isQueued e.id = true :=
    (hqueued.foldl_settle quiet hsound).queued e List.mem_cons_self
  have hfated := (fated_pending env h.queueIds).leased quiet h owner Lease.processing ttl
  rw [hpending, fated_append, ← ht] at hfated
  obtain ⟨hbefore, hlastFate, -⟩ := hfated
  have hdrain : drainQueue env true t =
      .error fault ((before ++ [e]).foldl (settle env) t) := by
    have happend := drain_append quiet hsound true hqueued hbefore hgood
      { claimed := s.pending.length }
    rw [drain_cons_queued quiet (foldl_settle_sound quiet hsound before).toGraphSound true hlast,
      ← hlastFate, hfate] at happend
    dsimp only at happend
    rw [List.foldl_concat, ← happend, ← hpending]
    rfl
  unfold run
  rw [underLease_of_free hfree, ← ht, hdrain]

/-- A part of the pending events that comes first is what is pending where only it is queued. -/
theorem pending_cut (h : s.Sound env.tokens) {first last : List QueuedEvent}
    (hpending : s.pending = first ++ last) :
    ({ s with queue := s.queue.keep (· ∈ first) } : Store).pending = first ∧
      ({ s with queue := s.queue.keep (· ∈ last) } : Store).pending = last ∧
      s.queue.keep (·.id ∉ first.map (·.id)) = s.queue.keep (· ∈ last) := by
  have hids : (s.pending.map (·.id)).Nodup := nodup_pending h
  rw [hpending, List.map_append, List.nodup_append] at hids
  obtain ⟨-, -, hapart⟩ := hids
  have hdisjoint : ∀ a ∈ first, ∀ b ∈ last, a.id ≠ b.id := fun a ha b hb =>
    hapart a.id (List.mem_map_of_mem ha) b.id (List.mem_map_of_mem hb)
  refine ⟨?_, ?_, ?_⟩
  · rw [pending_keep h.queueIds, hpending, List.filter_append, List.filter_eq_self.mpr,
      List.filter_eq_nil_iff.mpr, List.append_nil]
    · intro b hb hmem
      exact hdisjoint b (of_decide_eq_true hmem) b hb rfl
    · intro a ha
      exact decide_eq_true ha
  · rw [pending_keep h.queueIds, hpending, List.filter_append, List.filter_eq_nil_iff.mpr,
      List.filter_eq_self.mpr, List.nil_append]
    · intro b hb
      exact decide_eq_true hb
    · intro a ha hmem
      exact hdisjoint a ha a (of_decide_eq_true hmem) rfl
  · unfold Table.keep
    congr 1
    apply List.filter_congr
    intro row hrow
    have hmem : row ∈ first ++ last := hpending ▸ mem_pending.mpr hrow
    rw [decide_eq_decide]
    constructor
    · intro hnew
      rcases List.mem_append.mp hmem with hfirst | hlast
      · exact absurd (List.mem_map_of_mem hfirst) hnew
      · exact hlast
    · intro hlast hin
      obtain ⟨a, ha, hid⟩ := List.mem_map.mp hin
      exact hdisjoint a ha row hlast hid

/-- A lenient pass over the first part of the queue leaves what is left once that part has been
settled in the whole queue. -/
theorem run_cut (quiet : env.rivals = {}) (h : s.Sound env.tokens) (owner : ℕ) (ttl : ℤ)
    (hfree : Lease.isTaken env.now Lease.processing s = false) {first last : List QueuedEvent}
    (hpending : s.pending = first ++ last) :
    ∃ t, run env owner false ttl { s with queue := s.queue.keep (· ∈ first) } =
        .ok (.completed
          { claimed := first.length
            applied := first.countP (fateOf env s · = .applied)
            ignored := first.countP (fateOf env s · = .ignored)
            failed := (failed (fateOf env s) first).length }) t ∧
      Lease.release ⟨Lease.processing, owner, Clock.after env.now ttl⟩
          (first.foldl (settle env) (leased env.now owner Lease.processing ttl s)) =
        { t with queue := s.queue.keep (· ∈ last) } := by
  obtain ⟨hfirst, -, hlast⟩ := pending_cut h hpending
  have hcut : (s.queue.keep (· ∈ first)).Numbered (·.id) := h.queueIds.keep _
  have hsound : ({ s with queue := s.queue.keep (· ∈ first) } : Store).Sound env.tokens :=
    h.withQueue hcut
  have hqueuedFirst : Queued s first := by
    have hall := queued_pending h.queueIds
    rw [hpending] at hall
    exact hall.left
  have hqueuedPart : Queued { s with queue := s.queue.keep (· ∈ first) } first := by
    have hall := queued_pending (s := { s with queue := s.queue.keep (· ∈ first) }) hcut
    rw [hfirst] at hall
    exact hall
  have hfates : Fated env (fateOf env s)
      ({ s with queue := s.queue.keep (· ∈ first) } : Store).pending
      { s with queue := s.queue.keep (· ∈ first) } := by
    have hall := fated_pending env h.queueIds
    rw [hpending, fated_append] at hall
    rw [hfirst]
    exact hall.1.withQueue quiet h hcut hqueuedFirst hqueuedPart
  have hrun := run_eq quiet hsound hfates owner ttl hfree
  rw [hfirst] at hrun
  refine ⟨_, hrun, ?_⟩
  set t := leased env.now owner Lease.processing ttl s with ht
  have htsound : t.Sound env.tokens := withLeases_sound h _
  have hqueued : Queued t first := ⟨hqueuedFirst.ids, hqueuedFirst.queued⟩
  have hqueuedCut : Queued { t with queue := s.queue.keep (· ∈ first) } first :=
    ⟨hqueuedPart.ids, hqueuedPart.queued⟩
  have hcutFold := foldl_settle_withQueue quiet htsound hcut hqueued hqueuedCut
  have hqueue : (first.foldl (settle env) t).queue = s.queue.keep (· ∈ last) := by
    have hnumbered : t.queue.Numbered (·.id) := h.queueIds
    have hwhole := foldl_settle_withQueue quiet htsound hnumbered hqueued hqueued
    rw [← hlast]
    exact congrArg Store.queue hwhole
  have hleased : leased env.now owner Lease.processing ttl
      { s with queue := s.queue.keep (· ∈ first) } =
        { t with queue := s.queue.keep (· ∈ first) } := rfl
  rw [hleased, hcutFold, ← hqueue]
  rfl

end Failure

end Pass

/-- In a reachable store whose lease is free, whatever the queue holds: if no event fails, a strict
pass ends as a lenient one does. Else it returns the fault of the first event that fails, and leaves
what a lenient pass leaves of the queue up to that event, which is kept in a letter. Those behind it
are still queued, in their order, and no later pass finds the lease taken. -/
theorem Reachable.stops_at_failure {tokens : Tokenizer} {s : Store} (h : Reachable tokens s)
    {queue : Table QueuedEvent} (hqueue : queue.Numbered (·.id)) (clock : ℤ) (owner : ℕ) (ttl : ℤ)
    (hfree : Lease.isTaken (Clock.now clock) Lease.processing s = false) :
    let env : Env := { clock, tokens }
    let start : Store := { s with queue }
    let fault? := fun e => (Pass.fateOf env start e).fault?
    ((∀ e ∈ start.pending, fault? e = none) ∧
      ∃ tally t, tally.failed = 0 ∧
        Pass.run env owner true ttl start = .ok (.completed tally) t ∧
        Pass.run env owner false ttl start = .ok (.completed tally) t) ∨
      ∃ before e after fault u, start.pending = before ++ e :: after ∧
        (∀ other ∈ before, fault? other = none) ∧ fault? e = some fault ∧
        Pass.run env owner true ttl start = .error fault u ∧
        (∃ tally t, Pass.run env owner false ttl
            { s with queue := queue.keep (· ∈ before ++ [e]) } = .ok (.completed tally) t ∧
          tally.claimed = before.length + 1 ∧ tally.failed = 1 ∧
          u = { t with queue := queue.keep (· ∈ after) }) ∧
        u.deadLetters.rows =
          s.deadLetters.rows ++ [e.letter env.now fault s.deadLetters.nextId] ∧
        u.pending = after ∧
        ∀ env' owner' strict' ttl' t,
          Pass.run env' owner' strict' ttl' u ≠ .ok .contended t := by
  intro env start fault?
  have quiet : env.rivals = {} := rfl
  have hsound : start.Sound env.tokens := h.sound.withQueue hqueue
  cases hfirst : start.pending.findSome? fault? with
  | none =>
    left
    have hgood : ∀ e ∈ start.pending, fault? e = none := List.findSome?_eq_none_iff.mp hfirst
    have hlenient :=
      Pass.run_eq quiet hsound (Pass.fated_pending env hsound.queueIds) owner ttl hfree
    have hstrict := Pass.run_of_no_failure quiet hsound owner ttl hfree hgood
    refine ⟨hgood, _, _, ?_, hstrict.trans hlenient, hlenient⟩
    rw [Pass.failed_eq_nil hgood]
    rfl
  | some fault =>
    right
    obtain ⟨before, e, after, hpending, hfault, hgood⟩ := List.findSome?_eq_some_iff.mp hfirst
    have hsplit : start.pending = (before ++ [e]) ++ after := by
      rw [hpending, List.append_assoc]
      rfl
    have hfailed : Pass.failed (Pass.fateOf env start) (before ++ [e]) = [(e, fault)] :=
      Pass.failed_of_first hgood hfault
    have hleased : (Pass.leased env.now owner Lease.processing ttl start).Sound env.tokens :=
      Pass.withLeases_sound hsound _
    have hqueued : Pass.Queued (Pass.leased env.now owner Lease.processing ttl start)
        ((before ++ [e]) ++ after) := hsplit ▸ Pass.queued_pending hsound.queueIds
    have hstrict := Pass.run_of_failure quiet hsound owner ttl hfree hpending hgood hfault
    obtain ⟨t, hcut, hleft⟩ := Pass.run_cut quiet hsound owner ttl hfree hsplit
    refine ⟨before, e, after, fault, _, hpending, hgood, hfault, hstrict, ?_, ?_, ?_, ?_⟩
    · refine ⟨_, t, hcut, ?_, ?_, hleft⟩
      · exact List.length_append
      · rw [hfailed]
        rfl
    · have hfated := (Pass.fated_pending env hsound.queueIds).leased quiet hsound owner
        Lease.processing ttl
      rw [hsplit, Pass.fated_append] at hfated
      have hletters := Pass.deadLetters_foldl_settle quiet hleased hqueued.left hfated.1
      rw [hfailed] at hletters
      exact congrArg Table.rows hletters
    · rw [hleft]
      exact (Pass.pending_cut hsound hsplit).2.1
    · intro env' owner' strict' ttl' t
      have hleases := Operation.leases_foldl_settle quiet hleased (before ++ [e])
      apply Pass.underLease_ne_contended
      rw [Lease.isTaken_eq_false, Lease.leases_release_leased hleases]
      intro row hrow hname
      exact absurd hname (of_decide_eq_true (List.mem_filter.mp hrow).2)

/-- The third event of the queue is the first that fails. -/
theorem Reachable.stops_at_failure_mixedQueue :
    let env : Env := { clock := 3000, tokens := String.length }
    Reachable String.length spaceless ∧ mixedQueue.Numbered (·.id) ∧
      Lease.isTaken (Clock.now 3000) Lease.processing spaceless = false ∧
      ∃ fault u, Pass.run env 1 true 60000 { spaceless with queue := mixedQueue } =
          .error fault u ∧
        u.deadLetters.rows.map (·.eventId) = [3] ∧ u.pending.map (·.id) = [4, 1] ∧
        ∀ t, Pass.run env 2 false 60000 u ≠ .ok .contended t := by
  intro env
  have hreachable : Reachable String.length spaceless := .perform .empty 1000 _ trivial
  have hnumbered : mixedQueue.Numbered (·.id) := ⟨by decide, by decide⟩
  have hfree : Lease.isTaken (Clock.now 3000) Lease.processing spaceless = false := by
    decide +kernel
  let start : Store := { spaceless with queue := mixedQueue }
  have hpending : start.pending =
      [⟨5, "a", "EDITOR", "INSERT", none, some "1", 3⟩, ⟨2, "a", "NOTE", "INSERT", none, none, 4⟩,
        ⟨3, "a", "EDITOR", "UPDATE", some "[", some "1", 4⟩,
        ⟨4, "a", "EDITOR", "DELETE", none, none, 5⟩,
        ⟨1, "s", "SPACE", "INSERT", none, some "1", 9⟩] :=
    Store.pending_eq hnumbered (by decide) (by decide)
  refine ⟨hreachable, hnumbered, hfree, ?_⟩
  rcases hreachable.stops_at_failure hnumbered 3000 1 60000 hfree with
    ⟨hgood, -⟩ |
      ⟨before, e, after, fault, u, hsplit, hgood, hfault, hrun, -, hletters, hqueue, hnext⟩
  · have hthird : (⟨3, "a", "EDITOR", "UPDATE", some "[", some "1", 4⟩ : QueuedEvent) ∈
        start.pending := hpending ▸ by decide
    have hfails : (Pass.fateOf env start
        ⟨3, "a", "EDITOR", "UPDATE", some "[", some "1", 4⟩).fault? ≠ none := by
      rw [Pass.fateOf, Pass.turnOf, hpending]
      decide +kernel
    exact absurd (hgood _ hthird) hfails
  · let good := fun other => (Pass.fateOf env start other).fault?.isNone
    have hlast : ¬good e = true := by
      have hsome : (Pass.fateOf env start e).fault? = some fault := hfault
      simp [good, hsome]
    have hrest : start.pending.dropWhile good = e :: after := by
      rw [hsplit, List.dropWhile_append_of_pos]
      · exact List.dropWhile_cons_of_neg hlast
      · intro other hother
        exact congrArg Option.isNone (hgood other hother)
    have hids : (e :: after).map (·.id) = [3, 4, 1] := by
      rw [← hrest]
      unfold good Pass.fateOf Pass.turnOf
      rw [hpending]
      decide +kernel
    obtain ⟨he, hafter⟩ := List.cons.inj hids
    refine ⟨fault, u, hrun, ?_, ?_, hnext env 2 false 60000⟩
    · rw [hletters]
      exact congrArg (fun id => [id]) he
    · rw [hqueue]
      exact hafter

end NodeGraph
