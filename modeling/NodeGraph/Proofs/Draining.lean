import NodeGraph.Proofs.Overlap

/-!
A lenient pass drains the queue: every queued event is applied, ignored or kept in a letter, as
is settled by the events before it, and the graph becomes what the applied events alone make of it.
-/
namespace NodeGraph

/-- The letter in which a failed event is kept. -/
def QueuedEvent.letter (now : ℤ) (e : QueuedEvent) (fault : Fault) (id : ℤ) : DeadLetter where
  id := id
  eventId := e.id
  publicId := e.publicId
  type := e.type
  action := e.action
  oldData := e.oldData
  newData := e.newData
  eventCreatedAt := e.createdAt
  error := fault.message
  failedAt := now

namespace Store

variable {s t r : Store}

/-- The graph and the documents of a store beside the queue, letters, versions and leases of
another. -/
def withRecords (s r : Store) : Store :=
  { s with
    queue := r.queue, deadLetters := r.deadLetters, versions := r.versions, leases := r.leases }

/-! ### Plans and records -/

theorem materialize_withRecords (env : Env) (p : String) (kind : NodeKind) (s r : Store) :
    (s.withRecords r).materialize env p kind = (s.materialize env p kind).withRecords r := by
  unfold materialize
  have hnode : (s.withRecords r).hasNode p = s.hasNode p := rfl
  rw [hnode]
  split <;> rfl

theorem withGraphDocument_withRecords (env : Env) (p : String) (type : DocumentType)
    (s r : Store) : Reconcile.withGraphDocument env p type (s.withRecords r) =
      (Reconcile.withGraphDocument env p type s).withRecords r := by
  unfold Reconcile.withGraphDocument
  have hdocument : (s.withRecords r).documentId? p type = s.documentId? p type := rfl
  rw [hdocument]
  split <;> rfl

theorem withChild_withRecords (env : Env) (p child : String) (s r : Store) :
    Reconcile.withChild env p (s.withRecords r) child =
      (Reconcile.withChild env p s child).withRecords r := by
  unfold Reconcile.withChild
  by_cases hself : child = p
  · rw [if_pos hself, if_pos hself]
  · rw [if_neg hself, if_neg hself, materialize_withRecords]
    unfold Reconcile.withEdge
    generalize s.materialize env child .default = made
    have hrow : ∀ q, (made.withRecords r).nodeRow? q = made.nodeRow? q := fun _ => rfl
    rw [hrow, hrow]
    split <;> rfl

theorem withChildren_withRecords (env : Env) (p : String) (type : DocumentType) (kind : NodeKind)
    (children : List String) (s r : Store) :
    Reconcile.withChildren env p type kind children (s.withRecords r) =
      (Reconcile.withChildren env p type kind children s).withRecords r := by
  unfold Reconcile.withChildren
  rw [materialize_withRecords, withGraphDocument_withRecords]
  generalize Reconcile.withGraphDocument env p type (s.materialize env p kind) = t
  induction children generalizing t with
  | nil => rfl
  | cons child rest ih =>
    rw [List.foldl_cons, List.foldl_cons, withChild_withRecords]
    exact ih _

theorem withMembers_withRecords (env : Env) (space : Space) (titles : Keyed String)
    (s r : Store) : Reconcile.withMembers env space titles (s.withRecords r) =
      (Reconcile.withMembers env space titles s).withRecords r := by
  have hdocument : (Spaces.withDocument env space (s.withRecords r)).2.2 =
      (Spaces.withDocument env space s).2.2.withRecords r := by
    unfold Spaces.withDocument
    have hid : (s.withRecords r).documentId? space.publicId .space =
        s.documentId? space.publicId .space := rfl
    rw [hid]
    split <;> rfl
  have htitles : ∀ t : Store, Reconcile.withTitles env titles (t.withRecords r) =
      (Reconcile.withTitles env titles t).withRecords r := by
    intro t
    rw [Reconcile.withTitles_frame, Reconcile.withTitles_frame titles (s := t)]
    have hnodes : (Reconcile.withTitles env titles (t.withRecords r)).nodes =
        (Reconcile.withTitles env titles t).nodes :=
      Reconcile.nodes_foldl_withMember (s := t.mapNodes (Reconcile.titled env titles))
        (t := (t.withRecords r).mapNodes (Reconcile.titled env titles)) rfl rfl _
    rw [hnodes]
    rfl
  unfold Reconcile.withMembers
  rw [hdocument, htitles]
  rfl

/-- What a plan does has nothing to do with queue, letters, versions and leases. -/
theorem carriedOut_withRecords (env : Env) (plan : Plan) (s r : Store) :
    Reconcile.carriedOut env plan (s.withRecords r) =
      (Reconcile.carriedOut env plan s).withRecords r := by
  cases plan with
  | editor p content =>
    show Reconcile.withContent env p content (s.withRecords r) = _
    unfold Reconcile.withContent
    rw [materialize_withRecords]
    rfl
  | space p titles =>
    have hspace : Reconcile.spaceFor? p titles (s.withRecords r) =
        Reconcile.spaceFor? p titles s := rfl
    cases hrow : Reconcile.spaceFor? p titles s with
    | some row =>
      rw [Reconcile.carriedOut_space (hspace.trans hrow), Reconcile.carriedOut_space hrow]
      exact withMembers_withRecords env row titles s r
    | none =>
      rw [Reconcile.carriedOut_of_no_space (hspace.trans hrow),
        Reconcile.carriedOut_of_no_space hrow]
  | graph p type kind children => exact withChildren_withRecords env p type kind children s r
  | ignore reason => rfl

/-- There is one order in which events of different ids are processed. -/
theorem pending_eq (hqueue : s.queue.Numbered (·.id)) {events : List QueuedEvent}
    (hperm : events.Perm s.queue.rows)
    (hsorted : events.Pairwise fun a b => stampLe a.stamp b.stamp = true) : s.pending = events := by
  have hpending : s.pending.Perm events := (List.mergeSort_perm _ _).trans hperm.symm
  refine hpending.eq_of_pairwise (fun a b ha hb hab hba => ?_) (Pass.pending_sorted s) hsorted
  have hstamps := stampLe_antisymm hab hba
  exact hqueue.eq_of_id_eq (Pass.mem_pending.mp ha) (hperm.mem_iff.mp hb)
    (congrArg Prod.snd hstamps)

/-- The pending events of a part of the queue are a part of the pending events. -/
theorem pending_keep (hqueue : s.queue.Numbered (·.id)) (p : QueuedEvent → Bool) :
    ({ s with queue := s.queue.keep p } : Store).pending = s.pending.filter p := by
  have hkept : (s.queue.keep p).Numbered (·.id) := hqueue.keep p
  exact pending_eq hkept ((List.mergeSort_perm _ _).filter p)
    ((Pass.pending_sorted s).sublist List.filter_sublist)

end Store

namespace Pass

open Store

variable {env : Env} {s t : Store} {e : QueuedEvent}

/-! ### The fate of an event -/

/-- What is reported of a queued event that is handled in the store. -/
def fate (s : Store) (e : QueuedEvent) : Attempt :=
  reported (e.verdict s)

/-- The store that an event finds when its turn comes: those before it in the queue are settled. -/
def turnOf (env : Env) (s : Store) (e : QueuedEvent) : Store :=
  (s.pending.takeWhile (·.id ≠ e.id)).foldl (settle env) s

/-- What is reported of an event when its turn comes. -/
def fateOf (env : Env) (s : Store) (e : QueuedEvent) : Attempt :=
  fate (turnOf env s e) e

/-- Events that are settled one after the other meet these fates. -/
def Fated (env : Env) (fates : QueuedEvent → Attempt) : List QueuedEvent → Store → Prop
  | [], _ => True
  | e :: rest, s => fates e = fate s e ∧ Fated env fates rest (settle env s e)

namespace Attempt

def fault? : Attempt → Option Fault
  | failed fault => some fault
  | _ => none

@[simp] theorem fault?_applied : applied.fault? = none := rfl

@[simp] theorem fault?_ignored : ignored.fault? = none := rfl

@[simp] theorem fault?_failed (fault : Fault) : (failed fault).fault? = some fault := rfl

end Attempt

/-- The events that fail, each with its fault. -/
def failed (fate : QueuedEvent → Attempt) (events : List QueuedEvent) :
    List (QueuedEvent × Fault) :=
  events.filterMap fun e => (fate e).fault?.map (e, ·)

theorem fated_append {fates : QueuedEvent → Attempt} {first last : List QueuedEvent} :
    Fated env fates (first ++ last) s ↔
      Fated env fates first s ∧ Fated env fates last (first.foldl (settle env) s) := by
  induction first generalizing s with
  | nil => simp [Fated]
  | cons e rest ih => simp only [List.cons_append, List.foldl_cons, Fated, ih, and_assoc]

/-- Events meet the fates that each of them has once those before it are settled. -/
theorem fated_of_split {fates : QueuedEvent → Attempt} {events : List QueuedEvent}
    (h : ∀ before e after, events = before ++ e :: after →
      fates e = fate (before.foldl (settle env) s) e) : Fated env fates events s := by
  induction events generalizing s with
  | nil => trivial
  | cons e rest ih =>
    refine ⟨h [] e rest rfl, ih fun before other after hsplit => ?_⟩
    exact h (e :: before) other after (congrArg (e :: ·) hsplit)

theorem takeWhile_of_nodup {before after : List QueuedEvent}
    (hids : ((before ++ e :: after).map (·.id)).Nodup) :
    (before ++ e :: after).takeWhile (·.id ≠ e.id) = before := by
  have hapart : ∀ other ∈ before, decide (other.id ≠ e.id) = true := by
    rw [List.map_append, List.map_cons, List.nodup_append] at hids
    intro other hother
    exact decide_eq_true (hids.2.2 other.id (List.mem_map_of_mem hother) e.id List.mem_cons_self)
  rw [List.takeWhile_append_of_pos hapart, List.takeWhile_cons_of_neg (by simp), List.append_nil]

theorem turnOf_eq (h : s.queue.Numbered (·.id)) {before after : List QueuedEvent}
    (hpending : s.pending = before ++ e :: after) :
    turnOf env s e = before.foldl (settle env) s := by
  have hids : (s.pending.map (·.id)).Nodup :=
    ((List.mergeSort_perm _ _).map _).nodup_iff.mpr h.nodup
  rw [hpending] at hids
  rw [turnOf, hpending, takeWhile_of_nodup hids]

/-- The pending events meet their fates. -/
theorem fated_pending (env : Env) (h : s.queue.Numbered (·.id)) :
    Fated env (fateOf env s) s.pending s :=
  fated_of_split fun before e after hsplit => by rw [fateOf, turnOf_eq h hsplit]

/-- Fates do not depend on times and leases. -/
theorem Fated.alike {env' : Env} (quiet : env.rivals = {}) (quiet' : env'.rivals = {})
    (htokens : env.tokens = env'.tokens) (hs : s.Sound env.tokens) (ht : t.Sound env'.tokens)
    (halike : s.Alike t) {fates : QueuedEvent → Attempt} {events : List QueuedEvent}
    (h : Fated env fates events s) : Fated env' fates events t := by
  induction events generalizing s t with
  | nil => trivial
  | cons e rest ih =>
    obtain ⟨hfirst, hrest⟩ := h
    refine ⟨hfirst.trans (congrArg reported (halike.verdict e)), ?_⟩
    exact ih (settle_sound quiet hs e) (settle_sound quiet' ht e)
      (halike.settle quiet quiet' htokens hs.toGraphSound ht.toGraphSound e) hrest

theorem isQueued_settle (quiet : env.rivals = {}) (h : s.GraphSound env.tokens)
    {other : QueuedEvent} (hne : other.id ≠ e.id) (hqueued : s.isQueued other.id = true) :
    (settle env s e).isQueued other.id = true := by
  obtain ⟨row, hrow, hid⟩ := isQueued_iff.mp hqueued
  refine isQueued_iff.mpr ⟨row, ?_, hid⟩
  rw [queue_settle quiet h, Table.rows_keep, List.mem_filter, decide_eq_true_eq, hid]
  exact ⟨hrow, hne⟩

/-- Events that are queued, each of them once. -/
structure Queued (s : Store) (events : List QueuedEvent) : Prop where
  ids : (events.map (·.id)).Nodup
  queued : ∀ e ∈ events, s.isQueued e.id = true

theorem Queued.settle (quiet : env.rivals = {}) (h : s.GraphSound env.tokens)
    {rest : List QueuedEvent} (hqueued : Queued s (e :: rest)) :
    Queued (settle env s e) rest := by
  obtain ⟨hid, hids⟩ := List.nodup_cons.mp hqueued.ids
  refine ⟨hids, fun other hother => isQueued_settle quiet h (fun heq => hid ?_)
    (hqueued.queued other (List.mem_cons_of_mem e hother))⟩
  exact List.mem_map.mpr ⟨other, hother, heq⟩

theorem queued_pending (h : s.queue.Numbered (·.id)) : Queued s s.pending :=
  ⟨((List.mergeSort_perm _ _).map _).nodup_iff.mpr h.nodup,
    fun e he => isQueued_iff.mpr ⟨e, mem_pending.mp he, rfl⟩⟩

/-! ### Counting -/

/-- A pass counts each event by its fate. -/
theorem drain_queued (quiet : env.rivals = {}) (h : s.Sound env.tokens)
    {fates : QueuedEvent → Attempt} {events : List QueuedEvent} (hqueued : Queued s events)
    (hfates : Fated env fates events s) (tally : Tally) :
    drain env false events tally s =
      .ok (events.foldl (fun tally e => (fates e).count tally) tally)
        (events.foldl (settle env) s) := by
  induction events generalizing s tally with
  | nil => rfl
  | cons e rest ih =>
    have hfirst := hqueued.queued e List.mem_cons_self
    have hhandle : (handle env e s).1 = fates e :=
      (congrArg Prod.fst (handle_of_queued quiet h.toGraphSound hfirst)).trans hfates.1.symm
    have hrest := ih (settle_sound quiet h e) (hqueued.settle quiet h.toGraphSound) hfates.2
      ((fates e).count tally)
    rw [List.foldl_cons, List.foldl_cons, ← hrest, ← hhandle]
    unfold settle
    rewrite [drain]
    beta_reduce
    cases handle env e s with
    | mk attempt s' => cases attempt <;> rfl

theorem fate_ne_skipped (s : Store) (e : QueuedEvent) : fate s e ≠ .skipped := by
  unfold fate reported
  split
  · exact Attempt.noConfusion
  · exact Attempt.noConfusion
  · split <;> exact Attempt.noConfusion

theorem Fated.ne_skipped {fates : QueuedEvent → Attempt} {events : List QueuedEvent}
    (h : Fated env fates events s) : ∀ e ∈ events, fates e ≠ .skipped := by
  induction events generalizing s with
  | nil => exact fun e he => nomatch he
  | cons e rest ih =>
    refine List.forall_mem_cons.mpr ⟨?_, ih h.2⟩
    rw [h.1]
    exact fate_ne_skipped s e

section Counts

variable {fates : QueuedEvent → Attempt} {events : List QueuedEvent}

/-- Every event is counted once. -/
theorem foldl_count (hskipped : ∀ e ∈ events, fates e ≠ .skipped) (tally : Tally) :
    events.foldl (fun tally e => (fates e).count tally) tally =
      { tally with
        applied := tally.applied + events.countP (fates · = .applied)
        ignored := tally.ignored + events.countP (fates · = .ignored)
        failed := tally.failed + (failed fates events).length } := by
  induction events generalizing tally with
  | nil => rfl
  | cons e rest ih =>
    obtain ⟨hfirst, hrest⟩ := List.forall_mem_cons.mp hskipped
    rw [List.foldl_cons, ih hrest]
    unfold failed
    cases hfate : fates e with
    | skipped => exact absurd hfate hfirst
    | applied => simp [Attempt.count, hfate]; omega
    | ignored => simp [Attempt.count, hfate]; omega
    | failed fault => simp [Attempt.count, hfate]; omega

theorem length_eq_counts (hskipped : ∀ e ∈ events, fates e ≠ .skipped) :
    events.length = events.countP (fates · = .applied) + events.countP (fates · = .ignored) +
      (failed fates events).length := by
  induction events with
  | nil => rfl
  | cons e rest ih =>
    obtain ⟨hfirst, hrest⟩ := List.forall_mem_cons.mp hskipped
    have ih := ih hrest
    unfold failed at ih ⊢
    cases hfate : fates e with
    | skipped => exact absurd hfate hfirst
    | applied => simp [hfate]; omega
    | ignored => simp [hfate]; omega
    | failed fault => simp [hfate]; omega

end Counts

/-! ### Letters -/

theorem deadLetters_settledAs (env : Env) (e : QueuedEvent) (s : Store) (v : Verdict) :
    (settledAs env e s v).deadLetters =
      match (reported v).fault? with
      | some fault => s.deadLetters.add (e.letter env.now fault)
      | none => s.deadLetters := by
  cases v with
  | dropped => rfl
  | buried fault => rfl
  | carried plan =>
    have hkept : (settledAs env e s (.carried plan)).deadLetters = s.deadLetters :=
      (Reconcile.sameRecords_carriedOut env (s.claim e.id) plan).deadLetters
    cases houtcome : plan.outcome <;> simpa [reported, houtcome] using hkept

/-- A letter is kept of each event that fails, one after the other. -/
theorem deadLetters_foldl_settle (quiet : env.rivals = {}) (h : s.Sound env.tokens)
    {fates : QueuedEvent → Attempt} {events : List QueuedEvent} (hqueued : Queued s events)
    (hfates : Fated env fates events s) :
    (events.foldl (settle env) s).deadLetters =
      (failed fates events).foldl (fun letters entry =>
        letters.add (entry.1.letter env.now entry.2)) s.deadLetters := by
  induction events generalizing s with
  | nil => rfl
  | cons e rest ih =>
    have hfirst := hqueued.queued e List.mem_cons_self
    have hletters : (settle env s e).deadLetters =
        match (fates e).fault? with
        | some fault => s.deadLetters.add (e.letter env.now fault)
        | none => s.deadLetters := by
      rw [settle_of_queued quiet h.toGraphSound hfirst, deadLetters_settledAs, hfates.1]
      rfl
    have hrest := ih (settle_sound quiet h e) (hqueued.settle quiet h.toGraphSound) hfates.2
    rw [List.foldl_cons, hrest, hletters]
    unfold failed
    cases hfault : (fates e).fault? with
    | none => simp [hfault]
    | some fault => simp [hfault]

/-- Events fail in the order of processing. -/
theorem failed_sorted (fate : QueuedEvent → Attempt) (s : Store) :
    (failed fate s.pending).Pairwise fun a b => stampLe a.1.stamp b.1.stamp = true := by
  refine List.pairwise_filterMap.mpr ((pending_sorted s).imp ?_)
  intro a b hab x hx y hy
  obtain ⟨_, -, rfl⟩ := Option.map_eq_some_iff.mp hx
  obtain ⟨_, -, rfl⟩ := Option.map_eq_some_iff.mp hy
  exact hab

/-- The letters once the whole queue has been settled. -/
theorem deadLetters_settled (quiet : env.rivals = {}) (h : s.Sound env.tokens)
    {fates : QueuedEvent → Attempt} (hfates : Fated env fates s.pending s) :
    (s.pending.foldl (settle env) s).deadLetters.rows =
      s.deadLetters.rows ++ (failed fates s.pending).mapIdx fun i entry =>
        entry.1.letter env.now entry.2 (s.deadLetters.nextId + i) := by
  rw [deadLetters_foldl_settle quiet h (queued_pending h.queueIds) hfates,
    Table.rows_foldl_add fun entry : QueuedEvent × Fault => entry.1.letter env.now entry.2]

/-! ### The graph -/

/-- Only an event that is applied changes the graph. -/
theorem settledAs_of_not_applied {v : Verdict} (h : reported v ≠ .applied) :
    settledAs env e s v = s.withRecords (settledAs env e s v) := by
  cases v with
  | dropped => rfl
  | buried fault => rfl
  | carried plan =>
    cases plan with
    | ignore reason => rfl
    | _ => exact absurd rfl h

theorem settledAs_withRecords (env : Env) (e : QueuedEvent) (s r : Store) (plan : Plan) :
    settledAs env e (s.withRecords r) (.carried plan) =
      (settledAs env e s (.carried plan)).withRecords
        (settledAs env e (s.withRecords r) (.carried plan)) := by
  have hclaimed : (s.withRecords r).claim e.id = (s.claim e.id).withRecords (r.claim e.id) := rfl
  show Reconcile.carriedOut env plan _ = (Reconcile.carriedOut env plan _).withRecords
    (Reconcile.carriedOut env plan _)
  rw [hclaimed, carriedOut_withRecords]
  rfl

theorem exists_plan_of_applied {v : Verdict} (h : reported v = .applied) :
    ∃ plan, v = .carried plan := by
  cases v with
  | carried plan => exact ⟨plan, rfl⟩
  | dropped => exact nomatch h
  | buried fault => exact nomatch h

/-- The events that are not applied might as well not have been there. -/
theorem foldl_settle_filter (quiet : env.rivals = {}) {fates : QueuedEvent → Attempt}
    {events : List QueuedEvent} {r : Store} (hs : s.Sound env.tokens)
    (ht : (s.withRecords r).Sound env.tokens) (hfates : Fated env fates events s)
    (hqueued : Queued s events)
    (hrest : Queued (s.withRecords r) (events.filter (fates · = .applied))) :
    ∃ r', (events.filter (fates · = .applied)).foldl (settle env) (s.withRecords r) =
      (events.foldl (settle env) s).withRecords r' := by
  induction events generalizing s r with
  | nil => exact ⟨r, rfl⟩
  | cons e rest ih =>
    have hfirst := hqueued.queued e List.mem_cons_self
    have hsettled := settle_of_queued quiet hs.toGraphSound hfirst
    have hsound := settle_sound quiet hs e
    have hqueued' := hqueued.settle quiet hs.toGraphSound
    by_cases happlied : fates e = .applied
    · rw [List.filter_cons_of_pos (by simpa using happlied)] at hrest ⊢
      obtain ⟨plan, hplan⟩ := exists_plan_of_applied (hfates.1.symm.trans happlied)
      have hverdict : e.verdict (s.withRecords r) = e.verdict s := rfl
      have hother := settle_of_queued quiet ht.toGraphSound (hrest.queued e List.mem_cons_self)
      rw [hverdict, hplan, settledAs_withRecords, ← hplan, ← hsettled] at hother
      have hsound' := settle_sound quiet ht e
      have hrest' := hrest.settle quiet ht.toGraphSound
      rw [hother] at hsound' hrest'
      rw [List.foldl_cons, List.foldl_cons, hother]
      exact ih hsound hsound' hfates.2 hqueued' hrest'
    · rw [List.filter_cons_of_neg (by simpa using happlied)] at hrest ⊢
      have hsame : (settle env s e).withRecords r = s.withRecords r := by
        have hother : fate s e ≠ .applied := hfates.1 ▸ happlied
        rw [hsettled, settledAs_of_not_applied hother]
        rfl
      rw [List.foldl_cons, ← hsame]
      rw [← hsame] at ht hrest
      exact ih hsound ht hfates.2 hqueued' hrest

/-- A queue of the applied events alone makes the same graph. -/
theorem exists_settled_keep (quiet : env.rivals = {}) (h : s.Sound env.tokens)
    {fates : QueuedEvent → Attempt} (hfates : Fated env fates s.pending s) :
    let part : Store := { s with queue := s.queue.keep (fates · = .applied) }
    ∃ r, part.pending.foldl (settle env) part =
      (s.pending.foldl (settle env) s).withRecords r := by
  intro part
  have hpart : part.Sound env.tokens := h.withQueue (h.queueIds.keep _)
  have hqueued : Queued part part.pending := queued_pending hpart.queueIds
  have hkept : part.pending = s.pending.filter (fates · = .applied) :=
    pending_keep h.queueIds _
  rw [hkept] at hqueued ⊢
  exact foldl_settle_filter (r := part) quiet h hpart hfates (queued_pending h.queueIds) hqueued

theorem Fated.leased (quiet : env.rivals = {}) (h : s.Sound env.tokens)
    {fates : QueuedEvent → Attempt} {events : List QueuedEvent} (hfates : Fated env fates events s)
    (owner : ℕ) (name : String) (ttl : ℤ) :
    Fated env fates events (Pass.leased env.now owner name ttl s) :=
  hfates.alike quiet quiet rfl h (withLeases_sound h _) (alike_withLeases s _)

/-- The pass that finds its lease free, with its tally. -/
theorem run_eq (quiet : env.rivals = {}) (h : s.Sound env.tokens)
    {fates : QueuedEvent → Attempt} (hfates : Fated env fates s.pending s) (owner : ℕ) (ttl : ℤ)
    (hfree : Lease.isTaken env.now Lease.processing s = false) :
    run env owner false ttl s =
      .ok (.completed
        { claimed := s.pending.length
          applied := s.pending.countP (fates · = .applied)
          ignored := s.pending.countP (fates · = .ignored)
          failed := (failed fates s.pending).length })
        (Lease.release ⟨Lease.processing, owner, Clock.after env.now ttl⟩
          (s.pending.foldl (settle env) (leased env.now owner Lease.processing ttl s))) := by
  set t := leased env.now owner Lease.processing ttl s with ht
  have hsound : t.Sound env.tokens := withLeases_sound h _
  have hdrain := drain_queued quiet hsound (queued_pending hsound.queueIds)
    (hfates.leased quiet h owner Lease.processing ttl) { claimed := t.pending.length }
  rw [foldl_count (show ∀ e ∈ t.pending, _ from hfates.ne_skipped)] at hdrain
  simp only [Nat.zero_add] at hdrain
  have hwork : drainQueue env false t = _ := hdrain
  unfold run
  rw [underLease_of_free hfree, ← ht, hwork]
  rfl

/-! ### Passes that overlap -/

/-- What is reported of each event when its turn comes, whatever the clock shows. -/
def fates (tokens : Tokenizer) (s : Store) : QueuedEvent → Attempt :=
  fateOf { clock := 0, tokens } s

theorem fates_ne_skipped (tokens : Tokenizer) (s : Store) (e : QueuedEvent) :
    fates tokens s e ≠ .skipped :=
  fate_ne_skipped _ e

/-- Whatever the clock shows, the pending events meet their fates. -/
theorem fated_fates (quiet : env.rivals = {}) (h : s.Sound env.tokens) :
    Fated env (fates env.tokens s) s.pending s := by
  let still : Env := { clock := 0, tokens := env.tokens }
  have hquiet : still.rivals = {} := rfl
  have htokens : still.tokens = env.tokens := rfl
  have hstill : s.Sound still.tokens := h
  exact (fated_pending still h.queueIds).alike hquiet quiet htokens hstill h (Alike.refl s)

/-- Events that are queued are reported by their fates. -/
theorem reports_queued (quiet : env.rivals = {}) (h : s.Sound env.tokens)
    {fates : QueuedEvent → Attempt} {events : List QueuedEvent} (hqueued : Queued s events)
    (hfates : Fated env fates events s) :
    reports env events s = events.map fun e => (e, fates e) := by
  induction events generalizing s with
  | nil => rfl
  | cons e rest ih =>
    have hfirst := hqueued.queued e List.mem_cons_self
    have hhandle : (handle env e s).1 = fates e :=
      (congrArg Prod.fst (handle_of_queued quiet h.toGraphSound hfirst)).trans hfates.1.symm
    have hrest := ih (settle_sound quiet h e) (hqueued.settle quiet h.toGraphSound) hfates.2
    rw [reports, hrest, hhandle, List.map_cons]

end Pass

section Serial

open Pass

variable {tokens : Tokenizer} {s₀ : Store} {c : Passes}

theorem Serial.queued (h₀ : s₀.Sound tokens) (h : Serial tokens s₀ c) :
    Queued s₀ (c.log.map Prod.fst) := by
  have hpending := queued_pending h₀.queueIds
  rw [← h.split] at hpending
  have hids := hpending.ids
  rw [List.map_append, List.nodup_append] at hids
  exact ⟨hids.1, fun e he => hpending.queued e (List.mem_append_left _ he)⟩

theorem Serial.fated (h₀ : s₀.Sound tokens) (h : Serial tokens s₀ c) :
    Fated { clock := 0, tokens } (fates tokens s₀) (c.log.map Prod.fst) s₀ := by
  have hfated := fated_pending { clock := 0, tokens } h₀.queueIds
  rw [← h.split, fated_append] at hfated
  exact hfated.1

/-- The events that have left the queue, each with its fate. -/
theorem Serial.log_eq (h₀ : s₀.Sound tokens) (h : Serial tokens s₀ c) :
    c.log = (c.log.map Prod.fst).map fun e => (e, fates tokens s₀ e) := by
  let env : Env := { clock := 0, tokens }
  have hreports := h.reports env rfl rfl
  rw [reports_queued rfl h₀ (h.queued h₀) (h.fated h₀)] at hreports
  exact hreports

end Serial

/-- In a reachable store, whatever the queue holds, a lenient pass that finds its lease free
completes. Every event is applied, ignored or failed when its turn comes; nothing stays queued; each
event that failed is kept in a letter with its columns as they were, in the order of processing; and
the graph is that which the same pass makes of the applied events alone. -/
theorem Reachable.drained {tokens : Tokenizer} {s : Store} (h : Reachable tokens s)
    {queue : Table QueuedEvent} (hqueue : queue.Numbered (·.id)) (clock : ℤ) (owner : ℕ) (ttl : ℤ)
    (hfree : Lease.isTaken (Clock.now clock) Lease.processing s = false) :
    let env : Env := { clock, tokens }
    let start : Store := { s with queue }
    let fate := Pass.fateOf env start
    let failed := Pass.failed fate start.pending
    ∃ tally t, Pass.run env owner false ttl start = .ok (.completed tally) t ∧
      (tally.claimed = queue.rows.length ∧
        tally.claimed = tally.applied + tally.ignored + tally.failed ∧ tally.skipped = 0 ∧
        tally.applied = queue.rows.countP (fate · = .applied) ∧ tally.failed = failed.length) ∧
      t.queue.rows = [] ∧
      (failed.Pairwise (fun a b => stampLe a.1.stamp b.1.stamp = true) ∧
        t.deadLetters.rows = s.deadLetters.rows ++ failed.mapIdx fun i entry =>
          entry.1.letter env.now entry.2 (s.deadLetters.nextId + i)) ∧
      ∃ tally' t', Pass.run env owner false ttl
          { s with queue := queue.keep (fate · = .applied) } = .ok (.completed tally') t' ∧
        t.nodes = t'.nodes ∧ t.edges = t'.edges ∧ t.spaces = t'.spaces ∧ t.live = t'.live ∧
        t.deleted = t'.deleted ∧ t.members = t'.members := by
  intro env start fate failed
  have quiet : env.rivals = {} := rfl
  have hsound : start.Sound env.tokens := h.sound.withQueue hqueue
  have hpart : ({ s with queue := queue.keep (fate · = .applied) } : Store).Sound env.tokens :=
    h.sound.withQueue (hqueue.keep _)
  have hleased : (Pass.leased env.now owner Lease.processing ttl start).Sound env.tokens :=
    Pass.withLeases_sound hsound _
  have hfated := Pass.fated_pending env hsound.queueIds
  have hpartFated := Pass.fated_pending env hpart.queueIds
  refine ⟨_, _, Pass.run_eq quiet hsound hfated owner ttl hfree, ⟨?_, ?_, rfl, ?_, rfl⟩, ?_,
    ⟨?_, ?_⟩, _, _, Pass.run_eq quiet hpart hpartFated owner ttl hfree, ?_⟩
  · exact (List.mergeSort_perm _ _).length_eq
  · exact Pass.length_eq_counts hfated.ne_skipped
  · exact (List.mergeSort_perm _ _).countP_eq _
  · exact Pass.queue_settled quiet hleased fun e he => Pass.mem_pending.mpr he
  · exact Pass.failed_sorted fate start
  · exact Pass.deadLetters_settled quiet hleased (hfated.leased quiet hsound _ _ _)
  · obtain ⟨r, hgraph⟩ := Pass.exists_settled_keep quiet hleased
      (hfated.leased quiet hsound _ _ _)
    set part : Store := { s with queue := queue.keep (fate · = .applied) }
    have hsame : part.pending.foldl (Pass.settle env)
        (Pass.leased env.now owner Lease.processing ttl part) = _ := hgraph
    rw [hsame]
    exact ⟨rfl, rfl, rfl, rfl, rfl, rfl⟩

/-- Events of every fate: for a space that is not there, of an unknown type, with an old value that
is cut off, of a deletion, and one that is applied. They are not queued in the order of their
times. -/
def mixedQueue : Table QueuedEvent where
  rows :=
    [⟨1, "s", "SPACE", "INSERT", none, some "1", 9⟩, ⟨2, "a", "NOTE", "INSERT", none, none, 4⟩,
      ⟨3, "a", "EDITOR", "UPDATE", some "[", some "1", 4⟩, ⟨4, "a", "EDITOR", "DELETE", none, none, 5⟩,
      ⟨5, "a", "EDITOR", "INSERT", none, some "1", 3⟩]
  lastId := 5

theorem Reachable.drained_mixedQueue :
    let env : Env := { clock := 3000, tokens := String.length }
    Reachable String.length spaceless ∧ mixedQueue.Numbered (·.id) ∧
      Lease.isTaken (Clock.now 3000) Lease.processing spaceless = false ∧
      ∃ tally t, Pass.run env 1 false 60000 { spaceless with queue := mixedQueue } =
          .ok (.completed tally) t ∧
        tally.claimed = 5 ∧ tally.applied = 1 ∧ tally.ignored = 2 ∧ tally.failed = 2 ∧
        t.queue.rows = [] ∧
        t.deadLetters.rows.map (fun letter => (letter.id, letter.eventId, letter.oldData)) =
          [(1, 3, some "["), (2, 1, none)] := by
  intro env
  have hreachable : Reachable String.length spaceless := .perform .empty 1000 _ trivial
  have hnumbered : mixedQueue.Numbered (·.id) := ⟨by decide, by decide⟩
  have hfree : Lease.isTaken (Clock.now 3000) Lease.processing spaceless = false := by
    decide +kernel
  have hpending : ({ spaceless with queue := mixedQueue } : Store).pending =
      [⟨5, "a", "EDITOR", "INSERT", none, some "1", 3⟩, ⟨2, "a", "NOTE", "INSERT", none, none, 4⟩,
        ⟨3, "a", "EDITOR", "UPDATE", some "[", some "1", 4⟩,
        ⟨4, "a", "EDITOR", "DELETE", none, none, 5⟩, ⟨1, "s", "SPACE", "INSERT", none, some "1", 9⟩] :=
    Store.pending_eq hnumbered (by decide) (by decide)
  obtain ⟨tally, t, hrun, ⟨hclaimed, hsum, -, happlied, hfailed⟩, hqueue, ⟨-, hletters⟩, -⟩ :=
    hreachable.drained hnumbered 3000 1 60000 hfree
  unfold Pass.fateOf Pass.turnOf at happlied hfailed hletters
  rw [hpending] at happlied hfailed hletters
  have hclaimed : tally.claimed = 5 := hclaimed
  have happlied : tally.applied = 1 := happlied.trans (by decide +kernel)
  have hfailed : tally.failed = 2 := hfailed.trans (by decide +kernel)
  refine ⟨hreachable, hnumbered, hfree, tally, t, hrun, hclaimed, happlied, by omega, hfailed,
    hqueue, ?_⟩
  rw [hletters]
  decide +kernel

end NodeGraph
