import NodeGraph.Pass
import NodeGraph.Proofs.Reconcile.Plans

/-!
What a pass does to a sound store: every event that is still queued is dropped, carried out or
buried, and no pass does anything else.
-/
namespace NodeGraph

theorem stampLe_iff {a b : ℤ × ℤ} :
    stampLe a b = true ↔ a.1 < b.1 ∨ (a.1 = b.1 ∧ a.2 ≤ b.2) := by
  unfold stampLe
  exact decide_eq_true_iff

theorem stampLe_trans {a b c : ℤ × ℤ} (h : stampLe a b = true) (h' : stampLe b c = true) :
    stampLe a c = true := by
  rw [stampLe_iff] at *
  omega

theorem stampLe_total (a b : ℤ × ℤ) : (stampLe a b || stampLe b a) = true := by
  rw [Bool.or_eq_true, stampLe_iff, stampLe_iff]
  omega

theorem stampLe_antisymm {a b : ℤ × ℤ} (h : stampLe a b = true) (h' : stampLe b a = true) :
    a = b := by
  rw [stampLe_iff] at *
  rw [Prod.ext_iff]
  omega

/-- The place of an event in the order of processing. -/
def QueuedEvent.stamp (e : QueuedEvent) : ℤ × ℤ :=
  (e.createdAt, e.id)

/-- What is to become of an event. -/
inductive Verdict where
  | dropped
  | buried (fault : Fault)
  | carried (plan : Plan)

/-- An event is carried out if it is understood and nothing is in the way of its plan. -/
def QueuedEvent.verdict (e : QueuedEvent) (s : Store) : Verdict :=
  match e.kinds with
  | .error _ => .dropped
  | .ok _ =>
    match e.decode with
    | .error fault => .buried fault
    | .ok event =>
      match (Plan.ofEvent event).obstacle? s with
      | some fault => .buried fault
      | none => .carried (Plan.ofEvent event)

/-- An event is understood when its kinds and both its values are. -/
theorem QueuedEvent.decode_eq_ok {e : QueuedEvent} {event : Event} :
    e.decode = .ok event ↔ e.kinds = .ok (event.type, event.action) ∧
      decodePayload e.oldData = .ok event.oldData ∧
      decodePayload e.newData = .ok event.newData ∧
      event.id = e.id ∧ event.publicId = e.publicId ∧ event.createdAt = e.createdAt := by
  unfold decode
  cases hkinds : e.kinds with
  | error fault => simp [bind, Except.bind]
  | ok kinds =>
    cases hold : decodePayload e.oldData with
    | error fault => simp [bind, Except.bind]
    | ok oldData =>
      cases hnew : decodePayload e.newData with
      | error fault => simp [bind, Except.bind]
      | ok newData =>
        obtain ⟨id, publicId, type, action, old, new, createdAt⟩ := event
        simp only [bind, Except.bind, pure, Except.pure, Except.ok.injEq, Event.mk.injEq,
          Prod.ext_iff]
        constructor
        · rintro ⟨rfl, rfl, rfl, rfl, rfl, rfl, rfl⟩
          simp
        · rintro ⟨⟨rfl, rfl⟩, rfl, rfl, rfl, rfl, rfl⟩
          simp

theorem QueuedEvent.id_decode {e : QueuedEvent} {event : Event} (h : e.decode = .ok event) :
    event.id = e.id :=
  (decode_eq_ok.mp h).2.2.2.1

theorem QueuedEvent.sound_decode {e : QueuedEvent} {event : Event} (h : e.decode = .ok event) :
    ∀ v ∈ event.newData, v.Sound :=
  sound_of_decodePayload (decode_eq_ok.mp h).2.2.1

namespace Store

variable {s : Store}

theorem isQueued_iff {id : ℤ} : s.isQueued id = true ↔ ∃ e ∈ s.queue.rows, e.id = id := by
  simp [isQueued, Table.any]

end Store

namespace Pass

open Store

variable {env : Env} {s : Store} {e : QueuedEvent}

/-- The store after an event. -/
def settle (env : Env) (s : Store) (e : QueuedEvent) : Store :=
  (handle env e s).2

/-- The store after a queued event of that verdict. -/
def settledAs (env : Env) (e : QueuedEvent) (s : Store) : Verdict → Store
  | .dropped => s.claim e.id
  | .buried fault => (s.claim e.id).bury env.now e fault
  | .carried plan => Reconcile.carriedOut env plan (s.claim e.id)

/-- What is reported of a queued event of that verdict. -/
def reported : Verdict → Attempt
  | .dropped => .ignored
  | .buried fault => .failed fault
  | .carried plan =>
    match plan.outcome with
    | .applied => .applied
    | .ignored _ => .ignored

theorem claim_sound {tokens : Tokenizer} (h : s.GraphSound tokens) (id : ℤ) :
    (s.claim id).GraphSound tokens :=
  h.congr rfl rfl rfl rfl rfl

/-- Nothing becomes of an event that is not queued. -/
theorem attempt_of_not_queued (env : Env) (h : s.isQueued e.id = false) :
    attempt env e s = (.skipped, s) ∨ ∃ fault, attempt env e s = (.failed fault, s) := by
  unfold attempt
  split
  · left
    unfold drop
    rw [h]
    rfl
  · split
    · exact Or.inr ⟨_, rfl⟩
    · rename_i event hevent
      left
      unfold carryOut
      rw [QueuedEvent.id_decode hevent, h]
      rfl

theorem settle_of_not_queued (h : s.isQueued e.id = false) : settle env s e = s := by
  unfold settle handle
  rcases attempt_of_not_queued env h with hskipped | ⟨fault, hfailed⟩
  · rw [hskipped]
  · rw [hfailed]
    show setAside env e fault s = s
    unfold setAside
    rw [h]
    rfl

/-- What becomes of an event that is queued. -/
theorem attempt_of_queued (quiet : env.rivals = {}) (h : s.GraphSound env.tokens)
    (hqueued : s.isQueued e.id = true) :
    attempt env e s = match e.verdict s with
      | .dropped => (.ignored, s.claim e.id)
      | .buried fault => (.failed fault, s)
      | .carried plan =>
        (reported (.carried plan), Reconcile.carriedOut env plan (s.claim e.id)) := by
  unfold attempt QueuedEvent.verdict
  cases hkinds : e.kinds with
  | error fault =>
    show drop e s = (.ignored, s.claim e.id)
    unfold drop
    rw [hqueued]
    rfl
  | ok kinds =>
    cases hevent : e.decode with
    | error fault => rfl
    | ok event =>
      dsimp only
      unfold carryOut
      rw [QueuedEvent.id_decode hevent, if_pos hqueued]
      have hplan := Plan.sound_ofEvent (QueuedEvent.sound_decode hevent)
      have hsame : (Plan.ofEvent event).obstacle? (s.claim e.id) =
          (Plan.ofEvent event).obstacle? s := rfl
      cases hobstacle : (Plan.ofEvent event).obstacle? s with
      | some fault =>
        obtain ⟨t, happly⟩ := Reconcile.apply_of_obstacle quiet (claim_sound h e.id) hplan
          (hsame.trans hobstacle)
        rw [happly]
      | none =>
        obtain ⟨happly, -⟩ := Reconcile.apply_eq quiet (claim_sound h e.id) hplan
          (hsame.trans hobstacle)
        rw [happly]
        cases houtcome : (Plan.ofEvent event).outcome <;> simp [reported, houtcome]

theorem handle_of_queued (quiet : env.rivals = {}) (h : s.GraphSound env.tokens)
    (hqueued : s.isQueued e.id = true) :
    handle env e s = (reported (e.verdict s), settledAs env e s (e.verdict s)) := by
  unfold handle
  rw [attempt_of_queued quiet h hqueued]
  cases e.verdict s with
  | dropped => rfl
  | buried fault =>
    show (Attempt.failed fault, setAside env e fault s) = _
    unfold setAside
    rw [if_pos hqueued]
    rfl
  | carried plan =>
    unfold reported
    cases houtcome : plan.outcome <;> simp [houtcome, settledAs]

theorem settle_of_queued (quiet : env.rivals = {}) (h : s.GraphSound env.tokens)
    (hqueued : s.isQueued e.id = true) : settle env s e = settledAs env e s (e.verdict s) :=
  congrArg Prod.snd (handle_of_queued quiet h hqueued)

/-- The first transaction of a queued event fails and changes nothing, or it settles the event. -/
theorem attempt_cases (quiet : env.rivals = {}) (h : s.GraphSound env.tokens)
    (hqueued : s.isQueued e.id = true) :
    (∃ fault, e.verdict s = .buried fault ∧ attempt env e s = (.failed fault, s)) ∨
      ∃ done, (done = .applied ∨ done = .ignored) ∧ attempt env e s = (done, settle env s e) ∧
        (handle env e s).1 = done := by
  have hattempt := attempt_of_queued quiet h hqueued
  have hhandle := handle_of_queued quiet h hqueued
  have hsettle := settle_of_queued quiet h hqueued
  cases hverdict : e.verdict s with
  | dropped =>
    rw [hverdict] at hattempt hhandle hsettle
    exact Or.inr ⟨.ignored, Or.inr rfl, hsettle ▸ hattempt, congrArg Prod.fst hhandle⟩
  | buried fault =>
    rw [hverdict] at hattempt
    exact Or.inl ⟨fault, rfl, hattempt⟩
  | carried plan =>
    rw [hverdict] at hattempt hhandle hsettle
    refine Or.inr ⟨reported (.carried plan), ?_, hsettle ▸ hattempt, congrArg Prod.fst hhandle⟩
    cases houtcome : plan.outcome <;> simp [reported, houtcome]

theorem exists_event_of_carried {plan : Plan} (h : e.verdict s = .carried plan) :
    ∃ event, e.decode = .ok event ∧ Plan.ofEvent event = plan ∧ plan.obstacle? s = none := by
  unfold QueuedEvent.verdict at h
  cases hkinds : e.kinds with
  | error fault => simp [hkinds] at h
  | ok kinds =>
    cases hevent : e.decode with
    | error fault => simp [hkinds, hevent] at h
    | ok event =>
      cases hspace : (Plan.ofEvent event).obstacle? s with
      | some fault => simp [hkinds, hevent, hspace] at h
      | none =>
        simp only [hkinds, hevent, hspace, Verdict.carried.injEq] at h
        exact ⟨event, rfl, h, h ▸ hspace⟩

/-- A plan that is to be carried out can be held, and nothing is in its way. -/
theorem sound_of_verdict {plan : Plan} (h : e.verdict s = .carried plan) :
    plan.Sound ∧ plan.obstacle? s = none := by
  obtain ⟨event, hevent, rfl, hspace⟩ := exists_event_of_carried h
  exact ⟨Plan.sound_ofEvent (QueuedEvent.sound_decode hevent), hspace⟩

/-! ### One event -/

theorem claim_of_not_queued {id : ℤ} (h : s.isQueued id = false) : s.claim id = s := by
  have hrows : s.queue.rows.filter (fun e => decide (e.id ≠ id)) = s.queue.rows := by
    rw [List.filter_eq_self]
    intro e he
    have hne : e.id ≠ id := fun heq => by
      rw [isQueued_iff.mpr ⟨e, he, heq⟩] at h
      simp at h
    exact decide_eq_true hne
  unfold claim Table.keep
  rw [hrows]

/-- An event is settled in one way or another. -/
theorem settle_cases (quiet : env.rivals = {}) (h : s.GraphSound env.tokens) (e : QueuedEvent) :
    (s.isQueued e.id = false ∧ settle env s e = s) ∨
      (s.isQueued e.id = true ∧ settle env s e = settledAs env e s (e.verdict s)) := by
  cases hqueued : s.isQueued e.id with
  | false => exact Or.inl ⟨rfl, settle_of_not_queued hqueued⟩
  | true => exact Or.inr ⟨rfl, settle_of_queued quiet h hqueued⟩

theorem queue_settledAs (e : QueuedEvent) (v : Verdict) :
    (settledAs env e s v).queue = s.queue.keep (·.id ≠ e.id) := by
  cases v with
  | dropped => rfl
  | buried fault => rfl
  | carried plan => exact (Reconcile.sameRecords_carriedOut env _ plan).queue

/-- Whatever becomes of it, an event leaves the queue. -/
theorem queue_settle (quiet : env.rivals = {}) (h : s.GraphSound env.tokens) (e : QueuedEvent) :
    (settle env s e).queue = s.queue.keep (·.id ≠ e.id) := by
  rcases settle_cases quiet h e with ⟨hfree, hsame⟩ | ⟨-, hsettled⟩
  · rw [hsame]
    exact congrArg Store.queue (claim_of_not_queued hfree).symm
  · rw [hsettled]
    exact queue_settledAs e _

theorem settle_frame (quiet : env.rivals = {}) (h : s.GraphSound env.tokens) (e : QueuedEvent) :
    (settle env s e).documents = s.documents ∧ (settle env s e).versions = s.versions ∧
      (settle env s e).leases = s.leases := by
  rcases settle_cases quiet h e with ⟨-, hsame⟩ | ⟨-, hsettled⟩
  · rw [hsame]
    exact ⟨rfl, rfl, rfl⟩
  · rw [hsettled]
    cases e.verdict s with
    | dropped => exact ⟨rfl, rfl, rfl⟩
    | buried fault => exact ⟨rfl, rfl, rfl⟩
    | carried plan =>
      have hframe := Reconcile.sameRecords_carriedOut env (s.claim e.id) plan
      exact ⟨hframe.documents, hframe.versions, hframe.leases⟩

theorem settledAs_graphSound (quiet : env.rivals = {}) (h : s.GraphSound env.tokens)
    (e : QueuedEvent) : (settledAs env e s (e.verdict s)).GraphSound env.tokens := by
  have hclaimed := claim_sound h e.id
  cases hverdict : e.verdict s with
  | dropped => exact hclaimed
  | buried fault => exact hclaimed.congr rfl rfl rfl rfl rfl
  | carried plan =>
    obtain ⟨hplan, hspace⟩ := sound_of_verdict hverdict
    exact (Reconcile.apply_eq quiet hclaimed hplan hspace).2

theorem settledAs_queueSound (h : s.QueueSound) (e : QueuedEvent) (v : Verdict) :
    (settledAs env e s v).QueueSound := by
  constructor
  · rw [queue_settledAs]
    exact h.queueIds.keep _
  · cases v with
    | dropped => exact h.letterIds
    | buried fault => exact h.letterIds.add rfl
    | carried plan =>
      have hframe := Reconcile.sameRecords_carriedOut env (s.claim e.id) plan
      show (Reconcile.carriedOut env plan (s.claim e.id)).deadLetters.Numbered (·.id)
      rw [hframe.deadLetters]
      exact h.letterIds

/-- An event keeps a store sound. -/
theorem settle_sound (quiet : env.rivals = {}) (h : s.Sound env.tokens) (e : QueuedEvent) :
    (settle env s e).Sound env.tokens := by
  have hgraph := h.toGraphSound
  have hdocuments : (settle env s e).DocumentsSound :=
    h.toDocumentsSound.congr (settle_frame quiet hgraph e).1
  rcases settle_cases quiet hgraph e with ⟨-, hsame⟩ | ⟨-, hsettled⟩
  · rw [hsame]
    exact h
  · rw [hsettled] at hdocuments ⊢
    exact ⟨hdocuments, settledAs_queueSound h.toQueueSound e _,
      settledAs_graphSound quiet hgraph e⟩

/-! ### A whole pass -/

theorem foldl_settle_sound (quiet : env.rivals = {}) (h : s.Sound env.tokens)
    (events : List QueuedEvent) : (events.foldl (settle env) s).Sound env.tokens := by
  induction events generalizing s with
  | nil => exact h
  | cons e rest ih => exact ih (settle_sound quiet h e)

/-- A pass that is not strict settles every event. -/
theorem drain_lenient (env : Env) (events : List QueuedEvent) (tally : Tally) (s : Store) :
    ∃ tally', drain env false events tally s = .ok tally' (events.foldl (settle env) s) := by
  induction events generalizing tally s with
  | nil => exact ⟨tally, rfl⟩
  | cons e rest ih =>
    obtain ⟨tally', hrest⟩ := ih ((handle env e s).1.count tally) (settle env s e)
    refine ⟨tally', ?_⟩
    rw [List.foldl_cons, ← hrest]
    unfold settle
    rewrite [drain]
    beta_reduce
    cases handle env e s with
    | mk attempt s' => cases attempt <;> rfl

/-- A strict pass goes on, or ends with the event just settled. -/
theorem drain_cons (env : Env) (strict : Bool) (e : QueuedEvent) (rest : List QueuedEvent)
    (tally : Tally) (s : Store) :
    drain env strict (e :: rest) tally s =
        drain env strict rest ((handle env e s).1.count tally) (settle env s e) ∨
      ∃ fault, drain env strict (e :: rest) tally s = .error fault (settle env s e) := by
  unfold settle
  rewrite [drain]
  beta_reduce
  cases handle env e s with
  | mk attempt s' =>
    cases attempt with
    | failed fault =>
      cases strict with
      | true => exact Or.inr ⟨fault, rfl⟩
      | false => exact Or.inl rfl
    | _ => exact Or.inl rfl

/-- What a pass leaves is the store after some of the first events. -/
theorem drain_outcome (env : Env) (strict : Bool) (events : List QueuedEvent) (tally : Tally)
    (s : Store) : ∃ handled, handled <+: events ∧
      ((drain env strict events tally).outcome s).2 = handled.foldl (settle env) s := by
  induction events generalizing tally s with
  | nil => exact ⟨[], List.prefix_rfl, rfl⟩
  | cons e rest ih =>
    rcases drain_cons env strict e rest tally s with hcontinued | ⟨fault, hended⟩
    · obtain ⟨handled, hprefix, hrest⟩ := ih ((handle env e s).1.count tally) (settle env s e)
      refine ⟨e :: handled, (List.prefix_cons_inj e).mpr hprefix, ?_⟩
      rw [List.foldl_cons, ← hrest]
      unfold Command.outcome
      rw [hcontinued]
    · refine ⟨[e], List.prefix_append [e] rest, ?_⟩
      unfold Command.outcome
      rw [hended]
      rfl

theorem mem_pending : e ∈ s.pending ↔ e ∈ s.queue.rows :=
  (List.mergeSort_perm _ _).mem_iff

/-- The store with a fresh lease. -/
def leased (now : ℤ) (owner : ℕ) (name : String) (ttl : ℤ) (s : Store) : Store :=
  { s with
    leases := s.leases.filter (·.name ≠ name) ++
      [{ name, owner, expiresAt := Clock.after now ttl }] }

theorem acquire_of_taken {now : ℤ} {owner : ℕ} {name : String} {ttl : ℤ}
    (h : Lease.isTaken now name s = true) : Lease.acquire now owner name ttl s = (none, s) := by
  unfold Lease.acquire
  rw [h]
  rfl

theorem acquire_of_free {now : ℤ} {owner : ℕ} {name : String} {ttl : ℤ}
    (h : Lease.isTaken now name s = false) : Lease.acquire now owner name ttl s =
      (some ⟨name, owner, Clock.after now ttl⟩, leased now owner name ttl s) := by
  unfold Lease.acquire
  rw [h]
  rfl

/-- A lease that nothing refuses is taken before a command and given up after it. -/
theorem underLease_eq {α : Type} (env : Env) (owner : ℕ) (name : String) (ttl : ℤ)
    (work : Command α) (s : Store) : underLease env owner name ttl work s =
      match Lease.acquire env.now owner name ttl s with
      | (none, s) => .ok .contended s
      | (some lease, s) =>
        match work s with
        | .ok stats s' => .ok (.completed stats) (lease.release s')
        | .error fault s' => .error fault (lease.release s') := rfl

theorem underLease_of_free {α : Type} {work : Command α} {owner : ℕ} {name : String} {ttl : ℤ}
    (h : Lease.isTaken env.now name s = false) : underLease env owner name ttl work s =
      match work (leased env.now owner name ttl s) with
      | .ok stats s' =>
        .ok (.completed stats) (Lease.release ⟨name, owner, Clock.after env.now ttl⟩ s')
      | .error fault s' =>
        .error fault (Lease.release ⟨name, owner, Clock.after env.now ttl⟩ s') := by
  rw [underLease_eq, acquire_of_free h]

/-- Under a lease nothing is done, or the command works on a store that has the lease. -/
theorem underLease_outcome {α : Type} (env : Env) (owner : ℕ) (name : String) (ttl : ℤ)
    (work : Command α) (s : Store) :
    ((underLease env owner name ttl work).outcome s).2 = s ∨
      ((underLease env owner name ttl work).outcome s).2 =
        Lease.release ⟨name, owner, Clock.after env.now ttl⟩
          (work.outcome (leased env.now owner name ttl s)).2 := by
  cases htaken : Lease.isTaken env.now name s with
  | true =>
    left
    have hcontended : underLease env owner name ttl work s = .ok .contended s := by
      rw [underLease_eq, acquire_of_taken htaken]
    unfold Command.outcome
    rw [hcontended]
  | false =>
    right
    unfold Command.outcome
    rw [underLease_of_free htaken]
    cases work (leased env.now owner name ttl s) <;> rfl

theorem withLeases_sound {tokens : Tokenizer} (h : s.Sound tokens) (leases : List LeaseRow) :
    Sound tokens { s with leases } :=
  h.congr rfl rfl rfl rfl rfl rfl rfl

/-- A pass settles some of the pending events, under its lease. -/
theorem run_outcome (env : Env) (owner : ℕ) (strict : Bool) (ttl : ℤ) (s : Store) :
    ((run env owner strict ttl).outcome s).2 = s ∨
      ∃ handled, handled <+: s.pending ∧ ((run env owner strict ttl).outcome s).2 =
        Lease.release ⟨Lease.processing, owner, Clock.after env.now ttl⟩
          (handled.foldl (settle env) (leased env.now owner Lease.processing ttl s)) := by
  unfold run
  rcases underLease_outcome env owner Lease.processing ttl (drainQueue env strict) s with
    hsame | hworked
  · exact Or.inl hsame
  · set t := leased env.now owner Lease.processing ttl s
    obtain ⟨handled, hprefix, houtcome⟩ :=
      drain_outcome env strict t.pending { claimed := t.pending.length } t
    have hqueue : (drainQueue env strict).outcome t =
        (drain env strict t.pending { claimed := t.pending.length }).outcome t := rfl
    right
    exact ⟨handled, hprefix, by rw [hworked, hqueue, houtcome]⟩

/-- What no lease touches and every event keeps, a pass keeps. -/
theorem run_induction (quiet : env.rivals = {}) {P : Store → Prop}
    (hleases : ∀ (t : Store) (leases : List LeaseRow), P t → P { t with leases })
    (hsettle : ∀ t e, t.Sound env.tokens → P t → P (settle env t e)) (h : s.Sound env.tokens)
    (hs : P s) (owner : ℕ) (strict : Bool) (ttl : ℤ) :
    P ((run env owner strict ttl).outcome s).2 := by
  rcases run_outcome env owner strict ttl s with hsame | ⟨handled, -, hworked⟩
  · rw [hsame]
    exact hs
  · set t := leased env.now owner Lease.processing ttl s
    have hstart : t.Sound env.tokens ∧ P t := ⟨withLeases_sound h _, hleases s _ hs⟩
    have hsettled := List.foldlRecOn (motive := fun t => t.Sound env.tokens ∧ P t) handled
      (settle env) hstart fun t ht e _ => ⟨settle_sound quiet ht.1 e, hsettle t e ht.1 ht.2⟩
    rw [hworked]
    exact hleases _ _ hsettled.2

/-- A pass keeps a store sound. -/
theorem run_sound (quiet : env.rivals = {}) (h : s.Sound env.tokens) (owner : ℕ) (strict : Bool)
    (ttl : ℤ) : ((run env owner strict ttl).outcome s).2.Sound env.tokens :=
  run_induction quiet (P := fun t => t.Sound env.tokens)
    (fun _ leases ht => withLeases_sound ht leases) (fun _ e ht _ => settle_sound quiet ht e) h h
    owner strict ttl

/-- A pass that is not strict and finds its lease free settles the whole queue. -/
theorem run_lenient (env : Env) (owner : ℕ) (ttl : ℤ)
    (hfree : Lease.isTaken env.now Lease.processing s = false) :
    ∃ tally, run env owner false ttl s = .ok (.completed tally)
      (Lease.release ⟨Lease.processing, owner, Clock.after env.now ttl⟩
        (s.pending.foldl (settle env) (leased env.now owner Lease.processing ttl s))) := by
  set t := leased env.now owner Lease.processing ttl s with ht
  obtain ⟨tally, hdrain⟩ := drain_lenient env t.pending { claimed := t.pending.length } t
  have hqueue : drainQueue env false t = .ok tally (t.pending.foldl (settle env) t) := hdrain
  refine ⟨tally, ?_⟩
  unfold run
  rw [underLease_of_free hfree, ← ht, hqueue]
  rfl

theorem queue_foldl_settle (quiet : env.rivals = {}) (h : s.Sound env.tokens)
    (events : List QueuedEvent) : (events.foldl (settle env) s).queue.rows =
      s.queue.rows.filter fun e => e.id ∉ events.map (·.id) := by
  induction events generalizing s with
  | nil => simp
  | cons e rest ih =>
    rw [List.foldl_cons, ih (settle_sound quiet h e), queue_settle quiet h.toGraphSound e,
      Table.rows_keep, List.filter_filter]
    refine List.filter_congr fun other _ => ?_
    simp only [List.map_cons, List.mem_cons, not_or, Bool.decide_and]
    exact Bool.and_comm _ _

theorem pending_sorted (s : Store) :
    s.pending.Pairwise fun a b => stampLe a.stamp b.stamp = true :=
  @List.pairwise_mergeSort QueuedEvent
    (fun a b => stampLe (a.createdAt, a.id) (b.createdAt, b.id))
    (fun _ _ _ => stampLe_trans) (fun _ _ => stampLe_total _ _) s.queue.rows

/-- Pending events are settled one after the other, each of them while it is the first in the
queue. -/
theorem foldl_settle_induction (quiet : env.rivals = {}) {P : Store → Prop}
    (hstep : ∀ (s : Store) (e : QueuedEvent), s.Sound env.tokens → e ∈ s.queue.rows →
      (∀ other ∈ s.queue.rows, stampLe e.stamp other.stamp = true) → P s →
      P (settledAs env e s (e.verdict s)))
    (h : s.Sound env.tokens) (hP : P s) : P (s.pending.foldl (settle env) s) := by
  have hrun : ∀ (events : List QueuedEvent) (s : Store), s.Sound env.tokens → P s →
      events.Pairwise (fun a b => stampLe a.stamp b.stamp = true) → (events.map (·.id)).Nodup →
      (∀ e, e ∈ s.queue.rows ↔ e ∈ events) → P (events.foldl (settle env) s) := by
    intro events
    induction events with
    | nil => exact fun s _ hP _ _ _ => hP
    | cons e rest ih =>
      intro s h hP hsorted hids hqueue
      have he : e ∈ s.queue.rows := (hqueue e).mpr List.mem_cons_self
      obtain ⟨hfirst, hrest⟩ := List.pairwise_cons.mp hsorted
      obtain ⟨hid, hrestIds⟩ := List.nodup_cons.mp hids
      have hqueued : s.isQueued e.id = true := isQueued_iff.mpr ⟨e, he, rfl⟩
      have hsettle := settle_of_queued quiet h.toGraphSound hqueued
      refine ih (settle env s e) (settle_sound quiet h e) ?_ hrest hrestIds fun other => ?_
      · rw [hsettle]
        refine hstep s e h he (fun other hother => ?_) hP
        rcases List.mem_cons.mp ((hqueue other).mp hother) with rfl | hlater
        · exact stampLe_iff.mpr (Or.inr ⟨rfl, le_rfl⟩)
        · exact hfirst other hlater
      · rw [queue_settle quiet h.toGraphSound e, Table.rows_keep, List.mem_filter, hqueue,
          decide_eq_true_eq, List.mem_cons]
        constructor
        · rintro ⟨rfl | hlater, hne⟩
          · exact absurd rfl hne
          · exact hlater
        · exact fun hlater =>
            ⟨Or.inr hlater, fun heq => hid (List.mem_map.mpr ⟨other, hlater, heq⟩)⟩
  have hids : (s.pending.map (·.id)).Nodup :=
    ((List.mergeSort_perm _ _).map _).nodup_iff.mpr h.queueIds.nodup
  exact hrun s.pending s h hP (pending_sorted s) hids fun e => mem_pending.symm

/-- Once every pending event has been settled, nothing is queued. -/
theorem queue_settled (quiet : env.rivals = {}) (h : s.Sound env.tokens)
    {events : List QueuedEvent} (hall : ∀ e ∈ s.queue.rows, e ∈ events) :
    (events.foldl (settle env) s).queue.rows = [] := by
  rw [queue_foldl_settle quiet h, List.filter_eq_nil_iff]
  intro e he
  simpa using ⟨e, hall e he, rfl⟩

end Pass
end NodeGraph
