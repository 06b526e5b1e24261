import NodeGraph.Proofs.Running

/-!
Wake-ups. In whatever order the steps of a running service come, an event that is queued when all
notices are published and heard is in the list of the pass that is running, or a pass has yet to
read the queue, or is asked for, unless it tells of a value that cannot be read back.
-/
namespace NodeGraph

open Store

/-! ### What a transaction of a pass leaves queued -/

namespace Pass

variable {env : Env} {s : Store} {e other : QueuedEvent}

theorem setAside_sound (h : s.Sound env.tokens) (e : QueuedEvent) (fault : Fault) :
    (setAside env e fault s).Sound env.tokens := by
  unfold setAside
  split
  · exact ⟨h.toDocumentsSound.congr rfl, settledAs_queueSound h.toQueueSound e (.buried fault),
      (claim_sound h.toGraphSound e.id).congr rfl rfl rfl rfl rfl⟩
  · exact h

theorem mem_queue_claim (h : other ∈ (s.claim e.id).queue.rows) :
    other ∈ s.queue.rows ∧ other ≠ e := by
  have hkept : other ∈ s.queue.rows.filter fun row => decide (row.id ≠ e.id) := h
  obtain ⟨hmem, hne⟩ := List.mem_filter.mp hkept
  exact ⟨hmem, fun heq => of_decide_eq_true hne (congrArg QueuedEvent.id heq)⟩

theorem ne_of_not_queued (hfree : s.isQueued e.id = false) (h : other ∈ s.queue.rows) :
    other ≠ e := by
  rintro rfl
  rw [isQueued_iff.mpr ⟨other, h, rfl⟩] at hfree
  exact absurd hfree (by simp)

theorem mem_queue_setAside {fault : Fault} (h : other ∈ (setAside env e fault s).queue.rows) :
    other ∈ s.queue.rows ∧ other ≠ e := by
  unfold setAside at h
  split at h
  · exact mem_queue_claim h
  · rename_i hfree
    exact ⟨h, ne_of_not_queued (Bool.eq_false_iff.mpr hfree) h⟩

/-- The first transaction of an event fails and changes nothing, or the event is not queued after
it. -/
theorem mem_queue_attempt (quiet : env.rivals = {}) (h : s.Sound env.tokens) (e : QueuedEvent) :
    (∃ fault, attempt env e s = (.failed fault, s)) ∨
      ∃ done t, attempt env e s = (done, t) ∧ (∀ fault, done ≠ .failed fault) ∧
        t.Sound env.tokens ∧ ∀ other ∈ t.queue.rows, other ∈ s.queue.rows ∧ other ≠ e := by
  cases hqueued : s.isQueued e.id with
  | false =>
    rcases attempt_of_not_queued env hqueued with hskipped | hfailed
    · exact Or.inr ⟨_, _, hskipped, fun _ => Attempt.noConfusion, h,
        fun other hother => ⟨hother, ne_of_not_queued hqueued hother⟩⟩
    · exact Or.inl hfailed
  | true =>
    rcases attempt_cases quiet h.toGraphSound hqueued with
      ⟨fault, -, hfailed⟩ | ⟨done, hdone, hsettled, -⟩
    · exact Or.inl ⟨fault, hfailed⟩
    · refine Or.inr ⟨_, _, hsettled, ?_, settle_sound quiet h e, fun other hother => ?_⟩
      · rcases hdone with rfl | rfl <;> exact fun _ => Attempt.noConfusion
      · rw [queue_settle quiet h.toGraphSound e] at hother
        exact mem_queue_claim hother

end Pass

/-- The pass leaves events in the queue that were there, and none of its list but what is still in
it; the list is all of the queue when the pass has read it. -/
structure Progress.Follows (tokens : Tokenizer) (s t : Store) (before after : Progress) : Prop where
  sound : t.Sound tokens
  queue : ∀ e ∈ t.queue.rows, e ∈ s.queue.rows
  listed : ∀ e ∈ t.queue.rows, e ∈ before.listed → e ∈ after.listed
  unread : before.isUnread = true → after.isUnread = true ∨ ∀ e ∈ t.queue.rows, e ∈ after.listed

theorem Progress.follows_next {env : Env} {s : Store} (quiet : env.rivals = {})
    (h : s.Sound env.tokens) (progress : Progress) :
    progress.Follows env.tokens s (progress.next env s).2 (progress.next env s).1 := by
  cases hprogress : progress with
  | ready lease =>
    rw [next_of_advance (Passes.advance_of_ready env rfl)]
    exact ⟨h, fun e he => he, fun e _ hlisted => (nomatch hlisted),
      fun _ => Or.inr fun e he => Pass.mem_pending.mpr he⟩
  | working lease todo =>
    cases todo with
    | nil =>
      rw [next_of_advance (Passes.advance_of_done env rfl)]
      exact ⟨Pass.withLeases_sound h _, fun e he => he, fun e _ hlisted => (nomatch hlisted), nofun⟩
    | cons e rest =>
      have hadvance := Passes.advance_of_working (i := 0)
        (c := { store := s, progress := fun _ => .working lease (e :: rest) }) env rfl
      rcases Pass.mem_queue_attempt quiet h e with
        ⟨fault, hfailed⟩ | ⟨done, t, hdone, hnot, hsound, hqueue⟩
      · rw [hfailed] at hadvance
        rw [next_of_advance hadvance]
        exact ⟨h, fun e he => he, fun other _ hlisted => hlisted, nofun⟩
      · rw [hdone] at hadvance
        have hnext : (Progress.working lease (e :: rest)).next env s =
            (.working lease rest, t) := by
          cases done with
          | failed fault => exact absurd rfl (hnot fault)
          | _ => exact next_of_advance hadvance
        rw [hnext]
        refine ⟨hsound, fun other hother => (hqueue other hother).1, fun other hother hlisted => ?_,
          nofun⟩
        exact (List.mem_cons.mp hlisted).resolve_left (hqueue other hother).2
  | failing lease e fault rest =>
    rw [next_of_advance (Passes.advance_of_failing env rfl)]
    refine ⟨Pass.setAside_sound h e fault, fun other hother => (Pass.mem_queue_setAside hother).1,
      fun other hother hlisted => ?_, nofun⟩
    exact (List.mem_cons.mp hlisted).resolve_left (Pass.mem_queue_setAside hother).2
  | idle => exact ⟨h, fun e he => he, fun e _ hlisted => hlisted, fun _ => Or.inl rfl⟩
  | _ => exact ⟨h, fun e he => he, fun e _ hlisted => hlisted, nofun⟩


/-- What a write that is not answered has queued carries a value that cannot be read back. -/
theorem Write.exists_fault_of_silent {channel : String} {env : Env} {x : Write} {s : Store}
    (h : (x.commit channel env s).1 = none) {e : QueuedEvent}
    (he : e ∈ (x.written env s).queue.rows) (hnew : e ∉ s.queue.rows) :
    ¬ x.Legible ∧ ∃ fault, decodePayload e.newData = .error fault := by
  cases x with
  | upsert p type data json =>
    have hunread : ¬ ∃ value, decodePayload (json.map Json.compact) = .ok value := by
      intro hread
      have hanswered : ∃ document,
          ((Documents.upsert env p type data json).outcome s).1 = .ok document :=
        Documents.exists_upsert_iff.mpr hread
      obtain ⟨document, hdocument⟩ := hanswered
      unfold commit at h
      dsimp only at h
      split at h
      · exact nomatch h
      · rename_i houtcome
        rw [houtcome] at hdocument
        exact nomatch hdocument
    obtain ⟨action, oldData, -, -, hqueue⟩ := queue_upserted env s p type data json
    have hrow : e ∈ (s.upserted env p type data json).queue.rows := he
    rw [hqueue, Table.rows_add] at hrow
    obtain rfl := List.mem_singleton.mp ((List.mem_append.mp hrow).resolve_left hnew)
    constructor
    · intro hlegible
      exact hunread ((exists_decodePayload_compact_iff fun v hv => (hlegible v hv).1).mpr
        fun v hv => (hlegible v hv).2)
    · cases hvalue : decodePayload (json.map Json.compact) with
      | ok value => exact absurd ⟨value, hvalue⟩ hunread
      | error fault => exact ⟨fault, rfl⟩
  | delete p type =>
    have hnone : s.document? p type.name = none := by
      cases hold : s.document? p type.name with
      | none => rfl
      | some row =>
        unfold commit at h
        dsimp only at h
        unfold Command.outcome at h
        rw [Documents.delete_of_some hold] at h
        exact nomatch h
    have hsame : e ∈ (s.withoutDocument env p type).queue.rows := he
    rw [withoutDocument_of_none hnone] at hsame
    exact absurd hsame hnew

theorem Write.commit_of_deep {channel p : String} {env : Env} {type : DocumentType}
    {data : List UInt8} {v : Json} {s : Store} (hfits : v.Fits) (hdeep : Json.maxDepth < v.depth) :
    ((Write.upsert p type data (some v)).commit channel env s).1 = none := by
  unfold commit
  dsimp only
  cases houtcome : (Documents.upsert env p type data (some v)).outcome s with
  | mk result t =>
    cases result with
    | error fault => rfl
    | ok document =>
      have hread := Documents.exists_upsert_iff.mp ⟨document, congrArg Prod.fst houtcome⟩
      rw [exists_decodePayload_compact_iff (by rintro w ⟨⟩; exact hfits)] at hread
      exact absurd (hread v rfl) (by omega)

/-! ### The invariant -/

namespace Running

variable {allowed : Write → Prop} {tokens : Tokenizer} {c d : Running} {cursor : ℕ}

/-- A wake-up is stored or on its way when the listener is done with so many notices: the service
has yet to ask for its first pass, a pass is asked for, or a notice of the channel is owed or
unheard. -/
def Called (c : Running) (cursor : ℕ) : Prop :=
  c.starting = true ∨ c.service.permit = true ∨ (∃ n ∈ c.owed, n.channel = c.channel) ∨
    ∃ j n, cursor ≤ j ∧ c.hub.log[j]? = some n ∧ n.channel = c.channel

/-- The event may be one that was committed and not announced: a value that is nested too deep may
be written, and the value of the event is not read back. -/
def MayBeUntold (allowed : Write → Prop) (e : QueuedEvent) : Prop :=
  (∃ x, allowed x ∧ ¬ x.Legible) ∧ ∃ fault, decodePayload e.newData = .error fault

/-- Why no wake-up is missing. -/
inductive Covered (allowed : Write → Prop) (c : Running) (cursor : ℕ) : Prop
  | called (h : c.Called cursor)
  | unread (h : c.isUnread = true)
  | listed (h : ∀ e ∈ c.store.queue.rows, MayBeUntold allowed e ∨ e ∈ c.listed)

/-- The hub is open, the listener is there, and no wake-up is missing. -/
structure Awake (allowed : Write → Prop) (tokens : Tokenizer) (c : Running) : Prop where
  sound : c.store.Sound tokens
  isOpen : c.hub.isOpen = true
  listening : ∃ cursor, c.service.cursor? = some cursor ∧ cursor ≤ c.hub.log.size ∧
    Covered allowed c cursor

theorem awake_start {service : Service} (hstore : service.workspace.store.Sound tokens)
    (hopen : service.workspace.hub.isOpen = true) (owed : List Notice) :
    Awake allowed tokens { service := service.begun, owed } :=
  ⟨hstore, hopen, _, Service.cursor?_begun hopen, le_rfl, .called (Or.inl rfl)⟩

theorem committed_of_some {env : Env} {x : Write} {n : Notice}
    (h : (x.commit c.channel env c.store).1 = some n) : c.committed env x =
      { c with service := c.service.setStore (x.written env c.store), owed := c.owed ++ [n] } := by
  rw [← x.commit_store c.channel]
  unfold committed
  cases hcommit : x.commit c.channel env c.store with
  | mk notice? store =>
    rw [hcommit] at h
    obtain rfl : notice? = some n := h
    rfl

theorem committed_of_none {env : Env} {x : Write}
    (h : (x.commit c.channel env c.store).1 = none) : c.committed env x =
      { c with service := c.service.setStore (x.written env c.store) } := by
  rw [← x.commit_store c.channel]
  unfold committed
  cases hcommit : x.commit c.channel env c.store with
  | mk notice? store =>
    rw [hcommit] at h
    obtain rfl : notice? = none := h
    rfl

/-- The notices of documents are on the channel that the listener heeds. -/
theorem channel_of_commit {channel : String} {env : Env} {x : Write} {s : Store} {n : Notice}
    (h : (x.commit channel env s).1 = some n) : n.channel = channel := by
  unfold Write.commit at h
  cases x with
  | upsert p type data json =>
    dsimp only at h
    split at h
    · exact (Option.some.inj h) ▸ rfl
    · exact nomatch h
  | delete p type =>
    dsimp only at h
    split at h
    · exact (Option.some.inj h) ▸ rfl
    · exact nomatch h

/-- What keeps the hub and asks for no less keeps the service awake. -/
theorem Awake.kept (h : c.Awake allowed tokens) (hsound : d.store.Sound tokens)
    (hhub : d.hub = c.hub) (hcursor : d.service.cursor? = c.service.cursor?)
    (hcovered : ∀ cursor, Covered allowed c cursor → Covered allowed d cursor) :
    d.Awake allowed tokens := by
  obtain ⟨cursor, hheard, hle, hbefore⟩ := h.listening
  rw [← hcursor] at hheard
  refine ⟨hsound, ?_, cursor, hheard, ?_, hcovered cursor hbefore⟩
  · rw [hhub]
    exact h.isOpen
  · rw [hhub]
    exact hle

/-! What the writers and the hub do. -/

theorem Awake.committed (h : c.Awake allowed tokens) (env : Env) {x : Write} (hx : allowed x) :
    (c.committed env x).Awake allowed tokens := by
  have hsound := Write.written_sound h.sound x env
  cases hnotice : (x.commit c.channel env c.store).1 with
  | some n =>
    have howed : ∃ m ∈ c.owed ++ [n], m.channel = c.channel :=
      ⟨n, List.mem_append_right _ (List.mem_singleton_self n), channel_of_commit hnotice⟩
    rw [committed_of_some hnotice]
    exact h.kept hsound rfl rfl fun _ _ => .called (Or.inr (Or.inr (Or.inl howed)))
  | none =>
    rw [committed_of_none hnotice]
    refine h.kept hsound rfl rfl fun cursor hcovered => ?_
    cases hcovered with
    | called h => exact .called h
    | unread h => exact .unread h
    | listed h =>
      refine .listed fun e he => ?_
      by_cases hold : e ∈ c.store.queue.rows
      · exact h e hold
      · obtain ⟨hdeep, hfault⟩ := Write.exists_fault_of_silent hnotice he hold
        exact Or.inl ⟨⟨x, hx, hdeep⟩, hfault⟩

/-- A notice that is published is unheard, as are those before it. -/
theorem awake_announced (hsound : c.store.Sound tokens) (hopen : c.hub.isOpen = true)
    (hcursor : c.service.cursor? = some cursor) (hle : cursor ≤ c.hub.log.size) (n : Notice)
    (hcovered : Covered allowed c cursor ∨ n.channel = c.channel) :
    (c.announced n).Awake allowed tokens := by
  obtain ⟨receiver, hlistener, hreceiver⟩ := Service.cursor?_eq_some hcursor
  have hpublish : (c.announced n).hub = { c.hub with log := c.hub.log.push n } :=
    Hub.publish_of_receiver hopen hreceiver n
  have hlog : (c.announced n).hub.log = c.hub.log.push n := congrArg Hub.log hpublish
  have hcursor' : (c.announced n).service.cursor? = some cursor := by
    show c.service.listener.bind (fun r => (c.announced n).hub.receivers[r]?.join) = some cursor
    rw [hpublish]
    exact hcursor
  refine ⟨hsound, ?_, cursor, hcursor', ?_, ?_⟩
  · rw [hpublish]
    exact hopen
  · rw [hlog, Array.size_push]
    omega
  · rcases hcovered with hcovered | hchannel
    · cases hcovered with
      | called h =>
        rcases h with hstarting | hpermit | howed | ⟨j, other, hj, hother, hchannel⟩
        · exact .called (Or.inl hstarting)
        · exact .called (Or.inr (Or.inl hpermit))
        · exact .called (Or.inr (Or.inr (Or.inl howed)))
        · obtain ⟨hlt, -⟩ := Array.getElem?_eq_some_iff.mp hother
          have hold : j ≠ c.hub.log.size := by omega
          refine .called (Or.inr (Or.inr (Or.inr ⟨j, other, hj, ?_, hchannel⟩)))
          rw [hlog, Array.getElem?_push, if_neg hold]
          exact hother
      | unread h => exact .unread h
      | listed h => exact .listed h
    · refine .called (Or.inr (Or.inr (Or.inr ⟨c.hub.log.size, n, hle, ?_, hchannel⟩)))
      rw [hlog]
      exact Array.getElem?_push_size

theorem Awake.announced (h : c.Awake allowed tokens) (n : Notice) :
    (c.announced n).Awake allowed tokens := by
  obtain ⟨cursor, hcursor, hle, hcovered⟩ := h.listening
  exact awake_announced h.sound h.isOpen hcursor hle n (Or.inl hcovered)

theorem Awake.published (h : c.Awake allowed tokens) {before after : List Notice} {n : Notice}
    (howed : c.owed = before ++ n :: after) :
    Awake allowed tokens ({ c with owed := before ++ after }.announced n) := by
  obtain ⟨cursor, hcursor, hle, hcovered⟩ := h.listening
  refine awake_announced (c := { c with owed := before ++ after }) h.sound h.isOpen hcursor hle n ?_
  by_cases hchannel : n.channel = c.channel
  · exact Or.inr hchannel
  · left
    cases hcovered with
    | called h =>
      rcases h with hstarting | hpermit | ⟨other, hother, hsame⟩ | hunheard
      · exact .called (Or.inl hstarting)
      · exact .called (Or.inr (Or.inl hpermit))
      · have hne : other ≠ n := fun heq => hchannel (heq ▸ hsame)
        have hkept : other ∈ before ++ after := by
          rw [howed] at hother
          simpa [hne] using hother
        exact .called (Or.inr (Or.inr (Or.inl ⟨other, hkept, hsame⟩)))
      · exact .called (Or.inr (Or.inr (Or.inr hunheard)))
    | unread h => exact .unread h
    | listed h => exact .listed h

/-! What the listener does. -/

/-- When the listener has heard the next thing, a wake-up that was on its way still is, or a pass is
asked for: so it is for a notice of the channel, and for lost ones. -/
theorem Called.hear (h : c.Called cursor) (hopen : c.hub.isOpen = true)
    (hle : cursor ≤ c.hub.log.size) :
    Listener.heed c.channel c.service.permit (c.hub.next cursor).1 = true ∨
      c.starting = true ∨ (∃ n ∈ c.owed, n.channel = c.channel) ∨
        ∃ j n, (c.hub.next cursor).2 ≤ j ∧ c.hub.log[j]? = some n ∧ n.channel = c.channel := by
  rcases h with hstarting | hpermit | howed | ⟨j, other, hj, hother, hchannel⟩
  · exact Or.inr (Or.inl hstarting)
  · left
    rw [hpermit]
    exact Listener.heed_true _ _
  · exact Or.inr (Or.inr (Or.inl howed))
  · rcases Hub.next_cases hopen hle with
      ⟨missed, later, hnext, -⟩ | ⟨n, hnotice, hnext, -⟩ | ⟨hall, -⟩
    · rw [hnext]
      exact Or.inl rfl
    · rw [hnext]
      by_cases hnow : j = cursor
      · subst hnow
        obtain rfl : n = other := Option.some.inj (hnotice.symm.trans hother)
        exact Or.inl (by simp [Listener.heed, hchannel])
      · exact Or.inr (Or.inr (Or.inr ⟨j, other, by dsimp only; omega, hother, hchannel⟩))
    · obtain ⟨hlt, -⟩ := Array.getElem?_eq_some_iff.mp hother
      omega

theorem Awake.heard (h : c.Awake allowed tokens) :
    Awake allowed tokens { c with service := c.service.hearNext } := by
  obtain ⟨cursor, hcursor, hle, hcovered⟩ := h.listening
  obtain ⟨receiver, hlistener, hreceiver⟩ := Service.cursor?_eq_some hcursor
  have hcursor' := Service.cursor?_hearNext hcursor
  have hle' : (c.hub.next cursor).2 ≤ c.hub.log.size := by
    rcases Hub.next_cases h.isOpen hle with
      ⟨missed, later, hnext, hlater⟩ | ⟨n, -, hnext, hlater⟩ | ⟨-, hnext⟩
    · rw [hnext]
      exact hlater
    · rw [hnext]
      exact hlater
    · rw [hnext]
      exact hle
  rw [Service.hearNext_eq hlistener hreceiver] at hcursor' ⊢
  refine ⟨h.sound, h.isOpen, _, hcursor', hle', ?_⟩
  cases hcovered with
  | called hcalled =>
    rcases hcalled.hear h.isOpen hle with hpermit | hstarting | howed | hunheard
    · exact .called (Or.inr (Or.inl hpermit))
    · exact .called (Or.inl hstarting)
    · exact .called (Or.inr (Or.inr (Or.inl howed)))
    · exact .called (Or.inr (Or.inr (Or.inr hunheard)))
  | unread h => exact .unread h
  | listed h => exact .listed h

/-! What the worker does. -/

theorem Awake.entered (h : c.Awake allowed tokens) (clock : ℤ) (owner : ℕ)
    (hfree : Lease.isTaken (Clock.now clock) Lease.processing c.store = false) :
    Awake allowed tokens
      (c.passed (Progress.entered { clock, tokens } owner c.service.settings.passTtl c.store)) := by
  have hentered := Passes.enter_of_free (c := { store := c.store }) (i := 0) { clock, tokens } owner
    c.service.settings.passTtl rfl hfree
  unfold Progress.entered
  rw [hentered]
  dsimp only
  rw [Passes.progress_moved]
  exact h.kept (Pass.withLeases_sound h.sound _) rfl rfl fun _ _ => .unread rfl

theorem Awake.next (h : c.Awake allowed tokens) (clock : ℤ) {progress : Progress}
    (hpass : c.pass = some progress) :
    Awake allowed tokens (c.passed (progress.next { clock, tokens } c.store)) := by
  set env : Env := { clock, tokens }
  have hquiet : env.rivals = {} := rfl
  have hsound : c.store.Sound env.tokens := h.sound
  have hfollows := progress.follows_next hquiet hsound
  have hlisted : c.listed = progress.listed := by
    unfold listed
    rw [hpass]
  have hunread : c.isUnread = progress.isUnread := by
    unfold isUnread
    rw [hpass]
  refine h.kept hfollows.sound rfl rfl fun cursor hcovered => ?_
  cases hcovered with
  | called h => exact .called h
  | unread h =>
    rcases hfollows.unread (hunread ▸ h) with hunread | hread
    · exact .unread hunread
    · exact .listed fun e he => Or.inr (hread e he)
  | listed h =>
    refine .listed fun e he => (h e (hfollows.queue e he)).imp_right fun hbefore => ?_
    exact hfollows.listed e he (hlisted ▸ hbefore)

theorem Awake.finished (h : c.Awake allowed tokens) (hended : c.pass = some .ended) :
    Awake allowed tokens { c with pass := none } := by
  refine h.kept h.sound rfl rfl fun cursor hcovered => ?_
  cases hcovered with
  | called h => exact .called h
  | unread h =>
    unfold isUnread at h
    rw [hended] at h
    exact nomatch h
  | listed h =>
    unfold Running.listed at h
    rw [hended] at h
    exact .listed h

theorem Awake.step (h : c.Awake allowed tokens) (hstep : Step allowed tokens c d) :
    d.Awake allowed tokens := by
  cases hstep with
  | commit clock x hx => exact h.committed _ hx
  | publish howed => exact h.published howed
  | announce n => exact h.announced n
  | hear => exact h.heard
  | wake => exact h.kept h.sound rfl rfl fun _ _ => .called (Or.inr (Or.inl rfl))
  | started => exact h.kept h.sound rfl rfl fun _ _ => .called (Or.inr (Or.inl rfl))
  | notified => exact h.kept h.sound rfl rfl fun _ _ => .unread rfl
  | polled => exact h.kept h.sound rfl rfl fun _ _ => .unread rfl
  | enter clock owner hidle hfree => exact h.entered clock owner hfree
  | next clock hpass => exact h.next clock hpass
  | finish hended => exact h.finished hended
  | other clock op hheld hqueue =>
    have hquiet : ({ clock, tokens } : Env).rivals = {} := rfl
    refine h.kept (Operation.perform_sound hquiet hheld h.sound) rfl rfl fun cursor hcovered => ?_
    cases hcovered with
    | called h => exact .called h
    | unread h => exact .unread h
    | listed h => exact .listed fun e he => h e (hqueue e he)

theorem Reachable.awake (h : Reachable allowed tokens c) : c.Awake allowed tokens := by
  induction h with
  | start service owed hstore _ hopen => exact awake_start hstore.sound hopen owed
  | step _ hstep ih => exact ih.step hstep

/-- With nothing on its way, a pass is asked for, or has yet to read the queue, or has in its list
all that was announced. -/
theorem Reachable.covered (h : Reachable allowed tokens c) (hstarted : c.starting = false)
    (howed : c.owed = []) (hheard : ∀ receiver ∈ c.service.listener,
      (c.hub.receive receiver).1 = some .empty) :
    c.service.permit = true ∨ c.isUnread = true ∨
      ∀ e ∈ c.store.queue.rows, MayBeUntold allowed e ∨ e ∈ c.listed := by
  have hawake := h.awake
  obtain ⟨cursor, hcursor, hle, hcovered⟩ := hawake.listening
  obtain ⟨receiver, hlistener, hreceiver⟩ := Service.cursor?_eq_some hcursor
  have hnothing : (c.hub.next cursor).1 = .empty := by
    have hreceived := hheard receiver hlistener
    have hthere : c.hub.receivers[receiver]? = some (some cursor) := hreceiver
    unfold Hub.receive at hreceived
    rw [hthere] at hreceived
    exact Option.some.inj hreceived
  cases hcovered with
  | unread h => exact Or.inr (Or.inl h)
  | listed h => exact Or.inr (Or.inr h)
  | called h =>
    rcases h with hstarting | hpermit | ⟨n, hn, -⟩ | ⟨j, n, hj, hn, -⟩
    · rw [hstarted] at hstarting
      exact nomatch hstarting
    · exact Or.inl hpermit
    · rw [howed] at hn
      exact nomatch hn
    · obtain ⟨hlt, -⟩ := Array.getElem?_eq_some_iff.mp hn
      rcases Hub.next_cases hawake.isOpen hle with
        ⟨missed, later, hnext, -⟩ | ⟨m, -, hnext, -⟩ | ⟨hall, -⟩
      · rw [hnext] at hnothing
        exact nomatch hnothing
      · rw [hnext] at hnothing
        exact nomatch hnothing
      · omega

/-- The event is in the list of the pass that is running, or that pass has yet to read the queue, or
a pass is asked for. -/
def Attended (c : Running) (e : QueuedEvent) : Prop :=
  (∃ progress, c.pass = some progress ∧ (e ∈ progress.listed ∨ progress.isUnread = true)) ∨
    c.service.permit = true

theorem attended_of_unread (h : c.isUnread = true) (e : QueuedEvent) : c.Attended e := by
  unfold isUnread at h
  cases hpass : c.pass with
  | none =>
    rw [hpass] at h
    exact nomatch h
  | some progress =>
    rw [hpass] at h
    exact Or.inl ⟨progress, hpass, Or.inr h⟩

theorem attended_of_listed {e : QueuedEvent} (h : e ∈ c.listed) : c.Attended e := by
  unfold listed at h
  cases hpass : c.pass with
  | none =>
    rw [hpass] at h
    exact nomatch h
  | some progress =>
    rw [hpass] at h
    exact Or.inl ⟨progress, hpass, Or.inl h⟩

/-- **Wake-ups are kept.** In whatever order documents are written and announced, the listener
hears, passes are asked for and run, and others do what queues no event: when the service has
started, no notice is owed and the listener has nothing left to receive, then each queued event is
attended to, if no value is written that is nested too deep to be read back. If such values are
written, then still every event whose own value can be read back. -/
theorem Reachable.wakeup_kept (h : Reachable allowed tokens c) (hstarted : c.starting = false)
    (howed : c.owed = []) (hheard : ∀ receiver ∈ c.service.listener,
      (c.hub.receive receiver).1 = some .empty) :
    ((∀ x, allowed x → x.Legible) → ∀ e ∈ c.store.queue.rows, c.Attended e) ∧
      ∀ e ∈ c.store.queue.rows,
        c.Attended e ∨ ∃ fault, decodePayload e.newData = .error fault := by
  have hattended : ∀ e ∈ c.store.queue.rows, MayBeUntold allowed e ∨ c.Attended e := by
    intro e he
    rcases h.covered hstarted howed hheard with hpermit | hunread | hlisted
    · exact Or.inr (Or.inr hpermit)
    · exact Or.inr (attended_of_unread hunread e)
    · exact (hlisted e he).imp_right attended_of_listed
  constructor
  · intro hlegible e he
    rcases hattended e he with ⟨⟨x, hx, hdeep⟩, -⟩ | hkept
    · exact absurd (hlegible x hx) hdeep
    · exact hkept
  · intro e he
    rcases hattended e he with ⟨-, hfault⟩ | hkept
    · exact Or.inr hfault
    · exact Or.inl hkept

/-- A service whose first pass has read the empty queue when a document is written; the notice is
published and heard while the pass is running, so another one is asked for. -/
theorem Reachable.wakeup_kept_midPass : ∃ c, Reachable Write.Legible String.length c ∧
    c.starting = false ∧ c.owed = [] ∧
    (∀ receiver ∈ c.service.listener, (c.hub.receive receiver).1 = some .empty) ∧
    (∃ lease, c.pass = some (.working lease [])) ∧ c.store.queue.rows ≠ [] ∧
    c.service.permit = true := by
  let service : Service := { settings := {} }
  have hstart : Reachable Write.Legible String.length { service := service.begun } :=
    .start service [] .empty rfl rfl
  have hstarted := hstart.step (.started _ rfl)
  have hnotified := hstarted.step (.notified _ rfl rfl)
  have hentered := hnotified.step (.enter _ 1000 1 rfl rfl)
  have hread := hentered.step (.next _ 1000 rfl)
  have hwritten := hread.step (.commit _ 2000 (.upsert "x" .editor [] none) nofun)
  have hpublished := hwritten.step
    (@Step.publish Write.Legible String.length _ [] [] ⟨"document_events", "EDITOR x"⟩ rfl)
  have hheard := hpublished.step (.hear _)
  have hrun : ∃ c, Reachable Write.Legible String.length c ∧ c.starting = false ∧ c.owed = [] ∧
      c.service.listener = some 0 ∧ (c.hub.receive 0).1 = some .empty ∧
      (∃ lease, c.pass = some (.working lease [])) ∧ ∃ e, e ∈ c.store.queue.rows :=
    ⟨_, hheard, rfl, rfl, rfl, rfl,
      ⟨⟨Lease.processing, 1, Clock.after 1000 300000⟩, by decide +kernel⟩, _,
      List.mem_singleton_self _⟩
  obtain ⟨c, hc, hstarting, howed, hlistener, hempty, ⟨lease, hpass⟩, e, he⟩ := hrun
  have hnothing : ∀ receiver ∈ c.service.listener, (c.hub.receive receiver).1 = some .empty := by
    intro receiver hreceiver
    rw [hlistener] at hreceiver
    obtain rfl := Option.some.inj hreceiver
    exact hempty
  have hkept := (hc.wakeup_kept hstarting howed hnothing).1 (fun _ hx => hx) e he
  refine ⟨c, hc, hstarting, howed, hnothing, ⟨lease, hpass⟩, List.ne_nil_of_mem he, ?_⟩
  rcases hkept with ⟨progress, hprogress, hwhere⟩ | hpermit
  · rw [hpass] at hprogress
    obtain rfl := Option.some.inj hprogress
    rcases hwhere with hlisted | hunread
    · exact nomatch hlisted
    · exact nomatch hunread
  · exact hpermit

/-- A value that is nested one too many deep, written when the first pass has ended: its event is
queued, and no pass is asked for. -/
theorem Reachable.wakeup_lost : ∃ c, Reachable (fun _ => True) String.length c ∧
    c.starting = false ∧ c.owed = [] ∧
    (∀ receiver ∈ c.service.listener, (c.hub.receive receiver).1 = some .empty) ∧
    ∃ e ∈ c.store.queue.rows, ¬ c.Attended e := by
  let service : Service := { settings := {} }
  have hstart : Reachable (fun _ => True) String.length { service := service.begun } :=
    .start service [] .empty rfl rfl
  have hstarted := hstart.step (.started _ rfl)
  have hnotified := hstarted.step (.notified _ rfl rfl)
  have hentered := hnotified.step (.enter _ 1000 1 rfl rfl)
  have hread := hentered.step (.next _ 1000 rfl)
  have hended := hread.step (.next _ 1000 rfl)
  have hwaiting := hended.step (.finish _ (by decide +kernel))
  have hrun : ∃ c, Reachable (fun _ => True) String.length c ∧ c.starting = false ∧ c.owed = [] ∧
      c.service.listener = some 0 ∧ (c.hub.receive 0).1 = some .empty ∧ c.pass = none ∧
      c.service.permit = false := ⟨_, hwaiting, rfl, rfl, rfl, rfl, rfl, rfl⟩
  obtain ⟨c, hc, hstarting, howed, hlistener, hempty, hpass, hpermit⟩ := hrun
  have hnothing : ∀ receiver ∈ c.service.listener, (c.hub.receive receiver).1 = some .empty := by
    intro receiver hreceiver
    rw [hlistener] at hreceiver
    obtain rfl := Option.some.inj hreceiver
    exact hempty
  let x : Write := .upsert "x" .editor [] (some (Json.nested 128))
  let env : Env := { clock := 2000, tokens := String.length }
  have hsilent : (x.commit c.channel env c.store).1 = none := by
    apply Write.commit_of_deep
    · exact Json.fits_nested 128
    · rw [Json.depth_nested]
      decide
  have hwritten := hc.step (.commit c 2000 x trivial)
  rw [committed_of_none hsilent] at hwritten
  obtain ⟨e, he⟩ : ∃ e, e ∈ (x.written env c.store).queue.rows := by
    obtain ⟨action, oldData, -, -, hqueue⟩ :=
      queue_upserted env c.store "x" .editor [] (some (Json.nested 128))
    show ∃ e, e ∈ (c.store.upserted env "x" .editor [] (some (Json.nested 128))).queue.rows
    rw [hqueue, Table.rows_add]
    exact ⟨_, List.mem_append_right _ (List.mem_singleton_self _)⟩
  refine ⟨_, hwritten, hstarting, howed, hnothing, e, he, ?_⟩
  rintro (⟨progress, hprogress, -⟩ | hpermitted)
  · exact nomatch hpass.symm.trans hprogress
  · exact nomatch hpermit.symm.trans hpermitted

end Running
end NodeGraph
