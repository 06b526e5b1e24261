import NodeGraph.Proofs.EventLog
import NodeGraph.Proofs.Overlap
import NodeGraph.Service

/-!
A running service, step by step: documents are written and then announced, the listener takes one
thing after the other from the hub, and a worker runs passes, one transaction after the other. What
the program does in one go is a run of such steps.
-/
namespace NodeGraph

open Store

/-! ### The steps of a write, a listener and a pass -/

/-- The transaction of a write: the notice it owes then, if it is answered, and the store. -/
def Write.commit (channel : String) (env : Env) : Write → Store → Option Notice × Store
  | upsert p type data json, s =>
    match (Documents.upsert env p type data json).outcome s with
    | (.ok _, s) => (some (Workspace.noticeOf channel p type), s)
    | (.error _, s) => (none, s)
  | delete p type, s =>
    match (Documents.delete env p type).outcome s with
    | (.ok true, s) => (some (Workspace.noticeOf channel p type), s)
    | (_, s) => (none, s)

/-- The workspace after a notice, if there is one. -/
def Workspace.publish? (w : Workspace) : Option Notice → Workspace
  | some n => w.publish n
  | none => w

/-- A write is its transaction, after which its notice is published. -/
theorem Write.perform_eq (x : Write) (channel : String) (env : Env) (w : Workspace) :
    x.perform channel env w =
      { w with store := (x.commit channel env w.store).2 }.publish?
        (x.commit channel env w.store).1 := by
  cases x with
  | upsert p type data json =>
    unfold perform commit
    dsimp only
    rw [Workspace.upsert_eq]
    cases (Documents.upsert env p type data json).outcome w.store with
    | mk result store => cases result <;> rfl
  | delete p type =>
    unfold perform commit
    dsimp only
    rw [Workspace.delete_eq]
    cases (Documents.delete env p type).outcome w.store with
    | mk result store =>
      cases result with
      | error fault => rfl
      | ok deleted => cases deleted <;> rfl

theorem Write.commit_store (x : Write) (channel : String) (env : Env) (s : Store) :
    (x.commit channel env s).2 = x.written env s := by
  have hstore := x.perform_store channel env { store := s }
  rw [perform_eq] at hstore
  cases hnotice : (x.commit channel env s).1 with
  | none =>
    rw [hnotice] at hstore
    exact hstore
  | some n =>
    rw [hnotice] at hstore
    exact hstore

namespace Service

/-- The service when its listener has just subscribed. -/
def begun (service : Service) : Service :=
  let (receiver, hub) := service.workspace.hub.subscribe
  { service with workspace := { service.workspace with hub }, listener := some receiver }

/-- How many notices the listener is done with. -/
def cursor? (service : Service) : Option ℕ :=
  service.listener.bind fun receiver => service.workspace.hub.receivers[receiver]?.join

/-- The listener takes one thing that the hub has for it. -/
def hearNext (service : Service) : Service :=
  match service.listener with
  | none => service
  | some receiver =>
    match service.workspace.hub.receive receiver with
    | (none, _) => service
    | (some receipt, hub) =>
      { service with
        workspace := { service.workspace with hub }
        permit := Listener.heed service.settings.channel service.permit receipt }

end Service

namespace Progress

/-- The first transaction of a pass. -/
def entered (env : Env) (owner : ℕ) (ttl : ℤ) (s : Store) : Progress × Store :=
  let c := Passes.enter env 0 owner ttl { store := s }
  (c.progress 0, c.store)

/-- The next transaction of a pass. -/
def next (env : Env) (s : Store) (progress : Progress) : Progress × Store :=
  let c := Passes.advance env 0 { store := s, progress := fun _ => progress }
  (c.progress 0, c.store)

end Progress

/-! ### The steps of a running service -/

/-- A service whose listener and workers run, between two steps, and those who write documents. -/
structure Running where
  service : Service
  /-- The service has yet to ask for its first pass. -/
  starting : Bool := true
  /-- The pass that the worker is about; it waits if there is none. -/
  pass : Option Progress := none
  /-- The notices of writes that are committed, which have yet to be published. -/
  owed : List Notice := []

namespace Running

def store (c : Running) : Store :=
  c.service.workspace.store

def hub (c : Running) : Hub :=
  c.service.workspace.hub

def channel (c : Running) : String :=
  c.service.settings.channel

/-- The events in the list of the pass that is running. -/
def listed (c : Running) : List QueuedEvent :=
  match c.pass with
  | some progress => progress.listed
  | none => []

/-- A pass is running that has not read the queue. -/
def isUnread (c : Running) : Bool :=
  match c.pass with
  | some progress => progress.isUnread
  | none => false

def committed (env : Env) (x : Write) (c : Running) : Running :=
  match x.commit c.channel env c.store with
  | (some n, store) => { c with service := c.service.setStore store, owed := c.owed ++ [n] }
  | (none, store) => { c with service := c.service.setStore store }

def announced (n : Notice) (c : Running) : Running :=
  { c with service := { c.service with workspace := c.service.workspace.publish n } }

/-- The pass has made a transaction. -/
def passed (c : Running) (done : Progress × Store) : Running :=
  { c with service := c.service.setStore done.2, pass := some done.1 }

/-- What happens next, when the writers write what they may. The worker takes the permit or finds
that it is time to poll, and its passes find their lease free. Others may do what queues no
event. -/
inductive Step (allowed : Write → Prop) (tokens : Tokenizer) : Running → Running → Prop
  | commit (c : Running) (clock : ℤ) (x : Write) (hx : allowed x) :
    Step allowed tokens c (c.committed { clock, tokens } x)
  | publish (c : Running) {before after : List Notice} {n : Notice}
    (howed : c.owed = before ++ n :: after) :
    Step allowed tokens c ({ c with owed := before ++ after }.announced n)
  | announce (c : Running) (n : Notice) : Step allowed tokens c (c.announced n)
  | hear (c : Running) : Step allowed tokens c { c with service := c.service.hearNext }
  | wake (c : Running) : Step allowed tokens c { c with service := c.service.wake }
  | started (c : Running) (hstarting : c.starting = true) :
    Step allowed tokens c { c with service := c.service.wake, starting := false }
  | notified (c : Running) (hwaiting : c.pass = none) (hpermit : c.service.permit = true) :
    Step allowed tokens c
      { c with service := { c.service with permit := false }, pass := some .idle }
  | polled (c : Running) (hwaiting : c.pass = none) :
    Step allowed tokens c { c with pass := some .idle }
  | enter (c : Running) (clock : ℤ) (owner : ℕ) (hidle : c.pass = some .idle)
    (hfree : Lease.isTaken (Clock.now clock) Lease.processing c.store = false) :
    Step allowed tokens c
      (c.passed (Progress.entered { clock, tokens } owner c.service.settings.passTtl c.store))
  | next (c : Running) (clock : ℤ) {progress : Progress} (hpass : c.pass = some progress) :
    Step allowed tokens c (c.passed (progress.next { clock, tokens } c.store))
  | finish (c : Running) (hended : c.pass = some .ended) :
    Step allowed tokens c { c with pass := none }
  | other (c : Running) (clock : ℤ) (op : Operation) (hheld : op.Held)
    (hqueue : ∀ e ∈ (op.perform { clock, tokens } c.store).queue.rows, e ∈ c.store.queue.rows) :
    Step allowed tokens c
      { c with service := c.service.setStore (op.perform { clock, tokens } c.store) }

/-- The states of a lenient service that has been started on any store. Documents may have been
written before whose notices are yet to be published. -/
inductive Reachable (allowed : Write → Prop) (tokens : Tokenizer) : Running → Prop
  | start (service : Service) (owed : List Notice)
    (hstore : NodeGraph.Reachable tokens service.workspace.store)
    (hlenient : service.settings.strict = false) (hopen : service.workspace.hub.isOpen = true) :
    Reachable allowed tokens { service := service.begun, owed }
  | step {c d : Running} (h : Reachable allowed tokens c) (hstep : Step allowed tokens c d) :
    Reachable allowed tokens d

end Running

/-! ### The hub and its listener -/

section Listening

variable {hub : Hub} {service : Service} {receiver cursor : ℕ}

/-- A notice that somebody receives is kept. -/
theorem Hub.publish_of_receiver (hopen : hub.isOpen = true)
    (hreceiver : hub.receivers[receiver]? = some (some cursor)) (n : Notice) :
    (hub.publish n).2 = { hub with log := hub.log.push n } := by
  have hlisteners : hub.listeners ≠ 0 := by
    unfold Hub.listeners
    rw [← Nat.pos_iff_ne_zero, List.countP_pos_iff]
    exact ⟨some cursor, List.mem_of_getElem? hreceiver, rfl⟩
  unfold Hub.publish
  simp [hopen, hlisteners]

theorem Service.cursor?_eq_some (h : service.cursor? = some cursor) :
    ∃ receiver, service.listener = some receiver ∧
      service.workspace.hub.receivers[receiver]? = some (some cursor) := by
  unfold Service.cursor? at h
  obtain ⟨receiver, hlistener, hjoin⟩ := Option.bind_eq_some_iff.mp h
  exact ⟨receiver, hlistener, Option.join_eq_some_iff.mp hjoin⟩

theorem Service.cursor?_begun (hopen : service.workspace.hub.isOpen = true) :
    service.begun.cursor? = some service.begun.workspace.hub.log.size := by
  simp [Service.begun, Service.cursor?, Hub.subscribe, hopen]

/-- What the listener does with the next thing there is for it. -/
theorem Service.hearNext_eq (hlistener : service.listener = some receiver)
    (hreceiver : service.workspace.hub.receivers[receiver]? = some (some cursor)) :
    service.hearNext = { service with
      workspace := { service.workspace with
        hub := { service.workspace.hub with
          receivers := service.workspace.hub.receivers.set receiver
            (some (service.workspace.hub.next cursor).2) } }
      permit := Listener.heed service.settings.channel service.permit
        (service.workspace.hub.next cursor).1 } := by
  unfold hearNext Hub.receive
  rw [hlistener]
  dsimp only
  rw [hreceiver]

theorem Service.cursor?_hearNext (h : service.cursor? = some cursor) :
    service.hearNext.cursor? = some (service.workspace.hub.next cursor).2 := by
  obtain ⟨receiver, hlistener, hreceiver⟩ := cursor?_eq_some h
  obtain ⟨hlength, -⟩ := List.getElem?_eq_some_iff.mp hreceiver
  rw [hearNext_eq hlistener hreceiver]
  simp [cursor?, hlistener, hlength]

/-- A permit is kept until it is taken. -/
theorem Listener.heed_true (channel : String) (receipt : Receipt) :
    heed channel true receipt = true := by
  cases receipt <;> simp [heed]

/-- A receiver is told of lost notices, or handed the next one, or has had them all. -/
theorem Hub.next_cases (hopen : hub.isOpen = true) (hcursor : cursor ≤ hub.log.size) :
    (∃ missed later, hub.next cursor = (.lagged missed, later) ∧ later ≤ hub.log.size) ∨
      (∃ n, hub.log[cursor]? = some n ∧ hub.next cursor = (.notice n, cursor + 1) ∧
        cursor + 1 ≤ hub.log.size) ∨
      (cursor = hub.log.size ∧ hub.next cursor = (.empty, cursor)) := by
  unfold Hub.next
  by_cases hlag : cursor + capacity < hub.log.size
  · left
    rw [if_pos hlag]
    exact ⟨_, _, rfl, Nat.sub_le _ _⟩
  · right
    rw [if_neg hlag]
    cases hnotice : hub.log[cursor]? with
    | none =>
      have hall := Array.getElem?_eq_none_iff.mp hnotice
      right
      rw [hopen]
      exact ⟨by omega, rfl⟩
    | some n =>
      obtain ⟨hlt, -⟩ := Array.getElem?_eq_some_iff.mp hnotice
      left
      exact ⟨n, rfl, rfl, hlt⟩

end Listening

/-! ### The steps that the service takes at once -/

theorem Progress.next_of_advance {env : Env} {s t : Store} {before after : Progress}
    {news : List (QueuedEvent × Pass.Attempt)}
    (h : Passes.advance env 0 { store := s, progress := fun _ => before } =
      Passes.moved { store := s, progress := fun _ => before } 0 t after news) :
    before.next env s = (after, t) := by
  unfold next
  rw [h]
  dsimp only
  rw [Passes.progress_moved]
  rfl

/-- What the listener hears is told by the log alone. -/
theorem Listener.follow_receivers (hub : Hub) (receivers : List (Option ℕ)) (channel : String)
    (fuel cursor : ℕ) (permit : Bool) :
    follow { hub with receivers } channel fuel cursor permit =
      follow hub channel fuel cursor permit := by
  induction fuel generalizing cursor permit with
  | zero => rfl
  | succ fuel ih =>
    have hsame : Hub.next { hub with receivers } cursor = hub.next cursor := rfl
    unfold follow
    rw [hsame]
    split
    · rfl
    · rfl
    · exact ih _ _

/-- What the listener hears until nothing is left, it hears one after the other. -/
theorem Service.exists_follow {receiver : ℕ} (fuel : ℕ) {service : Service} {cursor : ℕ}
    (hlistener : service.listener = some receiver)
    (hreceiver : service.workspace.hub.receivers[receiver]? = some (some cursor)) :
    let heard := Listener.follow service.workspace.hub service.settings.channel fuel cursor
      service.permit
    ∃ n, hearNext^[n] service = { service with
      workspace := { service.workspace with
        hub := { service.workspace.hub with
          receivers := service.workspace.hub.receivers.set receiver (some heard.2) } }
      permit := heard.1 } := by
  induction fuel generalizing service cursor with
  | zero =>
    obtain ⟨hlength, hget⟩ := List.getElem?_eq_some_iff.mp hreceiver
    have hkept : service.workspace.hub.receivers.set receiver (some cursor) =
        service.workspace.hub.receivers := by
      rw [← hget]
      exact List.set_getElem_self hlength
    refine ⟨0, ?_⟩
    unfold Listener.follow
    dsimp only
    rw [hkept]
    rfl
  | succ fuel ih =>
    have hhear := hearNext_eq hlistener hreceiver
    unfold Listener.follow
    cases hnext : service.workspace.hub.next cursor with
    | mk receipt later =>
      rw [hnext] at hhear
      have hlistener' : service.hearNext.listener = some receiver := by
        rw [hhear]
        exact hlistener
      have hreceiver' :
          service.hearNext.workspace.hub.receivers[receiver]? = some (some later) := by
        obtain ⟨hlength, -⟩ := List.getElem?_eq_some_iff.mp hreceiver
        rw [hhear]
        exact List.getElem?_set_self hlength
      obtain ⟨n, hn⟩ := ih hlistener' hreceiver'
      cases receipt with
      | empty =>
        refine ⟨1, ?_⟩
        rw [Function.iterate_one, hhear]
        rfl
      | closed =>
        refine ⟨1, ?_⟩
        rw [Function.iterate_one, hhear]
        rfl
      | notice m =>
        refine ⟨n + 1, ?_⟩
        rw [Function.iterate_succ_apply, hn, hhear]
        simp [Listener.follow_receivers]
      | lagged missed =>
        refine ⟨n + 1, ?_⟩
        rw [Function.iterate_succ_apply, hn, hhear]
        simp [Listener.follow_receivers]

theorem Service.exists_hear (service : Service) : ∃ n, hearNext^[n] service = service.hear := by
  unfold hear Listener.attend
  cases hlistener : service.listener with
  | none => exact ⟨0, rfl⟩
  | some receiver =>
    dsimp only
    cases hreceiver : service.workspace.hub.receivers[receiver]? with
    | none => exact ⟨0, by rw [← hlistener]; rfl⟩
    | some cursor? =>
      cases cursor? with
      | none => exact ⟨0, by rw [← hlistener]; rfl⟩
      | some cursor => exact hlistener ▸ exists_follow _ hlistener hreceiver

/-- The next transaction of a pass depends on where it stands and on the store alone. -/
theorem Progress.next_eq (env : Env) (c : Passes) :
    (c.progress 0).next env c.store = ((c.advance env 0).progress 0, (c.advance env 0).store) := by
  cases hprogress : c.progress 0 with
  | ready lease =>
    rw [next_of_advance (Passes.advance_of_ready env rfl), Passes.advance_of_ready env hprogress,
      Passes.progress_moved]
    rfl
  | working lease todo =>
    cases todo with
    | nil =>
      rw [next_of_advance (Passes.advance_of_done env rfl), Passes.advance_of_done env hprogress,
        Passes.progress_moved]
      rfl
    | cons e rest =>
      have hadvance := Passes.advance_of_working (i := 0)
        (c := { store := c.store, progress := fun _ => .working lease (e :: rest) }) env rfl
      have hadvance' := Passes.advance_of_working env hprogress
      cases hattempt : Pass.attempt env e c.store with
      | mk outcome s =>
        rw [hattempt] at hadvance hadvance'
        cases outcome <;>
          rw [next_of_advance hadvance, hadvance', Passes.progress_moved] <;> rfl
  | failing lease e fault rest =>
    rw [next_of_advance (Passes.advance_of_failing env rfl),
      Passes.advance_of_failing env hprogress, Passes.progress_moved]
    rfl
  | _ =>
    unfold next Passes.advance
    rw [hprogress]
    simp [hprogress]

namespace Running

variable {allowed : Write → Prop} {tokens : Tokenizer} {c : Running}

/-- The states that may come after one. -/
def Steps (allowed : Write → Prop) (tokens : Tokenizer) : Running → Running → Prop :=
  Relation.ReflTransGen (Step allowed tokens)

theorem steps_hear (n : ℕ) :
    Steps allowed tokens c { c with service := Service.hearNext^[n] c.service } := by
  induction n with
  | zero => exact .refl
  | succ n ih =>
    rw [Function.iterate_succ_apply']
    exact ih.tail (.hear _)

theorem steps_continued (clock : ℤ) (n : ℕ) (p : Passes) :
    Steps allowed tokens (c.passed (p.progress 0, p.store))
      (c.passed ((p.continued tokens 0 clock n).progress 0,
        (p.continued tokens 0 clock n).store)) := by
  induction n generalizing p with
  | zero => exact .refl
  | succ n ih =>
    have hnext : Step allowed tokens (c.passed (p.progress 0, p.store)) _ := .next _ clock rfl
    have hfirst : (p.progress 0).next { clock, tokens } (c.passed (p.progress 0, p.store)).store =
        _ := Progress.next_eq { clock, tokens } p
    rw [hfirst] at hnext
    rw [Passes.continued_succ]
    exact .head hnext (ih _)

/-- A pass of the program that finds its lease free is a run of transactions. -/
theorem steps_pass (clock : ℤ) (owner : ℕ) (hlenient : c.service.settings.strict = false)
    (hidle : c.pass = some .idle)
    (hfree : Lease.isTaken (Clock.now clock) Lease.processing c.store = false) :
    Steps allowed tokens c
      { c with service := (c.service.pass { clock, tokens } owner).2, pass := none } := by
  set env : Env := { clock, tokens } with henv
  set ttl := c.service.settings.passTtl with httl
  set q := Passes.enter env 0 owner ttl { store := c.store } with hq
  obtain ⟨n, tally, hended, hrun⟩ : ∃ n tally,
      (q.continued tokens 0 clock n).progress 0 = .ended ∧
        Pass.run env owner false ttl c.store =
          .ok (.completed tally) (q.continued tokens 0 clock n).store :=
    Passes.run_alone c.store 0 owner ttl hfree
  have hentered : Step allowed tokens c (c.passed (q.progress 0, q.store)) :=
    .enter c clock owner hidle hfree
  have hsteps := Relation.ReflTransGen.head hentered (steps_continued clock n q)
  rw [hended] at hsteps
  have hfinished := hsteps.tail (.finish _ rfl)
  have hpass : (c.service.pass env owner).2 =
      c.service.setStore (q.continued tokens 0 clock n).store := by
    unfold Service.pass Service.perform Command.outcome
    have hstore : c.service.workspace.store = c.store := rfl
    rw [hlenient, hstore, ← httl, hrun]
  rw [hpass]
  exact hfinished

/-- What the listener and the worker do until both wait is a run of steps. -/
theorem steps_settle (clock : ℤ) (owner : ℕ) (hlenient : c.service.settings.strict = false)
    (hrunning : c.service.isRunning = true) (hwaiting : c.pass = none)
    (hfree : Lease.isTaken (Clock.now clock) Lease.processing c.store = false) :
    Steps allowed tokens c { c with service := c.service.settle { clock, tokens } owner } := by
  obtain ⟨n, hn⟩ := c.service.exists_hear
  have hheard : Steps allowed tokens c { c with service := c.service.hear } := hn ▸ steps_hear n
  have hsettings : c.service.hear.settings = c.service.settings := by
    unfold Service.hear
    split <;> rfl
  have hstore : c.service.hear.workspace.store = c.store := by
    unfold Service.hear
    split <;> rfl
  unfold Service.settle
  rw [if_pos hrunning]
  dsimp only
  by_cases hpermit : c.service.hear.permit = true
  · rw [if_pos hpermit]
    have hnotified := hheard.tail (.notified _ hwaiting hpermit)
    rw [← hsettings] at hlenient
    rw [← hstore] at hfree
    set d : Running :=
      { c with service := { c.service.hear with permit := false }, pass := some .idle } with hd
    have hpass : Steps allowed tokens d _ := steps_pass clock owner hlenient rfl hfree
    exact (hnotified.trans hpass).trans (by rw [hd, hwaiting]; exact .refl)
  · rw [if_neg hpermit]
    exact hheard

/-- Starting a service is a run of steps from where its listener has subscribed. -/
theorem exists_steps_start (clock : ℤ) (owner : ℕ) {service : Service}
    (hlenient : service.settings.strict = false) (hrunning : service.isRunning = false)
    (hfree : Lease.isTaken (Clock.now clock) Lease.processing service.workspace.store = false) :
    ∃ t, service.start { clock, tokens } owner = .ok t ∧
      Steps allowed tokens { service := service.begun } { service := t, starting := false } := by
  set env : Env := { clock, tokens } with henv
  set settled := service.begun.wake.settle env owner with hsettled
  have hstart : service.start env owner = .ok
      (if settled.settings.snapshot.interval = 0 then settled
        else (settled.snapshotPass env owner).2) := by
    unfold Service.start
    rw [hrunning]
    rfl
  have hstarted : Step allowed tokens { service := service.begun }
      { service := service.begun.wake, starting := false } := .started _ rfl
  have hsteps := Relation.ReflTransGen.head hstarted
    (steps_settle clock owner hlenient rfl rfl hfree)
  rw [hstart]
  refine ⟨_, rfl, ?_⟩
  split
  · exact hsteps
  · set options := settled.settings.snapshotOptions with hoptions
    have hqueue : ((Snapshot.run env owner options env.now).outcome
        settled.workspace.store).2.queue = settled.workspace.store.queue := by
      rcases Snapshot.run_outcome env owner options env.now settled.workspace.store with
        hsame | ⟨versions, hwritten⟩
      · rw [hsame]
      · rw [hwritten]
        rfl
    refine hsteps.tail (.other _ clock (.snapshot owner options env.now) trivial fun e he => ?_)
    exact hqueue ▸ he

end Running

end NodeGraph
