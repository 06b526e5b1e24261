import NodeGraph.Proofs.Overlap

/-!
Overlapping passes that keep accounts: each pass counts what becomes of the events that it has read,
and a strict one stops at the first that fails. A pass that is alone counts what the program counts.
-/
namespace NodeGraph

open Pass Store

theorem Pass.drain_cons_eq (env : Env) (strict : Bool) (e : QueuedEvent) (rest : List QueuedEvent)
    (tally : Tally) (s : Store) : drain env strict (e :: rest) tally s =
      match handle env e s with
      | (.failed fault, s') =>
        if strict then .error fault s'
        else drain env strict rest ((Attempt.failed fault).count tally) s'
      | (done, s') => drain env strict rest (done.count tally) s' := by
  rewrite [drain]
  rfl

/-! ### Passes that keep accounts -/

/-- An event as a pass counts it. -/
structure Count where
  event : QueuedEvent
  outcome : Attempt
  /-- Whether it was still queued when the pass came to it. -/
  found : Bool
  deriving DecidableEq

/-- What a pass knows of the events it has read. -/
structure Account where
  read : List QueuedEvent := []
  counts : List Count := []
  /-- The events that its own transactions have taken off the queue. -/
  taken : List QueuedEvent := []
  /-- The event at which a strict pass has stopped. -/
  error : Option (QueuedEvent × Fault) := none
  deriving DecidableEq

/-- The statistics that the pass returns if it comes to its end. -/
def Account.tally (a : Account) : Tally :=
  a.counts.foldl (fun tally count => count.outcome.count tally) { claimed := a.read.length }

/-- What a pass notes of its next transaction. A failed event is counted before it is set aside. -/
def Account.noted (env : Env) (strict : Bool) (s : Store) (a : Account) : Progress → Account
  | .ready _ => { a with read := s.pending }
  | .working _ (e :: _) =>
    { a with counts := a.counts ++ [⟨e, (attempt env e s).1, s.isQueued e.id⟩] }
  | .failing _ e fault _ => { a with error := if strict then some (e, fault) else none }
  | _ => a

/-- A strict pass that has an error gives up its lease instead of going on. -/
def Account.move (a : Account) : Move → Move
  | .next => if a.error.isSome then .giveUp else .next
  | move => move

/-- Overlapping passes, strict or lenient, with their accounts. -/
structure Accounting where
  passes : Passes
  account : ℕ → Account := fun _ => {}

namespace Accounting

/-- The account of the pass that makes the move, but for what it takes off the queue. -/
def noted (tokens : Tokenizer) (strict : ℕ → Bool) (c : Accounting) (turn : Turn) : Account :=
  match turn.move with
  | .next => (c.account turn.pass).noted { clock := turn.clock, tokens } (strict turn.pass)
      c.passes.store (c.passes.progress turn.pass)
  | _ => c.account turn.pass

/-- A pass makes a move. It has taken what is new in the log. -/
def step (tokens : Tokenizer) (strict : ℕ → Bool) (c : Accounting) (turn : Turn) : Accounting :=
  let passes := c.passes.take tokens turn
  let news := (passes.log.drop c.passes.log.length).map Prod.fst
  ⟨passes, Function.update c.account turn.pass
    { c.noted tokens strict turn with taken := (c.account turn.pass).taken ++ news }⟩

def take (tokens : Tokenizer) (strict : ℕ → Bool) (c : Accounting) (turn : Turn) : Accounting :=
  c.step tokens strict { turn with move := (c.account turn.pass).move turn.move }

def run (tokens : Tokenizer) (strict : ℕ → Bool) (schedule : List Turn) (c : Accounting) :
    Accounting :=
  schedule.foldl (take tokens strict) c

variable {tokens : Tokenizer} {strict : ℕ → Bool} {c : Accounting} {turn : Turn}

theorem step_of_moved {store : Store} {progress : Progress} {news : List (QueuedEvent × Attempt)}
    (h : c.passes.take tokens turn = c.passes.moved turn.pass store progress news) :
    c.step tokens strict turn =
      ⟨c.passes.moved turn.pass store progress news, Function.update c.account turn.pass
        { c.noted tokens strict turn with
          taken := (c.account turn.pass).taken ++ news.map Prod.fst }⟩ := by
  have hnews : (c.passes.moved turn.pass store progress news).log.drop c.passes.log.length = news :=
    List.drop_left
  unfold step
  rw [h]
  dsimp only
  rw [hnews]

/-! ### One pass -/

section Alone

variable {i : ℕ} {clock : ℤ}

/-- What a pass that is over has returned. -/
def answer (c : Accounting) (i : ℕ) : EStateM.Result Fault Store (Completion Tally) :=
  match (c.account i).error with
  | some (_, fault) => .error fault c.passes.store
  | none => .ok (.completed (c.account i).tally) c.passes.store

/-- The pass alone goes on. -/
def continued (tokens : Tokenizer) (strict : ℕ → Bool) (i : ℕ) (clock : ℤ) (n : ℕ)
    (c : Accounting) : Accounting :=
  c.run tokens strict (List.replicate n ⟨i, clock, .next⟩)

theorem continued_succ (n : ℕ) : c.continued tokens strict i clock (n + 1) =
    (c.take tokens strict ⟨i, clock, .next⟩).continued tokens strict i clock n :=
  rfl

/-- The next transaction of a pass that has no error. -/
theorem take_next (strict : ℕ → Bool) {store : Store} {progress : Progress}
    {news : List (QueuedEvent × Attempt)} (hnone : (c.account i).error = none)
    (hadvance : c.passes.advance { clock, tokens } i = c.passes.moved i store progress news) :
    c.take tokens strict ⟨i, clock, .next⟩ =
      ⟨c.passes.moved i store progress news, Function.update c.account i
        { (c.account i).noted { clock, tokens } (strict i) c.passes.store (c.passes.progress i) with
          taken := (c.account i).taken ++ news.map Prod.fst }⟩ := by
  unfold take Account.move
  rw [hnone]
  exact step_of_moved hadvance

/-- A pass that has an error goes on to no other event: it gives its lease back. -/
theorem take_of_error (strict : ℕ → Bool) {lease : Lease} {todo : List QueuedEvent}
    {failure : QueuedEvent × Fault} (hprogress : c.passes.progress i = .working lease todo)
    (herror : (c.account i).error = some failure) :
    c.take tokens strict ⟨i, clock, .next⟩ =
      ⟨c.passes.moved i (lease.release c.passes.store) .abandoned [], Function.update c.account i
        { c.account i with taken := (c.account i).taken ++ [] }⟩ := by
  have hmove : c.take tokens strict ⟨i, clock, .next⟩ =
      c.step tokens strict ⟨i, clock, .giveUp⟩ := by
    unfold take Account.move
    rw [herror]
    rfl
  have hstop : c.passes.take tokens ⟨i, clock, .giveUp⟩ =
      c.passes.moved i (lease.release c.passes.store) .abandoned [] := by
    show c.passes.stop true i = _
    unfold Passes.stop
    rw [hprogress]
    rfl
  rw [hmove, step_of_moved hstop]
  rfl

/-- One transaction or two settle the event that a pass has before it, and count it. -/
theorem exists_settled (tokens : Tokenizer) (strict : ℕ → Bool) (clock : ℤ) {lease : Lease}
    {e : QueuedEvent} {rest : List QueuedEvent}
    (hprogress : c.passes.progress i = .working lease (e :: rest))
    (hnone : (c.account i).error = none) :
    ∃ n, let d := c.continued tokens strict i clock n
      let done := handle { clock, tokens } e c.passes.store
      d.passes.progress i = .working lease rest ∧ d.passes.store = done.2 ∧
        (d.account i).tally = done.1.count (c.account i).tally ∧
        (d.account i).error = match done.1 with
          | .failed fault => if strict i then some (e, fault) else none
          | _ => none := by
  set env : Env := { clock, tokens } with henv
  have hadvance := Passes.advance_of_working env hprogress
  unfold handle
  cases hattempt : attempt env e c.passes.store with
  | mk outcome s =>
    have hcount : ∀ a : Account, a.read = (c.account i).read → a.counts = (c.account i).counts ++
        [⟨e, (attempt env e c.passes.store).1, c.passes.store.isQueued e.id⟩] →
        a.tally = outcome.count (c.account i).tally := by
      intro a hread hcounts
      unfold Account.tally
      rw [hread, hcounts, List.foldl_append, hattempt]
      rfl
    rw [hattempt] at hadvance
    cases outcome with
    | failed fault =>
      set d := c.take tokens strict ⟨i, clock, .next⟩ with hd
      have htake := take_next strict hnone hadvance
      have hfailing : d.passes.progress i = .failing lease e fault rest := by
        rw [hd, htake]
        exact Passes.progress_moved _ _ _
      have hstore : d.passes.store = s := by
        rw [hd, htake]
        rfl
      have haccount : d.account i = { (c.account i).noted env (strict i) c.passes.store
          (.working lease (e :: rest)) with taken := (c.account i).taken ++ [] } := by
        rw [hd, htake, ← hprogress]
        exact Function.update_self ..
      have herror : (d.account i).error = none := by
        rw [haccount]
        exact hnone
      have hset := take_next strict herror (Passes.advance_of_failing env hfailing)
      refine ⟨2, ?_⟩
      rw [continued_succ, continued_succ, ← hd, hset, hfailing, hstore]
      refine ⟨Passes.progress_moved _ _ _, rfl, hcount _ ?_ ?_, ?_⟩
      · simp [continued, run, Account.noted, haccount]
      · simp [continued, run, Account.noted, haccount]
      · simp [continued, run, Account.noted]
    | _ =>
      have htake := take_next strict hnone hadvance
      refine ⟨1, ?_⟩
      rw [continued_succ, htake, hprogress]
      refine ⟨Passes.progress_moved _ _ _, rfl, hcount _ ?_ ?_, ?_⟩
      · simp [continued, run, Account.noted]
      · simp [continued, run, Account.noted, henv]
      · simp [continued, run, Account.noted, hnone]

theorem continued_add (m n : ℕ) : c.continued tokens strict i clock (m + n) =
    (c.continued tokens strict i clock m).continued tokens strict i clock n := by
  unfold continued run
  rw [List.replicate_add, List.foldl_append]

theorem exists_drained (tokens : Tokenizer) (strict : ℕ → Bool) (clock : ℤ) {lease : Lease}
    {todo : List QueuedEvent} (hprogress : c.passes.progress i = .working lease todo)
    (hnone : (c.account i).error = none) :
    ∃ n, let d := c.continued tokens strict i clock n
      (d.passes.progress i).lease? = none ∧ d.answer i =
        match drain { clock, tokens } (strict i) todo (c.account i).tally c.passes.store with
        | .ok tally s => .ok (.completed tally) (lease.release s)
        | .error fault s => .error fault (lease.release s) := by
  set env : Env := { clock, tokens } with henv
  induction todo generalizing c with
  | nil =>
    have htake := take_next strict hnone (Passes.advance_of_done env hprogress)
    refine ⟨1, ?_⟩
    rw [continued_succ, htake, hprogress]
    constructor
    · show ((c.passes.moved i _ .ended []).progress i).lease? = none
      rw [Passes.progress_moved]
      rfl
    · simp [continued, run, answer, Account.noted, hnone, drain, Account.tally]
      rfl
  | cons e rest ih =>
    obtain ⟨m, hworking, hstore, htally, herror⟩ :=
      exists_settled tokens strict clock hprogress hnone
    set d := c.continued tokens strict i clock m with hd
    have hgoesOn : (d.account i).error = none →
        drain env (strict i) (e :: rest) (c.account i).tally c.passes.store =
          drain env (strict i) rest (d.account i).tally d.passes.store →
        ∃ n, let d := c.continued tokens strict i clock n
          (d.passes.progress i).lease? = none ∧ d.answer i =
            match drain env (strict i) (e :: rest) (c.account i).tally c.passes.store with
            | .ok tally s => .ok (.completed tally) (lease.release s)
            | .error fault s => .error fault (lease.release s) := by
      intro hnone hsame
      obtain ⟨n, hended, hanswer⟩ := ih hworking hnone
      refine ⟨m + n, ?_⟩
      rw [continued_add, ← hd, hsame]
      exact ⟨hended, hanswer⟩
    cases hhandle : handle env e c.passes.store with
    | mk outcome s =>
      rw [hhandle] at hstore htally herror
      cases outcome with
      | failed fault =>
        cases hstrict : strict i with
        | false =>
          rw [hstrict] at herror hgoesOn
          refine hgoesOn herror ?_
          rw [htally, hstore, drain_cons_eq, hhandle]
          rfl
        | true =>
          rw [hstrict] at herror
          refine ⟨m + 1, ?_⟩
          rw [continued_add, ← hd, continued_succ, take_of_error strict hworking herror,
            drain_cons_eq, hhandle]
          constructor
          · exact congrArg Progress.lease? (Passes.progress_moved _ _ _)
          · simp [continued, run, answer, herror, hstore]
            rfl
      | _ =>
        refine hgoesOn herror ?_
        rw [htally, hstore, drain_cons_eq, hhandle]

/-- A pass that is alone and not interrupted returns what the program's pass returns. -/
theorem run_alone (s : Store) (strict : ℕ → Bool) (i owner : ℕ) (ttl : ℤ)
    (hfree : Lease.isTaken (Clock.now clock) Lease.processing s = false) :
    ∃ n, let c := run tokens strict (⟨i, clock, .enter owner ttl⟩ ::
        List.replicate n ⟨i, clock, .next⟩) { passes := { store := s } }
      (c.passes.progress i).lease? = none ∧
        c.answer i = Pass.run { clock, tokens } owner (strict i) ttl s := by
  set env : Env := { clock, tokens } with henv
  set start : Accounting := { passes := { store := s } } with hstart
  have hentered := Passes.enter_of_free (c := start.passes) (i := i) env owner ttl rfl hfree
  have hmoved : start.take tokens strict ⟨i, clock, .enter owner ttl⟩ = _ := step_of_moved hentered
  set ready := start.take tokens strict ⟨i, clock, .enter owner ttl⟩ with hready
  have hprogress : ready.passes.progress i =
      .ready ⟨Lease.processing, owner, Clock.after env.now ttl⟩ := by
    rw [hmoved]
    exact Passes.progress_moved _ _ _
  have hstore : ready.passes.store = leased env.now owner Lease.processing ttl s := by
    rw [hmoved]
    rfl
  have haccount : ready.account i = {} := by
    rw [hmoved]
    exact Function.update_self ..
  have hread := take_next strict (congrArg Account.error haccount)
    (Passes.advance_of_ready env hprogress)
  rw [hprogress, haccount, hstore] at hread
  set working := ready.take tokens strict ⟨i, clock, .next⟩ with hworking
  set leasedStore := leased env.now owner Lease.processing ttl s with hleased
  have hprogress' : working.passes.progress i =
      .working ⟨Lease.processing, owner, Clock.after env.now ttl⟩ leasedStore.pending := by
    rw [hread]
    exact Passes.progress_moved _ _ _
  have hstore' : working.passes.store = leasedStore := by
    rw [hread]
    rfl
  have haccount' : working.account i = { read := leasedStore.pending } := by
    rw [hread]
    exact Function.update_self ..
  obtain ⟨n, hended, hanswer⟩ := exists_drained tokens strict clock hprogress'
    (congrArg Account.error haccount')
  have hrun : Pass.run env owner (strict i) ttl s = _ := underLease_of_free hfree
  have hqueue : drainQueue env (strict i) leasedStore =
      drain env (strict i) leasedStore.pending { claimed := leasedStore.pending.length }
        leasedStore := rfl
  have htally : (working.account i).tally = { claimed := leasedStore.pending.length } :=
    congrArg Account.tally haccount'
  rw [hstore', htally] at hanswer
  refine ⟨n + 1, hended, ?_⟩
  rw [hrun, hqueue]
  refine hanswer.trans ?_
  rw [← henv]
  cases drain env (strict i) leasedStore.pending _ leasedStore <;> rfl

end Alone

end Accounting
end NodeGraph
