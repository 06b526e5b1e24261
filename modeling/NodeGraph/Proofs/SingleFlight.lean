import NodeGraph.Proofs.Accounts
import NodeGraph.Proofs.Leases
import NodeGraph.Proofs.Reconcile.Leases
import NodeGraph.Proofs.Snapshot

/-!
Single flight: a call under a lease does nothing while the lease is running. Else, however it ends
and whatever others do between its transactions, it leaves no row of its own behind.
-/
namespace NodeGraph

namespace Lease

/-! ### Requests of others -/

/-- Answers a request; looking at a lease changes nothing. -/
def Request.serve (s : Store) : Request → Store
  | .acquire now owner name ttl => (Lease.acquire now owner name ttl s).2
  | .check _ _ => s
  | .release lease => lease.release s

def served (requests : List Request) (s : Store) : Store :=
  requests.foldl Request.serve s

section Served

variable {now : ℤ} {owner : ℕ} {name : String} {ttl : ℤ} {row : LeaseRow} {s t : Store}

theorem served_append (requests more : List Request) (s : Store) :
    served (requests ++ more) s = served more (served requests s) :=
  List.foldl_append

/-- What becomes of the leases has nothing to do with what else is stored. -/
theorem leases_serve_congr (h : s.leases = t.leases) (r : Request) :
    (r.serve s).leases = (r.serve t).leases := by
  cases r with
  | acquire now owner name ttl =>
    have htaken : isTaken now name s = isTaken now name t := by
      unfold isTaken
      rw [h]
    show (acquire now owner name ttl s).2.leases = (acquire now owner name ttl t).2.leases
    unfold acquire
    rw [htaken, h]
    split
    · exact h
    · rfl
  | check now lease => exact h
  | release lease =>
    show (lease.release s).leases = (lease.release t).leases
    unfold release
    rw [h]

theorem leases_served_congr (h : s.leases = t.leases) (requests : List Request) :
    (served requests s).leases = (served requests t).leases := by
  induction requests generalizing s t with
  | nil => exact h
  | cons r rest ih => exact ih (leases_serve_congr h r)

/-- Requests for one name are nothing to the others. -/
theorem rowsOf_serve_of_ne {r : Request} (hname : r.name ≠ name) (s : Store) :
    rowsOf name (r.serve s) = rowsOf name s := by
  have hagree : Leasing.Agree name ⟨s, []⟩ ⟨s, []⟩ := ⟨rfl, rfl⟩
  have hserved := (Leasing.agree_serve_of_ne hname hagree).1
  cases r <;> exact hserved

theorem rowsOf_serve_congr (h : rowsOf name s = rowsOf name t) (r : Request) :
    rowsOf name (r.serve s) = rowsOf name (r.serve t) := by
  by_cases hname : r.name = name
  · have hagree : Leasing.Agree name ⟨s, []⟩ ⟨t, []⟩ := ⟨h, rfl⟩
    have hserved := (Leasing.agree_serve hname hagree).1
    cases r <;> exact hserved
  · rw [rowsOf_serve_of_ne hname, rowsOf_serve_of_ne hname, h]

theorem rowsOf_served_congr (h : rowsOf name s = rowsOf name t) (requests : List Request) :
    rowsOf name (served requests s) = rowsOf name (served requests t) := by
  induction requests generalizing s t with
  | nil => exact h
  | cons r rest ih => exact ih (rowsOf_serve_congr h r)

/-- A running row remains the only one of its name, unless it is given up. -/
theorem rowsOf_serve_of_running {r : Request} (hrows : rowsOf row.name s = [row])
    (hkept : ∀ lease, .release lease = r → lease.name = row.name → lease.owner ≠ row.owner)
    (hrunning : ∀ time ∈ r.reading?, time < row.expiresAt) :
    rowsOf row.name (r.serve s) = [row] := by
  by_cases hname : r.name = row.name
  · cases r with
    | acquire now owner name ttl =>
      obtain rfl : name = row.name := hname
      have hrow : row ∈ s.leases :=
        List.mem_of_mem_filter (hrows ▸ List.mem_singleton_self row : row ∈ rowsOf row.name s)
      have htaken : isTaken now row.name s = true :=
        isTaken_of_running hrow (hrunning now rfl)
      show rowsOf row.name (acquire now owner row.name ttl s).2 = [row]
      rw [Pass.acquire_of_taken htaken]
      exact hrows
    | check now lease => exact hrows
    | release lease =>
      have howner : row.owner ≠ lease.owner := (hkept lease rfl hname).symm
      show rowsOf row.name (lease.release s) = [row]
      rw [rowsOf_release, hrows]
      simp [howner]
  · rw [rowsOf_serve_of_ne hname, hrows]

theorem rowsOf_served_of_running {requests : List Request} (hrows : rowsOf row.name s = [row])
    (hkept : ∀ lease, .release lease ∈ requests → lease.name = row.name →
      lease.owner ≠ row.owner)
    (hrunning : ∀ r ∈ requests, ∀ time ∈ r.reading?, time < row.expiresAt) :
    rowsOf row.name (served requests s) = [row] := by
  induction requests generalizing s with
  | nil => exact hrows
  | cons r rest ih =>
    have hfirst : rowsOf row.name (r.serve s) = [row] := by
      apply rowsOf_serve_of_running hrows
      · intro lease hlease
        exact hkept lease (hlease ▸ List.mem_cons_self)
      · exact hrunning r List.mem_cons_self
    apply ih hfirst
    · intro lease hlease
      exact hkept lease (List.mem_cons_of_mem r hlease)
    · intro other hother
      exact hrunning other (List.mem_cons_of_mem r hother)

/-- A lease that was taken and given up leaves the rows of the other names. -/
theorem leases_release_leased (hleases : t.leases = (Pass.leased now owner name ttl s).leases) :
    (release ⟨name, owner, Clock.after now ttl⟩ t).leases =
      s.leases.filter (·.name ≠ name) := by
  unfold release
  dsimp only
  rw [hleases]
  unfold Pass.leased
  rw [List.filter_append, List.filter_filter]
  simp only [ne_eq, decide_not, decide_true, Bool.and_self, Bool.not_true, Bool.false_eq_true,
    not_false_eq_true, List.filter_cons_of_neg, List.filter_nil, List.append_nil]
  apply List.filter_congr
  intro row _
  by_cases hname : row.name = name <;> simp [hname]

theorem rowsOf_congr (h : s.leases = t.leases) : rowsOf name s = rowsOf name t := by
  unfold rowsOf
  rw [h]

section Released

variable {requests : List Request}
  (hleases : t.leases = (served requests (Pass.leased now owner name ttl s)).leases)

include hleases

/-- Who gives up a lease leaves the rows of the name that others have by then. -/
theorem rowsOf_release_served : rowsOf name (release ⟨name, owner, Clock.after now ttl⟩ t) =
    (rowsOf name (served requests (Pass.leased now owner name ttl s))).filter
      (·.owner ≠ owner) := by
  rw [rowsOf_release, rowsOf_congr hleases]
  apply List.filter_congr
  intro row hrow
  have hname : row.name = name := of_decide_eq_true (List.mem_filter.mp hrow).2
  simp [hname]

/-- Nobody else has the name as long as the lease is running. -/
theorem rowsOf_release_served_of_running
    (hkept : ∀ lease, .release lease ∈ requests → lease.name = name → lease.owner ≠ owner)
    (hrunning : ∀ r ∈ requests, ∀ time ∈ r.reading?, time < Clock.after now ttl) :
    rowsOf name (release ⟨name, owner, Clock.after now ttl⟩ t) = [] := by
  let row : LeaseRow := ⟨name, owner, Clock.after now ttl⟩
  have hmine : rowsOf row.name (Pass.leased now owner name ttl s) = [row] := by
    rw [rowsOf_leased, if_pos rfl]
  have hsame : rowsOf name (served requests (Pass.leased now owner name ttl s)) = [row] :=
    rowsOf_served_of_running hmine hkept hrunning
  rw [rowsOf_release_served hleases, hsame]
  simp [row]

/-- To the other names the lease is nothing. -/
theorem rowsOf_release_served_of_ne {other : String} (hother : other ≠ name) :
    rowsOf other (release ⟨name, owner, Clock.after now ttl⟩ t) =
      rowsOf other (served requests s) := by
  rw [rowsOf_release_of_ne hother.symm, rowsOf_congr hleases]
  apply rowsOf_served_congr
  rw [rowsOf_leased, if_neg hother.symm]

end Released

end Served
end Lease

open Lease

/-! ### Calls among others -/

/-- What others do between two transactions of a call: they ask for leases and change what else is
stored. -/
structure Interlude where
  /-- What the clock shows afterwards. -/
  clock : ℤ
  requests : List Request := []
  change : Store → Store := id

def Interlude.act (o : Interlude) (s : Store) : Store :=
  { o.change (served o.requests s) with leases := (served o.requests s).leases }

/-- A store that others use as well. -/
structure Shared where
  store : Store
  clock : ℤ
  /-- How often the others have had their turn. -/
  turns : ℕ := 0

namespace Shared

/-- The others have their turn. -/
def pause (others : ℕ → Interlude) (u : Shared) : Shared where
  store := (others u.turns).act u.store
  clock := (others u.turns).clock
  turns := u.turns + 1

/-- The environment at the time that the clock shows. -/
def envOf (env : Env) (u : Shared) : Env :=
  { env with clock := u.clock }

def state {α : Type} : EStateM.Result Fault Shared α → Shared
  | .ok _ u => u
  | .error _ u => u

/-- The end of a call without regard to others. -/
def forget {α : Type} : EStateM.Result Fault Shared α → EStateM.Result Fault Store α
  | .ok a u => .ok a u.store
  | .error fault u => .error fault u.store

theorem outcome_of_forget {α : Type} {r : EStateM.Result Fault Shared α} {call : Command α}
    {s : Store} (h : forget r = call s) : (call.outcome s).2 = (state r).store := by
  unfold Command.outcome
  rw [← h]
  cases r <;> rfl

end Shared

/-- What the others have asked for in their first turns. -/
def requestsOf (others : ℕ → Interlude) (turns : ℕ) : List Request :=
  (List.range turns).flatMap fun i => (others i).requests

/-- The others do nothing. -/
def still (clock : ℤ) : ℕ → Interlude :=
  fun _ => { clock }

namespace Pass

/-- Runs a command under a lease, with a turn of the others before the lease is given up. -/
def underLeaseAmong {α : Type} (env : Env) (owner : ℕ) (name : String) (ttl : ℤ)
    (others : ℕ → Interlude) (work : EStateM Fault Shared α) (s : Store) :
    EStateM.Result Fault Shared (Completion α) :=
  match Lease.acquire env.now owner name ttl s with
  | (none, s) => .ok .contended { store := s, clock := env.clock }
  | (some lease, s) =>
    match work { store := s, clock := env.clock } with
    | .ok stats u =>
      let v := u.pause others
      .ok (.completed stats) { v with store := lease.release v.store }
    | .error fault u =>
      let v := u.pause others
      .error fault { v with store := lease.release v.store }

/-- Handles events in order, with a turn of the others before each transaction. -/
def drainAmong (env : Env) (strict : Bool) (others : ℕ → Interlude) :
    List QueuedEvent → Tally → EStateM Fault Shared Tally
  | [], tally => pure tally
  | e :: rest, tally => fun u =>
    let u := u.pause others
    match attempt (u.envOf env) e u.store with
    | (.failed fault, s) =>
      let v := { u with store := s }.pause others
      let w := { v with store := setAside (v.envOf env) e fault v.store }
      if strict then .error fault w
      else drainAmong env strict others rest ((Attempt.failed fault).count tally) w
    | (done, s) => drainAmong env strict others rest (done.count tally) { u with store := s }

def drainQueueAmong (env : Env) (strict : Bool) (others : ℕ → Interlude) :
    EStateM Fault Shared Tally := fun u =>
  let u := u.pause others
  drainAmong env strict others u.store.pending { claimed := u.store.pending.length } u

/-- One pass over the queue while others use the store. -/
def runAmong (env : Env) (owner : ℕ) (strict : Bool) (ttl : ℤ) (others : ℕ → Interlude) :
    Store → EStateM.Result Fault Shared (Completion Tally) :=
  underLeaseAmong env owner Lease.processing ttl others (drainQueueAmong env strict others)

end Pass

namespace Snapshot

/-- One snapshot pass while others use the store. All versions are written in one transaction. -/
def runAmong (env : Env) (owner : ℕ) (options : Options) (time : ℤ) (others : ℕ → Interlude) :
    Store → EStateM.Result Fault Shared (Completion Stats) :=
  Pass.underLeaseAmong env owner Lease.snapshots options.leaseTtl others fun u =>
    let u := u.pause others
    let (stats, s) := take options time u.store
    .ok stats { u with store := s }

end Snapshot

/-! ### Alone -/

namespace Pass

variable {α : Type} {env : Env} {owner : ℕ} {name : String} {ttl : ℤ} {s : Store} {u : Shared}

/-- A call that finds its lease free does not say that it is taken. -/
theorem underLease_ne_contended {work : Command α}
    (hfree : Lease.isTaken env.now name s = false) (t : Store) :
    underLease env owner name ttl work s ≠ .ok .contended t := by
  rw [underLease_of_free hfree]
  cases work (leased env.now owner name ttl s) <;> exact nofun

theorem pause_still (hclock : u.clock = env.clock) :
    u.pause (still env.clock) = { u with turns := u.turns + 1 } := by
  rw [← hclock]
  rfl

theorem underLeaseAmong_still {work : EStateM Fault Shared α} {alone : Command α}
    (hwork : ∀ u : Shared, u.clock = env.clock → Shared.forget (work u) = alone u.store) :
    Shared.forget (underLeaseAmong env owner name ttl (still env.clock) work s) =
      underLease env owner name ttl alone s := by
  rw [underLease_eq]
  unfold underLeaseAmong
  cases Lease.acquire env.now owner name ttl s with
  | mk lease t =>
    cases lease with
    | none => rfl
    | some lease =>
      have hend := hwork { store := t, clock := env.clock } rfl
      dsimp only at hend ⊢
      rw [← hend]
      cases work { store := t, clock := env.clock } <;> rfl

theorem drainAmong_still (strict : Bool) (events : List QueuedEvent) (tally : Tally)
    (hclock : u.clock = env.clock) :
    Shared.forget (drainAmong env strict (still env.clock) events tally u) =
      drain env strict events tally u.store := by
  induction events generalizing tally u with
  | nil => rfl
  | cons e rest ih =>
    rw [drain_cons_eq]
    unfold drainAmong handle
    have hpause := pause_still hclock
    have henv : (u.pause (still env.clock)).envOf env = env := rfl
    have hstore : (u.pause (still env.clock)).store = u.store := by rw [hpause]
    dsimp only
    rw [henv, hstore]
    cases hattempt : attempt env e u.store with
    | mk attempt t =>
      cases attempt with
      | failed fault =>
        dsimp only
        split
        · rfl
        · exact ih _ rfl
      | _ => exact ih _ rfl

theorem drainQueueAmong_still (strict : Bool) (hclock : u.clock = env.clock) :
    Shared.forget (drainQueueAmong env strict (still env.clock) u) =
      drainQueue env strict u.store := by
  have hstore : (u.pause (still env.clock)).store = u.store := by rw [pause_still hclock]
  have hdrained := drainAmong_still (u := u.pause (still env.clock)) strict u.store.pending
    { claimed := u.store.pending.length } rfl
  rw [hstore] at hdrained
  unfold drainQueueAmong
  dsimp only
  rw [hstore]
  exact hdrained

end Pass

/-! ### Leases while others act -/

/-- Since the store was as given, the leases have changed by the requests of others alone. -/
def Shared.Untouched (others : ℕ → Interlude) (s : Store) (u : Shared) : Prop :=
  u.store.leases = (served (requestsOf others u.turns) s).leases

namespace Shared.Untouched

variable {others : ℕ → Interlude} {s : Store} {u : Shared}

theorem pause (h : u.Untouched others s) : (u.pause others).Untouched others s := by
  unfold Untouched at *
  have hrequests : requestsOf others (u.turns + 1) =
      requestsOf others u.turns ++ (others u.turns).requests := by
    unfold requestsOf
    rw [List.range_succ, List.flatMap_append, List.flatMap_singleton]
  show (served (others u.turns).requests u.store).leases =
    (served (requestsOf others (u.turns + 1)) s).leases
  rw [hrequests, served_append]
  exact leases_served_congr h _

/-- What leaves the leases alone may change all else. -/
theorem change (h : u.Untouched others s) {t : Store} (hleases : t.leases = u.store.leases) :
    Untouched others s { u with store := t } :=
  hleases.trans h

end Shared.Untouched

namespace Pass

variable {env : Env} {e : QueuedEvent} {s : Store}

/-- An attempt leaves all leases alone. -/
theorem leases_attempt (env : Env) (e : QueuedEvent) (s : Store) :
    (attempt env e s).2.leases = s.leases := by
  have hcarried : ∀ event, (carryOut env event s).2.leases = s.leases := by
    intro event
    unfold carryOut
    split
    · have happly : (Reconcile.apply env (Plan.ofEvent event)).KeepsLeases (s.claim event.id) :=
        Reconcile.keepsLeases_apply _ _
      unfold Command.KeepsLeases at happly
      cases hend : Reconcile.apply env (Plan.ofEvent event) (s.claim event.id) with
      | ok outcome t =>
        rw [Command.outcome_of_ok hend] at happly
        cases outcome <;> exact happly
      | error fault t => rfl
    · rfl
  have hdropped : (drop e s).2.leases = s.leases := by
    unfold drop
    split <;> rfl
  unfold attempt
  split
  · exact hdropped
  · split
    · rfl
    · exact hcarried _

theorem leases_setAside (env : Env) (e : QueuedEvent) (fault : Fault) (s : Store) :
    (setAside env e fault s).leases = s.leases := by
  unfold setAside
  split <;> rfl

/-- However it ends, a pass asks for no lease while it handles events. -/
theorem untouched_drainAmong {others : ℕ → Interlude} (strict : Bool) (events : List QueuedEvent)
    (tally : Tally) {u : Shared} (h : u.Untouched others s) :
    (Shared.state (drainAmong env strict others events tally u)).Untouched others s := by
  induction events generalizing tally u with
  | nil => exact h
  | cons e rest ih =>
    unfold drainAmong
    dsimp only
    have hattempt := leases_attempt ((u.pause others).envOf env) e (u.pause others).store
    cases hdone : attempt ((u.pause others).envOf env) e (u.pause others).store with
    | mk attempt t =>
      rw [hdone] at hattempt
      have hafter := h.pause.change hattempt
      cases attempt with
      | failed fault =>
        have haside := hafter.pause.change (leases_setAside
          ((Shared.pause others { u.pause others with store := t }).envOf env) e fault _)
        dsimp only
        split
        · exact haside
        · exact ih _ haside
      | _ => exact ih _ hafter

/-- A call that finds its lease free gives it up in the end. -/
theorem exists_released {α : Type} (owner : ℕ) {name : String} (ttl : ℤ)
    {others : ℕ → Interlude} {work : EStateM Fault Shared α}
    (hwork : ∀ (s : Store) (u : Shared), u.Untouched others s →
      (Shared.state (work u)).Untouched others s)
    (hfree : Lease.isTaken env.now name s = false) :
    (∀ u, underLeaseAmong env owner name ttl others work s ≠ .ok .contended u) ∧
      ∃ v : Shared, v.Untouched others (leased env.now owner name ttl s) ∧
        Shared.state (underLeaseAmong env owner name ttl others work s) =
          { v with store := Lease.release ⟨name, owner, Clock.after env.now ttl⟩ v.store } := by
  set t := leased env.now owner name ttl s with ht
  have hworked := hwork t { store := t, clock := env.clock } rfl
  unfold underLeaseAmong
  rw [acquire_of_free hfree, ← ht]
  dsimp only
  cases hend : work { store := t, clock := env.clock } with
  | ok stats u =>
    rw [hend] at hworked
    exact ⟨nofun, u.pause others, hworked.pause, rfl⟩
  | error fault u =>
    rw [hend] at hworked
    exact ⟨nofun, u.pause others, hworked.pause, rfl⟩

end Pass

/-- How a call under a lease begins and ends. Alone, it does nothing if a row of the name is
running. Else it does not say so, and the leases it leaves are those of the other names. Among
others, their leases are as if the call had not been made: those of the other names, and those of
its own name that have another owner in the end. Its own row is gone, and while it was running
nobody else had the name. -/
structure SingleFlight {α : Type} (env : Env) (owner : ℕ) (name : String) (ttl : ℤ) (s : Store)
    (call : Command (Completion α))
    (among : (ℕ → Interlude) → Store → EStateM.Result Fault Shared (Completion α)) : Prop where
  alone : Shared.forget (among (still env.clock) s) = call s
  contended : (∃ row ∈ s.leases, row.name = name ∧ env.now < row.expiresAt) →
    call s = .ok .contended s ∧
      ∀ others, among others s = .ok .contended { store := s, clock := env.clock }
  released : (∀ row ∈ s.leases, row.name = name → row.expiresAt ≤ env.now) →
    (∀ t, call s ≠ .ok .contended t) ∧
      (call.outcome s).2.leases = s.leases.filter (·.name ≠ name)
  shared : (∀ row ∈ s.leases, row.name = name → row.expiresAt ≤ env.now) → ∀ others,
    let u := Shared.state (among others s)
    let requests := requestsOf others u.turns
    (∀ v, among others s ≠ .ok .contended v) ∧
      ((∀ lease, .release lease ∈ requests → lease.name = name → lease.owner ≠ owner) →
        (∀ r ∈ requests, ∀ time ∈ r.reading?, time < Clock.after env.now ttl) →
        rowsOf name u.store = []) ∧
      rowsOf name u.store =
        (rowsOf name (served requests (Pass.leased env.now owner name ttl s))).filter
          (·.owner ≠ owner) ∧
      ∀ other ≠ name, rowsOf other u.store = rowsOf other (served requests s)

section

variable {α : Type} {env : Env} {owner : ℕ} {name : String} {ttl : ℤ} {s : Store}

theorem requestsOf_still (clock : ℤ) (turns : ℕ) : requestsOf (still clock) turns = [] := by
  unfold requestsOf still
  simp

/-- A command that asks for no lease, with others or without, is run as a single flight. -/
theorem singleFlight_underLease (work : (ℕ → Interlude) → EStateM Fault Shared α)
    (alone : Command α)
    (hstill : ∀ u : Shared, u.clock = env.clock →
      Shared.forget (work (still env.clock) u) = alone u.store)
    (hwork : ∀ (others : ℕ → Interlude) (s : Store) (u : Shared), u.Untouched others s →
      (Shared.state (work others u)).Untouched others s) :
    SingleFlight env owner name ttl s (Pass.underLease env owner name ttl alone)
      fun others => Pass.underLeaseAmong env owner name ttl others (work others) := by
  have halone : Shared.forget (Pass.underLeaseAmong env owner name ttl (still env.clock)
      (work (still env.clock)) s) = Pass.underLease env owner name ttl alone s :=
    Pass.underLeaseAmong_still hstill
  constructor
  · exact halone
  · rintro ⟨row, hrow, rfl, hrunning⟩
    have htaken : Lease.isTaken env.now row.name s = true := isTaken_of_running hrow hrunning
    constructor
    · rw [Pass.underLease_eq, Pass.acquire_of_taken htaken]
    · intro others
      unfold Pass.underLeaseAmong
      rw [Pass.acquire_of_taken htaken]
  · intro hfree
    obtain ⟨-, v, hv, hstate⟩ := Pass.exists_released owner ttl (hwork (still env.clock))
      (isTaken_eq_false.mpr hfree)
    have hleases : v.store.leases = (Pass.leased env.now owner name ttl s).leases := by
      unfold Shared.Untouched at hv
      rw [hv, requestsOf_still]
      rfl
    constructor
    · exact Pass.underLease_ne_contended (isTaken_eq_false.mpr hfree)
    · rw [Shared.outcome_of_forget halone, hstate]
      exact leases_release_leased hleases
  · intro hfree others u requests
    obtain ⟨hends, v, hv, hstate⟩ := Pass.exists_released owner ttl (hwork others)
      (isTaken_eq_false.mpr hfree)
    have hend : u = { v with
        store := Lease.release ⟨name, owner, Clock.after env.now ttl⟩ v.store } := hstate
    have hstore : u.store = Lease.release ⟨name, owner, Clock.after env.now ttl⟩ v.store := by
      rw [hend]
    have hleases : v.store.leases =
        (served requests (Pass.leased env.now owner name ttl s)).leases := by
      have hturns : u.turns = v.turns := by rw [hend]
      show _ = (served (requestsOf others u.turns) _).leases
      rw [hturns]
      exact hv
    rw [hstore]
    refine ⟨hends, ?_, rowsOf_release_served hleases, ?_⟩
    · intro hkept hrunning
      exact rowsOf_release_served_of_running hleases hkept hrunning
    · intro other hother
      exact rowsOf_release_served_of_ne hleases hother

end

/-- Passes over the queue and snapshot passes are single flights. This holds of any store, of
strict passes and lenient ones, and whatever others do meanwhile. -/
theorem single_flight (env : Env) (owner : ℕ) (s : Store) :
    (∀ strict ttl, SingleFlight env owner Lease.processing ttl s (Pass.run env owner strict ttl)
        (Pass.runAmong env owner strict ttl)) ∧
      ∀ options time, SingleFlight env owner Lease.snapshots options.leaseTtl s
        (Snapshot.run env owner options time) (Snapshot.runAmong env owner options time) := by
  constructor
  · intro strict ttl
    apply singleFlight_underLease (Pass.drainQueueAmong env strict)
    · intro u hclock
      exact Pass.drainQueueAmong_still strict hclock
    · intro others s u hu
      exact Pass.untouched_drainAmong strict _ _ hu.pause
  · intro options time
    apply singleFlight_underLease
    · intro u hclock
      rw [Pass.pause_still hclock]
      exact (Snapshot.takeAll_eq options time u.store).symm
    · intro others s u hu
      have htaken : (Snapshot.take options time (u.pause others).store).2.leases =
          (u.pause others).store.leases := by
        obtain ⟨versions, hversions⟩ :=
          Snapshot.take_onlyVersions options time (u.pause others).store
        rw [hversions]
      exact hu.pause.change htaken

/-- A strict pass takes over what is left of another. Its lease runs out while its event fails; the
pass that takes it over keeps it. -/
theorem single_flight_takenOver :
    let env : Env := { clock := 1000, tokens := String.length }
    let s : Store :=
      { queue := { rows := [⟨3, "a", "EDITOR", "UPDATE", some "[", some "1", 4⟩], lastId := 3 }
        leases := [⟨Lease.processing, 9, 900⟩, ⟨Lease.snapshots, 8, 5000⟩] }
    let others : ℕ → Interlude := fun i =>
      if i = 2 then { clock := 1500, requests := [.acquire 1500 2 Lease.processing 1000] }
      else { clock := 1000 }
    let u := Shared.state (Pass.runAmong env 1 true 400 others s)
    u.turns = 4 ∧ u.store.deadLetters.rows.map (·.eventId) = [3] ∧
      rowsOf Lease.processing u.store = [⟨Lease.processing, 2, 2500⟩] ∧
      rowsOf Lease.snapshots u.store = [⟨Lease.snapshots, 8, 5000⟩] ∧
      ((Pass.run env 1 true 400).outcome s).2.leases = [⟨Lease.snapshots, 8, 5000⟩] := by
  intro env s others u
  have hfree : ∀ row ∈ s.leases, row.name = Lease.processing → row.expiresAt ≤ env.now := by
    decide
  have hflight := (single_flight env 1 s).1 true 400
  obtain ⟨-, -, hown, hothers⟩ := hflight.shared hfree others
  have hturns : u.turns = 4 := by decide +kernel
  refine ⟨hturns, by decide +kernel, ?_, ?_, ?_⟩
  · rw [hown, hturns]
    decide
  · rw [hothers Lease.snapshots (by decide), hturns]
    decide
  · rw [(hflight.released hfree).2]
    decide

end NodeGraph
