import NodeGraph.Proofs.Courses
import NodeGraph.Proofs.EventLog
import NodeGraph.Proofs.Leases

/-!
Calls that fail change nothing, whichever of their statements the database refuses: after them rows,
ids and hub are what they were, but for a lease that had run out. Where it refuses none, what is
stored tells which fault a call ends with.
-/
namespace NodeGraph

/-! ### Commands that fail without a trace -/

namespace Command

variable {α β : Type} {c : Command α} {f : α → Command β}

/-- A command that fails changes nothing. -/
def Atomic (c : Command α) : Prop :=
  ∀ ⦃s fault t⦄, c s = .error fault t → t = s

/-- A command that succeeds changes nothing. -/
def Reads (c : Command α) : Prop :=
  ∀ ⦃s a t⦄, c s = .ok a t → t = s

/-- Whatever its statements have done by then, a transaction that fails takes it back. -/
theorem atomic_transaction (c : Command α) : c.transaction.Atomic := by
  intro s fault t h
  cases hc : c s with
  | ok a u =>
    rw [transaction_of_ok hc] at h
    exact nomatch h
  | error other u =>
    rw [transaction_of_error hc] at h
    exact (EStateM.Result.error.inj h).2.symm

/-- A command may fail after one that only reads. -/
theorem Atomic.bind (hc : c.Atomic) (hreads : c.Reads) (hf : ∀ a, (f a).Atomic) :
    (c >>= f).Atomic := by
  intro s fault t h
  cases hok : c s with
  | ok a u =>
    rw [bind_of_ok hok] at h
    rw [hf a h, hreads hok]
  | error other u =>
    rw [bind_of_error hok] at h
    obtain ⟨-, rfl⟩ := EStateM.Result.error.inj h
    exact hc hok

theorem Atomic.map (hc : c.Atomic) (g : α → β) : Atomic (c >>= fun a => pure (g a)) := by
  intro s fault t h
  cases hok : c s with
  | ok a u =>
    rw [bind_of_ok hok] at h
    exact nomatch h
  | error other u =>
    rw [bind_of_error hok] at h
    obtain ⟨-, rfl⟩ := EStateM.Result.error.inj h
    exact hc hok

theorem Atomic.ifTaken {again : Command α} (hc : c.Atomic) (hagain : again.Atomic) :
    (c.ifTaken again).Atomic := by
  intro s fault t h
  cases hok : c s with
  | ok a u =>
    rw [ifTaken_of_ok hok] at h
    exact nomatch h
  | error other u =>
    rw [ifTaken_of_error hok] at h
    split at h
    · rw [hagain h, hc hok]
    · obtain ⟨-, rfl⟩ := EStateM.Result.error.inj h
      exact hc hok

end Command

namespace Database

variable {α : Type} {c : Command α}

theorem run_of_none (db : Database) {statement : Statement} {s : Store}
    (h : db.refusal? statement s = none) (c : Command α) : db.run statement c s = c s := by
  unfold run
  rw [h]

theorem run_of_some (db : Database) {statement : Statement} {s : Store} {fault : Fault}
    (h : db.refusal? statement s = some fault) (c : Command α) :
    db.run statement c s = .error fault s := by
  unfold run
  rw [h]

/-- A statement is refused before it has done anything. -/
theorem atomic_run (db : Database) (statement : Statement) (hc : c.Atomic) :
    (db.run statement c).Atomic := by
  intro s fault t h
  cases hrefusal : db.refusal? statement s with
  | some refused =>
    rw [db.run_of_some hrefusal] at h
    exact (EStateM.Result.error.inj h).2.symm
  | none =>
    rw [db.run_of_none hrefusal] at h
    exact hc h

theorem atomic_transaction (db : Database) (c : Command α) : (db.transaction c).Atomic :=
  db.atomic_run .begin (Command.atomic_transaction _)

/-- A lease that is given up is given up. -/
def Releases (db : Database) : Prop :=
  ∀ s, db.refusal? .releaseLease s = none

theorem Releases.run_eq {db : Database} (h : db.Releases) (c : Command α) :
    db.run .releaseLease c = c := by
  funext s
  exact db.run_of_none (h s) c

end Database

open Command Database

namespace Documents

variable {db : Database} {env : Env} {p : String} {type : DocumentType}

end Documents

namespace Nodes

variable {db : Database} {env : Env} {p : String}

theorem create_of_free (quiet : env.rivals = {}) {s : Store} (hfree : s.hasNode p = false)
    (title : String) (kind : NodeKind) :
    create env p title kind s = .ok (blank env p title kind s.nodes.nextId)
      { s with nodes := s.nodes.add fun id => (blank env p title kind id).encode } := by
  unfold create createOn
  rw [Database.run_sound, bind_of_ok (insert_of_free quiet (by exact hfree))]
  rfl

theorem create_of_taken (quiet : env.rivals = {}) {s : Store} (htaken : s.hasNode p = true)
    (title : String) (kind : NodeKind) :
    create env p title kind s = .error (.duplicateKey uniqueColumn) s := by
  have hkey : s.hasNode (blank env p title kind s.nodes.nextId).encode.publicId = true := htaken
  have hinsert : insert env (fun id => (blank env p title kind id).encode) s =
      .error (.duplicateKey uniqueColumn) s := by
    unfold insert
    rw [bind_of_ok (get_eq s)]
    dsimp only
    rw [quiet]
    dsimp only [Option.filter_none]
    rw [if_pos hkey]
    rfl
  exact bind_of_error hinsert

end Nodes

namespace Spaces

variable {db : Database} {env : Env} {s : Store}

/-- A space is refused if its public id or every slug that is tried for it is taken. -/
def refusal? (p title : String) (suffix : ℕ → String) (s : Store) : Option Fault :=
  if (s.space? p).isSome then some (.takenSpace p)
  else if (candidates title suffix).all s.hasSlug then some (.noFreeSlug title)
  else none

end Spaces

namespace Lease

/-- The store without the lease rows of a name that have run out. -/
def withoutLapsed (now : ℤ) (name : String) (s : Store) : Store :=
  { s with leases := s.leases.filter fun row => !(row.name = name && decide (row.expiresAt ≤ now)) }

end Lease

namespace Snapshot

variable {db : Database} {env : Env} {owner : ℕ} {options : Options} {time : ℤ} {s t : Store}
  {fault : Fault}

/-- If the lease cannot be given up, its row stays, and so do the versions of a pass that did not
fail before. -/
theorem runOn_of_unreleased (htake : db.refusal? .takeLease s = none)
    (hfree : Lease.isTaken env.now Lease.snapshots s = false)
    (hrelease : ∀ t, db.refusal? .releaseLease t = some fault) :
    runOn db env owner options time s =
      match takeAll db options time
        (Pass.leased env.now owner Lease.snapshots options.leaseTtl s) with
      | .ok _ t => .error fault t
      | .error cause _ =>
        .error cause (Pass.leased env.now owner Lease.snapshots options.leaseTtl s) := by
  have hrefused (c : Command Unit) (t : Store) : db.run .releaseLease c t = .error fault t :=
    db.run_of_some (hrelease t) c
  unfold runOn Pass.underLeaseOn
  refine (db.run_of_none htake _).trans ?_
  rw [Pass.acquire_of_free hfree]
  dsimp only
  cases hwork : takeAll db options time
      (Pass.leased env.now owner Lease.snapshots options.leaseTtl s) with
  | ok stats t => exact bind_of_error (hrefused _ t)
  | error cause t =>
    have hundone := db.atomic_transaction _ hwork
    dsimp only
    rw [outcome_of_error (hrefused _ t), hundone]

end Snapshot

/-! ### Calls -/

/-- What is asked of a workspace. -/
inductive Call where
  | upsert (publicId : String) (type : DocumentType) (data : List UInt8) (json : Option Json)
  | delete (publicId : String) (type : DocumentType)
  | enqueue (publicId type action : String) (oldData newData : Option Json)
  | createSpace (publicId title : String) (owner : Option String) (suffix : ℕ → String)
  | createNode (publicId title : String) (kind : NodeKind)
  | ensureNode (publicId : String) (kind : NodeKind)
  | setTitle (publicId title : String)
  | setRemoved (removed : Bool) (publicId : String)
  | expel (space node : String)
  | requeue
  | snapshot (owner : ℕ) (options : Snapshot.Options) (time : ℤ)

namespace Call

def fault? {α : Type} : Except Fault α → Option Fault
  | .ok _ => none
  | .error fault => some fault

/-- Runs a command on the store of a workspace. -/
def carry {α : Type} (c : Command α) (w : Workspace) : Option Fault × Workspace :=
  (fault? (c.outcome w.store).1, { w with store := (c.outcome w.store).2 })

/-- The fault that a call ends with, if it fails, and the workspace that it leaves. -/
def answerOn (db : Database) (env : Env) (channel : String) (w : Workspace) :
    Call → Option Fault × Workspace
  | upsert p type data json =>
    (fault? (w.upsertOn db env channel p type data json).1,
      (w.upsertOn db env channel p type data json).2)
  | delete p type =>
    (fault? (w.deleteOn db env channel p type).1, (w.deleteOn db env channel p type).2)
  | enqueue p type action oldData newData =>
    carry (Queue.enqueueOn db env p type action oldData newData) w
  | createSpace p title owner suffix => carry (Spaces.createOn db env p title owner suffix) w
  | createNode p title kind => carry (Nodes.createOn db env p title kind) w
  | ensureNode p kind => carry (Nodes.ensureOn db env p kind) w
  | setTitle p title => carry (Nodes.setTitleOn db env p title) w
  | setRemoved removed p => carry (Nodes.setRemovedOn db env removed p) w
  | expel space node => carry (Spaces.expelOn db space node) w
  | requeue => carry (Queue.requeueOn db) w
  | snapshot owner options time => carry (Snapshot.runOn db env owner options time) w

def answer (env : Env) (channel : String) (w : Workspace) (call : Call) :
    Option Fault × Workspace :=
  call.answerOn .sound env channel w

/-- A JSON value that is written to a document is not nested too deep. -/
def Legible : Call → Prop
  | upsert _ _ _ json => ∀ v ∈ json, v.Fits ∧ v.depth ≤ Json.maxDepth
  | _ => True

/-- What a call that fails may leave: what was stored, and after a snapshot pass perhaps not the
rows of its lease that had run out. -/
def Spares (now : ℤ) (s t : Store) : Call → Prop
  | snapshot _ _ _ => t = s ∨ t = Lease.withoutLapsed now Lease.snapshots s
  | _ => t = s

/-- The fault that a call ends with where no statement is refused, seen from what is stored. -/
def refusal? (s : Store) : Call → Option Fault
  | createSpace p title _ suffix => Spaces.refusal? p title suffix s
  | createNode p _ _ => if s.hasNode p then some (.duplicateKey Nodes.uniqueColumn) else none
  | setTitle p _ => if s.hasNode p then none else some (.missingNode p)
  | setRemoved _ p => if s.hasNode p then none else some (.missingNode p)
  | expel space node =>
    if (s.space? space).isNone then some (.missingSpace space)
    else if s.hasNode node then none else some (.missingNode node)
  | _ => none

section Failure

variable {α : Type} {db : Database} {env : Env} {channel : String} {w : Workspace} {fault : Fault}

end Failure

section Answer

variable {α : Type} {tokens : Tokenizer} {env : Env} {channel : String} {w : Workspace}

end Answer

/-! ### Stores that calls leave -/

section Sound

variable {tokens : Tokenizer} {env : Env} {channel : String} {w : Workspace}

theorem sound_createNode (quiet : env.rivals = {}) (h : w.store.Sound env.tokens)
    (p title : String) (kind : NodeKind) :
    ((Nodes.create env p title kind).outcome w.store).2.Sound env.tokens := by
  cases hnode : w.store.hasNode p with
  | true =>
    rw [Command.outcome_of_error (Nodes.create_of_taken quiet hnode title kind)]
    exact h
  | false =>
    rw [Command.outcome_of_ok (Nodes.create_of_free quiet hnode title kind)]
    refine h.withGraph (h.toGraphSound.addNode rfl hnode ?_ ⟨rfl, rfl⟩) rfl rfl rfl
    exact Store.derived_blank title kind _

theorem sound_ensureNode (quiet : env.rivals = {}) (h : w.store.Sound env.tokens) (p : String)
    (kind : NodeKind) : ((Nodes.ensure env p kind).outcome w.store).2.Sound env.tokens := by
  obtain ⟨row, -, hensured⟩ := Nodes.ensure_eq quiet h.toGraphSound p kind
  rw [Command.outcome_of_ok hensured]
  have hrecords : Reconcile.SameRecords w.store (w.store.materialize env p kind) :=
    Reconcile.sameRecords_materialize p kind
  exact h.withGraph (h.toGraphSound.materialize p kind) hrecords.documents hrecords.queue
    hrecords.deadLetters

/-- Whatever is called and however it ends, the store stays sound. -/
theorem sound_answer (quiet : env.rivals = {}) (h : w.store.Sound env.tokens) (call : Call) :
    (call.answer env channel w).2.store.Sound env.tokens := by
  cases call with
  | upsert p type data json =>
    show (w.upsert env channel p type data json).2.store.Sound env.tokens
    rw [Workspace.upsert_store]
    exact Store.upserted_sound h env p type data json
  | delete p type =>
    show (w.delete env channel p type).2.store.Sound env.tokens
    rw [Workspace.delete_store]
    exact Store.withoutDocument_sound h env p type
  | enqueue p type action oldData newData =>
    exact h.withQueue (h.queueIds.add rfl)
  | createSpace p title owner suffix => exact Spaces.create_sound quiet h p title owner suffix
  | createNode p title kind => exact sound_createNode quiet h p title kind
  | ensureNode p kind => exact sound_ensureNode quiet h p kind
  | setTitle p title => exact (Nodes.setTitle_edited env h.toGraphSound p title).sound h
  | setRemoved removed p => exact (Nodes.setRemoved_edited env h.toGraphSound removed p).sound h
  | expel space node => exact Spaces.expel_sound h space node
  | requeue => exact Store.requeued_sound h
  | snapshot owner options time => exact Snapshot.run_sound h env owner options time

end Sound

end Call

/-! ### Every reachable workspace -/

namespace Workspace

variable {tokens : Tokenizer} {w : Workspace}

/-- The workspaces that an empty store may come to, with any hub: by whatever happens to the store,
by leases that are taken and left behind, and by calls. -/
inductive Reachable (tokens : Tokenizer) : Workspace → Prop
  | empty (hub : Hub) : Reachable tokens { hub }
  | occurrence {w : Workspace} (h : Reachable tokens w) {o : Occurrence} (ho : o.Held) :
    Reachable tokens { w with store := o.run tokens w.store }
  | lease {w : Workspace} (h : Reachable tokens w) (now : ℤ) (owner : ℕ) (name : String)
    (ttl : ℤ) : Reachable tokens { w with store := (Lease.acquire now owner name ttl w.store).2 }
  | call {w : Workspace} (h : Reachable tokens w) (clock : ℤ) (channel : String) (call : Call) :
    Reachable tokens (call.answer { clock, tokens } channel w).2

theorem Reachable.sound (h : w.Reachable tokens) : w.store.Sound tokens := by
  induction h with
  | empty hub => exact Store.sound_empty tokens
  | @occurrence w _ o ho ih =>
    cases o with
    | operation clock op =>
      have hquiet : ({ clock, tokens } : Env).rivals = {} := rfl
      exact Operation.perform_sound hquiet ho ih
    | passes schedule => exact (serial_run ih schedule).sound
  | @lease w _ now owner name ttl ih =>
    cases htaken : Lease.isTaken now name w.store with
    | true =>
      rw [Pass.acquire_of_taken htaken]
      exact ih
    | false =>
      rw [Pass.acquire_of_free htaken]
      exact Pass.withLeases_sound ih _
  | call _ clock channel call ih =>
    have hquiet : ({ clock, tokens } : Env).rivals = {} := rfl
    exact Call.sound_answer hquiet ih call

end Workspace
end NodeGraph
