import NodeGraph.Proofs.Snapshot
import NodeGraph.Proofs.Store.Foreign
import NodeGraph.Proofs.Store.Spaces

/-!
Histories: whatever is done to a database that was empty, and in whatever order, leaves a sound
store, in which the derived columns of every node are those of its title and content.
-/
namespace NodeGraph

/-- The tables whose rows other programs write. -/
inductive RawTable where
  | documents
  | events
  deriving DecidableEq, Repr

def RawTable.target : RawTable → Foreign.Target
  | documents => .documents
  | events => .events

/-- What may be done to a database. -/
inductive Operation where
  | upsert (publicId : String) (type : DocumentType) (data : List UInt8) (json : Option Json)
  | delete (publicId : String) (type : DocumentType)
  | enqueue (publicId type action : String) (oldData newData : Option Json)
  | addEvent (cells : Foreign.Cells)
  | addDocument (cells : Foreign.Cells)
  | changeRows (table : RawTable) (publicId column : String) (cell : Cell)
  | deleteRows (table : RawTable) (publicId : String)
  | pass (owner : ℕ) (strict : Bool) (ttl : ℤ)
  | requeue
  | createSpace (publicId title : String) (owner : Option String) (suffix : ℕ → String)
  | expel (space node : String)
  | setTitle (publicId title : String)
  | setRemoved (removed : Bool) (publicId : String)
  | save (node : Node)
  | snapshot (owner : ℕ) (options : Snapshot.Options) (time : ℤ)

namespace Operation

/-- The store that an operation leaves, whether it succeeds or not. -/
def perform (env : Env) : Operation → Store → Store
  | upsert p type data json, s => ((Documents.upsert env p type data json).outcome s).2
  | delete p type, s => ((Documents.delete env p type).outcome s).2
  | enqueue p type action oldData newData, s =>
    ((Queue.enqueue env p type action oldData newData).outcome s).2
  | addEvent cells, s => ((Foreign.addEvent cells).outcome s).2
  | addDocument cells, s => ((Foreign.addDocument env cells).outcome s).2
  | changeRows table p column cell, s =>
    ((Foreign.update env table.target p column cell).outcome s).2
  | deleteRows table p, s => (Foreign.delete env table.target p s).2
  | pass owner strict ttl, s => ((Pass.run env owner strict ttl).outcome s).2
  | requeue, s => (Queue.requeue.outcome s).2
  | createSpace p title owner suffix, s => ((Spaces.create env p title owner suffix).outcome s).2
  | expel space node, s => ((Spaces.expel space node).outcome s).2
  | setTitle p title, s => ((Nodes.setTitle env p title).outcome s).2
  | setRemoved removed p, s => ((Nodes.setRemoved env removed p).outcome s).2
  | save node, s => ((Nodes.save env node).outcome s).2
  | snapshot owner options time, s => ((Snapshot.run env owner options time).outcome s).2

/-- A node that is saved has a content that can be held. -/
def Held : Operation → Prop
  | save node => ∀ v ∈ node.content, v.Sound
  | _ => True

variable {env : Env} {s : Store}

/-- Every operation keeps a store sound. -/
theorem perform_sound (quiet : env.rivals = {}) {op : Operation} (hheld : op.Held)
    (h : s.Sound env.tokens) : (op.perform env s).Sound env.tokens := by
  cases op with
  | upsert p type data json =>
    show ((Documents.upsert env p type data json).outcome s).2.Sound env.tokens
    rw [Documents.upsert_outcome]
    exact Store.upserted_sound h env p type data json
  | delete p type =>
    show ((Documents.delete env p type).outcome s).2.Sound env.tokens
    rw [Documents.delete_outcome]
    exact Store.withoutDocument_sound h env p type
  | enqueue p type action oldData newData => exact h.withQueue (h.queueIds.add rfl)
  | addEvent cells => exact Foreign.addEvent_sound h cells
  | addDocument cells => exact Foreign.addDocument_sound h env cells
  | changeRows table p column cell =>
    cases table with
    | documents => exact Foreign.updateDocuments_sound h p column cell
    | events => exact Foreign.updateEvents_sound h p column cell
  | deleteRows table p =>
    cases table with
    | documents => exact (Foreign.delete_sound h p).1
    | events => exact (Foreign.delete_sound h p).2
  | pass owner strict ttl => exact Pass.run_sound quiet h owner strict ttl
  | requeue => exact Store.requeued_sound h
  | createSpace p title owner suffix => exact Spaces.create_sound quiet h p title owner suffix
  | expel space node => exact Spaces.expel_sound h space node
  | setTitle p title => exact (Nodes.setTitle_edited env h.toGraphSound p title).sound h
  | setRemoved removed p => exact (Nodes.setRemoved_edited env h.toGraphSound removed p).sound h
  | save node => exact Nodes.save_sound h hheld
  | snapshot owner options time => exact Snapshot.run_sound h env owner options time

/-! ### What an operation does -/

/-- Documents are replaced one after the other, each by one of its id. -/
def Replaces (clock : ℤ) : Store → Store → Prop :=
  Relation.ReflTransGen fun s t =>
    ∃ old row : DocumentRow, row.id = old.id ∧ t = s.replaceDocument clock old row

/-- The operation may be refused, or find nothing to do. -/
def MayIdle : Operation → Prop
  | upsert _ _ _ _ | enqueue _ _ _ _ _ | deleteRows _ _ | pass _ _ _ | requeue => False
  | _ => True

/-- What an operation makes of a store. It may leave the store as it is; otherwise its case says
what it changes and under which condition. A pass is not looked into. -/
inductive Effect (env : Env) (s : Store) : Operation → Store → Prop
  | nothing {op : Operation} (hidle : op.MayIdle) : Effect env s op s
  | upsert (p : String) (type : DocumentType) (data : List UInt8) (json : Option Json) :
    Effect env s (upsert p type data json) (s.upserted env p type data json)
  | delete {p : String} {type : DocumentType} {row : DocumentRow}
    (hrow : s.document? p type.name = some row) :
    Effect env s (delete p type) (s.deleteDocument env.clock row)
  | enqueue (p type action : String) (oldData newData : Option Json) :
    Effect env s (enqueue p type action oldData newData)
      { s with queue := s.queue.add fun id =>
          { id, publicId := p, type, action, oldData := oldData.map Json.compact
            newData := newData.map Json.compact, createdAt := env.now } }
  | addEvent (cells : Foreign.Cells) {event : ℤ → QueuedEvent} (hid : ∀ id, (event id).id = id) :
    Effect env s (addEvent cells) { s with queue := s.queue.add event }
  | addDocument (cells : Foreign.Cells) {row : ℤ → DocumentRow} (hid : ∀ id, (row id).id = id)
    (hfree : s.document? (row s.documents.nextId).publicId (row s.documents.nextId).type = none) :
    Effect env s (addDocument cells) (s.addDocument env.clock row)
  | changeDocuments (p column : String) (cell : Cell) {t : Store}
    (hreplaces : Replaces env.clock s t)
    (hkeys : (t.documents.rows.map fun row => (row.publicId, row.type)).Nodup) :
    Effect env s (changeRows .documents p column cell) t
  | changeEvents {p column : String} {cell : Cell} {queue : Table QueuedEvent}
    (hchange : Foreign.changeRows s.queue (·.publicId = p) (Foreign.setEvent column cell) =
      .ok queue) :
    Effect env s (changeRows .events p column cell) { s with queue }
  | deleteDocuments (p : String) :
    Effect env s (deleteRows .documents p)
      ((Foreign.documentsOf s p).foldl (fun s row => s.deleteDocument env.clock row) s)
  | deleteEvents (p : String) :
    Effect env s (deleteRows .events p) { s with queue := s.queue.keep (·.publicId ≠ p) }
  | pass (owner : ℕ) (strict : Bool) (ttl : ℤ) :
    Effect env s (pass owner strict ttl) ((Pass.run env owner strict ttl).outcome s).2
  | requeue : Effect env s requeue s.requeued
  | createSpace {p title slug : String} (owner : Option String) (suffix : ℕ → String)
    (hfree : s.space? p = none) (hslug : s.hasSlug slug = false) :
    Effect env s (createSpace p title owner suffix)
      { s with
        spaces := s.spaces.add (Spaces.newSpace env p title slug)
        members := s.members ++ owner.toList.map fun principal =>
          { space := s.spaces.nextId, principal, role := Spaces.ownerRole } }
  | expel {p q : String} {space : Space} {row : NodeRow} (hspace : s.space? p = some space)
    (hrow : s.nodeRow? q = some row) :
    Effect env s (expel p q)
      { s with
        live := s.live.filter (· ≠ (space.id, row.id))
        deleted := addPair (space.id, row.id) s.deleted }
  | setTitle {p : String} {row : NodeRow} (hrow : s.nodeRow? p = some row) (title : String) :
    Effect env s (setTitle p title) (s.changeNode p (Nodes.savedRow env { row.value with title }))
  | setRemoved {p : String} (hnode : s.hasNode p = true) (removed : Bool) :
    Effect env s (setRemoved removed p)
      (s.changeNode p fun row => { row with removed, updatedAt := env.now })
  | save {node : Node} (heditor : s.isSoundReference node.editorDocument = true)
    (hgraph : s.isSoundReference node.graphDocument = true) :
    Effect env s (save node) (s.updateNode node.id (Nodes.savedRow env node))
  | snapshot (owner : ℕ) (options : Snapshot.Options) (time : ℤ) (versions : Table Version) :
    Effect env s (snapshot owner options time)
      (Lease.release ⟨Lease.snapshots, owner, Clock.after env.now options.leaseTtl⟩
        { Pass.leased env.now owner Lease.snapshots options.leaseTtl s with versions })

/-- Whatever an operation does, it is one of its effects. -/
theorem effect_perform (quiet : env.rivals = {}) (h : s.GraphSound env.tokens) (op : Operation) :
    Effect env s op (op.perform env s) := by
  have hnothing (hidle : op.MayIdle) (hsame : op.perform env s = s) :
      Effect env s op (op.perform env s) := by
    rw [hsame]
    exact .nothing hidle
  have hdone {t : Store} (hmade : op.perform env s = t) (heffect : Effect env s op t) :
      Effect env s op (op.perform env s) := hmade ▸ heffect
  cases op with
  | upsert p type data json => exact hdone (Documents.upsert_outcome data json) (.upsert ..)
  | delete p type =>
    have hdeleted : (delete p type).perform env s = s.withoutDocument env p type :=
      Documents.delete_outcome
    cases hrow : s.document? p type.name with
    | none => exact hnothing trivial (hdeleted.trans (Store.withoutDocument_of_none hrow))
    | some row => exact hdone (hdeleted.trans (Store.withoutDocument_of_some hrow)) (.delete hrow)
  | enqueue p type action oldData newData => exact .enqueue ..
  | addEvent cells =>
    rcases Foreign.addEvent_outcome s cells with hsame | ⟨event, hid, hadded⟩
    · exact hnothing trivial hsame
    · exact hdone hadded (.addEvent cells hid)
  | addDocument cells =>
    rcases Foreign.addDocument_outcome env s cells with hsame | ⟨row, hid, hfree, hadded⟩
    · exact hnothing trivial hsame
    · exact hdone hadded (.addDocument cells hid hfree)
  | changeRows table p column cell =>
    cases table with
    | documents =>
      rcases Foreign.updateDocuments_outcome (P := Replaces env.clock s) .refl
        (fun t old row hid ht => ht.tail ⟨old, row, hid, rfl⟩) p column cell with
        hsame | ⟨hreplaces, hkeys⟩
      · exact hnothing trivial hsame
      · exact .changeDocuments p column cell hreplaces hkeys
    | events =>
      rcases Foreign.updateEvents_outcome env s p column cell with
        hsame | ⟨queue, hchange, hupdated⟩
      · exact hnothing trivial hsame
      · exact hdone hupdated (.changeEvents hchange)
  | deleteRows table p =>
    cases table with
    | documents => exact .deleteDocuments p
    | events => exact .deleteEvents p
  | pass owner strict ttl => exact .pass owner strict ttl
  | requeue => exact .requeue
  | createSpace p title owner suffix =>
    rcases Spaces.create_made quiet s p title owner suffix with hsame | ⟨hfree, slug, hslug, hmade⟩
    · exact hnothing trivial hsame
    · exact hdone hmade (.createSpace owner suffix hfree hslug)
  | expel p q =>
    cases hspace : s.space? p with
    | none => exact hnothing trivial (Command.outcome_of_error (Spaces.expel_of_no_space hspace q))
    | some space =>
      cases hrow : s.nodeRow? q with
      | none =>
        exact hnothing trivial (Command.outcome_of_error (Spaces.expel_of_no_node hspace hrow))
      | some row =>
        exact hdone (Command.outcome_of_ok (Spaces.expel_of_some h hspace hrow))
          (.expel hspace hrow)
  | setTitle p title =>
    cases hrow : s.nodeRow? p with
    | none => exact hnothing trivial (Command.outcome_of_error (Nodes.setTitle_of_none hrow title))
    | some row =>
      exact hdone (Command.outcome_of_ok (Nodes.setTitle_of_some h hrow title))
        (.setTitle hrow title)
  | setRemoved removed p =>
    cases hnode : s.hasNode p with
    | false =>
      exact hnothing trivial (Command.outcome_of_error (Nodes.setRemoved_of_none hnode removed))
    | true =>
      exact hdone (Command.outcome_of_ok (Nodes.setRemoved_of_some hnode removed))
        (.setRemoved hnode removed)
  | save node =>
    rcases Nodes.save_outcome env s node with hsame | ⟨⟨heditor, hgraph⟩, hsaved⟩
    · exact hnothing trivial hsame
    · exact hdone hsaved (.save heditor hgraph)
  | snapshot owner options time =>
    rcases Snapshot.run_outcome env owner options time s with hsame | ⟨versions, hwritten⟩
    · exact hnothing trivial hsame
    · exact hdone hwritten (.snapshot owner options time versions)

/-! ### Writes of documents and lenient passes -/

/-- What is done where no other program writes, no node is changed by hand and no pass is
strict. -/
def Tame : Operation → Prop
  | upsert _ _ _ _ => True
  | delete _ _ => True
  | pass _ strict _ => strict = false
  | requeue => True
  | createSpace _ _ _ _ => True
  | snapshot _ _ _ => True
  | _ => False

theorem Tame.held {op : Operation} (h : op.Tame) : op.Held := by
  cases op with
  | save node => exact False.elim h
  | _ => trivial

theorem perform_upsert (p : String) (type : DocumentType) (data : List UInt8)
    (json : Option Json) :
    (upsert p type data json).perform env s = s.upserted env p type data json :=
  Documents.upsert_outcome data json

theorem perform_delete (p : String) (type : DocumentType) :
    (delete p type).perform env s = s.withoutDocument env p type :=
  Documents.delete_outcome

/-- Where no lease is out, a pass completes and settles all that is pending. -/
theorem run_of_noLeases (env : Env) (hleases : s.leases = []) (owner : ℕ) (ttl : ℤ) :
    ∃ tally, Pass.run env owner false ttl s = .ok (.completed tally)
      (Lease.release ⟨Lease.processing, owner, Clock.after env.now ttl⟩
        (s.pending.foldl (Pass.settle env)
          (Pass.leased env.now owner Lease.processing ttl s))) := by
  apply Pass.run_lenient env owner ttl
  unfold Lease.isTaken
  rw [hleases]
  rfl

theorem perform_pass (hleases : s.leases = []) (owner : ℕ) (ttl : ℤ) :
    (pass owner false ttl).perform env s =
      Lease.release ⟨Lease.processing, owner, Clock.after env.now ttl⟩
        (s.pending.foldl (Pass.settle env)
          (Pass.leased env.now owner Lease.processing ttl s)) := by
  obtain ⟨tally, hrun⟩ := run_of_noLeases env hleases owner ttl
  exact Command.outcome_of_ok hrun

theorem release_leased (h : s.leases = []) (name : String) (owner : ℕ) (ttl : ℤ) {t : Store}
    (hleases : t.leases = (Pass.leased env.now owner name ttl s).leases) :
    (Lease.release ⟨name, owner, Clock.after env.now ttl⟩ t).leases = [] := by
  show t.leases.filter _ = []
  rw [hleases]
  unfold Pass.leased
  simp [h]

theorem leases_foldl_settle (quiet : env.rivals = {}) (h : s.Sound env.tokens)
    (events : List QueuedEvent) : (events.foldl (Pass.settle env) s).leases = s.leases := by
  induction events generalizing s with
  | nil => rfl
  | cons e rest ih =>
    rw [List.foldl_cons, ih (Pass.settle_sound quiet h e)]
    exact (Pass.settle_frame quiet h.toGraphSound e).2.2

/-- No lease outlasts the operation that took it. -/
theorem leases_perform (quiet : env.rivals = {}) {op : Operation} (hop : op.Tame)
    (h : s.Sound env.tokens) (hleases : s.leases = []) : (op.perform env s).leases = [] := by
  have heffect := op.effect_perform quiet h.toGraphSound
  generalize op.perform env s = t at heffect ⊢
  cases heffect with
  | upsert p type data json =>
    obtain ⟨-, -, -, -, -, hframe⟩ := Store.upserted_frame env s p type data json
    exact hframe.trans hleases
  | pass owner strict ttl =>
    obtain rfl : strict = false := hop
    show ((pass owner false ttl).perform env s).leases = []
    rw [perform_pass hleases]
    exact release_leased hleases _ _ _
      (leases_foldl_settle quiet (Pass.withLeases_sound h _) s.pending)
  | snapshot owner options time versions => exact release_leased hleases _ _ _ rfl
  | nothing | delete | requeue | createSpace => exact hleases
  | _ => exact False.elim hop

end Operation

namespace History

variable {tokens : Tokenizer} {s : Store}

/-- The store after operations, each performed when the clock shows the time beside it. -/
def run (tokens : Tokenizer) (history : List (ℤ × Operation)) (s : Store) : Store :=
  history.foldl (fun s entry => entry.2.perform { clock := entry.1, tokens } s) s

theorem run_append (first second : List (ℤ × Operation)) :
    run tokens (first ++ second) s = run tokens second (run tokens first s) :=
  List.foldl_append

theorem run_sound {history : List (ℤ × Operation)} (hheld : ∀ entry ∈ history, entry.2.Held)
    (h : s.Sound tokens) : (run tokens history s).Sound tokens := by
  induction history generalizing s with
  | nil => exact h
  | cons entry rest ih =>
    have hquiet : ({ clock := entry.1, tokens } : Env).rivals = {} := rfl
    have hstep : (entry.2.perform { clock := entry.1, tokens } s).Sound tokens :=
      Operation.perform_sound hquiet (hheld entry List.mem_cons_self) h
    exact ih (fun other hother => hheld other (List.mem_cons_of_mem _ hother)) hstep

end History
end NodeGraph
