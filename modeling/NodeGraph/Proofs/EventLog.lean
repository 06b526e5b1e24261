import NodeGraph.Proofs.Events
import NodeGraph.Proofs.Store.Documents
import NodeGraph.Workspace

/-!
The event log: every write through the workspace queues one event if it changes a document, and
the events of a document tell one after the other how it came to be what it is. A notice goes out
with each event but those of values that are nested too deep to be read back.
-/
namespace NodeGraph

open Store

/-! ### What events tell -/

namespace QueuedEvent

variable {e f : QueuedEvent} {before after : Option (Option String)}

/-- The event tells how what is known of its document changes: `none` while there is no document,
else the text of its value. -/
inductive Tells (e : QueuedEvent) : Option (Option String) → Option (Option String) → Prop
  | insert (haction : e.action = Action.insert.name) (hold : e.oldData = none) :
    Tells e none (some e.newData)
  | update (haction : e.action = Action.update.name) : Tells e (some e.oldData) (some e.newData)
  | delete (haction : e.action = Action.delete.name) (hnew : e.newData = none) :
    Tells e (some e.oldData) none

/-- What the event leaves of its document. -/
def remainder (e : QueuedEvent) : Option (Option String) :=
  if e.action = Action.delete.name then none else some e.newData

theorem Tells.remainder_eq (h : e.Tells before after) : e.remainder = after := by
  cases h with
  | insert haction => exact if_neg (by rw [haction]; decide)
  | update haction => exact if_neg (by rw [haction]; decide)
  | delete haction => exact if_pos haction

/-- The second event goes on from the first: it inserts what was deleted, or else its old value is
the new value of the first. -/
def Continues (e f : QueuedEvent) : Prop :=
  (f.action = Action.insert.name ↔ e.action = Action.delete.name) ∧
    (f.action ≠ Action.insert.name → f.oldData = e.newData)

theorem remainder_eq_none : e.remainder = none ↔ e.action = Action.delete.name := by
  unfold remainder
  split <;> simp_all

theorem remainder_eq_some {text : Option String} :
    e.remainder = some text ↔ e.action ≠ Action.delete.name ∧ e.newData = text := by
  unfold remainder
  split <;> simp_all

theorem continues_of_ne_insert (h : f.action ≠ Action.insert.name)
    (hbefore : e.remainder = some f.oldData) : e.Continues f := by
  obtain ⟨hdelete, hnew⟩ := remainder_eq_some.mp hbefore
  exact ⟨⟨fun heq => absurd heq h, fun heq => absurd heq hdelete⟩, fun _ => hnew.symm⟩

theorem Tells.continues (h : f.Tells before after) (hbefore : e.remainder = before) :
    e.Continues f := by
  cases h with
  | insert haction =>
    have hdelete := remainder_eq_none.mp hbefore
    exact ⟨⟨fun _ => hdelete, fun _ => haction⟩, fun hne => absurd haction hne⟩
  | update haction => exact continues_of_ne_insert (by rw [haction]; decide) hbefore
  | delete haction => exact continues_of_ne_insert (by rw [haction]; decide) hbefore

theorem Tells.exists_action (h : e.Tells before after) :
    ∃ action, e.action = Action.name action := by
  cases h with
  | insert haction => exact ⟨_, haction⟩
  | update haction => exact ⟨_, haction⟩
  | delete haction => exact ⟨_, haction⟩

end QueuedEvent

/-- The events tell, one after the other, what became of a document that was not there at first. -/
inductive Chronicle : List QueuedEvent → Option (Option String) → Prop
  | nil : Chronicle [] none
  | concat {events : List QueuedEvent} {e : QueuedEvent} {before after : Option (Option String)}
      (earlier : Chronicle events before) (last : e.Tells before after) :
    Chronicle (events ++ [e]) after

/-- The laws of the events of one document, and what is known of it by them. -/
structure IsHistory (events : List QueuedEvent) (known : Option (Option String)) : Prop where
  named : ∀ e ∈ events, ∃ action, e.action = Action.name action
  first : ∀ e ∈ events.head?, e.action = Action.insert.name
  next : events.IsChain QueuedEvent.Continues
  folded : events.foldl (fun _ e => e.remainder) none = known

namespace Chronicle

variable {events : List QueuedEvent} {known : Option (Option String)}

theorem foldl_eq (h : Chronicle events known) :
    events.foldl (fun _ e => e.remainder) none = known := by
  cases h with
  | nil => rfl
  | concat _ last =>
    rw [List.foldl_append]
    exact last.remainder_eq

theorem remainder_of_getLast? (h : Chronicle events known) {e : QueuedEvent}
    (he : e ∈ events.getLast?) : e.remainder = known := by
  cases h with
  | nil => exact nomatch he
  | concat _ last =>
    rw [List.getLast?_concat] at he
    obtain rfl := Option.some.inj he
    exact last.remainder_eq

/-- Only an insertion stands at the beginning, since nothing is known before it. -/
theorem isHistory (h : Chronicle events known) : IsHistory events known := by
  refine ⟨?_, ?_, ?_, h.foldl_eq⟩
  · induction h with
    | nil => exact fun _ he => absurd he List.not_mem_nil
    | concat earlier last ih =>
      exact List.forall_mem_append.mpr ⟨ih, List.forall_mem_singleton.mpr last.exists_action⟩
  · induction h with
    | nil => exact fun _ he => nomatch he
    | @concat events e before after earlier last ih =>
      cases events with
      | nil =>
        obtain rfl : none = before := earlier.foldl_eq
        rintro _ ⟨⟩
        cases last with
        | insert haction => exact haction
      | cons first rest => exact ih
  · induction h with
    | nil => exact List.IsChain.nil
    | @concat events e before after earlier last ih =>
      refine List.isChain_append.mpr ⟨ih, List.isChain_singleton _, fun f hf g hg => ?_⟩
      obtain rfl : e = g := Option.some.inj hg
      exact last.continues (earlier.remainder_of_getLast? hf)

end Chronicle

/-! ### What a write leaves in the log -/

namespace Store

variable {tokens : Tokenizer} {s t : Store} {env : Env} {p : String} {type : DocumentType}

/-- The queued events of a document. -/
def eventsOf (s : Store) (p : String) (type : DocumentType) : List QueuedEvent :=
  s.queue.rows.filter (·.key = (p, type.name))

/-- The text of the value of a document; `none` if there is no document. -/
def known (s : Store) (p : String) (type : DocumentType) : Option (Option String) :=
  (s.document? p type.name).map (·.json)

/-- Exactly one event has been queued. It tells what became of the document, and what is known of
every other one is what it was. -/
def Logs (s t : Store) (p : String) (type : DocumentType) : Prop :=
  ∃ e : QueuedEvent, t.queue.rows = s.queue.rows ++ [e] ∧ e.key = (p, type.name) ∧
    e.Tells (s.known p type) (t.known p type) ∧
    ∀ q type', ¬(q = p ∧ type' = type) → t.known q type' = s.known q type'

theorem key_ne {q : String} {type' : DocumentType} (h : ¬(q = p ∧ type' = type)) :
    ¬(q = p ∧ type'.name = type.name) :=
  fun heq => h ⟨heq.1, DocumentType.name_injective heq.2⟩

theorem known_eq_none : s.known p type = none ↔ s.document? p type.name = none :=
  Option.map_eq_none_iff

theorem known_upserted (h : s.Sound tokens) (env : Env) (p : String) (type : DocumentType)
    (data : List UInt8) (json : Option Json) :
    (s.upserted env p type data json).known p type = some (json.map Json.compact) := by
  obtain ⟨row, -, -, hjson, -, hdocument⟩ := document?_upserted h env p type data json
  unfold known
  rw [hdocument, if_pos ⟨rfl, rfl⟩, Option.map_some, hjson]

theorem logs_upserted (h : s.Sound tokens) (env : Env) (p : String) (type : DocumentType)
    (data : List UInt8) (json : Option Json) : s.Logs (s.upserted env p type data json) p type := by
  have hothers (q : String) (type' : DocumentType) (hne : ¬(q = p ∧ type' = type)) :
      (s.upserted env p type data json).known q type' = s.known q type' := by
    unfold known
    rw [document?_upserted_of_ne h (key_ne hne)]
  unfold Logs
  cases hold : s.document? p type.name with
  | none =>
    refine ⟨_, congrArg Table.rows (queue_upserted_of_none hold data json), rfl, ?_, hothers⟩
    unfold known
    rw [hold, document?_upserted_of_none hold]
    exact .insert rfl rfl
  | some old =>
    refine ⟨_, congrArg Table.rows (queue_upserted_of_some hold data json), rfl, ?_, hothers⟩
    unfold known
    rw [hold, document?_upserted_of_some h hold]
    exact .update rfl

theorem known_deleteDocument (h : s.Sound tokens) (clock : ℤ) {row : DocumentRow}
    (hrow : s.document? p type.name = some row) (q : String) (type' : DocumentType) :
    (s.deleteDocument clock row).known q type' =
      if q = p ∧ type' = type then none else s.known q type' := by
  obtain ⟨hmem, hpublicId, htype⟩ := h.document?_eq_some.mp hrow
  unfold known
  rw [document?_deleteDocument h hmem, hpublicId, htype]
  split
  · rename_i hkey
    rw [if_pos ⟨hkey.1, DocumentType.name_injective hkey.2⟩, Option.map_none]
  · rename_i hkey
    rw [if_neg fun heq => hkey ⟨heq.1, congrArg DocumentType.name heq.2⟩]

theorem logs_deleteDocument (h : s.Sound tokens) (clock : ℤ) {row : DocumentRow}
    (hrow : s.document? p type.name = some row) : s.Logs (s.deleteDocument clock row) p type := by
  have hknown := known_deleteDocument h clock hrow
  obtain ⟨-, hpublicId, htype⟩ := h.document?_eq_some.mp hrow
  refine ⟨_, rfl, Prod.ext hpublicId htype, ?_, fun q type' hne => ?_⟩
  · rw [hknown, if_pos ⟨rfl, rfl⟩, show s.known p type = some row.json by rw [known, hrow]; rfl]
    exact .delete rfl rfl
  · rw [hknown, if_neg hne]

/-- The event that is queued goes on with the chronicle of its document, and with no other. -/
theorem Logs.chronicle (h : s.Logs t p type) {q : String} {type' : DocumentType}
    (hearlier : Chronicle (s.eventsOf q type') (s.known q type')) :
    Chronicle (t.eventsOf q type') (t.known q type') := by
  obtain ⟨e, hrows, hkey, htells, hothers⟩ := h
  unfold eventsOf at hearlier ⊢
  rw [hrows, List.filter_append]
  by_cases heq : q = p ∧ type' = type
  · obtain ⟨rfl, rfl⟩ := heq
    rw [List.filter_singleton, decide_eq_true hkey]
    exact hearlier.concat htells
  · have hne : e.key ≠ (q, type'.name) := by
      rw [hkey]
      exact fun hkeys => key_ne heq ⟨(Prod.mk.inj hkeys).1.symm, (Prod.mk.inj hkeys).2.symm⟩
    rw [List.filter_singleton, decide_eq_false hne, hothers q type' heq]
    simpa using hearlier

end Store

/-! ### Writes through the workspace -/

/-- What a collaborator asks of the workspace. -/
inductive Write where
  | upsert (publicId : String) (type : DocumentType) (data : List UInt8) (json : Option Json)
  | delete (publicId : String) (type : DocumentType)

/-- The value that is written, if there is one, is not nested too deep to be read back. -/
def Write.Legible : Write → Prop
  | upsert _ _ _ json => ∀ v ∈ json, v.Fits ∧ v.depth ≤ Json.maxDepth
  | delete _ _ => True

/-- A stored row of a known type is read if and only if its value is. -/
theorem DocumentRow.exists_decode_iff {row : DocumentRow} {type : DocumentType}
    (h : row.type = type.name) :
    (∃ document, row.decode = .ok document) ↔ ∃ value, decodePayload row.json = .ok value := by
  unfold decode
  rw [h, DocumentType.ofName_name]
  cases decodePayload row.json <;> simp [bind, Except.bind, pure, Except.pure]

theorem Command.exists_outcome_decoded_iff {α : Type} {r : Except Fault α} {s : Store} :
    (∃ a, ((decoded r).outcome s).1 = .ok a) ↔ ∃ a, r = .ok a := by
  cases r with
  | ok a => exact ⟨fun _ => ⟨a, rfl⟩, fun _ => ⟨a, rfl⟩⟩
  | error fault => exact ⟨fun ⟨_, h⟩ => (nomatch h), fun ⟨_, h⟩ => (nomatch h)⟩

/-- A write is answered with the document if and only if its value is read back. -/
theorem Documents.exists_upsert_iff {env : Env} {s : Store} {p : String} {type : DocumentType}
    {data : List UInt8} {json : Option Json} :
    (∃ document, ((upsert env p type data json).outcome s).1 = .ok document) ↔
      ∃ value, decodePayload (json.map Json.compact) = .ok value := by
  unfold upsert upsertOn
  rw [Database.run_sound, Command.outcome_bind (Command.get_eq s)]
  dsimp only
  cases hold : s.document? p type.name with
  | none => exact Command.exists_outcome_decoded_iff.trans (DocumentRow.exists_decode_iff rfl)
  | some old =>
    exact Command.exists_outcome_decoded_iff.trans
      (DocumentRow.exists_decode_iff (key_of_document? hold).2)

namespace Workspace

variable {channel : String} {w : Workspace} {env : Env} {p : String} {type : DocumentType}
  {data : List UInt8} {json : Option Json}

theorem upsert_eq (w : Workspace) (env : Env) (channel p : String) (type : DocumentType)
    (data : List UInt8) (json : Option Json) : w.upsert env channel p type data json =
      match (Documents.upsert env p type data json).outcome w.store with
      | (.ok document, store) =>
        (.ok document, { w with store }.publish (noticeOf channel p type))
      | (.error fault, store) => (.error fault, { w with store }) := rfl

theorem delete_eq (w : Workspace) (env : Env) (channel p : String) (type : DocumentType) :
    w.delete env channel p type =
      match (Documents.delete env p type).outcome w.store with
      | (.ok true, store) => (.ok true, { w with store }.publish (noticeOf channel p type))
      | (result, store) => (result, { w with store }) := rfl

theorem upsert_store : (w.upsert env channel p type data json).2.store =
    w.store.upserted env p type data json := by
  rw [← Documents.upsert_outcome, upsert_eq]
  cases houtcome : (Documents.upsert env p type data json).outcome w.store with
  | mk result store => cases result <;> rfl

/-- A notice goes out with a write if and only if its value is not nested too deep. -/
theorem upsert_hub (h : ∀ v ∈ json, v.Fits) : (w.upsert env channel p type data json).2.hub =
    if ∀ v ∈ json, v.depth ≤ Json.maxDepth then (w.hub.publish (noticeOf channel p type)).2
    else w.hub := by
  have hread : (∃ document,
      ((Documents.upsert env p type data json).outcome w.store).1 = .ok document) ↔ _ :=
    Documents.exists_upsert_iff.trans (exists_decodePayload_compact_iff h)
  rw [upsert_eq]
  cases houtcome : (Documents.upsert env p type data json).outcome w.store with
  | mk result store =>
    rw [houtcome] at hread
    cases result with
    | ok document =>
      rw [if_pos (hread.mp ⟨document, rfl⟩)]
      rfl
    | error fault =>
      rw [if_neg fun hdepth => nomatch (hread.mpr hdepth).choose_spec]

theorem upsert_hub_of_deep {v : Json} (hfits : v.Fits) (hdeep : Json.maxDepth < v.depth) :
    (w.upsert env channel p type data (some v)).2.hub = w.hub := by
  have hnot : ¬ ∀ v' ∈ some v, v'.depth ≤ Json.maxDepth :=
    fun hshallow => absurd (hshallow v rfl) (Nat.not_le.mpr hdeep)
  have hall : ∀ v' ∈ some v, v'.Fits := by
    rintro v' ⟨⟩
    exact hfits
  rw [upsert_hub hall, if_neg hnot]

theorem delete_of_none (h : w.store.document? p type.name = none) :
    w.delete env channel p type = (.ok false, w) := by
  rw [delete_eq]
  unfold Command.outcome
  rw [Documents.delete_of_none h]

theorem delete_of_some {row : DocumentRow} (h : w.store.document? p type.name = some row) :
    w.delete env channel p type = (.ok true,
      { store := w.store.deleteDocument env.clock row
        hub := (w.hub.publish (noticeOf channel p type)).2 }) := by
  rw [delete_eq]
  unfold Command.outcome
  rw [Documents.delete_of_some h]
  rfl

theorem delete_store :
    (w.delete env channel p type).2.store = w.store.withoutDocument env p type := by
  cases hold : w.store.document? p type.name with
  | none => rw [delete_of_none hold, withoutDocument_of_none hold]
  | some row => rw [delete_of_some hold, withoutDocument_of_some hold]

end Workspace

namespace Write

variable {tokens : Tokenizer} {s : Store} {env : Env} {p : String} {type : DocumentType}

/-- The workspace after the write, whether it is answered or not. -/
def perform (channel : String) (env : Env) : Write → Workspace → Workspace
  | upsert p type data json, w => (w.upsert env channel p type data json).2
  | delete p type, w => (w.delete env channel p type).2

/-- What the write makes of the store. -/
def written (env : Env) : Write → Store → Store
  | upsert p type data json, s => s.upserted env p type data json
  | delete p type, s => s.withoutDocument env p type

theorem perform_store (x : Write) (channel : String) (env : Env) (w : Workspace) :
    (x.perform channel env w).store = x.written env w.store := by
  cases x with
  | upsert => exact Workspace.upsert_store
  | delete => exact Workspace.delete_store

theorem written_sound (h : s.Sound tokens) (x : Write) (env : Env) :
    (x.written env s).Sound tokens := by
  cases x with
  | upsert p type data json => exact upserted_sound h env p type data json
  | delete p type => exact withoutDocument_sound h env p type

theorem chronicle_written (h : s.Sound tokens) (x : Write) (env : Env)
    (hearlier : Chronicle (s.eventsOf p type) (s.known p type)) :
    Chronicle ((x.written env s).eventsOf p type) ((x.written env s).known p type) := by
  cases x with
  | upsert q type' data json => exact (logs_upserted h env q type' data json).chronicle hearlier
  | delete q type' =>
    show Chronicle ((s.withoutDocument env q type').eventsOf p type)
      ((s.withoutDocument env q type').known p type)
    cases hrow : s.document? q type'.name with
    | none =>
      rw [withoutDocument_of_none hrow]
      exact hearlier
    | some row =>
      rw [withoutDocument_of_some hrow]
      exact (logs_deleteDocument h env.clock hrow).chronicle hearlier

/-- Ids that have been given to documents are not given again. -/
theorem nextId_le_written (x : Write) (env : Env) (s : Store) :
    s.documents.nextId ≤ (x.written env s).documents.nextId := by
  cases x with
  | upsert p type data json =>
    show _ ≤ (s.upserted env p type data json).documents.nextId
    unfold upserted
    split <;> exact Int.le_add_one le_rfl
  | delete p type =>
    show _ ≤ (s.withoutDocument env p type).documents.nextId
    unfold withoutDocument
    split <;> exact le_rfl

/-- A document that a write does not delete keeps its id and the time it was made. -/
theorem document?_written (h : s.Sound tokens) {x : Write} (hx : x ≠ .delete p type) (env : Env)
    {row : DocumentRow} (hrow : s.document? p type.name = some row) :
    ∃ row' ∈ (x.written env s).document? p type.name,
      row'.id = row.id ∧ row'.createdAt = row.createdAt := by
  cases x with
  | upsert q type' data json =>
    by_cases heq : p = q ∧ type = type'
    · obtain ⟨rfl, rfl⟩ := heq
      exact ⟨_, document?_upserted_of_some h hrow data json, rfl, rfl⟩
    · exact ⟨row, (document?_upserted_of_ne h (key_ne heq) data json).trans hrow, rfl, rfl⟩
  | delete q type' =>
    have hne : ¬(p = q ∧ type = type') := fun heq => hx (by rw [heq.1, heq.2])
    refine ⟨row, ?_, rfl, rfl⟩
    show (s.withoutDocument env q type').document? p type.name = some row
    cases hother : s.document? q type'.name with
    | none => rwa [withoutDocument_of_none hother]
    | some other =>
      obtain ⟨hmem, hpublicId, htype⟩ := h.document?_eq_some.mp hother
      rw [withoutDocument_of_some hother, document?_deleteDocument h hmem, hpublicId, htype,
        if_neg (key_ne hne)]
      exact hrow

end Write

namespace Workspace

variable {tokens : Tokenizer} {channel : String} {w : Workspace} {p : String} {type : DocumentType}

/-- The workspace after several writes. -/
def run (channel : String) (writes : List (Env × Write)) (w : Workspace) : Workspace :=
  writes.foldl (fun w entry => entry.2.perform channel entry.1 w) w

theorem run_append (first second : List (Env × Write)) :
    run channel (first ++ second) w = run channel second (run channel first w) :=
  List.foldl_append

theorem run_sound (writes : List (Env × Write)) (h : w.store.Sound tokens) :
    (run channel writes w).store.Sound tokens := by
  induction writes generalizing w with
  | nil => exact h
  | cons entry rest ih =>
    refine ih ?_
    rw [Write.perform_store]
    exact Write.written_sound h entry.2 entry.1

theorem chronicle_run (writes : List (Env × Write)) (h : w.store.Sound tokens)
    (hearlier : Chronicle (w.store.eventsOf p type) (w.store.known p type)) :
    Chronicle ((run channel writes w).store.eventsOf p type)
      ((run channel writes w).store.known p type) := by
  induction writes generalizing w with
  | nil => exact hearlier
  | cons entry rest ih =>
    refine ih ?_ ?_ <;> rw [Write.perform_store]
    · exact Write.written_sound h entry.2 entry.1
    · exact Write.chronicle_written h entry.2 entry.1 hearlier

theorem nextId_le_run (writes : List (Env × Write)) :
    w.store.documents.nextId ≤ (run channel writes w).store.documents.nextId := by
  induction writes generalizing w with
  | nil => exact le_rfl
  | cons entry rest ih =>
    refine le_trans ?_ ih
    rw [Write.perform_store]
    exact Write.nextId_le_written entry.2 entry.1 w.store

theorem document?_run {writes : List (Env × Write)} (h : w.store.Sound tokens)
    (hwrites : ∀ entry ∈ writes, entry.2 ≠ .delete p type) {row : DocumentRow}
    (hrow : w.store.document? p type.name = some row) :
    ∃ row' ∈ (run channel writes w).store.document? p type.name,
      row'.id = row.id ∧ row'.createdAt = row.createdAt := by
  induction writes generalizing w row with
  | nil => exact ⟨row, hrow, rfl, rfl⟩
  | cons entry rest ih =>
    obtain ⟨hentry, hrest⟩ := List.forall_mem_cons.mp hwrites
    obtain ⟨next, hnext, hid, hcreated⟩ := Write.document?_written h hentry entry.1 hrow
    rw [← Write.perform_store entry.2 channel] at hnext
    obtain ⟨last, hlast, hid', hcreated'⟩ := ih
      (by rw [Write.perform_store]; exact Write.written_sound h entry.2 entry.1) hrest hnext
    exact ⟨last, hlast, hid'.trans hid, hcreated'.trans hcreated⟩

/-- A write queues its event, and publishes its notice unless its value is nested too deep. -/
theorem upsert_logs (h : w.store.Sound tokens) (env : Env) (data : List UInt8)
    (json : Option Json) :
    let u := (w.upsert env channel p type data json).2
    w.store.Logs u.store p type ∧ u.store.known p type = some (json.map Json.compact) ∧
      ((∀ v ∈ json, v.Fits) → u.hub =
        if ∀ v ∈ json, v.depth ≤ Json.maxDepth then (w.hub.publish (noticeOf channel p type)).2
        else w.hub) := by
  intro u
  have hstore : u.store = w.store.upserted env p type data json := upsert_store
  rw [hstore]
  exact ⟨logs_upserted h env p type data json, known_upserted h env p type data json, upsert_hub⟩

/-- A deletion does nothing, or queues its event and publishes its notice. -/
theorem delete_logs (h : w.store.Sound tokens) (env : Env) :
    let u := (w.delete env channel p type).2
    (w.store.known p type = none → u = w) ∧
      (w.store.known p type ≠ none →
        w.store.Logs u.store p type ∧ u.store.known p type = none ∧
          u.hub = (w.hub.publish (noticeOf channel p type)).2) := by
  intro u
  cases hrow : w.store.document? p type.name with
  | none =>
    refine ⟨fun _ => congrArg Prod.snd (delete_of_none hrow), fun hne => ?_⟩
    exact absurd (known_eq_none.mpr hrow) hne
  | some row =>
    have hu : u = _ := congrArg Prod.snd (delete_of_some hrow)
    rw [hu]
    refine ⟨fun hnone => ?_, fun _ => ⟨logs_deleteDocument h env.clock hrow, ?_, rfl⟩⟩
    · rw [known_eq_none.mp hnone] at hrow
      cases hrow
    · rw [known_deleteDocument h env.clock hrow, if_pos ⟨rfl, rfl⟩]

/-- The next id is above those of all documents there have been. -/
theorem id_lt_nextId {first writes : List (Env × Write)} (h : w.store.Sound tokens)
    (hfirst : first <+: writes) {other : DocumentRow}
    (hother : other ∈ (run channel first w).store.documents.rows) :
    other.id < (run channel writes w).store.documents.nextId := by
  obtain ⟨rest, rfl⟩ := hfirst
  rw [run_append]
  exact ((run_sound first h).documentIds.lt_nextId other hother).trans_le (nextId_le_run rest)

/-- **The event log is a faithful history.** Of any writes to an empty store: the events of a
document, in the order of their ids, begin with an insertion, go on from one another and come to
the document that there is. Writing it once more queues one event that carries the value, and
publishes one notice exactly if the value is not nested too deep to be read back; deleting it queues
one event and publishes one notice if it is there, and otherwise does nothing. It keeps its id and
the time it was made until it is deleted, and when it is made anew it takes an id that no document
ever had. -/
theorem log_faithful (channel : String) (hub : Hub) (writes : List (Env × Write)) (p : String)
    (type : DocumentType) :
    let w := run channel writes { hub }
    ((w.store.eventsOf p type).Pairwise (·.id < ·.id) ∧
      IsHistory (w.store.eventsOf p type) (w.store.known p type)) ∧
    (∀ env data json, let u := (w.upsert env channel p type data json).2
      w.store.Logs u.store p type ∧ u.store.known p type = some (json.map Json.compact) ∧
      ((∀ v ∈ json, v.Fits) → u.hub =
        if ∀ v ∈ json, v.depth ≤ Json.maxDepth then (w.hub.publish (noticeOf channel p type)).2
        else w.hub)) ∧
    (∀ env, let u := (w.delete env channel p type).2
      (w.store.known p type = none → u = w) ∧
      (w.store.known p type ≠ none →
        w.store.Logs u.store p type ∧ u.store.known p type = none ∧
        u.hub = (w.hub.publish (noticeOf channel p type)).2)) ∧
    (∀ more, (∀ entry ∈ more, entry.2 ≠ .delete p type) →
      ∀ row ∈ w.store.document? p type.name,
        ∃ row' ∈ (run channel more w).store.document? p type.name,
          row'.id = row.id ∧ row'.createdAt = row.createdAt) ∧
    ∀ env data json, w.store.document? p type.name = none →
      ∃ row ∈ (w.upsert env channel p type data json).2.store.document? p type.name,
        ∀ before, before <+: writes →
          ∀ other ∈ (run channel before { hub }).store.documents.rows, other.id < row.id := by
  intro w
  have hempty : ({ hub } : Workspace).store.Sound fun _ => 0 := sound_empty _
  have hsound : w.store.Sound fun _ => 0 := run_sound writes hempty
  refine ⟨⟨?_, (chronicle_run writes hempty .nil).isHistory⟩, ?_, ?_, ?_, ?_⟩
  · exact (List.pairwise_map.mp hsound.queueIds.1).sublist List.filter_sublist
  · exact fun env data json => upsert_logs hsound env data json
  · exact fun env => delete_logs hsound env
  · exact fun more hmore row hrow => document?_run hsound hmore hrow
  · intro env data json hnone
    rw [upsert_store]
    exact ⟨_, document?_upserted_of_none hnone data json,
      fun before hbefore other hother => id_lt_nextId hempty hbefore hother⟩

/-- A document that was made, deleted and made anew. -/
theorem log_faithful_anew :
    let env : Env := { clock := 1000, tokens := fun _ => 0 }
    let made := run "document_events" [(env, .upsert "x" .editor [] none)]
      { hub := (Hub.subscribe {}).2 }
    let gone := (made.delete env "document_events" "x" .editor).2
    let anew := (gone.upsert env "document_events" "x" .editor [] (some (.arr []))).2
    (made.store.known "x" .editor ≠ none ∧ made.store.Logs gone.store "x" .editor ∧
      gone.hub = (made.hub.publish ⟨"document_events", "EDITOR x"⟩).2) ∧
    gone.store.Logs anew.store "x" .editor ∧
    anew.hub = (gone.hub.publish ⟨"document_events", "EDITOR x"⟩).2 ∧
    gone.store.document? "x" "EDITOR" = none ∧
    (∃ row ∈ anew.store.document? "x" "EDITOR", 1 < row.id) ∧
    let again := run "document_events" [(env, .upsert "x" .editor [1] (some .null))] made
    ∃ row ∈ again.store.document? "x" "EDITOR", row.id = 1 := by
  intro env made gone anew
  have hknown : made.store.known "x" .editor ≠ none := by decide
  have hnone : gone.store.document? "x" "EDITOR" = none := by decide
  have hfits : ∀ v ∈ some (Json.arr []), v.Fits := by
    rintro v ⟨⟩
    trivial
  have hmade := log_faithful "document_events" (Hub.subscribe {}).2
    [(env, .upsert "x" .editor [] none)] "x" .editor
  have hgone := log_faithful "document_events" (Hub.subscribe {}).2
    [(env, .upsert "x" .editor [] none), (env, .delete "x" .editor)] "x" .editor
  obtain ⟨hdeleted, -, hdeletedHub⟩ := (hmade.2.2.1 env).2 hknown
  obtain ⟨hmadeAnew, -, hmadeAnewHub⟩ := hgone.2.1 env [] (some (.arr []))
  refine ⟨⟨hknown, hdeleted, hdeletedHub⟩, hmadeAnew, hmadeAnewHub hfits, hnone, ?_, ?_⟩
  · obtain ⟨row, hrow, hfresh⟩ := hgone.2.2.2.2 env [] (some (.arr [])) hnone
    exact ⟨row, hrow, hfresh [(env, .upsert "x" .editor [] none)] ⟨_, rfl⟩ _
      (List.mem_singleton.mpr rfl)⟩
  · obtain ⟨row, hrow, hid, -⟩ := hmade.2.2.2.1 [(env, .upsert "x" .editor [1] (some .null))]
      (by simp) _ rfl
    exact ⟨row, hrow, hid⟩

/-- The first document of an empty store, with arrays that are nested one too many deep: its event
is queued, and the one who listens receives nothing. -/
theorem deep_unannounced :
    let w : Workspace := { hub := (Hub.subscribe {}).2 }
    let env : Env := { clock := 1000, tokens := fun _ => 0 }
    let u := (w.upsert env "document_events" "x" .editor [] (some (Json.nested 128))).2
    w.store.Logs u.store "x" .editor ∧ (w.hub.receive 0).1 = some .empty ∧
      (u.hub.receive 0).1 = some .empty ∧
      ((w.hub.publish ⟨"document_events", "EDITOR x"⟩).2.receive 0).1 =
        some (.notice ⟨"document_events", "EDITOR x"⟩) := by
  have hdeep : Json.maxDepth < (Json.nested 128).depth := by
    rw [Json.depth_nested]
    decide
  -- Names for the workspaces would have the kernel run the write to compare them.
  dsimp only
  rw [upsert_hub_of_deep (Json.fits_nested 128) hdeep]
  exact ⟨(upsert_logs (sound_empty fun _ => 0) _ [] _).1, by decide, by decide, by decide⟩

end Workspace
end NodeGraph
