import NodeGraph.Proofs.Pass

/-!
Events that writes of documents have queued, and the letters and replays they turn into: their
kinds are known, and what becomes of them depends on their values and on the space they ask for.
-/
namespace NodeGraph

/-- Public id and type: what a document is known by. -/
abbrev DocumentKey := String × String

def DocumentRow.key (row : DocumentRow) : DocumentKey :=
  (row.publicId, row.type)

def QueuedEvent.key (e : QueuedEvent) : DocumentKey :=
  (e.publicId, e.type)

def DeadLetter.key (letter : DeadLetter) : DocumentKey :=
  (letter.publicId, letter.type)

/-- The type and the action of an event are names that are known. -/
def IsNamed (type action : String) : Prop :=
  (∃ t : DocumentType, type = t.name) ∧ ∃ a : Action, action = a.name

theorem Action.name_injective {a b : Action} (h : a.name = b.name) : a = b :=
  Except.ok.inj ((Action.ofName_name a).symm.trans (h ▸ Action.ofName_name b))

theorem DocumentType.name_injective {a b : DocumentType} (h : a.name = b.name) : a = b :=
  Except.ok.inj ((DocumentType.ofName_name a).symm.trans (h ▸ DocumentType.ofName_name b))

/-- A value that a write has put into a column, and that is read back as it was. -/
def Written (text : Option String) : Prop :=
  ∃ json : Option Json, (∀ v ∈ json, v.Sound ∧ v.ReadsBack) ∧ text = json.map Json.compact

theorem written_none : Written none :=
  ⟨none, by simp, rfl⟩

theorem written_compact {json : Option Json} (h : ∀ v ∈ json, v.Sound ∧ v.ReadsBack) :
    Written (json.map Json.compact) :=
  ⟨json, h, rfl⟩

theorem map_reread_of_readsBack {json : Option Json} (h : ∀ v ∈ json, v.Sound ∧ v.ReadsBack) :
    json.map Json.reread = json := by
  cases json with
  | none => rfl
  | some v => rw [Option.map_some, Json.reread_of_readsBack (h v rfl).1.fits (h v rfl).2]

theorem decodePayload_of_readsBack {json : Option Json} (h : ∀ v ∈ json, v.Sound ∧ v.ReadsBack) :
    decodePayload (json.map Json.compact) = .ok json := by
  rw [decodePayload_compact fun v hv => (h v hv).1, map_reread_of_readsBack h]

theorem Written.decode {text : Option String} (h : Written text) :
    ∃ json, decodePayload text = .ok json ∧ ∀ v ∈ json, v.Sound ∧ v.ReadsBack := by
  obtain ⟨json, hjson, rfl⟩ := h
  exact ⟨json, decodePayload_of_readsBack hjson, hjson⟩

namespace QueuedEvent

variable {e : QueuedEvent} {s : Store}

theorem kinds_of_isNamed {t : DocumentType} {a : Action} (ht : e.type = t.name)
    (ha : e.action = a.name) : e.kinds = .ok (t, a) := by
  unfold kinds
  rw [ht, ha, DocumentType.ofName_name, Action.ofName_name]
  rfl

/-- Kinds that are known are those of the columns. -/
theorem names_of_kinds {t : DocumentType} {a : Action} (h : e.kinds = .ok (t, a)) :
    t.name = e.type ∧ a.name = e.action := by
  unfold kinds DocumentType.ofName Action.ofName at h
  simp only [bind, Except.bind, pure, Except.pure] at h
  cases htype : DocumentType.all.find? (fun t => t.name = e.type) with
  | none => simp [htype] at h
  | some t =>
    cases haction : Action.all.find? (fun a => a.name = e.action) with
    | none => simp [htype, haction] at h
    | some a =>
      simp only [htype, haction, Except.ok.injEq, Prod.mk.injEq] at h
      rw [← h.1, ← h.2]
      exact ⟨by simpa using List.find?_some htype, by simpa using List.find?_some haction⟩

/-- The type and the action of an event that is understood are those of its columns. -/
theorem names_of_decode {event : Event} (h : e.decode = .ok event) :
    event.type.name = e.type ∧ event.action.name = e.action :=
  names_of_kinds (decode_eq_ok.mp h).1

/-- A named event is not dropped: it fails, or its plan is carried out. -/
theorem verdict_cases (h : IsNamed e.type e.action) (s : Store) :
    (∃ fault, e.decode = .error fault ∧ e.verdict s = .buried fault) ∨
      ∃ event, e.decode = .ok event ∧
        ((∃ fault, (Plan.ofEvent event).obstacle? s = some fault ∧
            e.verdict s = .buried fault) ∨
          (Plan.ofEvent event).obstacle? s = none ∧
            e.verdict s = .carried (Plan.ofEvent event)) := by
  obtain ⟨⟨t, ht⟩, a, ha⟩ := h
  unfold verdict
  rw [kinds_of_isNamed ht ha]
  dsimp only
  cases e.decode with
  | error fault => exact Or.inl ⟨fault, rfl, rfl⟩
  | ok event =>
    right
    refine ⟨event, rfl, ?_⟩
    cases hobstacle : (Plan.ofEvent event).obstacle? s with
    | some fault => exact Or.inl ⟨fault, rfl, by simp [hobstacle]⟩
    | none => exact Or.inr ⟨rfl, by simp [hobstacle]⟩

/-- An event that is understood fails if something is in the way of its plan, and otherwise its plan
is carried out. -/
theorem verdict_of_decode {event : Event} (h : e.decode = .ok event) (s : Store) :
    (∃ fault, (Plan.ofEvent event).obstacle? s = some fault ∧ e.verdict s = .buried fault) ∨
      (Plan.ofEvent event).obstacle? s = none ∧ e.verdict s = .carried (Plan.ofEvent event) := by
  obtain ⟨htype, haction⟩ := names_of_decode h
  rcases e.verdict_cases ⟨⟨_, htype.symm⟩, _, haction.symm⟩ s with
    ⟨fault, hfault, -⟩ | ⟨other, hother, hcase⟩
  · rw [h] at hfault
    exact nomatch hfault
  · obtain rfl : other = event := Except.ok.inj (hother.symm.trans h)
    exact hcase

/-- An event with values that were written is understood. -/
theorem decode_of_written (h : IsNamed e.type e.action) (hold : Written e.oldData)
    (hnew : Written e.newData) :
    ∃ event, e.decode = .ok event ∧ ∀ v ∈ event.newData, v.Sound ∧ v.ReadsBack := by
  obtain ⟨⟨t, ht⟩, a, ha⟩ := h
  obtain ⟨oldData, holdData, -⟩ := hold.decode
  obtain ⟨newData, hnewData, hback⟩ := hnew.decode
  refine ⟨{ e with type := t, action := a, oldData, newData }, ?_, hback⟩
  exact decode_eq_ok.mpr ⟨kinds_of_isNamed ht ha, holdData, hnewData, rfl, rfl, rfl⟩

end QueuedEvent

namespace Plan

/-- The plans that an event asks for, by its action, its type and its value. -/
inductive Asked (event : Event) : Plan → Prop
  | deleted (h : event.action = .delete) : Asked event (.ignore .deleted)
  | editor (h : event.action ≠ .delete) (ht : event.type = .editor) :
    Asked event (.editor event.publicId (event.newData.getD .null))
  | space (h : event.action ≠ .delete) (ht : event.type = .space) (data : Json)
    (hd : event.newData = some data) : Asked event (.space event.publicId (titlesIn data))
  | missing (h : event.action ≠ .delete) (ht : event.type = .space) (hd : event.newData = none) :
    Asked event (.ignore .missingPayload)
  | graph (h : event.action ≠ .delete) (he : event.type ≠ .editor) (hs : event.type ≠ .space) :
    Asked event (.graph event.publicId event.type (graphKind event.type)
      (childrenIn event.newData))

theorem asked (event : Event) : Asked event (ofEvent event) := by
  obtain ⟨id, p, type, action, oldData, newData, createdAt⟩ := event
  cases action with
  | delete => exact .deleted rfl
  | insert =>
    cases type with
    | editor => exact .editor (by simp) rfl
    | space =>
      cases newData with
      | none => exact .missing (by simp) rfl rfl
      | some data => exact .space (by simp) rfl data rfl
    | graph => exact .graph (by simp) (by simp) (by simp)
    | methodGraph => exact .graph (by simp) (by simp) (by simp)
  | update =>
    cases type with
    | editor => exact .editor (by simp) rfl
    | space =>
      cases newData with
      | none => exact .missing (by simp) rfl rfl
      | some data => exact .space (by simp) rfl data rfl
    | graph => exact .graph (by simp) (by simp) (by simp)
    | methodGraph => exact .graph (by simp) (by simp) (by simp)

/-- The plan of an event is short if what it lists under a space is. -/
theorem short_ofEvent {event : Event}
    (h : event.type = .space → ∀ v ∈ event.newData, 2 * (titlesIn v).length ≤ maxParameters) :
    (ofEvent event).Short := by
  have hasked := asked event
  generalize ofEvent event = plan at hasked ⊢
  cases hasked with
  | space _ htype data hdata => exact h htype data hdata
  | _ => trivial

/-- Why an event of a space cannot be carried out: the space is not there, or there are too many
nodes in its listing. -/
inductive Obstructed (event : Event) (s : Store) : Fault → Prop
  | lacking (hnone : s.space? event.publicId = none) :
    Obstructed event s (.missingSpace event.publicId)
  | overfull (row : Space) (hrow : s.space? event.publicId = some row) (data : Json)
    (hdata : event.newData = some data) (hfits : Reconcile.fits (titlesIn data) s = false) :
    Obstructed event s .tooManyParameters

/-- Only an event of a space meets an obstacle. -/
theorem obstacle?_ofEvent {event : Event} {s : Store} {fault : Fault}
    (h : (ofEvent event).obstacle? s = some fault) :
    event.type = .space ∧ Obstructed event s fault := by
  have hasked := asked event
  generalize ofEvent event = plan at h hasked
  cases hasked with
  | space _ htype data hdata =>
    refine ⟨htype, ?_⟩
    cases hrow : s.space? event.publicId with
    | none =>
      rw [obstacle?_of_no_space hrow] at h
      obtain rfl := Option.some.inj h
      exact .lacking hrow
    | some row =>
      rw [obstacle?_of_space hrow] at h
      cases hfits : Reconcile.fits (titlesIn data) s with
      | true => simp [hfits] at h
      | false =>
        rw [hfits] at h
        obtain rfl := Option.some.inj h
        exact .overfull row hrow data hdata hfits
  | deleted => exact nomatch h
  | editor => exact nomatch h
  | missing => exact nomatch h
  | graph => exact nomatch h

end Plan
end NodeGraph
