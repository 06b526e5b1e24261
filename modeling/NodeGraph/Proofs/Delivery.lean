import NodeGraph.Proofs.Persistence
import NodeGraph.Proofs.Reconcile.Facts

/-!
Deliveries: events that have been understood, each applied in a transaction of its own and without
a queue.
-/
namespace NodeGraph

open Store

namespace Event

variable {env : Env} {s : Store} {event : Event}

/-- The event is what some queued row says. -/
def IsRead (event : Event) : Prop :=
  ∃ row : QueuedEvent, row.decode = .ok event

/-- What is reported of an event, and the store that it leaves. -/
def deliver (env : Env) (event : Event) (s : Store) : Except Fault Outcome × Store :=
  (Command.transaction (Reconcile.apply env (Plan.ofEvent event))).outcome s

/-- The store after an event. -/
def after (env : Env) (event : Event) (s : Store) : Store :=
  (event.deliver env s).2

theorem IsRead.sound (h : event.IsRead) : (Plan.ofEvent event).Sound := by
  obtain ⟨row, hrow⟩ := h
  exact Plan.sound_ofEvent (QueuedEvent.sound_decode hrow)

/-- An event is what some row says if its values are what texts of values read as. -/
theorem isRead_of_reread {oldData newData : Option Json} (hold : ∀ v ∈ oldData, v.Sound)
    (hnew : ∀ v ∈ newData, v.Sound) (holdData : event.oldData = oldData.map Json.reread)
    (hnewData : event.newData = newData.map Json.reread) : event.IsRead :=
  ⟨{ event with
      type := event.type.name, action := event.action.name
      oldData := oldData.map Json.compact, newData := newData.map Json.compact },
    QueuedEvent.decode_eq_ok.mpr ⟨QueuedEvent.kinds_of_isNamed rfl rfl,
      (decodePayload_compact hold).trans (congrArg _ holdData.symm),
      (decodePayload_compact hnew).trans (congrArg _ hnewData.symm), rfl, rfl, rfl⟩⟩

theorem isRead_of_readsBack (hold : ∀ v ∈ event.oldData, v.Sound ∧ v.ReadsBack)
    (hnew : ∀ v ∈ event.newData, v.Sound ∧ v.ReadsBack) : event.IsRead :=
  isRead_of_reread (fun v hv => (hold v hv).1) (fun v hv => (hnew v hv).1)
    (map_reread_of_readsBack hold).symm (map_reread_of_readsBack hnew).symm

/-- An event fails if something is in its way, and otherwise its plan is carried out. -/
theorem deliver_eq (quiet : env.rivals = {}) (h : s.GraphSound env.tokens) (hread : event.IsRead) :
    event.deliver env s =
      (match (Plan.ofEvent event).obstacle? s with
        | some fault => .error fault
        | none => .ok (Plan.ofEvent event).outcome,
      Reconcile.carriedOut env (Plan.ofEvent event) s) := by
  unfold deliver Command.outcome
  cases hobstacle : (Plan.ofEvent event).obstacle? s with
  | some fault =>
    obtain ⟨t, happly⟩ := Reconcile.apply_of_obstacle quiet h hread.sound hobstacle
    rw [Command.transaction_of_error happly, Reconcile.carriedOut_of_obstacle hobstacle]
  | none =>
    rw [Command.transaction_of_ok (Reconcile.apply_eq quiet h hread.sound hobstacle).1]

theorem after_eq (quiet : env.rivals = {}) (h : s.GraphSound env.tokens) (hread : event.IsRead) :
    event.after env s = Reconcile.carriedOut env (Plan.ofEvent event) s := by
  unfold after
  rw [deliver_eq quiet h hread]

theorem after_sound (quiet : env.rivals = {}) (h : s.GraphSound env.tokens)
    (hread : event.IsRead) : (event.after env s).GraphSound env.tokens := by
  rw [after_eq quiet h hread]
  exact Reconcile.carriedOut_sound quiet h hread.sound

end Event

/-! ### Several deliveries -/

namespace Reconcile

variable {env : Env} {s t : Store} {plans : List Plan}

/-- What several plans, carried out one after the other at whatever times, make of a store. -/
structure Completed (plans : List Plan) (s t : Store) : Prop where
  facts : ∀ q, t.facts? q = Plan.touchAll s.surroundings q plans (s.facts? q)
  children : ∀ a b, t.IsChild a b ↔ s.IsChild a b ∨ ∃ plan ∈ plans, plan.Links a b
  spaces : t.spaces.map Space.unrevised =
    (s.spaces.map Space.unrevised).map (Plan.giveAll s.surroundings plans)
  members : ∀ p q, t.IsMember p q ↔
    match plans.reverse.findSome? (·.membersOf? s.surroundings p) with
    | some keys => q ∈ keys
    | none => s.IsMember p q
  persists : Persists s t
  records : SameRecords s t
  surroundings : t.surroundings = s.surroundings

theorem Completed.nil (s : Store) : Completed [] s s :=
  ⟨fun _ => rfl, fun _ _ => by simp, (Table.map_id _).symm, fun _ _ => Iff.rfl, .refl s, .refl s,
    rfl⟩

/-- One more plan is carried out. -/
theorem Completed.concat (quiet : env.rivals = {}) (ht : t.GraphSound env.tokens)
    (h : Completed plans s t) {plan : Plan} (hplan : plan.Sound) (hshort : plan.Short) :
    Completed (plans ++ [plan]) s (carriedOut env plan t) where
  facts q := by
    rw [facts?_carriedOut quiet ht hplan (hshort.fits ht hplan), h.facts, h.surroundings,
      Plan.touchAll_concat]
  children a b := by
    rw [isChild_carriedOut quiet ht hplan, h.children]
    simp only [List.mem_append, List.mem_singleton, or_and_right, exists_or, exists_eq_left, or_assoc]
  spaces := by
    rw [spaces_carriedOut ht (hshort.fits ht hplan), h.spaces, h.surroundings, Table.map_comp]
    refine congrArg (Table.map · _) (funext fun row => ?_)
    exact (Plan.giveAll_concat _ plans plan row).symm
  members p q := by
    rw [isMember_carriedOut_iff quiet ht hplan (hshort.fits ht hplan), h.surroundings,
      List.reverse_append, List.reverse_singleton, List.singleton_append, List.findSome?_cons]
    cases plan.membersOf? s.surroundings p with
    | some keys => rfl
    | none => exact h.members p q
  persists := h.persists.trans (persists_carriedOut env plan t)
  records := h.records.trans (sameRecords_carriedOut env t plan)
  surroundings := (surroundings_carriedOut env plan t).trans h.surroundings

end Reconcile

section Deliveries

variable {tokens : Tokenizer} {s : Store}

/-- The store after events have been delivered, each when the clock shows the time beside it. -/
def deliverAll (tokens : Tokenizer) (deliveries : List (ℤ × Event)) (s : Store) : Store :=
  deliveries.foldl (fun s delivery => delivery.2.after { clock := delivery.1, tokens } s) s

theorem deliverAll_append (first second : List (ℤ × Event)) :
    deliverAll tokens (first ++ second) s = deliverAll tokens second (deliverAll tokens first s) :=
  List.foldl_append

theorem deliverAll_sound (h : s.GraphSound tokens) {deliveries : List (ℤ × Event)}
    (hread : ∀ delivery ∈ deliveries, delivery.2.IsRead) :
    (deliverAll tokens deliveries s).GraphSound tokens := by
  induction deliveries generalizing s with
  | nil => exact h
  | cons delivery rest ih =>
    have hquiet : ({ clock := delivery.1, tokens } : Env).rivals = {} := rfl
    have hfirst := Event.after_sound hquiet h (hread delivery List.mem_cons_self)
    exact ih hfirst fun other hother => hread other (List.mem_cons_of_mem _ hother)

/-- What deliveries make of a store is what the plans of the events make of it. -/
theorem deliverAll_completed (h : s.GraphSound tokens) {deliveries : List (ℤ × Event)}
    (hread : ∀ delivery ∈ deliveries, delivery.2.IsRead)
    (hshort : ∀ delivery ∈ deliveries, (Plan.ofEvent delivery.2).Short) :
    Reconcile.Completed (deliveries.map fun delivery => Plan.ofEvent delivery.2) s
      (deliverAll tokens deliveries s) := by
  induction deliveries using List.reverseRecOn with
  | nil => exact .nil s
  | append_singleton deliveries delivery ih =>
    have hquiet : ({ clock := delivery.1, tokens } : Env).rivals = {} := rfl
    have hlast := hread delivery (List.mem_append_right _ (List.mem_singleton_self delivery))
    have hfirst : ∀ other ∈ deliveries, other.2.IsRead := fun other hother =>
      hread other (List.mem_append_left _ hother)
    have hfirstShort : ∀ other ∈ deliveries, (Plan.ofEvent other.2).Short := fun other hother =>
      hshort other (List.mem_append_left _ hother)
    have ht := deliverAll_sound h hfirst
    rw [deliverAll_append, List.map_append]
    show Reconcile.Completed _ s (delivery.2.after _ (deliverAll tokens deliveries s))
    rw [Event.after_eq hquiet ht hlast]
    exact (ih hfirst hfirstShort).concat hquiet ht hlast.sound
      (hshort delivery (List.mem_append_right _ (List.mem_singleton_self delivery)))

end Deliveries

namespace NodeRow

variable {tokens : Tokenizer} {row row' : NodeRow}

/-- A node without its row id and its times. -/
def unnumbered (row : NodeRow) : NodeRow :=
  { row with id := 0, createdAt := 0, updatedAt := 0 }

/-- Besides row id and times, a node is known from its facts: the rest is derived. -/
theorem unnumbered_eq_of_facts (h : row.Derived tokens) (h' : row'.Derived tokens)
    (hkey : row.publicId = row'.publicId) (hfacts : row.facts = row'.facts) :
    row.unnumbered = row'.unnumbered := by
  obtain ⟨-, -, htext, htextTokens, htitleTokens⟩ := h
  obtain ⟨-, -, htext', htextTokens', htitleTokens'⟩ := h'
  obtain ⟨hkind, htitle, hcontent, hremoved, heditor, hgraph⟩ := NodeFacts.mk.inj hfacts
  have hvalue : row.contentValue = row'.contentValue := by
    unfold contentValue
    rw [hcontent]
  have htexts : row.text = row'.text := by rw [htext, htext', hvalue]
  unfold unnumbered
  rw [hkey, hkind, htitle, hcontent, hremoved, heditor, hgraph, htextTokens, htextTokens',
    htitleTokens, htitleTokens', htexts, htitle]

end NodeRow
end NodeGraph
