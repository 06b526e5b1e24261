import NodeGraph.Proofs.Events
import NodeGraph.Proofs.Persistence

/-!
The one obstacle: an event that is understood, and that lists no more nodes than a statement can be
given, is carried out, unless it lists the nodes of a space that is not there.
-/
namespace NodeGraph

open Store

/-- An event that brings the nodes of a space while no space has its public id. -/
structure Event.LacksSpace (event : Event) (s : Store) : Prop where
  type : event.type = .space
  action : event.action = .insert ∨ event.action = .update
  payload : event.newData.isSome = true
  absent : ∀ space ∈ s.spaces.rows, space.publicId ≠ event.publicId

theorem Store.space?_eq_none {s : Store} {p : String} :
    s.space? p = none ↔ ∀ space ∈ s.spaces.rows, space.publicId ≠ p := by
  unfold space? Table.find?
  simp only [List.find?_eq_none, decide_eq_true_eq]

theorem Action.ne_delete_iff {a : Action} : a ≠ .delete ↔ a = .insert ∨ a = .update := by
  cases a <;> simp

/-- An event lacks its space if and only if it brings the nodes of one that is not there. -/
theorem Event.lacksSpace_iff {event : Event} {s : Store} :
    event.LacksSpace s ↔
      ∃ titles, Plan.ofEvent event = .space event.publicId titles ∧
        s.space? event.publicId = none := by
  have hasked := Plan.asked event
  constructor
  · rintro ⟨htype, haction, hpayload, habsent⟩
    generalize Plan.ofEvent event = plan at hasked
    cases hasked with
    | space => exact ⟨_, rfl, Store.space?_eq_none.mpr habsent⟩
    | deleted hdelete => exact absurd hdelete (Action.ne_delete_iff.mpr haction)
    | editor _ heditor => cases heditor.symm.trans htype
    | missing _ _ hnone => simp [hnone] at hpayload
    | graph _ _ hother => exact absurd htype hother
  · rintro ⟨titles, hplan, hnone⟩
    rw [hplan] at hasked
    cases hasked with
    | space haction htype data hdata =>
      exact ⟨htype, Action.ne_delete_iff.mp haction, by rw [hdata]; rfl,
        Store.space?_eq_none.mp hnone⟩

/-- Something is in the way of an event that fits if and only if it lacks its space. -/
theorem Plan.obstacle?_ofEvent_iff {event : Event} {s : Store} (hfits : (ofEvent event).Fits s)
    {fault : Fault} : (ofEvent event).obstacle? s = some fault ↔
      event.LacksSpace s ∧ fault = .missingSpace event.publicId := by
  constructor
  · intro hobstacle
    have hasked := asked event
    obtain ⟨-, hobstructed⟩ := obstacle?_ofEvent hobstacle
    generalize hplan : ofEvent event = plan at hobstacle hasked hfits
    cases hasked with
    | space =>
      cases hobstructed with
      | lacking hnone => exact ⟨Event.lacksSpace_iff.mpr ⟨_, hplan, hnone⟩, rfl⟩
      | overfull row hrow =>
        have hthere : Reconcile.fits _ s = true := hfits
        rw [obstacle?_of_space hrow, hthere] at hobstacle
        exact nomatch hobstacle
    | deleted => exact nomatch hobstacle
    | editor => exact nomatch hobstacle
    | missing => exact nomatch hobstacle
    | graph => exact nomatch hobstacle
  · rintro ⟨hlacks, rfl⟩
    obtain ⟨titles, hplan, hnone⟩ := Event.lacksSpace_iff.mp hlacks
    rw [hplan]
    exact obstacle?_of_no_space hnone titles

namespace Reconcile

variable {env : Env} {s : Store} {event : Event}

end Reconcile

end NodeGraph
