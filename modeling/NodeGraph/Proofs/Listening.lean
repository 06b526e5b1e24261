import NodeGraph.Proofs.Running

/-!
The listener from its subscription to the end of its hub: it stops, and whether it leaves a permit
is told by the channels of the notices published in between and by their number.
-/
namespace NodeGraph

namespace Hub

variable {hub : Hub} {cursor : ℕ}

/-- The hub after notices that are published one after the other. -/
def publishAll (hub : Hub) (notices : List Notice) : Hub :=
  notices.foldl (fun hub n => (hub.publish n).2) hub

/-! ### What there is for a receiver -/

theorem next_of_behind (h : cursor + capacity < hub.log.size) :
    hub.next cursor = (.lagged (hub.log.size - capacity - cursor), hub.log.size - capacity) :=
  if_pos h

theorem next_of_lt (hnear : hub.log.size ≤ cursor + capacity) (h : cursor < hub.log.size) :
    hub.next cursor = (.notice hub.log[cursor], cursor + 1) := by
  unfold next
  rw [if_neg (Nat.not_lt.mpr hnear), Array.getElem?_eq_getElem h]

theorem next_of_done (hclosed : hub.isOpen = false) (h : hub.log.size ≤ cursor) :
    hub.next cursor = (.closed, cursor) := by
  unfold next
  rw [if_neg (by omega), Array.getElem?_eq_none h, hclosed]
  rfl

/-- Whoever receives has all notices kept. -/
theorem publishAll_of_receiver (hopen : hub.isOpen = true) {receiver : ℕ}
    (hreceiver : hub.receivers[receiver]? = some (some cursor)) (notices : List Notice) :
    hub.publishAll notices = { hub with log := hub.log ++ notices } := by
  induction notices generalizing hub with
  | nil => simp [publishAll]
  | cons n rest ih =>
    have hrest : ({ hub with log := hub.log.push n } : Hub).publishAll rest =
        { hub with log := hub.log.push n ++ rest } := ih hopen hreceiver
    show (hub.publish n).2.publishAll rest = _
    rw [publish_of_receiver hopen hreceiver, hrest]
    simp

end Hub

namespace Listener

variable {hub : Hub} {channel : String} {cursor : ℕ} {permit : Bool} {last : Bool × ℕ}

/-- The listener takes one thing after the other until it is told that the hub is closed, and stops
with the last permit and count. It never stops otherwise: on an open hub it waits. -/
inductive Stops (hub : Hub) (channel : String) : ℕ → Bool → Bool × ℕ → Prop
  | closed {cursor : ℕ} {permit : Bool} (h : hub.next cursor = (.closed, cursor)) :
    Stops hub channel cursor permit (permit, cursor)
  | heard {cursor later : ℕ} {permit : Bool} {last : Bool × ℕ} {receipt : Receipt}
    (h : hub.next cursor = (receipt, later)) (hthere : receipt ≠ .empty ∧ receipt ≠ .closed)
    (hrest : Stops hub channel later (heed channel permit receipt) last) :
    Stops hub channel cursor permit last

/-- Some notice past the first `cursor` ones is on the channel. -/
def Addressed (hub : Hub) (channel : String) (cursor : ℕ) : Prop :=
  ∃ n ∈ hub.log.toList.drop cursor, n.channel = channel

theorem addressed_iff_of_lt (h : cursor < hub.log.size) :
    Addressed hub channel cursor ↔
      hub.log[cursor].channel = channel ∨ Addressed hub channel (cursor + 1) := by
  have hlength : cursor < hub.log.toList.length := by simpa using h
  unfold Addressed
  rw [List.drop_eq_getElem_cons hlength, List.exists_mem_cons_iff, Array.getElem_toList]

theorem not_addressed_of_done (h : hub.log.size ≤ cursor) : ¬Addressed hub channel cursor := by
  have hlength : hub.log.toList.length ≤ cursor := by simpa using h
  unfold Addressed
  rw [List.drop_eq_nil_of_le hlength]
  simp

/-- On a closed hub the listener stops, since every receipt but the last brings it further. -/
theorem stops_follow (hclosed : hub.isOpen = false) (channel : String) (fuel : ℕ)
    (hfuel : hub.log.size - cursor < fuel) (permit : Bool) :
    Stops hub channel cursor permit (follow hub channel fuel cursor permit) := by
  induction fuel generalizing cursor permit with
  | zero => exact absurd hfuel (Nat.not_lt_zero _)
  | succ fuel ih =>
    unfold follow
    by_cases hbehind : cursor + Hub.capacity < hub.log.size
    · rw [Hub.next_of_behind hbehind]
      have hcapacity : 0 < Hub.capacity := by decide
      exact .heard (Hub.next_of_behind hbehind) (by simp) (ih (by omega) _)
    by_cases hleft : cursor < hub.log.size
    · rw [Hub.next_of_lt (Nat.not_lt.mp hbehind) hleft]
      exact .heard (Hub.next_of_lt (Nat.not_lt.mp hbehind) hleft) (by simp) (ih (by omega) _)
    · rw [Hub.next_of_done hclosed (Nat.not_lt.mp hleft)]
      exact .closed (Hub.next_of_done hclosed (Nat.not_lt.mp hleft))

/-- A permit is left if there was one, or a notice on the channel was waiting, or more notices than
are kept. The notices that are lost need not be looked at: their loss leaves a permit anyway. -/
theorem Stops.permit_iff (h : Stops hub channel cursor permit last)
    (hclosed : hub.isOpen = false) (hcursor : cursor ≤ hub.log.size) :
    (last.1 = true ↔ permit = true ∨ Addressed hub channel cursor ∨
      cursor + Hub.capacity < hub.log.size) ∧ last.2 = hub.log.size := by
  induction h with
  | @closed cursor permit h =>
    have hdone : hub.log.size ≤ cursor := by
      by_contra hleft
      by_cases hbehind : cursor + Hub.capacity < hub.log.size
      · rw [Hub.next_of_behind hbehind] at h
        simp at h
      · rw [Hub.next_of_lt (Nat.not_lt.mp hbehind) (Nat.not_le.mp hleft)] at h
        simp at h
    have hnear : ¬cursor + Hub.capacity < hub.log.size := by omega
    simp only [not_addressed_of_done hdone, hnear, or_false, true_and]
    omega
  | @heard cursor later permit last receipt h hthere hrest ih =>
    by_cases hbehind : cursor + Hub.capacity < hub.log.size
    · rw [Hub.next_of_behind hbehind] at h
      obtain ⟨rfl, rfl⟩ := Prod.mk.inj h
      obtain ⟨hpermit, hlast⟩ := ih (Nat.sub_le _ _)
      exact ⟨iff_of_true (hpermit.mpr (Or.inl rfl)) (Or.inr (Or.inr hbehind)), hlast⟩
    by_cases hleft : cursor < hub.log.size
    · rw [Hub.next_of_lt (Nat.not_lt.mp hbehind) hleft] at h
      obtain ⟨rfl, rfl⟩ := Prod.mk.inj h
      obtain ⟨hpermit, hlast⟩ := ih hleft
      refine ⟨?_, hlast⟩
      have hnear : ¬cursor + 1 + Hub.capacity < hub.log.size := by omega
      rw [hpermit, addressed_iff_of_lt hleft]
      simp only [heed, Bool.or_eq_true, decide_eq_true_eq, hbehind, hnear, or_false, or_assoc]
    · rw [Hub.next_of_done hclosed (Nat.not_lt.mp hleft)] at h
      obtain ⟨rfl, -⟩ := Prod.mk.inj h
      exact absurd rfl hthere.2

/-! ### From the subscription to the end of the hub -/

/-- The hub after a receiver has subscribed, notices have been published and the hub was closed. -/
def ended (hub : Hub) (notices : List Notice) : Hub :=
  (hub.subscribe.2.publishAll notices).close.2

theorem ended_eq (hopen : hub.isOpen = true) (notices : List Notice) :
    ended hub notices =
      { log := hub.log ++ notices, receivers := hub.receivers ++ [some hub.log.size]
        isOpen := false } := by
  have hsubscribed : hub.subscribe.2 =
      { hub with receivers := hub.receivers ++ [some hub.log.size] } := by
    simp [Hub.subscribe, hopen]
  have hreceiver : hub.subscribe.2.receivers[hub.receivers.length]? = some (some hub.log.size) := by
    rw [hsubscribed]
    simp
  have hstill : hub.subscribe.2.isOpen = true := by
    rw [hsubscribed]
    exact hopen
  unfold ended
  rw [Hub.publishAll_of_receiver hstill hreceiver, hsubscribed]
  rfl

theorem attend_ended (hopen : hub.isOpen = true) (channel : String) (notices : List Notice)
    (permit : Bool) : attend (ended hub notices) hub.subscribe.1 channel permit =
      ((run (ended hub notices) channel hub.log.size permit).1,
        { ended hub notices with
          receivers := (ended hub notices).receivers.set hub.subscribe.1
            (some (run (ended hub notices) channel hub.log.size permit).2) }) := by
  have hreceiver : (ended hub notices).receivers[hub.subscribe.1]? = some (some hub.log.size) := by
    rw [ended_eq hopen]
    simp [Hub.subscribe]
  unfold attend
  rw [hreceiver]

theorem log_ended (hopen : hub.isOpen = true) (notices : List Notice) :
    (ended hub notices).log.toList = hub.log.toList ++ notices := by
  rw [ended_eq hopen, Array.toList_appendList]

/-- What is heard when the hub is closed is what was published since the subscription. -/
theorem addressed_ended_iff (hopen : hub.isOpen = true) (notices : List Notice) :
    Addressed (ended hub notices) channel hub.log.size ↔ ∃ n ∈ notices, n.channel = channel := by
  unfold Addressed
  rw [log_ended hopen, ← Array.length_toList, List.drop_left]

theorem stops_run_ended (hub : Hub) (channel : String) (notices : List Notice) :
    Stops (ended hub notices) channel hub.log.size false
      (run (ended hub notices) channel hub.log.size false) := by
  have hclosed : (ended hub notices).isOpen = false := rfl
  exact stops_follow hclosed channel _ (Nat.lt_succ_self _) false

theorem run_ended (hopen : hub.isOpen = true) (channel : String) (notices : List Notice) :
    ((run (ended hub notices) channel hub.log.size false).1 = true ↔
      (∃ n ∈ notices, n.channel = channel) ∨ Hub.capacity < notices.length) ∧
      (run (ended hub notices) channel hub.log.size false).2 = (ended hub notices).log.size := by
  have hsize : (ended hub notices).log.size = hub.log.size + notices.length := by
    rw [← Array.length_toList, log_ended hopen, List.length_append, Array.length_toList]
  have hclosed : (ended hub notices).isOpen = false := rfl
  obtain ⟨hpermit, hlast⟩ :=
    (stops_run_ended hub channel notices).permit_iff hclosed (by omega)
  refine ⟨?_, hlast⟩
  rw [hpermit, addressed_ended_iff hopen, hsize]
  simp

/-- A listener that has subscribed and hears what was published until the hub was closed stops, done
with everything, and a worker that waits is woken once if some notice was on its channel or more
were published than the hub keeps, and otherwise not at all. Payloads have no part in it. -/
theorem wakes_exactly (hopen : hub.isOpen = true) (channel : String) (notices : List Notice) :
    let permit := (attend (ended hub notices) hub.subscribe.1 channel false).1
    Stops (ended hub notices) channel hub.log.size false (permit, (ended hub notices).log.size) ∧
      wakes permit =
        (if (∃ n ∈ notices, n.channel = channel) ∨ Hub.capacity < notices.length then 1 else 0) ∧
      ∀ others : List Notice, others.map (·.channel) = notices.map (·.channel) →
        (attend (ended hub others) hub.subscribe.1 channel false).1 = permit := by
  intro permit
  have hattend : permit = (run (ended hub notices) channel hub.log.size false).1 := by
    unfold permit
    rw [attend_ended hopen]
  obtain ⟨hpermit, hlast⟩ := run_ended hopen channel notices
  rw [← hattend] at hpermit
  refine ⟨?_, ?_, fun others hsame => ?_⟩
  · rw [hattend, ← hlast]
    exact stops_run_ended hub channel notices
  · unfold wakes
    simp only [hpermit]
  · have hlength : others.length = notices.length := by
      simpa using congrArg List.length hsame
    have hchannels (items : List Notice) :
        (∃ n ∈ items, n.channel = channel) ↔ channel ∈ items.map (·.channel) :=
      List.mem_map.symm
    rw [attend_ended hopen, Bool.eq_iff_iff, hpermit, (run_ended hopen channel others).1,
      hchannels, hchannels, hsame, hlength]

/-- Notices of another channel wake nobody as long as all of them are kept. -/
theorem wakes_exactly_lagging :
    let hub : Hub := { log := #[⟨"document_events", "EDITOR n1"⟩], receivers := [some 1, none] }
    let kept := List.replicate Hub.capacity (⟨"other", ""⟩ : Notice)
    hub.isOpen = true ∧
      wakes (attend (ended hub kept) hub.subscribe.1 "document_events" false).1 = 0 ∧
      wakes (attend (ended hub (⟨"other", ""⟩ :: kept)) hub.subscribe.1 "document_events"
        false).1 = 1 := by
  intro hub kept
  have hopen : hub.isOpen = true := rfl
  have hlength : kept.length = Hub.capacity := List.length_replicate
  have hnone : ¬∃ n ∈ kept, n.channel = "document_events" := by
    rintro ⟨n, hn, hchannel⟩
    rw [List.eq_of_mem_replicate hn] at hchannel
    exact absurd hchannel (by decide)
  refine ⟨hopen, ?_, ?_⟩
  · rw [(wakes_exactly hopen "document_events" kept).2.1]
    exact if_neg (not_or_intro hnone hlength.le.not_gt)
  · rw [(wakes_exactly hopen "document_events" (⟨"other", ""⟩ :: kept)).2.1]
    exact if_pos (Or.inr (by rw [List.length_cons, hlength]; exact Nat.lt_succ_self _))

end Listener
end NodeGraph
