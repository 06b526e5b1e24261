import NodeGraph.Proofs.Draining
import NodeGraph.Proofs.Lifecycle
import NodeGraph.Proofs.Reordering

/-!
Deeds: the events that passes have applied and the nodes that were taken out of spaces by name, in
order. Edges and memberships come from deeds alone, whatever else is done.
-/
namespace NodeGraph

open Store

/-- What bears on the edges and memberships of a store: an event that a pass has applied, or a node
that was taken out of a space by name. -/
inductive Deed where
  | applied (e : QueuedEvent)
  | expelled (space node : String)
  deriving DecidableEq, Repr

namespace Store

/-- Which ids are joined by edges, which by memberships, and which were before they were taken
apart. -/
def joins (s : Store) : List (ℤ × ℤ) × List (ℤ × ℤ) × List (ℤ × ℤ) :=
  (s.edges, s.live, s.deleted)

/-- The pending events that are queued no more, in the order of processing. -/
def goneFrom (s t : Store) : List QueuedEvent :=
  s.pending.filter fun e => !t.isQueued e.id

/-- Those of them that were applied when their turn came. -/
def appliedFrom (tokens : Tokenizer) (s t : Store) : List QueuedEvent :=
  (s.goneFrom t).filter (Pass.fates tokens s · = .applied)

end Store

/-- The deeds of an operation that has left the store `t`. -/
def Operation.deeds (tokens : Tokenizer) (s t : Store) : Operation → List Deed
  | pass _ _ _ => (appliedFrom tokens s t).map .applied
  | expel space node =>
    if (s.space? space).isSome && s.hasNode node then [.expelled space node] else []
  | _ => []

def Occurrence.deeds (tokens : Tokenizer) (s t : Store) : Occurrence → List Deed
  | operation _ op => op.deeds tokens s t
  | passes _ => (appliedFrom tokens s t).map .applied

/-- The deeds of a course, one after the other. -/
def Course.deeds (tokens : Tokenizer) : List Occurrence → Store → List Deed
  | [], _ => []
  | o :: rest, s => o.deeds tokens s (o.run tokens s) ++ deeds tokens rest (o.run tokens s)

theorem Course.deeds_concat (tokens : Tokenizer) (course : List Occurrence) (o : Occurrence)
    (s : Store) : deeds tokens (course ++ [o]) s =
      deeds tokens course s ++
        o.deeds tokens (run tokens course s) (o.run tokens (run tokens course s)) := by
  induction course generalizing s with
  | nil => exact List.append_nil _
  | cons first rest ih =>
    show _ ++ deeds tokens (rest ++ [o]) (first.run tokens s) = _
    rw [ih]
    exact (List.append_assoc _ _ _).symm

/-! ### One event -/

namespace QueuedEvent

variable {e : QueuedEvent} {s : Store} {p q : String}

/-- The event lists the node `q` for the space `p`. -/
def Lists (p q : String) (e : QueuedEvent) : Prop :=
  ∃ event titles, e.decode = .ok event ∧ Plan.ofEvent event = .space p titles ∧ q ∈ titles.keys

/-- The event puts the node `b` below the node `a`. -/
def Links (a b : String) (e : QueuedEvent) : Prop :=
  ∃ event, e.decode = .ok event ∧ (Plan.ofEvent event).Links a b

theorem links_iff {event : Event} (h : e.decode = .ok event) {a b : String} :
    e.Links a b ↔ (Plan.ofEvent event).Links a b := by
  unfold Links
  simp [h]

theorem lists_iff {event : Event} (h : e.decode = .ok event) :
    e.Lists p q ↔ ∃ titles, Plan.ofEvent event = .space p titles ∧ q ∈ titles.keys := by
  unfold Lists
  simp [h]

theorem omits_iff {event : Event} (h : e.decode = .ok event) :
    e.Omits p q ↔ ∃ titles, Plan.ofEvent event = .space p titles ∧ q ∉ titles.keys := by
  unfold Omits
  simp [h]

end QueuedEvent

namespace Pass

variable {env : Env} {s : Store} {e : QueuedEvent} {a b p q : String}

/-- An event that is applied is understood, and its plan is carried out. -/
theorem settle_of_applied (quiet : env.rivals = {}) (h : s.GraphSound env.tokens)
    (hqueued : s.isQueued e.id = true) (happlied : fate s e = .applied) :
    ∃ event, e.decode = .ok event ∧ (Plan.ofEvent event).Fits s ∧
      settle env s e = Reconcile.carriedOut env (Plan.ofEvent event) (s.claim e.id) := by
  obtain ⟨plan, hverdict⟩ := exists_plan_of_applied happlied
  obtain ⟨event, hevent, rfl, hobstacle⟩ := exists_event_of_carried hverdict
  refine ⟨event, hevent, Plan.fits_of_obstacle? hobstacle, ?_⟩
  rw [settle_of_queued quiet h hqueued, hverdict]
  rfl

/-- Any other event leaves the pairs. -/
theorem joins_settle (quiet : env.rivals = {}) (h : s.GraphSound env.tokens)
    (happlied : fate s e ≠ .applied) : (settle env s e).joins = s.joins := by
  rcases settle_cases quiet h e with ⟨-, hsame⟩ | ⟨-, hsettled⟩
  · rw [hsame]
  · rw [hsettled, settledAs_of_not_applied happlied]
    rfl

theorem isChild_settle (quiet : env.rivals = {}) (h : s.GraphSound env.tokens)
    (hqueued : s.isQueued e.id = true) (happlied : fate s e = .applied) :
    (settle env s e).IsChild a b ↔ s.IsChild a b ∨ e.Links a b := by
  obtain ⟨event, hevent, -, hsettled⟩ := settle_of_applied quiet h hqueued happlied
  rw [hsettled, QueuedEvent.links_iff hevent]
  exact Reconcile.isChild_carriedOut quiet (claim_sound h e.id)
    (Plan.sound_ofEvent (QueuedEvent.sound_decode hevent))

/-- In a space that is there, an event that is applied and lists a node makes it a member, and one
that omits it ends its membership. -/
theorem isMember_settle (quiet : env.rivals = {}) (h : s.GraphSound env.tokens)
    (hqueued : s.isQueued e.id = true) (happlied : fate s e = .applied)
    (hspace : s.space? p ≠ none) :
    (settle env s e).IsMember p q ↔ e.Lists p q ∨ (s.IsMember p q ∧ ¬e.Omits p q) := by
  obtain ⟨event, hevent, hfits, hsettled⟩ := settle_of_applied quiet h hqueued happlied
  have hplan := Plan.sound_ofEvent (QueuedEvent.sound_decode hevent)
  have hfits : (Plan.ofEvent event).Fits (s.claim e.id) := hfits
  have hmembers := Reconcile.isMember_carriedOut_iff quiet (claim_sound h e.id) hplan hfits p q
  rw [hsettled, hmembers, QueuedEvent.lists_iff hevent, QueuedEvent.omits_iff hevent]
  have hclaimed : (s.claim e.id).IsMember p q ↔ s.IsMember p q := Iff.rfl
  have hthere : (s.claim e.id).surroundings.hasSpace p = true :=
    Option.isSome_iff_ne_none.mpr hspace
  cases Plan.ofEvent event with
  | space p' titles =>
    by_cases hkey : p' = p
    · subst hkey
      by_cases hlisted : q ∈ titles.keys <;> simp [Plan.membersOf?, hthere, hlisted]
    · simp [Plan.membersOf?, hkey, hclaimed]
  | _ => simp [Plan.membersOf?, hclaimed]

theorem isExpelled_settle (quiet : env.rivals = {}) (h : s.GraphSound env.tokens)
    (hends : ∀ pair ∈ s.deleted, s.hasSpaceId pair.1 = true ∧ s.hasNodeId pair.2 = true) :
    (settle env s e).IsExpelled p q ↔ s.IsExpelled p q := by
  rcases settle_cases quiet h e with ⟨-, hsame⟩ | ⟨hqueued, hsettled⟩
  · rw [hsame]
  · have ht : (settle env s e).GraphSound env.tokens := by
      rw [hsettled]
      exact settledAs_graphSound quiet h e
    refine isExpelled_congr h ht (persists_settle quiet h e).toExtends hends ?_
    rw [hsettled]
    cases e.verdict s with
    | dropped => rfl
    | buried fault => rfl
    | carried plan => exact (Reconcile.sameRecords_carriedOut env _ plan).deleted

end Pass

/-! ### Other operations -/

namespace Store

variable {tokens : Tokenizer} {s : Store} {p q p' q' : String}

/-- A membership is determined by the public ids of the space and of the node. -/
theorem GraphSound.pair_eq_iff (h : s.GraphSound tokens) {space space' : Space}
    {row row' : NodeRow} (hspace : space ∈ s.spaces.rows) (hspace' : space' ∈ s.spaces.rows)
    (hrow : row ∈ s.nodes.rows) (hrow' : row' ∈ s.nodes.rows) :
    (space.id, row.id) = (space'.id, row'.id) ↔
      space.publicId = space'.publicId ∧ row.publicId = row'.publicId := by
  constructor
  · intro hpair
    obtain ⟨hsid, hid⟩ := Prod.mk.inj hpair
    obtain rfl := h.spaceIds.eq_of_id_eq hspace hspace' hsid
    obtain rfl := h.nodeIds.eq_of_id_eq hrow hrow' hid
    exact ⟨rfl, rfl⟩
  · rintro ⟨hskey, hkey⟩
    obtain rfl := List.inj_on_of_nodup_map h.spaceKeys hspace hspace' hskey
    obtain rfl := List.inj_on_of_nodup_map h.nodeKeys hrow hrow' hkey
    rfl

/-- A node is taken out of one space, where it stays taken out. -/
theorem isMember_expelled (h : s.GraphSound tokens) {space : Space} {row : NodeRow}
    (hspace : s.space? p = some space) (hnode : s.nodeRow? q = some row) :
    IsMember { s with
      live := s.live.filter (· ≠ (space.id, row.id))
      deleted := addPair (space.id, row.id) s.deleted } p' q' ↔
        s.IsMember p' q' ∧ ¬(p' = p ∧ q' = q) := by
  obtain ⟨hfound, rfl⟩ := h.space?_eq_some.mp hspace
  obtain ⟨hthere, rfl⟩ := h.nodeRow?_eq_some.mp hnode
  constructor
  · rintro ⟨other, hother, rfl, member, hmember, rfl, hpair⟩
    obtain ⟨hlive, hne⟩ := List.mem_filter.mp hpair
    refine ⟨⟨other, hother, rfl, member, hmember, rfl, hlive⟩, fun hkeys => ?_⟩
    exact of_decide_eq_true hne ((h.pair_eq_iff hother hfound hmember hthere).mpr hkeys)
  · rintro ⟨⟨other, hother, rfl, member, hmember, rfl, hpair⟩, hne⟩
    refine ⟨other, hother, rfl, member, hmember, rfl, List.mem_filter.mpr ⟨hpair, ?_⟩⟩
    exact decide_eq_true fun heq => hne ((h.pair_eq_iff hother hfound hmember hthere).mp heq)

theorem isExpelled_expelled (h : s.GraphSound tokens) {space : Space} {row : NodeRow}
    (hspace : s.space? p = some space) (hnode : s.nodeRow? q = some row) :
    IsExpelled { s with
      live := s.live.filter (· ≠ (space.id, row.id))
      deleted := addPair (space.id, row.id) s.deleted } p' q' ↔
        s.IsExpelled p' q' ∨ (p' = p ∧ q' = q) := by
  obtain ⟨hfound, rfl⟩ := h.space?_eq_some.mp hspace
  obtain ⟨hthere, rfl⟩ := h.nodeRow?_eq_some.mp hnode
  constructor
  · rintro ⟨other, hother, rfl, member, hmember, rfl, hpair⟩
    rcases Reconcile.mem_addPair.mp hpair with heq | hold
    · exact Or.inr ((h.pair_eq_iff hother hfound hmember hthere).mp heq)
    · exact Or.inl ⟨other, hother, rfl, member, hmember, rfl, hold⟩
  · rintro (⟨other, hother, rfl, member, hmember, rfl, hpair⟩ | ⟨rfl, rfl⟩)
    · exact ⟨other, hother, rfl, member, hmember, rfl,
        Reconcile.mem_addPair.mpr (Or.inr hpair)⟩
    · exact ⟨space, hfound, rfl, row, hthere, rfl, Reconcile.mem_addPair.mpr (Or.inl rfl)⟩

theorem joins_replaces {clock : ℤ} {t : Store} (h : Operation.Replaces clock s t) :
    t.joins = s.joins := by
  induction h with
  | refl => rfl
  | tail _ hstep ih =>
    obtain ⟨old, row, -, rfl⟩ := hstep
    exact ih

end Store

namespace Operation

variable {env : Env} {s : Store}

/-- The operation settles events or takes a node out of a space. -/
def Bears : Operation → Prop
  | pass _ _ _ => True
  | expel _ _ => True
  | _ => False

/-- All other operations leave the pairs. -/
theorem joins_perform (quiet : env.rivals = {}) (h : s.Sound env.tokens) {op : Operation}
    (hop : ¬op.Bears) : (op.perform env s).joins = s.joins := by
  have heffect := op.effect_perform quiet h.toGraphSound
  generalize op.perform env s = t at heffect ⊢
  cases heffect with
  | upsert p type data json =>
    unfold upserted
    split <;> rfl
  | changeDocuments p column cell hreplaces hkeys => exact joins_replaces hreplaces
  | deleteDocuments p =>
    exact List.foldlRecOn (motive := fun t : Store => t.joins = s.joins) _ _ rfl
      fun t ht row _ => ht
  | pass | expel => exact absurd trivial hop
  | _ => rfl

theorem deeds_of_not_bears {tokens : Tokenizer} {t : Store} {op : Operation} (hop : ¬op.Bears) :
    op.deeds tokens s t = [] := by
  cases op with
  | pass owner strict ttl => exact absurd trivial hop
  | expel space node => exact absurd trivial hop
  | _ => rfl

end Operation

/-! ### Traces -/

/-- A store that an empty one has become, and the deeds that were done to it. Between deeds come
changes that leave the pairs. -/
inductive Traced (tokens : Tokenizer) : List Deed → Store → Prop
  | empty : Traced tokens [] {}
  | still {deeds : List Deed} {s t : Store} (h : Traced tokens deeds s) (ht : t.Sound tokens)
    (hpersists : Persists s t) (hjoins : t.joins = s.joins) : Traced tokens deeds t
  | applied {deeds : List Deed} {s : Store} (h : Traced tokens deeds s) (clock : ℤ)
    {e : QueuedEvent} (he : e ∈ s.queue.rows) (happlied : Pass.fate s e = .applied) :
    Traced tokens (deeds ++ [.applied e]) (Pass.settle { clock, tokens } s e)
  | expelled {deeds : List Deed} {s : Store} (h : Traced tokens deeds s) {p q : String}
    {space : Space} {row : NodeRow} (hspace : s.space? p = some space)
    (hnode : s.nodeRow? q = some row) :
    Traced tokens (deeds ++ [.expelled p q])
      { s with
        live := s.live.filter (· ≠ (space.id, row.id))
        deleted := addPair (space.id, row.id) s.deleted }

namespace Traced

variable {tokens : Tokenizer} {deeds : List Deed} {s : Store} {a b p q : String}

theorem sound (h : Traced tokens deeds s) : s.Sound tokens := by
  induction h with
  | empty => exact sound_empty tokens
  | still _ ht _ _ _ => exact ht
  | applied _ clock he happlied ih =>
    have quiet : ({ clock, tokens } : Env).rivals = {} := rfl
    exact Pass.settle_sound quiet ih _
  | expelled _ hspace hnode ih => exact Spaces.moved_sound ih _

theorem deletedEnds (h : Traced tokens deeds s) :
    ∀ pair ∈ s.deleted, s.hasSpaceId pair.1 = true ∧ s.hasNodeId pair.2 = true := by
  induction h with
  | empty => exact fun _ hpair => absurd hpair List.not_mem_nil
  | still _ _ hpersists _ ih => exact hpersists.deletedEnds ih
  | applied hbefore clock he happlied ih =>
    have quiet : ({ clock, tokens } : Env).rivals = {} := rfl
    exact (Pass.persists_settle quiet hbefore.sound.toGraphSound _).deletedEnds ih
  | expelled hbefore hspace hnode ih =>
    have hgraph := hbefore.sound.toGraphSound
    exact (Spaces.persists_moved (hgraph.space?_eq_some.mp hspace).1
      (hgraph.nodeRow?_eq_some.mp hnode).1).deletedEnds ih

/-- Edges are those that events have put there. -/
theorem isChild_iff (h : Traced tokens deeds s) :
    s.IsChild a b ↔ ∃ e, .applied e ∈ deeds ∧ e.Links a b := by
  induction h with
  | empty =>
    simp [IsChild]
  | still hbefore ht hpersists hjoins ih =>
    rw [← ih]
    exact Reconcile.isChild_congr hbefore.sound.toGraphSound ht.toGraphSound hpersists.toExtends
      (Prod.mk.inj hjoins).1
  | applied hbefore clock he happlied ih =>
    rw [Pass.isChild_settle rfl hbefore.sound.toGraphSound (isQueued_iff.mpr ⟨_, he, rfl⟩)
      happlied, ih]
    simp [or_and_right, exists_or]
  | expelled hbefore hspace hnode ih => exact ih.trans (by simp)

/-- A node has been taken out of a space by name or not at all. -/
theorem isExpelled_iff (h : Traced tokens deeds s) : s.IsExpelled p q ↔ .expelled p q ∈ deeds := by
  induction h with
  | empty => simp [IsExpelled]
  | still hbefore ht hpersists hjoins ih =>
    rw [← ih]
    exact isExpelled_congr hbefore.sound.toGraphSound ht.toGraphSound hpersists.toExtends
      hbefore.deletedEnds (Prod.mk.inj (Prod.mk.inj hjoins).2).2
  | applied hbefore clock he happlied ih =>
    rw [Pass.isExpelled_settle rfl hbefore.sound.toGraphSound hbefore.deletedEnds, ih]
    simp
  | expelled hbefore hspace hnode ih =>
    rw [isExpelled_expelled hbefore.sound.toGraphSound hspace hnode, ih]
    simp

/-! ### Courses -/

theorem withLeases (h : Traced tokens deeds s) (leases : List LeaseRow) :
    Traced tokens deeds { s with leases } :=
  h.still (Pass.withLeases_sound h.sound leases) (persists_of_graph rfl rfl rfl rfl) rfl

theorem settle (h : Traced tokens deeds s) (clock : ℤ) {e : QueuedEvent} (he : e ∈ s.queue.rows) :
    Traced tokens (deeds ++ if Pass.fate s e = .applied then [.applied e] else [])
      (Pass.settle { clock, tokens } s e) := by
  split
  · rename_i happlied
    exact h.applied clock he happlied
  · rename_i hother
    have quiet : ({ clock, tokens } : Env).rivals = {} := rfl
    rw [List.append_nil]
    exact h.still (Pass.settle_sound quiet h.sound e)
      (Pass.persists_settle quiet h.sound.toGraphSound e)
      (Pass.joins_settle quiet h.sound.toGraphSound hother)

theorem foldl_settle (h : Traced tokens deeds s) (clock : ℤ) {fates : QueuedEvent → Pass.Attempt}
    {events : List QueuedEvent} (hfates : Pass.Fated { clock, tokens } fates events s)
    (hids : (events.map (·.id)).Nodup) (hqueued : ∀ e ∈ events, e ∈ s.queue.rows) :
    Traced tokens (deeds ++ (events.filter (fates · = .applied)).map .applied)
      (events.foldl (Pass.settle { clock, tokens }) s) := by
  induction events generalizing deeds s with
  | nil => simpa using h
  | cons e rest ih =>
    obtain ⟨hnew, hrest⟩ := List.nodup_cons.mp hids
    have hfirst := h.settle clock (hqueued e List.mem_cons_self)
    have hlater := ih hfirst hfates.2 hrest fun other hother => ?_
    · rw [← hfates.1] at hlater
      by_cases happlied : fates e = .applied
      · simpa [happlied] using hlater
      · simpa [happlied] using hlater
    · rw [Pass.queue_settle rfl h.sound.toGraphSound, Table.rows_keep, List.mem_filter,
        decide_eq_true_eq]
      refine ⟨hqueued other (List.mem_cons_of_mem e hother), fun heq => hnew ?_⟩
      exact List.mem_map.mpr ⟨other, hother, heq⟩

/-- What has gone from the queue is what was handled. -/
theorem goneFrom_eq (h : s.Sound tokens) {t : Store} {handled : List QueuedEvent}
    (hfirst : handled <+: s.pending)
    (hqueue : t.queue.rows = s.queue.rows.filter fun e => e.id ∉ handled.map (·.id)) :
    s.goneFrom t = handled := by
  have hgone : ∀ e ∈ s.pending, (!t.isQueued e.id) = decide (e.id ∈ handled.map (·.id)) := by
    intro e he
    rw [Bool.eq_iff_iff, Bool.not_eq_true', decide_eq_true_eq, ← Bool.not_eq_true, isQueued_iff,
      hqueue, not_iff_comm]
    constructor
    · exact fun hnew => ⟨e, List.mem_filter.mpr ⟨Pass.mem_pending.mp he, decide_eq_true hnew⟩, rfl⟩
    · rintro ⟨other, hother, hid⟩
      rw [← hid]
      exact of_decide_eq_true (List.mem_filter.mp hother).2
  have hids := nodup_pending h
  obtain ⟨rest, hsplit⟩ := hfirst
  rw [← hsplit, List.map_append, List.nodup_append] at hids
  unfold goneFrom
  rw [List.filter_congr hgone, ← hsplit, List.filter_append, List.filter_eq_self.mpr,
    List.filter_eq_nil_iff.mpr, List.append_nil]
  · intro e he hhandled
    exact hids.2.2 e.id (of_decide_eq_true hhandled) e.id (List.mem_map_of_mem he) rfl
  · exact fun e he => decide_eq_true (List.mem_map_of_mem he)

theorem pass (h : Traced tokens deeds s) (clock : ℤ) (owner : ℕ) (strict : Bool) (ttl : ℤ) :
    let t := (Operation.pass owner strict ttl).perform { clock, tokens } s
    Traced tokens (deeds ++ (appliedFrom tokens s t).map .applied) t := by
  intro t
  have hsound := h.sound
  rcases Pass.run_outcome { clock, tokens } owner strict ttl s with
    hsame | ⟨handled, hfirst, hworked⟩
  · have ht : t = s := hsame
    have hnone : s.goneFrom s = [] := goneFrom_eq hsound List.nil_prefix (by simp)
    rw [ht, appliedFrom, hnone, List.filter_nil, List.map_nil, List.append_nil]
    exact h
  · set env : Env := { clock, tokens } with henv
    have quiet : env.rivals = {} := rfl
    set leased := Pass.leased env.now owner Lease.processing ttl s
    have hstart : Traced tokens deeds leased := h.withLeases _
    have hids : (handled.map (·.id)).Nodup :=
      (hfirst.sublist.map _).nodup (nodup_pending hsound)
    have hfates : Pass.Fated env (Pass.fates tokens s) handled leased := by
      obtain ⟨rest, hsplit⟩ := hfirst
      have hall := (Pass.fated_fates quiet hsound).leased quiet hsound owner Lease.processing ttl
      rw [← hsplit, Pass.fated_append] at hall
      exact hall.1
    have hsettled := hstart.foldl_settle clock hfates hids fun e he =>
      Pass.mem_pending.mp (hfirst.subset he)
    have hgone : s.goneFrom t = handled := by
      refine goneFrom_eq hsound hfirst ?_
      have ht : t = Lease.release ⟨Lease.processing, owner, Clock.after env.now ttl⟩
          (handled.foldl (Pass.settle env) leased) := hworked
      rw [ht]
      exact Pass.queue_foldl_settle quiet hstart.sound handled
    rw [appliedFrom, hgone]
    show Traced tokens _ ((Pass.run env owner strict ttl).outcome s).2
    rw [hworked]
    exact hsettled.withLeases _

theorem passes (h : Traced tokens deeds s) (schedule : List Turn) :
    let t := (Passes.run tokens schedule { store := s }).store
    Traced tokens (deeds ++ (appliedFrom tokens s t).map .applied) t := by
  intro t
  have hsound := h.sound
  have hserial := serial_run hsound schedule
  obtain ⟨htraced, hqueue⟩ := Passes.run_induction (P := fun log t =>
    Traced tokens (deeds ++ (log.filter (·.2 = .applied)).map fun entry => .applied entry.1) t ∧
      t.queue.rows = s.queue.rows.filter fun e => e.id ∉ (log.map Prod.fst).map (·.id)) hsound
    ⟨by simpa using h, by simp⟩
    (fun log t leases ⟨htraced, hqueue⟩ => ⟨htraced.withLeases leases, hqueue⟩)
    (fun log t e clock ht he ⟨htraced, hqueue⟩ => by
      have quiet : ({ clock, tokens } : Env).rivals = {} := rfl
      have hhandle : (Pass.handle { clock, tokens } e t).1 = Pass.fate t e :=
        congrArg Prod.fst
          (Pass.handle_of_queued quiet ht.toGraphSound (isQueued_iff.mpr ⟨e, he, rfl⟩))
      rw [hhandle]
      refine ⟨?_, ?_⟩
      · have hsettled := htraced.settle clock he
        by_cases happlied : Pass.fate t e = .applied
        · simpa [happlied] using hsettled
        · simpa [happlied] using hsettled
      · rw [Pass.queue_settle quiet ht.toGraphSound, Table.rows_keep, hqueue, List.filter_filter]
        refine List.filter_congr fun other _ => ?_
        rw [List.map_append, List.map_append, List.map_singleton, List.map_singleton,
          Bool.eq_iff_iff, Bool.and_eq_true, decide_eq_true_eq, decide_eq_true_eq,
          decide_eq_true_eq, List.mem_append, List.mem_singleton, not_or, and_comm]) schedule
  have happlied : ((Passes.run tokens schedule { store := s }).log.filter (·.2 = .applied)).map
      (fun entry => Deed.applied entry.1) = (appliedFrom tokens s t).map .applied := by
    rw [appliedFrom, goneFrom_eq hsound ⟨_, hserial.split⟩ hqueue, hserial.log_eq hsound]
    simp [List.filter_map, Function.comp_def]
  rw [← happlied]
  exact htraced

theorem perform (h : Traced tokens deeds s) (clock : ℤ) {op : Operation} (hheld : op.Held) :
    Traced tokens (deeds ++ op.deeds tokens s (op.perform { clock, tokens } s))
      (op.perform { clock, tokens } s) := by
  have hsound := h.sound
  by_cases hop : op.Bears
  · cases op with
    | pass owner strict ttl => exact h.pass clock owner strict ttl
    | expel space node =>
      show Traced tokens
        (deeds ++ if (s.space? space).isSome && s.hasNode node then [.expelled space node] else [])
        ((Spaces.expel space node).outcome s).2
      cases hspace : s.space? space with
      | none =>
        rw [Command.outcome_of_error (Spaces.expel_of_no_space hspace node)]
        simpa using h
      | some found =>
        cases hnode : s.nodeRow? node with
        | none =>
          rw [Command.outcome_of_error (Spaces.expel_of_no_node hspace hnode)]
          simpa [nodeRow?_eq_none.mp hnode] using h
        | some row =>
          have hthere : s.hasNode node = true :=
            hasNode_iff.mpr ⟨row, hsound.toGraphSound.nodeRow?_eq_some.mp hnode⟩
          rw [Command.outcome_of_ok (Spaces.expel_of_some hsound.toGraphSound hspace hnode), hthere]
          exact h.expelled hspace hnode
    | _ => exact False.elim hop
  · have quiet : ({ clock, tokens } : Env).rivals = {} := rfl
    rw [Operation.deeds_of_not_bears hop, List.append_nil]
    exact h.still (Operation.perform_sound quiet hheld hsound) (op.persists_perform quiet hsound)
      (Operation.joins_perform quiet hsound hop)

theorem occur (h : Traced tokens deeds s) {o : Occurrence} (hheld : o.Held) :
    Traced tokens (deeds ++ o.deeds tokens s (o.run tokens s)) (o.run tokens s) := by
  cases o with
  | operation clock op => exact h.perform clock hheld
  | passes schedule => exact h.passes schedule

end Traced

/-- What a course makes of an empty store is traced by its deeds. -/
theorem Course.traced {tokens : Tokenizer} {course : List Occurrence}
    (hheld : ∀ o ∈ course, o.Held) :
    Traced tokens (deeds tokens course {}) (run tokens course {}) := by
  induction course using List.reverseRecOn with
  | nil => exact .empty
  | append_singleton course o ih =>
    obtain ⟨hcourse, ho⟩ := List.forall_mem_append.mp hheld
    rw [deeds_concat, run_concat]
    exact (ih hcourse).occur (List.forall_mem_singleton.mp ho)

end NodeGraph
