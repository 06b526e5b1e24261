import NodeGraph.Proofs.Courses
import NodeGraph.Proofs.Integrity.Changes
import NodeGraph.Proofs.Reconcile.Facts

/-!
The life of nodes, edges, spaces and memberships: whatever is done through the program, a node stays
the node it was and is marked as removed by command only, edges and spaces stay, and a live member
leaves its space by command or because an event for that space no longer lists it.
-/
namespace NodeGraph

/-- The columns of a node that reconciliation never writes. -/
def NodeRow.identity (row : NodeRow) : ℤ × String × String × ℤ × Bool :=
  (row.id, row.publicId, row.kind, row.createdAt, row.removed)

/-- The columns of a space that are fixed when it is created. -/
def Space.identity (space : Space) : ℤ × String × String × String × ℤ :=
  (space.id, space.publicId, space.title, space.slug, space.createdAt)

namespace Store

variable {tokens : Tokenizer} {env : Env} {s t u : Store} {p q : String}

/-- Nodes, edges and spaces of `s` are the first ones of `t`. -/
structure Endures (s t : Store) : Prop where
  nodes : s.nodes.rows.map NodeRow.identity <+: t.nodes.rows.map NodeRow.identity
  edges : s.edges <+: t.edges
  spaces : s.spaces.rows.map Space.identity <+: t.spaces.rows.map Space.identity

theorem Endures.refl (s : Store) : Endures s s :=
  ⟨List.prefix_rfl, List.prefix_rfl, List.prefix_rfl⟩

theorem Endures.trans (h : Endures s t) (h' : Endures t u) : Endures s u :=
  ⟨h.nodes.trans h'.nodes, h.edges.trans h'.edges, h.spaces.trans h'.spaces⟩

theorem endures_of_graph (hnodes : t.nodes = s.nodes) (hedges : t.edges = s.edges)
    (hspaces : t.spaces = s.spaces) : Endures s t := by
  constructor
  · rw [hnodes]
  · rw [hedges]
  · rw [hspaces]

theorem Endures.exists_node (h : Endures s t) {old : NodeRow} (hold : old ∈ s.nodes.rows) :
    ∃ row ∈ t.nodes.rows, row.identity = old.identity := by
  have hmem : old.identity ∈ s.nodes.rows.map NodeRow.identity := List.mem_map_of_mem hold
  exact List.mem_map.mp (h.nodes.subset hmem)

theorem Endures.exists_space (h : Endures s t) {old : Space} (hold : old ∈ s.spaces.rows) :
    ∃ space ∈ t.spaces.rows, space.identity = old.identity := by
  have hmem : old.identity ∈ s.spaces.rows.map Space.identity := List.mem_map_of_mem hold
  exact List.mem_map.mp (h.spaces.subset hmem)

theorem Endures.columns (h : Endures s t) :
    (∀ old ∈ s.nodes.rows, ∃ row ∈ t.nodes.rows, row.id = old.id ∧ row.publicId = old.publicId ∧
        row.kind = old.kind ∧ row.createdAt = old.createdAt ∧ row.removed = old.removed) ∧
      ∀ old ∈ s.spaces.rows, ∃ space ∈ t.spaces.rows, space.id = old.id ∧
        space.publicId = old.publicId ∧ space.title = old.title ∧ space.slug = old.slug ∧
        space.createdAt = old.createdAt := by
  constructor
  · intro old hold
    obtain ⟨row, hrow, hsame⟩ := h.exists_node hold
    simp only [NodeRow.identity, Prod.mk.injEq] at hsame
    exact ⟨row, hrow, hsame⟩
  · intro old hold
    obtain ⟨space, hspace, hsame⟩ := h.exists_space hold
    simp only [Space.identity, Prod.mk.injEq] at hsame
    exact ⟨space, hspace, hsame⟩

theorem Endures.extends (h : Endures s t) : Extends s t := by
  refine ⟨fun old hold => ?_, fun old hold => ?_, fun _ hpair => h.edges.subset hpair⟩
  · obtain ⟨row, hrow, hid, hkey, -⟩ := h.columns.1 old hold
    exact ⟨row, hrow, hid, hkey⟩
  · obtain ⟨space, hspace, hid, hkey, -⟩ := h.columns.2 old hold
    exact ⟨space, hspace, hid, hkey⟩

/-- A member stays one as long as its pair does. -/
theorem IsMember.mono (h : Extends s t) (hlive : ∀ pair ∈ s.live, pair ∈ t.live)
    (hmember : s.IsMember p q) : t.IsMember p q := by
  obtain ⟨space, hspace, rfl, row, hrow, rfl, hpair⟩ := hmember
  obtain ⟨space', hspace', hsid, hskey⟩ := h.spaces space hspace
  obtain ⟨row', hrow', hid, hkey⟩ := h.nodes row hrow
  refine ⟨space', hspace', hskey, row', hrow', hkey, ?_⟩
  rw [hsid, hid]
  exact hlive _ hpair

instance (s : Store) (p q : String) : Decidable (s.IsMember p q) :=
  inferInstanceAs (Decidable (∃ space ∈ s.spaces.rows, space.publicId = p ∧
    ∃ row ∈ s.nodes.rows, row.publicId = q ∧ (space.id, row.id) ∈ s.live))

/-! ### Steps -/

theorem endures_mapNodes {f : NodeRow → NodeRow}
    (hf : ∀ row ∈ s.nodes.rows, (f row).identity = row.identity) : Endures s (s.mapNodes f) := by
  have hrows : (s.mapNodes f).nodes.rows.map NodeRow.identity =
      s.nodes.rows.map NodeRow.identity := by
    rw [rows_mapNodes, List.map_map]
    exact List.map_congr_left hf
  exact ⟨hrows ▸ List.prefix_rfl, List.prefix_rfl, List.prefix_rfl⟩

theorem endures_changeNode {f : NodeRow → NodeRow}
    (hf : ∀ row ∈ s.nodes.rows, row.publicId = p → (f row).identity = row.identity) :
    Endures s (s.changeNode p f) := by
  apply endures_mapNodes
  intro row hrow
  by_cases hkey : row.publicId = p
  · rw [if_pos hkey]
    exact hf row hrow hkey
  · rw [if_neg hkey]

theorem endures_addNode (row : ℤ → NodeRow) : Endures s { s with nodes := s.nodes.add row } := by
  constructor
  · show _ <+: (s.nodes.rows ++ [row s.nodes.nextId]).map NodeRow.identity
    rw [List.map_append]
    exact List.prefix_append _ _
  · exact List.prefix_rfl
  · exact List.prefix_rfl

theorem endures_materialize (env : Env) (s : Store) (p : String) (kind : NodeKind) :
    Endures s (s.materialize env p kind) := by
  unfold materialize
  split
  · exact .refl s
  · exact endures_addNode _

end Store

namespace Reconcile

open Store

variable {env : Env} {s : Store} {p q : String}

theorem identity_documented (id : ℤ) (row : NodeRow) :
    (documented env id row).identity = row.identity := by
  unfold documented
  split <;> rfl

theorem identity_titled (titles : Keyed String) (row : NodeRow) :
    (titled env titles row).identity = row.identity := by
  unfold titled
  split
  · split <;> rfl
  · rfl

theorem endures_withGraphDocument (env : Env) (s : Store) (p : String) (type : DocumentType) :
    Endures s (withGraphDocument env p type s) := by
  unfold withGraphDocument
  split
  · exact .refl s
  · exact endures_changeNode fun row _ _ => identity_documented _ row

theorem prefix_addPair (pair : ℤ × ℤ) (pairs : List (ℤ × ℤ)) : pairs <+: addPair pair pairs := by
  unfold addPair
  split
  · exact List.prefix_rfl
  · exact List.prefix_append _ _

theorem endures_withEdge (s : Store) (p child : String) : Endures s (withEdge p child s) := by
  unfold withEdge
  split
  · exact ⟨List.prefix_rfl, prefix_addPair _ _, List.prefix_rfl⟩
  · exact .refl s

theorem endures_foldl_withChild (env : Env) (p : String) (s : Store) (children : List String) :
    Endures s (children.foldl (withChild env p) s) := by
  induction children generalizing s with
  | nil => exact .refl s
  | cons child rest ih =>
    have hchild : Endures s (withChild env p s child) := by
      unfold withChild
      split
      · exact .refl s
      · exact (endures_materialize env s child .default).trans (endures_withEdge _ p child)
    exact hchild.trans (ih _)

theorem endures_foldl_withMember (env : Env) (s : Store) (missing : Keyed String) :
    Endures s (missing.foldl (withMember env) s) := by
  induction missing generalizing s with
  | nil => exact .refl s
  | cons entry rest ih => exact (endures_addNode _).trans (ih _)

theorem endures_withMembers (env : Env) (space : Space) (titles : Keyed String) (s : Store) :
    Endures s (withMembers env space titles s) := by
  have hspaces : (Spaces.withDocument env space s).2.2.spaces.rows.map Space.identity =
      s.spaces.rows.map Space.identity :=
    map_spaces_withDocument env s space Space.identity fun _ _ => rfl
  have hdocument : Endures s (Spaces.withDocument env space s).2.2 := by
    rw [withDocument_frame]
    exact ⟨List.prefix_rfl, List.prefix_rfl, hspaces ▸ List.prefix_rfl⟩
  have htitled : ∀ t : Store, Endures t (withTitles env titles t) := fun t =>
    (endures_mapNodes fun row _ => identity_titled titles row).trans
      (endures_foldl_withMember env _ _)
  have hlive : Endures (withTitles env titles (Spaces.withDocument env space s).2.2)
      (withMembers env space titles s) := endures_of_graph rfl rfl rfl
  exact (hdocument.trans (htitled _)).trans hlive

theorem endures_carriedOut (env : Env) (plan : Plan) (s : Store) :
    Endures s (carriedOut env plan s) := by
  cases plan with
  | editor p content =>
    exact (endures_materialize env s p .default).trans (endures_changeNode fun _ _ _ => rfl)
  | space p titles =>
    cases hrow : spaceFor? p titles s with
    | some row =>
      rw [carriedOut_space hrow]
      exact endures_withMembers env row titles s
    | none =>
      rw [carriedOut_of_no_space hrow]
      exact .refl s
  | graph p type kind children =>
    have hmade := endures_materialize env s p kind
    have hdocument := endures_withGraphDocument env (s.materialize env p kind) p type
    exact (hmade.trans hdocument).trans (endures_foldl_withChild env p _ children)
  | ignore reason => exact .refl s

/-- A plan takes a member out of a space only if it is for that space and does not list it. -/
theorem isMember_carriedOut_or (quiet : env.rivals = {}) (h : s.GraphSound env.tokens)
    {plan : Plan} (hplan : plan.Sound) (hmember : s.IsMember p q) :
    (carriedOut env plan s).IsMember p q ∨ ∃ titles, plan = .space p titles ∧ q ∉ titles.keys := by
  cases hobstacle : plan.obstacle? s with
  | some fault =>
    rw [carriedOut_of_obstacle hobstacle]
    exact Or.inl hmember
  | none =>
    rw [isMember_carriedOut_iff quiet h hplan (Plan.fits_of_obstacle? hobstacle)]
    cases plan with
    | space p' titles =>
      unfold Plan.membersOf?
      dsimp only
      split_ifs with hthere
      · obtain ⟨rfl, -⟩ := hthere
        by_cases hlisted : q ∈ titles.keys
        · exact Or.inl hlisted
        · exact Or.inr ⟨titles, rfl, hlisted⟩
      · exact Or.inl hmember
    | _ => exact Or.inl hmember

end Reconcile

/-! ### Passes -/

/-- The event asks for the members of the space `p`, and the node `q` is not among them. -/
def QueuedEvent.Omits (p q : String) (e : QueuedEvent) : Prop :=
  ∃ event titles, e.decode = .ok event ∧ Plan.ofEvent event = .space p titles ∧ q ∉ titles.keys

namespace Store

variable {env : Env} {s t u : Store}

/-- Nodes, edges and spaces stay, and members unless one of the events omits them. -/
structure Outlasts (events : List QueuedEvent) (s t : Store) : Prop extends Endures s t where
  members : ∀ p q, s.IsMember p q → t.IsMember p q ∨ ∃ e ∈ events, e.Omits p q

theorem Outlasts.refl (s : Store) : Outlasts [] s s :=
  ⟨.refl s, fun _ _ hmember => Or.inl hmember⟩

theorem Outlasts.congr {events : List QueuedEvent} (h : Outlasts events s t)
    (hnodes : u.nodes = t.nodes) (hedges : u.edges = t.edges) (hspaces : u.spaces = t.spaces)
    (hlive : u.live = t.live) : Outlasts events s u := by
  have hendures : Endures t u := endures_of_graph hnodes hedges hspaces
  refine ⟨h.toEndures.trans hendures, fun p q hmember => ?_⟩
  rcases h.members p q hmember with hkept | homitted
  · exact Or.inl (hkept.mono hendures.extends fun _ hpair => hlive ▸ hpair)
  · exact Or.inr homitted

/-- One more event is settled. -/
theorem Outlasts.settle {events : List QueuedEvent} (h : Outlasts events s t)
    (quiet : env.rivals = {}) (ht : t.GraphSound env.tokens) (e : QueuedEvent) :
    Outlasts (events ++ [e]) s (Pass.settle env t e) := by
  have hmore : Outlasts (events ++ [e]) s t := by
    refine ⟨h.toEndures, fun p q hmember => ?_⟩
    rcases h.members p q hmember with hkept | ⟨other, hother, homits⟩
    · exact Or.inl hkept
    · exact Or.inr ⟨other, List.mem_append_left _ hother, homits⟩
  rcases Pass.settle_cases quiet ht e with ⟨-, hsame⟩ | ⟨-, hsettled⟩
  · rw [hsame]
    exact hmore
  · rw [hsettled]
    cases hverdict : e.verdict t with
    | dropped => exact hmore.congr rfl rfl rfl rfl
    | buried fault => exact hmore.congr rfl rfl rfl rfl
    | carried plan =>
      obtain ⟨event, hevent, hplan, -⟩ := Pass.exists_event_of_carried hverdict
      have hsound := (Pass.sound_of_verdict hverdict).1
      have hclaimed : Outlasts (events ++ [e]) s (t.claim e.id) := hmore.congr rfl rfl rfl rfl
      have hcarried := Reconcile.endures_carriedOut env plan (t.claim e.id)
      refine ⟨hclaimed.toEndures.trans hcarried, fun p q hmember => ?_⟩
      rcases hclaimed.members p q hmember with hkept | homitted
      · rcases Reconcile.isMember_carriedOut_or quiet (Pass.claim_sound ht e.id) hsound hkept with
          hstill | ⟨titles, rfl, hunlisted⟩
        · exact Or.inl hstill
        · have homits : e.Omits p q := ⟨event, titles, hevent, hplan, hunlisted⟩
          exact Or.inr ⟨e, List.mem_append_right _ List.mem_cons_self, homits⟩
      · exact Or.inr homitted

theorem Outlasts.foldl_settle {handled : List QueuedEvent} (h : Outlasts handled s t)
    (quiet : env.rivals = {}) (ht : t.Sound env.tokens) (events : List QueuedEvent) :
    Outlasts (handled ++ events) s (events.foldl (Pass.settle env) t) := by
  induction events generalizing handled t with
  | nil =>
    rw [List.append_nil]
    exact h
  | cons e rest ih =>
    have hfirst := h.settle quiet ht.toGraphSound e
    have hrest := ih hfirst (Pass.settle_sound quiet ht e)
    rwa [List.append_assoc, List.singleton_append] at hrest

/-- The events were queued in `s`, and none of them is in `t`. -/
def Handled (events : List QueuedEvent) (s t : Store) : Prop :=
  ∀ e ∈ events, e ∈ s.queue.rows ∧ t.isQueued e.id = false

end Store

open Store

variable {tokens : Tokenizer} {env : Env} {s t : Store}

theorem Pass.outlasts_run (quiet : env.rivals = {}) (h : s.Sound env.tokens) (owner : ℕ)
    (strict : Bool) (ttl : ℤ) : ∃ events,
      Handled events s ((run env owner strict ttl).outcome s).2 ∧
      Outlasts events s ((run env owner strict ttl).outcome s).2 := by
  rcases run_outcome env owner strict ttl s with hsame | ⟨handled, hinitial, hworked⟩
  · refine ⟨[], fun e he => absurd he List.not_mem_nil, ?_⟩
    rw [hsame]
    exact .refl s
  · set leased := leased env.now owner Lease.processing ttl s with hleased
    have hsound : leased.Sound env.tokens := withLeases_sound h _
    have hstart : Outlasts [] s leased := (Outlasts.refl s).congr rfl rfl rfl rfl
    have hsettled := hstart.foldl_settle quiet hsound handled
    refine ⟨handled, fun e he => ⟨mem_pending.mp (hinitial.subset he), ?_⟩, ?_⟩
    · rw [hworked, Bool.eq_false_iff]
      intro hqueued
      obtain ⟨other, hother, hid⟩ := isQueued_iff.mp hqueued
      have hrest : other ∈ (handled.foldl (settle env) leased).queue.rows := hother
      rw [queue_foldl_settle quiet hsound, List.mem_filter, decide_eq_true_eq] at hrest
      exact hrest.2 (hid ▸ List.mem_map_of_mem he)
    · rw [hworked]
      exact hsettled.congr rfl rfl rfl rfl

theorem outlasts_passes (h : s.Sound tokens) (schedule : List Turn) : ∃ events,
    Handled events s (Passes.run tokens schedule { store := s }).store ∧
      Outlasts events s (Passes.run tokens schedule { store := s }).store := by
  set c := Passes.run tokens schedule { store := s } with hc
  have hserial : Serial tokens s c := serial_run h schedule
  refine ⟨c.log.map Prod.fst, fun e he => ⟨?_, ?_⟩, ?_⟩
  · exact Pass.mem_pending.mp (hserial.split ▸ List.mem_append_left _ he)
  · rw [Bool.eq_false_iff]
    intro hqueued
    obtain ⟨other, hother, hid⟩ := isQueued_iff.mp hqueued
    have hids := nodup_pending h
    rw [← hserial.split, List.map_append, List.nodup_append] at hids
    have hleft : e.id ∈ (c.log.map Prod.fst).map (·.id) := List.mem_map_of_mem he
    have hright : other.id ∈ c.store.pending.map (·.id) :=
      List.mem_map_of_mem (Pass.mem_pending.mpr hother)
    exact hids.2.2 e.id hleft other.id hright hid.symm
  · refine Passes.run_induction (P := fun log t => Outlasts (log.map Prod.fst) s t) h
      (Outlasts.refl s) (fun log t leases hkept => hkept.congr rfl rfl rfl rfl) ?_ schedule
    intro log t e clock ht _ hkept
    have hquiet : ({ clock, tokens } : Env).rivals = {} := rfl
    rw [List.map_append]
    exact hkept.settle hquiet ht.toGraphSound e

/-! ### Other operations -/

namespace Operation

/-- The operation settles no event, marks no node and takes none out of a space. -/
def Spares : Operation → Prop
  | pass _ _ _ => False
  | setRemoved _ _ => False
  | expel _ _ => False
  | op => op.Guarded

theorem endures_titled (h : s.GraphSound env.tokens) {p : String} {row : NodeRow}
    (hrow : s.nodeRow? p = some row) (title : String) :
    Endures s (s.changeNode p (Nodes.savedRow env { row.value with title })) ∧
      (s.changeNode p (Nodes.savedRow env { row.value with title })).live = s.live := by
  obtain ⟨hmem, rfl⟩ := h.nodeRow?_eq_some.mp hrow
  refine ⟨endures_changeNode fun other hother hkey => ?_, rfl⟩
  obtain rfl := List.inj_on_of_nodup_map h.nodeKeys hother hmem hkey
  have hkind : other.kindValue.name = other.kind := (h.derived other hother).kind_name
  show (other.id, other.publicId, other.kindValue.name, other.createdAt, other.removed) = _
  rw [hkind]
  rfl

theorem endures_perform (quiet : env.rivals = {}) (h : s.Sound env.tokens) {op : Operation}
    (hop : op.Spares) : Endures s (op.perform env s) ∧ (op.perform env s).live = s.live := by
  have heffect := op.effect_perform quiet h.toGraphSound
  generalize op.perform env s = t at heffect ⊢
  cases heffect with
  | nothing => exact ⟨.refl s, rfl⟩
  | upsert p type data json =>
    unfold upserted
    split <;> exact ⟨endures_of_graph rfl rfl rfl, rfl⟩
  | @delete p type row hrow =>
    obtain ⟨hnodes, hspaces⟩ := rows_deleteDocument env.clock s row
    refine ⟨⟨?_, List.prefix_rfl, ?_⟩, rfl⟩
    · rw [hnodes, List.map_map]
      exact List.prefix_rfl
    · rw [hspaces, List.map_map]
      exact List.prefix_rfl
  | createSpace =>
    refine ⟨⟨List.prefix_rfl, List.prefix_rfl, ?_⟩, rfl⟩
    show _ <+: (s.spaces.rows ++ [_]).map Space.identity
    rw [List.map_append]
    exact List.prefix_append _ _
  | setTitle hrow title => exact endures_titled h.toGraphSound hrow title
  | enqueue | requeue | snapshot => exact ⟨endures_of_graph rfl rfl rfl, rfl⟩
  | _ => exact False.elim hop

/-- Only the membership that is named ends. -/
theorem outlasts_expel (h : s.GraphSound env.tokens) (space node : String) :
    Endures s ((expel space node).perform env s) ∧ ∀ p q, s.IsMember p q →
      ((expel space node).perform env s).IsMember p q ∨ expel space node = expel p q := by
  have hsame (hnothing : (expel space node).perform env s = s) :
      Endures s ((expel space node).perform env s) ∧ ∀ p q, s.IsMember p q →
        ((expel space node).perform env s).IsMember p q ∨ expel space node = expel p q := by
    rw [hnothing]
    exact ⟨.refl s, fun _ _ hmember => Or.inl hmember⟩
  cases hspace : s.space? space with
  | none => exact hsame (Command.outcome_of_error (Spaces.expel_of_no_space hspace node))
  | some found =>
    cases hnode : s.nodeRow? node with
    | none => exact hsame (Command.outcome_of_error (Spaces.expel_of_no_node hspace hnode))
    | some row =>
      have hmoved := Command.outcome_of_ok (Spaces.expel_of_some h hspace hnode)
      have hendures : Endures s ((expel space node).perform env s) := by
        show Endures s ((Spaces.expel space node).outcome s).2
        rw [hmoved]
        exact endures_of_graph rfl rfl rfl
      refine ⟨hendures, fun p q hmember => ?_⟩
      obtain ⟨other, hother, rfl, member, hrow, rfl, hpair⟩ := hmember
      obtain ⟨hfound, rfl⟩ := h.space?_eq_some.mp hspace
      obtain ⟨hthere, rfl⟩ := h.nodeRow?_eq_some.mp hnode
      by_cases hnamed : (other.id, member.id) = (found.id, row.id)
      · obtain ⟨hsid, hid⟩ := Prod.mk.inj hnamed
        obtain rfl := h.spaceIds.eq_of_id_eq hother hfound hsid
        obtain rfl := h.nodeIds.eq_of_id_eq hrow hthere hid
        exact Or.inr rfl
      · left
        show ((Spaces.expel found.publicId row.publicId).outcome s).2.IsMember _ _
        rw [hmoved]
        exact ⟨other, hother, rfl, member, hrow, rfl,
          List.mem_filter.mpr ⟨hpair, decide_eq_true hnamed⟩⟩

/-- Marking a node changes its mark alone. -/
theorem setRemoved_marked (env : Env) (s : Store) (removed : Bool) (p : String) :
    ∃ f : NodeRow → NodeRow, (setRemoved removed p).perform env s = s.mapNodes f ∧
      ∀ row ∈ s.nodes.rows, (f row).id = row.id ∧ (f row).publicId = row.publicId ∧
        (f row).kind = row.kind ∧ (f row).createdAt = row.createdAt ∧
        ((f row).removed = row.removed ∨ (f row).removed = removed ∧ row.publicId = p) := by
  cases hnode : s.hasNode p with
  | false =>
    have hsame : (setRemoved removed p).perform env s = s :=
      Command.outcome_of_error (Nodes.setRemoved_of_none hnode removed)
    refine ⟨fun row => row, ?_, fun row _ => ⟨rfl, rfl, rfl, rfl, Or.inl rfl⟩⟩
    rw [hsame, mapNodes_self fun _ _ => rfl]
  | true =>
    refine ⟨_, Command.outcome_of_ok (Nodes.setRemoved_of_some hnode removed), fun row _ => ?_⟩
    by_cases hkey : row.publicId = p
    · rw [if_pos hkey]
      exact ⟨rfl, rfl, rfl, rfl, Or.inr ⟨rfl, hkey⟩⟩
    · rw [if_neg hkey]
      exact ⟨rfl, rfl, rfl, rfl, Or.inl rfl⟩

end Operation

/-! ### The lifecycle -/

namespace Occurrence

/-- What is done is done through the program. -/
def Guarded : Occurrence → Prop
  | operation _ op => op.Guarded
  | passes _ => True

/-- One pass, or several that overlap. -/
def IsPass : Occurrence → Prop
  | operation _ (.pass _ _ _) => True
  | passes _ => True
  | _ => False

end Occurrence

/-- What an occurrence may make of the nodes, edges, spaces and members that there were. -/
structure Lifecycle (o : Occurrence) (s t : Store) : Prop where
  /-- A node has another mark only if it was removed or restored by its public id. -/
  nodes : ∀ old ∈ s.nodes.rows, ∃ row ∈ t.nodes.rows, row.id = old.id ∧
    row.publicId = old.publicId ∧ row.kind = old.kind ∧ row.createdAt = old.createdAt ∧
    (row.removed = old.removed ∨
      ∃ clock, o = .operation clock (.setRemoved row.removed old.publicId))
  edges : ∀ edge ∈ s.edges, edge ∈ t.edges
  spaces : ∀ old ∈ s.spaces.rows, ∃ space ∈ t.spaces.rows, space.id = old.id ∧
    space.publicId = old.publicId ∧ space.title = old.title ∧ space.slug = old.slug ∧
    space.createdAt = old.createdAt
  /-- Whoever is a member no longer was taken out by name, or by a pass that has handled an event
  for the space which does not list the node. -/
  members : ∀ p q, s.IsMember p q → t.IsMember p q ∨
    (∃ clock, o = .operation clock (.expel p q)) ∨
    (o.IsPass ∧ ∃ e ∈ s.queue.rows, t.isQueued e.id = false ∧ e.Omits p q)

theorem Store.Endures.lifecycle {o : Occurrence} (h : Endures s t)
    (hmembers : ∀ p q, s.IsMember p q → t.IsMember p q ∨
      (∃ clock, o = .operation clock (.expel p q)) ∨
      (o.IsPass ∧ ∃ e ∈ s.queue.rows, t.isQueued e.id = false ∧ e.Omits p q)) :
    Lifecycle o s t := by
  obtain ⟨hnodes, hspaces⟩ := h.columns
  refine ⟨fun old hold => ?_, h.edges.subset, hspaces, hmembers⟩
  obtain ⟨row, hrow, hid, hkey, hkind, htime, hmark⟩ := hnodes old hold
  exact ⟨row, hrow, hid, hkey, hkind, htime, Or.inl hmark⟩

theorem Store.Outlasts.lifecycle {o : Occurrence} {events : List QueuedEvent}
    (h : Outlasts events s t) (hpass : o.IsPass) (hhandled : Handled events s t) :
    Lifecycle o s t := by
  refine h.toEndures.lifecycle fun p q hmember => ?_
  rcases h.members p q hmember with hstill | ⟨e, he, homits⟩
  · exact Or.inl hstill
  · obtain ⟨hqueued, hgone⟩ := hhandled e he
    exact Or.inr (Or.inr ⟨hpass, e, hqueued, hgone, homits⟩)

theorem Operation.lifecycle_of_spares (clock : ℤ) (h : s.Sound tokens) {op : Operation}
    (hop : op.Spares) : Lifecycle (.operation clock op) s (op.perform { clock, tokens } s) := by
  have quiet : ({ clock, tokens } : Env).rivals = {} := rfl
  obtain ⟨hendures, hlive⟩ := endures_perform quiet h hop
  refine hendures.lifecycle fun p q hmember => Or.inl ?_
  exact hmember.mono hendures.extends fun _ hpair => hlive ▸ hpair

theorem Operation.lifecycle_expel (clock : ℤ) (h : s.GraphSound tokens) (space node : String) :
    Lifecycle (.operation clock (.expel space node)) s
      ((expel space node).perform { clock, tokens } s) := by
  have hgraph : s.GraphSound ({ clock, tokens } : Env).tokens := h
  obtain ⟨hendures, hmembers⟩ := outlasts_expel hgraph space node
  refine hendures.lifecycle fun p q hmember => ?_
  rcases hmembers p q hmember with hstill | hnamed
  · exact Or.inl hstill
  · exact Or.inr (Or.inl ⟨clock, by rw [hnamed]⟩)

theorem Operation.lifecycle_setRemoved (tokens : Tokenizer) (clock : ℤ) (s : Store)
    (removed : Bool) (p : String) : Lifecycle (.operation clock (.setRemoved removed p)) s
      ((setRemoved removed p).perform { clock, tokens } s) := by
  obtain ⟨f, hmarked, hcolumns⟩ := setRemoved_marked { clock, tokens } s removed p
  have hextends : Extends s (s.mapNodes f) :=
    extends_mapNodes fun row hrow => ⟨(hcolumns row hrow).1, (hcolumns row hrow).2.1⟩
  rw [hmarked]
  constructor
  · intro old hold
    obtain ⟨hid, hkey, hkind, htime, hmark⟩ := hcolumns old hold
    refine ⟨f old, List.mem_map_of_mem hold, hid, hkey, hkind, htime, ?_⟩
    rcases hmark with hsame | ⟨hnew, hnamed⟩
    · exact Or.inl hsame
    · exact Or.inr ⟨clock, by rw [hnew, hnamed]⟩
  · exact fun _ hedge => hedge
  · exact fun old hold => ⟨old, hold, rfl, rfl, rfl, rfl, rfl⟩
  · exact fun p q hmember => Or.inl (hmember.mono hextends fun _ hpair => hpair)

/-- Whatever is done through the program to a reachable store, nodes, edges and spaces last, only a
node's own removal or restoration changes its mark, and only by name or by an event for its space
does a member leave it. -/
theorem Reachable.lifecycle_monotone (h : Reachable tokens s) {o : Occurrence} (ho : o.Guarded) :
    Lifecycle o s (o.run tokens s) := by
  have hsound : s.Sound tokens := h.sound
  cases o with
  | passes schedule =>
    obtain ⟨events, hhandled, houtlasts⟩ := outlasts_passes hsound schedule
    exact houtlasts.lifecycle trivial hhandled
  | operation clock op =>
    have quiet : ({ clock, tokens } : Env).rivals = {} := rfl
    cases op with
    | pass owner strict ttl =>
      obtain ⟨events, hhandled, houtlasts⟩ := Pass.outlasts_run quiet hsound owner strict ttl
      exact houtlasts.lifecycle trivial hhandled
    | expel space node => exact Operation.lifecycle_expel clock hsound.toGraphSound space node
    | setRemoved removed p => exact Operation.lifecycle_setRemoved tokens clock s removed p
    | _ => exact Operation.lifecycle_of_spares clock hsound ho

/-- A space has two members, and an event that lists one of them alone is queued. -/
def shrinking : List (ℤ × Operation) :=
  [(1000, .createSpace "s" "S" none fun _ => ""),
    (2000, .upsert "s" .space [] (some (.obj [("nodes", .obj [("a", .obj []), ("b", .obj [])])]))),
    (3000, .pass 1 false 60000), (4000, .setRemoved true "b"),
    (5000, .upsert "s" .space [] (some (.obj [("nodes", .obj [("a", .obj [])])])))]

/-- The lease of the first pass runs out, and the second pass handles the event before it. -/
def shrink : Occurrence :=
  .passes [⟨0, 6000, .enter 1 0⟩, ⟨0, 6000, .next⟩, ⟨1, 7000, .enter 2 60000⟩, ⟨1, 7000, .next⟩,
    ⟨1, 7000, .next⟩, ⟨0, 8000, .next⟩]

theorem Reachable.lifecycle_shrinking :
    let s := History.run String.length shrinking {}
    let t := shrink.run String.length s
    Reachable String.length s ∧ shrink.Guarded ∧ s.IsMember "s" "b" ∧ ¬t.IsMember "s" "b" ∧
      t.IsMember "s" "a" ∧ t.nodes.rows.map (·.removed) = [false, true] ∧ Lifecycle shrink s t := by
  intro s t
  have hheld : ∀ entry ∈ shrinking, entry.2.Held := by
    simp [shrinking, Operation.Held]
  have hreachable : Reachable String.length s := Reachable.empty.run hheld
  exact ⟨hreachable, trivial, by decide +kernel, by decide +kernel, by decide +kernel,
    by decide +kernel, hreachable.lifecycle_monotone trivial⟩

end NodeGraph
