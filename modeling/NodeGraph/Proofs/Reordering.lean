import NodeGraph.Proofs.Reconcile.Crowds

/-!
Events out of order: an event that gives a node its content and an event of another document may
come in either order, and the graph is the same, row ids and times aside, unless more nodes are
listed than one statement can be given.
-/
namespace NodeGraph

open Store

namespace Store

variable {tokens : Tokenizer} {s t : Store} {p q : String}

/-- The node `q` has been taken out of the space `p`. -/
def IsExpelled (s : Store) (p q : String) : Prop :=
  ∃ space ∈ s.spaces.rows, space.publicId = p ∧
    ∃ row ∈ s.nodes.rows, row.publicId = q ∧ (space.id, row.id) ∈ s.deleted

/-- The same nodes, edges, spaces and memberships, the row ids of nodes and all times aside. -/
structure SameGraph (s t : Store) : Prop where
  nodes : (s.nodes.rows.map NodeRow.unnumbered).Perm (t.nodes.rows.map NodeRow.unnumbered)
  children : ∀ p q, s.IsChild p q ↔ t.IsChild p q
  spaces : s.spaces.map Space.unrevised = t.spaces.map Space.unrevised
  members : ∀ p q, s.IsMember p q ↔ t.IsMember p q
  expelled : ∀ p q, s.IsExpelled p q ↔ t.IsExpelled p q
  roles : s.members = t.members
  documents : s.documents = t.documents

theorem nodup_unnumbered (h : s.GraphSound tokens) :
    (s.nodes.rows.map NodeRow.unnumbered).Nodup := by
  refine List.Nodup.of_map (·.publicId) ?_
  rw [List.map_map]
  exact h.nodeKeys

theorem mem_unnumbered_of_facts (hs : s.GraphSound tokens) (ht : t.GraphSound tokens)
    (h : ∀ q, s.facts? q = t.facts? q) {row : NodeRow}
    (hrow : row ∈ s.nodes.rows.map NodeRow.unnumbered) :
    row ∈ t.nodes.rows.map NodeRow.unnumbered := by
  obtain ⟨old, hold, rfl⟩ := List.mem_map.mp hrow
  have hfacts := h old.publicId
  unfold facts? at hfacts
  rw [hs.nodeRow?_eq_some.mpr ⟨hold, rfl⟩] at hfacts
  obtain ⟨other, hother, hsame⟩ := Option.map_eq_some_iff.mp hfacts.symm
  obtain ⟨hmem, hkey⟩ := ht.nodeRow?_eq_some.mp hother
  rw [← NodeRow.unnumbered_eq_of_facts (ht.derived other hmem) (hs.derived old hold) hkey hsame]
  exact List.mem_map_of_mem hmem

/-- Stores where every public id has the same facts have the same nodes. -/
theorem perm_unnumbered (hs : s.GraphSound tokens) (ht : t.GraphSound tokens)
    (h : ∀ q, s.facts? q = t.facts? q) :
    (s.nodes.rows.map NodeRow.unnumbered).Perm (t.nodes.rows.map NodeRow.unnumbered) :=
  (List.perm_ext_iff_of_nodup (nodup_unnumbered hs) (nodup_unnumbered ht)).mpr fun _ =>
    ⟨mem_unnumbered_of_facts hs ht h, mem_unnumbered_of_facts ht hs fun q => (h q).symm⟩

/-- Where a graph grows, nobody is taken out of a space or put back. -/
theorem isExpelled_congr (hs : s.GraphSound tokens) (ht : t.GraphSound tokens) (h : Extends s t)
    (hends : ∀ pair ∈ s.deleted, s.hasSpaceId pair.1 = true ∧ s.hasNodeId pair.2 = true)
    (hdeleted : t.deleted = s.deleted) : t.IsExpelled p q ↔ s.IsExpelled p q := by
  have hends' : ∀ pair ∈ t.deleted, t.hasSpaceId pair.1 = true ∧ t.hasNodeId pair.2 = true := by
    rw [hdeleted]
    exact fun pair hpair => ⟨h.hasSpaceId (hends pair hpair).1, h.hasNodeId (hends pair hpair).2⟩
  have hextends : Extends { s with live := s.deleted } { t with live := t.deleted } :=
    ⟨h.nodes, h.spaces, h.edges⟩
  refine isMember_congr (hs.withLive hends) (ht.withLive hends') hextends fun _ _ _ _ => ?_
  rw [hdeleted]

end Store

namespace Plan

variable {r : Surroundings} {p q : String}

/-- A plan that gives the node of a public id no content, and no graph document but one that comes
with content. -/
def Spares (p : String) : Plan → Prop
  | editor q _ => q ≠ p
  | graph q type kind _ => q = p → type = .graph ∧ kind = .default
  | _ => True

theorem attached_attached (facts : NodeFacts) :
    (facts.attached r q).attached r q = facts.attached r q := by
  unfold NodeFacts.attached
  simp [Option.or_assoc]

theorem attached_written (title : Option String) (content : Option (Option String))
    (facts : NodeFacts) :
    (facts.written title content).attached r q = (facts.attached r q).written title content := rfl

/-- A node that has looked for a graph document gains none. -/
theorem documented_graph_attached (content : Option (Option String)) (facts : NodeFacts) :
    ((facts.attached r q).written none content).documented r q .graph =
      (facts.attached r q).written none content := by
  unfold NodeFacts.documented NodeFacts.attached NodeFacts.written
  cases r.documentId? q .graph with
  | none => rfl
  | some id => cases facts.graphDocument <;> rfl

/-- A node that is given its content may be given its graph document before. -/
theorem attached_documented_graph (content : Option String) (facts : NodeFacts) :
    ((facts.documented r q .graph).attached r q).written none (some content) =
      (facts.attached r q).written none (some content) := by
  unfold NodeFacts.documented NodeFacts.attached NodeFacts.written
  cases r.documentId? q .graph with
  | none => rfl
  | some id => cases hgraph : facts.graphDocument <;> simp [hgraph]

/-- The content of a node may be given before or after a plan that spares the node. -/
theorem touch_editor_comm {plan : Plan} (h : plan.Spares p) (content : Json)
    (facts : Option NodeFacts) :
    plan.touch r q ((editor p content).touch r q facts) =
      (editor p content).touch r q (plan.touch r q facts) := by
  rw [touch_editor, touch_editor]
  by_cases hq : q = p
  · rw [if_pos hq, if_pos hq]
    subst hq
    cases plan with
    | editor p' content' =>
      have hne : q ≠ p' := Ne.symm h
      rw [touch_editor, touch_editor, if_neg hne, if_neg hne]
    | space p' titles =>
      by_cases hspace : r.hasSpace p' = true
      · rw [touch_space hspace, touch_space hspace]
        cases Keyed.get? q titles with
        | none => rfl
        | some title =>
          dsimp only
          rw [Option.getD_some, Option.getD_some, attached_written]
          cases facts with
          | none =>
            rw [Option.getD_none, Option.getD_none, attached_attached]
            rfl
          | some facts => rfl
      · simp [touch, asks, hspace]
    | graph p' type kind children =>
      rw [touch_graph, touch_graph]
      by_cases hself : q = p'
      · obtain ⟨rfl, rfl⟩ := h hself.symm
        rw [if_pos hself, if_pos hself, Option.getD_some, Option.getD_some,
          documented_graph_attached, attached_documented_graph]
      · rw [if_neg hself, if_neg hself]
        by_cases hchild : q ∈ children
        · rw [if_pos hchild, if_pos hchild, Option.getD_some, Option.getD_some]
        · rw [if_neg hchild, if_neg hchild]
    | ignore reason => rfl
  · rw [if_neg hq, if_neg hq]

end Plan

namespace Reconcile

variable {tokens : Tokenizer} {s t t' : Store} {p : String}

/-- Plans that come to the same leave the same graph. -/
theorem Completed.sameGraph {plans plans' : List Plan} (hs : s.GraphSound tokens)
    (hends : ∀ pair ∈ s.deleted, s.hasSpaceId pair.1 = true ∧ s.hasNodeId pair.2 = true)
    (ht : t.GraphSound tokens) (ht' : t'.GraphSound tokens) (h : Completed plans s t)
    (h' : Completed plans' s t')
    (hfacts : ∀ q facts, Plan.touchAll s.surroundings q plans facts =
      Plan.touchAll s.surroundings q plans' facts)
    (hlinks : ∀ a b, (∃ plan ∈ plans, plan.Links a b) ↔ ∃ plan ∈ plans', plan.Links a b)
    (hspaces : ∀ row, Plan.giveAll s.surroundings plans row =
      Plan.giveAll s.surroundings plans' row)
    (hmembers : ∀ p, plans.reverse.findSome? (·.membersOf? s.surroundings p) =
      plans'.reverse.findSome? (·.membersOf? s.surroundings p)) : SameGraph t t' where
  nodes := perm_unnumbered ht ht' fun q => by rw [h.facts, h'.facts, hfacts]
  children a b := by rw [h.children, h'.children, hlinks]
  spaces := by rw [h.spaces, h'.spaces, funext hspaces]
  members p q := by rw [h.members, h'.members, hmembers]
  expelled p q :=
    (isExpelled_congr hs ht h.persists.toExtends hends h.records.deleted).trans
      (isExpelled_congr hs ht' h'.persists.toExtends hends h'.records.deleted).symm
  roles := h.records.members.trans h'.records.members.symm
  documents := h.records.documents.trans h'.records.documents.symm

/-- Giving a node its content and a plan that spares the node may be done in either order. -/
theorem Completed.sameGraph_of_spares {content : Json} {plan : Plan} (hs : s.GraphSound tokens)
    (hends : ∀ pair ∈ s.deleted, s.hasSpaceId pair.1 = true ∧ s.hasNodeId pair.2 = true)
    (ht : t.GraphSound tokens) (ht' : t'.GraphSound tokens) (hspares : plan.Spares p)
    (h : Completed [.editor p content, plan] s t) (h' : Completed [plan, .editor p content] s t') :
    SameGraph t t' := by
  refine h.sameGraph hs hends ht ht' h' (fun q facts => ?_) (fun a b => ?_) (fun _ => rfl)
    fun p' => ?_
  · exact Plan.touch_editor_comm hspares content facts
  · simp [or_comm]
  · have hkept : (Plan.editor p content).membersOf? s.surroundings p' = none := rfl
    simp only [List.reverse_cons, List.reverse_nil, List.nil_append, List.cons_append,
      List.findSome?_cons, List.findSome?_nil, hkept]

end Reconcile

namespace Event

variable {tokens : Tokenizer} {s : Store} {edit other : Event}

/-- An event that lists no more nodes than one statement can be given, and that is delivered later,
reports the same if the same spaces are there. -/
theorem report_congr {env env' : Env} {t : Store} (quiet : env.rivals = {})
    (quiet' : env'.rivals = {}) (hs : s.GraphSound env'.tokens) (ht : t.GraphSound env.tokens)
    (hread : other.IsRead) (hshort : (Plan.ofEvent other).Short)
    (h : t.surroundings = s.surroundings) : (other.deliver env t).1 = (other.deliver env' s).1 := by
  have hspaces : ∀ p, (t.space? p).isSome = (s.space? p).isSome := fun p =>
    congrArg (fun r : Surroundings => r.hasSpace p) h
  have hobstacle := Plan.obstacle?_congr (hshort.fits hs hread.sound) (hshort.fits ht hread.sound)
    hspaces
  rw [deliver_eq quiet ht hread, deliver_eq quiet' hs hread, hobstacle]

theorem spares_ofEvent {p : String}
    (h : other.publicId = p → other.type = .space ∨ other.type = .graph) :
    (Plan.ofEvent other).Spares p := by
  have hasked := Plan.asked other
  generalize Plan.ofEvent other = plan at hasked
  cases hasked with
  | editor _ htype =>
    intro hkey
    rw [htype] at h
    simpa using h hkey
  | graph _ _ _ =>
    intro hkey
    rcases h hkey with htype | htype
    · contradiction
    · rw [htype]
      exact ⟨rfl, rfl⟩
  | deleted => trivial
  | space => trivial
  | missing => trivial

end Event

/-- In every reachable store, an event that gives a node its content and another event may come in
either order: the first is applied, the second reports the same, and so is the graph. The other
event may be of any space, as far as it lists no more nodes than one statement can be given, of any
graph, of the graph of another method, and of the content of another node. -/
theorem Reachable.reordered {tokens : Tokenizer} {s : Store} (h : Reachable tokens s)
    {edit other : Event} (hedit : edit.IsRead) (hother : other.IsRead)
    (htype : edit.type = .editor) (haction : edit.action ≠ .delete)
    (hfree : other.publicId = edit.publicId → other.type = .space ∨ other.type = .graph)
    (hshort : (Plan.ofEvent other).Short)
    (clock₁ clock₂ clock₃ clock₄ : ℤ) :
    SameGraph (deliverAll tokens [(clock₁, edit), (clock₂, other)] s)
        (deliverAll tokens [(clock₃, other), (clock₄, edit)] s) ∧
      (edit.deliver { clock := clock₁, tokens } s).1 = .ok .applied ∧
      (edit.deliver { clock := clock₄, tokens } (other.after { clock := clock₃, tokens } s)).1 =
        .ok .applied ∧
      (other.deliver { clock := clock₂, tokens } (edit.after { clock := clock₁, tokens } s)).1 =
        (other.deliver { clock := clock₃, tokens } s).1 := by
  have hquiet : ∀ clock : ℤ, ({ clock, tokens } : Env).rivals = {} := fun _ => rfl
  have hs := h.sound.toGraphSound
  have hread : ∀ clock clock' : ℤ, ∀ first second : Event, first.IsRead → second.IsRead →
      ∀ delivery ∈ [(clock, first), (clock', second)], delivery.2.IsRead := by
    intro clock clock' first second hfirst hsecond delivery hdelivery
    simp only [List.mem_cons, List.not_mem_nil, or_false] at hdelivery
    rcases hdelivery with rfl | rfl
    · exact hfirst
    · exact hsecond
  have hplan : Plan.ofEvent edit = .editor edit.publicId (edit.newData.getD .null) := by
    unfold Plan.ofEvent
    rw [htype]
    cases hact : edit.action with
    | delete => exact absurd hact haction
    | _ => rfl
  have heditShort : (Plan.ofEvent edit).Short := by
    rw [hplan]
    trivial
  have hshorts : ∀ clock clock' : ℤ, ∀ first second : Event, (Plan.ofEvent first).Short →
      (Plan.ofEvent second).Short →
      ∀ delivery ∈ [(clock, first), (clock', second)], (Plan.ofEvent delivery.2).Short := by
    intro clock clock' first second hfirst hsecond
    simpa using ⟨hfirst, hsecond⟩
  have hsame := hread clock₁ clock₂ edit other hedit hother
  have hswapped := hread clock₃ clock₄ other edit hother hedit
  have ht := deliverAll_completed hs hsame (hshorts _ _ _ _ heditShort hshort)
  have ht' := deliverAll_completed hs hswapped (hshorts _ _ _ _ hshort heditShort)
  have happlied : ∀ (clock : ℤ) (t : Store), t.GraphSound tokens →
      (edit.deliver { clock, tokens } t).1 = .ok .applied := by
    intro clock t hgraph
    rw [Event.deliver_eq (hquiet clock) hgraph hedit, hplan]
    rfl
  have hafter : ∀ (clock : ℤ) (event : Event), event.IsRead →
      (event.after { clock, tokens } s).GraphSound tokens := fun clock event hevent =>
    Event.after_sound (hquiet clock) hs hevent
  have hsurroundings : (edit.after { clock := clock₁, tokens } s).surroundings = s.surroundings := by
    rw [Event.after_eq (hquiet clock₁) hs hedit]
    exact Reconcile.surroundings_carriedOut _ _ s
  simp only [List.map_cons, List.map_nil, hplan] at ht ht'
  exact ⟨ht.sameGraph_of_spares hs h.deletedEnds (deliverAll_sound hs hsame)
      (deliverAll_sound hs hswapped) (Event.spares_ofEvent hfree) ht',
    happlied clock₁ s hs, happlied clock₄ _ (hafter clock₃ other hother),
    Event.report_congr (hquiet clock₂) (hquiet clock₃) hs (hafter clock₁ edit hedit) hother
      hshort hsurroundings⟩

/-- A method that is put above a node that is not there yet. -/
def methodAbove : Event where
  id := 1
  publicId := "m"
  type := .methodGraph
  action := .insert
  oldData := none
  newData := some (.obj [("nodes", .arr [.str "x"])])
  createdAt := 0

/-- The content of that node. -/
def contentBelow : Event where
  id := 2
  publicId := "x"
  type := .editor
  action := .update
  oldData := none
  newData := some (.str "text")
  createdAt := 0

theorem Reachable.reordered_methodAbove :
    contentBelow.IsRead ∧ methodAbove.IsRead ∧ (Plan.ofEvent methodAbove).Short ∧
      SameGraph
        (deliverAll String.length [(1000, contentBelow), (2000, methodAbove)] {})
        (deliverAll String.length [(1000, methodAbove), (2000, contentBelow)] {}) ∧
      (deliverAll String.length [(1000, contentBelow), (2000, methodAbove)] {}).edges = [(2, 1)] ∧
      (deliverAll String.length [(1000, methodAbove), (2000, contentBelow)] {}).edges = [(1, 2)] := by
  have hempty : Reachable String.length {} := .empty
  have hedit : contentBelow.IsRead := by
    refine Event.isRead_of_readsBack (by simp [contentBelow]) fun v hv => ?_
    obtain rfl := Option.some.inj hv
    exact ⟨⟨by simp [Json.Fits], rfl, by decide⟩, by simp [Json.ReadsBack, Json.floats]⟩
  have hother : methodAbove.IsRead := by
    refine Event.isRead_of_readsBack (by simp [methodAbove]) fun v hv => ?_
    obtain rfl := Option.some.inj hv
    refine ⟨⟨?_, rfl, by decide⟩, ?_⟩
    · simp [Json.Fits, Json.FitsFields, Json.FitsItems]
    · simp [Json.ReadsBack, Json.floats, Json.floatsOfFields, Json.floatsOfItems]
  obtain ⟨hsame, -⟩ := hempty.reordered hedit hother rfl (by decide) (by decide) trivial 1000 2000
    1000 2000
  exact ⟨hedit, hother, trivial, hsame, by decide +kernel, by decide +kernel⟩

/-- A space that lists so many nodes. -/
def crowdedSpace (n : ℕ) : Event where
  id := 1
  publicId := "s"
  type := .space
  action := .insert
  oldData := none
  newData := some (crowdListing n)
  createdAt := 0

/-- The content of the first of them. -/
def contentWithin : Event where
  id := 2
  publicId := crowdKey 0
  type := .editor
  action := .insert
  oldData := none
  newData := some (.str "text")
  createdAt := 0

theorem isRead_contentWithin : contentWithin.IsRead := by
  refine Event.isRead_of_readsBack (by simp [contentWithin]) fun v hv => ?_
  obtain rfl := Option.some.inj hv
  exact ⟨⟨by simp [Json.Fits], rfl, by decide⟩, by simp [Json.ReadsBack, Json.floats]⟩

section Crowded

variable {tokens : Tokenizer} {s : Store} {space : Space} {n : ℕ}

theorem isRead_crowdedSpace (h : n ≤ crowdLimit) : (crowdedSpace n).IsRead := by
  refine Event.isRead_of_readsBack (by simp [crowdedSpace]) fun v hv => ?_
  obtain rfl := Option.some.inj hv
  exact ⟨sound_crowdListing h, readsBack_crowdListing n⟩

theorem ofEvent_crowdedSpace (n : ℕ) :
    Plan.ofEvent (crowdedSpace n) = .space "s" (crowd n) := by
  rw [← titlesIn_crowdListing]
  rfl

/-- In a store without nodes the content makes one node, the first one listed. -/
theorem hasNode_contentWithin (h : s.GraphSound tokens) (hnodes : s.nodes.rows = [])
    (clock : ℤ) : ((contentWithin.after { clock, tokens } s).hasNode (crowdKey 0) = true) ∧
      (contentWithin.after { clock, tokens } s).hasNode (crowdKey 1) = false := by
  have hquiet : ({ clock, tokens } : Env).rivals = {} := rfl
  have hcontent : (Json.str "text").Sound := ⟨trivial, rfl, Nat.zero_le _⟩
  rw [Event.after_eq hquiet h isRead_contentWithin]
  show (Reconcile.withContent _ (crowdKey 0) (.str "text") s).hasNode (crowdKey 0) = true ∧
    (Reconcile.withContent _ (crowdKey 0) (.str "text") s).hasNode (crowdKey 1) = false
  constructor
  · obtain ⟨row, hrow, hkey, -⟩ :=
      Reconcile.row_withContent { clock, tokens } s (crowdKey 0) hcontent
    exact hasNode_iff.mpr ⟨row, hrow, hkey⟩
  · rw [Bool.eq_false_iff, ne_eq, hasNode_iff]
    rintro ⟨row, hrow, hkey⟩
    have hold := Reconcile.rows_withContent hrow (by rw [hkey]; exact crowdKey_ne_zero)
    rw [hnodes] at hold
    exact absurd hold List.not_mem_nil

/-- If the first listed node gets its content before, the others fit into one statement. -/
theorem isMember_crowded (h : s.GraphSound tokens) (hnodes : s.nodes.rows = [])
    (hspace : s.space? "s" = some space) (hn : n ≤ crowdLimit) (hseveral : 1 < n)
    (hfew : 2 * (n - 1) ≤ maxParameters) (clock clock' : ℤ) :
    (deliverAll tokens [(clock, contentWithin), (clock', crowdedSpace n)] s).IsMember "s"
      (crowdKey 1) := by
  have hquiet : ∀ clock : ℤ, ({ clock, tokens } : Env).rivals = {} := fun _ => rfl
  have hkeys := nodup_keys_crowd hn
  obtain ⟨hfirst, hsecond⟩ := hasNode_contentWithin h hnodes clock
  have ht := Event.after_sound (hquiet clock) h isRead_contentWithin
  have hsame : (contentWithin.after { clock, tokens } s).surroundings = s.surroundings := by
    rw [Event.after_eq (hquiet clock) h isRead_contentWithin]
    exact Reconcile.surroundings_carriedOut _ _ s
  show ((crowdedSpace n).after { clock := clock', tokens }
    (contentWithin.after { clock, tokens } s)).IsMember "s" (crowdKey 1)
  generalize contentWithin.after { clock, tokens } s = t at *
  have hfits : (Plan.ofEvent (crowdedSpace n)).Fits t := by
    rw [ofEvent_crowdedSpace]
    have hthere : 0 < ((crowd n).filter fun entry => t.hasNode entry.1).length :=
      List.length_pos_of_mem (List.mem_filter.mpr ⟨mem_crowd (by omega), hfirst⟩)
    have hmissing : 0 < ((crowd n).filter fun entry => !t.hasNode entry.1).length :=
      List.length_pos_of_mem (List.mem_filter.mpr ⟨mem_crowd hseveral, by simp [hsecond]⟩)
    have hall := List.length_eq_length_filter_add (l := crowd n) fun entry => t.hasNode entry.1
    rw [length_crowd] at hall
    exact (Reconcile.fits_iff_counts ht hkeys).mpr ⟨by omega, by omega⟩
  rw [Event.after_eq (hquiet clock') ht (isRead_crowdedSpace hn),
    Reconcile.isMember_carriedOut_iff (hquiet clock') ht (isRead_crowdedSpace hn).sound hfits,
    ofEvent_crowdedSpace, hsame]
  have hthere : s.surroundings.hasSpace "s" = true := by
    show (s.space? "s").isSome = true
    rw [hspace]
    rfl
  unfold Plan.membersOf?
  dsimp only
  rw [if_pos ⟨rfl, hthere⟩]
  exact mem_keys_crowd hseveral

/-- If the space comes first, its nodes are too many, and it gets none of them. -/
theorem not_isMember_crowded (h : s.GraphSound tokens) (hnodes : s.nodes.rows = [])
    (hspace : s.space? "s" = some space) (hn : n ≤ crowdLimit) (hmany : maxParameters < 2 * n)
    (clock clock' : ℤ) (q : String) :
    ¬ (deliverAll tokens [(clock, crowdedSpace n), (clock', contentWithin)] s).IsMember "s" q := by
  have hquiet : ∀ clock : ℤ, ({ clock, tokens } : Env).rivals = {} := fun _ => rfl
  have hobstacle : (Plan.ofEvent (crowdedSpace n)).obstacle? s = some .tooManyParameters := by
    rw [ofEvent_crowdedSpace]
    exact Plan.obstacle?_of_no_nodes h hspace (nodup_keys_crowd hn) hnodes
      (by rwa [length_crowd])
  have hfailed : (crowdedSpace n).after { clock, tokens } s = s := by
    rw [Event.after_eq (hquiet clock) h (isRead_crowdedSpace hn),
      Reconcile.carriedOut_of_obstacle hobstacle]
  show ¬ (contentWithin.after { clock := clock', tokens }
    ((crowdedSpace n).after { clock, tokens } s)).IsMember "s" q
  rw [hfailed, Event.after_eq (hquiet clock') h isRead_contentWithin,
    Reconcile.isMember_carriedOut_iff (hquiet clock') h isRead_contentWithin.sound trivial]
  rintro ⟨row, -, -, node, hnode, -⟩
  rw [hnodes] at hnode
  exact absurd hnode List.not_mem_nil

end Crowded

/-- A space lists one new node more than a statement can be given, and one of them gets its content:
before the space is tried, or after it has failed. -/
theorem Reachable.unlike_crowded :
    let s := History.run String.length [(1000, .createSpace "s" "S" none fun _ => "")] {}
    Reachable String.length s ∧ contentWithin.IsRead ∧ (crowdedSpace 16384).IsRead ∧
      ¬ SameGraph
        (deliverAll String.length [(2000, contentWithin), (3000, crowdedSpace 16384)] s)
        (deliverAll String.length [(2000, crowdedSpace 16384), (3000, contentWithin)] s) := by
  intro s
  have hreachable : Reachable String.length s :=
    Reachable.empty.run (by simp [Operation.Held])
  have hgraph : s.GraphSound String.length := hreachable.sound.toGraphSound
  have hnodes : s.nodes.rows = [] := by decide +kernel
  obtain ⟨space, hspace⟩ : ∃ space, s.space? "s" = some space :=
    Option.isSome_iff_exists.mp (by decide +kernel)
  refine ⟨hreachable, isRead_contentWithin, isRead_crowdedSpace (by decide), fun hsame => ?_⟩
  have hfirst := isMember_crowded hgraph hnodes hspace (show 16384 ≤ crowdLimit by decide)
    (by decide) (by decide) 2000 3000
  exact not_isMember_crowded hgraph hnodes hspace (by decide) (by decide) 2000 3000 _
    ((hsame.members "s" _).mp hfirst)

end NodeGraph
