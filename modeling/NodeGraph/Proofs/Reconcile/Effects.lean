import NodeGraph.Proofs.Reconcile.Growth

/-!
What each plan does to what can be read of the graph: the content of a node, the members of a
space and the children of a node.
-/
namespace NodeGraph

namespace Store

variable {tokens : Tokenizer} {env : Env} {s t : Store} {p q : String}

/-- The content of the node of a public id; a node that is not there has none. -/
def contentAt (s : Store) (p : String) : Option Json :=
  (s.nodeRow? p).bind NodeRow.contentValue

/-- The node `q` is a live member of the space `p`. -/
def IsMember (s : Store) (p q : String) : Prop :=
  ∃ space ∈ s.spaces.rows, space.publicId = p ∧
    ∃ row ∈ s.nodes.rows, row.publicId = q ∧ (space.id, row.id) ∈ s.live

/-- The node `q` is a child of the node `p`. -/
def IsChild (s : Store) (p q : String) : Prop :=
  ∃ a ∈ s.nodes.rows, a.publicId = p ∧
    ∃ b ∈ s.nodes.rows, b.publicId = q ∧ (a.id, b.id) ∈ s.edges

theorem contentAt_of_mem (h : s.GraphSound tokens) {row : NodeRow} (hrow : row ∈ s.nodes.rows)
    (hkey : row.publicId = p) : s.contentAt p = row.contentValue := by
  unfold contentAt
  rw [h.nodeRow?_eq_some.mpr ⟨hrow, hkey⟩]
  rfl

theorem contentAt_of_not_hasNode (h : s.hasNode p = false) : s.contentAt p = none := by
  unfold contentAt
  rw [nodeRow?_eq_none.mpr h]
  rfl

/-- Where a graph grows, a content may be written anew but not changed. -/
theorem contentAt_of_grows (hs : s.GraphSound tokens) (ht : t.GraphSound tokens) (h : Grows s t)
    (p : String) : ∃ k : ℕ, t.contentAt p = (s.contentAt p).map (Json.reread^[k]) := by
  cases hnode : t.hasNode p with
  | false =>
    have hfree : s.hasNode p = false := by
      cases hold : s.hasNode p with
      | false => rfl
      | true => exact absurd (hnode.symm.trans (h.hasNode hold)) (by simp)
    refine ⟨0, ?_⟩
    rw [contentAt_of_not_hasNode hnode, contentAt_of_not_hasNode hfree]
    rfl
  | true =>
    obtain ⟨row, hrow, hkey⟩ := hasNode_iff.mp hnode
    rw [contentAt_of_mem ht hrow hkey]
    rcases h.rows row hrow with ⟨old, hold, hkept⟩ | ⟨hfree, hfresh⟩
    · rw [contentAt_of_mem hs hold (hkept.publicId.symm.trans hkey)]
      exact hkept.content
    · refine ⟨0, ?_⟩
      rw [hfresh.content, contentAt_of_not_hasNode (hkey ▸ hfree)]
      rfl

/-- An edge makes one node a child of another. -/
theorem GraphSound.isChild_of_edge (h : s.GraphSound tokens) {i j : ℤ} (hedge : (i, j) ∈ s.edges) :
    ∃ a ∈ s.nodes.rows, a.id = i ∧ ∃ b ∈ s.nodes.rows, b.id = j ∧
      s.IsChild a.publicId b.publicId := by
  obtain ⟨hparent, hchild⟩ := h.edgeEnds (i, j) hedge
  obtain ⟨a, ha, rfl⟩ := hasNodeId_iff.mp hparent
  obtain ⟨b, hb, rfl⟩ := hasNodeId_iff.mp hchild
  exact ⟨a, ha, rfl, b, hb, rfl, a, ha, rfl, b, hb, rfl, hedge⟩

theorem IsChild.mono (h : Extends s t) (hchild : s.IsChild p q) :
    t.IsChild p q := by
  obtain ⟨a, ha, rfl, b, hb, rfl, hedge⟩ := hchild
  obtain ⟨a', ha', haid, hakey⟩ := h.nodes a ha
  obtain ⟨b', hb', hbid, hbkey⟩ := h.nodes b hb
  refine ⟨a', ha', hakey, b', hb', hbkey, ?_⟩
  rw [haid, hbid]
  exact h.edges _ hedge

/-- The members of a space are those that its pairs lead to. -/
theorem isMember_congr (hs : s.GraphSound tokens) (ht : t.GraphSound tokens) (h : Extends s t)
    (hlive : ∀ space ∈ t.spaces.rows, space.publicId = p →
      ∀ id, (space.id, id) ∈ t.live ↔ (space.id, id) ∈ s.live) :
    t.IsMember p q ↔ s.IsMember p q := by
  constructor
  · rintro ⟨space, hspace, hskey, row, hrow, hkey, hpair⟩
    rw [hlive space hspace hskey] at hpair
    obtain ⟨hspaceId, hnodeId⟩ := hs.liveEnds _ hpair
    obtain ⟨oldSpace, holdSpace, hsid⟩ := hasSpaceId_iff.mp hspaceId
    obtain ⟨old, hold, hid⟩ := hasNodeId_iff.mp hnodeId
    obtain ⟨space', hspace', hsid', hskey'⟩ := h.spaces oldSpace holdSpace
    obtain ⟨row', hrow', hid', hkey'⟩ := h.nodes old hold
    obtain rfl := ht.spaceIds.eq_of_id_eq hspace' hspace (hsid'.trans hsid)
    obtain rfl := ht.nodeIds.eq_of_id_eq hrow' hrow (hid'.trans hid)
    refine ⟨oldSpace, holdSpace, hskey'.symm.trans hskey, old, hold, hkey'.symm.trans hkey, ?_⟩
    rw [hsid, hid]
    exact hpair
  · rintro ⟨space, hspace, rfl, row, hrow, rfl, hpair⟩
    obtain ⟨space', hspace', hsid, hskey⟩ := h.spaces space hspace
    obtain ⟨row', hrow', hid, hkey⟩ := h.nodes row hrow
    refine ⟨space', hspace', hskey, row', hrow', hkey, ?_⟩
    rw [hlive space' hspace' hskey, hsid, hid]
    exact hpair

end Store

namespace Reconcile

open Store

variable {env : Env} {s : Store} {p q : String}

/-! ### Giving a node its content -/

theorem extends_withContent (env : Env) (s : Store) (p : String) (content : Json) :
    Extends s (withContent env p content s) := by
  refine (grows_materialize env s p .default).toExtends.trans (extends_mapNodes fun row _ => ?_)
  split <;> exact ⟨rfl, rfl⟩

/-- The node has the content, and a document of its own if there is one. -/
theorem row_withContent (env : Env) (s : Store) (p : String) {content : Json}
    (hc : content.Sound) :
    ∃ row ∈ (withContent env p content s).nodes.rows, row.publicId = p ∧
      row.contentValue = (contentOf content).map Json.reread ∧
      ∃ old ∈ (s.materialize env p .default).nodes.rows, old.publicId = p ∧
        row.editorDocument = old.editorDocument.or (s.documentId? p .editor) := by
  obtain ⟨old, hold, hkey⟩ := hasNode_iff.mp (hasNode_materialize env s p .default)
  refine ⟨(old.attach s .graph).rewrite env (contentOf content), ?_, hkey, ?_, old, hold, hkey, ?_⟩
  · exact List.mem_map.mpr ⟨old, hold, if_pos hkey⟩
  · exact NodeRow.contentValue_of_content (contentOf_sound hc) rfl
  · rw [← hkey]
    rfl

/-- Every other node is what it was. -/
theorem rows_withContent {content : Json} {row : NodeRow}
    (hrow : row ∈ (withContent env p content s).nodes.rows) (hne : row.publicId ≠ p) :
    row ∈ s.nodes.rows := by
  obtain ⟨old, hold, rfl⟩ := List.mem_map.mp hrow
  have hkey : old.publicId ≠ p := by
    intro heq
    rw [if_pos heq] at hne
    exact hne heq
  rw [if_neg hkey]
  unfold Store.materialize at hold
  split at hold
  · exact hold
  · rcases List.mem_append.mp hold with hmem | hnew
    · exact hmem
    · rw [List.mem_singleton.mp hnew] at hkey
      exact absurd rfl hkey

theorem contentAt_withContent (h : s.GraphSound env.tokens) {content : Json} (hc : content.Sound) :
    (withContent env p content s).contentAt p = (contentOf content).map Json.reread := by
  obtain ⟨row, hrow, hkey, hvalue, -⟩ := row_withContent env s p hc
  rw [contentAt_of_mem (withContent_sound h hc) hrow hkey, hvalue]

theorem contentAt_withContent_of_ne (h : s.GraphSound env.tokens) {content : Json}
    (hc : content.Sound) (hne : q ≠ p) :
    (withContent env p content s).contentAt q = s.contentAt q := by
  have ht := withContent_sound (p := p) h hc
  cases hnode : (withContent env p content s).hasNode q with
  | true =>
    obtain ⟨row, hrow, rfl⟩ := hasNode_iff.mp hnode
    rw [contentAt_of_mem ht hrow rfl, contentAt_of_mem h (rows_withContent hrow hne) rfl]
  | false =>
    have hfree : s.hasNode q = false := by
      cases hold : s.hasNode q with
      | false => rfl
      | true =>
        have hnow := (extends_withContent env s p content).hasNode hold
        rw [hnode] at hnow
        exact absurd hnow (by simp)
    rw [contentAt_of_not_hasNode hnode, contentAt_of_not_hasNode hfree]

/-! ### Giving a node its children -/

theorem withChild_frame (env : Env) (p : String) (s : Store) (child : String) :
    (withChild env p s child).live = s.live ∧ (withChild env p s child).spaces = s.spaces := by
  unfold withChild
  split
  · exact ⟨rfl, rfl⟩
  · have hmade : (s.materialize env child .default).live = s.live ∧
        (s.materialize env child .default).spaces = s.spaces := by
      unfold Store.materialize
      split <;> exact ⟨rfl, rfl⟩
    unfold withEdge
    split <;> exact hmade

theorem isChild_withChild (h : s.GraphSound env.tokens) (hnode : s.hasNode p = true)
    {child : String} (hne : child ≠ p) : (withChild env p s child).IsChild p child := by
  have hmade := h.materialize child .default
  obtain ⟨old, hold, rfl⟩ := hasNode_iff.mp hnode
  have ha := nodeRow?_materialize (p := child) h (h.nodeRow?_eq_some.mpr ⟨hold, rfl⟩) .default
  obtain ⟨b, hb, hbkey⟩ := hasNode_iff.mp (hasNode_materialize env s child .default)
  unfold withChild
  rw [if_neg hne]
  unfold withEdge
  rw [ha, hmade.nodeRow?_eq_some.mpr ⟨hb, hbkey⟩]
  exact ⟨old, (hmade.nodeRow?_eq_some.mp ha).1, rfl, b, hb, hbkey, mem_addPair.mpr (Or.inl rfl)⟩

theorem isChild_foldl_withChild (h : s.GraphSound env.tokens) (hnode : s.hasNode p = true)
    (children : List String) : ∀ child ∈ children, child ≠ p →
      (children.foldl (withChild env p) s).IsChild p child := by
  induction children generalizing s with
  | nil => exact fun child hmem => absurd hmem List.not_mem_nil
  | cons first rest ih =>
    intro child hmem hne
    have hgrows := grows_withChild env p s first
    rcases List.mem_cons.mp hmem with rfl | hrest
    · exact (isChild_withChild h hnode hne).mono (grows_foldl_withChild env p _ rest).toExtends
    · exact ih (withChild_sound h first) (hgrows.hasNode hnode) child hrest hne

/-- The parent is there before its first child comes. -/
theorem hasNode_withGraphDocument (h : s.GraphSound env.tokens) (type : DocumentType)
    (kind : NodeKind) :
    (withGraphDocument env p type (s.materialize env p kind)).hasNode p = true :=
  (grows_withGraphDocument (h.materialize p kind) p type).hasNode
    (hasNode_materialize env s p kind)

/-- Every child that is listed is a child afterwards. -/
theorem isChild_withChildren (h : s.GraphSound env.tokens) (type : DocumentType) (kind : NodeKind)
    (children : List String) : ∀ child ∈ children, child ≠ p →
      (withChildren env p type kind children s).IsChild p child :=
  isChild_foldl_withChild (withGraphDocument_sound (h.materialize p kind) type)
    (hasNode_withGraphDocument h type kind) children

theorem withChildren_frame (p : String) (type : DocumentType) (kind : NodeKind)
    (children : List String) (s : Store) :
    (withChildren env p type kind children s).live = s.live ∧
      (withChildren env p type kind children s).spaces = s.spaces := by
  have hstart : (withGraphDocument env p type (s.materialize env p kind)).live = s.live ∧
      (withGraphDocument env p type (s.materialize env p kind)).spaces = s.spaces := by
    have hmade : (s.materialize env p kind).live = s.live ∧
        (s.materialize env p kind).spaces = s.spaces := by
      unfold Store.materialize
      split <;> exact ⟨rfl, rfl⟩
    unfold withGraphDocument
    split <;> exact hmade
  unfold withChildren
  generalize withGraphDocument env p type (s.materialize env p kind) = t at hstart
  induction children generalizing t with
  | nil => exact hstart
  | cons child rest ih =>
    have hchild := withChild_frame env p t child
    exact ih _ ⟨hchild.1.trans hstart.1, hchild.2.trans hstart.2⟩

/-! ### Giving a space its members -/

section Members

variable {space : Space} {titles : Keyed String}

/-- The nodes there are, titled, and the new ones. -/
theorem rows_withMembers (env : Env) (s : Store) (space : Space) (titles : Keyed String) :
    (withMembers env space titles s).nodes.rows = s.nodes.rows.map (titled env titles) ++
      (titles.filter fun entry => !s.hasNode entry.1).mapIdx fun i entry =>
        memberRow env s entry.1 entry.2 (s.nodes.nextId + i) := by
  have hframe := withDocument_frame env s space
  generalize (Spaces.withDocument env space s).2.2.spaces = spaces at hframe
  show (withTitles env titles (Spaces.withDocument env space s).2.2).nodes.rows = _
  rw [hframe]
  unfold withTitles
  rw [rows_foldl_withMember]
  rfl

theorem mem_live_withMembers {id : ℤ} :
    (space.id, id) ∈ (withMembers env space titles s).live ↔ id ∈ memberIds titles s := by
  show (space.id, id) ∈ withoutFirst space.id s.live ++ (memberIds titles s).map (space.id, ·) ↔ _
  rw [List.mem_append, List.mem_map]
  constructor
  · rintro (hold | ⟨other, hmem, heq⟩)
    · have hne := (List.mem_filter.mp hold).2
      simp at hne
    · rw [← (Prod.mk.inj heq).2]
      exact hmem
  · exact fun hmem => Or.inr ⟨id, hmem, rfl⟩

/-- The row of a member has a listed key, and the other way round. -/
theorem mem_memberIds (ht : (withMembers env space titles s).GraphSound env.tokens)
    {row : NodeRow} (hrow : row ∈ (withMembers env space titles s).nodes.rows) :
    row.id ∈ memberIds titles s ↔ row.publicId ∈ titles.keys := by
  have hrows := rows_withMembers env s space titles
  have hold : ∀ old ∈ s.nodes.rows,
      titled env titles old ∈ (withMembers env space titles s).nodes.rows := by
    intro old hmem
    rw [hrows]
    exact List.mem_append_left _ (List.mem_map_of_mem hmem)
  unfold memberIds newIds
  rw [List.mem_append, List.mem_map, List.mem_map]
  constructor
  · rintro (⟨n, hn, hid⟩ | ⟨i, hi, hid⟩)
    · obtain ⟨old, hmem, hkey, rfl⟩ := mem_summaries.mp hn
      have hsame : (titled env titles old).id = row.id := (id_titled titles old).trans hid
      rw [← ht.nodeIds.eq_of_id_eq (hold old hmem) hrow hsame, publicId_titled]
      exact hkey
    · rw [List.mem_range] at hi
      have hmade : memberRow env s (titles.filter fun entry => !s.hasNode entry.1)[i].1
          (titles.filter fun entry => !s.hasNode entry.1)[i].2 (s.nodes.nextId + i) ∈
          (withMembers env space titles s).nodes.rows := by
        rw [hrows]
        exact List.mem_append_right _ (List.mem_mapIdx.mpr ⟨i, hi, rfl⟩)
      rw [← ht.nodeIds.eq_of_id_eq hmade hrow hid]
      exact List.mem_map_of_mem (List.mem_filter.mp (List.getElem_mem hi)).1
  · intro hkey
    rw [hrows] at hrow
    rcases List.mem_append.mp hrow with hmem | hnew
    · left
      obtain ⟨old, hthere, rfl⟩ := List.mem_map.mp hmem
      rw [publicId_titled] at hkey
      exact ⟨old.summary, mem_summaries.mpr ⟨old, hthere, hkey, rfl⟩, (id_titled titles old).symm⟩
    · right
      obtain ⟨i, hi, rfl⟩ := List.mem_mapIdx.mp hnew
      exact ⟨i, List.mem_range.mpr hi, rfl⟩

/-- The members of a space become exactly the nodes that are listed. -/
theorem isMember_withMembers (hs : s.GraphSound env.tokens)
    (ht : (withMembers env space titles s).GraphSound env.tokens) (hkeys : titles.keys.Nodup)
    (hspace : s.space? p = some space) :
    (withMembers env space titles s).IsMember p q ↔ q ∈ titles.keys := by
  obtain ⟨hmem, hkey⟩ := hs.space?_eq_some.mp hspace
  obtain ⟨space', hspace', hsid, hskey⟩ :=
    (grows_withMembers env s space hkeys).spaces space hmem
  constructor
  · rintro ⟨other, hother, hokey, row, hrow, rfl, hpair⟩
    obtain rfl : other = space' := List.inj_on_of_nodup_map ht.spaceKeys hother hspace'
      (hokey.trans (hskey.trans hkey).symm)
    rw [hsid, mem_live_withMembers] at hpair
    exact (mem_memberIds ht hrow).mp hpair
  · intro hlisted
    have hnode : (withMembers env space titles s).hasNode q = true := by
      rw [hasNode_iff, rows_withMembers]
      by_cases hthere : s.hasNode q = true
      · obtain ⟨old, hold, rfl⟩ := hasNode_iff.mp hthere
        exact ⟨_, List.mem_append_left _ (List.mem_map_of_mem hold), publicId_titled titles old⟩
      · obtain ⟨entry, hentry, rfl⟩ := List.mem_map.mp hlisted
        have hmissing : entry ∈ titles.filter fun entry => !s.hasNode entry.1 :=
          List.mem_filter.mpr ⟨hentry, by simp [hthere]⟩
        obtain ⟨i, hi, rfl⟩ := List.mem_iff_getElem.mp hmissing
        exact ⟨_, List.mem_append_right _ (List.mem_mapIdx.mpr ⟨i, hi, rfl⟩), rfl⟩
    obtain ⟨row, hrow, rfl⟩ := hasNode_iff.mp hnode
    refine ⟨space', hspace', hskey.trans hkey, row, hrow, rfl, ?_⟩
    rw [hsid, mem_live_withMembers]
    exact (mem_memberIds ht hrow).mpr hlisted

/-- The members of every other space stay. -/
theorem isMember_withMembers_of_ne {other : String} (hs : s.GraphSound env.tokens)
    (ht : (withMembers env space titles s).GraphSound env.tokens) (hkeys : titles.keys.Nodup)
    (hspace : s.space? p = some space) (hne : other ≠ p) :
    (withMembers env space titles s).IsMember other q ↔ s.IsMember other q := by
  have hgrows := grows_withMembers env s space hkeys
  obtain ⟨hmem, hkey⟩ := hs.space?_eq_some.mp hspace
  obtain ⟨space', hspace', hsid, hskey⟩ := hgrows.spaces space hmem
  refine isMember_congr hs ht hgrows.toExtends fun row hrow hrkey id => ?_
  have hid : row.id ≠ space.id := by
    intro heq
    obtain rfl := ht.spaceIds.eq_of_id_eq hrow hspace' (heq.trans hsid.symm)
    exact hne (hrkey.symm.trans (hskey.trans hkey))
  show (row.id, id) ∈ withoutFirst space.id s.live ++ (memberIds titles s).map (space.id, ·) ↔ _
  rw [List.mem_append, List.mem_map, withoutFirst, List.mem_filter]
  constructor
  · rintro (⟨hpair, -⟩ | ⟨_, -, heq⟩)
    · exact hpair
    · exact absurd (Prod.mk.inj heq).1.symm hid
  · exact fun hpair => Or.inl ⟨hpair, decide_eq_true hid⟩

end Members

/-! ### Spaces -/

/-- No plan makes a space or changes more of one than its document. -/
theorem map_spaces_carriedOut {β : Type} (plan : Plan) (f : Space → β)
    (hf : ∀ row : Space, ∀ id, f { row with document := some id, updatedAt := env.now } = f row) :
    (carriedOut env plan s).spaces.rows.map f = s.spaces.rows.map f := by
  cases plan with
  | editor q content =>
    have hmade : (s.materialize env q .default).spaces = s.spaces := by
      unfold Store.materialize
      split <;> rfl
    exact congrArg (fun spaces : Table Space => spaces.rows.map f) hmade
  | space q titles =>
    cases hrow : spaceFor? q titles s with
    | none => rw [carriedOut_of_no_space hrow]
    | some row =>
      rw [carriedOut_space hrow]
      show (withTitles env titles (Spaces.withDocument env row s).2.2).spaces.rows.map f = _
      rw [withTitles_frame]
      exact map_spaces_withDocument env s row f hf
  | graph q type kind children =>
    show (withChildren env q type kind children s).spaces.rows.map _ = _
    rw [(withChildren_frame q type kind children s).2]
  | ignore reason => rfl

theorem publicIds_spaces_carriedOut (plan : Plan) :
    (carriedOut env plan s).spaces.rows.map (fun space => space.publicId) =
      s.spaces.rows.map (fun space => space.publicId) :=
  map_spaces_carriedOut plan _ fun _ _ => rfl

theorem space?_carriedOut_eq_none {plan : Plan} (h : s.space? p = none) :
    (carriedOut env plan s).space? p = none := by
  unfold space? Table.find? at h ⊢
  rw [find?_key_eq_none] at h ⊢
  rw [publicIds_spaces_carriedOut]
  exact h

end Reconcile
end NodeGraph
