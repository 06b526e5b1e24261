import NodeGraph.Proofs.Lifecycle

/-!
Putting nodes below a node: the result is a union with what the payload lists, whatever its shape
and order, and nothing else changes but the node's own graph document.
-/
namespace NodeGraph

open Store

/-! ### What a payload lists -/

/-- The payload lists the public id `q` under `nodes`: as a key of an object, or in an array as a
text or as the text under `id` of an object. -/
def Json.ListsChild (q : String) (data : Json) : Prop :=
  (∃ fields, data.field? "nodes" = some (.obj fields) ∧ q ∈ Keyed.keys fields) ∨
    ∃ items, data.field? "nodes" = some (.arr items) ∧
      (.str q ∈ items ∨ ∃ fields, .obj fields ∈ items ∧ Keyed.get? "id" fields = some (.str q))

def Event.ListsChild (q : String) (event : Event) : Prop :=
  ∃ data ∈ event.newData, data.ListsChild q

theorem Json.string?_eq_some {v : Json} {q : String} : v.string? = some q ↔ v = .str q := by
  cases v <;> simp [string?]

namespace Plan

variable {event : Event} {q : String}

theorem childOf_eq_some {item : Json} : childOf item = some q ↔
    item = .str q ∨ ∃ fields, item = .obj fields ∧ Keyed.get? "id" fields = some (.str q) := by
  cases item with
  | str id => simp [childOf]
  | obj fields => simp [childOf, Option.bind_eq_some_iff, Json.string?_eq_some]
  | _ => simp [childOf]

/-- The children of a plan are those that the payload lists. -/
theorem mem_childrenIn : q ∈ childrenIn event.newData ↔ event.ListsChild q := by
  unfold Event.ListsChild childrenIn
  cases event.newData with
  | none => simp
  | some data =>
    simp only [Option.bind_some, Option.mem_def, Option.some.injEq, exists_eq_left']
    unfold Json.ListsChild
    cases data.field? "nodes" with
    | none => simp
    | some nodes =>
      cases nodes with
      | obj fields => simp [Keyed.keys]
      | arr items =>
        simp only [List.mem_filterMap, childOf_eq_some, Option.some.injEq, reduceCtorEq, false_and,
          exists_false, Json.arr.injEq, exists_eq_left', false_or, and_or_left, exists_or,
          exists_eq_right]
        refine or_congr Iff.rfl ⟨?_, ?_⟩
        · rintro ⟨_, hitem, fields, rfl, hid⟩
          exact ⟨fields, hitem, hid⟩
        · rintro ⟨fields, hitem, hid⟩
          exact ⟨_, hitem, fields, rfl, hid⟩
      | _ => simp

/-- An event of a graph that is not a deletion puts what it lists below the node of its document. -/
theorem ofEvent_graph (htype : event.type = .graph ∨ event.type = .methodGraph)
    (haction : event.action ≠ .delete) :
    ofEvent event = .graph event.publicId event.type (graphKind event.type)
      (childrenIn event.newData) := by
  have hasked := asked event
  generalize ofEvent event = plan at hasked
  cases hasked with
  | graph => rfl
  | deleted hdeleted => exact absurd hdeleted haction
  | editor _ heditor => simp [heditor] at htype
  | space _ hspace => simp [hspace] at htype
  | missing _ hspace => simp [hspace] at htype

end Plan

/-! ### Rows -/

namespace NodeRow

/-- A node without title and content. -/
def bare (env : Env) (id : ℤ) (publicId : String) (kind : NodeKind)
    (graphDocument : Option ℤ) : NodeRow where
  id := id
  publicId := publicId
  kind := kind.name
  title := ""
  titleTokens := some (env.tokens "")
  content := none
  text := ""
  textTokens := some (env.tokens "")
  removed := false
  editorDocument := none
  graphDocument := graphDocument
  createdAt := env.now
  updatedAt := env.now

/-- The row with a graph document if there is one and it lacks any. Its content is then printed
anew. -/
def referring (env : Env) (document : Option ℤ) (row : NodeRow) : NodeRow :=
  match row.graphDocument, document with
  | none, some id =>
    { row with
      graphDocument := some id, content := NodeFacts.rewritten row.content, updatedAt := env.now }
  | _, _ => row

variable {env : Env} {row : NodeRow}

/-- Writing a node with the content that it has changes at most the text of the content. -/
theorem rewrite_contentValue (h : row.Derived env.tokens) :
    row.rewrite env row.contentValue =
      { row with content := NodeFacts.rewritten row.content, updatedAt := env.now } := by
  have hcontent : row.contentValue.map Json.compact = NodeFacts.rewritten row.content := by
    unfold NodeFacts.rewritten
    rw [h.content]
  unfold rewrite
  rw [hcontent, ← h.text, ← h.textTokens, ← h.titleTokens]

theorem documented_eq_referring (h : row.Derived env.tokens) (id : ℤ) :
    Reconcile.documented env id row = row.referring env (some id) := by
  unfold Reconcile.documented referring
  cases row.graphDocument with
  | none =>
    have hreferring : ({ row with graphDocument := some id } : NodeRow).Derived env.tokens :=
      ⟨h.kind, h.content, h.text, h.textTokens, h.titleTokens⟩
    exact (if_pos rfl).trans (rewrite_contentValue hreferring)
  | some old => rfl

@[simp] theorem referring_none : row.referring env none = row := by
  unfold referring
  split
  · simp at *
  · rfl

@[simp] theorem publicId_referring (document : Option ℤ) :
    (row.referring env document).publicId = row.publicId := by
  unfold referring
  split <;> rfl

@[simp] theorem id_referring (document : Option ℤ) :
    (row.referring env document).id = row.id := by
  unfold referring
  split <;> rfl

theorem referring_bare (id : ℤ) (p : String) (kind : NodeKind) (document : Option ℤ) :
    (bare env id p kind none).referring env document = bare env id p kind document := by
  cases document <;> rfl

end NodeRow

namespace Reconcile

variable {env : Env} {s : Store} {p : String} {row : NodeRow}

theorem mem_rows_materialize {kind : NodeKind} :
    row ∈ (s.materialize env p kind).nodes.rows ↔ row ∈ s.nodes.rows ∨
      (s.hasNode p = false ∧ row = .bare env s.nodes.nextId p kind none) := by
  unfold Store.materialize
  cases hnode : s.hasNode p with
  | true => simp
  | false =>
    show row ∈ s.nodes.rows ++ [_] ↔ _
    rw [List.mem_append, List.mem_singleton]
    simp only [true_and]
    exact Iff.rfl

theorem rows_withGraphDocument (h : s.GraphSound env.tokens) (type : DocumentType) :
    (withGraphDocument env p type s).nodes.rows = s.nodes.rows.map fun row =>
      if row.publicId = p then row.referring env (s.documentId? p type) else row := by
  unfold withGraphDocument
  cases s.documentId? p type with
  | none => simp
  | some id =>
    rw [rows_changeNode]
    refine List.map_congr_left fun row hrow => ?_
    rw [NodeRow.documented_eq_referring (h.derived row hrow)]

/-- Putting children below a node leaves the nodes there are. -/
theorem rows_subset_foldl_withChild (children : List String) (hrow : row ∈ s.nodes.rows) :
    row ∈ (children.foldl (withChild env p) s).nodes.rows := by
  induction children generalizing s with
  | nil => exact hrow
  | cons child rest ih =>
    refine ih ?_
    unfold withChild
    split
    · exact hrow
    · rw [nodes_withEdge]
      exact mem_rows_materialize.mpr (Or.inl hrow)

/-- A node that is new is a child that is listed. -/
theorem mem_rows_foldl_withChild (children : List String)
    (hrow : row ∈ (children.foldl (withChild env p) s).nodes.rows) :
    row ∈ s.nodes.rows ∨ (s.hasNode row.publicId = false ∧ row.publicId ∈ children ∧
      row = .bare env row.id row.publicId .default none) := by
  induction children generalizing s with
  | nil => exact Or.inl hrow
  | cons child rest ih =>
    have hgrows := (grows_withChild env p s child).toExtends
    rcases ih hrow with hold | ⟨hfree, hlisted, hbare⟩
    · unfold withChild at hold
      split at hold
      · exact Or.inl hold
      · rw [nodes_withEdge] at hold
        rcases mem_rows_materialize.mp hold with hthere | ⟨hfree, rfl⟩
        · exact Or.inl hthere
        · exact Or.inr ⟨hfree, List.mem_cons_self, rfl⟩
    · refine Or.inr ⟨?_, List.mem_cons_of_mem child hlisted, hbare⟩
      rw [← Bool.not_eq_true] at hfree ⊢
      exact fun hnode => hfree (hgrows.hasNode hnode)

end Reconcile

/-! ### The union -/

/-- What an event of the graph of the node `p` has made of a store, where `document` is the graph
document that there is for the node. -/
structure Added (env : Env) (p : String) (kind : NodeKind) (document : Option ℤ)
    (listed : String → Prop) (s t : Store) : Prop where
  sound : t.GraphSound env.tokens
  node : t.hasNode p = true
  there : ∀ q, listed q → t.hasNode q = true
  children : ∀ a b, t.IsChild a b ↔ s.IsChild a b ∨ (a = p ∧ listed b ∧ b ≠ p)
  edges : s.edges <+: t.edges
  /-- Other nodes that were there stay what they were. -/
  others : ∀ old ∈ s.nodes.rows, old.publicId ≠ p → old ∈ t.nodes.rows
  /-- The node itself gets the document, if it has none. -/
  parent : ∀ old ∈ s.nodes.rows, old.publicId = p → old.referring env document ∈ t.nodes.rows
  /-- New nodes are the node itself and those that are listed. -/
  made : ∀ row ∈ t.nodes.rows, s.hasNode row.publicId = false →
    (row.publicId = p ∨ listed row.publicId) ∧
      row = .bare env row.id row.publicId (if row.publicId = p then kind else .default)
        (if row.publicId = p then document else none)
  spaces : t.spaces = s.spaces
  live : t.live = s.live
  records : Reconcile.SameRecords s t

namespace Reconcile

variable {env : Env} {s : Store} {p : String}

/-- The node with its document, before it is given children. -/
theorem mem_rows_parent (h : s.GraphSound env.tokens) (type : DocumentType) (kind : NodeKind)
    (row : NodeRow) :
    row ∈ (withGraphDocument env p type (s.materialize env p kind)).nodes.rows ↔
      (row ∈ s.nodes.rows ∧ row.publicId ≠ p) ∨
        (∃ old ∈ s.nodes.rows, old.publicId = p ∧
          row = old.referring env (s.documentId? p type)) ∨
        (s.hasNode p = false ∧
          row = .bare env s.nodes.nextId p kind (s.documentId? p type)) := by
  rw [rows_withGraphDocument (h.materialize p kind),
    documentId?_of_documents (documents_materialize p kind), List.mem_map]
  constructor
  · rintro ⟨old, hold, rfl⟩
    rcases mem_rows_materialize.mp hold with hthere | ⟨hfree, rfl⟩
    · by_cases hkey : old.publicId = p
      · rw [if_pos hkey]
        exact Or.inr (Or.inl ⟨old, hthere, hkey, rfl⟩)
      · rw [if_neg hkey]
        exact Or.inl ⟨hthere, hkey⟩
    · have hkey : (NodeRow.bare env s.nodes.nextId p kind none).publicId = p := rfl
      rw [if_pos hkey]
      exact Or.inr (Or.inr ⟨hfree, NodeRow.referring_bare _ _ _ _⟩)
  · rintro (⟨hthere, hkey⟩ | ⟨old, hthere, hkey, rfl⟩ | ⟨hfree, rfl⟩)
    · exact ⟨row, mem_rows_materialize.mpr (Or.inl hthere), if_neg hkey⟩
    · exact ⟨old, mem_rows_materialize.mpr (Or.inl hthere), if_pos hkey⟩
    · exact ⟨_, mem_rows_materialize.mpr (Or.inr ⟨hfree, rfl⟩),
        (if_pos rfl).trans (NodeRow.referring_bare _ _ _ _)⟩

/-- A node that is new is the parent or a child that is listed. -/
theorem made_withChildren (h : s.GraphSound env.tokens) (type : DocumentType) (kind : NodeKind)
    {children : List String} {row : NodeRow}
    (hrow : row ∈ (withChildren env p type kind children s).nodes.rows)
    (hfree : s.hasNode row.publicId = false) :
    (row.publicId = p ∨ row.publicId ∈ children) ∧
      row = .bare env row.id row.publicId (if row.publicId = p then kind else .default)
        (if row.publicId = p then s.documentId? p type else none) := by
  rcases mem_rows_foldl_withChild children hrow with hold | ⟨hnew, hlisted, hbare⟩
  · rcases (mem_rows_parent h type kind row).mp hold with
      ⟨hthere, -⟩ | ⟨old, hthere, -, rfl⟩ | ⟨-, hmade⟩
    · rw [hasNode_iff.mpr ⟨row, hthere, rfl⟩] at hfree
      exact absurd hfree (by simp)
    · rw [NodeRow.publicId_referring, hasNode_iff.mpr ⟨old, hthere, rfl⟩] at hfree
      exact absurd hfree (by simp)
    · have hkey : row.publicId = p := by
        rw [hmade]
        rfl
      rw [if_pos hkey, if_pos hkey]
      refine ⟨Or.inl hkey, ?_⟩
      rw [hmade]
      rfl
  · have hne : row.publicId ≠ p := by
      intro hkey
      rw [hkey, hasNode_withGraphDocument h type kind] at hnew
      exact absurd hnew (by simp)
    rw [if_neg hne, if_neg hne]
    exact ⟨Or.inr hlisted, hbare⟩

theorem added_withChildren (quiet : env.rivals = {}) (h : s.GraphSound env.tokens)
    (type : DocumentType) (kind : NodeKind) (children : List String) :
    Added env p kind (s.documentId? p type) (· ∈ children) s
      (withChildren env p type kind children s) := by
  have hplan : (Plan.graph p type kind children).Sound := trivial
  have hparent := mem_rows_parent (p := p) h type kind
  have hrows : ∀ row ∈ (withGraphDocument env p type (s.materialize env p kind)).nodes.rows,
      row ∈ (withChildren env p type kind children s).nodes.rows := fun row hrow =>
    rows_subset_foldl_withChild children hrow
  have hchildren : ∀ a b, (withChildren env p type kind children s).IsChild a b ↔
      s.IsChild a b ∨ (a = p ∧ b ∈ children ∧ b ≠ p) := fun a b =>
    isChild_carriedOut quiet h hplan
  have hnode : (withChildren env p type kind children s).hasNode p = true := by
    obtain ⟨row, hrow, hkey⟩ := hasNode_iff.mp (hasNode_withGraphDocument h type kind)
    exact hasNode_iff.mpr ⟨row, hrows row hrow, hkey⟩
  obtain ⟨hlive, hspaces⟩ : (withChildren env p type kind children s).live = s.live ∧
      (withChildren env p type kind children s).spaces = s.spaces :=
    withChildren_frame p type kind children s
  refine ⟨withChildren_sound h type kind children, hnode, fun q hlisted => ?_, hchildren,
    (endures_carriedOut env (.graph p type kind children) s).edges,
    fun old hold hkey => hrows old ((hparent old).mpr (Or.inl ⟨hold, hkey⟩)),
    fun old hold hkey => hrows _ ((hparent _).mpr (Or.inr (Or.inl ⟨old, hold, hkey, rfl⟩))),
    fun row => made_withChildren h type kind, hspaces, hlive,
    sameRecords_carriedOut env s (.graph p type kind children)⟩
  by_cases hself : q = p
  · exact hself ▸ hnode
  · obtain ⟨_, _, _, b, hb, hkey, _⟩ := (hchildren p q).mpr (Or.inr ⟨rfl, hlisted, hself⟩)
    exact hasNode_iff.mpr ⟨b, hb, hkey⟩

end Reconcile

/-! ### One graph for one set -/

/-- The stores `t` and `u` differ at most in the ids of nodes that `s` does not have. -/
structure Renumbered (ρ : ℤ → ℤ) (s t u : Store) : Prop where
  fixed : ∀ row ∈ s.nodes.rows, ρ row.id = row.id
  nodes : (t.nodes.rows.map fun row => { row with id := ρ row.id }).Perm u.nodes.rows
  edges : ∀ i j, (i, j) ∈ u.edges ↔ ∃ a b, (a, b) ∈ t.edges ∧ ρ a = i ∧ ρ b = j
  spaces : u.spaces = t.spaces
  live : u.live = t.live
  records : Reconcile.SameRecords t u

namespace Added

variable {env : Env} {p : String} {kind : NodeKind} {document : Option ℤ}
  {listed listed' : String → Prop} {s t u : Store}

/-- The nodes are those that were there, the node itself and the listed ones. -/
theorem hasNode_iff (h : Added env p kind document listed s t) {q : String} :
    t.hasNode q = true ↔ s.hasNode q = true ∨ q = p ∨ listed q := by
  constructor
  · intro hnode
    obtain ⟨row, hrow, rfl⟩ := Store.hasNode_iff.mp hnode
    cases hfree : s.hasNode row.publicId with
    | true => exact Or.inl rfl
    | false => exact Or.inr (h.made row hrow hfree).1
  · rintro (hnode | rfl | hlisted)
    · obtain ⟨old, hold, rfl⟩ := Store.hasNode_iff.mp hnode
      by_cases hkey : old.publicId = p
      · exact hkey ▸ h.node
      · exact Store.hasNode_iff.mpr ⟨old, h.others old hold hkey, rfl⟩
    · exact h.node
    · exact h.there q hlisted

/-- A node that was there has become a row that is determined by it. -/
theorem row_of_old (h : Added env p kind document listed s t) {old row : NodeRow}
    (hold : old ∈ s.nodes.rows) (hrow : row ∈ t.nodes.rows) (hkey : row.publicId = old.publicId) :
    row = if old.publicId = p then old.referring env document else old := by
  by_cases hself : old.publicId = p
  · rw [if_pos hself]
    exact List.inj_on_of_nodup_map h.sound.nodeKeys hrow (h.parent old hold hself)
      (hkey.trans (NodeRow.publicId_referring document).symm)
  · rw [if_neg hself]
    exact List.inj_on_of_nodup_map h.sound.nodeKeys hrow (h.others old hold hself) hkey

/-- Rows of one public id differ in their ids at most. -/
theorem row_eq (ht : Added env p kind document listed s t)
    (hu : Added env p kind document listed' s u) {a b : NodeRow} (ha : a ∈ t.nodes.rows)
    (hb : b ∈ u.nodes.rows) (hkey : a.publicId = b.publicId) : { a with id := b.id } = b := by
  cases hfree : s.hasNode b.publicId with
  | true =>
    obtain ⟨old, hold, hokey⟩ := Store.hasNode_iff.mp hfree
    rw [ht.row_of_old hold ha (hkey.trans hokey.symm), hu.row_of_old hold hb hokey.symm]
  | false =>
    rw [(ht.made a ha (hkey ▸ hfree)).2, (hu.made b hb hfree).2, hkey]
    rfl

end Added

/-- The id that `u` has for the node with an id of `t`. -/
def Store.idIn (t u : Store) (id : ℤ) : ℤ :=
  ((t.nodes.find? (·.id = id)).bind fun row => (u.nodeRow? row.publicId).map (·.id)).getD id

theorem Store.idIn_eq {tokens : Tokenizer} {t u : Store} (ht : t.GraphSound tokens)
    (hu : u.GraphSound tokens) {a b : NodeRow} (ha : a ∈ t.nodes.rows) (hb : b ∈ u.nodes.rows)
    (hkey : b.publicId = a.publicId) : t.idIn u a.id = b.id := by
  have hfound : t.nodes.find? (·.id = a.id) = some a := by
    cases hfind : t.nodes.find? (·.id = a.id) with
    | none => exact absurd (List.find?_eq_none.mp hfind a ha) (by simp)
    | some row =>
      have hid : row.id = a.id := by simpa using List.find?_some hfind
      rw [ht.nodeIds.eq_of_id_eq (List.mem_of_find?_eq_some hfind) ha hid]
  unfold idIn
  rw [hfound, Option.bind_some, hu.nodeRow?_eq_some.mpr ⟨hb, hkey⟩]
  rfl

namespace Added

variable {env : Env} {p : String} {kind : NodeKind} {document : Option ℤ}
  {listed listed' : String → Prop} {s t u : Store}
  (ht : Added env p kind document listed s t) (hu : Added env p kind document listed' s u)
  (hsame : ∀ q ≠ p, listed q ↔ listed' q)

include ht hu

/-- A node that was there keeps its id. -/
theorem idIn_old {old : NodeRow} (hold : old ∈ s.nodes.rows) : t.idIn u old.id = old.id := by
  have hnode : s.hasNode old.publicId = true := Store.hasNode_iff.mpr ⟨old, hold, rfl⟩
  obtain ⟨a, ha, hakey⟩ := Store.hasNode_iff.mp (ht.hasNode_iff.mpr (Or.inl hnode))
  obtain ⟨b, hb, hbkey⟩ := Store.hasNode_iff.mp (hu.hasNode_iff.mpr (Or.inl hnode))
  have haid : a.id = old.id := by
    rw [ht.row_of_old hold ha hakey]
    split <;> simp
  have hbid : b.id = old.id := by
    rw [hu.row_of_old hold hb hbkey]
    split <;> simp
  rw [← haid, Store.idIn_eq ht.sound hu.sound ha hb (hbkey.trans hakey.symm), hbid, haid]

include hsame

/-- Every node has its counterpart in the other store. -/
theorem exists_counterpart {a : NodeRow} (ha : a ∈ t.nodes.rows) :
    ∃ b ∈ u.nodes.rows, b.publicId = a.publicId ∧ t.idIn u a.id = b.id := by
  have hnode := ht.hasNode_iff.mp (Store.hasNode_iff.mpr ⟨a, ha, rfl⟩)
  have hthere : u.hasNode a.publicId = true := by
    rw [hu.hasNode_iff]
    by_cases hself : a.publicId = p
    · exact Or.inr (Or.inl hself)
    · rwa [hsame _ hself] at hnode
  obtain ⟨b, hb, hkey⟩ := Store.hasNode_iff.mp hthere
  exact ⟨b, hb, hkey, Store.idIn_eq ht.sound hu.sound ha hb hkey⟩

theorem exists_original {b : NodeRow} (hb : b ∈ u.nodes.rows) :
    ∃ a ∈ t.nodes.rows, a.publicId = b.publicId ∧ t.idIn u a.id = b.id := by
  obtain ⟨a, ha, hkey, -⟩ := hu.exists_counterpart ht (fun q hne => (hsame q hne).symm) hb
  exact ⟨a, ha, hkey, Store.idIn_eq ht.sound hu.sound ha hb hkey.symm⟩

theorem perm_nodes :
    (t.nodes.rows.map fun row => { row with id := t.idIn u row.id }).Perm u.nodes.rows := by
  have hkeys : (t.nodes.rows.map fun row => { row with id := t.idIn u row.id }).Nodup := by
    refine List.Nodup.of_map (·.publicId) ?_
    rw [List.map_map]
    exact ht.sound.nodeKeys
  have hkeys' : u.nodes.rows.Nodup := List.Nodup.of_map _ hu.sound.nodeKeys
  refine (List.perm_ext_iff_of_nodup hkeys hkeys').mpr fun row => ?_
  rw [List.mem_map]
  constructor
  · rintro ⟨a, ha, rfl⟩
    obtain ⟨b, hb, hkey, hid⟩ := ht.exists_counterpart hu hsame ha
    rw [hid, ht.row_eq hu ha hb hkey.symm]
    exact hb
  · intro hb
    obtain ⟨a, ha, hkey, hid⟩ := ht.exists_original hu hsame hb
    refine ⟨a, ha, ?_⟩
    rw [hid]
    exact ht.row_eq hu ha hb hkey

theorem mem_edges_iff {i j : ℤ} :
    (i, j) ∈ u.edges ↔ ∃ a b, (a, b) ∈ t.edges ∧ t.idIn u a = i ∧ t.idIn u b = j := by
  have hbelow : ∀ a b, t.IsChild a b ↔ u.IsChild a b := fun a b => by
    rw [ht.children, hu.children]
    exact or_congr Iff.rfl (and_congr Iff.rfl (and_congr_left fun hne => hsame b hne))
  constructor
  · intro hedge
    obtain ⟨c, hc, rfl, d, hd, rfl, hchild⟩ := hu.sound.isChild_of_edge hedge
    obtain ⟨a, ha, hakey, b, hb, hbkey, hpair⟩ := (hbelow _ _).mpr hchild
    exact ⟨a.id, b.id, hpair, Store.idIn_eq ht.sound hu.sound ha hc hakey.symm,
      Store.idIn_eq ht.sound hu.sound hb hd hbkey.symm⟩
  · rintro ⟨i, j, hpair, rfl, rfl⟩
    obtain ⟨a, ha, rfl, b, hb, rfl, hchild⟩ := ht.sound.isChild_of_edge hpair
    obtain ⟨c, hc, hckey, d, hd, hdkey, hedge⟩ := (hbelow _ _).mp hchild
    rw [Store.idIn_eq ht.sound hu.sound ha hc hckey, Store.idIn_eq ht.sound hu.sound hb hd hdkey]
    exact hedge

/-- What is listed determines the graph, but for the ids of new nodes. -/
theorem renumbered : Renumbered (t.idIn u) s t u where
  fixed _ hold := ht.idIn_old hu hold
  nodes := ht.perm_nodes hu hsame
  edges _ _ := ht.mem_edges_iff hu hsame
  spaces := hu.spaces.trans ht.spaces.symm
  live := hu.live.trans ht.live.symm
  records := ht.records.symm.trans hu.records

end Added

namespace Reachable

variable {tokens : Tokenizer} {s : Store} {event : Event}

theorem apply_graph (h : Reachable tokens s) (clock : ℤ)
    (htype : event.type = .graph ∨ event.type = .methodGraph) (haction : event.action ≠ .delete) :
    let env : Env := { clock, tokens }
    ∃ t, Reconcile.apply env (Plan.ofEvent event) s = .ok .applied t ∧
      Added env event.publicId (Plan.graphKind event.type)
        (s.documentId? event.publicId event.type) (event.ListsChild ·) s t := by
  intro env
  have hs : s.GraphSound env.tokens := h.sound.toGraphSound
  have quiet : env.rivals = {} := rfl
  have hadded := Reconcile.added_withChildren (p := event.publicId) quiet hs event.type
    (Plan.graphKind event.type) (Plan.childrenIn event.newData)
  simp only [Plan.mem_childrenIn] at hadded
  rw [Plan.ofEvent_graph htype haction]
  exact ⟨_, Command.bind_of_ok (Reconcile.graph_eq quiet hs _ _ _), hadded⟩

/-- In every reachable store, an event of a graph that is not a deletion is applied. What it lists
comes below the node of its document, nothing else changes but what the node gets with its document,
and only which public ids are listed matters. -/
theorem added (h : Reachable tokens s) (clock : ℤ)
    (htype : event.type = .graph ∨ event.type = .methodGraph) (haction : event.action ≠ .delete) :
    let env : Env := { clock, tokens }
    ∃ t, Reconcile.apply env (Plan.ofEvent event) s = .ok .applied t ∧
      Added env event.publicId (Plan.graphKind event.type)
        (s.documentId? event.publicId event.type) (event.ListsChild ·) s t ∧
      ∀ other : Event, other.publicId = event.publicId → other.type = event.type →
        other.action ≠ .delete →
        (∀ q ≠ event.publicId, event.ListsChild q ↔ other.ListsChild q) →
        ∃ u, Reconcile.apply env (Plan.ofEvent other) s = .ok .applied u ∧
          ∃ ρ, Renumbered ρ s t u := by
  intro env
  obtain ⟨t, hdone, hadded⟩ := h.apply_graph clock htype haction
  refine ⟨t, hdone, hadded, fun other hkey hkind hother hsame => ?_⟩
  obtain ⟨u, hdone', hadded'⟩ := h.apply_graph clock (hkind ▸ htype) hother
  rw [hkey, hkind] at hadded'
  exact ⟨u, hdone', _, hadded.renumbered hadded' hsame⟩

end Reachable

/-- A node below another one, and a document whose node was made by being listed. -/
def nested : List (ℤ × Operation) :=
  [(1000, .upsert "b" .graph [] (some (.obj [("nodes", .arr [.str "p", .str "d"])]))),
    (2000, .pass 1 false 60000), (3000, .upsert "p" .methodGraph [] none)]

def listingEvent (nodes : Json) : Event :=
  ⟨0, "p", .methodGraph, .insert, none, some (.obj [("nodes", nodes)]), 0⟩

def keyedNodes : Json :=
  .obj [("a", .null), ("b", .obj []), ("c", .obj []), ("p", .null)]

def itemizedNodes : Json :=
  .arr [.str "c", .obj [("id", .str "b")], .bool true, .str "c", .obj [], .str "a"]

theorem listsChild_keyed_iff_itemized : ∀ q ≠ "p",
    (listingEvent keyedNodes).ListsChild q ↔ (listingEvent itemizedNodes).ListsChild q := by
  have hkeyed : Plan.childrenIn (listingEvent keyedNodes).newData = ["a", "b", "c", "p"] := rfl
  have hitemized : Plan.childrenIn (listingEvent itemizedNodes).newData =
      ["c", "b", "c", "a"] := rfl
  intro q hne
  rw [← Plan.mem_childrenIn, ← Plan.mem_childrenIn, hkeyed, hitemized]
  simp only [List.mem_cons, List.not_mem_nil, hne]
  tauto

theorem Reachable.added_itemized :
    let s := History.run String.length nested {}
    let env : Env := { clock := 4000, tokens := String.length }
    Reachable String.length s ∧
      s.nodes.rows.map (fun row => (row.publicId, row.graphDocument)) =
        [("b", some 1), ("p", none), ("d", none)] ∧
      ∃ t, Reconcile.apply env (Plan.ofEvent (listingEvent keyedNodes)) s = .ok .applied t ∧
        Added env "p" .method (some 2) ((listingEvent keyedNodes).ListsChild ·) s t ∧
        ∃ u, Reconcile.apply env (Plan.ofEvent (listingEvent itemizedNodes)) s = .ok .applied u ∧
          ∃ ρ, Renumbered ρ s t u := by
  intro s env
  have hheld : ∀ entry ∈ nested, entry.2.Held := by
    simp [nested, Operation.Held]
  have hreachable : Reachable String.length s := Reachable.empty.run hheld
  have hdocument : s.documentId? (listingEvent keyedNodes).publicId (listingEvent keyedNodes).type =
      some 2 := by
    decide +kernel
  have htype : (listingEvent keyedNodes).type = .graph ∨
      (listingEvent keyedNodes).type = .methodGraph := Or.inr rfl
  have haction : (listingEvent keyedNodes).action ≠ .delete := by decide
  obtain ⟨t, hdone, hadded, hothers⟩ := hreachable.added 4000 htype haction
  rw [hdocument] at hadded
  obtain ⟨u, hdone', hrenumbered⟩ :=
    hothers (listingEvent itemizedNodes) rfl rfl (by decide) listsChild_keyed_iff_itemized
  exact ⟨hreachable, by decide +kernel, t, hdone, hadded, u, hdone', hrenumbered⟩

/-- A node with a content that is a double whose text reads as another one, and a document that the
node lacks. -/
def unattached : List (ℤ × Operation) :=
  [(1000, .upsert "x" .editor [] (some (.reread (.float ⟨0x485ef6547ed6d072⟩)))),
    (2000, .pass 1 false 60000), (3000, .upsert "x" .methodGraph [] none)]

/-- The graph document comes with more than its column: the content is read and printed anew. -/
theorem attaching_changes_content :
    let s := History.run String.length unattached {}
    let event : Event := ⟨2, "x", .methodGraph, .insert, none, none, 3000⟩
    Reachable String.length s ∧
      s.nodes.rows.map (·.content) = [some "4.214359928052123e+40"] ∧
      ((Reconcile.apply { clock := 4000, tokens := String.length }
          (Plan.ofEvent event)).outcome s).2.nodes.rows.map (·.content) =
        [some "4.2143599280521236e+40"] := by
  intro s event
  have hheld : ∀ entry ∈ unattached, entry.2.Held := by
    simp [unattached, Operation.Held]
  exact ⟨Reachable.empty.run hheld, by decide +kernel, by decide +kernel⟩

end NodeGraph
