import NodeGraph.Proofs.Store.Nodes
import NodeGraph.Reconcile

/-!
What giving a node its content or its children leaves of a sound store, as functions of the store.
-/
namespace NodeGraph.Reconcile

open Store

variable {env : Env} {s : Store} {p : String}

/-- Null is no content. -/
def contentOf : Json → Option Json
  | .null => none
  | v => some v

/-- The store after `content` has been given to a node. -/
def withContent (env : Env) (p : String) (content : Json) (s : Store) : Store :=
  (s.materialize env p .default).changeNode p fun row =>
    (row.attach s .graph).rewrite env (contentOf content)

/-- The row with a graph document if it lacks one. -/
def documented (env : Env) (id : ℤ) (row : NodeRow) : NodeRow :=
  if row.graphDocument.isNone then
    ({ row with graphDocument := some id }).rewrite env row.contentValue
  else row

/-- Gives a node its graph document if it lacks one. -/
def withGraphDocument (env : Env) (p : String) (type : DocumentType) (s : Store) : Store :=
  match s.documentId? p type with
  | none => s
  | some id => s.changeNode p (documented env id)

/-- Puts one node below another. -/
def withEdge (p child : String) (s : Store) : Store :=
  match s.nodeRow? p, s.nodeRow? child with
  | some a, some b => { s with edges := addPair (a.id, b.id) s.edges }
  | _, _ => s

/-- Puts a child below a node, made where it was missing. -/
def withChild (env : Env) (p : String) (s : Store) (child : String) : Store :=
  if child = p then s else withEdge p child (s.materialize env child .default)

/-- The store after the children have been put below a node. -/
def withChildren (env : Env) (p : String) (type : DocumentType) (kind : NodeKind)
    (children : List String) (s : Store) : Store :=
  children.foldl (withChild env p) (withGraphDocument env p type (s.materialize env p kind))

/-! ### Frames -/

@[simp] theorem documents_materialize (p : String) (kind : NodeKind) :
    (s.materialize env p kind).documents = s.documents := by
  unfold Store.materialize
  split <;> rfl

@[simp] theorem nodes_withEdge (p child : String) (s : Store) :
    (withEdge p child s).nodes = s.nodes := by
  unfold withEdge
  split <;> rfl

theorem documentId?_of_documents {s s' : Store} (h : s'.documents = s.documents) (p : String)
    (type : DocumentType) : s'.documentId? p type = s.documentId? p type := by
  unfold documentId? document?
  rw [h]

theorem attach_of_documents {s s' : Store} (h : s'.documents = s.documents)
    (graphType : DocumentType) (row : NodeRow) :
    row.attach s' graphType = row.attach s graphType := by
  unfold NodeRow.attach
  rw [documentId?_of_documents h, documentId?_of_documents h]

theorem isSoundReference_of_documents {s s' : Store} (h : s'.documents = s.documents)
    (ref : Option ℤ) : s'.isSoundReference ref = s.isSoundReference ref := by
  unfold isSoundReference hasDocumentId
  rw [h]

theorem isSoundReference_or {a b : Option ℤ} (ha : s.isSoundReference a = true)
    (hb : s.isSoundReference b = true) : s.isSoundReference (a.or b) = true := by
  cases a
  · exact hb
  · exact ha

/-! ### Contents -/

/-- Saving a node with its documents filled in writes the attached row. -/
theorem savedRow_withDocuments {row : NodeRow} (h : row.Derived env.tokens)
    (graphType : DocumentType) (content : Option Json) :
    Nodes.savedRow env { (Nodes.withDocuments s graphType row.value).2 with content } row =
      (row.attach s graphType).rewrite env content := by
  have hkind := h.kind_name
  unfold Nodes.withDocuments Nodes.savedRow NodeRow.attach NodeRow.value NodeRow.rewrite
    Node.encode Node.refresh
  dsimp only
  rw [hkind]
  cases row.graphDocument <;> cases row.editorDocument <;> simp

theorem withDocuments_sound {row : NodeRow} (hrefs : s.isSoundReference row.editorDocument = true ∧
    s.isSoundReference row.graphDocument = true) (graphType : DocumentType) :
    s.isSoundReference (Nodes.withDocuments s graphType row.value).2.editorDocument = true ∧
      s.isSoundReference (Nodes.withDocuments s graphType row.value).2.graphDocument = true := by
  unfold Nodes.withDocuments NodeRow.value
  dsimp only
  constructor
  · split
    · exact isSoundReference_or documentId?_isSound hrefs.1
    · exact hrefs.1
  · split
    · exact isSoundReference_or documentId?_isSound hrefs.2
    · exact hrefs.2

theorem contentOf_sound {content : Json} (h : content.Sound) : ∀ v ∈ contentOf content, v.Sound := by
  intro v hv
  cases content <;> simp_all [contentOf]

theorem rewrite_derived {row : NodeRow} (h : row.Derived env.tokens) {content : Option Json}
    (hsound : ∀ v ∈ content, v.Sound) : (row.rewrite env content).Derived env.tokens :=
  NodeRow.derived_of_content ⟨row.kindValue, h.kind_name.symm⟩ hsound rfl rfl rfl rfl

theorem withContent_sound (h : s.GraphSound env.tokens) {content : Json} (hc : content.Sound) :
    (withContent env p content s).GraphSound env.tokens := by
  have hm := h.materialize p .default
  refine hm.changeNode fun row hrow _ => ?_
  have hderived : (row.attach s .graph).Derived env.tokens := by
    obtain ⟨h1, h2, h3, h4, h5⟩ := hm.derived row hrow
    exact ⟨h1, h2, h3, h4, h5⟩
  refine ⟨rfl, rfl, rewrite_derived hderived (contentOf_sound hc), ?_⟩
  have hrefs := hm.references row hrow
  rw [isSoundReference_of_documents (documents_materialize p .default),
    isSoundReference_of_documents (documents_materialize p .default)] at hrefs ⊢
  exact ⟨isSoundReference_or hrefs.1 documentId?_isSound,
    isSoundReference_or hrefs.2 documentId?_isSound⟩

theorem editor_eq (quiet : env.rivals = {}) (h : s.GraphSound env.tokens) (content : Json) :
    editor env p content s = .ok ⟨⟩ (withContent env p content s) := by
  have hm := h.materialize p .default
  obtain ⟨row, hrow, hensure⟩ := Nodes.ensure_eq quiet h p .default
  obtain ⟨hmem, rfl⟩ := hm.nodeRow?_eq_some.mp hrow
  unfold editor
  rw [Command.bind_of_ok hensure, Command.bind_of_ok (Command.get_eq _)]
  have hsave := Nodes.save_value env hm hmem
    { (Nodes.withDocuments (s.materialize env row.publicId .default) .graph row.value).2
      with content := contentOf content } rfl (withDocuments_sound (hm.references row hmem) .graph)
  have hresult : (s.materialize env row.publicId .default).changeNode row.publicId
      (Nodes.savedRow env { (Nodes.withDocuments (s.materialize env row.publicId .default) .graph
        row.value).2 with content := contentOf content }) =
      withContent env row.publicId content s := by
    unfold withContent
    refine changeNode_congr fun r hr hkey => ?_
    obtain rfl : r = row := List.inj_on_of_nodup_map hm.nodeKeys hr hmem hkey
    rw [savedRow_withDocuments (hm.derived r hr)]
    rw [attach_of_documents (documents_materialize _ _)]
  rw [hresult] at hsave
  cases content <;> exact Command.bind_of_ok hsave

/-! ### Children -/

theorem withGraphDocument_sound (h : s.GraphSound env.tokens) (type : DocumentType) :
    (withGraphDocument env p type s).GraphSound env.tokens := by
  unfold withGraphDocument
  split
  · exact h
  · rename_i id hid
    refine h.changeNode fun row hrow _ => ?_
    have hderived := h.derived row hrow
    unfold documented
    split
    · have hgraph : ({ row with graphDocument := some id } : NodeRow).Derived env.tokens := by
        obtain ⟨h1, h2, h3, h4, h5⟩ := hderived
        exact ⟨h1, h2, h3, h4, h5⟩
      refine ⟨rfl, rfl, rewrite_derived hgraph hderived.sound, (h.references row hrow).1, ?_⟩
      show s.isSoundReference (some id) = true
      rw [← hid]
      exact documentId?_isSound
    · exact ⟨rfl, rfl, hderived, h.references row hrow⟩

theorem withEdge_sound (h : s.GraphSound env.tokens) (child : String) :
    (withEdge p child s).GraphSound env.tokens := by
  unfold withEdge
  split
  · rename_i a b ha hb
    refine ⟨h.nodeIds, h.nodeKeys, h.derived, h.references, h.spaceIds, h.spaceKeys, ?_,
      h.liveEnds⟩
    intro pair hpair
    have hmem : pair = (a.id, b.id) ∨ pair ∈ s.edges := by
      unfold addPair at hpair
      split at hpair
      · exact Or.inr hpair
      · rcases List.mem_append.mp hpair with hold | hnew
        · exact Or.inr hold
        · exact Or.inl (List.mem_singleton.mp hnew)
    rcases hmem with rfl | hold
    · exact ⟨hasNodeId_iff.mpr ⟨a, (h.nodeRow?_eq_some.mp ha).1, rfl⟩,
        hasNodeId_iff.mpr ⟨b, (h.nodeRow?_eq_some.mp hb).1, rfl⟩⟩
    · exact h.edgeEnds pair hold
  · exact h

theorem withChild_sound (h : s.GraphSound env.tokens) (child : String) :
    (withChild env p s child).GraphSound env.tokens := by
  unfold withChild
  split
  · exact h
  · exact withEdge_sound (h.materialize child .default) child

theorem withChildren_sound (h : s.GraphSound env.tokens) (type : DocumentType) (kind : NodeKind)
    (children : List String) : (withChildren env p type kind children s).GraphSound env.tokens := by
  unfold withChildren
  have hstart := withGraphDocument_sound (p := p) (h.materialize p kind) type
  generalize withGraphDocument env p type (s.materialize env p kind) = t at hstart
  induction children generalizing t with
  | nil => exact hstart
  | cons child rest ih => exact ih _ (withChild_sound hstart child)

/-- The row of a node outlasts the making of another. -/
theorem nodeRow?_materialize (h : s.GraphSound env.tokens) {q : String} {row : NodeRow}
    (hrow : s.nodeRow? q = some row) (kind : NodeKind) :
    (s.materialize env p kind).nodeRow? q = some row := by
  obtain ⟨hmem, hkey⟩ := h.nodeRow?_eq_some.mp hrow
  refine (h.materialize p kind).nodeRow?_eq_some.mpr ⟨?_, hkey⟩
  unfold Store.materialize
  split
  · exact hmem
  · exact List.mem_append_left _ hmem

theorem link_eq {a b : NodeRow} (h : s.GraphSound env.tokens) (ha : s.nodeRow? p = some a)
    {child : String} (hb : s.nodeRow? child = some b) :
    ∃ added, Nodes.link a.id b.id s = .ok added (withEdge p child s) := by
  have hresult : withEdge p child s = { s with edges := addPair (a.id, b.id) s.edges } := by
    unfold withEdge
    rw [ha, hb]
  have hends : (s.hasNodeId a.id && s.hasNodeId b.id) = true := by
    rw [Bool.and_eq_true]
    exact ⟨hasNodeId_iff.mpr ⟨a, (h.nodeRow?_eq_some.mp ha).1, rfl⟩,
      hasNodeId_iff.mpr ⟨b, (h.nodeRow?_eq_some.mp hb).1, rfl⟩⟩
  unfold Nodes.link
  rw [Command.bind_of_ok (Command.get_eq s), hresult]
  unfold addEdge addPair
  by_cases hmem : (a.id, b.id) ∈ s.edges
  · rw [if_pos hmem, if_pos (List.contains_iff_mem.mpr hmem)]
    exact ⟨false, rfl⟩
  · rw [if_neg hmem, if_neg (mt List.contains_iff_mem.mp hmem), if_pos hends]
    exact ⟨true, rfl⟩

theorem addChild_eq (quiet : env.rivals = {}) (h : s.GraphSound env.tokens) {parent : Node}
    {row : NodeRow} (hrow : s.nodeRow? p = some row) (hid : parent.id = row.id) (child : String) :
    addChild env parent p child s = .ok ⟨⟩ (withChild env p s child) := by
  unfold addChild withChild
  split
  · obtain ⟨childRow, hchild, hensure⟩ := Nodes.ensure_eq quiet h child .default
    obtain ⟨added, hlink⟩ := link_eq (h.materialize child .default)
      (nodeRow?_materialize h hrow .default) hchild
    rw [Command.bind_of_ok hensure, hid]
    exact Command.bind_of_ok hlink
  · rename_i heq
    rw [if_pos (not_not.mp heq)]
    rfl

theorem nodeRow?_withChild (h : s.GraphSound env.tokens) {q : String} {row : NodeRow}
    (hrow : s.nodeRow? q = some row) (child : String) :
    (withChild env p s child).nodeRow? q = some row := by
  unfold withChild
  split
  · exact hrow
  · unfold nodeRow?
    rw [nodes_withEdge]
    exact nodeRow?_materialize h hrow .default

theorem addChildren_eq (quiet : env.rivals = {}) (h : s.GraphSound env.tokens) {parent : Node}
    {row : NodeRow} (hrow : s.nodeRow? p = some row) (hid : parent.id = row.id)
    (children : List String) :
    children.forM (addChild env parent p) s = .ok ⟨⟩ (children.foldl (withChild env p) s) := by
  induction children generalizing s with
  | nil => rfl
  | cons child rest ih =>
    show (addChild env parent p child >>= fun _ => rest.forM (addChild env parent p)) s = _
    rw [Command.bind_of_ok (addChild_eq quiet h hrow hid child)]
    exact ih (withChild_sound h child) (nodeRow?_withChild h hrow child)

@[simp] theorem id_documented (id : ℤ) (row : NodeRow) : (documented env id row).id = row.id := by
  unfold documented
  split <;> rfl

@[simp] theorem publicId_documented (id : ℤ) (row : NodeRow) :
    (documented env id row).publicId = row.publicId := by
  unfold documented
  split <;> rfl

/-- The row of the node keeps its id when it is given its graph document. -/
theorem nodeRow?_withGraphDocument (h : s.GraphSound env.tokens) (type : DocumentType)
    {row : NodeRow} (hrow : s.nodeRow? p = some row) :
    ∃ row', (withGraphDocument env p type s).nodeRow? p = some row' ∧ row'.id = row.id := by
  have hsound := withGraphDocument_sound (p := p) h type
  obtain ⟨hmem, hkey⟩ := h.nodeRow?_eq_some.mp hrow
  unfold withGraphDocument at hsound ⊢
  cases hdoc : s.documentId? p type with
  | none => exact ⟨row, hrow, rfl⟩
  | some id =>
    rw [hdoc] at hsound
    refine ⟨documented env id row, hsound.nodeRow?_eq_some.mpr ⟨?_, ?_⟩, id_documented id row⟩
    · rw [rows_changeNode]
      exact List.mem_map.mpr ⟨row, hmem, if_pos hkey⟩
    · rw [publicId_documented, hkey]

theorem graph_eq (quiet : env.rivals = {}) (h : s.GraphSound env.tokens) (type : DocumentType)
    (kind : NodeKind) (children : List String) :
    graph env p type kind children s = .ok ⟨⟩ (withChildren env p type kind children s) := by
  have hm := h.materialize p kind
  obtain ⟨row, hrow, hensure⟩ := Nodes.ensure_eq quiet h p kind
  obtain ⟨hmem, rfl⟩ := hm.nodeRow?_eq_some.mp hrow
  obtain ⟨row', hrow', hid⟩ := nodeRow?_withGraphDocument hm type hrow
  have hchildren := addChildren_eq quiet (withGraphDocument_sound (p := row.publicId) hm type)
    hrow' (show row.value.id = row'.id from hid.symm) children
  unfold graph withChildren
  rw [Command.bind_of_ok hensure]
  dsimp only
  generalize s.materialize env row.publicId kind = t at *
  split
  · rename_i hnone
    have hempty : row.graphDocument.isNone = true := hnone
    rw [Command.bind_of_ok (Command.get_eq t)]
    unfold withGraphDocument at hchildren ⊢
    cases hdoc : t.documentId? row.publicId type with
    | none =>
      rw [hdoc] at hchildren
      exact hchildren
    | some id =>
      rw [hdoc] at hchildren
      have hrefs : t.isSoundReference row.editorDocument = true ∧
          t.isSoundReference (some id) = true :=
        ⟨(hm.references row hmem).1, hdoc ▸ documentId?_isSound⟩
      have hresult : t.changeNode row.publicId
          (Nodes.savedRow env { row.value with graphDocument := some id }) =
          t.changeNode row.publicId (documented env id) := by
        refine changeNode_congr fun r hr hkey => ?_
        obtain rfl : r = row := List.inj_on_of_nodup_map hm.nodeKeys hr hmem hkey
        have hkind := (hm.derived r hr).kind_name
        unfold documented
        rw [if_pos hempty]
        unfold Nodes.savedRow NodeRow.rewrite NodeRow.value Node.encode Node.refresh
        dsimp only
        rw [hkind]
      have hsave := Nodes.save_value env hm hmem { row.value with graphDocument := some id } rfl hrefs
      rw [hresult] at hsave
      have hdiscard : (discard (Nodes.save env { row.value with graphDocument := some id }) :
          Command PUnit) t = .ok ⟨⟩ (t.changeNode row.publicId (documented env id)) :=
        Command.bind_of_ok hsave
      exact (Command.bind_of_ok hdiscard).trans hchildren
  · rename_i hsome
    have hkept : withGraphDocument env row.publicId type t = t := by
      unfold withGraphDocument
      split
      · rfl
      · refine changeNode_self fun r hr hkey => ?_
        obtain rfl : r = row := List.inj_on_of_nodup_map hm.nodeKeys hr hmem hkey
        exact if_neg hsome
    rw [hkept] at hchildren ⊢
    exact hchildren

end NodeGraph.Reconcile
