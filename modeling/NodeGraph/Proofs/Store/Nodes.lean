import NodeGraph.Proofs.Store.Sound

/-!
What the commands on nodes do to a sound store when no rival writes in between.
-/
namespace NodeGraph

namespace NodeRow

/-- The row with another content, its derived columns anew. -/
def rewrite (env : Env) (content : Option Json) (row : NodeRow) : NodeRow :=
  { row with
    titleTokens := some (env.tokens row.title), content := content.map Json.compact
    text := Json.plainText content, textTokens := some (env.tokens (Json.plainText content))
    updatedAt := env.now }

/-- The row with the document references that it lacks; `graphType` is the type of its graph
document. -/
def attach (s : Store) (graphType : DocumentType) (row : NodeRow) : NodeRow :=
  { row with
    editorDocument := row.editorDocument.or (s.documentId? row.publicId .editor)
    graphDocument := row.graphDocument.or (s.documentId? row.publicId graphType) }

/-- The row with another title. -/
def retitled (env : Env) (title : String) (row : NodeRow) : NodeRow :=
  { row with title, titleTokens := some (env.tokens title), updatedAt := env.now }

end NodeRow

namespace Store

/-- The store with a node of that public id, made with `kind` where there was none. -/
def materialize (env : Env) (publicId : String) (kind : NodeKind) (s : Store) : Store :=
  if s.hasNode publicId then s
  else { s with nodes := s.nodes.add fun id => (Nodes.blank env publicId "" kind id).encode }

/-- Changes every node in place. -/
def mapNodes (f : NodeRow → NodeRow) (s : Store) : Store :=
  { s with nodes := { s.nodes with rows := s.nodes.rows.map f } }

/-- Changes the node of a public id. -/
def changeNode (publicId : String) (f : NodeRow → NodeRow) (s : Store) : Store :=
  s.mapNodes fun row => if row.publicId = publicId then f row else row

variable {tokens : Tokenizer} {env : Env} {s : Store} {p : String} {kind : NodeKind}

/-! ### Changing nodes in place -/

@[simp] theorem rows_mapNodes (f : NodeRow → NodeRow) (s : Store) :
    (s.mapNodes f).nodes.rows = s.nodes.rows.map f := rfl

theorem mapNodes_congr {f g : NodeRow → NodeRow} (h : ∀ row ∈ s.nodes.rows, f row = g row) :
    s.mapNodes f = s.mapNodes g := by
  unfold mapNodes
  rw [List.map_congr_left h]

theorem mapNodes_self {f : NodeRow → NodeRow} (h : ∀ row ∈ s.nodes.rows, f row = row) :
    s.mapNodes f = s := by
  unfold mapNodes
  rw [List.map_congr_left h, List.map_id']

theorem mapNodes_mapNodes (f g : NodeRow → NodeRow) (s : Store) :
    (s.mapNodes f).mapNodes g = s.mapNodes fun row => g (f row) := by
  unfold mapNodes
  rw [List.map_map]
  rfl

theorem rows_changeNode (p : String) (f : NodeRow → NodeRow) (s : Store) :
    (s.changeNode p f).nodes.rows =
      s.nodes.rows.map fun row => if row.publicId = p then f row else row := rfl

theorem changeNode_congr {f g : NodeRow → NodeRow}
    (h : ∀ row ∈ s.nodes.rows, row.publicId = p → f row = g row) :
    s.changeNode p f = s.changeNode p g := by
  refine mapNodes_congr fun row hrow => ?_
  by_cases hp : row.publicId = p
  · rw [if_pos hp, if_pos hp, h row hrow hp]
  · rw [if_neg hp, if_neg hp]

theorem changeNode_self {f : NodeRow → NodeRow}
    (h : ∀ row ∈ s.nodes.rows, row.publicId = p → f row = row) : s.changeNode p f = s := by
  refine mapNodes_self fun row hrow => ?_
  by_cases hp : row.publicId = p
  · rw [if_pos hp, h row hrow hp]
  · rw [if_neg hp]

theorem updateNode_eq_mapNodes (id : ℤ) (f : NodeRow → NodeRow) (s : Store) :
    s.updateNode id f = s.mapNodes fun row => if row.id = id then f row else row := by
  unfold updateNode Table.update mapNodes
  simp only [decide_eq_true_eq]

/-- A node is known by its row id as well as by its public id. -/
theorem updateNode_eq_changeNode (h : s.GraphSound tokens) {row : NodeRow}
    (hrow : row ∈ s.nodes.rows) (f : NodeRow → NodeRow) :
    s.updateNode row.id f = s.changeNode row.publicId f := by
  rw [updateNode_eq_mapNodes]
  refine mapNodes_congr fun r hr => ?_
  have hiff : r.id = row.id ↔ r.publicId = row.publicId :=
    ⟨fun heq => by rw [h.nodeIds.eq_of_id_eq hr hrow heq],
      fun heq => by rw [List.inj_on_of_nodup_map h.nodeKeys hr hrow heq]⟩
  simp only [hiff]

/-- A column that no change touches has the values that it had. -/
theorem exists_row_mapNodes {α : Type} {f : NodeRow → NodeRow} {column : NodeRow → α}
    (hf : ∀ row ∈ s.nodes.rows, column (f row) = column row) (a : α) :
    (∃ row ∈ (s.mapNodes f).nodes.rows, column row = a) ↔
      ∃ row ∈ s.nodes.rows, column row = a := by
  rw [rows_mapNodes]
  constructor
  · rintro ⟨row', hrow', rfl⟩
    obtain ⟨row, hrow, rfl⟩ := List.mem_map.mp hrow'
    exact ⟨row, hrow, (hf row hrow).symm⟩
  · rintro ⟨row, hrow, rfl⟩
    exact ⟨f row, List.mem_map_of_mem hrow, hf row hrow⟩

theorem hasNodeId_mapNodes {f : NodeRow → NodeRow} (hf : ∀ row ∈ s.nodes.rows, (f row).id = row.id)
    (id : ℤ) : (s.mapNodes f).hasNodeId id = s.hasNodeId id := by
  rw [Bool.eq_iff_iff, hasNodeId_iff, hasNodeId_iff]
  exact exists_row_mapNodes hf id

theorem hasNode_mapNodes {f : NodeRow → NodeRow}
    (hf : ∀ row ∈ s.nodes.rows, (f row).publicId = row.publicId) (p : String) :
    (s.mapNodes f).hasNode p = s.hasNode p := by
  rw [Bool.eq_iff_iff, hasNode_iff, hasNode_iff]
  exact exists_row_mapNodes hf p

/-- Nodes changed in place stay sound when the changed rows are. -/
theorem GraphSound.mapNodes (h : s.GraphSound tokens) {f : NodeRow → NodeRow}
    (hid : ∀ row ∈ s.nodes.rows, (f row).id = row.id)
    (hkey : ∀ row ∈ s.nodes.rows, (f row).publicId = row.publicId)
    (hderived : ∀ row ∈ s.nodes.rows, (f row).Derived tokens)
    (hrefs : ∀ row ∈ s.nodes.rows, s.isSoundReference (f row).editorDocument = true ∧
      s.isSoundReference (f row).graphDocument = true) : (s.mapNodes f).GraphSound tokens := by
  have hids := hasNodeId_mapNodes hid
  refine ⟨h.nodeIds.map hid, ?_, ?_, ?_, h.spaceIds, h.spaceKeys, ?_, ?_⟩
  · rw [rows_mapNodes, List.map_map, List.map_congr_left (g := (·.publicId)) hkey]
    exact h.nodeKeys
  · intro row' hrow'
    obtain ⟨row, hrow, rfl⟩ := List.mem_map.mp hrow'
    exact hderived row hrow
  · intro row' hrow'
    obtain ⟨row, hrow, rfl⟩ := List.mem_map.mp hrow'
    exact hrefs row hrow
  · intro pair hpair
    rw [hids, hids]
    exact h.edgeEnds pair hpair
  · intro pair hpair
    rw [hids]
    exact h.liveEnds pair hpair

/-- A node changed in place stays sound when its own row does. -/
theorem GraphSound.changeNode (h : s.GraphSound tokens) {f : NodeRow → NodeRow}
    (hf : ∀ row ∈ s.nodes.rows, row.publicId = p → (f row).id = row.id ∧
      (f row).publicId = row.publicId ∧ (f row).Derived tokens ∧
      s.isSoundReference (f row).editorDocument = true ∧
      s.isSoundReference (f row).graphDocument = true) : (s.changeNode p f).GraphSound tokens := by
  refine h.mapNodes ?_ ?_ ?_ ?_
  · intro row hrow
    split
    · rename_i hp
      exact (hf row hrow hp).1
    · rfl
  · intro row hrow
    split
    · rename_i hp
      exact (hf row hrow hp).2.1
    · rfl
  · intro row hrow
    split
    · rename_i hp
      exact (hf row hrow hp).2.2.1
    · exact h.derived row hrow
  · intro row hrow
    split
    · rename_i hp
      exact (hf row hrow hp).2.2.2
    · exact h.references row hrow

/-! ### Adding a node -/

/-- The node of one public id has been changed, but not its ids and references, and its row is
derived. -/
def Edited (tokens : Tokenizer) (s t : Store) : Prop :=
  ∃ p f, (∀ row ∈ s.nodes.rows, row.publicId = p → (f row).id = row.id ∧
    (f row).publicId = row.publicId ∧ (f row).Derived tokens ∧
    (f row).editorDocument = row.editorDocument ∧ (f row).graphDocument = row.graphDocument) ∧
    t = s.changeNode p f

theorem Edited.refl (h : s.GraphSound tokens) : s.Edited tokens s :=
  ⟨"", fun row => row, fun row hrow _ => ⟨rfl, rfl, h.derived row hrow, rfl, rfl⟩,
    (changeNode_self fun _ _ _ => rfl).symm⟩

theorem Edited.sound {t : Store} (h : s.Edited tokens t) (hs : s.Sound tokens) :
    t.Sound tokens := by
  obtain ⟨p, f, hf, rfl⟩ := h
  refine hs.withGraph (hs.toGraphSound.changeNode fun row hrow hkey => ?_) rfl rfl rfl
  obtain ⟨hid, hpublicId, hderived, heditor, hgraph⟩ := hf row hrow hkey
  exact ⟨hid, hpublicId, hderived, heditor ▸ (hs.references row hrow).1,
    hgraph ▸ (hs.references row hrow).2⟩

theorem GraphSound.addNode (h : s.GraphSound tokens) {row : ℤ → NodeRow}
    (hid : (row s.nodes.nextId).id = s.nodes.nextId)
    (hfree : s.hasNode (row s.nodes.nextId).publicId = false)
    (hderived : (row s.nodes.nextId).Derived tokens)
    (hrefs : s.isSoundReference (row s.nodes.nextId).editorDocument = true ∧
      s.isSoundReference (row s.nodes.nextId).graphDocument = true) :
    { s with nodes := s.nodes.add row }.GraphSound tokens := by
  have hmono : ∀ id, s.hasNodeId id = true →
      ({ s with nodes := s.nodes.add row } : Store).hasNodeId id = true := by
    intro id hid
    obtain ⟨r, hr, rfl⟩ := hasNodeId_iff.mp hid
    exact hasNodeId_iff.mpr ⟨r, List.mem_append_left _ hr, rfl⟩
  refine ⟨h.nodeIds.add hid, ?_, ?_, ?_, h.spaceIds, h.spaceKeys, ?_, ?_⟩
  · rw [Table.rows_add, List.map_append, List.nodup_append]
    refine ⟨h.nodeKeys, List.nodup_singleton _, ?_⟩
    intro a ha b hb heq
    obtain ⟨r, hr, rfl⟩ := List.mem_map.mp ha
    rw [List.map_singleton, List.mem_singleton] at hb
    have hhas := hasNode_iff.mpr ⟨r, hr, heq.trans hb⟩
    rw [hfree] at hhas
    exact Bool.false_ne_true hhas
  · intro r hr
    rcases List.mem_append.mp hr with hold | hnew
    · exact h.derived r hold
    · rw [List.mem_singleton.mp hnew]
      exact hderived
  · intro r hr
    rcases List.mem_append.mp hr with hold | hnew
    · exact h.references r hold
    · rw [List.mem_singleton.mp hnew]
      exact hrefs
  · intro pair hpair
    exact ⟨hmono _ (h.edgeEnds pair hpair).1, hmono _ (h.edgeEnds pair hpair).2⟩
  · intro pair hpair
    exact ⟨(h.liveEnds pair hpair).1, hmono _ (h.liveEnds pair hpair).2⟩

theorem derived_blank (title : String) (kind : NodeKind) (id : ℤ) :
    (Nodes.blank env p title kind id).encode.Derived env.tokens :=
  @NodeRow.derived_of_content _ _ none ⟨kind, rfl⟩ (by simp) rfl rfl rfl rfl

theorem GraphSound.materialize (h : s.GraphSound env.tokens) (p : String) (kind : NodeKind) :
    (s.materialize env p kind).GraphSound env.tokens := by
  unfold Store.materialize
  split
  · exact h
  · rename_i hfree
    exact h.addNode rfl ((Bool.not_eq_true _).mp hfree) (derived_blank "" kind _) ⟨rfl, rfl⟩

theorem hasNode_materialize (env : Env) (s : Store) (p : String) (kind : NodeKind) :
    (s.materialize env p kind).hasNode p = true := by
  unfold Store.materialize
  split
  · assumption
  · exact hasNode_iff.mpr ⟨_, List.mem_append_right _ List.mem_cons_self, rfl⟩

end Store

namespace Nodes

variable {tokens : Tokenizer} {env : Env} {s : Store} {p : String} {kind : NodeKind}

theorem insert_of_free (quiet : env.rivals = {}) {row : ℤ → NodeRow}
    (hfree : s.hasNode (row s.nodes.nextId).publicId = false) :
    insert env row s = .ok s.nodes.nextId { s with nodes := s.nodes.add row } := by
  unfold insert
  rw [Command.bind_of_ok (Command.get_eq s)]
  dsimp only
  rw [quiet]
  dsimp only [List.find?_nil]
  rw [if_neg (by simp [hfree])]
  rfl

theorem get_of_none (h : s.nodeRow? p = none) : get p s = .ok none s := by
  unfold get
  rewrite [Command.bind_of_ok (Command.get_eq s), h]
  rfl

theorem get_of_some {row : NodeRow} (h : s.nodeRow? p = some row) (hrow : row.Derived tokens) :
    get p s = .ok (some row.value) s := by
  have hdecode : decode row s = .ok row.value s := by
    unfold decode
    rewrite [hrow.decode]
    rfl
  unfold get
  rewrite [Command.bind_of_ok (Command.get_eq s), h]
  exact Command.bind_of_ok hdecode

/-- A node that is ensured is there, made where it was missing. -/
theorem ensure_eq (quiet : env.rivals = {}) (h : s.GraphSound env.tokens) (p : String)
    (kind : NodeKind) :
    ∃ row, (s.materialize env p kind).nodeRow? p = some row ∧
      ensure env p kind s = .ok row.value (s.materialize env p kind) := by
  simp only [ensure, ensureOn, Database.run_sound]
  cases hrow : s.nodeRow? p with
  | some row =>
    have hmem := h.nodeRow?_eq_some.mp hrow
    have hhas : s.hasNode p = true := Store.hasNode_iff.mpr ⟨row, hmem⟩
    have hsame : s.materialize env p kind = s := if_pos hhas
    refine ⟨row, by rw [hsame, hrow], ?_⟩
    rw [Command.bind_of_ok (get_of_some hrow (h.derived row hmem.1)), hsame]
    rfl
  | none =>
    have hfree := Store.nodeRow?_eq_none.mp hrow
    have hnew : s.materialize env p kind =
        { s with nodes := s.nodes.add fun id => (blank env p "" kind id).encode } :=
      if_neg (by simp [hfree])
    have hcreate : createOn .sound env p "" kind s =
        .ok (blank env p "" kind s.nodes.nextId) (s.materialize env p kind) := by
      rw [hnew]
      unfold createOn
      rw [Database.run_sound]
      rw [Command.bind_of_ok (insert_of_free quiet hfree)]
      rfl
    refine ⟨(blank env p "" kind s.nodes.nextId).encode, ?_, ?_⟩
    · refine (h.materialize p kind).nodeRow?_eq_some.mpr ⟨?_, rfl⟩
      rw [hnew]
      exact List.mem_append_right _ List.mem_cons_self
    · rw [Command.bind_of_ok (get_of_none hrow)]
      dsimp only
      rw [Command.ifTaken_of_ok hcreate]
      have hkind : (blank env p "" kind s.nodes.nextId).encode.kindValue = kind := by
        have hname : (blank env p "" kind s.nodes.nextId).encode.kind = kind.name := rfl
        unfold NodeRow.kindValue
        rw [hname, NodeKind.ofName_name]
      unfold NodeRow.value
      rw [hkind]
      rfl

/-- The row that saving a node writes in place of another. -/
def savedRow (env : Env) (node : Node) (row : NodeRow) : NodeRow :=
  { ({ node.refresh env.tokens with updatedAt := env.now } : Node).encode with
    publicId := row.publicId, createdAt := row.createdAt }

theorem save_of_sound {node : Node} (hrefs : s.isSoundReference node.editorDocument = true ∧
    s.isSoundReference node.graphDocument = true) :
    save env node s = .ok { node.refresh env.tokens with updatedAt := env.now }
      (s.updateNode node.id (savedRow env node)) := by
  unfold save
  rw [Command.bind_of_ok (Command.get_eq s)]
  have hsound : ¬(s.hasNodeId (node.refresh env.tokens).id &&
      !(s.isSoundReference (node.refresh env.tokens).editorDocument &&
        s.isSoundReference (node.refresh env.tokens).graphDocument)) = true := by
    show ¬(s.hasNodeId node.id &&
      !(s.isSoundReference node.editorDocument && s.isSoundReference node.graphDocument)) = true
    rw [hrefs.1, hrefs.2]
    simp
  dsimp only
  rw [if_neg hsound]
  rfl

/-- Saving the node of a row changes that row alone. -/
theorem save_value (env : Env) (h : s.GraphSound tokens) {row : NodeRow}
    (hrow : row ∈ s.nodes.rows) (node : Node) (hid : node.id = row.id)
    (hrefs : s.isSoundReference node.editorDocument = true ∧
      s.isSoundReference node.graphDocument = true) :
    save env node s = .ok { node.refresh env.tokens with updatedAt := env.now }
      (s.changeNode row.publicId (savedRow env node)) := by
  rw [save_of_sound hrefs, hid, Store.updateNode_eq_changeNode h hrow]

/-- Saving any node whose content can be held leaves a derived row. -/
theorem derived_savedRow {node : Node} (hsound : ∀ v ∈ node.content, v.Sound) (row : NodeRow) :
    (savedRow env node row).Derived env.tokens :=
  NodeRow.derived_of_content ⟨node.kind, rfl⟩ hsound rfl rfl rfl rfl

/-! ### Commands of users -/

/-- Saving a node that may be any writes its row if its references lead somewhere. -/
theorem save_outcome (env : Env) (s : Store) (node : Node) :
    ((save env node).outcome s).2 = s ∨
      (s.isSoundReference node.editorDocument = true ∧
        s.isSoundReference node.graphDocument = true) ∧
      ((save env node).outcome s).2 = s.updateNode node.id (savedRow env node) := by
  by_cases hrefs : s.isSoundReference node.editorDocument = true ∧
      s.isSoundReference node.graphDocument = true
  · exact Or.inr ⟨hrefs, Command.outcome_of_ok (save_of_sound hrefs)⟩
  · left
    unfold save
    rw [Command.outcome_bind (Command.get_eq s)]
    dsimp only
    split
    · rfl
    · rename_i hnot
      have habsent : ∀ row ∈ s.nodes.rows, row.id ≠ node.id := by
        intro row hrow heq
        have hhas : s.hasNodeId node.id = true := Store.hasNodeId_iff.mpr ⟨row, hrow, heq⟩
        apply hnot
        show (s.hasNodeId node.id && !(s.isSoundReference node.editorDocument &&
          s.isSoundReference node.graphDocument)) = true
        rw [← Bool.and_eq_true, Bool.not_eq_true] at hrefs
        rw [hhas, hrefs]
        rfl
      show s.updateNode node.id (savedRow env node) = s
      rw [Store.updateNode_eq_mapNodes]
      exact Store.mapNodes_self fun row hrow => if_neg (habsent row hrow)

theorem save_sound (h : s.Sound env.tokens) {node : Node} (hcontent : ∀ v ∈ node.content, v.Sound) :
    ((save env node).outcome s).2.Sound env.tokens := by
  rcases save_outcome env s node with hsame | ⟨hrefs, hsaved⟩
  · rw [hsame]
    exact h
  · rw [hsaved]
    refine h.withGraph ?_ rfl rfl rfl
    rw [Store.updateNode_eq_mapNodes]
    apply h.toGraphSound.mapNodes
    · intro row hrow
      split
      · rename_i heq
        exact heq.symm
      · rfl
    · intro row hrow
      split <;> rfl
    · intro row hrow
      split
      · exact derived_savedRow hcontent row
      · exact h.derived row hrow
    · intro row hrow
      split
      · exact hrefs
      · exact h.references row hrow

theorem setTitle_eq (env : Env) (p title : String) :
    setTitle env p title = Command.transaction (do
      match ← get p with
      | none => throw (.missingNode p)
      | some node => save env { node with title }) :=
  Database.transaction_sound _

/-- Only a node that is there takes a title. -/
theorem setTitle_of_none (h : s.nodeRow? p = none) (title : String) :
    setTitle env p title s = .error (.missingNode p) s := by
  rw [setTitle_eq]
  apply Command.transaction_of_error
  exact Command.bind_of_ok (get_of_none h)

/-- A new title is saved with the node of a row. -/
theorem setTitle_of_some (h : s.GraphSound tokens) {row : NodeRow} (hrow : s.nodeRow? p = some row)
    (title : String) : setTitle env p title s =
      .ok { ({ row.value with title } : Node).refresh env.tokens with updatedAt := env.now }
        (s.changeNode p (savedRow env { row.value with title })) := by
  obtain ⟨hmem, rfl⟩ := h.nodeRow?_eq_some.mp hrow
  rw [setTitle_eq]
  apply Command.transaction_of_ok
  rw [Command.bind_of_ok (get_of_some hrow (h.derived row hmem))]
  exact save_value env h hmem { row.value with title } rfl (h.references row hmem)

theorem setRemoved_of_none (h : s.hasNode p = false) (removed : Bool) :
    setRemoved env removed p s = .error (.missingNode p) s := by
  unfold setRemoved setRemovedOn
  rw [Database.run_sound]
  rw [Command.bind_of_ok (Command.get_eq s), h]
  rfl

theorem setRemoved_of_some (h : s.hasNode p = true) (removed : Bool) :
    setRemoved env removed p s =
      .ok ⟨⟩ (s.changeNode p fun row => { row with removed, updatedAt := env.now }) := by
  unfold setRemoved setRemovedOn
  rw [Database.run_sound]
  rw [Command.bind_of_ok (Command.get_eq s), h]
  show EStateM.Result.ok PUnit.unit { s with nodes := s.nodes.update _ _ } = _
  unfold Table.update Store.changeNode Store.mapNodes
  simp only [decide_eq_true_eq]

/-- A node that is saved with another title. -/
theorem edited_titled (env : Env) (h : s.GraphSound env.tokens) {row : NodeRow}
    (hrow : s.nodeRow? p = some row) (title : String) :
    s.Edited env.tokens (s.changeNode p (savedRow env { row.value with title })) := by
  refine ⟨p, _, fun other hother hkey => ?_, rfl⟩
  obtain rfl := Option.some.inj (hrow.symm.trans (h.nodeRow?_eq_some.mpr ⟨hother, hkey⟩))
  exact ⟨rfl, rfl, derived_savedRow (h.derived row hother).sound row, rfl, rfl⟩

/-- A node that is marked as removed, or no longer. -/
theorem edited_marked (env : Env) (h : s.GraphSound tokens) (removed : Bool) (p : String) :
    s.Edited tokens (s.changeNode p fun row => { row with removed, updatedAt := env.now }) := by
  refine ⟨p, _, fun row hrow _ => ?_, rfl⟩
  have hderived := h.derived row hrow
  exact ⟨rfl, rfl, ⟨hderived.kind, hderived.content, hderived.text, hderived.textTokens,
    hderived.titleTokens⟩, rfl, rfl⟩

theorem setTitle_edited (env : Env) (h : s.GraphSound env.tokens) (p title : String) :
    s.Edited env.tokens ((setTitle env p title).outcome s).2 := by
  cases hrow : s.nodeRow? p with
  | none =>
    rw [Command.outcome_of_error (setTitle_of_none hrow title)]
    exact .refl h
  | some row =>
    rw [Command.outcome_of_ok (setTitle_of_some h hrow title)]
    exact edited_titled env h hrow title

theorem setRemoved_edited (env : Env) (h : s.GraphSound tokens) (removed : Bool) (p : String) :
    s.Edited tokens ((setRemoved env removed p).outcome s).2 := by
  cases hnode : s.hasNode p with
  | false =>
    rw [Command.outcome_of_error (setRemoved_of_none hnode removed)]
    exact .refl h
  | true =>
    rw [Command.outcome_of_ok (setRemoved_of_some hnode removed)]
    exact edited_marked env h removed p

end Nodes
end NodeGraph
