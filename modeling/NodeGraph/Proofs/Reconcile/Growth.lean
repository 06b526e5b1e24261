import NodeGraph.Proofs.Reconcile.Plans

/-!
A graph only grows: whatever plan is carried out, nodes keep their ids, edges stay, and what was
read of a node before is read of it after, but for the content and documents that the plan is
about.
-/
namespace NodeGraph

namespace NodeRow

/-- The same node, its content perhaps written anew. -/
structure Kept (old row : NodeRow) : Prop where
  id : row.id = old.id
  publicId : row.publicId = old.publicId
  content : ∃ k : ℕ, row.contentValue = old.contentValue.map (Json.reread^[k])
  editorDocument : row.editorDocument = old.editorDocument

/-- A node without content that has no other editor document than its own. -/
structure Fresh (s : Store) (row : NodeRow) : Prop where
  content : row.contentValue = none
  editorDocument : ∀ id ∈ row.editorDocument, s.documentId? row.publicId .editor = some id

theorem Kept.refl (row : NodeRow) : Kept row row :=
  ⟨rfl, rfl, ⟨0, by simp⟩, rfl⟩

theorem Kept.trans {a b c : NodeRow} (h : Kept a b) (h' : Kept b c) : Kept a c := by
  obtain ⟨k, hk⟩ := h.content
  obtain ⟨k', hk'⟩ := h'.content
  refine ⟨h'.id.trans h.id, h'.publicId.trans h.publicId, ⟨k' + k, ?_⟩,
    h'.editorDocument.trans h.editorDocument⟩
  rw [hk', hk, Option.map_map, Function.iterate_add]

theorem contentValue_of_content {row : NodeRow} {content : Option Json}
    (hsound : ∀ v ∈ content, v.Sound) (h : row.content = content.map Json.compact) :
    row.contentValue = content.map Json.reread := by
  unfold contentValue
  rw [h, decodePayload_compact hsound]

end NodeRow

namespace Store

variable {tokens : Tokenizer} {env : Env} {s t u : Store} {p : String}

/-- The nodes, spaces and edges of `s` are those of `t` still. -/
structure Extends (s t : Store) : Prop where
  nodes : ∀ old ∈ s.nodes.rows, ∃ row ∈ t.nodes.rows, row.id = old.id ∧ row.publicId = old.publicId
  spaces : ∀ old ∈ s.spaces.rows, ∃ row ∈ t.spaces.rows, row.id = old.id ∧
    row.publicId = old.publicId
  edges : ∀ pair ∈ s.edges, pair ∈ t.edges

/-- What is a node of `t` and not of `s` is a new one. -/
structure Grows (s t : Store) : Prop extends Extends s t where
  rows : ∀ row ∈ t.nodes.rows, (∃ old ∈ s.nodes.rows, NodeRow.Kept old row) ∨
    s.hasNode row.publicId = false ∧ NodeRow.Fresh s row
  documents : t.documents = s.documents

theorem Extends.refl (s : Store) : Extends s s :=
  ⟨fun row hrow => ⟨row, hrow, rfl, rfl⟩, fun row hrow => ⟨row, hrow, rfl, rfl⟩,
    fun _ hpair => hpair⟩

theorem Extends.trans (h : Extends s t) (h' : Extends t u) : Extends s u := by
  refine ⟨?_, ?_, fun pair hpair => h'.edges pair (h.edges pair hpair)⟩
  · intro old hold
    obtain ⟨row, hrow, hid, hkey⟩ := h.nodes old hold
    obtain ⟨row', hrow', hid', hkey'⟩ := h'.nodes row hrow
    exact ⟨row', hrow', hid'.trans hid, hkey'.trans hkey⟩
  · intro old hold
    obtain ⟨row, hrow, hid, hkey⟩ := h.spaces old hold
    obtain ⟨row', hrow', hid', hkey'⟩ := h'.spaces row hrow
    exact ⟨row', hrow', hid'.trans hid, hkey'.trans hkey⟩

theorem Extends.hasNode (h : Extends s t) (hnode : s.hasNode p = true) : t.hasNode p = true := by
  obtain ⟨old, hold, rfl⟩ := hasNode_iff.mp hnode
  obtain ⟨row, hrow, -, hkey⟩ := h.nodes old hold
  exact hasNode_iff.mpr ⟨row, hrow, hkey⟩

theorem Grows.refl (s : Store) : Grows s s :=
  ⟨.refl s, fun row hrow => Or.inl ⟨row, hrow, .refl row⟩, rfl⟩

theorem Grows.trans (h : Grows s t) (h' : Grows t u) : Grows s u := by
  refine ⟨h.toExtends.trans h'.toExtends, ?_, h'.documents.trans h.documents⟩
  · intro row hrow
    rcases h'.rows row hrow with ⟨middle, hmiddle, hkept⟩ | ⟨hfree, hfresh⟩
    · rcases h.rows middle hmiddle with ⟨old, hold, hkept'⟩ | ⟨hfree, hfresh⟩
      · exact Or.inl ⟨old, hold, hkept'.trans hkept⟩
      · right
        obtain ⟨k, hk⟩ := hkept.content
        rw [← hkept.publicId] at hfree
        refine ⟨hfree, by rw [hk, hfresh.content]; rfl, fun id hid => ?_⟩
        rw [hkept.publicId]
        exact hfresh.editorDocument id (hkept.editorDocument ▸ hid)
    · right
      refine ⟨?_, hfresh.content, fun id hid => ?_⟩
      · cases hnode : s.hasNode row.publicId with
        | false => rfl
        | true => exact absurd (hfree.symm.trans (h.hasNode hnode)) (by simp)
      · rw [← Reconcile.documentId?_of_documents h.documents]
        exact hfresh.editorDocument id hid

/-- What is written beside nodes, edges, spaces and documents does not matter. -/
theorem Grows.congr (h : Grows s t) (hnodes : u.nodes = t.nodes) (hedges : u.edges = t.edges)
    (hspaces : u.spaces = t.spaces) (hdocuments : u.documents = t.documents) : Grows s u := by
  obtain ⟨⟨h1, h2, h3⟩, h4, h5⟩ := h
  rw [← hnodes] at h1 h4
  rw [← hspaces] at h2
  rw [← hedges] at h3
  exact ⟨⟨h1, h2, h3⟩, h4, hdocuments.trans h5⟩

/-! ### Steps -/

theorem extends_mapNodes {f : NodeRow → NodeRow}
    (hf : ∀ row ∈ s.nodes.rows, (f row).id = row.id ∧ (f row).publicId = row.publicId) :
    Extends s (s.mapNodes f) :=
  ⟨fun old hold => ⟨f old, List.mem_map_of_mem hold, hf old hold⟩,
    fun row hrow => ⟨row, hrow, rfl, rfl⟩, fun _ hpair => hpair⟩

theorem grows_mapNodes {f : NodeRow → NodeRow}
    (hf : ∀ row ∈ s.nodes.rows, NodeRow.Kept row (f row)) : Grows s (s.mapNodes f) := by
  refine ⟨extends_mapNodes fun row hrow => ⟨(hf row hrow).id, (hf row hrow).publicId⟩, ?_, rfl⟩
  intro row hrow
  obtain ⟨old, hold, rfl⟩ := List.mem_map.mp hrow
  exact Or.inl ⟨old, hold, hf old hold⟩

theorem grows_changeNode {f : NodeRow → NodeRow}
    (hf : ∀ row ∈ s.nodes.rows, row.publicId = p → NodeRow.Kept row (f row)) :
    Grows s (s.changeNode p f) := by
  refine grows_mapNodes fun row hrow => ?_
  split
  · rename_i hkey
    exact hf row hrow hkey
  · exact .refl row

theorem grows_addNode {row : ℤ → NodeRow} (hfree : s.hasNode (row s.nodes.nextId).publicId = false)
    (hfresh : NodeRow.Fresh s (row s.nodes.nextId)) :
    Grows s { s with nodes := s.nodes.add row } := by
  refine ⟨⟨?_, fun row hrow => ⟨row, hrow, rfl, rfl⟩, fun _ hpair => hpair⟩, ?_, rfl⟩
  · intro old hold
    exact ⟨old, List.mem_append_left _ hold, rfl, rfl⟩
  · intro r hr
    rcases List.mem_append.mp hr with hold | hnew
    · exact Or.inl ⟨r, hold, .refl r⟩
    · rw [List.mem_singleton.mp hnew]
      exact Or.inr ⟨hfree, hfresh⟩

theorem grows_materialize (env : Env) (s : Store) (p : String) (kind : NodeKind) :
    Grows s (s.materialize env p kind) := by
  unfold materialize
  split
  · exact .refl s
  · rename_i hfree
    refine grows_addNode ((Bool.not_eq_true _).mp hfree) ⟨rfl, ?_⟩
    intro id hid
    exact nomatch hid

end Store

namespace Reconcile

open Store

variable {env : Env} {s : Store} {p : String}

/-! ### Children -/

theorem kept_documented {row : NodeRow} (h : row.Derived env.tokens) (id : ℤ) :
    NodeRow.Kept row (documented env id row) := by
  unfold documented
  split
  · exact ⟨rfl, rfl, ⟨1, NodeRow.contentValue_of_content h.sound rfl⟩, rfl⟩
  · exact .refl row

theorem grows_withGraphDocument (h : s.GraphSound env.tokens) (p : String) (type : DocumentType) :
    Grows s (withGraphDocument env p type s) := by
  unfold withGraphDocument
  split
  · exact .refl s
  · exact grows_changeNode fun row hrow _ => kept_documented (h.derived row hrow) _

theorem mem_addPair {pair other : ℤ × ℤ} {pairs : List (ℤ × ℤ)} :
    other ∈ addPair pair pairs ↔ other = pair ∨ other ∈ pairs := by
  unfold addPair
  split
  · rename_i hmem
    constructor
    · exact Or.inr
    · rintro (rfl | h)
      · exact hmem
      · exact h
  · rw [List.mem_append, List.mem_singleton, or_comm]

theorem grows_withEdge (s : Store) (p child : String) : Grows s (withEdge p child s) := by
  unfold withEdge
  split
  · exact ⟨⟨fun row hrow => ⟨row, hrow, rfl, rfl⟩, fun row hrow => ⟨row, hrow, rfl, rfl⟩,
      fun _ hpair => mem_addPair.mpr (Or.inr hpair)⟩,
      fun row hrow => Or.inl ⟨row, hrow, .refl row⟩, rfl⟩
  · exact .refl s

theorem grows_withChild (env : Env) (p : String) (s : Store) (child : String) :
    Grows s (withChild env p s child) := by
  unfold withChild
  split
  · exact .refl s
  · exact (grows_materialize env s child .default).trans (grows_withEdge _ p child)

theorem grows_foldl_withChild (env : Env) (p : String) (s : Store) (children : List String) :
    Grows s (children.foldl (withChild env p) s) := by
  induction children generalizing s with
  | nil => exact .refl s
  | cons child rest ih => exact (grows_withChild env p s child).trans (ih _)

theorem grows_withChildren (h : s.GraphSound env.tokens) (p : String) (type : DocumentType)
    (kind : NodeKind) (children : List String) :
    Grows s (withChildren env p type kind children s) := by
  have hmade := grows_materialize env s p kind
  have hdocument := grows_withGraphDocument (h.materialize p kind) p type
  exact (hmade.trans hdocument).trans (grows_foldl_withChild env p _ children)

/-! ### Members -/

theorem kept_titled (env : Env) (titles : Keyed String) (row : NodeRow) :
    NodeRow.Kept row (titled env titles row) := by
  unfold titled
  split
  · split
    · exact .refl row
    · exact ⟨rfl, rfl, ⟨0, by simp [NodeRow.contentValue, NodeRow.retitled]⟩, rfl⟩
  · exact .refl row

theorem grows_withMember {entry : String × String} (hfree : s.hasNode entry.1 = false) :
    Grows s (withMember env s entry) := by
  refine grows_addNode hfree ⟨rfl, fun id hid => ?_⟩
  exact hid

theorem grows_foldl_withMember {missing : Keyed String} (hkeys : missing.keys.Nodup)
    (hfree : ∀ entry ∈ missing, s.hasNode entry.1 = false) :
    Grows s (missing.foldl (withMember env) s) := by
  induction missing generalizing s with
  | nil => exact .refl s
  | cons entry rest ih =>
    obtain ⟨hentry, hrest⟩ := List.nodup_cons.mp hkeys
    refine (grows_withMember (hfree entry List.mem_cons_self)).trans (ih hrest ?_)
    intro other hother
    exact hasNode_withMember (fun heq => hentry (List.mem_map.mpr ⟨other, hother, heq⟩))
      (hfree other (List.mem_cons_of_mem _ hother))

theorem grows_withTitles {titles : Keyed String} (hkeys : titles.keys.Nodup) :
    Grows s (withTitles env titles s) := by
  have htitled : Grows s (s.mapNodes (titled env titles)) :=
    grows_mapNodes fun row _ => kept_titled env titles row
  refine htitled.trans (grows_foldl_withMember (hkeys.sublist (List.filter_sublist.map _)) ?_)
  intro entry hentry
  rw [hasNode_mapTitled]
  exact not_hasNode_of_missing entry hentry

theorem grows_withDocument (env : Env) (s : Store) (space : Space) :
    Grows s (Spaces.withDocument env space s).2.2 := by
  have hpairs := map_spaces_withDocument env s space
    (fun row => (row.id, row.publicId)) fun _ _ => rfl
  rw [withDocument_frame]
  refine ⟨⟨fun row hrow => ⟨row, hrow, rfl, rfl⟩, ?_, fun _ hpair => hpair⟩,
    fun row hrow => Or.inl ⟨row, hrow, .refl row⟩, rfl⟩
  intro old hold
  have hmem : (old.id, old.publicId) ∈ s.spaces.rows.map fun row => (row.id, row.publicId) :=
    List.mem_map_of_mem hold
  rw [← hpairs] at hmem
  obtain ⟨row, hrow, heq⟩ := List.mem_map.mp hmem
  exact ⟨row, hrow, congrArg Prod.fst heq, congrArg Prod.snd heq⟩

theorem grows_withMembers (env : Env) (s : Store) (space : Space) {titles : Keyed String}
    (hkeys : titles.keys.Nodup) : Grows s (withMembers env space titles s) := by
  have hdocument := grows_withDocument env s space
  have htitles : Grows (Spaces.withDocument env space s).2.2
      (withTitles env titles (Spaces.withDocument env space s).2.2) := grows_withTitles hkeys
  exact (hdocument.trans htitles).congr rfl rfl rfl rfl

end Reconcile
end NodeGraph
