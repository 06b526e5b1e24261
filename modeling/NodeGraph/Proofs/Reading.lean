import NodeGraph.Proofs.Reconcile.Effects

/-!
What queries of a sound store answer: every node can be read, and the nodes of a space and below
a node are the members and the children.
-/
namespace NodeGraph

open Store

variable {tokens : Tokenizer} {s : Store} {p : String}

theorem mapM_decode {rows : List NodeRow} (h : ∀ row ∈ rows, row.Derived tokens) :
    rows.mapM Nodes.decode s = .ok (rows.map NodeRow.value) s := by
  induction rows with
  | nil => rfl
  | cons row rest ih =>
    have hrow : Nodes.decode row s = .ok row.value s := by
      unfold Nodes.decode
      rw [(h row List.mem_cons_self).decode]
      rfl
    rw [List.mapM_cons, Command.bind_of_ok hrow,
      Command.bind_of_ok (ih fun other hother => h other (List.mem_cons_of_mem _ hother))]
    rfl

theorem mem_nodesOf {ids : List ℤ} {row : NodeRow} :
    row ∈ s.nodesOf ids ↔ row ∈ s.nodes.rows ∧ row.id ∈ ids := by
  unfold nodesOf
  rw [(List.mergeSort_perm _ _).mem_iff, List.mem_filter, decide_eq_true_eq]

theorem mapM_nodesOf (h : s.GraphSound tokens) (ids : List ℤ) :
    (s.nodesOf ids).mapM Nodes.decode s = .ok ((s.nodesOf ids).map NodeRow.value) s :=
  mapM_decode fun row hrow => h.derived row (mem_nodesOf.mp hrow).1

/-- The nodes of a space are its members. -/
theorem nodes_eq_ok (h : s.GraphSound tokens) {space : Space} (hspace : s.space? p = some space) :
    ∃ nodes, Spaces.nodes p s = .ok nodes s ∧
      ∀ q, q ∈ nodes.map (·.publicId) ↔ s.IsMember p q := by
  refine ⟨(s.nodesOf ((s.live.filter (·.1 = space.id)).map (·.2))).map NodeRow.value, ?_,
    fun q => ?_⟩
  · unfold Spaces.nodes Spaces.related
    rw [Command.bind_of_ok (Command.get_eq s), hspace]
    exact mapM_nodesOf h _
  · rw [List.map_map, List.mem_map]
    obtain ⟨hmem, hkey⟩ := h.space?_eq_some.mp hspace
    constructor
    · rintro ⟨row, hrow, rfl⟩
      obtain ⟨hthere, hid⟩ := mem_nodesOf.mp hrow
      obtain ⟨pair, hpair, hsecond⟩ := List.mem_map.mp hid
      obtain ⟨hlive, hfirst⟩ := List.mem_filter.mp hpair
      refine ⟨space, hmem, hkey, row, hthere, rfl, ?_⟩
      rw [← of_decide_eq_true hfirst, ← hsecond]
      exact hlive
    · rintro ⟨other, hother, hokey, row, hrow, rfl, hpair⟩
      obtain rfl : other = space :=
        List.inj_on_of_nodup_map h.spaceKeys hother hmem (hokey.trans hkey.symm)
      refine ⟨row, mem_nodesOf.mpr ⟨hrow, List.mem_map.mpr ⟨(other.id, row.id), ?_, rfl⟩⟩, rfl⟩
      exact List.mem_filter.mpr ⟨hpair, decide_eq_true rfl⟩

/-- The nodes below a node are its children. -/
theorem below_eq_ok (h : s.GraphSound tokens) {row : NodeRow} (hrow : s.nodeRow? p = some row) :
    ∃ nodes, Nodes.below p s = .ok nodes s ∧
      ∀ q, q ∈ nodes.map (·.publicId) ↔ s.IsChild p q := by
  refine ⟨(s.nodesOf ((s.edges.filter (·.1 = row.id)).map (·.2))).map NodeRow.value, ?_,
    fun q => ?_⟩
  · unfold Nodes.below
    rw [Command.bind_of_ok (Command.get_eq s), hrow]
    exact mapM_nodesOf h _
  · rw [List.map_map, List.mem_map]
    obtain ⟨hmem, hkey⟩ := h.nodeRow?_eq_some.mp hrow
    constructor
    · rintro ⟨child, hchild, rfl⟩
      obtain ⟨hthere, hid⟩ := mem_nodesOf.mp hchild
      obtain ⟨pair, hpair, hsecond⟩ := List.mem_map.mp hid
      obtain ⟨hedge, hfirst⟩ := List.mem_filter.mp hpair
      refine ⟨row, hmem, hkey, child, hthere, rfl, ?_⟩
      rw [← of_decide_eq_true hfirst, ← hsecond]
      exact hedge
    · rintro ⟨other, hother, hokey, child, hchild, rfl, hedge⟩
      obtain rfl : other = row :=
        List.inj_on_of_nodup_map h.nodeKeys hother hmem (hokey.trans hkey.symm)
      refine ⟨child, mem_nodesOf.mpr ⟨hchild, List.mem_map.mpr ⟨(other.id, child.id), ?_, rfl⟩⟩,
        rfl⟩
      exact List.mem_filter.mpr ⟨hedge, decide_eq_true rfl⟩

theorem get_document {type : DocumentType} {row : DocumentRow} {document : Document}
    (hrow : s.document? p type.name = some row) (hdocument : row.decode = .ok document) :
    Documents.get p type s = .ok (some document) s := by
  unfold Documents.get
  rw [Command.bind_of_ok (Command.get_eq s), hrow]
  dsimp only
  rw [hdocument]
  rfl

end NodeGraph
