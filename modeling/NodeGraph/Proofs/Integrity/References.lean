import NodeGraph.Proofs.Integrity.Changes
import NodeGraph.Proofs.Reconcile.Facts

/-!
References to documents. What refers to a document refers to one that is there, of the same public
id and of a type that the reference may have, also when documents are deleted and written again.
-/
namespace NodeGraph

namespace Store

variable {tokens : Tokenizer} {s t : Store} {id : ℤ} {p : String}

/-- There is a document of that id, public id and type. -/
def IsDocument (s : Store) (id : ℤ) (p type : String) : Prop :=
  ∃ row ∈ s.documents.rows, row.id = id ∧ row.publicId = p ∧ row.type = type

theorem isDocument_of_documentId? {type : DocumentType} (h : s.documentId? p type = some id) :
    s.IsDocument id p type.name := by
  obtain ⟨row, hrow, rfl⟩ := Option.map_eq_some_iff.mp h
  exact ⟨row, List.mem_of_find?_eq_some hrow, rfl, key_of_document? hrow⟩

theorem IsDocument.congr {type : String} (h : s.IsDocument id p type)
    (hdocuments : t.documents = s.documents) : t.IsDocument id p type := by
  unfold IsDocument
  rw [hdocuments]
  exact h

/-- Writing a document keeps id, public id and type of those that were there. -/
theorem IsDocument.upserted {type : String} (h : s.IsDocument id p type)
    (hids : s.documents.Numbered (·.id)) (env : Env) (q : String) (written : DocumentType)
    (data : List UInt8) (json : Option Json) :
    (s.upserted env q written data json).IsDocument id p type := by
  obtain ⟨row, hrow, rfl, rfl, rfl⟩ := h
  unfold Store.upserted
  split
  · exact ⟨row, List.mem_append_left _ hrow, rfl, rfl, rfl⟩
  · rename_i old hold
    have hmem : old ∈ s.documents.rows := List.mem_of_find?_eq_some hold
    refine ⟨_, List.mem_map_of_mem hrow, ?_⟩
    split
    · rename_i heq
      obtain rfl := hids.eq_of_id_eq hrow hmem (of_decide_eq_true heq)
      exact ⟨rfl, rfl, rfl⟩
    · exact ⟨rfl, rfl, rfl⟩

theorem IsDocument.deleteDocument {type : String} (h : s.IsDocument id p type) (clock : ℤ)
    {row : DocumentRow} (hne : id ≠ row.id) :
    (s.deleteDocument clock row).IsDocument id p type := by
  obtain ⟨other, hother, rfl, rfl, rfl⟩ := h
  exact ⟨other, List.mem_filter.mpr ⟨hother, decide_eq_true hne⟩, rfl, rfl, rfl⟩

end Store

open Store

variable {tokens : Tokenizer} {s t : Store} {q : String}

/-! ### Nodes -/

/-- The documents that a node refers to are of its public id. -/
structure NodeFacts.Refers (s : Store) (q : String) (facts : NodeFacts) : Prop where
  editor : ∀ id ∈ facts.editorDocument, s.IsDocument id q DocumentType.editor.name
  graph : ∀ id ∈ facts.graphDocument, s.IsDocument id q DocumentType.graph.name ∨
    s.IsDocument id q DocumentType.methodGraph.name

namespace NodeFacts

variable {facts : NodeFacts}

theorem Refers.mono (h : facts.Refers s q)
    (hdocuments : ∀ id type, s.IsDocument id q type → t.IsDocument id q type) :
    facts.Refers t q :=
  ⟨fun id hid => hdocuments id _ (h.editor id hid),
    fun id hid => (h.graph id hid).imp (hdocuments id _) (hdocuments id _)⟩

theorem refers_blank (s : Store) (q : String) (kind : NodeKind) : (blank kind).Refers s q :=
  ⟨fun _ hid => absurd hid (by simp [blank]), fun _ hid => absurd hid (by simp [blank])⟩

theorem Refers.attached (h : facts.Refers s q) : (facts.attached s.surroundings q).Refers s q := by
  constructor
  · intro id hid
    rcases Option.or_eq_some_iff.mp hid with hold | ⟨-, hnew⟩
    · exact h.editor id hold
    · exact isDocument_of_documentId? hnew
  · intro id hid
    rcases Option.or_eq_some_iff.mp hid with hold | ⟨-, hnew⟩
    · exact h.graph id hold
    · exact Or.inl (isDocument_of_documentId? hnew)

theorem Refers.documented (h : facts.Refers s q) {type : DocumentType}
    (htype : type = .graph ∨ type = .methodGraph) :
    (facts.documented s.surroundings q type).Refers s q := by
  unfold NodeFacts.documented
  split
  · exact h
  · rename_i id hid
    have hdocument := isDocument_of_documentId? hid
    split
    · refine ⟨h.editor, fun other hother => ?_⟩
      obtain rfl := Option.some.inj hother
      rcases htype with rfl | rfl
      · exact Or.inl hdocument
      · exact Or.inr hdocument
    · exact h

end NodeFacts

namespace Plan

theorem refers_seed (s : Store) (q : String) (plan : Plan) :
    (plan.seed s.surroundings q).Refers s q := by
  cases plan with
  | space p titles => exact (NodeFacts.refers_blank s q .default).attached
  | _ => exact NodeFacts.refers_blank s q _

theorem graph_or_methodGraph {type : DocumentType} (heditor : type ≠ .editor)
    (hspace : type ≠ .space) : type = .graph ∨ type = .methodGraph := by
  cases type with
  | editor => exact absurd rfl heditor
  | space => exact absurd rfl hspace
  | graph => exact Or.inl rfl
  | methodGraph => exact Or.inr rfl

theorem refers_attach (event : Event) {facts : NodeFacts} (h : facts.Refers s q) :
    ((ofEvent event).attach s.surroundings q facts).Refers s q := by
  have hasked := asked event
  generalize ofEvent event = plan at hasked
  cases hasked with
  | editor haction htype =>
    show (if q = event.publicId then facts.attached s.surroundings q else facts).Refers s q
    split
    · exact h.attached
    · exact h
  | graph haction heditor hspace =>
    show (if q = event.publicId then facts.documented s.surroundings q event.type
      else facts).Refers s q
    split
    · exact h.documented (graph_or_methodGraph heditor hspace)
    · exact h
  | _ => exact h

/-- What an event makes of a node refers to documents of its public id. -/
theorem refers_touch (event : Event) {facts : Option NodeFacts}
    (h : ∀ old ∈ facts, old.Refers s q) :
    ∀ new ∈ (ofEvent event).touch s.surroundings q facts, new.Refers s q := by
  intro new hnew
  unfold touch at hnew
  split at hnew
  · obtain rfl := Option.some.inj hnew
    have hstart : (facts.getD ((ofEvent event).seed s.surroundings q)).Refers s q := by
      cases facts with
      | none => exact refers_seed s q _
      | some old => exact h old rfl
    have hattached := refers_attach event hstart
    exact ⟨hattached.editor, hattached.graph⟩
  · exact h new hnew

theorem refers_give (plan : Plan) {row : Space}
    (h : ∀ id ∈ row.document, s.IsDocument id row.publicId DocumentType.space.name) :
    ∀ id ∈ (plan.give s.surroundings row.unrevised).document,
      s.IsDocument id (plan.give s.surroundings row.unrevised).publicId
        DocumentType.space.name := by
  intro id hid
  rcases give_cases s.surroundings plan row.unrevised with hkept | hgiven
  · rw [hkept] at hid ⊢
    exact h id hid
  · rw [hgiven] at hid ⊢
    rcases Option.or_eq_some_iff.mp hid with hold | ⟨-, hnew⟩
    · exact h id hold
    · exact isDocument_of_documentId? hnew

end Plan

/-! ### Stores -/

namespace Store

/-- Nodes, spaces and versions refer to documents of their own public ids. -/
structure Referred (s : Store) : Prop where
  nodes : ∀ row ∈ s.nodes.rows, row.facts.Refers s row.publicId
  spaces : ∀ space ∈ s.spaces.rows, ∀ id ∈ space.document,
    s.IsDocument id space.publicId DocumentType.space.name
  versions : ∀ version ∈ s.versions.rows,
    s.IsDocument version.documentId version.publicId version.type

theorem referred_empty : Referred {} where
  nodes := fun _ h => absurd h List.not_mem_nil
  spaces := fun _ h => absurd h List.not_mem_nil
  versions := fun _ h => absurd h List.not_mem_nil

/-- References may be kept where no document goes. -/
theorem Referred.mono (h : s.Referred) (hnodes : t.nodes = s.nodes) (hspaces : t.spaces = s.spaces)
    (hversions : t.versions = s.versions)
    (hdocuments : ∀ id p type, s.IsDocument id p type → t.IsDocument id p type) : t.Referred where
  nodes := by
    rw [hnodes]
    exact fun row hrow => (h.nodes row hrow).mono fun id => hdocuments id _
  spaces := by
    rw [hspaces]
    exact fun space hspace id hid => hdocuments id _ _ (h.spaces space hspace id hid)
  versions := by
    rw [hversions]
    exact fun version hversion => hdocuments _ _ _ (h.versions version hversion)

theorem Referred.congr (h : s.Referred) (hnodes : t.nodes = s.nodes) (hspaces : t.spaces = s.spaces)
    (hversions : t.versions = s.versions) (hdocuments : t.documents = s.documents) : t.Referred :=
  h.mono hnodes hspaces hversions fun _ _ _ hdocument => hdocument.congr hdocuments

theorem Referred.facts? (h : s.Referred) (q : String) : ∀ facts ∈ s.facts? q, facts.Refers s q := by
  intro facts hfacts
  obtain ⟨row, hrow, rfl⟩ := Option.map_eq_some_iff.mp hfacts
  obtain rfl := publicId_of_nodeRow? hrow
  exact h.nodes row (List.mem_of_find?_eq_some hrow)

/-- A reference that is cleared of a document does not lead to it. -/
theorem mem_cleared {ref : Option ℤ} {id other : ℤ}
    (h : id ∈ if ref = some other then none else ref) : id ∈ ref ∧ id ≠ other := by
  split at h
  · exact nomatch h
  · rename_i hne
    exact ⟨h, fun heq => hne (heq ▸ h)⟩

/-- A deleted document is referred to no more. -/
theorem referred_deleteDocument (h : s.Referred) (clock : ℤ) (row : DocumentRow) :
    (s.deleteDocument clock row).Referred := by
  obtain ⟨hnodes, hspaces⟩ := rows_deleteDocument clock s row
  refine ⟨?_, ?_, fun version hversion => ?_⟩
  · rw [hnodes]
    intro node' hnode'
    obtain ⟨node, hnode, rfl⟩ := List.mem_map.mp hnode'
    have hrefers := h.nodes node hnode
    constructor
    · intro id hid
      obtain ⟨hid, hne⟩ := mem_cleared hid
      exact (hrefers.editor id hid).deleteDocument clock hne
    · intro id hid
      obtain ⟨hid, hne⟩ := mem_cleared hid
      exact (hrefers.graph id hid).imp (·.deleteDocument clock hne) (·.deleteDocument clock hne)
  · rw [hspaces]
    intro space' hspace' id hid
    obtain ⟨space, hspace, rfl⟩ := List.mem_map.mp hspace'
    obtain ⟨hid, hne⟩ := mem_cleared hid
    exact (h.spaces space hspace id hid).deleteDocument clock hne
  · obtain ⟨hold, hkept⟩ := List.mem_filter.mp hversion
    exact (h.versions version hold).deleteDocument clock (of_decide_eq_true hkept)

/-- What an event makes of nodes and spaces refers to documents of their public ids. -/
theorem referred_carriedOut {env : Env} (quiet : env.rivals = {}) (h : s.GraphSound env.tokens)
    {event : Event} (hdata : ∀ v ∈ event.newData, v.Sound) (hreferred : s.Referred) :
    (Reconcile.carriedOut env (Plan.ofEvent event) s).Referred := by
  cases hobstacle : (Plan.ofEvent event).obstacle? s with
  | some fault =>
    rw [Reconcile.carriedOut_of_obstacle hobstacle]
    exact hreferred
  | none => ?_
  have hplan := Plan.sound_ofEvent hdata
  have hfits := Plan.fits_of_obstacle? hobstacle
  have hsame := Reconcile.sameRecords_carriedOut env s (Plan.ofEvent event)
  have hdocuments : ∀ {id p type}, s.IsDocument id p type →
      (Reconcile.carriedOut env (Plan.ofEvent event) s).IsDocument id p type :=
    fun hdocument => hdocument.congr hsame.documents
  refine ⟨fun row hrow => ?_, fun space hspace id hid => ?_, ?_⟩
  · have hfacts := Reconcile.facts?_carriedOut quiet h hplan hfits row.publicId
    unfold Store.facts? at hfacts
    rw [(Reconcile.carriedOut_sound quiet h hplan).nodeRow?_eq_some.mpr ⟨hrow, rfl⟩] at hfacts
    exact (Plan.refers_touch event (hreferred.facts? row.publicId) _ hfacts.symm).mono
      fun _ _ => hdocuments
  · have hspaces := congrArg Table.rows (Reconcile.spaces_carriedOut h hfits)
    have hmem : space.unrevised ∈ ((s.spaces.map Space.unrevised).map
        ((Plan.ofEvent event).give s.surroundings)).rows := hspaces ▸ List.mem_map_of_mem hspace
    obtain ⟨_, hplain, hgiven⟩ := List.mem_map.mp hmem
    obtain ⟨old, hold, rfl⟩ := List.mem_map.mp hplain
    have hrefers := Plan.refers_give (Plan.ofEvent event) (hreferred.spaces old hold)
    rw [hgiven] at hrefers
    exact hdocuments (hrefers id hid)
  · rw [hsame.versions]
    exact fun version hversion => hdocuments (hreferred.versions version hversion)

end Store

/-- Every change keeps references to documents sound. -/
theorem Change.referred (h : s.Sound tokens) (hchange : Change tokens s t)
    (hreferred : s.Referred) : t.Referred := by
  cases hchange with
  | version now hrow hash =>
    refine ⟨fun row hnode => (hreferred.nodes row hnode).mono fun _ _ => id, hreferred.spaces,
      fun version hversion => ?_⟩
    rcases List.mem_append.mp hversion with hold | hnew
    · exact hreferred.versions version hold
    · obtain rfl := List.mem_singleton.mp hnew
      exact ⟨_, hrow, rfl, rfl, rfl⟩
  | upsert clock p type data json =>
    obtain ⟨hnodes, -, hspaces, -, -, -⟩ := upserted_frame { clock, tokens } s p type data json
    obtain ⟨hversions, -⟩ := upserted_records { clock, tokens } s p type data json
    exact hreferred.mono hnodes hspaces hversions fun _ _ _ hdocument =>
      hdocument.upserted h.documentIds { clock, tokens } p type data json
  | delete clock row => exact referred_deleteDocument hreferred clock row
  | carry clock hdata =>
    let env : Env := { clock, tokens }
    have hgraph : s.GraphSound env.tokens := h.toGraphSound
    exact referred_carriedOut rfl hgraph hdata hreferred
  | create clock p title hfree hslug owner =>
    refine ⟨fun row hrow => (hreferred.nodes row hrow).mono fun _ _ => id,
      fun space hspace id hid => ?_, hreferred.versions⟩
    rcases List.mem_append.mp hspace with hold | hnew
    · exact hreferred.spaces space hold id hid
    · obtain rfl := List.mem_singleton.mp hnew
      exact nomatch hid
  | edit hedited =>
    obtain ⟨p, f, hf, rfl⟩ := hedited
    refine ⟨fun row' hrow' => ?_, hreferred.spaces, hreferred.versions⟩
    obtain ⟨row, hrow, rfl⟩ := List.mem_map.mp hrow'
    have hrefers := hreferred.nodes row hrow
    split
    · rename_i hkey
      obtain ⟨-, hpublicId, -, heditor, hgraph⟩ := hf row hrow hkey
      rw [hpublicId]
      exact ⟨fun id hid => hrefers.editor id (heditor.symm.trans hid),
        fun id hid => hrefers.graph id (hgraph.symm.trans hid)⟩
    · exact hrefers.mono fun _ _ => id
  | _ => exact hreferred.congr rfl rfl rfl rfl

end NodeGraph
