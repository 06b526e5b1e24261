import NodeGraph.Proofs.Events
import NodeGraph.Proofs.Reconcile.Effects

/-!
What the graph shows of a document: an event that carries the value of the document makes the
graph show it, and no event of another document undoes that.
-/
namespace NodeGraph

open Store

namespace Store

variable {tokens : Tokenizer} {s t : Store} {p : String} {id : ℤ}

/-- The graph shows the value of a document with that public id, row id and type. -/
def Shows (s : Store) (p : String) (id : ℤ) : DocumentType → Option Json → Prop
  | .editor, json =>
    ∃ row ∈ s.nodes.rows, row.publicId = p ∧
      row.contentValue = json.bind Reconcile.contentOf ∧ row.editorDocument = some id
  | .space, none => True
  | .space, some data =>
    s.space? p ≠ none ∧ ∀ q, s.IsMember p q ↔ q ∈ (Plan.titlesIn data).keys
  | _, json => ∀ child ∈ Plan.childrenIn json, child ≠ p → s.IsChild p child

/-- No node refers to another editor document than that of its public id. -/
def Owned (s : Store) : Prop :=
  ∀ row ∈ s.nodes.rows, ∀ id ∈ row.editorDocument, s.documentId? row.publicId .editor = some id

theorem Owned.congr (h : s.Owned) (hnodes : t.nodes = s.nodes)
    (hdocuments : t.documents = s.documents) : t.Owned := by
  intro row hrow id hid
  rw [Reconcile.documentId?_of_documents hdocuments]
  exact h row (hnodes ▸ hrow) id hid

theorem Owned.grows (h : s.Owned) (hgrows : Grows s t) : t.Owned := by
  intro row hrow id hid
  rw [Reconcile.documentId?_of_documents hgrows.documents]
  rcases hgrows.rows row hrow with ⟨old, hold, hkept⟩ | ⟨-, hfresh⟩
  · rw [hkept.publicId]
    exact h old hold id (hkept.editorDocument ▸ hid)
  · exact hfresh.editorDocument id hid

theorem shows_congr (hnodes : t.nodes = s.nodes) (hedges : t.edges = s.edges)
    (hspaces : t.spaces = s.spaces) (hlive : t.live = s.live) {type : DocumentType}
    {json : Option Json} (h : s.Shows p id type json) : t.Shows p id type json := by
  unfold Shows IsMember IsChild space? at *
  rw [hnodes, hedges, hspaces, hlive]
  exact h

theorem space?_ne_none_of_extends (ht : t.GraphSound tokens) (h : Extends s t)
    (hspace : s.space? p ≠ none) : t.space? p ≠ none := by
  obtain ⟨space, hspace⟩ := Option.ne_none_iff_exists'.mp hspace
  have hmem := List.mem_of_find?_eq_some hspace
  have hkey : space.publicId = p := by simpa using List.find?_some hspace
  obtain ⟨space', hspace', -, hkey'⟩ := h.spaces space hmem
  rw [ht.space?_eq_some.mpr ⟨hspace', hkey'.trans hkey⟩]
  simp

/-- What is shown stays if it does for nodes that have their content and for members. -/
theorem shows_of_extends (ht : t.GraphSound tokens) (h : Extends s t) {type : DocumentType}
    {json : Option Json}
    (heditor : type = .editor → s.Shows p id .editor json → t.Shows p id .editor json)
    (hmembers : type = .space → ∀ q, t.IsMember p q ↔ s.IsMember p q)
    (hshows : s.Shows p id type json) : t.Shows p id type json := by
  cases type with
  | editor => exact heditor rfl hshows
  | space =>
    cases json with
    | none => trivial
    | some data =>
      exact ⟨space?_ne_none_of_extends ht h hshows.1,
        fun q => (hmembers rfl q).trans (hshows.2 q)⟩
  | graph => exact fun child hchild hne => (hshows child hchild hne).mono h
  | methodGraph => exact fun child hchild hne => (hshows child hchild hne).mono h

/-- A row that was there is kept where a graph grows. -/
theorem Grows.kept (hs : s.GraphSound tokens) (h : Grows s t) {old : NodeRow}
    (hold : old ∈ s.nodes.rows) : ∃ row ∈ t.nodes.rows, NodeRow.Kept old row := by
  obtain ⟨row, hrow, -, hkey⟩ := h.nodes old hold
  rcases h.rows row hrow with ⟨other, hother, hkept⟩ | ⟨hfree, -⟩
  · obtain rfl := List.inj_on_of_nodup_map hs.nodeKeys hother hold
      (hkept.publicId.symm.trans hkey)
    exact ⟨row, hrow, hkept⟩
  · have hthere := hasNode_iff.mpr ⟨old, hold, hkey.symm⟩
    rw [hfree] at hthere
    exact absurd hthere (by simp)

end Store

namespace Reconcile

variable {env : Env} {s : Store} {p : String} {id : ℤ}

theorem iterate_reread_of_readsBack {v : Json} (h : v.Sound ∧ v.ReadsBack) (k : ℕ) :
    Json.reread^[k] v = v :=
  Function.iterate_fixed (Json.reread_of_readsBack h.1.fits h.2) k

theorem map_iterate_reread {json : Option Json} (h : ∀ v ∈ json, v.Sound ∧ v.ReadsBack) (k : ℕ) :
    (json.bind contentOf).map (Json.reread^[k]) = json.bind contentOf := by
  cases json with
  | none => rfl
  | some v =>
    cases hv : contentOf v with
    | none => simp [hv]
    | some w =>
      have hw : w = v := by cases v <;> simp_all [contentOf]
      rw [Option.bind_some, hv, Option.map_some, hw, iterate_reread_of_readsBack (h v rfl)]

/-- Where a graph grows and the members of a space stay, the graph shows what it showed. -/
theorem shows_of_grows {t : Store} (hs : s.GraphSound env.tokens) (ht : t.GraphSound env.tokens)
    (h : Grows s t) {type : DocumentType} {json : Option Json}
    (hmembers : type = .space → ∀ q, t.IsMember p q ↔ s.IsMember p q)
    (hjson : ∀ v ∈ json, v.Sound ∧ v.ReadsBack) (hshows : s.Shows p id type json) :
    t.Shows p id type json := by
  refine shows_of_extends ht h.toExtends (fun _ hnode => ?_) hmembers hshows
  obtain ⟨old, hold, hkey, hcontent, hdocument⟩ := hnode
  obtain ⟨row, hrow, hkept⟩ := h.kept hs hold
  obtain ⟨k, hk⟩ := hkept.content
  refine ⟨row, hrow, hkept.publicId.trans hkey, ?_, hkept.editorDocument.trans hdocument⟩
  rw [hk, hcontent, map_iterate_reread hjson]

theorem isMember_withContent (hs : s.GraphSound env.tokens) {content : Json} (hc : content.Sound)
    {other q : String} :
    (withContent env p content s).IsMember other q ↔ s.IsMember other q := by
  have hlive : (withContent env p content s).live = s.live := by
    show (s.materialize env p .default).live = s.live
    unfold Store.materialize
    split <;> rfl
  refine isMember_congr hs (withContent_sound hs hc) (extends_withContent env s p content) ?_
  intro space _ _ id
  rw [hlive]

theorem isMember_withChildren (hs : s.GraphSound env.tokens) (type : DocumentType)
    (kind : NodeKind) (children : List String) {other q : String} :
    (withChildren env p type kind children s).IsMember other q ↔ s.IsMember other q := by
  refine isMember_congr hs (withChildren_sound hs type kind children)
    (grows_withChildren hs p type kind children).toExtends ?_
  intro space _ _ id
  rw [(withChildren_frame p type kind children s).1]

/-- The content of another node leaves what is shown. -/
theorem shows_withContent {q : String} (hs : s.GraphSound env.tokens) {content : Json}
    (hc : content.Sound) {type : DocumentType} {json : Option Json}
    (hne : (q, DocumentType.editor) ≠ (p, type)) (hshows : s.Shows p id type json) :
    (withContent env q content s).Shows p id type json := by
  have hextends := extends_withContent env s q content
  refine shows_of_extends (withContent_sound hs hc) hextends (fun htype hnode => ?_)
    (fun _ m => isMember_withContent hs hc) hshows
  obtain ⟨old, hold, hkey, hcontent, hdocument⟩ := hnode
  have hpq : old.publicId ≠ q := by
    rintro rfl
    exact hne (by rw [hkey, htype])
  have hmade : old ∈ (s.materialize env q .default).nodes.rows := by
    unfold Store.materialize
    split
    · exact hold
    · exact List.mem_append_left _ hold
  exact ⟨old, List.mem_map.mpr ⟨old, hmade, if_neg hpq⟩, hkey, hcontent, hdocument⟩

theorem owned_withContent (h : s.Owned) {content : Json} : (withContent env p content s).Owned := by
  have hmade := h.grows (grows_materialize env s p .default)
  have hdocuments : (withContent env p content s).documents = s.documents := documents_materialize p _
  intro row hrow id hid
  rw [documentId?_of_documents hdocuments]
  rw [withContent, rows_changeNode] at hrow
  obtain ⟨old, hold, rfl⟩ := List.mem_map.mp hrow
  have hold' := hmade old hold
  rw [documentId?_of_documents (documents_materialize p .default)] at hold'
  split at hid
  · rename_i hkey
    rw [if_pos hkey]
    have hor : old.editorDocument.or (s.documentId? old.publicId .editor) = some id := hid
    cases hdocument : old.editorDocument with
    | none =>
      rw [hdocument] at hor
      exact hor
    | some other =>
      rw [hdocument] at hor
      exact hold' id (hdocument.trans hor)
  · rename_i hkey
    rw [if_neg hkey]
    exact hold' id hid

section Event

variable {event : Event} (h : s.GraphSound env.tokens)
  (hdata : ∀ v ∈ event.newData, v.Sound ∧ v.ReadsBack)
  (hspace : (Plan.ofEvent event).obstacle? s = none)

include h hdata hspace

/-- Once an event has been carried out, the graph shows the value it carries. -/
theorem shows_carriedOut (quiet : env.rivals = {}) (haction : event.action ≠ .delete)
    (howned : s.Owned) (hdocument : s.documentId? event.publicId event.type = some id) :
    (carriedOut env (Plan.ofEvent event) s).Shows event.publicId id event.type event.newData := by
  have hasked := Plan.asked event
  have hsound := (apply_eq quiet h (Plan.sound_ofEvent fun v hv => (hdata v hv).1) hspace).2
  generalize Plan.ofEvent event = plan at *
  cases hasked with
  | deleted hdelete => exact absurd hdelete haction
  | editor _ htype =>
    have hcontentSound : (event.newData.getD .null).Sound := by
      cases hv : event.newData with
      | none => exact ⟨trivial, rfl, Nat.zero_le _⟩
      | some v => exact (hdata v hv).1
    have hbind : contentOf (event.newData.getD .null) = event.newData.bind contentOf := by
      cases event.newData <;> rfl
    obtain ⟨row, hrow, hkey, hcontent, old, hold, hokey, hor⟩ :=
      row_withContent env s event.publicId hcontentSound
    rw [htype] at hdocument ⊢
    refine ⟨row, hrow, hkey, ?_, ?_⟩
    · rw [hcontent, hbind]
      exact map_iterate_reread hdata 1
    · have hmade := howned.grows (grows_materialize env s event.publicId .default) old hold
      rw [documentId?_of_documents (documents_materialize _ .default), hokey, hdocument] at hmade
      rw [hor, hdocument]
      cases hother : old.editorDocument with
      | none => rfl
      | some other => exact (hmade other hother).symm
  | space _ htype data hvalue =>
    rw [htype, hvalue]
    obtain ⟨space, hroom⟩ := Plan.obstacle?_eq_none.mp hspace
    have hrow := (spaceFor?_eq_some.mp hroom).1
    have hkeys := (Plan.titlesIn_sorted (hdata data hvalue).1.ordered).nodup_keys
    rw [carriedOut_space hroom] at hsound ⊢
    refine ⟨?_, fun q => isMember_withMembers h hsound hkeys hrow⟩
    apply space?_ne_none_of_extends hsound (grows_withMembers env s space hkeys).toExtends
    simp [hrow]
  | missing _ htype hvalue =>
    rw [htype, hvalue]
    trivial
  | graph _ heditor hnotSpace =>
    have hchildren := isChild_withChildren (p := event.publicId) h event.type (Plan.graphKind event.type)
      (Plan.childrenIn event.newData)
    cases htype : event.type with
    | editor => exact absurd htype heditor
    | space => exact absurd htype hnotSpace
    | graph =>
      rw [htype] at hchildren
      exact hchildren
    | methodGraph =>
      rw [htype] at hchildren
      exact hchildren

/-- What the graph shows of a document stays when an event of another one is carried out. -/
theorem shows_carriedOut_of_ne (quiet : env.rivals = {}) {type : DocumentType} {json : Option Json}
    (hjson : ∀ v ∈ json, v.Sound ∧ v.ReadsBack)
    (hne : (event.publicId, event.type) ≠ (p, type)) (hshows : s.Shows p id type json) :
    (carriedOut env (Plan.ofEvent event) s).Shows p id type json := by
  have hasked := Plan.asked event
  have hplan := Plan.sound_ofEvent fun v hv => (hdata v hv).1
  have hsound := (apply_eq quiet h hplan hspace).2
  generalize Plan.ofEvent event = plan at *
  cases hasked with
  | deleted => exact hshows
  | editor _ htype =>
    rw [htype] at hne
    exact shows_withContent h hplan hne hshows
  | space _ htype data hvalue =>
    obtain ⟨space, hroom⟩ := Plan.obstacle?_eq_none.mp hspace
    have hrow := (spaceFor?_eq_some.mp hroom).1
    rw [carriedOut_space hroom] at hsound ⊢
    have hgrows := grows_withMembers env s space hplan
    refine shows_of_grows h hsound hgrows (fun hspaceType q => ?_) hjson hshows
    refine isMember_withMembers_of_ne h hsound hplan hrow fun heq => hne ?_
    rw [heq, htype, hspaceType]
  | missing => exact hshows
  | graph =>
    exact shows_of_grows h hsound (grows_withChildren h _ _ _ _)
      (fun _ q => isMember_withChildren h _ _ _) hjson hshows

end Event

end Reconcile
end NodeGraph
