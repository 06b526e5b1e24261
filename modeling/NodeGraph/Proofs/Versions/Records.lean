import NodeGraph.Proofs.Persistence
import NodeGraph.Proofs.Versions.Findings

/-!
What operations do to documents and their versions: only a snapshot writes versions, a version goes
with its document and not without it, and the id of a document is not given again.
-/
namespace NodeGraph

namespace Store

variable {tokens : Tokenizer} {env : Env} {s t u : Store} {id : ℤ}

/-- Every version is one of a document that is there. -/
def Known (s : Store) : Prop :=
  ∀ v ∈ s.versions.rows, s.hasDocumentId v.documentId = true

theorem Known.le_lastId (h : s.Known) (hids : s.documents.Numbered (·.id)) {v : Version}
    (hv : v ∈ s.versions.rows) : v.documentId ≤ s.documents.lastId := by
  obtain ⟨row, hrow, hid⟩ := hasDocumentId_iff.mp (h v hv)
  exact hid ▸ hids.2 row hrow

theorem Known.versionsOf_of_absent (h : s.Known) (hid : s.hasDocumentId id = false) :
    s.versionsOf id = [] := by
  refine List.eq_nil_iff_forall_not_mem.mpr fun v hv => ?_
  obtain ⟨hmem, rfl⟩ := mem_versionsOf.mp hv
  rw [h v hmem] at hid
  exact nomatch hid

/-- The documents of `t` are those of `s` or newer, and its versions are those of `s` as far as
their documents are there. -/
structure Retains (s t : Store) : Prop where
  documents : s.documents.Continues (·.id) (fun _ => ()) t.documents
  versions : t.versions = s.versions.keep fun v => t.hasDocumentId v.documentId

theorem hasDocumentId_of_continues
    (h : s.documents.Continues (·.id) (fun _ => ()) t.documents) (hid : id ≤ s.documents.lastId)
    (hthere : t.hasDocumentId id = true) : s.hasDocumentId id = true := by
  obtain ⟨row, hrow, rfl⟩ := hasDocumentId_iff.mp hthere
  obtain ⟨old, hold, hsame, -⟩ := h.rows row hrow hid
  exact hasDocumentId_iff.mpr ⟨old, hold, hsame⟩

theorem Retains.known (h : Retains s t) : t.Known := by
  intro v hv
  rw [h.versions] at hv
  exact (List.mem_filter.mp hv).2

theorem Retains.versionsOf (h : Retains s t) (hid : t.hasDocumentId id = true) :
    t.versionsOf id = s.versionsOf id := by
  unfold Store.versionsOf
  rw [h.versions, Table.rows_keep, List.filter_filter]
  refine List.filter_congr fun v _ => ?_
  by_cases hv : v.documentId = id
  · rw [hv, hid, Bool.and_true]
  · simp [hv]

theorem Retains.trans (hids : s.documents.Numbered (·.id)) (hknown : s.Known) (h : Retains s t)
    (h' : Retains t u) : Retains s u := by
  refine ⟨h.documents.trans h'.documents, ?_⟩
  rw [h'.versions, h.versions]
  unfold Table.keep
  rw [List.filter_filter]
  congr 1
  refine List.filter_congr fun v hv => ?_
  -- An id that was given before `t` is not one of a document that is newer than `t`.
  cases hthere : u.hasDocumentId v.documentId with
  | false => rfl
  | true =>
    have hle := (hknown.le_lastId hids hv).trans h.documents.lastId
    rw [hasDocumentId_of_continues h'.documents hle hthere]
    rfl

/-- What takes no document away. -/
structure Spares (s t : Store) : Prop where
  documents : s.documents.Continues (·.id) (fun _ => ()) t.documents
  kept : ∀ id, s.hasDocumentId id = true → t.hasDocumentId id = true
  versions : t.versions = s.versions

theorem spares_of_eq (hdocuments : t.documents = s.documents)
    (hversions : t.versions = s.versions) : Spares s t := by
  refine ⟨Table.continues_of_eq hdocuments, fun id hid => ?_, hversions⟩
  unfold Store.hasDocumentId at hid ⊢
  rwa [hdocuments]

theorem Spares.trans (h : Spares s t) (h' : Spares t u) : Spares s u :=
  ⟨h.documents.trans h'.documents, fun id hid => h'.kept id (h.kept id hid),
    h'.versions.trans h.versions⟩

theorem Spares.retains (h : Spares s t) (hknown : s.Known) : Retains s t := by
  refine ⟨h.documents, ?_⟩
  rw [h.versions]
  unfold Table.keep
  rw [List.filter_eq_self.mpr fun v hv => h.kept _ (hknown v hv)]

/-! ### Writing and deleting documents -/

theorem spares_addDocument (clock : ℤ) (s : Store) {row : ℤ → DocumentRow}
    (hrow : (row s.documents.nextId).id = s.documents.nextId) :
    Spares s (s.addDocument clock row) := by
  refine ⟨Table.continues_add hrow, fun id hid => ?_, rfl⟩
  obtain ⟨old, hold, hsame⟩ := hasDocumentId_iff.mp hid
  exact hasDocumentId_iff.mpr ⟨old, List.mem_append_left _ hold, hsame⟩

theorem spares_replaceDocument (clock : ℤ) (s : Store) {old row : DocumentRow}
    (hrow : row.id = old.id) : Spares s (s.replaceDocument clock old row) := by
  have hid : ∀ other : DocumentRow,
      (if decide (other.id = old.id) = true then row else other).id = other.id := by
    intro other
    split
    · rename_i hsame
      exact hrow.trans (of_decide_eq_true hsame).symm
    · rfl
  refine ⟨Table.continues_of_keys rfl ?_, fun id hthere => ?_, rfl⟩
  · show (s.documents.rows.map fun other =>
      if decide (other.id = old.id) = true then row else other).map _ = _
    rw [List.map_map]
    exact List.map_congr_left fun other _ => Prod.ext (hid other) rfl
  · obtain ⟨other, hother, rfl⟩ := hasDocumentId_iff.mp hthere
    exact hasDocumentId_iff.mpr ⟨_, List.mem_map_of_mem hother, hid other⟩

theorem spares_upserted (env : Env) (s : Store) (p : String) (type : DocumentType)
    (data : List UInt8) (json : Option Json) : Spares s (s.upserted env p type data json) := by
  unfold upserted
  split
  · exact spares_addDocument env.clock s rfl
  · have hskipped : Spares s { s with documents := s.documents.skipId } :=
      ⟨Table.continues_skipId, fun _ hid => hid, rfl⟩
    exact hskipped.trans (spares_replaceDocument env.clock _ rfl)

theorem retains_deleteDocument (clock : ℤ) (hknown : s.Known) (row : DocumentRow) :
    Retains s (s.deleteDocument clock row) := by
  refine ⟨Table.continues_keep _, ?_⟩
  show s.versions.keep (·.documentId ≠ row.id) = _
  unfold Table.keep
  congr 1
  refine List.filter_congr fun v hv => ?_
  obtain ⟨old, hold, hsame⟩ := hasDocumentId_iff.mp (hknown v hv)
  rw [Bool.eq_iff_iff, decide_eq_true_eq, hasDocumentId_iff]
  constructor
  · intro hne
    exact ⟨old, List.mem_filter.mpr ⟨hold, decide_eq_true (hsame ▸ hne)⟩, hsame⟩
  · rintro ⟨other, hother, heq⟩
    rw [← heq]
    exact of_decide_eq_true (List.mem_filter.mp hother).2

theorem retains_refl (hknown : s.Known) : Retains s s :=
  (spares_of_eq rfl rfl).retains hknown

theorem retains_foldl_deleteDocument (clock : ℤ) (hids : s.documents.Numbered (·.id))
    (hknown : s.Known) (rows : List DocumentRow) :
    Retains s (rows.foldl (fun s row => s.deleteDocument clock row) s) := by
  induction rows generalizing s with
  | nil => exact retains_refl hknown
  | cons row rest ih =>
    have hfirst := retains_deleteDocument clock hknown row
    exact hfirst.trans hids hknown (ih (hids.keep _) hfirst.known)

theorem retains_withoutDocument (env : Env) (hknown : s.Known) (p : String) (type : DocumentType) :
    Retains s (s.withoutDocument env p type) := by
  unfold withoutDocument
  split
  · exact retains_refl hknown
  · exact retains_deleteDocument env.clock hknown _

end Store

open Store

variable {tokens : Tokenizer} {env : Env} {s : Store}

theorem spares_replaces {clock : ℤ} {t : Store} (h : Operation.Replaces clock s t) :
    Spares s t := by
  induction h with
  | refl => exact spares_of_eq rfl rfl
  | tail _ hstep ih =>
    obtain ⟨old, row, hid, rfl⟩ := hstep
    exact ih.trans (spares_replaceDocument clock _ hid)

theorem Pass.records_run (quiet : env.rivals = {}) (h : s.Sound env.tokens) (owner : ℕ)
    (strict : Bool) (ttl : ℤ) : ((run env owner strict ttl).outcome s).2.documents = s.documents ∧
      ((run env owner strict ttl).outcome s).2.versions = s.versions := by
  refine run_induction quiet (P := fun t => t.documents = s.documents ∧ t.versions = s.versions)
    (fun _ _ ht => ht) (fun t e ht hkept => ?_) h ⟨rfl, rfl⟩ owner strict ttl
  obtain ⟨hdocuments, hversions, -⟩ := settle_frame quiet ht.toGraphSound e
  exact ⟨hdocuments.trans hkept.1, hversions.trans hkept.2⟩

/-! ### Every operation -/

namespace Operation

/-- What is done to the graph, to the queue and to versions. -/
def LeavesDocuments : Operation → Prop
  | upsert _ _ _ _ | delete _ _ | addDocument _ => False
  | changeRows .documents _ _ _ | deleteRows .documents _ => False
  | _ => True

def IsSnapshot (op : Operation) : Prop :=
  ∃ owner options time, op = snapshot owner options time

/-- Documents and versions are left alone by all that neither writes the former nor takes a
snapshot. -/
theorem records_perform (quiet : env.rivals = {}) (h : s.Sound env.tokens) {op : Operation}
    (hleaves : op.LeavesDocuments) (hother : ¬ op.IsSnapshot) :
    (op.perform env s).documents = s.documents ∧ (op.perform env s).versions = s.versions := by
  have heffect := op.effect_perform quiet h.toGraphSound
  generalize op.perform env s = t at heffect ⊢
  cases heffect with
  | upsert | delete | addDocument | changeDocuments | deleteDocuments => exact hleaves.elim
  | pass owner strict ttl => exact Pass.records_run quiet h owner strict ttl
  | snapshot owner options time versions => exact absurd ⟨owner, options, time, rfl⟩ hother
  | _ => exact ⟨rfl, rfl⟩

/-- Whatever is not a snapshot writes no version, and takes one away with its document only. -/
theorem retains_perform (quiet : env.rivals = {}) (h : s.Sound env.tokens) (hknown : s.Known)
    {op : Operation} (hother : ¬ op.IsSnapshot) : Retains s (op.perform env s) := by
  by_cases hleaves : op.LeavesDocuments
  · obtain ⟨hdocuments, hversions⟩ := records_perform quiet h hleaves hother
    exact (spares_of_eq hdocuments hversions).retains hknown
  · have heffect := op.effect_perform quiet h.toGraphSound
    generalize op.perform env s = t at heffect ⊢
    cases heffect with
    | nothing => exact retains_refl hknown
    | upsert p type data json => exact (spares_upserted env s p type data json).retains hknown
    | delete hrow => exact retains_deleteDocument env.clock hknown _
    | addDocument cells hid hfree =>
      exact (spares_addDocument env.clock s (hid _)).retains hknown
    | changeDocuments p column cell hreplaces hkeys =>
      exact (spares_replaces hreplaces).retains hknown
    | deleteDocuments p =>
      exact retains_foldl_deleteDocument env.clock h.documentIds hknown (Foreign.documentsOf s p)
    | _ => exact absurd trivial hleaves

end Operation
end NodeGraph
