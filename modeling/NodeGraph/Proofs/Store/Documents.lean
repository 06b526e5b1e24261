import NodeGraph.Proofs.Store.Nodes

/-!
What writing a document does to a sound store.
-/
namespace NodeGraph

/-- The row without a reference to a document. -/
def NodeRow.detached (id : ℤ) (row : NodeRow) : NodeRow :=
  { row with
    editorDocument := if row.editorDocument = some id then none else row.editorDocument
    graphDocument := if row.graphDocument = some id then none else row.graphDocument }

def Space.detached (id : ℤ) (space : Space) : Space :=
  { space with document := if space.document = some id then none else space.document }

namespace Store

variable {tokens : Tokenizer} {s : Store} {clock : ℤ}

/-- The store after a document has been inserted or replaced. -/
def upserted (env : Env) (p : String) (type : DocumentType) (data : List UInt8)
    (json : Option Json) (s : Store) : Store :=
  match s.document? p type.name with
  | none =>
    s.addDocument env.clock fun id =>
      { id, publicId := p, type := type.name, data, json := json.map Json.compact
        createdAt := env.now, updatedAt := env.now }
  | some old =>
    { s with documents := s.documents.skipId }.replaceDocument env.clock old
      { old with data, json := json.map Json.compact, updatedAt := env.now }

/-- The store after a document has been deleted. -/
def withoutDocument (env : Env) (p : String) (type : DocumentType) (s : Store) : Store :=
  match s.document? p type.name with
  | none => s
  | some row => s.deleteDocument env.clock row

theorem document?_eq_none {p type : String} :
    s.document? p type = none ↔ ∀ row ∈ s.documents.rows, (row.publicId, row.type) ≠ (p, type) := by
  unfold document? Table.find?
  simp

theorem key_of_document? {p type : String} {row : DocumentRow} (h : s.document? p type = some row) :
    row.publicId = p ∧ row.type = type := by
  simpa using List.find?_some h

/-! ### Inserting and replacing -/

theorem addDocument_sound (h : s.Sound tokens) {row : ℤ → DocumentRow}
    (hid : (row s.documents.nextId).id = s.documents.nextId)
    (hfree : s.document? (row s.documents.nextId).publicId (row s.documents.nextId).type = none) :
    (s.addDocument clock row).Sound tokens := by
  have hdocuments : (s.addDocument clock row).documents = s.documents.add row := rfl
  have hkeys : (s.addDocument clock row).DocumentsSound := by
    constructor
    · rw [hdocuments]
      exact h.documentIds.add hid
    · rw [hdocuments, Table.rows_add, List.map_append, List.nodup_append]
      refine ⟨h.documentKeys, List.nodup_singleton _, ?_⟩
      intro a ha b hb heq
      obtain ⟨r, hr, rfl⟩ := List.mem_map.mp ha
      rw [List.map_singleton, List.mem_singleton] at hb
      exact document?_eq_none.mp hfree r hr (heq.trans hb)
  refine ⟨hkeys, ⟨h.queueIds.add rfl, h.letterIds⟩, ?_⟩
  refine h.toGraphSound.mono rfl rfl rfl rfl fun id hid => ?_
  obtain ⟨r, hr, rfl⟩ := hasDocumentId_iff.mp hid
  exact hasDocumentId_iff.mpr ⟨r, List.mem_append_left _ hr, rfl⟩

/-- Replacing a row keeps ids, queue and graph sound whatever becomes of its key. -/
theorem replaceDocument_sound (clock : ℤ) (h : s.GraphSound tokens) (hids : s.documents.Numbered (·.id))
    (hqueue : s.QueueSound) {old row : DocumentRow} (hid : row.id = old.id) :
    (s.replaceDocument clock old row).GraphSound tokens ∧
      (s.replaceDocument clock old row).documents.Numbered (·.id) ∧
      (s.replaceDocument clock old row).QueueSound := by
  refine ⟨?_, ?_, ⟨hqueue.queueIds.add rfl, hqueue.letterIds⟩⟩
  · refine h.mono rfl rfl rfl rfl fun id hhas => ?_
    obtain ⟨r, hr, rfl⟩ := hasDocumentId_iff.mp hhas
    rw [hasDocumentId_iff]
    refine ⟨_, List.mem_map_of_mem hr, ?_⟩
    split
    · rename_i heq
      exact hid.trans (of_decide_eq_true heq).symm
    · rfl
  · show (s.documents.update (·.id = old.id) fun _ => row).Numbered (·.id)
    refine hids.update fun r _ heq => ?_
    exact hid.trans (of_decide_eq_true heq).symm

theorem replaceDocument_keys (h : s.documents.Numbered (·.id)) {old row : DocumentRow}
    (hold : old ∈ s.documents.rows) (hkey : (row.publicId, row.type) = (old.publicId, old.type)) :
    ((s.replaceDocument clock old row).documents.rows.map fun r => (r.publicId, r.type)) =
      s.documents.rows.map fun r => (r.publicId, r.type) := by
  show (s.documents.rows.map fun r => if decide (r.id = old.id) = true then row else r).map _ = _
  rw [List.map_map]
  refine List.map_congr_left fun r hr => ?_
  rw [Function.comp_apply]
  split
  · rename_i heq
    rw [hkey, h.eq_of_id_eq hr hold (of_decide_eq_true heq)]
  · rfl

theorem upserted_sound (h : s.Sound tokens) (env : Env) (p : String) (type : DocumentType)
    (data : List UInt8) (json : Option Json) : (s.upserted env p type data json).Sound tokens := by
  unfold upserted
  split
  · rename_i hfree
    exact addDocument_sound h rfl hfree
  · rename_i old hold
    have hmem : old ∈ s.documents.rows := (h.document?_eq_some.mp hold).1
    set row : DocumentRow :=
      { old with data, json := json.map Json.compact, updatedAt := env.now } with hrow
    set t : Store := { s with documents := s.documents.skipId } with ht
    have hgraph : t.GraphSound tokens :=
      h.toGraphSound.mono rfl rfl rfl rfl fun _ hhas => hhas
    have hids : t.documents.Numbered (·.id) := h.documentIds.skipId
    obtain ⟨hgraph', hids', hqueue'⟩ := replaceDocument_sound env.clock hgraph hids
      ⟨h.queueIds, h.letterIds⟩ (show row.id = old.id from rfl)
    refine ⟨⟨hids', ?_⟩, hqueue', hgraph'⟩
    have hkey : (row.publicId, row.type) = (old.publicId, old.type) := rfl
    rw [replaceDocument_keys hids hmem hkey]
    exact h.documentKeys

/-! ### Deleting -/

/-- A reference that is cleared of a document leads to another one. -/
theorem isSoundReference_keep {id : ℤ} {ref : Option ℤ} (h : s.isSoundReference ref = true) :
    ({ s with documents := s.documents.keep (·.id ≠ id) } : Store).isSoundReference
      (if ref = some id then none else ref) = true := by
  split
  · rfl
  · rename_i hne
    rw [isSoundReference_iff] at h ⊢
    intro other hother
    obtain ⟨row, hrow, rfl⟩ := hasDocumentId_iff.mp (h other hother)
    refine hasDocumentId_iff.mpr ⟨row, List.mem_filter.mpr ⟨hrow, decide_eq_true ?_⟩, rfl⟩
    rintro rfl
    exact hne hother

/-- Forgetting a document that is gone leaves no reference to it. -/
theorem detachDocument_sound (h : s.GraphSound tokens) (id : ℤ) :
    ({ s with documents := s.documents.keep (·.id ≠ id) }.detachDocument id).GraphSound tokens := by
  set t := { s with documents := s.documents.keep (·.id ≠ id) }.detachDocument id with ht
  have hnodes : t.nodes.rows = s.nodes.rows.map (NodeRow.detached id) := rfl
  have hspaces : t.spaces.rows = s.spaces.rows.map (Space.detached id) := rfl
  have hnodeId : ∀ other, t.hasNodeId other = s.hasNodeId other := fun other =>
    hasNodeId_mapNodes (f := NodeRow.detached id) (fun _ _ => rfl) other
  have hspaceId : ∀ other, t.hasSpaceId other = s.hasSpaceId other := by
    intro other
    rw [Bool.eq_iff_iff, hasSpaceId_iff, hasSpaceId_iff, hspaces]
    simp [Space.detached]
  refine ⟨h.nodeIds.map (f := NodeRow.detached id) fun _ _ => rfl, ?_, ?_, ?_,
    h.spaceIds.map (f := Space.detached id) fun _ _ => rfl, ?_, ?_, ?_⟩
  · rw [hnodes, List.map_map]
    exact h.nodeKeys
  · rw [hnodes]
    intro row' hrow'
    obtain ⟨row, hrow, rfl⟩ := List.mem_map.mp hrow'
    have hderived := h.derived row hrow
    exact ⟨hderived.kind, hderived.content, hderived.text, hderived.textTokens,
      hderived.titleTokens⟩
  · rw [hnodes]
    intro row' hrow'
    obtain ⟨row, hrow, rfl⟩ := List.mem_map.mp hrow'
    have hrefs := h.references row hrow
    exact ⟨isSoundReference_keep hrefs.1, isSoundReference_keep hrefs.2⟩
  · rw [hspaces, List.map_map]
    exact h.spaceKeys
  · intro pair hpair
    rw [hnodeId, hnodeId]
    exact h.edgeEnds pair hpair
  · intro pair hpair
    rw [hspaceId, hnodeId]
    exact h.liveEnds pair hpair

theorem deleteDocument_sound (clock : ℤ) (h : s.Sound tokens) (row : DocumentRow) :
    (s.deleteDocument clock row).Sound tokens := by
  refine ⟨⟨h.documentIds.keep _, ?_⟩, ⟨h.queueIds.add rfl, h.letterIds⟩, ?_⟩
  · exact h.documentKeys.sublist (List.filter_sublist.map _)
  · exact (detachDocument_sound h.toGraphSound row.id).congr rfl rfl rfl rfl rfl

theorem withoutDocument_of_none {env : Env} {p : String} {type : DocumentType}
    (h : s.document? p type.name = none) : s.withoutDocument env p type = s := by
  unfold withoutDocument
  rw [h]

theorem withoutDocument_of_some {env : Env} {p : String} {type : DocumentType} {row : DocumentRow}
    (h : s.document? p type.name = some row) :
    s.withoutDocument env p type = s.deleteDocument env.clock row := by
  unfold withoutDocument
  rw [h]

theorem withoutDocument_sound (h : s.Sound tokens) (env : Env) (p : String)
    (type : DocumentType) : (s.withoutDocument env p type).Sound tokens := by
  unfold withoutDocument
  split
  · exact h
  · exact deleteDocument_sound env.clock h _

/-! ### What there is afterwards -/

/-- A new document takes the next id. -/
theorem document?_upserted_of_none {env : Env} {p : String} {type : DocumentType}
    (hold : s.document? p type.name = none) (data : List UInt8) (json : Option Json) :
    (s.upserted env p type data json).document? p type.name = some
      { id := s.documents.nextId, publicId := p, type := type.name, data
        json := json.map Json.compact, createdAt := env.now, updatedAt := env.now } := by
  unfold upserted
  rw [hold]
  show (s.documents.rows ++ [_]).find? _ = _
  rw [List.find?_append]
  show (s.document? p type.name).or _ = _
  rw [hold]
  simp

/-- A document that was there keeps its id and the time it was made. -/
theorem document?_upserted_of_some (h : s.Sound tokens) {env : Env} {p : String}
    {type : DocumentType} {old : DocumentRow} (hold : s.document? p type.name = some old)
    (data : List UInt8) (json : Option Json) :
    (s.upserted env p type data json).document? p type.name = some
      { old with data, json := json.map Json.compact, updatedAt := env.now } := by
  obtain ⟨hmem, hpublicId, htype⟩ := h.document?_eq_some.mp hold
  refine (upserted_sound h env p type data json).document?_eq_some.mpr ⟨?_, hpublicId, htype⟩
  unfold upserted
  rw [hold]
  exact List.mem_map.mpr ⟨old, hmem, if_pos (decide_eq_true rfl)⟩

theorem document?_upserted_of_ne (h : s.Sound tokens) {env : Env} {p : String}
    {type : DocumentType} {q t : String} (hkey : ¬(q = p ∧ t = type.name)) (data : List UInt8)
    (json : Option Json) :
    (s.upserted env p type data json).document? q t = s.document? q t := by
  have hsound := upserted_sound h env p type data json
  refine Option.ext fun d => ?_
  show _ = some d ↔ _ = some d
  rw [hsound.document?_eq_some, h.document?_eq_some]
  unfold upserted
  cases hold : s.document? p type.name with
  | none =>
    show d ∈ s.documents.rows ++ [_] ∧ _ ↔ _
    rw [List.mem_append, List.mem_singleton]
    constructor
    · rintro ⟨hd | rfl, hq, ht⟩
      · exact ⟨hd, hq, ht⟩
      · exact absurd ⟨hq.symm, ht.symm⟩ hkey
    · exact fun ⟨hd, hq, ht⟩ => ⟨Or.inl hd, hq, ht⟩
  | some old =>
    obtain ⟨hmem, hpublicId, htype⟩ := h.document?_eq_some.mp hold
    show d ∈ s.documents.rows.map (fun r => if decide (r.id = old.id) = true then _ else r) ∧ _ ↔ _
    rw [List.mem_map]
    constructor
    · rintro ⟨⟨r, hr, rfl⟩, hq, ht⟩
      by_cases heq : decide (r.id = old.id) = true
      · rw [if_pos heq] at hq ht
        exact absurd ⟨hq.symm.trans hpublicId, ht.symm.trans htype⟩ hkey
      · rw [if_neg heq] at hq ht ⊢
        exact ⟨hr, hq, ht⟩
    · rintro ⟨hd, rfl, rfl⟩
      refine ⟨⟨d, hd, if_neg fun heq => hkey ?_⟩, rfl, rfl⟩
      rw [h.documentIds.eq_of_id_eq hd hmem (of_decide_eq_true heq)]
      exact ⟨hpublicId, htype⟩

/-- The document of the key has the new value, and keeps its id if it was there. -/
theorem document?_upserted (h : s.Sound tokens) (env : Env) (p : String) (type : DocumentType)
    (data : List UInt8) (json : Option Json) : ∃ row : DocumentRow,
      row.publicId = p ∧ row.type = type.name ∧ row.json = json.map Json.compact ∧
      (∀ old ∈ s.document? p type.name, row.id = old.id) ∧
      ∀ q t, (s.upserted env p type data json).document? q t =
        if q = p ∧ t = type.name then some row else s.document? q t := by
  suffices hrow : ∃ row : DocumentRow,
      (s.upserted env p type data json).document? p type.name = some row ∧
      row.json = json.map Json.compact ∧ ∀ old ∈ s.document? p type.name, row.id = old.id by
    obtain ⟨row, hrow, hjson, hid⟩ := hrow
    obtain ⟨hpublicId, htype⟩ := key_of_document? hrow
    refine ⟨row, hpublicId, htype, hjson, hid, fun q t => ?_⟩
    split
    · rename_i hkey
      rw [hkey.1, hkey.2, hrow]
    · rename_i hkey
      exact document?_upserted_of_ne h hkey data json
  cases hold : s.document? p type.name with
  | none =>
    exact ⟨_, document?_upserted_of_none hold data json, rfl, fun _ hnone => nomatch hnone⟩
  | some old =>
    refine ⟨_, document?_upserted_of_some h hold data json, rfl, fun other hother => ?_⟩
    rw [← Option.some.inj hother]

theorem queue_upserted_of_none {env : Env} {p : String} {type : DocumentType}
    (hold : s.document? p type.name = none) (data : List UInt8) (json : Option Json) :
    (s.upserted env p type data json).queue = s.queue.add fun id =>
      { id, publicId := p, type := type.name, action := Action.insert.name, oldData := none
        newData := json.map Json.compact, createdAt := Clock.eventTime env.clock } := by
  unfold upserted
  rw [hold]
  rfl

theorem queue_upserted_of_some {env : Env} {p : String} {type : DocumentType} {old : DocumentRow}
    (hold : s.document? p type.name = some old) (data : List UInt8) (json : Option Json) :
    (s.upserted env p type data json).queue = s.queue.add fun id =>
      { id, publicId := p, type := type.name, action := Action.update.name, oldData := old.json
        newData := json.map Json.compact, createdAt := Clock.eventTime env.clock } := by
  obtain ⟨rfl, htype⟩ := key_of_document? hold
  unfold upserted
  rw [hold, ← htype]
  rfl

/-- A write of a document queues an event that carries the value. -/
theorem queue_upserted (env : Env) (s : Store) (p : String) (type : DocumentType)
    (data : List UInt8) (json : Option Json) : ∃ (action : Action) (oldData : Option String),
      action ≠ .delete ∧ (oldData = none ∨ ∃ old ∈ s.document? p type.name, oldData = old.json) ∧
      (s.upserted env p type data json).queue = s.queue.add fun id =>
        { id, publicId := p, type := type.name, action := action.name, oldData
          newData := json.map Json.compact, createdAt := Clock.eventTime env.clock } := by
  cases hold : s.document? p type.name with
  | none =>
    exact ⟨.insert, none, by decide, Or.inl rfl, queue_upserted_of_none hold data json⟩
  | some old =>
    exact ⟨.update, old.json, by decide, Or.inr ⟨old, rfl, rfl⟩,
      queue_upserted_of_some hold data json⟩

/-- What a write of a document leaves alone. -/
theorem upserted_frame (env : Env) (s : Store) (p : String) (type : DocumentType)
    (data : List UInt8) (json : Option Json) :
    (s.upserted env p type data json).nodes = s.nodes ∧
      (s.upserted env p type data json).edges = s.edges ∧
      (s.upserted env p type data json).spaces = s.spaces ∧
      (s.upserted env p type data json).live = s.live ∧
      (s.upserted env p type data json).deadLetters = s.deadLetters ∧
      (s.upserted env p type data json).leases = s.leases := by
  unfold upserted
  split <;> exact ⟨rfl, rfl, rfl, rfl, rfl, rfl⟩

theorem upserted_records (env : Env) (s : Store) (p : String) (type : DocumentType)
    (data : List UInt8) (json : Option Json) :
    (s.upserted env p type data json).versions = s.versions ∧
      (s.upserted env p type data json).deleted = s.deleted ∧
      (s.upserted env p type data json).members = s.members := by
  unfold upserted
  split <;> exact ⟨rfl, rfl, rfl⟩

theorem rows_deleteDocument (clock : ℤ) (s : Store) (row : DocumentRow) :
    (s.deleteDocument clock row).nodes.rows = s.nodes.rows.map (NodeRow.detached row.id) ∧
      (s.deleteDocument clock row).spaces.rows = s.spaces.rows.map (Space.detached row.id) :=
  ⟨rfl, rfl⟩

/-- A document that has been deleted is gone, and the others are what they were. -/
theorem document?_deleteDocument (h : s.Sound tokens) {row : DocumentRow}
    (hrow : row ∈ s.documents.rows) (q t : String) :
    (s.deleteDocument clock row).document? q t =
      if q = row.publicId ∧ t = row.type then none else s.document? q t := by
  have hsound := deleteDocument_sound clock h row
  have hrows : (s.deleteDocument clock row).documents.rows =
      s.documents.rows.filter fun r => decide (r.id ≠ row.id) := rfl
  refine Option.ext fun d => ?_
  rw [hsound.document?_eq_some, hrows, List.mem_filter, decide_eq_true_eq]
  by_cases hkey : q = row.publicId ∧ t = row.type
  · rw [if_pos hkey]
    constructor
    · rintro ⟨⟨hd, hne⟩, hq, ht⟩
      refine absurd (congrArg DocumentRow.id ?_) hne
      exact List.inj_on_of_nodup_map h.documentKeys hd hrow
        (Prod.ext (hq.trans hkey.1) (ht.trans hkey.2))
    · exact fun hnone => nomatch hnone
  · rw [if_neg hkey, h.document?_eq_some]
    constructor
    · exact fun ⟨⟨hd, _⟩, hq, ht⟩ => ⟨hd, hq, ht⟩
    · rintro ⟨hd, rfl, rfl⟩
      refine ⟨⟨hd, fun heq => hkey ?_⟩, rfl, rfl⟩
      rw [h.documentIds.eq_of_id_eq hd hrow heq]
      exact ⟨rfl, rfl⟩

end Store

namespace Documents

open Store

variable {env : Env} {s : Store} {p : String} {type : DocumentType}

/-- What is read back may be refused, but the document has been written all the same. -/
theorem upsert_outcome (data : List UInt8) (json : Option Json) :
    ((upsert env p type data json).outcome s).2 = s.upserted env p type data json := by
  unfold upsert upsertOn upserted
  rw [Database.run_sound, Command.outcome_bind (Command.get_eq s)]
  dsimp only
  cases s.document? p type.name with
  | none => exact Command.outcome_decoded _ _
  | some old => exact Command.outcome_decoded _ _

theorem delete_of_none (h : s.document? p type.name = none) :
    delete env p type s = .ok false s := by
  unfold delete deleteOn
  rw [Database.run_sound, Command.bind_of_ok (Command.get_eq s), h]
  rfl

theorem delete_of_some {row : DocumentRow} (h : s.document? p type.name = some row) :
    delete env p type s = .ok true (s.deleteDocument env.clock row) := by
  unfold delete deleteOn
  rw [Database.run_sound, Command.bind_of_ok (Command.get_eq s), h]
  rfl

theorem delete_outcome : ((delete env p type).outcome s).2 = s.withoutDocument env p type := by
  unfold withoutDocument
  cases hold : s.document? p type.name with
  | none => exact Command.outcome_of_ok (delete_of_none hold)
  | some row => exact Command.outcome_of_ok (delete_of_some hold)

end Documents
end NodeGraph
