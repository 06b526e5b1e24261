import NodeGraph.Proofs.Json.RoundTrip
import NodeGraph.Proofs.Store.Table

/-!
What holds of every store: ids and keys are not repeated, references lead somewhere, and the
derived columns of every node follow from its title and content.
-/
namespace NodeGraph

namespace Command

variable {α β : Type} {c : Command α} {f : α → Command β} {s s' : Store}

theorem bind_of_ok {a : α} (h : c s = .ok a s') : (c >>= f) s = f a s' := by
  show EStateM.bind c f s = f a s'
  unfold EStateM.bind
  rw [h]

theorem bind_of_error {e : Fault} (h : c s = .error e s') : (c >>= f) s = .error e s' := by
  show EStateM.bind c f s = .error e s'
  unfold EStateM.bind
  rw [h]

theorem get_eq (s : Store) : (EStateM.get : Command Store) s = .ok s s := rfl

theorem set_eq (s s' : Store) : (EStateM.set s' : Command PUnit) s = .ok ⟨⟩ s' := rfl

theorem modify_eq (f : Store → Store) (s : Store) :
    (modify f : Command PUnit) s = .ok ⟨⟩ (f s) := rfl

theorem transaction_of_ok {a : α} (h : c s = .ok a s') : transaction c s = .ok a s' := by
  unfold transaction
  rw [h]

theorem transaction_of_error {e : Fault} (h : c s = .error e s') :
    transaction c s = .error e s := by
  unfold transaction
  rw [h]

theorem bind_eq_ok {b : β} :
    (c >>= f) s = .ok b s' ↔ ∃ a t, c s = .ok a t ∧ f a t = .ok b s' := by
  cases hc : c s with
  | ok a t =>
    rw [bind_of_ok hc]
    constructor
    · exact fun h => ⟨a, t, rfl, h⟩
    · rintro ⟨a', t', heq, h⟩
      obtain ⟨rfl, rfl⟩ := EStateM.Result.ok.inj heq
      exact h
  | error e t =>
    rw [bind_of_error hc]
    constructor
    · exact fun h => nomatch h
    · rintro ⟨a', t', heq, -⟩
      exact nomatch heq

/-- What holds before a transaction holds after it if it holds after a success. -/
theorem transaction_induction {P : Store → Prop} (h : P s)
    (hok : ∀ a s', c s = .ok a s' → P s') : P ((transaction c).outcome s).2 := by
  unfold outcome
  cases hc : c s with
  | ok a s' =>
    rw [transaction_of_ok hc]
    exact hok a s' hc
  | error e s' =>
    rw [transaction_of_error hc]
    exact h

/-- What every turn of a loop preserves, the loop preserves. -/
theorem forIn_induction {P : Store → Prop} {items : List β}
    {body : β → α → Command (ForInStep α)}
    (hbody : ∀ item a s step s', P s → body item a s = .ok step s' → P s') {a a' : α} (h : P s)
    (hloop : forIn items a body s = .ok a' s') : P s' := by
  induction items generalizing a s with
  | nil =>
    rw [List.forIn_nil] at hloop
    obtain ⟨-, rfl⟩ := EStateM.Result.ok.inj hloop
    exact h
  | cons item rest ih =>
    rw [List.forIn_cons] at hloop
    obtain ⟨step, t, hstep, hrest⟩ := bind_eq_ok.mp hloop
    have ht := hbody item a s step t h hstep
    cases step with
    | done b =>
      obtain ⟨-, rfl⟩ := EStateM.Result.ok.inj hrest
      exact ht
    | yield b => exact ih ht hrest

theorem outcome_of_ok {a : α} (h : c s = .ok a s') : (c.outcome s).2 = s' := by
  unfold outcome
  rw [h]

theorem outcome_of_error {e : Fault} (h : c s = .error e s') : (c.outcome s).2 = s' := by
  unfold outcome
  rw [h]

theorem ifTaken_of_ok {again : Command α} {a : α} (h : c s = .ok a s') :
    c.ifTaken again s = .ok a s' := by
  unfold ifTaken
  rw [h]

theorem ifTaken_of_error {again : Command α} {fault : Fault} (h : c s = .error fault s') :
    c.ifTaken again s = if fault.isDuplicateKey then again s' else .error fault s' := by
  unfold ifTaken
  rw [h]

theorem given_of_le {n : ℕ} (h : n ≤ maxParameters) : given n s = .ok ⟨⟩ s := by
  unfold given
  rw [if_pos h]
  rfl

theorem given_of_lt {n : ℕ} (h : maxParameters < n) : given n s = .error .tooManyParameters s := by
  unfold given
  rw [if_neg (by omega)]
  rfl

theorem outcome_bind {a : α} (h : c s = .ok a s') : (c >>= f).outcome s = (f a).outcome s' := by
  unfold outcome
  rw [bind_of_ok h]

/-- Reading a row changes nothing. -/
theorem outcome_decoded (r : Except Fault α) (s : Store) : ((decoded r).outcome s).2 = s := by
  cases r <;> rfl

end Command

namespace Database

variable {α : Type}

@[simp] theorem run_sound (statement : Statement) (c : Command α) :
    Database.sound.run statement c = c := rfl

@[simp] theorem transaction_sound (c : Command α) :
    Database.sound.transaction c = c.transaction := by
  funext s
  simp only [transaction, run_sound, bind_pure]

end Database

theorem NodeKind.name_of_ofName {name : String} {kind : NodeKind} (h : ofName name = .ok kind) :
    kind.name = name := by
  unfold ofName at h
  split at h
  · rename_i k hfind
    obtain rfl := Except.ok.inj h
    simpa using List.find?_some hfind
  · simp at h

namespace NodeRow

variable {tokens : Tokenizer} {row : NodeRow}

/-- The content of a row that decodes. -/
def contentValue (row : NodeRow) : Option Json :=
  match decodePayload row.content with
  | .ok content => content
  | .error _ => none

/-- The kind of a row that decodes. -/
def kindValue (row : NodeRow) : NodeKind :=
  match NodeKind.ofName row.kind with
  | .ok kind => kind
  | .error _ => .default

/-- The node of a row that decodes. -/
def value (row : NodeRow) : Node :=
  { row with kind := row.kindValue, content := row.contentValue }

/-- The row decodes, and its text and token counts are those of its content and title. -/
structure Derived (tokens : Tokenizer) (row : NodeRow) : Prop where
  kind : NodeKind.ofName row.kind = .ok row.kindValue
  content : decodePayload row.content = .ok row.contentValue
  text : row.text = Json.plainText row.contentValue
  textTokens : row.textTokens = some (tokens row.text : ℤ)
  titleTokens : row.titleTokens = some (tokens row.title : ℤ)

theorem Derived.decode (h : row.Derived tokens) : row.decode = .ok row.value := by
  unfold NodeRow.decode
  rw [h.kind, h.content]
  rfl

theorem Derived.kind_name (h : row.Derived tokens) : row.kindValue.name = row.kind :=
  NodeKind.name_of_ofName h.kind

theorem Derived.sound (h : row.Derived tokens) : ∀ v ∈ row.contentValue, v.Sound :=
  sound_of_decodePayload h.content

/-- A row written from a node whose content can be held. -/
theorem derived_of_content {content : Option Json} (hkind : ∃ kind, row.kind = NodeKind.name kind)
    (hsound : ∀ v ∈ content, v.Sound) (hcontent : row.content = content.map Json.compact)
    (htext : row.text = Json.plainText content)
    (htextTokens : row.textTokens = some (tokens row.text : ℤ))
    (htitleTokens : row.titleTokens = some (tokens row.title : ℤ)) : row.Derived tokens := by
  have hdecode : decodePayload row.content = .ok (content.map Json.reread) := by
    rw [hcontent]
    exact decodePayload_compact hsound
  have hvalue : row.contentValue = content.map Json.reread := by
    unfold contentValue
    rw [hdecode]
  obtain ⟨kind, hk⟩ := hkind
  have hname : NodeKind.ofName row.kind = .ok kind := by
    rw [hk]
    exact NodeKind.ofName_name kind
  refine ⟨?_, ?_, ?_, htextTokens, htitleTokens⟩
  · unfold kindValue
    rw [hname]
  · rw [hvalue, hdecode]
  · rw [htext, hvalue, Json.plainText_reread fun v hv => (hsound v hv).fits]

end NodeRow

namespace Store

variable {tokens : Tokenizer} {s s' : Store}

/-- One document for each public id and type. -/
structure DocumentsSound (s : Store) : Prop where
  documentIds : s.documents.Numbered (·.id)
  documentKeys : (s.documents.rows.map fun row => (row.publicId, row.type)).Nodup

structure QueueSound (s : Store) : Prop where
  queueIds : s.queue.Numbered (·.id)
  letterIds : s.deadLetters.Numbered (·.id)

/-- One node and one space for each public id; pairs and references lead to rows. -/
structure GraphSound (tokens : Tokenizer) (s : Store) : Prop where
  nodeIds : s.nodes.Numbered (·.id)
  nodeKeys : (s.nodes.rows.map (·.publicId)).Nodup
  derived : ∀ row ∈ s.nodes.rows, row.Derived tokens
  references : ∀ row ∈ s.nodes.rows, s.isSoundReference row.editorDocument = true ∧
    s.isSoundReference row.graphDocument = true
  spaceIds : s.spaces.Numbered (·.id)
  spaceKeys : (s.spaces.rows.map (·.publicId)).Nodup
  edgeEnds : ∀ pair ∈ s.edges, s.hasNodeId pair.1 = true ∧ s.hasNodeId pair.2 = true
  liveEnds : ∀ pair ∈ s.live, s.hasSpaceId pair.1 = true ∧ s.hasNodeId pair.2 = true

structure Sound (tokens : Tokenizer) (s : Store) : Prop extends
  DocumentsSound s, QueueSound s, GraphSound tokens s

theorem sound_empty (tokens : Tokenizer) : Sound tokens {} where
  documentIds := Table.numbered_empty
  documentKeys := List.nodup_nil
  queueIds := Table.numbered_empty
  letterIds := Table.numbered_empty
  nodeIds := Table.numbered_empty
  nodeKeys := List.nodup_nil
  derived := fun _ h => absurd h List.not_mem_nil
  references := fun _ h => absurd h List.not_mem_nil
  spaceIds := Table.numbered_empty
  spaceKeys := List.nodup_nil
  edgeEnds := fun _ h => absurd h List.not_mem_nil
  liveEnds := fun _ h => absurd h List.not_mem_nil

theorem hasNodeId_iff {id : ℤ} : s.hasNodeId id = true ↔ ∃ row ∈ s.nodes.rows, row.id = id := by
  simp [hasNodeId, Table.any]

theorem hasNode_iff {p : String} : s.hasNode p = true ↔ ∃ row ∈ s.nodes.rows, row.publicId = p := by
  simp [hasNode, Table.any]

theorem hasSpaceId_iff {id : ℤ} : s.hasSpaceId id = true ↔ ∃ row ∈ s.spaces.rows, row.id = id := by
  simp [hasSpaceId, Table.any]

theorem hasDocumentId_iff {id : ℤ} :
    s.hasDocumentId id = true ↔ ∃ row ∈ s.documents.rows, row.id = id := by
  simp [hasDocumentId, Table.any]

theorem isSoundReference_iff {ref : Option ℤ} :
    s.isSoundReference ref = true ↔ ∀ id ∈ ref, s.hasDocumentId id = true := by
  cases ref <;> simp [isSoundReference]

theorem GraphSound.nodeRow?_eq_some (h : s.GraphSound tokens) {p : String} {row : NodeRow} :
    s.nodeRow? p = some row ↔ row ∈ s.nodes.rows ∧ row.publicId = p :=
  find?_key_eq_some h.nodeKeys

theorem nodeRow?_eq_none {p : String} : s.nodeRow? p = none ↔ s.hasNode p = false := by
  unfold nodeRow? Table.find?
  rw [find?_key_eq_none, ← Bool.not_eq_true, hasNode_iff, List.mem_map]

theorem GraphSound.space?_eq_some (h : s.GraphSound tokens) {p : String} {space : Space} :
    s.space? p = some space ↔ space ∈ s.spaces.rows ∧ space.publicId = p :=
  find?_key_eq_some h.spaceKeys

theorem DocumentsSound.document?_eq_some (h : s.DocumentsSound) {p type : String}
    {row : DocumentRow} :
    s.document? p type = some row ↔
      row ∈ s.documents.rows ∧ row.publicId = p ∧ row.type = type := by
  have hkey := @find?_key_eq_some DocumentRow (String × String) _
    (fun row => (row.publicId, row.type)) s.documents.rows h.documentKeys (p, type) row
  simp only [Prod.mk.injEq] at hkey
  rw [← hkey]
  unfold document? Table.find?
  simp only [Bool.decide_and]

theorem documentId?_isSound {p : String} {type : DocumentType} :
    s.isSoundReference (s.documentId? p type) = true := by
  rw [isSoundReference_iff]
  intro id hid
  obtain ⟨row, hrow, rfl⟩ := Option.map_eq_some_iff.mp hid
  exact hasDocumentId_iff.mpr ⟨row, List.mem_of_find?_eq_some hrow, rfl⟩

/-- New documents do no harm to a graph, nor does anything outside it. -/
theorem GraphSound.mono (h : s.GraphSound tokens) (hnodes : s'.nodes = s.nodes)
    (hedges : s'.edges = s.edges) (hspaces : s'.spaces = s.spaces) (hlive : s'.live = s.live)
    (hdocuments : ∀ id, s.hasDocumentId id = true → s'.hasDocumentId id = true) :
    s'.GraphSound tokens := by
  have hrefs : ∀ ref, s.isSoundReference ref = true → s'.isSoundReference ref = true := by
    intro ref href
    rw [isSoundReference_iff] at href ⊢
    exact fun id hid => hdocuments id (href id hid)
  have hnodeId : ∀ id, s'.hasNodeId id = s.hasNodeId id := by
    intro id
    unfold hasNodeId
    rw [hnodes]
  have hspaceId : ∀ id, s'.hasSpaceId id = s.hasSpaceId id := by
    intro id
    unfold hasSpaceId
    rw [hspaces]
  refine ⟨hnodes ▸ h.nodeIds, hnodes ▸ h.nodeKeys, hnodes ▸ h.derived, ?_, hspaces ▸ h.spaceIds,
    hspaces ▸ h.spaceKeys, ?_, ?_⟩
  · rw [hnodes]
    exact fun row hrow => ⟨hrefs _ (h.references row hrow).1, hrefs _ (h.references row hrow).2⟩
  · rw [hedges]
    intro pair hpair
    rw [hnodeId, hnodeId]
    exact h.edgeEnds pair hpair
  · rw [hlive]
    intro pair hpair
    rw [hspaceId, hnodeId]
    exact h.liveEnds pair hpair

theorem GraphSound.congr (h : s.GraphSound tokens) (hnodes : s'.nodes = s.nodes)
    (hedges : s'.edges = s.edges) (hspaces : s'.spaces = s.spaces) (hlive : s'.live = s.live)
    (hdocuments : s'.documents = s.documents) : s'.GraphSound tokens := by
  refine h.mono hnodes hedges hspaces hlive fun id hid => ?_
  unfold hasDocumentId at hid ⊢
  rw [hdocuments]
  exact hid

theorem DocumentsSound.congr (h : s.DocumentsSound) (hdocuments : s'.documents = s.documents) :
    s'.DocumentsSound :=
  ⟨hdocuments ▸ h.documentIds, hdocuments ▸ h.documentKeys⟩

/-- Another graph, and the same documents, events and letters. -/
theorem Sound.withGraph (h : s.Sound tokens) (hgraph : s'.GraphSound tokens)
    (hdocuments : s'.documents = s.documents) (hqueue : s'.queue = s.queue)
    (hletters : s'.deadLetters = s.deadLetters) : s'.Sound tokens :=
  ⟨h.toDocumentsSound.congr hdocuments, ⟨hqueue ▸ h.queueIds, hletters ▸ h.letterIds⟩, hgraph⟩

theorem Sound.congr (h : s.Sound tokens) (hdocuments : s'.documents = s.documents)
    (hqueue : s'.queue = s.queue) (hletters : s'.deadLetters = s.deadLetters)
    (hnodes : s'.nodes = s.nodes) (hedges : s'.edges = s.edges) (hspaces : s'.spaces = s.spaces)
    (hlive : s'.live = s.live) : s'.Sound tokens :=
  ⟨h.toDocumentsSound.congr hdocuments, ⟨hqueue ▸ h.queueIds, hletters ▸ h.letterIds⟩,
    h.toGraphSound.congr hnodes hedges hspaces hlive hdocuments⟩

/-- Changing the members of spaces keeps a store sound if the new pairs lead to rows. -/
theorem GraphSound.withLive (h : s.GraphSound tokens) {live : List (ℤ × ℤ)}
    (hlive : ∀ pair ∈ live, s.hasSpaceId pair.1 = true ∧ s.hasNodeId pair.2 = true) :
    { s with live }.GraphSound tokens :=
  ⟨h.nodeIds, h.nodeKeys, h.derived, h.references, h.spaceIds, h.spaceKeys, h.edgeEnds, hlive⟩

end Store
end NodeGraph
