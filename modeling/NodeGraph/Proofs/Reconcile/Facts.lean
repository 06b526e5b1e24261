import NodeGraph.Proofs.Reflection
import NodeGraph.Proofs.Timeless

/-!
Plans node by node: what a plan makes of a node depends on that node, on the documents and on which
spaces there are, and on no other node.
-/
namespace NodeGraph

/-- The columns of a node that are not derived and no numbers or times of its row. -/
structure NodeFacts where
  kind : String
  title : String := ""
  content : Option String := none
  removed : Bool := false
  editorDocument : Option ℤ := none
  graphDocument : Option ℤ := none
  deriving DecidableEq

/-- What a plan depends on besides the nodes. -/
structure Surroundings where
  documentId? : String → DocumentType → Option ℤ
  hasSpace : String → Bool

def NodeRow.facts (row : NodeRow) : NodeFacts :=
  { row with }

/-- A space but for the time of its last update. -/
def Space.unrevised (space : Space) : Space :=
  { space with updatedAt := 0 }

namespace Store

def surroundings (s : Store) : Surroundings where
  documentId? := s.documentId?
  hasSpace p := (s.space? p).isSome

/-- The facts of the node of a public id. -/
def facts? (s : Store) (q : String) : Option NodeFacts :=
  (s.nodeRow? q).map NodeRow.facts

end Store

namespace NodeFacts

variable {r : Surroundings} {q : String}

def blank (kind : NodeKind) : NodeFacts where
  kind := kind.name

/-- With the documents that a node lacks. -/
def attached (r : Surroundings) (q : String) (facts : NodeFacts) : NodeFacts :=
  { facts with
    editorDocument := facts.editorDocument.or (r.documentId? q .editor)
    graphDocument := facts.graphDocument.or (r.documentId? q .graph) }

/-- The text of a content that is read and written anew. -/
def rewritten (content : Option String) : Option String :=
  match decodePayload content with
  | .ok value => value.map Json.compact
  | .error _ => none

/-- With the graph document of a type if there is one and the node lacks any, its content written
anew. -/
def documented (r : Surroundings) (q : String) (type : DocumentType) (facts : NodeFacts) :
    NodeFacts :=
  match r.documentId? q type with
  | none => facts
  | some id =>
    if facts.graphDocument.isNone then
      { facts with graphDocument := some id, content := rewritten facts.content }
    else facts

/-- With a title and a content where they are given. -/
def written (title : Option String) (content : Option (Option String)) (facts : NodeFacts) :
    NodeFacts :=
  { facts with title := title.getD facts.title, content := content.getD facts.content }

@[simp] theorem written_none (facts : NodeFacts) : facts.written none none = facts := rfl

end NodeFacts

namespace Plan

/-- A plan needs the node of a public id to be there. -/
def asks (r : Surroundings) (q : String) : Plan → Bool
  | editor p _ => q = p
  | space p titles => r.hasSpace p && (Keyed.get? q titles).isSome
  | graph p _ _ children => q = p || q ∈ children
  | ignore _ => false

/-- The node that a plan starts from if none is there. -/
def seed (r : Surroundings) (q : String) : Plan → NodeFacts
  | space _ _ => (NodeFacts.blank .default).attached r q
  | graph p _ kind _ => .blank (if q = p then kind else .default)
  | _ => .blank .default

/-- The node with the documents that a plan has it refer to. -/
def attach (r : Surroundings) (q : String) : Plan → NodeFacts → NodeFacts
  | editor p _, facts => if q = p then facts.attached r q else facts
  | graph p type _ _, facts => if q = p then facts.documented r q type else facts
  | _, facts => facts

/-- The title that a plan gives a node. -/
def titleFor? (r : Surroundings) (q : String) : Plan → Option String
  | space p titles => if r.hasSpace p then Keyed.get? q titles else none
  | _ => none

/-- The content, if not none, that a plan gives a node. -/
def contentFor? (q : String) : Plan → Option (Option String)
  | editor p content => if q = p then some ((Reconcile.contentOf content).map Json.compact) else none
  | _ => none

/-- What a plan makes of the node of a public id, there or not. -/
def touch (r : Surroundings) (q : String) (plan : Plan) (facts : Option NodeFacts) :
    Option NodeFacts :=
  if plan.asks r q then
    some ((plan.attach r q (facts.getD (plan.seed r q))).written (plan.titleFor? r q)
      (plan.contentFor? q))
  else facts

/-- What several plans make of a node, one after the other. -/
def touchAll (r : Surroundings) (q : String) (plans : List Plan) (facts : Option NodeFacts) :
    Option NodeFacts :=
  plans.foldl (fun facts plan => plan.touch r q facts) facts

theorem touchAll_concat (r : Surroundings) (q : String) (plans : List Plan) (plan : Plan)
    (facts : Option NodeFacts) :
    touchAll r q (plans ++ [plan]) facts = plan.touch r q (touchAll r q plans facts) :=
  List.foldl_append

theorem touch_editor (r : Surroundings) (q p : String) (content : Json)
    (facts : Option NodeFacts) :
    (editor p content).touch r q facts =
      if q = p then
        some (((facts.getD (.blank .default)).attached r q).written none
          (some ((Reconcile.contentOf content).map Json.compact)))
      else facts := by
  by_cases hq : q = p <;> simp [touch, asks, seed, attach, titleFor?, contentFor?, hq]

theorem touch_space {r : Surroundings} {p : String} (h : r.hasSpace p = true) (q : String)
    (titles : Keyed String) (facts : Option NodeFacts) :
    (space p titles).touch r q facts =
      match Keyed.get? q titles with
      | some title =>
        some ((facts.getD ((NodeFacts.blank .default).attached r q)).written (some title) none)
      | none => facts := by
  cases hlisted : Keyed.get? q titles <;>
    simp [touch, asks, seed, attach, titleFor?, contentFor?, h, hlisted]

theorem touch_graph (r : Surroundings) (q p : String) (type : DocumentType) (kind : NodeKind)
    (children : List String) (facts : Option NodeFacts) :
    (graph p type kind children).touch r q facts =
      if q = p then some ((facts.getD (.blank kind)).documented r q type)
      else if q ∈ children then some (facts.getD (.blank .default))
      else facts := by
  by_cases hq : q = p
  · simp [touch, asks, seed, attach, titleFor?, contentFor?, hq]
  · by_cases hchild : q ∈ children <;>
      simp [touch, asks, seed, attach, titleFor?, contentFor?, hq, hchild]

/-- A plan puts one node below another. -/
def Links (a b : String) : Plan → Prop
  | graph p _ _ children => a = p ∧ b ∈ children ∧ b ≠ p
  | _ => False

/-- The members that a plan gives a space. -/
def membersOf? (r : Surroundings) (p : String) : Plan → Option (List String)
  | space p' titles => if p' = p ∧ r.hasSpace p = true then some titles.keys else none
  | _ => none

/-- The row of a space after a plan, the time of its last update aside. -/
def give (r : Surroundings) (plan : Plan) (row : Space) : Space :=
  match plan with
  | space p _ =>
    if row.publicId = p then { row with document := row.document.or (r.documentId? p .space) }
    else row
  | _ => row

/-- The row of a space with the document that it lacks. -/
def given (r : Surroundings) (row : Space) : Space :=
  { row with document := row.document.or (r.documentId? row.publicId .space) }

theorem give_cases (r : Surroundings) (plan : Plan) (row : Space) :
    plan.give r row = row ∨ plan.give r row = given r row := by
  cases plan with
  | space p titles =>
    unfold give
    by_cases hkey : row.publicId = p
    · right
      subst hkey
      exact if_pos rfl
    · exact Or.inl (if_neg hkey)
  | _ => exact Or.inl rfl

/-- The row of a space after several plans. -/
def giveAll (r : Surroundings) (plans : List Plan) (row : Space) : Space :=
  plans.foldl (fun row plan => plan.give r row) row

theorem giveAll_concat (r : Surroundings) (plans : List Plan) (plan : Plan) (row : Space) :
    giveAll r (plans ++ [plan]) row = plan.give r (giveAll r plans row) :=
  List.foldl_append

end Plan

namespace Store

variable {tokens : Tokenizer} {env : Env} {s t : Store} {p q : String}

theorem nodeRow?_mapNodes {f : NodeRow → NodeRow} (hf : ∀ row, (f row).publicId = row.publicId)
    (s : Store) (q : String) : (s.mapNodes f).nodeRow? q = (s.nodeRow? q).map f :=
  Table.find?_map (fun row => by rw [hf]) s.nodes

theorem publicId_of_nodeRow? {row : NodeRow} (h : s.nodeRow? q = some row) : row.publicId = q := by
  simpa using List.find?_some h

theorem facts?_of_nodes (h : t.nodes = s.nodes) (q : String) : t.facts? q = s.facts? q := by
  unfold facts? nodeRow?
  rw [h]

theorem facts?_eq_none : s.facts? q = none ↔ s.hasNode q = false := by
  unfold facts?
  rw [Option.map_eq_none_iff, nodeRow?_eq_none]

/-- Changing the node of one public id changes the facts of that node. -/
theorem facts?_changeNode {f : NodeRow → NodeRow} {g : NodeFacts → NodeFacts}
    (hf : ∀ row, (f row).publicId = row.publicId)
    (hg : ∀ row, row.publicId = p → (f row).facts = g row.facts) (s : Store) (q : String) :
    (s.changeNode p f).facts? q = if q = p then (s.facts? q).map g else s.facts? q := by
  unfold facts? changeNode
  rw [nodeRow?_mapNodes]
  · cases hrow : s.nodeRow? q with
    | none => simp
    | some row =>
      have hkey := publicId_of_nodeRow? hrow
      by_cases hq : q = p
      · simp [hq, hkey.trans hq, hg row (hkey.trans hq)]
      · have hne : row.publicId ≠ p := hkey ▸ hq
        simp [hq, hne]
  · intro row
    split
    · exact hf row
    · rfl

theorem facts?_materialize (env : Env) (s : Store) (p : String) (kind : NodeKind) (q : String) :
    (s.materialize env p kind).facts? q =
      if q = p then some ((s.facts? q).getD (.blank kind)) else s.facts? q := by
  unfold materialize
  by_cases hnode : s.hasNode p = true
  · rw [if_pos hnode]
    by_cases hq : q = p
    · subst hq
      cases hfacts : s.facts? q with
      | none =>
        rw [facts?_eq_none] at hfacts
        exact absurd (hnode.symm.trans hfacts) (by simp)
      | some facts => simp
    · rw [if_neg hq]
  · rw [if_neg hnode]
    have hfree : s.nodeRow? p = none := nodeRow?_eq_none.mpr ((Bool.not_eq_true _).mp hnode)
    unfold facts? nodeRow? Table.find?
    rw [Table.rows_add, List.find?_append]
    by_cases hq : q = p
    · subst hq
      unfold nodeRow? Table.find? at hfree
      rw [hfree, if_pos rfl]
      simp [Nodes.blank, Node.refresh, Node.encode, NodeRow.facts, NodeFacts.blank]
    · rw [if_neg hq]
      have hne : p ≠ q := Ne.symm hq
      simp [Nodes.blank, Node.refresh, Node.encode, hne]

end Store

namespace Reconcile

open Store

variable {env : Env} {s : Store} {p q : String}

/-! ### Documents and spaces -/

theorem surroundings_carriedOut (env : Env) (plan : Plan) (s : Store) :
    (carriedOut env plan s).surroundings = s.surroundings := by
  have hdocuments : (carriedOut env plan s).documentId? = s.documentId? := by
    funext p type
    exact documentId?_of_documents (sameRecords_carriedOut env s plan).documents p type
  have hspaces : (fun p => ((carriedOut env plan s).space? p).isSome) =
      fun p => (s.space? p).isSome := by
    funext p
    rw [Bool.eq_iff_iff, ← Option.ne_none_iff_isSome, ← Option.ne_none_iff_isSome]
    unfold space? Table.find?
    rw [ne_eq, ne_eq, find?_key_eq_none, find?_key_eq_none, publicIds_spaces_carriedOut]
  unfold surroundings
  rw [hdocuments, hspaces]

/-! ### Nodes -/

theorem facts?_withContent (content : Json) :
    (withContent env p content s).facts? q =
      (Plan.editor p content).touch s.surroundings q (s.facts? q) := by
  have hchange := facts?_changeNode (p := p)
    (f := fun row => (row.attach s .graph).rewrite env (contentOf content))
    (g := fun facts => (facts.attached s.surroundings p).written none
      (some ((contentOf content).map Json.compact)))
    (fun _ => rfl) (fun row hkey => by subst hkey; rfl) (s.materialize env p .default) q
  rw [facts?_materialize] at hchange
  refine hchange.trans ?_
  rw [Plan.touch_editor]
  by_cases hq : q = p
  · simp [hq]
  · simp [hq]

theorem facts_documented {id : ℤ} {type : DocumentType} (hid : s.documentId? p type = some id)
    (row : NodeRow) :
    (documented env id row).facts = row.facts.documented s.surroundings p type := by
  have hfound : s.surroundings.documentId? p type = some id := hid
  unfold documented NodeFacts.documented
  rw [hfound]
  dsimp only
  have hnone : row.facts.graphDocument = row.graphDocument := rfl
  rw [hnone]
  by_cases hempty : row.graphDocument.isNone = true
  · rw [if_pos hempty, if_pos hempty]
    unfold NodeRow.rewrite NodeRow.facts NodeRow.contentValue NodeFacts.rewritten
    dsimp only
    cases decodePayload row.content <;> rfl
  · rw [if_neg hempty, if_neg hempty]

theorem facts?_withGraphDocument (type : DocumentType) :
    (withGraphDocument env p type s).facts? q =
      if q = p then (s.facts? q).map (·.documented s.surroundings q type) else s.facts? q := by
  unfold withGraphDocument
  cases hid : s.documentId? p type with
  | none =>
    have hmissing : s.surroundings.documentId? p type = none := hid
    by_cases hq : q = p
    · subst hq
      have hsame : (fun facts : NodeFacts => facts.documented s.surroundings q type) = id := by
        funext facts
        unfold NodeFacts.documented
        rw [hmissing]
        rfl
      rw [if_pos rfl, hsame, Option.map_id, id]
    · rw [if_neg hq]
  | some id =>
    have hkey : ∀ row, (documented env id row).publicId = row.publicId := publicId_documented id
    have hchange := facts?_changeNode (p := p) hkey (fun row _ => facts_documented hid row) s q
    refine hchange.trans ?_
    by_cases hq : q = p
    · rw [if_pos hq, if_pos hq, hq]
    · rw [if_neg hq, if_neg hq]

theorem facts?_withChild (child : String) :
    (withChild env p s child).facts? q =
      if q = child ∧ child ≠ p then some ((s.facts? q).getD (.blank .default))
      else s.facts? q := by
  unfold withChild
  by_cases hself : child = p
  · rw [if_pos hself, if_neg fun h => h.2 hself]
  · rw [if_neg hself]
    rw [facts?_of_nodes (nodes_withEdge p child _), facts?_materialize]
    simp [hself]

theorem facts?_foldl_withChild (children : List String) :
    (children.foldl (withChild env p) s).facts? q =
      if q ≠ p ∧ q ∈ children then some ((s.facts? q).getD (.blank .default))
      else s.facts? q := by
  induction children generalizing s with
  | nil => simp
  | cons child rest ih =>
    rw [List.foldl_cons, ih, facts?_withChild]
    by_cases hq : q = child
    · subst hq
      by_cases hself : q = p
      · simp [hself]
      · simp [hself]
    · simp [hq]

theorem facts?_withChildren (type : DocumentType) (kind : NodeKind) (children : List String) :
    (withChildren env p type kind children s).facts? q =
      (Plan.graph p type kind children).touch s.surroundings q (s.facts? q) := by
  have hdocuments : (s.materialize env p kind).surroundings.documentId? =
      s.surroundings.documentId? := by
    funext p' type'
    exact documentId?_of_documents (documents_materialize p kind) p' type'
  unfold withChildren
  rw [facts?_foldl_withChild, facts?_withGraphDocument, facts?_materialize, Plan.touch_graph]
  unfold NodeFacts.documented
  rw [hdocuments]
  by_cases hq : q = p
  · subst hq
    simp
  · simp [hq]

theorem facts_titled (titles : Keyed String) (row : NodeRow) :
    (titled env titles row).facts =
      match Keyed.get? row.publicId titles with
      | some title => { row.facts with title }
      | none => row.facts := by
  unfold titled
  cases Keyed.get? row.publicId titles with
  | none => rfl
  | some title =>
    dsimp only
    by_cases hsame : title = row.title
    · rw [if_pos hsame, hsame]
      rfl
    · rw [if_neg hsame]
      rfl

theorem facts?_withMembers {space : Space} {titles : Keyed String}
    (ht : (withMembers env space titles s).GraphSound env.tokens) :
    (withMembers env space titles s).facts? q =
      match Keyed.get? q titles with
      | some title =>
        some (((s.facts? q).getD ((NodeFacts.blank .default).attached s.surroundings q)).written
          (some title) none)
      | none => s.facts? q := by
  have hrows := rows_withMembers env s space titles
  cases hrow : s.nodeRow? q with
  | some row =>
    have hkey := publicId_of_nodeRow? hrow
    have hmem : titled env titles row ∈ (withMembers env space titles s).nodes.rows := by
      rw [hrows]
      exact List.mem_append_left _ (List.mem_map_of_mem (List.mem_of_find?_eq_some hrow))
    have hnow := ht.nodeRow?_eq_some.mpr ⟨hmem, (publicId_titled titles row).trans hkey⟩
    unfold facts?
    rw [hnow, hrow, Option.map_some, Option.map_some, facts_titled, hkey]
    cases Keyed.get? q titles <;> rfl
  | none =>
    have hfree := nodeRow?_eq_none.mp hrow
    cases hlisted : Keyed.get? q titles with
    | some title =>
      have hmissing : (q, title) ∈ titles.filter fun entry => !s.hasNode entry.1 :=
        List.mem_filter.mpr ⟨Keyed.mem_of_get? hlisted, by simp [hfree]⟩
      obtain ⟨i, hi, hentry⟩ := List.mem_iff_getElem.mp hmissing
      have hmade : memberRow env s q title (s.nodes.nextId + i) ∈
          (withMembers env space titles s).nodes.rows := by
        rw [hrows]
        refine List.mem_append_right _ (List.mem_mapIdx.mpr ⟨i, hi, ?_⟩)
        rw [hentry]
      have hkey : (memberRow env s q title (s.nodes.nextId + i)).publicId = q := rfl
      have hnow := ht.nodeRow?_eq_some.mpr ⟨hmade, hkey⟩
      unfold facts?
      rw [hnow, hrow]
      rfl
    | none =>
      have hnot : q ∉ titles.keys := Keyed.get?_eq_none.mp hlisted
      have hstill : (withMembers env space titles s).hasNode q = false := by
        rw [← Bool.not_eq_true, hasNode_iff, hrows]
        rintro ⟨row, hmem, hkey⟩
        rcases List.mem_append.mp hmem with hold | hnew
        · obtain ⟨old, hthere, rfl⟩ := List.mem_map.mp hold
          rw [publicId_titled] at hkey
          rw [hasNode_iff.mpr ⟨old, hthere, hkey⟩] at hfree
          exact absurd hfree (by simp)
        · obtain ⟨i, hi, rfl⟩ := List.mem_mapIdx.mp hnew
          exact hnot (hkey ▸ List.mem_map_of_mem (List.mem_filter.mp (List.getElem_mem hi)).1)
      have hgone : s.facts? q = none := facts?_eq_none.mpr hfree
      rw [facts?_eq_none.mpr hstill, hgone]

/-- What a plan makes of a node depends on that node alone. -/
theorem facts?_carriedOut (quiet : env.rivals = {}) (h : s.GraphSound env.tokens) {plan : Plan}
    (hplan : plan.Sound) (hfits : plan.Fits s) (q : String) :
    (carriedOut env plan s).facts? q = plan.touch s.surroundings q (s.facts? q) := by
  cases plan with
  | editor p content => exact facts?_withContent content
  | space p titles =>
    cases hspace : s.space? p with
    | none =>
      have hlacked : s.surroundings.hasSpace p = false := by
        unfold surroundings
        simp [hspace]
      rw [carriedOut_of_missing hspace]
      simp [Plan.touch, Plan.asks, hlacked]
    | some row =>
      have hthere : s.surroundings.hasSpace p = true := by
        unfold surroundings
        simp [hspace]
      rw [carriedOut_space (spaceFor?_eq_some.mpr ⟨hspace, hfits⟩),
        facts?_withMembers (space_eq quiet h hplan hspace hfits).2, Plan.touch_space hthere]
  | graph p type kind children => exact facts?_withChildren type kind children
  | ignore reason => rfl

/-! ### Children -/

/-- The children of a node are those that its edges lead to. -/
theorem isChild_congr {tokens : Tokenizer} {t : Store} {a b : String} (hs : s.GraphSound tokens)
    (ht : t.GraphSound tokens) (h : Extends s t) (hedges : t.edges = s.edges) :
    t.IsChild a b ↔ s.IsChild a b := by
  constructor
  · rintro ⟨parent, hparent, hpkey, child, hchild, hckey, hpair⟩
    rw [hedges] at hpair
    obtain ⟨hpId, hcId⟩ := hs.edgeEnds _ hpair
    obtain ⟨oldParent, holdParent, hpid⟩ := hasNodeId_iff.mp hpId
    obtain ⟨oldChild, holdChild, hcid⟩ := hasNodeId_iff.mp hcId
    obtain ⟨parent', hparent', hpid', hpkey'⟩ := h.nodes oldParent holdParent
    obtain ⟨child', hchild', hcid', hckey'⟩ := h.nodes oldChild holdChild
    obtain rfl := ht.nodeIds.eq_of_id_eq hparent' hparent (hpid'.trans hpid)
    obtain rfl := ht.nodeIds.eq_of_id_eq hchild' hchild (hcid'.trans hcid)
    refine ⟨oldParent, holdParent, hpkey'.symm.trans hpkey, oldChild, holdChild,
      hckey'.symm.trans hckey, ?_⟩
    rw [hpid, hcid]
    exact hpair
  · exact fun hchild => hchild.mono h

theorem isChild_withEdge {tokens : Tokenizer} (h : s.GraphSound tokens) {child a b : String}
    (hchild : (withEdge p child s).IsChild a b) : s.IsChild a b ∨ (a = p ∧ b = child) := by
  unfold withEdge at hchild
  split at hchild
  · rename_i x y hx hy
    obtain ⟨parent, hparent, hpkey, row, hrow, hkey, hpair⟩ := hchild
    obtain ⟨hxmem, hxkey⟩ := h.nodeRow?_eq_some.mp hx
    obtain ⟨hymem, hykey⟩ := h.nodeRow?_eq_some.mp hy
    rcases mem_addPair.mp hpair with hnew | hold
    · obtain ⟨hpid, hid⟩ := Prod.mk.inj hnew
      obtain rfl := h.nodeIds.eq_of_id_eq hparent hxmem hpid
      obtain rfl := h.nodeIds.eq_of_id_eq hrow hymem hid
      exact Or.inr ⟨hpkey.symm.trans hxkey, hkey.symm.trans hykey⟩
    · exact Or.inl ⟨parent, hparent, hpkey, row, hrow, hkey, hold⟩
  · exact Or.inl hchild

theorem edges_materialize (env : Env) (s : Store) (p : String) (kind : NodeKind) :
    (s.materialize env p kind).edges = s.edges := by
  unfold Store.materialize
  split <;> rfl

theorem isChild_materialize (h : s.GraphSound env.tokens) (kind : NodeKind) {a b : String} :
    (s.materialize env p kind).IsChild a b ↔ s.IsChild a b :=
  isChild_congr h (h.materialize p kind) (grows_materialize env s p kind).toExtends
    (edges_materialize env s p kind)

theorem isChild_of_foldl_withChild (h : s.GraphSound env.tokens) (children : List String)
    {a b : String} (hchild : (children.foldl (withChild env p) s).IsChild a b) :
    s.IsChild a b ∨ (a = p ∧ b ∈ children ∧ b ≠ p) := by
  induction children generalizing s with
  | nil => exact Or.inl hchild
  | cons child rest ih =>
    rcases ih (withChild_sound h child) hchild with hbefore | ⟨ha, hb, hne⟩
    · unfold withChild at hbefore
      by_cases hself : child = p
      · rw [if_pos hself] at hbefore
        exact Or.inl hbefore
      · rw [if_neg hself] at hbefore
        rcases isChild_withEdge (h.materialize child .default) hbefore with hold | ⟨ha, hb⟩
        · exact Or.inl ((isChild_materialize h .default).mp hold)
        · exact Or.inr ⟨ha, hb ▸ List.mem_cons_self, hb ▸ hself⟩
    · exact Or.inr ⟨ha, List.mem_cons_of_mem child hb, hne⟩

theorem isChild_withGraphDocument (h : s.GraphSound env.tokens) (type : DocumentType)
    {a b : String} : (withGraphDocument env p type s).IsChild a b ↔ s.IsChild a b := by
  refine isChild_congr h (withGraphDocument_sound h type)
    (grows_withGraphDocument h p type).toExtends ?_
  unfold withGraphDocument
  split <;> rfl

/-- A plan only adds children, and those it adds are the listed ones. -/
theorem isChild_carriedOut (quiet : env.rivals = {}) (h : s.GraphSound env.tokens) {plan : Plan}
    (hplan : plan.Sound) {a b : String} :
    (carriedOut env plan s).IsChild a b ↔ s.IsChild a b ∨ plan.Links a b := by
  cases plan with
  | editor p content =>
    have hsame : (carriedOut env (.editor p content) s).IsChild a b ↔ s.IsChild a b :=
      isChild_congr h (withContent_sound h hplan) (extends_withContent env s p content)
        (edges_materialize env s p .default)
    rw [hsame]
    exact (or_iff_left not_false).symm
  | space p titles =>
    refine Iff.trans ?_ (or_iff_left not_false).symm
    cases hroom : spaceFor? p titles s with
    | none => rw [carriedOut_of_no_space hroom]
    | some space =>
      obtain ⟨hspace, hfits⟩ := spaceFor?_eq_some.mp hroom
      rw [carriedOut_space hroom]
      refine isChild_congr h (space_eq quiet h hplan hspace hfits).2
        (grows_withMembers env s space hplan).toExtends ?_
      unfold withMembers
      rw [withTitles_frame, withDocument_frame]
  | graph p type kind children =>
    have hmade := h.materialize p kind
    constructor
    · intro hchild
      rcases isChild_of_foldl_withChild (withGraphDocument_sound hmade type) children hchild with
        hold | hnew
      · exact Or.inl ((isChild_materialize h kind).mp ((isChild_withGraphDocument hmade type).mp hold))
      · exact Or.inr hnew
    · rintro (hold | ⟨rfl, hb, hne⟩)
      · exact hold.mono (grows_withChildren h p type kind children).toExtends
      · exact isChild_withChildren h type kind children b hb hne
  | ignore reason => exact (or_iff_left not_false).symm

/-! ### Members -/

/-- A plan gives one space its members or leaves them. -/
theorem isMember_carriedOut_iff (quiet : env.rivals = {}) (h : s.GraphSound env.tokens)
    {plan : Plan} (hplan : plan.Sound) (hfits : plan.Fits s) (p q : String) :
    (carriedOut env plan s).IsMember p q ↔
      match plan.membersOf? s.surroundings p with
      | some keys => q ∈ keys
      | none => s.IsMember p q := by
  cases plan with
  | editor p' content => exact isMember_withContent h hplan
  | space p' titles =>
    unfold Plan.membersOf?
    dsimp only
    cases hspace : s.space? p' with
    | none =>
      have hlacked : s.surroundings.hasSpace p' = false := by
        unfold surroundings
        simp [hspace]
      rw [carriedOut_of_missing hspace, if_neg]
      rintro ⟨rfl, hthere⟩
      rw [hlacked] at hthere
      exact Bool.false_ne_true hthere
    | some space =>
      have hthere : s.surroundings.hasSpace p' = true := by
        unfold surroundings
        simp [hspace]
      have ht := (space_eq quiet h hplan hspace hfits).2
      rw [carriedOut_space (spaceFor?_eq_some.mpr ⟨hspace, hfits⟩)]
      by_cases hkey : p' = p
      · subst hkey
        rw [if_pos ⟨rfl, hthere⟩]
        exact isMember_withMembers h ht hplan hspace
      · rw [if_neg fun hboth => hkey hboth.1]
        exact isMember_withMembers_of_ne h ht hplan hspace (Ne.symm hkey)
  | graph p' type kind children => exact isMember_withChildren h type kind children
  | ignore reason => exact Iff.rfl

/-! ### Spaces -/

theorem unrevised_spaces_of_kept {give : Space → Space}
    (h : ∀ row ∈ s.spaces.rows, give row.unrevised = row.unrevised) :
    (s.spaces.map Space.unrevised).map give = s.spaces.map Space.unrevised := by
  unfold Table.map
  dsimp only
  rw [List.map_map]
  exact congrArg (fun rows => ({ s.spaces with rows } : Table Space)) (List.map_congr_left h)

/-- The space of a plan is given the document that it lacks. -/
theorem spaces_withDocument (h : s.GraphSound env.tokens) {space : Space}
    (hspace : s.space? p = some space) (titles : Keyed String) :
    (Spaces.withDocument env space s).2.2.spaces.map Space.unrevised =
      (s.spaces.map Space.unrevised).map ((Plan.space p titles).give s.surroundings) := by
  obtain ⟨hmem, rfl⟩ := h.space?_eq_some.mp hspace
  unfold Spaces.withDocument
  split
  · rename_i id hnone hdocument
    unfold Table.map Table.update
    dsimp only
    rw [List.map_map, List.map_map]
    refine congrArg (fun rows => ({ s.spaces with rows } : Table Space))
      (List.map_congr_left fun row hrow => ?_)
    show (if decide (row.id = space.id) = true then _ else row).unrevised =
      if row.publicId = space.publicId then _ else row.unrevised
    by_cases hkey : row.publicId = space.publicId
    · obtain rfl := List.inj_on_of_nodup_map h.spaceKeys hrow hmem hkey
      have hfound : s.surroundings.documentId? row.publicId .space = some id := hdocument
      rw [if_pos (decide_eq_true rfl), if_pos rfl, hfound]
      unfold Space.unrevised
      rw [hnone]
      rfl
    · have hid : row.id ≠ space.id := fun heq =>
        hkey (congrArg Space.publicId (h.spaceIds.eq_of_id_eq hrow hmem heq))
      rw [if_neg (by simpa using hid), if_neg hkey]
  · rename_i hother
    refine (unrevised_spaces_of_kept fun row hrow => ?_).symm
    show (if row.publicId = space.publicId then _ else row.unrevised) = row.unrevised
    by_cases hkey : row.publicId = space.publicId
    · obtain rfl := List.inj_on_of_nodup_map h.spaceKeys hrow hmem hkey
      have hsame : row.document.or (s.documentId? row.publicId .space) = row.document := by
        cases hdocument : row.document with
        | some id => rfl
        | none =>
          cases hthere : s.documentId? row.publicId .space with
          | none => rfl
          | some id => exact absurd hthere (hother id hdocument)
      rw [if_pos rfl]
      exact congrArg (fun document => ({ row.unrevised with document } : Space)) hsame
    · exact if_neg hkey

/-- A plan gives one space the document that it lacks, and changes nothing else of any. -/
theorem spaces_carriedOut (h : s.GraphSound env.tokens) {plan : Plan} (hfits : plan.Fits s) :
    (carriedOut env plan s).spaces.map Space.unrevised =
      (s.spaces.map Space.unrevised).map (plan.give s.surroundings) := by
  cases plan with
  | editor p content =>
    have hsame : (carriedOut env (.editor p content) s).spaces = s.spaces := by
      show (s.materialize env p .default).spaces = s.spaces
      unfold Store.materialize
      split <;> rfl
    rw [hsame]
    exact (unrevised_spaces_of_kept fun _ _ => rfl).symm
  | space p titles =>
    cases hspace : s.space? p with
    | none =>
      rw [carriedOut_of_missing hspace]
      refine (unrevised_spaces_of_kept fun row hrow => ?_).symm
      have hne : row.publicId ≠ p := by
        rintro rfl
        unfold space? Table.find? at hspace
        rw [find?_key_eq_none] at hspace
        exact hspace (List.mem_map_of_mem hrow)
      exact if_neg hne
    | some space =>
      have hspaces : (carriedOut env (.space p titles) s).spaces =
          (Spaces.withDocument env space s).2.2.spaces := by
        rw [carriedOut_space (spaceFor?_eq_some.mpr ⟨hspace, hfits⟩)]
        unfold withMembers
        rw [withTitles_frame]
      rw [hspaces]
      exact spaces_withDocument h hspace titles
  | graph p type kind children =>
    have hsame : (carriedOut env (.graph p type kind children) s).spaces = s.spaces :=
      (withChildren_frame p type kind children s).2
    rw [hsame]
    exact (unrevised_spaces_of_kept fun _ _ => rfl).symm
  | ignore reason => exact (unrevised_spaces_of_kept fun _ _ => rfl).symm

end Reconcile
end NodeGraph
