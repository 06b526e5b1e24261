import NodeGraph.Proofs.Delivery

/-!
Events that are delivered again: the second time they pass through other states, but lead to the
same one, as far as contents are printed the way they are read.
-/
namespace NodeGraph

open Store

namespace Plan

variable {r : Surroundings} {q : String} {plan : Plan} {plans : List Plan}
  {facts facts' : NodeFacts}

/-! ### One node -/

/-- The node lacks no document that the plan has it refer to. -/
def Attached (r : Surroundings) (q : String) (facts : NodeFacts) : Plan → Prop
  | editor p _ => q = p →
    (facts.editorDocument = none → r.documentId? q .editor = none) ∧
      (facts.graphDocument = none → r.documentId? q .graph = none)
  | graph p type _ _ => q = p → facts.graphDocument = none → r.documentId? q type = none
  | _ => True

/-- The title that the last plan to give one gives. -/
def lastTitle? (r : Surroundings) (q : String) (plans : List Plan) : Option String :=
  plans.reverse.findSome? (·.titleFor? r q)

/-- The content that the last plan to give one gives. -/
def lastContent? (q : String) (plans : List Plan) : Option (Option String) :=
  plans.reverse.findSome? (·.contentFor? q)

/-- The node is as the plans leave it. -/
structure Settled (r : Surroundings) (q : String) (plans : List Plan) (facts : NodeFacts) :
    Prop where
  title : ∀ title, lastTitle? r q plans = some title → facts.title = title
  content : ∀ content, lastContent? q plans = some content → facts.content = content
  attached : ∀ plan ∈ plans, plan.Attached r q facts

theorem lastTitle?_concat (plans : List Plan) (plan : Plan) :
    lastTitle? r q (plans ++ [plan]) = (plan.titleFor? r q).or (lastTitle? r q plans) := by
  unfold lastTitle?
  rw [List.reverse_append, List.reverse_singleton, List.singleton_append, List.findSome?_cons]
  cases plan.titleFor? r q <;> rfl

theorem lastContent?_concat (plans : List Plan) (plan : Plan) :
    lastContent? q (plans ++ [plan]) = (plan.contentFor? q).or (lastContent? q plans) := by
  unfold lastContent?
  rw [List.reverse_append, List.reverse_singleton, List.singleton_append, List.findSome?_cons]
  cases plan.contentFor? q <;> rfl

theorem Attached.mono (h : plan.Attached r q facts)
    (heditor : facts'.editorDocument = none → facts.editorDocument = none)
    (hgraph : facts'.graphDocument = none → facts.graphDocument = none) :
    plan.Attached r q facts' := by
  cases plan with
  | editor p content => exact fun hq => ⟨(h hq).1 ∘ heditor, (h hq).2 ∘ hgraph⟩
  | graph p type kind children => exact fun hq => h hq ∘ hgraph
  | space => trivial
  | ignore => trivial

theorem attach_editor (p : String) (content : Json) (facts : NodeFacts) :
    (editor p content).attach r q facts = if q = p then facts.attached r q else facts := rfl

theorem attach_graph (p : String) (type : DocumentType) (kind : NodeKind) (children : List String)
    (facts : NodeFacts) :
    (graph p type kind children).attach r q facts =
      if q = p then facts.documented r q type else facts := rfl

theorem attach_of_attached (h : plan.Attached r q facts) : plan.attach r q facts = facts := by
  cases plan with
  | editor p content =>
    rw [attach_editor]
    by_cases hq : q = p
    · rw [if_pos hq]
      obtain ⟨heditor, hgraph⟩ := h hq
      obtain ⟨kind, title, content', removed, editorDocument, graphDocument⟩ := facts
      unfold NodeFacts.attached
      cases editorDocument <;> cases graphDocument <;> simp_all
    · exact if_neg hq
  | graph p type kind children =>
    rw [attach_graph]
    by_cases hq : q = p
    · rw [if_pos hq]
      have hgraph := h hq
      unfold NodeFacts.documented
      cases hid : r.documentId? q type with
      | none => rfl
      | some id =>
        rw [hid] at hgraph
        refine if_neg fun hnone => ?_
        exact nomatch hgraph (Option.isNone_iff_eq_none.mp hnone)
    · exact if_neg hq
  | space => rfl
  | ignore => rfl

theorem attached_attach (plan : Plan) (facts : NodeFacts) :
    plan.Attached r q (plan.attach r q facts) := by
  cases plan with
  | editor p content =>
    intro hq
    rw [attach_editor, if_pos hq]
    exact ⟨fun hnone => (Option.or_eq_none_iff.mp hnone).2,
      fun hnone => (Option.or_eq_none_iff.mp hnone).2⟩
  | graph p type kind children =>
    intro hq
    rw [attach_graph, if_pos hq]
    unfold NodeFacts.documented
    cases r.documentId? q type with
    | none => exact fun _ => rfl
    | some id => cases hgraph : facts.graphDocument <;> simp [hgraph]
  | space => trivial
  | ignore => trivial

/-- Looking for documents may write the content anew, and changes nothing else but documents. -/
theorem attach_frame (plan : Plan) (facts : NodeFacts) :
    (plan.attach r q facts).title = facts.title ∧
      ((plan.attach r q facts).content = facts.content ∨
        (plan.attach r q facts).content = NodeFacts.rewritten facts.content) ∧
      ((plan.attach r q facts).editorDocument = none → facts.editorDocument = none) ∧
      ((plan.attach r q facts).graphDocument = none → facts.graphDocument = none) := by
  have hsame : facts.title = facts.title ∧ (facts.content = facts.content ∨
      facts.content = NodeFacts.rewritten facts.content) ∧
      (facts.editorDocument = none → facts.editorDocument = none) ∧
      (facts.graphDocument = none → facts.graphDocument = none) :=
    ⟨rfl, Or.inl rfl, id, id⟩
  cases plan with
  | editor p content =>
    rw [attach_editor]
    split
    · exact ⟨rfl, Or.inl rfl, fun hnone => (Option.or_eq_none_iff.mp hnone).1,
        fun hnone => (Option.or_eq_none_iff.mp hnone).1⟩
    · exact hsame
  | graph p type kind children =>
    rw [attach_graph]
    unfold NodeFacts.documented
    split
    · split
      · exact hsame
      · split
        · exact ⟨rfl, Or.inr rfl, id, fun hnone => nomatch hnone⟩
        · exact hsame
    · exact hsame
  | space => exact hsame
  | ignore => exact hsame

theorem not_asked (h : plan.asks r q = false) :
    plan.titleFor? r q = none ∧ plan.contentFor? q = none ∧
      ∀ facts, plan.attach r q facts = facts := by
  cases plan with
  | editor p content =>
    have hq : q ≠ p := by simpa [asks] using h
    exact ⟨rfl, if_neg hq, fun _ => if_neg hq⟩
  | space p titles =>
    refine ⟨?_, rfl, fun _ => rfl⟩
    have hasked : (r.hasSpace p && (Keyed.get? q titles).isSome) = false := h
    show (if r.hasSpace p then Keyed.get? q titles else none) = none
    by_cases hspace : r.hasSpace p = true
    · rw [hspace, Bool.true_and, Option.isSome_eq_false_iff, Option.isNone_iff_eq_none] at hasked
      rw [if_pos hspace, hasked]
    · exact if_neg hspace
  | graph p type kind children =>
    have hq : q ≠ p := by
      rintro rfl
      simp [asks] at h
    exact ⟨rfl, rfl, fun _ => if_neg hq⟩
  | ignore => exact ⟨rfl, rfl, fun _ => rfl⟩

/-- What a plan makes of a node that is there. -/
theorem touch_some (plan : Plan) (facts : NodeFacts) :
    plan.touch r q (some facts) =
      some ((plan.attach r q facts).written (plan.titleFor? r q) (plan.contentFor? q)) := by
  unfold touch
  by_cases hasked : plan.asks r q = true
  · rw [if_pos hasked, Option.getD_some]
  · obtain ⟨htitle, hcontent, hattach⟩ := not_asked (Bool.not_eq_true _ |>.mp hasked)
    rw [if_neg hasked, htitle, hcontent, hattach, NodeFacts.written_none]

/-- Where a node is still not there, no plan needed it. -/
theorem not_asked_of_touchAll {facts : Option NodeFacts} (h : touchAll r q plans facts = none) :
    ∀ plan ∈ plans, plan.asks r q = false := by
  induction plans using List.reverseRecOn with
  | nil => exact fun plan hplan => absurd hplan List.not_mem_nil
  | append_singleton plans last ih =>
    rw [touchAll_concat] at h
    have hlast : last.asks r q = false := by
      cases hasked : last.asks r q with
      | false => rfl
      | true =>
        unfold touch at h
        rw [if_pos hasked] at h
        exact nomatch h
    have hbefore : touchAll r q plans facts = none := by
      unfold touch at h
      rwa [if_neg (by simp [hlast])] at h
    intro plan hplan
    rcases List.mem_append.mp hplan with hmem | hmem
    · exact ih hbefore plan hmem
    · rw [List.mem_singleton.mp hmem]
      exact hlast

theorem touchAll_of_not_asked (h : ∀ plan ∈ plans, plan.asks r q = false)
    (facts : Option NodeFacts) : touchAll r q plans facts = facts := by
  induction plans with
  | nil => rfl
  | cons plan rest ih =>
    have hkept : plan.touch r q facts = facts := if_neg (by simp [h plan List.mem_cons_self])
    show touchAll r q rest (plan.touch r q facts) = facts
    rw [hkept, ih fun other hother => h other (List.mem_cons_of_mem plan hother)]

theorem settled_of_not_asked (h : ∀ plan ∈ plans, plan.asks r q = false) (facts : NodeFacts) :
    Settled r q plans facts where
  title title hlast := by
    obtain ⟨plan, hplan, hgiven⟩ := List.exists_of_findSome?_eq_some hlast
    rw [(not_asked (h plan (List.mem_reverse.mp hplan))).1] at hgiven
    exact nomatch hgiven
  content content hlast := by
    obtain ⟨plan, hplan, hgiven⟩ := List.exists_of_findSome?_eq_some hlast
    rw [(not_asked (h plan (List.mem_reverse.mp hplan))).2.1] at hgiven
    exact nomatch hgiven
  attached plan hplan := by
    have hasked := h plan hplan
    have hattached := attached_attach (r := r) (q := q) plan facts
    rwa [(not_asked hasked).2.2] at hattached

/-- The contents that the plans give a node are texts that are written anew as they are. -/
def Lasting (q : String) (plans : List Plan) : Prop :=
  ∀ plan ∈ plans, ∀ content ∈ plan.contentFor? q, NodeFacts.rewritten content = content

/-- One more plan leaves a node settled for itself and for those before. -/
theorem Settled.concat (h : Settled r q plans facts) (hlasting : Lasting q plans) (plan : Plan) :
    Settled r q (plans ++ [plan])
      ((plan.attach r q facts).written (plan.titleFor? r q) (plan.contentFor? q)) := by
  obtain ⟨htitle, hcontent, heditor, hgraph⟩ := attach_frame (r := r) (q := q) plan facts
  refine ⟨fun title hlast => ?_, fun content hlast => ?_, fun other hother => ?_⟩
  · rw [lastTitle?_concat] at hlast
    show (plan.titleFor? r q).getD (plan.attach r q facts).title = title
    cases hgiven : plan.titleFor? r q with
    | some given =>
      rw [hgiven] at hlast
      exact Option.some.inj hlast
    | none =>
      rw [hgiven] at hlast
      exact htitle.trans (h.title title hlast)
  · rw [lastContent?_concat] at hlast
    show (plan.contentFor? q).getD (plan.attach r q facts).content = content
    cases hgiven : plan.contentFor? q with
    | some given =>
      rw [hgiven] at hlast
      exact Option.some.inj hlast
    | none =>
      rw [hgiven] at hlast
      have hbefore := h.content content hlast
      obtain ⟨giver, hgiver, hgave⟩ := List.exists_of_findSome?_eq_some hlast
      have hkept := hlasting giver (List.mem_reverse.mp hgiver) content hgave
      rcases hcontent with hsame | hanew
      · exact hsame.trans hbefore
      · rw [Option.getD_none, hanew, hbefore, hkept]
  · rcases List.mem_append.mp hother with hmem | hmem
    · exact (h.attached other hmem).mono heditor hgraph
    · rw [List.mem_singleton.mp hmem]
      exact (attached_attach plan facts).mono id id

/-- Plans leave a node settled. -/
theorem settled_touchAll {before : Option NodeFacts} (hlasting : Lasting q plans)
    (h : touchAll r q plans before = some facts) : Settled r q plans facts := by
  induction plans using List.reverseRecOn generalizing facts with
  | nil => exact settled_of_not_asked (fun plan hplan => absurd hplan List.not_mem_nil) facts
  | append_singleton plans plan ih =>
    have hbefore : Lasting q plans := fun other hother =>
      hlasting other (List.mem_append_left _ hother)
    rw [touchAll_concat] at h
    cases hmiddle : touchAll r q plans before with
    | some middle =>
      rw [hmiddle, touch_some] at h
      rw [← Option.some.inj h]
      exact (ih hbefore hmiddle).concat hbefore plan
    | none =>
      rw [hmiddle] at h
      unfold touch at h
      split at h
      · rw [← Option.some.inj h, Option.getD_none]
        exact (settled_of_not_asked (not_asked_of_touchAll hmiddle) _).concat hbefore plan
      · exact nomatch h

/-- Where a node lacks no document, plans write titles and contents, and the last one stays. -/
theorem touchAll_of_attached (h : ∀ plan ∈ plans, plan.Attached r q facts) :
    touchAll r q plans (some facts) =
      some (facts.written (lastTitle? r q plans) (lastContent? q plans)) := by
  induction plans using List.reverseRecOn with
  | nil => rfl
  | append_singleton plans plan ih =>
    have hlast : plan.Attached r q
        (facts.written (lastTitle? r q plans) (lastContent? q plans)) :=
      (h plan (List.mem_append_right _ (List.mem_singleton_self plan))).mono id id
    rw [touchAll_concat, ih fun other hother => h other (List.mem_append_left _ hother),
      touch_some, attach_of_attached hlast, lastTitle?_concat, lastContent?_concat]
    unfold NodeFacts.written
    cases plan.titleFor? r q <;> cases plan.contentFor? q <;> rfl

theorem touchAll_of_settled (h : Settled r q plans facts) :
    touchAll r q plans (some facts) = some facts := by
  rw [touchAll_of_attached h.attached]
  have htitle : (lastTitle? r q plans).getD facts.title = facts.title := by
    cases hlast : lastTitle? r q plans with
    | none => rfl
    | some title => exact (h.title title hlast).symm
  have hcontent : (lastContent? q plans).getD facts.content = facts.content := by
    cases hlast : lastContent? q plans with
    | none => rfl
    | some content => exact (h.content content hlast).symm
  unfold NodeFacts.written
  rw [htitle, hcontent]

/-- Plans that are carried out again make of a node what it is. -/
theorem touchAll_touchAll (hlasting : Lasting q plans) (before : Option NodeFacts) :
    touchAll r q plans (touchAll r q plans before) = touchAll r q plans before := by
  cases hafter : touchAll r q plans before with
  | some facts => exact touchAll_of_settled (settled_touchAll hlasting hafter)
  | none => exact touchAll_of_not_asked (not_asked_of_touchAll hafter) none

/-! ### One space -/

theorem give_given (plan : Plan) (row : Space) : plan.give r (given r row) = given r row := by
  have hgiven : given r (given r row) = given r row := by
    unfold given
    simp [Option.or_assoc]
  rcases give_cases r plan (given r row) with hkept | hagain
  · exact hkept
  · rw [hagain, hgiven]

theorem giveAll_given (plans : List Plan) (row : Space) :
    giveAll r plans (given r row) = given r row := by
  induction plans with
  | nil => rfl
  | cons plan rest ih =>
    show giveAll r rest (plan.give r (given r row)) = _
    rw [give_given, ih]

theorem giveAll_cases (plans : List Plan) (row : Space) :
    giveAll r plans row = row ∨ giveAll r plans row = given r row := by
  induction plans with
  | nil => exact Or.inl rfl
  | cons plan rest ih =>
    show giveAll r rest (plan.give r row) = row ∨ giveAll r rest (plan.give r row) = _
    rcases give_cases r plan row with hkept | hgiven
    · rw [hkept]
      exact ih
    · rw [hgiven]
      exact Or.inr (giveAll_given rest row)

/-- Plans that are carried out again give a space no other document. -/
theorem giveAll_giveAll (plans : List Plan) (row : Space) :
    giveAll r plans (giveAll r plans row) = giveAll r plans row := by
  rcases giveAll_cases (r := r) plans row with hkept | hgiven
  · rw [hkept, hkept]
  · rw [hgiven, giveAll_given]

end Plan

/-! ### Row ids -/

/-- Row id, public id and time of making: what a node keeps for good. -/
def NodeRow.origin (row : NodeRow) : ℤ × String × ℤ :=
  (row.id, row.publicId, row.createdAt)

/-- A node but for the time of its last update. -/
def NodeRow.unrevised (row : NodeRow) : NodeRow :=
  { row with updatedAt := 0 }

namespace Store

variable {tokens : Tokenizer} {env : Env} {s t u : Store} {p q : String}

/-- The same nodes, none made and none gone. -/
structure SameRows (s t : Store) : Prop where
  lastId : t.nodes.lastId = s.nodes.lastId
  origins : t.nodes.rows.map NodeRow.origin = s.nodes.rows.map NodeRow.origin

theorem SameRows.refl (s : Store) : SameRows s s :=
  ⟨rfl, rfl⟩

theorem SameRows.trans (h : SameRows s t) (h' : SameRows t u) : SameRows s u :=
  ⟨h'.lastId.trans h.lastId, h'.origins.trans h.origins⟩

theorem SameRows.symm (h : SameRows s t) : SameRows t s :=
  ⟨h.lastId.symm, h.origins.symm⟩

theorem sameRows_of_nodes (h : t.nodes = s.nodes) : SameRows s t :=
  ⟨congrArg Table.lastId h, by rw [h]⟩

theorem sameRows_mapNodes {f : NodeRow → NodeRow}
    (hf : ∀ row, NodeRow.origin (f row) = NodeRow.origin row) : SameRows s (s.mapNodes f) := by
  refine ⟨rfl, ?_⟩
  rw [rows_mapNodes, List.map_map]
  exact List.map_congr_left fun row _ => hf row

theorem sameRows_changeNode {f : NodeRow → NodeRow}
    (hf : ∀ row, NodeRow.origin (f row) = NodeRow.origin row) : SameRows s (s.changeNode p f) := by
  refine sameRows_mapNodes fun row => ?_
  split
  · exact hf row
  · rfl

theorem materialize_of_hasNode (h : s.hasNode p = true) (kind : NodeKind) :
    s.materialize env p kind = s :=
  if_pos h

theorem SameRows.hasNode (h : SameRows s t) (q : String) : t.hasNode q = s.hasNode q := by
  have hkeys := congrArg (List.map fun origin : ℤ × String × ℤ => origin.2.1) h.origins
  rw [List.map_map, List.map_map] at hkeys
  have hkeys : t.nodes.rows.map (·.publicId) = s.nodes.rows.map (·.publicId) := hkeys
  have hany : ∀ u : Store, u.hasNode q = (u.nodes.rows.map (·.publicId)).any (· = q) := by
    intro u
    rw [List.any_map]
    rfl
  rw [hany, hany, hkeys]

/-- A row that is still there has the same row id. -/
theorem SameRows.exists_row (h : SameRows s t) {row : NodeRow} (hrow : row ∈ t.nodes.rows) :
    ∃ old ∈ s.nodes.rows, old.id = row.id ∧ old.publicId = row.publicId := by
  have hmem : NodeRow.origin row ∈ s.nodes.rows.map NodeRow.origin :=
    h.origins ▸ List.mem_map_of_mem hrow
  obtain ⟨old, hold, heq⟩ := List.mem_map.mp hmem
  exact ⟨old, hold, congrArg Prod.fst heq, congrArg (fun origin => origin.2.1) heq⟩

end Store

namespace Reconcile

variable {env : Env} {s : Store} {p : String}

theorem sameRows_withGraphDocument (type : DocumentType) :
    SameRows s (withGraphDocument env p type s) := by
  unfold withGraphDocument
  split
  · exact .refl s
  · refine sameRows_changeNode fun row => ?_
    unfold documented
    split <;> rfl

theorem sameRows_foldl_withChild {children : List String}
    (h : ∀ child ∈ children, s.hasNode child = true) :
    SameRows s (children.foldl (withChild env p) s) := by
  induction children generalizing s with
  | nil => exact .refl s
  | cons child rest ih =>
    have hchild : SameRows s (withChild env p s child) := by
      unfold withChild
      split
      · exact .refl s
      · rw [materialize_of_hasNode (h child List.mem_cons_self)]
        unfold withEdge
        split
        · exact sameRows_of_nodes rfl
        · exact .refl s
    refine hchild.trans (ih fun other hother => ?_)
    rw [hchild.hasNode]
    exact h other (List.mem_cons_of_mem child hother)

theorem origin_titled (titles : Keyed String) (row : NodeRow) :
    NodeRow.origin (titled env titles row) = NodeRow.origin row := by
  unfold titled
  split
  · split <;> rfl
  · rfl

theorem sameRows_withMembers {space : Space} {titles : Keyed String}
    (h : ∀ q ∈ titles.keys, s.hasNode q = true) : SameRows s (withMembers env space titles s) := by
  have hmissing : (titles.filter fun entry => !s.hasNode entry.1) = [] := by
    refine List.filter_eq_nil_iff.mpr fun entry hentry => ?_
    simp [h entry.1 (List.mem_map_of_mem hentry)]
  have hnodes : (withMembers env space titles s).nodes = (s.mapNodes (titled env titles)).nodes := by
    show (withTitles env titles (Spaces.withDocument env space s).2.2).nodes = _
    rw [withDocument_frame]
    show ((titles.filter fun entry => !s.hasNode entry.1).foldl (withMember env) _).nodes = _
    rw [hmissing]
    rfl
  have htitled : SameRows s (s.mapNodes (titled env titles)) :=
    sameRows_mapNodes (origin_titled titles)
  exact htitled.trans (sameRows_of_nodes hnodes)

/-- A plan whose nodes are there makes none. -/
theorem sameRows_carriedOut {plan : Plan}
    (h : ∀ q, plan.asks s.surroundings q = true → s.hasNode q = true) :
    SameRows s (carriedOut env plan s) := by
  cases plan with
  | editor p content =>
    have hnode : s.hasNode p = true := h p (by simp [Plan.asks])
    show SameRows s (withContent env p content s)
    unfold withContent
    rw [materialize_of_hasNode hnode]
    exact sameRows_changeNode fun _ => rfl
  | space p titles =>
    cases hspace : spaceFor? p titles s with
    | none =>
      rw [carriedOut_of_no_space hspace]
      exact .refl s
    | some space =>
      rw [carriedOut_space hspace]
      refine sameRows_withMembers fun q hq => h q ?_
      have hthere : s.surroundings.hasSpace p = true := by
        unfold surroundings
        simp [(spaceFor?_eq_some.mp hspace).1]
      have hlisted : (Keyed.get? q titles).isSome = true := by
        rw [Option.isSome_iff_ne_none, ne_eq, Keyed.get?_eq_none]
        exact not_not_intro hq
      simp [Plan.asks, hthere, hlisted]
  | graph p type kind children =>
    have hnode : s.hasNode p = true := h p (by simp [Plan.asks])
    show SameRows s (withChildren env p type kind children s)
    unfold withChildren
    rw [materialize_of_hasNode hnode]
    have hdocument : SameRows s (withGraphDocument env p type s) := sameRows_withGraphDocument type
    refine hdocument.trans (sameRows_foldl_withChild fun child hchild => ?_)
    rw [hdocument.hasNode]
    exact h child (by simp [Plan.asks, hchild])
  | ignore reason => exact .refl s

end Reconcile

/-! ### The whole graph -/

namespace Store

variable {tokens : Tokenizer} {s t : Store}

/-- The same rows and pairs, row ids included and the times of last updates aside. -/
structure Unchanged (s t : Store) : Prop where
  nodes : t.nodes.map NodeRow.unrevised = s.nodes.map NodeRow.unrevised
  edges : ∀ pair, pair ∈ t.edges ↔ pair ∈ s.edges
  spaces : t.spaces.map Space.unrevised = s.spaces.map Space.unrevised
  live : ∀ pair, pair ∈ t.live ↔ pair ∈ s.live
  records : Reconcile.SameRecords s t

/-- The same rows with the same facts are the same nodes. -/
theorem SameRows.nodes_eq (h : SameRows s t) (hs : s.GraphSound tokens) (ht : t.GraphSound tokens)
    (hfacts : ∀ q, t.facts? q = s.facts? q) :
    t.nodes.map NodeRow.unrevised = s.nodes.map NodeRow.unrevised := by
  have hlength : t.nodes.rows.length = s.nodes.rows.length := by
    have hlengths := congrArg List.length h.origins
    rwa [List.length_map, List.length_map] at hlengths
  have hrows : t.nodes.rows.map NodeRow.unrevised = s.nodes.rows.map NodeRow.unrevised := by
    refine List.ext_getElem (by simpa using hlength) fun i hi hi' => ?_
    rw [List.length_map] at hi hi'
    rw [List.getElem_map, List.getElem_map]
    have horigin : (t.nodes.rows[i]).origin = (s.nodes.rows[i]).origin := by
      have hat := List.getElem_of_eq h.origins (by simpa using hi)
      rwa [List.getElem_map, List.getElem_map] at hat
    obtain ⟨hid, hrest⟩ := Prod.mk.inj horigin
    obtain ⟨hkey, hcreated⟩ := Prod.mk.inj hrest
    have hsame := hfacts (s.nodes.rows[i]).publicId
    unfold facts? at hsame
    rw [hs.nodeRow?_eq_some.mpr ⟨List.getElem_mem hi', rfl⟩,
      ht.nodeRow?_eq_some.mpr ⟨List.getElem_mem hi, hkey⟩] at hsame
    have hunnumbered := NodeRow.unnumbered_eq_of_facts (ht.derived _ (List.getElem_mem hi))
      (hs.derived _ (List.getElem_mem hi')) hkey (Option.some.inj hsame)
    have hunrevised : ∀ row : NodeRow, row.unrevised =
        { row.unnumbered with id := row.id, createdAt := row.createdAt } := fun _ => rfl
    rw [hunrevised, hunrevised, hunnumbered, hid, hcreated]
  unfold Table.map
  rw [hrows, h.lastId]

/-- Edges between the same nodes are the same pairs. -/
theorem SameRows.mem_edges (h : SameRows s t) (hs : s.GraphSound tokens) (ht : t.GraphSound tokens)
    (hchildren : ∀ a b, t.IsChild a b → s.IsChild a b) {pair : ℤ × ℤ} (hpair : pair ∈ t.edges) :
    pair ∈ s.edges := by
  obtain ⟨hparent, hchild⟩ := ht.edgeEnds pair hpair
  obtain ⟨a, ha, haid⟩ := hasNodeId_iff.mp hparent
  obtain ⟨b, hb, hbid⟩ := hasNodeId_iff.mp hchild
  obtain ⟨a', ha', hakey, b', hb', hbkey, hedge⟩ :=
    hchildren a.publicId b.publicId ⟨a, ha, rfl, b, hb, rfl, by rw [haid, hbid]; exact hpair⟩
  obtain ⟨x, hx, hxid, hxkey⟩ := h.exists_row ha
  obtain ⟨y, hy, hyid, hykey⟩ := h.exists_row hb
  obtain rfl := List.inj_on_of_nodup_map hs.nodeKeys ha' hx (hakey.trans hxkey.symm)
  obtain rfl := List.inj_on_of_nodup_map hs.nodeKeys hb' hy (hbkey.trans hykey.symm)
  rwa [hxid, hyid, haid, hbid] at hedge

theorem exists_space_of_unrevised (h : t.spaces.map Space.unrevised = s.spaces.map Space.unrevised)
    {space : Space} (hspace : space ∈ t.spaces.rows) :
    ∃ old ∈ s.spaces.rows, old.id = space.id ∧ old.publicId = space.publicId := by
  have hrows : t.spaces.rows.map Space.unrevised = s.spaces.rows.map Space.unrevised :=
    congrArg Table.rows h
  have hmem : space.unrevised ∈ s.spaces.rows.map Space.unrevised :=
    hrows ▸ List.mem_map_of_mem hspace
  obtain ⟨old, hold, heq⟩ := List.mem_map.mp hmem
  have hid : old.unrevised.id = space.unrevised.id := congrArg Space.id heq
  have hkey : old.unrevised.publicId = space.unrevised.publicId := congrArg Space.publicId heq
  exact ⟨old, hold, hid, hkey⟩

/-- Memberships of the same nodes in the same spaces are the same pairs. -/
theorem SameRows.mem_live (h : SameRows s t) (hs : s.GraphSound tokens) (ht : t.GraphSound tokens)
    (hspaces : t.spaces.map Space.unrevised = s.spaces.map Space.unrevised)
    (hmembers : ∀ p q, t.IsMember p q → s.IsMember p q) {pair : ℤ × ℤ} (hpair : pair ∈ t.live) :
    pair ∈ s.live := by
  obtain ⟨hspace, hnode⟩ := ht.liveEnds pair hpair
  obtain ⟨a, ha, haid⟩ := hasSpaceId_iff.mp hspace
  obtain ⟨b, hb, hbid⟩ := hasNodeId_iff.mp hnode
  obtain ⟨a', ha', hakey, b', hb', hbkey, hlive⟩ :=
    hmembers a.publicId b.publicId ⟨a, ha, rfl, b, hb, rfl, by rw [haid, hbid]; exact hpair⟩
  obtain ⟨x, hx, hxid, hxkey⟩ := exists_space_of_unrevised hspaces ha
  obtain ⟨y, hy, hyid, hykey⟩ := h.exists_row hb
  obtain rfl := List.inj_on_of_nodup_map hs.spaceKeys ha' hx (hakey.trans hxkey.symm)
  obtain rfl := List.inj_on_of_nodup_map hs.nodeKeys hb' hy (hbkey.trans hykey.symm)
  rwa [hxid, hyid, haid, hbid] at hlive

end Store

namespace Reconcile

variable {tokens : Tokenizer} {s t u : Store} {plans : List Plan}

/-- Plans that are carried out again leave the graph as it was. -/
theorem Completed.unchanged (ht : t.GraphSound tokens) (hu : u.GraphSound tokens)
    (h : Completed plans s t) (h' : Completed plans t u) (hrows : SameRows t u)
    (hlasting : ∀ q, Plan.Lasting q plans) : Unchanged t u := by
  have hfacts : ∀ q, u.facts? q = t.facts? q := by
    intro q
    rw [h'.facts, h.surroundings, h.facts, Plan.touchAll_touchAll (hlasting q)]
  have hspaces : u.spaces.map Space.unrevised = t.spaces.map Space.unrevised := by
    rw [h'.spaces, h.surroundings, h.spaces, Table.map_comp]
    exact congrArg (Table.map · _) (funext fun row => Plan.giveAll_giveAll plans row)
  have hchildren : ∀ a b, u.IsChild a b ↔ t.IsChild a b := by
    intro a b
    rw [h'.children, h.children, or_assoc, or_self]
  have hmembers : ∀ p q, u.IsMember p q ↔ t.IsMember p q := by
    intro p q
    rw [h'.members, h.members, h.surroundings]
    cases plans.reverse.findSome? (·.membersOf? s.surroundings p) <;> rfl
  have hspaces' := hspaces.symm
  exact ⟨hrows.nodes_eq ht hu hfacts,
    fun pair => ⟨hrows.mem_edges ht hu fun a b => (hchildren a b).mp,
      hrows.symm.mem_edges hu ht fun a b => (hchildren a b).mpr⟩,
    hspaces,
    fun pair => ⟨hrows.mem_live ht hu hspaces fun p q => (hmembers p q).mp,
      hrows.symm.mem_live hu ht hspaces' fun p q => (hmembers p q).mpr⟩,
    h'.records⟩

/-- The nodes that a list of plans asks for are there once it has been carried out. -/
theorem Completed.hasNode (h : Completed plans s t) {plan : Plan} (hplan : plan ∈ plans)
    {q : String} (hasked : plan.asks s.surroundings q = true) : t.hasNode q = true := by
  by_contra hnode
  have hgone := facts?_eq_none.mpr ((Bool.not_eq_true _).mp hnode)
  rw [h.facts] at hgone
  rw [Plan.not_asked_of_touchAll hgone plan hplan] at hasked
  exact Bool.false_ne_true hasked

end Reconcile

section Deliveries

variable {tokens : Tokenizer} {s : Store}

/-- Deliveries of events whose nodes are there make none. -/
theorem sameRows_deliverAll (h : s.GraphSound tokens) {deliveries : List (ℤ × Event)}
    (hread : ∀ delivery ∈ deliveries, delivery.2.IsRead)
    (hasked : ∀ delivery ∈ deliveries, ∀ q,
      (Plan.ofEvent delivery.2).asks s.surroundings q = true → s.hasNode q = true) :
    SameRows s (deliverAll tokens deliveries s) := by
  induction deliveries generalizing s with
  | nil => exact .refl s
  | cons delivery rest ih =>
    have hquiet : ({ clock := delivery.1, tokens } : Env).rivals = {} := rfl
    have hread' := hread delivery List.mem_cons_self
    have hafter := Event.after_eq hquiet h hread'
    have hfirst : SameRows s (delivery.2.after { clock := delivery.1, tokens } s) := by
      rw [hafter]
      exact Reconcile.sameRows_carriedOut (hasked delivery List.mem_cons_self)
    have hsurroundings :
        (delivery.2.after { clock := delivery.1, tokens } s).surroundings = s.surroundings := by
      rw [hafter]
      exact Reconcile.surroundings_carriedOut _ _ s
    refine hfirst.trans (ih (Event.after_sound hquiet h hread')
      (fun other hother => hread other (List.mem_cons_of_mem _ hother)) fun other hother q hq => ?_)
    rw [hsurroundings] at hq
    rw [hfirst.hasNode]
    exact hasked other (List.mem_cons_of_mem _ hother) q hq

/-- The event gives its node no content whose text changes when it is read and printed anew. -/
def Event.PrintsAlike (event : Event) : Prop :=
  event.type = .editor → event.action ≠ .delete →
    ∀ v ∈ event.newData, v.reread.compact = v.compact

theorem Event.PrintsAlike.rewritten {event : Event} (h : event.PrintsAlike) (hread : event.IsRead)
    {q : String} {content : Option String}
    (hgiven : content ∈ (Plan.ofEvent event).contentFor? q) :
    NodeFacts.rewritten content = content := by
  have hsound := hread.sound
  have hasked := Plan.asked event
  generalize Plan.ofEvent event = plan at hgiven hsound hasked
  cases hasked with
  | editor haction htype =>
    have hgiven : (if q = event.publicId then
        some ((Reconcile.contentOf (event.newData.getD .null)).map Json.compact) else none) =
        some content := hgiven
    split at hgiven
    · obtain rfl := Option.some.inj hgiven
      cases hvalue : Reconcile.contentOf (event.newData.getD .null) with
      | none => rfl
      | some v =>
        have hv : event.newData = some v ∧ v.Sound := by
          have hheld : (event.newData.getD .null).Sound := hsound
          cases hdata : event.newData with
          | none => simp [hdata, Reconcile.contentOf] at hvalue
          | some w =>
            rw [hdata, Option.getD_some] at hvalue hheld
            have hw : w = v := by cases w <;> simp_all [Reconcile.contentOf]
            exact ⟨congrArg some hw, hw ▸ hheld⟩
        have hheld : ∀ w ∈ some v, w.Sound := fun w hw => Option.some.inj hw ▸ hv.2
        have hdecode : decodePayload (some v.compact) = .ok (some v.reread) :=
          decodePayload_compact hheld
        unfold NodeFacts.rewritten
        rw [Option.map_some, hdecode]
        exact congrArg some (h htype haction v hv.1)
    · cases hgiven
  | deleted => cases hgiven
  | space => cases hgiven
  | missing => cases hgiven
  | graph => cases hgiven

theorem lasting_of_printsAlike {deliveries : List (ℤ × Event)}
    (hread : ∀ delivery ∈ deliveries, delivery.2.IsRead)
    (h : ∀ delivery ∈ deliveries, delivery.2.PrintsAlike) (q : String) :
    Plan.Lasting q (deliveries.map fun delivery => Plan.ofEvent delivery.2) := by
  intro plan hplan content hgiven
  obtain ⟨delivery, hdelivery, rfl⟩ := List.mem_map.mp hplan
  exact (h delivery hdelivery).rewritten (hread delivery hdelivery) hgiven

/-- In every reachable store, events that are delivered and then, from some point on, delivered
again at other times leave all as it was after the first time, as far as their contents are printed
the way they are read and none of them lists more nodes than one statement can be given. -/
theorem Reachable.redelivered (h : Reachable tokens s) {first last again : List (ℤ × Event)}
    (hread : ∀ delivery ∈ first ++ last, delivery.2.IsRead)
    (hagain : again.map Prod.snd = last.map Prod.snd)
    (halike : ∀ delivery ∈ last, delivery.2.PrintsAlike)
    (hshort : ∀ delivery ∈ last, (Plan.ofEvent delivery.2).Short) :
    Unchanged (deliverAll tokens (first ++ last) s)
      (deliverAll tokens (first ++ last ++ again) s) := by
  have hfirst : ∀ delivery ∈ first, delivery.2.IsRead := fun delivery hdelivery =>
    hread delivery (List.mem_append_left _ hdelivery)
  have hlast : ∀ delivery ∈ last, delivery.2.IsRead := fun delivery hdelivery =>
    hread delivery (List.mem_append_right _ hdelivery)
  have hrepeated : ∀ delivery ∈ again, ∃ other ∈ last, other.2 = delivery.2 := by
    intro delivery hdelivery
    have hmem : delivery.2 ∈ last.map Prod.snd := hagain ▸ List.mem_map_of_mem hdelivery
    exact List.mem_map.mp hmem
  have hreread : ∀ delivery ∈ again, delivery.2.IsRead := by
    intro delivery hdelivery
    obtain ⟨other, hother, heq⟩ := hrepeated delivery hdelivery
    exact heq ▸ hlast other hother
  have hshortAgain : ∀ delivery ∈ again, (Plan.ofEvent delivery.2).Short := by
    intro delivery hdelivery
    obtain ⟨other, hother, heq⟩ := hrepeated delivery hdelivery
    exact heq ▸ hshort other hother
  have hplans : (again.map fun delivery => Plan.ofEvent delivery.2) =
      last.map fun delivery => Plan.ofEvent delivery.2 := by
    have hmapped := congrArg (List.map Plan.ofEvent) hagain
    rwa [List.map_map, List.map_map] at hmapped
  have hstart := deliverAll_sound h.sound.toGraphSound hfirst
  rw [deliverAll_append (first ++ last), deliverAll_append first]
  generalize deliverAll tokens first s = s₀ at hstart
  have hcompleted := deliverAll_completed hstart hlast hshort
  have hmiddle := deliverAll_sound hstart hlast
  have hcompleted' := deliverAll_completed hmiddle hreread hshortAgain
  rw [hplans] at hcompleted'
  refine hcompleted.unchanged hmiddle (deliverAll_sound hmiddle hreread) hcompleted'
    (sameRows_deliverAll hmiddle hreread fun delivery hdelivery q hq => ?_)
    (lasting_of_printsAlike hlast halike)
  rw [hcompleted.surroundings] at hq
  refine hcompleted.hasNode ?_ hq
  rw [← hplans]
  exact List.mem_map_of_mem hdelivery

end Deliveries

/-- Two spaces, and a document for the graph of a node that is not there. -/
def twoSpaces : List (ℤ × Operation) :=
  [(1000, .createSpace "s" "S" none fun _ => ""), (2000, .createSpace "t" "T" none fun _ => ""),
    (3000, .upsert "a" .methodGraph [] none)]

/-- Both spaces list the node, with different titles, and in between it is given its content and a
child. -/
def twoTitles (clock : ℤ) : List (ℤ × Event) :=
  [(clock, ⟨1, "s", .space, .update, none,
      some (.obj [("nodes", .obj [("a", .obj [("title", .str "A")])])]), 0⟩),
    (clock, ⟨2, "a", .editor, .update, none, some (.str "text"), 0⟩),
    (clock, ⟨3, "a", .methodGraph, .update, none, some (.obj [("nodes", .arr [.str "b"])]), 0⟩),
    (clock, ⟨4, "t", .space, .update, none,
      some (.obj [("nodes", .obj [("a", .obj [("title", .str "B")])])]), 0⟩)]

theorem Reachable.redelivered_twoTitles :
    let s := History.run String.length twoSpaces {}
    Reachable String.length s ∧ (∀ delivery ∈ twoTitles 4000, delivery.2.IsRead) ∧
      (∀ delivery ∈ twoTitles 4000, delivery.2.PrintsAlike) ∧
      (∀ delivery ∈ twoTitles 4000, (Plan.ofEvent delivery.2).Short) ∧
      ((deliverAll String.length (twoTitles 4000) s).nodes.rows.map fun row =>
        (row.id, row.publicId, row.title, row.graphDocument)) =
          [(1, "a", "B", some 1), (2, "b", "", none)] ∧
      Unchanged (deliverAll String.length (twoTitles 4000) s)
        (deliverAll String.length (twoTitles 4000 ++ twoTitles 5000) s) := by
  intro s
  have hreachable : Reachable String.length s :=
    Reachable.empty.run (by simp [twoSpaces, Operation.Held])
  have hread : ∀ delivery ∈ twoTitles 4000, delivery.2.IsRead := by
    simp only [twoTitles, List.forall_mem_cons, List.not_mem_nil, IsEmpty.forall_iff, implies_true,
      and_true]
    refine ⟨?_, ?_, ?_, ?_⟩
    all_goals
      refine Event.isRead_of_readsBack (by simp) fun v hv => ?_
      obtain rfl := Option.some.inj hv
      refine ⟨⟨?_, rfl, by decide⟩, ?_⟩
      · simp [Json.Fits, Json.FitsFields, Json.FitsItems]
      · simp [Json.ReadsBack, Json.floats, Json.floatsOfFields, Json.floatsOfItems]
  have halike : ∀ delivery ∈ twoTitles 4000, delivery.2.PrintsAlike := by
    simp only [twoTitles, List.forall_mem_cons, List.not_mem_nil, IsEmpty.forall_iff, implies_true,
      and_true, Event.PrintsAlike, reduceCtorEq, true_and]
    intro _ _ v hv
    obtain rfl := Option.some.inj hv
    rfl
  have hshort : ∀ delivery ∈ twoTitles 4000, (Plan.ofEvent delivery.2).Short := by
    simp only [twoTitles, List.forall_mem_cons, List.not_mem_nil, IsEmpty.forall_iff, implies_true,
      and_true]
    have hone : 2 * 1 ≤ maxParameters := by decide
    exact ⟨hone, trivial, trivial, hone⟩
  have hread' : ∀ delivery ∈ ([] : List (ℤ × Event)) ++ twoTitles 4000, delivery.2.IsRead := hread
  exact ⟨hreachable, hread, halike, hshort, by decide +kernel,
    hreachable.redelivered hread' rfl halike hshort⟩

/-- A double that the text of its neighbour reads as, as its own text reads as the neighbour. -/
def drifting : Json :=
  .reread (.float ⟨0x485ef6547ed6d072⟩)

/-- A method with a content that is such a double. -/
def driftingMethod (clock : ℤ) : List (ℤ × Event) :=
  [(clock, ⟨1, "x", .editor, .update, none, some drifting, 0⟩),
    (clock, ⟨2, "x", .methodGraph, .update, none, none, 0⟩)]

/-- Giving a node its graph document reads and prints its content anew, and a content with such a
double then has another text, which a second delivery takes back. -/
theorem redelivery_changes_drifting :
    let s := History.run String.length [(1000, .upsert "x" .methodGraph [] none)] {}
    Reachable String.length s ∧ (∀ delivery ∈ driftingMethod 2000, delivery.2.IsRead) ∧
      ((deliverAll String.length (driftingMethod 2000) s).nodes.rows.map (·.content)) =
        [some "4.214359928052123e+40"] ∧
      ((deliverAll String.length (driftingMethod 2000 ++ driftingMethod 3000) s).nodes.rows.map
        (·.content)) = [some "4.2143599280521236e+40"] ∧
      ¬ Unchanged (deliverAll String.length (driftingMethod 2000) s)
        (deliverAll String.length (driftingMethod 2000 ++ driftingMethod 3000) s) := by
  intro s
  have hreachable : Reachable String.length s := Reachable.empty.run (by simp [Operation.Held])
  have hread : ∀ delivery ∈ driftingMethod 2000, delivery.2.IsRead := by
    have hnone : ∀ v ∈ (none : Option Json), v.Sound := by simp
    have hfinite : Binary64.IsFinite ⟨0x485ef6547ed6d072⟩ := by decide
    have hsound : ∀ v ∈ some (Json.float ⟨0x485ef6547ed6d072⟩), v.Sound := fun v hv =>
      Option.some.inj hv ▸ ⟨hfinite, rfl, by decide⟩
    simp only [driftingMethod, List.forall_mem_cons, List.not_mem_nil, IsEmpty.forall_iff,
      implies_true, and_true]
    exact ⟨Event.isRead_of_reread hnone hsound rfl rfl,
      Event.isRead_of_readsBack (by simp) (by simp)⟩
  have honce : ((deliverAll String.length (driftingMethod 2000) s).nodes.rows.map (·.content)) =
      [some "4.214359928052123e+40"] := by decide +kernel
  have htwice : ((deliverAll String.length (driftingMethod 2000 ++ driftingMethod 3000)
      s).nodes.rows.map (·.content)) = [some "4.2143599280521236e+40"] := by decide +kernel
  refine ⟨hreachable, hread, honce, htwice, fun hsame => ?_⟩
  have hcontents := congrArg
    (fun table : Table NodeRow => table.rows.map (·.content)) hsame.nodes
  simp only [Table.map, List.map_map] at hcontents
  have hcontents := htwice.symm.trans (hcontents.trans honce)
  simp at hcontents

end NodeGraph
