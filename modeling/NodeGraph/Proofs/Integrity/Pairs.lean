import NodeGraph.Proofs.Integrity.Changes
import NodeGraph.Proofs.Reconcile.Facts

/-!
Edges, memberships, members and slugs: none occurs twice, no edge is a loop, and members are of
spaces that are there, whatever is done by the program itself.
-/
namespace NodeGraph

/-- Pairs that occur once and do not join a thing to itself. -/
def Simple (pairs : List (ℤ × ℤ)) : Prop :=
  pairs.Nodup ∧ ∀ pair ∈ pairs, pair.1 ≠ pair.2

theorem nodup_addPair {pairs : List (ℤ × ℤ)} (h : pairs.Nodup) (pair : ℤ × ℤ) :
    (addPair pair pairs).Nodup := by
  unfold addPair
  split
  · exact h
  · rename_i hnew
    refine List.nodup_append.mpr ⟨h, List.nodup_singleton pair, fun a ha b hb heq => ?_⟩
    exact hnew (List.mem_singleton.mp hb ▸ heq ▸ ha)

theorem Simple.addPair {pairs : List (ℤ × ℤ)} (h : Simple pairs) {pair : ℤ × ℤ}
    (hpair : pair.1 ≠ pair.2) : Simple (addPair pair pairs) := by
  refine ⟨nodup_addPair h.1 pair, fun other hother => ?_⟩
  rcases Reconcile.mem_addPair.mp hother with rfl | hold
  · exact hpair
  · exact h.2 other hold

namespace Store

variable {tokens : Tokenizer} {s t : Store}

/-- Slugs, pairs and members occur once, no edge is a loop, pairs that were taken out and members
lead to rows. -/
structure Tidy (s : Store) : Prop where
  slugs : (s.spaces.rows.map (·.slug)).Nodup
  edges : Simple s.edges
  live : s.live.Nodup
  deleted : s.deleted.Nodup
  deletedEnds : ∀ pair ∈ s.deleted, s.hasSpaceId pair.1 = true ∧ s.hasNodeId pair.2 = true
  members : (s.members.map fun member => (member.space, member.principal)).Nodup
  memberEnds : ∀ member ∈ s.members, s.hasSpaceId member.space = true

theorem tidy_empty : Tidy {} where
  slugs := List.nodup_nil
  edges := ⟨List.nodup_nil, fun _ h => absurd h List.not_mem_nil⟩
  live := List.nodup_nil
  deleted := List.nodup_nil
  deletedEnds := fun _ h => absurd h List.not_mem_nil
  members := List.nodup_nil
  memberEnds := fun _ h => absurd h List.not_mem_nil

/-- What takes nothing back and adds no space and no member keeps a store tidy if the pairs stay
so. -/
theorem Tidy.step (h : s.Tidy) (hpersists : Persists s t)
    (hslugs : t.spaces.rows.map (·.slug) = s.spaces.rows.map (·.slug)) (hedges : Simple t.edges)
    (hlive : t.live.Nodup) (hdeleted : t.deleted.Nodup) (hmembers : t.members = s.members) :
    t.Tidy where
  slugs := hslugs ▸ h.slugs
  edges := hedges
  live := hlive
  deleted := hdeleted
  deletedEnds := hpersists.deletedEnds h.deletedEnds
  members := hmembers ▸ h.members
  memberEnds := fun member hmember => hpersists.hasSpaceId (h.memberEnds member (hmembers ▸ hmember))

/-- What leaves pairs, slugs and members alone keeps a store tidy. -/
theorem Tidy.congr (h : s.Tidy) (hpersists : Persists s t)
    (hslugs : t.spaces.rows.map (·.slug) = s.spaces.rows.map (·.slug)) (hedges : t.edges = s.edges)
    (hlive : t.live = s.live) (hdeleted : t.deleted = s.deleted) (hmembers : t.members = s.members) :
    t.Tidy :=
  h.step hpersists hslugs (hedges ▸ h.edges) (hlive ▸ h.live) (hdeleted ▸ h.deleted) hmembers

end Store

namespace Reconcile

open Store

variable {env : Env} {s : Store} {p : String}

/-! ### Plans -/

theorem simple_withEdge {tokens : Tokenizer} (h : s.GraphSound tokens) {child : String}
    (hne : child ≠ p) (hedges : Simple s.edges) : Simple (withEdge p child s).edges := by
  unfold withEdge
  split
  · rename_i a b ha hb
    refine hedges.addPair fun hid => hne ?_
    obtain ⟨hamem, hakey⟩ := h.nodeRow?_eq_some.mp ha
    obtain ⟨hbmem, hbkey⟩ := h.nodeRow?_eq_some.mp hb
    obtain rfl := h.nodeIds.eq_of_id_eq hamem hbmem hid
    exact hbkey.symm.trans hakey
  · exact hedges

theorem simple_foldl_withChild (h : s.GraphSound env.tokens) (children : List String)
    (hedges : Simple s.edges) : Simple (children.foldl (withChild env p) s).edges := by
  induction children generalizing s with
  | nil => exact hedges
  | cons child rest ih =>
    have hmade : (s.materialize env child .default).edges = s.edges :=
      edges_materialize env s child .default
    refine ih (withChild_sound h child) ?_
    unfold withChild
    split
    · exact hedges
    · rename_i hne
      exact simple_withEdge (h.materialize child .default) hne (hmade ▸ hedges)

theorem simple_carriedOut (h : s.GraphSound env.tokens) (plan : Plan) (hedges : Simple s.edges) :
    Simple (carriedOut env plan s).edges := by
  cases plan with
  | editor p content =>
    have hsame : (carriedOut env (.editor p content) s).edges = s.edges :=
      edges_materialize env s p .default
    exact hsame ▸ hedges
  | space p titles =>
    cases hrow : spaceFor? p titles s with
    | some row =>
      rw [carriedOut_space hrow]
      have hsame : (withMembers env row titles s).edges = s.edges := by
        unfold withMembers
        rw [withTitles_frame, withDocument_frame]
      exact hsame ▸ hedges
    | none =>
      rw [carriedOut_of_no_space hrow]
      exact hedges
  | graph p type kind children =>
    have hmade := h.materialize p kind
    refine simple_foldl_withChild (withGraphDocument_sound hmade type) children ?_
    have hsame : (withGraphDocument env p type (s.materialize env p kind)).edges = s.edges := by
      rw [← edges_materialize env s p kind]
      unfold withGraphDocument
      split <;> rfl
    exact hsame ▸ hedges
  | ignore reason => exact hedges

theorem nodup_memberIds {tokens : Tokenizer} (h : s.GraphSound tokens) (titles : Keyed String) :
    (memberIds titles s).Nodup := by
  refine List.nodup_append.mpr ⟨nodup_summaries h titles.keys, ?_, ?_⟩
  · refine List.nodup_range.map fun a b hab => ?_
    have : s.nodes.nextId + (a : ℤ) = s.nodes.nextId + b := hab
    omega
  · intro a ha b hb heq
    obtain ⟨n, hn, rfl⟩ := List.mem_map.mp ha
    obtain ⟨i, -, rfl⟩ := List.mem_map.mp hb
    obtain ⟨row, hrow, -, rfl⟩ := mem_summaries.mp hn
    have hlt := h.nodeIds.lt_nextId row hrow
    have heq : row.id = s.nodes.nextId + (i : ℤ) := heq
    omega

theorem nodup_live_carriedOut (h : s.GraphSound env.tokens) (plan : Plan) (hlive : s.live.Nodup) :
    (carriedOut env plan s).live.Nodup := by
  cases plan with
  | editor p content =>
    have hsame : (carriedOut env (.editor p content) s).live = s.live := by
      show (s.materialize env p .default).live = s.live
      unfold Store.materialize
      split <;> rfl
    exact hsame ▸ hlive
  | space p titles =>
    cases hrow : spaceFor? p titles s with
    | some row =>
      rw [carriedOut_space hrow]
      show (withoutFirst row.id s.live ++ (memberIds titles s).map (row.id, ·)).Nodup
      refine List.nodup_append.mpr ⟨hlive.filter _, (nodup_memberIds h titles).map ?_, ?_⟩
      · exact fun a b hab => (Prod.mk.inj hab).2
      · intro a ha b hb heq
        obtain ⟨id, -, rfl⟩ := List.mem_map.mp hb
        have hne := (List.mem_filter.mp ha).2
        simp [heq] at hne
    | none =>
      rw [carriedOut_of_no_space hrow]
      exact hlive
  | graph p type kind children =>
    have hsame : (carriedOut env (.graph p type kind children) s).live = s.live :=
      (withChildren_frame p type kind children s).1
    exact hsame ▸ hlive
  | ignore reason => exact hlive

theorem tidy_carriedOut (h : s.GraphSound env.tokens) (plan : Plan) (htidy : s.Tidy) :
    (carriedOut env plan s).Tidy :=
  htidy.step (persists_carriedOut env plan s) (map_spaces_carriedOut plan _ fun _ _ => rfl)
    (simple_carriedOut h plan htidy.edges) (nodup_live_carriedOut h plan htidy.live)
    ((sameRecords_carriedOut env s plan).deleted ▸ htidy.deleted)
    (sameRecords_carriedOut env s plan).members

end Reconcile

open Store

variable {tokens : Tokenizer} {s t : Store}

theorem tidy_create (env : Env) (h : s.Sound tokens) (p title : String) {slug : String}
    (hslug : s.hasSlug slug = false) (owner : Option String) (htidy : s.Tidy) :
    Tidy { s with
      spaces := s.spaces.add (Spaces.newSpace env p title slug)
      members := s.members ++ owner.toList.map fun principal =>
        { space := s.spaces.nextId, principal, role := Spaces.ownerRole } } where
  slugs := by
    rw [Table.rows_add, List.map_append, List.nodup_append]
    refine ⟨htidy.slugs, List.nodup_singleton _, fun a ha b hb heq => ?_⟩
    obtain ⟨space, hspace, rfl⟩ := List.mem_map.mp ha
    rw [List.map_singleton, List.mem_singleton] at hb
    have htaken : s.hasSlug slug = true :=
      Table.any_iff.mpr ⟨space, hspace, decide_eq_true (heq.trans hb)⟩
    exact Bool.false_ne_true (hslug.symm.trans htaken)
  edges := htidy.edges
  live := htidy.live
  deleted := htidy.deleted
  deletedEnds := by
    intro pair hpair
    obtain ⟨hspace, hnode⟩ := htidy.deletedEnds pair hpair
    obtain ⟨row, hrow, hid⟩ := hasSpaceId_iff.mp hspace
    exact ⟨hasSpaceId_iff.mpr ⟨row, List.mem_append_left _ hrow, hid⟩, hnode⟩
  members := by
    rw [List.map_append, List.map_map, List.nodup_append]
    refine ⟨htidy.members, ?_, ?_⟩
    · cases owner with
      | none => exact List.nodup_nil
      | some principal => exact List.nodup_singleton _
    · intro a ha b hb heq
      obtain ⟨member, hmember, rfl⟩ := List.mem_map.mp ha
      obtain ⟨principal, -, rfl⟩ := List.mem_map.mp hb
      -- Members that were there are of spaces that were there, whose ids are below the new one.
      obtain ⟨space, hspace, hid⟩ := hasSpaceId_iff.mp (htidy.memberEnds member hmember)
      have hlt := h.spaceIds.lt_nextId space hspace
      exact absurd (hid.trans (congrArg Prod.fst heq)) hlt.ne
  memberEnds := by
    intro member hmember
    rcases List.mem_append.mp hmember with hold | hnew
    · obtain ⟨row, hrow, hid⟩ := hasSpaceId_iff.mp (htidy.memberEnds member hold)
      exact hasSpaceId_iff.mpr ⟨row, List.mem_append_left _ hrow, hid⟩
    · obtain ⟨principal, -, rfl⟩ := List.mem_map.mp hnew
      exact hasSpaceId_iff.mpr ⟨_, List.mem_append_right _ (List.mem_singleton.mpr rfl), rfl⟩

/-- Every change keeps a store tidy. -/
theorem Change.tidy (h : s.Sound tokens) (hchange : Change tokens s t) (htidy : s.Tidy) :
    t.Tidy := by
  have hpersists := hchange.persists
  cases hchange with
  | upsert clock p type data json =>
    obtain ⟨-, hedges, hspaces, hlive, -, -⟩ :=
      upserted_frame { clock, tokens } s p type data json
    obtain ⟨-, hdeleted, hmembers⟩ := upserted_records { clock, tokens } s p type data json
    exact htidy.congr hpersists (by rw [hspaces]) hedges hlive hdeleted hmembers
  | delete clock row =>
    refine htidy.congr hpersists ?_ rfl rfl rfl rfl
    rw [(rows_deleteDocument clock s row).2, List.map_map]
    rfl
  | carry clock hdata => exact Reconcile.tidy_carriedOut h.toGraphSound _ htidy
  | create clock p title hfree hslug owner =>
    exact tidy_create { clock, tokens } h p title hslug owner htidy
  | expel hspace hrow =>
    exact htidy.step hpersists rfl htidy.edges (htidy.live.filter _) (nodup_addPair htidy.deleted _)
      rfl
  | edit hedited =>
    obtain ⟨p, f, -, rfl⟩ := hedited
    exact htidy.congr hpersists rfl rfl rfl rfl rfl
  | _ => exact htidy.congr hpersists rfl rfl rfl rfl rfl

/-! ### Every reachable store -/

theorem Changes.tidy (hs : s.Sound tokens) (h : Changes tokens s t) (htidy : s.Tidy) : t.Tidy := by
  induction h with
  | refl => exact htidy
  | tail hbefore hchange ih => exact hchange.tidy (Changes.sound hs hbefore) ih

/-- Rows that other programs write have no slugs, pairs and members. -/
theorem tidy_replaces {clock : ℤ} (htidy : s.Tidy) (h : Operation.Replaces clock s t) :
    t.Tidy := by
  induction h with
  | refl => exact htidy
  | tail _ hstep ih =>
    obtain ⟨old, row, -, rfl⟩ := hstep
    exact ih.congr (persists_of_graph rfl rfl rfl rfl) rfl rfl rfl rfl rfl

theorem tidy_foldl_deleteDocument (clock : ℤ) (h : s.Sound tokens) (htidy : s.Tidy)
    (rows : List DocumentRow) :
    (rows.foldl (fun s row => s.deleteDocument clock row) s).Tidy := by
  induction rows generalizing s with
  | nil => exact htidy
  | cons row rest ih =>
    have hdeleted : Change tokens s (s.deleteDocument clock row) := .delete clock row
    exact ih (hdeleted.sound h) (hdeleted.tidy h htidy)

/-- Every operation keeps a store tidy. -/
theorem Operation.tidy_perform (clock : ℤ) (h : s.Sound tokens) (op : Operation)
    (htidy : s.Tidy) : (op.perform { clock, tokens } s).Tidy := by
  have quiet : ({ clock, tokens } : Env).rivals = {} := rfl
  by_cases hop : op.Guarded
  · exact (changes_perform clock h hop).tidy h htidy
  have hpersists := op.persists_perform quiet h
  have heffect := op.effect_perform quiet h.toGraphSound
  generalize op.perform { clock, tokens } s = t at hpersists heffect ⊢
  cases heffect with
  | nothing => exact htidy
  | changeDocuments p column cell hreplaces hkeys => exact tidy_replaces htidy hreplaces
  | deleteDocuments p => exact tidy_foldl_deleteDocument clock h htidy _
  | addEvent | addDocument | changeEvents | deleteEvents | save =>
    exact htidy.congr hpersists rfl rfl rfl rfl rfl
  | _ => exact absurd trivial hop

theorem Reachable.tidy (h : Reachable tokens s) : s.Tidy := by
  induction h with
  | empty => exact tidy_empty
  | perform hreachable clock op _ ih => exact op.tidy_perform clock hreachable.sound ih
  | passes hreachable schedule ih =>
    exact (changes_passes schedule { store := _ } hreachable.sound).tidy hreachable.sound ih

end NodeGraph
