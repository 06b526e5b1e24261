import NodeGraph.Proofs.Store.Nodes
import NodeGraph.Store.Spaces

/-!
Creating a space and taking a node out of one.
-/
namespace NodeGraph.Spaces

open Store

variable {tokens : Tokenizer} {env : Env} {s : Store} {p title : String}

theorem insert_of_free (quiet : env.rivals = {}) {slug : String} (hslug : s.hasSlug slug = false)
    (hfree : s.space? p = none) : insert env p title slug s =
      .ok (newSpace env p title slug s.spaces.nextId)
        { s with spaces := s.spaces.add (newSpace env p title slug) } := by
  unfold insert
  rw [Command.bind_of_ok (Command.get_eq s), quiet]
  dsimp only [Option.filter_none]
  rw [if_neg (by simp [hslug]), if_neg (by simp [hfree])]
  rfl

theorem hasSlug_eq (slug : String) :
    (do return (← EStateM.get).hasSlug slug : Command Bool) s = .ok (s.hasSlug slug) s := rfl

/-- The space is created under the first of the slugs that is free, unless none of them is. -/
theorem insertFirst_eq (quiet : env.rivals = {}) (hfree : s.space? p = none) (title : String)
    (slugs : List String) :
    insertFirst .sound env p title slugs s =
      match slugs.find? fun slug => !s.hasSlug slug with
      | some slug => .ok (newSpace env p title slug s.spaces.nextId)
          { s with spaces := s.spaces.add (newSpace env p title slug) }
      | none => .error (.noFreeSlug title) s := by
  induction slugs with
  | nil => rfl
  | cons first rest ih =>
    unfold insertFirst
    rw [Database.run_sound, Command.bind_of_ok (hasSlug_eq first)]
    cases hfirst : s.hasSlug first with
    | true =>
      rw [List.find?_cons_of_neg (by simp [hfirst])]
      exact ih
    | false =>
      have hinsert : (Database.sound.run (.insertSpace first) (insert env p title first)) s = _ :=
        insert_of_free quiet hfirst hfree
      rw [List.find?_cons_of_pos (by simp [hfirst])]
      exact Command.ifTaken_of_ok hinsert

theorem space?_eq (p : String) :
    (do return ((← EStateM.get).space? p).isSome : Command Bool) s = .ok (s.space? p).isSome s :=
  rfl

theorem create_eq (env : Env) (p title : String) (owner : Option String) (suffix : ℕ → String) :
    create env p title owner suffix = Command.transaction (do
      let taken ← (do return ((← EStateM.get).space? p).isSome : Command Bool)
      if taken then throw (.takenSpace p)
      let space ← insertFirst .sound env p title (candidates title suffix)
      match owner with
      | none => return space
      | some principal =>
        insertOwner space principal
        return space) :=
  Database.transaction_sound _

/-- The public id of a space is taken for good. -/
theorem create_of_some {space : Space} (h : s.space? p = some space) (owner : Option String)
    (suffix : ℕ → String) :
    create env p title owner suffix s = .error (.takenSpace p) s := by
  rw [create_eq]
  apply Command.transaction_of_error
  rw [Command.bind_of_ok (space?_eq p), h]
  rfl

/-- A new public id gets a space with the first slug that is free of those tried, and its owner
becomes a member. -/
theorem create_of_free (quiet : env.rivals = {}) (h : s.space? p = none) {title slug : String}
    {suffix : ℕ → String}
    (hslug : (candidates title suffix).find? (fun slug => !s.hasSlug slug) = some slug)
    (owner : Option String) :
    create env p title owner suffix s =
      .ok (newSpace env p title slug s.spaces.nextId)
        { s with
          spaces := s.spaces.add (newSpace env p title slug)
          members := s.members ++ owner.toList.map fun principal =>
            { space := s.spaces.nextId, principal, role := ownerRole } } := by
  have hmade := insertFirst_eq quiet h title (candidates title suffix)
  rw [hslug] at hmade
  rw [create_eq]
  apply Command.transaction_of_ok
  rw [Command.bind_of_ok (space?_eq p), h]
  refine (Command.bind_of_ok hmade).trans ?_
  cases owner with
  | none =>
    simp only [Option.toList_none, List.map_nil, List.append_nil]
    rfl
  | some principal => rfl

theorem create_of_crowded (quiet : env.rivals = {}) (h : s.space? p = none) {title : String}
    {suffix : ℕ → String}
    (hslug : (candidates title suffix).find? (fun slug => !s.hasSlug slug) = none)
    (owner : Option String) :
    create env p title owner suffix s = .error (.noFreeSlug title) s := by
  have hnone := insertFirst_eq quiet h title (candidates title suffix)
  rw [hslug] at hnone
  rw [create_eq]
  apply Command.transaction_of_error
  rw [Command.bind_of_ok (space?_eq p), h]
  exact Command.bind_of_error hnone

/-- A new public id gets a space with a slug that is tried and free, and its owner becomes a member,
unless none of them is. -/
theorem create_of_none (quiet : env.rivals = {}) (h : s.space? p = none) (title : String)
    (owner : Option String) (suffix : ℕ → String) :
    (∃ slug ∈ candidates title suffix, s.hasSlug slug = false ∧
      create env p title owner suffix s =
        .ok (newSpace env p title slug s.spaces.nextId)
          { s with
            spaces := s.spaces.add (newSpace env p title slug)
            members := s.members ++ owner.toList.map fun principal =>
              { space := s.spaces.nextId, principal, role := ownerRole } }) ∨
      (∀ slug ∈ candidates title suffix, s.hasSlug slug = true) ∧
        create env p title owner suffix s = .error (.noFreeSlug title) s := by
  cases hslug : (candidates title suffix).find? fun slug => !s.hasSlug slug with
  | some slug =>
    have hfree := List.find?_some hslug
    exact Or.inl ⟨slug, List.mem_of_find?_eq_some hslug, by simpa using hfree,
      create_of_free quiet h hslug owner⟩
  | none =>
    have htaken := List.find?_eq_none.mp hslug
    exact Or.inr ⟨fun slug hmem => by simpa using htaken slug hmem,
      create_of_crowded quiet h hslug owner⟩

theorem create_made (quiet : env.rivals = {}) (s : Store) (p title : String)
    (owner : Option String) (suffix : ℕ → String) :
    ((create env p title owner suffix).outcome s).2 = s ∨
      s.space? p = none ∧ ∃ slug, s.hasSlug slug = false ∧
        ((create env p title owner suffix).outcome s).2 =
          { s with
            spaces := s.spaces.add (newSpace env p title slug)
            members := s.members ++ owner.toList.map fun principal =>
              { space := s.spaces.nextId, principal, role := ownerRole } } := by
  cases hfree : s.space? p with
  | some space => exact Or.inl (Command.outcome_of_error (create_of_some hfree owner suffix))
  | none =>
    rcases create_of_none quiet hfree title owner suffix with ⟨slug, -, hslug, hmade⟩ | ⟨-, hnone⟩
    · exact Or.inr ⟨rfl, slug, hslug, Command.outcome_of_ok hmade⟩
    · exact Or.inl (Command.outcome_of_error hnone)

theorem create_outcome (quiet : env.rivals = {}) (s : Store) (p title : String)
    (owner : Option String) (suffix : ℕ → String) :
    ((create env p title owner suffix).outcome s).2 = s ∨
      s.space? p = none ∧ ∃ slug members, ((create env p title owner suffix).outcome s).2 =
        { s with spaces := s.spaces.add (newSpace env p title slug), members } := by
  rcases create_made quiet s p title owner suffix with hsame | ⟨hfree, slug, -, hmade⟩
  · exact Or.inl hsame
  · exact Or.inr ⟨hfree, slug, _, hmade⟩

theorem addSpace_sound (env : Env) (h : s.Sound tokens) (hfree : s.space? p = none)
    (title slug : String) (members : List Member) :
    Sound tokens { s with spaces := s.spaces.add (newSpace env p title slug), members } := by
  refine h.withGraph ⟨h.nodeIds, h.nodeKeys, h.derived, h.references, h.spaceIds.add rfl, ?_,
    h.edgeEnds, ?_⟩ rfl rfl rfl
  · rw [Table.rows_add, List.map_append, List.nodup_append]
    refine ⟨h.spaceKeys, List.nodup_singleton _, ?_⟩
    intro a ha b hb heq
    rw [List.map_singleton, List.mem_singleton] at hb
    have hkey : a = p := heq.trans hb
    exact find?_key_eq_none.mp hfree (hkey ▸ ha)
  · intro pair hpair
    obtain ⟨hspace, hnode⟩ := h.liveEnds pair hpair
    obtain ⟨row, hrow, heq⟩ := hasSpaceId_iff.mp hspace
    exact ⟨hasSpaceId_iff.mpr ⟨row, List.mem_append_left _ hrow, heq⟩, hnode⟩

theorem create_sound (quiet : env.rivals = {}) (h : s.Sound tokens) (p title : String)
    (owner : Option String) (suffix : ℕ → String) :
    ((create env p title owner suffix).outcome s).2.Sound tokens := by
  rcases create_outcome quiet s p title owner suffix with
    hsame | ⟨hfree, slug, members, hmade⟩
  · rw [hsame]
    exact h
  · rw [hmade]
    exact addSpace_sound env h hfree title slug members

theorem get?_eq (p : String) :
    (do return (← EStateM.get).space? p : Command (Option Space)) s = .ok (s.space? p) s := rfl

theorem expel_eq (p nodePublicId : String) :
    expel p nodePublicId = Command.transaction (do
      let some space ← (do return (← EStateM.get).space? p : Command (Option Space))
        | throw (.missingSpace p)
      let some node ← Nodes.get nodePublicId | throw (.missingNode nodePublicId)
      modify fun s => { s with live := s.live.filter (· ≠ (space.id, node.id)) }
      modify fun s => { s with deleted := addPair (space.id, node.id) s.deleted }) :=
  Database.transaction_sound _

theorem expel_of_no_space (h : s.space? p = none) (nodePublicId : String) :
    expel p nodePublicId s = .error (.missingSpace p) s := by
  rw [expel_eq]
  apply Command.transaction_of_error
  rw [Command.bind_of_ok (get?_eq p), h]
  rfl

theorem expel_of_no_node {space : Space} (h : s.space? p = some space) {nodePublicId : String}
    (hnode : s.nodeRow? nodePublicId = none) :
    expel p nodePublicId s = .error (.missingNode nodePublicId) s := by
  rw [expel_eq]
  apply Command.transaction_of_error
  rw [Command.bind_of_ok (get?_eq p), h]
  exact Command.bind_of_ok (Nodes.get_of_none hnode)

/-- A node that is there goes from the members of a space to those taken out. -/
theorem expel_of_some (hs : s.GraphSound tokens) {space : Space} (h : s.space? p = some space)
    {nodePublicId : String} {row : NodeRow} (hrow : s.nodeRow? nodePublicId = some row) :
    expel p nodePublicId s = .ok ⟨⟩
      { s with
        live := s.live.filter (· ≠ (space.id, row.id))
        deleted := addPair (space.id, row.id) s.deleted } := by
  have hmem := (hs.nodeRow?_eq_some.mp hrow).1
  rw [expel_eq]
  apply Command.transaction_of_ok
  rw [Command.bind_of_ok (get?_eq p), h]
  exact Command.bind_of_ok (Nodes.get_of_some hrow (hs.derived row hmem))

theorem expel_outcome (h : s.GraphSound tokens) (p nodePublicId : String) :
    ((expel p nodePublicId).outcome s).2 = s ∨
      ∃ space ∈ s.spaces.rows, ∃ row ∈ s.nodes.rows, ((expel p nodePublicId).outcome s).2 =
        { s with
          live := s.live.filter (· ≠ (space.id, row.id))
          deleted := addPair (space.id, row.id) s.deleted } := by
  cases hspace : s.space? p with
  | none => exact Or.inl (Command.outcome_of_error (expel_of_no_space hspace nodePublicId))
  | some space =>
    cases hrow : s.nodeRow? nodePublicId with
    | none => exact Or.inl (Command.outcome_of_error (expel_of_no_node hspace hrow))
    | some row =>
      exact Or.inr ⟨space, (h.space?_eq_some.mp hspace).1, row, (h.nodeRow?_eq_some.mp hrow).1,
        Command.outcome_of_ok (expel_of_some h hspace hrow)⟩

/-- Taking a node out of a space keeps a store sound. -/
theorem moved_sound (h : s.Sound tokens) (pair : ℤ × ℤ) :
    Sound tokens { s with
      live := s.live.filter (· ≠ pair)
      deleted := addPair pair s.deleted } := by
  have hlive : ∀ other ∈ s.live.filter (· ≠ pair),
      s.hasSpaceId other.1 = true ∧ s.hasNodeId other.2 = true :=
    fun other hother => h.liveEnds other (List.mem_filter.mp hother).1
  exact h.withGraph ((h.toGraphSound.withLive hlive).congr rfl rfl rfl rfl rfl) rfl rfl rfl

theorem expel_sound (h : s.Sound tokens) (p nodePublicId : String) :
    ((expel p nodePublicId).outcome s).2.Sound tokens := by
  rcases expel_outcome h.toGraphSound p nodePublicId with hsame | ⟨space, -, row, -, hmoved⟩
  · rw [hsame]
    exact h
  · rw [hmoved]
    exact moved_sound h (space.id, row.id)

end NodeGraph.Spaces
