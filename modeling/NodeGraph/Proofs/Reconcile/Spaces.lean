import NodeGraph.Proofs.Reconcile.Nodes

/-!
What replacing the members of a space leaves of a sound store.
-/
namespace NodeGraph.Reconcile

open Store

variable {env : Env} {s : Store} {p : String}

/-- The row of a node made for a space, with the documents it has. -/
def memberRow (env : Env) (s : Store) (p title : String) (id : ℤ) : NodeRow :=
  (Nodes.blank env p title .default id).encode.attach s .graph

/-- The row with the title that is listed for it. -/
def titled (env : Env) (titles : Keyed String) (row : NodeRow) : NodeRow :=
  match Keyed.get? row.publicId titles with
  | some title => if title = row.title then row else row.retitled env title
  | none => row

def withMember (env : Env) (s : Store) (entry : String × String) : Store :=
  { s with nodes := s.nodes.add (memberRow env s entry.1 entry.2) }

/-- The titled nodes that are there, titled, and then those that are not, made. -/
def withTitles (env : Env) (titles : Keyed String) (s : Store) : Store :=
  (titles.filter fun entry => !s.hasNode entry.1).foldl (withMember env)
    (s.mapNodes (titled env titles))

/-- The ids that the titled nodes get which are not there. -/
def newIds (titles : Keyed String) (s : Store) : List ℤ :=
  (List.range (titles.filter fun entry => !s.hasNode entry.1).length).map
    fun i : ℕ => s.nodes.nextId + i

/-- The ids of the titled nodes: those that are there, the newest first, and then the new ones. -/
def memberIds (titles : Keyed String) (s : Store) : List ℤ :=
  (s.summaries titles.keys).map (·.id) ++ newIds titles s

/-- The store after the titled nodes that are there have become the only members of a space, and the
others have been made. -/
def withExisting (env : Env) (space : Space) (titles : Keyed String) (s : Store) : Store :=
  { withTitles env titles (Spaces.withDocument env space s).2.2 with
    live := withoutFirst space.id s.live ++
      ((s.summaries titles.keys).map (·.id)).map (space.id, ·) }

/-- The store after the titled nodes have become the members of a space. -/
def withMembers (env : Env) (space : Space) (titles : Keyed String) (s : Store) : Store :=
  { withTitles env titles (Spaces.withDocument env space s).2.2 with
    live := withoutFirst space.id s.live ++ (memberIds titles s).map (space.id, ·) }

/-! ### Listing members -/

theorem foldl_addPair {space : ℤ} {ids : List ℤ} {pairs : List (ℤ × ℤ)} (hids : ids.Nodup)
    (hnew : ∀ id ∈ ids, (space, id) ∉ pairs) :
    ids.foldl (fun live node => addPair (space, node) live) pairs =
      pairs ++ ids.map (space, ·) := by
  induction ids generalizing pairs with
  | nil => simp
  | cons id rest ih =>
    obtain ⟨hid, hrest⟩ := List.nodup_cons.mp hids
    have hfirst : addPair (space, id) pairs = pairs ++ [(space, id)] :=
      if_neg (hnew id List.mem_cons_self)
    rw [List.foldl_cons, hfirst, ih hrest, List.append_assoc, List.map_cons]
    · rfl
    · intro other hother hmem
      rcases List.mem_append.mp hmem with hold | heq
      · exact hnew other (List.mem_cons_of_mem _ hother) hold
      · have heq : other = id := (Prod.mk.inj (List.mem_singleton.mp heq)).2
        exact hid (heq ▸ hother)

theorem includeNodes_eq (space : ℤ) {ids : List ℤ} (hfew : 2 * ids.length ≤ maxParameters)
    (hids : ids.Nodup)
    (hnew : ∀ id ∈ ids, (space, id) ∉ s.live) (hspace : s.hasSpaceId space = true)
    (hnodes : ∀ id ∈ ids, s.hasNodeId id = true) :
    Spaces.includeNodes space ids s =
      .ok ⟨⟩ { s with live := s.live ++ ids.map (space, ·) } := by
  have hall : (ids.all fun node =>
      !!s.live.contains (space, node) || (s.hasSpaceId space && s.hasNodeId node)) = true := by
    rw [List.all_eq_true]
    intro id hid
    rw [hspace, hnodes id hid]
    simp
  have hadd : s.addMembers space ids = .ok { s with live := s.live ++ ids.map (space, ·) } := by
    unfold Store.addMembers
    dsimp only
    rw [if_pos hall, foldl_addPair hids hnew]
  unfold Spaces.includeNodes
  rw [Command.bind_of_ok (Command.given_of_le hfew), Command.bind_of_ok (Command.get_eq s), hadd]
  rfl

/-- One statement can add only so many members. -/
theorem includeNodes_of_many (space : ℤ) {ids : List ℤ} (h : maxParameters < 2 * ids.length) :
    Spaces.includeNodes space ids s = .error .tooManyParameters s :=
  Command.bind_of_error (Command.given_of_lt h)

theorem summaries_perm (keys : List String) :
    (s.summaries keys).Perm
      ((s.nodes.rows.filter fun row => row.publicId ∈ keys).map NodeRow.summary) :=
  (List.mergeSort_perm _ _).map _

theorem mem_summaries {keys : List String} {n : NodeSummary} :
    n ∈ s.summaries keys ↔ ∃ row ∈ s.nodes.rows, row.publicId ∈ keys ∧ row.summary = n := by
  rw [(summaries_perm keys).mem_iff, List.mem_map]
  simp only [List.mem_filter, decide_eq_true_eq, and_assoc]

theorem nodup_summaries {tokens : Tokenizer} (h : s.GraphSound tokens) (keys : List String) :
    ((s.summaries keys).map (·.id)).Nodup := by
  rw [((summaries_perm keys).map _).nodup_iff, List.map_map]
  exact h.nodeIds.nodup.sublist (List.filter_sublist.map _)

/-! ### Titles -/

@[simp] theorem id_titled (titles : Keyed String) (row : NodeRow) :
    (titled env titles row).id = row.id := by
  unfold titled
  split
  · split <;> rfl
  · rfl

@[simp] theorem publicId_titled (titles : Keyed String) (row : NodeRow) :
    (titled env titles row).publicId = row.publicId := by
  unfold titled
  split
  · split <;> rfl
  · rfl

/-- A summary changes the row that it is of, and no other. -/
theorem retitleAll_singleton (titles : Keyed String) {n : NodeSummary}
    (hrows : ∀ row ∈ s.nodes.rows, row.id = n.id → row.summary = n) :
    retitleAll env titles [n] s =
      s.mapNodes fun row => if row.id = n.id then titled env titles row else row := by
  have htitled : ∀ row ∈ s.nodes.rows, row.id = n.id → titled env titles row =
      match Keyed.get? n.publicId titles with
      | some title => if title = n.title then row else row.retitled env title
      | none => row := by
    intro row hrow hid
    rw [← hrows row hrow hid]
    rfl
  -- Where the title does not change, neither does any row.
  have hsame (hkept : ∀ row ∈ s.nodes.rows, row.id = n.id → titled env titles row = row) :
      s = s.mapNodes fun row => if row.id = n.id then titled env titles row else row := by
    refine (mapNodes_self fun row hrow => ?_).symm
    split
    · rename_i hid
      exact hkept row hrow hid
    · rfl
  unfold retitleAll
  rw [List.foldl_cons, List.foldl_nil]
  split
  · rename_i title hget
    rw [hget] at htitled
    split
    · rename_i heq
      exact hsame fun row hrow hid => (htitled row hrow hid).trans (if_pos heq)
    · rename_i hne
      unfold Nodes.retitle
      rw [updateNode_eq_mapNodes]
      refine mapNodes_congr fun row hrow => ?_
      split
      · rename_i hid
        exact ((htitled row hrow hid).trans (if_neg hne)).symm
      · rfl
  · rename_i hget
    rw [hget] at htitled
    exact hsame htitled

/-- Each summary changes its own row. -/
theorem retitleAll_eq (titles : Keyed String) {summaries : List NodeSummary}
    (hids : (summaries.map (·.id)).Nodup)
    (hrows : ∀ n ∈ summaries, ∀ row ∈ s.nodes.rows, row.id = n.id → row.summary = n) :
    retitleAll env titles summaries s =
      s.mapNodes fun row => if row.id ∈ summaries.map (·.id) then titled env titles row else row := by
  induction summaries generalizing s with
  | nil => exact (mapNodes_self fun row _ => if_neg List.not_mem_nil).symm
  | cons n rest ih =>
    obtain ⟨hn, hrest⟩ := List.nodup_cons.mp hids
    have hstep : retitleAll env titles [n] s = _ :=
      retitleAll_singleton titles (hrows n List.mem_cons_self)
    show retitleAll env titles rest (retitleAll env titles [n] s) = _
    rw [hstep, ih hrest, mapNodes_mapNodes]
    · refine mapNodes_congr fun row hrow => ?_
      by_cases hid : row.id = n.id
      · have hnot : ¬(titled env titles row).id ∈ rest.map (·.id) := by
          rw [id_titled, hid]
          exact hn
        rw [if_pos hid, if_neg hnot, if_pos]
        rw [hid]
        exact List.mem_cons_self
      · rw [if_neg hid]
        simp only [List.map_cons, List.mem_cons, hid, false_or]
    · intro m hm row hrow hid
      obtain ⟨old, hold, rfl⟩ := List.mem_map.mp hrow
      have hne : old.id ≠ n.id := by
        intro heq
        rw [if_pos heq, id_titled] at hid
        exact hn (List.mem_map.mpr ⟨m, hm, hid.symm.trans heq⟩)
      rw [if_neg hne] at hid ⊢
      exact hrows m (List.mem_cons_of_mem _ hm) old hold hid

/-- Giving the nodes that are there their listed titles changes exactly the listed rows. -/
theorem retitleAll_summaries {tokens : Tokenizer} (h : s.GraphSound tokens)
    (titles : Keyed String) :
    retitleAll env titles (s.summaries titles.keys) s = s.mapNodes (titled env titles) := by
  rw [retitleAll_eq titles (nodup_summaries h titles.keys)]
  · refine mapNodes_congr fun row hrow => ?_
    split
    · rfl
    · rename_i hnot
      have hkey : row.publicId ∉ titles.keys := fun hmem =>
        hnot (List.mem_map.mpr ⟨row.summary, mem_summaries.mpr ⟨row, hrow, hmem, rfl⟩, rfl⟩)
      unfold titled
      rw [Keyed.get?_eq_none.mpr hkey]
  · intro n hn row hrow hid
    obtain ⟨other, hother, -, rfl⟩ := mem_summaries.mp hn
    rw [h.nodeIds.eq_of_id_eq hrow hother hid]

theorem titled_derived {row : NodeRow} (h : row.Derived env.tokens) (titles : Keyed String) :
    (titled env titles row).Derived env.tokens := by
  unfold titled
  split
  · split
    · exact h
    · exact ⟨h.kind, h.content, h.text, h.textTokens, rfl⟩
  · exact h

theorem titled_references (titles : Keyed String) (row : NodeRow) :
    (titled env titles row).editorDocument = row.editorDocument ∧
      (titled env titles row).graphDocument = row.graphDocument := by
  unfold titled
  split
  · split <;> exact ⟨rfl, rfl⟩
  · exact ⟨rfl, rfl⟩

theorem mapTitled_sound (h : s.GraphSound env.tokens) (titles : Keyed String) :
    (s.mapNodes (titled env titles)).GraphSound env.tokens := by
  refine h.mapNodes (fun row _ => id_titled titles row) (fun row _ => publicId_titled titles row)
    (fun row hrow => titled_derived (h.derived row hrow) titles) fun row hrow => ?_
  rw [(titled_references titles row).1, (titled_references titles row).2]
  exact h.references row hrow

/-! ### New members -/

theorem derived_memberRow (s : Store) (p title : String) (id : ℤ) :
    (memberRow env s p title id).Derived env.tokens := by
  have h : (Nodes.blank env p title .default id).encode.Derived env.tokens :=
    derived_blank title .default id
  exact ⟨h.kind, h.content, h.text, h.textTokens, h.titleTokens⟩

theorem withMember_sound (h : s.GraphSound env.tokens) {entry : String × String}
    (hfree : s.hasNode entry.1 = false) : (withMember env s entry).GraphSound env.tokens :=
  h.addNode rfl hfree (derived_memberRow s entry.1 entry.2 _)
    ⟨documentId?_isSound, documentId?_isSound⟩

/-- Adding a row and changing it at once is adding the changed row. -/
theorem changeNode_add (hfree : s.hasNode p = false) {row : ℤ → NodeRow}
    (hkey : (row s.nodes.nextId).publicId = p) (f : NodeRow → NodeRow) :
    ({ s with nodes := s.nodes.add row } : Store).changeNode p f =
      { s with nodes := s.nodes.add fun id => f (row id) } := by
  have hold : s.nodes.rows.map (fun r => if r.publicId = p then f r else r) = s.nodes.rows := by
    refine (List.map_congr_left (g := id) fun r hr => if_neg ?_).trans (List.map_id _)
    intro heq
    have := hasNode_iff.mpr ⟨r, hr, heq⟩
    rw [hfree] at this
    exact Bool.false_ne_true this
  unfold changeNode mapNodes
  rw [Table.rows_add, List.map_append, hold, List.map_singleton, if_pos hkey]
  rfl

theorem createMember_eq (quiet : env.rivals = {}) (h : s.GraphSound env.tokens) {title : String}
    (hfree : s.hasNode p = false) :
    createMember env p title s = .ok s.nodes.nextId (withMember env s (p, title)) := by
  set blank := Nodes.blank env p title .default with hblank
  have hadded : ({ s with nodes := s.nodes.add fun id => (blank id).encode } : Store).GraphSound
      env.tokens :=
    h.addNode rfl hfree (derived_blank title .default _) ⟨rfl, rfl⟩
  set t : Store := { s with nodes := s.nodes.add fun id => (blank id).encode } with ht
  set row := (blank s.nodes.nextId).encode with hrowdef
  have hrow : row ∈ t.nodes.rows := List.mem_append_right _ List.mem_cons_self
  have hcreate : Nodes.create env p title .default s = .ok (blank s.nodes.nextId) t := by
    unfold Nodes.create Nodes.createOn
    rw [Database.run_sound, Command.bind_of_ok (Nodes.insert_of_free quiet hfree)]
    rfl
  have hvalue : row.value = blank s.nodes.nextId := rfl
  unfold createMember
  rw [Command.bind_of_ok hcreate, Command.bind_of_ok (Command.get_eq t)]
  have hresult : t.changeNode p (fun r => (r.attach t .graph).rewrite env none) =
      withMember env s (p, title) := by
    rw [ht, changeNode_add hfree rfl]
    rfl
  dsimp only
  split
  · have hsave := Nodes.save_value env hadded hrow (Nodes.withDocuments t .graph row.value).2 rfl
      (withDocuments_sound (hadded.references row hrow) .graph)
    have hsaved : t.changeNode row.publicId
        (Nodes.savedRow env (Nodes.withDocuments t .graph row.value).2) =
        t.changeNode p fun r => (r.attach t .graph).rewrite env none := by
      refine changeNode_congr fun r hr hkey => ?_
      obtain rfl : r = row := List.inj_on_of_nodup_map hadded.nodeKeys hr hrow hkey
      exact savedRow_withDocuments (hadded.derived _ hrow) .graph none
    rw [hsaved, hresult] at hsave
    have hdiscard : (discard (Nodes.save env (Nodes.withDocuments t .graph row.value).2) :
        Command PUnit) t = .ok ⟨⟩ (withMember env s (p, title)) := Command.bind_of_ok hsave
    exact Command.bind_of_ok hdiscard
  · rename_i hnone
    have hnone : ((t.documentId? p .graph).isSome || (t.documentId? p .editor).isSome) = false := by
      exact (Bool.not_eq_true _).mp hnone
    rw [Bool.or_eq_false_iff, Option.isSome_eq_false_iff, Option.isSome_eq_false_iff,
      Option.isNone_iff_eq_none, Option.isNone_iff_eq_none] at hnone
    rw [← hresult, changeNode_self]
    · rfl
    · intro r hr hkey
      obtain rfl : r = row := List.inj_on_of_nodup_map hadded.nodeKeys hr hrow hkey
      unfold NodeRow.attach
      rw [hkey, hnone.1, hnone.2]
      rfl

theorem hasNode_withMember {entry : String × String} {q : String} (hne : q ≠ entry.1)
    (hfree : s.hasNode q = false) : (withMember env s entry).hasNode q = false := by
  rw [← Bool.not_eq_true, hasNode_iff] at hfree ⊢
  rintro ⟨row, hrow, hkey⟩
  rcases List.mem_append.mp hrow with hold | hnew
  · exact hfree ⟨row, hold, hkey⟩
  · rw [List.mem_singleton.mp hnew] at hkey
    exact hne hkey.symm

theorem createMembers_eq (quiet : env.rivals = {}) (h : s.GraphSound env.tokens)
    {missing : Keyed String} (hkeys : missing.keys.Nodup)
    (hfree : ∀ entry ∈ missing, s.hasNode entry.1 = false) :
    (missing.mapM fun entry => createMember env entry.1 entry.2) s =
      .ok ((List.range missing.length).map fun i : ℕ => s.nodes.nextId + i)
        (missing.foldl (withMember env) s) ∧
      (missing.foldl (withMember env) s).GraphSound env.tokens := by
  induction missing generalizing s with
  | nil => exact ⟨rfl, h⟩
  | cons entry rest ih =>
    obtain ⟨hentry, hrest⟩ := List.nodup_cons.mp hkeys
    have hfree₀ := hfree entry List.mem_cons_self
    have hsound := withMember_sound h hfree₀
    obtain ⟨hmapM, hfold⟩ := @ih (withMember env s entry) hsound hrest fun other hother =>
      hasNode_withMember (fun heq => hentry (List.mem_map.mpr ⟨other, hother, heq⟩))
        (hfree other (List.mem_cons_of_mem _ hother))
    refine ⟨?_, hfold⟩
    rw [List.mapM_cons, Command.bind_of_ok (createMember_eq quiet h hfree₀),
      Command.bind_of_ok hmapM]
    show EStateM.Result.ok _ _ = _
    congr 1
    rw [List.length_cons, List.range_succ_eq_map, List.map_cons, List.map_map]
    congr 1
    · show s.nodes.nextId = s.nodes.nextId + ((0 : ℕ) : ℤ)
      simp
    · refine List.map_congr_left fun i _ => ?_
      show s.nodes.lastId + 1 + 1 + (i : ℤ) = s.nodes.lastId + 1 + ((i + 1 : ℕ) : ℤ)
      push_cast
      ring

theorem foldl_withMember_frame (missing : Keyed String) :
    missing.foldl (withMember env) s =
      { s with nodes := (missing.foldl (withMember env) s).nodes } := by
  induction missing generalizing s with
  | nil => rfl
  | cons entry rest ih =>
    rw [List.foldl_cons, ih]
    rfl

/-- Listed nodes are made after those that were there. -/
theorem rows_foldl_withMember (missing : Keyed String) :
    (missing.foldl (withMember env) s).nodes.rows = s.nodes.rows ++
      missing.mapIdx fun i entry => memberRow env s entry.1 entry.2 (s.nodes.nextId + i) := by
  induction missing generalizing s with
  | nil => simp
  | cons entry rest ih =>
    rw [List.foldl_cons, ih, List.mapIdx_cons]
    show s.nodes.rows ++ [memberRow env s entry.1 entry.2 s.nodes.nextId] ++ _ = _
    rw [List.append_assoc, List.singleton_append]
    congr 2
    · simp
    · refine List.mapIdx_eq_mapIdx_iff.mpr fun i hi => ?_
      have hnext : (withMember env s entry).nodes.nextId + (i : ℤ) =
          s.nodes.nextId + ((i + 1 : ℕ) : ℤ) := by
        show s.nodes.lastId + 1 + 1 + (i : ℤ) = s.nodes.lastId + 1 + ((i + 1 : ℕ) : ℤ)
        push_cast
        ring
      rw [hnext]
      rfl

/-- Which nodes are made depends on the nodes and documents alone. -/
theorem nodes_foldl_withMember {t : Store} (hnodes : t.nodes = s.nodes)
    (hdocuments : t.documents = s.documents) (missing : Keyed String) :
    (missing.foldl (withMember env) t).nodes = (missing.foldl (withMember env) s).nodes := by
  induction missing generalizing s t with
  | nil => exact hnodes
  | cons entry rest ih =>
    refine ih ?_ hdocuments
    show t.nodes.add (memberRow env t entry.1 entry.2) =
      s.nodes.add (memberRow env s entry.1 entry.2)
    unfold memberRow
    rw [hnodes]
    simp only [attach_of_documents hdocuments]

/-! ### The whole -/

theorem withDocument_frame (env : Env) (s : Store) (space : Space) :
    (Spaces.withDocument env space s).2.2 =
      { s with spaces := (Spaces.withDocument env space s).2.2.spaces } := by
  unfold Spaces.withDocument
  split <;> rfl

theorem map_spaces_withDocument {β : Type} (env : Env) (s : Store) (space : Space) (f : Space → β)
    (hf : ∀ row : Space, ∀ id, f { row with document := some id, updatedAt := env.now } = f row) :
    (Spaces.withDocument env space s).2.2.spaces.rows.map f = s.spaces.rows.map f := by
  unfold Spaces.withDocument
  split
  · rename_i id _ _
    show (s.spaces.rows.map fun row => if decide (row.id = space.id) = true then _ else row).map f = _
    rw [List.map_map]
    refine List.map_congr_left fun row _ => ?_
    show f (if _ then _ else row) = f row
    split
    · exact hf row id
    · rfl
  · rfl

theorem withDocument_sound {tokens : Tokenizer} (env : Env) (h : s.GraphSound tokens)
    (space : Space) :
    (Spaces.withDocument env space s).2.2.GraphSound tokens ∧
      ∀ id, (Spaces.withDocument env space s).2.2.hasSpaceId id = s.hasSpaceId id := by
  have hids : (Spaces.withDocument env space s).2.2.spaces.rows.map (·.id) =
      s.spaces.rows.map (·.id) := map_spaces_withDocument env s space (·.id) fun _ _ => rfl
  have hkeys : (Spaces.withDocument env space s).2.2.spaces.rows.map (·.publicId) =
      s.spaces.rows.map (·.publicId) := map_spaces_withDocument env s space (·.publicId) fun _ _ => rfl
  have hlast : (Spaces.withDocument env space s).2.2.spaces.lastId = s.spaces.lastId := by
    unfold Spaces.withDocument
    split <;> rfl
  have hspace : ∀ id, (Spaces.withDocument env space s).2.2.hasSpaceId id = s.hasSpaceId id := by
    intro id
    rw [Bool.eq_iff_iff, hasSpaceId_iff, hasSpaceId_iff, ← List.mem_map, ← List.mem_map, hids]
  refine ⟨?_, hspace⟩
  have hnumbered := h.spaceIds.of_map_eq hids
  rw [withDocument_frame] at hspace ⊢
  refine ⟨h.nodeIds, h.nodeKeys, h.derived, h.references, ?_, hkeys ▸ h.spaceKeys, h.edgeEnds, ?_⟩
  · rw [← hlast] at hnumbered
    exact hnumbered
  · intro pair hpair
    exact ⟨(hspace _).trans (h.liveEnds pair hpair).1, (h.liveEnds pair hpair).2⟩

/-- A space that is there gets its document first. -/
theorem space_of_found {titles : Keyed String} {space : Space} (hspace : s.space? p = some space) :
    Reconcile.space env p titles s =
      setMembers env space.id titles (Spaces.withDocument env space s).2.2 := by
  unfold Reconcile.space
  rw [Command.bind_of_ok (Command.get_eq s), hspace]
  rfl

theorem summaries_withDocument (env : Env) (s : Store) (space : Space) (keys : List String) :
    (Spaces.withDocument env space s).2.2.summaries keys = s.summaries keys := by
  rw [withDocument_frame]
  rfl

theorem replaceNodes_of_many (space : ℤ) {ids : List ℤ} (h : maxParameters < 2 * ids.length) :
    ∃ t, Spaces.replaceNodes space ids s = .error .tooManyParameters t := by
  refine ⟨{ s with live := withoutFirst space s.live }, ?_⟩
  unfold Spaces.replaceNodes
  rw [Command.bind_of_ok (Command.get_eq s), Command.bind_of_ok (Command.set_eq s _)]
  exact includeNodes_of_many space h

/-- The nodes that are there become the only members. -/
theorem replaceNodes_eq {tokens : Tokenizer} (h : s.GraphSound tokens) {space : ℤ}
    (hspace : s.hasSpaceId space = true) {keys : List String}
    (hfew : 2 * (s.summaries keys).length ≤ maxParameters) :
    Spaces.replaceNodes space ((s.summaries keys).map (·.id)) s =
        .ok ⟨⟩ { s with live := withoutFirst space s.live ++
          ((s.summaries keys).map (·.id)).map (space, ·) } ∧
      GraphSound tokens { s with live := withoutFirst space s.live ++
        ((s.summaries keys).map (·.id)).map (space, ·) } := by
  have hkept : ∀ pair ∈ withoutFirst space s.live, pair.1 ≠ space ∧ pair ∈ s.live := by
    intro pair hpair
    have hmem := List.mem_filter.mp hpair
    exact ⟨by simpa using hmem.2, hmem.1⟩
  have hnodes : ∀ id ∈ (s.summaries keys).map (·.id), s.hasNodeId id = true := by
    intro id hid
    obtain ⟨n, hn, rfl⟩ := List.mem_map.mp hid
    obtain ⟨row, hrow, -, rfl⟩ := mem_summaries.mp hn
    exact hasNodeId_iff.mpr ⟨row, hrow, rfl⟩
  constructor
  · unfold Spaces.replaceNodes
    rw [Command.bind_of_ok (Command.get_eq s), Command.bind_of_ok (Command.set_eq s _)]
    exact includeNodes_eq space (by rwa [List.length_map]) (nodup_summaries h keys)
      (fun id _ hmem => (hkept _ hmem).1 rfl) hspace hnodes
  · refine h.withLive fun pair hpair => ?_
    rcases List.mem_append.mp hpair with hold | hnew
    · exact h.liveEnds pair (hkept pair hold).2
    · obtain ⟨id, hid, rfl⟩ := List.mem_map.mp hnew
      exact ⟨hspace, hnodes id hid⟩

theorem foldl_withMember_live (missing : Keyed String) (live : List (ℤ × ℤ)) :
    missing.foldl (withMember env) { s with live } =
      { missing.foldl (withMember env) s with live } := by
  induction missing generalizing s with
  | nil => rfl
  | cons entry rest ih => exact @ih (withMember env s entry)

/-- Making and naming nodes has nothing to do with members. -/
theorem withTitles_live (titles : Keyed String) (live : List (ℤ × ℤ)) :
    withTitles env titles { s with live } = { withTitles env titles s with live } :=
  foldl_withMember_live (s := s.mapNodes (titled env titles)) _ live

theorem withTitles_frame (titles : Keyed String) :
    withTitles env titles s = { s with nodes := (withTitles env titles s).nodes } := by
  unfold withTitles
  rw [foldl_withMember_frame]
  rfl

theorem hasNode_mapTitled (titles : Keyed String) (q : String) :
    (s.mapNodes (titled env titles)).hasNode q = s.hasNode q :=
  hasNode_mapNodes (fun row _ => publicId_titled titles row) q

theorem not_hasNode_of_missing {titles : Keyed String} :
    ∀ entry ∈ titles.filter fun entry => !s.hasNode entry.1, s.hasNode entry.1 = false := by
  intro entry hentry
  simpa using (List.mem_filter.mp hentry).2

/-- The new ids are free before and taken after. -/
theorem created_ids {tokens : Tokenizer} (env : Env) (h : s.GraphSound tokens)
    (titles : Keyed String) :
    ∀ id ∈ newIds titles s,
      s.hasNodeId id = false ∧ (withTitles env titles s).hasNodeId id = true := by
  intro id hid
  obtain ⟨i, hi, rfl⟩ := List.mem_map.mp hid
  rw [List.mem_range] at hi
  constructor
  · rw [← Bool.not_eq_true, hasNodeId_iff]
    rintro ⟨row, hrow, heq⟩
    have := h.nodeIds.lt_nextId row hrow
    omega
  · rw [hasNodeId_iff]
    unfold withTitles
    rw [rows_foldl_withMember]
    exact ⟨_, List.mem_append_right _ (List.mem_mapIdx.mpr ⟨i, hi, rfl⟩), rfl⟩

/-- The titles of no summary are those of the nodes that are missing. -/
theorem filter_not_listed (s : Store) (titles : Keyed String) :
    (titles.filter fun entry => !(s.summaries titles.keys).any (·.publicId = entry.1)) =
      titles.filter fun entry => !s.hasNode entry.1 := by
  refine List.filter_congr fun entry hentry => ?_
  congr 1
  rw [Bool.eq_iff_iff, List.any_eq_true, hasNode_iff]
  constructor
  · rintro ⟨n, hn, hkey⟩
    obtain ⟨row, hrow, -, rfl⟩ := mem_summaries.mp hn
    exact ⟨row, hrow, of_decide_eq_true hkey⟩
  · rintro ⟨row, hrow, hkey⟩
    refine ⟨row.summary, mem_summaries.mpr ⟨row, hrow, ?_, rfl⟩, decide_eq_true hkey⟩
    exact hkey ▸ List.mem_map_of_mem hentry

/-- Whether the statements that replace the members of a space can be given all titled nodes: those
that are there with one statement, the new ones with another. -/
def fits (titles : Keyed String) (s : Store) : Bool :=
  decide (2 * (s.summaries titles.keys).length ≤ maxParameters) &&
    decide (2 * (newIds titles s).length ≤ maxParameters)

theorem fits_iff {titles : Keyed String} : fits titles s = true ↔
    2 * (s.summaries titles.keys).length ≤ maxParameters ∧
      2 * (newIds titles s).length ≤ maxParameters := by
  unfold fits
  rw [Bool.and_eq_true, decide_eq_true_eq, decide_eq_true_eq]

theorem length_newIds (titles : Keyed String) (s : Store) :
    (newIds titles s).length = (titles.filter fun entry => !s.hasNode entry.1).length := by
  unfold newIds
  rw [List.length_map, List.length_range]

/-- Each titled node that is there has one summary. -/
theorem length_summaries {tokens : Tokenizer} (h : s.GraphSound tokens) {titles : Keyed String}
    (hkeys : titles.keys.Nodup) :
    (s.summaries titles.keys).length = (titles.filter fun entry => s.hasNode entry.1).length := by
  have hperm : ((s.summaries titles.keys).map (·.publicId)).Perm
      (Keyed.keys (titles.filter fun entry => s.hasNode entry.1)) := by
    rw [List.perm_ext_iff_of_nodup]
    · intro q
      rw [List.mem_map]
      constructor
      · rintro ⟨n, hn, rfl⟩
        obtain ⟨row, hrow, hkey, rfl⟩ := mem_summaries.mp hn
        obtain ⟨entry, hentry, heq⟩ := List.mem_map.mp hkey
        refine List.mem_map.mpr ⟨entry, List.mem_filter.mpr ⟨hentry, ?_⟩, heq⟩
        exact hasNode_iff.mpr ⟨row, hrow, heq.symm⟩
      · rintro hq
        obtain ⟨entry, hentry, rfl⟩ := List.mem_map.mp hq
        obtain ⟨hentry, hnode⟩ := List.mem_filter.mp hentry
        obtain ⟨row, hrow, hkey⟩ := hasNode_iff.mp hnode
        refine ⟨row.summary, mem_summaries.mpr ⟨row, hrow, ?_, rfl⟩, hkey⟩
        exact hkey ▸ List.mem_map_of_mem hentry
    · rw [((summaries_perm titles.keys).map _).nodup_iff, List.map_map]
      exact h.nodeKeys.sublist (List.filter_sublist.map _)
    · exact hkeys.sublist (List.filter_sublist.map _)
  have hlength := hperm.length_eq
  rwa [Keyed.keys, Keyed.keys, List.length_map, List.length_map] at hlength

/-- The titled nodes fit if the ones that are there can be given to one statement, two parameters
for each, and so can those that are missing. -/
theorem fits_iff_counts {tokens : Tokenizer} {s : Store} (h : s.GraphSound tokens)
    {titles : Keyed String} (hkeys : titles.keys.Nodup) : fits titles s = true ↔
      2 * (titles.filter fun entry => s.hasNode entry.1).length ≤ maxParameters ∧
        2 * (titles.filter fun entry => !s.hasNode entry.1).length ≤ maxParameters := by
  rw [fits_iff, length_summaries h hkeys, length_newIds]

/-- Every titled node is there or new. -/
theorem length_titles {tokens : Tokenizer} (h : s.GraphSound tokens) {titles : Keyed String}
    (hkeys : titles.keys.Nodup) :
    (s.summaries titles.keys).length + (newIds titles s).length = titles.length := by
  rw [length_summaries h hkeys, length_newIds]
  simpa using (List.length_eq_length_filter_add (l := titles) fun entry => s.hasNode entry.1).symm

/-- A listing that one statement could add fits every store. -/
theorem fits_of_short {tokens : Tokenizer} (h : s.GraphSound tokens) {titles : Keyed String}
    (hkeys : titles.keys.Nodup) (hshort : 2 * titles.length ≤ maxParameters) :
    fits titles s = true := by
  have hlength := length_titles h hkeys
  exact fits_iff.mpr ⟨by omega, by omega⟩

/-- The space of a public id if the titled nodes can be made its members. -/
def spaceFor? (p : String) (titles : Keyed String) (s : Store) : Option Space :=
  (s.space? p).filter fun _ => fits titles s

theorem spaceFor?_eq_some {titles : Keyed String} {row : Space} :
    spaceFor? p titles s = some row ↔ s.space? p = some row ∧ fits titles s = true := by
  unfold spaceFor?
  rw [Option.filter_eq_some_iff]

section Space

variable {titles : Keyed String} {space : Space} (quiet : env.rivals = {})
  (h : s.GraphSound env.tokens) (hkeys : titles.keys.Nodup) (hspace : s.space? p = some space)

include quiet h hkeys hspace

/-- What is left to do once the titled nodes are there, if no statement was refused before. -/
theorem space_upTo (hall : titles.length ≤ maxParameters)
    (hexisting : 2 * (s.summaries titles.keys).length ≤ maxParameters) :
    Reconcile.space env p titles s = Spaces.includeNodes space.id (newIds titles s)
        (withExisting env space titles s) ∧
      (withExisting env space titles s).GraphSound env.tokens ∧
      (withExisting env space titles s).hasSpaceId space.id = true ∧
      ∀ id ∈ newIds titles s, (space.id, id) ∉ (withExisting env space titles s).live ∧
        (withExisting env space titles s).hasNodeId id = true := by
  obtain ⟨hsound, hspaceIds⟩ := withDocument_sound env h space
  have hframe := withDocument_frame env s space
  have hspaceId : s.hasSpaceId space.id = true :=
    hasSpaceId_iff.mpr ⟨space, (h.space?_eq_some.mp hspace).1, rfl⟩
  rw [← hspaceIds] at hspaceId
  rw [space_of_found hspace]
  unfold withExisting setMembers
  rw [← summaries_withDocument env s space] at hexisting ⊢
  generalize (Spaces.withDocument env space s).2.2 = t at *
  have hids : newIds titles s = newIds titles t := by rw [hframe]; rfl
  have hlive : s.live = t.live := by rw [hframe]
  rw [hids, hlive]
  clear hframe hids hlive hspaceIds
  obtain ⟨hreplace, hreplaced⟩ := replaceNodes_eq hsound hspaceId hexisting
  set ids := (t.summaries titles.keys).map (·.id) with hids
  set live := withoutFirst space.id t.live ++ ids.map (space.id, ·) with hlive
  set t₁ : Store := { t with live } with ht₁
  have hretitle : retitleAll env titles (t.summaries titles.keys) t₁ =
      t₁.mapNodes (titled env titles) := retitleAll_summaries hreplaced titles
  obtain ⟨hcreate, hcreated⟩ := createMembers_eq quiet (mapTitled_sound hreplaced titles)
    (hkeys.sublist (List.filter_sublist.map Prod.fst)) fun entry hentry =>
      (hasNode_mapTitled titles entry.1).trans (not_hasNode_of_missing entry hentry)
  have hnew := created_ids env hsound titles
  set missing := titles.filter fun entry => !t₁.hasNode entry.1 with hmissing
  have hmade : missing.foldl (withMember env) (t₁.mapNodes (titled env titles)) =
      { withTitles env titles t with live } := withTitles_live titles live
  rw [hmade] at hcreate hcreated
  have hmissed : (titles.filter fun entry =>
      !(t.summaries titles.keys).any (·.publicId = entry.1)) = missing := filter_not_listed t titles
  have hsummaries : Nodes.summaries titles.keys t = .ok (t.summaries titles.keys) t :=
    Command.bind_of_ok (Command.given_of_le (by rwa [Keyed.keys, List.length_map]))
  refine ⟨?_, hcreated, ?_, fun id hid => ⟨fun hmem => ?_, (hnew id hid).2⟩⟩
  · rw [Command.bind_of_ok hsummaries, Command.bind_of_ok hreplace,
      Command.bind_of_ok (Command.modify_eq _ t₁), hretitle]
    rw [hmissed, Command.bind_of_ok hcreate]
    rfl
  · rw [withTitles_frame]
    exact hspaceId
  · have hends := (hreplaced.liveEnds _ hmem).2
    have hfree : t.hasNodeId id = false := (hnew id hid).1
    exact Bool.false_ne_true (hfree.symm.trans hends)

/-- Replacing the members of a space that is there works if the titled nodes are not too many. -/
theorem space_eq (hfits : fits titles s = true) :
    Reconcile.space env p titles s = .ok ⟨⟩ (withMembers env space titles s) ∧
      (withMembers env space titles s).GraphSound env.tokens := by
  obtain ⟨hexisting, hmissing⟩ := fits_iff.mp hfits
  have hlength := length_titles h hkeys
  obtain ⟨hspace, hsound, hspaceId, hnew⟩ := space_upTo quiet h hkeys hspace
    (by unfold maxParameters at *; omega) hexisting
  have hnodup : (newIds titles s).Nodup := by
    refine List.nodup_range.map fun a b hab => ?_
    have : s.nodes.nextId + (a : ℤ) = s.nodes.nextId + b := hab
    omega
  have hresult : withMembers env space titles s = { withExisting env space titles s with
      live := (withExisting env space titles s).live ++ (newIds titles s).map (space.id, ·) } := by
    unfold withMembers withExisting memberIds
    rw [List.map_append, List.append_assoc]
  rw [hresult]
  constructor
  · rw [hspace]
    exact includeNodes_eq space.id hmissing hnodup (fun id hid => (hnew id hid).1) hspaceId
      fun id hid => (hnew id hid).2
  · refine hsound.withLive fun pair hpair => ?_
    rcases List.mem_append.mp hpair with hold | hmem
    · exact hsound.liveEnds pair hold
    · obtain ⟨id, hid, rfl⟩ := List.mem_map.mp hmem
      exact ⟨hspaceId, (hnew id hid).2⟩

/-- If there are too many of them, one of the statements is refused. -/
theorem space_of_overfull (hfull : fits titles s = false) :
    ∃ t, Reconcile.space env p titles s = .error .tooManyParameters t := by
  by_cases hall : titles.length ≤ maxParameters
  · by_cases hexisting : 2 * (s.summaries titles.keys).length ≤ maxParameters
    · have hmissing : maxParameters < 2 * (newIds titles s).length := by
        by_contra hfew
        exact absurd (fits_iff.mpr ⟨hexisting, by omega⟩) (by simp [hfull])
      refine ⟨withExisting env space titles s, ?_⟩
      rw [(space_upTo quiet h hkeys hspace hall hexisting).1]
      exact includeNodes_of_many space.id hmissing
    · rw [space_of_found hspace]
      set t := (Spaces.withDocument env space s).2.2 with ht
      have hlisted : Nodes.summaries titles.keys t = .ok (s.summaries titles.keys) t := by
        rw [← summaries_withDocument env s space]
        exact Command.bind_of_ok (Command.given_of_le (by rwa [Keyed.keys, List.length_map]))
      have hmany : maxParameters < 2 * ((s.summaries titles.keys).map (·.id)).length := by
        rw [List.length_map]
        omega
      obtain ⟨u, hreplace⟩ := replaceNodes_of_many (s := t) space.id hmany
      exact ⟨u, (Command.bind_of_ok hlisted).trans (Command.bind_of_error hreplace)⟩
  · rw [space_of_found hspace]
    refine ⟨_, Command.bind_of_error (Command.bind_of_error (Command.given_of_lt ?_))⟩
    rw [Keyed.keys, List.length_map]
    omega

end Space

end NodeGraph.Reconcile
