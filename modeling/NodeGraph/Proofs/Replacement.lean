import NodeGraph.Proofs.Reconcile.Crowds

/-!
Replacing the members of a space: the listed nodes become its members and take their titles, those
that are missing are made with the documents they have, and nothing else changes. It fails where
more nodes are listed than one statement can be given.
-/
namespace NodeGraph

open Store

/-- What making the titled nodes the members of a space has made of a store. -/
structure Replaced (env : Env) (space : Space) (titles : Keyed String) (s t : Store) : Prop where
  sound : t.GraphSound env.tokens
  /-- Exactly the listed nodes are members. -/
  members : ∀ q, t.IsMember space.publicId q ↔ q ∈ titles.keys
  /-- The members of other spaces stay. -/
  others : ∀ p ≠ space.publicId, ∀ q, t.IsMember p q ↔ s.IsMember p q
  pairs : t.live.filter (·.1 ≠ space.id) = s.live.filter (·.1 ≠ space.id)
  /-- Every listed node is there with its title. -/
  titled : ∀ q title, Keyed.get? q titles = some title → ∃ row ∈ t.nodes.rows,
    row.publicId = q ∧ row.title = title ∧ row.titleTokens = some (env.tokens title : ℤ)
  /-- A node that was there is what it was, unless another title is listed for it: then title, token
  count and time of update are new. -/
  kept : ∀ old ∈ s.nodes.rows, ∃ row ∈ t.nodes.rows, row = old ∨
    ∃ title, Keyed.get? old.publicId titles = some title ∧ title ≠ old.title ∧
      row = { old with title, titleTokens := some (env.tokens title : ℤ), updatedAt := env.now }
  /-- A new node is a listed one, without content, and refers to the documents that it has. -/
  made : ∀ row ∈ t.nodes.rows, s.hasNode row.publicId = false →
    row.publicId ∈ titles.keys ∧ row.kind = NodeKind.default.name ∧ row.content = none ∧
      row.text = "" ∧ row.removed = false ∧
      row.editorDocument = s.documentId? row.publicId .editor ∧
      row.graphDocument = s.documentId? row.publicId .graph
  /-- The space refers to the document that it has, if it did not to any. -/
  document : ∃ row ∈ t.spaces.rows,
    row = { space with
      document := space.document.or (s.documentId? space.publicId .space)
      updatedAt := row.updatedAt }
  /-- Other spaces stay what they were. -/
  spaces : t.spaces.rows.map (·.id) = s.spaces.rows.map (·.id) ∧
    ∀ row ∈ s.spaces.rows, row.id ≠ space.id → row ∈ t.spaces.rows
  edges : t.edges = s.edges
  /-- Documents, events, those taken out of spaces, roles and what else there is. -/
  records : Reconcile.SameRecords s t

namespace Reconcile

variable {env : Env} {s : Store} {p : String} {space : Space} {titles : Keyed String}

theorem filter_live_withMembers :
    (withMembers env space titles s).live.filter (·.1 ≠ space.id) =
      s.live.filter (·.1 ≠ space.id) := by
  show (withoutFirst space.id s.live ++ (memberIds titles s).map (space.id, ·)).filter _ = _
  have hnone : ((memberIds titles s).map (space.id, ·)).filter (·.1 ≠ space.id) = [] := by
    simp
  rw [List.filter_append, hnone, List.append_nil]
  unfold withoutFirst
  rw [List.filter_filter]
  simp

theorem edges_withMembers : (withMembers env space titles s).edges = s.edges := by
  unfold withMembers
  rw [withTitles_frame, withDocument_frame]

theorem spaces_withMembers : (withMembers env space titles s).spaces =
    (Spaces.withDocument env space s).2.2.spaces := by
  unfold withMembers
  rw [withTitles_frame]

/-- A listed title is that of the row. -/
theorem title_titled {row : NodeRow} {title : String} (hrow : row.Derived env.tokens)
    (hlisted : Keyed.get? row.publicId titles = some title) :
    (titled env titles row).title = title ∧
      (titled env titles row).titleTokens = some (env.tokens title : ℤ) := by
  unfold titled
  rw [hlisted]
  dsimp only
  split
  · rename_i hsame
    rw [hsame]
    exact ⟨rfl, hrow.titleTokens⟩
  · exact ⟨rfl, rfl⟩

theorem titled_cases (env : Env) (titles : Keyed String) (row : NodeRow) :
    titled env titles row = row ∨
      ∃ title, Keyed.get? row.publicId titles = some title ∧ title ≠ row.title ∧
        titled env titles row = row.retitled env title := by
  unfold titled
  cases Keyed.get? row.publicId titles with
  | none => exact Or.inl rfl
  | some title =>
    by_cases hsame : title = row.title
    · exact Or.inl (if_pos hsame)
    · exact Or.inr ⟨title, rfl, hsame, if_neg hsame⟩

/-- A node that was not there is made for one of the entries. -/
theorem mem_rows_withMembers_of_free {row : NodeRow}
    (hrow : row ∈ (withMembers env space titles s).nodes.rows)
    (hfree : s.hasNode row.publicId = false) :
    ∃ entry ∈ titles, row = memberRow env s entry.1 entry.2 row.id := by
  rw [rows_withMembers] at hrow
  rcases List.mem_append.mp hrow with hold | hnew
  · obtain ⟨old, hthere, rfl⟩ := List.mem_map.mp hold
    rw [publicId_titled, hasNode_iff.mpr ⟨old, hthere, rfl⟩] at hfree
    exact absurd hfree (by simp)
  · obtain ⟨i, hi, rfl⟩ := List.mem_mapIdx.mp hnew
    exact ⟨_, (List.mem_filter.mp (List.getElem_mem hi)).1, rfl⟩

theorem exists_row_withMembers (hs : s.GraphSound env.tokens) {q title : String}
    (hlisted : Keyed.get? q titles = some title) :
    ∃ row ∈ (withMembers env space titles s).nodes.rows, row.publicId = q ∧ row.title = title ∧
      row.titleTokens = some (env.tokens title : ℤ) := by
  rw [rows_withMembers]
  by_cases hthere : s.hasNode q = true
  · obtain ⟨old, hold, rfl⟩ := hasNode_iff.mp hthere
    exact ⟨_, List.mem_append_left _ (List.mem_map_of_mem hold), publicId_titled titles old,
      title_titled (hs.derived old hold) hlisted⟩
  · have hmissing : (q, title) ∈ titles.filter fun entry => !s.hasNode entry.1 :=
      List.mem_filter.mpr ⟨Keyed.mem_of_get? hlisted, by simp [hthere]⟩
    obtain ⟨i, hi, hentry⟩ := List.mem_iff_getElem.mp hmissing
    refine ⟨memberRow env s q title (s.nodes.nextId + i), ?_, rfl, rfl, rfl⟩
    refine List.mem_append_right _ (List.mem_mapIdx.mpr ⟨i, hi, ?_⟩)
    rw [hentry]

theorem mem_withDocument {row : Space} (hrow : row ∈ s.spaces.rows) (hne : row.id ≠ space.id) :
    row ∈ (Spaces.withDocument env space s).2.2.spaces.rows := by
  unfold Spaces.withDocument
  split
  · exact List.mem_map.mpr ⟨row, hrow, if_neg (by simpa using hne)⟩
  · exact hrow

theorem exists_withDocument (env : Env) (hspace : space ∈ s.spaces.rows) :
    ∃ row ∈ (Spaces.withDocument env space s).2.2.spaces.rows,
      row = { space with
        document := space.document.or (s.documentId? space.publicId .space)
        updatedAt := row.updatedAt } := by
  unfold Spaces.withDocument
  split
  · rename_i id hnone hdocument
    refine ⟨_, List.mem_map.mpr ⟨space, hspace, if_pos (decide_eq_true rfl)⟩, ?_⟩
    rw [hnone, hdocument]
    rfl
  · rename_i hother
    refine ⟨space, hspace, ?_⟩
    have hsame : space.document.or (s.documentId? space.publicId .space) = space.document := by
      cases hdocument : space.document with
      | some id => rfl
      | none =>
        cases hthere : s.documentId? space.publicId .space with
        | none => rfl
        | some id => exact absurd hthere (hother id hdocument)
    rw [hsame]

theorem replaced_withMembers (quiet : env.rivals = {}) (h : s.GraphSound env.tokens)
    (hkeys : titles.keys.Nodup) (hspace : s.space? p = some space) (hfits : fits titles s = true) :
    Replaced env space titles s (withMembers env space titles s) := by
  have ht := (space_eq quiet h hkeys hspace hfits).2
  obtain ⟨hmem, rfl⟩ := h.space?_eq_some.mp hspace
  refine ⟨ht, fun q => isMember_withMembers h ht hkeys hspace,
    fun p hne q => isMember_withMembers_of_ne h ht hkeys hspace hne, filter_live_withMembers,
    fun q title => exists_row_withMembers h, fun old hold => ?_,
    fun row hrow hfree => ?_, ?_, ⟨?_, fun row hrow hne => ?_⟩, edges_withMembers,
    sameRecords_withMembers space titles⟩
  · have hthere : titled env titles old ∈ (withMembers env space titles s).nodes.rows := by
      rw [rows_withMembers]
      exact List.mem_append_left _ (List.mem_map_of_mem hold)
    exact ⟨_, hthere, titled_cases env titles old⟩
  · obtain ⟨entry, hentry, hmade⟩ := mem_rows_withMembers_of_free hrow hfree
    rw [hmade]
    exact ⟨List.mem_map_of_mem hentry, rfl, rfl, rfl, rfl, rfl, rfl⟩
  · rw [spaces_withMembers]
    exact exists_withDocument env hmem
  · rw [spaces_withMembers]
    exact map_spaces_withDocument env s space (·.id) fun _ _ => rfl
  · rw [spaces_withMembers]
    exact mem_withDocument hrow hne

end Reconcile

/-- In every reachable store, making titled nodes the members of a space that is there succeeds, and
replaces its members exactly, as long as one statement can be given all titled nodes that are there
and one all that are missing. Otherwise it fails, and its transaction changes nothing. -/
theorem Reachable.replaced {tokens : Tokenizer} {s : Store} (h : Reachable tokens s) (clock : ℤ)
    {p : String} {space : Space} (hspace : s.space? p = some space) {titles : Keyed String}
    (hkeys : titles.keys.Nodup) :
    let env : Env := { clock, tokens }
    let there := titles.filter fun entry => s.hasNode entry.1
    let missing := titles.filter fun entry => !s.hasNode entry.1
    (2 * there.length ≤ maxParameters ∧ 2 * missing.length ≤ maxParameters →
        ∃ t, Reconcile.space env p titles s = .ok ⟨⟩ t ∧ Replaced env space titles s t) ∧
      (¬ (2 * there.length ≤ maxParameters ∧ 2 * missing.length ≤ maxParameters) →
        Command.transaction (Reconcile.space env p titles) s = .error .tooManyParameters s) := by
  intro env there missing
  have hs : s.GraphSound env.tokens := h.sound.toGraphSound
  have hquiet : env.rivals = {} := rfl
  rw [← Reconcile.fits_iff_counts hs hkeys]
  constructor
  · intro hfits
    exact ⟨_, (Reconcile.space_eq hquiet hs hkeys hspace hfits).1,
      Reconcile.replaced_withMembers hquiet hs hkeys hspace hfits⟩
  · intro hfull
    obtain ⟨t, herror⟩ := Reconcile.space_of_overfull hquiet hs hkeys hspace
      (Bool.eq_false_iff.mpr hfull)
    exact Command.transaction_of_error herror

/-- A space has two members, a third node is in no space, and a document without a node waits. -/
def gathered : List (ℤ × Operation) :=
  [(1000, .createSpace "s" "S" none fun _ => ""),
    (2000, .upsert "s" .space [] (some (.obj [("nodes", .obj [("a", .obj []), ("b", .obj [])])]))),
    (3000, .pass 1 false 60000), (4000, .upsert "d" .methodGraph [] none),
    (5000, .pass 1 false 60000), (6000, .upsert "c" .editor [] (some (.str "text")))]

theorem Reachable.replaced_gathered :
    let s := History.run String.length gathered {}
    let titles := [("a", "A"), ("c", "C"), ("d", "")]
    Reachable String.length s ∧ Keyed.keys titles = ["a", "c", "d"] ∧
      s.nodes.rows.map (fun row => (row.publicId, row.title)) = [("a", ""), ("b", ""), ("d", "")] ∧
      s.documentId? "c" .editor = some 3 ∧
      ∃ space t, s.space? "s" = some space ∧
        Reconcile.space { clock := 7000, tokens := String.length } "s" titles s = .ok ⟨⟩ t ∧
        Replaced { clock := 7000, tokens := String.length } space titles s t := by
  intro s titles
  have hheld : ∀ entry ∈ gathered, entry.2.Held := by
    simp [gathered, Operation.Held]
  have hreachable : Reachable String.length s := Reachable.empty.run hheld
  obtain ⟨space, hspace⟩ : ∃ space, s.space? "s" = some space :=
    Option.isSome_iff_exists.mp (by decide +kernel)
  have hkeys : (Keyed.keys titles).Nodup := by decide
  obtain ⟨hreplaces, -⟩ := hreachable.replaced 7000 hspace hkeys
  obtain ⟨t, hdone, hreplaced⟩ := hreplaces (by decide +kernel)
  exact ⟨hreachable, rfl, by decide +kernel, by decide +kernel, space, t, hspace, hdone, hreplaced⟩

/-- A space in a store without nodes, and one new member more than a statement can be given. -/
theorem Reachable.unreplaced_crowd :
    let s := History.run String.length [(1000, .createSpace "s" "S" none fun _ => "")] {}
    Reachable String.length s ∧ (s.space? "s").isSome ∧ (crowd 16384).keys.Nodup ∧
      Command.transaction
          (Reconcile.space { clock := 2000, tokens := String.length } "s" (crowd 16384)) s =
        .error .tooManyParameters s := by
  intro s
  have hreachable : Reachable String.length s :=
    Reachable.empty.run (by simp [Operation.Held])
  obtain ⟨space, hspace⟩ : ∃ space, s.space? "s" = some space :=
    Option.isSome_iff_exists.mp (by decide +kernel)
  have hkeys : (crowd 16384).keys.Nodup := nodup_keys_crowd (by decide)
  have hobstacle : (Plan.space "s" (crowd 16384)).obstacle? s = some .tooManyParameters :=
    Plan.obstacle?_of_no_nodes hreachable.sound.toGraphSound hspace hkeys (by decide +kernel)
      (by rw [length_crowd]; decide)
  have hfull : Reconcile.fits (crowd 16384) s = false := by
    rw [Plan.obstacle?_of_space hspace] at hobstacle
    simpa using hobstacle
  have hquiet : ({ clock := 2000, tokens := String.length } : Env).rivals = {} := rfl
  obtain ⟨t, herror⟩ := Reconcile.space_of_overfull hquiet hreachable.sound.toGraphSound hkeys
    hspace hfull
  exact ⟨hreachable, by rw [hspace]; rfl, hkeys, Command.transaction_of_error herror⟩

end NodeGraph
