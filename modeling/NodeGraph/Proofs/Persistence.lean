import NodeGraph.Proofs.Converging
import NodeGraph.Proofs.Overlap

/-!
What nothing takes back: whatever is done to a store, its nodes and spaces keep their ids and
names, an id that has been given is never given again, and edges stay.
-/
namespace NodeGraph

namespace Table

variable {ρ κ : Type} {id : ρ → ℤ} {key : ρ → κ} {t u v : Table ρ}

/-- The ids given so far are still given to the same rows, if to any. -/
structure Continues (id : ρ → ℤ) (key : ρ → κ) (t u : Table ρ) : Prop where
  lastId : t.lastId ≤ u.lastId
  rows : ∀ row ∈ u.rows, id row ≤ t.lastId → ∃ old ∈ t.rows, id old = id row ∧ key old = key row

theorem Continues.refl (t : Table ρ) : t.Continues id key t :=
  ⟨le_rfl, fun row hrow _ => ⟨row, hrow, rfl, rfl⟩⟩

theorem Continues.trans (h : t.Continues id key u) (h' : u.Continues id key v) :
    t.Continues id key v := by
  refine ⟨h.lastId.trans h'.lastId, fun row hrow hid => ?_⟩
  obtain ⟨middle, hmiddle, hmid, hmkey⟩ := h'.rows row hrow (hid.trans h.lastId)
  obtain ⟨old, hold, hoid, hokey⟩ := h.rows middle hmiddle (hmid ▸ hid)
  exact ⟨old, hold, hoid.trans hmid, hokey.trans hmkey⟩

theorem continues_of_eq (h : u = t) : t.Continues id key u := by
  rw [h]
  exact .refl t

theorem continues_of_subset (hlast : t.lastId ≤ u.lastId) (hrows : ∀ row ∈ u.rows, row ∈ t.rows) :
    t.Continues id key u :=
  ⟨hlast, fun row hrow _ => ⟨row, hrows row hrow, rfl, rfl⟩⟩

theorem continues_keep (p : ρ → Bool) : t.Continues id key (t.keep p) :=
  continues_of_subset le_rfl fun _ hrow => (List.mem_filter.mp hrow).1

theorem continues_skipId : t.Continues id key t.skipId :=
  continues_of_subset (Int.lt_succ _).le fun _ hrow => hrow

/-- A new row takes an id above all that were given. -/
theorem continues_of_append {row : ρ} (hrows : u.rows = t.rows ++ [row])
    (hlast : u.lastId = t.nextId) (hid : id row = t.nextId) : t.Continues id key u := by
  refine ⟨hlast ▸ (Int.lt_succ _).le, fun r hr hle => ?_⟩
  rw [hrows] at hr
  rcases List.mem_append.mp hr with hold | hnew
  · exact ⟨r, hold, rfl, rfl⟩
  · rw [List.mem_singleton.mp hnew, hid] at hle
    exact absurd hle (not_le.mpr (Int.lt_succ _))

theorem continues_add {row : ℤ → ρ} (hrow : id (row t.nextId) = t.nextId) :
    t.Continues id key (t.add row) :=
  continues_of_append rfl rfl hrow

/-- Rows may be changed in place as far as id and key stay. -/
theorem continues_of_keys (hlast : u.lastId = t.lastId)
    (hkeys : u.rows.map (fun row => (id row, key row)) = t.rows.map fun row => (id row, key row)) :
    t.Continues id key u := by
  refine ⟨hlast.ge, fun row hrow _ => ?_⟩
  have hmem : (id row, key row) ∈ t.rows.map fun row => (id row, key row) :=
    hkeys ▸ List.mem_map_of_mem hrow
  obtain ⟨old, hold, heq⟩ := List.mem_map.mp hmem
  exact ⟨old, hold, congrArg Prod.fst heq, congrArg Prod.snd heq⟩

end Table

namespace Store

variable {tokens : Tokenizer} {env : Env} {s t u : Store} {p : String}

/-- Nodes, spaces and edges of `s` are those of `t` still, the new ones have new ids, and what was
taken out of a space was there. -/
structure Persists (s t : Store) : Prop extends Extends s t where
  nodeRows : s.nodes.Continues (·.id) (·.publicId) t.nodes
  spaceRows : s.spaces.Continues (·.id) (fun space => (space.publicId, space.slug)) t.spaces
  deleted : ∀ pair ∈ t.deleted,
    pair ∈ s.deleted ∨ (t.hasSpaceId pair.1 = true ∧ t.hasNodeId pair.2 = true)

theorem Extends.hasNodeId (h : Extends s t) {id : ℤ} (hnode : s.hasNodeId id = true) :
    t.hasNodeId id = true := by
  obtain ⟨old, hold, rfl⟩ := hasNodeId_iff.mp hnode
  obtain ⟨row, hrow, hid, -⟩ := h.nodes old hold
  exact hasNodeId_iff.mpr ⟨row, hrow, hid⟩

theorem Extends.hasSpaceId (h : Extends s t) {id : ℤ} (hspace : s.hasSpaceId id = true) :
    t.hasSpaceId id = true := by
  obtain ⟨old, hold, rfl⟩ := hasSpaceId_iff.mp hspace
  obtain ⟨row, hrow, hid, -⟩ := h.spaces old hold
  exact hasSpaceId_iff.mpr ⟨row, hrow, hid⟩

theorem Persists.refl (s : Store) : Persists s s :=
  ⟨.refl s, .refl _, .refl _, fun _ hpair => Or.inl hpair⟩

theorem Persists.trans (h : Persists s t) (h' : Persists t u) : Persists s u := by
  refine ⟨h.toExtends.trans h'.toExtends, h.nodeRows.trans h'.nodeRows,
    h.spaceRows.trans h'.spaceRows, fun pair hpair => ?_⟩
  rcases h'.deleted pair hpair with hmiddle | hends
  · rcases h.deleted pair hmiddle with hold | ⟨hspace, hnode⟩
    · exact Or.inl hold
    · exact Or.inr ⟨h'.hasSpaceId hspace, h'.hasNodeId hnode⟩
  · exact Or.inr hends

/-- What has been taken out of a space is a node of it still. -/
theorem Persists.deletedEnds (h : Persists s t)
    (hends : ∀ pair ∈ s.deleted, s.hasSpaceId pair.1 = true ∧ s.hasNodeId pair.2 = true) :
    ∀ pair ∈ t.deleted, t.hasSpaceId pair.1 = true ∧ t.hasNodeId pair.2 = true := by
  intro pair hpair
  rcases h.deleted pair hpair with hold | hnew
  · exact ⟨h.hasSpaceId (hends pair hold).1, h.hasNodeId (hends pair hold).2⟩
  · exact hnew

/-! ### Steps -/

/-- Rows that are changed in place, but for ids and names. -/
theorem persists_of_keys (hnodeId : t.nodes.lastId = s.nodes.lastId)
    (hnodes : t.nodes.rows.map (fun row => (row.id, row.publicId)) =
      s.nodes.rows.map fun row => (row.id, row.publicId))
    (hspaceId : t.spaces.lastId = s.spaces.lastId)
    (hspaces : t.spaces.rows.map (fun row => (row.id, row.publicId, row.slug)) =
      s.spaces.rows.map fun row => (row.id, row.publicId, row.slug))
    (hedges : ∀ pair ∈ s.edges, pair ∈ t.edges) (hdeleted : t.deleted = s.deleted) :
    Persists s t := by
  refine ⟨⟨fun old hold => ?_, fun old hold => ?_, hedges⟩, Table.continues_of_keys hnodeId hnodes,
    Table.continues_of_keys hspaceId hspaces, fun pair hpair => Or.inl (hdeleted ▸ hpair)⟩
  · have hmem : (old.id, old.publicId) ∈ t.nodes.rows.map fun row => (row.id, row.publicId) :=
      hnodes ▸ List.mem_map_of_mem hold
    obtain ⟨row, hrow, heq⟩ := List.mem_map.mp hmem
    exact ⟨row, hrow, congrArg Prod.fst heq, congrArg Prod.snd heq⟩
  · have hmem : (old.id, old.publicId, old.slug) ∈
        t.spaces.rows.map fun row => (row.id, row.publicId, row.slug) :=
      hspaces ▸ List.mem_map_of_mem hold
    obtain ⟨row, hrow, heq⟩ := List.mem_map.mp hmem
    exact ⟨row, hrow, congrArg Prod.fst heq, congrArg (fun key => key.2.1) heq⟩

theorem persists_of_graph (hnodes : t.nodes = s.nodes) (hspaces : t.spaces = s.spaces)
    (hedges : t.edges = s.edges) (hdeleted : t.deleted = s.deleted) : Persists s t :=
  persists_of_keys (congrArg Table.lastId hnodes) (by rw [hnodes]) (congrArg Table.lastId hspaces)
    (by rw [hspaces]) (fun _ hpair => hedges ▸ hpair) hdeleted

theorem persists_mapNodes {f : NodeRow → NodeRow}
    (hf : ∀ row ∈ s.nodes.rows, (f row).id = row.id ∧ (f row).publicId = row.publicId) :
    Persists s (s.mapNodes f) := by
  refine persists_of_keys rfl ?_ rfl rfl (fun _ hpair => hpair) rfl
  rw [rows_mapNodes, List.map_map]
  exact List.map_congr_left fun row hrow => Prod.ext (hf row hrow).1 (hf row hrow).2

theorem persists_changeNode {f : NodeRow → NodeRow}
    (hf : ∀ row, (f row).id = row.id ∧ (f row).publicId = row.publicId) :
    Persists s (s.changeNode p f) := by
  refine persists_mapNodes fun row _ => ?_
  split
  · exact hf row
  · exact ⟨rfl, rfl⟩

theorem persists_addNode {row : ℤ → NodeRow} (hrow : (row s.nodes.nextId).id = s.nodes.nextId) :
    Persists s { s with nodes := s.nodes.add row } :=
  ⟨⟨fun old hold => ⟨old, List.mem_append_left _ hold, rfl, rfl⟩,
    fun old hold => ⟨old, hold, rfl, rfl⟩, fun _ hpair => hpair⟩,
    Table.continues_add hrow, .refl _, fun _ hpair => Or.inl hpair⟩

theorem persists_materialize (env : Env) (s : Store) (p : String) (kind : NodeKind) :
    Persists s (s.materialize env p kind) := by
  unfold materialize
  split
  · exact .refl s
  · exact persists_addNode rfl

end Store

namespace Reconcile

open Store

variable {env : Env} {s : Store} {p : String}

theorem persists_withGraphDocument (env : Env) (s : Store) (p : String) (type : DocumentType) :
    Persists s (withGraphDocument env p type s) := by
  unfold withGraphDocument
  split
  · exact .refl s
  · exact persists_changeNode fun row => ⟨id_documented _ row, publicId_documented _ row⟩

theorem persists_withEdge (s : Store) (p child : String) : Persists s (withEdge p child s) := by
  unfold withEdge
  split
  · exact persists_of_keys rfl rfl rfl rfl (fun _ hpair => mem_addPair.mpr (Or.inr hpair)) rfl
  · exact .refl s

theorem persists_foldl_withChild (env : Env) (p : String) (s : Store) (children : List String) :
    Persists s (children.foldl (withChild env p) s) := by
  induction children generalizing s with
  | nil => exact .refl s
  | cons child rest ih =>
    have hchild : Persists s (withChild env p s child) := by
      unfold withChild
      split
      · exact .refl s
      · exact (persists_materialize env s child .default).trans (persists_withEdge _ p child)
    exact hchild.trans (ih _)

theorem persists_withDocument (env : Env) (s : Store) (space : Space) :
    Persists s (Spaces.withDocument env space s).2.2 := by
  have hlast : (Spaces.withDocument env space s).2.2.spaces.lastId = s.spaces.lastId := by
    unfold Spaces.withDocument
    split <;> rfl
  have hkeys := map_spaces_withDocument env s space
    (fun row => (row.id, row.publicId, row.slug)) fun _ _ => rfl
  rw [withDocument_frame]
  exact persists_of_keys rfl rfl hlast hkeys (fun _ hpair => hpair) rfl

theorem persists_foldl_withMember (env : Env) (s : Store) (missing : Keyed String) :
    Persists s (missing.foldl (withMember env) s) := by
  induction missing generalizing s with
  | nil => exact .refl s
  | cons entry rest ih =>
    have hmade : Persists s (withMember env s entry) := persists_addNode rfl
    exact hmade.trans (ih _)

theorem persists_withMembers (env : Env) (space : Space) (titles : Keyed String) (s : Store) :
    Persists s (withMembers env space titles s) := by
  have htitled : ∀ t : Store, Persists t (withTitles env titles t) := fun t =>
    (persists_mapNodes fun row _ => ⟨id_titled titles row, publicId_titled titles row⟩).trans
      (persists_foldl_withMember env _ _)
  have hlive : Persists (withTitles env titles (Spaces.withDocument env space s).2.2)
      (withMembers env space titles s) := persists_of_graph rfl rfl rfl rfl
  exact ((persists_withDocument env s space).trans (htitled _)).trans hlive

theorem persists_carriedOut (env : Env) (plan : Plan) (s : Store) :
    Persists s (carriedOut env plan s) := by
  cases plan with
  | editor p content =>
    exact (persists_materialize env s p .default).trans
      (persists_changeNode fun row => ⟨rfl, rfl⟩)
  | space p titles =>
    cases hrow : spaceFor? p titles s with
    | some row =>
      rw [carriedOut_space hrow]
      exact persists_withMembers env row titles s
    | none =>
      rw [carriedOut_of_no_space hrow]
      exact .refl s
  | graph p type kind children =>
    exact ((persists_materialize env s p kind).trans
      (persists_withGraphDocument env _ p type)).trans (persists_foldl_withChild env p _ children)
  | ignore reason => exact .refl s

end Reconcile

namespace Pass

open Store

variable {env : Env} {s : Store}

theorem persists_settle (quiet : env.rivals = {}) (h : s.GraphSound env.tokens) (e : QueuedEvent) :
    Persists s (settle env s e) := by
  rcases settle_cases quiet h e with ⟨-, hsame⟩ | ⟨-, hsettled⟩
  · rw [hsame]
    exact .refl s
  · rw [hsettled]
    cases e.verdict s with
    | dropped => exact persists_of_graph rfl rfl rfl rfl
    | buried fault => exact persists_of_graph rfl rfl rfl rfl
    | carried plan =>
      have hclaimed : Persists s (s.claim e.id) := persists_of_graph rfl rfl rfl rfl
      exact hclaimed.trans (Reconcile.persists_carriedOut env plan _)

theorem persists_foldl_settle (quiet : env.rivals = {}) (h : s.Sound env.tokens)
    (events : List QueuedEvent) : Persists s (events.foldl (settle env) s) := by
  induction events generalizing s with
  | nil => exact .refl s
  | cons e rest ih =>
    exact (persists_settle quiet h.toGraphSound e).trans (ih (settle_sound quiet h e))

theorem persists_run (quiet : env.rivals = {}) (h : s.Sound env.tokens) (owner : ℕ) (strict : Bool)
    (ttl : ℤ) : Persists s ((run env owner strict ttl).outcome s).2 :=
  run_induction quiet (P := Persists s)
    (fun _ _ ht => ht.trans (persists_of_graph rfl rfl rfl rfl))
    (fun _ e ht hkept => hkept.trans (persists_settle quiet ht.toGraphSound e)) h (.refl s)
    owner strict ttl

end Pass

/-! ### Every operation -/

namespace Store

variable {tokens : Tokenizer} {env : Env} {s t : Store}

theorem persists_upserted (env : Env) (s : Store) (p : String) (type : DocumentType)
    (data : List UInt8) (json : Option Json) : Persists s (s.upserted env p type data json) := by
  unfold upserted
  split <;> exact persists_of_graph rfl rfl rfl rfl

theorem persists_deleteDocument (clock : ℤ) (s : Store) (row : DocumentRow) :
    Persists s (s.deleteDocument clock row) := by
  obtain ⟨hnodes, hspaces⟩ := rows_deleteDocument clock s row
  refine persists_of_keys rfl ?_ rfl ?_ (fun _ hpair => hpair) rfl
  · rw [hnodes, List.map_map]
    rfl
  · rw [hspaces, List.map_map]
    rfl

theorem persists_updateNode {id : ℤ} {f : NodeRow → NodeRow}
    (hf : ∀ row, row.id = id → (f row).id = row.id ∧ (f row).publicId = row.publicId) :
    Persists s (s.updateNode id f) := by
  rw [updateNode_eq_mapNodes]
  refine persists_mapNodes fun row _ => ?_
  split
  · rename_i hid
    exact hf row hid
  · exact ⟨rfl, rfl⟩

theorem Edited.persists (h : s.Edited tokens t) : Persists s t := by
  obtain ⟨p, f, hf, rfl⟩ := h
  refine persists_mapNodes fun row hrow => ?_
  split
  · rename_i hkey
    exact ⟨(hf row hrow hkey).1, (hf row hrow hkey).2.1⟩
  · exact ⟨rfl, rfl⟩

/-- Stores that are alike have the same ids and names. -/
theorem Alike.persists (h : s.Alike t) : Persists s t := by
  have hsame := h.1.symm
  have hnodes : t.nodes.map NodeRow.undated = s.nodes.map NodeRow.undated :=
    congrArg (fun u : Store => u.nodes) hsame
  have hspaces : t.spaces.map Space.undated = s.spaces.map Space.undated :=
    congrArg (fun u : Store => u.spaces) hsame
  have hnodeKeys := congrArg
    (fun table : Table NodeRow => table.rows.map fun row => (row.id, row.publicId)) hnodes
  have hspaceKeys := congrArg
    (fun table : Table Space => table.rows.map fun row => (row.id, row.publicId, row.slug)) hspaces
  simp only [Table.map, List.map_map] at hnodeKeys hspaceKeys
  have hnodeId := congrArg (fun table : Table NodeRow => table.lastId) hnodes
  have hspaceId := congrArg (fun table : Table Space => table.lastId) hspaces
  have hedges := congrArg (fun u : Store => u.edges) hsame
  have hdeleted := congrArg (fun u : Store => u.deleted) hsame
  exact persists_of_keys hnodeId hnodeKeys hspaceId hspaceKeys (fun _ hpair => hedges.symm ▸ hpair)
    hdeleted

end Store

namespace Spaces

open Store

variable {tokens : Tokenizer} {env : Env} {s : Store}

theorem persists_newSpace (env : Env) (s : Store) (p title slug : String)
    (members : List Member) :
    Persists s { s with spaces := s.spaces.add (newSpace env p title slug), members } :=
  ⟨⟨fun old hold => ⟨old, hold, rfl, rfl⟩,
    fun old hold => ⟨old, List.mem_append_left _ hold, rfl, rfl⟩, fun _ hpair => hpair⟩, .refl _,
    Table.continues_add rfl, fun _ hpair => Or.inl hpair⟩

theorem persists_moved {space : Space} (hspace : space ∈ s.spaces.rows) {row : NodeRow}
    (hrow : row ∈ s.nodes.rows) : Persists s { s with
      live := s.live.filter (· ≠ (space.id, row.id))
      deleted := addPair (space.id, row.id) s.deleted } := by
  refine ⟨⟨fun old hold => ⟨old, hold, rfl, rfl⟩, fun old hold => ⟨old, hold, rfl, rfl⟩,
    fun _ hpair => hpair⟩, .refl _, .refl _, fun pair hpair => ?_⟩
  rcases Reconcile.mem_addPair.mp hpair with rfl | hold
  · exact Or.inr ⟨hasSpaceId_iff.mpr ⟨space, hspace, rfl⟩, hasNodeId_iff.mpr ⟨row, hrow, rfl⟩⟩
  · exact Or.inl hold

end Spaces

open Store

variable {tokens : Tokenizer} {env : Env} {s : Store}

theorem persists_replaces {clock : ℤ} {t : Store} (h : Operation.Replaces clock s t) :
    Persists s t := by
  induction h with
  | refl => exact .refl s
  | tail _ hstep ih =>
    obtain ⟨old, row, -, rfl⟩ := hstep
    exact ih.trans (persists_of_graph rfl rfl rfl rfl)

/-- No operation takes a node, a space, an edge or an id back. -/
theorem Operation.persists_perform (quiet : env.rivals = {}) (h : s.Sound env.tokens)
    (op : Operation) : Persists s (op.perform env s) := by
  have heffect := op.effect_perform quiet h.toGraphSound
  generalize op.perform env s = t at heffect ⊢
  cases heffect with
  | nothing => exact .refl s
  | upsert p type data json => exact persists_upserted env s p type data json
  | delete hrow => exact persists_deleteDocument env.clock s _
  | changeDocuments p column cell hreplaces hkeys => exact persists_replaces hreplaces
  | deleteDocuments p =>
    exact List.foldlRecOn _ _ (.refl s) fun t ht row _ =>
      ht.trans (persists_deleteDocument env.clock t row)
  | pass owner strict ttl => exact Pass.persists_run quiet h owner strict ttl
  | createSpace => exact Spaces.persists_newSpace env s _ _ _ _
  | expel hspace hrow =>
    exact Spaces.persists_moved (h.space?_eq_some.mp hspace).1 (h.nodeRow?_eq_some.mp hrow).1
  | setTitle hrow title => exact (Nodes.edited_titled env h.toGraphSound hrow title).persists
  | setRemoved hnode removed => exact (Nodes.edited_marked env h.toGraphSound removed _).persists
  | save heditor hgraph => exact persists_updateNode fun row hid => ⟨hid.symm, rfl⟩
  | _ => exact persists_of_graph rfl rfl rfl rfl

/-- Passes that overlap take no more back than a single one. -/
theorem persists_passes (h : s.Sound tokens) (schedule : List Turn) :
    Persists s (Passes.run tokens schedule { store := s }).store := by
  have hquiet : ({ clock := 0, tokens } : Env).rivals = {} := rfl
  have halike := (serial_run h schedule).effects { clock := 0, tokens } rfl rfl
  exact (Pass.persists_foldl_settle hquiet h _).trans halike.symm.persists

theorem Reachable.run (h : Reachable tokens s) {history : List (ℤ × Operation)}
    (hheld : ∀ entry ∈ history, entry.2.Held) : Reachable tokens (History.run tokens history s) := by
  induction history generalizing s with
  | nil => exact h
  | cons entry rest ih =>
    exact ih (h.perform entry.1 entry.2 (hheld entry List.mem_cons_self))
      fun other hother => hheld other (List.mem_cons_of_mem entry hother)

/-- In a reachable store what was taken out of a space is a node of it still. -/
theorem Reachable.deletedEnds (h : Reachable tokens s) :
    ∀ pair ∈ s.deleted, s.hasSpaceId pair.1 = true ∧ s.hasNodeId pair.2 = true := by
  induction h with
  | empty => exact fun _ hpair => absurd hpair List.not_mem_nil
  | perform hreachable clock op _ ih =>
    have hquiet : ({ clock, tokens } : Env).rivals = {} := rfl
    exact (op.persists_perform hquiet hreachable.sound).deletedEnds ih
  | passes hreachable schedule ih => exact (persists_passes hreachable.sound schedule).deletedEnds ih

end NodeGraph
