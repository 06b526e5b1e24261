import Mathlib.Tactic
import NodeGraph.Store.Foreign

/-!
Tables whose rows are numbered in increasing order, and rows found by a key.
-/
namespace NodeGraph

namespace Table

variable {ρ : Type} {id : ρ → ℤ} {t : Table ρ}

/-- Ids increase from row to row, and none is above the last id given. -/
def Numbered (id : ρ → ℤ) (t : Table ρ) : Prop :=
  (t.rows.map id).Pairwise (· < ·) ∧ ∀ row ∈ t.rows, id row ≤ t.lastId

@[simp] theorem rows_add (t : Table ρ) (row : ℤ → ρ) :
    (t.add row).rows = t.rows ++ [row t.nextId] := rfl

@[simp] theorem rows_skipId (t : Table ρ) : t.skipId.rows = t.rows := rfl

@[simp] theorem rows_keep (t : Table ρ) (p : ρ → Bool) : (t.keep p).rows = t.rows.filter p := rfl

@[simp] theorem rows_update (t : Table ρ) (p : ρ → Bool) (f : ρ → ρ) :
    (t.update p f).rows = t.rows.map fun row => if p row then f row else row := rfl

theorem any_iff {p : ρ → Bool} : t.any p = true ↔ ∃ row ∈ t.rows, p row = true :=
  List.any_eq_true

theorem numbered_empty : Numbered id ({} : Table ρ) :=
  ⟨List.Pairwise.nil, fun _ h => absurd h List.not_mem_nil⟩

theorem Numbered.lt_nextId (h : Numbered id t) : ∀ row ∈ t.rows, id row < t.nextId :=
  fun row hrow => Int.lt_add_one_of_le (h.2 row hrow)

theorem Numbered.nodup (h : Numbered id t) : (t.rows.map id).Nodup :=
  h.1.imp fun hlt => ne_of_lt hlt

/-- A row is known by its id. -/
theorem Numbered.eq_of_id_eq (h : Numbered id t) {a b : ρ} (ha : a ∈ t.rows) (hb : b ∈ t.rows)
    (hab : id a = id b) : a = b :=
  List.inj_on_of_nodup_map h.nodup ha hb hab

theorem Numbered.add (h : Numbered id t) {row : ℤ → ρ} (hrow : id (row t.nextId) = t.nextId) :
    Numbered id (t.add row) := by
  constructor
  · rw [rows_add, List.map_append, List.pairwise_append]
    refine ⟨h.1, List.pairwise_singleton _ _, ?_⟩
    intro a ha b hb
    obtain ⟨r, hr, rfl⟩ := List.mem_map.mp ha
    rw [List.map_singleton, List.mem_singleton, hrow] at hb
    rw [hb]
    exact h.lt_nextId r hr
  · intro r hr
    rw [rows_add] at hr
    rcases List.mem_append.mp hr with hold | hnew
    · exact (h.lt_nextId r hold).le
    · rw [List.mem_singleton.mp hnew, hrow]
      exact le_rfl

theorem Numbered.skipId (h : Numbered id t) : Numbered id t.skipId :=
  ⟨h.1, fun row hrow => (h.lt_nextId row hrow).le⟩

/-- Rows may be taken out. -/
theorem Numbered.sublist (h : Numbered id t) {rows : List ρ} (hrows : rows.Sublist t.rows) :
    Numbered id { t with rows } :=
  ⟨h.1.sublist (hrows.map id), fun row hrow => h.2 row (hrows.subset hrow)⟩

theorem Numbered.keep (h : Numbered id t) (p : ρ → Bool) : Numbered id (t.keep p) :=
  h.sublist List.filter_sublist

/-- Rows may be changed in place. -/
theorem Numbered.of_map_eq (h : Numbered id t) {rows : List ρ}
    (hrows : rows.map id = t.rows.map id) : Numbered id { t with rows } := by
  refine ⟨hrows ▸ h.1, fun row hrow => ?_⟩
  have hmem : id row ∈ t.rows.map id := hrows ▸ List.mem_map_of_mem hrow
  obtain ⟨r, hr, heq⟩ := List.mem_map.mp hmem
  exact heq ▸ h.2 r hr

theorem Numbered.map (h : Numbered id t) {f : ρ → ρ} (hf : ∀ row ∈ t.rows, id (f row) = id row) :
    Numbered id { t with rows := t.rows.map f } := by
  refine h.of_map_eq ?_
  rw [List.map_map]
  exact List.map_congr_left hf

theorem Numbered.update (h : Numbered id t) {p : ρ → Bool} {f : ρ → ρ}
    (hf : ∀ row ∈ t.rows, p row = true → id (f row) = id row) : Numbered id (t.update p f) := by
  refine h.map fun row hrow => ?_
  split
  · rename_i hp
    exact hf row hrow hp
  · rfl

/-- Several rows are added one after the other. -/
theorem rows_foldl_add {α : Type} (row : α → ℤ → ρ) (items : List α) (t : Table ρ) :
    (items.foldl (fun t a => t.add (row a)) t).rows =
      t.rows ++ items.mapIdx fun i a => row a (t.nextId + i) := by
  induction items generalizing t with
  | nil => simp
  | cons a rest ih =>
    rw [List.foldl_cons, ih, List.mapIdx_cons, rows_add, List.append_assoc, List.singleton_append]
    congr 2
    · simp
    · refine List.mapIdx_eq_mapIdx_iff.mpr fun i _ => ?_
      have hnext : (t.add (row a)).nextId + (i : ℤ) = t.nextId + ((i + 1 : ℕ) : ℤ) := by
        show t.lastId + 1 + 1 + (i : ℤ) = t.lastId + 1 + ((i + 1 : ℕ) : ℤ)
        push_cast
        ring
      rw [hnext]

theorem Numbered.foldl_add {α : Type} {row : α → ℤ → ρ} (hrow : ∀ a i, id (row a i) = i)
    (h : Numbered id t) (items : List α) :
    Numbered id (items.foldl (fun t a => t.add (row a)) t) := by
  induction items generalizing t with
  | nil => exact h
  | cons a rest ih => exact ih (h.add (hrow a _))

end Table

section Find

variable {ρ κ : Type} [DecidableEq κ] {key : ρ → κ} {rows : List ρ}

/-- Where keys are not repeated, looking a key up finds the row that has it. -/
theorem find?_key_eq_some (h : (rows.map key).Nodup) {k : κ} {row : ρ} :
    rows.find? (fun r => key r = k) = some row ↔ row ∈ rows ∧ key row = k := by
  constructor
  · intro hfind
    exact ⟨List.mem_of_find?_eq_some hfind, by simpa using List.find?_some hfind⟩
  · rintro ⟨hmem, hkey⟩
    cases hfind : rows.find? (fun r => key r = k) with
    | none =>
      have := List.find?_eq_none.mp hfind row hmem
      simp [hkey] at this
    | some r =>
      have hr : key r = k := by simpa using List.find?_some hfind
      rw [List.inj_on_of_nodup_map h (List.mem_of_find?_eq_some hfind) hmem (hr.trans hkey.symm)]

theorem find?_key_eq_none {k : κ} :
    rows.find? (fun r => key r = k) = none ↔ k ∉ rows.map key := by
  rw [List.find?_eq_none, List.mem_map]
  simp

end Find

end NodeGraph
