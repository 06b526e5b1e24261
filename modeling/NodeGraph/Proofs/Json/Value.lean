import NodeGraph.Proofs.Json.Numeral
import NodeGraph.Proofs.Keyed

/-!
Induction over JSON values, and their canonical form.
-/
namespace NodeGraph.Json

mutual

private theorem induction_value {P : Json → Prop} (null : P .null) (bool : ∀ b, P (.bool b))
    (int : ∀ i, P (.int i)) (float : ∀ x, P (.float x)) (str : ∀ s, P (.str s))
    (arr : ∀ items, (∀ v ∈ items, P v) → P (.arr items))
    (obj : ∀ fields, (∀ entry ∈ fields, P entry.2) → P (.obj fields)) : ∀ v, P v
  | .null => null
  | .bool b => bool b
  | .int i => int i
  | .float x => float x
  | .str s => str s
  | .arr items => arr items (induction_items null bool int float str arr obj items)
  | .obj fields => obj fields (induction_fields null bool int float str arr obj fields)

private theorem induction_items {P : Json → Prop} (null : P .null) (bool : ∀ b, P (.bool b))
    (int : ∀ i, P (.int i)) (float : ∀ x, P (.float x)) (str : ∀ s, P (.str s))
    (arr : ∀ items, (∀ v ∈ items, P v) → P (.arr items))
    (obj : ∀ fields, (∀ entry ∈ fields, P entry.2) → P (.obj fields)) :
    ∀ items : List Json, ∀ v ∈ items, P v
  | [], _, h => absurd h List.not_mem_nil
  | w :: rest, v, h => by
    rcases List.mem_cons.mp h with heq | hmem
    · rw [heq]
      exact induction_value null bool int float str arr obj w
    · exact induction_items null bool int float str arr obj rest v hmem

private theorem induction_fields {P : Json → Prop} (null : P .null) (bool : ∀ b, P (.bool b))
    (int : ∀ i, P (.int i)) (float : ∀ x, P (.float x)) (str : ∀ s, P (.str s))
    (arr : ∀ items, (∀ v ∈ items, P v) → P (.arr items))
    (obj : ∀ fields, (∀ entry ∈ fields, P entry.2) → P (.obj fields)) :
    ∀ fields : List (String × Json), ∀ entry ∈ fields, P entry.2
  | [], _, h => absurd h List.not_mem_nil
  | (k, w) :: rest, entry, h => by
    rcases List.mem_cons.mp h with heq | hmem
    · rw [heq]
      exact induction_value null bool int float str arr obj w
    · exact induction_fields null bool int float str arr obj rest entry hmem

end

/-- What holds of a value whenever it holds of its items or fields holds of every value. -/
@[elab_as_elim, induction_eliminator]
theorem induction {P : Json → Prop} (v : Json) (null : P .null) (bool : ∀ b, P (.bool b))
    (int : ∀ i, P (.int i)) (float : ∀ x, P (.float x)) (str : ∀ s, P (.str s))
    (arr : ∀ items, (∀ v ∈ items, P v) → P (.arr items))
    (obj : ∀ fields, (∀ entry ∈ fields, P entry.2) → P (.obj fields)) : P v :=
  induction_value null bool int float str arr obj v

mutual

/-- Every number in the value is one that a text can hold. -/
def Fits : Json → Prop
  | int i => IsNumber (.int i)
  | float x => IsNumber (.float x)
  | arr items => FitsItems items
  | obj fields => FitsFields fields
  | _ => True

def FitsItems : List Json → Prop
  | [] => True
  | v :: rest => Fits v ∧ FitsItems rest

def FitsFields : List (String × Json) → Prop
  | [] => True
  | (_, v) :: rest => Fits v ∧ FitsFields rest

end

theorem fitsItems_iff {items : List Json} : FitsItems items ↔ ∀ v ∈ items, Fits v := by
  induction items with
  | nil => simp [FitsItems]
  | cons v rest ih => simp [FitsItems, ih]

theorem fitsFields_iff {fields : List (String × Json)} :
    FitsFields fields ↔ ∀ entry ∈ fields, Fits entry.2 := by
  induction fields with
  | nil => simp [FitsFields]
  | cons entry rest ih => simp [FitsFields, ih]

theorem depthItems_le {items : List Json} {n : ℕ} :
    depthItems items ≤ n ↔ ∀ v ∈ items, depth v ≤ n := by
  induction items with
  | nil => simp [depthItems]
  | cons v rest ih => simp [depthItems, ih]

theorem depthFields_le {fields : List (String × Json)} {n : ℕ} :
    depthFields fields ≤ n ↔ ∀ entry ∈ fields, depth entry.2 ≤ n := by
  induction fields with
  | nil => simp [depthFields]
  | cons entry rest ih => simp [depthFields, ih]

theorem depthItems_map {items : List Json} {f : Json → Json}
    (h : ∀ v ∈ items, (f v).depth = v.depth) : depthItems (items.map f) = depthItems items := by
  induction items with
  | nil => rfl
  | cons v rest ih =>
    obtain ⟨hv, hrest⟩ := List.forall_mem_cons.mp h
    rw [List.map_cons, depthItems, depthItems, hv, ih hrest]

theorem depthFields_map {fields : List (String × Json)} {f : Json → Json}
    (h : ∀ entry ∈ fields, (f entry.2).depth = entry.2.depth) :
    depthFields (fields.map fun entry => (entry.1, f entry.2)) = depthFields fields := by
  induction fields with
  | nil => rfl
  | cons entry rest ih =>
    obtain ⟨hentry, hrest⟩ := List.forall_mem_cons.mp h
    rw [List.map_cons, depthFields, depthFields, hentry, ih hrest]

/-- Arrays in one another, so many deep. -/
def nested : ℕ → Json
  | 0 => .null
  | n + 1 => .arr [nested n]

theorem depth_nested (n : ℕ) : (nested n).depth = n := by
  induction n with
  | zero => rfl
  | succ n ih => simp [nested, depth, depthItems, ih]

theorem fits_nested (n : ℕ) : (nested n).Fits := by
  induction n with
  | zero => trivial
  | succ n ih => exact ⟨ih, trivial⟩

/-! ### Canonical form -/

theorem canonicalItems_eq (items : List Json) : canonicalItems items = items.map canonical := by
  induction items with
  | nil => rfl
  | cons v rest ih => rw [canonicalItems, ih, List.map_cons]

theorem canonicalFields_eq (fields : List (String × Json)) :
    canonicalFields fields = fields.map fun entry => (entry.1, canonical entry.2) := by
  induction fields with
  | nil => rfl
  | cons entry rest ih => rw [canonicalFields, ih, List.map_cons]

theorem canonical_fits {v : Json} (h : v.Fits) : v.canonical.Fits := by
  induction v with
  | arr items ih =>
    have hitems := fitsItems_iff.mp h
    show FitsItems (canonicalItems items)
    rw [canonicalItems_eq, fitsItems_iff]
    intro w hw
    obtain ⟨v, hv, rfl⟩ := List.mem_map.mp hw
    exact ih v hv (hitems v hv)
  | obj fields ih =>
    have hfields := fitsFields_iff.mp h
    show FitsFields (Keyed.ofList (canonicalFields fields))
    rw [fitsFields_iff]
    intro entry hentry
    have hmem := Keyed.mem_of_mem_ofList hentry
    rw [canonicalFields_eq] at hmem
    obtain ⟨field, hfield, rfl⟩ := List.mem_map.mp hmem
    exact ih field hfield (hfields field hfield)
  | _ => exact h

theorem depth_canonical_le (v : Json) : v.canonical.depth ≤ v.depth := by
  induction v with
  | arr items ih =>
    show depthItems (canonicalItems items) + 1 ≤ depthItems items + 1
    rw [add_le_add_iff_right, canonicalItems_eq, depthItems_le]
    intro w hw
    obtain ⟨v, hv, rfl⟩ := List.mem_map.mp hw
    exact (ih v hv).trans (depthItems_le.mp le_rfl v hv)
  | obj fields ih =>
    show depthFields (Keyed.ofList (canonicalFields fields)) + 1 ≤ depthFields fields + 1
    rw [add_le_add_iff_right, depthFields_le]
    intro entry hentry
    have hmem := Keyed.mem_of_mem_ofList hentry
    rw [canonicalFields_eq] at hmem
    obtain ⟨field, hfield, rfl⟩ := List.mem_map.mp hmem
    exact (ih field hfield).trans (depthFields_le.mp le_rfl field hfield)
  | _ => exact le_rfl

/-- The canonical form of a value is its own. -/
theorem canonical_canonical (v : Json) : v.canonical.canonical = v.canonical := by
  induction v with
  | arr items ih =>
    simp only [canonical, canonicalItems_eq, List.map_map]
    congr 1
    exact List.map_congr_left ih
  | obj fields ih =>
    simp only [canonical, canonicalFields_eq]
    rw [← Keyed.ofList_map, List.map_map, Keyed.ofList_of_sorted (Keyed.sorted_ofList _)]
    congr 2
    refine List.map_congr_left fun entry hentry => ?_
    show (entry.1, entry.2.canonical.canonical) = (entry.1, entry.2.canonical)
    rw [ih entry hentry]
  | _ => rfl

end NodeGraph.Json
