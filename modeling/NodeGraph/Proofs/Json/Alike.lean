import NodeGraph.Proofs.Json.Distinct

/-!
Values that differ at most in the order of keys: they are those of one canonical form, and so of one
canonical text.
-/
namespace NodeGraph.Json

/-- The value of a key; of a repeated key it is the last one. -/
def last? (key : String) (fields : List (String × Json)) : Option Json :=
  Keyed.get? key fields.reverse

/-- The same value, whatever the order of keys at any depth. Doubles are the same if their bits
are, and a number that is written as an integer is no double. -/
inductive Alike : Json → Json → Prop
  | null : Alike null null
  | bool (b : Bool) : Alike (.bool b) (.bool b)
  | int (i : ℤ) : Alike (.int i) (.int i)
  | float (x : Binary64) : Alike (.float x) (.float x)
  | str (s : String) : Alike (.str s) (.str s)
  | arr {items items' : List Json} (h : List.Forall₂ Alike items items') :
    Alike (.arr items) (.arr items')
  | obj {fields fields' : List (String × Json)}
    (h : ∀ key, Option.Rel Alike (last? key fields) (last? key fields')) :
    Alike (.obj fields) (.obj fields')

theorem last?_canonicalFields (key : String) (fields : List (String × Json)) :
    last? key (canonicalFields fields) = (last? key fields).map canonical := by
  unfold last?
  rw [canonicalFields_eq, ← List.map_reverse, Keyed.get?_map]

theorem mem_of_last? {key : String} {fields : List (String × Json)} {v : Json}
    (h : last? key fields = some v) : (key, v) ∈ fields :=
  List.mem_reverse.mp (Keyed.mem_of_get? h)

/-- Objects have one canonical form if the last values of each key have. -/
theorem canonical_obj_eq_iff {fields fields' : List (String × Json)} :
    (obj fields).canonical = (obj fields').canonical ↔
      ∀ key, (last? key fields).map canonical = (last? key fields').map canonical := by
  simp only [canonical, obj.injEq, Keyed.ofList_eq_iff, ← last?_canonicalFields]
  rfl

private theorem forall₂_alike_iff {items items' : List Json}
    (h : ∀ v ∈ items, ∀ w, Alike v w ↔ v.canonical = w.canonical) :
    List.Forall₂ Alike items items' ↔ items.map canonical = items'.map canonical := by
  induction items generalizing items' with
  | nil => simp [eq_comm]
  | cons v items ih =>
    cases items' with
    | nil => simp
    | cons w items' =>
      have hrest : List.Forall₂ Alike items items' ↔
          items.map canonical = items'.map canonical :=
        ih fun u hu => h u (List.mem_cons_of_mem v hu)
      simp [h v List.mem_cons_self, hrest]

private theorem rel_alike_iff {v? w? : Option Json}
    (h : ∀ v ∈ v?, ∀ w, Alike v w ↔ v.canonical = w.canonical) :
    Option.Rel Alike v? w? ↔ v?.map canonical = w?.map canonical := by
  cases v? with
  | none => cases w? <;> simp
  | some v => cases w? <;> simp [h v rfl]

/-- Values are alike if and only if their canonical forms are the same. -/
theorem alike_iff {v w : Json} : Alike v w ↔ v.canonical = w.canonical := by
  induction v generalizing w with
  | arr items ih =>
    have hitems (items' : List Json) : List.Forall₂ Alike items items' ↔
        items.map canonical = items'.map canonical :=
      forall₂_alike_iff fun v hv w => @ih v hv w
    constructor
    · intro h
      cases h with
      | arr h =>
        simp only [canonical, canonicalItems_eq, arr.injEq]
        exact (hitems _).mp h
    · intro h
      cases w with
      | arr items' =>
        simp only [canonical, canonicalItems_eq, arr.injEq] at h
        exact .arr ((hitems items').mpr h)
      | _ => cases h
  | obj fields ih =>
    have hvalues (key : String) (w? : Option Json) : Option.Rel Alike (last? key fields) w? ↔
        (last? key fields).map canonical = w?.map canonical :=
      rel_alike_iff fun v hv w => @ih (key, v) (mem_of_last? hv) w
    constructor
    · intro h
      cases h with
      | obj h => exact canonical_obj_eq_iff.mpr fun key => (hvalues key _).mp (h key)
    · intro h
      cases w with
      | obj fields' => exact .obj fun key => (hvalues key _).mpr (canonical_obj_eq_iff.mp h key)
      | _ => cases h
  | _ =>
    constructor
    · intro h
      cases h
      rfl
    · intro h
      cases w <;> cases h
      constructor

end NodeGraph.Json
