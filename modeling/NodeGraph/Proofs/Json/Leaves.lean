import NodeGraph.Proofs.Json.Value
import NodeGraph.Text.Leaves

/-!
The text leaves of a tree are those that lie on its paths through items and contents, in document
order.
-/
namespace NodeGraph.Json

/-! ### Paths -/

/-- A step down a tree: into an item of an array, or into the content of an object. -/
inductive Step where
  | item (i : ℕ)
  | content
  deriving DecidableEq, Repr

/-- A path leads from a tree to a value. There is none out of a text leaf. -/
inductive Leads : Json → List Step → Json → Prop where
  | here (v : Json) : Leads v [] v
  | item {items : List Json} {i : ℕ} {v w : Json} {path : List Step} (hitem : items[i]? = some v)
    (hrest : Leads v path w) : Leads (.arr items) (.item i :: path) w
  | content {fields : List (String × Json)} {v w : Json} {path : List Step}
    (htype : Keyed.get? "type" fields ≠ some (.str "text"))
    (hcontent : Keyed.get? "content" fields = some v) (hrest : Leads v path w) :
    Leads (.obj fields) (.content :: path) w

/-- A path leads to a text leaf that has a text. -/
def HasLeaf (tree : Json) (path : List Step) (text : String) : Prop :=
  ∃ fields, Leads tree path (.obj fields) ∧ Keyed.get? "type" fields = some (.str "text") ∧
    Keyed.get? "text" fields = some (.str text)

/-- Document order: where two paths part, the one into the earlier item comes first. -/
inductive Before : List Step → List Step → Prop where
  | item {i j : ℕ} {path other : List Step} (h : i < j) :
    Before (.item i :: path) (.item j :: other)
  | step (first : Step) {path other : List Step} (h : Before path other) :
    Before (first :: path) (first :: other)

theorem not_before_self (path : List Step) : ¬Before path path := by
  induction path with
  | nil => exact fun h => nomatch h
  | cons first rest ih =>
    intro h
    cases h with
    | item hlt => exact lt_irrefl _ hlt
    | step _ hrest => exact ih hrest

/-- All leaves that have a text, each once and in document order. -/
structure Lists (tree : Json) (leaves : List (List Step × String)) : Prop where
  ordered : leaves.Pairwise fun a b => Before a.1 b.1
  mem_iff : ∀ path text, (path, text) ∈ leaves ↔ tree.HasLeaf path text

theorem Lists.nodup {tree : Json} {leaves : List (List Step × String)} (h : tree.Lists leaves) :
    leaves.Nodup := by
  refine h.ordered.imp fun {a b} hbefore heq => ?_
  rw [heq] at hbefore
  exact not_before_self _ hbefore

/-! ### Leaves of a value, from those of its parts -/

theorem string?_eq_str {json : Option Json} {s : String} :
    json.bind string? = some s ↔ json = some (.str s) := by
  rcases json with _ | v
  · simp
  · cases v <;> simp [string?]

theorem isTextLeaf_iff {fields : List (String × Json)} :
    isTextLeaf fields = true ↔ Keyed.get? "type" fields = some (.str "text") := by
  unfold isTextLeaf
  rw [decide_eq_true_eq]
  exact string?_eq_str

theorem not_hasLeaf {v : Json} (harr : ∀ items, v ≠ .arr items) (hobj : ∀ fields, v ≠ .obj fields)
    (path : List Step) (text : String) : ¬v.HasLeaf path text := by
  rintro ⟨fields, hleads, -⟩
  cases hleads with
  | here => exact hobj fields rfl
  | item => exact harr _ rfl
  | content => exact hobj _ rfl

theorem lists_nil {v : Json} (harr : ∀ items, v ≠ .arr items) (hobj : ∀ fields, v ≠ .obj fields) :
    v.Lists [] :=
  ⟨List.Pairwise.nil, fun path text => by simp [not_hasLeaf harr hobj path text]⟩

theorem hasLeaf_arr {items : List Json} {path : List Step} {text : String} :
    HasLeaf (.arr items) path text ↔
      ∃ i v rest, path = .item i :: rest ∧ items[i]? = some v ∧ v.HasLeaf rest text := by
  constructor
  · rintro ⟨fields, hleads, hleaf⟩
    cases hleads with
    | item hitem hrest => exact ⟨_, _, _, rfl, hitem, fields, hrest, hleaf⟩
  · rintro ⟨i, v, rest, rfl, hitem, fields, hleads, hleaf⟩
    exact ⟨fields, .item hitem hleads, hleaf⟩

/-- A text leaf has no leaf but itself. -/
theorem hasLeaf_leaf {fields : List (String × Json)}
    (htype : Keyed.get? "type" fields = some (.str "text")) {path : List Step} {text : String} :
    HasLeaf (.obj fields) path text ↔ path = [] ∧ Keyed.get? "text" fields = some (.str text) := by
  constructor
  · rintro ⟨other, hleads, -, htext⟩
    cases hleads with
    | here => exact ⟨rfl, htext⟩
    | content hother => exact absurd htype hother
  · rintro ⟨rfl, htext⟩
    exact ⟨fields, .here _, htype, htext⟩

theorem hasLeaf_obj {fields : List (String × Json)}
    (htype : Keyed.get? "type" fields ≠ some (.str "text")) {path : List Step} {text : String} :
    HasLeaf (.obj fields) path text ↔ ∃ v rest, path = .content :: rest ∧
      Keyed.get? "content" fields = some v ∧ v.HasLeaf rest text := by
  constructor
  · rintro ⟨other, hleads, hleaf⟩
    cases hleads with
    | here => exact absurd hleaf.1 htype
    | content _ hcontent hrest => exact ⟨_, _, rfl, hcontent, other, hrest, hleaf⟩
  · rintro ⟨v, rest, rfl, hcontent, other, hleads, hleaf⟩
    exact ⟨other, .content htype hcontent hleads, hleaf⟩

/-- The leaves of items that are numbered from `n`. -/
theorem exists_leavesOfItems {items : List Json}
    (h : ∀ v ∈ items, ∃ leaves, v.Lists leaves ∧ v.textLeaves = leaves.map (·.2)) (n : ℕ) :
    ∃ leaves : List (List Step × String), textLeavesOfItems items = leaves.map (·.2) ∧
      leaves.Pairwise (fun a b => Before a.1 b.1) ∧
      ∀ path text, (path, text) ∈ leaves ↔
        ∃ i v rest, path = .item (n + i) :: rest ∧ items[i]? = some v ∧ v.HasLeaf rest text := by
  induction items generalizing n with
  | nil => exact ⟨[], rfl, List.Pairwise.nil, by simp⟩
  | cons v items ih =>
    obtain ⟨first, hfirst, htexts⟩ := h v List.mem_cons_self
    obtain ⟨later, hlater, hordered, hmem⟩ :=
      ih (fun w hw => h w (List.mem_cons_of_mem v hw)) (n + 1)
    refine ⟨first.map (fun leaf => (.item n :: leaf.1, leaf.2)) ++ later, ?_, ?_, ?_⟩
    · rw [textLeavesOfItems, htexts, hlater, List.map_append, List.map_map]
      rfl
    · rw [List.pairwise_append, List.pairwise_map]
      refine ⟨hfirst.ordered.imp fun hbefore => .step _ hbefore, hordered, ?_⟩
      rintro a ha ⟨path, text⟩ hb
      obtain ⟨leaf, -, rfl⟩ := List.mem_map.mp ha
      obtain ⟨i, w, rest, rfl, -⟩ := (hmem path text).mp hb
      exact .item (by omega)
    · intro path text
      rw [List.mem_append, List.mem_map, hmem]
      constructor
      · rintro (⟨leaf, hleaf, heq⟩ | ⟨i, w, rest, rfl, hitem, hrest⟩)
        · obtain ⟨rfl, rfl⟩ := Prod.mk.inj heq
          exact ⟨0, v, leaf.1, rfl, rfl, (hfirst.mem_iff _ _).mp hleaf⟩
        · exact ⟨i + 1, w, rest, by rw [Nat.add_right_comm, Nat.add_assoc], hitem, hrest⟩
      · rintro ⟨i, w, rest, rfl, hitem, hrest⟩
        cases i with
        | zero =>
          obtain rfl : v = w := Option.some.inj hitem
          exact Or.inl ⟨(rest, text), (hfirst.mem_iff _ _).mpr hrest, rfl⟩
        | succ i =>
          exact Or.inr ⟨i, w, rest, by rw [Nat.add_right_comm, Nat.add_assoc], hitem, hrest⟩

/-- The texts of a tree are those of the leaves that its paths lead to. -/
theorem exists_leaves (tree : Json) :
    ∃ leaves, tree.Lists leaves ∧ tree.textLeaves = leaves.map (·.2) := by
  induction tree with
  | arr items ih =>
    obtain ⟨leaves, htexts, hordered, hmem⟩ := exists_leavesOfItems ih 0
    refine ⟨leaves, ⟨hordered, fun path text => ?_⟩, htexts⟩
    rw [hmem, hasLeaf_arr]
    simp only [Nat.zero_add]
  | obj fields ih =>
    by_cases htype : Keyed.get? "type" fields = some (.str "text")
    · have htexts : (Json.obj fields).textLeaves =
          ((Keyed.get? "text" fields).bind string?).toList := by
        rw [textLeaves, if_pos (isTextLeaf_iff.mpr htype)]
      refine ⟨((Keyed.get? "text" fields).bind string?).toList.map ([], ·), ⟨?_, ?_⟩, ?_⟩
      · cases (Keyed.get? "text" fields).bind string? <;> simp
      · intro path text
        rw [hasLeaf_leaf htype, ← string?_eq_str]
        cases (Keyed.get? "text" fields).bind string? <;> simp [eq_comm, and_comm]
      · rw [htexts, List.map_map]
        exact (List.map_id _).symm
    · have htexts : (Json.obj fields).textLeaves = textLeavesOfContent fields := by
        rw [textLeaves, if_neg (mt isTextLeaf_iff.mp htype)]
      rw [htexts, textLeavesOfContent_eq]
      cases hcontent : Keyed.get? "content" fields with
      | none =>
        refine ⟨[], ⟨List.Pairwise.nil, fun path text => ?_⟩, rfl⟩
        rw [hasLeaf_obj htype, hcontent]
        simp
      | some v =>
        obtain ⟨leaves, hleaves, htext⟩ := ih _ (Keyed.mem_of_get? hcontent)
        refine ⟨leaves.map fun leaf => (.content :: leaf.1, leaf.2), ⟨?_, ?_⟩, ?_⟩
        · rw [List.pairwise_map]
          exact hleaves.ordered.imp fun hbefore => .step _ hbefore
        · intro path text
          rw [hasLeaf_obj htype, List.mem_map, hcontent]
          constructor
          · rintro ⟨leaf, hleaf, heq⟩
            obtain ⟨rfl, rfl⟩ := Prod.mk.inj heq
            exact ⟨v, leaf.1, rfl, rfl, (hleaves.mem_iff _ _).mp hleaf⟩
          · rintro ⟨w, rest, rfl, hw, hrest⟩
            obtain rfl := Option.some.inj hw
            exact ⟨(rest, text), (hleaves.mem_iff _ _).mpr hrest, rfl⟩
        · rw [List.map_map]
          exact htext
  | _ => exact ⟨[], lists_nil (fun _ => nofun) (fun _ => nofun), rfl⟩

/-! ### What does not matter -/

/-- The fields that say what is text. -/
def isMarkup (key : String) : Bool :=
  key = "type" || key = "text" || key = "content"

mutual

/-- The value without the other fields, at every depth. -/
def bare : Json → Json
  | arr items => arr (bareItems items)
  | obj fields => obj (bareFields fields)
  | v => v

def bareItems : List Json → List Json
  | [] => []
  | v :: rest => bare v :: bareItems rest

def bareFields : List (String × Json) → List (String × Json)
  | [] => []
  | (k, v) :: rest => if isMarkup k then (k, bare v) :: bareFields rest else bareFields rest

end

theorem get?_bareFields {key : String} (hkey : isMarkup key = true)
    (fields : List (String × Json)) :
    Keyed.get? key (bareFields fields) = (Keyed.get? key fields).map bare := by
  induction fields with
  | nil => rfl
  | cons entry rest ih =>
    obtain ⟨k, v⟩ := entry
    by_cases heq : k = key
    · simp [bareFields, Keyed.get?, heq, hkey]
    · by_cases hmarkup : isMarkup k = true
      · simp [bareFields, Keyed.get?, heq, hmarkup, ih]
      · simp [bareFields, Keyed.get?, heq, hmarkup, ih]

theorem string?_bare (v : Json) : v.bare.string? = v.string? := by
  cases v <;> rfl

theorem get?_string?_bareFields {key : String} (hkey : isMarkup key = true)
    (fields : List (String × Json)) :
    (Keyed.get? key (bareFields fields)).bind string? = (Keyed.get? key fields).bind string? := by
  rw [get?_bareFields hkey]
  cases Keyed.get? key fields with
  | none => rfl
  | some v => exact string?_bare v

/-- Other fields add nothing to the text. -/
theorem textLeaves_bare (v : Json) : v.bare.textLeaves = v.textLeaves := by
  induction v with
  | arr items ih =>
    show textLeavesOfItems (bareItems items) = textLeavesOfItems items
    induction items with
    | nil => rfl
    | cons v rest ihRest =>
      rw [bareItems, textLeavesOfItems, textLeavesOfItems, ih v List.mem_cons_self,
        ihRest fun w hw => ih w (List.mem_cons_of_mem v hw)]
  | obj fields ih =>
    have hleaf : isTextLeaf (bareFields fields) = isTextLeaf fields := by
      unfold isTextLeaf
      rw [get?_string?_bareFields rfl]
    have hcontent : textLeavesOfContent (bareFields fields) = textLeavesOfContent fields := by
      rw [textLeavesOfContent_eq, textLeavesOfContent_eq, get?_bareFields rfl]
      cases hget : Keyed.get? "content" fields with
      | none => rfl
      | some v => exact ih _ (Keyed.mem_of_get? hget)
    show textLeaves (.obj (bareFields fields)) = textLeaves (.obj fields)
    rw [textLeaves, textLeaves, hleaf, hcontent, get?_string?_bareFields rfl]
  | _ => rfl

theorem textLeavesOfItems_eq (items : List Json) :
    textLeavesOfItems items = items.flatMap textLeaves := by
  induction items with
  | nil => rfl
  | cons v rest ih => rw [textLeavesOfItems, ih, List.flatMap_cons]

/-- The texts of a tree are those of the leaves that its paths lead to, in document order and each
once. Other fields of its objects do not matter, and an array has the texts of its items one after
the other. -/
theorem textLeaves_exact :
    (∀ tree : Json, ∃ leaves, tree.Lists leaves ∧ leaves.Nodup ∧
      tree.textLeaves = leaves.map (·.2)) ∧
    (∀ tree other : Json, tree.bare = other.bare → tree.textLeaves = other.textLeaves) ∧
    ∀ items, textLeaves (.arr items) = items.flatMap textLeaves := by
  refine ⟨fun tree => ?_, fun tree other hsame => ?_, textLeavesOfItems_eq⟩
  · obtain ⟨leaves, hleaves, htexts⟩ := exists_leaves tree
    exact ⟨leaves, hleaves, hleaves.nodup, htexts⟩
  · rw [← textLeaves_bare tree, hsame, textLeaves_bare other]

end NodeGraph.Json
