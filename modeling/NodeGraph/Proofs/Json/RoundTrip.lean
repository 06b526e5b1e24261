import NodeGraph.Document
import NodeGraph.Proofs.Json.Accepted
import NodeGraph.Text.Leaves

/-!
The text of a value reads back as the value, up to the last bits of its doubles.
-/
namespace NodeGraph

namespace Json

/-! ### Strings -/

private theorem hexUnit_control : ∀ n < 0x20,
    hexUnit '0' '0' (hexDigit (n / 16)) (hexDigit n) = some n ∧ isHighSurrogate n = false ∧
      isLowSurrogate n = false := by
  decide +kernel

theorem spellsChar_escape (c : Char) : SpellsChar c (escape c) := by
  unfold escape
  split_ifs with h1 h2 h3 h4 h5 h6 h7 h8
  · exact .simple (by rw [h1]; rfl)
  · exact .simple (by rw [h2]; rfl)
  · exact .simple (by rw [h3]; rfl)
  · exact .simple (by rw [h4]; rfl)
  · exact .simple (by rw [h5]; rfl)
  · exact .simple (by rw [h6]; rfl)
  · exact .simple (by rw [h7]; rfl)
  · obtain ⟨hunit, hhigh, hlow⟩ := hexUnit_control c.toNat h8
    have hspells := SpellsChar.unit hunit hhigh hlow
    rwa [Char.ofNat_toNat] at hspells
  · exact .plain h1 h2 (not_lt.mp h8)

theorem spellsString_escape (s : List Char) : SpellsString s (s.flatMap escape) := by
  induction s with
  | nil => exact .nil
  | cons c s ih => exact .cons (spellsChar_escape c) ih

theorem spellsKey_quoted (k : String) : SpellsKey k (quoted k) := by
  have hspells : SpellsKey (.ofList k.toList) ([] ++ '"' :: (k.toList.flatMap escape ++ ['"'])) :=
    .mk blanks_nil (spellsString_escape k.toList) blanks_nil
  rwa [String.ofList_toList] at hspells

/-! ### Values -/

/-- What the text of a double reads as. -/
def rereadFloat (x : Binary64) : Json :=
  match readNumeral x.text with
  | some (v, _) => v
  | none => .float x

mutual

/-- The value that the text of a value reads as. Doubles may change in their last bits, since the
digits and the power of ten are rounded apart. -/
def reread : Json → Json
  | float x => rereadFloat x
  | arr items => arr (rereadItems items)
  | obj fields => obj (rereadFields fields)
  | v => v

def rereadItems : List Json → List Json
  | [] => []
  | v :: rest => reread v :: rereadItems rest

def rereadFields : List (String × Json) → List (String × Json)
  | [] => []
  | (k, v) :: rest => (k, reread v) :: rereadFields rest

end

theorem rereadItems_eq (items : List Json) : rereadItems items = items.map reread := by
  induction items with
  | nil => rfl
  | cons v rest ih => rw [rereadItems, ih, List.map_cons]

theorem rereadFields_eq (fields : List (String × Json)) :
    rereadFields fields = fields.map fun entry => (entry.1, reread entry.2) := by
  induction fields with
  | nil => rfl
  | cons entry rest ih => rw [rereadFields, ih, List.map_cons]

/-- A finite double reads as a finite double. -/
theorem exists_rereadFloat {x : Binary64} (hx : x.IsFinite) : ∃ y, rereadFloat x = .float y ∧
    y.IsFinite ∧ readNumeral x.text = some (rereadFloat x, []) := by
  obtain ⟨y, hy⟩ := readNumeral_text hx
  have hfloat : rereadFloat x = .float y := by
    unfold rereadFloat
    rw [hy]
  exact ⟨y, hfloat, readNumeral_isNumber hy, hfloat ▸ hy⟩

theorem depth_reread {v : Json} (h : v.Fits) : v.reread.depth = v.depth := by
  induction v with
  | float x =>
    obtain ⟨y, hy, -⟩ := exists_rereadFloat h
    show (rereadFloat x).depth = _
    rw [hy]
    rfl
  | arr items ih =>
    show depthItems (rereadItems items) + 1 = depthItems items + 1
    rw [rereadItems_eq, depthItems_map fun v hv => ih v hv (fitsItems_iff.mp h v hv)]
  | obj fields ih =>
    show depthFields (rereadFields fields) + 1 = depthFields fields + 1
    rw [rereadFields_eq, depthFields_map fun entry hentry =>
      ih entry hentry (fitsFields_iff.mp h entry hentry)]
  | _ => rfl
theorem ends_charsItems (items : List Json) (rest : List Char) : Ends (charsItems items ++ rest) := by
  cases items <;> simp [charsItems, Ends]

theorem ends_charsFields (fields : List (String × Json)) (rest : List Char) :
    Ends (charsFields fields ++ rest) := by
  rcases fields with _ | ⟨⟨k, v⟩, fields⟩ <;> simp [charsFields, Ends]

theorem SpellsBare.spells {v : Json} {cs : List Char} (h : SpellsBare v cs) : Spells v cs := by
  have hspells : Spells v ([] ++ (cs ++ [])) := .mk blanks_nil h blanks_nil
  rwa [List.nil_append, List.append_nil] at hspells

theorem spellsItems_chars {items : List Json} {v : Json}
    (h : ∀ w ∈ v :: items, SpellsBare w.reread (chars w)) :
    SpellsItems (v.reread :: rereadItems items) (chars v ++ charsItems items) := by
  induction items generalizing v with
  | nil => exact .last (h v List.mem_cons_self).spells
  | cons w items ih =>
    exact .next (h v List.mem_cons_self).spells (ih fun u hu => h u (List.mem_cons_of_mem v hu))

theorem spellsFields_chars {fields : List (String × Json)} {k : String} {v : Json}
    (h : ∀ entry ∈ (k, v) :: fields, SpellsBare entry.2.reread (chars entry.2)) :
    SpellsFields ((k, v.reread) :: rereadFields fields)
      (quoted k ++ ':' :: (chars v ++ charsFields fields)) := by
  have hv := (h (k, v) List.mem_cons_self).spells
  induction fields generalizing k v with
  | nil => exact .last (spellsKey_quoted k) hv
  | cons entry fields ih =>
    have hrest : ∀ u ∈ entry :: fields, SpellsBare u.2.reread (chars u.2) := fun u hu =>
      h u (List.mem_cons_of_mem _ hu)
    exact .next (spellsKey_quoted k) hv (ih hrest (hrest entry List.mem_cons_self).spells)

/-- What is printed is one of the texts of the value that it reads as. -/
theorem spells_chars {v : Json} (h : v.Fits) : SpellsBare v.reread (chars v) := by
  induction v with
  | null => exact .null
  | bool b =>
    cases b
    · exact .no
    · exact .yes
  | int i => exact .number (readNumeral_integerText h)
  | float x =>
    obtain ⟨y, -, -, hread⟩ := exists_rereadFloat h
    exact .number hread
  | str s =>
    have hspells := SpellsBare.str (spellsString_escape s.toList)
    rwa [String.ofList_toList] at hspells
  | arr items ih =>
    have hitems := fitsItems_iff.mp h
    cases items with
    | nil => exact .emptyArr blanks_nil
    | cons v items => exact .arr (spellsItems_chars fun w hw => ih w hw (hitems w hw))
  | obj fields ih =>
    have hfields := fitsFields_iff.mp h
    rcases fields with _ | ⟨⟨k, v⟩, fields⟩
    · exact .emptyObj blanks_nil
    · exact .obj (spellsFields_chars fun w hw => ih w hw (hfields w hw))

theorem readValue_chars {v : Json} (h : v.Fits) (fuel room : ℕ) {rest : List Char}
    (hfuel : 2 * (chars v).length ≤ fuel) (hroom : v.depth ≤ room) (hrest : Ends rest) :
    readValue fuel room (chars v ++ rest) = some (v.reread, rest) :=
  reads v.reread (chars v) (spells_chars h) fuel room rest hfuel
    ((depth_reread h).trans_le hroom) hrest

/-! ### Whole texts -/

theorem spells_compact {v : Json} (h : v.Fits) : Spells v.reread v.compact.toList := by
  unfold compact
  rw [String.toList_ofList]
  exact (spells_chars h).spells

theorem reread_fits {v : Json} (h : v.Fits) : v.reread.Fits := by
  induction v with
  | float x =>
    obtain ⟨y, hy, hfinite, -⟩ := exists_rereadFloat h
    show (rereadFloat x).Fits
    rw [hy]
    exact hfinite
  | arr items ih =>
    have hitems := fitsItems_iff.mp h
    show FitsItems (rereadItems items)
    rw [rereadItems_eq, fitsItems_iff]
    intro w hw
    obtain ⟨v, hv, rfl⟩ := List.mem_map.mp hw
    exact ih v hv (hitems v hv)
  | obj fields ih =>
    have hfields := fitsFields_iff.mp h
    show FitsFields (rereadFields fields)
    rw [rereadFields_eq, fitsFields_iff]
    intro entry hentry
    obtain ⟨field, hfield, rfl⟩ := List.mem_map.mp hentry
    exact ih field hfield (hfields field hfield)
  | _ => exact h

theorem reread_canonical {v : Json} (h : v.Fits) : v.reread.canonical = v.canonical.reread := by
  induction v with
  | float x =>
    obtain ⟨y, hy, -⟩ := exists_rereadFloat h
    show (rereadFloat x).canonical = rereadFloat x
    rw [hy]
    rfl
  | arr items ih =>
    simp only [reread, canonical, rereadItems_eq, canonicalItems_eq, List.map_map]
    congr 1
    exact List.map_congr_left fun v hv => ih v hv (fitsItems_iff.mp h v hv)
  | obj fields ih =>
    simp only [reread, canonical, rereadFields_eq, canonicalFields_eq]
    rw [← Keyed.ofList_map, List.map_map, List.map_map]
    congr 2
    refine List.map_congr_left fun entry hentry => ?_
    show (entry.1, entry.2.reread.canonical) = (entry.1, entry.2.canonical.reread)
    rw [ih entry hentry (fitsFields_iff.mp h entry hentry)]
  | _ => rfl

/-- A value that a text can hold: its numbers fit, its keys are in order at every level, and it
is not nested too deep to be read. -/
structure Sound (v : Json) : Prop where
  fits : v.Fits
  ordered : v.canonical = v
  shallow : v.depth ≤ maxDepth

/-- The text of a sound value reads back. -/
theorem parse_compact {v : Json} (h : v.Sound) : parse v.compact = some v.reread := by
  unfold parse
  rw [readTree_of_spells (spells_compact h.fits) ((depth_reread h.fits).trans_le h.shallow),
    Option.map_some, reread_canonical h.fits, h.ordered]

/-- The text of a value is read if and only if the value is not nested too deep. -/
theorem exists_parse_compact_iff {v : Json} (h : v.Fits) :
    (∃ w, parse v.compact = some w) ↔ v.depth ≤ maxDepth := by
  have hspells := spells_compact h
  rw [← depth_reread h]
  constructor
  · rintro ⟨w, hparse⟩
    obtain ⟨tree, htree, -⟩ := Option.map_eq_some_iff.mp hparse
    obtain ⟨hspells', hdepth⟩ := readTree_eq_some_iff.mp htree
    rwa [hspells'.unique hspells] at hdepth
  · intro hdepth
    exact ⟨_, Option.map_eq_some_iff.mpr ⟨_, readTree_of_spells hspells hdepth, rfl⟩⟩

/-- Whatever a text is read as fits and is no deeper than the room that there was. -/
theorem fits_of_readTree {room : ℕ} {text : String} {v : Json} (h : readTree room text = some v) :
    v.Fits ∧ v.depth ≤ room := by
  obtain ⟨hspells, hdepth⟩ := readTree_eq_some_iff.mp h
  exact ⟨hspells.fits, hdepth⟩

/-- Whatever is parsed is sound. -/
theorem sound_of_parse {text : String} {v : Json} (h : parse text = some v) : v.Sound := by
  obtain ⟨tree, htree, rfl⟩ := Option.map_eq_some_iff.mp h
  obtain ⟨hfits, hdepth⟩ := fits_of_readTree htree
  exact ⟨canonical_fits hfits, canonical_canonical tree, (depth_canonical_le tree).trans hdepth⟩

/-! ### What is kept -/

theorem string?_reread {v : Json} (h : v.Fits) : v.reread.string? = v.string? := by
  cases v with
  | float x =>
    obtain ⟨y, hy, -⟩ := exists_rereadFloat h
    show (rereadFloat x).string? = _
    rw [hy]
    rfl
  | _ => rfl

private theorem get?_string?_reread {fields : List (String × Json)} (h : FitsFields fields)
    (key : String) : (Keyed.get? key (rereadFields fields)).bind string? =
      (Keyed.get? key fields).bind string? := by
  rw [rereadFields_eq, Keyed.get?_map]
  cases hget : Keyed.get? key fields with
  | none => rfl
  | some v => exact string?_reread (fitsFields_iff.mp h _ (Keyed.mem_of_get? hget))

/-- Reading a value back keeps its text leaves. -/
theorem textLeaves_reread {v : Json} (h : v.Fits) : v.reread.textLeaves = v.textLeaves := by
  induction v with
  | float x =>
    obtain ⟨y, hy, -⟩ := exists_rereadFloat h
    show (rereadFloat x).textLeaves = _
    rw [hy]
    rfl
  | arr items ih =>
    show textLeavesOfItems (rereadItems items) = textLeavesOfItems items
    induction items with
    | nil => rfl
    | cons v rest ihRest =>
      rw [rereadItems, textLeavesOfItems, textLeavesOfItems,
        ih v List.mem_cons_self h.1,
        ihRest (fun w hw => ih w (List.mem_cons_of_mem v hw)) h.2]
  | obj fields ih =>
    have hfits : FitsFields fields := h
    have hleaf : isTextLeaf (rereadFields fields) = isTextLeaf fields := by
      unfold isTextLeaf
      rw [get?_string?_reread hfits]
    have hcontent : textLeavesOfContent (rereadFields fields) = textLeavesOfContent fields := by
      rw [textLeavesOfContent_eq, textLeavesOfContent_eq, rereadFields_eq, Keyed.get?_map]
      cases hget : Keyed.get? "content" fields with
      | none => rfl
      | some v =>
        have hmem := Keyed.mem_of_get? hget
        exact ih _ hmem (fitsFields_iff.mp hfits _ hmem)
    show textLeaves (.obj (rereadFields fields)) = textLeaves (.obj fields)
    unfold textLeaves
    rw [hleaf, hcontent, get?_string?_reread hfits]
  | _ => rfl

theorem plainText_reread {content : Option Json} (h : ∀ v ∈ content, v.Fits) :
    plainText (content.map reread) = plainText content := by
  cases content with
  | none => rfl
  | some v =>
    show " ".intercalate v.reread.textLeaves = " ".intercalate v.textLeaves
    rw [textLeaves_reread (h v rfl)]

/-! ### Doubles that read back -/

mutual

/-- The doubles in a value. -/
def floats : Json → List Binary64
  | float x => [x]
  | arr items => floatsOfItems items
  | obj fields => floatsOfFields fields
  | _ => []

def floatsOfItems : List Json → List Binary64
  | [] => []
  | v :: rest => floats v ++ floatsOfItems rest

def floatsOfFields : List (String × Json) → List Binary64
  | [] => []
  | (_, v) :: rest => floats v ++ floatsOfFields rest

end

theorem mem_floatsOfItems {items : List Json} {x : Binary64} :
    x ∈ floatsOfItems items ↔ ∃ v ∈ items, x ∈ v.floats := by
  induction items with
  | nil => simp [floatsOfItems]
  | cons v rest ih => simp [floatsOfItems, ih]

theorem mem_floatsOfFields {fields : List (String × Json)} {x : Binary64} :
    x ∈ floatsOfFields fields ↔ ∃ entry ∈ fields, x ∈ entry.2.floats := by
  induction fields with
  | nil => simp [floatsOfFields]
  | cons entry rest ih => simp [floatsOfFields, ih]

/-- Every double in the value reads back as itself. -/
def ReadsBack (v : Json) : Prop :=
  ∀ x ∈ v.floats, parse (compact (.float x)) = some (.float x)

theorem reread_of_readsBack {v : Json} (h : v.Fits) (hback : v.ReadsBack) : v.reread = v := by
  induction v with
  | float x =>
    have hsound : Sound (.float x) := ⟨h, rfl, Nat.zero_le _⟩
    have hparse := parse_compact hsound
    rw [hback x (List.mem_singleton.mpr rfl)] at hparse
    exact (Option.some.inj hparse).symm
  | arr items ih =>
    have hitems : rereadItems items = items := by
      rw [rereadItems_eq]
      refine List.map_congr_left (g := id) (fun v hv => ?_) |>.trans (List.map_id items)
      exact ih v hv (fitsItems_iff.mp h v hv) fun x hx => hback x (mem_floatsOfItems.mpr ⟨v, hv, hx⟩)
    show Json.arr (rereadItems items) = .arr items
    rw [hitems]
  | obj fields ih =>
    have hfields : rereadFields fields = fields := by
      rw [rereadFields_eq]
      refine List.map_congr_left (g := id) (fun entry hentry => ?_) |>.trans (List.map_id fields)
      have hvalue := ih entry hentry (fitsFields_iff.mp h entry hentry) fun x hx =>
        hback x (mem_floatsOfFields.mpr ⟨entry, hentry, hx⟩)
      rw [hvalue]
      rfl
    show Json.obj (rereadFields fields) = .obj fields
    rw [hfields]
  | _ => rfl

end Json

open Json

/-- A stored value is decoded. -/
theorem decodePayload_compact {json : Option Json} (h : ∀ v ∈ json, v.Sound) :
    decodePayload (json.map compact) = .ok (json.map reread) := by
  cases json with
  | none => rfl
  | some v =>
    unfold decodePayload
    dsimp only [Option.map_some]
    rewrite [parse_compact (h v rfl)]
    rfl

/-- A stored value is understood if and only if it is not nested too deep. -/
theorem exists_decodePayload_compact_iff {json : Option Json} (h : ∀ v ∈ json, v.Fits) :
    (∃ value, decodePayload (json.map compact) = .ok value) ↔ ∀ v ∈ json, v.depth ≤ maxDepth := by
  cases json with
  | none => simp [decodePayload]
  | some v =>
    simp only [Option.mem_def, Option.some.injEq, forall_eq', ← exists_parse_compact_iff (h v rfl)]
    unfold decodePayload
    dsimp only [Option.map_some]
    cases parse v.compact <;> simp

theorem sound_of_decodePayload {text : Option String} {json : Option Json}
    (h : decodePayload text = .ok json) : ∀ v ∈ json, v.Sound := by
  intro v hv
  obtain rfl : json = some v := hv
  unfold decodePayload at h
  split at h
  · simp at h
  · split at h
    · rename_i w hparse
      obtain rfl := Option.some.inj (Except.ok.inj h)
      exact sound_of_parse hparse
    · simp at h

end NodeGraph
