import NodeGraph.Proofs.Json.Spelling

/-!
What a reader accepts: whatever a text is read as, the text is one of the texts of that value, and
so the texts of the values are all that is read.
-/
namespace NodeGraph.Json

/-! ### Numbers -/

section Numerals

variable {cs digits rest : List Char}

theorem splitDigits_eq (cs : List Char) :
    cs = (splitDigits cs).1 ++ (splitDigits cs).2 ∧
      ∀ c ∈ (splitDigits cs).1, c.isDigit = true :=
  ⟨List.takeWhile_append_dropWhile.symm, fun _ hc => List.mem_takeWhile_imp hc⟩

/-- Nothing, or an exponent. -/
def BeginsExponent (cs : List Char) : Prop :=
  ∀ c ∈ cs.head?, c = 'e' ∨ c = 'E'

theorem BeginsExponent.not_digit (h : BeginsExponent cs) : ∀ c ∈ cs.head?, c.isDigit = false := by
  intro c hc
  rcases h c hc with rfl | rfl <;> rfl

/-- A fraction is read alike if an exponent, or nothing, stands after it. -/
theorem readFraction_eq (h : readFraction cs = some (digits, rest)) :
    ∃ point, cs = point ++ rest ∧ (∀ c ∈ point.head?, c = '.') ∧
      ∀ tail, BeginsExponent tail → readFraction (point ++ tail) = some (digits, tail) := by
  unfold readFraction at h
  split at h
  · rename_i cs
    dsimp only at h
    split_ifs at h with hempty
    obtain ⟨rfl, rfl⟩ := Prod.mk.inj (Option.some.inj h)
    obtain ⟨hcs, hdigits⟩ := splitDigits_eq cs
    refine ⟨'.' :: (splitDigits cs).1, congrArg ('.' :: ·) hcs, by simp, fun tail htail => ?_⟩
    have hne : (splitDigits cs).1 ≠ [] := fun hnil => hempty (by rw [hnil]; rfl)
    exact readFraction_point hdigits hne htail.not_digit
  · obtain ⟨rfl, rfl⟩ := Prod.mk.inj (Option.some.inj h)
    refine ⟨[], rfl, by simp, fun tail htail => ?_⟩
    rw [List.nil_append]
    unfold readFraction
    split
    · rcases htail '.' rfl with heq | heq <;> exact absurd heq (by decide)
    · rfl

theorem readExponentDigits_eq {sign : ℤ} {power : Option ℤ}
    (h : readExponentDigits sign cs = some (power, rest)) :
    ∃ digits, cs = digits ++ rest ∧ readExponentDigits sign digits = some (power, []) ∧
      ∀ c ∈ digits.head?, c.isDigit = true := by
  unfold readExponentDigits at h
  dsimp only at h
  split_ifs at h with hempty
  obtain ⟨rfl, rfl⟩ := Prod.mk.inj (Option.some.inj h)
  obtain ⟨hcs, hdigits⟩ := splitDigits_eq cs
  refine ⟨(splitDigits cs).1, hcs, ?_, fun c hc => hdigits c (List.mem_of_mem_head? hc)⟩
  unfold readExponentDigits
  rw [splitDigits_digits hdigits]
  dsimp only
  rw [if_neg hempty]

theorem readUnsignedExponent_eq {power : Option ℤ}
    (h : readUnsignedExponent cs = some (power, rest)) :
    ∃ signed, cs = signed ++ rest ∧ readUnsignedExponent signed = some (power, []) := by
  unfold readUnsignedExponent at h
  split at h
  · obtain ⟨digits, rfl, hread, -⟩ := readExponentDigits_eq h
    exact ⟨'+' :: digits, rfl, hread⟩
  · obtain ⟨digits, rfl, hread, -⟩ := readExponentDigits_eq h
    exact ⟨'-' :: digits, rfl, hread⟩
  · obtain ⟨digits, rfl, hread, hhead⟩ := readExponentDigits_eq h
    refine ⟨digits, rfl, ?_⟩
    unfold readUnsignedExponent
    split
    · exact absurd (hhead '+' rfl) (by decide)
    · exact absurd (hhead '-' rfl) (by decide)
    · exact hread

theorem readExponent_eq {power : Option ℤ} (h : readExponent cs = some (power, rest)) :
    ∃ mark, cs = mark ++ rest ∧ BeginsExponent mark ∧ readExponent mark = some (power, []) := by
  unfold readExponent at h
  split at h
  · obtain ⟨signed, rfl, hread⟩ := readUnsignedExponent_eq h
    exact ⟨'e' :: signed, rfl, by simp [BeginsExponent], hread⟩
  · obtain ⟨signed, rfl, hread⟩ := readUnsignedExponent_eq h
    exact ⟨'E' :: signed, rfl, by simp [BeginsExponent], hread⟩
  · obtain ⟨rfl, rfl⟩ := Prod.mk.inj (Option.some.inj h)
    exact ⟨[], rfl, by simp [BeginsExponent], rfl⟩

theorem readMagnitude_eq {negative : Bool} {v : Json}
    (h : readMagnitude negative cs = some (v, rest)) :
    ∃ numeral, cs = numeral ++ rest ∧ readMagnitude negative numeral = some (v, []) := by
  unfold readMagnitude at h
  dsimp only at h
  split_ifs at h with hshape
  · simp at h
  obtain ⟨⟨fraction, rest₁⟩, hfraction, h⟩ := Option.bind_eq_some_iff.mp h
  obtain ⟨⟨power, rest₂⟩, hpower, h⟩ := Option.bind_eq_some_iff.mp h
  obtain ⟨hcs, hdigits⟩ := splitDigits_eq cs
  obtain ⟨point, hpoint, hdot, hreadFraction⟩ := readFraction_eq hfraction
  obtain ⟨mark, rfl, hmark, hreadExponent⟩ := readExponent_eq hpower
  have hhead : ∀ c ∈ (point ++ mark).head?, c.isDigit = false := by
    cases point with
    | nil => exact hmark.not_digit
    | cons c point =>
      intro d hd
      obtain rfl : c = d := Option.some.inj hd
      rw [hdot c rfl]
      rfl
  have hread : readMagnitude negative ((splitDigits cs).1 ++ (point ++ mark)) = some (v, []) ∧
      rest₂ = rest := by
    unfold readMagnitude
    rw [splitDigits_append hdigits hhead]
    dsimp only
    rw [if_neg hshape, hreadFraction mark hmark]
    dsimp only [Option.bind_eq_bind, Option.bind_some]
    rw [hreadExponent]
    dsimp only [Option.bind_eq_bind, Option.bind_some] at h ⊢
    split_ifs at h ⊢ with hint
    · obtain ⟨rfl, rfl⟩ := Prod.mk.inj (Option.some.inj h)
      exact ⟨rfl, rfl⟩
    · obtain ⟨x, hx, h⟩ := Option.bind_eq_some_iff.mp h
      obtain ⟨rfl, rfl⟩ := Prod.mk.inj (Option.some.inj h)
      rw [hx]
      exact ⟨rfl, rfl⟩
  obtain ⟨hread, rfl⟩ := hread
  refine ⟨_, ?_, hread⟩
  rw [List.append_assoc, List.append_assoc, ← hpoint]
  exact hcs

/-- What is taken off the front as a number is a numeral by itself. -/
theorem readNumeral_eq {v : Json} (h : readNumeral cs = some (v, rest)) :
    ∃ numeral, cs = numeral ++ rest ∧ readNumeral numeral = some (v, []) := by
  unfold readNumeral at h
  split at h
  · obtain ⟨numeral, rfl, hread⟩ := readMagnitude_eq h
    exact ⟨'-' :: numeral, rfl, hread⟩
  · rename_i hplain
    obtain ⟨numeral, rfl, hread⟩ := readMagnitude_eq h
    refine ⟨numeral, rfl, ?_⟩
    unfold readNumeral
    split
    · exact absurd rfl (hplain _)
    · exact hread

end Numerals

/-! ### Strings -/

/-- The text of a string, with one more character at its front. -/
private theorem readString_cons_eq {c : Char} {cs tail s rest : List Char} (hc : SpellsChar c cs)
    (ih : ∀ {s rest}, readString tail = some (s, rest) →
      ∃ ds, SpellsString s ds ∧ tail = ds ++ '"' :: rest)
    (h : (readString tail).map (fun (s, rest) => (c :: s, rest)) = some (s, rest)) :
    ∃ ds, SpellsString s ds ∧ cs ++ tail = ds ++ '"' :: rest := by
  obtain ⟨⟨s', rest'⟩, hread, heq⟩ := Option.map_eq_some_iff.mp h
  obtain ⟨rfl, rfl⟩ := Prod.mk.inj heq
  obtain ⟨ds, hs, rfl⟩ := ih hread
  exact ⟨cs ++ ds, .cons hc hs, (List.append_assoc ..).symm⟩

/-- What is taken off the front as a string is one of its texts and the closing quote. -/
theorem readString_eq {cs s rest : List Char} (h : readString cs = some (s, rest)) :
    ∃ ds, SpellsString s ds ∧ cs = ds ++ '"' :: rest := by
  fun_induction readString cs generalizing s rest with
  | case2 tail =>
    obtain ⟨rfl, rfl⟩ := Prod.mk.inj (Option.some.inj h)
    exact ⟨[], .nil, rfl⟩
  | case5 a b c d high hhigh hisHigh a' b' c' d' tail low hlow hisLow ih =>
    exact readString_cons_eq (.pair hhigh hlow hisHigh hisLow) ih h
  | case9 a b c d tail n hunit hisHigh hisLow ih =>
    exact readString_cons_eq (.unit hunit (by simpa using hisHigh) (by simpa using hisLow)) ih h
  | case11 a tail _ c hescape ih => exact readString_cons_eq (.simple hescape) ih h
  | case13 c tail hquote _ hescape hcontrol ih =>
    -- A backslash at the very end of the text escapes nothing, and no quote closes the string.
    have hbackslash : c ≠ '\\' := by
      rintro rfl
      cases tail with
      | nil => simp [readString] at h
      | cons d tail => exact hescape d tail rfl rfl
    exact readString_cons_eq (.plain hquote hbackslash (not_lt.mp hcontrol)) ih h
  | _ => cases h

/-! ### Values -/

theorem skipBlanks_eq (cs : List Char) : ∃ before, Blanks before ∧ cs = before ++ skipBlanks cs :=
  ⟨cs.takeWhile isBlank, fun _ hc => List.mem_takeWhile_imp hc,
    List.takeWhile_append_dropWhile.symm⟩

section Steps

/-! What is accepted with some fuel, by what is accepted with one less of it. -/

variable {fuel : ℕ}

/-- Whatever is read as a value begins with one of its texts. -/
private def AcceptsValues (fuel : ℕ) : Prop :=
  ∀ {room : ℕ} {cs rest : List Char} {v : Json}, readValue fuel room cs = some (v, rest) →
    v.depth ≤ room ∧ ∃ before bare, Blanks before ∧ SpellsBare v bare ∧ cs = before ++ (bare ++ rest)

private def AcceptsItems (fuel : ℕ) : Prop :=
  ∀ {room : ℕ} {cs rest : List Char} {items : List Json},
    readItems fuel room cs = some (items, rest) →
    depthItems items ≤ room ∧ ∃ ds, SpellsItems items ds ∧ cs = ds ++ rest

private def AcceptsFields (fuel : ℕ) : Prop :=
  ∀ {room : ℕ} {cs rest : List Char} {fields : List (String × Json)},
    readFields fuel room cs = some (fields, rest) →
    depthFields fields ≤ room ∧ ∃ ds, SpellsFields fields ds ∧ cs = ds ++ rest

/-- A value and the separator that stands after it. -/
private theorem AcceptsValues.spelled (h : AcceptsValues fuel) {room : ℕ} {c : Char}
    {cs after rest : List Char} {v : Json} (hread : readValue fuel room cs = some (v, after))
    (hskip : skipBlanks after = c :: rest) :
    v.depth ≤ room ∧ ∃ ds, Spells v ds ∧ cs = ds ++ c :: rest := by
  obtain ⟨hdepth, before, bare, hbefore, hbare, rfl⟩ := h hread
  obtain ⟨blanks, hblanks, hafter⟩ := skipBlanks_eq after
  refine ⟨hdepth, before ++ (bare ++ blanks), .mk hbefore hbare hblanks, ?_⟩
  rw [hafter, hskip]
  simp

/-- A key with its quotes and the colon that stands after it. -/
private theorem spellsKey_of_read {cs key afterKey cs₁ rest : List Char}
    (hquote : skipBlanks cs = '"' :: cs₁) (hkey : readString cs₁ = some (key, afterKey))
    (hcolon : skipBlanks afterKey = ':' :: rest) :
    ∃ ks, SpellsKey (.ofList key) ks ∧ cs = ks ++ ':' :: rest := by
  obtain ⟨before, hbefore, hcs⟩ := skipBlanks_eq cs
  obtain ⟨ds, hs, rfl⟩ := readString_eq hkey
  obtain ⟨blanks, hblanks, hafter⟩ := skipBlanks_eq afterKey
  refine ⟨_, .mk hbefore hs hblanks, ?_⟩
  rw [hcs, hquote, hafter, hcolon]
  simp

private theorem AcceptsItems.succ (hvalues : AcceptsValues fuel) (hitems : AcceptsItems fuel) :
    AcceptsItems (fuel + 1) := by
  intro room cs rest items h
  unfold readItems at h
  split at h
  · cases h
  rename_i v after hvalue
  split at h
  · rename_i hclose
    obtain ⟨rfl, rfl⟩ := Prod.mk.inj (Option.some.inj h)
    obtain ⟨hdepth, ds, hv, rfl⟩ := hvalues.spelled hvalue hclose
    exact ⟨max_le hdepth (Nat.zero_le _), ds ++ [']'], .last hv, by simp⟩
  · rename_i hcomma
    obtain ⟨⟨more, rest'⟩, hmore, heq⟩ := Option.map_eq_some_iff.mp h
    obtain ⟨rfl, rfl⟩ := Prod.mk.inj heq
    obtain ⟨hdepth, ds, hv, rfl⟩ := hvalues.spelled hvalue hcomma
    obtain ⟨hdepths, es, hrest, rfl⟩ := hitems hmore
    exact ⟨max_le hdepth hdepths, ds ++ ',' :: es, .next hv hrest, by simp⟩
  · cases h

private theorem AcceptsFields.succ (hvalues : AcceptsValues fuel) (hfields : AcceptsFields fuel) :
    AcceptsFields (fuel + 1) := by
  intro room cs rest fields h
  unfold readFields at h
  split at h
  case h_2 => cases h
  rename_i hquote
  split at h
  · cases h
  rename_i key afterKey hkey
  split at h
  case h_2 => cases h
  rename_i hcolon
  obtain ⟨ks, hkeyText, rfl⟩ := spellsKey_of_read hquote hkey hcolon
  split at h
  · cases h
  rename_i v after hvalue
  split at h
  · rename_i hclose
    obtain ⟨rfl, rfl⟩ := Prod.mk.inj (Option.some.inj h)
    obtain ⟨hdepth, ds, hv, rfl⟩ := hvalues.spelled hvalue hclose
    exact ⟨max_le hdepth (Nat.zero_le _), _, .last hkeyText hv, by simp⟩
  · rename_i hcomma
    obtain ⟨⟨more, rest'⟩, hmore, heq⟩ := Option.map_eq_some_iff.mp h
    obtain ⟨rfl, rfl⟩ := Prod.mk.inj heq
    obtain ⟨hdepth, ds, hv, rfl⟩ := hvalues.spelled hvalue hcomma
    obtain ⟨hdepths, es, hrest, rfl⟩ := hfields hmore
    exact ⟨max_le hdepth hdepths, _, .next hkeyText hv hrest, by simp⟩
  · cases h

private theorem AcceptsValues.succ (hitems : AcceptsItems fuel) (hfields : AcceptsFields fuel) :
    AcceptsValues (fuel + 1) := by
  intro room cs rest v h
  obtain ⟨before, hbefore, hcs⟩ := skipBlanks_eq cs
  -- What matters begins after the blanks.
  suffices hbare : v.depth ≤ room ∧ ∃ bare, SpellsBare v bare ∧ skipBlanks cs = bare ++ rest by
    obtain ⟨hdepth, bare, hbare, hskip⟩ := hbare
    exact ⟨hdepth, before, bare, hbefore, hbare, hskip ▸ hcs⟩
  unfold readValue at h
  split at h
  · rename_i hskip
    obtain ⟨rfl, rfl⟩ := Prod.mk.inj (Option.some.inj h)
    exact ⟨Nat.zero_le _, _, .null, hskip⟩
  · rename_i hskip
    obtain ⟨rfl, rfl⟩ := Prod.mk.inj (Option.some.inj h)
    exact ⟨Nat.zero_le _, _, .yes, hskip⟩
  · rename_i hskip
    obtain ⟨rfl, rfl⟩ := Prod.mk.inj (Option.some.inj h)
    exact ⟨Nat.zero_le _, _, .no, hskip⟩
  · rename_i hskip
    obtain ⟨⟨s, rest'⟩, hread, heq⟩ := Option.map_eq_some_iff.mp h
    obtain ⟨rfl, rfl⟩ := Prod.mk.inj heq
    obtain ⟨ds, hs, rfl⟩ := readString_eq hread
    exact ⟨Nat.zero_le _, _, .str hs, by rw [hskip]; simp⟩
  · rename_i tail hskip
    split at h
    · cases h
    split at h
    · rename_i hclose
      obtain ⟨rfl, rfl⟩ := Prod.mk.inj (Option.some.inj h)
      obtain ⟨blanks, hblanks, htail⟩ := skipBlanks_eq tail
      refine ⟨Nat.le_add_left 1 _, _, .emptyArr hblanks, ?_⟩
      rw [hskip, htail, hclose]
      simp
    · obtain ⟨⟨items, rest'⟩, hread, heq⟩ := Option.map_eq_some_iff.mp h
      obtain ⟨rfl, rfl⟩ := Prod.mk.inj heq
      rw [readItems_skipBlanks] at hread
      obtain ⟨hdepth, ds, hspells, rfl⟩ := hitems hread
      exact ⟨Nat.succ_le_succ hdepth, _, .arr hspells, hskip⟩
  · rename_i tail hskip
    split at h
    · cases h
    split at h
    · rename_i hclose
      obtain ⟨rfl, rfl⟩ := Prod.mk.inj (Option.some.inj h)
      obtain ⟨blanks, hblanks, htail⟩ := skipBlanks_eq tail
      refine ⟨Nat.le_add_left 1 _, _, .emptyObj hblanks, ?_⟩
      rw [hskip, htail, hclose]
      simp
    · obtain ⟨⟨fields, rest'⟩, hread, heq⟩ := Option.map_eq_some_iff.mp h
      obtain ⟨rfl, rfl⟩ := Prod.mk.inj heq
      rw [readFields_skipBlanks] at hread
      obtain ⟨hdepth, ds, hspells, rfl⟩ := hfields hread
      exact ⟨Nat.succ_le_succ hdepth, _, .obj hspells, hskip⟩
  · obtain ⟨numeral, hskip, hread⟩ := readNumeral_eq h
    refine ⟨?_, numeral, .number hread, hskip⟩
    have hnumber := readNumeral_isNumber hread
    cases v <;> first | exact Nat.zero_le _ | exact hnumber.elim

end Steps

private theorem accepts (fuel : ℕ) :
    AcceptsValues fuel ∧ AcceptsItems fuel ∧ AcceptsFields fuel := by
  induction fuel with
  | zero =>
    refine ⟨?_, ?_, ?_⟩ <;> (intro room cs rest v h; simp [readValue, readItems, readFields] at h)
  | succ fuel ih =>
    obtain ⟨hvalues, hitems, hfields⟩ := ih
    exact ⟨AcceptsValues.succ hitems hfields, AcceptsItems.succ hvalues hitems,
      AcceptsFields.succ hvalues hfields⟩

/-! ### Whole texts -/

/-- A text is read as a value if and only if it is one of the texts of the value and the value is
not nested too deep. -/
theorem readTree_eq_some_iff {room : ℕ} {text : String} {v : Json} :
    readTree room text = some v ↔ Spells v text.toList ∧ v.depth ≤ room := by
  refine ⟨fun h => ?_, fun h => readTree_of_spells h.1 h.2⟩
  unfold readTree at h
  dsimp only at h
  split at h
  case h_2 => cases h
  rename_i w rest hread
  split_ifs at h with hempty
  obtain rfl := Option.some.inj h
  obtain ⟨hdepth, before, bare, hbefore, hbare, htext⟩ := (accepts _).1 hread
  obtain ⟨after, hafter, hrest⟩ := skipBlanks_eq rest
  rw [List.isEmpty_iff.mp hempty, List.append_nil] at hrest
  refine ⟨?_, hdepth⟩
  rw [htext, hrest]
  exact .mk hbefore hbare hafter

/-- A text is one of at most one value. -/
theorem Spells.unique {v w : Json} {text : String} (hv : Spells v text.toList)
    (hw : Spells w text.toList) : v = w := by
  have hread := readTree_of_spells hv (le_max_left v.depth w.depth)
  rw [readTree_of_spells hw (le_max_right v.depth w.depth)] at hread
  exact (Option.some.inj hread).symm

/-! ### What has a text -/

theorem SpellsItems.spells {items : List Json} {cs : List Char} (h : SpellsItems items cs) :
    ∀ v ∈ items, ∃ ds, Spells v ds := by
  induction items generalizing cs with
  | nil => simp
  | cons v items ih =>
    rw [List.forall_mem_cons]
    cases h with
    | last hv => exact ⟨⟨_, hv⟩, by simp⟩
    | next hv hrest => exact ⟨⟨_, hv⟩, ih hrest⟩

theorem SpellsFields.spells {fields : List (String × Json)} {cs : List Char}
    (h : SpellsFields fields cs) : ∀ entry ∈ fields, ∃ ds, Spells entry.2 ds := by
  induction fields generalizing cs with
  | nil => simp
  | cons entry fields ih =>
    rw [List.forall_mem_cons]
    cases h with
    | last hkey hv => exact ⟨⟨_, hv⟩, by simp⟩
    | next hkey hv hrest => exact ⟨⟨_, hv⟩, ih hrest⟩

/-- Only values whose numbers fit have texts. -/
theorem Spells.fits {v : Json} {cs : List Char} (h : Spells v cs) : v.Fits := by
  induction v generalizing cs with
  | arr items ih =>
    obtain @⟨_, _, _, _, -, hbare, -⟩ := h
    refine fitsItems_iff.mpr fun v hv => ?_
    cases hbare with
    | number hread => exact (readNumeral_isNumber hread).elim
    | emptyArr hblanks => exact absurd hv List.not_mem_nil
    | arr hitems =>
      obtain ⟨ds, hspells⟩ := hitems.spells v hv
      exact ih v hv hspells
  | obj fields ih =>
    obtain @⟨_, _, _, _, -, hbare, -⟩ := h
    refine fitsFields_iff.mpr fun entry hentry => ?_
    cases hbare with
    | number hread => exact (readNumeral_isNumber hread).elim
    | emptyObj hblanks => exact absurd hentry List.not_mem_nil
    | obj hfields =>
      obtain ⟨ds, hspells⟩ := hfields.spells entry hentry
      exact ih entry hentry hspells
  | int i =>
    obtain @⟨_, _, _, _, -, hbare, -⟩ := h
    cases hbare with
    | number hread => exact readNumeral_isNumber hread
  | float x =>
    obtain @⟨_, _, _, _, -, hbare, -⟩ := h
    cases hbare with
    | number hread => exact readNumeral_isNumber hread
  | _ => trivial

end NodeGraph.Json
