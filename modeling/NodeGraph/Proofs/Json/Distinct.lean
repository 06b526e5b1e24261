import NodeGraph.Proofs.Binary64.ReadsBack
import NodeGraph.Proofs.Json.RoundTrip

/-!
The text of a value tells it from every other value, the bits of its doubles included.
-/
namespace NodeGraph.Json

variable {rest rest' : List Char}

/-! ### Doubles -/

theorem Denotes.ne_minus {cs : List Char} {d : ℕ} {e : ℤ} (h : Denotes cs d e)
    (hrest : Ends rest) (tail : List Char) : cs ++ rest ≠ '-' :: tail := by
  intro heq
  obtain ⟨p, hsplits, hp, -⟩ := h
  obtain ⟨rest₀, rest₁, hwhole, -⟩ := hsplits
  have hsplit := splitDigits_append_ends hrest cs
  rw [heq, hwhole] at hsplit
  exact hp.whole_ne (Prod.mk.inj hsplit).1.symm

/-- The decimal of a double is zero just for the zeros. -/
theorem decimal_eq_zero {x : Binary64} (hx : x.IsFinite) :
    ((decimal x).1 : ℚ) * 10 ^ (decimal x).2 = 0 ↔ x.significand = 0 := by
  unfold decimal
  split_ifs with hzero
  · simp [hzero]
  · have hpos := (Binary64.shortest_bounds (Nat.pos_of_ne_zero hzero)
      (Binary64.significand_lt x) (Binary64.exponent_ge x) (Binary64.exponent_le hx)).1
    have hne : ((Binary64.shortest x.significand x.exponent).1 : ℚ) *
        10 ^ (Binary64.shortest x.significand x.exponent).2 ≠ 0 := by positivity
    exact iff_of_false hne hzero

/-- Doubles of one sign that are worth the same decimal are the same. -/
theorem eq_of_decimal_eq {x y : Binary64} (hx : x.IsFinite) (hy : y.IsFinite)
    (hsign : x.isNegative = y.isNegative) (hvalue : ((decimal x).1 : ℚ) * 10 ^ (decimal x).2 =
      (decimal y).1 * 10 ^ (decimal y).2) : x = y := by
  by_cases hxzero : x.significand = 0
  · have hyzero := (decimal_eq_zero hy).mp (hvalue ▸ (decimal_eq_zero hx).mpr hxzero)
    exact Binary64.eq_of_significand_eq_zero hsign hxzero hyzero
  · have hyzero : y.significand ≠ 0 := fun hzero =>
      hxzero ((decimal_eq_zero hx).mp (hvalue ▸ (decimal_eq_zero hy).mpr hzero))
    unfold decimal at hvalue
    rw [if_neg hxzero, if_neg hyzero] at hvalue
    exact Binary64.eq_of_shortest_eq hx hy hsign (Nat.pos_of_ne_zero hxzero)
      (Nat.pos_of_ne_zero hyzero) hvalue

/-- The texts of two doubles differ, wherever they stand. -/
theorem eq_of_text_append {x y : Binary64} (hx : x.IsFinite) (hy : y.IsFinite)
    (hrest : Ends rest) (hrest' : Ends rest') (h : x.text ++ rest = y.text ++ rest') : x = y := by
  have hdx := denotes_unsignedText hx
  have hdy := denotes_unsignedText hy
  rw [text_eq, text_eq, List.append_assoc, List.append_assoc] at h
  split_ifs at h with hxsign hysign hysign
  · exact eq_of_decimal_eq hx hy (by rw [hxsign, hysign])
      (hdx.value_eq hdy hrest hrest' (List.cons.inj h).2)
  · exact absurd h.symm (hdy.ne_minus hrest' _)
  · exact absurd h (hdx.ne_minus hrest _)
  · exact eq_of_decimal_eq hx hy (by rw [Bool.eq_false_of_not_eq_true hxsign,
      Bool.eq_false_of_not_eq_true hysign]) (hdx.value_eq hdy hrest hrest' h)

/-! ### Values -/

theorem quoted_append (k : String) (rest : List Char) :
    quoted k ++ rest = '"' :: (k.toList.flatMap escape ++ '"' :: rest) := by
  simp [quoted]

theorem quoted_append_inj {k k' : String} (h : quoted k ++ rest = quoted k' ++ rest') :
    k = k' ∧ rest = rest' := by
  rw [quoted_append, quoted_append] at h
  have hread := (spellsString_escape k.toList).read rest
  rw [(List.cons.inj h).2, (spellsString_escape k'.toList).read] at hread
  obtain ⟨hkey, hrest⟩ := Prod.mk.inj (Option.some.inj hread)
  exact ⟨(String.toList_inj.mp hkey).symm, hrest.symm⟩

theorem ctorIdx_reread {v : Json} (h : v.Fits) : v.reread.ctorIdx = v.ctorIdx := by
  cases v with
  | float x =>
    obtain ⟨y, hy, -⟩ := exists_rereadFloat h
    show (rereadFloat x).ctorIdx = _
    rw [hy]
    rfl
  | _ => rfl

/-- Values whose texts begin alike are read alike, and so they are of one kind. -/
theorem reread_eq_of_chars {v w : Json} (hv : v.Fits) (hw : w.Fits) (hrest : Ends rest)
    (hrest' : Ends rest') (h : chars v ++ rest = chars w ++ rest') :
    v.reread = w.reread ∧ v.ctorIdx = w.ctorIdx := by
  have hread := readValue_chars hv (2 * (chars v).length + 2 * (chars w).length)
    (v.depth + w.depth) (by omega) (by omega) hrest
  rw [h, readValue_chars hw _ _ (by omega) (by omega) hrest'] at hread
  have hsame : v.reread = w.reread := (Prod.mk.inj (Option.some.inj hread)).1.symm
  exact ⟨hsame, by rw [← ctorIdx_reread hv, hsame, ctorIdx_reread hw]⟩

/-- That the text of this value is the beginning of no other's. -/
private def Stands (v : Json) : Prop :=
  ∀ w rest rest', w.Fits → Ends rest → Ends rest' → chars v ++ rest = chars w ++ rest' → v = w

private theorem eq_of_charsItems {items items' : List Json} (h : ∀ v ∈ items, Stands v)
    (hfits : FitsItems items') (heq : charsItems items ++ rest = charsItems items' ++ rest') :
    items = items' := by
  induction items generalizing items' with
  | nil =>
    cases items' with
    | nil => rfl
    | cons w items' => simp [charsItems] at heq
  | cons v items ih =>
    cases items' with
    | nil => simp [charsItems] at heq
    | cons w items' =>
      simp only [charsItems, List.cons_append, List.append_assoc, List.cons.injEq,
        true_and] at heq
      obtain rfl := h v List.mem_cons_self w _ _ hfits.1 (ends_charsItems items rest)
        (ends_charsItems items' rest') heq
      rw [ih (fun u hu => h u (List.mem_cons_of_mem v hu)) hfits.2 (List.append_cancel_left heq)]

private theorem eq_of_charsFields {fields fields' : List (String × Json)}
    (h : ∀ entry ∈ fields, Stands entry.2) (hfits : FitsFields fields')
    (heq : charsFields fields ++ rest = charsFields fields' ++ rest') : fields = fields' := by
  induction fields generalizing fields' with
  | nil =>
    cases fields' with
    | nil => rfl
    | cons entry' fields' => simp [charsFields] at heq
  | cons entry fields ih =>
    cases fields' with
    | nil => simp [charsFields] at heq
    | cons entry' fields' =>
      obtain ⟨k, v⟩ := entry
      obtain ⟨k', w⟩ := entry'
      simp only [charsFields, List.cons_append, List.append_assoc, List.cons.injEq,
        true_and] at heq
      obtain ⟨rfl, htail⟩ := quoted_append_inj heq
      have hvalues := (List.cons.inj htail).2
      obtain rfl := h (k, v) List.mem_cons_self w _ _ hfits.1 (ends_charsFields fields rest)
        (ends_charsFields fields' rest') hvalues
      rw [ih (fun u hu => h u (List.mem_cons_of_mem _ hu)) hfits.2
        (List.append_cancel_left hvalues)]

/-- The text of a value is the beginning of no other's. -/
theorem eq_of_chars_append {v w : Json} (hv : v.Fits) (hw : w.Fits) (hrest : Ends rest)
    (hrest' : Ends rest') (h : chars v ++ rest = chars w ++ rest') : v = w := by
  induction v generalizing w rest rest' with
  | null =>
    obtain ⟨-, hkind⟩ := reread_eq_of_chars hv hw hrest hrest' h
    cases w with
    | null => rfl
    | _ => cases hkind
  | bool b =>
    obtain ⟨hread, hkind⟩ := reread_eq_of_chars hv hw hrest hrest' h
    cases w with
    | bool b' => exact hread
    | _ => cases hkind
  | int i =>
    obtain ⟨hread, hkind⟩ := reread_eq_of_chars hv hw hrest hrest' h
    cases w with
    | int i' => exact hread
    | _ => cases hkind
  | float x =>
    obtain ⟨-, hkind⟩ := reread_eq_of_chars hv hw hrest hrest' h
    cases w with
    | float y => rw [eq_of_text_append hv hw hrest hrest' h]
    | _ => cases hkind
  | str s =>
    obtain ⟨hread, hkind⟩ := reread_eq_of_chars hv hw hrest hrest' h
    cases w with
    | str s' => exact hread
    | _ => cases hkind
  | arr items ih =>
    obtain ⟨hread, hkind⟩ := reread_eq_of_chars hv hw hrest hrest' h
    have hstands : ∀ v ∈ items, Stands v := fun v hmem _ _ _ hw hrest hrest' =>
      ih v hmem (fitsItems_iff.mp hv v hmem) hw hrest hrest'
    cases w with
    | arr items' =>
      -- Read alike, the two have as many items; from the first on the texts are those of items.
      rcases items with _ | ⟨v, items⟩ <;> rcases items' with _ | ⟨w, items'⟩
      · rfl
      · simp [reread, rereadItems] at hread
      · simp [reread, rereadItems] at hread
      · simp only [chars, List.cons_append, List.cons.injEq, true_and] at h
        have htexts : charsItems (v :: items) ++ rest = charsItems (w :: items') ++ rest' := by
          simp only [charsItems, List.cons_append, h]
        rw [eq_of_charsItems hstands hw htexts]
    | _ => cases hkind
  | obj fields ih =>
    obtain ⟨hread, hkind⟩ := reread_eq_of_chars hv hw hrest hrest' h
    have hstands : ∀ entry ∈ fields, Stands entry.2 := fun entry hmem _ _ _ hw hrest hrest' =>
      ih entry hmem (fitsFields_iff.mp hv entry hmem) hw hrest hrest'
    cases w with
    | obj fields' =>
      rcases fields with _ | ⟨⟨k, v⟩, fields⟩ <;> rcases fields' with _ | ⟨⟨k', w⟩, fields'⟩
      · rfl
      · simp [reread, rereadFields] at hread
      · simp [reread, rereadFields] at hread
      · simp only [chars, List.cons_append, List.cons.injEq, true_and] at h
        have htexts : charsFields ((k, v) :: fields) ++ rest =
            charsFields ((k', w) :: fields') ++ rest' := by
          simp only [charsFields, List.cons_append, h]
        rw [eq_of_charsFields hstands hw htexts]
    | _ => cases hkind

/-- No two values that fit have the same text. -/
theorem compact_injOn : Set.InjOn compact {v | v.Fits} := by
  intro v hv w hw h
  refine eq_of_chars_append hv hw ends_nil ends_nil ?_
  rw [List.append_nil, List.append_nil]
  exact String.ofList_injective h

end NodeGraph.Json
