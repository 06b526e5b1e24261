import NodeGraph.Json.Numeral
import NodeGraph.Json.Printer
import NodeGraph.Proofs.Binary64.Shortest

/-!
Numbers as they are printed and read: every integer reads back, and every finite double reads as
a finite double.
-/
namespace NodeGraph

theorem Binary64.ofRat_isFinite (negative : Bool) {y : ℚ} (hy : 0 ≤ y) (hlt : y < 2 ^ (1024 : ℤ)) :
    (ofRat negative y).IsFinite := by
  rcases hy.eq_or_lt with rfl | hpos
  · cases negative <;> decide
  · have hbinade := (zpow_lt_zpow_iff_right₀ (by norm_num : (1 : ℚ) < 2)).mp
      ((two_pow_binade_le hpos).trans_lt hlt)
    have hgrid : gridExponent y ≤ 971 := by
      unfold gridExponent
      omega
    have hquot : y / 2 ^ gridExponent y < 2 ^ 53 := by
      rw [div_lt_iff₀ (by positivity)]
      calc y < 2 ^ (binade y + 1) := lt_two_pow_binade_succ hpos
        _ ≤ 2 ^ (53 + gridExponent y) := by
          refine zpow_le_zpow_right₀ (by norm_num) ?_
          unfold gridExponent
          omega
        _ = 2 ^ 53 * 2 ^ gridExponent y := zpow_add₀ (by norm_num) _ _
    have hfloor : ⌊y / 2 ^ gridExponent y⌋ < 2 ^ 53 := by
      rw [Int.floor_lt]
      exact_mod_cast hquot
    have hn : (y / (2 : ℚ) ^ gridExponent y).floor.toNat < 2 ^ 53 := by
      show ⌊y / 2 ^ gridExponent y⌋.toNat < 2 ^ 53
      omega
    unfold ofRat IsFinite
    simp only [Nat.shiftLeft_eq]
    rw [if_neg hpos.ne']
    generalize (y / (2 : ℚ) ^ gridExponent y).floor.toNat = n at hn
    cases negative <;> simp only [Bool.false_eq_true, if_true, if_false, UInt64.toNat_ofNat'] <;>
      split_ifs <;> omega

namespace Json

/-- What may follow a numeral: nothing that would continue it. -/
def Ends (rest : List Char) : Prop :=
  ∀ c ∈ rest.head?, c.isDigit = false ∧ c ≠ '.' ∧ c ≠ 'e' ∧ c ≠ 'E'

theorem ends_nil : Ends [] := by
  simp [Ends]

theorem splitDigits_append {digits rest : List Char} (hd : ∀ c ∈ digits, c.isDigit = true)
    (hr : ∀ c ∈ rest.head?, c.isDigit = false) : splitDigits (digits ++ rest) = (digits, rest) := by
  unfold splitDigits
  rw [List.takeWhile_append_of_pos hd, List.dropWhile_append_of_pos hd]
  cases rest with
  | nil => simp
  | cons c rest =>
    have hc : c.isDigit = false := hr c rfl
    simp [hc]

theorem splitDigits_digits {digits : List Char} (hd : ∀ c ∈ digits, c.isDigit = true) :
    splitDigits digits = (digits, []) := by
  have hsplit : splitDigits (digits ++ []) = (digits, []) := splitDigits_append hd (by simp)
  rwa [List.append_nil] at hsplit

theorem isDigit_of_mem_toDigits {n : ℕ} : ∀ c ∈ Nat.toDigits 10 n, c.isDigit = true :=
  fun _ hc => Nat.isDigit_of_mem_toDigits (by decide) (by decide) hc

/-- A numeral of more than one digit does not begin with a zero. -/
theorem head?_toDigits {n : ℕ} (h : (Nat.toDigits 10 n).head? = some '0') :
    (Nat.toDigits 10 n).length = 1 := by
  cases hds : Nat.toDigits 10 n with
  | nil => exact absurd hds Nat.toDigits_ne_nil
  | cons d ds =>
    rw [hds] at h
    obtain rfl : d = '0' := Option.some.inj h
    rcases ds.eq_nil_or_concat with rfl | ⟨init, last, hconcat⟩
    · rfl
    · have hvalue : Nat.ofDigitChars 10 ds 0 = n := by
        have := Nat.ofDigitChars_ten_toDigits (n := n)
        rwa [hds, Nat.ofDigitChars_cons] at this
      have hlt : n < 10 ^ ds.length := by
        have hall : ∀ (l : List Char) (init : ℕ), (∀ c ∈ l, c.isDigit = true) →
            Nat.ofDigitChars 10 l init < 10 ^ l.length * (init + 1) := by
          intro l
          induction l with
          | nil => simp
          | cons c l ih =>
            intro init hc
            have hdigit : c.toNat - '0'.toNat < 10 := by
              have := hc c List.mem_cons_self
              simp only [Char.isDigit, Bool.and_eq_true, decide_eq_true_eq] at this
              have h9 : c.val ≤ '9'.val := this.2
              have : c.toNat ≤ '9'.toNat := h9
              have h09 : '9'.toNat = 57 := rfl
              have h00 : '0'.toNat = 48 := rfl
              omega
            rw [Nat.ofDigitChars_cons]
            refine (ih _ fun c' h' => hc c' (List.mem_cons_of_mem _ h')).trans_le ?_
            rw [List.length_cons, pow_succ, mul_assoc]
            exact Nat.mul_le_mul_left _ (by omega)
        have hdigits : ∀ c ∈ ds, c.isDigit = true := fun c hc =>
          isDigit_of_mem_toDigits c (hds ▸ List.mem_cons_of_mem _ hc)
        simpa [hvalue] using hall ds 0 hdigits
      have hpos : 0 < ds.length := by simp [hconcat]
      have hlen := (Nat.length_toDigits_le_iff (by decide) hpos).mpr hlt
      rw [hds, List.length_cons] at hlen
      omega

theorem gather_eq {s : ℕ} {digits : List Char} (h : Nat.ofDigitChars 10 digits s < 2 ^ 64) :
    gather s digits = (Nat.ofDigitChars 10 digits s, 0) := by
  induction digits generalizing s with
  | nil => rfl
  | cons c rest ih =>
    rw [Nat.ofDigitChars_cons, mul_comm] at h ⊢
    have hlonger : s * 10 + digitValue c < UInt64.size := by
      refine lt_of_le_of_lt ?_ h
      rw [Nat.ofDigitChars_eq_ofDigitChars_zero]
      exact (Nat.le_mul_of_pos_left _ (by positivity)).trans (Nat.le_add_right _ _)
    unfold gather
    rw [if_pos hlonger]
    exact ih h

theorem gather_lt {s : ℕ} (hs : s < 2 ^ 64) (digits : List Char) : (gather s digits).1 < 2 ^ 64 := by
  induction digits generalizing s with
  | nil => exact hs
  | cons c rest ih =>
    unfold gather
    dsimp only
    split
    · rename_i hlonger
      exact ih hlonger
    · exact hs

/-! ### Scaling -/

theorem one_le_powerOfTen (e : ℕ) : 1 ≤ powerOfTen e := by
  have hone : Binary64.round 1 = 1 := by
    simpa using Binary64.round_two_pow (k := 0) (by norm_num)
  rw [← hone]
  exact Binary64.round_mono (one_le_pow₀ (by norm_num))

private theorem round_div_powerOfTen {x : ℚ} (h0 : 0 ≤ x) (h : x ≤ 2 ^ (64 : ℤ)) (e : ℕ) :
    0 ≤ Binary64.round (x / powerOfTen e) ∧
      Binary64.round (x / powerOfTen e) ≤ 2 ^ (64 : ℤ) := by
  have hp := one_le_powerOfTen e
  constructor
  · exact Binary64.round_nonneg (div_nonneg h0 (zero_le_one.trans hp))
  · exact Binary64.round_le_two_pow (by norm_num) ((div_le_self h0 hp).trans h)

theorem scaleDown_bounds {x : ℚ} (e : ℕ) (h0 : 0 ≤ x) (h : x ≤ 2 ^ (64 : ℤ)) :
    0 ≤ scaleDown x e ∧ scaleDown x e ≤ 2 ^ (64 : ℤ) := by
  fun_induction scaleDown x e with
  | case1 x e he => exact round_div_powerOfTen h0 h e
  | case2 e he => exact ⟨le_rfl, by norm_num⟩
  | case3 x e he hx ih =>
    obtain ⟨hlo, hhi⟩ := round_div_powerOfTen h0 h 308
    exact ih hlo hhi

private theorem round_significand {n : ℕ} (hn : n < 2 ^ 64) :
    0 ≤ Binary64.round n ∧ Binary64.round n ≤ 2 ^ (64 : ℤ) := by
  refine ⟨Binary64.round_nonneg n.cast_nonneg, Binary64.round_le_two_pow (by norm_num) ?_⟩
  exact_mod_cast hn.le

private theorem lt_overflow {y : ℚ} (h : y ≤ 2 ^ (64 : ℤ)) : y < 2 ^ (1024 : ℤ) :=
  h.trans_lt (zpow_lt_zpow_right₀ (by norm_num) (by norm_num))

private theorem lt_of_not_overflows {y : ℚ} (h0 : 0 ≤ y) (h : ¬Binary64.overflows y = true) :
    y < 2 ^ (1024 : ℤ) := by
  have habs : y.abs = y := by simp [Rat.abs, h0]
  unfold Binary64.overflows at h
  rwa [habs, decide_eq_true_eq, not_le] at h

/-- A significand below `2 ^ 64` is scaled to a finite magnitude. -/
theorem scale_bounds {n : ℕ} (hn : n < 2 ^ 64) {e : ℤ} {y : ℚ} (h : scale n e = some y) :
    0 ≤ y ∧ y < 2 ^ (1024 : ℤ) := by
  obtain ⟨hx0, hx⟩ := round_significand hn
  unfold scale at h
  dsimp only at h
  split_ifs at h with hneg hbig hzero hover
  · obtain rfl := Option.some.inj h
    obtain ⟨hlo, hhi⟩ := scaleDown_bounds (-e).toNat hx0 hx
    exact ⟨hlo, lt_overflow hhi⟩
  · obtain rfl := Option.some.inj h
    exact ⟨le_rfl, lt_overflow (by norm_num)⟩
  · obtain rfl := Option.some.inj h
    have hnonneg : 0 ≤ Binary64.round (Binary64.round n * powerOfTen e.toNat) :=
      Binary64.round_nonneg (mul_nonneg hx0 (zero_le_one.trans (one_le_powerOfTen _)))
    exact ⟨hnonneg, lt_of_not_overflows hnonneg hover⟩

theorem scale_of_neg (n : ℕ) {e : ℤ} (he : e < 0) : ∃ y, scale n e = some y := by
  unfold scale
  exact ⟨_, if_pos he⟩

/-- The numbers a text can hold: integers in the 64-bit ranges and finite doubles. -/
def IsNumber : Json → Prop
  | int i => -2 ^ 63 ≤ i ∧ i < 2 ^ 64
  | float x => x.IsFinite
  | _ => False

theorem integer_isNumber {n : ℕ} (hn : n < 2 ^ 64) (negative : Bool) :
    (integer negative n).IsNumber := by
  unfold integer
  rw [Nat.one_shiftLeft]
  split_ifs with hneg hfloat
  · obtain ⟨hlo, hhi⟩ := round_significand hn
    exact Binary64.ofRat_isFinite true hlo (lt_overflow hhi)
  · unfold IsNumber
    omega
  · unfold IsNumber
    omega

theorem readMagnitude_isNumber {negative : Bool} {cs rest : List Char} {v : Json}
    (h : readMagnitude negative cs = some (v, rest)) : v.IsNumber := by
  have hwhole := gather_lt (by norm_num : 0 < 2 ^ 64) (splitDigits cs).1
  unfold readMagnitude at h
  dsimp only at h
  split_ifs at h with hshape
  · simp at h
  obtain ⟨⟨fraction, afterFraction⟩, hfraction, h⟩ := Option.bind_eq_some_iff.mp h
  obtain ⟨⟨power, afterPower⟩, hpower, h⟩ := Option.bind_eq_some_iff.mp h
  dsimp only at h
  split_ifs at h with hint
  · obtain ⟨rfl, -⟩ := Prod.mk.inj (Option.some.inj h)
    exact integer_isNumber hwhole negative
  · obtain ⟨y, hy, h⟩ := Option.bind_eq_some_iff.mp h
    obtain ⟨rfl, -⟩ := Prod.mk.inj (Option.some.inj h)
    obtain ⟨hlo, hhi⟩ := scale_bounds (gather_lt hwhole fraction) hy
    exact Binary64.ofRat_isFinite negative hlo hhi

theorem readNumeral_isNumber {cs rest : List Char} {v : Json}
    (h : readNumeral cs = some (v, rest)) : v.IsNumber := by
  unfold readNumeral at h
  split at h <;> exact readMagnitude_isNumber h

/-! ### What follows a numeral -/

section Append

variable {cs rest : List Char} (h : Ends rest)

include h

theorem splitDigits_append_ends (cs : List Char) :
    splitDigits (cs ++ rest) = ((splitDigits cs).1, (splitDigits cs).2 ++ rest) := by
  induction cs with
  | nil =>
    cases rest with
    | nil => rfl
    | cons c rest => simp [splitDigits, (h c rfl).1]
  | cons c cs ih =>
    by_cases hc : c.isDigit = true
    · have := Prod.mk.inj ih
      simp_all [splitDigits]
    · simp [splitDigits, hc]

theorem readFraction_append {r : List Char × List Char} (hread : readFraction cs = some r) :
    readFraction (cs ++ rest) = some (r.1, r.2 ++ rest) := by
  unfold readFraction at hread
  split at hread
  · rename_i tail
    dsimp only at hread
    split_ifs at hread with hempty
    obtain rfl := Option.some.inj hread
    simp only [List.cons_append, readFraction, splitDigits_append_ends h, hempty]
    simp
  · rename_i hne
    obtain rfl := Option.some.inj hread
    unfold readFraction
    split
    · rename_i tail heq
      cases cs with
      | nil => exact absurd rfl (h '.' (by rw [List.nil_append] at heq; rw [heq]; rfl)).2.1
      | cons c cs => exact absurd (by rw [(List.cons.inj heq).1]) (hne cs)
    · rfl

theorem readExponentDigits_append {sign : ℤ} {r : Option ℤ × List Char}
    (hread : readExponentDigits sign cs = some r) :
    readExponentDigits sign (cs ++ rest) = some (r.1, r.2 ++ rest) := by
  unfold readExponentDigits at hread ⊢
  rw [splitDigits_append_ends h]
  dsimp only at hread ⊢
  split_ifs at hread ⊢ with hempty
  obtain rfl := Option.some.inj hread
  rfl

theorem readUnsignedExponent_append {r : Option ℤ × List Char}
    (hread : readUnsignedExponent cs = some r) :
    readUnsignedExponent (cs ++ rest) = some (r.1, r.2 ++ rest) := by
  cases cs with
  | nil => simp [readUnsignedExponent, readExponentDigits, splitDigits] at hread
  | cons c cs =>
    by_cases hplus : c = '+'
    · subst hplus
      show readExponentDigits 1 (cs ++ rest) = _
      exact readExponentDigits_append h hread
    by_cases hminus : c = '-'
    · subst hminus
      show readExponentDigits (-1) (cs ++ rest) = _
      exact readExponentDigits_append h hread
    have hplain (tail : List Char) :
        readUnsignedExponent (c :: tail) = readExponentDigits 1 (c :: tail) := by
      unfold readUnsignedExponent
      split <;> simp_all
    rw [hplain] at hread
    rw [List.cons_append, hplain, ← List.cons_append]
    exact readExponentDigits_append h hread

theorem readExponent_append {r : Option ℤ × List Char} (hread : readExponent cs = some r) :
    readExponent (cs ++ rest) = some (r.1, r.2 ++ rest) := by
  cases cs with
  | nil =>
    obtain rfl := Option.some.inj hread
    show readExponent rest = some (none, rest)
    unfold readExponent
    split
    · exact absurd rfl (h 'e' rfl).2.2.1
    · exact absurd rfl (h 'E' rfl).2.2.2
    · rfl
  | cons c cs =>
    by_cases hlower : c = 'e'
    · subst hlower
      show readUnsignedExponent (cs ++ rest) = _
      exact readUnsignedExponent_append h hread
    by_cases hupper : c = 'E'
    · subst hupper
      show readUnsignedExponent (cs ++ rest) = _
      exact readUnsignedExponent_append h hread
    have hplain (tail : List Char) : readExponent (c :: tail) = some (none, c :: tail) := by
      unfold readExponent
      split <;> simp_all
    rw [hplain] at hread
    obtain rfl := Option.some.inj hread
    exact hplain (cs ++ rest)

theorem readMagnitude_append {negative : Bool} {r : Json × List Char}
    (hread : readMagnitude negative cs = some r) :
    readMagnitude negative (cs ++ rest) = some (r.1, r.2 ++ rest) := by
  unfold readMagnitude at hread ⊢
  rw [splitDigits_append_ends h]
  dsimp only at hread ⊢
  split_ifs at hread ⊢ with hshape
  · simp at hread
  obtain ⟨⟨fraction, rest₁⟩, hfraction, hread⟩ := Option.bind_eq_some_iff.mp hread
  obtain ⟨⟨power, rest₂⟩, hpower, hread⟩ := Option.bind_eq_some_iff.mp hread
  rw [readFraction_append h hfraction]
  dsimp only [Option.bind_eq_bind, Option.bind_some]
  rw [readExponent_append h hpower]
  dsimp only [Option.bind_eq_bind, Option.bind_some] at hread ⊢
  split_ifs at hread ⊢ with hint
  · obtain rfl := Option.some.inj hread
    rfl
  · obtain ⟨x, hx, hread⟩ := Option.bind_eq_some_iff.mp hread
    obtain rfl := Option.some.inj hread
    rw [hx]
    rfl

/-- A numeral is read alike whatever stands after it. -/
theorem readNumeral_append {r : Json × List Char} (hread : readNumeral cs = some r) :
    readNumeral (cs ++ rest) = some (r.1, r.2 ++ rest) := by
  cases cs with
  | nil => simp [readNumeral, readMagnitude, splitDigits] at hread
  | cons c cs =>
    by_cases hminus : c = '-'
    · subst hminus
      show readMagnitude true (cs ++ rest) = _
      exact readMagnitude_append h hread
    have hplain (tail : List Char) :
        readNumeral (c :: tail) = readMagnitude false (c :: tail) := by
      unfold readNumeral
      split <;> simp_all
    rw [hplain] at hread
    rw [List.cons_append, hplain, ← List.cons_append]
    exact readMagnitude_append h hread

end Append

/-! ### Printed numbers -/

theorem readFraction_point {digits rest : List Char} (hd : ∀ c ∈ digits, c.isDigit = true)
    (hne : digits ≠ []) (hr : ∀ c ∈ rest.head?, c.isDigit = false) :
    readFraction ('.' :: (digits ++ rest)) = some (digits, rest) := by
  simp [readFraction, splitDigits_append hd hr, hne]

theorem readFraction_digits {digits : List Char} (hd : ∀ c ∈ digits, c.isDigit = true)
    (hne : digits ≠ []) : readFraction ('.' :: digits) = some (digits, []) := by
  simp [readFraction, splitDigits_digits hd, hne]

theorem readExponent_signed (k : ℤ) :
    readExponent ('e' :: ((if k < 0 then ['-'] else ['+']) ++ Nat.toDigits 10 k.natAbs)) =
      some (some k, []) := by
  have hdigits (sign : ℤ) : readExponentDigits sign (Nat.toDigits 10 k.natAbs) =
      some (some (sign * k.natAbs), []) := by
    unfold readExponentDigits
    rw [splitDigits_digits isDigit_of_mem_toDigits]
    simp [Nat.toDigits_ne_nil]
  split_ifs with hk
  · show readExponentDigits (-1) (Nat.toDigits 10 k.natAbs) = _
    rw [hdigits]
    congr 3
    omega
  · show readExponentDigits 1 (Nat.toDigits 10 k.natAbs) = _
    rw [hdigits]
    congr 3
    omega

/-- The digits of a numeral before and after its point, and the power of ten that it writes. -/
structure Parts where
  whole : List Char
  fraction : List Char
  power : Option ℤ

namespace Parts

def significand (p : Parts) : ℕ :=
  Nat.ofDigitChars 10 (p.whole ++ p.fraction) 0

def exponent (p : Parts) : ℤ :=
  p.power.getD 0 - p.fraction.length

/-- What the numeral says, before it is rounded. -/
def value (p : Parts) : ℚ :=
  p.significand * 10 ^ p.exponent

/-- A numeral with a fraction or an exponent, none of whose digits are left over. -/
structure IsDouble (p : Parts) : Prop where
  whole_ne : p.whole ≠ []
  leading : p.whole.head? = some '0' → p.whole.length = 1
  marked : p.fraction ≠ [] ∨ p.power ≠ none
  small : p.significand < 2 ^ 64

end Parts

/-- The text falls into these parts. -/
def Splits (cs : List Char) (p : Parts) : Prop :=
  ∃ rest₀ rest₁, splitDigits cs = (p.whole, rest₀) ∧
    readFraction rest₀ = some (p.fraction, rest₁) ∧ readExponent rest₁ = some (p.power, [])

/-- A text falls into the same parts as the beginning of another. -/
theorem Splits.parts_eq {cs cs' rest rest' : List Char} {p p' : Parts} (h : Splits cs p)
    (h' : Splits cs' p') (hrest : Ends rest) (hrest' : Ends rest')
    (heq : cs ++ rest = cs' ++ rest') : p = p' := by
  obtain ⟨rest₀, rest₁, hwhole, hfraction, hpower⟩ := h
  obtain ⟨rest₀', rest₁', hwhole', hfraction', hpower'⟩ := h'
  have hsplit := splitDigits_append_ends hrest cs
  rw [heq, splitDigits_append_ends hrest', hwhole, hwhole'] at hsplit
  obtain ⟨hw, h₀⟩ := Prod.mk.inj hsplit
  have hread := readFraction_append hrest hfraction
  rw [← h₀, readFraction_append hrest' hfraction'] at hread
  obtain ⟨hf, h₁⟩ := Prod.mk.inj (Option.some.inj hread)
  have hread' := readExponent_append hrest hpower
  rw [← h₁, readExponent_append hrest' hpower'] at hread'
  obtain ⟨hp, -⟩ := Prod.mk.inj (Option.some.inj hread')
  cases p
  cases p'
  rw [Parts.mk.injEq]
  exact ⟨hw.symm, hf.symm, hp.symm⟩

/-- A number with a fraction or an exponent, read from its parts. -/
theorem readMagnitude_of_splits {negative : Bool} {cs : List Char} {p : Parts} {y : ℚ}
    (h : Splits cs p) (hp : p.IsDouble) (hscale : scale p.significand p.exponent = some y) :
    readMagnitude negative cs = some (.float (.ofRat negative y), []) := by
  obtain ⟨rest₀, rest₁, hwhole, hfraction, hpower⟩ := h
  have hsmall := hp.small
  unfold Parts.significand at hsmall hscale
  unfold Parts.exponent at hscale
  rw [Nat.ofDigitChars_append] at hsmall hscale
  have hgather := gather_eq hsmall
  have hgather₀ : gather 0 p.whole = (Nat.ofDigitChars 10 p.whole 0, 0) := by
    refine gather_eq (lt_of_le_of_lt ?_ hsmall)
    rw [Nat.ofDigitChars_eq_ofDigitChars_zero (l := p.fraction)]
    exact (Nat.le_mul_of_pos_left _ (by positivity)).trans (Nat.le_add_right _ _)
  have hint : ¬(p.fraction.isEmpty = true ∧ p.power.isNone = true ∧ (0 : ℕ) = 0) := by
    rintro ⟨hf, hn, -⟩
    rw [List.isEmpty_iff] at hf
    rw [Option.isNone_iff_eq_none] at hn
    exact hp.marked.elim (fun hne => hne hf) (fun hne => hne hn)
  have hshape : ¬(p.whole.isEmpty = true ∨ p.whole.head? = some '0' ∧ p.whole.length ≠ 1) := by
    rintro (hempty | ⟨hhead, hlen⟩)
    · exact hp.whole_ne (List.isEmpty_iff.mp hempty)
    · exact hlen (hp.leading hhead)
  have he : ((0 : ℕ) : ℤ) - ((p.fraction.length - 0 : ℕ) : ℤ) + p.power.getD 0 =
      p.power.getD 0 - p.fraction.length := by
    omega
  unfold readMagnitude
  rw [hwhole]
  dsimp only
  rw [if_neg hshape, hgather₀, hfraction]
  dsimp only [Option.bind_eq_bind, Option.bind_some]
  rw [hpower]
  dsimp only [Option.bind_eq_bind, Option.bind_some]
  rw [if_neg hint, hgather, he]
  dsimp only
  rw [hscale]
  rfl

/-- The text is a numeral worth `d * 10 ^ e` that is read as a double. What is scaled in reading it
is `d` by `10 ^ e` too, unless it is a division. -/
def Denotes (cs : List Char) (d : ℕ) (e : ℤ) : Prop :=
  ∃ p : Parts, Splits cs p ∧ p.IsDouble ∧ p.value = d * 10 ^ e ∧
    (p.exponent < 0 ∨ p.significand = d ∧ p.exponent = e)

/-- A text is worth one number, also as the beginning of another. -/
theorem Denotes.value_eq {cs cs' rest rest' : List Char} {d d' : ℕ} {e e' : ℤ}
    (h : Denotes cs d e) (h' : Denotes cs' d' e') (hrest : Ends rest) (hrest' : Ends rest')
    (heq : cs ++ rest = cs' ++ rest') : (d : ℚ) * 10 ^ e = d' * 10 ^ e' := by
  obtain ⟨p, hsplits, -, hvalue, -⟩ := h
  obtain ⟨p', hsplits', -, hvalue', -⟩ := h'
  rw [← hvalue, ← hvalue', hsplits.parts_eq hsplits' hrest hrest' heq]

/-- Parts with the digits of `d` and the exponent `e`. -/
theorem denotes_of_parts {cs : List Char} {d : ℕ} {e : ℤ} {p : Parts} (h : Splits cs p)
    (hp : p.IsDouble) (hd : p.significand = d) (he : p.exponent = e) : Denotes cs d e :=
  ⟨p, h, hp, by rw [Parts.value, hd, he], Or.inr ⟨hd, he⟩⟩

theorem head?_toDigits_ne {n : ℕ} (hn : 0 < n) : (Nat.toDigits 10 n).head? ≠ some '0' := by
  intro h
  obtain ⟨d, hd⟩ := List.length_eq_one_iff.mp (head?_toDigits h)
  rw [hd] at h
  obtain rfl : d = '0' := Option.some.inj h
  have := Nat.ofDigitChars_ten_toDigits (n := n)
  rw [hd] at this
  exact hn.ne this

theorem scale_of_fits {d e : ℕ} (he : e ≤ 308)
    (hfit : Binary64.round (Binary64.round d * Binary64.round ((10 : ℚ) ^ e)) < 2 ^ (1024 : ℤ)) :
    ∃ y, scale d e = some y := by
  have hnonneg : 0 ≤ Binary64.round (Binary64.round d * powerOfTen e) :=
    Binary64.round_nonneg (mul_nonneg (Binary64.round_nonneg d.cast_nonneg)
      (zero_le_one.trans (one_le_powerOfTen e)))
  have hover : ¬Binary64.overflows (Binary64.round (Binary64.round d * powerOfTen e)) = true := by
    unfold Binary64.overflows
    have habs : (Binary64.round (Binary64.round d * powerOfTen e)).abs =
        Binary64.round (Binary64.round d * powerOfTen e) := by simp [Rat.abs, hnonneg]
    rw [habs, decide_eq_true_eq, not_le]
    exact hfit
  unfold scale
  dsimp only
  rw [if_neg (by omega), if_neg (by omega), Int.toNat_natCast, if_neg hover]
  exact ⟨_, rfl⟩

/-- An integer in the 64-bit ranges is read back. -/
theorem readNumeral_integerText {i : ℤ} (hi : -2 ^ 63 ≤ i ∧ i < 2 ^ 64) :
    readNumeral (integerText i) = some (.int i, []) := by
  have hsmall : i.natAbs < 2 ^ 64 := by omega
  have hread (negative : Bool) : readMagnitude negative (Nat.toDigits 10 i.natAbs) =
      some (integer negative i.natAbs, []) := by
    have hshape : ¬((Nat.toDigits 10 i.natAbs).isEmpty = true ∨
        (Nat.toDigits 10 i.natAbs).head? = some '0' ∧ (Nat.toDigits 10 i.natAbs).length ≠ 1) := by
      rintro (hempty | ⟨hhead, hlen⟩)
      · exact Nat.toDigits_ne_nil (List.isEmpty_iff.mp hempty)
      · exact hlen (head?_toDigits hhead)
    have hgather : gather 0 (Nat.toDigits 10 i.natAbs) = (i.natAbs, 0) := by
      rw [gather_eq (by rwa [Nat.ofDigitChars_ten_toDigits]), Nat.ofDigitChars_ten_toDigits]
    unfold readMagnitude
    rw [splitDigits_digits isDigit_of_mem_toDigits]
    dsimp only
    rw [if_neg hshape, hgather]
    simp [readFraction, readExponent]
  unfold integerText
  split_ifs with hneg
  · show readMagnitude true (Nat.toDigits 10 i.natAbs) = _
    rw [hread]
    have hint : integer true i.natAbs = .int i := by
      unfold integer
      rw [Nat.one_shiftLeft, if_pos rfl, if_neg (by omega)]
      congr 1
      omega
    rw [hint]
  · have hint : integer false i.natAbs = .int i := by
      unfold integer
      rw [if_neg (by decide)]
      congr 1
      omega
    rw [← hint, ← hread]
    unfold readNumeral
    split
    · rename_i heq
      have := isDigit_of_mem_toDigits (n := i.natAbs) '-' (by rw [heq]; exact List.mem_cons_self)
      simp at this
    · rfl

section Magnitude

variable {d : ℕ} {e : ℤ} (hd : 0 < d) (hlt : d < 10 ^ 18)

include hd hlt

omit hlt in
/-- Plain digits followed by a point and a zero. -/
private theorem denotes_whole (he : 0 ≤ e)
    (hpoint : ((Nat.toDigits 10 d).length : ℤ) + e ≤ 16) :
    Denotes (Nat.toDigits 10 d ++ List.replicate e.toNat '0' ++ ['.', '0']) d e := by
  set whole := Nat.toDigits 10 d ++ List.replicate e.toNat '0' with hw
  have hsignificand : Nat.ofDigitChars 10 (whole ++ ['0']) 0 = 10 * (10 ^ e.toNat * d) := by
    rw [hw, Nat.ofDigitChars_append, Nat.ofDigitChars_append, Nat.ofDigitChars_ten_toDigits,
      Nat.ofDigitChars_replicate_zero, Nat.ofDigitChars_cons, Nat.ofDigitChars_nil]
    rfl
  have hsmall : Nat.ofDigitChars 10 (whole ++ ['0']) 0 < 2 ^ 64 := by
    have hlen : d < 10 ^ (Nat.toDigits 10 d).length :=
      (Nat.length_toDigits_le_iff (by decide) Nat.length_toDigits_pos).mp le_rfl
    have hmul : 10 ^ e.toNat * d < 10 ^ 16 := by
      calc 10 ^ e.toNat * d < 10 ^ e.toNat * 10 ^ (Nat.toDigits 10 d).length :=
            Nat.mul_lt_mul_of_pos_left hlen (by positivity)
        _ = 10 ^ (e.toNat + (Nat.toDigits 10 d).length) := (pow_add _ _ _).symm
        _ ≤ 10 ^ 16 := Nat.pow_le_pow_right (by decide) (by omega)
    rw [hsignificand]
    omega
  have hdigits : ∀ c ∈ whole, c.isDigit = true := by
    intro c hc
    rcases List.mem_append.mp hc with hmem | hmem
    · exact isDigit_of_mem_toDigits c hmem
    · rw [List.eq_of_mem_replicate hmem]
      rfl
  have hhead : whole.head? = (Nat.toDigits 10 d).head? := by
    rw [hw, List.head?_append]
    cases hds : Nat.toDigits 10 d with
    | nil => exact absurd hds Nat.toDigits_ne_nil
    | cons c ds => rfl
  have hvalue : ((10 * (10 ^ e.toNat * d) : ℕ) : ℚ) * 10 ^ (-1 : ℤ) = d * 10 ^ e := by
    obtain ⟨m, rfl⟩ := Int.eq_ofNat_of_zero_le he
    rw [Int.toNat_natCast, zpow_natCast, zpow_neg_one]
    push_cast
    ring
  refine ⟨⟨whole, ['0'], none⟩, ⟨['.', '0'], [], splitDigits_append hdigits (by simp), rfl, rfl⟩,
    ⟨by simp [hw, Nat.toDigits_ne_nil], ?_, Or.inl (by simp), hsmall⟩, ?_,
    Or.inl (by norm_num [Parts.exponent])⟩
  · rw [hhead]
    exact fun h => absurd h (head?_toDigits_ne hd)
  · show ((Nat.ofDigitChars 10 (whole ++ ['0']) 0 : ℕ) : ℚ) * 10 ^ (-1 : ℤ) = _
    rw [hsignificand, hvalue]

/-- Digits with a point between them. -/
private theorem denotes_split {n : ℕ} (hn : 0 < n) (hpoint : n < (Nat.toDigits 10 d).length)
    (he : (n : ℤ) = (Nat.toDigits 10 d).length + e) :
    Denotes ((Nat.toDigits 10 d).take n ++ '.' :: (Nat.toDigits 10 d).drop n) d e := by
  have hvalue : Nat.ofDigitChars 10 ((Nat.toDigits 10 d).take n ++ (Nat.toDigits 10 d).drop n) 0 =
      d := by
    rw [List.take_append_drop, Nat.ofDigitChars_ten_toDigits]
  have hdrop : (Nat.toDigits 10 d).drop n ≠ [] := by
    rw [Ne, List.drop_eq_nil_iff]
    omega
  refine denotes_of_parts (p := ⟨(Nat.toDigits 10 d).take n, (Nat.toDigits 10 d).drop n, none⟩)
    ⟨_, [], splitDigits_append ?_ (by simp), readFraction_digits ?_ hdrop, rfl⟩
    ⟨?_, ?_, Or.inl hdrop, ?_⟩ hvalue ?_
  · exact fun c hc => isDigit_of_mem_toDigits c (List.mem_of_mem_take hc)
  · exact fun c hc => isDigit_of_mem_toDigits c (List.mem_of_mem_drop hc)
  · rw [Ne, List.take_eq_nil_iff]
    rintro (h | h)
    · omega
    · exact Nat.toDigits_ne_nil h
  · rw [List.head?_take, if_neg hn.ne']
    exact fun h => absurd h (head?_toDigits_ne hd)
  · show Nat.ofDigitChars 10 (_ ++ _) 0 < _
    rw [hvalue]
    omega
  · show (none : Option ℤ).getD 0 - ((Nat.toDigits 10 d).drop n).length = e
    rw [List.length_drop, Option.getD_none]
    omega

omit hd in
/-- A zero, a point, and digits. -/
private theorem denotes_below {n : ℕ} (he : -(n : ℤ) = (Nat.toDigits 10 d).length + e) :
    Denotes ('0' :: '.' :: (List.replicate n '0' ++ Nat.toDigits 10 d)) d e := by
  set fraction := List.replicate n '0' ++ Nat.toDigits 10 d with hf
  have hvalue : Nat.ofDigitChars 10 (['0'] ++ fraction) 0 = d := by
    rw [Nat.ofDigitChars_append, hf, Nat.ofDigitChars_append, Nat.ofDigitChars_replicate_zero,
      Nat.ofDigitChars_cons, Nat.ofDigitChars_nil]
    simp
  have hne : fraction ≠ [] := by simp [hf, Nat.toDigits_ne_nil]
  have hdigits : ∀ c ∈ fraction, c.isDigit = true := by
    intro c hc
    rcases List.mem_append.mp hc with hmem | hmem
    · rw [List.eq_of_mem_replicate hmem]
      rfl
    · exact isDigit_of_mem_toDigits c hmem
  refine denotes_of_parts (p := ⟨['0'], fraction, none⟩)
    ⟨_, [], @splitDigits_append ['0'] _ (by simp) (by simp), readFraction_digits hdigits hne, rfl⟩
    ⟨by simp, by simp, Or.inl hne, ?_⟩ hvalue ?_
  · show Nat.ofDigitChars 10 (['0'] ++ fraction) 0 < _
    rw [hvalue]
    omega
  · show (none : Option ℤ).getD 0 - fraction.length = e
    rw [hf, List.length_append, List.length_replicate, Option.getD_none]
    push_cast
    omega

omit hd in
/-- One digit before the point, and an exponent. -/
private theorem denotes_scientific {c : Char} {digits : List Char}
    (hdigits : Nat.toDigits 10 d = c :: digits) :
    Denotes ((c :: (if digits = [] then [] else '.' :: digits)) ++ 'e' ::
      ((if digits.length + e < 0 then ['-'] else ['+']) ++
        Nat.toDigits 10 (digits.length + e).natAbs)) d e := by
  have hvalue : Nat.ofDigitChars 10 ([c] ++ digits) 0 = d := by
    show Nat.ofDigitChars 10 (c :: digits) 0 = d
    rw [← hdigits, Nat.ofDigitChars_ten_toDigits]
  have hall : ∀ c' ∈ c :: digits, c'.isDigit = true := hdigits ▸ isDigit_of_mem_toDigits
  have hexponent := readExponent_signed (digits.length + e)
  set tail := 'e' :: ((if digits.length + e < 0 then ['-'] else ['+']) ++
    Nat.toDigits 10 (digits.length + e).natAbs) with htail
  refine denotes_of_parts (p := ⟨[c], digits, some (digits.length + e)⟩)
    ⟨(if digits = [] then [] else '.' :: digits) ++ tail, tail, ?_, ?_, hexponent⟩
    ⟨by simp, by simp, Or.inr (by simp), ?_⟩ hvalue ?_
  · refine @splitDigits_append [c] _ (fun c' h => hall c' ?_) ?_
    · rw [List.mem_singleton.mp h]
      exact List.mem_cons_self
    · split_ifs <;> simp [htail]
  · split_ifs with hnil
    · rw [hnil, htail]
      rfl
    · exact readFraction_point (fun c' h => hall c' (List.mem_cons_of_mem _ h)) hnil
        (by simp [htail])
  · show Nat.ofDigitChars 10 ([c] ++ digits) 0 < _
    rw [hvalue]
    omega
  · show (some (digits.length + e : ℤ)).getD 0 - digits.length = e
    rw [Option.getD_some, add_sub_cancel_left]

/-- The text of a magnitude is worth its digits. -/
theorem denotes_magnitudeText :
    Denotes (Binary64.magnitudeText (Nat.toDigits 10 d) e) d e := by
  unfold Binary64.magnitudeText
  dsimp only
  split
  · rename_i hwhole
    exact denotes_whole hd hwhole.1 hwhole.2
  rename_i hwhole
  split
  · rename_i hsplit
    have hpos := hsplit.1
    refine denotes_split hd hlt (by omega) ?_ (by omega)
    by_contra hge
    exact hwhole ⟨by omega, hsplit.2⟩
  split
  · rename_i hbelow
    exact denotes_below hlt (by omega)
  cases hdigits : Nat.toDigits 10 d with
  | nil => exact absurd hdigits Nat.toDigits_ne_nil
  | cons c digits =>
    have hexp : (((c :: digits).length : ℕ) : ℤ) + e - 1 = digits.length + e := by
      rw [List.length_cons]
      push_cast
      ring
    have hdenotes := denotes_scientific hlt (e := e) hdigits
    rw [hexp]
    cases digits with
    | nil => exact hdenotes
    | cons c' digits => exact hdenotes

omit hd hlt in
/-- A numeral is read to its end, if what is to be scaled stays finite. -/
theorem readMagnitude_of_denotes {cs : List Char} (h : Denotes cs d e) (negative : Bool)
    (hfit : ∀ m : ℕ, e = m → m ≤ 308 ∧
      Binary64.round (Binary64.round d * Binary64.round ((10 : ℚ) ^ m)) < 2 ^ (1024 : ℤ)) :
    ∃ y, readMagnitude negative cs = some (.float (.ofRat negative y), []) := by
  obtain ⟨p, hsplits, hp, -, hscaled⟩ := h
  have hscale : ∃ y, scale p.significand p.exponent = some y := by
    rcases lt_or_ge p.exponent 0 with hneg | hnonneg
    · exact scale_of_neg _ hneg
    · obtain ⟨hd, he⟩ := hscaled.resolve_left (not_lt.mpr hnonneg)
      obtain ⟨m, hm⟩ := Int.eq_ofNat_of_zero_le (he ▸ hnonneg)
      obtain ⟨hle, hround⟩ := hfit m hm
      rw [hd, he, hm]
      exact scale_of_fits hle hround
  obtain ⟨y, hy⟩ := hscale
  exact ⟨y, readMagnitude_of_splits hsplits hp hy⟩

end Magnitude

private theorem two_mul_overflow_lt :
    2 * ((2 : ℚ) ^ (53 : ℤ) * 2 ^ (971 : ℤ)) < 10 ^ (309 : ℤ) := by
  decide +kernel

/-- The digits and the exponent of the text of a double. -/
def decimal (x : Binary64) : ℕ × ℤ :=
  if x.significand = 0 then (0, -1) else Binary64.shortest x.significand x.exponent

/-- The text of a double without its sign. -/
def unsignedText (x : Binary64) : List Char :=
  if x.significand = 0 then ['0', '.', '0']
  else Binary64.magnitudeText (Nat.toDigits 10 (decimal x).1) (decimal x).2

theorem text_eq (x : Binary64) :
    x.text = (if x.isNegative then ['-'] else []) ++ unsignedText x := by
  unfold Binary64.text unsignedText decimal
  dsimp only
  split_ifs <;> rfl

section Float

variable {x : Binary64} (hx : x.IsFinite)

include hx

private theorem decimal_fits (m : ℕ) (hm : (decimal x).2 = m) : m ≤ 308 ∧
    Binary64.round (Binary64.round (decimal x).1 * Binary64.round ((10 : ℚ) ^ m)) <
      2 ^ (1024 : ℤ) := by
  unfold decimal at hm ⊢
  split_ifs at hm ⊢ with hzero
  · exact absurd hm (by omega)
  have hpos := Nat.pos_of_ne_zero hzero
  have hlt := Binary64.significand_lt x
  have hge := Binary64.exponent_ge x
  have hle := Binary64.exponent_le hx
  refine ⟨?_, Binary64.shortest_product_lt hpos hlt hge hle hm⟩
  obtain ⟨hd, -, hvalue⟩ := Binary64.shortest_bounds hpos hlt hge hle
  rw [hm] at hvalue
  have hone : (1 : ℚ) ≤ (Binary64.shortest x.significand x.exponent).1 := by exact_mod_cast hd
  have hsig : (x.significand : ℚ) < 2 ^ (53 : ℤ) := by exact_mod_cast hlt
  have hup : (10 : ℚ) ^ (m : ℤ) < 10 ^ (309 : ℤ) := by
    calc (10 : ℚ) ^ (m : ℤ) ≤ 2 * (x.significand * 2 ^ x.exponent) :=
          (le_mul_of_one_le_left (by positivity) hone).trans hvalue
      _ ≤ 2 * (2 ^ (53 : ℤ) * 2 ^ (971 : ℤ)) := by
          gcongr
          exact (by norm_num : (1 : ℚ) ≤ 2)
      _ < 10 ^ (309 : ℤ) := two_mul_overflow_lt
  have := (zpow_lt_zpow_iff_right₀ (by norm_num : (1 : ℚ) < 10)).mp hup
  omega

/-- The text of a finite double is worth its shortest decimal. -/
theorem denotes_unsignedText : Denotes (unsignedText x) (decimal x).1 (decimal x).2 := by
  unfold unsignedText
  split_ifs with hzero
  · have hdecimal : decimal x = (0, -1) := if_pos hzero
    rw [hdecimal]
    exact denotes_of_parts (p := ⟨['0'], ['0'], none⟩) ⟨['.', '0'], [], rfl, rfl, rfl⟩
      ⟨by simp, by simp, Or.inl (by simp), by decide⟩ rfl rfl
  · have hdecimal : decimal x = Binary64.shortest x.significand x.exponent := if_neg hzero
    obtain ⟨hd, hlt, -⟩ := Binary64.shortest_bounds (Nat.pos_of_ne_zero hzero)
      (Binary64.significand_lt x) (Binary64.exponent_ge x) (Binary64.exponent_le hx)
    rw [← hdecimal] at hd hlt
    exact denotes_magnitudeText hd hlt

/-- The text of a finite double is read, as some double. -/
theorem readNumeral_text : ∃ y, readNumeral x.text = some (.float y, []) := by
  have hread (negative : Bool) := readMagnitude_of_denotes (denotes_unsignedText hx) negative
    (decimal_fits hx)
  rw [text_eq]
  split_ifs with hnegative
  · obtain ⟨y, hy⟩ := hread true
    exact ⟨_, hy⟩
  · obtain ⟨y, hy⟩ := hread false
    refine ⟨.ofRat false y, ?_⟩
    rw [List.nil_append, ← hy]
    unfold readNumeral
    split
    · rename_i heq
      rw [heq] at hy
      simp [readMagnitude, splitDigits] at hy
    · rfl

end Float

end Json
end NodeGraph
