import NodeGraph.Proofs.Binary64.Shortest

/-!
The shortest decimal of a double rounds to that double, so that no two doubles share one.
-/
namespace NodeGraph.Binary64

/-- An integer is rounded to from up to half a unit away, and from just half a unit only if it is
even. -/
theorem roundEven_eq_of_abs_sub_le {x : ℚ} {n : ℤ} (hle : |x - n| ≤ 1 / 2)
    (htie : |x - n| = 1 / 2 → n % 2 = 0) : roundEven x = n := by
  obtain ⟨hlo, hhi⟩ := abs_le.mp hle
  have hfloor := Int.floor_le x
  have hfloor' := Int.lt_floor_add_one x
  have hcases : ⌊x⌋ = n ∨ ⌊x⌋ = n - 1 := by
    have hge : n - 1 < ⌊x⌋ + 1 := by
      exact_mod_cast (show ((n - 1 : ℤ) : ℚ) < (⌊x⌋ + 1 : ℤ) by push_cast; linarith)
    have hlt : ⌊x⌋ < n + 1 := by
      exact_mod_cast (show ((⌊x⌋ : ℤ) : ℚ) < (n + 1 : ℤ) by push_cast; linarith)
    omega
  rw [roundEven_eq]
  rcases hcases with h | h
  · have heven : x - n = 1 / 2 → n % 2 = 0 := fun heq => htie (by rw [heq]; norm_num)
    rw [h]
    split_ifs with hbelow habove heven'
    · rfl
    · linarith
    · rfl
    · exact absurd (heven (by linarith)) heven'
  · have heven : x - n = -(1 / 2) → n % 2 = 0 := fun heq => htie (by rw [heq]; norm_num)
    rw [h]
    push_cast
    split_ifs with hbelow habove hodd
    · linarith
    · omega
    · have := heven (by linarith)
      omega
    · omega

/-- A significand with its exponent as a double has them: it has 53 bits, or stands on the finest
grid. -/
structure IsNormal (n : ℕ) (q : ℤ) : Prop where
  lt : n < 2 ^ 53
  ge : -1074 ≤ q
  full : 2 ^ 52 ≤ n ∨ q = -1074

theorem isNormal_significand (x : Binary64) : IsNormal x.significand x.exponent where
  lt := significand_lt x
  ge := exponent_ge x
  full := by
    unfold significand exponent
    simp only [Nat.one_shiftLeft]
    split_ifs <;> omega

/-- Between two powers of two the grid has one exponent, and below the least of them as well. -/
theorem gridExponent_eq {y : ℚ} {q : ℤ} (hpos : 0 < y) (hq : -1074 ≤ q)
    (hge : 2 ^ 52 * 2 ^ q ≤ y ∨ q = -1074) (hlt : y < 2 ^ 53 * 2 ^ q) : gridExponent y = q := by
  have hpow (k : ℕ) : (2 : ℚ) ^ k * 2 ^ q = 2 ^ (k + q) := by
    rw [zpow_add₀ (by norm_num), zpow_natCast]
  rw [hpow] at hge hlt
  have hup := (zpow_lt_zpow_iff_right₀ (by norm_num : (1 : ℚ) < 2)).mp
    ((two_pow_binade_le hpos).trans_lt hlt)
  unfold gridExponent
  rcases hge with hge | rfl
  · have hdown := (zpow_lt_zpow_iff_right₀ (by norm_num : (1 : ℚ) < 2)).mp
      (hge.trans_lt (lt_two_pow_binade_succ hpos))
    push_cast at hup hdown
    omega
  · push_cast at hup
    omega

/-- Rounding, by the integer nearest to the quotient with a unit of the grid. -/
theorem round_eq_of_abs_sub_le {y : ℚ} {q n : ℤ} (hpos : 0 < y) (hgrid : gridExponent y = q)
    (hle : |y - n * 2 ^ q| ≤ 2 ^ (q - 1)) (htie : |y - n * 2 ^ q| = 2 ^ (q - 1) → n % 2 = 0) :
    round y = n * 2 ^ q := by
  have hunit : (0 : ℚ) < 2 ^ q := by positivity
  have hhalf : (2 : ℚ) ^ (q - 1) = 1 / 2 * 2 ^ q := by
    rw [zpow_sub_one₀ (by norm_num : (2 : ℚ) ≠ 0)]
    ring
  have hscale : |y - n * 2 ^ q| = |y / 2 ^ q - n| * 2 ^ q := by
    rw [← abs_of_pos hunit, ← abs_mul, abs_of_pos hunit]
    congr 1
    field_simp
  rw [hhalf, hscale] at hle htie
  have hint : roundEven (y / 2 ^ q) = n :=
    roundEven_eq_of_abs_sub_le (le_of_mul_le_mul_right hle hunit) fun h => htie (by rw [h])
  rw [round_of_pos hpos, hgrid, hint]

private theorem two_pow_pred (q : ℤ) : (2 : ℚ) ^ q = 2 * 2 ^ (q - 1) := by
  rw [zpow_sub_one₀ (by norm_num : (2 : ℚ) ≠ 0)]
  ring

theorem readsBackAs_strict {n : ℕ} {q : ℤ} {y : ℚ} (h : readsBackAs n q y = true)
    (hodd : n % 2 ≠ 0) : lowerEnd n q < y ∧ y < upperEnd n q := by
  unfold readsBackAs at h
  rw [if_neg hodd] at h
  exact of_decide_eq_true h

section Normal

variable {n n' : ℕ} {q q' : ℤ} (hn : 0 < n)

/-- Below a power of two the grid is finer by one, and the significand there is even. -/
private theorem round_of_below_binade (hq : -1074 < q) {y : ℚ} (hpos : 0 < y)
    (hlo : lowerEnd (2 ^ 52) q ≤ y) (hbelow : y < (2 ^ 52 : ℕ) * 2 ^ q) :
    round y = (2 ^ 52 : ℕ) * 2 ^ q := by
  have hlower : lowerEnd (2 ^ 52) q = (4 * 2 ^ 52 - 1) * 2 ^ (q - 2) := by
    unfold lowerEnd
    rw [if_pos ⟨rfl, hq⟩]
    norm_num
  have hquarter : (2 : ℚ) ^ (q - 1) = 2 * 2 ^ (q - 1 - 1) := two_pow_pred (q - 1)
  have hexponent : q - 1 - 1 = q - 2 := by ring
  rw [hexponent] at hquarter
  rw [hlower] at hlo
  push_cast at hbelow
  rw [two_pow_pred q] at hbelow
  have hsmall : (0 : ℚ) < 2 ^ (q - 2) := by positivity
  have hgrid : gridExponent y = q - 1 :=
    gridExponent_eq hpos (by omega) (Or.inl (by linarith)) (by linarith)
  have hround := round_eq_of_abs_sub_le (n := 2 ^ 53) hpos hgrid
    (by rw [hexponent, abs_le]; push_cast; constructor <;> linarith) (fun _ => by norm_num)
  rw [hround, two_pow_pred q]
  push_cast
  ring

/-- What reads back as a double is at most half a unit below it, unless the grid is finer there. -/
private theorem sub_half_le {y : ℚ} (hlo : lowerEnd n q ≤ y)
    (hbinade : ¬(n = 2 ^ 52 ∧ -1074 < q ∧ y < n * 2 ^ q)) :
    (n : ℚ) * 2 ^ q - 2 ^ (q - 1) ≤ y := by
  have hunit : (0 : ℚ) < 2 ^ (q - 1) := by positivity
  unfold lowerEnd at hlo
  split_ifs at hlo with hcase
  · have hge : (n : ℚ) * 2 ^ q ≤ y := by
      by_contra hlt
      exact hbinade ⟨hcase.1, hcase.2, not_le.mp hlt⟩
    linarith
  · rw [two_pow_pred q]
    linarith

/-- Half a unit away is what reads back as the even neighbour. -/
private theorem abs_sub_lt_of_odd {y : ℚ} (hy : readsBackAs n q y = true) (hodd : n % 2 ≠ 0) :
    |y - n * 2 ^ q| < 2 ^ (q - 1) := by
  obtain ⟨hl, hu⟩ := readsBackAs_strict hy hodd
  rw [upperEnd_eq, two_pow_pred q] at hu
  unfold lowerEnd at hl
  rw [if_neg (fun hcase => hodd (by rw [hcase.1]; rfl))] at hl
  rw [abs_lt, two_pow_pred q]
  constructor <;> linarith

private theorem two_pow_binade_le_or (h : IsNormal n q) {y : ℚ}
    (hhalf : (n : ℚ) * 2 ^ q - 2 ^ (q - 1) ≤ y)
    (hbinade : ¬(n = 2 ^ 52 ∧ -1074 < q ∧ y < n * 2 ^ q)) : 2 ^ 52 * 2 ^ q ≤ y ∨ q = -1074 := by
  rcases h.full with hn52 | hq
  · rcases hn52.eq_or_lt with rfl | hgt
    · rcases h.ge.eq_or_lt with hq | hq
      · exact Or.inr hq.symm
      · have hge : ((2 ^ 52 : ℕ) : ℚ) * 2 ^ q ≤ y := by
          by_contra hlt
          exact hbinade ⟨rfl, hq, not_le.mp hlt⟩
        exact Or.inl (by exact_mod_cast hge)
    · have hunit : (0 : ℚ) < 2 ^ (q - 1) := by positivity
      have hgt' : (2 : ℚ) ^ 52 + 1 ≤ n := by exact_mod_cast hgt
      left
      calc (2 : ℚ) ^ 52 * 2 ^ q ≤ (n - 1) * 2 ^ q :=
            mul_le_mul_of_nonneg_right (by linarith) (by positivity)
        _ ≤ n * 2 ^ q - 2 ^ (q - 1) := by rw [two_pow_pred q]; linarith
        _ ≤ y := hhalf
  · exact Or.inr hq

include hn in
/-- What reads back as a double rounds to it. -/
theorem round_of_readsBackAs (h : IsNormal n q) {y : ℚ} (hy : readsBackAs n q y = true) :
    round y = n * 2 ^ q := by
  obtain ⟨hlo, hhi⟩ := readsBackAs_bounds hy
  have hpos : 0 < y := (lowerEnd_pos hn q).trans_le hlo
  have hunit : (0 : ℚ) < 2 ^ (q - 1) := by positivity
  have hlt : (n : ℚ) + 1 ≤ 2 ^ 53 := by exact_mod_cast h.lt
  rw [upperEnd_eq] at hhi
  by_cases hbinade : n = 2 ^ 52 ∧ -1074 < q ∧ y < n * 2 ^ q
  · obtain ⟨rfl, hq, hbelow⟩ := hbinade
    exact round_of_below_binade hq hpos hlo hbelow
  · have hhalf := sub_half_le hlo hbinade
    have hgrid : gridExponent y = q := by
      refine gridExponent_eq hpos h.ge (two_pow_binade_le_or h hhalf hbinade) (hhi.trans_lt ?_)
      calc (n : ℚ) * 2 ^ q + 2 ^ (q - 1) < (n + 1) * 2 ^ q := by rw [two_pow_pred q]; linarith
        _ ≤ 2 ^ 53 * 2 ^ q := mul_le_mul_of_nonneg_right hlt (by positivity)
    refine round_eq_of_abs_sub_le (n := n) hpos hgrid ?_ fun htie => ?_
    · rw [abs_le]
      push_cast
      constructor <;> linarith
    · by_contra hodd
      exact absurd htie (abs_sub_lt_of_odd hy (by omega)).ne

include hn in
/-- The magnitude of a double determines its significand and its exponent. -/
theorem IsNormal.eq_of_value_eq (h : IsNormal n q) (h' : IsNormal n' q')
    (hvalue : (n : ℚ) * 2 ^ q = n' * 2 ^ q') : n = n' ∧ q = q' := by
  have hgrid {m : ℕ} {p : ℤ} (hm : 0 < m) (hmp : IsNormal m p) :
      gridExponent ((m : ℚ) * 2 ^ p) = p := by
    have hlt : (m : ℚ) < 2 ^ 53 := by exact_mod_cast hmp.lt
    refine gridExponent_eq (by positivity) hmp.ge ?_
      (mul_lt_mul_of_pos_right hlt (by positivity))
    rcases hmp.full with hm52 | hp
    · have hge : (2 : ℚ) ^ 52 ≤ m := by exact_mod_cast hm52
      exact Or.inl (mul_le_mul_of_nonneg_right hge (by positivity))
    · exact Or.inr hp
  have hn' : 0 < n' := by
    rcases Nat.eq_zero_or_pos n' with rfl | hpos
    · have hpos : (0 : ℚ) < n * 2 ^ q := by positivity
      rw [hvalue] at hpos
      simp at hpos
    · exact hpos
  have hq : q = q' := by rw [← hgrid hn h, hvalue, hgrid hn' h']
  subst hq
  have hcancel := mul_right_cancel₀ (by positivity : (2 : ℚ) ^ q ≠ 0) hvalue
  exact ⟨by exact_mod_cast hcancel, rfl⟩

end Normal

/-- The bits of a double are its sign, its significand and its exponent. -/
theorem eq_of_parts {x y : Binary64} (hsign : x.isNegative = y.isNegative)
    (hsignificand : x.significand = y.significand) (hexponent : x.exponent = y.exponent) :
    x = y := by
  have hbits : x.bits.toNat = y.bits.toNat := by
    have hx := x.bits.toNat_lt
    have hy := y.bits.toNat_lt
    unfold isNegative at hsign
    unfold significand at hsignificand
    unfold exponent at hexponent
    simp only [Nat.one_shiftLeft, decide_eq_decide] at hsign hsignificand hexponent
    split_ifs at hsignificand <;> omega
  cases x
  cases y
  rw [mk.injEq]
  exact UInt64.toNat_inj.mp hbits

section Finite

variable {x y : Binary64} (hx : x.IsFinite) (hy : y.IsFinite)

include hx in
/-- The shortest decimal of a finite double rounds to its magnitude. -/
theorem round_shortest (hpos : 0 < x.significand) :
    round ((shortest x.significand x.exponent).1 * 10 ^ (shortest x.significand x.exponent).2) =
      x.significand * 2 ^ x.exponent :=
  round_of_readsBackAs hpos (isNormal_significand x)
    (readsBackAs_shortest hpos (significand_lt x) (exponent_ge x) (exponent_le hx))

include hx hy in
/-- Doubles of one sign with one shortest decimal are the same. -/
theorem eq_of_shortest_eq (hsign : x.isNegative = y.isNegative) (hxpos : 0 < x.significand)
    (hypos : 0 < y.significand)
    (hvalue : ((shortest x.significand x.exponent).1 : ℚ) *
        10 ^ (shortest x.significand x.exponent).2 =
      (shortest y.significand y.exponent).1 * 10 ^ (shortest y.significand y.exponent).2) :
    x = y := by
  have hmagnitude := round_shortest hx hxpos
  rw [hvalue, round_shortest hy hypos] at hmagnitude
  obtain ⟨hsignificand, hexponent⟩ :=
    (isNormal_significand x).eq_of_value_eq hxpos (isNormal_significand y) hmagnitude.symm
  exact eq_of_parts hsign hsignificand hexponent

/-- There is one zero of each sign. -/
theorem eq_of_significand_eq_zero (hsign : x.isNegative = y.isNegative)
    (hxzero : x.significand = 0) (hyzero : y.significand = 0) : x = y := by
  have hx := (isNormal_significand x).full
  have hy := (isNormal_significand y).full
  refine eq_of_parts hsign (hxzero.trans hyzero.symm) ?_
  omega

end Finite

end NodeGraph.Binary64
