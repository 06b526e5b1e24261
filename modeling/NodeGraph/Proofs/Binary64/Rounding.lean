import Mathlib.Tactic
import NodeGraph.Binary64.Rounding

/-! Order properties of rounding to the binary64 grid: it is odd, monotone, and fixes powers of
two, so that bounds by powers of two survive it. -/
namespace NodeGraph.Binary64

private theorem num_eq_natAbs {x : ℚ} (hx : 0 < x) : (x.num : ℚ) = x.num.natAbs := by
  have hpos : 0 < x.num := Rat.num_pos.mpr hx
  rw [← Int.natAbs_of_nonneg hpos.le]
  simp

theorem two_pow_binade_le {x : ℚ} (hx : 0 < x) : (2 : ℚ) ^ binade x ≤ x := by
  have hn : x.num.natAbs ≠ 0 := by simpa using hx.ne'
  have hnlo : (2 : ℚ) ^ x.num.natAbs.log2 ≤ x.num.natAbs := by
    exact_mod_cast Nat.log2_self_le hn
  have hdhi : (x.den : ℚ) < (2 : ℚ) ^ (x.den.log2 + 1) := by
    exact_mod_cast Nat.lt_log2_self
  unfold binade
  dsimp only
  split_ifs with h
  · exact h
  · have hd : (0 : ℚ) < x.den := by exact_mod_cast x.den_pos
    conv_rhs => rw [← Rat.num_div_den x]
    rw [le_div_iff₀ hd, num_eq_natAbs hx]
    calc (2 : ℚ) ^ ((x.num.natAbs.log2 : ℤ) - x.den.log2 - 1) * x.den
        ≤ (2 : ℚ) ^ ((x.num.natAbs.log2 : ℤ) - x.den.log2 - 1) * 2 ^ (x.den.log2 + 1) :=
          mul_le_mul_of_nonneg_left hdhi.le (by positivity)
      _ = (2 : ℚ) ^ x.num.natAbs.log2 := by
          rw [← zpow_natCast, ← zpow_add₀ (by norm_num : (2 : ℚ) ≠ 0), ← zpow_natCast]
          congr 1
          push_cast
          ring
      _ ≤ x.num.natAbs := hnlo

theorem lt_two_pow_binade_succ {x : ℚ} (hx : 0 < x) : x < (2 : ℚ) ^ (binade x + 1) := by
  have hnhi : (x.num.natAbs : ℚ) < (2 : ℚ) ^ (x.num.natAbs.log2 + 1) := by
    exact_mod_cast Nat.lt_log2_self
  have hdlo : (2 : ℚ) ^ x.den.log2 ≤ x.den := by
    exact_mod_cast Nat.log2_self_le x.den_ne_zero
  unfold binade
  dsimp only
  split_ifs with h
  · have hd : (0 : ℚ) < x.den := by exact_mod_cast x.den_pos
    conv_lhs => rw [← Rat.num_div_den x]
    rw [div_lt_iff₀ hd, num_eq_natAbs hx]
    calc (x.num.natAbs : ℚ) < (2 : ℚ) ^ (x.num.natAbs.log2 + 1) := hnhi
      _ = (2 : ℚ) ^ ((x.num.natAbs.log2 : ℤ) - x.den.log2 + 1) * 2 ^ x.den.log2 := by
          rw [← zpow_natCast, ← zpow_natCast, ← zpow_add₀ (by norm_num : (2 : ℚ) ≠ 0)]
          congr 1
          push_cast
          ring
      _ ≤ (2 : ℚ) ^ ((x.num.natAbs.log2 : ℤ) - x.den.log2 + 1) * x.den :=
          mul_le_mul_of_nonneg_left hdlo (by positivity)
  · rw [sub_add_cancel]
    exact not_le.mp h

theorem binade_mono {x y : ℚ} (hx : 0 < x) (hxy : x ≤ y) : binade x ≤ binade y := by
  have h : (2 : ℚ) ^ binade x < (2 : ℚ) ^ (binade y + 1) :=
    (two_pow_binade_le hx).trans_lt (hxy.trans_lt (lt_two_pow_binade_succ (hx.trans_le hxy)))
  have := (zpow_lt_zpow_iff_right₀ (by norm_num : (1 : ℚ) < 2)).mp h
  omega

theorem binade_two_pow (k : ℤ) : binade ((2 : ℚ) ^ k) = k := by
  have hp : (0 : ℚ) < 2 ^ k := by positivity
  have hlo := (zpow_le_zpow_iff_right₀ (by norm_num : (1 : ℚ) < 2)).mp (two_pow_binade_le hp)
  have hhi := (zpow_lt_zpow_iff_right₀ (by norm_num : (1 : ℚ) < 2)).mp
    (lt_two_pow_binade_succ hp)
  omega

theorem gridExponent_mono {x y : ℚ} (hx : 0 < x) (hxy : x ≤ y) :
    gridExponent x ≤ gridExponent y := by
  have := binade_mono hx hxy
  unfold gridExponent
  omega

theorem roundEven_eq (x : ℚ) : roundEven x =
    if x - ⌊x⌋ < 1 / 2 then ⌊x⌋
    else if 1 / 2 < x - ⌊x⌋ then ⌊x⌋ + 1
    else if ⌊x⌋ % 2 = 0 then ⌊x⌋ else ⌊x⌋ + 1 := rfl

theorem floor_le_roundEven (x : ℚ) : ⌊x⌋ ≤ roundEven x := by
  rw [roundEven_eq]
  split_ifs <;> omega

theorem roundEven_le_floor_succ (x : ℚ) : roundEven x ≤ ⌊x⌋ + 1 := by
  rw [roundEven_eq]
  split_ifs <;> omega

theorem roundEven_mono {x y : ℚ} (hxy : x ≤ y) : roundEven x ≤ roundEven y := by
  have hf : ⌊x⌋ ≤ ⌊y⌋ := Int.floor_le_floor hxy
  rcases hf.lt_or_eq with hlt | heq
  · have hx := roundEven_le_floor_succ x
    have hy := floor_le_roundEven y
    omega
  · -- Within one unit interval the excess decides, and it grows with the number.
    rw [roundEven_eq, roundEven_eq, heq]
    split_ifs <;> first | omega | (exfalso; linarith)

theorem roundEven_neg (x : ℚ) : roundEven (-x) = -roundEven x := by
  have hlo := Int.floor_le x
  have hhi := Int.lt_floor_add_one x
  by_cases hint : (⌊x⌋ : ℚ) = x
  · rw [← hint, ← Int.cast_neg, roundEven_intCast, roundEven_intCast]
  have hlt : (⌊x⌋ : ℚ) < x := lt_of_le_of_ne hlo hint
  have hneg : ⌊-x⌋ = -⌊x⌋ - 1 := by
    rw [Int.floor_eq_iff]
    push_cast
    constructor <;> linarith
  rw [roundEven_eq, roundEven_eq, hneg]
  push_cast
  split_ifs <;> first | omega | (exfalso; linarith)

theorem roundEven_nonneg {x : ℚ} (hx : 0 ≤ x) : 0 ≤ roundEven x := by
  simpa using (roundEven_intCast 0).symm.le.trans (roundEven_mono (by simpa using hx))

theorem abs_roundEven_sub_le (x : ℚ) : |(roundEven x : ℚ) - x| ≤ 1 / 2 := by
  have hlo := Int.floor_le x
  have hhi := Int.lt_floor_add_one x
  rw [roundEven_eq]
  split_ifs <;> push_cast <;> rw [abs_le] <;> constructor <;> linarith

theorem round_of_pos {x : ℚ} (hx : 0 < x) :
    round x = roundEven (x / 2 ^ gridExponent x) * 2 ^ gridExponent x := by
  have habs : x.abs = x := by simp [Rat.abs, hx.le]
  simp [round, hx.ne', habs]

theorem round_neg (x : ℚ) : round (-x) = -round x := by
  by_cases hx : x = 0
  · simp [hx, round_zero]
  · simp [round, hx, neg_div, roundEven_neg]

theorem round_nonneg {x : ℚ} (hx : 0 ≤ x) : 0 ≤ round x := by
  rcases hx.eq_or_lt with rfl | hpos
  · rw [round_zero]
  · rw [round_of_pos hpos]
    have : (0 : ℚ) ≤ roundEven (x / 2 ^ gridExponent x) := by
      exact_mod_cast roundEven_nonneg (by positivity)
    positivity

/-- An integer multiple of a power of two that is no finer than the grid around it is kept. -/
theorem round_of_multiple {k g : ℤ} (hx : 0 < (k : ℚ) * 2 ^ g)
    (hg : gridExponent ((k : ℚ) * 2 ^ g) ≤ g) : round ((k : ℚ) * 2 ^ g) = k * 2 ^ g := by
  obtain ⟨d, hd⟩ := Int.eq_ofNat_of_zero_le (sub_nonneg.mpr hg)
  set e := gridExponent ((k : ℚ) * 2 ^ g) with he
  have hsplit : (2 : ℚ) ^ g = 2 ^ d * 2 ^ e := by
    rw [← zpow_natCast, ← zpow_add₀ (by norm_num : (2 : ℚ) ≠ 0)]
    congr 1
    omega
  have hquot : (k : ℚ) * 2 ^ g / 2 ^ e = ((k * 2 ^ d : ℤ) : ℚ) := by
    rw [hsplit]
    push_cast
    field_simp
  rw [round_of_pos hx, ← he, hquot, roundEven_intCast, hsplit]
  push_cast
  ring

theorem round_two_pow {k : ℤ} (hk : -1074 ≤ k) : round ((2 : ℚ) ^ k) = 2 ^ k := by
  have h := round_of_multiple (k := 1) (g := k) (by positivity) (by
    unfold gridExponent
    rw [Int.cast_one, one_mul, binade_two_pow]
    omega)
  simpa using h

private theorem two_pow_binade_le_round {y : ℚ} (hy : 0 < y)
    (hg : gridExponent y = binade y - 52) : (2 : ℚ) ^ binade y ≤ round y := by
  have hunit : (2 : ℚ) ^ binade y = 2 ^ (52 : ℕ) * 2 ^ gridExponent y := by
    rw [hg, ← zpow_natCast, ← zpow_add₀ (by norm_num : (2 : ℚ) ≠ 0)]
    congr 1
    push_cast
    ring
  have hquot : ((2 ^ 52 : ℤ) : ℚ) ≤ y / 2 ^ gridExponent y := by
    rw [le_div_iff₀ (by positivity), Int.cast_pow, Int.cast_ofNat, ← hunit]
    exact two_pow_binade_le hy
  have hint := roundEven_mono hquot
  rw [roundEven_intCast] at hint
  rw [round_of_pos hy, hunit]
  have : ((2 : ℚ) ^ (52 : ℕ)) ≤ roundEven (y / 2 ^ gridExponent y) := by exact_mod_cast hint
  exact mul_le_mul_of_nonneg_right this (by positivity)

private theorem round_le_two_pow_gridExponent {x : ℚ} (hx : 0 < x) :
    round x ≤ 2 ^ (gridExponent x + 53) := by
  have hg : binade x + 1 ≤ gridExponent x + 53 := by
    unfold gridExponent
    omega
  have hunit : (2 : ℚ) ^ (gridExponent x + 53) = 2 ^ (53 : ℕ) * 2 ^ gridExponent x := by
    rw [← zpow_natCast, ← zpow_add₀ (by norm_num : (2 : ℚ) ≠ 0)]
    congr 1
    push_cast
    ring
  have hquot : x / 2 ^ gridExponent x ≤ ((2 ^ 53 : ℤ) : ℚ) := by
    rw [div_le_iff₀ (by positivity), Int.cast_pow, Int.cast_ofNat, ← hunit]
    exact (lt_two_pow_binade_succ hx).le.trans (zpow_le_zpow_right₀ (by norm_num) hg)
  have hint := roundEven_mono hquot
  rw [roundEven_intCast] at hint
  rw [round_of_pos hx, hunit]
  have : (roundEven (x / 2 ^ gridExponent x) : ℚ) ≤ 2 ^ (53 : ℕ) := by exact_mod_cast hint
  exact mul_le_mul_of_nonneg_right this (by positivity)

private theorem round_mono_of_pos {x y : ℚ} (hx : 0 < x) (hxy : x ≤ y) : round x ≤ round y := by
  have hy := hx.trans_le hxy
  rcases (gridExponent_mono hx hxy).lt_or_eq with hlt | heq
  · -- The coarser grid is that of a normal number, and a power of two separates the two.
    have hg : gridExponent y = binade y - 52 := by
      unfold gridExponent at hlt ⊢
      omega
    calc round x ≤ 2 ^ (gridExponent x + 53) := round_le_two_pow_gridExponent hx
      _ ≤ 2 ^ binade y := zpow_le_zpow_right₀ (by norm_num) (by omega)
      _ ≤ round y := two_pow_binade_le_round hy hg
  · rw [round_of_pos hx, round_of_pos hy, heq]
    have : roundEven (x / 2 ^ gridExponent y) ≤ roundEven (y / 2 ^ gridExponent y) :=
      roundEven_mono (div_le_div_of_nonneg_right hxy (by positivity))
    exact mul_le_mul_of_nonneg_right (by exact_mod_cast this) (by positivity)

theorem round_mono {x y : ℚ} (hxy : x ≤ y) : round x ≤ round y := by
  rcases lt_trichotomy x 0 with hx | rfl | hx
  · rcases lt_or_ge y 0 with hy | hy
    · have h := round_mono_of_pos (neg_pos.mpr hy) (neg_le_neg hxy)
      rw [round_neg, round_neg] at h
      linarith
    · have h := round_nonneg (neg_pos.mpr hx).le
      rw [round_neg] at h
      linarith [round_nonneg hy]
  · rw [round_zero]
    exact round_nonneg hxy
  · exact round_mono_of_pos hx hxy

theorem round_le_two_pow {x : ℚ} {k : ℤ} (hk : -1074 ≤ k) (hx : x ≤ 2 ^ k) :
    round x ≤ 2 ^ k :=
  (round_mono hx).trans (round_two_pow hk).le

/-- Rounding adds at most one part in `2 ^ 53` to a number that is not subnormal. -/
theorem round_le_mul {x : ℚ} (hx : (2 : ℚ) ^ (-1022 : ℤ) ≤ x) :
    round x ≤ x * (1 + 2 ^ (-53 : ℤ)) := by
  have hpos : 0 < x := lt_of_lt_of_le (by positivity) hx
  have hbinade : -1022 ≤ binade x := by
    have := binade_mono (by positivity) hx
    rwa [binade_two_pow] at this
  have hgrid : gridExponent x = binade x + -53 + 1 := by
    unfold gridExponent
    omega
  have hunit : (2 : ℚ) ^ gridExponent x / 2 = 2 ^ binade x * 2 ^ (-53 : ℤ) := by
    rw [hgrid, zpow_add_one₀ (by norm_num), zpow_add₀ (by norm_num)]
    ring
  have herr := (abs_le.mp (abs_roundEven_sub_le (x / 2 ^ gridExponent x))).2
  have hmul : (roundEven (x / 2 ^ gridExponent x) : ℚ) * 2 ^ gridExponent x ≤
      (x / 2 ^ gridExponent x + 1 / 2) * 2 ^ gridExponent x :=
    mul_le_mul_of_nonneg_right (by linarith) (by positivity)
  calc round x = roundEven (x / 2 ^ gridExponent x) * 2 ^ gridExponent x := round_of_pos hpos
    _ ≤ (x / 2 ^ gridExponent x + 1 / 2) * 2 ^ gridExponent x := hmul
    _ = x + 2 ^ gridExponent x / 2 := by
        rw [add_mul, div_mul_cancel₀ x (by positivity : (2 : ℚ) ^ gridExponent x ≠ 0)]
        ring
    _ = x + 2 ^ binade x * 2 ^ (-53 : ℤ) := by rw [hunit]
    _ ≤ x + x * 2 ^ (-53 : ℤ) := by
        have := mul_le_mul_of_nonneg_right (two_pow_binade_le hpos)
          (by positivity : (0 : ℚ) ≤ 2 ^ (-53 : ℤ))
        linarith
    _ = x * (1 + 2 ^ (-53 : ℤ)) := by ring

end NodeGraph.Binary64
