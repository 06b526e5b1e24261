import NodeGraph.Binary64.Shortest
import NodeGraph.Proofs.Binary64.Rounding

/-! The shortest decimal of a finite double: it has at most 18 digits and lies within half a unit
in the last place of the double. -/
namespace NodeGraph.Binary64

/-- Neither infinite nor undefined. -/
def IsFinite (x : Binary64) : Prop :=
  x.bits.toNat % 2 ^ 63 < 2047 * 2 ^ 52

instance (x : Binary64) : Decidable x.IsFinite :=
  inferInstanceAs (Decidable (_ < _))

theorem significand_lt (x : Binary64) : x.significand < 2 ^ 53 := by
  unfold significand
  simp only [Nat.one_shiftLeft]
  split_ifs <;> omega

theorem exponent_ge (x : Binary64) : -1074 ≤ x.exponent := by
  unfold exponent
  dsimp only
  omega

theorem exponent_le {x : Binary64} (hx : x.IsFinite) : x.exponent ≤ 971 := by
  unfold IsFinite at hx
  unfold exponent
  simp only [Nat.one_shiftLeft]
  omega

private theorem ten_pow_near_two_pow : ∀ b < 1024,
    10 ^ (b * 30103 / 100000) ≤ 10 * 2 ^ b ∧ 2 ^ (b + 1) ≤ 10 ^ (b * 30103 / 100000 + 2) := by
  decide +kernel

private theorem two_pow_near_ten_pow : ∀ c < 1076,
    2 ^ c ≤ 10 ^ ((c * 30103 + 99999) / 100000 + 1) ∧
      10 ^ ((c * 30103 + 99999) / 100000) ≤ 50 * 2 ^ c := by
  decide +kernel

/-- The estimate of the decade from the binade is off by one at most. -/
private theorem decade_estimate {b : ℤ} (hlo : -1075 ≤ b) (hhi : b ≤ 1023) :
    (10 : ℚ) ^ (Int.fdiv (b * 30103) 100000 - 1) ≤ 2 ^ b ∧
      (2 : ℚ) ^ (b + 1) ≤ 10 ^ (Int.fdiv (b * 30103) 100000 + 2) := by
  have h10 : (10 : ℚ) ≠ 0 := by norm_num
  have h2 : (2 : ℚ) ≠ 0 := by norm_num
  rw [Int.fdiv_eq_ediv_of_nonneg _ (by norm_num)]
  rcases le_or_gt 0 b with hb | hb
  · obtain ⟨n, rfl⟩ := Int.eq_ofNat_of_zero_le hb
    obtain ⟨hl, hu⟩ := ten_pow_near_two_pow n (by omega)
    have hk : (n : ℤ) * 30103 / 100000 = ((n * 30103 / 100000 : ℕ) : ℤ) := by push_cast; rfl
    rw [hk, zpow_sub_one₀ h10, zpow_natCast, zpow_natCast, ← Nat.cast_succ, zpow_natCast,
      ← Nat.cast_ofNat (R := ℤ) (n := 2), ← Nat.cast_add, zpow_natCast]
    refine ⟨?_, by exact_mod_cast hu⟩
    rw [mul_inv_le_iff₀ (by norm_num), mul_comm ((2 : ℚ) ^ n)]
    exact_mod_cast hl
  · obtain ⟨c, hc⟩ := Int.eq_ofNat_of_zero_le (neg_nonneg.mpr hb.le)
    obtain rfl : b = -(c : ℤ) := by omega
    obtain ⟨hl, hu⟩ := two_pow_near_ten_pow c (by omega)
    have hk : -(c : ℤ) * 30103 / 100000 = -(((c * 30103 + 99999) / 100000 : ℕ) : ℤ) := by
      push_cast
      omega
    rw [hk]
    set m := (c * 30103 + 99999) / 100000
    constructor
    · rw [show -(m : ℤ) - 1 = -((m + 1 : ℕ) : ℤ) by push_cast; ring, zpow_neg, zpow_neg,
        zpow_natCast, zpow_natCast]
      exact inv_anti₀ (by positivity) (by exact_mod_cast hl)
    · rw [zpow_add₀ h2, zpow_add₀ h10, zpow_neg, zpow_neg, zpow_natCast, zpow_natCast, zpow_one,
        inv_mul_le_iff₀ (by positivity)]
      have hu' : (10 : ℚ) ^ m ≤ 50 * 2 ^ c := by exact_mod_cast hu
      have hpos : (0 : ℚ) < 10 ^ m := by positivity
      rw [← mul_assoc, ← div_eq_mul_inv, div_mul_eq_mul_div, le_div_iff₀ hpos]
      norm_num
      linarith

theorem ten_pow_decade_le {x : ℚ} (hx : 0 < x) (hlo : -1075 ≤ binade x)
    (hhi : binade x ≤ 1023) : (10 : ℚ) ^ decade x ≤ x := by
  have h := (decade_estimate hlo hhi).1
  unfold decade
  dsimp only
  split_ifs with hlow hhigh
  · exact h.trans (two_pow_binade_le hx)
  · exact hhigh
  · exact not_lt.mp hlow

theorem lt_ten_pow_decade_succ {x : ℚ} (hx : 0 < x) (hlo : -1075 ≤ binade x)
    (hhi : binade x ≤ 1023) : x < (10 : ℚ) ^ (decade x + 1) := by
  have h := (decade_estimate hlo hhi).2
  unfold decade
  dsimp only
  split_ifs with hlow hhigh
  · rwa [sub_add_cancel]
  · rw [add_assoc]
    exact (lt_two_pow_binade_succ hx).trans_le h
  · exact not_le.mp hhigh

theorem lowerEnd_pos {n : ℕ} (hn : 0 < n) (q : ℤ) : 0 < lowerEnd n q := by
  have h : (1 : ℚ) ≤ n := by exact_mod_cast hn
  unfold lowerEnd
  split_ifs
  · have : (0 : ℚ) < 4 * n - 1 := by linarith
    positivity
  · have : (0 : ℚ) < 2 * n - 1 := by linarith
    positivity

theorem upperEnd_eq (n : ℕ) (q : ℤ) : upperEnd n q = n * 2 ^ q + 2 ^ (q - 1) := by
  unfold upperEnd
  rw [zpow_sub_one₀ (by norm_num : (2 : ℚ) ≠ 0)]
  ring

theorem readsBackAs_bounds {n : ℕ} {q : ℤ} {y : ℚ} (h : readsBackAs n q y = true) :
    lowerEnd n q ≤ y ∧ y ≤ upperEnd n q := by
  unfold readsBackAs at h
  split_ifs at h
  · exact of_decide_eq_true h
  · obtain ⟨hl, hu⟩ := of_decide_eq_true h
    exact ⟨hl.le, hu.le⟩

theorem readsBackAs_of_lt {n : ℕ} {q : ℤ} {y : ℚ} (hl : lowerEnd n q < y)
    (hu : y < upperEnd n q) : readsBackAs n q y = true := by
  unfold readsBackAs
  split_ifs
  · exact decide_eq_true ⟨hl.le, hu.le⟩
  · exact decide_eq_true ⟨hl, hu⟩

theorem readsBackAs_of_decimalOn {n d : ℕ} {q e : ℤ} (h : decimalOn n q e = some d) :
    readsBackAs n q (d * 10 ^ e) = true := by
  unfold decimalOn at h
  dsimp only at h
  split_ifs at h with h1 h2 h3 <;> cases h
  · exact h1
  · exact h2
  · exact_mod_cast h3

/-- The multiple of `10 ^ e` nearest to `n * 2 ^ q`. -/
def nearestOn (n : ℕ) (q e : ℤ) : ℕ :=
  (roundEven ((n : ℚ) * 2 ^ q / 10 ^ e)).toNat

theorem decimalOn_of_readsBackAs_nearestOn {n : ℕ} {q e : ℤ}
    (h : readsBackAs n q (nearestOn n q e * 10 ^ e) = true) :
    decimalOn n q e = some (nearestOn n q e) := by
  unfold nearestOn at h ⊢
  unfold decimalOn
  dsimp only
  rw [if_pos h]

theorem abs_nearestOn_sub_le (n : ℕ) (q e : ℤ) :
    |(nearestOn n q e : ℚ) * 10 ^ e - n * 2 ^ q| ≤ 10 ^ e / 2 := by
  have hunit : (0 : ℚ) < 10 ^ e := by positivity
  have hnonneg : 0 ≤ roundEven ((n : ℚ) * 2 ^ q / 10 ^ e) := roundEven_nonneg (by positivity)
  have hcast : (nearestOn n q e : ℚ) = roundEven ((n : ℚ) * 2 ^ q / 10 ^ e) := by
    unfold nearestOn
    exact_mod_cast Int.toNat_of_nonneg hnonneg
  have herr := mul_le_mul_of_nonneg_right
    (abs_roundEven_sub_le ((n : ℚ) * 2 ^ q / 10 ^ e)) hunit.le
  have hscale : |(roundEven ((n : ℚ) * 2 ^ q / 10 ^ e) : ℚ) - (n : ℚ) * 2 ^ q / 10 ^ e| * 10 ^ e =
      |(roundEven ((n : ℚ) * 2 ^ q / 10 ^ e) : ℚ) * 10 ^ e - n * 2 ^ q| := by
    rw [← abs_of_pos hunit, ← abs_mul, abs_of_pos hunit]
    congr 1
    field_simp
  rw [hcast, ← hscale]
  linarith

theorem dropZeros_value (fuel d : ℕ) (e : ℤ) :
    ∃ j : ℕ, (dropZeros fuel d e).2 = e + j ∧ d = (dropZeros fuel d e).1 * 10 ^ j := by
  induction fuel generalizing d e with
  | zero => exact ⟨0, by simp [dropZeros], by simp [dropZeros]⟩
  | succ fuel ih =>
    unfold dropZeros
    split_ifs with h
    · obtain ⟨j, he, hd⟩ := ih (d / 10) (e + 1)
      refine ⟨j + 1, by rw [he]; push_cast; ring, ?_⟩
      calc d = d / 10 * 10 := by omega
        _ = (dropZeros fuel (d / 10) (e + 1)).1 * 10 ^ j * 10 := by rw [← hd]
        _ = _ := by rw [pow_succ, mul_assoc]
    · exact ⟨0, by simp, by simp⟩

/-- Zeros are dropped from the digits, not from the value. -/
theorem dropZeros_keeps (fuel d : ℕ) (e : ℤ) :
    ((dropZeros fuel d e).1 : ℚ) * 10 ^ (dropZeros fuel d e).2 = d * 10 ^ e := by
  obtain ⟨j, he, hd⟩ := dropZeros_value fuel d e
  rw [he, zpow_add₀ (by norm_num : (10 : ℚ) ≠ 0), zpow_natCast]
  conv_rhs => rw [hd]
  push_cast
  ring

/-- The shortest decimal is taken from one of 17 decimal grids, on the finest of which it is the
nearest point if that reads back. -/
theorem shortest_eq (n : ℕ) (q : ℤ) : ∃ i : ℕ, i ≤ 16 ∧ ∃ d : ℕ,
    shortest n q = dropZeros 17 d (decade (n * 2 ^ q) - i) ∧
      (readsBackAs n q (d * 10 ^ (decade (n * 2 ^ q) - i)) = true ∨
        i = 16 ∧ d = nearestOn n q (decade (n * 2 ^ q) - 16)) ∧
      (i = 16 → readsBackAs n q
          (nearestOn n q (decade (n * 2 ^ q) - 16) * 10 ^ (decade (n * 2 ^ q) - 16)) = true →
        d = nearestOn n q (decade (n * 2 ^ q) - 16)) := by
  set k := decade (n * 2 ^ q) with hk
  cases hfound : (List.range 17).findSome? (fun (i : ℕ) => do
      let d ← decimalOn n q (k - i)
      return (d, k - i)) with
  | none =>
    refine ⟨16, le_rfl, nearestOn n q (k - 16), ?_, Or.inr ⟨rfl, rfl⟩, fun _ _ => rfl⟩
    unfold shortest
    dsimp only
    rw [← hk, hfound]
    rfl
  | some found =>
    obtain ⟨i, hi, hsome⟩ := List.exists_of_findSome?_eq_some hfound
    obtain ⟨d, hd, hpair⟩ := Option.bind_eq_some_iff.mp hsome
    obtain rfl : (d, k - (i : ℤ)) = found := Option.some.inj hpair
    refine ⟨i, by simpa [Nat.lt_succ_iff] using hi, d, ?_, Or.inl (readsBackAs_of_decimalOn hd), ?_⟩
    · unfold shortest
      dsimp only
      rw [← hk, hfound]
      rfl
    · rintro rfl hnear
      exact Option.some.inj (hd.symm.trans (decimalOn_of_readsBackAs_nearestOn hnear))

section Bounds

variable {n : ℕ} {q : ℤ} (hn : 0 < n) (hn' : n < 2 ^ 53) (hq : -1074 ≤ q) (hq' : q ≤ 971)

include hn hq in
theorem binade_ge : -1075 ≤ binade (n * 2 ^ q : ℚ) := by
  have hx : (2 : ℚ) ^ q ≤ n * 2 ^ q := by
    have : (1 : ℚ) ≤ n := by exact_mod_cast hn
    nlinarith [show (0 : ℚ) < 2 ^ q by positivity]
  have := binade_mono (by positivity) hx
  rw [binade_two_pow] at this
  omega

include hn hn' hq' in
theorem binade_le : binade (n * 2 ^ q : ℚ) ≤ 1023 := by
  have hpos : (0 : ℚ) < n * 2 ^ q := by positivity
  have hx : (n : ℚ) * 2 ^ q < 2 ^ (1024 : ℤ) := by
    calc (n : ℚ) * 2 ^ q < 2 ^ (53 : ℤ) * 2 ^ q := by
          have : (n : ℚ) < 2 ^ (53 : ℤ) := by exact_mod_cast hn'
          exact mul_lt_mul_of_pos_right this (by positivity)
      _ = 2 ^ (53 + q) := (zpow_add₀ (by norm_num) _ _).symm
      _ ≤ 2 ^ (1024 : ℤ) := zpow_le_zpow_right₀ (by norm_num) (by omega)
  have := (zpow_lt_zpow_iff_right₀ (by norm_num : (1 : ℚ) < 2)).mp
    ((two_pow_binade_le hpos).trans_lt hx)
  omega

include hn hn' hq hq' in
/-- The value and the digits of the shortest decimal, bounded. -/
theorem shortest_bounds : 0 < (shortest n q).1 ∧ (shortest n q).1 < 10 ^ 18 ∧
    ((shortest n q).1 : ℚ) * 10 ^ (shortest n q).2 ≤ 2 * (n * 2 ^ q) := by
  set x : ℚ := n * 2 ^ q with hx
  have hxpos : 0 < x := by positivity
  have hklo := ten_pow_decade_le hxpos (binade_ge hn hq) (binade_le hn hn' hq')
  have hkhi := lt_ten_pow_decade_succ hxpos (binade_ge hn hq) (binade_le hn hn' hq')
  obtain ⟨i, hi, d, hshort, hnear, -⟩ := shortest_eq n q
  rw [← hx] at hshort hnear
  set e := decade x - (i : ℤ) with he
  have hunit : (0 : ℚ) < 10 ^ e := by positivity
  have hvalue : 0 < (d : ℚ) * 10 ^ e ∧ (d : ℚ) * 10 ^ e ≤ 2 * x := by
    rcases hnear with hreads | ⟨rfl, rfl⟩
    · obtain ⟨hl, hu⟩ := readsBackAs_bounds hreads
      refine ⟨(lowerEnd_pos hn q).trans_le hl, hu.trans ?_⟩
      have hone : (1 : ℚ) ≤ n := by exact_mod_cast hn
      have hgap : (2 : ℚ) ^ q ≤ x := by nlinarith [show (0 : ℚ) < 2 ^ q by positivity]
      rw [upperEnd_eq, zpow_sub_one₀ (by norm_num : (2 : ℚ) ≠ 0), ← hx]
      linarith
    · have hgrid : (10 : ℚ) ^ e ≤ x :=
        (zpow_le_zpow_right₀ (by norm_num) (by omega)).trans hklo
      obtain ⟨hl, hu⟩ := abs_le.mp (abs_nearestOn_sub_le n q (decade x - 16))
      rw [← hx] at hl hu
      simp only [he, Nat.cast_ofNat] at hgrid hunit ⊢
      constructor <;> linarith
  have hdpos : 0 < d := by
    rcases Nat.eq_zero_or_pos d with rfl | h
    · simp at hvalue
    · exact h
  have hdlt : (d : ℚ) < 2 * 10 ^ 17 := by
    have hsplit : (10 : ℚ) ^ (decade x + 1) = 10 ^ (i + 1) * 10 ^ e := by
      rw [← zpow_natCast, ← zpow_add₀ (by norm_num : (10 : ℚ) ≠ 0), he]
      congr 1
      push_cast
      ring
    have hle : (10 : ℚ) ^ (i + 1) ≤ 10 ^ 17 := pow_le_pow_right₀ (by norm_num) (by omega)
    have : (d : ℚ) * 10 ^ e < 2 * 10 ^ (i + 1) * 10 ^ e := by
      rw [mul_assoc, ← hsplit]
      linarith
    linarith [lt_of_mul_lt_mul_right this hunit.le]
  obtain ⟨j, hj, hd⟩ := dropZeros_value 17 d e
  rw [hshort]
  refine ⟨?_, ?_, (dropZeros_keeps 17 d e).trans_le hvalue.2⟩
  · rcases Nat.eq_zero_or_pos (dropZeros 17 d e).1 with h | h
    · rw [h, zero_mul] at hd
      omega
    · exact h
  · have hle : (dropZeros 17 d e).1 ≤ d := by
      conv_rhs => rw [hd]
      exact Nat.le_mul_of_pos_right _ (by positivity)
    have : d < 2 * 10 ^ 17 := by exact_mod_cast hdlt
    omega

include hn hn' hq hq' in
/-- With 17 digits the nearest decimal reads back: half a unit of the seventeenth is less than the
gap to the halfway point on either side. -/
theorem readsBackAs_nearestOn : readsBackAs n q
    (nearestOn n q (decade (n * 2 ^ q) - 16) * 10 ^ (decade (n * 2 ^ q) - 16)) = true := by
  have hxpos : (0 : ℚ) < n * 2 ^ q := by positivity
  have hdecade := ten_pow_decade_le hxpos (binade_ge hn hq) (binade_le hn hn' hq')
  have hsplit (k : ℤ) : (10 : ℚ) ^ k = 10 ^ (k - 16) * 10 ^ 16 := by
    rw [← zpow_natCast, ← zpow_add₀ (by norm_num : (10 : ℚ) ≠ 0)]
    norm_num
  rw [hsplit] at hdecade
  obtain ⟨hl, hu⟩ := abs_le.mp (abs_nearestOn_sub_le n q (decade (n * 2 ^ q) - 16))
  set t : ℚ := 10 ^ (decade ((n : ℚ) * 2 ^ q) - 16)
  have hunit : (0 : ℚ) < 2 ^ q := by positivity
  have hhalf : (2 : ℚ) ^ q = 2 * 2 ^ (q - 1) := by
    rw [zpow_sub_one₀ (by norm_num : (2 : ℚ) ≠ 0)]
    ring
  have hquarter : (2 : ℚ) ^ q = 4 * 2 ^ (q - 2) := by
    rw [zpow_sub₀ (by norm_num : (2 : ℚ) ≠ 0)]
    ring
  have hlt : (n : ℚ) * 2 ^ q < 2 ^ 53 * 2 ^ q :=
    mul_lt_mul_of_pos_right (by exact_mod_cast hn') hunit
  refine readsBackAs_of_lt ?_ (by rw [upperEnd_eq]; linarith)
  unfold lowerEnd
  split_ifs with hpower
  · obtain ⟨rfl, -⟩ := hpower
    push_cast at hl hdecade ⊢
    norm_num at hl hdecade ⊢
    linarith
  · have hvalue : (n : ℚ) * 2 ^ q = 2 * (n * 2 ^ (q - 1)) := by
      rw [hhalf]
      ring
    linarith

include hn hn' hq hq' in
/-- The shortest decimal of a double reads back as it. -/
theorem readsBackAs_shortest :
    readsBackAs n q ((shortest n q).1 * 10 ^ (shortest n q).2) = true := by
  obtain ⟨i, -, d, hshort, hreads, -⟩ := shortest_eq n q
  rw [hshort, dropZeros_keeps]
  rcases hreads with hreads | ⟨rfl, rfl⟩
  · exact hreads
  · exact readsBackAs_nearestOn hn hn' hq hq'

private theorem product_at_292 :
    round (round (17976931348623157 : ℕ) * round ((10 : ℚ) ^ 292)) < 2 ^ (1024 : ℤ) := by
  decide +kernel

private theorem product_from_293 : ∀ j < 16,
    round (round (⌊((2 : ℚ) ^ 1024 - 2 ^ 970) / 10 ^ (293 + j)⌋ : ℤ) *
      round ((10 : ℚ) ^ (293 + j))) < 2 ^ (1024 : ℤ) := by
  decide +kernel

/-- Half a unit in the last place of the largest double, against the finest grid of its decade.
Near the largest double every other bound is linear in these two powers. -/
private theorem half_unit_near_grid : (2 : ℚ) ^ 970 ≤ 10 ^ 292 ∧
    17976931348623157 * 10 ^ 292 ≤ (2 ^ 54 - 1) * (2 : ℚ) ^ 970 := by
  decide +kernel

private theorem two_pow_971 : (2 : ℚ) ^ (971 : ℤ) = 2 * 2 ^ 970 := by
  rw [zpow_ofNat]
  exact pow_succ' 2 970

private theorem two_pow_1024 : (2 : ℚ) ^ 1024 = 2 ^ 54 * 2 ^ 970 :=
  pow_add 2 54 970

private theorem ten_pow_308 : (10 : ℚ) ^ 308 = 10 ^ 16 * 10 ^ 292 :=
  pow_add 10 16 292

private theorem ten_pow_309 : (10 : ℚ) ^ 309 = 10 ^ 17 * 10 ^ 292 :=
  pow_add 10 17 292

/-- Room between the largest decimals below `10 ^ 308` and the largest double. -/
private theorem room_below_decade_308 :
    (10 ^ 308 + 10 ^ 292 : ℚ) * (1 + 2 ^ (-53 : ℤ)) ^ 2 ≤
      ((2 ^ 53 - 1 : ℤ) : ℚ) * 2 ^ (971 : ℤ) := by
  obtain ⟨-, hge⟩ := half_unit_near_grid
  have hpos : (0 : ℚ) < 10 ^ 292 := by positivity
  rw [ten_pow_308, two_pow_971]
  generalize (2 : ℚ) ^ 970 = x at *
  generalize (10 : ℚ) ^ 292 = y at *
  push_cast
  norm_num at hge ⊢
  linarith

private theorem largest_lt : ((2 ^ 53 - 1 : ℤ) : ℚ) * 2 ^ (971 : ℤ) < 2 ^ (1024 : ℤ) := by
  have hpos : (0 : ℚ) < 2 ^ 970 := by positivity
  rw [two_pow_971, zpow_ofNat, two_pow_1024]
  generalize (2 : ℚ) ^ 970 = x at *
  push_cast
  linarith

/-- A decimal no larger than `1e308 + 1e292` stays finite when it is read in two rounded steps. -/
private theorem product_lt_of_small {d e : ℕ} (hd : 0 < d)
    (hle : (d : ℚ) * 10 ^ e ≤ 10 ^ 308 + 10 ^ 292) :
    round (round d * round ((10 : ℚ) ^ e)) < 2 ^ (1024 : ℤ) := by
  have hd1 : (1 : ℚ) ≤ d := by exact_mod_cast hd
  have he1 : (1 : ℚ) ≤ 10 ^ e := one_le_pow₀ (by norm_num)
  have hsub : (2 : ℚ) ^ (-1022 : ℤ) ≤ 1 := zpow_le_one_of_nonpos₀ (by norm_num) (by norm_num)
  have hprod : round d * round ((10 : ℚ) ^ e) ≤ ((2 ^ 53 - 1 : ℤ) : ℚ) * 2 ^ (971 : ℤ) := by
    calc round d * round ((10 : ℚ) ^ e)
        ≤ (d * (1 + 2 ^ (-53 : ℤ))) * (10 ^ e * (1 + 2 ^ (-53 : ℤ))) :=
          mul_le_mul (round_le_mul (hsub.trans hd1)) (round_le_mul (hsub.trans he1))
            (round_nonneg (by positivity)) (by positivity)
      _ = (d * 10 ^ e) * (1 + 2 ^ (-53 : ℤ)) ^ 2 := by ring
      _ ≤ (10 ^ 308 + 10 ^ 292) * (1 + 2 ^ (-53 : ℤ)) ^ 2 :=
          mul_le_mul_of_nonneg_right hle (by positivity)
      _ ≤ ((2 ^ 53 - 1 : ℤ) : ℚ) * 2 ^ (971 : ℤ) := room_below_decade_308
  have hmax : round (((2 ^ 53 - 1 : ℤ) : ℚ) * 2 ^ (971 : ℤ)) =
      ((2 ^ 53 - 1 : ℤ) : ℚ) * 2 ^ (971 : ℤ) := by
    have hpos : (0 : ℚ) < ((2 ^ 53 - 1 : ℤ) : ℚ) * 2 ^ (971 : ℤ) :=
      mul_pos (by norm_num) (by positivity)
    refine round_of_multiple hpos ?_
    have := (zpow_lt_zpow_iff_right₀ (by norm_num : (1 : ℚ) < 2)).mp
      ((two_pow_binade_le hpos).trans_lt largest_lt)
    unfold gridExponent
    omega
  exact (round_mono hprod).trans_lt (hmax.trans_lt largest_lt)

private theorem two_pow_1024_lt : (2 : ℚ) ^ 1024 < 10 ^ 309 := by
  obtain ⟨hle, -⟩ := half_unit_near_grid
  have hpos : (0 : ℚ) < 10 ^ 292 := by positivity
  rw [two_pow_1024, ten_pow_309]
  generalize (2 : ℚ) ^ 970 = x at *
  generalize (10 : ℚ) ^ 292 = y at *
  linarith

private theorem two_pow_1023_lt : (2 : ℚ) ^ (1023 : ℤ) < 10 ^ 308 := by
  obtain ⟨hle, -⟩ := half_unit_near_grid
  have hpos : (0 : ℚ) < 10 ^ 292 := by positivity
  have hsplit : (2 : ℚ) ^ 1023 = 2 ^ 53 * 2 ^ 970 := pow_add 2 53 970
  rw [zpow_ofNat, hsplit, ten_pow_308]
  clear hsplit
  generalize (2 : ℚ) ^ 970 = x at *
  generalize (10 : ℚ) ^ 292 = y at *
  linarith

private theorem decimal_at_292_le : (17976931348623157 : ℚ) * 10 ^ (292 : ℤ) ≤
    2 ^ 1024 - 2 ^ 970 := by
  obtain ⟨-, hge⟩ := half_unit_near_grid
  rw [zpow_ofNat, two_pow_1024]
  generalize (2 : ℚ) ^ 970 = x at *
  generalize (10 : ℚ) ^ 292 = y at *
  linarith

private theorem largest_add_half : ((2 : ℚ) ^ 53 - 1) * 2 ^ (971 : ℤ) + 2 ^ (970 : ℤ) =
    2 ^ 1024 - 2 ^ 970 := by
  rw [two_pow_971, zpow_ofNat, two_pow_1024]
  generalize (2 : ℚ) ^ 970 = x
  ring

private theorem overflow_lt_ten_pow_309 : (2 : ℚ) ^ 1024 - 2 ^ 970 < 10 ^ 309 :=
  (sub_le_self _ (by positivity)).trans_lt two_pow_1024_lt

private theorem nearest_to_largest :
    roundEven (((2 : ℚ) ^ 53 - 1) * 2 ^ (971 : ℤ) / 10 ^ (292 : ℤ)) = 17976931348623157 := by
  decide +kernel

/-- The digits are few where the exponent is large. -/
private theorem product_lt_of_large {d e : ℕ} (hd : 0 < d) (he : 292 < e)
    (hle : (d : ℚ) * 10 ^ e ≤ 2 ^ 1024 - 2 ^ 970) :
    round (round d * round ((10 : ℚ) ^ e)) < 2 ^ (1024 : ℤ) := by
  obtain ⟨m, rfl⟩ := Nat.exists_eq_add_of_le (Nat.succ_le_of_lt he)
  have hm : m < 16 := by
    by_contra hm
    have hbig : (10 : ℚ) ^ 309 ≤ 10 ^ (Nat.succ 292 + m) :=
      pow_le_pow_right₀ (by norm_num) (by omega)
    have hone : (1 : ℚ) ≤ d := by exact_mod_cast hd
    have hmul : (10 : ℚ) ^ (Nat.succ 292 + m) ≤ d * 10 ^ (Nat.succ 292 + m) :=
      le_mul_of_one_le_left (by positivity) hone
    exact absurd ((hbig.trans hmul).trans hle) (not_le.mpr overflow_lt_ten_pow_309)
  have hfloor : (d : ℤ) ≤ ⌊((2 : ℚ) ^ 1024 - 2 ^ 970) / 10 ^ (293 + m)⌋ := by
    rw [Int.le_floor, le_div_iff₀ (by positivity)]
    exact_mod_cast hle
  refine lt_of_le_of_lt (round_mono ?_) (product_from_293 m hm)
  exact mul_le_mul_of_nonneg_right (round_mono (by exact_mod_cast hfloor))
    (round_nonneg (by positivity))

section Overflow

/-! Above `10 ^ 308` the decade and the exponent are known, and few grids remain. -/

variable (hlarge : (10 : ℚ) ^ 308 ≤ n * 2 ^ q)

include hn hn' hq hq' hlarge

private theorem decade_of_large : decade ((n : ℚ) * 2 ^ q) = 308 := by
  have hpos : (0 : ℚ) < n * 2 ^ q := by positivity
  have hle := binade_le hn hn' hq'
  have hup : (n : ℚ) * 2 ^ q < 10 ^ (309 : ℤ) := by
    calc (n : ℚ) * 2 ^ q < 2 ^ (binade ((n : ℚ) * 2 ^ q) + 1) := lt_two_pow_binade_succ hpos
      _ ≤ 2 ^ (1024 : ℤ) := zpow_le_zpow_right₀ (by norm_num) (by omega)
      _ < 10 ^ (309 : ℤ) := by exact_mod_cast two_pow_1024_lt
  have hklo := ten_pow_decade_le hpos (binade_ge hn hq) hle
  have hkhi := lt_ten_pow_decade_succ hpos (binade_ge hn hq) hle
  have h1 := (zpow_lt_zpow_iff_right₀ (by norm_num : (1 : ℚ) < 10)).mp (hklo.trans_lt hup)
  have hlow : (10 : ℚ) ^ (308 : ℤ) ≤ n * 2 ^ q := hlarge
  have h2 := (zpow_lt_zpow_iff_right₀ (by norm_num : (1 : ℚ) < 10)).mp (hlow.trans_lt hkhi)
  omega

omit hn hq in
private theorem exponent_of_large : q = 971 := by
  have hlow : (2 : ℚ) ^ (1023 : ℤ) < 2 ^ (53 : ℤ) * 2 ^ q := by
    have hn53 : (n : ℚ) < 2 ^ (53 : ℤ) := by exact_mod_cast hn'
    calc (2 : ℚ) ^ (1023 : ℤ) < 10 ^ 308 := two_pow_1023_lt
      _ ≤ n * 2 ^ q := hlarge
      _ < 2 ^ (53 : ℤ) * 2 ^ q := mul_lt_mul_of_pos_right hn53 (by positivity)
  rw [← zpow_add₀ (by norm_num : (2 : ℚ) ≠ 0)] at hlow
  have := (zpow_lt_zpow_iff_right₀ (by norm_num : (1 : ℚ) < 2)).mp hlow
  omega

omit hn hq in
private theorem nearestOn_of_large : nearestOn n q 292 ≤ 17976931348623157 := by
  have hn1 : n + 1 ≤ 2 ^ 53 := hn'
  have hnreal : (n : ℚ) ≤ 2 ^ 53 - 1 := by
    have : (n : ℚ) + 1 ≤ 2 ^ 53 := by exact_mod_cast hn1
    linarith
  have hquot : (n : ℚ) * 2 ^ q / 10 ^ (292 : ℤ) ≤
      (2 ^ 53 - 1) * 2 ^ (971 : ℤ) / 10 ^ (292 : ℤ) := by
    rw [exponent_of_large hn' hq' hlarge]
    gcongr
  have hround := roundEven_mono hquot
  rw [nearest_to_largest] at hround
  unfold nearestOn
  omega

omit hn hq in
private theorem upperEnd_of_large : upperEnd n q ≤ 2 ^ 1024 - 2 ^ 970 := by
  have hn1 : n + 1 ≤ 2 ^ 53 := hn'
  have hnreal : (n : ℚ) ≤ 2 ^ 53 - 1 := by
    have : (n : ℚ) + 1 ≤ 2 ^ 53 := by exact_mod_cast hn1
    linarith
  have hq971 := exponent_of_large hn' hq' hlarge
  calc upperEnd n q = n * 2 ^ (971 : ℤ) + 2 ^ (970 : ℤ) := by
        rw [upperEnd_eq, hq971]
        rfl
    _ ≤ (2 ^ 53 - 1) * 2 ^ (971 : ℤ) + 2 ^ (970 : ℤ) := by gcongr
    _ = 2 ^ 1024 - 2 ^ 970 := largest_add_half

end Overflow

include hn hn' hq hq' in
/-- The decimal nearest to a double below `10 ^ 308` exceeds it by no more than a unit of its
grid. -/
private theorem nearestOn_le_of_small (hsmall : (n : ℚ) * 2 ^ q < 10 ^ 308) :
    (nearestOn n q (decade ((n : ℚ) * 2 ^ q) - 16) : ℚ) *
      10 ^ (decade ((n : ℚ) * 2 ^ q) - 16) ≤ 10 ^ 308 + 10 ^ 292 := by
  have hxpos : (0 : ℚ) < n * 2 ^ q := by positivity
  have hklo := ten_pow_decade_le hxpos (binade_ge hn hq) (binade_le hn hn' hq')
  have hlt : (10 : ℚ) ^ decade ((n : ℚ) * 2 ^ q) < 10 ^ (308 : ℤ) := hklo.trans_lt hsmall
  have hk := (zpow_lt_zpow_iff_right₀ (by norm_num : (1 : ℚ) < 10)).mp hlt
  have hgrid : (10 : ℚ) ^ (decade ((n : ℚ) * 2 ^ q) - 16) ≤ 10 ^ (292 : ℤ) :=
    zpow_le_zpow_right₀ (by norm_num) (by omega)
  have hnonneg : (0 : ℚ) ≤ 10 ^ (decade ((n : ℚ) * 2 ^ q) - 16) := by positivity
  obtain ⟨-, hu⟩ := abs_le.mp (abs_nearestOn_sub_le n q (decade ((n : ℚ) * 2 ^ q) - 16))
  refine (sub_le_iff_le_add'.mp hu).trans ?_
  exact add_le_add hsmall.le ((half_le_self hnonneg).trans hgrid)

include hn hn' hq hq' in
/-- Reading the shortest decimal back in two rounded steps does not overflow. -/
theorem shortest_product_lt {e : ℕ} (he : (shortest n q).2 = e) :
    round (round ((shortest n q).1 : ℚ) * round ((10 : ℚ) ^ e)) < 2 ^ (1024 : ℤ) := by
  obtain ⟨hpos, -, -⟩ := shortest_bounds hn hn' hq hq'
  obtain ⟨i, hi, d, hshort, hnear, hfinest⟩ := shortest_eq n q
  obtain ⟨j, hj, hd⟩ := dropZeros_value 17 d (decade ((n : ℚ) * 2 ^ q) - i)
  have hkeep := dropZeros_keeps 17 d (decade ((n : ℚ) * 2 ^ q) - i)
  rw [← hshort] at hj hd hkeep
  rw [he, zpow_natCast] at hkeep
  generalize shortest n q = r at *
  rcases lt_or_ge ((n : ℚ) * 2 ^ q) (10 ^ 308) with hsmall | hlarge
  · -- Below `10 ^ 308` the two rounding errors leave room.
    refine product_lt_of_small hpos (hkeep.trans_le ?_)
    rcases hnear with hreads | ⟨rfl, rfl⟩
    · have hgap : (2 : ℚ) ^ (q - 1) ≤ 2 ^ (970 : ℤ) := zpow_le_zpow_right₀ (by norm_num) (by omega)
      refine (readsBackAs_bounds hreads).2.trans ?_
      rw [upperEnd_eq]
      exact add_le_add hsmall.le (hgap.trans half_unit_near_grid.1)
    · exact nearestOn_le_of_small hn hn' hq hq' hsmall
  · have hk := decade_of_large hn hn' hq hq' hlarge
    have hnearest := nearestOn_of_large hn' hq' hlarge
    have hvalue : (d : ℚ) * 10 ^ (decade ((n : ℚ) * 2 ^ q) - (i : ℤ)) ≤ 2 ^ 1024 - 2 ^ 970 := by
      rcases hnear with hreads | ⟨rfl, rfl⟩
      · exact (readsBackAs_bounds hreads).2.trans (upperEnd_of_large hn' hq' hlarge)
      · rw [hk]
        have hcast : (nearestOn n q 292 : ℚ) ≤ 17976931348623157 := by exact_mod_cast hnearest
        exact (mul_le_mul_of_nonneg_right hcast (by positivity)).trans decimal_at_292_le
    have he292 : 292 ≤ e := by omega
    rcases he292.eq_or_lt with heq | hgt
    · have hi16 : i = 16 := by omega
      have hj0 : j = 0 := by omega
      rw [hk] at hfinest
      have hnearest' := readsBackAs_nearestOn hn hn' hq hq'
      rw [hk] at hnearest'
      have hdnear := hfinest hi16 hnearest'
      have hr1 : r.1 = nearestOn n q 292 := by
        rw [hj0, pow_zero, mul_one] at hd
        rw [← hd]
        exact hdnear
      rw [hr1, ← heq]
      refine lt_of_le_of_lt (round_mono ?_) product_at_292
      exact mul_le_mul_of_nonneg_right (round_mono (by exact_mod_cast hnearest))
        (round_nonneg (by positivity))
    · exact product_lt_of_large hpos hgt (hkeep.trans_le hvalue)

end Bounds

end NodeGraph.Binary64
