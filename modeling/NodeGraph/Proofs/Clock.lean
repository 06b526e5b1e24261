import NodeGraph.Clock
import NodeGraph.Proofs.Binary64.Rounding

/-!
The stamps of events follow the clock, and points in time are exact where 64 bits hold them.
-/
namespace NodeGraph.Clock

theorem now_mono {a b : ℤ} (h : a ≤ b) : now a ≤ now b :=
  max_le_max_right 0 h

/-- Cutting toward zero keeps the order: on either side of zero it is a floor or a ceiling. -/
private theorem tdiv_mono {x y : ℚ} (h : x ≤ y) :
    Int.tdiv x.num x.den ≤ Int.tdiv y.num y.den := by
  have hx : (0 : ℤ) < x.den := by exact_mod_cast x.den_pos
  have hy : (0 : ℤ) < y.den := by exact_mod_cast y.den_pos
  rcases lt_or_ge x 0 with hxneg | hxpos
  · rcases lt_or_ge y 0 with hyneg | hypos
    · have hfloor : (-y).num / ((-y).den : ℤ) ≤ (-x).num / ((-x).den : ℤ) := by
        rw [← Rat.floor_def', ← Rat.floor_def']
        exact Int.floor_le_floor (neg_le_neg h)
      rw [Rat.num_neg_eq_neg_num, Rat.num_neg_eq_neg_num, Rat.neg_den, Rat.neg_den] at hfloor
      have hxn : 0 ≤ -x.num := by
        have := Rat.num_neg.mpr hxneg
        omega
      have hyn : 0 ≤ -y.num := by
        have := Rat.num_neg.mpr hyneg
        omega
      have ex : Int.tdiv x.num x.den = -(-x.num / x.den) := by
        rw [← Int.tdiv_eq_ediv_of_nonneg hxn, Int.neg_tdiv, neg_neg]
      have ey : Int.tdiv y.num y.den = -(-y.num / y.den) := by
        rw [← Int.tdiv_eq_ediv_of_nonneg hyn, Int.neg_tdiv, neg_neg]
      rw [ex, ey]
      omega
    · have hxn := Rat.num_neg.mpr hxneg
      have hyn := Rat.num_nonneg.mpr hypos
      have h1 : Int.tdiv x.num x.den ≤ 0 := by
        have := Int.tdiv_nonneg (neg_nonneg.mpr hxn.le) hx.le
        rw [Int.neg_tdiv] at this
        omega
      exact h1.trans (Int.tdiv_nonneg hyn hy.le)
  · have hyn := Rat.num_nonneg.mpr (hxpos.trans h)
    have hxn := Rat.num_nonneg.mpr hxpos
    rw [Int.tdiv_eq_ediv_of_nonneg hxn, Int.tdiv_eq_ediv_of_nonneg hyn, ← Rat.floor_def',
      ← Rat.floor_def']
    exact Int.floor_le_floor h

/-- A clock that does not go back stamps events in order. -/
theorem eventTime_mono {a b : ℤ} (h : a ≤ b) : eventTime a ≤ eventTime b := by
  have hdays : (a + 210866760000000 : ℤ) / (86400000 : ℚ) ≤
      (b + 210866760000000 : ℤ) / (86400000 : ℚ) := by
    gcongr
  have hsince := Binary64.round_mono (sub_le_sub_right (Binary64.round_mono hdays) (4881175 / 2))
  have hmillis := Binary64.round_mono
    (mul_le_mul_of_nonneg_right hsince (by norm_num : (0 : ℚ) ≤ 86400000))
  exact tdiv_mono hmillis

/-! ### Points in time -/

/-- The integers that 64 bits hold. -/
def IsInt64 (n : ℤ) : Prop :=
  -2 ^ 63 ≤ n ∧ n < 2 ^ 63

theorem wrap64_eq_self {n : ℤ} : wrap64 n = n ↔ IsInt64 n := by
  have hsize : wrap64 n = Int.bmod n 18446744073709551616 := rfl
  rw [hsize, Int.bmod_def, IsInt64]
  constructor
  · intro h
    split at h <;> omega
  · intro h
    split <;> omega

/-- The duration may be wrapped or not, since the sum is. -/
theorem after_eq_wrap64 (start duration : ℤ) : after start duration = wrap64 (start + duration) :=
  Int.add_bmod_bmod

theorem before_eq_wrap64 (start duration : ℤ) : before start duration = wrap64 (start - duration) :=
  Int.sub_bmod_bmod

theorem after_eq_add {start duration : ℤ} :
    after start duration = start + duration ↔ IsInt64 (start + duration) := by
  rw [after_eq_wrap64, wrap64_eq_self]

theorem before_eq_sub {start duration : ℤ} :
    before start duration = start - duration ↔ IsInt64 (start - duration) := by
  rw [before_eq_wrap64, wrap64_eq_self]

/-- One duration before another one may be taken as their sum. -/
theorem before_before (start first second : ℤ) :
    before (before start first) second = before start (first + second) := by
  have hinner : before start first = (start - first).bmod UInt64.size :=
    before_eq_wrap64 start first
  have hsum : start - first - second = start - (first + second) := by omega
  rw [before_eq_wrap64, hinner, before_eq_wrap64, ← hsum]
  exact Int.bmod_sub_bmod

end NodeGraph.Clock
