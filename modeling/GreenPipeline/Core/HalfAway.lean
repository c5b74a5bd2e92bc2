import Mathlib.Algebra.Order.Floor.Ring
import Mathlib.Tactic.FieldSimp
import Mathlib.Tactic.Linarith
import Mathlib.Tactic.Ring

/-!
# Rounding half away from zero

Rounding and truncating treat a number and its negative alike, so each is given by what it does to
absolute values.

Results: `symmetric_neg` (a sign can be put aside), `floor_of_floor` and `floor_half_of_floor`
(what is cut off before does not change the result), `sub_mul_truncate` (the remainder of a
truncated division).
-/
namespace GreenPipeline.Core

open Int

variable {K : Type*} [Field K] [LinearOrder K]

/-- What `f` does to absolute values, for all numbers. -/
def symmetric (f : K → ℤ) (x : K) : ℤ := if 0 ≤ x then f x else -f (-x)

theorem symmetric_of_nonneg (f : K → ℤ) {x : K} (h : 0 ≤ x) : symmetric f x = f x := if_pos h

theorem symmetric_neg [IsStrictOrderedRing K] {f : K → ℤ} (hf : f 0 = 0) {x : K} (h : 0 ≤ x) :
    symmetric f (-x) = -f x := by
  rcases h.eq_or_lt with heq | hlt
  · rw [← heq, neg_zero, symmetric_of_nonneg f (le_refl 0), hf, neg_zero]
  · rw [symmetric, if_neg (by linarith), neg_neg]

variable [FloorRing K]

/-- The nearest integer, the one further from zero of two that are equally near. -/
def roundAway (x : K) : ℤ := symmetric (fun y => ⌊y + 1 / 2⌋) x

/-- The integer part. -/
def truncate (x : K) : ℤ := symmetric (fun y => ⌊y⌋) x

variable [IsStrictOrderedRing K]

theorem floor_half_zero : ⌊(0 : K) + 1 / 2⌋ = 0 := by
  rw [floor_eq_zero_iff]
  constructor
  · norm_num
  · norm_num

theorem roundAway_intCast (z : ℤ) : roundAway (z : K) = z := by
  have hfloor : ∀ n : ℤ, ⌊(n : K) + 1 / 2⌋ = n := fun n => by
    rw [floor_intCast_add, floor_eq_zero_iff.mpr ⟨by norm_num, by norm_num⟩, add_zero]
  unfold roundAway symmetric
  split
  · exact hfloor z
  · dsimp only
    rw [← cast_neg, hfloor, neg_neg]

/-- Cutting off what is below one part in `m` does not change the integer part. -/
theorem floor_of_floor {m : ℕ} (hm : 0 < m) (x : K) : ⌊(⌊x * m⌋ : K) / m⌋ = ⌊x⌋ := by
  have hm' : (m : K) ≠ 0 := Nat.cast_ne_zero.mpr hm.ne'
  rw [floor_div_natCast, floor_intCast, ← floor_div_natCast, mul_div_cancel_right₀ _ hm']

/-- Cutting off what is below one part in `2 * m` does not change the rounding. -/
theorem floor_half_of_floor {m : ℕ} (hm : 0 < m) (x : K) :
    ⌊(⌊x * (2 * m : ℕ)⌋ : K) / (2 * m : ℕ) + 1 / 2⌋ = ⌊x + 1 / 2⌋ := by
  -- a half is `m` parts
  have hshift : ∀ y : K, y / (2 * m : ℕ) + 1 / 2 = (y + (m : ℤ)) / (2 * m : ℕ) := by
    intro y
    push_cast
    field_simp
  have hx : x = x * (2 * m : ℕ) / (2 * m : ℕ) := by
    field_simp
  conv_rhs => rw [hx, hshift, floor_div_natCast, floor_add_intCast]
  rw [hshift, floor_div_natCast, floor_add_intCast, floor_intCast]

/-- What truncating takes away: less than one, with the sign of the number. -/
theorem sub_truncate (x : K) :
    |x - truncate x| < 1 ∧ (0 ≤ x → 0 ≤ x - truncate x) ∧ (x ≤ 0 → x - truncate x ≤ 0) := by
  rcases le_or_gt 0 x with hx | hx
  · have hlow := floor_le x
    have hhigh := lt_floor_add_one x
    rw [truncate, symmetric_of_nonneg _ hx]
    refine ⟨abs_lt.mpr ⟨by linarith, by linarith⟩, fun _ => by linarith, fun hneg => ?_⟩
    rw [le_antisymm hneg hx, floor_zero, cast_zero, sub_zero]
  · have hlow := floor_le (-x)
    have hhigh := lt_floor_add_one (-x)
    rw [truncate, symmetric, if_neg (not_le.mpr hx), cast_neg]
    exact ⟨abs_lt.mpr ⟨by linarith, by linarith⟩, fun hpos => absurd hpos (not_le.mpr hx),
      fun _ => by linarith⟩

/-- The remainder of a truncated division is smaller than the divisor and has the sign of the
dividend. -/
theorem sub_mul_truncate (x : K) {y : K} (hy : y ≠ 0) :
    |x - y * truncate (x / y)| < |y| ∧ (0 ≤ x → 0 ≤ x - y * truncate (x / y)) ∧
    (x ≤ 0 → x - y * truncate (x / y) ≤ 0) := by
  obtain ⟨habs, hpos, hneg⟩ := sub_truncate (x / y)
  have hfactor : x - y * truncate (x / y) = y * (x / y - truncate (x / y)) := by field_simp
  rw [hfactor]
  refine ⟨?_, ?_, ?_⟩
  · rw [abs_mul]
    exact mul_lt_of_lt_one_right (abs_pos.mpr hy) habs
  · intro hx
    rcases lt_or_gt_of_ne hy with hy' | hy'
    · exact mul_nonneg_of_nonpos_of_nonpos hy'.le (hneg (div_nonpos_of_nonneg_of_nonpos hx hy'.le))
    · exact mul_nonneg hy'.le (hpos (div_nonneg hx hy'.le))
  · intro hx
    rcases lt_or_gt_of_ne hy with hy' | hy'
    · exact mul_nonpos_of_nonpos_of_nonneg hy'.le (hpos (div_nonneg_of_nonpos hx hy'.le))
    · exact mul_nonpos_of_nonneg_of_nonpos hy'.le (hneg (div_nonpos_of_nonpos_of_nonneg hx hy'.le))

end GreenPipeline.Core
