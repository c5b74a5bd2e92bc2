import GreenPipeline.Core.Positional
import Mathlib.Tactic.LinearCombination

/-!
# Long division

Dividing a list of digits by a number, one quotient digit at a time, and Knuth's estimate of a
quotient digit from the first three digits of the dividend and the first two of the divisor.

Results:

* `horner_quotients`: the quotient digits are the digits of the quotient.
* `trial_quotient`: the estimate is right or one too large.
-/
namespace GreenPipeline.Core.Positional

variable {b D : ℤ}

/-- The quotient digits of `r` followed by the digits of the list. -/
def quotients (b D : ℤ) : List ℤ → ℤ → List ℤ
  | [], _ => []
  | x :: xs, r => (r * b + x) / D :: quotients b D xs ((r * b + x) % D)

@[simp] theorem length_quotients (b D : ℤ) (xs : List ℤ) (r : ℤ) :
    (quotients b D xs r).length = xs.length := by
  induction xs generalizing r with
  | nil => rfl
  | cons x xs ih => rw [quotients, List.length_cons, List.length_cons, ih]

theorem horner_quotients (hD : 0 < D) {xs : List ℤ} {r : ℤ} (hr : 0 ≤ r ∧ r < D) :
    horner b (quotients b D xs r) = horner b (r :: xs) / D := by
  induction xs generalizing r with
  | nil => rw [quotients, horner_nil, horner_singleton, Int.ediv_eq_zero_of_lt hr.1 hr.2]
  | cons x xs ih =>
    have hrest : 0 ≤ (r * b + x) % D ∧ (r * b + x) % D < D :=
      ⟨Int.emod_nonneg _ hD.ne', Int.emod_lt_of_pos _ hD⟩
    -- the part that is divided exactly comes out in front
    have hsplit : horner b (r :: x :: xs) =
        horner b ((r * b + x) % D :: xs) + D * ((r * b + x) / D * b ^ xs.length) := by
      have hdm := Int.emod_add_mul_ediv (r * b + x) D
      rw [horner_cons, horner_cons, horner_cons, List.length_cons, pow_succ]
      linear_combination -(b ^ xs.length) * hdm
    rw [quotients, horner_cons, length_quotients, ih hrest, hsplit,
      Int.add_mul_ediv_left _ _ hD.ne', add_comm]

theorem digits_quotients (hD : 0 < D) {xs : List ℤ} (hxs : Digits b xs) {r : ℤ} (hr : 0 ≤ r ∧ r < D)
    (hb : 0 < b) :
    Digits b (quotients b D xs r) := by
  induction xs generalizing r with
  | nil =>
    intro d hd
    cases hd
  | cons x xs ih =>
    obtain ⟨hx, hrest⟩ := hxs.of_cons
    have hmod : 0 ≤ (r * b + x) % D ∧ (r * b + x) % D < D :=
      ⟨Int.emod_nonneg _ hD.ne', Int.emod_lt_of_pos _ hD⟩
    have hlow := add_nonneg (mul_nonneg hr.1 hb.le) hx.1
    have hhigh : r * b + x < b * D := by
      have hle : (r + 1) * b ≤ D * b := mul_le_mul_of_nonneg_right (by omega) hb.le
      linarith
    exact (ih hrest hmod).cons ⟨Int.ediv_nonneg hlow hD.le, Int.ediv_lt_of_lt_mul hD hhigh⟩

/-- The estimate from the leading part `t` of the dividend and `v` of the divisor is the quotient
digit or one more. -/
theorem trial_quotient {W t w v D u P : ℤ} (hP : 0 < P) (hW : W = t * P + w) (hw : 0 ≤ w ∧ w < P)
    (hD : D = v * P + u) (hu : 0 ≤ u ∧ u < P) (hv : b ≤ v) (hb : 0 < b) (hlt : W < b * D)
    (ht : 0 ≤ t) : W / D ≤ min (b - 1) (t / v) ∧ min (b - 1) (t / v) ≤ W / D + 1 := by
  have hv0 : 0 < v := by omega
  have hD0 : 0 < D := by
    rw [hD]
    exact add_pos_of_pos_of_nonneg (mul_pos hv0 hP) hu.1
  have hW0 : 0 ≤ W := by
    rw [hW]
    exact add_nonneg (mul_nonneg ht hP.le) hw.1
  set q := W / D with hq
  have hq0 := Int.ediv_nonneg hW0 hD0.le
  have hqb : q ≤ b - 1 := by
    have := Int.ediv_lt_of_lt_mul hD0 hlt
    omega
  have hlow := Int.ediv_mul_le W hD0.ne'
  have hhigh := Int.lt_ediv_add_one_mul_self W hD0
  constructor
  · apply le_min hqb
    rw [Int.le_ediv_iff_mul_le hv0]
    -- `q * v * P ≤ q * D ≤ W < (t + 1) * P`
    have hqv : q * v * P < (t + 1) * P := by
      calc q * v * P ≤ q * D := by rw [hD]; nlinarith [mul_nonneg hq0 hu.1]
        _ ≤ W := hlow
        _ < (t + 1) * P := by rw [hW]; linarith
    have := lt_of_mul_lt_mul_right hqv hP.le
    omega
  · by_contra hgt
    have htwo : q + 2 ≤ t / v := by
      omega
    have hqv : (q + 2) * v ≤ t := (Int.le_ediv_iff_mul_le hv0).mp htwo
    -- `(q + 2) * v * P ≤ W < (q + 1) * D < (q + 1) * (v + 1) * P`, but `q + 1 ≤ b ≤ v`
    have hchain : (q + 2) * v * P < (q + 1) * (v + 1) * P := by
      calc (q + 2) * v * P ≤ t * P := mul_le_mul_of_nonneg_right hqv hP.le
        _ ≤ W := by rw [hW]; linarith
        _ < (q + 1) * D := hhigh
        _ ≤ (q + 1) * (v + 1) * P := by rw [hD]; nlinarith
    nlinarith

end GreenPipeline.Core.Positional
