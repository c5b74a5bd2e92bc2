import GreenPipeline.L1Adt.NumericRound

/-!
# Coercion to a precision and a scale (`apply_typmod`)

A value is rounded to the scale and must then have no more digits in front of the point than
precision and scale leave. The digits are counted from the weight and the first digit that is not
zero (`src/backend/utils/adt/numeric.c`).

Results:

* `fieldOverflows_iff`: the count of digits is the comparison with a power of ten.
* `applyTypmod_exact`: the value is rounded half away from zero; an error is raised exactly if it
  does not fit.
-/
namespace GreenPipeline.L1.Numeric

open GreenPipeline.Core GreenPipeline.Core.Positional

def VARHDRSZ : ℤ := 4

/-- mirrors numeric.c:6035 -/
def typmodPrecision (typmod : ℤ) : ℤ := (typmod - VARHDRSZ) / 65536 % 65536

/-- mirrors numeric.c:6036 -/
def typmodScale (typmod : ℤ) : ℤ := (typmod - VARHDRSZ) % 65536

/-- "numeric field overflow", with the detail "A field with precision %d, scale %d must round
to an absolute value less than 10^%d." mirrors numeric.c:6072-6081 -/
structure FieldOverflow where
  precision : ℤ
  scale : ℤ
  deriving DecidableEq, Repr

/-- Decimal zeros in front of a digit. mirrors numeric.c:6059-6064 -/
def leadingZeros (dig : ℤ) : ℤ :=
  if dig < 10 then 3 else if dig < 100 then 2 else if dig < 1000 then 1 else 0

/-- mirrors numeric.c:6051-6086 -/
def fieldOverflows (maxdigits : ℤ) : List ℤ → ℤ → Bool
  | [], _ => false
  | dig :: digits, ddigits =>
    if dig ≠ 0 then decide (ddigits - leadingZeros dig > maxdigits)
    else fieldOverflows maxdigits digits (ddigits - DEC_DIGITS)

/-- mirrors numeric.c:6019-6088 -/
def applyTypmod (var : NumericVar) (typmod : ℤ) : Except FieldOverflow NumericVar :=
  if typmod < VARHDRSZ then .ok var
  else
    let precision := typmodPrecision typmod
    let scale := typmodScale typmod
    let maxdigits := precision - scale
    let var := roundVar var scale
    let ddigits := (var.weight + 1) * DEC_DIGITS
    if ddigits > maxdigits ∧ fieldOverflows maxdigits var.digits ddigits = true then
      .error ⟨precision, scale⟩ else .ok var

theorem leadingZeros_spec {dig : ℤ} (h : 0 < dig ∧ dig < NBASE) :
    (10 : ℚ) ^ (3 - leadingZeros dig) ≤ dig ∧
    (dig + 1 : ℚ) ≤ (10 : ℚ) ^ (4 - leadingZeros dig) := by
  unfold NBASE at h
  unfold leadingZeros
  split_ifs with h1 h2 h3
  all_goals
    norm_num
    norm_cast
    omega

/-- The first digit that is not zero decides. -/
theorem fieldOverflows_iff (maxdigits : ℤ) {ds : List ℤ} (hds : Digits NBASE ds) (w : ℤ) :
    fieldOverflows maxdigits ds ((w + 1) * DEC_DIGITS) = true ↔
    (10 : ℚ) ^ maxdigits ≤ fixedPoint NBASE ds w := by
  have hten : (1 : ℚ) < 10 := by norm_num
  induction ds generalizing w with
  | nil => simpa [fieldOverflows] using zpow_pos (zero_lt_one.trans hten) maxdigits
  | cons dig ds ih =>
    obtain ⟨hdig, hrest⟩ := hds.of_cons
    rw [fieldOverflows, fixedPoint_cons NBASE_ne_zero]
    by_cases hzero : dig = 0
    · have hweight : (w + 1) * DEC_DIGITS - DEC_DIGITS = (w - 1 + 1) * DEC_DIGITS := by ring
      rw [if_neg (not_not.2 hzero), hweight, hzero, Int.cast_zero, zero_mul, zero_add]
      exact ih hrest (w - 1)
    · obtain ⟨hlow, hhigh⟩ := leadingZeros_spec ⟨lt_of_le_of_ne hdig.1 (Ne.symm hzero), hdig.2⟩
      have hpow : (0 : ℚ) < (NBASE : ℚ) ^ w := zpow_pos (by norm_num [NBASE]) w
      have hnonneg := hrest.fixedPoint_nonneg NBASE_pos (w - 1)
      have hlt := hrest.fixedPoint_lt NBASE_pos (w - 1)
      rw [sub_add_cancel] at hlt
      have hscale : ∀ k : ℤ, (10 : ℚ) ^ k * (NBASE : ℚ) ^ w = (10 : ℚ) ^ (k + w * 4) := fun k => by
        rw [NBASE_zpow, ten_zpow_add]
      have hge : (10 : ℚ) ^ (3 - leadingZeros dig + w * 4) ≤
          dig * (NBASE : ℚ) ^ w + fixedPoint NBASE ds (w - 1) := by
        rw [← hscale]
        linarith [mul_le_mul_of_nonneg_right hlow hpow.le]
      have hless : dig * (NBASE : ℚ) ^ w + fixedPoint NBASE ds (w - 1) <
          (10 : ℚ) ^ (4 - leadingZeros dig + w * 4) := by
        rw [← hscale]
        linarith [mul_le_mul_of_nonneg_right hhigh hpow.le]
      rw [if_pos hzero, decide_eq_true_iff, DEC_DIGITS]
      constructor
      · intro hgt
        exact (zpow_le_zpow_right₀ hten.le (by omega)).trans hge
      · intro hle
        have hexp := (zpow_lt_zpow_iff_right₀ hten).1 (hle.trans_lt hless)
        omega

/-- The value is rounded half away from zero to the scale, and refused exactly if its absolute
value is then too large. -/
theorem applyTypmod_exact {var : NumericVar} (h : var.DigitsOk) {typmod : ℤ}
    (htypmod : VARHDRSZ ≤ typmod) :
    ∃ rounded : NumericVar, rounded.dscale = typmodScale typmod ∧
      rounded.value * (10 : ℚ) ^ typmodScale typmod =
        roundAway (var.value * (10 : ℚ) ^ typmodScale typmod) ∧
      applyTypmod var typmod =
        if (10 : ℚ) ^ (typmodPrecision typmod - typmodScale typmod) ≤ |rounded.value| then
          .error ⟨typmodPrecision typmod, typmodScale typmod⟩
        else .ok rounded := by
  refine ⟨roundVar var (typmodScale typmod), roundVar_dscale _ _, roundVar_value h _, ?_⟩
  have hok := (roundVar_absValue h (typmodScale typmod)).1
  have hiff :=
    fieldOverflows_iff (typmodPrecision typmod - typmodScale typmod) hok
      (roundVar var (typmodScale typmod)).weight
  have hlt := hok.fixedPoint_lt NBASE_pos (roundVar var (typmodScale typmod)).weight
  rw [applyTypmod, if_neg (not_lt.2 htypmod), abs_value hok, NumericVar.absValue]
  refine if_congr
    ((and_congr_right fun _ => hiff).trans (and_iff_right_of_imp fun hle => ?_)) rfl rfl
  rw [NBASE_zpow] at hlt
  exact (zpow_lt_zpow_iff_right₀ (by norm_num)).1 (hle.trans_lt hlt)

/-- In a field of two digits, one of them behind the point, 9.995 is 10.0 and too
large, and 9.945 is 9.9. -/
theorem applyTypmod_exact_carry :
    applyTypmod ⟨[9, 9950], 0, .pos, 3⟩ 131077 = .error ⟨2, 1⟩ ∧
    ∃ rounded : NumericVar, applyTypmod ⟨[9, 9450], 0, .pos, 3⟩ 131077 = .ok rounded ∧
      rounded.dscale = 1 ∧ rounded.value = 99 / 10 := by
  have hscale : typmodScale 131077 = 1 := by decide
  have hprecision : typmodPrecision 131077 = 2 := by decide
  obtain ⟨large, -, hlarge, herror⟩ := @applyTypmod_exact ⟨[9, 9950], 0, .pos, 3⟩
    (by simp [NumericVar.DigitsOk, Digits, NBASE]) 131077 (by decide)
  obtain ⟨small, hdscale, hsmall, hok⟩ := @applyTypmod_exact ⟨[9, 9450], 0, .pos, 3⟩
    (by simp [NumericVar.DigitsOk, Digits, NBASE]) 131077 (by decide)
  have hcarry :
      roundAway (NumericVar.value ⟨[9, 9950], 0, .pos, 3⟩ * (10 : ℚ) ^ (1 : ℤ)) = 100 := by
    decide +kernel
  have hdown : roundAway (NumericVar.value ⟨[9, 9450], 0, .pos, 3⟩ * (10 : ℚ) ^ (1 : ℤ)) = 99 := by
    decide +kernel
  rw [hscale, hcarry, zpow_one] at hlarge
  rw [hscale, hdown, zpow_one] at hsmall
  have hten : large.value = 10 := by push_cast at hlarge; linarith
  have hless : small.value = 99 / 10 := by push_cast at hsmall; linarith
  rw [hscale, hprecision] at herror hok
  refine ⟨?_, small, ?_, hdscale.trans hscale, hless⟩
  · rw [herror, hten, if_pos (by norm_num)]
  · rw [hok, hless, if_neg (by norm_num [abs_of_pos])]

end GreenPipeline.L1.Numeric
