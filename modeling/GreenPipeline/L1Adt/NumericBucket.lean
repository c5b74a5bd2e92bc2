import GreenPipeline.L1Adt.NumericDiv
import GreenPipeline.L1Adt.NumericInt

/-!
# Histogram buckets of numeric values

`width_bucket_numeric` divides the distance from the first bound by the distance of the bounds, at
the scale every division gets, and then multiplies by the number of buckets. The quotient is
rounded before it is multiplied, so an operand on or next to the boundary of two buckets can end
up in the wrong one.

Sources: `src/backend/utils/adt/numeric.c`.

Results:

* `computeBucket_spec`: the bucket the code computes.
* `widthBucketNumeric_exact_iff`: it is the right one exactly when no boundary
  lies on the other side of the operand than where rounding moves it
  (`movedBoundary`).
* `thirdOfRange_misplaced`: 1 between 0 and 3 belongs in the second of three buckets and is put in
  the first.
-/
namespace GreenPipeline.L1.Numeric

open GreenPipeline.Core GreenPipeline.Core.Positional Int

/-! ## The functions -/

/-- mirrors src/include/utils/numeric.h:43-44 -/
def NUMERIC_MAX_DISPLAY_SCALE : ℤ := 1000

def NUMERIC_MIN_DISPLAY_SCALE : ℤ := 0

/-- mirrors src/include/utils/numeric.h:53 -/
def NUMERIC_MIN_SIG_DIGITS : ℤ := 16

/-- Weight and value of the first digit that is not zero. mirrors numeric.c:7485-7496 -/
def firstDigit (weight : ℤ) : List ℤ → ℤ × ℤ
  | [] => (0, 0)
  | digit :: digits => if digit ≠ 0 then (weight, digit) else firstDigit (weight - 1) digits

/-- mirrors numeric.c:7463-7524 -/
def selectDivScale (var1 var2 : NumericVar) : ℤ :=
  let first1 := firstDigit var1.weight var1.digits
  let first2 := firstDigit var2.weight var2.digits
  let qweight := if first1.2 ≤ first2.2 then first1.1 - first2.1 - 1 else first1.1 - first2.1
  let rscale := NUMERIC_MIN_SIG_DIGITS - qweight * DEC_DIGITS
  let rscale := max (max (max rscale var1.dscale) var2.dscale) NUMERIC_MIN_DISPLAY_SCALE
  min rscale NUMERIC_MAX_DISPLAY_SCALE

/-- mirrors numeric.c:7585-7600 -/
def floorVar (var : NumericVar) : NumericVar :=
  let tmp := truncVar var 0
  if var.sign = .neg ∧ cmpVar var tmp ≠ 0 then subVar tmp constOne else tmp

/-- mirrors numeric.c:2125-2155 -/
def cmpNumerics : NumericDatum → NumericDatum → ℤ
  | .nan, .nan => 0
  | .nan, .finite _ => 1
  | .finite _, .nan => -1
  | .finite var1, .finite var2 => cmpVar var1 var2

inductive BucketError
  /-- "count must be greater than zero" -/
  | countNotPositive
  /-- "operand, lower bound, and upper bound cannot be NaN" -/
  | argumentNaN
  /-- "lower bound cannot equal upper bound" -/
  | boundsEqual
  /-- "integer out of range" -/
  | integerOutOfRange
  | arithmetic (error : NumericError)
  deriving DecidableEq, Repr

/-- mirrors numeric.c:2944-2965 -/
def numericvarToInt32 (var : NumericVar) : Except BucketError ℤ :=
  match numericvarToInt64 var with
  | none => .error .integerOutOfRange
  | some val =>
    let result := (val + 2147483648) % 4294967296 - 2147483648
    if result ≠ val then .error .integerOutOfRange else .ok result

/-- mirrors numeric.c:1552-1587 -/
def computeBucket (operand bound1 bound2 countVar : NumericVar) : Except NumericError NumericVar :=
  let distance := if cmpVar bound1 bound2 < 0 then subVar operand bound1 else subVar bound1 operand
  let range := if cmpVar bound1 bound2 < 0 then subVar bound2 bound1 else subVar bound1 bound2
  (divVar distance range (selectDivScale distance range) true).bind fun result =>
    match mulVar result countVar (result.dscale + countVar.dscale) with
    | none => .error .overflow
    | some result => .ok (floorVar (addVar result constOne))

/-- mirrors numeric.c:1479-1545 -/
def widthBucketNumeric (operand bound1 bound2 : NumericDatum) (count : ℤ) : Except BucketError ℤ :=
  if count ≤ 0 then .error .countNotPositive
  else
    match operand, bound1, bound2 with
    | .finite operandVar, .finite bound1Var, .finite bound2Var =>
      let countVar := int64ToNumericvar count
      let order := cmpNumerics bound1 bound2
      if order = 0 then .error .boundsEqual
      else
        let resultVar : Except NumericError NumericVar :=
          if order = -1 then
            if cmpNumerics operand bound1 < 0 then .ok (zeroVar 0)
            else if cmpNumerics operand bound2 ≥ 0 then .ok (addVar countVar constOne)
            else computeBucket operandVar bound1Var bound2Var countVar
          else
            if cmpNumerics operand bound1 > 0 then .ok (zeroVar 0)
            else if cmpNumerics operand bound2 ≤ 0 then .ok (addVar countVar constOne)
            else computeBucket operandVar bound1Var bound2Var countVar
        (resultVar.mapError .arithmetic).bind numericvarToInt32
    | _, _, _ => .error .argumentNaN

/-! ## What the bucket should be -/

/-- The operand lies before the first bound, in the direction of the second. -/
def Before (operand bound1 bound2 : ℚ) : Prop :=
  bound1 < bound2 ∧ operand < bound1 ∨ bound2 < bound1 ∧ bound1 < operand

/-- The operand lies at the second bound or beyond it. -/
def Beyond (operand bound1 bound2 : ℚ) : Prop :=
  bound1 < bound2 ∧ bound2 ≤ operand ∨ bound2 < bound1 ∧ operand ≤ bound2

instance (x b1 b2 : ℚ) : Decidable (Before x b1 b2) := inferInstanceAs (Decidable (_ ∨ _))

instance (x b1 b2 : ℚ) : Decidable (Beyond x b1 b2) := inferInstanceAs (Decidable (_ ∨ _))

/-- The bucket of an operand, computed exactly. -/
def exactBucket (operand bound1 bound2 : ℚ) (count : ℤ) : ℤ :=
  if Before operand bound1 bound2 then 0
  else if Beyond operand bound1 bound2 then count + 1
  else ⌊(operand - bound1) * count / (bound2 - bound1)⌋ + 1

/-- Where the operand lies between the bounds, from zero to one. -/
def position (operand bound1 bound2 : ℚ) : ℚ := (operand - bound1) / (bound2 - bound1)

/-- The scale at which `compute_bucket` divides. -/
def bucketScale (operand bound1 bound2 : NumericVar) : ℤ :=
  if bound1.value < bound2.value then selectDivScale (subVar operand bound1) (subVar bound2 bound1)
  else selectDivScale (subVar bound1 operand) (subVar bound1 bound2)

/-- The position, rounded as `compute_bucket` does. -/
def roundedPosition (operand bound1 bound2 : NumericVar) : ℚ :=
  roundAway (position operand.value bound1.value bound2.value * (10 : ℚ) ^ bucketScale operand
    bound1 bound2) /
    (10 : ℚ) ^ bucketScale operand bound1 bound2

/-- Where rounding to `scale` digits moves the boundary `k / count` of two
buckets: half a unit below the next number of that scale. -/
def movedBoundary (scale count k : ℤ) : ℚ :=
  (⌈k * (10 : ℚ) ^ scale / count⌉ - 1 / 2) / (10 : ℚ) ^ scale

/-! ## Lemmas about the parts -/

variable {var : NumericVar}

theorem selectDivScale_nonneg (var1 var2 : NumericVar) : 0 ≤ selectDivScale var1 var2 := by
  unfold selectDivScale NUMERIC_MIN_DISPLAY_SCALE NUMERIC_MAX_DISPLAY_SCALE
  dsimp only
  omega

theorem bucketScale_nonneg (operand bound1 bound2 : NumericVar) :
    0 ≤ bucketScale operand bound1 bound2 := by
  unfold bucketScale
  split
  · exact selectDivScale_nonneg _ _
  · exact selectDivScale_nonneg _ _

theorem floorVar_of_pos (h : var.DigitsOk) (hsign : var.sign = .pos) :
    (floorVar var).DigitsOk ∧ (floorVar var).value = ⌊var.value⌋ := by
  have hneg : ¬ (var.sign = .neg ∧ cmpVar var (truncVar var 0) ≠ 0) := fun hand => by
    rw [hsign] at hand
    cases hand.1
  have hvalue := truncVar_value h 0
  have hnonneg : 0 ≤ var.value := by
    rw [value_of_pos hsign]
    exact h.absValue_nonneg
  rw [zpow_zero, mul_one, mul_one, truncate, symmetric_of_nonneg _ hnonneg] at hvalue
  unfold floorVar
  rw [if_neg hneg]
  exact ⟨(truncVar_absValue h 0).1, hvalue⟩

/-- A bucket number, or the error if it does not fit. -/
def bucketResult (bucket : ℤ) : Except BucketError ℤ :=
  if bucket ≤ INT_MAX then .ok bucket else .error .integerOutOfRange

theorem numericvarToInt32_eq (h : var.DigitsOk) {bucket : ℤ} (hvalue : var.value = bucket)
    (hrange : 0 ≤ bucket ∧ bucket ≤ INT_MAX + 1) :
    numericvarToInt32 var = bucketResult bucket := by
  have hround : roundAway var.value = bucket := by rw [hvalue, roundAway_intCast]
  have hint64 : Int64Range bucket := by
    unfold INT_MAX at hrange
    exact ⟨by omega, by omega⟩
  unfold numericvarToInt32 bucketResult
  rw [numericvarToInt64_eq h, hround, if_pos hint64]
  dsimp only
  unfold INT_MAX at hrange ⊢
  split
  · rename_i hdiff
    rw [if_neg (by omega)]
  · rename_i hsame
    rw [if_pos (by omega)]
    congr 1
    omega

theorem uint64Digits_length {uval k : ℕ} (h : uval < 10000 ^ (k + 1)) (digits : List ℤ) :
    (uint64Digits uval digits).length ≤ digits.length + (k + 1) := by
  induction k generalizing uval digits with
  | zero =>
    rw [uint64Digits, if_pos (by omega), List.length_cons]
  | succ k ih =>
    rw [uint64Digits]
    split
    · rw [List.length_cons]
      omega
    · have hless : uval / 10000 < 10000 ^ (k + 1) :=
        Nat.div_lt_of_lt_mul (by rw [pow_succ] at h; omega)
      have hlen := ih hless (((uval - uval / 10000 * 10000 : ℕ) : ℤ) :: digits)
      rw [List.length_cons] at hlen
      omega

/-- The number of buckets as a variable. -/
theorem countVar_spec {count : ℤ} (hcount : 0 < count ∧ count ≤ INT_MAX) :
    (int64ToNumericvar count).DigitsOk ∧ (int64ToNumericvar count).value = count ∧
    (int64ToNumericvar count).dscale = 0 ∧
      (int64ToNumericvar count).ndigits ≤ 3 := by
  unfold INT_MAX at hcount
  have hnil : Digits NBASE [] := by
    intro d hd
    cases hd
  have hsmall : ((if count < 0 then -count else count) % 18446744073709551616).toNat <
      10000 ^ (2 + 1) := by
    omega
  have hlen := uint64Digits_length hsmall []
  refine ⟨?_, int64ToNumericvar_value ⟨by omega, by omega⟩, ?_, ?_⟩
  all_goals
    unfold int64ToNumericvar
    rw [if_neg (by omega)]
  · exact (uint64Digits_spec _ hnil).1
  · unfold NumericVar.ndigits
    exact_mod_cast hlen

theorem orderOf_lt_zero {x y : ℚ} : orderOf x y < 0 ↔ x < y := by
  rcases lt_trichotomy x y with hlt | heq | hgt
  · simp [orderOf_of_lt hlt, hlt]
  · simp [heq]
  · simp [orderOf_of_gt hgt, hgt.le]

theorem orderOf_pos {x y : ℚ} : 0 < orderOf x y ↔ y < x := by
  rcases lt_trichotomy x y with hlt | heq | hgt
  · simp [orderOf_of_lt hlt, hlt.le]
  · simp [heq]
  · simp [orderOf_of_gt hgt, hgt]

theorem Normalised.sign_of_nonneg (h : Normalised var) (hvalue : 0 ≤ var.value) :
    var.sign = .pos := by
  by_contra hsign
  have hneg := NumericSign.eq_neg_of_ne_pos hsign
  have hpos := h.absValue_pos_of_neg hneg
  rw [value_of_neg hneg] at hvalue
  linarith

theorem addVar_sign_of_pos {var1 var2 : NumericVar} (h1 : var1.sign = .pos)
    (h2 : var2.sign = .pos) : (addVar var1 var2).sign = .pos := by
  unfold addVar
  rw [h1, h2]

theorem constOne_spec : constOne.DigitsOk ∧ constOne.value = 1 :=
  ⟨by unfold NumericVar.DigitsOk Digits; decide,
    by simp [NumericVar.value, NumericVar.absValue, constOne, NumericSign.factor, fixedPoint]⟩

theorem cmpNumerics_finite {var1 var2 : NumericVar} (h1 : Normalised var1) (h2 : Normalised var2) :
    cmpNumerics (.finite var1) (.finite var2) = orderOf var1.value var2.value := cmpVar_eq h1 h2

/-! ## The position -/

section Position

variable {operand bound1 bound2 : NumericVar}

/-- What an operand between the bounds is divided to. -/
theorem position_inside {x b1 b2 : ℚ} (hne : b1 ≠ b2) (hbefore : ¬ Before x b1 b2)
    (hbeyond : ¬ Beyond x b1 b2) :
    0 ≤ position x b1 b2 ∧ position x b1 b2 < 1 := by
  rcases lt_or_gt_of_ne hne with hlt | hgt
  · have hlow := not_lt.mp fun h => hbefore (Or.inl ⟨hlt, h⟩)
    have hhigh := not_le.mp fun h => hbeyond (Or.inl ⟨hlt, h⟩)
    exact ⟨div_nonneg (by linarith) (by linarith), (div_lt_one (by linarith)).mpr (by linarith)⟩
  · have hlow := not_lt.mp fun h => hbefore (Or.inr ⟨hgt, h⟩)
    have hhigh := not_le.mp fun h => hbeyond (Or.inr ⟨hgt, h⟩)
    exact ⟨div_nonneg_of_nonpos (by linarith) (by linarith),
      (div_lt_one_of_neg (by linarith)).mpr (by linarith)⟩

theorem roundedPosition_nonneg (hinside : 0 ≤ position operand.value bound1.value bound2.value) :
    0 ≤ roundedPosition operand bound1 bound2 := by
  have hpow : (0 : ℚ) < (10 : ℚ) ^ bucketScale operand bound1 bound2 := zpow_pos (by norm_num) _
  have hscaled := mul_nonneg hinside hpow.le
  apply div_nonneg _ hpow.le
  rw [roundAway, symmetric_of_nonneg _ hscaled]
  exact_mod_cast floor_nonneg.mpr (by linarith)

theorem roundedPosition_le_one
    (hinside : 0 ≤ position operand.value bound1.value bound2.value ∧
      position operand.value bound1.value bound2.value < 1) :
    roundedPosition operand bound1 bound2 ≤ 1 := by
  obtain ⟨n, hn⟩ := eq_ofNat_of_zero_le (bucketScale_nonneg operand bound1 bound2)
  have hpow : (0 : ℚ) < (10 : ℚ) ^ bucketScale operand bound1 bound2 := zpow_pos (by norm_num) _
  have hscaled := mul_nonneg hinside.1 hpow.le
  have hless := mul_lt_of_lt_one_left hpow hinside.2
  unfold roundedPosition
  rw [div_le_one hpow, roundAway, symmetric_of_nonneg _ hscaled]
  -- the power is an integer
  have hcast : (10 : ℚ) ^ bucketScale operand bound1 bound2 = ((10 ^ n : ℤ) : ℚ) := by
    rw [hn, zpow_natCast]
    push_cast
    rfl
  rw [hcast] at hless ⊢
  have hfloor : ⌊position operand.value bound1.value bound2.value * ((10 ^ n : ℤ) : ℚ) + 1 / 2⌋ <
      10 ^ n + 1 := by
    rw [floor_lt]
    push_cast at hless ⊢
    linarith
  exact_mod_cast lt_add_one_iff.mp hfloor

/-- Multiplied by the number of buckets, the rounded position reaches `k`
exactly from the moved boundary on. -/
theorem le_floor_roundedPosition_iff {count : ℤ} (hcount : 0 < count)
    (hinside : 0 ≤ position operand.value bound1.value bound2.value) (k : ℤ) :
    k ≤ ⌊roundedPosition operand bound1 bound2 * count⌋ ↔
      movedBoundary (bucketScale operand bound1 bound2) count k ≤
        position operand.value bound1.value bound2.value := by
  have hpow : (0 : ℚ) < (10 : ℚ) ^ bucketScale operand bound1 bound2 := zpow_pos (by norm_num) _
  have hcountQ : (0 : ℚ) < count := by exact_mod_cast hcount
  unfold roundedPosition movedBoundary
  rw [roundAway, symmetric_of_nonneg _ (mul_nonneg hinside hpow.le)]
  generalize position operand.value bound1.value bound2.value = x
  generalize (10 : ℚ) ^ bucketScale operand bound1 bound2 = p at hpow ⊢
  calc k ≤ ⌊(⌊x * p + 1 / 2⌋ : ℚ) / p * count⌋
      ↔ k * p / count ≤ (⌊x * p + 1 / 2⌋ : ℚ) := by
        rw [le_floor, div_mul_eq_mul_div, le_div_iff₀ hpow, div_le_iff₀ hcountQ]
    _ ↔ (⌈k * p / count⌉ : ℚ) ≤ x * p + 1 / 2 := by rw [← ceil_le, le_floor]
    _ ↔ (⌈k * p / count⌉ - 1 / 2) / p ≤ x := by rw [div_le_iff₀ hpow, sub_le_iff_le_add]

end Position

/-! ## The bucket computed -/

section Bucket

variable {operand bound1 bound2 : NumericVar} (ho : Normalised operand) (h1 : Normalised bound1)
  (h2 : Normalised bound2) (hne : bound1.value ≠ bound2.value) {count : ℤ}
  (hcount : 0 < count ∧ count ≤ INT_MAX)

include ho h1 h2 hne

/-- The two numbers that are divided. -/
theorem distance_spec : ∃ distance range, Normalised distance ∧ Normalised range ∧
    range.digits ≠ [] ∧
    distance.value / range.value = position operand.value bound1.value bound2.value ∧
    selectDivScale distance range = bucketScale operand bound1 bound2 ∧
    (if cmpVar bound1 bound2 < 0 then subVar operand bound1 else subVar bound1 operand) = distance ∧
    (if cmpVar bound1 bound2 < 0 then subVar bound2 bound1 else subVar bound1 bound2) = range := by
  have hrange : ∀ {var : NumericVar}, var.value ≠ 0 → var.digits ≠ [] := by
    intro var hvalue hnil
    rw [NumericVar.value, absValue_of_nil hnil, mul_zero] at hvalue
    exact hvalue rfl
  have horder : cmpVar bound1 bound2 < 0 ↔ bound1.value < bound2.value := by
    rw [cmpVar_eq h1 h2, orderOf_lt_zero]
  simp only [horder]
  unfold bucketScale position
  by_cases hlt : bound1.value < bound2.value
  · have hvalue := (subVar_value h2.digitsOk h1.digitsOk).1
    simp only [if_pos hlt]
    refine ⟨_, _, subVar_normalised ho h1, subVar_normalised h2 h1, hrange ?_, ?_, rfl, rfl, rfl⟩
    · rw [hvalue]
      exact sub_ne_zero.mpr hlt.ne'
    · rw [hvalue, (subVar_value ho.digitsOk h1.digitsOk).1]
  · have hvalue := (subVar_value h1.digitsOk h2.digitsOk).1
    simp only [if_neg hlt]
    refine ⟨_, _, subVar_normalised h1 ho, subVar_normalised h1 h2, hrange ?_, ?_, rfl, rfl, rfl⟩
    · rw [hvalue]
      exact sub_ne_zero.mpr hne
    · rw [hvalue, (subVar_value h1.digitsOk ho.digitsOk).1, ← neg_sub operand.value,
        ← neg_sub bound2.value, neg_div_neg_eq]

include hcount

theorem computeBucket_spec (hinside : 0 ≤ position operand.value bound1.value bound2.value) :
    ∃ var, computeBucket operand bound1 bound2 (int64ToNumericvar count) = .ok var ∧ var.DigitsOk ∧
      var.value = (⌊roundedPosition operand bound1 bound2 * count⌋ + 1 : ℤ) := by
  obtain ⟨distance, range, hdistance, hrange, hnonzero, hposition, hscale, hd, hr⟩ :=
    distance_spec ho h1 h2 hne
  obtain ⟨hcok, hcvalue, hcscale, hclen⟩ := countVar_spec hcount
  set s := bucketScale operand bound1 bound2 with hs
  have hs0 := hscale ▸ selectDivScale_nonneg distance range
  have hpow : (10 : ℚ) ^ s ≠ 0 := zpow_ne_zero _ (by norm_num)
  obtain ⟨q, hq, hqnorm, hqscale, hqvalue⟩ :=
    divVar_spec hdistance.digitsOk hrange hnonzero hs0 true
  rw [if_pos rfl, hposition] at hqvalue
  have hqrounded : q.value = roundedPosition operand bound1 bound2 := by
    rw [roundedPosition, ← hs, ← hqvalue, mul_div_cancel_right₀ _ hpow]
  -- the product has the scale of the quotient
  have hproduct : HasScale (q.value * (int64ToNumericvar count).value) s := by
    refine ⟨roundAway (position operand.value bound1.value bound2.value * (10 : ℚ) ^ s) * count, ?_⟩
    rw [hcvalue, mul_right_comm, hqvalue, cast_mul]
  obtain ⟨p, hp, hpvalue⟩ :=
    mulVar_exact_of_room hqnorm.digitsOk hcok hs0 hproduct (Or.inl (by omega))
  obtain ⟨p', hp', hpnorm, -⟩ := mulVar_normalised hqnorm.digitsOk hcok s
  rw [hp, Option.some_inj] at hp'
  rw [← hp'] at hpnorm
  rw [hqrounded, hcvalue] at hpvalue
  have hp0 : 0 ≤ p.value := by
    rw [hpvalue]
    exact mul_nonneg (roundedPosition_nonneg hinside) (by exact_mod_cast hcount.1.le)
  have hsum := (addVar_value hpnorm.digitsOk constOne_spec.1).1
  obtain ⟨hok, hfloor⟩ :=
    floorVar_of_pos (addVar_digitsOk hpnorm.digitsOk constOne_spec.1)
      (addVar_sign_of_pos (hpnorm.sign_of_nonneg hp0) rfl)
  refine ⟨floorVar (addVar p constOne), ?_, hok, ?_⟩
  · unfold computeBucket
    dsimp only
    rw [hd, hr, hscale, hq, Except.bind, hqscale, hcscale, add_zero, hp]
  · rw [hfloor, hsum, constOne_spec.2, floor_add_one, hpvalue]

/-- The three cases, with the tests of one direction of the bounds. -/
theorem bucketCases_eq {before beyond : Prop} [Decidable before] [Decidable beyond]
    (hbefore : before ↔ Before operand.value bound1.value bound2.value)
    (hbeyond : beyond ↔ Beyond operand.value bound1.value bound2.value) :
    ((if before then .ok (zeroVar 0)
      else if beyond then .ok (addVar (int64ToNumericvar count) constOne)
      else computeBucket operand bound1 bound2 (int64ToNumericvar count) :
        Except NumericError NumericVar).mapError BucketError.arithmetic).bind numericvarToInt32 =
    if Before operand.value bound1.value bound2.value then .ok 0
    else if Beyond operand.value bound1.value bound2.value then bucketResult (count + 1)
    else bucketResult (⌊roundedPosition operand bound1 bound2 * count⌋ + 1) := by
  simp only [hbefore, hbeyond]
  split_ifs with hb he
  · rfl
  · obtain ⟨hcok, hcvalue, -, -⟩ := countVar_spec hcount
    refine numericvarToInt32_eq (addVar_digitsOk hcok constOne_spec.1) ?_ ⟨by omega, by omega⟩
    rw [(addVar_value hcok constOne_spec.1).1, hcvalue, constOne_spec.2]
    push_cast
    rfl
  · have hinside := position_inside hne hb he
    obtain ⟨var, hvar, hok, hvalue⟩ := computeBucket_spec ho h1 h2 hne hcount hinside.1
    have hcountQ : (0 : ℚ) < count := by exact_mod_cast hcount.1
    have hfloor : ⌊roundedPosition operand bound1 bound2 * count⌋ ≤ count := by
      rw [← lt_add_one_iff, floor_lt, cast_add, cast_one]
      have hle := mul_le_of_le_one_left hcountQ.le (roundedPosition_le_one hinside)
      linarith
    have hnonneg : 0 ≤ ⌊roundedPosition operand bound1 bound2 * count⌋ :=
      floor_nonneg.mpr (mul_nonneg (roundedPosition_nonneg hinside.1) hcountQ.le)
    rw [hvar, Except.mapError, Except.bind]
    exact numericvarToInt32_eq hok hvalue ⟨by omega, by omega⟩

/-- The code tests the operand in the direction of the bounds. -/
theorem widthBucketNumeric_eq :
    widthBucketNumeric (.finite operand) (.finite bound1) (.finite bound2) count =
    if Before operand.value bound1.value bound2.value then .ok 0
    else if Beyond operand.value bound1.value bound2.value then bucketResult (count + 1)
    else bucketResult (⌊roundedPosition operand bound1 bound2 * count⌋ + 1) := by
  unfold widthBucketNumeric
  rw [if_neg (by omega)]
  dsimp only
  rw [cmpNumerics_finite h1 h2, cmpNumerics_finite ho h1, cmpNumerics_finite ho h2,
    if_neg (by rwa [orderOf_eq_zero])]
  rcases lt_or_gt_of_ne hne with hlt | hgt
  · rw [if_pos (orderOf_of_lt hlt)]
    refine bucketCases_eq ho h1 h2 hne hcount ?_ ?_
    · rw [orderOf_lt_zero, Before]
      simp [hlt, hlt.not_gt]
    · rw [ge_iff_le, ← not_lt, orderOf_lt_zero, not_lt, Beyond]
      simp [hlt, hlt.not_gt]
  · rw [if_neg (by rw [orderOf_of_gt hgt]; decide)]
    refine bucketCases_eq ho h1 h2 hne hcount ?_ ?_
    · rw [gt_iff_lt, orderOf_pos, Before]
      simp [hgt, hgt.not_gt]
    · rw [← not_lt, orderOf_pos, not_lt, Beyond]
      simp [hgt, hgt.not_gt]

omit ho h1 h2 in
/-- Inside the range the two bucket numbers agree if each boundary and the
place rounding moves it to lie on one side of the operand. -/
theorem floor_roundedPosition_eq_iff (hbefore : ¬ Before operand.value bound1.value bound2.value)
    (hbeyond : ¬ Beyond operand.value bound1.value bound2.value) :
    ⌊roundedPosition operand bound1 bound2 * count⌋ =
        ⌊position operand.value bound1.value bound2.value * count⌋ ↔
      ∀ k, 0 < k → k ≤ count → (k / count ≤ position operand.value bound1.value bound2.value ↔
        movedBoundary (bucketScale operand bound1 bound2) count k ≤
          position operand.value bound1.value bound2.value) := by
  have hinside := position_inside hne hbefore hbeyond
  have hcountQ : (0 : ℚ) < count := by exact_mod_cast hcount.1
  have hexact : ∀ k : ℤ, k ≤ ⌊position operand.value bound1.value bound2.value * count⌋ ↔
      k / count ≤ position operand.value bound1.value bound2.value := fun k => by
    rw [le_floor, div_le_iff₀ hcountQ]
  have hrounded := le_floor_roundedPosition_iff hcount.1 hinside.1
  simp only [← hexact, ← hrounded]
  have hlow := floor_nonneg.mpr (mul_nonneg (roundedPosition_nonneg hinside.1) hcountQ.le)
  have hlow' := floor_nonneg.mpr (mul_nonneg hinside.1 hcountQ.le)
  have hhigh : ⌊roundedPosition operand bound1 bound2 * count⌋ ≤ count := by
    have := floor_le_floor (mul_le_of_le_one_left hcountQ.le (roundedPosition_le_one hinside))
    rwa [floor_intCast] at this
  have hhigh' : ⌊position operand.value bound1.value bound2.value * count⌋ ≤ count := by
    have := floor_le_floor (mul_le_of_le_one_left hcountQ.le hinside.2.le)
    rwa [floor_intCast] at this
  constructor
  · intro h k _ _
    rw [h]
  · intro h
    have hle := h ⌊roundedPosition operand bound1 bound2 * count⌋
    have hge := h ⌊position operand.value bound1.value bound2.value * count⌋
    omega

/-- **When the bucket is the exact one**: for operands before the first bound;
for operands at or beyond the second if the number after `count` is an
integer; and for operands in between if no bucket boundary `k / count` lies
on the other side of the operand than where rounding moves it. -/
theorem widthBucketNumeric_exact_iff :
    widthBucketNumeric (.finite operand) (.finite bound1) (.finite bound2) count =
        .ok (exactBucket operand.value bound1.value bound2.value count) ↔
      Before operand.value bound1.value bound2.value ∨
      Beyond operand.value bound1.value bound2.value ∧ count < INT_MAX ∨
      ¬ Before operand.value bound1.value bound2.value ∧
        ¬ Beyond operand.value bound1.value bound2.value ∧
        ∀ k, 0 < k → k ≤ count →
          (k / count ≤ (operand.value - bound1.value) / (bound2.value - bound1.value) ↔
            movedBoundary (bucketScale operand bound1 bound2) count k ≤
              (operand.value - bound1.value) / (bound2.value - bound1.value)) := by
  rw [widthBucketNumeric_eq ho h1 h2 hne hcount]
  unfold exactBucket
  by_cases hbefore : Before operand.value bound1.value bound2.value
  · simp [hbefore]
  by_cases hbeyond : Beyond operand.value bound1.value bound2.value
  · rw [if_neg hbefore, if_pos hbeyond, if_neg hbefore, if_pos hbeyond, bucketResult]
    simp only [hbefore, hbeyond, true_and, false_or, not_true, false_and, and_false, or_false]
    split
    · simp
      omega
    · simp
      omega
  · have hfloor : (operand.value - bound1.value) * count / (bound2.value - bound1.value) =
        position operand.value bound1.value bound2.value * count := by
      rw [position, mul_div_right_comm]
    have hless : ⌊position operand.value bound1.value bound2.value * count⌋ < count := by
      rw [floor_lt]
      exact mul_lt_of_lt_one_left (by exact_mod_cast hcount.1)
        (position_inside hne hbefore hbeyond).2
    have hsame := floor_roundedPosition_eq_iff hne hcount hbefore hbeyond
    unfold position at hsame hfloor hless
    rw [if_neg hbefore, if_neg hbeyond, if_neg hbefore, if_neg hbeyond, hfloor, bucketResult]
    simp only [hbefore, hbeyond, not_false_eq_true, true_and, false_and, false_or]
    rw [← hsame]
    split
    · rw [Except.ok.injEq]
      omega
    · simp only [reduceCtorEq, false_iff]
      omega

end Bucket

/-- An integer of one digit. -/
def digitVar (digit : ℤ) : NumericVar :=
  { digits := [digit], weight := 0, sign := .pos, dscale := 0 }

theorem digitVar_spec (digit : ℤ) (h : 0 < digit ∧ digit < NBASE) :
    Normalised (digitVar digit) ∧ (digitVar digit).value = digit := by
  refine ⟨⟨?_, ?_, ?_⟩, ?_⟩
  · intro d hd
    rw [digitVar, List.mem_singleton] at hd
    omega
  · simp [digitVar, Stripped, h.1.ne']
  · intro hnil
    cases hnil
  · simp [digitVar, NumericVar.value, NumericVar.absValue, NumericSign.factor, fixedPoint]

/-- 1 between 0 and 4 belongs in the second of four buckets, and is put there. -/
theorem widthBucketNumeric_exact_iff_quarter :
    widthBucketNumeric (.finite (digitVar 1)) (.finite (zeroVar 0)) (.finite (digitVar 4)) 4 =
      .ok 2 := by
  have h1 := digitVar_spec 1 (by decide)
  have h4 := digitVar_spec 4 (by decide)
  have hcount : 0 < (4 : ℤ) ∧ 4 ≤ INT_MAX := by decide
  have hexact :=
    (widthBucketNumeric_exact_iff h1.1 (zeroVar_normalised 0) h4.1 (by rw [h4.2]; simp) hcount).mpr
    (Or.inr (Or.inr ⟨by decide +kernel, by decide +kernel, fun k hk hk4 => by
      obtain rfl | rfl | rfl | rfl : k = 1 ∨ k = 2 ∨ k = 3 ∨ k = 4 := by omega
      all_goals decide +kernel⟩))
  have hbucket : exactBucket (digitVar 1).value (zeroVar 0).value (digitVar 4).value 4 = 2 := by
    decide +kernel
  rwa [hbucket] at hexact

/-- 1 between 0 and 3 belongs in the second of three buckets, but a third is rounded down before
it is multiplied by three. -/
theorem thirdOfRange_misplaced :
    widthBucketNumeric (.finite (digitVar 1)) (.finite (zeroVar 0)) (.finite (digitVar 3)) 3 =
      .ok 1 ∧
      exactBucket (digitVar 1).value (zeroVar 0).value (digitVar 3).value 3 = 2 := by
  decide +kernel

end GreenPipeline.L1.Numeric
