import GreenPipeline.L1Adt.NumericRound

/-!
# Numeric variables and 64-bit integers

`numericvar_to_int64` accumulates the digits in a signed 64-bit integer that wraps around, and
after each digit divides to see whether it did. The smallest integer does not fit as a positive
number, so for negative values the one bit pattern that is its own negative is let through. Other
values have the same pattern.

Sources: `src/backend/utils/adt/numeric.c`.

Results:

* `int64Loop_eq`: which integers the loop accepts.
* `numericvarToInt64_exact_iff`: the conversion is right exactly if the rounded value is not one
  of 4999 odd multiples of the smallest integer.
* `int64ToNumericvar_value`: the conversion back is exact.
-/
namespace GreenPipeline.L1.Numeric

open GreenPipeline.Core GreenPipeline.Core.Positional

/-- Signed 64-bit arithmetic wraps around. -/
def wrap64 (x : ℤ) : ℤ := (x + 9223372036854775808) % 18446744073709551616 - 9223372036854775808

def Int64Range (x : ℤ) : Prop := -9223372036854775808 ≤ x ∧ x ≤ 9223372036854775807

/-! ## From numeric -/

/-- One digit. mirrors numeric.c:6134-6153 -/
def int64Step (neg : Bool) (oldval digit : ℤ) : Option ℤ :=
  let val := wrap64 (wrap64 (oldval * NBASE) + digit)
  if val.tdiv NBASE ≠ oldval then
    if neg = false ∨ wrap64 (-val) ≠ val ∨ val = 0 ∨ oldval < 0 then none else some val
  else some val

/-- mirrors numeric.c:6132-6155 -/
def int64Loop (neg : Bool) : List ℤ → ℤ → Option ℤ
  | [], val => some val
  | digit :: digits, val => (int64Step neg val digit).bind (int64Loop neg digits)

/-- `none` for an overflow. The digits after the last, up to the decimal point, are zeros. mirrors
numeric.c:6095-6161 -/
def numericvarToInt64 (var : NumericVar) : Option ℤ :=
  let rounded := stripVar (roundVar var 0)
  if rounded.digits = [] then some 0
  else
    let neg : Bool := rounded.sign = .neg
    (int64Loop neg (window rounded.digits 1 rounded.weight.toNat) (digitAt rounded.digits 0)).map
      fun val =>
      if neg then wrap64 (-val) else val

/-! ## To numeric -/

/-- The digits from the last on. mirrors numeric.c:6194-6202 -/
def uint64Digits (uval : ℕ) (digits : List ℤ) : List ℤ :=
  let newuval := uval / 10000
  let digits := ((uval - newuval * 10000 : ℕ) : ℤ) :: digits
  if newuval = 0 then digits else uint64Digits newuval digits
termination_by uval
decreasing_by omega

/-- mirrors numeric.c:6166-6206 -/
def int64ToNumericvar (val : ℤ) : NumericVar :=
  if val = 0 then zeroVar 0
  else
    let uval := ((if val < 0 then -val else val) % 18446744073709551616).toNat
    let digits := uint64Digits uval []
    { digits := digits, weight := digits.length - 1,
      sign := if val < 0 then .neg else .pos, dscale := 0 }

/-! ## The loop -/

/-- The absolute values below 10000 times that of the smallest integer that wrap around to it: the
odd multiples. -/
def WrapsToMin (x : ℤ) : Prop :=
  0 ≤ x ∧ x % 18446744073709551616 = 9223372036854775808 ∧ x < 10000 * 9223372036854775808

instance (x : ℤ) : Decidable (WrapsToMin x) := inferInstanceAs (Decidable (_ ∧ _))

theorem wrap64_wrap64_add (x d : ℤ) : wrap64 (wrap64 x + d) = wrap64 (x + d) := by
  unfold wrap64
  omega

theorem tdiv_NBASE (x : ℤ) : x.tdiv NBASE = if 0 ≤ x then x / 10000 else -(-x / 10000) := by
  split
  · rename_i h
    exact Int.tdiv_eq_ediv_of_nonneg h
  · rename_i h
    rw [← Int.tdiv_eq_ediv_of_nonneg (a := -x) (by omega), Int.neg_tdiv, neg_neg]
    rfl

variable {val : ℤ}

/-- What one digit does to a value that has not wrapped around. -/
theorem int64Step_eq (neg : Bool) {d : ℤ} (hval : 0 ≤ val ∧ val < 9223372036854775808)
    (hd : 0 ≤ d ∧ d < NBASE) : int64Step neg val d =
    if val * NBASE + d < 9223372036854775808 then some (val * NBASE + d)
    else if neg = true ∧ (val * NBASE + d) % 18446744073709551616 = 9223372036854775808 then
      some (-9223372036854775808)
    else none := by
  unfold int64Step
  dsimp only
  rw [wrap64_wrap64_add, tdiv_NBASE]
  generalize hx : val * NBASE + d = x
  unfold NBASE at hx hd
  by_cases hsmall : x < 9223372036854775808
  · have hwrap : wrap64 x = x := by
      unfold wrap64
      omega
    rw [if_pos hsmall, hwrap, if_neg (by split <;> omega)]
  · have hdetected : (if 0 ≤ wrap64 x then wrap64 x / 10000 else -(-wrap64 x / 10000)) ≠ val := by
      unfold wrap64
      split
      · omega
      · omega
    rw [if_neg hsmall, if_pos hdetected]
    by_cases hmin : x % 18446744073709551616 = 9223372036854775808
    · have hwrap : wrap64 x = -9223372036854775808 := by
        unfold wrap64
        omega
      rw [hwrap]
      cases neg with
      | false => simp
      | true =>
        have hpass : ¬ (true = false ∨ wrap64 (- -9223372036854775808) ≠ -9223372036854775808 ∨
            (-9223372036854775808 : ℤ) = 0 ∨ val < 0) := by
          simp only [Bool.true_eq_false, false_or, not_or]
          exact ⟨by decide, by decide, by omega⟩
        rw [if_neg hpass, if_pos ⟨rfl, hmin⟩]
    · rw [if_pos, if_neg fun hand => hmin hand.2]
      right
      unfold wrap64
      omega

/-- After the smallest integer every digit is an overflow. -/
theorem int64Step_min (neg : Bool) {d : ℤ} (hd : 0 ≤ d ∧ d < NBASE) :
    int64Step neg (-9223372036854775808) d = none := by
  have hwrap : wrap64 (wrap64 (-9223372036854775808 * NBASE) + d) = d := by
    unfold NBASE at *
    unfold wrap64
    omega
  unfold int64Step
  dsimp only
  rw [hwrap, tdiv_NBASE, if_pos hd.1, if_pos (by unfold NBASE at hd; omega), if_pos (by omega)]

/-- The loop computes the integer with these digits if it fits, and lets those through that wrap
to the smallest integer. -/
theorem int64Loop_eq (neg : Bool) {ds : List ℤ} (hds : Digits NBASE ds)
    (hval : 0 ≤ val ∧ val < 9223372036854775808) : int64Loop neg ds val =
    if horner NBASE (val :: ds) < 9223372036854775808 then some (horner NBASE (val :: ds))
    else if neg = true ∧ WrapsToMin (horner NBASE (val :: ds)) then some (-9223372036854775808)
    else none := by
  induction ds generalizing val with
  | nil =>
    rw [horner_singleton, if_pos hval.2]
    rfl
  | cons d ds ih =>
    obtain ⟨hd, hrest⟩ := hds.of_cons
    have hjoin : horner NBASE (val :: d :: ds) = horner NBASE ((val * NBASE + d) :: ds) := by
      rw [horner_cons, horner_cons, horner_cons, List.length_cons, pow_succ]
      ring
    have hx : 0 ≤ val * NBASE + d ∧ val * NBASE + d < 10000 * 9223372036854775808 := by
      unfold NBASE at *
      omega
    rw [int64Loop, int64Step_eq neg hval hd, hjoin]
    generalize val * NBASE + d = x at hx
    by_cases hsmall : x < 9223372036854775808
    · rw [if_pos hsmall]
      exact ih hrest ⟨hx.1, hsmall⟩
    rw [if_neg hsmall]
    cases ds with
    | nil =>
      rw [horner_singleton, if_neg hsmall]
      by_cases hmin : neg = true ∧ x % 18446744073709551616 = 9223372036854775808
      · rw [if_pos hmin, if_pos ⟨hmin.1, hx.1, hmin.2, hx.2⟩]
        rfl
      · rw [if_neg hmin, if_neg fun hand => hmin ⟨hand.1, hand.2.2.1⟩]
        rfl
    | cons d' ds' =>
      -- another digit follows, so the integer is too large to be let through
      have hlarge : 10000 * 9223372036854775808 ≤ horner NBASE (x :: d' :: ds') := by
        have hnonneg := hrest.horner_nonneg NBASE_pos
        have hpow : NBASE ≤ NBASE ^ (d' :: ds').length := le_self_pow₀ NBASE_pos (by simp)
        have hmul : 9223372036854775808 * NBASE ≤ x * NBASE ^ (d' :: ds').length :=
          mul_le_mul (not_lt.mp hsmall) hpow NBASE_pos.le hx.1
        rw [horner_cons]
        unfold NBASE at *
        linarith
      have hfit : ¬ horner NBASE (x :: d' :: ds') < 9223372036854775808 := by omega
      have hwrap : ¬ (neg = true ∧ WrapsToMin (horner NBASE (x :: d' :: ds'))) :=
        fun hand => absurd hand.2.2.2 (not_lt.mpr hlarge)
      rw [if_neg hfit, if_neg hwrap]
      split
      · rw [Option.bind_some, int64Loop, int64Step_min neg hrest.of_cons.1]
        rfl
      · rfl

/-! ## The rounded integer -/

theorem window_zero_succ (ds : List ℤ) (n : ℕ) :
    window ds 0 (n + 1) = digitAt ds 0 :: window ds 1 n := by
  unfold window
  rw [List.range_succ_eq_map, List.map_cons, List.map_map]
  congr 1
  apply List.map_congr_left
  intro k _
  simp only [Function.comp_apply, Nat.cast_succ]
  congr 1
  ring

/-- A stripped variable whose value is an integer has no digits after the decimal point. -/
theorem integer_digits {var : NumericVar} (h : Normalised var) (hne : var.digits ≠ []) {z : ℤ}
    (hz : var.absValue = z) :
    0 ≤ var.weight ∧ var.ndigits ≤ var.weight + 1 ∧
    horner NBASE (window var.digits 0 (var.weight.toNat + 1)) = z := by
  have hpos := h.absValue_pos hne
  have hone : 1 ≤ z := by
    rw [hz] at hpos
    exact_mod_cast hpos
  have hlt := absValue_lt h.digitsOk (le_refl var.weight)
  have hweight : 0 ≤ var.weight := by
    by_contra hneg
    have hsmall : (NBASE : ℚ) ^ (var.weight + 1) ≤ (NBASE : ℚ) ^ (0 : ℤ) :=
      zpow_le_zpow_right₀ (by exact_mod_cast one_lt_NBASE.le) (by omega)
    have hone' : (1 : ℚ) ≤ z := by exact_mod_cast hone
    rw [zpow_zero] at hsmall
    rw [hz] at hlt
    linarith
  obtain ⟨n, hn⟩ := Int.eq_ofNat_of_zero_le hweight
  have hlen :=
    length_le_of_integer one_lt_NBASE h.digitsOk h.stripped hne (w := var.weight) (z := z) hz
  refine ⟨hweight, hlen, ?_⟩
  have hwin :=
    fixedPoint_window NBASE_ne_zero var.digits (s := 0) (n := n + 1) (le_refl 0)
      (by push_cast; omega) var.weight
  rw [sub_zero, fixedPoint, length_window, hn, Nat.cast_succ, sub_self, zpow_zero,
    mul_one, ← hn] at hwin
  rw [hn, Int.toNat_natCast]
  exact_mod_cast hwin.trans hz

variable {var : NumericVar}

/-- What the function works with after rounding. -/
theorem rounded_spec (h : var.DigitsOk) : Normalised (stripVar (roundVar var 0)) ∧
    (stripVar (roundVar var 0)).value = roundAway var.value ∧
    ∃ z : ℤ, (stripVar (roundVar var 0)).absValue = z := by
  obtain ⟨hdigits, habs⟩ := roundVar_absValue h 0
  have hval := roundVar_value h 0
  rw [zpow_zero, mul_one, mul_one] at hval
  rw [zpow_zero, mul_one, mul_one] at habs
  exact ⟨stripVar_normalised hdigits, by rw [stripVar_value, hval],
    _, by rw [stripVar_absValue, habs]⟩

instance (x : ℤ) : Decidable (Int64Range x) := inferInstanceAs (Decidable (_ ∧ _))

theorem numericvarToInt64_eq (h : var.DigitsOk) : numericvarToInt64 var =
    if Int64Range (roundAway var.value) then some (roundAway var.value)
    else if WrapsToMin (-roundAway var.value) then some (-9223372036854775808)
    else none := by
  obtain ⟨hnorm, hval, z, hz⟩ := rounded_spec h
  unfold numericvarToInt64
  dsimp only
  generalize stripVar (roundVar var 0) = rounded at *
  generalize roundAway var.value = R at *
  split
  · rename_i hnil
    have hzero : R = 0 := by
      rw [NumericVar.value, absValue_of_nil hnil, mul_zero] at hval
      exact_mod_cast hval.symm
    rw [hzero, if_pos (by decide)]
  · rename_i hne
    obtain ⟨hweight, -, hhorner⟩ := integer_digits hnorm hne hz
    have hpos : 0 < z := by
      have hpos := hnorm.absValue_pos hne
      rw [hz] at hpos
      exact_mod_cast hpos
    rw [window_zero_succ] at hhorner
    have hd := digitAt_range NBASE_pos hnorm.digitsOk 0
    rw [int64Loop_eq _ (Digits.window NBASE_pos hnorm.digitsOk 1 _)
      ⟨hd.1, lt_trans hd.2 (by decide)⟩, hhorner]
    cases hsign : rounded.sign with
    | pos =>
      have hR : R = z := by
        rw [value_of_pos hsign, hz] at hval
        exact_mod_cast hval.symm
      rw [hR]
      by_cases hfit : z < 9223372036854775808
      · have hin : Int64Range z := ⟨by omega, by omega⟩
        rw [if_pos hfit, if_pos hin]
        rfl
      · have hout : ¬ Int64Range z := fun hin => hfit (lt_of_le_of_lt hin.2 (by decide))
        have hwrap : ¬ WrapsToMin (-z) := fun hmin => absurd hmin.1 (by omega)
        rw [if_neg hfit, if_neg hout, if_neg hwrap]
        rfl
    | neg =>
      have hR : R = -z := by
        rw [value_of_neg hsign, hz] at hval
        exact_mod_cast hval.symm
      simp only [decide_true, true_and, if_true]
      rw [hR, neg_neg]
      by_cases hfit : z < 9223372036854775808
      · have hin : Int64Range (-z) := ⟨by omega, by omega⟩
        have hwrap : wrap64 (-z) = -z := by
          unfold wrap64
          omega
        rw [if_pos hfit, if_pos hin, Option.map_some, hwrap]
      rw [if_neg hfit]
      by_cases hmin : WrapsToMin z
      · have hself : wrap64 (- -9223372036854775808) = -9223372036854775808 := by decide
        rw [if_pos hmin, Option.map_some, hself]
        by_cases hin : Int64Range (-z)
        · rw [if_pos hin]
          congr 1
          exact le_antisymm hin.1 (by omega)
        · rw [if_neg hin]
      · have hout : ¬ Int64Range (-z) := by
          intro hin
          have heq : z = 9223372036854775808 := by
            unfold Int64Range at hin
            omega
          exact hmin (heq ▸ by decide)
        rw [if_neg hmin, if_neg hout]
        rfl

/-! ## Back to numeric -/

theorem uint64Digits_spec (uval : ℕ) {digits : List ℤ} (h : Digits NBASE digits) :
    Digits NBASE (uint64Digits uval digits) ∧ horner NBASE (uint64Digits uval digits) =
      uval * NBASE ^ digits.length + horner NBASE digits := by
  induction uval using Nat.strongRecOn generalizing digits with
  | ind uval ih =>
    have hdigit : Digits NBASE (((uval - uval / 10000 * 10000 : ℕ) : ℤ) :: digits) := by
      apply h.cons
      unfold NBASE
      omega
    have hval : horner NBASE (((uval - uval / 10000 * 10000 : ℕ) : ℤ) :: digits) +
        (uval / 10000 : ℕ) * NBASE ^ (digits.length + 1) =
        uval * NBASE ^ digits.length + horner NBASE digits := by
      have hdm : ((uval - uval / 10000 * 10000 : ℕ) : ℤ) + (uval / 10000 : ℕ) * NBASE = uval := by
        unfold NBASE
        omega
      rw [horner_cons, pow_succ]
      calc
        _ = (((uval - uval / 10000 * 10000 : ℕ) : ℤ) + (uval / 10000 : ℕ) * NBASE) *
          NBASE ^ digits.length + horner NBASE digits := by ring
        _ = _ := by rw [hdm]
    rw [uint64Digits]
    split
    · rename_i hzero
      refine ⟨hdigit, ?_⟩
      have hcarry : (((uval / 10000 : ℕ) : ℤ)) * NBASE ^ (digits.length + 1) = 0 := by
        rw [hzero, Nat.cast_zero, zero_mul]
      rwa [hcarry, add_zero] at hval
    · obtain ⟨hdigits, hnext⟩ := ih (uval / 10000) (by omega) hdigit
      refine ⟨hdigits, ?_⟩
      rw [hnext, ← hval, List.length_cons]
      ring

theorem int64ToNumericvar_value (h : Int64Range val) : (int64ToNumericvar val).value = val := by
  unfold int64ToNumericvar
  dsimp only
  split
  · rename_i hzero
    rw [hzero, value_zeroVar, Int.cast_zero]
  · have hnil : Digits NBASE [] := by
      intro d hd
      cases hd
    obtain ⟨-, hval⟩ :=
      uint64Digits_spec ((if val < 0 then -val else val) % 18446744073709551616).toNat hnil
    rw [List.length_nil, pow_zero, mul_one, horner_nil, add_zero] at hval
    unfold NumericVar.value NumericVar.absValue fixedPoint
    rw [hval, sub_add_cancel, sub_self, zpow_zero, mul_one]
    unfold Int64Range at h
    split
    · rename_i hneg
      have huval : ((((-val) % 18446744073709551616).toNat : ℕ) : ℤ) = -val := by omega
      rw [huval, NumericSign.factor]
      push_cast
      ring
    · rename_i hpos
      have huval : (((val % 18446744073709551616).toNat : ℕ) : ℤ) = val := by omega
      rw [huval, NumericSign.factor, one_mul]

/-! ## The conversion -/

/-- What the conversion is for: it succeeds exactly if the rounded value fits, and then the result
is that value, and converts back to it. -/
def ConvertsExactly (var : NumericVar) : Prop :=
  ((numericvarToInt64 var).isSome = true ↔ Int64Range (roundAway var.value)) ∧
    ∀ result, numericvarToInt64 var = some result →
      result = roundAway var.value ∧ (int64ToNumericvar result).value = roundAway var.value

/-- The conversion is right for all values but those that round to an odd multiple of the smallest
integer, from three times to 9999 times it. -/
theorem numericvarToInt64_exact_iff (h : var.DigitsOk) :
    ConvertsExactly var ↔ ¬ ∃ k : ℤ, 1 ≤ k ∧ k ≤ 4999 ∧
      roundAway var.value = -((2 * k + 1) * 9223372036854775808) := by
  have heq := numericvarToInt64_eq h
  unfold ConvertsExactly
  generalize roundAway var.value = R at *
  by_cases hrange : Int64Range R
  · rw [if_pos hrange] at heq
    have hvalue := int64ToNumericvar_value hrange
    unfold Int64Range at hrange
    constructor
    · rintro - ⟨k, hk1, hk2, hR⟩
      omega
    · intro _
      rw [heq]
      refine ⟨⟨fun _ => hrange, fun _ => rfl⟩, ?_⟩
      intro result hresult
      rw [← Option.some_inj.mp hresult]
      exact ⟨rfl, hvalue⟩
  · rw [if_neg hrange] at heq
    by_cases hmin : WrapsToMin (-R)
    · rw [if_pos hmin] at heq
      unfold WrapsToMin at hmin
      constructor
      · intro hexact
        exact absurd (hexact.1.mp (by rw [heq]; rfl)) hrange
      · intro hno
        exfalso
        unfold Int64Range at hrange
        exact hno ⟨-R / 18446744073709551616, by omega, by omega, by omega⟩
    · rw [if_neg hmin] at heq
      constructor
      · rintro - ⟨k, hk1, hk2, hR⟩
        unfold WrapsToMin at hmin
        omega
      · intro _
        rw [heq]
        refine ⟨⟨fun hsome => absurd hsome (by decide), fun hfit => absurd hfit hrange⟩, ?_⟩
        intro result hresult
        cases hresult

/-- A value that is not let through by mistake. -/
theorem numericvarToInt64_exact_iff_half :
    ConvertsExactly { digits := [1, 2345, 5000], weight := 1, sign := .neg, dscale := 1 } := by
  refine (numericvarToInt64_exact_iff (by unfold NumericVar.DigitsOk Digits; decide)).mpr ?_
  have hrounded :
      roundAway (NumericVar.value
        { digits := [1, 2345, 5000], weight := 1, sign := .neg, dscale := 1 }) = -12346 := by
    decide +kernel
  rintro ⟨k, hk1, hk2, hR⟩
  omega

/-- Three times the smallest integer. -/
def threeTimesMin : NumericVar :=
  { digits := [2767, 116, 1105, 6432, 7424], weight := 4, sign := .neg, dscale := 0 }

/-- It does not fit, and is converted to the smallest integer. -/
theorem threeTimesMin_accepted : numericvarToInt64 threeTimesMin = some (-9223372036854775808) ∧
    roundAway threeTimesMin.value = -27670116110564327424 ∧ ¬ ConvertsExactly threeTimesMin := by
  have hconverted : numericvarToInt64 threeTimesMin = some (-9223372036854775808) := by decide
  have hrounded : roundAway threeTimesMin.value = -27670116110564327424 := by decide +kernel
  refine ⟨hconverted, hrounded, ?_⟩
  intro hexact
  have hsame := (hexact.2 _ hconverted).1
  rw [hrounded] at hsame
  cases hsame

end GreenPipeline.L1.Numeric
