import GreenPipeline.Core.HalfAway
import GreenPipeline.L1Adt.NumericValue

/-!
# Rounding numeric variables

`round_var` keeps `rscale` decimal digits after the point and rounds half away from zero;
`trunc_var` cuts off what comes after them. With `D` decimal digits wanted from the first digit
on, both are statements about the digits as a fraction, times `10 ^ D`.

Results:

* `roundVar_absValue`, `truncVar_absValue`: what happens to the absolute value.
* `roundVar_value`, `truncVar_value`: what happens to the value.
-/
namespace GreenPipeline.L1.Numeric

open GreenPipeline.Core GreenPipeline.Core.Positional List Int

variable {var : NumericVar}

/-! ## Decimal digits of a fraction -/

/-- The digits as a fraction: the first has weight -1. -/
def fraction (ds : List ℤ) : ℚ := fixedPoint NBASE ds (-1)

theorem NBASE_zpow (k : ℤ) : (NBASE : ℚ) ^ k = (10 : ℚ) ^ (k * 4) := by
  have hbase : (NBASE : ℚ) = (10 : ℚ) ^ (4 : ℤ) := by norm_num [NBASE]
  rw [hbase, ← zpow_mul, mul_comm]

theorem ten_zpow_add (a b : ℤ) : (10 : ℚ) ^ (a + b) = (10 : ℚ) ^ a * (10 : ℚ) ^ b :=
  zpow_add₀ (by norm_num) a b

/-- Scaling by powers of ten is scaling the fraction. -/
theorem fixedPoint_mul_ten (ds : List ℤ) (w s : ℤ) :
    fixedPoint NBASE ds w * (10 : ℚ) ^ s = fraction ds * (10 : ℚ) ^ ((w + 1) * DEC_DIGITS + s) := by
  unfold fraction fixedPoint
  rw [mul_assoc, mul_assoc, NBASE_zpow, NBASE_zpow, ← ten_zpow_add, ← ten_zpow_add]
  congr 2
  unfold DEC_DIGITS
  ring

theorem fraction_nonneg {ds : List ℤ} (h : Digits NBASE ds) : 0 ≤ fraction ds :=
  h.fixedPoint_nonneg NBASE_pos _

theorem fraction_lt_one {ds : List ℤ} (h : Digits NBASE ds) : fraction ds < 1 := by
  have hlt := h.fixedPoint_lt NBASE_pos (-1)
  rwa [neg_add_cancel, zpow_zero] at hlt

/-- The first `4 * n - e` decimal digits of `n` digits. -/
theorem fraction_mul_ten {ds : List ℤ} {n : ℕ} (hlen : ds.length = n) {D e : ℤ}
    (hD : D = 4 * n - e) :
    fraction ds * (10 : ℚ) ^ D = horner NBASE ds / (10 : ℚ) ^ e := by
  unfold fraction fixedPoint
  rw [hlen, NBASE_zpow, mul_assoc, ← ten_zpow_add, div_eq_mul_inv, ← zpow_neg, hD]
  congr 2
  ring

theorem fraction_append {xs : List ℤ} {n : ℕ} (hlen : xs.length = n) (ys : List ℤ) {D e : ℤ}
    (hD : D = 4 * n - e) :
    fraction (xs ++ ys) * (10 : ℚ) ^ D = (horner NBASE xs + fraction ys) / (10 : ℚ) ^ e := by
  have hrest : fixedPoint NBASE ys (-1 - n) = fraction ys * (10 : ℚ) ^ (-4 * n : ℤ) := by
    have hscale := fixedPoint_mul_ten ys (-1 - n) 0
    rw [zpow_zero, mul_one] at hscale
    rw [hscale]
    congr 2
    unfold DEC_DIGITS
    ring
  have hfirst := fraction_mul_ten hlen hD
  unfold fraction at hfirst ⊢
  rw [fixedPoint_append NBASE_ne_zero, add_mul, hfirst, hlen, hrest, fraction, mul_assoc,
    ← ten_zpow_add, add_div]
  congr 1
  rw [div_eq_mul_inv, ← zpow_neg, hD]
  congr 2
  ring

/-- A fraction is at least a half if its first digit is. -/
theorem half_le_fraction_iff {ds : List ℤ} (h : Digits NBASE ds) :
    1 / 2 ≤ fraction ds ↔ HALF_NBASE ≤ digitAt ds 0 := by
  cases ds with
  | nil =>
    simp only [fraction, fixedPoint_nil, digitAt, HALF_NBASE]
    norm_num
  | cons d ds =>
    obtain ⟨hd, hds⟩ := h.of_cons
    have hnonneg := hds.fixedPoint_nonneg NBASE_pos (-1 - 1)
    have hlt := hds.fixedPoint_lt NBASE_pos (-1 - 1)
    have hfirst : digitAt (d :: ds) 0 = d := rfl
    have hbase : (NBASE : ℚ) ^ (-1 : ℤ) = 1 / 10000 := by norm_num [NBASE]
    rw [sub_add_cancel, hbase] at hlt
    rw [hfirst, fraction, fixedPoint_cons NBASE_ne_zero, hbase]
    generalize fixedPoint NBASE ds (-1 - 1) = rest at hnonneg hlt
    constructor
    · intro hhalf
      by_contra hlow
      have hle : (d : ℚ) ≤ 4999 := by
        exact_mod_cast (show d ≤ 4999 by unfold HALF_NBASE at hlow; omega)
      linarith
    · intro hhigh
      have hle : (5000 : ℚ) ≤ d := by exact_mod_cast hhigh
      linarith

/-! ## Digits -/

theorem carryOne_value (d c : ℤ) : (carryOne d c).2 + NBASE * (carryOne d c).1 = d + c := by
  unfold carryOne
  split
  · rename_i hzero
    rw [hzero, mul_zero]
  · split
    · ring
    · ring

theorem carryOne_range {d c : ℤ} (hd : 0 ≤ d ∧ d < NBASE) (hc : 0 ≤ c ∧ c ≤ 1) :
    (0 ≤ (carryOne d c).1 ∧ (carryOne d c).1 ≤ 1) ∧ 0 ≤ (carryOne d c).2 ∧
    (carryOne d c).2 < NBASE := by
  unfold carryOne
  split
  · exact ⟨⟨le_refl 0, zero_le_one⟩, hd⟩
  · split
    · omega
    · omega

theorem propagateCarry_spec {ds : List ℤ} (h : Digits NBASE ds) {c : ℤ} (hc : 0 ≤ c ∧ c ≤ 1) :
    (0 ≤ (propagateCarry ds c).1 ∧ (propagateCarry ds c).1 ≤ 1) ∧
    Digits NBASE (propagateCarry ds c).2 ∧ (propagateCarry ds c).2.length = ds.length ∧
      horner NBASE (propagateCarry ds c).2 + NBASE ^ ds.length * (propagateCarry ds c).1 =
        horner NBASE ds + c := by
  obtain ⟨hcarry, hdigits⟩ :=
    digits_foldr (P := fun c => 0 ≤ c ∧ c ≤ 1) carryOne ds
      (fun d hd c hc => carryOne_range (h d hd) hc) hc
  obtain ⟨hlen, hval⟩ := horner_foldr (b := NBASE) (fun d => d) carryOne carryOne_value ds c
  rw [map_id'] at hval
  exact ⟨hcarry, hdigits, hlen, hval⟩

/-- Where `4 - di` decimal digits are cut off a digit. -/
theorem roundPowers_cases {di : ℤ} (hdi : 0 < di ∧ di < 4) :
    di = 1 ∧ roundPowers di = 1000 ∨ di = 2 ∧ roundPowers di = 100 ∨
    di = 3 ∧ roundPowers di = 10 := by
  rcases (show di = 1 ∨ di = 2 ∨ di = 3 by omega) with rfl | rfl | rfl
  · exact Or.inl ⟨rfl, rfl⟩
  · exact Or.inr (Or.inl ⟨rfl, rfl⟩)
  · exact Or.inr (Or.inr ⟨rfl, rfl⟩)

theorem roundDigit_spec {d di : ℤ} (hd : 0 ≤ d ∧ d < NBASE) (hdi : 0 < di ∧ di < 4) :
    (0 ≤ (roundDigit d di).1 ∧ (roundDigit d di).1 ≤ 1) ∧
    (0 ≤ (roundDigit d di).2 ∧ (roundDigit d di).2 < NBASE) ∧
      (roundDigit d di).2 + NBASE * (roundDigit d di).1 =
        roundPowers di * ((d + roundPowers di / 2) / roundPowers di) := by
  unfold NBASE at *
  unfold roundDigit
  dsimp only
  rcases roundPowers_cases hdi with ⟨-, hpow⟩ | ⟨-, hpow⟩ | ⟨-, hpow⟩
  all_goals
    rw [hpow]
    unfold NBASE
    split
    · split
      · omega
      · omega
    · omega

section Powers

variable {di : ℤ} (hdi : 0 < di ∧ di < 4)
include hdi

/-- What the decimal digits at the end of a digit that are cut off are worth. -/
theorem roundPowers_eq {e : ℤ} (he : e = 4 - di) : (roundPowers di : ℚ) = (10 : ℚ) ^ e := by
  rcases roundPowers_cases hdi with ⟨h, hpow⟩ | ⟨h, hpow⟩ | ⟨h, hpow⟩
  all_goals
    rw [hpow, he, h]
    norm_num

theorem roundPowers_pos : 0 < roundPowers di := by
  rcases roundPowers_cases hdi with ⟨-, hpow⟩ | ⟨-, hpow⟩ | ⟨-, hpow⟩
  all_goals
    rw [hpow]
    decide

theorem roundPowers_mul_div : roundPowers di * (NBASE / roundPowers di) = NBASE := by
  rcases roundPowers_cases hdi with ⟨-, hpow⟩ | ⟨-, hpow⟩ | ⟨-, hpow⟩
  all_goals
    rw [hpow]
    decide

theorem roundPowers_half : ((roundPowers di / 2 : ℤ) : ℚ) = roundPowers di / 2 := by
  rcases roundPowers_cases hdi with ⟨-, hpow⟩ | ⟨-, hpow⟩ | ⟨-, hpow⟩
  all_goals
    rw [hpow]
    norm_num

end Powers

/-- A list up to an index and the digit there. -/
theorem take_succ_digitAt {ds : List ℤ} {n : ℕ} (h : n < ds.length) :
    ds.take (n + 1) = ds.take n ++ [digitAt ds n] := by
  rw [take_succ_eq_append_getElem h, digitAt, if_pos (natCast_nonneg n), toNat_natCast,
    getD_eq_getElem _ _ h]

theorem digitAt_drop {ds : List ℤ} (n : ℕ) : digitAt (ds.drop n) 0 = digitAt ds n := by
  simp [digitAt, getD_eq_getElem?_getD]

/-! ## Cutting digits -/

section Cut

variable {ds : List ℤ} {n : ℕ} {di D e : ℤ} (h : Digits NBASE ds)

theorem fraction_cut (hn : n ≤ ds.length) (hD : D = 4 * n - e) :
    fraction ds * (10 : ℚ) ^ D =
      (horner NBASE (ds.take n) + fraction (ds.drop n)) / (10 : ℚ) ^ e := by
  have hsplit := fraction_append (length_take_of_le hn) (ds.drop n) hD
  rwa [take_append_drop] at hsplit

include h

theorem digits_take_drop (n : ℕ) : Digits NBASE (ds.take n) ∧ Digits NBASE (ds.drop n) :=
  ⟨fun d hd => h d (mem_of_mem_take hd), fun d hd => h d (mem_of_mem_drop hd)⟩

/-- The integer part of what is before a cut inside a digit, after `k` is added. -/
theorem floor_cut (hdi : 0 < di ∧ di < 4) (hn : n < ds.length) (k : ℤ) :
    ⌊(((horner NBASE (ds.take (n + 1)) + k : ℤ) : ℚ) + fraction (ds.drop (n + 1))) /
      roundPowers di⌋ =
      NBASE / roundPowers di * horner NBASE (ds.take n) + (digitAt ds n + k) / roundPowers di := by
  have hp := roundPowers_pos hdi
  obtain ⟨-, hdrop⟩ := digits_take_drop h (n + 1)
  have hrest := floor_eq_zero_iff.mpr ⟨fraction_nonneg hdrop, fraction_lt_one hdrop⟩
  have hsum : horner NBASE (ds.take (n + 1)) + k =
      digitAt ds n + k + roundPowers di * (NBASE / roundPowers di * horner NBASE (ds.take n)) := by
    rw [take_succ_digitAt hn, horner_concat, ← mul_assoc, roundPowers_mul_div hdi]
    ring
  rw [floor_div_cast_of_nonneg hp.le, floor_intCast_add, hrest, add_zero, hsum,
    add_mul_ediv_left _ _ hp.ne', add_comm]

/-- The cut is between two digits: the next one decides. -/
theorem floor_half_between (n : ℕ) :
    ⌊fraction (ds.drop n) + 1 / 2⌋ = if digitAt ds n ≥ HALF_NBASE then 1 else 0 := by
  obtain ⟨-, hdrop⟩ := digits_take_drop h n
  have hlow := fraction_nonneg hdrop
  have hhigh := fraction_lt_one hdrop
  have hhalf := half_le_fraction_iff hdrop
  rw [digitAt_drop] at hhalf
  rw [floor_eq_iff]
  split
  · rename_i hge
    have hge' := hhalf.mpr hge
    exact ⟨by linarith, by linarith⟩
  · rename_i hlt
    have hlt' := mt hhalf.mp hlt
    exact ⟨by linarith, by linarith⟩

/-- The cut is inside a digit. -/
theorem floor_half_inside (hdi : 0 < di ∧ di < 4) (hn : n < ds.length) :
    ⌊((horner NBASE (ds.take (n + 1)) : ℚ) + fraction (ds.drop (n + 1))) / roundPowers di + 1 / 2⌋ =
      NBASE / roundPowers di * horner NBASE (ds.take n) +
        (digitAt ds n + roundPowers di / 2) / roundPowers di := by
  have hpQ : (roundPowers di : ℚ) ≠ 0 := cast_ne_zero.mpr (roundPowers_pos hdi).ne'
  rw [← floor_cut h hdi hn, cast_add, roundPowers_half hdi]
  congr 1
  field_simp
  ring

section

variable (hn : n ≤ ds.length) (hD : D = 4 * n - e)
  (hdi : di = 0 ∧ e = 0 ∨ (0 < di ∧ di < 4) ∧ e = 4 - di)
include hn hD hdi

/-- The digits that are kept, with the carry, are the rounded number of decimal digits. -/
theorem roundDigits_spec (hpos : 0 ≤ D) :
    (0 ≤ (roundDigits ds n di).1 ∧ (roundDigits ds n di).1 ≤ 1) ∧
    Digits NBASE (roundDigits ds n di).2 ∧ (roundDigits ds n di).2.length = n ∧
      ((horner NBASE (roundDigits ds n di).2 + NBASE ^ n * (roundDigits ds n di).1 : ℤ) : ℚ) =
        ⌊fraction ds * (10 : ℚ) ^ D + 1 / 2⌋ * (10 : ℚ) ^ e := by
  rw [fraction_cut hn hD]
  unfold roundDigits
  rcases hdi with ⟨rfl, rfl⟩ | ⟨hrange, he⟩
  · obtain ⟨htake, -⟩ := digits_take_drop h n
    obtain ⟨hc, hdigits, hlen, hval⟩ :=
      propagateCarry_spec (c := if digitAt ds n ≥ HALF_NBASE then 1 else 0) htake
        (by split <;> decide)
    rw [length_take_of_le hn] at hlen hval
    rw [if_pos rfl, zpow_zero, div_one, mul_one, add_assoc, floor_intCast_add, floor_half_between h]
    exact ⟨hc, hdigits, hlen, by exact_mod_cast hval⟩
  · obtain ⟨m, rfl⟩ : ∃ m, n = m + 1 := ⟨n - 1, by omega⟩
    obtain ⟨hinit, -⟩ := digits_take_drop h m
    obtain ⟨hlast1, hlast2, hlast3⟩ := roundDigit_spec (digitAt_range NBASE_pos h m) hrange
    obtain ⟨hc, hdigits, hlen, hval⟩ := propagateCarry_spec hinit hlast1
    rw [length_take_of_le (by omega)] at hlen hval
    rw [if_neg (by omega), Nat.add_sub_cancel, ← roundPowers_eq hrange he,
      floor_half_inside h hrange (by omega)]
    dsimp only
    generalize roundDigit (digitAt ds m) di = last at *
    generalize propagateCarry (ds.take m) last.1 = s at *
    refine ⟨hc, hdigits.append
      fun d hd => by rw [mem_singleton.mp hd]; exact hlast2, by simp [hlen], ?_⟩
    have hmain : horner NBASE s.2 * NBASE + last.2 + NBASE ^ (m + 1) * s.1 =
        (NBASE / roundPowers di * horner NBASE (ds.take m) +
          (digitAt ds m + roundPowers di / 2) / roundPowers di) * roundPowers di := by
      calc horner NBASE s.2 * NBASE + last.2 + NBASE ^ (m + 1) * s.1
          = NBASE * (horner NBASE s.2 + NBASE ^ m * s.1) + last.2 := by ring
        _ = NBASE * horner NBASE (ds.take m) + (last.2 + NBASE * last.1) := by rw [hval]; ring
        _ = roundPowers di * (NBASE / roundPowers di) * horner NBASE (ds.take m) +
            roundPowers di * ((digitAt ds m + roundPowers di / 2) / roundPowers di) := by
          rw [hlast3, roundPowers_mul_div hrange]
        _ = _ := by ring
    rw [horner_concat]
    exact_mod_cast hmain

theorem truncDigits_spec (hpos : 0 < D) :
    Digits NBASE (truncDigits ds n di) ∧ (truncDigits ds n di).length = n ∧
    (horner NBASE (truncDigits ds n di) : ℚ) = ⌊fraction ds * (10 : ℚ) ^ D⌋ * (10 : ℚ) ^ e := by
  rw [fraction_cut hn hD]
  unfold truncDigits
  rcases hdi with ⟨rfl, rfl⟩ | ⟨hrange, he⟩
  · obtain ⟨htake, hdrop⟩ := digits_take_drop h n
    have hrest := floor_eq_zero_iff.mpr ⟨fraction_nonneg hdrop, fraction_lt_one hdrop⟩
    rw [if_neg (lt_irrefl 0), zpow_zero, div_one, mul_one, floor_intCast_add, hrest, add_zero]
    exact ⟨htake, length_take_of_le hn, rfl⟩
  · obtain ⟨m, rfl⟩ : ∃ m, n = m + 1 := ⟨n - 1, by omega⟩
    obtain ⟨hinit, -⟩ := digits_take_drop h m
    have hd := digitAt_range NBASE_pos h m
    have hp := roundPowers_pos hrange
    have hfloor := floor_cut h hrange (show m < ds.length by omega) 0
    rw [add_zero, add_zero] at hfloor
    rw [if_pos hrange.1, Nat.add_sub_cancel, ← roundPowers_eq hrange he, hfloor]
    have hlast : digitAt ds m - digitAt ds m % roundPowers di =
        roundPowers di * (digitAt ds m / roundPowers di) := by
      have hdm := emod_add_mul_ediv (digitAt ds m) (roundPowers di)
      linarith
    have hmod := emod_nonneg (digitAt ds m) hp.ne'
    have hle : 0 ≤ digitAt ds m - digitAt ds m % roundPowers di := by
      rw [hlast]
      exact mul_nonneg hp.le (ediv_nonneg hd.1 hp.le)
    dsimp only
    refine ⟨hinit.append fun d hmem => ?_, ?_, ?_⟩
    · rw [mem_singleton.mp hmem]
      exact ⟨hle, by omega⟩
    · rw [length_append, length_take_of_le (by omega), length_singleton]
    · have hmain : horner NBASE (ds.take m) * NBASE +
          (digitAt ds m - digitAt ds m % roundPowers di) =
          (NBASE / roundPowers di * horner NBASE (ds.take m) + digitAt ds m / roundPowers di) *
          roundPowers di := by
        calc horner NBASE (ds.take m) * NBASE + (digitAt ds m - digitAt ds m % roundPowers di)
            = horner NBASE (ds.take m) * (roundPowers di * (NBASE / roundPowers di)) +
              roundPowers di * (digitAt ds m / roundPowers di) := by
              rw [roundPowers_mul_div hrange, hlast]
          _ = _ := by ring
      rw [horner_concat]
      exact_mod_cast hmain

end

end Cut

/-- Nothing is cut off: the number of decimal digits is a whole number. -/
theorem fraction_whole (ds : List ℤ) {D : ℤ} (hD : 4 * ds.length ≤ D) :
    ∃ z : ℤ, fraction ds * (10 : ℚ) ^ D = z := by
  obtain ⟨k, hk⟩ := eq_ofNat_of_zero_le (show 0 ≤ D - 4 * ds.length by omega)
  refine ⟨horner NBASE ds * 10 ^ k, ?_⟩
  rw [fraction_mul_ten rfl (e := -k) (by omega), zpow_neg, div_inv_eq_mul, zpow_natCast]
  push_cast
  rfl

/-! ## Variables -/

/-- `ndigits` and what is left of `di` for the last digit. -/
theorem digits_wanted {di : ℤ} (h : 0 ≤ di) :
    ∃ e : ℤ, di = 4 * (((di + DEC_DIGITS - 1) / DEC_DIGITS).toNat : ℕ) - e ∧
    (di % DEC_DIGITS = 0 ∧ e = 0 ∨ (0 < di % DEC_DIGITS ∧ di % DEC_DIGITS < 4) ∧
      e = 4 - di % DEC_DIGITS) := by
  unfold DEC_DIGITS
  refine ⟨4 * (((di + 4 - 1) / 4).toNat : ℕ) - di, by omega, ?_⟩
  omega

theorem absValue_mul_ten (var : NumericVar) (s : ℤ) :
    var.absValue * (10 : ℚ) ^ s =
      fraction var.digits * (10 : ℚ) ^ ((var.weight + 1) * DEC_DIGITS + s) := fixedPoint_mul_ten ..

/-- Too few digits are wanted for any to be left. -/
theorem fraction_small {ds : List ℤ} (h : Digits NBASE ds) (D : ℤ) :
    0 ≤ fraction ds * (10 : ℚ) ^ D ∧ fraction ds * (10 : ℚ) ^ D < 10 ^ D := by
  have hpow : (0 : ℚ) < (10 : ℚ) ^ D := zpow_pos (by norm_num) D
  refine ⟨mul_nonneg (fraction_nonneg h) hpow.le, ?_⟩
  calc
    fraction ds * (10 : ℚ) ^ D < 1 * (10 : ℚ) ^ D :=
      mul_lt_mul_of_pos_right (fraction_lt_one h) hpow
    _ = (10 : ℚ) ^ D := one_mul _

/-- Digits with a carry in front of them. -/
theorem carried_mul_ten {ds : List ℤ} {n : ℕ} (hlen : ds.length = n) (c w s e : ℤ)
    (hD : (w + 1) * DEC_DIGITS + s = 4 * n - e) :
    fixedPoint NBASE (c :: ds) (w + 1) * (10 : ℚ) ^ s =
      ((horner NBASE ds + NBASE ^ n * c : ℤ) : ℚ) / (10 : ℚ) ^ e := by
  have hscale : (w + 1 + 1) * DEC_DIGITS + s = 4 * ((n + 1 : ℕ) : ℤ) - e := by
    unfold DEC_DIGITS at *
    push_cast
    linarith
  rw [fixedPoint_mul_ten, fraction_mul_ten (n := n + 1) (by simp [hlen]) hscale, horner_cons, hlen,
    add_comm, mul_comm c]

theorem roundVar_absValue (h : var.DigitsOk) (s : ℤ) :
    (roundVar var s).DigitsOk ∧
    (roundVar var s).absValue * (10 : ℚ) ^ s = ⌊var.absValue * (10 : ℚ) ^ s + 1 / 2⌋ := by
  have hscale := absValue_mul_ten var s
  unfold roundVar
  dsimp only
  split
  · rename_i hneg
    -- less than a tenth of the last digit wanted
    obtain ⟨hlow, hhigh⟩ := fraction_small h ((var.weight + 1) * DEC_DIGITS + s)
    have htenth : (10 : ℚ) ^ ((var.weight + 1) * DEC_DIGITS + s) ≤ (10 : ℚ) ^ (-1 : ℤ) :=
      zpow_le_zpow_right₀ (by norm_num) (by omega)
    norm_num at htenth
    refine ⟨(zeroVar_normalised s).digitsOk, ?_⟩
    rw [hscale, absValue_zeroVar, zero_mul,
      floor_eq_zero_iff.mpr ⟨by linarith, by linarith⟩, cast_zero]
  · rename_i hpos
    rw [not_lt] at hpos
    obtain ⟨e, hD, hdi⟩ := digits_wanted hpos
    have hten : (10 : ℚ) ^ e ≠ 0 := zpow_ne_zero e (by norm_num)
    split
    · obtain ⟨hc, hdigits, hlen, hval⟩ := roundDigits_spec h (by omega) hD hdi hpos
      rw [hscale, ← mul_div_cancel_right₀ (⌊_⌋ : ℚ) hten, ← hval]
      split
      · rename_i hzero
        refine ⟨hdigits, ?_⟩
        rw [hzero, mul_zero, add_zero, absValue_mul_ten]
        exact fraction_mul_ten hlen hD
      · refine ⟨hdigits.cons ⟨hc.1, lt_of_le_of_lt hc.2 one_lt_NBASE⟩, ?_⟩
        exact carried_mul_ten hlen _ _ _ _ hD
    · -- there are no digits after those wanted
      obtain ⟨z, hz⟩ :=
        fraction_whole var.digits (D := (var.weight + 1) * DEC_DIGITS + s) (by omega)
      have hhalf : ⌊(z : ℚ) + 1 / 2⌋ = z := by
        rw [floor_intCast_add, show ⌊(1 / 2 : ℚ)⌋ = 0 by norm_num, add_zero]
      rw [hscale, hz, hhalf, ← hz, ← hscale]
      exact ⟨h, rfl⟩

theorem truncVar_absValue (h : var.DigitsOk) (s : ℤ) :
    (truncVar var s).DigitsOk ∧
    (truncVar var s).absValue * (10 : ℚ) ^ s = ⌊var.absValue * (10 : ℚ) ^ s⌋ := by
  have hscale := absValue_mul_ten var s
  unfold truncVar
  dsimp only
  split
  · rename_i hneg
    obtain ⟨hlow, hhigh⟩ := fraction_small h ((var.weight + 1) * DEC_DIGITS + s)
    have hone : (10 : ℚ) ^ ((var.weight + 1) * DEC_DIGITS + s) ≤ (10 : ℚ) ^ (0 : ℤ) :=
      zpow_le_zpow_right₀ (by norm_num) hneg
    refine ⟨(zeroVar_normalised s).digitsOk, ?_⟩
    rw [hscale, absValue_zeroVar, zero_mul, floor_eq_zero_iff.mpr ⟨hlow, by linarith⟩, cast_zero]
  · rename_i hpos
    rw [not_le] at hpos
    obtain ⟨e, hD, hdi⟩ := digits_wanted hpos.le
    have hten : (10 : ℚ) ^ e ≠ 0 := zpow_ne_zero e (by norm_num)
    split
    · obtain ⟨hdigits, hlen, hval⟩ := truncDigits_spec h (by omega) hD hdi hpos
      rw [hscale, ← mul_div_cancel_right₀ (⌊_⌋ : ℚ) hten, ← hval]
      refine ⟨hdigits, ?_⟩
      rw [absValue_mul_ten]
      exact fraction_mul_ten hlen hD
    · obtain ⟨z, hz⟩ :=
        fraction_whole var.digits (D := (var.weight + 1) * DEC_DIGITS + s) (by omega)
      rw [hscale, hz, floor_intCast, ← hz, ← hscale]
      exact ⟨h, rfl⟩

theorem roundVar_sign (var : NumericVar) (s : ℤ) :
    (roundVar var s).sign = var.sign ∨ (roundVar var s).absValue = 0 := by
  unfold roundVar
  dsimp only
  split
  · exact Or.inr (absValue_zeroVar s)
  · split
    · split
      · exact Or.inl rfl
      · exact Or.inl rfl
    · exact Or.inl rfl

theorem truncVar_sign (var : NumericVar) (s : ℤ) :
    (truncVar var s).sign = var.sign ∨ (truncVar var s).absValue = 0 := by
  unfold truncVar
  dsimp only
  split
  · exact Or.inr (absValue_zeroVar s)
  · split
    · exact Or.inl rfl
    · exact Or.inl rfl

@[simp] theorem roundVar_dscale (var : NumericVar) (s : ℤ) : (roundVar var s).dscale = s := by
  unfold roundVar
  dsimp only
  split
  · rfl
  · split
    · split
      · rfl
      · rfl
    · rfl

@[simp] theorem truncVar_dscale (var : NumericVar) (s : ℤ) : (truncVar var s).dscale = s := by
  unfold truncVar
  dsimp only
  split
  · rfl
  · split
    · rfl
    · rfl

/-- What happens to absolute values happens to values, if the sign is kept. -/
theorem value_symmetric {var' : NumericVar} {s : ℤ} {f : ℚ → ℤ} (hf : f 0 = 0)
    (hnonneg : 0 ≤ var.absValue) (hsign : var'.sign = var.sign ∨ var'.absValue = 0)
    (habs : var'.absValue * (10 : ℚ) ^ s = f (var.absValue * (10 : ℚ) ^ s)) :
    var'.value * (10 : ℚ) ^ s = symmetric f (var.value * (10 : ℚ) ^ s) := by
  have hscaled : 0 ≤ var.absValue * (10 : ℚ) ^ s := mul_nonneg hnonneg (zpow_pos (by norm_num) s).le
  have hvar' : var'.value = var.sign.factor * var'.absValue := by
    unfold NumericVar.value
    rcases hsign with hsame | hzero
    · rw [hsame]
    · rw [hzero, mul_zero, mul_zero]
  rw [hvar']
  cases hs : var.sign with
  | pos => rw [value_of_pos hs, symmetric_of_nonneg f hscaled, NumericSign.factor, one_mul, habs]
  | neg =>
    rw [value_of_neg hs, neg_mul, symmetric_neg hf hscaled, NumericSign.factor, neg_one_mul,
      neg_mul, habs]
    rfl

theorem roundVar_value (h : var.DigitsOk) (s : ℤ) :
    (roundVar var s).value * (10 : ℚ) ^ s = roundAway (var.value * (10 : ℚ) ^ s) :=
  value_symmetric floor_half_zero h.absValue_nonneg (roundVar_sign var s) (roundVar_absValue h s).2

theorem truncVar_value (h : var.DigitsOk) (s : ℤ) :
    (truncVar var s).value * (10 : ℚ) ^ s = truncate (var.value * (10 : ℚ) ^ s) :=
  value_symmetric floor_zero h.absValue_nonneg (truncVar_sign var s) (truncVar_absValue h s).2

end GreenPipeline.L1.Numeric
