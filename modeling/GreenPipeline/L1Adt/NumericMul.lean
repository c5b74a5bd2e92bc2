import GreenPipeline.Core.Loop
import GreenPipeline.L1Adt.NumericRound
import Mathlib.Algebra.BigOperators.Ring.Finset

/-!
# Multiplying numeric variables

`mul_var` adds multiples of the longer operand into an array of signed 32-bit integers and
propagates carries only when the bound it keeps on their size gets too large. Digits of the
operands that contribute only to the right of two guard digits are left out.

An overflow of a 32-bit integer is `none` here.

Sources: `src/backend/utils/adt/numeric.c`.

Results:

* `mulVar_eq_some`: no integer overflows; the result is the product without the digits left out,
  rounded, and is normalised.
* `mulVar_exact`: the product is exact if `rscale` has room for its digits and the shorter operand
  has not more than 5000 digits, or `rscale` has room for the digits of both operands.
-/
namespace GreenPipeline.L1.Numeric

open GreenPipeline.Core GreenPipeline.Core.Positional List Finset

/-! ## The function -/

def INT_MAX : ℤ := 2147483647

/-- mirrors numeric.c:96 -/
def MUL_GUARD_DIGITS : ℤ := 2

/-- A signed 32-bit integer, `none` for an overflow. -/
def checkInt (x : ℤ) : Option ℤ := if -INT_MAX - 1 ≤ x ∧ x ≤ INT_MAX then some x else none

/-- One carry propagation pass from the last digit to the first, and what is carried out. mirrors
numeric.c:6844-6856 -/
def carryPass : List ℤ → Option (ℤ × List ℤ)
  | [] => some (0, [])
  | d :: ds =>
    (carryPass ds).bind fun s =>
      (checkInt (d + s.1)).map fun newdig =>
        if newdig ≥ NBASE then (newdig / NBASE, (newdig - newdig / NBASE * NBASE) :: s.2)
        else (0, newdig :: s.2)

/-- `var1digit` times the digits of `var2` is added from index `i1 + 2` on, as far as the array
reaches. mirrors numeric.c:6832-6834 -/
def addMultiple (var1digit : ℤ) (var2digits : List ℤ) (i1 : ℕ) (dig : List ℤ) : Option (List ℤ) :=
  (dig.zip (window var2digits (-(i1 + 2)) dig.length)).mapM fun p =>
    (checkInt (var1digit * p.2)).bind fun product => checkInt (p.1 + product)

/-- The array, and the bound on its entries divided by `NBASE - 1`. -/
structure MulState where
  dig : List ℤ
  maxdig : ℤ

/-- One digit of `var1`. mirrors numeric.c:6798-6834 -/
def mulStep (var1digits var2digits : List ℤ) (i1 : ℕ) (s : MulState) : Option MulState :=
  let var1digit := digitAt var1digits i1
  if var1digit = 0 then some s
  else
    (checkInt (s.maxdig + var1digit)).bind fun maxdig =>
      if maxdig > (INT_MAX - INT_MAX / NBASE) / (NBASE - 1) then
        (carryPass s.dig).bind fun p =>
          (addMultiple var1digit var2digits i1 p.2).map fun dig =>
            { dig := dig, maxdig := 1 + var1digit }
      else
        (addMultiple var1digit var2digits i1 s.dig).map fun dig => { dig := dig, maxdig := maxdig }

/-- The digits of `var1` before the first `i1`, from the last on. mirrors numeric.c:6796-6835 -/
def mulLoop (var1digits var2digits : List ℤ) : ℕ → MulState → Option MulState
  | 0, s => some s
  | i1 + 1, s => (mulStep var1digits var2digits i1 s).bind (mulLoop var1digits var2digits i1)

/-- How many digits are computed. mirrors numeric.c:6755-6758 -/
def mulNdigits (var1 var2 : NumericVar) (rscale : ℤ) : ℤ :=
  let resWeight := var1.weight + var2.weight + 2
  let maxdigits := resWeight + 1 + (rscale + DEC_DIGITS - 1).tdiv DEC_DIGITS + MUL_GUARD_DIGITS
  min (var1.ndigits + var2.ndigits + 1) maxdigits

/-- `var1` is not longer than `var2`. mirrors numeric.c:6722-6872 -/
def mulOrdered (var1 var2 : NumericVar) (rscale : ℤ) : Option NumericVar :=
  if var1.digits = [] ∨ var2.digits = [] then some (zeroVar rscale)
  else
    let resSign := if var1.sign = var2.sign then NumericSign.pos else .neg
    let resWeight := var1.weight + var2.weight + 2
    let resNdigits := mulNdigits var1 var2 rscale
    if resNdigits < 3 then some (zeroVar rscale)
    else
      let dig := List.replicate resNdigits.toNat 0
      (mulLoop var1.digits var2.digits (min var1.digits.length (resNdigits - 2).toNat)
        { dig := dig, maxdig := 0 }).bind fun s =>
        (carryPass s.dig).map fun p =>
          stripVar
            (roundVar { digits := p.2, weight := resWeight, sign := resSign, dscale := 0 } rscale)

/-- mirrors numeric.c:6686-6872 -/
def mulVar (var1 var2 : NumericVar) (rscale : ℤ) : Option NumericVar :=
  if var1.ndigits > var2.ndigits then mulOrdered var2 var1 rscale else mulOrdered var1 var2 rscale

/-! ## Carries -/

theorem checkInt_eq_some {x : ℤ} (h : -INT_MAX - 1 ≤ x ∧ x ≤ INT_MAX) : checkInt x = some x :=
  if_pos h

variable {dig : List ℤ}

/-- Entries up to the bound at which carries are propagated do not overflow when they are. -/
theorem carryPass_spec (h : ∀ d ∈ dig, 0 ≤ d ∧ d ≤ 214748 * (NBASE - 1)) :
    ∃ s, carryPass dig = some s ∧ (0 ≤ s.1 ∧ s.1 ≤ 214748) ∧ Digits NBASE s.2 ∧
      s.2.length = dig.length ∧
      horner NBASE s.2 + NBASE ^ dig.length * s.1 = horner NBASE dig := by
  induction dig with
  | nil => exact ⟨(0, []), rfl, by decide, fun d hd => (by cases hd), rfl, by simp⟩
  | cons d ds ih =>
    obtain ⟨s, hs, hcarry, hdigits, hlen, hval⟩ := ih (forall_mem_cons.1 h).2
    have hd := h d (mem_cons_self ..)
    unfold NBASE at hd
    have hcheck : checkInt (d + s.1) = some (d + s.1) := by
      apply checkInt_eq_some
      unfold INT_MAX
      omega
    rw [carryPass, hs, Option.bind_some, hcheck, Option.map_some]
    refine ⟨_, rfl, ?_⟩
    have hsplit : horner NBASE (d :: ds) = (d + s.1) * NBASE ^ ds.length + horner NBASE s.2 := by
      rw [horner_cons, ← hval]
      ring
    split
    · rename_i hge
      have hdigit : 0 ≤ d + s.1 - (d + s.1) / NBASE * NBASE ∧
          d + s.1 - (d + s.1) / NBASE * NBASE < NBASE := by
        unfold NBASE
        omega
      refine ⟨by unfold NBASE; omega, hdigits.cons hdigit, by simp [hlen], ?_⟩
      rw [hsplit, horner_cons, hlen, length_cons, pow_succ]
      ring
    · rename_i hlt
      have hdigit : 0 ≤ d + s.1 ∧ d + s.1 < NBASE := ⟨by omega, not_le.mp hlt⟩
      refine ⟨by dsimp only; omega, hdigits.cons hdigit, by simp [hlen], ?_⟩
      rw [hsplit, horner_cons, hlen, mul_zero, add_zero]

/-- A multiple of `var2` is added without an overflow if there is room for its largest digit. -/
theorem addMultiple_spec {a : ℤ} {ds : List ℤ} {m : ℤ} (hds : Digits NBASE ds)
    (ha : 0 ≤ a ∧ a < NBASE) (hm : m + a ≤ 214748)
    (hdig : ∀ d ∈ dig, 0 ≤ d ∧ d ≤ m * (NBASE - 1)) (i1 : ℕ) :
    ∃ dig', addMultiple a ds i1 dig = some dig' ∧ dig'.length = dig.length ∧
      (∀ d ∈ dig', 0 ≤ d ∧ d ≤ (m + a) * (NBASE - 1)) ∧
      horner NBASE dig' =
        horner NBASE dig + a * horner NBASE (window ds (-(i1 + 2)) dig.length) := by
  set win := window ds (-(i1 + 2)) dig.length with hwin
  have hlen : dig.length = win.length := by rw [hwin, length_window]
  have hwindow : Digits NBASE win := hds.window NBASE_pos _ _
  have hentry : ∀ p ∈ dig.zip win, 0 ≤ p.1 + a * p.2 ∧ p.1 + a * p.2 ≤ (m + a) * (NBASE - 1) ∧
      0 ≤ a * p.2 ∧ a * p.2 ≤ INT_MAX := by
    intro p hp
    have hp1 := hdig p.1 (of_mem_zip hp).1
    have hp2 := hwindow p.2 (of_mem_zip hp).2
    have hprod := mul_nonneg ha.1 hp2.1
    have hle : a * p.2 ≤ a * (NBASE - 1) := mul_le_mul_of_nonneg_left (by omega) ha.1
    unfold NBASE INT_MAX at *
    exact ⟨by omega, by linarith, hprod, by omega⟩
  refine ⟨(dig.zip win).map fun p => p.1 + a * p.2, ?_, by simp [hlen], ?_, ?_⟩
  · apply Loop.mapM_eq_pure_map
    intro p hp
    obtain ⟨hlow, hhigh, hprod, hfit⟩ := hentry p hp
    rw [checkInt_eq_some ⟨by unfold INT_MAX; omega, hfit⟩, Option.bind_some]
    apply checkInt_eq_some
    unfold NBASE at hhigh
    unfold INT_MAX
    omega
  · intro d hd
    obtain ⟨p, hp, rfl⟩ := mem_map.mp hd
    exact ⟨(hentry p hp).1, (hentry p hp).2.1⟩
  · rw [horner_map_add, map_fst_zip hlen.le, map_snd_zip hlen.ge]

/-! ## The accumulator -/

section Accumulator

variable {var1 var2 : NumericVar}

/-- What digit `i1` of `var1` contributes to an array of `n` digits. -/
def partialProduct (var1 var2 : NumericVar) (n i1 : ℕ) : ℚ :=
  digitAt var1.digits i1 * fixedPoint NBASE (var2.digits.take (n - i1 - 2))
    (var1.weight + var2.weight - i1)

theorem partialProduct_nonneg (h1 : var1.DigitsOk) (h2 : var2.DigitsOk) (n i1 : ℕ) :
    0 ≤ partialProduct var1 var2 n i1 := by
  have hdigit := (digitAt_range NBASE_pos h1 i1).1
  have htake : Digits NBASE (var2.digits.take (n - i1 - 2)) := fun d hd => h2 d (mem_of_mem_take hd)
  exact mul_nonneg (by exact_mod_cast hdigit) (htake.fixedPoint_nonneg NBASE_pos _)

theorem partialProduct_eq (var1 var2 : NumericVar) (n i1 : ℕ) : partialProduct var1 var2 n i1 =
    (digitAt var1.digits i1 * horner NBASE (window var2.digits (-(i1 + 2)) n) : ℤ) *
      (NBASE : ℚ) ^ (var1.weight + var2.weight + 2 + 1 - n) := by
  have hwin :=
    fixedPoint_window_take NBASE_ne_zero var2.digits (s := -(i1 + 2)) (by omega) n
      (var1.weight + var2.weight - i1)
  have hweight : var1.weight + var2.weight - i1 - -((i1 : ℤ) + 2) =
      var1.weight + var2.weight + 2 := by ring
  have htake : (-((i1 : ℤ) + 2) + n).toNat = n - i1 - 2 := by omega
  rw [hweight, htake] at hwin
  rw [partialProduct, ← hwin, fixedPoint, length_window]
  push_cast
  ring

/-- Before digit `i1` of `var1` and after all that follow it. -/
structure MulInv (var1 var2 : NumericVar) (n : ℕ) (total : ℚ) (i1 : ℕ) (s : MulState) : Prop where
  length : s.dig.length = n
  maxdig : 0 ≤ s.maxdig ∧ s.maxdig ≤ 214748
  entries : ∀ d ∈ s.dig, 0 ≤ d ∧ d ≤ s.maxdig * (NBASE - 1)
  value : fixedPoint NBASE s.dig (var1.weight + var2.weight + 2) + ∑ j ∈ Finset.range i1,
    partialProduct var1 var2 n j = total

variable {n : ℕ} {total : ℚ} {i1 : ℕ} {s : MulState}

section

variable (h1 : var1.DigitsOk) (h2 : var2.DigitsOk)
include h1 h2

/-- The entries are worth less than one in front of the array, so nothing is carried out of it. -/
theorem MulInv.carryPass (htotal : total < (NBASE : ℚ) ^ (var1.weight + var2.weight + 2 + 1))
    (h : MulInv var1 var2 n total i1 s) :
    ∃ p, carryPass s.dig = some p ∧ p.1 = 0 ∧ Digits NBASE p.2 ∧ p.2.length = n ∧
      horner NBASE p.2 = horner NBASE s.dig := by
  have hbound : ∀ d ∈ s.dig, 0 ≤ d ∧ d ≤ 214748 * (NBASE - 1) := by
    intro d hd
    have hle : s.maxdig * (NBASE - 1) ≤ 214748 * (NBASE - 1) :=
      mul_le_mul_of_nonneg_right h.maxdig.2 (by decide)
    exact ⟨(h.entries d hd).1, le_trans (h.entries d hd).2 hle⟩
  obtain ⟨p, hp, hcarry, hdigits, hlen, hval⟩ := carryPass_spec hbound
  rw [h.length] at hlen hval
  have hsum : 0 ≤ ∑ j ∈ range i1, partialProduct var1 var2 n j :=
    sum_nonneg fun j _ => partialProduct_nonneg h1 h2 n j
  have hdig := h.value
  unfold fixedPoint at hdig
  rw [h.length] at hdig
  have hpow : (0 : ℚ) < (NBASE : ℚ) ^ (var1.weight + var2.weight + 2 + 1 - n) :=
    zpow_pos (by exact_mod_cast NBASE_pos) _
  have hsplit : (NBASE : ℚ) ^ (var1.weight + var2.weight + 2 + 1) =
      (NBASE : ℚ) ^ n * (NBASE : ℚ) ^ (var1.weight + var2.weight + 2 + 1 - n) := by
    rw [← zpow_natCast, ← zpow_add₀ (by exact_mod_cast NBASE_ne_zero)]
    congr 1
    ring
  have hlt : horner NBASE s.dig < NBASE ^ n := by
    have hltQ : (horner NBASE s.dig : ℚ) < (NBASE : ℚ) ^ n := by
      apply lt_of_mul_lt_mul_right _ hpow.le
      rw [← hsplit]
      linarith
    exact_mod_cast hltQ
  have hnonneg := hdigits.horner_nonneg NBASE_pos
  have hzero : p.1 = 0 := by
    by_contra hne
    have hmul : NBASE ^ n * 1 ≤ NBASE ^ n * p.1 :=
      mul_le_mul_of_nonneg_left (by omega) (pow_nonneg NBASE_pos.le n)
    omega
  refine ⟨p, hp, hzero, hdigits, hlen, ?_⟩
  rw [← hval, hzero, mul_zero, add_zero]

/-- Adding a multiple moves what digit `i1` contributes from the sum to the array. -/
theorem MulInv.addMultiple {m : ℤ} (hm : 0 ≤ m ∧ m + digitAt var1.digits i1 ≤ 214748)
    (hlen : dig.length = n) (hentries : ∀ d ∈ dig, 0 ≤ d ∧ d ≤ m * (NBASE - 1))
    (hvalue : fixedPoint NBASE dig (var1.weight + var2.weight + 2) + ∑ j ∈ Finset.range (i1 + 1),
      partialProduct var1 var2 n j = total) :
    ∃ dig', addMultiple (digitAt var1.digits i1) var2.digits i1 dig = some dig' ∧
      MulInv var1 var2 n total i1 { dig := dig', maxdig := m + digitAt var1.digits i1 } := by
  have ha := digitAt_range NBASE_pos h1 i1
  obtain ⟨dig', hsome, hlen', hentries', hhorner⟩ := addMultiple_spec h2 ha hm.2 hentries i1
  rw [hlen] at hlen' hhorner
  refine ⟨dig', hsome, ⟨hlen', ⟨add_nonneg hm.1 ha.1, hm.2⟩, hentries', ?_⟩⟩
  rw [← hvalue, Finset.sum_range_succ, partialProduct_eq var1 var2 n i1, fixedPoint, fixedPoint,
    hlen', hlen, hhorner]
  push_cast
  ring

section

variable (htotal : total < (NBASE : ℚ) ^ (var1.weight + var2.weight + 2 + 1))
include htotal

theorem mulStep_inv (h : MulInv var1 var2 n total (i1 + 1) s) :
    ∃ s', mulStep var1.digits var2.digits i1 s = some s' ∧ MulInv var1 var2 n total i1 s' := by
  have ha := digitAt_range NBASE_pos h1 i1
  have hmaxdig := h.maxdig
  unfold mulStep
  dsimp only
  split
  · rename_i hzero
    refine ⟨s, rfl, ⟨h.length, h.maxdig, h.entries, ?_⟩⟩
    have hnone : partialProduct var1 var2 n i1 = 0 := by
      rw [partialProduct, hzero, Int.cast_zero, zero_mul]
    have hvalue := h.value
    rwa [Finset.sum_range_succ, hnone, add_zero] at hvalue
  · have hcheck : checkInt (s.maxdig + digitAt var1.digits i1) =
        some (s.maxdig + digitAt var1.digits i1) := by
      apply checkInt_eq_some
      unfold NBASE at ha
      unfold INT_MAX
      omega
    rw [hcheck, Option.bind_some]
    have hlimit : (INT_MAX - INT_MAX / NBASE) / (NBASE - 1) = 214748 := by decide
    rw [hlimit]
    split
    · -- after the pass every entry is a digit
      obtain ⟨p, hp, hcarry, hdigits, hlen, hhorner⟩ := h.carryPass h1 h2 htotal
      have hentries : ∀ d ∈ p.2, 0 ≤ d ∧ d ≤ 1 * (NBASE - 1) := by
        intro d hd
        have hrange := hdigits d hd
        omega
      have hvalue : fixedPoint NBASE p.2 (var1.weight + var2.weight + 2) + ∑ j ∈ range (i1 + 1),
          partialProduct var1 var2 n j = total := by
        rw [← h.value, fixedPoint, fixedPoint, hlen, h.length, hhorner]
      obtain ⟨dig', hsome, hinv⟩ :=
        MulInv.addMultiple h1 h2 (m := 1) (by unfold NBASE at ha; omega) hlen hentries hvalue
      rw [hp, Option.bind_some, hsome, Option.map_some]
      exact ⟨_, rfl, hinv⟩
    · rename_i hroom
      obtain ⟨dig', hsome, hinv⟩ :=
        MulInv.addMultiple h1 h2 ⟨h.maxdig.1, not_lt.mp hroom⟩ h.length h.entries h.value
      rw [hsome, Option.map_some]
      exact ⟨_, rfl, hinv⟩

theorem mulLoop_inv (h : MulInv var1 var2 n total i1 s) :
    ∃ s', mulLoop var1.digits var2.digits i1 s = some s' ∧ MulInv var1 var2 n total 0 s' := by
  induction i1 generalizing s with
  | zero => exact ⟨s, rfl, h⟩
  | succ i1 ih =>
    obtain ⟨s', hstep, hinv⟩ := mulStep_inv h1 h2 htotal h
    rw [mulLoop, hstep, Option.bind_some]
    exact ih hinv

end

end

end Accumulator

/-! ## The product -/

section Product

variable {var1 var2 : NumericVar}

/-- The product without the digits that are left out. -/
def truncatedProduct (var1 var2 : NumericVar) (n : ℕ) : ℚ :=
  ∑ j ∈ Finset.range var1.digits.length, partialProduct var1 var2 n j

/-- What digit `i1` would contribute to the whole product. -/
theorem product_eq_sum (var1 var2 : NumericVar) : var1.absValue * var2.absValue =
    ∑ j ∈ Finset.range var1.digits.length,
    (digitAt var1.digits j : ℚ) * fixedPoint NBASE var2.digits (var1.weight + var2.weight - j) := by
  unfold NumericVar.absValue
  rw [fixedPoint_eq_sum NBASE_ne_zero var1.digits, sum_mul]
  apply sum_congr rfl
  intro j _
  have hshift := fixedPoint_shift NBASE_ne_zero var2.digits var2.weight (var1.weight - j)
  rw [show var1.weight + var2.weight - (j : ℤ) = var2.weight + (var1.weight - j) by ring, hshift]
  ring

/-- The digits after the first `k` are worth less than one of the last before them. -/
theorem fixedPoint_sub_take {ds : List ℤ} (hds : Digits NBASE ds) (k : ℕ) (w : ℤ) :
    0 ≤ fixedPoint NBASE ds w - fixedPoint NBASE (ds.take k) w ∧
    fixedPoint NBASE ds w - fixedPoint NBASE (ds.take k) w ≤ (NBASE : ℚ) ^ (w - k + 1) := by
  have hpow : (0 : ℚ) < (NBASE : ℚ) ^ (w - k + 1) := zpow_pos (by exact_mod_cast NBASE_pos) _
  rcases le_total ds.length k with hshort | hlong
  · rw [take_of_length_le hshort, sub_self]
    exact ⟨le_refl 0, hpow.le⟩
  · obtain ⟨-, hdrop⟩ := digits_take_drop hds k
    have hsplit : fixedPoint NBASE ds w =
        fixedPoint NBASE (ds.take k) w + fixedPoint NBASE (ds.drop k) (w - k) := by
      conv_lhs =>
        rw [← take_append_drop k ds, fixedPoint_append NBASE_ne_zero, length_take_of_le hlong]
    rw [hsplit, add_sub_cancel_left]
    exact ⟨hdrop.fixedPoint_nonneg NBASE_pos _, (hdrop.fixedPoint_lt NBASE_pos _).le⟩

section

variable (h1 : var1.DigitsOk) (h2 : var2.DigitsOk)
include h1 h2

theorem truncatedProduct_nonneg (n : ℕ) : 0 ≤ truncatedProduct var1 var2 n :=
  sum_nonneg fun j _ => partialProduct_nonneg h1 h2 n j

/-- The digits left out are worth at most that much for each digit of `var1`. -/
theorem truncatedProduct_bounds (n : ℕ) :
    0 ≤ var1.absValue * var2.absValue - truncatedProduct var1 var2 n ∧
    var1.absValue * var2.absValue - truncatedProduct var1 var2 n ≤
      var1.digits.length *
        ((NBASE - 1 : ℤ) * (NBASE : ℚ) ^ (var1.weight + var2.weight + 3 - n)) := by
  have hdiff : ∀ j : ℕ, 0 ≤
      (digitAt var1.digits j : ℚ) * fixedPoint NBASE var2.digits (var1.weight + var2.weight - j) -
      partialProduct var1 var2 n j ∧
      (digitAt var1.digits j : ℚ) * fixedPoint NBASE var2.digits (var1.weight + var2.weight - j) -
      partialProduct var1 var2 n j ≤
        (NBASE - 1 : ℤ) * (NBASE : ℚ) ^ (var1.weight + var2.weight + 3 - n) := by
    intro j
    have hd := digitAt_range NBASE_pos h1 j
    have hdQ : (0 : ℚ) ≤ digitAt var1.digits j ∧ (digitAt var1.digits j : ℚ) ≤ (NBASE - 1 : ℤ) := by
      constructor
      · exact_mod_cast hd.1
      · exact_mod_cast (by omega)
    obtain ⟨hlow, hhigh⟩ := fixedPoint_sub_take h2 (n - j - 2) (var1.weight + var2.weight - j)
    have hpow : (NBASE : ℚ) ^ (var1.weight + var2.weight - j - (n - j - 2 : ℕ) + 1) ≤
        (NBASE : ℚ) ^ (var1.weight + var2.weight + 3 - n) :=
      zpow_le_zpow_right₀ (by exact_mod_cast one_lt_NBASE.le) (by omega)
    rw [partialProduct, ← mul_sub]
    exact ⟨mul_nonneg hdQ.1 hlow,
      mul_le_mul hdQ.2 (le_trans hhigh hpow) hlow (le_trans hdQ.1 hdQ.2)⟩
  rw [product_eq_sum, truncatedProduct, ← sum_sub_distrib]
  refine ⟨sum_nonneg fun j _ => (hdiff j).1, ?_⟩
  have hsum := sum_le_card_nsmul (range var1.digits.length) _ _ fun j _ => (hdiff j).2
  rwa [card_range, nsmul_eq_mul] at hsum

theorem product_lt :
    var1.absValue * var2.absValue < (NBASE : ℚ) ^ (var1.weight + var2.weight + 2 + 1) := by
  have hlt1 := absValue_lt h1 (le_refl var1.weight)
  have hlt2 := absValue_lt h2 (le_refl var2.weight)
  have hone : (1 : ℚ) ≤ NBASE := by exact_mod_cast one_lt_NBASE.le
  calc
    var1.absValue * var2.absValue <
      (NBASE : ℚ) ^ (var1.weight + 1) * (NBASE : ℚ) ^ (var2.weight + 1) :=
        mul_lt_mul'' hlt1 hlt2 h1.absValue_nonneg h2.absValue_nonneg
    _ = (NBASE : ℚ) ^ (var1.weight + var2.weight + 2) := by
        rw [← zpow_add₀ (by exact_mod_cast NBASE_ne_zero)]
        congr 1
        ring
    _ ≤ (NBASE : ℚ) ^ (var1.weight + var2.weight + 2 + 1) := zpow_le_zpow_right₀ hone (by omega)

end

/-- With all digits computed nothing is left out. -/
theorem truncatedProduct_all {n : ℕ} (hn : var1.digits.length + var2.digits.length + 1 ≤ n) :
    truncatedProduct var1 var2 n = var1.absValue * var2.absValue := by
  rw [product_eq_sum, truncatedProduct]
  apply sum_congr rfl
  intro j hj
  have hlt := Finset.mem_range.mp hj
  rw [partialProduct, take_of_length_le (by omega)]

theorem truncatedProduct_of_short {n : ℕ} (hn : n < 3) : truncatedProduct var1 var2 n = 0 := by
  apply Finset.sum_eq_zero
  intro j _
  rw [partialProduct, show n - j - 2 = 0 by omega, take_zero, fixedPoint_nil, mul_zero]

/-- Digits of `var1` from index `n - 2` on are not looked at. -/
theorem truncatedProduct_min (var1 var2 : NumericVar) (n : ℕ) :
    ∑ j ∈ Finset.range (min var1.digits.length (n - 2)),
    partialProduct var1 var2 n j = truncatedProduct var1 var2 n := by
  apply sum_subset
  · intro j hj
    rw [Finset.mem_range] at *
    omega
  · intro j hj hnot
    rw [Finset.mem_range] at *
    rw [partialProduct, show n - j - 2 = 0 by omega, take_zero, fixedPoint_nil, mul_zero]

theorem factor_mul (sign1 sign2 : NumericSign) :
    (if sign1 = sign2 then NumericSign.pos else .neg).factor = sign1.factor * sign2.factor := by
  cases sign1 <;> cases sign2 <;> simp [NumericSign.factor]

theorem roundAway_zero : roundAway (0 : ℚ) = 0 := by
  rw [roundAway, symmetric_of_nonneg _ (le_refl 0), floor_half_zero]

/-- No integer overflows, and the result is the product of the digits that are looked at,
rounded. -/
theorem mulOrdered_spec (h1 : var1.DigitsOk) (h2 : var2.DigitsOk) (rscale : ℤ) :
    ∃ result, mulOrdered var1 var2 rscale = some result ∧ Normalised result ∧
      result.dscale = rscale ∧ result.value * (10 : ℚ) ^ rscale =
        roundAway (var1.sign.factor * var2.sign.factor * truncatedProduct var1 var2
          (mulNdigits var1 var2 rscale).toNat * (10 : ℚ) ^ rscale) := by
  have hzero : ∀ x : ℚ, x = 0 → ∃ result, some (zeroVar rscale) = some result ∧ Normalised result ∧
      result.dscale = rscale ∧
      result.value * (10 : ℚ) ^ rscale =
      roundAway (var1.sign.factor * var2.sign.factor * x * (10 : ℚ) ^ rscale) := by
    intro x hx
    refine ⟨_, rfl, zeroVar_normalised rscale, rfl, ?_⟩
    rw [hx, value_zeroVar, mul_zero, zero_mul, roundAway_zero, Int.cast_zero]
  unfold mulOrdered
  split
  · rename_i hnil
    apply hzero
    rcases hnil with hnil | hnil
    · simp [truncatedProduct, hnil]
    · simp [truncatedProduct, partialProduct, hnil]
  dsimp only
  split
  · rename_i hshort
    exact hzero _ (truncatedProduct_of_short (by omega))
  · set n := (mulNdigits var1 var2 rscale).toNat with hn
    have htotal : truncatedProduct var1 var2 n <
        (NBASE : ℚ) ^ (var1.weight + var2.weight + 2 + 1) := by
      have hle := (truncatedProduct_bounds h1 h2 n).1
      have hlt := product_lt h1 h2
      linarith
    have hstart : MulInv var1 var2 n (truncatedProduct var1 var2 n)
        (min var1.digits.length (mulNdigits var1 var2 rscale - 2).toNat)
        { dig := replicate n 0, maxdig := 0 } := by
      refine ⟨length_replicate, ⟨le_refl 0, show (0 : ℤ) ≤ 214748 by decide⟩, ?_, ?_⟩
      · intro d hd
        rw [eq_of_mem_replicate hd, zero_mul]
        exact ⟨le_refl 0, le_refl 0⟩
      · rw [fixedPoint_zeros, zero_add,
          show (mulNdigits var1 var2 rscale - 2).toNat = n - 2 by omega, truncatedProduct_min]
    obtain ⟨s, hloop, hinv⟩ := mulLoop_inv h1 h2 htotal hstart
    obtain ⟨p, hpass, -, hdigits, hlen, hhorner⟩ := hinv.carryPass h1 h2 htotal
    have hvalue : fixedPoint NBASE p.2 (var1.weight + var2.weight + 2) =
        truncatedProduct var1 var2 n := by
      have hdig := hinv.value
      rwa [Finset.range_zero, Finset.sum_empty, add_zero, fixedPoint, hinv.length, ← hhorner,
        ← hlen, ← fixedPoint, hlen] at hdig
    rw [hloop, Option.bind_some, hpass, Option.map_some]
    set raw : NumericVar :=
      { digits := p.2, weight := var1.weight + var2.weight + 2,
        sign := if var1.sign = var2.sign then .pos else .neg, dscale := 0 } with hraw
    have hok : raw.DigitsOk := hdigits
    have hrawValue : raw.value =
        var1.sign.factor * var2.sign.factor * truncatedProduct var1 var2 n := by
      rw [← hvalue, ← factor_mul]
      rfl
    refine ⟨_, rfl, stripVar_normalised (roundVar_absValue hok rscale).1, ?_, ?_⟩
    · rw [stripVar_dscale, roundVar_dscale]
    · rw [stripVar_value, roundVar_value hok, hrawValue]

/-! ## Exact products -/

/-- `x` has at most `f` fractional decimal digits. -/
def HasScale (x : ℚ) (f : ℤ) : Prop := ∃ z : ℤ, x * (10 : ℚ) ^ f = z

variable {f rscale : ℤ}

theorem HasScale.factor {x : ℚ} (h : HasScale x f) (sign : NumericSign) :
    HasScale (sign.factor * x) f := by
  obtain ⟨z, hz⟩ := h
  cases sign with
  | pos => exact ⟨z, by rw [NumericSign.factor, one_mul, hz]⟩
  | neg => exact ⟨-z, by rw [NumericSign.factor, neg_one_mul, neg_mul, hz, Int.cast_neg]⟩

theorem HasScale.absValue {var : NumericVar} (h : HasScale var.value f) :
    HasScale var.absValue f := by
  have habs : var.sign.factor * var.value = var.absValue := by
    unfold NumericVar.value
    cases var.sign <;> simp [NumericSign.factor]
  rw [← habs]
  exact h.factor var.sign

/-- The product is exact if what is left out is less than half of the last digit. -/
theorem roundAway_truncated {x t : ℚ} {s : ℤ} (hscale : HasScale x s) (ht : 0 ≤ t)
    (hlow : 0 ≤ x - t) (hhigh : (x - t) * (10 : ℚ) ^ s < 1 / 2)
    (sign1 sign2 : NumericSign) : (roundAway (sign1.factor * sign2.factor * t * (10 : ℚ) ^ s) : ℚ) =
      sign1.factor * sign2.factor * x * (10 : ℚ) ^ s := by
  obtain ⟨z, hz⟩ := hscale
  have hpow : (0 : ℚ) < (10 : ℚ) ^ s := zpow_pos (by norm_num) s
  have hscaled := mul_nonneg ht hpow.le
  have hlow' := mul_nonneg hlow hpow.le
  have hfloor : ⌊t * (10 : ℚ) ^ s + 1 / 2⌋ = z := by
    rw [Int.floor_eq_iff]
    exact ⟨by linarith, by linarith⟩
  have hpos : (roundAway (t * (10 : ℚ) ^ s) : ℚ) = x * (10 : ℚ) ^ s := by
    rw [roundAway, symmetric_of_nonneg _ hscaled, hfloor, hz]
  have hneg : (roundAway (-(t * (10 : ℚ) ^ s)) : ℚ) = -(x * (10 : ℚ) ^ s) := by
    rw [roundAway, symmetric_neg floor_half_zero hscaled, hfloor, hz, Int.cast_neg]
  cases sign1 <;> cases sign2 <;>
    simp only [NumericSign.factor, one_mul, mul_one, mul_neg, neg_mul, neg_neg] <;> assumption

/-- Fractional digits in base 10000 of a value with `f` decimal ones. -/
theorem rscale_le_of_hasScale (h : Normalised var1) (hne : var1.digits ≠ [])
    (hscale : HasScale var1.value f) :
    var1.ndigits ≤ var1.weight + 1 + (f + 3) / 4 := by
  obtain ⟨z, hz⟩ := hscale.absValue
  -- moving the point by that many digits gives an integer
  have hshift := fixedPoint_shift NBASE_ne_zero var1.digits var1.weight ((f + 3) / 4)
  have hint : var1.absValue * (NBASE : ℚ) ^ ((f + 3) / 4) =
      (z * 10 ^ ((f + 3) / 4 * 4 - f).toNat : ℤ) := by
    have hpow : (NBASE : ℚ) ^ ((f + 3) / 4) =
        (10 : ℚ) ^ f * (10 : ℚ) ^ ((f + 3) / 4 * 4 - f).toNat := by
      rw [NBASE_zpow, ← zpow_natCast, ← ten_zpow_add]
      congr 1
      omega
    rw [hpow, ← mul_assoc, hz]
    push_cast
    rfl
  have hlen := length_le_of_integer one_lt_NBASE h.digitsOk h.stripped hne (hshift.trans hint)
  unfold NumericVar.ndigits
  omega

theorem mulNdigits_eq (var1 var2 : NumericVar) (hrscale : 0 ≤ rscale) :
    mulNdigits var1 var2 rscale =
      min (var1.ndigits + var2.ndigits + 1)
        (var1.weight + var2.weight + 3 + (rscale + 3) / 4 + 2) := by
  unfold mulNdigits DEC_DIGITS MUL_GUARD_DIGITS
  rw [Int.tdiv_eq_ediv_of_nonneg (by omega), show rscale + 4 - 1 = rscale + 3 by ring]
  ring_nf

/-- Room for the digits of both operands: all digits are computed. -/
theorem mulNdigits_all (h1 : Normalised var1) (h2 : Normalised var2) (hne1 : var1.digits ≠ [])
    (hne2 : var2.digits ≠ []) {f1 f2 : ℤ} (hrscale : 0 ≤ rscale) (hf1 : HasScale var1.value f1)
    (hf2 : HasScale var2.value f2) (hsum : f1 + f2 ≤ rscale) :
    mulNdigits var1 var2 rscale = var1.ndigits + var2.ndigits + 1 := by
  have hlen1 := rscale_le_of_hasScale h1 hne1 hf1
  have hlen2 := rscale_le_of_hasScale h2 hne2 hf2
  rw [mulNdigits_eq var1 var2 hrscale]
  omega

section

variable (h1 : var1.DigitsOk) (h2 : var2.DigitsOk)
include h1 h2

/-- With two guard digits and at most 5000 digits in `var1`, less than half of the last digit is
left out. -/
theorem truncation_small {n : ℕ} (hshort : var1.ndigits ≤ 5000)
    (hn : var1.weight + var2.weight + 3 + (rscale + 3) / 4 + 2 ≤ n) :
    (var1.absValue * var2.absValue - truncatedProduct var1 var2 n) * (10 : ℚ) ^ rscale < 1 / 2 := by
  obtain ⟨hlow, hhigh⟩ := truncatedProduct_bounds h1 h2 n
  have hpow : (0 : ℚ) ≤ (10 : ℚ) ^ rscale := (zpow_pos (by norm_num) rscale).le
  have hguard : (NBASE : ℚ) ^ (var1.weight + var2.weight + 3 - n) * (10 : ℚ) ^ rscale ≤
      1 / 100000000 := by
    rw [NBASE_zpow, ← ten_zpow_add]
    calc
      (10 : ℚ) ^ ((var1.weight + var2.weight + 3 - n) * 4 + rscale) ≤ (10 : ℚ) ^ (-8 : ℤ) :=
        zpow_le_zpow_right₀ (by norm_num) (by omega)
      _ = 1 / 100000000 := by norm_num
  have hlen : (var1.digits.length : ℚ) ≤ 5000 := by
    unfold NumericVar.ndigits at hshort
    exact_mod_cast hshort
  calc (var1.absValue * var2.absValue - truncatedProduct var1 var2 n) * (10 : ℚ) ^ rscale
      ≤ var1.digits.length * ((NBASE - 1 : ℤ) * (NBASE : ℚ) ^ (var1.weight + var2.weight + 3 - n)) *
        (10 : ℚ) ^ rscale :=
        mul_le_mul_of_nonneg_right hhigh hpow
    _ = var1.digits.length *
      (9999 * ((NBASE : ℚ) ^ (var1.weight + var2.weight + 3 - n) * (10 : ℚ) ^ rscale)) := by
        norm_num [NBASE]
        ring
    _ ≤ 5000 * (9999 * (1 / 100000000)) := by
        apply mul_le_mul hlen _ _ (by norm_num)
        · exact mul_le_mul_of_nonneg_left hguard (by norm_num)
        · exact mul_nonneg (by norm_num)
            (mul_nonneg (zpow_pos (by exact_mod_cast NBASE_pos) _).le hpow)
    _ < 1 / 2 := by norm_num

/-- When the product of a shorter and a longer variable is exact. -/
theorem mulOrdered_exact (hrscale : 0 ≤ rscale) (hscale : HasScale (var1.value * var2.value) rscale)
    (hroom : var1.ndigits ≤ 5000 ∨ (Normalised var1 ∧ Normalised var2) ∧
      ∃ f1 f2 : ℤ, HasScale var1.value f1 ∧ HasScale var2.value f2 ∧ f1 + f2 ≤ rscale) :
    ∃ result, mulOrdered var1 var2 rscale = some result ∧
      result.value = var1.value * var2.value := by
  obtain ⟨result, hsome, -, -, hvalue⟩ := mulOrdered_spec h1 h2 rscale
  refine ⟨result, hsome, ?_⟩
  have hpow : (10 : ℚ) ^ rscale ≠ 0 := (zpow_pos (by norm_num) rscale).ne'
  have hproduct : var1.sign.factor * var2.sign.factor * (var1.absValue * var2.absValue) =
      var1.value * var2.value := by
    unfold NumericVar.value
    ring
  have habs : HasScale (var1.absValue * var2.absValue) rscale := by
    have hfactor := (hscale.factor var1.sign).factor var2.sign
    have heq : var2.sign.factor * (var1.sign.factor * (var1.value * var2.value)) =
        var1.absValue * var2.absValue := by
      unfold NumericVar.value
      cases var1.sign <;> cases var2.sign <;> simp [NumericSign.factor]
    rwa [heq] at hfactor
  obtain ⟨hlow, -⟩ := truncatedProduct_bounds h1 h2 (mulNdigits var1 var2 rscale).toNat
  have hsmall :
      (var1.absValue * var2.absValue - truncatedProduct var1 var2
        (mulNdigits var1 var2 rscale).toNat) * (10 : ℚ) ^ rscale < 1 / 2 := by
    -- all digits are computed, or the operands are short enough
    have hall : truncatedProduct var1 var2 (mulNdigits var1 var2 rscale).toNat =
        var1.absValue * var2.absValue →
        (var1.absValue * var2.absValue - truncatedProduct var1 var2
          (mulNdigits var1 var2 rscale).toNat) * (10 : ℚ) ^ rscale < 1 / 2 := by
      intro heq
      rw [heq, sub_self, zero_mul]
      norm_num
    by_cases hne1 : var1.digits = []
    · apply hall
      rw [absValue_of_nil hne1, zero_mul, truncatedProduct, hne1, length_nil, Finset.range_zero,
        Finset.sum_empty]
    by_cases hne2 : var2.digits = []
    · apply hall
      rw [absValue_of_nil hne2, mul_zero]
      apply Finset.sum_eq_zero
      intro j _
      rw [partialProduct, hne2, take_nil, fixedPoint_nil, mul_zero]
    have hmin := mulNdigits_eq var1 var2 hrscale
    rcases le_or_gt (var1.ndigits + var2.ndigits + 1) (mulNdigits var1 var2 rscale) with hle | hgt
    · apply hall
      apply truncatedProduct_all
      unfold NumericVar.ndigits at hle
      omega
    · rcases hroom with hshort | ⟨⟨hn1, hn2⟩, f1, f2, hf1, hf2, hsum⟩
      · exact truncation_small h1 h2 hshort (by omega)
      · rw [mulNdigits_all hn1 hn2 hne1 hne2 hrscale hf1 hf2 hsum] at hgt
        exact absurd hgt (lt_irrefl _)
  have hround :=
    roundAway_truncated habs (truncatedProduct_nonneg h1 h2 _) hlow hsmall var1.sign var2.sign
  rw [hround, hproduct] at hvalue
  exact mul_right_cancel₀ hpow hvalue

/-- The multiplication always gives a result, in normal form and with the scale wanted. -/
theorem mulVar_normalised (rscale : ℤ) : ∃ result, mulVar var1 var2 rscale = some result ∧
    Normalised result ∧ result.dscale = rscale := by
  unfold mulVar
  split
  · obtain ⟨result, hsome, hnorm, hscale, -⟩ := mulOrdered_spec h2 h1 rscale
    exact ⟨result, hsome, hnorm, hscale⟩
  · obtain ⟨result, hsome, hnorm, hscale, -⟩ := mulOrdered_spec h1 h2 rscale
    exact ⟨result, hsome, hnorm, hscale⟩

theorem mulVar_exact_of_room (hrscale : 0 ≤ rscale)
    (hscale : HasScale (var1.value * var2.value) rscale)
    (hroom : min var1.ndigits var2.ndigits ≤ 5000 ∨ (Normalised var1 ∧ Normalised var2) ∧
      ∃ f1 f2 : ℤ, HasScale var1.value f1 ∧ HasScale var2.value f2 ∧ f1 + f2 ≤ rscale) :
    ∃ result, mulVar var1 var2 rscale = some result ∧ result.value = var1.value * var2.value := by
  unfold mulVar
  split
  · rw [mul_comm] at hscale ⊢
    apply mulOrdered_exact h2 h1 hrscale hscale
    rcases hroom with hshort | ⟨⟨hn1, hn2⟩, f1, f2, hf1, hf2, hsum⟩
    · exact Or.inl (by omega)
    · exact Or.inr ⟨⟨hn2, hn1⟩, f2, f1, hf2, hf1, by omega⟩
  · apply mulOrdered_exact h1 h2 hrscale hscale
    rcases hroom with hshort | hsum
    · exact Or.inl (by omega)
    · exact Or.inr hsum

end

theorem mulVar_exact (h1 : Normalised var1) (h2 : Normalised var2) (hrscale : 0 ≤ rscale)
    (hscale : HasScale (var1.value * var2.value) rscale)
    (hroom : min var1.ndigits var2.ndigits ≤ 5000 ∨ ∃ f1 f2 : ℤ, HasScale var1.value f1 ∧
      HasScale var2.value f2 ∧ f1 + f2 ≤ rscale) :
    ∃ result, mulVar var1 var2 rscale = some result ∧ result.value = var1.value * var2.value :=
  mulVar_exact_of_room h1.digitsOk h2.digitsOk hrscale hscale
    (hroom.imp_right fun hscales => ⟨⟨h1, h2⟩, hscales⟩)

end Product

end GreenPipeline.L1.Numeric
