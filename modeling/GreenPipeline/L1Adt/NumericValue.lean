import GreenPipeline.L1Adt.NumericVar

/-!
# Values of numeric variables

The rational number a variable stands for, and what stripping, comparing, adding and subtracting
do to it.

Results:

* `stripVar_value`, `stripVar_normalised`: stripping keeps the value and gives the normal form.
* `cmpVar_eq`: the comparison of two variables is the order of their values.
* `addVar_value`, `subVar_value`: sums and differences are exact, and normalised.
-/
namespace GreenPipeline.L1.Numeric

open GreenPipeline.Core.Positional List

theorem NBASE_pos : 0 < NBASE := by decide

theorem NBASE_ne_zero : NBASE ≠ 0 := by decide

theorem one_lt_NBASE : 1 < NBASE := by decide

def NumericSign.factor : NumericSign → ℚ
  | .pos => 1
  | .neg => -1

/-- The value without the sign. -/
def NumericVar.absValue (var : NumericVar) : ℚ := fixedPoint NBASE var.digits var.weight

/-- The value a variable represents. -/
def NumericVar.value (var : NumericVar) : ℚ := var.sign.factor * var.absValue

/-- Every digit is a digit. -/
def NumericVar.DigitsOk (var : NumericVar) : Prop := Digits NBASE var.digits

/-- The normal form: no zeros at the ends, and zero has weight 0 and is positive. -/
structure Normalised (var : NumericVar) : Prop where
  digitsOk : var.DigitsOk
  stripped : Stripped var.digits
  zero : var.digits = [] → var.sign = .pos ∧ var.weight = 0

variable {var var1 var2 : NumericVar}

theorem NumericVar.DigitsOk.absValue_nonneg (h : var.DigitsOk) : 0 ≤ var.absValue :=
  h.fixedPoint_nonneg NBASE_pos _

@[simp] theorem absValue_zeroVar (dscale : ℤ) : (zeroVar dscale).absValue = 0 := fixedPoint_nil ..

@[simp] theorem value_zeroVar (dscale : ℤ) : (zeroVar dscale).value = 0 := by
  simp [NumericVar.value]

theorem zeroVar_normalised (dscale : ℤ) : Normalised (zeroVar dscale) where
  digitsOk := by
    intro d hd
    cases hd
  stripped := by simp [zeroVar, Stripped]
  zero := fun _ => ⟨rfl, rfl⟩

/-! ## Stripping -/

theorem stripVar_absValue (var : NumericVar) : (stripVar var).absValue = var.absValue := by
  have hkeep : fixedPoint NBASE ((var.digits.dropWhile (· = 0)).rdropWhile (· = 0))
      (var.weight - (var.digits.takeWhile (· = 0)).length) =
      var.absValue := by
    rw [fixedPoint_rdropWhile NBASE_ne_zero, fixedPoint_dropWhile NBASE_ne_zero]
    rfl
  unfold stripVar
  dsimp only
  split
  · rename_i hnil
    rw [hnil, fixedPoint_nil] at hkeep
    rw [← hkeep]
    exact fixedPoint_nil ..
  · exact hkeep

theorem stripVar_sign (var : NumericVar) :
    (stripVar var).sign = var.sign ∨ (stripVar var).absValue = 0 := by
  unfold stripVar
  dsimp only
  split
  · exact Or.inr (fixedPoint_nil ..)
  · exact Or.inl rfl

theorem stripVar_value (var : NumericVar) : (stripVar var).value = var.value := by
  unfold NumericVar.value
  rw [stripVar_absValue]
  rcases stripVar_sign var with hsign | hzero
  · rw [hsign]
  · rw [stripVar_absValue] at hzero
    rw [hzero, mul_zero, mul_zero]

@[simp] theorem stripVar_dscale (var : NumericVar) : (stripVar var).dscale = var.dscale := by
  unfold stripVar
  dsimp only
  split <;> rfl

theorem stripVar_normalised (h : var.DigitsOk) : Normalised (stripVar var) := by
  have hstripped := stripped_of_dropWhile var.digits
  unfold stripVar
  dsimp only
  split
  · exact ⟨fun d hd => (by cases hd), by simp [Stripped], fun _ => ⟨rfl, rfl⟩⟩
  · rename_i hne
    have hdigits : Digits NBASE ((var.digits.dropWhile (· = 0)).rdropWhile (· = 0)) := by
      intro d hd
      exact h d ((dropWhile_sublist _).subset (( rdropWhile_prefix _ _).subset hd))
    exact ⟨hdigits, hstripped, fun hnil => absurd hnil hne⟩

/-! ## Comparing -/

/-- The order of two numbers as the code returns it. -/
def orderOf (x y : ℚ) : ℤ := if y < x then 1 else if x < y then -1 else 0

theorem orderOf_of_lt {x y : ℚ} (h : x < y) : orderOf x y = -1 := by
  rw [orderOf, if_neg (not_lt.mpr h.le), if_pos h]

theorem orderOf_of_gt {x y : ℚ} (h : y < x) : orderOf x y = 1 := by rw [orderOf, if_pos h]

@[simp] theorem orderOf_self (x : ℚ) : orderOf x x = 0 := by simp [orderOf]

theorem orderOf_neg (x y : ℚ) : orderOf (-x) (-y) = orderOf y x := by simp [orderOf]

theorem orderOf_add_left (z x y : ℚ) : orderOf (z + x) (z + y) = orderOf x y := by simp [orderOf]

theorem orderOf_eq_zero {x y : ℚ} : orderOf x y = 0 ↔ x = y := by
  constructor
  · intro h
    rcases lt_trichotomy x y with hlt | heq | hgt
    · rw [orderOf_of_lt hlt] at h
      cases h
    · exact heq
    · rw [orderOf_of_gt hgt] at h
      cases h
  · rintro rfl
    exact orderOf_self x

variable {ds : List ℤ}

theorem any_ne_zero_iff (hds : Digits NBASE ds) (w : ℤ) :
    ds.any (· ≠ 0) = true ↔ 0 < fixedPoint NBASE ds w := by
  have hnonneg := hds.fixedPoint_nonneg NBASE_pos w
  rw [hnonneg.lt_iff_ne', Ne, hds.fixedPoint_eq_zero_iff NBASE_pos w]
  simp

section Compare

variable {xs ys : List ℤ} (hx : Digits NBASE xs) (hy : Digits NBASE ys)
include hx hy

theorem cmpRest_eq (w1 w2 : ℤ) (h : xs = [] ∨ ys = []) :
    cmpRest xs ys = orderOf (fixedPoint NBASE xs w1) (fixedPoint NBASE ys w2) := by
  have hnonneg1 := hx.fixedPoint_nonneg NBASE_pos w1
  have hnonneg2 := hy.fixedPoint_nonneg NBASE_pos w2
  unfold cmpRest orderOf
  simp only [any_ne_zero_iff hx w1, any_ne_zero_iff hy w2]
  rcases h with rfl | rfl
  · simp only [fixedPoint_nil, lt_irrefl, if_false, not_lt.mpr hnonneg2]
  · simp only [fixedPoint_nil, lt_irrefl, if_false, not_lt.mpr hnonneg1]

omit hx hy in
theorem cmpCommon_eq (hx : Digits NBASE xs) (hy : Digits NBASE ys) (w : ℤ) :
    cmpCommon xs ys = orderOf (fixedPoint NBASE xs w) (fixedPoint NBASE ys w) := by
  induction xs generalizing ys w with
  | nil => exact cmpRest_eq hx hy w w (Or.inl rfl)
  | cons x xs ih =>
    cases ys with
    | nil => exact cmpRest_eq hx hy w w (Or.inr rfl)
    | cons y ys =>
      obtain ⟨hxr, hxs⟩ := hx.of_cons
      obtain ⟨hyr, hys⟩ := hy.of_cons
      have hpow : (0 : ℚ) < (NBASE : ℚ) ^ w := zpow_pos (by exact_mod_cast NBASE_pos) w
      have hlow1 := hxs.fixedPoint_nonneg NBASE_pos (w - 1)
      have hlow2 := hys.fixedPoint_nonneg NBASE_pos (w - 1)
      have hhigh1 := hxs.fixedPoint_lt NBASE_pos (w - 1)
      have hhigh2 := hys.fixedPoint_lt NBASE_pos (w - 1)
      rw [sub_add_cancel] at hhigh1 hhigh2
      rw [cmpCommon, fixedPoint_cons NBASE_ne_zero, fixedPoint_cons NBASE_ne_zero]
      by_cases hne : x - y ≠ 0
      · rw [if_pos hne]
        -- the digits after the first that differs are worth less than one there
        split
        · have hone : (y : ℚ) + 1 ≤ x := by exact_mod_cast (by omega)
          have hscaled := mul_le_mul_of_nonneg_right hone hpow.le
          rw [orderOf_of_gt (by linarith)]
        · have hone : (x : ℚ) + 1 ≤ y := by exact_mod_cast (by omega)
          have hscaled := mul_le_mul_of_nonneg_right hone hpow.le
          rw [orderOf_of_lt (by linarith)]
      · have heq : x = y := by omega
        rw [if_neg hne, heq, orderOf_add_left]
        exact ih hxs hys (w - 1)

end Compare

/-- What is skipped is zero, or the value is too large for the weight of the other. -/
theorem skipAbove_none {other : ℤ} {w : ℤ} (hds : Digits NBASE ds)
    (h : skipAbove other ds w = none) :
    (NBASE : ℚ) ^ (other + 1) ≤ fixedPoint NBASE ds w := by
  induction ds generalizing w with
  | nil => simp [skipAbove] at h
  | cons d ds ih =>
    obtain ⟨hd, hrest⟩ := hds.of_cons
    rw [skipAbove] at h
    split at h
    · rename_i hw
      split at h
      · rename_i hne
        calc
          (NBASE : ℚ) ^ (other + 1) ≤ (NBASE : ℚ) ^ w :=
            zpow_le_zpow_right₀ (by exact_mod_cast one_lt_NBASE.le) (by omega)
          _ ≤ fixedPoint NBASE (d :: ds) w := hds.zpow_le_fixedPoint NBASE_pos hne w
      · rename_i hzero
        rw [fixedPoint_cons NBASE_ne_zero, not_not.mp hzero, Int.cast_zero, zero_mul, zero_add]
        exact ih hrest h
    · cases h

theorem skipAbove_some {other : ℤ} {es : List ℤ} {w w' : ℤ} (hds : Digits NBASE ds)
    (h : skipAbove other ds w = some (es, w')) :
    fixedPoint NBASE es w' = fixedPoint NBASE ds w ∧ Digits NBASE es ∧ (other < w → other ≤ w') ∧
    (w ≤ other → w' = w) ∧ (w' ≤ other ∨ es = []) := by
  induction ds generalizing w with
  | nil =>
    obtain ⟨rfl, rfl⟩ := h
    exact ⟨by simp, hds, fun h => h.le, fun _ => rfl, Or.inr rfl⟩
  | cons d ds ih =>
    obtain ⟨hd, hrest⟩ := hds.of_cons
    rw [skipAbove] at h
    split at h
    · rename_i hw
      split at h
      · cases h
      · rename_i hzero
        obtain ⟨hval, hes, habove, hbelow, hend⟩ := ih hrest h
        refine ⟨?_, hes, fun _ => ?_, fun hle => absurd hle (not_le.mpr hw), hend⟩
        · rw [hval, fixedPoint_cons NBASE_ne_zero, not_not.mp hzero, Int.cast_zero,
            zero_mul, zero_add]
        · rcases lt_or_ge other (w - 1) with hlt | hge
          · exact habove hlt
          · omega
    · rename_i hw
      obtain ⟨rfl, rfl⟩ := h
      exact ⟨rfl, hds, fun hlt => absurd hlt hw, fun _ => rfl, Or.inl (not_lt.mp hw)⟩

theorem cmpAbsCommon_eq {ds1 ds2 : List ℤ} {w1 w2 : ℤ} (h1 : Digits NBASE ds1)
    (h2 : Digits NBASE ds2) :
    cmpAbsCommon ds1 w1 ds2 w2 = orderOf (fixedPoint NBASE ds1 w1) (fixedPoint NBASE ds2 w2) := by
  unfold cmpAbsCommon
  split
  · rename_i hskip
    rw [orderOf_of_gt (lt_of_lt_of_le (h2.fixedPoint_lt NBASE_pos w2) (skipAbove_none h1 hskip))]
  · rename_i es1 v1 hskip
    obtain ⟨hval1, hes1, habove1, hbelow1, hend1⟩ := skipAbove_some h1 hskip
    rw [← hval1]
    split
    · rename_i hskip2
      rw [orderOf_of_lt
        (lt_of_lt_of_le (hes1.fixedPoint_lt NBASE_pos v1) (skipAbove_none h2 hskip2))]
    · rename_i es2 v2 hskip2
      obtain ⟨hval2, hes2, habove2, hbelow2, hend2⟩ := skipAbove_some h2 hskip2
      rw [← hval2]
      split
      · rename_i heq
        rw [heq]
        exact cmpCommon_eq hes1 hes2 v2
      · rename_i hne
        -- the weights still differ: the side with the larger one has run out of digits
        apply cmpRest_eq hes1 hes2
        rcases hend1 with hle | hnil
        · rcases hend2 with hle2 | hnil2
          · exfalso
            rcases lt_or_ge v1 w2 with hlt | hge
            · omega
            · omega
          · exact Or.inr hnil2
        · exact Or.inl hnil

theorem cmpAbs_eq (h1 : var1.DigitsOk) (h2 : var2.DigitsOk) :
    cmpAbs var1 var2 = orderOf var1.absValue var2.absValue :=
  cmpAbsCommon_eq h1 h2

theorem absValue_pos (h : var.DigitsOk) (hstripped : Stripped var.digits) (hne : var.digits ≠ []) :
    0 < var.absValue := by
  unfold NumericVar.absValue
  unfold NumericVar.DigitsOk at h
  obtain ⟨x, xs, hcons⟩ := exists_cons_of_ne_nil hne
  rw [hcons] at h hstripped ⊢
  have hx : x ≠ 0 := fun hzero => hstripped.1 (by rw [hzero]; rfl)
  exact lt_of_lt_of_le (zpow_pos (by exact_mod_cast NBASE_pos) _)
    (h.zpow_le_fixedPoint NBASE_pos hx _)

theorem absValue_of_nil (h : var.digits = []) : var.absValue = 0 := by
  unfold NumericVar.absValue
  rw [h, fixedPoint_nil]

theorem value_of_pos (h : var.sign = .pos) : var.value = var.absValue := by
  rw [NumericVar.value, h, NumericSign.factor, one_mul]

theorem value_of_neg (h : var.sign = .neg) : var.value = -var.absValue := by
  rw [NumericVar.value, h, NumericSign.factor, neg_one_mul]

theorem abs_value (h : var.DigitsOk) : |var.value| = var.absValue := by
  cases hs : var.sign with
  | pos => rw [value_of_pos hs, abs_of_nonneg h.absValue_nonneg]
  | neg => rw [value_of_neg hs, abs_neg, abs_of_nonneg h.absValue_nonneg]

theorem NumericSign.eq_neg_of_ne_pos {sign : NumericSign} (h : sign ≠ .pos) : sign = .neg := by
  cases sign
  · exact absurd rfl h
  · rfl

theorem Normalised.absValue_pos (h : Normalised var) (hne : var.digits ≠ []) : 0 < var.absValue :=
  Numeric.absValue_pos h.digitsOk h.stripped hne

theorem cmpVar_eq (h1 : Normalised var1) (h2 : Normalised var2) :
    cmpVar var1 var2 = orderOf var1.value var2.value := by
  unfold cmpVar
  by_cases hnil1 : var1.digits = []
  · rw [if_pos hnil1, value_of_pos (h1.zero hnil1).1, absValue_of_nil hnil1]
    by_cases hnil2 : var2.digits = []
    · rw [if_pos hnil2, value_of_pos (h2.zero hnil2).1, absValue_of_nil hnil2, orderOf_self]
    · have hpos := h2.absValue_pos hnil2
      rw [if_neg hnil2]
      cases hsign : var2.sign with
      | pos => rw [if_neg (by decide), value_of_pos hsign, orderOf_of_lt hpos]
      | neg => rw [if_pos rfl, value_of_neg hsign, orderOf_of_gt (neg_neg_of_pos hpos)]
  rw [if_neg hnil1]
  have hpos1 := h1.absValue_pos hnil1
  by_cases hnil2 : var2.digits = []
  · rw [if_pos hnil2, value_of_pos (h2.zero hnil2).1, absValue_of_nil hnil2]
    cases hsign : var1.sign with
    | pos => rw [if_pos rfl, value_of_pos hsign, orderOf_of_gt hpos1]
    | neg => rw [if_neg (by decide), value_of_neg hsign, orderOf_of_lt (neg_neg_of_pos hpos1)]
  rw [if_neg hnil2]
  have hpos2 := h2.absValue_pos hnil2
  cases hsign1 : var1.sign with
  | pos =>
    rw [if_pos rfl, value_of_pos hsign1]
    cases hsign2 : var2.sign with
    | pos => rw [if_neg (by decide), value_of_pos hsign2, cmpAbs_eq h1.digitsOk h2.digitsOk]
    | neg => rw [if_pos rfl, value_of_neg hsign2, orderOf_of_gt (by linarith)]
  | neg =>
    rw [if_neg (by decide), value_of_neg hsign1]
    cases hsign2 : var2.sign with
    | pos => rw [if_pos rfl, value_of_pos hsign2, orderOf_of_lt (by linarith)]
    | neg =>
      rw [if_neg (by decide), value_of_neg hsign2, orderOf_neg, cmpAbs_eq h2.digitsOk h1.digitsOk]

/-! ## Adding and subtracting absolute values -/

theorem addDigit_value (x y c : ℤ) :
    (addDigit x y c).2 + NBASE * (addDigit x y c).1 = x + 1 * y + c := by
  unfold addDigit
  dsimp only
  split
  · ring
  · ring

theorem subDigit_value (x y c : ℤ) :
    (subDigit x y c).2 + NBASE * (subDigit x y c).1 = x + -1 * y + c := by
  unfold subDigit
  dsimp only
  split
  · ring
  · ring

section

variable {x y c : ℤ} (hx : 0 ≤ x ∧ x < NBASE) (hy : 0 ≤ y ∧ y < NBASE)
include hx hy

theorem addDigit_range (hc : 0 ≤ c ∧ c ≤ 1) :
    (0 ≤ (addDigit x y c).1 ∧ (addDigit x y c).1 ≤ 1) ∧ 0 ≤ (addDigit x y c).2 ∧
    (addDigit x y c).2 < NBASE := by
  unfold addDigit
  dsimp only
  split
  · omega
  · omega

theorem subDigit_range (hc : -1 ≤ c ∧ c ≤ 0) :
    (-1 ≤ (subDigit x y c).1 ∧ (subDigit x y c).1 ≤ 0) ∧ 0 ≤ (subDigit x y c).2 ∧
    (subDigit x y c).2 < NBASE := by
  unfold subDigit
  dsimp only
  split
  · omega
  · omega

end

/-- The digits and carries of the loop are in range if those of one round are. -/
theorem digitLoop_digits {digit : ℤ → ℤ → ℤ → ℤ × ℤ} {P : ℤ → Prop} (h1 : var1.DigitsOk)
    (h2 : var2.DigitsOk) (h0 : P 0)
    (hdigit : ∀ {x y c : ℤ}, 0 ≤ x ∧ x < NBASE → 0 ≤ y ∧ y < NBASE → P c → P (digit x y c).1 ∧
      0 ≤ (digit x y c).2 ∧ (digit x y c).2 < NBASE) (resRscale resNdigits : ℤ) :
    P (digitLoop digit var1 var2 resRscale resNdigits).1 ∧
    Digits NBASE (digitLoop digit var1 var2 resRscale resNdigits).2 :=
  digits_foldr (fun (i : ℕ) c =>
    digit (operandDigit var1 resRscale resNdigits i) (operandDigit var2 resRscale resNdigits i) c)
    (range resNdigits.toNat)
      (fun _ _ _ hc => hdigit (digitAt_range NBASE_pos h1 _) (digitAt_range NBASE_pos h2 _) hc) h0

/-- An operand, its digits aligned with the result's. -/
theorem absValue_eq_operandDigits {resRscale resWeight : ℤ} {n : ℕ}
    (hn : resRscale + resWeight + 1 = n) (h : var.DigitsOk) (hr : var.rscale ≤ resRscale)
    (hlt : var.absValue < (NBASE : ℚ) ^ (resWeight + 1)) :
    var.absValue = horner NBASE ((List.range n).map (operandDigit var resRscale n)) *
      (NBASE : ℚ) ^ (resWeight + 1 - n) := by
  have hw : var.weight - (var.weight - resWeight) = resWeight := by ring
  have hwin :=
    fixedPoint_window_of_lt NBASE_pos h (s := var.weight - resWeight) (n := n) (w := var.weight)
    (by unfold NumericVar.rscale NumericVar.ndigits at hr; omega) (by rw [hw]; exact hlt)
  rw [hw, fixedPoint, length_window] at hwin
  have hindex : window var.digits (var.weight - resWeight) n =
      (range n).map (operandDigit var resRscale n) := by
    apply map_congr_left
    intro i _
    congr 1
    omega
  rw [hindex] at hwin
  exact hwin.symm

/-- The loop computes the sum, or the difference, of the absolute values up to what is carried
out. -/
theorem digitLoop_value {digit : ℤ → ℤ → ℤ → ℤ × ℤ} {k : ℤ}
    (hdigit : ∀ x y c, (digit x y c).2 + NBASE * (digit x y c).1 = x + k * y + c)
    {resRscale resWeight : ℤ} (hpos : 0 ≤ resRscale + resWeight + 1) (h1 : var1.DigitsOk)
    (h2 : var2.DigitsOk) (hr1 : var1.rscale ≤ resRscale) (hr2 : var2.rscale ≤ resRscale)
    (hlt1 : var1.absValue < (NBASE : ℚ) ^ (resWeight + 1))
    (hlt2 : var2.absValue < (NBASE : ℚ) ^ (resWeight + 1)) :
    fixedPoint NBASE (digitLoop digit var1 var2 resRscale (resRscale + resWeight + 1)).2 resWeight +
        (digitLoop digit var1 var2 resRscale (resRscale + resWeight + 1)).1 *
          (NBASE : ℚ) ^ (resWeight + 1) =
      var1.absValue + k * var2.absValue := by
  obtain ⟨n, hn⟩ := Int.eq_ofNat_of_zero_le hpos
  obtain ⟨hlen, hval⟩ :=
    horner_foldr (b := NBASE)
      (fun i => operandDigit var1 resRscale n i + k * operandDigit var2 resRscale n i)
    (fun i c => digit (operandDigit var1 resRscale n i) (operandDigit var2 resRscale n i) c)
      (fun i c => hdigit _ _ c) (range n) 0
  change (digitLoop digit var1 var2 resRscale n).2.length = _ at hlen
  change horner NBASE (digitLoop digit var1 var2 resRscale n).2 +
    _ * (digitLoop digit var1 var2 resRscale n).1 = _ at hval
  rw [hn]
  generalize digitLoop digit var1 var2 resRscale n = s at hlen hval
  rw [horner_map_add, length_range, add_zero] at hval
  rw [length_range] at hlen
  rw [absValue_eq_operandDigits hn h1 hr1 hlt1, absValue_eq_operandDigits hn h2 hr2 hlt2,
    fixedPoint, hlen]
  have hvalQ := congrArg (Int.cast (R := ℚ)) hval
  push_cast at hvalQ
  have hpow : (NBASE : ℚ) ^ (resWeight + 1) =
      (NBASE : ℚ) ^ n * (NBASE : ℚ) ^ (resWeight + 1 - n) := by
    rw [← zpow_natCast, ← zpow_add₀ (by exact_mod_cast NBASE_ne_zero)]
    congr 1
    ring
  calc
    (horner NBASE s.2 : ℚ) * (NBASE : ℚ) ^ (resWeight + 1 - n) + s.1 * (NBASE : ℚ) ^ (resWeight + 1)
      = (horner NBASE s.2 + (NBASE : ℚ) ^ n * s.1) * (NBASE : ℚ) ^ (resWeight + 1 - n) := by
        rw [hpow]; ring
    _ = _ := by rw [hvalQ]; ring

theorem absValue_lt (h : var.DigitsOk) {w : ℤ} (hw : var.weight ≤ w) :
    var.absValue < (NBASE : ℚ) ^ (w + 1) :=
  lt_of_lt_of_le (h.fixedPoint_lt NBASE_pos _)
    (zpow_le_zpow_right₀ (by exact_mod_cast one_lt_NBASE.le) (by omega))

theorem addAbs_spec (h1 : var1.DigitsOk) (h2 : var2.DigitsOk) :
    Normalised (addAbs var1 var2) ∧ (addAbs var1 var2).absValue = var1.absValue + var2.absValue ∧
      (addAbs var1 var2).dscale = max var1.dscale var2.dscale := by
  unfold addAbs
  dsimp only
  set resWeight := max var1.weight var2.weight + 1 with hweight
  set resRscale := max var1.rscale var2.rscale with hrscale
  have hpos : 0 < resRscale + resWeight + 1 := by
    have hle : var1.rscale ≤ resRscale := le_max_left ..
    unfold NumericVar.rscale NumericVar.ndigits at hle
    omega
  rw [if_neg (not_le.mpr hpos)]
  obtain ⟨hcarry, hdigits⟩ :=
    digitLoop_digits (P := fun c => 0 ≤ c ∧ c ≤ 1) h1 h2 (by decide) addDigit_range resRscale
      (resRscale + resWeight + 1)
  -- the operands are less than one in the extra digit, so nothing is carried out of it
  have hlt1 : var1.absValue < (NBASE : ℚ) ^ resWeight := by
    rw [hweight]
    exact absValue_lt h1 (le_max_left ..)
  have hlt2 : var2.absValue < (NBASE : ℚ) ^ resWeight := by
    rw [hweight]
    exact absValue_lt h2 (le_max_right ..)
  have hgrow : 2 * (NBASE : ℚ) ^ resWeight < (NBASE : ℚ) ^ (resWeight + 1) := by
    have hpow : (0 : ℚ) < (NBASE : ℚ) ^ resWeight := zpow_pos (by exact_mod_cast NBASE_pos) _
    have htwo : (2 : ℚ) < NBASE := by norm_num [NBASE]
    have hstep : (NBASE : ℚ) ^ (resWeight + 1) = (NBASE : ℚ) ^ resWeight * NBASE :=
      zpow_add_one₀ (by exact_mod_cast NBASE_ne_zero) _
    rw [hstep, mul_comm]
    exact mul_lt_mul_of_pos_left htwo hpow
  have hpow : (0 : ℚ) < (NBASE : ℚ) ^ resWeight := zpow_pos (by exact_mod_cast NBASE_pos) _
  have hval :=
    digitLoop_value addDigit_value hpos.le h1 h2 (le_max_left ..) (le_max_right ..)
      (by linarith) (by linarith)
  have hnonneg := hdigits.fixedPoint_nonneg NBASE_pos resWeight
  have hzero : (digitLoop addDigit var1 var2 resRscale (resRscale + resWeight + 1)).1 = 0 := by
    by_contra hne
    have hone : (digitLoop addDigit var1 var2 resRscale (resRscale + resWeight + 1)).1 = 1 := by
      omega
    rw [hone, Int.cast_one, one_mul, one_mul] at hval
    linarith
  rw [hzero, Int.cast_zero, zero_mul, add_zero, Int.cast_one, one_mul] at hval
  refine ⟨stripVar_normalised hdigits, ?_, stripVar_dscale _⟩
  rw [stripVar_absValue]
  exact hval

/-- The larger absolute value comes first. -/
theorem subAbs_spec (h1 : var1.DigitsOk) (h2 : var2.DigitsOk)
    (hlt : var2.absValue < var1.absValue) :
    Normalised (subAbs var1 var2) ∧ (subAbs var1 var2).absValue = var1.absValue - var2.absValue ∧
      (subAbs var1 var2).dscale = max var1.dscale var2.dscale := by
  unfold subAbs
  dsimp only
  set resRscale := max var1.rscale var2.rscale with hrscale
  have hpos : 0 < resRscale + var1.weight + 1 := by
    have hle : var1.rscale ≤ resRscale := le_max_left ..
    have hne : var1.digits ≠ [] := fun hnil => by
      rw [absValue_of_nil hnil] at hlt
      exact absurd hlt (not_lt.mpr h2.absValue_nonneg)
    have hlen := length_pos_iff.mpr hne
    unfold NumericVar.rscale NumericVar.ndigits at hle
    omega
  rw [if_neg (not_le.mpr hpos)]
  obtain ⟨hborrow, hdigits⟩ :=
    digitLoop_digits (P := fun c => -1 ≤ c ∧ c ≤ 0) h1 h2 (by decide) subDigit_range resRscale
    (resRscale + var1.weight + 1)
  have hlt1 := absValue_lt h1 (le_refl var1.weight)
  have hval :=
    digitLoop_value subDigit_value hpos.le h1 h2 (le_max_left ..) (le_max_right ..) hlt1
      (lt_trans hlt hlt1)
  have hhigh := hdigits.fixedPoint_lt NBASE_pos var1.weight
  have hzero : (digitLoop subDigit var1 var2 resRscale (resRscale + var1.weight + 1)).1 = 0 := by
    by_contra hne
    have hone : (digitLoop subDigit var1 var2 resRscale (resRscale + var1.weight + 1)).1 = -1 := by
      omega
    rw [hone] at hval
    push_cast at hval
    linarith
  rw [hzero, Int.cast_zero, zero_mul, add_zero] at hval
  push_cast at hval
  refine ⟨stripVar_normalised hdigits, ?_, stripVar_dscale _⟩
  rw [stripVar_absValue]
  exact hval.trans (by ring)

/-! ## Adding and subtracting -/

theorem NumericSign.factor_opposite (sign : NumericSign) : sign.opposite.factor = -sign.factor := by
  cases sign
  · rfl
  · exact (neg_neg 1).symm

theorem value_with_sign (var : NumericVar) (sign : NumericSign) :
    NumericVar.value { var with sign := sign } = sign.factor * var.absValue := rfl

theorem Normalised.with_sign (h : Normalised var) (sign : NumericSign) (hne : var.absValue ≠ 0) :
    Normalised { var with sign := sign } where
  digitsOk := h.digitsOk
  stripped := h.stripped
  zero := fun hnil => absurd (absValue_of_nil hnil) hne

theorem subCompared_spec (sign : NumericSign) (h1 : var1.DigitsOk) (h2 : var2.DigitsOk) :
    Normalised (subCompared sign var1 var2) ∧
    (subCompared sign var1 var2).value = sign.factor * (var1.absValue - var2.absValue) ∧
      (subCompared sign var1 var2).dscale = max var1.dscale var2.dscale := by
  unfold subCompared
  rw [cmpAbs_eq h1 h2]
  rcases lt_trichotomy var1.absValue var2.absValue with hlt | heq | hgt
  · obtain ⟨hnorm, hval, hscale⟩ := subAbs_spec h2 h1 hlt
    rw [orderOf_of_lt hlt, if_neg (by decide), if_neg (by decide)]
    refine ⟨hnorm.with_sign _ (by rw [hval]; exact (sub_pos.mpr hlt).ne'),
      ?_, by rw [hscale, max_comm]⟩
    rw [value_with_sign, hval, NumericSign.factor_opposite]
    ring
  · rw [heq, orderOf_self, if_pos rfl, sub_self, mul_zero]
    exact ⟨zeroVar_normalised _, value_zeroVar _, rfl⟩
  · obtain ⟨hnorm, hval, hscale⟩ := subAbs_spec h1 h2 hgt
    rw [orderOf_of_gt hgt, if_neg (by decide), if_pos rfl]
    refine ⟨hnorm.with_sign _ (by rw [hval]; exact (sub_pos.mpr hgt).ne'), ?_, hscale⟩
    rw [value_with_sign, hval]

/-- Zero is positive, so the sum of two values of sign `sign` is normalised if it is not zero or
`sign` is positive. -/
theorem addAbs_with_sign (sign : NumericSign) (h1 : var1.DigitsOk) (h2 : var2.DigitsOk) :
    (sign = .pos ∨ var1.absValue + var2.absValue ≠ 0 →
      Normalised { addAbs var1 var2 with sign := sign }) ∧
      NumericVar.value { addAbs var1 var2 with sign := sign } =
        sign.factor * (var1.absValue + var2.absValue) ∧
      (addAbs var1 var2).dscale = max var1.dscale var2.dscale := by
  obtain ⟨hnorm, hval, hscale⟩ := addAbs_spec h1 h2
  refine ⟨?_, by rw [value_with_sign, hval], hscale⟩
  intro hsign
  rcases hsign with rfl | hne
  · exact { digitsOk := hnorm.digitsOk, stripped := hnorm.stripped, zero := fun hnil => ⟨rfl,
      (hnorm.zero hnil).2⟩ }
  · exact hnorm.with_sign sign (by rw [hval]; exact hne)

theorem Normalised.absValue_pos_of_neg (h : Normalised var) (hsign : var.sign = .neg) :
    0 < var.absValue := by
  apply h.absValue_pos
  intro hnil
  rw [(h.zero hnil).1] at hsign
  cases hsign

theorem addVar_value (h1 : var1.DigitsOk) (h2 : var2.DigitsOk) :
    (addVar var1 var2).value = var1.value + var2.value ∧
    (addVar var1 var2).dscale = max var1.dscale var2.dscale := by
  unfold addVar
  split
  · rename_i hs1 hs2
    obtain ⟨-, hval, hscale⟩ := addAbs_with_sign .pos h1 h2
    exact ⟨by rw [hval, value_of_pos hs1, value_of_pos hs2, NumericSign.factor, one_mul], hscale⟩
  · rename_i hs1 hs2
    obtain ⟨-, hval, hscale⟩ := subCompared_spec .pos h1 h2
    exact ⟨by rw [hval, value_of_pos hs1, value_of_neg hs2, NumericSign.factor]; ring, hscale⟩
  · rename_i hs1 hs2
    obtain ⟨-, hval, hscale⟩ := subCompared_spec .neg h1 h2
    exact ⟨by rw [hval, value_of_neg hs1, value_of_pos hs2, NumericSign.factor]; ring, hscale⟩
  · rename_i hs1 hs2
    obtain ⟨-, hval, hscale⟩ := addAbs_with_sign .neg h1 h2
    exact ⟨by rw [hval, value_of_neg hs1, value_of_neg hs2, NumericSign.factor]; ring, hscale⟩

theorem addVar_normalised (h1 : Normalised var1) (h2 : Normalised var2) :
    Normalised (addVar var1 var2) := by
  unfold addVar
  split
  · exact (addAbs_with_sign .pos h1.digitsOk h2.digitsOk).1 (Or.inl rfl)
  · exact (subCompared_spec .pos h1.digitsOk h2.digitsOk).1
  · exact (subCompared_spec .neg h1.digitsOk h2.digitsOk).1
  · rename_i hs1 hs2
    have hpos1 := h1.absValue_pos_of_neg hs1
    have hpos2 := h2.absValue_pos_of_neg hs2
    exact (addAbs_with_sign .neg h1.digitsOk h2.digitsOk).1 (Or.inr (by linarith))

theorem addVar_digitsOk (h1 : var1.DigitsOk) (h2 : var2.DigitsOk) :
    (addVar var1 var2).DigitsOk := by
  unfold addVar
  split
  · exact (addAbs_spec h1 h2).1.digitsOk
  · exact (subCompared_spec .pos h1 h2).1.digitsOk
  · exact (subCompared_spec .neg h1 h2).1.digitsOk
  · exact (addAbs_spec h1 h2).1.digitsOk

/-- Subtracting is adding the opposite. -/
theorem subVar_eq_addVar (var1 var2 : NumericVar) :
    subVar var1 var2 = addVar var1 { var2 with sign := var2.sign.opposite } := by
  unfold subVar addVar
  cases var1.sign <;> cases var2.sign <;> rfl

theorem value_opposite (var : NumericVar) :
    NumericVar.value { var with sign := var.sign.opposite } = -var.value := by
  rw [value_with_sign, NumericSign.factor_opposite, NumericVar.value, neg_mul]

theorem subVar_value (h1 : var1.DigitsOk) (h2 : var2.DigitsOk) :
    (subVar var1 var2).value = var1.value - var2.value ∧
    (subVar var1 var2).dscale = max var1.dscale var2.dscale := by
  rw [subVar_eq_addVar, sub_eq_add_neg, ← value_opposite]
  exact addVar_value h1 h2

theorem subVar_normalised (h1 : Normalised var1) (h2 : Normalised var2) :
    Normalised (subVar var1 var2) := by
  unfold subVar
  split
  · exact (addAbs_with_sign .pos h1.digitsOk h2.digitsOk).1 (Or.inl rfl)
  · exact (subCompared_spec .pos h1.digitsOk h2.digitsOk).1
  · exact (subCompared_spec .neg h1.digitsOk h2.digitsOk).1
  · rename_i hs1 hs2
    have hpos1 := h1.absValue_pos_of_neg hs1
    have hnonneg2 := h2.digitsOk.absValue_nonneg
    exact (addAbs_with_sign .neg h1.digitsOk h2.digitsOk).1 (Or.inr (by linarith))

end GreenPipeline.L1.Numeric
