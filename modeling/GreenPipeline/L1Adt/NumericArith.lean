import GreenPipeline.L1Adt.NumericMul

/-!
# Numeric arithmetic

Sums, differences, products and comparisons of normalised variables against the values they stand
for.

Results:

* `arithmetic_exact`: sums, differences and comparisons are exact, and so are products as far as
  the guard digits reach.
* `longProduct_inexact`: they do not reach for two operands of 16386 digits each whose product is
  an integer.
-/
namespace GreenPipeline.L1.Numeric

open GreenPipeline.Core GreenPipeline.Core.Positional List Int

variable {var1 var2 : NumericVar}

/-- Sums and differences are exact; so are products if `rscale` has room for their digits and the
shorter operand has at most 5000 digits in base 10000, or `rscale` has room for the digits of both
operands. All results are normalised, and no 32-bit integer overflows. -/
theorem arithmetic_exact (h1 : Normalised var1) (h2 : Normalised var2) :
    (Normalised (addVar var1 var2) ∧ (addVar var1 var2).value = var1.value + var2.value ∧
      (addVar var1 var2).dscale = max var1.dscale var2.dscale) ∧
    (Normalised (subVar var1 var2) ∧ (subVar var1 var2).value = var1.value - var2.value ∧
      (subVar var1 var2).dscale = max var1.dscale var2.dscale) ∧
    (∀ rscale, ∃ result, mulVar var1 var2 rscale = some result ∧ Normalised result ∧
      result.dscale = rscale ∧
      (0 ≤ rscale → HasScale (var1.value * var2.value) rscale →
        (min var1.ndigits var2.ndigits ≤ 5000 ∨ ∃ f1 f2 : ℤ, HasScale var1.value f1 ∧
          HasScale var2.value f2 ∧ f1 + f2 ≤ rscale) →
        result.value = var1.value * var2.value)) ∧
    cmpVar var1 var2 = orderOf var1.value var2.value := by
  refine ⟨⟨addVar_normalised h1 h2, addVar_value h1.digitsOk h2.digitsOk⟩,
    ⟨subVar_normalised h1 h2, subVar_value h1.digitsOk h2.digitsOk⟩, ?_, cmpVar_eq h1 h2⟩
  intro rscale
  obtain ⟨result, hsome, hnorm, hdscale⟩ := mulVar_normalised h1.digitsOk h2.digitsOk rscale
  refine ⟨result, hsome, hnorm, hdscale, ?_⟩
  intro hrscale hscale hroom
  obtain ⟨result', hsome', hvalue⟩ := mulVar_exact h1 h2 hrscale hscale hroom
  rw [hsome, Option.some_inj] at hsome'
  rw [hsome', hvalue]

/-- 1.5 and -0.25: the sum, and the product with three fractional digits. -/
theorem arithmetic_exact_quarter :
    let var1 : NumericVar := { digits := [1, 5000], weight := 0, sign := .pos, dscale := 1 }
    let var2 : NumericVar := { digits := [2500], weight := -1, sign := .neg, dscale := 2 }
    Normalised var1 ∧ Normalised var2 ∧ (addVar var1 var2).value = 5 / 4 ∧
      ∃ result, mulVar var1 var2 3 = some result ∧ result.value = -3 / 8 := by
  intro var1 var2
  have h1 : Normalised var1 :=
    ⟨by unfold NumericVar.DigitsOk Digits; decide, by unfold Stripped; decide, by intro h; cases h⟩
  have h2 : Normalised var2 :=
    ⟨by unfold NumericVar.DigitsOk Digits; decide, by unfold Stripped; decide, by intro h; cases h⟩
  have hvalue1 : var1.value = 3 / 2 := by decide +kernel
  have hvalue2 : var2.value = -1 / 4 := by decide +kernel
  obtain ⟨⟨-, hsum, -⟩, -, hmul, -⟩ := arithmetic_exact h1 h2
  obtain ⟨result, hsome, -, -, hexact⟩ := hmul 3
  rw [hvalue1, hvalue2] at hsum hexact
  have hscale : HasScale (3 / 2 * (-1 / 4)) 3 := ⟨-375, by norm_num⟩
  refine ⟨h1, h2, hsum.trans (by norm_num), result, hsome,
    (hexact (by decide) hscale (Or.inl (by decide))).trans (by norm_num)⟩

/-! ## Digits of a number -/

/-- The last `n` digits of a number. -/
def digitsOf : ℕ → ℕ → List ℤ
  | 0, _ => []
  | n + 1, x => digitsOf n (x / 10000) ++ [((x % 10000 : ℕ) : ℤ)]

theorem digitsOf_length (n x : ℕ) : (digitsOf n x).length = n := by
  induction n generalizing x with
  | zero => rfl
  | succ n ih => rw [digitsOf, length_append, ih, length_singleton]

theorem digitsOf_digits (n x : ℕ) : Digits NBASE (digitsOf n x) := by
  induction n generalizing x with
  | zero =>
    intro d hd
    cases hd
  | succ n ih =>
    apply (ih _).append
    intro d hd
    rw [mem_singleton.mp hd]
    unfold NBASE
    omega

theorem horner_digitsOf {n x : ℕ} (h : x < 10000 ^ n) : horner NBASE (digitsOf n x) = x := by
  induction n generalizing x with
  | zero =>
    have hzero : x = 0 := by omega
    rw [hzero]
    rfl
  | succ n ih =>
    have hlt : x / 10000 < 10000 ^ n := by
      omega
    rw [digitsOf, horner_concat, ih hlt]
    unfold NBASE
    omega

/-- Digit `i` from the left. -/
theorem digitAt_digitsOf {n i : ℕ} (h : i < n) (x : ℕ) :
    digitAt (digitsOf n x) i = ((x / 10000 ^ (n - 1 - i) % 10000 : ℕ) : ℤ) := by
  induction n generalizing x with
  | zero => omega
  | succ n ih =>
    have hlen := digitsOf_length n (x / 10000)
    rw [digitsOf, digitAt, if_pos (natCast_nonneg i), toNat_natCast, getD_eq_getElem?_getD]
    rcases Nat.lt_or_ge i n with hlt | hge
    · have hi := ih hlt (x / 10000)
      rw [digitAt, if_pos (natCast_nonneg i), toNat_natCast, getD_eq_getElem?_getD] at hi
      rw [getElem?_append_left (by omega), hi, Nat.div_div_eq_div_mul, ← pow_succ',
        show n - 1 - i + 1 = n + 1 - 1 - i by omega]
    · have hin : i = n := by omega
      rw [getElem?_append_right (by omega), hlen, hin, Nat.sub_self]
      simp

/-- The sum of the products of digit `e` of `x` and digit `2 ^ d - 1 - e` of `y`, both counted
from the right, by halves. -/
def diagonal : ℕ → ℕ → ℕ → ℕ
  | 0, x, y => x % 10000 * (y % 10000)
  | d + 1, x, y =>
    diagonal d (x % 10000 ^ 2 ^ d) (y / 10000 ^ 2 ^ d) +
      diagonal d (x / 10000 ^ 2 ^ d) (y % 10000 ^ 2 ^ d)

theorem mod_pow_digit {x e h : ℕ} (he : e < h) :
    x % 10000 ^ h / 10000 ^ e % 10000 = x / 10000 ^ e % 10000 := by
  obtain ⟨k, rfl⟩ := Nat.exists_eq_add_of_lt he
  rw [show e + k + 1 = e + (k + 1) by ring, pow_add, Nat.mod_mul_right_div_self, pow_succ,
    Nat.mod_mul_left_mod]

theorem diagonal_eq (d x y : ℕ) : diagonal d x y = ∑ e ∈ Finset.range (2 ^ d),
    x / 10000 ^ e % 10000 * (y / 10000 ^ (2 ^ d - 1 - e) % 10000) := by
  induction d generalizing x y with
  | zero => simp [diagonal]
  | succ d ih =>
    rw [diagonal, ih, ih, pow_succ, mul_two, Finset.sum_range_add]
    congr 1
    · apply Finset.sum_congr rfl
      intro e he
      have hlt := Finset.mem_range.mp he
      rw [mod_pow_digit hlt, Nat.div_div_eq_div_mul, ← pow_add,
        show 2 ^ d + (2 ^ d - 1 - e) = 2 ^ d + 2 ^ d - 1 - e by omega]
    · apply Finset.sum_congr rfl
      intro e he
      have hlt := Finset.mem_range.mp he
      rw [Nat.div_div_eq_div_mul, ← pow_add, mod_pow_digit (by omega),
        show 2 ^ d - 1 - e = 2 ^ d + 2 ^ d - 1 - (2 ^ d + e) by omega]

/-! ## Long operands -/

/-- The first digit that is left out. -/
theorem fixedPoint_sub_take_ge {ds : List ℤ} (hds : Digits NBASE ds) (k : ℕ) (w : ℤ) :
    (digitAt ds k : ℚ) * (NBASE : ℚ) ^ (w - k) ≤
      fixedPoint NBASE ds w - fixedPoint NBASE (ds.take k) w := by
  rcases Nat.lt_or_ge k ds.length with hlong | hshort
  · obtain ⟨-, hdrop⟩ := digits_take_drop hds (k + 1)
    have hsplit : fixedPoint NBASE ds w =
        fixedPoint NBASE (ds.take (k + 1)) w +
        fixedPoint NBASE (ds.drop (k + 1)) (w - (k + 1 : ℕ)) := by
      conv_lhs => rw [← take_append_drop (k + 1) ds, fixedPoint_append NBASE_ne_zero,
        length_take_of_le (by omega)]
    have hlast : fixedPoint NBASE [digitAt ds k] (w - k) =
        digitAt ds k * (NBASE : ℚ) ^ (w - k) := by
      rw [fixedPoint_cons NBASE_ne_zero, fixedPoint_nil, add_zero]
    rw [hsplit, take_succ_digitAt hlong, fixedPoint_append NBASE_ne_zero,
      length_take_of_le hlong.le, hlast]
    have hrest := hdrop.fixedPoint_nonneg NBASE_pos (w - (k + 1 : ℕ))
    linarith
  · have hzero : digitAt ds k = 0 := by
      rw [digitAt, if_pos (natCast_nonneg k), toNat_natCast, getD_eq_default _ _ hshort]
    rw [hzero, take_of_length_le hshort, cast_zero, zero_mul, sub_self]

/-- What is left out is at least the products in the first place that is not computed. -/
theorem truncation_ge (h1 : var1.DigitsOk) (h2 : var2.DigitsOk) {n : ℕ}
    (hn : var1.digits.length + 2 ≤ n) :
    (∑ j ∈ Finset.range var1.digits.length,
      digitAt var1.digits j * digitAt var2.digits (n - j - 2 : ℕ) : ℤ) *
        (NBASE : ℚ) ^ (var1.weight + var2.weight + 2 - n) ≤
      var1.absValue * var2.absValue - truncatedProduct var1 var2 n := by
  rw [product_eq_sum, truncatedProduct, ← Finset.sum_sub_distrib, cast_sum, Finset.sum_mul]
  apply Finset.sum_le_sum
  intro j hj
  have hlt := Finset.mem_range.mp hj
  have hd : (0 : ℚ) ≤ digitAt var1.digits j := by exact_mod_cast (digitAt_range NBASE_pos h1 j).1
  have hge := fixedPoint_sub_take_ge h2 (n - j - 2) (var1.weight + var2.weight - j)
  have hweight : var1.weight + var2.weight - (j : ℤ) - (n - j - 2 : ℕ) =
      var1.weight + var2.weight + 2 - n := by omega
  rw [hweight] at hge
  rw [partialProduct, ← mul_sub, cast_mul, mul_assoc]
  exact mul_le_mul_of_nonneg_left hge hd

/-- `x` with half of its digits after the decimal point. -/
def halved (F x : ℕ) : NumericVar :=
  { digits := digitsOf (2 * F) x, weight := F - 1, sign := .pos, dscale := 4 * F }

theorem halved_value {F x : ℕ} (h : x < 10000 ^ (2 * F)) :
    (halved F x).value = x / (10000 : ℚ) ^ F := by
  have hexp : (F : ℤ) - 1 + 1 - ((2 * F : ℕ) : ℤ) = -F := by
    push_cast
    ring
  rw [value_of_pos rfl, NumericVar.absValue, halved, fixedPoint, horner_digitsOf h, digitsOf_length,
    hexp, zpow_neg, zpow_natCast, div_eq_mul_inv]
  norm_num [NBASE]

theorem halved_normalised {F x : ℕ} (hF : 0 < F) (hfirst : x / 10000 ^ (2 * F - 1) % 10000 ≠ 0)
    (hlast : x % 10000 ≠ 0) : Normalised (halved F x) where
  digitsOk := digitsOf_digits _ _
  stripped := by
    constructor
    · intro hhead
      have hhead' : (digitsOf (2 * F) x).head? = some 0 := hhead
      have hdigit := digitAt_digitsOf (show 0 < 2 * F by omega) x
      rw [Nat.cast_zero, digitAt, if_pos (le_refl 0), toNat_zero, getD_eq_getElem?_getD,
        ← head?_eq_getElem?, hhead', Option.getD_some, Nat.sub_zero] at hdigit
      exact hfirst (by exact_mod_cast hdigit.symm)
    · intro hend
      obtain ⟨n, hn⟩ : ∃ n, 2 * F = n + 1 := ⟨2 * F - 1, by omega⟩
      rw [halved, hn, digitsOf, getLast?_append] at hend
      simp at hend
      omega
  zero := by
    intro hnil
    have hlen := digitsOf_length (2 * F) x
    rw [show digitsOf (2 * F) x = [] from hnil, length_nil] at hlen
    omega

theorem halved_mulNdigits (F x y : ℕ) (hF : 0 < F) :
    (mulNdigits (halved F x) (halved F y) 0).toNat = 2 * F + 3 := by
  rw [mulNdigits_eq _ _ (le_refl 0)]
  unfold NumericVar.ndigits halved
  rw [digitsOf_length, digitsOf_length]
  dsimp only
  omega

/-- What is left out of the product of two halved numbers. -/
theorem halved_truncation {F d : ℕ} (hF : 2 * F = 2 + 2 ^ d) (x y : ℕ) :
    (diagonal d y x : ℚ) / 1000000000000 ≤
    (halved F x).absValue * (halved F y).absValue -
      truncatedProduct (halved F x) (halved F y) (2 * F + 3) := by
  have hok : ∀ z, (halved F z).DigitsOk := fun z => digitsOf_digits _ _
  have hlen : (halved F x).digits.length = 2 + 2 ^ d := by rw [← hF]; exact digitsOf_length _ _
  have hge := truncation_ge (hok x) (hok y) (n := 2 * F + 3) (by omega)
  have hexp : (halved F x).weight + (halved F y).weight + 2 - ((2 * F + 3 : ℕ) : ℤ) = -3 := by
    unfold halved
    push_cast
    ring
  have hpow : (NBASE : ℚ) ^ (-3 : ℤ) = 1 / 1000000000000 := by norm_num [NBASE]
  rw [hexp, hpow, hlen, Finset.sum_range_add] at hge
  -- the first two digits have no partner
  have hterm : ∀ i ∈ Finset.range (2 ^ d),
      digitAt (halved F x).digits ((2 + i : ℕ) : ℤ) * digitAt (halved F y).digits
      ((2 * F + 3 - (2 + i) - 2 : ℕ) : ℤ) =
      ((y / 10000 ^ i % 10000 * (x / 10000 ^ (2 ^ d - 1 - i) % 10000) : ℕ) : ℤ) := by
    intro i hi
    have hlt := Finset.mem_range.mp hi
    unfold halved
    rw [digitAt_digitsOf (by omega), digitAt_digitsOf (by omega),
      show 2 * F - 1 - (2 + i) = 2 ^ d - 1 - i by omega,
      show 2 * F - 1 - (2 * F + 3 - (2 + i) - 2) = i by omega, Nat.cast_mul, mul_comm]
  rw [Finset.sum_congr rfl hterm, ← Nat.cast_sum, ← diagonal_eq] at hge
  have hnonneg : 0 ≤ ∑ j ∈ Finset.range 2,
      digitAt (halved F x).digits j * digitAt (halved F y).digits ((2 * F + 3 - j - 2 : ℕ) : ℤ) :=
    Finset.sum_nonneg fun j _ =>
      mul_nonneg (digitAt_range NBASE_pos (hok x) _).1 (digitAt_range NBASE_pos (hok y) _).1
  have hnonnegQ : (0 : ℚ) ≤ (∑ j ∈ Finset.range 2, digitAt (halved F x).digits j *
      digitAt (halved F y).digits ((2 * F + 3 - j - 2 : ℕ) : ℤ) : ℤ) := by
    exact_mod_cast hnonneg
  rw [cast_add, cast_natCast, add_mul] at hge
  linarith

/-- The product of these is an integer times a power of ten. -/
theorem powers_mul (k : ℕ) : ((10 ^ k - 5 ^ k : ℕ) : ℚ) * ((10 ^ k - 2 ^ k : ℕ) : ℚ) =
    ((10 ^ k - 5 ^ k - 2 ^ k + 1 : ℤ) : ℚ) * 10 ^ k := by
  have hfive : 5 ^ k ≤ 10 ^ k := Nat.pow_le_pow_left (by decide) k
  have htwo : 2 ^ k ≤ 10 ^ k := Nat.pow_le_pow_left (by decide) k
  have hten : (10 : ℚ) ^ k = 5 ^ k * 2 ^ k := by rw [← mul_pow]; norm_num
  rw [Nat.cast_sub hfive, Nat.cast_sub htwo]
  push_cast
  rw [hten]
  ring

theorem halved_product {F x y : ℕ} {z : ℤ} (hx : x < 10000 ^ (2 * F)) (hy : y < 10000 ^ (2 * F))
    (hmul : (x : ℚ) * y = z * 10 ^ (8 * F)) :
    (halved F x).value * (halved F y).value = z := by
  have hpow : (10000 : ℚ) ^ F * (10000 : ℚ) ^ F = 10 ^ (8 * F) := by
    rw [← mul_pow, pow_mul]
    norm_num
  rw [halved_value hx, halved_value hy, div_mul_div_comm, hpow, hmul,
    mul_div_cancel_right₀ _ (pow_ne_zero _ (by norm_num))]

/-- If the product is an integer and half of one is left out, the result is too small. -/
theorem halved_inexact {F d x y : ℕ} {z : ℤ} (hF : 2 * F = 2 + 2 ^ d)
    (hproduct : (halved F x).value * (halved F y).value = z)
    (hdiagonal : 500000000000 < diagonal d y x) :
    ∃ result, mulVar (halved F x) (halved F y) 0 = some result ∧ result.value ≠ z := by
  have hok : ∀ z, (halved F z).DigitsOk := fun z => digitsOf_digits _ _
  have hpos : 0 < F := by
    have htwo := Nat.two_pow_pos d
    omega
  obtain ⟨result, hsome, -, -, hvalue⟩ := mulOrdered_spec (hok x) (hok y) 0
  have hsame : ¬ (halved F x).ndigits > (halved F y).ndigits := by
    unfold NumericVar.ndigits halved
    rw [digitsOf_length, digitsOf_length]
    exact lt_irrefl _
  refine ⟨result, by rw [mulVar, if_neg hsame, hsome], ?_⟩
  have hleft := halved_truncation hF x y
  have hnonneg := truncatedProduct_nonneg (hok x) (hok y) (2 * F + 3)
  rw [value_of_pos rfl, value_of_pos rfl] at hproduct
  rw [hproduct] at hleft
  rw [halved_mulNdigits F x y hpos, zpow_zero, mul_one, mul_one] at hvalue
  have hsign : ∀ z, (halved F z).sign.factor = 1 := fun _ => rfl
  rw [hsign, hsign, one_mul, one_mul, roundAway, symmetric_of_nonneg _ hnonneg] at hvalue
  intro heq
  rw [heq, Int.cast_inj, eq_comm, Int.floor_eq_iff] at hvalue
  have hdiagonalQ : (500000000000 : ℚ) < diagonal d y x := by exact_mod_cast hdiagonal
  linarith [hvalue.1]

def longA : NumericVar := halved 8193 (10 ^ (8 * 8193) - 5 ^ (8 * 8193))

def longB : NumericVar := halved 8193 (10 ^ (8 * 8193) - 2 ^ (8 * 8193))

/-- Two operands of 16386 digits: the product is an integer, but what is left out is more than a
half. -/
theorem longProduct_inexact :
    Normalised longA ∧ Normalised longB ∧ HasScale (longA.value * longB.value) 0 ∧
    ∃ result, mulVar longA longB 0 = some result ∧ result.value ≠ longA.value * longB.value := by
  have hproduct : longA.value * longB.value =
      ((10 ^ (8 * 8193) - 5 ^ (8 * 8193) - 2 ^ (8 * 8193) + 1 : ℤ) : ℚ) :=
    halved_product (by decide +kernel) (by decide +kernel) (powers_mul (8 * 8193))
  have hdiagonal : 500000000000 <
      diagonal 14 (10 ^ (8 * 8193) - 2 ^ (8 * 8193)) (10 ^ (8 * 8193) - 5 ^ (8 * 8193)) := by
    decide +kernel
  refine ⟨halved_normalised (by decide) (by decide +kernel) (by decide +kernel),
    halved_normalised (by decide) (by decide +kernel) (by decide +kernel),
    ⟨_, by rw [zpow_zero, mul_one, hproduct]⟩, ?_⟩
  rw [hproduct]
  exact halved_inexact (d := 14) (by decide) hproduct hdiagonal

end GreenPipeline.L1.Numeric
