import GreenPipeline.Core.LongDivision
import GreenPipeline.L1Adt.NumericMul

/-!
# Dividing numeric variables

`div_var` is long division: a loop for a divisor of one digit, and Knuth's Algorithm D for longer
ones, where each quotient digit is estimated from leading digits and, if it turns out one too
large after the divisor has been subtracted that often, corrected by adding the divisor back.

An overflow of a 32-bit integer, or a digit out of range, is an error of its own here.

Sources: `src/backend/utils/adt/numeric.c`.

Results:

* `divOne_eq`, `divLoop_eq`: both loops compute the digits of long division.
* `divVar_spec`: the quotient is rounded or truncated exactly.
* `modVar_spec`: the remainder.
-/
namespace GreenPipeline.L1.Numeric

open GreenPipeline.Core GreenPipeline.Core.Positional List Option

/-! ## The functions -/

inductive NumericError
  | divisionByZero
  | overflow
  deriving DecidableEq, Repr

/-- A digit, `none` if it is out of range. -/
def checkDigit (x : ℤ) : Option ℤ := if 0 ≤ x ∧ x < NBASE then some x else none

/-- A divisor of one digit. mirrors numeric.c:6980-6987 -/
def divOne (divisor1 : ℤ) : List ℤ → ℤ → Option (List ℤ)
  | [], _ => some []
  | x :: xs, carry =>
    (checkInt (carry * NBASE + x)).bind fun carry =>
      (checkDigit (carry / divisor1)).bind fun digit =>
        (divOne divisor1 xs (carry % divisor1)).map (digit :: ·)

/-- Every digit is multiplied by `d`, from the last on. mirrors numeric.c:7004-7019 -/
def scaleDigits (d : ℤ) : List ℤ → Option (ℤ × List ℤ)
  | [] => some (0, [])
  | x :: xs =>
    (scaleDigits d xs).bind fun s => (checkInt (s.1 + x * d)).map fun carry =>
      (carry / NBASE, carry % NBASE :: s.2)

/-- The loop that makes the quotient digit smaller. `fuel` bounds its rounds; it ends before that,
as the digit does not get negative. mirrors numeric.c:7062-7064 -/
def adjustQhat (divisor1 divisor2 next2digits digit : ℤ) : ℕ → ℤ → Option ℤ
  | 0, _ => none
  | fuel + 1, qhat =>
    (checkInt (divisor2 * qhat)).bind fun lhs =>
      (checkInt ((next2digits - qhat * divisor1) * NBASE + digit)).bind fun rhs =>
        if lhs > rhs then adjustQhat divisor1 divisor2 next2digits digit fuel (qhat - 1)
        else some qhat

/-- The result of multiplying the divisor by `qhat` and subtracting it, over pairs of digits of
divisor and dividend. -/
structure MulSub where
  carry : ℤ
  borrow : ℤ
  digits : List ℤ

/-- mirrors numeric.c:7074-7092 -/
def mulSub (qhat : ℤ) : List (ℤ × ℤ) → Option MulSub
  | [] => some { carry := 0, borrow := 0, digits := [] }
  | p :: ps =>
    (mulSub qhat ps).bind fun s =>
      (checkInt (s.carry + p.1 * qhat)).bind fun carry =>
        let borrow := s.borrow - carry % NBASE + p.2
        if borrow < 0 then
          (checkDigit (borrow + NBASE)).map fun digit =>
            { carry := carry / NBASE, borrow := -1, digits := digit :: s.digits }
        else (checkDigit borrow).map fun digit =>
          { carry := carry / NBASE, borrow := 0, digits := digit :: s.digits }

/-- Adding the divisor back. mirrors numeric.c:7106-7120 -/
def addBack (ps : List (ℤ × ℤ)) : List ℤ :=
  (ps.foldr (fun p s => ((addDigit p.1 p.2 s.1).1, (addDigit p.1 p.2 s.1).2 :: s.2)) (0, [])).2

/-- One quotient digit, and the dividend without what it stands for. The divisor has a zero in
front. mirrors numeric.c:7036-7127 -/
def divStep (divisor dividend : List ℤ) : Option (ℤ × List ℤ) :=
  let divisor1 := digitAt divisor 1
  let divisor2 := digitAt divisor 2
  (checkInt (digitAt dividend 0 * NBASE + digitAt dividend 1)).bind fun next2digits =>
    if next2digits = 0 then some (0, dividend)
    else
      let qhat := if digitAt dividend 0 = divisor1 then NBASE - 1 else next2digits / divisor1
      (adjustQhat divisor1 divisor2 next2digits (digitAt dividend 2) (qhat.toNat + 1) qhat).bind
        fun qhat =>
        if qhat > 0 then
          (mulSub qhat (divisor.zip dividend)).map fun s =>
            let rest := dividend.drop divisor.length
            if s.borrow ≠ 0 then (qhat - 1, addBack (s.digits.zip divisor) ++ rest)
            else (qhat, s.digits ++ rest)
        else some (qhat, dividend)

/-- mirrors numeric.c:7033-7128 -/
def divLoop (divisor : List ℤ) : ℕ → List ℤ → Option (List ℤ)
  | 0, _ => some []
  | n + 1, dividend =>
    (divStep divisor dividend).bind fun s =>
      (checkDigit s.1).bind fun digit => (divLoop divisor n s.2.tail).map (digit :: ·)

/-- A divisor of two digits or more. mirrors numeric.c:6989-7129 -/
def divMany (var1digits var2digits zeros : List ℤ) (resNdigits : ℕ) : Option (List ℤ) :=
  if digitAt var2digits 0 < HALF_NBASE then
    let d := NBASE / (digitAt var2digits 0 + 1)
    (scaleDigits d var2digits).bind fun divisor =>
      (scaleDigits d (0 :: var1digits)).bind fun dividend =>
        divLoop (0 :: divisor.2) resNdigits (dividend.2 ++ zeros)
  else divLoop (0 :: var2digits) resNdigits (0 :: var1digits ++ zeros)

/-- How many quotient digits are computed. mirrors numeric.c:6933-6940 -/
def divNdigits (var1 var2 : NumericVar) (rscale : ℤ) (round : Bool) : ℤ :=
  let resNdigits :=
    max (var1.weight - var2.weight + 1 + (rscale + DEC_DIGITS - 1).tdiv DEC_DIGITS) 1
  if round then resNdigits + 1 else resNdigits

/-- The quotient digits. mirrors numeric.c:6949-7129 -/
def divDigits (var1digits var2digits : List ℤ) (resNdigits : ℕ) : Option (List ℤ) :=
  let divNdigits := max (resNdigits + var2digits.length) var1digits.length
  let zeros := List.replicate (divNdigits - var1digits.length) 0
  if var2digits.length = 1 then
    divOne (digitAt var2digits 0) ((var1digits ++ zeros).take resNdigits) 0
  else divMany var1digits var2digits zeros resNdigits

/-- mirrors numeric.c:6883-7147 -/
def divVar (var1 var2 : NumericVar) (rscale : ℤ) (round : Bool) : Except NumericError NumericVar :=
  if var2.digits = [] ∨ digitAt var2.digits 0 = 0 then .error .divisionByZero
  else if var1.digits = [] then .ok (zeroVar rscale)
  else
    let resSign := if var1.sign = var2.sign then NumericSign.pos else .neg
    let resWeight := var1.weight - var2.weight
    match divDigits var1.digits var2.digits (divNdigits var1 var2 rscale round).toNat with
    | none => .error .overflow
    | some digits =>
      let result : NumericVar :=
        { digits := digits, weight := resWeight, sign := resSign, dscale := 0 }
      .ok (stripVar (if round then roundVar result rscale else truncVar result rscale))

/-- mirrors numeric.c:7532-7552 -/
def modVar (var1 var2 : NumericVar) : Except NumericError NumericVar :=
  (divVar var1 var2 0 false).bind fun tmp =>
    match mulVar var2 tmp var2.dscale with
    | none => .error .overflow
    | some tmp => .ok (subVar var1 tmp)

/-! ## The parts of a step -/

theorem checkDigit_eq_some {x : ℤ} (h : 0 ≤ x ∧ x < NBASE) : checkDigit x = some x := if_pos h

theorem divOne_eq {D : ℤ} (hD : 0 < D ∧ D < NBASE) {xs : List ℤ} (hxs : Digits NBASE xs) {r : ℤ}
    (hr : 0 ≤ r ∧ r < D) :
    divOne D xs r = some (quotients NBASE D xs r) := by
  induction xs generalizing r with
  | nil => rfl
  | cons x xs ih =>
    obtain ⟨hx, hrest⟩ := hxs.of_cons
    have hcheck : checkInt (r * NBASE + x) = some (r * NBASE + x) := by
      apply checkInt_eq_some
      unfold NBASE at *
      unfold INT_MAX
      omega
    have hdigit := (digits_quotients hD.1 hxs hr NBASE_pos).of_cons.1
    have hmod : 0 ≤ (r * NBASE + x) % D ∧ (r * NBASE + x) % D < D :=
      ⟨Int.emod_nonneg _ hD.1.ne', Int.emod_lt_of_pos _ hD.1⟩
    rw [divOne, hcheck, bind_some, checkDigit_eq_some hdigit, bind_some, ih hrest hmod]
    rfl

theorem scaleDigits_spec {d : ℤ} (hd : 0 < d ∧ d < NBASE) {xs : List ℤ} (hxs : Digits NBASE xs) :
    ∃ s, scaleDigits d xs = some s ∧ (0 ≤ s.1 ∧ s.1 < d) ∧ Digits NBASE s.2 ∧
      s.2.length = xs.length ∧
      horner NBASE s.2 + NBASE ^ xs.length * s.1 = d * horner NBASE xs := by
  induction xs with
  | nil => exact ⟨(0, []), rfl, ⟨le_refl 0, hd.1⟩, fun x hx => (by cases hx), rfl, by simp⟩
  | cons x xs ih =>
    obtain ⟨hx, hrest⟩ := hxs.of_cons
    obtain ⟨s, hs, hcarry, hdigits, hlen, hval⟩ := ih hrest
    have hlow := add_nonneg hcarry.1 (mul_nonneg hx.1 hd.1.le)
    have hhigh : s.1 + x * d < d * NBASE := by
      have hle : (x + 1) * d ≤ NBASE * d := mul_le_mul_of_nonneg_right (by omega) hd.1.le
      linarith
    have hcheck : checkInt (s.1 + x * d) = some (s.1 + x * d) := by
      apply checkInt_eq_some
      have hmul := mul_le_mul_of_nonneg_right hd.2.le NBASE_pos.le
      unfold NBASE at hmul hhigh
      unfold INT_MAX
      omega
    have hmod : 0 ≤ (s.1 + x * d) % NBASE ∧ (s.1 + x * d) % NBASE < NBASE :=
      ⟨Int.emod_nonneg _ NBASE_ne_zero, Int.emod_lt_of_pos _ NBASE_pos⟩
    rw [scaleDigits, hs, bind_some, hcheck, map_some]
    refine ⟨_, rfl, ⟨Int.ediv_nonneg hlow NBASE_pos.le, Int.ediv_lt_of_lt_mul NBASE_pos hhigh⟩,
      hdigits.cons hmod, by simp [hlen], ?_⟩
    have hdm := Int.emod_add_mul_ediv (s.1 + x * d) NBASE
    rw [horner_cons, horner_cons, hlen, length_cons, pow_succ]
    linear_combination NBASE ^ xs.length * hdm + hval

/-- The loop finds the largest digit up to `qhat` whose product with the two leading digits of the
divisor is not too large. -/
theorem adjustQhat_spec {v1 v2 next2 d2 : ℤ} (hv1 : 0 < v1 ∧ v1 < NBASE) (hv2 : 0 ≤ v2 ∧ v2 < NBASE)
    (hd2 : 0 ≤ d2 ∧ d2 < NBASE) {fuel : ℕ}
    {qhat : ℤ} (hfuel : qhat < fuel) (hqhat : 0 ≤ qhat ∧ qhat < NBASE)
    (hrhat : 0 ≤ next2 - qhat * v1 ∧ next2 - qhat * v1 < 2 * NBASE) :
    ∃ q, adjustQhat v1 v2 next2 d2 fuel qhat = some q ∧ 0 ≤ q ∧ q ≤ qhat ∧
      q * (v1 * NBASE + v2) ≤ next2 * NBASE + d2 ∧
      (q = qhat ∨ next2 * NBASE + d2 < (q + 1) * (v1 * NBASE + v2)) := by
  induction fuel generalizing qhat with
  | zero => omega
  | succ fuel ih =>
    have hprod : 0 ≤ v2 * qhat ∧ v2 * qhat < NBASE * NBASE :=
      ⟨mul_nonneg hv2.1 hqhat.1, mul_lt_mul'' hv2.2 hqhat.2 hv2.1 hqhat.1⟩
    have hcheck1 : checkInt (v2 * qhat) = some (v2 * qhat) := by
      apply checkInt_eq_some
      unfold NBASE at hprod
      unfold INT_MAX
      omega
    have hcheck2 : checkInt ((next2 - qhat * v1) * NBASE + d2) =
        some ((next2 - qhat * v1) * NBASE + d2) := by
      apply checkInt_eq_some
      unfold NBASE at *
      unfold INT_MAX
      omega
    rw [adjustQhat, hcheck1, bind_some, hcheck2, bind_some]
    split
    · rename_i hgt
      have hpos : 0 < qhat := by
        by_contra hle
        have hzero : qhat = 0 := by omega
        rw [hzero, mul_zero, zero_mul, sub_zero] at hgt
        rw [hzero, zero_mul, sub_zero] at hrhat
        unfold NBASE at *
        omega
      -- the remainder is below the base, so there is room for one more divisor digit
      have hsmall : next2 - qhat * v1 < NBASE := by
        by_contra hge
        have hmul := mul_le_mul_of_nonneg_right (not_lt.mp hge) NBASE_pos.le
        omega
      have hstep : next2 - (qhat - 1) * v1 = next2 - qhat * v1 + v1 := by ring
      have hless : qhat - 1 < fuel := by omega
      obtain ⟨q, hq, hq0, hqle, hfit, hmax⟩ := ih hless (by omega) (by rw [hstep]; omega)
      refine ⟨q, hq, hq0, by omega, hfit, Or.inr ?_⟩
      rcases hmax with heq | hlt
      · rw [heq, sub_add_cancel]
        linarith
      · exact hlt
    · rename_i hle
      exact ⟨qhat, rfl, hqhat.1, le_refl qhat, by linarith, Or.inl rfl⟩

variable {q : ℤ} {n : ℕ} {ds : List ℤ}

theorem mulSub_spec (hq : 0 ≤ q ∧ q < NBASE) {ps : List (ℤ × ℤ)}
    (h1 : Digits NBASE (ps.map Prod.fst)) (h2 : Digits NBASE (ps.map Prod.snd)) :
    ∃ s, mulSub q ps = some s ∧ (0 ≤ s.carry ∧ s.carry < NBASE) ∧ (s.borrow = 0 ∨ s.borrow = -1) ∧
      Digits NBASE s.digits ∧
      s.digits.length = ps.length ∧
      NBASE ^ ps.length * s.carry ≤ q * horner NBASE (ps.map Prod.fst) ∧
      horner NBASE s.digits + NBASE ^ ps.length * (s.borrow - s.carry) =
        horner NBASE (ps.map Prod.snd) - q * horner NBASE (ps.map Prod.fst) := by
  induction ps with
  | nil =>
    exact ⟨_, rfl, ⟨le_refl 0, NBASE_pos⟩, Or.inl rfl, fun x hx => (by cases hx),
      rfl, by simp, by simp⟩
  | cons p ps ih =>
    rw [map_cons] at h1 h2
    obtain ⟨hv, hvs⟩ := h1.of_cons
    obtain ⟨hu, hus⟩ := h2.of_cons
    obtain ⟨s, hs, hcarry, hborrow, hdigits, hlen, hprod, hval⟩ := ih hvs hus
    have hmul : 0 ≤ p.1 * q ∧ p.1 * q ≤ (NBASE - 1) * (NBASE - 1) :=
      ⟨mul_nonneg hv.1 hq.1, mul_le_mul (by omega) (by omega) hq.1 (by decide)⟩
    have hcheck : checkInt (s.carry + p.1 * q) = some (s.carry + p.1 * q) := by
      apply checkInt_eq_some
      unfold NBASE at *
      unfold INT_MAX
      omega
    have hdm := Int.emod_add_mul_ediv (s.carry + p.1 * q) NBASE
    have hmod : 0 ≤ (s.carry + p.1 * q) % NBASE ∧ (s.carry + p.1 * q) % NBASE < NBASE :=
      ⟨Int.emod_nonneg _ NBASE_ne_zero, Int.emod_lt_of_pos _ NBASE_pos⟩
    have hdiv : 0 ≤ (s.carry + p.1 * q) / NBASE ∧ (s.carry + p.1 * q) / NBASE < NBASE := by
      refine ⟨Int.ediv_nonneg (by omega) NBASE_pos.le, Int.ediv_lt_of_lt_mul NBASE_pos ?_⟩
      unfold NBASE at *
      omega
    have hpow : 0 ≤ NBASE ^ ps.length := pow_nonneg NBASE_pos.le _
    have hprod' : NBASE ^ (ps.length + 1) * ((s.carry + p.1 * q) / NBASE) ≤
        q * horner NBASE (p.1 :: ps.map Prod.fst) := by
      rw [horner_cons, length_map, pow_succ]
      calc NBASE ^ ps.length * NBASE * ((s.carry + p.1 * q) / NBASE)
          = NBASE ^ ps.length * (NBASE * ((s.carry + p.1 * q) / NBASE)) := by ring
        _ ≤ NBASE ^ ps.length * (s.carry + p.1 * q) := mul_le_mul_of_nonneg_left (by omega) hpow
        _ = NBASE ^ ps.length * s.carry + q * (p.1 * NBASE ^ ps.length) := by ring
        _ ≤ q * (p.1 * NBASE ^ ps.length + horner NBASE (ps.map Prod.fst)) := by linarith
    rw [mulSub, hs, bind_some, hcheck, bind_some]
    dsimp only
    split
    · rename_i hneg
      rw [checkDigit_eq_some (by omega), map_some]
      refine ⟨_, rfl, hdiv, Or.inr rfl, hdigits.cons (by omega), by simp [hlen], hprod', ?_⟩
      rw [map_cons, map_cons, horner_cons, horner_cons, horner_cons, length_map, length_map, hlen,
        length_cons, pow_succ]
      linear_combination hval - NBASE ^ ps.length * hdm
    · rename_i hnonneg
      rw [checkDigit_eq_some (by omega), map_some]
      refine ⟨_, rfl, hdiv, Or.inl rfl, hdigits.cons (by omega), by simp [hlen], hprod', ?_⟩
      rw [map_cons, map_cons, horner_cons, horner_cons, horner_cons, length_map, length_map, hlen,
        length_cons, pow_succ]
      linear_combination hval - NBASE ^ ps.length * hdm

theorem addBack_spec {ps : List (ℤ × ℤ)} (h1 : Digits NBASE (ps.map Prod.fst))
    (h2 : Digits NBASE (ps.map Prod.snd)) :
    Digits NBASE (addBack ps) ∧ (addBack ps).length = ps.length ∧ ∃ c : ℤ, (c = 0 ∨ c = 1) ∧
      horner NBASE (addBack ps) + NBASE ^ ps.length * c =
        horner NBASE (ps.map Prod.fst) + horner NBASE (ps.map Prod.snd) := by
  obtain ⟨hcarry, hdigits⟩ :=
    digits_foldr (P := fun c => 0 ≤ c ∧ c ≤ 1) (fun p : ℤ × ℤ => addDigit p.1 p.2) ps
    (fun p hp c hc => addDigit_range (h1 _ (mem_map_of_mem hp)) (h2 _ (mem_map_of_mem hp)) hc)
      (c := 0) (by decide)
  obtain ⟨hlen, hval⟩ :=
    horner_foldr (b := NBASE) (fun p : ℤ × ℤ => p.1 + 1 * p.2) (fun p => addDigit p.1 p.2)
    (fun p c => addDigit_value p.1 p.2 c) ps 0
  rw [horner_map_add, add_zero, one_mul] at hval
  exact ⟨hdigits, hlen, _, by omega, hval⟩

/-- Nothing is carried out of the product if the divisor has a zero in front. -/
theorem mulSub_short (hq : 0 ≤ q ∧ q < NBASE) {divisor dividend : List ℤ}
    (h1 : Digits NBASE divisor) (h2 : Digits NBASE dividend)
    (hlens : divisor.length = dividend.length) (hn : divisor.length = n + 1)
    (hpos : 0 < horner NBASE divisor) (hlt : horner NBASE divisor < NBASE ^ n) :
    ∃ s, mulSub q (divisor.zip dividend) = some s ∧ (s.borrow = 0 ∨ s.borrow = -1) ∧
      Digits NBASE s.digits ∧ s.digits.length = n + 1 ∧
      horner NBASE s.digits + NBASE ^ (n + 1) * s.borrow =
        horner NBASE dividend - q * horner NBASE divisor := by
  have hfst := map_fst_zip hlens.le
  have hsnd := map_snd_zip hlens.ge
  have hziplen : (divisor.zip dividend).length = n + 1 := by rw [length_zip, ← hlens, min_self, hn]
  obtain ⟨s, hs, hcarry, hborrow, hdigits, hslen, hprod, hval⟩ :=
    mulSub_spec hq (by rw [hfst]; exact h1) (by rw [hsnd]; exact h2)
  rw [hfst, hziplen] at hprod
  rw [hfst, hsnd, hziplen] at hval
  have hnocarry : s.carry = 0 := by
    have hsmall : NBASE ^ (n + 1) * s.carry < NBASE ^ (n + 1) * 1 := by
      calc NBASE ^ (n + 1) * s.carry ≤ q * horner NBASE divisor := hprod
        _ ≤ (NBASE - 1) * horner NBASE divisor := mul_le_mul_of_nonneg_right (by omega) hpos.le
        _ < NBASE * NBASE ^ n := mul_lt_mul'' (by omega) hlt (by decide) hpos.le
        _ = NBASE ^ (n + 1) * 1 := by ring
    have := lt_of_mul_lt_mul_left hsmall (pow_pos NBASE_pos _).le
    omega
  rw [hnocarry, sub_zero] at hval
  exact ⟨s, hs, hborrow, hdigits, hslen.trans hziplen, hval⟩

/-- The carry out of the addition cancels the borrow. -/
theorem addBack_cancel {digits divisor : List ℤ} (h1 : Digits NBASE digits)
    (h2 : Digits NBASE divisor) (hn1 : digits.length = n) (hn2 : divisor.length = n) {r : ℤ}
    (hr : r < NBASE ^ n ∧ 0 ≤ r) (h : horner NBASE digits + horner NBASE divisor = r + NBASE ^ n) :
    Digits NBASE (addBack (digits.zip divisor)) ∧ (addBack (digits.zip divisor)).length = n ∧
    horner NBASE (addBack (digits.zip divisor)) = r := by
  have hlens := hn1.trans hn2.symm
  have hfst := map_fst_zip hlens.le
  have hsnd := map_snd_zip hlens.ge
  have hziplen : (digits.zip divisor).length = n := by rw [length_zip, hlens, min_self, hn2]
  obtain ⟨hback, hblen, c, hc, hval⟩ :=
    addBack_spec (by rw [hfst]; exact h1) (by rw [hsnd]; exact h2)
  rw [hziplen] at hblen hval
  rw [hfst, hsnd, h] at hval
  have hlt := hback.horner_lt NBASE_pos
  rw [hblen] at hlt
  refine ⟨hback, hblen, ?_⟩
  rcases hc with rfl | rfl
  · omega
  · linarith

/-! ## A step -/

section Step

variable {v1 v2 d0 d1 d2 : ℤ} {vs ws : List ℤ} (rest : List ℤ)

/-- The leading digits of a list. -/
theorem horner_three (d0 d1 d2 : ℤ) (ws : List ℤ) :
    horner NBASE (d0 :: d1 :: d2 :: ws) =
      ((d0 * NBASE + d1) * NBASE + d2) * NBASE ^ ws.length + horner NBASE ws := by
  rw [horner_cons, horner_cons, horner_cons, length_cons, length_cons, pow_succ, pow_succ]
  ring

theorem digits_three (h : Digits NBASE (d0 :: d1 :: d2 :: ws)) :
    (0 ≤ d0 ∧ d0 < NBASE) ∧ (0 ≤ d1 ∧ d1 < NBASE) ∧ (0 ≤ d2 ∧ d2 < NBASE) ∧ Digits NBASE ws :=
  ⟨h.of_cons.1, h.of_cons.2.of_cons.1, h.of_cons.2.of_cons.2.of_cons⟩

variable (hdivisor : Digits NBASE (0 :: v1 :: v2 :: vs)) (hv1 : 0 < v1)
  (hdividend : Digits NBASE (d0 :: d1 :: d2 :: ws)) (hlen : ws.length = vs.length)
  (hlt : horner NBASE (d0 :: d1 :: d2 :: ws) < NBASE * horner NBASE (0 :: v1 :: v2 :: vs))
include hdivisor hdividend hlen hlt

/-- The leading digit of the dividend is at most that of the divisor. -/
theorem leading_le : d0 ≤ v1 ∧ (d0 * NBASE + d1) * NBASE + d2 < NBASE * (v1 * NBASE + v2 + 1) := by
  obtain ⟨-, hv1r, hv2r, hvs⟩ := digits_three hdivisor
  obtain ⟨hd0, hd1, hd2, hws⟩ := digits_three hdividend
  have hP : 0 < NBASE ^ vs.length := pow_pos NBASE_pos _
  have hw := hws.horner_nonneg NBASE_pos
  have hu := hvs.horner_lt NBASE_pos
  rw [horner_three, horner_three, hlen] at hlt
  have hbound : ((d0 * NBASE + d1) * NBASE + d2) * NBASE ^ vs.length <
      NBASE * (v1 * NBASE + v2 + 1) * NBASE ^ vs.length := by
    have hmul := mul_lt_mul_of_pos_left hu NBASE_pos
    linarith
  have hlead := lt_of_mul_lt_mul_right hbound hP.le
  refine ⟨?_, hlead⟩
  unfold NBASE at *
  omega

include hv1

/-- The digit found for the leading digits is Knuth's estimate. -/
theorem qhat_spec : ∃ q, adjustQhat v1 v2 (d0 * NBASE + d1) d2
      ((if d0 = v1 then NBASE - 1 else (d0 * NBASE + d1) / v1).toNat + 1)
        (if d0 = v1 then NBASE - 1 else (d0 * NBASE + d1) / v1) = some q ∧
    q = min (NBASE - 1) (((d0 * NBASE + d1) * NBASE + d2) / (v1 * NBASE + v2)) := by
  obtain ⟨hle, -⟩ := leading_le hdivisor hdividend hlen hlt
  obtain ⟨-, hv1r, hv2r, -⟩ := digits_three hdivisor
  obtain ⟨hd0, hd1, hd2, -⟩ := digits_three hdividend
  have hvpos := add_pos_of_pos_of_nonneg (mul_pos hv1 NBASE_pos) hv2r.1
  set next2 := d0 * NBASE + d1 with hnext2
  -- the first guess is not too small and leaves a remainder below twice the base
  have hguess : ∀ g, g = (if d0 = v1 then NBASE - 1 else next2 / v1) → (0 ≤ g ∧ g < NBASE) ∧
      (0 ≤ next2 - g * v1 ∧ next2 - g * v1 < 2 * NBASE) ∧
      min (NBASE - 1) ((next2 * NBASE + d2) / (v1 * NBASE + v2)) ≤ g := by
    intro g hg
    split at hg
    · rename_i heq
      rw [hg, hnext2, heq]
      refine ⟨by decide, ?_, min_le_left _ _⟩
      unfold NBASE at *
      omega
    · rename_i hne
      have hdm := Int.emod_add_mul_ediv next2 v1
      have hmod := Int.emod_lt_of_pos next2 hv1
      have hmod0 := Int.emod_nonneg next2 hv1.ne'
      have hnonneg := add_nonneg (mul_nonneg hd0.1 NBASE_pos.le) hd1.1
      have hrem : next2 - next2 / v1 * v1 = next2 % v1 := by linarith
      rw [hg, hrem]
      refine ⟨⟨Int.ediv_nonneg hnonneg hv1.le, Int.ediv_lt_of_lt_mul hv1 ?_⟩, ⟨hmod0, by omega⟩,
        le_trans (min_le_right _ _) ?_⟩
      · have hmul : (d0 + 1) * NBASE ≤ v1 * NBASE :=
          mul_le_mul_of_nonneg_right (by omega) NBASE_pos.le
        linarith
      · rw [Int.le_ediv_iff_mul_le hv1]
        set g' := (next2 * NBASE + d2) / (v1 * NBASE + v2)
        have hg' : g' * (v1 * NBASE + v2) ≤ next2 * NBASE + d2 := Int.ediv_mul_le _ hvpos.ne'
        have hg0 := Int.ediv_nonneg (add_nonneg (mul_nonneg hnonneg NBASE_pos.le) hd2.1) hvpos.le
        have hbound : g' * v1 * NBASE < (next2 + 1) * NBASE := by
          have := mul_nonneg hg0 hv2r.1
          linarith
        have := lt_of_mul_lt_mul_right hbound NBASE_pos.le
        omega
  obtain ⟨hg, hrhat, hmin⟩ := hguess _ rfl
  generalize (if d0 = v1 then NBASE - 1 else next2 / v1) = g at *
  have hfuel : g < (g.toNat + 1 : ℕ) := by omega
  obtain ⟨q, hsome, hq0, hqle, hfit, hmax⟩ := adjustQhat_spec ⟨hv1, hv1r.2⟩ hv2r hd2 hfuel hg hrhat
  refine ⟨q, hsome, ?_⟩
  have hqdiv : q ≤ (next2 * NBASE + d2) / (v1 * NBASE + v2) :=
    (Int.le_ediv_iff_mul_le hvpos).mpr hfit
  apply le_antisymm
  · exact le_min (by omega) hqdiv
  · rcases hmax with heq | hlarge
    · rw [heq]
      exact hmin
    · have hlt' := Int.ediv_lt_of_lt_mul hvpos hlarge
      omega

/-- The estimate is right or one too large. -/
theorem qhat_bounds
    (hq : q = min (NBASE - 1) (((d0 * NBASE + d1) * NBASE + d2) / (v1 * NBASE + v2))) :
    horner NBASE (d0 :: d1 :: d2 :: ws) / horner NBASE (0 :: v1 :: v2 :: vs) ≤ q ∧
      q ≤ horner NBASE (d0 :: d1 :: d2 :: ws) / horner NBASE (0 :: v1 :: v2 :: vs) + 1 := by
  obtain ⟨-, hv1r, hv2r, hvs⟩ := digits_three hdivisor
  obtain ⟨hd0, hd1, hd2, hws⟩ := digits_three hdividend
  have hW : horner NBASE (d0 :: d1 :: d2 :: ws) =
      ((d0 * NBASE + d1) * NBASE + d2) * NBASE ^ vs.length + horner NBASE ws := by
    rw [horner_three, hlen]
  have hD : horner NBASE (0 :: v1 :: v2 :: vs) =
      (v1 * NBASE + v2) * NBASE ^ vs.length + horner NBASE vs := by
    rw [horner_three]
    ring
  have hws' := hlen ▸ hws.horner_lt NBASE_pos
  have hbase : NBASE ≤ v1 * NBASE + v2 := by
    have := mul_le_mul_of_nonneg_right (show 1 ≤ v1 by omega) NBASE_pos.le
    omega
  have ht : 0 ≤ (d0 * NBASE + d1) * NBASE + d2 := by
    unfold NBASE
    omega
  rw [hq]
  exact trial_quotient (pow_pos NBASE_pos _) hW ⟨hws.horner_nonneg NBASE_pos, hws'⟩ hD
    ⟨hvs.horner_nonneg NBASE_pos, hvs.horner_lt NBASE_pos⟩ hbase NBASE_pos
    hlt ht

omit hlt hv1 in
/-- Subtracting a digit that is right leaves the remainder; one too large leaves a borrow, and
adding the divisor back the remainder. -/
theorem subtract_spec (hq : 0 ≤ q ∧ q < NBASE)
    (hbounds : horner NBASE (d0 :: d1 :: d2 :: ws) / horner NBASE (0 :: v1 :: v2 :: vs) ≤ q ∧
      q ≤ horner NBASE (d0 :: d1 :: d2 :: ws) / horner NBASE (0 :: v1 :: v2 :: vs) + 1)
    (hpos : 0 < horner NBASE (0 :: v1 :: v2 :: vs)) :
    ∃ s win, mulSub q ((0 :: v1 :: v2 :: vs).zip (d0 :: d1 :: d2 :: ws)) = some s ∧
      (if s.borrow ≠ 0 then (q - 1, addBack (s.digits.zip (0 :: v1 :: v2 :: vs)) ++ rest) else
        (q, s.digits ++ rest)) =
        (horner NBASE (d0 :: d1 :: d2 :: ws) / horner NBASE (0 :: v1 :: v2 :: vs), win ++ rest) ∧
      win.length = vs.length + 3 ∧ Digits NBASE win ∧
      horner NBASE win =
        horner NBASE (d0 :: d1 :: d2 :: ws) % horner NBASE (0 :: v1 :: v2 :: vs) := by
  have hlens : (0 :: v1 :: v2 :: vs).length = (d0 :: d1 :: d2 :: ws).length := by simp [hlen]
  have hn : (0 :: v1 :: v2 :: vs).length = vs.length + 3 := by simp
  have hDlt : horner NBASE (0 :: v1 :: v2 :: vs) < NBASE ^ (vs.length + 2) := by
    have hlt := hdivisor.of_cons.2.horner_lt NBASE_pos
    rw [horner_cons, zero_mul, zero_add]
    exact hlt
  generalize hdivisorList : 0 :: v1 :: v2 :: vs = divisor at *
  generalize d0 :: d1 :: d2 :: ws = dividend at *
  set W := horner NBASE dividend
  set D := horner NBASE divisor
  obtain ⟨s, hs, hborrow, hdigits, hslen, hval⟩ :=
    mulSub_short hq hdivisor hdividend hlens hn hpos hDlt
  change horner NBASE s.digits + NBASE ^ (vs.length + 3) * s.borrow = W - q * D at hval
  change s.digits.length = vs.length + 3 at hslen
  have hslt := hdigits.horner_lt NBASE_pos
  rw [hslen] at hslt
  have hsnonneg := hdigits.horner_nonneg NBASE_pos
  have hDlt' : D < NBASE ^ (vs.length + 3) :=
    lt_of_lt_of_le hDlt (pow_le_pow_right₀ (by decide) (by omega))
  have hdm := Int.emod_add_mul_ediv W D
  have hmod := Int.emod_lt_of_pos W hpos
  have hmod0 := Int.emod_nonneg W hpos.ne'
  rcases (show q = W / D ∨ q = W / D + 1 by omega) with hright | hlarge
  · have hnoborrow : s.borrow = 0 := by
      rcases hborrow with hzero | hone
      · exact hzero
      · rw [hone, hright] at hval
        have : W - W / D * D = W % D := by linarith
        omega
    refine ⟨s, s.digits, hs, ?_, hslen, hdigits, ?_⟩
    · rw [if_neg (not_not.mpr hnoborrow), hright]
    · rw [hnoborrow, mul_zero, add_zero, hright] at hval
      linarith
  · have hone : s.borrow = -1 := by
      rcases hborrow with hzero | hone
      · rw [hzero, mul_zero, add_zero, hlarge] at hval
        have : W - (W / D + 1) * D = W % D - D := by linarith
        omega
      · exact hone
    have hcancel : horner NBASE s.digits + D = W % D + NBASE ^ (vs.length + 3) := by
      rw [hone, hlarge] at hval
      linarith
    obtain ⟨hback, hblen, hbval⟩ :=
      addBack_cancel hdigits hdivisor hslen hn ⟨hmod.trans hDlt', hmod0⟩ hcancel
    refine ⟨s, _, hs, ?_, hblen, hback, hbval⟩
    rw [if_pos (by rw [hone]; decide), hlarge, add_sub_cancel_right]

theorem divStep_spec : ∃ win, divStep (0 :: v1 :: v2 :: vs) ((d0 :: d1 :: d2 :: ws) ++ rest) =
      some (horner NBASE (d0 :: d1 :: d2 :: ws) / horner NBASE (0 :: v1 :: v2 :: vs), win ++ rest) ∧
    win.length = vs.length + 3 ∧ Digits NBASE win ∧
    horner NBASE win =
      horner NBASE (d0 :: d1 :: d2 :: ws) % horner NBASE (0 :: v1 :: v2 :: vs) := by
  have hv := hdivisor.of_cons.2
  obtain ⟨-, -, -, hvs⟩ := digits_three hdivisor
  obtain ⟨hd0, hd1, -, -⟩ := digits_three hdividend
  have hD : 0 < horner NBASE (0 :: v1 :: v2 :: vs) := by
    have hle := hv.pow_le_horner NBASE_pos hv1.ne'
    rw [horner_cons, zero_mul, zero_add]
    exact lt_of_lt_of_le (pow_pos NBASE_pos _) hle
  have hW := hdividend.horner_nonneg NBASE_pos
  obtain ⟨q, hadjust, hmin⟩ := qhat_spec hdivisor hv1 hdividend hlen hlt
  have hbounds := qhat_bounds hdivisor hv1 hdividend hlen hlt hmin
  -- nothing is subtracted when the digit is zero
  have hnothing : horner NBASE (d0 :: d1 :: d2 :: ws) / horner NBASE (0 :: v1 :: v2 :: vs) = 0 →
      ∃ win, some (0, (d0 :: d1 :: d2 :: ws) ++ rest) =
      some (horner NBASE (d0 :: d1 :: d2 :: ws) / horner NBASE (0 :: v1 :: v2 :: vs), win ++ rest) ∧
      win.length = vs.length + 3 ∧ Digits NBASE win ∧
      horner NBASE win =
      horner NBASE (d0 :: d1 :: d2 :: ws) % horner NBASE (0 :: v1 :: v2 :: vs) := by
    intro hzero
    have hdm :=
      Int.emod_add_mul_ediv (horner NBASE (d0 :: d1 :: d2 :: ws))
        (horner NBASE (0 :: v1 :: v2 :: vs))
    rw [hzero, mul_zero, add_zero] at hdm
    exact ⟨d0 :: d1 :: d2 :: ws, by rw [hzero], by simp [hlen], hdividend, hdm.symm⟩
  have hcheck : checkInt (d0 * NBASE + d1) = some (d0 * NBASE + d1) := by
    apply checkInt_eq_some
    unfold NBASE at *
    unfold INT_MAX
    omega
  unfold divStep
  simp only [show digitAt (0 :: v1 :: v2 :: vs) 1 = v1 from rfl,
    show digitAt (0 :: v1 :: v2 :: vs) 2 = v2 from rfl,
    show digitAt ((d0 :: d1 :: d2 :: ws) ++ rest) 0 = d0 from rfl,
    show digitAt ((d0 :: d1 :: d2 :: ws) ++ rest) 1 = d1 from rfl,
    show digitAt ((d0 :: d1 :: d2 :: ws) ++ rest) 2 = d2 from rfl]
  rw [hcheck, bind_some]
  split
  · rename_i hzero
    apply hnothing
    -- two leading zeros: the dividend is less than the divisor
    have hdigits : d0 = 0 ∧ d1 = 0 := by
      unfold NBASE at *
      omega
    apply Int.ediv_eq_zero_of_lt hW
    have hsmall := hdividend.of_cons.2.of_cons.2.horner_lt NBASE_pos
    have hlarge := hv.pow_le_horner NBASE_pos hv1.ne'
    rw [hdigits.1, hdigits.2, horner_cons, zero_mul, zero_add, horner_cons, zero_mul, zero_add,
      horner_cons (x := 0), zero_mul, zero_add]
    rw [length_cons, hlen] at hsmall
    rw [length_cons] at hlarge
    omega
  · rw [hadjust, bind_some]
    have hq : 0 ≤ q ∧ q < NBASE := by
      have := Int.ediv_nonneg hW hD.le
      have := min_le_left (NBASE - 1) (((d0 * NBASE + d1) * NBASE + d2) / (v1 * NBASE + v2))
      omega
    split
    · obtain ⟨s, win, hs, hresult, hwin⟩ := subtract_spec rest hdivisor hdividend hlen hq hbounds hD
      have hzip : (0 :: v1 :: v2 :: vs).zip ((d0 :: d1 :: d2 :: ws) ++ rest) =
          (0 :: v1 :: v2 :: vs).zip (d0 :: d1 :: d2 :: ws) := by
        conv_lhs => rw [← append_nil (0 :: v1 :: v2 :: vs), zip_append (by simp [hlen]),
          zip_nil_left, append_nil]
      have hdrop : ((d0 :: d1 :: d2 :: ws) ++ rest).drop (0 :: v1 :: v2 :: vs).length = rest :=
        drop_left' (by simp [hlen])
      rw [hzip, hs, map_some, hdrop, hresult]
      exact ⟨win, rfl, hwin⟩
    · rename_i hle
      have hzero : q = 0 := by omega
      rw [hzero]
      apply hnothing
      have := Int.ediv_nonneg hW hD.le
      omega

end Step

/-! ## The loop -/

/-- Three digits in front of a list of at least three. -/
theorem exists_three {α : Type*} {l : List α} (h : l.length = n + 3) :
    ∃ a b c l', l = a :: b :: c :: l' ∧ l'.length = n := by
  match l, h with
  | a :: b :: c :: l', h => exact ⟨a, b, c, l', rfl, by simpa using h⟩

/-- The loop computes the digits of long division. -/
theorem divLoop_eq {v1 v2 : ℤ} {vs : List ℤ} (hdivisor : Digits NBASE (0 :: v1 :: v2 :: vs))
    (hv1 : 0 < v1) {m : ℕ} {win rest : List ℤ}
    (hwin : Digits NBASE win) (hlen : win.length = vs.length + 2)
    (hlt : horner NBASE win < horner NBASE (0 :: v1 :: v2 :: vs)) (hrest : Digits NBASE rest)
    (hm : m ≤ rest.length) :
    divLoop (0 :: v1 :: v2 :: vs) m (win ++ rest) =
      some (quotients NBASE (horner NBASE (0 :: v1 :: v2 :: vs)) (rest.take m)
        (horner NBASE win)) := by
  induction m generalizing win rest with
  | zero => rfl
  | succ m ih =>
    cases rest with
    | nil => simp at hm
    | cons x rest =>
      obtain ⟨hx, hrest'⟩ := hrest.of_cons
      set D := horner NBASE (0 :: v1 :: v2 :: vs) with hDdef
      have hwx := hwin.append fun d hd => by rw [mem_singleton.mp hd]; exact hx
      obtain ⟨d0, d1, d2, ws, hcons, hws⟩ :=
        exists_three (l := win ++ [x]) (n := vs.length) (by simp [hlen])
      have hW : horner NBASE (d0 :: d1 :: d2 :: ws) = horner NBASE win * NBASE + x := by
        rw [← hcons, horner_concat]
      have hnonneg := hwin.horner_nonneg NBASE_pos
      have hbound : horner NBASE (d0 :: d1 :: d2 :: ws) < NBASE * D := by
        have hle : (horner NBASE win + 1) * NBASE ≤ D * NBASE :=
          mul_le_mul_of_nonneg_right (by omega) NBASE_pos.le
        rw [hW]
        linarith
      rw [hcons] at hwx
      obtain ⟨win', hstep, hlen', hwin', hval⟩ := divStep_spec rest hdivisor hv1 hwx hws hbound
      rw [← hDdef, hW] at hstep hval
      have hD : 0 < D := by omega
      have hmod : 0 ≤ (horner NBASE win * NBASE + x) % D ∧ (horner NBASE win * NBASE + x) % D < D :=
        ⟨Int.emod_nonneg _ hD.ne', Int.emod_lt_of_pos _ hD⟩
      -- the remainder has no more digits than the divisor
      obtain ⟨w, win0, rfl, hlen0⟩ : ∃ w win0, win' = w :: win0 ∧ win0.length = vs.length + 2 := by
        cases win' with
        | nil => simp at hlen'
        | cons w win0 => exact ⟨w, win0, rfl, by simpa using hlen'⟩
      obtain ⟨hw, hwin0⟩ := hwin'.of_cons
      have hw0 : w = 0 := by
        have hlow := hwin0.horner_nonneg NBASE_pos
        have hDlt : D < NBASE ^ (vs.length + 2) := by
          have hlt' := hdivisor.of_cons.2.horner_lt NBASE_pos
          rw [hDdef, horner_cons, zero_mul, zero_add]
          exact hlt'
        rw [horner_cons, hlen0] at hval
        by_contra hne
        have hmul : 1 * NBASE ^ (vs.length + 2) ≤ w * NBASE ^ (vs.length + 2) :=
          mul_le_mul_of_nonneg_right (by omega) (pow_nonneg NBASE_pos.le _)
        omega
      rw [hw0, horner_cons, zero_mul, zero_add] at hval
      have hdigit : 0 ≤ (horner NBASE win * NBASE + x) / D ∧
          (horner NBASE win * NBASE + x) / D < NBASE :=
        ⟨Int.ediv_nonneg (by rw [← hW]; exact hwx.horner_nonneg NBASE_pos) hD.le,
          Int.ediv_lt_of_lt_mul hD (by rw [← hW]; exact hbound)⟩
      have hsplit : win ++ x :: rest = (d0 :: d1 :: d2 :: ws) ++ rest := by
        rw [← hcons, append_assoc, singleton_append]
      rw [divLoop, hsplit, hstep, bind_some]
      dsimp only
      rw [checkDigit_eq_some hdigit, bind_some, cons_append, tail_cons,
        ih hwin0 hlen0 (by rw [hval]; exact hmod.2) hrest' (by simpa using hm), hval,
        take_succ_cons, quotients]
      rfl

/-! ## The quotient -/

/-- Leading digits are a quotient by a power of the base. -/
theorem horner_take (h : Digits NBASE ds) (k : ℕ) :
    horner NBASE (ds.take k) = horner NBASE ds / NBASE ^ (ds.length - k) := by
  obtain ⟨-, hdrop⟩ := digits_take_drop h k
  have hlt := hdrop.horner_lt NBASE_pos
  have hnonneg := hdrop.horner_nonneg NBASE_pos
  rw [length_drop] at hlt
  have hsplit : horner NBASE ds =
      horner NBASE (ds.drop k) + NBASE ^ (ds.length - k) * horner NBASE (ds.take k) := by
    conv_lhs => rw [← take_append_drop k ds, horner_append, length_drop]
    ring
  rw [hsplit, Int.add_mul_ediv_left _ _ (pow_pos NBASE_pos _).ne',
    Int.ediv_eq_zero_of_lt hnonneg hlt, zero_add]

/-- The first digits of a dividend that starts below the divisor, divided by it. -/
theorem divLoop_spec {v1 v2 : ℤ} {vs : List ℤ} (hdivisor : Digits NBASE (0 :: v1 :: v2 :: vs))
    (hv1 : 0 < v1) {m : ℕ} (hds : Digits NBASE ds) (hm : vs.length + 2 + m ≤ ds.length)
    (hlt : horner NBASE (ds.take (vs.length + 2)) < horner NBASE (0 :: v1 :: v2 :: vs)) :
    ∃ qs, divLoop (0 :: v1 :: v2 :: vs) m ds = some qs ∧ Digits NBASE qs ∧ qs.length = m ∧
      horner NBASE qs =
        horner NBASE ds /
          (NBASE ^ (ds.length - (vs.length + 2 + m)) * horner NBASE (0 :: v1 :: v2 :: vs)) := by
  obtain ⟨htake, hdrop⟩ := digits_take_drop hds (vs.length + 2)
  have hlen : (ds.take (vs.length + 2)).length = vs.length + 2 := length_take_of_le (by omega)
  have hnonneg := htake.horner_nonneg NBASE_pos
  have heq := divLoop_eq hdivisor hv1 htake hlen hlt hdrop (m := m) (by rw [length_drop]; omega)
  rw [take_append_drop] at heq
  have hD : 0 < horner NBASE (0 :: v1 :: v2 :: vs) := by omega
  refine ⟨_, heq, digits_quotients hD (digits_take_drop hdrop m).1 ⟨hnonneg, hlt⟩ NBASE_pos, ?_, ?_⟩
  · rw [length_quotients, length_take_of_le (by rw [length_drop]; omega)]
  · -- the remainder so far and the digits used are the first digits of the dividend
    have hfirst :
        horner NBASE (horner NBASE (ds.take (vs.length + 2)) :: (ds.drop (vs.length + 2)).take m) =
        horner NBASE (ds.take (vs.length + 2 + m)) := by
      have hsplit : ds.take (vs.length + 2 + m) =
          ds.take (vs.length + 2) ++ (ds.drop (vs.length + 2)).take m := take_add
      rw [horner_cons, hsplit, horner_append]
    rw [horner_quotients hD ⟨hnonneg, hlt⟩, hfirst, horner_take hds,
      Int.ediv_ediv_of_nonneg (pow_nonneg NBASE_pos.le _)]

/-- The divisor after scaling: no digit more, and the first is not zero. -/
theorem scaleDivisor_spec {v1 v2 d : ℤ} {vs : List ℤ} (h : Digits NBASE (v1 :: v2 :: vs))
    (hv1 : 0 < v1) (hd : 0 < d ∧ d < NBASE) (hfit : d * (v1 + 1) ≤ NBASE) :
    ∃ c w1 w2 ws, scaleDigits d (v1 :: v2 :: vs) = some (c, w1 :: w2 :: ws) ∧
      Digits NBASE (0 :: w1 :: w2 :: ws) ∧ 0 < w1 ∧ ws.length = vs.length ∧
      horner NBASE (0 :: w1 :: w2 :: ws) = d * horner NBASE (v1 :: v2 :: vs) := by
  obtain ⟨s, hs, hcarry, hdigits, hlen, hval⟩ := scaleDigits_spec hd h
  obtain ⟨c, ds⟩ := s
  dsimp only at hcarry hdigits hlen hval
  rw [length_cons, length_cons] at hlen hval
  have hpow : 0 < NBASE ^ (vs.length + 1) := pow_pos NBASE_pos _
  have hlow := h.pow_le_horner NBASE_pos hv1.ne'
  rw [length_cons] at hlow
  have hhigh : horner NBASE (v1 :: v2 :: vs) < (v1 + 1) * NBASE ^ (vs.length + 1) := by
    have hrest := h.of_cons.2.horner_lt NBASE_pos
    rw [length_cons] at hrest
    rw [horner_cons, length_cons]
    linarith
  have hsmall : d * horner NBASE (v1 :: v2 :: vs) < NBASE ^ (vs.length + 2) := by
    calc
      d * horner NBASE (v1 :: v2 :: vs) < d * ((v1 + 1) * NBASE ^ (vs.length + 1)) :=
        mul_lt_mul_of_pos_left hhigh hd.1
      _ = d * (v1 + 1) * NBASE ^ (vs.length + 1) := by ring
      _ ≤ NBASE * NBASE ^ (vs.length + 1) := mul_le_mul_of_nonneg_right hfit hpow.le
      _ = NBASE ^ (vs.length + 2) := by ring
  have hnonneg := hdigits.horner_nonneg NBASE_pos
  have hzero : c = 0 := by
    by_contra hne
    have hmul : NBASE ^ (vs.length + 2) * 1 ≤ NBASE ^ (vs.length + 2) * c :=
      mul_le_mul_of_nonneg_left (by omega) (pow_nonneg NBASE_pos.le _)
    linarith
  rw [hzero, mul_zero, add_zero] at hval
  match ds, hlen with
  | w1 :: w2 :: ws, hlen =>
    simp only [length_cons, Nat.add_right_cancel_iff] at hlen
    obtain ⟨hw1, hws⟩ := hdigits.of_cons
    refine ⟨c, w1, w2, ws, hs, hdigits.cons ⟨le_refl 0, NBASE_pos⟩, ?_,
      hlen, by rw [horner_cons, zero_mul, zero_add, hval]⟩
    by_contra hneg
    have hw0 : w1 = 0 := by omega
    have hless := hws.horner_lt NBASE_pos
    rw [hw0, horner_cons, zero_mul, zero_add] at hval
    rw [length_cons, hlen, hval] at hless
    have hgrow : 1 * horner NBASE (v1 :: v2 :: vs) ≤ d * horner NBASE (v1 :: v2 :: vs) :=
      mul_le_mul_of_nonneg_right (by omega) (by omega)
    omega

/-- The dividend after scaling: the zero in front takes the carry. -/
theorem scaleDividend_spec {d : ℤ} (h : Digits NBASE ds) (hd : 0 < d ∧ d < NBASE) :
    ∃ c es, scaleDigits d (0 :: ds) = some (c, es) ∧ Digits NBASE es ∧ es.length = ds.length + 1 ∧
      horner NBASE es = d * horner NBASE ds := by
  obtain ⟨s, hs, hcarry, hdigits, hlen, hval⟩ := scaleDigits_spec hd (h.cons ⟨le_refl 0, NBASE_pos⟩)
  obtain ⟨c, es⟩ := s
  dsimp only at hcarry hdigits hlen hval
  rw [length_cons] at hlen hval
  rw [horner_cons, zero_mul, zero_add] at hval
  have hlt := h.horner_lt NBASE_pos
  have hsmall : d * horner NBASE ds < NBASE ^ (ds.length + 1) := by
    calc d * horner NBASE ds ≤ d * NBASE ^ ds.length := mul_le_mul_of_nonneg_left hlt.le hd.1.le
      _ < NBASE * NBASE ^ ds.length := mul_lt_mul_of_pos_right hd.2 (pow_pos NBASE_pos _)
      _ = NBASE ^ (ds.length + 1) := by ring
  have hnonneg := hdigits.horner_nonneg NBASE_pos
  have hzero : c = 0 := by
    by_contra hne
    have hmul : NBASE ^ (ds.length + 1) * 1 ≤ NBASE ^ (ds.length + 1) * c :=
      mul_le_mul_of_nonneg_left (by omega) (pow_nonneg NBASE_pos.le _)
    omega
  rw [hzero, mul_zero, add_zero] at hval
  exact ⟨c, es, hs, hdigits, hlen, hval⟩

/-- The quotient digits for a divisor of two digits or more. -/
theorem divMany_spec {v1 v2 : ℤ} {vs : List ℤ} (hds : Digits NBASE ds)
    (h : Digits NBASE (v1 :: v2 :: vs)) (hv1 : 0 < v1) {m z : ℕ}
    (hm : vs.length + 1 + m ≤ ds.length + z) :
    ∃ qs, divMany ds (v1 :: v2 :: vs) (List.replicate z 0) m = some qs ∧ Digits NBASE qs ∧
      qs.length = m ∧
      horner NBASE qs =
        horner NBASE (ds ++ List.replicate z 0) /
          (NBASE ^ (ds.length + z - (vs.length + 1 + m)) * horner NBASE (v1 :: v2 :: vs)) := by
  have hall := hds.append (Digits.zeros NBASE_pos z)
  have hlow := h.pow_le_horner NBASE_pos hv1.ne'
  rw [length_cons] at hlow
  have hv1r := h.of_cons.1
  unfold divMany
  rw [show digitAt (v1 :: v2 :: vs) 0 = v1 from rfl]
  split
  · rename_i hhalf
    dsimp only
    set d := NBASE / (v1 + 1) with hd
    have hdr : 0 < d ∧ d < NBASE := by
      unfold HALF_NBASE at hhalf
      have hone : 1 ≤ d := (Int.le_ediv_iff_mul_le (by omega)).mpr (by unfold NBASE; omega)
      have hlt : d < NBASE := Int.ediv_lt_of_lt_mul (by omega) (by unfold NBASE; omega)
      exact ⟨hone, hlt⟩
    have hfit : d * (v1 + 1) ≤ NBASE := Int.ediv_mul_le _ (by omega)
    obtain ⟨c, w1, w2, ws, hscale, hdivisor, hw1, hwslen, hD⟩ := scaleDivisor_spec h hv1 hdr hfit
    obtain ⟨c', es, hscale', hes, heslen, hV⟩ := scaleDividend_spec hds hdr
    have hdividend := hes.append (Digits.zeros NBASE_pos z)
    have hlen : (es ++ replicate z 0).length = ds.length + z + 1 := by simp [heslen]; omega
    have hVz : horner NBASE (es ++ replicate z 0) = d * horner NBASE (ds ++ replicate z 0) := by
      rw [horner_append, horner_append, hV]
      simp
      ring
    have hstart : horner NBASE ((es ++ replicate z 0).take (ws.length + 2)) <
        horner NBASE (0 :: w1 :: w2 :: ws) := by
      rw [horner_take hdividend, hlen, hVz, hD, hwslen]
      apply Int.ediv_lt_of_lt_mul (pow_pos NBASE_pos _)
      have hlt := hall.horner_lt NBASE_pos
      rw [length_append, length_replicate, show ds.length + z =
        (vs.length + 1) + (ds.length + z + 1 - (vs.length + 2)) by omega, pow_add] at hlt
      rw [mul_assoc]
      apply mul_lt_mul_of_pos_left _ hdr.1
      exact lt_of_lt_of_le hlt (mul_le_mul_of_nonneg_right hlow (pow_nonneg NBASE_pos.le _))
    obtain ⟨qs, hqs, hdigits, hqlen, hval⟩ :=
      divLoop_spec hdivisor hw1 hdividend (m := m) (by rw [hlen]; omega) hstart
    rw [hscale, bind_some, hscale', bind_some]
    refine ⟨qs, hqs, hdigits, hqlen, ?_⟩
    rw [hval, hVz, hD, hlen, hwslen, show ds.length + z + 1 - (vs.length + 2 + m) =
      ds.length + z - (vs.length + 1 + m) by omega, mul_left_comm,
      Int.mul_ediv_mul_of_pos _ _ hdr.1]
  · have hdivisor := h.cons ⟨le_refl 0, NBASE_pos⟩
    have hdividend := hall.cons ⟨le_refl 0, NBASE_pos⟩
    have hstart : horner NBASE ((0 :: (ds ++ replicate z 0)).take (vs.length + 2)) <
        horner NBASE (0 :: v1 :: v2 :: vs) := by
      have hlt := (digits_take_drop hall (vs.length + 1)).1.horner_lt NBASE_pos
      rw [length_take_of_le (by simp; omega)] at hlt
      exact lt_of_lt_of_le hlt hlow
    obtain ⟨qs, hqs, hdigits, hqlen, hval⟩ :=
      divLoop_spec hdivisor hv1 hdividend (m := m) (by simp; omega) hstart
    refine ⟨qs, hqs, hdigits, hqlen, ?_⟩
    have hlen : (0 :: (ds ++ replicate z 0)).length = ds.length + z + 1 := by simp
    rw [hval, hlen, horner_cons, zero_mul, zero_add, horner_cons (x := 0), zero_mul, zero_add,
      show ds.length + z + 1 - (vs.length + 2 + m) = ds.length + z - (vs.length + 1 + m) by omega]

/-- The quotient digits are those of the quotient of the digits, as integers. -/
theorem divDigits_spec {es : List ℤ} (hds : Digits NBASE ds) (hes : Digits NBASE es)
    (hhead : digitAt es 0 ≠ 0) (m : ℕ) :
    ∃ qs, divDigits ds es m = some qs ∧ Digits NBASE qs ∧ qs.length = m ∧
      horner NBASE qs = horner NBASE ds * NBASE ^ (max (m + es.length) ds.length - ds.length) /
        (NBASE ^ (max (m + es.length) ds.length + 1 - (es.length + m)) * horner NBASE es) := by
  unfold divDigits
  dsimp only
  set N := max (m + es.length) ds.length with hN
  have hVz : horner NBASE (ds ++ replicate (N - ds.length) 0) =
      horner NBASE ds * NBASE ^ (N - ds.length) := by
    rw [horner_append]
    simp
  rw [← hVz]
  match es, hes, hhead with
  | [], _, hhead => exact absurd rfl hhead
  | [v], hes, hhead =>
    have hv := hes.of_cons.1
    have hv0 : v ≠ 0 := hhead
    have hall : Digits NBASE (ds ++ replicate (N - ds.length) 0) :=
      hds.append (Digits.zeros NBASE_pos _)
    have htake := (digits_take_drop hall m).1
    have hlen : (ds ++ replicate (N - ds.length) 0).length = N := by simp; omega
    refine ⟨_, divOne_eq (D := v) ⟨by omega, hv.2⟩ htake ⟨le_refl 0, by omega⟩, ?_, ?_, ?_⟩
    · exact digits_quotients (by omega) htake ⟨le_refl 0, by omega⟩ NBASE_pos
    · rw [length_quotients, length_take_of_le (by rw [hlen]; simp at hN; omega)]
    · rw [horner_quotients (by omega) ⟨le_refl 0, by omega⟩, horner_cons, zero_mul, zero_add,
        horner_take hall, hlen, Int.ediv_ediv_of_nonneg (pow_nonneg NBASE_pos.le _),
        length_singleton, show N + 1 - (1 + m) = N - m by omega]
      simp
  | v1 :: v2 :: vs, hes, hhead =>
    have hv := hes.of_cons.1
    have hv0 : v1 ≠ 0 := hhead
    simp only [length_cons] at hN
    obtain ⟨qs, hqs, hdigits, hlen, hval⟩ :=
      divMany_spec hds hes (by omega) (m := m) (z := N - ds.length) (by omega)
    rw [if_neg (by simp)]
    refine ⟨qs, hqs, hdigits, hlen, ?_⟩
    rw [hval, length_cons, length_cons, show ds.length + (N - ds.length) - (vs.length + 1 + m) =
      N + 1 - (vs.length + 1 + 1 + m) by omega]

variable {var1 var2 : NumericVar}

/-- The quotient digits are the quotient of the absolute values, cut off after the last of them. -/
theorem divDigits_value (h1 : var1.DigitsOk) (h2 : var2.DigitsOk)
    (hhead : digitAt var2.digits 0 ≠ 0) (m : ℕ) :
    ∃ qs, divDigits var1.digits var2.digits m = some qs ∧ Digits NBASE qs ∧
      fixedPoint NBASE qs (var1.weight - var2.weight) =
        ⌊var1.absValue / var2.absValue * (NBASE : ℚ) ^ (m - 1 - (var1.weight - var2.weight) : ℤ)⌋ /
        (NBASE : ℚ) ^ (m - 1 - (var1.weight - var2.weight) : ℤ) := by
  obtain ⟨qs, hqs, hdigits, hlen, hval⟩ := divDigits_spec h1 h2 hhead m
  refine ⟨qs, hqs, hdigits, ?_⟩
  set N := max (m + var2.digits.length) var1.digits.length with hN
  have hB : (NBASE : ℚ) ≠ 0 := by exact_mod_cast NBASE_ne_zero
  have hfloor : horner NBASE qs =
      ⌊var1.absValue / var2.absValue *
      (NBASE : ℚ) ^ (m - 1 - (var1.weight - var2.weight) : ℤ)⌋ := by
    have hD : 0 ≤ NBASE ^ (N + 1 - (var2.digits.length + m)) * horner NBASE var2.digits :=
      mul_nonneg (pow_nonneg NBASE_pos.le _) (h2.horner_nonneg NBASE_pos)
    rw [hval, ← Int.floor_intCast (R := ℚ) (horner NBASE var1.digits * _),
      ← Int.floor_div_cast_of_nonneg hD]
    congr 1
    -- only powers of the base are left on both sides
    have hexp :
        (NBASE : ℚ) ^ (N - var1.digits.length) / (NBASE : ℚ) ^ (N + 1 - (var2.digits.length + m)) =
        (NBASE : ℚ) ^ (var1.weight + 1 - var1.digits.length) /
        (NBASE : ℚ) ^ (var2.weight + 1 - var2.digits.length) *
          (NBASE : ℚ) ^ (m - 1 - (var1.weight - var2.weight) : ℤ) := by
      rw [← zpow_natCast, ← zpow_natCast, ← zpow_sub₀ hB, ← zpow_sub₀ hB, ← zpow_add₀ hB]
      congr 1
      omega
    unfold NumericVar.absValue fixedPoint
    push_cast
    rw [mul_comm ((NBASE : ℚ) ^ (N + 1 - (var2.digits.length + m))), mul_div_mul_comm,
      mul_div_mul_comm, hexp, mul_assoc]
  rw [← hfloor, fixedPoint, hlen, div_eq_mul_inv, ← zpow_neg]
  congr 2
  ring

theorem NumericSign.factor_div (sign1 sign2 : NumericSign) :
    sign1.factor / sign2.factor = (if sign1 = sign2 then NumericSign.pos else .neg).factor := by
  cases sign1 <;> cases sign2 <;> simp [NumericSign.factor]

theorem symmetric_factor {f : ℚ → ℤ} (hf : f 0 = 0) (sign : NumericSign) {x : ℚ} (hx : 0 ≤ x) :
    (symmetric f (sign.factor * x) : ℚ) = sign.factor * f x := by
  cases sign with
  | pos => rw [NumericSign.factor, one_mul, one_mul, symmetric_of_nonneg f hx]
  | neg =>
    rw [NumericSign.factor, neg_one_mul, neg_one_mul, symmetric_neg hf hx]
    rfl

/-- The digits computed reach the scale asked for, and one digit further for rounding. -/
theorem divNdigits_spec (var1 var2 : NumericVar) {rscale : ℤ} (hr : 0 ≤ rscale) (round : Bool) :
    ∃ k : ℕ, ((divNdigits var1 var2 rscale round).toNat - 1 - (var1.weight - var2.weight)) * 4 =
      rscale + k ∧ (round = true → 0 < k) := by
  unfold divNdigits DEC_DIGITS
  rw [Int.tdiv_eq_ediv_of_nonneg (by omega)]
  generalize var1.weight - var2.weight = w
  cases round with
  | false =>
    simp only [Bool.false_eq_true, if_false]
    obtain ⟨k, hk⟩ :=
      Int.eq_ofNat_of_zero_le (show 0 ≤
        ((max (w + 1 + (rscale + 4 - 1) / 4) 1).toNat - 1 - w) * 4 - rscale by omega)
    exact ⟨k, by omega, fun h => (by cases h)⟩
  | true =>
    simp only [if_true]
    obtain ⟨k, hk⟩ :=
      Int.eq_ofNat_of_zero_le (show 0 ≤
        ((max (w + 1 + (rscale + 4 - 1) / 4) 1 + 1).toNat - 1 - w) * 4 - rscale by omega)
    exact ⟨k, by omega, fun _ => by omega⟩

/-- Dividing at a scale, in terms of the quotient of the absolute values. -/
theorem div_scaled {X : ℚ} {M s : ℤ} {k : ℕ} (hM : M * 4 = s + k) :
    ⌊X * (NBASE : ℚ) ^ M⌋ / (NBASE : ℚ) ^ M * (10 : ℚ) ^ s =
      (⌊X * (10 : ℚ) ^ s * (10 ^ k : ℕ)⌋ : ℚ) / (10 ^ k : ℕ) := by
  have hpow : (NBASE : ℚ) ^ M = (10 : ℚ) ^ s * (10 ^ k : ℕ) := by
    rw [NBASE_zpow, hM, ten_zpow_add]
    simp
  rw [hpow, mul_assoc]
  field_simp

/-- The quotient, rounded or truncated at the scale asked for. No 32-bit integer overflows and no
digit is out of range. -/
theorem divVar_spec (h1 : var1.DigitsOk) (h2 : Normalised var2) (hne : var2.digits ≠ [])
    {rscale : ℤ} (hr : 0 ≤ rscale) (round : Bool) :
    ∃ q, divVar var1 var2 rscale round = .ok q ∧ Normalised q ∧ q.dscale = rscale ∧
      q.value * (10 : ℚ) ^ rscale =
        if round then roundAway (var1.value / var2.value * (10 : ℚ) ^ rscale)
        else truncate (var1.value / var2.value * (10 : ℚ) ^ rscale) := by
  have hhead : digitAt var2.digits 0 ≠ 0 := by
    obtain ⟨d, ds, hcons⟩ := exists_cons_of_ne_nil hne
    have hstripped := h2.stripped
    rw [hcons] at hstripped ⊢
    exact fun hzero => hstripped.1 (congrArg some hzero)
  have hpos2 := h2.absValue_pos hne
  unfold divVar
  rw [if_neg (by tauto)]
  by_cases hnil : var1.digits = []
  · have hzero : var1.value / var2.value * (10 : ℚ) ^ rscale = 0 := by
      rw [NumericVar.value, absValue_of_nil hnil, mul_zero, zero_div, zero_mul]
    rw [if_pos hnil, hzero]
    refine ⟨_, rfl, zeroVar_normalised rscale, rfl, ?_⟩
    rw [value_zeroVar, zero_mul, roundAway, truncate, symmetric_of_nonneg _ (le_refl 0),
      symmetric_of_nonneg _ (le_refl 0), floor_half_zero, Int.floor_zero]
    simp
  · rw [if_neg hnil]
    obtain ⟨k, hk, hround⟩ := divNdigits_spec var1 var2 hr round
    obtain ⟨qs, hqs, hdigits, hval⟩ :=
      divDigits_value h1 h2.digitsOk hhead (divNdigits var1 var2 rscale round).toNat
    rw [hqs]
    set sign := if var1.sign = var2.sign then NumericSign.pos else .neg with hsign
    set X := var1.absValue / var2.absValue with hX
    have hX0 : 0 ≤ X * (10 : ℚ) ^ rscale :=
      mul_nonneg (div_nonneg h1.absValue_nonneg hpos2.le) (zpow_pos (by norm_num) _).le
    have hquot : var1.value / var2.value * (10 : ℚ) ^ rscale =
        sign.factor * (X * (10 : ℚ) ^ rscale) := by
      rw [NumericVar.value, NumericVar.value, mul_div_mul_comm, NumericSign.factor_div, mul_assoc]
    dsimp only
    set result : NumericVar :=
      { digits := qs, weight := var1.weight - var2.weight, sign := sign, dscale := 0 } with hresult
    have hok : result.DigitsOk := hdigits
    have hscaled : result.value * (10 : ℚ) ^ rscale =
        sign.factor * ((⌊X * (10 : ℚ) ^ rscale * (10 ^ k : ℕ)⌋ : ℚ) / (10 ^ k : ℕ)) := by
      rw [← div_scaled hk, ← hval, ← mul_assoc]
      rfl
    have hfloor0 : (0 : ℚ) ≤ (⌊X * (10 : ℚ) ^ rscale * (10 ^ k : ℕ)⌋ : ℚ) / (10 ^ k : ℕ) := by
      positivity
    have hkpos : 0 < 10 ^ k := by positivity
    cases round with
    | false =>
      refine ⟨_, rfl, stripVar_normalised (truncVar_absValue hok rscale).1, by simp, ?_⟩
      rw [stripVar_value, if_neg Bool.false_ne_true, if_neg Bool.false_ne_true, truncVar_value hok,
        hscaled, hquot, truncate, truncate, symmetric_factor Int.floor_zero _ hfloor0,
        floor_of_floor hkpos, symmetric_factor Int.floor_zero _ hX0]
    | true =>
      -- the scale beyond is at least ten, so a half is a whole number of parts
      obtain ⟨j, hj⟩ : ∃ j, 10 ^ k = 2 * j :=
        ⟨10 ^ (k - 1) * 5, by rw [← Nat.sub_add_cancel (hround rfl), pow_succ]; simp; ring⟩
      refine ⟨_, rfl, stripVar_normalised (roundVar_absValue hok rscale).1, by simp, ?_⟩
      rw [stripVar_value, if_pos rfl, roundVar_value hok, hscaled, hquot, roundAway, roundAway,
        symmetric_factor floor_half_zero _ hfloor0, hj, floor_half_of_floor (by omega), if_pos rfl,
        symmetric_factor floor_half_zero _ hX0]

/-! ## The remainder -/

/-- The display scale hides no digit, as every variable has to have it. mirrors numeric.c:244-251 -/
structure NumericVar.Displayed (var : NumericVar) : Prop where
  nonneg : 0 ≤ var.dscale
  hasScale : HasScale var.value var.dscale

theorem modVar_spec (h1 : var1.DigitsOk) (h2 : Normalised var2) (hne : var2.digits ≠ [])
    (hdisplayed : var2.Displayed) :
    ∃ r, modVar var1 var2 = .ok r ∧
      r.value = var1.value - var2.value * truncate (var1.value / var2.value) ∧
      (Normalised var1 → Normalised r) := by
  obtain ⟨q, hq, hnorm, -, hvalue⟩ := divVar_spec h1 h2 hne (le_refl 0) false
  rw [if_neg Bool.false_ne_true, zpow_zero, mul_one, mul_one] at hvalue
  have hscale : HasScale q.value 0 := ⟨_, by rw [zpow_zero, mul_one, hvalue]⟩
  have hproduct : HasScale (var2.value * q.value) var2.dscale := by
    obtain ⟨z, hz⟩ := hdisplayed.hasScale
    refine ⟨z * truncate (var1.value / var2.value), ?_⟩
    rw [hvalue, Int.cast_mul, ← hz]
    ring
  obtain ⟨p, hp, hpvalue⟩ :=
    mulVar_exact h2 hnorm hdisplayed.nonneg hproduct
      (Or.inr ⟨_, 0, hdisplayed.hasScale, hscale, by omega⟩)
  obtain ⟨p', hp', hpnorm, -⟩ := mulVar_normalised h2.digitsOk hnorm.digitsOk var2.dscale
  rw [hp, some_inj] at hp'
  rw [← hp'] at hpnorm
  refine ⟨subVar var1 p, ?_, ?_, fun hnorm1 => subVar_normalised hnorm1 hpnorm⟩
  · rw [modVar, hq, Except.bind, hp]
  · rw [(subVar_value h1 hpnorm.digitsOk).1, hpvalue, hvalue]

/-- Division by a normalised divisor that is not zero: the quotient is rounded half away from zero
or truncated at the scale asked for, without overflow of a 32-bit integer or a digit. The
remainder is the one of the truncated quotient; it is smaller than the divisor and has the sign of
the dividend if it is not zero. -/
theorem division_exact (h1 : var1.DigitsOk) (h2 : Normalised var2) (hne : var2.digits ≠ []) :
    (∀ rscale round, 0 ≤ rscale → ∃ q, divVar var1 var2 rscale round = .ok q ∧ Normalised q ∧
      q.dscale = rscale ∧
      q.value * (10 : ℚ) ^ rscale =
        if round then roundAway (var1.value / var2.value * (10 : ℚ) ^ rscale)
        else truncate (var1.value / var2.value * (10 : ℚ) ^ rscale)) ∧
    (var2.Displayed → ∃ r, modVar var1 var2 = .ok r ∧
      r.value = var1.value - var2.value * truncate (var1.value / var2.value) ∧
      |r.value| < |var2.value| ∧ (0 ≤ var1.value → 0 ≤ r.value) ∧ (var1.value ≤ 0 → r.value ≤ 0) ∧
      (Normalised var1 → Normalised r)) := by
  constructor
  · intro rscale round hr
    exact divVar_spec h1 h2 hne hr round
  · intro hdisplayed
    obtain ⟨r, hr, hvalue, hnorm⟩ := modVar_spec h1 h2 hne hdisplayed
    have hfactor : var2.sign.factor ≠ 0 := by cases var2.sign <;> simp [NumericSign.factor]
    have hzero : var2.value ≠ 0 := mul_ne_zero hfactor (h2.absValue_pos hne).ne'
    obtain ⟨habs, hpos, hneg⟩ := sub_mul_truncate var1.value hzero
    rw [← hvalue] at habs hpos hneg
    exact ⟨r, hr, hvalue, habs, hpos, hneg, hnorm⟩

/-- -12345678.9 by 10000.7: the quotient at three digits, and the remainder. -/
theorem division_exact_threeDigits :
    let var1 : NumericVar :=
      { digits := [1234, 5678, 9000], weight := 1, sign := .neg, dscale := 1 }
    let var2 : NumericVar := { digits := [1, 0, 7000], weight := 1, sign := .pos, dscale := 1 }
    var1.DigitsOk ∧ Normalised var2 ∧ var2.Displayed ∧
    (∃ q, divVar var1 var2 3 true = .ok q ∧ q.value = -1234481 / 1000) ∧
      ∃ r, modVar var1 var2 = .ok r ∧ r.value = -48151 / 10 := by
  intro var1 var2
  have h1 : var1.DigitsOk := by unfold NumericVar.DigitsOk Digits; decide
  have h2 : Normalised var2 :=
    ⟨by unfold NumericVar.DigitsOk Digits; decide, by unfold Stripped; decide, by intro h; cases h⟩
  have hvalue1 : var1.value = -123456789 / 10 := by decide +kernel
  have hvalue2 : var2.value = 100007 / 10 := by decide +kernel
  have hdisplayed : var2.Displayed := ⟨by decide, 100007, by rw [hvalue2]; norm_num [var2]⟩
  obtain ⟨hdiv, hmod⟩ := division_exact h1 h2 (by decide)
  obtain ⟨q, hq, -, -, hqvalue⟩ := hdiv 3 true (by decide)
  obtain ⟨r, hr, hrvalue, -⟩ := hmod hdisplayed
  refine ⟨h1, h2, hdisplayed, ⟨q, hq, ?_⟩, r, hr, ?_⟩
  · have hround : roundAway (var1.value / var2.value * (10 : ℚ) ^ (3 : ℤ)) = -1234481 := by
      decide +kernel
    rw [if_pos rfl, hround] at hqvalue
    norm_num at hqvalue ⊢
    linarith
  · have htrunc : truncate (var1.value / var2.value) = -1234 := by decide +kernel
    rw [hrvalue, htrunc, hvalue1, hvalue2]
    norm_num

end GreenPipeline.L1.Numeric
