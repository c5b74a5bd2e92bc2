import GreenPipeline.Core.Positional
import Mathlib.Data.List.DropRight

/-!
# Numeric variables

`src/backend/utils/adt/numeric.c` computes on variables with digits in base 10000, the weight of
the first digit, a sign and a display scale. This module has the variables and the functions on
one level of digits: stripping zeros, rounding and truncating, comparing, adding and subtracting.

A buffer has a spare digit in front of the first for a carry, and the functions allocate the
result's buffer before they read the operands no more, so that results may be stored in operands;
here they are values.

Results are in the next modules:

* `NumericValue`: `cmpVar_eq`, `addVar_value`, `subVar_value`.
* `NumericRound`: `roundVar_value`, `truncVar_value`.
-/
namespace GreenPipeline.L1.Numeric

open GreenPipeline.Core.Positional

/-- mirrors numeric.c:93 -/
def NBASE : ℤ := 10000

/-- mirrors numeric.c:94 -/
def HALF_NBASE : ℤ := 5000

/-- Decimal digits in a digit. mirrors numeric.c:95 -/
def DEC_DIGITS : ℤ := 4

/-- The sign of a variable. Callers have dealt with NaN before. -/
inductive NumericSign
  | pos
  | neg
  deriving DecidableEq, Repr

/-- mirrors numeric.c:269-277 -/
structure NumericVar where
  digits : List ℤ
  weight : ℤ
  sign : NumericSign
  dscale : ℤ
  deriving DecidableEq, Repr

/-- A value of type numeric, by the variable it is unpacked to. -/
inductive NumericDatum
  | nan
  | finite (var : NumericVar)
  deriving DecidableEq, Repr

def NumericVar.ndigits (var : NumericVar) : ℤ := var.digits.length

/-- `zero_var`, with the display scale its callers give the result. mirrors numeric.c:5433-5442 -/
def zeroVar (dscale : ℤ) : NumericVar :=
  { digits := [], weight := 0, sign := .pos, dscale := dscale }

/-- mirrors numeric.c:374-376 -/
def constOne : NumericVar := { digits := [1], weight := 0, sign := .pos, dscale := 0 }

/-! ## Stripping zeros -/

/-- mirrors numeric.c:8770-8797 -/
def stripVar (var : NumericVar) : NumericVar :=
  let zeros := var.digits.takeWhile (· = 0)
  let digits := (var.digits.dropWhile (· = 0)).rdropWhile (· = 0)
  if digits = [] then { var with digits := [], sign := .pos, weight := 0 }
  else { var with digits := digits, weight := var.weight - zeros.length }

/-! ## Rounding -/

/-- mirrors numeric.c:426 -/
def roundPowers (di : ℤ) : ℤ :=
  if di = 1 then 1000 else if di = 2 then 100 else if di = 3 then 10 else 0

/-- One digit of the loop that propagates a carry. -/
def carryOne (digit carry : ℤ) : ℤ × ℤ :=
  if carry = 0 then (0, digit)
  else if carry + digit ≥ NBASE then (1, carry + digit - NBASE)
  else (0, carry + digit)

/-- mirrors numeric.c:8669-8682 -/
def propagateCarry (digits : List ℤ) (carry : ℤ) : ℤ × List ℤ :=
  digits.foldr (fun d s => ((carryOne d s.1).1, (carryOne d s.1).2 :: s.2)) (carry, [])

/-- The last digit that is kept, when only its first `di` decimal digits are, and the carry. mirrors
numeric.c:8642-8663 -/
def roundDigit (digit di : ℤ) : ℤ × ℤ :=
  let pow10 := roundPowers di
  let extra := digit % pow10
  let digit := digit - extra
  if extra ≥ pow10 / 2 then
    let pow10 := pow10 + digit
    if pow10 ≥ NBASE then (1, pow10 - NBASE) else (0, pow10)
  else (0, digit)

/-- The first `ndigits` digits, of the last only `di` decimal digits (all if `di` is 0), and the
carry. mirrors numeric.c:8642-8682 -/
def roundDigits (digits : List ℤ) (ndigits : ℕ) (di : ℤ) : ℤ × List ℤ :=
  if di = 0 then
    propagateCarry (digits.take ndigits) (if digitAt digits ndigits ≥ HALF_NBASE then 1 else 0)
  else
    let last := roundDigit (digitAt digits (ndigits - 1 : ℕ)) di
    let s := propagateCarry (digits.take (ndigits - 1)) last.1
    (s.1, s.2 ++ [last.2])

/-- mirrors numeric.c:8602-8699 -/
def roundVar (var : NumericVar) (rscale : ℤ) : NumericVar :=
  let di := (var.weight + 1) * DEC_DIGITS + rscale
  if di < 0 then zeroVar rscale
  else
    let ndigits := ((di + DEC_DIGITS - 1) / DEC_DIGITS).toNat
    let di := di % DEC_DIGITS
    if ndigits < var.digits.length ∨ ndigits = var.digits.length ∧ di > 0 then
      let s := roundDigits var.digits ndigits di
      -- a carry out of the first digit goes to the spare one
      if s.1 = 0 then { var with digits := s.2, dscale := rscale }
      else { var with digits := s.1 :: s.2, weight := var.weight + 1, dscale := rscale }
    else { var with dscale := rscale }

/-- The first `ndigits` digits, of the last only `di` decimal digits. mirrors numeric.c:8740-8758 -/
def truncDigits (digits : List ℤ) (ndigits : ℕ) (di : ℤ) : List ℤ :=
  if di > 0 then
    let last := digitAt digits (ndigits - 1 : ℕ)
    digits.take (ndigits - 1) ++ [last - last % roundPowers di]
  else digits.take ndigits

/-- mirrors numeric.c:8708-8763 -/
def truncVar (var : NumericVar) (rscale : ℤ) : NumericVar :=
  let di := (var.weight + 1) * DEC_DIGITS + rscale
  if di ≤ 0 then zeroVar rscale
  else
    let ndigits := ((di + DEC_DIGITS - 1) / DEC_DIGITS).toNat
    if ndigits ≤ var.digits.length then
      { var with digits := truncDigits var.digits ndigits (di % DEC_DIGITS), dscale := rscale }
    else { var with dscale := rscale }

/-! ## Comparing -/

/-- The digits before the first common one: `none` if one of them is not zero, else the rest and
its weight. mirrors numeric.c:8380-8385 -/
def skipAbove (other : ℤ) : List ℤ → ℤ → Option (List ℤ × ℤ)
  | [], w => some ([], w)
  | d :: ds, w =>
    if w > other then if d ≠ 0 then none else skipAbove other ds (w - 1) else some (d :: ds, w)

/-- What is left when one side has run out of digits. mirrors numeric.c:8410-8423 -/
def cmpRest (digits1 digits2 : List ℤ) : ℤ :=
  if digits1.any (· ≠ 0) then 1 else if digits2.any (· ≠ 0) then -1 else 0

/-- mirrors numeric.c:8396-8423 -/
def cmpCommon : List ℤ → List ℤ → ℤ
  | x :: xs, y :: ys => if x - y ≠ 0 then if x - y > 0 then 1 else -1 else cmpCommon xs ys
  | xs, ys => cmpRest xs ys

/-- mirrors numeric.c:8371-8426 -/
def cmpAbsCommon (digits1 : List ℤ) (weight1 : ℤ) (digits2 : List ℤ) (weight2 : ℤ) : ℤ :=
  match skipAbove weight2 digits1 weight1 with
  | none => 1
  | some (digits1, weight1) =>
    match skipAbove weight1 digits2 weight2 with
    | none => -1
    | some (digits2, weight2) =>
      if weight1 = weight2 then cmpCommon digits1 digits2 else cmpRest digits1 digits2

/-- mirrors numeric.c:8357-8362 -/
def cmpAbs (var1 var2 : NumericVar) : ℤ :=
  cmpAbsCommon var1.digits var1.weight var2.digits var2.weight

/-- mirrors numeric.c:6390-6439 -/
def cmpVar (var1 var2 : NumericVar) : ℤ :=
  if var1.digits = [] then
    if var2.digits = [] then 0
    else if var2.sign = .neg then 1
    else -1
  else if var2.digits = [] then
    if var1.sign = .pos then 1 else -1
  else if var1.sign = .pos then
    if var2.sign = .neg then 1 else cmpAbs var1 var2
  else if var2.sign = .pos then -1
  else cmpAbs var2 var1

/-! ## Adding and subtracting -/

/-- One digit of the sum and the carry. mirrors numeric.c:8478-8490 -/
def addDigit (digit1 digit2 carry : ℤ) : ℤ × ℤ :=
  let carry := carry + digit1 + digit2
  if carry ≥ NBASE then (1, carry - NBASE) else (0, carry)

/-- One digit of the difference and the borrow. mirrors numeric.c:8563-8575 -/
def subDigit (digit1 digit2 borrow : ℤ) : ℤ × ℤ :=
  let borrow := borrow + digit1 - digit2
  if borrow < 0 then (-1, borrow + NBASE) else (0, borrow)

/-- Fractional digits, in base 10000. mirrors numeric.c:8460 -/
def NumericVar.rscale (var : NumericVar) : ℤ := var.ndigits - var.weight - 1

/-- The digit of an operand, zero where it has none, for index `i` of the result. mirrors
numeric.c:8470-8481 -/
def operandDigit (var : NumericVar) (resRscale resNdigits : ℤ) (i : ℕ) : ℤ :=
  digitAt var.digits (resRscale + var.weight + 1 - (resNdigits - i))

/-- The loop over the result's digits from the last on, and what it carries out of the first.
mirrors numeric.c:8470-8491 -/
def digitLoop (digit : ℤ → ℤ → ℤ → ℤ × ℤ) (var1 var2 : NumericVar)
    (resRscale resNdigits : ℤ) : ℤ × List ℤ :=
  (List.range resNdigits.toNat).foldr
    (fun (i : ℕ) s =>
      let r :=
        digit (operandDigit var1 resRscale resNdigits i)
          (operandDigit var2 resRscale resNdigits i) s.1
      (r.1, r.2 :: s.2))
    (0, [])

/-- The absolute values are added; the caller sets the sign. mirrors numeric.c:8435-8508 -/
def addAbs (var1 var2 : NumericVar) : NumericVar :=
  let resWeight := max var1.weight var2.weight + 1
  let resRscale := max var1.rscale var2.rscale
  let resNdigits := resRscale + resWeight + 1
  let resNdigits := if resNdigits ≤ 0 then 1 else resNdigits
  stripVar
    { digits := (digitLoop addDigit var1 var2 resRscale resNdigits).2
      weight := resWeight
      sign := .pos
      dscale := max var1.dscale var2.dscale }

/-- The absolute value of `var2` is subtracted from that of `var1`, which must not be less. mirrors
numeric.c:8520-8593 -/
def subAbs (var1 var2 : NumericVar) : NumericVar :=
  let resWeight := var1.weight
  let resRscale := max var1.rscale var2.rscale
  let resNdigits := resRscale + resWeight + 1
  let resNdigits := if resNdigits ≤ 0 then 1 else resNdigits
  stripVar
    { digits := (digitLoop subDigit var1 var2 resRscale resNdigits).2
      weight := resWeight
      sign := .pos
      dscale := max var1.dscale var2.dscale }

def NumericSign.opposite : NumericSign → NumericSign
  | .pos => .neg
  | .neg => .pos

/-- The absolute values have to be compared: the result has `sign` if the first is larger. mirrors
numeric.c:6473-6500 -/
def subCompared (sign : NumericSign) (var1 var2 : NumericVar) : NumericVar :=
  let cmp := cmpAbs var1 var2
  if cmp = 0 then zeroVar (max var1.dscale var2.dscale)
  else if cmp = 1 then { subAbs var1 var2 with sign := sign }
  else { subAbs var2 var1 with sign := sign.opposite }

/-- mirrors numeric.c:6448-6556 -/
def addVar (var1 var2 : NumericVar) : NumericVar :=
  match var1.sign, var2.sign with
  | .pos, .pos => { addAbs var1 var2 with sign := .pos }
  | .pos, .neg => subCompared .pos var1 var2
  | .neg, .pos => subCompared .neg var1 var2
  | .neg, .neg => { addAbs var1 var2 with sign := .neg }

/-- mirrors numeric.c:6565-6677 -/
def subVar (var1 var2 : NumericVar) : NumericVar :=
  match var1.sign, var2.sign with
  | .pos, .neg => { addAbs var1 var2 with sign := .pos }
  | .pos, .pos => subCompared .pos var1 var2
  | .neg, .neg => subCompared .neg var1 var2
  | .neg, .pos => { addAbs var1 var2 with sign := .neg }

end GreenPipeline.L1.Numeric
