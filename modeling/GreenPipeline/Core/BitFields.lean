import Mathlib.Algebra.Order.Ring.Nat
import Mathlib.Tactic.Common

/-!
# Fields of a word

Fields of `k` bits at given shifts, read and written with masks, in words and in natural numbers.

Results:

* `getField_setField`: a field that is written reads back.
* `getField_setField_of_disjoint`: the other fields stay.
-/
namespace GreenPipeline.Core.BitFields

open BitVec

variable {w : Nat}

/-- The lowest `k` bits. -/
def mask (w k : Nat) : BitVec w := (BitVec.allOnes k).setWidth w

def getField (k : Nat) (b : BitVec w) (shift : Nat) : BitVec w := (b >>> shift) &&& mask w k

def setField (k : Nat) (b : BitVec w) (shift : Nat) (v : BitVec w) : BitVec w :=
  (b &&& ~~~(mask w k <<< shift)) ||| (v <<< shift)

theorem getLsbD_mask {k i : Nat} : (mask w k).getLsbD i = (decide (i < w) && decide (i < k)) := by
  rw [mask, getLsbD_setWidth, getLsbD_allOnes]

theorem getLsbD_getField {k : Nat} {b : BitVec w} {shift i : Nat} :
    (getField k b shift).getLsbD i = (b.getLsbD (shift + i) && decide (i < k)) := by
  rw [getField, getLsbD_and, getLsbD_ushiftRight, getLsbD_mask]
  by_cases hi : i < w
  · simp [hi]
  · simp [hi, getLsbD_of_ge b (shift + i) (by omega)]

theorem getLsbD_setField {k : Nat} {b v : BitVec w} {shift i : Nat} (hi : i < w) :
    (setField k b shift v).getLsbD i =
    if i < shift then b.getLsbD i
    else (decide (k ≤ i - shift) && b.getLsbD i) || v.getLsbD (i - shift) := by
  rw [setField, getLsbD_or, getLsbD_and, getLsbD_not, getLsbD_shiftLeft,
    getLsbD_shiftLeft, getLsbD_mask]
  have hlt : i - shift < w := by omega
  by_cases hshift : i < shift
  · simp [hi, hshift]
  · by_cases hk : k ≤ i - shift
    · simp [hi, hshift, hlt, hk, show ¬ i - shift < k by omega]
    · simp [hi, hshift, hlt, hk]

variable {k shift shift' : Nat} {b v : BitVec w}

/-- The value has no bits above the field. -/
def Fits (k : Nat) (v : BitVec w) : Prop := ∀ i, k ≤ i → v.getLsbD i = false

theorem getField_setField (hv : Fits k v) (hw : shift + k ≤ w) :
    getField k (setField k b shift v) shift = v := by
  refine eq_of_getLsbD_eq fun i hi => ?_
  rw [getLsbD_getField]
  by_cases hk : i < k
  · rw [getLsbD_setField (by omega), if_neg (by omega)]
    simp [hk, show ¬ k ≤ i by omega]
  · rw [hv i (by omega)]
    simp [hk]

theorem getField_setField_of_disjoint (hv : Fits k v)
    (h : shift + k ≤ shift' ∨ shift' + k ≤ shift) :
    getField k (setField k b shift v) shift' = getField k b shift' := by
  refine eq_of_getLsbD_eq fun i hi => ?_
  rw [getLsbD_getField, getLsbD_getField]
  by_cases hk : i < k
  · by_cases hw : shift' + i < w
    · rw [getLsbD_setField hw]
      by_cases hlt : shift' + i < shift
      · rw [if_pos hlt]
      · rw [if_neg hlt, hv _ (by omega)]
        simp [show k ≤ shift' + i - shift by omega]
    · rw [getLsbD_of_ge _ _ (by omega), getLsbD_of_ge _ _ (by omega)]
  · simp [hk]

end GreenPipeline.Core.BitFields
