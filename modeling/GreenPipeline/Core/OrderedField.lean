import Mathlib.Algebra.Order.Field.Basic
import Mathlib.Tactic.Linarith
import Mathlib.Tactic.NormNum

/-!
# Sums of charges in an ordered field

A cost is a sum of charges none of which is negative, some of them made only
under a condition. Here: such a charge, and the sign of the decimals it is
scaled with.

The instances are shortcuts. The search for what a sum or product of
non-negative terms needs goes through the whole order hierarchy each time,
and a costing function asks for it dozens of times.
-/
namespace GreenPipeline.Core

variable {K : Type*} [Field K] [LinearOrder K]

/-- A charge that is only made under a condition. -/
theorem guarded_nonneg {p : Prop} [Decidable p] {charge : K} (h : p → 0 ≤ charge) :
    0 ≤ if p then charge else 0 := by
  split_ifs with hp
  · exact h hp
  · exact le_rfl

variable [IsStrictOrderedRing K]

instance isOrderedRing : IsOrderedRing K := IsStrictOrderedRing.toIsOrderedRing

instance isOrderedAddMonoid : IsOrderedAddMonoid K := IsOrderedRing.toIsOrderedAddMonoid

instance addLeftMono : AddLeftMono K := IsOrderedAddMonoid.toAddLeftMono

instance addRightMono : AddRightMono K := addRightMono_of_addLeftMono K

instance posMulMono : PosMulMono K := IsOrderedRing.toPosMulMono

instance zeroLEOneClass : ZeroLEOneClass K := IsOrderedRing.toZeroLEOneClass

theorem zero_lt_2_0 : (0 : K) < 2.0 := by norm_num

theorem one_lt_2_0 : (1 : K) < 2.0 := by norm_num

end GreenPipeline.Core
