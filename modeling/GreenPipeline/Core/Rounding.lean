import GreenPipeline.Core.OrderedField
import Mathlib.Algebra.Order.Floor.Ring
import Mathlib.Algebra.Ring.Parity

/-!
# Rounding to the nearest integer, ties to even

`rint` is the C library's function of that name in the default rounding mode,
over any ordered field with a floor.

Results: `rint_intCast` (an integer is its own rounding) and `rint_mono`
(rounding is monotone).
-/
namespace GreenPipeline.Core

variable {K : Type*} [Field K] [LinearOrder K] [FloorRing K]

/-- The nearest integer, the even one of the two where both are equally near. -/
def rintInt (x : K) : ℤ :=
  if Int.fract x < 0.5 then ⌊x⌋
  else if 0.5 < Int.fract x then ⌊x⌋ + 1
  else if ⌊x⌋ % 2 = 0 then ⌊x⌋ else ⌊x⌋ + 1

def rint (x : K) : K := rintInt x

theorem floor_le_rintInt (x : K) : ⌊x⌋ ≤ rintInt x := by
  unfold rintInt
  split_ifs <;> omega

theorem rintInt_le_floor_succ (x : K) : rintInt x ≤ ⌊x⌋ + 1 := by
  unfold rintInt
  split_ifs <;> omega

variable [IsStrictOrderedRing K]

theorem rintInt_intCast (n : ℤ) : rintInt (n : K) = n := by
  have hfract : Int.fract (n : K) < 0.5 := by
    norm_num
  rw [rintInt, if_pos hfract, Int.floor_intCast]

theorem rintInt_mono {x y : K} (h : x ≤ y) : rintInt x ≤ rintInt y := by
  rcases (Int.floor_mono h).eq_or_lt with heq | hlt
  · -- on one unit interval the fractional parts decide
    have hfract : Int.fract x ≤ Int.fract y := by
      rw [Int.fract, Int.fract, heq]
      linarith
    unfold rintInt
    split_ifs with h1 h2 h3 h4 h5 h6 <;> first | omega | (exfalso; linarith)
  · have := rintInt_le_floor_succ x
    have := floor_le_rintInt y
    omega

theorem rint_intCast (n : ℤ) : rint (n : K) = n := by
  rw [rint, rintInt_intCast]

theorem rint_mono {x y : K} (h : x ≤ y) : rint x ≤ rint y :=
  Int.cast_le.2 (rintInt_mono h)

theorem rint_one : rint (1 : K) = 1 := by
  simpa using rint_intCast (K := K) 1

theorem rint_nonneg {x : K} (h : 0 ≤ x) : 0 ≤ rint x := by
  have h0 : rint ((0 : ℤ) : K) = 0 := by rw [rint_intCast, Int.cast_zero]
  calc (0 : K) = rint ((0 : ℤ) : K) := h0.symm
    _ ≤ rint x := rint_mono (by simpa using h)

end GreenPipeline.Core
