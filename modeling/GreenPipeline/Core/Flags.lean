import Mathlib.Tactic.Common

/-!
# Flag words

Flags are tested with a mask and set by a disjunction.

Results:

* `has_or`: disjunctions of flags.
* `has_clear`: clearing flags.
* `Agree.and_eq`: words that agree outside a mask answer every test with a mask disjoint from it
  alike.
* `and_twoPow_or`: a field of two flags, read with one mask.
-/
namespace GreenPipeline.Core.Flags

variable {w : Nat}

/-- Some bit of the mask is set. -/
def has (m mask : BitVec w) : Bool := m &&& mask != 0#w

theorem has_or (m flags mask : BitVec w) :
    has (m ||| flags) mask = (has m mask || has flags mask) := by
  unfold has
  rw [BitVec.and_or_distrib_right, Bool.eq_iff_iff, Bool.or_eq_true, bne_iff_ne, bne_iff_ne,
    bne_iff_ne, Ne, BitVec.or_eq_zero_iff]
  tauto

/-- The words differ at most in the bits of the mask. -/
def Agree (mask m m' : BitVec w) : Prop := m &&& ~~~mask = m' &&& ~~~mask

namespace Agree
variable {mask m m' m'' : BitVec w}

theorem refl (mask m : BitVec w) : Agree mask m m := rfl

theorem symm (h : Agree mask m m') : Agree mask m' m := Eq.symm h

theorem trans (h : Agree mask m m') (h' : Agree mask m' m'') : Agree mask m m'' := Eq.trans h h'

/-- Setting flags of the mask. -/
theorem or_right (m : BitVec w) {flags : BitVec w} (h : flags &&& ~~~mask = 0#w) :
    Agree mask m (m ||| flags) := by
  rw [Agree, BitVec.and_or_distrib_right, h, BitVec.or_zero]

/-- Clearing the flags of the mask. -/
theorem clear (mask m : BitVec w) : Agree mask m (m &&& ~~~mask) := by
  rw [Agree, BitVec.and_assoc, BitVec.and_self]

section

variable {field : BitVec w} (h : Agree mask m m') (hfield : ~~~mask &&& field = field)
include h hfield

theorem and_eq : m &&& field = m' &&& field := by
  rw [← hfield, ← BitVec.and_assoc, ← BitVec.and_assoc, h]

theorem has_eq : has m field = has m' field := by
  rw [has, has, h.and_eq hfield]

end

end Agree

/-- A flag that was cleared is not set. -/
theorem has_clear {mask field : BitVec w} (m : BitVec w) (hfield : ~~~mask &&& field = 0#w) :
    has (m &&& ~~~mask) field = false := by
  rw [has, BitVec.and_assoc, hfield, BitVec.and_zero, bne_self_eq_false]

/-! ## A single flag -/

/-- The flag is set or not, and then the test leaves nothing. -/
theorem and_twoPow_eq (m : BitVec w) (i : Nat) (hi : i < w) :
    m &&& BitVec.twoPow w i = if has m (BitVec.twoPow w i) then BitVec.twoPow w i else 0#w := by
  have hne : BitVec.twoPow w i ≠ 0#w := by
    intro hzero
    have hbit := congrArg (fun v => v.getLsbD i) hzero
    simp [hi] at hbit
  rw [has, BitVec.and_twoPow]
  cases m.getLsbD i <;> simp [hne]

/-- A field of two flags, read with one mask. -/
theorem and_twoPow_or (m : BitVec w) (i j : Nat) (hi : i < w) (hj : j < w) :
    m &&& (BitVec.twoPow w i ||| BitVec.twoPow w j) =
    (if has m (BitVec.twoPow w i) then BitVec.twoPow w i else 0#w) |||
      (if has m (BitVec.twoPow w j) then BitVec.twoPow w j else 0#w) := by
  rw [← and_twoPow_eq m i hi, ← and_twoPow_eq m j hj, BitVec.and_or_distrib_left]

end GreenPipeline.Core.Flags
