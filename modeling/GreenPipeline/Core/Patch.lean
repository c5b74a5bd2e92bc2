import Mathlib.Data.List.GetD

/-!
# Writing into fixed-size strings

A string of cells is patched by writing other strings into it: `write` is one
`memcpy` to an offset, `applyAll` writes a list of fragments cut out of a second
string.

Results:

* `getD_write`: a cell comes from the data written over it or is unchanged.
* `getD_applyAll_of_mem`, `getD_applyAll_of_not_mem`: after all fragments, a cell is the second
  string's inside some fragment and unchanged outside.
-/
namespace GreenPipeline.Core.Patch

open List

variable {α : Type}

/-- `memcpy(l + off, data, length of data)` -/
def write (l : List α) (off : Nat) (data : List α) : List α :=
  l.take off ++ data ++ l.drop (off + data.length)

/-- `n` cells from `off` on. -/
def slice (l : List α) (off n : Nat) : List α := (l.drop off).take n

variable {off : Nat}

theorem length_slice {l : List α} {n : Nat} (h : off + n ≤ l.length) :
    (slice l off n).length = n := by
  rw [slice, length_take, length_drop]
  omega

section

variable {l data : List α} (h : off + data.length ≤ l.length)
include h

theorem length_write : (write l off data).length = l.length := by
  simp only [write, length_append, length_take, length_drop]
  omega

theorem getD_write (x : Nat) (d : α) : (write l off data).getD x d =
    if off ≤ x ∧ x < off + data.length then data.getD (x - off) d else l.getD x d := by
  have hoff : (l.take off).length = off := by
    rw [length_take]
    omega
  unfold write
  rw [append_assoc]
  by_cases hx : x < off
  · rw [if_neg (by omega), getD_append _ _ _ _ (by omega), getD_eq_getElem?_getD,
      getElem?_take_of_lt hx, ← getD_eq_getElem?_getD]
  rw [getD_append_right _ _ _ _ (by omega), hoff]
  by_cases hd : x < off + data.length
  · rw [if_pos ⟨by omega, hd⟩, getD_append _ _ _ _ (by omega)]
  · rw [if_neg (by omega), getD_append_right _ _ _ _ (by omega), getD_eq_getElem?_getD,
      getElem?_drop, ← getD_eq_getElem?_getD]
    congr 1
    omega

end

theorem getD_slice {l : List α} {n x : Nat} (hx : x < n) (d : α) :
    (slice l off n).getD x d = l.getD (off + x) d := by
  rw [slice, getD_eq_getElem?_getD, getElem?_take_of_lt hx, getElem?_drop, ← getD_eq_getElem?_getD]

/-- Strings of one length are equal if their cells are. -/
theorem ext_getD {l l' : List α} {n : Nat} (h : l.length = n) (h' : l'.length = n) (d : α)
    (hx : ∀ x < n, l.getD x d = l'.getD x d) : l = l' := by
  refine ext_getElem (h.trans h'.symm) fun x hlt hlt' => ?_
  rw [← getD_eq_getElem l d hlt, ← getD_eq_getElem l' d hlt']
  exact hx x (h ▸ hlt)

/-! ## Fragments -/

structure Fragment where
  offset : Nat
  length : Nat

/-- The cell lies in one of the fragments. -/
def InFragments (F : List Fragment) (x : Nat) : Prop :=
  ∃ f ∈ F, f.offset ≤ x ∧ x < f.offset + f.length

/-- The fragments of `target` written into `l`. -/
def applyAll (target : List α) (l : List α) (F : List Fragment) : List α :=
  F.foldl (fun l f => write l f.offset (slice target f.offset f.length)) l

section
variable {l target : List α} (hlen : l.length = target.length)
include hlen

section

variable {f : Fragment} (hf : f.offset + f.length ≤ target.length)
include hf

theorem length_write_slice :
    (write l f.offset (slice target f.offset f.length)).length = target.length := by
  rw [length_write (by rw [length_slice hf, hlen]; exact hf), hlen]

theorem getD_write_slice (x : Nat) (d : α) :
    (write l f.offset (slice target f.offset f.length)).getD x d =
    if f.offset ≤ x ∧ x < f.offset + f.length then target.getD x d else l.getD x d := by
  rw [getD_write (by rw [length_slice hf, hlen]; exact hf), length_slice hf]
  refine if_ctx_congr Iff.rfl (fun hin => ?_) fun _ => rfl
  rw [getD_slice (by omega), Nat.add_sub_cancel' hin.1]

end

variable {F : List Fragment} (hF : ∀ f ∈ F, f.offset + f.length ≤ target.length)
include hF

theorem length_applyAll : (applyAll target l F).length = target.length := by
  induction F generalizing l with
  | nil => exact hlen
  | cons f F ih =>
    exact ih (length_write_slice hlen (hF f mem_cons_self)) (forall_mem_cons.1 hF).2

theorem getD_applyAll_of_not_mem {x : Nat} (d : α) (hx : ¬ InFragments F x) :
    (applyAll target l F).getD x d = l.getD x d := by
  induction F generalizing l with
  | nil => rfl
  | cons f F ih =>
    have hf := hF f mem_cons_self
    have hrest : ¬ InFragments F x := fun ⟨g, hg, hgx⟩ => hx ⟨g, mem_cons_of_mem f hg, hgx⟩
    refine (ih (length_write_slice hlen hf) (forall_mem_cons.1 hF).2 hrest).trans ?_
    rw [getD_write_slice hlen hf, if_neg fun hin => hx ⟨f, mem_cons_self, hin⟩]

theorem getD_applyAll_of_mem {x : Nat} (d : α) (hx : InFragments F x) :
    (applyAll target l F).getD x d = target.getD x d := by
  induction F generalizing l with
  | nil =>
    obtain ⟨f, hf, -⟩ := hx
    exact absurd hf not_mem_nil
  | cons f F ih =>
    have hlen' := length_write_slice hlen (hF f mem_cons_self)
    have hF' := (forall_mem_cons.1 hF).2
    by_cases hin : InFragments F x
    · exact ih hlen' hF' hin
    · -- the last fragment over the cell is `f`
      obtain ⟨g, hg, hgx⟩ := hx
      obtain rfl | hg := mem_cons.1 hg
      · exact (getD_applyAll_of_not_mem hlen' hF' d hin).trans
          ((getD_write_slice hlen (hF g mem_cons_self) x d).trans (if_pos hgx))
      · exact absurd ⟨g, hg, hgx⟩ hin

end

end GreenPipeline.Core.Patch
