import Mathlib.Logic.Function.Basic

/-!
# Circular buffers

Positions grow without bound, and a value at position `p` is stored in the cell `p % size`. A
window is a run of positions whose cells hold given values.

Results:

* `Window.write`: values written behind a window extend it, as long as it is no longer than the
  buffer.
* `Window.drop`, `window_add_mul`: a window from a later position, and after the positions are
  counted from another start.
-/
namespace GreenPipeline.Core.Ring

variable {α : Type*} (size : Nat)

/-- The cells of the positions from `p` on hold these values. -/
def Window (buffer : Nat → α) : (p : Nat) → List α → Prop
  | _, [] => True
  | p, x :: xs => buffer (p % size) = x ∧ Window buffer (p + 1) xs

/-- Write the values one after the other, from position `p` on. -/
def writeFrom : (buffer : Nat → α) → (p : Nat) → List α → Nat → α
  | buffer, _, [] => buffer
  | buffer, p, x :: xs => writeFrom (Function.update buffer (p % size) x) (p + 1) xs

variable {size} {buffer : Nat → α}

theorem window_append (p : Nat) (xs ys : List α) :
    Window size buffer p (xs ++ ys) ↔ Window size buffer p xs ∧
    Window size buffer (p + xs.length) ys := by
  induction xs generalizing p with
  | nil => simp [Window]
  | cons x xs ih => simp [Window, ih, and_assoc, Nat.add_assoc, Nat.add_comm 1]

variable {p : Nat}

theorem Window.drop {xs : List α} (h : Window size buffer p xs) {k : Nat} (hk : k ≤ xs.length) :
    Window size buffer (p + k) (xs.drop k) := by
  have happend := h
  rw [← List.take_append_drop k xs, window_append, List.length_take_of_le hk] at happend
  exact happend.2

/-- Counted from a start that is a number of rounds away. -/
theorem window_add_mul (p k : Nat) (xs : List α) :
    Window size buffer (p + k * size) xs ↔ Window size buffer p xs := by
  induction xs generalizing p with
  | nil => exact Iff.rfl
  | cons x xs ih =>
    have hcell : (p + k * size) % size = p % size := Nat.add_mul_mod_self_right ..
    rw [Window, Window, hcell, Nat.add_right_comm, ih]

/-- Positions less than a round apart have different cells. -/
theorem cell_ne {q : Nat} (hlt : q < p) (hround : p < q + size) : q % size ≠ p % size := by
  intro heq
  have hdvd := Nat.dvd_of_mod_eq_zero (Nat.sub_mod_eq_zero_of_mod_eq heq.symm)
  have hle := Nat.le_of_dvd (by omega) hdvd
  omega

theorem writeFrom_of_lt {xs : List α} {q : Nat} (hlt : q < p) (hround : p + xs.length ≤ q + size) :
    writeFrom size buffer p xs (q % size) = buffer (q % size) := by
  induction xs generalizing buffer p with
  | nil => rfl
  | cons x xs ih =>
    rw [List.length_cons] at hround
    rw [writeFrom, ih (by omega) (by omega), Function.update_of_ne (cell_ne hlt (by omega))]

theorem window_writeFrom (xs : List α) (hround : xs.length ≤ size) :
    Window size (writeFrom size buffer p xs) p xs := by
  induction xs generalizing buffer p with
  | nil => trivial
  | cons x xs ih =>
    rw [List.length_cons] at hround
    refine ⟨?_, ih (by omega)⟩
    rw [writeFrom, writeFrom_of_lt (Nat.lt_succ_self p) (by omega), Function.update_self]

theorem Window.congr {buffer' : Nat → α} {xs : List α} (h : Window size buffer p xs)
    (hsame : ∀ q, p ≤ q → q < p + xs.length → buffer' (q % size) = buffer (q % size)) :
    Window size buffer' p xs := by
  induction xs generalizing p with
  | nil => trivial
  | cons x xs ih =>
    rw [List.length_cons] at hsame
    refine ⟨?_, ih h.2 fun q hlow hhigh => hsame q (by omega) (by omega)⟩
    rw [hsame p (Nat.le_refl _) (by omega)]
    exact h.1

/-- Values written behind a window extend it. -/
theorem Window.write {xs : List α} (h : Window size buffer p xs) (ys : List α)
    (hround : xs.length + ys.length ≤ size) :
    Window size (writeFrom size buffer (p + xs.length) ys) p (xs ++ ys) := by
  rw [window_append]
  refine ⟨h.congr fun q _ hq => writeFrom_of_lt hq (by omega), window_writeFrom ys (by omega)⟩

end GreenPipeline.Core.Ring
