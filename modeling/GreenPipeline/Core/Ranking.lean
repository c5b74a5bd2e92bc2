import Mathlib.Order.Lattice
import Mathlib.Data.List.Basic
import Mathlib.Data.List.Induction
import Mathlib.Tactic.Common

/-!
# Ranks and minima of a list of values

`nthLargest l n` is the `n`-th largest value of a list, counting from 1.
`oldest` is a minimum folded from the left in which 0 stands for "no value yet".

Results:

* `le_countP_iff`: at least `n` values are `p` or more exactly if the `n`-th largest is.
* `oldest_le_iff`: the folded minimum is a lower bound exactly if no value is 0 or the
  last one is.
-/
namespace GreenPipeline.Core.Ranking

open List

/-! ## The n-th largest value -/

section
variable {α : Type*} [LinearOrder α]

def sortDescending (l : List α) : List α := l.mergeSort fun a b => decide (b ≤ a)

theorem sortDescending_perm (l : List α) : (sortDescending l).Perm l := mergeSort_perm l _

theorem sortDescending_pairwise (l : List α) : (sortDescending l).Pairwise (fun a b => b ≤ a) := by
  have hsorted : (sortDescending l).Pairwise (fun a b => decide (b ≤ a) = true) := by
    refine pairwise_mergeSort (fun a b c hab hbc => ?_) (fun a b => ?_) l
    · rw [decide_eq_true_eq] at hab hbc ⊢
      exact le_trans hbc hab
    · rw [Bool.or_eq_true, decide_eq_true_eq, decide_eq_true_eq]
      exact le_total b a
  exact hsorted.imp fun h => of_decide_eq_true h

@[simp] theorem length_sortDescending (l : List α) : (sortDescending l).length = l.length :=
  (sortDescending_perm l).length_eq

/-- The `n`-th largest value, from 1; none if there are fewer, or for 0. -/
def nthLargest (l : List α) (n : Nat) : Option α :=
  if n = 0 then none else (sortDescending l)[n - 1]?

/-- In a descending list the values of at least `p` stand in front. -/
theorem lt_countP_iff {s : List α} (hs : s.Pairwise (fun a b => b ≤ a)) {k : Nat} {v : α}
    (hk : s[k]? = some v) (p : α) : k < s.countP (fun x => decide (p ≤ x)) ↔ p ≤ v := by
  induction s generalizing k with
  | nil => simp at hk
  | cons a s ih =>
    obtain ⟨hle, hs⟩ := pairwise_cons.1 hs
    by_cases hpa : p ≤ a
    · rw [countP_cons_of_pos (by simpa using hpa)]
      cases k with
      | zero =>
        rw [getElem?_cons_zero, Option.some.injEq] at hk
        exact iff_of_true (Nat.succ_pos _) (hk ▸ hpa)
      | succ k => exact Nat.succ_lt_succ_iff.trans (ih hs hk)
    · -- behind a smaller value all are smaller
      have hnone : ∀ x ∈ a :: s, ¬ p ≤ x := by
        intro x hx hpx
        obtain rfl | hx := mem_cons.1 hx
        · exact hpa hpx
        · exact hpa (le_trans hpx (hle x hx))
      have hzero : (a :: s).countP (fun x => decide (p ≤ x)) = 0 :=
        countP_eq_zero.2 fun x hx => by simpa using hnone x hx
      rw [hzero]
      exact iff_of_false (Nat.not_lt_zero k) (hnone v (mem_of_getElem? hk))

theorem nthLargest_isSome {l : List α} {n : Nat} (hn : 0 < n) (hle : n ≤ l.length) :
    ∃ v, nthLargest l n = some v := by
  have hlt : n - 1 < (sortDescending l).length := by
    rw [length_sortDescending]
    omega
  exact ⟨_, by rw [nthLargest, if_neg (Nat.ne_of_gt hn), getElem?_eq_getElem hlt]⟩

theorem le_countP_iff {l : List α} {n : Nat} {v : α} (hv : nthLargest l n = some v) (p : α) :
    n ≤ l.countP (fun x => decide (p ≤ x)) ↔ p ≤ v := by
  unfold nthLargest at hv
  split at hv
  · cases hv
  · rename_i hn
    rw [← lt_countP_iff (sortDescending_pairwise l) hv p, (sortDescending_perm l).countP_eq]
    omega

end

/-! ## A minimum in which 0 is no value -/

/-- Takes the next value if there is none yet or it is smaller. -/
def oldestStep (acc v : Nat) : Nat := if acc = 0 ∨ v < acc then v else acc

def oldest (l : List Nat) : Nat := l.foldl oldestStep 0

theorem oldest_concat (l : List Nat) (v : Nat) : oldest (l ++ [v]) = oldestStep (oldest l) v := by
  rw [oldest, foldl_append]
  rfl

theorem oldest_concat_zero (l : List Nat) : oldest (l ++ [0]) = 0 := by
  rw [oldest_concat, oldestStep]
  split <;> omega

theorem oldest_concat_ne_zero (l : List Nat) {v : Nat} (hv : v ≠ 0) : oldest (l ++ [v]) ≠ 0 := by
  rw [oldest_concat, oldestStep]
  split <;> omega

theorem oldest_le_of_not_mem {l : List Nat} (h : 0 ∉ l) : ∀ x ∈ l, oldest l ≤ x := by
  induction l using reverseRecOn with
  | nil => exact fun x hx => absurd hx not_mem_nil
  | append_singleton l v ih =>
    rw [mem_append, not_or] at h
    intro x hx
    rw [oldest_concat, oldestStep]
    obtain hx | hx := mem_append.1 hx
    · have hle := ih h.1 x hx
      -- the values so far are not 0, so 0 means that there are none
      have hne : oldest l ≠ 0 := by
        obtain ⟨m, w, rfl⟩ := (eq_nil_or_concat' l).resolve_left (ne_nil_of_mem hx)
        have hw : w ≠ 0 := fun hw => h.1 (by simp [hw])
        exact oldest_concat_ne_zero m hw
      split <;> omega
    · rw [mem_singleton] at hx
      split <;> omega

/-- The folded minimum is one, unless a 0 stands before the last value that is not. -/
theorem oldest_le_iff (l : List Nat) : (∀ x ∈ l, oldest l ≤ x) ↔ (0 ∈ l → l.getLast? = some 0) := by
  constructor
  · intro h hmem
    obtain ⟨m, v, rfl⟩ := (eq_nil_or_concat' l).resolve_left (ne_nil_of_mem hmem)
    by_contra hlast
    rw [getLast?_concat, Option.some.injEq] at hlast
    exact oldest_concat_ne_zero m hlast (Nat.le_zero.1 (h 0 hmem))
  · intro h
    by_cases hmem : 0 ∈ l
    · obtain ⟨m, rfl⟩ := getLast?_eq_some_iff.1 (h hmem)
      rw [oldest_concat_zero]
      exact fun x _ => Nat.zero_le x
    · exact oldest_le_of_not_mem hmem

end GreenPipeline.Core.Ranking
