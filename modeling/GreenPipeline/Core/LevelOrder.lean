import Mathlib.Order.MinMax
import Mathlib.Algebra.Order.Ring.Nat
import Mathlib.Order.Lattice

/-!
# Complete binary trees in level order

The nodes of a complete binary tree of height `h` are numbered from the root, level
by level: node `j` of level `d` is number `2 ^ d - 1 + j`, and below it are the
leaves `s` with `s / 2 ^ k = j`, where `k` is its height.

A cyclic scan of the leaves from `t` on can go by subtrees: at height `k` it stands
at subtree `q`, counted without wrapping around, and has left behind all leaves
before it. When the subtree has nothing, the scan moves right and then up.

Results:

* `left_nodeAt`, `right_nodeAt`, `parent_nodeAt`: moving between levels.
* `le_val_iff`: where inner nodes are the maximum of their children, a node shows
  whether a leaf below it is large enough.
* `Scanned.up`: moving right and up leaves no leaf out.
* `Scanned.first`: the least leaf of the subtree reached is the first one from `t`
  on, cyclically, also if only a leading part of the leaves exists.
-/
namespace GreenPipeline.Core.LevelOrder

open Nat

/-- Node `j` of level `d`. -/
def nodeAt (d j : Nat) : Nat := 2 ^ d - 1 + j

theorem left_nodeAt (d j : Nat) : 2 * nodeAt d j + 1 = nodeAt (d + 1) (2 * j) := by
  have := Nat.two_pow_pos d
  rw [nodeAt, nodeAt, Nat.pow_succ]
  omega

theorem right_nodeAt (d j : Nat) : 2 * nodeAt d j + 2 = nodeAt (d + 1) (2 * j + 1) := by
  have := Nat.two_pow_pos d
  rw [nodeAt, nodeAt, Nat.pow_succ]
  omega

theorem parent_nodeAt (d j : Nat) : (nodeAt (d + 1) j - 1) / 2 = nodeAt d (j / 2) := by
  have := Nat.two_pow_pos d
  rw [nodeAt, nodeAt, Nat.pow_succ]
  omega

theorem nodeAt_lt {d h j : Nat} (hd : d < h) (hj : j < 2 ^ d) : nodeAt d j < 2 ^ h - 1 := by
  have hpow : 2 ^ (d + 1) ≤ 2 ^ h := Nat.pow_le_pow_right (by decide) hd
  rw [nodeAt]
  omega

/-! ## Maxima -/

section
variable {α : Type} [LinearOrder α] {h : Nat} {val : Nat → α}

/-- Inner nodes are the maximum of their children. -/
def MaxTree (h : Nat) (val : Nat → α) : Prop :=
  ∀ d j, d < h → j < 2 ^ d →
    val (nodeAt d j) = max (val (nodeAt (d + 1) (2 * j))) (val (nodeAt (d + 1) (2 * j + 1)))

theorem div_succ_eq_iff (s k j : Nat) :
    s / 2 ^ (k + 1) = j ↔ s / 2 ^ k = 2 * j ∨ s / 2 ^ k = 2 * j + 1 := by
  rw [Nat.pow_succ, ← Nat.div_div_eq_div_mul]
  omega

theorem le_val_iff (htree : MaxTree h val) {d k : Nat} (hdk : d + k = h) {j : Nat}
    (hj : j < 2 ^ d) (m : α) :
    m ≤ val (nodeAt d j) ↔ ∃ s, s / 2 ^ k = j ∧ m ≤ val (nodeAt h s) := by
  induction k generalizing d j with
  | zero =>
    obtain rfl : d = h := hdk
    simp
  | succ k ih =>
    have hj' : 2 * j + 1 < 2 ^ (d + 1) := by
      omega
    rw [htree d j (by omega) hj, le_max_iff, ih (by omega) (by omega), ih (by omega) hj']
    simp only [div_succ_eq_iff, or_and_right, exists_or]

end

/-! ## Cyclic scans -/

variable {h t d k q : Nat} {P : Nat → Prop}

/-- Leaf `u mod 2 ^ h` below subtree `q` of height `k`, both counted without wrapping. -/
theorem div_mod_eq (hdk : d + k = h) (u : Nat) : u % 2 ^ h / 2 ^ k = u / 2 ^ k % 2 ^ d := by
  rw [← hdk, pow_add, mul_comm, mod_mul_right_div_self]

/-- A scan from leaf `t` at subtree `q` of height `k`: nothing wanted was left behind. -/
structure Scanned (h t : Nat) (P : Nat → Prop) (k q : Nat) : Prop where
  start : t ≤ q * 2 ^ k
  skipped : ∀ u, t ≤ u → u < q * 2 ^ k → ¬ P (u % 2 ^ h)

theorem Scanned.init (h t : Nat) (P : Nat → Prop) : Scanned h t P 0 t :=
  ⟨by rw [pow_zero, mul_one], fun u hu hlt => by rw [pow_zero, mul_one] at hlt; omega⟩

theorem Scanned.up (hs : Scanned h t P k q) (hdk : d + k = h)
    (hnone : ∀ s, s / 2 ^ k = q % 2 ^ d → ¬ P s) : Scanned h t P (k + 1) ((q + 1) / 2) := by
  -- from a left child the subtree only grows, from a right child the scan leaves it
  have hbound : q * 2 ^ k ≤ (q + 1) / 2 * 2 ^ (k + 1) ∧
      (q + 1) / 2 * 2 ^ (k + 1) ≤ (q + 1) * 2 ^ k := by
    rw [pow_succ, mul_comm (2 ^ k) 2, ← mul_assoc]
    exact ⟨mul_le_mul_right _ (by omega), mul_le_mul_right _ (by omega)⟩
  refine ⟨le_trans hs.start hbound.1, fun u htu hu => ?_⟩
  obtain hlt | hge := lt_or_ge u (q * 2 ^ k)
  · exact hs.skipped u htu hlt
  · have hq : u / 2 ^ k = q :=
      Nat.div_eq_of_lt_le hge (Nat.lt_of_lt_of_le hu hbound.2)
    exact hnone _ (by rw [div_mod_eq hdk, hq])

/-- The subtree above, on its own level. -/
theorem up_mod (d q : Nat) : (q % 2 ^ (d + 1) + 1) % 2 ^ (d + 1) / 2 = (q + 1) / 2 % 2 ^ d := by
  rw [mod_add_mod, pow_succ, mul_comm, mod_mul_right_div_self]

/-- The least wanted leaf of the subtree, counted without wrapping: nothing wanted lies before. -/
theorem Scanned.least (hs : Scanned h t P k q) (hdk : d + k = h) {s : Nat} (hsh : s < 2 ^ h)
    (hspan : s / 2 ^ k = q % 2 ^ d) (hleast : ∀ s', s' / 2 ^ k = q % 2 ^ d → s' < s → ¬ P s') :
    ∃ u, t ≤ u ∧ u % 2 ^ h = s ∧ ∀ v, t ≤ v → v < u → ¬ P (v % 2 ^ h) := by
  have hpos := Nat.two_pow_pos k
  have hpow : 2 ^ h = 2 ^ k * 2 ^ d := by rw [← hdk, Nat.pow_add, Nat.mul_comm]
  have hblock : ∀ v, v / 2 ^ k = q → v / 2 ^ h = q / 2 ^ d := fun v hv => by
    rw [hpow, ← Nat.div_div_eq_div_mul, hv]
  have hu : (s + 2 ^ h * (q / 2 ^ d)) / 2 ^ k = q := by
    rw [hpow, Nat.mul_assoc, Nat.add_mul_div_left _ _ hpos, hspan]
    exact Nat.mod_add_div q (2 ^ d)
  refine ⟨s + 2 ^ h * (q / 2 ^ d), ?_, by rw [Nat.add_mul_mod_self_left, Nat.mod_eq_of_lt hsh],
    fun v htv hvu => ?_⟩
  · have hle := Nat.div_mul_le_self (s + 2 ^ h * (q / 2 ^ d)) (2 ^ k)
    rw [hu] at hle
    exact Nat.le_trans hs.start hle
  · obtain hlt | hge := Nat.lt_or_ge v (q * 2 ^ k)
    · exact hs.skipped v htv hlt
    have hqv : v / 2 ^ k = q :=
      Nat.le_antisymm (hu ▸ Nat.div_le_div_right (Nat.le_of_lt hvu))
        ((Nat.le_div_iff_mul_le hpos).2 hge)
    refine hleast _ (by rw [div_mod_eq hdk, hqv]) ?_
    have := Nat.div_add_mod v (2 ^ h)
    rw [hblock v hqv] at this
    omega

/-- The least wanted leaf of the subtree is the first from `t` on, in the cyclic order of the
leaves below `n`. -/
theorem Scanned.first (hs : Scanned h t P k q) (hdk : d + k = h) {n s : Nat} (hn : n ≤ 2 ^ h)
    (ht : t < n) (hsn : s < n) (hspan : s / 2 ^ k = q % 2 ^ d)
    (hleast : ∀ s', s' / 2 ^ k = q % 2 ^ d → s' < s → ¬ P s') :
    ∃ i < n, s = (t + i) % n ∧ ∀ e < i, ¬ P ((t + e) % n) := by
  obtain ⟨u, htu, hus, hskip⟩ := hs.least hdk (by omega) hspan hleast
  have hu := div_add_mod u (2 ^ h)
  obtain hwrap | hts := lt_or_ge s t
  · -- around the end: the leaf is a whole turn further on
    have hturn : 2 ^ h + s ≤ u := by
      have hone : 1 ≤ u / 2 ^ h := by
        by_contra hzero
        rw [Nat.lt_one_iff.1 (Nat.lt_of_not_le hzero), Nat.mul_zero] at hu
        omega
      have := mul_le_mul_left (2 ^ h) hone
      omega
    refine ⟨n - t + s, by omega, ?_, fun e he => ?_⟩
    · rw [show t + (n - t + s) = s + n by omega, add_mod_right, mod_eq_of_lt hsn]
    obtain hlt | hge := lt_or_ge (t + e) n
    · have := hskip (t + e) (by omega) (by omega)
      rwa [mod_eq_of_lt (by omega)] at this ⊢
    · have := hskip (t + e - n + 2 ^ h) (by omega) (by omega)
      rw [add_mod_right, mod_eq_of_lt (by omega)] at this
      rwa [mod_eq_sub_mod hge, mod_eq_of_lt (by omega)]
  · refine ⟨s - t, by omega, ?_, fun e he => ?_⟩
    · rw [Nat.add_sub_cancel' hts, Nat.mod_eq_of_lt hsn]
    · have := hskip (t + e) (by omega) (by omega)
      rw [mod_eq_of_lt (by omega)] at this
      rwa [mod_eq_of_lt (by omega)]

end GreenPipeline.Core.LevelOrder
