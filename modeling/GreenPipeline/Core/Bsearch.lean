import Mathlib.Algebra.Order.Ring.Int
import Mathlib.Tactic.Common

/-!
# Binary search for the greatest element that is not above a probe

The array is given by how its elements compare with the probe. The search keeps two
offsets, `lo` and `hi`, starts below the first element and stops at an equal one.

Results:

* `bsearch_equal`: in a sorted array it says whether some element equals the probe.
* `bsearch_offset`: without repeated elements the offset separates the elements that are not
  above the probe from those that are.
* `bsearch_list`: the same as `bsearch_equal` for a list and its order.
* `lowerBound_findIdx`: halving an interval finds the first element of a list at which a test fails.
-/
namespace GreenPipeline.Core.Bsearch

/-- The loop; `cmp k` is the comparison of the `k`-th element with the probe. -/
def bsearchLoop (cmp : Nat → Ordering) :
    (fuel : Nat) → (lo hi : Int) → (isEqual : Bool) → Int × Bool
  | 0, lo, _, isEqual => (lo, isEqual)
  | fuel + 1, lo, hi, isEqual =>
    if lo < hi then
      let mid := (lo + hi + 1) / 2
      match cmp mid.toNat with
      | .lt => bsearchLoop cmp fuel mid hi false
      | .eq => (mid, true)
      | .gt => bsearchLoop cmp fuel lo (mid - 1) isEqual
    else (lo, isEqual)

/-- The search over `n` elements. -/
def bsearch (cmp : Nat → Ordering) (n : Nat) : Int × Bool := bsearchLoop cmp n (-1) (n - 1) false

variable {cmp : Nat → Ordering} {n : Nat}

/-- An offset at which the loop may stop. -/
inductive Stops (cmp : Nat → Ordering) (n : Nat) : Int × Bool → Prop
  /-- between the elements below the probe and those above it -/
  | between (lo : Int) : -1 ≤ lo → lo < n → (∀ k : Nat, (k : Int) ≤ lo → cmp k = .lt) →
      (∀ k < n, lo < (k : Int) → cmp k = .gt) → Stops cmp n (lo, false)
  /-- at an equal element -/
  | equal (k : Nat) : k < n → cmp k = .eq → Stops cmp n (k, true)

section

variable (hlt : ∀ i j, i < j → j < n → cmp j = .lt → cmp i = .lt)
  (hgt : ∀ i j, i < j → j < n → cmp i = .gt → cmp j = .gt)
include hlt hgt

/-- What the loop keeps: everything up to `lo` is below the probe, everything behind `hi` above
it. -/
theorem bsearchLoop_stops {fuel : Nat} {lo hi : Int} (hlo : -1 ≤ lo) (hle : lo ≤ hi)
    (hhi : hi < n) (hfuel : hi - lo ≤ fuel) (hbelow : ∀ k : Nat, (k : Int) ≤ lo → cmp k = .lt)
    (habove : ∀ k < n, hi < (k : Int) → cmp k = .gt) :
    Stops cmp n (bsearchLoop cmp fuel lo hi false) := by
  induction fuel generalizing lo hi with
  | zero =>
    have heq : lo = hi := by omega
    subst heq
    exact .between lo hlo hhi hbelow habove
  | succ fuel ih =>
    rw [bsearchLoop]
    by_cases hlt' : lo < hi
    · rw [if_pos hlt']
      obtain ⟨mid, hmid⟩ : ∃ mid : Nat, (lo + hi + 1) / 2 = (mid : Int) :=
        ⟨((lo + hi + 1) / 2).toNat, by omega⟩
      simp only [hmid, Int.toNat_natCast]
      split
      · rename_i hcmp
        refine ih (by omega) (by omega) hhi (by omega) (fun k hk => ?_) habove
        obtain hk' | rfl := Nat.lt_or_eq_of_le (Int.ofNat_le.1 hk)
        · exact hlt k mid hk' (by omega) hcmp
        · exact hcmp
      · rename_i hcmp
        exact .equal mid (by omega) hcmp
      · rename_i hcmp
        refine ih hlo (by omega) (by omega) (by omega) hbelow (fun k hk hlt => ?_)
        obtain hk' | rfl := Nat.lt_or_eq_of_le (show mid ≤ k by omega)
        · exact hgt mid k hk' hk hcmp
        · exact hcmp
    · rw [if_neg hlt']
      have heq : lo = hi := by omega
      subst heq
      exact .between lo hlo hhi hbelow habove

theorem bsearch_stops : Stops cmp n (bsearch cmp n) :=
  bsearchLoop_stops hlt hgt (by omega) (by omega) (by omega) (by omega) (fun k hk => by omega)
    (fun k hk hlt => by omega)

/-- The flag tells whether an element equals the probe, and then the offset is of such an
element. -/
theorem bsearch_equal : ((bsearch cmp n).2 = true ↔ ∃ k < n, cmp k = .eq) ∧
    ((bsearch cmp n).2 = true → ∃ k < n, (bsearch cmp n).1 = k ∧ cmp k = .eq) := by
  have hstops := bsearch_stops hlt hgt
  generalize bsearch cmp n = r at hstops
  cases hstops with
  | between lo hlo hhi hbelow habove =>
    refine ⟨iff_of_false (by simp) ?_, fun h => by cases h⟩
    rintro ⟨k, hk, hcmp⟩
    by_cases hle : (k : Int) ≤ lo
    · rw [hbelow k hle] at hcmp
      cases hcmp
    · rw [habove k hk (by omega)] at hcmp
      cases hcmp
  | equal k hk hcmp => exact ⟨iff_of_true rfl ⟨k, hk, hcmp⟩, fun _ => ⟨k, hk, rfl, hcmp⟩⟩

end

/-- If no two elements are equal, the next offset is that of the first element above the probe. -/
theorem bsearch_offset (hstrict : ∀ i j, i < j → j < n → cmp j ≠ .gt → cmp i = .lt) :
    ∃ m ≤ n, (bsearch cmp n).1 + 1 = m ∧ ∀ k < n, m ≤ k ↔ cmp k = .gt := by
  have hstops : Stops cmp n (bsearch cmp n) :=
    bsearch_stops (fun i j hij hj hcmp => hstrict i j hij hj (by simp [hcmp]))
      (fun i j hij hj hcmp => by
      by_contra hne
      have hlt := hstrict i j hij hj hne
      rw [hcmp] at hlt
      cases hlt)
  generalize bsearch cmp n = r at hstops
  cases hstops with
  | between lo hlo hhi hbelow habove =>
    refine ⟨(lo + 1).toNat, by omega, by omega,
      fun k hk => ⟨fun hle => habove k hk (by omega), fun hcmp => ?_⟩⟩
    by_contra hlt
    rw [hbelow k (by omega)] at hcmp
    cases hcmp
  | equal m hm hcmp =>
    refine ⟨m + 1, hm, rfl, fun k hk => ⟨fun hle => ?_, fun hgt => ?_⟩⟩
    · by_contra hne
      have hlt := hstrict m k (by omega) hk hne
      rw [hcmp] at hlt
      cases hlt
    · by_contra hlt
      obtain hlt' | rfl := Nat.lt_or_eq_of_le (show k ≤ m by omega)
      · rw [hstrict k m hlt' hm (by simp [hcmp])] at hgt
        cases hgt
      · rw [hcmp] at hgt
        cases hgt

/-- The search in a sorted list. -/
theorem bsearch_list {α : Type*} {le : α → α → Ordering} [Std.TransCmp le] {l : List α}
    (hsorted : l.Pairwise fun a b => (le a b).isLE = true) (x : α) {f : Nat → Ordering}
    (hf : ∀ k a, l[k]? = some a → f k = le a x) :
    ((bsearch f l.length).2 = true ↔ ∃ a ∈ l, le a x = .eq) ∧
      ((bsearch f l.length).2 = true → ∃ (k : Nat) (a : α), (bsearch f l.length).1 = k ∧
        l[k]? = some a ∧ le a x = .eq) := by
  have hget : ∀ {k : Nat} (hk : k < l.length), f k = le (l.get ⟨k, hk⟩) x :=
    fun hk => hf _ _ (List.getElem?_eq_getElem hk)
  have hle : ∀ {i j : Nat} (hij : i < j) (hj : j < l.length),
      (le (l.get ⟨i, by omega⟩) (l.get ⟨j, hj⟩)).isLE = true :=
    fun hij hj => List.pairwise_iff_getElem.1 hsorted _ _ _ hj hij
  have hlt : ∀ i j, i < j → j < l.length → f j = .lt → f i = .lt := by
    intro i j hij hj hlt
    rw [hget hj] at hlt
    rw [hget (by omega)]
    exact Std.TransCmp.lt_of_isLE_of_lt (hle hij hj) hlt
  have hgt : ∀ i j, i < j → j < l.length → f i = .gt → f j = .gt := by
    intro i j hij hj hgt
    rw [hget (by omega), Std.OrientedCmp.gt_iff_lt] at hgt
    rw [hget hj, Std.OrientedCmp.gt_iff_lt]
    exact Std.TransCmp.lt_of_lt_of_isLE hgt (hle hij hj)
  obtain ⟨hiff, hfound⟩ := bsearch_equal hlt hgt
  refine ⟨hiff.trans ⟨?_, ?_⟩, fun hequal => ?_⟩
  · rintro ⟨k, hk, heq⟩
    exact ⟨_, List.getElem_mem hk, (hget hk).symm.trans heq⟩
  · rintro ⟨a, ha, heq⟩
    obtain ⟨k, hk⟩ := List.mem_iff_getElem?.1 ha
    exact ⟨k, (List.getElem?_eq_some_iff.1 hk).1, (hf k a hk).trans heq⟩
  · obtain ⟨k, hk, hoffset, heq⟩ := hfound hequal
    exact ⟨k, _, hoffset, List.getElem?_eq_getElem hk, (hget hk).symm.trans heq⟩

/-! ## The first element at which a test fails -/

/-- The loop over the interval from `low` up to `high`. -/
def lowerBoundLoop (test : Nat → Bool) : (fuel : Nat) → (low high : Nat) → Nat
  | 0, low, _ => low
  | fuel + 1, low, high =>
    if high > low then
      let mid := low + (high - low) / 2
      if test mid then lowerBoundLoop test fuel (mid + 1) high else lowerBoundLoop test fuel low mid
    else low

/-- The loop stops between the elements that pass and those that do not. -/
theorem lowerBoundLoop_stops {test : Nat → Bool} {first last : Nat}
    (hmono : ∀ i j, first ≤ i → i < j → j < last → test j = true → test i = true) (fuel : Nat) :
    ∀ low high, first ≤ low → low ≤ high → high ≤ last → high - low ≤ fuel →
      (∀ i, first ≤ i → i < low → test i = true) → (∀ i, high ≤ i → i < last → test i = false) →
      first ≤ lowerBoundLoop test fuel low high ∧ lowerBoundLoop test fuel low high ≤ last ∧
        (∀ i, first ≤ i → i < lowerBoundLoop test fuel low high → test i = true) ∧
        ∀ i, lowerBoundLoop test fuel low high ≤ i → i < last → test i = false := by
  induction fuel with
  | zero =>
    intro low high hfirst hle hlast hfuel hbelow habove
    unfold lowerBoundLoop
    exact ⟨hfirst, Nat.le_trans hle hlast, hbelow, fun i hi => habove i (by omega)⟩
  | succ fuel ih =>
    intro low high hfirst hle hlast hfuel hbelow habove
    unfold lowerBoundLoop
    by_cases hlt : high > low
    · have hmid : low ≤ low + (high - low) / 2 ∧ low + (high - low) / 2 < high := by omega
      generalize low + (high - low) / 2 = mid at hmid
      simp only [hlt, if_true]
      cases htest : test mid with
      | true =>
        refine ih (mid + 1) high (by omega) (by omega) hlast (by omega) (fun i hi hlt => ?_) habove
        rcases Nat.lt_or_eq_of_le (Nat.le_of_lt_succ hlt) with h | h
        · exact hmono i mid hi h (by omega) htest
        · rw [h, htest]
      | false =>
        refine ih low mid hfirst (by omega) (by omega) (by omega) hbelow (fun i hi hlt => ?_)
        rcases Nat.lt_or_eq_of_le hi with h | h
        · by_contra hne
          rw [Bool.not_eq_false] at hne
          rw [hmono mid i (by omega) h hlt hne] at htest
          cases htest
        · rw [← h, htest]
    · simp only [hlt, if_false]
      exact ⟨hfirst, by omega, hbelow, fun i hi => habove i (by omega)⟩

/-- Over the elements of a list that stand from `first` on. -/
theorem lowerBound_findIdx {α : Type*} {l : List α} {q : α → Bool} {test : Nat → Bool}
    {first fuel : Nat} (htest : ∀ k a, l[k]? = some a → test (first + k) = q a)
    (hq : l.Pairwise fun a b => q b = true → q a = true) (hfuel : l.length ≤ fuel) :
    lowerBoundLoop test fuel first (first + l.length) = first + l.findIdx fun a => !q a := by
  have hget : ∀ {k : Nat} (hk : k < l.length), test (first + k) = q (l.get ⟨k, hk⟩) :=
    fun hk => htest _ _ (List.getElem?_eq_getElem hk)
  have hmono : ∀ i j, first ≤ i → i < j → j < first + l.length → test j = true → test i = true := by
    intro i j hi hij hj hpass
    obtain ⟨a, rfl⟩ := Nat.exists_eq_add_of_le hi
    obtain ⟨b, rfl⟩ := Nat.exists_eq_add_of_le (show first ≤ j by omega)
    rw [hget (by omega)] at hpass
    rw [hget (by omega)]
    exact List.pairwise_iff_getElem.1 hq a b (by omega) (by omega) (by omega) hpass
  obtain ⟨hge, hle, hbelow, habove⟩ :=
    lowerBoundLoop_stops hmono fuel first (first + l.length) (Nat.le_refl _) (by omega)
    (Nat.le_refl _) (by omega) (fun i hi hlt => by omega) (fun i hi hlt => by omega)
  obtain ⟨m, hm⟩ := Nat.exists_eq_add_of_le hge
  rw [hm] at hle hbelow habove ⊢
  congr 1
  have hbefore : ∀ j (hj : j < l.length), j < m → q (l.get ⟨j, hj⟩) = true := fun j hj hjm => by
    rw [← hget hj]
    exact hbelow _ (by omega) (by omega)
  rcases Nat.lt_or_eq_of_le (show m ≤ l.length by omega) with hlt | heq
  · refine ((List.findIdx_eq hlt).2 ⟨?_, fun j hj => ?_⟩).symm
    · have hfail := habove (first + m) (Nat.le_refl _) (by omega)
      rw [hget hlt] at hfail
      simpa using hfail
    · simpa using hbefore j (by omega) hj
  · rw [heq]
    refine (List.findIdx_eq_length.2 fun x hx => ?_).symm
    obtain ⟨j, hj, rfl⟩ := List.mem_iff_getElem.1 hx
    simpa using hbefore j hj (by omega)

end GreenPipeline.Core.Bsearch
