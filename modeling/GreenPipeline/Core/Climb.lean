import Mathlib.Data.Finset.Union
import Mathlib.Data.Finset.Card
import Mathlib.Data.List.TakeWhile
import Mathlib.Order.Interval.Finset.Nat

/-!
# Climbing a tree that is given by a parent array

A tree on `0 .. size - 1` with the root 0, where every other node has a
smaller parent, and a set of nodes (`top`) at which a climb ends. `chain j` is
the climb from `j`: `j`, its parent, and so on up to and including the first
`top` node or the root. When the nodes are climbed from in descending order,
`taken i` is what the climbs from `i` and above have covered.

A climb from `j` that also ends at what is already covered passes
`passed S j`, ends at `stop S j` and newly covers `fresh S j`.

Results:

* `climb_induction`: the induction rule of the climb.
* `taken_closed`: with a node, its whole chain is covered.
* `mem_fresh`, `fresh_nodup`: a climb newly covers what of its chain is not
  covered, every node once.
* `card_taken`: the number of covered nodes grows by the fresh ones.
* `stop_of_not_mem`, `exists_first`: the climb that first covers a node `x`
  starts at an uncovered node, and ends at `x` if `x` is `top`.
-/
namespace GreenPipeline.Core

open List

structure UpTree where
  size : Nat
  parent : Nat → Nat
  parent_lt : ∀ j, 0 < j → parent j < j
  top : Nat → Bool

namespace UpTree

variable (T : UpTree)

/-- Where a climb ends for good: at the root or a `top` node. -/
def Ends (j : Nat) : Prop := j = 0 ∨ T.top j = true

instance (j : Nat) : Decidable (T.Ends j) := inferInstanceAs (Decidable (_ ∨ _))

/-- The climb from `j`, of at most `f` steps. -/
def chainAux : Nat → Nat → List Nat
  | 0, j => [j]
  | f + 1, j => if T.Ends j then [j] else j :: chainAux f (T.parent j)

def chain (j : Nat) : List Nat := T.chainAux j j

theorem climb_induction {motive : Nat → Prop} (ends : ∀ j, T.Ends j → motive j)
    (up : ∀ j, ¬ T.Ends j → motive (T.parent j) → motive j) (j : Nat) : motive j := by
  induction j using Nat.strong_induction_on with
  | _ j ih =>
    by_cases h : T.Ends j
    · exact ends j h
    · exact up j h (ih _ (T.parent_lt j (Nat.pos_of_ne_zero fun h0 => h (.inl h0))))

variable {j x : Nat}

theorem pos_of_not_ends (h : ¬ T.Ends j) : 0 < j :=
  Nat.pos_of_ne_zero fun h0 => h (.inl h0)

theorem chainAux_eq (f : Nat) : ∀ j, j ≤ f → T.chainAux f j = T.chain j := by
  induction f using Nat.strong_induction_on with
  | _ f ih =>
    intro j hj
    unfold chain
    cases f with
    | zero => rw [Nat.le_zero.1 hj]
    | succ f =>
      cases j with
      | zero => simp [chainAux, Ends]
      | succ j =>
        have hp := T.parent_lt (j + 1) (Nat.succ_pos j)
        simp only [chainAux]
        rw [ih f (Nat.lt_succ_self f) _ (by omega), ih j (by omega) _ (by omega)]

theorem chain_of_ends (h : T.Ends j) : T.chain j = [j] := by
  cases j with
  | zero => rfl
  | succ j => simp [chain, chainAux, h]

theorem chain_of_not_ends (h : ¬ T.Ends j) : T.chain j = j :: T.chain (T.parent j) := by
  have hj := T.pos_of_not_ends h
  have hp := T.parent_lt j hj
  obtain ⟨m, rfl⟩ := Nat.exists_eq_succ_of_ne_zero (Nat.pos_iff_ne_zero.1 hj)
  rw [chain, chainAux, if_neg h, T.chainAux_eq m _ (by omega)]

theorem self_mem_chain (j : Nat) : j ∈ T.chain j := by
  by_cases h : T.Ends j
  · simp [T.chain_of_ends h]
  · simp [T.chain_of_not_ends h]

theorem le_of_mem_chain (j : Nat) : x ∈ T.chain j → x ≤ j := by
  induction j using T.climb_induction with
  | ends j h =>
    rw [T.chain_of_ends h, mem_singleton]
    exact Nat.le_of_eq
  | up j h ih =>
    have hp := T.parent_lt j (T.pos_of_not_ends h)
    rw [T.chain_of_not_ends h, mem_cons]
    rintro (rfl | hx)
    · exact le_refl _
    · have := ih hx; omega

/-- A chain contains the chains of its members. -/
theorem chain_subset_of_mem (j : Nat) : x ∈ T.chain j → T.chain x ⊆ T.chain j := by
  induction j using T.climb_induction with
  | ends j h =>
    rw [T.chain_of_ends h, mem_singleton]
    rintro rfl
    rw [T.chain_of_ends h]
    exact List.Subset.refl _
  | up j h ih =>
    rw [T.chain_of_not_ends h, mem_cons]
    rintro (rfl | hx)
    · rw [T.chain_of_not_ends h]; exact List.Subset.refl _
    · exact subset_cons_of_subset _ (ih hx)

/-- A node at which climbs end is the last of every chain it is on. -/
theorem ends_le_of_mem_chain {e : Nat} (he : T.Ends e) (j : Nat) :
    e ∈ T.chain j → x ∈ T.chain j → e ≤ x := by
  induction j using T.climb_induction with
  | ends j h =>
    rw [T.chain_of_ends h, mem_singleton, mem_singleton]
    rintro rfl rfl
    exact le_refl _
  | up j h ih =>
    rw [T.chain_of_not_ends h, mem_cons, mem_cons]
    rintro (rfl | hej) hx
    · exact absurd he h
    · rcases hx with rfl | hx
      · have hp := T.parent_lt x (T.pos_of_not_ends h)
        have := T.le_of_mem_chain _ hej
        omega
      · exact ih hej hx

/-! ## What descending climbs have covered -/

/-- What the climbs from the nodes `i` and above cover. -/
def taken (i : Nat) : Finset Nat := (Finset.Ico i T.size).biUnion fun c => (T.chain c).toFinset

variable {i : Nat}

theorem mem_taken : x ∈ T.taken i ↔ ∃ c, i ≤ c ∧ c < T.size ∧ x ∈ T.chain c := by
  simp [taken, and_assoc]

theorem taken_anti {i' : Nat} (h : i ≤ i') : T.taken i' ⊆ T.taken i := by
  intro x hx
  obtain ⟨c, hc, hn, hx⟩ := T.mem_taken.1 hx
  exact T.mem_taken.2 ⟨c, h.trans hc, hn, hx⟩

theorem taken_of_size_le (h : T.size ≤ i) : T.taken i = ∅ := by
  rw [taken, Finset.Ico_eq_empty_of_le h, Finset.biUnion_empty]

theorem mem_taken_self (h : i ≤ x) (hx : x < T.size) : x ∈ T.taken i :=
  T.mem_taken.2 ⟨x, h, hx, T.self_mem_chain x⟩

theorem lt_of_mem_taken (h : x ∈ T.taken i) : x < T.size := by
  obtain ⟨c, _, hn, hx⟩ := T.mem_taken.1 h
  exact (T.le_of_mem_chain c hx).trans_lt hn

theorem taken_closed {y : Nat} (hx : x ∈ T.taken i) (hy : y ∈ T.chain x) : y ∈ T.taken i := by
  obtain ⟨c, hc, hn, hx⟩ := T.mem_taken.1 hx
  exact T.mem_taken.2 ⟨c, hc, hn, T.chain_subset_of_mem c hx hy⟩

theorem mem_taken_iff (hi : i < T.size) : x ∈ T.taken i ↔ x ∈ T.taken (i + 1) ∨ x ∈ T.chain i := by
  rw [T.mem_taken, T.mem_taken]
  constructor
  · rintro ⟨c, hc, hn, hx⟩
    rcases Nat.lt_or_eq_of_le hc with h | rfl
    · exact .inl ⟨c, h, hn, hx⟩
    · exact .inr hx
  · rintro (⟨c, hc, hn, hx⟩ | hx)
    · exact ⟨c, by omega, hn, hx⟩
    · exact ⟨i, le_refl _, hi, hx⟩

/-! ## One climb over a covered set -/

/-- Where a climb ends that also ends at what is in `S`. -/
def Halts (S : Finset Nat) (j : Nat) : Prop := T.Ends j ∨ j ∈ S

instance (S : Finset Nat) (j : Nat) : Decidable (T.Halts S j) := inferInstanceAs (Decidable (_ ∨ _))

def passed (S : Finset Nat) (j : Nat) : List Nat :=
  (T.chain j).takeWhile fun x => !decide (T.Halts S x)

def stop (S : Finset Nat) (j : Nat) : Nat :=
  ((T.chain j).find? fun x => decide (T.Halts S x)).getD 0

/-- What the climb newly covers. -/
def fresh (S : Finset Nat) (j : Nat) : List Nat :=
  if T.stop S j ∈ S then T.passed S j else T.passed S j ++ [T.stop S j]

variable {T} {S : Finset Nat}

theorem passed_of_halts (h : T.Halts S j) : T.passed S j = [] := by
  by_cases he : T.Ends j
  · simp [passed, T.chain_of_ends he, h]
  · simp [passed, T.chain_of_not_ends he, h]

theorem stop_of_halts (h : T.Halts S j) : T.stop S j = j := by
  by_cases he : T.Ends j
  · simp [stop, T.chain_of_ends he, h]
  · simp [stop, T.chain_of_not_ends he, h]

section

variable (h : ¬ T.Halts S j)
include h

theorem not_ends_of_not_halts : ¬ T.Ends j := fun he => h (.inl he)

theorem passed_of_not_halts : T.passed S j = j :: T.passed S (T.parent j) := by
  simp [passed, T.chain_of_not_ends (not_ends_of_not_halts h), h]

theorem stop_of_not_halts : T.stop S j = T.stop S (T.parent j) := by
  simp [stop, T.chain_of_not_ends (not_ends_of_not_halts h), h]

theorem fresh_of_not_halts : T.fresh S j = j :: T.fresh S (T.parent j) := by
  unfold fresh
  rw [stop_of_not_halts h, passed_of_not_halts h]
  split <;> rfl

end

theorem fresh_of_mem (h : j ∈ S) : T.fresh S j = [] := by
  have hh : T.Halts S j := .inr h
  rw [fresh, stop_of_halts hh, if_pos h, passed_of_halts hh]

theorem fresh_of_ends (he : T.Ends j) (h : j ∉ S) : T.fresh S j = [j] := by
  have hh : T.Halts S j := .inl he
  rw [fresh, stop_of_halts hh, if_neg h, passed_of_halts hh, nil_append]

/-- The induction rule of a climb over a covered set. -/
theorem halt_induction {motive : Nat → Prop} (halts : ∀ j, T.Halts S j → motive j)
    (up : ∀ j, ¬ T.Halts S j → motive (T.parent j) → motive j) (j : Nat) : motive j := by
  induction j using T.climb_induction with
  | ends j h => exact halts j (.inl h)
  | up j h ih =>
    by_cases hs : j ∈ S
    · exact halts j (.inr hs)
    · exact up j (not_or.2 ⟨h, hs⟩) ih

theorem stop_mem_chain (j : Nat) : T.stop S j ∈ T.chain j := by
  induction j using halt_induction (T := T) (S := S) with
  | halts j h => rw [stop_of_halts h]; exact T.self_mem_chain j
  | up j h ih =>
    rw [stop_of_not_halts h, T.chain_of_not_ends (not_ends_of_not_halts h)]
    exact mem_cons_of_mem _ ih

theorem halts_stop (j : Nat) : T.Halts S (T.stop S j) := by
  induction j using halt_induction (T := T) (S := S) with
  | halts j h => rw [stop_of_halts h]; exact h
  | up j h ih => rw [stop_of_not_halts h]; exact ih

theorem stop_not_mem_passed (j : Nat) : T.stop S j ∉ T.passed S j := by
  intro h
  have := mem_takeWhile_imp h
  simp [halts_stop j] at this

/-- Over a closed set a climb newly covers what of its chain is not in the set. -/
theorem mem_fresh (hS : ∀ x ∈ S, ∀ y ∈ T.chain x, y ∈ S) (j : Nat) :
    x ∈ T.fresh S j ↔ x ∈ T.chain j ∧ x ∉ S := by
  induction j using T.climb_induction with
  | ends j h =>
    by_cases hj : j ∈ S
    · rw [fresh_of_mem hj, T.chain_of_ends h]
      simp only [not_mem_nil, mem_singleton, false_iff, not_and, not_not]
      rintro rfl; exact hj
    · rw [fresh_of_ends h hj, T.chain_of_ends h, mem_singleton]
      exact ⟨fun e => ⟨e, e ▸ hj⟩, And.left⟩
  | up j h ih =>
    by_cases hj : j ∈ S
    · rw [fresh_of_mem hj]
      refine ⟨fun hx => absurd hx not_mem_nil, fun ⟨hx, hns⟩ => ?_⟩
      exact absurd (hS j hj x hx) hns
    · rw [fresh_of_not_halts (not_or.2 ⟨h, hj⟩), T.chain_of_not_ends h, mem_cons, mem_cons, ih]
      constructor
      · rintro (rfl | ⟨hx, hns⟩)
        · exact ⟨.inl rfl, hj⟩
        · exact ⟨.inr hx, hns⟩
      · rintro ⟨rfl | hx, hns⟩
        · exact .inl rfl
        · exact .inr ⟨hx, hns⟩

theorem le_of_mem_fresh {j : Nat} (h : x ∈ T.fresh S j) : x ≤ j := by
  induction j using halt_induction (T := T) (S := S) with
  | halts j hh =>
    unfold fresh at h
    rw [stop_of_halts hh, passed_of_halts hh] at h
    split at h
    · exact absurd h not_mem_nil
    · exact Nat.le_of_eq (mem_singleton.1 h)
  | up j hh ih =>
    have hp := T.parent_lt j (T.pos_of_not_ends (not_ends_of_not_halts hh))
    rw [fresh_of_not_halts hh] at h
    rcases mem_cons.1 h with rfl | h
    · exact le_refl _
    · have := ih h; omega

theorem fresh_nodup (j : Nat) : (T.fresh S j).Nodup := by
  induction j using halt_induction (T := T) (S := S) with
  | halts j hh =>
    unfold fresh
    rw [passed_of_halts hh]
    split <;> simp
  | up j hh ih =>
    have hp := T.parent_lt j (T.pos_of_not_ends (not_ends_of_not_halts hh))
    rw [fresh_of_not_halts hh, nodup_cons]
    refine ⟨fun hm => ?_, ih⟩
    have := le_of_mem_fresh hm
    omega

/-! ## Descending climbs, one after the other -/

theorem mem_fresh_taken (i : Nat) :
    x ∈ T.fresh (T.taken (i + 1)) i ↔ x ∈ T.chain i ∧ x ∉ T.taken (i + 1) :=
  mem_fresh (fun _ hx _ hy => T.taken_closed hx hy) i

theorem card_taken (hi : i < T.size) :
    (T.taken i).card = (T.taken (i + 1)).card + (T.fresh (T.taken (i + 1)) i).length := by
  have hdis : Disjoint (T.taken (i + 1)) (T.fresh (T.taken (i + 1)) i).toFinset := by
    rw [Finset.disjoint_left]
    intro x hx hf
    exact (mem_fresh_taken i |>.1 (mem_toFinset.1 hf)).2 hx
  rw [← toFinset_card_of_nodup (fresh_nodup i), ← Finset.card_union_of_disjoint hdis]
  congr 1
  ext x
  rw [T.mem_taken_iff hi, Finset.mem_union, mem_toFinset, mem_fresh_taken]
  tauto

/-- A climb from a covered node covers nothing, so nothing changes. -/
theorem taken_eq_of_mem (hi : i < T.size) (h : i ∈ T.taken (i + 1)) :
    T.taken i = T.taken (i + 1) := by
  ext x
  rw [T.mem_taken_iff hi]
  exact ⟨fun hx => hx.elim id (T.taken_closed h), .inl⟩

/-- The last climb to cover `x` for the first time. -/
theorem exists_first (h : x ∈ T.taken i) :
    ∃ c, i ≤ c ∧ c < T.size ∧ x ∈ T.chain c ∧ x ∉ T.taken (c + 1) := by
  obtain ⟨c, hc, hn, hx⟩ := T.mem_taken.1 h
  induction hd : T.size - c using Nat.strong_induction_on generalizing c with
  | _ d ih =>
    by_cases hm : x ∈ T.taken (c + 1)
    · obtain ⟨c', hc', hn', hx'⟩ := T.mem_taken.1 hm
      exact ih (T.size - c') (by omega) c' (by omega) hn' hx' rfl
    · exact ⟨c, hc, hn, hx, hm⟩

theorem not_mem_taken_of_chain {c : Nat} (hx : x ∈ T.chain c) (h : x ∉ T.taken (c + 1)) :
    c ∉ T.taken (c + 1) := fun hc => h (T.taken_closed hc hx)

/-- The climb that first covers a `top` node ends there. -/
theorem stop_of_not_mem {c : Nat} (hx : x ∈ T.chain c) (he : T.Ends x) (h : x ∉ T.taken (c + 1)) :
    T.stop (T.taken (c + 1)) c = x := by
  have key : ∀ j, x ∈ T.chain j → T.stop (T.taken (c + 1)) j = x := by
    intro j
    induction j using T.climb_induction with
    | ends j hj =>
      intro hx
      rw [T.chain_of_ends hj, mem_singleton] at hx
      rw [hx, stop_of_halts (.inl hj)]
    | up j hj ih =>
      intro hx
      have hjs : j ∉ T.taken (c + 1) := fun hjs => h (T.taken_closed hjs hx)
      rw [T.chain_of_not_ends hj] at hx
      rw [stop_of_not_halts (not_or.2 ⟨hj, hjs⟩)]
      rcases mem_cons.1 hx with rfl | hx
      · exact absurd he hj
      · exact ih hx
  exact key c hx

end UpTree

end GreenPipeline.Core
