import Mathlib.Data.List.Nodup
import Mathlib.Logic.Function.Basic
import Mathlib.Tactic.Common

/-!
# Numbering things in the order of their first appearance

Results:

* `numberAll_eq`: the numbers written down are those of the final mapping.
* `Numbered`: the mapping is the position in a list without repetitions, so different things have
  different numbers and the numbers are the first natural numbers.
-/
namespace GreenPipeline.Core.Numbering

open List

variable {κ : Type*}

structure Mapping (κ : Type*) where
  mapping : κ → Option Nat
  nextIndex : Nat

/-- The mapping is the position in `seen`. -/
structure Numbered (seen : List κ) (m : Mapping κ) : Prop where
  mapping : ∀ k i, m.mapping k = some i ↔ seen[i]? = some k
  nextIndex : m.nextIndex = seen.length
  nodup : seen.Nodup

theorem Numbered.nil : Numbered ([] : List κ) ⟨fun _ => none, 0⟩ :=
  ⟨fun _ _ => by simp, rfl, nodup_nil⟩

theorem Numbered.eq_none_iff (h : Numbered seen m) {k : κ} : m.mapping k = none ↔ k ∉ seen := by
  rw [Option.eq_none_iff_forall_ne_some, mem_iff_getElem?, not_exists]
  exact forall_congr' fun i => not_congr (h.mapping k i)

variable [DecidableEq κ]

/-- Assign a number unless there is one. -/
def Mapping.assign (m : Mapping κ) (k : κ) : Mapping κ :=
  if m.mapping k = none then
    ⟨Function.update m.mapping k (some m.nextIndex), m.nextIndex + 1⟩ else m

/-- The numbers of a list of things, some of which are to have none. -/
def numberAll : List (Option κ) → Mapping κ → List (Option Nat) × Mapping κ
  | [], m => ([], m)
  | none :: ks, m => (none :: (numberAll ks m).1, (numberAll ks m).2)
  | some k :: ks, m =>
    let m := m.assign k
    (m.mapping k :: (numberAll ks m).1, (numberAll ks m).2)

variable {seen : List κ} {m : Mapping κ}

theorem Numbered.assign (h : Numbered seen m) (k : κ) :
    Numbered (if k ∈ seen then seen else seen ++ [k]) (m.assign k) := by
  unfold Mapping.assign
  by_cases hk : k ∈ seen
  · rw [if_pos hk, if_neg fun hnone => h.eq_none_iff.1 hnone hk]
    exact h
  · rw [if_neg hk, if_pos (h.eq_none_iff.2 hk)]
    refine ⟨fun k' i => ?_, ?_, ?_⟩
    · dsimp only
      by_cases hk' : k' = k
      · subst hk'
        rw [Function.update_self, h.nextIndex, Option.some.injEq]
        constructor
        · rintro rfl
          exact getElem?_concat_length
        · intro hi
          by_contra hne
          have hlt := (List.getElem?_eq_some_iff.1 hi).1
          rw [length_append, length_singleton] at hlt
          rw [getElem?_append_left (by omega)] at hi
          exact hk (mem_of_getElem? hi)
      · rw [Function.update_of_ne hk', h.mapping]
        by_cases hlt : i < seen.length
        · rw [getElem?_append_left hlt]
        · rw [getElem?_append_right (by omega), getElem?_eq_none (by omega)]
          refine iff_of_false (by simp) fun hi => hk' ?_
          exact mem_singleton.1 (mem_of_getElem? hi)
    · rw [length_append, length_singleton, h.nextIndex]
    · rw [← concat_eq_append]
      exact h.nodup.concat hk

/-- A number, once assigned, stays. -/
theorem mapping_assign_of_ne_none {k : κ} (h : m.mapping k ≠ none) (k' : κ) :
    (m.assign k').mapping k = m.mapping k := by
  unfold Mapping.assign
  split
  · rename_i hnone
    have hne : k ≠ k' := by
      rintro rfl
      exact h hnone
    exact Function.update_of_ne hne _ _
  · rfl

theorem mapping_assign_self (k : κ) : (m.assign k).mapping k ≠ none := by
  unfold Mapping.assign
  split
  · dsimp only
    rw [Function.update_self]
    exact Option.some_ne_none _
  · assumption

theorem mapping_numberAll_of_ne_none {ks : List (Option κ)} {k : κ} (h : m.mapping k ≠ none) :
    (numberAll ks m).2.mapping k = m.mapping k := by
  induction ks generalizing m with
  | nil => rfl
  | cons k' ks ih =>
    cases k' with
    | none => exact ih h
    | some k' =>
      have hsame := mapping_assign_of_ne_none h k'
      exact (ih (hsame ▸ h)).trans hsame

theorem numberAll_eq (ks : List (Option κ)) (m : Mapping κ) :
    (numberAll ks m).1 = ks.map fun k => k.bind (numberAll ks m).2.mapping := by
  induction ks generalizing m with
  | nil => rfl
  | cons k ks ih =>
    cases k with
    | none => exact congrArg (none :: ·) (ih m)
    | some k =>
      rw [numberAll, map_cons, Option.bind_some, ← ih,
        mapping_numberAll_of_ne_none (mapping_assign_self k)]

/-- Everything in the list gets a number, and nothing else. -/
theorem Numbered.numberAll (h : Numbered seen m) (ks : List (Option κ)) :
    ∃ seen', Numbered seen' (numberAll ks m).2 ∧ ∀ k, k ∈ seen' ↔ k ∈ seen ∨ some k ∈ ks := by
  induction ks generalizing seen m with
  | nil => exact ⟨seen, h, by simp⟩
  | cons k ks ih =>
    cases k with
    | none =>
      obtain ⟨seen', hseen', hmem⟩ := ih h
      exact ⟨seen', hseen', fun k => by simp [hmem]⟩
    | some k =>
      obtain ⟨seen', hseen', hmem⟩ := ih (h.assign k)
      refine ⟨seen', hseen', fun k' => ?_⟩
      rw [hmem, mem_cons, Option.some.injEq]
      split
      · rename_i hk
        constructor
        · rintro (h | h)
          · exact .inl h
          · exact .inr (.inr h)
        · rintro (h | rfl | h)
          · exact .inl h
          · exact .inl hk
          · exact .inr h
      · simp only [mem_append, mem_singleton, or_assoc]

end GreenPipeline.Core.Numbering
