import Mathlib.Data.List.Basic

/-!
# Three-valued logic

Truth values are `Option Bool`, with `none` for the unknown value. A
conjunction is false if a member is, otherwise unknown if a member is, and
otherwise true; a disjunction is its dual.

Results:

* `not3_all3`, `not3_any3`: De Morgan's laws.
* `designated_true`, `designated_ne_false`: seen from "is true" and from "is not
  false" the connectives are the classical ones.
* `Designated.all3_iff`, `Designated.any3_iff`: the same for lists.
-/
namespace GreenPipeline.Core

abbrev Truth := Option Bool

def and3 : Truth → Truth → Truth
  | some false, _ => some false
  | _, some false => some false
  | some true, b => b
  | none, _ => none

def or3 : Truth → Truth → Truth
  | some true, _ => some true
  | _, some true => some true
  | some false, b => b
  | none, _ => none

def not3 (a : Truth) : Truth := a.map (!·)

def all3 (l : List Truth) : Truth := l.foldr and3 (some true)

def any3 (l : List Truth) : Truth := l.foldr or3 (some false)

theorem not3_not3 (a : Truth) : not3 (not3 a) = a := by
  rcases a with _ | _ | _ <;> rfl

theorem not3_all3 (l : List Truth) : not3 (all3 l) = any3 (l.map not3) := by
  induction l with
  | nil => rfl
  | cons a l ih =>
    rw [List.map_cons, any3, List.foldr_cons, ← any3, ← ih, all3, List.foldr_cons, ← all3]
    rcases a with _ | _ | _ <;> rcases all3 l with _ | _ | _ <;> rfl

theorem not3_any3 (l : List Truth) : not3 (any3 l) = all3 (l.map not3) := by
  have hback : (l.map not3).map not3 = l := by simp [Function.comp_def, not3_not3]
  rw [← not3_not3 (all3 _), not3_all3, hback]

/-- A set of truth values from which both connectives look classical. -/
structure Designated (P : Truth → Prop) : Prop where
  true_mem : P (some true)
  false_notMem : ¬ P (some false)
  and3_iff : ∀ a b, P (and3 a b) ↔ P a ∧ P b
  or3_iff : ∀ a b, P (or3 a b) ↔ P a ∨ P b

theorem designated_true : Designated (· = some true) where
  true_mem := rfl
  false_notMem := by simp
  and3_iff a b := by rcases a with _ | _ | _ <;> rcases b with _ | _ | _ <;> simp [and3]
  or3_iff a b := by rcases a with _ | _ | _ <;> rcases b with _ | _ | _ <;> simp [or3]

theorem designated_ne_false : Designated (· ≠ some false) where
  true_mem := by simp
  false_notMem := by simp
  and3_iff a b := by rcases a with _ | _ | _ <;> rcases b with _ | _ | _ <;> simp [and3]
  or3_iff a b := by rcases a with _ | _ | _ <;> rcases b with _ | _ | _ <;> simp [or3]

section
variable {P : Truth → Prop} (hP : Designated P)
include hP

theorem Designated.all3_iff {l : List Truth} : P (all3 l) ↔ ∀ a ∈ l, P a := by
  induction l with
  | nil => simpa [all3] using hP.true_mem
  | cons a l ih =>
    rw [List.forall_mem_cons, ← ih]
    exact hP.and3_iff _ _

theorem Designated.any3_iff {l : List Truth} : P (any3 l) ↔ ∃ a ∈ l, P a := by
  induction l with
  | nil => simpa [any3] using hP.false_notMem
  | cons a l ih =>
    rw [List.exists_mem_cons_iff, ← ih]
    exact hP.or3_iff _ _

end

end GreenPipeline.Core
