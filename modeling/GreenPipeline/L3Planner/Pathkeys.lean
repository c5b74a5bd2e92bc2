import Mathlib.Data.List.Basic

/-!
# Pathkeys (`optimizer/path/pathkeys.c`)

Pathkeys are canonical: two sort keys are the same exactly when their
`PathKey` pointers are, so a `PathKey` is modelled by the address of its
canonical node. The pointer test `keys1 == keys2` at the head of
`compare_pathkeys` is a shortcut for lists with the same contents and has
no case of its own here.

* `comparePathkeys_ge`, `comparePathkeys_le`: the four answers are exactly
  the two prefix relations between the lists.
-/
namespace GreenPipeline.L3.Pathkeys

/-- A canonical `PathKey *`. -/
structure PathKey where
  addr : Nat
  deriving DecidableEq, Repr

/-- mirrors src/include/optimizer/paths.h:175-181 -/
inductive PathKeysComparison
  | equal
  | better1
  | better2
  | different
  deriving DecidableEq, Repr

/-- mirrors pathkeys.c:277-309 -/
def comparePathkeys : List PathKey → List PathKey → PathKeysComparison
  | [], [] => .equal
  | _ :: _, [] => .better1
  | [], _ :: _ => .better2
  | k1 :: ks1, k2 :: ks2 => if k1 ≠ k2 then .different else comparePathkeys ks1 ks2

theorem comparePathkeys_spec : ∀ (keys1 keys2 : List PathKey),
    (comparePathkeys keys1 keys2 = .equal ∨ comparePathkeys keys1 keys2 = .better1 ↔
      keys2 <+: keys1) ∧
      (comparePathkeys keys1 keys2 = .equal ∨ comparePathkeys keys1 keys2 = .better2 ↔
        keys1 <+: keys2)
  | [], [] => by simp [comparePathkeys]
  | _ :: _, [] => by simp [comparePathkeys]
  | [], _ :: _ => by simp [comparePathkeys]
  | k1 :: ks1, k2 :: ks2 => by
    by_cases h : k1 = k2
    · simp only [comparePathkeys, h, ne_eq, not_true_eq_false, if_false,
        List.cons_prefix_cons, true_and]
      exact comparePathkeys_spec ks1 ks2
    · simp [comparePathkeys, h, List.cons_prefix_cons, Ne.symm h]

/-- `keys1` sorts at least as well: equal, or `PATHKEYS_BETTER1`. -/
theorem comparePathkeys_ge (keys1 keys2 : List PathKey) :
    (comparePathkeys keys1 keys2 = .equal ∨ comparePathkeys keys1 keys2 = .better1) ↔
    keys2 <+: keys1 := (comparePathkeys_spec keys1 keys2).1

/-- `keys2` sorts at least as well: equal, or `PATHKEYS_BETTER2`. -/
theorem comparePathkeys_le (keys1 keys2 : List PathKey) :
    (comparePathkeys keys1 keys2 = .equal ∨ comparePathkeys keys1 keys2 = .better2) ↔
    keys1 <+: keys2 := (comparePathkeys_spec keys1 keys2).2

/-- Only the equal answer satisfies both prefix relations. -/
theorem comparePathkeys_equal_iff (keys1 keys2 : List PathKey) :
    comparePathkeys keys1 keys2 = .equal ↔ keys1 = keys2 := by
  constructor
  · intro h
    have h1 := (comparePathkeys_le keys1 keys2).1 (.inl h)
    have h2 := (comparePathkeys_ge keys1 keys2).1 (.inl h)
    exact h1.eq_of_length (Nat.le_antisymm h1.length_le h2.length_le)
  · rintro rfl
    rcases (comparePathkeys_ge keys1 keys1).2 List.prefix_rfl with h | h
    · exact h
    · rcases (comparePathkeys_le keys1 keys1).2 List.prefix_rfl with h' | h'
      · exact h'
      · rw [h] at h'; cases h'

end GreenPipeline.L3.Pathkeys
