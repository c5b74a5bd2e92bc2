import Mathlib.Algebra.Order.Ring.Int

/-!
# Text made of literals and back references

A text is produced item by item: a literal, or a copy of some length from some distance back. The
two ranges of a copy may overlap, so it is made one by one. The items are executed over a memory
around the place of the text, where they may also reach back before its start.

Results:

* `exec_agree`: items that stay within the text produce the same text in every memory.
* `exec_foreign`: items that do not, copy something from before the text into it.
-/
namespace GreenPipeline.Core.BackRefs

open Function

variable {β : Type*}

inductive Item (β : Type*) where
  | literal (b : β)
  | copy (len off : Nat)
  deriving DecidableEq

def Item.size : Item β → Nat
  | .literal _ => 1
  | .copy len _ => len

def totalSize : List (Item β) → Nat
  | [] => 0
  | item :: items => item.size + totalSize items

@[simp] theorem totalSize_nil : totalSize ([] : List (Item β)) = 0 := rfl

@[simp] theorem totalSize_cons (item : Item β) (items : List (Item β)) :
    totalSize (item :: items) = item.size + totalSize items := rfl

@[simp] theorem totalSize_append (items items' : List (Item β)) :
    totalSize (items ++ items') = totalSize items + totalSize items' := by
  induction items with
  | nil => simp
  | cons item items ih => simp [ih, Nat.add_assoc]

/-- Copy `len` values to `dp` and on, each from `off` back. -/
def copyFrom (off : Nat) : (len dp : Nat) → (Int → β) → Int → β
  | 0, _, mem => mem
  | len + 1, dp, mem => copyFrom off len (dp + 1) (Function.update mem dp (mem (dp - off)))

def Item.exec (dp : Nat) (mem : Int → β) : Item β → Int → β
  | .literal b => Function.update mem dp b
  | .copy len off => copyFrom off len dp mem

/-- The items one after the other, from `dp` on. -/
def exec : List (Item β) → (dp : Nat) → (Int → β) → Int → β
  | [], _, mem => mem
  | item :: items, dp, mem => exec items (dp + item.size) (item.exec dp mem)

/-- The item reaches back no further than the start of the text. -/
def Item.Internal (dp : Nat) : Item β → Prop
  | .literal _ => True
  | .copy len off => len = 0 ∨ off ≤ dp

instance (dp : Nat) (item : Item β) : Decidable (item.Internal dp) :=
  match item with
  | .literal _ => isTrue trivial
  | .copy len off => inferInstanceAs (Decidable (len = 0 ∨ off ≤ dp))

def Internal : (dp : Nat) → List (Item β) → Prop
  | _, [] => True
  | dp, item :: items => item.Internal dp ∧ Internal (dp + item.size) items

instance decidableInternal : (dp : Nat) → (items : List (Item β)) → Decidable (Internal dp items)
  | _, [] => isTrue trivial
  | dp, item :: items =>
    have := decidableInternal (dp + item.size) items
    inferInstanceAs (Decidable (item.Internal dp ∧ Internal (dp + item.size) items))

theorem exec_append (items items' : List (Item β)) (dp : Nat) (mem : Int → β) :
    exec (items ++ items') dp mem = exec items' (dp + totalSize items) (exec items dp mem) := by
  induction items generalizing dp mem with
  | nil => rfl
  | cons item items ih => rw [List.cons_append, exec, ih, exec, totalSize_cons, Nat.add_assoc]

/-! ## What is written -/

variable {i n : Int} {dp : Nat}

theorem copyFrom_below (off len dp : Nat) (mem : Int → β) (hi : i < dp) :
    copyFrom off len dp mem i = mem i := by
  induction len generalizing dp mem with
  | zero => rfl
  | succ len ih =>
    rw [copyFrom, ih (dp + 1) _ (by omega), update_of_ne (by omega)]

theorem Item.exec_below (item : Item β) (mem : Int → β) (hi : i < dp) :
    item.exec dp mem i = mem i := by
  cases item with
  | literal b => exact update_of_ne (by omega) _ _
  | copy len off => exact copyFrom_below off len dp mem hi

/-- What stands before is left as it is. -/
theorem exec_below (items : List (Item β)) (mem : Int → β) (hi : i < dp) :
    exec items dp mem i = mem i := by
  induction items generalizing dp mem with
  | nil => rfl
  | cons item items ih => rw [exec, ih _ (by omega), item.exec_below mem hi]

/-! ## Items that stay within the text -/

/-- The same in the text, which begins at zero and ends before `n`. -/
def SameText (n : Int) (mem mem' : Int → β) : Prop := ∀ i, 0 ≤ i → i < n → mem i = mem' i

theorem SameText.update {mem mem' : Int → β} (h : SameText n mem mem') (dp : Nat) (b : β) :
    SameText n (Function.update mem dp b) (Function.update mem' dp b) := by
  intro i h0 hn
  by_cases hi : i = dp
  · rw [hi, update_self, update_self]
  · rw [update_of_ne hi, update_of_ne hi]
    exact h i h0 hn

theorem copyFrom_agree (off len dp : Nat) (hoff : off ≤ dp) (hn : (dp + len : Nat) ≤ n)
    {mem mem' : Int → β} (h : SameText n mem mem') :
    SameText n (copyFrom off len dp mem) (copyFrom off len dp mem') := by
  induction len generalizing dp mem mem' with
  | zero => exact h
  | succ len ih =>
    refine ih (dp + 1) (by omega) (by omega) ?_
    rw [h (dp - off) (by omega) (by omega)]
    exact h.update dp _

theorem Item.exec_agree (item : Item β) (hint : item.Internal dp) (hn : (dp + item.size : Nat) ≤ n)
    {mem mem' : Int → β} (h : SameText n mem mem') :
    SameText n (item.exec dp mem) (item.exec dp mem') := by
  cases item with
  | literal b => exact h.update dp b
  | copy len off =>
    rcases hint with hlen | hoff
    · rw [hlen]
      exact h
    · exact copyFrom_agree off len dp hoff hn h

/-- Items that stay within the text produce the same in every memory. -/
theorem exec_agree (items : List (Item β)) (hint : Internal dp items)
    (hn : (dp + totalSize items : Nat) ≤ n) {mem mem' : Int → β} (h : SameText n mem mem') :
    SameText n (exec items dp mem) (exec items dp mem') := by
  induction items generalizing dp mem mem' with
  | nil => exact h
  | cons item items ih =>
    rw [totalSize_cons] at hn
    exact ih hint.2 (by omega) (item.exec_agree hint.1 (by omega) h)

/-- Else some place of the text holds what stood at some place before the text, whatever the
memory. -/
theorem exec_foreign {items : List (Item β)} (hint : ¬ Internal dp items) :
    ∃ p : Nat, dp ≤ p ∧ p < dp + totalSize items ∧ ∃ q : Int, q < 0 ∧ ∀ mem : Int →
      β, exec items dp mem p = mem q := by
  induction items generalizing dp with
  | nil => exact absurd trivial hint
  | cons item items ih =>
    by_cases hitem : item.Internal dp
    · obtain ⟨p, hle, hlt, q, hq, hmem⟩ := ih fun h => hint ⟨hitem, h⟩
      rw [totalSize_cons]
      refine ⟨p, by omega, by omega, q, hq, fun mem => ?_⟩
      rw [exec, hmem, item.exec_below mem (by omega)]
    · cases item with
      | literal b => exact absurd trivial hitem
      | copy len off =>
        have hoff : ¬ off ≤ dp := fun h => hitem (Or.inr h)
        obtain ⟨n, rfl⟩ := Nat.exists_eq_succ_of_ne_zero fun h : len = 0 => hitem (Or.inl h)
        refine ⟨dp, Nat.le_refl _, ?_, (dp : Int) - off, by omega, fun mem => ?_⟩
        · simp only [totalSize_cons, Item.size]
          omega
        · rw [exec, exec_below _ _ (by simp only [Item.size]; omega)]
          change copyFrom off n (dp + 1) (update mem dp (mem (dp - off))) dp = _
          rw [copyFrom_below _ _ _ _ (by omega), update_self]

end GreenPipeline.Core.BackRefs
