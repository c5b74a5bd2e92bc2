import Mathlib.Order.Lattice

/-!
# Sort orders of rows

A row order is made of column orders: each may be reversed, and has its place for missing values.
Rows are compared column by column.

Results:

* `lexCmp_transCmp`: the order of the rows is a total preorder if the orders of the columns are.
* `lexCmp_append`, `isLE_of_append`: rows that agree on the first columns.
-/
namespace GreenPipeline.Core.LexOrder

open Std

variable {α : Type*}

/-! ## Columns -/

/-- The order of a column, perhaps reversed. -/
def dirCmp (desc : Bool) (cmp : α → α → Ordering) (x y : α) : Ordering :=
  if desc then (cmp x y).swap else cmp x y

/-- Missing values before or behind all others. -/
def nullsCmp (nullsFirst : Bool) (cmp : α → α → Ordering) : Option α → Option α → Ordering
  | none, none => .eq
  | none, some _ => if nullsFirst then .lt else .gt
  | some _, none => if nullsFirst then .gt else .lt
  | some x, some y => cmp x y

instance dirCmp_transCmp (desc : Bool) (cmp : α → α → Ordering) [TransCmp cmp] :
    TransCmp (dirCmp desc cmp) := by
  cases desc with
  | false => exact inferInstanceAs (TransCmp cmp)
  | true =>
    have heq : dirCmp true cmp = fun x y => cmp y x := by
      funext x y
      exact OrientedCmp.eq_swap.symm
    rw [heq]
    infer_instance

instance nullsCmp_transCmp (nullsFirst : Bool) (cmp : α → α → Ordering) [TransCmp cmp] :
    TransCmp (nullsCmp nullsFirst cmp) where
  eq_swap := by
    intro a b
    cases a <;> cases b <;> cases nullsFirst <;> simp only [nullsCmp, Ordering.swap, if_true] <;>
      first | rfl | exact OrientedCmp.eq_swap
  isLE_trans := by
    intro a b c hab hbc
    cases a <;> cases b <;> cases c <;> cases nullsFirst <;> simp [nullsCmp] at *
    all_goals exact TransCmp.isLE_trans hab hbc

/-! ## Rows -/

/-- Column by column. -/
def lexCmp : List (α → α → Ordering) → α → α → Ordering
  | [], _, _ => .eq
  | cmp :: cmps, a, b => (cmp a b).then (lexCmp cmps a b)

theorem lexCmp_transCmp {cmps : List (α → α → Ordering)} (h : ∀ cmp ∈ cmps, TransCmp cmp) :
    TransCmp (lexCmp cmps) := by
  induction cmps with
  | nil => exact { eq_swap := rfl, isLE_trans := fun _ _ => rfl }
  | cons cmp cmps ih =>
    have hcmp := h cmp (List.mem_cons_self ..)
    have hcmps := ih (List.forall_mem_cons.1 h).2
    exact inferInstanceAs (TransCmp (compareLex cmp (lexCmp cmps)))

theorem lexCmp_append (cmps cmps' : List (α → α → Ordering)) (a b : α) :
    lexCmp (cmps ++ cmps') a b = (lexCmp cmps a b).then (lexCmp cmps' a b) := by
  induction cmps with
  | nil => simp [lexCmp]
  | cons cmp cmps ih => simp [lexCmp, ih, Ordering.then_assoc]

/-- Rows in order are in order by their first columns. -/
theorem isLE_of_append {cmps cmps' : List (α → α → Ordering)} {a b : α}
    (h : (lexCmp (cmps ++ cmps') a b).isLE) : (lexCmp cmps a b).isLE := by
  rw [lexCmp_append] at h
  cases hcmp : lexCmp cmps a b with
  | lt => rfl
  | eq => rfl
  | gt =>
    rw [hcmp] at h
    cases h

end GreenPipeline.Core.LexOrder
