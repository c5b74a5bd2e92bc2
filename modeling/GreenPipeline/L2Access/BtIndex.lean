import GreenPipeline.Core.LexOrder

/-!
# Index tuples and the order of a b-tree index

The tuples of a b-tree index are sorted column by column: each column by the order of its operator
class, ascending or descending, with its NULLs first or last.

Results:

* the order of the index is a total preorder (`TransCmp (indexCmp columns)`).
-/
namespace GreenPipeline.L2.Bt

open GreenPipeline.Core.LexOrder Std

variable {D : Type*}

/-- A column of an index: the order of its operator class, and the options of
`pg_index.indoption`. -/
structure Column (D : Type*) where
  cmp : D → D → Ordering
  lawful : TransCmp cmp
  desc : Bool
  nullsFirst : Bool

structure IndexTuple (D : Type*) where
  values : List (Option D)

/-- The value of an attribute, from 1; none for NULL. -/
def indexGetattr (itup : IndexTuple D) (attnum : Nat) : Option D := (itup.values[attnum - 1]?).join

/-- How the column sorts. -/
def Column.order (c : Column D) : Option D → Option D → Ordering :=
  nullsCmp c.nullsFirst (dirCmp c.desc c.cmp)

instance (c : Column D) : TransCmp c.order :=
  have := c.lawful
  inferInstanceAs (TransCmp (nullsCmp c.nullsFirst (dirCmp c.desc c.cmp)))

/-- Tuples by one attribute. -/
def Column.attrOrder (c : Column D) (attnum : Nat) (t u : IndexTuple D) : Ordering :=
  c.order (indexGetattr t attnum) (indexGetattr u attnum)

instance (c : Column D) (attnum : Nat) : TransCmp (c.attrOrder attnum) where
  eq_swap :=
    fun {t u} => (OrientedCmp.eq_swap : c.order (indexGetattr t attnum) (indexGetattr u attnum) = _)
  isLE_trans := fun {t u v} htu huv => by
    have hcmp :=
      TransCmp.isLE_trans
        (show (c.order (indexGetattr t attnum) (indexGetattr u attnum)).isLE from htu) huv
    exact hcmp

/-- The orders of the columns, the first of which has the number `attnum`. -/
def attrOrders : (attnum : Nat) → List (Column D) → List (IndexTuple D → IndexTuple D → Ordering)
  | _, [] => []
  | attnum, c :: cs => c.attrOrder attnum :: attrOrders (attnum + 1) cs

/-- The order of the index. -/
def indexCmp (columns : List (Column D)) : IndexTuple D → IndexTuple D → Ordering :=
  lexCmp (attrOrders 1 columns)

theorem attrOrders_transCmp (columns : List (Column D)) (attnum : Nat) :
    ∀ cmp ∈ attrOrders attnum columns, TransCmp cmp := by
  induction columns generalizing attnum with
  | nil => intro cmp h; cases h
  | cons c cs ih =>
    intro cmp h
    rcases List.mem_cons.1 h with h | h
    · rw [h]
      infer_instance
    · exact ih (attnum + 1) cmp h

theorem attrOrders_append (attnum : Nat) (cs ds : List (Column D)) :
    attrOrders attnum (cs ++ ds) = attrOrders attnum cs ++ attrOrders (attnum + cs.length) ds := by
  induction cs generalizing attnum with
  | nil => rfl
  | cons c cs ih => simp [attrOrders, ih, Nat.add_assoc, Nat.add_comm 1]

instance (columns : List (Column D)) : TransCmp (indexCmp columns) :=
  lexCmp_transCmp (attrOrders_transCmp columns 1)

end GreenPipeline.L2.Bt
