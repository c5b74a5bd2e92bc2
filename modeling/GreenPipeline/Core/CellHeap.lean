import Mathlib.Data.List.Basic

/-!
# A heap of cells

Cells that are allocated, read, written and freed by address. The allocator may return any address
that is not in use, a freed one again too.

Results:

* `read_write_self`, `read_write_of_ne`, `read_free_of_ne`: what is read after a write and after a
  free.
* `read_alloc_of_read`: a new cell is not one that is in use.
-/
namespace GreenPipeline.Core.CellHeap

variable {β : Type*}

/-- The cells, and the addresses that are in use. -/
structure Heap (β : Type*) where
  cells : ℕ → Option β
  used : List ℕ
  mem_used : ∀ a, cells a ≠ none → a ∈ used

/-- The choice of an address that is not in use. -/
structure Allocator where
  pick : List ℕ → ℕ
  fresh : ∀ used, pick used ∉ used

theorem le_foldr_max {a : ℕ} : ∀ {used : List ℕ}, a ∈ used → a ≤ used.foldr max 0
  | b :: used, h => by
    rcases List.mem_cons.1 h with rfl | h
    · exact Nat.le_max_left _ _
    · exact Nat.le_trans (le_foldr_max h) (Nat.le_max_right _ _)

/-- The address behind the highest one in use; a freed cell at the end is
handed out again. -/
def Allocator.top : Allocator where
  pick used := used.foldr max 0 + 1
  fresh _ h := absurd (le_foldr_max h) (Nat.not_succ_le_self _)

namespace Heap

/-- Nothing is allocated. -/
def empty : Heap β := ⟨fun _ => none, [], fun _ h => absurd rfl h⟩

/-- `none` if the address is not in use. -/
def read (h : Heap β) (a : ℕ) : Option β := h.cells a

def write (h : Heap β) (a : ℕ) (b : β) : Heap β where
  cells := fun c => if c = a then some b else h.cells c
  used := a :: h.used
  mem_used := by
    intro c hc
    by_cases hca : c = a
    · exact hca ▸ List.mem_cons_self
    · rw [if_neg hca] at hc
      exact List.mem_cons_of_mem a (h.mem_used c hc)

def free (h : Heap β) (a : ℕ) : Heap β where
  cells := fun c => if c = a then none else h.cells c
  used := h.used.filter (· ≠ a)
  mem_used := by
    intro c hc
    by_cases hca : c = a
    · rw [if_pos hca] at hc
      exact absurd rfl hc
    · rw [if_neg hca] at hc
      exact List.mem_filter.mpr ⟨h.mem_used c hc, decide_eq_true hca⟩

/-- The new address and the heap with a cell there. -/
def alloc (al : Allocator) (h : Heap β) (b : β) : ℕ × Heap β :=
  (al.pick h.used, h.write (al.pick h.used) b)

variable {h : Heap β} {a c : ℕ} {b : β}

@[simp] theorem read_write_self : (h.write a b).read a = some b := if_pos rfl

theorem read_write_of_ne (hne : c ≠ a) : (h.write a b).read c = h.read c := if_neg hne

theorem read_free_of_ne (hne : c ≠ a) : (h.free a).read c = h.read c := if_neg hne

variable (al : Allocator)

theorem read_pick : h.read (al.pick h.used) = none := by
  by_contra hread
  exact al.fresh h.used (h.mem_used _ hread)

/-- A cell in use is not the new one. -/
theorem ne_pick_of_read (hc : h.read c ≠ none) : c ≠ al.pick h.used := by
  rintro rfl
  exact hc (read_pick al)

theorem read_alloc_of_read (hc : h.read c ≠ none) : (h.alloc al b).2.read c = h.read c :=
  read_write_of_ne (ne_pick_of_read al hc)

end Heap

end GreenPipeline.Core.CellHeap
