import GreenPipeline.Core.Kleene
import Mathlib.Tactic.Common

/-!
# Boolean expression trees

`BoolExpr` nodes (`src/include/nodes/primnodes.h`) over arbitrary leaves, the
node comparison `equal` (`nodes/equalfuncs.c`) and the list functions that use
it (`nodes/list.c`). A `Const` of type boolean is `const`, with `none` for a
NULL constant. Leaves stand for everything else; two leaves are one if `equal`
calls them equal, so the parse location, which `equal` ignores, is not a part
of a leaf.

Sources: `src/backend/optimizer/util/clauses.c`.

Results:

* `equal_iff`: `equal` is equality of trees.
* `listMember_iff`, `mem_listDifference`.
* `accepts_and`, `accepts_or`: when an AND or an OR is TRUE, and when it is not FALSE.
* `flat_and`, `flat_or`: AND/OR flatness.
-/
namespace GreenPipeline.L1.BoolExpr

open GreenPipeline.Core

inductive Expr (α : Type) where
  | const (value : Option Bool)
  | atom (a : α)
  | and (args : List (Expr α))
  | or (args : List (Expr α))
  | not (arg : Expr α)

variable {α : Type}

/-- mirrors clauses.c:280-285 -/
def orClause : Expr α → Bool
  | .or _ => true
  | _ => false

/-- mirrors clauses.c:314-319 -/
def andClause : Expr α → Bool
  | .and _ => true
  | _ => false

/-! ## `equal` and the lists that use it -/

section
variable [DecidableEq α]

mutual

/-- mirrors src/backend/nodes/equalfuncs.c (`_equalBoolExpr`, `_equalConst`) -/
def equal : Expr α → Expr α → Bool
  | .const a, .const b => a == b
  | .atom a, .atom b => a == b
  | .and a, .and b => equalList a b
  | .or a, .or b => equalList a b
  | .not a, .not b => equal a b
  | _, _ => false

/-- mirrors src/backend/nodes/equalfuncs.c (`_equalList`) -/
def equalList : List (Expr α) → List (Expr α) → Bool
  | [], [] => true
  | a :: as, b :: bs => equal a b && equalList as bs
  | _, _ => false

end

mutual

theorem equal_iff : ∀ a b : Expr α, equal a b = true ↔ a = b
  | .const a, b => by cases b <;> simp [equal]
  | .atom a, b => by cases b <;> simp [equal]
  | .and a, b => by
    cases b with
    | and b => rw [equal, equalList_iff a b]; simp
    | _ => simp [equal]
  | .or a, b => by
    cases b with
    | or b => rw [equal, equalList_iff a b]; simp
    | _ => simp [equal]
  | .not a, b => by
    cases b with
    | not b => rw [equal, equal_iff a b]; simp
    | _ => simp [equal]

theorem equalList_iff : ∀ as bs : List (Expr α), equalList as bs = true ↔ as = bs
  | [], bs => by cases bs <;> simp [equalList]
  | a :: as, bs => by
    cases bs with
    | nil => simp [equalList]
    | cons b bs =>
      rw [equalList, Bool.and_eq_true, equal_iff a b, equalList_iff as bs, List.cons.injEq]

end

/-- mirrors list.c:444-458 -/
def listMember (l : List (Expr α)) (datum : Expr α) : Bool := l.any fun cell => equal cell datum

/-- mirrors list.c:697-714 -/
def listUnion (list1 list2 : List (Expr α)) : List (Expr α) :=
  list2.foldl (fun result cell => if listMember result cell then result else result ++ [cell]) list1

/-- mirrors list.c:858-877 -/
def listDifference (list1 list2 : List (Expr α)) : List (Expr α) :=
  if list2.isEmpty then list1 else list1.filter fun cell => !listMember list2 cell

@[simp] theorem listMember_iff {l : List (Expr α)} {e : Expr α} :
    listMember l e = true ↔ e ∈ l := by
  simp [listMember, equal_iff]

theorem mem_listDifference {list1 list2 : List (Expr α)} {e : Expr α} :
    e ∈ listDifference list1 list2 ↔ e ∈ list1 ∧ e ∉ list2 := by
  unfold listDifference
  cases list2 with
  | nil => simp
  | cons a l =>
    rw [if_neg (by simp), List.mem_filter, Bool.not_eq_true', ← Bool.not_eq_true, listMember_iff]

end

/-! ## Evaluation -/

section
variable (v : α → Truth)

mutual

/-- The value under SQL's three-valued logic when the leaves have the values `v`. -/
def eval : Expr α → Truth
  | .const c => c
  | .atom a => v a
  | .and args => all3 (evalList args)
  | .or args => any3 (evalList args)
  | .not arg => not3 (eval arg)

def evalList : List (Expr α) → List Truth
  | [] => []
  | e :: es => eval e :: evalList es

end

theorem evalList_eq (l : List (Expr α)) : evalList v l = l.map (eval v) := by
  induction l with
  | nil => rfl
  | cons e l ih => rw [evalList, ih, List.map_cons]

/-- The expression is TRUE: a row passes the qualification. -/
def Holds (e : Expr α) : Prop := eval v e = some true

/-- The value is in `P`. With `· = some true` for `P` a row passes a WHERE
clause, with `· ≠ some false` it passes a CHECK constraint. -/
def Accepts (P : Truth → Prop) (e : Expr α) : Prop := P (eval v e)

section
variable {P : Truth → Prop} (hP : Designated P)
include hP

theorem accepts_const {b : Bool} : Accepts v P (.const (some b) : Expr α) ↔ b = true := by
  rw [Accepts, eval]
  cases b
  · simpa using hP.false_notMem
  · simpa using hP.true_mem

theorem accepts_and {l : List (Expr α)} : Accepts v P (.and l) ↔ ∀ e ∈ l, Accepts v P e := by
  rw [Accepts, eval, evalList_eq, hP.all3_iff, List.forall_mem_map]; rfl

theorem accepts_or {l : List (Expr α)} : Accepts v P (.or l) ↔ ∃ e ∈ l, Accepts v P e := by
  rw [Accepts, eval, evalList_eq, hP.any3_iff]
  simp [Accepts]

end

end

/-! ## AND/OR flatness -/

mutual

/-- No AND directly under an AND and no OR directly under an OR, anywhere in the tree. -/
def flat : Expr α → Bool
  | .const _ => true
  | .atom _ => true
  | .and args => flatArgs andClause args
  | .or args => flatArgs orClause args
  | .not arg => flat arg

/-- All arguments are flat and none is of the kind `clause`. -/
def flatArgs (clause : Expr α → Bool) : List (Expr α) → Bool
  | [] => true
  | e :: es => flat e && !clause e && flatArgs clause es

end

theorem flatArgs_iff {clause : Expr α → Bool} {l : List (Expr α)} :
    flatArgs clause l = true ↔ ∀ e ∈ l, flat e = true ∧ clause e = false := by
  induction l with
  | nil => simp [flatArgs]
  | cons e l ih =>
    rw [flatArgs, Bool.and_eq_true, Bool.and_eq_true, ih, List.forall_mem_cons, Bool.not_eq_true']

theorem flat_and {l : List (Expr α)} :
    flat (.and l) = true ↔ ∀ e ∈ l, flat e = true ∧ andClause e = false := by
  rw [flat, flatArgs_iff]

theorem flat_or {l : List (Expr α)} :
    flat (.or l) = true ↔ ∀ e ∈ l, flat e = true ∧ orClause e = false := by
  rw [flat, flatArgs_iff]

end GreenPipeline.L1.BoolExpr
