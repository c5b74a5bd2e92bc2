import GreenPipeline.Core.Kleene
import Mathlib.Tactic.Common

/-!
# Expression nodes and their evaluation

The node types of `src/include/nodes/primnodes.h` that the planner's boolean
reasoning looks into, and what the executor (`src/backend/executor/execExprInterp.c`)
computes for them. A `var` stands for every node nothing here looks into: a
column, a parameter, a subplan. Node fields that follow from the ones given
(result types, `opfuncid`) and parse locations are left out.

Values are non-null `Datum`s of an arbitrary type `V`, with `none` for NULL.
The catalog (`Catalog`) says what operators and functions do with them; its
laws are what the planner assumes of the catalog's contents.

Results:

* `truth_and`, `truth_or`, `truth_not`, …: the truth value of each kind of node.
-/
namespace GreenPipeline.L1.PrimNodes

open GreenPipeline.Core

abbrev Oid := Nat

inductive NullTestType where
  | isNull
  | isNotNull
  deriving DecidableEq

inductive BoolTestType where
  | isTrue
  | isNotTrue
  | isFalse
  | isNotFalse
  | isUnknown
  | isNotUnknown
  deriving DecidableEq

inductive Node (V : Type) where
  | const (value : Option V)
  | var (id : Nat)
  | relabelType (arg : Node V) (resulttype : Oid)
  | opExpr (opno inputcollid : Oid) (args : List (Node V))
  | funcExpr (funcid inputcollid : Oid) (args : List (Node V))
  | arrayExpr (elements : List (Node V)) (multidims : Bool)
  | scalarArrayOpExpr (opno inputcollid : Oid) (useOr : Bool) (scalar array : Node V)
  | and (args : List (Node V))
  | or (args : List (Node V))
  | not (arg : Node V)
  | nullTest (arg : Node V) (nulltesttype : NullTestType) (argisrow : Bool)
  | booleanTest (arg : Node V) (booltesttype : BoolTestType)
  /-- An implicit-AND list. -/
  | list (items : List (Node V))
  | restrictInfo (clause : Node V)

variable {V : Type}

/-! ## The catalog -/

/-- What the executor finds in the catalog: boolean, array and row values, and
the functions behind operators. `opCall` and `funcCall` are the whole call, with
the executor's treatment of strict functions. -/
structure Catalog (V : Type) where
  boolGetDatum : Bool → V
  datumGetBool : V → Bool
  /-- The elements of an array, in storage order. -/
  arrayElems : V → List (Option V)
  /-- The array an `ArrayExpr` builds. -/
  makeArray : (multidims : Bool) → List (Option V) → V
  /-- The fields of a row. -/
  rowAttrs : V → List (Option V)
  opCall : (opno inputcollid : Oid) → List (Option V) → Option V
  funcCall : (funcid inputcollid : Oid) → List (Option V) → Option V
  getNegator : Oid → Option Oid
  datumGetBool_boolGetDatum : ∀ b, datumGetBool (boolGetDatum b) = b
  /-- Negator operators are complementary and NULL together. -/
  negator_spec : ∀ {opno negator}, getNegator opno = some negator → ∀ inputcollid args,
    (opCall negator inputcollid args).map datumGetBool =
      not3 ((opCall opno inputcollid args).map datumGetBool)

/-! ## Evaluation -/

/-- mirrors execExprInterp.c:2028-2106 (`ExecEvalRowNullInt`)
and the plain tests `EEOP_NULLTEST_ISNULL`, `EEOP_NULLTEST_ISNOTNULL` -/
def Catalog.nullTest (cat : Catalog V) (t : NullTestType) (argisrow : Bool) (d : Option V) : Bool :=
  match t, d with
  | .isNull, none => true
  | .isNotNull, none => false
  | .isNull, some row => argisrow && (cat.rowAttrs row).all Option.isNone
  | .isNotNull, some row => !argisrow || (cat.rowAttrs row).all Option.isSome

/-- mirrors execExprInterp.c (`EEOP_BOOLTEST_*`) -/
def BoolTestType.test : BoolTestType → Truth → Bool
  | .isTrue, t => t == some true
  | .isNotTrue, t => t != some true
  | .isFalse, t => t == some false
  | .isNotFalse, t => t != some false
  | .isUnknown, t => t == none
  | .isNotUnknown, t => t != none

/-- ANY or ALL of the results for the elements. -/
def quantify (useOr : Bool) (l : List Truth) : Truth := if useOr then any3 l else all3 l

section
variable (cat : Catalog V) (env : Nat → Option V)

/-- The boolean that a possibly-NULL datum stands for. -/
def Catalog.truth (d : Option V) : Truth := d.map cat.datumGetBool

def Catalog.datum (t : Truth) : Option V := t.map cat.boolGetDatum

@[simp] theorem truth_datum (t : Truth) : cat.truth (cat.datum t) = t := by
  cases t <;> simp [Catalog.truth, Catalog.datum, cat.datumGetBool_boolGetDatum]

@[simp] theorem truth_bool (b : Bool) : cat.truth (some (cat.boolGetDatum b)) = some b := by
  simp [Catalog.truth, cat.datumGetBool_boolGetDatum]

mutual

/-- The value of an expression when the variables have the values `env`. -/
def eval : Node V → Option V
  | .const c => c
  | .var i => env i
  | .relabelType arg _ => eval arg
  | .opExpr opno coll args => cat.opCall opno coll (evalList args)
  | .funcExpr funcid coll args => cat.funcCall funcid coll (evalList args)
  | .arrayExpr elements multidims => some (cat.makeArray multidims (evalList elements))
  | .scalarArrayOpExpr opno coll useOr scalar array =>
    match eval array with
    | none => none
    | some arr => cat.datum (quantify useOr
        ((cat.arrayElems arr).map fun elem => cat.truth (cat.opCall opno coll [eval scalar, elem])))
  | .and args => cat.datum (all3 ((evalList args).map cat.truth))
  | .or args => cat.datum (any3 ((evalList args).map cat.truth))
  | .not arg => cat.datum (not3 (cat.truth (eval arg)))
  | .nullTest arg t argisrow => some (cat.boolGetDatum (cat.nullTest t argisrow (eval arg)))
  | .booleanTest arg t => some (cat.boolGetDatum (t.test (cat.truth (eval arg))))
  | .list items => cat.datum (all3 ((evalList items).map cat.truth))
  | .restrictInfo clause => eval clause

def evalList : List (Node V) → List (Option V)
  | [] => []
  | e :: es => eval e :: evalList es

end

theorem evalList_eq (l : List (Node V)) : evalList cat env l = l.map (eval cat env) := by
  induction l with
  | nil => rfl
  | cons e l ih => exact congrArg (eval cat env e :: ·) ih

/-- The truth value of an expression. -/
def truthOf (e : Node V) : Truth := cat.truth (eval cat env e)

theorem truth_const (c : Option V) : truthOf cat env (.const c) = c.map cat.datumGetBool := rfl

theorem truth_opExpr (opno coll : Oid) (args : List (Node V)) :
    truthOf cat env (.opExpr opno coll args) =
      cat.truth (cat.opCall opno coll (args.map (eval cat env))) := by
  rw [← evalList_eq]; rfl

theorem truth_and (args : List (Node V)) :
    truthOf cat env (.and args) = all3 (args.map (truthOf cat env)) := by
  refine (truth_datum cat _).trans ?_
  rw [evalList_eq, List.map_map]; rfl

theorem truth_or (args : List (Node V)) :
    truthOf cat env (.or args) = any3 (args.map (truthOf cat env)) := by
  refine (truth_datum cat _).trans ?_
  rw [evalList_eq, List.map_map]; rfl

theorem truth_not (arg : Node V) : truthOf cat env (.not arg) = not3 (truthOf cat env arg) :=
  truth_datum cat _

theorem truth_nullTest (arg : Node V) (t : NullTestType) (argisrow : Bool) :
    truthOf cat env (.nullTest arg t argisrow) =
      some (cat.nullTest t argisrow (eval cat env arg)) := truth_bool cat _

theorem truth_booleanTest (arg : Node V) (t : BoolTestType) :
    truthOf cat env (.booleanTest arg t) = some (t.test (truthOf cat env arg)) := truth_bool cat _

/-- An array operator is NULL for a NULL array and otherwise an OR or AND over the elements. -/
theorem truth_scalarArrayOpExpr (opno coll : Oid) (useOr : Bool) (scalar array : Node V) :
    truthOf cat env (.scalarArrayOpExpr opno coll useOr scalar array) =
      (eval cat env array).bind fun arr => quantify useOr
        ((cat.arrayElems arr).map fun elem =>
          cat.truth (cat.opCall opno coll [eval cat env scalar, elem])) := by
  rw [truthOf, eval]
  cases eval cat env array with
  | none => rfl
  | some arr => exact truth_datum cat _

end

end GreenPipeline.L1.PrimNodes
