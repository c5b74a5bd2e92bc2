import GreenPipeline.L1Nodes.PrimNodes

/-!
# Pushing NOT down

`src/backend/optimizer/prep/prepqual.c:72-265`: `negate_clause` builds the
negation of a boolean expression. ANDs and ORs are negated by De Morgan's laws,
a NOT is taken off, and a leaf is negated by what its kind offers: the negator
of its operator, the opposite test, the opposite constant. What has nothing to
offer gets a NOT on top.

Sources: `src/backend/optimizer/util/clauses.c`.

Results:

* `truth_negateClause`, `pushedDown_negateClause`: value and shape, by
  induction over the tree.
* `negateClause_spec`: the result is the three-valued negation under every
  assignment; and if the expression is AND/OR flat with NOT only above leaves,
  the result is, too.
-/
namespace GreenPipeline.L3.NegateClause

open GreenPipeline.Core GreenPipeline.L1.PrimNodes List

variable {V : Type}

/-! ## `negate_clause` -/

/-- mirrors prepqual.c:212-213 -/
def negateNullTest : NullTestType → NullTestType
  | .isNull => .isNotNull
  | .isNotNull => .isNull

/-- mirrors prepqual.c:226-250 -/
def negateBoolTest : BoolTestType → BoolTestType
  | .isTrue => .isNotTrue
  | .isNotTrue => .isTrue
  | .isFalse => .isNotFalse
  | .isNotFalse => .isFalse
  | .isUnknown => .isNotUnknown
  | .isNotUnknown => .isUnknown

section
variable (cat : Catalog V)

mutual

/-- mirrors prepqual.c:72-265 -/
def negateClause : Node V → Node V
  | .const none => .const none
  | .const (some d) => .const (some (cat.boolGetDatum (!cat.datumGetBool d)))
  | .opExpr opno coll args =>
    match cat.getNegator opno with
    | some negator => .opExpr negator coll args
    | none => .not (.opExpr opno coll args)
  | .scalarArrayOpExpr opno coll useOr scalar array =>
    match cat.getNegator opno with
    | some negator => .scalarArrayOpExpr negator coll (!useOr) scalar array
    | none => .not (.scalarArrayOpExpr opno coll useOr scalar array)
  | .and args => .or (negateClauses args)
  | .or args => .and (negateClauses args)
  | .not arg => arg
  | .nullTest arg t argisrow =>
    -- for a row IS NULL and IS NOT NULL are not opposites
    if !argisrow then .nullTest arg (negateNullTest t) argisrow else .not (.nullTest arg t argisrow)
  | .booleanTest arg t => .booleanTest arg (negateBoolTest t)
  | .var i => .not (.var i)
  | .relabelType arg t => .not (.relabelType arg t)
  | .funcExpr funcid coll args => .not (.funcExpr funcid coll args)
  | .arrayExpr elements multidims => .not (.arrayExpr elements multidims)
  | .list items => .not (.list items)
  | .restrictInfo clause => .not (.restrictInfo clause)

/-- The loop over the arguments of an AND or OR. -/
def negateClauses : List (Node V) → List (Node V)
  | [] => []
  | e :: es => negateClause e :: negateClauses es

end

theorem negateClauses_eq (l : List (Node V)) : negateClauses cat l = l.map (negateClause cat) := by
  induction l with
  | nil => rfl
  | cons e l ih => rw [negateClauses, ih, map_cons]

end

/-! ## Negated values -/

theorem negateBoolTest_test (t : BoolTestType) (a : Truth) :
    (negateBoolTest t).test a = !t.test a := by
  cases t <;> simp [negateBoolTest, BoolTestType.test, bne]

section
variable (cat : Catalog V) (env : Nat → Option V)

/-- For a scalar IS NULL and IS NOT NULL are opposites. -/
theorem negateNullTest_test (t : NullTestType) (d : Option V) :
    cat.nullTest (negateNullTest t) false d = !cat.nullTest t false d := by
  cases t <;> cases d <;> rfl

section

variable {opno negator : Oid} (h : cat.getNegator opno = some negator)
include h

theorem truth_negator (coll : Oid)
    (args : List (Option V)) :
    cat.truth (cat.opCall negator coll args) = not3 (cat.truth (cat.opCall opno coll args)) :=
  cat.negator_spec h coll args

/-- The array operator with the negator and the other quantifier. -/
theorem truth_negate_scalarArrayOpExpr (coll : Oid) (useOr : Bool) (scalar array : Node V) :
    truthOf cat env (.scalarArrayOpExpr negator coll (!useOr) scalar array) =
      not3 (truthOf cat env (.scalarArrayOpExpr opno coll useOr scalar array)) := by
  rw [truth_scalarArrayOpExpr, truth_scalarArrayOpExpr]
  cases eval cat env array with
  | none => rfl
  | some arr =>
    simp only [Option.bind_some, truth_negator cat h]
    cases useOr with
    | true => exact (not3_any3 _).trans (by rw [map_map]; rfl) |>.symm
    | false => exact (not3_all3 _).trans (by rw [map_map]; rfl) |>.symm

end

/-- By induction over the tree; the leaves offer a negation or get a NOT. -/
theorem truth_negateClause :
    ∀ e : Node V, truthOf cat env (negateClause cat e) = not3 (truthOf cat env e)
  | .const none => by rw [negateClause, truth_const]; rfl
  | .const (some d) => by
    rw [negateClause, truth_const, truth_const]
    simp [not3, cat.datumGetBool_boolGetDatum]
  | .opExpr opno coll args => by
    rw [negateClause]
    split
    · rename_i negator h
      rw [truth_opExpr, truth_opExpr, truth_negator cat h]
    · exact truth_not cat env _
  | .scalarArrayOpExpr opno coll useOr scalar array => by
    rw [negateClause]
    split
    · rename_i negator h
      exact truth_negate_scalarArrayOpExpr cat env h coll useOr scalar array
    · exact truth_not cat env _
  | .and args => by
    have hargs : (args.map (negateClause cat)).map (truthOf cat env) =
        (args.map (truthOf cat env)).map not3 := by
      rw [map_map, map_map]
      exact map_congr_left fun e he => truth_negateClause e
    rw [negateClause, negateClauses_eq, truth_or, truth_and, hargs, not3_all3]
  | .or args => by
    have hargs : (args.map (negateClause cat)).map (truthOf cat env) =
        (args.map (truthOf cat env)).map not3 := by
      rw [map_map, map_map]
      exact map_congr_left fun e he => truth_negateClause e
    rw [negateClause, negateClauses_eq, truth_and, truth_or, hargs, not3_any3]
  | .not arg => by rw [negateClause, truth_not, not3_not3]
  | .nullTest arg t argisrow => by
    rw [negateClause]
    cases argisrow with
    | false =>
      rw [Bool.not_false, if_pos rfl, truth_nullTest, truth_nullTest, negateNullTest_test]; rfl
    | true => exact truth_not cat env _
  | .booleanTest arg t => by
    rw [negateClause, truth_booleanTest, truth_booleanTest, negateBoolTest_test]; rfl
  | .var _ | .relabelType _ _ | .funcExpr _ _ _ | .arrayExpr _ _ | .list _ | .restrictInfo _ => by
    exact truth_not cat env _

end

/-! ## AND/OR flatness with NOT above leaves -/

/-- mirrors clauses.c:314-319 -/
def andClause : Node V → Bool
  | .and _ => true
  | _ => false

/-- mirrors clauses.c:280-285 -/
def orClause : Node V → Bool
  | .or _ => true
  | _ => false

/-- No `BoolExpr`. -/
def leaf : Node V → Bool
  | .and _ => false
  | .or _ => false
  | .not _ => false
  | _ => true

mutual

/-- No AND directly under an AND, no OR directly under an OR, and NOT only above leaves. -/
def pushedDown : Node V → Bool
  | .and args => pushedDownArgs andClause args
  | .or args => pushedDownArgs orClause args
  | .not arg => leaf arg
  | _ => true

/-- All arguments are pushed down and none is of the kind `clause`. -/
def pushedDownArgs (clause : Node V → Bool) : List (Node V) → Bool
  | [] => true
  | e :: es => pushedDown e && !clause e && pushedDownArgs clause es

end

theorem pushedDownArgs_iff {clause : Node V → Bool} {l : List (Node V)} :
    pushedDownArgs clause l = true ↔ ∀ e ∈ l, pushedDown e = true ∧ clause e = false := by
  induction l with
  | nil => simp [pushedDownArgs]
  | cons e l ih =>
    rw [pushedDownArgs, Bool.and_eq_true, Bool.and_eq_true, ih, forall_mem_cons, Bool.not_eq_true']

variable {e : Node V}

theorem pushedDown_of_leaf (h : leaf e = true) : pushedDown e = true := by
  cases e <;> simp_all [leaf, pushedDown]

theorem leaf_not_clause (h : leaf e = true) : andClause e = false ∧ orClause e = false := by
  cases e <;> simp_all [leaf, andClause, orClause]

section
variable (cat : Catalog V)

/-- A leaf becomes a leaf, or gets a NOT. -/
theorem negateClause_leaf (h : leaf e = true) :
    leaf (negateClause cat e) = true ∨ negateClause cat e = .not e := by
  cases e with
  | const c => cases c <;> exact .inl rfl
  | opExpr opno coll args =>
    rw [negateClause]
    split
    · exact .inl rfl
    · exact .inr rfl
  | scalarArrayOpExpr opno coll useOr scalar array =>
    rw [negateClause]
    split
    · exact .inl rfl
    · exact .inr rfl
  | nullTest arg t argisrow =>
    cases argisrow
    · exact .inl rfl
    · exact .inr rfl
  | booleanTest arg t => exact .inl rfl
  | and args | or args | not arg => cases h
  | var i | relabelType arg t | funcExpr f c args | arrayExpr es m | list is | restrictInfo c =>
    exact .inr rfl

/-- Negation swaps ANDs and ORs and makes neither from anything else. -/
theorem negateClause_clause (h : pushedDown e = true) :
    (andClause (negateClause cat e) = true → orClause e = true) ∧
    (orClause (negateClause cat e) = true → andClause e = true) := by
  have hleaf : ∀ e : Node V, leaf e = true →
      (andClause (negateClause cat e) = true → orClause e = true) ∧
      (orClause (negateClause cat e) = true → andClause e = true) := by
    intro e he
    obtain h | h := negateClause_leaf cat he
    · rw [(leaf_not_clause h).1, (leaf_not_clause h).2]
      simp
    · rw [h]
      exact ⟨fun h => (nomatch h), fun h => (nomatch h)⟩
  cases e with
  | and args => exact ⟨fun h => by simp [negateClause, andClause] at h, fun _ => rfl⟩
  | or args => exact ⟨fun _ => rfl, fun h => by simp [negateClause, orClause] at h⟩
  | not arg =>
    rw [negateClause, (leaf_not_clause h).1, (leaf_not_clause h).2]
    simp
  | _ => exact hleaf _ rfl

theorem pushedDown_negateClause :
    ∀ e : Node V, pushedDown e = true → pushedDown (negateClause cat e) = true
  | .and args, h => by
    rw [pushedDown, pushedDownArgs_iff] at h
    rw [negateClause, negateClauses_eq, pushedDown, pushedDownArgs_iff, List.forall_mem_map]
    intro e he
    obtain ⟨hp, ha⟩ := h e he
    refine ⟨pushedDown_negateClause e hp, Bool.eq_false_iff.2 fun ho => ?_⟩
    exact Bool.false_ne_true (ha.symm.trans ((negateClause_clause cat hp).2 ho))
  | .or args, h => by
    rw [pushedDown, pushedDownArgs_iff] at h
    rw [negateClause, negateClauses_eq, pushedDown, pushedDownArgs_iff, forall_mem_map]
    intro e he
    obtain ⟨hp, ho⟩ := h e he
    refine ⟨pushedDown_negateClause e hp, Bool.eq_false_iff.2 fun ha => ?_⟩
    exact Bool.false_ne_true (ho.symm.trans ((negateClause_clause cat hp).1 ha))
  | .not arg, h => by
    rw [pushedDown] at h
    rw [negateClause]
    exact pushedDown_of_leaf h
  | .const c, _ => pushedDown_negate_leaf rfl
  | .var _, _ | .relabelType _ _, _ | .opExpr _ _ _, _ | .funcExpr _ _ _, _ | .arrayExpr _ _, _
  | .scalarArrayOpExpr _ _ _ _ _, _ | .nullTest _ _ _, _ | .booleanTest _ _, _ | .list _, _
  | .restrictInfo _, _ => pushedDown_negate_leaf rfl
where
  pushedDown_negate_leaf {e : Node V} (he : leaf e = true) :
      pushedDown (negateClause cat e) = true := by
    obtain h | h := negateClause_leaf cat he
    · exact pushedDown_of_leaf h
    · rw [h, pushedDown, he]

/-- `negate_clause` is exact three-valued negation, and keeps AND/OR flatness
with NOT only above leaves. -/
theorem negateClause_spec (e : Node V) :
    (∀ env : Nat → Option V, truthOf cat env (negateClause cat e) = not3 (truthOf cat env e)) ∧
    (pushedDown e = true → pushedDown (negateClause cat e) = true) :=
  ⟨fun env => truth_negateClause cat env e, pushedDown_negateClause cat e⟩

end

/-! ## Integers -/

/-- Booleans, integers, and arrays of integers. -/
inductive Value where
  | bool (b : Bool)
  | int (n : Int)
  | ints (l : List (Option Int))

/-- `int4eq`, `int4ne`, `int4lt` and `int4ge` by the oids of their operators.
mirrors src/include/catalog/pg_operator.h:128, 131, 272, 286 -/
def int4Op : Oid → Option (Int → Int → Bool)
  | 96 => some fun a b => a == b
  | 518 => some fun a b => a != b
  | 97 => some fun a b => decide (a < b)
  | 525 => some fun a b => decide (b ≤ a)
  | _ => none

def int4Negator : Oid → Option Oid
  | 96 => some 518
  | 518 => some 96
  | 97 => some 525
  | 525 => some 97
  | _ => none

theorem int4Op_negator {opno negator : Oid} (h : int4Negator opno = some negator) :
    ∃ f g, int4Op opno = some f ∧ int4Op negator = some g ∧ ∀ a b, g a b = !f a b := by
  unfold int4Negator at h
  split at h <;> cases h
  · exact ⟨_, _, rfl, rfl, fun a b => rfl⟩
  · exact ⟨_, _, rfl, rfl, fun a b => by simp [bne]⟩
  · exact ⟨_, _, rfl, rfl, fun a b => by rw [← decide_not, decide_eq_decide, Int.not_lt]⟩
  · exact ⟨_, _, rfl, rfl, fun a b => by rw [← decide_not, decide_eq_decide, Int.not_le]⟩

/-- The integer comparisons; they are strict. -/
def int4Catalog : Catalog Value where
  boolGetDatum := .bool
  datumGetBool
    | .bool b => b
    | _ => false
  arrayElems
    | .ints l => l.map (Option.map .int)
    | _ => []
  makeArray _ l := .ints (l.map fun
    | some (.int n) => some n
    | _ => none)
  rowAttrs
    | .ints l => l.map (Option.map .int)
    | _ => []
  opCall opno _
    | [some (.int a), some (.int b)] => (int4Op opno).map fun f => .bool (f a b)
    | _ => none
  funcCall _ _ _ := none
  getNegator := int4Negator
  datumGetBool_boolGetDatum _ := rfl
  negator_spec h _ args := by
    obtain ⟨f, g, hf, hg, hfg⟩ := int4Op_negator h
    rw [hf, hg]
    split
    · simp [hfg, not3]
    · rfl

/-- `(NOT v1 OR v2 = 5) AND v2 < ANY (3, NULL)`. -/
def nestedClause : Node Value :=
  .and [.or [.not (.var 1), .opExpr 96 0 [.var 2, .const (some (.int 5))]],
    .scalarArrayOpExpr 97 0 true (.var 2) (.const (some (.ints [some 3, none])))]

/-- Its negation is `v1 AND v2 <> 5 OR v2 >= ALL (3, NULL)`. -/
theorem negateClause_nestedClause :
    negateClause int4Catalog nestedClause =
      .or [.and [.var 1, .opExpr 518 0 [.var 2, .const (some (.int 5))]],
        .scalarArrayOpExpr 525 0 false (.var 2) (.const (some (.ints [some 3, none])))] ∧
    (∀ env : Nat → Option Value, truthOf int4Catalog env (negateClause int4Catalog nestedClause) =
      not3 (truthOf int4Catalog env nestedClause)) ∧
    pushedDown (negateClause int4Catalog nestedClause) = true :=
  ⟨rfl, (negateClause_spec int4Catalog nestedClause).1,
    (negateClause_spec int4Catalog nestedClause).2 rfl⟩

end GreenPipeline.L3.NegateClause
