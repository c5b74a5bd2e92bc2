import GreenPipeline.L1Adt.NumericAccum
import GreenPipeline.L1Adt.NumericDiv

/-!
# Aggregates over numeric values

An aggregate can be computed in parts: each worker accumulates a group of the inputs in a state of
its own with `do_numeric_accum`, and the states are merged with `numeric_combine`. Inputs that are
NaN are only counted, apart from the numbers.

Merging skips a second state that has seen no numbers. Its count of NaN inputs is skipped as well.

A window that moves takes inputs out of its state again with `do_numeric_discard`. The largest
display scale is only counted, so that this fails if the last of several inputs with that scale
would leave.

Sources: `src/backend/utils/adt/numeric.c`.

Results:

* `accumulate_spec`: the state after a list of inputs.
* `Window.eq_recomputed`: a window that has moved is as good as a new state.
* `MergeTree.run_spec`: the state after merging, whatever the groups and the order.
* `MergeTree.run_eq_accumulate_iff`: merging gives what one state would have, exactly if no group
  of nothing but NaN is merged into another.
* `nanGroup_lost`: such a group is lost.
-/
namespace GreenPipeline.L1.Numeric

open GreenPipeline.Core GreenPipeline.Core.Positional List

/-! ## The functions -/

/-- mirrors numeric.c:3202-3212 -/
structure NumericAggState where
  calcSumX2 : Bool
  N : ℤ
  sumX : NumericSumAccum
  sumX2 : NumericSumAccum
  maxScale : ℤ
  maxScaleCount : ℤ
  NaNcount : ℤ
  deriving DecidableEq, Repr

/-- mirrors numeric.c:3218-3237 -/
def makeNumericAggState (calcSumX2 : Bool) : NumericAggState :=
  { calcSumX2 := calcSumX2, N := 0, sumX := newSumAccum, sumX2 := newSumAccum, maxScale := 0,
    maxScaleCount := 0, NaNcount := 0 }

/-- mirrors numeric.c:3277-3283 -/
def trackScale (state : NumericAggState) (dscale : ℤ) : NumericAggState :=
  if dscale > state.maxScale then { state with maxScale := dscale, maxScaleCount := 1 }
  else if dscale = state.maxScale then { state with maxScaleCount := state.maxScaleCount + 1 }
  else state

/-- An overflow inside `mul_var` would be an error here. mirrors numeric.c:3258-3306 -/
def doNumericAccum (state : NumericAggState) : NumericDatum → Except NumericError NumericAggState
  | .nan => .ok { state with NaNcount := state.NaNcount + 1 }
  | .finite X =>
    let state := trackScale state X.dscale
    if state.calcSumX2 then
      match mulVar X X (X.dscale * 2) with
      | none => .error .overflow
      | some X2 =>
        .ok { state with
          N := state.N + 1
          sumX := accumSumAdd state.sumX X
          sumX2 := accumSumAdd state.sumX2 X2 }
    else .ok { state with N := state.N + 1, sumX := accumSumAdd state.sumX X }

/-- The buffers are kept. mirrors numeric.c:8816-8826 -/
def accumSumReset (accum : NumericSumAccum) : NumericSumAccum :=
  { accum with
    dscale := 0
    posDigits := replicate accum.posDigits.length 0
    negDigits := replicate accum.posDigits.length 0 }

/-- `none` if the largest scale of the remaining inputs is not known. mirrors numeric.c:3349-3372 -/
def discardScale (state : NumericAggState) (dscale : ℤ) : Option NumericAggState :=
  if dscale = state.maxScale then
    if state.maxScaleCount > 1 ∨ state.maxScale = 0 then
      some { state with maxScaleCount := state.maxScaleCount - 1 }
    else if state.N = 1 then some { state with maxScale := 0, maxScaleCount := 0 }
    else none
  else some state

/-- `val` is the opposite of what is discarded. mirrors numeric.c:3384-3401 -/
def discardSum (N : ℤ) (accum : NumericSumAccum) (val : NumericVar) : NumericSumAccum :=
  if N > 1 then accumSumAdd accum val else accumSumReset accum

/-- `none` is the result false, which leaves the state as it was. mirrors numeric.c:3325-3406 -/
def doNumericDiscard (state : NumericAggState) :
    NumericDatum → Except NumericError (Option NumericAggState)
  | .nan => .ok (some { state with NaNcount := state.NaNcount - 1 })
  | .finite X =>
    match discardScale state X.dscale with
    | none => .ok none
    | some state =>
      match if state.calcSumX2 then mulVar X X (X.dscale * 2) else some X with
      | none => .error .overflow
      | some X2 =>
        .ok (some
          { state with
            N := state.N - 1
            sumX := discardSum state.N state.sumX { X with sign := X.sign.opposite }
            sumX2 := if state.calcSumX2 then
              discardSum state.N state.sumX2 { X2 with sign := .neg } else state.sumX2 })

/-- mirrors numeric.c:3476-3482 -/
def combineScale (state1 state2 : NumericAggState) : NumericAggState :=
  if state2.maxScale > state1.maxScale then
    { state1 with maxScale := state2.maxScale, maxScaleCount := state2.maxScaleCount }
  else if state2.maxScale = state1.maxScale then
    { state1 with maxScaleCount := state1.maxScaleCount + state2.maxScaleCount }
  else state1

/-- A state that does not exist is a null pointer. mirrors numeric.c:3431-3494 -/
def numericCombine (state1 state2 : Option NumericAggState) : Option NumericAggState :=
  match state2 with
  | none => state1
  | some state2 =>
    match state1 with
    | none =>
      some
        { makeNumericAggState true with
          N := state2.N
          NaNcount := state2.NaNcount
          maxScale := state2.maxScale
          maxScaleCount := state2.maxScaleCount
          sumX := accumSumCopy state2.sumX
          sumX2 := accumSumCopy state2.sumX2 }
    | some state1 =>
      if state2.N > 0 then
        let state1 := combineScale state1 state2
        some
          { state1 with
            N := state1.N + state2.N
            NaNcount := state1.NaNcount + state2.NaNcount
            sumX := accumSumCombine state1.sumX state2.sumX
            sumX2 := accumSumCombine state1.sumX2 state2.sumX2 }
      else some state1

/-! ## Accumulating and merging -/

/-- The digits of an input are in range. -/
def NumericDatum.Ok : NumericDatum → Prop
  | .nan => True
  | .finite X => X.DigitsOk

/-- All inputs in one new state. -/
def accumulate (values : List NumericDatum) : Except NumericError NumericAggState :=
  values.foldlM doNumericAccum (makeNumericAggState true)

/-- Calls that accumulate and discard, with the inputs that remain. -/
inductive Window (calcSumX2 : Bool) : NumericAggState → List NumericDatum → Prop
  | start : Window calcSumX2 (makeNumericAggState calcSumX2) []
  | accum {state state' values newval} : Window calcSumX2 state values → newval.Ok →
      doNumericAccum state newval = .ok state' →
    Window calcSumX2 state' (values ++ [newval])
  | discard {state state' values newval} : Window calcSumX2 state values → newval ∈ values →
    doNumericDiscard state newval = .ok (some state') →
    Window calcSumX2 state' (values.erase newval)

/-- Groups of inputs and the order in which their states are merged. A worker that got no row has
no state; one whose rows were all null has a state without inputs. -/
inductive MergeTree
  | group (values : Option (List NumericDatum))
  | merge (left right : MergeTree)

def MergeTree.values : MergeTree → List NumericDatum
  | .group values => values.getD []
  | .merge left right => left.values ++ right.values

def MergeTree.run : MergeTree → Except NumericError (Option NumericAggState)
  | .group none => .ok none
  | .group (some values) => (accumulate values).map some
  | .merge left right =>
    left.run.bind fun state1 => right.run.bind fun state2 => .ok (numericCombine state1 state2)

/-- What an aggregate can see of a state. -/
structure AggSummary where
  count : ℤ
  nanCount : ℤ
  sum : ℚ
  sumScale : ℤ
  sumSquares : ℚ
  sumSquaresScale : ℤ
  deriving DecidableEq, Repr

/-- No state is like a state without inputs. -/
def summary (state : Option NumericAggState) : AggSummary :=
  let state := state.getD (makeNumericAggState true)
  { count := state.N
    nanCount := state.NaNcount
    sum := (accumSumFinal state.sumX).2.value
    sumScale := (accumSumFinal state.sumX).2.dscale
    sumSquares := (accumSumFinal state.sumX2).2.value
    sumSquaresScale := (accumSumFinal state.sumX2).2.dscale }

/-! ## What a state stands for -/

/-- The numbers among the inputs. -/
def finiteValues (values : List NumericDatum) : List NumericVar :=
  values.filterMap fun
    | .nan => none
    | .finite X => some X

/-- The square that is added for a number. -/
def square (X : NumericVar) : NumericVar := (mulVar X X (X.dscale * 2)).getD (zeroVar 0)

/-- The largest display scale, at least zero. -/
def scaleOf (vars : List NumericVar) : ℤ := (vars.map NumericVar.dscale).foldr max 0

def sumOf (vars : List NumericVar) : ℚ := (vars.map NumericVar.value).sum

structure SumsUp (accum : NumericSumAccum) (vars : List NumericVar) : Prop where
  ok : AccumOk accum
  total : accum.total = sumOf vars
  dscale : accum.dscale = scaleOf vars

/-- Count, sums and scales of a state are those of its inputs. -/
structure StateOf (state : NumericAggState) (values : List NumericDatum) : Prop where
  squares : state.calcSumX2 = true
  count : state.N = (finiteValues values).length
  sumX : SumsUp state.sumX (finiteValues values)
  sumX2 : SumsUp state.sumX2 ((finiteValues values).map square)

/-- The number of inputs with the largest scale. -/
def scaleCount (vars : List NumericVar) : ℤ := vars.countP (·.dscale = scaleOf vars)

/-- The state is that of the inputs, whatever was accumulated and discarded before. -/
structure WindowOf (calcSumX2 : Bool) (state : NumericAggState)
    (values : List NumericDatum) : Prop where
  ok : ∀ x ∈ values, x.Ok
  squares : state.calcSumX2 = calcSumX2
  count : state.N = (finiteValues values).length
  nanCount : state.NaNcount = values.count .nan
  sumX : SumsUp state.sumX (finiteValues values)
  sumX2 : SumsUp state.sumX2 (if calcSumX2 then (finiteValues values).map square else [])
  maxScale : state.maxScale = scaleOf (finiteValues values)
  maxScaleCount : state.maxScaleCount = scaleCount (finiteValues values)

@[simp] theorem finiteValues_append (xs ys : List NumericDatum) :
    finiteValues (xs ++ ys) = finiteValues xs ++ finiteValues ys := filterMap_append

@[simp] theorem sumOf_append (xs ys : List NumericVar) :
    sumOf (xs ++ ys) = sumOf xs + sumOf ys := by simp [sumOf]

theorem scaleOf_nonneg (vars : List NumericVar) : 0 ≤ scaleOf vars := by
  induction vars with
  | nil => exact le_refl 0
  | cons X vars ih => exact le_trans ih (le_max_right _ _)

@[simp] theorem scaleOf_append (xs ys : List NumericVar) :
    scaleOf (xs ++ ys) = max (scaleOf xs) (scaleOf ys) := by
  induction xs with
  | nil => exact (max_eq_right (scaleOf_nonneg ys)).symm
  | cons X xs ih =>
    change max X.dscale (scaleOf (xs ++ ys)) = max (max X.dscale (scaleOf xs)) (scaleOf ys)
    rw [ih, max_assoc]

theorem SumsUp.new : SumsUp newSumAccum [] :=
  ⟨newSumAccum_ok.1, newSumAccum_ok.2.1, newSumAccum_ok.2.2⟩

variable {vars : List NumericVar} {state : NumericAggState} {values : List NumericDatum}
  {accum : NumericSumAccum} {X Y : NumericVar}

variable {vars' : List NumericVar}

theorem scaleOf_perm (h : vars.Perm vars') : scaleOf vars = scaleOf vars' :=
  (h.map NumericVar.dscale).foldr_eq 0

theorem sumOf_perm (h : vars.Perm vars') : sumOf vars = sumOf vars' :=
  (h.map NumericVar.value).sum_eq

theorem SumsUp.add (h : SumsUp accum vars) (hX : X.DigitsOk) :
    SumsUp (accumSumAdd accum X) (vars ++ [X]) := by
  obtain ⟨hok, htotal, hdscale⟩ := accumSumAdd_spec h.ok hX
  have hscale : scaleOf [X] = max X.dscale 0 := rfl
  have hnonneg := scaleOf_nonneg vars
  refine ⟨hok, ?_, ?_⟩
  · rw [htotal, h.total, sumOf_append]
    simp [sumOf]
  · rw [hdscale, h.dscale, scaleOf_append, hscale]
    omega

theorem SumsUp.copy (h : SumsUp accum vars) : SumsUp (accumSumCopy accum) vars := by
  obtain ⟨hok, htotal, hdscale⟩ := accumSumCopy_spec h.ok
  exact ⟨hok, htotal.trans h.total, hdscale.trans h.dscale⟩

theorem SumsUp.combine {accum2 : NumericSumAccum} {vars2 : List NumericVar} (h : SumsUp accum vars)
    (h2 : SumsUp accum2 vars2) :
    SumsUp (accumSumCombine accum accum2) (vars ++ vars2) := by
  obtain ⟨hok, htotal, hdscale⟩ := accumSumCombine_spec h.ok h2.ok
  refine ⟨hok, ?_, ?_⟩
  · rw [htotal, h.total, h2.total, sumOf_append]
  · rw [hdscale, h.dscale, h2.dscale, scaleOf_append]

theorem SumsUp.final (h : SumsUp accum vars) :
    (accumSumFinal accum).2.value = sumOf vars ∧ (accumSumFinal accum).2.dscale = scaleOf vars := by
  obtain ⟨-, hvalue, hdscale⟩ := accumSumFinal_spec h.ok
  exact ⟨hvalue.trans h.total, hdscale.trans h.dscale⟩

/-! ## Accumulating -/

theorem combineScale_fields (state1 state2 : NumericAggState) :
    (combineScale state1 state2).calcSumX2 = state1.calcSumX2 ∧
    (combineScale state1 state2).N = state1.N ∧
      (combineScale state1 state2).sumX = state1.sumX ∧
      (combineScale state1 state2).sumX2 = state1.sumX2 ∧
      (combineScale state1 state2).NaNcount = state1.NaNcount := by
  unfold combineScale
  split_ifs <;> exact ⟨rfl, rfl, rfl, rfl, rfl⟩

/-- Squares are not negative. -/
theorem square_spec (h : X.DigitsOk) : mulVar X X (X.dscale * 2) = some (square X) ∧
    (square X).DigitsOk ∧ (square X).dscale = X.dscale * 2 ∧
    NumericVar.value { square X with sign := .neg } = -(square X).value := by
  obtain ⟨result, hsome, hnorm, hscale, hvalue⟩ := mulOrdered_spec h h (X.dscale * 2)
  have hresult : mulVar X X (X.dscale * 2) = some result := (if_neg (lt_irrefl _)).trans hsome
  have hten : (0 : ℚ) < (10 : ℚ) ^ (X.dscale * 2) := zpow_pos (by norm_num) _
  have hfactor : X.sign.factor * X.sign.factor = 1 := by
    cases X.sign <;> norm_num [NumericSign.factor]
  have hproduct :=
    mul_nonneg (truncatedProduct_nonneg h h (mulNdigits X X (X.dscale * 2)).toNat) hten.le
  have hnonneg : 0 ≤ result.value := by
    rw [hfactor, one_mul, roundAway, symmetric_of_nonneg _ hproduct] at hvalue
    refine nonneg_of_mul_nonneg_left ?_ hten
    rw [hvalue]
    exact_mod_cast Int.floor_nonneg.2 (by linarith)
  rw [square, hresult, Option.getD_some, value_with_sign, ← abs_value hnorm.digitsOk,
    abs_of_nonneg hnonneg]
  exact ⟨rfl, hnorm.digitsOk, hscale, neg_one_mul _⟩

theorem makeNumericAggState_stateOf : StateOf (makeNumericAggState true) [] :=
  ⟨rfl, rfl, SumsUp.new, SumsUp.new⟩

theorem SumsUp.perm (h : SumsUp accum vars) (hperm : vars.Perm vars') : SumsUp accum vars' :=
  ⟨h.ok, h.total.trans (sumOf_perm hperm), h.dscale.trans (scaleOf_perm hperm)⟩

variable {calcSumX2 : Bool} {newval : NumericDatum} {state' : NumericAggState}

/-- The order of the inputs does not matter. -/
theorem WindowOf.perm {values' : List NumericDatum} (h : WindowOf calcSumX2 state values)
    (hperm : values.Perm values') :
    WindowOf calcSumX2 state values' := by
  have hfinite : (finiteValues values).Perm (finiteValues values') := hperm.filterMap _
  refine ⟨fun x hx => h.ok x (hperm.mem_iff.2 hx), h.squares, ?_, ?_, h.sumX.perm hfinite,
    h.sumX2.perm ?_, ?_, ?_⟩
  · rw [h.count, hfinite.length_eq]
  · rw [h.nanCount, hperm.count_eq]
  · split
    · exact hfinite.map square
    · rfl
  · rw [h.maxScale, scaleOf_perm hfinite]
  · rw [h.maxScaleCount, scaleCount, scaleOf_perm hfinite, hfinite.countP_eq, scaleCount]

theorem WindowOf.start : WindowOf calcSumX2 (makeNumericAggState calcSumX2) [] :=
  ⟨by simp, rfl, rfl, rfl, .new, by split <;> exact .new, rfl, rfl⟩

theorem le_scaleOf (h : X ∈ vars) : X.dscale ≤ scaleOf vars := by
  obtain ⟨xs, ys, rfl⟩ := append_of_mem h
  rw [scaleOf_append]
  exact (le_max_left _ _).trans (le_max_right _ _)

theorem scaleOf_cons (X : NumericVar) (vars : List NumericVar) :
    scaleOf (X :: vars) = max X.dscale (scaleOf vars) := rfl

theorem scaleCount_cons (X : NumericVar) (vars : List NumericVar) : scaleCount (X :: vars) =
    if X.dscale > scaleOf vars then 1 else if X.dscale = scaleOf vars then scaleCount vars + 1
    else scaleCount vars := by
  unfold scaleCount
  rw [scaleOf_cons]
  split_ifs with hgt heq
  · have hnone : vars.countP (·.dscale = X.dscale) = 0 := countP_eq_zero.2 fun Y hY hsame => by
      have := le_scaleOf hY
      have := of_decide_eq_true hsame
      omega
    simp [max_eq_left hgt.le, hnone]
  · simp [heq]
  · simp [max_eq_right (not_lt.1 hgt), heq]

theorem trackScale_spec (hmax : state.maxScale = scaleOf vars)
    (hcount : state.maxScaleCount = scaleCount vars) (X : NumericVar) :
    trackScale state X.dscale =
      { state with maxScale := scaleOf (X :: vars), maxScaleCount := scaleCount (X :: vars) } := by
  unfold trackScale
  rw [scaleOf_cons, scaleCount_cons, ← hmax, ← hcount]
  split_ifs with hgt heq
  · rw [max_eq_left hgt.le]
  · rw [heq, max_self]
  · rw [max_eq_right (not_lt.1 hgt)]

theorem accum_window (h : WindowOf calcSumX2 state values) (hnew : newval.Ok) :
    ∃ state', doNumericAccum state newval = .ok state' ∧
      WindowOf calcSumX2 state' (newval :: values) := by
  have hok := forall_mem_cons.2 ⟨hnew, h.ok⟩
  cases newval with
  | nan =>
    exact ⟨_, rfl, hok, h.squares, h.count, by simp [h.nanCount], h.sumX, h.sumX2, h.maxScale,
      h.maxScaleCount⟩
  | finite X =>
    obtain ⟨hsome, hsquare, -⟩ := square_spec hnew
    have hsum := (h.sumX.add hnew).perm (perm_append_singleton X _)
    have hlen : state.N + 1 = (finiteValues (.finite X :: values)).length := by rw [h.count]; rfl
    have hnan : state.NaNcount = (NumericDatum.finite X :: values).count .nan := by
      simp [h.nanCount]
    unfold doNumericAccum
    dsimp only
    rw [trackScale_spec h.maxScale h.maxScaleCount X, h.squares]
    cases calcSumX2 with
    | true =>
      rw [if_pos rfl, hsome]
      exact ⟨_, rfl, hok, rfl, hlen, hnan, hsum,
        (h.sumX2.add hsquare).perm (perm_append_singleton _ _), rfl, rfl⟩
    | false => exact ⟨_, rfl, hok, rfl, hlen, hnan, hsum, h.sumX2, rfl, rfl⟩

variable (calcSumX2) in
theorem recomputed_windowOf (hok : ∀ x ∈ values, x.Ok) :
    ∃ fresh, values.foldlM doNumericAccum (makeNumericAggState calcSumX2) = .ok fresh ∧
      WindowOf calcSumX2 fresh values := by
  induction values using reverseRecOn with
  | nil => exact ⟨_, rfl, .start⟩
  | append_singleton values x ih =>
    obtain ⟨state, hrun, hwindow⟩ := ih fun y hy => hok y (mem_append_left _ hy)
    obtain ⟨state', hstep, hwindow'⟩ := accum_window hwindow (hok x (by simp))
    refine ⟨state', ?_, hwindow'.perm (perm_append_singleton _ _).symm⟩
    rw [foldlM_append, hrun]
    change (doNumericAccum state x >>= pure) = _
    rw [hstep]
    rfl

theorem accumulate_spec (hok : ∀ x ∈ values, x.Ok) :
    ∃ state, accumulate values = .ok state ∧ StateOf state values ∧
      state.NaNcount = values.count .nan := by
  obtain ⟨state, hrun, h⟩ := recomputed_windowOf true hok
  exact ⟨state, hrun, ⟨h.squares, h.count, h.sumX, h.sumX2⟩, h.nanCount⟩

/-! ## Moving windows -/

theorem AccumOk.reset (h : AccumOk accum) : SumsUp (accumSumReset accum) [] := by
  have hbound : 0 < accum.digitBound := by
    have := h.uncarried
    unfold NumericSumAccum.digitBound NBASE
    omega
  refine ⟨⟨h.uncarried, rfl, .zeros hbound _, .zeros hbound _, fun hr => ?_, fun _ => rfl⟩, ?_, rfl⟩
  · obtain ⟨ds, hds⟩ := head?_eq_some_iff.1 (h.reserved hr).1
    simp [accumSumReset, hds, replicate_succ]
  · simp [NumericSumAccum.total, accumSumReset, fixedPoint_zeros, sumOf]

/-- Adding the opposite takes an input away. -/
theorem SumsUp.discard (h : SumsUp accum (X :: vars)) {N : ℤ} (hN : N = vars.length + 1)
    (hY : Y.DigitsOk) (hvalue : Y.value = -X.value) (hdscale : Y.dscale = X.dscale)
    (hle : vars ≠ [] → X.dscale ≤ scaleOf vars) : SumsUp (discardSum N accum Y) vars := by
  unfold discardSum
  split_ifs with hmany
  · obtain ⟨hok, htotal, hscale⟩ := accumSumAdd_spec h.ok hY
    have hmax := hle fun hnil => by simp [hnil] at hN; omega
    refine ⟨hok, ?_, ?_⟩
    · rw [htotal, h.total, hvalue, sumOf, map_cons, sum_cons, ← sumOf]
      ring
    · rw [hscale, h.dscale, hdscale, scaleOf_cons]
      omega
  · obtain rfl : vars = [] := length_eq_zero_iff.1 (by omega)
    exact h.ok.reset

theorem scaleOf_squares (h : ∀ X ∈ vars, X.DigitsOk) :
    scaleOf (vars.map square) = scaleOf vars * 2 := by
  induction vars with
  | nil => rfl
  | cons X vars ih =>
    obtain ⟨hX, hrest⟩ := forall_mem_cons.1 h
    obtain ⟨-, -, hdscale, -⟩ := square_spec hX
    rw [map_cons, scaleOf_cons, scaleOf_cons, hdscale, ih hrest]
    omega

/-- If a new largest scale is found, it is that of the remaining inputs. -/
theorem discardScale_spec (hmax : state.maxScale = scaleOf (X :: vars))
    (hcount : state.maxScaleCount = scaleCount (X :: vars)) (hN : state.N = vars.length + 1)
    (h : discardScale state X.dscale = some state') :
    state' = { state with maxScale := scaleOf vars, maxScaleCount := scaleCount vars } ∧
    (vars ≠ [] → X.dscale ≤ scaleOf vars) := by
  have hnonneg := scaleOf_nonneg vars
  rw [scaleOf_cons] at hmax
  rw [scaleCount_cons] at hcount
  unfold discardScale at h
  split_ifs at h with heq hmany hone
  · -- another input has the scale, or it is zero
    obtain rfl := Option.some.inj h
    have hle : X.dscale ≤ scaleOf vars := by split_ifs at hcount <;> omega
    rw [if_neg (by omega), if_pos (by omega)] at hcount
    rw [hcount, hmax, max_eq_right hle, add_sub_cancel_right]
    exact ⟨rfl, fun _ => hle⟩
  · obtain rfl : vars = [] := length_eq_zero_iff.1 (by omega)
    obtain rfl := Option.some.inj h
    exact ⟨rfl, fun hne => absurd rfl hne⟩
  · obtain rfl := Option.some.inj h
    rw [if_neg (by omega), if_neg (by omega)] at hcount
    rw [← hcount, show scaleOf vars = state.maxScale by omega]
    exact ⟨rfl, fun _ => by omega⟩

theorem WindowOf.digitsOk (h : WindowOf calcSumX2 state values) :
    ∀ X ∈ finiteValues values, X.DigitsOk := by
  intro X hX
  obtain ⟨x, hx, heq⟩ := mem_filterMap.1 hX
  cases x with
  | nan => cases heq
  | finite Y =>
    cases heq
    exact h.ok _ hx

theorem discard_window (h : WindowOf calcSumX2 state (newval :: values))
    (hrun : doNumericDiscard state newval = .ok (some state')) :
    WindowOf calcSumX2 state' values := by
  obtain ⟨hnew, hok⟩ := forall_mem_cons.1 h.ok
  have hnan := h.nanCount
  unfold doNumericDiscard at hrun
  cases newval with
  | nan =>
    cases hrun
    rw [count_cons_self] at hnan
    exact ⟨hok, h.squares, h.count, by dsimp only; omega, h.sumX, h.sumX2, h.maxScale,
      h.maxScaleCount⟩
  | finite X =>
    dsimp only at hrun
    split at hrun
    · cases hrun
    rename_i hscale
    have hN : state.N = (finiteValues values).length + 1 := h.count
    have hrest : state.N - 1 = (finiteValues values).length := by omega
    obtain ⟨rfl, hle⟩ := discardScale_spec h.maxScale h.maxScaleCount hN hscale
    have hneg : NumericVar.value { X with sign := X.sign.opposite } = -X.value := by
      rw [value_with_sign, NumericSign.factor_opposite, NumericVar.value, neg_mul]
    have hsum := h.sumX.discard (Y := { X with sign := X.sign.opposite }) hN hnew hneg rfl hle
    rw [h.squares] at hrun
    cases calcSumX2 with
    | true =>
      obtain ⟨hsome, hsquare, hdscale, hopposite⟩ := square_spec hnew
      have hscales := scaleOf_squares (forall_mem_cons.1 h.digitsOk).2
      rw [if_pos rfl, hsome] at hrun
      cases hrun
      refine ⟨hok, rfl, hrest, hnan, hsum,
        h.sumX2.discard (X := square X) (by rwa [length_map]) hsquare hopposite rfl
        fun hne => ?_, rfl, rfl⟩
      have := hle fun hnil => hne (by rw [hnil, map_nil])
      omega
    | false =>
      cases hrun
      exact ⟨hok, rfl, hrest, hnan, hsum, h.sumX2, rfl, rfl⟩

theorem Window.windowOf (h : Window calcSumX2 state values) : WindowOf calcSumX2 state values := by
  induction h with
  | start => exact .start
  | accum _ hnew hrun ih =>
    obtain ⟨state', hrun', hwindow⟩ := accum_window ih hnew
    rw [hrun] at hrun'
    cases hrun'
    exact hwindow.perm (perm_append_singleton _ _).symm
  | discard _ hmem hrun ih => exact discard_window (ih.perm (perm_cons_erase hmem)) hrun

/-- A window that has moved is seen as a new state that accumulated what remains. -/
theorem Window.eq_recomputed (h : Window calcSumX2 state values) :
    ∃ fresh, values.foldlM doNumericAccum (makeNumericAggState calcSumX2) = .ok fresh ∧
      summary (some state) = summary (some fresh) := by
  have hw := h.windowOf
  obtain ⟨fresh, hrun, hf⟩ := recomputed_windowOf calcSumX2 hw.ok
  refine ⟨fresh, hrun, ?_⟩
  simp only [summary, Option.getD_some, hw.count, hf.count, hw.nanCount, hf.nanCount, hw.sumX.final,
    hf.sumX.final, hw.sumX2.final, hf.sumX2.final]

/-- 1, 2.50, NaN and 3 come and 1 goes, so that two numbers remain. -/
theorem window_eq_recomputed_two :
    let left : List NumericDatum :=
      [.finite ⟨[2, 5000], 0, .pos, 2⟩, .nan, .finite ⟨[3], 0, .pos, 0⟩]
    ∃ state fresh, Window true state left ∧ state.N = 2 ∧
      left.foldlM doNumericAccum (makeNumericAggState true) = .ok fresh ∧
      summary (some state) = summary (some fresh) := by
  intro left
  have hone : NumericDatum.Ok (.finite constOne) := by
    unfold NumericDatum.Ok NumericVar.DigitsOk Digits; decide
  have hmiddle : NumericDatum.Ok (.finite ⟨[2, 5000], 0, .pos, 2⟩) := by
    unfold NumericDatum.Ok NumericVar.DigitsOk Digits; decide
  have hthree : NumericDatum.Ok (.finite ⟨[3], 0, .pos, 0⟩) := by
    unfold NumericDatum.Ok NumericVar.DigitsOk Digits; decide
  have hnan : NumericDatum.Ok .nan := trivial
  have hfull :=
    (((Window.accum (.start : Window true _ _) hone rfl).accum hmiddle rfl).accum hnan rfl).accum
      hthree rfl
  have hleft := @Window.discard true _ _ _ (.finite constOne) hfull (by decide) rfl
  obtain ⟨fresh, hrun, hsame⟩ := Window.eq_recomputed hleft
  exact ⟨_, fresh, hleft, rfl, hrun, hsame⟩

/-! ## Merging -/

/-- No state stands for no inputs. -/
def MaybeStateOf : Option NumericAggState → List NumericDatum → Prop
  | none, values => values = []
  | some state, values => StateOf state values

/-- NaN inputs counted. -/
def nanCountOf (state : Option NumericAggState) : ℤ :=
  (state.getD (makeNumericAggState true)).NaNcount

/-- A state without numbers has nothing to add but its count of NaN inputs. -/
theorem StateOf.no_numbers (h : StateOf state values) (hN : ¬ state.N > 0) :
    finiteValues values = [] := by
  have hcount := h.count
  rw [← length_eq_zero_iff]
  omega

/-- Merging keeps count, sums and scales. -/
theorem numericCombine_stateOf {state1 state2 : Option NumericAggState}
    {values1 values2 : List NumericDatum} (h1 : MaybeStateOf state1 values1)
    (h2 : MaybeStateOf state2 values2) :
    MaybeStateOf (numericCombine state1 state2) (values1 ++ values2) := by
  unfold numericCombine
  cases state2 with
  | none =>
    rw [show values2 = [] from h2, append_nil]
    exact h1
  | some state2 =>
    have hstate2 := h2
    cases state1 with
    | none =>
      rw [show values1 = [] from h1, nil_append]
      exact ⟨rfl, hstate2.count, hstate2.sumX.copy, hstate2.sumX2.copy⟩
    | some state1 =>
      have hstate1 := h1
      dsimp only
      split
      · obtain ⟨hcalc, hN, hX, hX2, -⟩ := combineScale_fields state1 state2
        refine ⟨hcalc.trans hstate1.squares, ?_, ?_, ?_⟩
        · rw [hN, hstate1.count, hstate2.count, finiteValues_append, length_append, Nat.cast_add]
        · rw [hX, finiteValues_append]
          exact hstate1.sumX.combine hstate2.sumX
        · rw [hX2, finiteValues_append, map_append]
          exact hstate1.sumX2.combine hstate2.sumX2
      · rename_i hN
        have hsame : finiteValues (values1 ++ values2) = finiteValues values1 := by
          rw [finiteValues_append, hstate2.no_numbers hN, append_nil]
        refine ⟨hstate1.squares, ?_, ?_, ?_⟩
        · rw [hsame]
          exact hstate1.count
        · rw [hsame]
          exact hstate1.sumX
        · rw [hsame]
          exact hstate1.sumX2

/-- The NaN inputs of a second state without numbers are lost. -/
theorem numericCombine_nan (state1 : Option NumericAggState) {state2 : Option NumericAggState}
    {values2 : List NumericDatum} (h2 : MaybeStateOf state2 values2) :
    nanCountOf (numericCombine state1 state2) =
      if state1.isSome = true ∧ state2.isSome = true ∧ finiteValues values2 = [] then
        nanCountOf state1
      else nanCountOf state1 + nanCountOf state2 := by
  unfold numericCombine nanCountOf
  cases state2 with
  | none => simp [makeNumericAggState]
  | some state2 =>
    have hcount := StateOf.count h2
    cases state1 with
    | none => simp [makeNumericAggState]
    | some state1 =>
      obtain ⟨-, -, -, -, hnan⟩ := combineScale_fields state1 state2
      by_cases hN : state2.N > 0
      · have hne : finiteValues values2 ≠ [] := by
          intro hnil
          rw [hnil, length_nil] at hcount
          omega
        simp [hN, hnan, hne]
      · simp [hN, StateOf.no_numbers h2 hN]

theorem numericCombine_isSome (state1 state2 : Option NumericAggState) :
    (numericCombine state1 state2).isSome = (state1.isSome || state2.isSome) := by
  unfold numericCombine
  cases state2 with
  | none => simp
  | some state2 =>
    cases state1 with
    | none => rfl
    | some state1 =>
      dsimp only
      split
      · rfl
      · rfl

/-- Some worker of the tree has a state. -/
def MergeTree.hasState : MergeTree → Bool
  | .group values => values.isSome
  | .merge left right => left.hasState || right.hasState

/-- Whatever is merged into a state has a number, or no NaN. -/
def MergeTree.KeepsNaNs : MergeTree → Prop
  | .group _ => True
  | .merge left right =>
    left.KeepsNaNs ∧ right.KeepsNaNs ∧
      (left.hasState = true → finiteValues right.values ≠ [] ∨ .nan ∉ right.values)

/-- What merging gives: never more NaN inputs than there are, and all of them exactly if the tree
keeps them. -/
theorem MergeTree.run_spec (tree : MergeTree) (hok : ∀ x ∈ tree.values, x.Ok) :
    ∃ state, tree.run = .ok state ∧ MaybeStateOf state tree.values ∧ state.isSome = tree.hasState ∧
      (0 ≤ nanCountOf state ∧ nanCountOf state ≤ tree.values.count .nan) ∧
      (nanCountOf state = tree.values.count .nan ↔ tree.KeepsNaNs) := by
  induction tree with
  | group values =>
    cases values with
    | none => exact ⟨none, rfl, rfl, rfl, ⟨le_refl 0, le_refl 0⟩, fun _ => trivial, fun _ => rfl⟩
    | some values =>
      have hvalues : ∀ x ∈ values, x.Ok := hok
      obtain ⟨state, hrun, hstate, hnan⟩ := accumulate_spec hvalues
      have hnonneg : 0 ≤ state.NaNcount := by
        rw [hnan]
        exact Int.natCast_nonneg _
      refine ⟨some state, ?_, hstate, rfl, ⟨hnonneg, hnan.le⟩, fun _ => trivial, fun _ => hnan⟩
      rw [MergeTree.run, hrun]
      rfl
  | merge left right ihl ihr =>
    obtain ⟨state1, hrun1, hstate1, hsome1, hle1, hkeep1⟩ :=
      ihl fun x hx => hok x (mem_append_left _ hx)
    obtain ⟨state2, hrun2, hstate2, hsome2, hle2, hkeep2⟩ :=
      ihr fun x hx => hok x (mem_append_right _ hx)
    have hcount : (MergeTree.merge left right).values.count NumericDatum.nan =
        left.values.count .nan + right.values.count .nan := count_append
    have hmem : NumericDatum.nan ∉ right.values ↔ (right.values.count .nan : ℤ) = 0 := by
      rw [Int.natCast_eq_zero, count_eq_zero]
    refine ⟨numericCombine state1 state2, ?_, numericCombine_stateOf hstate1 hstate2, ?_, ?_⟩
    · rw [MergeTree.run, hrun1, Except.bind, hrun2, Except.bind]
    · rw [numericCombine_isSome, hsome1, hsome2]
      rfl
    · rw [hcount, MergeTree.KeepsNaNs, ← hkeep1, ← hkeep2, ← hsome1,
        numericCombine_nan state1 hstate2, hmem]
      push_cast
      by_cases hskip : state1.isSome = true ∧ state2.isSome = true ∧ finiteValues right.values = []
      · rw [if_pos hskip]
        simp only [hskip.1, hskip.2.2, ne_eq, not_true_eq_false, false_or, true_implies]
        omega
      · -- nothing is skipped: the second state has a number, or there is none
        have hthird : state1.isSome = true → finiteValues right.values ≠ [] ∨
            (right.values.count NumericDatum.nan : ℤ) = 0 := by
          intro hfirst
          by_cases hsecond : state2.isSome = true
          · exact Or.inl fun hnil => hskip ⟨hfirst, hsecond, hnil⟩
          · rw [Option.not_isSome_iff_eq_none] at hsecond
            rw [hsecond] at hstate2
            rw [show right.values = [] from hstate2]
            exact Or.inr rfl
        rw [if_neg hskip, and_iff_left hthird]
        omega

/-- What aggregates see of a state, in terms of its inputs. -/
theorem summary_eq {state : Option NumericAggState} (h : MaybeStateOf state values) :
    summary state =
      { count := (finiteValues values).length
        nanCount := nanCountOf state
        sum := sumOf (finiteValues values)
        sumScale := scaleOf (finiteValues values)
        sumSquares := sumOf ((finiteValues values).map square)
        sumSquaresScale := scaleOf ((finiteValues values).map square) } := by
  have hstate : StateOf (state.getD (makeNumericAggState true)) values := by
    cases state with
    | none =>
      rw [show values = [] from h]
      exact makeNumericAggState_stateOf
    | some s => exact h
  simp only [summary, hstate.count, hstate.sumX.final, hstate.sumX2.final]
  rfl

/-- Inputs split into groups in any way and merged in any order: the result has the count, sums
and scales of one state that has seen all inputs, and it is the same altogether exactly if no NaN
inputs are lost on the way. -/
theorem MergeTree.run_eq_accumulate_iff {tree : MergeTree} {values : List NumericDatum}
    (hperm : tree.values.Perm values) (hok : ∀ x ∈ values, x.Ok) :
    ∃ merged serial, tree.run = .ok merged ∧ accumulate values = .ok serial ∧
      (summary merged = summary (some serial) ↔ tree.KeepsNaNs) ∧
      (summary merged = { summary (some serial) with nanCount := (summary merged).nanCount }) := by
  obtain ⟨merged, hrun, hmerged, -, -, hkeep⟩ :=
    tree.run_spec fun x hx => hok x (hperm.mem_iff.mp hx)
  obtain ⟨serial, hserialRun, hserial, hnan⟩ := accumulate_spec hok
  have hfinite : (finiteValues tree.values).Perm (finiteValues values) := hperm.filterMap _
  have hsquares := hfinite.map square
  rw [hperm.count_eq, ← hnan] at hkeep
  have hsummary := summary_eq hmerged
  rw [hfinite.length_eq, sumOf_perm hfinite, scaleOf_perm hfinite, sumOf_perm hsquares,
    scaleOf_perm hsquares] at hsummary
  have hsome : MaybeStateOf (some serial) values := hserial
  have hsummary' := summary_eq hsome
  refine ⟨merged, serial, hrun, hserialRun, ?_, ?_⟩
  · rw [hsummary, hsummary', ← hkeep, AggSummary.mk.injEq]
    simp only [true_and, and_true]
    rfl
  · rw [hsummary, hsummary']

/-- 1 and NaN at one worker, 1 at another. -/
theorem run_eq_accumulate_iff_pair :
    let one : NumericDatum := .finite constOne
    let tree := MergeTree.merge (.group (some [one, .nan])) (.group (some [one]))
    ∃ merged serial, tree.run = .ok merged ∧ accumulate [one, one, .nan] = .ok serial ∧
      summary merged = summary (some serial) := by
  intro one tree
  have hone : constOne.DigitsOk := by unfold NumericVar.DigitsOk Digits; decide
  have hperm : tree.values.Perm [one, one, .nan] := by decide
  obtain ⟨merged, serial, hrun, hserial, hiff, -⟩ :=
    MergeTree.run_eq_accumulate_iff hperm (by simp [one, NumericDatum.Ok, hone])
  exact ⟨merged, serial, hrun, hserial, hiff.mpr ⟨trivial, trivial, fun _ => Or.inl (by decide)⟩⟩

/-- A worker that has seen nothing but NaN: merged into the state of another, it leaves no trace. -/
theorem nanGroup_lost :
    let one : NumericDatum := .finite constOne
    ((MergeTree.merge (.group (some [one])) (.group (some [.nan]))).run.map fun state =>
      (summary state).nanCount) = .ok 0 ∧
      ((accumulate [one, .nan]).map fun state => (summary (some state)).nanCount) = .ok 1 := by
  decide +kernel

end GreenPipeline.L1.Numeric
