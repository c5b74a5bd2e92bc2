import GreenPipeline.L3Planner.PathNodes
import GreenPipeline.L3Planner.PowerModel
import Mathlib.Tactic.Ring

/-!
# Costing of nodes above a scan (`optimizer/path/costsize.c`)

Merging, sorting, materializing and grouping: each function adds its own
charges to the costs of its input. The power figure is meant for the node's
own work; `cost_material` and `cost_group` also put the run cost of the
input into the CPU figure.

`own_work_iff`: the I/O, CPU and power figures are those of the node's own
work exactly up to the run cost that materializing and grouping charge again.
-/
namespace GreenPipeline.L3.NodeCosts
open GreenPipeline.Core GreenPipeline.L3.PowerModel GreenPipeline.L3.PathNodes

variable {K : Type*} [Field K] [LinearOrder K]

/-! ## Merging -/

/-- The row count of the path is set by the caller.
mirrors costsize.c:2042-2091 -/
def costMergeAppend (env : CostEnv K) (nStreams : ℕ) (inputStartupCost inputTotalCost tuples : K) :
    Costs K :=
  let N : K := if nStreams < 2 then 2.0 else nStreams
  let logN := log2 env.toLibm N
  let comparisonCost := 2.0 * env.cpuOperatorCost
  let startupCost := comparisonCost * N * logN
  let runCost := tuples * comparisonCost * logN + env.cpuOperatorCost * tuples
  let cpuCost := tuples * comparisonCost * logN + env.cpuOperatorCost * tuples
  { rows := tuples
    startupCost := startupCost + inputStartupCost
    totalCost := startupCost + runCost + inputTotalCost
    ioCost := 0
    cpuCost := cpuCost
    powerCost := countPowerCost 0 cpuCost runCost 0 }

/-! ## Grouping -/

/-- mirrors src/include/nodes/nodes.h:735-741 -/
inductive AggStrategy
  | plain
  | sorted
  | hashed
  | mixed
  deriving DecidableEq, Repr

/-- mirrors costsize.c:2171-2275 -/
def costAgg (env : CostEnv K) (aggstrategy : AggStrategy) (aggcosts : AggClauseCosts K)
    (numGroupCols : ℕ) (numGroups inputStartupCost inputTotalCost inputTuples : K) : Costs K :=
  let transCharge := aggcosts.transCost.perTuple * inputTuples
  let compareCharge := env.cpuOperatorCost * numGroupCols * inputTuples
  match aggstrategy with
  | .plain =>
    let startupCost :=
      inputTotalCost + aggcosts.transCost.startup + transCharge + aggcosts.finalCost
    let totalCost := startupCost + env.cpuTupleCost
    { rows := 1
      startupCost := startupCost
      totalCost := totalCost
      ioCost := 0
      cpuCost := transCharge
      powerCost := countPowerCost 0 transCharge totalCost 0 }
  | .hashed =>
    let startupCost :=
      inputTotalCost + disabledCharge env.enableHashagg + aggcosts.transCost.startup
      + transCharge + compareCharge
    let totalCost := startupCost + aggcosts.finalCost * numGroups + env.cpuTupleCost * numGroups
    let cpuCost := compareCharge + env.cpuTupleCost * numGroups
    { rows := numGroups
      startupCost := startupCost
      totalCost := totalCost
      ioCost := 0
      cpuCost := cpuCost
      powerCost := countPowerCost 0 cpuCost totalCost 0 }
  | _ =>
    let disabled := if aggstrategy = .mixed then disabledCharge env.enableHashagg else 0
    let totalCost := inputTotalCost + disabled + aggcosts.transCost.startup + transCharge
      + compareCharge + aggcosts.finalCost * numGroups + env.cpuTupleCost * numGroups
    let cpuCost := compareCharge + env.cpuTupleCost * numGroups
    { rows := numGroups
      startupCost := inputStartupCost + disabled
      totalCost := totalCost
      ioCost := 0
      cpuCost := cpuCost
      powerCost := countPowerCost 0 cpuCost totalCost 0 }

/-- A window function: the cost of calling it (`get_func_cost`, in operator
evaluations), of its arguments and of its filter. -/
structure WindowFunc (K : Type*) [Field K] [LinearOrder K] where
  funcCost : Estimate K
  args : QualCost K
  aggfilter : QualCost K

/-- The cost of one window function for each input row. -/
def WindowFunc.wfunccost (env : CostEnv K) (wfunc : WindowFunc K) : K :=
  wfunc.funcCost * env.cpuOperatorCost + wfunc.args.perTuple + wfunc.aggfilter.perTuple

/-- One round of the loop over the window functions, on the startup and the total cost.
mirrors costsize.c:2320-2342 -/
def windowRound (env : CostEnv K) (inputTuples : K) (costs : K × K)
    (wfunc : WindowFunc K) : K × K :=
  (costs.1 + wfunc.args.startup + wfunc.aggfilter.startup,
    costs.2 + wfunc.wfunccost env * inputTuples)

/-- mirrors costsize.c:2291-2365 -/
def costWindowagg (env : CostEnv K) (windowFuncs : List (WindowFunc K))
    (numPartCols numOrderCols : ℕ) (inputStartupCost inputTotalCost inputTuples : K) : Costs K :=
  let costs := windowFuncs.foldl (windowRound env inputTuples) (inputStartupCost, inputTotalCost)
  let totalCost := costs.2
    + env.cpuOperatorCost * ((numPartCols + numOrderCols : ℕ) : K) * inputTuples
    + env.cpuTupleCost * inputTuples
  let cpuCost := totalCost - inputTotalCost
  { rows := inputTuples
    startupCost := costs.1
    totalCost := totalCost
    ioCost := 0
    cpuCost := cpuCost
    powerCost := countPowerCost 0 cpuCost totalCost 0 }

/-- mirrors costsize.c:2375-2409 -/
def costGroup (env : CostEnv K) (numGroupCols : ℕ)
    (numGroups inputStartupCost inputTotalCost inputTuples : K) : Costs K :=
  let totalCost := inputTotalCost + env.cpuOperatorCost * inputTuples * numGroupCols
  let cpuCost := totalCost - inputStartupCost
  { rows := numGroups
    startupCost := inputStartupCost
    totalCost := totalCost
    ioCost := 0
    cpuCost := cpuCost
    powerCost := countPowerCost 0 cpuCost totalCost 0 }

section

/-- The startup cost of the arguments and filters of the window functions. -/
def windowStartup (windowFuncs : List (WindowFunc K)) : K :=
  (windowFuncs.map fun wfunc => wfunc.args.startup + wfunc.aggfilter.startup).sum

theorem windowRound_foldl (env : CostEnv K) (inputTuples : K) (windowFuncs : List (WindowFunc K)) :
    ∀ costs : K × K, windowFuncs.foldl (windowRound env inputTuples) costs =
      (costs.1 + windowStartup windowFuncs,
        costs.2 + (windowFuncs.map (WindowFunc.wfunccost env)).sum * inputTuples) := by
  induction windowFuncs with
  | nil => intro costs; simp [windowStartup]
  | cons wfunc rest ih =>
    intro costs
    rw [List.foldl_cons, ih, windowRound]
    simp only [windowStartup, List.map_cons, List.sum_cons, Prod.mk.injEq]
    exact ⟨by ring, by ring⟩

/-- What a window aggregate is charged for each input row. -/
def windowPerTuple (env : CostEnv K) (windowFuncs : List (WindowFunc K))
    (numPartCols numOrderCols : ℕ) : K :=
  (windowFuncs.map (WindowFunc.wfunccost env)).sum
    + env.cpuOperatorCost * ((numPartCols + numOrderCols : ℕ) : K) + env.cpuTupleCost

/-- The CPU figure of a window aggregate is its own charge. -/
theorem costWindowagg_eq (env : CostEnv K) (windowFuncs : List (WindowFunc K))
    (numPartCols numOrderCols : ℕ) (inputStartup inputTotal inputTuples : K) :
    let charge := windowPerTuple env windowFuncs numPartCols numOrderCols * inputTuples
    costWindowagg env windowFuncs numPartCols numOrderCols inputStartup inputTotal inputTuples =
      { rows := inputTuples
        startupCost := inputStartup + windowStartup windowFuncs
        totalCost := inputTotal + charge
        ioCost := 0
        cpuCost := charge
        powerCost := countPowerCost 0 charge (inputTotal + charge) 0 } := by
  unfold costWindowagg windowPerTuple
  rw [windowRound_foldl]
  ring_nf

/-- The I/O, CPU and power figures of a node. -/
def figures (c : Costs K) : K × K × K := (c.ioCost, c.cpuCost, c.powerCost)

theorem costMergeAppend_figures (env : CostEnv K) (nStreams : ℕ) (s t s' t' tuples : K) :
    figures (costMergeAppend env nStreams s t tuples) =
      figures (costMergeAppend env nStreams s' t' tuples) := rfl

theorem costAgg_figures (env : CostEnv K) (aggstrategy : AggStrategy) (aggcosts : AggClauseCosts K)
    (numGroupCols : ℕ) (numGroups s t s' t' tuples : K) :
    figures (costAgg env aggstrategy aggcosts numGroupCols numGroups s t tuples) =
      figures (costAgg env aggstrategy aggcosts numGroupCols numGroups s' t' tuples) := by
  cases aggstrategy <;> rfl

theorem costWindowagg_figures (env : CostEnv K) (windowFuncs : List (WindowFunc K))
    (numPartCols numOrderCols : ℕ) (s t s' t' tuples : K) :
    figures (costWindowagg env windowFuncs numPartCols numOrderCols s t tuples) =
      figures (costWindowagg env windowFuncs numPartCols numOrderCols s' t' tuples) := by
  simp only [costWindowagg_eq, figures, countPowerCost_eq]

theorem costGroup_figures_iff (env : CostEnv K) (numGroupCols : ℕ)
    (numGroups s t s' t' tuples : K) :
    figures (costGroup env numGroupCols numGroups s t tuples) =
        figures (costGroup env numGroupCols numGroups s' t' tuples) ↔ t - s = t' - s' := by
  have hcpu : ∀ s t : K, (costGroup env numGroupCols numGroups s t tuples).cpuCost =
      t - s + env.cpuOperatorCost * tuples * numGroupCols := by
    intro s t
    simp only [costGroup]
    ring
  constructor
  · intro h
    have h := congrArg (fun f : K × K × K => f.2.1) h
    simpa [figures, hcpu] using h
  · intro h
    have hpower : ∀ s t : K, (costGroup env numGroupCols numGroups s t tuples).powerCost =
        countPowerCost 0 (costGroup env numGroupCols numGroups s t tuples).cpuCost 0 0 := by
      intro s t
      simp only [costGroup, countPowerCost_eq]
    simp only [figures, hpower, hcpu, h]
    rfl

end

variable [FloorRing K]

/-! ## Sorting and materializing -/

/-- The merge order a sort can afford, between `MINORDER` and `MAXORDER`.
mirrors src/backend/utils/sort/tuplesort.c:2304-2337 -/
def tuplesortMergeOrder (allowedMem : ℕ) : ℕ :=
  min (max ((allowedMem - blcksz) / (blcksz * 32 + blcksz)) 6) 500

/-- The page accesses of an external sort.
mirrors costsize.c:1931-1951 -/
def sortPageAccesses (m : Libm K) (inputBytes : K) (sortMemBytes : ℕ) : K :=
  let npages : K := ⌈inputBytes / blcksz⌉
  let nruns := inputBytes / sortMemBytes
  let mergeorder : K := tuplesortMergeOrder sortMemBytes
  let logRuns : K := if nruns > mergeorder then ⌈m.log nruns / m.log mergeorder⌉ else 1
  2.0 * npages * logRuns

/-- What a sort is charged before it returns its first tuple: an external
sort, a bounded heap sort that keeps twice the output, or a sort in memory.
mirrors costsize.c:1926-1973 -/
def sortCharge (env : CostEnv K) (comparisonCost tuples outputTuples inputBytes outputBytes : K)
    (sortMemBytes : ℕ) : K :=
  if outputBytes > sortMemBytes then
    comparisonCost * tuples * log2 env.toLibm tuples
      + sortPageAccesses env.toLibm inputBytes sortMemBytes
        * (env.seqPageCost * 0.75 + env.randomPageCost * 0.25)
  else if tuples > 2.0 * outputTuples ∨ inputBytes > sortMemBytes then
    comparisonCost * tuples * log2 env.toLibm (2.0 * outputTuples)
  else
    comparisonCost * tuples * log2 env.toLibm tuples

/-- `limit_tuples` is a row count or -1.
mirrors costsize.c:1880-1997 -/
def costSort (env : CostEnv K) (inputCost rows : K) (width : ℕ) (comparisonCost : K) (sortMem : ℕ)
    (limitTuples : ℤ) : Costs K :=
  let inputBytes := relationByteSize rows width
  let sortMemBytes := sortMem * 1024
  let tuples := if rows < 2.0 then 2.0 else rows
  let bounded : Prop := limitTuples > 0 ∧ (limitTuples : K) < tuples
  let outputTuples : K := if bounded then limitTuples else tuples
  let outputBytes := if bounded then relationByteSize outputTuples width else inputBytes
  let startupCost := inputCost + disabledCharge env.enableSort
    + sortCharge env (comparisonCost + 2.0 * env.cpuOperatorCost) tuples outputTuples inputBytes
        outputBytes sortMemBytes
  let runCost := env.cpuOperatorCost * tuples
  let ioCost :=
    if outputBytes > sortMemBytes then sortPageAccesses env.toLibm inputBytes sortMemBytes else 0
  let cpuCost := env.cpuOperatorCost * tuples
  { rows := rows
    startupCost := startupCost
    totalCost := startupCost + runCost
    ioCost := ioCost
    cpuCost := cpuCost
    powerCost := countPowerCost ioCost cpuCost runCost 0 }

/-- mirrors costsize.c:2105-2158 -/
def costMaterial (env : CostEnv K) (inputStartupCost inputTotalCost tuples : K) (width : ℕ) :
    Costs K :=
  let nbytes := relationByteSize tuples width
  let workMemBytes := env.workMem * 1024
  let spills : Prop := nbytes > workMemBytes
  let npages : K := if spills then ⌈nbytes / blcksz⌉ else 0
  let runCost := inputTotalCost - inputStartupCost + 2.0 * env.cpuOperatorCost * tuples
    + env.seqPageCost * npages
  { rows := tuples
    startupCost := inputStartupCost
    totalCost := inputStartupCost + runCost
    ioCost := npages
    -- the run cost of the input is part of the node's CPU figure
    cpuCost := runCost
    powerCost := countPowerCost npages runCost runCost 0 }

variable [IsStrictOrderedRing K]

theorem sortPageAccesses_nonneg (m : Libm K) {inputBytes : K} (h : 0 ≤ inputBytes)
    (sortMemBytes : ℕ) : 0 ≤ sortPageAccesses m inputBytes sortMemBytes := by
  have hpages : (0 : K) ≤ (⌈inputBytes / (blcksz : K)⌉ : K) :=
    Int.cast_nonneg (Int.ceil_nonneg (div_nonneg h (Nat.cast_nonneg _)))
  unfold sortPageAccesses
  refine mul_nonneg (mul_nonneg zero_lt_2_0.le hpages) ?_
  split_ifs with hruns
  · have horder : (1 : K) < (tuplesortMergeOrder sortMemBytes : K) := by
      refine Nat.one_lt_cast.2 ?_
      unfold tuplesortMergeOrder
      omega
    have hlog : ∀ x : K, 1 < x → 0 ≤ m.log x := fun x hx =>
      m.log_one ▸ (m.log_lt_log 1 x one_pos hx).le
    exact Int.cast_nonneg (Int.ceil_nonneg
      (div_nonneg (hlog _ (horder.trans hruns)) (hlog _ horder)))
  · exact zero_le_one

theorem sortCharge_nonneg (env : CostEnv K) {comparisonCost tuples outputTuples inputBytes : K}
    (outputBytes : K) (sortMemBytes : ℕ) (hcompare : 0 ≤ comparisonCost) (htuples : 1 ≤ tuples)
    (houtput : 1 ≤ 2.0 * outputTuples) (hinput : 0 ≤ inputBytes) :
    0 ≤ sortCharge env comparisonCost tuples outputTuples inputBytes outputBytes sortMemBytes := by
  have hcmp : ∀ n : K, 1 ≤ n → 0 ≤ comparisonCost * tuples * log2 env.toLibm n := fun n hn =>
    mul_nonneg (mul_nonneg hcompare (zero_le_one.trans htuples)) (log2_nonneg env.toLibm hn)
  unfold sortCharge
  split_ifs
  · refine add_nonneg (hcmp tuples htuples)
      (mul_nonneg (sortPageAccesses_nonneg env.toLibm hinput sortMemBytes) ?_)
    exact add_nonneg (mul_nonneg env.seqPageCost_nonneg (by norm_num))
      (mul_nonneg env.randomPageCost_nonneg (by norm_num))
  · exact hcmp _ houtput
  · exact hcmp tuples htuples

theorem costSort_sane (env : CostEnv K) {inputCost rows comparisonCost : K} (hinput : 0 ≤ inputCost)
    (hrows : 0 ≤ rows) (width : ℕ) (hcompare : 0 ≤ comparisonCost) (sortMem : ℕ) (limitTuples : ℤ) :
    (costSort env inputCost rows width comparisonCost sortMem limitTuples).Sane := by
  have hop := env.cpuOperatorCost_nonneg
  have hdisabled := disabledCharge_nonneg (K := K) env.enableSort
  have htuples : (2.0 : K) ≤ if rows < 2.0 then 2.0 else rows := by
    split_ifs with h
    · exact le_rfl
    · exact not_lt.1 h
  unfold costSort
  generalize (if rows < 2.0 then 2.0 else rows) = tuples at htuples ⊢
  have houtput : (1 : K) ≤ 2.0 * if limitTuples > 0 ∧ (limitTuples : K) < tuples
      then (limitTuples : K) else tuples := by
    split_ifs with hlimit
    · have : (1 : K) ≤ limitTuples := by exact_mod_cast hlimit.1
      linarith
    · linarith
  have hcharge := fun outputBytes => sortCharge_nonneg env outputBytes (sortMem * 1024)
    (add_nonneg hcompare (mul_nonneg zero_lt_2_0.le hop)) (one_lt_2_0.le.trans htuples) houtput
    (relationByteSize_nonneg hrows width)
  have hstartup := fun outputBytes => add_nonneg (add_nonneg hinput hdisabled) (hcharge outputBytes)
  exact sane_of_run hrows (hstartup _) (mul_nonneg hop (zero_lt_2_0.le.trans htuples)) rfl

/-! ## Power for the node's own work

The figures that depend on the cost of the input are those of `cost_material`
and `cost_group`. -/

omit [IsStrictOrderedRing K] in
theorem costSort_figures (env : CostEnv K) (inputCost inputCost' rows : K) (width : ℕ)
    (comparisonCost : K) (sortMem : ℕ) (limitTuples : ℤ) :
    figures (costSort env inputCost rows width comparisonCost sortMem limitTuples) =
      figures (costSort env inputCost' rows width comparisonCost sortMem limitTuples) := rfl

omit [IsStrictOrderedRing K] in
theorem costMaterial_figures_iff (env : CostEnv K) (s t s' t' tuples : K) (width : ℕ) :
    figures (costMaterial env s t tuples width) = figures (costMaterial env s' t' tuples width) ↔
      t - s = t' - s' := by
  constructor
  · intro h
    have hcpu := congrArg (fun f : K × K × K => f.2.1) h
    simpa [figures, costMaterial] using hcpu
  · intro h
    simp only [figures, costMaterial, h]

omit [IsStrictOrderedRing K] in
/-- **When power is charged for the node's own work only.** Two runs of the six
costing functions that differ in the costs of the input store the same I/O,
CPU and power figures exactly when the inputs have the same run cost: sorting,
merging, aggregates and window functions ignore the input, materializing and
grouping charge its run cost again. -/
theorem own_work_iff (env : CostEnv K) (s t s' t' tuples numGroups comparisonCost : K)
    (width numGroupCols numPartCols numOrderCols nStreams sortMem : ℕ) (limitTuples : ℤ)
    (aggstrategy : AggStrategy) (aggcosts : AggClauseCosts K) (windowFuncs : List (WindowFunc K)) :
    (figures (costSort env t tuples width comparisonCost sortMem limitTuples) =
        figures (costSort env t' tuples width comparisonCost sortMem limitTuples) ∧
      figures (costMergeAppend env nStreams s t tuples) =
        figures (costMergeAppend env nStreams s' t' tuples) ∧
      figures (costMaterial env s t tuples width) = figures (costMaterial env s' t' tuples width) ∧
      figures (costAgg env aggstrategy aggcosts numGroupCols numGroups s t tuples) =
        figures (costAgg env aggstrategy aggcosts numGroupCols numGroups s' t' tuples) ∧
      figures (costWindowagg env windowFuncs numPartCols numOrderCols s t tuples) =
        figures (costWindowagg env windowFuncs numPartCols numOrderCols s' t' tuples) ∧
      figures (costGroup env numGroupCols numGroups s t tuples) =
        figures (costGroup env numGroupCols numGroups s' t' tuples)) ↔
    t - s = t' - s' := by
  constructor
  · intro h
    exact (costMaterial_figures_iff env s t s' t' tuples width).1 h.2.2.1
  · intro h
    exact ⟨costSort_figures .., costMergeAppend_figures .., (costMaterial_figures_iff ..).2 h,
      costAgg_figures .., costWindowagg_figures .., (costGroup_figures_iff ..).2 h⟩

/-- Materializing or grouping a hundred rows of an input with run cost 1000
costs 1000 units of CPU more than for a free input. -/
theorem input_cost_charged_again :
    (costMaterial defaultEnv 0 1000 100 8).cpuCost = 1000.5 ∧
    (costMaterial defaultEnv 0 0 100 8).cpuCost = 0.5 ∧
    (costMaterial defaultEnv 0 0 100 8).powerCost <
      (costMaterial defaultEnv 0 1000 100 8).powerCost ∧
    (costGroup defaultEnv 2 10 0 1000 100).cpuCost = 1000.5 ∧
    (costGroup defaultEnv 2 10 0 0 100).cpuCost = 0.5 ∧
    (costGroup defaultEnv 2 10 0 0 100).powerCost <
      (costGroup defaultEnv 2 10 0 1000 100).powerCost := by
  norm_num [costMaterial, costGroup, defaultEnv, relationByteSize, maxalign, sizeofHeapTupleHeader,
    countPowerCost, B0, B1, B2, B3, B4, B5]

end GreenPipeline.L3.NodeCosts
