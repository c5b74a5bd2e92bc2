import GreenPipeline.L3Planner.JoinCosts

/-!
# Costing of merge joins (`optimizer/path/costsize.c`)

A merge join reads each input from the first possible match to the last:
the selectivities of the first merge clause give the range, which is rounded
to whole rows. Inner rows are read again for duplicate outer keys, either
from the input or from a materialized copy.

Result: `finalCostMergejoin_ge`, the second phase only adds to the first.
-/
namespace GreenPipeline.L3.MergeJoinCosts
open GreenPipeline.Core GreenPipeline.L3.PowerModel GreenPipeline.L3.PathNodes
open GreenPipeline.L3.NodeCosts GreenPipeline.L3.JoinCosts

variable {K : Type*} [Field K] [LinearOrder K] [FloorRing K]

/-! ## Preliminary cost -/

/-- The arguments of the merge join costing. `leftRange` and `rightRange`
are the cached selectivities of the first merge clause, whose left side
belongs to the outer path if `leftIsOuter`. The merge clauses are among the
restriction clauses, so they cost no more. `selec` is the selectivity of the
merge clauses, `innerMarkRestore` the answer of `ExecSupportsMarkRestore`. -/
structure MergeJoin (K : Type*) [Field K] [LinearOrder K] extends JoinArgs K where
  numRestrictClauses : ℕ
  numMergeClauses : ℕ
  mergeCost : QualCost K
  leftIsOuter : Bool
  leftRange : ScanRange K
  rightRange : ScanRange K
  outerSort : Bool
  innerSort : Bool
  innerMarkRestore : Bool
  selec : Estimate K
  mergeCost_startup_le : mergeCost.startup ≤ restrictCost.startup
  mergeCost_perTuple_le : mergeCost.perTuple ≤ restrictCost.perTuple

/-- The ranges of the outer and of the inner path.
mirrors costsize.c:2791-2851 -/
def MergeJoin.ranges [IsStrictOrderedRing K] (a : MergeJoin K) : ScanRange K × ScanRange K :=
  if a.numMergeClauses ≠ 0 ∧ a.jointype ≠ .full then
    let outer := if a.leftIsOuter then a.leftRange else a.rightRange
    let inner := if a.leftIsOuter then a.rightRange else a.leftRange
    -- an outer join reads all of its preserved side
    if a.jointype = .left ∨ a.jointype = .anti then (fullRange, inner)
    else if a.jointype = .right then (outer, fullRange)
    else (outer, inner)
  else (fullRange, fullRange)

/-- The rows skipped and read of an input of `pathRows` rows, and the
fractions recomputed from them.
mirrors costsize.c:2857-2873 -/
structure MergeInput (K : Type*) where
  skipRows : K
  rows : K
  startsel : K
  endsel : K

def mergeInput (pathRows : K) (range : ScanRange K) : MergeInput K :=
  let skipRows := rint (pathRows * range.startsel)
  let rows := clampRowEst (pathRows * range.endsel)
  { skipRows := skipRows, rows := rows, startsel := skipRows / pathRows, endsel := rows / pathRows }

/-- The input path, sorted first if it has to be.
mirrors costsize.c:2880-2931 -/
def mergeSource (env : CostEnv K) (path : PathNode K) (pathRows : K) (sort : Bool) : Costs K :=
  if sort then
    costSort env path.totalCost pathRows path.pathtarget.width 0 env.workMem (-1)
  else path.toCosts

/-- The cost of an input up to the first row read. -/
def MergeInput.startup (m : MergeInput K) (source : Costs K) : K :=
  source.startupCost + (source.totalCost - source.startupCost) * m.startsel

/-- The cost of the rows read. -/
def MergeInput.run (m : MergeInput K) (source : Costs K) : K :=
  (source.totalCost - source.startupCost) * (m.endsel - m.startsel)

/-- The part of `JoinCostWorkspace` that the merge join code uses. Its I/O
figure adds fractions; the CPU and power figures are left at zero. -/
structure MergejoinWorkspace (K : Type*) where
  startupCost : K
  totalCost : K
  runCost : K
  innerRunCost : K
  outerRows : K
  innerRows : K
  outerSkipRows : K
  innerSkipRows : K
  ioCost : K

/-- mirrors costsize.c:2745-2957 -/
def initialCostMergejoin [IsStrictOrderedRing K] (env : CostEnv K) (a : MergeJoin K) :
    MergejoinWorkspace K :=
  let outerPathRows := positiveRows a.outer.rows
  let innerPathRows := positiveRows a.inner.rows
  let outer := mergeInput outerPathRows a.ranges.1
  let inner := mergeInput innerPathRows a.ranges.2
  let outerSource := mergeSource env a.outer outerPathRows a.outerSort
  let innerSource := mergeSource env a.inner innerPathRows a.innerSort
  let startupCost := outer.startup outerSource + inner.startup innerSource
  let runCost := outer.run outerSource
  let innerRunCost := inner.run innerSource
  { startupCost := startupCost
    totalCost := startupCost + runCost + innerRunCost
    runCost := runCost
    innerRunCost := innerRunCost
    outerRows := outer.rows
    innerRows := inner.rows
    outerSkipRows := outer.skipRows
    innerSkipRows := inner.skipRows
    ioCost := (outer.endsel - outer.startsel) + (inner.endsel - inner.startsel) }

/-! ## Final cost -/

/-- mirrors costsize.c:3068-3075 -/
def MergeJoin.skipMarkRestore (a : MergeJoin K) : Prop :=
  a.stopsEarly ∧ a.numRestrictClauses = a.numMergeClauses

instance (a : MergeJoin K) : Decidable a.skipMarkRestore :=
  inferInstanceAs (Decidable (_ ∧ _))

/-- mirrors costsize.c:3081 -/
def MergeJoin.mergejointuples (a : MergeJoin K) : K :=
  approxTupleCount a.selec a.outer.rows a.inner.rows

/-- How often an inner row is read on average.
mirrors costsize.c:3109-3119 -/
def MergeJoin.rescanratio (a : MergeJoin K) : K :=
  let innerPathRows := positiveRows a.inner.rows
  let rescannedtuples :=
    if a.outer.tag = .unique ∨ a.skipMarkRestore then 0
    else if a.mergejointuples - innerPathRows < 0 then 0
    else a.mergejointuples - innerPathRows
  1.0 + rescannedtuples / innerPathRows

/-- The inner run cost if the inner side is materialized.
mirrors costsize.c:3145-3146 -/
def MergeJoin.matInnerCost (env : CostEnv K) (a : MergeJoin K) (innerRunCost : K) : K :=
  innerRunCost + env.cpuOperatorCost * positiveRows a.inner.rows * a.rescanratio

/-- mirrors costsize.c:3151-3198 -/
def MergeJoin.materializeInner (env : CostEnv K) (a : MergeJoin K) (innerRunCost : K) : Bool :=
  if a.skipMarkRestore then false
  else if env.enableMaterial ∧ a.matInnerCost env innerRunCost < innerRunCost * a.rescanratio then
    true
  else if !a.innerSort ∧ !a.innerMarkRestore then true
  else env.enableMaterial ∧ a.innerSort ∧
    relationByteSize (positiveRows a.inner.rows) a.inner.pathtarget.width >
      ((env.workMem * 1024 : ℕ) : K)

/-- The merge clause evaluations of a run, in rows.
mirrors costsize.c:3218-3219 -/
def MergeJoin.comparedRows (a : MergeJoin K) (workspace : MergejoinWorkspace K) : K :=
  (workspace.outerRows - workspace.outerSkipRows)
    + (workspace.innerRows - workspace.innerSkipRows) * a.rescanratio

/-- Without materialization the I/O figure is scaled by itself, not by the inner rows.
mirrors costsize.c:2995-3253 -/
def finalCostMergejoin (env : CostEnv K) (a : MergeJoin K) (workspace : MergejoinWorkspace K) :
    Costs K :=
  let rows := shareRows a.outer.parallelWorkers (paramRows a.joinrel a.paramInfo)
  let rescanratio := a.rescanratio
  let materializeInner := a.materializeInner env workspace.innerRunCost
  let innerCost :=
    if materializeInner then a.matInnerCost env workspace.innerRunCost
    else workspace.innerRunCost * rescanratio
  let ioCost :=
    if materializeInner then workspace.ioCost + positiveRows a.inner.rows * rescanratio
    else workspace.ioCost + workspace.ioCost * rescanratio
  let targetCost := a.joinrel.reltarget.cost
  let cpuPerTuple := env.cpuTupleCost + (a.restrictCost.perTuple - a.mergeCost.perTuple)
  let cpuCost := a.mergeCost.perTuple * a.comparedRows workspace + cpuPerTuple * a.mergejointuples
  let startupCost := workspace.startupCost + disabledCharge env.enableMergejoin
    + a.mergeCost.startup
    + a.mergeCost.perTuple * (workspace.outerSkipRows + workspace.innerSkipRows * rescanratio)
    + (a.restrictCost.startup - a.mergeCost.startup) + targetCost.startup
  let runCost := workspace.runCost + innerCost + cpuCost + targetCost.perTuple * rows
  { rows := rows
    startupCost := startupCost
    totalCost := startupCost + runCost
    ioCost := ioCost
    cpuCost := cpuCost
    powerCost := countPowerCost ioCost cpuCost runCost 0 }

/-! ## A merge join costs something -/

variable [IsStrictOrderedRing K]

/-- A merge join skips no more than it reads, and it reads something. -/
theorem mergeInput_bounds {pathRows : K} (h : 0 < pathRows) (range : ScanRange K) :
    let m := mergeInput pathRows range
    0 ≤ m.skipRows ∧ m.skipRows ≤ m.rows ∧ 0 ≤ m.startsel ∧ m.startsel ≤ m.endsel := by
  have hskip : 0 ≤ rint (pathRows * range.startsel) :=
    rint_nonneg (mul_nonneg h.le range.startsel_nonneg)
  have hle : rint (pathRows * range.startsel) ≤ clampRowEst (pathRows * range.endsel) :=
    rint_le_clampRowEst (mul_le_mul_of_nonneg_left range.startsel_le_endsel h.le)
  exact ⟨hskip, hle, div_nonneg hskip h.le, div_le_div_of_nonneg_right hle h.le⟩

theorem mergeSource_sane (env : CostEnv K) {path : PathNode K} (h : path.Sane) {pathRows : K}
    (hrows : 0 ≤ pathRows) (sort : Bool) : (mergeSource env path pathRows sort).Sane := by
  unfold mergeSource
  split_ifs
  · exact costSort_sane env (h.startup_nonneg.trans h.startup_le_total) hrows path.pathtarget.width
      le_rfl env.workMem (-1)
  · exact h

omit [FloorRing K] in
theorem MergeInput.startup_nonneg {m : MergeInput K} (hm : 0 ≤ m.startsel) {source : Costs K}
    (h : source.Sane) : 0 ≤ m.startup source :=
  add_nonneg h.startup_nonneg (mul_nonneg (sub_nonneg.2 h.startup_le_total) hm)

omit [FloorRing K] in
theorem MergeInput.run_nonneg {m : MergeInput K} (hm : m.startsel ≤ m.endsel) {source : Costs K}
    (h : source.Sane) : 0 ≤ m.run source :=
  mul_nonneg (sub_nonneg.2 h.startup_le_total) (sub_nonneg.2 hm)

theorem MergeJoin.one_le_rescanratio (a : MergeJoin K) : 1 ≤ a.rescanratio := by
  have hinner := positiveRows_pos a.inner.rows
  unfold MergeJoin.rescanratio
  have hrescanned : 0 ≤ if a.outer.tag = .unique ∨ a.skipMarkRestore then 0 else
      if a.mergejointuples - positiveRows a.inner.rows < 0 then 0
      else a.mergejointuples - positiveRows a.inner.rows := by
    split_ifs with _ hneg
    · exact le_rfl
    · exact le_rfl
    · exact not_lt.1 hneg
  have := div_nonneg hrescanned hinner.le
  linarith

/-- A rescan of the inner side, materialized or not, costs no less than its first scan. -/
theorem MergeJoin.innerCost_ge (env : CostEnv K) (a : MergeJoin K) {innerRun : K} (h : 0 ≤ innerRun)
    (materialize : Bool) :
    innerRun ≤ if materialize = true then a.matInnerCost env innerRun else
      innerRun * a.rescanratio := by
  have hratio := a.one_le_rescanratio
  split_ifs
  · exact le_add_of_nonneg_right
      (mul_nonneg (mul_nonneg env.cpuOperatorCost_nonneg (positiveRows_pos a.inner.rows).le)
        (zero_le_one.trans hratio))
  · exact le_mul_of_one_le_right h hratio

/-- What `initial_cost_mergejoin` leaves for the second phase. -/
theorem initialCostMergejoin_bounds (env : CostEnv K) {a : MergeJoin K} (houter : a.outer.Sane)
    (hinner : a.inner.Sane) :
    let ws := initialCostMergejoin env a
    0 ≤ ws.startupCost ∧ 0 ≤ ws.runCost ∧ 0 ≤ ws.innerRunCost ∧ 0 ≤ ws.outerSkipRows ∧
      0 ≤ ws.innerSkipRows ∧ ws.outerSkipRows ≤ ws.outerRows ∧ ws.innerSkipRows ≤ ws.innerRows := by
  have hoRows := positiveRows_pos a.outer.rows
  have hiRows := positiveRows_pos a.inner.rows
  obtain ⟨hoSkip, hoLe, hoStart, hoSel⟩ := mergeInput_bounds hoRows a.ranges.1
  obtain ⟨hiSkip, hiLe, hiStart, hiSel⟩ := mergeInput_bounds hiRows a.ranges.2
  have hoSane := mergeSource_sane env houter hoRows.le a.outerSort
  have hiSane := mergeSource_sane env hinner hiRows.le a.innerSort
  exact ⟨add_nonneg (MergeInput.startup_nonneg hoStart hoSane)
    (MergeInput.startup_nonneg hiStart hiSane), MergeInput.run_nonneg hoSel hoSane,
    MergeInput.run_nonneg hiSel hiSane, hoSkip, hiSkip, hoLe, hiLe⟩

/-- The second phase only adds: to the startup cost the merge clauses on the
skipped rows, to the run cost rescans, comparisons and output rows. -/
theorem finalCostMergejoin_ge (env : CostEnv K) {a : MergeJoin K} (houter : a.outer.Sane)
    (hinner : a.inner.Sane) :
    let ws := initialCostMergejoin env a
    ws.startupCost ≤ (finalCostMergejoin env a ws).startupCost ∧ ws.runCost + ws.innerRunCost ≤
        (finalCostMergejoin env a ws).totalCost - (finalCostMergejoin env a ws).startupCost := by
  obtain ⟨-, -, hinnerRun, hoSkip, hiSkip, hoLe, hiLe⟩ :=
    initialCostMergejoin_bounds env houter hinner
  generalize initialCostMergejoin env a = ws at *
  have hratio := zero_le_one.trans a.one_le_rescanratio
  have hcompared : 0 ≤ a.comparedRows ws :=
    add_nonneg (sub_nonneg.2 hoLe) (mul_nonneg (sub_nonneg.2 hiLe) hratio)
  have htuples : 0 ≤ a.mergejointuples := clampRowEst_nonneg _
  have hcpu := add_nonneg (mul_nonneg a.mergeCost.perTuple_nonneg hcompared)
    (mul_nonneg (add_nonneg env.cpuTupleCost_nonneg (sub_nonneg.2 a.mergeCost_perTuple_le)) htuples)
  have hskip :=
    mul_nonneg a.mergeCost.perTuple_nonneg (add_nonneg hoSkip (mul_nonneg hiSkip hratio))
  have hinnerCost := a.innerCost_ge env hinnerRun (a.materializeInner env ws.innerRunCost)
  have htarget := mul_nonneg a.joinrel.reltarget.cost.perTuple_nonneg
    (shareRows_nonneg a.outer.parallelWorkers (paramRows_nonneg a.joinrel a.paramInfo))
  have hdisabled := disabledCharge_nonneg (K := K) env.enableMergejoin
  have hmerge := a.mergeCost.startup_nonneg
  have hqual := sub_nonneg.2 a.mergeCost_startup_le
  have htargetStart := a.joinrel.reltarget.cost.startup_nonneg
  refine ⟨?_, ?_⟩ <;> unfold finalCostMergejoin <;> dsimp only <;> linarith

end GreenPipeline.L3.MergeJoinCosts
