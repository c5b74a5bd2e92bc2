import GreenPipeline.L3Planner.NodeCosts

/-!
# Two-phase costing of joins, nested loops (`optimizer/path/costsize.c`)

A join path is costed in two steps: `initial_cost_X` makes a preliminary
estimate from the input paths alone, which `add_path_precheck` can already
reject, and `final_cost_X` completes it. The workspace carries the figures
from one to the other.

Here are the arguments all joins share, the cost of a rescan, and the nested
loop.

Results: `finalCostNestloop_startup_ge`, `finalCostNestloop_run_ge`, the
second phase only adds to the first. For a semi join, an anti join or a join
with a unique inner side this needs that no more outer rows have a match than
there are outer rows (`NestLoop.RowsMatched`), which rounding can break for a
fractional number of rows.
-/
namespace GreenPipeline.L3.JoinCosts
open GreenPipeline.Core GreenPipeline.L3.PowerModel GreenPipeline.L3.PathNodes
open GreenPipeline.L3.NodeCosts

variable {K : Type*} [Field K] [LinearOrder K]

/-! ## What a join is costed from -/

/-- mirrors src/include/nodes/nodes.h:673-706 -/
inductive JoinType
  | inner
  | left
  | full
  | right
  | semi
  | anti
  | uniqueOuter
  | uniqueInner
  deriving DecidableEq, Repr

/-- The fields of `JoinPathExtraData` the costing reads. `compute_semi_anti_join_factors`
clamps the number of matches to at least one.
mirrors src/include/nodes/relation.h:2161-2165, costsize.c:4283-4293 -/
structure JoinExtra (K : Type*) [Field K] [LinearOrder K] where
  innerUnique : Bool
  outerMatchFrac : K
  matchCount : K
  outerMatchFrac_nonneg : 0 ≤ outerMatchFrac
  one_le_matchCount : 1 ≤ matchCount

/-- The arguments all joins share. `restrictCost` is the cost of the join's restriction clauses. -/
structure JoinArgs (K : Type*) [Field K] [LinearOrder K] where
  joinrel : RelOptInfo K
  jointype : JoinType
  extra : JoinExtra K
  outer : PathNode K
  inner : PathNode K
  restrictCost : QualCost K
  paramInfo : Option (ParamInfo K)

/-- The executor stops at the first match of an outer row. -/
def JoinArgs.stopsEarly (a : JoinArgs K) : Prop :=
  a.jointype = .semi ∨ a.jointype = .anti ∨ a.extra.innerUnique = true

instance (a : JoinArgs K) : Decidable a.stopsEarly :=
  inferInstanceAs (Decidable (_ ∨ _ ∨ _))

/-- How much of the inner side is scanned for a row that has a match. -/
def JoinArgs.innerScanFrac (a : JoinArgs K) : K := 2.0 / (a.extra.matchCount + 1)

/-- A row count of zero is protected against (costsize.c:2545-2548, 2775-2778, 3027). -/
def positiveRows (rows : K) : K := if rows ≤ 0 then 1 else rows

theorem positiveRows_pos [IsStrictOrderedRing K] (rows : K) : 0 < positiveRows rows := by
  unfold positiveRows
  split_ifs with h
  · exact one_pos
  · exact not_le.1 h

theorem JoinArgs.innerScanFrac_nonneg [IsStrictOrderedRing K] (a : JoinArgs K) :
    0 ≤ a.innerScanFrac :=
  div_nonneg zero_lt_2_0.le (by linarith [a.extra.one_le_matchCount])

variable [FloorRing K]

/-- mirrors costsize.c:4399-4439 -/
def approxTupleCount (selec outerTuples innerTuples : K) : K :=
  clampRowEst (selec * outerTuples * innerTuples)

/-! ## Rescans -/

/-- Reading a stored result again: `perTuple` for each row, and the pages if it was spilled. -/
def rescanStored (env : CostEnv K) (path : PathNode K) (perTuple : K) : K :=
  let nbytes := relationByteSize path.rows path.pathtarget.width
  perTuple * path.rows
    + if nbytes > ((env.workMem * 1024 : ℕ) : K) then env.seqPageCost * ⌈nbytes / blcksz⌉ else 0

/-- The startup and total cost of scanning `path` once more.
mirrors costsize.c:3774-3869 -/
def costRescan (env : CostEnv K) (path : PathNode K) : K × K :=
  match path.tag with
  | .functionScan => (0, path.totalCost - path.startupCost)
  | .hashJoin =>
    if path.numBatches = 1 then (0, path.totalCost - path.startupCost)
    else (path.startupCost, path.totalCost)
  | .cteScan | .workTableScan => (0, rescanStored env path env.cpuTupleCost)
  | .material | .sort => (0, rescanStored env path env.cpuOperatorCost)
  | _ => (path.startupCost, path.totalCost)

/-! ## Nested loops -/

structure NestLoop (K : Type*) [Field K] [LinearOrder K] extends JoinArgs K where
  hasIndexedJoinQuals : Bool

/-- The part of `JoinCostWorkspace` that the nested loop code uses. Its I/O
figure counts rows; the CPU and power figures are left at zero. -/
structure NestloopWorkspace (K : Type*) where
  startupCost : K
  totalCost : K
  runCost : K
  innerRunCost : K
  innerRescanRunCost : K
  ioCost : K

/-- mirrors costsize.c:2435-2514 -/
def initialCostNestloop (env : CostEnv K) (a : NestLoop K) : NestloopWorkspace K :=
  let outerPathRows := a.outer.rows
  let rescan := costRescan env a.inner
  let innerRunCost := a.inner.totalCost - a.inner.startupCost
  let innerRescanRunCost := rescan.2 - rescan.1
  let startupCost := a.outer.startupCost + a.inner.startupCost
  let runCost := a.outer.totalCost - a.outer.startupCost
    + (if outerPathRows > 1 then (outerPathRows - 1) * rescan.1 else 0)
    + (if a.stopsEarly then 0
       else innerRunCost
        + if outerPathRows > 1 then (outerPathRows - 1) * innerRescanRunCost else 0)
  { startupCost := startupCost
    totalCost := startupCost + runCost
    runCost := runCost
    innerRunCost := innerRunCost
    innerRescanRunCost := innerRescanRunCost
    ioCost := (outerPathRows - 1) + (a.inner.rows - 1) }

/-- The outer rows that have a match. -/
def NestLoop.outerMatchedRows (a : NestLoop K) : K :=
  rint (positiveRows a.outer.rows * a.extra.outerMatchFrac)

/-- The pairs of rows compared.
mirrors costsize.c:2605, 2666, 2691 -/
def NestLoop.ntuples (a : NestLoop K) : K :=
  let outerPathRows := positiveRows a.outer.rows
  let innerPathRows := positiveRows a.inner.rows
  if a.stopsEarly then
    if a.hasIndexedJoinQuals then a.outerMatchedRows * innerPathRows * a.innerScanFrac
    else a.outerMatchedRows * innerPathRows * a.innerScanFrac
      + (outerPathRows - a.outerMatchedRows) * innerPathRows
  else outerPathRows * innerPathRows

/-- What the inner scans of a nested loop add in the second phase: run cost and I/O.
mirrors costsize.c:2575-2692 -/
def NestLoop.innerScans (a : NestLoop K) (innerRunCost innerRescanRunCost : K) : K × K :=
  let outerPathRows := positiveRows a.outer.rows
  let outerMatchedRows := a.outerMatchedRows
  let outerUnmatchedRows := outerPathRows - outerMatchedRows
  let innerScanFrac := a.innerScanFrac
  if a.stopsEarly then
    if a.hasIndexedJoinQuals then
      -- an unmatched outer row costs one probe of the index
      (innerRunCost * innerScanFrac
          + (if outerMatchedRows > 1 then
              (outerMatchedRows - 1) * innerRescanRunCost * innerScanFrac else 0)
          + outerUnmatchedRows * innerRescanRunCost / positiveRows a.inner.rows,
        (outerMatchedRows - 1) + (outerPathRows - outerMatchedRows))
    else
      -- the first scan is paid in full; it serves an unmatched row if there is one
      let unmatched := if outerUnmatchedRows ≥ 1 then outerUnmatchedRows - 1 else outerUnmatchedRows
      let matched := if outerUnmatchedRows ≥ 1 then outerMatchedRows else outerMatchedRows - 1
      (innerRunCost
          + (if matched > 0 then matched * innerRescanRunCost * innerScanFrac else 0)
          + (if unmatched > 0 then unmatched * innerRescanRunCost else 0),
        (if matched > 0 then matched - 1 else 0)
          + (if unmatched > 0 then outerPathRows - matched else 0))
  else (0, 0)

/-- mirrors costsize.c:2524-2713 -/
def finalCostNestloop (env : CostEnv K) (a : NestLoop K)
    (workspace : NestloopWorkspace K) : Costs K :=
  let parallelWorkers := a.outer.parallelWorkers
  let rows := shareRows parallelWorkers (paramRows a.joinrel a.paramInfo)
  let scans := a.innerScans workspace.innerRunCost workspace.innerRescanRunCost
  let targetCost := a.joinrel.reltarget.cost
  let cpuPerTuple := env.cpuTupleCost + a.restrictCost.perTuple
  let startupCost := workspace.startupCost + disabledCharge env.enableNestloop
    + a.restrictCost.startup + targetCost.startup
  let cpuCost := cpuPerTuple * a.ntuples
  let runCost := workspace.runCost + scans.1 + cpuCost + targetCost.perTuple * rows
  let ioCost := workspace.ioCost + scans.2
  { rows := rows
    startupCost := startupCost
    totalCost := startupCost + runCost
    ioCost := ioCost
    cpuCost := cpuCost
    powerCost := countPowerCost ioCost cpuCost runCost parallelWorkers }

section
variable [IsStrictOrderedRing K]

theorem rescanStored_nonneg (env : CostEnv K) {path : PathNode K} (h : path.Sane) {perTuple : K}
    (hper : 0 ≤ perTuple) : 0 ≤ rescanStored env path perTuple :=
  add_nonneg (mul_nonneg hper h.rows_nonneg) (guarded_nonneg fun _ =>
    mul_nonneg env.seqPageCost_nonneg
      (Int.cast_nonneg (Int.ceil_nonneg
        (div_nonneg (relationByteSize_nonneg h.rows_nonneg _) (Nat.cast_nonneg _)))))

theorem costRescan_bounds (env : CostEnv K) {path : PathNode K} (h : path.Sane) :
    0 ≤ (costRescan env path).1 ∧ (costRescan env path).1 ≤ (costRescan env path).2 := by
  have hdefault : 0 ≤ path.startupCost ∧ path.startupCost ≤ path.totalCost :=
    ⟨h.startup_nonneg, h.startup_le_total⟩
  have hrun : (0 : K) ≤ 0 ∧ 0 ≤ path.totalCost - path.startupCost :=
    ⟨le_rfl, sub_nonneg.2 h.startup_le_total⟩
  unfold costRescan
  split
  · exact hrun
  · split_ifs
    · exact hrun
    · exact hdefault
  · exact ⟨le_rfl, rescanStored_nonneg env h env.cpuTupleCost_nonneg⟩
  · exact ⟨le_rfl, rescanStored_nonneg env h env.cpuTupleCost_nonneg⟩
  · exact ⟨le_rfl, rescanStored_nonneg env h env.cpuOperatorCost_nonneg⟩
  · exact ⟨le_rfl, rescanStored_nonneg env h env.cpuOperatorCost_nonneg⟩
  · exact hdefault

/-- No more outer rows have a match than there are. -/
def NestLoop.RowsMatched (a : NestLoop K) : Prop :=
  a.stopsEarly → a.outerMatchedRows ≤ positiveRows a.outer.rows

theorem NestLoop.outerMatchedRows_nonneg (a : NestLoop K) : 0 ≤ a.outerMatchedRows :=
  rint_nonneg (mul_nonneg (positiveRows_pos a.outer.rows).le a.extra.outerMatchFrac_nonneg)

theorem NestLoop.ntuples_nonneg (a : NestLoop K) (hmatched : a.RowsMatched) : 0 ≤ a.ntuples := by
  have hinnerRows := (positiveRows_pos a.inner.rows).le
  have hcompared :=
    mul_nonneg (mul_nonneg a.outerMatchedRows_nonneg hinnerRows) a.innerScanFrac_nonneg
  unfold NestLoop.ntuples
  split_ifs with hearly hindexed
  · exact hcompared
  · exact add_nonneg hcompared (mul_nonneg (sub_nonneg.2 (hmatched hearly)) hinnerRows)
  · exact mul_nonneg (positiveRows_pos a.outer.rows).le hinnerRows

theorem NestLoop.innerScans_nonneg (a : NestLoop K) (hmatched : a.RowsMatched)
    {innerRun rescanRun : K} (hinner : 0 ≤ innerRun) (hrescan : 0 ≤ rescanRun) :
    0 ≤ (a.innerScans innerRun rescanRun).1 := by
  have hfrac := a.innerScanFrac_nonneg
  unfold NestLoop.innerScans
  by_cases hearly : a.stopsEarly
  · have hu := sub_nonneg.2 (hmatched hearly)
    rw [if_pos hearly]
    by_cases hindexed : a.hasIndexedJoinQuals = true
    · rw [if_pos hindexed]
      exact add_nonneg (add_nonneg (mul_nonneg hinner hfrac) (guarded_nonneg fun hone =>
        mul_nonneg (mul_nonneg (sub_nonneg.2 hone.le) hrescan) hfrac))
        (div_nonneg (mul_nonneg hu hrescan) (positiveRows_pos a.inner.rows).le)
    · rw [if_neg hindexed]
      exact add_nonneg (add_nonneg hinner
        (guarded_nonneg fun hpos => mul_nonneg (mul_nonneg hpos.le hrescan) hfrac))
        (guarded_nonneg fun hpos => mul_nonneg hpos.le hrescan)
  · rw [if_neg hearly]

/-- The second phase only adds to the startup cost. -/
theorem finalCostNestloop_startup_ge (env : CostEnv K) (a : NestLoop K) (ws : NestloopWorkspace K) :
    ws.startupCost ≤ (finalCostNestloop env a ws).startupCost := by
  have hdisabled := disabledCharge_nonneg (K := K) env.enableNestloop
  have hqual := a.restrictCost.startup_nonneg
  have htarget := a.joinrel.reltarget.cost.startup_nonneg
  unfold finalCostNestloop
  linarith

/-- The second phase only adds to the run cost. -/
theorem finalCostNestloop_run_ge (env : CostEnv K) {a : NestLoop K} (hmatched : a.RowsMatched)
    (hinner : a.inner.Sane) :
    let ws := initialCostNestloop env a
    ws.runCost ≤ (finalCostNestloop env a ws).totalCost -
      (finalCostNestloop env a ws).startupCost := by
  have hscans : 0 ≤
      (a.innerScans (initialCostNestloop env a).innerRunCost
        (initialCostNestloop env a).innerRescanRunCost).1 :=
    a.innerScans_nonneg hmatched (sub_nonneg.2 hinner.startup_le_total)
      (sub_nonneg.2 (costRescan_bounds env hinner).2)
  have hcpu :=
    mul_nonneg (add_nonneg env.cpuTupleCost_nonneg a.restrictCost.perTuple_nonneg)
      (a.ntuples_nonneg hmatched)
  have htarget := mul_nonneg a.joinrel.reltarget.cost.perTuple_nonneg
    (shareRows_nonneg a.outer.parallelWorkers (paramRows_nonneg a.joinrel a.paramInfo))
  unfold finalCostNestloop
  linarith

end

end GreenPipeline.L3.JoinCosts
