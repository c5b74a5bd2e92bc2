import GreenPipeline.L3Planner.JoinCosts

/-!
# Costing of hash joins (`optimizer/path/costsize.c`)

The inner input is read in full into the hash table before the first outer
row is fetched. The size of the table (`numbuckets`, `numbatches`) is chosen
by `ExecChooseHashTableSize`, the fraction of it that one bucket holds is
estimated for each hash clause; both are arguments here.

Result: `finalCostHashjoin_ge`, the second phase only adds to the first, if
no more outer rows have a match than there are (`HashJoin.RowsMatched`).
-/
namespace GreenPipeline.L3.HashJoinCosts
open GreenPipeline.Core GreenPipeline.L3.PowerModel GreenPipeline.L3.PathNodes
open GreenPipeline.L3.JoinCosts

variable {K : Type*} [Field K] [LinearOrder K]

/-- The arguments of the hash join costing. `bucketsizes` has the estimated
bucket fraction for each hash clause; the hash clauses are among the
restriction clauses, so they cost no more. -/
structure HashJoin (K : Type*) [Field K] [LinearOrder K] extends JoinArgs K where
  bucketsizes : List (Estimate K)
  numbuckets : ℕ
  numbatches : ℕ
  hashCost : QualCost K
  selec : Estimate K
  hashCost_startup_le : hashCost.startup ≤ restrictCost.startup
  hashCost_perTuple_le : hashCost.perTuple ≤ restrictCost.perTuple

def HashJoin.numHashclauses (a : HashJoin K) : ℕ := a.bucketsizes.length

/-- The part of `JoinCostWorkspace` that the hash join code uses. The power figure is left at
zero. -/
structure HashjoinWorkspace (K : Type*) where
  startupCost : K
  totalCost : K
  runCost : K
  ioCost : K
  cpuCost : K

/-- mirrors costsize.c:3490 -/
def HashJoin.virtualbuckets (a : HashJoin K) : K := (a.numbuckets : K) * (a.numbatches : K)

/-- The smallest estimate of a hash clause, unless the inner side is unique.
mirrors costsize.c:3502-3555 -/
def HashJoin.innerbucketsize (a : HashJoin K) : K :=
  if a.inner.tag = .unique then 1.0 / a.virtualbuckets
  else a.bucketsizes.foldl
    (fun (innerbucketsize : K) (thisbucketsize : Estimate K) =>
      if innerbucketsize > thisbucketsize then thisbucketsize else innerbucketsize) 1.0

variable [FloorRing K]

/-- mirrors costsize.c:3335-3425 -/
def initialCostHashjoin (env : CostEnv K) (a : HashJoin K) : HashjoinWorkspace K :=
  let outerpages := pageSize a.outer.rows a.outer.pathtarget.width
  let innerpages := pageSize a.inner.rows a.inner.pathtarget.width
  let hashCharge := env.cpuOperatorCost * a.numHashclauses * a.outer.rows
  -- with several batches both inputs are written out and read back
  let startupCost := a.outer.startupCost + a.inner.totalCost
    + (env.cpuOperatorCost * a.numHashclauses + env.cpuTupleCost) * a.inner.rows
    + if a.numbatches > 1 then env.seqPageCost * innerpages else 0
  let runCost := a.outer.totalCost - a.outer.startupCost + hashCharge
    + if a.numbatches > 1 then env.seqPageCost * (innerpages + 2.0 * outerpages) else 0
  { startupCost := startupCost
    totalCost := startupCost + runCost
    runCost := runCost
    ioCost := if a.numbatches > 1 then innerpages + (innerpages + 2.0 * outerpages) else 0
    cpuCost := hashCharge }

/-- The outer rows that have a match. -/
def HashJoin.outerMatchedRows (a : HashJoin K) : K := rint (a.outer.rows * a.extra.outerMatchFrac)

/-- The cost of evaluating the hash clauses on the tuples of a bucket.
mirrors costsize.c:3590-3609, 3629-3631 -/
def HashJoin.probeCharge (a : HashJoin K) : K :=
  if a.stopsEarly then
    a.hashCost.perTuple * a.outerMatchedRows
        * clampRowEst (a.inner.rows * a.innerbucketsize * a.innerScanFrac) * 0.5
      + a.hashCost.perTuple * (a.outer.rows - a.outerMatchedRows)
        * clampRowEst (a.inner.rows / a.virtualbuckets) * 0.05
  else
    a.hashCost.perTuple * a.outer.rows * clampRowEst (a.inner.rows * a.innerbucketsize) * 0.5

/-- mirrors costsize.c:3612-3615, 3638 -/
def HashJoin.hashjointuples (a : HashJoin K) : K :=
  if a.stopsEarly then
    if a.jointype = .semi then a.outerMatchedRows else a.outer.rows - a.outerMatchedRows
  else approxTupleCount a.selec a.outer.rows a.inner.rows

/-- mirrors costsize.c:3438-3664 -/
def finalCostHashjoin (env : CostEnv K) (a : HashJoin K)
    (workspace : HashjoinWorkspace K) : Costs K :=
  let rows := shareRows a.outer.parallelWorkers (paramRows a.joinrel a.paramInfo)
  let targetCost := a.joinrel.reltarget.cost
  let cpuPerTuple := env.cpuTupleCost + (a.restrictCost.perTuple - a.hashCost.perTuple)
  let startupCost := workspace.startupCost + disabledCharge env.enableHashjoin + a.hashCost.startup
    + (a.restrictCost.startup - a.hashCost.startup) + targetCost.startup
  let joinRunCost := workspace.runCost + a.probeCharge + cpuPerTuple * a.hashjointuples
  let cpuCost := workspace.cpuCost + (joinRunCost - workspace.runCost)
  let runCost := joinRunCost + targetCost.perTuple * rows
  { rows := rows
    startupCost := startupCost
    totalCost := startupCost + runCost
    ioCost := workspace.ioCost
    cpuCost := cpuCost
    powerCost := countPowerCost workspace.ioCost cpuCost runCost 0 }

/-! ## A hash join costs at least its outer input -/

variable [IsStrictOrderedRing K]

/-- No more outer rows have a match than there are. -/
def HashJoin.RowsMatched (a : HashJoin K) : Prop := a.stopsEarly → a.outerMatchedRows ≤ a.outer.rows

theorem HashJoin.outerMatchedRows_nonneg (a : HashJoin K) (houter : a.outer.Sane) :
    0 ≤ a.outerMatchedRows :=
  rint_nonneg (mul_nonneg houter.rows_nonneg a.extra.outerMatchFrac_nonneg)

theorem HashJoin.probeCharge_nonneg (a : HashJoin K) (hmatched : a.RowsMatched)
    (houter : a.outer.Sane) : 0 ≤ a.probeCharge := by
  have hhash := a.hashCost.perTuple_nonneg
  unfold HashJoin.probeCharge
  split_ifs with hearly
  · exact add_nonneg
      (mul_nonneg (mul_nonneg (mul_nonneg hhash (a.outerMatchedRows_nonneg houter))
        (clampRowEst_nonneg _)) (by norm_num))
      (mul_nonneg (mul_nonneg (mul_nonneg hhash (sub_nonneg.2 (hmatched hearly)))
        (clampRowEst_nonneg _)) (by norm_num))
  · exact mul_nonneg
      (mul_nonneg (mul_nonneg hhash houter.rows_nonneg) (clampRowEst_nonneg _)) (by norm_num)

theorem HashJoin.hashjointuples_nonneg (a : HashJoin K) (hmatched : a.RowsMatched)
    (houter : a.outer.Sane) : 0 ≤ a.hashjointuples := by
  unfold HashJoin.hashjointuples
  split_ifs with hearly hsemi
  · exact a.outerMatchedRows_nonneg houter
  · exact sub_nonneg.2 (hmatched hearly)
  · exact clampRowEst_nonneg _

/-- The second phase only adds: probing the table and the output rows. -/
theorem finalCostHashjoin_ge (env : CostEnv K) {a : HashJoin K} (hmatched : a.RowsMatched)
    (houter : a.outer.Sane) (ws : HashjoinWorkspace K) :
    ws.startupCost ≤ (finalCostHashjoin env a ws).startupCost ∧
      ws.runCost ≤ (finalCostHashjoin env a ws).totalCost -
        (finalCostHashjoin env a ws).startupCost := by
  have hprobe := a.probeCharge_nonneg hmatched houter
  have htuples :=
    mul_nonneg (add_nonneg env.cpuTupleCost_nonneg (sub_nonneg.2 a.hashCost_perTuple_le))
      (a.hashjointuples_nonneg hmatched houter)
  have htarget := mul_nonneg a.joinrel.reltarget.cost.perTuple_nonneg
    (shareRows_nonneg a.outer.parallelWorkers (paramRows_nonneg a.joinrel a.paramInfo))
  have hdisabled := disabledCharge_nonneg (K := K) env.enableHashjoin
  have hhash := a.hashCost.startup_nonneg
  have hqual := sub_nonneg.2 a.hashCost_startup_le
  have htargetStart := a.joinrel.reltarget.cost.startup_nonneg
  refine ⟨?_, ?_⟩ <;> unfold finalCostHashjoin <;> dsimp only <;> linarith

end GreenPipeline.L3.HashJoinCosts
