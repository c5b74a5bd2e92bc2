import GreenPipeline.Core.Rounding
import Mathlib.Analysis.SpecialFunctions.Log.Basic
import Mathlib.Tactic.Linarith
import Mathlib.Tactic.NormNum
import Mathlib.Tactic.Positivity

/-!
# What path costing reads and writes

The inputs of `optimizer/path/costsize.c`: the cost settings, relations,
targets and qual costs. A setting or estimate that its producer keeps
non-negative carries that as a field: the settings by their ranges in
`guc.c`, row estimates by `clamp_row_est`, qual costs by `cost_qual_eval`.
The output is `Costs`, the numbers a costing function stores in a `Path`;
`PathNode` is a path with everything a later costing function reads of it.

Costs are exact: any ordered field with a floor. `log` and `sqrt` are
whatever the settings bring (`Libm`), with the few facts the costing
depends on.

Sources: `src/include/nodes/relation.h`.
-/
namespace GreenPipeline.L3.PathNodes
open GreenPipeline.Core

/-! ## Settings -/

/-- The C library functions of the costing that are not rational. -/
structure Libm (K : Type*) [Field K] [LinearOrder K] where
  log : K → K
  sqrt : K → K
  log_one : log 1 = 0
  log_lt_log : ∀ x y, 0 < x → x < y → log x < log y
  sqrt_zero : sqrt 0 = 0
  sqrt_one : sqrt 1 = 1
  sqrt_le_sqrt : ∀ x y, 0 ≤ x → x ≤ y → sqrt x ≤ sqrt y

/-- The cost settings and the fields of `PlannerInfo` the costing reads.
mirrors costsize.c:104-129,
relation.h:289 (`total_table_pages`) -/
structure CostEnv (K : Type*) [Field K] [LinearOrder K] extends Libm K where
  seqPageCost : K
  randomPageCost : K
  cpuTupleCost : K
  cpuOperatorCost : K
  effectiveCacheSize : ℕ
  workMem : ℕ
  totalTablePages : K
  enableSort : Bool
  enableHashagg : Bool
  enableNestloop : Bool
  enableMaterial : Bool
  enableMergejoin : Bool
  enableHashjoin : Bool
  seqPageCost_nonneg : 0 ≤ seqPageCost
  randomPageCost_nonneg : 0 ≤ randomPageCost
  cpuTupleCost_nonneg : 0 ≤ cpuTupleCost
  cpuOperatorCost_nonneg : 0 ≤ cpuOperatorCost
  totalTablePages_nonneg : 0 ≤ totalTablePages

/-! ## Relations and targets -/

/-- A row estimate or a cost that its producer keeps non-negative. -/
abbrev Estimate (K : Type*) [Field K] [LinearOrder K] := {x : K // 0 ≤ x}

/-- mirrors relation.h:43-47 -/
structure QualCost (K : Type*) [Field K] [LinearOrder K] where
  startup : K
  perTuple : K
  startup_nonneg : 0 ≤ startup
  perTuple_nonneg : 0 ≤ perTuple

def noCost {K : Type*} [Field K] [LinearOrder K] : QualCost K := ⟨0, 0, le_rfl, le_rfl⟩

/-- mirrors relation.h:56-65 -/
structure AggClauseCosts (K : Type*) [Field K] [LinearOrder K] where
  transCost : QualCost K
  finalCost : K
  finalCost_nonneg : 0 ≤ finalCost

/-- The cost and width of a `PathTarget`.
mirrors relation.h:881-888 -/
structure PathTarget (K : Type*) [Field K] [LinearOrder K] where
  cost : QualCost K
  width : ℕ

/-- mirrors relation.h:518-595 -/
structure RelOptInfo (K : Type*) [Field K] [LinearOrder K] where
  rows : K
  reltarget : PathTarget K
  rows_nonneg : 0 ≤ rows

/-- The row estimate of a `ParamPathInfo`.
mirrors relation.h:909-916 -/
structure ParamInfo (K : Type*) [Field K] [LinearOrder K] where
  ppiRows : K
  ppiRows_nonneg : 0 ≤ ppiRows

/-- The part of an input that a merge join reads: it skips the fraction
`startsel` and stops at the fraction `endsel`. -/
structure ScanRange (K : Type*) [Field K] [LinearOrder K] where
  startsel : K
  endsel : K
  startsel_nonneg : 0 ≤ startsel
  startsel_le_endsel : startsel ≤ endsel

def fullRange {K : Type*} [Field K] [LinearOrder K] [IsStrictOrderedRing K] : ScanRange K :=
  ⟨0, 1, le_rfl, zero_le_one⟩

/-! ## Paths -/

/-- The numbers a costing function stores in its path. `makeNode` zeroes
those it does not set. -/
structure Costs (K : Type*) where
  rows : K
  startupCost : K
  totalCost : K
  ioCost : K
  cpuCost : K
  powerCost : K

/-- The node tags of paths that the costing tells apart; a `UniquePath` is
`unique`. -/
inductive PathTag
  | functionScan
  | cteScan
  | workTableScan
  | hashJoin
  | material
  | sort
  | unique
  | other
  deriving DecidableEq, Repr

/-- A path with what costing reads of it. `numBatches` is a field of
`HashPath` only, zero in the others.
mirrors relation.h:948-972, 1370-1375 -/
structure PathNode (K : Type*) [Field K] [LinearOrder K] extends Costs K where
  tag : PathTag
  pathtarget : PathTarget K
  parallelWorkers : ℕ
  numBatches : ℕ

variable {K : Type*} [Field K] [LinearOrder K]

/-- The costs a later costing function can work with: a non-negative row
count, and no more cost before the first row than in all. -/
structure Costs.Sane (c : Costs K) : Prop where
  rows_nonneg : 0 ≤ c.rows
  startup_nonneg : 0 ≤ c.startupCost
  startup_le_total : c.startupCost ≤ c.totalCost

/-! ## Helpers of the costing -/

/-- mirrors costsize.c:114 -/
def disableCost : K := 1.0e10

/-- `if (!enable_x) startup_cost += disable_cost`. -/
def disabledCharge (enable : Bool) : K := if enable then 0 else disableCost

/-- mirrors costsize.c:101 -/
def log2 (m : Libm K) (x : K) : K := m.log x / 0.693147180559945

/-- mirrors costsize.c:172-186 -/
def clampRowEst [FloorRing K] (nrows : K) : K := if nrows ≤ 1 then 1 else rint nrows

/-- `MAXALIGN` on a platform with eight byte alignment. -/
def maxalign (n : ℕ) : ℕ := (n + 7) / 8 * 8

def blcksz : ℕ := 8192

/-- `SizeofHeapTupleHeader`, `offsetof(HeapTupleHeaderData, t_bits)`. -/
def sizeofHeapTupleHeader : ℕ := 23

/-- mirrors costsize.c:5495-5499 -/
def relationByteSize (tuples : K) (width : ℕ) : K :=
  tuples * ((maxalign width + maxalign sizeofHeapTupleHeader : ℕ) : K)

/-- mirrors costsize.c:5506-5510 -/
def pageSize [FloorRing K] (tuples : K) (width : ℕ) : K :=
  ⌈relationByteSize tuples width / blcksz⌉

/-- mirrors costsize.c:5516-5538 -/
def getParallelDivisor (parallelWorkers : ℕ) : K :=
  let parallelDivisor : K := parallelWorkers
  let leaderContribution : K := 1.0 - 0.3 * parallelWorkers
  if leaderContribution > 0 then parallelDivisor + leaderContribution else parallelDivisor

/-- Rows are divided among the workers of a partial path. -/
def shareRows [FloorRing K] (parallelWorkers : ℕ) (rows : K) : K :=
  if parallelWorkers > 0 then clampRowEst (rows / getParallelDivisor parallelWorkers) else rows

/-- The row estimate of a scan or join of `rel`: that of the parameterization if there is one. -/
def paramRows (rel : RelOptInfo K) (paramInfo : Option (ParamInfo K)) : K :=
  match paramInfo with
  | some ppi => ppi.ppiRows
  | none => rel.rows

theorem paramRows_nonneg (rel : RelOptInfo K) (paramInfo : Option (ParamInfo K)) :
    0 ≤ paramRows rel paramInfo := by
  cases paramInfo with
  | none => exact rel.rows_nonneg
  | some ppi => exact ppi.ppiRows_nonneg

section
variable [IsStrictOrderedRing K]

/-- A total cost is the startup cost and the cost of the run after it. -/
theorem sane_of_run {c : Costs K} {run : K} (hrows : 0 ≤ c.rows) (hstartup : 0 ≤ c.startupCost)
    (hrun : 0 ≤ run) (htotal : c.totalCost = c.startupCost + run) : c.Sane :=
  ⟨hrows, hstartup, by linarith⟩

theorem disabledCharge_nonneg (enable : Bool) : (0 : K) ≤ disabledCharge enable := by
  unfold disabledCharge disableCost
  split_ifs
  · exact le_rfl
  · norm_num

theorem log2_nonneg (m : Libm K) {x : K} (h : 1 ≤ x) : 0 ≤ log2 m x := by
  have hlog : 0 ≤ m.log x := by
    rcases h.eq_or_lt with rfl | hlt
    · exact m.log_one.ge
    · exact m.log_one ▸ (m.log_lt_log 1 x one_pos hlt).le
  exact div_nonneg hlog (by norm_num)

theorem relationByteSize_nonneg {tuples : K} (h : 0 ≤ tuples) (width : ℕ) :
    0 ≤ relationByteSize tuples width :=
  mul_nonneg h (Nat.cast_nonneg _)

variable [FloorRing K]

/-- A row estimate is at least one. -/
theorem one_le_clampRowEst (nrows : K) : 1 ≤ clampRowEst nrows := by
  unfold clampRowEst
  split_ifs with h
  · exact le_rfl
  · exact rint_one.ge.trans (rint_mono (not_le.1 h).le)

theorem clampRowEst_nonneg (nrows : K) : 0 ≤ clampRowEst nrows :=
  zero_le_one.trans (one_le_clampRowEst nrows)

/-- Skipping rows up to `x` leaves rows of a scan that ends at `y`. -/
theorem rint_le_clampRowEst {x y : K} (h : x ≤ y) : rint x ≤ clampRowEst y := by
  unfold clampRowEst
  split_ifs with hy
  · exact rint_one.le.trans' (rint_mono (h.trans hy))
  · exact rint_mono h

theorem shareRows_nonneg (workers : ℕ) {rows : K} (h : 0 ≤ rows) : 0 ≤ shareRows workers rows := by
  unfold shareRows
  split_ifs
  · exact clampRowEst_nonneg _
  · exact h

end

/-- The settings of a fresh server.
mirrors src/include/optimizer/cost.h:24-30, 41 -/
noncomputable def defaultEnv : CostEnv ℝ where
  log := Real.log
  sqrt := Real.sqrt
  log_one := Real.log_one
  log_lt_log _ _ hx hxy := Real.log_lt_log hx hxy
  sqrt_zero := Real.sqrt_zero
  sqrt_one := Real.sqrt_one
  sqrt_le_sqrt _ _ _ h := Real.sqrt_le_sqrt h
  seqPageCost := 1.0
  randomPageCost := 4.0
  cpuTupleCost := 0.01
  cpuOperatorCost := 0.0025
  effectiveCacheSize := 524288
  workMem := 4096
  totalTablePages := 0
  enableSort := true
  enableHashagg := true
  enableNestloop := true
  enableMaterial := true
  enableMergejoin := true
  enableHashjoin := true
  seqPageCost_nonneg := by norm_num
  randomPageCost_nonneg := by norm_num
  cpuTupleCost_nonneg := by norm_num
  cpuOperatorCost_nonneg := by norm_num
  totalTablePages_nonneg := le_rfl

end GreenPipeline.L3.PathNodes
