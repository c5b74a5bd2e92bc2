import GreenPipeline.L3Planner.HashJoinCosts
import GreenPipeline.L3Planner.MergeJoinCosts

/-!
# Preliminary join costs are lower bounds (`optimizer/path/costsize.c`)

`add_path_precheck` rejects a join path by the costs that `initial_cost_X`
puts into the workspace, before `final_cost_X` is called. That is sound only
if the second phase never lowers them.

Result: `initialCost_le_finalCost`, for all three join methods. The row counts
must be integral: the number of outer rows with a match is rounded, and for
half a row it can come out above the number of outer rows.
-/
namespace GreenPipeline.L3.JoinLowerBounds
open GreenPipeline.Core GreenPipeline.L3.PathNodes GreenPipeline.L3.JoinCosts
open GreenPipeline.L3.MergeJoinCosts GreenPipeline.L3.HashJoinCosts

variable {K : Type*} [Field K] [LinearOrder K] [IsStrictOrderedRing K]

/-- What the estimates of a path look like once `clamp_row_est` has rounded
its rows. -/
structure Rounded (path : PathNode K) : Prop where
  startup_nonneg : 0 ≤ path.startupCost
  startup_le_total : path.startupCost ≤ path.totalCost
  rows_integral : ∃ n : ℕ, 1 ≤ n ∧ path.rows = n

theorem Rounded.sane {path : PathNode K} (h : Rounded path) : path.Sane := by
  obtain ⟨n, -, hrows⟩ := h.rows_integral
  exact ⟨by rw [hrows]; exact Nat.cast_nonneg n, h.startup_nonneg, h.startup_le_total⟩

/-- The inputs of a join and the fraction of outer rows with a match. -/
structure RoundedInputs (a : JoinArgs K) : Prop where
  outer : Rounded a.outer
  inner : Rounded a.inner
  outerMatchFrac_le_one : a.extra.outerMatchFrac ≤ 1

variable [FloorRing K]

/-- A fraction of a whole number of rows does not round to more rows. -/
theorem rint_mul_le (n : ℕ) {x frac : K} (hx : x = n) (hfrac : frac ≤ 1) : rint (x * frac) ≤ x := by
  have hle : x * frac ≤ ((n : ℤ) : K) := by
    rw [hx]
    exact (mul_le_of_le_one_right (Nat.cast_nonneg n) hfrac).trans_eq (by simp)
  exact (rint_mono hle).trans_eq (by rw [rint_intCast, hx]; simp)

theorem nestloop_rowsMatched {a : NestLoop K} (h : RoundedInputs a.toJoinArgs) : a.RowsMatched := by
  intro _
  obtain ⟨n, hn, hrows⟩ := h.outer.rows_integral
  have hpos : positiveRows a.outer.rows = n := by
    simp [positiveRows, hrows, Nat.pos_iff_ne_zero.1 hn]
  exact rint_mul_le n hpos h.outerMatchFrac_le_one

theorem hashjoin_rowsMatched {a : HashJoin K} (h : RoundedInputs a.toJoinArgs) : a.RowsMatched := by
  intro _
  obtain ⟨n, -, hrows⟩ := h.outer.rows_integral
  exact rint_mul_le n hrows h.outerMatchFrac_le_one

/-- **The preliminary estimates are lower bounds** of the final ones, for
nested loops, merge joins and hash joins of any join type: the second phase
only adds to the startup cost and to the total cost. -/
theorem initialCost_le_finalCost (env : CostEnv K) :
    (∀ a : NestLoop K, RoundedInputs a.toJoinArgs →
      let ws := initialCostNestloop env a
      ws.startupCost ≤ (finalCostNestloop env a ws).startupCost ∧
        ws.totalCost ≤ (finalCostNestloop env a ws).totalCost) ∧
    (∀ a : MergeJoin K, RoundedInputs a.toJoinArgs →
      let ws := initialCostMergejoin env a
      ws.startupCost ≤ (finalCostMergejoin env a ws).startupCost ∧
        ws.totalCost ≤ (finalCostMergejoin env a ws).totalCost) ∧
    (∀ a : HashJoin K, RoundedInputs a.toJoinArgs →
      let ws := initialCostHashjoin env a
      ws.startupCost ≤ (finalCostHashjoin env a ws).startupCost ∧
        ws.totalCost ≤ (finalCostHashjoin env a ws).totalCost) := by
  refine ⟨fun a h => ?_, fun a h => ?_, fun a h => ?_⟩
  · have hstartup := finalCostNestloop_startup_ge env a (initialCostNestloop env a)
    have hrun := finalCostNestloop_run_ge env (nestloop_rowsMatched h) h.inner.sane
    have htotal : (initialCostNestloop env a).totalCost =
      (initialCostNestloop env a).startupCost + (initialCostNestloop env a).runCost := rfl
    exact ⟨hstartup, by linarith⟩
  · obtain ⟨hstartup, hrun⟩ := finalCostMergejoin_ge env h.outer.sane h.inner.sane
    have htotal : (initialCostMergejoin env a).totalCost = (initialCostMergejoin env a).startupCost
      + (initialCostMergejoin env a).runCost + (initialCostMergejoin env a).innerRunCost := rfl
    exact ⟨hstartup, by linarith⟩
  · obtain ⟨hstartup, hrun⟩ :=
      finalCostHashjoin_ge env (hashjoin_rowsMatched h) h.outer.sane (initialCostHashjoin env a)
    have htotal : (initialCostHashjoin env a).totalCost =
      (initialCostHashjoin env a).startupCost + (initialCostHashjoin env a).runCost := rfl
    exact ⟨hstartup, by linarith⟩

/-- A rel of ten rows. -/
noncomputable def tinyRel : RelOptInfo ℝ where
  rows := 10.0
  reltarget := ⟨noCost, 8⟩
  rows_nonneg := by norm_num

/-- A sequential scan of it. -/
noncomputable def tinyScan : PathNode ℝ where
  rows := 10.0
  startupCost := 0
  totalCost := 1.1
  ioCost := 1
  cpuCost := 0.1
  powerCost := 39.91
  tag := .other
  pathtarget := tinyRel.reltarget
  parallelWorkers := 0
  numBatches := 0

/-- A semi join of it with itself, where half of the rows have a match. -/
noncomputable def tinySemijoin : JoinArgs ℝ where
  joinrel := tinyRel
  jointype := .semi
  extra := ⟨false, 0.5, 2.0, by norm_num, by norm_num⟩
  outer := tinyScan
  inner := tinyScan
  restrictCost := ⟨0.005, 0.005, by norm_num, by norm_num⟩
  paramInfo := none

/-- It as a merge join: both inputs are sorted, the clause skips the first
row of each. -/
noncomputable def tinyMergejoin : MergeJoin ℝ where
  toJoinArgs := tinySemijoin
  numRestrictClauses := 1
  numMergeClauses := 1
  mergeCost := tinySemijoin.restrictCost
  leftIsOuter := true
  leftRange := ⟨0.1, 1, by norm_num, by norm_num⟩
  rightRange := ⟨0.1, 0.8, by norm_num, by norm_num⟩
  outerSort := true
  innerSort := true
  innerMarkRestore := false
  selec := ⟨0.1, by norm_num⟩
  mergeCost_startup_le := le_rfl
  mergeCost_perTuple_le := le_rfl

/-- It as a hash join in two batches. -/
noncomputable def tinyHashjoin : HashJoin ℝ where
  toJoinArgs := tinySemijoin
  bucketsizes := [⟨0.1, by norm_num⟩]
  numbuckets := 1024
  numbatches := 2
  hashCost := tinySemijoin.restrictCost
  selec := ⟨0.1, by norm_num⟩
  hashCost_startup_le := le_rfl
  hashCost_perTuple_le := le_rfl

theorem initialCost_le_finalCost_tinySemijoin :
    (initialCostNestloop defaultEnv ⟨tinySemijoin, false⟩).totalCost ≤
      (finalCostNestloop defaultEnv ⟨tinySemijoin, false⟩
        (initialCostNestloop defaultEnv ⟨tinySemijoin, false⟩)).totalCost ∧
    (initialCostMergejoin defaultEnv tinyMergejoin).totalCost ≤
      (finalCostMergejoin defaultEnv tinyMergejoin
        (initialCostMergejoin defaultEnv tinyMergejoin)).totalCost ∧
    (initialCostHashjoin defaultEnv tinyHashjoin).totalCost ≤
      (finalCostHashjoin defaultEnv tinyHashjoin
        (initialCostHashjoin defaultEnv tinyHashjoin)).totalCost := by
  have hscan : Rounded tinyScan :=
    ⟨le_rfl, by norm_num [tinyScan], 10, by norm_num, by norm_num [tinyScan]⟩
  have hinputs : RoundedInputs tinySemijoin := ⟨hscan, hscan, by norm_num [tinySemijoin]⟩
  obtain ⟨hnest, hmerge, hhash⟩ := initialCost_le_finalCost defaultEnv
  exact ⟨(hnest ⟨tinySemijoin, false⟩ hinputs).2, (hmerge tinyMergejoin hinputs).2,
    (hhash tinyHashjoin hinputs).2⟩

end GreenPipeline.L3.JoinLowerBounds
