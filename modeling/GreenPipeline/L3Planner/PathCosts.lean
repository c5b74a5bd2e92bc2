import GreenPipeline.L1Nodes.Bitmapset
import GreenPipeline.L3Planner.Pathkeys
import Mathlib.Algebra.Order.Field.Basic
import Mathlib.Data.Prod.Lex
import Mathlib.Analysis.SpecialFunctions.Pow.Real

/-!
# Paths and the energy-aware cost comparisons (`optimizer/util/pathnode.c`)

The fork compares paths by the weighted sum of logarithms
`time_weight * log(total_cost) + power_weight * log(power_cost)`
(`weightedCost`) where stock PostgreSQL compares `total_cost`. The exact
comparison (`comparePathCosts`) and the fuzzy one (`comparePathCostsFuzzily`)
are modelled over any type of costs that has the arithmetic and the
comparisons the C code uses, so they run on `Float` as well as on an ordered
field; `log` is part of the weighting.

The fuzzy comparison tests `t1 > t2 * fuzz_factor`. That is a relative
tolerance only while both sides are non-negative, and a sum of logarithms
is negative for costs below one.

Sources: `src/include/nodes/relation.h`.

Results:
* `fuzzyLawful_iff`: the fuzzy comparison is reflexive and antisymmetric on
  a pair exactly when both weighted costs and both startup costs are
  non-negative.
* `comparePathCosts_default`: with `time_weight = 1`, `power_weight = 0` the
  exact comparison is the lexicographic one of stock PostgreSQL.
* `default_weights_stock_iff`: for the fuzzy comparison this holds exactly
  for the total costs on which `a > b * 1.01` and `a > b ^ 1.01` answer
  alike (`AlikeTotals`), or where the startup costs hide the difference.
-/
namespace GreenPipeline.L3.PathCosts
open GreenPipeline.L1.Bms GreenPipeline.L3.Pathkeys

/-! ## Paths -/

/-- The flags of the parent `RelOptInfo` that the cost comparison reads. -/
structure ParentRel where
  considerStartup : Bool
  considerParamStartup : Bool
  deriving DecidableEq, Repr

/-- A `ParamPathInfo` exists only for a non-empty set of outer rels
(`get_baserel_parampathinfo` and its siblings return NULL otherwise). -/
structure ParamPathInfo where
  ppiReqOuter : Bitmapset
  nonempty : bmsIsEmpty (some ppiReqOuter) = false
  deriving DecidableEq, Repr

/-- The fields of `Path` that path comparison and path costing read.
mirrors relation.h:948-972 -/
structure Path (K : Type*) where
  parent : ParentRel
  paramInfo : Option ParamPathInfo
  parallelSafe : Bool
  parallelWorkers : Nat
  rows : K
  startupCost : K
  totalCost : K
  ioCost : K
  cpuCost : K
  powerCost : K
  pathkeys : List PathKey

variable {K : Type*}

/-- `PATH_REQ_OUTER`.
mirrors relation.h:975-976 -/
def pathReqOuter (p : Path K) : Relids := p.paramInfo.map ParamPathInfo.ppiReqOuter

/-- Parameterized paths are treated as unsorted
(pathnode.c:491, 534, 746). -/
def effectivePathkeys (p : Path K) : List PathKey := if p.paramInfo.isSome then [] else p.pathkeys

/-! ## Comparisons -/

/-- `time_weight`, `power_weight` and the C library's `log`.
mirrors pathnode.c:32-33 -/
structure Weighting (K : Type*) where
  timeWeight : K
  powerWeight : K
  log : K → K

/-- mirrors relation.h:34-37 -/
inductive CostSelector
  | startupCost
  | totalCost
  deriving DecidableEq, Repr

/-- mirrors pathnode.c:34-40 -/
inductive PathCostComparison
  | equal
  | better1
  | better2
  | different
  deriving DecidableEq, Repr

/-- `STD_FUZZ_FACTOR`.
mirrors pathnode.c:47 -/
def stdFuzzFactor [OfScientific K] : K := 1.01

section
variable [Add K] [Mul K] [LT K] [DecidableLT K]

/-- The local `total_cost1` / `total_cost2` of both comparisons. -/
def weightedCost (w : Weighting K) (p : Path K) : K :=
  w.timeWeight * w.log p.totalCost + w.powerWeight * w.log p.powerCost

/-- mirrors pathnode.c:61-112 -/
def comparePathCosts (w : Weighting K) (path1 path2 : Path K) (criterion : CostSelector) : Int :=
  let totalCost1 := weightedCost w path1
  let totalCost2 := weightedCost w path2
  match criterion with
  | .startupCost =>
    if path1.startupCost < path2.startupCost then -1
    else if path2.startupCost < path1.startupCost then 1
    else if totalCost1 < totalCost2 then -1
    else if totalCost2 < totalCost1 then 1
    else 0
  | .totalCost =>
    if totalCost1 < totalCost2 then -1
    else if totalCost2 < totalCost1 then 1
    else if path1.startupCost < path2.startupCost then -1
    else if path2.startupCost < path1.startupCost then 1
    else 0

/-- `CONSIDER_PATH_STARTUP_COST`.
mirrors pathnode.c:212-213 -/
def considerPathStartupCost (p : Path K) : Bool :=
  match p.paramInfo with
  | none => p.parent.considerStartup
  | some _ => p.parent.considerParamStartup

/-- The decision procedure of `compare_path_costs_fuzzily` on two total
costs `t1`, `t2`, whatever these are computed from.
mirrors pathnode.c:228-264 -/
def fuzzyVerdict (consider1 consider2 : Bool) (startup1 startup2 t1 t2 fuzzFactor : K) :
    PathCostComparison :=
  if t2 * fuzzFactor < t1 then
    -- path1 fuzzily worse on total cost
    if consider1 ∧ startup1 * fuzzFactor < startup2 then .different else .better2
  else if t1 * fuzzFactor < t2 then
    if consider2 ∧ startup2 * fuzzFactor < startup1 then .different else .better1
  -- fuzzily the same on total cost
  else if startup2 * fuzzFactor < startup1 then .better2
  else if startup1 * fuzzFactor < startup2 then .better1
  else .equal

/-- mirrors pathnode.c:209-267 -/
def comparePathCostsFuzzily (w : Weighting K) (path1 path2 : Path K) (fuzzFactor : K) :
    PathCostComparison :=
  fuzzyVerdict (considerPathStartupCost path1) (considerPathStartupCost path2)
    path1.startupCost path2.startupCost (weightedCost w path1) (weightedCost w path2) fuzzFactor

end

/-! ## Reflexivity and antisymmetry -/

def PathCostComparison.swap : PathCostComparison → PathCostComparison
  | .better1 => .better2
  | .better2 => .better1
  | r => r

/-- Comparing a path with itself gives `COSTS_EQUAL`, and swapping the two
paths swaps the two `COSTS_BETTER` answers and keeps the others. -/
structure FuzzyLawful (cmp : Path K → Path K → PathCostComparison) (p q : Path K) : Prop where
  refl1 : cmp p p = .equal
  refl2 : cmp q q = .equal
  better1 : cmp p q = .better1 ↔ cmp q p = .better2
  better2 : cmp p q = .better2 ↔ cmp q p = .better1
  equal : cmp p q = .equal ↔ cmp q p = .equal
  different : cmp p q = .different ↔ cmp q p = .different

theorem fuzzyLawful_of_swap {cmp : Path K → Path K → PathCostComparison} {p q : Path K}
    (hp : cmp p p = .equal) (hq : cmp q q = .equal) (h : cmp q p = (cmp p q).swap) :
    FuzzyLawful cmp p q := by
  refine ⟨hp, hq, ?_, ?_, ?_, ?_⟩ <;> rw [h] <;> cases cmp p q <;> simp [PathCostComparison.swap]

section
variable [Field K] [LinearOrder K] [IsStrictOrderedRing K]

theorem one_lt_stdFuzzFactor : (1 : K) < stdFuzzFactor := by
  unfold stdFuzzFactor; norm_num

variable {f : K}

/-- A cost is fuzzily worse than itself exactly when it is negative. -/
theorem mul_fuzz_lt_self_iff (hf : 1 < f) (t : K) : t * f < t ↔ t < 0 := by
  have h : t * f - t = t * (f - 1) := by ring
  constructor
  · intro hlt
    have : t * (f - 1) < 0 := by rw [← h]; linarith
    exact neg_of_mul_neg_left this (by linarith)
  · intro hneg
    have : t * (f - 1) < 0 := mul_neg_of_neg_of_pos hneg (by linarith)
    linarith

/-- Of two non-negative costs at most one is fuzzily worse than the other. -/
theorem fuzz_exclusive {a b : K} (hf : 1 < f) (ha : 0 ≤ a) (hb : 0 ≤ b) (h : b * f < a) :
    ¬ a * f < b := by
  have h1 := le_mul_of_one_le_right hb hf.le
  have h2 := le_mul_of_one_le_right ha hf.le
  intro h'; linarith

theorem fuzzyVerdict_self_iff (hf : 1 < f) (c : Bool) (s t : K) :
    fuzzyVerdict c c s s t t f = .equal ↔ 0 ≤ t ∧ 0 ≤ s := by
  have ht := mul_fuzz_lt_self_iff hf t
  have hs := mul_fuzz_lt_self_iff hf s
  unfold fuzzyVerdict
  by_cases h1 : t < 0
  · have := ht.2 h1
    have hn := not_le.2 h1
    simp only [this, if_true, hn, false_and, iff_false]
    split <;> simp
  · by_cases h2 : s < 0
    · simp [ht, hs, h1, h2]
    · simp [ht, hs, h1, h2, not_lt.1 h1, not_lt.1 h2]

theorem fuzzyVerdict_swap (hf : 1 < f) (c1 c2 : Bool) {s1 s2 t1 t2 : K}
    (ht1 : 0 ≤ t1) (ht2 : 0 ≤ t2) (hs1 : 0 ≤ s1) (hs2 : 0 ≤ s2) :
    fuzzyVerdict c2 c1 s2 s1 t2 t1 f = (fuzzyVerdict c1 c2 s1 s2 t1 t2 f).swap := by
  have ht := fuzz_exclusive hf ht1 ht2
  have hs := fuzz_exclusive hf hs1 hs2
  unfold fuzzyVerdict
  by_cases h1 : t2 * f < t1 <;> by_cases h2 : t1 * f < t2 <;>
    by_cases h3 : s2 * f < s1 <;> by_cases h4 : s1 * f < s2 <;> first
      | exact absurd h2 (ht h1)
      | exact absurd h4 (hs h3)
      | cases c1 <;> cases c2 <;> simp [h1, h2, h3, h4, PathCostComparison.swap]

/-- **When the fuzzy comparison is an antisymmetric one.** Reflexivity and
antisymmetry hold exactly when no weighted cost and no startup cost of the
two paths is negative. -/
theorem fuzzyLawful_iff (w : Weighting K) (p q : Path K) (f : K) (hf : 1 < f) :
    FuzzyLawful (fun a b => comparePathCostsFuzzily w a b f) p q ↔
      (0 ≤ w.timeWeight * w.log p.totalCost + w.powerWeight * w.log p.powerCost ∧
        0 ≤ p.startupCost) ∧
      (0 ≤ w.timeWeight * w.log q.totalCost + w.powerWeight * w.log q.powerCost ∧
        0 ≤ q.startupCost) := by
  have hself : ∀ a : Path K, comparePathCostsFuzzily w a a f = .equal ↔
      0 ≤ weightedCost w a ∧ 0 ≤ a.startupCost := fun a => fuzzyVerdict_self_iff hf _ _ _
  constructor
  · intro h
    exact ⟨(hself p).1 h.refl1, (hself q).1 h.refl2⟩
  · rintro ⟨hp, hq⟩
    refine fuzzyLawful_of_swap ((hself p).2 hp) ((hself q).2 hq) ?_
    exact fuzzyVerdict_swap hf _ _ hp.1 hq.1 hp.2 hq.2

end

/-- `DEFAULT_TIME_WEIGHT` and `DEFAULT_POWER_WEIGHT`.
mirrors src/include/optimizer/cost.h:31-32 -/
def defaultWeighting [One K] [Zero K] (log : K → K) : Weighting K := ⟨1, 0, log⟩

/-- An unparameterized, unsorted, parallel-safe path of a rel that does not
care about startup cost. -/
def plainPath (startup total power rows : K) [Zero K] : Path K where
  parent := ⟨false, false⟩
  paramInfo := none
  parallelSafe := true
  parallelWorkers := 0
  rows := rows
  startupCost := startup
  totalCost := total
  ioCost := 0
  cpuCost := 0
  powerCost := power
  pathkeys := []

/-- A function scan that costs 0.01 in total and draws the idle power. -/
noncomputable def cheapScan : Path ℝ := plainPath 0 0.01 39.91 1

/-- A scan of total cost 1, where the logarithm is 0. -/
noncomputable def unitScan (power : ℝ) : Path ℝ := plainPath 0 1 power 1

theorem fuzzyLawful_unitScan :
    FuzzyLawful (fun a b => comparePathCostsFuzzily (defaultWeighting Real.log) a b stdFuzzFactor)
      (unitScan 45) (unitScan 60) :=
  (fuzzyLawful_iff (defaultWeighting Real.log) (unitScan 45) (unitScan 60) stdFuzzFactor
    one_lt_stdFuzzFactor).2 (by simp [defaultWeighting, unitScan, plainPath])

theorem cheapScan_fuzzily :
    comparePathCostsFuzzily (defaultWeighting Real.log) cheapScan cheapScan stdFuzzFactor =
      .better2 := by
  have hneg : Real.log (0.01 : ℝ) < 0 := Real.log_neg (by norm_num) (by norm_num)
  have := (mul_fuzz_lt_self_iff one_lt_stdFuzzFactor (Real.log 0.01)).2 hneg
  simp [comparePathCostsFuzzily, fuzzyVerdict, weightedCost, defaultWeighting, cheapScan, plainPath,
    this, considerPathStartupCost]

/-- The cheap scan is fuzzily worse than itself: its weighted cost is
`log 0.01 < 0`. -/
theorem fuzzy_worse_than_itself :
    (0 < cheapScan.totalCost ∧ 0 < cheapScan.powerCost) ∧
    comparePathCostsFuzzily (defaultWeighting Real.log) cheapScan cheapScan stdFuzzFactor =
      .better2 ∧
    ¬ FuzzyLawful (fun a b => comparePathCostsFuzzily (defaultWeighting Real.log) a b stdFuzzFactor)
      cheapScan cheapScan := by
  refine ⟨by norm_num [cheapScan, plainPath], cheapScan_fuzzily, fun h => ?_⟩
  have := h.refl1
  rw [cheapScan_fuzzily] at this; cases this

/-! ## Default weights against stock PostgreSQL -/

section
variable [Mul K] [LT K] [DecidableLT K]

/-- The same fuzzy decision procedure on the raw total costs. -/
def stockComparePathCostsFuzzily (p q : Path K) (f : K) : PathCostComparison :=
  fuzzyVerdict (considerPathStartupCost p) (considerPathStartupCost q) p.startupCost q.startupCost
    p.totalCost q.totalCost f

/-- Answer of the fuzzy test on two total costs, `t1` tested first. -/
inductive TotalTest
  | worse1
  | worse2
  | same
  deriving DecidableEq, Repr

def totalTest (t1 t2 f : K) : TotalTest :=
  if t2 * f < t1 then .worse1 else if t1 * f < t2 then .worse2 else .same

/-- The fuzzy verdict as a function of the test on the total costs. -/
def startupVerdict (c1 c2 : Bool) (s1 s2 f : K) : TotalTest → PathCostComparison
  | .worse1 => if c1 ∧ s1 * f < s2 then .different else .better2
  | .worse2 => if c2 ∧ s2 * f < s1 then .different else .better1
  | .same => if s2 * f < s1 then .better2 else if s1 * f < s2 then .better1 else .equal

theorem fuzzyVerdict_eq (c1 c2 : Bool) (s1 s2 t1 t2 f : K) :
    fuzzyVerdict c1 c2 s1 s2 t1 t2 f = startupVerdict c1 c2 s1 s2 f (totalTest t1 t2 f) := by
  unfold fuzzyVerdict totalTest
  split
  · rfl
  · split <;> rfl

/-- Two answers of the test on the total costs lead to one verdict: they are
equal, or the startup costs decide against the same path in both cases, or
(for startup costs each fuzzily worse than the other) both are `DIFFERENT`. -/
def SameVerdict (c1 c2 : Bool) (s1 s2 f : K) (a b : TotalTest) : Prop :=
  a = b ∨
  (a ≠ .worse2 ∧ b ≠ .worse2 ∧ s2 * f < s1 ∧ ¬ (c1 = true ∧ s1 * f < s2)) ∨
  (a ≠ .worse1 ∧ b ≠ .worse1 ∧ s1 * f < s2 ∧ ¬ s2 * f < s1) ∨
  (a ≠ .same ∧ b ≠ .same ∧ c1 = true ∧ c2 = true ∧ s1 * f < s2 ∧ s2 * f < s1)

theorem startupVerdict_eq_iff (c1 c2 : Bool) (s1 s2 f : K) (a b : TotalTest) :
    startupVerdict c1 c2 s1 s2 f a = startupVerdict c1 c2 s1 s2 f b ↔
    SameVerdict c1 c2 s1 s2 f a b := by
  by_cases h1 : s1 * f < s2 <;> by_cases h2 : s2 * f < s1 <;>
    cases c1 <;> cases c2 <;> cases a <;> cases b <;> simp [startupVerdict, SameVerdict, h1, h2]

end

section
variable [Field K]

theorem weightedCost_default (log : K → K) (p : Path K) :
    weightedCost (defaultWeighting log) p = log p.totalCost := by
  simp [weightedCost, defaultWeighting]

variable [LinearOrder K]

/-- What stock PostgreSQL returns: the sign of the lexicographic comparison
of the two costs, the criterion's cost first. -/
def stockComparePathCosts (p q : Path K) (criterion : CostSelector) : Int :=
  let costs : Path K → K ×ₗ K := fun p =>
    match criterion with
    | .startupCost => toLex (p.startupCost, p.totalCost)
    | .totalCost => toLex (p.totalCost, p.startupCost)
  if costs p < costs q then -1 else if costs q < costs p then 1 else 0

/-- With the default weights the exact comparison is stock PostgreSQL's: an
increasing `log` keeps the order of the total costs. -/
theorem comparePathCosts_default {log : K → K} (hlog : StrictMonoOn log (Set.Ioi 0)) (p q : Path K)
    (hp : 0 < p.totalCost) (hq : 0 < q.totalCost) (criterion : CostSelector) :
    comparePathCosts (defaultWeighting log) p q criterion =
      stockComparePathCosts p q criterion := by
  have hpq := hlog.lt_iff_lt hp hq
  have hqp := hlog.lt_iff_lt hq hp
  cases criterion <;>
    simp only [comparePathCosts, stockComparePathCosts, weightedCost_default, hpq, hqp,
      Prod.Lex.toLex_lt_toLex]
  · rcases lt_trichotomy p.startupCost q.startupCost with h | h | h
    · simp [h]
    · simp [h]
    · simp [h, h.not_gt, h.ne']
  · rcases lt_trichotomy p.totalCost q.totalCost with h | h | h
    · simp [h]
    · simp [h]
    · simp [h, h.not_gt, h.ne']

end

/-! The 1% test on two logarithms compares a cost with a power of the other. -/

theorem log_mul_lt_log_iff {a b : ℝ} (ha : 0 < a) (hb : 0 < b) (f : ℝ) :
    Real.log b * f < Real.log a ↔ b ^ f < a := by
  rw [mul_comm, ← Real.log_rpow hb, Real.log_lt_log_iff (Real.rpow_pos_of_pos hb f) ha]

/-- Two total costs on which the 1% tests on the costs and on their logarithms
answer alike. For costs of at least one this fails exactly between
`b * 1.01` and `b ^ 1.01`, which cross at `1.01 ^ 100`; below one the test
on the logarithms finds even a smaller cost worse. -/
structure AlikeTotals (a b : ℝ) : Prop where
  worse1 : b * stdFuzzFactor < a ↔ b ^ (stdFuzzFactor : ℝ) < a
  worse2 : a ≤ b * stdFuzzFactor → (a * stdFuzzFactor < b ↔ a ^ (stdFuzzFactor : ℝ) < b)

/-- The costs for which the default weights decide as stock PostgreSQL does:
the total costs `a`, `b` are tested alike, or the startup costs `s1`, `s2`
settle it. They do against path 1 if neither test finds path 2 worse,
against path 2 if neither finds path 1 worse, and for startup costs each
more than 1% above the other if neither test finds the totals the same. -/
def StockLike (c1 c2 : Bool) (s1 s2 a b : ℝ) : Prop :=
  AlikeTotals a b ∨
  (s2 * stdFuzzFactor < s1 ∧ ¬ (c1 = true ∧ s1 * stdFuzzFactor < s2) ∧
    b ≤ a * stdFuzzFactor ∧ (b ^ (stdFuzzFactor : ℝ) < a ∨ b ≤ a ^ (stdFuzzFactor : ℝ))) ∨
  (s1 * stdFuzzFactor < s2 ∧ s1 ≤ s2 * stdFuzzFactor ∧
    a ≤ b * stdFuzzFactor ∧ a ≤ b ^ (stdFuzzFactor : ℝ)) ∨
  (c1 = true ∧ c2 = true ∧ s1 * stdFuzzFactor < s2 ∧ s2 * stdFuzzFactor < s1 ∧
    (b * stdFuzzFactor < a ∨ a * stdFuzzFactor < b) ∧
    (b ^ (stdFuzzFactor : ℝ) < a ∨ a ^ (stdFuzzFactor : ℝ) < b))

theorem sameVerdict_log_iff (c1 c2 : Bool) (s1 s2 : ℝ) {a b : ℝ} (ha : 0 < a) (hb : 0 < b) :
    SameVerdict c1 c2 s1 s2 stdFuzzFactor
      (totalTest (Real.log a) (Real.log b) stdFuzzFactor) (totalTest a b stdFuzzFactor) ↔
    StockLike c1 c2 s1 s2 a b := by
  have hraw := fuzz_exclusive one_lt_stdFuzzFactor ha.le hb.le
  have halike : AlikeTotals a b ↔ totalTest (Real.log a) (Real.log b) stdFuzzFactor =
      totalTest a b stdFuzzFactor := by
    simp only [totalTest, log_mul_lt_log_iff ha hb, log_mul_lt_log_iff hb ha]
    constructor
    · rintro ⟨h1, h2⟩
      grind
    · intro h
      constructor <;> grind
  unfold StockLike SameVerdict
  rw [halike]
  simp only [totalTest, log_mul_lt_log_iff ha hb, log_mul_lt_log_iff hb ha]
  grind

/-- **When the default weights decide like stock PostgreSQL.** The exact
comparison always does; the fuzzy one with factor 1.01 does exactly for the
costs of `StockLike`. -/
theorem default_weights_stock_iff (p q : Path ℝ) (hp : 0 < p.totalCost) (hq : 0 < q.totalCost) :
    ((∀ criterion, comparePathCosts (defaultWeighting Real.log) p q criterion =
        stockComparePathCosts p q criterion) ∧
      comparePathCostsFuzzily (defaultWeighting Real.log) p q stdFuzzFactor =
        stockComparePathCostsFuzzily p q stdFuzzFactor) ↔
    StockLike (considerPathStartupCost p) (considerPathStartupCost q) p.startupCost q.startupCost
      p.totalCost q.totalCost := by
  rw [← sameVerdict_log_iff _ _ _ _ hp hq, ← startupVerdict_eq_iff, ← fuzzyVerdict_eq,
    ← fuzzyVerdict_eq]
  unfold comparePathCostsFuzzily stockComparePathCostsFuzzily
  simp only [weightedCost_default]
  exact ⟨And.right, fun h => ⟨comparePathCosts_default Real.strictMonoOn_log p q hp hq, h⟩⟩

noncomputable def fullPrice : Path ℝ := plainPath 0 1000 45.0 1

noncomputable def halfPrice : Path ℝ := plainPath 0 500 60.0 1

/-- Costs of 1000 and 500 are more than 1% apart, and so are their logarithms:
`500 ^ 1.01` is about 532. -/
theorem default_weights_stock_halfPrice :
    comparePathCostsFuzzily (defaultWeighting Real.log) fullPrice halfPrice stdFuzzFactor =
      stockComparePathCostsFuzzily fullPrice halfPrice stdFuzzFactor := by
  have hpow : (500 : ℝ) ^ (stdFuzzFactor : ℝ) < 1000 := by
    refine lt_of_pow_lt_pow_left₀ 100 (by norm_num) ?_
    rw [← Real.rpow_natCast, ← Real.rpow_mul (by norm_num)]
    norm_num [stdFuzzFactor]
  have hmul : (500 : ℝ) * stdFuzzFactor < 1000 := by norm_num [stdFuzzFactor]
  have halike : AlikeTotals 1000 500 :=
    ⟨iff_of_true hmul hpow, fun h => absurd hmul (not_lt.2 h)⟩
  exact ((default_weights_stock_iff fullPrice halfPrice (by norm_num [fullPrice, plainPath])
    (by norm_num [halfPrice, plainPath])).2 (.inl halike)).2

/-- Two scans with the same costs of 0.01: stock PostgreSQL finds them equal,
the fork prefers the second. -/
theorem default_weights_not_stock :
    (0 < cheapScan.totalCost ∧ 0 < cheapScan.powerCost) ∧
    comparePathCostsFuzzily (defaultWeighting Real.log) cheapScan cheapScan stdFuzzFactor =
      .better2 ∧
    stockComparePathCostsFuzzily cheapScan cheapScan stdFuzzFactor = .equal := by
  refine ⟨by norm_num [cheapScan, plainPath], cheapScan_fuzzily, ?_⟩
  exact (fuzzyVerdict_self_iff one_lt_stdFuzzFactor _ _ _).2 (by norm_num [cheapScan, plainPath])

end GreenPipeline.L3.PathCosts
