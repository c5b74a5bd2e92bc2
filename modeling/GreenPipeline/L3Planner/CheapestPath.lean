import GreenPipeline.L3Planner.AddPath
import Mathlib.Algebra.Order.Field.Basic
import Mathlib.Data.Prod.Lex
import Mathlib.Tactic.FieldSimp

/-!
# Choosing among the paths of a rel (`pathnode.c`, `planner.c`, `subselect.c`)

`set_cheapest` makes one pass over the path list with three running minima:
the cheapest unparameterized path by startup cost and by total cost, and the
best parameterized path, which it stops tracking once an unparameterized one
has been seen. `get_cheapest_fractional_path` then revises the choice for a
LIMIT, and `SS_charge_for_initplans` adds the cost of the init-plans to every
path of the final rel.

`compare_path_costs` is the three-way comparison of lexicographic keys
(`comparePathCosts_eq`), so it is a total preorder for every weighting and
every `log`, and the running minima are minima. The fractional comparison
adds `power_cost` to the time cost where the total one weighs logarithms, and
the init-plan charge is added inside the logarithms: neither is the same
order again.

Sources: `src/backend/optimizer/plan/planner.c`, `src/backend/optimizer/plan/subselect.c`,
`src/backend/optimizer/util/pathnode.c`.

Results:
* `setCheapest_correct`: what `set_cheapest` stores, for every order of the
  path list.
* `compareFractional_agrees_iff`: the fractional and the total comparison of
  paths of equal startup cost agree where neither trades power for time; on a
  trade-off exactly when the saved cost and the extra power, compared as a
  difference, compare alike as powers of ratios.
* `chargeForInitplans_keeps_iff`: the init-plan charge reorders no paths but
  those that trade power for time, and these exactly when it moves the powers
  of their cost ratios past each other.
-/
namespace GreenPipeline.L3.CheapestPath
open GreenPipeline.L1.Bms GreenPipeline.L3.Pathkeys GreenPipeline.L3.PathCosts
  GreenPipeline.L3.AddPath List

variable {K : Type*}

/-! ## The functions -/

/-- The local variables of `set_cheapest`; a NULL pointer is `none`. -/
structure Running (K : Type*) where
  cheapestStartupPath : Option (Path K)
  cheapestTotalPath : Option (Path K)
  bestParamPath : Option (Path K)
  parameterizedPaths : List (Path K)

/-- The fields of `RelOptInfo` that `set_cheapest` fills in. -/
structure Cheapest (K : Type*) where
  cheapestStartupPath : Option (Path K)
  cheapestTotalPath : Option (Path K)
  cheapestUniquePath : Option (Path K)
  cheapestParameterizedPaths : List (Path K)

section
variable [Add K] [Mul K] [LT K] [DecidableLT K]

/-- The running cheapest unparameterized path after `path`: on equal costs the
better-sorted one.
mirrors pathnode.c:377-382 and 384-389 -/
def keepCheapest (w : Weighting K) (criterion : CostSelector) (cheapest path : Path K) : Path K :=
  let cmp := comparePathCosts w cheapest path criterion
  if 0 < cmp ∨ cmp = 0 ∧ comparePathkeys cheapest.pathkeys path.pathkeys = .better2 then path
  else cheapest

/-- mirrors pathnode.c:334-363 -/
def keepBestParam (w : Weighting K) (path : Path K) : Option (Path K) → Path K
  | none => path
  | some best =>
    match bmsSubsetCompare (pathReqOuter path) (pathReqOuter best) with
    | .equal => if comparePathCosts w path best .totalCost < 0 then path else best
    | .subset1 => path
    | .subset2 => best
    -- neither has the least parameterization: sit on the old path
    | .different => best

/-- The loop body of `set_cheapest`.
mirrors pathnode.c:314-391 -/
def setCheapestStep (w : Weighting K) (st : Running K) (path : Path K) : Running K :=
  if path.paramInfo.isSome then
    let st := { st with parameterizedPaths := st.parameterizedPaths ++ [path] }
    match st.cheapestTotalPath with
    | some _ => st
    | none => { st with bestParamPath := some (keepBestParam w path st.bestParamPath) }
  else
    match st.cheapestTotalPath with
    | none => { st with cheapestStartupPath := some path, cheapestTotalPath := some path }
    | some total =>
      -- both pointers are set together, so the startup path is not NULL here
      { st with
        cheapestStartupPath := st.cheapestStartupPath.map (keepCheapest w .startupCost · path)
        cheapestTotalPath := some (keepCheapest w .totalCost total path) }

/-- mirrors pathnode.c:297-414 -/
def setCheapest (w : Weighting K) (pathlist : List (Path K)) : Except String (Cheapest K) :=
  if pathlist.isEmpty then .error "could not devise a query plan for the given query"
  else
    let st := pathlist.foldl (setCheapestStep w) ⟨none, none, none, []⟩
    .ok {
      cheapestStartupPath := st.cheapestStartupPath
      cheapestTotalPath := st.cheapestTotalPath.or st.bestParamPath
      cheapestUniquePath := none
      cheapestParameterizedPaths := st.cheapestTotalPath.toList ++ st.parameterizedPaths }

end

section
variable [Add K] [Sub K] [Mul K] [Zero K] [One K] [LT K] [DecidableLT K] [LE K] [DecidableLE K]

/-- mirrors pathnode.c:123-153 -/
def compareFractionalPathCosts (w : Weighting K) (path1 path2 : Path K) (fraction : K) : Int :=
  if fraction ≤ 0 ∨ 1 ≤ fraction then comparePathCosts w path1 path2 .totalCost
  else
    let cost1 := path1.startupCost + fraction * (path1.totalCost - path1.startupCost)
    let cost2 := path2.startupCost + fraction * (path2.totalCost - path2.startupCost)
    let cost1' := if 0 < w.powerWeight then cost1 + fraction * path1.powerCost else cost1
    let cost2' := if 0 < w.powerWeight then cost2 + fraction * path2.powerCost else cost2
    if cost1' < cost2' then -1 else if cost2' < cost1' then 1 else 0

/-- An absolute number of tuples as a fraction of the best path's rows.
mirrors planner.c:5809-5810 -/
def fractionOf [Div K] (tupleFraction rows : K) : K :=
  if 1 ≤ tupleFraction ∧ 0 < rows then tupleFraction / rows else tupleFraction

/-- The loop body; paths are compared by address, so a path is its position in
`pathlist` here.
mirrors planner.c:5814-5820 -/
def fractionalStep (w : Weighting K) (pathlist : List (Path K))
    (cheapestTotalPath : Fin pathlist.length) (fraction : K) (bestPath path : Fin pathlist.length) :
    Fin pathlist.length :=
  if path = cheapestTotalPath ∨
    compareFractionalPathCosts w (pathlist.get bestPath) (pathlist.get path) fraction ≤
    0 then bestPath
  else path

/-- mirrors planner.c:5799-5825 -/
def getCheapestFractionalPath [Div K] (w : Weighting K) (pathlist : List (Path K))
    (cheapestTotalPath : Fin pathlist.length) (tupleFraction : K) : Fin pathlist.length :=
  if tupleFraction ≤ 0 then cheapestTotalPath
  else
    let fraction := fractionOf tupleFraction (pathlist.get cheapestTotalPath).rows
    (List.finRange pathlist.length).foldl (fractionalStep w pathlist cheapestTotalPath fraction)
      cheapestTotalPath

end

/-- The two costs of a `SubPlan`.
mirrors src/include/nodes/primnodes.h:693-732 -/
structure SubPlan (K : Type*) where
  startupCost : K
  perCallCost : K

section
variable [Add K] [Zero K]

/-- mirrors subselect.c:2153-2165 -/
def initplanCost (initPlans : List (SubPlan K)) : K :=
  initPlans.foldl (fun cost sub => cost + (sub.startupCost + sub.perCallCost)) 0

/-- mirrors subselect.c:2174-2181 -/
def chargePath (initplanCost : K) (path : Path K) : Path K :=
  { path with
    startupCost := path.startupCost + initplanCost
    totalCost := path.totalCost + initplanCost
    ioCost := path.ioCost + initplanCost
    cpuCost := path.cpuCost + initplanCost
    powerCost := path.powerCost + initplanCost
    parallelSafe := false }

/-- mirrors subselect.c:2138-2185 -/
def ssChargeForInitplans (initPlans : List (SubPlan K)) (finalRel : RelOptInfo K) : RelOptInfo K :=
  if initPlans.isEmpty then finalRel
  else { finalRel with pathlist := finalRel.pathlist.map (chargePath (initplanCost initPlans)) }

end

/-! ## The comparison as an order -/

section
variable {α : Type*} [LinearOrder α]

/-- The three-way result of the C comparison functions. -/
def threeWay (a b : α) : Int := if a < b then -1 else if b < a then 1 else 0

theorem threeWay_nonpos_iff {a b : α} : threeWay a b ≤ 0 ↔ a ≤ b := by
  unfold threeWay
  rcases lt_trichotomy a b with h | h | h
  · simp [h, h.le]
  · simp [h]
  · simp [h, h.not_gt]

theorem threeWay_neg_iff {a b : α} : threeWay a b < 0 ↔ a < b := by
  unfold threeWay
  rcases lt_trichotomy a b with h | h | h
  · simp [h]
  · simp [h]
  · simp [h, h.not_gt]

theorem threeWay_eq_iff {β : Type*} [LinearOrder β] {a b : α} {c d : β} :
    threeWay a b = threeWay c d ↔ (a < b ↔ c < d) ∧ (b < a ↔ d < c) := by
  unfold threeWay
  rcases lt_trichotomy a b with h | h | h <;> rcases lt_trichotomy c d with h' | h' | h' <;>
    simp [h, h', h.not_gt, h'.not_gt]

end

variable {w : Weighting K}

section
variable [Add K] [Mul K] [LinearOrder K]

/-- What `compare_path_costs` compares lexicographically. -/
def costKey (w : Weighting K) (criterion : CostSelector) (p : Path K) : K ×ₗ K :=
  match criterion with
  | .startupCost => toLex (p.startupCost, weightedCost w p)
  | .totalCost => toLex (weightedCost w p, p.startupCost)

theorem comparePathCosts_eq (w : Weighting K) (p q : Path K) (criterion : CostSelector) :
    comparePathCosts w p q criterion =
      threeWay (costKey w criterion p) (costKey w criterion q) := by
  cases criterion <;>
    simp only [comparePathCosts, threeWay, costKey, Prod.Lex.toLex_lt_toLex]
  · rcases lt_trichotomy p.startupCost q.startupCost with h | h | h
    · simp [h]
    · simp [h]
    · simp [h, h.not_gt, h.ne']
  · rcases lt_trichotomy (weightedCost w p) (weightedCost w q) with h | h | h
    · simp [h]
    · simp [h]
    · simp [h, h.not_gt, h.ne']

variable {criterion : CostSelector} {l : List (Path K)}

@[simp] theorem comparePathCosts_nonpos_iff {p q : Path K} :
    comparePathCosts w p q criterion ≤ 0 ↔ costKey w criterion p ≤ costKey w criterion q := by
  rw [comparePathCosts_eq, threeWay_nonpos_iff]

theorem comparePathCosts_neg_iff {p q : Path K} :
    comparePathCosts w p q criterion < 0 ↔ costKey w criterion p < costKey w criterion q := by
  rw [comparePathCosts_eq, threeWay_neg_iff]

/-! ## `set_cheapest` -/

/-- `p` is one of the `candidates`, and none of them is cheaper. -/
def CheapestOf (w : Weighting K) (criterion : CostSelector) (candidates : List (Path K))
    (p : Path K) :
    Prop :=
  p ∈ candidates ∧ ∀ q ∈ candidates, comparePathCosts w p q criterion ≤ 0

/-- The paths of a list without (with) a parameterization. -/
def unparameterized (l : List (Path K)) : List (Path K) := l.filter (fun p => p.paramInfo.isNone)

def parameterized (l : List (Path K)) : List (Path K) := l.filter (fun p => p.paramInfo.isSome)

/-- The replacement test keeps the running path a minimum; the pathkeys only
choose between paths of equal cost. -/
theorem keepCheapest_cases (w : Weighting K) (criterion : CostSelector) (cheapest path : Path K) :
    (keepCheapest w criterion cheapest path = path ∧
      comparePathCosts w path cheapest criterion ≤ 0) ∨
    (keepCheapest w criterion cheapest path = cheapest ∧
      comparePathCosts w cheapest path criterion ≤ 0) := by
  unfold keepCheapest
  by_cases hle : comparePathCosts w cheapest path criterion ≤ 0
  · by_cases hkeys : comparePathCosts w cheapest path criterion = 0 ∧
      comparePathkeys cheapest.pathkeys path.pathkeys = .better2
    · have hge : comparePathCosts w path cheapest criterion ≤ 0 := by
        rw [comparePathCosts_nonpos_iff, ← not_lt, ← comparePathCosts_neg_iff, hkeys.1]
        exact lt_irrefl 0
      simp [hkeys, hge]
    · simp [hle, hkeys, not_lt.2 hle]
  · have hge : comparePathCosts w path cheapest criterion ≤ 0 := by
      simp only [comparePathCosts_nonpos_iff, not_le] at hle ⊢
      exact hle.le
    simp [not_le.1 hle, hge]

theorem CheapestOf.snoc {p : Path K} (h : CheapestOf w criterion l p) (path : Path K) :
    CheapestOf w criterion (l ++ [path]) (keepCheapest w criterion p path) := by
  obtain ⟨hmem, hmin⟩ := h
  simp only [comparePathCosts_nonpos_iff] at hmin
  rcases keepCheapest_cases w criterion p path with ⟨he, hle⟩ | ⟨he, hle⟩ <;> rw [he] <;>
    simp only [comparePathCosts_nonpos_iff] at hle
  · refine ⟨by simp, fun q hq => ?_⟩
    rcases mem_append.1 hq with hq | hq
    · simpa using hle.trans (hmin q hq)
    · simp [mem_singleton.1 hq]
  · refine ⟨by simp [hmem], fun q hq => ?_⟩
    rcases mem_append.1 hq with hq | hq
    · simpa using hmin q hq
    · simpa [mem_singleton.1 hq] using hle

/-- `b` is one of the paths `l`; no path of `l` needs strictly less than `b`,
and none that needs the same is cheaper. This is what the pass keeps about
`best_param_path`, with incomparable sets left out of account. -/
structure BestParam (w : Weighting K) (l : List (Path K)) (b : Path K) : Prop where
  mem : b ∈ l
  least : ∀ q ∈ l, Subset (pathReqOuter q) (pathReqOuter b) →
    Subset (pathReqOuter b) (pathReqOuter q)
  cheapest : ∀ q ∈ l, Subset (pathReqOuter q) (pathReqOuter b) →
    costKey w .totalCost b ≤ costKey w .totalCost q

theorem BestParam.first (w : Weighting K) (path : Path K) :
    BestParam w [path] (keepBestParam w path none) where
  mem := by simp [keepBestParam]
  least q hq h := by simpa [keepBestParam, mem_singleton.1 hq] using h
  cheapest q hq _ := by simp [keepBestParam, mem_singleton.1 hq]

/-- Keeping the old best path, which does not need more than the new one or
is incomparable with it. -/
theorem BestParam.keep {b path : Path K} (h : BestParam w l b)
    (hless : Subset (pathReqOuter path) (pathReqOuter b) →
      Subset (pathReqOuter b) (pathReqOuter path) ∧
      costKey w .totalCost b ≤ costKey w .totalCost path) :
    BestParam w (l ++ [path]) b where
  mem := by simp [h.mem]
  least q hq hs := by
    rcases mem_append.1 hq with hq | hq
    · exact h.least q hq hs
    · rw [mem_singleton.1 hq] at hs ⊢
      exact (hless hs).1
  cheapest q hq hs := by
    rcases mem_append.1 hq with hq | hq
    · exact h.cheapest q hq hs
    · rw [mem_singleton.1 hq] at hs ⊢
      exact (hless hs).2

/-- Taking the new path, which needs no more than the old best one, and is
cheaper if it needs the same. -/
theorem BestParam.replace {b path : Path K} (h : BestParam w l b)
    (hsub : Subset (pathReqOuter path) (pathReqOuter b))
    (hless : Subset (pathReqOuter b) (pathReqOuter path) →
      costKey w .totalCost path ≤ costKey w .totalCost b) :
    BestParam w (l ++ [path]) path where
  mem := by simp
  least q hq hs := by
    rcases mem_append.1 hq with hq | hq
    · exact hsub.trans (h.least q hq (hs.trans hsub))
    · rw [mem_singleton.1 hq]
      exact Subset.refl _
  cheapest q hq hs := by
    rcases mem_append.1 hq with hq | hq
    · have hb := h.least q hq (hs.trans hsub)
      exact (hless (hb.trans hs)).trans (h.cheapest q hq (hs.trans hsub))
    · simp [mem_singleton.1 hq]

theorem BestParam.snoc {b : Path K} (h : BestParam w l b) (path : Path K) :
    BestParam w (l ++ [path]) (keepBestParam w path (some b)) := by
  have hle := bmsSubsetCompare_le (pathReqOuter path) (pathReqOuter b)
  have hge := bmsSubsetCompare_ge (pathReqOuter path) (pathReqOuter b)
  simp only [BMSComparison.Le, BMSComparison.Ge] at hle hge
  cases hcmp : bmsSubsetCompare (pathReqOuter path) (pathReqOuter b) <;>
    simp only [hcmp, reduceCtorEq, or_true, or_self, or_false, true_iff, false_iff] at hle hge <;>
    simp only [keepBestParam, hcmp]
  case equal =>
    simp only [comparePathCosts_neg_iff]
    split
    case isTrue hlt => exact h.replace hle fun _ => hlt.le
    case isFalse hlt => exact h.keep fun _ => ⟨hge, not_lt.1 hlt⟩
  case subset1 => exact h.replace hle fun hs => absurd hs hge
  case subset2 => exact h.keep fun hs => absurd hs hle
  case different => exact h.keep fun hs => absurd hs hle

/-- What the pass has computed after the paths `seen`: nothing, only the best
parameterized path, or (whatever became of that one) the two minima over the
unparameterized paths. -/
inductive Inv (w : Weighting K) (seen : List (Path K)) : Running K → Prop
  | start : seen = [] → Inv w seen ⟨none, none, none, parameterized seen⟩
  | onlyParam {b : Path K} : unparameterized seen = [] → BestParam w seen b →
      Inv w seen ⟨none, none, some b, parameterized seen⟩
  | found {s t : Path K} {best : Option (Path K)} :
      CheapestOf w .startupCost (unparameterized seen) s →
      CheapestOf w .totalCost (unparameterized seen) t →
      Inv w seen ⟨some s, some t, best, parameterized seen⟩

theorem Inv.step {seen : List (Path K)} {st : Running K} (h : Inv w seen st) (path : Path K) :
    Inv w (seen ++ [path]) (setCheapestStep w st path) := by
  cases hp : path.paramInfo with
  | some info =>
    have hun : unparameterized (seen ++ [path]) = unparameterized seen := by
      simp [unparameterized, hp]
    have hpar : parameterized seen ++ [path] = parameterized (seen ++ [path]) := by
      simp [parameterized, hp]
    cases h with
    | start hs =>
      simp only [setCheapestStep, hp, Option.isSome_some, if_true, hpar]
      exact .onlyParam (hun.trans (by simp [hs, unparameterized]))
        (by simpa [hs] using BestParam.first w path)
    | onlyParam hnone hbest =>
      simp only [setCheapestStep, hp, Option.isSome_some, if_true, hpar]
      exact .onlyParam (hun.trans hnone) (hbest.snoc path)
    | found hs ht =>
      simp only [setCheapestStep, hp, Option.isSome_some, if_true, hpar]
      exact .found (hun ▸ hs) (hun ▸ ht)
  | none =>
    have hun : unparameterized (seen ++ [path]) = unparameterized seen ++ [path] := by
      simp [unparameterized, hp]
    have hpar : parameterized (seen ++ [path]) = parameterized seen := by
      simp [parameterized, hp]
    have hfirst : ∀ criterion, unparameterized seen = [] →
        CheapestOf w criterion (unparameterized (seen ++ [path])) path := by
      intro criterion hnone
      simp [CheapestOf, hun, hnone]
    cases h with
    | start hs =>
      simp only [setCheapestStep, hp, Option.isSome_none, Bool.false_eq_true, if_false, ← hpar]
      exact .found (hfirst _ (by simp [hs, unparameterized]))
        (hfirst _ (by simp [hs, unparameterized]))
    | onlyParam hnone hbest =>
      simp only [setCheapestStep, hp, Option.isSome_none, Bool.false_eq_true, if_false, ← hpar]
      exact .found (hfirst _ hnone) (hfirst _ hnone)
    | found hs ht =>
      simp only [setCheapestStep, hp, Option.isSome_none, Bool.false_eq_true, if_false, ← hpar,
        Option.map_some]
      exact .found (hun ▸ hs.snoc path) (hun ▸ ht.snoc path)

theorem Inv.foldl : ∀ (l seen : List (Path K)) (st : Running K), Inv w seen st →
    Inv w (seen ++ l) (l.foldl (setCheapestStep w) st)
  | [], seen, _, h => by simpa using h
  | path :: l, seen, st, h => by
    have := Inv.foldl l (seen ++ [path]) (setCheapestStep w st path) (h.step path)
    simpa using this

/-- **`set_cheapest` finds the cheapest paths**, for every weighting and every
order of the path list: with an unparameterized path in the list the stored
paths are minima among the unparameterized ones and the parameterized paths
follow in list order; without one, if some path needs least, the total path
is a cheapest one among those that need as little. -/
theorem setCheapest_correct (w : Weighting K) (pathlist : List (Path K)) (hne : pathlist ≠ []) :
    ∃ rel, setCheapest w pathlist = .ok rel ∧
      (unparameterized pathlist ≠ [] → ∃ startup total,
        rel.cheapestStartupPath = some startup ∧
        CheapestOf w .startupCost (unparameterized pathlist) startup ∧
        rel.cheapestTotalPath = some total ∧
        CheapestOf w .totalCost (unparameterized pathlist) total ∧
        rel.cheapestParameterizedPaths = total :: parameterized pathlist) ∧
      (unparameterized pathlist = [] → rel.cheapestStartupPath = none ∧
        ∀ least ∈ pathlist, (∀ q ∈ pathlist, Subset (pathReqOuter least) (pathReqOuter q)) →
          ∃ total, rel.cheapestTotalPath = some total ∧ total ∈ pathlist ∧
            Subset (pathReqOuter total) (pathReqOuter least) ∧
            ∀ q ∈ pathlist, Subset (pathReqOuter q) (pathReqOuter least) →
              comparePathCosts w total q .totalCost ≤ 0) := by
  have hinv : Inv w pathlist (pathlist.foldl (setCheapestStep w) ⟨none, none, none, []⟩) :=
    Inv.foldl pathlist [] _ (.start rfl)
  simp only [setCheapest, List.isEmpty_iff, hne, if_false, Except.ok.injEq, exists_eq_left']
  generalize pathlist.foldl (setCheapestStep w) ⟨none, none, none, []⟩ = st at hinv
  cases hinv with
  | start hs => exact absurd hs hne
  | onlyParam hnone hbest =>
    refine ⟨fun h => absurd hnone h, fun _ => ⟨rfl, fun least hl hleast => ?_⟩⟩
    have hsub := hbest.least least hl (hleast _ hbest.mem)
    refine ⟨_, rfl, hbest.mem, hsub, fun q hq hqs => ?_⟩
    simpa using hbest.cheapest q hq (hqs.trans (hleast _ hbest.mem))
  | found hs ht =>
    exact ⟨fun _ => ⟨_, _, rfl, hs, rfl, ht, rfl⟩, fun h => by simp [h, CheapestOf] at hs⟩

end

/-- A nested-loop inner scan that needs rel 1 from outside. -/
def innerScan : Path ℚ :=
  { plainPath 0 2 45 1 with paramInfo := some ⟨⟨[2]⟩, by decide⟩ }

theorem setCheapest_correct_innerScan : ∃ rel total,
    setCheapest ⟨1, 1, id⟩ [innerScan, plainPath 0 9 40 1, plainPath 1 8 41 1] = .ok rel ∧
    rel.cheapestTotalPath = some total ∧ rel.cheapestParameterizedPaths = [total, innerScan] := by
  obtain ⟨rel, hok, hun, -⟩ := setCheapest_correct (⟨1, 1, id⟩ : Weighting ℚ)
    [innerScan, plainPath 0 9 40 1, plainPath 1 8 41 1] (by simp)
  obtain ⟨-, total, -, -, htotal, -, hparams⟩ :=
    hun (by simp [unparameterized, innerScan, plainPath])
  exact ⟨rel, total, hok, htotal, by simpa [parameterized, innerScan, plainPath] using hparams⟩

/-! ## The fractional comparison -/

section
variable [Field K] [LinearOrder K]

/-- The `cost1` / `cost2` of the fractional comparison. -/
def fractionalCost (w : Weighting K) (fraction : K) (p : Path K) : K :=
  p.startupCost + fraction * (p.totalCost - p.startupCost) + if 0 < w.powerWeight then
    fraction * p.powerCost else 0

theorem compareFractional_eq {fraction : K} (h0 : 0 < fraction) (h1 : fraction < 1)
    (w : Weighting K) (p q : Path K) :
    compareFractionalPathCosts w p q fraction =
      threeWay (fractionalCost w fraction p) (fractionalCost w fraction q) := by
  simp only [compareFractionalPathCosts, not_le.2 h0, not_le.2 h1, or_self, if_false, threeWay,
    fractionalCost]
  by_cases hw : 0 < w.powerWeight <;> simp [hw]

end

section
variable {t e : ℝ}

theorem mul_log_lt_iff {c a b : ℝ} (hc : 0 ≤ c) (ha : 0 < a) (hb : 0 < b) :
    c * Real.log a < c * Real.log b ↔ 0 < c ∧ a < b := by
  rcases hc.eq_or_lt with rfl | hc
  · simp
  · simp [mul_lt_mul_iff_right₀ hc, Real.log_lt_log_iff ha hb, hc]

/-- Weighted logarithms of two pairs of costs that do not trade one cost for
the other compare as the costs do. -/
theorem weighted_lt_iff_of_aligned {a a' b b' : ℝ} (ht : 0 ≤ t) (he : 0 ≤ e)
    (ha : 0 < a) (ha' : 0 < a') (hb : 0 < b) (hb' : 0 < b')
    (h : 0 < t → 0 < e → ¬ (a < a' ∧ b' < b) ∧ ¬ (a' < a ∧ b < b')) :
    t * Real.log a + e * Real.log b < t * Real.log a' + e * Real.log b' ↔
      0 < t ∧ a < a' ∨ 0 < e ∧ b < b' := by
  have hlt := mul_log_lt_iff ht ha ha'
  have hgt := mul_log_lt_iff ht ha' ha
  have hlt' := mul_log_lt_iff he hb hb'
  have hgt' := mul_log_lt_iff he hb' hb
  rw [← hlt, ← hlt']
  constructor
  · intro hsum
    by_contra hcon
    rw [not_or, not_lt, not_lt] at hcon
    linarith
  -- a strict step in one summand is not undone by the other
  · rintro (hx | hy)
    · have : ¬ e * Real.log b' < e * Real.log b := by grind
      linarith [not_lt.1 this]
    · have : ¬ t * Real.log a' < t * Real.log a := by grind
      linarith [not_lt.1 this]

/-- In general the ratios of the costs compare, raised to the weights. -/
theorem weighted_lt_iff_rpow (t e : ℝ) {a a' b b' : ℝ} (ha : 0 < a) (ha' : 0 < a') (hb : 0 < b)
    (hb' : 0 < b') :
    (t * Real.log a + e * Real.log b < t * Real.log a' + e * Real.log b' ↔
      (b / b') ^ e < (a' / a) ^ t) ∧
    (t * Real.log a' + e * Real.log b' < t * Real.log a + e * Real.log b ↔
      (a' / a) ^ t < (b / b') ^ e) := by
  have hb0 := div_pos hb hb'
  have ha0 := div_pos ha' ha
  rw [← Real.log_lt_log_iff (Real.rpow_pos_of_pos hb0 e) (Real.rpow_pos_of_pos ha0 t),
    ← Real.log_lt_log_iff (Real.rpow_pos_of_pos ha0 t) (Real.rpow_pos_of_pos hb0 e),
    Real.log_rpow hb0, Real.log_rpow ha0, Real.log_div hb.ne' hb'.ne',
    Real.log_div ha'.ne' ha.ne', mul_sub, mul_sub]
  constructor <;> constructor <;> intro h <;> linarith

structure PositiveCosts (p : Path ℝ) : Prop where
  total : 0 < p.totalCost
  power : 0 < p.powerCost

/-- `p` takes less time than `q` and draws more power. -/
def TradesPower (p q : Path ℝ) : Prop := p.totalCost < q.totalCost ∧ q.powerCost < p.powerCost

/-- Of two paths that trade power for time, the fractional comparison weighs
the cost saved against the power added, the total one the ratios raised to
the weights. They come to the same result. -/
@[mk_iff]
structure TradeAgrees (t e : ℝ) (p q : Path ℝ) : Prop where
  wins : p.powerCost - q.powerCost < q.totalCost - p.totalCost ↔
    (p.powerCost / q.powerCost) ^ e < (q.totalCost / p.totalCost) ^ t
  loses : q.totalCost - p.totalCost < p.powerCost - q.powerCost ↔
    (q.totalCost / p.totalCost) ^ t < (p.powerCost / q.powerCost) ^ e

theorem fractionalCost_lt_iff (he : 0 < e) {fraction : ℝ} (h0 : 0 < fraction) {p q : Path ℝ}
    (hs : p.startupCost = q.startupCost) :
    fractionalCost ⟨t, e, Real.log⟩ fraction p < fractionalCost ⟨t, e, Real.log⟩ fraction q ↔
      p.totalCost + p.powerCost < q.totalCost + q.powerCost := by
  have hsum : ∀ a : Path ℝ, fractionalCost ⟨t, e, Real.log⟩ fraction a =
      (1 - fraction) * a.startupCost + fraction * (a.totalCost + a.powerCost) := by
    intro a
    simp only [fractionalCost, he, if_true]
    ring
  rw [hsum, hsum, hs, add_lt_add_iff_left, mul_lt_mul_iff_right₀ h0]

theorem costKey_lt_iff {w : Weighting ℝ} {p q : Path ℝ} (hs : p.startupCost = q.startupCost) :
    costKey w .totalCost p < costKey w .totalCost q ↔ weightedCost w p < weightedCost w q := by
  simp [costKey, Prod.Lex.toLex_lt_toLex, hs]

/-- The sums stand for the LIMIT's scale, the logarithms for the other. -/
theorem tradeAgrees_iff_lt {p q : Path ℝ} (hp : PositiveCosts p) (hq : PositiveCosts q) :
    TradeAgrees t e p q ↔
      (p.totalCost + p.powerCost < q.totalCost + q.powerCost ↔
        weightedCost ⟨t, e, Real.log⟩ p < weightedCost ⟨t, e, Real.log⟩ q) ∧
      (q.totalCost + q.powerCost < p.totalCost + p.powerCost ↔
        weightedCost ⟨t, e, Real.log⟩ q < weightedCost ⟨t, e, Real.log⟩ p) := by
  obtain ⟨hlt, hgt⟩ := weighted_lt_iff_rpow t e hp.total hq.total hp.power hq.power
  have hwins : p.powerCost - q.powerCost < q.totalCost - p.totalCost ↔
      p.totalCost + p.powerCost < q.totalCost + q.powerCost := by
    constructor <;> intro h <;> linarith
  have hloses : q.totalCost - p.totalCost < p.powerCost - q.powerCost ↔
      q.totalCost + q.powerCost < p.totalCost + p.powerCost := by
    constructor <;> intro h <;> linarith
  rw [tradeAgrees_iff, hwins, hloses, ← hlt, ← hgt]
  rfl

/-- **When a LIMIT does not change the comparison.** For paths of equal startup
cost and a fraction below one, the fractional comparison agrees with the total
one exactly when a trade of power for time is judged alike in both scales,
and, at equal power, time has a weight or is equal too. -/
theorem compareFractional_agrees_iff (ht : 0 ≤ t) (he : 0 < e) {p q : Path ℝ}
    (hp : PositiveCosts p) (hq : PositiveCosts q) (hs : p.startupCost = q.startupCost)
    (fraction : ℝ) (h0 : 0 < fraction) (h1 : fraction < 1) :
    compareFractionalPathCosts ⟨t, e, Real.log⟩ p q fraction =
        comparePathCosts ⟨t, e, Real.log⟩ p q .totalCost ↔
      (TradesPower p q → TradeAgrees t e p q) ∧ (TradesPower q p → TradeAgrees t e q p) ∧
      (p.powerCost = q.powerCost → 0 < t ∨ p.totalCost = q.totalCost) := by
  rw [compareFractional_eq h0 h1, comparePathCosts_eq, threeWay_eq_iff,
    fractionalCost_lt_iff he h0 hs, fractionalCost_lt_iff he h0 hs.symm, costKey_lt_iff hs,
    costKey_lt_iff hs.symm]
  by_cases hpq : TradesPower p q
  · have hqp : ¬ TradesPower q p := fun h => lt_asymm h.1 hpq.1
    simp [hpq, hqp, tradeAgrees_iff_lt hp hq, hpq.2.ne']
  by_cases hqp : TradesPower q p
  · simp [hpq, hqp, tradeAgrees_iff_lt hq hp, hqp.2.ne, and_comm]
  -- no trade-off: both scales follow the costs
  have hw := weighted_lt_iff_of_aligned ht he.le hp.total hq.total hp.power hq.power
    fun _ _ => ⟨hpq, hqp⟩
  have hw' := weighted_lt_iff_of_aligned ht he.le hq.total hp.total hq.power hp.power
    fun _ _ => ⟨hqp, hpq⟩
  unfold TradesPower at hpq hqp ⊢
  unfold weightedCost
  rw [hw, hw']
  grind

end

/-- The time-energy product as the weighting: both weights 1. -/
noncomputable def productWeighting : Weighting ℝ := ⟨1, 1, Real.log⟩

/-- With both weights 1 the weighted cost is the logarithm of the product. -/
theorem weightedCost_product {s t p r : ℝ} (ht : 0 < t) (hp : 0 < p) :
    weightedCost productWeighting (plainPath s t p r) = Real.log (t * p) := by
  simp [weightedCost, productWeighting, plainPath, Real.log_mul ht.ne' hp.ne']

/-- Half as much power again for a quarter of the time pays in both scales. -/
theorem compareFractional_agrees_quarterTime :
    compareFractionalPathCosts productWeighting (plainPath 0 50 60 1) (plainPath 0 200 40 1) 0.5 =
      comparePathCosts productWeighting (plainPath 0 50 60 1) (plainPath 0 200 40 1)
        .totalCost := by
  refine (compareFractional_agrees_iff zero_le_one one_pos (p := plainPath 0 50 60 1)
    (q := plainPath 0 200 40 1) ?_ ?_ rfl 0.5 (by norm_num) (by norm_num)).2 ⟨fun _ => ?_, ?_, ?_⟩
  · constructor <;> norm_num [plainPath]
  · constructor <;> norm_num [plainPath]
  · constructor <;> norm_num [plainPath]
  · norm_num [TradesPower, plainPath]
  · norm_num [plainPath]

/-- A slow plan of low power: the smaller product (4000), the larger sum (140). -/
noncomputable def frugalPlan : Path ℝ := plainPath 1 100.0 40.0 1000.0

/-- A fast plan of high power: the larger product (4200), the smaller sum (130). -/
noncomputable def fastPlan : Path ℝ := plainPath 1 60.0 70.0 1000.0

theorem frugalPlan_lt_fastPlan :
    weightedCost productWeighting frugalPlan < weightedCost productWeighting fastPlan := by
  unfold frugalPlan fastPlan
  rw [weightedCost_product (by norm_num) (by norm_num),
    weightedCost_product (by norm_num) (by norm_num)]
  exact Real.log_lt_log (by norm_num) (by norm_num)

/-- The frugal plan wins for all rows and loses for half of them, although both
start at cost 1; the plan chosen for the LIMIT flips. -/
theorem limit_flips_plan :
    (0 < productWeighting.powerWeight ∧ frugalPlan.startupCost = fastPlan.startupCost) ∧
    comparePathCosts productWeighting frugalPlan fastPlan .totalCost = -1 ∧
    compareFractionalPathCosts productWeighting frugalPlan fastPlan 0.5 = 1 ∧
    getCheapestFractionalPath productWeighting [frugalPlan, fastPlan] ⟨0, by simp⟩ 0 =
      ⟨0, by simp⟩ ∧
    getCheapestFractionalPath productWeighting [frugalPlan, fastPlan] ⟨0, by simp⟩ 0.5 =
      ⟨1, by simp⟩ := by
  have hfrac : compareFractionalPathCosts productWeighting frugalPlan fastPlan 0.5 = 1 := by
    norm_num [compareFractionalPathCosts, productWeighting, frugalPlan, fastPlan, plainPath]
  refine ⟨⟨by norm_num [productWeighting], rfl⟩, ?_, hfrac, ?_, ?_⟩
  · simp [comparePathCosts, frugalPlan_lt_fastPlan]
  · simp [getCheapestFractionalPath]
  · have hnot : ¬ (0.5 : ℝ) ≤ 0 := by norm_num
    have hone : ¬ (1 : ℝ) ≤ 0.5 := by norm_num
    simp [getCheapestFractionalPath, hnot, hone, fractionOf, fractionalStep, finRange_succ, hfrac]

/-! ## Charging the init-plans -/

theorem ssChargeForInitplans_pathlist [AddMonoid K] (initPlans : List (SubPlan K))
    (rel : RelOptInfo K) :
    ∃ charge : Path K → Path K, (ssChargeForInitplans initPlans rel).pathlist =
      rel.pathlist.map charge ∧
      ∀ p, (charge p).startupCost = p.startupCost + initplanCost initPlans ∧
        (charge p).totalCost = p.totalCost + initplanCost initPlans ∧
        (charge p).powerCost = p.powerCost + initplanCost initPlans := by
  cases initPlans with
  | nil => exact ⟨id, by simp [ssChargeForInitplans], by simp [initplanCost]⟩
  | cons sub rest => exact ⟨chargePath _, rfl, fun p => ⟨rfl, rfl, rfl⟩⟩

section
variable {t e : ℝ}

/-- The weighted cost once `d` has been added to both costs. -/
def chargedCost (w : Weighting ℝ) (d : ℝ) (p : Path ℝ) : ℝ :=
  w.timeWeight * w.log (p.totalCost + d) + w.powerWeight * w.log (p.powerCost + d)

/-- With a charge of `d` the faster path `p` is worth its power: the ratio of
the powers, raised to `power_weight`, is below the ratio of the times, raised
to `time_weight`, or the same and `p` starts earlier. -/
def WinsTrade (t e d : ℝ) (p q : Path ℝ) : Prop :=
  ((p.powerCost + d) / (q.powerCost + d)) ^ e < ((q.totalCost + d) / (p.totalCost + d)) ^ t ∨
  ((p.powerCost + d) / (q.powerCost + d)) ^ e = ((q.totalCost + d) / (p.totalCost + d)) ^ t ∧
    p.startupCost < q.startupCost

def LosesTrade (t e d : ℝ) (p q : Path ℝ) : Prop :=
  ((q.totalCost + d) / (p.totalCost + d)) ^ t < ((p.powerCost + d) / (q.powerCost + d)) ^ e ∨
  ((q.totalCost + d) / (p.totalCost + d)) ^ t = ((p.powerCost + d) / (q.powerCost + d)) ^ e ∧
    q.startupCost < p.startupCost

/-- A charge of `d` does not turn a trade of power for time round. -/
def KeepsTrade (t e d : ℝ) (p q : Path ℝ) : Prop :=
  (WinsTrade t e d p q ↔ WinsTrade t e 0 p q) ∧ (LosesTrade t e d p q ↔ LosesTrade t e 0 p q)

theorem winsTrade_iff {d : ℝ} (hd : 0 ≤ d) {p q : Path ℝ} (hp : PositiveCosts p)
    (hq : PositiveCosts q) :
    (WinsTrade t e d p q ↔ toLex (chargedCost ⟨t, e, Real.log⟩ d p, p.startupCost) <
      toLex (chargedCost ⟨t, e, Real.log⟩ d q, q.startupCost)) ∧
    (LosesTrade t e d p q ↔ toLex (chargedCost ⟨t, e, Real.log⟩ d q, q.startupCost) <
      toLex (chargedCost ⟨t, e, Real.log⟩ d p, p.startupCost)) := by
  obtain ⟨hlt, hgt⟩ := weighted_lt_iff_rpow t e (add_pos_of_pos_of_nonneg hp.total hd)
    (add_pos_of_pos_of_nonneg hq.total hd) (add_pos_of_pos_of_nonneg hp.power hd)
    (add_pos_of_pos_of_nonneg hq.power hd)
  simp only [WinsTrade, LosesTrade, chargedCost, Prod.Lex.toLex_lt_toLex, ← hlt, ← hgt,
    le_antisymm_iff, ← not_lt]
  simp only [and_self]

/-- Without a trade of power for time, a charged cost is smaller where the
uncharged one is. -/
theorem chargedCost_lt_iff (ht : 0 ≤ t) (he : 0 ≤ e) {d : ℝ} (hd : 0 ≤ d) {p q : Path ℝ}
    (hp : PositiveCosts p) (hq : PositiveCosts q)
    (h : 0 < t → 0 < e → ¬ TradesPower p q ∧ ¬ TradesPower q p) :
    chargedCost ⟨t, e, Real.log⟩ d p < chargedCost ⟨t, e, Real.log⟩ d q ↔
      0 < t ∧ p.totalCost < q.totalCost ∨ 0 < e ∧ p.powerCost < q.powerCost := by
  have haligned := weighted_lt_iff_of_aligned ht he (add_pos_of_pos_of_nonneg hp.total hd)
    (add_pos_of_pos_of_nonneg hq.total hd) (add_pos_of_pos_of_nonneg hp.power hd)
    (add_pos_of_pos_of_nonneg hq.power hd) (by simpa [TradesPower] using h)
  simpa [chargedCost] using haligned

/-- **When charging the init-plans keeps the order of two paths**: unless both
weights count and one path trades power for time, always; and on such a trade
exactly when the charge, added to all four costs, does not turn it round. The
charge on the startup costs cancels. -/
theorem chargeForInitplans_keeps_iff (ht : 0 ≤ t) (he : 0 ≤ e) (initPlans : List (SubPlan ℝ))
    (hd : 0 ≤ initplanCost initPlans) (rel : RelOptInfo ℝ) (i j : Nat) {p q : Path ℝ}
    (hp : PositiveCosts p) (hq : PositiveCosts q)
    (hi : rel.pathlist[i]? = some p) (hj : rel.pathlist[j]? = some q) :
    ∃ p' q', (ssChargeForInitplans initPlans rel).pathlist[i]? = some p' ∧
      (ssChargeForInitplans initPlans rel).pathlist[j]? = some q' ∧
      (comparePathCosts ⟨t, e, Real.log⟩ p' q' .totalCost =
          comparePathCosts ⟨t, e, Real.log⟩ p q .totalCost ↔
        (0 < t → 0 < e → TradesPower p q → KeepsTrade t e (initplanCost initPlans) p q) ∧
        (0 < t → 0 < e → TradesPower q p → KeepsTrade t e (initplanCost initPlans) q p)) := by
  obtain ⟨charge, hlist, hcharge⟩ := ssChargeForInitplans_pathlist initPlans rel
  refine ⟨charge p, charge q, by simp [hlist, hi], by simp [hlist, hj], ?_⟩
  generalize hw : (⟨t, e, Real.log⟩ : Weighting ℝ) = w
  generalize initplanCost initPlans = d at hd hcharge ⊢
  have hafter : ∀ a b : Path ℝ, costKey w .totalCost (charge a) < costKey w .totalCost (charge b) ↔
      toLex (chargedCost w d a, a.startupCost) < toLex (chargedCost w d b, b.startupCost) := by
    simp [costKey, weightedCost, chargedCost, hcharge, Prod.Lex.toLex_lt_toLex]
  have hbefore : ∀ a : Path ℝ, costKey w .totalCost a =
      toLex (chargedCost w 0 a, a.startupCost) := by
    simp [costKey, weightedCost, chargedCost]
  rw [comparePathCosts_eq, comparePathCosts_eq, threeWay_eq_iff, hafter, hafter, hbefore, hbefore]
  subst hw
  have hkeeps : ∀ a b : Path ℝ, PositiveCosts a → PositiveCosts b → (KeepsTrade t e d a b ↔ _) :=
    fun a b ha hb => and_congr
      (iff_congr (winsTrade_iff hd ha hb).1 (winsTrade_iff le_rfl ha hb).1)
      (iff_congr (winsTrade_iff hd ha hb).2 (winsTrade_iff le_rfl ha hb).2)
  rw [hkeeps p q hp hq, hkeeps q p hq hp]
  by_cases htrade : 0 < t ∧ 0 < e ∧ (TradesPower p q ∨ TradesPower q p)
  · obtain ⟨ht, he, hpq | hqp⟩ := htrade
    · have hqp : ¬ TradesPower q p := fun h => lt_asymm h.1 hpq.1
      simp [ht, he, hpq, hqp]
    · have hpq : ¬ TradesPower p q := fun h => lt_asymm h.1 hqp.1
      simp only [ht, he, hpq, hqp, true_imp_iff, false_imp_iff, true_and]
      exact and_comm
  -- no trade-off: whatever the charge, the order is that of the costs
  · have hpq : 0 < t → 0 < e → ¬ TradesPower p q ∧ ¬ TradesPower q p := by grind
    have hqp : 0 < t → 0 < e → ¬ TradesPower q p ∧ ¬ TradesPower p q := by grind
    simp only [Prod.Lex.toLex_lt_toLex, le_antisymm_iff, ← not_lt,
      chargedCost_lt_iff ht he hd hp hq hpq, chargedCost_lt_iff ht he hd hq hp hqp,
      chargedCost_lt_iff ht he le_rfl hp hq hpq, chargedCost_lt_iff ht he le_rfl hq hp hqp]
    grind

end

/-- Two init-plans of total charge 100. -/
def twoInitplans : List (SubPlan ℝ) := [⟨20, 30⟩, ⟨0, 50⟩]

theorem initplanCost_twoInitplans : initplanCost twoInitplans = 100 := by
  norm_num [initplanCost, twoInitplans]

theorem chargedCost_product {s t p r d : ℝ} (ht : 0 < t + d) (hp : 0 < p + d) :
    chargedCost productWeighting d (plainPath s t p r) = Real.log ((t + d) * (p + d)) := by
  simp [chargedCost, productWeighting, plainPath, Real.log_mul ht.ne' hp.ne']

/-- Ten times as fast for two and a half times the power is still a bargain
after a charge of 100. -/
theorem chargeForInitplans_keeps_tenfold :
    ∃ p' q', (ssChargeForInitplans twoInitplans
        ⟨⟨false, false⟩, [plainPath 0 10 100 1, plainPath 0 100 40 1], []⟩).pathlist[0]? = some p' ∧
      (ssChargeForInitplans twoInitplans
        ⟨⟨false, false⟩, [plainPath 0 10 100 1, plainPath 0 100 40 1], []⟩).pathlist[1]? = some q' ∧
      comparePathCosts productWeighting p' q' .totalCost =
        comparePathCosts productWeighting (plainPath 0 10 100 1) (plainPath 0 100 40 1)
          .totalCost := by
  have hd : 0 ≤ initplanCost twoInitplans := by norm_num [initplanCost_twoInitplans]
  obtain ⟨p', q', hp, hq, hiff⟩ :=
    chargeForInitplans_keeps_iff zero_le_one zero_le_one twoInitplans hd
    ⟨⟨false, false⟩, [plainPath 0 10 100 1, plainPath 0 100 40 1], []⟩ 0 1
    (p := plainPath 0 10 100 1) (q := plainPath 0 100 40 1)
    (by constructor <;> norm_num [plainPath]) (by constructor <;> norm_num [plainPath]) rfl rfl
  refine ⟨p', q', hp, hq, hiff.2 ⟨fun _ _ _ => ?_, fun _ _ h => ?_⟩⟩
  · rw [initplanCost_twoInitplans]
    constructor <;> norm_num [WinsTrade, LosesTrade, plainPath]
  · norm_num [TradesPower, plainPath] at h

/-- A charge of 100 turns the product order of (10, 100) and (25, 41) around:
1000 < 1025 before, 110 * 200 > 125 * 141 after. -/
theorem initplans_reorder_paths :
    comparePathCosts productWeighting (plainPath 5 10 100 1) (plainPath 5 25 41 1) .totalCost = -1 ∧
    (ssChargeForInitplans twoInitplans
        ⟨⟨false, false⟩, [plainPath 5 10 100 1, plainPath 5 25 41 1], []⟩).pathlist =
      [chargePath 100 (plainPath 5 10 100 1), chargePath 100 (plainPath 5 25 41 1)] ∧
    comparePathCosts productWeighting (chargePath 100 (plainPath 5 10 100 1))
      (chargePath 100 (plainPath 5 25 41 1))
      .totalCost = 1 := by
  have hbefore : weightedCost productWeighting (plainPath 5 10 100 1) <
      weightedCost productWeighting (plainPath 5 25 41 1) := by
    rw [weightedCost_product (by norm_num) (by norm_num),
      weightedCost_product (by norm_num) (by norm_num)]
    exact Real.log_lt_log (by norm_num) (by norm_num)
  have hafter : chargedCost productWeighting 100 (plainPath 5 25 41 1) <
      chargedCost productWeighting 100 (plainPath 5 10 100 1) := by
    rw [chargedCost_product (by norm_num) (by norm_num),
      chargedCost_product (by norm_num) (by norm_num)]
    exact Real.log_lt_log (by norm_num) (by norm_num)
  have hcharged : ∀ p : Path ℝ, weightedCost productWeighting (chargePath 100 p) =
      chargedCost productWeighting 100 p :=
    fun _ => rfl
  refine ⟨by simp [comparePathCosts, hbefore], ?_, ?_⟩
  · have hne : twoInitplans.isEmpty = false := rfl
    simp [ssChargeForInitplans, hne, initplanCost_twoInitplans]
  · simp [comparePathCosts, hcharged, hafter, hafter.not_gt]

end GreenPipeline.L3.CheapestPath
