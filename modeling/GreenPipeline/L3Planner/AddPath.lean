import GreenPipeline.Core.Tournament
import GreenPipeline.L3Planner.PathCosts

/-!
# The path tournament (`add_path`, `add_path_precheck`, `add_partial_path`)

`add_path` and `add_partial_path` are one loop over a list of survivors
(`Core.Tournament`) with two rules for who survives a comparison:
`addPathVerdict` weighs fuzzy cost, sort order, parameterization, rows and
parallel safety; `addPartialPathVerdict` only sort order and raw total
cost. Both lists are ordered by the raw `total_cost`, also where the verdict
uses the weighted logarithmic cost. What the C code frees (`pfree` of losers
other than `IndexPath`s) is not modelled.

Sources: `src/backend/optimizer/util/pathnode.c`.

Results:
* `addPath_covers_offers`: after any sequence of `add_path` calls every path
  ever offered has a survivor with at most its required outer rels, at least
  its sort order and at least its parallel safety; costs play no role.
* `precheck_sound_noCheaper`: a rejection by `add_path_precheck` is confirmed
  by `add_path` on the path itself if no path that is cheaper in total cost is
  dearer in the weighted logarithms (`NoCheaper`).
* `sorted_heads_cheapest`: the front of both lists is cheapest by raw total
  cost, and by the weighted cost when power has no weight.
-/
namespace GreenPipeline.L3.AddPath
open GreenPipeline.Core.Tournament GreenPipeline.L1.Bms GreenPipeline.L3.Pathkeys List Real
open GreenPipeline.L3.PathCosts

variable {K : Type*}

/-- The part of `RelOptInfo` that path selection reads and writes. -/
structure RelOptInfo (K : Type*) extends ParentRel where
  pathlist : List (Path K)
  partialPathlist : List (Path K)

/-- A rel for which no path has been offered yet. -/
def emptyRel (flags : ParentRel) : RelOptInfo K := ⟨flags, [], []⟩

/-! ## The functions -/

section
variable [Add K] [Mul K] [LT K] [DecidableLT K] [LE K] [DecidableLE K] [OfScientific K]

/-- The body of the loop of `add_path`: `remove_old`, `accept_new = false` or
neither.
mirrors pathnode.c:505-641 -/
def addPathVerdict (w : Weighting K) (newPath oldPath : Path K) : Verdict :=
  let costcmp := comparePathCostsFuzzily w newPath oldPath stdFuzzFactor
  let keyscmp := comparePathkeys (effectivePathkeys newPath) (effectivePathkeys oldPath)
  let outercmp := bmsSubsetCompare (pathReqOuter newPath) (pathReqOuter oldPath)
  let newNoWorse := newPath.rows ≤ oldPath.rows ∧ oldPath.parallelSafe ≤ newPath.parallelSafe
  let oldNoWorse := oldPath.rows ≤ newPath.rows ∧ newPath.parallelSafe ≤ oldPath.parallelSafe
  if costcmp = .different ∨ keyscmp = .different then .keepBoth
  else
    match costcmp with
    | .equal =>
      if keyscmp = .better1 then
        if (outercmp = .equal ∨ outercmp = .subset1) ∧ newNoWorse then .removeOld else .keepBoth
      else if keyscmp = .better2 then
        if (outercmp = .equal ∨ outercmp = .subset2) ∧ oldNoWorse then .rejectNew else .keepBoth
      else if outercmp = .equal then
        -- keep just one: parallel safety, then rows, then a much smaller fuzz limit
        if oldPath.parallelSafe < newPath.parallelSafe then .removeOld
        else if newPath.parallelSafe < oldPath.parallelSafe then .rejectNew
        else if newPath.rows < oldPath.rows then .removeOld
        else if oldPath.rows < newPath.rows then .rejectNew
        else if comparePathCostsFuzzily w newPath oldPath 1.0000000001 = .better1 then .removeOld
        else .rejectNew
      else if outercmp = .subset1 ∧ newNoWorse then .removeOld
      else if outercmp = .subset2 ∧ oldNoWorse then .rejectNew
      else .keepBoth
    | .better1 =>
      if keyscmp ≠ .better2 ∧ (outercmp = .equal ∨ outercmp = .subset1) ∧ newNoWorse then .removeOld
      else .keepBoth
    | .better2 =>
      if keyscmp ≠ .better1 ∧ (outercmp = .equal ∨ outercmp = .subset2) ∧ oldNoWorse then .rejectNew
      else .keepBoth
    | .different => .keepBoth

/-- `new_path->total_cost >= old_path->total_cost` moves `insert_after`.
mirrors pathnode.c:661-662 -/
def belongsAfter (newPath oldPath : Path K) : Bool := decide (oldPath.totalCost ≤ newPath.totalCost)

/-- mirrors pathnode.c:474-690 -/
def addPath (w : Weighting K) (rel : RelOptInfo K) (newPath : Path K) : RelOptInfo K :=
  { rel with pathlist := (offer (addPathVerdict w) belongsAfter rel.pathlist newPath).entries }

/-- `accept_new` at the end of `add_path`. -/
def addPathAccepts (w : Weighting K) (rel : RelOptInfo K) (newPath : Path K) : Bool :=
  (offer (addPathVerdict w) belongsAfter rel.pathlist newPath).accepted

/-- The loop of `add_path_precheck`: stop at the first path that is not
cheaper by more than the fuzz.
mirrors pathnode.c:723-770 -/
def precheckLoop (considerStartup : Bool) (startupCost totalCost : K)
    (newPathPathkeys : List PathKey) (requiredOuter : Relids) : List (Path K) → Bool
  | [] => true
  | oldPath :: rest =>
    if oldPath.totalCost * stdFuzzFactor < totalCost then
      let keyscmp := comparePathkeys newPathPathkeys (effectivePathkeys oldPath)
      if (oldPath.startupCost * stdFuzzFactor < startupCost ∨ considerStartup = false) ∧
          (keyscmp = .equal ∨ keyscmp = .better2) ∧
          bmsEqual requiredOuter (pathReqOuter oldPath) then
        false
      else precheckLoop considerStartup startupCost totalCost newPathPathkeys requiredOuter rest
    else true

/-- mirrors pathnode.c:709-773 -/
def addPathPrecheck (rel : RelOptInfo K) (startupCost totalCost : K) (pathkeys : List PathKey)
    (requiredOuter : Relids) : Bool :=
  precheckLoop
    (if requiredOuter.isSome then rel.considerParamStartup else rel.considerStartup)
    startupCost totalCost (if requiredOuter.isSome then [] else pathkeys) requiredOuter rel.pathlist

/-- The body of the loop of `add_partial_path`.
mirrors pathnode.c:834-882 -/
def addPartialPathVerdict (newPath oldPath : Path K) : Verdict :=
  let keyscmp := comparePathkeys newPath.pathkeys oldPath.pathkeys
  if keyscmp = .different then .keepBoth
  else if oldPath.totalCost * stdFuzzFactor < newPath.totalCost then
    if keyscmp ≠ .better1 then .rejectNew else .keepBoth
  else if newPath.totalCost * stdFuzzFactor < oldPath.totalCost then
    if keyscmp ≠ .better2 then .removeOld else .keepBoth
  else if keyscmp = .better1 then .removeOld
  else if keyscmp = .better2 then .rejectNew
  else if newPath.totalCost * 1.0000000001 < oldPath.totalCost then .removeOld
  else .rejectNew

/-- mirrors pathnode.c:819-926 -/
def addPartialPath (rel : RelOptInfo K) (newPath : Path K) : RelOptInfo K :=
  { rel with
    partialPathlist :=
      (offer addPartialPathVerdict belongsAfter rel.partialPathlist newPath).entries }

end

/-- The first unparameterized parallel-safe path of the list.
mirrors src/backend/optimizer/path/pathkeys.c:420-435 -/
def getCheapestParallelSafeTotalInner (paths : List (Path K)) : Option (Path K) :=
  paths.find? (fun p => p.parallelSafe && bmsIsEmpty (pathReqOuter p))

/-! ## No capability is lost -/

/-- `q` can stand in for `p`: it needs no other outer rels, is sorted at least
as well and is parallel safe if `p` is. -/
structure Covers (q p : Path K) : Prop where
  outer : Subset (pathReqOuter q) (pathReqOuter p)
  keys : effectivePathkeys p <+: effectivePathkeys q
  safe : p.parallelSafe ≤ q.parallelSafe

theorem Covers.refl (p : Path K) : Covers p p := ⟨Subset.refl _, prefix_rfl, Bool.le_refl _⟩

theorem Covers.trans {a b c : Path K} (h1 : Covers a b) (h2 : Covers b c) : Covers a c :=
  ⟨h1.outer.trans h2.outer, h2.keys.trans h1.keys, Bool.le_trans h2.safe h1.safe⟩

section
variable [Mul K] [LT K] [DecidableLT K] [LE K] [DecidableLE K] [OfScientific K]

theorem foldl_addPartialPath_list : ∀ (offers : List (Path K))
    (rel : RelOptInfo K), (offers.foldl addPartialPath rel).partialPathlist =
    run addPartialPathVerdict belongsAfter rel.partialPathlist offers
  | [], _ => rfl
  | p :: ps, rel => by
    rw [foldl_cons, foldl_addPartialPath_list ps]; rfl

variable [Add K]
variable {w : Weighting K} {newPath oldPath : Path K}

/-- The two losing verdicts, with what each branch of the loop has checked by
then: the winner is no worse on sort order, outer rels and parallel safety. -/
theorem addPathVerdict_covers :
    (addPathVerdict w newPath oldPath = .removeOld → Covers newPath oldPath) ∧
    (addPathVerdict w newPath oldPath = .rejectNew → Covers oldPath newPath) := by
  have hge := comparePathkeys_ge (effectivePathkeys newPath) (effectivePathkeys oldPath)
  have hle := comparePathkeys_le (effectivePathkeys newPath) (effectivePathkeys oldPath)
  have hsub := bmsSubsetCompare_le (pathReqOuter newPath) (pathReqOuter oldPath)
  have hsup := bmsSubsetCompare_ge (pathReqOuter newPath) (pathReqOuter oldPath)
  unfold addPathVerdict
  generalize comparePathCostsFuzzily w newPath oldPath stdFuzzFactor = costcmp
  generalize comparePathkeys (effectivePathkeys newPath) (effectivePathkeys oldPath) =
    keyscmp at hge hle ⊢
  generalize bmsSubsetCompare (pathReqOuter newPath) (pathReqOuter oldPath) =
    outercmp at hsub hsup ⊢
  -- what a branch needs: the order of the keys, the inclusion, and parallel safety
  have hrem : (keyscmp = .equal ∨ keyscmp = .better1) → (outercmp = .equal ∨ outercmp = .subset1) →
      oldPath.parallelSafe ≤ newPath.parallelSafe → Covers newPath oldPath :=
    fun h1 h2 h3 => ⟨hsub.1 h2, hge.1 h1, h3⟩
  have hrej : (keyscmp = .equal ∨ keyscmp = .better2) → (outercmp = .equal ∨ outercmp = .subset2) →
      newPath.parallelSafe ≤ oldPath.parallelSafe → Covers oldPath newPath :=
    fun h1 h2 h3 => ⟨hsup.1 h2, hle.1 h1, h3⟩
  clear hge hle hsub hsup
  cases costcmp <;> cases keyscmp <;> cases outercmp <;> simp_all
  all_goals grind

/-- A run of `add_path` is a run of the tournament on the pathlist. -/
theorem foldl_addPath_pathlist (w : Weighting K) : ∀ (offers : List (Path K)) (rel : RelOptInfo K),
    (offers.foldl (addPath w) rel).pathlist =
      run (addPathVerdict w) belongsAfter rel.pathlist offers
  | [], _ => rfl
  | p :: ps, rel => by
    rw [foldl_cons, foldl_addPath_pathlist w ps]; rfl

/-- **No offered capability is lost.** After any sequence of `add_path` calls
on an empty rel, every offered path is covered by a path of the pathlist,
whatever the costs; so the list is not empty once a path was offered. -/
theorem addPath_covers_offers (w : Weighting K) (flags : ParentRel) (offers : List (Path K)) :
    (∀ p ∈ offers, ∃ q ∈ (offers.foldl (addPath w) (emptyRel flags)).pathlist, Covers q p) ∧
    (offers ≠ [] → (offers.foldl (addPath w) (emptyRel flags)).pathlist ≠ []) := by
  have hcov : ∀ p ∈ offers, ∃ q ∈ (offers.foldl (addPath w) (emptyRel flags)).pathlist,
      Covers q p := by
    intro p hp
    rw [foldl_addPath_pathlist]
    exact run_covers Covers.refl Covers.trans addPathVerdict_covers.1
      addPathVerdict_covers.2 offers _ p
      (.inl hp)
  refine ⟨hcov, fun hne => ?_⟩
  obtain ⟨p, hp⟩ := exists_mem_of_ne_nil offers hne
  obtain ⟨q, hq, -⟩ := hcov p hp
  exact ne_nil_of_mem hq

end

/-! ## Order of the lists -/

section
variable [Field K] [LinearOrder K]

/-- Sorted by raw `total_cost`, cheaper paths at the front. -/
def TotalSorted (l : List (Path K)) : Prop := l.Pairwise (fun a b => a.totalCost ≤ b.totalCost)

theorem addPath_sorted (w : Weighting K) (flags : ParentRel) (offers : List (Path K)) :
    TotalSorted (offers.foldl (addPath w) (emptyRel flags)).pathlist := by
  rw [foldl_addPath_pathlist]
  exact run_sorted Path.totalCost offers _ List.Pairwise.nil

theorem addPartialPath_sorted (flags : ParentRel) (offers : List (Path K)) :
    TotalSorted (offers.foldl addPartialPath (emptyRel flags)).partialPathlist := by
  rw [foldl_addPartialPath_list]
  exact run_sorted Path.totalCost offers _ List.Pairwise.nil

end

/-! ## The precheck -/

section
variable [Field K] [LinearOrder K]

/-- All paths of one parameterization have the same rows and parallel safety. -/
def UniformParam (l : List (Path K)) : Prop :=
  ∀ a ∈ l, ∀ b ∈ l, Subset (pathReqOuter a) (pathReqOuter b) →
    Subset (pathReqOuter b) (pathReqOuter a) →
    a.rows = b.rows ∧ a.parallelSafe = b.parallelSafe

/-- `oldPath` beats `cand` on the weighted costs: fuzzily cheaper, or fuzzily
the same and then strictly better on sort order or outer rels or not
cheaper-by-a-hair; and no worse on sort order, outer rels, rows and parallel
safety. -/
@[mk_iff]
structure WeightedBeats (w : Weighting K) (oldPath cand : Path K) : Prop where
  cost : comparePathCostsFuzzily w cand oldPath stdFuzzFactor = .better2 ∨
    comparePathCostsFuzzily w cand oldPath stdFuzzFactor = .equal ∧
      (effectivePathkeys cand ≠ effectivePathkeys oldPath ∨
        ¬ Subset (pathReqOuter cand) (pathReqOuter oldPath) ∨
        comparePathCostsFuzzily w cand oldPath 1.0000000001 ≠ .better1)
  keys : effectivePathkeys cand <+: effectivePathkeys oldPath
  outer : Subset (pathReqOuter oldPath) (pathReqOuter cand)
  rows : oldPath.rows ≤ cand.rows
  safe : cand.parallelSafe ≤ oldPath.parallelSafe

variable {cand : Path K}

/-- The rejecting branches of the loop, for paths of which equal
parameterization means equal rows and parallel safety. -/
theorem addPathVerdict_rejectNew_iff (w : Weighting K) {oldPath : Path K}
    (hu : UniformParam [cand, oldPath]) :
    addPathVerdict w cand oldPath = .rejectNew ↔ WeightedBeats w oldPath cand := by
  have hle := comparePathkeys_le (effectivePathkeys cand) (effectivePathkeys oldPath)
  have hne :=
    not_congr (comparePathkeys_equal_iff (effectivePathkeys cand) (effectivePathkeys oldPath))
  have hsub := bmsSubsetCompare_le (pathReqOuter cand) (pathReqOuter oldPath)
  have hsup := bmsSubsetCompare_ge (pathReqOuter cand) (pathReqOuter oldPath)
  have hrs : bmsSubsetCompare (pathReqOuter cand) (pathReqOuter oldPath) = .equal →
      cand.rows = oldPath.rows ∧ cand.parallelSafe = oldPath.parallelSafe := fun h =>
    hu cand (by simp) oldPath (by simp) (hsub.1 (.inl h)) (hsup.1 (.inl h))
  rw [weightedBeats_iff, ← hle, ne_eq, ← hne, ← hsup, ← hsub]
  unfold addPathVerdict BMSComparison.Le BMSComparison.Ge
  generalize comparePathCostsFuzzily w cand oldPath stdFuzzFactor = costcmp
  generalize comparePathCostsFuzzily w cand oldPath 1.0000000001 = tinycmp
  generalize comparePathkeys (effectivePathkeys cand) (effectivePathkeys oldPath) = keyscmp
  generalize bmsSubsetCompare (pathReqOuter cand) (pathReqOuter oldPath) = outercmp at hrs ⊢
  clear hle hne hsub hsup hu
  cases costcmp <;> cases keyscmp <;> cases outercmp <;> simp_all
  all_goals (split <;> simp)

/-- `add_path` leaves a path out exactly when some path of the list beats it
on the weighted costs. -/
theorem addPathAccepts_false_iff (w : Weighting K) {rel : RelOptInfo K}
    (hu : UniformParam (cand :: rel.pathlist)) :
    addPathAccepts w rel cand = false ↔ ∃ o ∈ rel.pathlist, WeightedBeats w o cand := by
  have hpair : ∀ o ∈ rel.pathlist, addPathVerdict w cand o = .rejectNew ↔
      WeightedBeats w o cand := by
    intro o ho
    refine addPathVerdict_rejectNew_iff w (fun a ha b hb => hu a ?_ b ?_)
    · rcases mem_cons.1 ha with rfl | ha
      · exact mem_cons_self
      · rw [mem_singleton.1 ha]; exact mem_cons_of_mem _ ho
    · rcases mem_cons.1 hb with rfl | hb
      · exact mem_cons_self
      · rw [mem_singleton.1 hb]; exact mem_cons_of_mem _ ho
  unfold addPathAccepts
  rw [offer_rejected_iff]
  exact exists_congr fun o => and_congr_right (hpair o)

variable [IsStrictOrderedRing K]

/-- `oldPath` beats `cand` in the precheck: on raw total cost by more than the
fuzz, on startup cost if that counts, and not on sort order, for the same
parameterization. -/
structure RawBeats (oldPath cand : Path K) : Prop where
  total : oldPath.totalCost * stdFuzzFactor < cand.totalCost
  startup : oldPath.startupCost * stdFuzzFactor < cand.startupCost ∨
    considerPathStartupCost cand = false
  keys : effectivePathkeys cand <+: effectivePathkeys oldPath
  outer : Subset (pathReqOuter cand) (pathReqOuter oldPath) ∧
    Subset (pathReqOuter oldPath) (pathReqOuter cand)

/-- The early exit is harmless on a list sorted by raw total cost: behind a
path that is not cheaper by the fuzz no path is. -/
theorem precheckLoop_false_iff (cs : Bool) (startup total : K) (keys : List PathKey)
    (outer : Relids) : ∀ l : List (Path K), TotalSorted l →
    (precheckLoop cs startup total keys outer l = false ↔
      ∃ o ∈ l, o.totalCost * stdFuzzFactor < total ∧
        (o.startupCost * stdFuzzFactor < startup ∨ cs = false) ∧
        keys <+: effectivePathkeys o ∧ bmsEqual outer (pathReqOuter o) = true)
  | [], _ => by simp [precheckLoop]
  | o :: rest, hs => by
    obtain ⟨hle, hs'⟩ := pairwise_cons.1 hs
    have ih := precheckLoop_false_iff cs startup total keys outer rest hs'
    have hkeys := comparePathkeys_le keys (effectivePathkeys o)
    simp only [precheckLoop, mem_cons, exists_eq_or_imp]
    by_cases ht : o.totalCost * stdFuzzFactor < total
    · rw [if_pos ht]
      split
      · rename_i h
        simp only [true_iff]
        exact .inl ⟨ht, h.1, hkeys.1 h.2.1, h.2.2⟩
      · rename_i h
        rw [ih]
        constructor
        · exact .inr
        · rintro (⟨-, h1, h2, h3⟩ | h')
          · exact absurd ⟨h1, hkeys.2 h2, h3⟩ h
          · exact h'
    · rw [if_neg ht]
      simp only [Bool.true_eq_false, false_iff, not_or, not_exists, not_and]
      refine ⟨fun h => absurd h ht, fun o' ho' h => ?_⟩
      have hf : (0 : K) ≤ stdFuzzFactor := zero_le_one.trans one_lt_stdFuzzFactor.le
      exact absurd (lt_of_le_of_lt (mul_le_mul_of_nonneg_right (hle o' ho') hf) h) ht

/-- On a sorted pathlist the precheck rejects a path of the rel exactly when
some path of the list beats it on the raw costs. -/
theorem addPathPrecheck_false_iff {rel : RelOptInfo K} (hs : TotalSorted rel.pathlist)
    (hpar : cand.parent = rel.toParentRel) :
    addPathPrecheck rel cand.startupCost cand.totalCost cand.pathkeys (pathReqOuter cand) = false ↔
    ∃ o ∈ rel.pathlist, RawBeats o cand := by
  have hsome : (pathReqOuter cand).isSome = cand.paramInfo.isSome := by simp [pathReqOuter]
  have hcs : (if (pathReqOuter cand).isSome = true then rel.considerParamStartup else
      rel.considerStartup) = considerPathStartupCost cand := by
    rw [hsome]; unfold considerPathStartupCost
    cases cand.paramInfo <;> simp [hpar]
  have hk : (if (pathReqOuter cand).isSome = true then [] else cand.pathkeys) =
      effectivePathkeys cand := by
    rw [hsome]; rfl
  unfold addPathPrecheck
  rw [hcs, hk, precheckLoop_false_iff _ _ _ _ _ _ hs]
  constructor
  · rintro ⟨o, ho, h1, h2, h3, h4⟩
    exact ⟨o, ho, h1, h2, h3, (bmsEqual_iff _ _).1 h4⟩
  · rintro ⟨o, ho, h⟩
    exact ⟨o, ho, h.total, h.startup, h.keys, (bmsEqual_iff _ _).2 h.outer⟩

/-- At a fuzz of 1e-10 the candidate is cheaper, in the weighted logarithms
or, if these are the same, at startup. -/
def CheaperByAHair (w : Weighting K) (cand oldPath : Path K) : Prop :=
  weightedCost w cand ≤ weightedCost w oldPath * 1.0000000001 ∧
    if weightedCost w cand * 1.0000000001 < weightedCost w oldPath then
      ¬ (considerPathStartupCost oldPath = true ∧
        oldPath.startupCost * 1.0000000001 < cand.startupCost)
    else cand.startupCost ≤ oldPath.startupCost * 1.0000000001 ∧
      cand.startupCost * 1.0000000001 < oldPath.startupCost

/-- The weights and costs do not make `cand` the cheaper of the two:
`time_weight * log(total_cost) + power_weight * log(power_cost)` is more than
1% smaller for `oldPath`, or it is at most 1% greater and the startup cost
settles it, or on a tie the sort order or the finer comparison. -/
def NoCheaper (w : Weighting K) (oldPath cand : Path K) : Prop :=
  weightedCost w oldPath * stdFuzzFactor < weightedCost w cand ∨
  weightedCost w oldPath ≤ weightedCost w cand * stdFuzzFactor ∧
    (oldPath.startupCost * stdFuzzFactor < cand.startupCost ∨
      oldPath.startupCost ≤ cand.startupCost * stdFuzzFactor ∧
        (effectivePathkeys cand ≠ effectivePathkeys oldPath ∨ ¬ CheaperByAHair w cand oldPath))

/-- A path that wins the precheck wins in `add_path` exactly when the weights
do not turn the comparison round. -/
theorem RawBeats.beats_iff_noCheaper {w : Weighting K} {oldPath : Path K}
    (h : RawBeats oldPath cand) (hs : 0 ≤ oldPath.startupCost) (hs' : 0 ≤ cand.startupCost)
    (hu : UniformParam [cand, oldPath]) :
    WeightedBeats w oldPath cand ↔ NoCheaper w oldPath cand := by
  obtain ⟨hrows, hsafe⟩ := hu cand (by simp) oldPath (by simp) h.outer.1 h.outer.2
  have hcost : WeightedBeats w oldPath cand ↔
      comparePathCostsFuzzily w cand oldPath stdFuzzFactor = .better2 ∨
      comparePathCostsFuzzily w cand oldPath stdFuzzFactor = .equal ∧
        (effectivePathkeys cand ≠ effectivePathkeys oldPath ∨
          ¬ comparePathCostsFuzzily w cand oldPath 1.0000000001 = .better1) := by
    simp [weightedBeats_iff, h.keys, h.outer.1, h.outer.2, hrows, hsafe]
  have hhair : comparePathCostsFuzzily w cand oldPath 1.0000000001 = .better1 ↔
      CheaperByAHair w cand oldPath := by
    unfold comparePathCostsFuzzily fuzzyVerdict CheaperByAHair
    grind
  have hstartup := fuzz_exclusive one_lt_stdFuzzFactor hs' hs
  have hconsidered := h.startup
  rw [hcost, not_congr hhair]
  unfold NoCheaper comparePathCostsFuzzily fuzzyVerdict
  grind

/-- **When the two-phase join costing is sound.** In every run of `add_path`
on a rel whose paths have one row count and parallel safety for each
parameterization, `add_path` leaves out a path the precheck rejects if no
path of the list that wins the precheck against it is dearer by the weights
and costs. On a list of one path the condition is also necessary. -/
theorem precheck_sound_noCheaper (w : Weighting K) (flags : ParentRel) (offers : List (Path K))
    (cand : Path K) (hpar : cand.parent = flags)
    (hu : UniformParam (cand :: (offers.foldl (addPath w) (emptyRel flags)).pathlist))
    (hstartup : ∀ p ∈ cand :: (offers.foldl (addPath w) (emptyRel flags)).pathlist,
      0 ≤ p.startupCost) :
    let rel := offers.foldl (addPath w) (emptyRel flags)
    let sound := addPathPrecheck rel cand.startupCost cand.totalCost cand.pathkeys
        (pathReqOuter cand) = false → addPathAccepts w rel cand = false
    ((∀ o ∈ rel.pathlist, RawBeats o cand → NoCheaper w o cand) → sound) ∧
      ∀ o, rel.pathlist = [o] → (sound ↔ (RawBeats o cand → NoCheaper w o cand)) := by
  have hflags : ∀ (ps : List (Path K)) (rel : RelOptInfo K),
      (ps.foldl (addPath w) rel).toParentRel = rel.toParentRel := by
    intro ps
    induction ps with
    | nil => intro rel; rfl
    | cons p ps ih => intro rel; rw [foldl_cons, ih]; rfl
  intro rel sound
  have hpair : ∀ o ∈ rel.pathlist, RawBeats o cand →
      (WeightedBeats w o cand ↔ NoCheaper w o cand) := by
    intro o ho hraw
    refine hraw.beats_iff_noCheaper (hstartup o (mem_cons_of_mem _ ho))
      (hstartup cand mem_cons_self)
      fun a ha b hb => hu a ?_ b ?_
    · exact cons_subset_cons cand (by simpa using ho) ha
    · exact cons_subset_cons cand (by simpa using ho) hb
  have hsound : sound ↔ ((∃ o ∈ rel.pathlist, RawBeats o cand) →
      ∃ o ∈ rel.pathlist, WeightedBeats w o cand) := by
    have hparent : cand.parent = rel.toParentRel := by rw [hflags]; exact hpar
    rw [← addPathPrecheck_false_iff (addPath_sorted w flags offers) hparent,
      ← addPathAccepts_false_iff w hu]
  refine ⟨fun h => hsound.2 ?_, fun o ho => ?_⟩
  · rintro ⟨o, ho, hraw⟩
    exact ⟨o, ho, (hpair o ho hraw).2 (h o ho hraw)⟩
  · rw [ho] at hpair
    simp only [mem_singleton, forall_eq] at hpair
    rw [hsound, ho]
    simp only [mem_singleton, exists_eq_left]
    exact forall_congr' hpair

end

/-- A path of total cost 100 that draws 60 W, a slower one that draws less,
and one that is only slower. -/
noncomputable def fastPath : Path ℝ := plainPath 0 100 60 10
noncomputable def greenPath : Path ℝ := plainPath 0 200 40 10
noncomputable def slowPath : Path ℝ := plainPath 0 200 60 10

/-- Only power counts. -/
noncomputable def powerOnly : Weighting ℝ := ⟨0, 1, Real.log⟩

theorem pathlist_fastPath :
    ([fastPath].foldl (addPath powerOnly) (emptyRel ⟨false, false⟩)).pathlist = [fastPath] := rfl

theorem uniformParam_pair {a b : Path ℝ} (hr : a.rows = b.rows)
    (hs : a.parallelSafe = b.parallelSafe) : UniformParam [a, b] := by
  intro x hx y hy _ _
  simp only [List.mem_cons, List.not_mem_nil, or_false] at hx hy
  rcases hx with rfl | rfl <;> rcases hy with rfl | rfl <;> simp [hr, hs]

/-- At one power and one startup cost no fuzz makes the slower path the cheaper one. -/
theorem noCheaper_slowPath : NoCheaper powerOnly fastPath slowPath := by
  have hlog : (0 : ℝ) ≤ log 60 := log_nonneg (by norm_num)
  have hfuzz := le_mul_of_one_le_right hlog one_lt_stdFuzzFactor.le
  refine .inr ⟨?_, .inr ⟨?_, .inr ?_⟩⟩ <;>
    simp [CheaperByAHair, weightedCost, powerOnly, slowPath, fastPath, plainPath]
  exact hfuzz

/-- The precheck sees a total cost of 200 against 100. -/
theorem precheck_slow :
    addPathPrecheck ([fastPath].foldl (addPath powerOnly) (emptyRel ⟨false, false⟩))
      slowPath.startupCost
    slowPath.totalCost slowPath.pathkeys (pathReqOuter slowPath) = false := by
  have h : (100 : ℝ) * stdFuzzFactor < 200 := by unfold stdFuzzFactor; norm_num
  unfold addPathPrecheck
  rw [pathlist_fastPath]
  simp [precheckLoop, fastPath, slowPath, plainPath, pathReqOuter, h, emptyRel, addPath,
    effectivePathkeys, comparePathkeys, bmsEqual]

theorem precheck_sound_slowPath :
    addPathPrecheck ([fastPath].foldl (addPath powerOnly) (emptyRel ⟨false, false⟩))
      slowPath.startupCost
        slowPath.totalCost slowPath.pathkeys (pathReqOuter slowPath) = false ∧
      addPathAccepts powerOnly ([fastPath].foldl (addPath powerOnly) (emptyRel ⟨false, false⟩))
        slowPath = false := by
  refine ⟨precheck_slow, (precheck_sound_noCheaper powerOnly ⟨false, false⟩ [fastPath] slowPath rfl
    (uniformParam_pair rfl rfl) ?_).1 ?_ precheck_slow⟩
  · rw [pathlist_fastPath]
    simp [slowPath, fastPath, plainPath]
  · intro o ho _
    rw [pathlist_fastPath, mem_singleton] at ho
    exact ho ▸ noCheaper_slowPath

/-- `log 60` exceeds `log 40` by more than 1%: `60 / 40 = 1.5` and
`1.5 ^ 100 > 40`. -/
theorem log_forty_fuzz_lt : Real.log 40 * stdFuzzFactor < Real.log 60 := by
  have h60 : log 60 = log 40 + log 1.5 := by
    rw [← log_mul (by norm_num) (by norm_num)]; norm_num
  have hpow : log 40 < 100 * log 1.5 := by
    have : log ((1.5 : ℝ) ^ 100) = 100 * log 1.5 := by rw [log_pow]; norm_num
    rw [← this]
    exact log_lt_log (by norm_num) (by norm_num)
  have hfuzz : (stdFuzzFactor : ℝ) = 1 + 1 / 100 := by unfold stdFuzzFactor; norm_num
  rw [hfuzz]; linarith

/-- With only power weighted, the precheck rejects a path that `add_path`
takes into the list, dropping the old one. -/
theorem precheck_rejects_accepted :
    UniformParam
      (greenPath :: ([fastPath].foldl (addPath powerOnly) (emptyRel ⟨false, false⟩)).pathlist) ∧
    addPathPrecheck ([fastPath].foldl (addPath powerOnly) (emptyRel ⟨false, false⟩))
      greenPath.startupCost
      greenPath.totalCost greenPath.pathkeys (pathReqOuter greenPath) = false ∧
    addPathAccepts powerOnly
      ([fastPath].foldl (addPath powerOnly) (emptyRel ⟨false, false⟩)) greenPath =
      true := by
  have hlog : log 40 < log 60 := log_lt_log (by norm_num) (by norm_num)
  have hlog40 : 0 ≤ log 40 := log_nonneg (by norm_num)
  have hcmp : comparePathCostsFuzzily powerOnly greenPath fastPath stdFuzzFactor = .better1 := by
    have h1 : ¬ log 60 * stdFuzzFactor < log 40 :=
      fuzz_exclusive one_lt_stdFuzzFactor (by linarith) hlog40 log_forty_fuzz_lt
    simp [comparePathCostsFuzzily, fuzzyVerdict, weightedCost, powerOnly, greenPath,
      fastPath, plainPath, considerPathStartupCost, h1, log_forty_fuzz_lt]
  have hverdict : addPathVerdict powerOnly greenPath fastPath = .removeOld := by
    unfold addPathVerdict
    rw [hcmp]
    simp [greenPath, fastPath, plainPath, effectivePathkeys, pathReqOuter, comparePathkeys,
      bmsSubsetCompare]
  refine ⟨uniformParam_pair rfl rfl, precheck_slow, ?_⟩
  unfold addPathAccepts
  rw [pathlist_fastPath]
  simp [offer, scan, hverdict]

/-! ## The front of the lists -/

section
variable [LinearOrder K]

theorem head_le_of_totalSorted {l : List (Path K)} (hs : TotalSorted l) {h q : Path K}
    (hh : l.head? = some h) (hq : q ∈ l) : h.totalCost ≤ q.totalCost := by
  cases l with
  | nil => cases hq
  | cons a l =>
    cases hh
    rcases mem_cons.1 hq with rfl | hq
    · exact le_rfl
    · exact (pairwise_cons.1 hs).1 q hq

/-- The first path of a sorted list that meets a test is the cheapest by raw
total cost of those that do. -/
theorem find_le_of_totalSorted {P : Path K → Bool} : ∀ {l : List (Path K)}, TotalSorted l →
    ∀ {h q : Path K}, l.find? P = some h → q ∈ l → P q = true → h.totalCost ≤ q.totalCost
  | [], _, _, _, _, hq, _ => by cases hq
  | a :: l, hs, h, q, hh, hq, hP => by
    obtain ⟨hle, hs'⟩ := pairwise_cons.1 hs
    by_cases ha : P a = true
    · rw [find?_cons_of_pos ha] at hh
      cases hh
      rcases mem_cons.1 hq with rfl | hq
      · exact le_rfl
      · exact hle q hq
    · rw [find?_cons_of_neg ha] at hh
      rcases mem_cons.1 hq with rfl | hq
      · exact absurd hP ha
      · exact find_le_of_totalSorted hs' hh hq hP

variable [Field K] [IsStrictOrderedRing K]

/-- Without power in the weights, the raw and the weighted order agree, so a
path of least raw cost can lose the exact comparison only on startup cost. -/
theorem comparePathCosts_of_total_le {w : Weighting K} (hlog : StrictMonoOn w.log (Set.Ioi 0))
    (ht : 0 ≤ w.timeWeight) (hpw : w.powerWeight = 0) {h q : Path K} (hh : 0 < h.totalCost)
    (hle : h.totalCost ≤ q.totalCost) :
    weightedCost w h ≤ weightedCost w q ∧ (comparePathCosts w h q .totalCost = 1 →
        weightedCost w h = weightedCost w q ∧ q.startupCost < h.startupCost) := by
  have hw : weightedCost w h ≤ weightedCost w q := by
    unfold weightedCost
    rw [hpw, zero_mul, zero_mul, add_zero, add_zero]
    exact mul_le_mul_of_nonneg_left (hlog.monotoneOn hh (lt_of_lt_of_le hh hle) hle) ht
  refine ⟨hw, fun h1 => ?_⟩
  simp only [comparePathCosts] at h1
  split at h1
  · cases h1
  · rename_i hlt
    have heq := le_antisymm hw (not_lt.1 hlt)
    rw [heq] at h1
    simp only [lt_irrefl, if_false] at h1
    split at h1
    · cases h1
    · split at h1
      · exact ⟨heq, by assumption⟩
      · cases h1

/-- **The front entries are cheapest by total cost.** In every state reached
by `add_partial_path`, resp. `add_path`, from an empty rel over paths of
positive cost, the head of the partial pathlist and the path
`get_cheapest_parallel_safe_total_inner` returns have the least raw total
cost among the eligible members. When power has no weight they also have the
least weighted cost, and lose to a member in the exact comparison only by a
higher startup cost at the same weighted cost. -/
theorem sorted_heads_cheapest (w : Weighting K) (hlog : StrictMonoOn w.log (Set.Ioi 0))
    (ht : 0 ≤ w.timeWeight) (flags : ParentRel) (offers : List (Path K))
    (hpos : ∀ p ∈ offers, 0 < p.totalCost) (h q : Path K)
    (hsel : ((offers.foldl addPartialPath (emptyRel flags)).partialPathlist.head? = some h ∧
        q ∈ (offers.foldl addPartialPath (emptyRel flags)).partialPathlist) ∨
      (getCheapestParallelSafeTotalInner (offers.foldl (addPath w) (emptyRel flags)).pathlist =
        some h ∧
        q ∈ (offers.foldl (addPath w) (emptyRel flags)).pathlist ∧
        q.parallelSafe = true ∧ bmsIsEmpty (pathReqOuter q) = true)) :
    h.totalCost ≤ q.totalCost ∧
    (w.powerWeight = 0 → weightedCost w h ≤ weightedCost w q ∧
      (comparePathCosts w h q .totalCost = 1 →
        weightedCost w h = weightedCost w q ∧ q.startupCost < h.startupCost)) := by
  have hkey : h ∈ offers ∧ h.totalCost ≤ q.totalCost := by
    rcases hsel with ⟨hh, hq⟩ | ⟨hh, hq, hsafe, hempty⟩
    · refine ⟨?_, head_le_of_totalSorted (addPartialPath_sorted flags offers) hh hq⟩
      have hm := mem_of_mem_head? hh
      rw [foldl_addPartialPath_list] at hm
      simpa [emptyRel] using mem_of_mem_run hm
    · refine ⟨?_,
        find_le_of_totalSorted (addPath_sorted w flags offers) hh hq (by simp [hsafe, hempty])⟩
      have hm := mem_of_find?_eq_some hh
      rw [foldl_addPath_pathlist] at hm
      simpa [emptyRel] using mem_of_mem_run hm
  exact ⟨hkey.2, fun hpw => comparePathCosts_of_total_le hlog ht hpw (hpos h hkey.1) hkey.2⟩

end

/-- Two sort orders, offered the dearer one first. -/
noncomputable def dearOrder : Path ℝ := { plainPath 1 100 40 10 with pathkeys := [⟨1⟩] }
noncomputable def cheapOrder : Path ℝ := { plainPath 5 10 40 10 with pathkeys := [⟨2⟩] }

theorem sorted_heads_cheapest_cheapOrder :
    ([dearOrder, cheapOrder].foldl addPartialPath (emptyRel ⟨false, false⟩)).partialPathlist =
      [cheapOrder, dearOrder] ∧
    cheapOrder.totalCost ≤ dearOrder.totalCost ∧
    weightedCost (defaultWeighting Real.log) cheapOrder ≤
      weightedCost (defaultWeighting Real.log) dearOrder := by
  have hkeys : comparePathkeys [⟨2⟩] [⟨1⟩] = .different := by decide
  have hlist : ([dearOrder, cheapOrder].foldl addPartialPath
      (emptyRel ⟨false, false⟩)).partialPathlist = [cheapOrder, dearOrder] := by
    have hlt : ¬ (100 : ℝ) ≤ 10 := by norm_num
    simp [addPartialPath, offer, scan, emptyRel, addPartialPathVerdict, dearOrder, cheapOrder,
      plainPath, hkeys, belongsAfter, hlt]
  have h := sorted_heads_cheapest (defaultWeighting log) strictMonoOn_log zero_le_one
    ⟨false, false⟩ [dearOrder, cheapOrder] (by norm_num [dearOrder, cheapOrder, plainPath])
    cheapOrder dearOrder (.inl (by rw [hlist]; simp))
  exact ⟨hlist, h.1, (h.2 rfl).1⟩

/-- Two sort orders at the same total cost; the first needs more startup. -/
noncomputable def lateStart : Path ℝ := { plainPath 5 10 40 10 with pathkeys := [⟨1⟩] }
noncomputable def earlyStart : Path ℝ := { plainPath 1 10 40 10 with pathkeys := [⟨2⟩] }

/-- With the default weights, the head of both lists is strictly worse than
the other member: equal total costs stand in the order of the offers, and
startup cost is not looked at. -/
theorem head_worse_on_startup :
    ([lateStart, earlyStart].foldl addPartialPath (emptyRel ⟨false, false⟩)).partialPathlist =
      [lateStart, earlyStart] ∧
    ([lateStart, earlyStart].foldl (addPath (defaultWeighting Real.log))
      (emptyRel ⟨false, false⟩)).pathlist =
      [lateStart, earlyStart] ∧
    getCheapestParallelSafeTotalInner [lateStart, earlyStart] = some lateStart ∧
    earlyStart.parallelSafe = true ∧ bmsIsEmpty (pathReqOuter earlyStart) = true ∧
    comparePathCosts (defaultWeighting Real.log) lateStart earlyStart .totalCost = 1 := by
  have hkeys : comparePathkeys [⟨2⟩] [⟨1⟩] = .different := by decide
  refine ⟨?_, ?_, ?_, rfl, rfl, ?_⟩
  · simp [addPartialPath, offer, scan, emptyRel, addPartialPathVerdict, lateStart,
      earlyStart, plainPath, hkeys, belongsAfter]
  · simp [addPath, offer, scan, emptyRel, addPathVerdict, lateStart, earlyStart, plainPath,
      effectivePathkeys, hkeys, belongsAfter]
  · simp [getCheapestParallelSafeTotalInner, lateStart, plainPath, pathReqOuter, bmsIsEmpty]
  · simp [comparePathCosts, weightedCost, lateStart, earlyStart, plainPath]

end GreenPipeline.L3.AddPath
