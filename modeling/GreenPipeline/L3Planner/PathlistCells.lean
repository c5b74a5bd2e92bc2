import GreenPipeline.Core.Loop
import GreenPipeline.L1Nodes.ListCells
import GreenPipeline.L3Planner.AddPath

/-!
# The pathlists as lists of cells

`add_path` and `add_partial_path` delete cells from the list they are walking along and remember a
cell, `insert_after`, behind which the new path may be put. Here they work on the cells
themselves. Following a pointer to a cell that has been freed gives `none`.

Sources: `src/backend/optimizer/util/pathnode.c`.

Results:

* `scanCells_spec`: the walk never uses a freed cell, and its list is the one of the tournament
  (`Core.Tournament`).
* `Abstracts.call`: both functions refine those on lists of paths, and each leaves the other list
  alone.
* `pathlists_sorted`: after any calls both lists are ordered by total cost.
-/
namespace GreenPipeline.L3.PathlistCells

open GreenPipeline.Core.CellHeap GreenPipeline.Core.Loop GreenPipeline.Core.Tournament List
open GreenPipeline.L1.ListCells GreenPipeline.L3.PathCosts GreenPipeline.L3.AddPath

variable {α : Type*}

/-! ## The walk -/

/-- The variables of the loop. -/
structure ScanVars (α : Type*) where
  heap : CellHeap α
  list : Option PgList
  p1 : Option ℕ
  p1Prev : Option ℕ
  insertAfter : Option ℕ

/-- The list behind the loop, and `accept_new`. -/
structure ScanResult (α : Type*) where
  heap : CellHeap α
  list : Option PgList
  accepted : Bool

section Walk

variable (al : Allocator) (verdict : α → α → Verdict) (after : α → α → Bool) (new : α)

/-- The new path is accepted. mirrors pathnode.c:676-683, 912-920 -/
def insertNew (s : ScanVars α) : Option (ScanResult α) :=
  match s.insertAfter with
  | some cell => (lappendCell al s.heap s.list cell new).map fun r => ⟨r.1, r.2, true⟩
  | none => some ⟨(lcons al s.heap s.list new).1, (lcons al s.heap s.list new).2, true⟩

/-- One round of the loop. mirrors pathnode.c:502-674, 831-910 -/
def scanRound (s : ScanVars α) : ScanVars α ⊕ Option (ScanResult α) :=
  match s.p1 with
  | none => .inr (insertNew al new s)
  | some p1 =>
    match s.heap.read p1 with
    | none => .inr none
    | some cell =>
      match verdict new cell.data with
      | .removeOld =>
        match listDeleteCell s.heap s.list p1 s.p1Prev with
        | none => .inr none
        -- `p1_prev` does not advance
        | some r => .inl { s with heap := r.1, list := r.2, p1 := cell.next }
      | .keepBoth =>
        .inl { s with
          p1 := cell.next
          p1Prev := some p1
          insertAfter := if after new cell.data then some p1 else s.insertAfter }
      | .rejectNew => .inr (some ⟨s.heap, s.list, false⟩)

/-- The walk along a list. There are no more rounds than cells, and one for the end. -/
def scanCells (h : CellHeap α) (list : Option PgList) : Option (ScanResult α) :=
  (iterate (scanRound al verdict after new) ((list.elim 0 PgList.length) + 1) ⟨h, list,
    listHead list, none, none⟩).join

end Walk

/-! ## The walk and the tournament -/

/-- A list became another one: other cells are as before, and its cells are old ones of the list
or were free. -/
structure Moves (h : CellHeap α) (cs : List (ℕ × α)) (h' : CellHeap α) (list' : Option PgList)
    (cs' : List (ℕ × α)) : Prop where
  represents : Represents h' list' cs'
  frame : Frame h h' cs
  own : ∀ c ∈ cs', c.1 ∈ cs.map Prod.fst ∨ h.read c.1 = none

theorem Moves.refl {h : CellHeap α} {list : Option PgList} {cs : List (ℕ × α)}
    (hr : Represents h list cs) : Moves h cs h list cs :=
  ⟨hr, fun _ _ _ => rfl, fun _ hc => Or.inl (mem_map_of_mem hc)⟩

theorem Moves.trans {h h' h'' : CellHeap α} {list' list'' : Option PgList}
    {cs cs' cs'' : List (ℕ × α)} (hfirst : Moves h cs h' list' cs') (hsub : cs' ⊆ cs)
    (hsecond : Moves h' cs' h'' list'' cs'') : Moves h cs h'' list'' cs'' := by
  refine ⟨hsecond.represents, hfirst.frame.trans hsecond.frame hsub, fun c hc => ?_⟩
  rcases hsecond.own c hc with hold | hfree
  · exact Or.inl (map_subset Prod.fst hsub hold)
  · by_cases hmem : c.1 ∈ cs.map Prod.fst
    · exact Or.inl hmem
    · right
      by_contra hread
      exact hread ((hfirst.frame c.1 hmem hread).symm.trans hfree)

section Refine

variable (al : Allocator) {verdict : α → α → Verdict} {after : α → α → Bool} {new : α}
  {h : CellHeap α} {list : Option PgList}

theorem insertNew_spec (new : α) {cs : List (ℕ × α)} (hr : Represents h list cs) (ins : ℕ)
    (p1 p1Prev : Option ℕ) :
    ∃ h' list' cs', insertNew al new ⟨h, list, p1, p1Prev, lastOf (cs.take ins)⟩ =
      some ⟨h', list', true⟩ ∧ Moves h cs h' list' cs' ∧
      cs'.map Prod.snd = (cs.map Prod.snd).take ins ++ new :: (cs.map Prod.snd).drop ins := by
  rw [insertNew, ← map_take, ← map_drop]
  rcases eq_nil_or_concat' (cs.take ins) with hnil | ⟨front, ⟨a, x⟩, hfront⟩
  · -- before all cells
    obtain ⟨b, hfree, hrep, hframe⟩ := lcons_spec al new hr
    have hdrop : cs.drop ins = cs := by
      have hsplit := take_append_drop ins cs
      rwa [hnil, nil_append] at hsplit
    refine ⟨_, _, _, by rw [hnil]; rfl, ⟨hrep, hframe, ?_⟩, ?_⟩
    · intro c hc
      rcases mem_cons.mp hc with rfl | hc
      · exact Or.inr hfree
      · exact Or.inl (mem_map_of_mem hc)
    · rw [hnil, hdrop]
      rfl
  · -- behind the cell that was remembered
    have hcs : cs = front ++ (a, x) :: cs.drop ins := by
      conv_lhs => rw [← take_append_drop ins cs, hfront, append_assoc, singleton_append]
    have hr' := hr
    rw [hcs] at hr'
    obtain ⟨h', list', b, happend, hfree, hrep, hframe⟩ := lappendCell_spec al new hr'
    rw [← hcs] at hframe
    refine ⟨h', list', _, by rw [hfront, lastOf_concat]; simp only [happend, Option.map_some],
      ⟨hrep, hframe, ?_⟩, ?_⟩
    · intro c hc
      by_cases hb : c = (b, new)
      · exact Or.inr (hb ▸ hfree)
      · left
        rw [hcs]
        refine mem_map_of_mem ?_
        simp only [mem_append, mem_cons, hb, false_or] at hc ⊢
        exact hc
    · rw [hfront]
      simp

/-- The rest of the walk, with `kept` behind it. -/
theorem walk_spec : ∀ (rest kept : List (ℕ × α)) (h : CellHeap α) (list : Option PgList)
    (ins n : ℕ), Represents h list (kept ++ rest) →
    ins ≤ kept.length → rest.length < n →
    ∃ h' list' cs', iterate (scanRound al verdict after new) n ⟨h, list, firstOf rest, lastOf kept,
      lastOf (kept.take ins)⟩ =
        some (some ⟨h', list',
          (scan verdict after new (kept.map Prod.snd) ins (rest.map Prod.snd)).accepted⟩) ∧
      Moves h (kept ++ rest) h' list' cs' ∧ cs'.map Prod.snd =
        (scan verdict after new (kept.map Prod.snd) ins (rest.map Prod.snd)).entries := by
  intro rest
  induction rest with
  | nil =>
    intro kept h list ins n hr hins hn
    obtain ⟨n, rfl⟩ : ∃ m, n = m + 1 := ⟨n - 1, by omega⟩
    rw [append_nil] at hr ⊢
    obtain ⟨h', list', cs', hins', hmoves, hentries⟩ :=
      insertNew_spec al new hr ins (firstOf ([] : List (ℕ × α))) (lastOf kept)
    exact ⟨h', list', cs', iterate_of_inr (congrArg Sum.inr hins') n, hmoves, hentries⟩
  | cons c rest ih =>
    intro kept h list ins n hr hins hn
    obtain ⟨a, x⟩ := c
    obtain ⟨n, rfl⟩ : ∃ m, n = m + 1 := ⟨n - 1, by omega⟩
    rw [length_cons] at hn
    obtain ⟨q, -, rfl, next, hread, hrest⟩ := seg_append.mp hr.seg
    obtain rfl := hrest.eq_firstOf
    cases hverdict : verdict new x with
    | removeOld =>
      obtain ⟨h1, list1, hdelete, hr1, hframe⟩ := listDeleteCell_spec hr
      obtain ⟨h', list', cs', hrun, hmoves, hentries⟩ := ih kept h1 list1 ins n hr1 hins (by omega)
      have hstep :
          scanRound al verdict after new ⟨h, list, some a, lastOf kept, lastOf (kept.take ins)⟩ =
          .inl ⟨h1, list1, firstOf rest, lastOf kept, lastOf (kept.take ins)⟩ := by
        simp only [scanRound, hread, hverdict, hdelete]
      have hsub : kept ++ rest ⊆ kept ++ (a, x) :: rest := by
        intro c hc
        simp only [mem_append, mem_cons] at hc ⊢
        exact hc.imp_right Or.inr
      have hfirst : Moves h (kept ++ (a, x) :: rest) h1 list1 (kept ++ rest) :=
        ⟨hr1, hframe, fun c hc => Or.inl (mem_map_of_mem (hsub hc))⟩
      refine ⟨h', list', cs', ?_, hfirst.trans hsub hmoves, ?_⟩
      · rw [show firstOf ((a, x) :: rest) = some a from rfl, iterate_of_inl hstep, hrun]
        simp only [map_cons, scan, hverdict]
      · simp only [map_cons, scan, hverdict]
        exact hentries
    | keepBoth =>
      rw [append_cons] at hr
      have hlen : (if after new x then (kept.map Prod.snd).length + 1 else ins) ≤
          (kept ++ [(a, x)]).length := by
        rw [length_append, length_map, length_singleton]
        split <;> omega
      obtain ⟨h', list', cs', hrun, hmoves, hentries⟩ :=
        ih (kept ++ [(a, x)]) h list _ n hr hlen (by omega)
      have hremembered :
          lastOf ((kept ++ [(a, x)]).take
            (if after new x then (kept.map Prod.snd).length + 1 else ins)) =
          if after new x then some a else lastOf (kept.take ins) := by
        split
        · rw [take_of_length_le (by simp), lastOf_concat]
        · rw [take_append_of_le_length hins]
      have hstep :
          scanRound al verdict after new ⟨h, list, some a, lastOf kept, lastOf (kept.take ins)⟩ =
          .inl ⟨h, list, firstOf rest, lastOf (kept ++ [(a, x)]),
            lastOf ((kept ++ [(a, x)]).take
              (if after new x then (kept.map Prod.snd).length + 1 else ins))⟩ := by
        simp only [scanRound, hread, hverdict, hremembered, lastOf_concat]
      rw [append_cons]
      rw [map_append] at hrun hentries
      refine ⟨h', list', cs', ?_, hmoves, ?_⟩
      · rw [show firstOf ((a, x) :: rest) = some a from rfl, iterate_of_inl hstep, hrun]
        simp only [map_cons, scan, hverdict, map_nil]
      · simp only [map_cons, scan, hverdict]
        exact hentries
    | rejectNew =>
      have hstep : scanRound al verdict after new
          ⟨h, list, some a, lastOf kept, lastOf (kept.take ins)⟩ =
            .inr (some ⟨h, list, false⟩) := by
        simp only [scanRound, hread, hverdict]
      refine ⟨h, list, _, ?_, Moves.refl hr, ?_⟩
      · rw [show firstOf ((a, x) :: rest) = some a from rfl, iterate_of_inr hstep]
        simp only [map_cons, scan, hverdict]
      · simp only [map_cons, scan, hverdict, map_append]

/-- The walk never uses a freed cell, and its list is the one of the tournament. -/
theorem scanCells_spec (verdict : α → α → Verdict) (after : α → α → Bool) (new : α)
    {cs : List (ℕ × α)} (hr : Represents h list cs) :
    ∃ h' list' cs', scanCells al verdict after new h list =
      some ⟨h', list', (offer verdict after (cs.map Prod.snd) new).accepted⟩ ∧
      Moves h cs h' list' cs' ∧
      cs'.map Prod.snd = (offer verdict after (cs.map Prod.snd) new).entries := by
  have hlength : list.elim 0 PgList.length = cs.length := by
    cases hlist : list with
    | none =>
      rw [hr.nil.mp hlist]
      rfl
    | some l => exact (hr.header l hlist).1
  obtain ⟨h', list', cs', hrun, hmoves, hentries⟩ :=
    walk_spec al cs [] h list 0 (cs.length + 1) hr (Nat.le_refl 0) (Nat.lt_succ_self _)
  refine ⟨h', list', cs', ?_, hmoves, hentries⟩
  rw [scanCells, hlength, hr.seg.eq_firstOf]
  exact congrArg Option.join hrun

end Refine

/-! ## Calls -/

/-- The lists of a rel with the heap their cells are in. -/
structure CellRel (K : Type*) where
  heap : CellHeap (Path K)
  pathlist : Option PgList
  partialPathlist : Option PgList

/-- A call with the weights of that time. -/
inductive PathCall (K : Type*)
  | addPath (w : Weighting K) (newPath : Path K)
  | addPartialPath (newPath : Path K)

variable {K : Type*}

/-- No path has been offered. -/
def emptyCells : CellRel K := ⟨Heap.empty, none, none⟩

variable {rel : RelOptInfo K}

section Calls

/-- The two lists of cells are apart from each other and have these paths. -/
def Abstracts (cells : CellRel K) (rel : RelOptInfo K) : Prop :=
  ∃ cs ds, Represents cells.heap cells.pathlist cs ∧
    Represents cells.heap cells.partialPathlist ds ∧
    (∀ c ∈ cs, ∀ d ∈ ds, c.1 ≠ d.1) ∧ cs.map Prod.snd = rel.pathlist ∧
    ds.map Prod.snd = rel.partialPathlist

theorem abstracts_empty (flags : ParentRel) : Abstracts (emptyCells : CellRel K) (emptyRel flags) :=
  ⟨[], [], represents_nil _, represents_nil _, by simp, rfl, rfl⟩

/-- A list apart from the one that moves stays apart and as it is. -/
theorem Moves.other {h h' : CellHeap (Path K)} {list' other : Option PgList}
    {cs cs' ds : List (ℕ × Path K)} (hmoves : Moves h cs h' list' cs')
    (hother : Represents h other ds) (hapart : ∀ c ∈ cs, ∀ d ∈ ds, c.1 ≠ d.1) :
    Represents h' other ds ∧ ∀ c ∈ cs', ∀ d ∈ ds, c.1 ≠ d.1 := by
  have hread : ∀ d ∈ ds, h.read d.1 ≠ none := fun d hd => hother.seg.read_ne_none hd
  have hnot : ∀ d ∈ ds, d.1 ∉ cs.map Prod.fst := by
    intro d hd hmem
    obtain ⟨c, hc, heq⟩ := mem_map.mp hmem
    exact hapart c hc d hd heq
  refine ⟨hother.frame fun d hd => hmoves.frame d.1 (hnot d hd) (hread d hd),
    fun c hc d hd heq => ?_⟩
  rcases hmoves.own c hc with hold | hfree
  · exact hnot d hd (heq ▸ hold)
  · exact hread d hd (heq ▸ hfree)

variable [Add K] [Mul K] [LT K] [DecidableLT K] [LE K] [DecidableLE K] [OfScientific K]

/-- mirrors pathnode.c:474-690 -/
def addPathCells (al : Allocator) (w : Weighting K) (rel : CellRel K) (newPath : Path K) :
    Option (CellRel K) :=
  (scanCells al (addPathVerdict w) belongsAfter newPath rel.heap rel.pathlist).map fun r =>
    { rel with heap := r.heap, pathlist := r.list }

/-- mirrors pathnode.c:814-926 -/
def addPartialPathCells (al : Allocator) (rel : CellRel K) (newPath : Path K) :
    Option (CellRel K) :=
  (scanCells al addPartialPathVerdict belongsAfter newPath rel.heap rel.partialPathlist).map
    fun r =>
    { rel with heap := r.heap, partialPathlist := r.list }

def callCells (al : Allocator) (rel : CellRel K) : PathCall K → Option (CellRel K)
  | .addPath w newPath => addPathCells al w rel newPath
  | .addPartialPath newPath => addPartialPathCells al rel newPath

/-- A call on lists of paths. -/
def callRel (rel : RelOptInfo K) : PathCall K → RelOptInfo K
  | .addPath w newPath => addPath w rel newPath
  | .addPartialPath newPath => addPartialPath rel newPath

/-- A call on the cells refines the call on the paths. -/
theorem Abstracts.call (al : Allocator) {cells : CellRel K} (habs : Abstracts cells rel)
    (call : PathCall K) :
    ∃ cells', callCells al cells call = some cells' ∧ Abstracts cells' (callRel rel call) := by
  obtain ⟨cs, ds, hcs, hds, hapart, hpaths, hpartial⟩ := habs
  cases call with
  | addPath w newPath =>
    obtain ⟨h', list', cs', hscan, hmoves, hentries⟩ :=
      scanCells_spec al (addPathVerdict w) belongsAfter newPath hcs
    obtain ⟨hds', hapart'⟩ := hmoves.other hds hapart
    refine ⟨⟨h', list', cells.partialPathlist⟩, ?_, cs', ds, hmoves.represents, hds',
      hapart', ?_, hpartial⟩
    · rw [callCells, addPathCells, hscan]
      rfl
    · rw [hentries, hpaths]
      rfl
  | addPartialPath newPath =>
    obtain ⟨h', list', ds', hscan, hmoves, hentries⟩ :=
      scanCells_spec al addPartialPathVerdict belongsAfter newPath hds
    obtain ⟨hcs', hapart'⟩ := hmoves.other hcs fun d hd c hc => (hapart c hc d hd).symm
    refine ⟨⟨h', cells.pathlist, list'⟩, ?_, cs, ds', hcs', hmoves.represents,
      fun c hc d hd => (hapart' d hd c hc).symm, hpaths, ?_⟩
    · rw [callCells, addPartialPathCells, hscan]
      rfl
    · rw [hentries, hpartial]
      rfl

/-- Any calls on the cells refine those on the paths. -/
theorem Abstracts.calls (al : Allocator) (calls : List (PathCall K)) {cells : CellRel K}
    (habs : Abstracts cells rel) :
    ∃ cells', calls.foldlM (callCells al) cells = some cells' ∧
      Abstracts cells' (calls.foldl callRel rel) := by
  induction calls generalizing cells rel with
  | nil => exact ⟨cells, rfl, habs⟩
  | cons call calls ih =>
    obtain ⟨cells1, hcall, habs1⟩ := habs.call al call
    obtain ⟨cells2, hrest, habs2⟩ := ih habs1
    refine ⟨cells2, ?_, habs2⟩
    rw [foldlM_cons, hcall]
    exact hrest

end Calls

/-! ## Order -/

section Order

variable [Field K] [LinearOrder K]

theorem callRel_sorted (hs : TotalSorted rel.pathlist ∧ TotalSorted rel.partialPathlist)
    (call : PathCall K) :
    TotalSorted (callRel rel call).pathlist ∧ TotalSorted (callRel rel call).partialPathlist := by
  cases call with
  | addPath w newPath => exact ⟨offer_sorted hs.1, hs.2⟩
  | addPartialPath newPath => exact ⟨hs.1, offer_sorted hs.2⟩

theorem calls_sorted (calls : List (PathCall K))
    (hs : TotalSorted rel.pathlist ∧ TotalSorted rel.partialPathlist) :
    TotalSorted (calls.foldl callRel rel).pathlist ∧
    TotalSorted (calls.foldl callRel rel).partialPathlist := by
  induction calls generalizing rel with
  | nil => exact hs
  | cons call calls ih => exact ih (callRel_sorted hs call)

/-- After any calls, with any weights, no freed cell has been used and both lists, read from their
heads, are ordered by total cost. -/
theorem pathlists_sorted (al : Allocator) (calls : List (PathCall K)) :
    ∃ (cells : CellRel K) (paths partials : List (Path K)),
      calls.foldlM (callCells al) emptyCells = some cells ∧
      listEntries cells.heap cells.pathlist = some paths ∧ TotalSorted paths ∧
      listEntries cells.heap cells.partialPathlist = some partials ∧ TotalSorted partials := by
  obtain ⟨cells, hrun, cs, ds, hcs, hds, -, hpaths, hpartials⟩ :=
    (abstracts_empty ⟨false, false⟩).calls al calls
  have hempty : TotalSorted (emptyRel ⟨false, false⟩ : RelOptInfo K).pathlist := List.Pairwise.nil
  obtain ⟨hsorted, hsorted'⟩ := calls_sorted calls ⟨hempty, List.Pairwise.nil⟩
  exact ⟨cells, _, _, hrun, hcs.walk, hpaths ▸ hsorted, hds.walk, hpartials ▸ hsorted'⟩

end Order

def sortedPath (total : ℚ) (pathkeys : List Pathkeys.PathKey) : Path ℚ :=
  { plainPath 0 total 40 10 with pathkeys := pathkeys }

/-- Among them three partial paths, and one that is sorted as well as two of
these and cheaper. -/
def deletingCalls : List (PathCall ℚ) :=
  [.addPath ⟨1, 0, id⟩ (sortedPath 30 [⟨1⟩]), .addPartialPath (sortedPath 30 [⟨1⟩]),
    .addPartialPath (sortedPath 40 [⟨1⟩, ⟨2⟩]), .addPartialPath (sortedPath 2 [⟨3⟩]),
    .addPartialPath (sortedPath 5 [⟨1⟩, ⟨2⟩])]

/-- The last call deletes two cells and puts its path behind the surviving one. -/
theorem pathlists_sorted_deletingCalls :
    ((deletingCalls.take 4).foldlM (callCells .top) emptyCells >>= fun cells =>
        (listEntries cells.heap cells.partialPathlist).map (map Path.totalCost)) =
      some [2, 30, 40] ∧
    (deletingCalls.foldlM (callCells .top) emptyCells >>= fun cells =>
        (listEntries cells.heap cells.partialPathlist).map (map Path.totalCost)) = some [2, 5] ∧
    ∃ (cells : CellRel ℚ) (paths partials : List (Path ℚ)),
      deletingCalls.foldlM (callCells .top) emptyCells = some cells ∧
      listEntries cells.heap cells.pathlist = some paths ∧ TotalSorted paths ∧
      listEntries cells.heap cells.partialPathlist = some partials ∧ TotalSorted partials :=
  ⟨by decide +kernel, by decide +kernel, pathlists_sorted .top deletingCalls⟩

end GreenPipeline.L3.PathlistCells
