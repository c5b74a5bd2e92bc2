import GreenPipeline.Core.LevelOrder
import Mathlib.Data.List.GetD

/-!
# Searching a page of the free space map

`src/backend/storage/freespace/fsmpage.c`: a page is a binary tree in an array, the
free space of its slots in the leaves and the maximum of the children in every inner
node. The inner levels are complete and the leaf level is cut off on the right. A
search starts at `fp_next_slot`, goes right and up until a node promises enough
space and follows the promise down; a promise that does not hold means a torn page,
which is rebuilt.

Results:

* `rightneighbor_nodeAt`: the bit trick is the right neighbour on the same level.
* `climb_spec`, `descend_spec`: the two loops of the search.
* `fsmSearchAvail_spec`: the search returns the first suitable slot from
  `fp_next_slot` on, cyclically, or -1 if there is none.
* `fsmRebuildPage_consistent`, `fsmSetAvail_consistent`: the operations keep inner
  nodes right.
* `run_consistent`: so they are on every page that operations produce, and one pass
  of a search on it returns a suitable slot, or -1 if there is none.
* `fsmSearchAvail_restart`: on any page at all one rebuild is enough.
* `page_heals`: all of this for every tree size.
-/
namespace GreenPipeline.L2.FsmPage

open GreenPipeline.Core.LevelOrder Nat List

/-! ## Pages -/

/-- A tree with complete inner levels. With a block size of `2 * 2 ^ height` there are
`2 ^ height - 1` inner nodes, and the page header costs a few leaves. -/
structure TreeSize where
  height : Nat
  leafNodesPerPage : Nat
  leaf_pos : 0 < leafNodesPerPage
  leaf_le : leafNodesPerPage ≤ 2 ^ height
  /-- Slot numbers are held in a `uint16`; block sizes go up to 2^15. -/
  leaf_fits : leafNodesPerPage ≤ 65536

namespace TreeSize

/-- mirrors src/include/storage/fsm_internals.h:51-55 -/
def nonLeafNodesPerPage (sz : TreeSize) : Nat := 2 ^ sz.height - 1

def nodesPerPage (sz : TreeSize) : Nat := sz.nonLeafNodesPerPage + sz.leafNodesPerPage

end TreeSize

/-- mirrors src/include/storage/fsm_internals.h:24-43 -/
structure FSMPage (sz : TreeSize) where
  fpNextSlot : Int
  fpNodes : List Nat
  length_nodes : fpNodes.length = sz.nodesPerPage

variable {sz : TreeSize}

namespace FSMPage

/-- `fp_nodes[nodeno]`; nodes that do not exist count as zero. -/
def node (page : FSMPage sz) (nodeno : Nat) : Nat := page.fpNodes.getD nodeno 0

def setNode (page : FSMPage sz) (nodeno value : Nat) : FSMPage sz :=
  { page with
    fpNodes := page.fpNodes.set nodeno value
    length_nodes := by rw [List.length_set, page.length_nodes] }

/-- mirrors fsmpage.c:121-129 (`fsm_get_avail`) -/
def fsmGetAvail (page : FSMPage sz) (slot : Nat) : Nat := page.node (sz.nonLeafNodesPerPage + slot)

end FSMPage

open FSMPage

/-! ## The code -/

/-- mirrors fsmpage.c:29-31 -/
def leftchild (x : Nat) : Nat := 2 * x + 1

def rightchild (x : Nat) : Nat := 2 * x + 2

def parentof (x : Nat) : Nat := (x - 1) / 2

/-- mirrors fsmpage.c:36-55 -/
def rightneighbor (x : Nat) : Nat :=
  let x := x + 1
  if (x + 1) &&& x = 0 then parentof x else x

/-- The value of an inner node by its existing children.
mirrors fsmpage.c:354-364 -/
def childMax (page : FSMPage sz) (nodeno : Nat) : Nat :=
  let newvalue := if leftchild nodeno < sz.nodesPerPage then page.node (leftchild nodeno) else 0
  if rightchild nodeno < sz.nodesPerPage then
    max newvalue (page.node (rightchild nodeno)) else newvalue

/-- Nodes below `n`, from the last to the first.
mirrors fsmpage.c:352-371 -/
def rebuildLoop : Nat → Bool × FSMPage sz → Bool × FSMPage sz
  | 0, s => s
  | n + 1, (changed, page) =>
    rebuildLoop n (if page.node n ≠ childMax page n then
      (true, page.setNode n (childMax page n)) else (changed, page))

/-- mirrors fsmpage.c:341-374 -/
def fsmRebuildPage (page : FSMPage sz) : Bool × FSMPage sz :=
  rebuildLoop sz.nonLeafNodesPerPage (false, page)

theorem rightneighbor_le (x : Nat) : rightneighbor x ≤ x + 1 := by
  unfold rightneighbor parentof
  dsimp only
  split
  · omega
  · exact le_refl _

/-- The loop that goes right and up.
mirrors fsmpage.c:227-238 -/
def climb (page : FSMPage sz) (minvalue nodeno : Nat) : Nat :=
  if 0 < nodeno then
    if minvalue ≤ page.node nodeno then nodeno
    else climb page minvalue (parentof (rightneighbor nodeno))
  else nodeno
termination_by nodeno
decreasing_by
  have := rightneighbor_le nodeno
  rw [parentof]
  omega

/-- The loop that goes down, left if it can. `none`: neither child has the space its parent
promised.
mirrors fsmpage.c:245-290 -/
def descend (page : FSMPage sz) (minvalue nodeno : Nat) : Option Nat :=
  if nodeno < sz.nonLeafNodesPerPage then
    if leftchild nodeno < sz.nodesPerPage ∧ minvalue ≤ page.node (leftchild nodeno) then
      descend page minvalue (leftchild nodeno)
    else if rightchild nodeno < sz.nodesPerPage ∧ minvalue ≤ page.node (rightchild nodeno) then
      descend page minvalue (rightchild nodeno)
    else none
  else some nodeno
termination_by sz.nonLeafNodesPerPage - nodeno
decreasing_by
  · rw [leftchild]
    omega
  · rw [rightchild]
    omega

/-- The slot a search starts from.
mirrors fsmpage.c:181-184 -/
def startSlot (page : FSMPage sz) : Nat :=
  if page.fpNextSlot < 0 ∨ (sz.leafNodesPerPage : Int) ≤ page.fpNextSlot then 0
  else page.fpNextSlot.toNat

/-- One pass of the search: the slot, or -1, and the page afterwards. `none`: the page is torn.
mirrors fsmpage.c:167-306 -/
def searchPass (page : FSMPage sz) (minvalue : Nat) (advancenext : Bool) :
    Option (Int × FSMPage sz) :=
  if page.node 0 < minvalue then some (-1, page)
  else
    let target := startSlot page + sz.nonLeafNodesPerPage
    match descend page minvalue (climb page minvalue target) with
    | some nodeno =>
      let slot := (nodeno - sz.nonLeafNodesPerPage) % 65536
      some (slot, { page with fpNextSlot := slot + if advancenext then 1 else 0 })
    | none => none

/-- A torn page is rebuilt and the search restarted, at most `restarts` times.
mirrors fsmpage.c:157-306 -/
def fsmSearchAvail : (restarts : Nat) → FSMPage sz → (minvalue : Nat) → (advancenext : Bool) →
    Option (Int × FSMPage sz)
  | 0, page, minvalue, advancenext => searchPass page minvalue advancenext
  | restarts + 1, page, minvalue, advancenext =>
    match searchPass page minvalue advancenext with
    | some r => some r
    | none => fsmSearchAvail restarts (fsmRebuildPage page).2 minvalue advancenext

variable {x minvalue : Nat} {advancenext : Bool}

theorem parentof_lt (h : 0 < parentof x) : parentof x < x := by
  unfold parentof at h ⊢
  omega

/-- The loop of `fsm_set_avail` from a changed node up to the root or to a node that is right.
mirrors fsmpage.c:83-103 -/
def propagate (page : FSMPage sz) (nodeno : Nat) : FSMPage sz :=
  let parent := parentof nodeno
  let newvalue :=
    if rightchild parent < sz.nodesPerPage then
      max (page.node (leftchild parent)) (page.node (rightchild parent))
    else page.node (leftchild parent)
  if page.node parent = newvalue then page
  else if 0 < parent then propagate (page.setNode parent newvalue) parent
  else page.setNode parent newvalue
termination_by nodeno
decreasing_by exact parentof_lt ‹_›

/-- mirrors fsmpage.c:62-114 -/
def fsmSetAvail (page : FSMPage sz) (slot value : Nat) : Bool × FSMPage sz :=
  let nodeno := sz.nonLeafNodesPerPage + slot
  if page.node nodeno = value ∧ value ≤ page.node 0 then (false, page)
  else
    let page := propagate (page.setNode nodeno value) nodeno
    (true, if page.node 0 < value then (fsmRebuildPage page).2 else page)

/-- Clears the leaves from `nslots` on.
mirrors fsmpage.c:321-328 -/
def clearLeaves (page : FSMPage sz) (nslots : Nat) : FSMPage sz :=
  { page with
    fpNodes := page.fpNodes.take (sz.nonLeafNodesPerPage + nslots) ++
      List.replicate (page.fpNodes.length - (sz.nonLeafNodesPerPage + nslots)) 0
    length_nodes := by
      have := page.length_nodes
      simp only [List.length_append, List.length_take, List.length_replicate]
      omega }

/-- mirrors fsmpage.c:312-335 -/
def fsmTruncateAvail (page : FSMPage sz) (nslots : Nat) : Bool × FSMPage sz :=
  let changed := (page.fpNodes.drop (sz.nonLeafNodesPerPage + nslots)).any (· != 0)
  let page := clearLeaves page nslots
  (changed, if changed then (fsmRebuildPage page).2 else page)

/-! ## Nodes -/

/-- Inner nodes are the maximum of their existing children. -/
def Consistent (page : FSMPage sz) : Prop :=
  ∀ x < sz.nonLeafNodesPerPage, page.node x = childMax page x

theorem node_of_ge (page : FSMPage sz) (h : sz.nodesPerPage ≤ x) : page.node x = 0 :=
  getD_eq_default _ _ (page.length_nodes ▸ h)

/-- Children that do not exist do not matter. -/
theorem childMax_eq (page : FSMPage sz) (x : Nat) :
    childMax page x = max (page.node (leftchild x)) (page.node (rightchild x)) := by
  have hleft : (if leftchild x < sz.nodesPerPage then page.node (leftchild x) else 0) =
      page.node (leftchild x) := by
    split
    · rfl
    · next hge => exact (node_of_ge page (Nat.le_of_not_lt hge)).symm
  rw [childMax, hleft]
  split
  · rfl
  · next hge => rw [node_of_ge page (Nat.le_of_not_lt hge), Nat.max_zero]

theorem Consistent.maxTree {page : FSMPage sz} (h : Consistent page) :
    MaxTree sz.height page.node := by
  intro d j hd hj
  rw [h _ (nodeAt_lt hd hj), childMax_eq, leftchild, rightchild, left_nodeAt, right_nodeAt]

/-- An inner node has a value if and only if a slot below it has. -/
theorem Consistent.le_node_iff {page : FSMPage sz} (h : Consistent page) {d k : Nat}
    (hdk : d + k = sz.height) {j : Nat} (hj : j < 2 ^ d) (minvalue : Nat) :
    minvalue ≤ page.node (nodeAt d j) ↔ ∃ s, s / 2 ^ k = j ∧ minvalue ≤ page.fsmGetAvail s :=
  le_val_iff h.maxTree hdk hj minvalue

theorem lt_leafNodesPerPage_of_pos {page : FSMPage sz} {s : Nat} (hmin : 0 < minvalue)
    (h : minvalue ≤ page.fsmGetAvail s) : s < sz.leafNodesPerPage := by
  by_contra hge
  have : page.fsmGetAvail s = 0 := node_of_ge page (Nat.add_le_add_left (Nat.le_of_not_lt hge) _)
  omega

/-! ## Right and up -/

/-- The bit trick finds the right neighbour on the same level, wrapping around. -/
theorem rightneighbor_nodeAt {d j : Nat} (hj : j < 2 ^ d) :
    rightneighbor (nodeAt d j) = nodeAt d ((j + 1) % 2 ^ d) := by
  have hx : nodeAt d j + 1 = 2 ^ d + j := by
    rw [nodeAt]
    omega
  rw [rightneighbor, hx]
  have htrick : (2 ^ d + j + 1) &&& (2 ^ d + j) = 0 ↔ (2 ^ d + j + 1).isPowerOfTwo :=
    and_sub_one_eq_zero_iff_isPowerOfTwo (succ_ne_zero _)
  by_cases hlast : j + 1 = 2 ^ d
  · have hpow : 2 ^ d + j + 1 = 2 ^ (d + 1) := by
      omega
    rw [if_pos (htrick.2 ⟨d + 1, hpow⟩), hlast, mod_self, parentof, nodeAt]
    omega
  · -- strictly between two powers
    rw [if_neg, mod_eq_of_lt (by omega), nodeAt]
    · omega
    · intro hzero
      obtain ⟨e, he⟩ := htrick.1 hzero
      have hlo : 2 ^ d < 2 ^ e := by omega
      have hhi : 2 ^ e < 2 ^ (d + 1) := by
        omega
      have := (Nat.pow_lt_pow_iff_right (by decide)).1 hlo
      have := (Nat.pow_lt_pow_iff_right (by decide)).1 hhi
      omega

/-- The climb stops at a node with enough space and has left no suitable slot behind. -/
theorem climb_spec {page : FSMPage sz} (h : Consistent page) {t : Nat}
    (hroot : minvalue ≤ page.node 0) {d k q : Nat} (hdk : d + k = sz.height)
    (hs : Scanned sz.height t (fun s => minvalue ≤ page.fsmGetAvail s) k q) :
    ∃ d' k' q', d' + k' = sz.height ∧
      climb page minvalue (nodeAt d (q % 2 ^ d)) = nodeAt d' (q' % 2 ^ d') ∧
      minvalue ≤ page.node (nodeAt d' (q' % 2 ^ d')) ∧
      Scanned sz.height t (fun s => minvalue ≤ page.fsmGetAvail s) k' q' := by
  induction d generalizing k q with
  | zero =>
    have hzero : nodeAt 0 (q % 2 ^ 0) = 0 := by
      rw [nodeAt, Nat.pow_zero, Nat.mod_one]
    refine ⟨0, k, q, hdk, ?_, by rwa [hzero], hs⟩
    rw [hzero, climb, if_neg (Nat.lt_irrefl 0)]
  | succ d ih =>
    have hmod : q % 2 ^ (d + 1) < 2 ^ (d + 1) := Nat.mod_lt q (Nat.two_pow_pos _)
    have hnode : 0 < nodeAt (d + 1) (q % 2 ^ (d + 1)) := by
      rw [nodeAt, Nat.pow_succ]
      omega
    rw [climb, if_pos hnode]
    by_cases hval : minvalue ≤ page.node (nodeAt (d + 1) (q % 2 ^ (d + 1)))
    · rw [if_pos hval]
      exact ⟨d + 1, k, q, hdk, rfl, hval, hs⟩
    · have hnone : ∀ s, s / 2 ^ k = q % 2 ^ (d + 1) → ¬ minvalue ≤ page.fsmGetAvail s :=
        fun s hspan hsuit =>
        hval ((h.le_node_iff hdk hmod minvalue).2 ⟨s, hspan, hsuit⟩)
      rw [if_neg hval, rightneighbor_nodeAt hmod, parentof, parent_nodeAt, up_mod]
      exact ih (by omega) (hs.up hdk hnone)

/-! ## Down -/

/-- From a node with enough space the descent reaches the first suitable slot below it. -/
theorem descend_spec {page : FSMPage sz} (h : Consistent page) (hmin : 0 < minvalue) {d k : Nat}
    (hdk : d + k = sz.height) {j : Nat} (hj : j < 2 ^ d)
    (hval : minvalue ≤ page.node (nodeAt d j)) :
    ∃ s, descend page minvalue (nodeAt d j) = some (sz.nonLeafNodesPerPage + s) ∧ s / 2 ^ k = j ∧
      minvalue ≤ page.fsmGetAvail s ∧ ∀ s', s' / 2 ^ k = j → s' < s →
      ¬ minvalue ≤ page.fsmGetAvail s' := by
  induction k generalizing d j with
  | zero =>
    obtain rfl : d = sz.height := hdk
    refine ⟨j, ?_, by rw [Nat.pow_zero, Nat.div_one], hval, fun s' hspan hlt => ?_⟩
    · have hleaf : nodeAt sz.height j = sz.nonLeafNodesPerPage + j := rfl
      rw [hleaf, descend, if_neg (by omega)]
    · omega
  | succ k ih =>
    have hinner : nodeAt d j < sz.nonLeafNodesPerPage := nodeAt_lt (by omega) hj
    have hright : 2 * j + 1 < 2 ^ (d + 1) := by
      omega
    have hexists : ∀ {x}, minvalue ≤ page.node x → x < sz.nodesPerPage := by
      intro x hx
      by_contra hge
      rw [node_of_ge page (Nat.le_of_not_lt hge)] at hx
      omega
    rw [descend, if_pos hinner, leftchild, rightchild, left_nodeAt, right_nodeAt]
    by_cases hleft : minvalue ≤ page.node (nodeAt (d + 1) (2 * j))
    · rw [if_pos ⟨hexists hleft, hleft⟩]
      obtain ⟨s, hdesc, hspan, hsuit, hleast⟩ := ih (by omega) (by omega) hleft
      refine ⟨s, hdesc, (div_succ_eq_iff s k j).2 (.inl hspan), hsuit, fun s' hspan' hlt => ?_⟩
      refine hleast s' ?_ hlt
      have := Nat.div_le_div_right (c := 2 ^ k) (Nat.le_of_lt hlt)
      have := (div_succ_eq_iff s' k j).1 hspan'
      omega
    · have hval' : minvalue ≤ page.node (nodeAt (d + 1) (2 * j + 1)) := by
        rw [h.maxTree d j (by omega) hj] at hval
        omega
      rw [if_neg (fun hc => hleft hc.2), if_pos ⟨hexists hval', hval'⟩]
      obtain ⟨s, hdesc, hspan, hsuit, hleast⟩ := ih (by omega) hright hval'
      refine ⟨s, hdesc, (div_succ_eq_iff s k j).2 (.inr hspan), hsuit, fun s' hspan' hlt => ?_⟩
      obtain hspan' | hspan' := (div_succ_eq_iff s' k j).1 hspan'
      · exact fun hsuit' =>
          hleft ((h.le_node_iff (by omega) (by omega) minvalue).2 ⟨s', hspan', hsuit'⟩)
      · exact hleast s' hspan' hlt

/-! ## The search -/

theorem startSlot_lt (page : FSMPage sz) : startSlot page < sz.leafNodesPerPage := by
  have := sz.leaf_pos
  unfold startSlot
  split
  · exact this
  · omega

/-- Climb and descent together. -/
theorem descend_climb {page : FSMPage sz} (h : Consistent page) (hroot : minvalue ≤ page.node 0) :
    ∃ i < sz.leafNodesPerPage,
    descend page minvalue (climb page minvalue (startSlot page + sz.nonLeafNodesPerPage)) =
      some (sz.nonLeafNodesPerPage + (startSlot page + i) % sz.leafNodesPerPage) ∧
    minvalue ≤ page.fsmGetAvail ((startSlot page + i) % sz.leafNodesPerPage) ∧
    ∀ e < i, page.fsmGetAvail ((startSlot page + e) % sz.leafNodesPerPage) < minvalue := by
  have ht := startSlot_lt page
  generalize startSlot page = t at ht ⊢
  have htop := lt_of_lt_of_le ht sz.leaf_le
  have htarget : t + sz.nonLeafNodesPerPage = nodeAt sz.height (t % 2 ^ sz.height) := by
    rw [mod_eq_of_lt htop, add_comm]
    rfl
  obtain rfl | hmin := Nat.eq_zero_or_pos minvalue
  · -- any slot will do, and the first one looked at is taken
    have hclimb : climb page 0 (t + sz.nonLeafNodesPerPage) = t + sz.nonLeafNodesPerPage := by
      rw [climb]
      split
      · rw [if_pos (zero_le _)]
      · rfl
    refine ⟨0, sz.leaf_pos, ?_, zero_le _, fun e he => absurd he (not_lt_zero e)⟩
    rw [hclimb, descend, if_neg (by omega), add_zero, mod_eq_of_lt ht, add_comm]
  · obtain ⟨d, k, q, hdk, hclimb, hval, hscan⟩ :=
      climb_spec h hroot (add_zero sz.height) (Scanned.init sz.height t _)
    obtain ⟨s, hdesc, hspan, hsuit, hleast⟩ :=
      descend_spec h hmin hdk (Nat.mod_lt q (Nat.two_pow_pos d)) hval
    obtain ⟨i, hi, hsi, hbefore⟩ :=
      hscan.first hdk sz.leaf_le ht (lt_leafNodesPerPage_of_pos hmin hsuit) hspan hleast
    refine ⟨i, hi, ?_, hsi ▸ hsuit, fun e he => Nat.lt_of_not_le (hbefore e he)⟩
    rw [htarget, hclimb, hdesc, ← hsi]

/-- The root shows whether there is a suitable slot. -/
theorem Consistent.root_lt_iff {page : FSMPage sz} (h : Consistent page) (minvalue : Nat) :
    page.node 0 < minvalue ↔ ∀ s < sz.leafNodesPerPage, page.fsmGetAvail s < minvalue := by
  have hroot := h.le_node_iff (Nat.zero_add sz.height) (Nat.two_pow_pos 0) minvalue
  constructor
  · intro hlt s hs
    by_contra hsuit
    have hspan := Nat.div_eq_of_lt (Nat.lt_of_lt_of_le hs sz.leaf_le)
    exact Nat.not_le.2 hlt (hroot.2 ⟨s, hspan, Nat.le_of_not_lt hsuit⟩)
  · intro hall
    by_contra hge
    obtain ⟨s, -, hsuit⟩ := hroot.1 (Nat.le_of_not_lt hge)
    have hmin := Nat.lt_of_le_of_lt (Nat.zero_le _) (hall 0 sz.leaf_pos)
    exact Nat.not_le.2 (hall s (lt_leafNodesPerPage_of_pos hmin hsuit)) hsuit

theorem fsmSearchAvail_of_pass {page : FSMPage sz} {r : Int × FSMPage sz}
    (h : searchPass page minvalue advancenext = some r) (restarts : Nat) :
    fsmSearchAvail restarts page minvalue advancenext = some r := by
  cases restarts with
  | zero => exact h
  | succ restarts => rw [fsmSearchAvail, h]

/-- What a search leaves of the page. -/
theorem searchPass_page {page page' : FSMPage sz} {r : Int}
    (h : searchPass page minvalue advancenext = some (r, page')) :
    page'.fpNodes = page.fpNodes := by
  unfold searchPass at h
  split at h
  · obtain ⟨-, rfl⟩ := Prod.mk.inj (Option.some.inj h)
    rfl
  · dsimp only at h
    cases hdesc :
        descend page minvalue (climb page minvalue (startSlot page + sz.nonLeafNodesPerPage)) with
    | some nodeno =>
      rw [hdesc] at h
      obtain ⟨-, rfl⟩ := Prod.mk.inj (Option.some.inj h)
      rfl
    | none => exact absurd (hdesc ▸ h) (by simp)

/-- A pass over a consistent page never finds it torn. -/
theorem searchPass_spec {page : FSMPage sz} (h : Consistent page) (minvalue : Nat)
    (advancenext : Bool) :
    ∃ r page', searchPass page minvalue advancenext = some (r, page') ∧
      (r = -1 ↔ ∀ s < sz.leafNodesPerPage, page.fsmGetAvail s < minvalue) ∧
      (r ≠ -1 → ∃ i < sz.leafNodesPerPage, r = ((startSlot page + i) % sz.leafNodesPerPage : Nat) ∧
        minvalue ≤ page.fsmGetAvail ((startSlot page + i) % sz.leafNodesPerPage) ∧
        ∀ e < i, page.fsmGetAvail ((startSlot page + e) % sz.leafNodesPerPage) < minvalue) := by
  have hroot := h.root_lt_iff minvalue
  rw [searchPass]
  by_cases hlt : page.node 0 < minvalue
  · rw [if_pos hlt]
    exact ⟨-1, page, rfl, iff_of_true rfl (hroot.1 hlt), fun hne => absurd rfl hne⟩
  · rw [if_neg hlt]
    obtain ⟨i, hi, hdesc, hsuit, hbefore⟩ := descend_climb h (Nat.le_of_not_lt hlt)
    have hslot : (startSlot page + i) % sz.leafNodesPerPage < 65536 :=
      Nat.lt_of_lt_of_le (Nat.mod_lt _ sz.leaf_pos) sz.leaf_fits
    simp only [hdesc, Nat.add_sub_cancel_left, Nat.mod_eq_of_lt hslot]
    exact ⟨_, _, rfl, iff_of_false (by omega) fun hall => hlt (hroot.2 hall),
      fun _ => ⟨i, hi, rfl, hsuit, hbefore⟩⟩

/-- The search on a consistent page: -1 exactly if no slot is suitable, and otherwise the first
suitable one from the starting slot on, cyclically. -/
theorem fsmSearchAvail_spec (restarts : Nat) (page : FSMPage sz) (minvalue : Nat)
    (advancenext : Bool) (h : Consistent page) :
    ∃ r page', fsmSearchAvail restarts page minvalue advancenext = some (r, page') ∧
      (r = -1 ↔ ∀ s < sz.leafNodesPerPage, page.fsmGetAvail s < minvalue) ∧
      (r ≠ -1 → ∃ i < sz.leafNodesPerPage, r = ((startSlot page + i) % sz.leafNodesPerPage : Nat) ∧
        minvalue ≤ page.fsmGetAvail ((startSlot page + i) % sz.leafNodesPerPage) ∧
        ∀ e < i, page.fsmGetAvail ((startSlot page + e) % sz.leafNodesPerPage) < minvalue) := by
  obtain ⟨r, page', hpass, hr⟩ := searchPass_spec h minvalue advancenext
  exact ⟨r, page', fsmSearchAvail_of_pass hpass restarts, hr⟩

/-- Three slots, the fourth leaf missing. -/
def threeSlots : FSMPage ⟨2, 3, by decide, by decide, by decide⟩ := ⟨2, [5, 5, 3, 2, 5, 3], rfl⟩

/-- The search wraps around from the last slot. -/
theorem fsmSearchAvail_spec_threeSlots :
    ∃ r page', fsmSearchAvail 0 threeSlots 4 true = some (r, page') ∧
      (r = -1 ↔ ∀ s < 3, threeSlots.fsmGetAvail s < 4) ∧
      (r ≠ -1 → ∃ i < 3, r = ((startSlot threeSlots + i) % 3 : Nat) ∧
        4 ≤ threeSlots.fsmGetAvail ((startSlot threeSlots + i) % 3) ∧
        ∀ e < i, threeSlots.fsmGetAvail ((startSlot threeSlots + e) % 3) < 4) :=
  fsmSearchAvail_spec 0 threeSlots 4 true (by unfold Consistent; decide)

/-! ## Keeping pages consistent -/

theorem node_setNode (page : FSMPage sz) {i : Nat} (hi : i < sz.nodesPerPage) (v x : Nat) :
    (page.setNode i v).node x = if x = i then v else page.node x := by
  rw [node, node, setNode, getD_eq_getElem?_getD, getD_eq_getElem?_getD, getElem?_set]
  by_cases hx : i = x
  · rw [if_pos hx, if_pos hx.symm, if_pos (page.length_nodes ▸ hx ▸ hi), Option.getD_some]
  · rw [if_neg hx, if_neg (Ne.symm hx)]

theorem childMax_congr {page page' : FSMPage sz}
    (hleft : page'.node (leftchild x) = page.node (leftchild x))
    (hright : page'.node (rightchild x) = page.node (rightchild x)) :
    childMax page' x = childMax page x := by
  rw [childMax_eq, childMax_eq, hleft, hright]

theorem nonLeaf_lt_nodes (sz : TreeSize) (hx : x < sz.nonLeafNodesPerPage) : x < sz.nodesPerPage :=
  lt_of_lt_of_le hx (le_add_right _ _)

/-- The two pages have the same slots. -/
def SameSlots (page page' : FSMPage sz) : Prop := ∀ s, page'.fsmGetAvail s = page.fsmGetAvail s

theorem setNode_sameSlots (page : FSMPage sz) (hx : x < sz.nonLeafNodesPerPage) (v : Nat) :
    SameSlots page (page.setNode x v) := by
  intro s
  rw [fsmGetAvail, node_setNode page (nonLeaf_lt_nodes sz hx), if_neg (by omega)]
  rfl

/-- A node takes its children's maximum; the nodes after it stay as they are. -/
theorem node_rebuildStep (page : FSMPage sz) (changed : Bool) {n : Nat}
    (hn : n < sz.nodesPerPage) (x : Nat) :
    (if page.node n ≠ childMax page n then (true, page.setNode n (childMax page n)) else
      (changed, page)).2.node x =
      if x = n then childMax page n else page.node x := by
  split
  · exact node_setNode page hn _ x
  · next heq =>
    split
    · next hx => rw [hx, not_not.1 heq]
    · rfl

theorem rebuildLoop_spec {n : Nat} (hn : n ≤ sz.nonLeafNodesPerPage) (changed : Bool)
    (page : FSMPage sz)
    (hright : ∀ x, n ≤ x → x < sz.nonLeafNodesPerPage → page.node x = childMax page x) :
    Consistent (rebuildLoop n (changed, page)).2 ∧
    SameSlots page (rebuildLoop n (changed, page)).2 := by
  induction n generalizing changed page with
  | zero => exact ⟨fun x hx => hright x (zero_le x) hx, fun s => rfl⟩
  | succ n ih =>
    rw [rebuildLoop]
    have hnode := node_rebuildStep page changed (nonLeaf_lt_nodes sz hn)
    generalize (if page.node n ≠ childMax page n then (true, page.setNode n (childMax page n)) else
      (changed, page)) = s at hnode
    obtain ⟨changed', page'⟩ := s
    have hchildren : ∀ x, n ≤ x → childMax page' x = childMax page x := by
      intro x hx
      refine childMax_congr ?_ ?_
      · rw [hnode, if_neg (by rw [leftchild]; omega)]
      · rw [hnode, if_neg (by rw [rightchild]; omega)]
    have hright' : ∀ x, n ≤ x → x < sz.nonLeafNodesPerPage → page'.node x = childMax page' x := by
      intro x hx hlt
      rw [hchildren x hx, hnode]
      split
      · next heq => rw [heq]
      · exact hright x (by omega) hlt
    obtain ⟨hcons, hslots⟩ := ih (le_of_succ_le hn) changed' page' hright'
    refine ⟨hcons, fun s => (hslots s).trans ?_⟩
    rw [fsmGetAvail, hnode, if_neg (by omega)]
    rfl

/-- A rebuilt page is consistent, whatever it was, and keeps its slots. -/
theorem fsmRebuildPage_consistent (page : FSMPage sz) :
    Consistent (fsmRebuildPage page).2 ∧ SameSlots page (fsmRebuildPage page).2 :=
  rebuildLoop_spec (le_refl _) false page fun _ hx hlt => absurd hx (not_le.2 hlt)

/-- All inner nodes but one are right. -/
def ConsistentExcept (page : FSMPage sz) (x : Nat) : Prop :=
  ∀ y < sz.nonLeafNodesPerPage, y ≠ x → page.node y = childMax page y

/-- A changed node affects its parent only. -/
theorem childMax_setNode (page : FSMPage sz) (hx : x < sz.nodesPerPage) (v : Nat) {y : Nat}
    (hy : x ≠ 0 → y ≠ parentof x) : childMax (page.setNode x v) y = childMax page y := by
  refine childMax_congr ?_ ?_
  · rw [node_setNode page hx, if_neg]
    rintro rfl
    exact hy (by rw [leftchild]; omega) (by rw [parentof, leftchild]; omega)
  · rw [node_setNode page hx, if_neg]
    rintro rfl
    exact hy (by rw [rightchild]; omega) (by rw [parentof, rightchild]; omega)

/-- The new value of a parent. -/
theorem parent_value (page : FSMPage sz) (x : Nat) :
    (if rightchild x < sz.nodesPerPage then max (page.node (leftchild x)) (page.node (rightchild x))
    else page.node (leftchild x)) = childMax page x := by
  rw [childMax_eq]
  split
  · rfl
  · next hge => rw [node_of_ge page (Nat.le_of_not_lt hge), Nat.max_zero]

/-- Propagation mends the nodes above the changed one. -/
theorem propagate_spec (page : FSMPage sz) {nodeno : Nat}
    (hparent : parentof nodeno < sz.nonLeafNodesPerPage)
    (h : ConsistentExcept page (parentof nodeno)) :
    Consistent (propagate page nodeno) ∧ SameSlots page (propagate page nodeno) := by
  induction nodeno using Nat.strongRecOn generalizing page with
  | ind nodeno ih =>
    rw [propagate]
    simp only [parent_value]
    have hin := nonLeaf_lt_nodes sz hparent
    have hslots := setNode_sameSlots page hparent (childMax page (parentof nodeno))
    split
    · next heq =>
      refine ⟨fun y hy => ?_, fun s => rfl⟩
      by_cases hy' : y = parentof nodeno
      · rw [hy', heq]
      · exact h y hy hy'
    · split
      · next hpos =>
        have hup : parentof (parentof nodeno) < sz.nonLeafNodesPerPage :=
          lt_of_le_of_lt (by unfold parentof; omega) hparent
        have hexcept :
            ConsistentExcept (page.setNode (parentof nodeno) (childMax page (parentof nodeno)))
            (parentof (parentof nodeno)) := by
          intro y hy hne
          rw [childMax_setNode page hin _ fun _ => hne, node_setNode page hin]
          split
          · next heq => rw [heq]
          · next hne' => exact h y hy hne'
        obtain ⟨hcons, hsame⟩ := ih (parentof nodeno) (parentof_lt hpos) _ hup hexcept
        exact ⟨hcons, fun s => (hsame s).trans (hslots s)⟩
      · next hzero =>
        refine ⟨fun y hy => ?_, hslots⟩
        rw [childMax_setNode page hin _ fun hne => absurd (pos_of_ne_zero hne) hzero,
          node_setNode page hin]
        split
        · next heq => rw [heq]
        · next hne => exact h y hy hne

/-- Setting a slot changes that slot only and keeps the page consistent. -/
theorem fsmSetAvail_consistent (hheight : 0 < sz.height) {page : FSMPage sz}
    (h : Consistent page) {slot : Nat} (hslot : slot < sz.leafNodesPerPage) (value : Nat) :
    Consistent (fsmSetAvail page slot value).2 ∧
      ∀ s, (fsmSetAvail page slot value).2.fsmGetAvail s =
        if s = slot then value else page.fsmGetAvail s := by
  rw [fsmSetAvail]
  split
  · next hsame =>
    refine ⟨h, fun s => ?_⟩
    split
    · next hs => rw [hs, fsmGetAvail, hsame.1]
    · rfl
  · have hin : sz.nonLeafNodesPerPage + slot < sz.nodesPerPage := Nat.add_lt_add_left hslot _
    have htwo : 2 ≤ 2 ^ sz.height := le_self_pow (by omega) 2
    have hparent : parentof (sz.nonLeafNodesPerPage + slot) < sz.nonLeafNodesPerPage := by
      have := sz.leaf_le
      unfold parentof TreeSize.nonLeafNodesPerPage
      omega
    have hexcept : ConsistentExcept (page.setNode (sz.nonLeafNodesPerPage + slot) value)
        (parentof (sz.nonLeafNodesPerPage + slot)) := by
      intro y hy hne
      rw [childMax_setNode page hin _ fun _ => hne, node_setNode page hin, if_neg (by omega)]
      exact h y hy
    obtain ⟨hcons, hsame⟩ := propagate_spec _ hparent hexcept
    have hslots : ∀ s, (propagate (page.setNode (sz.nonLeafNodesPerPage + slot) value)
        (sz.nonLeafNodesPerPage + slot)).fsmGetAvail s =
          if s = slot then value else page.fsmGetAvail s := by
      intro s
      rw [hsame s, fsmGetAvail, node_setNode page hin]
      simp only [add_right_inj]
      rfl
    dsimp only
    split
    · obtain ⟨hcons', hsame'⟩ := fsmRebuildPage_consistent
        (propagate (page.setNode (sz.nonLeafNodesPerPage + slot) value)
          (sz.nonLeafNodesPerPage + slot))
      exact ⟨hcons', fun s => (hsame' s).trans (hslots s)⟩
    · exact ⟨hcons, hslots⟩

theorem Consistent.congr {page page' : FSMPage sz} (h : Consistent page)
    (hnode : ∀ x, page'.node x = page.node x) : Consistent page' := by
  intro x hx
  rw [hnode, h x hx, childMax_congr (hnode _) (hnode _)]

/-- Nodes from `nslots` on are zero and the others unchanged. -/
theorem node_clearLeaves (page : FSMPage sz) (nslots x : Nat) :
    (clearLeaves page nslots).node x =
      if x < sz.nonLeafNodesPerPage + nslots then page.node x else 0 := by
  rw [node, clearLeaves, node]
  simp only [getD_eq_getElem?_getD, getElem?_append, length_take, getElem?_take, getElem?_replicate]
  by_cases hx : x < sz.nonLeafNodesPerPage + nslots
  · rw [if_pos hx]
    by_cases hlen : x < page.fpNodes.length
    · rw [if_pos (by omega), if_pos hx]
    · rw [if_neg (by omega), if_neg (by omega), getElem?_eq_none (by omega), if_pos hx]
  · rw [if_neg (by omega), if_neg hx]
    split
    · rfl
    · rfl

/-- Truncation clears the slots from `nslots` on and keeps the page consistent. -/
theorem fsmTruncateAvail_consistent {page : FSMPage sz} (h : Consistent page) (nslots : Nat) :
    Consistent (fsmTruncateAvail page nslots).2 ∧
    ∀ s, (fsmTruncateAvail page nslots).2.fsmGetAvail s =
      if s < nslots then page.fsmGetAvail s else 0 := by
  have hslots : ∀ s, (clearLeaves page nslots).fsmGetAvail s =
      if s < nslots then page.fsmGetAvail s else 0 := by
    intro s
    rw [fsmGetAvail, node_clearLeaves]
    simp only [add_lt_add_iff_left]
    rfl
  rw [fsmTruncateAvail]
  split
  · obtain ⟨hcons, hsame⟩ := fsmRebuildPage_consistent (clearLeaves page nslots)
    exact ⟨hcons, fun s => (hsame s).trans (hslots s)⟩
  · next hchanged =>
    refine ⟨h.congr fun x => ?_, hslots⟩
    -- nothing was changed: the cleared leaves were zero
    rw [node_clearLeaves]
    split
    · rfl
    · next hx =>
      rw [node, getD_eq_getElem?_getD]
      cases hget : page.fpNodes[x]? with
      | none => rfl
      | some v =>
        have hmem : v ∈ page.fpNodes.drop (sz.nonLeafNodesPerPage + nslots) := by
          refine mem_iff_getElem?.2 ⟨x - (sz.nonLeafNodesPerPage + nslots), ?_⟩
          rw [getElem?_drop, Nat.add_sub_cancel' (Nat.le_of_not_lt hx), hget]
        by_contra hv
        exact hchanged (any_eq_true.2 ⟨v, hmem, by simpa using Ne.symm hv⟩)

/-! ## Torn pages -/

theorem climb_sound {page : FSMPage sz} (hroot : minvalue ≤ page.node 0) (nodeno : Nat) :
    minvalue ≤ page.node (climb page minvalue nodeno) ∧ climb page minvalue nodeno ≤ nodeno := by
  fun_induction climb page minvalue nodeno with
  | case1 nodeno _ hval => exact ⟨hval, le_refl _⟩
  | case2 nodeno hpos _ ih =>
    refine ⟨ih.1, le_trans ih.2 ?_⟩
    have := rightneighbor_le nodeno
    rw [parentof]
    omega
  | case3 nodeno hzero =>
    obtain rfl : nodeno = 0 := Nat.eq_zero_of_not_pos hzero
    exact ⟨hroot, le_refl _⟩

theorem descend_sound {page : FSMPage sz} {nodeno leaf : Nat} (hval : minvalue ≤ page.node nodeno)
    (hin : nodeno < sz.nodesPerPage) (h : descend page minvalue nodeno = some leaf) :
    sz.nonLeafNodesPerPage ≤ leaf ∧ leaf < sz.nodesPerPage ∧ minvalue ≤ page.node leaf := by
  fun_induction descend page minvalue nodeno with
  | case1 nodeno _ hleft ih => exact ih hleft.2 hleft.1 h
  | case2 nodeno _ _ hright ih => exact ih hright.2 hright.1 h
  | case3 nodeno => exact absurd h (by simp)
  | case4 nodeno hleaf =>
    obtain rfl := Option.some.inj h
    exact ⟨Nat.le_of_not_lt hleaf, hin, hval⟩

/-- A slot that a pass returns is suitable, on any page. -/
theorem searchPass_sound {page page' : FSMPage sz} {r : Int}
    (h : searchPass page minvalue advancenext = some (r, page')) (hr : r ≠ -1) :
    ∃ s < sz.leafNodesPerPage, r = (s : Nat) ∧ minvalue ≤ page.fsmGetAvail s := by
  unfold searchPass at h
  split at h
  · obtain ⟨rfl, -⟩ := Prod.mk.inj (Option.some.inj h)
    exact absurd rfl hr
  · next hroot =>
    dsimp only at h
    have hclimb := climb_sound (Nat.le_of_not_lt hroot) (startSlot page + sz.nonLeafNodesPerPage)
    have hstart := startSlot_lt page
    cases hdesc :
        descend page minvalue (climb page minvalue (startSlot page + sz.nonLeafNodesPerPage)) with
    | none => exact absurd (hdesc ▸ h) (by simp)
    | some leaf =>
      rw [hdesc] at h
      obtain ⟨rfl, -⟩ := Prod.mk.inj (Option.some.inj h)
      have hin : climb page minvalue (startSlot page + sz.nonLeafNodesPerPage) <
          sz.nodesPerPage := by
        unfold TreeSize.nodesPerPage
        omega
      obtain ⟨hge, hlt, hval⟩ := descend_sound hclimb.1 hin hdesc
      have hfits := sz.leaf_fits
      have hslot : leaf - sz.nonLeafNodesPerPage < sz.leafNodesPerPage := by
        unfold TreeSize.nodesPerPage at hlt
        omega
      refine ⟨leaf - sz.nonLeafNodesPerPage, hslot, by rw [mod_eq_of_lt (by omega)], ?_⟩
      rwa [fsmGetAvail, Nat.add_sub_cancel' hge]

/-- On any page at all the search ends after at most one rebuild, with a suitable slot or -1. -/
theorem fsmSearchAvail_restart (restarts : Nat) (page : FSMPage sz) (minvalue : Nat)
    (advancenext : Bool) :
    ∃ r page', fsmSearchAvail (restarts + 1) page minvalue advancenext = some (r, page') ∧
      (r ≠ -1 → ∃ s < sz.leafNodesPerPage, r = (s : Nat) ∧ minvalue ≤ page.fsmGetAvail s) := by
  rw [fsmSearchAvail]
  cases hpass : searchPass page minvalue advancenext with
  | some r => exact ⟨r.1, r.2, rfl, searchPass_sound hpass⟩
  | none =>
    obtain ⟨hcons, hsame⟩ := fsmRebuildPage_consistent page
    obtain ⟨r, page', hagain, -⟩ := searchPass_spec hcons minvalue advancenext
    refine ⟨r, page', fsmSearchAvail_of_pass hagain restarts, fun hr => ?_⟩
    obtain ⟨s, hs, hrs, hsuit⟩ := searchPass_sound hagain hr
    exact ⟨s, hs, hrs, hsame s ▸ hsuit⟩

/-- **Pages heal themselves.** Rebuilding makes any page consistent without
changing a slot; setting a slot and truncating keep a page consistent and
change the addressed slots only; and a search ends on any page content after
at most one rebuild, with -1 or a slot that has the space. A tree has at least
one inner node: `NonLeafNodesPerPage` is `BLCKSZ / 2 - 1`. -/
theorem page_heals (sz : TreeSize) (hheight : 0 < sz.height) :
    (∀ page : FSMPage sz, Consistent (fsmRebuildPage page).2 ∧
      SameSlots page (fsmRebuildPage page).2) ∧
    (∀ page : FSMPage sz, Consistent page → ∀ slot < sz.leafNodesPerPage, ∀ value,
      Consistent (fsmSetAvail page slot value).2 ∧
        ∀ s, (fsmSetAvail page slot value).2.fsmGetAvail s =
          if s = slot then value else page.fsmGetAvail s) ∧
    (∀ page : FSMPage sz, Consistent page → ∀ nslots,
      Consistent (fsmTruncateAvail page nslots).2 ∧
        ∀ s, (fsmTruncateAvail page nslots).2.fsmGetAvail s =
          if s < nslots then page.fsmGetAvail s else 0) ∧
    (∀ (page : FSMPage sz) (minvalue : Nat) (advancenext : Bool),
      ∃ r page', fsmSearchAvail 1 page minvalue advancenext = some (r, page') ∧
        (r = -1 ∨ ∃ s < sz.leafNodesPerPage, r = (s : Nat) ∧ minvalue ≤ page.fsmGetAvail s)) := by
  refine ⟨fsmRebuildPage_consistent,
    fun page h slot hslot value => fsmSetAvail_consistent hheight h hslot value,
    fun page h nslots => fsmTruncateAvail_consistent h nslots, fun page minvalue advancenext => ?_⟩
  obtain ⟨r, page', hsearch, hsuit⟩ := fsmSearchAvail_restart 0 page minvalue advancenext
  exact ⟨r, page', hsearch, or_iff_not_imp_left.2 hsuit⟩

/-- A torn page of three slots: the root promises 9, no slot has more than 5. -/
def tornPage : FSMPage ⟨2, 3, by decide, by decide, by decide⟩ := ⟨2, [9, 5, 3, 2, 5, 3], rfl⟩

theorem page_heals_tornPage :
    ∃ r page', fsmSearchAvail 1 tornPage 7 false = some (r, page') ∧
      (r = -1 ∨ ∃ s < 3, r = (s : Nat) ∧ 7 ≤ tornPage.fsmGetAvail s) :=
  (page_heals ⟨2, 3, by decide, by decide, by decide⟩ (by decide)).2.2.2 tornPage 7 false

/-! ## Runs -/

inductive Request
  | setAvail (slot value : Nat)
  | truncateAvail (nslots : Nat)
  | searchAvail (minvalue : Nat) (advancenext : Bool)
  /-- `fp_next_slot` is written under a shared lock and can end up as anything. -/
  | nextSlot (slot : Int)

/-- The slot exists. -/
def Request.Valid (sz : TreeSize) : Request → Prop
  | setAvail slot _ => slot < sz.leafNodesPerPage
  | _ => True

def step (page : FSMPage sz) : Request → FSMPage sz
  | .setAvail slot value => (fsmSetAvail page slot value).2
  | .truncateAvail nslots => (fsmTruncateAvail page nslots).2
  | .searchAvail minvalue advancenext =>
    match fsmSearchAvail 1 page minvalue advancenext with
    | some (_, page') => page'
    | none => page
  | .nextSlot slot => { page with fpNextSlot := slot }

/-- A zeroed page. -/
def newPage (sz : TreeSize) : FSMPage sz :=
  ⟨0, List.replicate sz.nodesPerPage 0, List.length_replicate⟩

theorem node_newPage (sz : TreeSize) (x : Nat) : (newPage sz).node x = 0 := by
  rw [node, newPage, getD_eq_getElem?_getD, getElem?_replicate]
  split
  · rfl
  · rfl

theorem newPage_consistent (sz : TreeSize) : Consistent (newPage sz) := by
  intro x _
  rw [childMax_eq, node_newPage, node_newPage, node_newPage, max_self]

theorem step_consistent (hheight : 0 < sz.height) {page : FSMPage sz} (h : Consistent page)
    {req : Request} (hreq : req.Valid sz) : Consistent (step page req) := by
  cases req with
  | setAvail slot value => exact (fsmSetAvail_consistent hheight h hreq value).1
  | truncateAvail nslots => exact (fsmTruncateAvail_consistent h nslots).1
  | searchAvail minvalue advancenext =>
    obtain ⟨r, page', hpass, -⟩ := searchPass_spec h minvalue advancenext
    rw [step, fsmSearchAvail_of_pass hpass 1]
    exact h.congr fun x => by rw [node, node, searchPass_page hpass]
  | nextSlot slot => exact h.congr fun x => rfl

theorem foldl_step_consistent (hheight : 0 < sz.height) {reqs : List Request}
    (hreqs : ∀ req ∈ reqs, req.Valid sz) {page : FSMPage sz} (h : Consistent page) :
    Consistent (reqs.foldl step page) := by
  induction reqs generalizing page with
  | nil => exact h
  | cons req reqs ih =>
    exact ih (forall_mem_cons.1 hreqs).2 (step_consistent hheight h (hreqs req mem_cons_self))

/-- **No promise is broken.** On every page that requests produce, inner nodes
are right, and one pass of a search, which never finds the page torn, returns
a suitable slot, or -1 if there is none. -/
theorem run_consistent (hheight : 0 < sz.height) (reqs : List Request)
    (hreqs : ∀ req ∈ reqs, req.Valid sz) :
    let page := reqs.foldl step (newPage sz)
    Consistent page ∧ ∀ minvalue advancenext, ∃ r page',
      searchPass page minvalue advancenext = some (r, page') ∧
      (r = -1 ↔ ∀ s < sz.leafNodesPerPage, page.fsmGetAvail s < minvalue) ∧
      (r ≠ -1 → ∃ s < sz.leafNodesPerPage, r = (s : Nat) ∧ minvalue ≤ page.fsmGetAvail s) := by
  intro page
  have hpage : Consistent page := foldl_step_consistent hheight hreqs (newPage_consistent sz)
  refine ⟨hpage, fun minvalue advancenext => ?_⟩
  obtain ⟨r, page', hpass, hnone, -⟩ := searchPass_spec hpage minvalue advancenext
  exact ⟨r, page', hpass, hnone, searchPass_sound hpass⟩

/-- Two slots are filled, `fp_next_slot` is scribbled on, one slot is cut off
again and another found. -/
def fsmRequests : List Request :=
  [.setAvail 1 7, .setAvail 2 9, .nextSlot (-5), .truncateAvail 2, .searchAvail 6 true]

theorem run_consistent_fsmRequests :
    let page := fsmRequests.foldl step (newPage ⟨2, 3, by decide, by decide, by decide⟩)
    Consistent page ∧ ∀ minvalue advancenext, ∃ r page',
      searchPass page minvalue advancenext = some (r, page') ∧
      (r = -1 ↔ ∀ s < 3, page.fsmGetAvail s < minvalue) ∧
      (r ≠ -1 → ∃ s < 3, r = (s : Nat) ∧ minvalue ≤ page.fsmGetAvail s) :=
  run_consistent (by decide) fsmRequests (by simp [fsmRequests, Request.Valid])

end GreenPipeline.L2.FsmPage
