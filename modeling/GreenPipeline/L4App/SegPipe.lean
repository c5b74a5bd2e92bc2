import GreenPipeline.Core.Climb
import Mathlib.Data.List.Infix
import Mathlib.Data.List.Nodup

/-!
# Pipeline segmentation (`SegPipe`)

`JavaApp/src/godpostgresql/FenP.java:1332-1409`, and the copy of the same
loops in `DisplGrActionPerformed` (`NFrame.java:1481-1540`). From every scan
and every node not treated yet, in descending order of the node ids, the code
climbs to the next blocking operator and gives what it meets the label `PL`.
A climb that ends at a treated node tries to relabel it in a loop over the
groups.

The loop `for(int r=0; k<idGroup.size(); r++)` tests the tab index `k`, not
`r`: `relabelLoop_eq` shows that it throws whenever it is entered with `k` in
range and does nothing otherwise, so a run that finishes never relabels.

`Plan` carries what `LinkNoeud1` produces: parents come before their children.

Results:

* `walk_eq`: the `while` loop is a climb of `UpTree`, and ends.
* `segStep_climb`, `Inv.next`, `segLoop_spec`: what one iteration does, the
  invariant it keeps, and the whole run: it throws iff some climb `Relabels`.
* `segPipe_partition_iff`: when the groups are a partition of the nodes.
* `blocking_separated_iff`: when a blocking operator and its parent get
  different groups.
-/
namespace GreenPipeline.L4.SegPipe

open GreenPipeline.Core List Nat

/-! ## The plan -/

/-- The node types of one plan and the parent of each node. -/
structure Plan where
  nodes : List String
  parents : List Int
  length_eq : nodes.length = parents.length
  root : parents.head? = some (-1)
  link : ∀ i < parents.length, 0 < i → 0 ≤ parents.getD i (-1) ∧ parents.getD i (-1) < i

namespace Plan

def size (P : Plan) : Nat := P.parents.length

/-- `nds.get(k).get(j).getNode()` -/
def node (P : Plan) (j : Nat) : String := P.nodes.getD j ""

/-- `NParend.get(j)`, which is only read for `j > 0`. -/
def parent (P : Plan) (j : Nat) : Nat := (P.parents.getD j (-1)).toNat

theorem parent_lt (P : Plan) (j : Nat) (hj : 0 < j) : P.parent j < j := by
  unfold parent
  by_cases h : j < P.parents.length
  · have := P.link j h hj
    omega
  · rw [getD_eq_getElem?_getD, getElem?_eq_none (by omega)]
    simpa using hj

theorem size_pos (P : Plan) : 0 < P.size := by
  have h := P.root
  unfold size
  cases hp : P.parents with
  | nil => rw [hp] at h; exact absurd h (by simp)
  | cons => simp

end Plan

/-- `getNode().contains("Scan")` -/
def isScan (node : String) : Bool := decide ("Scan".toList <:+: node.toList)

/-- The operators at which a pipeline ends.
mirrors FenP.java:1370-1383 -/
def blockingOps : List String :=
  ["Sort", "Hash", "Aggregate", "GroupAggregate", "HashAggregate", "Materialize",
    "Nested Loop", "Group", "WindowAgg", "Unique", "SetOp", "Limit", "LockRows", "Gather"]

def isBlocking (node : String) : Bool := blockingOps.contains node

def isNestedLoop (node : String) : Bool := node == "Nested Loop"

/-! ## The loops -/

/-- An entry of `idGroup`, in the source the text `id: <id>, group: 'PL<pl>'`. -/
structure Group where
  id : Nat
  pl : Nat
deriving DecidableEq, Repr

inductive Fault | indexOutOfBounds | endless
deriving DecidableEq, Repr

/-- The local variables of `SegPipe`. -/
structure State where
  idGroup : List Group
  treatedList : List Bool
  plList : List Nat
  PL : Nat
  j : Nat
deriving DecidableEq

def State.treated (s : State) (x : Nat) : Bool := s.treatedList.getD x false

/-- The three statements that put node `j` into the current pipeline. -/
def State.visit (s : State) : State :=
  { s with
    idGroup := s.idGroup ++ [⟨s.j, s.PL⟩]
    plList := s.plList ++ [s.PL]
    treatedList := s.treatedList.set s.j true }

/-- The `while` loop; `fuel` bounds the number of its rounds.
mirrors FenP.java:1368-1390 -/
def walk (P : Plan) : Nat → State → Except Fault State
  | fuel, s =>
    if 0 < s.j ∧ isBlocking (P.node s.j) = false ∧ s.treated s.j = false then
      match fuel with
      | 0 => .error .endless
      | fuel + 1 => walk P fuel { s.visit with j := P.parent s.j }
    else .ok s

/-- The loop over `r`: the test is on `k`, and `idGroup.get(r)` throws behind
the end of the list. `fuel` bounds the number of rounds.
mirrors FenP.java:1400-1404 -/
def relabelLoop (k j PL : Nat) : Nat → Nat → List Group → Except Fault (List Group)
  | fuel, r, idGroup =>
    if k < idGroup.length then
      match fuel with
      | 0 => .error .endless
      | fuel + 1 =>
        match idGroup[r]? with
        | none => .error .indexOutOfBounds
        | some g =>
          relabelLoop k j PL fuel (r + 1) (if g.id = j then idGroup.set r ⟨j, PL⟩ else idGroup)
    else .ok idGroup

/-- What follows the `while` loop: the node the climb ended at.
mirrors FenP.java:1392-1405 -/
def arrive (k : Nat) (s : State) : Except Fault State :=
  if s.treated s.j = false then .ok s.visit
  else if s.j < s.plList.length ∧ s.PL ≠ s.plList.getD s.j 0 then
    (relabelLoop k s.j s.PL (s.idGroup.length + 1) 0 s.idGroup).map fun g => { s with idGroup := g }
  else .ok s

/-- `if(!"Nested Loop".equals(..)) PL++;` -/
def bump (P : Plan) (s : State) : State :=
  if isNestedLoop (P.node s.j) then s else { s with PL := s.PL + 1 }

/-- One iteration of the loop over `i`.
mirrors FenP.java:1364-1408 -/
def segStep (P : Plan) (k : Nat) (s : State) (i : Nat) : Except Fault State :=
  if isScan (P.node i) = true ∨ s.treated i = false then do
    let s ← walk P i { s with j := i }
    let s ← arrive k s
    .ok (bump P s)
  else .ok s

/-- `for(int i=m; i>0; i--)` -/
def segLoop (P : Plan) (k : Nat) : Nat → State → Except Fault State
  | 0, s => .ok s
  | i + 1, s => do segLoop P k i (← segStep P k s (i + 1))

def initState (P : Plan) : State := ⟨[], List.replicate P.size false, [], 1, 0⟩

/-- `SegPipe` on the plan of tab `k`: the list `idGroup` at its end.
mirrors FenP.java:1335-1411 and NFrame.java:1484-1542 -/
def segPipe (P : Plan) (k : Nat) : Except Fault (List Group) := do
  let s ← segLoop P k (P.size - 1) (initState P)
  .ok (if s.j = 1 then s.idGroup ++ [⟨s.j - 1, s.PL⟩] else s.idGroup)

/-- The loop over `r` throws if it is entered at all. -/
theorem relabelLoop_eq (k j PL : Nat) :
    ∀ (fuel r : Nat) (idGroup : List Group), idGroup.length < fuel + r →
    r ≤ idGroup.length → relabelLoop k j PL fuel r idGroup =
      if k < idGroup.length then .error .indexOutOfBounds else .ok idGroup := by
  intro fuel
  induction fuel with
  | zero => intro r idGroup hf hr; omega
  | succ fuel ih =>
    intro r idGroup hf hr
    rw [relabelLoop]
    by_cases hk : k < idGroup.length
    · rw [if_pos hk, if_pos hk]
      by_cases hlt : r < idGroup.length
      · rw [getElem?_eq_getElem hlt]
        simp only
        split
        · rw [ih _ _ (by rw [length_set]; omega) (by rw [length_set]; omega), length_set, if_pos hk]
        · rw [ih _ _ (by omega) (by omega), if_pos hk]
      · rw [getElem?_eq_none (by omega)]
    · rw [if_neg hk, if_neg hk]

/-! ## The climbs, read off the plan -/

/-- The plan as a tree whose climbs end at the blocking operators. -/
def Plan.tree (P : Plan) : UpTree := ⟨P.size, P.parent, P.parent_lt, fun j => isBlocking (P.node j)⟩

/-- The nodes the climbs from `i` and above have labelled. -/
abbrev Plan.taken (P : Plan) (i : Nat) : Finset Nat := P.tree.taken i

/-- The node at which the climb from `i` ends. -/
def Plan.stop (P : Plan) (i : Nat) : Nat := P.tree.stop (P.taken (i + 1)) i

/-- What the climb from `i` labels. -/
def Plan.fresh (P : Plan) (i : Nat) : List Nat := P.tree.fresh (P.taken (i + 1)) i

/-- A climb starts at `i`: it is a scan, or no climb has reached it. -/
def Starts (P : Plan) (i : Nat) : Prop :=
  0 < i ∧ i < P.size ∧ (isScan (P.node i) = true ∨ i ∉ P.taken (i + 1))

/-- A climb starts at `i` and does not end at a nested loop: a new label follows. -/
def Bumps (P : Plan) (i : Nat) : Prop := Starts P i ∧ isNestedLoop (P.node (P.stop i)) = false

/-- The climb from `i` ends at a labelled node, and the label in the place
`stop i` of the list of labels is an old one: the loop over `r` is entered. -/
def Relabels (P : Plan) (k i : Nat) : Prop :=
  Starts P i ∧ P.stop i ∈ P.taken (i + 1) ∧ k < (P.taken i).card ∧
    ∃ c, i < c ∧ Bumps P c ∧ P.stop i < (P.taken c).card

instance (P : Plan) (i : Nat) : Decidable (Starts P i) := inferInstanceAs (Decidable (_ ∧ _ ∧ _))

instance (P : Plan) (i : Nat) : Decidable (Bumps P i) := inferInstanceAs (Decidable (_ ∧ _))

instance (P : Plan) (k i : Nat) : Decidable (Relabels P k i) :=
  decidable_of_iff (Starts P i ∧ P.stop i ∈ P.taken (i + 1) ∧ k < (P.taken i).card ∧
      ∃ c < P.size, i < c ∧ Bumps P c ∧ P.stop i < (P.taken c).card) <| by
    refine and_congr_right fun _ => and_congr_right fun _ => and_congr_right fun _ =>
      exists_congr fun c => ?_
    exact and_iff_right_of_imp fun h => h.2.1.1.2.1

/-- The last climb from `i` or above ends at `x`. -/
def LastStop (P : Plan) (i x : Nat) : Prop :=
  ∃ c, i ≤ c ∧ Starts P c ∧ (∀ c', i ≤ c' → c' < c → ¬ Starts P c') ∧ P.stop c = x

/-! ## One climb -/

/-- The state after labelling the nodes `xs` and going to node `j`. -/
def State.advance (s : State) (xs : List Nat) (j : Nat) : State :=
  { s with
    idGroup := s.idGroup ++ xs.map (⟨·, s.PL⟩)
    plList := s.plList ++ xs.map fun _ => s.PL
    treatedList := xs.foldl (fun t x => t.set x true) s.treatedList
    j := j }

theorem State.visit_advance (s : State) (xs : List Nat) (j j' : Nat) :
    ({ s.visit with j := j' } : State).advance xs j = s.advance (s.j :: xs) j := by
  simp [State.visit, State.advance]

theorem State.advance_visit (s : State) (xs : List Nat) (j : Nat) :
    (s.advance xs j).visit = s.advance (xs ++ [j]) j := by
  simp [State.visit, State.advance]

theorem getD_foldl_set (xs : List Nat) : ∀ (t : List Bool) (y : Nat), y < t.length →
    (xs.foldl (fun t x => t.set x true) t).getD y false = (t.getD y false || decide (y ∈ xs)) := by
  induction xs with
  | nil => intro t y hy; simp
  | cons x xs ih =>
    intro t y hy
    rw [foldl_cons, ih _ _ (by simpa using hy)]
    by_cases h : x = y
    · subst h; simp [hy]
    · simp [h, Ne.symm h]

theorem length_foldl_set (xs : List Nat) :
    ∀ t : List Bool, (xs.foldl (fun t x => t.set x true) t).length = t.length := by
  induction xs with
  | nil => intro t; rfl
  | cons x xs ih => intro t; rw [foldl_cons, ih, length_set]

theorem State.treated_advance (s : State) (xs : List Nat) (j : Nat) {y : Nat}
    (hy : y < s.treatedList.length) :
    (s.advance xs j).treated y = (s.treated y || decide (y ∈ xs)) :=
  getD_foldl_set xs s.treatedList y hy

/-- The `while` loop climbs to the first node that is the root, blocking or
treated. Below the current node `treatedList` is what it was when the climb
began, so the nodes labelled on the way do not end it. -/
theorem walk_eq (P : Plan) (S : Finset Nat) :
    ∀ (fuel : Nat) (s : State), s.j ≤ fuel → (∀ x ≤ s.j, s.treated x = decide (x ∈ S)) →
    walk P fuel s = .ok (s.advance (P.tree.passed S s.j) (P.tree.stop S s.j)) := by
  intro fuel
  induction fuel with
  | zero =>
    intro s hj hS
    have h0 : s.j = 0 := by omega
    have hh : P.tree.Halts S s.j := .inl (.inl h0)
    rw [walk, if_neg (by omega), UpTree.passed_of_halts hh, UpTree.stop_of_halts hh]
    simp [State.advance]
  | succ fuel ih =>
    intro s hj hS
    have hiff : (0 < s.j ∧ isBlocking (P.node s.j) = false ∧ s.treated s.j = false) ↔
        ¬ P.tree.Halts S s.j := by
      rw [hS _ (le_refl _)]
      simp [UpTree.Halts, UpTree.Ends, Plan.tree, Nat.pos_iff_ne_zero, and_assoc]
    rw [walk]
    by_cases hh : P.tree.Halts S s.j
    · rw [if_neg (fun h => hiff.1 h hh), UpTree.passed_of_halts hh, UpTree.stop_of_halts hh]
      simp [State.advance]
    · have hp := P.parent_lt s.j (hiff.2 hh).1
      rw [if_pos (hiff.2 hh), ih _ (by simp only; omega), State.visit_advance,
        UpTree.passed_of_not_halts hh, UpTree.stop_of_not_halts hh]
      · rfl
      · intro x hx
        simp only at hx
        rw [← hS x (by omega)]
        simp only [State.treated, State.visit, getD_eq_getElem?_getD, getElem?_set]
        rw [if_neg (by omega)]

/-! ## One iteration -/

/-- What an iteration that climbs does, if the loop over `r` is not entered. -/
def next (P : Plan) (s : State) (i : Nat) : State := bump P (s.advance (P.fresh i) (P.stop i))

/-- The state before iteration `i - 1`, when `i` and above have been climbed
from. The order of two labels is the order of the climbs, up to climbs that
end at a nested loop. -/
structure Inv (P : Plan) (i : Nat) (s : State) : Prop where
  len : s.treatedList.length = P.size
  treated : ∀ x < P.size, s.treated x = decide (x ∈ P.taken i)
  pls : s.plList = s.idGroup.map (·.pl)
  ids : ∀ x, x ∈ s.idGroup.map (·.id) ↔ x ∈ P.taken i
  nodup : (s.idGroup.map (·.id)).Nodup
  order : ∀ m g, s.idGroup[m]? = some g → ∀ c, i ≤ c → (g.id ∈ P.taken c ↔ m < (P.taken c).card)
  le : ∀ g ∈ s.idGroup, g.pl ≤ s.PL
  lt_PL : ∀ g ∈ s.idGroup, g.pl < s.PL ↔ ∃ c, i ≤ c ∧ Bumps P c ∧ g.id ∈ P.taken c
  lt : ∀ g ∈ s.idGroup, ∀ h ∈ s.idGroup,
    g.pl < h.pl ↔ ∃ c, i ≤ c ∧ Bumps P c ∧ g.id ∈ P.taken c ∧ h.id ∉ P.taken c
  last : s.j = 1 ↔ LastStop P i 1

section
variable {P : Plan} {i k : Nat} {s : State}

theorem Inv.length (h : Inv P i s) : s.idGroup.length = (P.taken i).card := by
  rw [← length_map (·.id), ← toFinset_card_of_nodup h.nodup]
  congr 1
  ext x
  rw [mem_toFinset, h.ids]

/-- Which places of `plList` hold an old label. -/
theorem Inv.stale (h : Inv P i s) (m : Nat) : (m < s.plList.length ∧ s.PL ≠ s.plList.getD m 0) ↔
    ∃ c, i ≤ c ∧ Bumps P c ∧ m < (P.taken c).card := by
  have hlen : s.plList.length = s.idGroup.length := by rw [h.pls, length_map]
  by_cases hm : m < s.idGroup.length
  · have hget := getElem?_eq_getElem hm
    have hmem := getElem_mem hm
    have hle := h.le _ hmem
    have hne : s.PL ≠ s.plList.getD m 0 ↔ s.idGroup[m].pl < s.PL := by
      rw [h.pls, getD_eq_getElem?_getD, getElem?_map, hget]
      simp only [Option.map_some, Option.getD_some]
      omega
    rw [hlen, hne, h.lt_PL _ hmem]
    refine ⟨fun ⟨_, c, hc, hb, hx⟩ => ⟨c, hc, hb, (h.order m _ hget c hc).1 hx⟩,
      fun ⟨c, hc, hb, hx⟩ => ⟨hm, c, hc, hb, (h.order m _ hget c hc).2 hx⟩⟩
  · refine ⟨fun hx => absurd (hlen ▸ hx.1) hm, fun ⟨c, hc, _, hx⟩ => ?_⟩
    have hle : (P.taken c).card ≤ (P.taken i).card := Finset.card_le_card (P.tree.taken_anti hc)
    have := h.length
    omega

/-- Places behind the end get the current label, so a climb makes no place stale. -/
theorem State.advance_stale (s : State) (xs : List Nat) (j m : Nat) :
    (m < (s.advance xs j).plList.length ∧ (s.advance xs j).PL ≠ (s.advance xs j).plList.getD m 0) ↔
      (m < s.plList.length ∧ s.PL ≠ s.plList.getD m 0) := by
  simp only [State.advance, length_append, length_map, getD_eq_getElem?_getD]
  by_cases hm : m < s.plList.length
  · rw [getElem?_append_left hm]
    omega
  · rw [getElem?_append_right (by omega)]
    refine ⟨fun ⟨hlt, hne⟩ => absurd ?_ hne, fun h => absurd h.1 hm⟩
    rw [getElem?_map, getElem?_eq_getElem (by omega)]
    rfl

section

variable (h : Inv P (i + 1) s)
include h

theorem starts_iff (hi : 0 < i) (hn : i < P.size) :
    Starts P i ↔ isScan (P.node i) = true ∨ s.treated i = false := by
  rw [h.treated i hn, Starts]
  simp [hi, hn]

/-- What the `while` loop and the test behind it do to the state. -/
theorem arrive_eq (hs : Starts P i) : (walk P i { s with j := i } >>= arrive k) =
      if Relabels P k i then .error .indexOutOfBounds
      else .ok (s.advance (P.fresh i) (P.stop i)) := by
  have hn := hs.2.1
  have hstop : P.stop i < P.size := (P.tree.le_of_mem_chain i (UpTree.stop_mem_chain i)).trans_lt hn
  have hwalk := walk_eq P (P.taken (i + 1)) i { s with j := i } (le_refl _)
    (fun x hx => h.treated x (lt_of_le_of_lt hx hn))
  set s1 :=
    ({ s with j := i } : State).advance (P.tree.passed (P.taken (i + 1)) i)
      (P.tree.stop (P.taken (i + 1)) i) with hs1
  have htr : s1.treated (P.stop i) = decide (P.stop i ∈ P.taken (i + 1)) := by
    rw [hs1, State.treated_advance _ _ _ (by rw [h.len]; exact hstop)]
    have := UpTree.stop_not_mem_passed (T := P.tree) (S := P.taken (i + 1)) i
    simp only [Plan.stop, this, decide_false, Bool.or_false]
    exact h.treated _ hstop
  have hj : s1.j = P.stop i := rfl
  rw [hwalk]
  change arrive k s1 = _
  unfold arrive
  rw [hj, htr]
  by_cases hmem : P.stop i ∈ P.taken (i + 1)
  · have hfresh : P.fresh i = P.tree.passed (P.taken (i + 1)) i := if_pos hmem
    have hlen : s1.idGroup.length = (P.taken i).card := by
      rw [P.tree.card_taken hn, ← h.length, hs1]
      simp only [State.advance, length_append, length_map]
      rw [← hfresh]; rfl
    have hst : (P.stop i < s1.plList.length ∧ s1.PL ≠ s1.plList.getD (P.stop i) 0) ↔
        ∃ c, i + 1 ≤ c ∧ Bumps P c ∧ P.stop i < (P.taken c).card :=
      (State.advance_stale _ _ _ _).trans (h.stale _)
    have hs1' : s1 = s.advance (P.fresh i) (P.stop i) := by rw [hfresh]; rfl
    rw [if_neg (by simpa using hmem)]
    by_cases hc : ∃ c, i + 1 ≤ c ∧ Bumps P c ∧ P.stop i < (P.taken c).card
    · rw [if_pos (hst.2 hc), relabelLoop_eq _ _ _ _ _ _ (by omega) (zero_le _), hlen]
      by_cases hk : k < (P.taken i).card
      · rw [if_pos hk, if_pos ⟨hs, hmem, hk, hc⟩]; rfl
      · rw [if_neg hk, if_neg (fun x => hk x.2.2.1), ← hs1']; rfl
    · rw [if_neg (fun x => hc (hst.1 x)), if_neg (fun x => hc x.2.2.2), hs1']
  · have hfresh : P.fresh i = P.tree.passed (P.taken (i + 1)) i ++ [P.stop i] := if_neg hmem
    rw [if_pos (by simpa using hmem), if_neg (fun x => hmem x.2.1), hs1,
      State.advance_visit, hfresh]
    rfl

theorem segStep_skip (hi : 0 < i) (hn : i < P.size) (hs : ¬ Starts P i) : segStep P k s i = .ok s :=
  if_neg fun hc => hs ((starts_iff h hi hn).2 hc)

theorem segStep_climb (hs : Starts P i) :
    segStep P k s i = if Relabels P k i then .error .indexOutOfBounds else .ok (next P s i) := by
  unfold segStep
  rw [if_pos ((starts_iff h hs.1 hs.2.1).1 hs), ← bind_assoc, arrive_eq h hs]
  split <;> rfl

end

@[simp] theorem next_idGroup : (next P s i).idGroup = s.idGroup ++ (P.fresh i).map (⟨·, s.PL⟩) := by
  unfold next bump; split <;> rfl

@[simp] theorem next_plList : (next P s i).plList = s.plList ++ (P.fresh i).map fun _ => s.PL := by
  unfold next bump; split <;> rfl

@[simp] theorem next_treatedList :
    (next P s i).treatedList = (P.fresh i).foldl (fun t x => t.set x true) s.treatedList := by
  unfold next bump; split <;> rfl

@[simp] theorem next_j : (next P s i).j = P.stop i := by unfold next bump; split <;> rfl

theorem next_PL (hs : Starts P i) : (next P s i).PL = if Bumps P i then s.PL + 1 else s.PL := by
  change (bump P (s.advance (P.fresh i) (P.stop i))).PL = _
  have hj : (s.advance (P.fresh i) (P.stop i)).j = P.stop i := rfl
  unfold bump
  rw [hj]
  by_cases hb : isNestedLoop (P.node (P.stop i)) = true
  · rw [if_pos hb, if_neg fun h => by rw [h.2] at hb; exact absurd hb (by decide)]; rfl
  · rw [if_neg hb, if_pos ⟨hs, by simpa using hb⟩]; rfl

theorem exists_ge_iff {Q : Nat → Prop} : (∃ c, i ≤ c ∧ Q c) ↔ Q i ∨ ∃ c, i + 1 ≤ c ∧ Q c := by
  constructor
  · rintro ⟨c, hc, hq⟩
    rcases lt_or_eq_of_le hc with h | rfl
    · exact .inr ⟨c, h, hq⟩
    · exact .inl hq
  · rintro (hq | ⟨c, hc, hq⟩)
    · exact ⟨i, le_refl _, hq⟩
    · exact ⟨c, by omega, hq⟩

variable {x : Nat} {g : Group}

theorem mem_fresh_iff : x ∈ P.fresh i ↔ x ∈ P.tree.chain i ∧ x ∉ P.taken (i + 1) :=
  UpTree.mem_fresh_taken i

theorem mem_taken_iff_fresh (hn : i < P.size) :
    x ∈ P.taken i ↔ x ∈ P.taken (i + 1) ∨ x ∈ P.fresh i := by
  rw [mem_fresh_iff, UpTree.mem_taken_iff _ hn]
  tauto

/-- An entry of the new list is an old one, or one of this climb with the current label. -/
theorem mem_next : g ∈ (next P s i).idGroup ↔ g ∈ s.idGroup ∨ g.id ∈ P.fresh i ∧ g.pl = s.PL := by
  rw [next_idGroup, mem_append, mem_map]
  refine or_congr_right ⟨?_, fun ⟨hx, hp⟩ => ⟨g.id, hx, by rw [← hp]⟩⟩
  rintro ⟨x, hx, rfl⟩
  exact ⟨hx, rfl⟩

theorem Inv.mem_taken (h : Inv P i s) (hg : g ∈ s.idGroup) : g.id ∈ P.taken i :=
  (h.ids g.id).1 (mem_map_of_mem hg)

theorem taken_size (P : Plan) : P.taken P.size = ∅ := UpTree.taken_of_size_le P.tree (le_refl _)

theorem Inv.init (P : Plan) : Inv P P.size (initState P) where
  len := by simp [initState]
  treated x hx := by
    rw [taken_size]
    simp [initState, State.treated, hx]
  pls := rfl
  ids x := by rw [taken_size]; simp [initState]
  nodup := nodup_nil
  order m g hg := absurd hg (by simp [initState])
  le g hg := absurd hg not_mem_nil
  lt_PL g hg := absurd hg not_mem_nil
  lt g hg := absurd hg not_mem_nil
  last := by
    refine ⟨fun h => absurd h (by simp [initState]), fun ⟨c, hc, hs, _⟩ => ?_⟩
    have := hs.2.1
    omega

theorem Inv.skip (h : Inv P (i + 1) s) (hi : 0 < i) (hn : i < P.size) (hs : ¬ Starts P i) :
    Inv P i s := by
  have hb : ¬ Bumps P i := fun hb => hs hb.1
  have hmem : i ∈ P.taken (i + 1) := by
    by_contra hm
    exact hs ⟨hi, hn, .inr hm⟩
  have ht : P.taken i = P.taken (i + 1) := UpTree.taken_eq_of_mem hn hmem
  exact {
    len := h.len
    treated := fun x hx => by rw [ht]; exact h.treated x hx
    pls := h.pls
    ids := fun x => by rw [ht]; exact h.ids x
    nodup := h.nodup
    order := fun m g hg c hc => by
      rcases lt_or_eq_of_le hc with hc | rfl
      · exact h.order m g hg c hc
      · rw [ht]; exact h.order m g hg _ (le_refl _)
    le := h.le
    lt_PL := fun g hg => by rw [exists_ge_iff, h.lt_PL g hg]; simp [hb]
    lt := fun g hg g' hg' => by rw [exists_ge_iff, h.lt g hg g' hg']; simp [hb]
    last := by
      rw [h.last]
      refine ⟨fun ⟨c, hc, hst, hmin, hx⟩ => ⟨c, by omega, hst, fun c' hc' hlt => ?_, hx⟩,
        fun ⟨c, hc, hst, hmin, hx⟩ => ⟨c, ?_, hst, fun c' hc' hlt => hmin c' (by omega) hlt, hx⟩⟩
      · rcases lt_or_eq_of_le hc' with hc' | rfl
        · exact hmin c' hc' hlt
        · exact hs
      · rcases lt_or_eq_of_le hc with hc | rfl
        · exact hc
        · exact absurd hst hs }

/-- What a climb reaches first no earlier climb has taken. -/
theorem not_mem_taken_of_fresh {c : Nat} (hx : x ∈ P.fresh i) (hc : i + 1 ≤ c) : x ∉ P.taken c :=
  fun hm =>
  (mem_fresh_iff.1 hx).2 (P.tree.taken_anti hc hm)

section

variable (h : Inv P (i + 1) s)
include h

theorem Inv.mem_taken_of_next (hn : i < P.size) (hg : g ∈ (next P s i).idGroup) :
    g.id ∈ P.taken i := by
  rw [mem_taken_iff_fresh hn]
  rcases mem_next.1 hg with hg | ⟨hx, _⟩
  · exact .inl (h.mem_taken hg)
  · exact .inr hx

theorem Inv.next_order (hn : i < P.size) {m : Nat}
    (hg : (next P s i).idGroup[m]? = some g) {c : Nat} (hc : i ≤ c) :
    g.id ∈ P.taken c ↔ m < (P.taken c).card := by
  have hin := h.mem_taken_of_next hn (List.mem_of_getElem? hg)
  have hm := (List.getElem?_eq_some_iff.1 hg).1
  have hcard : (P.taken i).card = s.idGroup.length + (P.fresh i).length := by
    rw [h.length]; exact UpTree.card_taken hn
  rw [next_idGroup] at hg hm
  rw [List.length_append, List.length_map] at hm
  rcases lt_or_eq_of_le hc with hc | rfl
  · by_cases hold : m < s.idGroup.length
    · rw [List.getElem?_append_left hold] at hg
      exact h.order m g hg c hc
    · rw [List.getElem?_append_right (by omega), List.getElem?_map, Option.map_eq_some_iff] at hg
      obtain ⟨x, hx, rfl⟩ := hg
      refine iff_of_false (not_mem_taken_of_fresh (List.mem_of_getElem? hx) hc) ?_
      have hle : (P.taken c).card ≤ (P.taken (i + 1)).card :=
        Finset.card_le_card (P.tree.taken_anti hc)
      have := h.length
      omega
  · exact iff_of_true hin (by omega)

theorem Inv.next_lt_PL (hs : Starts P i) (hg : g ∈ (next P s i).idGroup) :
    g.pl < (next P s i).PL ↔ ∃ c, i ≤ c ∧ Bumps P c ∧ g.id ∈ P.taken c := by
  have hin := h.mem_taken_of_next hs.2.1 hg
  rw [exists_ge_iff, next_PL hs, and_iff_left hin]
  rcases mem_next.1 hg with hg | ⟨hx, hp⟩
  · rw [← h.lt_PL g hg]
    have hle := h.le g hg
    by_cases hb : Bumps P i
    · simp only [hb, if_true, true_or, iff_true]; omega
    · simp [hb]
  · have hno : ¬ ∃ c, i + 1 ≤ c ∧ Bumps P c ∧ g.id ∈ P.taken c := fun ⟨c, hc, _, hm⟩ =>
      not_mem_taken_of_fresh hx hc hm
    rw [or_iff_left hno, hp]
    by_cases hb : Bumps P i
    · exact iff_of_true (by rw [if_pos hb]; omega) hb
    · exact iff_of_false (by rw [if_neg hb]; omega) hb

theorem Inv.next_lt (hn : i < P.size) {g' : Group} (hg : g ∈ (next P s i).idGroup)
    (hg' : g' ∈ (next P s i).idGroup) :
    g.pl < g'.pl ↔ ∃ c, i ≤ c ∧ Bumps P c ∧ g.id ∈ P.taken c ∧ g'.id ∉ P.taken c := by
  have hi' : ¬ (Bumps P i ∧ g.id ∈ P.taken i ∧ g'.id ∉ P.taken i) :=
    fun hh => hh.2.2 (h.mem_taken_of_next hn hg')
  rw [exists_ge_iff, or_iff_right hi']
  rcases mem_next.1 hg with hg | ⟨hx, hp⟩
  · rcases mem_next.1 hg' with hg' | ⟨hx', hp'⟩
    · exact h.lt g hg g' hg'
    · rw [hp', h.lt_PL g hg]
      exact exists_congr fun c => and_congr_right fun hc => and_congr_right fun _ =>
        (and_iff_left (not_mem_taken_of_fresh hx' hc)).symm
  · refine iff_of_false ?_ fun ⟨c, hc, _, hm, _⟩ => not_mem_taken_of_fresh hx hc hm
    rcases mem_next.1 hg' with hg' | ⟨_, hp'⟩
    · have := h.le g' hg'; omega
    · omega

end

theorem Inv.next (h : Inv P (i + 1) s) (hs : Starts P i) : Inv P i (next P s i) := by
  have hn := hs.2.1
  refine {
    len := by rw [next_treatedList, length_foldl_set, h.len]
    treated := fun x hx => ?_
    pls := by rw [next_plList, next_idGroup, h.pls, map_append, map_map]; rfl
    ids := fun x => ?_
    nodup := ?_
    order := fun m g hg c hc => h.next_order hn hg hc
    le := fun g hg => ?_
    lt_PL := fun g hg => h.next_lt_PL hs hg
    lt := fun g hg g' hg' => h.next_lt hn hg hg'
    last := ?_ }
  · rw [State.treated, next_treatedList, getD_foldl_set _ _ _ (by rw [h.len]; exact hx),
      Bool.eq_iff_iff]
    change (s.treated x || decide (x ∈ P.fresh i)) = true ↔ _
    rw [h.treated x hx]
    simp only [Bool.or_eq_true, decide_eq_true_eq]
    exact (mem_taken_iff_fresh hn).symm
  · rw [next_idGroup, map_append, mem_append, h.ids, mem_taken_iff_fresh hn]
    simp
  · rw [next_idGroup, map_append, map_map, nodup_append]
    have hid : (P.fresh i).map ((·.id) ∘ fun x => (⟨x, s.PL⟩ : Group)) = P.fresh i := map_id _
    rw [hid]
    refine ⟨h.nodup, UpTree.fresh_nodup i, ?_⟩
    rintro x hx _ hy rfl
    exact not_mem_taken_of_fresh hy (le_refl _) ((h.ids x).1 hx)
  · rw [next_PL hs]
    rcases mem_next.1 hg with hg | ⟨_, hp⟩
    · have := h.le g hg
      split <;> omega
    · rw [hp]; split <;> omega
  · rw [next_j]
    refine ⟨fun hx => ⟨i, le_refl _, hs, fun c' h1 h2 => by omega, hx⟩,
      fun ⟨c, hc, hst, hmin, hx⟩ => ?_⟩
    rcases lt_or_eq_of_le hc with hlt | rfl
    · exact absurd hs (hmin i (le_refl _) hlt)
    · exact hx

/-! ## Whole runs -/

/-- The loop over `i` throws if some climb enters the loop over `r`, and keeps
the invariant to its end otherwise. -/
theorem segLoop_spec (P : Plan) (k : Nat) : ∀ (m : Nat) (s : State), m < P.size → Inv P (m + 1) s →
    ((∃ i, i ≤ m ∧ Relabels P k i) ∧ segLoop P k m s = .error .indexOutOfBounds) ∨
    ((∀ i, i ≤ m → ¬ Relabels P k i) ∧ ∃ s', segLoop P k m s = .ok s' ∧ Inv P 1 s') := by
  intro m
  induction m with
  | zero =>
    intro s _ h
    refine .inr ⟨fun i hi hr => ?_, s, rfl, h⟩
    have := hr.1.1
    omega
  | succ m ih =>
    intro s hm h
    by_cases hs : Starts P (m + 1)
    · rw [segLoop, segStep_climb h hs]
      by_cases hr : Relabels P k (m + 1)
      · exact .inl ⟨⟨m + 1, le_refl _, hr⟩, by rw [if_pos hr]; rfl⟩
      · rw [if_neg hr]
        rcases ih (next P s (m + 1)) (by omega) (h.next hs) with ⟨⟨i, hi, hri⟩, he⟩ | ⟨hno, hok⟩
        · exact .inl ⟨⟨i, by omega, hri⟩, he⟩
        · refine .inr ⟨fun i hi hri => ?_, hok⟩
          rcases lt_or_eq_of_le hi with hi | rfl
          · exact hno i (by omega) hri
          · exact hr hri
    · rw [segLoop, segStep_skip h (succ_pos m) hm hs]
      rcases ih s (by omega) (h.skip (succ_pos m) hm hs) with ⟨⟨i, hi, hri⟩, he⟩ | ⟨hno, hok⟩
      · exact .inl ⟨⟨i, by omega, hri⟩, he⟩
      · refine .inr ⟨fun i hi hri => ?_, hok⟩
        rcases lt_or_eq_of_le hi with hi | rfl
        · exact hno i (by omega) hri
        · exact hs hri.1

/-- The groups with the root behind them if the last climb ended at node 1. -/
theorem segPipe_cases (P : Plan) (k : Nat) :
    ((∃ i, Relabels P k i) ∧ segPipe P k = .error .indexOutOfBounds) ∨
    ((∀ i, ¬ Relabels P k i) ∧ ∃ s g, segPipe P k = .ok g ∧ Inv P 1 s ∧ ∀ e, e ∈ g ↔ e ∈ s.idGroup ∨
      LastStop P 1 1 ∧ e = ⟨0, s.PL⟩) := by
  have hpos := P.size_pos
  have hinit : Inv P (P.size - 1 + 1) (initState P) := by
    rw [Nat.sub_add_cancel hpos]; exact Inv.init P
  rcases segLoop_spec P k (P.size - 1) (initState P) (by omega) hinit with
    ⟨⟨i, _, hr⟩, he⟩ | ⟨hno, s, hok, hI⟩
  · exact .inl ⟨⟨i, hr⟩, by rw [segPipe, he]; rfl⟩
  · refine .inr ⟨fun i hr => hno i ?_ hr, s, _, by rw [segPipe, hok]; rfl, hI, fun e => ?_⟩
    · have := hr.1.2.1
      omega
    · rw [← hI.last]
      by_cases hj : s.j = 1 <;> simp [hj]

theorem Inv.label_unique (h : Inv P i s) {a b : Nat} (ha : ⟨x, a⟩ ∈ s.idGroup)
    (hb : ⟨x, b⟩ ∈ s.idGroup) : a = b := by
  have h1 : ¬ a < b := fun hlt => by
    obtain ⟨c, _, _, hin, hout⟩ := (h.lt _ ha _ hb).1 hlt
    exact hout hin
  have h2 : ¬ b < a := fun hlt => by
    obtain ⟨c, _, _, hin, hout⟩ := (h.lt _ hb _ ha).1 hlt
    exact hout hin
  omega

theorem Inv.label_exists (h : Inv P i s) (hx : x ∈ P.taken i) : ∃ a, ⟨x, a⟩ ∈ s.idGroup := by
  obtain ⟨g, hg, rfl⟩ := mem_map.1 ((h.ids x).2 hx)
  exact ⟨g.pl, hg⟩

theorem mem_taken_one (h0 : 0 < x) (hx : x < P.size) : x ∈ P.taken 1 := P.tree.mem_taken_self h0 hx

end

/-! ## The groups are a partition -/

/-- Every node id has exactly one group, and nothing else has one. -/
def Partition (n : Nat) (g : List Group) : Prop :=
  (∀ e ∈ g, e.id < n) ∧ ∀ id < n, ∃! pl, (⟨id, pl⟩ : Group) ∈ g

/-- No climb enters the loop over `r`, and the root is labelled by a climb or
because the last climb ended at node 1. If both, then no new label may have
followed the root's. -/
structure Segmentable (P : Plan) (k : Nat) : Prop where
  no_relabel : ∀ i, ¬ Relabels P k i
  root : 0 ∈ P.taken 1 ∨ LastStop P 1 1
  root_once : 0 ∈ P.taken 1 → LastStop P 1 1 → ∀ c, Bumps P c → 0 ∉ P.taken c

theorem segPipe_partition_iff (P : Plan) (k : Nat) :
    (∃ g, segPipe P k = .ok g ∧ Partition P.size g) ↔ Segmentable P k := by
  rcases segPipe_cases P k with ⟨⟨i, hr⟩, he⟩ | ⟨hno, s, g, hok, hI, hg⟩
  · refine iff_of_false (fun ⟨g, hg, _⟩ => ?_) fun h => h.no_relabel i hr
    rw [he] at hg
    cases hg
  constructor
  · rintro ⟨g', hg', hpart⟩
    obtain rfl : g = g' := Except.ok.inj (hok.symm.trans hg')
    obtain ⟨pl, hpl, huniq⟩ := hpart.2 0 P.size_pos
    refine ⟨hno, ?_, fun h0 h1 c hb hc => ?_⟩
    · rcases (hg _).1 hpl with hm | ⟨h1, _⟩
      · exact .inl (hI.mem_taken hm)
      · exact .inr h1
    · -- the label of the climb is older than the one the root gets at the end
      obtain ⟨a, ha⟩ := hI.label_exists h0
      have hlt : a < s.PL := (hI.lt_PL _ ha).2 ⟨c, hb.1.1, hb, hc⟩
      have h2 := huniq a ((hg _).2 (.inl ha))
      have h3 := huniq s.PL ((hg _).2 (.inr ⟨h1, rfl⟩))
      omega
  · rintro ⟨_, hroot, honce⟩
    refine ⟨g, hok, fun e he => ?_, fun x hx => ?_⟩
    · rcases (hg e).1 he with hm | ⟨_, rfl⟩
      · exact P.tree.lt_of_mem_taken (hI.mem_taken hm)
      · exact P.size_pos
    · by_cases hin : x ∈ P.taken 1
      · obtain ⟨a, ha⟩ := hI.label_exists hin
        refine ⟨a, (hg _).2 (.inl ha), fun b hb => ?_⟩
        rcases (hg _).1 hb with hb | ⟨h1, hb⟩
        · exact hI.label_unique hb ha
        · obtain ⟨rfl, rfl⟩ := Group.mk.inj hb
          have hle : a ≤ s.PL := hI.le _ ha
          have hge : ¬ a < s.PL := fun hlt => by
            obtain ⟨c, _, hbc, hc⟩ := (hI.lt_PL _ ha).1 hlt
            exact honce hin h1 c hbc hc
          omega
      · obtain rfl : x = 0 := by
          by_contra h0
          exact hin (mem_taken_one (Nat.pos_of_ne_zero h0) hx)
        have h1 := hroot.resolve_left hin
        refine ⟨s.PL, (hg _).2 (.inr ⟨h1, rfl⟩), fun b hb => ?_⟩
        rcases (hg _).1 hb with hb | ⟨_, hb⟩
        · exact absurd (hI.mem_taken hb) hin
        · exact (Group.mk.inj hb).2

/-- An aggregate over a bitmap heap scan: the scan is reached by the climb of
its bitmap index scan and climbed from again. -/
def bitmapPlan : Plan where
  nodes := ["Aggregate", "Bitmap Heap Scan", "Bitmap Index Scan"]
  parents := [-1, 0, 1]
  length_eq := rfl
  root := rfl
  link := by decide

/-- A merge join whose inner side is an index scan. -/
def mergePlan : Plan where
  nodes := ["Merge Join", "Sort", "Seq Scan", "Index Scan"]
  parents := [-1, 0, 1, 0]
  length_eq := rfl
  root := rfl
  link := by decide

/-- The first tab throws on `bitmapPlan`, and on `mergePlan` the root is in two pipelines. -/
theorem segPipe_not_partition :
    segPipe bitmapPlan 0 = .error .indexOutOfBounds ∧
    segPipe mergePlan 0 = .ok [⟨3, 1⟩, ⟨0, 1⟩, ⟨2, 2⟩, ⟨1, 2⟩, ⟨0, 3⟩] := by
  decide

/-! ## Blocking operators end pipelines -/

/-- Both nodes have groups, and none in common. -/
def Separated (g : List Group) (x y : Nat) : Prop :=
  (∃ a, (⟨x, a⟩ : Group) ∈ g) ∧ (∃ b, (⟨y, b⟩ : Group) ∈ g) ∧
    ∀ a b, (⟨x, a⟩ : Group) ∈ g → (⟨y, b⟩ : Group) ∈ g → a ≠ b

/-- The climb that labels a blocking operator other than a nested loop ends
there and is followed by a new label. -/
theorem exists_bump {P : Plan} {j : Nat} (hj : 0 < j) (hn : j < P.size)
    (hb : isBlocking (P.node j) = true) (hnl : isNestedLoop (P.node j) = false) :
    ∃ w, 1 ≤ w ∧ Bumps P w ∧ j ∈ P.tree.chain w ∧ j ∈ P.taken w ∧ j ∉ P.taken (w + 1) := by
  obtain ⟨w, hw, hwn, hjw, hout⟩ := UpTree.exists_first (T := P.tree) (mem_taken_one hj hn)
  have hstop : P.stop w = j := UpTree.stop_of_not_mem hjw (.inr hb) hout
  refine ⟨w, hw,
    ⟨⟨hw, hwn, .inr (UpTree.not_mem_taken_of_chain hjw hout)⟩, by rw [hstop]; exact hnl⟩,
    hjw, ?_, hout⟩
  exact P.tree.mem_taken.2 ⟨w, le_refl _, hwn, hjw⟩

/-- A label is older than the parent's unless the parent was labelled before
and no new label has followed since. -/
theorem Inv.label_ne_iff {P : Plan} {s : State} {j a b : Nat} (h : Inv P 1 s) (hj : 0 < j)
    (hn : j < P.size) (hb : isBlocking (P.node j) = true) (hnl : isNestedLoop (P.node j) = false)
    (ha : ⟨j, a⟩ ∈ s.idGroup) (hp : ⟨P.parent j, b⟩ ∈ s.idGroup) :
    a ≠ b ↔ ∀ i, P.parent j ∈ P.taken i → j ∉ P.taken i → ∃ c, Bumps P c ∧ P.parent j ∈ P.taken c ∧
    j ∉ P.taken c := by
  obtain ⟨w, hw, hbw, hjw, hin, hout⟩ := exists_bump hj hn hb hnl
  have hab : a < b ↔ _ := h.lt _ ha _ hp
  have hba : b < a ↔ _ := h.lt _ hp _ ha
  by_cases hpw : P.parent j ∈ P.taken w
  · have hpw' : P.parent j ∈ P.taken (w + 1) := by
      rcases (P.tree.mem_taken_iff hbw.1.2.1).1 hpw with hpw | hpw
      · exact hpw
      · have hle := P.tree.ends_le_of_mem_chain (.inr hb) w hjw hpw
        have := P.parent_lt j hj
        omega
    have hnot : ¬ a < b := fun hlt => by
      obtain ⟨c, _, _, hjc, hpc⟩ := hab.1 hlt
      rcases lt_or_ge w c with hc | hc
      · exact hout (P.tree.taken_anti hc hjc)
      · exact hpc (P.tree.taken_anti hc hpw)
    constructor
    · intro hne _ _ _
      obtain ⟨c, _, hc⟩ := hba.1 (by omega)
      exact ⟨c, hc⟩
    · intro hall
      obtain ⟨c, hc⟩ := hall (w + 1) hpw' hout
      have := hba.2 ⟨c, hc.1.1.1, hc⟩
      omega
  · have hlt := hab.2 ⟨w, hw, hbw, hin, hpw⟩
    refine iff_of_true (by omega) fun i hpi hji => ?_
    rcases lt_or_ge w i with hi | hi
    · exact absurd (P.tree.taken_anti (le_of_lt hi) hpi) hpw
    · exact absurd (P.tree.taken_anti hi hin) hji

theorem blocking_separated_iff {P : Plan} {k j : Nat} {g : List Group}
    (hok : segPipe P k = .ok g) (hj : 0 < j) (hn : j < P.size) (hb : isBlocking (P.node j) = true)
    (hnl : isNestedLoop (P.node j) = false) :
    Separated g j (P.parent j) ↔
      (P.parent j ≠ 0 ∨ 0 ∈ P.taken 1 ∨ LastStop P 1 1) ∧
      ∀ i, P.parent j ∈ P.taken i → j ∉ P.taken i →
        ∃ c, Bumps P c ∧ P.parent j ∈ P.taken c ∧ j ∉ P.taken c := by
  rcases segPipe_cases P k with ⟨_, he⟩ | ⟨_, s, g', hok', hI, hg⟩
  · rw [he] at hok
    cases hok
  obtain rfl : g' = g := Except.ok.inj (hok'.symm.trans hok)
  have hj1 := mem_taken_one hj hn
  obtain ⟨a, ha⟩ := hI.label_exists hj1
  have huniq : ∀ a', (⟨j, a'⟩ : Group) ∈ g' → a' = a := fun a' ha' => by
    rcases (hg _).1 ha' with ha' | ⟨_, he⟩
    · exact hI.label_unique ha' ha
    · have := (Group.mk.inj he).1
      omega
  have hlast : a < s.PL := by
    obtain ⟨w, hw, hbw, _, hin, _⟩ := exists_bump hj hn hb hnl
    exact (hI.lt_PL _ ha).2 ⟨w, hw, hbw, hin⟩
  by_cases hp : P.parent j ∈ P.taken 1
  · obtain ⟨b, hpb⟩ := hI.label_exists hp
    have hroot : P.parent j ≠ 0 ∨ 0 ∈ P.taken 1 ∨ LastStop P 1 1 := by
      by_cases h0 : P.parent j = 0
      · exact .inr (.inl (h0 ▸ hp))
      · exact .inl h0
    rw [and_iff_right hroot, ← hI.label_ne_iff hj hn hb hnl ha hpb]
    refine ⟨fun h => h.2.2 a b ((hg _).2 (.inl ha)) ((hg _).2 (.inl hpb)), fun hne =>
      ⟨⟨a, (hg _).2 (.inl ha)⟩, ⟨b, (hg _).2 (.inl hpb)⟩, fun a' b' ha' hb' => ?_⟩⟩
    rw [huniq a' ha']
    rcases (hg _).1 hb' with hb' | ⟨_, he⟩
    · rw [hI.label_unique hb' hpb]; exact hne
    · have := (Group.mk.inj he).2
      omega
  · -- the parent is the root, and only the end of the run can label it
    have h0 : P.parent j = 0 := by
      by_contra h0
      exact hp (mem_taken_one (Nat.pos_of_ne_zero h0) ((P.parent_lt j hj).trans hn))
    have hvac : ∀ i, P.parent j ∈ P.taken i → j ∉ P.taken i →
        ∃ c, Bumps P c ∧ P.parent j ∈ P.taken c ∧ j ∉ P.taken c := by
      intro i hpi hji
      rcases lt_or_ge i 1 with hi | hi
      · exact absurd (P.tree.taken_anti (le_of_lt hi) hj1) hji
      · exact absurd (P.tree.taken_anti hi hpi) hp
    rw [and_iff_left hvac, h0, or_iff_right (not_not.2 rfl), or_iff_right (h0 ▸ hp)]
    have honly : ∀ b, (⟨0, b⟩ : Group) ∈ g' → LastStop P 1 1 ∧ b = s.PL := fun b hb' => by
      rcases (hg _).1 hb' with hb' | ⟨h1, he⟩
      · exact absurd (hI.mem_taken hb') (h0 ▸ hp)
      · exact ⟨h1, (Group.mk.inj he).2⟩
    refine ⟨fun ⟨_, ⟨b, hb'⟩, _⟩ => (honly b hb').1, fun h1 =>
      ⟨⟨a, (hg _).2 (.inl ha)⟩, ⟨s.PL, (hg _).2 (.inr ⟨h1, rfl⟩)⟩, fun a' b' ha' hb' => ?_⟩⟩
    rw [huniq a' ha', (honly b' hb').2]
    omega

/-- A hash join: the hash ends the first pipeline, the join is in the second. -/
def hashPlan : Plan where
  nodes := ["Hash Join", "Seq Scan", "Hash", "Seq Scan"]
  parents := [-1, 0, 0, 2]
  length_eq := rfl
  root := rfl
  link := by decide

theorem blocking_separated_hashPlan :
    segPipe hashPlan 0 = .ok [⟨3, 1⟩, ⟨2, 1⟩, ⟨1, 2⟩, ⟨0, 2⟩] ∧
    Separated [⟨3, 1⟩, ⟨2, 1⟩, ⟨1, 2⟩, ⟨0, 2⟩] 2 (hashPlan.parent 2) ∧
    (hashPlan.parent 2 ≠ 0 ∨ 0 ∈ hashPlan.taken 1 ∨ LastStop hashPlan 1 1) ∧
    ∀ i, hashPlan.parent 2 ∈ hashPlan.taken i → 2 ∉ hashPlan.taken i →
      ∃ c, Bumps hashPlan c ∧ hashPlan.parent 2 ∈ hashPlan.taken c ∧ 2 ∉ hashPlan.taken c := by
  have hrun : segPipe hashPlan 0 = .ok [⟨3, 1⟩, ⟨2, 1⟩, ⟨1, 2⟩, ⟨0, 2⟩] := by decide
  have hparent : hashPlan.parent 2 = 0 := by decide
  have hsep : Separated [⟨3, 1⟩, ⟨2, 1⟩, ⟨1, 2⟩, ⟨0, 2⟩] 2 (hashPlan.parent 2) := by
    rw [hparent]
    exact ⟨⟨1, by decide⟩, ⟨2, by decide⟩, by simp⟩
  exact ⟨hrun, hsep,
    (blocking_separated_iff hrun (by decide) (by decide) (by decide) (by decide)).1 hsep⟩

/-- A nested loop over a sort and a scan: the scan's climb labels the loop and
leaves the label to the climb of the sort. -/
def loopPlan : Plan where
  nodes := ["Merge Join", "Nested Loop", "Sort", "Seq Scan", "Seq Scan", "Index Scan"]
  parents := [-1, 0, 1, 2, 1, 0]
  length_eq := rfl
  root := rfl
  link := by decide

theorem sort_not_separated :
    segPipe loopPlan 0 = .ok [⟨5, 1⟩, ⟨0, 1⟩, ⟨4, 2⟩, ⟨1, 2⟩, ⟨3, 2⟩, ⟨2, 2⟩] ∧
    isBlocking (loopPlan.node 2) = true ∧ isNestedLoop (loopPlan.node 2) = false ∧
    loopPlan.parent 2 = 1 := by
  decide

end GreenPipeline.L4.SegPipe
