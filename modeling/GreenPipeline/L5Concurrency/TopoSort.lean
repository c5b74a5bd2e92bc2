import Mathlib.Algebra.Order.Ring.Int
import Mathlib.Data.List.Count
import Mathlib.Data.List.Induction

/-!
# Rearranging a wait queue: `TopoSort` and `ExpandConstraints`

To escape from a deadlock the detector tries to let some waiters of a lock go
ahead of others. `TopoSort` takes the wait queue and a list of edges to be
reversed, between lock groups, and looks for an order in which every waiter's
group stands before the blocker's, the members of a group side by side.

The queue is filled from its end. One position of each group, its last, carries the
number of groups that must still come after it. The other positions of a group are
marked with -1 so that the group is not taken too early, but only while the function
looks for the *blocker* of a constraint: the loop over the waiter's group stops at the
first match.

The list that starts at `afterConstraints[k]` is modelled as the list of the `pred`
fields of its constraints.

Sources: `src/backend/storage/lmgr/deadlock.c`.

Results:

* `markBlockers_none`: the loop over the blocker's group finds its last position and
  marks the others.
* `counted_foldl`: what the first phase leaves in the arrays.
-/
namespace GreenPipeline.L5.TopoSort

open List Nat Option Function

/-! ## Lock groups and edges -/

/-- The `lockGroupLeader` fields. A leader is its own leader; a process without a group
has none. -/
structure LockGroups (P : Type) where
  lockGroupLeader : P → Option P
  leader_self : ∀ {p l}, lockGroupLeader p = some l → lockGroupLeader l = some l

section
variable {P : Type} (G : LockGroups P)

def LockGroups.leader (p : P) : P := (G.lockGroupLeader p).getD p

theorem LockGroups.leader_leader (p : P) : G.leader (G.leader p) = G.leader p := by
  unfold LockGroups.leader
  cases h : G.lockGroupLeader p with
  | none => simp [h]
  | some l => simp [G.leader_self h]

variable [DecidableEq P]

/-- The test `p == proc || p->lockGroupLeader == proc`. -/
def LockGroups.inGroup (p proc : P) : Bool := p == proc || G.lockGroupLeader p == some proc

theorem LockGroups.inGroup_iff {p proc : P} (h : G.leader proc = proc) :
    G.inGroup p proc = true ↔ G.leader p = proc := by
  rw [LockGroups.inGroup, Bool.or_eq_true, beq_iff_eq, beq_iff_eq]
  constructor
  · rintro (rfl | hp)
    · exact h
    · rw [LockGroups.leader, hp]
      rfl
  · intro hp
    unfold LockGroups.leader at hp
    cases hl : G.lockGroupLeader p with
    | none =>
      rw [hl] at hp
      exact .inl hp
    | some l =>
      rw [hl] at hp
      exact .inr (congrArg some hp)

end

/-- An edge of the waits-for graph: both ends are leaders.
mirrors deadlock.c:46-53 -/
structure Edge {P : Type} (G : LockGroups P) (L : Type) where
  waiter : P
  blocker : P
  lock : L
  waiter_leader : G.leader waiter = waiter
  blocker_leader : G.leader blocker = blocker

/-! ## The code -/

/-- The last index below the given one that passes a test. -/
def lastMatch (m : Nat → Bool) : Nat → Option Nat
  | 0 => none
  | j + 1 => if m j then some j else lastMatch m j

/-- The loop over the blocker's group: the first match is kept, the others are marked.
mirrors deadlock.c:956-972 -/
def markBlockers (m : Nat → Bool) : Nat → Option Nat → (Nat → Int) → Option Nat × (Nat → Int)
  | 0, kk, before => (kk, before)
  | k + 1, kk, before =>
    if m k then
      match kk with
      | none => markBlockers m k (some k) before
      | some kk => markBlockers m k (some kk) (Function.update before k (-1))
    else markBlockers m k kk before

/-- `beforeConstraints` and `afterConstraints`. -/
structure Workspace where
  before : Nat → Int
  after : Nat → List Nat

/-- `topoProcs`, `beforeConstraints`, `last` and the filled part of `ordering`. -/
structure TopoState (P : Type) where
  topoProcs : Nat → Option P
  before : Nat → Int
  last : Nat
  ordering : List P

section
variable {P L : Type} [DecidableEq P] (G : LockGroups P)

section
variable (topoProcs : Nat → Option P) (queueSize : Nat)

/-- Position `j` holds a process of the group of `proc`. -/
def waitsAt (proc : P) (j : Nat) : Bool := (topoProcs j).any (G.inGroup · proc)

/-- One constraint is counted at its waiter and listed at its blocker, if both wait here. The
loop over the waiter's group breaks at its first match.
mirrors deadlock.c:920-984 -/
def addConstraint (ws : Workspace) (constraint : Edge G L) : Workspace :=
  match lastMatch (waitsAt G topoProcs constraint.waiter) queueSize with
  | none => ws
  | some jj =>
    match markBlockers (waitsAt G topoProcs constraint.blocker) queueSize none ws.before with
    | (none, before) => { ws with before := before }
    | (some kk, before) =>
      { before := Function.update before jj (before jj + 1)
        after := Function.update ws.after kk (jj :: ws.after kk) }

end

/-- `while (topoProcs[last] == NULL) last--`. -/
def skipNull (topoProcs : Nat → Option P) : Nat → Nat
  | 0 => 0
  | last + 1 => if (topoProcs (last + 1)).isNone then skipNull topoProcs last else last + 1

/-- A member of the group at position `c` is put in front of what was output.
mirrors deadlock.c:1023-1032 -/
def emitAt (proc : P) (s : TopoState P) (c : Nat) : TopoState P :=
  match s.topoProcs c with
  | none => s
  | some p =>
    if G.inGroup p proc then
      { s with topoProcs := Function.update s.topoProcs c none, ordering := p :: s.ordering }
    else s

/-- mirrors deadlock.c:1036-1037 -/
def releaseAfter (before : Nat → Int) (preds : List Nat) : Nat → Int :=
  preds.foldl (fun before pred => Function.update before pred (before pred - 1)) before

/-- The loop that fills `ordering` from its end; `rest` entries are still to be output.
mirrors deadlock.c:998-1038 -/
def emitLoop (after : Nat → List Nat) : (fuel rest : Nat) → TopoState P → Option (List P)
  | _, 0, s => some s.ordering
  | 0, _ + 1, _ => none
  | fuel + 1, rest + 1, s =>
    let last := skipNull s.topoProcs s.last
    match lastMatch (fun j => (s.topoProcs j).isSome && s.before j == 0) (last + 1) with
    | none => none
    | some j =>
      match s.topoProcs j with
      | none => none
      | some p =>
        let s' := (List.range (last + 1)).foldl (emitAt G (G.leader p)) { s with last := last }
        emitLoop after fuel (rest + 1 - (s'.ordering.length - s.ordering.length))
          { s' with before := releaseAfter s'.before (after j) }

/-- The new order, or none if there is no available candidate.
mirrors deadlock.c:870-1042 -/
def topoSort (queue : List P) (constraints : List (Edge G L)) : Option (List P) :=
  let ws := constraints.foldl (addConstraint G (queue[·]?) queue.length) ⟨fun _ => 0, fun _ => []⟩
  emitLoop G ws.after queue.length queue.length ⟨(queue[·]?), ws.before, queue.length - 1, []⟩

end

/-! ## Searching for positions -/

theorem lastMatch_eq_some_iff {m : Nat → Bool} {n j : Nat} :
    lastMatch m n = some j ↔ j < n ∧ m j = true ∧ ∀ x, j < x → x < n → m x = false := by
  induction n with
  | zero => simp [lastMatch]
  | succ n ih =>
    rw [lastMatch]
    by_cases hn : m n = true
    · rw [if_pos hn, some.injEq]
      constructor
      · rintro rfl
        exact ⟨lt_succ_self _, hn, fun x hx hlt => by omega⟩
      · intro ⟨hj, _, hmax⟩
        by_contra hne
        have hfalse := hmax n (by omega) (lt_succ_self n)
        rw [hn] at hfalse
        cases hfalse
    · rw [if_neg hn, ih]
      constructor
      · intro ⟨hj, hm, hmax⟩
        refine ⟨lt_succ_of_lt hj, hm, fun x hx hlt => ?_⟩
        obtain hlt | rfl := lt_or_eq_of_le (le_of_lt_succ hlt)
        · exact hmax x hx hlt
        · simpa using hn
      · intro ⟨hj, hm, hmax⟩
        obtain hlt | rfl := lt_or_eq_of_le (le_of_lt_succ hj)
        · exact ⟨hlt, hm, fun x hx hlt => hmax x hx (lt_succ_of_lt hlt)⟩
        · exact absurd hm hn

theorem lastMatch_eq_none_iff {m : Nat → Bool} {n : Nat} :
    lastMatch m n = none ↔ ∀ x < n, m x = false := by
  induction n with
  | zero => simp [lastMatch]
  | succ n ih =>
    rw [lastMatch]
    by_cases hn : m n = true
    · rw [if_pos hn]
      refine iff_of_false (by simp) fun h => ?_
      rw [h n (lt_succ_self n)] at hn
      cases hn
    · rw [if_neg hn, ih]
      refine ⟨fun h x hx => ?_, fun h x hx => h x (lt_succ_of_lt hx)⟩
      obtain hlt | rfl := lt_or_eq_of_le (le_of_lt_succ hx)
      · exact h x hlt
      · simpa using hn

theorem markBlockers_some (m : Nat → Bool) (n kk : Nat) (before : Nat → Int) :
    markBlockers m n (some kk) before =
      (some kk, fun y => if y < n ∧ m y = true then -1 else before y) := by
  induction n generalizing before with
  | zero => simp [markBlockers]
  | succ n ih =>
    rw [markBlockers]
    by_cases hn : m n = true
    · rw [if_pos hn, ih]
      refine Prod.ext rfl (funext fun y => ?_)
      by_cases hy : y = n
      · subst hy
        simp [hn]
      · dsimp only
        rw [update_of_ne hy]
        have hiff : y < n ↔ y < n + 1 := by omega
        simp only [hiff]
    · rw [if_neg hn, ih]
      refine Prod.ext rfl (funext fun y => ?_)
      by_cases hy : y = n
      · subst hy
        simp [hn]
      · have hiff : y < n ↔ y < n + 1 := by omega
        simp only [hiff]

/-- The loop finds the last match and marks every other one. -/
theorem markBlockers_none (m : Nat → Bool) (n : Nat) (before : Nat → Int) :
    markBlockers m n none before =
    (lastMatch m n, fun y => if y < n ∧ m y = true ∧ lastMatch m n ≠ some y then -1 else
      before y) := by
  induction n with
  | zero => simp [markBlockers, lastMatch]
  | succ n ih =>
    rw [markBlockers, lastMatch]
    by_cases hn : m n = true
    · rw [if_pos hn, if_pos hn, markBlockers_some]
      refine Prod.ext rfl (funext fun y => ?_)
      by_cases hy : y = n
      · subst hy
        simp
      · have hiff : y < n ↔ y < n + 1 := by omega
        have hne : some n ≠ some y := fun h => hy (some.inj h).symm
        simp only [hiff, hne, ne_eq, not_false_eq_true, and_true]
    · rw [if_neg hn, if_neg hn, ih]
      refine Prod.ext rfl (funext fun y => ?_)
      by_cases hy : y = n
      · subst hy
        simp [hn]
      · have hiff : y < n ↔ y < n + 1 := by omega
        simp only [hiff]

theorem skipNull_spec {P : Type} {topoProcs : Nat → Option P} {last x : Nat} (hx : x ≤ last)
    (hsome : topoProcs x ≠ none) :
    x ≤ skipNull topoProcs last ∧ skipNull topoProcs last ≤ last := by
  induction last with
  | zero => exact ⟨hx, le_refl _⟩
  | succ last ih =>
    rw [skipNull]
    split
    · rename_i hnone
      obtain hlt | rfl := lt_or_eq_of_le hx
      · obtain ⟨hle, hle'⟩ := ih (le_of_lt_succ hlt)
        exact ⟨hle, le_succ_of_le hle'⟩
      · exact absurd (isNone_iff_eq_none.1 hnone) hsome
    · exact ⟨hx, le_refl _⟩

theorem releaseAfter_apply (before : Nat → Int) (preds : List Nat) (k : Nat) :
    releaseAfter before preds k = before k - preds.count k := by
  induction preds generalizing before with
  | nil => simp [releaseAfter]
  | cons pred preds ih =>
    rw [releaseAfter, foldl_cons, ← releaseAfter, ih, count_cons]
    by_cases hk : k = pred
    · subst hk
      simp
      omega
    · rw [update_of_ne hk]
      have hbeq : (pred == k) = false := by simpa using fun h => hk h.symm
      simp [hbeq]

/-! ## The groups of a queue -/

section
variable {P L : Type} (G : LockGroups P) (queue : List P)

/-- The group that waits at a position. -/
def groupAt (x : Nat) : Option P := queue[x]?.map G.leader

/-- Some member of the group waits in the queue. -/
def Waits (g : P) : Prop := ∃ x, groupAt G queue x = some g

/-- The group's last position. -/
def LastOf (g : P) (x : Nat) : Prop :=
  groupAt G queue x = some g ∧ ∀ y, groupAt G queue y = some g → y ≤ x

/-- A constraint whose two groups both wait in the queue. -/
def Relevant (constraints : List (Edge G L)) (w b : P) : Prop :=
  (∃ e ∈ constraints, e.waiter = w ∧ e.blocker = b) ∧ Waits G queue w ∧ Waits G queue b

variable {G queue}

theorem lt_length_of_groupAt {x : Nat} {g : P} (h : groupAt G queue x = some g) :
    x < queue.length := by
  obtain ⟨p, hp, -⟩ := map_eq_some_iff.1 h
  exact (List.getElem?_eq_some_iff.1 hp).1

theorem waits_iff_mem {g : P} : Waits G queue g ↔ g ∈ queue.map G.leader := by
  simp only [Waits, groupAt, ← getElem?_map, mem_iff_getElem?]

theorem LastOf.unique {g : P} {x y : Nat} (hx : LastOf G queue g x)
    (hy : LastOf G queue g y) : x = y :=
  le_antisymm (hy.2 x hx.1) (hx.2 y hy.1)

theorem LastOf.waits {g : P} {x : Nat} (hx : LastOf G queue g x) : Waits G queue g := ⟨x, hx.1⟩

variable [DecidableEq P]

instance (g : P) : Decidable (Waits G queue g) := decidable_of_iff _ waits_iff_mem.symm

section

variable {g : P} (hg : G.leader g = g)
include hg

theorem waitsAt_iff (x : Nat) : waitsAt G (queue[·]?) g x = true ↔ groupAt G queue x = some g := by
  show queue[x]?.any (G.inGroup · g) = true ↔ queue[x]?.map G.leader = some g
  cases queue[x]? with
  | none => simp
  | some p => simp [G.inGroup_iff hg]

theorem lastMatch_waitsAt_some {j : Nat} :
    lastMatch (waitsAt G (queue[·]?) g) queue.length = some j ↔ LastOf G queue g j := by
  rw [lastMatch_eq_some_iff, waitsAt_iff hg]
  constructor
  · intro ⟨_, hj, hmax⟩
    refine ⟨hj, fun y hy => ?_⟩
    by_contra hlt
    have hfalse := hmax y (by omega) (lt_length_of_groupAt hy)
    rw [(waitsAt_iff hg y).2 hy] at hfalse
    cases hfalse
  · intro ⟨hj, hmax⟩
    refine ⟨lt_length_of_groupAt hj, hj, fun x hx _ => ?_⟩
    by_contra htrue
    have hle := hmax x ((waitsAt_iff hg x).1 (by simpa using htrue))
    omega

theorem lastMatch_waitsAt_none :
    lastMatch (waitsAt G (queue[·]?) g) queue.length = none ↔ ¬ Waits G queue g := by
  rw [lastMatch_eq_none_iff]
  constructor
  · intro hall ⟨x, hx⟩
    have hfalse := hall x (lt_length_of_groupAt hx)
    rw [(waitsAt_iff hg x).2 hx] at hfalse
    cases hfalse
  · intro hnot x _
    by_contra htrue
    exact hnot ⟨x, (waitsAt_iff hg x).1 (by simpa using htrue)⟩

end

theorem exists_lastOf {g : P} (hg : Waits G queue g) : ∃ x, LastOf G queue g x := by
  obtain ⟨x, hx⟩ := hg
  obtain ⟨p, -, rfl⟩ := map_eq_some_iff.1 hx
  cases hlast : lastMatch (waitsAt G (queue[·]?) (G.leader p)) queue.length with
  | none => exact absurd ⟨x, hx⟩ ((lastMatch_waitsAt_none (G.leader_leader p)).1 hlast)
  | some j => exact ⟨j, (lastMatch_waitsAt_some (G.leader_leader p)).1 hlast⟩

end

/-! ## The counters -/

section
variable {P L : Type} {G : LockGroups P}

variable {e : Edge G L} {ws : Workspace}

theorem relevant_concat {w b : P} : Relevant G queue (constraints ++ [e]) w b ↔
    Relevant G queue constraints w b ∨
    (e.waiter = w ∧ e.blocker = b ∧ Waits G queue w ∧ Waits G queue b) := by
  constructor
  · rintro ⟨⟨e', he', hw, hb⟩, hwaits⟩
    obtain he' | he' := mem_append.1 he'
    · exact .inl ⟨⟨e', he', hw, hb⟩, hwaits⟩
    · cases mem_singleton.1 he'
      exact .inr ⟨hw, hb, hwaits⟩
  · rintro (⟨⟨e', he', h⟩, hwaits⟩ | ⟨hw, hb, hwaits⟩)
    · exact ⟨⟨e', mem_append_left _ he', h⟩, hwaits⟩
    · exact ⟨⟨e, by simp, hw, hb⟩, hwaits⟩

variable [DecidableEq P]

/-- The constraints between two groups. -/
def between (constraints : List (Edge G L)) (w b : P) : Nat :=
  constraints.countP fun e => e.waiter = w ∧ e.blocker = b

variable (queue : List P)

/-- The constraints that keep `g` from being output once the groups of `gs` were. -/
def pending (constraints : List (Edge G L)) (gs : List P) (g : P) : Nat :=
  constraints.countP fun e => e.waiter = g ∧ Waits G queue e.blocker ∧ e.blocker ∉ gs

variable {queue} {constraints : List (Edge G L)} {gs : List P} {g b : P}

theorem pending_eq_zero_iff (hg : Waits G queue g) :
    pending queue constraints gs g = 0 ↔ ∀ b, Relevant G queue constraints g b → b ∈ gs := by
  rw [pending, countP_eq_zero]
  constructor
  · rintro hall b ⟨⟨e, he, rfl, rfl⟩, -, hb⟩
    by_contra hmem
    exact hall e he (by simpa using ⟨hb, hmem⟩)
  · intro hall e he hpend
    obtain ⟨hw, hb, hmem⟩ := of_decide_eq_true hpend
    exact hmem (hall e.blocker ⟨⟨e, he, hw, rfl⟩, hg, hb⟩)

theorem pending_cons (hb : Waits G queue b) (hmem : b ∉ gs) :
    pending queue constraints gs g =
      pending queue constraints (b :: gs) g + between constraints g b := by
  unfold pending between
  induction constraints with
  | nil => rfl
  | cons e constraints ih =>
    rw [countP_cons, countP_cons, countP_cons, ih]
    by_cases hw : e.waiter = g
    · by_cases he : e.blocker = b
      · rw [if_pos (decide_eq_true ⟨hw, he ▸ hb, he ▸ hmem⟩), if_neg (by simp [he]),
          if_pos (by simp [hw, he])]
        omega
      · simp only [decide_eq_true_eq, hw, he, mem_cons, true_and, false_or, if_false]
        omega
    · simp only [hw, false_and, decide_false, Bool.false_eq_true, if_false, add_zero]

theorem between_eq_zero_of (hw : Waits G queue g) (hb : Waits G queue b)
    (h : ¬ Relevant G queue constraints g b) : between constraints g b = 0 := by
  rw [between, countP_eq_zero]
  intro e he hbetween
  obtain ⟨h₁, h₂⟩ := of_decide_eq_true hbetween
  exact h ⟨⟨e, he, h₁, h₂⟩, hw, hb⟩

/-- What the first phase leaves in the arrays. -/
structure Counted (queue : List P) (constraints : List (Edge G L)) (ws : Workspace) : Prop where
  /-- the last position of a group counts the constraints at which it waits -/
  last : ∀ g j, LastOf G queue g j → ws.before j = pending queue constraints [] g
  /-- the others are marked if the group is a blocker -/
  marked : ∀ g x, groupAt G queue x = some g → ¬ LastOf G queue g x →
    ∀ w, Relevant G queue constraints w g → ws.before x = -1
  unmarked : ∀ g x, groupAt G queue x = some g → ¬ LastOf G queue g x →
    (∀ w, ¬ Relevant G queue constraints w g) → ws.before x = 0
  after : ∀ g j h k, LastOf G queue g j → LastOf G queue h k →
    (ws.after j).count k = between constraints h g
  after_mem : ∀ x k, k ∈ ws.after x → (∃ g, LastOf G queue g x) ∧ ∃ h, LastOf G queue h k

theorem Counted.nil : Counted (L := L) (G := G) queue [] ⟨fun _ => 0, fun _ => []⟩ where
  last _ _ _ := rfl
  marked _ _ _ _ _ h := by
    obtain ⟨⟨e, he, -⟩, -⟩ := h
    cases he
  unmarked _ _ _ _ _ := rfl
  after _ _ _ _ _ _ := rfl
  after_mem _ _ h := by cases h

/-- A constraint that is not relevant to the queue leaves the counts valid as they are. -/
theorem Counted.skip (h : Counted queue constraints ws)
    (hskip : ¬ (Waits G queue e.waiter ∧ Waits G queue e.blocker)) :
    Counted queue (constraints ++ [e]) ws := by
  have hrel : ∀ w b, Relevant G queue (constraints ++ [e]) w b ↔
      Relevant G queue constraints w b := by
    intro w b
    rw [relevant_concat, or_iff_left]
    rintro ⟨rfl, rfl, hwaits⟩
    exact hskip hwaits
  refine ⟨fun g j hj => ?_, fun g x hx hlast w hw => h.marked g x hx hlast w ((hrel w g).1 hw),
    fun g x hx hlast hno => h.unmarked g x hx hlast fun w hw => hno w ((hrel w g).2 hw),
    fun g j k m hj hk => ?_, h.after_mem⟩
  · rw [h.last g j hj, pending, pending, countP_append, countP_singleton, if_neg, add_zero]
    intro hpend
    obtain ⟨hw, hb, -⟩ := of_decide_eq_true hpend
    exact hskip ⟨hw ▸ hj.waits, hb⟩
  · rw [h.after g j k m hj hk, between, between, countP_append, countP_singleton, if_neg, add_zero]
    intro hbetween
    obtain ⟨hw, hb⟩ := of_decide_eq_true hbetween
    exact hskip ⟨hw ▸ hk.waits, hb ▸ hj.waits⟩

/-- A relevant constraint is counted at the waiter's last position and listed at the
blocker's, whose other positions are marked. -/
theorem Counted.add {jj kk : Nat} (h : Counted queue constraints ws)
    (hjj : LastOf G queue e.waiter jj) (hkk : LastOf G queue e.blocker kk) {before : Nat → Int}
    (hmark : ∀ y, groupAt G queue y = some e.blocker → ¬ LastOf G queue e.blocker y → before y = -1)
    (hsame : ∀ y, ¬ (groupAt G queue y = some e.blocker ∧ ¬ LastOf G queue e.blocker y) →
      before y = ws.before y) :
    Counted queue (constraints ++ [e]) ⟨Function.update before jj (before jj + 1),
      Function.update ws.after kk (jj :: ws.after kk)⟩ := by
  have hkeep : ∀ g j, LastOf G queue g j → before j = ws.before j := by
    intro g j hj
    refine hsame j ?_
    rintro ⟨hg, hlast⟩
    rw [hj.1, some.injEq] at hg
    exact hlast (hg ▸ hj)
  have hother : ∀ g x, groupAt G queue x = some g → ¬ LastOf G queue g x → x ≠ jj := by
    rintro g x hx hlast rfl
    rw [hjj.1, some.injEq] at hx
    exact hlast (hx ▸ hjj)
  refine ⟨fun g j hj => ?_, fun g x hx hlast w hw => ?_, fun g x hx hlast hno => ?_,
    fun g j k m hj hm => ?_, fun x k hk => ?_⟩
  · dsimp only
    rw [pending, countP_append, countP_singleton, ← pending]
    by_cases hw : e.waiter = g
    · subst hw
      cases hj.unique hjj
      rw [update_self, hkeep _ _ hj, h.last _ _ hj, if_pos (by simpa using hkk.waits)]
      rfl
    · have hne : j ≠ jj := by
        rintro rfl
        exact hw (some.inj (hjj.1.symm.trans hj.1))
      rw [update_of_ne hne, hkeep _ _ hj, h.last _ _ hj, if_neg (by simp [hw])]
      rfl
  · dsimp only
    rw [update_of_ne (hother g x hx hlast)]
    by_cases hb : e.blocker = g
    · exact hmark x (hb ▸ hx) (hb ▸ hlast)
    · rw [hsame x fun hcontra => hb (some.inj (hcontra.1.symm.trans hx))]
      obtain hw | hw := relevant_concat.1 hw
      · exact h.marked g x hx hlast w hw
      · exact absurd hw.2.1 hb
  · have hb : e.blocker ≠ g := fun hb =>
      hno e.waiter (relevant_concat.2 (.inr ⟨rfl, hb, hjj.waits, hb ▸ hkk.waits⟩))
    dsimp only
    rw [update_of_ne (hother g x hx hlast),
      hsame x fun hcontra => hb (some.inj (hcontra.1.symm.trans hx))]
    exact h.unmarked g x hx hlast fun w hw => hno w (relevant_concat.2 (.inl hw))
  · dsimp only
    rw [between, countP_append, countP_singleton, ← between, ← h.after g j k m hj hm]
    by_cases hb : e.blocker = g
    · subst hb
      cases hj.unique hkk
      rw [update_self, count_cons]
      have hiff : (jj == m) = true ↔ decide (e.waiter = k ∧ e.blocker = e.blocker) = true := by
        rw [beq_iff_eq, decide_eq_true_eq]
        constructor
        · rintro rfl
          exact ⟨some.inj (hjj.1.symm.trans hm.1), rfl⟩
        · rintro ⟨rfl, -⟩
          exact hjj.unique hm
      simp only [hiff]
    · have hne : j ≠ kk := by
        rintro rfl
        exact hb (some.inj (hkk.1.symm.trans hj.1))
      rw [update_of_ne hne, if_neg (by simp [hb]), add_zero]
  · dsimp only at hk
    by_cases hx : x = kk
    · subst hx
      rw [update_self] at hk
      obtain rfl | hk := mem_cons.1 hk
      · exact ⟨⟨e.blocker, hkk⟩, e.waiter, hjj⟩
      · exact h.after_mem x k hk
    · rw [update_of_ne hx] at hk
      exact h.after_mem x k hk

theorem Counted.addConstraint (h : Counted queue constraints ws) (e : Edge G L) :
    Counted queue (constraints ++ [e]) (addConstraint G (queue[·]?) queue.length ws e) := by
  unfold TopoSort.addConstraint
  split
  · rename_i hnone
    exact h.skip fun hwaits => (lastMatch_waitsAt_none e.waiter_leader).1 hnone hwaits.1
  · rename_i jj hjj
    rw [lastMatch_waitsAt_some e.waiter_leader] at hjj
    rw [markBlockers_none]
    split
    · rename_i before hmark
      obtain ⟨hnone, rfl⟩ := Prod.mk.inj hmark
      rw [lastMatch_waitsAt_none e.blocker_leader] at hnone
      -- no position is marked: the arrays stay as they were
      have hsame : (fun y => if y < queue.length ∧ waitsAt G (queue[·]?) e.blocker y = true ∧
          lastMatch (waitsAt G (queue[·]?) e.blocker) queue.length ≠
          some y then -1 else ws.before y) = ws.before := by
        funext y
        rw [if_neg]
        rintro ⟨-, hy, -⟩
        exact hnone ⟨y, (waitsAt_iff e.blocker_leader y).1 hy⟩
      rw [hsame]
      exact h.skip fun hwaits => hnone hwaits.2
    · rename_i kk before hmark
      obtain ⟨hkk, rfl⟩ := Prod.mk.inj hmark
      have hiff : ∀ y, (y < queue.length ∧ waitsAt G (queue[·]?) e.blocker y = true ∧
          lastMatch (waitsAt G (queue[·]?) e.blocker) queue.length ≠ some y) ↔
          (groupAt G queue y = some e.blocker ∧ ¬ LastOf G queue e.blocker y) := by
        intro y
        rw [waitsAt_iff e.blocker_leader, ne_eq, lastMatch_waitsAt_some e.blocker_leader]
        exact ⟨fun hy => hy.2, fun hy => ⟨lt_length_of_groupAt hy.1, hy⟩⟩
      exact h.add hjj ((lastMatch_waitsAt_some e.blocker_leader).1 hkk)
        (fun y hy hlast => if_pos ((hiff y).2 ⟨hy, hlast⟩))
          (fun y hy => if_neg fun hcontra => hy ((hiff y).1 hcontra))

/-- The first phase, over the whole list. -/
theorem counted_foldl (queue : List P) (constraints : List (Edge G L)) : Counted queue constraints
    (constraints.foldl (addConstraint G (queue[·]?) queue.length) ⟨fun _ => 0, fun _ => []⟩) := by
  induction constraints using reverseRecOn with
  | nil => exact .nil
  | append_singleton constraints e ih =>
    rw [foldl_append]
    exact ih.addConstraint e

end

end GreenPipeline.L5.TopoSort
