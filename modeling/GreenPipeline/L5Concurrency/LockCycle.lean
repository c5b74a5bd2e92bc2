import Mathlib.Data.Fintype.Card
import Mathlib.Data.List.Induction
import Mathlib.Data.List.Nodup
import Mathlib.Logic.Relation
import GreenPipeline.Core.StateSearch
import GreenPipeline.L5Concurrency.WaitOrder

/-!
# Searching the waits-for graph: `FindLockCycle`

The vertices of the graph are lock groups, named by their leaders. A group waits for
another if one of its members waits for a lock that a process of the other group holds
in a conflicting mode (a hard edge), or waits for in a conflicting mode further ahead in
the queue (a soft edge). `FindLockCycle` is a depth-first search from one group: it
answers true when it comes back to the group it began at, and false at any other vertex
it has seen. The soft edges of the cycle are collected while the recursion unwinds.

The position that counts for a soft edge is that of the group, not of the member: in the
true wait queue everything ahead of the group's *last* member is looked at, in a
hypothetical order everything ahead of its first.

The recursion takes fuel, one unit for each vertex of the graph.

Sources: `src/backend/storage/lmgr/deadlock.c`.

Results:

* `mem_softProcs`: what the scan of the queue looks at.
* `recurse_searches`: one call, from any state of the search.
* `findLockCycle_exact`: the answer is true exactly on a cycle, and the edges returned are the soft
  edges of one.
* `softBlocks_iff_earlier`: in a queue with its groups side by side the soft edges go to
  the waiters ahead of the member itself.
-/
namespace GreenPipeline.L5.LockCycle

open Relation GreenPipeline.Core.StateSearch GreenPipeline.L5.TopoSort List

/-! ## The lock table -/

/-- mirrors src/include/storage/lock.h:107-120 -/
structure LockMethod where
  numLockModes : Nat
  conflictTab : Nat → Nat

structure Proclock (P : Type) where
  myProc : P
  holdMask : Nat

/-- What the search reads: the processes with their groups and what they wait for, and the locks
with their holders and their queues. -/
structure LockTable (P L : Type) where
  groups : LockGroups P
  lockGroupMembers : P → List P
  mem_lockGroupMembers : ∀ {m l}, m ∈ lockGroupMembers l ↔ groups.lockGroupLeader m = some l
  /-- `links.next` is not null -/
  linked : P → Bool
  waitLock : P → Option L
  waitLockMode : P → Nat
  lockMethod : L → LockMethod
  procLocks : L → List (Proclock P)
  waitProcs : L → List P
  mem_waitProcs : ∀ {p l}, p ∈ waitProcs l ↔ linked p = true ∧ waitLock p = some l
  nodup_waitProcs : ∀ l, (waitProcs l).Nodup
  isAutovacuum : P → Bool

/-- `LOCKBIT_ON` -/
def lockbitOn (lm : Nat) : Nat := 1 <<< lm

/-- mirrors deadlock.c:71-76 -/
structure DeadlockInfo (P L : Type) where
  locktag : L
  lockmode : Nat
  pid : P
  deriving DecidableEq

/-- The variables of the search. -/
structure Search {P : Type} (G : LockGroups P) (L : Type) where
  visitedProcs : List P
  softEdges : List (Edge G L)
  nDeadlockDetails : Nat
  deadlockDetails : Nat → Option (DeadlockInfo P L)
  blockingAutovacuumProc : Option P

/-- The edge between the groups of two processes. -/
def edgeOf {P L : Type} (G : LockGroups P) (waiter blocker : P) (lock : L) : Edge G L :=
  ⟨G.leader waiter, G.leader blocker, lock, G.leader_leader waiter, G.leader_leader blocker⟩

/-! ## The code -/

section
variable {P L : Type} [DecidableEq P] [DecidableEq L] (T : LockTable P L)
  (waitOrders : List (WaitOrder P L)) (myProc : P)

/-- Fill `deadlockDetails[depth]`. -/
def fillDetails (checkProc : P) (lock : L) (depth : Nat) (s : Search T.groups L) :
    Search T.groups L :=
  { s with
    deadlockDetails :=
      Function.update s.deadlockDetails depth (some ⟨lock, T.waitLockMode checkProc, checkProc⟩) }

/-- The holder has some mode that conflicts with what `checkProc` waits for. -/
def hardConflict (checkProc : P) (lock : L) (proclock : Proclock P) : Bool :=
  let conflictMask := (T.lockMethod lock).conflictTab (T.waitLockMode checkProc)
  (List.range' 1 (T.lockMethod lock).numLockModes).any fun lm =>
    proclock.holdMask &&& lockbitOn lm != 0 && conflictMask &&& lockbitOn lm != 0

def softConflict (checkProc : P) (lock : L) (proc : P) : Bool :=
  let conflictMask := (T.lockMethod lock).conflictTab (T.waitLockMode checkProc)
  lockbitOn (T.waitLockMode proc) &&& conflictMask != 0

/-- One holder of the lock.
mirrors deadlock.c:571-630 -/
def checkHolder (recurse : P → Nat → Search T.groups L → Bool × Search T.groups L)
    (checkProc checkProcLeader : P) (lock : L) (depth : Nat) (proclock : Proclock P)
    (s : Search T.groups L) : Bool × Search T.groups L :=
  if T.groups.leader proclock.myProc ≠ checkProcLeader ∧
    hardConflict T checkProc lock proclock = true then
    match recurse proclock.myProc (depth + 1) s with
    | (true, s) => (true, fillDetails T checkProc lock depth s)
    | (false, s) =>
      (false, if checkProc = myProc ∧ T.isAutovacuum proclock.myProc = true then
          { s with blockingAutovacuumProc := some proclock.myProc } else s)
  else (false, s)

/-- The last member of the group in the queue.
mirrors deadlock.c:716-730 -/
def lastGroupMember (checkProc checkProcLeader : P) (lock : L) : Option P :=
  match T.groups.lockGroupLeader checkProc with
  | none => some checkProc
  | some _ =>
    (T.waitProcs lock).foldl
      (fun last proc => if T.groups.lockGroupLeader proc = some checkProcLeader then
        some proc else last) none

/-- The processes looked at for soft edges: up to the first member of the group in a hypothetical
order, up to its last member in the true queue.
mirrors deadlock.c:643-668 and 703-750 -/
def softProcs (checkProc checkProcLeader : P) (lock : L) : List P :=
  match waitOrders.find? (·.lock == lock) with
  | some order => order.procs.takeWhile (fun proc => T.groups.leader proc ≠ checkProcLeader)
  | none =>
    (T.waitProcs lock).takeWhile
      (fun proc => some proc ≠ lastGroupMember T checkProc checkProcLeader lock)

/-- One waiter ahead in the queue.
mirrors deadlock.c:670-695 and 752-776 -/
def checkWaiter (recurse : P → Nat → Search T.groups L → Bool × Search T.groups L)
    (checkProc checkProcLeader : P) (lock : L) (depth : Nat) (proc : P) (s : Search T.groups L) :
    Bool × Search T.groups L :=
  if softConflict T checkProc lock proc = true ∧ T.groups.leader proc ≠ checkProcLeader then
    match recurse proc (depth + 1) s with
    | (true, s) =>
      let s := fillDetails T checkProc lock depth s
      (true, { s with softEdges := s.softEdges ++ [edgeOf T.groups checkProc proc lock] })
    | (false, s) => (false, s)
  else (false, s)

/-- The edges that leave one waiting member of the group, the hard ones first.
mirrors deadlock.c:538-784 -/
def findLockCycleRecurseMember (recurse : P → Nat → Search T.groups L → Bool × Search T.groups L)
    (checkProc checkProcLeader : P) (depth : Nat) : Search T.groups L → Bool × Search T.groups L :=
  match T.waitLock checkProc with
  | none => fun s => (false, s)
  | some lock =>
    orElse (searchAny (checkHolder T myProc recurse checkProc checkProcLeader lock depth)
      (T.procLocks lock))
      (searchAny (checkWaiter T recurse checkProc checkProcLeader lock depth)
        (softProcs T waitOrders checkProc checkProcLeader lock))

/-- The leader, then the other members, of those that wait.
mirrors deadlock.c:508-535 -/
def scanGroup (recurse : P → Nat → Search T.groups L → Bool × Search T.groups L) (checkProc : P)
    (depth : Nat) :
    Search T.groups L → Bool × Search T.groups L :=
  searchAny
    (fun memberProc s =>
      if T.linked memberProc = true ∧ T.waitLock memberProc ≠ none then
        findLockCycleRecurseMember T waitOrders myProc recurse memberProc checkProc depth s
      else (false, s))
    (checkProc :: (T.lockGroupMembers checkProc).filter (· ≠ checkProc))

/-- mirrors deadlock.c:459-536 -/
def findLockCycleRecurse : (fuel : Nat) → P → (depth : Nat) → Search T.groups L →
    Bool × Search T.groups L
  | 0, _, _, s => (false, s)
  | fuel + 1, proc, depth, s =>
    let checkProc := T.groups.leader proc
    match s.visitedProcs.idxOf? checkProc with
    | some 0 => (true, { s with nDeadlockDetails := depth })
    | some _ => (false, s)
    | none =>
      scanGroup T waitOrders myProc (findLockCycleRecurse fuel) checkProc depth
        { s with visitedProcs := s.visitedProcs ++ [checkProc] }

/-- mirrors deadlock.c:448-457 -/
def findLockCycle [Fintype P] (blockingAutovacuumProc : Option P) (checkProc : P) :
    Bool × Search T.groups L :=
  findLockCycleRecurse T waitOrders myProc (Fintype.card P + 1) checkProc 0
    ⟨[], [], 0, fun _ => none, blockingAutovacuumProc⟩

end

/-! ## The graph -/

section
variable {P L : Type} [DecidableEq L] (T : LockTable P L) (waitOrders : List (WaitOrder P L))

/-- The order the search believes in: the hypothetical one, if there is one. -/
def queueOf (lock : L) : List P :=
  match waitOrders.find? (·.lock == lock) with
  | some order => order.procs
  | none => T.waitProcs lock

/-- `p` stands ahead of some member of the group. -/
def AheadOfGroup (G : LockGroups P) (queue : List P) (p g : P) : Prop :=
  ∃ i j : Nat, i < j ∧ queue[i]? = some p ∧ groupAt G queue j = some g

/-- `p` stands ahead of `q`. -/
def AheadOf (queue : List P) (p q : P) : Prop :=
  ∃ i j : Nat, i < j ∧ queue[i]? = some p ∧ queue[j]? = some q

/-- An edge: the member that waits, the lock, the process that blocks it, and the kind. -/
structure WaitEdge (P L : Type) where
  member : P
  lock : L
  blocker : P
  soft : Bool

/-- The member waits for the lock, and the other process is of another group. -/
def BetweenGroups (e : WaitEdge P L) : Prop :=
  T.linked e.member = true ∧ T.waitLock e.member = some e.lock ∧
    T.groups.leader e.blocker ≠ T.groups.leader e.member

def HardBlocks (e : WaitEdge P L) : Prop :=
  ∃ proclock ∈ T.procLocks e.lock, proclock.myProc = e.blocker ∧
    hardConflict T e.member e.lock proclock = true

/-- The blocker conflicts with the member's request and is ahead of the member's group. -/
def SoftBlocks (e : WaitEdge P L) : Prop :=
  softConflict T e.member e.lock e.blocker = true ∧
    AheadOfGroup T.groups (queueOf T waitOrders e.lock) e.blocker (T.groups.leader e.member)

/-- The blocker conflicts with the member's request and is ahead of the member. -/
def EarlierBlocks (e : WaitEdge P L) : Prop :=
  softConflict T e.member e.lock e.blocker = true ∧
    AheadOf (queueOf T waitOrders e.lock) e.blocker e.member

def IsEdge (softBlocks : WaitEdge P L → Prop) (e : WaitEdge P L) : Prop :=
  BetweenGroups T e ∧ if e.soft = true then softBlocks e else HardBlocks T e

/-- The waits-for graph. -/
def WaitsFor (softBlocks : WaitEdge P L → Prop) (a b : P) : Prop :=
  ∃ e, IsEdge T softBlocks e ∧ T.groups.leader e.member = a ∧ T.groups.leader e.blocker = b

/-- A path of edges from group `a` to group `b`. -/
def IsPath (softBlocks : WaitEdge P L → Prop) : P → List (WaitEdge P L) → P → Prop
  | a, [], b => a = b
  | a, e :: es, b =>
    T.groups.leader e.member = a ∧ IsEdge T softBlocks e ∧
      IsPath softBlocks (T.groups.leader e.blocker) es b

end

/-! ## The scan of the queue -/

theorem mem_takeWhile_iff {α : Type} {q : α → Bool} {l : List α} {x : α} :
    x ∈ l.takeWhile q ↔ ∃ i : Nat, l[i]? = some x ∧ ∀ j ≤ i, ∀ y, l[j]? = some y → q y = true := by
  induction l with
  | nil => simp
  | cons a l ih =>
    rw [takeWhile_cons]
    by_cases ha : q a = true
    · rw [if_pos ha, mem_cons, ih]
      constructor
      · rintro (rfl | ⟨i, hi, hall⟩)
        · refine ⟨0, rfl, fun j hj y hy => ?_⟩
          cases Nat.le_zero.1 hj
          cases hy
          exact ha
        · refine ⟨i + 1, hi, fun j hj y hy => ?_⟩
          cases j with
          | zero =>
            cases hy
            exact ha
          | succ j => exact hall j (by omega) y hy
      · rintro ⟨i, hi, hall⟩
        cases i with
        | zero =>
          cases hi
          exact .inl rfl
        | succ i => exact .inr ⟨i, hi, fun j hj y hy => hall (j + 1) (by omega) y hy⟩
    · rw [if_neg ha]
      refine iff_of_false (by simp) ?_
      rintro ⟨i, -, hall⟩
      exact ha (hall 0 (Nat.zero_le i) a rfl)

/-- The loop keeps the last element that passes the test. -/
theorem foldl_last {α : Type} (q : α → Prop) [DecidablePred q] {l : List α} (hex : ∃ x ∈ l, q x) :
    ∃ (k : Nat) (y : α), l.foldl (fun last x => if q x then some x else last) none = some y ∧
      l[k]? = some y ∧ q y ∧
      ∀ (j : Nat) (x : α), l[j]? = some x → q x → j ≤ k := by
  induction l using reverseRecOn with
  | nil =>
    obtain ⟨x, hx, -⟩ := hex
    cases hx
  | append_singleton l a ih =>
    rw [foldl_append, foldl_cons, foldl_nil]
    by_cases ha : q a
    · refine ⟨l.length, a, if_pos ha, by simp, ha, fun j x hj _ => ?_⟩
      have hlt := (List.getElem?_eq_some_iff.1 hj).1
      rw [length_append, length_singleton] at hlt
      omega
    · rw [if_neg ha]
      have hex' : ∃ x ∈ l, q x := by
        obtain ⟨x, hx, hqx⟩ := hex
        obtain hx | hx := mem_append.1 hx
        · exact ⟨x, hx, hqx⟩
        · cases mem_singleton.1 hx
          exact absurd hqx ha
      obtain ⟨k, y, hfold, hk, hy, hmax⟩ := ih hex'
      have hlt := (List.getElem?_eq_some_iff.1 hk).1
      refine ⟨k, y, hfold, by rwa [getElem?_append_left hlt], hy, fun j x hj hqx => ?_⟩
      by_cases hjl : j < l.length
      · rw [getElem?_append_left hjl] at hj
        exact hmax j x hj hqx
      · have hlt' := (List.getElem?_eq_some_iff.1 hj).1
        rw [length_append, length_singleton] at hlt'
        have hjeq : j = l.length := by omega
        subst hjeq
        rw [getElem?_concat_length] at hj
        cases hj
        exact absurd hqx ha

section
variable {P L : Type} {T : LockTable P L} {waitOrders : List (WaitOrder P L)}

theorem getElem?_inj {l : List P} (h : l.Nodup) {i j : Nat} {x : P} (hi : l[i]? = some x)
    (hj : l[j]? = some x) : i = j := by
  have hlt := (List.getElem?_eq_some_iff.1 hi).1
  exact (List.getElem?_inj hlt h).1 (hi.trans hj.symm)

variable [DecidableEq P]

/-- The process where the scan of the true queue stops is the last one of the group. -/
theorem lastGroupMember_spec {m : P} {lock : L} (hm : m ∈ T.waitProcs lock) :
    ∃ (k : Nat) (y : P), lastGroupMember T m (T.groups.leader m) lock = some y ∧
      (T.waitProcs lock)[k]? = some y ∧
      LastOf T.groups (T.waitProcs lock) (T.groups.leader m) k := by
  unfold lastGroupMember
  split
  · -- no group: the process stands for itself
    rename_i hnone
    have hself : T.groups.leader m = m := by rw [LockGroups.leader, hnone]; rfl
    obtain ⟨k, hk⟩ := mem_iff_getElem?.1 hm
    refine ⟨k, m, rfl, hk, by rw [groupAt, hk]; rfl, fun j hj => ?_⟩
    obtain ⟨q, hq, hlead⟩ := Option.map_eq_some_iff.1 hj
    rw [hself] at hlead
    have hqm : q = m := by
      unfold LockGroups.leader at hlead
      cases hql : T.groups.lockGroupLeader q with
      | none => rwa [hql] at hlead
      | some l =>
        rw [hql, Option.getD_some] at hlead
        subst hlead
        rw [T.groups.leader_self hql] at hnone
        cases hnone
    subst hqm
    exact Nat.le_of_eq (getElem?_inj (T.nodup_waitProcs lock) hq hk)
  · rename_i l hl
    have hlead : T.groups.leader m = l := by rw [LockGroups.leader, hl]; rfl
    have hiff : ∀ q, T.groups.leader q = l ↔ T.groups.lockGroupLeader q = some l := by
      intro q
      rw [LockGroups.leader]
      cases hq : T.groups.lockGroupLeader q with
      | none =>
        refine ⟨fun h => ?_, fun h => by cases h⟩
        cases (show q = l from h)
        rw [T.groups.leader_self hl] at hq
        cases hq
      | some l' => simp
    rw [hlead]
    obtain ⟨k, y, hfold, hk, hy, hmax⟩ :=
      foldl_last (fun proc => T.groups.lockGroupLeader proc = some l) ⟨m, hm, hl⟩
    refine ⟨k, y, hfold, hk, ?_, fun j hj => ?_⟩
    · rw [groupAt, hk, Option.map_some, (hiff y).2 hy]
    · obtain ⟨q, hq, hqlead⟩ := Option.map_eq_some_iff.1 hj
      exact hmax j q hq ((hiff q).1 hqlead)

variable [DecidableEq L]

/-- Of the other groups, the scan looks at the processes ahead of the group. -/
theorem mem_softProcs (horders : ∀ order ∈ waitOrders, Rearranges T.groups T.waitProcs order)
    {m p : P} {lock : L} (hm : m ∈ T.waitProcs lock) (hp : T.groups.leader p ≠ T.groups.leader m) :
    p ∈ softProcs T waitOrders m (T.groups.leader m) lock ↔
    AheadOfGroup T.groups (queueOf T waitOrders lock) p (T.groups.leader m) := by
  unfold softProcs queueOf
  cases hfind : waitOrders.find? (·.lock == lock) with
  | some order =>
    obtain ⟨hperm, hadj⟩ := horders order (mem_of_find?_eq_some hfind)
    have hlock : order.lock = lock := by simpa using find?_some hfind
    rw [hlock] at hperm
    dsimp only
    rw [mem_takeWhile_iff]
    constructor
    · rintro ⟨i, hi, hall⟩
      obtain ⟨j, hj⟩ := mem_iff_getElem?.1 (hperm.mem_iff.2 hm)
      refine ⟨i, j, ?_, hi, by rw [groupAt, hj]; rfl⟩
      by_contra hle
      exact of_decide_eq_true (hall j (by omega) m hj) rfl
    · rintro ⟨i, j, hij, hi, hj⟩
      refine ⟨i, hi, fun k hk y hy => decide_eq_true fun hlead => ?_⟩
      -- a member ahead of `p` and one behind it would enclose it
      have hgroup :=
        hadj k i j (T.groups.leader m) hk (Nat.le_of_lt hij)
          (by rw [groupAt, hy]; exact congrArg some hlead) hj
      rw [groupAt, hi] at hgroup
      exact hp (Option.some.inj hgroup)
  | none =>
    dsimp only
    obtain ⟨k, y, hlast, hk, hlastOf⟩ := lastGroupMember_spec hm
    rw [mem_takeWhile_iff, hlast]
    constructor
    · rintro ⟨i, hi, hall⟩
      refine ⟨i, k, ?_, hi, hlastOf.1⟩
      by_contra hle
      exact of_decide_eq_true (hall k (by omega) y hk) rfl
    · rintro ⟨i, j, hij, hi, hj⟩
      refine ⟨i, hi, fun x hx z hz => decide_eq_true fun hzy => ?_⟩
      cases hzy
      have h₁ := getElem?_inj (T.nodup_waitProcs lock) hz hk
      have h₂ := hlastOf.2 j hj
      omega

omit [DecidableEq P] in
theorem mem_queueOf (horders : ∀ order ∈ waitOrders, Rearranges T.groups T.waitProcs order)
    {e : WaitEdge P L} (h : BetweenGroups T e) : e.member ∈ queueOf T waitOrders e.lock := by
  have hmem := T.mem_waitProcs.2 ⟨h.1, h.2.1⟩
  unfold queueOf
  cases hfind : waitOrders.find? (·.lock == e.lock) with
  | none => exact hmem
  | some order =>
    have hlock : order.lock = e.lock := by simpa using find?_some hfind
    have hperm := (horders order (mem_of_find?_eq_some hfind)).1
    rw [hlock] at hperm
    exact hperm.mem_iff.2 hmem

omit [DecidableEq P] in
/-- With the groups side by side, ahead of the group is ahead of the member. -/
theorem softBlocks_iff_earlier {e : WaitEdge P L}
    (hadj : Adjacent T.groups (queueOf T waitOrders e.lock))
    (hmem : e.member ∈ queueOf T waitOrders e.lock)
    (hne : T.groups.leader e.blocker ≠ T.groups.leader e.member) :
    SoftBlocks T waitOrders e ↔ EarlierBlocks T waitOrders e := by
  refine and_congr_right fun _ => ⟨?_, ?_⟩
  · rintro ⟨i, j, hij, hi, hj⟩
    obtain ⟨k, hk⟩ := mem_iff_getElem?.1 hmem
    refine ⟨i, k, ?_, hi, hk⟩
    by_contra hle
    have hgroup := hadj k i j _ (by omega) (Nat.le_of_lt hij) (by rw [groupAt, hk]; rfl) hj
    rw [groupAt, hi] at hgroup
    exact hne (Option.some.inj hgroup)
  · rintro ⟨i, j, hij, hi, hj⟩
    exact ⟨i, j, hij, hi, by rw [groupAt, hj]; rfl⟩

end

/-! ## The search -/

section
variable {P L : Type} {T : LockTable P L} {waitOrders : List (WaitOrder P L)} {myProc : P}

/-- The soft edges of a path, the last one first. -/
def softEdgesOf (T : LockTable P L) (es : List (WaitEdge P L)) : List (Edge T.groups L) :=
  (es.filter (·.soft)).reverse.map fun e => edgeOf T.groups e.member e.blocker e.lock

variable {es : List (WaitEdge P L)}

theorem softEdgesOf_eq_nil_iff : softEdgesOf T es = [] ↔ ∀ e ∈ es, e.soft = false := by
  simp [softEdgesOf]

variable [DecidableEq L]

variable (waitOrders) in
/-- After a failure: what was visited since has been searched without coming back. -/
structure Extends (start : P) (s s' : Search T.groups L) : Prop where
  visited : s.visitedProcs <+: s'.visitedProcs
  softEdges : s'.softEdges = s.softEdges
  closed : ∀ x ∈ s'.visitedProcs, x ∉ s.visitedProcs →
    ∀ y, WaitsFor T (SoftBlocks T waitOrders) x y →
    y ∈ s'.visitedProcs ∧ y ≠ start

/-- The group was visited, and is not where the search began. -/
def DeadEnd (start y : P) (s : Search T.groups L) : Prop := y ∈ s.visitedProcs ∧ y ≠ start

variable {s : Search T.groups L}

theorem DeadEnd.mono {start y : P} {s' : Search T.groups L} (h : Extends waitOrders start s s')
    (hy : DeadEnd start y s) : DeadEnd start y s' :=
  ⟨h.visited.subset hy.1, hy.2⟩

theorem Extends.trans {start : P} {s₁ s₂ s₃ : Search T.groups L}
    (h₁ : Extends waitOrders start s₁ s₂) (h₂ : Extends waitOrders start s₂ s₃) :
    Extends waitOrders start s₁ s₃ := by
  refine ⟨h₁.visited.trans h₂.visited, h₂.softEdges.trans h₁.softEdges, fun x hx hnew y hy => ?_⟩
  by_cases hmid : x ∈ s₂.visitedProcs
  · obtain ⟨hmem, hne⟩ := h₁.closed x hmid hnew y hy
    exact ⟨h₂.visited.subset hmem, hne⟩
  · exact h₂.closed x hx hmid y hy

theorem Extends.refl (start : P) (s : Search T.groups L) : Extends waitOrders start s s :=
  ⟨prefix_rfl, rfl, fun _ hx hnew => absurd hx hnew⟩

/-- The entry of `deadlockDetails` for an edge. -/
def WaitEdge.info (T : LockTable P L) (e : WaitEdge P L) : DeadlockInfo P L :=
  ⟨e.lock, T.waitLockMode e.member, e.member⟩

variable (T) in
/-- No group is left twice, and none that was visited before. -/
def Fresh (visited : List P) (es : List (WaitEdge P L)) : Prop :=
  (es.map fun e => T.groups.leader e.member).Nodup ∧ ∀ e ∈ es, T.groups.leader e.member ∉ visited

variable (waitOrders) in
/-- What a success at `depth` records: a path from `v` back to the start. -/
structure Found (start v : P) (depth : Nat) (es : List (WaitEdge P L))
    (s s' : Search T.groups L) : Prop where
  path : IsPath T (SoftBlocks T waitOrders) v es start
  softEdges : s'.softEdges = s.softEdges ++ softEdgesOf T es
  count : s'.nDeadlockDetails = depth + es.length
  details : ∀ i e, es[i]? = some e → s'.deadlockDetails (depth + i) = some (e.info T)

omit [DecidableEq L] in
theorem Fresh.mono {visited visited' : List P} (h : Fresh T visited' es)
    (hsub : visited ⊆ visited') : Fresh T visited es :=
  ⟨h.1, fun e he hmem => h.2 e he (hsub hmem)⟩

variable (waitOrders) in
/-- The scan of the edges of `v`, itself already visited, found a way back. -/
def FoundAt (start v : P) (depth : Nat) (s s' : Search T.groups L) : Prop :=
  ∃ e es, Found waitOrders start v depth (e :: es) s s' ∧ Fresh T s.visitedProcs es

variable (waitOrders) in
theorem extension_foundAt (start v : P) (depth : Nat) :
    Extension (Extends (T := T) waitOrders start) (FoundAt waitOrders start v depth) where
  refl := Extends.refl start
  trans := Extends.trans
  finds := by
    rintro s₁ s₂ s₃ hext ⟨e, es, hfound, hfresh⟩
    refine ⟨e, es, ⟨hfound.path, ?_, hfound.count, hfound.details⟩, hfresh.mono hext.visited.subset⟩
    rw [hfound.softEdges, hext.softEdges]

variable (waitOrders) in
/-- A call for a group in the middle of the search found a way back. -/
def FoundFrom (start v : P) (depth : Nat) (s s' : Search T.groups L) : Prop :=
  ∃ es, Found waitOrders start v depth es s s' ∧ Fresh T s.visitedProcs es

/-- An edge in front of a path that was found. -/
theorem FoundFrom.cons {start : P} {depth : Nat} {e : WaitEdge P L} {s₁ s' : Search T.groups L}
    (hfound : FoundFrom waitOrders start (T.groups.leader e.blocker) (depth + 1) s s₁)
    (hedge : IsEdge T (SoftBlocks T waitOrders) e)
    (hsoft : s'.softEdges = s₁.softEdges ++
      if e.soft = true then [edgeOf T.groups e.member e.blocker e.lock] else [])
    (hcount : s'.nDeadlockDetails = s₁.nDeadlockDetails)
    (hdetails : s'.deadlockDetails = Function.update s₁.deadlockDetails depth (some (e.info T))) :
    FoundAt waitOrders start (T.groups.leader e.member) depth s s' := by
  obtain ⟨es, hes, hfresh⟩ := hfound
  refine ⟨e, es, ⟨⟨rfl, hedge, hes.path⟩, ?_, ?_, ?_⟩, hfresh⟩
  · rw [hsoft, hes.softEdges, append_assoc, softEdgesOf, softEdgesOf, filter_cons]
    cases e.soft <;> simp
  · rw [hcount, hes.count, length_cons]
    omega
  · intro i e' he'
    rw [hdetails]
    cases i with
    | zero =>
      cases he'
      rw [Nat.add_zero, Function.update_self]
    | succ i =>
      rw [Function.update_of_ne (by omega), ← Nat.add_assoc, Nat.add_right_comm]
      exact hes.details i e' he'

/-- A failed search leaves no way back to where it began. -/
theorem not_cyclic_of_fails {s' : Search T.groups L} (hvisited : s.visitedProcs = [start])
    (hext : Extends waitOrders start s s')
    (hdead : ∀ y, WaitsFor T (SoftBlocks T waitOrders) start y → DeadEnd start y s') :
    ¬ TransGen (WaitsFor T (SoftBlocks T waitOrders)) start start := by
  have hreach : ∀ y, TransGen (WaitsFor T (SoftBlocks T waitOrders)) start y →
      DeadEnd start y s' := by
    intro y hy
    induction hy with
    | single hstep => exact hdead _ hstep
    | tail _ hstep ih =>
      refine hext.closed _ ih.1 ?_ _ hstep
      rw [hvisited, mem_singleton]
      exact ih.2
  exact fun hcycle => (hreach start hcycle).2 rfl

variable [DecidableEq P]

/-- Between calls; `n` is the fuel left. -/
structure Ready [Fintype P] (start : P) (n : Nat) (s : Search T.groups L) : Prop where
  head : s.visitedProcs.head? = some start
  nodup : s.visitedProcs.Nodup
  fuel : Fintype.card P < n + s.visitedProcs.length

variable [Fintype P]

/-- What a recursive call does. -/
def RecurseSpec (waitOrders : List (WaitOrder P L)) (start : P) (n : Nat)
    (recurse : P → Nat → Search T.groups L → Bool × Search T.groups L) : Prop :=
  ∀ p depth, Searches (Ready start n) (Extends waitOrders start)
    (FoundFrom waitOrders start (T.groups.leader p) depth)
    (recurse p depth) (DeadEnd start (T.groups.leader p))

variable {recurse : P → Nat → Search T.groups L → Bool × Search T.groups L} {start : P} {n : Nat}

theorem checkHolder_searches (hrec : RecurseSpec waitOrders start n recurse) {m : P} {lock : L}
    (hlinked : T.linked m = true) (hlock : T.waitLock m = some lock) (depth : Nat)
    {proclock : Proclock P} (hmem : proclock ∈ T.procLocks lock) :
    Searches (Ready start n) (Extends waitOrders start)
      (FoundAt waitOrders start (T.groups.leader m) depth)
      (checkHolder T myProc recurse m (T.groups.leader m) lock depth proclock)
      (fun s => T.groups.leader proclock.myProc ≠ T.groups.leader m →
        hardConflict T m lock proclock = true →
        DeadEnd start (T.groups.leader proclock.myProc) s) := by
  unfold checkHolder
  constructor
  · intro s s' hready h
    split at h
    · split at h
      · cases h
      · rename_i s₁ hrun
        obtain ⟨hready₁, hext, hdead⟩ := (hrec _ _).fails hready hrun
        obtain ⟨-, rfl⟩ := Prod.mk.inj h
        split
        · exact ⟨⟨hready₁.head, hready₁.nodup, hready₁.fuel⟩,
            ⟨hext.visited, hext.softEdges, hext.closed⟩, fun _ _ => hdead⟩
        · exact ⟨hready₁, hext, fun _ _ => hdead⟩
    · rename_i hcond
      cases h
      exact ⟨hready, .refl start s, fun hne hconf => absurd ⟨hne, hconf⟩ hcond⟩
  · intro s s' hready h
    split at h
    · rename_i hcond
      split at h
      · rename_i s₁ hrun
        cases h
        have hfound := (hrec _ _).finds hready hrun
        exact FoundFrom.cons (e := ⟨m, lock, proclock.myProc, false⟩) hfound
          ⟨⟨hlinked, hlock, hcond.1⟩, proclock, hmem, rfl, hcond.2⟩ (by simp [fillDetails]) rfl rfl
      · cases h
    · cases h

theorem checkWaiter_searches (hrec : RecurseSpec waitOrders start n recurse)
    (horders : ∀ order ∈ waitOrders, Rearranges T.groups T.waitProcs order) {m : P} {lock : L}
    (hlinked : T.linked m = true) (hlock : T.waitLock m = some lock) (depth : Nat) {proc : P}
    (hmem : proc ∈ softProcs T waitOrders m (T.groups.leader m) lock) :
    Searches (Ready start n) (Extends waitOrders start)
      (FoundAt waitOrders start (T.groups.leader m) depth)
      (checkWaiter T recurse m (T.groups.leader m) lock depth proc)
      (fun s => T.groups.leader proc ≠ T.groups.leader m → softConflict T m lock proc = true →
        DeadEnd start (T.groups.leader proc) s) := by
  unfold checkWaiter
  constructor
  · intro s s' hready h
    split at h
    · split at h
      · cases h
      · rename_i s₁ hrun
        cases h
        obtain ⟨hready₁, hext, hdead⟩ := (hrec _ _).fails hready hrun
        exact ⟨hready₁, hext, fun _ _ => hdead⟩
    · rename_i hcond
      cases h
      exact ⟨hready, .refl start s, fun hne hconf => absurd ⟨hconf, hne⟩ hcond⟩
  · intro s s' hready h
    split at h
    · rename_i hcond
      split at h
      · rename_i s₁ hrun
        cases h
        have hfound := (hrec _ _).finds hready hrun
        have hahead := (mem_softProcs horders (T.mem_waitProcs.2 ⟨hlinked, hlock⟩) hcond.2).1 hmem
        exact FoundFrom.cons (e := ⟨m, lock, proc, true⟩) hfound
          ⟨⟨hlinked, hlock, hcond.2⟩, hcond.1, hahead⟩ (by simp [fillDetails]) rfl rfl
      · cases h
    · cases h

variable (myProc) in
/-- The two passes over the edges of one member. -/
theorem member_searches (hrec : RecurseSpec waitOrders start n recurse)
    (horders : ∀ order ∈ waitOrders, Rearranges T.groups T.waitProcs order) {m : P}
    (hlinked : T.linked m = true) (depth : Nat) :
    Searches (Ready start n) (Extends waitOrders start)
      (FoundAt waitOrders start (T.groups.leader m) depth)
      (findLockCycleRecurseMember T waitOrders myProc recurse m (T.groups.leader m) depth)
      (fun s => ∀ e, IsEdge T (SoftBlocks T waitOrders) e → e.member = m →
        DeadEnd start (T.groups.leader e.blocker) s) := by
  have hext := extension_foundAt (T := T) waitOrders start (T.groups.leader m) depth
  unfold findLockCycleRecurseMember
  split
  · rename_i hnone
    refine .fail hext fun s _ e hedge hem => ?_
    rw [← hem, hedge.1.2.1] at hnone
    cases hnone
  · rename_i lock hlock
    refine (Searches.orElse hext
      (.searchAny hext (fun proclock hmem => checkHolder_searches hrec hlinked hlock depth hmem)
        fun _ _ _ hR hQ hne hconf => (hQ hne hconf).mono hR)
      (.searchAny hext (fun proc hmem => checkWaiter_searches hrec horders hlinked hlock depth hmem)
        fun _ _ _ hR hQ hne hconf => (hQ hne hconf).mono hR)
      fun hR hQ proclock hmem hne hconf => (hQ proclock hmem hne hconf).mono hR).imp ?_
    rintro s ⟨hhard, hsoft⟩ e ⟨⟨-, helock, hne⟩, hkind⟩ rfl
    cases hlock.symm.trans helock
    split at hkind
    · exact hsoft e.blocker
        ((mem_softProcs horders (T.mem_waitProcs.2 ⟨hlinked, hlock⟩) hne).2 hkind.2) hne hkind.1
    · obtain ⟨proclock, hmem, hproc, hconf⟩ := hkind
      rw [← hproc] at hne ⊢
      exact hhard proclock hmem hne hconf

variable (myProc) in
/-- All the edges of a group. -/
theorem scanGroup_searches (hrec : RecurseSpec waitOrders start n recurse)
    (horders : ∀ order ∈ waitOrders, Rearranges T.groups T.waitProcs order) {v : P}
    (hv : T.groups.leader v = v) (depth : Nat) :
    Searches (Ready start n) (Extends waitOrders start) (FoundAt waitOrders start v depth)
      (scanGroup T waitOrders myProc recurse v depth)
      (fun s => ∀ y, WaitsFor T (SoftBlocks T waitOrders) v y → DeadEnd start y s) := by
  have hext := extension_foundAt (T := T) waitOrders start v depth
  have hmembers : ∀ m, m ∈ v :: (T.lockGroupMembers v).filter (· ≠ v) ↔ T.groups.leader m = v := by
    intro m
    rw [mem_cons, mem_filter, T.mem_lockGroupMembers, decide_eq_true_eq, LockGroups.leader]
    constructor
    · rintro (rfl | ⟨hm, -⟩)
      · exact hv
      · rw [hm]
        rfl
    · intro hm
      by_cases hmv : m = v
      · exact .inl hmv
      · cases hl : T.groups.lockGroupLeader m with
        | none =>
          rw [hl] at hm
          exact absurd hm hmv
        | some l =>
          rw [hl] at hm
          exact .inr ⟨congrArg some hm, hmv⟩
  refine (Searches.searchAny hext (Q := fun m s => ∀ e, IsEdge T (SoftBlocks T waitOrders) e →
    e.member = m →
    DeadEnd start (T.groups.leader e.blocker) s) (fun m hm => ?_) ?_).imp ?_
  · have hlead := (hmembers m).1 hm
    split
    · rename_i hwaits
      have hmember := member_searches myProc hrec horders hwaits.1 depth
      rwa [hlead] at hmember
    · rename_i hidle
      refine .fail hext fun s _ e hedge hem => ?_
      subst hem
      exact absurd ⟨hedge.1.1, by rw [hedge.1.2.1]; exact Option.some_ne_none _⟩ hidle
  · intro m s s' hR hQ e hedge hem
    exact (hQ e hedge hem).mono hR
  · rintro s hQ y ⟨e, hedge, hev, rfl⟩
    exact hQ e.member ((hmembers _).2 hev) e hedge rfl

omit [DecidableEq P] [DecidableEq L] in
/-- Marking a group as visited. -/
theorem Ready.visit (h : Ready start (n + 1) s) {v : P} (hv : v ∉ s.visitedProcs) :
    Ready start n { s with visitedProcs := s.visitedProcs ++ [v] } := by
  refine ⟨?_, ?_, ?_⟩
  · rw [head?_append, h.head]
    rfl
  · rw [← concat_eq_append]
    exact h.nodup.concat hv
  · have hfuel := h.fuel
    rw [length_append, length_singleton]
    omega

omit [DecidableEq L] in
theorem deadEnd_of_idxOf (h : Ready start n s) {v : P} {i : Nat}
    (hidx : s.visitedProcs.idxOf? v = some i) (hi : i ≠ 0) : DeadEnd start v s := by
  obtain ⟨hlt, hget, hfirst⟩ := idxOf?_eq_some_iff.1 hidx
  refine ⟨hget ▸ getElem_mem hlt, ?_⟩
  rintro rfl
  have hhead := h.head
  rw [head?_eq_getElem?, getElem?_eq_getElem (by omega), Option.some.injEq] at hhead
  exact hfirst 0 (by omega) hhead

variable (myProc) in
theorem recurse_searches (horders : ∀ order ∈ waitOrders, Rearranges T.groups T.waitProcs order)
    (start : P) (n : Nat) :
    RecurseSpec waitOrders start n (findLockCycleRecurse T waitOrders myProc n) := by
  induction n with
  | zero =>
    -- the fuel cannot run out: no group is visited twice
    have hnot : ∀ s : Search T.groups L, ¬ Ready start 0 s := by
      intro s hready
      have h₁ := hready.fuel
      have h₂ := hready.nodup.length_le_card
      omega
    exact fun p depth =>
      ⟨fun hready _ => absurd hready (hnot _), fun hready _ => absurd hready (hnot _)⟩
  | succ n ih =>
    intro p depth
    have hscan := scanGroup_searches myProc ih horders (T.groups.leader_leader p) depth
    constructor
    · intro s s' hready h
      rw [findLockCycleRecurse] at h
      split at h
      · cases h
      · -- seen before, but not the start
        rename_i i hi hidx
        cases h
        exact ⟨hready, .refl start s, deadEnd_of_idxOf hready hidx hi⟩
      · rename_i hidx
        have hnew := idxOf?_eq_none_iff.1 hidx
        obtain ⟨hready', hext, hdead⟩ := hscan.fails (hready.visit hnew) h
        have hmem : T.groups.leader p ∈ s'.visitedProcs := hext.visited.subset (by simp)
        have hstart := mem_of_mem_head? hready.head
        refine ⟨⟨hready'.head, hready'.nodup, ?_⟩,
          ⟨?_, hext.softEdges, fun x hx hxs y hy => ?_⟩, hmem, ?_⟩
        · have hfuel := hready'.fuel
          omega
        · exact (prefix_append _ _).trans hext.visited
        · by_cases hxp : x = T.groups.leader p
          · exact hdead y (hxp ▸ hy)
          · exact hext.closed x hx (by simpa using ⟨hxs, hxp⟩) y hy
        · rintro hcontra
          exact hnew (hcontra ▸ hstart)
    · intro s s' hready h
      rw [findLockCycleRecurse] at h
      split at h
      · -- back at the start
        rename_i hidx
        cases h
        obtain ⟨hlt, hget, -⟩ := idxOf?_eq_some_iff.1 hidx
        refine ⟨[], ⟨?_, by simp [softEdgesOf], rfl, fun i e he => by cases he⟩, nodup_nil,
          fun e he => by cases he⟩
        have hhead := hready.head
        rw [head?_eq_getElem?, getElem?_eq_getElem hlt, hget] at hhead
        exact Option.some.inj hhead
      · cases h
      · rename_i hidx
        have hnew := idxOf?_eq_none_iff.1 hidx
        obtain ⟨e, es, hfound, hnodup, hfresh⟩ := hscan.finds (hready.visit hnew) h
        have hlead := hfound.path.1
        refine ⟨e :: es, ⟨hfound.path, hfound.softEdges, hfound.count, hfound.details⟩, ?_,
          fun e' he' => ?_⟩
        · rw [map_cons, nodup_cons, hlead]
          refine ⟨fun hmem => ?_, hnodup⟩
          obtain ⟨e', he', heq⟩ := mem_map.1 hmem
          exact hfresh e' he' (by simp [heq])
        · obtain rfl | he' := mem_cons.1 he'
          · rwa [hlead]
          · exact fun hmem => hfresh e' he' (mem_append_left _ hmem)

/-! ## The answer -/

omit [DecidableEq P] [DecidableEq L] [Fintype P] in
theorem IsPath.transGen {softBlocks : WaitEdge P L → Prop} {a b : P} {e : WaitEdge P L}
    (h : IsPath T softBlocks a (e :: es) b) : TransGen (WaitsFor T softBlocks) a b := by
  induction es generalizing a e with
  | nil =>
    obtain ⟨ha, hedge, rfl⟩ := h
    exact .single ⟨e, hedge, ha, rfl⟩
  | cons e' es ih =>
    obtain ⟨ha, hedge, hrest⟩ := h
    exact .head ⟨e, hedge, ha, rfl⟩ (ih hrest)

variable (myProc) in
/-- The search is exact for the graph whose soft edges go to the waiters ahead of the group: it
answers true just when the group is on a cycle, and the soft edges it returns are those of one
cycle through the group, which visits no group twice. With the groups of a queue side by side,
these soft edges go to the waiters ahead of the member. -/
theorem findLockCycle_exact (horders : ∀ order ∈ waitOrders, Rearranges T.groups T.waitProcs order)
    (blockingAutovacuumProc : Option P) (p : P) :
    let answer := findLockCycle T waitOrders myProc blockingAutovacuumProc p
    (answer.1 = true ↔
      TransGen (WaitsFor T (SoftBlocks T waitOrders)) (T.groups.leader p) (T.groups.leader p)) ∧
    (answer.1 = true → ∃ es, es ≠ [] ∧
      IsPath T (SoftBlocks T waitOrders) (T.groups.leader p) es (T.groups.leader p) ∧
      (es.map fun e => T.groups.leader e.member).Nodup ∧
      answer.2.softEdges = softEdgesOf T es ∧ (answer.2.softEdges = [] → ∀ e ∈ es, e.soft = false) ∧
      answer.2.nDeadlockDetails = es.length ∧
      ∀ i e, es[i]? = some e → answer.2.deadlockDetails i = some (e.info T)) ∧
    (∀ e, Adjacent T.groups (queueOf T waitOrders e.lock) →
      (IsEdge T (SoftBlocks T waitOrders) e ↔ IsEdge T (EarlierBlocks T waitOrders) e)) := by
  have hscan :=
    scanGroup_searches myProc (recurse_searches myProc horders (T.groups.leader p) (Fintype.card P))
    horders (T.groups.leader_leader p) 0
  have hready : Ready (T.groups.leader p) (Fintype.card P)
      (⟨[T.groups.leader p], [], 0, fun _ => none, blockingAutovacuumProc⟩ : Search T.groups L) :=
    ⟨rfl, nodup_singleton _, Nat.lt_succ_self _⟩
  intro answer
  have hanswer : scanGroup T waitOrders myProc
      (findLockCycleRecurse T waitOrders myProc (Fintype.card P)) (T.groups.leader p) 0
      ⟨[T.groups.leader p], [], 0, fun _ => none, blockingAutovacuumProc⟩ = answer := rfl
  clear_value answer
  obtain ⟨found, s'⟩ := answer
  refine ⟨?_, ?_, fun e hadj => ?_⟩
  · cases found with
    | false =>
      obtain ⟨-, hext, hdead⟩ := hscan.fails hready hanswer
      exact iff_of_false (by simp) (not_cyclic_of_fails rfl hext hdead)
    | true =>
      obtain ⟨e, es, hfound, -⟩ := hscan.finds hready hanswer
      exact iff_of_true rfl hfound.path.transGen
  · rintro rfl
    obtain ⟨e, es, hfound, hnodup, hfresh⟩ := hscan.finds hready hanswer
    have hsoft := hfound.softEdges
    refine ⟨e :: es, cons_ne_nil _ _, hfound.path, ?_, hsoft, fun hnil => ?_, ?_,
      fun i e' he' => ?_⟩
    · rw [map_cons, nodup_cons, hfound.path.1]
      refine ⟨fun hmem => ?_, hnodup⟩
      obtain ⟨e', he', heq⟩ := mem_map.1 hmem
      exact hfresh e' he' (mem_singleton.2 heq)
    · exact softEdgesOf_eq_nil_iff.1 (hsoft.symm.trans hnil)
    · exact hfound.count.trans (Nat.zero_add _)
    · have hdetail := hfound.details i e' he'
      rwa [Nat.zero_add] at hdetail
  · refine and_congr_right fun hbetween => ?_
    cases e.soft with
    | false => exact Iff.rfl
    | true => exact softBlocks_iff_earlier hadj (mem_queueOf horders hbetween) hbetween.2.2

end

section Example

/-- Processes 0 and 2 form a group, 1 and 3 stand alone. Process 3 holds both modes of the only
lock, the others wait for it in the order 0, 1, 2: process 0 in the first mode, 1 and 2 in the
second. The two modes conflict with each other. -/
def threeWaiters : LockTable (Fin 4) Unit where
  groups := ⟨fun p => if p = 0 ∨ p = 2 then some 0 else none, by decide⟩
  lockGroupMembers l := if l = 0 then [0, 2] else []
  mem_lockGroupMembers := by decide
  linked p := p ≠ 3
  waitLock p := if p = 3 then none else some ()
  waitLockMode p := if p = 0 then 1 else 2
  lockMethod _ := ⟨2, fun lm => if lm = 1 then 4 else 2⟩
  procLocks _ := [⟨3, 6⟩]
  waitProcs _ := [0, 1, 2]
  mem_waitProcs := by decide
  nodup_waitProcs := by decide
  isAutovacuum _ := false

/-- No member of the group waits for a waiter ahead of it. -/
theorem threeWaiters_hard {y : Fin 4}
    (h : WaitsFor threeWaiters (EarlierBlocks threeWaiters []) 0 y) : y = 3 := by
  obtain ⟨⟨m, lock, b, soft⟩, ⟨⟨-, -, hne⟩, hkind⟩, hm, rfl⟩ := h
  cases soft with
  | false =>
    obtain ⟨proclock, hmem, rfl, -⟩ := hkind
    cases mem_singleton.1 hmem
    rfl
  | true =>
    obtain ⟨hconf, i, j, hij, hi, hj⟩ := hkind
    have hlt : j < 3 := (List.getElem?_eq_some_iff.1 hj).1
    have hcases : (i = 0 ∧ j = 1) ∨ (i = 0 ∧ j = 2) ∨ (i = 1 ∧ j = 2) := by omega
    obtain ⟨rfl, rfl⟩ | ⟨rfl, rfl⟩ | ⟨rfl, rfl⟩ := hcases
    · cases hj
      change threeWaiters.groups.leader 1 = 0 at hm
      exact absurd hm (by decide)
    · cases hi
      cases hj
      exact absurd rfl hne
    · cases hi
      cases hj
      change softConflict threeWaiters 2 () 1 = true at hconf
      exact absurd hconf (by decide)

/-- The group is said to wait for process 1, which is ahead of 2 and conflicts with 0: neither of
them waits for it, and no cycle goes through the group. -/
theorem group_of_three_waiters :
    (findLockCycle threeWaiters [] 0 none 0).1 = true ∧
      (findLockCycle threeWaiters [] 0 none 0).2.softEdges.map (fun e => (e.waiter, e.blocker)) =
        [(1, 0), (0, 1)] ∧
      ¬ TransGen (WaitsFor threeWaiters (EarlierBlocks threeWaiters []))
        (threeWaiters.groups.leader 0)
        (threeWaiters.groups.leader 0) := by
  refine ⟨by decide +kernel, by decide +kernel, fun hcycle => ?_⟩
  obtain ⟨y, hstep, hrest⟩ := TransGen.head'_iff.1 hcycle
  cases threeWaiters_hard hstep
  obtain heq | ⟨z, ⟨e, hedge, he, -⟩, -⟩ := ReflTransGen.cases_head hrest
  · exact absurd heq (by decide)
  · obtain ⟨⟨hlinked, -⟩, -⟩ := hedge
    have hthree : ∀ q, threeWaiters.groups.leader q = 3 → threeWaiters.linked q = false := by decide
    rw [hthree _ he] at hlinked
    cases hlinked

/-- With the group at the head of the queue it is on no cycle. -/
theorem findLockCycle_exact_rearranged :
    (∀ order ∈ [(⟨(), [0, 2, 1]⟩ : WaitOrder (Fin 4) Unit)],
      Rearranges threeWaiters.groups threeWaiters.waitProcs order) ∧
      ¬ TransGen (WaitsFor threeWaiters (SoftBlocks threeWaiters [⟨(), [0, 2, 1]⟩]))
        (threeWaiters.groups.leader 0)
        (threeWaiters.groups.leader 0) := by
  have horders : ∀ order ∈ [(⟨(), [0, 2, 1]⟩ : WaitOrder (Fin 4) Unit)],
      Rearranges threeWaiters.groups threeWaiters.waitProcs order := by
    intro order horder
    cases mem_singleton.1 horder
    have hadj : ∀ i j k : Fin 3, i ≤ j → j ≤ k →
        groupAt threeWaiters.groups [0, 2, 1] i = groupAt threeWaiters.groups [0, 2, 1] k →
        groupAt threeWaiters.groups [0, 2, 1] j = groupAt threeWaiters.groups [0, 2, 1] k := by
      decide
    refine ⟨by decide, fun i j k g hij hjk hi hk => ?_⟩
    have hlt : k < 3 := lt_length_of_groupAt hk
    exact (hadj ⟨i, by omega⟩ ⟨j, by omega⟩ ⟨k, hlt⟩ hij hjk (hi.trans hk.symm)).trans hk
  refine ⟨horders, fun hcycle => ?_⟩
  have htrue := (findLockCycle_exact 0 horders none 0).1.2 hcycle
  exact absurd htrue (by decide +kernel)

end Example

end GreenPipeline.L5.LockCycle
