import Mathlib.Algebra.Order.Ring.Nat
import Mathlib.Data.List.Perm.Subperm
import GreenPipeline.Core.Ranking

/-!
# Synchronous replication: which positions release a waiting backend

A backend that commits waits until the standbys named by
`synchronous_standby_names` have written, flushed or applied its commit record.
Each WAL sender computes, from the positions all of them were told, how far the
synchronous standbys have got, and releases the backends up to there. With
`FIRST n` the position is the oldest of `n` standbys chosen by priority, with
`ANY n` the `n`-th latest of all candidates.

Positions are 64-bit WAL locations; 0 is `InvalidXLogRecPtr`, "not reported yet".
The shared structures are read under `SyncRepLock`, so the model takes one state
of the WAL senders for the whole of a call. Log messages are left out.

Sources: `src/backend/replication/syncrep.c`, `src/include/replication/syncrep.h`,
`src/include/replication/walsender_private.h`.

Results:

* `syncRepGetSyncStandbysPriority_considered`: the standbys selected by priority are candidates.
* `syncRepGetSyncStandbysPriority_first`: they are those that come first by priority and index,
  and the loop over the priorities returns before its final assertion.
* `pos_getOldest`: the oldest positions are folds in which 0 counts as "not set".
* `syncRep_confirmed_iff`: the stored positions are confirmed by the required
  standbys, and no backend is released before, exactly if no standby but a last one
  reports 0 (`FIRST`), or the count survives its cut to eight bits (`ANY`).
* `apply_not_confirmed`: two standbys for which it is not.
-/
namespace GreenPipeline.L5.SyncRep

open GreenPipeline.Core.Ranking List Nat

/-! ## Shared state -/

/-- mirrors walsender_private.h:22-29 -/
inductive WalSndState where
  | startup | backup | catchup | streaming | stopping
  deriving DecidableEq

/-- The order of the C enumeration. -/
def WalSndState.rank : WalSndState → Nat
  | .startup => 0
  | .backup => 1
  | .catchup => 2
  | .streaming => 3
  | .stopping => 4

/-- mirrors walsender_private.h:40-78 -/
structure WalSnd where
  pid : Nat
  state : WalSndState
  write : Nat
  flush : Nat
  apply : Nat
  syncStandbyPriority : Nat
  deriving DecidableEq

/-- mirrors syncrep.h:23-28 -/
inductive WaitMode where
  | write | flush | apply
  deriving DecidableEq

def WalSnd.pos (walsnd : WalSnd) : WaitMode → Nat
  | .write => walsnd.write
  | .flush => walsnd.flush
  | .apply => walsnd.apply

/-- mirrors syncrep.h:36-37 -/
inductive SyncRepMethod where
  | priority | quorum
  deriving DecidableEq

/-- `check_synchronous_standby_names` refuses a count that is not positive.
mirrors syncrep.h:46-55 -/
structure SyncRepConfigData where
  numSync : Nat
  syncrepMethod : SyncRepMethod
  nmembers : Nat
  numSync_pos : 0 < numSync

/-- The three output arguments `writePtr`, `flushPtr` and `applyPtr`. -/
structure SyncRecPtr where
  write : Nat
  flush : Nat
  apply : Nat
  deriving DecidableEq

def SyncRecPtr.pos (ptr : SyncRecPtr) : WaitMode → Nat
  | .write => ptr.write
  | .flush => ptr.flush
  | .apply => ptr.apply

/-! ## Selecting the standbys -/

/-- Active, streaming, named in the configuration, and with a flush position.
mirrors syncrep.c:729-744, 807-823 -/
def considered (walsnd : WalSnd) : Bool :=
  walsnd.pid ≠ 0 && walsnd.state == .streaming && walsnd.syncStandbyPriority ≠ 0 && walsnd.flush ≠ 0

/-- The candidates and whether `MyWalSnd`, at index `my`, is one.
mirrors syncrep.c:705-755 -/
def syncRepGetSyncStandbysQuorum (walsnds : List WalSnd) (my : Nat) : List Nat × Bool :=
  walsnds.zipIdx.foldl
    (fun r x => if considered x.1 then (r.1 ++ [x.2], r.2 || x.2 == my) else r) ([], false)

/-- The local variables of the two scans. -/
structure PriorityScan where
  result : List Nat
  pending : List Nat
  nextHighestPriority : Nat
  amSync : Bool
  amInPending : Bool

/-- The scan for priority 1; `.error` is its early return.
mirrors syncrep.c:793-857 -/
def firstScan (numSync my : Nat) :
    List (WalSnd × Nat) → PriorityScan → Except (List Nat × Bool) PriorityScan
  | [], s => .ok s
  | (walsnd, i) :: rest, s =>
    if considered walsnd = false then firstScan numSync my rest s
    else if walsnd.syncStandbyPriority = 1 then
      let result := s.result ++ [i]
      let amSync := s.amSync || i == my
      if result.length = numSync then .error (result, amSync)
      else firstScan numSync my rest { s with result := result, amSync := amSync }
    else
      firstScan numSync my rest
        { s with
          pending := s.pending ++ [i]
          amInPending := s.amInPending || i == my
          nextHighestPriority :=
            if walsnd.syncStandbyPriority < s.nextHighestPriority then walsnd.syncStandbyPriority
            else s.nextHighestPriority }

/-- One scan of the pending list for `priority`; `.error` is the function's return.
mirrors syncrep.c:894-930 -/
def pendingScan (numSync my priority : Nat) (prio : Nat → Nat) :
    List Nat → PriorityScan → Except (List Nat × Bool) PriorityScan
  | [], s => .ok s
  | i :: rest, s =>
    if prio i = priority then
      let result := s.result ++ [i]
      let amSync := s.amSync || i == my
      if result.length = numSync then .error (result, amSync)
      else pendingScan numSync my priority prio rest { s with result := result, amSync := amSync }
    else
      pendingScan numSync my priority prio rest
        { s with
          pending := s.pending ++ [i]
          nextHighestPriority :=
            if prio i < s.nextHighestPriority then prio i else s.nextHighestPriority }

/-- The loop over the priorities; `.error` is the function's return from inside a scan, `.ok`
what is left for the return behind the assertion.
mirrors syncrep.c:886-938 -/
def pendingLoop (config : SyncRepConfigData) (my : Nat) (prio : Nat → Nat) :
    (fuel priority : Nat) → (result pending : List Nat) → (amSync : Bool) →
    Except (List Nat × Bool) (List Nat × Bool)
  | 0, _, result, _, amSync => .ok (result, amSync)
  | fuel + 1, priority, result, pending, amSync =>
    if priority ≤ config.nmembers then
      match pendingScan config.numSync my priority prio pending
          ⟨result, [], config.nmembers + 1, amSync, false⟩ with
      | .error r => .error r
      | .ok s => pendingLoop config my prio fuel s.nextHighestPriority s.result s.pending s.amSync
    else .ok (result, amSync)

def priorityOf (walsnds : List WalSnd) (i : Nat) : Nat :=
  (walsnds[i]?.map (·.syncStandbyPriority)).getD 0

/-- The function up to its last assertion.
mirrors syncrep.c:770-938 -/
def priorityScans (config : SyncRepConfigData) (walsnds : List WalSnd) (my : Nat) :
    Except (List Nat × Bool) (List Nat × Bool) :=
  match firstScan config.numSync my walsnds.zipIdx ⟨[], [], config.nmembers + 1, false, false⟩ with
  | .error r => .error r
  | .ok s =>
    if s.result.length + s.pending.length ≤ config.numSync then
      .error (s.result ++ s.pending, s.amSync || s.amInPending)
    else pendingLoop config my (priorityOf walsnds) (s.pending.length + 1) s.nextHighestPriority
      s.result s.pending s.amSync

/-- Both ways to leave return the list. -/
def returned : Except (List Nat × Bool) (List Nat × Bool) → List Nat × Bool
  | .error r => r
  | .ok r => r

/-- mirrors syncrep.c:770-943 -/
def syncRepGetSyncStandbysPriority (config : SyncRepConfigData) (walsnds : List WalSnd) (my : Nat) :
    List Nat × Bool :=
  returned (priorityScans config walsnds my)

/-- mirrors syncrep.c:678-691 -/
def syncRepGetSyncStandbys (config : SyncRepConfigData) (walsnds : List WalSnd) (my : Nat) :
    List Nat × Bool :=
  match config.syncrepMethod with
  | .priority => syncRepGetSyncStandbysPriority config walsnds my
  | .quorum => syncRepGetSyncStandbysQuorum walsnds my

/-- The WAL senders at the selected indexes. -/
def standbysAt (walsnds : List WalSnd) (indexes : List Nat) : List WalSnd :=
  indexes.filterMap (walsnds[·]?)

/-! ## Positions -/

/-- mirrors syncrep.c:577-609 -/
def syncRepGetOldestSyncRecPtr (standbys : List WalSnd) : SyncRecPtr :=
  standbys.foldl (fun ptr walsnd =>
    ⟨oldestStep ptr.write walsnd.write, oldestStep ptr.flush walsnd.flush,
      oldestStep ptr.apply walsnd.apply⟩) ⟨0, 0, 0⟩

/-- None if `nth - 1` is outside the arrays.
mirrors syncrep.c:615-660 -/
def syncRepGetNthLatestSyncRecPtr (standbys : List WalSnd) (nth : Nat) : Option SyncRecPtr :=
  match nthLargest (standbys.map (·.write)) nth, nthLargest (standbys.map (·.flush)) nth,
    nthLargest (standbys.map (·.apply)) nth with
  | some write, some flush, some apply => some ⟨write, flush, apply⟩
  | _, _, _ => none

inductive SyncRecPtrResult where
  | notSynced
  | stored (ptr : SyncRecPtr)
  | outOfBounds
  deriving DecidableEq

/-- The parameter `nth` of `SyncRepGetNthLatestSyncRecPtr` is a `uint8`.
mirrors syncrep.c:517-571 -/
def syncRepGetSyncRecPtr (config : Option SyncRepConfigData) (walsnds : List WalSnd) (my : Nat) :
    SyncRecPtrResult :=
  match config with
  | none => .notSynced
  | some config =>
    let r := syncRepGetSyncStandbys config walsnds my
    if r.2 = false ∨ r.1.length < config.numSync then .notSynced
    else
      match config.syncrepMethod with
      | .priority => .stored (syncRepGetOldestSyncRecPtr (standbysAt walsnds r.1))
      | .quorum =>
        match syncRepGetNthLatestSyncRecPtr (standbysAt walsnds r.1) (config.numSync % 256) with
        | some ptr => .stored ptr
        | none => .outOfBounds

/-! ## Releasing backends -/

/-- A backend in a wait queue. -/
structure Waiter where
  pid : Nat
  waitLSN : Nat
  deriving DecidableEq

/-- mirrors walsender_private.h:83-104 -/
structure WalSndCtl where
  syncRepQueue : WaitMode → List Waiter
  lsn : WaitMode → Nat

/-- The backends woken, and the queue left.
mirrors syncrep.c:994-1050 -/
def syncRepWakeQueue (all : Bool) (lsn : Nat) : List Waiter → List Waiter × List Waiter
  | [] => ([], [])
  | proc :: queue =>
    if all = false ∧ lsn < proc.waitLSN then ([], proc :: queue)
    else (proc :: (syncRepWakeQueue all lsn queue).1, (syncRepWakeQueue all lsn queue).2)

/-- The location of one mode is set and its queue walked, if that location is behind.
mirrors syncrep.c:481-495 -/
def releaseMode (ctl : WalSndCtl) (mode : WaitMode) (ptr : Nat) : List Waiter × List Waiter × Nat :=
  if ctl.lsn mode < ptr then
    ((syncRepWakeQueue false ptr (ctl.syncRepQueue mode)).1,
      (syncRepWakeQueue false ptr (ctl.syncRepQueue mode)).2, ptr)
  else ([], ctl.syncRepQueue mode, ctl.lsn mode)

inductive ReleaseResult where
  | released (woken : WaitMode → List Waiter) (ctl : WalSndCtl)
  | outOfBounds

/-- mirrors syncrep.c:411-505 -/
def syncRepReleaseWaiters (config : Option SyncRepConfigData) (walsnds : List WalSnd) (my : Nat)
    (ctl : WalSndCtl) :
    ReleaseResult :=
  match walsnds[my]? with
  | none => .released (fun _ => []) ctl
  | some myWalSnd =>
    if myWalSnd.syncStandbyPriority = 0 ∨ myWalSnd.state.rank < WalSndState.streaming.rank ∨
      myWalSnd.flush = 0 then
      .released (fun _ => []) ctl
    else
      match syncRepGetSyncRecPtr config walsnds my with
      | .notSynced => .released (fun _ => []) ctl
      | .outOfBounds => .outOfBounds
      | .stored ptr =>
        .released (fun mode => (releaseMode ctl mode (ptr.pos mode)).1)
          ⟨fun mode => (releaseMode ctl mode (ptr.pos mode)).2.1,
            fun mode => (releaseMode ctl mode (ptr.pos mode)).2.2⟩

/-! ## What the required standbys have confirmed -/

section
variable (config : SyncRepConfigData) (walsnds : List WalSnd) (my : Nat)

/-- The standbys `SyncRepGetSyncRecPtr` looks at. -/
def selected : List WalSnd := standbysAt walsnds (syncRepGetSyncStandbys config walsnds my).1

/-- `SyncRepGetSyncRecPtr` returns true. -/
def Synced : Prop :=
  (syncRepGetSyncStandbys config walsnds my).2 = true ∧
    config.numSync ≤ (syncRepGetSyncStandbys config walsnds my).1.length

/-- The required standbys have reached `lsn`: all selected ones, or `numSync` of the candidates. -/
def Confirmed (mode : WaitMode) (lsn : Nat) : Prop :=
  match config.syncrepMethod with
  | .priority => ∀ walsnd ∈ selected config walsnds my, lsn ≤ walsnd.pos mode
  | .quorum =>
    config.numSync ≤ walsnds.countP fun walsnd =>
      considered walsnd && decide (lsn ≤ walsnd.pos mode)

/-- Every stored position is confirmed. -/
def StoredConfirmed : Prop :=
  ∃ ptr, syncRepGetSyncRecPtr (some config) walsnds my = .stored ptr ∧
    ∀ mode, Confirmed config walsnds my mode (ptr.pos mode)

/-- Whatever the queues are, a released backend's location is confirmed. -/
def ReleasedConfirmed : Prop :=
  ∀ ctl woken ctl', syncRepReleaseWaiters (some config) walsnds my ctl = .released woken ctl' →
    ∀ mode, ∀ proc ∈ woken mode, Confirmed config walsnds my mode proc.waitLSN

/-- With `FIRST` a position that was not reported stands last, if at all; with `ANY` the
count keeps its meaning in eight bits. -/
def PositionsUsable : Prop :=
  match config.syncrepMethod with
  | .priority => ∀ mode, mode ≠ .flush →
      0 ∈ (selected config walsnds my).map (·.pos mode) →
        ((selected config walsnds my).map (·.pos mode)).getLast? = some 0
  | .quorum => config.numSync % 256 ≠ 0 ∧ ∀ mode,
      nthLargest ((selected config walsnds my).map (·.pos mode)) (config.numSync % 256) =
        nthLargest ((selected config walsnds my).map (·.pos mode)) config.numSync

end

theorem Confirmed.mono {config : SyncRepConfigData} {walsnds : List WalSnd} {my : Nat}
    {mode : WaitMode} {p q : Nat} (h : Confirmed config walsnds my mode q) (hpq : p ≤ q) :
    Confirmed config walsnds my mode p := by
  unfold Confirmed at h ⊢
  split at h
  · exact fun walsnd hmem => le_trans hpq (h walsnd hmem)
  · refine le_trans h (countP_mono_left fun walsnd _ hle => ?_)
    simp only [Bool.and_eq_true, decide_eq_true_eq] at hle ⊢
    exact ⟨hle.1, le_trans hpq hle.2⟩

theorem waitLSN_le_of_woken {lsn : Nat} {queue : List Waiter} :
    ∀ proc ∈ (syncRepWakeQueue false lsn queue).1, proc.waitLSN ≤ lsn := by
  induction queue with
  | nil => exact fun proc hproc => absurd hproc not_mem_nil
  | cons first queue ih =>
    rw [syncRepWakeQueue]
    split
    · exact fun proc hproc => absurd hproc not_mem_nil
    · rename_i hle
      intro proc hproc
      obtain rfl | hproc := mem_cons.1 hproc
      · simpa using hle
      · exact ih proc hproc

/-- A backend is released only up to the stored position. -/
theorem waitLSN_le_of_released {config : Option SyncRepConfigData} {walsnds : List WalSnd}
    {my : Nat} {ctl ctl' : WalSndCtl} {woken : WaitMode → List Waiter}
    (h : syncRepReleaseWaiters config walsnds my ctl = .released woken ctl') {mode : WaitMode}
    {proc : Waiter} (hproc : proc ∈ woken mode) :
    ∃ ptr, syncRepGetSyncRecPtr config walsnds my = .stored ptr ∧ proc.waitLSN ≤ ptr.pos mode := by
  unfold syncRepReleaseWaiters at h
  split at h
  · obtain ⟨rfl, -⟩ := ReleaseResult.released.inj h
    exact absurd hproc not_mem_nil
  split at h
  · obtain ⟨rfl, -⟩ := ReleaseResult.released.inj h
    exact absurd hproc not_mem_nil
  split at h
  · obtain ⟨rfl, -⟩ := ReleaseResult.released.inj h
    exact absurd hproc not_mem_nil
  · cases h
  · rename_i ptr hptr
    obtain ⟨rfl, -⟩ := ReleaseResult.released.inj h
    refine ⟨ptr, hptr, ?_⟩
    simp only [releaseMode] at hproc
    split at hproc
    · exact waitLSN_le_of_woken proc hproc
    · exact absurd hproc not_mem_nil

theorem releasedConfirmed_of_stored {config : SyncRepConfigData} {walsnds : List WalSnd} {my : Nat}
    (h : StoredConfirmed config walsnds my) : ReleasedConfirmed config walsnds my := by
  intro ctl woken ctl' hrelease mode proc hproc
  obtain ⟨ptr, hptr, hconf⟩ := h
  obtain ⟨ptr', hptr', hle⟩ := waitLSN_le_of_released hrelease hproc
  obtain rfl := SyncRecPtrResult.stored.inj (hptr.symm.trans hptr')
  exact (hconf mode).mono hle

/-! ## The selected standbys -/

/-- The indexes of the candidates, in order. -/
theorem syncRepGetSyncStandbysQuorum_fst (walsnds : List WalSnd) (my : Nat) :
    (syncRepGetSyncStandbysQuorum walsnds my).1 =
      (walsnds.zipIdx.filter (fun x => considered x.1)).map (·.2) := by
  have hfold : ∀ (l : List (WalSnd × Nat)) (r : List Nat × Bool),
      (l.foldl (fun r x => if considered x.1 then (r.1 ++ [x.2], r.2 || x.2 == my) else r) r).1 =
        r.1 ++ (l.filter (fun x => considered x.1)).map (·.2) := by
    intro l
    induction l with
    | nil => simp
    | cons x l ih =>
      intro r
      rw [foldl_cons, ih]
      by_cases hx : considered x.1 = true <;> simp [hx]
  rw [syncRepGetSyncStandbysQuorum, hfold, nil_append]

theorem map_fst_filter_zipIdx (walsnds : List WalSnd) :
    (walsnds.zipIdx.filter (fun x => considered x.1)).map (·.1) = walsnds.filter considered := by
  have hfst : walsnds.filter considered = (walsnds.zipIdx.map (·.1)).filter considered := by
    rw [zipIdx_map_fst]
  rw [hfst, filter_map]
  rfl

/-- In `ANY` mode the standbys looked at are the candidates. -/
theorem standbysAt_quorum (walsnds : List WalSnd) (my : Nat) :
    standbysAt walsnds (syncRepGetSyncStandbysQuorum walsnds my).1 = walsnds.filter considered := by
  have hmem : ∀ x ∈ walsnds.zipIdx.filter (fun x => considered x.1), walsnds[x.2]? = some x.1 :=
    fun x hx =>
    mem_zipIdx_iff_getElem?.1 (mem_filter.1 hx).1
  rw [standbysAt, syncRepGetSyncStandbysQuorum_fst, filterMap_map, ← map_fst_filter_zipIdx,
    ← filterMap_eq_map]
  exact filterMap_congr fun x hx => hmem x hx

/-! ## One scan -/

/-- The standbys of one priority. -/
def atPriority (prio : Nat → Nat) (priority : Nat) (l : List Nat) : List Nat :=
  l.filter (prio · = priority)

def others (prio : Nat → Nat) (priority : Nat) (l : List Nat) : List Nat :=
  l.filter (prio · ≠ priority)

section
variable {prio : Nat → Nat} {priority i : Nat} {l : List Nat}

@[simp] theorem mem_atPriority : i ∈ atPriority prio priority l ↔ i ∈ l ∧ prio i = priority := by
  simp [atPriority]

@[simp] theorem mem_others : i ∈ others prio priority l ↔ i ∈ l ∧ prio i ≠ priority := by
  simp [others]

theorem atPriority_cons : atPriority prio priority (i :: l) =
    if prio i = priority then i :: atPriority prio priority l else atPriority prio priority l := by
  simp [atPriority, filter_cons]

theorem others_cons : others prio priority (i :: l) =
    if prio i = priority then others prio priority l else i :: others prio priority l := by
  simp [others, filter_cons]

theorem length_atPriority_add (prio : Nat → Nat) (priority : Nat) (l : List Nat) :
    (atPriority prio priority l).length + (others prio priority l).length = l.length := by
  induction l with
  | nil => rfl
  | cons i l ih =>
    rw [atPriority_cons, others_cons, length_cons, ← ih]
    split <;> rw [length_cons] <;> omega

end

/-- The smallest priority in the list, if it is below the start value. -/
def nextPriority (prio : Nat → Nat) (start : Nat) (l : List Nat) : Nat :=
  l.foldl (fun next i => if prio i < next then prio i else next) start

theorem nextPriority_spec (prio : Nat → Nat) (l : List Nat) (start : Nat) :
    nextPriority prio start l ≤ start ∧ (∀ i ∈ l, nextPriority prio start l ≤ prio i) ∧
      (nextPriority prio start l = start ∨ ∃ i ∈ l, prio i = nextPriority prio start l) := by
  induction l generalizing start with
  | nil => simp [nextPriority]
  | cons i l ih =>
    have hcons : nextPriority prio start (i :: l) = nextPriority prio (min (prio i) start) l := by
      rw [nextPriority, foldl_cons, ← nextPriority]
      congr 1
      split <;> omega
    obtain ⟨hstart, hle, hmem⟩ := ih (min (prio i) start)
    rw [hcons]
    refine ⟨by omega, ?_, ?_⟩
    · intro j hj
      obtain rfl | hj := mem_cons.1 hj
      · omega
      · exact hle j hj
    · obtain heq | ⟨j, hj, hprio⟩ := hmem
      · by_cases hlt : prio i < start
        · exact Or.inr ⟨i, mem_cons_self, by omega⟩
        · exact Or.inl (by omega)
      · exact Or.inr ⟨j, mem_cons_of_mem _ hj, hprio⟩

theorem nextPriority_mem {prio : Nat → Nat} {bound : Nat} {l : List Nat} (hne : 0 < l.length)
    (hmax : ∀ i ∈ l, prio i ≤ bound) :
    (∀ i ∈ l, nextPriority prio (bound + 1) l ≤ prio i) ∧
    ∃ i ∈ l, prio i = nextPriority prio (bound + 1) l := by
  obtain ⟨-, hleast, hattained⟩ := nextPriority_spec prio l (bound + 1)
  refine ⟨hleast, hattained.resolve_left fun hbeyond => ?_⟩
  obtain ⟨i, hi⟩ := exists_mem_of_length_pos hne
  have hle := hleast i hi
  have hle' := hmax i hi
  omega

section
variable (numSync my : Nat) {prio : Nat → Nat}

/-- A scan takes the standbys of its priority and stops when there are enough. -/
theorem pendingScan_eq {priority : Nat} {l : List Nat} {s : PriorityScan}
    (hs : s.result.length < numSync) :
    pendingScan numSync my priority prio l s =
      if numSync ≤ s.result.length + (atPriority prio priority l).length then
        .error (s.result ++ (atPriority prio priority l).take (numSync - s.result.length),
          s.amSync || ((atPriority prio priority l).take (numSync - s.result.length)).any (· == my))
      else .ok { s with
        result := s.result ++ atPriority prio priority l
        pending := s.pending ++ others prio priority l
        nextHighestPriority := nextPriority prio s.nextHighestPriority (others prio priority l)
        amSync := s.amSync || (atPriority prio priority l).any (· == my) } := by
  induction l generalizing s with
  | nil => simp [pendingScan, atPriority, others, nextPriority, hs]
  | cons i l ih =>
    rw [pendingScan, atPriority_cons, others_cons]
    by_cases hprio : prio i = priority
    · obtain ⟨n, hn⟩ : ∃ n, numSync = s.result.length + (n + 1) :=
        ⟨numSync - s.result.length - 1, by omega⟩
      rw [if_pos hprio, if_pos hprio, if_pos hprio, hn, Nat.add_sub_cancel_left,
        take_succ_cons, length_cons]
      by_cases hfull : n = 0
      · simp [hfull]
      · have hn' : s.result.length + (n + 1) - (s.result ++ [i]).length = n := by simp; omega
        rw [if_neg (by simp [hfull]), ← hn, ih (by simp; omega), hn, hn']
        simp [Bool.or_assoc, add_assoc, add_comm 1]
    · rw [if_neg hprio, if_neg hprio, if_neg hprio, ih (by exact hs)]
      simp [nextPriority]

end

/-- The candidates among the WAL senders of an array. -/
def candidates (walsnds : List (WalSnd × Nat)) : List Nat :=
  (walsnds.filter (fun x => considered x.1)).map (·.2)

/-- The first scan is one for priority 1 among the candidates. -/
theorem firstScan_eq (numSync my : Nat) {prio : Nat → Nat} {l : List (WalSnd × Nat)}
    (hl : ∀ x ∈ l, prio x.2 = x.1.syncStandbyPriority) (s : PriorityScan) :
    firstScan numSync my l s = pendingScan numSync my 1 prio (candidates l)
      { s with amInPending := s.amInPending || (others prio 1 (candidates l)).any (· == my) } := by
  induction l generalizing s with
  | nil => simp [firstScan, candidates, pendingScan, others]
  | cons x l ih =>
    obtain ⟨walsnd, i⟩ := x
    have hi := hl _ mem_cons_self
    have hrest := ih (forall_mem_cons.1 hl).2
    rw [firstScan, ← hi]
    by_cases hcons : considered walsnd = true
    · have hcand : candidates ((walsnd, i) :: l) = i :: candidates l := by simp [candidates, hcons]
      rw [if_neg (by simp [hcons]), hcand, pendingScan, others_cons]
      by_cases hprio : prio i = 1
      · simp only [if_pos hprio, hrest]
      · simp only [if_neg hprio, hrest, any_cons, Bool.or_assoc]
    · have hcand : candidates ((walsnd, i) :: l) = candidates l := by simp [candidates, hcons]
      rw [if_pos (by simpa using hcons), hcand, hrest]

/-! ## The standbys of highest priority -/

/-- The first `n` standbys of a list ordered by priority and index. -/
structure First (prio : Nat → Nat) (n : Nat) (l result : List Nat) : Prop where
  subset : ∀ i ∈ result, i ∈ l
  nodup : result.Nodup
  length_eq : result.length = n
  before : ∀ i ∈ result, ∀ j ∈ l, j ∉ result → prio i < prio j ∨ prio i = prio j ∧ i < j

variable {result : List Nat}

theorem First.mem_iff {prio : Nat → Nat} {n : Nat} {l : List Nat} (h : First prio n l result)
    (hle : l.length ≤ n) (i : Nat) : i ∈ result ↔ i ∈ l :=
  ((List.Nodup.subperm h.nodup h.subset).perm_of_length_le (by rw [h.length_eq]; exact hle)).mem_iff

section
variable {prio : Nat → Nat} {priority n : Nat} {l : List Nat}

theorem First.take (hl : l.Pairwise (· < ·)) (hmin : ∀ i ∈ l, priority ≤ prio i)
    (hn : n ≤ (atPriority prio priority l).length) :
    First prio n l ((atPriority prio priority l).take n) := by
  have hsorted : (atPriority prio priority l).Pairwise (· < ·) := hl.filter _
  have hmem : ∀ i ∈ (atPriority prio priority l).take n, i ∈ l ∧ prio i = priority := fun i hi =>
    mem_atPriority.1 (mem_of_mem_take hi)
  refine ⟨fun i hi => (hmem i hi).1, (hsorted.imp ne_of_lt).sublist (take_sublist _ _),
    length_take_of_le hn, ?_⟩
  intro i hi j hj hout
  rw [(hmem i hi).2]
  have hle := hmin j hj
  by_cases hprio : prio j = priority
  · -- one of the same priority that was not taken comes later
    refine Or.inr ⟨hprio.symm, ?_⟩
    have hdrop : j ∈ (atPriority prio priority l).drop n := by
      have hj' : j ∈ (atPriority prio priority l).take n ++
          (atPriority prio priority l).drop n := by
        simp [hj, hprio]
      exact (mem_append.1 hj').resolve_left hout
    rw [← take_append_drop n (atPriority prio priority l), pairwise_append] at hsorted
    exact hsorted.2.2 i hi j hdrop
  · exact Or.inl (by omega)

theorem First.append (hl : l.Pairwise (· < ·)) (hmin : ∀ i ∈ l, priority ≤ prio i)
    (h : First prio n (others prio priority l) result) :
    First prio ((atPriority prio priority l).length + n) l
      (atPriority prio priority l ++ result) := by
  have hother : ∀ i ∈ result, i ∈ l ∧ prio i ≠ priority := fun i hi => mem_others.1 (h.subset i hi)
  constructor
  · intro i hi
    obtain hi | hi := mem_append.1 hi
    · exact (mem_atPriority.1 hi).1
    · exact (hother i hi).1
  · refine nodup_append.2 ⟨(hl.imp ne_of_lt).filter _, h.nodup, fun i hi j hj hij => ?_⟩
    subst hij
    exact (hother i hj).2 (mem_atPriority.1 hi).2
  · rw [length_append, h.length_eq]
  · intro i hi j hj hout
    rw [mem_append, not_or] at hout
    have hprio : prio j ≠ priority := fun hprio => hout.1 (by simp [hj, hprio])
    obtain hi | hi := mem_append.1 hi
    · have hle := hmin j hj
      have hi' := (mem_atPriority.1 hi).2
      exact Or.inl (by omega)
    · exact h.before i hi j (by simp [hj, hprio]) hout.2

end

/-- What the function returns before its last assertion; none if it gets there. -/
def priorityReturn (config : SyncRepConfigData) (walsnds : List WalSnd) (my : Nat) :
    Option (List Nat × Bool) :=
  match priorityScans config walsnds my with
  | .error r => some r
  | .ok _ => none

theorem priorityReturn_eq {config : SyncRepConfigData} {walsnds : List WalSnd} {my : Nat}
    {r : List Nat × Bool} (h : priorityScans config walsnds my = .error r) :
    priorityReturn config walsnds my = some r ∧
    syncRepGetSyncStandbysPriority config walsnds my = r := by
  rw [priorityReturn, syncRepGetSyncStandbysPriority, h]
  exact ⟨rfl, rfl⟩

/-- While standbys are missing and enough are pending, the loop takes the next ones. -/
theorem pendingLoop_first {config : SyncRepConfigData} (my : Nat) {prio : Nat → Nat}
    {fuel priority : Nat} {pending : List Nat} (amSync : Bool) (hsorted : pending.Pairwise (· < ·))
    (hmin : ∀ i ∈ pending, priority ≤ prio i) (hnext : ∃ i ∈ pending, prio i = priority)
    (hmax : ∀ i ∈ pending, prio i ≤ config.nmembers) (hlt : result.length < config.numSync)
    (henough : config.numSync ≤ result.length + pending.length) (hfuel : pending.length < fuel) :
    ∃ taken, pendingLoop config my prio fuel priority result pending amSync =
      .error (result ++ taken, amSync || taken.any (· == my)) ∧
      First prio (config.numSync - result.length) pending taken := by
  induction fuel generalizing priority result pending amSync with
  | zero => omega
  | succ fuel ih =>
    obtain ⟨i, hi, hprio⟩ := hnext
    rw [pendingLoop, if_pos (hprio ▸ hmax i hi)]
    by_cases hfull : config.numSync ≤ result.length + (atPriority prio priority pending).length
    · rw [pendingScan_eq config.numSync my hlt, if_pos hfull]
      exact ⟨_, rfl, .take hsorted hmin (by omega)⟩
    rw [pendingScan_eq config.numSync my hlt, if_neg hfull]
    have hlen := length_atPriority_add prio priority pending
    have hpos : 0 < (atPriority prio priority pending).length :=
      length_pos_of_mem (a := i) (by simp [hi, hprio])
    have hleft : ∀ j ∈ others prio priority pending, j ∈ pending := fun j hj => (mem_others.1 hj).1
    obtain ⟨hleast, hnext'⟩ :=
      nextPriority_mem (l := others prio priority pending) (by omega) fun j hj =>
        hmax j (hleft j hj)
    have hsorted' : (others prio priority pending).Pairwise (· < ·) := hsorted.filter _
    have hlt' : (result ++ atPriority prio priority pending).length < config.numSync := by
      simpa using hfull
    obtain ⟨taken, heq, hfirst⟩ := ih (amSync || (atPriority prio priority pending).any (· == my))
      hsorted' hleast hnext'
        (fun j hj => hmax j (hleft j hj)) hlt' (by rw [length_append]; omega) (by omega)
    refine ⟨atPriority prio priority pending ++ taken, ?_, ?_⟩
    · rw [any_append, ← append_assoc, ← Bool.or_assoc, ← heq]
      rfl
    · have hsum : config.numSync - result.length = (atPriority prio priority pending).length +
          (config.numSync - (result ++ atPriority prio priority pending).length) := by
        rw [length_append]
        omega
      rw [hsum]
      exact hfirst.append hsorted hmin

section
variable (config : SyncRepConfigData) (walsnds : List WalSnd) (my : Nat)

theorem priorityOf_eq {x : WalSnd × Nat} (hx : x ∈ walsnds.zipIdx) :
    priorityOf walsnds x.2 = x.1.syncStandbyPriority := by
  rw [priorityOf, mem_zipIdx_iff_getElem?.1 hx]
  rfl

theorem candidates_sorted : (candidates walsnds.zipIdx).Pairwise (· < ·) := by
  refine List.Pairwise.sublist (filter_sublist.map _) ?_
  rw [zipIdx_map_snd]
  exact pairwise_lt_range' 1

theorem mem_candidates {i : Nat} (hi : i ∈ candidates walsnds.zipIdx) :
    ∃ walsnd, walsnds[i]? = some walsnd ∧ considered walsnd = true := by
  obtain ⟨x, hx, rfl⟩ := mem_map.1 hi
  obtain ⟨hmem, hcons⟩ := mem_filter.1 hx
  exact ⟨x.1, mem_zipIdx_iff_getElem?.1 hmem, hcons⟩

variable {walsnds}

/-- Whatever holds of all pending standbys holds of those selected. -/
theorem pendingLoop_all {P : Nat → Prop} {prio : Nat → Nat} {fuel priority : Nat}
    {pending : List Nat} {amSync : Bool} (hlt : result.length < config.numSync)
    (hresult : ∀ i ∈ result, P i) (hpending : ∀ i ∈ pending, P i) :
    ∀ i ∈ (returned (pendingLoop config my prio fuel priority result pending amSync)).1, P i := by
  induction fuel generalizing priority result pending amSync with
  | zero => exact hresult
  | succ fuel ih =>
    rw [pendingLoop]
    split
    · by_cases hfull : config.numSync ≤ result.length + (atPriority prio priority pending).length
      · rw [pendingScan_eq config.numSync my hlt, if_pos hfull]
        intro i hi
        obtain hi | hi := mem_append.1 hi
        · exact hresult i hi
        · exact hpending i (mem_atPriority.1 (mem_of_mem_take hi)).1
      · rw [pendingScan_eq config.numSync my hlt, if_neg hfull]
        refine ih (by simpa using hfull) (fun i hi => ?_) fun i hi => hpending i (mem_others.1 hi).1
        obtain hi | hi := mem_append.1 hi
        · exact hresult i hi
        · exact hpending i (mem_atPriority.1 hi).1
    · exact hresult

variable (walsnds)

/-- The standbys selected by priority are candidates. -/
theorem syncRepGetSyncStandbysPriority_considered :
    ∀ i ∈ (syncRepGetSyncStandbysPriority config walsnds my).1, ∃ walsnd,
      walsnds[i]? = some walsnd ∧ considered walsnd = true := by
  suffices h : ∀ i ∈ (syncRepGetSyncStandbysPriority config walsnds my).1,
      i ∈ candidates walsnds.zipIdx from
    fun i hi => mem_candidates walsnds (h i hi)
  rw [syncRepGetSyncStandbysPriority, priorityScans,
    firstScan_eq config.numSync my fun x => priorityOf_eq walsnds,
    pendingScan_eq config.numSync my (by exact config.numSync_pos)]
  by_cases hfull : config.numSync ≤
    (atPriority (priorityOf walsnds) 1 (candidates walsnds.zipIdx)).length
  · rw [if_pos (by simpa using hfull)]
    intro i hi
    exact (mem_atPriority.1 (mem_of_mem_take (by simpa [returned] using hi))).1
  · rw [if_neg (by simpa using hfull)]
    dsimp only
    split
    · simp only [returned, nil_append, mem_append, mem_atPriority, mem_others]
      exact fun i hi => hi.elim And.left And.left
    · exact pendingLoop_all config my (by simpa using hfull) (fun i hi => (mem_atPriority.1 hi).1)
        fun i hi => (mem_others.1 hi).1

variable {walsnds} in
theorem priorityOf_candidates
    (hprio : ∀ walsnd ∈ walsnds, considered walsnd = true →
      walsnd.syncStandbyPriority ≤ config.nmembers) :
    ∀ i ∈ candidates walsnds.zipIdx,
      1 ≤ priorityOf walsnds i ∧ priorityOf walsnds i ≤ config.nmembers := by
  intro i hi
  obtain ⟨walsnd, hget, hcons⟩ := mem_candidates walsnds hi
  have hpos : walsnd.syncStandbyPriority ≠ 0 := by
    simp only [considered, Bool.and_eq_true, decide_eq_true_eq] at hcons
    exact hcons.1.2
  have hle := hprio walsnd (mem_of_getElem? hget) hcons
  rw [priorityOf, hget]
  exact ⟨pos_of_ne_zero hpos, hle⟩

/-- The scans end with an early return. -/
theorem priorityScans_first
    (hmem : ∀ i ∈ candidates walsnds.zipIdx,
      1 ≤ priorityOf walsnds i ∧ priorityOf walsnds i ≤ config.nmembers) :
    ∃ result amSync, priorityScans config walsnds my = .error (result, amSync) ∧
      (amSync = true ↔ my ∈ result) ∧ result.Nodup ∧
      ((candidates walsnds.zipIdx).length ≤ config.numSync →
        ∀ i, i ∈ result ↔ i ∈ candidates walsnds.zipIdx) ∧
      (config.numSync < (candidates walsnds.zipIdx).length →
        First (priorityOf walsnds) config.numSync (candidates walsnds.zipIdx) result) := by
  have hsorted := candidates_sorted walsnds
  rw [priorityScans, firstScan_eq config.numSync my fun x => priorityOf_eq walsnds,
    pendingScan_eq config.numSync my (by exact config.numSync_pos)]
  generalize candidates walsnds.zipIdx = cands at hsorted hmem
  have hlen := length_atPriority_add (priorityOf walsnds) 1 cands
  by_cases hfull : config.numSync ≤ (atPriority (priorityOf walsnds) 1 cands).length
  · have hfirst := First.take hsorted (fun i hi => (hmem i hi).1) hfull
    rw [if_pos (by simpa using hfull)]
    refine ⟨_, _, rfl, by simp, hfirst.nodup, fun hle => hfirst.mem_iff hle, fun _ => hfirst⟩
  rw [if_neg (by simpa using hfull)]
  rw [not_le] at hfull
  simp only [nil_append, Bool.false_or]
  by_cases hall : cands.length ≤ config.numSync
  · rw [if_pos (by omega)]
    have hmemall : ∀ i, i ∈ atPriority (priorityOf walsnds) 1 cands ++
        others (priorityOf walsnds) 1 cands ↔ i ∈ cands := by
      intro i
      by_cases h1 : priorityOf walsnds i = 1 <;> simp [h1]
    refine ⟨_, _, rfl, by simp, ?_, fun _ => hmemall, fun hlt => absurd hlt (by omega)⟩
    refine nodup_append.2 ⟨(hsorted.imp ne_of_lt).filter _, (hsorted.imp ne_of_lt).filter _, ?_⟩
    rintro i hi j hj rfl
    exact (mem_others.1 hj).2 (mem_atPriority.1 hi).2
  · rw [if_neg (by omega)]
    obtain ⟨hleast, hnext⟩ := nextPriority_mem (l := others (priorityOf walsnds) 1 cands) (by omega)
      fun i hi => (hmem i (mem_others.1 hi).1).2
    have hsorted' : (others (priorityOf walsnds) 1 cands).Pairwise (· < ·) := hsorted.filter _
    obtain ⟨taken, heq, hfirst⟩ :=
      pendingLoop_first my ((atPriority (priorityOf walsnds) 1 cands).any (· == my)) hsorted' hleast
      hnext (fun i hi => (hmem i (mem_others.1 hi).1).2) hfull (by omega) (lt_succ_self _)
    have hfirst' := hfirst.append hsorted fun i hi => (hmem i hi).1
    rw [add_sub_of_le hfull.le] at hfirst'
    exact ⟨_, _, heq, by simp, hfirst'.nodup, fun hle => absurd hle hall, fun _ => hfirst'⟩

/-- Priorities within the configuration: the function returns before its last assertion, with all
candidates or, if there are more than wanted, those that come first. -/
theorem syncRepGetSyncStandbysPriority_first
    (hprio : ∀ walsnd ∈ walsnds, considered walsnd = true →
      walsnd.syncStandbyPriority ≤ config.nmembers) :
    ∃ result amSync, priorityReturn config walsnds my = some (result, amSync) ∧
      syncRepGetSyncStandbysPriority config walsnds my = (result, amSync) ∧
      (amSync = true ↔ my ∈ result) ∧ result.Nodup ∧
      ((candidates walsnds.zipIdx).length ≤ config.numSync →
        ∀ i, i ∈ result ↔ i ∈ candidates walsnds.zipIdx) ∧
      (config.numSync < (candidates walsnds.zipIdx).length →
        First (priorityOf walsnds) config.numSync (candidates walsnds.zipIdx) result) := by
  obtain ⟨result, amSync, hscans, hrest⟩ :=
    priorityScans_first config walsnds my (priorityOf_candidates config hprio)
  exact ⟨result, amSync, (priorityReturn_eq hscans).1, (priorityReturn_eq hscans).2, hrest⟩

end

def secondFirst : List WalSnd :=
  [⟨10, .streaming, 5, 5, 5, 2⟩, ⟨11, .streaming, 5, 5, 5, 1⟩, ⟨12, .streaming, 5, 5, 5, 2⟩]

/-- Two of three standbys: the one of priority 1, and the first of the others. -/
theorem syncRepGetSyncStandbysPriority_first_two :
    First (priorityOf secondFirst) 2 [0, 1, 2]
      (syncRepGetSyncStandbysPriority ⟨2, .priority, 2, by decide⟩ secondFirst 0).1 := by
  obtain ⟨result, amSync, -, heq, -, -, -, hfirst⟩ :=
    syncRepGetSyncStandbysPriority_first ⟨2, .priority, 2, by decide⟩ secondFirst 0 (by decide)
  rw [heq]
  exact hfirst (by decide)

/-! ## Stored positions -/

section
variable (config : SyncRepConfigData) (walsnds : List WalSnd) (my : Nat)

/-- Each of the three positions is folded on its own. -/
theorem pos_getOldest (standbys : List WalSnd) (mode : WaitMode) :
    (syncRepGetOldestSyncRecPtr standbys).pos mode = oldest (standbys.map (·.pos mode)) := by
  induction standbys using reverseRecOn with
  | nil => cases mode <;> rfl
  | append_singleton l walsnd ih =>
    rw [map_append, map_singleton, oldest_concat, ← ih, syncRepGetOldestSyncRecPtr, foldl_append]
    cases mode <;> rfl

/-- Each of the three positions is the `nth` latest, if there is one. -/
theorem pos_getNthLatest {standbys : List WalSnd} {nth : Nat} (hpos : 0 < nth)
    (hle : nth ≤ standbys.length) :
    ∃ ptr, syncRepGetNthLatestSyncRecPtr standbys nth = some ptr ∧
      ∀ mode, nthLargest (standbys.map (·.pos mode)) nth = some (ptr.pos mode) := by
  obtain ⟨write, hwrite⟩ :=
    nthLargest_isSome (l := standbys.map (·.write)) hpos (by rwa [length_map])
  obtain ⟨flush, hflush⟩ :=
    nthLargest_isSome (l := standbys.map (·.flush)) hpos (by rwa [length_map])
  obtain ⟨apply, happly⟩ :=
    nthLargest_isSome (l := standbys.map (·.apply)) hpos (by rwa [length_map])
  refine ⟨⟨write, flush, apply⟩, ?_, fun mode => ?_⟩
  · rw [syncRepGetNthLatestSyncRecPtr, hwrite, hflush, happly]
  · cases mode with
    | write => exact hwrite
    | flush => exact hflush
    | apply => exact happly

theorem getNthLatest_zero (standbys : List WalSnd) :
    syncRepGetNthLatestSyncRecPtr standbys 0 = none := by
  rw [syncRepGetNthLatestSyncRecPtr, nthLargest, if_pos rfl]

/-- A candidate has reported its flush position. -/
theorem flush_ne_zero {walsnd : WalSnd} (h : considered walsnd = true) : walsnd.flush ≠ 0 := by
  simp only [considered, Bool.and_eq_true, decide_eq_true_eq] at h
  exact h.2

theorem zero_not_mem_flush (hmethod : config.syncrepMethod = .priority) :
    0 ∉ (selected config walsnds my).map (·.pos .flush) := by
  intro hmem
  obtain ⟨walsnd, hwalsnd, hflush⟩ := mem_map.1 hmem
  rw [selected, standbysAt, mem_filterMap] at hwalsnd
  obtain ⟨i, hi, hget⟩ := hwalsnd
  rw [syncRepGetSyncStandbys, hmethod] at hi
  obtain ⟨walsnd', hget', hcons⟩ := syncRepGetSyncStandbysPriority_considered config walsnds my i hi
  obtain rfl := Option.some.inj (hget.symm.trans hget')
  exact flush_ne_zero hcons hflush

variable {config walsnds my} (hsync : Synced config walsnds my)
include hsync

theorem storedConfirmed_priority_iff (hmethod : config.syncrepMethod = .priority) :
    StoredConfirmed config walsnds my ↔ PositionsUsable config walsnds my := by
  have hstored : syncRepGetSyncRecPtr (some config) walsnds my =
      .stored (syncRepGetOldestSyncRecPtr (selected config walsnds my)) := by
    rw [syncRepGetSyncRecPtr, if_neg (by simp [hsync.1, hsync.2]), hmethod]
    rfl
  -- position by position the fold is a lower bound or it is not
  have hmode : ∀ mode,
      Confirmed config walsnds my mode
      ((syncRepGetOldestSyncRecPtr (selected config walsnds my)).pos mode) ↔
      (0 ∈ (selected config walsnds my).map (·.pos mode) →
        ((selected config walsnds my).map (·.pos mode)).getLast? = some 0) := by
    intro mode
    rw [← oldest_le_iff, pos_getOldest, Confirmed, hmethod]
    simp
  rw [StoredConfirmed, PositionsUsable, hmethod, hstored]
  constructor
  · intro ⟨ptr, hptr, hconf⟩ mode _
    obtain rfl := SyncRecPtrResult.stored.inj hptr
    exact (hmode mode).1 (hconf mode)
  · intro h
    refine ⟨_, rfl, fun mode => (hmode mode).2 fun hzero => ?_⟩
    by_cases hflush : mode = .flush
    · subst hflush
      exact absurd hzero (zero_not_mem_flush config walsnds my hmethod)
    · exact h mode hflush hzero

theorem storedConfirmed_quorum_iff (hmethod : config.syncrepMethod = .quorum) :
    StoredConfirmed config walsnds my ↔ PositionsUsable config walsnds my := by
  have hselected : selected config walsnds my = walsnds.filter considered := by
    rw [selected, syncRepGetSyncStandbys, hmethod]
    exact standbysAt_quorum walsnds my
  have hlength : config.numSync ≤ (selected config walsnds my).length := by
    have hlen := hsync.2
    rw [syncRepGetSyncStandbys, hmethod] at hlen
    dsimp only at hlen
    rw [syncRepGetSyncStandbysQuorum_fst, length_map] at hlen
    rw [hselected, ← map_fst_filter_zipIdx, length_map]
    exact hlen
  have hget : syncRepGetSyncRecPtr (some config) walsnds my =
      match syncRepGetNthLatestSyncRecPtr (selected config walsnds my) (config.numSync % 256) with
      | some ptr => .stored ptr
      | none => .outOfBounds := by
    rw [syncRepGetSyncRecPtr, if_neg (by simp [hsync.1, hsync.2]), hmethod]
    rfl
  have hcount : ∀ mode lsn, Confirmed config walsnds my mode lsn ↔
      config.numSync ≤ ((selected config walsnds my).map (·.pos mode)).countP
      (fun x => decide (lsn ≤ x)) := by
    intro mode lsn
    rw [Confirmed, hmethod, hselected, countP_map, countP_filter]
    simp only [Function.comp_def, Bool.and_comm]
  rw [StoredConfirmed, PositionsUsable, hmethod, hget]
  by_cases hzero : config.numSync % 256 = 0
  · rw [hzero, getNthLatest_zero]
    simp
  have hmod : config.numSync % 256 ≤ (selected config walsnds my).length :=
    le_trans (mod_le _ _) hlength
  obtain ⟨ptr, hptr, hnth⟩ := pos_getNthLatest (pos_of_ne_zero hzero) hmod
  -- the stored position is confirmed if the latest one of the full count is as late
  have hmode : ∀ mode, Confirmed config walsnds my mode (ptr.pos mode) ↔
      nthLargest ((selected config walsnds my).map (·.pos mode)) (config.numSync % 256) =
        nthLargest ((selected config walsnds my).map (·.pos mode)) config.numSync := by
    intro mode
    obtain ⟨v, hv⟩ :=
      nthLargest_isSome (l := (selected config walsnds my).map (·.pos mode)) config.numSync_pos
        (by rwa [length_map])
    rw [hcount, le_countP_iff hv, hnth mode, hv, Option.some.injEq]
    have hge : v ≤ ptr.pos mode := by
      rw [← le_countP_iff (hnth mode)]
      exact le_trans (mod_le _ _) ((le_countP_iff hv v).2 (le_refl v))
    omega
  rw [hptr]
  constructor
  · intro ⟨ptr', hptr', hconf⟩
    obtain rfl := SyncRecPtrResult.stored.inj hptr'
    exact ⟨hzero, fun mode => (hmode mode).1 (hconf mode)⟩
  · intro h
    exact ⟨ptr, rfl, fun mode => (hmode mode).2 (h.2 mode)⟩

/-- Stored positions, and with them all releases, are confirmed by the required standbys
exactly if the positions are usable. -/
theorem syncRep_confirmed_iff :
    (StoredConfirmed config walsnds my ∧ ReleasedConfirmed config walsnds my) ↔
    PositionsUsable config walsnds my := by
  have hiff : StoredConfirmed config walsnds my ↔ PositionsUsable config walsnds my := by
    cases hmethod : config.syncrepMethod with
    | priority => exact storedConfirmed_priority_iff hsync hmethod
    | quorum => exact storedConfirmed_quorum_iff hsync hmethod
  rw [← hiff]
  exact and_iff_left_of_imp releasedConfirmed_of_stored

end

/-- `FIRST 2` over two standbys, the first of which has not applied anything yet. -/
def firstTwo : SyncRepConfigData := ⟨2, .priority, 2, by decide⟩

def applyPending : List WalSnd :=
  [⟨11, .streaming, 100, 100, 0, 1⟩, ⟨12, .streaming, 100, 100, 100, 2⟩]

/-- A backend is released at 100 although the first standby has applied nothing. -/
theorem apply_not_confirmed :
    syncRepGetSyncRecPtr (some firstTwo) applyPending 1 = .stored ⟨100, 100, 100⟩ ∧
      ¬ Confirmed firstTwo applyPending 1 .apply 100 ∧
      ∃ woken ctl,
        syncRepReleaseWaiters (some firstTwo) applyPending 1 ⟨fun _ => [⟨7, 100⟩], fun _ => 0⟩ =
          .released woken ctl ∧
        ⟨7, 100⟩ ∈ woken .apply := by
  refine ⟨by decide, fun h => ?_, _, _, rfl, by decide⟩
  have hle := h ⟨11, .streaming, 100, 100, 0, 1⟩ (by decide)
  exact absurd hle (by decide)

/-- With the two standbys the other way round the position is 0 and confirmed. -/
theorem syncRep_confirmed_iff_reversed :
    StoredConfirmed firstTwo
      [⟨12, .streaming, 100, 100, 100, 1⟩, ⟨11, .streaming, 100, 100, 0, 2⟩] 1 := by
  refine ((syncRep_confirmed_iff (show Synced firstTwo _ 1 from ⟨by decide, by decide⟩)).2 ?_).1
  intro mode hmode hzero
  cases mode with
  | write => exact absurd hzero (by decide)
  | flush => exact absurd rfl hmode
  | apply => decide

end GreenPipeline.L5.SyncRep
