import GreenPipeline.L2Access.HeapTuple
import GreenPipeline.L2Access.Subtrans

/-!
# Transaction histories and snapshots

A history says of every transaction id whether the transaction is in progress, committed or
aborted (or crashed), and to which top-level transaction it belongs. It stands for the commit log,
the process array and the multixact members, as `TransactionIdIsInProgress`,
`TransactionIdDidCommit` and `TransactionIdIsCurrentTransactionId` read them.

A snapshot is meant to record which top-level transactions had ended when it was taken.
`SnapshotOf` says what that is for the fields of `SnapshotData`: a snapshot taken during recovery
keeps all ids in one array, and one that overflowed has no subtransactions and relies on
`pg_subtrans` (`src/backend/utils/time/tqual.c`, `src/backend/storage/ipc/procarray.c`).

Results:

* `xidInMVCCSnapshot_eq`: the search returns, and for a transaction of another backend that is not
  aborted the answer is whether its top-level transaction had not ended.
* `xidInMVCCSnapshot_stores`: the answer does not depend on which arrays the running transactions
  are stored in.
* `visible_iff`: visibility of a transaction's work, in terms of what the code asks.
-/
namespace GreenPipeline.L2.Snapshot

open GreenPipeline.L2.Transam GreenPipeline.L2.Subtrans GreenPipeline.L2.HeapTuple

/-! ## Histories -/

inductive XactStatus where
  | inProgress
  | committed
  | aborted
  deriving DecidableEq

structure History where
  status : TransactionId → XactStatus
  /-- The top-level transaction of a subtransaction; a top-level one is its own. -/
  top : TransactionId → TransactionId
  /-- The entries of `pg_subtrans`. -/
  subtrans : TransactionId → TransactionId
  depth : TransactionId → Nat
  members : MultiXactId → List MultiXactMember
  invalid_aborted : status invalidTransactionId = .aborted
  bootstrap_committed : status bootstrapTransactionId = .committed
  frozen_committed : status frozenTransactionId = .committed
  inProgress_top : ∀ x, status x = .inProgress → status (top x) = .inProgress
  committed_top : ∀ x, status x = .committed → status (top x) = .committed
  log : WellFormed subtrans depth
  recorded_top : ∀ x p, Recorded subtrans x p → top p = top x
  /-- An aborted subtransaction takes its children along. -/
  recorded_aborted : ∀ x p, Recorded subtrans x p → status p = .aborted → status x = .aborted

/-- What a backend knows by itself. -/
structure Backend where
  /-- The top-level id of its transaction, if it has one. -/
  me : Option TransactionId
  transactionXmin : TransactionId
  /-- The real `cmin` and `cmax` of its combo command ids. -/
  comboCids : CommandId → CommandId × CommandId
  /-- The multixact is not in its cache and older than the oldest one that it can see. -/
  lockerTooOld : MultiXactId → Bool
  /-- The commit record may not be on disk while the page is: a hint must not be set yet. -/
  commitUnflushed : TransactionId → Bool

/-- mirrors src/backend/access/transam/xact.c:773-859 -/
def transactionIdIsCurrentTransactionId (h : History) (b : Backend) (xid : TransactionId) : Bool :=
  b.me == some (h.top xid) && h.status xid == .inProgress

/-- mirrors procarray.c:999-1174 -/
def transactionIdIsInProgress (h : History) (xid : TransactionId) : Bool :=
  h.status xid == .inProgress

/-- mirrors src/backend/access/transam/transam.c:124-171 -/
def transactionIdDidCommit (h : History) (xid : TransactionId) : Bool := h.status xid == .committed

variable {xid x : TransactionId}

theorem isCurrent_iff {h : History} {b : Backend} :
    transactionIdIsCurrentTransactionId h b xid = true ↔ b.me = some (h.top xid) ∧
    h.status xid = .inProgress := by
  rw [transactionIdIsCurrentTransactionId, Bool.and_eq_true, beq_iff_eq, beq_iff_eq]

theorem didCommit_iff {h : History} :
    transactionIdDidCommit h xid = true ↔ h.status xid = .committed :=
  beq_iff_eq

theorem isInProgress_iff {h : History} :
    transactionIdIsInProgress h xid = true ↔ h.status xid = .inProgress := beq_iff_eq

/-- Only a transaction in progress is current. -/
theorem not_current_of_status {h : History} (b : Backend) (hx : h.status xid ≠ .inProgress) :
    transactionIdIsCurrentTransactionId h b xid = false := by
  rw [← Bool.not_eq_true, isCurrent_iff]
  exact fun hc => hx hc.2

variable {r : TransactionId}

namespace History
variable (h : History)

theorem top_of_ancestor (hr : Ancestor h.subtrans x r) : h.top r = h.top x := by
  induction hr with
  | refl => rfl
  | tail _ hrec ih => rw [h.recorded_top _ _ hrec, ih]

theorem top_not_aborted (hx : h.status x ≠ .aborted) : h.status (h.top x) ≠ .aborted := by
  cases hst : h.status x with
  | inProgress => simp [h.inProgress_top x hst]
  | committed => simp [h.committed_top x hst]
  | aborted => exact absurd hst hx

end History

/-- Top-level transactions only. -/
def flatHistory (status : TransactionId → XactStatus) (h0 : status invalidTransactionId = .aborted)
    (h1 : status bootstrapTransactionId = .committed)
    (h2 : status frozenTransactionId = .committed) : History where
  status := status
  top := id
  subtrans := fun _ => invalidTransactionId
  depth := fun _ => 0
  members := fun _ => []
  invalid_aborted := h0
  bootstrap_committed := h1
  frozen_committed := h2
  inProgress_top := fun _ h => h
  committed_top := fun _ h => h
  log :=
    ⟨fun x p hrec => absurd hrec (not_recorded_empty x p),
      fun x p hrec => absurd hrec (not_recorded_empty x p)⟩
  recorded_top := fun x p hrec => absurd hrec (not_recorded_empty x p)
  recorded_aborted := fun x p hrec => absurd hrec (not_recorded_empty x p)

/-! ## Snapshots -/

/-- mirrors src/include/utils/snapshot.h:52-96 -/
structure SnapshotData where
  xmin : TransactionId
  xmax : TransactionId
  xip : List TransactionId
  subxip : List TransactionId
  suboverflowed : Bool
  takenDuringRecovery : Bool
  curcid : CommandId

/-- mirrors tqual.c:1452-1562 -/
def xidInMVCCSnapshot (h : History) (b : Backend) (fuel : Nat) (xid : TransactionId)
    (snapshot : SnapshotData) :
    Except SearchError Bool :=
  if transactionIdPrecedes xid snapshot.xmin then .ok false
  else if transactionIdFollowsOrEquals xid snapshot.xmax then .ok true
  else if snapshot.takenDuringRecovery = false then
    if snapshot.suboverflowed = false then
      if snapshot.subxip.contains xid then .ok true else .ok (snapshot.xip.contains xid)
    else
      (subTransGetTopmostTransaction h.subtrans b.transactionXmin fuel xid).bind fun xid =>
        if transactionIdPrecedes xid snapshot.xmin then .ok false
        else .ok (snapshot.xip.contains xid)
  else if snapshot.suboverflowed then
    (subTransGetTopmostTransaction h.subtrans b.transactionXmin fuel xid).bind fun xid =>
      if transactionIdPrecedes xid snapshot.xmin then .ok false
      else .ok (snapshot.subxip.contains xid)
  else .ok (snapshot.subxip.contains xid)

/-- The transaction belongs to the backend's own one. -/
def Mine (h : History) (b : Backend) (x : TransactionId) : Prop := b.me = some (h.top x)

/-- Neither older than all running transactions nor younger than all assigned ids. -/
def Between (snapshot : SnapshotData) (x : TransactionId) : Prop :=
  transactionIdPrecedes x snapshot.xmin = false ∧ transactionIdPrecedes x snapshot.xmax = true

/-- The backend's snapshot was taken when exactly the top-level transactions in `ended` had
ended. -/
structure SnapshotOf (h : History) (b : Backend) (snapshot : SnapshotData)
    (ended : TransactionId → Prop) : Prop where
  own : ∀ t, b.me = some t → h.status t = .inProgress
  final : ∀ x, ended (h.top x) → h.status x ≠ .inProgress
  xmin_normal : transactionIdIsNormal snapshot.xmin = true
  below : ∀ x, ¬ Mine h b x → transactionIdPrecedes x snapshot.xmin = true → ended (h.top x)
  above : ∀ x, ¬ Mine h b x → transactionIdPrecedes x snapshot.xmin = false →
    transactionIdPrecedes x snapshot.xmax = false →
    ¬ ended (h.top x)
  horizon : ∀ x r, Between snapshot x → Ancestor h.subtrans x r →
    transactionIdPrecedes r b.transactionXmin = true →
    transactionIdPrecedes r snapshot.xmin = true
  xip_running : ∀ t ∈ snapshot.xip, h.top t = t ∧ ¬ ended t
  subxip_running : ∀ x ∈ snapshot.subxip, ¬ ended (h.top x)
  /-- Every other running top-level transaction is in `xip`. -/
  xip_complete : snapshot.takenDuringRecovery = false → ∀ x, ¬ Mine h b x → Between snapshot x →
    transactionIdPrecedes (h.top x) snapshot.xmin = false → ¬ ended (h.top x) →
    h.top x ∈ snapshot.xip
  /-- Every running subtransaction is in `subxip`. -/
  subxip_complete : snapshot.takenDuringRecovery = false → snapshot.suboverflowed = false →
    ∀ x, ¬ Mine h b x →
    Between snapshot x → h.status x ≠ .aborted → h.top x ≠ x → ¬ ended (h.top x) →
    x ∈ snapshot.subxip
  /-- Every subtransaction that is recent enough has a recorded parent. -/
  subtrans_complete : snapshot.takenDuringRecovery = false → snapshot.suboverflowed = true → ∀ x,
    transactionIdIsNormal x = true → transactionIdPrecedes x b.transactionXmin = false →
    transactionIdIsValid (subTransGetParent h.subtrans x) = false → h.top x = x
  /-- During recovery all running transactions are in `subxip`. -/
  recovery_complete : snapshot.takenDuringRecovery = true → snapshot.suboverflowed = false →
    ∀ x, ¬ Mine h b x →
    Between snapshot x → h.status x ≠ .aborted → ¬ ended (h.top x) → x ∈ snapshot.subxip
  /-- Those that have a recorded parent may be missing if the snapshot overflowed. -/
  recovery_overflowed : snapshot.takenDuringRecovery = true → snapshot.suboverflowed = true →
    ∀ x, ¬ Mine h b x →
    Between snapshot x → h.status x ≠ .aborted → ¬ ended (h.top x) → ∀ r, Ancestor h.subtrans x r →
    transactionIdIsValid (subTransGetParent h.subtrans r) = false →
    transactionIdPrecedes r snapshot.xmin = false →
    r ∈ snapshot.subxip

variable {h : History} {b : Backend} {snapshot : SnapshotData}
  {ended : TransactionId → Prop} {fuel : Nat}

/-- An id that does not precede a normal one is normal. -/
theorem isNormal_of_not_precedes {xmin : TransactionId} (hxmin : transactionIdIsNormal xmin = true)
    (h : transactionIdPrecedes x xmin = false) : transactionIdIsNormal x = true := by
  by_contra hx
  rw [Bool.not_eq_true] at hx
  rw [transactionIdPrecedes, if_pos (Or.inl hx), decide_eq_false_iff_not] at h
  rw [transactionIdIsNormal, decide_eq_true_eq] at hxmin
  rw [transactionIdIsNormal, decide_eq_false_iff_not] at hx
  omega

/-- The search returns whatever the snapshot is. -/
theorem xidInMVCCSnapshot_returns (b : Backend) (snapshot : SnapshotData)
    (hfuel : h.depth x + 2 ≤ fuel) :
    ∃ running, xidInMVCCSnapshot h b fuel x snapshot = .ok running := by
  obtain ⟨r, hr, -⟩ := subTransGetTopmostTransaction_eq b.transactionXmin h.log hfuel
  unfold xidInMVCCSnapshot
  rw [hr]
  simp only [Except.bind]
  split_ifs <;> exact ⟨_, rfl⟩

theorem xidInMVCCSnapshot_below (h : History) (b : Backend) (fuel : Nat)
    (hx : transactionIdPrecedes x snapshot.xmin = true) :
    xidInMVCCSnapshot h b fuel x snapshot = .ok false := by
  rw [xidInMVCCSnapshot, if_pos hx]

theorem xidInMVCCSnapshot_above (h : History) (b : Backend) (fuel : Nat)
    (hmin : transactionIdPrecedes x snapshot.xmin = false)
    (hmax : transactionIdPrecedes x snapshot.xmax = false) :
    xidInMVCCSnapshot h b fuel x snapshot = .ok true := by
  rw [xidInMVCCSnapshot, if_neg (by simp [hmin]), followsOrEquals_eq_not_precedes,
    if_pos (by simp [hmax])]

/-- What the arrays hold of one transaction: a full snapshot has it in either array, one that
overflowed has top-level transactions only and `pg_subtrans` the parents of those that are not too
old. During recovery all are in `subxip`, without those that have a recorded parent if the
snapshot overflowed. -/
def StoresAt (h : History) (b : Backend) (snapshot : SnapshotData) (running : TransactionId → Prop)
    (x : TransactionId) : Prop :=
  match snapshot.takenDuringRecovery, snapshot.suboverflowed with
  | false, false => x ∈ snapshot.xip ∨ x ∈ snapshot.subxip ↔ running (h.top x)
  | false, true => (x ∈ snapshot.xip ↔ running x ∧ h.top x = x) ∧
      (transactionIdPrecedes x b.transactionXmin = false →
        (∀ p, ¬ Recorded h.subtrans x p) → h.top x = x)
  | true, false => x ∈ snapshot.subxip ↔ running (h.top x)
  | true, true => (∀ p, ¬ Recorded h.subtrans x p) → (x ∈ snapshot.subxip ↔ running (h.top x))

/-- The search between the bounds, given where the search for the topmost parent ends. -/
theorem xidInMVCCSnapshot_between {running : TransactionId → Prop} (hbetween : Between snapshot x)
    (hfull : snapshot.suboverflowed = false → StoresAt h b snapshot running x)
    (hr : subTransGetTopmostTransaction h.subtrans b.transactionXmin fuel x = .ok r)
    (hanc : Ancestor h.subtrans x r)
    (hold : transactionIdPrecedes r snapshot.xmin = true → ¬ running (h.top x))
    (hstop : transactionIdPrecedes r snapshot.xmin = false →
      transactionIdPrecedes r b.transactionXmin = false ∧
      (∀ p, ¬ Recorded h.subtrans r p) ∧
      (snapshot.suboverflowed = true → StoresAt h b snapshot running r)) :
    ∃ answer, xidInMVCCSnapshot h b fuel x snapshot = .ok answer ∧
      (answer = true ↔ running (h.top x)) := by
  unfold xidInMVCCSnapshot
  rw [if_neg (by simp [hbetween.1]), followsOrEquals_eq_not_precedes,
    if_neg (by simp [hbetween.2]), hr]
  unfold StoresAt at hfull hstop
  rw [h.top_of_ancestor hanc] at hstop
  simp only [Except.bind]
  cases hrec : snapshot.takenDuringRecovery <;> cases hover : snapshot.suboverflowed <;>
    simp only [hrec, hover, true_implies] at hfull hstop
  case false.false =>
    refine ⟨snapshot.subxip.contains x || snapshot.xip.contains x, ?_, ?_⟩
    · cases snapshot.subxip.contains x <;> simp
    · rw [Bool.or_eq_true, List.contains_iff_mem, List.contains_iff_mem, or_comm, hfull]
  case true.false =>
    exact ⟨snapshot.subxip.contains x, by simp, by rw [List.contains_iff_mem, hfull]⟩
  -- without all subtransactions: the topmost parent that was found
  all_goals
    by_cases hrmin : transactionIdPrecedes r snapshot.xmin = true
    · exact ⟨false, by simp [hrmin], by simp [hold hrmin]⟩
    rw [Bool.not_eq_true] at hrmin
    obtain ⟨hrecent, hnone, hstore⟩ := hstop hrmin
  · have hself := hstore.2 hrecent hnone
    exact ⟨snapshot.xip.contains
      r, by simp [hrmin], by rw [List.contains_iff_mem, hstore.1, hself]; simp⟩
  · exact ⟨snapshot.subxip.contains r, by simp [hrmin], by rw [List.contains_iff_mem, hstore hnone]⟩

section

variable (hs : SnapshotOf h b snapshot ended)
include hs

/-- A full snapshot has the other backends' transactions. -/
theorem SnapshotOf.storesAt (hover : snapshot.suboverflowed = false)
    (hmine : ¬ Mine h b x) (hbetween : Between snapshot x) (hx : h.status x ≠ .aborted) :
    StoresAt h b snapshot (fun t => ¬ ended t) x := by
  unfold StoresAt
  cases hrec : snapshot.takenDuringRecovery <;> simp only [hover]
  · constructor
    · rintro (htop | hsub)
      · obtain ⟨hself, hrun⟩ := hs.xip_running x htop
        rwa [hself]
      · exact hs.subxip_running x hsub
    · intro hrun
      by_cases hself : h.top x = x
      · have hmem := hs.xip_complete hrec x hmine hbetween (by rw [hself]; exact hbetween.1) hrun
        rw [hself] at hmem
        exact Or.inl hmem
      · exact Or.inr (hs.subxip_complete hrec hover x hmine hbetween hx hself hrun)
  · exact ⟨hs.subxip_running x, hs.recovery_complete hrec hover x hmine hbetween hx⟩

/-- One that overflowed has what the search for the topmost parent needs. -/
theorem SnapshotOf.storesAt_topmost (hover : snapshot.suboverflowed = true)
    (hmine : ¬ Mine h b x) (hbetween : Between snapshot x) (hx : h.status x ≠ .aborted)
    (hanc : Ancestor h.subtrans x r) (hrecent : transactionIdPrecedes r snapshot.xmin = false) :
    StoresAt h b snapshot (fun t => ¬ ended t) r := by
  unfold StoresAt
  cases hrec : snapshot.takenDuringRecovery <;> simp only [hover]
  · refine ⟨⟨fun hmem => (hs.xip_running r hmem).symm, fun hrun => ?_⟩, fun hxmin hnone => ?_⟩
    · have htop : h.top x = r := by rw [← h.top_of_ancestor hanc, hrun.2]
      have hmem :=
        hs.xip_complete hrec x hmine hbetween (by rw [htop]; exact hrecent)
          (by rw [htop]; exact hrun.1)
      rwa [htop] at hmem
    · exact hs.subtrans_complete hrec hover r (isNormal_of_not_precedes hs.xmin_normal hrecent)
        hxmin (forall_not_recorded_iff.1 hnone)
  · intro hnone
    constructor
    · exact hs.subxip_running r
    · rw [h.top_of_ancestor hanc]
      exact fun hrun =>
        hs.recovery_overflowed hrec hover x hmine hbetween hx hrun r hanc
        (forall_not_recorded_iff.1 hnone) hrecent

/-- The answer about another backend's transaction. -/
theorem xidInMVCCSnapshot_eq (hfuel : h.depth x + 2 ≤ fuel) (hmine : ¬ Mine h b x)
    (hx : h.status x ≠ .aborted) :
    ∃ running, xidInMVCCSnapshot h b fuel x snapshot = .ok running ∧
      (running = true ↔ ¬ ended (h.top x)) := by
  by_cases hbelow : transactionIdPrecedes x snapshot.xmin = true
  · have hended := hs.below x hmine hbelow
    exact ⟨false, xidInMVCCSnapshot_below h b fuel hbelow, by simp [hended]⟩
  rw [Bool.not_eq_true] at hbelow
  by_cases habove : transactionIdPrecedes x snapshot.xmax = false
  · exact ⟨true,
      xidInMVCCSnapshot_above h b fuel hbelow habove, by simp [hs.above x hmine hbelow habove]⟩
  rw [Bool.not_eq_false] at habove
  have hbetween : Between snapshot x := ⟨hbelow, habove⟩
  obtain ⟨r, hr, hanc, hstop⟩ := subTransGetTopmostTransaction_eq b.transactionXmin h.log hfuel
  refine xidInMVCCSnapshot_between hbetween
    (fun hover => hs.storesAt hover hmine hbetween hx) hr hanc ?_ ?_
  · -- an ancestor older than xmin belongs to a transaction that had ended
    intro hold
    rw [not_not, ← h.top_of_ancestor hanc]
    refine hs.below r ?_ hold
    rw [Mine, h.top_of_ancestor hanc]
    exact hmine
  · intro hrecent
    have hxmin : transactionIdPrecedes r b.transactionXmin = false := by
      rw [← Bool.not_eq_true]
      intro hold
      rw [hs.horizon x r hbetween hanc hold] at hrecent
      cases hrecent
    exact ⟨hxmin, forall_not_recorded_iff.2 (hstop.resolve_left (by simp [hxmin])),
      fun hover => hs.storesAt_topmost hover hmine hbetween hx hanc hrecent⟩

end

/-! ## Ways to store the running transactions -/

/-- `running` are the top-level transactions that were running when the snapshot was taken; `xmin`
is not above them, and not below `TransactionXmin`. Children come after their parents, in the half
of the circle that begins at `base`. -/
structure RunningAt (h : History) (base xmin xmax transactionXmin : TransactionId)
    (running : TransactionId → Prop) : Prop where
  inHalf : ∀ x, h.status x ≠ .aborted → InHalf base x
  bounds_inHalf : ∀ x ∈ [xmin, xmax, transactionXmin], InHalf base x
  top_le : ∀ x, h.top x = x ∨ transactionIdPrecedes (h.top x) x = true
  xmin_le_xmax : transactionIdPrecedes xmax xmin = false
  xmin_le : ∀ t, running t → transactionIdPrecedes t xmin = false
  horizon : transactionIdPrecedes xmin transactionXmin = false

/-- The snapshot has every transaction with an id below `xmax` that is not aborted. -/
def Stores (h : History) (b : Backend) (snapshot : SnapshotData)
    (running : TransactionId → Prop) : Prop :=
  ∀ x, h.status x ≠ .aborted → transactionIdPrecedes x snapshot.xmax = true →
    StoresAt h b snapshot running x

namespace RunningAt
variable {base xmin xmax transactionXmin : TransactionId} {running : TransactionId → Prop}
  (hrun : RunningAt h base xmin xmax transactionXmin running)
include hrun

/-- The top-level transaction of an id below `xmin` was not running. -/
theorem not_running (hx : h.status x ≠ .aborted) (hold : transactionIdPrecedes x xmin = true) :
    ¬ running (h.top x) := by
  intro htop
  have htopin := hrun.inHalf _ (h.top_not_aborted hx)
  have hxin := hrun.inHalf x hx
  have hmin := hrun.bounds_inHalf xmin (by simp)
  have hle := hrun.xmin_le _ htop
  rw [precedes_iff_rank hxin hmin] at hold
  rw [← Bool.not_eq_true, precedes_iff_rank htopin hmin] at hle
  obtain hself | hlt := hrun.top_le x
  · rw [hself] at hle
    omega
  · rw [precedes_iff_rank htopin hxin] at hlt
    omega

/-- Ancestors are not younger. -/
theorem rank_le_of_ancestor (hx : h.status x ≠ .aborted) (hanc : Ancestor h.subtrans x r) :
    h.status r ≠ .aborted ∧ rank base r ≤ rank base x := by
  induction hanc with
  | refl => exact ⟨hx, Nat.le_refl _⟩
  | @tail y z _ hrec ih =>
    have hz : h.status z ≠ .aborted := fun hab => ih.1 (h.recorded_aborted _ _ hrec hab)
    have hlt := h.log.precedes _ _ hrec
    rw [precedes_iff_rank (hrun.inHalf z hz) (hrun.inHalf y ih.1)] at hlt
    exact ⟨hz, by omega⟩

end RunningAt

/-- Every way to store the running transactions gives the same answer. -/
theorem xidInMVCCSnapshot_stores {base xmin xmax : TransactionId} {running : TransactionId → Prop}
    (hrun : RunningAt h base xmin xmax b.transactionXmin running) (hx : h.status x ≠ .aborted)
    (hfuel : h.depth x + 2 ≤ fuel) :
    ∃ answer, (answer = true ↔ transactionIdFollowsOrEquals x xmax = true ∨ running (h.top x)) ∧
      ∀ snapshot, snapshot.xmin = xmin → snapshot.xmax = xmax → Stores h b snapshot running →
        xidInMVCCSnapshot h b fuel x snapshot = .ok answer := by
  classical
  refine ⟨decide (transactionIdFollowsOrEquals x xmax = true ∨ running (h.top x)),
    decide_eq_true_iff, ?_⟩
  rintro snapshot rfl rfl hstore
  have hxin := hrun.inHalf x hx
  have hmin := hrun.bounds_inHalf snapshot.xmin (by simp)
  have hmax := hrun.bounds_inHalf snapshot.xmax (by simp)
  have hhor := hrun.bounds_inHalf b.transactionXmin (by simp)
  have hle := hrun.xmin_le_xmax
  have hhorizon := hrun.horizon
  rw [← Bool.not_eq_true, precedes_iff_rank hmax hmin] at hle
  rw [← Bool.not_eq_true, precedes_iff_rank hmin hhor] at hhorizon
  rw [followsOrEquals_eq_not_precedes]
  by_cases hbelow : transactionIdPrecedes x snapshot.xmin = true
  · have hltmax : transactionIdPrecedes x snapshot.xmax = true := by
      rw [precedes_iff_rank hxin hmin] at hbelow
      rw [precedes_iff_rank hxin hmax]
      omega
    rw [xidInMVCCSnapshot_below h b fuel hbelow]
    simp [hltmax, hrun.not_running hx hbelow]
  rw [Bool.not_eq_true] at hbelow
  by_cases habove : transactionIdPrecedes x snapshot.xmax = false
  · rw [xidInMVCCSnapshot_above h b fuel hbelow habove]
    simp [habove]
  rw [Bool.not_eq_false] at habove
  obtain ⟨r, hr, hanc, hstop⟩ := subTransGetTopmostTransaction_eq b.transactionXmin h.log hfuel
  obtain ⟨hrx, hrle⟩ := hrun.rank_le_of_ancestor hx hanc
  have hrin := hrun.inHalf r hrx
  obtain ⟨answer, hanswer, hiff⟩ :=
    xidInMVCCSnapshot_between ⟨hbelow, habove⟩ (fun _ => hstore x hx habove) hr hanc
    (fun hold => by rw [← h.top_of_ancestor hanc]; exact hrun.not_running hrx hold)
      (fun hrecent => by
      have hrmax : transactionIdPrecedes r snapshot.xmax = true := by
        rw [precedes_iff_rank hxin hmax] at habove
        rw [precedes_iff_rank hrin hmax]
        omega
      have hxmin : transactionIdPrecedes r b.transactionXmin = false := by
        rw [← Bool.not_eq_true, precedes_iff_rank hrin hmin] at hrecent
        rw [← Bool.not_eq_true, precedes_iff_rank hrin hhor]
        omega
      exact ⟨hxmin, forall_not_recorded_iff.2 (hstop.resolve_left (by simp [hxmin])),
        fun _ => hstore r hrx hrmax⟩)
  rw [hanswer]
  congr 1
  rw [Bool.eq_iff_iff, hiff]
  simp [habove]

/-- The only entry of the log below. -/
theorem recorded_child {p : TransactionId} (h : Recorded (fun x => if x = 11 then 10 else 0) x p) :
    x = 11 ∧ p = 10 := by
  obtain ⟨rfl, hvalid⟩ := h
  by_cases hx : x = 11
  · subst hx
    exact ⟨rfl, rfl⟩
  · simp [subTransGetParent, invalidTransactionId, transactionIdIsValid] at hvalid
    exact absurd hvalid.2 hx

/-- Transaction 10 and its subtransaction 11 are in progress. -/
def parentChild : History where
  status x :=
    if x = 10 ∨ x = 11 then .inProgress else if x = 1 ∨ x = 2 then .committed else .aborted
  top x := if x = 11 then 10 else x
  subtrans x := if x = 11 then 10 else 0
  depth x := if x = 11 then 1 else 0
  members _ := []
  invalid_aborted := rfl
  bootstrap_committed := rfl
  frozen_committed := rfl
  inProgress_top x h := by split <;> simp_all
  committed_top x h := by split <;> simp_all
  log := by constructor <;> intro x p h <;> obtain ⟨rfl, rfl⟩ := recorded_child h <;> decide
  recorded_top x p h := by obtain ⟨rfl, rfl⟩ := recorded_child h; decide
  recorded_aborted x p h := by obtain ⟨rfl, rfl⟩ := recorded_child h; decide

theorem parentChild_ids (hx : parentChild.status x ≠ .aborted) :
    x = 10 ∨ x = 11 ∨ x = 1 ∨ x = 2 := by
  by_contra hno
  simp_all [parentChild]

/-- The subtransaction is found running in a snapshot that has its parent only. -/
theorem xidInMVCCSnapshot_stores_overflowed :
    xidInMVCCSnapshot parentChild ⟨none, 10, fun _ => (0, 0), fun _ => false, fun _ => false⟩ 3 11
      ⟨10, 12, [10], [], true, false, 0⟩ = .ok true := by
  have hrun : RunningAt parentChild 0 10 12 10 (· = 10) := by
    refine ⟨fun x hx => ?_, by simp [InHalf],
      fun x => ?_, by decide, by rintro t rfl; decide, by decide⟩
    · obtain rfl | rfl | rfl | rfl := parentChild_ids hx <;> simp [InHalf]
    · obtain rfl | hx := eq_or_ne x 11
      · exact Or.inr (by decide)
      · exact Or.inl (if_neg hx)
  have hfuel : parentChild.depth 11 + 2 ≤ 3 := by decide
  obtain ⟨answer, hiff, heq⟩ :=
    xidInMVCCSnapshot_stores (b := ⟨none, 10, fun _ => (0, 0), fun _ => false, fun _ => false⟩) hrun
      (by decide) hfuel
  rw [heq, hiff.2 (Or.inr rfl)]
  · rfl
  · rfl
  · intro x hx _
    obtain rfl | rfl | rfl | rfl := parentChild_ids hx <;> simp [StoresAt, parentChild, Recorded]
    decide

/-! ## Visible transactions -/

/-- The work that the transaction did in the command is visible: done by an earlier command of the
backend's own transaction, or by a transaction that committed and had ended when the snapshot was
taken. -/
def Visible (h : History) (b : Backend) (snapshot : SnapshotData) (ended : TransactionId → Prop)
    (x : TransactionId) (cid : CommandId) : Prop :=
  (transactionIdIsCurrentTransactionId h b x = true ∧ cid.toNat < snapshot.curcid.toNat) ∨
    (h.status x = .committed ∧ ended (h.top x))

/-- A transaction of the backend that is not current is aborted. -/
theorem not_mine (hs : SnapshotOf h b snapshot ended)
    (hcur : transactionIdIsCurrentTransactionId h b x = false) (hx : h.status x ≠ .aborted) :
    ¬ Mine h b x := by
  intro hmine
  rw [← Bool.not_eq_true, isCurrent_iff] at hcur
  have hown := hs.own _ hmine
  cases hst : h.status x with
  | inProgress => exact hcur ⟨hmine, hst⟩
  | committed =>
    rw [h.committed_top x hst] at hown
    cases hown
  | aborted => exact hx hst

theorem visible_current {cid : CommandId}
    (hcur : transactionIdIsCurrentTransactionId h b x = true) :
    Visible h b snapshot ended x cid ↔ cid.toNat < snapshot.curcid.toNat := by
  have hst := (isCurrent_iff.1 hcur).2
  rw [Visible, hst]
  simp [hcur]

theorem not_visible_aborted {cid : CommandId} (hx : h.status x = .aborted) :
    ¬ Visible h b snapshot ended x cid := by
  have hcur := not_current_of_status b (by rw [hx]; decide)
  rw [Visible, hcur, hx]
  simp

/-- What the code finds out about a transaction that is not its own. -/
theorem visible_iff (hs : SnapshotOf h b snapshot ended) (cid : CommandId)
    (hfuel : h.depth x + 2 ≤ fuel) (hcur : transactionIdIsCurrentTransactionId h b x = false) :
    ∃ running, xidInMVCCSnapshot h b fuel x snapshot = .ok running ∧
      (Visible h b snapshot ended x cid ↔ running = false ∧ h.status x = .committed) ∧
      (running = false → h.status x ≠ .inProgress) := by
  by_cases hx : h.status x = .aborted
  · obtain ⟨running, hrun⟩ := xidInMVCCSnapshot_returns b snapshot hfuel
    refine ⟨running, hrun, ?_, fun _ => by rw [hx]; decide⟩
    simp [not_visible_aborted hx, hx]
  · obtain ⟨running, hrun, hiff⟩ := xidInMVCCSnapshot_eq hs hfuel (not_mine hs hcur hx) hx
    have hended : running = false ↔ ended (h.top x) := by
      rw [← Bool.not_eq_true, hiff, not_not]
    refine ⟨running, hrun, ?_, fun hfalse => hs.final x (hended.1 hfalse)⟩
    rw [Visible, hcur, hended]
    simp [and_comm]

/-- Frozen tuples are older than every snapshot. -/
theorem visible_frozen (hs : SnapshotOf h b snapshot ended) (cid : CommandId) :
    Visible h b snapshot ended frozenTransactionId cid := by
  have hst := h.frozen_committed
  have hcur : transactionIdIsCurrentTransactionId h b frozenTransactionId = false :=
    not_current_of_status b (by rw [hst]; decide)
  have hmine := not_mine hs hcur (by rw [hst]; decide)
  refine Or.inr ⟨hst, hs.below _ hmine ?_⟩
  have hxmin := hs.xmin_normal
  have hfrozen : transactionIdIsNormal frozenTransactionId = false := by decide
  rw [transactionIdIsNormal, decide_eq_true_eq] at hxmin
  rw [transactionIdPrecedes, if_pos (Or.inl hfrozen), decide_eq_true_eq]
  exact Nat.lt_of_lt_of_le (by decide) hxmin

end GreenPipeline.L2.Snapshot
