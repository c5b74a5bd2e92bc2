import GreenPipeline.L2Access.Visibility

/-!
# VACUUM removes nothing that a snapshot sees

`HeapTupleSatisfiesVacuum` says whether a tuple is dead to everybody, and `HeapTupleIsSurelyDead`
guesses it from the hint bits alone (`src/backend/utils/time/tqual.c`). Both compare a committed
deleter with `OldestXmin`, which is not after any live snapshot's `xmin`. For a tuple that an old
VACUUM FULL moved away they do not: that the mover has committed is enough.

Results:

* `heapTupleSatisfiesVacuum_spec`: the function leaves truthful hint bits, and a dead tuple has
  one of the causes in `DeathCause`; `DeathCause.of_surelyDead` is the same for the guess.
* `DeathCause.hides`: each cause hides the tuple.
* `dead_invisible`: a dead tuple is invisible to every snapshot that is not older than
  `OldestXmin` and, for a tuple moved away, not older than the end of the move.
* `dead_visible_moved`: without the last condition a snapshot still sees it.
-/
namespace GreenPipeline.L2.Tqual

open GreenPipeline.Core.Flags GreenPipeline.L2.Transam GreenPipeline.L2.Subtrans
  GreenPipeline.L2.HeapTuple
open GreenPipeline.L2.Snapshot

/-! ## The functions -/

/-- mirrors src/include/utils/tqual.h:49-56 -/
inductive HTSVResult where
  | dead
  | live
  | recentlyDead
  | insertInProgress
  | deleteInProgress
  deriving DecidableEq

/-- mirrors src/backend/access/transam/multixact.c:549-607 -/
def multiXactIdIsRunning (h : History) (b : Backend) (multi : MultiXactId)
    (isLockOnly : Bool) : Bool :=
  let members := getMultiXactIdMembers h.members b.lockerTooOld multi isLockOnly
  members.any (fun member => transactionIdIsCurrentTransactionId h b member.xid) ||
    members.any (fun member => transactionIdIsInProgress h member.xid)

/-- mirrors tqual.c:1573-1617 -/
def heapTupleHeaderIsOnlyLocked (h : History) (b : Backend) (tuple : HeapTupleHeader) : Bool :=
  if has tuple.infomask heapXmaxInvalid then true
  else if has tuple.infomask heapXmaxLockOnly then true
  else if transactionIdIsValid tuple.xmax = false then true
  else if has tuple.infomask heapXmaxIsMulti = false then false
  else
    let xmax := heapTupleGetUpdateXid h.members tuple
    if transactionIdIsCurrentTransactionId h b xmax then false
    else if transactionIdIsInProgress h xmax then false
    else if transactionIdDidCommit h xmax then false
    else true

/-- Where the part about the inserter ends. -/
inductive VacuumStage where
  | answer (result : HTSVResult) (tuple : HeapTupleHeader)
  | inserted (tuple : HeapTupleHeader)

/-- mirrors tqual.c:1176-1262 -/
def vacuumInserter (h : History) (b : Backend) (tuple : HeapTupleHeader) : VacuumStage :=
  if tuple.xminCommitted = false then
    if tuple.xminInvalid then .answer .dead tuple
    else if has tuple.infomask heapMovedOff then
      let xvac := tuple.getXvac
      if transactionIdIsCurrentTransactionId h b xvac then .answer .deleteInProgress tuple
      else if transactionIdIsInProgress h xvac then .answer .deleteInProgress tuple
      else if transactionIdDidCommit h xvac then
        .answer .dead (setHintBits b tuple heapXminInvalid invalidTransactionId)
      else .inserted (setHintBits b tuple heapXminCommitted invalidTransactionId)
    else if has tuple.infomask heapMovedIn then
      let xvac := tuple.getXvac
      if transactionIdIsCurrentTransactionId h b xvac then .answer .insertInProgress tuple
      else if transactionIdIsInProgress h xvac then .answer .insertInProgress tuple
      else if transactionIdDidCommit h xvac then
        .inserted (setHintBits b tuple heapXminCommitted invalidTransactionId)
      else .answer .dead (setHintBits b tuple heapXminInvalid invalidTransactionId)
    else if transactionIdIsCurrentTransactionId h b tuple.xmin then
      if has tuple.infomask heapXmaxInvalid then .answer .insertInProgress tuple
      else if heapXmaxIsLockedOnly tuple.infomask || heapTupleHeaderIsOnlyLocked h b tuple then
        .answer .insertInProgress tuple
      else if transactionIdIsCurrentTransactionId h b (tuple.getUpdateXid h.members) then
        .answer .deleteInProgress tuple
      else .answer .insertInProgress tuple
    else if transactionIdIsInProgress h tuple.xmin then .answer .insertInProgress tuple
    else if transactionIdDidCommit h tuple.xmin then
      .inserted (setHintBits b tuple heapXminCommitted tuple.xmin)
    else .answer .dead (setHintBits b tuple heapXminInvalid invalidTransactionId)
  else .inserted tuple

/-- A locker only: the hint is set once it is gone.
mirrors tqual.c:1271-1312 -/
def vacuumLocker (h : History) (b : Backend) (tuple : HeapTupleHeader) :
    HTSVResult × HeapTupleHeader :=
  if has tuple.infomask heapXmaxCommitted = false then
    if has tuple.infomask heapXmaxIsMulti then
      if !heapLockedUpgraded tuple.infomask && multiXactIdIsRunning h b tuple.xmax true then
        (.live, tuple)
      else (.live, setHintBits b tuple heapXmaxInvalid invalidTransactionId)
    else if transactionIdIsInProgress h tuple.xmax then (.live, tuple)
    else (.live, setHintBits b tuple heapXmaxInvalid invalidTransactionId)
  else (.live, tuple)

/-- mirrors tqual.c:1314-1350 -/
def vacuumUpdater (h : History) (b : Backend) (oldestXmin : TransactionId)
    (tuple : HeapTupleHeader) :
    HTSVResult × HeapTupleHeader :=
  let xmax := heapTupleGetUpdateXid h.members tuple
  if transactionIdIsInProgress h xmax then (.deleteInProgress, tuple)
  else if transactionIdDidCommit h xmax then
    if transactionIdPrecedes xmax oldestXmin = false then (.recentlyDead, tuple) else (.dead, tuple)
  else if multiXactIdIsRunning h b tuple.xmax false = false then
    (.live, setHintBits b tuple heapXmaxInvalid invalidTransactionId)
  else (.live, tuple)

/-- The end of the function, when the deleter has committed.
mirrors tqual.c:1375-1381 -/
def vacuumDeleted (oldestXmin : TransactionId) (tuple : HeapTupleHeader) :
    HTSVResult × HeapTupleHeader :=
  if transactionIdPrecedes tuple.xmax oldestXmin = false then (.recentlyDead, tuple)
  else (.dead, tuple)

/-- mirrors tqual.c:1352-1381 -/
def vacuumXmax (h : History) (b : Backend) (oldestXmin : TransactionId) (tuple : HeapTupleHeader) :
    HTSVResult × HeapTupleHeader :=
  if has tuple.infomask heapXmaxCommitted = false then
    if transactionIdIsInProgress h tuple.xmax then (.deleteInProgress, tuple)
    else if transactionIdDidCommit h tuple.xmax then
      vacuumDeleted oldestXmin (setHintBits b tuple heapXmaxCommitted tuple.xmax)
    else (.live, setHintBits b tuple heapXmaxInvalid invalidTransactionId)
  else vacuumDeleted oldestXmin tuple

/-- mirrors tqual.c:1264-1381 -/
def vacuumDeleter (h : History) (b : Backend) (oldestXmin : TransactionId)
    (tuple : HeapTupleHeader) :
    HTSVResult × HeapTupleHeader :=
  if has tuple.infomask heapXmaxInvalid then (.live, tuple)
  else if heapXmaxIsLockedOnly tuple.infomask then vacuumLocker h b tuple
  else if has tuple.infomask heapXmaxIsMulti then vacuumUpdater h b oldestXmin tuple
  else vacuumXmax h b oldestXmin tuple

/-- mirrors tqual.c:1161-1382 -/
def heapTupleSatisfiesVacuum (h : History) (b : Backend) (oldestXmin : TransactionId)
    (tuple : HeapTupleHeader) :
    HTSVResult × HeapTupleHeader :=
  match vacuumInserter h b tuple with
  | .answer result tuple => (result, tuple)
  | .inserted tuple => vacuumDeleter h b oldestXmin tuple

/-- mirrors tqual.c:1397-1440 -/
def heapTupleIsSurelyDead (oldestXmin : TransactionId) (tuple : HeapTupleHeader) : Bool :=
  if tuple.xminCommitted = false then tuple.xminInvalid
  else if has tuple.infomask heapXmaxInvalid then false
  else if heapXmaxIsLockedOnly tuple.infomask then false
  else if has tuple.infomask heapXmaxIsMulti then false
  else if has tuple.infomask heapXmaxCommitted = false then false
  else transactionIdPrecedes tuple.xmax oldestXmin

variable {h h' : History} {b b' : Backend} {oldestXmin : TransactionId}
  {snapshot : SnapshotData} {fuel : Nat}
variable {tuple tuple' : HeapTupleHeader}

/-! ## Why a tuple is dead -/

/-- The inserter is settled: hinted, moved by a transaction that is settled, or committed. -/
def InserterSettled (h : History) (tuple : HeapTupleHeader) : Prop :=
  tuple.moved = true ∨ tuple.xminCommitted = true ∨ h.status tuple.xmin = .committed

inductive DeathCause (h : History) (oldestXmin : TransactionId) (tuple : HeapTupleHeader) : Prop
  | hinted (hbit : tuple.xminInvalid = true)
  | movedOff (hbit : tuple.xminCommitted = false) (hoff : has tuple.infomask heapMovedOff = true)
      (hst : h.status tuple.getXvac = .committed)
  | notMovedIn (hbit : tuple.xminCommitted = false) (hoff : has tuple.infomask heapMovedOff = false)
      (hin : has tuple.infomask heapMovedIn = true) (hst : h.status tuple.getXvac = .aborted)
  | aborted (hbit : tuple.xminCommitted = false) (hmoved : tuple.moved = false)
      (hst : h.status tuple.xmin = .aborted)
  | deleted (d : TransactionId) (hd : tuple.deleter h.members = some d)
      (hst : h.status d = .committed)
      (hold : transactionIdPrecedes d oldestXmin = true) (hins : InserterSettled h tuple)

theorem moved_of_off (hoff : has tuple.infomask heapMovedOff = true) : tuple.moved = true := by
  rw [HeapTupleHeader.moved, hoff, Bool.true_or]

theorem moved_of_in (hin : has tuple.infomask heapMovedIn = true) : tuple.moved = true := by
  rw [HeapTupleHeader.moved, hin, Bool.or_true]

/-- What the part about the inserter leaves to the other one. -/
def VacuumStageAnswer (h : History) (oldestXmin : TransactionId) (tuple : HeapTupleHeader) :
    VacuumStage → Prop
  | .answer result tuple' => Kept h tuple tuple' ∧ (result = .dead → DeathCause h oldestXmin tuple)
  | .inserted tuple' => Kept h tuple tuple' ∧ InserterSettled h tuple

/-- No hint is asked of a moved tuple. -/
theorem moved_absurd {P : Prop} (hmoved : tuple.moved = true) : tuple.moved = false → P := by
  intro hnot
  rw [hmoved] at hnot
  cases hnot

theorem VacuumStageAnswer.notDead (ht : Truthful h tuple) {result : HTSVResult}
    (hne : result ≠ .dead) :
    VacuumStageAnswer h oldestXmin tuple (.answer result tuple) :=
  ⟨.refl ht, fun hdead => absurd hdead hne⟩

variable {x : TransactionId}

theorem aborted_of_not (hprog : ¬ transactionIdIsInProgress h x = true)
    (hdid : ¬ transactionIdDidCommit h x = true) : h.status x = .aborted := by
  rw [isInProgress_iff] at hprog
  rw [didCommit_iff] at hdid
  cases hst : h.status x with
  | inProgress => exact absurd hst hprog
  | committed => exact absurd hst hdid
  | aborted => rfl

/-- A tuple without `xmin` hint. -/
theorem vacuumInserter_unhinted (ht : Truthful h tuple) (hcom : tuple.xminCommitted = false)
    (hinv : tuple.xminInvalid = false) :
    VacuumStageAnswer h oldestXmin tuple (vacuumInserter h b tuple) := by
  simp only [vacuumInserter, hcom, hinv, Bool.false_eq_true, if_true, if_false]
  cases hoff : has tuple.infomask heapMovedOff with
  | true =>
    have hmoved := moved_of_off hoff
    rw [if_pos rfl]
    split_ifs with hcur hprog hdid
    · exact .notDead ht (by decide)
    · exact .notDead ht (by decide)
    · exact ⟨.setXminInvalid ht b _ hcom (moved_absurd hmoved),
        fun _ => .movedOff hcom hoff (didCommit_iff.1 hdid)⟩
    · exact ⟨.setXminCommitted ht b _ hcom hinv (moved_absurd hmoved), Or.inl hmoved⟩
  | false =>
    rw [if_neg (by simp)]
    cases hin : has tuple.infomask heapMovedIn with
    | true =>
      have hmoved := moved_of_in hin
      rw [if_pos rfl]
      split_ifs with hcur hprog hdid
      · exact .notDead ht (by decide)
      · exact .notDead ht (by decide)
      · exact ⟨.setXminCommitted ht b _ hcom hinv (moved_absurd hmoved), Or.inl hmoved⟩
      · exact ⟨.setXminInvalid ht b _ hcom (moved_absurd hmoved),
          fun _ => .notMovedIn hcom hoff hin (aborted_of_not hprog hdid)⟩
    | false =>
      have hmoved : tuple.moved = false := by rw [HeapTupleHeader.moved, hoff, hin, Bool.or_false]
      rw [if_neg (by simp)]
      split_ifs with hcur hxmax hlock hupd hprog hdid
      · exact .notDead ht (by decide)
      · exact .notDead ht (by decide)
      · exact .notDead ht (by decide)
      · exact .notDead ht (by decide)
      · exact .notDead ht (by decide)
      · have hst := didCommit_iff.1 hdid
        exact ⟨.setXminCommitted ht b _ hcom hinv fun _ => hst, Or.inr (Or.inr hst)⟩
      · have hst := aborted_of_not hprog hdid
        exact ⟨.setXminInvalid ht b _ hcom fun _ => hst, fun _ => .aborted hcom hmoved hst⟩

theorem vacuumInserter_spec (ht : Truthful h tuple) :
    VacuumStageAnswer h oldestXmin tuple (vacuumInserter h b tuple) := by
  cases hcom : tuple.xminCommitted with
  | true =>
    rw [vacuumInserter, if_neg (by simp [hcom])]
    exact ⟨.refl ht, Or.inr (Or.inl hcom)⟩
  | false =>
    cases hinv : tuple.xminInvalid with
    | true =>
      rw [vacuumInserter, if_pos hcom, if_pos hinv]
      exact ⟨.refl ht, fun _ => .hinted hinv⟩
    | false => exact vacuumInserter_unhinted ht hcom hinv

/-- What the part about the deleter answers: a dead tuple has an old deleter that committed. -/
def VacuumAnswer (h : History) (oldestXmin : TransactionId) (tuple : HeapTupleHeader)
    (result : HTSVResult × HeapTupleHeader) : Prop :=
  Kept h tuple result.2 ∧
    (result.1 = .dead → ∃ d, tuple.deleter h.members = some d ∧ h.status d = .committed ∧
    transactionIdPrecedes d oldestXmin = true)

theorem VacuumAnswer.notDead (hkept : Kept h tuple tuple') {result : HTSVResult}
    (hne : result ≠ .dead) :
    VacuumAnswer h oldestXmin tuple (result, tuple') :=
  ⟨hkept, fun hdead => absurd hdead hne⟩

/-- A locker deletes nothing, so the hint that it is gone is true. -/
theorem vacuumLocker_spec (ht : Truthful h tuple)
    (hlock : heapXmaxIsLockedOnly tuple.infomask = true) :
    VacuumAnswer h oldestXmin tuple (vacuumLocker h b tuple) := by
  have hset : Kept h tuple (setHintBits b tuple heapXmaxInvalid invalidTransactionId) := by
    refine .setXmaxInvalid ht b _ fun d hd => ?_
    rw [deleter_lockedOnly _ hlock] at hd
    cases hd
  unfold vacuumLocker
  split_ifs
  · exact .notDead (.refl ht) (by decide)
  · exact .notDead hset (by decide)
  · exact .notDead (.refl ht) (by decide)
  · exact .notDead hset (by decide)
  · exact .notDead (.refl ht) (by decide)

theorem vacuumUpdater_spec (ht : Truthful h tuple)
    (hd : tuple.deleter h.members = some (heapTupleGetUpdateXid h.members tuple)) :
    VacuumAnswer h oldestXmin tuple (vacuumUpdater h b oldestXmin tuple) := by
  simp only [vacuumUpdater]
  split_ifs with hprog hdid hold hrun
  · exact .notDead (.refl ht) (by decide)
  · exact .notDead (.refl ht) (by decide)
  · exact ⟨.refl ht, fun _ => ⟨_, hd, didCommit_iff.1 hdid, by simpa using hold⟩⟩
  · refine .notDead (.setXmaxInvalid ht b _ fun d hd' => ?_) (by decide)
    rw [hd, Option.some_inj] at hd'
    rw [← hd', aborted_of_not hprog hdid]
  · exact .notDead (.refl ht) (by decide)

theorem vacuumDeleted_spec (hkept : Kept h tuple tuple')
    (hd : tuple.deleter h.members = some tuple.xmax) (hst : h.status tuple.xmax = .committed) :
    VacuumAnswer h oldestXmin tuple (vacuumDeleted oldestXmin tuple') := by
  unfold vacuumDeleted
  split_ifs with hold
  · exact .notDead hkept (by decide)
  · rw [hkept.1.xmax, Bool.not_eq_false] at hold
    exact ⟨hkept, fun _ => ⟨_, hd, hst, hold⟩⟩

section

variable (ht : Truthful h tuple)
include ht

theorem vacuumXmax_spec (hd : tuple.deleter h.members = some tuple.xmax) :
    VacuumAnswer h oldestXmin tuple (vacuumXmax h b oldestXmin tuple) := by
  unfold vacuumXmax
  split_ifs with hhint hprog hdid
  · exact .notDead (.refl ht) (by decide)
  · have hst := didCommit_iff.1 hdid
    refine vacuumDeleted_spec (.setXmaxCommitted ht b _ fun d hd' => ?_) hd hst
    rw [hd, Option.some_inj] at hd'
    rw [← hd', hst]
  · refine .notDead (.setXmaxInvalid ht b _ fun d hd' => ?_) (by decide)
    rw [hd, Option.some_inj] at hd'
    rw [← hd', aborted_of_not hprog hdid]
  · rw [Bool.not_eq_false] at hhint
    exact vacuumDeleted_spec (.refl ht) hd (ht.xmaxCommitted hhint _ hd)

theorem vacuumDeleter_spec :
    VacuumAnswer h oldestXmin tuple (vacuumDeleter h b oldestXmin tuple) := by
  unfold vacuumDeleter
  split_ifs with hinv hlock hmulti
  · exact .notDead (.refl ht) (by decide)
  · exact vacuumLocker_spec ht hlock
  · exact vacuumUpdater_spec ht (deleter_multi _ (by simpa using hlock) hmulti)
  · exact vacuumXmax_spec ht (deleter_single _ (by simpa using hlock) (by simpa using hmulti))

/-- The hint bits that the function leaves are truthful, and a dead tuple has a cause. -/
theorem heapTupleSatisfiesVacuum_spec :
    Kept h tuple (heapTupleSatisfiesVacuum h b oldestXmin tuple).2 ∧
    ((heapTupleSatisfiesVacuum h b oldestXmin tuple).1 = .dead →
      DeathCause h oldestXmin tuple) := by
  have hstage : VacuumStageAnswer h oldestXmin tuple (vacuumInserter h b tuple) :=
    vacuumInserter_spec ht
  unfold heapTupleSatisfiesVacuum
  cases heq : vacuumInserter h b tuple with
  | answer result tuple' =>
    rw [heq] at hstage
    exact hstage
  | inserted tuple' =>
    rw [heq] at hstage
    obtain ⟨hkept, hins⟩ := hstage
    obtain ⟨hkept', hcause⟩ :
        VacuumAnswer h oldestXmin tuple' (vacuumDeleter h b oldestXmin tuple') :=
      vacuumDeleter_spec hkept.2
    refine ⟨hkept.trans hkept', fun hdead => ?_⟩
    obtain ⟨d, hd, hst, hold⟩ := hcause hdead
    rw [hkept.1.deleter_eq] at hd
    exact .deleted d hd hst hold hins

theorem DeathCause.of_surelyDead (hdead : heapTupleIsSurelyDead oldestXmin tuple = true) :
    DeathCause h oldestXmin tuple := by
  unfold heapTupleIsSurelyDead at hdead
  split_ifs at hdead with hcom hinv hlock hmulti hhint
  · exact .hinted hdead
  · rw [Bool.not_eq_false] at hcom hhint
    have hd : tuple.deleter h.members = some tuple.xmax :=
      deleter_single _ (by simpa using hlock) (by simpa using hmulti)
    exact .deleted tuple.xmax hd (ht.xmaxCommitted hhint _ hd) hdead (Or.inr (Or.inl hcom))

end

/-! ## What a snapshot sees of a dead tuple -/

/-- A later history: what has ended stays as it is. -/
structure Later (h h' : History) : Prop where
  status : ∀ x, h.status x ≠ .inProgress → h'.status x = h.status x
  members : h'.members = h.members

theorem Later.committed (hlater : Later h h') (hst : h.status x = .committed) :
    h'.status x = .committed := by
  rw [hlater.status x (by rw [hst]; decide), hst]

theorem Later.aborted (hlater : Later h h') (hst : h.status x = .aborted) :
    h'.status x = .aborted := by
  rw [hlater.status x (by rw [hst]; decide), hst]

/-- An old deleter that committed hides the tuple. -/
theorem mvccDeleter_hidden (ht : Truthful h tuple) {d : TransactionId}
    (hd : tuple.deleter h.members = some d) (hst : h.status d = .committed)
    (hold : transactionIdPrecedes d snapshot.xmin = true) :
    ∃ tuple', mvccDeleter h b fuel snapshot tuple = .ok (false, tuple') := by
  have hcur := not_current_of_status b (by rw [hst]; decide)
  have hrun := xidInMVCCSnapshot_below h b fuel hold
  have hdid := didCommit_iff.2 hst
  have hinv : has tuple.infomask heapXmaxInvalid = false := by
    rw [← Bool.not_eq_true]
    intro hbit
    rw [ht.xmaxInvalid hbit d hd] at hst
    cases hst
  cases hlock : heapXmaxIsLockedOnly tuple.infomask with
  | true =>
    rw [deleter_lockedOnly _ hlock] at hd
    cases hd
  | false =>
    simp only [mvccDeleter, hinv, hlock, Bool.false_eq_true, if_false]
    cases hmulti : has tuple.infomask heapXmaxIsMulti with
    | true =>
      rw [deleter_multi _ hlock hmulti, Option.some_inj] at hd
      refine ⟨tuple, ?_⟩
      simp [mvccUpdater, hd, hcur, hrun, hdid, Except.bind]
    | false =>
      rw [deleter_single _ hlock hmulti, Option.some_inj] at hd
      simp only [mvccXmax, hd, hcur, hrun, hdid, Except.bind, Bool.false_eq_true, if_false,
        Bool.true_eq_false]
      split
      · exact ⟨_, rfl⟩
      · exact ⟨_, rfl⟩

/-- The part about the inserter hides the tuple or leaves it to the other part. -/
def HiddenOrInserted (h : History) (tuple : HeapTupleHeader)
    (result : Except SearchError InserterResult) : Prop :=
  (∃ tuple', result = .ok (.answer false tuple')) ∨ ∃ tuple', result = .ok (.inserted tuple') ∧
    Kept h tuple tuple'

/-- A moved tuple without hint: whether the mover's transaction counts decides. -/
theorem mvccInserter_moved (ht : Truthful h tuple) (hfuel : h.depth tuple.getXvac + 2 ≤ fuel)
    (hmoved : tuple.moved = true) (hcom : tuple.xminCommitted = false)
    (hinv : tuple.xminInvalid = false) :
    HiddenOrInserted h tuple (mvccInserter h b fuel snapshot tuple) := by
  obtain ⟨running, hrun⟩ := xidInMVCCSnapshot_returns b snapshot hfuel
  have hset := Kept.setXminCommitted ht b invalidTransactionId hcom hinv (moved_absurd hmoved)
  simp only [mvccInserter, hcom, hinv, hrun, Except.bind, Bool.false_eq_true, if_true, if_false]
  cases hoff : has tuple.infomask heapMovedOff with
  | true =>
    rw [if_pos rfl]
    split_ifs
    · exact Or.inl ⟨_, rfl⟩
    · exact Or.inr ⟨_, rfl, .refl ht⟩
    · exact Or.inl ⟨_, rfl⟩
    · exact Or.inr ⟨_, rfl, hset⟩
  | false =>
    have hin : has tuple.infomask heapMovedIn = true := by
      rwa [HeapTupleHeader.moved, hoff, Bool.false_or] at hmoved
    rw [if_neg (by simp), if_pos hin]
    split_ifs
    · exact Or.inr ⟨_, rfl, .refl ht⟩
    · exact Or.inl ⟨_, rfl⟩
    · exact Or.inr ⟨_, rfl, hset⟩
    · exact Or.inl ⟨_, rfl⟩

/-- A tuple that no transaction in progress inserted. -/
theorem mvccInserter_settled (ht : Truthful h tuple)
    (hfuel : h.depth tuple.xmin + h.depth tuple.getXvac + 2 ≤ fuel)
    (hsettled : tuple.moved = false → tuple.xminCommitted = false →
      h.status tuple.xmin ≠ .inProgress) :
    HiddenOrInserted h tuple (mvccInserter h b fuel snapshot tuple) := by
  obtain ⟨running, hrun⟩ : ∃ running,
      xidInMVCCSnapshot h b fuel tuple.xmin snapshot = .ok running :=
    xidInMVCCSnapshot_returns b snapshot (by omega)
  cases hcom : tuple.xminCommitted with
  | true =>
    simp only [mvccInserter, hcom, hrun, Except.bind, Bool.true_eq_false, if_false]
    split_ifs
    · exact Or.inl ⟨_, rfl⟩
    · exact Or.inr ⟨_, rfl, .refl ht⟩
    · exact Or.inr ⟨_, rfl, .refl ht⟩
  | false =>
    cases hinv : tuple.xminInvalid with
    | true => exact Or.inl ⟨tuple, by rw [mvccInserter, if_pos hcom, if_pos hinv]⟩
    | false =>
      cases hmoved : tuple.moved with
      | true => exact mvccInserter_moved ht (by omega) hmoved hcom hinv
      | false =>
        have hcur := not_current_of_status b (hsettled hmoved hcom)
        obtain ⟨hoff, hin⟩ := Bool.or_eq_false_iff.1 hmoved
        simp only [mvccInserter, hcom, hinv, hoff, hin, hcur, hrun, Except.bind, Bool.false_eq_true,
          if_true, if_false]
        split_ifs with hrunning hdid
        · exact Or.inl ⟨_, rfl⟩
        · exact Or.inr ⟨_, rfl, .setXminCommitted ht b _ hcom hinv fun _ => didCommit_iff.1 hdid⟩
        · exact Or.inl ⟨_, rfl⟩

/-- The function hides the tuple. -/
def Hides (h : History) (b : Backend) (fuel : Nat) (snapshot : SnapshotData)
    (tuple : HeapTupleHeader) : Prop :=
  ∃ tuple', heapTupleSatisfiesMVCC h b fuel snapshot tuple = .ok (false, tuple')

theorem Hides.of_inserter
    (hins : ∃ tuple', mvccInserter h b fuel snapshot tuple = .ok (.answer false tuple')) :
    Hides h b fuel snapshot tuple := by
  obtain ⟨tuple', heq⟩ := hins
  exact ⟨tuple', by rw [heapTupleSatisfiesMVCC, heq]; rfl⟩

theorem hides_deleted (ht : Truthful h tuple)
    (hfuel : h.depth tuple.xmin + h.depth tuple.getXvac + 2 ≤ fuel)
    (hsettled : tuple.moved = false → tuple.xminCommitted = false →
      h.status tuple.xmin ≠ .inProgress) {d : TransactionId}
    (hd : tuple.deleter h.members = some d) (hst : h.status d = .committed)
    (hold : transactionIdPrecedes d snapshot.xmin = true) : Hides h b fuel snapshot tuple := by
  have hins : HiddenOrInserted h tuple (mvccInserter h b fuel snapshot tuple) :=
    mvccInserter_settled ht hfuel hsettled
  obtain ⟨tuple', heq⟩ | ⟨tuple', heq, hkept⟩ := hins
  · exact .of_inserter ⟨tuple', heq⟩
  · rw [← hkept.1.deleter_eq] at hd
    obtain ⟨tuple'', hdel⟩ : ∃ tuple'',
        mvccDeleter h b fuel snapshot tuple' = .ok (false, tuple'') :=
      mvccDeleter_hidden hkept.2 hd hst hold
    exact ⟨tuple'', by rw [heapTupleSatisfiesMVCC, heq]; exact hdel⟩

theorem not_didCommit_of_aborted (hst : h.status x = .aborted) :
    transactionIdDidCommit h x = false := by
  rw [transactionIdDidCommit, hst]
  rfl

/-- A tuple that was not moved and whose inserter aborted. -/
theorem hides_aborted (ht : Truthful h tuple) (hfuel : h.depth tuple.xmin + 2 ≤ fuel)
    (hmoved : tuple.moved = false) (hfrozen : tuple.xminFrozen = false)
    (hst : h.status tuple.xmin = .aborted) : Hides h b fuel snapshot tuple := by
  have hcom : tuple.xminCommitted = false := by
    rw [← Bool.not_eq_true]
    intro hbit
    rw [ht.xminCommitted hmoved hbit hfrozen] at hst
    cases hst
  obtain ⟨running, hrun⟩ := xidInMVCCSnapshot_returns b snapshot hfuel
  have hcur := not_current_of_status b (by rw [hst]; decide)
  have hdid := not_didCommit_of_aborted hst
  obtain ⟨hoff, hin⟩ := Bool.or_eq_false_iff.1 hmoved
  refine .of_inserter ?_
  simp only [mvccInserter, hcom, hoff, hin, hcur, hrun, hdid, Except.bind, Bool.false_eq_true,
    if_true, if_false]
  split_ifs
  · exact ⟨_, rfl⟩
  · exact ⟨_, rfl⟩
  · exact ⟨_, rfl⟩

/-- The snapshot does not count the transaction as in progress. -/
def NotRunning (h : History) (b : Backend) (snapshot : SnapshotData) (x : TransactionId) : Prop :=
  ∀ fuel, xidInMVCCSnapshot h b fuel x snapshot ≠ .ok true

section

variable (hfuel : h.depth tuple.getXvac + 2 ≤ fuel) (hcom : tuple.xminCommitted = false)
include hfuel hcom

theorem hides_movedOff (hoff : has tuple.infomask heapMovedOff = true)
    (hst : h.status tuple.getXvac = .committed) (hsnap : NotRunning h b snapshot tuple.getXvac) :
    Hides h b fuel snapshot tuple := by
  obtain ⟨running, hrun⟩ := xidInMVCCSnapshot_returns b snapshot hfuel
  have hnot : running = false := by
    rw [← Bool.not_eq_true]
    intro htrue
    rw [htrue] at hrun
    exact hsnap fuel hrun
  have hcur := not_current_of_status b (by rw [hst]; decide)
  refine .of_inserter ?_
  simp only [mvccInserter, hcom, hoff, hcur, hrun, hnot, didCommit_iff.2 hst, Except.bind,
    Bool.false_eq_true, if_true, if_false]
  split_ifs
  · exact ⟨_, rfl⟩
  · exact ⟨_, rfl⟩

theorem hides_notMovedIn (hoff : has tuple.infomask heapMovedOff = false)
    (hin : has tuple.infomask heapMovedIn = true) (hst : h.status tuple.getXvac = .aborted) :
    Hides h b fuel snapshot tuple := by
  obtain ⟨running, hrun⟩ := xidInMVCCSnapshot_returns b snapshot hfuel
  have hcur := not_current_of_status b (by rw [hst]; decide)
  have hdid := not_didCommit_of_aborted hst
  refine .of_inserter ?_
  simp only [mvccInserter, hcom, hoff, hin, hcur, hrun, hdid, Except.bind, Bool.false_eq_true,
    if_true, if_false]
  split_ifs
  · exact ⟨_, rfl⟩
  · exact ⟨_, rfl⟩
  · exact ⟨_, rfl⟩

end

/-- Whatever made the tuple dead hides it. -/
theorem DeathCause.hides (hcause : DeathCause h oldestXmin tuple) (hlater : Later h h')
    (ht : Truthful h tuple) (hh : Hinted tuple tuple') (ht' : Truthful h' tuple')
    (hmoved : tuple.moved = true → tuple' = tuple)
    (hxmin : transactionIdPrecedes snapshot.xmin oldestXmin = false)
    (hwindow : ∀ d, tuple.deleter h.members = some d → InWindow [d, oldestXmin, snapshot.xmin])
    (hmove : has tuple.infomask heapMovedOff = true → h.status tuple.getXvac = .committed →
      NotRunning h' b' snapshot tuple.getXvac)
    (hfuel : h'.depth tuple.xmin + h'.depth tuple.getXvac + 2 ≤ fuel) :
    Hides h' b' fuel snapshot tuple' := by
  rw [← hh.xmin, ← hh.getXvac_eq] at hfuel
  -- an aborted inserter of a tuple that was not moved
  have haborted : tuple.moved = false → tuple.xminCommitted = false →
      h.status tuple.xmin = .aborted → Hides h' b' fuel snapshot tuple' := by
    intro hnot hcom hst
    rw [← hh.moved_eq] at hnot
    refine hides_aborted ht' (by omega) hnot ?_ ?_
    · rw [hh.frozen, xminFrozen_eq, hcom, Bool.false_and]
    · rw [hh.xmin, hlater.aborted hst]
  cases hcause with
  | hinted hbit =>
    have hcom : tuple.xminCommitted = false := by
      rw [xminInvalid_eq, Bool.and_eq_true, Bool.not_eq_true'] at hbit
      exact hbit.1
    cases hmv : tuple.moved with
    | true =>
      rw [hmoved hmv]
      exact .of_inserter ⟨tuple, by rw [mvccInserter, if_pos hcom, if_pos hbit]⟩
    | false => exact haborted hmv hcom (ht.xminInvalid hmv hbit)
  | movedOff hbit hoff hst =>
    rw [hmoved (moved_of_off hoff)] at hfuel ⊢
    exact hides_movedOff (by omega) hbit hoff (hlater.committed hst) (hmove hoff hst)
  | notMovedIn hbit hoff hin hst =>
    rw [hmoved (moved_of_in hin)] at hfuel ⊢
    exact hides_notMovedIn (by omega) hbit hoff hin (hlater.aborted hst)
  | aborted hbit hmv hst => exact haborted hmv hbit hst
  | deleted d hd hst hold hins =>
    have hbefore := precedes_of_not_precedes (hwindow d hd) hold hxmin
    have hd' : tuple'.deleter h'.members = some d := by rw [hlater.members, hh.deleter_eq, hd]
    refine hides_deleted ht' hfuel ?_ hd' (hlater.committed hst) hbefore
    intro hmv hcom
    rw [hh.moved_eq] at hmv
    rw [hh.xmin]
    have hnotFrozen : tuple.xminFrozen = false := by
      rw [← hh.frozen, xminFrozen_eq, hcom, Bool.false_and]
    have hcommitted : h.status tuple.xmin = .committed := by
      obtain hm | hc | hc := hins
      · exact moved_absurd hm hmv
      · exact ht.xminCommitted hmv hc hnotFrozen
      · exact hc
    rw [hlater.committed hcommitted]
    decide

/-- VACUUM removes nothing that is still seen: a tuple that is dead for one
backend is hidden, now and later and with any truthful hint bits, from every
snapshot whose `xmin` does not precede `OldestXmin`. For a tuple that VACUUM
FULL has moved (`hmoved`) this is about the header as it was, as its hint bits
say something about the mover and not about `xmin`; and if it was moved away,
the snapshot must not count the mover as in progress (`hmove`). -/
theorem dead_invisible (h h' : History) (hlater : Later h h') (b b' : Backend)
    (oldestXmin : TransactionId) (snapshot : SnapshotData) (tuple tuple' : HeapTupleHeader)
    (ht : Truthful h tuple) (hh : Hinted tuple tuple') (ht' : Truthful h' tuple')
    (hmoved : tuple.moved = true → tuple' = tuple)
    (hdead : (heapTupleSatisfiesVacuum h b oldestXmin tuple).1 = .dead ∨
      heapTupleIsSurelyDead oldestXmin tuple = true)
    (hxmin : transactionIdPrecedes snapshot.xmin oldestXmin = false)
    (hwindow : InWindow (oldestXmin :: snapshot.xmin :: (tuple.deleter h.members).toList))
    (hmove : has tuple.infomask heapMovedOff = true → h.status tuple.getXvac = .committed →
      NotRunning h' b' snapshot tuple.getXvac) :
    ∃ n, ∀ fuel, n ≤ fuel →
      ∃ tuple'', heapTupleSatisfiesMVCC h' b' fuel snapshot tuple' = .ok (false, tuple'') := by
  refine ⟨h'.depth tuple.xmin + h'.depth tuple.getXvac + 2, fun fuel hfuel => ?_⟩
  have hcause : DeathCause h oldestXmin tuple :=
    hdead.elim (heapTupleSatisfiesVacuum_spec ht).2 (DeathCause.of_surelyDead ht)
  refine hcause.hides hlater ht hh ht' hmoved hxmin (fun d hd => ?_) hmove hfuel
  obtain ⟨base, hbase⟩ := hwindow
  refine ⟨base, fun x hx => hbase x ?_⟩
  rw [hd]
  simp only [Option.toList_some, List.mem_cons, List.not_mem_nil, or_false] at hx ⊢
  tauto

/-- VACUUM, which has no transaction id. -/
def vacuumBackend : Backend where
  me := none
  transactionXmin := 20
  comboCids := fun cid => (cid, cid)
  lockerTooOld := fun _ => false
  commitUnflushed := fun _ => false

/-- A row that a transaction before all running ones deleted. -/
theorem dead_invisible_oldDelete :
    ∃ n, ∀ fuel, n ≤ fuel →
      ∃ tuple'', heapTupleSatisfiesMVCC runningFrom20 backend21 fuel snapshot20
      ⟨10, 15, 3, heapXminCommitted⟩ = .ok (false, tuple'') := by
  refine dead_invisible runningFrom20 runningFrom20 ⟨fun _ _ => rfl, rfl⟩ vacuumBackend backend21
    20 snapshot20 ⟨10, 15, 3, heapXminCommitted⟩ ⟨10, 15, 3, heapXminCommitted⟩
    ⟨fun _ _ _ => by decide, fun _ hbit => absurd hbit (by decide),
      fun hbit => absurd hbit (by decide), fun hbit => absurd hbit (by decide)⟩
    (.refl _)
    ⟨fun _ _ _ => by decide, fun _ hbit => absurd hbit (by decide),
      fun hbit => absurd hbit (by decide), fun hbit => absurd hbit (by decide)⟩
    (fun _ => rfl) (Or.inl (by decide)) (by decide) ⟨3, fun x hx _ => ?_⟩
    (fun hoff => absurd hoff (by decide))
  have hmem : x ∈ [20#32, 20#32, 15#32] := hx
  simp only [List.mem_cons, List.not_mem_nil, or_false] at hmem
  obtain rfl | rfl | rfl := hmem
  · decide
  · decide
  · decide

/-- All before 21 has ended. -/
def moverCommitted : History :=
  flatHistory (fun x => if x = 0 then .aborted else if transactionIdPrecedes x 20 ∨ x = 20 then
    .committed else .inProgress)
    (by decide) (by decide) (by decide)

/-- A row that transaction 20 moved away. The snapshot was taken when 20 was in progress; now it
has committed, the row is dead for VACUUM although the snapshot's `xmin` does not precede
`OldestXmin`, and the snapshot sees it. -/
theorem dead_visible_moved :
    ∃ (h : History) (b b' : Backend) (oldestXmin : TransactionId) (snapshot : SnapshotData)
      (ended : TransactionId → Prop) (tuple : HeapTupleHeader), Truthful h tuple ∧
      SnapshotOf h b' snapshot ended ∧
      transactionIdPrecedes snapshot.xmin oldestXmin = false ∧
      InWindow [oldestXmin, snapshot.xmin, tuple.xmin, tuple.xmax, tuple.getXvac] ∧
      (heapTupleSatisfiesVacuum h b oldestXmin tuple).1 = .dead ∧
      ∀ fuel, heapTupleSatisfiesMVCC h b' fuel snapshot tuple = .ok (true, tuple) := by
  refine ⟨moverCommitted, vacuumBackend, backend21, 20, snapshot20, _,
    ⟨10, 0, 20, heapMovedOff ||| heapXmaxInvalid⟩,
    ⟨fun hmoved => absurd hmoved (by decide), fun hmoved => absurd hmoved (by decide),
      fun hbit => absurd hbit (by decide), ?_⟩, snapshot20_of _ _ _ (by decide) fun x hx =>
      ?_, by decide, ⟨3, fun x hx hnormal => ?_⟩, by decide, fun fuel => rfl⟩
  · intro _ d hd
    rw [← Option.some_inj.1 hd]
    decide
  · simp only [hx, true_or, if_true]
    split <;> decide
  · have hmem := hx
    simp only [List.mem_cons, List.not_mem_nil, or_false] at hmem
    obtain rfl | rfl | rfl | rfl | rfl := hmem
    · decide
    · decide
    · decide
    · exact absurd hnormal (by decide)
    · decide

end GreenPipeline.L2.Tqual
