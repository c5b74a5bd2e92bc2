import GreenPipeline.L2Access.VacuumVisibility

/-!
# Freezing a tuple

VACUUM replaces old ids in a tuple header: `heap_prepare_freeze_tuple` plans it, with
`FreezeMultiXactId` for an `xmax` that is a multixact, and `heap_execute_freeze_tuple` applies the
plan (`src/backend/access/heap/heapam.c`).

A multixact below its cutoff is replaced by its updater or dropped. One above it may have members
below the cutoff for transaction ids: it is rebuilt from the members that still matter, replaced
by the updater alone, dropped, or left as it is.

Sources: `src/backend/access/transam/multixact.c`, `src/include/access/htup_details.h`.

Results:

* `prepare_cases`: what a plan does to `xmin`, to `xmax` and to the mover of an old VACUUM FULL.
* `totallyFrozen_iff`: a tuple that is said to be totally frozen is so, unless its multixact was
  left as it is.
* `totallyFrozen_multi`: then a multixact remains.
-/
namespace GreenPipeline.L2.Freeze

open GreenPipeline.Core.Flags GreenPipeline.L2.Transam GreenPipeline.L2.HeapTuple
  GreenPipeline.L2.Snapshot GreenPipeline.L2.Tqual

/-! ## Multixacts -/

/-- What the freezing code asks other modules: the states of transactions, the members of
multixacts, and the multixact that `MultiXactIdCreateFromMembers` returns. -/
structure Env where
  history : History
  backend : Backend
  create : List MultiXactMember → MultiXactId

/-- mirrors multixact.c:3139-3145 -/
def multiXactIdPrecedes (multi1 multi2 : MultiXactId) : Bool := (multi1 - multi2).toInt < 0

/-- `GetMultiXactIdMembers` as the backend calls it. -/
def Env.members (env : Env) (multi : MultiXactId) (onlyLock : Bool) : List MultiXactMember :=
  getMultiXactIdMembers env.history.members env.backend.lockerTooOld multi onlyLock

/-- The transaction is running, perhaps as our own. -/
def running (env : Env) (xid : TransactionId) : Bool :=
  transactionIdIsCurrentTransactionId env.history env.backend xid ||
    transactionIdIsInProgress env.history xid

/-- mirrors src/include/access/heapam.h:38-48 -/
inductive LockTupleMode
  | keyShare
  | share
  | noKeyExclusive
  | exclusive
  deriving DecidableEq, Repr

/-- `MultiXactStatusLock`. mirrors heapam.c:190-198 -/
def tuplockFromMxstatus : MultiXactStatus → LockTupleMode
  | .forKeyShare => .keyShare
  | .forShare => .share
  | .forNoKeyUpdate => .noKeyExclusive
  | .forUpdate => .exclusive
  | .noKeyUpdate => .noKeyExclusive
  | .update => .exclusive

/-- The order of the modes. -/
def LockTupleMode.rank : LockTupleMode → ℕ
  | keyShare => 0
  | share => 1
  | noKeyExclusive => 2
  | exclusive => 3

def LockTupleMode.strongest (mode mode' : LockTupleMode) : LockTupleMode :=
  if mode.rank < mode'.rank then mode' else mode

/-- mirrors htup_details.h:256-257 -/
def heapXmaxBits : BitVec 16 :=
  heapXmaxCommitted ||| heapXmaxInvalid ||| heapXmaxIsMulti ||| heapLockMask ||| heapXmaxLockOnly

/-- mirrors htup_details.h:264-266 -/
def heapKeysUpdated : BitVec 16 := 0x2000

def heapHotUpdated : BitVec 16 := 0x4000

/-- mirrors heapam.c:6952-6958 -/
def lockBits : LockTupleMode → BitVec 16
  | .exclusive | .noKeyExclusive => heapXmaxExclLock
  | .share => heapXmaxShrLock
  | .keyShare => heapXmaxKeyshrLock

/-- mirrors heapam.c:6920-6930 -/
def strongestMode (members : List MultiXactMember) : LockTupleMode :=
  members.foldl (fun mode member => mode.strongest (tuplockFromMxstatus member.status)) .keyShare

/-- The bits for `t_infomask` and `t_infomask2`. mirrors heapam.c:6902-6971 -/
def getMultiXactIdHintBits (env : Env) (multi : MultiXactId) : BitVec 16 × BitVec 16 :=
  let members := env.members multi false
  let hasUpdate := members.any (·.status.isUpdate)
  let keys := members.any fun member => member.status = .forUpdate ∨ member.status = .update
  (heapXmaxIsMulti ||| lockBits (strongestMode members) |||
    (if hasUpdate then 0 else heapXmaxLockOnly), if keys then heapKeysUpdated else 0)

/-! ## Errors -/

/-- All with `ERRCODE_DATA_CORRUPTED`. mirrors heapam.c:6361-6405, 6466-6530, 6660-6672,
6749-6770 -/
inductive FreezeError
  /-- "found xmin %u from before relfrozenxid %u" -/
  | xminBeforeRelfrozenxid (xid relfrozenxid : TransactionId)
  /-- "uncommitted xmin %u from before xid cutoff %u needs to be frozen" -/
  | uncommittedXmin (xid cutoffXid : TransactionId)
  /-- "found multixact %u from before relminmxid %u" -/
  | multiBeforeRelminmxid (multi relminmxid : MultiXactId)
  /-- "multixact %u from before cutoff %u found to be still running" -/
  | multiStillRunning (multi cutoffMulti : MultiXactId)
  /-- "found update xid %u from before relfrozenxid %u" -/
  | updateXidBeforeRelfrozenxid (xid relfrozenxid : TransactionId)
  /-- "cannot freeze committed update xid %u" -/
  | committedUpdateXid (xid : TransactionId)
  /-- "found update xid %u from before xid cutoff %u" -/
  | updateXidBeforeCutoff (xid cutoffXid : TransactionId)
  /-- "found xmax %u from before relfrozenxid %u" -/
  | xmaxBeforeRelfrozenxid (xid relfrozenxid : TransactionId)
  /-- "cannot freeze committed xmax %u" -/
  | committedXmax (xid : TransactionId)
  deriving DecidableEq

/-! ## The functions -/

/-- The arguments that come from the relation and from VACUUM. -/
structure Cutoffs where
  relfrozenxid : TransactionId
  relminmxid : MultiXactId
  cutoffXid : TransactionId
  cutoffMulti : MultiXactId

/-- The flags and the return value of `FreezeMultiXactId`. mirrors heapam.c:6312-6316 -/
inductive FrmResult
  | noop
  | invalidateXmax
  | returnIsXid (xid : TransactionId) (markCommitted : Bool)
  | returnIsMulti (multi : MultiXactId)
  deriving DecidableEq

/-- The variables of the loop over the members. -/
structure Survivors where
  newmembers : List MultiXactMember
  hasLockers : Bool
  updateXid : TransactionId
  updateCommitted : Bool

/-- The updater, if it has not aborted. mirrors heapam.c:6484-6509 -/
def noteUpdater (env : Env) (s : Survivors) (xid : TransactionId) : Survivors :=
  if running env xid then { s with updateXid := xid }
  else if transactionIdDidCommit env.history xid then
    { s with updateXid := xid, updateCommitted := true }
  else s

/-- mirrors heapam.c:6456-6553 -/
def keepMember (env : Env) (cut : Cutoffs) (s : Survivors) (member : MultiXactMember) :
    Except FreezeError Survivors :=
  if member.status.isUpdate then
    if transactionIdPrecedes member.xid cut.relfrozenxid then
      .error (.updateXidBeforeRelfrozenxid member.xid cut.relfrozenxid)
    else
      let s := noteUpdater env s member.xid
      if transactionIdIsValid s.updateXid && transactionIdPrecedes s.updateXid cut.cutoffXid then
        .error (.updateXidBeforeCutoff s.updateXid cut.cutoffXid)
      else .ok (if transactionIdIsValid s.updateXid then
        { s with newmembers := s.newmembers ++ [member] } else s)
  -- only lockers that are still running matter
  else if running env member.xid then
    .ok { s with newmembers := s.newmembers ++ [member], hasLockers := true }
  else .ok s

/-- mirrors heapam.c:6456-6553 -/
def keepMembers (env : Env) (cut : Cutoffs) :
    List MultiXactMember → Survivors → Except FreezeError Survivors
  | [], s => .ok s
  | member :: members, s =>
    match keepMember env cut s member with
    | .error err => .error err
    | .ok s => keepMembers env cut members s

/-- mirrors heapam.c:6557-6600 -/
def replaceMulti (env : Env) (s : Survivors) : FrmResult :=
  if s.newmembers.isEmpty then .invalidateXmax
  else if transactionIdIsValid s.updateXid && !s.hasLockers then
    .returnIsXid s.updateXid s.updateCommitted
  else .returnIsMulti (env.create s.newmembers)

/-- A multixact from before the cutoff for multixacts. mirrors heapam.c:6368-6412 -/
def freezeOldMulti (env : Env) (cut : Cutoffs) (multi : MultiXactId) (infomask : BitVec 16) :
    Except FreezeError FrmResult :=
  if multiXactIdIsRunning env.history env.backend multi (heapXmaxIsLockedOnly infomask) then
    .error (.multiStillRunning multi cut.cutoffMulti)
  else if heapXmaxIsLockedOnly infomask then .ok .invalidateXmax
  else
    let xid := multiXactIdGetUpdateXid env.history.members multi
    if transactionIdPrecedes xid cut.relfrozenxid then
      .error (.updateXidBeforeRelfrozenxid xid cut.relfrozenxid)
    else if transactionIdPrecedes xid cut.cutoffXid then
      if transactionIdDidCommit env.history xid then .error (.committedUpdateXid xid)
      else .ok .invalidateXmax
    else .ok (.returnIsXid xid false)

/-- mirrors heapam.c:6339-6605 -/
def freezeMultiXactId (env : Env) (cut : Cutoffs) (multi : MultiXactId) (infomask : BitVec 16) :
    Except FreezeError FrmResult :=
  if !multiXactIdIsValid multi || heapLockedUpgraded infomask then .ok .invalidateXmax
  else if multiXactIdPrecedes multi cut.relminmxid then
    .error (.multiBeforeRelminmxid multi cut.relminmxid)
  else if multiXactIdPrecedes multi cut.cutoffMulti then freezeOldMulti env cut multi infomask
  else
    let members := env.members multi (heapXmaxIsLockedOnly infomask)
    if members.isEmpty then .ok .invalidateXmax
    else if !members.any fun member => transactionIdPrecedes member.xid cut.cutoffXid then .ok .noop
    else
      match keepMembers env cut members ⟨[], false, invalidTransactionId, false⟩ with
      | .error err => .error err
      | .ok s => .ok (replaceMulti env s)

/-- A header with the second flag word. mirrors htup_details.h:146-160 -/
structure TupleHeader extends HeapTupleHeader where
  infomask2 : BitVec 16
  deriving DecidableEq

/-- mirrors src/include/access/heapam_xlog.h:293-294 -/
def xlhFreezeXvac : BitVec 8 := 0x02

def xlhInvalidXvac : BitVec 8 := 0x04

/-- The plan. mirrors src/include/access/heapam_xlog.h:296-303 -/
structure FreezePlan where
  xmax : TransactionId
  infomask2 : BitVec 16
  infomask : BitVec 16
  frzflags : BitVec 8
  deriving DecidableEq

/-- The plan so far, with `changed` and `totally_frozen`. -/
structure Progress where
  frz : FreezePlan
  changed : Bool
  totallyFrozen : Bool
  deriving DecidableEq

/-- mirrors heapam.c:6649-6652 -/
def startPlan (tuple : TupleHeader) : Progress :=
  ⟨⟨tuple.xmax, tuple.infomask2, tuple.infomask, 0⟩, false, true⟩

/-- mirrors heapam.c:6654-6678 -/
def planXmin (env : Env) (cut : Cutoffs) (tuple : TupleHeader) (p : Progress) :
    Except FreezeError Progress :=
  let xid := tuple.getXmin
  if !transactionIdIsNormal xid then .ok p
  else if transactionIdPrecedes xid cut.relfrozenxid then
    .error (.xminBeforeRelfrozenxid xid cut.relfrozenxid)
  else if transactionIdPrecedes xid cut.cutoffXid then
    if !transactionIdDidCommit env.history xid then .error (.uncommittedXmin xid cut.cutoffXid)
    else
      .ok { p with
        frz := { p.frz with infomask := p.frz.infomask ||| heapXminFrozen }
        changed := true }
  else .ok { p with totallyFrozen := false }

/-- mirrors heapam.c:6773-6787 -/
def Progress.freezeXmax (p : Progress) : Progress :=
  { p with
    frz := { p.frz with
      xmax := invalidTransactionId
      infomask := p.frz.infomask &&& ~~~heapXmaxBits ||| heapXmaxInvalid
      infomask2 := p.frz.infomask2 &&& ~~~heapHotUpdated &&& ~~~heapKeysUpdated }
    changed := true }

/-- The single updater. mirrors heapam.c:6702-6716 -/
def Progress.xmaxIsXid (p : Progress) (xid : TransactionId) (markCommitted : Bool) : Progress :=
  { frz := { p.frz with
      xmax := xid
      infomask :=
        p.frz.infomask &&& ~~~heapXmaxBits ||| (if markCommitted then heapXmaxCommitted else 0) }
    changed := true
    totallyFrozen := false }

/-- mirrors heapam.c:6717-6738 -/
def Progress.xmaxIsMulti (env : Env) (p : Progress) (multi : MultiXactId) : Progress :=
  let bits := getMultiXactIdHintBits env multi
  { frz := { p.frz with
      xmax := multi
      infomask := p.frz.infomask &&& ~~~heapXmaxBits ||| bits.1
      infomask2 := p.frz.infomask2 &&& ~~~heapKeysUpdated ||| bits.2 }
    changed := true
    totallyFrozen := false }

/-- mirrors heapam.c:6689-6787 -/
def planXmax (env : Env) (cut : Cutoffs) (tuple : TupleHeader) (p : Progress) :
    Except FreezeError Progress :=
  if has tuple.infomask heapXmaxIsMulti then
    match freezeMultiXactId env cut tuple.xmax tuple.infomask with
    | .error err => .error err
    | .ok .invalidateXmax => .ok p.freezeXmax
    | .ok (.returnIsXid xid markCommitted) => .ok (p.xmaxIsXid xid markCommitted)
    | .ok (.returnIsMulti multi) => .ok (p.xmaxIsMulti env multi)
    | .ok .noop => .ok p
  else if transactionIdIsNormal tuple.xmax then
    if transactionIdPrecedes tuple.xmax cut.relfrozenxid then
      .error (.xmaxBeforeRelfrozenxid tuple.xmax cut.relfrozenxid)
    else if transactionIdPrecedes tuple.xmax cut.cutoffXid then
      -- a lock can go whether its holder committed or not
      if !has tuple.infomask heapXmaxLockOnly && transactionIdDidCommit env.history tuple.xmax then
        .error (.committedXmax tuple.xmax)
      else .ok p.freezeXmax
    else .ok { p with totallyFrozen := false }
  else .ok p

/-- mirrors heapam.c:6789-6824 -/
def planXvac (tuple : TupleHeader) (p : Progress) : Progress :=
  if has tuple.infomask heapMoved && transactionIdIsNormal tuple.getXvac then
    { p with
      frz := { p.frz with
        frzflags :=
          p.frz.frzflags |||
            (if has tuple.infomask heapMovedOff then xlhInvalidXvac else xlhFreezeXvac)
        infomask := p.frz.infomask ||| heapXminCommitted }
      changed := true }
  else p

/-- The result has the plan, the return value and `*totally_frozen_p`. mirrors heapam.c:6638-6828 -/
def heapPrepareFreezeTuple (env : Env) (cut : Cutoffs) (tuple : TupleHeader) :
    Except FreezeError Progress :=
  match planXmin env cut tuple (startPlan tuple) with
  | .error err => .error err
  | .ok p =>
    match planXmax env cut tuple p with
    | .error err => .error err
    | .ok p => .ok (planXvac tuple p)

/-- mirrors heapam.c:6850-6863 -/
def heapExecuteFreezeTuple (tuple : TupleHeader) (frz : FreezePlan) : TupleHeader where
  xmin := tuple.xmin
  xmax := frz.xmax
  field3 :=
    let field3 := if has frz.frzflags xlhFreezeXvac then frozenTransactionId else tuple.field3
    if has frz.frzflags xlhInvalidXvac then invalidTransactionId else field3
  infomask := frz.infomask
  infomask2 := frz.infomask2

/-- The header afterwards; a plan without a change is not applied. mirrors heapam.c:6880-6892 -/
def Progress.applied (tuple : TupleHeader) (p : Progress) : TupleHeader :=
  if p.changed then heapExecuteFreezeTuple tuple p.frz else tuple

/-! ## What a plan does -/

variable {env : Env} {cut : Cutoffs} {tuple : TupleHeader} {p p' : Progress}

/-- The outcomes for `xmin`. -/
inductive XminOutcome (env : Env) (cut : Cutoffs) (tuple : TupleHeader) (p : Progress) :
    Progress → Prop
  | notNormal : transactionIdIsNormal tuple.getXmin = false → XminOutcome env cut tuple p p
  | frozen : transactionIdIsNormal tuple.getXmin = true →
      transactionIdPrecedes tuple.getXmin cut.cutoffXid = true →
      transactionIdDidCommit env.history tuple.getXmin = true →
      XminOutcome env cut tuple p { p with
        frz := { p.frz with infomask := p.frz.infomask ||| heapXminFrozen }, changed := true }
  | recent : transactionIdIsNormal tuple.getXmin = true →
      transactionIdPrecedes tuple.getXmin cut.cutoffXid = false →
      XminOutcome env cut tuple p { p with totallyFrozen := false }

theorem planXmin_cases (h : planXmin env cut tuple p = .ok p') :
    XminOutcome env cut tuple p p' := by
  unfold planXmin at h
  dsimp only at h
  split_ifs at h with hnormal hrel hcutoff hcommitted
  · cases h
    exact .notNormal (by simpa using hnormal)
  · cases h
    exact .frozen (by simpa using hnormal) hcutoff (by simpa using hcommitted)
  · cases h
    exact .recent (by simpa using hnormal) (by simpa using hcutoff)

/-- The outcomes for `xmax`. -/
inductive XmaxOutcome (env : Env) (cut : Cutoffs) (tuple : TupleHeader) (p : Progress) :
    Progress → Prop
  | noop : has tuple.infomask heapXmaxIsMulti = true →
      freezeMultiXactId env cut tuple.xmax tuple.infomask = .ok .noop →
      XmaxOutcome env cut tuple p p
  | dropMulti : has tuple.infomask heapXmaxIsMulti = true →
      freezeMultiXactId env cut tuple.xmax tuple.infomask = .ok .invalidateXmax →
      XmaxOutcome env cut tuple p p.freezeXmax
  | xid {x : TransactionId} {committed : Bool} : has tuple.infomask heapXmaxIsMulti = true →
      freezeMultiXactId env cut tuple.xmax tuple.infomask = .ok (.returnIsXid x committed) →
      XmaxOutcome env cut tuple p (p.xmaxIsXid x committed)
  | multi {multi : MultiXactId} : has tuple.infomask heapXmaxIsMulti = true →
      freezeMultiXactId env cut tuple.xmax tuple.infomask = .ok (.returnIsMulti multi) →
      XmaxOutcome env cut tuple p (p.xmaxIsMulti env multi)
  | drop : has tuple.infomask heapXmaxIsMulti = false → transactionIdIsNormal tuple.xmax = true →
      transactionIdPrecedes tuple.xmax cut.cutoffXid = true →
      (has tuple.infomask heapXmaxLockOnly = false →
        transactionIdDidCommit env.history tuple.xmax = false) →
      XmaxOutcome env cut tuple p p.freezeXmax
  | recent : has tuple.infomask heapXmaxIsMulti = false → transactionIdIsNormal tuple.xmax = true →
      transactionIdPrecedes tuple.xmax cut.cutoffXid = false →
      XmaxOutcome env cut tuple p { p with totallyFrozen := false }
  | notNormal : has tuple.infomask heapXmaxIsMulti = false →
      transactionIdIsNormal tuple.xmax = false → XmaxOutcome env cut tuple p p

theorem planXmax_cases (h : planXmax env cut tuple p = .ok p') :
    XmaxOutcome env cut tuple p p' := by
  unfold planXmax at h
  split_ifs at h with hmulti hnormal hrel hcutoff hlock
  · split at h
    · cases h
    · cases h
      exact .dropMulti hmulti ‹_›
    · cases h
      exact .xid hmulti ‹_›
    · cases h
      exact .multi hmulti ‹_›
    · cases h
      exact .noop hmulti ‹_›
  · cases h
    refine .drop (by simpa using hmulti) hnormal hcutoff fun hbit => ?_
    simpa [hbit] using hlock
  · cases h
    exact .recent (by simpa using hmulti) hnormal (by simpa using hcutoff)
  · cases h
    exact .notNormal (by simpa using hmulti) (by simpa using hnormal)

/-- Every plan is made of the three parts. -/
theorem prepare_cases (h : heapPrepareFreezeTuple env cut tuple = .ok p) :
    ∃ p₁ p₂, XminOutcome env cut tuple (startPlan tuple) p₁ ∧ XmaxOutcome env cut tuple p₁ p₂ ∧
      p = planXvac tuple p₂ := by
  unfold heapPrepareFreezeTuple at h
  split at h
  · cases h
  · rename_i p₁ hxmin
    split at h
    · cases h
    · rename_i p₂ hxmax
      cases h
      exact ⟨p₁, p₂, planXmin_cases hxmin, planXmax_cases hxmax, rfl⟩

theorem XminOutcome.unchanged (h : XminOutcome env cut tuple p p') (hchanged : p'.changed = false) :
    p'.frz = p.frz := by
  cases h with
  | notNormal => rfl
  | frozen => cases hchanged
  | recent => rfl

theorem XmaxOutcome.unchanged (h : XmaxOutcome env cut tuple p p') (hchanged : p'.changed = false) :
    p'.frz = p.frz ∧ p.changed = false := by
  cases h with
  | noop => exact ⟨rfl, hchanged⟩
  | recent => exact ⟨rfl, hchanged⟩
  | notNormal => exact ⟨rfl, hchanged⟩
  | _ => cases hchanged

/-- A plan without a change leaves the header as it is, so nothing depends on whether it is
applied. -/
theorem applied_eq (h : heapPrepareFreezeTuple env cut tuple = .ok p) :
    p.applied tuple = heapExecuteFreezeTuple tuple p.frz := by
  unfold Progress.applied
  split_ifs with hchanged
  · rfl
  · obtain ⟨p₁, p₂, hxmin, hxmax, rfl⟩ := prepare_cases h
    rw [Bool.not_eq_true] at hchanged
    have hxvac : planXvac tuple p₂ = p₂ := by
      unfold planXvac at hchanged ⊢
      split_ifs at hchanged ⊢
      · rfl
    rw [hxvac] at hchanged ⊢
    obtain ⟨hfrz, hchanged⟩ := hxmax.unchanged hchanged
    rw [hfrz, hxmin.unchanged hchanged]
    have hfreeze : has (0#8) xlhFreezeXvac = false := by decide
    have hinvalid : has (0#8) xlhInvalidXvac = false := by decide
    simp [heapExecuteFreezeTuple, startPlan, hfreeze, hinvalid]

/-- The plan for `xmax` touches no other bit. -/
theorem XmaxOutcome.agree (h : XmaxOutcome env cut tuple p p') :
    Agree heapXmaxBits p.frz.infomask p'.frz.infomask := by
  have hset : ∀ bits : BitVec 16, bits &&& ~~~heapXmaxBits = 0 →
      Agree heapXmaxBits p.frz.infomask (p.frz.infomask &&& ~~~heapXmaxBits ||| bits) :=
    fun bits hbits => (Agree.clear _ _).trans (Agree.or_right _ hbits)
  cases h with
  | noop => exact .refl _ _
  | dropMulti => exact hset _ (by decide)
  | @xid x committed =>
    refine hset _ ?_
    cases committed <;> decide
  | @multi multi =>
    refine hset _ ?_
    simp only [getMultiXactIdHintBits]
    split_ifs
    · cases strongestMode (env.members multi false) <;> decide
    · cases strongestMode (env.members multi false) <;> decide
  | drop => exact hset _ (by decide)
  | recent => exact .refl _ _
  | notNormal => exact .refl _ _

/-! ## Totally frozen -/

/-- No id is left that a later cutoff would have to remove. -/
def NothingLeft (tuple : TupleHeader) : Prop :=
  transactionIdIsNormal tuple.getXmin = false ∧
    if has tuple.infomask heapXmaxIsMulti then multiXactIdIsValid tuple.xmax = false
    else transactionIdIsNormal tuple.xmax = false

theorem planXvac_infomask (tuple : TupleHeader) (p : Progress) : (planXvac tuple p).frz.infomask =
    if has tuple.infomask heapMoved && transactionIdIsNormal tuple.getXvac then
      p.frz.infomask ||| heapXminCommitted else p.frz.infomask := by
  unfold planXvac
  by_cases hmoved : (has tuple.infomask heapMoved && transactionIdIsNormal tuple.getXvac) = true
  · rw [if_pos hmoved, if_pos hmoved]
  · rw [if_neg hmoved, if_neg hmoved]

theorem planXvac_xmax (tuple : TupleHeader) (p : Progress) :
    (planXvac tuple p).frz.xmax = p.frz.xmax := by
  unfold planXvac
  by_cases hmoved : (has tuple.infomask heapMoved && transactionIdIsNormal tuple.getXvac) = true
  · rw [if_pos hmoved]
  · rw [if_neg hmoved]

theorem planXvac_totallyFrozen (tuple : TupleHeader) (p : Progress) :
    (planXvac tuple p).totallyFrozen = p.totallyFrozen := by
  unfold planXvac
  by_cases hmoved : (has tuple.infomask heapMoved && transactionIdIsNormal tuple.getXvac) = true
  · rw [if_pos hmoved]
  · rw [if_neg hmoved]

/-- Only the bit that says that the inserter committed is set besides. -/
theorem planXvac_has (tuple : TupleHeader) (p : Progress) {field : BitVec 16}
    (hfield : heapXminCommitted &&& field = 0) :
    has (planXvac tuple p).frz.infomask field = has p.frz.infomask field := by
  rw [planXvac_infomask]
  split_ifs
  · have hnot : has heapXminCommitted field = false := by
      unfold has
      rw [hfield]
      rfl
    rw [has_or, hnot, Bool.or_false]
  · rfl

theorem planXvac_xminCommitted (tuple : TupleHeader) {p : Progress}
    (h : has p.frz.infomask heapXminCommitted = true) :
    has (planXvac tuple p).frz.infomask heapXminCommitted = true := by
  rw [planXvac_infomask]
  split_ifs
  · rw [has_or, h, Bool.true_or]
  · exact h

/-- What is frozen in the plan after `xmin` was looked at is frozen in the header. -/
theorem xminFrozen_executed (hxmax : XmaxOutcome env cut tuple p p')
    (hcommitted : has p.frz.infomask heapXminCommitted = true)
    (hinvalid : has p.frz.infomask heapXminInvalid = true) :
    (heapExecuteFreezeTuple tuple (planXvac tuple p').frz).xminFrozen = true := by
  rw [xminFrozen_eq, Bool.and_eq_true]
  constructor
  · refine planXvac_xminCommitted tuple ?_
    rwa [← hxmax.agree.has_eq (by decide)]
  · refine (planXvac_has tuple p' (by decide)).trans ?_
    rwa [← hxmax.agree.has_eq (by decide)]

theorem getXmin_executed_not_normal (hxmin : XminOutcome env cut tuple (startPlan tuple) p)
    (hxmax : XmaxOutcome env cut tuple p p')
    (htotal : p.totallyFrozen = true) :
    transactionIdIsNormal (heapExecuteFreezeTuple tuple (planXvac tuple p').frz).getXmin =
      false := by
  have hfrozen : (heapExecuteFreezeTuple tuple (planXvac tuple p').frz).xminFrozen = true →
      transactionIdIsNormal (heapExecuteFreezeTuple tuple (planXvac tuple p').frz).getXmin =
      false := by
    intro h
    rw [HeapTupleHeader.getXmin, if_pos h]
    decide
  cases hxmin with
  | notNormal hnormal =>
    by_cases hbefore : tuple.xminFrozen = true
    · have hbits := hbefore
      rw [xminFrozen_eq, Bool.and_eq_true] at hbits
      exact hfrozen (xminFrozen_executed hxmax hbits.1 hbits.2)
    · by_cases hafter : (heapExecuteFreezeTuple tuple (planXvac tuple p').frz).xminFrozen = true
      · exact hfrozen hafter
      · rw [HeapTupleHeader.getXmin, if_neg hafter]
        rwa [HeapTupleHeader.getXmin, if_neg hbefore] at hnormal
  | frozen =>
    refine hfrozen (xminFrozen_executed hxmax ?_ ?_)
    · rw [has_or, show has heapXminFrozen heapXminCommitted = true by decide, Bool.or_true]
    · rw [has_or, show has heapXminFrozen heapXminInvalid = true by decide, Bool.or_true]
  | recent => cases htotal

/-- The multixact is left alone: it is not older than its cutoff, and has members of which none is
older than the other one. -/
structure KeptMulti (env : Env) (cut : Cutoffs) (multi : MultiXactId)
    (infomask : BitVec 16) : Prop where
  valid : multiXactIdIsValid multi = true
  upgraded : heapLockedUpgraded infomask = false
  relminmxid : multiXactIdPrecedes multi cut.relminmxid = false
  cutoffMulti : multiXactIdPrecedes multi cut.cutoffMulti = false
  members : env.members multi (heapXmaxIsLockedOnly infomask) ≠ []
  recent : ∀ member ∈ env.members multi (heapXmaxIsLockedOnly infomask),
    transactionIdPrecedes member.xid cut.cutoffXid = false

theorem replaceMulti_ne_noop (env : Env) (s : Survivors) : replaceMulti env s ≠ .noop := by
  unfold replaceMulti
  split_ifs
  · exact fun h => by cases h
  · exact fun h => by cases h
  · exact fun h => by cases h

theorem freezeOldMulti_ne_noop (env : Env) (cut : Cutoffs) (multi : MultiXactId)
    (infomask : BitVec 16) : freezeOldMulti env cut multi infomask ≠ .ok .noop := by
  unfold freezeOldMulti
  dsimp only
  split_ifs
  all_goals exact fun h => by cases h

theorem freezeMultiXactId_noop {multi : MultiXactId} {infomask : BitVec 16} :
    freezeMultiXactId env cut multi infomask = .ok .noop ↔ KeptMulti env cut multi infomask := by
  unfold freezeMultiXactId
  dsimp only
  constructor
  · intro h
    split_ifs at h with hinvalid hrel hold hempty hrecent
    · cases h
    · exact absurd h (freezeOldMulti_ne_noop env cut multi infomask)
    · cases h
    · simp only [Bool.or_eq_true, Bool.not_eq_true', not_or, Bool.not_eq_false,
        Bool.not_eq_true] at hinvalid
      refine ⟨hinvalid.1,
        hinvalid.2, by simpa using hrel, by simpa using hold, by simpa using hempty,
        fun member hmember => ?_⟩
      rw [Bool.not_eq_true', List.any_eq_false] at hrecent
      simpa using hrecent member hmember
    · split at h
      · cases h
      · exact absurd (Except.ok.inj h) (replaceMulti_ne_noop env _)
  · intro h
    have hrecent : (env.members multi (heapXmaxIsLockedOnly infomask)).any
        (fun member => transactionIdPrecedes member.xid cut.cutoffXid) = false := by
      rw [List.any_eq_false]
      intro member hmember
      simp [h.recent member hmember]
    rw [if_neg (by simp [h.valid, h.upgraded]), if_neg (by simp [h.relminmxid]),
      if_neg (by simp [h.cutoffMulti]), if_neg (by simp [h.members]), if_pos (by simp [hrecent])]

/-- A tuple that is said to be totally frozen has nothing left to freeze, unless its multixact was
left alone. -/
theorem totallyFrozen_iff (env : Env) (cut : Cutoffs) (tuple : TupleHeader) (p : Progress)
    (h : heapPrepareFreezeTuple env cut tuple = .ok p) (htotal : p.totallyFrozen = true) :
    NothingLeft (p.applied tuple) ↔
      ¬(has tuple.infomask heapXmaxIsMulti = true ∧
        KeptMulti env cut tuple.xmax tuple.infomask) := by
  rw [applied_eq h, ← freezeMultiXactId_noop]
  obtain ⟨p₁, p₂, hxmin, hxmax, rfl⟩ := prepare_cases h
  rw [planXvac_totallyFrozen] at htotal
  have htotal₁ : p₁.totallyFrozen = true := by
    cases hxmax with
    | noop => exact htotal
    | dropMulti => exact htotal
    | drop => exact htotal
    | notNormal => exact htotal
    | _ => cases htotal
  have hxmin' := getXmin_executed_not_normal hxmin hxmax htotal₁
  have hbits : (startPlan tuple).frz.xmax = tuple.xmax ∧ p₁.frz.xmax = tuple.xmax ∧
      has p₁.frz.infomask heapXmaxIsMulti = has tuple.infomask heapXmaxIsMulti := by
    cases hxmin with
    | notNormal => exact ⟨rfl, rfl, rfl⟩
    | frozen =>
      refine ⟨rfl, rfl, ?_⟩
      rw [has_or, show has heapXminFrozen heapXmaxIsMulti = false by decide, Bool.or_false]
      rfl
    | recent => cases htotal₁
  obtain ⟨-, hxmax₁, hmulti₁⟩ := hbits
  have hmulti₂ : has (heapExecuteFreezeTuple tuple (planXvac tuple p₂).frz).infomask
      heapXmaxIsMulti = has p₂.frz.infomask heapXmaxIsMulti :=
    planXvac_has tuple p₂ (by decide)
  have hxmax₂ : (heapExecuteFreezeTuple tuple (planXvac tuple p₂).frz).xmax = p₂.frz.xmax :=
    planXvac_xmax tuple p₂
  unfold NothingLeft
  rw [hmulti₂, hxmax₂, and_iff_right hxmin']
  -- a dropped xmax leaves no multixact and no id
  have hdropped : has p₁.freezeXmax.frz.infomask heapXmaxIsMulti = false := by
    simp only [Progress.freezeXmax]
    rw [has_or, has_clear _ (by decide)]
    decide
  cases hxmax with
  | noop hmulti hnoop =>
    rw [hmulti₁, hxmax₁, if_pos hmulti, (freezeMultiXactId_noop.mp hnoop).valid]
    simp [hmulti, hnoop]
  | dropMulti hmulti hdrop =>
    rw [if_neg (by rw [hdropped]; simp)]
    simp only [hdrop, Except.ok.injEq, reduceCtorEq, and_false, not_false_eq_true, iff_true]
    simp only [Progress.freezeXmax]
    decide
  | drop hmulti =>
    rw [if_neg (by rw [hdropped]; simp), hmulti]
    simp only [Bool.false_eq_true, false_and, not_false_eq_true, iff_true]
    simp only [Progress.freezeXmax]
    decide
  | notNormal hmulti hnormal =>
    rw [hmulti₁, hxmax₁, hmulti]
    simp [hnormal]
  | _ => cases htotal

/-- Transactions up to 20 have committed, the others are running; multixact 5 has a running
locker. -/
def lockedEnv : Env where
  history := { runningFrom20 with
    members := fun multi => if multi = 5 then [⟨21, .forShare⟩, ⟨22, .forShare⟩] else [] }
  backend := vacuumBackend
  create := fun _ => 6

/-- A row from before the cutoffs that two running transactions have locked. -/
def lockedTuple : TupleHeader :=
  ⟨⟨10, 5, 0, heapXminCommitted ||| heapXmaxIsMulti ||| heapXmaxShrLock ||| heapXmaxLockOnly⟩, 0⟩

def lockedCutoffs : Cutoffs := ⟨5, 1, 20, 4⟩

/-- The row is called totally frozen although its multixact stays. -/
theorem totallyFrozen_multi : ∃ p, heapPrepareFreezeTuple lockedEnv lockedCutoffs lockedTuple =
    .ok p ∧ p.totallyFrozen = true ∧
    has (p.applied lockedTuple).infomask heapXmaxIsMulti = true ∧
    multiXactIdIsValid (p.applied lockedTuple).xmax = true :=
  ⟨⟨⟨5, 0, heapXminCommitted ||| heapXmaxIsMulti ||| heapXmaxShrLock ||| heapXmaxLockOnly |||
    heapXminFrozen, 0⟩, true, true⟩, by decide⟩

/-- The same row without lockers is totally frozen. -/
theorem totallyFrozen_iff_unlocked :
    ∃ p, heapPrepareFreezeTuple lockedEnv lockedCutoffs
      ⟨⟨10, 0, 0, heapXminCommitted ||| heapXmaxInvalid⟩, 0⟩ = .ok p ∧
    p.totallyFrozen = true ∧
    NothingLeft (p.applied ⟨⟨10, 0, 0, heapXminCommitted ||| heapXmaxInvalid⟩, 0⟩) := by
  have hprepare : heapPrepareFreezeTuple lockedEnv lockedCutoffs
      ⟨⟨10, 0, 0, heapXminCommitted ||| heapXmaxInvalid⟩, 0⟩ =
      .ok ⟨⟨0, 0, heapXminCommitted ||| heapXmaxInvalid ||| heapXminFrozen, 0⟩, true, true⟩ := by
    decide
  exact ⟨_, hprepare, rfl, (totallyFrozen_iff lockedEnv lockedCutoffs _ _ hprepare rfl).mpr fun h =>
    absurd h.1 (by decide)⟩

end GreenPipeline.L2.Freeze
