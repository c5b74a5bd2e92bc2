import GreenPipeline.Core.Flags
import GreenPipeline.L2Access.TransactionId

/-!
# Heap tuple headers

The fields and flag bits of a tuple header that the visibility rules read
(`src/include/access/htup_details.h`, `src/backend/utils/time/combocid.c`,
`src/backend/access/heap/heapam.c`).

Four of the bits are hints: they repeat what the commit log says about `xmin` and `xmax`. Both
`xmin` bits together say that the tuple is frozen, which is not a hint.

Results:

* `Hinted`: headers that differ in hint bits only; every other reading of the header is the same
  (`Hinted.lockedOnly_eq`, `Hinted.getXmin_eq`, `Hinted.getCmax_eq`, ...).
-/
namespace GreenPipeline.L2.HeapTuple

open GreenPipeline.Core.Flags GreenPipeline.L2.Transam

abbrev CommandId : Type := BitVec 32

abbrev MultiXactId : Type := TransactionId

/-- mirrors src/include/access/multixact.h:40-50 -/
inductive MultiXactStatus
  | forKeyShare
  | forShare
  | forNoKeyUpdate
  | forUpdate
  | noKeyUpdate
  | update
  deriving DecidableEq, Repr

/-- `ISUPDATE_from_mxstatus`. mirrors src/include/access/multixact.h:55-56 -/
def MultiXactStatus.isUpdate : MultiXactStatus → Bool
  | noKeyUpdate | update => true
  | _ => false

/-- mirrors src/include/access/multixact.h:59-63 -/
structure MultiXactMember where
  xid : TransactionId
  status : MultiXactStatus
  deriving DecidableEq

/-- mirrors htup_details.h:116-160 -/
structure HeapTupleHeader where
  xmin : TransactionId
  xmax : TransactionId
  /-- The command id, or the mover's transaction id of a moved tuple. -/
  field3 : BitVec 32
  infomask : BitVec 16
  deriving DecidableEq

/-! ## Flag bits -/

/-- mirrors htup_details.h:179-202 -/
def heapXmaxKeyshrLock : BitVec 16 := 0x0010

def heapComboCid : BitVec 16 := 0x0020

def heapXmaxExclLock : BitVec 16 := 0x0040

def heapXmaxLockOnly : BitVec 16 := 0x0080

def heapXmaxShrLock : BitVec 16 := heapXmaxExclLock ||| heapXmaxKeyshrLock

def heapLockMask : BitVec 16 := heapXmaxShrLock ||| heapXmaxExclLock ||| heapXmaxKeyshrLock

def heapXminCommitted : BitVec 16 := 0x0100

def heapXminInvalid : BitVec 16 := 0x0200

def heapXminFrozen : BitVec 16 := heapXminCommitted ||| heapXminInvalid

def heapXmaxCommitted : BitVec 16 := 0x0400

def heapXmaxInvalid : BitVec 16 := 0x0800

def heapXmaxIsMulti : BitVec 16 := 0x1000

def heapMovedOff : BitVec 16 := 0x4000

def heapMovedIn : BitVec 16 := 0x8000

def heapMoved : BitVec 16 := heapMovedOff ||| heapMovedIn

/-- mirrors htup_details.h:216-218 -/
def heapXmaxIsLockedOnly (infomask : BitVec 16) : Bool :=
  has infomask heapXmaxLockOnly || infomask &&& (heapXmaxIsMulti ||| heapLockMask) ==
    heapXmaxExclLock

/-- mirrors htup_details.h:238-243 -/
def heapLockedUpgraded (infomask : BitVec 16) : Bool :=
  has infomask heapXmaxIsMulti && has infomask heapXmaxLockOnly &&
    !has infomask (heapXmaxExclLock ||| heapXmaxKeyshrLock)

namespace HeapTupleHeader
variable (tup : HeapTupleHeader)

/-- mirrors htup_details.h:318-321 -/
def xminCommitted : Bool := has tup.infomask heapXminCommitted

/-- mirrors htup_details.h:323-327 -/
def xminInvalid : Bool :=
  tup.infomask &&& (heapXminCommitted ||| heapXminInvalid) == heapXminInvalid

/-- mirrors htup_details.h:329-332 -/
def xminFrozen : Bool := tup.infomask &&& heapXminFrozen == heapXminFrozen

/-- mirrors htup_details.h:307-311 -/
def getXmin : TransactionId := if tup.xminFrozen then frozenTransactionId else tup.xmin

/-- mirrors htup_details.h:409-415 -/
def getXvac : TransactionId :=
  if has tup.infomask heapMoved then tup.field3 else invalidTransactionId

/-- mirrors combocid.c:104-116 -/
def getCmin (comboCids : CommandId → CommandId × CommandId) : CommandId :=
  if has tup.infomask heapComboCid then (comboCids tup.field3).1 else tup.field3

/-- mirrors combocid.c:118-140 -/
def getCmax (comboCids : CommandId → CommandId × CommandId) : CommandId :=
  if has tup.infomask heapComboCid then (comboCids tup.field3).2 else tup.field3

/-- Moved by VACUUM FULL of a version before 9.0. -/
def moved : Bool := has tup.infomask heapMovedOff || has tup.infomask heapMovedIn

end HeapTupleHeader

/-- mirrors src/include/access/multixact.h:27 -/
def multiXactIdIsValid (multi : MultiXactId) : Bool := multi != 0

/-- `lockerTooOld`: the multixact is not in the cache and older than the oldest one that
the backend can see. mirrors src/backend/access/transam/multixact.c:1201-1248 -/
def getMultiXactIdMembers (members : MultiXactId → List MultiXactMember)
    (lockerTooOld : MultiXactId → Bool) (multi : MultiXactId) (onlyLock : Bool) :
    List MultiXactMember :=
  if !multiXactIdIsValid multi then []
  else if onlyLock && lockerTooOld multi then []
  else members multi

/-- The first update among the members; `GetMultiXactIdMembers` is called without `onlyLock`.
mirrors heapam.c:6984-7026 -/
def multiXactIdGetUpdateXid (members : MultiXactId → List MultiXactMember) (xmax : MultiXactId) :
    TransactionId :=
  match (getMultiXactIdMembers members (fun _ => false) xmax false).find? (·.status.isUpdate) with
  | some member => member.xid
  | none => invalidTransactionId

/-- mirrors heapam.c:7035-7040 -/
def heapTupleGetUpdateXid (members : MultiXactId → List MultiXactMember) (tup : HeapTupleHeader) :
    TransactionId :=
  multiXactIdGetUpdateXid members tup.xmax

/-- mirrors htup_details.h:359-367 -/
def HeapTupleHeader.getUpdateXid (members : MultiXactId → List MultiXactMember)
    (tup : HeapTupleHeader) : TransactionId :=
  if !has tup.infomask heapXmaxInvalid && has tup.infomask heapXmaxIsMulti &&
    !has tup.infomask heapXmaxLockOnly then
    heapTupleGetUpdateXid members tup
  else tup.xmax

/-- The transaction that `xmax` names as deleter or updater, and not only as a locker. -/
def HeapTupleHeader.deleter (members : MultiXactId → List MultiXactMember) (tup : HeapTupleHeader) :
    Option TransactionId :=
  if heapXmaxIsLockedOnly tup.infomask then none
  else if has tup.infomask heapXmaxIsMulti then some (heapTupleGetUpdateXid members tup)
  else some tup.xmax

/-! ## The two `xmin` bits -/

theorem and_xminBits (m : BitVec 16) : m &&& (heapXminCommitted ||| heapXminInvalid) =
    (if has m heapXminCommitted then heapXminCommitted else 0) |||
      (if has m heapXminInvalid then heapXminInvalid else 0) :=
  and_twoPow_or m 8 9 (by decide) (by decide)

theorem xminInvalid_eq (tup : HeapTupleHeader) :
    tup.xminInvalid = (!tup.xminCommitted && has tup.infomask heapXminInvalid) := by
  rw [HeapTupleHeader.xminInvalid, HeapTupleHeader.xminCommitted, and_xminBits]
  cases has tup.infomask heapXminCommitted <;> cases has tup.infomask heapXminInvalid <;> decide

theorem xminFrozen_eq (tup : HeapTupleHeader) :
    tup.xminFrozen = (tup.xminCommitted && has tup.infomask heapXminInvalid) := by
  rw [HeapTupleHeader.xminFrozen, HeapTupleHeader.xminCommitted, heapXminFrozen, and_xminBits]
  cases has tup.infomask heapXminCommitted <;> cases has tup.infomask heapXminInvalid <;> decide

/-! ## Headers that differ in hint bits -/

def hintBits : BitVec 16 :=
  heapXminCommitted ||| heapXminInvalid ||| heapXmaxCommitted ||| heapXmaxInvalid

/-- The same tuple, with other hint bits. -/
structure Hinted (tup tup' : HeapTupleHeader) : Prop where
  xmin : tup'.xmin = tup.xmin
  xmax : tup'.xmax = tup.xmax
  field3 : tup'.field3 = tup.field3
  infomask : Agree hintBits tup'.infomask tup.infomask
  frozen : tup'.xminFrozen = tup.xminFrozen

namespace Hinted
variable {tup tup' tup'' : HeapTupleHeader}

theorem refl (tup : HeapTupleHeader) : Hinted tup tup := ⟨rfl, rfl, rfl, .refl _ _, rfl⟩

theorem trans (h : Hinted tup tup') (h' : Hinted tup' tup'') : Hinted tup tup'' :=
  ⟨h'.xmin.trans h.xmin, h'.xmax.trans h.xmax, h'.field3.trans h.field3,
    h'.infomask.trans h.infomask, h'.frozen.trans h.frozen⟩

section

variable (h : Hinted tup tup')
include h

theorem getXmin_eq : tup'.getXmin = tup.getXmin := by
  rw [HeapTupleHeader.getXmin, HeapTupleHeader.getXmin, h.frozen, h.xmin]

theorem movedOff_eq : has tup'.infomask heapMovedOff = has tup.infomask heapMovedOff :=
  h.infomask.has_eq (by decide)

theorem movedIn_eq : has tup'.infomask heapMovedIn = has tup.infomask heapMovedIn :=
  h.infomask.has_eq (by decide)

theorem moved_eq : tup'.moved = tup.moved := by
  rw [HeapTupleHeader.moved, HeapTupleHeader.moved, h.movedOff_eq, h.movedIn_eq]

theorem getXvac_eq : tup'.getXvac = tup.getXvac := by
  rw [HeapTupleHeader.getXvac, HeapTupleHeader.getXvac, h.infomask.has_eq (by decide), h.field3]

theorem getCmin_eq (comboCids : CommandId → CommandId × CommandId) :
    tup'.getCmin comboCids = tup.getCmin comboCids := by
  rw [HeapTupleHeader.getCmin, HeapTupleHeader.getCmin, h.infomask.has_eq (by decide), h.field3]

theorem getCmax_eq (comboCids : CommandId → CommandId × CommandId) :
    tup'.getCmax comboCids = tup.getCmax comboCids := by
  rw [HeapTupleHeader.getCmax, HeapTupleHeader.getCmax, h.infomask.has_eq (by decide), h.field3]

theorem lockedOnly_eq : heapXmaxIsLockedOnly tup'.infomask = heapXmaxIsLockedOnly tup.infomask := by
  rw [heapXmaxIsLockedOnly, heapXmaxIsLockedOnly, h.infomask.has_eq (by decide),
    h.infomask.and_eq (by decide)]

theorem deleter_eq (members : MultiXactId → List MultiXactMember) :
    tup'.deleter members = tup.deleter members := by
  rw [HeapTupleHeader.deleter, HeapTupleHeader.deleter, h.lockedOnly_eq,
    h.infomask.has_eq (by decide), heapTupleGetUpdateXid, heapTupleGetUpdateXid, h.xmax]

end

end Hinted

end GreenPipeline.L2.HeapTuple
