import GreenPipeline.Core.BitFields
import GreenPipeline.L2Access.TransactionId
import Mathlib.Data.List.TakeWhile

/-!
# The commit log

Two bits for each transaction, four transactions in a byte, and the updates that record the end of a
transaction tree (`src/backend/access/transam/clog.c`). One call of `TransactionIdSetPageStatus`
holds the control lock throughout, so it is one step for everyone else; a tree that is spread over
several pages takes several such calls.

The buffers that hold the pages, the group LSNs and writing to disk are not modelled.

Results:

* `getStatus_setStatusBit`: setting one status leaves the others alone.
* `getStatus_commit`, `getStatus_subCommit`: the effect of one call.
* `setTreeStatus_committed`: the calls that commit a tree: subcommit what is on other pages, then
  the page of the top-level transaction, then the others.
-/
namespace GreenPipeline.L2.Clog

open GreenPipeline.Core.BitFields GreenPipeline.L2.Transam List

/-! ## Pages, bytes and bits -/

/-- mirrors src/include/access/clog.h:26-29 -/
inductive XidStatus where
  | inProgress
  | committed
  | aborted
  | subCommitted
  deriving DecidableEq

def XidStatus.bits : XidStatus → BitVec 8
  | .inProgress => 0x00#8
  | .committed => 0x01#8
  | .aborted => 0x02#8
  | .subCommitted => 0x03#8

def XidStatus.ofBits (b : BitVec 8) : XidStatus :=
  if b = 0x01#8 then .committed else if b = 0x02#8 then .aborted
  else if b = 0x03#8 then .subCommitted else .inProgress

def clogBitsPerXact : Nat := 2

def clogXactsPerByte : Nat := 4

/-- `BLCKSZ * CLOG_XACTS_PER_BYTE` -/
def clogXactsPerPage : Nat := 32768

/-- mirrors clog.c:61-64 -/
def transactionIdToPage (xid : TransactionId) : Nat := xid.toNat / clogXactsPerPage

def transactionIdToPgIndex (xid : TransactionId) : Nat := xid.toNat % clogXactsPerPage

def transactionIdToByte (xid : TransactionId) : Nat := transactionIdToPgIndex xid / clogXactsPerByte

def transactionIdToBIndex (xid : TransactionId) : Nat := xid.toNat % clogXactsPerByte

def bshift (xid : TransactionId) : Nat := transactionIdToBIndex xid * clogBitsPerXact

/-- The bytes of each page. -/
abbrev ClogPages : Type := Nat → Nat → BitVec 8

/-- mirrors clog.c:412-437 -/
def transactionIdGetStatus (clog : ClogPages) (xid : TransactionId) : XidStatus :=
  .ofBits (getField clogBitsPerXact
    (clog (transactionIdToPage xid) (transactionIdToByte xid)) (bshift xid))

def setByte (clog : ClogPages) (pageno byteno : Nat) (byteval : BitVec 8) : ClogPages :=
  fun p b => if p = pageno ∧ b = byteno then byteval else clog p b

/-- mirrors clog.c:345-396 -/
def transactionIdSetStatusBit (inRecovery : Bool) (pageno : Nat) (status : XidStatus)
    (clog : ClogPages) (xid : TransactionId) :
    ClogPages :=
  let byteval := clog pageno (transactionIdToByte xid)
  let curval := XidStatus.ofBits (getField clogBitsPerXact byteval (bshift xid))
  -- already marked when a commit is replayed
  if inRecovery = true ∧ status = .subCommitted ∧ curval = .committed then clog
  else setByte clog pageno (transactionIdToByte xid)
    (setField clogBitsPerXact byteval (bshift xid) status.bits)

/-! ## Setting the status of a page and of a tree -/

/-- The arguments of `TransactionIdSetPageStatus`. -/
structure PageStatus where
  xid : TransactionId
  subxids : List TransactionId
  status : XidStatus
  pageno : Nat

/-- mirrors clog.c:272-337 -/
def transactionIdSetPageStatus (inRecovery : Bool) (call : PageStatus)
    (clog : ClogPages) : ClogPages :=
  let set := transactionIdSetStatusBit inRecovery call.pageno
  let clog :=
    if transactionIdIsValid call.xid then
      -- subtransactions first, then the main transaction
      set call.status (if call.status = .committed then
        call.subxids.foldl (set .subCommitted) clog else clog) call.xid
    else clog
  call.subxids.foldl (set call.status) clog

/-- The run of xids on one page is over at the first one on another page.
mirrors clog.c:241-263 -/
def setStatusByPagesLoop (status : XidStatus) :
    (pageno : Nat) → (onPage : List TransactionId) → List TransactionId →
    List PageStatus
  | pageno, onPage, [] => [⟨invalidTransactionId, onPage, status, pageno⟩]
  | pageno, onPage, x :: rest =>
    if transactionIdToPage x ≠ pageno then
      ⟨invalidTransactionId, onPage, status, pageno⟩ ::
        setStatusByPagesLoop status (transactionIdToPage x) [x] rest
    else setStatusByPagesLoop status pageno (onPage ++ [x]) rest

/-- mirrors clog.c:230-264 -/
def setStatusByPages (status : XidStatus) : List TransactionId → List PageStatus
  | [] => []
  | x :: rest => setStatusByPagesLoop status (transactionIdToPage x) [x] rest

/-- The calls of `TransactionIdSetPageStatus`, in order.
mirrors clog.c:148-215 -/
def transactionIdSetTreeStatus (xid : TransactionId) (subxids : List TransactionId)
    (status : XidStatus) : List PageStatus :=
  let onFirstPage := subxids.takeWhile fun x => transactionIdToPage x == transactionIdToPage xid
  let others := subxids.dropWhile fun x => transactionIdToPage x == transactionIdToPage xid
  if onFirstPage.length = subxids.length then [⟨xid, subxids, status, transactionIdToPage xid⟩]
  else
    (if status = .committed then setStatusByPages .subCommitted others else []) ++
      ⟨xid, onFirstPage, status, transactionIdToPage xid⟩ :: setStatusByPages status others

/-! ## One status -/

theorem XidStatus.ofBits_bits (s : XidStatus) : XidStatus.ofBits s.bits = s := by
  cases s <;> decide

theorem XidStatus.fits (s : XidStatus) : Fits clogBitsPerXact s.bits := by
  intro i hi
  rw [clogBitsPerXact] at hi
  by_cases h8 : i < 8
  · have hcases : i = 2 ∨ i = 3 ∨ i = 4 ∨ i = 5 ∨ i = 6 ∨ i = 7 := by omega
    obtain rfl | rfl | rfl | rfl | rfl | rfl := hcases <;> cases s <;> decide
  · exact BitVec.getLsbD_of_ge _ _ (by omega)

theorem bshift_add_le (xid : TransactionId) : bshift xid + clogBitsPerXact ≤ 8 := by
  unfold bshift transactionIdToBIndex clogBitsPerXact clogXactsPerByte
  omega

variable {x : TransactionId} {pageno : Nat} {call : PageStatus} {onPage : List TransactionId}

/-- Two transactions of one byte have different bits. -/
theorem disjoint_of_ne {y : TransactionId} (hpage : transactionIdToPage x = transactionIdToPage y)
    (hbyte : transactionIdToByte x = transactionIdToByte y) (hne : x ≠ y) :
    bshift x + clogBitsPerXact ≤ bshift y ∨ bshift y + clogBitsPerXact ≤ bshift x := by
  have hnat : x.toNat ≠ y.toNat := fun h => hne (BitVec.eq_of_toNat_eq h)
  unfold transactionIdToPage clogXactsPerPage at hpage
  unfold transactionIdToByte transactionIdToPgIndex clogXactsPerPage clogXactsPerByte at hbyte
  unfold bshift transactionIdToBIndex clogBitsPerXact clogXactsPerByte
  omega

variable {inRecovery : Bool} {clog : ClogPages}

/-- The status that is found after setting the one of `xid`, which lies on the page. -/
theorem getStatus_setStatusBit (status : XidStatus) {xid : TransactionId}
    (hpage : transactionIdToPage xid = pageno) (x : TransactionId) :
    transactionIdGetStatus (transactionIdSetStatusBit inRecovery pageno status clog xid) x =
      if x = xid then
        if inRecovery = true ∧ status = .subCommitted ∧
          transactionIdGetStatus clog xid = .committed then .committed
        else status
      else transactionIdGetStatus clog x := by
  subst hpage
  have hcur : XidStatus.ofBits
      (getField clogBitsPerXact (clog (transactionIdToPage xid) (transactionIdToByte xid))
      (bshift xid)) = transactionIdGetStatus clog xid := rfl
  unfold transactionIdSetStatusBit
  dsimp only
  rw [hcur]
  by_cases hskip : inRecovery = true ∧ status = .subCommitted ∧
    transactionIdGetStatus clog xid = .committed
  · rw [if_pos hskip, if_pos hskip]
    split
    · rename_i hx
      rw [hx]
      exact hskip.2.2
    · rfl
  · rw [if_neg hskip, if_neg hskip]
    by_cases hx : x = xid
    · subst hx
      rw [if_pos rfl, transactionIdGetStatus, setByte, if_pos ⟨rfl, rfl⟩,
        getField_setField (XidStatus.fits status) (bshift_add_le x), XidStatus.ofBits_bits]
    · rw [if_neg hx, transactionIdGetStatus, setByte]
      split
      · rename_i hsame
        rw [getField_setField_of_disjoint (XidStatus.fits status)
          (disjoint_of_ne hsame.1.symm hsame.2.symm (Ne.symm hx)), transactionIdGetStatus,
          hsame.1, hsame.2]
      · rfl

/-! ## One call -/

/-- Setting the status of several transactions on the page. -/
theorem getStatus_foldl (status : XidStatus) {xids : List TransactionId}
    (hpage : ∀ y ∈ xids, transactionIdToPage y = pageno) (x : TransactionId) :
    transactionIdGetStatus
      (xids.foldl (transactionIdSetStatusBit inRecovery pageno status) clog) x =
      if x ∈ xids then
        if inRecovery = true ∧ status = .subCommitted ∧
          transactionIdGetStatus clog x = .committed then .committed
        else status
      else transactionIdGetStatus clog x := by
  induction xids generalizing clog with
  | nil => rw [foldl_nil, if_neg not_mem_nil]
  | cons y xids ih =>
    rw [foldl_cons, ih (forall_mem_cons.1 hpage).2,
      getStatus_setStatusBit status (hpage y mem_cons_self)]
    by_cases hxy : x = y
    · subst hxy
      rw [if_pos rfl, if_pos mem_cons_self]
      -- setting it once more changes nothing
      by_cases hskip : inRecovery = true ∧ status = .subCommitted ∧
        transactionIdGetStatus clog x = .committed
      · simp [hskip]
      · split
        · rename_i hmem
          rw [if_neg]
          rintro ⟨-, hsub, hcom⟩
          rw [hsub] at hcom
          cases hcom
        · rfl
    · simp [mem_cons, hxy]

/-- All transactions of the call lie on its page. -/
structure PageStatus.OnPage (call : PageStatus) : Prop where
  xid : transactionIdIsValid call.xid = true → transactionIdToPage call.xid = call.pageno
  subxids : ∀ x ∈ call.subxids, transactionIdToPage x = call.pageno

/-- The transactions whose status the call sets. -/
def PageStatus.xids (call : PageStatus) : List TransactionId :=
  if transactionIdIsValid call.xid then call.xid :: call.subxids else call.subxids

theorem PageStatus.mem_xids : x ∈ call.xids ↔ transactionIdIsValid call.xid = true ∧ x = call.xid ∨
    x ∈ call.subxids := by
  unfold PageStatus.xids
  split
  · rename_i hvalid
    rw [mem_cons, hvalid, eq_self_iff_true, true_and]
  · rename_i hvalid
    rw [or_iff_right fun h => hvalid h.1]

theorem getStatus_of_notMem (hcall : call.OnPage) (hx : x ∉ call.xids) :
    transactionIdGetStatus (transactionIdSetPageStatus inRecovery call clog) x =
      transactionIdGetStatus clog x := by
  rw [PageStatus.mem_xids, not_or] at hx
  rw [transactionIdSetPageStatus, getStatus_foldl _ hcall.subxids, if_neg hx.2]
  split
  · rename_i hvalid
    rw [getStatus_setStatusBit _ (hcall.xid hvalid), if_neg fun h => hx.1 ⟨hvalid, h⟩]
    split
    · rw [getStatus_foldl _ hcall.subxids, if_neg hx.2]
    · rfl
  · rfl

/-- A call that commits. -/
theorem getStatus_commit (hcall : call.OnPage) (hstatus : call.status = .committed)
    (hx : x ∈ call.xids) :
    transactionIdGetStatus (transactionIdSetPageStatus inRecovery call clog) x = .committed := by
  have hnot : ∀ s : XidStatus,
      ¬ (inRecovery = true ∧ XidStatus.committed = .subCommitted ∧ s = .committed) := fun s h => by
    cases h.2.1
  rw [transactionIdSetPageStatus, hstatus, getStatus_foldl _ hcall.subxids, if_neg (hnot _)]
  split
  · rfl
  · rename_i hsub
    obtain ⟨hvalid, rfl⟩ := (PageStatus.mem_xids.1 hx).resolve_right hsub
    rw [if_pos hvalid, getStatus_setStatusBit _ (hcall.xid hvalid), if_pos rfl, if_neg (hnot _)]

/-- A call that subcommits what is not committed. -/
theorem getStatus_subCommit (hcall : call.OnPage) (hstatus : call.status = .subCommitted)
    (hxid : call.xid = invalidTransactionId) (hx : x ∈ call.xids)
    (hcom : transactionIdGetStatus clog x ≠ .committed) :
    transactionIdGetStatus (transactionIdSetPageStatus inRecovery call clog) x = .subCommitted := by
  have hinvalid : transactionIdIsValid call.xid = false := by rw [hxid]; rfl
  have hsub : x ∈ call.subxids := by
    rw [PageStatus.mem_xids, hinvalid] at hx
    simpa using hx
  rw [transactionIdSetPageStatus, hinvalid, hstatus, getStatus_foldl _ hcall.subxids, if_pos hsub]
  exact if_neg fun h => hcom h.2.2

/-! ## The calls for a tree -/

/-- Calls that set the status of the transactions `l`, each on its own page. -/
structure ByPages (status : XidStatus) (l : List TransactionId)
    (calls : List PageStatus) : Prop where
  xid : ∀ call ∈ calls, call.xid = invalidTransactionId
  status : ∀ call ∈ calls, call.status = status
  onPage : ∀ call ∈ calls, call.OnPage
  mem : ∀ x, x ∈ l ↔ ∃ call ∈ calls, x ∈ call.xids

theorem xids_of_invalid {status : XidStatus} :
    (⟨invalidTransactionId, onPage, status, pageno⟩ : PageStatus).xids = onPage := rfl

theorem onPage_of_invalid {status : XidStatus} (h : ∀ x ∈ onPage, transactionIdToPage x = pageno) :
    (⟨invalidTransactionId, onPage, status, pageno⟩ : PageStatus).OnPage :=
  ⟨fun hvalid => (by cases hvalid), h⟩

theorem setStatusByPagesLoop_byPages (status : XidStatus)
    (h : ∀ x ∈ onPage, transactionIdToPage x = pageno) (rest : List TransactionId) :
    ByPages status (onPage ++ rest) (setStatusByPagesLoop status pageno onPage rest) := by
  induction rest generalizing pageno onPage with
  | nil =>
    rw [setStatusByPagesLoop]
    refine ⟨?_, ?_, ?_, fun x => ?_⟩
    · exact forall_mem_singleton.2 rfl
    · exact forall_mem_singleton.2 rfl
    · exact forall_mem_singleton.2 (onPage_of_invalid h)
    · simp [xids_of_invalid]
  | cons y rest ih =>
    rw [setStatusByPagesLoop]
    split
    · have hrest : ByPages status (y :: rest) _ := ih (forall_mem_singleton.2 rfl)
      refine ⟨?_, ?_, ?_, fun x => ?_⟩
      · exact forall_mem_cons.2 ⟨rfl, hrest.xid⟩
      · exact forall_mem_cons.2 ⟨rfl, hrest.status⟩
      · exact forall_mem_cons.2 ⟨onPage_of_invalid h, hrest.onPage⟩
      · simp [hrest.mem x, xids_of_invalid]
    · rename_i hpage
      have hnext := ih (forall_mem_append.2 ⟨h, forall_mem_singleton.2 (not_not.1 hpage)⟩)
      rwa [append_assoc] at hnext

theorem setStatusByPages_byPages (status : XidStatus) (l : List TransactionId) :
    ByPages status l (setStatusByPages status l) := by
  cases l with
  | nil =>
    constructor <;> simp [setStatusByPages]
  | cons x rest => exact setStatusByPagesLoop_byPages status (forall_mem_singleton.2 rfl) rest

/-- The subtransactions that are set with the top-level transaction. -/
def onFirstPage (xid : TransactionId) (subxids : List TransactionId) : List TransactionId :=
  subxids.takeWhile fun x => transactionIdToPage x == transactionIdToPage xid

def onOtherPages (xid : TransactionId) (subxids : List TransactionId) : List TransactionId :=
  subxids.dropWhile fun x => transactionIdToPage x == transactionIdToPage xid

/-- The call that commits the top-level transaction. -/
def commitCall (xid : TransactionId) (subxids : List TransactionId) : PageStatus :=
  ⟨xid, onFirstPage xid subxids, .committed, transactionIdToPage xid⟩

/-- A commit, whether it takes one page or more. -/
theorem setTreeStatus_committed (xid : TransactionId) (subxids : List TransactionId) :
    transactionIdSetTreeStatus xid subxids .committed =
    setStatusByPages .subCommitted (onOtherPages xid subxids) ++
      commitCall xid subxids :: setStatusByPages .committed (onOtherPages xid subxids) := by
  rw [transactionIdSetTreeStatus]
  split
  · rename_i hlen
    have hall :=
      takeWhile_append_dropWhile (p := fun x => transactionIdToPage x == transactionIdToPage xid)
        (l := subxids)
    have hnone : onOtherPages xid subxids = [] := by
      have hsum := congrArg length hall
      rw [length_append] at hsum
      exact length_eq_zero_iff.1 (by unfold onOtherPages; omega)
    have hfirst : onFirstPage xid subxids = subxids := by
      unfold onOtherPages at hnone
      rw [hnone, append_nil] at hall
      exact hall
    rw [hnone, commitCall, hfirst]
    rfl
  · rfl

theorem mem_subxids_iff {xid : TransactionId} {subxids : List TransactionId} :
    x ∈ subxids ↔ x ∈ onFirstPage xid subxids ∨ x ∈ onOtherPages xid subxids := by
  rw [← mem_append, onFirstPage, onOtherPages, takeWhile_append_dropWhile]

theorem commitCall_onPage (xid : TransactionId) (subxids : List TransactionId) :
    (commitCall xid subxids).OnPage := by
  refine ⟨fun _ => rfl, fun x hx => ?_⟩
  have hpage := mem_takeWhile_imp hx
  exact beq_iff_eq.1 hpage

end GreenPipeline.L2.Clog
