import GreenPipeline.Core.Lts
import GreenPipeline.L2Access.Clog
import GreenPipeline.L2Access.Subtrans

/-!
# A transaction tree commits at once

The commit log is updated page by page: first the subtransactions on other pages become
subcommitted, then the top-level transaction and the subtransactions on its page become committed,
in one step, and then the others. Meanwhile any number of backends call `TransactionIdDidCommit`,
which looks at one transaction at a time and follows the recorded parent of a subcommitted one
(`src/backend/access/transam/transam.c`, `subtrans.c`). A backend keeps the last final status that
it fetched.

The steps are: one call of `TransactionIdSetPageStatus`, by the committing backend or by another
one for transactions outside the tree; the beginning of a call of `TransactionIdDidCommit`; one
access of such a call to the commit log or to the parents' log. An answer is kept with the number
of updates that the committing backend had done when the call began and when it ended.

Results:

* `LogInv.write`: the statuses before and after the update of the top-level transaction's page.
* `Inv.step`: what every step keeps.
* `commit_atomic`: one update separates the calls that return false from those that return true,
  and every call returns.
-/
namespace GreenPipeline.L5.CommitTree

open GreenPipeline.Core.Lts GreenPipeline.L2.Transam GreenPipeline.L2.Clog
  GreenPipeline.L2.Subtrans List Nat

/-! ## `TransactionIdDidCommit`, one access at a time -/

/-- mirrors transam.c:33-35 -/
structure FetchCache where
  cachedFetchXid : TransactionId
  cachedFetchXidStatus : XidStatus

/-- mirrors transam.c:51-94 -/
def transactionLogFetch (clog : ClogPages) (cache : FetchCache) (xid : TransactionId) :
    XidStatus × FetchCache :=
  if xid = cache.cachedFetchXid then (cache.cachedFetchXidStatus, cache)
  else if transactionIdIsNormal xid = false then
    (if xid = bootstrapTransactionId then .committed else if xid = frozenTransactionId then
      .committed else .aborted, cache)
  else
    let xidstatus := transactionIdGetStatus clog xid
    -- only a status that will not change is kept
    if xidstatus ≠ .inProgress ∧ xidstatus ≠ .subCommitted then (xidstatus, ⟨xid, xidstatus⟩)
    else (xidstatus, cache)

/-- The next access of a call. -/
inductive Pc where
  | fetch (xid : TransactionId)
  | getParent (xid : TransactionId)

/-- The result, or where the call goes on.
mirrors transam.c:124-171 -/
def didCommitStep (clog : ClogPages) (subtrans : TransactionId → TransactionId)
    (transactionXmin : TransactionId) (cache : FetchCache) : Pc → (Bool ⊕ Pc) × FetchCache
  | .fetch xid =>
    let fetched := transactionLogFetch clog cache xid
    match fetched.1 with
    | .committed => (.inl true, fetched.2)
    | .subCommitted =>
      if transactionIdPrecedes xid transactionXmin then (.inl false, fetched.2)
      else (.inr (.getParent xid), fetched.2)
    | _ => (.inl false, fetched.2)
  | .getParent xid =>
    let parentXid := subTransGetParent subtrans xid
    if transactionIdIsValid parentXid = false then (.inl false, cache)
    else (.inr (.fetch parentXid), cache)

/-! ## The tree -/

/-- The recorded parents lead from the transaction to the top-level one in `n` steps, through
subtransactions of the tree. -/
inductive ChainsTo (subtrans : TransactionId → TransactionId) (top : TransactionId)
    (subxids : List TransactionId) :
    Nat → TransactionId → Prop
  | top : ChainsTo subtrans top subxids 0 top
  | sub {n : Nat} {x : TransactionId} (hx : x ∈ subxids)
      (h : ChainsTo subtrans top subxids n (subtrans x)) :
      ChainsTo subtrans top subxids (n + 1) x

structure TransactionTree where
  top : TransactionId
  subxids : List TransactionId
  subtrans : TransactionId → TransactionId
  normal : ∀ x ∈ top :: subxids, transactionIdIsNormal x = true
  top_notMem : top ∉ subxids
  chain : ∀ x ∈ subxids, ∃ n, ChainsTo subtrans top subxids n x

namespace TransactionTree
variable (tree : TransactionTree)

def members : List TransactionId := tree.top :: tree.subxids

/-- `n` parents up to the top-level transaction. -/
abbrev Depth (n : Nat) (x : TransactionId) : Prop :=
  ChainsTo tree.subtrans tree.top tree.subxids n x

/-- The calls of the committing backend. -/
def updates : List PageStatus := transactionIdSetTreeStatus tree.top tree.subxids .committed

/-- No subtransaction is older than the caller's `TransactionXmin`. -/
def Recent (transactionXmin : TransactionId) : Prop :=
  ∀ x ∈ tree.subxids, transactionIdPrecedes x transactionXmin = false

end TransactionTree

/-! ## The system -/

structure Call where
  xid : TransactionId
  transactionXmin : TransactionId
  pc : Pc
  began : Nat
  accesses : Nat

structure Backend where
  cache : FetchCache
  call : Option Call

structure Answer where
  xid : TransactionId
  transactionXmin : TransactionId
  began : Nat
  ended : Nat
  accesses : Nat
  result : Bool
  deriving DecidableEq

structure State where
  clog : ClogPages
  pending : List PageStatus
  written : Nat
  backends : Nat → Backend
  answers : List Answer

inductive Label where
  /-- The committing backend's next update. -/
  | write
  /-- An update for transactions outside the tree. -/
  | other (call : PageStatus)
  | begin (p : Nat) (xid transactionXmin : TransactionId)
  /-- The next access of the backend's call. -/
  | access (p : Nat)

def State.setBackend (s : State) (p : Nat) (b : Backend) : State :=
  { s with backends := fun q => if q = p then b else s.backends q }

/-- All transactions are on the page and none belongs to the tree. -/
def outside (tree : TransactionTree) (call : PageStatus) : Bool :=
  call.xids.all fun x => transactionIdToPage x == call.pageno && !tree.members.contains x

def step (tree : TransactionTree) (inRecovery : Bool) (s : State) : Label → Option State
  | .write =>
    match s.pending with
    | [] => none
    | call :: rest =>
      some { s with
        clog := transactionIdSetPageStatus inRecovery call s.clog
        pending := rest
        written := s.written + 1 }
  | .other call =>
    if outside tree call then
      some { s with clog := transactionIdSetPageStatus inRecovery call s.clog } else none
  | .begin p xid transactionXmin =>
    match (s.backends p).call with
    | some _ => none
    | none =>
      some (s.setBackend p ⟨(s.backends p).cache,
        some ⟨xid, transactionXmin, .fetch xid, s.written, 0⟩⟩)
  | .access p =>
    match (s.backends p).call with
    | none => none
    | some call =>
      match didCommitStep s.clog tree.subtrans call.transactionXmin
        (s.backends p).cache call.pc with
      | (.inr pc, cache) =>
        some (s.setBackend p ⟨cache, some { call with pc := pc, accesses := call.accesses + 1 }⟩)
      | (.inl result, cache) =>
        some { s.setBackend p ⟨cache, none⟩ with
          answers :=
            s.answers ++
              [⟨call.xid, call.transactionXmin, call.began, s.written, call.accesses + 1, result⟩] }

/-- Nothing of the tree has ended, no backend has cached one of its transactions and no call is
under way. -/
structure Initial (tree : TransactionTree) (s : State) : Prop where
  pending : s.pending = tree.updates
  written : s.written = 0
  top : transactionIdGetStatus s.clog tree.top = .inProgress
  subxids : ∀ x ∈ tree.subxids,
    transactionIdGetStatus s.clog x = .inProgress ∨ transactionIdGetStatus s.clog x = .subCommitted
  cache : ∀ p, (s.backends p).cache.cachedFetchXid ∉ tree.members
  calls : ∀ p, (s.backends p).call = none
  answers : s.answers = []

/-! ## The log -/

variable {x : TransactionId} {call : PageStatus}

section
variable {tree : TransactionTree} {inRecovery : Bool}

namespace TransactionTree

/-- The updates before the one that commits the top-level transaction. -/
def before (tree : TransactionTree) : List PageStatus :=
  setStatusByPages .subCommitted (onOtherPages tree.top tree.subxids)

def after (tree : TransactionTree) : List PageStatus :=
  setStatusByPages .committed (onOtherPages tree.top tree.subxids)

theorem updates_eq (tree : TransactionTree) :
    tree.updates = tree.before ++ commitCall tree.top tree.subxids :: tree.after :=
  setTreeStatus_committed _ _

theorem before_byPages (tree : TransactionTree) :
    ByPages .subCommitted (onOtherPages tree.top tree.subxids) tree.before :=
  setStatusByPages_byPages _ _

theorem after_byPages (tree : TransactionTree) :
    ByPages .committed (onOtherPages tree.top tree.subxids) tree.after :=
  setStatusByPages_byPages _ _

theorem isValid_top (tree : TransactionTree) : transactionIdIsValid tree.top = true :=
  isValid_of_isNormal (tree.normal tree.top mem_cons_self)

theorem mem_commitCall : x ∈ (commitCall tree.top tree.subxids).xids ↔ x = tree.top ∨
    x ∈ onFirstPage tree.top tree.subxids := by
  rw [PageStatus.mem_xids]
  exact or_congr (and_iff_right tree.isValid_top) Iff.rfl

/-- The updates by pages concern subtransactions only. -/
theorem mem_subxids_of_byPages {status : XidStatus} {calls : List PageStatus}
    (h : ByPages status (onOtherPages tree.top tree.subxids) calls) (hcall : call ∈ calls)
    (hx : x ∈ call.xids) : x ∈ tree.subxids :=
  mem_subxids_iff.2 (.inr ((h.mem x).2 ⟨call, hcall, hx⟩))

end TransactionTree

/-- The status of the tree's transactions after `written` updates. -/
structure LogInv (tree : TransactionTree) (clog : ClogPages) (written : Nat) : Prop where
  before : written ≤ tree.before.length →
    transactionIdGetStatus clog tree.top = .inProgress ∧
    (∀ x ∈ tree.subxids, transactionIdGetStatus clog x = .inProgress ∨
      transactionIdGetStatus clog x = .subCommitted) ∧
    ∀ call ∈ tree.before.take written, ∀ x ∈ call.xids,
    transactionIdGetStatus clog x = .subCommitted
  after : tree.before.length < written →
    transactionIdGetStatus clog tree.top = .committed ∧
    ∀ x ∈ tree.subxids, transactionIdGetStatus clog x = .committed ∨
    transactionIdGetStatus clog x = .subCommitted

/-- An update for other transactions. -/
theorem LogInv.congr {clog clog' : ClogPages} {written : Nat} (h : LogInv tree clog written)
    (heq : ∀ x ∈ tree.members, transactionIdGetStatus clog' x = transactionIdGetStatus clog x) :
    LogInv tree clog' written := by
  have htop := heq tree.top mem_cons_self
  have hsub : ∀ x ∈ tree.subxids, transactionIdGetStatus clog' x = transactionIdGetStatus clog x :=
    fun x hx =>
    heq x (mem_cons_of_mem _ hx)
  refine ⟨fun hle => ?_, fun hlt => ?_⟩
  · obtain ⟨h₁, h₂, h₃⟩ := h.before hle
    refine ⟨htop.trans h₁, fun x hx => hsub x hx ▸ h₂ x hx, fun call hcall x hx => ?_⟩
    rw [hsub x
      (TransactionTree.mem_subxids_of_byPages tree.before_byPages (mem_of_mem_take hcall) hx)]
    exact h₃ call hcall x hx
  · obtain ⟨h₁, h₂⟩ := h.after hlt
    exact ⟨htop.trans h₁, fun x hx => hsub x hx ▸ h₂ x hx⟩

/-- Subcommitting the transactions of one of the other pages. -/
theorem LogInv.subCommit {clog : ClogPages} {written : Nat} (h : LogInv tree clog written)
    (hcall : tree.before[written]? = some call) :
    LogInv tree (transactionIdSetPageStatus inRecovery call clog) (written + 1) := by
  have hlt := (List.getElem?_eq_some_iff.1 hcall).1
  have hmem := List.mem_of_getElem? hcall
  have hby := tree.before_byPages
  obtain ⟨htop, hsubs, hdone⟩ := h.before (le_of_lt hlt)
  have honPage := hby.onPage call hmem
  have hset : ∀ x ∈ call.xids,
      transactionIdGetStatus (transactionIdSetPageStatus inRecovery call clog) x =
      .subCommitted := by
    intro x hx
    refine getStatus_subCommit honPage (hby.status call hmem) (hby.xid call hmem) hx fun hcom => ?_
    obtain hst | hst := hsubs x (TransactionTree.mem_subxids_of_byPages hby hmem hx) <;>
      rw [hst] at hcom <;> cases hcom
  refine ⟨fun _ => ⟨?_, fun x hx => ?_, fun c hc x hx => ?_⟩,
    fun hcontra => absurd hcontra (by omega)⟩
  · rw [getStatus_of_notMem honPage]
    · exact htop
    · exact fun hx => tree.top_notMem (TransactionTree.mem_subxids_of_byPages hby hmem hx)
  · by_cases hx' : x ∈ call.xids
    · exact .inr (hset x hx')
    · rw [getStatus_of_notMem honPage hx']
      exact hsubs x hx
  · by_cases hx' : x ∈ call.xids
    · exact hset x hx'
    · rw [List.take_add_one, hcall] at hc
      obtain hc | hc := List.mem_append.1 hc
      · rw [getStatus_of_notMem honPage hx']
        exact hdone c hc x hx
      · cases List.mem_singleton.1 hc
        exact absurd hx hx'

/-- The update of the top-level transaction's page. -/
theorem LogInv.commit {clog : ClogPages} (h : LogInv tree clog tree.before.length) :
    LogInv tree (transactionIdSetPageStatus inRecovery (commitCall tree.top tree.subxids) clog)
      (tree.before.length + 1) := by
  obtain ⟨-, -, hdone⟩ := h.before (le_refl _)
  rw [take_length] at hdone
  have honPage := commitCall_onPage tree.top tree.subxids
  refine ⟨fun hcontra => absurd hcontra (by omega), fun _ => ⟨?_, fun x hx => ?_⟩⟩
  · exact getStatus_commit honPage rfl (TransactionTree.mem_commitCall.2 (.inl rfl))
  · by_cases hx' : x ∈ (commitCall tree.top tree.subxids).xids
    · exact .inl (getStatus_commit honPage rfl hx')
    · rw [getStatus_of_notMem honPage hx']
      obtain hfirst | hother := mem_subxids_iff.1 hx
      · exact absurd (TransactionTree.mem_commitCall.2 (.inr hfirst)) hx'
      · obtain ⟨call, hcall, hxcall⟩ := (tree.before_byPages.mem x).1 hother
        exact .inr (hdone call hcall x hxcall)

/-- Committing the transactions of one of the other pages. -/
theorem LogInv.commitOther {clog : ClogPages} {written : Nat} (h : LogInv tree clog written)
    (hlt : tree.before.length < written) (hcall : call ∈ tree.after) :
    LogInv tree (transactionIdSetPageStatus inRecovery call clog) (written + 1) := by
  obtain ⟨htop, hsubs⟩ := h.after hlt
  have hby := tree.after_byPages
  have honPage := hby.onPage call hcall
  refine ⟨fun hcontra => absurd hcontra (by omega), fun _ => ⟨?_, fun x hx => ?_⟩⟩
  · rw [getStatus_of_notMem honPage]
    · exact htop
    · exact fun hx => tree.top_notMem (TransactionTree.mem_subxids_of_byPages hby hcall hx)
  · by_cases hx' : x ∈ call.xids
    · exact .inl (getStatus_commit honPage (hby.status call hcall) hx')
    · rw [getStatus_of_notMem honPage hx']
      exact hsubs x hx

/-- The next update of the committing backend. -/
theorem LogInv.write {clog : ClogPages} {written : Nat} (h : LogInv tree clog written)
    (hcall : tree.updates[written]? = some call) :
    LogInv tree (transactionIdSetPageStatus inRecovery call clog) (written + 1) := by
  rw [tree.updates_eq] at hcall
  obtain hlt | heq | hgt := lt_trichotomy written tree.before.length
  · rw [getElem?_append_left hlt] at hcall
    exact h.subCommit hcall
  · subst heq
    rw [getElem?_append_right (Nat.le_refl _), Nat.sub_self, getElem?_cons_zero] at hcall
    cases hcall
    exact h.commit
  · rw [getElem?_append_right (by omega)] at hcall
    obtain ⟨n, hn⟩ : ∃ n, written - tree.before.length = n + 1 :=
      ⟨written - tree.before.length - 1, by omega⟩
    rw [hn, getElem?_cons_succ] at hcall
    exact h.commitOther hgt (mem_of_getElem? hcall)

end

/-! ## The observers -/

section
variable {tree : TransactionTree} {inRecovery : Bool} {clog : ClogPages} {written : Nat}

/-- The top-level transaction's page has been updated. -/
def TransactionTree.Done (tree : TransactionTree) (written : Nat) : Prop :=
  tree.before.length < written

/-- A cached transaction of the tree is committed. -/
def CacheOk (tree : TransactionTree) (written : Nat) (cache : FetchCache) : Prop :=
  cache.cachedFetchXid ∈ tree.members → cache.cachedFetchXidStatus = .committed ∧ tree.Done written

/-- What the log says of a transaction of the tree. -/
def StatusOk (tree : TransactionTree) (written : Nat) (x : TransactionId) : XidStatus → Prop
  | .committed => tree.Done written
  | .subCommitted => x ∈ tree.subxids
  | .inProgress => ¬ tree.Done written
  | .aborted => False

theorem LogInv.statusOk (h : LogInv tree clog written) (hx : x ∈ tree.members) :
    StatusOk tree written x (transactionIdGetStatus clog x) := by
  by_cases hdone : tree.Done written
  · obtain ⟨htop, hsubs⟩ := h.after hdone
    obtain rfl | hx := mem_cons.1 hx
    · rw [htop]
      exact hdone
    · obtain hst | hst := hsubs x hx <;> rw [hst]
      · exact hdone
      · exact hx
  · obtain ⟨htop, hsubs, -⟩ := h.before (not_lt.1 hdone)
    obtain rfl | hx := mem_cons.1 hx
    · rw [htop]
      exact hdone
    · obtain hst | hst := hsubs x hx <;> rw [hst]
      · exact hdone
      · exact hx

variable {cache : FetchCache}

section

variable (hlog : LogInv tree clog written) (hcache : CacheOk tree written cache)
include hlog hcache

/-- Fetching keeps the cache right. -/
theorem CacheOk.fetch (x : TransactionId) :
    CacheOk tree written (transactionLogFetch clog cache x).2 := by
  unfold transactionLogFetch
  split
  · exact hcache
  split
  · exact hcache
  dsimp only
  split
  · rename_i hfinal
    intro hx
    have hst := hlog.statusOk hx
    revert hst hfinal
    cases transactionIdGetStatus clog x with
    | inProgress => exact fun h => absurd rfl h.1
    | subCommitted => exact fun h => absurd rfl h.2
    | committed => exact fun _ h => ⟨rfl, h⟩
    | aborted => exact fun _ h => h.elim
  · exact hcache

/-- The status fetched for a transaction of the tree. -/
theorem CacheOk.statusOk (hx : x ∈ tree.members) :
    StatusOk tree written x (transactionLogFetch clog cache x).1 := by
  unfold transactionLogFetch
  split
  · rename_i heq
    obtain ⟨hst, hdone⟩ := hcache (heq ▸ hx)
    rw [hst]
    exact hdone
  · rw [tree.normal x hx, if_neg (by simp)]
    have hst := hlog.statusOk hx
    dsimp only
    split <;> exact hst

end

theorem TransactionTree.mem_members_of_depth {n : Nat} (h : tree.Depth n x) : x ∈ tree.members := by
  cases h with
  | top => exact mem_cons_self
  | sub hx _ => exact mem_cons_of_mem _ hx

/-- The next transaction that a call looks at is one of the tree, and the accesses are bounded by
the depth. -/
def PcOk (tree : TransactionTree) (bound accesses : Nat) : Pc → Prop
  | .fetch x => ∃ m, tree.Depth m x ∧ accesses + 2 * m ≤ bound
  | .getParent x =>
    ∃ m, x ∈ tree.subxids ∧ tree.Depth m (tree.subtrans x) ∧ accesses + 2 * m + 1 ≤ bound

/-- What a call for a transaction of depth `n` returns. -/
structure ResultOk (tree : TransactionTree) (n began ended accesses : Nat)
    (result : Bool) : Prop where
  before : ¬ tree.Done ended → result = false
  after : tree.Done began → result = true
  accesses : accesses ≤ 2 * n + 1

section

variable (hlog : LogInv tree clog written) (hcache : CacheOk tree written cache)
include hlog hcache

/-- One access of a call for a transaction of depth `n`. -/
theorem didCommitStep_ok {xmin : TransactionId} (hxmin : tree.Recent xmin) {n began accesses : Nat}
    (hbegan : began ≤ written) {pc : Pc} (hpc : PcOk tree (2 * n) accesses pc) :
    CacheOk tree written (didCommitStep clog tree.subtrans xmin cache pc).2 ∧
    match (didCommitStep clog tree.subtrans xmin cache pc).1 with
    | .inl result => ResultOk tree n began written (accesses + 1) result
    | .inr pc => PcOk tree (2 * n) (accesses + 1) pc := by
  have hdone : tree.Done began → tree.Done written := fun h => lt_of_lt_of_le h hbegan
  cases pc with
  | getParent x =>
    obtain ⟨m, hx, hdepth, hbound⟩ := hpc
    have hnormal := tree.normal x (mem_cons_of_mem _ hx)
    have hparent : subTransGetParent tree.subtrans x = tree.subtrans x := by
      rw [subTransGetParent, hnormal, if_neg (by simp)]
    have hvalid := isValid_of_isNormal (tree.normal _ (TransactionTree.mem_members_of_depth hdepth))
    rw [didCommitStep, hparent, hvalid]
    exact ⟨hcache, m, hdepth, by omega⟩
  | fetch x =>
    obtain ⟨m, hdepth, hbound⟩ := hpc
    have hst := hcache.statusOk hlog (TransactionTree.mem_members_of_depth hdepth)
    have hcache' := hcache.fetch hlog x
    rw [didCommitStep]
    revert hst
    cases (transactionLogFetch clog cache x).1 with
    | committed => exact fun h => ⟨hcache', fun hnot => absurd h hnot, fun _ => rfl, by omega⟩
    | inProgress => exact fun h => ⟨hcache', fun _ => rfl, fun hb => absurd (hdone hb) h, by omega⟩
    | aborted => exact fun h => h.elim
    | subCommitted =>
      intro hx
      rw [hxmin x hx, if_neg (by simp)]
      cases hdepth with
      | top => exact absurd hx tree.top_notMem
      | sub _ h => exact ⟨hcache', _, hx, h, by omega⟩

theorem didCommitStep_cache (xmin : TransactionId) (pc : Pc) :
    CacheOk tree written (didCommitStep clog tree.subtrans xmin cache pc).2 := by
  cases pc with
  | getParent x =>
    unfold didCommitStep
    dsimp only
    split <;> exact hcache
  | fetch x =>
    have hcache' := hcache.fetch hlog x
    unfold didCommitStep
    dsimp only
    split
    · exact hcache'
    · split <;> exact hcache'
    · exact hcache'

end

theorem CacheOk.mono (h : CacheOk tree written cache) : CacheOk tree (written + 1) cache :=
  fun hx => ⟨(h hx).1, lt_succ_of_lt (h hx).2⟩

end

/-! ## Runs -/

section
variable {tree : TransactionTree} {inRecovery : Bool}

/-- A call that is under way. -/
structure CallOk (tree : TransactionTree) (written : Nat) (call : Call) : Prop where
  began : call.began ≤ written
  pc : tree.Recent call.transactionXmin → ∀ n, tree.Depth n call.xid →
    PcOk tree (2 * n) call.accesses call.pc

def AnswerOk (tree : TransactionTree) (a : Answer) : Prop :=
  tree.Recent a.transactionXmin → ∀ n, tree.Depth n a.xid →
    ResultOk tree n a.began a.ended a.accesses a.result

structure Inv (tree : TransactionTree) (s : State) : Prop where
  pending : s.pending = tree.updates.drop s.written
  log : LogInv tree s.clog s.written
  cache : ∀ p, CacheOk tree s.written (s.backends p).cache
  calls : ∀ p call, (s.backends p).call = some call → CallOk tree s.written call
  answers : ∀ a ∈ s.answers, AnswerOk tree a

variable {s : State}

theorem Inv.initial (h : Initial tree s) : Inv tree s := by
  refine ⟨?_, ⟨fun _ => ⟨h.top, h.subxids, ?_⟩, fun hdone => ?_⟩, fun p hp => absurd hp (h.cache p),
    fun p call hcall => ?_, ?_⟩
  · rw [h.written, drop_zero]
    exact h.pending
  · intro call hcall
    rw [h.written, take_zero] at hcall
    cases hcall
  · rw [h.written] at hdone
    exact absurd hdone (not_lt_zero _)
  · rw [h.calls p] at hcall
    cases hcall
  · intro a ha
    rw [h.answers] at ha
    cases ha

theorem Inv.setBackend (h : Inv tree s) (p : Nat) {b : Backend}
    (hcache : CacheOk tree s.written b.cache)
    (hcall : ∀ call, b.call = some call → CallOk tree s.written call) :
    Inv tree (s.setBackend p b) := by
  refine ⟨h.pending, h.log, fun q => ?_, fun q call hq => ?_, h.answers⟩
  · show CacheOk tree s.written (if q = p then b else s.backends q).cache
    split
    · exact hcache
    · exact h.cache q
  · change (if q = p then b else s.backends q).call = some call at hq
    split at hq
    · exact hcall call hq
    · exact h.calls q call hq

theorem Inv.write (h : Inv tree s) {rest : List PageStatus} (hpending : s.pending = call :: rest) :
    Inv tree { s with
      clog := transactionIdSetPageStatus inRecovery call s.clog
      pending := rest
      written := s.written + 1 } := by
  have hdrop := h.pending
  rw [hpending] at hdrop
  have hget : tree.updates[s.written]? = some call := by
    rw [← head?_drop, ← hdrop]
    rfl
  have hrest : rest = tree.updates.drop (s.written + 1) := by
    rw [← tail_drop, ← hdrop]
    rfl
  refine ⟨hrest, h.log.write hget, fun p => (h.cache p).mono, fun p c hc => ?_, h.answers⟩
  have hok := h.calls p c hc
  exact ⟨le_succ_of_le hok.began, hok.pc⟩

theorem Inv.other (h : Inv tree s) (houtside : outside tree call = true) :
    Inv tree { s with clog := transactionIdSetPageStatus inRecovery call s.clog } := by
  have hall : ∀ x ∈ call.xids, transactionIdToPage x = call.pageno ∧ x ∉ tree.members := by
    simpa [outside] using houtside
  have honPage : call.OnPage :=
    ⟨fun hvalid => (hall _ (PageStatus.mem_xids.2 (.inl ⟨hvalid, rfl⟩))).1,
      fun x hx => (hall x (PageStatus.mem_xids.2 (.inr hx))).1⟩
  refine ⟨h.pending, h.log.congr fun x hx => ?_, h.cache, h.calls, h.answers⟩
  exact getStatus_of_notMem honPage fun hcall => (hall x hcall).2 hx

variable {p : Nat}

theorem Inv.access (h : Inv tree s) {call : Call}
    (hcall : (s.backends p).call = some call) {s' : State}
    (hstep : step tree inRecovery s (.access p) = some s') : Inv tree s' := by
  have hok := h.calls p call hcall
  have hcache := didCommitStep_cache h.log (h.cache p) call.transactionXmin call.pc
  have hresult :=
    fun hxmin n hn => (didCommitStep_ok h.log (h.cache p) hxmin hok.began (hok.pc hxmin n hn)).2
  simp only [step, hcall] at hstep
  revert hstep hcache hresult
  match didCommitStep s.clog tree.subtrans call.transactionXmin (s.backends p).cache call.pc with
  | (.inr pc, cache) =>
    intro hcache hresult hstep
    cases hstep
    refine h.setBackend p hcache fun c hc => ?_
    cases hc
    exact ⟨hok.began, hresult⟩
  | (.inl result, cache) =>
    intro hcache hresult hstep
    cases hstep
    have hset := h.setBackend p (b := ⟨cache, none⟩) hcache fun c hc => by cases hc
    refine ⟨hset.pending, hset.log, hset.cache, hset.calls, fun a ha => ?_⟩
    obtain ha | ha := mem_append.1 ha
    · exact h.answers a ha
    · cases mem_singleton.1 ha
      exact hresult

variable (tree inRecovery) in
theorem Inv.step : Invariant (step tree inRecovery) (Inv tree) := by
  intro s l s' h hstep
  cases l with
  | write =>
    rw [CommitTree.step] at hstep
    split at hstep
    · cases hstep
    · rename_i call rest hpending
      cases hstep
      exact h.write hpending
  | other call =>
    rw [CommitTree.step] at hstep
    split at hstep
    · rename_i houtside
      cases hstep
      exact h.other houtside
    · cases hstep
  | begin p xid xmin =>
    rw [CommitTree.step] at hstep
    split at hstep
    · cases hstep
    · cases hstep
      refine h.setBackend p (h.cache p) fun c hc => ?_
      cases hc
      exact ⟨le_refl _, fun _ n hn => ⟨n, hn, le_of_eq (zero_add _)⟩⟩
  | access p =>
    cases hcall : (s.backends p).call with
    | none => simp [CommitTree.step, hcall] at hstep
    | some call => exact h.access hcall hstep

/-- An access ends the call or counts. -/
theorem access_progress (tree : TransactionTree) (inRecovery : Bool) {call : Call}
    (hcall : (s.backends p).call = some call) :
    ∃ s', step tree inRecovery s (.access p) = some s' ∧
      ((s'.backends p).call = none ∨ ∃ pc,
        (s'.backends p).call = some { call with pc := pc, accesses := call.accesses + 1 }) := by
  simp only [step, hcall]
  match didCommitStep s.clog tree.subtrans call.transactionXmin (s.backends p).cache call.pc with
  | (.inr pc, cache) => exact ⟨_, rfl, .inr ⟨pc, by simp [State.setBackend]⟩⟩
  | (.inl result, cache) => exact ⟨_, rfl, .inl (by simp [State.setBackend])⟩

theorem PcOk.accesses_le {bound accesses : Nat} {pc : Pc} (h : PcOk tree bound accesses pc) :
    accesses ≤ bound := by
  cases pc with
  | fetch x =>
    obtain ⟨m, -, hle⟩ := h
    omega
  | getParent x =>
    obtain ⟨m, -, -, hle⟩ := h
    omega

/-- A call for a transaction of the tree returns, however the accesses before went. -/
theorem Inv.returns (h : Inv tree s) {call : Call} (hcall : (s.backends p).call = some call)
    (hxmin : tree.Recent call.transactionXmin) {n : Nat} (hn : tree.Depth n call.xid) :
    ∃ j s', run (CommitTree.step tree inRecovery) s (List.replicate j (.access p)) = some s' ∧
      (s'.backends p).call = none := by
  induction hk : 2 * n + 1 - call.accesses generalizing s call with
  | zero =>
    have hle := ((h.calls p call hcall).pc hxmin n hn).accesses_le
    omega
  | succ k ih =>
    obtain ⟨t, hstep, hnone | ⟨pc, hcall'⟩⟩ := access_progress tree inRecovery hcall
    · exact ⟨1, t, run_cons.2 ⟨t, hstep, rfl⟩, hnone⟩
    · obtain ⟨j, s', hrun, hdone⟩ :=
        ih (Inv.step tree inRecovery _ _ _ h hstep) hcall' hxmin hn (by dsimp only; omega)
      exact ⟨j + 1, s', run_cons.2 ⟨t, hstep, hrun⟩, hdone⟩

theorem TransactionTree.exists_depth (hx : x ∈ tree.members) : ∃ n, tree.Depth n x := by
  obtain rfl | hx := mem_cons.1 hx
  · exact ⟨0, .top⟩
  · exact tree.chain x hx

/-- One update separates the calls that return false from those that return true, for every
transaction of the tree and in every run, and no call goes on for ever. -/
theorem commit_atomic (tree : TransactionTree) (inRecovery : Bool) :
    ∃ k < tree.updates.length, ∀ s s' labels, Initial tree s →
      run (CommitTree.step tree inRecovery) s labels = some s' →
      (∀ a ∈ s'.answers, a.xid ∈ tree.members → tree.Recent a.transactionXmin →
        (a.ended ≤ k → a.result = false) ∧ (k < a.began → a.result = true)) ∧
      ∀ p call, (s'.backends p).call = some call → call.xid ∈ tree.members →
        tree.Recent call.transactionXmin →
        ∃ j t, run (CommitTree.step tree inRecovery) s' (List.replicate j (.access p)) = some t ∧
          (t.backends p).call = none := by
  refine ⟨tree.before.length, ?_, fun s s' labels hinit hrun => ?_⟩
  · rw [tree.updates_eq, length_append, length_cons]
    omega
  have hinv := (Inv.step tree inRecovery).run (Inv.initial hinit) hrun
  refine ⟨fun a ha hx hxmin => ?_, fun p call hcall hx hxmin => ?_⟩
  · obtain ⟨n, hn⟩ := TransactionTree.exists_depth hx
    have hok := hinv.answers a ha hxmin n hn
    exact ⟨fun hle => hok.before (not_lt.2 hle), hok.after⟩
  · obtain ⟨n, hn⟩ := TransactionTree.exists_depth hx
    exact hinv.returns hcall hxmin hn

/-- The parents of 32768 and of 32769, which is a subtransaction of 32768. -/
def twoPagesParent (x : TransactionId) : TransactionId :=
  if x = 32769#32 then 32768#32 else 32767#32

/-- The top-level transaction is the last one of its page, the subtransactions are on the next
page. -/
def twoPages : TransactionTree where
  top := 32767#32
  subxids := [32768#32, 32769#32]
  subtrans := twoPagesParent
  normal x hx := by
    simp only [List.mem_cons, List.not_mem_nil, or_false] at hx
    obtain rfl | rfl | rfl := hx <;> decide +kernel
  top_notMem := by decide +kernel
  chain x hx := by
    have h₁ : ChainsTo twoPagesParent 32767#32 [32768#32, 32769#32] 1 32768#32 := by
      refine .sub List.mem_cons_self ?_
      rw [show twoPagesParent 32768#32 = 32767#32 by decide +kernel]
      exact .top
    have h₂ : ChainsTo twoPagesParent 32767#32 [32768#32, 32769#32] 2 32769#32 := by
      refine .sub (List.mem_cons_of_mem _ List.mem_cons_self) ?_
      rw [show twoPagesParent 32769#32 = 32768#32 by decide +kernel]
      exact h₁
    obtain rfl | hx := List.mem_cons.1 hx
    · exact ⟨1, h₁⟩
    · rw [List.mem_singleton.1 hx]
      exact ⟨2, h₂⟩

def twoPagesStart : State :=
  ⟨fun _ _ => 0#8, twoPages.updates, 0, fun _ => ⟨⟨0#32, .inProgress⟩, none⟩, []⟩

/-- A call between the first and the second update, another one after it. -/
def twoPagesSchedule : List Label :=
  [.write, .begin 0 32769#32 100#32, .access 0, .access 0, .access 0, .access 0, .access 0,
   .write, .begin 1 32769#32 100#32, .access 1, .access 1, .access 1, .access 1, .access 1]

theorem twoPages_run :
    (run (CommitTree.step twoPages false) twoPagesStart twoPagesSchedule).isSome = true := by
  decide +kernel

def twoPagesEnd : State :=
  (run (CommitTree.step twoPages false) twoPagesStart twoPagesSchedule).get twoPages_run

theorem twoPagesStart_initial : Initial twoPages twoPagesStart where
  pending := rfl
  written := rfl
  top := by decide +kernel
  subxids x hx := by
    refine .inl ?_
    obtain rfl | hx := mem_cons.1 hx
    · decide +kernel
    · rw [mem_singleton.1 hx]
      decide +kernel
  cache p := by
    show 0#32 ∉ twoPages.members
    decide +kernel
  calls _ := rfl
  answers := rfl

theorem commit_atomic_twoPages :
    twoPagesEnd.answers = [⟨32769#32, 100#32, 1, 1, 5, false⟩, ⟨32769#32, 100#32, 2, 2, 5, true⟩] ∧
    ∃ k < twoPages.updates.length, ∀ a ∈ twoPagesEnd.answers,
      (a.ended ≤ k → a.result = false) ∧ (k < a.began → a.result = true) := by
  have hanswers : twoPagesEnd.answers =
      [⟨32769#32, 100#32, 1, 1, 5, false⟩, ⟨32769#32, 100#32, 2, 2, 5, true⟩] := by
    decide +kernel
  refine ⟨hanswers, ?_⟩
  obtain ⟨k, hk, h⟩ := commit_atomic twoPages false
  have hrun : run (CommitTree.step twoPages false) twoPagesStart twoPagesSchedule =
      some twoPagesEnd :=
    Option.eq_some_of_isSome twoPages_run
  have hmember : 32769#32 ∈ twoPages.members := by decide +kernel
  have hrecent : twoPages.Recent 100#32 := by
    intro x hx
    obtain rfl | hx := mem_cons.1 hx
    · decide +kernel
    · rw [mem_singleton.1 hx]
      decide +kernel
  refine ⟨k, hk, fun a ha => ?_⟩
  have hends := (h _ _ _ twoPagesStart_initial hrun).1 a ha
  obtain rfl | ha := mem_cons.1 ha
  · exact hends hmember hrecent
  · cases mem_singleton.1 ha
    exact hends hmember hrecent

end

end GreenPipeline.L5.CommitTree
