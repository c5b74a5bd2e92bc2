import GreenPipeline.Core.Ring
import Mathlib.Algebra.Order.Ring.Int

/-!
# The queue of cache invalidation messages

Every backend reads the messages that any of them inserts into a circular buffer, each at its own
pace. A backend that falls too far behind is told to reset its caches instead
(`src/backend/storage/ipc/sinvaladt.c`).

The steps of the system are those done under the locks: start and exit of a backend, a cleanup of
the queue, one group of messages of an insertion, one read. An insertion of any size goes on from
group to group, and other steps may come between.

What a backend is owed is said in its own terms (`owed`, `Explained`): the messages inserted since
it started that it has not been given.

Results:

* `owed_other`: a read gives or takes nothing of what the other backends are owed. What the steps
  keep of it is in `SinvalCleanup` and `SinvalDelivery`.
-/
namespace GreenPipeline.L5.Sinval

open GreenPipeline.Core.Ring

variable {Msg : Type*}

/-- mirrors sinvaladt.c:131 -/
def MAXNUMMESSAGES : Nat := 4096

/-- mirrors sinvaladt.c:132 -/
def MSGNUMWRAPAROUND : Nat := MAXNUMMESSAGES * 262144

/-- mirrors sinvaladt.c:133 -/
def CLEANUP_MIN : Nat := MAXNUMMESSAGES / 2

/-- mirrors sinvaladt.c:134 -/
def CLEANUP_QUANTUM : Nat := MAXNUMMESSAGES / 16

/-- mirrors sinvaladt.c:135 -/
def SIG_THRESHOLD : Nat := MAXNUMMESSAGES / 2

/-- mirrors sinvaladt.c:136 -/
def WRITE_QUANTUM : Nat := 64

/-! ## Shared state -/

/-- mirrors sinvaladt.c:139-165 -/
structure ProcState where
  procPid : Nat
  nextMsgNum : Int
  resetState : Bool
  signaled : Bool
  hasMessages : Bool
  sendOnly : Bool

/-- mirrors sinvaladt.c:168-190 -/
structure SISeg (Msg : Type*) where
  minMsgNum : Int
  maxMsgNum : Int
  nextThreshold : Int
  lastBackend : Nat
  maxBackends : Nat
  buffer : Nat → Msg
  procState : Nat → ProcState

/-- mirrors sinvaladt.c:218-250 -/
def createSharedInvalidationState (maxBackends : Nat) (buffer : Nat → Msg) : SISeg Msg :=
  ⟨0, 0, CLEANUP_MIN, 0, maxBackends, buffer, fun _ => ⟨0, 0, false, false, false, false⟩⟩

/-- The slot of the new backend; nothing if there are too many.
mirrors sinvaladt.c:257-326 -/
def sharedInvalBackendInit (seg : SISeg Msg) (pid : Nat) (sendOnly : Bool) :
    Option (Nat × SISeg Msg) :=
  let active : ProcState := ⟨pid, seg.maxMsgNum, false, false, false, sendOnly⟩
  match (List.range seg.lastBackend).find? fun index => (seg.procState index).procPid == 0 with
  | some index => some (index, { seg with procState := Function.update seg.procState index active })
  | none =>
    if seg.lastBackend < seg.maxBackends then
      some (seg.lastBackend,
        { seg with
          procState := Function.update seg.procState seg.lastBackend active
          lastBackend := seg.lastBackend + 1 })
    else none

/-- mirrors sinvaladt.c:359-364 -/
def lastActive (procState : Nat → ProcState) : Nat → Nat
  | 0 => 0
  | i + 1 => if (procState i).procPid ≠ 0 then i + 1 else lastActive procState i

/-- mirrors sinvaladt.c:335-367 -/
def cleanupInvalidationState (seg : SISeg Msg) (index : Nat) : SISeg Msg :=
  let stateP := seg.procState index
  let procState := Function.update seg.procState index
    { stateP with procPid := 0, nextMsgNum := 0, resetState := false, signaled := false }
  { seg with procState := procState, lastBackend := lastActive procState seg.lastBackend }

/-! ## Cleaning the queue -/

/-- What the loop over the backends keeps. -/
structure CleanupLoop where
  procState : Nat → ProcState
  min : Int
  minsig : Int
  needSig : Option Nat

/-- mirrors sinvaladt.c:669-699 -/
def cleanupSlot (lowbound : Int) (st : CleanupLoop) (i : Nat) : CleanupLoop :=
  let stateP := st.procState i
  let n := stateP.nextMsgNum
  if stateP.procPid = 0 ∨ stateP.resetState ∨ stateP.sendOnly then st
  else if n < lowbound then
    { st with procState := Function.update st.procState i { stateP with resetState := true } }
  else
    let st := if n < st.min then { st with min := n } else st
    if n < st.minsig ∧ !stateP.signaled then { st with minsig := n, needSig := some i } else st

/-- When the numbers get large they are all decreased.
mirrors sinvaladt.c:707-716 -/
def rebase (seg : SISeg Msg) : SISeg Msg :=
  if seg.minMsgNum ≥ MSGNUMWRAPAROUND then
    { seg with
      minMsgNum := seg.minMsgNum - MSGNUMWRAPAROUND
      maxMsgNum := seg.maxMsgNum - MSGNUMWRAPAROUND
      procState := fun i =>
        if i < seg.lastBackend then
          { seg.procState i with nextMsgNum := (seg.procState i).nextMsgNum - MSGNUMWRAPAROUND }
        else seg.procState i }
  else seg

/-- mirrors sinvaladt.c:722-726 -/
def setThreshold (seg : SISeg Msg) : SISeg Msg :=
  let numMsgs := seg.maxMsgNum - seg.minMsgNum
  { seg with nextThreshold := if numMsgs < CLEANUP_MIN then (CLEANUP_MIN : Int) else
    (numMsgs / CLEANUP_QUANTUM + 1) * CLEANUP_QUANTUM }

/-- The slot that is sent a signal, if any.
mirrors sinvaladt.c:642-752 -/
def siCleanupQueue (seg : SISeg Msg) (minFree : Nat) : SISeg Msg × Option Nat :=
  let lowbound := seg.maxMsgNum - MAXNUMMESSAGES + minFree
  let st := (List.range seg.lastBackend).foldl (cleanupSlot lowbound)
    ⟨seg.procState, seg.maxMsgNum, seg.maxMsgNum - SIG_THRESHOLD, none⟩
  let seg := setThreshold (rebase { seg with procState := st.procState, minMsgNum := st.min })
  let procState := match st.needSig with
    | none => seg.procState
    | some i => Function.update seg.procState i { seg.procState i with signaled := true }
  ({ seg with procState := procState }, st.needSig)

/-! ## Inserting -/

/-- The buffer must be cleaned before this many messages are inserted.
mirrors sinvaladt.c:467-475 -/
def mustClean (seg : SISeg Msg) (nthistime : Nat) : Bool :=
  let numMsgs := seg.maxMsgNum - seg.minMsgNum
  numMsgs + nthistime > MAXNUMMESSAGES || numMsgs ≥ seg.nextThreshold

/-- mirrors sinvaladt.c:480-485 -/
def insertLoop (buffer : Nat → Msg) : (max : Int) → List Msg → (Nat → Msg) × Int
  | max, [] => (buffer, max)
  | max, m :: ms => insertLoop (Function.update buffer (max % MAXNUMMESSAGES).toNat m) (max + 1) ms

/-- One group of messages, after the buffer has been found to have room.
mirrors sinvaladt.c:477-504 -/
def insertGroup (seg : SISeg Msg) (data : List Msg) : SISeg Msg :=
  let (buffer, max) := insertLoop seg.buffer seg.maxMsgNum data
  { seg with
    buffer := buffer
    maxMsgNum := max
    procState := fun i => if i < seg.lastBackend then
      { seg.procState i with hasMessages := true } else seg.procState i }

/-! ## Reading -/

/-- What `SIGetDataEntries` returns: -1, or the messages. -/
inductive Result (Msg : Type*) where
  | reset
  | data (ms : List Msg)

/-- mirrors sinvaladt.c:603-608 -/
def readLoop (buffer : Nat → Msg) (max : Int) :
    (datasize : Nat) → (nextMsgNum : Int) → List Msg × Int
  | 0, next => ([], next)
  | n + 1, next =>
    if next < max then
      let (ms, next') := readLoop buffer max n (next + 1)
      (buffer (next % MAXNUMMESSAGES).toNat :: ms, next')
    else ([], next)

/-- mirrors sinvaladt.c:538-624 -/
def siGetDataEntries (seg : SISeg Msg) (index datasize : Nat) : Result Msg × SISeg Msg :=
  let stateP := seg.procState index
  let put (stateP : ProcState) : SISeg Msg :=
    { seg with procState := Function.update seg.procState index stateP }
  if !stateP.hasMessages then (.data [], seg)
  else
    let max := seg.maxMsgNum
    if stateP.resetState then
      (.reset,
        put { stateP with
          hasMessages := false, nextMsgNum := max, resetState := false, signaled := false })
    else
      let (ms, next) := readLoop seg.buffer max datasize stateP.nextMsgNum
      if next ≥ max then
        (.data ms, put { stateP with hasMessages := false, nextMsgNum := next, signaled := false })
      else (.data ms, put { stateP with hasMessages := true, nextMsgNum := next })

/-! ## The system -/

/-- The shared state, and what is left to insert of each process's call of `SIInsertDataEntries`. -/
structure Sys (Msg : Type*) where
  seg : SISeg Msg
  inserting : Nat → List Msg

inductive Event (Msg : Type*) where
  | start (pid : Nat) (sendOnly : Bool)
  | exit (index : Nat)
  | cleanup
  | insert (p : Nat) (data : List Msg)
  | insertClean (p : Nat)
  | insertGroup (p : Nat)
  | read (index datasize : Nat)

/-- What can be seen of a step. -/
inductive Note (Msg : Type*) where
  | started (index : Nat) (sendOnly : Bool)
  | exited (index : Nat)
  | inserted (ms : List Msg)
  | returned (index datasize : Nat) (result : Result Msg)

def initial (maxBackends : Nat) (buffer : Nat → Msg) : Sys Msg :=
  ⟨createSharedInvalidationState maxBackends buffer, fun _ => []⟩

/-- One step: nothing if the event cannot happen. A process inserts its messages in groups; before
a group it cleans the queue as long as it must. Only a backend that is active exits, and reads
unless it only sends. mirrors sinvaladt.c:435-508 -/
def step (s : Sys Msg) : Event Msg → Option (Sys Msg × List (Note Msg))
  | .start pid sendOnly =>
    if pid = 0 then none
    else
      match sharedInvalBackendInit s.seg pid sendOnly with
      | some (index, seg) => some ({ s with seg := seg }, [.started index sendOnly])
      | none => some (s, [])
  | .exit index =>
    if (s.seg.procState index).procPid = 0 then none
    else some ({ s with seg := cleanupInvalidationState s.seg index }, [.exited index])
  | .cleanup => some ({ s with seg := (siCleanupQueue s.seg 0).1 }, [])
  | .insert p data =>
    if (s.inserting p).isEmpty then
      some ({ s with inserting := Function.update s.inserting p data }, []) else none
  | .insertClean p =>
    let nthistime := min (s.inserting p).length WRITE_QUANTUM
    if !(s.inserting p).isEmpty && mustClean s.seg nthistime then
      some ({ s with seg := (siCleanupQueue s.seg nthistime).1 }, [])
    else none
  | .insertGroup p =>
    let nthistime := min (s.inserting p).length WRITE_QUANTUM
    if !(s.inserting p).isEmpty && !mustClean s.seg nthistime then
      let data := (s.inserting p).take nthistime
      some (⟨insertGroup s.seg data,
        Function.update s.inserting p ((s.inserting p).drop nthistime)⟩, [.inserted data])
    else none
  | .read index datasize =>
    if (s.seg.procState index).procPid = 0 ∨ (s.seg.procState index).sendOnly then none
    else
      let (result, seg) := siGetDataEntries s.seg index datasize
      some ({ s with seg := seg }, [.returned index datasize result])

/-- A run: the state at its end, and all that could be seen. -/
def run : Sys Msg → List (Event Msg) → Option (Sys Msg × List (Note Msg))
  | s, [] => some (s, [])
  | s, e :: es =>
    (step s e).bind fun (s', notes) => (run s' es).map fun (s'', notes') => (s'', notes ++ notes')

/-! ## What a backend is owed -/

/-- The messages that a receiving backend has not been given yet, after a step. -/
def owed (index : Nat) (pending : Option (List Msg)) : Note Msg → Option (List Msg)
  | .started i sendOnly => if i = index then (if sendOnly then none else some []) else pending
  | .exited i => if i = index then none else pending
  | .inserted ms => pending.map (· ++ ms)
  | .returned i datasize result =>
    if i = index then
      match result with
      | .reset => some []
      | .data _ => pending.map (·.drop datasize)
    else pending

theorem owed_other {i index : Nat} (h : ¬ i = index) (pending : Option (List Msg)) (datasize : Nat)
    (result : Result Msg) :
    owed index pending (.returned i datasize result) = pending := by
  cases result with
  | reset => exact if_neg h
  | data ms => exact if_neg h

/-- A read returns the messages that are owed, as many as fit; or a reset, if there are any. -/
def Fulfils (index : Nat) (pending : Option (List Msg)) : Note Msg → Prop
  | .returned i datasize result =>
    i = index → ∃ ms, pending = some ms ∧
      match result with
      | .reset => ms ≠ []
      | .data got => got = ms.take datasize
  | _ => True

/-- All reads of the slot do, from what was owed at the beginning on. -/
def Explained (index : Nat) : Option (List Msg) → List (Note Msg) → Prop
  | _, [] => True
  | pending, note :: notes =>
    Fulfils index pending note ∧ Explained index (owed index pending note) notes

end GreenPipeline.L5.Sinval
