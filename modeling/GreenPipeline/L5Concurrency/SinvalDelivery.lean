import GreenPipeline.L5Concurrency.SinvalCleanup

/-!
# No invalidation message is lost

What is owed to a backend, the messages inserted since it started that it has not been given,
stands in the buffer from its `nextMsgNum` on, unless the backend must reset; and the backend's
flag says so.

Results:

* `keeps_start`, `keeps_exit`, `keeps_cleanup`, `keeps_insertGroup`, `keeps_read`: what each step
  keeps.
* `messages_never_lost`: along every run, each read returns the next messages inserted since its
  backend started, in order, as many as fit, or it is a reset, which covers all of them.
-/
namespace GreenPipeline.L5.Sinval

open GreenPipeline.Core.Ring List Function Nat

variable {Msg : Type*}

/-! ## What every step keeps -/

/-- What is owed to a backend stands in the buffer, unless it must reset; and it knows that there
are messages. -/
def Owes (buffer : Nat → Msg) (max : Int) (p : ProcState) : Option (List Msg) → Prop
  | none => ¬ p.Receiving
  | some ms => p.Receiving ∧ (ms ≠ [] → p.hasMessages = true) ∧ (p.resetState = true → ms ≠ []) ∧
    (p.resetState = false → (ms.length : Int) = max - p.nextMsgNum ∧
      Window MAXNUMMESSAGES buffer p.nextMsgNum.toNat ms)

def SISeg.Owes (seg : SISeg Msg) (index : Nat) (pending : Option (List Msg)) : Prop :=
  Sinval.Owes seg.buffer seg.maxMsgNum (seg.procState index) pending

/-- A step keeps the bounds, and what is owed to the slot is what its notes say. -/
structure Keeps (index : Nat) (pending : Option (List Msg)) (seg' : SISeg Msg)
    (notes : List (Note Msg)) : Prop where
  inv : SegInv seg'
  explained : Explained index pending notes
  owes : seg'.Owes index (notes.foldl (owed index) pending)

/-! ## Start and exit -/

variable {i : Nat} {next : Int} {buffer : Nat → Msg} {ms : List Msg} {notes : List (Note Msg)}

section Start
variable {seg : SISeg Msg} (hinv : SegInv seg) {index : Nat} {pending : Option (List Msg)}
  (howes : seg.Owes index pending)

theorem lt_lastActive {procState : Nat → ProcState} (hi : (procState i).procPid ≠ 0) {n : Nat}
    (hn : i < n) : i < lastActive procState n := by
  induction n with
  | zero => cases hn
  | succ n ih =>
    unfold lastActive
    split
    · exact hn
    · rename_i hfree
      refine ih (lt_of_le_of_ne (le_of_lt_succ hn) fun heq => hfree ?_)
      rw [← heq]
      exact hi

include hinv howes

/-- A free slot is taken. -/
theorem keeps_take {last : Nat} (hi : i < last) (hlast : seg.lastBackend ≤ last) {pid : Nat}
    (hpid : pid ≠ 0) (sendOnly : Bool) :
    Keeps index pending { seg with
      procState := update seg.procState i ⟨pid, seg.maxMsgNum, false, false, false, sendOnly⟩,
      lastBackend := last } [.started i sendOnly] := by
  refine ⟨⟨hinv.nonneg, hinv.small, hinv.le, hinv.round, fun j hj => ?_, fun j hrec hreset => ?_⟩,
    ⟨trivial, trivial⟩, ?_⟩
  · by_cases hji : j = i
    · rw [hji]
      exact hi
    · dsimp only at hj
      rw [update_of_ne hji] at hj
      exact lt_of_lt_of_le (hinv.active j hj) hlast
  · dsimp only at hrec hreset ⊢
    by_cases hji : j = i
    · rw [hji, update_self]
      exact ⟨hinv.le, le_refl _⟩
    · rw [update_of_ne hji] at hrec hreset ⊢
      exact hinv.between j hrec hreset
  · rw [foldl_cons, foldl_nil, owed]
    by_cases hii : i = index
    · rw [if_pos hii, ← hii]
      unfold SISeg.Owes
      dsimp only
      rw [update_self]
      cases sendOnly with
      | true => exact fun hrec => Bool.false_ne_true hrec.2.symm
      | false =>
        refine ⟨⟨hpid, rfl⟩, fun h => absurd rfl h, fun h => (by cases h), fun _ => ⟨?_, trivial⟩⟩
        exact (sub_self _).symm
    · rw [if_neg hii]
      unfold SISeg.Owes at howes ⊢
      dsimp only
      rw [update_of_ne (Ne.symm hii)]
      exact howes

theorem keeps_start {pid : Nat} (hpid : pid ≠ 0) (sendOnly : Bool) {seg' : SISeg Msg}
    (h : sharedInvalBackendInit seg pid sendOnly = some (i, seg')) :
    Keeps index pending seg' [.started i sendOnly] := by
  unfold sharedInvalBackendInit at h
  split at h
  · rename_i j hfind
    obtain ⟨rfl, rfl⟩ := h
    have hj := mem_range.1 (mem_of_find?_eq_some hfind)
    exact keeps_take hinv howes hj (le_refl _) hpid sendOnly
  · split at h
    · obtain ⟨rfl, rfl⟩ := h
      exact keeps_take hinv howes (lt_succ_self _) (le_succ _) hpid sendOnly
    · cases h

theorem keeps_exit (i : Nat) :
    Keeps index pending (cleanupInvalidationState seg i) [.exited i] := by
  unfold cleanupInvalidationState
  refine ⟨⟨hinv.nonneg, hinv.small, hinv.le, hinv.round, fun j hj => ?_, fun j hrec hreset => ?_⟩,
    ⟨trivial, trivial⟩, ?_⟩
  · dsimp only at hj ⊢
    refine lt_lastActive hj (hinv.active j fun h0 => hj ?_)
    by_cases hji : j = i
    · rw [hji, update_self]
    · rw [update_of_ne hji]
      exact h0
  · dsimp only at hrec hreset ⊢
    by_cases hji : j = i
    · rw [hji, update_self] at hrec
      exact absurd rfl hrec.1
    · rw [update_of_ne hji] at hrec hreset ⊢
      exact hinv.between j hrec hreset
  · rw [foldl_cons, foldl_nil, owed]
    by_cases hii : i = index
    · rw [if_pos hii, ← hii]
      unfold SISeg.Owes
      dsimp only
      rw [update_self]
      exact fun hrec => hrec.1 rfl
    · rw [if_neg hii]
      unfold SISeg.Owes at howes ⊢
      dsimp only
      rw [update_of_ne (Ne.symm hii)]
      exact howes

end Start

/-! ## Cleanup, insertion, reading -/

/-- The numbers may be counted from a start some rounds away. -/
theorem window_shifted {d : Int} (hd : d = 0 ∨ d = MSGNUMWRAPAROUND) (hnext : 0 ≤ next - d)
    (h : Window MAXNUMMESSAGES buffer next.toNat ms) :
    Window MAXNUMMESSAGES buffer (next - d).toNat ms := by
  rcases hd with h0 | hwrap
  · rw [h0, sub_zero]
    exact h
  · rw [← window_add_mul _ 262144]
    have hrounds : (next - d).toNat + 262144 * MAXNUMMESSAGES = next.toNat := by
      unfold MSGNUMWRAPAROUND MAXNUMMESSAGES at *
      omega
    rw [hrounds]
    exact h

section Steps
variable {seg : SISeg Msg} (hinv : SegInv seg) {index : Nat} {pending : Option (List Msg)}
  (howes : seg.Owes index pending)

variable {max : Int} {p : ProcState}

theorem insertLoop_eq (buffer : Nat → Msg) (data : List Msg) (hmax : 0 ≤ max) :
    insertLoop buffer max data =
      (writeFrom MAXNUMMESSAGES buffer max.toNat data, max + data.length) := by
  induction data generalizing buffer max with
  | nil => simp [insertLoop, writeFrom]
  | cons m ms ih =>
    have hcell : (max % MAXNUMMESSAGES).toNat = max.toNat % MAXNUMMESSAGES := by
      unfold MAXNUMMESSAGES
      omega
    have hnext : (max + 1).toNat = max.toNat + 1 := by omega
    rw [insertLoop, ih _ (by omega), hcell, hnext, writeFrom, length_cons]
    congr 1
    omega

theorem readLoop_eq (datasize : Nat) (hnext : 0 ≤ next) (hlen : (ms.length : Int) = max - next)
    (hw : Window MAXNUMMESSAGES buffer next.toNat ms) :
    readLoop buffer max datasize next =
      (ms.take datasize, next + (min datasize ms.length : Nat)) := by
  induction datasize generalizing next ms with
  | zero => simp [readLoop]
  | succ n ih =>
    unfold readLoop
    cases ms with
    | nil =>
      rw [length_nil] at hlen
      rw [if_neg (by omega)]
      simp
    | cons m ms =>
      rw [length_cons] at hlen
      have hcell : (next % MAXNUMMESSAGES).toNat = next.toNat % MAXNUMMESSAGES := by
        unfold MAXNUMMESSAGES
        omega
      have hnext' : (next + 1).toNat = next.toNat + 1 := by omega
      have hw' : Window MAXNUMMESSAGES buffer (next + 1).toNat ms := by
        rw [hnext']
        exact hw.2
      have hrest := ih (by omega) (by omega) hw'
      rw [if_pos (by omega), hrest, hcell, hw.1, take_succ_cons, length_cons]
      dsimp only
      congr 1
      omega

theorem readLoop_bounds (buffer : Nat → Msg) (datasize : Nat) (hle : next ≤ max) :
    next ≤ (readLoop buffer max datasize next).2 ∧ (readLoop buffer max datasize next).2 ≤ max := by
  induction datasize generalizing next with
  | zero => exact ⟨le_refl _, hle⟩
  | succ n ih =>
    unfold readLoop
    split
    · rename_i hlt
      have hnext : next + 1 ≤ max := by omega
      have hrest := ih hnext
      dsimp only
      omega
    · exact ⟨le_refl _, hle⟩

/-- A read gives what is owed, as much as fits. -/
theorem owes_read {p' : ProcState} (h : Owes buffer max p (some ms))
    (hreset : p.resetState = false) (hnonneg : 0 ≤ p.nextMsgNum) (i : Nat) {datasize : Nat}
    (hrec : p'.Receiving) (hreset' : p'.resetState = false)
    (hnext : p'.nextMsgNum = (readLoop buffer max datasize p.nextMsgNum).2)
    (hmore : p'.nextMsgNum < max → p'.hasMessages = true) :
    Fulfils i (some ms)
      (.returned i datasize (.data (readLoop buffer max datasize p.nextMsgNum).1)) ∧
      Owes buffer max p' (owed i (some ms)
        (.returned i datasize (.data (readLoop buffer max datasize p.nextMsgNum).1))) := by
  obtain ⟨hlen, hw⟩ := h.2.2.2 hreset
  rw [readLoop_eq datasize hnonneg hlen hw] at hnext ⊢
  have hdrop : ms.drop datasize = ms.drop (min datasize ms.length) := by
    rcases le_total datasize ms.length with h | h
    · rw [min_eq_left h]
    · rw [min_eq_right h, drop_length, drop_eq_nil_of_le h]
  refine ⟨fun _ => ⟨ms, rfl, rfl⟩, ?_⟩
  rw [owed, if_pos rfl, Option.map_some, hdrop]
  refine ⟨hrec, fun hne => hmore ?_, fun h => ?_, fun _ => ⟨?_, ?_⟩⟩
  · have hpos := length_pos_iff.2 hne
    rw [length_drop] at hpos
    omega
  · rw [hreset'] at h
    cases h
  · rw [length_drop, hnext]
    omega
  · have hpos : p'.nextMsgNum.toNat = p.nextMsgNum.toNat + min datasize ms.length := by omega
    rw [hpos]
    exact hw.drop (min_le_right ..)

/-- The unlocked test: without the flag nothing is owed. -/
theorem owes_unread (h : Owes buffer max p (some ms)) (hhas : p.hasMessages = false)
    (i datasize : Nat) :
    Fulfils i (some ms) (.returned i datasize (.data [])) ∧
    Owes buffer max p (owed i (some ms) (.returned i datasize (.data []))) := by
  have hnil : ms = [] := by
    by_contra hne
    rw [h.2.1 hne] at hhas
    cases hhas
  subst hnil
  refine ⟨fun _ => ⟨[], rfl, take_nil.symm⟩, ?_⟩
  rw [owed, if_pos rfl, Option.map_some, drop_nil]
  exact h

include hinv howes

theorem keeps_cleanup {minFree : Nat} (hfree : minFree ≤ MAXNUMMESSAGES) :
    Keeps index pending (siCleanupQueue seg minFree).1 [] := by
  obtain ⟨d, hclean⟩ := siCleanupQueue_spec hinv hfree
  have hbound := hclean.bound
  have hle := hclean.le
  have hmax := hclean.max
  have hsame := fun i => hclean.slot i
  have hrec : ∀ i, ((siCleanupQueue seg minFree).1.procState i).Receiving ↔
      (seg.procState i).Receiving := by
    intro i
    unfold ProcState.Receiving
    rw [(hsame i).procPid, (hsame i).sendOnly]
  have hreset : ∀ i, ((siCleanupQueue seg minFree).1.procState i).resetState = false →
      (seg.procState i).resetState = false := by
    intro i h
    rw [← Bool.not_eq_true] at h ⊢
    exact fun hr => h ((hsame i).reset hr)
  refine ⟨⟨hclean.nonneg, hclean.small, ?_, ?_, fun i hi => ?_,
    fun i hi hi' => ⟨hclean.kept i hi hi', ?_⟩⟩, trivial, ?_⟩
  · rw [hmax]
    exact hle
  · omega
  · rw [hclean.last]
    rw [(hsame i).procPid] at hi
    exact hinv.active i hi
  · have hbetween := hinv.between i ((hrec i).1 hi) (hreset i hi')
    rw [hmax, (hsame i).next hi.1]
    omega
  · unfold SISeg.Owes at howes ⊢
    rw [foldl_nil, hclean.buffer, hmax]
    cases pending with
    | none => exact fun h => howes ((hrec index).1 h)
    | some ms =>
      obtain ⟨hrec', hhas, hres, hwin⟩ := howes
      refine ⟨(hrec index).2 hrec', fun hne => ?_, fun hr => ?_, fun hr => ?_⟩
      · rw [(hsame index).hasMessages]
        exact hhas hne
      · cases hr0 : (seg.procState index).resetState with
        | true => exact hres hr0
        | false =>
          -- told to reset only now, because it is behind
          have hfar := hclean.far index hrec' hr0 hr
          have hlen := (hwin hr0).1
          intro hnil
          rw [hnil, length_nil] at hlen
          omega
      · obtain ⟨hlen, hw⟩ := hwin (hreset index hr)
        have hactive := ((hrec index).2 hrec')
        have hkept := hclean.kept index hactive hr
        have hnonneg := hclean.nonneg
        rw [(hsame index).next hactive.1] at hkept ⊢
        exact ⟨by omega, window_shifted hclean.shift (by omega) hw⟩

theorem keeps_insertGroup {data : List Msg} (hroom : mustClean seg data.length = false) :
    Keeps index pending (insertGroup seg data) [.inserted data] := by
  have hspace : seg.maxMsgNum - seg.minMsgNum + data.length ≤ MAXNUMMESSAGES := by
    unfold mustClean at hroom
    rw [Bool.or_eq_false_iff, decide_eq_false_iff_not, decide_eq_false_iff_not] at hroom
    omega
  have hnonneg := hinv.nonneg
  have hle := hinv.le
  have hproc : ∀ i, (insertGroup seg data).procState i =
      if i < seg.lastBackend then { seg.procState i with hasMessages := true }
      else seg.procState i := fun _ => rfl
  have hrec : ∀ i, ((insertGroup seg data).procState i).Receiving ↔
      (seg.procState i).Receiving := by
    intro i
    rw [hproc]
    split <;> exact Iff.rfl
  have hreset : ∀ i, ((insertGroup seg data).procState i).resetState =
      (seg.procState i).resetState := by
    intro i
    rw [hproc]
    split <;> rfl
  have hnext : ∀ i, ((insertGroup seg data).procState i).nextMsgNum =
      (seg.procState i).nextMsgNum := by
    intro i
    rw [hproc]
    split <;> rfl
  have hmax : (insertGroup seg data).maxMsgNum = seg.maxMsgNum + data.length := by
    unfold insertGroup
    rw [insertLoop_eq seg.buffer data (by omega)]
  have hbuffer : (insertGroup seg data).buffer =
      writeFrom MAXNUMMESSAGES seg.buffer seg.maxMsgNum.toNat data := by
    unfold insertGroup
    rw [insertLoop_eq seg.buffer data (by omega)]
  refine ⟨⟨hinv.nonneg, hinv.small, ?_, ?_, fun i hi => ?_, fun i hi hi' => ?_⟩,
    ⟨trivial, trivial⟩, ?_⟩
  · change seg.minMsgNum ≤ _
    omega
  · change _ ≤ seg.minMsgNum + _
    omega
  · rw [hproc] at hi
    split at hi
    · rename_i hin
      exact hin
    · exact hinv.active i hi
  · rw [hreset] at hi'
    have hbetween := hinv.between i ((hrec i).1 hi) hi'
    rw [hmax, hnext]
    change seg.minMsgNum ≤ _ ∧ _
    omega
  · rw [foldl_cons, foldl_nil, owed]
    cases pending with
    | none => exact fun h => howes ((hrec index).1 h)
    | some ms =>
      obtain ⟨hrec', -, hres, hwin⟩ := howes
      refine ⟨(hrec index).2 hrec', fun _ => ?_, fun hr => ?_, fun hr => ?_⟩
      · rw [hproc, if_pos (hinv.active index hrec'.1)]
      · rw [hreset] at hr
        exact append_ne_nil_of_left_ne_nil (hres hr) _
      · rw [hreset] at hr
        obtain ⟨hlen, hw⟩ := hwin hr
        have hbetween := hinv.between index hrec' hr
        rw [hnext, hmax, hbuffer, length_append]
        refine ⟨by push_cast; omega, ?_⟩
        have hpos : seg.maxMsgNum.toNat = (seg.procState index).nextMsgNum.toNat + ms.length := by
          omega
        rw [hpos]
        exact hw.write data (by omega)

omit howes in
/-- A backend has read up to some number. -/
theorem segInv_put (hpid : p.procPid = (seg.procState i).procPid)
    (hlow : seg.minMsgNum ≤ p.nextMsgNum) (hhigh : p.nextMsgNum ≤ seg.maxMsgNum) :
    SegInv { seg with procState := update seg.procState i p } := by
  refine ⟨hinv.nonneg, hinv.small, hinv.le, hinv.round, fun j hj => ?_, fun j hrec hreset => ?_⟩
  · dsimp only at hj ⊢
    by_cases hji : j = i
    · rw [hji, update_self, hpid] at hj
      rw [hji]
      exact hinv.active i hj
    · rw [update_of_ne hji] at hj
      exact hinv.active j hj
  · dsimp only at hrec hreset ⊢
    by_cases hji : j = i
    · rw [hji, update_self]
      exact ⟨hlow, hhigh⟩
    · rw [update_of_ne hji] at hrec hreset ⊢
      exact hinv.between j hrec hreset

omit hinv in
/-- What another backend reads does not matter. -/
theorem keeps_put {datasize : Nat} {result : Result Msg}
    (hinv' : SegInv { seg with procState := update seg.procState i p })
    (hown : ∀ ms, Owes seg.buffer seg.maxMsgNum (seg.procState i) (some ms) →
      Fulfils i (some ms) (.returned i datasize result) ∧
      Owes seg.buffer seg.maxMsgNum p (owed i (some ms) (.returned i datasize result)))
    (hrec : (seg.procState i).Receiving) :
    Keeps index pending { seg with procState := update seg.procState i p }
    [.returned i datasize result] := by
  by_cases hii : i = index
  · subst hii
    cases pending with
    | none => exact absurd hrec howes
    | some ms =>
      obtain ⟨hful, howes'⟩ := hown ms howes
      refine ⟨hinv', ⟨hful, trivial⟩, ?_⟩
      unfold SISeg.Owes
      dsimp only
      rw [update_self]
      exact howes'
  · refine ⟨hinv', ⟨fun h => absurd h hii, trivial⟩, ?_⟩
    unfold SISeg.Owes
    dsimp only
    rw [update_of_ne (Ne.symm hii), foldl_cons, foldl_nil, owed_other hii]
    exact howes

theorem keeps_read (hreceiving : (seg.procState i).Receiving) (datasize : Nat) :
    Keeps index pending (siGetDataEntries seg i datasize).2
      [.returned i datasize (siGetDataEntries seg i datasize).1] := by
  have hnonneg := hinv.nonneg
  unfold siGetDataEntries
  dsimp only
  by_cases hhas : (seg.procState i).hasMessages = false
  · rw [hhas, Bool.not_false, if_pos rfl]
    have hsame : { seg with procState := update seg.procState i (seg.procState i) } = seg := by
      rw [update_eq_self]
    rw [← hsame] at hinv
    have hput := keeps_put howes hinv (fun ms hms => owes_unread hms hhas i datasize) hreceiving
    rw [hsame] at hput
    exact hput
  · rw [Bool.not_eq_false] at hhas
    rw [hhas, Bool.not_true, if_neg Bool.false_ne_true]
    by_cases hreset : (seg.procState i).resetState = true
    · rw [if_pos hreset]
      refine keeps_put howes (segInv_put hinv rfl hinv.le (le_refl _)) (fun ms hms => ?_) hreceiving
      refine ⟨fun _ => ⟨ms, rfl, hms.2.2.1 hreset⟩, ?_⟩
      rw [owed, if_pos rfl]
      exact ⟨hreceiving, fun h => absurd rfl h, fun h => (by cases h),
        fun _ => ⟨(sub_self _).symm, trivial⟩⟩
    · rw [if_neg hreset]
      rw [Bool.not_eq_true] at hreset
      have hbetween := hinv.between i hreceiving hreset
      have hbounds := readLoop_bounds seg.buffer datasize hbetween.2
      split
      · rename_i hend
        refine keeps_put howes (segInv_put hinv rfl (hbetween.1.trans hbounds.1) hbounds.2)
          (fun ms hms => ?_) hreceiving
        exact owes_read hms hreset (by omega) i hreceiving hreset rfl fun hlt =>
          absurd hlt (not_lt.2 hend)
      · refine keeps_put howes (segInv_put hinv rfl (hbetween.1.trans hbounds.1) hbounds.2)
          (fun ms hms => ?_) hreceiving
        exact owes_read hms hreset (by omega) i hreceiving hreset rfl fun _ => rfl

end Steps

/-! ## Runs -/

/-- What every step keeps. -/
theorem Inv.step {s s' : Sys Msg} {e : Event Msg} {index : Nat} {pending : Option (List Msg)}
    (hinv : SegInv s.seg) (howes : s.seg.Owes index pending)
    (h : Sinval.step s e = some (s', notes)) : Keeps index pending s'.seg notes := by
  have hstay : Keeps index pending s.seg [] := ⟨hinv, trivial, howes⟩
  have hquantum : WRITE_QUANTUM ≤ MAXNUMMESSAGES := by decide
  cases e with
  | start pid sendOnly =>
    unfold Sinval.step at h
    dsimp only at h
    split at h
    · cases h
    · rename_i hpid
      split at h
      · rename_i i seg' hinit
        obtain ⟨rfl, rfl⟩ := h
        exact keeps_start hinv howes hpid sendOnly hinit
      · obtain ⟨rfl, rfl⟩ := h
        exact hstay
  | exit i =>
    unfold Sinval.step at h
    dsimp only at h
    split at h
    · cases h
    · obtain ⟨rfl, rfl⟩ := h
      exact keeps_exit hinv howes i
  | cleanup =>
    obtain ⟨rfl, rfl⟩ := h
    exact keeps_cleanup hinv howes (zero_le _)
  | insert p data =>
    unfold Sinval.step at h
    dsimp only at h
    split at h
    · obtain ⟨rfl, rfl⟩ := h
      exact hstay
    · cases h
  | insertClean p =>
    unfold Sinval.step at h
    dsimp only at h
    split at h
    · obtain ⟨rfl, rfl⟩ := h
      exact keeps_cleanup hinv howes ((min_le_right ..).trans hquantum)
    · cases h
  | insertGroup p =>
    unfold Sinval.step at h
    dsimp only at h
    split at h
    · rename_i hready
      obtain ⟨rfl, rfl⟩ := h
      refine keeps_insertGroup hinv howes ?_
      rw [Bool.and_eq_true, Bool.not_eq_true', Bool.not_eq_true'] at hready
      rw [length_take, min_eq_left (min_le_left ..)]
      exact hready.2
    · cases h
  | read i datasize =>
    unfold Sinval.step at h
    dsimp only at h
    split at h
    · cases h
    · rename_i hrec
      obtain ⟨rfl, rfl⟩ := h
      rw [not_or, Bool.not_eq_true] at hrec
      exact keeps_read hinv howes hrec datasize

theorem explained_append {index : Nat} {pending : Option (List Msg)} {notes' : List (Note Msg)}
    (h : Explained index pending notes)
    (h' : Explained index (notes.foldl (owed index) pending) notes') :
    Explained index pending (notes ++ notes') := by
  induction notes generalizing pending with
  | nil => exact h'
  | cons note notes ih => exact ⟨h.1, ih h.2 h'⟩

theorem explained_run {events : List (Event Msg)} {s s' : Sys Msg} {index : Nat}
    {pending : Option (List Msg)} (hinv : SegInv s.seg) (howes : s.seg.Owes index pending)
    (h : run s events = some (s', notes)) : Explained index pending notes := by
  induction events generalizing s notes pending with
  | nil =>
    rw [run, Option.some_inj, Prod.mk.injEq] at h
    rw [← h.2]
    trivial
  | cons e es ih =>
    obtain ⟨⟨s1, notes1⟩, hstep, hrest⟩ := Option.bind_eq_some_iff.1 h
    obtain ⟨⟨s2, notes2⟩, hrun, heq⟩ := Option.map_eq_some_iff.1 hrest
    obtain ⟨rfl, rfl⟩ := heq
    have hkeeps := Inv.step hinv howes hstep
    exact explained_append hkeeps.explained (ih hkeeps.inv hkeeps.owes hrun)

theorem segInv_initial (maxBackends : Nat) (buffer : Nat → Msg) :
    SegInv (initial maxBackends buffer).seg :=
  have hwrap : (0 : Int) < MSGNUMWRAPAROUND := by decide
  have hmax : (0 : Int) ≤ 0 + MAXNUMMESSAGES := by decide
  ⟨le_refl _, hwrap, le_refl _, hmax, fun _ h => absurd rfl h, fun _ h => absurd rfl h.1⟩

/-- Invalidation messages are never lost. Along every run, whatever the order of its steps, each
read of a backend returns the next of the messages inserted since the backend started, in order
and without gap, as many as there are and fit; or it returns a reset, which happens only if there
are such messages and covers all of them. -/
theorem messages_never_lost (maxBackends : Nat) (buffer : Nat → Msg) (events : List (Event Msg))
    (s : Sys Msg) (notes : List (Note Msg))
    (h : run (initial maxBackends buffer) events = some (s, notes)) (index : Nat) :
    Explained index none notes :=
  explained_run (segInv_initial maxBackends buffer) (fun hrec => hrec.1 rfl) h

/-- A backend starts, three messages are inserted, and it reads two of them and then the last. -/
theorem messages_never_lost_three :
    ∃ s : Sys Nat, run (initial 1 fun _ => 0)
      [.start 100 false, .insert 1 [7, 8, 9], .insertGroup 1, .read 0 2, .read 0 2] =
        some (s, [.started 0 false, .inserted [7, 8, 9], .returned 0 2 (.data [7, 8]),
          .returned 0 2 (.data [9])]) ∧
      Explained 0 none [.started 0 false, .inserted [7, 8, 9], .returned 0 2 (.data [7, 8]),
        .returned 0 2 (.data [9])] :=
  ⟨_, rfl, messages_never_lost 1 (fun _ => 0)
    [.start 100 false, .insert 1 [7, 8, 9], .insertGroup 1, .read 0 2, .read 0 2] _ _ rfl 0⟩

end GreenPipeline.L5.Sinval
