import GreenPipeline.L5Concurrency.Sinval

/-!
# A cleanup of the message queue

`SICleanupQueue` finds the oldest message that is still needed, tells the backends that hold up
too many to reset, and decreases all numbers when they have grown large
(`src/backend/storage/ipc/sinvaladt.c`).

Results:

* `cleanupLoop_spec`: who must reset, and what the minimum is taken over.
* `siCleanupQueue_spec`: the numbers are decreased by a multiple of the size of the buffer, and
  the minimum leaves room for the messages asked for.
-/
namespace GreenPipeline.L5.Sinval

open List

variable {Msg : Type*}

/-! ## The numbers -/

/-- An active backend that receives messages. -/
def ProcState.Receiving (p : ProcState) : Prop := p.procPid ≠ 0 ∧ p.sendOnly = false

structure SegInv (seg : SISeg Msg) : Prop where
  nonneg : 0 ≤ seg.minMsgNum
  small : seg.minMsgNum < MSGNUMWRAPAROUND
  le : seg.minMsgNum ≤ seg.maxMsgNum
  round : seg.maxMsgNum ≤ seg.minMsgNum + MAXNUMMESSAGES
  active : ∀ i, (seg.procState i).procPid ≠ 0 → i < seg.lastBackend
  between : ∀ i, (seg.procState i).Receiving → (seg.procState i).resetState = false →
    seg.minMsgNum ≤ (seg.procState i).nextMsgNum ∧ (seg.procState i).nextMsgNum ≤ seg.maxMsgNum

/-! ## Cleanup -/

/-- A backend that the loop over the backends looks at, and that is not too far behind. -/
def ProcState.Counts (lowbound : Int) (p : ProcState) : Prop :=
  p.Receiving ∧ p.resetState = false ∧ lowbound ≤ p.nextMsgNum

/-- What the loop over some slots does: those too far behind must reset, and the minimum is taken
over the others. -/
structure CleanedLoop (lowbound : Int) (st st' : CleanupLoop) (slots : List Nat) : Prop where
  slot : ∀ i, st'.procState i = st.procState i ∨ (st.procState i).Receiving ∧
    (st.procState i).resetState = false ∧
    (st.procState i).nextMsgNum < lowbound ∧
    st'.procState i = { st.procState i with resetState := true }
  far : ∀ i ∈ slots, (st.procState i).Receiving → (st.procState i).nextMsgNum < lowbound →
    (st'.procState i).resetState = true
  le : st'.min ≤ st.min
  lower : ∀ i ∈ slots, (st.procState i).Counts lowbound → st'.min ≤ (st.procState i).nextMsgNum
  attained : st'.min = st.min ∨ ∃ i ∈ slots, (st.procState i).Counts lowbound ∧
    st'.min = (st.procState i).nextMsgNum

/-- One slot. -/
theorem cleanupSlot_spec (lowbound : Int) (st : CleanupLoop) (i : Nat) :
    CleanedLoop lowbound st (cleanupSlot lowbound st i) [i] := by
  unfold cleanupSlot
  dsimp only
  split
  · rename_i hskip
    refine ⟨fun j => Or.inl rfl, fun j hj hrec hfar => ?_, le_refl _,
      fun j hj hcounts => ?_, Or.inl rfl⟩
    · rw [mem_singleton.1 hj] at hrec ⊢
      rcases hskip with h | h | h
      · exact absurd h hrec.1
      · exact h
      · exact absurd hrec.2 (by rw [h]; decide)
    · rw [mem_singleton.1 hj] at hcounts
      obtain ⟨hrec, hreset, -⟩ := hcounts
      rcases hskip with h | h | h
      · exact absurd h hrec.1
      · rw [hreset] at h
        cases h
      · exact absurd hrec.2 (by rw [h]; decide)
  · rename_i hlook
    rw [not_or, not_or, Bool.not_eq_true, Bool.not_eq_true] at hlook
    obtain ⟨hpid, hreset, hsend⟩ := hlook
    split
    · rename_i hfar
      refine ⟨fun j => ?_, fun j hj _ _ => ?_, le_refl _, fun j hj hcounts => ?_, Or.inl rfl⟩
      · by_cases hji : j = i
        · rw [hji]
          exact Or.inr ⟨⟨hpid, hsend⟩, hreset, hfar, Function.update_self ..⟩
        · exact Or.inl (Function.update_of_ne hji ..)
      · rw [mem_singleton.1 hj]
        dsimp only
        rw [Function.update_self]
      · rw [mem_singleton.1 hj] at hcounts
        exact absurd hcounts.2.2 (not_le.2 hfar)
    · rename_i hnear
      have hcounts : (st.procState i).Counts lowbound := ⟨⟨hpid, hsend⟩, hreset, not_lt.1 hnear⟩
      -- neither the signal nor its threshold matters here
      have hmin : ∀ st' : CleanupLoop, st'.procState = st.procState →
          st'.min =
          (if (st.procState i).nextMsgNum < st.min then (st.procState i).nextMsgNum else st.min) →
          CleanedLoop lowbound st st' [i] := by
        intro st' hproc hmin
        refine ⟨fun j => Or.inl (by rw [hproc]), fun j hj _ hfar => ?_, ?_, fun j hj _ => ?_, ?_⟩
        · rw [mem_singleton.1 hj] at hfar
          exact absurd hfar hnear
        · rw [hmin]
          split <;> omega
        · rw [mem_singleton.1 hj, hmin]
          split <;> omega
        · rw [hmin]
          split
          · exact Or.inr ⟨i, mem_singleton_self i, hcounts, rfl⟩
          · exact Or.inl rfl
      split
      · refine hmin _ ?_ ?_
        · dsimp only
          split <;> rfl
        · dsimp only
          split <;> rfl
      · refine hmin _ ?_ ?_
        · split <;> rfl
        · split <;> rfl

variable {lowbound : Int} {st : CleanupLoop}

/-- One slot, and then the others. -/
theorem CleanedLoop.trans {st' st'' : CleanupLoop} {slots slots' : List Nat}
    (h : CleanedLoop lowbound st st' slots) (h' : CleanedLoop lowbound st' st'' slots') :
    CleanedLoop lowbound st st'' (slots ++ slots') := by
  have hcounts : ∀ i, (st.procState i).Counts lowbound → st'.procState i = st.procState i := by
    intro i hi
    rcases h.slot i with heq | ⟨-, -, hfar, -⟩
    · exact heq
    · exact absurd hi.2.2 (not_le.2 hfar)
  have hback : ∀ i, (st'.procState i).Counts lowbound → (st.procState i).Counts lowbound ∧
      st'.procState i = st.procState i := by
    intro i hi
    rcases h.slot i with heq | ⟨-, -, -, heq⟩
    · exact ⟨heq ▸ hi, heq⟩
    · have hreset := hi.2.1
      rw [heq] at hreset
      cases hreset
  refine ⟨fun i => ?_, fun i hi hrec hfar => ?_, h'.le.trans h.le, fun i hi hi' => ?_, ?_⟩
  · rcases h'.slot i with heq' | ⟨hrec', hreset', hfar', heq'⟩
    · rw [heq']
      exact h.slot i
    · rcases h.slot i with heq | ⟨-, -, -, heq⟩
      · rw [heq] at hrec' hreset' hfar' heq'
        exact Or.inr ⟨hrec', hreset', hfar', heq'⟩
      · rw [heq] at hreset'
        cases hreset'
  · have hstay : (st'.procState i).resetState = true → (st''.procState i).resetState = true := by
      intro hreset
      rcases h'.slot i with heq' | ⟨-, -, -, heq'⟩
      · rw [heq']
        exact hreset
      · rw [heq']
    rcases mem_append.1 hi with hi | hi
    · exact hstay (h.far i hi hrec hfar)
    · rcases h.slot i with heq | ⟨-, -, -, heq⟩
      · exact h'.far i hi (heq ▸ hrec) (heq ▸ hfar)
      · exact hstay (by rw [heq])
  · rcases mem_append.1 hi with hi | hi
    · exact h'.le.trans (h.lower i hi hi')
    · have heq := hcounts i hi'
      have hlower := h'.lower i hi (heq ▸ hi')
      rw [heq] at hlower
      exact hlower
  · rcases h'.attained with hmin' | ⟨i, hi, hcount, hmin'⟩
    · rw [hmin']
      rcases h.attained with hmin | ⟨i, hi, hcount, hmin⟩
      · exact Or.inl hmin
      · exact Or.inr ⟨i, mem_append_left _ hi, hcount, hmin⟩
    · obtain ⟨hcount, heq⟩ := hback i hcount
      exact Or.inr ⟨i, mem_append_right _ hi, hcount, by rw [hmin', heq]⟩

theorem cleanupLoop_spec (lowbound : Int) (slots : List Nat) (st : CleanupLoop) :
    CleanedLoop lowbound st (slots.foldl (cleanupSlot lowbound) st) slots := by
  induction slots generalizing st with
  | nil =>
    exact ⟨fun _ => Or.inl rfl, fun i hi => absurd hi not_mem_nil, le_refl _,
      fun i hi => absurd hi not_mem_nil, Or.inl rfl⟩
  | cons i slots ih => exact (cleanupSlot_spec lowbound st i).trans (ih (cleanupSlot lowbound st i))

/-- The same backend, with its number decreased by `d`, and perhaps told to reset. -/
structure Shifted (d : Int) (p p' : ProcState) : Prop where
  procPid : p'.procPid = p.procPid
  sendOnly : p'.sendOnly = p.sendOnly
  hasMessages : p'.hasMessages = p.hasMessages
  reset : p.resetState = true → p'.resetState = true
  next : p'.procPid ≠ 0 → p'.nextMsgNum = p.nextMsgNum - d

/-- What a cleanup does: the numbers are decreased by a multiple of the buffer's size, and who
holds up more than is allowed must reset. -/
structure Cleaned (lowbound d : Int) (seg seg' : SISeg Msg) : Prop where
  shift : d = 0 ∨ d = MSGNUMWRAPAROUND
  buffer : seg'.buffer = seg.buffer
  last : seg'.lastBackend = seg.lastBackend
  max : seg'.maxMsgNum = seg.maxMsgNum - d
  le : seg'.minMsgNum ≤ seg.maxMsgNum - d
  nonneg : 0 ≤ seg'.minMsgNum
  small : seg'.minMsgNum < MSGNUMWRAPAROUND
  bound : lowbound - d ≤ seg'.minMsgNum
  slot : ∀ i, Shifted d (seg.procState i) (seg'.procState i)
  kept : ∀ i, (seg'.procState i).Receiving → (seg'.procState i).resetState = false →
    seg'.minMsgNum ≤ (seg'.procState i).nextMsgNum
  far : ∀ i, (seg.procState i).Receiving → (seg.procState i).resetState = false →
    (seg'.procState i).resetState = true →
    (seg.procState i).nextMsgNum < lowbound

section Clean
variable {seg : SISeg Msg} (hinv : SegInv seg) {minFree : Nat} (hfree : minFree ≤ MAXNUMMESSAGES)

theorem Shifted.signaled {d : Int} {p p' : ProcState} (h : Shifted d p p') (b : Bool) :
    Shifted d p { p' with signaled := b } :=
  ⟨h.procPid, h.sendOnly, h.hasMessages, h.reset, h.next⟩

/-- The signal changes nothing of this. -/
theorem Cleaned.signal {d : Int} {seg' : SISeg Msg} (h : Cleaned lowbound d seg seg') (i : Nat) :
    Cleaned lowbound d seg
      { seg' with procState := Function.update seg'.procState i { seg'.procState i with
        signaled := true } } := by
  have hsame : ∀ j, ∃ b,
      Function.update seg'.procState i { seg'.procState i with signaled := true } j =
      { seg'.procState j with signaled := b } := by
    intro j
    by_cases hj : j = i
    · rw [hj, Function.update_self]
      exact ⟨_, rfl⟩
    · rw [Function.update_of_ne hj]
      exact ⟨_, rfl⟩
  refine ⟨h.shift, h.buffer, h.last, h.max, h.le, h.nonneg, h.small, h.bound, fun j => ?_,
    fun j hrec hreset => ?_, fun j hrec hreset hreset' => ?_⟩
  · obtain ⟨b, hb⟩ := hsame j
    dsimp only
    rw [hb]
    exact (h.slot j).signaled b
  · obtain ⟨b, hb⟩ := hsame j
    dsimp only at hrec hreset ⊢
    rw [hb] at hrec hreset ⊢
    exact h.kept j hrec hreset
  · obtain ⟨b, hb⟩ := hsame j
    dsimp only at hreset'
    rw [hb] at hreset'
    exact h.far j hrec hreset hreset'

include hinv hfree

/-- Where the loop over the backends ends. -/
structure Swept (lowbound : Int) (seg : SISeg Msg) (st : CleanupLoop) : Prop where
  le : st.min ≤ seg.maxMsgNum
  low : seg.minMsgNum ≤ st.min
  bound : lowbound ≤ st.min
  slot : ∀ i, Shifted 0 (seg.procState i) (st.procState i)
  kept : ∀ i, (st.procState i).Receiving → (st.procState i).resetState = false →
    st.min ≤ (st.procState i).nextMsgNum
  far : ∀ i, (seg.procState i).Receiving → (seg.procState i).resetState = false →
    (st.procState i).resetState = true →
    (seg.procState i).nextMsgNum < lowbound

theorem swept (hloop : CleanedLoop (seg.maxMsgNum - MAXNUMMESSAGES + minFree)
      ⟨seg.procState, seg.maxMsgNum, seg.maxMsgNum - SIG_THRESHOLD,
        none⟩ st (List.range seg.lastBackend)) :
    Swept (seg.maxMsgNum - MAXNUMMESSAGES + minFree) seg st := by
  obtain ⟨hslot, hfar, hle, hlower, hattained⟩ := hloop
  dsimp only at hslot hfar hle hlower hattained
  have hmin : seg.minMsgNum ≤ st.min ∧ seg.maxMsgNum - MAXNUMMESSAGES + minFree ≤ st.min := by
    rcases hattained with h | ⟨i, -, hcount, h⟩
    · have hordered := hinv.le
      omega
    · have hbetween := hinv.between i hcount.1 hcount.2.1
      have hlow := hcount.2.2
      omega
  refine ⟨hle, hmin.1, hmin.2, fun i => ?_, fun i hrec hreset => ?_, fun i _ hreset hreset' => ?_⟩
  · rcases hslot i with h | ⟨-, -, -, h⟩
    · rw [h]
      exact ⟨rfl, rfl, rfl, id, fun _ => (sub_zero _).symm⟩
    · rw [h]
      exact ⟨rfl, rfl, rfl, fun _ => rfl, fun _ => (sub_zero _).symm⟩
  · rcases hslot i with h | ⟨-, -, -, h⟩
    · rw [h] at hrec hreset ⊢
      have hmem := mem_range.2 (hinv.active i hrec.1)
      refine hlower i hmem ⟨hrec, hreset, not_lt.1 fun hbehind => ?_⟩
      have hmust := hfar i hmem hrec hbehind
      rw [h, hreset] at hmust
      cases hmust
    · rw [h] at hreset
      cases hreset
  · rcases hslot i with h | ⟨-, -, h, -⟩
    · rw [h, hreset] at hreset'
      cases hreset'
    · exact h

omit hfree in
/-- The numbers may be decreased. -/
theorem Swept.cleaned (h : Swept lowbound seg st) :
    ∃ d, Cleaned lowbound d seg
      (setThreshold (rebase { seg with procState := st.procState, minMsgNum := st.min })) := by
  have hle := h.le
  have hlow := h.low
  have hbound := h.bound
  have hround := hinv.round
  have hsmall := hinv.small
  have hnonneg := hinv.nonneg
  have hwrap : (MSGNUMWRAPAROUND : Int) = 1073741824 := rfl
  have hmax : (MAXNUMMESSAGES : Int) = 4096 := rfl
  have hreach : ∀ i, (st.procState i).procPid ≠ 0 → i < seg.lastBackend :=
    fun i hi => hinv.active i ((h.slot i).procPid ▸ hi)
  unfold setThreshold rebase
  dsimp only
  by_cases hlarge : st.min ≥ MSGNUMWRAPAROUND
  · rw [if_pos hlarge]
    have hmin : 0 ≤ st.min - MSGNUMWRAPAROUND ∧ st.min - MSGNUMWRAPAROUND < MSGNUMWRAPAROUND := by
      omega
    refine ⟨MSGNUMWRAPAROUND, Or.inr rfl, rfl, rfl, rfl, Int.sub_le_sub_right hle _, hmin.1, hmin.2,
      Int.sub_le_sub_right hbound _, fun i => ?_, fun i hrec hreset => ?_,
      fun i hrec hreset hreset' => ?_⟩
    · have hshift := h.slot i
      dsimp only
      split
      · refine ⟨hshift.procPid, hshift.sendOnly, hshift.hasMessages, hshift.reset, fun hpid => ?_⟩
        dsimp only
        rw [hshift.next hpid, sub_zero]
      · rename_i hout
        exact ⟨hshift.procPid, hshift.sendOnly, hshift.hasMessages, hshift.reset,
          fun hpid => absurd (hreach i hpid) hout⟩
    · dsimp only at hrec hreset ⊢
      split at hrec
      · rename_i hin
        rw [if_pos hin] at hreset ⊢
        exact Int.sub_le_sub_right (h.kept i hrec hreset) _
      · rename_i hout
        exact absurd (hreach i hrec.1) hout
    · dsimp only at hreset'
      split at hreset'
      · exact h.far i hrec hreset hreset'
      · exact h.far i hrec hreset hreset'
  · rw [if_neg hlarge]
    have hmin : 0 ≤ st.min ∧ st.min < MSGNUMWRAPAROUND := by omega
    refine ⟨0, Or.inl rfl, rfl, rfl, (sub_zero _).symm, ?_, hmin.1, hmin.2, ?_, h.slot,
      h.kept, h.far⟩
    · rw [sub_zero]
      exact hle
    · rw [sub_zero]
      exact hbound

theorem siCleanupQueue_spec : ∃ d,
    Cleaned (seg.maxMsgNum - MAXNUMMESSAGES + minFree) d seg (siCleanupQueue seg minFree).1 := by
  have hloop := cleanupLoop_spec (seg.maxMsgNum - MAXNUMMESSAGES + minFree) (range seg.lastBackend)
    ⟨seg.procState, seg.maxMsgNum, seg.maxMsgNum - SIG_THRESHOLD, none⟩
  unfold siCleanupQueue
  dsimp only
  generalize (range seg.lastBackend).foldl (cleanupSlot (seg.maxMsgNum - MAXNUMMESSAGES + minFree))
    ⟨seg.procState, seg.maxMsgNum, seg.maxMsgNum - SIG_THRESHOLD, none⟩ = st at hloop
  obtain ⟨d, hd⟩ := (swept hinv hfree hloop).cleaned hinv
  cases st.needSig with
  | none => exact ⟨d, hd⟩
  | some i => exact ⟨d, hd.signal i⟩

end Clean

end GreenPipeline.L5.Sinval
