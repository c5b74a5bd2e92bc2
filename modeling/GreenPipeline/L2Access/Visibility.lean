import GreenPipeline.L2Access.Snapshot

/-!
# `HeapTupleSatisfiesMVCC`

Which tuples a snapshot sees (`src/backend/utils/time/tqual.c`). The function first settles the
inserter, then the deleter, and on the way it sets hint bits in the header that it is looking at.

A header's hint bits are truthful if they agree with the history. The tuple is visible if its
inserter is and no deleter is.

Results:

* `mvccInserter_spec`, `mvccOwn_spec`, `mvccDeleter_spec`: what each part answers and which hints
  it leaves.
* `heapTupleSatisfiesMVCC_exact`: the answer is exact, the hints stay truthful and do not matter.
-/
namespace GreenPipeline.L2.Tqual

open GreenPipeline.Core.Flags GreenPipeline.L2.Transam GreenPipeline.L2.Subtrans
  GreenPipeline.L2.HeapTuple
open GreenPipeline.L2.Snapshot

/-! ## The function -/

/-- mirrors tqual.c:114-133 -/
def setHintBits (b : Backend) (tuple : HeapTupleHeader) (infomask : BitVec 16)
    (xid : TransactionId) : HeapTupleHeader :=
  if transactionIdIsValid xid && b.commitUnflushed xid then tuple
  else { tuple with infomask := tuple.infomask ||| infomask }

/-- Where the part about the inserter ends. -/
inductive InserterResult where
  | answer (visible : Bool) (tuple : HeapTupleHeader)
  /-- The inserting transaction has committed. -/
  | inserted (tuple : HeapTupleHeader)

/-- Deleted by a command that is not before the snapshot's.
mirrors tqual.c:1098, 1117 -/
def deletedAfterScan (b : Backend) (snapshot : SnapshotData) (tuple : HeapTupleHeader) : Bool :=
  snapshot.curcid.toNat ≤ (tuple.getCmax b.comboCids).toNat

/-- A tuple that the backend's own transaction inserted.
mirrors tqual.c:1013-1054 -/
def mvccOwn (h : History) (b : Backend) (snapshot : SnapshotData) (tuple : HeapTupleHeader) :
    Bool × HeapTupleHeader :=
  if snapshot.curcid.toNat ≤ (tuple.getCmin b.comboCids).toNat then (false, tuple)
  else if has tuple.infomask heapXmaxInvalid then (true, tuple)
  else if heapXmaxIsLockedOnly tuple.infomask then (true, tuple)
  else if has tuple.infomask heapXmaxIsMulti then
    let xmax := heapTupleGetUpdateXid h.members tuple
    -- the updating subtransaction must have aborted
    if transactionIdIsCurrentTransactionId h b xmax = false then (true, tuple)
    else (deletedAfterScan b snapshot tuple, tuple)
  else if transactionIdIsCurrentTransactionId h b tuple.xmax = false then
    (true, setHintBits b tuple heapXmaxInvalid invalidTransactionId)
  else (deletedAfterScan b snapshot tuple, tuple)

/-- mirrors tqual.c:969-1074 -/
def mvccInserter (h : History) (b : Backend) (fuel : Nat) (snapshot : SnapshotData)
    (tuple : HeapTupleHeader) :
    Except SearchError InserterResult :=
  if tuple.xminCommitted = false then
    if tuple.xminInvalid then .ok (.answer false tuple)
    else if has tuple.infomask heapMovedOff then
      let xvac := tuple.getXvac
      if transactionIdIsCurrentTransactionId h b xvac then .ok (.answer false tuple)
      else
        (xidInMVCCSnapshot h b fuel xvac snapshot).bind fun running =>
          if running then .ok (.inserted tuple)
          else if transactionIdDidCommit h xvac then
            .ok (.answer false (setHintBits b tuple heapXminInvalid invalidTransactionId))
          else .ok (.inserted (setHintBits b tuple heapXminCommitted invalidTransactionId))
    else if has tuple.infomask heapMovedIn then
      let xvac := tuple.getXvac
      if transactionIdIsCurrentTransactionId h b xvac then .ok (.inserted tuple)
      else
        (xidInMVCCSnapshot h b fuel xvac snapshot).bind fun running =>
          if running then .ok (.answer false tuple)
          else if transactionIdDidCommit h xvac then
            .ok (.inserted (setHintBits b tuple heapXminCommitted invalidTransactionId))
          else .ok (.answer false (setHintBits b tuple heapXminInvalid invalidTransactionId))
    else if transactionIdIsCurrentTransactionId h b tuple.xmin then
      .ok (.answer (mvccOwn h b snapshot tuple).1 (mvccOwn h b snapshot tuple).2)
    else
      (xidInMVCCSnapshot h b fuel tuple.xmin snapshot).bind fun running =>
        if running then .ok (.answer false tuple)
        else if transactionIdDidCommit h tuple.xmin then
          .ok (.inserted (setHintBits b tuple heapXminCommitted tuple.xmin))
        else .ok (.answer false (setHintBits b tuple heapXminInvalid invalidTransactionId))
  else if tuple.xminFrozen = false then
    (xidInMVCCSnapshot h b fuel tuple.xmin snapshot).bind fun running =>
      if running then .ok (.answer false tuple) else .ok (.inserted tuple)
  else .ok (.inserted tuple)

/-- The updater among the members of a multixact.
mirrors tqual.c:1084-1110 -/
def mvccUpdater (h : History) (b : Backend) (fuel : Nat) (snapshot : SnapshotData)
    (tuple : HeapTupleHeader) :
    Except SearchError (Bool × HeapTupleHeader) :=
  let xmax := heapTupleGetUpdateXid h.members tuple
  if transactionIdIsCurrentTransactionId h b xmax then
    .ok (deletedAfterScan b snapshot tuple, tuple)
  else
    (xidInMVCCSnapshot h b fuel xmax snapshot).bind fun running =>
      if running then .ok (true, tuple)
      else if transactionIdDidCommit h xmax then .ok (false, tuple)
      else .ok (true, tuple)

/-- A deleter that is a single transaction.
mirrors tqual.c:1112-1145 -/
def mvccXmax (h : History) (b : Backend) (fuel : Nat) (snapshot : SnapshotData)
    (tuple : HeapTupleHeader) :
    Except SearchError (Bool × HeapTupleHeader) :=
  if has tuple.infomask heapXmaxCommitted = false then
    if transactionIdIsCurrentTransactionId h b tuple.xmax then
      .ok (deletedAfterScan b snapshot tuple, tuple)
    else
      (xidInMVCCSnapshot h b fuel tuple.xmax snapshot).bind fun running =>
        if running then .ok (true, tuple)
        else if transactionIdDidCommit h tuple.xmax = false then
          .ok (true, setHintBits b tuple heapXmaxInvalid invalidTransactionId)
        else .ok (false, setHintBits b tuple heapXmaxCommitted tuple.xmax)
  else
    (xidInMVCCSnapshot h b fuel tuple.xmax snapshot).bind fun running =>
      if running then .ok (true, tuple) else .ok (false, tuple)

/-- mirrors tqual.c:1076-1145 -/
def mvccDeleter (h : History) (b : Backend) (fuel : Nat) (snapshot : SnapshotData)
    (tuple : HeapTupleHeader) :
    Except SearchError (Bool × HeapTupleHeader) :=
  if has tuple.infomask heapXmaxInvalid then .ok (true, tuple)
  else if heapXmaxIsLockedOnly tuple.infomask then .ok (true, tuple)
  else if has tuple.infomask heapXmaxIsMulti then mvccUpdater h b fuel snapshot tuple
  else mvccXmax h b fuel snapshot tuple

/-- mirrors tqual.c:960-1146 -/
def heapTupleSatisfiesMVCC (h : History) (b : Backend) (fuel : Nat) (snapshot : SnapshotData)
    (tuple : HeapTupleHeader) :
    Except SearchError (Bool × HeapTupleHeader) :=
  (mvccInserter h b fuel snapshot tuple).bind fun
    | .answer visible tuple => .ok (visible, tuple)
    | .inserted tuple => mvccDeleter h b fuel snapshot tuple

/-! ## Truthful hints -/

/-- The hint bits agree with the history. The `xmin` bits of a moved tuple are about the move;
nothing is asked of them. -/
structure Truthful (h : History) (tuple : HeapTupleHeader) : Prop where
  xminCommitted : tuple.moved = false → tuple.xminCommitted = true → tuple.xminFrozen = false →
    h.status tuple.xmin = .committed
  xminInvalid : tuple.moved = false → tuple.xminInvalid = true → h.status tuple.xmin = .aborted
  xmaxCommitted : has tuple.infomask heapXmaxCommitted = true →
    ∀ d, tuple.deleter h.members = some d → h.status d = .committed
  xmaxInvalid : has tuple.infomask heapXmaxInvalid = true → ∀ d, tuple.deleter h.members = some d →
    h.status d = .aborted

variable {h : History} {b : Backend} {snapshot : SnapshotData}
  {ended : TransactionId → Prop} {fuel : Nat}
variable {tuple tuple' : HeapTupleHeader}

theorem setHintBits_cases (b : Backend) (tuple : HeapTupleHeader) (infomask : BitVec 16)
    (xid : TransactionId) :
    setHintBits b tuple infomask xid = tuple ∨
    setHintBits b tuple infomask xid = { tuple with infomask := tuple.infomask ||| infomask } := by
  unfold setHintBits
  split
  · exact Or.inl rfl
  · exact Or.inr rfl

/-- The new header has hint bits of the old one and new ones that are true. -/
def Kept (h : History) (tuple tuple' : HeapTupleHeader) : Prop :=
  Hinted tuple tuple' ∧ Truthful h tuple'

theorem Kept.refl (ht : Truthful h tuple) : Kept h tuple tuple := ⟨.refl _, ht⟩

theorem Kept.trans {tuple'' : HeapTupleHeader} (h₁ : Kept h tuple tuple')
    (h₂ : Kept h tuple' tuple'') : Kept h tuple tuple'' :=
  ⟨h₁.1.trans h₂.1, h₂.2⟩

/-- Each bit of the new header was set before or is true. -/
theorem Kept.of_hinted (ht : Truthful h tuple) (hh : Hinted tuple tuple')
    (hcommitted : tuple'.xminCommitted = true → tuple.xminCommitted = true ∨
      (tuple.moved = false → h.status tuple.xmin = .committed))
    (hinvalid : tuple'.xminInvalid = true → tuple.xminInvalid = true ∨
      (tuple.moved = false → h.status tuple.xmin = .aborted))
    (hxmaxCommitted : has tuple'.infomask heapXmaxCommitted = true →
      has tuple.infomask heapXmaxCommitted = true ∨
      ∀ d, tuple.deleter h.members = some d → h.status d = .committed)
    (hxmaxInvalid : has tuple'.infomask heapXmaxInvalid = true →
      has tuple.infomask heapXmaxInvalid = true ∨
      ∀ d, tuple.deleter h.members = some d → h.status d = .aborted) : Kept h tuple tuple' := by
  refine ⟨hh, ⟨?_, ?_, ?_, ?_⟩⟩
  · intro hmoved hbit hfrozen
    rw [hh.moved_eq] at hmoved
    rw [hh.frozen] at hfrozen
    rw [hh.xmin]
    exact (hcommitted hbit).elim (fun hb => ht.xminCommitted hmoved hb hfrozen)
      (fun htrue => htrue hmoved)
  · intro hmoved hbit
    rw [hh.moved_eq] at hmoved
    rw [hh.xmin]
    exact (hinvalid hbit).elim (ht.xminInvalid hmoved) (fun htrue => htrue hmoved)
  · intro hbit d hd
    rw [hh.deleter_eq] at hd
    exact (hxmaxCommitted hbit).elim (fun hb => ht.xmaxCommitted hb d hd) (fun htrue => htrue d hd)
  · intro hbit d hd
    rw [hh.deleter_eq] at hd
    exact (hxmaxInvalid hbit).elim (fun hb => ht.xmaxInvalid hb d hd) (fun htrue => htrue d hd)

/-- Setting hint bits that are true keeps the rest of the header. -/
theorem Kept.set (ht : Truthful h tuple) (b : Backend) (xid : TransactionId) {infomask : BitVec 16}
    (hbits : infomask &&& ~~~hintBits = 0)
    (hxminCommitted : has infomask heapXminCommitted = true →
      has tuple.infomask heapXminInvalid = false ∧
      has infomask heapXminInvalid = false ∧
      (tuple.moved = false → h.status tuple.xmin = .committed))
    (hxminInvalid : has infomask heapXminInvalid = true → tuple.xminCommitted = false ∧
      (tuple.moved = false → h.status tuple.xmin = .aborted))
    (hxmaxCommitted : has infomask heapXmaxCommitted = true →
      ∀ d, tuple.deleter h.members = some d → h.status d = .committed)
    (hxmaxInvalid : has infomask heapXmaxInvalid = true → ∀ d, tuple.deleter h.members = some d →
      h.status d = .aborted) :
    Kept h tuple (setHintBits b tuple infomask xid) := by
  obtain heq | heq := setHintBits_cases b tuple infomask xid
  · rw [heq]
    exact .refl ht
  rw [heq]
  have hcommitted :
      HeapTupleHeader.xminCommitted { tuple with infomask := tuple.infomask ||| infomask } =
      (tuple.xminCommitted || has infomask heapXminCommitted) := has_or _ _ _
  -- a bit of the new header that the old one has not is one of the given ones
  have hnew : ∀ mask, has (tuple.infomask ||| infomask) mask = true →
      has tuple.infomask mask = true ∨ has infomask mask = true := by
    intro mask hbit
    rwa [has_or, Bool.or_eq_true] at hbit
  refine .of_hinted ht ⟨rfl, rfl, rfl, (Agree.or_right _ hbits).symm, ?_⟩ ?_ ?_ ?_ ?_
  · rw [xminFrozen_eq, xminFrozen_eq, hcommitted, has_or]
    cases hc : has infomask heapXminCommitted with
    | true =>
      obtain ⟨hold, hnot, -⟩ := hxminCommitted hc
      simp [hold, hnot]
    | false =>
      cases hi : has infomask heapXminInvalid with
      | true => simp [(hxminInvalid hi).1]
      | false => simp
  · rw [hcommitted, Bool.or_eq_true]
    exact Or.imp_right fun hc => (hxminCommitted hc).2.2
  · rw [xminInvalid_eq, hcommitted, Bool.and_eq_true]
    rintro ⟨hc, hi⟩
    refine (hnew _ hi).imp (fun hold => ?_) fun hi => (hxminInvalid hi).2
    rw [xminInvalid_eq, hold]
    cases hcom : tuple.xminCommitted with
    | true => simp [hcom] at hc
    | false => rfl
  · exact fun hbit => (hnew _ hbit).imp_right hxmaxCommitted
  · exact fun hbit => (hnew _ hbit).imp_right hxmaxInvalid

section

variable (ht : Truthful h tuple)
include ht

theorem Kept.setXminCommitted (b : Backend) (xid : TransactionId)
    (hcommitted : tuple.xminCommitted = false) (hinvalid : tuple.xminInvalid = false)
    (htrue : tuple.moved = false → h.status tuple.xmin = .committed) :
    Kept h tuple (setHintBits b tuple heapXminCommitted xid) := by
  rw [xminInvalid_eq, hcommitted, Bool.not_false, Bool.true_and] at hinvalid
  exact .set ht b xid (by decide) (fun _ => ⟨hinvalid, by decide, htrue⟩)
    (fun hbit => absurd hbit (by decide))
    (fun hbit => absurd hbit (by decide)) (fun hbit => absurd hbit (by decide))

theorem Kept.setXminInvalid (b : Backend) (xid : TransactionId)
    (hcommitted : tuple.xminCommitted = false)
    (htrue : tuple.moved = false → h.status tuple.xmin = .aborted) :
    Kept h tuple (setHintBits b tuple heapXminInvalid xid) :=
  .set ht b xid (by decide) (fun hbit => absurd hbit (by decide)) (fun _ => ⟨hcommitted, htrue⟩)
    (fun hbit => absurd hbit (by decide)) (fun hbit => absurd hbit (by decide))

theorem Kept.setXmaxCommitted (b : Backend) (xid : TransactionId)
    (htrue : ∀ d, tuple.deleter h.members = some d → h.status d = .committed) :
    Kept h tuple (setHintBits b tuple heapXmaxCommitted xid) :=
  .set ht b xid (by decide) (fun hbit => absurd hbit (by decide))
    (fun hbit => absurd hbit (by decide))
    (fun _ => htrue) (fun hbit => absurd hbit (by decide))

theorem Kept.setXmaxInvalid (b : Backend) (xid : TransactionId)
    (htrue : ∀ d, tuple.deleter h.members = some d → h.status d = .aborted) :
    Kept h tuple (setHintBits b tuple heapXmaxInvalid xid) :=
  .set ht b xid (by decide) (fun hbit => absurd hbit (by decide))
    (fun hbit => absurd hbit (by decide))
    (fun hbit => absurd hbit (by decide)) (fun _ => htrue)

end

/-! ## The deleter -/

/-- Deleted, as far as the snapshot goes. -/
def DeleterVisible (h : History) (b : Backend) (snapshot : SnapshotData)
    (ended : TransactionId → Prop) (tuple : HeapTupleHeader) : Prop :=
  ∃ d, tuple.deleter h.members = some d ∧ Visible h b snapshot ended d (tuple.getCmax b.comboCids)

theorem deleter_lockedOnly (members : MultiXactId → List MultiXactMember)
    (hlock : heapXmaxIsLockedOnly tuple.infomask = true) :
    tuple.deleter members = none := by
  rw [HeapTupleHeader.deleter, if_pos hlock]

theorem deleter_multi (members : MultiXactId → List MultiXactMember)
    (hlock : heapXmaxIsLockedOnly tuple.infomask = false)
    (hmulti : has tuple.infomask heapXmaxIsMulti = true) :
    tuple.deleter members = some (heapTupleGetUpdateXid members tuple) := by
  rw [HeapTupleHeader.deleter, if_neg (by simp [hlock]), if_pos hmulti]

theorem deleter_single (members : MultiXactId → List MultiXactMember)
    (hlock : heapXmaxIsLockedOnly tuple.infomask = false)
    (hmulti : has tuple.infomask heapXmaxIsMulti = false) :
    tuple.deleter members = some tuple.xmax := by
  rw [HeapTupleHeader.deleter, if_neg (by simp [hlock]), if_neg (by simp [hmulti])]

variable {d : TransactionId}

theorem deleterVisible_iff (hd : tuple.deleter h.members = some d) :
    DeleterVisible h b snapshot ended tuple ↔
    Visible h b snapshot ended d (tuple.getCmax b.comboCids) := by
  rw [DeleterVisible, hd]
  simp

/-- A hinted deleter is aborted, and a locker deletes nothing. -/
theorem not_deleterVisible_of_invalid (ht : Truthful h tuple)
    (hinvalid : has tuple.infomask heapXmaxInvalid = true) :
    ¬ DeleterVisible h b snapshot ended tuple := by
  rintro ⟨d, hd, hvis⟩
  exact not_visible_aborted (ht.xmaxInvalid hinvalid d hd) hvis

theorem not_deleterVisible_of_lockedOnly (hlock : heapXmaxIsLockedOnly tuple.infomask = true) :
    ¬ DeleterVisible h b snapshot ended tuple := by
  rintro ⟨d, hd, -⟩
  rw [deleter_lockedOnly _ hlock] at hd
  cases hd

theorem deletedAfterScan_iff (hd : tuple.deleter h.members = some d)
    (hcur : transactionIdIsCurrentTransactionId h b d = true) :
    deletedAfterScan b snapshot tuple = true ↔ ¬ DeleterVisible h b snapshot ended tuple := by
  rw [deleterVisible_iff hd, visible_current hcur, deletedAfterScan, decide_eq_true_eq, Nat.not_lt]

/-- The answer of a part of the function about the deleter. -/
def DeleterAnswer (h : History) (b : Backend) (snapshot : SnapshotData)
    (ended : TransactionId → Prop) (tuple : HeapTupleHeader)
    (result : Except SearchError (Bool × HeapTupleHeader)) : Prop :=
  ∃ visible tuple', result = .ok (visible, tuple') ∧ Kept h tuple tuple' ∧
    (visible = true ↔ ¬ DeleterVisible h b snapshot ended tuple)

section

variable (hs : SnapshotOf h b snapshot ended) (ht : Truthful h tuple)
include hs ht

theorem mvccUpdater_spec
    (hd : tuple.deleter h.members = some (heapTupleGetUpdateXid h.members tuple))
    (hfuel : h.depth (heapTupleGetUpdateXid h.members tuple) + 2 ≤ fuel) :
    DeleterAnswer h b snapshot ended tuple (mvccUpdater h b fuel snapshot tuple) := by
  unfold mvccUpdater
  cases hcur : transactionIdIsCurrentTransactionId h b (heapTupleGetUpdateXid h.members tuple) with
  | true => exact ⟨_, tuple, by rw [if_pos hcur], .refl ht, deletedAfterScan_iff hd hcur⟩
  | false =>
    obtain ⟨running, hrun, hvis, -⟩ := visible_iff hs (tuple.getCmax b.comboCids) hfuel hcur
    rw [DeleterAnswer, deleterVisible_iff hd, hvis]
    simp only [hcur, hrun, Bool.false_eq_true, if_false, Except.bind]
    cases running with
    | true => exact ⟨true, tuple, rfl, .refl ht, by simp⟩
    | false =>
      cases hcom : transactionIdDidCommit h (heapTupleGetUpdateXid h.members tuple) with
      | true => exact ⟨false, tuple, rfl, .refl ht, by simp [didCommit_iff.1 hcom]⟩
      | false =>
        rw [← Bool.not_eq_true, didCommit_iff] at hcom
        exact ⟨true, tuple, rfl, .refl ht, by simp [hcom]⟩

theorem mvccXmax_spec (hd : tuple.deleter h.members = some tuple.xmax)
    (hfuel : h.depth tuple.xmax + 2 ≤ fuel) :
    DeleterAnswer h b snapshot ended tuple (mvccXmax h b fuel snapshot tuple) := by
  unfold mvccXmax
  cases hcur : transactionIdIsCurrentTransactionId h b tuple.xmax with
  | true =>
    -- a current transaction has not committed, so no hint says that it has
    have hhint : has tuple.infomask heapXmaxCommitted = false := by
      rw [← Bool.not_eq_true]
      intro hhint
      have hst := ht.xmaxCommitted hhint _ hd
      rw [(isCurrent_iff.1 hcur).2] at hst
      cases hst
    exact ⟨_, tuple, by rw [if_pos hhint, if_pos rfl], .refl ht, deletedAfterScan_iff hd hcur⟩
  | false =>
    obtain ⟨running, hrun, hvis, hended⟩ := visible_iff hs (tuple.getCmax b.comboCids) hfuel hcur
    rw [DeleterAnswer, deleterVisible_iff hd, hvis, hrun]
    simp only [Bool.false_eq_true, if_false, Except.bind]
    cases running with
    | true => exact ⟨true, tuple, by simp, .refl ht, by simp⟩
    | false =>
      cases hhint : has tuple.infomask heapXmaxCommitted with
      | true => exact ⟨false, tuple, rfl, .refl ht, by simp [ht.xmaxCommitted hhint _ hd]⟩
      | false =>
        have hdeleter : ∀ d, tuple.deleter h.members = some d → d = tuple.xmax := by
          intro d hd'
          rw [hd, Option.some_inj] at hd'
          exact hd'.symm
        cases hst : h.status tuple.xmax with
        | inProgress => exact absurd hst (hended rfl)
        | committed =>
          refine ⟨false, _, ?_, .setXmaxCommitted ht b tuple.xmax
            fun d hd' => by rw [hdeleter d hd', hst], by simp⟩
          simp [transactionIdDidCommit, hst]
        | aborted =>
          refine ⟨true, _, ?_, .setXmaxInvalid ht b invalidTransactionId
            fun d hd' => by rw [hdeleter d hd', hst], by simp⟩
          simp [transactionIdDidCommit, hst]

theorem mvccDeleter_spec (hfuel : ∀ d, tuple.deleter h.members = some d → h.depth d + 2 ≤ fuel) :
    DeleterAnswer h b snapshot ended tuple (mvccDeleter h b fuel snapshot tuple) := by
  unfold mvccDeleter
  cases hinvalid : has tuple.infomask heapXmaxInvalid with
  | true => exact ⟨true, tuple, rfl, .refl ht, by simp [not_deleterVisible_of_invalid ht hinvalid]⟩
  | false =>
    cases hlock : heapXmaxIsLockedOnly tuple.infomask with
    | true => exact ⟨true, tuple, rfl, .refl ht, by simp [not_deleterVisible_of_lockedOnly hlock]⟩
    | false =>
      cases hmulti : has tuple.infomask heapXmaxIsMulti with
      | true =>
        have hd := deleter_multi h.members hlock hmulti
        exact mvccUpdater_spec hs ht hd (hfuel _ hd)
      | false =>
        have hd := deleter_single h.members hlock hmulti
        exact mvccXmax_spec hs ht hd (hfuel _ hd)

end

/-! ## The inserter -/

/-- A deleter that has not aborted could see the tuple: the inserter had committed, or both are of
one transaction. -/
def DeleterSees (h : History) (tuple : HeapTupleHeader) : Prop :=
  ∀ d, tuple.deleter h.members = some d → h.status d ≠ .aborted →
    h.status tuple.getXmin = .committed ∨ h.top d = h.top tuple.getXmin

/-- A deleter of a tuple that the backend's own transaction inserted is current or has aborted. -/
theorem aborted_of_not_current (hs : SnapshotOf h b snapshot ended) (hsees : DeleterSees h tuple)
    (hins : transactionIdIsCurrentTransactionId h b tuple.getXmin = true)
    (hd : tuple.deleter h.members = some d)
    (hcur : transactionIdIsCurrentTransactionId h b d = false) :
    h.status d = .aborted := by
  obtain ⟨hme, hprogress⟩ := isCurrent_iff.1 hins
  by_contra hne
  refine not_mine hs hcur hne ?_
  obtain hcom | htop := hsees d hd hne
  · rw [hprogress] at hcom
    cases hcom
  · rw [Mine, htop]
    exact hme

theorem mvccOwn_spec (hs : SnapshotOf h b snapshot ended) (ht : Truthful h tuple)
    (hsees : DeleterSees h tuple)
    (hins : transactionIdIsCurrentTransactionId h b tuple.getXmin = true) :
    Kept h tuple (mvccOwn h b snapshot tuple).2 ∧
      ((mvccOwn h b snapshot tuple).1 = true ↔
        Visible h b snapshot ended tuple.getXmin (tuple.getCmin b.comboCids) ∧
        ¬ DeleterVisible h b snapshot ended tuple) := by
  rw [visible_current hins]
  unfold mvccOwn
  by_cases hcmin : snapshot.curcid.toNat ≤ (tuple.getCmin b.comboCids).toNat
  · rw [if_pos hcmin]
    exact ⟨.refl ht, by simp [Nat.not_lt.2 hcmin]⟩
  rw [if_neg hcmin]
  simp only [Nat.lt_of_not_le hcmin, true_and]
  cases hinvalid : has tuple.infomask heapXmaxInvalid with
  | true => exact ⟨.refl ht, by simp [not_deleterVisible_of_invalid ht hinvalid]⟩
  | false =>
    cases hlock : heapXmaxIsLockedOnly tuple.infomask with
    | true => exact ⟨.refl ht, by simp [not_deleterVisible_of_lockedOnly hlock]⟩
    | false =>
      cases hmulti : has tuple.infomask heapXmaxIsMulti with
      | true =>
        have hd := deleter_multi h.members hlock hmulti
        rw [if_pos rfl]
        cases hcur :
            transactionIdIsCurrentTransactionId h b (heapTupleGetUpdateXid h.members tuple) with
        | true =>
          exact ⟨.refl ht, deletedAfterScan_iff hd hcur⟩
        | false =>
          have hab := aborted_of_not_current hs hsees hins hd hcur
          rw [deleterVisible_iff hd]
          exact ⟨.refl ht, by simp [not_visible_aborted hab]⟩
      | false =>
        have hd := deleter_single h.members hlock hmulti
        cases hcur : transactionIdIsCurrentTransactionId h b tuple.xmax with
        | true =>
          exact ⟨.refl ht, deletedAfterScan_iff hd hcur⟩
        | false =>
          have hab := aborted_of_not_current hs hsees hins hd hcur
          rw [deleterVisible_iff hd, if_pos rfl]
          refine ⟨.setXmaxInvalid ht b invalidTransactionId fun d hd' =>
            ?_, by simp [not_visible_aborted hab]⟩
          rw [hd, Option.some_inj] at hd'
          rw [← hd', hab]

/-- The inserter is visible and no deleter is. -/
def TupleVisible (h : History) (b : Backend) (snapshot : SnapshotData)
    (ended : TransactionId → Prop) (tuple : HeapTupleHeader) : Prop :=
  Visible h b snapshot ended tuple.getXmin (tuple.getCmin b.comboCids) ∧
    ¬ DeleterVisible h b snapshot ended tuple

/-- The answer of the part about the inserter. -/
def InserterAnswer (h : History) (b : Backend) (snapshot : SnapshotData)
    (ended : TransactionId → Prop) (tuple : HeapTupleHeader)
    (result : Except SearchError InserterResult) : Prop :=
  (∃ visible tuple', result = .ok (.answer visible tuple') ∧ Kept h tuple tuple' ∧
    (visible = true ↔ TupleVisible h b snapshot ended tuple)) ∨
  (∃ tuple', result = .ok (.inserted tuple') ∧ Kept h tuple tuple' ∧
    Visible h b snapshot ended tuple.getXmin (tuple.getCmin b.comboCids))

/-- Nothing more is looked at if the inserter is not visible. -/
theorem InserterAnswer.hidden {result : Except SearchError InserterResult}
    (hresult : result = .ok (.answer false tuple')) (hkept : Kept h tuple tuple')
    (hvis : ¬ Visible h b snapshot ended tuple.getXmin (tuple.getCmin b.comboCids)) :
    InserterAnswer h b snapshot ended tuple result :=
  Or.inl ⟨false, tuple', hresult, hkept, by simp [TupleVisible, hvis]⟩

theorem getXmin_of_not_frozen (hfrozen : tuple.xminFrozen = false) :
    tuple.getXmin = tuple.xmin := by
  rw [HeapTupleHeader.getXmin, if_neg (by simp [hfrozen])]

section

variable (hs : SnapshotOf h b snapshot ended) (ht : Truthful h tuple) (hmoved : tuple.moved = false)
  (hsees : DeleterSees h tuple) (hfuel : h.depth tuple.xmin + 2 ≤ fuel)
include hs ht hmoved hsees hfuel

/-- The inserter of a tuple without an `xmin` hint. -/
theorem mvccInserter_unhinted (hcom : tuple.xminCommitted = false)
    (hinv : tuple.xminInvalid = false) :
    InserterAnswer h b snapshot ended tuple (mvccInserter h b fuel snapshot tuple) := by
  have hxmin := getXmin_of_not_frozen (by rw [xminFrozen_eq, hcom, Bool.false_and])
  obtain ⟨hoff, hin⟩ := Bool.or_eq_false_iff.1 hmoved
  simp only [mvccInserter, hcom, hinv, hoff, hin, Bool.false_eq_true, if_false, if_true]
  cases hcur : transactionIdIsCurrentTransactionId h b tuple.xmin with
  | true =>
    obtain ⟨hkept, hiff⟩ := mvccOwn_spec hs ht hsees (by rw [hxmin, hcur])
    exact Or.inl ⟨_, _, if_pos rfl, hkept, hiff⟩
  | false =>
    obtain ⟨running, hrun, hvis, hended⟩ := visible_iff hs (tuple.getCmin b.comboCids) hfuel hcur
    rw [if_neg (by simp), hrun]
    simp only [Except.bind]
    cases running with
    | true => exact .hidden rfl (.refl ht) (by simp [hxmin, hvis])
    | false =>
      cases hst : h.status tuple.xmin with
      | inProgress => exact absurd hst (hended rfl)
      | committed =>
        refine Or.inr ⟨_, ?_, .setXminCommitted ht b tuple.xmin hcom hinv fun _ =>
          hst, by simp [hxmin, hvis, hst]⟩
        simp [transactionIdDidCommit, hst]
      | aborted =>
        refine .hidden ?_ (.setXminInvalid ht b invalidTransactionId hcom fun _ => hst)
          (by simp [hxmin, hvis, hst])
        simp [transactionIdDidCommit, hst]

theorem mvccInserter_spec :
    InserterAnswer h b snapshot ended tuple (mvccInserter h b fuel snapshot tuple) := by
  cases hcom : tuple.xminCommitted with
  | false =>
    cases hinv : tuple.xminInvalid with
    | false => exact mvccInserter_unhinted hs ht hmoved hsees hfuel hcom hinv
    | true =>
      have hxmin := getXmin_of_not_frozen (by rw [xminFrozen_eq, hcom, Bool.false_and])
      refine .hidden ?_ (.refl ht) ?_
      · rw [mvccInserter, if_pos hcom, if_pos hinv]
      · rw [hxmin]
        exact not_visible_aborted (ht.xminInvalid hmoved hinv)
  | true =>
    cases hfrozen : tuple.xminFrozen with
    | true =>
      refine Or.inr ⟨tuple, ?_, .refl ht, ?_⟩
      · rw [mvccInserter, if_neg (by simp [hcom]), if_neg (by simp [hfrozen])]
      · rw [HeapTupleHeader.getXmin, if_pos hfrozen]
        exact visible_frozen hs _
    | false =>
      have hst := ht.xminCommitted hmoved hcom hfrozen
      obtain ⟨running, hrun, hvis, -⟩ :=
        visible_iff hs (tuple.getCmin b.comboCids) hfuel
          (not_current_of_status b (by rw [hst]; decide))
      rw [mvccInserter, if_neg (by simp [hcom]), if_pos hfrozen, hrun]
      cases running with
      | true => exact .hidden rfl (.refl ht) (by simp [getXmin_of_not_frozen hfrozen, hvis])
      | false =>
        exact Or.inr ⟨tuple, rfl, .refl ht, by simp [getXmin_of_not_frozen hfrozen, hvis, hst]⟩

end

/-! ## The whole function -/

theorem Hinted.deleterVisible_iff (hh : Hinted tuple tuple') :
    DeleterVisible h b snapshot ended tuple' ↔ DeleterVisible h b snapshot ended tuple := by
  rw [DeleterVisible, DeleterVisible, hh.deleter_eq, hh.getCmax_eq]

theorem Hinted.tupleVisible_iff (hh : Hinted tuple tuple') :
    TupleVisible h b snapshot ended tuple' ↔ TupleVisible h b snapshot ended tuple := by
  rw [TupleVisible, TupleVisible, hh.getXmin_eq, hh.getCmin_eq, Hinted.deleterVisible_iff hh]

theorem Hinted.deleterSees (hh : Hinted tuple tuple') (hsees : DeleterSees h tuple) :
    DeleterSees h tuple' := by
  intro d hd hne
  rw [hh.deleter_eq] at hd
  rw [hh.getXmin_eq]
  exact hsees d hd hne

/-- The fuel that the searches of parents need. -/
def searchFuel (h : History) (tuple : HeapTupleHeader) : Nat :=
  h.depth tuple.xmin + ((tuple.deleter h.members).map h.depth).getD 0 + 2

theorem depth_deleter_le (hd : tuple.deleter h.members = some d)
    (hfuel : searchFuel h tuple ≤ fuel) : h.depth d + 2 ≤ fuel := by
  rw [searchFuel, hd, Option.map_some, Option.getD_some] at hfuel
  omega

theorem Hinted.searchFuel_eq (hh : Hinted tuple tuple') :
    searchFuel h tuple' = searchFuel h tuple := by
  rw [searchFuel, searchFuel, hh.xmin, hh.deleter_eq]

/-- One call on a header with truthful hints. -/
theorem heapTupleSatisfiesMVCC_spec (hs : SnapshotOf h b snapshot ended) (ht : Truthful h tuple)
    (hmoved : tuple.moved = false) (hsees : DeleterSees h tuple)
    (hfuel : searchFuel h tuple ≤ fuel) :
    ∃ visible tuple', heapTupleSatisfiesMVCC h b fuel snapshot tuple = .ok (visible, tuple') ∧
      Kept h tuple tuple' ∧
      (visible = true ↔ TupleVisible h b snapshot ended tuple) := by
  have hxmin : h.depth tuple.xmin + 2 ≤ fuel := by
    rw [searchFuel] at hfuel
    omega
  unfold heapTupleSatisfiesMVCC
  obtain ⟨visible, tuple', heq, hkept, hiff⟩ | ⟨tuple', heq, hkept, hvis⟩ :=
    mvccInserter_spec hs ht hmoved hsees hxmin
  · exact ⟨visible, tuple', by rw [heq]; rfl, hkept, hiff⟩
  · have hdeleter : ∀ d, tuple'.deleter h.members = some d → h.depth d + 2 ≤ fuel := by
      intro d hd
      rw [hkept.1.deleter_eq] at hd
      exact depth_deleter_le hd hfuel
    obtain ⟨visible, tuple'', heq', hkept', hiff⟩ := mvccDeleter_spec hs hkept.2 hdeleter
    refine ⟨visible, tuple'', by rw [heq]; exact heq', hkept.trans hkept', ?_⟩
    rw [hiff, Hinted.deleterVisible_iff hkept.1, TupleVisible]
    exact (and_iff_right hvis).symm

/-- Visibility is exact: for every history, every snapshot consistent with it and every tuple that
was not moved, whose hint bits are truthful and whose deleter could see it, the function returns,
answers whether the inserter is visible and no deleter is, sets only truthful hint bits, and
answers the same for every header that differs in truthful hint bits only. -/
theorem heapTupleSatisfiesMVCC_exact (h : History) (b : Backend) (snapshot : SnapshotData)
    (ended : TransactionId → Prop) (hs : SnapshotOf h b snapshot ended) (tuple : HeapTupleHeader)
    (hmoved : tuple.moved = false) (ht : Truthful h tuple) (hsees : DeleterSees h tuple) :
    ∃ n, ∀ fuel, n ≤ fuel →
      ∃ visible tuple', heapTupleSatisfiesMVCC h b fuel snapshot tuple = .ok (visible, tuple') ∧
      (visible = true ↔ TupleVisible h b snapshot ended tuple) ∧ Hinted tuple tuple' ∧
      Truthful h tuple' ∧
      ∀ other, Hinted tuple other → Truthful h other →
        ∃ other', heapTupleSatisfiesMVCC h b fuel snapshot other = .ok (visible, other') := by
  refine ⟨searchFuel h tuple, fun fuel hfuel => ?_⟩
  obtain ⟨visible, tuple', heq, hkept, hiff⟩ := heapTupleSatisfiesMVCC_spec hs ht hmoved hsees hfuel
  refine ⟨visible, tuple', heq, hiff, hkept.1, hkept.2, fun other hh hother => ?_⟩
  have hfuel' : searchFuel h other ≤ fuel := by
    rw [Hinted.searchFuel_eq hh]
    exact hfuel
  obtain ⟨visible', other', heq', -, hiff'⟩ :=
    heapTupleSatisfiesMVCC_spec hs hother (by rw [hh.moved_eq, hmoved])
    (Hinted.deleterSees hh hsees) hfuel'
  have hsame : visible' = visible := by
    rw [Bool.eq_iff_iff, hiff', Hinted.tupleVisible_iff hh, hiff]
  exact ⟨other', by rw [heq', hsame]⟩

def backend21 : Backend where
  me := some 21
  transactionXmin := 20
  comboCids := fun cid => (cid, cid)
  lockerTooOld := fun _ => false
  commitUnflushed := fun _ => false

def snapshot20 : SnapshotData where
  xmin := 20
  xmax := 22
  xip := [20]
  subxip := []
  suboverflowed := false
  takenDuringRecovery := false
  curcid := 5

/-- The snapshot fits every history in which 21 is running and all that is before 20 has ended. -/
theorem snapshot20_of {status : TransactionId → XactStatus}
    (h0 : status invalidTransactionId = .aborted) (h1 : status bootstrapTransactionId = .committed)
    (h2 : status frozenTransactionId = .committed) (hown : status 21 = .inProgress)
    (hfinal : ∀ x, transactionIdPrecedes x 20 = true → status x ≠ .inProgress) :
    SnapshotOf (flatHistory status h0 h1 h2) backend21 snapshot20
      (fun x => transactionIdPrecedes x 20 = true) where
  own := by
    intro t ht
    rw [← Option.some_inj.1 ht]
    exact hown
  final := hfinal
  xmin_normal := by decide
  below := fun x _ hx => hx
  above := by
    intro x _ hx _
    exact Bool.eq_false_iff.1 hx
  horizon := fun x r _ _ hr => hr
  xip_running := by
    intro t ht
    rw [List.mem_singleton.1 ht]
    exact ⟨rfl, by decide⟩
  subxip_running := by
    intro x hx
    cases hx
  xip_complete := by
    intro _ x hmine hbetween _ _
    obtain ⟨hmin, hmax⟩ := hbetween
    have hnormal := isNormal_of_not_precedes (by decide) hmin
    have h20 : ¬ 0x80000000 ≤ (x - 20).toNat := by
      rw [← precedes_iff hnormal (by decide)]
      exact Bool.eq_false_iff.1 hmin
    have h22 : 0x80000000 ≤ (x - 22).toNat := (precedes_iff hnormal (by decide)).1 hmax
    have h21 : x ≠ 21 := fun h21 => hmine (by rw [h21]; rfl)
    have hx : x = 20 := by bv_omega
    exact List.mem_singleton.2 hx
  subxip_complete := fun _ _ x _ _ _ hne => absurd rfl hne
  subtrans_complete := fun _ _ x _ _ _ => rfl
  recovery_complete := by
    intro hrec
    cases hrec
  recovery_overflowed := by
    intro hrec
    cases hrec

def runningFrom20 : History :=
  flatHistory (fun x => if x = 0 then .aborted else if transactionIdPrecedes x 20 then
    .committed else .inProgress)
    (by decide) (by decide) (by decide)

theorem snapshot20_of_runningFrom20 :
    SnapshotOf runningFrom20 backend21 snapshot20 (fun x => transactionIdPrecedes x 20 = true) := by
  refine snapshot20_of _ _ _ (by decide) fun x hx => ?_
  split <;> decide

/-- A committed row that the backend's own transaction deleted in an earlier command. -/
theorem heapTupleSatisfiesMVCC_exact_ownDelete :
    ∃ n, ∀ fuel, n ≤ fuel → ∃ visible tuple',
      heapTupleSatisfiesMVCC runningFrom20 backend21 fuel snapshot20
        ⟨10, 21, 3, heapXminCommitted⟩ = .ok (visible, tuple') ∧
      (visible = true ↔
        TupleVisible runningFrom20 backend21 snapshot20 (fun x => transactionIdPrecedes x 20 = true)
        ⟨10, 21, 3, heapXminCommitted⟩) := by
  obtain ⟨n, hn⟩ :=
    heapTupleSatisfiesMVCC_exact runningFrom20 backend21 snapshot20 _ snapshot20_of_runningFrom20
    ⟨10, 21, 3, heapXminCommitted⟩ (by decide)
    ⟨fun _ _ _ => by decide, fun _ hbit => absurd hbit (by decide),
      fun hbit => absurd hbit (by decide), fun hbit => absurd hbit (by decide)⟩
    (fun _ _ _ => Or.inl (by decide))
  refine ⟨n, fun fuel hfuel => ?_⟩
  obtain ⟨visible, tuple', heq, hiff, -⟩ := hn fuel hfuel
  exact ⟨visible, tuple', heq, hiff⟩

end GreenPipeline.L2.Tqual
