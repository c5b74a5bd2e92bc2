import Mathlib.Tactic.Common

/-!
# Transaction ids

32-bit counters that wrap around: two normal ids are compared modulo 2^32, the three permanent ones
(invalid, bootstrap, frozen) precede all normal ones (`src/include/access/transam.h`,
`src/backend/access/transam/transam.c`).

Results:

* `precedes_iff_rank`: on ids within half of the circle from some id on, it is the order of their
  distances from it.
-/
namespace GreenPipeline.L2.Transam

abbrev TransactionId : Type := BitVec 32

/-- mirrors transam.h:31-34 -/
def invalidTransactionId : TransactionId := 0

def bootstrapTransactionId : TransactionId := 1

def frozenTransactionId : TransactionId := 2

def firstNormalTransactionId : TransactionId := 3

/-- mirrors transam.h:41-42 -/
def transactionIdIsValid (xid : TransactionId) : Bool := xid != invalidTransactionId

def transactionIdIsNormal (xid : TransactionId) : Bool := firstNormalTransactionId.toNat ≤ xid.toNat

/-- mirrors transam.c:300-314 -/
def transactionIdPrecedes (id1 id2 : TransactionId) : Bool :=
  if transactionIdIsNormal id1 = false ∨ transactionIdIsNormal id2 = false then
    id1.toNat < id2.toNat
  else (id1 - id2).toInt < 0

/-- mirrors transam.c:349-360 -/
def transactionIdFollowsOrEquals (id1 id2 : TransactionId) : Bool :=
  if transactionIdIsNormal id1 = false ∨ transactionIdIsNormal id2 = false then
    id2.toNat ≤ id1.toNat
  else 0 ≤ (id1 - id2).toInt

theorem isValid_of_isNormal {xid : TransactionId} (h : transactionIdIsNormal xid = true) :
    transactionIdIsValid xid = true := by
  rw [transactionIdIsValid, bne_iff_ne]
  rintro rfl
  exact absurd h (by decide)

/-- One comparison is the negation of the other. -/
theorem followsOrEquals_eq_not_precedes (id1 id2 : TransactionId) :
    transactionIdFollowsOrEquals id1 id2 = !transactionIdPrecedes id1 id2 := by
  unfold transactionIdFollowsOrEquals transactionIdPrecedes
  split
  · rw [← decide_not, decide_eq_decide, Nat.not_lt]
  · rw [← decide_not, decide_eq_decide, Int.not_lt]

/-- Two normal ids: the first is in the half of the circle before the second. -/
theorem precedes_iff {id1 id2 : TransactionId} (h1 : transactionIdIsNormal id1 = true)
    (h2 : transactionIdIsNormal id2 = true) :
    transactionIdPrecedes id1 id2 = true ↔ 0x80000000 ≤ (id1 - id2).toNat := by
  rw [transactionIdPrecedes, if_neg (by simp [h1, h2]), decide_eq_true_eq, BitVec.toInt_neg_iff]
  omega

/-- If it is normal, the id lies in the half of the circle that begins at `base`. -/
def InHalf (base x : TransactionId) : Prop :=
  transactionIdIsNormal x = true → (x - base).toNat < 0x80000000

/-- The place of an id in that half; the permanent ids come first. -/
def rank (base x : TransactionId) : Nat :=
  if transactionIdIsNormal x then 3 + (x - base).toNat else x.toNat

/-- In half of the circle the comparison is an order. -/
theorem precedes_iff_rank {base a b : TransactionId} (ha : InHalf base a) (hb : InHalf base b) :
    transactionIdPrecedes a b = true ↔ rank base a < rank base b := by
  cases hna : transactionIdIsNormal a <;> cases hnb : transactionIdIsNormal b
  case true.true =>
    have hacase := ha hna
    have hbcase := hb hnb
    rw [precedes_iff hna hnb, rank, rank, if_pos hna, if_pos hnb]
    bv_omega
  -- an id that is not normal is compared by its number
  case false.false => simp [transactionIdPrecedes, rank, hna, hnb]
  all_goals
    have hfirst : firstNormalTransactionId.toNat = 3 := rfl
    simp only [transactionIdPrecedes, rank, hna, hnb, true_or, or_true, if_true, Bool.false_eq_true,
      if_false, decide_eq_true_eq]
    simp only [transactionIdIsNormal, decide_eq_true_eq, decide_eq_false_iff_not, hfirst] at hna hnb
    omega

/-- The normal ids among them lie in less than half of the circle. -/
def InWindow (xids : List TransactionId) : Prop :=
  ∃ base : TransactionId, ∀ x ∈ xids, transactionIdIsNormal x = true → (x - base).toNat < 0x80000000

/-- The comparison is transitive in a window. -/
theorem precedes_of_not_precedes {a b c : TransactionId} (hwindow : InWindow [a, b, c])
    (hab : transactionIdPrecedes a b = true) (hcb : transactionIdPrecedes c b = false) :
    transactionIdPrecedes a c = true := by
  obtain ⟨base, hbase⟩ := hwindow
  have ha := hbase a (by simp)
  have hb := hbase b (by simp)
  have hc := hbase c (by simp)
  rw [precedes_iff_rank ha hb] at hab
  rw [← Bool.not_eq_true, precedes_iff_rank hc hb] at hcb
  rw [precedes_iff_rank ha hc]
  omega

end GreenPipeline.L2.Transam
