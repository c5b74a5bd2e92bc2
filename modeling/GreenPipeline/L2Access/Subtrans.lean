import GreenPipeline.L2Access.TransactionId
import Mathlib.Logic.Relation

/-!
# The parents' log

`pg_subtrans` keeps the parent of each subtransaction (`src/backend/access/transam/subtrans.c`).
The search for the topmost parent stops at ids that are older than `TransactionXmin`, whose
entries may be gone.

Results:

* `subTransGetTopmostTransaction_eq`: over a log whose parents precede their children the search
  ends, at an ancestor that is too old or has no recorded parent.
-/
namespace GreenPipeline.L2.Subtrans

open GreenPipeline.L2.Transam

/-- mirrors subtrans.c:108-135 -/
def subTransGetParent (subtrans : TransactionId → TransactionId) (xid : TransactionId) :
    TransactionId :=
  if transactionIdIsNormal xid = false then invalidTransactionId else subtrans xid

inductive SearchError where
  | outOfFuel
  | elog (message : String)
  deriving DecidableEq

/-- mirrors subtrans.c:157-173 -/
def subTransGetTopmostLoop (subtrans : TransactionId → TransactionId)
    (transactionXmin : TransactionId) :
    Nat → TransactionId → TransactionId → Except SearchError TransactionId
  | 0, _, _ => .error .outOfFuel
  | fuel + 1, parentXid, previousXid =>
    if transactionIdIsValid parentXid = false then .ok previousXid
    else if transactionIdPrecedes parentXid transactionXmin then .ok parentXid
    else
      let next := subTransGetParent subtrans parentXid
      if transactionIdPrecedes next parentXid = false then
        .error (.elog ("pg_subtrans contains invalid entry: xid " ++ toString parentXid.toNat ++
          " points to parent xid " ++ toString next.toNat))
      else subTransGetTopmostLoop subtrans transactionXmin fuel next parentXid

/-- mirrors subtrans.c:148-178 -/
def subTransGetTopmostTransaction (subtrans : TransactionId → TransactionId)
    (transactionXmin : TransactionId) (fuel : Nat) (xid : TransactionId) :
    Except SearchError TransactionId :=
  subTransGetTopmostLoop subtrans transactionXmin fuel xid xid

/-- The second id is the recorded parent of the first. -/
def Recorded (subtrans : TransactionId → TransactionId) (x parent : TransactionId) : Prop :=
  subTransGetParent subtrans x = parent ∧ transactionIdIsValid parent = true

variable {x : TransactionId}

theorem forall_not_recorded_iff {subtrans : TransactionId → TransactionId} :
    (∀ p, ¬ Recorded subtrans x p) ↔
    transactionIdIsValid (subTransGetParent subtrans x) = false := by
  simp [Recorded]

/-- The second id is reached from the first by recorded parents. -/
def Ancestor (subtrans : TransactionId → TransactionId) : TransactionId → TransactionId → Prop :=
  Relation.ReflTransGen (Recorded subtrans)

/-- An empty log records no parent. -/
theorem not_recorded_empty (x p : TransactionId) :
    ¬ Recorded (fun _ => invalidTransactionId) x p := by
  rintro ⟨rfl, hvalid⟩
  rw [subTransGetParent, ite_self] at hvalid
  exact absurd hvalid (by decide)

/-- Recorded parents precede their children, and no chain of parents is endless. -/
structure WellFormed (subtrans : TransactionId → TransactionId)
    (depth : TransactionId → Nat) : Prop where
  precedes : ∀ x p, Recorded subtrans x p → transactionIdPrecedes p x = true
  depth_lt : ∀ x p, Recorded subtrans x p → depth p < depth x

variable {subtrans : TransactionId → TransactionId} {depth : TransactionId → Nat}
  {transactionXmin : TransactionId}

theorem invalid_precedes (hx : transactionIdIsValid x = true) :
    transactionIdPrecedes invalidTransactionId x = true := by
  rw [transactionIdIsValid, bne_iff_ne] at hx
  have hpos : x.toNat ≠ 0 := fun h => hx (BitVec.eq_of_toNat_eq h)
  have h0 : transactionIdIsNormal invalidTransactionId = false := by decide
  rw [transactionIdPrecedes, if_pos (Or.inl h0), decide_eq_true_eq]
  exact Nat.pos_of_ne_zero hpos

/-- The loop at a valid id. -/
theorem subTransGetTopmostLoop_eq (hlog : WellFormed subtrans depth) :
    ∀ (fuel : Nat) (x previous : TransactionId), transactionIdIsValid x = true →
      depth x + 2 ≤ fuel →
      ∃ r, subTransGetTopmostLoop subtrans transactionXmin fuel x previous = .ok r ∧
        Ancestor subtrans x r ∧
        (transactionIdPrecedes r transactionXmin = true ∨
          transactionIdIsValid (subTransGetParent subtrans r) = false) := by
  intro fuel
  induction fuel with
  | zero => intro x previous _ hfuel; omega
  | succ fuel ih =>
    intro x previous hx hfuel
    rw [subTransGetTopmostLoop, if_neg (by simp [hx])]
    by_cases hold : transactionIdPrecedes x transactionXmin = true
    · exact ⟨x, by rw [if_pos hold], .refl, Or.inl hold⟩
    rw [if_neg hold]
    by_cases hparent : transactionIdIsValid (subTransGetParent subtrans x) = true
    · -- one parent up
      have hrec : Recorded subtrans x (subTransGetParent subtrans x) := ⟨rfl, hparent⟩
      have hdepth := hlog.depth_lt _ _ hrec
      obtain ⟨r, hr, hanc, hstop⟩ := ih (subTransGetParent subtrans x) x hparent (by omega)
      refine ⟨r, ?_, .head hrec hanc, hstop⟩
      simp only [hlog.precedes _ _ hrec, Bool.true_eq_false, if_false]
      exact hr
    · -- no parent: the next turn returns this id
      rw [Bool.not_eq_true] at hparent
      have hnone : subTransGetParent subtrans x = invalidTransactionId := by
        rw [transactionIdIsValid, bne_eq_false_iff_eq] at hparent
        exact hparent
      obtain ⟨fuel, rfl⟩ : ∃ n, fuel = n + 1 := ⟨fuel - 1, by omega⟩
      refine ⟨x, ?_, .refl, Or.inr hparent⟩
      simp only [hnone, invalid_precedes hx, Bool.true_eq_false, if_false, subTransGetTopmostLoop]
      rw [if_pos (by decide)]

variable (transactionXmin) in
theorem subTransGetTopmostTransaction_eq (hlog : WellFormed subtrans depth) {fuel : Nat}
    (hfuel : depth x + 2 ≤ fuel) :
    ∃ r, subTransGetTopmostTransaction subtrans transactionXmin fuel x = .ok r ∧
      Ancestor subtrans x r ∧
      (transactionIdPrecedes r transactionXmin = true ∨
        transactionIdIsValid (subTransGetParent subtrans r) = false) := by
  by_cases hx : transactionIdIsValid x = true
  · exact subTransGetTopmostLoop_eq hlog fuel x x hx hfuel
  · obtain ⟨fuel, rfl⟩ : ∃ n, fuel = n + 1 := ⟨fuel - 1, by omega⟩
    rw [Bool.not_eq_true] at hx
    have hzero : x = invalidTransactionId := by
      rw [transactionIdIsValid, bne_eq_false_iff_eq] at hx
      exact hx
    subst hzero
    exact ⟨invalidTransactionId, rfl, .refl, Or.inr (by rfl)⟩

end GreenPipeline.L2.Subtrans
