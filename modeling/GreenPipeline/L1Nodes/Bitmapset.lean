import Mathlib.Data.List.Basic

/-!
# Bitmapsets (`nodes/bitmapset.c`)

A `Bitmapset *` is NULL or an array of 32-bit words; bit `x % 32` of word
`x / 32` says whether `x` is a member. The empty set may be NULL or any
number of zero words, and trailing zero words are allowed everywhere, so
two pointers can denote one set with different word counts. `Relids` (sets
of range table indexes) are such pointers.

Modelled here are the comparisons the path tournament uses:
`bms_is_empty`, `bms_equal` and `bms_subset_compare`, the latter with its
running status and early exits over the common and the extra words.

Results:
* `bmsSubsetCompare_le`, `bmsSubsetCompare_ge`: the four answers of
  `bms_subset_compare` are exactly the two inclusions between the sets.
* `bmsEqual_iff`: `bms_equal` is equality of the sets, whatever the lengths.
-/
namespace GreenPipeline.L1.Bms

/-- `typedef uint32 bitmapword` with `BITS_PER_BITMAPWORD` 32.
mirrors src/include/nodes/bitmapset.h:33-41 -/
abbrev Bitmapword := UInt32

structure Bitmapset where
  words : List Bitmapword
  deriving DecidableEq, Repr

/-- A possibly NULL `Bitmapset *`. -/
abbrev Relids := Option Bitmapset

/-- The words behind the pointer; NULL has none. -/
def words : Relids → List Bitmapword
  | none => []
  | some a => a.words

@[simp] theorem words_none : words none = [] := rfl

@[simp] theorem words_some (a : Bitmapset) : words (some a) = a.words := rfl

/-- `x` is a member of the set the words denote. -/
def Mem (x : Nat) (ws : List Bitmapword) : Prop :=
  (ws.getD (x / 32) 0).toBitVec.getLsbD (x % 32) = true

/-- Inclusion of the denoted sets. -/
def Subset (a b : Relids) : Prop := ∀ x, Mem x (words a) → Mem x (words b)

theorem Subset.refl (a : Relids) : Subset a a := fun _ h => h

theorem Subset.trans {a b c : Relids} (h1 : Subset a b) (h2 : Subset b c) : Subset a c :=
  fun x h => h2 x (h1 x h)

/-! ## Words -/

/-- Word-wise inclusion, with missing words read as zero. -/
def WordsLe : List Bitmapword → List Bitmapword → Prop
  | [], _ => True
  | a :: as, [] => a = 0 ∧ WordsLe as []
  | a :: as, b :: bs => a &&& ~~~b = 0 ∧ WordsLe as bs

theorem and_not_eq_zero_iff (a b : Bitmapword) :
    a &&& ~~~b = 0 ↔ ∀ i, a.toBitVec.getLsbD i = true → b.toBitVec.getLsbD i = true := by
  rw [← UInt32.toBitVec_inj]
  simp only [UInt32.toBitVec_and, UInt32.toBitVec_not, UInt32.toBitVec_zero]
  constructor
  · intro h i hi
    have hb := congrArg (fun v => v.getLsbD i) h
    have hlt := BitVec.lt_of_getLsbD hi
    simp only [BitVec.getLsbD_and, BitVec.getLsbD_not, BitVec.getLsbD_zero, hi, hlt, decide_true,
      Bool.true_and] at hb
    simpa using hb
  · intro h
    apply BitVec.eq_of_getLsbD_eq
    intro i hi
    have := h i
    cases ha : a.toBitVec.getLsbD i <;> simp_all

theorem mem_cons_lt {x : Nat} (hx : x < 32) (a : Bitmapword) (as : List Bitmapword) :
    Mem x (a :: as) ↔ a.toBitVec.getLsbD x = true := by
  simp [Mem, Nat.div_eq_of_lt hx, Nat.mod_eq_of_lt hx]

theorem mem_cons_add (x : Nat) (a : Bitmapword) (as : List Bitmapword) :
    Mem (x + 32) (a :: as) ↔ Mem x as := by
  simp [Mem]

theorem not_mem_nil (x : Nat) : ¬ Mem x [] := by simp [Mem]

/-- The members of a non-empty word list: those of the first word, and
those of the rest shifted by one word. -/
theorem forall_mem_cons {P : Nat → Prop} {a : Bitmapword} {as : List Bitmapword} :
    (∀ x, Mem x (a :: as) → P x) ↔
    (∀ i, a.toBitVec.getLsbD i = true → P i) ∧ ∀ x, Mem x as → P (x + 32) := by
  constructor
  · intro h
    refine ⟨fun i hi => h i ?_, fun x hx => h _ ((mem_cons_add x a as).2 hx)⟩
    exact (mem_cons_lt (BitVec.lt_of_getLsbD hi) a as).2 hi
  · rintro ⟨h1, h2⟩ x hx
    by_cases hlt : x < 32
    · exact h1 x ((mem_cons_lt hlt a as).1 hx)
    · obtain ⟨y, rfl⟩ : ∃ y, x = y + 32 := ⟨x - 32, by omega⟩
      exact h2 y ((mem_cons_add y a as).1 hx)

theorem wordsLe_iff : ∀ (as bs : List Bitmapword), WordsLe as bs ↔ ∀ x, Mem x as → Mem x bs
  | [], bs => by simp [WordsLe, not_mem_nil]
  | a :: as, [] => by
    have hz : a = 0 ↔ ∀ i, a.toBitVec.getLsbD i = true → Mem i [] := by
      have := and_not_eq_zero_iff a 0
      simpa [not_mem_nil] using this
    rw [WordsLe, forall_mem_cons, wordsLe_iff as [], hz]
    simp [not_mem_nil]
  | a :: as, b :: bs => by
    rw [WordsLe, forall_mem_cons, wordsLe_iff as bs, and_not_eq_zero_iff]
    constructor
    · rintro ⟨h1, h2⟩
      refine ⟨fun i hi => ?_, fun x hx => (mem_cons_add x b bs).2 (h2 x hx)⟩
      exact (mem_cons_lt (BitVec.lt_of_getLsbD hi) b bs).2 (h1 i hi)
    · rintro ⟨h1, h2⟩
      refine ⟨fun i hi => ?_, fun x hx => (mem_cons_add x b bs).1 (h2 x hx)⟩
      exact (mem_cons_lt (BitVec.lt_of_getLsbD hi) b bs).1 (h1 i hi)

theorem subset_iff_wordsLe (a b : Relids) : Subset a b ↔ WordsLe (words a) (words b) :=
  (wordsLe_iff _ _).symm

/-! ## `bms_is_empty` and `bms_equal` -/

/-- mirrors bitmapset.c:663-679 -/
def bmsIsEmpty (a : Relids) : Bool := (words a).all (· == 0)

theorem wordsLe_nil_iff (as : List Bitmapword) : WordsLe as [] ↔ as.all (· == 0) = true := by
  induction as with
  | nil => simp [WordsLe]
  | cons a as ih => simp [WordsLe, ih]

/-- The word loop of `bms_equal`: common words must agree, extra words of
the longer set must be zero. -/
def equalWords : List Bitmapword → List Bitmapword → Bool
  | [], bs => bs.all (· == 0)
  | as, [] => as.all (· == 0)
  | a :: as, b :: bs => a == b && equalWords as bs

/-- mirrors bitmapset.c:131-173 -/
def bmsEqual (a b : Relids) : Bool :=
  match a, b with
  | none, none => true
  | none, some b => bmsIsEmpty (some b)
  | some a, none => bmsIsEmpty (some a)
  | some a, some b => equalWords a.words b.words

theorem and_not_self_iff (a b : Bitmapword) : a = b ↔ a &&& ~~~b = 0 ∧ b &&& ~~~a = 0 := by
  rw [and_not_eq_zero_iff, and_not_eq_zero_iff]
  constructor
  · rintro rfl; exact ⟨fun _ h => h, fun _ h => h⟩
  · rintro ⟨h1, h2⟩
    rw [← UInt32.toBitVec_inj]
    apply BitVec.eq_of_getLsbD_eq
    intro i _
    have h1 := h1 i
    have h2 := h2 i
    cases ha : a.toBitVec.getLsbD i <;> cases hb : b.toBitVec.getLsbD i <;> simp_all

theorem equalWords_iff : ∀ (as bs : List Bitmapword), equalWords as bs = true ↔
    WordsLe as bs ∧ WordsLe bs as
  | [], bs => by simp [equalWords, WordsLe, wordsLe_nil_iff]
  | a :: as, [] => by
    have := wordsLe_nil_iff (a :: as)
    simp only [equalWords, ← this]
    simp [WordsLe]
  | a :: as, b :: bs => by
    simp only [equalWords, WordsLe, Bool.and_eq_true, beq_iff_eq, and_not_self_iff a b,
      equalWords_iff as bs]
    tauto

/-- `bms_equal` is equality of the denoted sets. -/
theorem bmsEqual_iff (a b : Relids) : bmsEqual a b = true ↔ Subset a b ∧ Subset b a := by
  rw [subset_iff_wordsLe, subset_iff_wordsLe]
  cases a with
  | none =>
    cases b with
    | none => simp [bmsEqual, WordsLe]
    | some b => simp [bmsEqual, bmsIsEmpty, WordsLe, wordsLe_nil_iff]
  | some a =>
    cases b with
    | none => simp [bmsEqual, bmsIsEmpty, WordsLe, wordsLe_nil_iff]
    | some b => simpa [bmsEqual] using equalWords_iff a.words b.words

/-! ## `bms_subset_compare` -/

/-- mirrors src/include/nodes/bitmapset.h:45-51 -/
inductive BMSComparison
  | equal
  | subset1
  | subset2
  | different
  deriving DecidableEq, Repr

/-- The loops over the common and then the extra words, with the status so
far. A word that breaks one inclusion moves the status, or ends the
comparison when the other inclusion is already broken. -/
def subsetLoop : BMSComparison → List Bitmapword → List Bitmapword → BMSComparison
  | r, [], [] => r
  | r, a :: as, [] =>
    if a ≠ 0 then
      if r = .subset1 then .different else subsetLoop .subset2 as []
    else subsetLoop r as []
  | r, [], b :: bs =>
    if b ≠ 0 then
      if r = .subset2 then .different else subsetLoop .subset1 [] bs
    else subsetLoop r [] bs
  | r, a :: as, b :: bs =>
    if a &&& ~~~b ≠ 0 ∧ r = .subset1 then .different
    else
      let r := if a &&& ~~~b ≠ 0 then .subset2 else r
      if b &&& ~~~a ≠ 0 then
        if r = .subset2 then .different else subsetLoop .subset1 as bs
      else subsetLoop r as bs

/-- mirrors bitmapset.c:344-414 -/
def bmsSubsetCompare (a b : Relids) : BMSComparison :=
  match a, b with
  | none, none => .equal
  | none, some b => if bmsIsEmpty (some b) then .equal else .subset1
  | some a, none => if bmsIsEmpty (some a) then .equal else .subset2
  | some a, some b => subsetLoop .equal a.words b.words

/-- The first set is included in the second. -/
def BMSComparison.Le (r : BMSComparison) : Prop := r = .equal ∨ r = .subset1

/-- The second set is included in the first. -/
def BMSComparison.Ge (r : BMSComparison) : Prop := r = .equal ∨ r = .subset2

instance (r : BMSComparison) : Decidable r.Le := inferInstanceAs (Decidable (_ ∨ _))
instance (r : BMSComparison) : Decidable r.Ge := inferInstanceAs (Decidable (_ ∨ _))

/-- The status carries both inclusions of the words seen so far; the loop
extends them to the remaining words. -/
theorem subsetLoop_spec : ∀ (as bs : List Bitmapword) (r : BMSComparison), r ≠ .different →
    ((subsetLoop r as bs).Le ↔ r.Le ∧ WordsLe as bs) ∧
    ((subsetLoop r as bs).Ge ↔ r.Ge ∧ WordsLe bs as)
  | [], [], r, _ => by simp [subsetLoop, WordsLe]
  | a :: as, [], r, hr => by
    have ih := fun r hr => subsetLoop_spec as [] r hr
    simp only [subsetLoop, WordsLe]
    by_cases ha : a = 0
    · simpa [ha, WordsLe] using ih r hr
    · cases r <;> simp_all [BMSComparison.Le, BMSComparison.Ge, WordsLe]
  | [], b :: bs, r, hr => by
    have ih := fun r hr => subsetLoop_spec [] bs r hr
    simp only [subsetLoop, WordsLe]
    by_cases hb : b = 0
    · simpa [hb, WordsLe] using ih r hr
    · cases r <;> simp_all [BMSComparison.Le, BMSComparison.Ge, WordsLe]
  | a :: as, b :: bs, r, hr => by
    have ih := fun r hr => subsetLoop_spec as bs r hr
    have h0 := ih r hr
    have h1 := ih .subset1 (by decide)
    have h2 := ih .subset2 (by decide)
    simp only [subsetLoop, WordsLe]
    by_cases ha : a &&& ~~~b = 0 <;> by_cases hb : b &&& ~~~a = 0 <;>
      cases r <;> simp_all [BMSComparison.Le, BMSComparison.Ge]

theorem bmsSubsetCompare_spec (a b : Relids) :
    ((bmsSubsetCompare a b).Le ↔ WordsLe (words a) (words b)) ∧
    ((bmsSubsetCompare a b).Ge ↔ WordsLe (words b) (words a)) := by
  cases a with
  | none =>
    cases b with
    | none => simp [bmsSubsetCompare, BMSComparison.Le, BMSComparison.Ge, WordsLe]
    | some b =>
      simp only [bmsSubsetCompare, bmsIsEmpty, words_some, words_none, wordsLe_nil_iff]
      by_cases h : (b.words.all fun x => x == 0) =
        true <;> simp [h, BMSComparison.Le, BMSComparison.Ge, WordsLe]
  | some a =>
    cases b with
    | none =>
      simp only [bmsSubsetCompare, bmsIsEmpty, words_some, words_none, wordsLe_nil_iff]
      by_cases h : (a.words.all fun x => x == 0) =
        true <;> simp [h, BMSComparison.Le, BMSComparison.Ge, WordsLe]
    | some b =>
      simpa [bmsSubsetCompare, BMSComparison.Le, BMSComparison.Ge] using
        subsetLoop_spec a.words b.words .equal (by decide)

/-- `BMS_EQUAL` or `BMS_SUBSET1`: exactly the inclusion of the first set. -/
theorem bmsSubsetCompare_le (a b : Relids) : (bmsSubsetCompare a b).Le ↔ Subset a b := by
  rw [subset_iff_wordsLe]
  exact (bmsSubsetCompare_spec a b).1

/-- `BMS_EQUAL` or `BMS_SUBSET2`: exactly the inclusion of the second set. -/
theorem bmsSubsetCompare_ge (a b : Relids) : (bmsSubsetCompare a b).Ge ↔ Subset b a := by
  rw [subset_iff_wordsLe]
  exact (bmsSubsetCompare_spec a b).2

end GreenPipeline.L1.Bms
