import Mathlib.Algebra.Order.Ring.Nat
import Mathlib.Data.Rat.Floor

/-!
# Buckets of a hash index

The meta page of a hash index keeps the highest bucket and two masks, from which the bucket of a
hash value is computed (`src/backend/access/hash/hashpage.c`, `hashutil.c`). The table grows by
one bucket at a time.

Sources: `src/backend/access/hash/hashutil.c`.

Results:

* `masks_reachable`: the low mask is the high one without its top bit, and the highest bucket lies
  between them.
* `expandtable_splits_one`: an expansion moves some hash values from one bucket to the new one and
  no others, and that bucket is found again from the number of the new one.
-/
namespace GreenPipeline.L2.HashBuckets

open Nat

/-! ## The code -/

/-- mirrors hashutil.c:140-150 -/
def hashLog2Loop (num : BitVec 32) : Nat → Nat → BitVec 32 → Nat
  | 0, i, _ => i
  | fuel + 1, i, limit => if limit < num then hashLog2Loop num fuel (i + 1) (limit <<< 1) else i

def hashLog2 (num : BitVec 32) : Nat := hashLog2Loop num 32 0 1

/-- mirrors src/include/access/hash.h:189-192 -/
def splitpointPhaseBits : Nat := 2

def splitpointPhaseMask : Nat := 3

def splitpointGroupsWithOnePhase : Nat := 10

/-- mirrors hashutil.c:156-181 -/
def hashSpareindex (numBucket : BitVec 32) : Nat :=
  let splitpointGroup := hashLog2 numBucket
  if splitpointGroup < splitpointGroupsWithOnePhase then splitpointGroup
  else
    splitpointGroupsWithOnePhase +
      ((splitpointGroup - splitpointGroupsWithOnePhase) <<< splitpointPhaseBits) +
      (((numBucket - 1).toNat >>> (splitpointGroup - (splitpointPhaseBits + 1))) &&&
        splitpointPhaseMask)

/-- mirrors hashutil.c:187-216 -/
def hashGetTotalbuckets (splitpointPhase : Nat) : BitVec 32 :=
  if splitpointPhase < splitpointGroupsWithOnePhase then 1#32 <<< splitpointPhase
  else
    let splitpointGroup :=
      splitpointGroupsWithOnePhase +
        ((splitpointPhase - splitpointGroupsWithOnePhase) >>> splitpointPhaseBits)
    let phasesWithinSplitpointGroup :=
      ((splitpointPhase - splitpointGroupsWithOnePhase) &&& splitpointPhaseMask) + 1
    (1#32 <<< (splitpointGroup - 1)) +
      ((1#32 <<< (splitpointGroup - 1)) >>> splitpointPhaseBits) * BitVec.ofNat 32
      phasesWithinSplitpointGroup

/-- The part of the meta page that maps hash values to buckets. -/
structure HashMetaPage where
  maxbucket : BitVec 32
  highmask : BitVec 32
  lowmask : BitVec 32

/-- The number of buckets of a new index.
mirrors hashpage.c:525-531 -/
def initialBuckets (dnumbuckets : ℚ) : BitVec 32 :=
  if dnumbuckets ≤ 2.0 then 2#32
  else if dnumbuckets ≥ 1073741824.0 then 0x40000000#32
  else hashGetTotalbuckets (hashSpareindex (BitVec.ofNat 32 ⌊dnumbuckets⌋.toNat))

/-- mirrors hashpage.c:577-591 -/
def hashInitMetabuffer (dnumbuckets : ℚ) : HashMetaPage :=
  let numBuckets := initialBuckets dnumbuckets
  let highmask := (1#32 <<< hashLog2 (numBuckets + 1)) - 1
  { maxbucket := numBuckets - 1
    highmask := highmask
    lowmask := highmask >>> 1 }

/-- mirrors hashutil.c:124-135 -/
def hashkey2bucket (hashkey maxbucket highmask lowmask : BitVec 32) : BitVec 32 :=
  let bucket := hashkey &&& highmask
  if bucket > maxbucket then bucket &&& lowmask else bucket

/-- The bucket of a hash value. -/
def HashMetaPage.bucket (metap : HashMetaPage) (hashkey : BitVec 32) : BitVec 32 :=
  hashkey2bucket hashkey metap.maxbucket metap.highmask metap.lowmask

/-- mirrors hashpage.c:695 -/
def HashMetaPage.newBucket (metap : HashMetaPage) : BitVec 32 := metap.maxbucket + 1

/-- mirrors hashpage.c:697 -/
def HashMetaPage.oldBucket (metap : HashMetaPage) : BitVec 32 := metap.newBucket &&& metap.lowmask

/-- The bucket mapping after an expansion.
mirrors hashpage.c:838-848 -/
def HashMetaPage.expand (metap : HashMetaPage) : HashMetaPage :=
  if metap.newBucket > metap.highmask then
    { maxbucket := metap.newBucket
      lowmask := metap.highmask
      highmask := metap.newBucket ||| metap.highmask }
  else { metap with maxbucket := metap.newBucket }

/-- An attempt to expand. The attempt is given up if no split is needed any more, for lack of a
lock or of space, or at the largest number of buckets. mirrors hashpage.c:622-848 -/
def hashExpandtable (givenUp : Bool) (metap : HashMetaPage) : Option HashMetaPage :=
  if givenUp then none else if metap.maxbucket ≥ 0x7FFFFFFE#32 then none else some metap.expand

/-- mirrors src/port/fls.c:54-64 -/
def flsLoop : Nat → BitVec 32 → Nat → Nat
  | 0, _, bit => bit
  | fuel + 1, mask, bit => if mask = 1 then bit else flsLoop fuel (mask >>> 1) (bit + 1)

def fls (mask : BitVec 32) : Nat := if mask = 0 then 0 else flsLoop 32 mask 1

/-- The bucket that a bucket was split from.
mirrors hashutil.c:446-447 -/
def oldBucketFromNewBucket (newBucket : BitVec 32) : BitVec 32 :=
  newBucket &&& ((1#32 <<< (fls newBucket - 1)) - 1)

/-- The meta pages of an index: a new one, and those after any number of expansions. -/
inductive Reachable : HashMetaPage → Prop
  | init (dnumbuckets : ℚ) : Reachable (hashInitMetabuffer dnumbuckets)
  | expand {metap metap' : HashMetaPage} (givenUp : Bool) (h : Reachable metap)
      (hexpand : hashExpandtable givenUp metap = some metap') :
    Reachable metap'

/-! ## Powers of two -/

variable {k : Nat} {num : BitVec 32}

theorem toNat_one_shiftLeft (hk : k < 32) : (1#32 <<< k).toNat = 2 ^ k := by
  rw [BitVec.toNat_shiftLeft, BitVec.toNat_ofNat, shiftLeft_eq]
  have hlt : 2 ^ k < 2 ^ 32 := Nat.pow_lt_pow_right (by decide) hk
  omega

/-- The mask of the lowest bits. -/
theorem toNat_mask (hk : k < 32) : ((1#32 <<< k) - 1).toNat = 2 ^ k - 1 := by
  have hpos := Nat.two_pow_pos k
  have hlt : 2 ^ k < 2 ^ 32 := Nat.pow_lt_pow_right (by decide) hk
  rw [BitVec.toNat_sub, toNat_one_shiftLeft hk, show (1 : BitVec 32).toNat = 1 from rfl]
  omega

theorem toNat_and_mask {x m : BitVec 32} (hm : m.toNat = 2 ^ k - 1) :
    (x &&& m).toNat = x.toNat % 2 ^ k := by
  rw [BitVec.toNat_and, hm, and_two_pow_sub_one_eq_mod]

theorem hashLog2Loop_spec (hnum : num.toNat ≤ 2 ^ 31) :
    ∀ (fuel i : Nat), i + fuel = 32 → i ≤ 31 → (i = 0 ∨ 2 ^ (i - 1) < num.toNat) →
    hashLog2Loop num fuel i (1#32 <<< i) ≤ 31 ∧
    num.toNat ≤ 2 ^ hashLog2Loop num fuel i (1#32 <<< i) ∧
      (hashLog2Loop num fuel i (1#32 <<< i) = 0 ∨
        2 ^ (hashLog2Loop num fuel i (1#32 <<< i) - 1) < num.toNat) := by
  intro fuel
  induction fuel with
  | zero => intro i hi hle; omega
  | succ fuel ih =>
    intro i hi hle hlow
    have hlimit := toNat_one_shiftLeft (show i < 32 by omega)
    unfold hashLog2Loop
    split
    · rename_i hlt
      rw [BitVec.lt_def, hlimit] at hlt
      have hi31 : i ≠ 31 := by
        intro h
        rw [h] at hlt
        omega
      rw [← BitVec.shiftLeft_add]
      exact ih (i + 1) (by omega) (by omega) (Or.inr hlt)
    · rename_i hge
      rw [BitVec.not_lt, BitVec.le_def, hlimit] at hge
      exact ⟨hle, hge, hlow⟩

/-- The logarithm rounded up. -/
theorem hashLog2_spec (hnum : num.toNat ≤ 2 ^ 31) :
    hashLog2 num ≤ 31 ∧ num.toNat ≤ 2 ^ hashLog2 num ∧
    (hashLog2 num = 0 ∨ 2 ^ (hashLog2 num - 1) < num.toNat) :=
  hashLog2Loop_spec hnum 32 0 rfl (by decide) (Or.inl rfl)

theorem flsLoop_eq : ∀ (fuel k bit : Nat) (mask : BitVec 32), k < fuel → 2 ^ k ≤ mask.toNat →
    mask.toNat < 2 ^ (k + 1) →
    flsLoop fuel mask bit = bit + k := by
  intro fuel
  induction fuel with
  | zero => intro k bit mask hk; omega
  | succ fuel ih =>
    intro k bit mask hk hlow hup
    unfold flsLoop
    cases k with
    | zero =>
      have hone : mask = 1 := BitVec.eq_of_toNat_eq (by simp at hlow hup ⊢; omega)
      rw [if_pos hone, add_zero]
    | succ k =>
      have hne : mask ≠ 1 := by
        intro h
        rw [h] at hlow
        simp at hlow
      have hhalf : (mask >>> 1).toNat = mask.toNat / 2 := by
        simp [BitVec.toNat_ushiftRight, shiftRight_eq_div_pow]
      rw [if_neg hne,
        ih k (bit + 1) (mask >>> 1) (by omega) (by rw [hhalf]; omega) (by rw [hhalf]; omega)]
      omega

/-- The position of the most significant bit. -/
theorem fls_eq {mask : BitVec 32} (hk : k < 32) (hlow : 2 ^ k ≤ mask.toNat)
    (hup : mask.toNat < 2 ^ (k + 1)) : fls mask = k + 1 := by
  have hne : mask ≠ 0 := by
    intro h
    rw [h] at hlow
    simp at hlow
  rw [fls, if_neg hne, flsLoop_eq 32 k 1 mask hk hlow hup]
  omega

/-! ## The number of buckets of a new index -/

/-- The buckets up to a phase of a group with four of them. -/
theorem toNat_totalbuckets {g p : Nat} (hg10 : 10 ≤ g) (hg30 : g ≤ 30) (hp : p ≤ 3) :
    (hashGetTotalbuckets (splitpointGroupsWithOnePhase +
      ((g - splitpointGroupsWithOnePhase) <<< splitpointPhaseBits) + p)).toNat =
      2 ^ (g - 1) + 2 ^ (g - 3) * (p + 1) := by
  have hphase : 10 + ((g - 10) <<< 2) + p - 10 = 4 * (g - 10) + p := by
    omega
  have hgroup : 10 + ((4 * (g - 10) + p) >>> 2) = g := by
    omega
  have hrest : (4 * (g - 10) + p) &&& 3 = p := by
    rw [show 3 = 2 ^ 2 - 1 from rfl, and_two_pow_sub_one_eq_mod]
    omega
  have hquarter : ((1#32 <<< (g - 1)) >>> 2).toNat = 2 ^ (g - 3) := by
    rw [BitVec.toNat_ushiftRight, toNat_one_shiftLeft (by omega), Nat.shiftRight_eq_div_pow,
      Nat.pow_div (by omega) (by decide)]
    rfl
  have hpow : 2 ^ (g - 1) = 4 * 2 ^ (g - 3) := by
    rw [show g - 1 = g - 3 + 2 by omega, pow_add]; omega
  have hle : 2 ^ (g - 3) ≤ 2 ^ 27 := Nat.pow_le_pow_right (by decide) (by omega)
  have hmul : 2 ^ (g - 3) * (p + 1) ≤ 2 ^ (g - 3) * 4 := mul_le_mul_left _ (by omega)
  rw [hashGetTotalbuckets, if_neg (not_lt.2 (le_add_right_of_le (le_add_right _ _)))]
  change ((1#32 <<< (10 + ((10 + ((g - 10) <<< 2) + p - 10) >>> 2) - 1)) +
    ((1#32 <<< (10 + ((10 + ((g - 10) <<< 2) + p - 10) >>> 2) - 1)) >>> 2) *
      BitVec.ofNat 32 (((10 + ((g - 10) <<< 2) + p - 10) &&& 3) + 1)).toNat = _
  rw [hphase, hgroup, hrest, BitVec.toNat_add, BitVec.toNat_mul, hquarter,
    toNat_one_shiftLeft (by omega), BitVec.toNat_ofNat, mod_eq_of_lt (show p + 1 < 2 ^ 32 by omega),
    mod_eq_of_lt (by omega), mod_eq_of_lt (by omega)]

/-- The number of buckets asked for is rounded up: to a power of two in a group with one phase,
else to a quarter on the way to it. -/
theorem totalbuckets_spareindex (hpos : 0 < num.toNat) (hnum : num.toNat ≤ 2 ^ 30) :
    num.toNat ≤ (hashGetTotalbuckets (hashSpareindex num)).toNat ∧
    (hashGetTotalbuckets (hashSpareindex num)).toNat ≤ 2 ^ 30 := by
  have hle : num.toNat ≤ 2 ^ 31 := by omega
  obtain ⟨-, hup, hlow⟩ := hashLog2_spec hle
  have hg : hashLog2 num ≤ 30 := by
    rcases hlow with h | h
    · omega
    · have := (Nat.pow_lt_pow_iff_right (by decide)).1 (Nat.lt_of_lt_of_le h hnum)
      omega
  have hpow30 : 2 ^ hashLog2 num ≤ 2 ^ 30 := Nat.pow_le_pow_right (by decide) hg
  unfold hashSpareindex
  generalize hashLog2 num = g at hup hlow hg hpow30
  by_cases hone : g < splitpointGroupsWithOnePhase
  · simp only [hone, if_true, hashGetTotalbuckets]
    rw [toNat_one_shiftLeft (by omega)]
    exact ⟨hup, hpow30⟩
  · have hg10 : 10 ≤ g := by
      unfold splitpointGroupsWithOnePhase at hone
      omega
    have hpow1 : 2 ^ (g - 1) = 4 * 2 ^ (g - 3) := by
      rw [show g - 1 = g - 3 + 2 by omega, pow_add]; omega
    have hpow : 2 ^ g = 8 * 2 ^ (g - 3) := by
      rw [show g = g - 3 + 3 by omega, Nat.pow_add, Nat.add_sub_cancel]; omega
    have hpred : (num - 1).toNat = num.toNat - 1 := by
      rw [BitVec.toNat_sub, show (1 : BitVec 32).toNat = 1 from rfl]
      omega
    -- the two bits below the top bit
    have hquarter : 4 ≤ (num.toNat - 1) / 2 ^ (g - 3) ∧ (num.toNat - 1) / 2 ^ (g - 3) < 8 := by
      have hunit := Nat.two_pow_pos (g - 3)
      exact ⟨(le_div_iff_mul_le hunit).2 (by omega), (div_lt_iff_lt_mul hunit).2 (by omega)⟩
    have hphase : ((num - 1).toNat >>> (g - (splitpointPhaseBits + 1))) &&& splitpointPhaseMask =
        (num.toNat - 1) / 2 ^ (g - 3) - 4 := by
      change ((num - 1).toNat >>> (g - 3)) &&& 3 = _
      rw [show 3 = 2 ^ 2 - 1 from rfl, and_two_pow_sub_one_eq_mod, shiftRight_eq_div_pow, hpred]
      simp only [show 2 ^ 2 - 1 = 3 from rfl]
      omega
    have hdiv := Nat.lt_mul_div_succ (num.toNat - 1) (Nat.two_pow_pos (g - 3))
    simp only [hone, if_false]
    rw [hphase, toNat_totalbuckets hg10 hg (by omega)]
    generalize (num.toNat - 1) / 2 ^ (g - 3) = q at hquarter hdiv
    have hq : 2 ^ (g - 3) * (q - 4 + 1) + 4 * 2 ^ (g - 3) = 2 ^ (g - 3) * (q + 1) := by
      rw [mul_comm 4, ← mul_add]
      congr 1
      omega
    have hq8 : 2 ^ (g - 3) * (q + 1) ≤ 2 ^ (g - 3) * 8 := mul_le_mul_left _ (by omega)
    omega

theorem toNat_initialBuckets (dnumbuckets : ℚ) :
    2 ≤ (initialBuckets dnumbuckets).toNat ∧ (initialBuckets dnumbuckets).toNat ≤ 2 ^ 30 := by
  unfold initialBuckets
  split
  · decide
  · split
    · decide
    · rename_i hgt hlt
      have hfloor : 2 ≤ ⌊dnumbuckets⌋ ∧ ⌊dnumbuckets⌋ < 1073741824 := by
        refine ⟨Int.le_floor.2 ?_, Int.floor_lt.2 ?_⟩
        · push_cast
          linarith
        · push_cast
          linarith
      have hnum : (BitVec.ofNat 32 ⌊dnumbuckets⌋.toNat).toNat = ⌊dnumbuckets⌋.toNat := by
        rw [BitVec.toNat_ofNat, mod_eq_of_lt (by omega)]
      have hnum30 : (BitVec.ofNat 32 ⌊dnumbuckets⌋.toNat).toNat ≤ 2 ^ 30 := by omega
      obtain ⟨hge, hle⟩ := totalbuckets_spareindex (by omega) hnum30
      omega

/-! ## The masks -/

/-- The low mask has one bit less than the high one; all numbers under the low mask are buckets,
and none above the high mask is. -/
structure Masks (metap : HashMetaPage) (j : Nat) : Prop where
  bits : j ≤ 30
  low : metap.lowmask.toNat = 2 ^ j - 1
  high : metap.highmask.toNat = 2 ^ (j + 1) - 1
  above : 2 ^ j ≤ metap.maxbucket.toNat + 1
  below : metap.maxbucket.toNat < 2 ^ (j + 1)

theorem masks_init (dnumbuckets : ℚ) : ∃ j, Masks (hashInitMetabuffer dnumbuckets) j := by
  obtain ⟨h2, h30⟩ := toNat_initialBuckets dnumbuckets
  unfold hashInitMetabuffer
  dsimp only
  generalize initialBuckets dnumbuckets = numBuckets at h2 h30 ⊢
  have hsucc : (numBuckets + 1).toNat = numBuckets.toNat + 1 := by
    rw [BitVec.toNat_add, show (1 : BitVec 32).toNat = 1 from rfl]
    omega
  have hpred : (numBuckets - 1).toNat = numBuckets.toNat - 1 := by
    rw [BitVec.toNat_sub, show (1 : BitVec 32).toNat = 1 from rfl]
    omega
  have hle : (numBuckets + 1).toNat ≤ 2 ^ 31 := by omega
  obtain ⟨hbits, hup, hlow⟩ := hashLog2_spec hle
  rw [hsucc] at hup hlow
  generalize hashLog2 (numBuckets + 1) = k at hbits hup hlow ⊢
  have hk : k ≠ 0 := by
    intro h
    rw [h] at hup
    omega
  have hmask := toNat_mask (show k < 32 by omega)
  have hpow : 2 ^ k = 2 * 2 ^ (k - 1) := by
    rw [show k = k - 1 + 1 by omega, Nat.pow_succ, Nat.add_sub_cancel]; omega
  refine ⟨k - 1, by omega, ?_, ?_, ?_, ?_⟩
  · simp only [BitVec.toNat_ushiftRight, hmask, shiftRight_eq_div_pow]
    omega
  · simp only [hmask, show k - 1 + 1 = k by omega]
  · simp only [hpred]
    omega
  · simp only [hpred, show k - 1 + 1 = k by omega]
    omega

section Step
variable {metap : HashMetaPage} {j : Nat} (hm : Masks metap j)
  (hlt : metap.maxbucket < 0x7FFFFFFE#32)
include hm hlt

omit hm in
theorem toNat_newBucket : metap.newBucket.toNat = metap.maxbucket.toNat + 1 := by
  rw [BitVec.lt_def, show (0x7FFFFFFE#32).toNat = 0x7FFFFFFE from rfl] at hlt
  rw [HashMetaPage.newBucket, BitVec.toNat_add, show (1 : BitVec 32).toNat = 1 from rfl]
  omega

/-- A new doubling starts when all numbers under the high mask are buckets. -/
theorem newBucket_gt_iff : metap.newBucket > metap.highmask ↔
    metap.maxbucket.toNat + 1 = 2 ^ (j + 1) := by
  have hbelow := hm.below
  rw [gt_iff_lt, BitVec.lt_def, toNat_newBucket hlt, hm.high]
  omega

theorem masks_expand :
    Masks metap.expand (if metap.maxbucket.toNat + 1 = 2 ^ (j + 1) then j + 1 else j) ∧
    metap.expand.maxbucket.toNat = metap.maxbucket.toNat + 1 := by
  have hnew := toNat_newBucket hlt
  have habove := hm.above
  have hbelow := hm.below
  rw [BitVec.lt_def, show (0x7FFFFFFE#32).toNat = 0x7FFFFFFE from rfl] at hlt
  by_cases hfull : metap.maxbucket.toNat + 1 = 2 ^ (j + 1)
  · have hgt := (newBucket_gt_iff hm hlt).2 hfull
    have hor : (metap.newBucket ||| metap.highmask).toNat = 2 ^ (j + 1 + 1) - 1 := by
      have hsum := Nat.two_pow_add_eq_or_of_lt (show 2 ^ (j + 1) - 1 < 2 ^ (j + 1) by omega) 1
      rw [Nat.mul_one] at hsum
      rw [BitVec.toNat_or, hnew, hfull, hm.high, ← hsum]
      omega
    have hbits : j + 1 < 31 := by
      refine (Nat.pow_lt_pow_iff_right (show 1 < 2 by decide)).1 ?_
      omega
    rw [if_pos hfull]
    unfold HashMetaPage.expand
    rw [if_pos hgt]
    refine ⟨⟨by omega, hm.high, hor, ?_, ?_⟩, hnew⟩
    · change 2 ^ (j + 1) ≤ metap.newBucket.toNat + 1
      omega
    · change metap.newBucket.toNat < 2 ^ (j + 1 + 1)
      omega
  · have hle : ¬ metap.newBucket > metap.highmask := fun h => hfull ((newBucket_gt_iff hm hlt).1 h)
    rw [if_neg hfull]
    unfold HashMetaPage.expand
    rw [if_neg hle]
    refine ⟨⟨hm.bits, hm.low, hm.high, ?_, ?_⟩, hnew⟩
    · change 2 ^ j ≤ metap.newBucket.toNat + 1
      omega
    · change metap.newBucket.toNat < 2 ^ (j + 1)
      omega

omit hlt in
/-- The bucket of a hash value, by remainders. -/
theorem toNat_bucket (hashkey : BitVec 32) : (metap.bucket hashkey).toNat =
    if metap.maxbucket.toNat < hashkey.toNat % 2 ^ (j + 1) then hashkey.toNat % 2 ^ j
    else hashkey.toNat % 2 ^ (j + 1) := by
  have hhigh : (hashkey &&& metap.highmask).toNat = hashkey.toNat % 2 ^ (j + 1) :=
    toNat_and_mask hm.high
  unfold HashMetaPage.bucket hashkey2bucket
  simp only [gt_iff_lt, BitVec.lt_def, hhigh]
  split
  · rw [toNat_and_mask hm.low, hhigh, mod_mod_of_dvd _ (pow_dvd_pow 2 (le_succ j))]
  · exact hhigh

theorem toNat_oldBucket : metap.oldBucket.toNat = (metap.maxbucket.toNat + 1) % 2 ^ j := by
  rw [HashMetaPage.oldBucket, toNat_and_mask hm.low, toNat_newBucket hlt]

/-- Only the hash values whose low bits are the new bucket move. -/
theorem bucket_expand (hashkey : BitVec 32) : metap.expand.bucket hashkey = metap.bucket hashkey ∨
    metap.bucket hashkey = metap.oldBucket ∧ metap.expand.bucket hashkey = metap.newBucket := by
  obtain ⟨hm', hmax⟩ := masks_expand hm hlt
  have hbefore := toNat_bucket hm hashkey
  have hafter := toNat_bucket hm' hashkey
  have hold := toNat_oldBucket hm hlt
  have hnew := toNat_newBucket hlt
  have hbelow := hm.below
  have hmod1 : hashkey.toNat % 2 ^ (j + 1) % 2 ^ j = hashkey.toNat % 2 ^ j :=
    mod_mod_of_dvd _ (pow_dvd_pow 2 (le_succ j))
  simp only [← BitVec.toNat_inj]
  rw [hbefore, hafter, hold, hnew, hmax]
  by_cases hfull : metap.maxbucket.toNat + 1 = 2 ^ (j + 1)
  · -- before the doubling, every remainder is a bucket
    simp only [if_pos hfull]
    have hmod2 : hashkey.toNat % 2 ^ (j + 1 + 1) % 2 ^ (j + 1) = hashkey.toNat % 2 ^ (j + 1) :=
      mod_mod_of_dvd _ (pow_dvd_pow 2 (le_succ (j + 1)))
    rw [if_neg (show ¬ metap.maxbucket.toNat < hashkey.toNat % 2 ^ (j + 1) by omega), hfull]
    rcases lt_trichotomy (hashkey.toNat % 2 ^ (j + 1 + 1)) (2 ^ (j + 1)) with h | h | h
    · left
      rw [if_neg (by omega), ← hmod2, mod_eq_of_lt h]
    · right
      rw [if_neg (by omega), ← hmod2, h, mod_self, mod_eq_zero_of_dvd (pow_dvd_pow 2 (le_succ j))]
      exact ⟨rfl, rfl⟩
    · left
      rw [if_pos h]
  · simp only [if_neg hfull]
    rcases lt_trichotomy (hashkey.toNat % 2 ^ (j + 1)) (metap.maxbucket.toNat + 1) with h | h | h
    · left
      rw [if_neg (by omega), if_neg (by omega)]
    · right
      rw [if_pos (by omega), if_neg (by omega), ← hmod1, h]
      exact ⟨rfl, rfl⟩
    · left
      rw [if_pos (by omega), if_pos (by omega)]

/-- The hash value with the number of the new bucket moves. -/
theorem bucket_newBucket : metap.bucket metap.newBucket = metap.oldBucket ∧
    metap.expand.bucket metap.newBucket = metap.newBucket := by
  obtain ⟨hm', hmax⟩ := masks_expand hm hlt
  have hbefore := toNat_bucket hm metap.newBucket
  have hafter := toNat_bucket hm' metap.newBucket
  have hold := toNat_oldBucket hm hlt
  have hnew := toNat_newBucket hlt
  have hbelow := hm.below
  simp only [← BitVec.toNat_inj]
  rw [hbefore, hafter, hold, hmax, hnew]
  by_cases hfull : metap.maxbucket.toNat + 1 = 2 ^ (j + 1)
  · simp only [if_pos hfull]
    rw [hfull, mod_self, mod_eq_of_lt (show 2 ^ (j + 1) < 2 ^ (j + 1 + 1) by omega),
      if_neg (by omega), if_neg (by omega), mod_eq_zero_of_dvd (pow_dvd_pow 2 (le_succ j))]
    exact ⟨rfl, rfl⟩
  · simp only [if_neg hfull]
    rw [mod_eq_of_lt (by omega), if_pos (by omega), if_neg (by omega)]
    exact ⟨rfl, rfl⟩

/-- The top bit of the new bucket tells the mask at the time of the split. -/
theorem oldBucketFromNewBucket_eq : oldBucketFromNewBucket metap.newBucket = metap.oldBucket := by
  have hold := toNat_oldBucket hm hlt
  have hnew := toNat_newBucket hlt
  have habove := hm.above
  have hbelow := hm.below
  have hbits := hm.bits
  refine BitVec.eq_of_toNat_eq ?_
  rw [hold, oldBucketFromNewBucket]
  by_cases hfull : metap.maxbucket.toNat + 1 = 2 ^ (j + 1)
  · have hfls : fls metap.newBucket = j + 1 + 1 := fls_eq (by omega) (by omega) (by omega)
    rw [hfls, Nat.add_sub_cancel, toNat_and_mask (toNat_mask (by omega)), hnew, hfull, Nat.mod_self,
      mod_eq_zero_of_dvd (pow_dvd_pow 2 (le_succ j))]
  · have hfls : fls metap.newBucket = j + 1 := fls_eq (by omega) (by omega) (by omega)
    rw [hfls, Nat.add_sub_cancel, toNat_and_mask (toNat_mask (by omega)), hnew]

end Step

/-- Over any number of expansions. -/
theorem masks_reachable {metap : HashMetaPage} (h : Reachable metap) : ∃ j, Masks metap j := by
  induction h with
  | init dnumbuckets => exact masks_init dnumbuckets
  | @expand metap metap' givenUp _ hexpand ih =>
    obtain ⟨j, hm⟩ := ih
    unfold hashExpandtable at hexpand
    split at hexpand
    · cases hexpand
    · split at hexpand
      · cases hexpand
      · rename_i hlt
        cases hexpand
        exact ⟨_, (masks_expand hm (BitVec.not_le.1 hlt)).1⟩

/-- An expansion maps every hash value to the bucket it had, except for some that move from one
bucket, the old one, to the new one; and the old bucket is the one found from the number of the
new one. -/
theorem expandtable_splits_one {metap metap' : HashMetaPage} (h : Reachable metap) (givenUp : Bool)
    (hexpand : hashExpandtable givenUp metap = some metap') :
    (∀ hashkey, metap'.bucket hashkey = metap.bucket hashkey ∨
        metap.bucket hashkey = metap.newBucket &&& metap.lowmask ∧
        metap'.bucket hashkey = metap.newBucket) ∧
      (∃ hashkey, metap.bucket hashkey = metap.newBucket &&& metap.lowmask ∧
        metap'.bucket hashkey = metap.newBucket) ∧
      oldBucketFromNewBucket metap.newBucket = metap.newBucket &&& metap.lowmask := by
  obtain ⟨j, hm⟩ := masks_reachable h
  unfold hashExpandtable at hexpand
  split at hexpand
  · cases hexpand
  · split at hexpand
    · cases hexpand
    · rename_i hlt
      cases hexpand
      have hlt := BitVec.not_le.1 hlt
      exact ⟨bucket_expand hm hlt, ⟨metap.newBucket, bucket_newBucket hm hlt⟩,
        oldBucketFromNewBucket_eq hm hlt⟩

/-- The smallest index. -/
theorem reachable_smallest : Reachable ⟨1, 3, 1⟩ := by
  have hinit : hashInitMetabuffer 0.0 = ⟨1, 3, 1⟩ := by
    unfold hashInitMetabuffer initialBuckets
    rw [if_pos (by norm_num)]
    rfl
  rw [← hinit]
  exact .init 0.0

theorem expandtable_splits_one_third :
    (∀ hashkey, (HashMetaPage.mk 2 3 1).bucket hashkey = (HashMetaPage.mk 1 3 1).bucket hashkey ∨
        (HashMetaPage.mk 1 3 1).bucket hashkey = 2 &&& 1 ∧
        (HashMetaPage.mk 2 3 1).bucket hashkey = 2) ∧
      (∃ hashkey, (HashMetaPage.mk 1 3 1).bucket hashkey = 2 &&& 1 ∧
        (HashMetaPage.mk 2 3 1).bucket hashkey = 2) ∧
      oldBucketFromNewBucket 2 = 2 &&& 1 :=
  expandtable_splits_one reachable_smallest false rfl

end GreenPipeline.L2.HashBuckets
