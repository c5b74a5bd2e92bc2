import Mathlib.Data.Nat.Bitwise

/-!
# Integers as bytes

Three stored forms of a natural number: the fixed two-byte little-endian one, a little-endian word
of any length, and varbyte, seven bits a byte with the high bit set on every byte but the last.
The varbyte decoder reads a bounded number of bytes and takes the last of them whole, without a
continuation bit.

Results:

* `getUint16_ofNat`: two bytes hold a number below `2 ^ 16`.
* `length_encodeVarbyte`: the varbyte form takes a byte for each seven bits begun.
* `varbyteLen_add_le`: a sum takes no more bytes than its parts together.
* `decodeVarbyte_encode`: decoding gives the number back and stops at its last
  byte, if the decoder goes deep enough.
-/
namespace GreenPipeline.Core.Bytes

open List Nat

/-! ## Two bytes -/

def putUint16 (n : Nat) : List UInt8 := [UInt8.ofNat n, UInt8.ofNat (n / 256)]

def getUint16 (lo hi : UInt8) : Nat := lo.toNat + 256 * hi.toNat

theorem getUint16_ofNat {n : Nat} (h : n < 65536) :
    getUint16 (UInt8.ofNat n) (UInt8.ofNat (n / 256)) = n := by
  simp only [getUint16, UInt8.toNat_ofNat']
  omega

/-! ## Varbyte -/

def encodeVarbyte (val : Nat) : List UInt8 :=
  if 0x7F < val then UInt8.ofNat (0x80 ||| (val &&& 0x7F)) :: encodeVarbyte (val >>> 7)
  else [UInt8.ofNat val]
termination_by val
decreasing_by
  rw [Nat.shiftRight_eq_div_pow]
  omega

/-- The value and the number of bytes read: up to `levels` bytes that may continue
and one that may not. A byte past the end reads as zero. -/
def decodeVarbyte : (levels shift : Nat) → List UInt8 → Nat × Nat
  | 0, shift, mem => ((mem.headD 0).toNat <<< shift, 1)
  | levels + 1, shift, mem =>
    let c := (mem.headD 0).toNat
    if c &&& 0x80 ≠ 0 then
      let (val, n) := decodeVarbyte levels (shift + 7) mem.tail
      ((c &&& 0x7F) <<< shift ||| val, n + 1)
    else ((c &&& 0x7F) <<< shift, 1)

/-- A byte for each seven bits begun. -/
def varbyteLen (val : Nat) : Nat := val.log2 / 7 + 1

theorem decodeVarbyte_count_pos (levels shift : Nat) (mem : List UInt8) :
    0 < (decodeVarbyte levels shift mem).2 := by
  cases levels with
  | zero => exact Nat.one_pos
  | succ levels =>
    simp only [decodeVarbyte]
    split
    · exact succ_pos _
    · exact Nat.one_pos

theorem low_seven (val : Nat) : val &&& 0x7F = val % 128 := and_two_pow_sub_one_eq_mod val 7

theorem continued (val : Nat) : 0x80 ||| (val &&& 0x7F) = val % 128 + 128 := by
  rw [low_seven, add_comm]
  exact (two_pow_add_eq_or_of_lt (i := 7) (mod_lt val (by decide)) 1).symm

/-- The high bit of a byte. -/
theorem high_bit {c : Nat} (hc : c < 256) : c &&& 0x80 ≠ 0 ↔ 128 ≤ c := by
  have h : c &&& 0x80 = (c.testBit 7).toNat * 2 ^ 7 := and_two_pow c 7
  rw [h, testBit_eq_decide_div_mod_eq]
  by_cases hbit : c / 2 ^ 7 % 2 = 1
  · simp only [hbit, decide_true, Bool.toNat_true]
    omega
  · simp only [hbit, decide_false, Bool.toNat_false]
    omega

variable {val : Nat}

theorem encodeVarbyte_of_le (h : val ≤ 127) : encodeVarbyte val = [UInt8.ofNat val] := by
  rw [encodeVarbyte, if_neg (by omega)]

theorem encodeVarbyte_of_lt (h : 127 < val) :
    encodeVarbyte val = UInt8.ofNat (val % 128 + 128) :: encodeVarbyte (val / 128) := by
  rw [encodeVarbyte, if_pos h, continued, shiftRight_eq_div_pow]

theorem encodeVarbyte_length_pos (val : Nat) : 0 < (encodeVarbyte val).length := by
  obtain h | h := lt_or_ge 127 val
  · simp [encodeVarbyte_of_lt h]
  · simp [encodeVarbyte_of_le h]

theorem length_encodeVarbyte_le_iff (k val : Nat) :
    (encodeVarbyte val).length ≤ k + 1 ↔ val < 2 ^ (7 * (k + 1)) := by
  induction k generalizing val with
  | zero =>
    obtain h | h := Nat.lt_or_ge 127 val
    · have := encodeVarbyte_length_pos (val / 128)
      simp only [encodeVarbyte_of_lt h, length_cons]
      omega
    · simp only [encodeVarbyte_of_le h, length_singleton]
      omega
  | succ k ih =>
    have hpow : 2 ^ (7 * (k + 1 + 1)) = 2 ^ (7 * (k + 1)) * 128 := by
      rw [show 7 * (k + 1 + 1) = 7 * (k + 1) + 7 by omega, Nat.pow_add]
    obtain h | h := Nat.lt_or_ge 127 val
    · rw [encodeVarbyte_of_lt h, length_cons, Nat.succ_le_succ_iff, ih, hpow,
        Nat.div_lt_iff_lt_mul (by omega)]
    · have hone : 1 ≤ 2 ^ (7 * (k + 1)) := Nat.one_le_two_pow
      simp only [encodeVarbyte_of_le h, length_singleton]
      omega

theorem length_encodeVarbyte (val : Nat) : (encodeVarbyte val).length = varbyteLen val := by
  obtain rfl | hne := Nat.eq_zero_or_pos val
  · rw [encodeVarbyte_of_le (zero_le _)]
    rfl
  have hpos := encodeVarbyte_length_pos val
  obtain ⟨k, hk⟩ : ∃ k, (encodeVarbyte val).length = k + 1 :=
    ⟨(encodeVarbyte val).length - 1, by omega⟩
  have hhi : val.log2 < 7 * (k + 1) :=
    (log2_lt (by omega)).2 ((length_encodeVarbyte_le_iff k val).1 (by omega))
  -- one byte fewer is too short
  have hlo : 7 * k ≤ val.log2 := by
    cases k with
    | zero => omega
    | succ k =>
      have hnot : ¬ val < 2 ^ (7 * (k + 1)) := fun h => by
        have := (length_encodeVarbyte_le_iff k val).2 h
        omega
      exact (le_log2 (by omega)).2 (by omega)
  rw [hk, varbyteLen]
  omega

theorem lt_two_pow_varbyteLen (val : Nat) : val < 2 ^ (7 * varbyteLen val) := by
  have hlen := length_encodeVarbyte val
  exact (length_encodeVarbyte_le_iff (val.log2 / 7) val).1 (by rw [hlen, varbyteLen])

/-- The form of a sum is no longer than the forms of its parts together. -/
theorem varbyteLen_add_le (a b : Nat) : varbyteLen (a + b) ≤ varbyteLen a + varbyteLen b := by
  have hb : 1 ≤ varbyteLen b := succ_pos _
  have hpow : 2 ^ (7 * varbyteLen a) + 2 ^ (7 * varbyteLen b) ≤
      2 ^ (7 * varbyteLen a) * 2 ^ (7 * varbyteLen b) :=
    Nat.add_le_mul (Nat.le_self_pow (by simp [varbyteLen]) 2)
      (Nat.le_self_pow (by simp [varbyteLen]) 2)
  have hlt : a + b < 2 ^ (7 * (varbyteLen a + varbyteLen b - 1 + 1)) := by
    rw [Nat.sub_add_cancel (by omega), Nat.mul_add, Nat.pow_add]
    have ha' := lt_two_pow_varbyteLen a
    have hb' := lt_two_pow_varbyteLen b
    omega
  have hle := (length_encodeVarbyte_le_iff _ _).2 hlt
  rw [length_encodeVarbyte] at hle
  omega

theorem shiftLeft_or_split (val shift : Nat) :
    (val % 128) <<< shift ||| (val / 128) <<< (shift + 7) = val <<< shift := by
  rw [Nat.add_comm shift 7, Nat.shiftLeft_add, ← Nat.shiftLeft_or_distrib, Nat.or_comm,
    shiftLeft_eq (val / 128), mul_comm, ← two_pow_add_eq_or_of_lt (mod_lt val (by decide))]
  congr 1
  omega

theorem decodeVarbyte_encode (levels shift : Nat) (rest : List UInt8)
    (h : val < 2 ^ (7 * (levels + 1))) :
    decodeVarbyte levels shift (encodeVarbyte val ++ rest) =
      (val <<< shift, (encodeVarbyte val).length) := by
  induction levels generalizing val shift with
  | zero =>
    rw [encodeVarbyte_of_le (by omega), decodeVarbyte]
    have hbyte : (UInt8.ofNat val).toNat = val := by
      rw [UInt8.toNat_ofNat']
      omega
    simp only [singleton_append, headD_cons, hbyte, length_singleton]
  | succ levels ih =>
    obtain hlt | hle := lt_or_ge 127 val
    · have hbyte : (UInt8.ofNat (val % 128 + 128)).toNat = val % 128 + 128 := by
        rw [UInt8.toNat_ofNat']
        omega
      have hsmall : val / 128 < 2 ^ (7 * (levels + 1)) := by
        rw [div_lt_iff_lt_mul (by omega)]
        rwa [show 7 * (levels + 1 + 1) = 7 * (levels + 1) + 7 by omega, pow_add] at h
      rw [encodeVarbyte_of_lt hlt, cons_append, decodeVarbyte]
      simp only [headD_cons, tail_cons, hbyte, ih (shift + 7) hsmall, low_seven, length_cons]
      rw [if_pos ((high_bit (by omega)).2 (by omega)),
        show (val % 128 + 128) % 128 = val % 128 by omega, shiftLeft_or_split]
    · have hbyte : (UInt8.ofNat val).toNat = val := by
        rw [UInt8.toNat_ofNat']
        omega
      rw [encodeVarbyte_of_le hle, decodeVarbyte]
      simp only [singleton_append, headD_cons, hbyte, low_seven, length_singleton]
      rw [if_neg fun hc => by have := (high_bit (by omega)).1 hc; omega, mod_eq_of_lt (by omega)]

end GreenPipeline.Core.Bytes
