import Mathlib.Algebra.BigOperators.Intervals
import Mathlib.Data.List.DropRight
import Mathlib.Data.List.GetD
import Mathlib.Data.Rat.Floor
import Mathlib.Tactic.FieldSimp
import Mathlib.Tactic.Linarith
import Mathlib.Tactic.Positivity
import Mathlib.Tactic.Ring

/-!
# Positional numbers

A list of digits, the most significant first, in any base. Digits may be out of range while
carries are pending. A fixed-point number is a list of digits together with the weight of the
first one, the exponent of the base it is multiplied by.

Results:

* `horner_append`, `horner_lt`, `horner_inj`: the value of a list of digits.
* `horner_foldr`: propagating a carry, or a borrow, from the last digit to the first keeps the
  value.
* `fixedPoint_window`: leading and trailing zeros do not change a fixed-point number.
-/
namespace GreenPipeline.Core.Positional

open List Int

/-! ## Lists of digits -/

/-- The number with these digits. -/
def horner (b : ℤ) (ds : List ℤ) : ℤ := ds.foldl (fun acc d => acc * b + d) 0

/-- Every digit is in range. -/
def Digits (b : ℤ) (ds : List ℤ) : Prop := ∀ d ∈ ds, 0 ≤ d ∧ d < b

variable {b : ℤ} {xs ys : List ℤ}

@[simp] theorem horner_nil (b : ℤ) : horner b [] = 0 := rfl

theorem horner_concat (b : ℤ) (xs : List ℤ) (x : ℤ) :
    horner b (xs ++ [x]) = horner b xs * b + x := by
  simp [horner, foldl_append]

theorem horner_append (b : ℤ) (xs ys : List ℤ) :
    horner b (xs ++ ys) = horner b xs * b ^ ys.length + horner b ys := by
  induction ys using reverseRecOn with
  | nil => simp
  | append_singleton ys y ih =>
    rw [← append_assoc, horner_concat, ih, horner_concat, length_append, length_singleton, pow_succ]
    ring

@[simp] theorem horner_singleton (b x : ℤ) : horner b [x] = x := by simp [horner]

theorem horner_cons (b x : ℤ) (xs : List ℤ) :
    horner b (x :: xs) = x * b ^ xs.length + horner b xs := by
  rw [← singleton_append, horner_append, horner_singleton]

@[simp] theorem horner_replicate_zero (b : ℤ) (n : ℕ) : horner b (List.replicate n 0) = 0 := by
  induction n with
  | zero => rfl
  | succ n ih => rw [replicate_succ, horner_cons, ih, zero_mul, zero_add]

variable {x s : ℤ} {ι : Type*} {n : ℕ}

theorem Digits.cons (hx : 0 ≤ x ∧ x < b) (h : Digits b xs) : Digits b (x :: xs) := by
  intro d hd
  rcases mem_cons.mp hd with rfl | hmem
  · exact hx
  · exact h d hmem

theorem Digits.of_cons (h : Digits b (x :: xs)) : (0 ≤ x ∧ x < b) ∧ Digits b xs :=
  ⟨h x (mem_cons_self ..), (forall_mem_cons.1 h).2⟩

theorem Digits.append (hx : Digits b xs) (hy : Digits b ys) : Digits b (xs ++ ys) := by
  intro d hd
  rcases mem_append.mp hd with hmem | hmem
  · exact hx d hmem
  · exact hy d hmem

theorem Digits.of_append (h : Digits b (xs ++ ys)) : Digits b xs ∧ Digits b ys :=
  ⟨fun d hd => h d (mem_append_left ys hd), fun d hd => h d (mem_append_right xs hd)⟩

theorem Digits.zeros (hb : 0 < b) (n : ℕ) : Digits b (List.replicate n 0) := by
  intro d hd
  rw [eq_of_mem_replicate hd]
  exact ⟨le_refl 0, hb⟩

theorem horner_nonneg (hb : 0 ≤ b) (h : ∀ d ∈ xs, 0 ≤ d) : 0 ≤ horner b xs := by
  induction xs with
  | nil => simp
  | cons x xs ih =>
    have hx := h x (mem_cons_self ..)
    have hxs := ih (forall_mem_cons.1 h).2
    rw [horner_cons]
    positivity

theorem Digits.horner_nonneg (hb : 0 < b) (h : Digits b xs) : 0 ≤ horner b xs :=
  Positional.horner_nonneg (le_of_lt hb) (fun d hd => (h d hd).1)

theorem Digits.horner_lt (hb : 0 < b) (h : Digits b xs) : horner b xs < b ^ xs.length := by
  induction xs with
  | nil => simp
  | cons x xs ih =>
    obtain ⟨hx, hxs⟩ := h.of_cons
    have hlt := ih hxs
    have hpow : 0 < b ^ xs.length := pow_pos hb _
    rw [horner_cons, length_cons, pow_succ]
    calc x * b ^ xs.length + horner b xs < x * b ^ xs.length + b ^ xs.length := by linarith
      _ = (x + 1) * b ^ xs.length := by ring
      _ ≤ b * b ^ xs.length := mul_le_mul_of_nonneg_right (by omega) hpow.le
      _ = b ^ xs.length * b := by ring

/-- The first digit gives the order of magnitude. -/
theorem Digits.pow_le_horner (hb : 0 < b) (h : Digits b (x :: xs)) (hx : x ≠ 0) :
    b ^ xs.length ≤ horner b (x :: xs) := by
  obtain ⟨hrange, hxs⟩ := h.of_cons
  have hnonneg := hxs.horner_nonneg hb
  have hpow : 0 < b ^ xs.length := pow_pos hb _
  rw [horner_cons]
  calc b ^ xs.length = 1 * b ^ xs.length := (one_mul _).symm
    _ ≤ x * b ^ xs.length := mul_le_mul_of_nonneg_right (by omega) hpow.le
    _ ≤ x * b ^ xs.length + horner b xs := by linarith

/-- Equally many digits with the same value are the same. -/
theorem horner_inj (hb : 0 < b) (hx : Digits b xs) (hy : Digits b ys) (hlen : xs.length = ys.length)
    (h : horner b xs = horner b ys) : xs = ys := by
  induction xs using reverseRecOn generalizing ys with
  | nil => exact (eq_nil_of_length_eq_zero hlen.symm).symm
  | append_singleton xs x ih =>
    rcases eq_nil_or_concat ys with rfl | ⟨ys', y, rfl⟩
    · simp at hlen
    · rw [concat_eq_append] at *
      obtain ⟨hxs, hx1⟩ := hx.of_append
      obtain ⟨hys, hy1⟩ := hy.of_append
      have hxr := hx1 x (mem_singleton_self x)
      have hyr := hy1 y (mem_singleton_self y)
      rw [horner_concat, horner_concat] at h
      -- the last digit is the remainder, the others the quotient
      have hxy : x = y := by
        have hmod := congrArg (· % b) h
        simp only [mul_add_emod_self_right] at hmod
        rwa [emod_eq_of_lt hxr.1 hxr.2, emod_eq_of_lt hyr.1 hyr.2] at hmod
      rw [hxy] at h ⊢
      have hrest : horner b xs = horner b ys' := mul_right_cancel₀ (ne_of_gt hb) (by linarith)
      rw [ih hxs hys (by simpa using hlen) hrest]

theorem horner_eq_zero_iff (hb : 0 < b) (h : Digits b xs) : horner b xs = 0 ↔ ∀ d ∈ xs, d = 0 := by
  constructor
  · intro hzero
    have hall :=
      horner_inj hb h (Digits.zeros hb xs.length) length_replicate.symm
        (by rw [hzero, horner_replicate_zero])
    intro d hd
    rw [hall] at hd
    exact eq_of_mem_replicate hd
  · intro hall
    rw [eq_replicate_of_mem hall, horner_replicate_zero]

/-! ## Carries -/

/-- Each position takes a carry from the right and leaves a digit and a carry to the left;
together the digits are worth what was there. -/
theorem horner_foldr (f : ι → ℤ) (step : ι → ℤ → ℤ × ℤ)
    (hstep : ∀ i c, (step i c).2 + b * (step i c).1 = f i + c) (l : List ι) (c : ℤ) :
    let s := l.foldr (fun i s => ((step i s.1).1, (step i s.1).2 :: s.2)) (c, [])
    s.2.length = l.length ∧ horner b s.2 + b ^ l.length * s.1 = horner b (l.map f) + c := by
  induction l with
  | nil => simp
  | cons i l ih =>
    simp only [foldr_cons, map_cons, length_cons, horner_cons, length_map]
    generalize l.foldr (fun i s => ((step i s.1).1, (step i s.1).2 :: s.2)) (c, []) = s at ih
    obtain ⟨hlen, hval⟩ := ih
    have hi := hstep i s.1
    refine ⟨by rw [hlen], ?_⟩
    rw [hlen]
    calc (step i s.1).2 * b ^ l.length + horner b s.2 + b ^ (l.length + 1) * (step i s.1).1
        = ((step i s.1).2 + b * (step i s.1).1) * b ^ l.length + horner b s.2 := by ring
      _ = f i * b ^ l.length + (horner b s.2 + b ^ l.length * s.1) := by rw [hi]; ring
      _ = f i * b ^ l.length + horner b (l.map f) + c := by rw [hval]; ring

/-- Digits and carries stay in their ranges. -/
theorem digits_foldr {P : ℤ → Prop} (step : ι → ℤ → ℤ × ℤ) (l : List ι)
    (hstep : ∀ i ∈ l, ∀ c, P c → P (step i c).1 ∧ 0 ≤ (step i c).2 ∧ (step i c).2 < b)
    {c : ℤ} (hc : P c) :
    let s := l.foldr (fun i s => ((step i s.1).1, (step i s.1).2 :: s.2)) (c, [])
    P s.1 ∧ Digits b s.2 := by
  induction l with
  | nil => exact ⟨hc, fun d hd => by cases hd⟩
  | cons i l ih =>
    obtain ⟨hcarry, hdigits⟩ := ih (forall_mem_cons.1 hstep).2
    obtain ⟨hnext, hdigit⟩ := hstep i (mem_cons_self ..) _ hcarry
    exact ⟨hnext, hdigits.cons hdigit⟩

theorem horner_map_add (f g : ι → ℤ) (k : ℤ) (l : List ι) :
    horner b (l.map fun i => f i + k * g i) = horner b (l.map f) + k * horner b (l.map g) := by
  induction l with
  | nil => simp
  | cons i l ih =>
    simp only [map_cons, horner_cons, length_map, ih]
    ring

/-! ## Fixed-point numbers -/

/-- The first digit is multiplied by `b ^ w`, the next by `b ^ (w - 1)` and so on. -/
def fixedPoint (b : ℤ) (ds : List ℤ) (w : ℤ) : ℚ :=
  (horner b ds : ℚ) * (b : ℚ) ^ (w + 1 - ds.length)

@[simp] theorem fixedPoint_nil (b w : ℤ) : fixedPoint b [] w = 0 := by simp [fixedPoint]

theorem fixedPoint_append (hb : b ≠ 0) (xs ys : List ℤ) (w : ℤ) :
    fixedPoint b (xs ++ ys) w = fixedPoint b xs w + fixedPoint b ys (w - xs.length) := by
  have hb' : (b : ℚ) ≠ 0 := cast_ne_zero.mpr hb
  unfold fixedPoint
  rw [horner_append, length_append]
  have hsplit : (b : ℚ) ^ (w + 1 - (xs.length : ℤ)) =
      (b : ℚ) ^ ys.length * (b : ℚ) ^ (w + 1 - ((xs.length + ys.length : ℕ) : ℤ)) := by
    rw [← zpow_natCast, ← zpow_add₀ hb']
    congr 1
    push_cast
    ring
  have hsame : w - (xs.length : ℤ) + 1 - ys.length = w + 1 - ((xs.length + ys.length : ℕ) : ℤ) := by
    push_cast
    ring
  rw [hsplit, hsame]
  push_cast
  ring

theorem fixedPoint_zeros (b : ℤ) (n : ℕ) (w : ℤ) : fixedPoint b (List.replicate n 0) w = 0 := by
  simp [fixedPoint]

theorem fixedPoint_leading_zeros (hb : b ≠ 0) (n : ℕ) (xs : List ℤ) (w : ℤ) :
    fixedPoint b (List.replicate n 0 ++ xs) (w + n) = fixedPoint b xs w := by
  rw [fixedPoint_append hb, fixedPoint_zeros, zero_add, length_replicate, add_sub_cancel_right]

theorem fixedPoint_trailing_zeros (hb : b ≠ 0) (n : ℕ) (xs : List ℤ) (w : ℤ) :
    fixedPoint b (xs ++ List.replicate n 0) w = fixedPoint b xs w := by
  rw [fixedPoint_append hb, fixedPoint_zeros, add_zero]

theorem fixedPoint_cons (hb : b ≠ 0) (x : ℤ) (xs : List ℤ) (w : ℤ) :
    fixedPoint b (x :: xs) w = x * (b : ℚ) ^ w + fixedPoint b xs (w - 1) := by
  rw [← singleton_append, fixedPoint_append hb, length_singleton]
  simp [fixedPoint]

/-- Moving the point. -/
theorem fixedPoint_shift (hb : b ≠ 0) (xs : List ℤ) (w k : ℤ) :
    fixedPoint b xs (w + k) = fixedPoint b xs w * (b : ℚ) ^ k := by
  unfold fixedPoint
  rw [mul_assoc, ← zpow_add₀ (cast_ne_zero.mpr hb)]
  congr 2
  ring

section Range

variable (hb : 0 < b) (h : Digits b xs)
include hb h

theorem Digits.fixedPoint_nonneg (w : ℤ) : 0 ≤ fixedPoint b xs w := by
  have hb' : (0 : ℚ) < b := cast_pos.mpr hb
  have hnonneg : (0 : ℚ) ≤ horner b xs := cast_nonneg (h.horner_nonneg hb)
  exact mul_nonneg hnonneg (zpow_pos hb' _).le

theorem Digits.fixedPoint_lt (w : ℤ) : fixedPoint b xs w < (b : ℚ) ^ (w + 1) := by
  have hb' : (0 : ℚ) < b := cast_pos.mpr hb
  have hlt : (horner b xs : ℚ) < (b : ℚ) ^ xs.length := by exact_mod_cast h.horner_lt hb
  calc (horner b xs : ℚ) * (b : ℚ) ^ (w + 1 - xs.length)
      < (b : ℚ) ^ xs.length * (b : ℚ) ^ (w + 1 - xs.length) :=
        mul_lt_mul_of_pos_right hlt (zpow_pos hb' _)
    _ = (b : ℚ) ^ (w + 1) := by
      rw [← zpow_natCast, ← zpow_add₀ (ne_of_gt hb')]
      congr 1
      ring

theorem Digits.fixedPoint_eq_zero_iff (w : ℤ) : fixedPoint b xs w = 0 ↔ ∀ d ∈ xs, d = 0 := by
  have hb' : (0 : ℚ) < b := cast_pos.mpr hb
  rw [← horner_eq_zero_iff hb h]
  unfold fixedPoint
  rw [mul_eq_zero, or_iff_left (ne_of_gt (zpow_pos hb' _)), cast_eq_zero]

end Range

/-- A first digit that is not zero gives the weight. -/
theorem Digits.zpow_le_fixedPoint (hb : 0 < b) (h : Digits b (x :: xs)) (hx : x ≠ 0) (w : ℤ) :
    (b : ℚ) ^ w ≤ fixedPoint b (x :: xs) w := by
  have hb' : (0 : ℚ) < b := cast_pos.mpr hb
  obtain ⟨hrange, hxs⟩ := h.of_cons
  have hnonneg := hxs.fixedPoint_nonneg hb (w - 1)
  have hone : (1 : ℚ) ≤ x := by exact_mod_cast (by omega)
  rw [fixedPoint_cons (ne_of_gt hb)]
  calc (b : ℚ) ^ w = 1 * (b : ℚ) ^ w := (one_mul _).symm
    _ ≤ x * (b : ℚ) ^ w := mul_le_mul_of_nonneg_right hone (zpow_pos hb' w).le
    _ ≤ x * (b : ℚ) ^ w + fixedPoint b xs (w - 1) := by linarith

/-! ## Windows -/

/-- The digit at an index, zero outside the list. -/
def digitAt (ds : List ℤ) (i : ℤ) : ℤ := if 0 ≤ i then ds.getD i.toNat 0 else 0

/-- The `n` digits from index `s` on. -/
def window (ds : List ℤ) (s : ℤ) (n : ℕ) : List ℤ :=
  (List.range n).map (fun k : ℕ => digitAt ds (s + k))

@[simp] theorem length_window (ds : List ℤ) (s : ℤ) (n : ℕ) : (window ds s n).length = n := by
  simp [window]

theorem digitAt_range (hb : 0 < b) (h : Digits b xs) (i : ℤ) :
    0 ≤ digitAt xs i ∧ digitAt xs i < b := by
  unfold digitAt
  split
  · by_cases hlt : i.toNat < xs.length
    · rw [getD_eq_getElem _ _ hlt]
      exact h _ (getElem_mem hlt)
    · rw [getD_eq_default _ _ (by omega)]
      exact ⟨le_refl 0, hb⟩
  · exact ⟨le_refl 0, hb⟩

theorem Digits.window (hb : 0 < b) (h : Digits b xs) (s : ℤ) (n : ℕ) :
    Digits b (window xs s n) := by
  intro d hd
  obtain ⟨k, -, rfl⟩ := mem_map.mp hd
  exact digitAt_range hb h _

/-- A window around all digits adds zeros on both sides. -/
theorem window_eq (ds : List ℤ) (hs : s ≤ 0) (hn : ds.length ≤ s + n) :
    window ds s n = List.replicate (-s).toNat 0 ++ ds ++
      List.replicate (s + n - ds.length).toNat 0 := by
  apply ext_getElem
  · simp
    omega
  · intro k hk _
    simp only [window, getElem_map, getElem_range, digitAt, getElem_append, length_append,
      length_replicate, getElem_replicate]
    by_cases hlow : k < (-s).toNat
    · rw [if_neg (by omega), dif_pos (by omega), dif_pos hlow]
    · rw [if_pos (by omega)]
      have hindex : (s + k).toNat = k - (-s).toNat := by omega
      by_cases hmid : k < (-s).toNat + ds.length
      · rw [dif_pos hmid, dif_neg hlow, getD_eq_getElem _ _ (by omega)]
        congr 1
      · rw [dif_neg hmid, getD_eq_default _ _ (by omega)]

theorem fixedPoint_window (hb : b ≠ 0) (ds : List ℤ) (hs : s ≤ 0) (hn : ds.length ≤ s + n) (w : ℤ) :
    fixedPoint b (window ds s n) (w - s) = fixedPoint b ds w := by
  have hw : w - s = w + (-s).toNat := by omega
  rw [window_eq ds hs hn, fixedPoint_trailing_zeros hb, hw, fixedPoint_leading_zeros hb]

/-- What a window leaves out at the end. -/
theorem fixedPoint_window_take (hb : b ≠ 0) (ds : List ℤ) (hs : s ≤ 0) (n : ℕ) (w : ℤ) :
    fixedPoint b (window ds s n) (w - s) = fixedPoint b (ds.take (s + n).toNat) w := by
  have hcut : window ds s n = window (ds.take (s + n).toNat) s n := by
    apply map_congr_left
    intro k hk
    have hlt := mem_range.mp hk
    unfold digitAt
    split
    · rw [getD_eq_getElem?_getD, getD_eq_getElem?_getD, getElem?_take_of_lt (by omega)]
    · rfl
  rcases le_total (s + n) 0 with hneg | hpos
  · -- the window ends before the first digit
    rw [hcut, show (s + n).toNat = 0 by omega, take_zero, fixedPoint_nil]
    have hzeros : window [] s n = replicate n 0 := by
      unfold window
      simp [digitAt]
    rw [hzeros, fixedPoint_zeros]
  · rw [hcut, fixedPoint_window hb _ hs (by simp; omega)]

theorem window_drop (ds : List ℤ) (m n : ℕ) : window ds m n = window (ds.drop m) 0 n := by
  apply map_congr_left
  intro k _
  unfold digitAt
  rw [if_pos (by omega), if_pos (by omega), getD_eq_getElem?_getD, getD_eq_getElem?_getD,
    getElem?_drop]
  congr 2
  omega

/-- A window may leave out leading digits if the value is too small for them. -/
theorem fixedPoint_window_of_lt (hb : 0 < b) {ds : List ℤ} (hds : Digits b ds)
    (hn : ds.length ≤ s + n) {w : ℤ} (hlt : fixedPoint b ds w < (b : ℚ) ^ (w - s + 1)) :
    fixedPoint b (window ds s n) (w - s) = fixedPoint b ds w := by
  have hb0 := ne_of_gt hb
  rcases le_total s 0 with hs | hs
  · exact fixedPoint_window hb0 ds hs hn w
  obtain ⟨m, rfl⟩ := eq_ofNat_of_zero_le hs
  rcases le_total ds.length m with hshort | hlong
  · -- every digit is too high
    obtain ⟨k, hk⟩ := Nat.exists_eq_add_of_le hshort
    have hzero : fixedPoint b ds w = 0 := by
      by_contra hne
      have hpos : (0 : ℚ) < horner b ds := by
        have hnonneg : (0 : ℚ) ≤ horner b ds := cast_nonneg (hds.horner_nonneg hb)
        exact lt_of_le_of_ne hnonneg fun heq => hne (by rw [fixedPoint, ← heq, zero_mul])
      have hone : (1 : ℚ) ≤ horner b ds := by
        exact_mod_cast (show 0 < horner b ds by exact_mod_cast hpos)
      have hone' : (1 : ℚ) ≤ b := by exact_mod_cast hb
      have hle : (b : ℚ) ^ (w - m + 1) ≤ fixedPoint b ds w := by
        calc
          (b : ℚ) ^ (w - m + 1) ≤ (b : ℚ) ^ (w + 1 - ds.length) :=
            zpow_le_zpow_right₀ hone' (by omega)
          _ = 1 * (b : ℚ) ^ (w + 1 - ds.length) := (one_mul _).symm
          _ ≤ fixedPoint b ds w :=
            mul_le_mul_of_nonneg_right hone (zpow_pos (by exact_mod_cast hb) _).le
      linarith
    rw [window_drop, drop_eq_nil_of_le hshort, hzero]
    have hall : window [] 0 n = replicate n 0 := by
      simpa using window_eq [] (s := 0) (n := n) (le_refl 0) (by simp)
    rw [hall, fixedPoint_zeros]
  · have hsplit : ds = ds.take m ++ ds.drop m := (take_append_drop m ds).symm
    have hlen := length_take_of_le hlong
    have htake : Digits b (ds.take m) := fun d hd => hds d (mem_of_mem_take hd)
    have hdrop : Digits b (ds.drop m) := fun d hd => hds d (mem_of_mem_drop hd)
    have hparts : fixedPoint b ds w =
        horner b (ds.take m) * (b : ℚ) ^ (w + 1 - m) + fixedPoint b (ds.drop m) (w - m) := by
      conv_lhs => rw [hsplit, fixedPoint_append hb0, hlen, fixedPoint, hlen]
    have hpow : (0 : ℚ) < (b : ℚ) ^ (w + 1 - m) := zpow_pos (by exact_mod_cast hb) _
    have hrest := hdrop.fixedPoint_nonneg hb (w - m)
    -- the digits left out are a multiple of the bound
    have hzero : horner b (ds.take m) = 0 := by
      have hnonneg := htake.horner_nonneg hb
      by_contra hne
      have hone : (1 : ℚ) ≤ horner b (ds.take m) := by exact_mod_cast (by omega)
      have hle := mul_le_mul_of_nonneg_right hone hpow.le
      rw [hparts, show w - (m : ℤ) + 1 = w + 1 - m by ring] at hlt
      linarith
    rw [window_drop, hparts, hzero, cast_zero, zero_mul, zero_add]
    simpa using fixedPoint_window hb0 _ (le_refl 0) (by rw [length_drop]; omega) (w - m)

/-- Digit by digit. -/
theorem fixedPoint_eq_sum (hb : b ≠ 0) (ds : List ℤ) (w : ℤ) :
    fixedPoint b ds w = ∑ i ∈ Finset.range ds.length, (digitAt ds i : ℚ) * (b : ℚ) ^ (w - i) := by
  induction ds using reverseRecOn with
  | nil => simp
  | append_singleton ds d ih =>
    rw [fixedPoint_append hb, ih, length_append, length_singleton, Finset.sum_range_succ]
    congr 1
    · apply Finset.sum_congr rfl
      intro i hi
      have hlt := Finset.mem_range.mp hi
      congr 2
      simp only [digitAt, natCast_nonneg, if_true, toNat_natCast, getD_eq_getElem?_getD]
      rw [getElem?_append_left hlt]
    · have hlast : digitAt (ds ++ [d]) (ds.length : ℤ) = d := by simp [digitAt]
      rw [hlast]
      simp [fixedPoint]

/-! ## Stripped lists -/

/-- Neither the first nor the last digit is zero. -/
def Stripped (ds : List ℤ) : Prop := ds.head? ≠ some 0 ∧ ds.getLast? ≠ some 0

theorem fixedPoint_dropWhile (hb : b ≠ 0) (ds : List ℤ) (w : ℤ) :
    fixedPoint b (ds.dropWhile (· = 0)) (w - (ds.takeWhile (· = 0)).length) =
      fixedPoint b ds w := by
  have hzeros : ds.takeWhile (· = 0) = replicate (ds.takeWhile (· = 0)).length 0 :=
    eq_replicate_of_mem fun d hd => by simpa using mem_takeWhile_imp hd
  have hsplit : ds = ds.takeWhile (· = 0) ++ ds.dropWhile (· = 0) := takeWhile_append_dropWhile.symm
  conv_rhs => rw [hsplit, fixedPoint_append hb]
  rw [hzeros, fixedPoint_zeros, zero_add, length_replicate]

theorem fixedPoint_rdropWhile (hb : b ≠ 0) (ds : List ℤ) (w : ℤ) :
    fixedPoint b (ds.rdropWhile (· = 0)) w = fixedPoint b ds w := by
  have hzeros : ds.rtakeWhile (· = 0) = replicate (ds.rtakeWhile (· = 0)).length 0 :=
    eq_replicate_of_mem fun d hd => by simpa using mem_rtakeWhile_imp hd
  have hsplit : ds = ds.rdropWhile (· = 0) ++ ds.rtakeWhile (· = 0) :=
    rdropWhile_append_rtakeWhile.symm
  conv_rhs => rw [hsplit, hzeros, fixedPoint_trailing_zeros hb]

theorem stripped_of_dropWhile (ds : List ℤ) :
    Stripped ((ds.dropWhile (· = 0)).rdropWhile (· = 0)) := by
  generalize hds : ds.dropWhile (· = 0) = es
  constructor
  · intro hhead
    obtain ⟨rest, hrest⟩ := rdropWhile_prefix (fun d : ℤ => decide (d = 0)) (l := es)
    obtain ⟨tail, htail⟩ := head?_eq_some_iff.mp hhead
    have hzero := head?_dropWhile_not (fun d : ℤ => decide (d = 0)) ds
    rw [hds, ← hrest, htail] at hzero
    simp at hzero
  · intro hlast
    have hne : es.rdropWhile (· = 0) ≠ [] := fun hnil => by simp [hnil] at hlast
    have hnot := rdropWhile_last_not (fun d : ℤ => decide (d = 0)) es hne
    rw [getLast?_eq_some_getLast hne, Option.some_inj] at hlast
    simp [hlast] at hnot

/-- A stripped number that is an integer has no digits after the point. -/
theorem length_le_of_integer (hb : 1 < b) (hx : Digits b xs) (hxs : Stripped xs) (hne : xs ≠ [])
    {w z : ℤ} (h : fixedPoint b xs w = z) :
    (xs.length : ℤ) ≤ w + 1 := by
  by_contra hlong
  obtain ⟨k, hk⟩ := eq_ofNat_of_zero_le (show 0 ≤ xs.length - (w + 1) - 1 by omega)
  have hb' : (b : ℚ) ≠ 0 := by exact_mod_cast (by omega)
  -- the digits are a multiple of the base, so the last one is zero
  have hmul : horner b xs = z * b ^ k * b := by
    have hscale : (horner b xs : ℚ) = z * (b : ℚ) ^ (k + 1) := by
      rw [← h, fixedPoint, mul_assoc, ← zpow_natCast, ← zpow_add₀ hb']
      have hexp : w + 1 - (xs.length : ℤ) + ((k + 1 : ℕ) : ℤ) = 0 := by
        push_cast
        omega
      rw [hexp, zpow_zero, mul_one]
    rw [pow_succ, ← mul_assoc] at hscale
    exact_mod_cast hscale
  rcases eq_nil_or_concat xs with rfl | ⟨ys, y, rfl⟩
  · exact hne rfl
  · rw [concat_eq_append] at *
    have hy := hx y (by simp)
    rw [horner_concat] at hmul
    have hzero : y = 0 := by
      have hmod := congrArg (· % b) hmul
      simp only [mul_add_emod_self_right, mul_emod_left] at hmod
      rwa [emod_eq_of_lt hy.1 hy.2] at hmod
    exact hxs.2 (by simp [hzero])

end GreenPipeline.Core.Positional
