import GreenPipeline.L1Adt.NumericRound

/-!
# The sum accumulator

Sums of many numeric values are kept in digits of 32 bits, the positive and the negative values
apart. Carries are propagated only after 9999 values and at the end; a zero digit in front is kept
in reserve for them.

Sources: `src/backend/utils/adt/numeric.c`.

Results:

* `AccumOk.fits`: no digit leaves the range of 32-bit integers.
* `accumSumCarry_spec`: propagating carries loses nothing, as the reserved digit has room for the
  last carry.
* `accumSumAdd_spec`, `accumSumFinal_spec`: values added, and their sum.
-/
namespace GreenPipeline.L1.Numeric

open GreenPipeline.Core GreenPipeline.Core.Positional List

/-! ## The functions -/

/-- Both buffers have the same length, the number of digits. mirrors numeric.c:336-345 -/
structure NumericSumAccum where
  weight : ℤ
  dscale : ℤ
  numUncarried : ℤ
  haveCarrySpace : Bool
  posDigits : List ℤ
  negDigits : List ℤ
  deriving DecidableEq, Repr

/-- All fields are zero. -/
def newSumAccum : NumericSumAccum :=
  { weight := 0, dscale := 0, numUncarried := 0, haveCarrySpace := false, posDigits := [],
    negDigits := [] }

def NumericSumAccum.ndigits (accum : NumericSumAccum) : ℤ := accum.posDigits.length

/-- The new carry and the new digit. mirrors numeric.c:8908-8916 -/
def sumCarryDigit (digit carry : ℤ) : ℤ × ℤ :=
  let newdig := digit + carry
  if newdig ≥ NBASE then (newdig / NBASE, newdig - newdig / NBASE * NBASE) else (0, newdig)

/-- From the last digit on. The carry out of the first is dropped. mirrors numeric.c:8904-8917 -/
def sumCarryDigits (digits : List ℤ) : List ℤ :=
  (digits.foldr
    (fun digit s => ((sumCarryDigit digit s.1).1, (sumCarryDigit digit s.1).2 :: s.2)) (0, [])).2

/-- mirrors numeric.c:8875-8940 -/
def accumSumCarry (accum : NumericSumAccum) : NumericSumAccum :=
  if accum.numUncarried = 0 then accum
  else
    let posDigits := sumCarryDigits accum.posDigits
    let negDigits := sumCarryDigits accum.negDigits
    { accum with
      posDigits := posDigits
      negDigits := negDigits
      haveCarrySpace :=
        if digitAt posDigits 0 > 0 ∨ digitAt negDigits 0 > 0 then false else accum.haveCarrySpace
      numUncarried := 0 }

/-- The digits in a larger buffer of zeros. mirrors numeric.c:8999-9013 -/
def enlargeDigits (digits : List ℤ) (weightdiff ndigits : ℤ) : List ℤ :=
  List.replicate weightdiff.toNat 0 ++ digits ++
    List.replicate (ndigits - weightdiff - digits.length).toNat 0

/-- The weight the accumulator needs for a value. mirrors numeric.c:8970-8985 -/
def rescaledWeight (accum : NumericSumAccum) (val : NumericVar) : ℤ :=
  if val.weight ≥ accum.weight then val.weight + 1
  else if accum.haveCarrySpace = false then accum.weight + 1
  else accum.weight

/-- The digits it needs. mirrors numeric.c:8970-8991 -/
def rescaledNdigits (accum : NumericSumAccum) (val : NumericVar) : ℤ :=
  let accumNdigits := accum.ndigits + (rescaledWeight accum val - accum.weight)
  let accumRscale := accumNdigits - rescaledWeight accum val - 1
  let valRscale := val.ndigits - val.weight - 1
  if valRscale > accumRscale then accumNdigits + (valRscale - accumRscale) else accumNdigits

/-- mirrors numeric.c:8948-9028 -/
def accumSumRescale (accum : NumericSumAccum) (val : NumericVar) : NumericSumAccum :=
  let weight := rescaledWeight accum val
  let ndigits := rescaledNdigits accum val
  let dscale := if val.dscale > accum.dscale then val.dscale else accum.dscale
  if ndigits ≠ accum.ndigits ∨ weight ≠ accum.weight then
    { accum with
      posDigits := enlargeDigits accum.posDigits (weight - accum.weight) ndigits
      negDigits := enlargeDigits accum.negDigits (weight - accum.weight) ndigits
      weight := weight
      haveCarrySpace := true
      dscale := dscale }
  else { accum with dscale := dscale }

/-- Digits of a value are added from an index on. mirrors numeric.c:8862-8867 -/
def addDigits (digits valDigits : List ℤ) (i : ℤ) : List ℤ :=
  (List.range digits.length).map fun (k : ℕ) => digitAt digits k + digitAt valDigits (-i + k)

/-- mirrors numeric.c:8827-8870 -/
def accumSumAdd (accum : NumericSumAccum) (val : NumericVar) : NumericSumAccum :=
  let accum := if accum.numUncarried = NBASE - 1 then accumSumCarry accum else accum
  let accum := accumSumRescale accum val
  let i := accum.weight - val.weight
  match val.sign with
  | .pos =>
    { accum with
      posDigits := addDigits accum.posDigits val.digits i
      numUncarried := accum.numUncarried + 1 }
  | .neg =>
    { accum with
      negDigits := addDigits accum.negDigits val.digits i
      numUncarried := accum.numUncarried + 1 }

/-- The sum, and the accumulator after carries have been propagated. mirrors numeric.c:9037-9080 -/
def accumSumFinal (accum : NumericSumAccum) : NumericSumAccum × NumericVar :=
  if accum.posDigits = [] then (accum, zeroVar 0)
  else
    let accum := accumSumCarry accum
    let posVar : NumericVar :=
      { digits := accum.posDigits, weight := accum.weight, sign := .pos, dscale := accum.dscale }
    let negVar : NumericVar :=
      { digits := accum.negDigits, weight := accum.weight, sign := .neg, dscale := accum.dscale }
    (accum, stripVar (addVar posVar negVar))

/-- A copy into a new accumulator. The flag is not copied. mirrors numeric.c:9088-9100 -/
def accumSumCopy (src : NumericSumAccum) : NumericSumAccum := { src with haveCarrySpace := false }

/-- mirrors numeric.c:9105-9116 -/
def accumSumCombine (accum accum2 : NumericSumAccum) : NumericSumAccum :=
  accumSumAdd accum (accumSumFinal accum2).2

/-! ## The invariant -/

/-- What the digits stand for. -/
def NumericSumAccum.total (accum : NumericSumAccum) : ℚ :=
  fixedPoint NBASE accum.posDigits accum.weight - fixedPoint NBASE accum.negDigits accum.weight

/-- One more than the largest digit after `numUncarried` values have been added to carried
digits. -/
def NumericSumAccum.digitBound (accum : NumericSumAccum) : ℤ :=
  (accum.numUncarried + 1) * (NBASE - 1) + 1

structure AccumOk (accum : NumericSumAccum) : Prop where
  uncarried : 0 ≤ accum.numUncarried ∧ accum.numUncarried < NBASE
  length : accum.posDigits.length = accum.negDigits.length
  pos : Digits accum.digitBound accum.posDigits
  neg : Digits accum.digitBound accum.negDigits
  /-- The digit in reserve. -/
  reserved : accum.numUncarried ≠ 0 ∨ accum.haveCarrySpace = true → accum.posDigits.head? = some 0 ∧
    accum.negDigits.head? = some 0
  empty : accum.posDigits = [] → accum.dscale = 0

theorem newSumAccum_ok : AccumOk newSumAccum ∧ newSumAccum.total = 0 ∧ newSumAccum.dscale = 0 := by
  refine ⟨⟨by decide, rfl, ?_, ?_, ?_, fun _ => rfl⟩, ?_, rfl⟩
  · intro d hd
    cases hd
  · intro d hd
    cases hd
  · intro h
    rcases h with h | h
    · exact absurd rfl h
    · cases h
  · simp [NumericSumAccum.total, newSumAccum]

variable {accum : NumericSumAccum} {ds : List ℤ}

/-- With a digit in reserve the other conditions are enough. -/
theorem AccumOk.of_heads (huncarried : 0 ≤ accum.numUncarried ∧ accum.numUncarried < NBASE)
    (hlength : accum.posDigits.length = accum.negDigits.length)
    (hpos : Digits accum.digitBound accum.posDigits)
    (hneg : Digits accum.digitBound accum.negDigits)
    (hheads : accum.posDigits.head? = some 0 ∧ accum.negDigits.head? = some 0) : AccumOk accum := by
  refine ⟨huncarried, hlength, hpos, hneg, fun _ => hheads, ?_⟩
  intro hnil
  rw [hnil] at hheads
  cases hheads.1

/-- All digits are 32-bit integers, with room for a carry. -/
theorem AccumOk.fits {accum : NumericSumAccum} (h : AccumOk accum) :
    ∀ d ∈ accum.posDigits ++ accum.negDigits, 0 ≤ d ∧ d + NBASE ≤ 2147483647 := by
  intro d hd
  have hbound : 0 ≤ d ∧ d < accum.digitBound := by
    rcases mem_append.mp hd with hpos | hneg
    · exact h.pos d hpos
    · exact h.neg d hneg
  have huncarried := h.uncarried
  unfold NumericSumAccum.digitBound at hbound
  unfold NBASE at *
  omega

/-! ## Carries -/

theorem sumCarryDigit_value (d c : ℤ) :
    (sumCarryDigit d c).2 + NBASE * (sumCarryDigit d c).1 = d + c := by
  unfold sumCarryDigit
  dsimp only
  split
  · ring
  · ring

/-- With digits up to `k` times the largest, carries stay below `k`. -/
theorem sumCarryDigit_range {d c k : ℤ} (hd : 0 ≤ d ∧ d < k * (NBASE - 1) + 1)
    (hc : 0 ≤ c ∧ c < k) :
    (0 ≤ (sumCarryDigit d c).1 ∧ (sumCarryDigit d c).1 < k) ∧ 0 ≤ (sumCarryDigit d c).2 ∧
    (sumCarryDigit d c).2 < NBASE := by
  unfold sumCarryDigit
  unfold NBASE at *
  dsimp only
  split
  · omega
  · omega

/-- Propagating carries through digits with a zero in front. -/
theorem sumCarryDigits_spec {k : ℤ} (hk : 0 < k ∧ k ≤ NBASE) (hds : Digits (k * (NBASE - 1) + 1) ds)
    (hhead : ds.head? = some 0) :
    Digits NBASE (sumCarryDigits ds) ∧ (sumCarryDigits ds).length = ds.length ∧
    horner NBASE (sumCarryDigits ds) = horner NBASE ds := by
  obtain ⟨rest, rfl⟩ : ∃ rest, ds = 0 :: rest := by
    cases ds with
    | nil => cases hhead
    | cons d rest =>
      rw [head?_cons, Option.some_inj] at hhead
      exact ⟨rest, by rw [hhead]⟩
  have hrange := fun d hd c hc => sumCarryDigit_range (d := d) (c := c) (hds d hd) hc
  obtain ⟨-, hdigits⟩ :=
    digits_foldr (P := fun c => 0 ≤ c ∧ c < k) sumCarryDigit (0 :: rest) hrange (c := 0)
      ⟨le_refl 0, hk.1⟩
  obtain ⟨hlast, -⟩ :=
    digits_foldr (P := fun c => 0 ≤ c ∧ c < k) sumCarryDigit rest (forall_mem_cons.1 hrange).2
      (c := 0) ⟨le_refl 0, hk.1⟩
  obtain ⟨hlen, hval⟩ :=
    horner_foldr (b := NBASE) id sumCarryDigit sumCarryDigit_value (0 :: rest) 0
  -- the last carry goes into the zero
  have hout :
      ((0 :: rest).foldr (fun digit s =>
        ((sumCarryDigit digit s.1).1, (sumCarryDigit digit s.1).2 :: s.2)) (0, [])).1 = 0 := by
    rw [foldr_cons]
    generalize rest.foldr
      (fun digit s => ((sumCarryDigit digit s.1).1, (sumCarryDigit digit s.1).2 :: s.2))
      (0, []) = s at hlast
    unfold sumCarryDigit
    rw [if_neg (by omega)]
  rw [hout, mul_zero, add_zero, add_zero, map_id] at hval
  exact ⟨hdigits, hlen, hval⟩

theorem head?_of_digitAt_nonpos (h : Digits NBASE ds) (hne : ds ≠ []) (htop : ¬ digitAt ds 0 > 0) :
    ds.head? = some 0 := by
  cases ds with
  | nil => exact absurd rfl hne
  | cons d ds =>
    have hd := h.of_cons.1
    have hzero : d = 0 := by
      change ¬ d > 0 at htop
      omega
    rw [head?_cons, hzero]

theorem accumSumCarry_spec (h : AccumOk accum) :
    AccumOk (accumSumCarry accum) ∧ (accumSumCarry accum).numUncarried = 0 ∧
    (accumSumCarry accum).total = accum.total ∧
      (accumSumCarry accum).dscale = accum.dscale ∧
      (accumSumCarry accum).posDigits.length = accum.posDigits.length := by
  unfold accumSumCarry
  by_cases hzero : accum.numUncarried = 0
  · rw [if_pos hzero]
    exact ⟨h, hzero, rfl, rfl, rfl⟩
  · rw [if_neg hzero]
    have hrange := h.uncarried
    have hk : 0 < accum.numUncarried + 1 ∧ accum.numUncarried + 1 ≤ NBASE := by omega
    obtain ⟨hhead1, hhead2⟩ := h.reserved (Or.inl hzero)
    obtain ⟨hpos, hposLen, hposVal⟩ := sumCarryDigits_spec hk h.pos hhead1
    obtain ⟨hneg, hnegLen, hnegVal⟩ := sumCarryDigits_spec hk h.neg hhead2
    have hne1 : sumCarryDigits accum.posDigits ≠ [] := by
      intro hnil
      rw [hnil, length_nil] at hposLen
      rw [length_eq_zero_iff.mp hposLen.symm] at hhead1
      cases hhead1
    have hne2 : sumCarryDigits accum.negDigits ≠ [] := by
      intro hnil
      rw [hnil, length_nil, ← h.length] at hnegLen
      rw [length_eq_zero_iff.mp hnegLen.symm] at hhead1
      cases hhead1
    have hbound : (0 + 1) * (NBASE - 1) + 1 = NBASE := by ring
    refine ⟨⟨⟨le_refl 0, NBASE_pos⟩, ?_, ?_, ?_, ?_, ?_⟩, rfl, ?_, rfl, hposLen⟩
    · rw [hposLen, hnegLen, h.length]
    · exact hpos
    · exact hneg
    · intro hreserve
      rcases hreserve with hne | hspace
      · exact absurd rfl hne
      · dsimp only at hspace
        split at hspace
        · cases hspace
        · rename_i htop
          rw [not_or] at htop
          exact ⟨head?_of_digitAt_nonpos hpos hne1 htop.1, head?_of_digitAt_nonpos hneg hne2 htop.2⟩
    · exact fun hnil => absurd hnil hne1
    · unfold NumericSumAccum.total fixedPoint
      dsimp only
      rw [hposVal, hnegVal, hposLen, hnegLen]

/-! ## Making room -/

theorem enlargeDigits_spec {b : ℤ} (hb : 0 < b) (hds : Digits b ds) {w weightdiff n : ℤ}
    (hdiff : 0 ≤ weightdiff) (hn : ds.length + weightdiff ≤ n) :
    Digits b (enlargeDigits ds weightdiff n) ∧ ((enlargeDigits ds weightdiff n).length : ℤ) = n ∧
      fixedPoint NBASE (enlargeDigits ds weightdiff n) (w + weightdiff) =
        fixedPoint NBASE ds w := by
  unfold enlargeDigits
  refine ⟨((Digits.zeros hb _).append hds).append (Digits.zeros hb _), ?_, ?_⟩
  · simp only [length_append, length_replicate]
    omega
  · have hw : w + weightdiff = w + weightdiff.toNat := by omega
    rw [fixedPoint_trailing_zeros NBASE_ne_zero, hw, fixedPoint_leading_zeros NBASE_ne_zero]

theorem enlargeDigits_head {weightdiff n : ℤ} (hdiff : 0 ≤ weightdiff)
    (h : weightdiff = 0 → ds.head? = some 0) :
    (enlargeDigits ds weightdiff n).head? = some 0 := by
  unfold enlargeDigits
  by_cases hzero : weightdiff = 0
  · rw [hzero, Int.toNat_zero, replicate_zero, nil_append, head?_append, h hzero]
    rfl
  · obtain ⟨k, hk⟩ : ∃ k, weightdiff.toNat = k + 1 := ⟨weightdiff.toNat - 1, by omega⟩
    rw [hk, replicate_succ]
    rfl

theorem digitBound_pos (h : AccumOk accum) : 0 < accum.digitBound := by
  have huncarried := h.uncarried
  unfold NumericSumAccum.digitBound
  unfold NBASE at *
  omega

theorem rescaledWeight_spec (accum : NumericSumAccum) (val : NumericVar) :
    accum.weight ≤ rescaledWeight accum val ∧ val.weight < rescaledWeight accum val ∧
      (rescaledWeight accum val = accum.weight → accum.haveCarrySpace = true) := by
  unfold rescaledWeight
  split
  · omega
  · split
    · omega
    · rename_i hspace
      exact ⟨by omega, by omega, fun _ => by simpa using hspace⟩

theorem rescaledNdigits_spec (accum : NumericSumAccum) (val : NumericVar) :
    accum.ndigits + (rescaledWeight accum val - accum.weight) ≤ rescaledNdigits accum val ∧
      rescaledWeight accum val - val.weight + val.ndigits ≤ rescaledNdigits accum val := by
  unfold rescaledNdigits
  dsimp only
  split
  · omega
  · omega

/-- After the rescaling there is a digit in reserve and place for the value below it. -/
theorem accumSumRescale_spec (h : AccumOk accum) (val : NumericVar) :
    let accum' := accumSumRescale accum val
    AccumOk accum' ∧ accum'.numUncarried = accum.numUncarried ∧ accum'.total = accum.total ∧
    accum'.dscale = max accum.dscale val.dscale ∧
      (accum'.posDigits.head? = some 0 ∧ accum'.negDigits.head? = some 0) ∧
      1 ≤ accum'.weight - val.weight ∧
      accum'.weight - val.weight + val.ndigits ≤ accum'.ndigits := by
  obtain ⟨hweight, hroom, hspace⟩ := rescaledWeight_spec accum val
  obtain ⟨hndigits, hfit⟩ := rescaledNdigits_spec accum val
  have hdscale : (if val.dscale > accum.dscale then val.dscale else accum.dscale) =
      max accum.dscale val.dscale := by
    split
    · omega
    · omega
  unfold accumSumRescale
  dsimp only
  rw [hdscale]
  by_cases hchange : rescaledNdigits accum val ≠ accum.ndigits ∨
    rescaledWeight accum val ≠ accum.weight
  · rw [if_pos hchange]
    have hb := digitBound_pos h
    have hdiff : 0 ≤ rescaledWeight accum val - accum.weight := by omega
    have hlenNeg : accum.negDigits.length + (rescaledWeight accum val - accum.weight) ≤
        rescaledNdigits accum val := by
      rw [← h.length]
      exact hndigits
    obtain ⟨hpos, hposLen, hposVal⟩ :=
      enlargeDigits_spec (w := accum.weight) hb h.pos hdiff hndigits
    obtain ⟨hneg, hnegLen, hnegVal⟩ := enlargeDigits_spec (w := accum.weight) hb h.neg hdiff hlenNeg
    rw [add_sub_cancel] at hposVal hnegVal
    have hheads :
        (enlargeDigits accum.posDigits (rescaledWeight accum val - accum.weight)
          (rescaledNdigits accum val)).head? = some 0 ∧
        (enlargeDigits accum.negDigits (rescaledWeight accum val - accum.weight)
          (rescaledNdigits accum val)).head? = some 0 := by
      constructor
      · exact enlargeDigits_head hdiff fun hzero => (h.reserved (Or.inr (hspace (by omega)))).1
      · exact enlargeDigits_head hdiff fun hzero => (h.reserved (Or.inr (hspace (by omega)))).2
    have hlength := hposLen.trans hnegLen.symm
    refine ⟨AccumOk.of_heads h.uncarried (by exact_mod_cast hlength) hpos hneg hheads, rfl, ?_, rfl,
      hheads, by dsimp only; omega, ?_⟩
    · unfold NumericSumAccum.total
      dsimp only
      rw [hposVal, hnegVal]
    · unfold NumericSumAccum.ndigits
      dsimp only
      rw [hposLen]
      exact hfit
  · rw [if_neg hchange]
    rw [not_or, not_not, not_not] at hchange
    have hheads := h.reserved (Or.inr (hspace hchange.2))
    rw [hchange.1, hchange.2] at hfit
    exact ⟨AccumOk.of_heads h.uncarried h.length h.pos h.neg hheads, rfl, rfl, rfl,
      hheads, by dsimp only; omega, hfit⟩

/-! ## Adding a value -/

theorem addDigits_spec {k i : ℤ} {vs : List ℤ} (hk : 0 ≤ k) (hds : Digits (k * (NBASE - 1) + 1) ds)
    (hvs : Digits NBASE vs) (hi : 0 ≤ i) (hlen : i + vs.length ≤ ds.length) (w : ℤ) :
    Digits ((k + 1) * (NBASE - 1) + 1) (addDigits ds vs i) ∧
    (addDigits ds vs i).length = ds.length ∧
      fixedPoint NBASE (addDigits ds vs i) w =
        fixedPoint NBASE ds w + fixedPoint NBASE vs (w - i) := by
  have hwin1 :=
    fixedPoint_window NBASE_ne_zero ds (s := 0) (n := ds.length) (le_refl 0) (by omega) w
  have hwin2 :=
    fixedPoint_window NBASE_ne_zero vs (s := -i) (n := ds.length) (by omega) (by omega) (w - i)
  rw [sub_zero] at hwin1
  rw [sub_neg_eq_add, sub_add_cancel] at hwin2
  unfold addDigits
  refine ⟨?_, by simp, ?_⟩
  · intro d hd
    obtain ⟨j, -, rfl⟩ := mem_map.mp hd
    have hb : 0 < k * (NBASE - 1) + 1 := by
      unfold NBASE
      omega
    have h1 := digitAt_range hb hds j
    have h2 := digitAt_range NBASE_pos hvs (-i + j)
    unfold NBASE at *
    omega
  · have hsum := horner_map_add (b := NBASE) (fun j : ℕ => digitAt ds j)
      (fun j : ℕ => digitAt vs (-i + j)) 1 (range ds.length)
    simp only [one_mul] at hsum
    rw [← hwin1, ← hwin2]
    unfold fixedPoint
    rw [hsum, length_window, length_window, length_map, length_range]
    unfold window
    simp only [zero_add]
    push_cast
    ring

theorem addDigits_head {vs : List ℤ} {i : ℤ} (hhead : ds.head? = some 0) (hi : 1 ≤ i) :
    (addDigits ds vs i).head? = some 0 := by
  cases ds with
  | nil => cases hhead
  | cons d ds =>
    rw [head?_cons, Option.some_inj] at hhead
    have hout : digitAt vs (-i + (0 : ℕ)) = 0 := if_neg (by omega)
    have hzero := hhead
    rw [addDigits, length_cons, range_succ_eq_map, map_cons, head?_cons, hout, hzero]
    rfl

section

variable (h : AccumOk accum)
include h

/-- A value added to an accumulator. -/
theorem accumSumAdd_spec {val : NumericVar} (hval : val.DigitsOk) :
    AccumOk (accumSumAdd accum val) ∧ (accumSumAdd accum val).total = accum.total + val.value ∧
      (accumSumAdd accum val).dscale = max accum.dscale val.dscale := by
  -- before the value comes there is room for one more
  obtain ⟨ready, hready, hok, hless, htotal, hdscale⟩ : ∃ ready,
      (if accum.numUncarried = NBASE - 1 then accumSumCarry accum else accum) = ready ∧
      AccumOk ready ∧ ready.numUncarried < NBASE - 1 ∧
        ready.total = accum.total ∧ ready.dscale = accum.dscale := by
    refine ⟨_, rfl, ?_⟩
    split
    · obtain ⟨hok, hzero, htotal, hdscale, -⟩ := accumSumCarry_spec h
      exact ⟨hok, by rw [hzero]; decide, htotal, hdscale⟩
    · have huncarried := h.uncarried
      exact ⟨h, by omega, rfl, rfl⟩
  unfold accumSumAdd
  dsimp only
  rw [hready]
  obtain ⟨hok', huncarried, htotal', hdscale', ⟨hhead1, hhead2⟩, hplace, hfit⟩ :=
    accumSumRescale_spec hok val
  generalize accumSumRescale ready val = accum' at *
  rw [htotal] at htotal'
  rw [hdscale] at hdscale'
  have hcount := hok'.uncarried
  have hk : 0 ≤ accum'.numUncarried + 1 := by omega
  have hi : 0 ≤ accum'.weight - val.weight := by omega
  have hmore : 0 ≤ accum'.numUncarried + 1 ∧ accum'.numUncarried + 1 < NBASE := by omega
  have hweight : accum'.weight - (accum'.weight - val.weight) = val.weight := by ring
  -- the other buffer keeps its digits below the new bound
  have hother : ∀ {ds}, Digits accum'.digitBound ds →
      Digits ((accum'.numUncarried + 1 + 1) * (NBASE - 1) + 1) ds := by
    intro ds hds d hd
    have hd' := hds d hd
    unfold NumericSumAccum.digitBound at hd'
    unfold NBASE at *
    omega
  cases hsign : val.sign with
  | pos =>
    obtain ⟨hdigits, hlen, hvalue⟩ := addDigits_spec hk hok'.pos hval hi hfit accum'.weight
    refine ⟨AccumOk.of_heads hmore (hlen.trans hok'.length) hdigits (hother hok'.neg)
      ⟨addDigits_head hhead1 hplace, hhead2⟩, ?_, hdscale'⟩
    rw [← htotal', value_of_pos hsign]
    unfold NumericSumAccum.total NumericVar.absValue
    dsimp only
    rw [hvalue, hweight]
    ring
  | neg =>
    have hfitNeg : accum'.weight - val.weight + val.digits.length ≤ accum'.negDigits.length := by
      rw [← hok'.length]
      exact hfit
    obtain ⟨hdigits, hlen, hvalue⟩ := addDigits_spec hk hok'.neg hval hi hfitNeg accum'.weight
    refine ⟨AccumOk.of_heads hmore (hok'.length.trans hlen.symm) (hother hok'.pos) hdigits
      ⟨hhead1, addDigits_head hhead2 hplace⟩, ?_, hdscale'⟩
    rw [← htotal', value_of_neg hsign]
    unfold NumericSumAccum.total NumericVar.absValue
    dsimp only
    rw [hvalue, hweight]
    ring

/-! ## The sum -/

theorem accumSumFinal_spec :
    Normalised (accumSumFinal accum).2 ∧ (accumSumFinal accum).2.value = accum.total ∧
    (accumSumFinal accum).2.dscale = accum.dscale := by
  unfold accumSumFinal
  by_cases hnil : accum.posDigits = []
  · have hneg : accum.negDigits = [] := by
      rw [← length_eq_zero_iff, ← h.length, hnil, length_nil]
    rw [if_pos hnil]
    refine ⟨zeroVar_normalised 0, ?_, (h.empty hnil).symm⟩
    rw [value_zeroVar, NumericSumAccum.total, hnil, hneg, fixedPoint_nil, sub_zero]
  · rw [if_neg hnil]
    obtain ⟨hok, hzero, htotal, hdscale, -⟩ := accumSumCarry_spec h
    generalize accumSumCarry accum = carried at *
    have hbound : carried.digitBound = NBASE := by
      rw [NumericSumAccum.digitBound, hzero]
      ring
    have hpos := hok.pos
    have hneg := hok.neg
    rw [hbound] at hpos hneg
    have hposOk :
        NumericVar.DigitsOk
        { digits := carried.posDigits, weight := carried.weight, sign := .pos,
          dscale := carried.dscale } := hpos
    have hnegOk :
        NumericVar.DigitsOk
        { digits := carried.negDigits, weight := carried.weight, sign := .neg,
          dscale := carried.dscale } := hneg
    obtain ⟨hvalue, hscale⟩ := addVar_value hposOk hnegOk
    refine ⟨stripVar_normalised (addVar_digitsOk hposOk hnegOk), ?_, ?_⟩
    · rw [stripVar_value, hvalue, ← htotal, value_of_pos rfl, value_of_neg rfl, ← sub_eq_add_neg]
      rfl
    · rw [stripVar_dscale, hscale, max_self, hdscale]

theorem accumSumCopy_spec : AccumOk (accumSumCopy accum) ∧
    (accumSumCopy accum).total = accum.total ∧ (accumSumCopy accum).dscale = accum.dscale := by
  refine ⟨⟨h.uncarried, h.length, h.pos, h.neg, ?_, h.empty⟩, rfl, rfl⟩
  intro hreserve
  rcases hreserve with hne | hspace
  · exact h.reserved (Or.inl hne)
  · cases hspace

theorem accumSumCombine_spec {accum2 : NumericSumAccum} (h2 : AccumOk accum2) :
    AccumOk (accumSumCombine accum accum2) ∧
    (accumSumCombine accum accum2).total = accum.total + accum2.total ∧
      (accumSumCombine accum accum2).dscale = max accum.dscale accum2.dscale := by
  obtain ⟨hnorm, hvalue, hdscale⟩ := accumSumFinal_spec h2
  rw [← hvalue, ← hdscale]
  exact accumSumAdd_spec h hnorm.digitsOk

end

end GreenPipeline.L1.Numeric
