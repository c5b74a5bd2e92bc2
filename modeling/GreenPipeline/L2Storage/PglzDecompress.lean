import GreenPipeline.Core.BackRefs

/-!
# Decompression of compressed data

`pglz_decompress` reads control bytes, each followed by up to eight items: literal bytes, and tags
with a length and an offset back into what it has already produced (`src/common/pg_lzcompress.c`).
The source is memory that goes on behind its end, the destination memory that begins before its
start: a tag that is cut off is read past the end, and nothing bounds the offset of a tag.

Results:

* `pglzDecompress_eq_plan`: which items are executed is decided by the source alone.
* `plan_agree`: what stands behind the source only matters if the decompression fails.
* `pglzDecompress_independent_iff`: the result depends on nothing but the source exactly if no tag
  of a successful run reaches back before the destination.
-/
namespace GreenPipeline.L2.Pglz

open GreenPipeline.Core.BackRefs Option Nat Function

/-! ## The decompressor -/

/-- The length and the offset of the tag at `sp`, and the position behind it.
mirrors pg_lzcompress.c:718-722 -/
def readTag (source : Nat → UInt8) (sp : Nat) : Nat × Nat × Nat :=
  let len := (source sp &&& 0x0f).toNat + 3
  let off := ((source sp &&& 0xf0).toNat <<< 4) ||| (source (sp + 1)).toNat
  if len = 18 then (len + (source (sp + 2)).toNat, off, sp + 3) else (len, off, sp + 2)

structure DecompState where
  sp : Nat
  dp : Nat
  dest : Int → UInt8

section
variable (source : Nat → UInt8) (slen : Nat) (destend : Int)

/-- The items of one control byte.
mirrors pg_lzcompress.c:704-765 -/
def decompressItems : (ctrlc : Nat) → (ctrl : UInt8) → DecompState → DecompState
  | 0, _, st => st
  | ctrlc + 1, ctrl, st =>
    if st.sp < slen then
      if ctrl &&& 1 ≠ 0 then
        let (len, off, sp) := readTag source st.sp
        -- the position moves on even if the output would overrun, so that the error is seen at the
        -- end
        if ((st.dp + len : Nat) : Int) > destend then { st with sp := sp, dp := st.dp + len }
        else decompressItems ctrlc (ctrl >>> 1) ⟨sp, st.dp + len, copyFrom off len st.dp st.dest⟩
      else if (st.dp : Int) ≥ destend then st
      else decompressItems ctrlc (ctrl >>> 1) ⟨st.sp + 1, st.dp + 1,
        Function.update st.dest st.dp (source st.sp)⟩
    else st

/-- mirrors pg_lzcompress.c:695-766 -/
def decompressLoop : (fuel : Nat) → DecompState → Option DecompState
  | 0, _ => none
  | fuel + 1, st =>
    if st.sp < slen ∧ (st.dp : Int) < destend then
      decompressLoop fuel
        (decompressItems source slen destend 8 (source st.sp) { st with sp := st.sp + 1 })
    else some st

end

/-- The value returned, and the memory around the destination.
mirrors pg_lzcompress.c:681-778 -/
def pglzDecompress (source : Nat → UInt8) (slen : Nat) (dest : Int → UInt8) (rawsize : Int) :
    Option (Int × (Int → UInt8)) :=
  (decompressLoop source slen rawsize (slen + 1) ⟨0, 0, dest⟩).map fun st =>
    (if (st.dp : Int) ≠ rawsize ∨ st.sp ≠ slen then -1 else rawsize, st.dest)

/-! ## What the source asks for -/

section
variable (source : Nat → UInt8) (slen : Nat) (destend : Int)

/-- The items of one control byte that are executed, and the positions behind them. -/
def planItems : (ctrlc : Nat) → (ctrl : UInt8) → (sp dp : Nat) → List (Item UInt8) × Nat × Nat
  | 0, _, sp, dp => ([], sp, dp)
  | ctrlc + 1, ctrl, sp, dp =>
    if sp < slen then
      if ctrl &&& 1 ≠ 0 then
        let (len, off, sp') := readTag source sp
        if ((dp + len : Nat) : Int) > destend then ([], sp', dp + len)
        else
          let (items, rest) := planItems ctrlc (ctrl >>> 1) sp' (dp + len)
          (.copy len off :: items, rest)
      else if (dp : Int) ≥ destend then ([], sp, dp)
      else
        let (items, rest) := planItems ctrlc (ctrl >>> 1) (sp + 1) (dp + 1)
        (.literal (source sp) :: items, rest)
    else ([], sp, dp)

def planLoop : (fuel : Nat) → (sp dp : Nat) → Option (List (Item UInt8) × Nat × Nat)
  | 0, _, _ => none
  | fuel + 1, sp, dp =>
    if sp < slen ∧ (dp : Int) < destend then
      let (items, sp, dp) := planItems source slen destend 8 (source sp) (sp + 1) dp
      (planLoop fuel sp dp).map fun (items', rest) => (items ++ items', rest)
    else some ([], sp, dp)

end

/-- All items that are executed, and the positions at the end. -/
def plan (source : Nat → UInt8) (slen : Nat) (rawsize : Int) :
    Option (List (Item UInt8) × Nat × Nat) :=
  planLoop source slen rawsize (slen + 1) 0 0

variable {r : List (Item UInt8) × Nat × Nat}

section Plan
variable {source : Nat → UInt8} {slen : Nat} {destend : Int}

theorem lt_readTag (source : Nat → UInt8) (sp : Nat) : sp < (readTag source sp).2.2 := by
  unfold readTag
  dsimp only
  split
  · exact Nat.lt_add_of_pos_right (by decide)
  · exact Nat.lt_add_of_pos_right (by decide)

theorem decompressItems_eq_plan (ctrlc : Nat) (ctrl : UInt8) (sp dp : Nat) (dest : Int → UInt8) :
    decompressItems source slen destend ctrlc ctrl ⟨sp, dp, dest⟩ =
      ⟨(planItems source slen destend ctrlc ctrl sp dp).2.1,
        (planItems source slen destend ctrlc ctrl sp dp).2.2,
        exec (planItems source slen destend ctrlc ctrl sp dp).1 dp dest⟩ := by
  induction ctrlc generalizing ctrl sp dp dest with
  | zero => rfl
  | succ ctrlc ih =>
    unfold decompressItems planItems
    dsimp only
    split
    · split
      · split
        · rfl
        · exact ih ..
      · split
        · rfl
        · exact ih ..
    · rfl

variable (source slen destend) in
theorem le_planItems (ctrlc : Nat) (ctrl : UInt8) (sp dp : Nat) :
    sp ≤ (planItems source slen destend ctrlc ctrl sp dp).2.1 := by
  induction ctrlc generalizing ctrl sp dp with
  | zero => exact le_refl _
  | succ ctrlc ih =>
    have htag := lt_readTag source sp
    unfold planItems
    dsimp only
    split
    · split
      · split
        · exact le_of_lt htag
        · exact le_trans (le_of_lt htag) (ih ..)
      · split
        · exact le_refl _
        · exact le_trans (le_succ sp) (ih ..)
    · exact le_refl _

variable (source slen destend) in
/-- What is executed fills the space between the positions, if the output does not overrun. -/
theorem totalSize_planItems (ctrlc : Nat) (ctrl : UInt8) (sp dp : Nat) :
    ((planItems source slen destend ctrlc ctrl sp dp).2.2 : Int) ≤ destend →
    (planItems source slen destend ctrlc ctrl sp dp).2.2 =
      dp + totalSize (planItems source slen destend ctrlc ctrl sp dp).1 := by
  induction ctrlc generalizing ctrl sp dp with
  | zero => exact fun _ => rfl
  | succ ctrlc ih =>
    unfold planItems
    dsimp only
    split
    · split
      · split
        · rename_i hover
          exact fun hle => absurd hover (Int.not_lt.2 hle)
        · intro hle
          rw [totalSize_cons, Item.size, ← add_assoc]
          exact ih _ _ _ hle
      · split
        · exact fun _ => rfl
        · intro hle
          rw [totalSize_cons, Item.size, ← add_assoc]
          exact ih _ _ _ hle
    · exact fun _ => rfl

variable {fuel : Nat}

/-- After an overrun the loop ends. -/
theorem planLoop_overrun {sp dp : Nat} (h : ¬ (dp : Int) ≤ destend)
    (hr : planLoop source slen destend fuel sp dp = some r) : r = ([], sp, dp) := by
  cases fuel with
  | zero => cases hr
  | succ fuel =>
    rw [planLoop, if_neg (by omega), some_inj] at hr
    exact hr.symm

/-- So it does beyond the end of the source. -/
theorem planLoop_beyond {sp dp : Nat} (h : slen < sp)
    (hr : planLoop source slen destend fuel sp dp = some r) : slen < r.2.1 := by
  cases fuel with
  | zero => cases hr
  | succ fuel =>
    rw [planLoop, if_neg (by omega), some_inj] at hr
    rw [← hr]
    exact h

/-- One turn of the loop. -/
theorem planLoop_succ {sp dp : Nat} (h : sp < slen ∧ (dp : Int) < destend) :
    planLoop source slen destend (fuel + 1) sp dp =
    (planLoop source slen destend fuel (planItems source slen destend 8 (source sp) (sp + 1) dp).2.1
      (planItems source slen destend 8 (source sp) (sp + 1) dp).2.2).map fun r =>
        ((planItems source slen destend 8 (source sp) (sp + 1) dp).1 ++ r.1, r.2) := by
  rw [planLoop, if_pos h]

theorem decompressLoop_eq_plan (fuel sp dp : Nat) (dest : Int → UInt8) :
    decompressLoop source slen destend fuel ⟨sp, dp, dest⟩ =
    (planLoop source slen destend fuel sp dp).map fun r => ⟨r.2.1, r.2.2, exec r.1 dp dest⟩ := by
  induction fuel generalizing sp dp dest with
  | zero => rfl
  | succ fuel ih =>
    by_cases hgo : sp < slen ∧ (dp : Int) < destend
    · rw [planLoop_succ hgo, decompressLoop, if_pos hgo, decompressItems_eq_plan, ih, map_map]
      have hsize := totalSize_planItems source slen destend 8 (source sp) (sp + 1) dp
      generalize planItems source slen destend 8 (source sp) (sp + 1) dp = first at hsize
      refine map_congr fun r hr => ?_
      rw [comp_apply, exec_append]
      by_cases hle : (first.2.2 : Int) ≤ destend
      · rw [← hsize hle]
      · rw [planLoop_overrun hle hr]
        rfl
    · rw [decompressLoop, if_neg hgo, planLoop, if_neg hgo]
      rfl

/-- There are at most as many turns as bytes. -/
theorem planLoop_isSome (sp dp : Nat) (h : slen - sp < fuel) :
    (planLoop source slen destend fuel sp dp).isSome := by
  induction fuel generalizing sp dp with
  | zero => cases h
  | succ fuel ih =>
    by_cases hgo : sp < slen ∧ (dp : Int) < destend
    · rw [planLoop_succ hgo, isSome_map]
      have hle := le_planItems source slen destend 8 (source sp) (sp + 1) dp
      exact ih _ _ (by omega)
    · rw [planLoop, if_neg hgo]
      rfl

theorem totalSize_planLoop {sp dp : Nat} (hr : planLoop source slen destend fuel sp dp = some r)
    (hle : (r.2.2 : Int) ≤ destend) : r.2.2 = dp + totalSize r.1 := by
  induction fuel generalizing sp dp r with
  | zero => cases hr
  | succ fuel ih =>
    by_cases hgo : sp < slen ∧ (dp : Int) < destend
    · rw [planLoop_succ hgo] at hr
      have hsize := totalSize_planItems source slen destend 8 (source sp) (sp + 1) dp
      generalize planItems source slen destend 8 (source sp) (sp + 1) dp = first at hr hsize
      obtain ⟨rest, hrest, rfl⟩ := map_eq_some_iff.1 hr
      by_cases hfirst : (first.2.2 : Int) ≤ destend
      · rw [totalSize_append, ← add_assoc, ← hsize hfirst]
        exact ih hrest hle
      · rw [planLoop_overrun hfirst hrest] at hle
        exact absurd hle hfirst
    · rw [planLoop, if_neg hgo, some_inj] at hr
      rw [← hr]
      rfl

end Plan

/-- Which items are executed, and what is returned, is decided by the source alone. -/
theorem pglzDecompress_eq_plan (source : Nat → UInt8) (slen : Nat) (dest : Int → UInt8)
    (rawsize : Int) :
    ∃ items sp dp, plan source slen rawsize = some (items, sp, dp) ∧
      pglzDecompress source slen dest rawsize =
        some (if (dp : Int) ≠ rawsize ∨ sp ≠ slen then -1 else rawsize, exec items 0 dest) := by
  have hsome : (planLoop source slen rawsize (slen + 1) 0 0).isSome :=
    planLoop_isSome 0 0 (by omega)
  obtain ⟨⟨items, sp, dp⟩, hplan⟩ := isSome_iff_exists.1 hsome
  refine ⟨items, sp, dp, hplan, ?_⟩
  unfold pglzDecompress
  rw [decompressLoop_eq_plan, hplan]
  rfl

/-! ## What stands behind the source -/

section Behind
variable {source source' : Nat → UInt8} {slen : Nat} (hsame : ∀ i, i < slen → source i = source' i)

/-- Both at the same place with the same items, or both beyond the end of the source. -/
def SameOrBeyond (slen : Nat) (r r' : List (Item UInt8) × Nat × Nat) : Prop :=
  r = r' ∨ slen < r.2.1 ∧ slen < r'.2.1

theorem SameOrBeyond.prepend {r' : List (Item UInt8) × Nat × Nat} (h : SameOrBeyond slen r r')
    (items : List (Item UInt8)) :
    SameOrBeyond slen (items ++ r.1, r.2) (items ++ r'.1, r'.2) := by
  rcases h with h | h
  · exact Or.inl (by rw [h])
  · exact Or.inr h

include hsame

/-- A tag that is cut off ends beyond the source. -/
theorem readTag_same {sp : Nat} (hsp : sp < slen) :
    readTag source sp = readTag source' sp ∨ slen < (readTag source sp).2.2 ∧
    slen < (readTag source' sp).2.2 := by
  unfold readTag
  rw [hsame sp hsp]
  dsimp only
  by_cases h1 : sp + 1 < slen
  · rw [hsame (sp + 1) h1]
    by_cases h2 : sp + 2 < slen
    · left
      rw [hsame (sp + 2) h2]
    · split
      · right
        dsimp only
        omega
      · exact Or.inl rfl
  · right
    split
    · dsimp only
      omega
    · dsimp only
      omega

/-- Items beyond the end are not read. -/
theorem planItems_same (destend : Int) (ctrlc : Nat) (ctrl : UInt8) (sp dp : Nat) :
    SameOrBeyond slen (planItems source slen destend ctrlc ctrl sp dp)
      (planItems source' slen destend ctrlc ctrl sp dp) := by
  induction ctrlc generalizing ctrl sp dp with
  | zero => exact Or.inl rfl
  | succ ctrlc ih =>
    unfold planItems
    by_cases hsp : sp < slen
    · rw [if_pos hsp, if_pos hsp]
      by_cases hctrl : ctrl &&& 1 ≠ 0
      · rw [if_pos hctrl, if_pos hctrl]
        rcases readTag_same hsame hsp with htag | ⟨htag, htag'⟩
        · rw [htag]
          dsimp only
          split
          · exact Or.inl rfl
          · exact (ih (ctrl >>> 1) _ _).prepend [_]
        · right
          refine ⟨?_, ?_⟩
          · dsimp only
            split
            · exact htag
            · exact lt_of_lt_of_le htag (le_planItems ..)
          · dsimp only
            split
            · exact htag'
            · exact lt_of_lt_of_le htag' (le_planItems ..)
      · rw [if_neg hctrl, if_neg hctrl, hsame sp hsp]
        split
        · exact Or.inl rfl
        · exact (ih (ctrl >>> 1) _ _).prepend [_]
    · rw [if_neg hsp, if_neg hsp]
      exact Or.inl rfl

theorem planLoop_same (destend : Int) (fuel sp dp : Nat) {r' : List (Item UInt8) × Nat × Nat}
    (hr : planLoop source slen destend fuel sp dp = some r)
    (hr' : planLoop source' slen destend fuel sp dp = some r') :
    SameOrBeyond slen r r' := by
  induction fuel generalizing sp dp r r' with
  | zero => cases hr
  | succ fuel ih =>
    by_cases hgo : sp < slen ∧ (dp : Int) < destend
    · rw [planLoop_succ hgo] at hr hr'
      rw [← hsame sp hgo.1] at hr'
      have hitems := planItems_same hsame destend 8 (source sp) (sp + 1) dp
      generalize planItems source slen destend 8 (source sp) (sp + 1) dp = first at hr hitems
      generalize planItems source' slen destend 8 (source sp) (sp + 1) dp = first' at hr' hitems
      obtain ⟨rest, hrest, rfl⟩ := map_eq_some_iff.1 hr
      obtain ⟨rest', hrest', rfl⟩ := map_eq_some_iff.1 hr'
      rcases hitems with h | ⟨h, h'⟩
      · subst h
        exact (ih _ _ hrest hrest').prepend first.1
      · have hbeyond := planLoop_beyond h hrest
        have hbeyond' := planLoop_beyond h' hrest'
        exact Or.inr ⟨hbeyond, hbeyond'⟩
    · rw [planLoop, if_neg hgo, some_inj] at hr hr'
      exact Or.inl (hr.symm.trans hr')

/-- What stands behind the source only matters if the decompression fails. -/
theorem plan_agree (rawsize : Int) {r' : List (Item UInt8) × Nat × Nat}
    (hr : plan source slen rawsize = some r) (hr' : plan source' slen rawsize = some r') :
    SameOrBeyond slen r r' := planLoop_same hsame rawsize (slen + 1) 0 0 hr hr'

end Behind

/-! ## Two runs -/

/-- The source in memory, with what stands behind it. -/
def sourceMemory (source : List UInt8) (behind : Nat → UInt8) (i : Nat) : UInt8 :=
  source.getD i (behind i)

theorem sourceMemory_same {source : List UInt8} (behind behind' : Nat → UInt8) (i : Nat)
    (hi : i < source.length) :
    sourceMemory source behind i = sourceMemory source behind' i := by
  unfold sourceMemory
  rw [List.getD_eq_getElem?_getD, List.getD_eq_getElem?_getD, List.getElem?_eq_getElem hi]
  rfl

/-- Two runs that differ only in what stands behind the source and before the destination return
the same, and if they do not fail, the same bytes. -/
def Independent (source : List UInt8) (rawsize : Int) : Prop :=
  ∀ (behind behind' : Nat → UInt8) (dest dest' : Int → UInt8), SameText rawsize dest dest' →
    ∃ result bytes result' bytes',
    pglzDecompress (sourceMemory source behind) source.length dest rawsize = some (result, bytes) ∧
      pglzDecompress (sourceMemory source behind') source.length dest' rawsize =
      some (result', bytes') ∧
      result = result' ∧ (result ≠ -1 → SameText rawsize bytes bytes')

/-- The items that a source asks for, if the decompression succeeds. -/
def succeedsWith (source : List UInt8) (rawsize : Int) : Option (List (Item UInt8)) :=
  (plan (sourceMemory source fun _ => 0) source.length rawsize).bind fun (items, sp, dp) =>
    if (dp : Int) ≠ rawsize ∨ sp ≠ source.length then none else some items

/-- The result of a decompression depends on nothing but the source exactly if it fails, or if
every tag reaches back no further than to the start of the destination. -/
theorem pglzDecompress_independent_iff (source : List UInt8) (rawsize : Int) :
    Independent source rawsize ↔ ∀ items, succeedsWith source rawsize = some items →
    Internal 0 items := by
  unfold succeedsWith
  constructor
  · intro hind items hitems
    obtain ⟨⟨items', sp, dp⟩, hplan, hok⟩ := bind_eq_some_iff.1 hitems
    dsimp only at hok
    split at hok
    · cases hok
    · rename_i hend
      rw [some_inj] at hok
      subst hok
      rw [not_or, not_not, not_not] at hend
      by_contra hforeign
      obtain ⟨p, -, hp, q, hq, hread⟩ := exec_foreign hforeign
      have hsize : dp = 0 + totalSize items' := totalSize_planLoop hplan (by rw [hend.1])
      -- two memories that differ in one byte before the destination
      have hsame : SameText rawsize (fun _ => (0 : UInt8)) (update (fun _ => 0) q 1) := by
        intro i h0 _
        rw [update_of_ne (by omega)]
      obtain ⟨result, bytes, result', bytes', h1, h2, -, hbytes⟩ :=
        hind (fun _ => 0) (fun _ => 0) _ _ hsame
      obtain ⟨items1, sp1, dp1, hplan1, hrun1⟩ :=
        pglzDecompress_eq_plan (sourceMemory source fun _ => 0) source.length (fun _ => 0) rawsize
      obtain ⟨items2, sp2, dp2, hplan2, hrun2⟩ :=
        pglzDecompress_eq_plan (sourceMemory source fun _ => 0) source.length
          (update (fun _ => 0) q 1) rawsize
      rw [hplan, some_inj, Prod.mk.injEq, Prod.mk.injEq] at hplan1 hplan2
      obtain ⟨rfl, rfl, rfl⟩ := hplan1
      obtain ⟨rfl, -, -⟩ := hplan2
      rw [hrun1, some_inj, Prod.mk.injEq,
        if_neg (by rw [not_or, not_not, not_not]; exact hend)] at h1
      rw [hrun2, some_inj, Prod.mk.injEq] at h2
      have heq := hbytes (by rw [← h1.1]; omega) p (by omega) (by omega)
      rw [← h1.2, ← h2.2, hread, hread, update_self] at heq
      exact absurd heq (by decide)
  · intro hint behind behind' dest dest' hdest
    obtain ⟨items, sp, dp, hplan, hrun⟩ :=
      pglzDecompress_eq_plan (sourceMemory source behind) source.length dest rawsize
    obtain ⟨items', sp', dp', hplan', hrun'⟩ :=
      pglzDecompress_eq_plan (sourceMemory source behind') source.length dest' rawsize
    refine ⟨_, _, _, _, hrun, hrun', ?_⟩
    rcases plan_agree (sourceMemory_same behind behind') rawsize hplan hplan' with h | ⟨h, h'⟩
    · obtain ⟨rfl, rfl, rfl⟩ := h
      refine ⟨rfl, fun hok => ?_⟩
      by_cases hend : (dp : Int) ≠ rawsize ∨ sp ≠ source.length
      · rw [if_pos hend] at hok
        exact absurd rfl hok
      · have hend' := hend
        rw [not_or, not_not, not_not] at hend'
        have hsize : dp = 0 + totalSize items := totalSize_planLoop hplan (by rw [hend'.1])
        refine exec_agree items (hint items ?_) (by omega) hdest
        obtain ⟨items0, sp0, dp0, hplan0, -⟩ :=
          pglzDecompress_eq_plan (sourceMemory source fun _ => 0) source.length dest rawsize
        rcases plan_agree (sourceMemory_same behind fun _ => 0) rawsize hplan hplan0 with h | ⟨h, -⟩
        · rw [hplan0, bind_some, ← h]
          exact if_neg hend
        · exact absurd h (by dsimp only; omega)
    · dsimp only at h h'
      rw [if_pos (Or.inr (by omega)), if_pos (Or.inr (by omega))]
      exact ⟨rfl, fun hok => absurd rfl hok⟩

/-- One tag of length 3 and offset 1, at the start: the result is the byte before the destination,
three times. -/
theorem pglzDecompress_leaks :
    (∃ bytes, pglzDecompress (sourceMemory [0x01, 0x00, 0x01] fun _ => 0) 3 (fun _ => 0x41) 3 =
      some (3, bytes) ∧ bytes 0 = 0x41) ∧
      (∃ bytes, pglzDecompress (sourceMemory [0x01, 0x00, 0x01] fun _ => 0) 3
        (Function.update (fun _ => 0x41) (-1) 0x42) 3 = some (3, bytes) ∧
        bytes 0 = 0x42) ∧
      ¬ Independent [0x01, 0x00, 0x01] 3 := by
  refine ⟨⟨_, rfl, rfl⟩, ⟨_, rfl, rfl⟩, fun hind => ?_⟩
  have hsame : SameText 3 (fun _ => (0x41 : UInt8)) (update (fun _ => 0x41) (-1) 0x42) := by
    intro i h0 _
    rw [update_of_ne (by omega)]
  obtain ⟨result, bytes, result', bytes', h1, h2, -, hbytes⟩ :=
    hind (fun _ => 0) (fun _ => 0) _ _ hsame
  have hr1 : pglzDecompress (sourceMemory [0x01, 0x00, 0x01] fun _ => 0) 3 (fun _ => 0x41) 3 =
      some (3, _) := rfl
  have hr2 : pglzDecompress (sourceMemory [0x01, 0x00, 0x01] fun _ => 0) 3
      (update (fun _ => 0x41) (-1) 0x42) 3 = some (3, _) := rfl
  change pglzDecompress (sourceMemory [0x01, 0x00, 0x01] fun _ => 0) 3 (fun _ => 0x41) 3 =
    some (result, bytes) at h1
  change pglzDecompress (sourceMemory [0x01, 0x00, 0x01] fun _ => 0) 3
    (update (fun _ => 0x41) (-1) 0x42) 3 = some (result', bytes') at h2
  rw [hr1, some_inj, Prod.mk.injEq] at h1
  rw [hr2, some_inj, Prod.mk.injEq] at h2
  have heq := hbytes (by rw [← h1.1]; decide) 0 (by decide) (by decide)
  rw [← h1.2, ← h2.2] at heq
  exact absurd heq (by decide)

end GreenPipeline.L2.Pglz
