import GreenPipeline.Core.Patch
import GreenPipeline.Core.Bytes

/-!
# Generic WAL records

`src/backend/access/transam/generic_xlog.c`: instead of a page image a generic
record holds a delta, fragments of the new page each behind a header with its
offset and length. Unchanged bytes in the two used parts of the page are left
out unless they are too few to pay for another header; bytes outside the old
page's used parts always count as changed. Replay copies the fragments into the
old page and zeroes the hole between `pd_lower` and `pd_upper`.

A page is the list of its bytes. `blcksz` is any page size whose positions fit
an `OffsetNumber` (the build allows at most 2^15, pg_config.h.in:36-42).

Results:

* `regionLoop_spec`: the loop that scans a region, with its open fragment.
* `computeRegionDelta_spec`: the fragments of a region cover every changed byte
  and need at most one header more than the region's length.
* `genericXLog_replay`: replay reproduces the page that was installed, and the
  delta never exceeds its buffer.
-/
namespace GreenPipeline.L2.GenericXlog

open GreenPipeline.Core.Patch GreenPipeline.Core.Bytes List Nat

/-! ## Pages -/

/-- mirrors src/include/storage/bufpage.h:147-160 -/
def pdLower (page : List UInt8) : Nat := getUint16 (page.getD 12 0) (page.getD 13 0)

def pdUpper (page : List UInt8) : Nat := getUint16 (page.getD 14 0) (page.getD 15 0)

/-- mirrors src/include/storage/bufpage.h (`SizeOfPageHeaderData`) -/
def sizeOfPageHeaderData : Nat := 24

/-- A page of the given size with its free space inside. -/
structure PageOk (blcksz : Nat) (page : List UInt8) : Prop where
  length : page.length = blcksz
  lower_le : pdLower page ≤ pdUpper page
  upper_le : pdUpper page ≤ blcksz

/-! ## The delta -/

/-- mirrors generic_xlog.c:46-47 -/
def fragmentHeaderSize : Nat := 4

def matchThreshold : Nat := fragmentHeaderSize

/-- `offset` and `length` are `OffsetNumber`s.
mirrors generic_xlog.c:90-109 -/
def writeFragment (delta targetpage : List UInt8) (offset length : Nat) : List UInt8 :=
  delta ++ (putUint16 offset ++ putUint16 length ++ slice targetpage offset (length % 65536))

/-- `while (i < loopEnd && p(i)) i++` -/
def advanceWhile (p : Nat → Bool) (loopEnd i : Nat) : Nat :=
  if i < loopEnd ∧ p i = true then advanceWhile p loopEnd (i + 1) else i
termination_by loopEnd - i

theorem le_advanceWhile (p : Nat → Bool) (loopEnd i : Nat) : i ≤ advanceWhile p loopEnd i := by
  fun_induction advanceWhile p loopEnd i with
  | case1 i _ ih => omega
  | case2 i _ => exact le_refl i

/-- `curpage[i] != targetpage[i]` -/
def differs (curpage targetpage : List UInt8) (i : Nat) : Bool :=
  curpage.getD i 0 != targetpage.getD i 0

/-- What the scan of a region keeps besides its position; `none` is -1. -/
structure RegionScan where
  fragmentBegin : Option Nat
  fragmentEnd : Option Nat
  delta : List UInt8

/-- The run of mismatches at `i`, if any: the begin of the open fragment and the next match.
mirrors generic_xlog.c:146-157 -/
def skipMismatches (curpage targetpage : List UInt8) (loopEnd i : Nat)
    (fragmentBegin : Option Nat) : Option Nat × Nat :=
  if differs curpage targetpage i then
    (some (fragmentBegin.getD i), advanceWhile (differs curpage targetpage) loopEnd (i + 1))
  else (fragmentBegin, i)

theorem le_skipMismatches (curpage targetpage : List UInt8) (loopEnd i : Nat)
    (fragmentBegin : Option Nat) :
    i ≤ (skipMismatches curpage targetpage loopEnd i fragmentBegin).2 := by
  unfold skipMismatches
  split
  · exact le_trans (le_succ i) (le_advanceWhile _ _ _)
  · exact le_refl i

/-- The open fragment ends before the matches from `fragmentEnd` to `i`, if they
are enough to pay for another header.
mirrors generic_xlog.c:195-202 -/
def closeFragment (targetpage : List UInt8) (fragmentBegin : Option Nat) (fragmentEnd i : Nat)
    (delta : List UInt8) :
    RegionScan :=
  match fragmentBegin with
  | none => ⟨none, some fragmentEnd, delta⟩
  | some start =>
    if i - fragmentEnd > matchThreshold then
      ⟨none, none, writeFragment delta targetpage start (fragmentEnd - start)⟩
    else ⟨some start, some fragmentEnd, delta⟩

/-- mirrors generic_xlog.c:143-203 -/
def regionLoop (curpage targetpage : List UInt8) (loopEnd i : Nat) (s : RegionScan) : RegionScan :=
  if i < loopEnd then
    let found := skipMismatches curpage targetpage loopEnd i s.fragmentBegin
    if found.2 ≥ loopEnd then ⟨found.1, none, s.delta⟩
    else
      let next := advanceWhile (fun k => !differs curpage targetpage k) loopEnd (found.2 + 1)
      regionLoop curpage targetpage loopEnd next
        (closeFragment targetpage found.1 found.2 next s.delta)
  else s
termination_by loopEnd - i
decreasing_by
  have h1 := le_skipMismatches curpage targetpage loopEnd i s.fragmentBegin
  have h2 := le_advanceWhile (fun k => !differs curpage targetpage k) loopEnd
    ((skipMismatches curpage targetpage loopEnd i s.fragmentBegin).2 + 1)
  omega

/-- mirrors generic_xlog.c:206-221 -/
def finalFragment (targetpage : List UInt8) (loopEnd targetEnd : Nat)
    (s : RegionScan) : List UInt8 :=
  let s := if loopEnd < targetEnd then
    ⟨some (s.fragmentBegin.getD loopEnd), some targetEnd, s.delta⟩ else s
  match s.fragmentBegin with
  | none => s.delta
  | some start => writeFragment s.delta targetpage start (s.fragmentEnd.getD targetEnd - start)

/-- mirrors generic_xlog.c:121-222 -/
def computeRegionDelta (delta curpage targetpage : List UInt8)
    (targetStart targetEnd validStart validEnd : Nat) :
    List UInt8 :=
  let loopEnd := min targetEnd validEnd
  let s :=
    if validStart > targetStart then
      regionLoop curpage targetpage loopEnd validStart ⟨some targetStart, none, delta⟩
    else regionLoop curpage targetpage loopEnd targetStart ⟨none, none, delta⟩
  finalFragment targetpage loopEnd targetEnd s

/-- mirrors generic_xlog.c:228-246 -/
def computeDelta (blcksz : Nat) (curpage targetpage : List UInt8) : List UInt8 :=
  let lower := computeRegionDelta [] curpage targetpage 0 (pdLower targetpage) 0 (pdLower curpage)
  computeRegionDelta lower curpage targetpage (pdUpper targetpage) blcksz (pdUpper curpage) blcksz

/-! ## Installing and replaying -/

/-- `memset(page + pd_lower, 0, pd_upper - pd_lower)` with the given bounds -/
def zeroRange (page : List UInt8) (lower upper : Nat) : List UInt8 :=
  write page lower (List.replicate (upper - lower) 0)

/-- What `GenericXLogFinish` copies over the buffer.
mirrors generic_xlog.c:382-388 -/
def installImage (blcksz : Nat) (page image : List UInt8) : List UInt8 :=
  let page := write page 0 (slice image 0 (pdLower image))
  let page := zeroRange page (pdLower image) (pdUpper image)
  write page (pdUpper image) (slice image (pdUpper image) (blcksz - pdUpper image))

/-- A delta that ends inside a header is none this code writes.
mirrors generic_xlog.c:455-476 -/
def applyPageRedo (page : List UInt8) : (delta : List UInt8) → List UInt8
  | o :: o' :: n :: n' :: rest =>
    applyPageRedo (write page (getUint16 o o') (rest.take (getUint16 n n')))
      (rest.drop (getUint16 n n'))
  | _ => page
termination_by delta => delta.length
decreasing_by
  simp only [List.length_drop, List.length_cons]
  omega

/-- What `generic_redo` does to a block that needs redo, up to the LSN.
mirrors generic_xlog.c:511-523 -/
def genericRedo (page delta : List UInt8) : List UInt8 :=
  let page := applyPageRedo page delta
  zeroRange page (pdLower page) (pdUpper page)

/-! ## Fragments as bytes -/

/-- The bytes of a list of fragments. -/
def encode (targetpage : List UInt8) (F : List Fragment) : List UInt8 :=
  F.flatMap fun f => writeFragment [] targetpage f.offset f.length

/-- The space the fragments take. -/
def cost (F : List Fragment) : Nat := (F.map fun f => fragmentHeaderSize + f.length).sum

theorem writeFragment_encode (delta targetpage : List UInt8) (F : List Fragment)
    (offset length : Nat) :
    writeFragment (delta ++ encode targetpage F) targetpage offset length =
      delta ++ encode targetpage (F ++ [⟨offset, length⟩]) := by
  simp [encode, writeFragment]

theorem cost_append (F G : List Fragment) : cost (F ++ G) = cost F + cost G := by
  simp [cost]

theorem length_encode_le (targetpage : List UInt8) (F : List Fragment) :
    (encode targetpage F).length ≤ cost F := by
  induction F with
  | nil => exact le_refl 0
  | cons f F ih =>
    have hslice : (slice targetpage f.offset (f.length % 65536)).length ≤ f.length := by
      rw [slice, length_take]
      omega
    simp only [encode, cost, flatMap_cons, length_append, map_cons, sum_cons,
      writeFragment, putUint16, length_cons, length_nil, fragmentHeaderSize] at ih ⊢
    omega

/-- Replay of fragments that fit writes each of them. -/
theorem applyPageRedo_encode {page targetpage : List UInt8} {F : List Fragment}
    (hsize : targetpage.length < 65536) (hF : ∀ f ∈ F, f.offset + f.length ≤ targetpage.length) :
    applyPageRedo page (encode targetpage F) = applyAll targetpage page F := by
  induction F generalizing page with
  | nil => simp [encode, applyPageRedo, applyAll]
  | cons f F ih =>
    have hf := hF f mem_cons_self
    have hmod : f.length % 65536 = f.length := mod_eq_of_lt (by omega)
    have hlen := length_slice hf
    have hcons : encode targetpage (f :: F) =
        UInt8.ofNat f.offset :: UInt8.ofNat (f.offset / 256) ::
        UInt8.ofNat f.length :: UInt8.ofNat (f.length / 256) ::
        (slice targetpage f.offset f.length ++ encode targetpage F) := by
      simp [encode, writeFragment, putUint16, hmod]
    rw [hcons, applyPageRedo, getUint16_ofNat (by omega), getUint16_ofNat (by omega),
      take_append_of_le_length (by omega), take_of_length_le (by omega),
      drop_append_of_le_length (by omega), drop_of_length_le (by omega), nil_append]
    exact ih (forall_mem_cons.1 hF).2

/-! ## Scanning a region -/

theorem advanceWhile_spec (p : Nat → Bool) {loopEnd i : Nat} (hi : i ≤ loopEnd) :
    advanceWhile p loopEnd i ≤ loopEnd ∧ (∀ x, i ≤ x → x < advanceWhile p loopEnd i → p x = true) ∧
      (advanceWhile p loopEnd i < loopEnd → p (advanceWhile p loopEnd i) = false) := by
  fun_induction advanceWhile p loopEnd i with
  | case1 i h ih =>
    obtain ⟨hle, hall, hstop⟩ := ih h.1
    refine ⟨hle, fun x hx hlt => ?_, hstop⟩
    obtain rfl | hx := eq_or_lt_of_le hx
    · exact h.2
    · exact hall x hx hlt
  | case2 i h =>
    refine ⟨hi, fun x hx hlt => ?_, fun hlt => ?_⟩
    · omega
    · simpa [hlt] using h

/-- Up to position `i` the region from `lo` on is in the fragments `F`, in the
open fragment, or unchanged. Each fragment of `F` is paid for by the bytes that
follow it: what `F` takes is at most what lies before the open fragment. -/
structure Scanned (curpage targetpage : List UInt8) (lo : Nat) (F : List Fragment)
    (fragmentBegin fragmentEnd : Option Nat) (i : Nat) : Prop where
  inside : ∀ f ∈ F, lo ≤ f.offset ∧ f.offset + f.length ≤ i
  cover : ∀ x, lo ≤ x → x < i → InFragments F x ∨ (∃ b, fragmentBegin = some b ∧ b ≤ x) ∨
    differs curpage targetpage x = false
  begin_le : ∀ b, fragmentBegin = some b → b ≤ i
  end_le : ∀ b e, fragmentBegin = some b → fragmentEnd = some e → b ≤ e ∧ e ≤ i ∧
    ∀ x, e ≤ x → x < i → differs curpage targetpage x = false
  cost_le : lo + cost F ≤ fragmentBegin.getD i

section
variable {curpage targetpage : List UInt8} {lo loopEnd i : Nat} {F : List Fragment}
  {fragmentBegin fragmentEnd : Option Nat}

section

variable (h : Scanned curpage targetpage lo F fragmentBegin fragmentEnd i)
include h

theorem Scanned.begin_getD_le : fragmentBegin.getD i ≤ i := by
  cases hb : fragmentBegin with
  | none => exact le_refl i
  | some b => exact h.begin_le b hb

theorem skipMismatches_spec (hi : i < loopEnd) :
    Scanned curpage targetpage lo F
      (skipMismatches curpage targetpage loopEnd i fragmentBegin).1 none
        (skipMismatches curpage targetpage loopEnd i fragmentBegin).2 ∧
      (skipMismatches curpage targetpage loopEnd i fragmentBegin).2 ≤ loopEnd ∧
      ((skipMismatches curpage targetpage loopEnd i fragmentBegin).2 < loopEnd →
        differs curpage targetpage (skipMismatches curpage targetpage loopEnd i fragmentBegin).2 =
          false) := by
  unfold skipMismatches
  by_cases hd : differs curpage targetpage i = true
  · rw [if_pos hd]
    have hle := le_advanceWhile (differs curpage targetpage) loopEnd (i + 1)
    obtain ⟨hend, -, hstop⟩ :=
      advanceWhile_spec (differs curpage targetpage) (show i + 1 ≤ loopEnd from hi)
    have hb := h.begin_getD_le
    refine ⟨⟨fun f hf => ?_, fun x hx hlt => ?_, fun b heq => ?_, fun b e _ he => (nomatch he),
      h.cost_le⟩, hend, hstop⟩
    · have := h.inside f hf
      omega
    · -- from the mismatch on everything is in the open fragment
      by_cases hxi : x < i
      · obtain hin | ⟨b, rfl, hle'⟩ | hsame := h.cover x hx hxi
        · exact .inl hin
        · exact .inr (.inl ⟨b, rfl, hle'⟩)
        · exact .inr (.inr hsame)
      · exact .inr (.inl ⟨_, rfl, by omega⟩)
    · obtain rfl := Option.some.inj heq
      omega
  · rw [if_neg hd]
    refine ⟨⟨h.inside, h.cover, h.begin_le, fun b e _ he => (nomatch he), h.cost_le⟩,
      le_of_lt hi, fun _ => ?_⟩
    simpa using hd

end

theorem closeFragment_spec {j k : Nat} (delta : List UInt8)
    (h : Scanned curpage targetpage lo F fragmentBegin none j) (hjk : j < k)
    (hsame : ∀ x, j ≤ x → x < k → differs curpage targetpage x = false) :
    ∃ F', (closeFragment targetpage fragmentBegin j k (delta ++ encode targetpage F)).delta =
      delta ++ encode targetpage F' ∧
      Scanned curpage targetpage lo F'
        (closeFragment targetpage fragmentBegin j k (delta ++ encode targetpage F)).fragmentBegin
        (closeFragment targetpage fragmentBegin j k (delta ++ encode targetpage F)).fragmentEnd
        k := by
  have hinside : ∀ f ∈ F, lo ≤ f.offset ∧ f.offset + f.length ≤ k := by
    intro f hf
    have := h.inside f hf
    omega
  -- the matches up to `k` need no fragment
  have hcover : ∀ x, lo ≤ x → x < k → InFragments F x ∨
      (∃ b, fragmentBegin = some b ∧ b ≤ x ∧ x < j) ∨ differs curpage targetpage x = false := by
    intro x hx hlt
    by_cases hxj : x < j
    · obtain hin | ⟨b, hb, hle⟩ | hsame' := h.cover x hx hxj
      · exact .inl hin
      · exact .inr (.inl ⟨b, hb, hle, hxj⟩)
      · exact .inr (.inr hsame')
    · exact .inr (.inr (hsame x (by omega) hlt))
  have hopen : ∀ x, lo ≤ x → x < k → InFragments F x ∨ (∃ b, fragmentBegin = some b ∧ b ≤ x) ∨
      differs curpage targetpage x = false := fun x hx hlt =>
    (hcover x hx hlt).imp_right (Or.imp_left fun ⟨b, hb, hle, _⟩ => ⟨b, hb, hle⟩)
  have hcost := h.cost_le
  unfold closeFragment
  cases hb : fragmentBegin with
  | none =>
    subst hb
    refine ⟨F, rfl, hinside, hopen, fun b hb => (nomatch hb), fun b e hb => (nomatch hb), ?_⟩
    simp only [Option.getD_none] at hcost ⊢
    omega
  | some b =>
    subst hb
    have hbj := h.begin_le b rfl
    simp only [Option.getD_some] at hcost
    dsimp only
    by_cases hlong : k - j > matchThreshold
    · -- the fragment is written; the matches after it pay for its header
      rw [if_pos hlong]
      refine ⟨F ++ [⟨b, j - b⟩], writeFragment_encode _ _ _ _ _, fun f hf => ?_, fun x hx hlt => ?_,
        fun b hb => (nomatch hb), fun b e hb => (nomatch hb), ?_⟩
      · obtain hf | hf := mem_append.1 hf
        · exact hinside f hf
        · obtain rfl := mem_singleton.1 hf
          simp only
          omega
      · obtain ⟨f, hf, hfx⟩ | ⟨c, hc, hle, hxj⟩ | hsame' := hcover x hx hlt
        · exact .inl ⟨f, mem_append_left _ hf, hfx⟩
        · obtain rfl := Option.some.inj hc
          exact .inl ⟨⟨b, j - b⟩, mem_append_right _ (mem_singleton_self _),
            hle, by simp only; omega⟩
        · exact .inr (.inr hsame')
      · simp only [cost_append, Option.getD_none]
        simp only [cost, map_cons, map_nil, sum_cons, sum_nil, fragmentHeaderSize, matchThreshold]
          at hcost hlong ⊢
        omega
    · rw [if_neg hlong]
      refine ⟨F, rfl, hinside, hopen, fun c hc => ?_, fun c e hc he => ?_, hcost⟩
      · obtain rfl := Option.some.inj hc
        omega
      · obtain rfl := Option.some.inj hc
        obtain rfl := Option.some.inj he
        exact ⟨hbj, le_of_lt hjk, hsame⟩

theorem regionLoop_spec {s : RegionScan} {delta : List UInt8}
    (h : Scanned curpage targetpage lo F s.fragmentBegin s.fragmentEnd i) (hi : i ≤ loopEnd)
    (hdelta : s.delta = delta ++ encode targetpage F) :
    ∃ F', (regionLoop curpage targetpage loopEnd i s).delta = delta ++ encode targetpage F' ∧
      Scanned curpage targetpage lo F' (regionLoop curpage targetpage loopEnd i s).fragmentBegin
        (regionLoop curpage targetpage loopEnd i s).fragmentEnd loopEnd := by
  fun_induction regionLoop curpage targetpage loopEnd i s generalizing F with
  | case1 i s hlt found =>
    rename_i hbreak
    obtain ⟨hskip, hle, -⟩ := skipMismatches_spec h hlt
    have hend := le_antisymm hle hbreak
    exact ⟨F, hdelta, hend ▸ hskip⟩
  | case2 i s hlt found hnext next =>
    rename_i ih
    obtain ⟨hskip, hle, hsame⟩ := skipMismatches_spec h hlt
    have hfound := not_le.1 hnext
    have hjk : found.2 < next := le_advanceWhile _ _ _
    obtain ⟨hend, hrun, -⟩ :=
      advanceWhile_spec
        (fun k => !differs curpage targetpage k) (show found.2 + 1 ≤ loopEnd from hfound)
    rw [hdelta] at ih ⊢
    obtain ⟨F', hdelta', hscan⟩ := closeFragment_spec delta hskip hjk fun x hx hlt' => by
      obtain rfl | hx := eq_or_lt_of_le hx
      · exact hsame hfound
      · simpa using hrun x hx hlt'
    exact ih hscan hend hdelta'
  | case3 i s hdone =>
    have : i = loopEnd := by omega
    exact ⟨F, hdelta, this ▸ h⟩

end

/-- The fragments of the region from `lo` to `hi` cover every changed byte, and
one header more than the region pays for them. -/
structure RegionCovered (curpage targetpage : List UInt8) (lo hi : Nat)
    (F : List Fragment) : Prop where
  inside : ∀ f ∈ F, f.offset + f.length ≤ hi
  cover : ∀ x, lo ≤ x → x < hi → InFragments F x ∨ differs curpage targetpage x = false
  cost_le : lo + cost F ≤ hi + fragmentHeaderSize

section
variable {curpage targetpage : List UInt8} {lo loopEnd targetEnd : Nat} {F : List Fragment}
  {fragmentBegin fragmentEnd : Option Nat}

/-- The open fragment, or one that begins at the end of the scan, is written up to `e`. -/
theorem Scanned.lastFragment
    (h : Scanned curpage targetpage lo F fragmentBegin fragmentEnd loopEnd) {e : Nat}
    (hbe : fragmentBegin.getD loopEnd ≤ e) (hloop : loopEnd ≤ targetEnd) (he : e ≤ targetEnd)
    (hrest : ∀ x, e ≤ x → x < targetEnd → differs curpage targetpage x = false) :
    RegionCovered curpage targetpage lo targetEnd
      (F ++ [⟨fragmentBegin.getD loopEnd, e - fragmentBegin.getD loopEnd⟩]) := by
  have hb := h.begin_getD_le
  have hcost := h.cost_le
  refine ⟨fun f hf => ?_, fun x hx hlt => ?_, ?_⟩
  · obtain hf | hf := mem_append.1 hf
    · have := (h.inside f hf).2
      omega
    · obtain rfl := mem_singleton.1 hf
      simp only
      omega
  · by_cases hxe : e ≤ x
    · exact .inr (hrest x hxe hlt)
    by_cases hxb : fragmentBegin.getD loopEnd ≤ x
    · exact .inl ⟨_, mem_append_right _ (mem_singleton_self _), hxb, by simp only; omega⟩
    · obtain ⟨f, hf, hfx⟩ | ⟨b, rfl, hle⟩ | hsame := h.cover x hx (by omega)
      · exact .inl ⟨f, mem_append_left _ hf, hfx⟩
      · exact absurd hle hxb
      · exact .inr hsame
  · simp only [cost_append]
    simp only [cost, map_cons, map_nil, sum_cons, sum_nil] at hcost ⊢
    omega

theorem finalFragment_spec {s : RegionScan} {delta : List UInt8}
    (h : Scanned curpage targetpage lo F s.fragmentBegin s.fragmentEnd loopEnd)
    (hloop : loopEnd ≤ targetEnd) (hdelta : s.delta = delta ++ encode targetpage F) :
    ∃ F', finalFragment targetpage loopEnd targetEnd s = delta ++ encode targetpage F' ∧
      RegionCovered curpage targetpage lo targetEnd F' := by
  have hb := h.begin_getD_le
  unfold finalFragment
  by_cases hlt : loopEnd < targetEnd
  · rw [if_pos hlt, hdelta]
    refine ⟨_, writeFragment_encode _ _ _ _ _,
      h.lastFragment (by simp only [Option.getD_some]; omega) hloop (le_refl _) fun x hx hlt' => ?_⟩
    simp only [Option.getD_some] at hx
    omega
  · rw [if_neg hlt]
    dsimp only
    rw [hdelta]
    obtain rfl : loopEnd = targetEnd := le_antisymm hloop (not_lt.1 hlt)
    cases hfb : s.fragmentBegin with
    | none =>
      rw [hfb] at h
      refine ⟨F, rfl, fun f hf => (h.inside f hf).2, fun x hx hlt' => ?_,
        le_trans h.cost_le (le_add_right _ _)⟩
      obtain hin | ⟨b, hb, -⟩ | hsame := h.cover x hx hlt'
      · exact .inl hin
      · exact nomatch hb
      · exact .inr hsame
    | some b =>
      rw [hfb] at h hb
      refine ⟨F ++ [⟨b, s.fragmentEnd.getD loopEnd - b⟩], writeFragment_encode _ _ _ _ _, ?_⟩
      cases hfe : s.fragmentEnd with
      | none => exact h.lastFragment hb hloop (le_refl _) fun x hx hlt' => absurd hlt' (not_lt.2 hx)
      | some e =>
        obtain ⟨hbe, he, hsame⟩ := h.end_le b e rfl hfe
        exact h.lastFragment hbe hloop he hsame

theorem computeRegionDelta_spec (delta : List UInt8) {targetStart validStart validEnd : Nat}
    (hstart : max targetStart validStart ≤ min targetEnd validEnd) :
    ∃ F, computeRegionDelta delta curpage targetpage targetStart targetEnd validStart validEnd =
        delta ++ encode targetpage F ∧
        RegionCovered curpage targetpage targetStart targetEnd F := by
  have hnil : delta = delta ++ encode targetpage [] := by simp [encode]
  unfold computeRegionDelta
  dsimp only
  by_cases hvalid : validStart > targetStart
  · -- everything before the old page's used part is in the open fragment
    rw [if_pos hvalid]
    have h0 : Scanned curpage targetpage targetStart [] (some targetStart) none validStart :=
      ⟨by simp, fun x hx _ => .inr (.inl ⟨_, rfl, hx⟩),
        fun b hb => by obtain rfl := Option.some.inj hb; omega,
        fun b e _ he => (nomatch he), le_refl _⟩
    obtain ⟨F, hdelta, hscan⟩ :=
      regionLoop_spec (s := ⟨some targetStart, none, delta⟩) h0
        (le_trans (le_max_right _ _) hstart) hnil
    exact finalFragment_spec hscan (min_le_left _ _) hdelta
  · rw [if_neg hvalid]
    have h0 : Scanned curpage targetpage targetStart [] none none targetStart :=
      ⟨by simp, fun x hx hlt => by omega, fun b hb => (nomatch hb),
        fun b e hb => (nomatch hb), le_refl _⟩
    obtain ⟨F, hdelta, hscan⟩ :=
      regionLoop_spec (s := ⟨none, none, delta⟩) h0 (le_trans (le_max_left _ _) hstart) hnil
    exact finalFragment_spec hscan (min_le_left _ _) hdelta

end

/-! ## Replay -/

section

variable {page : List UInt8} {lower upper : Nat} (hle : lower ≤ upper)
  (hupper : upper ≤ page.length)
include hle hupper

theorem getD_zeroRange (x : Nat) :
    (zeroRange page lower upper).getD x 0 = if lower ≤ x ∧ x < upper then 0 else page.getD x 0 := by
  have hlen : (replicate (upper - lower) (0 : UInt8)).length = upper - lower := length_replicate
  rw [zeroRange, getD_write (by omega), hlen, Nat.add_sub_cancel' hle]
  refine if_congr Iff.rfl ?_ rfl
  rw [getD_eq_getElem?_getD, getElem?_replicate]
  split <;> rfl

theorem length_zeroRange : (zeroRange page lower upper).length = page.length :=
  length_write (by rw [length_replicate]; omega)

end

section
variable {blcksz : Nat} {curpage targetpage : List UInt8} (hcur : PageOk blcksz curpage)
  (htarget : PageOk blcksz targetpage)
include hcur htarget

/-- `GenericXLogFinish` installs the new page with a zeroed hole. -/
theorem installImage_eq : installImage blcksz curpage targetpage =
    zeroRange targetpage (pdLower targetpage) (pdUpper targetpage) := by
  have hlen := htarget.length
  have hlen' := hcur.length
  have hle := htarget.lower_le
  have hupper := htarget.upper_le
  have hlow : (slice targetpage 0 (pdLower targetpage)).length = pdLower targetpage :=
    length_slice (by omega)
  have hhigh : (slice targetpage (pdUpper targetpage) (blcksz - pdUpper targetpage)).length =
      blcksz - pdUpper targetpage := length_slice (by omega)
  have hlen1 : (write curpage 0 (slice targetpage 0 (pdLower targetpage))).length = blcksz := by
    rw [length_write (by omega), hlen']
  have hlen2 :
      (zeroRange (write curpage 0 (slice targetpage 0 (pdLower targetpage))) (pdLower targetpage)
        (pdUpper targetpage)).length = blcksz := by
    rw [length_zeroRange hle (by omega), hlen1]
  unfold installImage
  refine ext_getD ((length_write (by omega)).trans hlen2)
    ((length_zeroRange hle (by omega)).trans hlen) 0 fun x hx => ?_
  rw [getD_write (by omega), hhigh, getD_zeroRange hle (by omega), getD_zeroRange hle (by omega),
    getD_write (by omega), hlow]
  by_cases hxu : pdUpper targetpage ≤ x
  · rw [if_pos (by omega), getD_slice (by omega), if_neg (by omega), Nat.add_sub_cancel' hxu]
  rw [if_neg (by omega)]
  by_cases hxl : pdLower targetpage ≤ x
  · rw [if_pos (by omega), if_pos (by omega)]
  · rw [if_neg (by omega), if_pos (by omega), getD_slice (by omega), if_neg (by omega),
      Nat.sub_zero, Nat.zero_add]

/-- The delta is the bytes of fragments that cover both used parts of the page. -/
theorem computeDelta_spec :
    ∃ F G, computeDelta blcksz curpage targetpage = encode targetpage (F ++ G) ∧
    RegionCovered curpage targetpage 0 (pdLower targetpage) F ∧
    RegionCovered curpage targetpage (pdUpper targetpage) blcksz G := by
  have hupper := htarget.upper_le
  have hupper' := hcur.upper_le
  have hlower : ∃ F,
      computeRegionDelta [] curpage targetpage 0 (pdLower targetpage) 0 (pdLower curpage) =
      [] ++ encode targetpage F ∧ RegionCovered curpage targetpage 0 (pdLower targetpage) F :=
    computeRegionDelta_spec [] (by omega)
  obtain ⟨F, hF, hcoverF⟩ := hlower
  have hhigher : ∃ G,
      computeRegionDelta (encode targetpage F) curpage targetpage (pdUpper targetpage) blcksz
      (pdUpper curpage) blcksz = encode targetpage F ++ encode targetpage G ∧
      RegionCovered curpage targetpage (pdUpper targetpage) blcksz G :=
    computeRegionDelta_spec (encode targetpage F) (by omega)
  obtain ⟨G, hG, hcoverG⟩ := hhigher
  refine ⟨F, G, ?_, hcoverF, hcoverG⟩
  rw [computeDelta, hF, nil_append, hG, encode, encode, encode, flatMap_append]

/-- The delta fits its buffer. -/
theorem length_computeDelta_le :
    (computeDelta blcksz curpage targetpage).length ≤ blcksz + 2 * fragmentHeaderSize := by
  have hle := htarget.lower_le
  obtain ⟨F, G, hdelta, hlow, hhigh⟩ := computeDelta_spec hcur htarget
  have hcost := length_encode_le targetpage (F ++ G)
  have hF := hlow.cost_le
  have hG := hhigh.cost_le
  rw [cost_append] at hcost
  rw [hdelta]
  omega

/-- Before the hole is zeroed, the replayed page has the new bytes on both sides of it. -/
theorem applyPageRedo_computeDelta (hsize : blcksz < 65536) :
    (applyPageRedo curpage (computeDelta blcksz curpage targetpage)).length = blcksz ∧
    ∀ x, x < pdLower targetpage ∨ pdUpper targetpage ≤ x ∧ x < blcksz →
      (applyPageRedo curpage (computeDelta blcksz curpage targetpage)).getD x 0 =
        targetpage.getD x 0 := by
  have hlen := htarget.length
  have hle := htarget.lower_le
  have hupper := htarget.upper_le
  obtain ⟨F, G, hdelta, hlow, hhigh⟩ := computeDelta_spec hcur htarget
  have hFG : ∀ f ∈ F ++ G, f.offset + f.length ≤ targetpage.length := by
    intro f hf
    obtain hf | hf := mem_append.1 hf
    · have := hlow.inside f hf
      omega
    · have := hhigh.inside f hf
      omega
  have hlen' := hcur.length.trans hlen.symm
  rw [hdelta, applyPageRedo_encode (by omega) hFG]
  refine ⟨(length_applyAll hlen' hFG).trans hlen, fun x hx => ?_⟩
  -- a byte of a used part is in a fragment or was equal before
  have hcover : InFragments (F ++ G) x ∨ differs curpage targetpage x = false := by
    obtain hx | ⟨hx, hlt⟩ := hx
    · exact (hlow.cover x (zero_le x) hx).imp_left fun ⟨f, hf, hfx⟩ =>
        ⟨f, mem_append_left G hf, hfx⟩
    · exact (hhigh.cover x hx hlt).imp_left fun ⟨f, hf, hfx⟩ => ⟨f, mem_append_right F hf, hfx⟩
  by_cases hin : InFragments (F ++ G) x
  · exact getD_applyAll_of_mem hlen' hFG 0 hin
  · rw [getD_applyAll_of_not_mem hlen' hFG 0 hin]
    simpa [differs] using hcover.resolve_left hin

/-- Replay reproduces the page that was installed, the new page with a zeroed
hole, and the delta fits its buffer. -/
theorem genericXLog_replay (hsize : blcksz < 65536)
    (hheader : sizeOfPageHeaderData ≤ pdLower targetpage) :
    genericRedo curpage (computeDelta blcksz curpage targetpage) =
      installImage blcksz curpage targetpage ∧
      installImage blcksz curpage targetpage =
        zeroRange targetpage (pdLower targetpage) (pdUpper targetpage) ∧
      (computeDelta blcksz curpage targetpage).length ≤ blcksz + 2 * fragmentHeaderSize := by
  have hlen := htarget.length
  have hle := htarget.lower_le
  have hupper := htarget.upper_le
  refine ⟨?_, installImage_eq hcur htarget, length_computeDelta_le hcur htarget⟩
  obtain ⟨hlenR, hbyte⟩ := applyPageRedo_computeDelta hcur htarget hsize
  rw [installImage_eq hcur htarget, genericRedo]
  generalize applyPageRedo curpage (computeDelta blcksz curpage targetpage) = page at hlenR hbyte ⊢
  -- the header of the replayed page is the new one
  have hbounds : pdLower page = pdLower targetpage ∧ pdUpper page = pdUpper targetpage := by
    have h24 : 24 ≤ pdLower targetpage := hheader
    simp only [pdLower, pdUpper] at h24 hbyte ⊢
    rw [hbyte 12 (by omega), hbyte 13 (by omega), hbyte 14 (by omega), hbyte 15 (by omega)]
    exact ⟨rfl, rfl⟩
  rw [hbounds.1, hbounds.2]
  refine ext_getD ((length_zeroRange hle (by omega)).trans hlenR)
    ((length_zeroRange hle (by omega)).trans hlen) 0
    fun x hx => ?_
  rw [getD_zeroRange hle (by omega), getD_zeroRange hle (by omega)]
  refine if_ctx_congr Iff.rfl (fun _ => rfl) fun hout => hbyte x ?_
  omega

end

/-- A page of 40 bytes that gets a longer used part on both sides. -/
theorem genericXLog_replay_small :
    genericRedo (List.replicate 12 1 ++ [24, 0, 38, 0] ++ List.replicate 24 7)
        (computeDelta 40 (List.replicate 12 1 ++ [24, 0, 38, 0] ++ List.replicate 24 7)
          (List.replicate 11 1 ++ [2, 26, 0, 34, 0] ++ List.replicate 24 9)) =
      List.replicate 11 1 ++ [2, 26, 0, 34, 0] ++ List.replicate 10 9 ++ List.replicate 8 0 ++
        List.replicate 6 9 := by
  have hcur : PageOk 40 (replicate 12 1 ++ [24, 0, 38, 0] ++ replicate 24 7) :=
    ⟨by decide, by decide, by decide⟩
  have htarget : PageOk 40 (replicate 11 1 ++ [2, 26, 0, 34, 0] ++ replicate 24 9) :=
    ⟨by decide, by decide, by decide⟩
  obtain ⟨hredo, hinstall, -⟩ := genericXLog_replay hcur htarget (by decide) (by decide)
  rw [hredo, hinstall]
  decide

end GreenPipeline.L2.GenericXlog
