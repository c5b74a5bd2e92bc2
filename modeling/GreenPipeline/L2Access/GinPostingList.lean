import GreenPipeline.Core.Bytes
import GreenPipeline.Core.Patch

/-!
# Compressed GIN posting lists

`src/backend/access/gin/ginpostinglist.c`: an item pointer is a 43-bit number,
eleven bits of offset below the block number, and a segment holds its first item
whole and the varbyte differences of the others. The encoder writes a difference
without looking at its length as long as six bytes are left, and into a buffer
of six bytes on the stack otherwise. Six bytes hold 42 bits when each has a
continuation bit, so one difference size is too long for both.
`Core.Bytes.encodeVarbyte` is the loop of `encode_varbyte` (lines 104-117).

Results:

* `packItems_spec`: a segment holds the differences of a leading part of the items.
* `segment_fits_iff`: a segment is written within its space and the stack buffer
  exactly when each difference of 43 bits finds seven bytes left.
* `decode_segment`: decoding one segment in front of others.
* `decodeAllSegments_compressAll`: items cut into segments are decoded again, if no
  segment can be longer than its length field says.
* `writtenBytes_sublist`: removing items never makes a segment grow.
-/
namespace GreenPipeline.L2.Gin

open GreenPipeline.Core.Bytes List Nat
open GreenPipeline.Core.Patch (write)

/-! ## Item pointers -/

structure ItemPointerData where
  blockno : Nat
  offset : Nat
  deriving DecidableEq

/-- mirrors ginpostinglist.c:74 -/
def maxHeapTuplesPerPageBits : Nat := 11

/-- mirrors ginpostinglist.c:76-89 -/
def itemptrToUint64 (iptr : ItemPointerData) : Nat :=
  iptr.blockno <<< maxHeapTuplesPerPageBits ||| iptr.offset

/-- mirrors ginpostinglist.c:91-99 -/
def uint64ToItemptr (val : Nat) : ItemPointerData :=
  ⟨(val >>> maxHeapTuplesPerPageBits) % 2 ^ 32, val &&& (1 <<< maxHeapTuplesPerPageBits - 1)⟩

/-- The order of `ginCompareItemPointers`. -/
def ItemBefore (a b : ItemPointerData) : Prop :=
  a.blockno < b.blockno ∨ a.blockno = b.blockno ∧ a.offset < b.offset

/-- A strictly increasing list of items with 32-bit blocks and 11-bit offsets. -/
structure ItemsOk (ipd : List ItemPointerData) : Prop where
  block_lt : ∀ iptr ∈ ipd, iptr.blockno < 2 ^ 32
  offset_pos : ∀ iptr ∈ ipd, 1 ≤ iptr.offset
  offset_le : ∀ iptr ∈ ipd, iptr.offset ≤ 2047
  increasing : ipd.Pairwise ItemBefore

/-! ## Segments -/

/-- mirrors src/include/access/ginblock.h:326-331 -/
structure GinPostingList where
  first : ItemPointerData
  nbytes : Nat
  bytes : List UInt8
  deriving DecidableEq

/-- `offsetof(GinPostingList, bytes)`: an item pointer and a `uint16`. -/
def offsetofBytes : Nat := 8

/-- mirrors src/include/c.h (`SHORTALIGN`, `SHORTALIGN_DOWN`) -/
def shortalign (n : Nat) : Nat := (n + 1) / 2 * 2

def shortalignDown (n : Nat) : Nat := n / 2 * 2

/-- mirrors src/include/access/ginblock.h:333 -/
def sizeOfGinPostingList (plist : GinPostingList) : Nat := offsetofBytes + shortalign plist.nbytes

/-- The space a segment takes, by the bytes it holds and not by what `nbytes` says. -/
def usedSize (plist : GinPostingList) : Nat := offsetofBytes + shortalign plist.bytes.length

/-- `sizeof(buf)` in `ginCompressPostingList`. -/
def sizeofBuf : Nat := 6

/-- The loop over the items after the first. `endptr - ptr` is a signed
difference: past the end nothing fits. `bytes` is what was written so far.
`none` if the stack buffer is overrun, after which nothing is defined.
mirrors ginpostinglist.c:204-230 -/
def packItems (maxbytes : Nat) : List ItemPointerData → (prev : Nat) → (bytes : List UInt8) →
    (totalpacked : Nat) → Option (List UInt8 × Nat)
  | [], _, bytes, totalpacked => some (bytes, totalpacked)
  | iptr :: ipd, prev, bytes, totalpacked =>
    let val := itemptrToUint64 iptr
    let delta := (val + 2 ^ 64 - prev) % 2 ^ 64
    if bytes.length + 6 ≤ maxbytes then
      packItems maxbytes ipd val (bytes ++ encodeVarbyte delta) (totalpacked + 1)
    -- fewer than six bytes are left: the item is encoded in `buf` first
    else if sizeofBuf < (encodeVarbyte delta).length then none
    else if maxbytes < bytes.length + (encodeVarbyte delta).length then some (bytes, totalpacked)
    else packItems maxbytes ipd val (bytes ++ encodeVarbyte delta) (totalpacked + 1)

/-- After an odd number of bytes the padding byte is zeroed.
mirrors ginpostinglist.c:231-238 -/
def zeroPadding (bytes : List UInt8) : List UInt8 :=
  let nbytes := bytes.length % 65536
  if nbytes ≠ shortalign nbytes then write bytes nbytes [0] else bytes

/-- The segment and the number of items in it. `nbytes` is a `uint16`. `none` for
no items, and where the stack buffer is overrun.
mirrors ginpostinglist.c:179-262 -/
def ginCompressPostingList (ipd : List ItemPointerData) (maxsize : Nat) :
    Option (GinPostingList × Nat) :=
  match ipd with
  | [] => none
  | first :: rest =>
    let maxbytes := shortalignDown maxsize - offsetofBytes
    (packItems maxbytes rest (itemptrToUint64 first) [] 1).map fun packed =>
      (⟨first, packed.1.length % 65536, zeroPadding packed.1⟩, packed.2)

/-- The `SizeOfGinPostingList` bytes of a segment in memory. -/
def image (plist : GinPostingList) : List UInt8 :=
  putUint16 (plist.first.blockno / 65536) ++ putUint16 (plist.first.blockno % 65536) ++
    putUint16 plist.first.offset ++
    putUint16 plist.nbytes ++ plist.bytes.take (shortalign plist.nbytes)

/-- The list cut into segments, each call going on after the items of the one before. A
segment that does not fit its `maxsize`, or the stack buffer, is none. -/
def compressAll : (maxsizes : List Nat) → List ItemPointerData → Option (List GinPostingList)
  | [], [] => some []
  | [], _ :: _ => none
  | maxsize :: maxsizes, ipd =>
    match ginCompressPostingList ipd maxsize with
    | none => none
    | some (plist, nwritten) =>
      if usedSize plist ≤ maxsize then
        (compressAll maxsizes (ipd.drop nwritten)).map (plist :: ·) else none

/-! ## Decoding -/

/-- Six bytes with a continuation bit and a seventh without.
mirrors ginpostinglist.c:122-166 -/
def decodeVarbyte (ptr : List UInt8) : Nat × Nat := Core.Bytes.decodeVarbyte 6 0 ptr

/-- `left` is `endptr - ptr`.
mirrors ginpostinglist.c:317-330 -/
def decodeItems (left : Nat) (ptr : List UInt8) (val : Nat) : List ItemPointerData :=
  if left = 0 then []
  else
    let d := decodeVarbyte ptr
    uint64ToItemptr ((val + d.1) % 2 ^ 64) :: decodeItems (left - d.2) (ptr.drop d.2)
      ((val + d.1) % 2 ^ 64)
termination_by left
decreasing_by
  have := decodeVarbyte_count_pos 6 0 ptr
  simp only [decodeVarbyte]
  omega

/-- mirrors ginpostinglist.c:281-337 -/
def ginPostingListDecodeAllSegments (mem : List UInt8) : List ItemPointerData :=
  if mem = [] then []
  else
    let hi := getUint16 (mem.getD 0 0) (mem.getD 1 0)
    let lo := getUint16 (mem.getD 2 0) (mem.getD 3 0)
    let first : ItemPointerData := ⟨hi <<< 16 ||| lo, getUint16 (mem.getD 4 0) (mem.getD 5 0)⟩
    let nbytes := getUint16 (mem.getD 6 0) (mem.getD 7 0)
    first :: decodeItems nbytes (mem.drop offsetofBytes) (itemptrToUint64 first) ++
      ginPostingListDecodeAllSegments (mem.drop (offsetofBytes + shortalign nbytes))
termination_by mem.length
decreasing_by
  have := List.length_pos_iff.2 ‹¬ mem = []›
  simp only [List.length_drop, offsetofBytes]
  omega

/-! ## Items as numbers -/

theorem itemptrToUint64_eq {iptr : ItemPointerData} (h : iptr.offset ≤ 2047) :
    itemptrToUint64 iptr = iptr.blockno * 2048 + iptr.offset := by
  rw [itemptrToUint64, ← shiftLeft_add_eq_or_of_lt (by rw [maxHeapTuplesPerPageBits]; omega),
    shiftLeft_eq, maxHeapTuplesPerPageBits]

theorem uint64ToItemptr_itemptrToUint64 {iptr : ItemPointerData} (hblock : iptr.blockno < 2 ^ 32)
    (hoffset : iptr.offset ≤ 2047) : uint64ToItemptr (itemptrToUint64 iptr) = iptr := by
  rw [itemptrToUint64_eq hoffset, uint64ToItemptr, shiftRight_eq_div_pow, one_shiftLeft,
    and_two_pow_sub_one_eq_mod, maxHeapTuplesPerPageBits, ItemPointerData.mk.injEq]
  omega

variable {ipd : List ItemPointerData} {p : ItemPointerData}

theorem ItemsOk.sublist {sub : List ItemPointerData} (h : ItemsOk ipd) (hsub : sub.Sublist ipd) :
    ItemsOk sub :=
  ⟨fun x hx => h.block_lt x (hsub.subset hx), fun x hx => h.offset_pos x (hsub.subset hx),
    fun x hx => h.offset_le x (hsub.subset hx), h.increasing.sublist hsub⟩

theorem ItemsOk.tail (h : ItemsOk (p :: ipd)) : ItemsOk ipd :=
  h.sublist (sublist_cons_self p ipd)

/-- An item's number has 43 bits. -/
theorem ItemsOk.val_lt (h : ItemsOk (p :: ipd)) : itemptrToUint64 p < 2 ^ 43 := by
  have hblock := h.block_lt p mem_cons_self
  have hoffset := h.offset_le p mem_cons_self
  rw [itemptrToUint64_eq hoffset]
  omega

variable {x : ItemPointerData} {maxbytes : Nat} {bytes : List UInt8}

/-- The numbers increase with the items. -/
theorem ItemsOk.val_lt_val (h : ItemsOk (p :: x :: ipd)) :
    itemptrToUint64 p < itemptrToUint64 x := by
  have hp := h.offset_le p mem_cons_self
  have hx := h.offset_le x (mem_cons_of_mem p mem_cons_self)
  have hbefore := rel_of_pairwise_cons h.increasing mem_cons_self
  rw [itemptrToUint64_eq hp, itemptrToUint64_eq hx]
  obtain hlt | ⟨heq, hlt⟩ := hbefore
  · omega
  · omega

/-- The differences between consecutive items, from `p` on. -/
def gaps (p : ItemPointerData) : List ItemPointerData → List Nat
  | [] => []
  | x :: ipd => (itemptrToUint64 x - itemptrToUint64 p) :: gaps x ipd

/-- The varbyte differences of the items after `p`. -/
def encodeItems (p : ItemPointerData) (ipd : List ItemPointerData) : List UInt8 :=
  (gaps p ipd).flatMap encodeVarbyte

theorem encodeItems_cons (p x : ItemPointerData) (ipd : List ItemPointerData) :
    encodeItems p (x :: ipd) =
      encodeVarbyte (itemptrToUint64 x - itemptrToUint64 p) ++ encodeItems x ipd := by
  rw [encodeItems, gaps, flatMap_cons, encodeItems]

/-- The unsigned difference of two items is the one between their numbers. -/
theorem ItemsOk.delta_eq (h : ItemsOk (p :: x :: ipd)) :
    (itemptrToUint64 x + 2 ^ 64 - itemptrToUint64 p) % 2 ^ 64 =
      itemptrToUint64 x - itemptrToUint64 p := by
  have hlt := h.val_lt_val
  have hx := h.tail.val_lt
  omega

/-! ## What a segment holds -/

/-- A segment holds the differences of the first items. -/
theorem packItems_spec (maxbytes : Nat) (h : ItemsOk (p :: ipd)) (bytes : List UInt8)
    (totalpacked : Nat) {packed : List UInt8 × Nat}
    (hpacked : packItems maxbytes ipd (itemptrToUint64 p) bytes totalpacked = some packed) :
    ∃ n ≤ ipd.length, packed = (bytes ++ encodeItems p (ipd.take n), totalpacked + n) := by
  induction ipd generalizing p bytes totalpacked with
  | nil =>
    rw [packItems, Option.some_inj] at hpacked
    exact ⟨0, le_refl 0, by simp [← hpacked, encodeItems, gaps]⟩
  | cons x ipd ih =>
    rw [packItems] at hpacked
    simp only [h.delta_eq] at hpacked
    -- both branches that write the difference go on in the same way
    have hwritten : packItems maxbytes ipd (itemptrToUint64 x)
          (bytes ++ encodeVarbyte (itemptrToUint64 x - itemptrToUint64 p)) (totalpacked + 1) =
            some packed →
        ∃ m ≤ (x :: ipd).length, packed =
        (bytes ++ encodeItems p ((x :: ipd).take m), totalpacked + m) := by
      intro hrest
      obtain ⟨n, hn, hpack⟩ := ih h.tail _ _ hrest
      refine ⟨n + 1, succ_le_succ hn, ?_⟩
      rw [hpack, take_succ_cons, encodeItems_cons, append_assoc, add_assoc, add_comm 1 n]
    split_ifs at hpacked
    · exact hwritten hpacked
    · rw [Option.some_inj] at hpacked
      exact ⟨0, zero_le _, by simp [← hpacked, encodeItems, gaps]⟩
    · exact hwritten hpacked

/-- A difference that fits is written, whichever branch does it. -/
theorem packItems_of_fits (h : ItemsOk (p :: x :: ipd)) (bytes : List UInt8) (totalpacked : Nat)
    (hfit : bytes.length + (encodeVarbyte (itemptrToUint64 x - itemptrToUint64 p)).length ≤
      maxbytes) :
    packItems maxbytes (x :: ipd) (itemptrToUint64 p) bytes totalpacked =
      packItems maxbytes ipd (itemptrToUint64 x)
        (bytes ++ encodeVarbyte (itemptrToUint64 x - itemptrToUint64 p)) (totalpacked + 1) := by
  rw [packItems]
  simp only [h.delta_eq]
  by_cases hroom : bytes.length + 6 ≤ maxbytes
  · rw [if_pos hroom]
  · rw [if_neg hroom, if_neg (by rw [sizeofBuf]; omega), if_neg (by omega)]

/-- All items are packed if their differences fit. -/
theorem packItems_all (h : ItemsOk (p :: ipd)) (bytes : List UInt8) (totalpacked : Nat)
    (hfit : bytes.length + (encodeItems p ipd).length ≤ maxbytes) :
    packItems maxbytes ipd (itemptrToUint64 p) bytes totalpacked =
      some (bytes ++ encodeItems p ipd, totalpacked + ipd.length) := by
  induction ipd generalizing p bytes totalpacked with
  | nil => simp [packItems, encodeItems, gaps]
  | cons x ipd ih =>
    rw [encodeItems_cons, length_append] at hfit
    have hrest := ih h.tail (bytes ++ encodeVarbyte (itemptrToUint64 x - itemptrToUint64 p))
      (totalpacked + 1) (by rw [length_append]; omega)
    rw [packItems_of_fits h bytes totalpacked (by omega), hrest, encodeItems_cons,
      append_assoc, length_cons]
    congr 2
    omega

/-! ## Fitting the space -/

/-- With `left` bytes of space, a difference of 43 bits that is reached finds
seven bytes left. -/
def SevenBytesLeft (left : Nat) (gaps : List Nat) : Prop :=
  ∀ before gap after, gaps = before ++ gap :: after → 2 ^ 42 ≤ gap →
    (before.map varbyteLen).sum ≤ left → (before.map varbyteLen).sum + 7 ≤ left

theorem sevenBytesLeft_nil (left : Nat) : SevenBytesLeft left [] :=
  fun before gap after heq => absurd heq (by simp)

/-- The next difference itself, and the others behind it if it fits. -/
theorem sevenBytesLeft_cons {left gap : Nat} (gaps : List Nat) :
    SevenBytesLeft left (gap :: gaps) ↔ (2 ^ 42 ≤ gap → 7 ≤ left) ∧
      (varbyteLen gap ≤ left → SevenBytesLeft (left - varbyteLen gap) gaps) := by
  constructor
  · intro h
    refine ⟨fun hgap => ?_, fun hfit before g after heq hg hreached => ?_⟩
    · simpa using h [] gap gaps rfl hgap (by simp)
    · have := h (gap :: before) g after (by rw [heq, cons_append]) hg
      rw [map_cons, sum_cons] at this
      omega
  · rintro ⟨hgap, h⟩ before g after heq hg hreached
    cases before with
    | nil =>
      rw [nil_append, cons.injEq] at heq
      simpa using hgap (heq.1 ▸ hg)
    | cons b before =>
      rw [cons_append, cons.injEq] at heq
      rw [map_cons, sum_cons, ← heq.1] at hreached ⊢
      have := h (by omega) before g after heq.2 hg (by omega)
      omega

/-- Six bytes are too few exactly for 43 bits. -/
theorem six_lt_varbyteLen_iff (gap : Nat) : 6 < varbyteLen gap ↔ 2 ^ 42 ≤ gap := by
  have h := length_encodeVarbyte_le_iff 5 gap
  rw [length_encodeVarbyte] at h
  omega

/-- Past the end nothing is written to the segment. -/
theorem packItems_full (h : maxbytes < bytes.length) (ipd : List ItemPointerData)
    (prev totalpacked : Nat) {packed : List UInt8 × Nat}
    (hpacked : packItems maxbytes ipd prev bytes totalpacked = some packed) : packed.1 = bytes := by
  cases ipd with
  | nil =>
    rw [packItems, Option.some_inj] at hpacked
    rw [← hpacked]
  | cons x ipd =>
    rw [packItems, if_neg (by omega)] at hpacked
    split_ifs at hpacked
    · rw [Option.some_inj] at hpacked
      rw [← hpacked]
    · omega

/-- The loop stays in its space and in the stack buffer exactly if a difference
of 43 bits always finds seven bytes. -/
theorem packItems_fits_iff (h : ItemsOk (p :: ipd)) {left : Nat} (bytes : List UInt8)
    (totalpacked : Nat) (hleft : bytes.length + left = maxbytes) :
    (∃ packed, packItems maxbytes ipd (itemptrToUint64 p) bytes totalpacked = some packed ∧
      packed.1.length ≤ maxbytes) ↔ SevenBytesLeft left (gaps p ipd) := by
  induction ipd generalizing p bytes totalpacked left with
  | nil => exact iff_of_true ⟨_, rfl, by dsimp only; omega⟩ (sevenBytesLeft_nil left)
  | cons x ipd ih =>
    have hgap : itemptrToUint64 x - itemptrToUint64 p < 2 ^ 43 := by
      have := h.tail.val_lt
      omega
    rw [gaps, sevenBytesLeft_cons]
    have hseven : varbyteLen (itemptrToUint64 x - itemptrToUint64 p) ≤ 7 := by
      rw [← length_encodeVarbyte, length_encodeVarbyte_le_iff 6]
      omega
    have hsix := six_lt_varbyteLen_iff (itemptrToUint64 x - itemptrToUint64 p)
    by_cases hfit : varbyteLen (itemptrToUint64 x - itemptrToUint64 p) ≤ left
    · have hlen := length_encodeVarbyte (itemptrToUint64 x - itemptrToUint64 p)
      rw [packItems_of_fits h bytes totalpacked (by omega), and_iff_right (by omega),
        forall_prop_of_true hfit]
      exact ih h.tail _ _ (by rw [length_append]; omega)
    · rw [packItems]
      simp only [h.delta_eq, length_encodeVarbyte, sizeofBuf]
      by_cases hlong : 2 ^ 42 ≤ itemptrToUint64 x - itemptrToUint64 p
      · -- seven bytes into six, of the segment or of the buffer
        refine iff_of_false ?_ fun hs => absurd (hs.1 hlong) (by omega)
        rintro ⟨packed, hpacked, hlen⟩
        split_ifs at hpacked
        · have hfull :=
            packItems_full (by rw [length_append, length_encodeVarbyte]; omega) _ _ _ hpacked
          rw [hfull, length_append, length_encodeVarbyte] at hlen
          omega
        · omega
        · omega
      · refine iff_of_true ?_ ⟨fun hl => absurd hl hlong, fun hf => absurd hf hfit⟩
        rw [if_neg (by omega), if_neg (by omega), if_pos (by omega)]
        exact ⟨_, rfl, by dsimp only; omega⟩

/-- Padding stays within the aligned length. -/
theorem shortalign_length_zeroPadding (bytes : List UInt8) :
    shortalign (zeroPadding bytes).length = shortalign bytes.length := by
  unfold zeroPadding
  dsimp only
  split
  · simp only [write, length_append, length_take, length_drop, length_singleton, shortalign] at *
    omega
  · rfl

theorem ginCompressPostingList_eq_some {first : ItemPointerData} {rest : List ItemPointerData}
    {maxsize : Nat} {r : GinPostingList × Nat} :
    ginCompressPostingList (first :: rest) maxsize = some r ↔
      ∃ packed,
        packItems (shortalignDown maxsize - offsetofBytes) rest (itemptrToUint64 first) [] 1 =
          some packed ∧
        (⟨first, packed.1.length % 65536, zeroPadding packed.1⟩, packed.2) = r :=
  Option.map_eq_some_iff

/-- **When a segment fits.** It is written, and within its space, exactly if
each difference of 43 bits that is reached finds seven bytes left: with six
left the code writes past the end of the segment, with fewer past the end of
the stack buffer. -/
theorem segment_fits_iff (first : ItemPointerData) (rest : List ItemPointerData) (maxsize : Nat)
    (hok : ItemsOk (first :: rest)) (hroom : offsetofBytes ≤ maxsize) :
    (∃ plist nwritten, ginCompressPostingList (first :: rest) maxsize = some (plist, nwritten) ∧
      usedSize plist ≤ maxsize) ↔
      SevenBytesLeft (shortalignDown maxsize - offsetofBytes) (gaps first rest) := by
  have hsize : ∀ n, offsetofBytes + shortalign n ≤ maxsize ↔
      n ≤ shortalignDown maxsize - offsetofBytes := by
    intro n
    simp only [offsetofBytes, shortalignDown, shortalign] at hroom ⊢
    omega
  rw [← packItems_fits_iff hok [] 1 (zero_add _)]
  constructor
  · rintro ⟨plist, nwritten, hcompress, hused⟩
    obtain ⟨packed, hpacked, hplist⟩ := ginCompressPostingList_eq_some.1 hcompress
    obtain ⟨rfl, -⟩ := Prod.mk.inj hplist
    rw [usedSize, shortalign_length_zeroPadding, hsize] at hused
    exact ⟨packed, hpacked, hused⟩
  · rintro ⟨packed, hpacked, hlen⟩
    refine ⟨_, _, ginCompressPostingList_eq_some.2 ⟨packed, hpacked, rfl⟩, ?_⟩
    rwa [usedSize, shortalign_length_zeroPadding, hsize]

/-- A difference of 2^42 with seven bytes left, and a small one after it. -/
theorem segment_fits_wide :
    ∃ plist nwritten, ginCompressPostingList [⟨0, 1⟩, ⟨2147483648, 1⟩, ⟨2147483648, 2⟩] 16 =
      some (plist, nwritten) ∧ usedSize plist ≤ 16 := by
  refine (segment_fits_iff ⟨0, 1⟩ [⟨2147483648, 1⟩, ⟨2147483648, 2⟩] 16
    ⟨by decide, by decide, by decide, by simp [ItemBefore]⟩ (by decide)).2 ?_
  have hgaps : gaps ⟨0, 1⟩ [⟨2147483648, 1⟩, ⟨2147483648, 2⟩] = [2 ^ 42, 1] := by decide
  rw [hgaps, sevenBytesLeft_cons]
  refine ⟨fun _ => by decide, fun _ => ?_⟩
  rw [sevenBytesLeft_cons]
  exact ⟨fun h => absurd h (by decide), fun _ => sevenBytesLeft_nil _⟩

/-- A difference of 2^42 with six bytes of space: the segment takes sixteen
bytes, not fourteen. With four bytes: the stack buffer is overrun. -/
theorem segment_overrun :
    ItemsOk [⟨0, 1⟩, ⟨2147483648, 1⟩] ∧
      (ginCompressPostingList [⟨0, 1⟩, ⟨2147483648, 1⟩] 14).map (fun r => usedSize r.1) = some 16 ∧
      ginCompressPostingList [⟨0, 1⟩, ⟨2147483648, 1⟩] 12 = none :=
  ⟨⟨by decide, by decide, by decide, by simp [ItemBefore]⟩, by decide +kernel, by decide +kernel⟩

/-! ## Decoding what was encoded -/

theorem decodeItems_encodeItems (h : ItemsOk (p :: ipd)) (rest : List UInt8) :
    decodeItems (encodeItems p ipd).length (encodeItems p ipd ++ rest) (itemptrToUint64 p) =
      ipd := by
  induction ipd generalizing p with
  | nil =>
    rw [decodeItems]
    rfl
  | cons x ipd ih =>
    have hlt := h.val_lt_val
    have hx := h.tail.val_lt
    have hpos := encodeVarbyte_length_pos (itemptrToUint64 x - itemptrToUint64 p)
    have hdecode : decodeVarbyte (encodeItems p (x :: ipd) ++ rest) =
        (itemptrToUint64 x - itemptrToUint64 p,
          (encodeVarbyte (itemptrToUint64 x - itemptrToUint64 p)).length) := by
      rw [decodeVarbyte, encodeItems_cons, append_assoc, decodeVarbyte_encode 6 0 _ (by omega),
        Nat.shiftLeft_zero]
    have hval : (itemptrToUint64 p + (itemptrToUint64 x - itemptrToUint64 p)) % 2 ^ 64 =
        itemptrToUint64 x := by
      omega
    have hitem : uint64ToItemptr (itemptrToUint64 x) = x :=
      uint64ToItemptr_itemptrToUint64 (h.tail.block_lt x mem_cons_self)
        (h.tail.offset_le x mem_cons_self)
    have hne : (encodeItems p (x :: ipd)).length ≠ 0 := by
      rw [encodeItems_cons, length_append]
      omega
    rw [decodeItems, if_neg hne, hdecode]
    simp only [hval, hitem, encodeItems_cons, length_append, Nat.add_sub_cancel_left,
      append_assoc, drop_left]
    rw [ih h.tail]

/-- The bytes of a segment whose length its field holds, and its padding. -/
theorem zeroPadding_eq_append (h : bytes.length < 65536) :
    ∃ pad, zeroPadding bytes = bytes ++ pad ∧ (bytes ++ pad).length = shortalign bytes.length := by
  rw [zeroPadding, mod_eq_of_lt h]
  by_cases hodd : bytes.length = shortalign bytes.length
  · rw [if_neg (not_not.2 hodd)]
    exact ⟨[], (append_nil _).symm, by rwa [append_nil]⟩
  · rw [if_pos hodd]
    refine ⟨[0], by simp [write], ?_⟩
    rw [length_append, length_singleton]
    unfold shortalign at hodd ⊢
    omega

/-- The header of a segment in memory. -/
theorem decodeAllSegments_image {first : ItemPointerData} {nbytes : Nat} (mem : List UInt8)
    (hblock : first.blockno < 2 ^ 32) (hoffset : first.offset ≤ 2047) (hnbytes : nbytes < 65536)
    (hbytes : shortalign nbytes ≤ bytes.length) :
    ginPostingListDecodeAllSegments (image ⟨first, nbytes, bytes⟩ ++ mem) =
      first :: decodeItems nbytes (bytes.take (shortalign nbytes) ++ mem) (itemptrToUint64 first) ++
        ginPostingListDecodeAllSegments mem := by
  have hfirst :
      (⟨(first.blockno / 65536) <<< 16 ||| first.blockno % 65536, first.offset⟩ : ItemPointerData) =
      first := by
    rw [← shiftLeft_add_eq_or_of_lt (mod_lt _ (by decide)), shiftLeft_eq]
    congr 1
    omega
  have hdrop : (bytes.take (shortalign nbytes) ++ mem).drop (shortalign nbytes) = mem := by
    rw [drop_left' (length_take_of_le hbytes)]
  rw [ginPostingListDecodeAllSegments, if_neg (by simp [image, putUint16])]
  simp only [image, putUint16, cons_append, nil_append, getD_cons_zero, getD_cons_succ,
    offsetofBytes, add_comm 8, drop_succ_cons, drop_zero]
  rw [getUint16_ofNat (by omega), getUint16_ofNat (by omega), getUint16_ofNat (by omega),
    getUint16_ofNat hnbytes, hfirst, hdrop]

/-- A segment that fits a space its length field can count decodes to the items written to it. -/
theorem decode_segment {first : ItemPointerData} {rest : List ItemPointerData}
    (hok : ItemsOk (first :: rest)) {maxsize : Nat} (hmax : maxsize < 65544)
    {plist : GinPostingList} {nwritten : Nat}
    (hcompress : ginCompressPostingList (first :: rest) maxsize = some (plist, nwritten))
    (hused : usedSize plist ≤ maxsize) (mem : List UInt8) :
    ginPostingListDecodeAllSegments (image plist ++ mem) =
      (first :: rest).take nwritten ++ ginPostingListDecodeAllSegments mem := by
  obtain ⟨packed, hpacked, hplist⟩ := ginCompressPostingList_eq_some.1 hcompress
  obtain ⟨n, -, rfl⟩ := packItems_spec (shortalignDown maxsize - offsetofBytes) hok [] 1 hpacked
  obtain ⟨rfl, rfl⟩ := Prod.mk.inj hplist
  simp only [nil_append, add_comm 1 n, take_succ_cons] at hused ⊢
  have hlen : (encodeItems first (rest.take n)).length < 65536 := by
    rw [usedSize, shortalign_length_zeroPadding] at hused
    simp only [offsetofBytes, shortalign] at hused
    omega
  obtain ⟨pad, hpad, hpadlen⟩ := zeroPadding_eq_append hlen
  rw [mod_eq_of_lt hlen, hpad,
    decodeAllSegments_image mem (hok.block_lt first mem_cons_self)
    (hok.offset_le first mem_cons_self)
      hlen (le_of_eq hpadlen.symm),
    take_of_length_le (le_of_eq hpadlen), append_assoc,
    decodeItems_encodeItems (hok.sublist ((take_sublist n rest).cons_cons first))]

/-- Items cut into segments of at most 65543 bytes, each within its space, are decoded again. -/
theorem decodeAllSegments_compressAll (maxsizes : List Nat) (ipd : List ItemPointerData)
    (plists : List GinPostingList) (hok : ItemsOk ipd)
    (hmax : ∀ maxsize ∈ maxsizes, maxsize < 65544) (hcut : compressAll maxsizes ipd = some plists) :
    ginPostingListDecodeAllSegments (plists.flatMap image) = ipd := by
  induction maxsizes generalizing ipd plists with
  | nil =>
    cases ipd with
    | nil =>
      obtain rfl : [] = plists := by simpa [compressAll] using hcut
      rw [flatMap_nil, ginPostingListDecodeAllSegments, if_pos rfl]
    | cons first rest => simp [compressAll] at hcut
  | cons maxsize maxsizes ih =>
    cases ipd with
    | nil => simp [compressAll, ginCompressPostingList] at hcut
    | cons first rest =>
      rw [compressAll] at hcut
      split at hcut
      · simp at hcut
      · next plist nwritten hcompress =>
        split at hcut
        · next hused =>
          obtain ⟨plists, hrest, rfl⟩ := Option.map_eq_some_iff.1 hcut
          rw [flatMap_cons, decode_segment hok (hmax maxsize mem_cons_self) hcompress hused,
            ih _ plists (hok.sublist (drop_sublist nwritten _)) (forall_mem_cons.1 hmax).2 hrest,
            take_append_drop]
        · simp at hcut

theorem decodeAllSegments_compressAll_small :
    ginPostingListDecodeAllSegments
      (image ⟨⟨0, 1⟩, 2, [1, 1]⟩ ++ image ⟨⟨7, 1⟩, 0, []⟩) = [⟨0, 1⟩, ⟨0, 2⟩, ⟨0, 3⟩, ⟨7, 1⟩] := by
  have h := decodeAllSegments_compressAll [10, 10] [⟨0, 1⟩, ⟨0, 2⟩, ⟨0, 3⟩, ⟨7, 1⟩]
    [⟨⟨0, 1⟩, 2, [1, 1]⟩, ⟨⟨7, 1⟩, 0, []⟩]
      ⟨by decide, by decide, by decide, by simp [ItemBefore]⟩ (by decide)
    (by decide +kernel)
  simpa using h

/-! ## Too many bytes for the length field -/

/-- The `i`-th item of a table whose pages are full. -/
def denseItem (i : Nat) : ItemPointerData := ⟨i / 2047, i % 2047 + 1⟩

def denseItems (start n : Nat) : List ItemPointerData := (List.range' start n).map denseItem

theorem denseItems_succ (start n : Nat) :
    denseItems start (n + 1) = denseItem start :: denseItems (start + 1) n := by
  rw [denseItems, range'_succ, map_cons, denseItems]

theorem itemsOk_denseItems {start n : Nat} (h : start + n < 2 ^ 32) :
    ItemsOk (denseItems start n) := by
  have hmem : ∀ iptr ∈ denseItems start n, ∃ i < 2 ^ 32, iptr = denseItem i := by
    intro iptr hiptr
    obtain ⟨i, hi, rfl⟩ := mem_map.1 hiptr
    exact ⟨i, by have := mem_range'_1.1 hi; omega, rfl⟩
  refine ⟨fun iptr hiptr => ?_, fun iptr hiptr => ?_, fun iptr hiptr => ?_, ?_⟩
  · obtain ⟨i, hi, rfl⟩ := hmem iptr hiptr
    exact lt_of_le_of_lt (div_le_self i 2047) hi
  · obtain ⟨i, -, rfl⟩ := hmem iptr hiptr
    exact succ_pos _
  · obtain ⟨i, -, rfl⟩ := hmem iptr hiptr
    exact mod_lt i (by decide)
  · refine List.Pairwise.map denseItem (fun i j hij => ?_) pairwise_lt_range'
    simp only [ItemBefore, denseItem]
    omega

/-- One byte for each item after the first. -/
theorem length_encodeItems_denseItems (start n : Nat) :
    (encodeItems (denseItem start) (denseItems (start + 1) n)).length = n := by
  induction n generalizing start with
  | zero => rfl
  | succ n ih =>
    have hgap : itemptrToUint64 (denseItem (start + 1)) -
        itemptrToUint64 (denseItem start) ≤ 127 := by
      rw [itemptrToUint64_eq (mod_lt _ (by decide)), itemptrToUint64_eq (mod_lt _ (by decide))]
      simp only [denseItem]
      omega
    rw [denseItems_succ, encodeItems_cons, length_append, ih, encodeVarbyte_of_le hgap,
      length_singleton, add_comm]

/-- A length that the field does not hold is stored as zero. -/
theorem compressAll_denseItems {n : Nat} (hwrap : n % 65536 = 0) (hlt : n + 1 < 2 ^ 32) :
    compressAll [n + 8] (denseItems 0 (n + 1)) =
    some [⟨denseItem 0, 0, zeroPadding (encodeItems (denseItem 0) (denseItems (0 + 1) n))⟩] := by
  have hok : ItemsOk (denseItem 0 :: denseItems (0 + 1) n) :=
    denseItems_succ 0 n ▸ itemsOk_denseItems (by rwa [zero_add])
  have hlen := length_encodeItems_denseItems 0 n
  have hcount : (denseItems (0 + 1) n).length = n := by rw [denseItems, length_map, length_range']
  have hspace : ([] : List UInt8).length +
      (encodeItems (denseItem 0) (denseItems (0 + 1) n)).length ≤
      shortalignDown (n + 8) - offsetofBytes := by
    rw [hlen, length_nil, offsetofBytes, shortalignDown]
    omega
  have hcompress := ginCompressPostingList_eq_some.2 ⟨_, packItems_all hok [] 1 hspace, rfl⟩
  rw [nil_append, hlen, hcount, hwrap] at hcompress
  have hused : usedSize ⟨denseItem 0, 0,
      zeroPadding (encodeItems (denseItem 0) (denseItems (0 + 1) n))⟩ ≤ n + 8 := by
    rw [usedSize, shortalign_length_zeroPadding, hlen, offsetofBytes, shortalign]
    omega
  rw [denseItems_succ, compressAll, hcompress]
  simp only [if_pos hused]
  rw [drop_of_length_le (by rw [length_cons, hcount, add_comm]), compressAll, Option.map_some]

/-- A segment of length zero holds its first item only. -/
theorem decode_empty (bytes : List UInt8) :
    ginPostingListDecodeAllSegments ([⟨denseItem 0, 0, bytes⟩].flatMap image) = [denseItem 0] := by
  rw [flatMap_cons, flatMap_nil,
    decodeAllSegments_image [] (by decide) (by decide) (by decide) (zero_le _), decodeItems,
    if_pos rfl, ginPostingListDecodeAllSegments, if_pos rfl, append_nil]

/-- 65537 items, a byte for each but the first, in space for them: `nbytes` is zero and all items
but the first are lost. -/
theorem nbytes_wraps :
    ∃ plists, ItemsOk (denseItems 0 (65536 + 1)) ∧
      compressAll [65536 + 8] (denseItems 0 (65536 + 1)) = some plists ∧
      ginPostingListDecodeAllSegments (plists.flatMap image) ≠ denseItems 0 (65536 + 1) := by
  refine ⟨_, itemsOk_denseItems (by decide), compressAll_denseItems (by decide) (by decide), ?_⟩
  intro heq
  rw [decode_empty, denseItems_succ, denseItems_succ] at heq
  exact cons_ne_nil _ _ (cons.inj heq).2.symm

/-! ## Removing items

Vacuum rewrites a segment in place without some of its items, and relies on
the result not being longer. -/

/-- The bytes from `result->bytes` to `ptr` at the end of the loop. -/
def writtenBytes (maxsize : Nat) : List ItemPointerData → List UInt8
  | [] => []
  | first :: rest =>
    ((packItems (shortalignDown maxsize - offsetofBytes) rest (itemptrToUint64 first) [] 1).map
      Prod.fst).getD []

/-- A difference that skips `x` takes no more bytes than the two it replaces. -/
theorem length_encodeItems_skip (h : ItemsOk (p :: x :: ipd)) :
    (encodeItems p ipd).length ≤ (encodeItems p (x :: ipd)).length := by
  cases ipd with
  | nil => simp [encodeItems, gaps]
  | cons y ipd =>
    have hpx := h.val_lt_val
    have hxy := h.tail.val_lt_val
    have hsum :=
      varbyteLen_add_le (itemptrToUint64 x - itemptrToUint64 p)
        (itemptrToUint64 y - itemptrToUint64 x)
    rw [show itemptrToUint64 x - itemptrToUint64 p + (itemptrToUint64 y - itemptrToUint64 x) =
      itemptrToUint64 y - itemptrToUint64 p by omega] at hsum
    simp only [encodeItems_cons, length_append, length_encodeVarbyte]
    omega

theorem length_encodeItems_sublist {sub : List ItemPointerData} (h : ItemsOk (p :: ipd))
    (hsub : sub.Sublist ipd) : (encodeItems p sub).length ≤ (encodeItems p ipd).length := by
  induction hsub generalizing p with
  | slnil => exact le_refl _
  | @cons sub ipd x hsub ih =>
    -- `x` is removed: go on after it, then join its two differences
    have hskip := length_encodeItems_skip (h.sublist ((hsub.cons_cons x).cons_cons p))
    have hrest := ih h.tail
    simp only [encodeItems_cons, length_append] at hskip ⊢
    omega
  | @cons_cons sub ipd x hsub ih =>
    have hrest := ih h.tail
    simp only [encodeItems_cons, length_append]
    omega

/-- No difference takes more than seven bytes. -/
theorem length_encodeItems_le (h : ItemsOk (p :: ipd)) :
    (encodeItems p ipd).length ≤ 7 * ipd.length := by
  induction ipd generalizing p with
  | nil => simp [encodeItems, gaps]
  | cons x ipd ih =>
    have hrest := ih h.tail
    have hval := h.tail.val_lt
    have hgap :=
      (length_encodeVarbyte_le_iff 6 (itemptrToUint64 x - itemptrToUint64 p)).2 (by omega)
    simp only [encodeItems_cons, length_append, length_cons]
    omega

/-- With enough space all items are packed. -/
theorem compress_all (h : ItemsOk (p :: ipd)) (maxsize : Nat)
    (hmax : 7 * ipd.length + 9 ≤ maxsize) :
    writtenBytes maxsize (p :: ipd) = encodeItems p ipd ∧
    ∃ bytes, ginCompressPostingList (p :: ipd) maxsize =
      some (⟨p, (encodeItems p ipd).length % 65536, bytes⟩, (p :: ipd).length) := by
  have hlen := length_encodeItems_le h
  have hfit : ([] : List UInt8).length + (encodeItems p ipd).length ≤
      shortalignDown maxsize - offsetofBytes := by
    simp only [length_nil, shortalignDown, offsetofBytes]
    omega
  have hpack := packItems_all h [] 1 hfit
  refine ⟨by rw [writtenBytes, hpack]; rfl, zeroPadding (encodeItems p ipd), ?_⟩
  rw [ginCompressPostingList, hpack]
  simp [add_comm]

/-- **Removing items never makes a segment grow**: with enough space for all
items, the loop writes no more bytes for a part of them than for all, and as
long as the length field holds the number of bytes the segment takes no more
space. -/
theorem writtenBytes_sublist (ipd sub : List ItemPointerData) (h : ItemsOk ipd)
    (hsub : sub.Sublist ipd) (hne : sub ≠ []) (maxsize : Nat)
    (hmax : 7 * ipd.length + 9 ≤ maxsize) :
    ∃ plist plist', ginCompressPostingList ipd maxsize = some (plist, ipd.length) ∧
      ginCompressPostingList sub maxsize = some (plist', sub.length) ∧
      (writtenBytes maxsize sub).length ≤ (writtenBytes maxsize ipd).length ∧
      ((writtenBytes maxsize ipd).length < 65536 →
        plist'.nbytes = (writtenBytes maxsize sub).length ∧
        plist.nbytes = (writtenBytes maxsize ipd).length ∧
          sizeOfGinPostingList plist' ≤ sizeOfGinPostingList plist) := by
  obtain ⟨q, sub, rfl⟩ := exists_cons_of_ne_nil hne
  obtain ⟨p, ipd, rfl⟩ := exists_cons_of_ne_nil (ne_nil_of_mem (hsub.subset mem_cons_self))
  have hlen := hsub.length_le
  simp only [length_cons] at hlen hmax
  obtain ⟨hall, bytes, hplist⟩ := compress_all h maxsize (by omega)
  obtain ⟨hpart, bytes', hplist'⟩ := compress_all (h.sublist hsub) maxsize (by omega)
  have hle : (encodeItems q sub).length ≤ (encodeItems p ipd).length := by
    cases hsub with
    | cons _ hrest =>
      -- the first item is gone too: its successor is stored whole
      have hcut := length_encodeItems_sublist h hrest
      rw [encodeItems_cons, length_append] at hcut
      omega
    | cons_cons _ hrest => exact length_encodeItems_sublist h hrest
  refine ⟨_, _, hplist, hplist', by rw [hall, hpart]; exact hle, fun hfield => ?_⟩
  rw [hall] at hfield
  rw [hall, hpart, mod_eq_of_lt hfield, mod_eq_of_lt (by omega)]
  refine ⟨rfl, rfl, ?_⟩
  simp only [sizeOfGinPostingList, shortalign]
  omega

theorem writtenBytes_sublist_small :
    (writtenBytes 100 [⟨0, 1⟩, ⟨9, 4⟩]).length ≤
      (writtenBytes 100 [⟨0, 1⟩, ⟨0, 2⟩, ⟨9, 4⟩]).length := by
  have hok : ItemsOk [⟨0, 1⟩, ⟨0, 2⟩, ⟨9, 4⟩] :=
    ⟨by decide, by decide, by decide, by simp [ItemBefore]⟩
  obtain ⟨-, -, -, -, hle, -⟩ := writtenBytes_sublist [⟨0, 1⟩, ⟨0, 2⟩, ⟨9, 4⟩] [⟨0, 1⟩, ⟨9, 4⟩] hok
    (by simp) (by simp) 100 (by decide)
  exact hle

end GreenPipeline.L2.Gin
