import GreenPipeline.Core.PagedSpace
import Mathlib.Algebra.Order.Ring.Nat

/-!
# WAL space accounting

`src/backend/access/transam/xlog.c`: a WAL record is reserved by counting usable
bytes only, that is, without page headers, and the count is converted to
physical positions afterwards (`XLogBytePosToRecPtr` and its variants). Copying
walks the physical pages: it skips a long header at the start of a segment and a
short one elsewhere, aligns the end, and for a segment switch consumes the rest
of the segment. The two computations have to end at the same position; if not,
the server panics.

Positions are natural numbers: every value computed on the way to a position is
at most that position, so nothing wraps below a WAL of 2^64 bytes. What is
copied is not modelled, only how far.

Results:

* `loc_xLogBytePosToRecPtr`, `endLoc_xLogBytePosToEndRecPtr`,
  `xLogRecPtrToBytePos_page`: the conversions are the two addresses of a usable
  position in a space of pages with headers.
* `copyRdata_spec`: after any chain of fragments the copy stands where the usable
  position that many bytes further is.
* `step_spec`: one reservation, from any aligned insert position.
* `walSpace_exact`: the whole.
-/
namespace GreenPipeline.L2.XLogSpace

open GreenPipeline.Core.PagedSpace Nat List

/-! ## Pages and segments -/

/-- mirrors src/include/c.h (`MAXALIGN`) -/
def maxAlign (len : Nat) : Nat := (len + 7) / 8 * 8

/-- mirrors src/include/access/xlog_internal.h:33-55 -/
def sizeOfXLogShortPHD : Nat := 24

/-- mirrors src/include/access/xlog_internal.h:62-72 -/
def sizeOfXLogLongPHD : Nat := 40

/-- mirrors src/include/access/xlogrecord.h:41-57 -/
def sizeOfXLogRecord : Nat := 24

/-- The sizes of a build: an aligned page size with room behind the long header,
and segments of whole pages. -/
structure WalConfig where
  xlogBlcksz : Nat
  pagesPerSegment : Nat
  aligned : xlogBlcksz % 8 = 0
  header_lt : sizeOfXLogLongPHD < xlogBlcksz
  pages_pos : 0 < pagesPerSegment

/-- The default of 8 kB pages and 16 MB segments. -/
def defaultConfig : WalConfig := ⟨8192, 2048, by decide, by decide, by decide⟩

variable (c : WalConfig)

def WalConfig.xlogSegSize : Nat := c.pagesPerSegment * c.xlogBlcksz

/-- mirrors xlog.c:736-737 -/
def WalConfig.usableBytesInPage : Nat := c.xlogBlcksz - sizeOfXLogShortPHD

def WalConfig.usableBytesInSegment : Nat :=
  c.xlogSegSize / c.xlogBlcksz * c.usableBytesInPage - (sizeOfXLogLongPHD - sizeOfXLogShortPHD)

/-! ## Conversions -/

/-- mirrors xlog.c:1914-1946 -/
def xLogBytePosToRecPtr (bytepos : Nat) : Nat :=
  let fullsegs := bytepos / c.usableBytesInSegment
  let bytesleft := bytepos % c.usableBytesInSegment
  let segOffset :=
    if bytesleft < c.xlogBlcksz - sizeOfXLogLongPHD then bytesleft + sizeOfXLogLongPHD
    else
      let bytesleft := bytesleft - (c.xlogBlcksz - sizeOfXLogLongPHD)
      let fullpages := bytesleft / c.usableBytesInPage
      let bytesleft := bytesleft % c.usableBytesInPage
      c.xlogBlcksz + (fullpages * c.xlogBlcksz + bytesleft + sizeOfXLogShortPHD)
  fullsegs * c.xlogSegSize + segOffset

/-- mirrors xlog.c:1954-1992 -/
def xLogBytePosToEndRecPtr (bytepos : Nat) : Nat :=
  let fullsegs := bytepos / c.usableBytesInSegment
  let bytesleft := bytepos % c.usableBytesInSegment
  let segOffset :=
    if bytesleft < c.xlogBlcksz - sizeOfXLogLongPHD then
      if bytesleft = 0 then 0 else bytesleft + sizeOfXLogLongPHD
    else
      let bytesleft := bytesleft - (c.xlogBlcksz - sizeOfXLogLongPHD)
      let fullpages := bytesleft / c.usableBytesInPage
      let bytesleft := bytesleft % c.usableBytesInPage
      if bytesleft = 0 then c.xlogBlcksz + (fullpages * c.xlogBlcksz + bytesleft)
      else c.xlogBlcksz + (fullpages * c.xlogBlcksz + bytesleft + sizeOfXLogShortPHD)
  fullsegs * c.xlogSegSize + segOffset

/-- mirrors xlog.c:1997-2031 -/
def xLogRecPtrToBytePos (ptr : Nat) : Nat :=
  let fullsegs := ptr / c.xlogSegSize
  let fullpages := ptr % c.xlogSegSize / c.xlogBlcksz
  let offset := ptr % c.xlogBlcksz
  if fullpages = 0 then
    let result := fullsegs * c.usableBytesInSegment
    if offset > 0 then result + (offset - sizeOfXLogLongPHD) else result
  else
    let result := fullsegs * c.usableBytesInSegment + (c.xlogBlcksz - sizeOfXLogLongPHD) +
      (fullpages - 1) * c.usableBytesInPage
    if offset > 0 then result + (offset - sizeOfXLogShortPHD) else result

/-! ## The WAL as a paged space -/

/-- The first page of a segment has the long header. -/
def wal : Paged where
  blcksz := c.xlogBlcksz
  hdr k := if k % c.pagesPerSegment = 0 then sizeOfXLogLongPHD else sizeOfXLogShortPHD
  hdr_lt k := by
    have := c.header_lt
    simp only [sizeOfXLogLongPHD, sizeOfXLogShortPHD] at *
    split <;> omega

variable {c}

theorem usableBytesInSegment_eq :
    c.usableBytesInSegment =
      (c.xlogBlcksz - sizeOfXLogLongPHD) + (c.pagesPerSegment - 1) * c.usableBytesInPage := by
  have hlt := c.header_lt
  have hpages := c.pages_pos
  rw [WalConfig.usableBytesInSegment, WalConfig.xlogSegSize, Nat.mul_div_cancel _ (by omega)]
  obtain ⟨n, hn⟩ : ∃ n, c.pagesPerSegment = n + 1 := ⟨c.pagesPerSegment - 1, by omega⟩
  rw [hn, Nat.add_sub_cancel, Nat.succ_mul, WalConfig.usableBytesInPage]
  simp only [sizeOfXLogLongPHD, sizeOfXLogShortPHD] at *
  omega

/-- The usable bytes of a segment before its page `p`. -/
theorem pageStart_in_segment (s : Nat) {p : Nat} (hp : p ≤ c.pagesPerSegment)
    (hs : (wal c).pageStart (s * c.pagesPerSegment) = s * c.usableBytesInSegment) :
    (wal c).pageStart (s * c.pagesPerSegment + p) = s * c.usableBytesInSegment +
      if p = 0 then 0 else (c.xlogBlcksz - sizeOfXLogLongPHD) + (p - 1) * c.usableBytesInPage := by
  induction p with
  | zero => exact hs
  | succ p ih =>
    have hmod : (s * c.pagesPerSegment + p) % c.pagesPerSegment = p := by
      rw [Nat.mul_comm, Nat.mul_add_mod, Nat.mod_eq_of_lt (by omega)]
    rw [← Nat.add_assoc, Paged.pageStart, ih (by omega), if_neg (Nat.succ_ne_zero p),
      Nat.add_sub_cancel, Paged.cap]
    simp only [wal, hmod]
    by_cases h0 : p = 0
    · simp [h0]
    · obtain ⟨q, rfl⟩ : ∃ q, p = q + 1 := ⟨p - 1, by omega⟩
      simp only [if_neg h0, Nat.add_sub_cancel, Nat.succ_mul, WalConfig.usableBytesInPage]
      omega

theorem pageStart_segment (s : Nat) :
    (wal c).pageStart (s * c.pagesPerSegment) = s * c.usableBytesInSegment := by
  induction s with
  | zero => simp [Paged.pageStart]
  | succ s ih =>
    have hpages := c.pages_pos
    rw [succ_mul, pageStart_in_segment s (le_refl _) ih, if_neg (by omega),
      ← usableBytesInSegment_eq, succ_mul]

/-- A usable position, split as the conversions split it. -/
theorem bytepos_cases (bytepos : Nat) :
    (bytepos % c.usableBytesInSegment < c.xlogBlcksz - sizeOfXLogLongPHD ∧
      ∃ k r, r < (wal c).cap k ∧ bytepos = (wal c).pageStart k + r ∧
        r = bytepos % c.usableBytesInSegment ∧ (wal c).hdr k = sizeOfXLogLongPHD ∧
        k = bytepos / c.usableBytesInSegment * c.pagesPerSegment) ∨
    (¬ bytepos % c.usableBytesInSegment < c.xlogBlcksz - sizeOfXLogLongPHD ∧
      ∃ k r, r < (wal c).cap k ∧ bytepos = (wal c).pageStart k + r ∧
        r = (bytepos % c.usableBytesInSegment -
          (c.xlogBlcksz - sizeOfXLogLongPHD)) % c.usableBytesInPage ∧
        (wal c).hdr k = sizeOfXLogShortPHD ∧
        k = bytepos / c.usableBytesInSegment * c.pagesPerSegment + 1 +
          (bytepos % c.usableBytesInSegment - (c.xlogBlcksz - sizeOfXLogLongPHD)) /
            c.usableBytesInPage) := by
  have hlt := c.header_lt
  have hpages := c.pages_pos
  have hseg := usableBytesInSegment_eq (c := c)
  have hpos : 0 < c.usableBytesInPage := by
    simp only [WalConfig.usableBytesInPage, sizeOfXLogLongPHD, sizeOfXLogShortPHD] at *
    omega
  have hsegpos : 0 < c.usableBytesInSegment := by
    rw [hseg]
    omega
  have hdiv := div_add_mod bytepos c.usableBytesInSegment
  have hleft := mod_lt bytepos hsegpos
  rw [mul_comm] at hdiv
  generalize bytepos / c.usableBytesInSegment = s at hdiv ⊢
  generalize bytepos % c.usableBytesInSegment = left at hdiv hleft ⊢
  by_cases hfirst : left < c.xlogBlcksz - sizeOfXLogLongPHD
  · have hhdr : (wal c).hdr (s * c.pagesPerSegment) = sizeOfXLogLongPHD := by simp [wal]
    refine .inl ⟨hfirst, s * c.pagesPerSegment, left, ?_, ?_, rfl, hhdr, rfl⟩
    · rw [Paged.cap, hhdr]
      exact hfirst
    · rw [pageStart_segment, hdiv]
  · -- page `1 + q` of the segment
    have hq := div_add_mod (left - (c.xlogBlcksz - sizeOfXLogLongPHD)) c.usableBytesInPage
    have hr := mod_lt (left - (c.xlogBlcksz - sizeOfXLogLongPHD)) hpos
    have hqlt : (left - (c.xlogBlcksz - sizeOfXLogLongPHD)) / c.usableBytesInPage <
        c.pagesPerSegment - 1 := by
      rw [div_lt_iff_lt_mul hpos]
      omega
    rw [mul_comm] at hq
    generalize (left - (c.xlogBlcksz - sizeOfXLogLongPHD)) / c.usableBytesInPage = q at hq hqlt ⊢
    generalize (left - (c.xlogBlcksz - sizeOfXLogLongPHD)) % c.usableBytesInPage = r at hq hr ⊢
    have hmod : (s * c.pagesPerSegment + (1 + q)) % c.pagesPerSegment = 1 + q := by
      rw [mul_comm, mul_add_mod, mod_eq_of_lt (by omega)]
    have hhdr : (wal c).hdr (s * c.pagesPerSegment + (1 + q)) = sizeOfXLogShortPHD := by
      simp only [wal, hmod]
      exact if_neg (by omega)
    refine .inr ⟨hfirst, s * c.pagesPerSegment + (1 + q), r, ?_, ?_, rfl, hhdr, by omega⟩
    · rw [Paged.cap, hhdr]
      exact hr
    · rw [pageStart_in_segment s (by omega) (pageStart_segment s), if_neg (by omega),
        Nat.add_sub_cancel_left]
      omega

theorem loc_xLogBytePosToRecPtr (bytepos : Nat) :
    Loc (wal c) bytepos (xLogBytePosToRecPtr c bytepos) := by
  have hB : (wal c).blcksz = c.xlogBlcksz := rfl
  unfold xLogBytePosToRecPtr
  dsimp only
  obtain ⟨hfirst, k, r, hr, hb, hrq, hhdr, hk⟩ | ⟨hfirst, k, r, hr, hb, hrq, hhdr, hk⟩ :=
    bytepos_cases (c := c) bytepos
  · refine ⟨k, r, hr, hb, ?_⟩
    rw [hB, hhdr, hk, ← hrq, if_pos (hrq ▸ hfirst), mul_assoc, ← WalConfig.xlogSegSize]
    omega
  · refine ⟨k, r, hr, hb, ?_⟩
    rw [hB, hhdr, hk, ← hrq, if_neg hfirst, add_mul, add_mul, mul_assoc, ← WalConfig.xlogSegSize]
    omega

theorem endLoc_xLogBytePosToEndRecPtr (bytepos : Nat) :
    EndLoc (wal c) bytepos (xLogBytePosToEndRecPtr c bytepos) := by
  have hB : (wal c).blcksz = c.xlogBlcksz := rfl
  unfold xLogBytePosToEndRecPtr
  dsimp only
  obtain ⟨hfirst, k, r, hr, hb, hrq, hhdr, hk⟩ | ⟨hfirst, k, r, hr, hb, hrq, hhdr, hk⟩ :=
    bytepos_cases (c := c) bytepos
  · refine ⟨k, r, hr, hb, ?_⟩
    rw [hB, hhdr, hk, ← hrq, if_pos (hrq ▸ hfirst), mul_assoc, ← WalConfig.xlogSegSize]
    split <;> omega
  · refine ⟨k, r, hr, hb, ?_⟩
    rw [hB, hhdr, hk, ← hrq, if_neg hfirst, add_mul, add_mul, mul_assoc, ← WalConfig.xlogSegSize]
    split <;> omega

/-- A position on page `k`, at its start or behind its header. -/
theorem xLogRecPtrToBytePos_page {k o : Nat} (ho : o < c.xlogBlcksz) :
    xLogRecPtrToBytePos c (k * c.xlogBlcksz + o) = (wal c).pageStart k + (o - (wal c).hdr k) := by
  have hlt := c.header_lt
  have hpages := c.pages_pos
  have hB : 0 < c.xlogBlcksz := by omega
  have hpage : (k * c.xlogBlcksz + o) / c.xlogBlcksz = k := by
    rw [mul_comm, mul_add_div hB, div_eq_of_lt ho, add_zero]
  have hseg : (k * c.xlogBlcksz + o) / c.xlogSegSize = k / c.pagesPerSegment := by
    rw [WalConfig.xlogSegSize, Nat.mul_comm c.pagesPerSegment, ← Nat.div_div_eq_div_mul, hpage]
  have hin : (k * c.xlogBlcksz + o) % c.xlogSegSize / c.xlogBlcksz = k % c.pagesPerSegment := by
    rw [WalConfig.xlogSegSize, mul_comm c.pagesPerSegment, mod_mul_right_div_self, hpage]
  have hoff : (k * c.xlogBlcksz + o) % c.xlogBlcksz = o := by
    rw [mul_comm, mul_add_mod, mod_eq_of_lt ho]
  have hk : k = k / c.pagesPerSegment * c.pagesPerSegment + k % c.pagesPerSegment := by
    rw [mul_comm]
    exact (div_add_mod k _).symm
  have hstart :=
    pageStart_in_segment (c := c) (k / c.pagesPerSegment) (le_of_lt (mod_lt k hpages))
      (pageStart_segment _)
  rw [← hk] at hstart
  unfold xLogRecPtrToBytePos
  rw [hseg, hin, hoff, hstart]
  by_cases h0 : k % c.pagesPerSegment = 0
  · simp only [h0, if_true, wal]
    split <;> omega
  · simp only [h0, if_false, wal]
    split <;> omega

variable {bytepos : Nat}

theorem xLogRecPtrToBytePos_of_loc {ptr : Nat} (h : Loc (wal c) bytepos ptr) :
    xLogRecPtrToBytePos c ptr = bytepos := by
  obtain ⟨k, r, hr, rfl, rfl⟩ := h
  have hcap := (wal c).hdr_add_cap k
  rw [add_assoc]
  exact (xLogRecPtrToBytePos_page (Nat.lt_of_lt_of_eq (Nat.add_lt_add_left hr _) hcap)).trans
    (by omega)

theorem xLogRecPtrToBytePos_of_endLoc {ptr : Nat} (h : EndLoc (wal c) bytepos ptr) :
    xLogRecPtrToBytePos c ptr = bytepos := by
  obtain ⟨k, r, hr, rfl, rfl⟩ := h
  by_cases h0 : r = 0
  · have hB := lt_of_le_of_lt (zero_le _) c.header_lt
    have hpage := xLogRecPtrToBytePos_page (c := c) (k := k) hB
    rw [if_pos h0, h0]
    rwa [Nat.add_zero, Nat.zero_sub] at hpage
  · rw [if_neg h0]
    exact xLogRecPtrToBytePos_of_loc ⟨k, r, hr, rfl, rfl⟩

/-! ## Copying -/

variable (c) in
/-- mirrors xlog.c:719-720 -/
def insertFreespace (endptr : Nat) : Nat :=
  if endptr % c.xlogBlcksz = 0 then 0 else c.xlogBlcksz - endptr % c.xlogBlcksz

variable (c) in
/-- mirrors xlog.c:1503-1512 -/
def skipHeader (currPos : Nat) : Nat :=
  currPos + if currPos % c.xlogSegSize = 0 then sizeOfXLogLongPHD else sizeOfXLogShortPHD

/-- What the copy keeps. -/
structure CopyState where
  currPos : Nat
  freespace : Nat

variable (c) in
/-- To the end of the page and over the next header.
mirrors xlog.c:1482-1514 -/
def nextPage (s : CopyState) : CopyState :=
  ⟨skipHeader c (s.currPos + s.freespace),
    insertFreespace c (skipHeader c (s.currPos + s.freespace))⟩

variable (c) in
/-- The rounds the copy can make without copying anything. -/
def idleRounds (s : CopyState) : Nat :=
  if s.freespace ≠ 0 then 0 else if skipHeader c s.currPos % c.xlogBlcksz = 0 then 2 else 1

theorem idleRounds_le (s : CopyState) : idleRounds c s ≤ 2 := by
  unfold idleRounds
  split
  · exact zero_le 2
  · split <;> omega

theorem skipHeader_mod_ne_zero {currPos : Nat} (h : currPos % c.xlogBlcksz = 0) :
    skipHeader c currPos % c.xlogBlcksz ≠ 0 := by
  have hlt := c.header_lt
  unfold skipHeader
  simp only [sizeOfXLogLongPHD, sizeOfXLogShortPHD] at *
  split
  · rw [add_mod, h, zero_add, mod_mod, mod_eq_of_lt hlt]
    exact succ_ne_zero _
  · rw [add_mod, h, zero_add, mod_mod, mod_eq_of_lt (by omega)]
    exact succ_ne_zero _

variable {s : CopyState} {rdata : List Nat}

/-- An idle round is followed by fewer. -/
theorem idleRounds_nextPage_lt (h : s.freespace = 0) :
    idleRounds c (nextPage c s) < idleRounds c s := by
  simp only [idleRounds, nextPage, insertFreespace, h, add_zero, ne_eq, not_true_eq_false, if_false]
  by_cases hstay : skipHeader c s.currPos % c.xlogBlcksz = 0
  · simp [hstay, skipHeader_mod_ne_zero hstay]
  · have hB := lt_of_le_of_lt (zero_le _) c.header_lt
    have := mod_lt (skipHeader c s.currPos) hB
    rw [if_neg hstay, if_neg hstay, if_pos (by omega)]
    exact one_pos

variable (c) in
/-- One fragment of the record.
mirrors xlog.c:1472-1525 -/
def copyFragment (len : Nat) (s : CopyState) : CopyState :=
  if len > s.freespace then copyFragment (len - s.freespace) (nextPage c s)
  else ⟨s.currPos + len, s.freespace - len⟩
termination_by 3 * len + idleRounds c s
decreasing_by
  have hle := idleRounds_le (c := c) (nextPage c s)
  by_cases h0 : s.freespace = 0
  · have := idleRounds_nextPage_lt (c := c) h0
    omega
  · omega

variable (c) in
/-- The chain of fragments, from the start of the reserved space. -/
def copyRdata (rdata : List Nat) (startPos : Nat) : CopyState :=
  rdata.foldl (fun s len => copyFragment c len s) ⟨startPos, insertFreespace c startPos⟩

variable (c) in
/-- `while (CurrPos < EndPos) CurrPos += XLOG_BLCKSZ` -/
def fillPages (endPos currPos : Nat) : Nat :=
  if currPos < endPos then fillPages endPos (currPos + c.xlogBlcksz) else currPos
termination_by endPos - currPos
decreasing_by
  have := c.header_lt
  omega

variable (c) in
/-- The position reached; `none` is the PANIC.
mirrors xlog.c:1447-1564 -/
def copyXLogRecordToWAL (isLogSwitch : Bool) (rdata : List Nat)
    (startPos endPos : Nat) : Option Nat :=
  let s := copyRdata c rdata startPos
  let currPos :=
    if isLogSwitch ∧ s.currPos % c.xlogSegSize ≠ 0 then fillPages c endPos (s.currPos + s.freespace)
    else maxAlign s.currPos
  if currPos ≠ endPos then none else some currPos

/-- The copy stands `r` bytes behind the header of page `k`, at the usable position `b`. -/
structure CopyAt (c : WalConfig) (b k r : Nat) (s : CopyState) : Prop where
  le : r ≤ (wal c).cap k
  pos : b = (wal c).pageStart k + r
  currPos : s.currPos = k * c.xlogBlcksz + (wal c).hdr k + r
  freespace : s.freespace = (wal c).cap k - r

theorem mul_blcksz_mod_segSize (k : Nat) :
    k * c.xlogBlcksz % c.xlogSegSize = 0 ↔ k % c.pagesPerSegment = 0 := by
  have hB := lt_of_le_of_lt (zero_le _) c.header_lt
  rw [WalConfig.xlogSegSize, mul_mod_mul_right, mul_eq_zero]
  omega

theorem skipHeader_page (k : Nat) :
    skipHeader c (k * c.xlogBlcksz) = k * c.xlogBlcksz + (wal c).hdr k := by
  unfold skipHeader
  simp only [mul_blcksz_mod_segSize, wal]

theorem insertFreespace_page {k r : Nat} (hr : r < (wal c).cap k) :
    insertFreespace c (k * c.xlogBlcksz + (wal c).hdr k + r) = (wal c).cap k - r := by
  have hcap : (wal c).hdr k + (wal c).cap k = c.xlogBlcksz := (wal c).hdr_add_cap k
  have hpos : 0 < (wal c).hdr k := by
    simp only [wal, sizeOfXLogLongPHD, sizeOfXLogShortPHD]
    split <;> omega
  have hmod : (k * c.xlogBlcksz + (wal c).hdr k + r) % c.xlogBlcksz = (wal c).hdr k + r := by
    rw [add_assoc, mul_comm, mul_add_mod, mod_eq_of_lt (by omega)]
  rw [insertFreespace, hmod, if_neg (by omega)]
  omega

theorem CopyAt.nextPage {b k r : Nat} (h : CopyAt c b k r s) :
    CopyAt c (b + s.freespace) (k + 1) 0 (nextPage c s) := by
  have hcap : (wal c).hdr k + (wal c).cap k = c.xlogBlcksz := (wal c).hdr_add_cap k
  have hle := h.le
  have hcurr : s.currPos + s.freespace = (k + 1) * c.xlogBlcksz := by
    rw [h.currPos, h.freespace, succ_mul]
    omega
  have hskip := skipHeader_page (c := c) (k + 1)
  refine ⟨zero_le _, ?_, ?_, ?_⟩
  · rw [h.pos, h.freespace, Paged.pageStart]
    omega
  · rw [XLogSpace.nextPage, hcurr, hskip]
    rfl
  · rw [XLogSpace.nextPage, hcurr, hskip]
    exact insertFreespace_page ((wal c).cap_pos (k + 1))

/-- After a fragment the copy is that many usable bytes further, and behind some
bytes of its page if anything was copied. -/
theorem copyFragment_spec (len : Nat) {b k r : Nat} (h : CopyAt c b k r s) :
    ∃ k' r', CopyAt c (b + len) k' r' (copyFragment c len s) ∧ (0 < r ∨ 0 < len → 0 < r') := by
  fun_induction copyFragment c len s generalizing b k r with
  | case1 len s hgt ih =>
    obtain ⟨k', r', hat, hpos⟩ := ih h.nextPage
    refine ⟨k', r', ?_, fun _ => hpos (.inr (by omega))⟩
    rwa [show b + s.freespace + (len - s.freespace) = b + len by omega] at hat
  | case2 len s hle =>
    have hfree := h.freespace
    have hcap := h.le
    refine ⟨k, r + len, ⟨by omega, ?_, ?_, ?_⟩, fun _ => by omega⟩
    · rw [h.pos, add_assoc]
    · simp only [h.currPos, add_assoc]
    · simp only [h.freespace]
      omega

theorem foldl_copyFragment_spec (rdata : List Nat) {b k r : Nat} (h : CopyAt c b k r s) :
    ∃ k' r', CopyAt c (b + rdata.sum) k' r' (rdata.foldl (fun s len => copyFragment c len s) s) ∧
      (0 < r ∨ 0 < rdata.sum → 0 < r') := by
  induction rdata generalizing b k r s with
  | nil => exact ⟨k, r, h, fun hr => hr.resolve_right (lt_irrefl 0)⟩
  | cons len rdata ih =>
    obtain ⟨k1, r1, h1, hpos1⟩ := copyFragment_spec len h
    obtain ⟨k2, r2, h2, hpos2⟩ := ih h1
    refine ⟨k2, r2, ?_, fun hr => hpos2 ?_⟩
    · rw [sum_cons, ← add_assoc]
      exact h2
    · rw [sum_cons] at hr
      by_cases hrest : 0 < rdata.sum
      · exact .inr hrest
      · exact .inl (hpos1 (by omega))

/-- Where the copy of a record stands before the end is aligned. -/
theorem copyRdata_spec (hlen : 0 < rdata.sum) (bytepos : Nat) :
    ∃ k r, 0 < r ∧
      CopyAt c (bytepos + rdata.sum) k r (copyRdata c rdata (xLogBytePosToRecPtr c bytepos)) := by
  obtain ⟨k, r, hr, hb, hptr⟩ := loc_xLogBytePosToRecPtr (c := c) bytepos
  have hstart : CopyAt c bytepos k r ⟨xLogBytePosToRecPtr c bytepos,
      insertFreespace c (xLogBytePosToRecPtr c bytepos)⟩ := by
    refine ⟨le_of_lt hr, hb, hptr, ?_⟩
    rw [hptr]
    exact insertFreespace_page hr
  obtain ⟨k', r', hat, hpos⟩ := foldl_copyFragment_spec rdata hstart
  exact ⟨k', r', hpos (.inr hlen), hat⟩

/-! ## Alignment -/

theorem hdr_mod (k : Nat) : (wal c).hdr k % 8 = 0 := by
  simp only [wal, sizeOfXLogLongPHD, sizeOfXLogShortPHD]
  split <;> rfl

theorem cap_mod (k : Nat) : (wal c).cap k % 8 = 0 := by
  have hcap : (wal c).hdr k + (wal c).cap k = c.xlogBlcksz := (wal c).hdr_add_cap k
  have hhdr := hdr_mod (c := c) k
  have := c.aligned
  omega

theorem pageStart_mod (k : Nat) : (wal c).pageStart k % 8 = 0 := by
  induction k with
  | zero => rfl
  | succ k ih =>
    have := cap_mod (c := c) k
    rw [Paged.pageStart]
    omega

theorem mul_blcksz_mod (k : Nat) : k * c.xlogBlcksz % 8 = 0 := by
  rw [mul_mod, c.aligned, mul_zero, zero_mod]

/-- Aligning the physical end and aligning the number of usable bytes agree. -/
theorem maxAlign_currPos {start len k r : Nat} (hstart : start % 8 = 0)
    (h : CopyAt c (start + len) k r s) (hpos : 0 < r) :
    EndLoc (wal c) (start + maxAlign len) (maxAlign s.currPos) := by
  have hpage := pageStart_mod (c := c) k
  have hcap := cap_mod (c := c) k
  have hhdr := hdr_mod (c := c) k
  have hmul := mul_blcksz_mod (c := c) k
  have hle := h.le
  have hb := h.pos
  have hr : maxAlign r ≤ (wal c).cap k := by
    unfold maxAlign
    omega
  have hbyte : start + maxAlign len = (wal c).pageStart k + maxAlign r := by
    unfold maxAlign
    omega
  have hptr : maxAlign s.currPos = k * c.xlogBlcksz + (wal c).hdr k + maxAlign r := by
    rw [h.currPos]
    unfold maxAlign
    omega
  rw [hbyte, hptr]
  refine endLoc_of_pos ?_ hr
  unfold maxAlign
  omega

/-! ## Reservations -/

/-- The tip of the reserved WAL in usable bytes. At startup it is set from the end
of the last record (xlog.c:7476-7477), which is aligned.
mirrors xlog.c:515-527 -/
structure XLogCtlInsert where
  currBytePos : Nat
  prevBytePos : Nat

/-- The reserved section. `prevPtr` is unset and nothing is reserved if a switch
finds itself at the start of a segment. -/
structure Reservation where
  startPos : Nat
  endPos : Nat
  prevPtr : Option Nat
  deriving DecidableEq

/-- Whether there is a record to insert. -/
def Reservation.inserted (r : Reservation) : Bool := r.prevPtr.isSome

variable (c) in
/-- mirrors xlog.c:1221-1268 -/
def reserveXLogInsertLocation (size : Nat) (insert : XLogCtlInsert) : Reservation × XLogCtlInsert :=
  let size := maxAlign size
  let startbytepos := insert.currBytePos
  let endbytepos := startbytepos + size
  let prevbytepos := insert.prevBytePos
  (⟨xLogBytePosToRecPtr c startbytepos, xLogBytePosToEndRecPtr c endbytepos,
      some (xLogBytePosToRecPtr c prevbytepos)⟩,
    ⟨endbytepos, startbytepos⟩)

variable (c) in
/-- mirrors xlog.c:1279-1332 -/
def reserveXLogSwitch (insert : XLogCtlInsert) : Reservation × XLogCtlInsert :=
  let size := maxAlign sizeOfXLogRecord
  let startbytepos := insert.currBytePos
  let ptr := xLogBytePosToEndRecPtr c startbytepos
  if ptr % c.xlogSegSize = 0 then (⟨ptr, ptr, none⟩, insert)
  else
    let endbytepos := startbytepos + size
    let prevbytepos := insert.prevBytePos
    let startPos := xLogBytePosToRecPtr c startbytepos
    let endPos := xLogBytePosToEndRecPtr c endbytepos
    let segleft := c.xlogSegSize - endPos % c.xlogSegSize
    if segleft ≠ c.xlogSegSize then
      (⟨startPos, endPos + segleft, some (xLogBytePosToRecPtr c prevbytepos)⟩,
        ⟨xLogRecPtrToBytePos c (endPos + segleft), startbytepos⟩)
    else (⟨startPos, endPos, some (xLogBytePosToRecPtr c prevbytepos)⟩, ⟨endbytepos, startbytepos⟩)

/-- A record to insert, as its chain of fragments. -/
inductive Request where
  | insert (rdata : List Nat)
  | switch (rdata : List Nat)

/-- A record has data; a switch record is its header. -/
def Request.Valid : Request → Prop
  | .insert rdata => 0 < rdata.sum
  | .switch rdata => rdata.sum = sizeOfXLogRecord

variable (c) in
def reserve (req : Request) (insert : XLogCtlInsert) : Reservation × XLogCtlInsert :=
  match req with
  | .insert rdata => reserveXLogInsertLocation c rdata.sum insert
  | .switch _ => reserveXLogSwitch c insert

variable (c) in
def copy (req : Request) (r : Reservation) : Option Nat :=
  match req with
  | .insert rdata => copyXLogRecordToWAL c false rdata r.startPos r.endPos
  | .switch rdata => copyXLogRecordToWAL c true rdata r.startPos r.endPos

variable (c) in
/-- A sequence of reservations. -/
def run : List Request → XLogCtlInsert → List (Request × Reservation)
  | [], _ => []
  | req :: reqs, insert => (req, (reserve c req insert).1) :: run reqs (reserve c req insert).2

/-- What one request does: the section begins behind everything reserved so far
and ends where the next one may begin, and the copy fills it exactly. -/
structure Exact (c : WalConfig) (insert : XLogCtlInsert) (req : Request) (r : Reservation)
    (insert' : XLogCtlInsert) :
    Prop where
  aligned : insert'.currBytePos % 8 = 0
  start_ge : xLogBytePosToEndRecPtr c insert.currBytePos ≤ r.startPos
  start_le_end : r.startPos ≤ r.endPos
  end_eq : r.endPos = xLogBytePosToEndRecPtr c insert'.currBytePos
  filled : r.inserted = true → r.startPos < r.endPos ∧ copy c req r = some r.endPos

theorem copy_insert_eq (hlen : 0 < rdata.sum) (h8 : bytepos % 8 = 0) :
    copyXLogRecordToWAL c false rdata (xLogBytePosToRecPtr c bytepos)
      (xLogBytePosToEndRecPtr c (bytepos + maxAlign rdata.sum)) =
    some (xLogBytePosToEndRecPtr c (bytepos + maxAlign rdata.sum)) := by
  obtain ⟨k, r, hpos, hat⟩ := copyRdata_spec (c := c) hlen bytepos
  have hend := (maxAlign_currPos h8 hat hpos).unique (endLoc_xLogBytePosToEndRecPtr _)
  simp [copyXLogRecordToWAL, hend]

variable {insert : XLogCtlInsert}

theorem reserveXLogInsertLocation_exact (hlen : 0 < rdata.sum) (h8 : insert.currBytePos % 8 = 0) :
    Exact c insert (.insert rdata) (reserve c (.insert rdata) insert).1
      (reserve c (.insert rdata) insert).2 := by
  have hsize : 0 < maxAlign rdata.sum := by
    unfold maxAlign
    omega
  have hlt : xLogBytePosToRecPtr c insert.currBytePos <
      xLogBytePosToEndRecPtr c (insert.currBytePos + maxAlign rdata.sum) :=
    (loc_xLogBytePosToRecPtr _).lt_endLoc (endLoc_xLogBytePosToEndRecPtr _)
      (Nat.lt_add_of_pos_right hsize)
  refine ⟨?_, ?_, le_of_lt hlt, rfl, fun _ => ⟨hlt, copy_insert_eq hlen h8⟩⟩
  · simp only [reserve, reserveXLogInsertLocation, maxAlign]
    omega
  · exact (endLoc_xLogBytePosToEndRecPtr _).le_loc (loc_xLogBytePosToRecPtr _)

theorem fillPages_page {m K : Nat} (h : m ≤ K) :
    fillPages c (K * c.xlogBlcksz) (m * c.xlogBlcksz) = K * c.xlogBlcksz := by
  have hB := lt_of_le_of_lt (zero_le _) c.header_lt
  -- induction over the pages still to fill
  obtain ⟨d, rfl⟩ := Nat.exists_eq_add_of_le h
  induction d generalizing m with
  | zero => rw [add_zero, fillPages, if_neg (lt_irrefl _)]
  | succ d ih =>
    rw [fillPages, if_pos (mul_lt_mul_of_pos_right (by omega) hB), ← succ_mul,
      show m + (d + 1) = m.succ + d by omega]
    exact ih (le_add_right _ _)

/-- The end of a position's segment is the start of a page. -/
theorem segment_end {e : Nat} :
    ∃ K, e + (c.xlogSegSize - e % c.xlogSegSize) = K * c.xlogBlcksz := by
  have hB := lt_of_le_of_lt (zero_le _) c.header_lt
  have hseg : 0 < c.xlogSegSize := mul_pos c.pages_pos hB
  have hmod := mod_lt e hseg
  have hdiv := div_add_mod e c.xlogSegSize
  refine ⟨(e / c.xlogSegSize + 1) * c.pagesPerSegment, ?_⟩
  rw [mul_assoc, ← WalConfig.xlogSegSize, succ_mul, mul_comm]
  omega

theorem endLoc_page (k : Nat) : EndLoc (wal c) ((wal c).pageStart k) (k * c.xlogBlcksz) :=
  ⟨k, 0, (wal c).cap_pos k, rfl, rfl⟩

/-- The bytes of a record end where its usable bytes do. -/
theorem copyRdata_currPos (hlen : 0 < rdata.sum) (bytepos : Nat) :
    (copyRdata c rdata (xLogBytePosToRecPtr c bytepos)).currPos =
      xLogBytePosToEndRecPtr c (bytepos + rdata.sum) := by
  obtain ⟨k, r, hr, hat⟩ := copyRdata_spec (c := c) hlen bytepos
  refine EndLoc.unique ?_ (endLoc_xLogBytePosToEndRecPtr _)
  rw [hat.pos, hat.currPos]
  exact endLoc_of_pos hr hat.le

/-- After a record the rest of its page is filled, then whole pages. -/
theorem fillPages_copyRdata (hlen : 0 < rdata.sum) {K : Nat}
    (hK : (copyRdata c rdata (xLogBytePosToRecPtr c bytepos)).currPos < K * c.xlogBlcksz) :
    fillPages c (K * c.xlogBlcksz) ((copyRdata c rdata (xLogBytePosToRecPtr c bytepos)).currPos +
      (copyRdata c rdata (xLogBytePosToRecPtr c bytepos)).freespace) = K * c.xlogBlcksz := by
  obtain ⟨k, r, -, hat⟩ := copyRdata_spec (c := c) hlen bytepos
  have hcap : (wal c).hdr k + (wal c).cap k = c.xlogBlcksz := (wal c).hdr_add_cap k
  have hle := hat.le
  have hpage : (copyRdata c rdata (xLogBytePosToRecPtr c bytepos)).currPos +
      (copyRdata c rdata (xLogBytePosToRecPtr c bytepos)).freespace = (k + 1) * c.xlogBlcksz := by
    rw [hat.currPos, hat.freespace, succ_mul]
    omega
  have hlt : k * c.xlogBlcksz < K * c.xlogBlcksz := by
    rw [hat.currPos] at hK
    omega
  rw [hpage]
  exact fillPages_page (Nat.lt_of_mul_lt_mul_right hlt)

theorem reserveXLogSwitch_exact (hlen : rdata.sum = sizeOfXLogRecord)
    (h8 : insert.currBytePos % 8 = 0) :
    Exact c insert (.switch rdata) (reserve c (.switch rdata) insert).1
      (reserve c (.switch rdata) insert).2 := by
  have hsize : maxAlign sizeOfXLogRecord = rdata.sum := by
    rw [hlen]
    rfl
  have hpos : 0 < rdata.sum := by
    rw [hlen]
    decide
  simp only [reserve, reserveXLogSwitch, hsize]
  by_cases hfirst : xLogBytePosToEndRecPtr c insert.currBytePos % c.xlogSegSize = 0
  · rw [if_pos hfirst]
    exact ⟨h8, le_refl _, le_refl _, rfl, fun h => nomatch h⟩
  rw [if_neg hfirst]
  have hge : xLogBytePosToEndRecPtr c insert.currBytePos ≤
      xLogBytePosToRecPtr c insert.currBytePos :=
    (endLoc_xLogBytePosToEndRecPtr _).le_loc (loc_xLogBytePosToRecPtr _)
  have hlt : xLogBytePosToRecPtr c insert.currBytePos <
      xLogBytePosToEndRecPtr c (insert.currBytePos + rdata.sum) :=
    (loc_xLogBytePosToRecPtr _).lt_endLoc (endLoc_xLogBytePosToEndRecPtr _)
      (Nat.lt_add_of_pos_right hpos)
  have hcurr := copyRdata_currPos (c := c) hpos insert.currBytePos
  by_cases hend : xLogBytePosToEndRecPtr c (insert.currBytePos + rdata.sum) % c.xlogSegSize = 0
  · -- the record ends its segment, nothing is left to fill
    obtain ⟨k, r, hr, hat⟩ := copyRdata_spec (c := c) hpos insert.currBytePos
    have halign := (maxAlign_currPos h8 hat hr).unique (endLoc_xLogBytePosToEndRecPtr _)
    rw [hcurr, show maxAlign rdata.sum = rdata.sum by rw [hlen]; rfl] at halign
    rw [if_neg (by rw [hend]; simp)]
    refine ⟨?_, hge, le_of_lt hlt, rfl, fun _ => ⟨hlt, ?_⟩⟩
    · rw [hlen]
      simp only [sizeOfXLogRecord]
      omega
    · simp [copy, copyXLogRecordToWAL, hcurr, hend, halign]
  · obtain ⟨K, hK⟩ :=
      segment_end (c := c) (e := xLogBytePosToEndRecPtr c (insert.currBytePos + rdata.sum))
    have hsegpos : 0 < c.xlogSegSize :=
      mul_pos c.pages_pos (lt_of_le_of_lt (zero_le _) c.header_lt)
    have hmod := mod_lt (xLogBytePosToEndRecPtr c (insert.currBytePos + rdata.sum)) hsegpos
    have hbyte : xLogRecPtrToBytePos c (K * c.xlogBlcksz) = (wal c).pageStart K :=
      xLogRecPtrToBytePos_of_endLoc (endLoc_page K)
    rw [if_pos (by omega), hK, hbyte]
    have hltK : xLogBytePosToRecPtr c insert.currBytePos < K * c.xlogBlcksz := by omega
    have hfill := fillPages_copyRdata (c := c) (K := K) hpos (by rw [hcurr]; omega)
    refine ⟨pageStart_mod K, hge, le_of_lt hltK, ?_, fun _ => ⟨hltK, ?_⟩⟩
    · exact (endLoc_page K).unique (endLoc_xLogBytePosToEndRecPtr _)
    · rw [← hcurr] at hend
      simp [copy, copyXLogRecordToWAL, hend, hfill]

theorem reserve_exact {req : Request} (hreq : req.Valid) (h8 : insert.currBytePos % 8 = 0) :
    Exact c insert req (reserve c req insert).1 (reserve c req insert).2 := by
  cases req with
  | insert rdata => exact reserveXLogInsertLocation_exact hreq h8
  | switch rdata => exact reserveXLogSwitch_exact hreq h8

/-! ## Runs -/

section

variable {reqs : List Request} (hreqs : ∀ req ∈ reqs, req.Valid) (h8 : insert.currBytePos % 8 = 0)
include hreqs h8

theorem run_start_ge :
    ∀ x ∈ run c reqs insert, xLogBytePosToEndRecPtr c insert.currBytePos ≤ x.2.startPos := by
  induction reqs generalizing insert with
  | nil => exact fun x hx => absurd hx not_mem_nil
  | cons req reqs ih =>
    have hstep := reserve_exact (c := c) (hreqs req mem_cons_self) h8
    intro x hx
    obtain rfl | hx := mem_cons.1 hx
    · exact hstep.start_ge
    · have hrest := ih (forall_mem_cons.1 hreqs).2 hstep.aligned x hx
      exact le_trans hstep.start_ge (le_trans hstep.start_le_end (hstep.end_eq ▸ hrest))

theorem run_exact : (run c reqs insert).Pairwise (fun x y => x.2.endPos ≤ y.2.startPos) ∧
    ∀ x ∈ run c reqs insert, x.2.startPos ≤ x.2.endPos ∧
    (x.2.inserted = true → x.2.startPos < x.2.endPos ∧ copy c x.1 x.2 = some x.2.endPos) := by
  induction reqs generalizing insert with
  | nil => exact ⟨List.Pairwise.nil, fun x hx => absurd hx not_mem_nil⟩
  | cons req reqs ih =>
    have hstep := reserve_exact (c := c) (hreqs req mem_cons_self) h8
    have hreqs' := (forall_mem_cons.1 hreqs).2
    obtain ⟨hpair, hall⟩ := ih hreqs' hstep.aligned
    refine ⟨List.Pairwise.cons (fun y hy => ?_) hpair, fun x hx => ?_⟩
    · exact hstep.end_eq ▸ run_start_ge hreqs' hstep.aligned y hy
    · obtain rfl | hx := mem_cons.1 hx
      · exact ⟨hstep.start_le_end, hstep.filled⟩
      · exact hall x hx

end

/-- The conversions are inverse and increasing; from any aligned insert position,
whatever is inserted, the reserved sections follow one another and every copy ends
exactly where its section does. -/
theorem walSpace_exact (c : WalConfig) :
    (∀ b, xLogRecPtrToBytePos c (xLogBytePosToRecPtr c b) = b ∧
        xLogRecPtrToBytePos c (xLogBytePosToEndRecPtr c b) = b) ∧
      StrictMono (xLogBytePosToRecPtr c) ∧ StrictMono (xLogBytePosToEndRecPtr c) ∧
      ∀ (reqs : List Request) (insert : XLogCtlInsert), (∀ req ∈ reqs, req.Valid) →
        insert.currBytePos % 8 = 0 →
        (run c reqs insert).Pairwise (fun x y => x.2.endPos ≤ y.2.startPos) ∧
          ∀ x ∈ run c reqs insert, x.2.startPos ≤ x.2.endPos ∧
            (x.2.inserted = true → x.2.startPos < x.2.endPos ∧
              copy c x.1 x.2 = some x.2.endPos) := by
  refine ⟨fun b => ⟨?_, ?_⟩, fun a b hab => ?_, fun a b hab => ?_,
    fun reqs insert hreqs h8 => run_exact hreqs h8⟩
  · exact xLogRecPtrToBytePos_of_loc (loc_xLogBytePosToRecPtr b)
  · exact xLogRecPtrToBytePos_of_endLoc (endLoc_xLogBytePosToEndRecPtr b)
  · exact (loc_xLogBytePosToRecPtr a).lt_loc (loc_xLogBytePosToRecPtr b) hab
  · exact (endLoc_xLogBytePosToEndRecPtr a).lt_endLoc (endLoc_xLogBytePosToEndRecPtr b) hab

/-- Two records around a segment switch, from the start of the WAL. -/
theorem walSpace_exact_default :
    (run defaultConfig [.insert [24, 100], .switch [24], .insert [30]] ⟨0, 0⟩).Pairwise
      (fun x y => x.2.endPos ≤ y.2.startPos) := by
  obtain ⟨-, -, -, hrun⟩ := walSpace_exact defaultConfig
  refine (hrun _ ⟨0, 0⟩ (fun req hreq => ?_) rfl).1
  simp only [mem_cons, not_mem_nil, or_false] at hreq
  obtain rfl | rfl | rfl := hreq
  · exact (by decide : 0 < 24 + (100 + 0))
  · exact (by decide : 24 + 0 = sizeOfXLogRecord)
  · exact (by decide : 0 < 30 + 0)

end GreenPipeline.L2.XLogSpace
