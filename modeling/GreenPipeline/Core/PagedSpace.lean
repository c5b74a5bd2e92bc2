import Mathlib.Order.Monotone.Basic

/-!
# Address spaces of pages with headers

A space of pages of one size, each with a header of its own length in front.
Usable bytes are counted without the headers: page `k` starts at the usable
position `pageStart k`, and byte `r` of its usable part has the usable position
`pageStart k + r` and the address `k * blcksz + hdr k + r`.

A usable position at a page boundary has two addresses: behind the header of the
page that begins there (`Loc`), or at the end of the page before it (`EndLoc`).

Results:

* `exists_page`, `page_unique`: every usable position lies on one page.
* `Loc.lt_loc`, `EndLoc.lt_endLoc`, `EndLoc.le_loc`, `Loc.lt_endLoc`: how the two
  addresses of different positions compare.
-/
namespace GreenPipeline.Core.PagedSpace

/-- A page size and the header length of every page. -/
structure Paged where
  blcksz : Nat
  hdr : Nat → Nat
  hdr_lt : ∀ k, hdr k < blcksz

variable (P : Paged)

/-- The usable bytes of a page. -/
def Paged.cap (k : Nat) : Nat := P.blcksz - P.hdr k

/-- The usable bytes before a page. -/
def Paged.pageStart : Nat → Nat
  | 0 => 0
  | k + 1 => pageStart k + P.cap k

theorem Paged.cap_pos (k : Nat) : 0 < P.cap k := Nat.sub_pos_of_lt (P.hdr_lt k)

theorem Paged.hdr_add_cap (k : Nat) : P.hdr k + P.cap k = P.blcksz :=
  Nat.add_sub_cancel' (Nat.le_of_lt (P.hdr_lt k))

theorem Paged.pageStart_strictMono : StrictMono P.pageStart :=
  strictMono_nat_of_lt_succ fun k => Nat.lt_add_of_pos_right (P.cap_pos k)

variable {P} {b b' p p' k k' r r' : Nat}

theorem exists_page (P : Paged) (b : Nat) : ∃ k r, r < P.cap k ∧ b = P.pageStart k + r := by
  induction b with
  | zero => exact ⟨0, 0, P.cap_pos 0, rfl⟩
  | succ b ih =>
    obtain ⟨k, r, hr, rfl⟩ := ih
    by_cases hlast : r + 1 < P.cap k
    · exact ⟨k, r + 1, hlast, rfl⟩
    · refine ⟨k + 1, 0, P.cap_pos _, ?_⟩
      rw [Paged.pageStart]
      omega

/-- Positions on different pages: the next page has begun. -/
theorem pageStart_add_cap_le (h : k < k') : P.pageStart k + P.cap k ≤ P.pageStart k' :=
  P.pageStart_strictMono.monotone (Nat.succ_le_of_lt h)

theorem page_unique (hr : r < P.cap k) (hr' : r' < P.cap k')
    (h : P.pageStart k + r = P.pageStart k' + r') : k = k' ∧ r = r' := by
  obtain hlt | rfl | hlt := Nat.lt_trichotomy k k'
  · have := pageStart_add_cap_le (P := P) hlt
    omega
  · exact ⟨rfl, by omega⟩
  · have := pageStart_add_cap_le (P := P) hlt
    omega

/-- The usable position `b` is byte `p`. -/
def Loc (P : Paged) (b p : Nat) : Prop :=
  ∃ k r, r < P.cap k ∧ b = P.pageStart k + r ∧ p = k * P.blcksz + P.hdr k + r

/-- What ends at the usable position `b` ends at byte `p`. -/
def EndLoc (P : Paged) (b p : Nat) : Prop :=
  ∃ k r, r < P.cap k ∧ b = P.pageStart k + r ∧
    p = if r = 0 then k * P.blcksz else k * P.blcksz + P.hdr k + r

theorem mul_add_blcksz_le (h : k < k') : k * P.blcksz + P.blcksz ≤ k' * P.blcksz := by
  rw [← Nat.succ_mul]
  exact Nat.mul_le_mul_right _ h

/-- The page of a greater position is the same or a later one. -/
theorem page_lt_or_eq (hr' : r' < P.cap k') (h : P.pageStart k + r < P.pageStart k' + r') :
    k < k' ∨ (k = k' ∧ r < r') := by
  obtain hlt | rfl | hlt := Nat.lt_trichotomy k k'
  · exact .inl hlt
  · exact .inr ⟨rfl, by omega⟩
  · have := pageStart_add_cap_le (P := P) hlt
    omega

theorem EndLoc.le_loc (h : EndLoc P b p) (h' : Loc P b p') : p ≤ p' := by
  obtain ⟨k, r, hr, rfl, rfl⟩ := h
  obtain ⟨k', r', hr', heq, rfl⟩ := h'
  obtain ⟨rfl, rfl⟩ := page_unique hr hr' heq
  split <;> omega

theorem Loc.lt_endLoc (h : Loc P b p) (h' : EndLoc P b' p') (hb : b < b') : p < p' := by
  obtain ⟨k, r, hr, rfl, rfl⟩ := h
  obtain ⟨k', r', hr', rfl, rfl⟩ := h'
  have hcap := P.hdr_add_cap k
  obtain hlt | ⟨rfl, hlt⟩ := page_lt_or_eq hr' hb
  · have := mul_add_blcksz_le (P := P) hlt
    split <;> omega
  · rw [if_neg (by omega)]
    omega

theorem Loc.lt_loc (h : Loc P b p) (h' : Loc P b' p') (hb : b < b') : p < p' := by
  have ⟨k, r, hr, hb', _⟩ := h'
  have hend : EndLoc P b' _ := ⟨k, r, hr, hb', rfl⟩
  exact Nat.lt_of_lt_of_le (h.lt_endLoc hend hb) (hend.le_loc h')

theorem exists_loc (P : Paged) (b : Nat) : ∃ p, Loc P b p := by
  obtain ⟨k, r, hr, hb⟩ := exists_page P b
  exact ⟨_, k, r, hr, hb, rfl⟩

theorem EndLoc.lt_endLoc (h : EndLoc P b p) (h' : EndLoc P b' p') (hb : b < b') : p < p' := by
  obtain ⟨q, hq⟩ := exists_loc P b
  exact Nat.lt_of_le_of_lt (h.le_loc hq) (hq.lt_endLoc h' hb)

/-- Behind at least one byte of a page, up to its end, the end of what was written
is the address reached. -/
theorem endLoc_of_pos (hpos : 0 < r) (hr : r ≤ P.cap k) :
    EndLoc P (P.pageStart k + r) (k * P.blcksz + P.hdr k + r) := by
  obtain hlt | rfl := Nat.lt_or_eq_of_le hr
  · exact ⟨k, r, hlt, rfl, (if_neg (Nat.ne_of_gt hpos)).symm⟩
  · refine ⟨k + 1, 0, P.cap_pos _, rfl, ?_⟩
    rw [if_pos rfl, Nat.add_assoc, P.hdr_add_cap, Nat.succ_mul]

theorem EndLoc.unique (h : EndLoc P b p) (h' : EndLoc P b p') : p = p' := by
  obtain ⟨k, r, hr, rfl, rfl⟩ := h
  obtain ⟨k', r', hr', heq, rfl⟩ := h'
  obtain ⟨rfl, rfl⟩ := page_unique hr hr' heq
  rfl

end GreenPipeline.Core.PagedSpace
