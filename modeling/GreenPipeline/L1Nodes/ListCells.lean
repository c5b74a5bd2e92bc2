import GreenPipeline.Core.CellHeap
import Mathlib.Data.List.Nodup

/-!
# Lists of cells

`src/backend/nodes/list.c`: a `List` is a header with the first and the last cell and the number
of cells, and every cell points to the next one. The header is changed in place; it is a value
here, `none` being `NIL`. The functions return `none` if they follow a pointer to a cell that is
not allocated.

Sources: `src/include/nodes/pg_list.h`.

Results:

* `Represents.walk`: reading a list from its head gives its entries.
* `listDeleteCell_spec`, `lappendCell_spec`, `lcons_spec`: what the operations do to the entries.
  They leave all cells apart from those of the list alone (`Frame`).
-/
namespace GreenPipeline.L1.ListCells

open GreenPipeline.Core.CellHeap List Option

variable {α : Type*}

/-- mirrors pg_list.h:53-62 -/
structure ListCell (α : Type*) where
  data : α
  next : Option ℕ

/-- mirrors pg_list.h:45-51 -/
structure PgList where
  length : ℕ
  head : Option ℕ
  tail : Option ℕ

abbrev CellHeap (α : Type*) := Heap (ListCell α)

/-- mirrors pg_list.h:76-80 -/
def listHead (list : Option PgList) : Option ℕ := list.bind PgList.head

/-! ## The functions -/

/-- The loop of `list_free_private`, for at most `n` cells. mirrors list.c:1109-1118 -/
def freeCells : ℕ → CellHeap α → Option ℕ → Option (CellHeap α)
  | _, h, none => some h
  | 0, _, some _ => none
  | n + 1, h, some a => (h.read a).bind fun c => freeCells n (h.free a) c.next

/-- mirrors list.c:527-560 -/
def listDeleteCell (h : CellHeap α) (list : Option PgList) (cell : ℕ) (prev : Option ℕ) :
    Option (CellHeap α × Option PgList) :=
  list.bind fun l =>
    if l.length = 1 then (freeCells l.length h l.head).map fun h => (h, none)
    else
      (h.read cell).bind fun c =>
        let tail := if l.tail = some cell then prev else l.tail
        match prev with
        | some p => (h.read p).map fun d =>
          ((h.write p { d with next := c.next }).free cell,
            some { length := l.length - 1, head := l.head, tail := tail })
        | none => some (h.free cell, some { length := l.length - 1, head := c.next, tail := tail })

/-- mirrors list.c:184-218 -/
def lappendCell (al : Allocator) (h : CellHeap α) (list : Option PgList) (prev : ℕ) (datum : α) :
    Option (CellHeap α × Option PgList) :=
  list.bind fun l => (h.read prev).map fun c =>
    let new := h.alloc al { data := datum, next := c.next }
    (new.2.write prev { c with next := some new.1 },
      some ⟨l.length + 1, l.head, if l.tail = some prev then some new.1 else l.tail⟩)

/-- mirrors list.c:258-271 -/
def lcons (al : Allocator) (h : CellHeap α) (list : Option PgList) (datum : α) :
    CellHeap α × Option PgList :=
  match list with
  | none =>
    let new := h.alloc al { data := datum, next := none }
    (new.2, some { length := 1, head := some new.1, tail := some new.1 })
  | some l =>
    let new := h.alloc al { data := datum, next := l.head }
    (new.2, some { length := l.length + 1, head := some new.1, tail := l.tail })

/-- The entries from a cell on, at most `n` of them. -/
def walk (h : CellHeap α) : ℕ → Option ℕ → Option (List α)
  | _, none => some []
  | 0, some _ => none
  | n + 1, some a => (h.read a).bind fun c => (walk h n c.next).map (c.data :: ·)

/-- The entries of a list. -/
def listEntries (h : CellHeap α) (list : Option PgList) : Option (List α) :=
  match list with
  | none => some []
  | some l => walk h l.length l.head

/-! ## Segments -/

/-- The cells, with their addresses, from one pointer to another. -/
def Seg (h : CellHeap α) : Option ℕ → List (ℕ × α) → Option ℕ → Prop
  | p, [], q => p = q
  | p, (a, x) :: cs, q => p = some a ∧ ∃ next, h.read a = some ⟨x, next⟩ ∧ Seg h next cs q

variable {h h' : CellHeap α} {p q r : Option ℕ} {cs ds : List (ℕ × α)}

theorem seg_append : Seg h p (cs ++ ds) r ↔ ∃ q, Seg h p cs q ∧ Seg h q ds r := by
  induction cs generalizing p with
  | nil => simp [Seg]
  | cons c cs ih =>
    simp only [cons_append, Seg, ih]
    constructor
    · rintro ⟨hp, next, hread, q, hcs, hds⟩
      exact ⟨q, ⟨hp, next, hread, hcs⟩, hds⟩
    · rintro ⟨q, ⟨hp, next, hread, hcs⟩, hds⟩
      exact ⟨hp, next, hread, q, hcs, hds⟩

theorem Seg.frame (hseg : Seg h p cs q) (hframe : ∀ c ∈ cs, h'.read c.1 = h.read c.1) :
    Seg h' p cs q := by
  induction cs generalizing p with
  | nil => exact hseg
  | cons c cs ih =>
    obtain ⟨hp, next, hread, hrest⟩ := hseg
    refine ⟨hp, next, ?_, ih hrest (forall_mem_cons.1 hframe).2⟩
    rw [hframe c (mem_cons_self ..), hread]

theorem Seg.read_ne_none (hseg : Seg h p cs q) {c : ℕ × α} (hc : c ∈ cs) : h.read c.1 ≠ none := by
  induction cs generalizing p with
  | nil => cases hc
  | cons d cs ih =>
    obtain ⟨-, next, hread, hrest⟩ := hseg
    rcases mem_cons.mp hc with rfl | hc
    · rw [hread]
      exact some_ne_none _
    · exact ih hrest hc

/-- A pointer to the first of some cells. -/
def firstOf (cs : List (ℕ × α)) : Option ℕ := cs.head?.map Prod.fst

/-- A pointer to the last of some cells. -/
def lastOf (cs : List (ℕ × α)) : Option ℕ := cs.getLast?.map Prod.fst

theorem Seg.eq_firstOf (hseg : Seg h p cs none) : p = firstOf cs := by
  cases cs with
  | nil => exact hseg
  | cons c cs => exact hseg.1

variable {a : ℕ}

/-- The last cell of a segment is made to point elsewhere. -/
theorem Seg.redirect {x : α} {next : Option ℕ} (hseg : Seg h p (cs ++ [(a, x)]) q)
    (hnodup : ((cs ++ [(a, x)]).map Prod.fst).Nodup) :
    Seg (h.write a ⟨x, next⟩) p (cs ++ [(a, x)]) next := by
  obtain ⟨r, hcs, hlast, -⟩ := seg_append.mp hseg
  refine seg_append.mpr ⟨r, hcs.frame fun c hc => Heap.read_write_of_ne ?_, hlast, next,
    Heap.read_write_self, rfl⟩
  rintro rfl
  rw [map_append, nodup_append] at hnodup
  exact hnodup.2.2 c.1 (mem_map_of_mem hc) c.1 (by simp) rfl

/-! ## Lists -/

/-- The list consists of these cells. -/
structure Represents (h : CellHeap α) (list : Option PgList) (cs : List (ℕ × α)) : Prop where
  seg : Seg h (listHead list) cs none
  nodup : (cs.map Prod.fst).Nodup
  nil : list = none ↔ cs = []
  header : ∀ l, list = some l → l.length = cs.length ∧ l.tail = lastOf cs

/-- Cells apart from those of `cs` stay as they are. -/
def Frame (h h' : CellHeap α) (cs : List (ℕ × α)) : Prop :=
  ∀ a, a ∉ cs.map Prod.fst → h.read a ≠ none → h'.read a = h.read a

theorem Frame.trans {h'' : CellHeap α} (hfirst : Frame h h' cs) (hsecond : Frame h' h'' ds)
    (hsub : ds ⊆ cs) : Frame h h'' cs := by
  intro a ha hread
  have hsame := hfirst a ha hread
  rw [hsecond a (fun hmem => ha (map_subset Prod.fst hsub hmem)) (by rwa [hsame]), hsame]

theorem represents_nil (h : CellHeap α) : Represents h none [] := ⟨rfl, nodup_nil, by simp, by simp⟩

theorem walk_seg (hseg : Seg h p cs none) : walk h cs.length p = some (cs.map Prod.snd) := by
  induction cs generalizing p with
  | nil =>
    rw [show p = none from hseg]
    rfl
  | cons c cs ih =>
    obtain ⟨rfl, next, hread, hrest⟩ := hseg
    rw [length_cons, walk, hread, bind_some, ih hrest]
    rfl

variable {list : Option PgList}

/-- Reading a list from its head gives its entries. -/
theorem Represents.walk (hr : Represents h list cs) :
    listEntries h list = some (cs.map Prod.snd) := by
  cases list with
  | none => rw [hr.nil.mp rfl]; rfl
  | some l =>
    rw [listEntries, (hr.header l rfl).1]
    exact walk_seg hr.seg

theorem Represents.frame (hr : Represents h list cs) (hframe : ∀ c ∈ cs, h'.read c.1 = h.read c.1) :
    Represents h' list cs :=
  ⟨hr.seg.frame hframe, hr.nodup, hr.nil, hr.header⟩

theorem Represents.exists_header (hr : Represents h list cs) (hne : cs ≠ []) :
    ∃ l, list = some l := by
  cases hlist : list with
  | none => exact absurd (hr.nil.mp hlist) hne
  | some l => exact ⟨l, rfl⟩

theorem lastOf_concat (cs : List (ℕ × α)) (c : ℕ × α) : lastOf (cs ++ [c]) = some c.1 := by
  rw [lastOf, getLast?_concat]
  rfl

/-! ## Deleting a cell -/

section

variable {x : α} (hnodup : ((cs ++ (a, x) :: ds).map Prod.fst).Nodup)
include hnodup

/-- What distinct addresses say about a cell in the middle. -/
theorem nodup_middle : ((cs ++ ds).map Prod.fst).Nodup ∧ (∀ c ∈ cs, c.1 ≠ a) ∧ (∀ d ∈ ds, d.1 ≠ a) ∧
    ∀ c ∈ cs, ∀ d ∈ ds, c.1 ≠ d.1 := by
  simp only [map_append, map_cons, nodup_append, nodup_cons] at hnodup ⊢
  obtain ⟨hcs, ⟨ha, hds⟩, hdisj⟩ := hnodup
  refine ⟨⟨hcs, hds, fun c hc d hd => hdisj c hc d (mem_cons_of_mem a hd)⟩, ?_, ?_, ?_⟩
  · intro c hc
    exact hdisj c.1 (mem_map_of_mem hc) a (mem_cons_self ..)
  · rintro d hd rfl
    exact ha (mem_map_of_mem hd)
  · intro c hc d hd
    exact hdisj c.1 (mem_map_of_mem hc) d.1 (mem_cons_of_mem a (mem_map_of_mem hd))

/-- The tail of the header after a cell is gone. -/
theorem lastOf_delete :
    (if lastOf (cs ++ (a, x) :: ds) = some a then lastOf cs else lastOf (cs ++ (a, x) :: ds)) =
      lastOf (cs ++ ds) := by
  obtain ⟨-, -, hds, -⟩ := nodup_middle hnodup
  rcases eq_nil_or_concat' ds with rfl | ⟨ds, d, rfl⟩
  · rw [lastOf_concat, if_pos rfl, append_nil]
  · have hlast : lastOf (cs ++ (a, x) :: (ds ++ [d])) = some d.1 := by
      rw [← cons_append, ← append_assoc, lastOf_concat]
    rw [hlast, if_neg fun h => hds d (by simp) (some.inj h), ← append_assoc, lastOf_concat]

end

theorem listDeleteCell_spec {x : α} (hr : Represents h list (cs ++ (a, x) :: ds)) :
    ∃ h' list', listDeleteCell h list a (lastOf cs) = some (h', list') ∧
      Represents h' list' (cs ++ ds) ∧ Frame h h' (cs ++ (a, x) :: ds) := by
  obtain ⟨l, rfl⟩ := hr.exists_header (by simp)
  obtain ⟨hlength, htail⟩ := hr.header l rfl
  obtain ⟨hnodup, hcs, hds, hdisj⟩ := nodup_middle hr.nodup
  obtain ⟨q, hfirst, rfl, next, hread, hrest⟩ := seg_append.mp hr.seg
  rw [length_append, length_cons] at hlength
  have hfree : ∀ {h' : CellHeap α},
      (∀ c, c ∉ (cs ++ (a, x) :: ds).map Prod.fst → h'.read c = h.read c) →
      Frame h (h'.free a) (cs ++ (a, x) :: ds) := by
    intro h' hsame c hc _
    rw [Heap.read_free_of_ne, hsame c hc]
    rintro rfl
    exact hc (by simp)
  rw [listDeleteCell, bind_some]
  by_cases hone : l.length = 1
  · -- the only cell
    obtain ⟨rfl, rfl⟩ : cs = [] ∧ ds = [] := by
      constructor <;> (apply eq_nil_of_length_eq_zero; omega)
    obtain rfl : next = none := hrest
    have hhead : l.head = some a := hfirst
    rw [if_pos hone, hone, hhead]
    simp only [freeCells, hread, bind_some, map_some]
    exact ⟨_, _, rfl, represents_nil _, hfree fun c _ => rfl⟩
  · rw [if_neg hone, hread, bind_some, htail, lastOf_delete hr.nodup]
    have hne : cs ++ ds ≠ [] := by
      intro h
      obtain ⟨rfl, rfl⟩ := append_eq_nil_iff.mp h
      exact hone hlength
    have hnil : ∀ l' : PgList, some l' = none ↔ cs ++ ds = [] :=
      fun l' => iff_of_false (some_ne_none l') hne
    have hheader : ∀ (head : Option ℕ) (l' : PgList),
        some (⟨l.length - 1, head, lastOf (cs ++ ds)⟩ : PgList) = some l' →
        l'.length = (cs ++ ds).length ∧ l'.tail = lastOf (cs ++ ds) := by
      rintro head l' ⟨⟩
      exact ⟨by simp only [length_append]; omega, rfl⟩
    rcases eq_nil_or_concat' cs with rfl | ⟨cs, ⟨b, y⟩, rfl⟩
    · -- the first cell
      refine ⟨_, _, rfl, ⟨?_, hnodup, hnil _, hheader _⟩, hfree fun c _ => rfl⟩
      exact hrest.frame fun d hd => Heap.read_free_of_ne (hds d hd)
    · -- a cell behind another one
      have hb : h.read b = some ⟨y, some a⟩ := by
        obtain ⟨r, -, rfl, next', hb, rfl⟩ := seg_append.mp hfirst
        exact hb
      rw [lastOf_concat]
      simp only [hb, map_some]
      refine ⟨_, _, rfl, ⟨?_, hnodup, hnil _, hheader _⟩,
        hfree fun c hc => Heap.read_write_of_ne ?_⟩
      · have hredirect : Seg (h.write b ⟨y, next⟩) l.head (cs ++ [(b, y)]) next := by
          refine hfirst.redirect ?_
          rw [map_append, nodup_append] at hnodup
          exact hnodup.1
        refine seg_append.mpr ⟨next, hredirect.frame fun c hc => Heap.read_free_of_ne (hcs c hc),
          hrest.frame fun d hd => ?_⟩
        rw [Heap.read_free_of_ne (hds d hd),
          Heap.read_write_of_ne (hdisj (b, y) (by simp) d hd).symm]
      · rintro rfl
        exact hc (by simp)

/-! ## Inserting a cell -/

/-- The tail of the header after a cell is put behind another one. -/
theorem lastOf_insert {x : α} (hds : ∀ d ∈ ds, d.1 ≠ a) (b : ℕ) (y : α) :
    (if lastOf (cs ++ (a, x) :: ds) = some a then some b else lastOf (cs ++ (a, x) :: ds)) =
      lastOf (cs ++ (a, x) :: (b, y) :: ds) := by
  rcases eq_nil_or_concat' ds with rfl | ⟨ds, d, rfl⟩
  · rw [lastOf_concat, if_pos rfl, append_cons, lastOf_concat]
  · have hlast : lastOf (cs ++ (a, x) :: (ds ++ [d])) = some d.1 := by
      rw [← cons_append, ← append_assoc, lastOf_concat]
    rw [hlast, if_neg fun h => hds d (by simp) (some.inj h), ← cons_append, ← cons_append,
      ← append_assoc, lastOf_concat]

section Insert

variable (al : Allocator)

theorem lappendCell_spec {x : α} (y : α) (hr : Represents h list (cs ++ (a, x) :: ds)) :
    ∃ h' list' b, lappendCell al h list a y = some (h', list') ∧ h.read b = none ∧
      Represents h' list' (cs ++ (a, x) :: (b, y) :: ds) ∧
      Frame h h' (cs ++ (a, x) :: ds) := by
  obtain ⟨l, rfl⟩ := hr.exists_header (by simp)
  obtain ⟨hlength, htail⟩ := hr.header l rfl
  obtain ⟨-, -, hds, hdisj⟩ := nodup_middle hr.nodup
  obtain ⟨q, hfirst, rfl, next, hread, hrest⟩ := seg_append.mp hr.seg
  have hnew : ∀ c ∈ cs ++ (a, x) :: ds, c.1 ≠ al.pick h.used :=
    fun c hc => Heap.ne_pick_of_read al (hr.seg.read_ne_none hc)
  have ha := hnew (a, x) (by simp)
  rw [lappendCell, bind_some, hread, map_some]
  refine ⟨_, _, al.pick h.used, rfl, Heap.read_pick al, ⟨?_, ?_, by simp, ?_⟩, ?_⟩
  · have hupto : Seg h l.head (cs ++ [(a, x)]) next :=
      seg_append.mpr ⟨some a, hfirst, rfl, next, hread, rfl⟩
    have halloc : Seg (h.alloc al ⟨y, next⟩).2 l.head (cs ++ [(a, x)]) next := by
      refine hupto.frame fun c hc => Heap.read_write_of_ne (hnew c ?_)
      rw [append_cons]
      exact mem_append_left ds hc
    have hnodup : ((cs ++ [(a, x)]).map Prod.fst).Nodup := by
      have h := hr.nodup
      rw [append_cons, map_append, nodup_append] at h
      exact h.1
    rw [append_cons]
    refine seg_append.mpr ⟨_, halloc.redirect hnodup, rfl, next, ?_, hrest.frame fun d hd => ?_⟩
    · rw [Heap.read_write_of_ne ha.symm]
      exact Heap.read_write_self
    · rw [Heap.read_write_of_ne (hds d hd)]
      exact Heap.read_write_of_ne (hnew d (by simp [hd]))
  · have hall := hr.nodup
    have hfresh : al.pick h.used ∉ (cs ++ (a, x) :: ds).map Prod.fst := by
      intro hmem
      obtain ⟨c, hc, heq⟩ := mem_map.mp hmem
      exact hnew c hc heq
    rw [append_cons, map_append, map_cons]
    rw [append_cons, map_append] at hall hfresh
    rw [List.nodup_middle]
    exact nodup_cons.mpr ⟨hfresh, hall⟩
  · rintro l' ⟨⟩
    refine ⟨?_, ?_⟩
    · simp only [length_append, length_cons] at hlength ⊢
      omega
    · rw [← lastOf_insert hds, ← htail]
      rfl
  · intro c hc hcread
    have hca : c ≠ a := by
      rintro rfl
      exact hc (by simp)
    rw [Heap.read_write_of_ne hca]
    exact Heap.read_write_of_ne (Heap.ne_pick_of_read al hcread)

theorem lcons_spec (y : α) (hr : Represents h list cs) :
    ∃ b, h.read b = none ∧ Represents (lcons al h list y).1 (lcons al h list y).2 ((b, y) :: cs) ∧
      Frame h (lcons al h list y).1 cs := by
  have hnew : ∀ c ∈ cs, c.1 ≠ al.pick h.used :=
    fun c hc => Heap.ne_pick_of_read al (hr.seg.read_ne_none hc)
  have hnodup : (((al.pick h.used, y) :: cs).map Prod.fst).Nodup := by
    refine nodup_cons.mpr ⟨?_, hr.nodup⟩
    intro hmem
    obtain ⟨c, hc, heq⟩ := mem_map.mp hmem
    exact hnew c hc heq
  refine ⟨al.pick h.used, Heap.read_pick al, ?_⟩
  cases list with
  | none =>
    obtain rfl := hr.nil.mp rfl
    refine ⟨⟨⟨rfl, none, Heap.read_write_self, rfl⟩, hnodup, by simp [lcons], ?_⟩,
      fun c _ hc => Heap.read_alloc_of_read al hc⟩
    rintro l' ⟨⟩
    exact ⟨rfl, rfl⟩
  | some l =>
    obtain ⟨hlength, htail⟩ := hr.header l rfl
    refine ⟨⟨⟨rfl, l.head, Heap.read_write_self,
      hr.seg.frame fun c hc => Heap.read_write_of_ne (hnew c hc)⟩, hnodup, by simp [lcons], ?_⟩,
      fun c _ hc => Heap.read_alloc_of_read al hc⟩
    rintro l' ⟨⟩
    have hne : cs ≠ [] := fun h => some_ne_none l (hr.nil.mpr h)
    obtain ⟨cs, c, rfl⟩ := (eq_nil_or_concat' cs).resolve_left hne
    rw [lastOf_concat] at htail
    refine ⟨by rw [length_cons, hlength], ?_⟩
    rw [← cons_append, lastOf_concat]
    exact htail

end Insert

end GreenPipeline.L1.ListCells
