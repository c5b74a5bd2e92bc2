import GreenPipeline.Core.Bsearch
import Mathlib.Tactic.Common

/-!
# Disjoint intervals given by their sorted boundaries

Half-open intervals over a type with a comparison. All their boundaries are put into one
list, sorted by value with an upper boundary before a lower one of the same value; of
boundaries with one value only the first is kept. To find the interval of a point it is
enough to look at the first boundary above it.

Results:

* `mem_of_find_upper`, `find_upper_of_mem`: the first boundary above a point is the upper boundary
  of an interval just when the point lies in it.
* `find_distinct`: dropping repeated values does not change the first boundary above a point.
* `pairwise_distinct`: what is kept is strictly increasing.
* `upper_mem_distinct`: no upper boundary is dropped.
* `bsearch_find`: a binary search finds the first boundary above a point.
* `not_meets_of_find_none`, `not_meets_of_find_lower`: when a further interval fits between the
  others.
-/
namespace GreenPipeline.Core.Intervals

open Std GreenPipeline.Core.Bsearch List TransCmp OrientedCmp

structure Interval (α : Type*) where
  lower : α
  upper : α

/-- A boundary of the `index`-th interval. -/
structure Boundary (α : Type*) where
  index : Nat
  value : α
  lower : Bool

section
variable {α : Type*}

/-- Both boundaries of every interval. -/
def boundaries (is : List (Interval α)) : List (Boundary α) :=
  is.zipIdx.flatMap fun p => [⟨p.2, p.1.lower, true⟩, ⟨p.2, p.1.upper, false⟩]

theorem mem_boundaries {is : List (Interval α)} {b : Boundary α} :
    b ∈ boundaries is ↔ ∃ I, is[b.index]? = some I ∧
    b.value = if b.lower = true then I.lower else I.upper := by
  simp only [boundaries, mem_flatMap, mem_cons, not_mem_nil, or_false]
  constructor
  · rintro ⟨⟨I, i⟩, hmem, rfl | rfl⟩
    · exact ⟨I, mem_zipIdx_iff_getElem?.1 hmem, rfl⟩
    · exact ⟨I, mem_zipIdx_iff_getElem?.1 hmem, rfl⟩
  · rintro ⟨I, hI, hvalue⟩
    refine ⟨(I, b.index), mem_zipIdx_iff_getElem?.2 hI, ?_⟩
    obtain ⟨index, value, lower⟩ := b
    cases lower with
    | true => exact .inl (congrArg (Boundary.mk index · true) hvalue)
    | false => exact .inr (congrArg (Boundary.mk index · false) hvalue)

variable (cmp : α → α → Ordering)

def Interval.Nonempty (I : Interval α) : Prop := cmp I.lower I.upper = .lt

/-- The lower boundary belongs to the interval, the upper one does not. -/
def Interval.Mem (x : α) (I : Interval α) : Prop :=
  (cmp I.lower x).isLE = true ∧ cmp I.upper x = .gt

/-- Two nonempty intervals that have a point of the order in common. -/
def Interval.Meets (I J : Interval α) : Prop :=
  cmp I.lower J.upper = .lt ∧ cmp J.lower I.upper = .lt

/-- Nonempty intervals of which no two meet. -/
structure Separated (is : List (Interval α)) : Prop where
  nonempty : ∀ I ∈ is, I.Nonempty cmp
  apart : ∀ {i j : Nat} {I J : Interval α}, i ≠ j → is[i]? = some I → is[j]? = some J →
    ¬ I.Meets cmp J

/-- By value, an upper boundary before a lower one. -/
def boundaryCmp (a b : Boundary α) : Ordering :=
  (cmp a.value b.value).then (compare a.lower b.lower)

/-- What is kept of a sorted list: the boundaries that differ from the one before them. -/
def distinct : Option (Boundary α) → List (Boundary α) → List (Boundary α)
  | _, [] => []
  | prev, cur :: rest =>
    if prev.all (fun prev => cmp cur.value prev.value != .eq) then cur :: distinct (some cur) rest
    else distinct (some cur) rest

/-- The boundary lies above the point. -/
def above (x : α) (b : Boundary α) : Bool := cmp b.value x == .gt

end

section
variable {α : Type*} {cmp : α → α → Ordering}

section

variable {a b : Boundary α} (h : (boundaryCmp cmp a b).isLE = true)
include h

theorem isLE_of_boundaryCmp : (cmp a.value b.value).isLE = true := by
  rw [boundaryCmp, Ordering.isLE_then_iff_and] at h
  exact h.1

theorem lt_of_lower_before_upper (ha : a.lower = true) (hb : b.lower = false) :
    cmp a.value b.value = .lt := by
  rw [boundaryCmp, Ordering.isLE_then_iff_or, ha, hb] at h
  obtain h | ⟨-, h⟩ := h
  · exact h
  · cases h

end

variable {i : Nat}

/-- No boundary stands behind a lower one of the same value. -/
theorem boundaryCmp_lower_eq_gt {b : Boundary α} {x : α} :
    boundaryCmp cmp b ⟨i, x, true⟩ = .gt ↔ cmp b.value x = .gt := by
  rw [boundaryCmp]
  cases cmp b.value x <;> cases b.lower <;> simp +decide

theorem boundaryCmp_upper_eq_lt {b : Boundary α} (hlower : b.lower = true) {x : α} :
    boundaryCmp cmp b ⟨i, x, false⟩ = .lt ↔ cmp b.value x = .lt := by
  rw [boundaryCmp, hlower]
  cases cmp b.value x <;> simp +decide

/-- The boundaries of separated intervals, sorted. -/
structure Arranged (cmp : α → α → Ordering) (is : List (Interval α))
    (bs : List (Boundary α)) : Prop where
  separated : Separated cmp is
  perm : bs.Perm (boundaries is)
  sorted : bs.Pairwise fun a b => (boundaryCmp cmp a b).isLE = true

/-- A boundary above the point stands at or behind the first one. -/
theorem Arranged.le_of_above (h : Arranged cmp is bs) {b c : Boundary α}
    (hb : bs.find? (above cmp x) = some b) (hc : c ∈ bs) (habove : cmp c.value x = .gt) :
    c = b ∨ (boundaryCmp cmp b c).isLE = true := by
  obtain ⟨-, pre, post, rfl, hpre⟩ := find?_eq_some_iff_append.1 hb
  obtain hc | hc := mem_append.1 hc
  · have hnot := hpre c hc
    rw [above, habove] at hnot
    cases hnot
  · obtain rfl | hc := mem_cons.1 hc
    · exact .inl rfl
    · have hsorted := (pairwise_append.1 h.sorted).2.1
      exact .inr ((pairwise_cons.1 hsorted).1 c hc)

theorem Arranged.mem (h : Arranged cmp is bs) {I : Interval α} (hI : is[i]? = some I) :
    (⟨i, I.lower, true⟩ : Boundary α) ∈ bs ∧ (⟨i, I.upper, false⟩ : Boundary α) ∈ bs :=
  ⟨h.perm.mem_iff.2 (mem_boundaries.2 ⟨I, hI, rfl⟩),
    h.perm.mem_iff.2 (mem_boundaries.2 ⟨I, hI, rfl⟩)⟩

theorem above_iff {b : Boundary α} : above cmp x b = true ↔ cmp b.value x = .gt := beq_iff_eq

theorem distinct_subset {prev : Option (Boundary α)} {b : Boundary α}
    (h : b ∈ distinct cmp prev bs) : b ∈ bs := by
  induction bs generalizing prev with
  | nil => exact h
  | cons cur rest ih =>
    rw [distinct] at h
    split at h
    · obtain rfl | h := mem_cons.1 h
      · exact mem_cons_self
      · exact mem_cons_of_mem _ (ih h)
    · exact mem_cons_of_mem _ (ih h)

variable [TransCmp cmp]

instance : TransCmp (boundaryCmp cmp) :=
  have : TransCmp fun a b : Boundary α => cmp a.value b.value :=
    { eq_swap := eq_swap, isLE_trans := isLE_trans }
  inferInstanceAs
    (TransCmp (compareLex (fun a b => cmp a.value b.value) (compareOn Boundary.lower)))

theorem not_lt_iff {a b : α} : ¬ cmp a b = .lt ↔ (cmp b a).isLE = true := by
  rw [Ordering.isLE_iff_ne_gt, OrientedCmp.gt_iff_lt]

theorem lt_irrefl {a : α} : ¬ cmp a a = .lt := by
  intro h
  have hself : cmp a a = .eq := ReflCmp.compare_self
  rw [hself] at h
  cases h

theorem Interval.mem_lower {I : Interval α} (h : I.Nonempty cmp) : I.Mem cmp I.lower := by
  have hself : cmp I.lower I.lower = .eq := ReflCmp.compare_self
  exact ⟨by rw [hself]; rfl, gt_iff_lt.2 h⟩

variable {is : List (Interval α)} {bs : List (Boundary α)} {x : α}

omit [TransCmp cmp] in
theorem above_of_find {b : Boundary α} (hb : bs.find? (above cmp x) = some b) :
    cmp b.value x = .gt :=
  above_iff.1 (find?_some hb)

/-- If the first boundary above the point is an upper one, the point lies in its interval. -/
theorem Arranged.mem_of_find_upper (h : Arranged cmp is bs) {b : Boundary α}
    (hb : bs.find? (above cmp x) = some b) (hupper : b.lower = false) :
    ∃ I, is[b.index]? = some I ∧ I.Mem cmp x := by
  obtain ⟨I, hI, hvalue⟩ := mem_boundaries.1 (h.perm.mem_iff.1 (mem_of_find?_eq_some hb))
  rw [hupper, if_neg (by simp)] at hvalue
  have habove := above_of_find hb
  refine ⟨I, hI, ?_, hvalue ▸ habove⟩
  rw [Ordering.isLE_iff_ne_gt]
  intro hgt
  -- the lower boundary would come first
  obtain heq | hle := h.le_of_above hb (h.mem hI).1 hgt
  · rw [← heq] at hupper
    cases hupper
  · have hle' := isLE_of_boundaryCmp hle
    rw [hvalue] at hle'
    exact not_lt_iff.2 hle' (h.separated.nonempty I (mem_of_getElem? hI))

/-- The first boundary above a point of an interval is the interval's upper one. -/
theorem Arranged.find_upper_of_mem (h : Arranged cmp is bs) {I : Interval α} (hI : is[i]? = some I)
    (hx : I.Mem cmp x) : bs.find? (above cmp x) = some ⟨i, I.upper, false⟩ := by
  have hupper := (h.mem hI).2
  obtain ⟨b, hb⟩ : ∃ b, bs.find? (above cmp x) = some b := by
    rw [← Option.isSome_iff_exists, find?_isSome]
    exact ⟨_, hupper, by simp [above, hx.2]⟩
  rw [hb, Option.some.injEq]
  obtain heq | hle := h.le_of_above hb hupper hx.2
  · exact heq.symm
  obtain ⟨J, hJ, hvalue⟩ := mem_boundaries.1 (h.perm.mem_iff.1 (mem_of_find?_eq_some hb))
  have habove := gt_iff_lt.1 (above_of_find hb)
  have hJlt := h.separated.nonempty J (mem_of_getElem? hJ)
  obtain ⟨j, value, lower⟩ := b
  cases lower with
  | true =>
    rw [if_pos rfl] at hvalue
    dsimp only at hvalue hJ
    subst hvalue
    exfalso
    have hlt := lt_of_lower_before_upper hle rfl rfl
    by_cases hij : j = i
    · subst hij
      cases hJ.symm.trans hI
      exact not_lt_iff.2 hx.1 habove
    · -- the other interval would end before this one begins
      have hend := not_lt_iff.1 fun hmeet => h.separated.apart hij hJ hI ⟨hlt, hmeet⟩
      exact lt_irrefl (lt_trans habove (lt_of_lt_of_isLE hJlt (isLE_trans hend hx.1)))
  | false =>
    rw [if_neg (by simp)] at hvalue
    dsimp only at hvalue hJ
    subst hvalue
    by_cases hij : j = i
    · subst hij
      cases hJ.symm.trans hI
      rfl
    · exfalso
      have hlt := lt_of_isLE_of_lt hx.1 habove
      have hend := not_lt_iff.1 fun hmeet => h.separated.apart hij hJ hI ⟨hmeet, hlt⟩
      exact lt_irrefl (lt_of_isLE_of_lt hend (lt_of_lt_of_isLE hJlt (isLE_of_boundaryCmp hle)))

/-! ## Dropping repeated values -/

theorem above_congr {a b : Boundary α} (h : cmp a.value b.value = .eq) :
    above cmp x a = above cmp x b := by
  rw [above, above, congr_left h]

theorem find_distinct {prev : Option (Boundary α)}
    (hprev : ∀ p, prev = some p → above cmp x p = false) :
    (distinct cmp prev bs).find? (above cmp x) = bs.find? (above cmp x) := by
  induction bs generalizing prev with
  | nil => rfl
  | cons cur rest ih =>
    rw [distinct, find?_cons]
    cases hcur : above cmp x cur with
    | true =>
      -- the value is not a repeated one: the boundary before would be above the point too
      have hkeep : prev.all (fun prev => cmp cur.value prev.value != .eq) = true := by
        cases prev with
        | none => rfl
        | some p =>
          rw [Option.all_some, bne_iff_ne]
          intro heq
          rw [above_congr heq, hprev p rfl] at hcur
          cases hcur
      rw [if_pos hkeep, find?_cons, hcur]
    | false =>
      have htail : (distinct cmp (some cur) rest).find? (above cmp x) = rest.find? (above cmp x) :=
        ih fun p hp => by cases hp; exact hcur
      split
      · rw [find?_cons, hcur]
        exact htail
      · exact htail

/-- What is kept behind `p` lies strictly above it. -/
theorem lt_of_mem_distinct {p b : Boundary α} (hle : ∀ c ∈ bs, (cmp p.value c.value).isLE = true)
    (hsorted : bs.Pairwise fun a b => (cmp a.value b.value).isLE = true)
    (h : b ∈ distinct cmp (some p) bs) :
    cmp p.value b.value = .lt := by
  induction bs generalizing p with
  | nil => cases h
  | cons cur rest ih =>
    obtain ⟨hcur, hrest⟩ := pairwise_cons.1 hsorted
    have hpcur := hle cur mem_cons_self
    rw [distinct, Option.all_some] at h
    split at h
    · rename_i hne
      have hlt : cmp p.value cur.value = .lt := by
        rw [bne_iff_ne, ne_eq, OrientedCmp.eq_comm] at hne
        rw [Ordering.isLE_iff_eq_lt_or_eq_eq] at hpcur
        exact hpcur.resolve_right hne
      obtain rfl | h := mem_cons.1 h
      · exact hlt
      · exact lt_trans hlt (ih hcur hrest h)
    · exact lt_of_isLE_of_lt hpcur (ih hcur hrest h)

theorem pairwise_distinct {prev : Option (Boundary α)}
    (hsorted : bs.Pairwise fun a b => (cmp a.value b.value).isLE = true) :
    (distinct cmp prev bs).Pairwise fun a b => cmp a.value b.value = .lt := by
  induction bs generalizing prev with
  | nil => exact .nil
  | cons cur rest ih =>
    obtain ⟨hcur, hrest⟩ := pairwise_cons.1 hsorted
    rw [distinct]
    split
    · exact .cons (fun b hb => lt_of_mem_distinct hcur hrest hb) (ih hrest)
    · exact ih hrest

theorem Arranged.pairwise (h : Arranged cmp is bs) :
    (distinct cmp none bs).Pairwise fun a b => cmp a.value b.value = .lt :=
  pairwise_distinct (h.sorted.imp isLE_of_boundaryCmp)

section

variable {I : Interval α} (h : Arranged cmp is bs) (hI : is[i]? = some I)
include h hI

theorem Arranged.find_distinct (hx : I.Mem cmp x) :
    (distinct cmp none bs).find? (above cmp x) = some ⟨i, I.upper, false⟩ := by
  rw [Intervals.find_distinct (fun p hp => by cases hp)]
  exact h.find_upper_of_mem hI hx

/-- No upper boundary is dropped. -/
theorem Arranged.upper_mem_distinct :
    (⟨i, I.upper, false⟩ : Boundary α) ∈ distinct cmp none bs := by
  have hnonempty := h.separated.nonempty I (mem_of_getElem? hI)
  exact mem_of_find?_eq_some (h.find_distinct hI (Interval.mem_lower hnonempty))

end

/-! ## Searching -/

omit [TransCmp cmp] in
theorem find_eq_getElem? {p : Boundary α → Bool} {m : Nat} (hm : m ≤ bs.length)
    (h : ∀ k b, bs[k]? = some b → (m ≤ k ↔ p b = true)) : bs.find? p = bs[m]? := by
  obtain hlt | rfl := Nat.lt_or_eq_of_le hm
  · rw [getElem?_eq_getElem hlt, find?_eq_some_iff_getElem]
    refine ⟨(h m _ (getElem?_eq_getElem hlt)).1 (Nat.le_refl m), m, hlt, rfl, fun j hj => ?_⟩
    by_contra hne
    have hle := (h j _ (getElem?_eq_getElem (by omega))).2 (by simpa using hne)
    omega
  · rw [getElem?_eq_none (Nat.le_refl _), find?_eq_none]
    intro b hb hpb
    obtain ⟨k, hk⟩ := mem_iff_getElem?.1 hb
    have hle := (h k b hk).2 hpb
    have hlt := (List.getElem?_eq_some_iff.1 hk).1
    omega

/-- The search for a point in a strictly increasing list of boundaries; `f` may compare equal
values in any way but as greater. -/
theorem bsearch_find (hpair : bs.Pairwise fun a b => cmp a.value b.value = .lt) {x : α}
    {f : Nat → Ordering} (hgt : ∀ k b, bs[k]? = some b → (f k = .gt ↔ cmp b.value x = .gt))
    (hlt : ∀ k b, bs[k]? = some b → cmp b.value x = .lt → f k = .lt) :
    ∃ m ≤ bs.length, (bsearch f bs.length).1 + 1 = m ∧ bs.find? (above cmp x) = bs[m]? := by
  have hstrict : ∀ i j, i < j → j < bs.length → f j ≠ .gt → f i = .lt := by
    intro i j hij hj hne
    have hi := getElem?_eq_getElem (show i < bs.length by omega)
    have hj' := getElem?_eq_getElem hj
    have hle : (cmp (bs.get ⟨j, hj⟩).value x).isLE = true := by
      rw [Ordering.isLE_iff_ne_gt]
      exact fun hcontra => hne ((hgt j _ hj').2 hcontra)
    exact hlt i _ hi (lt_of_lt_of_isLE (pairwise_iff_getElem.1 hpair i j (by omega) hj hij) hle)
  obtain ⟨m, hm, hoffset, hiff⟩ := bsearch_offset hstrict
  refine ⟨m, hm, hoffset, find_eq_getElem? hm fun k b hk => ?_⟩
  rw [hiff k (List.getElem?_eq_some_iff.1 hk).1, hgt k b hk, above_iff]

/-- The first boundary above the value of another is the next one. -/
theorem find_above_getElem? (hpair : bs.Pairwise fun a b => cmp a.value b.value = .lt) {m : Nat}
    {b : Boundary α} (hm : bs[m]? = some b) : bs.find? (above cmp b.value) = bs[m + 1]? := by
  obtain ⟨hlt, hget⟩ := List.getElem?_eq_some_iff.1 hm
  refine find_eq_getElem? hlt fun k c hk => ?_
  obtain ⟨hklt, hkget⟩ := List.getElem?_eq_some_iff.1 hk
  rw [above_iff, OrientedCmp.gt_iff_lt, ← hget, ← hkget]
  constructor
  · exact fun hle => pairwise_iff_getElem.1 hpair m k hlt hklt hle
  · intro hless
    by_contra hnot
    obtain heq | hkm := Nat.eq_or_lt_of_le (Nat.le_of_not_lt hnot)
    · subst heq
      exact lt_irrefl hless
    · exact lt_irrefl (lt_trans hless (pairwise_iff_getElem.1 hpair k m hklt hlt hkm))

/-! ## A further interval -/

variable {K : Interval α}

theorem Interval.meets_of_mem {I : Interval α} (hK : K.Nonempty cmp) (h : I.Mem cmp K.lower) :
    K.Meets cmp I :=
  ⟨gt_iff_lt.1 h.2, lt_of_isLE_of_lt h.1 hK⟩

theorem Arranged.not_meets_of_find_none (h : Arranged cmp is bs)
    (hfind : bs.find? (above cmp K.lower) = none) {I : Interval α} (hI : is[i]? = some I) :
    ¬ K.Meets cmp I := by
  intro hmeet
  exact find?_eq_none.1 hfind _ (h.mem hI).2 (above_iff.2 (gt_iff_lt.2 hmeet.1))

/-- An interval that begins in a gap and ends before the next lower boundary meets no other. -/
theorem Arranged.not_meets_of_find_lower (h : Arranged cmp is bs) {b : Boundary α}
    (hfind : bs.find? (above cmp K.lower) = some b) (hlower : b.lower = true)
    (hge : ¬ cmp b.value K.upper = .lt) {I : Interval α} (hI : is[i]? = some I) :
    ¬ K.Meets cmp I := by
  intro hmeet
  obtain ⟨J, hJ, hvalue⟩ := mem_boundaries.1 (h.perm.mem_iff.1 (mem_of_find?_eq_some hfind))
  rw [if_pos hlower] at hvalue
  have hJlt := h.separated.nonempty J (mem_of_getElem? hJ)
  have hbegin := lt_of_lt_of_isLE hmeet.2 (hvalue ▸ not_lt_iff.1 hge)
  obtain heq | hle := h.le_of_above hfind (h.mem hI).2 (gt_iff_lt.2 hmeet.1)
  · rw [← heq] at hlower
    cases hlower
  · -- the interval begins before the next one and ends behind its beginning
    have hend := hvalue ▸ lt_of_lower_before_upper hle hlower rfl
    by_cases hij : i = b.index
    · subst hij
      cases hI.symm.trans hJ
      exact lt_irrefl hbegin
    · exact h.separated.apart hij hI hJ ⟨lt_trans hbegin hJlt, hend⟩

end

end GreenPipeline.Core.Intervals
