import GreenPipeline.Core.Bsearch
import GreenPipeline.Core.Numbering
import GreenPipeline.L3Catalog.PartitionBound
import Mathlib.Data.List.Perm.Subperm

/-!
# Partition descriptors: building, routing a row, checking a new bound

`RelationBuildPartitionDesc` reads the bound specifications of all partitions, in the order in
which the catalog lists them. For a range partitioned table it sorts all bounds, keeps one of
those that are equal and stores, for each one kept, the number of the partition it ends;
a bound that only begins a partition has none. For a list partitioned table it stores the sorted
values with the number of their partition. The numbers are given in the order of first
appearance, so a second array takes them back to the partitions' OIDs.

Routing a row is a binary search in that array, and so is the check of a new bound.

An index of -1 is `none` here. `qsort_arg` is any function that sorts.

Sources: `src/backend/catalog/partition.c`.

Results:

* `assignOids_mapping`: the array of OIDs takes the numbers back to the partitions.
* `numbered_range`: every range partition has a stored upper bound, and so a number.
* `rangeDesc_route`: the number found for a row is that of the first stored bound above it.
-/
namespace GreenPipeline.L3.Partition

open Std GreenPipeline.Core.Intervals GreenPipeline.Core.Bsearch GreenPipeline.Core.Numbering List

abbrev Oid : Type := Nat

/-! ## Building the descriptor -/

/-- `qsort_arg`: not stable, so nothing is known of the order of equal elements. -/
structure Qsort where
  run : {α : Type} → (α → α → Ordering) → List α → List α
  perm : ∀ {α : Type} (cmp : α → α → Ordering) (l : List α), (run cmp l).Perm l
  sorted : ∀ {α : Type} (cmp : α → α → Ordering) [TransCmp cmp] (l : List α),
    (run cmp l).Pairwise fun a b => (cmp a b).isLE = true

/-- One such function. -/
def Qsort.mergeSort : Qsort where
  run cmp l := l.mergeSort fun a b => (cmp a b).isLE
  perm _ l := List.mergeSort_perm l _
  sorted cmp _ l := List.pairwise_mergeSort (fun _ _ _ => TransCmp.isLE_trans)
    (fun a b => by
      have hswap : cmp b a = (cmp a b).swap := OrientedCmp.eq_swap
      rw [hswap]
      cases cmp a b <;> rfl) l

section
variable {D : Type} (key : PartitionKey D)

/-- `partsupfunc[0]` -/
def PartitionKey.firstCmp : D → D → Ordering := key.partsupfunc.head key.ne_nil

/-- mirrors src/include/nodes/parsenodes.h:797-811; a null constant is `none` -/
inductive PartitionBoundSpec where
  | list (listdatums : List (Option D))
  | range (datums : Interval key.Datums)

/-- mirrors partition.c:93-97 -/
structure PartitionListValue (D : Type) where
  index : Nat
  value : D

/-- mirrors partition.c:70-83 -/
inductive PartitionBoundInfo where
  | list (datums : List D) (indexes : List (Option Nat)) (nullIndex : Option Nat)
  | range (datums : List key.Datums) (indexes : List (Option Nat))

structure PartitionDesc where
  nparts : Nat
  oids : List Oid
  boundinfo : Option (PartitionBoundInfo key)

/-- The values of one list, with the index of its partition.
mirrors partition.c:249-277 -/
def collectListValues (i : Nat) :
    List (Option D) → List (PartitionListValue D) × Option Nat →
    Except String (List (PartitionListValue D) × Option Nat)
  | [], acc => .ok acc
  | some v :: rest, (values, nullIndex) => collectListValues i rest (values ++ [⟨i, v⟩], nullIndex)
  | none :: rest, (values, nullIndex) =>
    match nullIndex with
    | some _ => .error "found null more than once"
    | none => collectListValues i rest (values, some i)

/-- mirrors partition.c:238-280 -/
def collectAllValues : (i : Nat) → List (List (Option D)) →
    List (PartitionListValue D) × Option Nat →
    Except String (List (PartitionListValue D) × Option Nat)
  | _, [], acc => .ok acc
  | i, listdatums :: rest, acc =>
    (collectListValues i listdatums acc).bind (collectAllValues (i + 1) rest)

/-- mirrors partition.c:2116-2126 -/
def qsortPartitionListValueCmp (a b : PartitionListValue D) : Ordering :=
  key.firstCmp a.value b.value

/-- Is the bound distinct from the one before it?
mirrors partition.c:360-385 -/
def isDistinctLoop : List (D → D → Ordering) → List (PartitionRangeDatum D) →
    List (PartitionRangeDatum D) → Bool
  | cmp :: cmps, cur :: curs, prev :: prevs =>
    if cur.kind ≠ prev.kind then true
    else
      match cur, prev with
      | .value v, .value w => if cmp v w ≠ .eq then true else isDistinctLoop cmps curs prevs
      | _, _ => false
  | _, _, _ => false

/-- mirrors partition.c:352-418 -/
def distinctBounds : Option (PartitionRangeBound key) → List (PartitionRangeBound key) →
    List (PartitionRangeBound key)
  | _, [] => []
  | prev, cur :: rest =>
    if prev.all (fun prev => isDistinctLoop key.partsupfunc cur.value.1 prev.value.1) then
      cur :: distinctBounds (some cur) rest
    else distinctBounds (some cur) rest

def setOid (mapping : Nat → Option Nat) (result : List Oid) (p : Oid × Nat) : List Oid :=
  match mapping p.2 with
  | some m => result.set m p.1
  | none => result

/-- `result->oids[mapping[i]] = oids[i]` for every `i`.
mirrors partition.c:568-569 -/
def assignOids (mapping : Nat → Option Nat) (oids : List Oid) : List Oid :=
  oids.zipIdx.foldl (setOid mapping) (List.replicate oids.length 0)

/-- mirrors partition.c:231-303 and 455-499 -/
def buildListDesc (qsort : Qsort) (oids : List Oid) (specs : List (List (Option D))) :
    Except String (PartitionDesc key) :=
  (collectAllValues 0 specs ([], none)).map fun collected =>
    let allValues := qsort.run (qsortPartitionListValueCmp key) collected.1
    let numbered := numberAll (allValues.map (some ·.index)) ⟨fun _ => none, 0⟩
    let mapping := match collected.2 with
      | some i => numbered.2.assign i
      | none => numbered.2
    ⟨oids.length, assignOids mapping.mapping oids,
      some (.list (allValues.map (·.value)) numbered.1 (collected.2.bind mapping.mapping))⟩

/-- mirrors partition.c:304-419 and 501-551 -/
def buildRangeDesc (qsort : Qsort) (oids : List Oid) (specs : List (Interval key.Datums)) :
    PartitionDesc key :=
  let allBounds := qsort.run (qsortPartitionRboundCmp key) (boundaries specs)
  let rbounds := distinctBounds key none allBounds
  let numbered :=
    numberAll (rbounds.map fun b => if b.lower then none else some b.index) ⟨fun _ => none, 0⟩
  ⟨oids.length, assignOids numbered.2.mapping oids,
    some (.range (rbounds.map (·.value)) (numbered.1 ++ [none]))⟩

variable {key} in
def PartitionBoundSpec.listdatums : PartitionBoundSpec key → Except String (List (Option D))
  | .list listdatums => .ok listdatums
  | .range _ => .error "invalid strategy in partition bound spec"

variable {key} in
def PartitionBoundSpec.rangedatums : PartitionBoundSpec key → Except String (Interval key.Datums)
  | .range datums => .ok datums
  | .list _ => .error "invalid strategy in partition bound spec"

/-- The descriptor of a table with the given partitions.
mirrors partition.c:150-580 -/
def relationBuildPartitionDesc (qsort : Qsort) (parts : List (Oid × PartitionBoundSpec key)) :
    Except String (PartitionDesc key) :=
  if parts.length = 0 then .ok ⟨0, [], none⟩
  else
    match key.strategy with
    | .list =>
      (parts.mapM fun part : Oid × PartitionBoundSpec key => part.2.listdatums).bind
        (buildListDesc key qsort (parts.map (·.1)))
    | .range =>
      (parts.mapM fun part : Oid × PartitionBoundSpec key => part.2.rangedatums).map
        (buildRangeDesc key qsort (parts.map (·.1)))

/-! ## Searching it -/

/-- A bound, or the datums of a row. -/
inductive Probe where
  | bound (b : PartitionRangeBound key)
  | datums (values : List D)

/-- mirrors partition.c:2286-2332 -/
def partitionBoundCmp : PartitionBoundInfo key → (offset : Nat) → Probe key → Ordering
  | .list datums _ _, offset, .datums values =>
    match datums[offset]?, values.head? with
    | some d, some v => key.firstCmp d v
    | _, _ => .lt
  | .range datums indexes, offset, .bound b =>
    match datums[offset]? with
    | some d => partitionRboundCmp key d (indexes[offset]?.join).isNone b
    | none => .lt
  | .range datums _, offset, .datums values =>
    match datums[offset]? with
    | some d => partitionRboundDatumCmp key d values
    | none => .lt
  | .list _ _ _, _, .bound _ => .lt

variable {key} in
def PartitionBoundInfo.ndatums : PartitionBoundInfo key → Nat
  | .list datums _ _ => datums.length
  | .range datums _ => datums.length

/-- mirrors partition.c:2348-2377 -/
def partitionBoundBsearch (boundinfo : PartitionBoundInfo key) (probe : Probe key) : Int × Bool :=
  bsearch (partitionBoundCmp key boundinfo · probe) boundinfo.ndatums

/-- One level of the routing: the number of the partition, or none.
mirrors partition.c:2005-2091 -/
def getPartitionForTuple (desc : PartitionDesc key) (values : List (Option D)) : Option Nat :=
  if desc.nparts = 0 then none
  else if key.strategy = .range ∧ values.any (·.isNone) = true then none
  else
    match desc.boundinfo, values.head? with
    | some (.list _ _ nullIndex), some none => nullIndex
    | some boundinfo, some (some _) =>
      let search := partitionBoundBsearch key boundinfo (.datums (values.filterMap id))
      match boundinfo with
      | .list _ indexes _ =>
        if 0 ≤ search.1 ∧ search.2 = true then (indexes[search.1.toNat]?).join else none
      | .range _ indexes => (indexes[(search.1 + 1).toNat]?).join
    | _, _ => none

/-! ## Checking a new bound -/

/-- mirrors partition.c:728-729 and 814-815 -/
inductive BoundError where
  /-- "empty range bound specified for partition" -/
  | emptyRange
  /-- "partition would overlap partition", of which this is the id -/
  | overlap (oid : Oid)
  deriving DecidableEq

/-- `partdesc->oids[with]` -/
def overlapWith (desc : PartitionDesc key) (index : Option Nat) : Except BoundError Unit :=
  .error (.overlap ((index.bind (desc.oids[·]?)).getD 0))

/-- The values of a new list, in turn.
mirrors partition.c:679-704 -/
def checkListValues (desc : PartitionDesc key) (boundinfo : PartitionBoundInfo key)
    (indexes : List (Option Nat)) (nullIndex : Option Nat) :
    List (Option D) → Except BoundError Unit
  | [] => .ok ()
  | some v :: rest =>
    let search := partitionBoundBsearch key boundinfo (.datums [v])
    if 0 ≤ search.1 ∧ search.2 = true then overlapWith key desc (indexes[search.1.toNat]?).join
    else checkListValues desc boundinfo indexes nullIndex rest
  | none :: rest =>
    match nullIndex with
    | some i => overlapWith key desc (some i)
    | none => checkListValues desc boundinfo indexes nullIndex rest

/-- mirrors partition.c:745-798 -/
def checkRange (desc : PartitionDesc key) (boundinfo : PartitionBoundInfo key)
    (indexes : List (Option Nat)) (lower upper : PartitionRangeBound key) :
    Except BoundError Unit :=
  let offset := (partitionBoundBsearch key boundinfo (.bound lower)).1
  match (indexes[(offset + 1).toNat]?).join with
  | none =>
    if (offset + 1).toNat < boundinfo.ndatums ∧
        partitionBoundCmp key boundinfo (offset + 1).toNat (.bound upper) = .lt then
      overlapWith key desc (indexes[(offset + 2).toNat]?).join
    else .ok ()
  | some i => overlapWith key desc (some i)

/-- mirrors partition.c:653-817 -/
def checkNewPartitionBound (desc : PartitionDesc key) :
    PartitionBoundSpec key → Except BoundError Unit
  | .list listdatums =>
    match desc.boundinfo with
    | some (.list datums indexes nullIndex) =>
      checkListValues key desc (.list datums indexes nullIndex) indexes nullIndex listdatums
    | _ => .ok ()
  | .range spec =>
    -- the index of a bound that is not in the table is not looked at
    let lower : PartitionRangeBound key := ⟨0, spec.lower, true⟩
    let upper : PartitionRangeBound key := ⟨0, spec.upper, false⟩
    if (partitionRboundCmp key lower.value true upper).isGE then .error .emptyRange
    else
      match desc.boundinfo with
      | some (.range datums indexes) =>
        checkRange key desc (.range datums indexes) indexes lower upper
      | _ => .ok ()

end

/-! ## The stored range bounds -/

section
variable {D : Type} {key : PartitionKey D}

theorem isDistinctLoop_eq (cmps : List (D → D → Ordering))
    (curs prevs : List (PartitionRangeDatum D)) :
    isDistinctLoop cmps curs prevs = (datumsCmpLoop cmps curs prevs != .eq) := by
  induction cmps generalizing curs prevs with
  | nil => rfl
  | cons cmp cmps ih =>
    cases curs with
    | nil => rfl
    | cons cur curs =>
      cases prevs with
      | nil => rfl
      | cons prev prevs =>
        by_cases h : cur.kind ≠ 0 ∨ prev.kind ≠ 0
        · cases cur <;> cases prev <;> first | rfl | simp [PartitionRangeDatum.kind] at h
        · obtain ⟨⟨v, rfl⟩, w, rfl⟩ : (∃ v, cur = .value v) ∧ ∃ w, prev = .value w := by
            simpa only [not_or, not_not, PartitionRangeDatum.kind_eq_zero_iff] using h
          rw [datumsCmpLoop_value, isDistinctLoop, if_neg (by simp [PartitionRangeDatum.kind])]
          cases cmp v w <;> simp [ih]

theorem distinctBounds_eq (prev : Option (PartitionRangeBound key))
    (bounds : List (PartitionRangeBound key)) :
    distinctBounds key prev bounds = distinct (datumsCmp key) prev bounds := by
  induction bounds generalizing prev with
  | nil => rfl
  | cons cur rest ih =>
    rw [distinctBounds, distinct, ih]
    simp only [isDistinctLoop_eq]
    rfl

variable (key) in
/-- The bounds kept for the table. -/
def rbounds (qsort : Qsort) (specs : List (Interval key.Datums)) : List (PartitionRangeBound key) :=
  distinctBounds key none (qsort.run (qsortPartitionRboundCmp key) (boundaries specs))

variable (key) in
/-- The partitions that the bounds kept end. -/
def endsOf (qsort : Qsort) (specs : List (Interval key.Datums)) : List (Option Nat) :=
  (rbounds key qsort specs).map fun b => if b.lower then none else some b.index

variable (key) in
/-- The numbers given to the partitions. -/
def rangeMapping (qsort : Qsort) (specs : List (Interval key.Datums)) : Nat → Option Nat :=
  (numberAll (endsOf key qsort specs) ⟨fun _ => none, 0⟩).2.mapping

variable {qsort : Qsort} {specs : List (Interval key.Datums)}

theorem arranged (hsep : Separated (datumsCmp key) specs) :
    Arranged (datumsCmp key) specs
      (qsort.run (qsortPartitionRboundCmp key) (boundaries specs)) := by
  refine ⟨hsep, qsort.perm _ _, (qsort.sorted _ _).imp fun {a b} hle => ?_⟩
  rwa [qsortPartitionRboundCmp, partitionRboundCmp_eq] at hle

theorem rbounds_eq : rbounds key qsort specs =
    distinct (datumsCmp key) none (qsort.run (qsortPartitionRboundCmp key) (boundaries specs)) :=
  distinctBounds_eq none _

/-- The number at the position of a stored bound. -/
def endNumber (mapping : Nat → Option Nat) (b : PartitionRangeBound key) : Option Nat :=
  if b.lower then none else mapping b.index

theorem buildRangeDesc_indexes (m : Nat) :
    (((numberAll (endsOf key qsort specs) ⟨fun _ => none, 0⟩).1 ++ [none])[m]?).join =
    (rbounds key qsort specs)[m]?.bind (endNumber (rangeMapping key qsort specs)) := by
  have hends : (numberAll (endsOf key qsort specs) ⟨fun _ => none, 0⟩).1 =
      (rbounds key qsort specs).map (endNumber (rangeMapping key qsort specs)) := by
    rw [numberAll_eq]
    conv_lhs => rw [endsOf, map_map]
    refine map_congr_left fun b _ => ?_
    rw [Function.comp_apply, endNumber]
    split <;> rfl
  rw [hends, getElem?_append]
  split
  · rw [getElem?_map]
    cases (rbounds key qsort specs)[m]? <;> rfl
  · rename_i hlt
    rw [length_map] at hlt
    have hnone : (rbounds key qsort specs)[m]? = none := getElem?_eq_none (by omega)
    rw [hnone, Option.bind_none]
    cases h : ([none] : List (Option Nat))[m - ((rbounds key qsort specs).map _).length]? with
    | none => rfl
    | some i => rw [mem_singleton.1 (mem_of_getElem? h)]; rfl

end

/-! ## The OIDs -/

theorem length_foldl_setOid (mapping : Nat → Option Nat) (l : List (Oid × Nat))
    (result : List Oid) :
    (l.foldl (setOid mapping) result).length = result.length := by
  induction l generalizing result with
  | nil => rfl
  | cons p l ih =>
    rw [foldl_cons, ih, setOid]
    split
    · rw [length_set]
    · rfl

theorem getElem?_foldl_setOid_of_ne {mapping : Nat → Option Nat} {l : List (Oid × Nat)} {m : Nat}
    (h : ∀ p ∈ l, mapping p.2 ≠ some m) (result : List Oid) :
    (l.foldl (setOid mapping) result)[m]? = result[m]? := by
  induction l generalizing result with
  | nil => rfl
  | cons p l ih =>
    rw [foldl_cons, ih (forall_mem_cons.1 h).2, setOid]
    have hp := h p mem_cons_self
    split
    · rename_i k hk
      rw [getElem?_set_ne]
      rintro rfl
      exact hp hk
    · rfl

/-- If only `i` is mapped to `m`, its OID ends up there. -/
theorem getElem?_foldl_setOid {mapping : Nat → Option Nat} {l : List (Oid × Nat)}
    {oid : Oid} {i m : Nat} (hmem : (oid, i) ∈ l) (hi : mapping i = some m)
    (honly : ∀ p ∈ l, mapping p.2 = some m → p = (oid, i)) {result : List Oid}
    (hm : m < result.length) : (l.foldl (setOid mapping) result)[m]? = some oid := by
  induction l generalizing result with
  | nil => cases hmem
  | cons p l ih =>
    rw [foldl_cons]
    by_cases htail : (oid, i) ∈ l
    · refine ih htail (forall_mem_cons.1 honly).2 ?_
      rwa [← length_foldl_setOid mapping [p] result] at hm
    · obtain rfl | hcontra := mem_cons.1 hmem
      · rw [getElem?_foldl_setOid_of_ne, setOid, hi, getElem?_set_self hm]
        intro q hq hqm
        exact htail (honly q (mem_cons_of_mem _ hq) hqm ▸ hq)
      · exact absurd hcontra htail

/-- With every partition numbered, the array of OIDs takes the numbers back. -/
theorem assignOids_mapping {seen : List Nat} {m : Mapping Nat} (h : Numbered seen m)
    {oids : List Oid} (hseen : ∀ i, i ∈ seen ↔ i < oids.length) {i : Nat} {oid : Oid}
    (hi : oids[i]? = some oid) :
    ∃ k, m.mapping i = some k ∧ (assignOids m.mapping oids)[k]? = some oid := by
  have hlt := (List.getElem?_eq_some_iff.1 hi).1
  obtain ⟨k, hk⟩ := List.mem_iff_getElem?.1 ((hseen i).2 hlt)
  have hmap := (h.mapping i k).2 hk
  refine ⟨k, hmap, getElem?_foldl_setOid (List.mem_zipIdx_iff_getElem?.2 hi) hmap
    (fun p hp hpm => ?_) ?_⟩
  · have hpi := Option.some.inj (((h.mapping p.2 k).1 hpm).symm.trans hk)
    have hoid := List.mem_zipIdx_iff_getElem?.1 hp
    rw [hpi, hi, Option.some.injEq] at hoid
    exact Prod.ext hoid.symm hpi
  · have hle : seen.length ≤ oids.length := by
      have hsub : seen ⊆ List.range oids.length := fun j hj => List.mem_range.2 ((hseen j).1 hj)
      have hle := (List.subperm_of_subset h.nodup hsub).length_le
      rwa [List.length_range] at hle
    have hklt := (List.getElem?_eq_some_iff.1 hk).1
    rw [List.length_replicate]
    omega

section
variable {D : Type} {key : PartitionKey D} {qsort : Qsort} {specs : List (Interval key.Datums)}

variable (qsort) in
/-- Every partition has a stored upper bound, and so a number. -/
theorem numbered_range (hsep : Separated (datumsCmp key) specs) :
    ∃ seen, Numbered seen (numberAll (endsOf key qsort specs) ⟨fun _ => none, 0⟩).2 ∧
    ∀ i, i ∈ seen ↔ i < specs.length := by
  obtain ⟨seen, hseen, hmem⟩ := Numbered.nil.numberAll (endsOf key qsort specs)
  refine ⟨seen, hseen, fun i => ?_⟩
  rw [hmem, or_iff_right (not_mem_nil), endsOf, mem_map]
  constructor
  · rintro ⟨b, hb, hend⟩
    rw [rbounds_eq] at hb
    obtain ⟨I, hI, -⟩ := mem_boundaries.1 ((qsort.perm _ _).mem_iff.1 (distinct_subset hb))
    split at hend
    · cases hend
    · cases hend
      exact (List.getElem?_eq_some_iff.1 hI).1
  · intro hi
    refine ⟨⟨i, (specs.get ⟨i, hi⟩).upper, false⟩, ?_, rfl⟩
    rw [rbounds_eq]
    exact (arranged hsep).upper_mem_distinct (getElem?_eq_getElem hi)

variable {b : PartitionRangeBound key}

theorem endNumber_eq_none_iff (hsep : Separated (datumsCmp key) specs)
    (hb : b ∈ rbounds key qsort specs) :
    endNumber (rangeMapping key qsort specs) b = none ↔ b.lower = true := by
  obtain ⟨seen, hseen, hmem⟩ := numbered_range qsort hsep
  unfold endNumber
  split
  · rename_i hlower
    exact iff_of_true rfl hlower
  · rename_i hupper
    refine iff_of_false ?_ hupper
    rw [rangeMapping, hseen.eq_none_iff, not_not, hmem]
    rw [rbounds_eq] at hb
    obtain ⟨I, hI, -⟩ := mem_boundaries.1 ((qsort.perm _ _).mem_iff.1 (distinct_subset hb))
    exact (List.getElem?_eq_some_iff.1 hI).1

variable (key qsort specs) in
/-- The bounds stored in the descriptor. -/
def rangeInfo : PartitionBoundInfo key :=
  .range ((rbounds key qsort specs).map (·.value))
    ((numberAll (endsOf key qsort specs) ⟨fun _ => none, 0⟩).1 ++ [none])

theorem ndatums_rangeInfo :
    (rangeInfo key qsort specs).ndatums = (rbounds key qsort specs).length := length_map _

theorem partitionBoundCmp_datums {k : Nat} (hk : (rbounds key qsort specs)[k]? = some b)
    {vs : List D} (hvs : vs.length = key.partnatts) :
    partitionBoundCmp key (rangeInfo key qsort specs) k (.datums vs) =
      datumsCmp key b.value (key.point vs hvs) := by
  rw [← partitionRboundDatumCmp_eq, rangeInfo, partitionBoundCmp, getElem?_map, hk]
  rfl

/-- An existing bound is taken for a lower one just when it is. -/
theorem partitionBoundCmp_bound (hsep : Separated (datumsCmp key) specs) {k : Nat}
    (hk : (rbounds key qsort specs)[k]? = some b) (probe : PartitionRangeBound key) :
    partitionBoundCmp key (rangeInfo key qsort specs) k (.bound probe) =
      boundaryCmp (datumsCmp key) b probe := by
  have hflag : (endNumber (rangeMapping key qsort specs) b).isNone = b.lower := by
    rw [Bool.eq_iff_iff, Option.isNone_iff_eq_none]
    exact endNumber_eq_none_iff hsep (mem_of_getElem? hk)
  rw [← partitionRboundCmp_eq, rangeInfo, partitionBoundCmp, getElem?_map, hk,
    buildRangeDesc_indexes, hk, Option.bind_some, hflag]
  rfl

variable (qsort) in
/-- The offset of a search for the point `x`. -/
theorem search_range (hsep : Separated (datumsCmp key) specs) (x : key.Datums) {f : Nat → Ordering}
    (hgt : ∀ k b, (rbounds key qsort specs)[k]? = some b →
      (f k = .gt ↔ datumsCmp key b.value x = .gt))
    (hlt : ∀ k b, (rbounds key qsort specs)[k]? = some b →
      datumsCmp key b.value x = .lt → f k = .lt) :
    ∃ m ≤ (rbounds key qsort specs).length, (bsearch f (rbounds key qsort specs).length).1 + 1 = m ∧
      (rbounds key qsort specs).find? (above (datumsCmp key) x) =
        (rbounds key qsort specs)[m]? := by
  refine bsearch_find ?_ hgt hlt
  rw [rbounds_eq]
  exact (arranged hsep).pairwise

/-! ## Routing in a range partitioned table -/

/-- The number of a row with no null key is that of the first stored bound above it. -/
theorem rangeDesc_route (hsep : Separated (datumsCmp key) specs) {oids : List Oid}
    (hoids : oids ≠ []) {vs : List D} (hvs : vs.length = key.partnatts) :
    getPartitionForTuple key (buildRangeDesc key qsort oids specs) (vs.map some) =
      ((rbounds key qsort specs).find? (above (datumsCmp key) (key.point vs hvs))).bind
        (endNumber (rangeMapping key qsort specs)) := by
  obtain ⟨m, -, hoffset, hfind⟩ := search_range qsort hsep (key.point vs hvs)
    (f := fun k => partitionBoundCmp key (rangeInfo key qsort specs) k (.datums vs))
    (fun k b hk => by rw [partitionBoundCmp_datums hk hvs])
    (fun k b hk hlt => by rwa [partitionBoundCmp_datums hk hvs])
  rw [hfind, ← buildRangeDesc_indexes]
  have hnparts : ¬ (buildRangeDesc key qsort oids specs).nparts = 0 :=
    fun h => hoids (length_eq_zero_iff.1 h)
  have hnulls : ¬ (key.strategy = .range ∧ (vs.map some).any (·.isNone) = true) := by simp
  obtain ⟨v, rest, rfl⟩ : ∃ v rest, vs = v :: rest :=
    exists_cons_of_ne_nil fun hnil => by
      rw [hnil] at hvs
      exact key.ne_nil (length_eq_zero_iff.1 hvs.symm)
  rw [getPartitionForTuple, if_neg hnparts, if_neg hnulls]
  have hvalues : ((v :: rest).map some).filterMap id = v :: rest := by simp [filterMap_map]
  have hsearch :
      (partitionBoundBsearch key (rangeInfo key qsort specs) (.datums (v :: rest))).1 + 1 = m := by
    rw [partitionBoundBsearch, ndatums_rangeInfo]
    exact hoffset
  show ((numberAll (endsOf key qsort specs) ⟨fun _ => none, 0⟩).1 ++
      [none])[((partitionBoundBsearch key
    (rangeInfo key qsort specs) (.datums (((v :: rest).map some).filterMap id))).1 +
      1).toNat]?.join = _
  rw [hvalues, hsearch, Int.toNat_natCast]

/-- A row with a null key belongs to no range. -/
theorem rangeDesc_route_null (hstrategy : key.strategy = .range) {desc : PartitionDesc key}
    {values : List (Option D)} (hnull : none ∈ values) :
    getPartitionForTuple key desc values = none := by
  unfold getPartitionForTuple
  split
  · rfl
  · rw [if_pos ⟨hstrategy, any_eq_true.2 ⟨none, hnull, rfl⟩⟩]

end

end GreenPipeline.L3.Partition
