import GreenPipeline.L3Catalog.PartitionDesc

/-!
# Every row has its partition, and no two partitions share one

The descriptor is compared with what the bound specifications say: a range partition
takes the rows with no null key from its lower bound up to, but without, its upper one; a list
partition those whose key equals a listed value, or is null if null is listed.

Results:

* `selected_range_iff`, `ListStored.selected_iff`: the partition found for a row.
* `tuple_routing`: a row goes to a partition exactly if the partition's bound accepts it.
* `checkNewPartitionBound_exact`: a new range bound is refused exactly if it is empty or meets the
  range of a partition, and the partition named is such a one.
-/
namespace GreenPipeline.L3.Partition

open Std GreenPipeline.Core.Intervals GreenPipeline.Core.Bsearch GreenPipeline.Core.Numbering List

/-! ## What the bounds say -/

section
variable {D : Type} (key : PartitionKey D)

/-- The lower bound compares below the upper one. -/
def LowerBelowUpper (lower upper : key.Datums) : Prop :=
  partitionRboundCmp key lower true ⟨0, upper, false⟩ = .lt

instance (lower upper : key.Datums) : Decidable (LowerBelowUpper key lower upper) :=
  inferInstanceAs (Decidable (_ = _))

/-- Two ranges that overlap in the order of bounds. -/
def RangesMeet (I J : Interval key.Datums) : Prop :=
  LowerBelowUpper key I.lower J.upper ∧ LowerBelowUpper key J.lower I.upper

instance (I J : Interval key.Datums) : Decidable (RangesMeet key I J) :=
  inferInstanceAs (Decidable (_ ∧ _))

/-- Range partitions that are not empty and do not overlap. -/
structure RangesApart (specs : List (Interval key.Datums)) : Prop where
  nonempty : ∀ I ∈ specs, LowerBelowUpper key I.lower I.upper
  apart : ∀ {i j : Nat} {I J : Interval key.Datums}, i ≠ j → specs[i]? = some I →
    specs[j]? = some J → ¬ RangesMeet key I J

/-- The routing comparison places the row at or above the lower and below the upper bound. -/
def InRange (I : Interval key.Datums) (vs : List D) : Prop :=
  (partitionRboundDatumCmp key I.lower vs).isLE = true ∧
    partitionRboundDatumCmp key I.upper vs = .gt

/-- Value lists that are not empty and have no value, and no null, in common. -/
structure ListsApart (specs : List (List (Option D))) : Prop where
  ne_nil : ∀ l ∈ specs, l ≠ []
  apart : ∀ {i j : Nat} {l l' : List (Option D)} {v w : D}, i ≠ j → specs[i]? = some l →
    specs[j]? = some l' →
    some v ∈ l → some w ∈ l' → key.firstCmp v w ≠ .eq
  one_null : (specs.flatten.filter (·.isNone)).length ≤ 1

/-- The rows that belong to a partition. -/
def PartitionBoundSpec.Accepts : PartitionBoundSpec key → List (Option D) → Prop
  | .range I, values => ∃ vs, values = vs.map some ∧ InRange key I vs
  | .list listdatums, values =>
    values = [none] ∧ none ∈ listdatums ∨ ∃ v w, values = [some v] ∧ some w ∈ listdatums ∧
      key.firstCmp w v = .eq

/-- The partition that a row is sent to. -/
def selected (desc : PartitionDesc key) (values : List (Option D)) : Option Oid :=
  (getPartitionForTuple key desc values).bind (desc.oids[·]?)

variable {key}

theorem lowerBelowUpper_iff {lower upper : key.Datums} :
    LowerBelowUpper key lower upper ↔ datumsCmp key lower upper = .lt := by
  unfold LowerBelowUpper partitionRboundCmp
  cases datumsCmp key lower upper <;> simp

theorem rangesMeet_iff {I J : Interval key.Datums} :
    RangesMeet key I J ↔ I.Meets (datumsCmp key) J :=
  and_congr lowerBelowUpper_iff lowerBelowUpper_iff

theorem RangesApart.separated {specs : List (Interval key.Datums)} (h : RangesApart key specs) :
    Separated (datumsCmp key) specs :=
  ⟨fun I hI => lowerBelowUpper_iff.1 (h.nonempty I hI),
    fun hij hI hJ hmeet => h.apart hij hI hJ (rangesMeet_iff.2 hmeet)⟩

theorem inRange_iff {I : Interval key.Datums} {vs : List D} (hvs : vs.length = key.partnatts) :
    InRange key I vs ↔ I.Mem (datumsCmp key) (key.point vs hvs) := by
  rw [InRange, partitionRboundDatumCmp_eq key I.lower hvs,
    partitionRboundDatumCmp_eq key I.upper hvs]
  rfl

end

/-! ## Range partitions -/

section
variable {D : Type} {key : PartitionKey D} {qsort : Qsort} {specs : List (Interval key.Datums)}
  {oids : List Oid}

variable (oids) in
/-- A partition whose upper bound is the first one above the point is found by its number. -/
theorem oid_of_find (hsep : Separated (datumsCmp key) specs) (hoids : oids.length = specs.length)
    {x : key.Datums} {b : PartitionRangeBound key}
    (hfind : (rbounds key qsort specs).find? (above (datumsCmp key) x) = some b)
    (hupper : b.lower = false) :
    ∃ I oid k, specs[b.index]? = some I ∧ I.Mem (datumsCmp key) x ∧ oids[b.index]? = some oid ∧
      endNumber (rangeMapping key qsort specs) b = some k ∧
      (buildRangeDesc key qsort oids specs).oids[k]? = some oid := by
  rw [rbounds_eq, find_distinct (fun p hp => by cases hp)] at hfind
  obtain ⟨I, hI, hmem⟩ := (arranged hsep).mem_of_find_upper hfind hupper
  have hlt := (List.getElem?_eq_some_iff.1 hI).1
  rw [← hoids] at hlt
  have hoid := List.getElem?_eq_getElem hlt
  obtain ⟨seen, hseen, hall⟩ := numbered_range qsort hsep
  obtain ⟨k, hk, hkoid⟩ := assignOids_mapping hseen (fun i => by rw [hall, hoids]) hoid
  refine ⟨I, _, k, hI, hmem, hoid, ?_, hkoid⟩
  rw [endNumber, hupper, if_neg (by simp)]
  exact hk

/-- A row goes to the partition whose range it lies in. -/
theorem selected_range_iff (hsep : Separated (datumsCmp key) specs)
    (hoids : oids.length = specs.length) (hnodup : oids.Nodup)
    {vs : List D} (hvs : vs.length = key.partnatts) {i : Nat} {I : Interval key.Datums} {oid : Oid}
    (hI : specs[i]? = some I) (hoid : oids[i]? = some oid) :
    selected key (buildRangeDesc key qsort oids specs) (vs.map some) = some oid ↔
    InRange key I vs := by
  have hne : oids ≠ [] := fun hnil => by
    rw [hnil] at hoid
    cases hoid
  rw [selected, rangeDesc_route hsep hne hvs, inRange_iff hvs]
  constructor
  · intro hsel
    obtain ⟨k, hk, hkoid⟩ := Option.bind_eq_some_iff.1 hsel
    obtain ⟨b, hfind, hend⟩ := Option.bind_eq_some_iff.1 hk
    have hupper : b.lower = false := by
      cases hb : b.lower with
      | false => rfl
      | true =>
        rw [endNumber, hb, if_pos rfl] at hend
        cases hend
    obtain ⟨J, oid', k', hJ, hmem, hoid', hend', hkoid'⟩ := oid_of_find oids hsep hoids hfind hupper
    cases hend.symm.trans hend'
    cases hkoid.symm.trans hkoid'
    have hlt := (List.getElem?_eq_some_iff.1 hoid).1
    have hij := (getElem?_inj hlt hnodup).1 (hoid.trans hoid'.symm)
    rw [← hij, hI] at hJ
    cases hJ
    exact hmem
  · intro hmem
    have hfind : (rbounds key qsort specs).find? (above (datumsCmp key) (key.point vs hvs)) =
        some ⟨i, I.upper, false⟩ := by
      rw [rbounds_eq]
      exact (arranged hsep).find_distinct hI hmem
    obtain ⟨J, oid', k, -, -, hoid', hend, hkoid⟩ := oid_of_find oids hsep hoids hfind rfl
    rw [hfind, Option.bind_some, hend, Option.bind_some, hkoid]
    exact hoid'.symm.trans hoid

/-- A row that lies in no range goes nowhere. -/
theorem route_range_eq_none (hsep : Separated (datumsCmp key) specs)
    (hoids : oids.length = specs.length) (hne : oids ≠ []) {vs : List D}
    (hvs : vs.length = key.partnatts) (hnone : ∀ I ∈ specs, ¬ InRange key I vs) :
    getPartitionForTuple key (buildRangeDesc key qsort oids specs) (vs.map some) = none := by
  rw [rangeDesc_route hsep hne hvs, Option.bind_eq_none_iff]
  intro b hfind
  cases hb : b.lower with
  | true => rw [endNumber, hb, if_pos rfl]
  | false =>
    obtain ⟨I, -, -, hI, hmem, -⟩ := oid_of_find oids hsep hoids hfind hb
    exact absurd ((inRange_iff hvs).2 hmem) (hnone I (mem_of_getElem? hI))

end

/-! ## List partitions -/

section
variable {D : Type} {key : PartitionKey D}

theorem collectListValues_ok (i : Nat) {l : List (Option D)} (vs : List (PartitionListValue D))
    (n : Option Nat) (hnulls : (l.filter (·.isNone)).length + n.toList.length ≤ 1) :
    ∃ vs' n', collectListValues i l (vs, n) = .ok (vs', n') ∧
      (∀ b, b ∈ vs' ↔ b ∈ vs ∨ some b.value ∈ l ∧ b.index = i) ∧ ∀ k, n' = some k ↔ n = some k ∨
      none ∈ l ∧ k = i := by
  induction l generalizing vs n with
  | nil => exact ⟨vs, n, rfl, by simp, by simp⟩
  | cons x l ih =>
    cases x with
    | some v =>
      obtain ⟨vs', n', hok, hvs', hn'⟩ := ih (vs ++ [⟨i, v⟩]) n hnulls
      refine ⟨vs', n', hok, fun b => ?_, fun k => by simp [hn']⟩
      rw [hvs', mem_append, mem_singleton, mem_cons, or_assoc, or_and_right, Option.some.injEq]
      refine or_congr_right (or_congr_left ?_)
      obtain ⟨index, value⟩ := b
      simp [and_comm]
    | none =>
      cases n with
      | some k => simp at hnulls
      | none =>
        obtain ⟨vs', n', hok, hvs', hn'⟩ := ih vs (some i) (by simp at hnulls ⊢; omega)
        refine ⟨vs', n', hok, fun b => by simp [hvs'], fun k => ?_⟩
        rw [hn', Option.some.injEq]
        simp only [mem_cons, true_or, true_and, reduceCtorEq, false_or]
        constructor
        · rintro (rfl | ⟨-, rfl⟩) <;> rfl
        · rintro rfl
          exact .inl rfl

/-- Membership in one of the lists, by its index. -/
theorem exists_getElem?_cons {p : List (Option D) → Prop} {l : List (Option D)}
    {specs : List (List (Option D))} {i k : Nat} :
    (∃ j l', (l :: specs)[j]? = some l' ∧ p l' ∧ k = i + j) ↔ (p l ∧ k = i) ∨
    ∃ j l', specs[j]? = some l' ∧ p l' ∧ k = i + 1 + j := by
  constructor
  · rintro ⟨j, l', hj, hp, rfl⟩
    cases j with
    | zero =>
      cases hj
      exact .inl ⟨hp, rfl⟩
    | succ j => exact .inr ⟨j, l', hj, hp, by omega⟩
  · rintro (⟨hp, rfl⟩ | ⟨j, l', hj, hp, rfl⟩)
    · exact ⟨0, l, rfl, hp, rfl⟩
    · exact ⟨j + 1, l', hj, hp, by omega⟩

theorem collectAllValues_ok (i : Nat) (specs : List (List (Option D)))
    (vs : List (PartitionListValue D)) (n : Option Nat)
    (hnulls : (specs.flatten.filter (·.isNone)).length + n.toList.length ≤ 1) :
    ∃ vs' n', collectAllValues i specs (vs, n) = .ok (vs', n') ∧
      (∀ b, b ∈ vs' ↔ b ∈ vs ∨ ∃ j l, specs[j]? = some l ∧ some b.value ∈ l ∧ b.index = i + j) ∧
      ∀ k, n' = some k ↔ n = some k ∨ ∃ j l, specs[j]? = some l ∧ none ∈ l ∧ k = i + j := by
  induction specs generalizing i vs n with
  | nil => exact ⟨vs, n, rfl, by simp, by simp⟩
  | cons l specs ih =>
    rw [flatten_cons, filter_append, length_append] at hnulls
    obtain ⟨vs₁, n₁, hok₁, hvs₁, hn₁⟩ :=
      collectListValues_ok i vs n (by omega : (l.filter (·.isNone)).length + _ ≤ 1)
    have hnulls₁ : (specs.flatten.filter (·.isNone)).length + n₁.toList.length ≤ 1 := by
      cases n₁ with
      | none => simp only [Option.toList_none, length_nil]; omega
      | some k =>
        rw [Option.toList_some, length_singleton]
        obtain rfl | ⟨hmem, -⟩ := (hn₁ k).1 rfl
        · rw [Option.toList_some, length_singleton] at hnulls
          omega
        · have hpos : 0 < (l.filter (·.isNone)).length :=
            length_pos_of_mem (mem_filter.2 ⟨hmem, rfl⟩)
          omega
    obtain ⟨vs', n', hok, hvs', hn'⟩ := ih (i + 1) vs₁ n₁ hnulls₁
    refine ⟨vs', n', ?_, fun b => ?_, fun k => ?_⟩
    · rw [collectAllValues, hok₁]
      exact hok
    · rw [hvs', hvs₁, or_assoc, exists_getElem?_cons]
    · rw [hn', hn₁, or_assoc, exists_getElem?_cons]

/-- What a list descriptor is built from: the values of all lists, sorted, and the list with the
null. -/
structure ListStored (key : PartitionKey D) (specs : List (List (Option D)))
    (values : List (PartitionListValue D)) (nullIndex : Option Nat) : Prop where
  apart : ListsApart key specs
  mem : ∀ {b : PartitionListValue D}, b ∈ values ↔ ∃ l, specs[b.index]? = some l ∧ some b.value ∈ l
  sorted : values.Pairwise fun a b => (qsortPartitionListValueCmp key a b).isLE = true
  null : ∀ {k : Nat}, nullIndex = some k ↔ ∃ l, specs[k]? = some l ∧ none ∈ l

instance : TransCmp key.firstCmp := key.lawful _ (List.head_mem key.ne_nil)

instance : TransCmp (qsortPartitionListValueCmp key) where
  eq_swap := fun {a b} =>
    (OrientedCmp.eq_swap : key.firstCmp a.value b.value = (key.firstCmp b.value a.value).swap)
  isLE_trans := fun {a b c} (hab : (key.firstCmp a.value b.value).isLE = true)
    (hbc : (key.firstCmp b.value c.value).isLE = true) =>
      show (key.firstCmp a.value c.value).isLE = true from TransCmp.isLE_trans hab hbc

/-- The mapping after the loop over the values and the null-accepting partition. -/
def listMapping (values : List (PartitionListValue D)) (nullIndex : Option Nat) : Mapping Nat :=
  match nullIndex with
  | some i => (numberAll (values.map (some ·.index)) ⟨fun _ => none, 0⟩).2.assign i
  | none => (numberAll (values.map (some ·.index)) ⟨fun _ => none, 0⟩).2

theorem buildListDesc_eq (qsort : Qsort) {specs : List (List (Option D))}
    (hapart : ListsApart key specs) (oids : List Oid) :
    ∃ values nullIndex, ListStored key specs values nullIndex ∧
      buildListDesc key qsort oids specs =
        .ok ⟨oids.length, assignOids (listMapping values nullIndex).mapping oids,
        some (.list (values.map (·.value))
          (numberAll (values.map (some ·.index)) ⟨fun _ => none, 0⟩).1
          (nullIndex.bind (listMapping values nullIndex).mapping))⟩ := by
  obtain ⟨vs, n, hok, hvs, hn⟩ :=
    collectAllValues_ok 0 specs [] none (by simpa using hapart.one_null)
  refine ⟨qsort.run (qsortPartitionListValueCmp key) vs, n,
    ⟨hapart, fun {b} => ?_, qsort.sorted (qsortPartitionListValueCmp key) vs, fun {k} => ?_⟩, ?_⟩
  · rw [(qsort.perm _ _).mem_iff, hvs, or_iff_right not_mem_nil]
    constructor
    · rintro ⟨j, l, hj, hmem, hindex⟩
      rw [hindex, Nat.zero_add]
      exact ⟨l, hj, hmem⟩
    · rintro ⟨l, hl, hmem⟩
      exact ⟨b.index, l, hl, hmem, (Nat.zero_add _).symm⟩
  · rw [hn, or_iff_right (by simp)]
    constructor
    · rintro ⟨j, l, hj, hmem, rfl⟩
      rw [Nat.zero_add]
      exact ⟨l, hj, hmem⟩
    · rintro ⟨l, hl, hmem⟩
      exact ⟨k, l, hl, hmem, (Nat.zero_add _).symm⟩
  · rw [buildListDesc, hok]
    cases n <;> rfl

variable {specs : List (List (Option D))} {values : List (PartitionListValue D)}
  {nullIndex : Option Nat}

/-- Every list has a value or the null, and so its partition a number. -/
theorem ListStored.numbered (h : ListStored key specs values nullIndex) :
    ∃ seen, Numbered seen (listMapping values nullIndex) ∧ ∀ i, i ∈ seen ↔ i < specs.length := by
  obtain ⟨seen, hseen, hmem⟩ := Numbered.nil.numberAll (values.map (some ·.index))
  have hvalue : ∀ i, i ∈ seen ↔ ∃ l v, specs[i]? = some l ∧ some v ∈ l := by
    intro i
    rw [hmem, or_iff_right not_mem_nil, mem_map]
    constructor
    · rintro ⟨b, hb, hi⟩
      cases hi
      obtain ⟨l, hl, hv⟩ := h.mem.1 hb
      exact ⟨l, b.value, hl, hv⟩
    · rintro ⟨l, v, hl, hv⟩
      exact ⟨⟨i, v⟩, h.mem.2 ⟨l, hl, hv⟩, rfl⟩
  -- a list without values has the null
  have hcases : ∀ i, i < specs.length → i ∈ seen ∨ nullIndex = some i := by
    intro i hi
    have hl := getElem?_eq_getElem hi
    obtain ⟨x, rest, hx⟩ := exists_cons_of_ne_nil (h.apart.ne_nil _ (getElem_mem hi))
    cases x with
    | some v => exact .inl ((hvalue i).2 ⟨_, v, hl, hx ▸ mem_cons_self⟩)
    | none => exact .inr (h.null.2 ⟨_, hl, hx ▸ mem_cons_self⟩)
  have hlt : ∀ i, i ∈ seen → i < specs.length := by
    intro i hi
    obtain ⟨l, v, hl, -⟩ := (hvalue i).1 hi
    exact (List.getElem?_eq_some_iff.1 hl).1
  cases hnull : nullIndex with
  | none =>
    exact ⟨seen, hseen, fun i => ⟨hlt i, fun hi => (hcases i hi).resolve_right (by simp [hnull])⟩⟩
  | some k =>
    refine ⟨_, hseen.assign k, fun i => ?_⟩
    obtain ⟨l, hl, -⟩ := h.null.1 hnull
    have hk := (List.getElem?_eq_some_iff.1 hl).1
    rw [hnull] at hcases
    split
    · rename_i hkseen
      refine ⟨hlt i, fun hi => (hcases i hi).elim id fun hik => ?_⟩
      cases hik
      exact hkseen
    · rw [mem_append, mem_singleton]
      constructor
      · rintro (hi | rfl)
        · exact hlt i hi
        · exact hk
      · intro hi
        exact (hcases i hi).imp id fun hik => (Option.some.inj hik).symm

variable (key) in
/-- The descriptor of a list partitioned table. -/
def listDesc (oids : List Oid) (values : List (PartitionListValue D)) (nullIndex : Option Nat) :
    PartitionDesc key :=
  ⟨oids.length, assignOids (listMapping values nullIndex).mapping oids,
    some (.list (values.map (·.value)) (numberAll (values.map (some ·.index)) ⟨fun _ => none, 0⟩).1
      (nullIndex.bind (listMapping values nullIndex).mapping))⟩

/-- The number stored with a value is that of its partition. -/
theorem list_indexes {k : Nat} {b : PartitionListValue D} (hk : values[k]? = some b) :
    (((numberAll (values.map (some ·.index)) ⟨fun _ => none, 0⟩).1)[k]?).join =
      (listMapping values nullIndex).mapping b.index := by
  have hmem :
      (numberAll (values.map (some ·.index)) ⟨fun _ => none, 0⟩).2.mapping b.index ≠ none := by
    obtain ⟨seen, hseen, hall⟩ := Numbered.nil.numberAll (values.map (some ·.index))
    rw [ne_eq, hseen.eq_none_iff, not_not, hall]
    exact .inr (mem_map.2 ⟨b, mem_of_getElem? hk, rfl⟩)
  rw [numberAll_eq, getElem?_map, getElem?_map, hk]
  cases nullIndex with
  | none => rfl
  | some i => exact (mapping_assign_of_ne_none hmem i).symm

/-- The search for a value among the stored ones. -/
theorem ListStored.search (h : ListStored key specs values nullIndex) (v : D)
    (indexes : List (Option Nat)) (null : Option Nat) :
    let search :=
      partitionBoundBsearch key (.list (values.map (·.value)) indexes null) (.datums [v])
    (search.2 = true ↔ ∃ b ∈ values, key.firstCmp b.value v = .eq) ∧
      (search.2 = true → ∃ (k : Nat) (b : PartitionListValue D), search.1 = k ∧
        values[k]? = some b ∧ key.firstCmp b.value v = .eq) := by
  have hf : ∀ (k : Nat) (b : PartitionListValue D), values[k]? = some b →
      partitionBoundCmp key (.list (values.map (·.value)) indexes null) k (.datums [v]) =
      qsortPartitionListValueCmp key b ⟨0, v⟩ := by
    intro k b hk
    rw [partitionBoundCmp, getElem?_map, hk]
    rfl
  have hspec := bsearch_list h.sorted ⟨0, v⟩ hf
  intro search
  have hsearch : search =
      bsearch (partitionBoundCmp key (.list (values.map (·.value)) indexes null) · (.datums [v]))
      values.length := by
    simp only [search, partitionBoundBsearch, PartitionBoundInfo.ndatums, length_map]
  rw [hsearch]
  exact hspec

variable {oids : List Oid}

/-- The OID behind the number of a partition. -/
theorem ListStored.oid (h : ListStored key specs values nullIndex)
    (hoids : oids.length = specs.length) {i : Nat} {oid : Oid} (hoid : oids[i]? = some oid) :
    ((listMapping values nullIndex).mapping i).bind
      ((listDesc key oids values nullIndex).oids[·]?) = some oid := by
  obtain ⟨seen, hseen, hall⟩ := h.numbered
  obtain ⟨k, hk, hkoid⟩ := assignOids_mapping hseen (fun i => by rw [hall, hoids]) hoid
  rw [hk, Option.bind_some]
  exact hkoid

theorem route_list_null (hstrategy : key.strategy = .list) (hne : oids ≠ []) :
    getPartitionForTuple key (listDesc key oids values nullIndex) [none] =
    nullIndex.bind (listMapping values nullIndex).mapping := by
  have hnparts : ¬ (listDesc key oids values nullIndex).nparts = 0 :=
    fun h => hne (length_eq_zero_iff.1 h)
  rw [getPartitionForTuple, if_neg hnparts, if_neg (by simp [hstrategy])]
  rfl

/-- A row with a key goes to the partition of an equal value, if there is one. -/
theorem ListStored.route_value (h : ListStored key specs values nullIndex)
    (hstrategy : key.strategy = .list) (hne : oids ≠ []) (v : D) :
    (∃ b ∈ values, key.firstCmp b.value v = .eq ∧
      getPartitionForTuple key (listDesc key oids values nullIndex) [some v] =
        (listMapping values nullIndex).mapping b.index) ∨
    (∀ b ∈ values, key.firstCmp b.value v ≠ .eq) ∧
    getPartitionForTuple key (listDesc key oids values nullIndex) [some v] = none := by
  have hnparts : ¬ (listDesc key oids values nullIndex).nparts = 0 :=
    fun h => hne (length_eq_zero_iff.1 h)
  obtain ⟨hiff, hfound⟩ := h.search v (numberAll (values.map (some ·.index)) ⟨fun _ => none, 0⟩).1
    (nullIndex.bind (listMapping values nullIndex).mapping)
  rw [getPartitionForTuple, if_neg hnparts, if_neg (by simp [hstrategy])]
  have hvalues : ([some v] : List (Option D)).filterMap id = [v] := rfl
  dsimp only [listDesc, head?_cons]
  rw [hvalues]
  split
  · rename_i hcond
    obtain ⟨k, b, hoffset, hk, heq⟩ := hfound hcond.2
    refine .inl ⟨b, mem_of_getElem? hk, heq, ?_⟩
    rw [hoffset, Int.toNat_natCast, list_indexes hk]
  · rename_i hcond
    refine .inr ⟨fun b hb heq => hcond ?_, rfl⟩
    have hequal := hiff.2 ⟨b, hb, heq⟩
    obtain ⟨k, -, hoffset, -⟩ := hfound hequal
    exact ⟨by rw [hoffset]; omega, hequal⟩

end

/-! ## All partitions of a table -/

section
variable {D : Type} (key : PartitionKey D)

/-- Every row goes to the partition that accepts it, and to none if there is none. -/
def Routes (qsort : Qsort) (parts : List (Oid × PartitionBoundSpec key)) : Prop :=
  ∃ desc, relationBuildPartitionDesc key qsort parts = .ok desc ∧
    ∀ values, values.length = key.partnatts →
      (∀ part ∈ parts, selected key desc values = some part.1 ↔ part.2.Accepts key values) ∧
      ((∀ part ∈ parts, ¬ part.2.Accepts key values) → getPartitionForTuple key desc values = none)

def rangeParts (parts : List (Oid × Interval key.Datums)) : List (Oid × PartitionBoundSpec key) :=
  parts.map fun p => (p.1, .range p.2)

def listParts (parts : List (Oid × List (Option D))) : List (Oid × PartitionBoundSpec key) :=
  parts.map fun p => (p.1, .list p.2)

variable {key}

theorem mapM_rangedatums (parts : List (Oid × Interval key.Datums)) :
    ((rangeParts key parts).mapM fun part => part.2.rangedatums) = .ok (parts.map (·.2)) := by
  rw [rangeParts, mapM_map]
  exact mapM_pure

theorem mapM_listdatums (parts : List (Oid × List (Option D))) :
    ((listParts key parts).mapM fun part => part.2.listdatums) = .ok (parts.map (·.2)) := by
  rw [listParts, mapM_map]
  exact mapM_pure

theorem build_rangeParts (hstrategy : key.strategy = .range) (qsort : Qsort)
    {parts : List (Oid × Interval key.Datums)} (hne : parts ≠ []) :
    relationBuildPartitionDesc key qsort (rangeParts key parts) =
      .ok (buildRangeDesc key qsort (parts.map (·.1)) (parts.map (·.2))) := by
  have hlen : ¬ (rangeParts key parts).length = 0 := by simpa [rangeParts] using hne
  rw [relationBuildPartitionDesc, if_neg hlen, hstrategy]
  rw [mapM_rangedatums]
  simp [rangeParts, Except.map, Function.comp_def]

theorem build_listParts (hstrategy : key.strategy = .list) (qsort : Qsort)
    {parts : List (Oid × List (Option D))} (hne : parts ≠ []) :
    relationBuildPartitionDesc key qsort (listParts key parts) =
      buildListDesc key qsort (parts.map (·.1)) (parts.map (·.2)) := by
  have hlen : ¬ (listParts key parts).length = 0 := by simpa [listParts] using hne
  rw [relationBuildPartitionDesc, if_neg hlen, hstrategy]
  rw [mapM_listdatums]
  simp [listParts, Except.bind, Function.comp_def]

theorem routes_nil (qsort : Qsort) : Routes key qsort [] :=
  ⟨⟨0, [], none⟩, rfl, fun _ _ => ⟨fun part hpart => (by cases hpart), fun _ => rfl⟩⟩

/-- A row without null keys, or one with a null. -/
theorem exists_values_or_null (values : List (Option D)) :
    (∃ vs : List D, values = vs.map some) ∨ none ∈ values := by
  induction values with
  | nil => exact .inl ⟨[], rfl⟩
  | cons x values ih =>
    cases x with
    | none => exact .inr mem_cons_self
    | some v =>
      obtain ⟨vs, rfl⟩ | hnull := ih
      · exact .inl ⟨v :: vs, rfl⟩
      · exact .inr (mem_cons_of_mem _ hnull)

theorem routes_range (qsort : Qsort) {parts : List (Oid × Interval key.Datums)}
    (hstrategy : key.strategy = .range) (hnodup : (parts.map (·.1)).Nodup)
    (hapart : RangesApart key (parts.map (·.2))) :
    Routes key qsort (rangeParts key parts) := by
  by_cases hne : parts = []
  · subst hne
    exact routes_nil qsort
  have hlen : (parts.map (·.1)).length = (parts.map (·.2)).length := by rw [length_map, length_map]
  refine ⟨_, build_rangeParts hstrategy qsort hne, fun values hvalues => ?_⟩
  obtain ⟨vs, rfl⟩ | hnull := exists_values_or_null values
  · have hvs : vs.length = key.partnatts := by rwa [length_map] at hvalues
    have haccepts : ∀ I, (PartitionBoundSpec.range I).Accepts key (vs.map some) ↔
        InRange key I vs := by
      intro I
      constructor
      · rintro ⟨vs', heq, hrange⟩
        rwa [map_injective_iff.2 (Option.some_injective D) heq]
      · exact fun hrange => ⟨vs, rfl, hrange⟩
    refine ⟨fun part hpart => ?_, fun hnone => ?_⟩
    · obtain ⟨p, hp, rfl⟩ := mem_map.1 hpart
      obtain ⟨i, hi⟩ := mem_iff_getElem?.1 hp
      rw [haccepts]
      exact selected_range_iff hapart.separated hlen hnodup hvs (by rw [getElem?_map, hi]; rfl)
        (by rw [getElem?_map, hi]; rfl)
    · refine route_range_eq_none hapart.separated hlen (by simpa using hne) hvs fun I hI => ?_
      obtain ⟨p, hp, rfl⟩ := mem_map.1 hI
      exact fun hrange => hnone _ (mem_map.2 ⟨p, hp, rfl⟩) ((haccepts _).2 hrange)
  · have hroute : ∀ desc, getPartitionForTuple key desc values = none :=
      fun _ => rangeDesc_route_null hstrategy hnull
    refine ⟨fun part hpart => ?_, fun _ => hroute _⟩
    obtain ⟨p, -, rfl⟩ := mem_map.1 hpart
    refine iff_of_false ?_ ?_
    · rw [selected, hroute]
      exact Option.some_ne_none _ ∘ Eq.symm
    · rintro ⟨vs, rfl, -⟩
      simp at hnull

theorem accepts_null {l : List (Option D)} :
    (PartitionBoundSpec.list l).Accepts key [none] ↔ none ∈ l := by
  constructor
  · rintro (⟨-, h⟩ | ⟨v, w, h, -⟩)
    · exact h
    · cases h
  · exact fun h => .inl ⟨rfl, h⟩

theorem accepts_value {l : List (Option D)} {v : D} :
    (PartitionBoundSpec.list l).Accepts key [some v] ↔ ∃ w, some w ∈ l ∧
    key.firstCmp w v = .eq := by
  constructor
  · rintro (⟨h, -⟩ | ⟨v', w, h, hw⟩)
    · cases h
    · cases h
      exact ⟨w, hw⟩
  · rintro ⟨w, hw⟩
    exact .inr ⟨v, w, rfl, hw⟩

section
variable {specs : List (List (Option D))} {values : List (PartitionListValue D)}
  {nullIndex : Option Nat} {oids : List Oid}

/-- The row's partition, for a key or a null. -/
theorem ListStored.selected_iff (h : ListStored key specs values nullIndex)
    (hstrategy : key.strategy = .list) (hoids : oids.length = specs.length) (hnodup : oids.Nodup)
    {i : Nat} {l : List (Option D)} {oid : Oid} (hl : specs[i]? = some l)
    (hoid : oids[i]? = some oid) (x : Option D) :
    selected key (listDesc key oids values nullIndex) [x] = some oid ↔
    (PartitionBoundSpec.list l).Accepts key [x] := by
  have hne : oids ≠ [] := fun hnil => by
    rw [hnil] at hoid
    cases hoid
  -- the partition of a number is the one the number was given to
  have hsame : ∀ {j : Nat} {l' : List (Option D)}, specs[j]? = some l' →
      (((listMapping values nullIndex).mapping j).bind
        ((listDesc key oids values nullIndex).oids[·]?) = some oid ↔ j = i) := by
    intro j l' hj
    have hjlt := (List.getElem?_eq_some_iff.1 hj).1
    rw [← hoids] at hjlt
    have hjoid := getElem?_eq_getElem hjlt
    rw [h.oid hoids hjoid, ← hjoid, ← hoid]
    exact getElem?_inj hjlt hnodup
  cases x with
  | none =>
    rw [selected, route_list_null hstrategy hne, accepts_null]
    cases hnull : nullIndex with
    | none =>
      refine iff_of_false (by simp) fun hmem => ?_
      have hcontra := h.null.2 ⟨l, hl, hmem⟩
      rw [hnull] at hcontra
      cases hcontra
    | some k =>
      obtain ⟨l', hl', hmem'⟩ := h.null.1 hnull
      rw [Option.bind_some, ← hnull, hsame hl']
      constructor
      · rintro rfl
        cases hl'.symm.trans hl
        exact hmem'
      · intro hmem
        exact Option.some.inj (hnull.symm.trans (h.null.2 ⟨l, hl, hmem⟩))
  | some v =>
    rw [selected, accepts_value]
    obtain ⟨b, hb, heq, hroute⟩ | ⟨hnone, hroute⟩ := h.route_value hstrategy hne v
    · obtain ⟨l', hl', hmem'⟩ := h.mem.1 hb
      rw [hroute, hsame hl']
      constructor
      · rintro rfl
        cases hl'.symm.trans hl
        exact ⟨b.value, hmem', heq⟩
      · rintro ⟨w, hw, hwv⟩
        by_contra hne'
        exact h.apart.apart hne' hl' hl hmem' hw (TransCmp.eq_trans heq (OrientedCmp.eq_comm.1 hwv))
    · rw [hroute]
      refine iff_of_false (by simp) ?_
      rintro ⟨w, hw, hwv⟩
      exact hnone ⟨i, w⟩ (h.mem.2 ⟨l, hl, hw⟩) hwv

end

theorem routes_list (qsort : Qsort) {parts : List (Oid × List (Option D))}
    (hstrategy : key.strategy = .list) (hnatts : key.partnatts = 1)
    (hnodup : (parts.map (·.1)).Nodup) (hapart : ListsApart key (parts.map (·.2))) :
    Routes key qsort (listParts key parts) := by
  by_cases hne : parts = []
  · subst hne
    exact routes_nil qsort
  have hlen : (parts.map (·.1)).length = (parts.map (·.2)).length := by rw [length_map, length_map]
  have hoids : parts.map (·.1) ≠ [] := by simpa using hne
  obtain ⟨values, nullIndex, hstored, hdesc⟩ := buildListDesc_eq qsort hapart (parts.map (·.1))
  have hbuild : relationBuildPartitionDesc key qsort (listParts key parts) =
      .ok (listDesc key (parts.map (·.1)) values nullIndex) :=
    (build_listParts hstrategy qsort hne).trans hdesc
  refine ⟨_, hbuild, fun row hrow => ?_⟩
  rw [hnatts, length_eq_one_iff] at hrow
  obtain ⟨x, rfl⟩ := hrow
  refine ⟨fun part hpart => ?_, fun hnone => ?_⟩
  · obtain ⟨p, hp, rfl⟩ := mem_map.1 hpart
    obtain ⟨i, hi⟩ := mem_iff_getElem?.1 hp
    exact hstored.selected_iff hstrategy hlen hnodup (by rw [getElem?_map, hi]; rfl)
      (by rw [getElem?_map, hi]; rfl) x
  · have hrefuses : ∀ {i : Nat} {l : List (Option D)}, (parts.map (·.2))[i]? = some l →
        ¬ (PartitionBoundSpec.list l).Accepts key [x] := by
      intro i l hl
      obtain ⟨p, hp, rfl⟩ := mem_map.1 (mem_of_getElem? hl)
      exact hnone _ (mem_map.2 ⟨p, hp, rfl⟩)
    cases x with
    | none =>
      rw [route_list_null hstrategy hoids]
      cases hnull : nullIndex with
      | none => rfl
      | some k =>
        obtain ⟨l, hl, hmem⟩ := hstored.null.1 hnull
        exact absurd (accepts_null.2 hmem) (hrefuses hl)
    | some v =>
      obtain ⟨b, hb, heq, -⟩ | ⟨-, hroute⟩ := hstored.route_value hstrategy hoids v
      · obtain ⟨l, hl, hmem⟩ := hstored.mem.1 hb
        exact absurd (accepts_value.2 ⟨b.value, hmem, heq⟩) (hrefuses hl)
      · exact hroute

/-- Routing is right for range partitions that do not overlap and for list partitions without
common values, in whatever order the catalog lists them. -/
theorem tuple_routing (key : PartitionKey D) (qsort : Qsort) :
    (∀ parts : List (Oid × Interval key.Datums), key.strategy = .range → (parts.map (·.1)).Nodup →
      RangesApart key (parts.map (·.2)) → Routes key qsort (rangeParts key parts)) ∧
    (∀ parts : List (Oid × List (Option D)), key.strategy = .list → key.partnatts = 1 →
      (parts.map (·.1)).Nodup →
      ListsApart key (parts.map (·.2)) → Routes key qsort (listParts key parts)) :=
  ⟨fun _ hstrategy hnodup hapart => routes_range qsort hstrategy hnodup hapart,
    fun _ hstrategy hnatts hnodup hapart => routes_list qsort hstrategy hnatts hnodup hapart⟩

end

/-! The partitions of a table over numbers, in two columns and in one. -/

def pairKey : PartitionKey Nat :=
  ⟨.range, [compare, compare], fun cmp hcmp => by
    obtain rfl | rfl : cmp = compare ∨ cmp = compare := by simpa using hcmp
    all_goals infer_instance, by simp⟩

def numberKey : PartitionKey Nat :=
  ⟨.list, [compare], fun cmp hcmp => by
    obtain rfl : cmp = compare := by simpa using hcmp
    infer_instance, by simp⟩

/-- From (MINVALUE, MINVALUE) to (5, 3), and from there to (9, MAXVALUE). -/
def pairParts : List (Oid × Interval pairKey.Datums) :=
  [(16385, ⟨⟨[.value 5, .value 3], rfl⟩, ⟨[.value 9, .maxvalue], rfl⟩⟩),
   (16384, ⟨⟨[.minvalue, .minvalue], rfl⟩, ⟨[.value 5, .value 3], rfl⟩⟩)]

def numberParts : List (Oid × List (Option Nat)) :=
  [(16384, [some 1, none]), (16385, [some 2, some 3])]

theorem pairParts_apart : RangesApart pairKey (pairParts.map (·.2)) where
  nonempty := by
    intro I hI
    simp only [pairParts, map_cons, map_nil, mem_cons, not_mem_nil, or_false] at hI
    obtain rfl | rfl := hI <;> decide
  apart := by
    intro i j I J hij hI hJ
    match i, j with
    | 0, 0 => exact absurd rfl hij
    | 1, 1 => exact absurd rfl hij
    | 0, 1 => cases hI; cases hJ; decide
    | 1, 0 => cases hI; cases hJ; decide

theorem numberParts_apart : ListsApart numberKey (numberParts.map (·.2)) where
  ne_nil := by decide
  apart := by
    intro i j l l' v w hij hl hl' hv hw
    match i, j with
    | 0, 0 => exact absurd rfl hij
    | 1, 1 => exact absurd rfl hij
    | 0, 1 =>
      cases hl
      cases hl'
      obtain rfl : v = 1 := by simpa using hv
      obtain rfl | rfl : w = 2 ∨ w = 3 := by simpa using hw
      all_goals decide
    | 1, 0 =>
      cases hl
      cases hl'
      obtain rfl : w = 1 := by simpa using hw
      obtain rfl | rfl : v = 2 ∨ v = 3 := by simpa using hv
      all_goals decide
  one_null := by decide

theorem tuple_routing_numbers :
    Routes pairKey Qsort.mergeSort (rangeParts pairKey pairParts) ∧
    Routes numberKey Qsort.mergeSort (listParts numberKey numberParts) :=
  ⟨(tuple_routing pairKey Qsort.mergeSort).1 pairParts rfl (by decide) pairParts_apart,
    (tuple_routing numberKey Qsort.mergeSort).2 numberParts rfl rfl (by decide) numberParts_apart⟩

/-! ## A new range -/

section
variable {D : Type} {key : PartitionKey D} {qsort : Qsort} {specs : List (Interval key.Datums)}
  {oids : List Oid}

theorem checkNewPartitionBound_empty {desc : PartitionDesc key} {spec : Interval key.Datums}
    (h : ¬ LowerBelowUpper key spec.lower spec.upper) :
    checkNewPartitionBound key desc (.range spec) = .error .emptyRange := by
  have hge : (partitionRboundCmp key spec.lower true ⟨0, spec.upper, false⟩).isGE = true := by
    cases hcmp : partitionRboundCmp key spec.lower true ⟨0, spec.upper, false⟩ with
    | lt => exact absurd hcmp h
    | eq => rfl
    | gt => rfl
  exact if_pos hge

theorem checkNewPartitionBound_nonempty {desc : PartitionDesc key} {spec : Interval key.Datums}
    (h : LowerBelowUpper key spec.lower spec.upper) :
    checkNewPartitionBound key desc (.range spec) =
      match desc.boundinfo with
      | some (.range datums indexes) =>
        checkRange key desc (.range datums indexes) indexes ⟨0, spec.lower, true⟩ ⟨0,
          spec.upper, false⟩
      | _ => .ok () := by
  rw [checkNewPartitionBound]
  rw [h]
  exact if_neg (by decide)

theorem overlapWith_of_find {desc : PartitionDesc key} {k : Nat} {oid : Oid}
    (h : desc.oids[k]? = some oid) :
    overlapWith key desc (some k) = .error (.overlap oid) := by
  rw [overlapWith, Option.bind_some, h]
  rfl

/-- The search for the new lower bound, and the two places of the table looked at. -/
theorem checkRange_eq (hsep : Separated (datumsCmp key) specs) (desc : PartitionDesc key)
    (K : Interval key.Datums) :
    ∃ m ≤ (rbounds key qsort specs).length,
      (rbounds key qsort specs).find? (above (datumsCmp key) K.lower) =
        (rbounds key qsort specs)[m]? ∧
      checkRange key desc (rangeInfo key qsort specs)
        ((numberAll (endsOf key qsort specs) ⟨fun _ => none, 0⟩).1 ++ [none])
          ⟨0, K.lower, true⟩ ⟨0, K.upper, false⟩ =
        match (rbounds key qsort specs)[m]?.bind (endNumber (rangeMapping key qsort specs)) with
        | none =>
          if m < (rbounds key qsort specs).length ∧
              partitionBoundCmp key (rangeInfo key qsort specs) m (.bound ⟨0, K.upper, false⟩) =
                .lt then
            overlapWith key desc
              ((rbounds key qsort specs)[m + 1]?.bind (endNumber (rangeMapping key qsort specs)))
          else .ok ()
        | some i => overlapWith key desc (some i) := by
  obtain ⟨m, hm, hoffset, hfind⟩ := search_range qsort hsep K.lower
    (f := fun k => partitionBoundCmp key (rangeInfo key qsort specs) k (.bound ⟨0, K.lower, true⟩))
    (fun k b hk => by rw [partitionBoundCmp_bound hsep hk, boundaryCmp_lower_eq_gt])
    (fun k b hk hlt => by rw [partitionBoundCmp_bound hsep hk, boundaryCmp, hlt]; rfl)
  have hsearch :
      (partitionBoundBsearch key (rangeInfo key qsort specs) (.bound ⟨0, K.lower, true⟩)).1 + 1 =
      m := by
    rw [partitionBoundBsearch, ndatums_rangeInfo]
    exact hoffset
  have hnext :
      ((partitionBoundBsearch key (rangeInfo key qsort specs) (.bound ⟨0, K.lower, true⟩)).1 +
        2).toNat = m + 1 := by
    omega
  refine ⟨m, hm, hfind, ?_⟩
  rw [checkRange, hsearch, hnext, Int.toNat_natCast, ndatums_rangeInfo, buildRangeDesc_indexes]
  cases (rbounds key qsort specs)[m]?.bind (endNumber (rangeMapping key qsort specs)) with
  | none => simp only [buildRangeDesc_indexes]
  | some i => simp only

variable (qsort) in
/-- A nonempty new range is let in, or the partition named meets it. -/
theorem checkNewPartitionBound_meets (hapart : RangesApart key specs)
    (hoids : oids.length = specs.length) {K : Interval key.Datums}
    (hK : LowerBelowUpper key K.lower K.upper) :
    let result := checkNewPartitionBound key (buildRangeDesc key qsort oids specs) (.range K)
    (result = .ok () ∧ ∀ I ∈ specs, ¬ RangesMeet key K I) ∨
    ∃ (i : Nat) (I : Interval key.Datums) (oid : Oid), specs[i]? = some I ∧ oids[i]? = some oid ∧
      RangesMeet key K I ∧ result = .error (.overlap oid) := by
  intro result
  have hsep := hapart.separated
  simp only [rangesMeet_iff]
  obtain ⟨m, hm, hfind, hresult⟩ := checkRange_eq hsep (buildRangeDesc key qsort oids specs) K
  have hresult : result = _ := (checkNewPartitionBound_nonempty hK).trans hresult
  have hall := hfind
  rw [rbounds_eq, find_distinct (fun p hp => by cases hp), ← rbounds_eq] at hall
  cases hb : (rbounds key qsort specs)[m]? with
  | none =>
    -- no bound lies above the new lower one
    have hlen := getElem?_eq_none_iff.1 hb
    rw [hb, Option.bind_none] at hresult
    dsimp only at hresult
    rw [if_neg (by omega)] at hresult
    refine .inl ⟨hresult, fun I hI => ?_⟩
    obtain ⟨i, hi⟩ := mem_iff_getElem?.1 hI
    exact (arranged hsep).not_meets_of_find_none (hall.trans hb) hi
  | some b =>
    rw [hb, Option.bind_some] at hresult
    have hlen := (List.getElem?_eq_some_iff.1 hb).1
    have hbmem := mem_of_getElem? hb
    cases hlower : b.lower with
    | false =>
      obtain ⟨I, oid, k, hI, hmem, hoid, hend, hk⟩ :=
        oid_of_find oids hsep hoids (hfind.trans hb) hlower
      rw [hend] at hresult
      exact .inr ⟨b.index, I, oid, hI, hoid, Interval.meets_of_mem (lowerBelowUpper_iff.1 hK) hmem,
        hresult.trans (overlapWith_of_find hk)⟩
    | true =>
      rw [(endNumber_eq_none_iff hsep hbmem).2 hlower] at hresult
      dsimp only at hresult
      simp only [partitionBoundCmp_bound hsep hb, boundaryCmp_upper_eq_lt hlower] at hresult
      by_cases hlt : datumsCmp key b.value K.upper = .lt
      · -- the partition that begins at this bound ends at the next one
        rw [if_pos ⟨hlen, hlt⟩] at hresult
        rw [rbounds_eq] at hbmem
        obtain ⟨J, hJ, hvalue⟩ :=
          mem_boundaries.1 ((qsort.perm _ _).mem_iff.1 (distinct_subset hbmem))
        rw [if_pos hlower] at hvalue
        have hJlt := hsep.nonempty J (mem_of_getElem? hJ)
        have hupper : (rbounds key qsort specs).find? (above (datumsCmp key) b.value) =
            some ⟨b.index, J.upper, false⟩ := by
          rw [hvalue, rbounds_eq]
          exact (arranged hsep).find_distinct hJ (Interval.mem_lower hJlt)
        have hpair : (rbounds key qsort specs).Pairwise fun a b =>
            datumsCmp key a.value b.value = .lt := by
          rw [rbounds_eq]
          exact (arranged hsep).pairwise
        obtain ⟨J', oid, k, hJ', -, hoid, hend, hk⟩ := oid_of_find oids hsep hoids hupper rfl
        rw [← find_above_getElem? hpair hb, hupper, Option.bind_some, hend] at hresult
        have habove := OrientedCmp.gt_iff_lt.1 (above_of_find (hfind.trans hb))
        rw [hvalue] at habove hlt
        exact .inr ⟨b.index, J, oid, hJ, hoid, ⟨TransCmp.lt_trans habove hJlt, hlt⟩,
          hresult.trans (overlapWith_of_find hk)⟩
      · rw [if_neg fun hcond => hlt hcond.2] at hresult
        refine .inl ⟨hresult, fun I hI => ?_⟩
        obtain ⟨i, hi⟩ := mem_iff_getElem?.1 hI
        exact (arranged hsep).not_meets_of_find_lower (hall.trans hb) hlower hlt hi

end

section
variable {D : Type}

/-- A new range bound is refused exactly if its lower bound is not below the upper one or it meets
the range of an existing partition; a partition named in the error is one that it meets. -/
theorem checkNewPartitionBound_exact (key : PartitionKey D) (qsort : Qsort)
    (hstrategy : key.strategy = .range) {parts : List (Oid × Interval key.Datums)}
    (hapart : RangesApart key (parts.map (·.2))) {desc : PartitionDesc key}
    (hdesc : relationBuildPartitionDesc key qsort (rangeParts key parts) = .ok desc)
    (spec : Interval key.Datums) :
    ((∃ err, checkNewPartitionBound key desc (.range spec) = .error err) ↔
      ¬ LowerBelowUpper key spec.lower spec.upper ∨ ∃ part ∈ parts, RangesMeet key spec part.2) ∧
    ∀ oid, checkNewPartitionBound key desc (.range spec) = .error (.overlap oid) →
      ∃ part ∈ parts, part.1 = oid ∧ RangesMeet key spec part.2 := by
  by_cases hlt : LowerBelowUpper key spec.lower spec.upper
  · by_cases hne : parts = []
    · subst hne
      cases hdesc
      rw [checkNewPartitionBound_nonempty hlt]
      simp [hlt]
    cases hdesc.symm.trans (build_rangeParts hstrategy qsort hne)
    have hlen : (parts.map (·.1)).length = (parts.map (·.2)).length := by
      rw [length_map, length_map]
    obtain ⟨hok, hfree⟩ | ⟨i, I, oid, hI, hoid, hmeet, herror⟩ :=
      checkNewPartitionBound_meets qsort hapart hlen hlt
    · have hnone : ¬ ∃ part ∈ parts, RangesMeet key spec part.2 := by
        rintro ⟨part, hpart, hmeet⟩
        exact hfree part.2 (mem_map.2 ⟨part, hpart, rfl⟩) hmeet
      simp [hok, hlt, hnone]
    · rw [getElem?_map, Option.map_eq_some_iff] at hI hoid
      obtain ⟨part, hpart, rfl⟩ := hI
      obtain ⟨part', hpart', rfl⟩ := hoid
      cases hpart.symm.trans hpart'
      have hmem := mem_of_getElem? hpart
      rw [herror]
      refine ⟨iff_of_true ⟨_, rfl⟩ (.inr ⟨part, hmem, hmeet⟩), fun oid h => ?_⟩
      cases h
      exact ⟨part, hmem, rfl, hmeet⟩
  · rw [checkNewPartitionBound_empty hlt]
    exact ⟨iff_of_true ⟨_, rfl⟩ (.inl hlt), fun oid h => by cases h⟩

/-- The pairs from (5, 4) to (6, 0) lie in the second partition. -/
theorem checkNewPartitionBound_exact_pair :
    ∃ err, checkNewPartitionBound pairKey
      (buildRangeDesc pairKey Qsort.mergeSort (pairParts.map (·.1)) (pairParts.map (·.2)))
      (.range ⟨⟨[.value 5, .value 4], rfl⟩, ⟨[.value 6, .value 0], rfl⟩⟩) = .error err :=
  (checkNewPartitionBound_exact pairKey Qsort.mergeSort rfl pairParts_apart
    (build_rangeParts rfl Qsort.mergeSort (by decide)) _).1.2 (.inr ⟨_, mem_cons_self, by decide⟩)

end

end GreenPipeline.L3.Partition
