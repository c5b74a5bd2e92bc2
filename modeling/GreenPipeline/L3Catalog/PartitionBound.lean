import GreenPipeline.Core.Intervals

/-!
# Range bounds of partitions and how they compare

A range bound has one datum for each column of the partition key: a value, MINVALUE or
MAXVALUE. Two bounds are compared column by column; at a column that is unbounded in
both, the rest is not looked at. The columns' own comparisons, the support functions of
the btree operator classes, are parameters with the laws of a total preorder.

Sources: `src/backend/catalog/partition.c`.

Results:

* `transCmp_datumsCmp`: the comparison of bounds is itself a total preorder.
* `partitionRboundCmp_eq`: with the flag that puts upper bounds first it is the order of boundaries.
* `partitionRboundDatumCmp_eq`: a row is compared like a bound made of its values.
-/
namespace GreenPipeline.L3.Partition

open Std GreenPipeline.Core.Intervals

/-! ## Keys and bounds -/

inductive PartitionStrategy where
  | list
  | range
  deriving DecidableEq

/-- What the comparisons read of a partition key; `partsupfunc` has one function for each
column. -/
structure PartitionKey (D : Type) where
  strategy : PartitionStrategy
  partsupfunc : List (D → D → Ordering)
  lawful : ∀ cmp ∈ partsupfunc, TransCmp cmp
  ne_nil : partsupfunc ≠ []

def PartitionKey.partnatts {D : Type} (key : PartitionKey D) : Nat := key.partsupfunc.length

/-- mirrors src/include/nodes/parsenodes.h:825-834 -/
inductive PartitionRangeDatum (D : Type) where
  | minvalue
  | value (v : D)
  | maxvalue
  deriving DecidableEq

/-- The kinds compare the same way as the values they represent.
mirrors src/include/nodes/parsenodes.h:818-823 -/
def PartitionRangeDatum.kind {D : Type} : PartitionRangeDatum D → Int
  | .minvalue => -1
  | .value _ => 0
  | .maxvalue => 1

/-- The datums of a bound, one for each column. -/
def PartitionKey.Datums {D : Type} (key : PartitionKey D) : Type :=
  { ds : List (PartitionRangeDatum D) // ds.length = key.partnatts }

/-- mirrors partition.c:100-106; `value` is its `datums` -/
abbrev PartitionRangeBound {D : Type} (key : PartitionKey D) : Type := Boundary key.Datums

/-! ## The comparisons -/

section
variable {D : Type}

/-- mirrors partition.c:2205-2233 -/
def datumsCmpLoop : List (D → D → Ordering) → List (PartitionRangeDatum D) →
    List (PartitionRangeDatum D) → Ordering
  | cmp :: cmps, d₁ :: ds₁, d₂ :: ds₂ =>
    if d₁.kind < d₂.kind then .lt
    else if d₂.kind < d₁.kind then .gt
    else
      match d₁, d₂ with
      | .value v₁, .value v₂ =>
        match cmp v₁ v₂ with
        | .eq => datumsCmpLoop cmps ds₁ ds₂
        | cmpval => cmpval
      | _, _ => .eq
  | _, _, _ => .eq

/-- mirrors partition.c:2263-2275 -/
def rboundDatumCmpLoop : List (D → D → Ordering) → List (PartitionRangeDatum D) → List D → Ordering
  | cmp :: cmps, d :: ds, v :: vs =>
    match d with
    | .minvalue => .lt
    | .maxvalue => .gt
    | .value b =>
      match cmp b v with
      | .eq => rboundDatumCmpLoop cmps ds vs
      | cmpval => cmpval
  | _, _, _ => .eq

variable (key : PartitionKey D)

def datumsCmp (ds₁ ds₂ : key.Datums) : Ordering := datumsCmpLoop key.partsupfunc ds₁.1 ds₂.1

/-- mirrors partition.c:2196-2246 -/
def partitionRboundCmp (datums₁ : key.Datums) (lower₁ : Bool)
    (b₂ : PartitionRangeBound key) : Ordering :=
  match datumsCmp key datums₁ b₂.value with
  | .eq => if lower₁ ≠ b₂.lower then if lower₁ then .gt else .lt else .eq
  | cmpval => cmpval

/-- mirrors partition.c:2173-2181 -/
def qsortPartitionRboundCmp (b₁ b₂ : PartitionRangeBound key) : Ordering :=
  partitionRboundCmp key b₁.value b₁.lower b₂

/-- mirrors partition.c:2254-2278 -/
def partitionRboundDatumCmp (datums : key.Datums) (tupleDatums : List D) : Ordering :=
  rboundDatumCmpLoop key.partsupfunc datums.1 tupleDatums

end

/-! ## The order of bounds -/

section
variable {D : Type}

theorem datumsCmpLoop_value (cmp : D → D → Ordering) (cmps : List (D → D → Ordering)) (v₁ v₂ : D)
    (ds₁ ds₂ : List (PartitionRangeDatum D)) :
    datumsCmpLoop (cmp :: cmps) (.value v₁ :: ds₁) (.value v₂ :: ds₂) =
      (cmp v₁ v₂).then (datumsCmpLoop cmps ds₁ ds₂) := by
  rw [datumsCmpLoop, if_neg (by simp [PartitionRangeDatum.kind]),
    if_neg (by simp [PartitionRangeDatum.kind])]
  cases cmp v₁ v₂ <;> rfl

/-- At a column with a MINVALUE or a MAXVALUE the kinds decide. -/
theorem datumsCmpLoop_kind (cmp : D → D → Ordering) (cmps : List (D → D → Ordering))
    {d₁ d₂ : PartitionRangeDatum D} (ds₁ ds₂ : List (PartitionRangeDatum D))
    (h : d₁.kind ≠ 0 ∨ d₂.kind ≠ 0) :
    datumsCmpLoop (cmp :: cmps) (d₁ :: ds₁) (d₂ :: ds₂) = compare d₁.kind d₂.kind := by
  cases d₁ <;> cases d₂ <;> first | rfl | simp [PartitionRangeDatum.kind] at h

theorem PartitionRangeDatum.kind_eq_zero_iff {d : PartitionRangeDatum D} :
    d.kind = 0 ↔ ∃ v, d = .value v := by
  cases d <;> simp [PartitionRangeDatum.kind]

theorem isLE_compare {a b : Int} : (compare a b).isLE = true ↔ a ≤ b := by
  rw [Ordering.isLE_iff_ne_gt, Int.compare_eq_gt]
  omega

theorem kind_le_of_isLE {cmp : D → D → Ordering} {cmps : List (D → D → Ordering)}
    {d₁ d₂ : PartitionRangeDatum D} {ds₁ ds₂ : List (PartitionRangeDatum D)}
    (h : (datumsCmpLoop (cmp :: cmps) (d₁ :: ds₁) (d₂ :: ds₂)).isLE = true) :
    d₁.kind ≤ d₂.kind := by
  by_cases hkind : d₁.kind ≠ 0 ∨ d₂.kind ≠ 0
  · rwa [datumsCmpLoop_kind cmp cmps ds₁ ds₂ hkind, isLE_compare] at h
  · omega

theorem datumsCmpLoop_swap {cmps : List (D → D → Ordering)} (hcmps : ∀ cmp ∈ cmps, TransCmp cmp)
    (ds₁ ds₂ : List (PartitionRangeDatum D)) :
    datumsCmpLoop cmps ds₁ ds₂ = (datumsCmpLoop cmps ds₂ ds₁).swap := by
  induction cmps generalizing ds₁ ds₂ with
  | nil => rfl
  | cons cmp cmps ih =>
    have hcmp := hcmps cmp List.mem_cons_self
    have ih := ih (List.forall_mem_cons.1 hcmps).2
    cases ds₁ with
    | nil => cases ds₂ <;> rfl
    | cons d₁ ds₁ =>
      cases ds₂ with
      | nil => rfl
      | cons d₂ ds₂ =>
        by_cases h : d₁.kind ≠ 0 ∨ d₂.kind ≠ 0
        · rw [datumsCmpLoop_kind cmp cmps ds₁ ds₂ h, datumsCmpLoop_kind cmp cmps ds₂ ds₁ h.symm,
            ← OrientedCmp.eq_swap]
        · obtain ⟨⟨v₁, rfl⟩, v₂, rfl⟩ : (∃ v, d₁ = .value v) ∧ ∃ v, d₂ = .value v := by
            simpa only [not_or, not_not, PartitionRangeDatum.kind_eq_zero_iff] using h
          rw [datumsCmpLoop_value, datumsCmpLoop_value, Ordering.swap_then,
            ← OrientedCmp.eq_swap, ← ih]

theorem datumsCmpLoop_trans (cmps : List (D → D → Ordering)) (hcmps : ∀ cmp ∈ cmps, TransCmp cmp)
    {ds₁ ds₂ ds₃ : List (PartitionRangeDatum D)} (hlen : ds₂.length = cmps.length)
    (h₁₂ : (datumsCmpLoop cmps ds₁ ds₂).isLE = true)
    (h₂₃ : (datumsCmpLoop cmps ds₂ ds₃).isLE = true) :
    (datumsCmpLoop cmps ds₁ ds₃).isLE = true := by
  induction cmps generalizing ds₁ ds₂ ds₃ with
  | nil => rfl
  | cons cmp cmps ih =>
    have hcmp := hcmps cmp List.mem_cons_self
    cases ds₁ with
    | nil => rfl
    | cons d₁ ds₁ =>
      cases ds₃ with
      | nil => rfl
      | cons d₃ ds₃ =>
        obtain ⟨d₂, ds₂, rfl⟩ := List.exists_cons_of_length_eq_add_one hlen
        by_cases hvalues : d₁.kind = 0 ∧ d₂.kind = 0 ∧ d₃.kind = 0
        · obtain ⟨⟨v₁, rfl⟩, ⟨v₂, rfl⟩, v₃, rfl⟩ : (∃ v, d₁ = .value v) ∧ (∃ v, d₂ = .value v) ∧
              ∃ v, d₃ = .value v := by
            simpa only [PartitionRangeDatum.kind_eq_zero_iff] using hvalues
          rw [datumsCmpLoop_value, Ordering.isLE_then_iff_or] at h₁₂ h₂₃ ⊢
          obtain h₁₂ | ⟨h₁₂, h₁₂'⟩ := h₁₂
          · obtain h₂₃ | ⟨h₂₃, -⟩ := h₂₃
            · exact .inl (TransCmp.lt_trans h₁₂ h₂₃)
            · exact .inl (TransCmp.lt_of_lt_of_eq h₁₂ h₂₃)
          · obtain h₂₃ | ⟨h₂₃, h₂₃'⟩ := h₂₃
            · exact .inl (TransCmp.lt_of_eq_of_lt h₁₂ h₂₃)
            · refine .inr ⟨TransCmp.eq_trans h₁₂ h₂₃, ?_⟩
              exact ih (List.forall_mem_cons.1 hcmps).2 (by simpa using hlen) h₁₂' h₂₃'
        · -- some column is unbounded: only the kinds count
          have hle₁₂ := kind_le_of_isLE h₁₂
          have hle₂₃ := kind_le_of_isLE h₂₃
          by_cases h₁₃ : d₁.kind ≠ 0 ∨ d₃.kind ≠ 0
          · rw [datumsCmpLoop_kind cmp cmps ds₁ ds₃ h₁₃, isLE_compare]
            omega
          · omega

end

section
variable {D : Type} (key : PartitionKey D)

instance transCmp_datumsCmp : TransCmp (datumsCmp key) where
  eq_swap := datumsCmpLoop_swap key.lawful _ _
  isLE_trans := fun {_ b _} => datumsCmpLoop_trans key.partsupfunc key.lawful b.2

/-- Upper bounds first: the order of boundaries. -/
theorem partitionRboundCmp_eq (b₁ b₂ : PartitionRangeBound key) :
    partitionRboundCmp key b₁.value b₁.lower b₂ = boundaryCmp (datumsCmp key) b₁ b₂ := by
  unfold partitionRboundCmp boundaryCmp
  cases datumsCmp key b₁.value b₂.value with
  | lt => rfl
  | gt => rfl
  | eq => cases b₁.lower <;> cases b₂.lower <;> rfl

instance : TransCmp (qsortPartitionRboundCmp key) := by
  have heq : qsortPartitionRboundCmp key = boundaryCmp (datumsCmp key) :=
    funext fun b₁ => funext fun b₂ => partitionRboundCmp_eq key b₁ b₂
  rw [heq]
  infer_instance

/-- The bound made of a row's values. -/
def PartitionKey.point (values : List D) (h : values.length = key.partnatts) : key.Datums :=
  ⟨values.map .value, by rwa [List.length_map]⟩

theorem rboundDatumCmpLoop_eq (cmps : List (D → D → Ordering)) (ds : List (PartitionRangeDatum D))
    (values : List D) :
    rboundDatumCmpLoop cmps ds values = datumsCmpLoop cmps ds (values.map .value) := by
  induction cmps generalizing ds values with
  | nil => rfl
  | cons cmp cmps ih =>
    cases ds with
    | nil => rfl
    | cons d ds =>
      cases values with
      | nil => cases d <;> rfl
      | cons v values =>
        cases d with
        | minvalue => rfl
        | maxvalue => rfl
        | value b =>
          rw [List.map_cons, datumsCmpLoop_value, rboundDatumCmpLoop, ← ih]
          cases cmp b v <;> rfl

/-- A row is compared like the bound made of its values. -/
theorem partitionRboundDatumCmp_eq (datums : key.Datums) {values : List D}
    (h : values.length = key.partnatts) :
    partitionRboundDatumCmp key datums values = datumsCmp key datums (key.point values h) :=
  rboundDatumCmpLoop_eq key.partsupfunc datums.1 values

end

end GreenPipeline.L3.Partition
