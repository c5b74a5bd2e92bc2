import GreenPipeline.L4App.ExplainXml
import Mathlib.Data.List.Basic

/-!
# Which plan a field is read from (`ExtractNodes1`)

`getElementsByTagName` finds elements at any depth, so `ExtractNodes1` could
give a plan the fields of a plan below it. It visits the plans in reverse
document order and removes what it has read, so when a plan is read everything
below it has been stripped of its fields (`strip`).

Results:

* `stripStep`: taking the last plan's fields out of the document strips one plan more.
* `takeFields_stripped`: a plan above stripped ones gets its own fields only.
* `extractNodes1_eq`: the loop is one over the plans' own fields.
* `extractNodes1_own_iff`: it returns the plans' own records, or fails where one of
  them cannot be read.
-/
namespace GreenPipeline.L4.ExplainFields
open GreenPipeline.L4.ExplainXml List

/-! ## Forests -/

/-- Induction over the children of an element: those of the first one and the rest. -/
theorem forest_induction {P : List Xml → Prop} (nil : P [])
    (text : ∀ s xs, P xs → P (.text s :: xs))
    (elem : ∀ t attrs ds xs, P ds → P xs → P (.elem t attrs ds :: xs)) : ∀ xs, P xs
  | [] => nil
  | .text s :: xs => text s xs (forest_induction nil text elem xs)
  | .elem t attrs ds :: xs =>
    elem t attrs ds xs (forest_induction nil text elem ds) (forest_induction nil text elem xs)
termination_by xs => sizeOf xs

/-- An entry found below the `i`th child. -/
def under (i : Nat) (entry : Path × Xml) : Path × Xml := (i :: entry.1, entry.2)

@[simp] theorem byTagList_nil (tag : String) (i : Nat) : byTagList tag i [] = [] := rfl

@[simp] theorem byTagList_text (tag : String) (i : Nat) (s : String) (xs : List Xml) :
    byTagList tag i (.text s :: xs) = byTagList tag (i + 1) xs := rfl

theorem byTagList_elem (tag : String) (i : Nat) (t : String) (attrs : List (String × String))
    (ds xs : List Xml) :
    byTagList tag i (.elem t attrs ds :: xs) =
      (if t = tag then [([i], .elem t attrs ds)] else []) ++ (byTagList tag 0 ds).map (under i) ++
        byTagList tag (i + 1) xs := by
  rw [byTagList, selfByTag]
  split
  · rfl
  · rfl

/-- The number of plans in a node. -/
def planCount : Xml → Nat
  | .elem t _ ds => (if t = "Plan" then 1 else 0) + (byTagList "Plan" 0 ds).length
  | .text _ => 0

theorem length_byTagList_cons (i : Nat) (x : Xml) (xs : List Xml) :
    (byTagList "Plan" i (x :: xs)).length = planCount x + (byTagList "Plan" (i + 1) xs).length := by
  cases x with
  | text s => simp [planCount]
  | elem t attrs ds =>
    rw [byTagList_elem, planCount, length_append, length_append, length_map]
    split <;> rfl

/-! ## Stripped documents -/

/-- The tags that are read, in the order of `fields`. -/
def fieldTags : List String :=
  ["Node-Type", "Total-Cost", "IO-Cost", "CPU-Cost", "Power-Cost", "Plan-Rows",
    "Relation-Name", "Strategy", "Startup-Cost", "Plan-Width", "Actual-Startup-Time",
    "Actual-Total-Time", "Actual-Rows", "Actual-Loops", "Join-Type", "Command", "Parallel-Aware",
    "Shared-Hit-Blocks", "Shared-Read-Blocks", "Workers-Planned", "Workers-Launched"]

def hasTag (tag : String) : Xml → Bool
  | .elem t _ _ => t == tag
  | .text _ => false

def isField : Xml → Bool
  | .elem t _ _ => fieldTags.contains t
  | .text _ => false

/-- The children of a plan that has been read. -/
def stripOwn (xs : List Xml) : List Xml := xs.filter fun x => !isField x

mutual

/-- The node when all plans but the first `n` have been read. -/
def strip : Nat → Xml → Xml
  | _, .text s => .text s
  | n, .elem t attrs ds =>
    .elem t attrs (if t = "Plan" then if n = 0 then stripOwn (stripForest 0 ds) else
      stripForest (n - 1) ds
      else stripForest n ds)

def stripForest : Nat → List Xml → List Xml
  | _, [] => []
  | n, x :: xs => strip n x :: stripForest (n - planCount x) xs

end

theorem stripForest_of_le (xs : List Xml) :
    ∀ n i, (byTagList "Plan" i xs).length ≤ n → stripForest n xs = xs := by
  induction xs using forest_induction with
  | nil => intros; rfl
  | text s xs ih =>
    intro n i h
    simp [stripForest, strip, planCount, ih n (i + 1) h]
  | elem t attrs ds xs ihds ihxs =>
    intro n i h
    rw [length_byTagList_cons] at h
    have hxs := ihxs (n - planCount (.elem t attrs ds)) (i + 1) (by omega)
    rw [planCount] at h
    rw [stripForest, hxs, strip]
    split
    · simp_all only [if_true]
      rw [if_neg (by omega), ihds (n - 1) 0 (by omega)]
    · rw [ihds n 0 (by omega)]

variable {x : Xml}

theorem strip_of_le {n : Nat} (h : planCount x ≤ n) : strip n x = x := by
  have := stripForest_of_le [x] n 0 (by rw [length_byTagList_cons]; simpa using h)
  simpa [stripForest] using this

/-- The `k`th plan of a forest, and the step of the loop at it: all plans after
it are stripped, and replacing it by its stripped form is the next state. -/
def StripStep (i k : Nat) (xs : List Xml) : Prop :=
  ∃ j path attrs ds,
    (byTagList "Plan" i xs)[k]? = some ((i + j) :: path, .elem "Plan" attrs ds) ∧
    (byTagList "Plan" i (stripForest (k + 1) xs))[k]? =
    some ((i + j) :: path, .elem "Plan" attrs (stripForest 0 ds)) ∧
    (stripForest (k + 1) xs).modify j
    (put · (.elem "Plan" attrs (stripOwn (stripForest 0 ds))) path) =
      stripForest k xs

theorem getElem?_byTagList_skip {i k : Nat} (h : planCount x ≤ k) (xs : List Xml) :
    (byTagList "Plan" i (x :: xs))[k]? = (byTagList "Plan" (i + 1) xs)[k - planCount x]? := by
  have hlen := length_byTagList_cons i x []
  cases x with
  | text s => simp [planCount]
  | elem t attrs ds =>
    rw [byTagList_elem] at hlen ⊢
    simp only [byTagList_nil, append_nil, length_nil, Nat.add_zero] at hlen
    rw [getElem?_append_right (by omega), hlen]

variable {xs : List Xml}

theorem StripStep.tail {i k : Nat} (hx : planCount x ≤ k)
    (h : StripStep (i + 1) (k - planCount x) xs) : StripStep i k (x :: xs) := by
  obtain ⟨j, path, attrs, ds, hget, hstripped, hput⟩ := h
  have hsucc : k + 1 - planCount x = k - planCount x + 1 := by omega
  refine ⟨j + 1, path, attrs, ds, ?_, ?_, ?_⟩
  · rw [getElem?_byTagList_skip hx, hget, Nat.add_assoc, Nat.add_comm 1 j]
  · rw [stripForest, strip_of_le (by omega), getElem?_byTagList_skip hx, hsucc, hstripped,
      Nat.add_assoc, Nat.add_comm 1 j]
  · rw [stripForest, stripForest, strip_of_le (by omega), strip_of_le hx, hsucc,
      modify_succ_cons, hput]

variable {t : String} {attrs : List (String × String)} {ds : List Xml}

/-- The entries of the children of an element follow its own. -/
theorem getElem?_byTagList_inside {i k : Nat} {entry : Path × Xml}
    (h : (byTagList "Plan" 0 ds)[k]? = some entry) :
    (byTagList "Plan" i (.elem t attrs ds :: xs))[k + if t = "Plan" then 1 else 0]? =
      some (under i entry) := by
  obtain ⟨hk, rfl⟩ := List.getElem?_eq_some_iff.1 h
  rw [byTagList_elem]
  split
  · simp [getElem?_append_left, hk]
  · simp [getElem?_append_left, hk]

theorem StripStep.inside {i k : Nat} (h : StripStep 0 k ds)
    (hk : k < (byTagList "Plan" 0 ds).length) (xs : List Xml) :
    StripStep i (k + if t = "Plan" then 1 else 0) (.elem t attrs ds :: xs) := by
  obtain ⟨j, path, pattrs, pds, hget, hstripped, hput⟩ := h
  refine ⟨0, (0 + j) :: path, pattrs, pds, getElem?_byTagList_inside hget, ?_, ?_⟩
  · rw [stripForest, strip]
    have hinner : (if t = "Plan" then
        if k + (if t = "Plan" then 1 else 0) + 1 = 0 then stripOwn (stripForest 0 ds)
        else stripForest (k + (if t = "Plan" then 1 else 0) + 1 - 1) ds
      else stripForest (k + (if t = "Plan" then 1 else 0) + 1) ds) = stripForest (k + 1) ds := by
      split <;> simp
    rw [hinner]
    exact getElem?_byTagList_inside hstripped
  · have hrest : ∀ n, n ≤ k + 1 + (if t = "Plan" then 1 else 0) →
        n - planCount (.elem t attrs ds) = 0 := by
      rw [planCount]
      omega
    rw [stripForest, stripForest, hrest _ (by omega), hrest _ (by omega), modify_zero_cons, strip,
      strip, put, Nat.zero_add]
    split
    · simp [hput]
    · simp [hput]

theorem stripStep (xs : List Xml) :
    ∀ i k, k < (byTagList "Plan" i xs).length → StripStep i k xs := by
  induction xs using forest_induction with
  | nil => intro i k hk; simp at hk
  | text s xs ih => exact fun i k hk => .tail (Nat.zero_le k) (ih (i + 1) k hk)
  | elem t attrs ds xs ihds ihxs =>
    intro i k hk
    rw [length_byTagList_cons] at hk
    by_cases hlt : k < planCount (.elem t attrs ds)
    · rw [planCount] at hlt
      by_cases hself : k < if t = "Plan" then 1 else 0
      · -- the element itself is the plan
        have ht : t = "Plan" := by
          by_contra hne
          simp [hne] at hself
        subst ht
        obtain rfl : k = 0 := by simpa using hself
        refine ⟨0, [], attrs,
          ds, by simp [byTagList_elem], by simp [byTagList_elem, stripForest, strip], ?_⟩
        have hone : 1 - planCount (.elem "Plan" attrs ds) = 0 := by simp [planCount]
        simp [stripForest, strip, put, hone]
      · obtain ⟨m, rfl⟩ : ∃ m, k = m + if t = "Plan" then 1 else 0 :=
          ⟨k - if t = "Plan" then 1 else 0, by omega⟩
        have hm : m < (byTagList "Plan" 0 ds).length := by omega
        exact (ihds 0 m hm).inside hm xs
    · exact .tail (Nat.le_of_not_lt hlt) (ihxs (i + 1) _ (by omega))

/-! ## Where fields may stand -/

/-- Fields are children of plans: each tag at most once in a plan, with text
only, and no field anywhere else. `inPlan` says whether the nodes are the
children of a plan. Other elements may stand anywhere. -/
inductive FieldsInPlace : Bool → List Xml → Prop
  | nil {inPlan} : FieldsInPlace inPlan []
  | text {inPlan s xs} : FieldsInPlace inPlan xs → FieldsInPlace inPlan (.text s :: xs)
  | field {t attrs texts xs} : t ∈ fieldTags → (∀ x ∈ texts, ∃ s, x = .text s) →
      (∀ x ∈ xs, hasTag t x = false) →
      FieldsInPlace true xs → FieldsInPlace true (.elem t attrs texts :: xs)
  | plan {inPlan attrs ds xs} : FieldsInPlace true ds → FieldsInPlace inPlan xs →
      FieldsInPlace inPlan (.elem "Plan" attrs ds :: xs)
  | other {inPlan t attrs ds xs} : t ∉ fieldTags → t ≠ "Plan" → FieldsInPlace false ds →
      FieldsInPlace inPlan xs →
      FieldsInPlace inPlan (.elem t attrs ds :: xs)

theorem plan_notMem_fieldTags : "Plan" ∉ fieldTags := by decide

@[simp] theorem hasTag_strip (tag : String) (n : Nat) (x : Xml) :
    hasTag tag (strip n x) = hasTag tag x := by
  cases x <;> rfl

@[simp] theorem isField_strip (n : Nat) (x : Xml) : isField (strip n x) = isField x := by
  cases x <;> rfl

variable {tag : String}

theorem isField_of_hasTag (htag : tag ∈ fieldTags) (h : hasTag tag x = true) :
    isField x = true := by
  cases x with
  | text s => simp [hasTag] at h
  | elem t attrs ds => simpa [hasTag, isField, beq_iff_eq.1 h] using htag

theorem stripForest_zero (xs : List Xml) : stripForest 0 xs = xs.map (strip 0) := by
  induction xs with
  | nil => rfl
  | cons x xs ih => rw [stripForest, Nat.zero_sub, ih, map_cons]

theorem byTagList_append_of_none (bs : List Xml) :
    ∀ (as : List Xml) (i : Nat), (∀ x ∈ as, hasTag tag x = false ∧ byTag tag x = []) →
    byTagList tag i (as ++ bs) = byTagList tag (i + as.length) bs
  | [], _, _ => rfl
  | .text s :: as, i, h => by
    have ih := byTagList_append_of_none bs as (i + 1) (forall_mem_cons.1 h).2
    simpa [Nat.add_assoc, Nat.add_comm 1] using ih
  | .elem t attrs ds :: as, i, h => by
    have ih := byTagList_append_of_none bs as (i + 1) (forall_mem_cons.1 h).2
    obtain ⟨hself, hbelow⟩ := h _ mem_cons_self
    have hne : t ≠ tag := by simpa [hasTag] using hself
    have hds : byTagList tag 0 ds = [] := hbelow
    simpa [byTagList_elem, hne, hds, Nat.add_assoc, Nat.add_comm 1] using ih

theorem byTagList_eq_nil (h : ∀ x ∈ xs, hasTag tag x = false ∧ byTag tag x = []) (i : Nat) :
    byTagList tag i xs = [] := by
  simpa using byTagList_append_of_none [] xs i h

theorem byTagList_texts {texts : List Xml} (h : ∀ x ∈ texts, ∃ s, x = .text s) (tag : String)
    (i : Nat) : byTagList tag i texts = [] := by
  refine byTagList_eq_nil (fun x hx => ?_) i
  obtain ⟨s, rfl⟩ := h x hx
  exact ⟨rfl, rfl⟩

variable {inPlan : Bool}

theorem FieldsInPlace.isField_false (h : FieldsInPlace inPlan xs) (hout : inPlan = false) :
    ∀ x ∈ xs, isField x = false := by
  induction h with
  | nil => simp
  | text _ ih => simpa [isField] using ih hout
  | field => exact absurd hout (by simp)
  | plan _ _ _ ih => simpa [isField, plan_notMem_fieldTags] using ih hout
  | other ht _ _ _ _ ih => simpa [isField, ht] using ih hout

/-- Below a child of a stripped forest there is no field left. -/
theorem FieldsInPlace.nothing_below (h : FieldsInPlace inPlan xs) (htag : tag ∈ fieldTags) :
    ∀ x ∈ xs, byTag tag (strip 0 x) = [] := by
  have hclean : ∀ {y : Xml}, isField y = false → hasTag tag y = false := fun hy =>
    Bool.eq_false_iff.2 fun ht => by simp [isField_of_hasTag htag ht] at hy
  induction h with
  | nil => simp
  | text _ ih => simpa [strip, byTag] using ih
  | @field t attrs texts xs ht htexts _ _ ih =>
    refine forall_mem_cons.2 ⟨?_, ih⟩
    have hne : t ≠ "Plan" := fun he => plan_notMem_fieldTags (he ▸ ht)
    simp only [strip, hne, if_false, stripForest_zero, byTag]
    refine byTagList_texts (fun y hy => ?_) tag 0
    obtain ⟨x, hx, rfl⟩ := mem_map.1 hy
    obtain ⟨s, rfl⟩ := htexts x hx
    exact ⟨s, rfl⟩
  | plan _ _ ihds ihxs =>
    refine forall_mem_cons.2 ⟨?_, ihxs⟩
    simp only [strip, if_true, stripForest_zero, byTag]
    refine byTagList_eq_nil (fun y hy => ?_) 0
    obtain ⟨hy, hfield⟩ := mem_filter.1 hy
    obtain ⟨x, hx, rfl⟩ := mem_map.1 hy
    exact ⟨hclean (by simpa using hfield), ihds x hx⟩
  | other _ hne hds _ ihds ihxs =>
    refine forall_mem_cons.2 ⟨?_, ihxs⟩
    simp only [strip, hne, if_false, stripForest_zero, byTag]
    refine byTagList_eq_nil (fun y hy => ?_) 0
    obtain ⟨x, hx, rfl⟩ := mem_map.1 hy
    exact ⟨hclean (by simpa using hds.isField_false rfl x hx), ihds x hx⟩

theorem FieldsInPlace.once (h : FieldsInPlace inPlan xs) (htag : tag ∈ fieldTags) :
    xs.countP (hasTag tag) ≤ 1 := by
  induction h with
  | nil => simp
  | text _ ih => simpa [hasTag] using ih
  | @field t attrs texts xs _ _ hxs _ ih =>
    by_cases he : t = tag
    · subst he
      have hzero : xs.countP (hasTag t) = 0 := countP_eq_zero.2 fun x hx => by simp [hxs x hx]
      simp [hzero, hasTag]
    · simpa [countP_cons, hasTag, he] using ih
  | plan _ _ _ ih =>
    have hne : "Plan" ≠ tag := fun he => plan_notMem_fieldTags (he ▸ htag)
    simpa [countP_cons, hasTag, hne] using ih
  | @other inPlan t attrs ds xs ht _ _ _ _ ih =>
    have hne : t ≠ tag := fun he => ht (he ▸ htag)
    simpa [countP_cons, hasTag, hne] using ih

/-- Stripping does not touch the fields themselves. -/
theorem FieldsInPlace.strip_field (h : FieldsInPlace inPlan xs) :
    ∀ x ∈ xs, isField x = true → strip 0 x = x := by
  induction h with
  | nil => simp
  | text _ ih => simpa [isField] using ih
  | @field t attrs texts xs ht htexts _ _ ih =>
    refine forall_mem_cons.2 ⟨fun _ => strip_of_le ?_, ih⟩
    have hne : t ≠ "Plan" := fun he => plan_notMem_fieldTags (he ▸ ht)
    simp [planCount, hne, byTagList_texts htexts]
  | plan _ _ _ ih => simpa [isField, plan_notMem_fieldTags] using ih
  | other ht _ _ _ _ ih => simpa [isField, ht] using ih

theorem mem_byTagList_elem {i : Nat} {entry : Path × Xml}
    (h : entry ∈ byTagList tag i (.elem t attrs ds :: xs)) :
    (t = tag ∧ entry = ([i], .elem t attrs ds)) ∨ (∃ e ∈ byTagList tag 0 ds, under i e = entry) ∨
    entry ∈ byTagList tag (i + 1) xs := by
  rw [byTagList_elem, mem_append, mem_append, mem_map] at h
  rcases h with (hself | hinside) | hrest
  · split at hself
    case isTrue ht => exact .inl ⟨ht, mem_singleton.1 hself⟩
    case isFalse => simp at hself
  · exact .inr (.inl hinside)
  · exact .inr (.inr hrest)

theorem FieldsInPlace.plans_in_place (h : FieldsInPlace inPlan xs) :
    ∀ i, ∀ entry ∈ byTagList "Plan" i xs, FieldsInPlace true (childNodes entry.2) := by
  induction h with
  | nil => simp
  | text _ ih => exact fun i => ih (i + 1)
  | field ht htexts _ _ ih =>
    intro i entry hmem
    have hnone := byTagList_texts htexts "Plan" 0
    rcases mem_byTagList_elem hmem with ⟨he, -⟩ | ⟨e, hinside, -⟩ | hrest
    · exact absurd (he ▸ ht) plan_notMem_fieldTags
    · simp [hnone] at hinside
    · exact ih (i + 1) entry hrest
  | plan hds _ ihds ihxs =>
    intro i entry hmem
    rcases mem_byTagList_elem hmem with ⟨-, rfl⟩ | ⟨e, hinside, rfl⟩ | hrest
    · exact hds
    · exact ihds 0 e hinside
    · exact ihxs (i + 1) entry hrest
  | other _ hne _ _ ihds ihxs =>
    intro i entry hmem
    rcases mem_byTagList_elem hmem with ⟨he, -⟩ | ⟨e, hinside, rfl⟩ | hrest
    · exact absurd he hne
    · exact ihds 0 e hinside
    · exact ihxs (i + 1) entry hrest

/-! ## Reading one plan -/

/-- The text of a plan's own field. -/
def ownValue (tag : String) (xs : List Xml) : Option String :=
  (xs.find? (hasTag tag)).map textContent

section
variable {D : Type}

/-- What a plan's own field does to its record; an absent one nothing. -/
def readOwn (xs : List Xml) (r : Reading D) (field : String × Setter D) :
    Except Fault (Reading D) :=
  match ownValue field.1 xs with
  | none => .ok r
  | some t => field.2 t r

theorem readOwn_congr {ys : List Xml} {field : String × Setter D}
    (h : ownValue field.1 xs = ownValue field.1 ys) (r : Reading D) :
    readOwn xs r field = readOwn ys r field := by
  rw [readOwn, readOwn, h]

/-- If nothing is found deeper, the first element with the tag is the plan's
own, and it can be removed. -/
theorem takeField_eq (field : String × Setter D) (hbelow : ∀ x ∈ xs, byTag field.1 x = [])
    (honce : xs.countP (hasTag field.1) ≤ 1) (r : Reading D) :
    takeField (r, .elem t attrs xs) field = (readOwn xs r field).map fun r =>
    (r, .elem t attrs (xs.filter fun x => !hasTag field.1 x)) := by
  cases hfind : xs.find? (hasTag field.1) with
  | none =>
    have hnone : ∀ x ∈ xs, hasTag field.1 x = false := by simpa using find?_eq_none.1 hfind
    have hempty : byTag field.1 (.elem t attrs xs) = [] :=
      byTagList_eq_nil (fun x hx => ⟨hnone x hx, hbelow x hx⟩) 0
    have hkept : (xs.filter fun x => !hasTag field.1 x) = xs := filter_eq_self.2 fun x hx => by
      simp [hnone x hx]
    simp [takeField, hempty, readOwn, ownValue, hfind, hkept, Except.map]
  | some x =>
    obtain ⟨hx, as, bs, rfl, has⟩ := find?_eq_some_iff_append.1 hfind
    cases x with
    | text s => simp [hasTag] at hx
    | elem t' attrs' ds =>
      obtain rfl : t' = field.1 := by simpa [hasTag] using hx
      have has' : ∀ y ∈ as, hasTag field.1 y = false := by simpa using has
      have hbs : ∀ y ∈ bs, hasTag field.1 y = false := by
        have hzero : bs.countP (hasTag field.1) = 0 := by
          simp only [countP_append, countP_cons, hx, if_true] at honce
          omega
        simpa using countP_eq_zero.1 hzero
      have hfound : ∃ rest, byTag field.1 (.elem t attrs (as ++ .elem field.1 attrs' ds :: bs)) =
          ([as.length], .elem field.1 attrs' ds) :: rest := by
        rw [byTag, byTagList_append_of_none _ as 0 fun y hy => ⟨has' y hy, hbelow y (by simp [hy])⟩,
          byTagList_elem, if_pos rfl, Nat.zero_add]
        exact ⟨_, rfl⟩
      obtain ⟨rest, hfound⟩ := hfound
      have hkept : ((as ++ .elem field.1 attrs' ds :: bs).filter fun x => !hasTag field.1 x) =
          as ++ bs := by
        rw [filter_append, filter_cons_of_neg (by simp [hx]), filter_eq_self.2, filter_eq_self.2]
        · simpa using hbs
        · simpa using has'
      have herase : (as ++ .elem field.1 attrs' ds :: bs).eraseIdx as.length = as ++ bs := by
        simp [eraseIdx_append_of_length_le]
      simp only [takeField, hfound, readOwn, ownValue, hfind, Option.map_some, removeChild,
        herase, hkept]
      cases field.2 (textContent (.elem field.1 attrs' ds)) r <;> rfl

/-- Reading all fields: the record gets the plan's own values, and the fields
are gone from its children. -/
theorem takeFields_eq (t : String) (attrs : List (String × String)) (own : List Xml) :
    ∀ (fs : List (String × Setter D)) (xs : List Xml) (r : Reading D), (fs.map Prod.fst).Nodup →
      (∀ f ∈ fs, ∀ x ∈ xs, byTag f.1 x = []) → (∀ f ∈ fs, xs.countP (hasTag f.1) ≤ 1) →
      (∀ f ∈ fs, ownValue f.1 xs = ownValue f.1 own) →
      fs.foldlM takeField (r, .elem t attrs xs) = (fs.foldlM (readOwn own) r).map fun r =>
        (r, .elem t attrs (xs.filter fun x => !(fs.any fun f => hasTag f.1 x)))
  | [], xs, r, _, _, _, _ => by simp [pure, Except.pure, Except.map]
  | f :: fs, xs, r, hnodup, hbelow, honce, hown => by
    have hf : f ∈ f :: fs := mem_cons_self
    rw [foldlM_cons, foldlM_cons, takeField_eq f (hbelow f hf) (honce f hf),
      readOwn_congr (hown f hf)]
    cases readOwn own r f with
    | error fault => rfl
    | ok r' =>
      simp only [map_cons, nodup_cons, mem_map, not_exists, not_and] at hnodup
      have hfind : ∀ g ∈ fs, ownValue g.1 (xs.filter fun x => !hasTag f.1 x) =
          ownValue g.1 own := by
        intro g hg
        rw [← hown g (mem_cons_of_mem f hg), ownValue, ownValue, find?_filter]
        congr 2
        funext x
        cases x with
        | text s => rfl
        | elem t' _ _ =>
          have hne := hnodup.1 g hg
          by_cases hg' : t' = g.1 <;> simp_all [hasTag]
      have ih := takeFields_eq t attrs own fs (xs.filter fun x => !hasTag f.1 x) r' hnodup.2
        (fun g hg x hx => hbelow g (mem_cons_of_mem f hg) x (mem_of_mem_filter hx))
        (fun g hg => Nat.le_trans filter_sublist.countP_le (honce g (mem_cons_of_mem f hg))) hfind
      simp only [Except.map, bind, Except.bind] at ih ⊢
      rw [ih]
      simp [filter_filter, Bool.and_comm]

variable (env : Env D)

theorem map_fst_fields (temp : Nat) : (fields env temp).map Prod.fst = fieldTags := rfl

theorem mem_fieldTags {temp : Nat} {f : String × Setter D} (h : f ∈ fields env temp) :
    f.1 ∈ fieldTags :=
  map_fst_fields env temp ▸ mem_map_of_mem h

/-- The reading of a plan whose descendants have been stripped. -/
theorem takeFields_stripped (h : FieldsInPlace true ds) (temp : Nat)
    (attrs : List (String × String)) (r : Reading D) :
    (fields env temp).foldlM takeField (r, .elem "Plan" attrs (stripForest 0 ds)) =
      ((fields env temp).foldlM (readOwn ds) r).map fun r =>
        (r, .elem "Plan" attrs (stripOwn (stripForest 0 ds))) := by
  have hown : ∀ f ∈ fields env temp, ownValue f.1 (stripForest 0 ds) = ownValue f.1 ds := by
    intro f hf
    have htag : hasTag f.1 ∘ strip 0 = hasTag f.1 := funext fun x => hasTag_strip f.1 0 x
    rw [ownValue, ownValue, stripForest_zero, find?_map, htag]
    cases hfind : ds.find? (hasTag f.1) with
    | none => rfl
    | some x =>
      have hfield := isField_of_hasTag (mem_fieldTags env hf) (find?_some hfind)
      simp [h.strip_field x (mem_of_find?_eq_some hfind) hfield]
  have hfilter :
      ((stripForest 0 ds).filter fun x => !((fields env temp).any fun f => hasTag f.1 x)) =
      stripOwn (stripForest 0 ds) := by
    refine filter_congr fun x _ => congrArg not ?_
    have hany : ((fields env temp).any fun f => hasTag f.1 x) = fieldTags.any fun t =>
        hasTag t x := by
      rfl
    rw [hany]
    cases x with
    | text s => rfl
    | elem t _ _ => simp [hasTag, isField, any_eq, contains_eq_mem]
  rw [takeFields_eq "Plan" attrs ds (fields env temp) (stripForest 0 ds) r, hfilter]
  · rw [map_fst_fields]
    decide
  · intro f hf x hx
    rw [stripForest_zero] at hx
    obtain ⟨y, hy, rfl⟩ := mem_map.1 hx
    exact h.nothing_below (mem_fieldTags env hf) y hy
  · intro f hf
    have htag : hasTag f.1 ∘ strip 0 = hasTag f.1 := funext fun x => hasTag_strip f.1 0 x
    rw [stripForest_zero, countP_map, htag]
    exact h.once (mem_fieldTags env hf)
  · exact hown

/-! ## The loop -/

/-- The plan `temp` read by its own fields alone: those present set their part
of a new record, in the order of `fields`. -/
def ownReading (temp : Nat) (e : Xml) (est : Estimates D) : Except Fault (Reading D) := do
  let nd ← newNodes env
  (fields env temp).foldlM (readOwn (childNodes e)) (nd, est)

/-- The record of a plan by its own fields alone. -/
def ownRecord (e : Xml) : Except Fault (Nodes D) :=
  let zero := env.ofInt 0
  (ownReading env 0 e ⟨zero, zero, zero, zero⟩).map Prod.fst

/-- The loop of `ExtractNodes1` where every plan is read from the original
document and by its own fields alone. -/
def ownLoop : Nat → List (Path × Xml) → List (Nodes D) → Estimates D →
    Except Fault (List (Nodes D) × Estimates D)
  | 0, _, node, est => .ok (node, est)
  | temp + 1, ps, node, est =>
    match ps[temp]? with
    | none => .error .nullPointer
    | some (_, e) => do
      let (nd, est) ← ownReading env temp e est
      ownLoop temp ps (node ++ [nd]) est

theorem byTagList_cons (i : Nat) (x : Xml) (xs : List Xml) :
    byTagList "Plan" i (x :: xs) = (plans x).map (under i) ++ byTagList "Plan" (i + 1) xs := by
  cases x with
  | text s => rfl
  | elem t attrs ds =>
    rw [byTagList_elem]
    by_cases ht : t = "Plan"
    · subst ht
      rfl
    · rw [if_neg ht]
      unfold plans
      split
      · next heq => exact absurd (Xml.elem.inj heq).1 ht
      · rfl

theorem byTagList_singleton (x : Xml) : byTagList "Plan" 0 [x] = (plans x).map (under 0) := by
  rw [byTagList_cons, byTagList_nil, append_nil]

variable {doc : Xml}

/-- One round on the document: the plan and its replacement. -/
theorem strip_round {k : Nat} (hk : k < (plans doc).length) :
    ∃ path attrs ds, (plans doc)[k]? = some (path, .elem "Plan" attrs ds) ∧
      (plans (strip (k + 1) doc))[k]? = some (path, .elem "Plan" attrs (stripForest 0 ds)) ∧
      put (strip (k + 1) doc) (.elem "Plan" attrs (stripOwn (stripForest 0 ds))) path =
        strip k doc := by
  have hunder : ∀ (ps : List (Path × Xml)) (j : Nat) (path : Path) (y : Xml),
      (ps.map (under 0))[k]? = some ((0 + j) :: path, y) → j = 0 ∧ ps[k]? = some (path, y) := by
    intro ps j path y h
    rw [getElem?_map, Option.map_eq_some_iff] at h
    obtain ⟨⟨path', y'⟩, hget, he⟩ := h
    simp only [under, Prod.mk.injEq, cons.injEq] at he
    obtain ⟨⟨hj, rfl⟩, rfl⟩ := he
    exact ⟨by omega, hget⟩
  obtain ⟨j, path, attrs, ds, hget, hstripped, hput⟩ := stripStep [doc] 0 k (by
    rw [byTagList_singleton, length_map]
    exact hk)
  rw [byTagList_singleton] at hget
  obtain ⟨rfl, hplan⟩ := hunder _ j path _ hget
  rw [stripForest, stripForest, byTagList_singleton] at hstripped
  exact ⟨path, attrs, ds, hplan, (hunder _ 0 path _ hstripped).2, (cons.inj hput).1⟩

theorem extractLoop_strip (h : FieldsInPlace false [doc]) :
    ∀ (k : Nat) (node : List (Nodes D)) (est : Estimates D), k ≤ (plans doc).length →
      extractLoop env k (strip k doc) node est = ownLoop env k (plans doc) node est
  | 0, _, _, _ => rfl
  | k + 1, node, est, hk => by
    obtain ⟨path, attrs, ds, hget, hstripped, hput⟩ := strip_round hk
    have hin : FieldsInPlace true ds := by
      have hmem : under 0 (path, .elem "Plan" attrs ds) ∈ byTagList "Plan" 0 [doc] := by
        rw [byTagList_singleton]
        exact mem_map_of_mem (mem_of_getElem? hget)
      exact h.plans_in_place 0 _ hmem
    rw [extractLoop, ownLoop, hget, hstripped]
    dsimp only [ownReading]
    cases newNodes env with
    | error fault => rfl
    | ok nd =>
      simp only [bind, Except.bind, takeFields_stripped env hin, childNodes]
      cases (fields env k).foldlM (readOwn ds) (nd, est) with
      | error fault => rfl
      | ok r =>
        simp only [Except.map, hput]
        exact extractLoop_strip h k (node ++ [r.1]) r.2 (by omega)

/-- `ExtractNodes1` reads every plan by its own fields. -/
theorem extractNodes1_eq (h : FieldsInPlace false [doc]) : extractNodes1 env doc = (do
      let zero := env.ofInt 0
      let (node, est) ← ownLoop env (plans doc).length (plans doc) [] ⟨zero, zero, zero, zero⟩
      .ok (node.reverse, queryStatistic env node.length est)) := by
  have hloop :=
    extractLoop_strip env h (plans doc).length []
      ⟨env.ofInt 0, env.ofInt 0, env.ofInt 0, env.ofInt 0⟩ (Nat.le_refl _)
  have hwhole : strip (plans doc).length doc = doc := by
    have hcount := length_byTagList_cons 0 doc []
    rw [byTagList_singleton, length_map] at hcount
    exact strip_of_le (by simp [hcount])
  rw [hwhole] at hloop
  rw [extractNodes1, hloop]

/-! ## The records -/

/-- Two fields that do the same to the record, whatever the sums are. -/
def SameRecord (f g : String × Setter D) : Prop :=
  f.1 = g.1 ∧ ∀ t nd est est', (f.2 t (nd, est)).map Prod.fst = (g.2 t (nd, est')).map Prod.fst

theorem setString_sameRecord (tag : String) (set : String → Nodes D → Nodes D) :
    SameRecord (tag, setString set) (tag, setString set) := ⟨rfl, fun _ _ _ _ => rfl⟩

theorem setInt_sameRecord (tag : String) (set : Int → Nodes D → Nodes D) :
    SameRecord (tag, setInt set) (tag, setInt set) := by
  refine ⟨rfl, fun t nd est est' => ?_⟩
  simp only [setInt]
  cases parseInt t <;> rfl

theorem setDouble_sameRecord (tag : String) (set : D → Nodes D → Nodes D)
    (sum sum' : D → Estimates D → Estimates D) :
    SameRecord (tag, setDouble env set sum) (tag, setDouble env set sum') := by
  refine ⟨rfl, fun t nd est est' => ?_⟩
  simp only [setDouble]
  cases env.parse t <;> rfl

theorem fields_sameRecord (temp temp' : Nat) :
    List.Forall₂ SameRecord (fields env temp) (fields env temp') := by
  repeat' apply List.Forall₂.cons
  all_goals first
    | exact setString_sameRecord _ _
    | exact setInt_sameRecord _ _
    | exact setDouble_sameRecord env _ _ _ _
    | exact List.Forall₂.nil

theorem SameRecord.readOwn_fst {f g : String × Setter D} (h : SameRecord f g) (xs : List Xml)
    (nd : Nodes D) (est est' : Estimates D) :
    (readOwn xs (nd, est) f).map Prod.fst = (readOwn xs (nd, est') g).map Prod.fst := by
  unfold readOwn
  rw [← h.1]
  cases ownValue f.1 xs with
  | none => rfl
  | some t => exact h.2 t nd est est'

theorem foldlM_readOwn_fst {fs gs : List (String × Setter D)} (h : List.Forall₂ SameRecord fs gs) :
    ∀ (nd : Nodes D) (est est' : Estimates D), (fs.foldlM (readOwn xs) (nd, est)).map Prod.fst =
      (gs.foldlM (readOwn xs) (nd, est')).map Prod.fst := by
  induction h with
  | nil => intros; rfl
  | @cons f g fs gs hfg _ ih =>
    intro nd est est'
    have hstep := hfg.readOwn_fst xs nd est est'
    rw [foldlM_cons, foldlM_cons]
    generalize readOwn xs (nd, est) f = a at hstep ⊢
    generalize readOwn xs (nd, est') g = b at hstep ⊢
    -- both read the field or fail alike
    rcases a with fault | ⟨nd1, est1⟩ <;> rcases b with fault' | ⟨nd2, est2⟩ <;>
      simp only [Except.map, reduceCtorEq, Except.error.injEq, Except.ok.injEq] at hstep
    · rw [hstep]
      rfl
    · rw [hstep]
      exact ih nd2 est1 est2

/-- The record does not depend on the position of the plan and on the sums. -/
theorem ownReading_fst (temp : Nat) (e : Xml) (est : Estimates D) :
    (ownReading env temp e est).map Prod.fst = ownRecord env e := by
  unfold ownRecord ownReading
  cases newNodes env with
  | error fault => rfl
  | ok nd => exact foldlM_readOwn_fst (fields_sameRecord env temp 0) nd est _

theorem ownLoop_iff (ps : List (Path × Xml)) :
    ∀ (k : Nat) (node out : List (Nodes D)) (est : Estimates D), k ≤ ps.length →
      ((∃ est', ownLoop env k ps node est = .ok (out, est')) ↔ ∃ recs : List (Nodes D),
        (ps.take k).map (fun plan => ownRecord env plan.2) = recs.map .ok ∧
        out = node ++ recs.reverse)
  | 0, node, out, est, _ => by
    simp [ownLoop, eq_comm]
  | k + 1, node, out, est, hk => by
    obtain ⟨plan, hplan⟩ : ∃ plan, ps[k]? = some plan := ⟨ps[k], getElem?_eq_getElem (by omega)⟩
    have htake : ps.take (k + 1) = ps.take k ++ [plan] := by
      rw [take_add_one, hplan, Option.toList_some]
    have hrecord := ownReading_fst env k plan.2 est
    rw [ownLoop, hplan, htake, map_append]
    dsimp only
    cases hread : ownReading env k plan.2 est with
    | error fault =>
      rw [hread] at hrecord
      have hfail : ¬ ∃ recs : List (Nodes D), (ps.take k).map (fun plan => ownRecord env plan.2) ++
          [plan].map (fun plan => ownRecord env plan.2) = recs.map .ok ∧
          out = node ++ recs.reverse := by
        rintro ⟨recs, hrecs, -⟩
        obtain ⟨_, recs', _, _, hlast⟩ := append_eq_map_iff.1 hrecs
        rw [map_singleton, ← hrecord] at hlast
        obtain ⟨nd, -, hnd⟩ := map_eq_singleton_iff.1 hlast
        simp [Except.map] at hnd
      exact iff_of_false (by simp [bind, Except.bind]) hfail
    | ok r =>
      rw [hread] at hrecord
      have hone : [plan].map (fun plan => ownRecord env plan.2) = [r.1].map .ok := by
        simp [← hrecord, Except.map]
      simp only [bind, Except.bind]
      rw [ownLoop_iff ps k (node ++ [r.1]) out r.2 (by omega), hone]
      constructor
      · rintro ⟨recs, hrecs, rfl⟩
        exact ⟨recs ++ [r.1], by rw [hrecs, map_append], by simp⟩
      · rintro ⟨recs, hrecs, rfl⟩
        obtain ⟨recs1, recs2, rfl, hrecs1, hrecs2⟩ := append_eq_map_iff.1 hrecs
        obtain ⟨nd, rfl, hnd⟩ := map_eq_singleton_iff.1 hrecs2
        obtain rfl : nd = r.1 := by simpa using hnd
        exact ⟨recs1, hrecs1.symm, by simp⟩

/-- **Every field goes to its own plan.** On a document whose fields stand in
their plans, `ExtractNodes1` returns exactly the records that the plans have by
their own fields, in document order: a tag that a plan has itself sets the
record, one that only a descendant has does not. It returns nothing only if
some plan's own fields cannot be read. -/
theorem extractNodes1_own_iff (doc : Xml) (h : FieldsInPlace false [doc]) (nodes : List (Nodes D)) :
    (∃ stat, extractNodes1 env doc = .ok (nodes, stat)) ↔
      (plans doc).map (fun plan => ownRecord env plan.2) = nodes.map .ok := by
  have hloop := ownLoop_iff env (plans doc) (plans doc).length [] nodes.reverse
    ⟨env.ofInt 0, env.ofInt 0, env.ofInt 0, env.ofInt 0⟩ (Nat.le_refl _)
  simp only [take_length, nil_append, reverse_inj, exists_eq_right'] at hloop
  rw [← hloop, extractNodes1_eq env h]
  dsimp only
  generalize ownLoop env (plans doc).length (plans doc) []
    ⟨env.ofInt 0, env.ofInt 0, env.ofInt 0, env.ofInt 0⟩ = result
  cases result with
  | error fault => simp [bind, Except.bind]
  | ok r => simp [bind, Except.bind, reverse_eq_iff, Prod.ext_iff]

end

/-! ## A plan of two nodes -/

/-- A doubles' stand-in where every text is a number, and every image is there. -/
def textEnv : Env String where
  parse := some
  print := id
  ofInt := toString
  add a b := a ++ "+" ++ b
  sub a b := a ++ "-" ++ b
  mul a b := a ++ "*" ++ b
  B0 := "39.0"
  resource := some

/-- A sort above a scan. Only the scan has a relation. -/
def sortOfScan : Xml :=
  .elem "explain" [("xmlns", "explain")] [.elem "Query" [] [
    .elem "Plan" [] [.text "\n  ", .elem "Node-Type" [] [.text "Sort"],
      .elem "Power-Cost" [] [.text "41.91"], .elem "Plans" [] [.elem "Plan" [] [
        .elem "Node-Type" [] [.text "Seq Scan"], .elem "Relation-Name" [] [.text "t"],
        .elem "Power-Cost" [] [.text "40.91"]]],
      .elem "Total-Cost" [] [.text "9.5"]]]]

theorem fieldsInPlace_sortOfScan : FieldsInPlace false [sortOfScan] := by
  refine .other (by decide) (by decide) (.other (by decide) (by decide) (.plan ?_ .nil) .nil) .nil
  refine .text (.field (by decide) (by simp) (by simp [hasTag])
    (.field (by decide) (by simp) (by simp [hasTag]) ?_))
  refine .other (by decide) (by decide) (.plan ?_ .nil)
    (.field (by decide) (by simp) (by simp) .nil)
  exact .field (by decide) (by simp) (by simp [hasTag])
    (.field (by decide) (by simp) (by simp [hasTag]) (.field (by decide) (by simp) (by simp) .nil))

/-- The sort does not get the relation of the scan. -/
theorem extractNodes1_own_sortOfScan :
    ∃ stat nodes, extractNodes1 textEnv sortOfScan = .ok (nodes, stat) ∧
      nodes.map (fun nd => (nd.nodeType, nd.tabname, nd.powerCost, nd.totalCost)) =
        [("Sort", "", "41.91", "9.5"), ("Seq Scan", "t", "40.91", "0")] := by
  let zero : Nodes String :=
    ⟨"", "", "", "", "0", "0", "0", "0", "", "", "0", 0, "", "", 0, "0", 0, 0, 0, -1,
      -1, "ex_unknown"⟩
  obtain ⟨stat, hok⟩ := (extractNodes1_own_iff textEnv sortOfScan fieldsInPlace_sortOfScan
    [{ zero with nodeType := "Sort", powerCost := "41.91", totalCost := "9.5" },
      { zero with nodeType := "Seq Scan", tabname := "t", powerCost := "40.91" }]).2 rfl
  exact ⟨stat, _, hok, rfl⟩

end GreenPipeline.L4.ExplainFields
