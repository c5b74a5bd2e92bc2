import GreenPipeline.Core.Bsearch
import GreenPipeline.L2Access.BtIndex

/-!
# Key comparison and binary search in a b-tree page

`_bt_compare` compares an insertion scan key with an index tuple by calling the comparison
functions of the columns, and `_bt_binsrch` searches a page with it
(`src/backend/access/nbtree/nbtsearch.c`). The comparison functions return a signed 32-bit number,
and for an ascending column the code negates it.

Results:

* `sign_compareLoop_iff`: the comparison is that of the index order, unless the deciding result is
  the smallest 32-bit number.
* `btBinsrch_leaf`: then the search of a sorted leaf page finds the first place.
* `btSearch_exact_iff`: both, for all the tuples of a page. `btSearch_exact`:
  so always for comparison functions that never return that number, as the
  b-tree code asks of them.
-/
namespace GreenPipeline.L2.Bt

open GreenPipeline.Core.LexOrder GreenPipeline.Core.Bsearch Std List

variable {D : Type*}

/-! ## The code -/

/-- An entry of an insertion scan key: `sk_flags` bits, `sk_attno`, `sk_argument` and the
comparison function. mirrors src/include/access/skey.h:64-73 -/
structure InsertScanKey (D : Type*) where
  isNull : Bool
  desc : Bool
  nullsFirst : Bool
  attno : Nat
  argument : D
  func : D → D → BitVec 32

/-- One entry against one attribute.
mirrors nbtsearch.c:461-503 -/
def compareAttr (key : InsertScanKey D) (itup : IndexTuple D) : BitVec 32 :=
  match indexGetattr itup key.attno with
  | none => if key.isNull then 0 else if key.nullsFirst then 1 else -1
  | some datum =>
    if key.isNull then if key.nullsFirst then -1 else 1
    else
      let result := key.func datum key.argument
      if !key.desc then -result else result

/-- mirrors nbtsearch.c:461-512 -/
def compareLoop : List (InsertScanKey D) → IndexTuple D → BitVec 32
  | [], _ => 0
  | key :: keys, itup =>
    let result := compareAttr key itup
    if result ≠ 0 then result else compareLoop keys itup

/-- A page: whether it is a leaf and the last of its level, and its items. Unless the page is the
last of its level, the first item is the high key. -/
structure BtPage (D : Type*) where
  isLeaf : Bool
  rightmost : Bool
  items : List (IndexTuple D)

/-- mirrors src/include/access/nbtree.h:205 -/
def BtPage.firstDataKey (page : BtPage D) : Nat := if page.rightmost then 1 else 2

/-- The items that are not the high key. -/
def BtPage.data (page : BtPage D) : List (IndexTuple D) := page.items.drop (page.firstDataKey - 1)

/-- mirrors nbtsearch.c:427-513 -/
def btCompare (scankey : List (InsertScanKey D)) (page : BtPage D) (offnum : Nat) : BitVec 32 :=
  if !page.isLeaf && offnum == page.firstDataKey then 1
  else
    match page.items[offnum - 1]? with
    | none => 0
    | some itup => compareLoop scankey itup

/-- mirrors nbtsearch.c:322-399 -/
def btBinsrch (scankey : List (InsertScanKey D)) (page : BtPage D) (nextkey : Bool) : Nat :=
  let low := page.firstDataKey
  let high := page.items.length
  if high < low then low
  else
    let high := high + 1
    let cmpval : BitVec 32 := if nextkey then 0 else 1
    let low :=
      lowerBoundLoop (fun mid => cmpval.sle (btCompare scankey page mid)) (high - low) low high
    if page.isLeaf then low else low - 1

/-! ## The comparison -/

/-- The sign of a comparison result. -/
def sign (result : BitVec 32) : Ordering :=
  if result.slt 0 then .lt else if result = 0 then .eq else .gt

/-- The smallest 32-bit number. -/
def int32Min : BitVec 32 := 0x80000000

/-- An entry that asks for a value of a column, with a comparison function whose sign is that of
the column's order. -/
structure KeyOf (c : Column D) (attnum : Nat) (key : InsertScanKey D) : Prop where
  attno : key.attno = attnum
  desc : key.desc = c.desc
  nullsFirst : key.nullsFirst = c.nullsFirst
  func : ∀ x y, sign (key.func x y) = c.cmp x y

/-- A scan key for the first columns. -/
def ScanKeyOf : (attnum : Nat) → List (Column D) → List (InsertScanKey D) → Prop
  | _, _, [] => True
  | _, [], _ :: _ => False
  | attnum, c :: cs, key :: keys => KeyOf c attnum key ∧ ScanKeyOf (attnum + 1) cs keys

/-- The value that an entry asks for. -/
def InsertScanKey.value (key : InsertScanKey D) : Option D :=
  if key.isNull then none else some key.argument

/-- The order of the index, of the key's columns against a tuple. -/
def keyCmp : List (Column D) → List (InsertScanKey D) → IndexTuple D → Ordering
  | c :: cs, key :: keys, itup =>
    (c.order key.value (indexGetattr itup key.attno)).then (keyCmp cs keys itup)
  | _, _, _ => .eq

/-- The result of one column cannot be negated. -/
def Unnegatable (key : InsertScanKey D) (itup : IndexTuple D) : Prop :=
  key.isNull = false ∧ key.desc = false ∧
    ∃ datum, indexGetattr itup key.attno = some datum ∧ key.func datum key.argument = int32Min

/-- The first entry that differs is decided by a result that cannot be negated. -/
def MinDecides : List (Column D) → List (InsertScanKey D) → IndexTuple D → Prop
  | c :: cs, key :: keys, itup =>
    Unnegatable key itup ∨
      c.order key.value (indexGetattr itup key.attno) = .eq ∧ MinDecides cs keys itup
  | _, _, _ => False

theorem sign_eq_eq_iff (result : BitVec 32) : sign result = .eq ↔ result = 0 := by
  unfold sign
  constructor
  · intro h
    split at h
    · cases h
    · split at h
      · assumption
      · cases h
  · intro h
    subst h
    decide

/-- Negation turns the sign around, except for the smallest number. -/
theorem sign_neg {result : BitVec 32} (hne : result ≠ int32Min) :
    sign (-result) = (sign result).swap := by
  have hneg := BitVec.toInt_neg_of_ne_intMin hne
  have hzero : ∀ r : BitVec 32, r = 0 ↔ r.toInt = 0 := fun r => by
    rw [← BitVec.toInt_inj]
    rfl
  simp only [sign, BitVec.slt_iff_toInt_lt, hzero, hneg, show (0 : BitVec 32).toInt = 0 from rfl]
  rcases Int.lt_trichotomy result.toInt 0 with h | h | h
  · rw [if_neg (by omega), if_neg (by omega), if_pos h]
    rfl
  · rw [if_neg (by omega), if_pos (by omega), if_neg (by omega), if_pos h]
    rfl
  · rw [if_pos (by omega), if_neg (by omega), if_neg (by omega)]
    rfl

variable {itup : IndexTuple D}

section Compare
variable {c : Column D} {attnum : Nat} {key : InsertScanKey D}

/-- One column. -/
theorem sign_compareAttr (hkey : KeyOf c attnum key) (hne : ¬ Unnegatable key itup) :
    sign (compareAttr key itup) = c.order key.value (indexGetattr itup key.attno) := by
  have hlawful := c.lawful
  unfold compareAttr InsertScanKey.value Column.order
  cases hnull : key.isNull with
  | true =>
    cases hattr : indexGetattr itup key.attno with
    | none => rfl
    | some datum =>
      rw [hkey.nullsFirst]
      cases c.nullsFirst <;> rfl
  | false =>
    cases hattr : indexGetattr itup key.attno with
    | none =>
      rw [hkey.nullsFirst]
      cases c.nullsFirst <;> rfl
    | some datum =>
      have hsign := hkey.func datum key.argument
      have hswap : c.cmp key.argument datum = (c.cmp datum key.argument).swap := OrientedCmp.eq_swap
      rw [hkey.desc]
      cases hdesc : c.desc with
      | true => simp [nullsCmp, dirCmp, hsign, hswap]
      | false =>
        have hmin : key.func datum key.argument ≠ int32Min :=
          fun h => hne ⟨hnull, by rw [hkey.desc, hdesc], datum, hattr, h⟩
        simp [nullsCmp, dirCmp, sign_neg hmin, hsign, hswap]

/-- The smallest number is its own negative: the key is greater than the tuple, and the result
says less. -/
theorem sign_compareAttr_min (hkey : KeyOf c attnum key) (hmin : Unnegatable key itup) :
    sign (compareAttr key itup) = .lt ∧ c.order key.value (indexGetattr itup key.attno) = .gt := by
  have hlawful := c.lawful
  obtain ⟨hnull, hdesc, datum, hattr, hfunc⟩ := hmin
  have hsign := hkey.func datum key.argument
  rw [hfunc] at hsign
  have hlt : c.cmp datum key.argument = .lt := by
    rw [← hsign]
    decide
  have hgt := OrientedCmp.gt_iff_lt.2 hlt
  constructor
  · simp only [compareAttr, hattr, hnull, hdesc, hfunc]
    change sign (-int32Min) = .lt
    decide
  · rw [hkey.desc] at hdesc
    simp [Column.order, InsertScanKey.value, hnull, hattr, hdesc, nullsCmp, dirCmp, hgt]

end Compare

/-- The sign is that of the index order exactly if no result decides that cannot be negated. -/
theorem sign_compareLoop_iff : ∀ (cs : List (Column D)) (keys : List (InsertScanKey D))
    (attnum : Nat), ScanKeyOf attnum cs keys →
    ∀ itup, sign (compareLoop keys itup) = keyCmp cs keys itup ↔ ¬ MinDecides cs keys itup := by
  intro cs keys
  induction keys generalizing cs with
  | nil =>
    cases cs <;> simp [compareLoop, keyCmp, MinDecides, sign]
  | cons key keys ih =>
    intro attnum hkeys itup
    cases cs with
    | nil => cases hkeys
    | cons c cs =>
      obtain ⟨hkey, hkeys⟩ := hkeys
      have hih := ih cs (attnum + 1) hkeys itup
      simp only [compareLoop, keyCmp, MinDecides]
      by_cases hmin : Unnegatable key itup
      · obtain ⟨hlt, hgt⟩ := sign_compareAttr_min hkey hmin
        have hne : compareAttr key itup ≠ 0 := by
          intro h
          rw [← sign_eq_eq_iff, hlt] at h
          cases h
        rw [if_pos hne, hlt, hgt]
        exact iff_of_false (by simp) (fun h => h (Or.inl hmin))
      · have hsign := sign_compareAttr hkey hmin
        by_cases hzero : compareAttr key itup = 0
        · have heq : c.order key.value (indexGetattr itup key.attno) = .eq := by
            rw [← hsign, sign_eq_eq_iff, hzero]
          rw [if_neg (by simpa using hzero), heq, Ordering.eq_then, hih]
          exact not_congr ⟨fun h => Or.inr ⟨rfl, h⟩, fun h => (h.resolve_left hmin).2⟩
        · have hne : c.order key.value (indexGetattr itup key.attno) ≠ .eq := by
            rw [← hsign]
            exact fun h => hzero ((sign_eq_eq_iff _).1 h)
          rw [if_pos hzero, hsign]
          refine iff_of_true ?_ (fun h => ?_)
          · cases hord : c.order key.value (indexGetattr itup key.attno) with
            | eq => exact absurd hord hne
            | lt => rfl
            | gt => rfl
          · rcases h with h | h
            · exact hmin h
            · exact hne h.1

/-! ## The search -/

/-- The values of a scan key as a tuple. -/
def keyTuple (keys : List (InsertScanKey D)) : IndexTuple D := ⟨keys.map (·.value)⟩

/-- The comparison of the key is that of the tuple of its values, by the first columns. -/
theorem keyCmp_eq : ∀ (cs : List (Column D))
    (before keys : List (InsertScanKey D)), ScanKeyOf (before.length + 1) cs keys → ∀ itup,
    keyCmp cs keys itup =
      lexCmp (attrOrders (before.length + 1) (cs.take keys.length))
        (keyTuple (before ++ keys)) itup := by
  intro cs
  induction cs with
  | nil =>
    intro before keys hkeys itup
    cases keys with
    | nil => rfl
    | cons key keys => cases hkeys
  | cons c cs ih =>
    intro before keys hkeys itup
    cases keys with
    | nil => rfl
    | cons key keys =>
      obtain ⟨hkey, hkeys⟩ := hkeys
      have hih := ih (before ++ [key]) keys (by rw [length_append]; exact hkeys) itup
      rw [append_assoc, singleton_append, length_append, length_singleton] at hih
      have hvalue : indexGetattr (keyTuple (before ++ key :: keys)) (before.length + 1) =
          key.value := by
        simp [indexGetattr, keyTuple]
      rw [keyCmp, length_cons, take_succ_cons, attrOrders, lexCmp, hih, Column.attrOrder,
        hvalue, hkey.attno]

/-- Going back in the index, the key stays greater, or no less. -/
theorem keyCmp_mono {columns : List (Column D)} {keys : List (InsertScanKey D)}
    (hkeys : ScanKeyOf 1 columns keys) {t u : IndexTuple D} (htu : (indexCmp columns t u).isLE) :
    (keyCmp columns keys u = .gt → keyCmp columns keys t = .gt) ∧
    (keyCmp columns keys u ≠ .lt → keyCmp columns keys t ≠ .lt) := by
  have hcmp := keyCmp_eq columns [] keys hkeys
  have htrans : TransCmp (lexCmp (attrOrders 1 (columns.take keys.length))) :=
    lexCmp_transCmp (attrOrders_transCmp _ 1)
  have hle : (lexCmp (attrOrders 1 (columns.take keys.length)) t u).isLE := by
    have happend : (lexCmp (attrOrders 1 (columns.take keys.length) ++
        attrOrders (1 + (columns.take keys.length).length) (columns.drop keys.length))
        t u).isLE := by
      rw [← attrOrders_append, take_append_drop]
      exact htu
    exact isLE_of_append happend
  rw [hcmp, hcmp]
  constructor
  · intro hgt
    rw [OrientedCmp.gt_iff_lt] at hgt ⊢
    exact TransCmp.lt_of_isLE_of_lt hle hgt
  · intro hne hlt
    exact hne (TransCmp.lt_of_lt_of_isLE hlt hle)

/-- The first data item at or behind the key, or behind it. -/
def firstItem (columns : List (Column D)) (scankey : List (InsertScanKey D)) (page : BtPage D)
    (nextkey : Bool) : Nat :=
  page.firstDataKey + page.data.findIdx fun itup =>
    if nextkey then keyCmp columns scankey itup == .lt else keyCmp columns scankey itup != .gt

/-- The test of the search, on the sign of the comparison. -/
theorem sle_iff_sign (nextkey : Bool) (result : BitVec 32) :
    (if nextkey then 0 else 1 : BitVec 32).sle result =
      if nextkey then sign result != .lt else sign result == .gt := by
  have hzero : result = 0 ↔ result.toInt = 0 := by
    rw [← BitVec.toInt_inj]
    rfl
  have hslt : result.slt 0 = decide (result.toInt < 0) := by
    rfl
  unfold sign
  rw [hslt]
  simp only [decide_eq_true_eq, hzero]
  cases nextkey with
  | true =>
    simp only [if_true, BitVec.sle_eq_decide, show (0 : BitVec 32).toInt = 0 from rfl]
    rcases Int.lt_trichotomy result.toInt 0 with h | h | h
    · rw [if_pos h, decide_eq_false (by omega)]
      rfl
    · rw [if_neg (by omega), if_pos h, decide_eq_true (by omega)]
      rfl
    · rw [if_neg (by omega), if_neg (by omega), decide_eq_true (by omega)]
      rfl
  | false =>
    simp only [Bool.false_eq_true, if_false, BitVec.sle_eq_decide,
      show (1 : BitVec 32).toInt = 1 from rfl]
    rcases Int.lt_trichotomy result.toInt 0 with h | h | h
    · rw [if_pos h, decide_eq_false (by omega)]
      rfl
    · rw [if_neg (by omega), if_pos h, decide_eq_false (by omega)]
      rfl
    · rw [if_neg (by omega), if_neg (by omega), decide_eq_true (by omega)]
      rfl

theorem BtPage.data_getElem? (page : BtPage D) (k : Nat) :
    page.data[k]? = page.items[page.firstDataKey + k - 1]? := by
  have hpos : 1 ≤ page.firstDataKey := by
    unfold BtPage.firstDataKey
    split <;> omega
  rw [BtPage.data, getElem?_drop]
  congr 1
  omega

section Search
variable {columns : List (Column D)} {scankey : List (InsertScanKey D)}
  (hkey : ScanKeyOf 1 columns scankey) {page : BtPage D} (hleaf : page.isLeaf = true)
include hkey hleaf

omit hkey in
/-- On a leaf page, the comparison is with the tuple. -/
theorem btCompare_leaf {k : Nat} (hk : page.data[k]? = some itup) :
    btCompare scankey page (page.firstDataKey + k) = compareLoop scankey itup := by
  rw [BtPage.data_getElem?] at hk
  simp [btCompare, hleaf, hk]

/-- The search of a sorted leaf page finds the first place, if no comparison is decided by a
result that cannot be negated. -/
theorem btBinsrch_leaf (hsorted : page.data.Pairwise fun t u => (indexCmp columns t u).isLE)
    (hsafe : ∀ itup ∈ page.data, ¬ MinDecides columns scankey itup) (nextkey : Bool) :
    btBinsrch scankey page nextkey = firstItem columns scankey page nextkey := by
  have hsign : ∀ itup ∈ page.data, sign (compareLoop scankey itup) = keyCmp columns scankey itup :=
    fun itup hmem => (sign_compareLoop_iff columns scankey 1 hkey itup).2 (hsafe itup hmem)
  have hpos : 1 ≤ page.firstDataKey := by
    unfold BtPage.firstDataKey
    split <;> omega
  unfold btBinsrch firstItem
  simp only [hleaf, if_true]
  split
  · rename_i hempty
    have hnil : page.data = [] := drop_eq_nil_of_le (by omega)
    rw [hnil]
    rfl
  · rename_i hdata
    have hlen : page.items.length + 1 = page.firstDataKey + page.data.length := by
      rw [BtPage.data, length_drop]
      omega
    rw [hlen, Nat.add_sub_cancel_left]
    refine (lowerBound_findIdx (q := fun itup => if nextkey then keyCmp columns scankey itup != .lt
      else keyCmp columns scankey itup == .gt)
        (fun k itup hk => ?_) (hsorted.imp_of_mem ?_) (Nat.le_refl _)).trans ?_
    · rw [btCompare_leaf hleaf hk, sle_iff_sign, hsign itup (mem_of_getElem? hk)]
    · intro t u ht hu htu hpass
      obtain ⟨hgt, hge⟩ := keyCmp_mono hkey htu
      cases nextkey with
      | true => simpa using hge (by simpa using hpass)
      | false => simpa using hgt (by simpa using hpass)
    · congr 2
      funext itup
      cases keyCmp columns scankey itup <;> cases nextkey <;> rfl

end Search

/-- On a sorted leaf page, the comparison has the sign of the index order for every tuple and the
search finds the first place, exactly if no comparison is decided by the smallest 32-bit number in
an ascending column. -/
theorem btSearch_exact_iff (columns : List (Column D)) (scankey : List (InsertScanKey D))
    (hkey : ScanKeyOf 1 columns scankey) (page : BtPage D) (hleaf : page.isLeaf = true)
    (hsorted : page.data.Pairwise fun t u => (indexCmp columns t u).isLE) :
    ((∀ k itup, page.data[k]? = some itup →
        sign (btCompare scankey page (page.firstDataKey + k)) = keyCmp columns scankey itup) ∧
      ∀ nextkey, btBinsrch scankey page nextkey = firstItem columns scankey page nextkey) ↔
    ∀ itup ∈ page.data, ¬ MinDecides columns scankey itup := by
  constructor
  · intro h itup hmem
    obtain ⟨k, hk⟩ := mem_iff_getElem?.1 hmem
    have hsign := h.1 k itup hk
    rw [btCompare_leaf hleaf hk] at hsign
    exact (sign_compareLoop_iff columns scankey 1 hkey itup).1 hsign
  · intro hsafe
    refine ⟨fun k itup hk => ?_, btBinsrch_leaf hkey hleaf hsorted hsafe⟩
    rw [btCompare_leaf hleaf hk]
    exact (sign_compareLoop_iff columns scankey 1 hkey itup).2 (hsafe itup (mem_of_getElem? hk))

theorem not_minDecides {scankey : List (InsertScanKey D)} (columns : List (Column D))
    (hmin : ∀ key ∈ scankey, ∀ x y, key.func x y ≠ int32Min) (itup : IndexTuple D) :
    ¬ MinDecides columns scankey itup := by
  induction columns generalizing scankey with
  | nil => exact id
  | cons c cs ih =>
    cases scankey with
    | nil => exact id
    | cons key keys =>
      rintro (⟨-, -, datum, -, hfunc⟩ | ⟨-, hrest⟩)
      · exact hmin key mem_cons_self datum key.argument hfunc
      · exact ih (fun key hkey => hmin key (mem_cons_of_mem _ hkey)) hrest

/-- **Key comparison is the index order.** For comparison functions that never
return the smallest 32-bit number, on a sorted leaf page, the comparison has
the sign of the index order for every tuple and the search finds the first
place. -/
theorem btSearch_exact (columns : List (Column D)) (scankey : List (InsertScanKey D))
    (hkey : ScanKeyOf 1 columns scankey) (hmin : ∀ key ∈ scankey, ∀ x y, key.func x y ≠ int32Min)
    (page : BtPage D) (hleaf : page.isLeaf = true)
    (hsorted : page.data.Pairwise fun t u => (indexCmp columns t u).isLE) :
    (∀ k itup, page.data[k]? = some itup →
      sign (btCompare scankey page (page.firstDataKey + k)) = keyCmp columns scankey itup) ∧
    ∀ nextkey, btBinsrch scankey page nextkey = firstItem columns scankey page nextkey :=
  (btSearch_exact_iff columns scankey hkey page hleaf hsorted).2
    fun itup _ => not_minDecides columns hmin itup

/-! ## An index on one number -/

def ascending : Column Nat := ⟨compare, inferInstance, false, false⟩

/-- A comparison function that returns a number below zero, zero, or one. -/
def cmpFunc (below : BitVec 32) (x y : Nat) : BitVec 32 :=
  if x < y then below else if x = y then 0 else 1

def keyOne (below : BitVec 32) : InsertScanKey Nat := ⟨false, false, false, 1, 1, cmpFunc below⟩

/-- A leaf page with the tuples (0) and (1). -/
def pageZeroOne : BtPage Nat := ⟨true, true, [⟨[some 0]⟩, ⟨[some 1]⟩]⟩

theorem scanKeyOf_keyOne {below : BitVec 32} (hbelow : sign below = .lt) :
    ScanKeyOf 1 [ascending] [keyOne below] := by
  refine ⟨⟨rfl, rfl, rfl, fun x y => ?_⟩, trivial⟩
  change sign (cmpFunc below x y) = compare x y
  unfold cmpFunc
  rcases Nat.lt_trichotomy x y with h | h | h
  · rw [if_pos h, hbelow, Nat.compare_eq_lt.2 h]
  · rw [if_neg (by omega), if_pos h, Nat.compare_eq_eq.2 h]
    decide
  · rw [if_neg (by omega), if_neg (by omega), Nat.compare_eq_gt.2 h]
    decide

theorem pageZeroOne_sorted :
    pageZeroOne.data.Pairwise fun t u => (indexCmp [ascending] t u).isLE := by decide

/-- With a function that returns -1, the search for 1 is right. -/
theorem btSearch_exact_one :
    (∀ k itup, pageZeroOne.data[k]? = some itup →
      sign (btCompare [keyOne (-1)] pageZeroOne (pageZeroOne.firstDataKey + k)) =
        keyCmp [ascending] [keyOne (-1)] itup) ∧
    ∀ nextkey, btBinsrch [keyOne (-1)] pageZeroOne nextkey =
      firstItem [ascending] [keyOne (-1)] pageZeroOne nextkey := by
  refine btSearch_exact [ascending] [keyOne (-1)] (scanKeyOf_keyOne (by decide)) ?_ pageZeroOne rfl
    pageZeroOne_sorted
  intro key hkey x y
  obtain rfl := mem_singleton.1 hkey
  change cmpFunc (-1) x y ≠ int32Min
  unfold cmpFunc
  split
  · decide
  · split <;> decide

/-- With one that returns the smallest number, the key 1 is found to be less than the tuple (0),
and the search for 1 returns the place of (0). -/
theorem btSearch_min_wrong :
    ScanKeyOf 1 [ascending] [keyOne int32Min] ∧
    (pageZeroOne.data.Pairwise fun t u => (indexCmp [ascending] t u).isLE) ∧
      sign (btCompare [keyOne int32Min] pageZeroOne 1) = .lt ∧ keyCmp [ascending]
      [keyOne int32Min] ⟨[some 0]⟩ = .gt ∧
      btBinsrch [keyOne int32Min] pageZeroOne false = 1 ∧ firstItem [ascending]
      [keyOne int32Min] pageZeroOne false = 2 :=
  ⟨scanKeyOf_keyOne (by decide), pageZeroOne_sorted, by decide, by decide, by decide, by decide⟩

end GreenPipeline.L2.Bt
