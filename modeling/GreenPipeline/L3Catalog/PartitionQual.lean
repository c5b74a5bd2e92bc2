import GreenPipeline.L1Nodes.BoolExpr
import GreenPipeline.L3Catalog.PartitionRouting

/-!
# The constraint of a range partition

`get_qual_for_range` writes the range of a partition as a list of expressions, all of which have
to be TRUE for a row: no key column is null; the columns in which both bounds have the same value
equal it; and for either bound an OR whose arms compare one column more each, all but the last of
them for equality. The arms end before a column that is MINVALUE or MAXVALUE in the bound; such a
column decides only whether the comparison before it is strict.

Operators of the btree family are evaluated through the column's comparison, and are strict.

Sources: `src/backend/catalog/partition.c`.

Results:

* `orArmsLoop_eq`: the arms generated for a bound, without the loop.
* `Side.arms_iff`: their OR is the lexicographic comparison with the bound.
* `getQualForRange_exact`: the list is TRUE for a row exactly if no key is null and the routing
  comparison places the key in the range.
* `qual_iff_selected`: a row is routed to the one partition whose constraint it fulfils, whatever
  partitions were created and detached before.
-/
namespace GreenPipeline.L3.Partition

open Std GreenPipeline.Core GreenPipeline.Core.Intervals GreenPipeline.L1.BoolExpr List
  PartitionRangeDatum

/-! ## Key columns and expressions -/

/-- A key whose columns are attributes, or expressions where the attribute number is 0. -/
structure RangePartitionKey (D E : Type) extends PartitionKey D where
  partattrs : List Nat
  partexprs : List E
  length_partattrs : partattrs.length = partsupfunc.length
  length_partexprs : partexprs.length = partattrs.count 0

inductive KeyCol (E : Type) where
  | var (attno : Nat)
  | expr (e : E)

/-- mirrors src/include/access/stratnum.h:29-33 -/
inductive BTStrategy where
  | less
  | lessEqual
  | equal
  | greaterEqual
  | greater

/-- A null test, or `make_partition_op_expr` applied to a key column and a constant. -/
inductive QualAtom (D E : Type) where
  | isNotNull (keyCol : KeyCol E)
  | op (keynum : Nat) (strategy : BTStrategy) (keyCol : KeyCol E) (const : D)

abbrev Qual (D E : Type) : Type := Expr (QualAtom D E)

/-- The attributes of a row and the values that expressions have for it. -/
structure Row (D E : Type) where
  attr : Nat → Option D
  eval : E → Option D

def BTStrategy.test : BTStrategy → Ordering → Bool
  | .less, o => o.isLT
  | .lessEqual, o => o.isLE
  | .equal, o => o.isEq
  | .greaterEqual, o => o.isGE
  | .greater, o => o.isGT

section
variable {D E : Type}

def Row.value (row : Row D E) : KeyCol E → Option D
  | .var attno => row.attr attno
  | .expr e => row.eval e

variable (key : RangePartitionKey D E)

/-- The comparison of the column's operator class. -/
def RangePartitionKey.cmpAt (keynum : Nat) : D → D → Ordering :=
  key.partsupfunc.getD keynum fun _ _ => .eq

/-- The value of a leaf; the operators are strict. -/
def Row.atomValue (row : Row D E) : QualAtom D E → Truth
  | .isNotNull keyCol => some (row.value keyCol).isSome
  | .op keynum strategy keyCol const =>
    (row.value keyCol).map fun v => strategy.test (key.cmpAt keynum v const)

/-! ## The code -/

/-- The column's attribute, or the next of the expressions.
mirrors partition.c:1453-1468 and 1563-1577 -/
def keyColumn (keynum : Nat) (partexprsItem : List E) : Except String (KeyCol E × List E) :=
  if key.partattrs.getD keynum 0 ≠ 0 then .ok (.var (key.partattrs.getD keynum 0), partexprsItem)
  else
    match partexprsItem with
    | [] => .error "wrong number of partition key expressions"
    | e :: rest => .ok (.expr e, rest)

/-- The values of a row's key columns.
mirrors partition.c:1934-1963 -/
def formPartitionKeyDatumLoop (row : Row D E) :
    (count i : Nat) → List E → List (Option D) → Except String (List (Option D))
  | 0, _, partexprItem, values =>
    if partexprItem.isEmpty then .ok values else .error "wrong number of partition key expressions"
  | count + 1, i, partexprItem, values =>
    (keyColumn key i partexprItem).bind fun p =>
      formPartitionKeyDatumLoop row count (i + 1) p.2 (values ++ [row.value p.1])

/-- mirrors partition.c:1913-1964 -/
def formPartitionKeyDatum (row : Row D E) : Except String (List (Option D)) :=
  formPartitionKeyDatumLoop key row key.partnatts 0 key.partexprs []

structure RangeKeyProperties (D E : Type) where
  keyCol : KeyCol E
  lowerVal : Option D
  upperVal : Option D
  partexprsItem : List E

/-- The constant of a bound; there is none for MINVALUE and MAXVALUE. -/
def PartitionRangeDatum.const : PartitionRangeDatum D → Option D
  | .value v => some v
  | _ => none

/-- mirrors partition.c:1444-1480 -/
def getRangeKeyProperties (keynum : Nat) (ldatum udatum : PartitionRangeDatum D)
    (partexprsItem : List E) :
    Except String (RangeKeyProperties D E) :=
  (keyColumn key keynum partexprsItem).map fun p => ⟨p.1, ldatum.const, udatum.const, p.2⟩

/-- mirrors partition.c:1558-1585 -/
def nullTestsLoop : (count i : Nat) → List E → List (Qual D E) → Except String (List (Qual D E))
  | 0, _, _, result => .ok result
  | count + 1, i, partexprsItem, result =>
    (keyColumn key i partexprsItem).bind fun p =>
      nullTestsLoop count (i + 1) p.2 (result ++ [.atom (.isNotNull p.1)])

/-- Where the OR expressions start. -/
structure OrStart (D E : Type) where
  i : Nat
  lowerDatums : List (PartitionRangeDatum D)
  upperDatums : List (PartitionRangeDatum D)
  partexprsItemSaved : List E
  result : List (Qual D E)

/-- The columns in which both bounds have the same value.
mirrors partition.c:1596-1667 -/
def equalLoop : (i : Nat) → (cell1 cell2 : List (PartitionRangeDatum D)) →
    (partexprsItem partexprsItemSaved : List E) →
    List (Qual D E) → Except String (OrStart D E)
  | i, ldatum :: cell1, udatum :: cell2, partexprsItem, _, result =>
    (getRangeKeyProperties key i ldatum udatum partexprsItem).bind fun p =>
      match p.lowerVal, p.upperVal with
      | some lowerVal, some upperVal =>
        if BTStrategy.equal.test (key.cmpAt i lowerVal upperVal) then
          if i = key.partnatts - 1 then .error "invalid range bound specification"
          else equalLoop (i + 1) cell1 cell2 p.partexprsItem partexprsItem
            (result ++ [.atom (.op i .equal p.keyCol lowerVal)])
        else .ok ⟨i, ldatum :: cell1, udatum :: cell2, partexprsItem, result⟩
      | _, _ => .ok ⟨i, ldatum :: cell1, udatum :: cell2, partexprsItem, result⟩
  | i, cell1, cell2, _, partexprsItemSaved, result =>
    .ok ⟨i, cell1, cell2, partexprsItemSaved, result⟩

/-- `ldatum_next && ldatum_next->kind == kind`, for the datums that follow. -/
def nextKindIs (kind : Int) (rest : List (PartitionRangeDatum D)) : Bool :=
  rest.head?.any fun d => d.kind == kind

/-- mirrors partition.c:1711-1718 -/
def lowerStrategy (i currentOrArm j : Nat) (rest : List (PartitionRangeDatum D)) : BTStrategy :=
  if j - i < currentOrArm then .equal
  else if j = key.partnatts - 1 ∨ nextKindIs (-1) rest = true then .greaterEqual
  else .greater

/-- mirrors partition.c:1736-1742 -/
def upperStrategy (i currentOrArm j : Nat) (rest : List (PartitionRangeDatum D)) : BTStrategy :=
  if j - i < currentOrArm then .equal
  else if nextKindIs 1 rest = true then .lessEqual
  else .less

/-- mirrors partition.c:1700-1725 and 1727-1749 -/
def armArgs (needNextArm : Bool) (val : Option D) (j : Nat) (strategy : BTStrategy)
    (keyCol : KeyCol E) (args : List (Qual D E)) : List (Qual D E) :=
  match needNextArm, val with
  | true, some d => args ++ [.atom (.op j strategy keyCol d)]
  | _, _ => args

structure OrArm (D E : Type) where
  lowerArgs : List (Qual D E)
  upperArgs : List (Qual D E)
  needNextLower : Bool
  needNextUpper : Bool

/-- The columns of one arm.
mirrors partition.c:1683-1771 -/
def orArmLoop (i currentOrArm : Nat) (needNextLower needNextUpper : Bool) : (j : Nat) →
    (cell1 cell2 : List (PartitionRangeDatum D)) → List E →
    (lowerArgs upperArgs : List (Qual D E)) →
    Except String (OrArm D E)
  | j, ldatum :: cell1, udatum :: cell2, partexprsItem, lowerArgs, upperArgs =>
    (getRangeKeyProperties key j ldatum udatum partexprsItem).bind fun p =>
      let lowerArgs :=
        armArgs needNextLower p.lowerVal j (lowerStrategy key i currentOrArm j cell1)
          p.keyCol lowerArgs
      let upperArgs :=
        armArgs needNextUpper p.upperVal j (upperStrategy i currentOrArm j cell2) p.keyCol upperArgs
      if j + 1 - i > currentOrArm then
        .ok ⟨lowerArgs, upperArgs, needNextLower && (p.lowerVal.isSome && nextKindIs 0 cell1),
          needNextUpper && (p.upperVal.isSome && nextKindIs 0 cell2)⟩
      else orArmLoop i currentOrArm needNextLower needNextUpper (j + 1) cell1 cell2 p.partexprsItem
        lowerArgs upperArgs
  | _, _, _, _, lowerArgs, upperArgs => .ok ⟨lowerArgs, upperArgs, needNextLower, needNextUpper⟩

/-- Append the clauses as one: nothing for none, one alone without the AND or OR. -/
def appendClause (makeBoolExpr : List (Qual D E) → Qual D E) (result args : List (Qual D E)) :
    List (Qual D E) :=
  match args with
  | [] => result
  | [arg] => result ++ [arg]
  | args => result ++ [makeBoolExpr args]

/-- mirrors partition.c:1674-1791 -/
def orArmsLoop (i : Nat) (cell1 cell2 : List (PartitionRangeDatum D))
    (partexprsItemSaved : List E) :
    (count currentOrArm : Nat) → (needNextLower needNextUpper : Bool) →
    (lowerOrArms upperOrArms : List (Qual D E)) →
    Except String (List (Qual D E) × List (Qual D E))
  | 0, _, _, _, lowerOrArms, upperOrArms => .ok (lowerOrArms, upperOrArms)
  | count + 1, currentOrArm, needNextLower, needNextUpper, lowerOrArms, upperOrArms =>
    (orArmLoop key i currentOrArm needNextLower needNextUpper i cell1 cell2 partexprsItemSaved []
      []).bind fun arm =>
      let lowerOrArms := appendClause .and lowerOrArms arm.lowerArgs
      let upperOrArms := appendClause .and upperOrArms arm.upperArgs
      if arm.needNextLower = false ∧ arm.needNextUpper = false then .ok (lowerOrArms, upperOrArms)
      else orArmsLoop i cell1 cell2 partexprsItemSaved count (currentOrArm + 1) arm.needNextLower
        arm.needNextUpper
        lowerOrArms upperOrArms

/-- mirrors partition.c:1524-1813 -/
def getQualForRange (spec : Interval key.Datums) : Except String (List (Qual D E)) :=
  (nullTestsLoop key key.partnatts 0 key.partexprs []).bind fun result =>
    (equalLoop key 0 spec.lower.1 spec.upper.1 key.partexprs key.partexprs result).bind fun start =>
      (orArmsLoop key start.i start.lowerDatums start.upperDatums start.partexprsItemSaved
        (key.partnatts - start.i) 0
        true true [] []).map fun arms =>
          let result := appendClause .or (appendClause .or start.result arms.1) arms.2
          -- callers expect a non-empty list
          if result.isEmpty then [.const (some true)] else result

end

/-! ## The columns that are left -/

section
variable {D E : Type} {key : RangePartitionKey D E}

/-- The key columns, in order. -/
def columns : List Nat → List E → List (KeyCol E)
  | [], _ => []
  | attno :: attrs, exprs =>
    if attno ≠ 0 then .var attno :: columns attrs exprs
    else
      match exprs with
      | [] => []
      | e :: exprs => .expr e :: columns attrs exprs

/-- Columns `j` and up, with the expressions that are left for them. -/
structure Remaining (key : RangePartitionKey D E) (j : Nat) (partexprsItem : List E)
    (cols : List (KeyCol E)) : Prop where
  cols_eq : cols = columns (key.partattrs.drop j) partexprsItem
  count : partexprsItem.length = (key.partattrs.drop j).count 0
  length : j + cols.length = key.partnatts

theorem length_columns {attrs : List Nat} {exprs : List E} (h : exprs.length = attrs.count 0) :
    (columns attrs exprs).length = attrs.length := by
  induction attrs generalizing exprs with
  | nil => rfl
  | cons attno attrs ih =>
    unfold columns
    by_cases hzero : attno ≠ 0
    · rw [count_cons_of_ne hzero] at h
      rw [if_pos hzero, length_cons, ih h, length_cons]
    · rw [if_neg hzero]
      rw [not_not.1 hzero, count_cons_self] at h
      cases exprs with
      | nil => simp at h
      | cons e exprs => simpa using ih (by simpa using h)

variable (key) in
theorem Remaining.start : Remaining key 0 key.partexprs (columns key.partattrs key.partexprs) :=
  ⟨rfl, key.length_partexprs, by
    rw [length_columns key.length_partexprs, key.length_partattrs, zero_add]; rfl⟩

/-- The next column is found, whatever its kind. -/
theorem Remaining.next {j : Nat} {item : List E} {c : KeyCol E} {cols : List (KeyCol E)}
    (h : Remaining key j item (c :: cols)) :
    ∃ item', keyColumn key j item = .ok (c, item') ∧ Remaining key (j + 1) item' cols := by
  obtain ⟨hcols, hcount, hlen⟩ := h
  have hj : j < key.partattrs.length := by
    rw [key.length_partattrs]
    rw [length_cons] at hlen
    have : key.partnatts = key.partsupfunc.length := rfl
    omega
  have hget : key.partattrs.getD j 0 = key.partattrs.get ⟨j, hj⟩ := by
    rw [getD_eq_getElem?_getD, getElem?_eq_getElem hj]
    rfl
  have hdrop : key.partattrs.drop j = key.partattrs.get ⟨j, hj⟩ :: key.partattrs.drop (j + 1) :=
    drop_eq_getElem_cons hj
  have hlen' : j + 1 + cols.length = key.partnatts := by
    rw [length_cons] at hlen
    omega
  rw [hdrop] at hcols hcount
  unfold keyColumn
  unfold columns at hcols
  rw [hget]
  by_cases hzero : key.partattrs.get ⟨j, hj⟩ ≠ 0
  · rw [if_pos hzero] at hcols ⊢
    rw [count_cons_of_ne hzero] at hcount
    cases hcols
    exact ⟨item, rfl, rfl, hcount, hlen'⟩
  · rw [if_neg hzero] at hcols ⊢
    rw [not_not.1 hzero, count_cons_self] at hcount
    cases item with
    | nil => cases hcols
    | cons e item =>
      cases hcols
      exact ⟨item, rfl, rfl, by simpa using hcount, hlen'⟩

theorem nullTestsLoop_eq {j : Nat} {item : List E} {cols : List (KeyCol E)}
    (h : Remaining key j item cols) (result : List (Qual D E)) :
    nullTestsLoop key cols.length j item result =
      .ok (result ++ cols.map fun c => .atom (.isNotNull c)) := by
  induction cols generalizing j item result with
  | nil => rw [map_nil, append_nil]; rfl
  | cons c cols ih =>
    obtain ⟨item', hcol, hnext⟩ := h.next
    rw [length_cons, nullTestsLoop, hcol]
    refine (ih hnext _).trans ?_
    rw [append_assoc]
    rfl

theorem formPartitionKeyDatumLoop_eq (row : Row D E) {j : Nat} {item : List E}
    {cols : List (KeyCol E)} (h : Remaining key j item cols) (values : List (Option D)) :
    formPartitionKeyDatumLoop key row cols.length j item values =
      .ok (values ++ cols.map row.value) := by
  induction cols generalizing j item values with
  | nil =>
    -- no column is left, so no expression is
    have hlen : key.partattrs.length ≤ j := by
      have hlen := h.length
      rw [length_nil, add_zero] at hlen
      rw [key.length_partattrs, hlen]
      exact Nat.le_refl _
    have hcount := h.count
    rw [drop_eq_nil_of_le hlen, count_nil, length_eq_zero_iff] at hcount
    rw [hcount, map_nil, append_nil]
    rfl
  | cons c cols ih =>
    obtain ⟨item', hcol, hnext⟩ := h.next
    rw [length_cons, formPartitionKeyDatumLoop, hcol]
    refine (ih hnext _).trans ?_
    rw [append_assoc]
    rfl

theorem formPartitionKeyDatum_eq (row : Row D E) :
    formPartitionKeyDatum key row = .ok ((columns key.partattrs key.partexprs).map row.value) := by
  have hlen := (Remaining.start key).length
  rw [zero_add] at hlen
  have h := formPartitionKeyDatumLoop_eq row (Remaining.start key) []
  rwa [hlen, nil_append] at h

end

/-! ## The arms of an OR -/

variable {i : Nat}

section
variable {D E : Type} {key : RangePartitionKey D E}

/-- The arms for the bound `ds` from column `j` on. -/
def arms (strategy : List (PartitionRangeDatum D) → BTStrategy) :
    (j : Nat) → List (KeyCol E) → List (PartitionRangeDatum D) → List (List (QualAtom D E))
  | j, c :: cols, .value d :: ds =>
    [.op j (strategy ds) c d] :: if nextKindIs 0 ds then
      (arms strategy (j + 1) cols ds).map (.op j .equal c d :: ·) else []
  | _, _, _ => []

/-- Not strict in the last column and before MINVALUE. -/
def lastLower (rest : List (PartitionRangeDatum D)) : BTStrategy :=
  if rest = [] ∨ nextKindIs (-1) rest = true then .greaterEqual else .greater

/-- Not strict before MAXVALUE. -/
def lastUpper (rest : List (PartitionRangeDatum D)) : BTStrategy :=
  if nextKindIs 1 rest = true then .lessEqual else .less

variable {strategy : List (PartitionRangeDatum D) → BTStrategy} {j r : Nat} {c : KeyCol E}
  {cols : List (KeyCol E)} {d : PartitionRangeDatum D}
  {ds : List (PartitionRangeDatum D)} {need : Bool}

theorem arms_value {v : D} :
    arms strategy j (c :: cols) (.value v :: ds) = [.op j (strategy ds) c v] ::
    if nextKindIs 0 ds then (arms strategy (j + 1) cols ds).map (.op j .equal c v :: ·) else [] :=
  rfl

theorem arms_of_const_eq_none (h : d.const = none) : arms strategy j cols (d :: ds) = [] := by
  cases d with
  | value v => cases h
  | minvalue => cases cols <;> rfl
  | maxvalue => cases cols <;> rfl

theorem exists_value_of_nextKindIs (h : nextKindIs 0 ds = true) :
    ∃ v rest, ds = .value v :: rest := by
  match ds with
  | [] => cases h
  | .minvalue :: _ => cases h
  | .maxvalue :: _ => cases h
  | .value v :: rest => exact ⟨v, rest, rfl⟩

variable (strategy j) in
theorem arms_ne_nil (hlen : ds.length = cols.length) (h : nextKindIs 0 ds = true) :
    arms strategy j cols ds ≠ [] := by
  obtain ⟨v, rest, rfl⟩ := exists_value_of_nextKindIs h
  obtain ⟨c, cols, rfl⟩ := exists_cons_of_length_eq_add_one hlen.symm
  simp [arms_value]

theorem length_arms_le : (arms strategy j cols ds).length ≤ cols.length := by
  induction cols generalizing j ds with
  | nil => exact Nat.le_refl 0
  | cons c cols ih =>
    cases ds with
    | nil => exact Nat.zero_le _
    | cons d ds =>
      cases hd : d.const with
      | none => rw [arms_of_const_eq_none hd]; exact Nat.zero_le _
      | some v =>
        cases d with
        | value v' =>
          rw [arms_value, length_cons, length_cons]
          split
          · rw [length_map]
            exact Nat.succ_le_succ ih
          · exact Nat.succ_le_succ (Nat.zero_le _)
        | minvalue => cases hd
        | maxvalue => cases hd

/-- The arguments of arm `r`, if the arm is needed. -/
def armAt (need : Bool) (arms : List (List (QualAtom D E))) (r : Nat) : List (Qual D E) :=
  if need then (arms.getD r []).map .atom else []

variable (strategy j c d need) in
/-- The last column of an arm. -/
theorem armArgs_last (hlen : ds.length = cols.length) (args : List (Qual D E)) :
    armArgs need d.const j (strategy ds) c args =
      args ++ armAt need (arms strategy j (c :: cols) (d :: ds)) 0 ∧
    (need && (d.const.isSome && nextKindIs 0 ds)) =
      (need && decide (1 < (arms strategy j (c :: cols) (d :: ds)).length)) := by
  cases need with
  | false => simp [armArgs, armAt]
  | true =>
    cases d with
    | minvalue => simp [armArgs, armAt, arms, const]
    | maxvalue => simp [armArgs, armAt, arms, const]
    | value v =>
      refine ⟨by simp [armArgs, armAt, arms_value, const], ?_⟩
      rw [arms_value]
      cases hnext : nextKindIs 0 ds with
      | false => simp [const]
      | true =>
        have hpos := length_pos_of_ne_nil (arms_ne_nil strategy (j + 1) hlen hnext)
        simpa [const] using hpos

/-- A column before the last one of an arm. -/
theorem armArgs_equal (hneed : need = true → r + 1 < (arms strategy j (c :: cols) (d :: ds)).length)
    (args : List (Qual D E)) :
    (need = true → r < (arms strategy (j + 1) cols ds).length) ∧
    armArgs need d.const j .equal c args ++ armAt need (arms strategy (j + 1) cols ds) r =
      args ++ armAt need (arms strategy j (c :: cols) (d :: ds)) (r + 1) ∧
    (need && decide (r + 1 < (arms strategy (j + 1) cols ds).length)) =
      (need && decide (r + 1 + 1 < (arms strategy j (c :: cols) (d :: ds)).length)) := by
  cases need with
  | false => simp [armArgs, armAt]
  | true =>
    have hlt := hneed rfl
    cases d with
    | minvalue => cases hlt
    | maxvalue => cases hlt
    | value v =>
      rw [arms_value] at hlt ⊢
      cases hnext : nextKindIs 0 ds with
      | false =>
        rw [hnext] at hlt
        simp at hlt
      | true =>
        rw [hnext] at hlt
        have hlt' : r < (arms strategy (j + 1) cols ds).length := by simpa using hlt
        refine ⟨fun _ => hlt', ?_, by simp⟩
        simp [armArgs, armAt, const, getElem?_eq_getElem hlt']

theorem lowerStrategy_equal : lowerStrategy key i (j - i + (r + 1)) j ds = .equal := by
  rw [lowerStrategy, if_pos (by omega)]

theorem upperStrategy_equal : upperStrategy i (j - i + (r + 1)) j ds = .equal := by
  rw [upperStrategy, if_pos (by omega)]

theorem lowerStrategy_last (hlen : j + (ds.length + 1) = key.partnatts) :
    lowerStrategy key i (j - i) j ds = lastLower ds := by
  have hlast : j = key.partnatts - 1 ↔ ds = [] := by
    rw [← length_eq_zero_iff]
    omega
  rw [lowerStrategy, lastLower, if_neg (lt_irrefl _)]
  simp only [hlast]

theorem upperStrategy_last : upperStrategy i (j - i) j ds = lastUpper ds := by
  rw [upperStrategy, lastUpper, if_neg (lt_irrefl _)]

end

section
variable {D E : Type} {key : RangePartitionKey D E}

/-- The loop over the columns of an arm; `r` is the number of columns before the last one that are
left. -/
theorem orArmLoop_eq {r : Nat} {needL needU : Bool} {j : Nat} {item : List E}
    {cols : List (KeyCol E)} {ls us : List (PartitionRangeDatum D)} (h : Remaining key j item cols)
    (hij : i ≤ j) (hls : ls.length = cols.length) (hus : us.length = cols.length)
    (hr : r < cols.length) (hl : needL = true → r = 0 ∨ r < (arms lastLower j cols ls).length)
    (hu : needU = true → r = 0 ∨ r < (arms lastUpper j cols us).length) (la ua : List (Qual D E)) :
    orArmLoop key i (j - i + r) needL needU j ls us item la ua =
      .ok ⟨la ++ armAt needL (arms lastLower j cols ls) r,
        ua ++ armAt needU (arms lastUpper j cols us) r,
        needL && decide (r + 1 < (arms lastLower j cols ls).length),
        needU && decide (r + 1 < (arms lastUpper j cols us).length)⟩ := by
  induction r generalizing j item cols ls us la ua with
  | zero =>
    obtain ⟨c, cols, rfl⟩ := exists_cons_of_length_pos hr
    obtain ⟨l, ls, rfl⟩ := exists_cons_of_length_eq_add_one hls
    obtain ⟨u, us, rfl⟩ := exists_cons_of_length_eq_add_one hus
    obtain ⟨item', hcol, -⟩ := h.next
    have hlen := h.length
    simp only [length_cons, add_right_cancel_iff] at hls hus hlen
    obtain ⟨hla, hneedL⟩ := armArgs_last lastLower j c l needL hls la
    obtain ⟨hua, hneedU⟩ := armArgs_last lastUpper j c u needU hus ua
    rw [orArmLoop, getRangeKeyProperties, hcol, add_zero]
    show (if j + 1 - i > j - i then _ else _) = _
    rw [if_pos (by omega)]
    dsimp only
    rw [lowerStrategy_last (by omega), upperStrategy_last, hla, hua, hneedL, hneedU]
  | succ r ih =>
    obtain ⟨c, cols, rfl⟩ := exists_cons_of_length_pos (Nat.zero_lt_of_lt hr)
    obtain ⟨l, ls, rfl⟩ := exists_cons_of_length_eq_add_one hls
    obtain ⟨u, us, rfl⟩ := exists_cons_of_length_eq_add_one hus
    obtain ⟨item', hcol, hnext⟩ := h.next
    obtain ⟨hl', hla, hneedL⟩ :=
      armArgs_equal (fun h => (hl h).resolve_left (Nat.succ_ne_zero r)) la
    obtain ⟨hu', hua, hneedU⟩ :=
      armArgs_equal (fun h => (hu h).resolve_left (Nat.succ_ne_zero r)) ua
    rw [orArmLoop, getRangeKeyProperties, hcol]
    show (if j + 1 - i > j - i + (r + 1) then _ else _) = _
    rw [if_neg (by omega), lowerStrategy_equal, upperStrategy_equal, ← hla, ← hua, ← hneedL,
      ← hneedU, show j - i + (r + 1) = j + 1 - i + r by omega]
    exact ih hnext (by omega) (by simpa using hls) (by simpa using hus) (by simpa using hr)
      (fun h => .inr (hl' h)) (fun h => .inr (hu' h)) _ _

/-- One expression for the arguments, without an AND or OR for a single one. -/
def clause (makeBoolExpr : List (Qual D E) → Qual D E) : List (Qual D E) → Qual D E
  | [arg] => arg
  | args => makeBoolExpr args

theorem appendClause_of_ne_nil {makeBoolExpr : List (Qual D E) → Qual D E}
    {result args : List (Qual D E)} (h : args ≠ []) :
    appendClause makeBoolExpr result args = result ++ [clause makeBoolExpr args] := by
  match args with
  | [] => exact absurd rfl h
  | [_] => rfl
  | _ :: _ :: _ => rfl

/-- The expression of an arm. -/
def armClause (arm : List (QualAtom D E)) : Qual D E := clause .and (arm.map .atom)

theorem ne_nil_of_mem_arms {strategy : List (PartitionRangeDatum D) → BTStrategy} {j : Nat}
    {cols : List (KeyCol E)} {ds : List (PartitionRangeDatum D)} {arm : List (QualAtom D E)}
    (h : arm ∈ arms strategy j cols ds) : arm ≠ [] := by
  match cols, ds with
  | c :: cols, .value v :: ds =>
    obtain rfl | h := mem_cons.1 h
    · exact cons_ne_nil _ _
    · split at h
      · obtain ⟨arm', -, rfl⟩ := mem_map.1 h
        exact cons_ne_nil _ _
      · cases h
  | [], _ => cases h
  | _ :: _, [] => cases h
  | _ :: _, .minvalue :: _ => cases h
  | _ :: _, .maxvalue :: _ => cases h

/-- An arm is appended if there is one. -/
theorem appendClause_armAt (as : List (List (QualAtom D E))) (hne : ∀ arm ∈ as, arm ≠ []) (n : Nat)
    (result : List (Qual D E)) :
    appendClause .and result (armAt (decide (n = 0 ∨ n < as.length)) as n) ++
      (as.drop (n + 1)).map armClause =
      result ++ (as.drop n).map armClause := by
  by_cases hlt : n < as.length
  · have harm : armAt (decide (n = 0 ∨ n < as.length)) as n = (as.get ⟨n, hlt⟩).map .atom := by
      simp [armAt, hlt]
    have hmap : ((as.get ⟨n, hlt⟩).map .atom : List (Qual D E)) ≠ [] := by
      simpa using hne _ (get_mem as ⟨n, hlt⟩)
    rw [harm, appendClause_of_ne_nil hmap, drop_eq_getElem_cons hlt, map_cons, append_assoc]
    rfl
  · have harm : armAt (decide (n = 0 ∨ n < as.length)) as n = [] := by
      simp [armAt, getElem?_eq_none (Nat.not_lt.1 hlt)]
    rw [harm, drop_eq_nil_of_le (by omega), drop_eq_nil_of_le (by omega)]
    rfl

theorem need_next (m n : Nat) :
    (decide (n = 0 ∨ n < m) && decide (n + 1 < m)) = decide (n + 1 = 0 ∨ n + 1 < m) := by
  rw [← Bool.decide_and, decide_eq_decide]
  omega

/-- All arms that are left are generated, and then no more. -/
theorem orArmsLoop_eq {item : List E} {cols : List (KeyCol E)}
    {ls us : List (PartitionRangeDatum D)} (h : Remaining key i item cols)
    (hls : ls.length = cols.length) (hus : us.length = cols.length) (count n : Nat)
    (hcount : n + count = cols.length) (la ua : List (Qual D E)) :
    orArmsLoop key i ls us item count n (decide (n = 0 ∨ n < (arms lastLower i cols ls).length))
        (decide (n = 0 ∨ n < (arms lastUpper i cols us).length)) la ua =
      .ok (la ++ ((arms lastLower i cols ls).drop n).map armClause,
        ua ++ ((arms lastUpper i cols us).drop n).map armClause) := by
  induction count generalizing n la ua with
  | zero =>
    have hnone : ∀ {strategy : List (PartitionRangeDatum D) →
        BTStrategy} {ds : List (PartitionRangeDatum D)}, (arms strategy i cols ds).drop n = [] := by
      intro strategy ds
      have hle : (arms strategy i cols ds).length ≤ cols.length := length_arms_le
      exact drop_eq_nil_of_le (by omega)
    rw [orArmsLoop, hnone, hnone, map_nil, append_nil, append_nil]
  | succ count ih =>
    have harm := orArmLoop_eq h (Nat.le_refl i) hls hus (show n < cols.length by omega)
      (fun hneed => of_decide_eq_true hneed) (fun hneed => of_decide_eq_true hneed) [] []
    rw [Nat.sub_self, Nat.zero_add, need_next, need_next] at harm
    rw [orArmsLoop, harm]
    have hlower := appendClause_armAt (arms lastLower i cols ls) (fun _ => ne_nil_of_mem_arms) n la
    have hupper := appendClause_armAt (arms lastUpper i cols us) (fun _ => ne_nil_of_mem_arms) n ua
    rw [← hlower, ← hupper]
    show (if _ then _ else _) = _
    split
    · rename_i hdone
      simp only [decide_eq_false_iff_not, not_or, Nat.not_lt] at hdone
      rw [drop_eq_nil_of_le hdone.1.2, drop_eq_nil_of_le hdone.2.2, map_nil, append_nil, append_nil]
      rfl
    · exact ih (n + 1) (by omega) _ _

end

/-! ## What the arms say -/

section
variable {D E : Type} {key : RangePartitionKey D E} {row : Row D E}

/-- The comparison with a bound of which no value is left. -/
def endCmp : List (PartitionRangeDatum D) → Ordering
  | .minvalue :: _ => .lt
  | .maxvalue :: _ => .gt
  | _ => .eq

theorem rboundDatumCmpLoop_value (cmp : D → D → Ordering) (cmps : List (D → D → Ordering)) (d v : D)
    (ds : List (PartitionRangeDatum D)) (vs : List D) :
    rboundDatumCmpLoop (cmp :: cmps) (.value d :: ds) (v :: vs) =
      (cmp d v).then (rboundDatumCmpLoop cmps ds vs) := by
  rw [rboundDatumCmpLoop]
  cases cmp d v <;> rfl

variable {cmps : List (D → D → Ordering)}

variable {vs : List D}

theorem rboundDatumCmpLoop_end {ds : List (PartitionRangeDatum D)}
    (hds : ds.length = cmps.length) (hvs : vs.length = cmps.length) (h : nextKindIs 0 ds = false) :
    rboundDatumCmpLoop cmps ds vs = endCmp ds := by
  match ds, cmps, vs with
  | [], [], _ => rfl
  | .minvalue :: _, _ :: _, _ :: _ => rfl
  | .maxvalue :: _, _ :: _, _ :: _ => rfl
  | .value _ :: _, _, _ => cases h

/-- The strategies make a comparison with the bound that holds if its outcome is in `P`. -/
structure Side (P : Ordering → Prop)
    (strategy : List (PartitionRangeDatum D) → BTStrategy) : Prop where
  last : ∀ (o : Ordering) (ds : List (PartitionRangeDatum D)), nextKindIs 0 ds = false →
    ((strategy ds).test o.swap = true ↔ P (o.then (endCmp ds)))
  more : ∀ (o r : Ordering) (ds : List (PartitionRangeDatum D)), nextKindIs 0 ds = true →
    ((strategy ds).test o.swap = true ∨ o = .eq ∧ P r ↔ P (o.then r))

theorem Side.lower : Side (D := D) (fun o => o.isLE = true) lastLower where
  last o ds h := by
    match ds with
    | [] =>
      show BTStrategy.greaterEqual.test o.swap = true ↔ (o.then .eq).isLE = true
      cases o <;> decide
    | .minvalue :: _ =>
      show BTStrategy.greaterEqual.test o.swap = true ↔ (o.then .lt).isLE = true
      cases o <;> decide
    | .maxvalue :: _ =>
      show BTStrategy.greater.test o.swap = true ↔ (o.then .gt).isLE = true
      cases o <;> decide
    | .value _ :: _ => cases h
  more o r ds h := by
    obtain ⟨v, rest, rfl⟩ := exists_value_of_nextKindIs h
    show BTStrategy.greater.test o.swap = true ∨ o = .eq ∧ r.isLE = true ↔ (o.then r).isLE = true
    cases o <;> cases r <;> decide

theorem Side.upper : Side (D := D) (fun o => o = .gt) lastUpper where
  last o ds h := by
    match ds with
    | [] =>
      show BTStrategy.less.test o.swap = true ↔ o.then .eq = .gt
      cases o <;> decide
    | .minvalue :: _ =>
      show BTStrategy.less.test o.swap = true ↔ o.then .lt = .gt
      cases o <;> decide
    | .maxvalue :: _ =>
      show BTStrategy.lessEqual.test o.swap = true ↔ o.then .gt = .gt
      cases o <;> decide
    | .value _ :: _ => cases h
  more o r ds h := by
    obtain ⟨v, rest, rfl⟩ := exists_value_of_nextKindIs h
    show BTStrategy.less.test o.swap = true ∨ o = .eq ∧ r = .gt ↔ o.then r = .gt
    cases o <;> cases r <;> decide

variable {cmp : D → D → Ordering}

theorem cmpAt_of_drop {j : Nat}
    (h : key.partsupfunc.drop j = cmp :: cmps) :
    key.cmpAt j = cmp ∧ TransCmp cmp ∧ key.partsupfunc.drop (j + 1) = cmps := by
  have hget : key.partsupfunc[j]? = some cmp := by
    rw [← head?_drop, h]
    rfl
  refine ⟨?_, key.lawful cmp (mem_of_getElem? hget), ?_⟩
  · rw [RangePartitionKey.cmpAt, getD_eq_getElem?_getD, hget]
    rfl
  · rw [← tail_drop, h]
    rfl

/-- A comparison with a constant, for a key that is not null. -/
theorem atomValue_op {j : Nat} (hcmp : key.partsupfunc.drop j = cmp :: cmps) {c : KeyCol E} {v : D}
    (hv : row.value c = some v) (strategy : BTStrategy) (d : D) :
    row.atomValue key (.op j strategy c d) = some true ↔ strategy.test (cmp d v).swap = true := by
  obtain ⟨hat, hlawful, -⟩ := cmpAt_of_drop hcmp
  have hswap : cmp v d = (cmp d v).swap := OrientedCmp.eq_swap
  rw [Row.atomValue, hv, Option.map_some, hat, hswap, Option.some.injEq]

theorem equal_test_swap {o : Ordering} : BTStrategy.equal.test o.swap = true ↔ o = .eq := by
  cases o <;> decide

/-- The arms compare the row with the bound, column by column. -/
theorem Side.arms_iff {P : Ordering → Prop} {strategy : List (PartitionRangeDatum D) → BTStrategy}
    (h : Side P strategy) {j : Nat} {cols : List (KeyCol E)} {ds : List (PartitionRangeDatum D)}
    (hcmps : key.partsupfunc.drop j = cmps) (hcols : cols.length = cmps.length)
    (hds : ds.length = cmps.length) (hvs : cols.map row.value = vs.map some)
    (hvalue : nextKindIs 0 ds = true) :
    (∃ arm ∈ arms strategy j cols ds, ∀ a ∈ arm, row.atomValue key a = some true) ↔
    P (rboundDatumCmpLoop cmps ds vs) := by
  induction cols generalizing j cmps ds vs with
  | nil =>
    obtain ⟨v, rest, rfl⟩ := exists_value_of_nextKindIs hvalue
    rw [← hcols] at hds
    cases hds
  | cons c cols ih =>
    obtain ⟨d, ds, rfl⟩ := exists_value_of_nextKindIs hvalue
    obtain ⟨cmp, cmps, rfl⟩ := exists_cons_of_length_eq_add_one hcols.symm
    obtain ⟨v, vs, rfl⟩ : ∃ v vs', vs = v :: vs' := by
      cases vs with
      | nil => cases hvs
      | cons v vs => exact ⟨v, vs, rfl⟩
    simp only [map_cons, cons.injEq, length_cons, add_right_cancel_iff] at hvs hcols hds
    obtain ⟨hv, hvs⟩ := hvs
    have hop := atomValue_op hcmps hv
    have hlen : vs.length = cmps.length := by
      rw [← hcols, ← length_map (f := some), ← hvs, length_map]
    rw [arms_value, rboundDatumCmpLoop_value]
    cases hnext : nextKindIs 0 ds with
    | false =>
      rw [rboundDatumCmpLoop_end hds hlen hnext, ← h.last _ _ hnext]
      simp [hop]
    | true =>
      rw [← h.more _ _ _ hnext, ← ih (cmpAt_of_drop hcmps).2.2 hcols hds hvs hnext]
      simp [hop, equal_test_swap, and_left_comm]

theorem holds_atom {a : QualAtom D E} :
    Holds (row.atomValue key) (.atom a) ↔ row.atomValue key a = some true := Iff.rfl

theorem holds_clause_and {args : List (Qual D E)} :
    Holds (row.atomValue key) (clause .and args) ↔ ∀ e ∈ args, Holds (row.atomValue key) e := by
  match args with
  | [] => exact accepts_and _ designated_true
  | [arg] => simp [clause]
  | _ :: _ :: _ => exact accepts_and _ designated_true

theorem holds_clause_or {args : List (Qual D E)} :
    Holds (row.atomValue key) (clause .or args) ↔ ∃ e ∈ args, Holds (row.atomValue key) e := by
  match args with
  | [] => exact accepts_or _ designated_true
  | [arg] => simp [clause]
  | _ :: _ :: _ => exact accepts_or _ designated_true

/-- The expression added for a bound. -/
theorem holds_appendClause_or {as : List (List (QualAtom D E))} {result : List (Qual D E)} :
    (∀ q ∈ appendClause .or result (as.map armClause), Holds (row.atomValue key) q) ↔
    (∀ q ∈ result, Holds (row.atomValue key) q) ∧
        (as = [] ∨ ∃ arm ∈ as, ∀ a ∈ arm, row.atomValue key a = some true) := by
  by_cases hne : as = []
  · subst hne
    simp [appendClause]
  · have hne' : as.map armClause ≠ ([] : List (Qual D E)) := by simpa using hne
    rw [appendClause_of_ne_nil hne', forall_mem_append, forall_mem_singleton, holds_clause_or,
      or_iff_right hne]
    simp [armClause, holds_clause_and, holds_atom]

/-- The row lies between the bounds, as far as the columns go. -/
def Within (cmps : List (D → D → Ordering)) (ls us : List (PartitionRangeDatum D))
    (vs : List D) : Prop :=
  (rboundDatumCmpLoop cmps ls vs).isLE = true ∧ rboundDatumCmpLoop cmps us vs = .gt

/-- What is known where the ORs start. -/
structure StartsAt (key : RangePartitionKey D E) (start : OrStart D E)
    (cols : List (KeyCol E)) : Prop where
  remaining : Remaining key start.i start.partexprsItemSaved cols
  lower : start.lowerDatums.length = cols.length
  upper : start.upperDatums.length = cols.length
  lowerKind : nextKindIs 1 start.lowerDatums = false
  upperKind : nextKindIs (-1) start.upperDatums = false
  ne_nil : cols ≠ []

theorem Remaining.length_drop {j : Nat} {item : List E} {cols : List (KeyCol E)}
    (h : Remaining key j item cols) :
    cols.length = (key.partsupfunc.drop j).length := by
  have hlen := h.length
  have : key.partnatts = key.partsupfunc.length := rfl
  rw [List.length_drop]
  omega

/-- The OR for a bound, or its absence where the first column is unbounded. -/
theorem Side.bound_iff {P : Ordering → Prop} {strategy : List (PartitionRangeDatum D) → BTStrategy}
    (h : Side P strategy) {j : Nat} {item : List E} {cols : List (KeyCol E)}
    (hrem : Remaining key j item cols) (hne : cols ≠ []) {ds : List (PartitionRangeDatum D)}
    (hds : ds.length = cols.length) (hend : nextKindIs 0 ds = false → P (endCmp ds))
    (hvs : cols.map row.value = vs.map some) :
    (arms strategy j cols ds = [] ∨
      ∃ arm ∈ arms strategy j cols ds, ∀ a ∈ arm, row.atomValue key a = some true) ↔
      P (rboundDatumCmpLoop (key.partsupfunc.drop j) ds vs) := by
  have hcols := hrem.length_drop
  cases hvalue : nextKindIs 0 ds with
  | true =>
    rw [or_iff_right (arms_ne_nil strategy j hds hvalue)]
    exact h.arms_iff rfl hcols (hds.trans hcols) hvs hvalue
  | false =>
    have hlen : vs.length = cols.length := by
      rw [← length_map (f := some), ← hvs, length_map]
    have harms : arms strategy j cols ds = [] := by
      match ds with
      | [] => exact absurd (length_eq_zero_iff.1 hds.symm) hne
      | .minvalue :: _ => exact arms_of_const_eq_none rfl
      | .maxvalue :: _ => exact arms_of_const_eq_none rfl
      | .value _ :: _ => cases hvalue
    rw [rboundDatumCmpLoop_end (hds.trans hcols) (hlen.trans hcols) hvalue]
    exact iff_of_true (.inl harms) (hend hvalue)

variable {start : OrStart D E}

/-- Two ORs for the columns from the first one in which the bounds differ. -/
theorem StartsAt.within {cols : List (KeyCol E)} (h : StartsAt key start cols)
    (hvs : cols.map row.value = vs.map some) :
    (arms lastLower start.i cols start.lowerDatums = [] ∨
        ∃ arm ∈ arms lastLower start.i cols start.lowerDatums, ∀ a ∈ arm,
          row.atomValue key a = some true) ∧
      (arms lastUpper start.i cols start.upperDatums = [] ∨
        ∃ arm ∈ arms lastUpper start.i cols start.upperDatums, ∀ a ∈ arm,
          row.atomValue key a = some true) ↔
    Within (key.partsupfunc.drop start.i) start.lowerDatums start.upperDatums vs := by
  refine and_congr (Side.lower.bound_iff h.remaining h.ne_nil h.lower (fun hend => ?_) hvs)
    (Side.upper.bound_iff h.remaining h.ne_nil h.upper (fun hend => ?_) hvs)
  · have hkind := h.lowerKind
    match hds : start.lowerDatums with
    | [] => rfl
    | .minvalue :: _ => rfl
    | .maxvalue :: _ => rw [hds] at hkind; cases hkind
    | .value _ :: _ => rfl
  · have hkind := h.upperKind
    match hds : start.upperDatums with
    | [] =>
      have hlen := h.upper
      rw [hds] at hlen
      exact absurd (length_eq_zero_iff.1 hlen.symm) h.ne_nil
    | .minvalue :: _ => rw [hds] at hkind; cases hkind
    | .maxvalue :: _ => rfl
    | .value _ :: _ => rw [hds] at hend; cases hend

/-! ## The columns in which the bounds agree -/

theorem map_eq_map_some {f : KeyCol E → Option D} {c : KeyCol E} {cols : List (KeyCol E)}
    (h : (c :: cols).map f = vs.map some) :
    ∃ v vs', vs = v :: vs' ∧ f c = some v ∧ cols.map f = vs'.map some := by
  cases vs with
  | nil => cases h
  | cons v vs => exact ⟨v, vs, rfl, (cons.inj h).1, (cons.inj h).2⟩

/-- A column with one value in both bounds asks for that value. -/
theorem within_equal [TransCmp cmp] {l u v : D} {ls us : List (PartitionRangeDatum D)}
    (h : cmp l u = .eq) :
    Within (cmp :: cmps) (.value l :: ls) (.value u :: us) (v :: vs) ↔ cmp l v = .eq ∧
    Within cmps ls us vs := by
  have hcongr : cmp u v = cmp l v := (TransCmp.congr_left h).symm
  rw [Within, Within, rboundDatumCmpLoop_value, rboundDatumCmpLoop_value, hcongr]
  cases cmp l v <;> simp

/-- Conditions for the columns before, and what is left of the bounds, say the same as the
bounds. -/
def SplitsAt (key : RangePartitionKey D E) (i : Nat) (cols : List (KeyCol E))
    (ls us : List (PartitionRangeDatum D)) (result : List (Qual D E))
    (start : OrStart D E) : Prop :=
  ∃ cols' eqs, start.result = result ++ eqs ∧ StartsAt key start cols' ∧
    ∀ (row : Row D E) (vs : List D), cols.map row.value = vs.map some →
      ∃ vs', cols'.map row.value = vs'.map some ∧
        ((∀ q ∈ eqs, Holds (row.atomValue key) q) ∧
            Within (key.partsupfunc.drop start.i) start.lowerDatums start.upperDatums vs' ↔
          Within (key.partsupfunc.drop i) ls us vs)

theorem StartsAt.splitsAt {cols : List (KeyCol E)} (h : StartsAt key start cols) :
    SplitsAt key start.i cols start.lowerDatums start.upperDatums start.result start :=
  ⟨cols, [], (append_nil _).symm, h, fun _ vs hvs => ⟨vs, hvs, by simp⟩⟩

theorem SplitsAt.cons {item : List E} {c : KeyCol E} {cols : List (KeyCol E)}
    {ls us : List (PartitionRangeDatum D)} {l u : D} {result : List (Qual D E)}
    (hrem : Remaining key i item (c :: cols)) (heq : key.cmpAt i l u = .eq)
    (h : SplitsAt key (i + 1) cols ls us (result ++ [.atom (.op i .equal c l)]) start) :
    SplitsAt key i (c :: cols) (.value l :: ls) (.value u :: us) result start := by
  obtain ⟨cols', eqs, hresult, hstart, hsplit⟩ := h
  obtain ⟨cmp, cmps, hcmps⟩ : ∃ cmp cmps, key.partsupfunc.drop i = cmp :: cmps :=
    exists_cons_of_length_eq_add_one hrem.length_drop.symm
  obtain ⟨hat, hlawful, hdrop⟩ := cmpAt_of_drop hcmps
  refine ⟨cols', .atom (.op i .equal c l) :: eqs, by rw [hresult, append_assoc]; rfl, hstart,
    fun row vs hvs => ?_⟩
  obtain ⟨v, vs, rfl, hv, hvs⟩ := map_eq_map_some hvs
  obtain ⟨vs', hvs', hiff⟩ := hsplit row vs hvs
  rw [hat] at heq
  refine ⟨vs', hvs', ?_⟩
  rw [hcmps, within_equal heq, ← hdrop, ← hiff, forall_mem_cons, holds_atom, atomValue_op hcmps hv,
    equal_test_swap, and_assoc]

theorem PartitionRangeDatum.kind_bounds (d : PartitionRangeDatum D) : -1 ≤ d.kind ∧ d.kind ≤ 1 := by
  cases d <;> simp [kind]

theorem nextKindIs_cons_of_ne {kind : Int} {d : PartitionRangeDatum D}
    {ds : List (PartitionRangeDatum D)} (h : d.kind ≠ kind) :
    nextKindIs kind (d :: ds) = false := beq_eq_false_iff_ne.2 h

/-- The loop finds the first column in which the bounds differ. -/
theorem equalLoop_spec {item : List E} {cols : List (KeyCol E)}
    {ls us : List (PartitionRangeDatum D)} (h : Remaining key i item cols)
    (hls : ls.length = cols.length) (hus : us.length = cols.length)
    (hlt : datumsCmpLoop (key.partsupfunc.drop i) ls us = .lt) (saved : List E)
    (result : List (Qual D E)) :
    ∃ start, equalLoop key i ls us item saved result = .ok start ∧
      SplitsAt key i cols ls us result start := by
  induction cols generalizing i item ls us saved result with
  | nil =>
    rw [length_eq_zero_iff.1 hls] at hlt
    cases hcmps : key.partsupfunc.drop i <;> rw [hcmps] at hlt <;> cases hlt
  | cons c cols ih =>
    obtain ⟨l, ls, rfl⟩ := exists_cons_of_length_eq_add_one hls
    obtain ⟨u, us, rfl⟩ := exists_cons_of_length_eq_add_one hus
    obtain ⟨cmp, cmps, hcmps⟩ : ∃ cmp cmps, key.partsupfunc.drop i = cmp :: cmps :=
      exists_cons_of_length_eq_add_one h.length_drop.symm
    obtain ⟨hat, -, hdrop⟩ := cmpAt_of_drop hcmps
    obtain ⟨item', hcol, hnext⟩ := h.next
    rw [equalLoop, getRangeKeyProperties, hcol]
    -- the ORs start at this column unless it has one value in both bounds
    have hstop : l.kind ≠ 1 → u.kind ≠ -1 →
        SplitsAt key i (c :: cols) (l :: ls) (u :: us) result ⟨i, l :: ls, u :: us,
          item, result⟩ := by
      intro hl hu
      have hstart : StartsAt key ⟨i, l :: ls, u :: us, item, result⟩ (c :: cols) :=
        ⟨h, hls, hus, nextKindIs_cons_of_ne hl, nextKindIs_cons_of_ne hu, cons_ne_nil _ _⟩
      exact hstart.splitsAt
    by_cases hkind : l.kind ≠ 0 ∨ u.kind ≠ 0
    · rw [hcmps, datumsCmpLoop_kind cmp cmps ls us hkind, Int.compare_eq_lt] at hlt
      have hl := l.kind_bounds
      have hu := u.kind_bounds
      refine ⟨⟨i, l :: ls, u :: us, item, result⟩, ?_, hstop (by omega) (by omega)⟩
      cases l <;> cases u <;> first | rfl | simp [kind] at hkind
    · obtain ⟨⟨lv, rfl⟩, uv, rfl⟩ : (∃ v, l = .value v) ∧ ∃ v, u = .value v := by
        simpa only [not_or, not_not, kind_eq_zero_iff] using hkind
      rw [hcmps, datumsCmpLoop_value] at hlt
      show ∃ start, (if BTStrategy.equal.test (key.cmpAt i lv uv) = true then _ else _) = _ ∧ _
      by_cases heq : key.cmpAt i lv uv = .eq
      · rw [if_pos (by rw [heq]; rfl)]
        rw [← hat, heq, Ordering.eq_then, ← hdrop] at hlt
        -- a further column decides, so this is not the last one
        have hne : cols ≠ [] := by
          rintro rfl
          have hnil : ls = [] := by simpa using hls
          rw [hnil] at hlt
          cases hcmps : key.partsupfunc.drop (i + 1) <;> rw [hcmps] at hlt <;> cases hlt
        have hlast : ¬ i = key.partnatts - 1 := by
          have hlen := h.length
          have hpos := length_pos_of_ne_nil hne
          rw [length_cons] at hlen
          omega
        rw [if_neg hlast]
        obtain ⟨start, hstart, hsplit⟩ :=
          ih hnext (by simpa using hls) (by simpa using hus) hlt item
            (result ++ [.atom (.op i .equal c lv)])
        exact ⟨start, hstart, hsplit.cons h heq⟩
      · rw [if_neg (by cases hcmp : key.cmpAt i lv uv <;> first | exact absurd hcmp heq | decide)]
        exact ⟨_, rfl, hstop (by simp [kind]) (by simp [kind])⟩

end

/-! ## The constraint -/

section
variable {D E : Type} {key : RangePartitionKey D E}

/-- The null tests leave the rows with a value in every column. -/
theorem holds_nullTests {row : Row D E} {cols : List (KeyCol E)} :
    (∀ q ∈ cols.map fun c => (.atom (.isNotNull c) : Qual D E), Holds (row.atomValue key) q) ↔
    ∃ vs : List D, cols.map row.value = vs.map some := by
  simp only [forall_mem_map, holds_atom, Row.atomValue, Option.some.injEq]
  obtain ⟨vs, hvs⟩ | hnull := exists_values_or_null (cols.map row.value)
  · refine iff_of_true (fun c hc => ?_) ⟨vs, hvs⟩
    have hmem := hvs ▸ mem_map_of_mem hc
    obtain ⟨v, -, hv⟩ := mem_map.1 hmem
    rw [← hv]
    rfl
  · obtain ⟨c, hc, hcnull⟩ := mem_map.1 hnull
    refine iff_of_false (fun h => ?_) fun ⟨vs, hvs⟩ => ?_
    · have hsome := h c hc
      rw [hcnull] at hsome
      cases hsome
    · rw [hvs] at hnull
      obtain ⟨v, -, hv⟩ := mem_map.1 hnull
      cases hv

theorem holds_nonempty {row : Row D E} {result : List (Qual D E)} :
    (∀ q ∈ if result.isEmpty then [.const (some true)] else result, Holds (row.atomValue key) q) ↔
    ∀ q ∈ result, Holds (row.atomValue key) q := by
  cases result with
  | nil => exact iff_of_true (by simp [Holds, eval]) (by simp)
  | cons q result => exact Iff.rfl

variable (key) in
/-- The list that is built, and what it says of a row. -/
theorem getQualForRange_spec (spec : Interval key.Datums)
    (hlt : LowerBelowUpper key.toPartitionKey spec.lower spec.upper) :
    ∃ quals, getQualForRange key spec = .ok quals ∧
      ∀ row : Row D E, (∀ q ∈ quals, Holds (row.atomValue key) q) ↔
        ∃ vs, (columns key.partattrs key.partexprs).map row.value = vs.map some ∧
          InRange key.toPartitionKey spec vs := by
  have hrem := Remaining.start key
  have hlen := hrem.length
  rw [zero_add] at hlen
  have hnulls := nullTestsLoop_eq hrem ([] : List (Qual D E))
  rw [hlen, nil_append] at hnulls
  obtain ⟨start, hstart, cols', eqs, hresult, hat, hsplit⟩ :=
    equalLoop_spec hrem (spec.lower.2.trans hlen.symm)
    (spec.upper.2.trans hlen.symm) (lowerBelowUpper_iff.1 hlt) key.partexprs
    ((columns key.partattrs key.partexprs).map fun c => .atom (.isNotNull c))
  have hcount : 0 + (key.partnatts - start.i) = cols'.length := by
    have := hat.remaining.length
    omega
  have harms := orArmsLoop_eq hat.remaining hat.lower hat.upper _ 0 hcount [] []
  simp only [true_or, decide_true, drop_zero, nil_append] at harms
  rw [getQualForRange, hnulls]
  simp only [Except.bind, hstart, harms, Except.map]
  refine ⟨_, rfl, fun row => ?_⟩
  rw [holds_nonempty, holds_appendClause_or, holds_appendClause_or, hresult, forall_mem_append,
    holds_nullTests]
  constructor
  · rintro ⟨⟨⟨⟨vs, hvs⟩, heqs⟩, hlower⟩, hupper⟩
    obtain ⟨vs', hvs', hiff⟩ := hsplit row vs hvs
    exact ⟨vs, hvs, hiff.1 ⟨heqs, (hat.within hvs').1 ⟨hlower, hupper⟩⟩⟩
  · rintro ⟨vs, hvs, hrange⟩
    obtain ⟨vs', hvs', hiff⟩ := hsplit row vs hvs
    obtain ⟨heqs, hwithin⟩ := hiff.2 hrange
    obtain ⟨hlower, hupper⟩ := (hat.within hvs').2 hwithin
    exact ⟨⟨⟨⟨vs, hvs⟩, heqs⟩, hlower⟩, hupper⟩

variable (key) in
/-- The constraint of a range partition is TRUE for a row exactly if no key of the row is null and
the routing comparison places the key at or above the lower and below the upper bound. -/
theorem getQualForRange_exact (spec : Interval key.Datums)
    (hlt : LowerBelowUpper key.toPartitionKey spec.lower spec.upper) :
    ∃ quals, getQualForRange key spec = .ok quals ∧ ∀ row : Row D E,
      ∃ values, formPartitionKeyDatum key row = .ok values ∧
        ((∀ q ∈ quals, Holds (row.atomValue key) q) ↔
          ∃ vs, values = vs.map some ∧ InRange key.toPartitionKey spec vs) := by
  obtain ⟨quals, hquals, hiff⟩ := getQualForRange_spec key spec hlt
  exact ⟨quals, hquals, fun row => ⟨_, formPartitionKeyDatum_eq row, hiff row⟩⟩

/-- The second column is an expression. -/
def pairExprKey : RangePartitionKey Nat Unit := { pairKey with
  partattrs := [1, 0]
  partexprs := [()]
  length_partattrs := rfl
  length_partexprs := rfl }

/-- From (6, 3) to (6, MAXVALUE): the first column has one value in both bounds. -/
def oneValueRange : Interval pairExprKey.Datums :=
  ⟨⟨[.value 6, .value 3], rfl⟩, ⟨[.value 6, .maxvalue], rfl⟩⟩

theorem getQualForRange_exact_oneValue :
    ∃ quals, getQualForRange pairExprKey oneValueRange = .ok quals ∧ ∀ row : Row Nat Unit,
      ∃ values, formPartitionKeyDatum pairExprKey row = .ok values ∧
        ((∀ q ∈ quals, Holds (row.atomValue pairExprKey) q) ↔
          ∃ vs, values = vs.map some ∧ InRange pairExprKey.toPartitionKey oneValueRange vs) :=
  getQualForRange_exact pairExprKey oneValueRange (by decide)

/-! ## Creating and detaching partitions -/

section
variable {key : PartitionKey D} {qsort : Qsort} {parts : List (Oid × Interval key.Datums)}

variable (key qsort) in
/-- Partitions are created or attached with a checked bound, and any may be detached.
mirrors src/backend/commands/tablecmds.c:790-800, 13625-13626 -/
inductive Created : List (Oid × Interval key.Datums) → Prop
  | none : Created []
  | create {parts desc oid spec} : Created parts → oid ∉ parts.map (·.1) →
      relationBuildPartitionDesc key qsort (rangeParts key parts) = .ok desc →
    checkNewPartitionBound key desc (.range spec) = .ok () → Created ((oid, spec) :: parts)
  | detach {parts parts'} : Created parts → parts' ⊆ parts → (parts'.map (·.1)).Nodup →
      Created parts'

/-- Stated by pairs, so that any choice of partitions keeps it. -/
structure Apart (parts : List (Oid × Interval key.Datums)) : Prop where
  nodup : (parts.map (·.1)).Nodup
  nonempty : ∀ p ∈ parts, LowerBelowUpper key p.2.lower p.2.upper
  apart : ∀ p ∈ parts, ∀ q ∈ parts, p ≠ q → ¬ RangesMeet key p.2 q.2

theorem Apart.ranges (h : Apart parts) : RangesApart key (parts.map (·.2)) := by
  refine ⟨forall_mem_map.2 h.nonempty, fun {i j I J} hij hI hJ => ?_⟩
  rw [getElem?_map, Option.map_eq_some_iff] at hI hJ
  obtain ⟨p, hp, rfl⟩ := hI
  obtain ⟨q, hq, rfl⟩ := hJ
  refine h.apart p (mem_of_getElem? hp) q (mem_of_getElem? hq) fun heq => hij ?_
  exact (getElem?_inj (List.getElem?_eq_some_iff.1 hp).1 h.nodup.of_map).1
    (hp.trans (heq ▸ hq.symm))

/-- A bound that passes the check is not empty and meets no other range. -/
theorem Created.apart (hstrategy : key.strategy = .range) (h : Created key qsort parts) :
    Apart parts := by
  induction h with
  | none => exact ⟨nodup_nil, by simp, by simp⟩
  | @create parts desc oid spec _ hoid hdesc hcheck ih =>
    have hlt : LowerBelowUpper key spec.lower spec.upper := by
      by_contra hempty
      cases hcheck.symm.trans (checkNewPartitionBound_empty hempty)
    have hfree : ∀ p ∈ parts, ¬ RangesMeet key spec p.2 := by
      by_cases hne : parts = []
      · simp [hne]
      cases hdesc.symm.trans (build_rangeParts hstrategy qsort hne)
      have hlen : (parts.map (·.1)).length = (parts.map (·.2)).length := by simp
      obtain ⟨-, hfree⟩ | ⟨_, _, _, -, -, -, herror⟩ :=
        checkNewPartitionBound_meets qsort ih.ranges hlen hlt
      · exact fun p hp => hfree p.2 (mem_map_of_mem hp)
      · cases hcheck.symm.trans herror
    refine ⟨nodup_cons.2 ⟨hoid, ih.nodup⟩, forall_mem_cons.2 ⟨hlt, ih.nonempty⟩,
      fun p hp q hq hne => ?_⟩
    obtain rfl | hp := mem_cons.1 hp
    · exact hfree q ((mem_cons.1 hq).resolve_left (Ne.symm hne))
    · obtain rfl | hq := mem_cons.1 hq
      · exact fun hmeet => hfree p hp hmeet.symm
      · exact ih.apart p hp q hq hne
  | detach _ hsub hnodup ih =>
    exact ⟨hnodup, fun p hp => ih.nonempty p (hsub hp),
      fun p hp q hq => ih.apart p (hsub hp) q (hsub hq)⟩

/-- A range that is not empty and meets no other passes the check. -/
theorem Created.create_free (hstrategy : key.strategy = .range) (h : Created key qsort parts)
    (hne : parts ≠ []) {oid : Oid} (hoid : oid ∉ parts.map (·.1)) {spec : Interval key.Datums}
    (hlt : LowerBelowUpper key spec.lower spec.upper)
    (hfree : ∀ p ∈ parts, ¬ RangesMeet key spec p.2) :
    Created key qsort ((oid, spec) :: parts) := by
  have hlen : (parts.map (·.1)).length = (parts.map (·.2)).length := by simp
  refine .create h hoid (build_rangeParts hstrategy qsort hne) ?_
  obtain ⟨hok, -⟩ | ⟨_, I, _, hI, -, hmeet, -⟩ :=
    checkNewPartitionBound_meets qsort (h.apart hstrategy).ranges hlen hlt
  · exact hok
  · obtain ⟨p, hp, rfl⟩ := mem_map.1 (mem_of_getElem? hI)
    exact absurd hmeet (hfree p hp)

end

/-- However the partitions came about, a row is routed to the one whose constraint it fulfils. -/
theorem qual_iff_selected {qsort : Qsort} {parts : List (Oid × Interval key.Datums)}
    (hstrategy : key.strategy = .range) (h : Created key.toPartitionKey qsort parts) :
    ∃ desc, relationBuildPartitionDesc key.toPartitionKey qsort
      (rangeParts key.toPartitionKey parts) = .ok desc ∧
      ∀ row : Row D E, ∃ values, formPartitionKeyDatum key row = .ok values ∧
        ∀ part ∈ parts, ∃ quals, getQualForRange key part.2 = .ok quals ∧
          ((∀ q ∈ quals, Holds (row.atomValue key) q) ↔
            selected key.toPartitionKey desc values = some part.1) := by
  have hparts := h.apart hstrategy
  obtain ⟨desc, hdesc, hroutes⟩ := routes_range qsort hstrategy hparts.nodup hparts.ranges
  refine ⟨desc, hdesc, fun row => ⟨_, formPartitionKeyDatum_eq row, fun part hpart => ?_⟩⟩
  obtain ⟨quals, hquals, hiff⟩ := getQualForRange_spec key part.2 (hparts.nonempty part hpart)
  have hlen : ((columns key.partattrs key.partexprs).map row.value).length = key.partnatts := by
    rw [length_map, ← (Remaining.start key).length, zero_add]
  refine ⟨quals, hquals, (hiff row).trans ?_⟩
  exact ((hroutes _ hlen).1 (part.1, .range part.2) (mem_map.2 ⟨part, hpart, rfl⟩)).symm

/-- The ranges below and above it. -/
def belowRange : Interval pairExprKey.Datums :=
  ⟨⟨[.value 1, .minvalue], rfl⟩, ⟨[.value 6, .value 3], rfl⟩⟩

def aboveRange : Interval pairExprKey.Datums :=
  ⟨⟨[.value 6, .maxvalue], rfl⟩, ⟨[.value 9, .value 0], rfl⟩⟩

/-- Three partitions are created and the first range is detached again. -/
theorem qual_iff_selected_detached :
    ∃ desc, relationBuildPartitionDesc pairExprKey.toPartitionKey .mergeSort
        (rangeParts pairExprKey.toPartitionKey [(3, aboveRange), (1, oneValueRange)]) = .ok desc ∧
      ∀ row : Row Nat Unit, ∃ values, formPartitionKeyDatum pairExprKey row = .ok values ∧
        ∀ part ∈ [(3, aboveRange), (1, oneValueRange)],
          ∃ quals, getQualForRange pairExprKey part.2 = .ok quals ∧
            ((∀ q ∈ quals, Holds (row.atomValue pairExprKey) q) ↔
              selected pairExprKey.toPartitionKey desc values = some part.1) := by
  have h1 : Created pairExprKey.toPartitionKey .mergeSort [(1, oneValueRange)] :=
    .create .none not_mem_nil rfl rfl
  have h2 : Created pairExprKey.toPartitionKey .mergeSort [(2, belowRange), (1, oneValueRange)] :=
    h1.create_free rfl (by decide) (by decide) (by decide) (by decide)
  have h3 : Created pairExprKey.toPartitionKey .mergeSort
      [(3, aboveRange), (2, belowRange), (1, oneValueRange)] :=
    h2.create_free rfl (by decide) (by decide) (by decide) (by decide)
  exact qual_iff_selected rfl (h3.detach (by simp) (by decide))

end

end GreenPipeline.L3.Partition
