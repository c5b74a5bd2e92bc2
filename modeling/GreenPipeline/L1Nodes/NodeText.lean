import GreenPipeline.L1Nodes.NodeToken
import Mathlib.Algebra.Order.Ring.Int

/-!
# Node trees as text

`outNode`, `_outList` and `_outValue` (`src/backend/nodes/outfuncs.c`) write lists and
values as text, `nodeRead` (`src/backend/nodes/read.c`) reads it. The reader tells by
the first characters of a token what it is, and by a token `i` or `o` after a left
parenthesis which kind of list. Node structs, in braces, have a writer and a reader
of their own, which are parameters here.

Results:

* `strtol_decimal`, `nodeTokenType_decimal`: numbers are read back.
* `readNumbers_spec`: the loop over the numbers of a list.
* `readNodes_spec`: the loop over the elements of a list.
* `nodeRead_outNode`: every stored tree is read back, and what follows it is left.
* `nodeText_roundTrip`: strings and trees survive writing and reading.
-/
namespace GreenPipeline.L1.NodeText

open GreenPipeline.Core.Escape List Nat

/-! ## Nodes -/

/-- mirrors src/include/nodes/value.h:42-50 -/
inductive Value
  | integer (ival : Int)
  | float (str : Text)
  | string (str : Text)
  | bitString (str : Text)

/-- A pointer to a node. An empty list is the null pointer. -/
inductive Node (S : Type)
  | null
  | value (v : Value)
  | list (elems : List (Node S))
  | intList (elems : List Int)
  | oidList (elems : List Nat)
  | struct (x : S)

variable {S : Type}

/-! ## Writing -/

/-- `%d` and `%ld` -/
def decimal (i : Int) : Text :=
  if i < 0 then '-' :: Nat.toDigits 10 i.natAbs else Nat.toDigits 10 i.natAbs

/-- mirrors outfuncs.c:3215-3253 -/
def outValue : Value → Text
  | .integer ival => decimal ival
  | .float str => str
  | .string str => '"' :: ((if str ≠ [] then outToken (some str) else []) ++ ['"'])
  | .bitString str => str

mutual

/-- mirrors outfuncs.c:3604-3620 and, for lists, 161-196 -/
def outNode (outStruct : S → Text) : Node S → Text
  | .null => ['<', '>']
  | .value v => outValue v
  | .list elems => '(' :: (outElems outStruct elems ++ [')'])
  | .intList elems => '(' :: 'i' :: (elems.flatMap (fun x => ' ' :: decimal x) ++ [')'])
  | .oidList elems => '(' :: 'o' :: (elems.flatMap (fun x => ' ' :: Nat.toDigits 10 x) ++ [')'])
  | .struct x => '{' :: (outStruct x ++ ['}'])

/-- The elements of a list with blanks between them. -/
def outElems (outStruct : S → Text) : List (Node S) → Text
  | [] => []
  | [x] => outNode outStruct x
  | x :: y :: elems => outNode outStruct x ++ ' ' :: outElems outStruct (y :: elems)

end

/-! ## Numbers -/

/-- The number of bits of a `long`. -/
structure LongSize where
  bits : Nat
  ge : 32 ≤ bits

/-- `isspace` in the C locale. -/
def isSpace (c : Char) : Bool := c == ' ' || (9 ≤ c.toNat && c.toNat ≤ 13)

/-- Sign, magnitude and length of the number at the front of a text.  `none`: no digits. -/
def scanNumber (token : Text) : Option (Bool × Nat × Nat) :=
  let str := token.dropWhile isSpace
  let digits := if str.headD nul = '-' ∨ str.headD nul = '+' then str.tail else str
  let run := digits.takeWhile Char.isDigit
  if run = [] then none
  else some (str.headD nul == '-', Nat.ofDigitChars 10 run 0,
    token.length - digits.length + run.length)

/-- What `strtol` returns, where it stops, and whether it sets `ERANGE`. -/
structure Strtol where
  val : Int
  stop : Nat
  erange : Bool

def strtol (long : LongSize) (token : Text) : Strtol :=
  match scanNumber token with
  | none => ⟨0, 0, false⟩
  | some (neg, n, stop) =>
    let val : Int := if neg then -(n : Int) else n
    if 2 ^ (long.bits - 1) ≤ val then ⟨2 ^ (long.bits - 1) - 1, stop, true⟩
    else if val < -2 ^ (long.bits - 1) then ⟨-2 ^ (long.bits - 1), stop, true⟩
    else ⟨val, stop, false⟩

/-- `strtoul` takes a sign as well. -/
def strtoul (long : LongSize) (token : Text) : Nat × Nat :=
  match scanNumber token with
  | none => (0, 0)
  | some (neg, n, stop) =>
    if 2 ^ long.bits ≤ n then (2 ^ long.bits - 1, stop)
    else if neg then ((2 ^ long.bits - n) % 2 ^ long.bits, stop)
    else (n, stop)

/-- The cast to `int32`. -/
def toInt32 (val : Int) : Int := val.bmod (2 ^ 32)

/-! ## Reading -/

inductive TokenType
  | integer
  | float
  | string
  | bitString
  | leftParen
  | rightParen
  | leftBrace
  | other
  deriving DecidableEq

/-- mirrors read.c:209-214 -/
def isNumber (token : Token) : Bool :=
  let signed := token.head == '+' || token.head == '-'
  let numptr := if signed then token.ptr.tail else token.ptr
  let numlen := if signed then token.length - 1 else token.length
  (0 < numlen && (numptr.headD nul).isDigit) ||
    (1 < numlen && numptr.headD nul == '.' && (numptr.tail.headD nul).isDigit)

/-- mirrors read.c:199-255 -/
def nodeTokenType (long : LongSize) (token : Token) : TokenType :=
  if isNumber token then
    let r := strtol long token.ptr
    if r.stop ≠ token.length ∨ r.erange ∨ r.val ≠ toInt32 r.val then .float else .integer
  else if token.head = '(' then .leftParen
  else if token.head = ')' then .rightParen
  else if token.head = '{' then .leftBrace
  else if token.head = '"' ∧ 1 < token.length ∧ token.ptr.getD (token.length - 1) nul = '"' then
    .string
  else if token.head = 'b' then .bitString
  else .other

inductive ReadError
  /-- "did not find '}' at end of input node" -/
  | missingRightBrace
  /-- "unterminated List structure" -/
  | unterminatedList
  /-- "unrecognized integer: \"%.*s\"" -/
  | unrecognizedInteger (token : Text)
  /-- "unrecognized OID: \"%.*s\"" -/
  | unrecognizedOid (token : Text)
  /-- "unexpected right parenthesis" -/
  | unexpectedRightParen
  /-- "unrecognized token: \"%.*s\"" -/
  | unrecognizedToken (token : Text)
  /-- the recursion limit of the model, not an error of the code -/
  | outOfFuel

/-- The text of a token. -/
def Token.text (token : Token) : Text := token.ptr.take token.length

/-- The loop over the numbers of an integer or OID list: `conv` gives a number and where it stops.
mirrors read.c:317-333, 337-353 -/
def readNumbers {α : Type} (conv : Text → α × Nat) (err : Text → ReadError) :
    (fuel : Nat) → (ptr : Text) → Except ReadError (List α × Text)
  | 0, _ => .error .outOfFuel
  | fuel + 1, ptr =>
    match pgStrtok ptr with
    | (none, _) => .error .unterminatedList
    | (some token, ptr) =>
      if token.head = ')' then .ok ([], ptr)
      else if (conv token.ptr).2 ≠ token.length then .error (err token.text)
      else
        match readNumbers conv err fuel ptr with
        | .ok (vals, ptr) => .ok ((conv token.ptr).1 :: vals, ptr)
        | .error e => .error e

/-- `(int) strtol(token, &endptr, 10)` -/
def intOf (long : LongSize) (token : Text) : Int × Nat :=
  (toInt32 (strtol long token).val, (strtol long token).stop)

/-- `(Oid) strtoul(token, &endptr, 10)` -/
def oidOf (long : LongSize) (token : Text) : Nat × Nat :=
  ((strtoul long token).1 % 4294967296, (strtoul long token).2)

/-- A list as a node pointer: `NIL` is null. -/
def ofList {α : Type} (mk : List α → Node S) (l : List α) : Node S :=
  if l.isEmpty then .null else mk l

section
variable (long : LongSize) (parseNodeString : Text → Except ReadError (S × Text))

mutual

/-- Reads the node whose first token was scanned; returns it with the text after it.
mirrors read.c:278-424 -/
def nodeRead : (fuel : Nat) → Token → (ptr : Text) → Except ReadError (Node S × Text)
  | 0, _, _ => .error .outOfFuel
  | fuel + 1, token, ptr =>
    match nodeTokenType long token with
    | .leftBrace =>
      match parseNodeString ptr with
      | .error e => .error e
      | .ok (x, ptr) =>
        match pgStrtok ptr with
        | (some close, ptr) =>
          if close.head = '}' then .ok (.struct x, ptr) else .error .missingRightBrace
        | (none, _) => .error .missingRightBrace
    | .leftParen =>
      match pgStrtok ptr with
      | (none, _) => .error .unterminatedList
      | (some token, ptr) =>
        if token.length = 1 ∧ token.head = 'i' then
          match readNumbers (intOf long) .unrecognizedInteger fuel ptr with
          | .ok (l, ptr) => .ok (ofList .intList l, ptr)
          | .error e => .error e
        else if token.length = 1 ∧ token.head = 'o' then
          match readNumbers (oidOf long) .unrecognizedOid fuel ptr with
          | .ok (l, ptr) => .ok (ofList .oidList l, ptr)
          | .error e => .error e
        else
          match readNodes fuel token ptr with
          | .ok (l, ptr) => .ok (ofList .list l, ptr)
          | .error e => .error e
    | .rightParen => .error .unexpectedRightParen
    | .other =>
      if token.length = 0 then .ok (.null, ptr) else .error (.unrecognizedToken token.text)
    | .integer => .ok (.value (.integer (strtol long token.ptr).val), ptr)
    | .float => .ok (.value (.float token.text), ptr)
    | .string => .ok (.value (.string (debackslash token.ptr.tail (token.length - 2))), ptr)
    | .bitString => .ok (.value (.bitString token.text.tail), ptr)

/-- The loop over the elements of a list whose next token was scanned.
mirrors read.c:357-366 -/
def readNodes : (fuel : Nat) → Token → (ptr : Text) → Except ReadError (List (Node S) × Text)
  | 0, _, _ => .error .outOfFuel
  | fuel + 1, token, ptr =>
    if token.head = ')' then .ok ([], ptr)
    else
      match nodeRead fuel token ptr with
      | .error e => .error e
      | .ok (x, ptr) =>
        match pgStrtok ptr with
        | (none, _) => .error .unterminatedList
        | (some token, ptr) =>
          match readNodes fuel token ptr with
          | .ok (l, ptr) => .ok (x :: l, ptr)
          | .error e => .error e

end

/-- mirrors read.c:37-58, with the `NULL` token of nodeRead, 283-289 -/
def stringToNode (str : Text) : Except ReadError (Node S) :=
  match pgStrtok str with
  | (none, _) => .ok .null
  | (some token, ptr) =>
    match nodeRead long parseNodeString (str.length + 1) token ptr with
    | .ok (x, _) => .ok x
    | .error e => .error e

end

/-! ## Numbers are read back -/

variable {r : Text}

variable {c : Char} {i : Int} {α : Type}

theorem isDigit_toDigits {n : Nat} (h : c ∈ Nat.toDigits 10 n) : c.isDigit = true :=
  isDigit_of_mem_toDigits (by decide) (by decide) h

theorem isDigit_of_delimiter (h : isDelimiter c = true) : c.isDigit = false := by
  by_contra hc
  rw [(digit_plain (Bool.not_eq_false _ ▸ hc)).1] at h
  exact Bool.false_ne_true h

/-- The run of digits ends with the token. -/
theorem takeWhile_toDigits (n : Nat) (hr : Ends isDelimiter r) :
    (Nat.toDigits 10 n ++ r).takeWhile Char.isDigit = Nat.toDigits 10 n := by
  rw [takeWhile_append_of_pos fun c hc => isDigit_toDigits hc]
  obtain rfl | ⟨c, t, rfl, hc⟩ := hr
  · rw [takeWhile_nil, append_nil]
  · rw [takeWhile_cons_of_neg (by simp [isDigit_of_delimiter hc]), append_nil]

/-- A number starts with a digit. -/
theorem toDigits_eq_cons (n : Nat) : ∃ c ds, Nat.toDigits 10 n = c :: ds ∧ c.isDigit = true := by
  obtain ⟨c, ds, hcons⟩ := exists_cons_of_ne_nil (toDigits_ne_nil (n := n) (b := 10))
  exact ⟨c, ds, hcons, isDigit_toDigits (hcons ▸ mem_cons_self)⟩

theorem isSpace_digit (hc : c.isDigit = true) : isSpace c = false := by
  have hlow : 48 ≤ c.toNat := by
    simp only [Char.isDigit, Bool.and_eq_true, decide_eq_true_eq] at hc
    exact UInt32.le_iff_toNat_le.1 hc.1
  simp only [isSpace, Bool.or_eq_false_iff, beq_eq_false_iff_ne, Bool.and_eq_false_iff,
    decide_eq_false_iff_not]
  exact ⟨digit_ne hc rfl, .inr (by omega)⟩

theorem scanNumber_toDigits (n : Nat) (hr : Ends isDelimiter r) :
    scanNumber (Nat.toDigits 10 n ++ r) = some (false, n, (Nat.toDigits 10 n).length) := by
  have hrun := takeWhile_toDigits n hr
  obtain ⟨c, ds, hcons, hc⟩ := toDigits_eq_cons n
  have hstr : (toDigits 10 n ++ r).dropWhile isSpace = toDigits 10 n ++ r := by
    rw [hcons]
    exact dropWhile_cons_of_neg (by simp [isSpace_digit hc])
  have hhead : (toDigits 10 n ++ r).headD nul = c := by
    rw [hcons]
    rfl
  simp only [scanNumber, hstr, hhead]
  rw [if_neg (not_or.2 ⟨digit_ne hc rfl, digit_ne hc rfl⟩), hrun, if_neg toDigits_ne_nil,
    ofDigitChars_ten_toDigits, Nat.sub_self, Nat.zero_add, beq_false_of_ne (digit_ne hc rfl)]

theorem scanNumber_neg (n : Nat) (hr : Ends isDelimiter r) :
    scanNumber ('-' :: (Nat.toDigits 10 n ++ r)) =
      some (true, n, (Nat.toDigits 10 n).length + 1) := by
  have hrun := takeWhile_toDigits n hr
  have hstr : ('-' :: (toDigits 10 n ++ r)).dropWhile isSpace = '-' :: (toDigits 10 n ++ r) := rfl
  simp only [scanNumber, hstr, headD_cons]
  rw [if_pos (Or.inl trivial), tail_cons, hrun, if_neg toDigits_ne_nil,
    ofDigitChars_ten_toDigits, length_cons, Nat.add_sub_cancel_left, Nat.add_comm 1]
  rfl

theorem scanNumber_decimal (i : Int) (hr : Ends isDelimiter r) :
    scanNumber (decimal i ++ r) = some (decide (i < 0), i.natAbs, (decimal i).length) := by
  unfold decimal
  split
  · next hneg =>
    rw [cons_append, scanNumber_neg _ hr, length_cons, decide_eq_true hneg]
  · next hpos => rw [scanNumber_toDigits _ hr, decide_eq_false hpos]

/-- A value that fits an `int32`. -/
def FitsInt32 (i : Int) : Prop := -2147483648 ≤ i ∧ i < 2147483648

theorem toInt32_of_fits (hi : FitsInt32 i) : toInt32 i = i := by
  obtain ⟨hlo, hhi⟩ := hi
  exact Int.bmod_eq_of_le (by omega) (by omega)

theorem strtol_decimal (long : LongSize) (hi : FitsInt32 i) (hr : Ends isDelimiter r) :
    strtol long (decimal i ++ r) = ⟨i, (decimal i).length, false⟩ := by
  obtain ⟨hlo, hhi⟩ := hi
  have hpow : (2147483648 : Int) ≤ 2 ^ (long.bits - 1) := by
    have hnat : 2147483648 ≤ 2 ^ (long.bits - 1) :=
      Nat.pow_le_pow_right (n := 2) (i := 31) (by decide) (by have := long.ge; omega)
    have hcast : ((2 ^ (long.bits - 1) : Nat) : Int) = 2 ^ (long.bits - 1) := Int.natCast_pow 2 _
    omega
  have hval : (if decide (i < 0) = true then -(i.natAbs : Int) else i.natAbs) = i := by
    split
    · next hneg =>
      have := of_decide_eq_true hneg
      omega
    · next hpos =>
      have := of_decide_eq_false (Bool.not_eq_true _ ▸ hpos)
      omega
  simp only [strtol, scanNumber_decimal i hr, hval]
  rw [if_neg (by omega), if_neg (by omega)]

theorem oidOf_toDigits (long : LongSize) {n : Nat} (hn : n < 4294967296) (hr : Ends isDelimiter r) :
    oidOf long (Nat.toDigits 10 n ++ r) = (n, (Nat.toDigits 10 n).length) := by
  have hpow := Nat.pow_le_pow_right (n := 2) (by decide) long.ge
  simp only [oidOf, strtoul, scanNumber_toDigits n hr]
  rw [if_neg (by omega)]
  simp only [Bool.false_eq_true, if_false]
  rw [Nat.mod_eq_of_lt hn]

/-! ## Tokens of numbers -/

theorem tokenText_toDigits (n : Nat) : TokenText isDelimiter '\\' (Nat.toDigits 10 n) :=
  tokenText_of_forall fun _ hc => digit_plain (isDigit_toDigits hc)

theorem pgStrtok_toDigits (n : Nat) (hr : Ends isDelimiter r) :
    pgStrtok (Nat.toDigits 10 n ++ r) =
      (some ⟨Nat.toDigits 10 n ++ r, (Nat.toDigits 10 n).length⟩, r) := by
  refine pgStrtok_token toDigits_ne_nil (tokenText_toDigits n) hr fun heq => ?_
  obtain ⟨c, ds, hcons, hc⟩ := toDigits_eq_cons n
  rw [hcons, cons.injEq] at heq
  exact digit_ne hc rfl heq.1

/-- A sign or a digit comes first, and there is a digit. -/
theorem decimal_eq_cons (i : Int) : ∃ c t, decimal i = c :: t ∧
    ((c = '-' ∧ ∃ d ds, t = d :: ds ∧ d.isDigit = true) ∨ c.isDigit = true) := by
  obtain ⟨c, ds, hcons, hc⟩ := toDigits_eq_cons i.natAbs
  unfold decimal
  split
  · exact ⟨'-', _, rfl, .inl ⟨rfl, c, ds, hcons, hc⟩⟩
  · exact ⟨c, ds, hcons, .inr hc⟩

theorem tokenText_decimal (i : Int) : TokenText isDelimiter '\\' (decimal i) := by
  unfold decimal
  split
  · exact .plain '-' _ rfl (by decide) (tokenText_toDigits _)
  · exact tokenText_toDigits _

/-- The first character of a number. -/
theorem decimal_head_ne (i : Int) {d : Char} (hd : d.isDigit = false) (hne : d ≠ '-') (t : Text) :
    (decimal i ++ t).headD nul ≠ d := by
  obtain ⟨c, u, hcons, ⟨rfl, -⟩ | hc⟩ := decimal_eq_cons i
  · rw [hcons]
    exact Ne.symm hne
  · rw [hcons]
    exact digit_ne hc hd

theorem pgStrtok_decimal (i : Int) (hr : Ends isDelimiter r) :
    pgStrtok (decimal i ++ r) = (some ⟨decimal i ++ r, (decimal i).length⟩, r) := by
  obtain ⟨c, t, hcons, -⟩ := decimal_eq_cons i
  refine pgStrtok_token (by rw [hcons]; exact cons_ne_nil c t) (tokenText_decimal i) hr ?_
  intro heq
  have hhead := decimal_head_ne i (d := '<') rfl (by decide) []
  rw [heq] at hhead
  exact hhead rfl

theorem isNumber_decimal (i : Int) (r : Text) :
    isNumber ⟨decimal i ++ r, (decimal i).length⟩ = true := by
  obtain ⟨c, t, hcons, ⟨rfl, d, ds, rfl, hd⟩ | hc⟩ := decimal_eq_cons i
  · -- the digits come after the sign
    rw [hcons]
    simp [isNumber, Token.head, hd]
  · rw [hcons]
    have hplus : c ≠ '+' := digit_ne hc rfl
    have hminus : c ≠ '-' := digit_ne hc rfl
    simp [isNumber, Token.head, hc, hplus, hminus]

theorem nodeTokenType_decimal (long : LongSize) (hi : FitsInt32 i) (hr : Ends isDelimiter r) :
    nodeTokenType long ⟨decimal i ++ r, (decimal i).length⟩ = .integer := by
  rw [nodeTokenType, if_pos (isNumber_decimal i r)]
  simp only [strtol_decimal long hi hr]
  rw [if_neg (by simp [toInt32_of_fits hi])]

/-! ## Lists of numbers -/

/-- Numbers that are written one after the other, each behind a blank, are all read. -/
theorem readNumbers_spec (out : α → Text) (conv : Text → α × Nat)
    (err : Text → ReadError) (xs : List α)
    (htok : ∀ x ∈ xs, ∀ t, Ends isDelimiter t →
      pgStrtok (out x ++ t) = (some ⟨out x ++ t, (out x).length⟩, t))
    (hconv : ∀ x ∈ xs, ∀ t, Ends isDelimiter t → conv (out x ++ t) = (x, (out x).length))
    (hhead : ∀ x ∈ xs, ∀ t, (out x ++ t).headD nul ≠ ')') (t : Text) (fuel : Nat)
    (hfuel : xs.length < fuel) :
    readNumbers conv err fuel (xs.flatMap (fun x => ' ' :: out x) ++ ')' :: t) = .ok (xs, t) := by
  induction xs generalizing fuel with
  | nil =>
    obtain ⟨fuel, rfl⟩ := Nat.exists_eq_add_one_of_ne_zero (Nat.ne_zero_of_lt hfuel)
    rw [flatMap_nil, nil_append, readNumbers, pgStrtok_special rfl]
    exact if_pos rfl
  | cons x xs ih =>
    obtain ⟨fuel, rfl⟩ := Nat.exists_eq_add_one_of_ne_zero (Nat.ne_zero_of_lt hfuel)
    have hmem := mem_cons_self (a := x) (l := xs)
    have hends : Ends isDelimiter (xs.flatMap (fun x => ' ' :: out x) ++ ')' :: t) := by
      cases xs with
      | nil => exact .inr ⟨')', t, rfl, rfl⟩
      | cons y ys => exact .inr ⟨' ', _, rfl, rfl⟩
    have hrest :=
      ih (forall_mem_cons.1 htok).2 (forall_mem_cons.1 hconv).2 (forall_mem_cons.1 hhead).2 fuel
        (by rw [length_cons] at hfuel; omega)
    rw [flatMap_cons, cons_append, cons_append, append_assoc, readNumbers, pgStrtok_blank rfl,
      htok x hmem _ hends]
    simp only [Token.head, hconv x hmem _ hends]
    rw [if_neg (hhead x hmem _), if_neg (not_not.2 rfl), hrest]

/-! ## Trees -/

/-- The trees that are stored: lists that are not empty, of 32-bit integers, strings, null
pointers, integer lists, OID lists and such lists again. -/
inductive Stored : Node S → Prop
  | null : Stored .null
  | integer (i : Int) : FitsInt32 i → Stored (.value (.integer i))
  | string (s : Text) : Stored (.value (.string s))
  | list (elems : List (Node S)) : elems ≠ [] → (∀ x ∈ elems, Stored x) → Stored (.list elems)
  | intList (elems : List Int) : elems ≠ [] → (∀ i ∈ elems, FitsInt32 i) → Stored (.intList elems)
  | oidList (elems : List Nat) : elems ≠ [] → (∀ n ∈ elems, n < 4294967296) →
      Stored (.oidList elems)

section
variable (long : LongSize) (outStruct : S → Text)
  (parseNodeString : Text → Except ReadError (S × Text))

/-- The text of a tree is read as the tree: its first token is not one that ends a list or marks
one as a list of numbers, and from there `nodeRead` returns the tree and leaves what follows. -/
def Reads (x : Node S) : Prop :=
  ∀ t fuel, Ends isDelimiter t → (outNode outStruct x).length ≤ fuel →
    ∃ token ptr, pgStrtok (outNode outStruct x ++ t) = (some token, ptr) ∧ token.head ≠ ')' ∧
      ¬ (token.length = 1 ∧ token.head = 'i') ∧ ¬ (token.length = 1 ∧ token.head = 'o') ∧
      nodeRead long parseNodeString fuel token ptr = .ok (x, t)

/-- The elements of a list are read one after the other, up to the right parenthesis. -/
theorem readNodes_spec (elems : List (Node S)) (hne : elems ≠ [])
    (hreads : ∀ x ∈ elems, Reads long outStruct parseNodeString x) (t : Text) (fuel : Nat)
    (hfuel : (outElems outStruct elems).length < fuel) :
    ∃ token ptr, pgStrtok (outElems outStruct elems ++ ')' :: t) = (some token, ptr) ∧
      ¬ (token.length = 1 ∧ token.head = 'i') ∧ ¬ (token.length = 1 ∧ token.head = 'o') ∧
      readNodes long parseNodeString fuel token ptr = .ok (elems, t) := by
  induction elems generalizing fuel with
  | nil => exact absurd rfl hne
  | cons x elems ih =>
    obtain ⟨fuel, rfl⟩ := Nat.exists_eq_add_one_of_ne_zero (Nat.ne_zero_of_lt hfuel)
    have hx := hreads x mem_cons_self
    cases elems with
    | nil =>
      rw [outElems] at hfuel ⊢
      obtain ⟨token, ptr, htok, hclose, hi, ho, hread⟩ :=
        hx (')' :: t) fuel (.inr ⟨')', t, rfl, rfl⟩) (by omega)
      refine ⟨token, ptr, htok, hi, ho, ?_⟩
      have hfuel0 : fuel ≠ 0 := by
        rintro rfl
        rw [nodeRead] at hread
        cases hread
      obtain ⟨fuel, rfl⟩ := exists_eq_add_one_of_ne_zero hfuel0
      rw [readNodes, if_neg hclose, hread]
      simp only [pgStrtok_special (c := ')') rfl]
      rw [readNodes, if_pos (by rfl)]
    | cons y elems =>
      rw [outElems, length_append, length_cons] at hfuel
      rw [outElems, append_assoc, cons_append]
      obtain ⟨token, ptr, htok, hclose, hi, ho, hread⟩ :=
        hx (' ' :: (outElems outStruct (y :: elems) ++ ')' :: t)) fuel
          (.inr ⟨' ', _, rfl, rfl⟩) (by omega)
      obtain ⟨token', ptr', htok', -, -, hrest⟩ :=
        ih (cons_ne_nil y elems) (forall_mem_cons.1 hreads).2 fuel (by omega)
      refine ⟨token, ptr, htok, hi, ho, ?_⟩
      rw [readNodes, if_neg hclose, hread]
      simp only [pgStrtok_blank (c := ' ') rfl, htok', hrest]

theorem reads_null : Reads long outStruct parseNodeString .null := by
  intro t fuel ht hfuel
  obtain ⟨fuel, rfl⟩ := Nat.exists_eq_add_one_of_ne_zero (Nat.ne_zero_of_lt hfuel)
  exact ⟨_, _, pgStrtok_null ht, by simp [Token.head], by simp, by simp, rfl⟩

theorem reads_integer (hi : FitsInt32 i) :
    Reads long outStruct parseNodeString (.value (.integer i)) := by
  intro t fuel ht hfuel
  have hpos : 0 < (decimal i).length := by
    obtain ⟨c, u, hcons, -⟩ := decimal_eq_cons i
    rw [hcons]
    exact succ_pos _
  obtain ⟨fuel, rfl⟩ :=
    Nat.exists_eq_add_one_of_ne_zero (Nat.ne_zero_of_lt (Nat.lt_of_lt_of_le hpos hfuel))
  refine ⟨_, _, pgStrtok_decimal i ht, decimal_head_ne i rfl (by decide) t, fun h => ?_,
    fun h => ?_, ?_⟩
  · exact decimal_head_ne i rfl (by decide) t h.2
  · exact decimal_head_ne i rfl (by decide) t h.2
  · rw [nodeRead, nodeTokenType_decimal long hi ht]
    simp only [strtol_decimal long hi ht]

/-- What stands between the quotes of a string value. -/
def quoted (s : Text) : Text := if s ≠ [] then outToken (some s) else []

theorem tokenText_quoted (s : Text) : TokenText isDelimiter '\\' (quoted s) := by
  cases s with
  | nil => exact .nil
  | cons c s => exact (outToken_cons c s).1

theorem unescape_quoted (s : Text) : unescape '\\' (quoted s) = s := by
  cases s with
  | nil => rfl
  | cons c s => exact (outToken_cons c s).2

theorem nodeTokenType_string (s t : Text) :
    nodeTokenType long ⟨'"' :: (quoted s ++ ['"']) ++ t, (quoted s).length + 2⟩ = .string := by
  have hlast : ('"' :: (quoted s ++ ['"']) ++ t).getD ((quoted s).length + 1) nul = '"' := by
    simp [getD_eq_getElem?_getD]
  have hnumber : isNumber ⟨'"' :: (quoted s ++ ['"']) ++ t, (quoted s).length + 2⟩ = false := by
    simp [isNumber, Token.head]
  have hhead : Token.head ⟨'"' :: (quoted s ++ ['"']) ++ t, (quoted s).length + 2⟩ = '"' := rfl
  rw [nodeTokenType, if_neg (Bool.eq_false_iff.1 hnumber), hhead, if_neg (by decide),
    if_neg (by decide), if_neg (by decide), if_pos ⟨rfl, by simp, hlast⟩]

theorem reads_string (s : Text) : Reads long outStruct parseNodeString (.value (.string s)) := by
  intro t fuel ht hfuel
  have hout : outNode outStruct (.value (.string s)) = '"' :: (quoted s ++ ['"']) := by
    rfl
  have hlen : ('"' :: (quoted s ++ ['"'])).length = (quoted s).length + 2 := by simp
  have htok :=
    pgStrtok_token (cons_ne_nil _ _)
      (.plain '"' _ rfl (by decide)
        ((tokenText_quoted s).append (.plain '"' _ rfl (by decide) .nil))) ht
    (by simp)
  rw [hlen] at htok
  obtain ⟨fuel, rfl⟩ := Nat.exists_eq_add_one_of_ne_zero (Nat.ne_zero_of_lt hfuel)
  refine ⟨_, _, htok, by simp [Token.head], by simp, by simp, ?_⟩
  rw [nodeRead, nodeTokenType_string]
  simp only [cons_append, tail_cons, Nat.add_sub_cancel, debackslash, append_assoc, take_left,
    unescape_quoted]

theorem nodeTokenType_leftParen (t : Text) : nodeTokenType long ⟨'(' :: t, 1⟩ = .leftParen := by
  have hnumber : isNumber ⟨'(' :: t, 1⟩ = false := by simp [isNumber, Token.head]
  have hhead : Token.head ⟨'(' :: t, 1⟩ = '(' := rfl
  rw [nodeTokenType, if_neg (Bool.eq_false_iff.1 hnumber), hhead, if_pos rfl]

theorem ofList_of_ne (mk : List α → Node S) {l : List α} (h : l ≠ []) : ofList mk l = mk l := by
  rw [ofList, if_neg (by simpa using h)]

variable {x : Node S}

/-- A tree written in parentheses is read if what stands between them is, up to the right one. -/
theorem reads_of_leftParen {u : Text} (hout : outNode outStruct x = '(' :: (u ++ [')']))
    (hread : ∀ t fuel, u.length < fuel →
      nodeRead long parseNodeString (fuel + 1) ⟨'(' :: (u ++ ')' :: t), 1⟩ (u ++ ')' :: t) =
        .ok (x, t)) :
    Reads long outStruct parseNodeString x := by
  intro t fuel _ hfuel
  rw [hout, length_cons, length_append, length_singleton] at hfuel
  rw [hout, cons_append, append_assoc, singleton_append]
  obtain ⟨fuel, rfl⟩ := Nat.exists_eq_add_one_of_ne_zero (Nat.ne_zero_of_lt hfuel)
  exact ⟨_, _, pgStrtok_special rfl
    _, by simp [Token.head], by simp [Token.head], by simp [Token.head], hread t fuel (by omega)⟩

theorem reads_list {elems : List (Node S)} (hne : elems ≠ [])
    (hreads : ∀ x ∈ elems, Reads long outStruct parseNodeString x) :
    Reads long outStruct parseNodeString (.list elems) := by
  refine reads_of_leftParen long outStruct parseNodeString (u := outElems outStruct elems)
    (by rw [outNode]) fun t fuel hfuel => ?_
  obtain ⟨token, ptr, htok, hi, ho, hread⟩ :=
    readNodes_spec long outStruct parseNodeString elems hne hreads t fuel hfuel
  rw [nodeRead, nodeTokenType_leftParen]
  simp only [htok, if_neg hi, if_neg ho, hread, ofList_of_ne _ hne]

/-- A list of numbers is at least as long as the number of its elements. -/
theorem length_le_flatMap (out : α → Text) (xs : List α) :
    xs.length ≤ (xs.flatMap fun x => ' ' :: out x).length := by
  induction xs with
  | nil => exact le_refl _
  | cons x xs ih =>
    rw [flatMap_cons, length_append, length_cons, length_cons]
    omega

/-- The marker of a list of numbers is a token, up to the blank before the first of them. -/
theorem pgStrtok_marker (out : α → Text) {xs : List α} (hne : xs ≠ []) (t : Text)
    (hc : isDelimiter c = false) (hesc : c ≠ '\\') :
    pgStrtok (c :: (xs.flatMap (fun x => ' ' :: out x) ++ t)) =
      (some ⟨c :: (xs.flatMap (fun x => ' ' :: out x) ++ t), 1⟩,
        xs.flatMap (fun x => ' ' :: out x) ++ t) := by
  obtain ⟨x, xs, rfl⟩ := exists_cons_of_ne_nil hne
  exact pgStrtok_token (t := [c]) (cons_ne_nil _ _) (.plain c _ hc hesc .nil)
    (.inr ⟨' ', _, rfl, rfl⟩) (by simp)

theorem reads_intList {elems : List Int} (hne : elems ≠ []) (hfits : ∀ i ∈ elems, FitsInt32 i) :
    Reads long outStruct parseNodeString (.intList elems) := by
  refine reads_of_leftParen long outStruct parseNodeString
    (u := 'i' :: elems.flatMap fun i => ' ' :: decimal i) (by rw [outNode, cons_append])
      fun t fuel hfuel => ?_
  have hcount := length_le_flatMap decimal elems
  rw [length_cons] at hfuel
  have hread := readNumbers_spec decimal (intOf long) .unrecognizedInteger elems
    (fun i _ u hu => pgStrtok_decimal i hu)
    (fun i hi u
      hu => by rw [intOf, strtol_decimal long (hfits i hi) hu, toInt32_of_fits (hfits i hi)])
    (fun i _ u => decimal_head_ne i rfl (by decide) u) t fuel (by omega)
  have hmarker := pgStrtok_marker decimal hne (')' :: t) (c := 'i') rfl (by decide)
  rw [nodeRead, nodeTokenType_leftParen, cons_append]
  simp only [hmarker, hread, Token.head, headD_cons, and_self, if_true, ofList_of_ne _ hne]

theorem reads_oidList {elems : List Nat} (hne : elems ≠ []) (hfits : ∀ n ∈ elems, n < 4294967296) :
    Reads long outStruct parseNodeString (.oidList elems) := by
  refine reads_of_leftParen long outStruct parseNodeString
    (u := 'o' :: elems.flatMap fun n => ' ' :: toDigits 10 n) (by rw [outNode, cons_append])
    fun t fuel hfuel => ?_
  have hcount := length_le_flatMap (toDigits 10) elems
  rw [length_cons] at hfuel
  have hhead : ∀ n ∈ elems, ∀ u : Text, (toDigits 10 n ++ u).headD nul ≠ ')' := by
    intro n _ u
    obtain ⟨c, ds, hcons, hc⟩ := toDigits_eq_cons n
    rw [hcons]
    exact digit_ne hc rfl
  have hread := readNumbers_spec (toDigits 10) (oidOf long) .unrecognizedOid elems
    (fun n _ u hu => pgStrtok_toDigits n hu)
      (fun n hn u hu => oidOf_toDigits long (hfits n hn) hu) hhead t fuel (by omega)
  have hmarker := pgStrtok_marker (toDigits 10) hne (')' :: t) (c := 'o') rfl (by decide)
  have hnot : ¬ ('o' : Char) = 'i' := by decide
  rw [nodeRead, nodeTokenType_leftParen, cons_append]
  simp only [hmarker, hread, Token.head, headD_cons, hnot, and_false, and_self, if_true, if_false,
    ofList_of_ne _ hne]

/-- Every stored tree is read back from its text. -/
theorem nodeRead_outNode (hx : Stored x) : Reads long outStruct parseNodeString x := by
  induction hx with
  | null => exact reads_null long outStruct parseNodeString
  | integer i hi => exact reads_integer long outStruct parseNodeString hi
  | string s => exact reads_string long outStruct parseNodeString s
  | list elems hne _ ih => exact reads_list long outStruct parseNodeString hne ih
  | intList elems hne hfits => exact reads_intList long outStruct parseNodeString hne hfits
  | oidList elems hne hfits => exact reads_oidList long outStruct parseNodeString hne hfits

theorem stringToNode_outNode (hx : Stored x) :
    stringToNode long parseNodeString (outNode outStruct x) = .ok x := by
  obtain ⟨token, ptr, htok, -, -, -, hread⟩ :=
    nodeRead_outNode long outStruct parseNodeString hx [] ((outNode outStruct x).length + 1)
      (.inl rfl) (le_succ _)
  rw [append_nil] at htok
  rw [stringToNode, htok]
  simp only [hread]

/-- Strings survive `outToken` and `pg_strtok`, and stored trees `outNode` and `nodeRead`. -/
theorem nodeText_roundTrip :
    (∀ s r, Ends isDelimiter r → ∃ length,
      pgStrtok (outToken (some s) ++ r) = (some ⟨outToken (some s) ++ r, length⟩, r) ∧
      debackslash (outToken (some s) ++ r) length = s ∧ (length = 0 ↔ s = [])) ∧
    ∀ x : Node S, Stored x → stringToNode long parseNodeString (outNode outStruct x) = .ok x :=
  ⟨fun s r hr => ⟨tokenLength s, pgStrtok_outToken s hr, debackslash_outToken s r,
    tokenLength_eq_zero_iff s⟩, fun _ hx => stringToNode_outNode long outStruct parseNodeString hx⟩

end

/-- Written as `(-5 "a\ b" <> (i 1 2))`. -/
def sampleTree : Node Empty :=
  .list [.value (.integer (-5)), .value (.string ['a', ' ', 'b']), .null, .intList [1, 2]]

theorem nodeText_roundTrip_sampleTree :
    stringToNode ⟨64, by decide⟩
      (fun _ => .error .missingRightBrace) (outNode (fun x => x.elim) sampleTree) =
      .ok sampleTree := by
  refine (nodeText_roundTrip ⟨64, by decide⟩ _ _).2 _ (.list _ (by simp) fun x hx => ?_)
  simp only [mem_cons, not_mem_nil, or_false] at hx
  obtain rfl | rfl | rfl | rfl := hx
  · exact .integer _ ⟨by decide, by decide⟩
  · exact .string _
  · exact .null
  · exact .intList _ (by simp) (by simp [FitsInt32])

end GreenPipeline.L1.NodeText
