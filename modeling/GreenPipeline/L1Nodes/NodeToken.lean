import GreenPipeline.Core.Escape

/-!
# Tokens of stored node trees

`outToken` (`src/backend/nodes/outfuncs.c`) writes a string as one token of the text
form of a node tree; `pg_strtok` and `debackslash` (`src/backend/nodes/read.c`) read
it. A C string is the list of its characters before the terminating NUL, and a
character read at its end is the NUL.

Results:

* `pgStrtok_token`, `pgStrtok_null`, `pgStrtok_special`, `pgStrtok_blank`: what the
  tokenizer does with the texts that the writer produces.
* `pgStrtok_outToken`, `debackslash_outToken`: a written string is read back.
-/
namespace GreenPipeline.L1.NodeText

open GreenPipeline.Core.Escape List

abbrev Text := List Char

def nul : Char := Char.ofNat 0

/-! ## Writing -/

/-- White space between tokens. -/
def isBlank (c : Char) : Bool := c == ' ' || c == '\n' || c == '\t'

/-- Characters that are tokens by themselves. -/
def isSpecial (c : Char) : Bool := c == '(' || c == ')' || c == '{' || c == '}'

def isDelimiter (c : Char) : Bool := isBlank c || isSpecial c

/-- Start of a token that `read.c` would take for something else.
mirrors outfuncs.c:129-133 -/
def needsQuote (c : Char) (s : Text) : Bool :=
  c == '<' || c == '"' || c.isDigit ||
    ((c == '+' || c == '-') && ((s.headD nul).isDigit || s.headD nul == '.'))

/-- mirrors outfuncs.c:114-144 -/
def outToken : Option Text → Text
  | none => ['<', '>']
  | some [] => ['<', '>']
  | some (c :: s) => (if needsQuote c s then ['\\'] else []) ++ escape isDelimiter '\\' (c :: s)

/-! ## Reading -/

/-- A pointer to the start of a token, with the rest of the text behind it. -/
structure Token where
  ptr : Text
  length : Nat
  deriving DecidableEq

/-- `token[0]` -/
def Token.head (token : Token) : Char := token.ptr.headD nul

/-- The token, if any, and the text after it.
mirrors read.c:106-160 -/
def pgStrtok (ptr : Text) : Option Token × Text :=
  let str := ptr.dropWhile isBlank
  if str = [] then (none, str)
  else
    let length := if isSpecial (str.headD nul) then 1 else scan isDelimiter '\\' str
    -- the "empty" token
    (some ⟨str, if length = 2 ∧ str.take 2 = ['<', '>'] then 0 else length⟩, str.drop length)

/-- mirrors read.c:167-182 -/
def debackslash (token : Text) (length : Nat) : Text := unescape '\\' (token.take length)

/-! ## The tokenizer on written texts -/

theorem isDelimiter_backslash : isDelimiter '\\' = false := rfl

variable {c : Char}

theorem isBlank_of_isSpecial (h : isSpecial c = true) : isBlank c = false := by
  simp only [isSpecial, Bool.or_eq_true, beq_iff_eq] at h
  obtain ((rfl | rfl) | rfl) | rfl := h <;> rfl

theorem pgStrtok_blank (hc : isBlank c = true) (t : Text) : pgStrtok (c :: t) = pgStrtok t := by
  rw [pgStrtok, dropWhile_cons_of_pos hc, pgStrtok]

theorem pgStrtok_special (hc : isSpecial c = true) (t : Text) :
    pgStrtok (c :: t) = (some ⟨c :: t, 1⟩, t) := by
  rw [pgStrtok, dropWhile_cons_of_neg (by simp [isBlank_of_isSpecial hc])]
  simp [hc]

/-- A text with its delimiters escaped is one token, up to the next delimiter. -/
theorem pgStrtok_token {t r : Text} (hne : t ≠ []) (ht : TokenText isDelimiter '\\' t)
    (hr : Ends isDelimiter r) (hempty : t ≠ ['<', '>']) :
    pgStrtok (t ++ r) = (some ⟨t ++ r, t.length⟩, r) := by
  obtain ⟨c, t, rfl⟩ := exists_cons_of_ne_nil hne
  have hc := ht.head isDelimiter_backslash
  simp only [isDelimiter, Bool.or_eq_false_iff] at hc
  have hdrop : ((c :: t) ++ r).dropWhile isBlank = (c :: t) ++ r :=
    dropWhile_cons_of_neg (by simp [hc.1])
  have hscan := scan_append isDelimiter_backslash ht hr
  have hspecial : isSpecial (((c :: t) ++ r).headD nul) = false := hc.2
  rw [pgStrtok, hdrop, if_neg (by simp)]
  simp only [hspecial, Bool.false_eq_true, if_false, hscan, drop_left]
  rw [if_neg]
  rintro ⟨hlen, htake⟩
  exact hempty (by rwa [take_append_of_le_length (by omega), take_of_length_le (by omega)] at htake)

theorem pgStrtok_null {r : Text} (hr : Ends isDelimiter r) :
    pgStrtok (['<', '>'] ++ r) = (some ⟨['<', '>'] ++ r, 0⟩, r) := by
  have htext : TokenText isDelimiter '\\' ['<', '>'] :=
    .plain '<' _ rfl (by decide) (.plain '>' _ rfl (by decide) .nil)
  have hscan := scan_append isDelimiter_backslash htext hr
  have hdrop : (['<', '>'] ++ r).dropWhile isBlank = ['<', '>'] ++ r := rfl
  have hspecial : isSpecial ((['<', '>'] ++ r).headD nul) = false := rfl
  rw [pgStrtok, hdrop, if_neg (by simp)]
  simp only [hspecial, Bool.false_eq_true, if_false, hscan]
  rfl

/-! ## Strings -/

theorem digit_ne {d : Char} (hc : c.isDigit = true) (hd : d.isDigit = false) : c ≠ d := by
  rintro rfl
  exact Bool.false_ne_true (hd.symm.trans hc)

theorem digit_plain (hc : c.isDigit = true) : isDelimiter c = false ∧ c ≠ '\\' := by
  refine ⟨?_, digit_ne hc rfl⟩
  simp only [isDelimiter, isBlank, isSpecial, Bool.or_eq_false_iff, beq_eq_false_iff_ne]
  exact ⟨⟨⟨digit_ne hc rfl, digit_ne hc rfl⟩, digit_ne hc rfl⟩,
    ⟨⟨digit_ne hc rfl, digit_ne hc rfl⟩, digit_ne hc rfl⟩, digit_ne hc rfl⟩

/-- A character quoted at the start of a string is not one that is escaped anyway. -/
theorem needsQuote_plain {s : Text} (h : needsQuote c s = true) :
    isDelimiter c = false ∧ c ≠ '\\' := by
  simp only [needsQuote, Bool.or_eq_true, Bool.and_eq_true, beq_iff_eq] at h
  obtain ((rfl | rfl) | hd) | ⟨rfl | rfl, -⟩ := h
  · decide
  · decide
  · exact digit_plain hd
  · decide
  · decide

theorem outToken_cons (c : Char) (s : Text) :
    TokenText isDelimiter '\\' (outToken (some (c :: s))) ∧
    unescape '\\' (outToken (some (c :: s))) = c :: s := by
  rw [outToken]
  split
  · next hquote =>
    obtain ⟨hc, hne⟩ := needsQuote_plain hquote
    rw [escape_cons_plain hc hne, singleton_append]
    exact ⟨.escaped c _ (tokenText_escape s), by rw [unescape_escaped, unescape_escape]⟩
  · exact ⟨tokenText_escape _, unescape_escape _⟩

/-- A string that is not empty is not written like the empty one. -/
theorem outToken_cons_ne (c : Char) (s : Text) : outToken (some (c :: s)) ≠ ['<', '>'] := by
  intro h
  have hun := (outToken_cons c s).2
  rw [h] at hun
  -- the string would have to be the two characters themselves, but those are quoted
  obtain ⟨rfl, rfl⟩ : c = '<' ∧ s = ['>'] := by simpa [unescape] using hun.symm
  exact absurd h (by decide)

theorem outToken_cons_ne_nil (c : Char) (s : Text) : outToken (some (c :: s)) ≠ [] := by
  intro h
  have hun := (outToken_cons c s).2
  rw [h] at hun
  exact absurd hun (by simp [unescape])

/-- The length `pg_strtok` reports for a written string. -/
def tokenLength (s : Text) : Nat := if s = [] then 0 else (outToken (some s)).length

theorem pgStrtok_outToken (s : Text) {r : Text} (hr : Ends isDelimiter r) :
    pgStrtok (outToken (some s) ++ r) = (some ⟨outToken (some s) ++ r, tokenLength s⟩, r) := by
  cases s with
  | nil => exact pgStrtok_null hr
  | cons c s =>
    exact pgStrtok_token (outToken_cons_ne_nil c s) (outToken_cons c s).1 hr (outToken_cons_ne c s)

theorem debackslash_outToken (s r : Text) :
    debackslash (outToken (some s) ++ r) (tokenLength s) = s := by
  cases s with
  | nil => rfl
  | cons c s =>
    rw [debackslash, tokenLength, if_neg (cons_ne_nil c s), take_left]
    exact (outToken_cons c s).2

theorem tokenLength_eq_zero_iff (s : Text) : tokenLength s = 0 ↔ s = [] := by
  cases s with
  | nil => exact iff_of_true rfl rfl
  | cons c s =>
    rw [tokenLength, if_neg (cons_ne_nil c s), length_eq_zero_iff]
    exact iff_of_false (outToken_cons_ne_nil c s) (cons_ne_nil c s)

end GreenPipeline.L1.NodeText
