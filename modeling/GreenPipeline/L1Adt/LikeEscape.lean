import GreenPipeline.L1Adt.LikeMatch

/-!
# LIKE with an escape character

`do_like_escape` rewrites a pattern with another escape character, or with none, into one with the
backslash. It is compiled for single bytes and for characters of several bytes; here these are the
encodings of `LikeMatch`.

Sources: `src/backend/utils/adt/like.c`, `src/backend/utils/adt/like_match.c`,
`src/backend/utils/mb/wchar.c`.

Results:

* `parse_rewriteChars`, `parse_doubleChars`: the rewritten pattern has the elements of the
  original one.
* `lawful_singleByte`, `lawful_utf8`: single bytes, whatever the function that folds them, and the
  legal characters of UTF-8.
* `like_matches`: matching with single bytes and in UTF-8, for patterns as they are and as they
  are rewritten.
-/
namespace GreenPipeline.L1.Like

open GreenPipeline.Core.Wildcard List

/-! ## The functions -/

section Escape

variable (E : Encoding)

/-- mirrors like.c:56-78 and like.c:125 -/
def wchareq : List UInt8 → List UInt8 → Bool
  | p1 :: s1, p2 :: s2 =>
    p1 == p2 && E.mblen p2 == E.mblen p1 && (p1 :: s1).take (E.mblen p1) ==
      (p2 :: s2).take (E.mblen p1)
  | _, _ => false

/-- No escape character is wanted; at most `n` characters. mirrors like_match.c:270-282 -/
def doubleBackslashes : ℕ → List UInt8 → List UInt8
  | 0, _ => []
  | _ + 1, [] => []
  | n + 1, b :: p =>
    (if b = backslash then [backslash] else []) ++ (b :: p).take (E.mblen b) ++
      doubleBackslashes n ((b :: p).drop (E.mblen b))

/-- The escape character becomes the backslash; at most `n` characters. mirrors
like_match.c:311-333 -/
def rewriteEscapes (e : List UInt8) : ℕ → Bool → List UInt8 → List UInt8
  | 0, _, _ => []
  | _ + 1, _, [] => []
  | n + 1, afterescape, b :: p =>
    if wchareq E (b :: p) e && !afterescape then
      backslash :: rewriteEscapes e n true ((b :: p).drop (E.mblen b))
    else if b = backslash then
      backslash :: (if afterescape then [] else [backslash]) ++
        rewriteEscapes e n false ((b :: p).drop (E.mblen b))
    else (b :: p).take (E.mblen b) ++ rewriteEscapes e n false ((b :: p).drop (E.mblen b))

/-- mirrors like_match.c:247-339 -/
def doLikeEscape (pat esc : List UInt8) : Except LikeError (List UInt8) :=
  match esc with
  | [] => .ok (doubleBackslashes E pat.length pat)
  | e :: es =>
    if (e :: es).drop (E.mblen e) ≠ [] then .error .invalidEscape
    else if e = backslash then .ok pat
    else .ok (rewriteEscapes E (e :: es) pat.length false pat)

end Escape

/-! ## The same on characters -/

def doubleChars : List (List UInt8) → List (List UInt8)
  | [] => []
  | c :: cs => (if c = [backslash] then [[backslash]] else []) ++ c :: doubleChars cs

def rewriteChars (e : List UInt8) : Bool → List (List UInt8) → List (List UInt8)
  | _, [] => []
  | afterescape, c :: cs =>
    if c = e ∧ afterescape = false then [backslash] :: rewriteChars e true cs
    else (if c = [backslash] ∧ afterescape = false then [[backslash]] else []) ++
      c :: rewriteChars e false cs

/-! ## The elements of the rewritten pattern -/

theorem parse_backslash (d : List UInt8) (cs : List (List UInt8)) :
    parse (some [backslash]) ([backslash] :: d :: cs) =
      (parse (some [backslash]) cs).map (.lit d :: ·) := rfl

variable {esc : Option (List UInt8)} {c e : List UInt8} {b : UInt8}

/-- A character that is no escape character in either pattern. -/
theorem parse_other {esc' : Option (List UInt8)} {cs' : List (List UInt8)}
    (hesc : (esc == some c) = false) (hesc' : (esc' == some c) = false)
    (h : parse esc cs = parse esc' cs') : parse esc (c :: cs) = parse esc' (c :: cs') := by
  conv_lhs => unfold parse
  conv_rhs => unfold parse
  rw [hesc, hesc', h]
  rfl

theorem parse_plain_backslash (hesc : (esc == some [backslash]) = false) (cs : List (List UInt8)) :
    parse esc ([backslash] :: cs) = (parse esc cs).map (.lit [backslash] :: ·) := by
  conv_lhs => unfold parse
  rw [if_neg (by simp [hesc]), if_neg (by decide), if_neg (by decide)]

theorem parse_doubleChars (cs : List (List UInt8)) :
    parse (some [backslash]) (doubleChars cs) = parse none cs := by
  induction cs with
  | nil => rfl
  | cons c cs ih =>
    rw [doubleChars]
    by_cases hc : c = [backslash]
    · subst hc
      rw [if_pos rfl, singleton_append, parse_backslash, ih, parse_plain_backslash rfl]
    · rw [if_neg hc, nil_append]
      exact parse_other (beq_false_of_ne fun h => hc (Option.some.inj h).symm) rfl ih

theorem parse_rewriteChars_step (he : e ≠ [backslash]) (hne : ¬ (some e == some c) = true)
    (ih : parse (some [backslash]) (rewriteChars e false cs) = parse (some e) cs) :
    parse (some [backslash]) (rewriteChars e false (c :: cs)) = parse (some e) (c :: cs) := by
  have hce : ¬ (c = e ∧ false = false) := by
    rintro ⟨rfl, -⟩
    exact hne (beq_self_eq_true _)
  rw [rewriteChars, if_neg hce]
  by_cases hc : c = [backslash]
  · subst hc
    rw [if_pos ⟨rfl, rfl⟩, singleton_append, parse_backslash, ih,
      parse_plain_backslash (beq_false_of_ne fun h => he (Option.some.inj h))]
  · rw [if_neg fun h => hc h.1, nil_append]
    exact parse_other (beq_false_of_ne fun h => hc (Option.some.inj h).symm)
      (Bool.not_eq_true _ ▸ hne) ih

/-- The escape character is read with the character behind it, so two steps of the rewriting are
taken at once. -/
theorem parse_rewriteChars (he : e ≠ [backslash]) (cs : List (List UInt8)) :
    parse (some [backslash]) (rewriteChars e false cs) = parse (some e) cs := by
  induction cs using parse.induct (some e) with
  | case1 => rfl
  | case2 c hc =>
    obtain rfl := Option.some.inj (eq_of_beq hc)
    simp [rewriteChars, parse]
  | case3 c hc d ds ih =>
    obtain rfl := Option.some.inj (eq_of_beq hc)
    have hrewritten : rewriteChars e false (e :: d :: ds) =
        [backslash] :: d :: rewriteChars e false ds := by simp [rewriteChars]
    rw [hrewritten, parse_backslash, ih, parse, if_pos (by simp)]
  | case4 cs hne ih => exact parse_rewriteChars_step he hne ih
  | case5 cs hne hany ih => exact parse_rewriteChars_step he hne ih
  | case6 c cs hne hany hone ih => exact parse_rewriteChars_step he hne ih

variable {E : Encoding} {IsChar : List UInt8 → Prop} {cs : List (List UInt8)}

section

variable (hE : Lawful E IsChar)
include hE

theorem Lawful.take_mblen {bs : List UInt8} (hc : IsChar (b :: bs)) (s : List UInt8) :
    (b :: (bs ++ s)).take (E.mblen b) = b :: bs ∧ (b :: (bs ++ s)).drop (E.mblen b) = s := by
  rw [hE.mblen hc]
  simp

theorem Lawful.wchareq_iff {bs s : List UInt8} (hc : IsChar (b :: bs)) (he : IsChar e) :
    wchareq E (b :: (bs ++ s)) e = true ↔ b :: bs = e := by
  obtain ⟨x, xs, rfl⟩ := hE.exists_cons he
  simp only [wchareq, Bool.and_eq_true, beq_iff_eq, (hE.take_mblen hc s).1]
  constructor
  · rintro ⟨⟨-, hlen⟩, htake⟩
    rw [htake, ← hlen, hE.mblen he]
    simp
  · intro heq
    obtain ⟨rfl, rfl⟩ := cons.inj heq
    rw [hE.mblen he]
    simp

theorem doubleBackslashes_eq (hcs : ∀ c ∈ cs, IsChar c) {n : ℕ} (hn : cs.flatten.length ≤ n) :
    doubleBackslashes E n cs.flatten = (doubleChars cs).flatten := by
  induction cs generalizing n with
  | nil => cases n <;> rfl
  | cons c cs ih =>
    have hc := hcs c mem_cons_self
    obtain ⟨b, bs, rfl⟩ := hE.exists_cons hc
    simp only [flatten_cons, cons_append, length_cons, length_append] at hn ⊢
    obtain ⟨n, rfl⟩ : ∃ m, n = m + 1 := ⟨n - 1, by omega⟩
    have hrest := ih (forall_mem_cons.1 hcs).2 (n := n) (by omega)
    rw [doubleBackslashes, (hE.take_mblen hc _).1, (hE.take_mblen hc _).2, hrest, doubleChars]
    by_cases hb : b :: bs = [backslash]
    · obtain ⟨rfl, rfl⟩ := cons.inj hb
      simp
    · simp [hb, hE.head_ne hc (.inl rfl) hb]

theorem rewriteEscapes_eq (he : IsChar e) (hcs : ∀ c ∈ cs, IsChar c) {n : ℕ}
    (hn : cs.flatten.length ≤ n) (afterescape : Bool) :
    rewriteEscapes E e n afterescape cs.flatten = (rewriteChars e afterescape cs).flatten := by
  induction cs generalizing n afterescape with
  | nil => cases n <;> rfl
  | cons c cs ih =>
    have hc := hcs c mem_cons_self
    obtain ⟨b, bs, rfl⟩ := hE.exists_cons hc
    simp only [flatten_cons, cons_append, length_cons, length_append] at hn ⊢
    obtain ⟨n, rfl⟩ : ∃ m, n = m + 1 := ⟨n - 1, by omega⟩
    have hrest := fun after => ih (forall_mem_cons.1 hcs).2 (n := n) (by omega) after
    have htest : (wchareq E (b :: (bs ++ cs.flatten)) e && !afterescape) = true ↔ b :: bs = e ∧
        afterescape = false := by
      rw [Bool.and_eq_true, hE.wchareq_iff hc he, Bool.not_eq_true']
    rw [rewriteEscapes, (hE.take_mblen hc _).1, (hE.take_mblen hc _).2, hrest, hrest, rewriteChars]
    by_cases hesc : b :: bs = e ∧ afterescape = false
    · rw [if_pos (htest.mpr hesc), if_pos hesc]
      rfl
    · rw [if_neg fun h => hesc (htest.mp h), if_neg hesc]
      by_cases hb : b :: bs = [backslash]
      · obtain ⟨rfl, rfl⟩ := cons.inj hb
        cases afterescape <;> simp
      · simp [hb, hE.head_ne hc (.inl rfl) hb]

/-- A character, with a backslash in front or not. -/
theorem isChar_escaped {p : Prop} [Decidable p] (hc : IsChar c) (hcs : ∀ x ∈ cs, IsChar x) :
    ∀ x ∈ (if p then [[backslash]] else []) ++ c :: cs, IsChar x := by
  refine forall_mem_append.2 ⟨fun x hx => ?_, forall_mem_cons.2 ⟨hc, hcs⟩⟩
  split at hx
  · rw [mem_singleton.1 hx]
    exact hE.backslash
  · cases hx

theorem doubleChars_isChar (hcs : ∀ c ∈ cs, IsChar c) : ∀ c ∈ doubleChars cs, IsChar c := by
  induction cs with
  | nil => exact hcs
  | cons c cs ih =>
    obtain ⟨hc, hrest⟩ := forall_mem_cons.1 hcs
    exact isChar_escaped hE hc (ih hrest)

theorem rewriteChars_isChar (e : List UInt8) (hcs : ∀ c ∈ cs, IsChar c) (afterescape : Bool) :
    ∀ c ∈ rewriteChars e afterescape cs, IsChar c := by
  induction cs generalizing afterescape with
  | nil => exact hcs
  | cons c cs ih =>
    obtain ⟨hc, hrest⟩ := forall_mem_cons.1 hcs
    rw [rewriteChars]
    split
    · exact forall_mem_cons.2 ⟨hE.backslash, ih hrest true⟩
    · exact isChar_escaped hE hc (ih hrest false)

/-- The rewritten pattern is one of characters, with the same elements. -/
theorem doLikeEscape_spec (hcs : ∀ c ∈ cs, IsChar c) (hesc : ∀ e ∈ esc, IsChar e) :
    ∃ qs : List (List UInt8), doLikeEscape E cs.flatten (esc.getD []) = .ok qs.flatten ∧
      (∀ c ∈ qs, IsChar c) ∧
      parse (some [backslash]) qs = parse esc cs := by
  cases esc with
  | none =>
    exact ⟨_, congrArg Except.ok (doubleBackslashes_eq hE hcs le_rfl), doubleChars_isChar hE hcs,
      parse_doubleChars cs⟩
  | some e =>
    have he := hesc e rfl
    obtain ⟨x, xs, rfl⟩ := hE.exists_cons he
    have hone : (x :: xs).drop (E.mblen x) = [] := by
      rw [hE.mblen he]
      simp
    rw [Option.getD_some, doLikeEscape, if_neg (not_not.mpr hone)]
    by_cases hx : x :: xs = [backslash]
    · rw [hx, if_pos (cons.inj hx).1]
      exact ⟨cs, rfl, hcs, rfl⟩
    · rw [if_neg (hE.head_ne he (.inl rfl) hx), rewriteEscapes_eq hE he hcs le_rfl]
      exact ⟨_, rfl, rewriteChars_isChar hE _ hcs false, parse_rewriteChars hx cs⟩

end

/-! ## Single bytes and UTF-8 -/

theorem lawful_singleByte (fold : UInt8 → UInt8) :
    Lawful (singleByte fold) fun c => c.length = 1 where
  ne_nil := by
    rintro _ hc rfl
    cases hc
  backslash := rfl
  special := by
    intro b cs hc
    obtain rfl : cs = [] := length_eq_zero_iff.mp (Nat.succ.inj hc)
    exact ⟨fun _ => rfl, fun x hx => absurd hx not_mem_nil⟩
  rest := by
    intro b cs ts hc _
    obtain rfl : cs = [] := length_eq_zero_iff.mp (Nat.succ.inj hc)
    rfl
  sync := by
    intro b cs d ds hc hd _
    exact Nat.succ.inj (hc.trans hd.symm)
  mblen := fun hc => hc.symm

def byteIn (lo hi a : UInt8) : Bool := lo ≤ a && a ≤ hi

/-- The second byte. mirrors wchar.c:1477-1501 -/
def secondLegal (first a : UInt8) : Bool :=
  if first = 0xE0 then byteIn 0xA0 0xBF a
  else if first = 0xED then byteIn 0x80 0x9F a
  else if first = 0xF0 then byteIn 0x90 0xBF a
  else if first = 0xF4 then byteIn 0x80 0x8F a
  else byteIn 0x80 0xBF a

/-- mirrors wchar.c:1502-1508 -/
def firstLegal (a : UInt8) : Bool := !(0x80 ≤ a && a < 0xC2) && !(0xF4 < a)

/-- mirrors wchar.c:1457-1512 -/
def pgUtf8Islegal : List UInt8 → Bool
  | [a, b, c, d] => byteIn 0x80 0xBF d && byteIn 0x80 0xBF c && secondLegal a b && firstLegal a
  | [a, b, c] => byteIn 0x80 0xBF c && secondLegal a b && firstLegal a
  | [a, b] => secondLegal a b && firstLegal a
  | [a] => firstLegal a
  | _ => false

/-- A character of UTF-8. mirrors wchar.c:1429-1441 -/
def Utf8Char (c : List UInt8) : Prop := c.length = pgUtfMblen (c.headD 0) ∧ pgUtf8Islegal c = true

instance : DecidablePred Utf8Char := fun _ => inferInstanceAs (Decidable (_ ∧ _))

def Continuation (b : UInt8) : Prop := b &&& 0xC0 = 0x80

instance : DecidablePred Continuation := fun _ => inferInstanceAs (Decidable (_ = _))

/-- A fact about all bytes, one by one. -/
theorem forall_byte {P : UInt8 → Prop} (h : ∀ n : Fin 256, P (UInt8.ofNat n))
    (b : UInt8) : P b := by
  have hb := h ⟨b.toNat, b.toNat_lt⟩
  rwa [UInt8.ofNat_toNat] at hb

theorem byteIn_continuation (b : UInt8) : byteIn 0x80 0xBF b = true → Continuation b :=
  forall_byte (P := fun b => byteIn 0x80 0xBF b = true → Continuation b) (by decide +kernel) b

theorem firstLegal_head (b : UInt8) : firstLegal b = true → ¬ Continuation b :=
  forall_byte (P := fun b => firstLegal b = true → ¬ Continuation b) (by decide +kernel) b

theorem secondLegal_range {first : UInt8} (h : secondLegal first b = true) :
    byteIn 0x80 0xBF b = true := by
  simp only [secondLegal, byteIn] at h ⊢
  split_ifs at h
  all_goals
    simp only [Bool.and_eq_true, decide_eq_true_eq, UInt8.le_iff_toNat_le] at h ⊢
    exact ⟨le_trans (by decide) h.1, le_trans h.2 (by decide)⟩

theorem not_special_of_continuation (h : Continuation b) : ¬ Special b := by
  rintro (rfl | rfl | rfl) <;> revert h <;> decide

theorem Utf8Char.bytes {cs : List UInt8} (h : Utf8Char (b :: cs)) :
    ¬ Continuation b ∧ ∀ x ∈ cs, Continuation x := by
  obtain ⟨-, hlegal⟩ := h
  have hthird := byteIn_continuation
  have hsecond : ∀ x, secondLegal b x = true → Continuation x :=
    fun x hx => byteIn_continuation x (secondLegal_range hx)
  have hfirst := firstLegal_head b
  match cs, hlegal with
  | [], hlegal => simp_all [pgUtf8Islegal]
  | [x], hlegal => simp_all [pgUtf8Islegal]
  | [x, y], hlegal => simp_all [pgUtf8Islegal]
  | [x, y, z], hlegal => simp_all [pgUtf8Islegal]

theorem dropWhile_continuation {cs s : List UInt8} (hcs : ∀ x ∈ cs, Continuation x)
    (hs : ∀ b ∈ s.head?, ¬ Continuation b) :
    (cs ++ s).dropWhile (fun c => c &&& 0xC0 = 0x80) = s := by
  rw [dropWhile_append_of_pos (by simpa [Continuation] using hcs)]
  cases s with
  | nil => rfl
  | cons b s => exact dropWhile_cons_of_neg (by simpa [Continuation] using hs)

theorem lawful_utf8 : Lawful utf8 Utf8Char where
  ne_nil := by
    rintro _ hc rfl
    exact absurd hc (by decide)
  backslash := by decide
  special := by
    intro b cs hc
    refine ⟨fun hb => ?_, fun x hx => not_special_of_continuation (hc.bytes.2 x hx)⟩
    have hone : pgUtfMblen b = 1 := by rcases hb with rfl | rfl | rfl <;> rfl
    have hlen : cs.length + 1 = pgUtfMblen b := hc.1
    exact length_eq_zero_iff.mp (by omega)
  rest := by
    intro b cs ts hc hts
    apply dropWhile_continuation hc.bytes.2
    intro x hx
    cases ts with
    | nil => cases hx
    | cons d ts =>
      have hd := hts d mem_cons_self
      cases d with
      | nil => exact absurd hd (by decide)
      | cons y ys =>
        obtain rfl : y = x := Option.some.inj hx
        exact hd.bytes.1
  sync := by
    intro b cs d ds hc hd heq
    have hbd : b = d := heq
    have hb : cs.length + 1 = pgUtfMblen b := hc.1
    have hd : ds.length + 1 = pgUtfMblen d := hd.1
    rw [hbd] at hb
    omega
  mblen := fun hc => hc.1.symm

/-! ## The result -/

/-- The single-byte encodings, with the bytes as they are or folded, and UTF-8. -/
inductive Supported : Encoding → (List UInt8 → Prop) → Prop
  | singleByte (fold : UInt8 → UInt8) : Supported (singleByte fold) fun c => c.length = 1
  | utf8 : Supported utf8 Utf8Char

theorem Supported.lawful (h : Supported E IsChar) : Lawful E IsChar := by
  cases h with
  | singleByte fold => exact lawful_singleByte fold
  | utf8 => exact lawful_utf8

/-- With a stack for its wildcards, matching the bytes of a pattern gives the outcome for its
elements. -/
def Decides (E : Encoding) (pattern : List UInt8) (p : List (Elem (List UInt8)))
    (ts : List (List UInt8)) : Prop :=
  ∀ depth, anys p < depth → ∃ r, matchText E depth ts.flatten pattern = .ok r ∧
    (r = .accept ↔ Matches E.CharEq p ts) ∧
    (r = .abort → ∀ s, s <:+ ts → ¬ Matches E.CharEq p s)

theorem decides_of_lawful (hE : Lawful E IsChar) {ts : List (List UInt8)} (hts : ∀ d ∈ ts, IsChar d)
    (hcs : ∀ c ∈ cs, IsChar c) {p : List (Elem (List UInt8))}
    (hp : parse (some [backslash]) cs = some p) : Decides E cs.flatten p ts := by
  intro depth hdepth
  obtain ⟨r, hr, hsound⟩ := matchText_solves hE depth cs p (reads_of_parse hp) hcs hdepth ts hts
  exact ⟨r, hr, hsound.accept, hsound.abort⟩

/-- **Matching is right.** With single bytes and in UTF-8, a pattern that parses decides every
text by its elements; and a pattern with any escape character is rewritten to one that decides by
the same elements. -/
theorem like_matches (hE : Supported E IsChar) (ts cs : List (List UInt8))
    (hts : ∀ d ∈ ts, IsChar d) (hcs : ∀ c ∈ cs, IsChar c) :
    (∀ p, parse (some [backslash]) cs = some p → Decides E cs.flatten p ts) ∧
      ∀ esc : Option (List UInt8), (∀ e ∈ esc, IsChar e) →
        ∃ rewritten, doLikeEscape E cs.flatten (esc.getD []) = .ok rewritten ∧
          ∀ p, parse esc cs = some p → Decides E rewritten p ts := by
  refine ⟨fun p hp => decides_of_lawful hE.lawful hts hcs hp, fun esc hesc => ?_⟩
  obtain ⟨qs, hqs, hchars, hparse⟩ := doLikeEscape_spec hE.lawful hcs hesc
  exact ⟨_, hqs, fun p hp => decides_of_lawful hE.lawful hts hchars (hparse.trans hp)⟩

/-- A percent sign behind the escape character, then any sequence, against a text with a character
of two bytes. -/
theorem like_matches_utf8 :
    ∃ rewritten, doLikeEscape utf8 [0x21, percent, percent] [0x21] = .ok rewritten ∧
      Decides utf8 rewritten [.lit [percent], .any] [[percent], [0xC3, 0xA9]] := by
  have hresult :=
    (like_matches .utf8 [[percent], [0xC3, 0xA9]] [[0x21], [percent], [percent]] (by decide)
      (by decide)).2 (some [0x21]) (by decide)
  obtain ⟨rewritten, hrewritten, hdecides⟩ := hresult
  exact ⟨rewritten, hrewritten, hdecides _ rfl⟩

end GreenPipeline.L1.Like
