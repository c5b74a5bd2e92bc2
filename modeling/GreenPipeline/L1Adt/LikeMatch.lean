import GreenPipeline.Core.Wildcard

/-!
# LIKE

`src/backend/utils/adt/like_match.c` is compiled several times, with different macros for going to
the next character and for reading a byte. Here these are an `Encoding`. `MatchText` calls itself
behind a `%`; the argument `depth` is how often it may do so before `check_stack_depth` stops it.

The patterns and texts are bytes. What they mean is defined on characters (`Core.Wildcard`), which
are byte strings with the properties the comments of the source rely on (`Lawful`).

Sources: `src/backend/utils/adt/like.c`.

Results:

* `scanText_spec`, `afterPercent_spec`, `matchLoop_spec`: the outcomes of the loops, if the
  recursive calls give the right ones.
* `matchText_solves`: with enough stack the outcome is the right one, for every pattern without an
  escape character at its end.
-/
namespace GreenPipeline.L1.Like

open GreenPipeline.Core.Wildcard List

abbrev backslash : UInt8 := 0x5C
abbrev percent : UInt8 := 0x25
abbrev underscore : UInt8 := 0x5F

/-- mirrors like_match.c:104-107, 164-167 and like_match.c:289-293 -/
inductive LikeError
  | danglingEscape
  | invalidEscape
  | stackDepth
  deriving DecidableEq, Repr

/-- The macros: what is left behind the first byte of a character (`NextChar`), a byte as it is
compared (`GETCHAR`), and the length of the character that a byte starts (`pg_mblen`). -/
structure Encoding where
  rest : List UInt8 → List UInt8
  fold : UInt8 → UInt8
  mblen : UInt8 → ℕ

/-- mirrors like.c:124-139 -/
def singleByte (fold : UInt8 → UInt8) : Encoding :=
  { rest := id, fold := fold, mblen := fun _ => 1 }

/-- mirrors src/backend/utils/mb/wchar.c:541-563 -/
def pgUtfMblen (s : UInt8) : ℕ :=
  if s &&& 0x80 = 0 then 1
  else if s &&& 0xE0 = 0xC0 then 2
  else if s &&& 0xF0 = 0xE0 then 3
  else if s &&& 0xF8 = 0xF0 then 4
  else 1

/-- mirrors like.c:141-147 -/
def utf8 : Encoding :=
  { rest := List.dropWhile fun c => c &&& 0xC0 = 0x80, fold := id, mblen := pgUtfMblen }

/-! ## The functions -/

section Match

variable (E : Encoding)

def Encoding.nextChar : List UInt8 → List UInt8
  | [] => []
  | _ :: t => E.rest t

abbrev Matcher := List UInt8 → List UInt8 → Except LikeError Outcome

/-- The search for a place where the rest of the pattern matches, at most `n` places. mirrors
like_match.c:173-191 -/
def scanText (matchRest : Matcher) (firstpat : UInt8) (p : List UInt8) :
    ℕ → List UInt8 → Except LikeError Outcome
  | 0, _ => .ok .abort
  | _ + 1, [] => .ok .abort
  | n + 1, b :: t =>
    if E.fold b = firstpat then
      match matchRest (b :: t) p with
      | .ok .reject => scanText matchRest firstpat p n (E.rest t)
      | matched => matched
    else scanText matchRest firstpat p n (E.rest t)

/-- Behind a `%`. mirrors like_match.c:128-191 -/
def afterPercent (matchRest : Matcher) : List UInt8 → List UInt8 → Except LikeError Outcome
  | [], _ => .ok .accept
  | c :: p, t =>
    if c = percent then afterPercent matchRest p t
    else if c = underscore then
      (if t = [] then .ok .abort else afterPercent matchRest p (E.nextChar t))
    else if c = backslash then
      match p with
      | [] => .error .danglingEscape
      | c1 :: p1 => scanText E matchRest (E.fold c1) (c :: c1 :: p1) t.length t
    else scanText E matchRest (E.fold c) (c :: p) t.length t

/-- The loop over the pattern. mirrors like_match.c:97-238 -/
def matchLoop (matchRest : Matcher) : List UInt8 → List UInt8 → Except LikeError Outcome
  | [], t => .ok (if t = [] then .accept else .reject)
  | c :: p, [] =>
    -- what is left of the pattern must match nothing
    .ok (if (c :: p).dropWhile (· = percent) = [] then .accept else .abort)
  | c :: p, b :: t =>
    if c = backslash then
      match p with
      | [] => .error .danglingEscape
      | c1 :: p1 => if E.fold c1 ≠ E.fold b then .ok .reject else matchLoop matchRest p1 t
    else if c = percent then afterPercent E matchRest p (b :: t)
    else if c = underscore then matchLoop matchRest p (E.rest t)
    else if E.fold c ≠ E.fold b then .ok .reject
    else matchLoop matchRest p t

/-- mirrors like_match.c:78-239 -/
def matchText : ℕ → Matcher
  | 0, _, p => if p = [percent] then .ok .accept else .error .stackDepth
  | depth + 1, t, p => if p = [percent] then .ok .accept else matchLoop E (matchText depth) p t

end Match

/-! ## Characters -/

def Special (b : UInt8) : Prop := b = backslash ∨ b = percent ∨ b = underscore

/-- The characters of an encoding: the special ones are single bytes, and their bytes are not part
of others; a character can be passed; and the first byte, as it is compared, says how long a
character is. -/
structure Lawful (E : Encoding) (IsChar : List UInt8 → Prop) : Prop where
  ne_nil : ∀ {c}, IsChar c → c ≠ []
  backslash : IsChar [backslash]
  special : ∀ {b cs}, IsChar (b :: cs) → (Special b → cs = []) ∧ ∀ x ∈ cs, ¬ Special x
  rest : ∀ {b cs} {ts : List (List UInt8)}, IsChar (b :: cs) → (∀ d ∈ ts, IsChar d) →
    E.rest (cs ++ ts.flatten) = ts.flatten
  sync : ∀ {b cs d ds}, IsChar (b :: cs) → IsChar (d :: ds) → E.fold b = E.fold d →
    cs.length = ds.length
  mblen : ∀ {b cs}, IsChar (b :: cs) → E.mblen b = cs.length + 1

/-- Characters as they are compared. -/
def Encoding.CharEq (E : Encoding) (c d : List UInt8) : Prop := c.map E.fold = d.map E.fold

instance (E : Encoding) (c d : List UInt8) : Decidable (E.CharEq c d) :=
  inferInstanceAs (Decidable (_ = _))

/-- The elements of a pattern with an escape character or without; `none` if the escape character
is the last one. -/
def parse (esc : Option (List UInt8)) : List (List UInt8) → Option (List (Elem (List UInt8)))
  | [] => some []
  | c :: cs =>
    if esc == some c then
      match cs with
      | [] => none
      | d :: ds => (parse esc ds).map (.lit d :: ·)
    else if c = [percent] then (parse esc cs).map (.any :: ·)
    else if c = [underscore] then (parse esc cs).map (.one :: ·)
    else (parse esc cs).map (.lit c :: ·)

/-- The cases of `parse` with the standard escape character. -/
inductive Reads : List (List UInt8) → List (Elem (List UInt8)) → Prop
  | nil : Reads [] []
  | any {cs p} : Reads cs p → Reads ([percent] :: cs) (.any :: p)
  | one {cs p} : Reads cs p → Reads ([underscore] :: cs) (.one :: p)
  | plain {c cs p} : c ≠ [backslash] → c ≠ [percent] → c ≠ [underscore] → Reads cs p →
      Reads (c :: cs) (.lit c :: p)
  | escaped {d cs p} : Reads cs p → Reads ([backslash] :: d :: cs) (.lit d :: p)

theorem reads_of_parse {cs : List (List UInt8)} {p : List (Elem (List UInt8))}
    (h : parse (some [backslash]) cs = some p) : Reads cs p := by
  induction cs using parse.induct (some [backslash]) generalizing p with
  | case1 =>
    obtain rfl := Option.some.inj h
    exact .nil
  | case2 c hc =>
    rw [parse, if_pos hc] at h
    cases h
  | case3 c hc d ds ih =>
    obtain rfl := Option.some.inj (eq_of_beq hc)
    obtain ⟨q, hq, rfl⟩ := Option.map_eq_some_iff.mp h
    exact .escaped (ih hq)
  | case4 cs hne ih =>
    unfold parse at h
    obtain ⟨q, hq, rfl⟩ := Option.map_eq_some_iff.mp h
    exact .any (ih hq)
  | case5 cs hne hany ih =>
    unfold parse at h
    obtain ⟨q, hq, rfl⟩ := Option.map_eq_some_iff.mp h
    exact .one (ih hq)
  | case6 c cs hne hany hone ih =>
    unfold parse at h
    rw [if_neg hne, if_neg hany, if_neg hone] at h
    obtain ⟨q, hq, rfl⟩ := Option.map_eq_some_iff.mp h
    exact .plain (fun heq => hne (by rw [heq]; rfl)) hany hone (ih hq)

/-! ## Bytes of a character -/

variable {E : Encoding} {IsChar : List UInt8 → Prop} {matchRest : Matcher}

theorem matchLoop_percent (p : List UInt8) (b : UInt8) (t : List UInt8) :
    matchLoop E matchRest (percent :: p) (b :: t) = afterPercent E matchRest p (b :: t) := by
  conv_lhs => unfold matchLoop
  rw [if_neg (by decide), if_pos rfl]

theorem matchLoop_underscore (p : List UInt8) (b : UInt8) (t : List UInt8) :
    matchLoop E matchRest (underscore :: p) (b :: t) = matchLoop E matchRest p (E.rest t) := by
  conv_lhs => unfold matchLoop
  rw [if_neg (by decide), if_neg (by decide), if_pos rfl]

variable {bs : List UInt8}

/-- Bytes that are not special are compared one by one. -/
theorem matchLoop_plain (hbs : ∀ x ∈ bs, ¬ Special x) {us p t : List UInt8}
    (hlen : bs.length = us.length) :
    matchLoop E matchRest (bs ++ p) (us ++ t) =
      if bs.map E.fold = us.map E.fold then matchLoop E matchRest p t else .ok .reject := by
  induction bs generalizing us with
  | nil =>
    obtain rfl : us = [] := length_eq_zero_iff.mp hlen.symm
    simp
  | cons b bs ih =>
    cases us with
    | nil => simp at hlen
    | cons u us =>
      have hb := hbs b mem_cons_self
      simp only [Special, not_or] at hb
      have hrest := ih (forall_mem_cons.1 hbs).2 (by simpa using hlen)
      rw [cons_append, cons_append]
      conv_lhs => unfold matchLoop
      rw [if_neg hb.1, if_neg hb.2.1, if_neg hb.2.2, hrest]
      by_cases heq : E.fold b = E.fold u
      · simp [heq]
      · simp [heq]

/-- What the recursive calls give: the right outcome for every text. -/
def Solves (E : Encoding) (IsChar : List UInt8 → Prop) (matchRest : Matcher) (bytes : List UInt8)
    (p : List (Elem (List UInt8))) : Prop :=
  ∀ ts : List (List UInt8), (∀ d ∈ ts, IsChar d) → ∃ r, matchRest ts.flatten bytes = .ok r ∧
    Sound E.CharEq r p ts

/-- The recursive calls solve the patterns with fewer wildcards. -/
def SolvesBelow (E : Encoding) (IsChar : List UInt8 → Prop) (matchRest : Matcher) (n : ℕ) : Prop :=
  ∀ cs p, Reads cs p → (∀ c ∈ cs, IsChar c) → anys p < n → Solves E IsChar matchRest cs.flatten p

section

variable (hE : Lawful E IsChar)
include hE

theorem Lawful.exists_cons {c : List UInt8} (hc : IsChar c) : ∃ b bs, c = b :: bs :=
  exists_cons_of_ne_nil (hE.ne_nil hc)

theorem Lawful.nextChar {c : List UInt8} {ts : List (List UInt8)} (hc : IsChar c)
    (hts : ∀ d ∈ ts, IsChar d) :
    E.nextChar (c ++ ts.flatten) = ts.flatten := by
  cases c with
  | nil => exact absurd rfl (hE.ne_nil hc)
  | cons b cs => exact hE.rest hc hts

variable {b : UInt8}

/-- A literal character against a character of the text: the first bytes, then the rest if these
agree. -/
theorem Lawful.lit_spec {d : UInt8} {ds p t : List UInt8} (hc : IsChar (b :: bs))
    (hd : IsChar (d :: ds)) :
    (if E.fold b ≠ E.fold d then .ok .reject else matchLoop E matchRest (bs ++ p) (ds ++ t)) =
      if E.CharEq (b :: bs) (d :: ds) then matchLoop E matchRest p t else .ok .reject := by
  by_cases heq : E.fold b = E.fold d
  · rw [if_neg (not_not.mpr heq), matchLoop_plain (hE.special hc).2 (hE.sync hc hd heq)]
    simp [Encoding.CharEq, heq]
  · simp [Encoding.CharEq, heq]

/-! ## The end of the text -/

/-- A character that is not the wildcard does not start with its byte. -/
theorem Lawful.head_ne {x : UInt8} (hc : IsChar (b :: bs)) (hx : Special x)
    (hne : b :: bs ≠ [x]) : b ≠ x := by
  rintro rfl
  rw [(hE.special hc).1 hx] at hne
  exact hne rfl

theorem Reads.dropWhile_iff {cs : List (List UInt8)} {p : List (Elem (List UInt8))} (h : Reads cs p)
    (hcs : ∀ c ∈ cs, IsChar c) :
    cs.flatten.dropWhile (· = percent) = [] ↔ Matches E.CharEq p [] := by
  induction h with
  | nil => simp [Matches]
  | any _ ih =>
    rw [matches_any_nil, ← ih (forall_mem_cons.1 hcs).2]
    simp
  | one _ _ => simp [underscore, percent]
  | @plain c _ _ _ hany _ _ _ =>
    have hc := hcs c mem_cons_self
    cases c with
    | nil => exact absurd rfl (hE.ne_nil hc)
    | cons b bs => simp [hE.head_ne hc (.inr (.inl rfl)) hany]
  | escaped _ _ => simp [backslash, percent]

/-! ## Behind a wildcard -/

theorem scanText_spec {bytes : List UInt8} {p : List (Elem (List UInt8))}
    (hsolves : Solves E IsChar matchRest bytes (.lit (b :: bs) :: p)) {n : ℕ}
    {ts : List (List UInt8)} (hts : ∀ d ∈ ts, IsChar d) (hn : ts.flatten.length ≤ n) :
    ∃ r, scanText E matchRest (E.fold b) bytes n ts.flatten = .ok r ∧
      Sound E.CharEq r (.any :: .lit (b :: bs) :: p) ts := by
  induction ts generalizing n with
  | nil =>
    refine ⟨.abort, ?_, sound_any_lit_nil⟩
    cases n <;> rfl
  | cons d ts ih =>
    have hd := hts d mem_cons_self
    have hrest : ∀ d ∈ ts, IsChar d := (forall_mem_cons.1 hts).2
    obtain ⟨u, us, rfl⟩ := hE.exists_cons hd
    simp only [flatten_cons, cons_append, length_cons, length_append] at hn
    obtain ⟨n, rfl⟩ : ∃ m, n = m + 1 := ⟨n - 1, by omega⟩
    obtain ⟨r, hr, hsound⟩ := ih hrest (n := n) (by omega)
    rw [flatten_cons, cons_append, scanText, hE.rest hd hrest]
    by_cases heq : E.fold u = E.fold b
    · rw [if_pos heq]
      obtain ⟨r', hr', hsound'⟩ := hsolves _ hts
      rw [flatten_cons, cons_append] at hr'
      rw [hr']
      cases r' with
      | reject => exact ⟨r, hr, hsound.any_skip fun hm => (by cases hsound'.accept.mpr hm)⟩
      | accept => exact ⟨_, rfl, hsound'.any_here (fun h => (by cases h))⟩
      | abort => exact ⟨_, rfl, hsound'.any_here (fun h => (by cases h))⟩
    · rw [if_neg heq]
      refine ⟨r, hr, hsound.any_skip fun hm => heq ?_⟩
      have hchar := (matches_lit_cons.mp hm).1
      exact (cons.inj hchar).1.symm

section Wildcards

variable {n : ℕ} {cs ts : List (List UInt8)} {p : List (Elem (List UInt8))}

/-- A literal of the pattern, escaped or not, against the first character. -/
theorem lit_round (step : Matcher) {d : List UInt8} (hc : IsChar (b :: bs))
    (hts : ∀ x ∈ d :: ts, IsChar x)
    (ih : ∃ r, matchLoop E matchRest cs.flatten ts.flatten = .ok r ∧ Sound E.CharEq r p ts)
    (hstep : ∀ u us, step (u :: us) ts.flatten =
      if E.fold b ≠ E.fold u then .ok .reject
      else matchLoop E matchRest (bs ++ cs.flatten) (us ++ ts.flatten)) :
    ∃ r, step d ts.flatten = .ok r ∧ Sound E.CharEq r (.lit (b :: bs) :: p) (d :: ts) := by
  have hd := hts d mem_cons_self
  obtain ⟨u, us, rfl⟩ := hE.exists_cons hd
  rw [hstep, hE.lit_spec hc hd]
  by_cases heq : E.CharEq (b :: bs) (u :: us)
  · obtain ⟨r, hr, hsound⟩ := ih
    rw [if_pos heq]
    exact ⟨r, hr, hsound.lit heq⟩
  · rw [if_neg heq]
    exact ⟨.reject, rfl, sound_reject fun hm => heq (matches_lit_cons.mp hm).1⟩

section

variable (h : Reads cs p) (hcs : ∀ c ∈ cs, IsChar c)
include h hcs

theorem afterPercent_spec (hrec : SolvesBelow E IsChar matchRest n) (hn : anys p < n)
    (hts : ∀ d ∈ ts, IsChar d) : ∃ r, afterPercent E matchRest cs.flatten ts.flatten = .ok r ∧
    Sound E.CharEq r (.any :: p) ts := by
  induction h generalizing ts with
  | nil => exact ⟨.accept, rfl, sound_accept (matches_any_singleton ts)⟩
  | any _ ih =>
    obtain ⟨r, hr, hsound⟩ := ih (forall_mem_cons.1 hcs).2 (by simp only [anys] at hn; omega) hts
    exact ⟨r, hr, hsound.any_any⟩
  | @one cs p _ ih =>
    have hstep : afterPercent E matchRest ([underscore] :: cs).flatten ts.flatten =
        if ts.flatten = [] then .ok .abort
        else afterPercent E matchRest cs.flatten (E.nextChar ts.flatten) := rfl
    rw [hstep]
    cases ts with
    | nil => exact ⟨.abort, rfl, sound_any_one_nil⟩
    | cons d ts =>
      have hd := hts d mem_cons_self
      have hrest : ∀ d ∈ ts, IsChar d := (forall_mem_cons.1 hts).2
      obtain ⟨r, hr, hsound⟩ := ih (forall_mem_cons.1 hcs).2 hn hrest
      rw [if_neg (by simp [hE.ne_nil hd]), flatten_cons, hE.nextChar hd hrest]
      exact ⟨r, hr, hsound.any_one d⟩
  | @plain c cs p hesc hany hone hreads ih =>
    have hsolves := hrec _ _ (hreads.plain hesc hany hone) hcs hn
    have hc := hcs c mem_cons_self
    obtain ⟨b, bs, rfl⟩ := hE.exists_cons hc
    obtain ⟨r, hr, hsound⟩ := scanText_spec hE hsolves hts le_rfl
    refine ⟨r, ?_, hsound⟩
    rw [← hr, flatten_cons, cons_append]
    conv_lhs => unfold afterPercent
    rw [if_neg (hE.head_ne hc (.inr (.inl rfl)) hany),
      if_neg (hE.head_ne hc (.inr (.inr rfl)) hone), if_neg (hE.head_ne hc (.inl rfl) hesc)]
  | @escaped d cs p hreads ih =>
    have hsolves := hrec _ _ hreads.escaped hcs hn
    obtain ⟨b, bs, rfl⟩ := hE.exists_cons (hcs d (by simp))
    obtain ⟨r, hr, hsound⟩ := scanText_spec hE hsolves hts le_rfl
    exact ⟨r, hr, hsound⟩

theorem matchLoop_nil_text : ∃ r, matchLoop E matchRest cs.flatten [] = .ok r ∧
    Sound E.CharEq r p [] := by
  have hstep : matchLoop E matchRest cs.flatten [] =
      .ok (if cs.flatten.dropWhile (· = percent) = [] then .accept else .abort) := by
    cases cs.flatten <;> rfl
  rw [hstep]
  refine ⟨_, rfl, ?_⟩
  by_cases hm : Matches E.CharEq p []
  · rw [if_pos ((h.dropWhile_iff hE hcs).mpr hm)]
    exact sound_accept hm
  · rw [if_neg fun hdrop => hm ((h.dropWhile_iff hE hcs).mp hdrop)]
    apply sound_abort
    intro s hs
    rwa [suffix_nil.mp hs]

theorem matchLoop_spec (hrec : SolvesBelow E IsChar matchRest n) (hn : anys p ≤ n)
    (hts : ∀ d ∈ ts, IsChar d) : ∃ r, matchLoop E matchRest cs.flatten ts.flatten = .ok r ∧
    Sound E.CharEq r p ts := by
  induction h generalizing ts with
  | nil =>
    refine ⟨_, rfl, ?_⟩
    cases ts with
    | nil => exact sound_accept rfl
    | cons d ts =>
      rw [if_neg (by simp [hE.ne_nil (hts d mem_cons_self)])]
      exact sound_reject (fun hm => (by cases hm))
  | @any cs p hreads ih =>
    cases ts with
    | nil => exact matchLoop_nil_text hE hreads.any hcs
    | cons d ts =>
      obtain ⟨u, us, rfl⟩ := hE.exists_cons (hts d mem_cons_self)
      have hstep : matchLoop E matchRest ([percent] :: cs).flatten ((u :: us) :: ts).flatten =
        afterPercent E matchRest cs.flatten ((u :: us) :: ts).flatten := matchLoop_percent _ _ _
      rw [hstep]
      exact afterPercent_spec hE hreads (forall_mem_cons.1 hcs).2 hrec
        (by simp only [anys] at hn; omega) hts
  | @one cs p hreads ih =>
    cases ts with
    | nil => exact matchLoop_nil_text hE hreads.one hcs
    | cons d ts =>
      have hd := hts d mem_cons_self
      have hrest : ∀ d ∈ ts, IsChar d := (forall_mem_cons.1 hts).2
      obtain ⟨u, us, rfl⟩ := hE.exists_cons hd
      obtain ⟨r, hr, hsound⟩ := ih (forall_mem_cons.1 hcs).2 hn hrest
      refine ⟨r, ?_, hsound.one _⟩
      have hstep : matchLoop E matchRest ([underscore] :: cs).flatten ((u :: us) :: ts).flatten =
        matchLoop E matchRest cs.flatten (E.rest (us ++ ts.flatten)) := matchLoop_underscore _ _ _
      rw [hstep, hE.rest hd hrest, hr]
  | @plain c cs p hesc hany hone hreads ih =>
    cases ts with
    | nil => exact matchLoop_nil_text hE (hreads.plain hesc hany hone) hcs
    | cons d ts =>
      have hc := hcs c mem_cons_self
      obtain ⟨b, bs, rfl⟩ := hE.exists_cons hc
      have hrest := ih (forall_mem_cons.1 hcs).2 hn (forall_mem_cons.1 hts).2
      rw [flatten_cons (l := d)]
      apply lit_round hE
        (fun d t => matchLoop E matchRest ((b :: bs) :: cs).flatten (d ++ t)) hc hts hrest
      intro u us
      rw [flatten_cons, cons_append, cons_append]
      conv_lhs => unfold matchLoop
      rw [if_neg (hE.head_ne hc (.inl rfl) hesc), if_neg (hE.head_ne hc (.inr (.inl rfl)) hany),
        if_neg (hE.head_ne hc (.inr (.inr rfl)) hone)]
  | @escaped c cs p hreads ih =>
    cases ts with
    | nil => exact matchLoop_nil_text hE hreads.escaped hcs
    | cons d ts =>
      have hc := hcs c (by simp)
      obtain ⟨b, bs, rfl⟩ := hE.exists_cons hc
      have hrest := ih (fun c hc => hcs c (by simp [hc])) hn (forall_mem_cons.1 hts).2
      rw [flatten_cons (l := d)]
      apply lit_round hE (fun d t =>
        matchLoop E matchRest ([backslash] :: (b :: bs) :: cs).flatten (d ++ t)) hc hts hrest
      intro u us
      rfl

/-- The pattern of the fast path. -/
theorem Reads.of_percent (heq : cs.flatten = [percent]) : p = [.any] := by
  cases h with
  | nil => cases heq
  | @any cs p hreads =>
    cases hreads with
    | nil => rfl
    | _ => simp_all [hE.ne_nil (hcs _ (mem_cons_of_mem _ mem_cons_self))]
  | one => simp [underscore, percent] at heq
  | @plain c cs p _ hany =>
    have hc := hcs c mem_cons_self
    obtain ⟨b, bs, rfl⟩ := hE.exists_cons hc
    exact absurd (cons.inj heq).1 (hE.head_ne hc (.inr (.inl rfl)) hany)
  | escaped => simp [backslash, percent] at heq

end

theorem matchText_solves (depth : ℕ) : SolvesBelow E IsChar (matchText E depth) depth := by
  induction depth with
  | zero => exact fun cs p _ _ hn => absurd hn (Nat.not_lt_zero _)
  | succ depth ih =>
    intro cs p h hcs hn ts hts
    unfold matchText
    by_cases hfast : cs.flatten = [percent]
    · rw [if_pos hfast, h.of_percent hE hcs hfast]
      exact ⟨.accept, rfl, sound_accept (matches_any_singleton ts)⟩
    · rw [if_neg hfast]
      exact matchLoop_spec hE h hcs ih (by omega) hts

end Wildcards

end

end GreenPipeline.L1.Like
