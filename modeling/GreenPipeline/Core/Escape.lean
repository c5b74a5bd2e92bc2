import Mathlib.Data.List.Basic

/-!
# Tokens with escaped delimiters

A text is cut into tokens at delimiters, and an escape character takes the
delimiter's meaning away from the character after it. `scan` is the length of the
token at the front of a text, `escape` protects a string and `unescape` removes the
protection.

Results:

* `scan_append`: a text in which every delimiter is escaped is one token.
* `tokenText_escape`, `unescape_escape`: an escaped string is such a text, and gives
  the string back.
-/
namespace GreenPipeline.Core.Escape

open List

variable {α : Type} (delim : α → Bool) (esc : α)

/-! ## Texts that are one token -/

/-- A text in which every delimiter is escaped. -/
inductive TokenText : List α → Prop
  | nil : TokenText []
  | plain (c : α) (t : List α) : delim c = false → c ≠ esc → TokenText t → TokenText (c :: t)
  | escaped (c : α) (t : List α) : TokenText t → TokenText (esc :: c :: t)

/-- Nothing, or a delimiter first. -/
def Ends (r : List α) : Prop := r = [] ∨ ∃ c t, r = c :: t ∧ delim c = true

section
variable {delim esc}

theorem TokenText.append {t u : List α} (ht : TokenText delim esc t) (hu : TokenText delim esc u) :
    TokenText delim esc (t ++ u) := by
  induction ht with
  | nil => exact hu
  | plain c t hc hne _ ih => exact .plain c _ hc hne ih
  | escaped c t _ ih => exact .escaped c _ ih

theorem tokenText_of_forall {t : List α} (h : ∀ c ∈ t, delim c = false ∧ c ≠ esc) :
    TokenText delim esc t := by
  induction t with
  | nil => exact .nil
  | cons c t ih =>
    obtain ⟨hc, hne⟩ := h c mem_cons_self
    exact .plain c t hc hne (ih (forall_mem_cons.1 h).2)

/-- A token text does not start with a delimiter. -/
theorem TokenText.head (hesc : delim esc = false) {c : α} {t : List α}
    (h : TokenText delim esc (c :: t)) : delim c = false := by
  cases h with
  | plain _ _ hc => exact hc
  | escaped => exact hesc

end

/-! ## Scanning and escaping -/

variable [DecidableEq α]

/-- The length of the token at the front. An escape at the very end stands for itself. -/
def scan : List α → Nat
  | [] => 0
  | [c] => if delim c then 0 else 1
  | c :: d :: t =>
    if delim c then 0
    else if c = esc then 2 + scan t
    else 1 + scan (d :: t)

def unescape : List α → List α
  | [] => []
  | [c] => [c]
  | c :: d :: t => if c = esc then d :: unescape t else c :: unescape (d :: t)

def escape (s : List α) : List α := s.flatMap fun c => if delim c || c == esc then [esc, c] else [c]

variable {delim esc}

theorem scan_of_ends {r : List α} (h : Ends delim r) : scan delim esc r = 0 := by
  obtain rfl | ⟨c, t, rfl, hc⟩ := h
  · rfl
  · cases t with
    | nil => rw [scan, if_pos hc]
    | cons d t => rw [scan, if_pos hc]

theorem scan_plain {c : α} (hc : delim c = false) (hne : c ≠ esc) (t : List α) :
    scan delim esc (c :: t) = 1 + scan delim esc t := by
  cases t with
  | nil => simp [scan, hc]
  | cons d t => simp [scan, hc, hne]

theorem scan_append (hesc : delim esc = false) {t r : List α} (ht : TokenText delim esc t)
    (hr : Ends delim r) :
    scan delim esc (t ++ r) = t.length := by
  induction ht with
  | nil => exact scan_of_ends hr
  | plain c t hc hne _ ih => rw [cons_append, scan_plain hc hne, ih, length_cons, Nat.add_comm]
  | escaped c t _ ih =>
    rw [cons_append, cons_append, scan, if_neg (by simp [hesc]), if_pos rfl, ih,
      length_cons, length_cons]
    omega

variable (delim esc) in
theorem escape_cons (c : α) (s : List α) :
    escape delim esc (c :: s) =
      (if delim c || c == esc then [esc, c] else [c]) ++ escape delim esc s := by
  rw [escape, flatMap_cons, escape]

theorem escape_cons_plain {c : α} (hc : delim c = false) (hne : c ≠ esc) (s : List α) :
    escape delim esc (c :: s) = c :: escape delim esc s := by
  rw [escape_cons, if_neg (by simp [hc, hne]), singleton_append]

theorem tokenText_escape (s : List α) : TokenText delim esc (escape delim esc s) := by
  induction s with
  | nil => exact .nil
  | cons c s ih =>
    rw [escape_cons]
    split
    · exact .escaped c _ ih
    · next h =>
      simp only [Bool.or_eq_true, beq_iff_eq, not_or, Bool.not_eq_true] at h
      exact .plain c _ h.1 h.2 ih

theorem unescape_plain {c : α} (hne : c ≠ esc) (t : List α) :
    unescape esc (c :: t) = c :: unescape esc t := by
  cases t with
  | nil => rfl
  | cons d t => rw [unescape, if_neg hne]

variable (esc) in
theorem unescape_escaped (c : α) (t : List α) :
    unescape esc (esc :: c :: t) = c :: unescape esc t := by
  rw [unescape, if_pos rfl]

theorem unescape_escape (s : List α) : unescape esc (escape delim esc s) = s := by
  induction s with
  | nil => rfl
  | cons c s ih =>
    rw [escape_cons]
    split
    · rw [cons_append, singleton_append, unescape_escaped, ih]
    · next h =>
      simp only [Bool.or_eq_true, beq_iff_eq, not_or] at h
      rw [singleton_append, unescape_plain h.2, ih]

end GreenPipeline.Core.Escape
