import Mathlib.Data.List.Infix

/-!
# Patterns with wildcards

A pattern is a list of elements: any sequence, exactly one character, or a given character. A text
matches if it splits accordingly. A search with backtracking has three outcomes; `abort` says that
no suffix of the text matches either, so that a search from later places is in vain.

Results:

* `Sound`: what an outcome says about a pattern and a text.
* `Sound.one`, `Sound.lit`, `Sound.any_any`, `Sound.any_one`, `Sound.any_skip`: the outcome for a
  pattern from the one for its rest.
-/
namespace GreenPipeline.Core.Wildcard

open List

inductive Elem (χ : Type*)
  | any
  | one
  | lit (c : χ)
  deriving DecidableEq, Repr

inductive Outcome
  | accept
  | reject
  | abort
  deriving DecidableEq, Repr

variable {χ : Type*}

/-- The text splits according to the pattern. -/
def Matches (eq : χ → χ → Prop) : List (Elem χ) → List χ → Prop
  | [], t => t = []
  | .any :: p, t => ∃ u v, t = u ++ v ∧ Matches eq p v
  | .one :: p, t => ∃ c v, t = c :: v ∧ Matches eq p v
  | .lit a :: p, t => ∃ c v, t = c :: v ∧ eq a c ∧ Matches eq p v

/-- The number of wildcards for any sequence. -/
def anys : List (Elem χ) → ℕ
  | [] => 0
  | .any :: p => anys p + 1
  | .one :: p => anys p
  | .lit _ :: p => anys p

/-- An outcome for a pattern and a text. -/
structure Sound (eq : χ → χ → Prop) (r : Outcome) (p : List (Elem χ)) (t : List χ) : Prop where
  accept : r = .accept ↔ Matches eq p t
  abort : r = .abort → ∀ s, s <:+ t → ¬ Matches eq p s

variable {eq : χ → χ → Prop} {r : Outcome} {p : List (Elem χ)} {a c : χ} {t : List χ}

/-! ## Matching -/

@[simp] theorem matches_one_cons : Matches eq (.one :: p) (c :: t) ↔ Matches eq p t := by
  constructor
  · rintro ⟨_, _, heq, h⟩
    obtain ⟨-, rfl⟩ := cons.inj heq
    exact h
  · intro h
    exact ⟨c, t, rfl, h⟩

@[simp] theorem matches_lit_cons : Matches eq (.lit a :: p) (c :: t) ↔ eq a c ∧ Matches eq p t := by
  constructor
  · rintro ⟨_, _, heq, h⟩
    obtain ⟨rfl, rfl⟩ := cons.inj heq
    exact h
  · intro h
    exact ⟨c, t, rfl, h⟩

@[simp] theorem not_matches_one_nil : ¬ Matches eq (.one :: p) [] := by
  rintro ⟨c, v, heq, -⟩
  cases heq

@[simp] theorem not_matches_lit_nil : ¬ Matches eq (.lit a :: p) [] := by
  rintro ⟨c, v, heq, -⟩
  cases heq

theorem matches_any_nil : Matches eq (.any :: p) [] ↔ Matches eq p [] := by
  constructor
  · rintro ⟨u, v, heq, h⟩
    obtain ⟨-, rfl⟩ := append_eq_nil_iff.mp heq.symm
    exact h
  · intro h
    exact ⟨[], [], rfl, h⟩

/-- Either nothing is skipped, or the first character is. -/
theorem matches_any_cons : Matches eq (.any :: p) (c :: t) ↔ Matches eq p (c :: t) ∨
    Matches eq (.any :: p) t := by
  constructor
  · rintro ⟨u, v, heq, h⟩
    cases u with
    | nil =>
      left
      rwa [heq]
    | cons d u =>
      right
      exact ⟨u, v, (cons.inj heq).2, h⟩
  · rintro (h | ⟨u, v, rfl, h⟩)
    · exact ⟨[], c :: t, rfl, h⟩
    · exact ⟨c :: u, v, rfl, h⟩

theorem matches_any_any : Matches eq (.any :: .any :: p) t ↔ Matches eq (.any :: p) t := by
  constructor
  · rintro ⟨u, _, rfl, u', v, rfl, h⟩
    exact ⟨u ++ u', v, by rw [append_assoc], h⟩
  · intro h
    exact ⟨[], t, rfl, h⟩

/-- One character more before the wildcard is one character more behind it. -/
theorem matches_any_one : Matches eq (.any :: .one :: p) t ↔ Matches eq (.one :: .any :: p) t := by
  constructor
  · rintro ⟨u, _, rfl, c, v, rfl, h⟩
    cases u with
    | nil => exact ⟨c, v, rfl, [], v, rfl, h⟩
    | cons d u => exact ⟨d, u ++ c :: v, rfl, u ++ [c], v, by rw [append_assoc]; rfl, h⟩
  · rintro ⟨c, _, rfl, u, v, rfl, h⟩
    rcases eq_nil_or_concat' u with rfl | ⟨u, d, rfl⟩
    · exact ⟨[], c :: v, rfl, c, v, rfl, h⟩
    · exact ⟨c :: u, d :: v, by rw [append_assoc]; rfl, d, v, rfl, h⟩

theorem matches_any_singleton (t : List χ) : Matches eq [.any] t :=
  ⟨t, [], (append_nil t).symm, rfl⟩

/-- A suffix of a text is the text, or a suffix of what is behind its first character. -/
theorem tail_suffix {d : χ} {s : List χ} (h : d :: s <:+ c :: t) : s <:+ t := by
  rcases suffix_cons_iff.mp h with heq | hsuffix
  · rw [(cons.inj heq).2]
  · exact (suffix_cons d s).trans hsuffix

/-! ## Outcomes -/

theorem Sound.congr {p' : List (Elem χ)} (h : Sound eq r p t)
    (hiff : ∀ s, Matches eq p s ↔ Matches eq p' s) : Sound eq r p' t :=
  ⟨h.accept.trans (hiff t), fun hr s hs hm => h.abort hr s hs ((hiff s).mpr hm)⟩

theorem sound_reject (h : ¬ Matches eq p t) : Sound eq .reject p t :=
  ⟨iff_of_false (fun h => (by cases h)) h, fun h => (by cases h)⟩

theorem sound_accept (h : Matches eq p t) : Sound eq .accept p t :=
  ⟨iff_of_true rfl h, fun h => (by cases h)⟩

theorem sound_abort (h : ∀ s, s <:+ t → ¬ Matches eq p s) : Sound eq .abort p t :=
  ⟨iff_of_false (fun h => (by cases h)) (h t suffix_rfl), fun _ => h⟩

theorem Sound.one (h : Sound eq r p t) (c : χ) : Sound eq r (.one :: p) (c :: t) := by
  refine ⟨h.accept.trans matches_one_cons.symm, fun hr s hs hm => ?_⟩
  obtain ⟨d, v, rfl, hm⟩ := hm
  exact h.abort hr v (tail_suffix hs) hm

theorem Sound.lit (h : Sound eq r p t) (hac : eq a c) : Sound eq r (.lit a :: p) (c :: t) := by
  refine ⟨h.accept.trans ?_, fun hr s hs hm => ?_⟩
  · rw [matches_lit_cons, and_iff_right hac]
  · obtain ⟨d, v, rfl, -, hm⟩ := hm
    exact h.abort hr v (tail_suffix hs) hm

theorem Sound.any_any (h : Sound eq r (.any :: p) t) : Sound eq r (.any :: .any :: p) t :=
  h.congr fun _ => matches_any_any.symm

theorem Sound.any_one (h : Sound eq r (.any :: p) t) (c : χ) :
    Sound eq r (.any :: .one :: p) (c :: t) := (h.one c).congr fun _ => matches_any_one.symm

/-- Not even the empty suffix is left. -/
theorem sound_any_one_nil : Sound eq .abort (.any :: .one :: p) [] := by
  apply sound_abort
  intro s hs
  rw [suffix_nil.mp hs, matches_any_one]
  exact not_matches_one_nil

theorem sound_any_lit_nil : Sound eq .abort (.any :: .lit a :: p) [] := by
  apply sound_abort
  intro s hs
  rw [suffix_nil.mp hs, matches_any_nil]
  exact not_matches_lit_nil

/-- The search goes on behind a place that does not match. -/
theorem Sound.any_skip (h : Sound eq r (.any :: p) t) (hno : ¬ Matches eq p (c :: t)) :
    Sound eq r (.any :: p) (c :: t) := by
  have hiff : Matches eq (.any :: p) (c :: t) ↔ Matches eq (.any :: p) t := by
    rw [matches_any_cons, or_iff_right hno]
  refine ⟨h.accept.trans hiff.symm, fun hr s hs hm => ?_⟩
  rcases suffix_cons_iff.mp hs with rfl | hs
  · exact h.abort hr t suffix_rfl (hiff.mp hm)
  · exact h.abort hr s hs hm

/-- The search ends where it is decided. -/
theorem Sound.any_here (h : Sound eq r p t) (hr : r ≠ .reject) : Sound eq r (.any :: p) t := by
  cases r with
  | reject => exact absurd rfl hr
  | accept => exact sound_accept ⟨[], t, rfl, h.accept.mp rfl⟩
  | abort =>
    apply sound_abort
    rintro s hs ⟨u, v, rfl, hm⟩
    exact h.abort rfl v ((suffix_append u v).trans hs) hm

end GreenPipeline.Core.Wildcard
