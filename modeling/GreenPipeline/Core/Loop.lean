import Mathlib.Tactic.Common

/-!
# Loops with a bound

A loop whose body goes on with a new state or leaves with a result, run for a given number of
rounds; and a loop over a list.

Results:

* `mapM_eq_pure_map`: a loop over a list whose body never fails.
* `iterate_spec`: if every round goes on to a smaller state or leaves, as many rounds as the
  measure says are enough, and the result stands in the relation every round carries back.
-/
namespace GreenPipeline.Core.Loop

universe u v

variable {S R : Type*}

/-- At most `n` rounds; `none` if they do not suffice. -/
def iterate (body : S → S ⊕ R) : ℕ → S → Option R
  | 0, _ => none
  | n + 1, s =>
    match body s with
    | .inl s' => iterate body n s'
    | .inr r => some r

variable {body : S → S ⊕ R}

theorem iterate_of_inl {s s' : S} (h : body s = .inl s') (n : ℕ) :
    iterate body (n + 1) s = iterate body n s' := by
  rw [iterate, h]

theorem iterate_of_inr {s : S} {r : R} (h : body s = .inr r) (n : ℕ) :
    iterate body (n + 1) s = some r := by
  rw [iterate, h]

/-- The rule for total correctness: `Inv` holds before each round, `μ` gets smaller, and what the
result of the rest of the loop must satisfy is enough for the round before it. -/
theorem iterate_spec (Inv : S → Prop) (μ : S → ℕ) (Post : S → R → Prop)
    (hround : ∀ s, Inv s →
      (∃ s', body s = .inl s' ∧ Inv s' ∧ μ s' < μ s ∧ ∀ r, Post s' r → Post s r) ∨
      ∃ r, body s = .inr r ∧ Post s r) :
    ∀ {n : ℕ} {s : S}, Inv s → μ s < n → ∃ r, iterate body n s = some r ∧ Post s r := by
  intro n
  induction n with
  | zero =>
    intro s _ hn
    exact absurd hn (Nat.not_lt_zero _)
  | succ n ih =>
    intro s hs hn
    rcases hround s hs with ⟨s', hbody, hs', hlt, hpost⟩ | ⟨r, hbody, hr⟩
    · obtain ⟨r, hrun, hr⟩ := ih hs' (by omega)
      exact ⟨r, by rw [iterate_of_inl hbody, hrun], hpost r hr⟩
    · exact ⟨r, iterate_of_inr hbody n, hr⟩

theorem mapM_eq_pure_map {α : Type*} {β : Type u} {m : Type u → Type v} [Monad m]
    [LawfulMonad m] {f : α → m β} {g : α → β} {l : List α} (h : ∀ a ∈ l, f a = pure (g a)) :
    l.mapM f = pure (l.map g) := by
  induction l with
  | nil => rfl
  | cons a l ih =>
    obtain ⟨ha, hl⟩ := List.forall_mem_cons.1 h
    rw [List.mapM_cons, ha, ih hl, pure_bind, pure_bind, List.map_cons]

end GreenPipeline.Core.Loop
