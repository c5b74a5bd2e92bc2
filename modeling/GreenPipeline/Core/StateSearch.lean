import Mathlib.Tactic.Common

/-!
# Searches that change a state and stop at the first success

A search is a function from a state to an answer and a new state. The rules below say
what holds after a search that failed, and what after one that succeeded, for a sequence
of searches in terms of its parts: a failure extends the state by a relation `R` and
leaves `Q`, a success relates the two states by `T`.

Results:

* `Searches.orElse`: one search after another.
* `Searches.searchAny`: one search for each element of a list.
-/
namespace GreenPipeline.Core.StateSearch

variable {α σ : Type*}

/-- The second search runs if the first one failed. -/
def orElse (f g : σ → Bool × σ) (s : σ) : Bool × σ :=
  match f s with
  | (true, s) => (true, s)
  | (false, s) => g s

/-- The elements of the list, in turn, until one succeeds. -/
def searchAny (f : α → σ → Bool × σ) : List α → σ → Bool × σ
  | [], s => (false, s)
  | a :: l, s => orElse (f a) (searchAny f l) s

/-- From a state with `I`: a failure keeps `I`, extends the state and leaves `Q`. -/
structure Searches (I : σ → Prop) (R T : σ → σ → Prop) (f : σ → Bool × σ)
    (Q : σ → Prop) : Prop where
  fails : ∀ {s s'}, I s → f s = (false, s') → I s' ∧ R s s' ∧ Q s'
  finds : ∀ {s s'}, I s → f s = (true, s') → T s s'

/-- Extensions compose, with each other and with a success after them. -/
structure Extension (R T : σ → σ → Prop) : Prop where
  refl : ∀ s, R s s
  trans : ∀ {s₁ s₂ s₃}, R s₁ s₂ → R s₂ s₃ → R s₁ s₃
  finds : ∀ {s₁ s₂ s₃}, R s₁ s₂ → T s₂ s₃ → T s₁ s₃

variable {I : σ → Prop} {R T : σ → σ → Prop}

theorem Searches.imp {f : σ → Bool × σ} {Q Q' : σ → Prop} (h : Searches I R T f Q)
    (himp : ∀ s, Q s → Q' s) : Searches I R T f Q' :=
  ⟨fun hI hf => ⟨(h.fails hI hf).1, (h.fails hI hf).2.1, himp _ (h.fails hI hf).2.2⟩, h.finds⟩

theorem Searches.fail (hext : Extension R T) {Q : σ → Prop} (hQ : ∀ s, I s → Q s) :
    Searches I R T (fun s => (false, s)) Q := by
  refine ⟨fun {s s'} hI hf => ?_, fun hI hf => by cases hf⟩
  cases hf
  exact ⟨hI, hext.refl s, hQ s hI⟩

theorem Searches.orElse (hext : Extension R T) {f g : σ → Bool × σ} {Q Q' : σ → Prop}
    (hf : Searches I R T f Q) (hg : Searches I R T g Q') (hmono : ∀ {s s'}, R s s' → Q s → Q s') :
    Searches I R T (orElse f g) (fun s => Q s ∧ Q' s) := by
  constructor
  · intro s s' hI h
    unfold StateSearch.orElse at h
    split at h
    · cases h
    · rename_i s₁ h₁
      obtain ⟨hI₁, hR₁, hQ⟩ := hf.fails hI h₁
      obtain ⟨hI₂, hR₂, hQ'⟩ := hg.fails hI₁ h
      exact ⟨hI₂, hext.trans hR₁ hR₂, hmono hR₂ hQ, hQ'⟩
  · intro s s' hI h
    unfold StateSearch.orElse at h
    split at h
    · rename_i s₁ h₁
      cases h
      exact hf.finds hI h₁
    · rename_i s₁ h₁
      obtain ⟨hI₁, hR₁, -⟩ := hf.fails hI h₁
      exact hext.finds hR₁ (hg.finds hI₁ h)

theorem Searches.searchAny (hext : Extension R T) {f : α → σ → Bool × σ}
    {Q : α → σ → Prop} {l : List α} (hf : ∀ a ∈ l, Searches I R T (f a) (Q a))
    (hmono : ∀ a {s s'}, R s s' → Q a s → Q a s') :
    Searches I R T (searchAny f l) (fun s => ∀ a ∈ l, Q a s) := by
  induction l with
  | nil => exact .fail hext fun s _ a ha => by cases ha
  | cons a l ih =>
    have htail := ih (List.forall_mem_cons.1 hf).2
    refine ((hf a List.mem_cons_self).orElse hext htail (hmono a)).imp fun s hs b hb => ?_
    obtain rfl | hb := List.mem_cons.1 hb
    · exact hs.1
    · exact hs.2 b hb

end GreenPipeline.Core.StateSearch
