import Mathlib.Tactic.Common

/-!
# Runs of a labelled transition system

A step function that may refuse a label, the runs along a list of labels
and the rule for invariants.

Results:

* `Invariant.run`: what every step keeps, every run keeps.
-/
namespace GreenPipeline.Core.Lts

variable {S L : Type*} {step : S → L → Option S}

/-- Take the steps named by the labels, in order. -/
def run (step : S → L → Option S) : S → List L → Option S
  | s, [] => some s
  | s, l :: ls => (step s l).bind fun s' => run step s' ls

theorem run_cons {s s' : S} {l : L} {ls : List L} :
    run step s (l :: ls) = some s' ↔ ∃ t, step s l = some t ∧ run step t ls = some s' :=
  Option.bind_eq_some_iff

/-- Every step keeps `Inv`. -/
def Invariant (step : S → L → Option S) (Inv : S → Prop) : Prop :=
  ∀ s l s', Inv s → step s l = some s' → Inv s'

theorem Invariant.run {Inv : S → Prop} (h : Invariant step Inv) {s s' : S} {ls : List L}
    (hs : Inv s) (hrun : run step s ls = some s') : Inv s' := by
  induction ls generalizing s with
  | nil =>
    cases hrun
    exact hs
  | cons l ls ih =>
    obtain ⟨t, hstep, hrest⟩ := run_cons.1 hrun
    exact ih (h s l t hs hstep) hrest

end GreenPipeline.Core.Lts
