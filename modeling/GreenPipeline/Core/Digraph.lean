import Mathlib.Data.Fintype.Card
import Mathlib.Data.Set.Finite.Basic
import Mathlib.Logic.Relation
import Mathlib.Order.WellFounded
import Mathlib.Tactic.Common

/-!
# Cycles of a directed graph

Results:

* `exists_cycle`: a finite set in which every vertex has a successor contains a cycle.
-/
namespace GreenPipeline.Core.Digraph

open Relation

variable {α : Type*} {R : α → α → Prop}

theorem exists_cycle {U : Set α} (hfin : U.Finite) (hne : U.Nonempty)
    (hsucc : ∀ a ∈ U, ∃ b ∈ U, R a b) : ∃ a ∈ U, TransGen R a a := by
  by_contra hno
  have hacyclic : ∀ a ∈ U, ¬ TransGen R a a := fun a ha hcycle => hno ⟨a, ha, hcycle⟩
  have : Finite U := hfin
  have : Std.Irrefl (fun b a : U => TransGen R a.1 b.1) := ⟨fun a hcycle => hacyclic a.1 a.2 hcycle⟩
  have hwf : WellFounded (fun b a : U => TransGen R a.1 b.1) :=
    Finite.wellFounded_of_trans_of_irrefl _
  -- a vertex without successors would be reached
  obtain ⟨a, ha⟩ := hne
  obtain ⟨m, -, hmin⟩ := hwf.has_min Set.univ ⟨⟨a, ha⟩, Set.mem_univ _⟩
  obtain ⟨b, hb, hmb⟩ := hsucc m.1 m.2
  exact hmin ⟨b, hb⟩ (Set.mem_univ _) (TransGen.single hmb)

end GreenPipeline.Core.Digraph
