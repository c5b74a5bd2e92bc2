import Mathlib.Data.List.Range
import GreenPipeline.Core.Digraph
import GreenPipeline.L5Concurrency.TopoSort

/-!
# What order `TopoSort` produces

The second phase takes whole groups, from the end of the queue to its front. `Avail`
says at which positions the function may take a group, `Emits` that it takes the
greatest one each time, and `Outcome` how that ends.

The positions of a group other than its last are not kept back if the group is only a
waiter. Such a group is taken as soon as one of them is the greatest available
position, although groups that must stand behind it may not have been taken yet.

Sources: `src/backend/storage/lmgr/deadlock.c`.

Results:

* `topoSort_outcome`: the loop is a run of the abstract choice, to its end.
* `adjacent_flatMap_block`: the members of a group are output side by side.
* `topoSort_adjacent`: the order returned is a rearrangement of the queue.
* `exists_avail_or_cyclic`: it fails only if the constraints contradict each other.
* `ordered_of_waitersInFront`, `waitersInFront_of_ordered`: when the groups are taken in
  an order that was asked for.
* `topoSort_honours_iff`: when the answer is right.
* `expandConstraints_adjacent`: every order given to the cycle search is a rearrangement
  with its groups side by side.
-/
namespace GreenPipeline.L5.TopoSort

open Relation GreenPipeline.Core.Digraph List Nat

/-! ## Taking the groups -/

section
variable {P L : Type} (G : LockGroups P) (queue : List P)

section
variable (constraints : List (Edge G L))

/-- A position at which a group may be taken after the groups of `gs`: the last position of a
group when nothing must still come after it, or another position of a group that is
no blocker. -/
def Avail (gs : List P) (x : Nat) : Prop :=
  ∃ g, groupAt G queue x = some g ∧ g ∉ gs ∧
    ((LastOf G queue g x ∧ ∀ b, Relevant G queue constraints g b → b ∈ gs) ∨
      (¬ LastOf G queue g x ∧ ∀ w, ¬ Relevant G queue constraints w g))

/-- The groups taken so far, the latest first: each at the greatest position available. -/
inductive Emits : List P → Prop
  | nil : Emits []
  | cons {gs : List P} {g : P} {j : Nat} : Emits gs → groupAt G queue j = some g →
      Avail G queue constraints gs j →
      (∀ x, Avail G queue constraints gs x → x ≤ j) → Emits (g :: gs)

end

variable {G queue} {constraints : List (Edge G L)}

section

variable {gs : List P} {g : P} (h : Emits G queue constraints (g :: gs))
include h

theorem Emits.not_mem : g ∉ gs := by
  cases h with
  | cons _ hj havail _ =>
    obtain ⟨g', hg', hmem, -⟩ := havail
    cases hj.symm.trans hg'
    exact hmem

theorem Emits.tail : Emits G queue constraints gs := by
  cases h with
  | cons h _ _ _ => exact h

end

theorem Emits.nodup {gs : List P} (h : Emits G queue constraints gs) : gs.Nodup := by
  induction gs with
  | nil => exact nodup_nil
  | cons g gs ih => exact nodup_cons.2 ⟨h.not_mem, ih h.tail⟩

theorem Emits.waits {gs : List P} {g : P} (h : Emits G queue constraints gs) (hg : g ∈ gs) :
    Waits G queue g := by
  induction h with
  | nil => cases hg
  | cons _ hj _ _ ih =>
    obtain rfl | hg := mem_cons.1 hg
    · exact ⟨_, hj⟩
    · exact ih hg

variable [DecidableEq P]

/-- The members of a group as they are output. -/
def block (G : LockGroups P) (queue : List P) (g : P) : List P :=
  (queue.filter (G.leader · = g)).reverse

/-- The output is made of the members of the groups taken. -/
theorem perm_flatMap_block {gs : List P} (h : gs.Nodup) :
    (gs.flatMap (block G queue)).Perm (queue.filter (G.leader · ∈ gs)) := by
  induction gs with
  | nil => simp
  | cons g gs ih =>
    obtain ⟨hmem, hnodup⟩ := nodup_cons.1 h
    have hsplit := filter_append_perm (G.leader · = g) (queue.filter (G.leader · ∈ g :: gs))
    rw [filter_filter, filter_filter] at hsplit
    refine List.Perm.trans ?_ hsplit
    refine List.Perm.append ((reverse_perm _).trans (.of_eq ?_)) ((ih hnodup).trans (.of_eq ?_))
    · refine filter_congr fun p _ => ?_
      by_cases hp : G.leader p = g <;> simp [hp]
    · refine filter_congr fun p _ => ?_
      by_cases hp : G.leader p = g
      · simp [hp, hmem]
      · simp [hp]

/-- Everything is output exactly when every group was taken. -/
theorem length_flatMap_block {gs : List P} (h : gs.Nodup) :
    (gs.flatMap (block G queue)).length = queue.length ↔
    ∀ x g, groupAt G queue x = some g → g ∈ gs := by
  rw [(perm_flatMap_block h).length_eq, length_filter_eq_length_iff]
  constructor
  · intro hall x g hx
    obtain ⟨p, hp, rfl⟩ := Option.map_eq_some_iff.1 hx
    exact of_decide_eq_true (hall p (mem_of_getElem? hp))
  · intro hall p hp
    obtain ⟨x, hx⟩ := mem_iff_getElem?.1 hp
    exact decide_eq_true (hall x _ (by rw [groupAt, hx]; rfl))

end

/-! ## One round -/

section
variable {P : Type} {G : LockGroups P}

theorem filterMap_range_getElem? (l : List P) (q : P → Bool) (n : Nat) :
    ((List.range n).filterMap fun c => l[c]?.filter q) = (l.take n).filter q := by
  induction n with
  | zero => simp
  | succ n ih =>
    rw [range_succ, filterMap_append, ih, take_add_one, filter_append]
    congr 1
    rw [filterMap_cons, filterMap_nil]
    cases l[n]? with
    | none => rfl
    | some p => cases hq : q p <;> simp [Option.filter, hq]

variable [DecidableEq P]

theorem emitAt_eq (proc : P) (s : TopoState P) (c : Nat) : emitAt G proc s c = { s with
        topoProcs := Function.update s.topoProcs c ((s.topoProcs c).filter (!G.inGroup · proc))
        ordering := ((s.topoProcs c).filter (G.inGroup · proc)).toList ++ s.ordering } := by
  unfold emitAt
  cases hc : s.topoProcs c with
  | none =>
    have hsame : Function.update s.topoProcs c none = s.topoProcs := by
      rw [← hc, Function.update_eq_self]
    simp [hsame]
  | some p =>
    cases hp : G.inGroup p proc with
    | true => simp [Option.filter, hp]
    | false =>
      have hsame : Function.update s.topoProcs c (some p) = s.topoProcs := by
        rw [← hc, Function.update_eq_self]
      simp [Option.filter, hp, hsame]

/-- The loop over `c` takes the members of the group out of `topoProcs`. -/
theorem foldl_emitAt (proc : P) (n : Nat) (s : TopoState P) :
    (List.range n).foldl (emitAt G proc) s = { s with
        topoProcs :=
  fun x => if x < n then (s.topoProcs x).filter (!G.inGroup · proc) else s.topoProcs x
        ordering :=
          ((range n).filterMap fun c => (s.topoProcs c).filter (G.inGroup · proc)).reverse ++
            s.ordering } := by
  induction n with
  | zero => simp
  | succ n ih =>
    rw [range_succ, foldl_append, ih, foldl_cons, foldl_nil, emitAt_eq, filterMap_append]
    simp only [lt_irrefl, if_false]
    congr 1
    · funext x
      by_cases hx : x = n
      · subst hx
        rw [Function.update_self, if_pos (lt_succ_self x)]
      · have hstep : x < n ↔ x < n + 1 := by omega
        rw [Function.update_of_ne hx]
        simp only [hstep]
    · rw [reverse_append, append_assoc]
      congr 1
      cases h : (s.topoProcs n).filter (G.inGroup · proc) <;> simp [h]

theorem filter_take_eq {queue : List P} {g : P} {n : Nat}
    (h : ∀ x, groupAt G queue x = some g → x < n) :
    (queue.take n).filter (G.leader · = g) = queue.filter (G.leader · = g) := by
  have hdrop : (queue.drop n).filter (G.leader · = g) = [] := by
    rw [filter_eq_nil_iff]
    intro p hp hg
    obtain ⟨i, hi⟩ := mem_iff_getElem?.1 hp
    rw [getElem?_drop] at hi
    have hlt := h (n + i) (by rw [groupAt, hi, Option.map_some, of_decide_eq_true hg])
    omega
  conv_rhs => rw [← take_append_drop n queue, filter_append, hdrop, append_nil]

end

variable {x : Nat}

section
variable {P L : Type} [DecidableEq P] {G : LockGroups P} {queue : List P}
  {constraints : List (Edge G L)}

/-- What holds between two rounds of the second phase. -/
structure Inv (queue : List P) (constraints : List (Edge G L)) (ws : Workspace) (gs : List P)
    (s : TopoState P) : Prop where
  emits : Emits G queue constraints gs
  topoProcs : ∀ x, s.topoProcs x = queue[x]?.filter (G.leader · ∉ gs)
  ordering : s.ordering = gs.flatMap (block G queue)
  before_last : ∀ g j, LastOf G queue g j → g ∉ gs → s.before j = pending queue constraints gs g
  before_other : ∀ g x, groupAt G queue x = some g → ¬ LastOf G queue g x → s.before x = ws.before x
  last : ∀ x g, groupAt G queue x = some g → g ∉ gs → x ≤ s.last

variable {ws : Workspace} {gs : List P} {s : TopoState P}

section

variable (h : Inv queue constraints ws gs s)
include h

theorem Inv.topoProcs_ne_none :
    s.topoProcs x ≠ none ↔ ∃ g, groupAt G queue x = some g ∧ g ∉ gs := by
  rw [h.topoProcs, groupAt]
  cases queue[x]? with
  | none => simp
  | some p => by_cases hp : G.leader p ∈ gs <;> simp [Option.filter, hp]

/-- The test of the candidate search. -/
theorem Inv.avail_iff (hcount : Counted queue constraints ws) (x : Nat) :
    ((s.topoProcs x).isSome && s.before x == 0) = true ↔ Avail G queue constraints gs x := by
  rw [Bool.and_eq_true, Option.isSome_iff_ne_none, h.topoProcs_ne_none, beq_iff_eq]
  constructor
  · rintro ⟨⟨g, hg, hmem⟩, hzero⟩
    refine ⟨g, hg, hmem, ?_⟩
    by_cases hlast : LastOf G queue g x
    · rw [h.before_last g x hlast hmem, Int.natCast_eq_zero,
        pending_eq_zero_iff hlast.waits] at hzero
      exact .inl ⟨hlast, hzero⟩
    · rw [h.before_other g x hg hlast] at hzero
      refine .inr ⟨hlast, fun w hw => ?_⟩
      rw [hcount.marked g x hg hlast w hw] at hzero
      cases hzero
  · rintro ⟨g, hg, hmem, ⟨hlast, hall⟩ | ⟨hlast, hno⟩⟩
    · refine ⟨⟨g, hg, hmem⟩, ?_⟩
      rw [h.before_last g x hlast hmem, (pending_eq_zero_iff hlast.waits).2 hall]
      rfl
    · refine ⟨⟨g, hg, hmem⟩, ?_⟩
      rw [h.before_other g x hg hlast]
      exact hcount.unmarked g x hg hlast hno

/-- `last` still bounds what is left after the null positions were skipped. -/
theorem Inv.skip : Inv queue constraints ws gs { s with last := skipNull s.topoProcs s.last } :=
  ⟨h.emits, h.topoProcs, h.ordering, h.before_last, h.before_other, fun x g hx hmem =>
    (skipNull_spec (h.last x g hx hmem) (h.topoProcs_ne_none.2 ⟨g, hx, hmem⟩)).1⟩

end

variable {j : Nat}

/-- The candidate search finds the greatest position that is available. -/
theorem Inv.candidate (h : Inv queue constraints ws gs s) (hcount : Counted queue constraints ws)
    (hj : lastMatch (fun j => (s.topoProcs j).isSome && s.before j == 0) (s.last + 1) = some j) :
    Avail G queue constraints gs j ∧ ∀ x, Avail G queue constraints gs x → x ≤ j := by
  obtain ⟨-, htest, hmax⟩ := lastMatch_eq_some_iff.1 hj
  refine ⟨(h.avail_iff hcount j).1 htest, fun x hx => ?_⟩
  by_contra hlt
  have hfalse := hmax x (by omega) (by
    obtain ⟨g, hg, hmem, -⟩ := hx
    exact lt_succ_of_le (h.last x g hg hmem))
  rw [(h.avail_iff hcount x).2 hx] at hfalse
  cases hfalse

section

variable (h : Inv queue constraints ws gs s) (hcount : Counted queue constraints ws)
include h hcount

theorem Inv.no_candidate
    (hnone : lastMatch (fun j => (s.topoProcs j).isSome && s.before j == 0) (s.last + 1) = none)
    (x : Nat) :
    ¬ Avail G queue constraints gs x := by
  intro hx
  obtain ⟨g, hg, hmem, -⟩ := id hx
  have hfalse := lastMatch_eq_none_iff.1 hnone x (lt_succ_of_le (h.last x g hg hmem))
  rw [(h.avail_iff hcount x).2 hx] at hfalse
  cases hfalse

/-- Taking the group of the candidate `j`. -/
theorem Inv.emit {g : P} (hg : groupAt G queue j = some g) (havail : Avail G queue constraints gs j)
    (hmax : ∀ x, Avail G queue constraints gs x → x ≤ j) :
    let s' := (range (s.last + 1)).foldl (emitAt G g) s
    Inv queue constraints ws (g :: gs)
      { s' with before := releaseAfter s'.before (ws.after j) } := by
  have hemits := Emits.cons h.emits hg havail hmax
  have hmem := hemits.not_mem
  have hlead : G.leader g = g := by
    obtain ⟨p, -, rfl⟩ := Option.map_eq_some_iff.1 hg
    exact G.leader_leader p
  have hin : ∀ p, G.inGroup p g = decide (G.leader p = g) := fun p => by
    rw [Bool.eq_iff_iff, G.inGroup_iff hlead, decide_eq_true_eq]
  intro s'
  have hs' : s' = _ := foldl_emitAt g (s.last + 1) s
  rw [hs']
  refine ⟨hemits, fun x => ?_, ?_, fun k m hm hk => ?_, fun k x hk hlast => ?_, fun x k hx hk => ?_⟩
  · simp only [h.topoProcs, hin]
    cases hx : queue[x]? with
    | none => simp
    | some p =>
      by_cases hp : G.leader p = g
      · have hlt : x < s.last + 1 :=
          lt_succ_of_le (h.last x g (by rw [groupAt, hx, Option.map_some, hp]) hmem)
        simp [hlt, hp, hmem, Option.filter]
      · by_cases hp' : G.leader p ∈ gs <;> simp [hp, hp', Option.filter]
  · have hblock : ((range (s.last + 1)).filterMap fun c => (s.topoProcs c).filter (G.inGroup · g)) =
        queue.filter (G.leader · = g) := by
      rw [← filter_take_eq fun x hx => lt_succ_of_le (h.last x g hx hmem),
        ← filterMap_range_getElem?]
      congr 1
      funext c
      rw [h.topoProcs]
      simp only [hin]
      cases queue[c]? with
      | none => rfl
      | some p =>
        by_cases hp : G.leader p = g
        · simp [Option.filter, hp, hmem]
        · by_cases hp' : G.leader p ∈ gs <;> simp [Option.filter, hp, hp']
    dsimp only
    rw [hblock, h.ordering]
    rfl
  · have hk' : k ∉ gs := fun hcontra => hk (mem_cons_of_mem _ hcontra)
    dsimp only
    rw [releaseAfter_apply, h.before_last k m hm hk', pending_cons ⟨j, hg⟩ hmem]
    suffices hcnt : (ws.after j).count m = between constraints k g by omega
    by_cases hlast : LastOf G queue g j
    · exact hcount.after g j k m hlast hm
    · -- a position that is not the last has no list, and its group is no blocker
      obtain ⟨g', hg', -, hcase⟩ := havail
      cases hg.symm.trans hg'
      obtain ⟨hlast', -⟩ | ⟨-, hno⟩ := hcase
      · exact absurd hlast' hlast
      · rw [between_eq_zero_of hm.waits ⟨j, hg⟩ (hno k), count_eq_zero]
        intro hmem'
        obtain ⟨⟨g'', hg''⟩, -⟩ := hcount.after_mem j m hmem'
        cases hg.symm.trans hg''.1
        exact hlast hg''
  · dsimp only
    rw [releaseAfter_apply, h.before_other k x hk hlast, count_eq_zero.2,
      Int.natCast_zero, Int.sub_zero]
    intro hmem'
    obtain ⟨-, g'', hg''⟩ := hcount.after_mem j x hmem'
    cases hk.symm.trans hg''.1
    exact hlast hg''
  · exact h.last x k hx fun hcontra => hk (mem_cons_of_mem _ hcontra)

end

/-! ## The loop -/

variable (queue constraints) in
/-- The loop ends when every group was taken, or when none of those left is available. -/
inductive Outcome : Option (List P) → Prop
  | sorted {gs : List P} : Emits G queue constraints gs →
      (∀ x g, groupAt G queue x = some g → g ∈ gs) →
      Outcome (some (gs.flatMap (block G queue)))
  | stuck {gs : List P} {x : Nat} {g : P} : Emits G queue constraints gs →
      groupAt G queue x = some g → g ∉ gs →
      (∀ x, ¬ Avail G queue constraints gs x) → Outcome none

theorem length_flatMap_block_le (G : LockGroups P) (queue : List P) (h : gs.Nodup) :
    (gs.flatMap (block G queue)).length ≤ queue.length := by
  rw [(perm_flatMap_block h).length_eq]
  exact length_filter_le _ _

theorem length_block_pos {g : P} (hg : groupAt G queue j = some g) :
    0 < (block G queue g).length := by
  obtain ⟨p, hp, rfl⟩ := Option.map_eq_some_iff.1 hg
  refine length_pos_of_mem (a := p) (mem_reverse.2 (mem_filter.2 ⟨mem_of_getElem? hp, ?_⟩))
  exact decide_eq_true rfl

theorem emitLoop_outcome (hcount : Counted queue constraints ws) (fuel rest : Nat)
    (h : Inv queue constraints ws gs s) (hrest : s.ordering.length + rest = queue.length)
    (hfuel : rest ≤ fuel) :
    Outcome queue constraints (emitLoop G ws.after fuel rest s) := by
  induction fuel generalizing rest gs s with
  | zero =>
    cases le_zero.1 hfuel
    rw [emitLoop, h.ordering]
    rw [h.ordering] at hrest
    exact .sorted h.emits ((length_flatMap_block h.emits.nodup).1 hrest)
  | succ fuel ih =>
    cases rest with
    | zero =>
      rw [emitLoop, h.ordering]
      rw [h.ordering] at hrest
      exact .sorted h.emits ((length_flatMap_block h.emits.nodup).1 hrest)
    | succ rest =>
      rw [emitLoop]
      have hskip := h.skip
      split
      · rename_i hnone
        have hleft : ¬ ∀ x g, groupAt G queue x = some g → g ∈ gs := by
          rw [← length_flatMap_block h.emits.nodup, ← h.ordering]
          omega
        simp only [not_forall] at hleft
        obtain ⟨x, g, hx, hmem⟩ := hleft
        exact .stuck h.emits hx hmem (hskip.no_candidate hcount hnone)
      · rename_i j hj
        obtain ⟨havail, hmax⟩ := hskip.candidate hcount hj
        obtain ⟨g, hg, hmem, -⟩ := id havail
        split
        · rename_i hnull
          exact absurd hnull (h.topoProcs_ne_none.2 ⟨g, hg, hmem⟩)
        · rename_i p hp
          have hlead : G.leader p = g := by
            rw [h.topoProcs, Option.filter_eq_some_iff] at hp
            rw [groupAt, hp.1] at hg
            exact Option.some.inj hg
          rw [hlead]
          have hemit := hskip.emit hcount hg havail hmax
          have hlen := congrArg length hemit.ordering
          rw [flatMap_cons, length_append, ← h.ordering] at hlen
          have hpos := length_block_pos hg
          have hle := length_flatMap_block_le G queue hemit.emits.nodup
          rw [flatMap_cons, length_append, ← h.ordering] at hle
          dsimp only at hlen
          exact ih _ hemit (by dsimp only; omega) (by omega)

theorem Inv.init (hcount : Counted queue constraints ws) :
    Inv queue constraints ws [] ⟨(queue[·]?), ws.before, queue.length - 1, []⟩ := by
  refine ⟨.nil, fun x => ?_, rfl, fun g j hj _ => hcount.last g j hj, fun _ _ _ _ => rfl,
    fun x g hx _ => ?_⟩
  · cases h : queue[x]? <;> simp [h, Option.filter]
  · exact le_sub_one_of_lt (lt_length_of_groupAt hx)

/-- Every run of the sort is a run of the abstract choice, to its end. -/
theorem topoSort_outcome (queue : List P) (constraints : List (Edge G L)) :
    Outcome queue constraints (topoSort G queue constraints) :=
  have hcount := counted_foldl queue constraints
  emitLoop_outcome hcount _ _ (.init hcount) (zero_add _) (le_refl _)

end

/-! ## What is asked of the order -/

section
variable {P L : Type} (G : LockGroups P)

/-- The members of a group stand side by side. -/
def Adjacent (out : List P) : Prop :=
  ∀ i j k g, i ≤ j → j ≤ k → groupAt G out i = some g → groupAt G out k = some g →
    groupAt G out j = some g

variable {G}

/-- A rearrangement of the queue, the groups side by side, in which every member of the waiter's
group precedes every member of the blocker's. -/
structure Honours (queue : List P) (constraints : List (Edge G L)) (out : List P) : Prop where
  perm : out.Perm queue
  adjacent : Adjacent G out
  precede : ∀ e ∈ constraints, Waits G queue e.waiter → Waits G queue e.blocker →
    ∀ i j, groupAt G out i = some e.waiter → groupAt G out j = some e.blocker → i < j

/-- The positions of `w` precede those of `b`. -/
def Precedes (G : LockGroups P) (out : List P) (w b : P) : Prop :=
  ∀ i j, groupAt G out i = some w → groupAt G out j = some b → i < j

theorem groupAt_append (l r : List P) (x : Nat) :
    groupAt G (l ++ r) x = if x < l.length then groupAt G l x else groupAt G r (x - l.length) := by
  unfold groupAt
  rw [getElem?_append]
  split <;> rfl

variable {queue : List P} {constraints : List (Edge G L)} {out : List P}

theorem waits_of_perm (h : out.Perm queue) {g : P} : Waits G out g ↔ Waits G queue g := by
  rw [waits_iff_mem, waits_iff_mem, (h.map G.leader).mem_iff]

theorem Honours.precedes (h : Honours queue constraints out) {w b : P}
    (hrel : Relevant G queue constraints w b) : Precedes G out w b := by
  obtain ⟨⟨e, he, rfl, rfl⟩, hw, hb⟩ := hrel
  exact h.precede e he hw hb

/-- Contradictory constraints cannot be honoured. -/
theorem not_honours_of_cyclic {g : P} (hcycle : TransGen (Relevant G queue constraints) g g) :
    ¬ Honours queue constraints out := by
  intro h
  have hprec : ∀ b, TransGen (Relevant G queue constraints) g b → Precedes G out g b := by
    intro b hb
    induction hb with
    | single hrel => exact h.precedes hrel
    | tail _ hrel ih =>
      intro i j hi hj
      obtain ⟨k, hk⟩ := (waits_of_perm h.perm).2 hrel.2.1
      exact lt_trans (ih i k hi hk) (h.precedes hrel k j hk hj)
  obtain ⟨b, -, hrel⟩ := TransGen.tail'_iff.1 hcycle
  obtain ⟨i, hi⟩ := (waits_of_perm h.perm).2 hrel.2.2
  exact lt_irrefl i (hprec g hcycle i i hi hi)

end

/-! ## The order of the groups is the order of their members -/

section
variable {P L : Type} {G : LockGroups P} {queue : List P} {constraints : List (Edge G L)}

variable (queue constraints) in
/-- Each group is taken after every group that must stand behind it. -/
def Ordered : List P → Prop
  | [] => True
  | g :: gs => (∀ b, Relevant G queue constraints g b → b ∈ gs) ∧ Ordered gs

theorem Ordered.closed {gs : List P} (h : Ordered queue constraints gs) {w b : P} (hw : w ∈ gs)
    (hrel : ReflTransGen (Relevant G queue constraints) w b) : b ∈ gs := by
  induction hrel with
  | refl => exact hw
  | tail _ hstep ih =>
    clear hw
    induction gs with
    | nil => cases ih
    | cons g gs ihgs =>
      obtain rfl | hmem := mem_cons.1 ih
      · exact mem_cons_of_mem _ (h.1 _ hstep)
      · exact mem_cons_of_mem _ (ihgs h.2 hmem)

variable [DecidableEq P]

theorem groupAt_block {g h : P} (hx : groupAt G (block G queue g) x = some h) : h = g := by
  obtain ⟨p, hp, rfl⟩ := Option.map_eq_some_iff.1 hx
  have hmem := mem_reverse.1 (mem_of_getElem? hp)
  exact of_decide_eq_true (mem_filter.1 hmem).2

theorem mem_of_groupAt_flatMap {gs : List P} {g : P}
    (hx : groupAt G (gs.flatMap (block G queue)) x = some g) : g ∈ gs := by
  induction gs generalizing x with
  | nil => cases hx
  | cons h gs ih =>
    rw [flatMap_cons, groupAt_append] at hx
    split at hx
    · rw [groupAt_block hx]
      exact mem_cons_self
    · exact mem_cons_of_mem _ (ih hx)

theorem waits_flatMap {gs : List P} {g : P} (hg : Waits G queue g) (hmem : g ∈ gs) :
    Waits G (gs.flatMap (block G queue)) g := by
  rw [waits_iff_mem] at hg ⊢
  obtain ⟨p, hp, rfl⟩ := mem_map.1 hg
  refine mem_map.2 ⟨p, mem_flatMap.2 ⟨_, hmem, ?_⟩, rfl⟩
  exact mem_reverse.2 (mem_filter.2 ⟨hp, decide_eq_true rfl⟩)

theorem adjacent_flatMap_block {gs : List P} (hnodup : gs.Nodup) :
    Adjacent G (gs.flatMap (block G queue)) := by
  induction gs with
  | nil => intro i j k g _ _ hi; cases hi
  | cons h gs ih =>
    obtain ⟨hmem, hnodup⟩ := nodup_cons.1 hnodup
    intro i j k g hij hjk hi hk
    rw [flatMap_cons, groupAt_append] at hi hk ⊢
    by_cases hk' : k < (block G queue h).length
    · -- all three are in the first group
      rw [if_pos hk'] at hk
      rw [if_pos (by omega)]
      have hj : groupAt G (block G queue h) j =
          some (G.leader ((block G queue h).get ⟨j, by omega⟩)) := by
        rw [groupAt, getElem?_eq_getElem (by omega)]
        rfl
      rw [hj, groupAt_block hj, groupAt_block hk]
    · rw [if_neg hk'] at hk
      by_cases hi' : i < (block G queue h).length
      · rw [if_pos hi'] at hi
        cases groupAt_block hi
        exact absurd (mem_of_groupAt_flatMap hk) hmem
      · rw [if_neg hi'] at hi
        rw [if_neg (by omega)]
        exact ih hnodup (i - (block G queue h).length) (j - (block G queue h).length)
          (k - (block G queue h).length) g (by omega) (by omega) hi hk

theorem Ordered.precedes {gs : List P} (h : Ordered queue constraints gs)
    (hnodup : gs.Nodup) {w b : P} (hrel : Relevant G queue constraints w b) :
    Precedes G (gs.flatMap (block G queue)) w b := by
  induction gs with
  | nil => intro i j hi; cases hi
  | cons g gs ih =>
    obtain ⟨hmem, hnodup⟩ := nodup_cons.1 hnodup
    intro i j hi hj
    rw [flatMap_cons, groupAt_append] at hi hj
    by_cases hj' : j < (block G queue g).length
    · -- the blocker is the group taken last: its waiter would have been taken before it
      rw [if_pos hj'] at hj
      cases groupAt_block hj
      split at hi
      · cases groupAt_block hi
        exact absurd (h.1 _ hrel) hmem
      · exact absurd (h.2.closed (mem_of_groupAt_flatMap hi) (.single hrel)) hmem
    · rw [if_neg hj'] at hj
      split at hi
      · omega
      · have hlt := ih h.2 hnodup _ _ hi hj
        omega

theorem ordered_of_precedes (pre gs : List P) (hall : ∀ g, Waits G queue g ↔ g ∈ pre ++ gs)
    (h : ∀ w b, Relevant G queue constraints w b →
      Precedes G ((pre ++ gs).flatMap (block G queue)) w b) :
    Ordered queue constraints gs := by
  induction gs generalizing pre with
  | nil => trivial
  | cons g gs ih =>
    refine ⟨fun b hrel => ?_, ih (pre ++ [g]) (by simpa using hall) (by simpa using h)⟩
    have hprec := h g b hrel
    rw [flatMap_append, flatMap_cons] at hprec
    obtain ⟨i, hi⟩ := waits_flatMap hrel.2.1 (mem_singleton_self g)
    rw [flatMap_singleton] at hi
    have hi' := lt_length_of_groupAt hi
    have hipos :
        groupAt G (pre.flatMap (block G queue) ++ (block G queue g ++ gs.flatMap (block G queue)))
        ((pre.flatMap (block G queue)).length + i) = some g := by
      rw [groupAt_append, if_neg (by omega), Nat.add_sub_cancel_left, groupAt_append,
        if_pos hi', hi]
    obtain hmem | hmem := mem_append.1 ((hall b).1 hrel.2.2)
    · obtain ⟨j, hj⟩ := waits_flatMap hrel.2.2 hmem
      have hj' := lt_length_of_groupAt hj
      have hlt := hprec _ j hipos (by rw [groupAt_append, if_pos hj', hj])
      omega
    · obtain rfl | hmem := mem_cons.1 hmem
      · exact absurd (hprec _ _ hipos hipos) (lt_irrefl _)
      · exact hmem

theorem perm_of_taken {gs : List P} (hnodup : gs.Nodup)
    (hall : ∀ x g, groupAt G queue x = some g → g ∈ gs) :
    (gs.flatMap (block G queue)).Perm queue := by
  have hself : queue.filter (G.leader · ∈ gs) = queue := filter_eq_self.2 fun p hp => by
    obtain ⟨x, hx⟩ := mem_iff_getElem?.1 hp
    exact decide_eq_true (hall x _ (by rw [groupAt, hx]; rfl))
  exact (perm_flatMap_block hnodup).trans (.of_eq hself)

/-- The output is honoured exactly when the groups are taken in order. -/
theorem honours_iff_ordered {gs : List P} (h : Emits G queue constraints gs)
    (hall : ∀ x g, groupAt G queue x = some g → g ∈ gs) :
    Honours queue constraints (gs.flatMap (block G queue)) ↔ Ordered queue constraints gs := by
  constructor
  · intro hhon
    refine ordered_of_precedes [] gs (fun g => ⟨fun ⟨x, hx⟩ => hall x g hx, h.waits⟩)
      fun w b hrel => ?_
    exact hhon.precedes hrel
  · intro hord
    exact ⟨perm_of_taken h.nodup hall, adjacent_flatMap_block h.nodup,
      fun e he hw hb => hord.precedes h.nodup ⟨⟨e, he, rfl, rfl⟩, hw, hb⟩⟩

end

/-! ## When the choice is right -/

section
variable {P L : Type} {G : LockGroups P} {queue : List P} {constraints : List (Edge G L)}

theorem finite_waits (G : LockGroups P) (queue : List P) : {g | Waits G queue g}.Finite :=
  (finite_toSet (queue.map G.leader)).subset fun _ hg => waits_iff_mem.1 hg

/-- Of the groups that are not taken, reached from one of them, some has its last position
available, unless the constraints contradict each other. -/
theorem exists_avail_or_cyclic [DecidableEq P] {gs : List P} {b : P} (hb : Waits G queue b)
    (hmem : b ∉ gs) :
    (∃ g, TransGen (Relevant G queue constraints) g g) ∨
      ∃ c k, ReflTransGen (Relevant G queue constraints) b c ∧ LastOf G queue c k ∧
        Avail G queue constraints gs k := by
  by_contra hno
  simp only [not_or, not_exists] at hno
  obtain ⟨hacyclic, hnone⟩ := hno
  let U : Set P := {c | Waits G queue c ∧ c ∉ gs ∧ ReflTransGen (Relevant G queue constraints) b c}
  have hsucc : ∀ c ∈ U, ∃ d ∈ U, Relevant G queue constraints c d := by
    rintro c ⟨hc, hcmem, hreach⟩
    obtain ⟨k, hk⟩ := exists_lastOf hc
    by_contra hall
    refine hnone c k ⟨hreach, hk, c, hk.1, hcmem, .inl ⟨hk, fun d hd => ?_⟩⟩
    by_contra hdmem
    exact hall ⟨d, ⟨hd.2.2, hdmem, hreach.tail hd⟩, hd⟩
  obtain ⟨g, -, hcycle⟩ :=
    exists_cycle (U := U) ((finite_waits G queue).subset fun c hc => hc.1) ⟨b, hb,
      hmem, .refl⟩ hsucc
  exact hacyclic g hcycle

/-- A group on a cycle is never taken. -/
theorem Emits.not_cyclic {gs : List P} (h : Emits G queue constraints gs) {g : P} (hg : g ∈ gs) :
    ¬ TransGen (Relevant G queue constraints) g g := by
  induction h generalizing g with
  | nil => cases hg
  | cons _ hj havail _ ih =>
    obtain rfl | hg := mem_cons.1 hg
    · intro hcycle
      obtain ⟨g', hg', -, hcase⟩ := havail
      cases hj.symm.trans hg'
      obtain ⟨-, hall⟩ | ⟨-, hno⟩ := hcase
      · obtain ⟨b, hb, hreach⟩ := TransGen.head'_iff.1 hcycle
        exact ih (hall b hb) (TransGen.tail' hreach hb)
      · obtain ⟨w, -, hw⟩ := TransGen.tail'_iff.1 hcycle
        exact hno w hw
    · exact ih hg

variable (G queue) in
/-- `c` has a position behind every position of `w` but its last. -/
def Behind (c w : P) : Prop :=
  ∃ k, groupAt G queue k = some c ∧ ∀ x, groupAt G queue x = some w → ¬ LastOf G queue w x → x < k

variable (queue constraints) in
/-- Whatever must stand behind a group that is only a waiter has a position behind all of the
group's but the last. -/
def WaitersInFront : Prop :=
  ∀ w b c, (∀ v, ¬ Relevant G queue constraints v w) → Relevant G queue constraints w b →
    ReflTransGen (Relevant G queue constraints) b c → Behind G queue c w

section

variable {gs : List P} (h : Emits G queue constraints gs)
include h

theorem ordered_of_waitersInFront [DecidableEq P]
    (hacyclic : ¬ ∃ g, TransGen (Relevant G queue constraints) g g)
    (hfront : WaitersInFront queue constraints) :
    Ordered queue constraints gs := by
  induction h with
  | nil => trivial
  | cons _ hj havail hmax ih =>
    refine ⟨fun b hrel => ?_, ih⟩
    obtain ⟨g, hg, -, hcase⟩ := havail
    cases hj.symm.trans hg
    obtain ⟨-, hall⟩ | ⟨hlast, hno⟩ := hcase
    · exact hall b hrel
    · by_contra hmem
      obtain ⟨c, k, hreach, hk, havail⟩ :=
        (exists_avail_or_cyclic hrel.2.2 hmem).resolve_left hacyclic
      obtain ⟨m, hm, hbehind⟩ := hfront _ b c hno hrel hreach
      have h₁ := hbehind _ hj hlast
      have h₂ := hk.2 m hm
      have h₃ := hmax k havail
      omega

theorem Emits.at_mem (hord : Ordered queue constraints gs) {c : P}
    (hc : c ∈ gs) : ∃ gs', Emits G queue constraints (c :: gs') ∧
    Ordered queue constraints gs' := by
  induction gs with
  | nil => cases hc
  | cons g gs ih =>
    obtain rfl | hc := mem_cons.1 hc
    · exact ⟨gs, h, hord.2⟩
    · exact ih h.tail hord.2 hc

theorem waitersInFront_of_ordered [DecidableEq P]
    (hall : ∀ x g, groupAt G queue x = some g → g ∈ gs) (hord : Ordered queue constraints gs) :
    WaitersInFront queue constraints := by
  intro w b c hsource hrel hreach
  -- `c` waits, and is itself a blocker
  obtain ⟨v, hv⟩ : ∃ v, Relevant G queue constraints v c := by
    obtain rfl | ⟨v, -, hv⟩ := ReflTransGen.cases_tail hreach
    · exact ⟨w, hrel⟩
    · exact ⟨v, hv⟩
  obtain ⟨k, hk⟩ := exists_lastOf hv.2.2
  refine ⟨k, hk.1, fun x hx hlast => ?_⟩
  obtain ⟨gs', hemits, hord'⟩ := h.at_mem hord (hall k c hk.1)
  have hmem := hemits.not_mem
  cases hemits with
  | cons _ hj havail hmax =>
    have hw : w ∉ gs' := fun hw => hmem (hord'.closed hw (.head hrel hreach))
    have hle := hmax x ⟨w, hx, hw, .inr ⟨hlast, hsource⟩⟩
    obtain ⟨c', hc', -, hcase⟩ := havail
    cases hj.symm.trans hc'
    obtain ⟨hlast', -⟩ | ⟨-, hno⟩ := hcase
    · cases hlast'.unique hk
      refine lt_of_le_of_ne hle ?_
      rintro rfl
      cases hx.symm.trans hk.1
      exact hsource v hv
    · exact absurd hv (hno v)

end

end

/-! ## The answer -/

section
variable {P L : Type} [DecidableEq P] {G : LockGroups P}

/-- Success means an order that was asked for, and failure that there is none, exactly when the
constraints contradict each other or every group that is only a waiter stands in front. -/
theorem topoSort_honours_iff (queue : List P) (constraints : List (Edge G L)) :
    ((∀ out, topoSort G queue constraints = some out → Honours queue constraints out) ∧
      (topoSort G queue constraints = none → ¬ ∃ out, Honours queue constraints out)) ↔
    ((∃ g, TransGen (Relevant G queue constraints) g g) ∨ WaitersInFront queue constraints) := by
  have houtcome := topoSort_outcome queue constraints
  by_cases hcycle : ∃ g, TransGen (Relevant G queue constraints) g g
  · refine iff_of_true ?_ (.inl hcycle)
    obtain ⟨g, hg⟩ := hcycle
    refine ⟨fun out hout => ?_, fun _ ⟨out, hout⟩ => not_honours_of_cyclic hg hout⟩
    rw [hout] at houtcome
    cases houtcome with
    | sorted hemits hall =>
      obtain ⟨b, -, hrel⟩ := TransGen.tail'_iff.1 hg
      obtain ⟨x, hx⟩ := hrel.2.2
      exact absurd hg (hemits.not_cyclic (hall x g hx))
  · cases hsort : topoSort G queue constraints with
    | none =>
      rw [hsort] at houtcome
      cases houtcome with
      | stuck hemits hx hmem hstuck =>
        obtain hcontra | ⟨c, k, -, -, havail⟩ := exists_avail_or_cyclic ⟨_, hx⟩ hmem
        · exact absurd hcontra hcycle
        · exact absurd havail (hstuck k)
    | some out =>
      rw [hsort] at houtcome
      cases houtcome with
      | sorted hemits hall =>
        have hiff := honours_iff_ordered hemits hall
        constructor
        · intro ⟨hhon, _⟩
          exact .inr (waitersInFront_of_ordered hemits hall (hiff.1 (hhon _ rfl)))
        · intro hcond
          refine ⟨fun out hout => ?_, fun hcontra => by cases hcontra⟩
          cases hout
          exact hiff.2 (ordered_of_waitersInFront hemits hcycle (hcond.resolve_left hcycle))

/-- The sort always returns a rearrangement with the groups side by side. -/
theorem topoSort_adjacent {queue out : List P} {constraints : List (Edge G L)}
    (h : topoSort G queue constraints = some out) : out.Perm queue ∧ Adjacent G out := by
  have houtcome := topoSort_outcome queue constraints
  rw [h] at houtcome
  cases houtcome with
  | sorted hemits hall =>
    exact ⟨perm_of_taken hemits.nodup hall, adjacent_flatMap_block hemits.nodup⟩

end

section Example

/-- Processes 1 and 2 form a group led by 1; process 0 has none. -/
def pairGroups : LockGroups (Fin 3) where
  lockGroupLeader p := if p = 0 then none else some 1
  leader_self := by decide

/-- The group of 1 has to go ahead of 0. -/
def pairEdge : Edge pairGroups Unit := ⟨1, 0, (), by decide, by decide⟩

/-- The group is taken at its first position, while 0 still waits for its turn, and ends up
behind it. -/
theorem pair_behind_blocker :
    topoSort pairGroups [0, 1, 2] [pairEdge] = some [0, 2, 1] ∧
      Waits pairGroups [0, 1, 2] pairEdge.waiter ∧ Waits pairGroups [0, 1, 2] pairEdge.blocker ∧
      ¬ Honours [0, 1, 2] [pairEdge] [0, 2, 1] := by
  refine ⟨by decide, by decide, by decide, fun h => ?_⟩
  have hlt :=
    h.precede pairEdge (mem_singleton_self _) (by decide) (by decide) 1 0 (by decide) (by decide)
  omega

end Example

/-! ## All the queues -/

section
variable {P L : Type} [DecidableEq P] [DecidableEq L] (G : LockGroups P)

/-- mirrors deadlock.c:56-61 -/
structure WaitOrder (P L : Type) where
  lock : L
  procs : List P

/-- The scan of the constraints, backwards from the `i`-th; `waitProcs` gives the queue of a lock.
mirrors deadlock.c:812-840 -/
def expandLoop (waitProcs : L → List P) (constraints : List (Edge G L)) :
    Nat → List (WaitOrder P L) → Option (List (WaitOrder P L))
  | 0, waitOrders => some waitOrders
  | i + 1, waitOrders =>
    match constraints[i]? with
    | none => none
    | some constraint =>
      if waitOrders.any (·.lock == constraint.lock) then
        expandLoop waitProcs constraints i waitOrders
      else
        match topoSort G (waitProcs constraint.lock) (constraints.take (i + 1)) with
        | none => none
        | some procs =>
          expandLoop waitProcs constraints i (waitOrders ++ [⟨constraint.lock, procs⟩])

/-- mirrors deadlock.c:798-842 -/
def expandConstraints (waitProcs : L → List P) (constraints : List (Edge G L)) :
    Option (List (WaitOrder P L)) :=
  expandLoop G waitProcs constraints constraints.length []

variable {G} {waitProcs : L → List P} {constraints : List (Edge G L)}

/-- An order that may stand in for the lock's own queue. -/
def Rearranges (G : LockGroups P) (waitProcs : L → List P) (order : WaitOrder P L) : Prop :=
  order.procs.Perm (waitProcs order.lock) ∧ Adjacent G order.procs

theorem expandLoop_rearranges {i : Nat} {waitOrders orders : List (WaitOrder P L)}
    (hpre : ∀ order ∈ waitOrders, Rearranges G waitProcs order)
    (h : expandLoop G waitProcs constraints i waitOrders = some orders) :
    ∀ order ∈ orders, Rearranges G waitProcs order := by
  induction i generalizing waitOrders with
  | zero =>
    cases h
    exact hpre
  | succ i ih =>
    rw [expandLoop] at h
    split at h
    · cases h
    · split at h
      · exact ih hpre h
      · split at h
        · cases h
        · rename_i procs hsort
          refine ih (fun order horder => ?_) h
          obtain horder | horder := mem_append.1 horder
          · exact hpre order horder
          · cases mem_singleton.1 horder
            exact topoSort_adjacent hsort

/-- Every hypothetical order handed to the cycle search has its groups side by side. -/
theorem expandConstraints_adjacent {orders : List (WaitOrder P L)}
    (h : expandConstraints G waitProcs constraints = some orders) :
    ∀ order ∈ orders, Rearranges G waitProcs order :=
  expandLoop_rearranges (fun _ hmem => by cases hmem) h

theorem expandConstraints_adjacent_pair :
    Rearranges pairGroups (fun _ => [0, 1, 2]) ⟨(), [0, 2, 1]⟩ :=
  @expandConstraints_adjacent _ _ _ _ _ _ [pairEdge] [⟨(), [0, 2, 1]⟩] rfl _ mem_cons_self

end

end GreenPipeline.L5.TopoSort
