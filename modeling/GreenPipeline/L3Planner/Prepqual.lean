import GreenPipeline.L1Nodes.BoolExpr

/-!
# WHERE-clause canonicalization

`src/backend/optimizer/prep/prepqual.c:285-655`: `canonicalize_qual` and its
helpers. `find_duplicate_ors` removes constants from the top-level AND/OR
structure, pulls nested ANDs and ORs up, and `process_duplicate_ors` applies
the inverse OR distributive law `(A AND B) OR (A AND C) => A AND (B OR C)`.

An arm of the OR is a list of conjuncts (`conjuncts`): the arguments of an
AND, or the arm itself. With the winners `W`, which are conjuncts of every
arm, the OR holds iff all of `W` hold and the rest of some arm does; if an arm
has no rest the second half is void.

Everything but the treatment of NULL constants reads the same from "is TRUE"
and from "is not FALSE", so both are proved at once, for a set `P` of truth
values that is `Designated`. A NULL constant among the arguments of an AND or
an OR counts as FALSE (`nullsFalse`): a WHERE clause does not see the
difference, a CHECK constraint does.

Results:

* `accepts_pullAnds`, `accepts_pullOrs`, `processDuplicateOrs_accepts`,
  `findDuplicateOrs_accepts`: what is accepted, by induction over the tree.
* `findDuplicateOrs_shape`: a property such as AND/OR flatness that the
  arguments hand on is kept.
* `canonicalizeQual_sound`: the result is TRUE iff the qual is, and flat if the qual is.
* `canonicalizeQual_weakens_iff`: when a row that passes a CHECK constraint
  passes the canonicalized one.
* `canonicalizeQual_strengthens`: `A OR NULL` is not FALSE where its canonical form is.
-/
namespace GreenPipeline.L3.Prepqual

open GreenPipeline.Core GreenPipeline.L1.BoolExpr List

variable {α : Type}

/-! ## `pull_ands`, `pull_ors` -/

mutual

/-- mirrors prepqual.c:312-334 -/
def pullAnds : List (Expr α) → List (Expr α)
  | [] => []
  | subexpr :: rest => pullAnd subexpr ++ pullAnds rest

/-- What one element of the list contributes. -/
def pullAnd : Expr α → List (Expr α)
  | .and args => pullAnds args
  | .const c => [.const c]
  | .atom a => [.atom a]
  | .or args => [.or args]
  | .not arg => [.not arg]

end

mutual

/-- mirrors prepqual.c:343-365 -/
def pullOrs : List (Expr α) → List (Expr α)
  | [] => []
  | subexpr :: rest => pullOr subexpr ++ pullOrs rest

/-- What one element of the list contributes. -/
def pullOr : Expr α → List (Expr α)
  | .or args => pullOrs args
  | .const c => [.const c]
  | .atom a => [.atom a]
  | .and args => [.and args]
  | .not arg => [.not arg]

end

/-! ## `process_duplicate_ors` -/

/-- The shortest AND clause as the reference list; the first arm that is not
an AND ends the search.
mirrors prepqual.c:518-538 -/
def chooseReference : List (Expr α) → List (Expr α) → Nat → List (Expr α)
  | [], reference, _ => reference
  | .and subclauses :: rest, reference, numSubclauses =>
    if reference.isEmpty || subclauses.length < numSubclauses then
      chooseReference rest subclauses subclauses.length
    else chooseReference rest reference numSubclauses
  | clause :: _, _, _ => [clause]

section
variable [DecidableEq α]

/-- `refclause` is in the arm `clause`.
mirrors prepqual.c:556-575 -/
def inArm (refclause : Expr α) : Expr α → Bool
  | .and args => listMember args refclause
  | clause => equal refclause clause

/-- mirrors prepqual.c:549-581 -/
def findWinners (reference orlist : List (Expr α)) : List (Expr α) :=
  reference.filter fun refclause => orlist.all (inArm refclause)

/-- The loop that takes the winners out of every arm; an arm with nothing
left ends it with the empty list.
mirrors prepqual.c:598-631 -/
def reduceArms (winners : List (Expr α)) : List (Expr α) → List (Expr α) → List (Expr α)
  | [], neworlist => neworlist
  | .and subclauses :: rest, neworlist =>
    match listDifference subclauses winners with
    | [] => []
    | [e] => reduceArms winners rest (neworlist ++ [e])
    | l => reduceArms winners rest (neworlist ++ [.and l])
  | clause :: rest, neworlist =>
    if listMember winners clause then [] else reduceArms winners rest (neworlist ++ [clause])

/-- mirrors prepqual.c:639-645 -/
def appendReduced (winners : List (Expr α)) : List (Expr α) → List (Expr α)
  | [] => winners
  | [e] => winners ++ [e]
  | neworlist => winners ++ [.or (pullOrs neworlist)]

/-- mirrors prepqual.c:651-654 -/
def andOf : List (Expr α) → Expr α
  | [e] => e
  | winners => .and (pullAnds winners)

/-- mirrors prepqual.c:495-655 -/
def processDuplicateOrs : List (Expr α) → Expr α
  | [] => .const (some false)
  | [e] => e
  | orlist =>
    match findWinners (listUnion [] (chooseReference orlist [] 0)) orlist with
    | [] => .or orlist
    | winners => andOf (appendReduced winners (reduceArms winners orlist []))

/-! ## `find_duplicate_ors` -/

/-- `AND` of the list the loop over the arguments has built.
mirrors prepqual.c:468-481 -/
def finishAnd (andlist : List (Expr α)) : Expr α :=
  match pullAnds andlist with
  | [] => .const (some true)
  | [e] => e
  | l => .and l

mutual

/-- mirrors prepqual.c:406-485 -/
def findDuplicateOrs : Expr α → Expr α
  | .or args =>
    match orLoop args with
    | .error e => e
    | .ok orlist => processDuplicateOrs (pullOrs orlist)
  | .and args =>
    match andLoop args with
    | .error e => e
    | .ok andlist => finishAnd andlist
  | .const c => .const c
  | .atom a => .atom a
  | .not arg => .not arg

/-- The loop over the arguments of an OR; `error` is a `return` from it.
mirrors prepqual.c:414-433 -/
def orLoop : List (Expr α) → Except (Expr α) (List (Expr α))
  | [] => .ok []
  | arg :: rest =>
    match findDuplicateOrs arg with
    | .const (some true) => .error (.const (some true))
    | .const _ => orLoop rest
    | e => (orLoop rest).map (e :: ·)

/-- The loop over the arguments of an AND.
mirrors prepqual.c:447-466 -/
def andLoop : List (Expr α) → Except (Expr α) (List (Expr α))
  | [] => .ok []
  | arg :: rest =>
    match findDuplicateOrs arg with
    | .const (some true) => andLoop rest
    | .const _ => .error (.const (some false))
    | e => (andLoop rest).map (e :: ·)

end

/-- mirrors prepqual.c:285-302 -/
def canonicalizeQual (qual : Option (Expr α)) : Option (Expr α) := qual.map findDuplicateOrs

end

/-! ## What is accepted -/

/-- The conjuncts of one arm of an OR. -/
def conjuncts : Expr α → List (Expr α)
  | .and args => args
  | e => [e]

section
variable (v : α → Truth) {P : Truth → Prop}

mutual

theorem accepts_pullAnds (hP : Designated P) :
    ∀ l : List (Expr α), (∀ e ∈ pullAnds l, Accepts v P e) ↔ ∀ e ∈ l, Accepts v P e
  | [] => by simp [pullAnds]
  | e :: l => by
    rw [pullAnds, forall_mem_append, accepts_pullAnd hP e, accepts_pullAnds hP l, forall_mem_cons]

theorem accepts_pullAnd (hP : Designated P) :
    ∀ e : Expr α, (∀ x ∈ pullAnd e, Accepts v P x) ↔ Accepts v P e
  | .and args => by rw [pullAnd, accepts_pullAnds hP args, accepts_and v hP]
  | .const _ | .atom _ | .or _ | .not _ => by simp [pullAnd]

end

mutual

theorem accepts_pullOrs (hP : Designated P) :
    ∀ l : List (Expr α), (∃ e ∈ pullOrs l, Accepts v P e) ↔ ∃ e ∈ l, Accepts v P e
  | [] => by simp [pullOrs]
  | e :: l => by
    rw [pullOrs, exists_mem_cons_iff, ← accepts_pullOr hP e, ← accepts_pullOrs hP l]
    simp only [mem_append, or_and_right, exists_or]

theorem accepts_pullOr (hP : Designated P) :
    ∀ e : Expr α, (∃ x ∈ pullOr e, Accepts v P x) ↔ Accepts v P e
  | .or args => by rw [pullOr, accepts_pullOrs hP args, accepts_or v hP]
  | .const _ | .atom _ | .and _ | .not _ => by simp [pullOr]

end

variable (hP : Designated P)
include hP

theorem accepts_conjuncts (c : Expr α) : (∀ e ∈ conjuncts c, Accepts v P e) ↔ Accepts v P c := by
  cases c <;> simp [conjuncts, accepts_and v hP]

theorem accepts_andOf (l : List (Expr α)) : Accepts v P (andOf l) ↔ ∀ e ∈ l, Accepts v P e := by
  unfold andOf
  split
  · simp
  · rw [accepts_and v hP, accepts_pullAnds v hP]

theorem accepts_appendReduced (W l : List (Expr α)) : (∀ e ∈ appendReduced W l, Accepts v P e) ↔
    (∀ e ∈ W, Accepts v P e) ∧ (l = [] ∨ ∃ e ∈ l, Accepts v P e) := by
  unfold appendReduced
  split
  · simp
  · rw [forall_mem_append]
    simp
  · rename_i h1 _
    rw [forall_mem_append, forall_mem_singleton, accepts_or v hP, accepts_pullOrs v hP,
      or_iff_right (h1 ·)]

/-- The inverse OR distributive law, for conjuncts `W` that are in every arm. -/
theorem exists_accepts_iff (W l : List (Expr α)) (hW : ∀ w ∈ W, ∀ c ∈ l, w ∈ conjuncts c) :
    (∃ c ∈ l, Accepts v P c) ↔
    (∀ w ∈ W, Accepts v P w) ∧ ∃ c ∈ l, ∀ e ∈ conjuncts c, e ∉ W → Accepts v P e := by
  constructor
  · intro ⟨c, hc, h⟩
    rw [← accepts_conjuncts v hP] at h
    exact ⟨fun w hw => h w (hW w hw c hc), c, hc, fun e he _ => h e he⟩
  · intro ⟨hw, c, hc, h⟩
    refine ⟨c, hc, (accepts_conjuncts v hP c).1 fun e he => ?_⟩
    by_cases hm : e ∈ W
    · exact hw e hm
    · exact h e he hm

theorem accepts_finishAnd (l : List (Expr α)) :
    Accepts v P (finishAnd l) ↔ ∀ e ∈ l, Accepts v P e := by
  rw [← accepts_pullAnds v hP, finishAnd]
  split
  · rename_i h; simp [h, accepts_const v hP]
  · rename_i e h; simp [h]
  · exact accepts_and v hP

end

section
variable [DecidableEq α]

theorem inArm_iff {r c : Expr α} : inArm r c = true ↔ r ∈ conjuncts c := by
  cases c <;> simp [inArm, conjuncts, equal_iff]

/-- A winner is a conjunct of every arm. -/
theorem mem_findWinners {reference orlist : List (Expr α)} {w : Expr α}
    (h : w ∈ findWinners reference orlist) :
    ∀ c ∈ orlist, w ∈ conjuncts c := fun c hc =>
  inArm_iff.1 (all_eq_true.1 (mem_filter.1 h).2 c hc)

/-- What the loop over the arms makes of an arm: the conjuncts that are not winners. -/
def reduceArm (winners : List (Expr α)) (c : Expr α) : Expr α :=
  match listDifference (conjuncts c) winners with
  | [e] => e
  | l => .and l

theorem reduceArms_cons (W : List (Expr α)) (c : Expr α) (l acc : List (Expr α)) :
    reduceArms W (c :: l) acc =
    if listDifference (conjuncts c) W = [] then []
    else reduceArms W l (acc ++ [reduceArm W c]) := by
  have hsingle : ∀ e : Expr α, listDifference [e] W = if listMember W e then [] else [e] := by
    intro e
    unfold listDifference
    cases W with
    | nil => simp [listMember]
    | cons w W => by_cases h : listMember (w :: W) e = true <;> simp [h]
  cases c with
  | and args =>
    simp only [reduceArms, conjuncts, reduceArm]
    split <;> simp_all
  | _ =>
    simp only [reduceArms, conjuncts, reduceArm, hsingle]
    split <;> simp

/-- The loop over the arms gives the reduced arms, or nothing if an arm has
only winners. -/
theorem reduceArms_eq (W : List (Expr α)) : ∀ l acc : List (Expr α),
    ((∃ c ∈ l, listDifference (conjuncts c) W = []) ∧ reduceArms W l acc = []) ∨
    ((∀ c ∈ l, listDifference (conjuncts c) W ≠ []) ∧
      reduceArms W l acc = acc ++ l.map (reduceArm W)) := by
  intro l
  induction l with
  | nil => intro acc; exact .inr ⟨by simp, by simp [reduceArms]⟩
  | cons c l ih =>
    intro acc
    rw [reduceArms_cons]
    by_cases hc : listDifference (conjuncts c) W = []
    · exact .inl ⟨⟨c, mem_cons_self, hc⟩, if_pos hc⟩
    · rw [if_neg hc]
      rcases ih (acc ++ [reduceArm W c]) with ⟨⟨d, hd, hx⟩, he⟩ | ⟨hall, he⟩
      · exact .inl ⟨⟨d, mem_cons_of_mem _ hd, hx⟩, he⟩
      · exact .inr ⟨forall_mem_cons.2 ⟨hc, hall⟩, by rw [he]; simp⟩

section
variable (v : α → Truth) {P : Truth → Prop} (hP : Designated P)
include hP

theorem accepts_reduceArm (W : List (Expr α)) (c : Expr α) :
    Accepts v P (reduceArm W c) ↔ ∀ e ∈ conjuncts c, e ∉ W → Accepts v P e := by
  have h : Accepts v P (reduceArm W c) ↔ ∀ e ∈ listDifference (conjuncts c) W, Accepts v P e := by
    unfold reduceArm
    split
    · rename_i e he
      simp [he]
    · exact accepts_and v hP
  rw [h]
  simp only [mem_listDifference, and_imp]

theorem processDuplicateOrs_accepts (l : List (Expr α)) :
    Accepts v P (processDuplicateOrs l) ↔ ∃ e ∈ l, Accepts v P e := by
  unfold processDuplicateOrs
  split
  · simp [accepts_const v hP]
  · simp
  · rename_i hnil _
    have hW : ∀ w ∈ findWinners (listUnion [] (chooseReference l [] 0)) l, ∀ c ∈ l,
        w ∈ conjuncts c :=
      fun _ => mem_findWinners
    split
    · exact accepts_or v hP
    · generalize findWinners (listUnion [] (chooseReference l [] 0)) l = W at hW ⊢
      rw [accepts_andOf v hP, accepts_appendReduced v hP, exists_accepts_iff v hP W l hW]
      refine and_congr_right fun _ => ?_
      rcases reduceArms_eq W l [] with ⟨⟨c, hc, hx⟩, he⟩ | ⟨hall, he⟩
      · rw [he]
        refine iff_of_true (.inl rfl) ⟨c, hc, fun e hec heW => ?_⟩
        have : e ∈ listDifference (conjuncts c) W := mem_listDifference.2 ⟨hec, heW⟩
        rw [hx] at this
        exact absurd this not_mem_nil
      · rw [he, nil_append, or_iff_right (by simpa using hnil)]
        simp only [mem_map, exists_exists_and_eq_and, accepts_reduceArm v hP]

end

end

/-! ## Shapes -/

/-- A property that an AND or an OR has if all its arguments have it and meet
a side condition, which holds anyway for what is no AND or no OR. -/
structure Shape (S okAnd okOr : Expr α → Prop) : Prop where
  and_iff : ∀ l, S (.and l) ↔ ∀ e ∈ l, S e ∧ okAnd e
  or_iff : ∀ l, S (.or l) ↔ ∀ e ∈ l, S e ∧ okOr e
  okAnd_of : ∀ e, andClause e = false → okAnd e
  okOr_of : ∀ e, orClause e = false → okOr e

theorem flat_shape : Shape
    (fun e : Expr α => flat e = true) (andClause · = false) (orClause · = false) where
  and_iff _ := flat_and
  or_iff _ := flat_or
  okAnd_of _ h := h
  okOr_of _ h := h

section
variable {S okAnd okOr : Expr α → Prop}

mutual

theorem shape_pullAnds (hS : Shape S okAnd okOr) :
    ∀ l : List (Expr α), (∀ e ∈ l, S e) → ∀ e ∈ pullAnds l, S e ∧ okAnd e
  | [], _ => by simp [pullAnds]
  | a :: l, h => by
    rw [forall_mem_cons] at h
    rw [pullAnds, forall_mem_append]
    exact ⟨shape_pullAnd hS a h.1, shape_pullAnds hS l h.2⟩

theorem shape_pullAnd (hS : Shape S okAnd okOr) : ∀ a : Expr α, S a → ∀ e ∈ pullAnd a, S e ∧ okAnd e
  | .and args, h => shape_pullAnds hS args fun e he => ((hS.and_iff args).1 h e he).1
  | .const _, h | .atom _, h | .or _, h | .not _, h => by
    rw [pullAnd, forall_mem_singleton]
    exact ⟨h, hS.okAnd_of _ rfl⟩

end

mutual

theorem shape_pullOrs (hS : Shape S okAnd okOr) :
    ∀ l : List (Expr α), (∀ e ∈ l, S e) → ∀ e ∈ pullOrs l, S e ∧ okOr e
  | [], _ => by simp [pullOrs]
  | a :: l, h => by
    rw [forall_mem_cons] at h
    rw [pullOrs, forall_mem_append]
    exact ⟨shape_pullOr hS a h.1, shape_pullOrs hS l h.2⟩

theorem shape_pullOr (hS : Shape S okAnd okOr) : ∀ a : Expr α, S a → ∀ e ∈ pullOr a, S e ∧ okOr e
  | .or args, h => shape_pullOrs hS args fun e he => ((hS.or_iff args).1 h e he).1
  | .const _, h | .atom _, h | .and _, h | .not _, h => by
    rw [pullOr, forall_mem_singleton]
    exact ⟨h, hS.okOr_of _ rfl⟩

end

variable (hS : Shape S okAnd okOr)
include hS

theorem shape_conjuncts {c : Expr α} (h : S c) : ∀ e ∈ conjuncts c, S e ∧ okAnd e := by
  cases c with
  | and args => exact (hS.and_iff args).1 h
  | const | atom | or | not =>
    rw [conjuncts, forall_mem_singleton]
    · exact ⟨h, hS.okAnd_of _ rfl⟩
    · simp

theorem shape_appendReduced {W l : List (Expr α)} (hW : ∀ e ∈ W, S e) (hl : ∀ e ∈ l, S e) :
    ∀ e ∈ appendReduced W l, S e := by
  unfold appendReduced
  split
  · exact hW
  · exact forall_mem_append.2 ⟨hW, hl⟩
  · refine forall_mem_append.2 ⟨hW, forall_mem_singleton.2 ?_⟩
    exact (hS.or_iff _).2 (shape_pullOrs hS _ hl)

theorem shape_andOf {l : List (Expr α)} (h : ∀ e ∈ l, S e) : S (andOf l) := by
  unfold andOf
  split
  · exact h _ (mem_singleton_self _)
  · exact (hS.and_iff _).2 (shape_pullAnds hS _ h)

theorem finishAnd_shape {l : List (Expr α)} (h : ∀ e ∈ l, S e) :
    finishAnd l = .const (some true) ∨ S (finishAnd l) := by
  have hp := shape_pullAnds hS l h
  unfold finishAnd
  split
  · exact .inl rfl
  · rename_i e he
    exact .inr (hp e (by rw [he]; exact mem_singleton_self e)).1
  · exact .inr ((hS.and_iff _).2 hp)

section
variable [DecidableEq α]

theorem shape_reduceArm {W : List (Expr α)} {c : Expr α} (h : S c) : S (reduceArm W c) := by
  have hsub : ∀ e ∈ listDifference (conjuncts c) W, S e ∧ okAnd e := fun e he =>
    shape_conjuncts hS h e (mem_listDifference.1 he).1
  unfold reduceArm
  split
  · rename_i e he
    exact (hsub e (by rw [he]; exact mem_singleton_self e)).1
  · exact (hS.and_iff _).2 hsub

theorem shape_reduceArms {W l : List (Expr α)} (h : ∀ c ∈ l, S c) :
    ∀ e ∈ reduceArms W l [], S e := by
  rcases reduceArms_eq W l [] with ⟨_, he⟩ | ⟨_, he⟩
  · simp [he]
  · rw [he, nil_append, forall_mem_map]
    exact fun c hc => shape_reduceArm hS (h c hc)

theorem processDuplicateOrs_shape {l : List (Expr α)} (h : ∀ e ∈ l, S e ∧ okOr e) :
    processDuplicateOrs l = .const (some false) ∨ S (processDuplicateOrs l) := by
  unfold processDuplicateOrs
  split
  · exact .inl rfl
  · exact .inr (h _ (mem_singleton_self _)).1
  · rename_i hnil _
    refine .inr ?_
    split
    · exact (hS.or_iff _).2 h
    · obtain ⟨c, hc⟩ := exists_mem_of_ne_nil l hnil
      refine shape_andOf hS (shape_appendReduced hS
        (fun w hw => ?_) (shape_reduceArms hS fun c hc => (h c hc).1))
      exact (shape_conjuncts hS (h c hc).1 w (mem_findWinners hw c hc)).1

end

end

/-! ## The loop over the arguments -/

/-- The loop over the arguments of an OR or an AND, once these are treated: a
constant decides the clause or is dropped. -/
def argLoop (decides : Option Bool → Bool) (decided : Expr α) :
    List (Expr α) → Except (Expr α) (List (Expr α))
  | [] => .ok []
  | .const c :: rest => if decides c then .error decided else argLoop decides decided rest
  | e :: rest => (argLoop decides decided rest).map (e :: ·)

/-- The loop ends at a constant that decides the clause, or keeps all that is no constant. -/
theorem argLoop_cases (decides : Option Bool → Bool) (decided : Expr α) (l : List (Expr α)) :
    (argLoop decides decided l = .error decided ∧ ∃ c, .const c ∈ l ∧ decides c = true) ∨
    ∃ l', argLoop decides decided l = .ok l' ∧ (∀ c, .const c ∈ l → decides c = false) ∧
      ∀ e, e ∈ l' ↔ e ∈ l ∧ ∀ c, e ≠ .const c := by
  fun_induction argLoop decides decided l with
  | case1 => exact .inr ⟨[], rfl, by simp, by simp⟩
  | case2 c rest hc => exact .inl ⟨rfl, c, mem_cons_self, hc⟩
  | case3 c rest hc ih =>
    obtain ⟨he, c', hc', hd⟩ | ⟨l', hl, hno, hmem⟩ := ih
    · exact .inl ⟨he, c', mem_cons_of_mem _ hc', hd⟩
    · refine .inr ⟨l', hl, ?_, fun e => ?_⟩
      · simpa [hc] using hno
      · rw [hmem, mem_cons]
        refine and_congr_left fun hne => ?_
        exact (or_iff_right (hne c)).symm
  | case4 e rest hne ih =>
    obtain ⟨he, c', hc', hd⟩ | ⟨l', hl, hno, hmem⟩ := ih
    · exact .inl ⟨by rw [he]; rfl, c', mem_cons_of_mem _ hc', hd⟩
    · refine .inr ⟨e :: l', by rw [hl]; rfl, ?_, fun x => ?_⟩
      · intro c hc
        obtain hc | hc := mem_cons.1 hc
        · exact absurd hc.symm (hne c)
        · exact hno c hc
      · grind

section
variable [DecidableEq α]

theorem orLoop_eq (l : List (Expr α)) :
    orLoop l = argLoop (fun c => c == some true) (.const (some true)) (l.map findDuplicateOrs) := by
  induction l with
  | nil => rfl
  | cons e l ih =>
    rw [orLoop, map_cons, ih]
    cases findDuplicateOrs e with
    | const c => rcases c with _ | _ | _ <;> rfl
    | atom | not | and | or => rfl

theorem andLoop_eq (l : List (Expr α)) :
    andLoop l = argLoop
      (fun c => c != some true) (.const (some false)) (l.map findDuplicateOrs) := by
  induction l with
  | nil => rfl
  | cons e l ih =>
    rw [andLoop, map_cons, ih]
    cases findDuplicateOrs e with
    | const c => rcases c with _ | _ | _ <;> rfl
    | atom | not | and | or => rfl

/-! ## The shape of the whole tree -/

/-- The result is the constant it came from, the constant TRUE or FALSE, or of
the shape that the leaves have. `I` is what is known of the tree. -/
theorem findDuplicateOrs_shape {S okAnd okOr I : Expr α → Prop} (hS : Shape S okAnd okOr)
    (hand : ∀ args, I (.and args) → ∀ e ∈ args, I e) (hor : ∀ args, I (.or args) → ∀ e ∈ args, I e)
    (hatom : ∀ a, I (.atom a) → S (.atom a)) (hnot : ∀ e, I (.not e) → S (.not e)) :
    ∀ e : Expr α, I e → (∃ c, findDuplicateOrs e = .const c ∧ (c = none → e = .const none)) ∨
      S (findDuplicateOrs e)
  | .or args, h => by
    have hargs : ∀ e ∈ args.map findDuplicateOrs, (∀ c, e ≠ .const c) → S e :=
      forall_mem_map.2 fun a ha hc =>
        (findDuplicateOrs_shape hS hand hor hatom hnot a (hor args h a ha)).resolve_left
          fun ⟨c, he, _⟩ => hc c he
    rw [findDuplicateOrs, orLoop_eq]
    obtain ⟨he, -⟩ | ⟨l, hl, -, hmem⟩ :=
      argLoop_cases (fun c => c == some true) (.const (some true)) (args.map findDuplicateOrs)
    · rw [he]
      exact .inl ⟨_, rfl, by simp⟩
    · rw [hl]
      have hl : ∀ e ∈ l, S e := fun e he => hargs e ((hmem e).1 he).1 ((hmem e).1 he).2
      obtain hc | hs := processDuplicateOrs_shape hS (shape_pullOrs hS l hl)
      · exact .inl ⟨_, hc, by simp⟩
      · exact .inr hs
  | .and args, h => by
    have hargs : ∀ e ∈ args.map findDuplicateOrs, (∀ c, e ≠ .const c) → S e :=
      forall_mem_map.2 fun a ha hc =>
        (findDuplicateOrs_shape hS hand hor hatom hnot a (hand args h a ha)).resolve_left
          fun ⟨c, he, _⟩ => hc c he
    rw [findDuplicateOrs, andLoop_eq]
    obtain ⟨he, -⟩ | ⟨l, hl, -, hmem⟩ :=
      argLoop_cases (fun c => c != some true) (.const (some false)) (args.map findDuplicateOrs)
    · rw [he]
      exact .inl ⟨_, rfl, by simp⟩
    · rw [hl]
      have hl : ∀ e ∈ l, S e := fun e he => hargs e ((hmem e).1 he).1 ((hmem e).1 he).2
      obtain hc | hs := finishAnd_shape hS hl
      · exact .inl ⟨_, hc, by simp⟩
      · exact .inr hs
  | .const c, _ => .inl ⟨c, by rw [findDuplicateOrs], fun hc => by rw [hc]⟩
  | .atom a, h => by
    rw [findDuplicateOrs]
    exact .inr (hatom a h)
  | .not e, h => by
    rw [findDuplicateOrs]
    exact .inr (hnot e h)

theorem findDuplicateOrs_flat {e : Expr α} (h : flat e = true) :
    flat (findDuplicateOrs e) = true := by
  obtain ⟨c, hc, -⟩ | hs := findDuplicateOrs_shape (I := fun e => flat e = true) flat_shape
    (fun args h e he => (flat_and.1 h e he).1) (fun args h e he => (flat_or.1 h e he).1)
    (fun _ h => h) (fun _ h => h) e h
  · rw [hc]
    rfl
  · exact hs

end

mutual

/-- No constant in the AND/OR structure at the top of the tree. -/
def constFree : Expr α → Bool
  | .const _ => false
  | .atom _ => true
  | .and args => constFreeArgs args
  | .or args => constFreeArgs args
  | .not _ => true

def constFreeArgs : List (Expr α) → Bool
  | [] => true
  | e :: es => constFree e && constFreeArgs es

end

theorem constFreeArgs_iff {l : List (Expr α)} :
    constFreeArgs l = true ↔ ∀ e ∈ l, constFree e = true := by
  induction l with
  | nil => simp [constFreeArgs]
  | cons e l ih => rw [constFreeArgs, Bool.and_eq_true, ih, forall_mem_cons]

theorem constFree_shape : Shape
    (fun e : Expr α => constFree e = true) (fun _ => True) (fun _ => True) where
  and_iff l := by simp only [constFree, constFreeArgs_iff, and_true]
  or_iff l := by simp only [constFree, constFreeArgs_iff, and_true]
  okAnd_of _ _ := trivial
  okOr_of _ _ := trivial

/-- Only the NULL constant itself becomes a NULL constant. -/
theorem findDuplicateOrs_eq_null [DecidableEq α] {e : Expr α}
    (h : findDuplicateOrs e = .const none) : e = .const none := by
  obtain ⟨c, hc, hnone⟩ | hs := findDuplicateOrs_shape (I := fun _ => True) constFree_shape
    (fun _ _ _ _ => trivial) (fun _ _ _ _ => trivial) (fun _ _ => rfl) (fun _ _ => rfl) e trivial
  · rw [h] at hc
    exact hnone (by simpa using hc.symm)
  · rw [h] at hs
    simp [constFree] at hs

/-! ## NULL constants -/

/-- A NULL constant read as FALSE. -/
def nullArg : Expr α → Expr α
  | .const none => .const (some false)
  | e => e

mutual

/-- The tree with FALSE for every NULL constant that is an argument of the
AND/OR structure at its top. -/
def nullsFalse : Expr α → Expr α
  | .and args => .and (nullsFalseArgs args)
  | .or args => .or (nullsFalseArgs args)
  | .const c => .const c
  | .atom a => .atom a
  | .not arg => .not arg

def nullsFalseArgs : List (Expr α) → List (Expr α)
  | [] => []
  | e :: es => nullArg (nullsFalse e) :: nullsFalseArgs es

end

theorem nullsFalseArgs_eq (l : List (Expr α)) :
    nullsFalseArgs l = l.map fun e => nullArg (nullsFalse e) := by
  induction l with
  | nil => rfl
  | cons e l ih => rw [nullsFalseArgs, ih, map_cons]

theorem nullArg_of_ne {e : Expr α} (h : e ≠ .const none) : nullArg e = e := by
  unfold nullArg
  split
  · exact absurd rfl h
  · rfl

theorem nullsFalse_eq_null {e : Expr α} : nullsFalse e = .const none ↔ e = .const none := by
  cases e <;> simp [nullsFalse]

theorem accepts_nullArg_const (v : α → Truth) {P : Truth → Prop} (hP : Designated P)
    {c : Option Bool} :
    Accepts v P (nullArg (.const c)) ↔ c = some true := by
  obtain _ | b := c
  · simp [nullArg, accepts_const v hP]
  · simp [nullArg, accepts_const v hP]

/-- A WHERE clause does not see the difference. -/
theorem holds_nullsFalse (v : α → Truth) :
    ∀ e : Expr α, Accepts v (· = some true) (nullsFalse e) ↔ Accepts v (· = some true) e
  | .and args => by
    rw [nullsFalse, accepts_and v designated_true, accepts_and v designated_true, nullsFalseArgs_eq,
      List.forall_mem_map]
    exact forall₂_congr fun a ha => (holds_nullArg v _).trans (holds_nullsFalse v a)
  | .or args => by
    rw [nullsFalse, accepts_or v designated_true, accepts_or v designated_true, nullsFalseArgs_eq]
    simp only [List.mem_map, exists_exists_and_eq_and]
    exact exists_congr fun a => and_congr_right fun ha =>
      (holds_nullArg v _).trans (holds_nullsFalse v a)
  | .const _ | .atom _ | .not _ => by rw [nullsFalse]
where
  holds_nullArg (v : α → Truth) (e : Expr α) : Accepts v (· = some true) (nullArg e) ↔
    Accepts v (· = some true) e := by
    by_cases h : e = .const none
    · subst h
      simp [nullArg, Accepts, eval]
    · rw [nullArg_of_ne h]

section
variable [DecidableEq α] (v : α → Truth)

/-- Canonicalization keeps what is accepted, up to its reading of NULL constants. -/
theorem findDuplicateOrs_accepts {P : Truth → Prop} (hP : Designated P) :
    ∀ e : Expr α, Accepts v P (findDuplicateOrs e) ↔ Accepts v P (nullsFalse e)
  | .or args => by
    have hargs : Accepts v P (nullsFalse (.or args)) ↔
        ∃ e ∈ args.map findDuplicateOrs, Accepts v P (nullArg e) := by
      rw [nullsFalse, accepts_or v hP, nullsFalseArgs_eq]
      simp only [mem_map, exists_exists_and_eq_and]
      exact exists_congr fun a => and_congr_right fun ha =>
        (accepts_arg a (findDuplicateOrs_accepts hP a)).symm
    rw [findDuplicateOrs, orLoop_eq, hargs]
    obtain ⟨he, c, hc, hd⟩ | ⟨l, hl, hno, hmem⟩ :=
      argLoop_cases (fun c => c == some true) (.const (some true)) (args.map findDuplicateOrs)
    · rw [he]
      exact iff_of_true ((accepts_const v hP).2 rfl) ⟨_, hc,
        (accepts_nullArg_const v hP).2 (eq_of_beq hd)⟩
    · -- a constant that was dropped is not TRUE
      rw [hl]
      dsimp only
      rw [processDuplicateOrs_accepts v hP, accepts_pullOrs v hP]
      constructor
      · intro ⟨e, he, h⟩
        obtain ⟨hel, hne⟩ := (hmem e).1 he
        exact ⟨e, hel, by rwa [nullArg_of_ne (hne none)]⟩
      · intro ⟨e, he, h⟩
        have hne : ∀ c, e ≠ .const c := by
          intro c hc
          subst hc
          simpa [(accepts_nullArg_const v hP).1 h] using hno c he
        exact ⟨e, (hmem e).2 ⟨he, hne⟩, by rwa [nullArg_of_ne (hne none)] at h⟩
  | .and args => by
    have hargs : Accepts v P (nullsFalse (.and args)) ↔
        ∀ e ∈ args.map findDuplicateOrs, Accepts v P (nullArg e) := by
      rw [nullsFalse, accepts_and v hP, nullsFalseArgs_eq, forall_mem_map, forall_mem_map]
      exact forall₂_congr fun a ha => (accepts_arg a (findDuplicateOrs_accepts hP a)).symm
    rw [findDuplicateOrs, andLoop_eq, hargs]
    obtain ⟨he, c, hc, hd⟩ | ⟨l, hl, hno, hmem⟩ :=
      argLoop_cases (fun c => c != some true) (.const (some false)) (args.map findDuplicateOrs)
    · rw [he]
      refine iff_of_false (fun h => by simpa using (accepts_const v hP).1 h) fun h => ?_
      exact bne_iff_ne.1 hd ((accepts_nullArg_const v hP).1 (h _ hc))
    · -- a constant that was dropped is TRUE
      rw [hl]
      dsimp only
      rw [accepts_finishAnd v hP]
      constructor
      · intro h e he
        by_cases hc : ∃ c, e = .const c
        · obtain ⟨c, rfl⟩ := hc
          exact (accepts_nullArg_const v hP).2 (by simpa using hno c he)
        · have hne : ∀ c, e ≠ .const c := fun c hce => hc ⟨c, hce⟩
          rw [nullArg_of_ne (hne none)]
          exact h e ((hmem e).2 ⟨he, hne⟩)
      · intro h e he
        obtain ⟨hel, hne⟩ := (hmem e).1 he
        have := h e hel
        rwa [nullArg_of_ne (hne none)] at this
  | .const _ | .atom _ | .not _ => by rw [findDuplicateOrs, nullsFalse]
where
  accepts_arg {P : Truth → Prop} (a : Expr α) (ih : Accepts v P (findDuplicateOrs a) ↔
    Accepts v P (nullsFalse a)) :
      Accepts v P (nullArg (findDuplicateOrs a)) ↔ Accepts v P (nullArg (nullsFalse a)) := by
    by_cases h : a = .const none
    · subst h
      rw [findDuplicateOrs, nullsFalse]
    · rw [nullArg_of_ne fun he => h (findDuplicateOrs_eq_null he),
        nullArg_of_ne fun he => h (nullsFalse_eq_null.1 he), ih]

theorem findDuplicateOrs_holds (e : Expr α) : Holds v (findDuplicateOrs e) ↔ Holds v e :=
  (findDuplicateOrs_accepts v designated_true e).trans (holds_nullsFalse v e)

/-- Canonicalization keeps the rows a WHERE clause accepts, and its AND/OR flatness. -/
theorem canonicalizeQual_sound (q : Expr α) (hflat : flat q = true) :
    ∃ q', canonicalizeQual (some q) = some q' ∧ flat q' = true ∧
      ∀ v : α → Truth, eval v q' = some true ↔ eval v q = some true :=
  ⟨findDuplicateOrs q, rfl, findDuplicateOrs_flat hflat, fun v => findDuplicateOrs_holds v q⟩

/-- `(A AND B) OR (A AND C) OR NULL` -/
def distributed : Expr Char :=
  .or [.and [.atom 'A', .atom 'B'], .and [.atom 'A', .atom 'C'], .const none]

theorem canonicalizeQual_sound_distributed : flat distributed = true ∧
    ∃ q', canonicalizeQual (some distributed) = some q' ∧ flat q' = true ∧
      ∀ v : Char → Truth, eval v q' = some true ↔ eval v distributed = some true :=
  ⟨by decide, canonicalizeQual_sound distributed (by decide)⟩

example : canonicalizeQual (some distributed) =
    some (.and [.atom 'A', .or [.atom 'B', .atom 'C']]) := rfl

/-! ## CHECK constraints

`get_relation_constraints` (`src/backend/optimizer/util/plancat.c:1160-1202`)
canonicalizes CHECK and partition constraints the same way. A row passes these
when they are not FALSE.
-/

/-- A row that passes the constraint passes the canonicalized one iff it still
passes with the NULL constants of the AND/OR structure read as FALSE. -/
theorem canonicalizeQual_weakens_iff (c : Expr α) :
    (eval v c ≠ some false → ∀ c', canonicalizeQual (some c) = some c' → eval v c' ≠ some false) ↔
      (eval v c = some false ∨ eval v (nullsFalse c) ≠ some false) := by
  have hacc : eval v (findDuplicateOrs c) ≠ some false ↔ eval v (nullsFalse c) ≠ some false :=
    findDuplicateOrs_accepts v designated_ne_false c
  have hcanon : (∀ c', canonicalizeQual (some c) = some c' → eval v c' ≠ some false) ↔
      eval v (findDuplicateOrs c) ≠ some false := by simp [canonicalizeQual]
  rw [hcanon, hacc]
  exact imp_iff_not_or.trans (or_congr_left not_not)

end

/-- `A OR NULL` is NULL where `A` is FALSE, and its canonical form is `A`: the
row passes the constraint, but not the fact derived from it. -/
theorem canonicalizeQual_strengthens :
    eval (fun _ => some false) (.or [.atom 'A', .const none]) = none ∧
    canonicalizeQual (some (.or [.atom 'A', .const none])) = some (.atom 'A') ∧
    eval (fun _ => some false) (.atom 'A') = some false :=
  ⟨rfl, rfl, rfl⟩

end GreenPipeline.L3.Prepqual
