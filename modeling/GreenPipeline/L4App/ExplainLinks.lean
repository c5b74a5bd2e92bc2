import GreenPipeline.L4App.ExplainFields
import Mathlib.Data.List.Basic
import Mathlib.Order.Monotone.Basic
import Mathlib.Order.Nat

/-!
# The parents of the plans (`LinkNoeud`, `LinkNoeud1`)

`LinkNoeud1` marks the element that holds a plan with the index before the one
of its first plan, `LinkNoeud` looks back over the indentations of the text for
the last smaller one. On a document where the child plans of every plan stand
in one `Plans` element, and whose indentation grows with the depth, both give
every plan the index of the plan around it (`linkNoeud_agree`).
-/
namespace GreenPipeline.L4.ExplainLinks
open GreenPipeline.L4.ExplainXml GreenPipeline.L4.ExplainFields List Nat

/-! ## By indentation -/

/-- `indexOf("<Plan>")` on a line, none if it does not contain the tag. -/
def tagIndex : List Char → Option Nat
  | [] => none
  | c :: cs => if "<Plan>".toList.isPrefixOf (c :: cs) then some 0 else (tagIndex cs).map (· + 1)

/-- The inner loop, from `k - 1` down; it ends below 0 if no indentation is smaller.
mirrors JavaApp/src/godpostgresql/CProcess.java:689-694 -/
def lookBack (idIdent : List Int) (ident : Int) : Nat → Int
  | 0 => -1
  | k + 1 =>
    match idIdent[k]? with
    | none => k
    | some x => if ident ≤ x then lookBack idIdent ident k else k

/-- A line with a plan; the lists are `idIdent` and `parentIdlist`. -/
def linkLine (lists : List Int × List Int) (ident : Nat) : List Int × List Int :=
  let idIdent := lists.1 ++ [(ident : Int)]
  (idIdent, lists.2 ++ [lookBack idIdent ident (idIdent.length - 1) - 1])

/-- The list `parentIdlist` at the end. The empty lines at the end, which
`split` drops, hold no tag.
mirrors JavaApp/src/godpostgresql/CProcess.java:677-705 -/
def linkNoeud (xmlstr : String) : List Int :=
  (((xmlstr.toList.splitOn '\n').filterMap tagIndex).foldl linkLine ([-1], [])).2

/-! ## The plan around a plan -/

mutual

/-- For every plan of a node, in document order: the index of the plan around
it and the number of plans around it. `parent` and `depth` are those of the node,
`next` is the index of its first plan. -/
def links (parent : Int) (depth next : Nat) : Xml → List (Int × Nat)
  | .text _ => []
  | .elem t _ ds =>
    if t = "Plan" then (parent, depth) :: linksForest next (depth + 1) (next + 1) ds
    else linksForest parent depth next ds

def linksForest (parent : Int) (depth next : Nat) : List Xml → List (Int × Nat)
  | [] => []
  | x :: xs => links parent depth next x ++ linksForest parent depth (next + planCount x) xs

end

/-- The index of the plan around each plan, -1 if there is none. -/
def parentIndices (doc : Xml) : List Int := (links (-1) 0 0 doc).map Prod.fst

def planDepths (doc : Xml) : List Nat := (links (-1) 0 0 doc).map Prod.snd

def PlanFree (xs : List Xml) : Prop := byTagList "Plan" 0 xs = []

/-- The children of a plan: at most one of them, a `Plans` element at index `m`,
holds plans, and has the children `ys`. -/
inductive Holds : List Xml → Nat → List Xml → Prop
  | none {ds} : PlanFree ds → Holds ds 0 []
  | plans {before ys after} : PlanFree before → PlanFree after →
      Holds (before ++ .elem "Plans" [] ys :: after) before.length ys

/-- The children of an element that holds plans: plans, with their child plans
in one element each, and nodes without plans. -/
inductive PlanItems : List Xml → Prop
  | nil : PlanItems []
  | skip {x xs} : planCount x = 0 → PlanItems xs → PlanItems (x :: xs)
  | plan {attrs ds m ys xs} : Holds ds m ys → PlanItems ys → PlanItems xs →
      PlanItems (.elem "Plan" attrs ds :: xs)

/-- A document: the plan stands in an element without attributes, which may
stand in others. -/
inductive PlanDoc : Xml → Prop
  | holder {t xs} : t ≠ "Plan" → PlanItems xs → PlanDoc (.elem t [] xs)
  | outer {t attrs before x after} : t ≠ "Plan" → PlanFree before → PlanFree after → PlanDoc x →
      PlanDoc (.elem t attrs (before ++ x :: after))

/-! ## The cases of a list of plans -/

theorem length_byTagList (xs : List Xml) (i j : Nat) :
    (byTagList "Plan" i xs).length = (byTagList "Plan" j xs).length := by
  induction xs generalizing i j with
  | nil => rfl
  | cons x xs ih => rw [length_byTagList_cons, length_byTagList_cons, ih]

variable {xs : List Xml} {m : Nat} {attrs : List (String × String)} {f : Nat → Nat} {doc : Xml}

theorem PlanFree.byTagList_eq (h : PlanFree xs) (i : Nat) : byTagList "Plan" i xs = [] :=
  length_eq_zero_iff.1 ((length_byTagList xs i 0).trans (length_eq_zero_iff.2 h))

variable {x : Xml}

theorem planFree_cons : PlanFree (x :: xs) ↔ planCount x = 0 ∧ PlanFree xs := by
  rw [PlanFree, PlanFree, ← length_eq_zero_iff, length_byTagList_cons, Nat.add_eq_zero_iff,
    length_byTagList xs _ 0, length_eq_zero_iff]

theorem planFree_nil : PlanFree [] := rfl

/-- A node without plans adds nothing. -/
theorem byTagList_skip (h : planCount x = 0) (i : Nat) (xs : List Xml) :
    byTagList "Plan" i (x :: xs) = byTagList "Plan" (i + 1) xs := by
  have hx : byTagList "Plan" i [x] = [] := (planFree_cons.2 ⟨h, planFree_nil⟩).byTagList_eq i
  cases x with
  | text s => rfl
  | elem t attrs ds =>
    rw [byTagList_elem] at hx ⊢
    simp only [byTagList_nil, append_nil] at hx
    rw [hx, nil_append]

theorem PlanFree.byTagList_append (h : PlanFree xs) : ∀ (i : Nat) (ys : List Xml),
    byTagList "Plan" i (xs ++ ys) = byTagList "Plan" (i + xs.length) ys := by
  induction xs with
  | nil => exact fun i ys => rfl
  | cons x xs ih =>
    intro i ys
    obtain ⟨hx, hxs⟩ := planFree_cons.1 h
    rw [cons_append, byTagList_skip hx, ih hxs, length_cons, Nat.add_assoc, Nat.add_comm 1]

theorem length_links_of (xs : List Xml) : ∀ (parent : Int) (depth next i : Nat),
    (linksForest parent depth next xs).length = (byTagList "Plan" i xs).length := by
  induction xs using forest_induction with
  | nil => intros; rfl
  | text s xs ih => exact fun parent depth next i => ih parent depth next (i + 1)
  | elem t attrs ds xs ihds ihxs =>
    intro parent depth next i
    rw [linksForest, links, length_append, length_byTagList_cons, ihxs _ _ _ (i + 1), planCount]
    split
    · rw [length_cons, ihds _ _ _ 0, Nat.add_comm 1]
    · rw [ihds _ _ _ 0, Nat.zero_add]

theorem links_of_planCount (h : planCount x = 0) (parent : Int) (depth next : Nat) :
    links parent depth next x = [] := by
  have hlen := length_links_of [x] parent depth next 0
  rw [length_byTagList_cons, h, linksForest, linksForest, append_nil] at hlen
  exact length_eq_zero_iff.1 hlen

theorem linksForest_skip (h : planCount x = 0) (parent : Int) (depth next : Nat) (xs : List Xml) :
    linksForest parent depth next (x :: xs) = linksForest parent depth next xs := by
  rw [linksForest, links_of_planCount h, nil_append, h, Nat.add_zero]

theorem PlanFree.linksForest_append (h : PlanFree xs) (parent : Int) (depth next : Nat)
    (ys : List Xml) : linksForest parent depth next (xs ++ ys) =
      linksForest parent depth next ys := by
  induction xs with
  | nil => rfl
  | cons x xs ih =>
    obtain ⟨hx, hxs⟩ := planFree_cons.1 h
    rw [cons_append, linksForest_skip hx, ih hxs]

theorem PlanFree.linksForest_eq (h : PlanFree xs) (parent : Int) (depth next : Nat) :
    linksForest parent depth next xs = [] := by
  simpa [linksForest] using h.linksForest_append parent depth next []

section

variable {ds ys : List Xml} (h : Holds ds m ys)
include h

theorem Holds.byTagList_eq : byTagList "Plan" 0 ds = (byTagList "Plan" 0 ys).map (under m) := by
  cases h with
  | none hfree => exact hfree
  | plans hbefore hafter => simp [hbefore.byTagList_append, byTagList_elem, hafter.byTagList_eq]

theorem Holds.linksForest_eq (parent : Int) (depth next : Nat) :
    linksForest parent depth next ds = linksForest parent depth next ys := by
  cases h with
  | none hfree => simp [hfree.linksForest_eq, linksForest]
  | plans hbefore hafter =>
    simp [hbefore.linksForest_append, linksForest, links, hafter.linksForest_eq]

theorem Holds.get_eq (hne : byTagList "Plan" 0 ys ≠ []) (t : String)
    (attrs : List (String × String)) (q : Path) :
    get (.elem t attrs ds) (m :: q) = get (.elem "Plans" [] ys) q := by
  cases h with
  | none => exact absurd rfl hne
  | plans => simp [ExplainXml.get, childNodes]

/-- A plan at the front: the entries and the links of its child plans follow its own. -/
theorem byTagList_plan (i : Nat) (xs : List Xml) :
    byTagList "Plan" i (.elem "Plan" attrs ds :: xs) =
    ([i], .elem "Plan" attrs ds) :: (byTagList "Plan" 0 ys).map (under i ∘ under m) ++
      byTagList "Plan" (i + 1) xs := by
  rw [byTagList_elem, if_pos rfl, h.byTagList_eq, map_map]
  rfl

theorem linksForest_plan (parent : Int) (depth next : Nat) (xs : List Xml) :
    linksForest parent depth next (.elem "Plan" attrs ds :: xs) =
    (parent, depth) :: linksForest next (depth + 1) (next + 1) ys ++
      linksForest parent depth (next + 1 + (byTagList "Plan" 0 ys).length) xs := by
  rw [linksForest, links, if_pos rfl, h.linksForest_eq, planCount, if_pos rfl, h.byTagList_eq,
    length_map, Nat.add_assoc]

end

/-! ## The indentations -/

/-- The depths of the plans of a forest are at least its own. -/
theorem depth_le_links (h : PlanItems xs) : ∀ (parent : Int)
    (depth next : Nat), ∀ link ∈ linksForest parent depth next xs, depth ≤ link.2 := by
  induction h with
  | nil => simp [linksForest]
  | skip hx _ ih =>
    intro parent depth next
    rw [linksForest_skip hx]
    exact ih parent depth next
  | plan hds _ _ ihys ihxs =>
    intro parent depth next link hlink
    rw [linksForest_plan hds, mem_append, mem_cons] at hlink
    rcases hlink with (rfl | hys) | hxs
    · exact le_refl depth
    · exact le_of_succ_le (ihys _ _ _ link hys)
    · exact ihxs _ _ _ link hxs

/-- At depth `depth`, looking back ends at position `q`. -/
structure EndsAt (f : Nat → Nat) (idIdent : List Int) (q depth : Nat) : Prop where
  smaller : ∃ x, idIdent[q]? = some x ∧ x < f depth
  later : ∀ k x, q < k → idIdent[k]? = some x → (f depth : Int) ≤ x

theorem EndsAt.lookBack_eq {idIdent : List Int} {q depth : Nat} (h : EndsAt f idIdent q depth) :
    ∀ n, q < n → n ≤ idIdent.length → ∀ more, lookBack (idIdent ++ more) (f depth) n = q
  | 0, hq, _, _ => absurd hq (Nat.not_lt_zero q)
  | n + 1, hq, hn, more => by
    have hget : (idIdent ++ more)[n]? = some idIdent[n] := by
      rw [getElem?_append_left hn, getElem?_eq_getElem hn]
    simp only [lookBack, hget]
    rcases lt_or_eq_of_le (le_of_lt_succ hq) with hlt | rfl
    · have hge := h.later n _ hlt (getElem?_eq_getElem hn)
      rw [if_pos hge]
      exact h.lookBack_eq n hlt (le_of_succ_le hn) more
    · obtain ⟨x, hx, hlt⟩ := h.smaller
      rw [getElem?_eq_getElem hn, Option.some.injEq] at hx
      rw [if_neg (by omega)]

theorem EndsAt.append {idIdent more : List Int} {q depth : Nat} (h : EndsAt f idIdent q depth)
    (hmore : ∀ x ∈ more, (f depth : Int) ≤ x) : EndsAt f (idIdent ++ more) q depth where
  smaller := by
    obtain ⟨x, hx, hlt⟩ := h.smaller
    exact ⟨x, by rw [List.getElem?_append_left (List.getElem?_eq_some_iff.1 hx).1, hx], hlt⟩
  later k x hk hx := by
    rcases lt_or_ge k idIdent.length with hin | hout
    · rw [getElem?_append_left hin] at hx
      exact h.later k x hk hx
    · rw [getElem?_append_right hout] at hx
      exact hmore x (mem_of_getElem? hx)

/-- The plan just added is the one around its child plans. -/
theorem EndsAt.child (hf : StrictMono f) (idIdent : List Int) (depth : Nat) :
    EndsAt f (idIdent ++ [(f depth : Int)]) idIdent.length (depth + 1) where
  smaller := ⟨f depth, by simp, by exact_mod_cast hf (lt_succ_self depth)⟩
  later k x hk hx := by
    have hlen := (List.getElem?_eq_some_iff.1 hx).1
    simp at hlen
    omega

/-- The run of `LinkNoeud` over the lines of a forest. -/
theorem linkLine_run (hf : StrictMono f) (h : PlanItems xs) :
    ∀ (q depth next : Nat) (idIdent parents : List Int), EndsAt f idIdent q depth →
      idIdent.length = next + 1 →
      ((linksForest ((q : Int) - 1) depth next xs).map fun link => f link.2).foldl linkLine
        (idIdent, parents) =
        (idIdent ++ (linksForest ((q : Int) - 1) depth next xs).map (fun link => (f link.2 : Int)),
          parents ++ (linksForest ((q : Int) - 1) depth next xs).map Prod.fst) := by
  induction h with
  | nil => simp [linksForest]
  | skip hx _ ih =>
    intro q depth next
    rw [linksForest_skip hx]
    exact ih q depth next
  | @plan attrs ds m ys xs hds hys _ ihys ihxs =>
    intro q depth next idIdent parents hends hlen
    have hq : q < idIdent.length := (List.getElem?_eq_some_iff.1 hends.smaller.choose_spec.1).1
    have hself : linkLine (idIdent, parents) (f depth) =
        (idIdent ++ [(f depth : Int)], parents ++ [(q : Int) - 1]) := by
      simp [linkLine, hends.lookBack_eq _ hq (le_refl _)]
    have hnext : (next : Int) = ((next + 1 : Nat) : Int) - 1 := by omega
    rw [linksForest_plan hds, hnext, map_append, map_cons, foldl_append, foldl_cons, hself,
      ihys (next + 1) (depth + 1) (next + 1) _ _ (hlen ▸ EndsAt.child hf idIdent depth)
      (by simp [hlen]), ihxs]
    · simp
    · -- what has been added is not indented less
      refine (hends.append (by simp)).append fun x hx => ?_
      obtain ⟨link, hlink, rfl⟩ := mem_map.1 hx
      have hdepth := le_of_succ_le (depth_le_links hys _ _ _ link hlink)
      exact_mod_cast hf.monotone hdepth
    · simp [hlen, length_links_of ys _ _ _ 0]
      omega

/-! ## The attributes -/

/-- The elements that hold the plans found. -/
def holders (entries : List (Path × Xml)) : List Path := entries.map (·.1.dropLast)

/-- An element that `LinkNoeud1` can mark. -/
def Markable (doc : Xml) (entry : Path × Xml) : Prop :=
  entry.1 ≠ [] ∧ (get doc entry.1.dropLast).elim [] attributes = []

/-- Every holder is marked once, with the index before that of its first plan. -/
theorem setParentIds_lookup : ∀ {entries : List (Path × Xml)} (i : Nat)
    (ids : List (Path × Int)), (∀ entry ∈ entries, Markable doc entry) →
      ∃ ids', setParentIds doc entries i ids = .ok ids' ∧ ∀ h, ids'.lookup h = (ids.lookup h).or
        (if h ∈ holders entries then
          some ((i + (holders entries).idxOf h : Nat) - 1 : Int) else none)
  | [], i, ids, _ => ⟨ids, rfl, by simp [holders]⟩
  | ([], _) :: _, _, _, hmark => absurd rfl (hmark _ List.mem_cons_self).1
  | (j :: path, x) :: rest, i, ids, hmark => by
    have hattrs : (get doc (j :: path).dropLast).elim [] attributes = [] :=
      (hmark _ mem_cons_self).2
    have hcons : holders ((j :: path, x) :: rest) = (j :: path).dropLast :: holders rest := rfl
    obtain ⟨ids', hok, hlookup⟩ := setParentIds_lookup (i + 1)
      (if (ids.lookup (j :: path).dropLast).isSome then ids else
        ((j :: path).dropLast, (i : Int) - 1) :: ids)
      (forall_mem_cons.1 hmark).2
    refine ⟨ids', ?_, fun h => ?_⟩
    · rw [setParentIds]
      · refine Eq.trans ?_ hok
        congr 1
        exact if_congr (by simp [hattrs]) rfl rfl
      · simp
    rw [hlookup, hcons]
    by_cases hh : (j :: path).dropLast = h
    · subst hh
      cases hget : ids.lookup (j :: path).dropLast with
      | none => simp
      | some v => simp [hget]
    · have hlater : (i + 1 + (holders rest).idxOf h : Nat) = i + ((holders rest).idxOf h + 1) := by
        omega
      rw [idxOf_cons_ne _ hh, hlater]
      cases hget : ids.lookup (j :: path).dropLast with
      | none => simp [lookup_cons, Ne.symm hh, beq_eq_false_iff_ne.2 (Ne.symm hh)]
      | some v => simp [Ne.symm hh]

theorem readParentIds_eq {ids : List (Path × Int)} {value : Path → Int} :
    ∀ {entries : List (Path × Xml)}
      (parents : List Int), (∀ h ∈ holders entries, ids.lookup h = some (value h)) →
      readParentIds doc ids entries parents = (parents ++ (holders entries).map value, none)
  | [], parents, _ => by simp [readParentIds, holders]
  | (path, x) :: rest, parents, h => by
    have hfirst := h path.dropLast mem_cons_self
    rw [readParentIds, parentId, hfirst]
    simp [readParentIds_eq (parents ++ [value path.dropLast]) (forall_mem_cons.1 h).2, holders]

theorem linkNoeud1_eq (h : ∀ entry ∈ plans doc, Markable doc entry) : linkNoeud1 doc =
      ((holders (plans doc)).map fun k => ((holders (plans doc)).idxOf k : Int) - 1, none) := by
  obtain ⟨ids, hok, hlookup⟩ := setParentIds_lookup 0 [] h
  rw [linkNoeud1, hok]
  refine (readParentIds_eq [] fun k hk => ?_).trans (by rw [nil_append])
  simp [hlookup, hk]

theorem PlanItems.markable (h : PlanItems xs) : ∀ (t : String) (done : List Xml),
    ∀ entry ∈ byTagList "Plan" done.length xs, Markable (.elem t [] (done ++ xs)) entry := by
  induction h with
  | nil => simp
  | @skip x xs hx _ ih =>
    intro t done entry hentry
    rw [byTagList_skip hx] at hentry
    simpa using ih t (done ++ [x]) entry (by simpa using hentry)
  | @plan attrs ds m ys xs hds _ _ ihys ihxs =>
    intro t done entry hentry
    rw [byTagList_plan hds, mem_append, mem_cons, mem_map] at hentry
    rcases hentry with (rfl | ⟨e, he, rfl⟩) | hxs
    · exact ⟨by simp, rfl⟩
    · obtain ⟨hne, hattrs⟩ := ihys "Plans" [] e he
      refine ⟨by simp [under], ?_⟩
      have hget : get (.elem t [] (done ++ .elem "Plan" attrs ds :: xs))
          (done.length :: m :: e.1.dropLast) =
          get (.elem "Plans" [] ys) e.1.dropLast := by
        rw [← hds.get_eq (ne_nil_of_mem he) "Plan" attrs]
        simp [ExplainXml.get, childNodes]
      have hlast : (done.length :: m :: e.1).dropLast = done.length :: m :: e.1.dropLast := by
        obtain ⟨path, x⟩ := e
        cases path with
        | nil => exact absurd rfl hne
        | cons => rfl
      simp only [Function.comp_apply, under]
      rw [hlast, hget]
      exact hattrs
    · rw [append_cons]
      exact ihxs t (done ++ [.elem "Plan" attrs ds]) entry (by simpa using hxs)

/-! ## The index of a holder's first plan -/

theorem idxOf_map_of_injective {α β : Type} [BEq α] [LawfulBEq α] [BEq β] [LawfulBEq β] {g : α → β}
    (hg : Function.Injective g) (a : α) (l : List α) : (l.map g).idxOf (g a) = l.idxOf a := by
  induction l with
  | nil => rfl
  | cons b l ih =>
    by_cases hb : b = a
    · simp [hb]
    · rw [map_cons, idxOf_cons_ne _ (hg.ne hb), idxOf_cons_ne _ hb, ih]

theorem linksForest_shift (h : PlanItems xs) (s : Nat) : ∀ (parent : Int) (depth depth' next : Nat),
    (linksForest (parent + s) depth (next + s) xs).map Prod.fst =
      (linksForest parent depth' next xs).map fun link => link.1 + (s : Int) := by
  induction h with
  | nil => simp [linksForest]
  | skip hx _ ih =>
    intro parent depth depth' next
    rw [linksForest_skip hx, linksForest_skip hx]
    exact ih parent depth depth' next
  | plan hds _ _ ihys ihxs =>
    intro parent depth depth' next
    have hys := ihys next (depth + 1) (depth' + 1) (next + 1)
    have hxs := ihxs parent depth depth'
    rw [linksForest_plan hds, linksForest_plan hds]
    rw [map_append, map_append, map_cons, map_cons, ← hxs, ← hys, Nat.add_right_comm next s,
      Nat.add_right_comm _ s, Int.natCast_add]

theorem holders_under {entries : List (Path × Xml)}
    (h : ∀ entry ∈ entries, entry.1 ≠ []) (i : Nat) :
    holders (entries.map (under i)) = (holders entries).map (i :: ·) := by
  rw [holders, holders, map_map, map_map]
  refine map_congr_left fun entry hentry => ?_
  simp [under, dropLast_cons_of_ne_nil (h entry hentry)]

theorem holders_plan {ds ys : List Xml} (h : Holds ds m ys) (hys : PlanItems ys) (i : Nat)
    (xs : List Xml) :
    holders (byTagList "Plan" i (.elem "Plan" attrs ds :: xs)) =
      ([] :: (holders (byTagList "Plan" 0 ys)).map fun k => i :: m :: k) ++
        holders (byTagList "Plan" (i + 1) xs) := by
  have hne : ∀ entry ∈ byTagList "Plan" 0 ys, entry.1 ≠ [] :=
    fun entry hentry => (hys.markable "" [] entry hentry).1
  have hinner : holders ((byTagList "Plan" 0 ys).map (under i ∘ under m)) =
      (holders (byTagList "Plan" 0 ys)).map fun k => i :: m :: k := by
    rw [← map_map, holders_under, holders_under hne, map_map]
    · rfl
    · intro entry hentry
      obtain ⟨e, -, rfl⟩ := mem_map.1 hentry
      exact cons_ne_nil m e.1
  rw [byTagList_plan h, ← hinner]
  simp [holders]

theorem idxOf_below {i : Nat} {done inner : List Path} (hbelow : ∀ k ∈ done, ∀ j ∈ k.head?, j < i)
    {k : Path} (hk : k ∈ inner) (rest : List Path) :
    (done ++ (([] :: inner.map fun k => i :: m :: k) ++ rest)).idxOf (i :: m :: k) =
      inner.idxOf k + (done.length + 1) := by
  have hinj : Function.Injective fun k : Path => i :: m :: k := fun a b hab => by simpa using hab
  have hnew : i :: m :: k ∉ done := fun hmem => lt_irrefl i (hbelow _ hmem i rfl)
  have hmem : i :: m :: k ∈ inner.map fun k => i :: m :: k := mem_map_of_mem hk
  have hmap := idxOf_map_of_injective hinj k inner
  rw [idxOf_append_of_notMem hnew, cons_append, idxOf_cons_ne _ (by simp),
    idxOf_append_of_mem hmem, hmap]
  omega

/-- The child plans of the plan after `done`, which are the holders of the plans before. -/
theorem idxOf_children {ys : List Xml} (hys : PlanItems ys) {i depth : Nat} {done inner : List Path}
    (hbelow : ∀ k ∈ done, ∀ j ∈ k.head?, j < i) (rest : List Path)
    (h : inner.map (fun k => (inner.idxOf k : Int) - 1) =
      (linksForest (-1) (depth + 1) 0 ys).map Prod.fst) :
    inner.map (fun k =>
      ((done ++ (([] :: inner.map fun k => i :: m :: k) ++ rest)).idxOf (i :: m :: k) : Int) - 1) =
      (linksForest done.length (depth + 1) (done.length + 1) ys).map Prod.fst := by
  have hpos : ∀ k ∈ inner,
      ((done ++ (([] :: inner.map fun k => i :: m :: k) ++ rest)).idxOf (i :: m :: k) : Int) - 1 =
      ((inner.idxOf k : Int) - 1) + (done.length + 1 : Nat) := by
    intro k hk
    rw [idxOf_below hbelow hk]
    omega
  have hshift := linksForest_shift hys (done.length + 1) (-1) (depth + 1) (depth + 1) 0
  have hbase : (-1 : Int) + (done.length + 1 : Nat) = done.length := by omega
  rw [hbase, Nat.zero_add] at hshift
  have hadd := congrArg (map (· + ((done.length + 1 : Nat) : Int))) h
  rw [map_map, map_map] at hadd
  exact ((map_congr_left hpos).trans hadd).trans hshift.symm

/-- The first plan of a holder directly follows the plan around it. `done` are
the holders of the plans before: the same one, or one below an earlier child. -/
theorem idxOf_holders (h : PlanItems xs) : ∀ (i depth : Nat)
    (done : List Path), (∀ k ∈ done.head?, k = []) → (∀ k ∈ done, ∀ j ∈ k.head?, j < i) →
      (holders (byTagList "Plan" i xs)).map
        (fun k => ((done ++ holders (byTagList "Plan" i xs)).idxOf k : Int) - 1) =
        (linksForest (-1) depth done.length xs).map Prod.fst := by
  induction h with
  | nil => simp [holders, linksForest]
  | skip hx _ ih =>
    intro i depth done hhead hbelow
    rw [byTagList_skip hx, linksForest_skip hx]
    exact ih (i + 1) depth done hhead fun k hk j hj => lt_succ_of_lt (hbelow k hk j hj)
  | @plan attrs ds m ys xs hds hys _ ihys ihxs =>
    intro i depth done hhead hbelow
    have hchildren := ihys 0 (depth + 1) [] (by simp) (by simp)
    have hcount : (holders (byTagList "Plan" 0 ys)).length = (byTagList "Plan" 0 ys).length :=
      length_map _
    rw [linksForest_plan hds, holders_plan hds hys, ← hcount]
    generalize holders (byTagList "Plan" 0 ys) = inner at hchildren ⊢
    have hfirst : ∀ more, ∀ k ∈ (done ++ [] :: more).head?, k = [] := by
      cases done with
      | nil => simp
      | cons k done => simpa using hhead
    have hself : ∀ more rest, (done ++ (([] :: more) ++ rest)).idxOf [] = 0 := fun more rest =>
      (idxOf_eq_zero_iff_eq_nil_or_head_eq []).2 (.inr (by simpa using hfirst (more ++ rest)))
    have hrest := ihxs (i + 1) depth (done ++ [] :: inner.map fun k => i :: m :: k) (hfirst _) ?_
    · rw [map_append, map_append, map_cons, map_cons, hself, map_map]
      refine congrArg₂ _ (congrArg₂ _ rfl ?_) ?_
      · exact idxOf_children hys hbelow _ hchildren
      · simpa [Nat.add_assoc, Nat.add_comm 1] using hrest
    · intro k hk j hj
      rw [mem_append, mem_cons, mem_map] at hk
      rcases hk with hdone | rfl | ⟨e, -, rfl⟩
      · exact lt_succ_of_lt (hbelow k hdone j hj)
      · simp at hj
      · obtain rfl : i = j := by simpa using hj
        exact lt_succ_self i

/-! ## The document -/

theorem plans_of_ne {t : String} (ht : t ≠ "Plan") (attrs : List (String × String))
    (xs : List Xml) :
    plans (.elem t attrs xs) = byTagList "Plan" 0 xs := by
  unfold plans
  split
  · next heq => exact absurd (Xml.elem.inj heq).1 ht
  · rfl

theorem plans_outer {t : String} (ht : t ≠ "Plan") (attrs : List (String × String))
    {before after : List Xml} (hbefore : PlanFree before) (hafter : PlanFree after) (x : Xml) :
    plans (.elem t attrs (before ++ x :: after)) = (plans x).map (under before.length) := by
  rw [plans_of_ne ht, hbefore.byTagList_append, byTagList_cons, hafter.byTagList_eq,
    append_nil, Nat.zero_add]

/-- The links of a document are those of the children of the holder. -/
theorem PlanDoc.links_eq (h : PlanDoc doc) :
    ∃ xs, PlanItems xs ∧ ∀ parent depth next,
      links parent depth next doc = linksForest parent depth next xs := by
  induction h with
  | @holder t xs ht hxs => exact ⟨xs, hxs, fun parent depth next => by rw [links, if_neg ht]⟩
  | @outer t attrs before x after ht hbefore hafter _ ih =>
    obtain ⟨xs, hxs, hlinks⟩ := ih
    refine ⟨xs, hxs, fun parent depth next => ?_⟩
    rw [links, if_neg ht, hbefore.linksForest_append, linksForest, hafter.linksForest_eq,
      append_nil, hlinks]

theorem PlanDoc.markable (h : PlanDoc doc) : ∀ entry ∈ plans doc, Markable doc entry := by
  induction h with
  | @holder t xs ht hxs =>
    rw [plans_of_ne ht]
    exact hxs.markable t []
  | @outer t attrs before x after ht hbefore hafter _ ih =>
    intro entry hentry
    rw [plans_outer ht attrs hbefore hafter, mem_map] at hentry
    obtain ⟨e, he, rfl⟩ := hentry
    obtain ⟨hne, hattrs⟩ := ih e he
    refine ⟨by simp [under], ?_⟩
    simpa [under, dropLast_cons_of_ne_nil hne, ExplainXml.get, childNodes] using hattrs

theorem PlanDoc.idxOf_holders_eq (h : PlanDoc doc) :
    (holders (plans doc)).map (fun k => ((holders (plans doc)).idxOf k : Int) - 1) =
      parentIndices doc := by
  induction h with
  | @holder t xs ht hxs =>
    rw [plans_of_ne ht, parentIndices, links, if_neg ht]
    exact idxOf_holders hxs 0 0 [] (by simp) (by simp)
  | @outer t attrs before x after ht hbefore hafter hx ih =>
    have hinj : Function.Injective (before.length :: · : Path → Path) := fun a b hab => by
      simpa using hab
    have hlinks : parentIndices (.elem t attrs (before ++ x :: after)) = parentIndices x := by
      rw [parentIndices, parentIndices, links, if_neg ht, hbefore.linksForest_append, linksForest,
        hafter.linksForest_eq, append_nil]
    rw [plans_outer ht attrs hbefore hafter, holders_under fun e he => (hx.markable e he).1, hlinks,
      ← ih, map_map]
    refine map_congr_left fun k _ => ?_
    rw [Function.comp_apply, idxOf_map_of_injective hinj]

/-- **The parent links.** On every document whose plans have their child plans
in one `Plans` element each, and on every text of it in which a plan is indented
according to its depth, `LinkNoeud1` and `LinkNoeud` both give every plan the
index of the plan around it. -/
theorem linkNoeud_agree {doc : Xml} (h : PlanDoc doc) {f : Nat → Nat} (hf : StrictMono f)
    {xmlstr : String}
    (htext : (xmlstr.toList.splitOn '\n').filterMap tagIndex = (planDepths doc).map f) :
    linkNoeud1 doc = (parentIndices doc, none) ∧ linkNoeud xmlstr = parentIndices doc := by
  constructor
  · rw [linkNoeud1_eq h.markable, h.idxOf_holders_eq]
  · obtain ⟨xs, hxs, hlinks⟩ := h.links_eq
    have hstart : EndsAt f [-1] 0 0 := ⟨⟨-1, rfl, by omega⟩, fun k x hk hx => by
      have hlen := (List.getElem?_eq_some_iff.1 hx).1
      simp at hlen
      omega⟩
    have hrun := linkLine_run hf hxs 0 0 0 [-1] [] hstart rfl
    rw [linkNoeud, htext, planDepths, parentIndices, hlinks, List.map_map]
    exact congrArg Prod.snd hrun

/-- A join of a sort of a scan with another scan. -/
def joinOfSort : Xml :=
  .elem "Query" [] [.elem "Plan" [] [.elem "Plans" [] [
    .elem "Plan" [] [.elem "Plans" [] [.elem "Plan" [] []]], .elem "Plan" [] []]]]

def joinOfSortText : String :=
  String.intercalate "\n" ["<Query>", " <Plan>", "  <Plans>", "   <Plan>", "    <Plans>",
    "     <Plan>", "     </Plan>", "    </Plans>", "   </Plan>", "   <Plan>", "   </Plan>",
    "  </Plans>", " </Plan>", "</Query>"]

theorem linkNoeud_agree_joinOfSort :
    linkNoeud1 joinOfSort = ([-1, 0, 1, 0], none) ∧ linkNoeud joinOfSortText = [-1, 0, 1, 0] := by
  have hplans : ∀ ys, Holds [.elem "Plans" [] ys] 0 ys := fun ys => @Holds.plans [] ys [] rfl rfl
  have hleaf : ∀ {xs}, PlanItems xs → PlanItems (.elem "Plan" [] [] :: xs) :=
    fun hxs => .plan (.none rfl) .nil hxs
  have hdoc : PlanDoc joinOfSort :=
    .holder (by decide) (.plan (hplans _) (.plan (hplans _) (hleaf .nil) (hleaf .nil)) .nil)
  have hf : StrictMono fun d : Nat => 2 * d + 1 := fun a b hab => by
    dsimp only
    omega
  exact linkNoeud_agree hdoc hf (by decide +kernel)

end GreenPipeline.L4.ExplainLinks
