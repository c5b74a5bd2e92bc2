import GreenPipeline.L4App.ExplainXml

/-!
# The static state of `CProcess`

`ParseXMLFormat` and `NodesEdges`
(`JavaApp/src/godpostgresql/CProcess.java:327-391`) with the static lists they
work on. The lists only grow: `nodesplan` gets one entry for each plan of all
calls, while the index `i` that `NodesEdges` reads it with counts the
statements of the current call, and `NodesParend` is overwritten by every
plan. Segmentation and the tabs read `nodesplan` by its own index.

A call is given by the documents of its statements. An exception ends the call
and leaves the lists as they are at that point.

Results:

* `drawLoop_congr`, `drawLoop_forget`: what the loop over the nodes of a plan
  writes depends on what is shown of them, and it changes nothing but images.
* `Inv.statement`, `Inv.call`, `explainAll_inv`: the lists after a history,
  if the `i`th statement of each call shows what the `i`th plan of the whole
  history shows.
* `explain_no_memory`: then every plan is drawn as it is alone, and a tab is
  segmented as its own plan if that has the parents of the last one.
* `second_query_lost`: two queries, one after the other, where it is not so.
-/
namespace GreenPipeline.L4.CProcess

open GreenPipeline.L4.ExplainXml List Option

/-! ## What is shown of a node -/

/-- `split(" ")` on the characters before the trailing empty parts are dropped. -/
def splitBlank : List Char → List (List Char)
  | [] => [[]]
  | ' ' :: cs => [] :: splitBlank cs
  | c :: cs =>
    match splitBlank cs with
    | [] => [[c]]
    | part :: parts => (c :: part) :: parts

/-- `String.split(" ")`: trailing empty parts are dropped, unless nothing was split. -/
def split (s : String) : List String :=
  match splitBlank s.toList with
  | [part] => [String.ofList part]
  | parts => (parts.reverse.dropWhile List.isEmpty).reverse.map String.ofList

/-- The images of the node types that are told by their first word.
mirrors CProcess.java:764-798 -/
def imageTable : List (String × String) :=
  [("Total", ""), ("Trigger", ""), ("Settings", ""), ("Result", "ex_result"),
    ("Append", "ex_append"), ("Aggregate", "ex_aggregate"), ("BitmapAnd", "ex_bmp_and"),
    ("BitmapOr", "ex_bmp_or"), ("Group", "ex_group"), ("GroupAggregate", "ex_aggregate"),
    ("Table", "ex_table_func_scan"), ("HashAggregate", "ex_aggregate"), ("Limit", "ex_limit"),
    ("LockRows", "ex_lock_rows"), ("Materialize", "ex_materialize"),
    ("ProjectSet", "ex_projectset"), ("Scan", "ex_scan"), ("Seek", "ex_seek"), ("Sort", "ex_sort"),
    ("Unique", "ex_unique"), ("WindowAgg", "ex_window_aggregate"), ("Undefined", "ex_unknown"),
    ("Subquery", "ex_subplan"), ("Function", "ex_result"), ("Tid", "ex_tid_scan"),
    ("WorkTable", "ex_worktable_scan"), ("Foreign", "ex_foreign_scan"),
    ("Recursive", "ex_recursive_union"), ("Insert", "ex_insert"), ("Update", "ex_update"),
    ("Delete", "ex_delete"), ("Values", "ex_values_scan"), ("CTE", "ex_cte_scan"),
    ("Named", "ex_named_tuplestore_scan"), ("Sample", "ex_scan"), ("Seq", "ex_scan")]

section
variable {D : Type}

/-- The image of a set operation.
mirrors CProcess.java:838-853 -/
def setOpImg (nd : Nodes D) : String :=
  if nd.strategie = "Hashed" then
    if "Intersect".toList.isPrefixOf nd.command.toList then
      if nd.command = "Intersect All" then "ex_hash_setop_intersect_all"
      else "ex_hash_setop_intersect"
    else if "Except".toList.isPrefixOf nd.command.toList then
      if nd.command = "Except All" then "ex_hash_setop_except_all" else "ex_hash_setop_except"
    else "ex_hash_setop_unknown"
  else "ex_setop"

/-- The name of the image. The `switch` statements over the join type have no
`break`, so for joins all cases end in the default.
mirrors CProcess.java:752-857 -/
def getNodeImg (nd : Nodes D) : String :=
  let tokens := split nd.nodeType
  let token := tokens.getD 0 ""
  let token2 := tokens.getD 1 ""
  let token3 := tokens.getD 2 ""
  match imageTable.lookup token with
  | some img => img
  | none =>
    if token = "Bitmap" then if token2 = "Index" then "ex_bmp_index" else "ex_bmp_heap"
    else if token = "Gather" then if token2 = "Merge" then "ex_gather_merge" else "ex_gather_motion"
    else if token = "Index" then
      if token2 = "Only" then "ex_index_only_scan"
      else if token3 = "Backword" then "ex_gather_motion" else "ex_index_scan"
    else if token = "Merge" then if token2 = "Append" then "ex_merge_append" else "ex_merge"
    else if token = "Nested" then "ex_nested"
    else if token = "Hash" then "ex_hash"
    else if token = "SetOp" then setOpImg nd
    else ""

variable (env : Env D)

/-- mirrors CProcess.java:730-751 -/
def getNodeLabel (nd : Nodes D) : String :=
  ", title: '" ++
  (if nd.tabname.length > 0 then "<b>Table:</b> " ++ nd.tabname ++ "<br>" else "") ++
  "<b>Parallel-Aware:</b> " ++ nd.parallel ++ "<br>" ++
  "<b>Startup-Cost:</b> " ++ env.print nd.startCost ++ "<br>" ++
  "<b>Total-Cost:</b> " ++ env.print nd.totalCost ++ "<br>" ++
  "<b>Plan-Rows:</b> " ++ toString nd.rows ++ "<br>" ++
  "<b>IO-Cost:</b> " ++ env.print nd.ioCost ++ "<br>" ++
  "<b>CPU-Cost:</b> " ++ env.print nd.cpuCost ++ "<br>" ++
  "<b>Power-Cost:</b> " ++ env.print (env.sub nd.powerCost env.B0) ++ "<br>" ++
  (if nd.wrPlan > -1 then "<b>Workers-Planned:</b> " ++ toString nd.wrPlan ++ "<br>" else "") ++
  (if nd.wrLau > -1 then "<b>Workers-Launched:</b> " ++ toString nd.wrLau ++ "<br>" else "") ++
  "'"

/-- What the code shows of a node: its type, the text of `getNodeLabel` and
the image of `getNodeImg`. -/
def shown (nd : Nodes D) : String × String × String :=
  (nd.nodeType, getNodeLabel env nd, getNodeImg nd)

/-! ## Drawing one plan -/

/-- The text for one node.
mirrors CProcess.java:374-385 -/
def nodeText (child : Nat) (src : String) (nd : Nodes D) : String :=
  "\x7bid: " ++ toString child ++ ", label: '" ++ nd.nodeType ++ "'" ++ getNodeLabel env nd ++
    ", image:'" ++ src ++ "', brokenImage:'" ++ src ++ "', shape: 'image'" ++ "\x7d,"

/-- The text for the edge to the parent; the root has none. -/
def edgeText (parent : Int) (child : Nat) : String :=
  if parent ≠ -1 then "\x7bfrom: " ++ toString parent ++ ", to: " ++ toString child ++ "\x7d,"
  else ""

/-- `NodesEdges` on the plan `nodesplan.get(i)`: the plan, where the image of
the node is set, and the two texts. `setPath` throws if there is no such image.
mirrors CProcess.java:372-391 -/
def nodesEdges (plan : List (Nodes D)) (parent : Int) (child : Nat) (texts : String × String) :
    List (Nodes D) × Except Fault (String × String) :=
  match plan[child]? with
  | none => (plan, .error .indexOutOfBounds)
  | some nd =>
    match env.resource (getNodeImg nd) with
    | none => (plan, .error .nullPointer)
    | some src =>
      (plan.set child { nd with path := src },
        .ok (texts.1 ++ nodeText env child src nd, texts.2 ++ edgeText parent child))

/-- The loop over the `Plan` events of the XML reader: as many as there are
parents, `id` being the number of the event.
mirrors CProcess.java:350-359 -/
def drawLoop : List Int → Nat → List (Nodes D) → String × String →
    List (Nodes D) × Except Fault (String × String)
  | [], _, plan, texts => (plan, .ok texts)
  | parent :: rest, id, plan, texts =>
    match nodesEdges env plan parent id texts with
    | (plan, .error f) => (plan, .error f)
    | (plan, .ok texts) => drawLoop rest (id + 1) plan texts

/-- `deleteCharAt(length - 1)` and the closing brackets. -/
def closeText (s : String) : String := String.ofList s.toList.dropLast ++ "]);"

/-- mirrors CProcess.java:344-371 -/
def draw (parents : List Int) (plan : List (Nodes D)) :
    List (Nodes D) × Except Fault (String × String) :=
  let r :=
    drawLoop env parents 0 plan ("var nodes = new vis.DataSet([", "var edges = new vis.DataSet([")
  (r.1, r.2.map fun texts => (closeText texts.1, closeText texts.2))

/-! ## The static lists -/

structure State (D : Type) where
  nodesplan : List (List (Nodes D))
  nodesParend : List Int
  allNodes : List String
  alledges : List String
  qst : List (QueryStatistic D)

def initState : State D := ⟨[], [], [], [], []⟩

/-- One round of the loop of `ParseXMLFormat`: the statement `i` of the call.
mirrors CProcess.java:336-371 -/
def parseStatement (s : State D) (i : Nat) (doc : Xml) : State D × Option Fault :=
  match extractNodes1 env doc with
  | .error f => (s, some f)
  | .ok (node, it) =>
    let s := { s with nodesplan := s.nodesplan ++ [node], qst := s.qst ++ [it] }
    match linkNoeud1 doc with
    | (parents, some f) => ({ s with nodesParend := parents }, some f)
    | (parents, none) =>
      let s := { s with nodesParend := parents }
      match s.nodesplan[i]? with
      | none => (s, some .indexOutOfBounds)
      | some plan =>
        match draw env parents plan with
        | (plan, .error f) => ({ s with nodesplan := s.nodesplan.set i plan }, some f)
        | (plan, .ok (nodes, edges)) =>
          ({ s with
            nodesplan := s.nodesplan.set i plan
            allNodes := s.allNodes ++ [nodes]
            alledges := s.alledges ++ [edges] }, none)

/-- `ParseXMLFormat` from statement `i` on.
mirrors CProcess.java:327-371 -/
def parseXMLFormat : State D → Nat → List Xml → State D × Option Fault
  | s, _, [] => (s, none)
  | s, i, doc :: rest =>
    match parseStatement env s i doc with
    | (s, some f) => (s, some f)
    | (s, none) => parseXMLFormat s (i + 1) rest

/-- The lists after a sequence of `ExplainQuery` calls. -/
def explainAll (calls : List (List Xml)) : State D :=
  calls.foldl (fun s call => (parseXMLFormat env s 0 call).1) initState

/-! ## What drawing reads and changes -/

/-- A record without its image, the one field that drawing sets. -/
def forgetPath (nd : Nodes D) : Nodes D := { nd with path := "" }

variable {env}

theorem map_shown_eq {l l' : List (Nodes D)} (h : l.map forgetPath = l'.map forgetPath) (j : Nat) :
    l[j]?.map (shown env) = l'[j]?.map (shown env) := by
  have key : ∀ m : List (Nodes D),
      m[j]?.map (shown env) = (m.map forgetPath)[j]?.map (shown env) := by
    intro m
    rw [getElem?_map, Option.map_map]
    rfl
  rw [key l, key l', h]

variable (env) in
theorem nodesEdges_forget (plan : List (Nodes D)) (parent : Int) (child : Nat)
    (texts : String × String) :
    (nodesEdges env plan parent child texts).1.map forgetPath = plan.map forgetPath := by
  unfold nodesEdges
  split
  · rfl
  · rename_i nd hnd
    split
    · rfl
    · rw [map_set]
      apply ext_getElem?
      intro m
      rw [getElem?_set]
      split
      · rename_i hm
        subst hm
        split
        · rw [getElem?_map, hnd]; rfl
        · rename_i hlt
          rw [getElem?_eq_none (by omega)]
      · rfl

theorem nodesEdges_congr {plan plan' : List (Nodes D)} {child : Nat}
    (h : plan[child]?.map (shown env) = plan'[child]?.map (shown env)) (parent : Int)
    (texts : String × String) :
    (nodesEdges env plan parent child texts).2 = (nodesEdges env plan' parent child texts).2 := by
  unfold nodesEdges
  cases h1 : plan[child]? with
  | none =>
    rw [h1, map_none, eq_comm, map_eq_none_iff] at h
    rw [h]
  | some nd =>
    rw [h1, map_some, eq_comm, map_eq_some_iff] at h
    obtain ⟨nd', h2, h3⟩ := h
    have htype : nd'.nodeType = nd.nodeType := congrArg Prod.fst h3
    have hlabel : getNodeLabel env nd' = getNodeLabel env nd := congrArg (·.2.1) h3
    have himg : getNodeImg nd' = getNodeImg nd := congrArg (·.2.2) h3
    have htext : ∀ src, nodeText env child src nd' = nodeText env child src nd := fun src => by
      unfold nodeText; rw [htype, hlabel]
    rw [h2]
    dsimp only
    rw [himg]
    cases env.resource (getNodeImg nd) with
    | none => rfl
    | some src => dsimp only; rw [htext]

variable (env) in
theorem drawLoop_forget (parents : List Int) :
    ∀ (id : Nat) (plan : List (Nodes D)) (texts : String × String),
    (drawLoop env parents id plan texts).1.map forgetPath = plan.map forgetPath := by
  induction parents with
  | nil => intro id plan texts; rfl
  | cons parent rest ih =>
    intro id plan texts
    have hstep := nodesEdges_forget env plan parent id texts
    rw [drawLoop]
    split
    · rename_i plan' f he
      rw [he] at hstep
      exact hstep
    · rename_i plan' texts' he
      rw [he] at hstep
      rw [ih, hstep]

theorem drawLoop_congr (parents : List Int) :
    ∀ (id : Nat) (plan plan' : List (Nodes D)) (texts : String × String),
    (∀ j, id ≤ j → j < id + parents.length → plan[j]?.map (shown env) = plan'[j]?.map (shown env)) →
    (drawLoop env parents id plan texts).2 = (drawLoop env parents id plan' texts).2 := by
  induction parents with
  | nil => intro id plan plan' texts _; rfl
  | cons parent rest ih =>
    intro id plan plan' texts h
    have hlen : (parent :: rest).length = rest.length + 1 := rfl
    have htext := nodesEdges_congr (h id (Nat.le_refl _) (by omega)) parent texts
    have hf := nodesEdges_forget env plan parent id texts
    have hf' := nodesEdges_forget env plan' parent id texts
    rw [drawLoop, drawLoop]
    rcases h1 : nodesEdges env plan parent id texts with ⟨p1, r1⟩
    rcases h2 : nodesEdges env plan' parent id texts with ⟨p2, r2⟩
    rw [h1, h2] at htext
    rw [h1] at hf
    rw [h2] at hf'
    subst htext
    cases r1 with
    | error f => rfl
    | ok texts' =>
      refine ih (id + 1) p1 p2 texts' fun j hj hlt => ?_
      rw [map_shown_eq hf, map_shown_eq hf', h j (by omega) (by omega)]

variable (env) in
theorem draw_forget (parents : List Int) (plan : List (Nodes D)) :
    (draw env parents plan).1.map forgetPath = plan.map forgetPath :=
  drawLoop_forget env parents 0 plan _

theorem draw_congr {parents : List Int} {plan plan' : List (Nodes D)}
    (h : ∀ j < parents.length, plan[j]?.map (shown env) = plan'[j]?.map (shown env)) :
    (draw env parents plan).2 = (draw env parents plan').2 := by
  unfold draw
  simp only
  rw [drawLoop_congr parents 0 plan plan' _ fun j _ hj => h j (by omega)]

end

/-! ## Histories -/

/-- A document that can be read and drawn, with what comes out of it alone. -/
structure OwnPlan {D : Type} (env : Env D) where
  doc : Xml
  recs : List (Nodes D)
  stat : QueryStatistic D
  parents : List Int
  nodes : String
  edges : String
  extract : extractNodes1 env doc = .ok (recs, stat)
  link : linkNoeud1 doc = (parents, none)
  drawn : (draw env parents recs).2 = .ok (nodes, edges)

/-- The plan of a document, if it can be read and drawn. -/
def ownPlan? {D : Type} (env : Env D) (doc : Xml) : Option (OwnPlan env) :=
  match h1 : extractNodes1 env doc with
  | .error _ => none
  | .ok (recs, stat) =>
    match h2 : linkNoeud1 doc with
    | (_, some _) => none
    | (parents, none) =>
      match h3 : (draw env parents recs).2 with
      | .error _ => none
      | .ok (nodes, edges) => some ⟨doc, recs, stat, parents, nodes, edges, h1, h2, h3⟩

section
variable {D : Type} {env : Env D}

/-- On each node of `p`, plan `q` shows the same. -/
def Shows (q p : OwnPlan env) : Prop :=
  ∀ j < p.parents.length, q.recs[j]?.map (shown env) = p.recs[j]?.map (shown env)

/-- The documents of the calls. -/
def docs (calls : List (List (OwnPlan env))) : List (List Xml) :=
  calls.map fun call => call.map (·.doc)

/-- The lists after the plans `ps`, one after the other. -/
structure Inv (s : State D) (ps : List (OwnPlan env)) : Prop where
  plans : s.nodesplan.map (·.map forgetPath) = ps.map fun p => p.recs.map forgetPath
  nodes : s.allNodes = ps.map (·.nodes)
  edges : s.alledges = ps.map (·.edges)
  last : ∀ q, ps.getLast? = some q → s.nodesParend = q.parents

theorem Inv.statement {s : State D} {ps : List (OwnPlan env)} (h : Inv s ps) {i : Nat}
    {p q : OwnPlan env} (hq : (ps ++ [p])[i]? = some q) (hshow : Shows q p) :
    ∃ s', parseStatement env s i p.doc = (s', none) ∧ Inv s' (ps ++ [p]) := by
  have hplans : (s.nodesplan ++ [p.recs]).map (·.map forgetPath) = (ps ++ [p]).map fun p =>
      p.recs.map forgetPath := by
    rw [map_append, map_append, h.plans]; rfl
  -- the plan that is drawn from is the `i`th of all
  obtain ⟨plan, hplan, hforget⟩ : ∃ plan, (s.nodesplan ++ [p.recs])[i]? = some plan ∧
      plan.map forgetPath = q.recs.map forgetPath := by
    have := congrArg (·[i]?) hplans
    simp only [getElem?_map, hq, map_some, map_eq_some_iff] at this
    exact this
  have hdrawn : (draw env p.parents plan).2 = .ok (p.nodes, p.edges) := by
    rw [← p.drawn]
    exact draw_congr fun j hj => (map_shown_eq hforget j).trans (hshow j hj)
  rcases hd : draw env p.parents plan with ⟨plan', r⟩
  have hforget' : plan'.map forgetPath = plan.map forgetPath := by
    have := draw_forget env p.parents plan
    rw [hd] at this
    exact this
  rw [hd] at hdrawn
  simp only at hdrawn
  subst hdrawn
  refine ⟨⟨(s.nodesplan ++ [p.recs]).set i plan', p.parents, s.allNodes ++ [p.nodes],
    s.alledges ++ [p.edges],
    s.qst ++ [p.stat]⟩, by simp only [parseStatement, p.extract, p.link, hplan, hd], ?_⟩
  refine ⟨?_, by simp [h.nodes], by simp [h.edges], fun q hq => ?_⟩
  · rw [← hplans]
    simp only [map_set]
    apply ext_getElem?
    intro m
    rw [getElem?_set]
    split
    · rename_i hm
      subst hm
      rw [getElem?_map, hplan, map_some, hforget']
      split
      · rfl
      · rename_i hlt
        rw [length_map] at hlt
        exact absurd (List.getElem?_eq_some_iff.1 hplan).1 hlt
    · rfl
  · rw [getLast?_concat] at hq
    rw [some.inj hq]

/-- A call from its statement `i` on. -/
theorem Inv.call (call : List (OwnPlan env)) :
    ∀ {s : State D} {ps : List (OwnPlan env)} {i : Nat}, Inv s ps → i ≤ ps.length →
    (∀ (m : Nat) (p q : OwnPlan env), call[m]? = some p →
      (ps ++ call)[i + m]? = some q → Shows q p) →
    ∃ s', parseXMLFormat env s i (call.map (·.doc)) = (s', none) ∧ Inv s' (ps ++ call) := by
  induction call with
  | nil => intro s ps i h _ _; exact ⟨s, rfl, by rwa [append_nil]⟩
  | cons p rest ih =>
    intro s ps i h hi hshow
    have hlt : i < (ps ++ [p]).length := by rw [length_append, length_singleton]; omega
    have hq := getElem?_eq_getElem hlt
    have hcat : ps ++ p :: rest = (ps ++ [p]) ++ rest := by simp
    obtain ⟨s1, hs1, h1⟩ :=
      h.statement hq
        (hshow 0 p _ rfl (by rw [hcat, Nat.add_zero, getElem?_append_left hlt]; exact hq))
    obtain ⟨s2, hs2, h2⟩ := ih (i := i + 1) h1 (by omega) fun m p' q hm hq' => by
      refine hshow (m + 1) p' q hm ?_
      rw [hcat, ← hq']
      congr 1
      omega
    rw [hcat]
    exact ⟨s2, by simp only [map_cons, parseXMLFormat, hs1, hs2], h2⟩

/-- The lists after a history, if each statement shows the same as the plan
of its number in the whole history. -/
theorem explainAll_inv {calls : List (List (OwnPlan env))} :
    ∀ {s : State D} {ps : List (OwnPlan env)}, Inv s ps →
    (∀ call ∈ calls, ∀ (i : Nat) (p q : OwnPlan env), call[i]? = some p →
      (ps ++ calls.flatten)[i]? = some q → Shows q p) →
    Inv ((docs calls).foldl (fun s call => (parseXMLFormat env s 0 call).1) s)
      (ps ++ calls.flatten) := by
  induction calls with
  | nil => intro s ps h _; simpa [docs] using h
  | cons call calls ih =>
    intro s ps h hshow
    have hcat : ps ++ (call :: calls).flatten = (ps ++ call) ++ calls.flatten := by simp
    obtain ⟨s1, hs1, h1⟩ := Inv.call call h (Nat.zero_le _) fun m p q hm hq => by
      refine hshow call mem_cons_self m p q hm ?_
      rw [Nat.zero_add] at hq
      rw [hcat, List.getElem?_append_left (List.getElem?_eq_some_iff.1 hq).1]
      exact hq
    rw [hcat, docs, map_cons, foldl_cons, hs1]
    refine ih h1 fun c hc => ?_
    rw [← hcat]
    exact hshow c (mem_cons_of_mem _ hc)

/-- Every plan is drawn as it is alone, and tab `k` gives the segmentation the
records and the parents of plan `k`, if the `i`th statement of each call shows
what the `i`th plan of the whole history shows, and the last plan of all has
the parents of plan `k`. -/
theorem explain_no_memory (calls : List (List (OwnPlan env)))
    (hshow : ∀ call ∈ calls, ∀ (i : Nat) (p q : OwnPlan env), call[i]? = some p →
      calls.flatten[i]? = some q → Shows q p) :
    (explainAll env (docs calls)).allNodes = calls.flatten.map (·.nodes) ∧
    (explainAll env (docs calls)).alledges = calls.flatten.map (·.edges) ∧
    ∀ (k : Nat) (p : OwnPlan env), calls.flatten[k]? = some p →
      (∀ q, calls.flatten.getLast? = some q → q.parents = p.parents) →
      (explainAll env (docs calls)).nodesplan[k]?.map (·.map forgetPath) =
        some (p.recs.map forgetPath) ∧
      (explainAll env (docs calls)).nodesParend = p.parents := by
  have h0 : Inv (initState : State D) ([] : List (OwnPlan env)) :=
    ⟨rfl, rfl, rfl, fun q hq => by simp at hq⟩
  have h := explainAll_inv h0 (by simpa using hshow)
  rw [nil_append] at h
  refine ⟨h.nodes, h.edges, fun k p hk hlast => ⟨?_, ?_⟩⟩
  · have := congrArg (·[k]?) h.plans
    simp only [getElem?_map, hk, map_some] at this
    exact this
  · obtain ⟨q, hq⟩ : ∃ q, calls.flatten.getLast? = some q := by
      cases hl : calls.flatten.getLast? with
      | none => rw [getLast?_eq_none_iff.1 hl] at hk; simp at hk
      | some q => exact ⟨q, rfl⟩
    rw [← hlast q hq]
    exact h.last q hq

end

/-! ## Two queries -/

/-- Costs that are whole numbers, and an image for every name but the empty one. -/
def wholeEnv : Env Int where
  parse t := (parseInt t).toOption
  print := toString
  ofInt := id
  add := (· + ·)
  sub := (· - ·)
  mul := (· * ·)
  B0 := 39
  resource name := if name = "" then none else some (name ++ ".png")

/-- A plan element with a node type, costs and child plans. -/
def planElem (nodeType cost : String) (below : List Xml) : Xml :=
  .elem "Plan" [] ([.elem "Node-Type" [] [.text nodeType], .elem "Total-Cost" [] [.text cost]] ++
    if below.isEmpty then [] else [.elem "Plans" [] below])

def explainDoc (plan : Xml) : Xml := .elem "explain" [] [.elem "Query" [] [plan]]

def scanDoc : Xml := explainDoc (planElem "Seq Scan" "10" [])
def sortDoc : Xml := explainDoc (planElem "Sort" "30" [planElem "Seq Scan" "10" []])

def sortPlan : OwnPlan wholeEnv := (ownPlan? wholeEnv sortDoc).get (by decide +kernel)

/-- The same query on wider rows; the width is not shown. -/
def wideSortDoc : Xml :=
  explainDoc (.elem "Plan" [] [.elem "Node-Type" [] [.text "Sort"],
    .elem "Total-Cost" [] [.text "30"], .elem "Plan-Width" [] [.text "64"],
    .elem "Plans" [] [planElem "Seq Scan" "10" []]])

def wideSortPlan : OwnPlan wholeEnv := (ownPlan? wholeEnv wideSortDoc).get (by decide +kernel)

theorem shows_wideSortPlan : Shows sortPlan wideSortPlan := by
  have hshown : ∀ j < wideSortPlan.parents.length, sortPlan.recs[j]?.map (shown wholeEnv) =
      wideSortPlan.recs[j]?.map (shown wholeEnv) := by decide +kernel
  exact hshown

/-- In a second call the wider plan has its own records and parents, although
its nodes are drawn from those of the first. -/
theorem explain_no_memory_wideSortPlan :
    wideSortPlan.recs ≠ sortPlan.recs ∧
    (explainAll wholeEnv (docs [[sortPlan], [wideSortPlan]])).allNodes =
      [sortPlan.nodes, wideSortPlan.nodes] ∧
    (explainAll wholeEnv (docs [[sortPlan], [wideSortPlan]])).nodesplan[1]?.map (·.map forgetPath) =
      some (wideSortPlan.recs.map forgetPath) ∧
    (explainAll wholeEnv (docs [[sortPlan], [wideSortPlan]])).nodesParend =
      wideSortPlan.parents := by
  have h := explain_no_memory [[sortPlan], [wideSortPlan]] (by
    intro call hcall i p q hp hq
    match i with
    | 0 =>
      obtain rfl : sortPlan = q := some.inj hq
      rcases mem_cons.1 hcall with rfl | hcall
      · obtain rfl : sortPlan = p := some.inj hp
        exact fun j _ => rfl
      · obtain rfl := mem_singleton.1 hcall
        obtain rfl : wideSortPlan = p := some.inj hp
        exact shows_wideSortPlan
    | i + 1 =>
      have hnone : call[i + 1]? = none := by
        rcases mem_cons.1 hcall with rfl | hcall
        · rfl
        · obtain rfl := mem_singleton.1 hcall
          rfl
      rw [hnone] at hp
      cases hp)
  exact ⟨by decide +kernel, h.1, h.2.2 1 wideSortPlan rfl fun q hq => by rw [← some.inj hq]; rfl⟩

/-- After a query with one node, a query with two nodes is not drawn, although
it is when it is the first, and the tab of the first query has the parents of
the second. -/
theorem second_query_lost :
    (parseXMLFormat wholeEnv initState 0 [sortDoc]).2 = none ∧
    (parseXMLFormat wholeEnv (explainAll wholeEnv [[scanDoc]]) 0 [sortDoc]).2 =
      some .indexOutOfBounds ∧
    (explainAll wholeEnv [[scanDoc], [sortDoc]]).allNodes.length = 1 ∧
    (explainAll wholeEnv [[scanDoc], [sortDoc]]).nodesplan.map (·.map (·.nodeType)) =
      [["Seq Scan"], ["Sort", "Seq Scan"]] ∧
    (explainAll wholeEnv [[scanDoc], [sortDoc]]).nodesParend = [-1, 0] := by
  decide +kernel

end GreenPipeline.L4.CProcess
