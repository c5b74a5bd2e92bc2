import GreenPipeline.L3Planner.PowerModel
import GreenPipeline.L4App.ExplainFields
import Mathlib.Tactic.LinearCombination

/-!
# The power estimate of a query (`QueryStatistic.setEstimatedPower`)

Every node's power figure starts from the server's idle power, so the sum over
a plan holds it once per node. The GUI takes it out again for all nodes but
one, with a constant of its own: `FenP.B0` is 39.0, `B0` of `cost.h` 39.91.

Results:
* `extractNodes1_power`: the estimate is the sum of the nodes' power figures
  less the GUI's constant for every node but one.
* `estimatedPower_iff`: it is the idle power and the nodes' own parts only for
  a plan of one node.
-/
namespace GreenPipeline.L4.PowerEstimate
open GreenPipeline.L3.PowerModel (B0)
open GreenPipeline.L4.ExplainXml GreenPipeline.L4.ExplainFields List

/-! ## The sum over the nodes -/

section
variable {D : Type}

theorem bind_eq_ok {α β ε : Type} {x : Except ε α} {f : α → Except ε β} {b : β}
    (h : x >>= f = .ok b) : ∃ a, x = .ok a ∧ f a = .ok b := by
  cases x with
  | error e => simp [bind, Except.bind] at h
  | ok a => exact ⟨a, rfl, h⟩

/-- A field that has nothing to do with power. -/
def KeepsPower (field : String × Setter D) : Prop :=
  ∀ t r r', field.2 t r = .ok r' → r'.1.powerCost = r.1.powerCost ∧ r'.2.power = r.2.power

variable {tag : String}

theorem setString_keepsPower {set : String → Nodes D → Nodes D}
    (h : ∀ t nd, (set t nd).powerCost = nd.powerCost) : KeepsPower (tag, setString set) := by
  intro t r r' hset
  obtain rfl := Except.ok.inj hset
  exact ⟨h t r.1, rfl⟩

theorem setInt_keepsPower {set : Int → Nodes D → Nodes D}
    (h : ∀ n nd, (set n nd).powerCost = nd.powerCost) : KeepsPower (tag, setInt set) := by
  intro t r r' hset
  obtain ⟨n, -, hset⟩ := bind_eq_ok hset
  obtain rfl := Except.ok.inj hset
  exact ⟨h n r.1, rfl⟩

theorem setDouble_ok {env : Env D} {set : D → Nodes D → Nodes D}
    {sum : D → Estimates D → Estimates D} {t : String} {r r' : Reading D}
    (h : setDouble env set sum t r = .ok r') : ∃ d, r' = (set d r.1, sum d r.2) := by
  simp only [setDouble] at h
  cases hparse : env.parse t with
  | none => simp [hparse] at h
  | some d =>
    rw [hparse] at h
    exact ⟨d, (Except.ok.inj h).symm⟩

theorem setDouble_keepsPower {env : Env D} {set : D → Nodes D → Nodes D}
    {sum : D → Estimates D → Estimates D} (h : ∀ d nd, (set d nd).powerCost = nd.powerCost)
    (hsum : ∀ d e, (sum d e).power = e.power) : KeepsPower (tag, setDouble env set sum) := by
  intro t r r' hset
  obtain ⟨d, rfl⟩ := setDouble_ok hset
  exact ⟨h d r.1, hsum d r.2⟩

/-- What every field keeps, reading the fields keeps. -/
theorem foldlM_readOwn_keeps {P : Reading D → Prop} (xs : List Xml) :
    ∀ {fs : List (String × Setter D)}
    {r r' : Reading D}, (∀ f ∈ fs, ∀ t r r', f.2 t r = .ok r' → P r → P r') →
    fs.foldlM (readOwn xs) r = .ok r' → P r → P r'
  | [], r, r', _, hok, hP => by
    obtain rfl := Except.ok.inj hok
    exact hP
  | f :: fs, r, r', h, hok, hP => by
    rw [foldlM_cons] at hok
    obtain ⟨r1, hread, hok⟩ := bind_eq_ok hok
    refine foldlM_readOwn_keeps xs (forall_mem_cons.1 h).2 hok ?_
    unfold readOwn at hread
    cases hown : ownValue f.1 xs with
    | none =>
      rw [hown] at hread
      exact Except.ok.inj hread ▸ hP
    | some t =>
      rw [hown] at hread
      exact h f mem_cons_self t r r1 hread hP

variable (env : Env D)

/-- The only field of the power figure is the fifth. -/
theorem fields_keepsPower (temp : Nat) :
    ∀ f ∈ (fields env temp).take 4 ++ (fields env temp).drop 5, KeepsPower f := by
  have hcost :
      KeepsPower (D := D) ("Total-Cost", setDouble env (fun d nd => { nd with totalCost := d })
      fun d e => if temp = 0 then { e with totalCost := d } else e) := by
    refine setDouble_keepsPower (fun _ _ => rfl) fun d e => ?_
    split <;> rfl
  simp only [fields, take, drop, cons_append, nil_append, forall_mem_cons]
  refine ⟨setString_keepsPower fun _ _ => rfl, hcost, ?_⟩
  repeat' apply And.intro
  all_goals first
    | exact setString_keepsPower fun _ _ => rfl
    | exact setInt_keepsPower fun _ _ => rfl
    | exact setDouble_keepsPower (fun _ _ => rfl) fun _ _ => rfl
    | simp

end

section
variable {K : Type} [Field K]

/-- Exact arithmetic, and the constant of the GUI; mirrors JavaApp/src/godpostgresql/FenP.java:70 -/
def exactEnv (parse : String → Option K) (print : K → String)
    (resource : String → Option String) : Env K where
  parse := parse
  print := print
  ofInt n := n
  add := (· + ·)
  sub := (· - ·)
  mul := (· * ·)
  B0 := 39.0
  resource := resource

variable (parse : String → Option K) (print : K → String) (resource : String → Option String)

/-- A plan adds its power figure, 0 if it has none, to the sum. -/
theorem ownReading_power {temp : Nat} {e : Xml} {est est' : Estimates K} {nd : Nodes K}
    (h : ownReading (exactEnv parse print resource) temp e est = .ok (nd, est')) :
    est'.power = est.power + nd.powerCost := by
  have hkeeps := fields_keepsPower (exactEnv parse print resource) temp
  have hfields : fields (exactEnv parse print resource) temp =
      (fields (exactEnv parse print resource) temp).take 4 ++
      (("Power-Cost", setDouble (exactEnv parse print resource)
        (fun d nd => { nd with powerCost := d })
        fun d e => { e with power := e.power + d }) ::
          (fields (exactEnv parse print resource) temp).drop 5) := rfl
  obtain ⟨new, hnew, h⟩ := bind_eq_ok h
  rw [hfields, foldlM_append] at h
  obtain ⟨r1, hbefore, h⟩ := bind_eq_ok h
  obtain ⟨r2, hpower, hafter⟩ := bind_eq_ok h
  -- up to the power figure nothing has changed
  obtain ⟨hzero, hest⟩ : r1.1.powerCost = 0 ∧ r1.2.power = est.power := by
    refine foldlM_readOwn_keeps (P := fun r => r.1.powerCost = 0 ∧
      r.2.power = est.power) _ ?_ hbefore ⟨?_, rfl⟩
    · intro f hf t r r' hset hr
      obtain ⟨hnode, hsum⟩ := hkeeps f (mem_append_left _ hf) t r r' hset
      exact ⟨hnode.trans hr.1, hsum.trans hr.2⟩
    · unfold newNodes at hnew
      split at hnew
      · simp at hnew
      · simp [← Except.ok.inj hnew, exactEnv]
  -- it goes to the record and to the sum, and the rest leaves both alone
  refine foldlM_readOwn_keeps (P := fun r => r.2.power = est.power + r.1.powerCost) _ ?_ hafter ?_
  · intro f hf t r r' hset hr
    obtain ⟨hnode, hsum⟩ := hkeeps f (mem_append_right _ hf) t r r' hset
    rw [hnode, hsum, hr]
  · unfold readOwn at hpower
    split at hpower
    · obtain rfl := Except.ok.inj hpower
      rw [hzero, hest, add_zero]
    · dsimp only at hpower
      obtain ⟨d, rfl⟩ := setDouble_ok hpower
      exact congrArg (· + d) hest

theorem ownLoop_power (ps : List (Path × Xml)) :
    ∀ (k : Nat) (node out : List (Nodes K)) (est est' : Estimates K),
    ownLoop (exactEnv parse print resource) k ps node est = .ok (out, est') →
      est'.power + (node.map (·.powerCost)).sum = est.power + (out.map (·.powerCost)).sum
  | 0, node, out, est, est', h => by
    obtain ⟨rfl, rfl⟩ := Prod.mk.inj (Except.ok.inj h)
    rfl
  | k + 1, node, out, est, est', h => by
    unfold ownLoop at h
    split at h
    · simp at h
    · obtain ⟨⟨nd, est1⟩, hread, h⟩ := bind_eq_ok h
      have ih := ownLoop_power ps k _ out est1 est' h
      rw [map_append, sum_append, ownReading_power parse print resource hread] at ih
      simp only [map_cons, map_nil, sum_singleton] at ih
      linear_combination ih

theorem extractNodes1_power {doc : Xml} (h : FieldsInPlace false [doc]) {nodes : List (Nodes K)}
    {stat : QueryStatistic K}
    (hok : extractNodes1 (exactEnv parse print resource) doc = .ok (nodes, stat)) :
    stat.estimatedPower = (nodes.map (·.powerCost)).sum - 39.0 * (nodes.length - 1) := by
  rw [extractNodes1_eq _ h] at hok
  obtain ⟨⟨node, est⟩, hloop, hok⟩ := bind_eq_ok hok
  obtain ⟨rfl, rfl⟩ := Prod.mk.inj (Except.ok.inj hok)
  have hpower := ownLoop_power parse print resource _ _ _ _ _ _ hloop
  simp only [map_nil, sum_nil, add_zero, exactEnv, Int.cast_zero, zero_add] at hpower
  simp [queryStatistic, exactEnv, hpower, sum_reverse]

/-! ## Against the idle power of the server -/

variable [LinearOrder K] [IsStrictOrderedRing K]

/-- EXPLAIN prints the figures with two digits; what this loses over a plan. -/
theorem printed_sum {nodes : List (Nodes K)} {d : List K}
    (h : List.Forall₂ (fun nd x => |nd.powerCost - (B0 + x)| ≤ 0.005) nodes d) :
    |(nodes.map (·.powerCost)).sum - (nodes.length * B0 + d.sum)| ≤ nodes.length * 0.005 := by
  induction h with
  | nil => simp
  | @cons nd x nodes d hnd _ ih =>
    rw [map_cons, sum_cons, sum_cons, length_cons, Nat.cast_succ]
    rw [abs_le] at hnd ih ⊢
    constructor
    · linarith [hnd.1, ih.1]
    · linarith [hnd.2, ih.2]

/-- **The baselines that are taken out are not those of the server.** Whatever
plan is read, its power figures `B0 + d` printed with two digits, the estimate is
`B0` and the sum of the `d` if and only if the plan is a single node, whose
figure the printing has not rounded. -/
theorem estimatedPower_iff {doc : Xml} (h : FieldsInPlace false [doc]) {nodes : List (Nodes K)}
    {stat : QueryStatistic K}
    (hok : extractNodes1 (exactEnv parse print resource) doc = .ok (nodes, stat)) {d : List K}
    (hd : List.Forall₂ (fun nd x => |nd.powerCost - (B0 + x)| ≤ 0.005) nodes d) :
    stat.estimatedPower = B0 + d.sum ↔ ∃ nd x, nodes = [nd] ∧ d = [x] ∧ nd.powerCost = B0 + x := by
  rw [extractNodes1_power parse print resource h hok]
  have hlost := (abs_le.1 (printed_sum hd)).1
  cases hd with
  | nil =>
    refine iff_of_false ?_ (by simp)
    norm_num [B0]
  | @cons nd x nodes d hnd hd =>
    cases hd with
    | nil => simp
    | @cons nd' x' nodes d hnd' hd =>
      -- each further node leaves 0.91 in the sum, far more than printing can lose
      refine iff_of_false (ne_of_gt ?_) (by simp)
      simp only [length_cons, Nat.cast_succ, B0] at hlost ⊢
      linarith

/-- A plan of one node. -/
def loneScan : Xml := .elem "Plan" []
    [.elem "Node-Type" [] [.text "Seq Scan"], .elem "Power-Cost" [] [.text "40.91"]]

/-- The figures of the documents here. -/
def parseFigure (t : String) : Option ℚ :=
  [("41.91", 41.91), ("40.91", 40.91), ("9.5", 9.5)].lookup t

theorem estimatedPower_loneScan :
    ∃ nodes stat, extractNodes1 (exactEnv parseFigure (fun _ => "") some) loneScan =
      .ok (nodes, stat) ∧
      stat.estimatedPower = B0 + [1].sum := by
  have hplace : FieldsInPlace false [loneScan] :=
    .plan (.field (by decide) (by simp) (by simp [hasTag])
      (.field (by decide) (by simp) (by simp) .nil)) .nil
  refine ⟨_, _, rfl,
    (estimatedPower_iff parseFigure (fun _ => "") some hplace rfl ?_).2 ⟨_, 1, rfl, rfl, ?_⟩⟩
  · refine .cons ?_ .nil
    norm_num [B0]
  · norm_num [B0]

/-- Two nodes, 2 W and 1 W above the idle power: 42.91 W, and 43.82 W estimated. -/
theorem two_nodes_overestimated : ∃ nodes stat,
    extractNodes1 (exactEnv parseFigure (fun _ => "") some) sortOfScan = .ok (nodes, stat) ∧
    nodes.map (·.powerCost) = [B0 + 2, B0 + 1] ∧ stat.estimatedPower = 43.82 ∧
    (B0 : ℚ) + (2 + 1) = 42.91 := by
  refine ⟨_, _, rfl, ?_, ?_, ?_⟩
  · norm_num [B0]
  · norm_num [queryStatistic, exactEnv]
  · norm_num [B0]

end

end GreenPipeline.L4.PowerEstimate
