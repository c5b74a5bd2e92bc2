import GreenPipeline.Core.OrderedField
import Mathlib.Algebra.Order.Ring.Abs
import Mathlib.Data.Nat.Cast.Order.Ring
import Mathlib.Tactic.Positivity
import Mathlib.Tactic.LinearCombination
import Mathlib.Tactic.Ring
import Mathlib.Topology.Instances.Real.Lemmas
import Mathlib.Topology.Order.IntermediateValue

/-!
# The regression model of a node's power draw (`count_power_cost`)

The fork predicts the power of a plan node from the pages it reads and the
CPU cost it is charged, with a quadratic polynomial fitted to measurements
(`B0` to `B5`). Three of its coefficients are negative, so for large inputs
the prediction is not a power at all.

Results:
* `countPowerCost_eq`: both formulas of the source are one polynomial, the
  CPU terms weighted with `powerFactor`.
* `countPowerCost_neverFalls_iff`: over which ranges of pages and CPU cost more
  work is never predicted to draw less power; where both vary, none below the
  cap (`Rising.one_side`).
* `countPowerCost_drops`: from every point on there is more work that is
  predicted to draw less.
-/
namespace GreenPipeline.L3.PowerModel

/-! ## The polynomial

The coefficients, mirrors src/include/optimizer/cost.h:34-39. -/

variable {K : Type*} [Field K]

def B0 : K := 39.91
def B1 : K := -0.000004582
def B2 : K := 0.000009017
def B3 : K := 0.0000000000002636
def B4 : K := -0.0000000000008472
def B5 : K := -0.000000000004072

/-- What parallel workers multiply the CPU terms with. -/
def powerFactor (wh : ℕ) : K := if wh ≠ 0 then 1 + (wh * 0.0552 + 0.00783) else 1

/-- The polynomial before the cap. -/
def powerPoly (ioCost cpuCost : K) (wh : ℕ) : K :=
  B0 + B1 * ioCost + B3 * ioCost ^ 2
    + powerFactor wh * (B2 * cpuCost + B4 * cpuCost ^ 2 + B5 * ioCost * cpuCost)

/-- What going from one charge to another adds to the polynomial: the pages at the new CPU cost,
then the CPU cost at the old pages. -/
def powerRise (ioCost cpuCost ioCost' cpuCost' : K) (wh : ℕ) : K :=
  (ioCost' - ioCost) * (B1 + B3 * (ioCost + ioCost') + powerFactor wh * B5 * cpuCost')
    + (cpuCost' - cpuCost) * (powerFactor wh * (B2 + B4 * (cpuCost + cpuCost') + B5 * ioCost))

theorem powerPoly_sub (ioCost cpuCost ioCost' cpuCost' : K) (wh : ℕ) :
    powerPoly ioCost' cpuCost' wh - powerPoly ioCost cpuCost wh =
    powerRise ioCost cpuCost ioCost' cpuCost' wh := by
  unfold powerPoly powerRise
  ring

variable [LinearOrder K]

/-- `wh` is the number of parallel workers. The source does not use `time`.
mirrors src/backend/optimizer/path/costsize.c:5606-5643 -/
def countPowerCost (ioCost cpuCost _time : K) (wh : ℕ) : K :=
  let fcd : K := wh * 0.0552 + 0.00783
  let totalPowerCost :=
    if wh ≠ 0 then
      B0
      + ioCost ^ 1 * cpuCost ^ 0 * B1
      + (ioCost ^ 0 * cpuCost ^ 1 * B2 + ioCost ^ 0 * cpuCost ^ 1 * fcd * B2)
      + ioCost ^ 2 * cpuCost ^ 0 * B3
      + (ioCost ^ 0 * cpuCost ^ 2 * B4 + ioCost ^ 0 * cpuCost ^ 2 * fcd * B4)
      + (ioCost ^ 1 * cpuCost ^ 1 * B5 + ioCost ^ 1 * cpuCost ^ 1 * fcd * B5)
    else
      B0
      + ioCost ^ 1 * cpuCost ^ 0 * B1
      + ioCost ^ 0 * cpuCost ^ 1 * B2
      + ioCost ^ 2 * cpuCost ^ 0 * B3
      + ioCost ^ 0 * cpuCost ^ 2 * B4
      + ioCost ^ 1 * cpuCost ^ 1 * B5
  if totalPowerCost > 80 then 45 else totalPowerCost

theorem countPowerCost_eq (ioCost cpuCost time : K) (wh : ℕ) :
    countPowerCost ioCost cpuCost time wh =
    if powerPoly ioCost cpuCost wh > 80 then 45 else powerPoly ioCost cpuCost wh := by
  unfold countPowerCost powerPoly powerFactor
  refine congrArg (fun poly : K => if poly > 80 then 45 else poly) ?_
  split_ifs <;> ring

variable [IsStrictOrderedRing K]

theorem one_le_powerFactor (wh : ℕ) : (1 : K) ≤ powerFactor wh := by
  unfold powerFactor
  split_ifs
  · linarith
  · exact le_rfl

/-! ## More work -/

/-- Enough CPU cost pushes the polynomial below any value: the quadratic term takes over. -/
theorem exists_powerPoly_lt {ioCost cpuCost : K} (wh : ℕ) (hio : 0 ≤ ioCost)
    (hcpu : 0 ≤ cpuCost) (x : K) :
    ∃ cpuCost', cpuCost ≤ cpuCost' ∧ powerPoly ioCost cpuCost' wh < x := by
  have hB2 : (0 : K) < B2 := by norm_num [B2]
  have hB4 : (B4 : K) < 0 := by norm_num [B4]
  have hB5 : B5 * ioCost ≤ 0 := mul_nonpos_of_nonpos_of_nonneg (by norm_num [B5]) hio
  -- how far the CPU terms have to push the polynomial down
  obtain ⟨t, ht, hlt⟩ : ∃ t, 0 ≤ t ∧ powerPoly ioCost 0 wh - t < x :=
    ⟨|powerPoly ioCost 0 wh - x| +
      1, by positivity, by linarith [le_abs_self (powerPoly ioCost 0 wh - x)]⟩
  obtain ⟨c, hc⟩ : ∃ c, c = cpuCost + 1 + (B2 + t) / -B4 := ⟨_, rfl⟩
  have hfrac : 0 ≤ (B2 + t) / -B4 := div_nonneg (by linarith) (by linarith)
  have hslope : B2 + B4 * c + B5 * ioCost ≤ -t := by
    have hfirst : B4 * (cpuCost + 1) ≤ 0 := mul_nonpos_of_nonpos_of_nonneg hB4.le (by linarith)
    rw [hc, mul_add, div_neg, mul_neg, mul_div_cancel₀ _ hB4.ne]
    linarith
  have hweight : 1 ≤ powerFactor wh * c :=
    one_le_mul_of_one_le_of_one_le (one_le_powerFactor wh) (by linarith)
  have hpush := mul_le_mul_of_nonneg_left hslope (zero_le_one.trans hweight)
  have hpoly : powerPoly ioCost c wh =
      powerPoly ioCost 0 wh + powerFactor wh * c * (B2 + B4 * c + B5 * ioCost) := by
    unfold powerPoly
    ring
  exact ⟨c, by linarith, by linarith [le_mul_of_one_le_left ht hweight]⟩

/-- Wherever one starts, enough CPU cost on top is predicted to draw less power. -/
theorem countPowerCost_drops {ioCost cpuCost : K} (time time' : K) (wh : ℕ) (hio : 0 ≤ ioCost)
    (hcpu : 0 ≤ cpuCost) : ∃ cpuCost', cpuCost ≤ cpuCost' ∧
      countPowerCost ioCost cpuCost' time' wh < countPowerCost ioCost cpuCost time wh := by
  obtain ⟨c, hle, hlt⟩ := exists_powerPoly_lt wh hio hcpu (min 45 (powerPoly ioCost cpuCost wh))
  obtain ⟨hcap, hdrop⟩ := lt_min_iff.1 hlt
  refine ⟨c, hle, ?_⟩
  rw [countPowerCost_eq, countPowerCost_eq, if_neg (by linarith)]
  split_ifs
  · exact hcap
  · exact hdrop

section
variable {wh : ℕ} {lo hi : ℝ × ℝ}

/-- Over a range of charges, `lo` to `hi` in pages and CPU cost, more work is
never predicted to draw less power. -/
def NeverFalls (wh : ℕ) (lo hi : ℝ × ℝ) : Prop :=
  ∀ x ∈ Set.Icc lo hi, ∀ y ∈ Set.Icc lo hi, x ≤ y → ∀ time time',
    countPowerCost x.1 x.2 time wh ≤ countPowerCost y.1 y.2 time' wh

/-- The polynomial rises with the pages at the fewest pages and the highest
CPU cost of the range, where it is flattest, and with the CPU cost at its
upper end. -/
structure Rising (wh : ℕ) (lo hi : ℝ × ℝ) : Prop where
  io : lo.1 < hi.1 → 0 ≤ B1 + 2 * B3 * lo.1 + powerFactor wh * B5 * hi.2
  cpu : lo.2 < hi.2 → 0 ≤ B2 + 2 * B4 * hi.2 + B5 * hi.1

theorem Rising.powerPoly_le (h : Rising wh lo hi) {x y : ℝ × ℝ} (hx : lo ≤ x) (hxy : x ≤ y)
    (hy : y ≤ hi) : powerPoly x.1 x.2 wh ≤ powerPoly y.1 y.2 wh := by
  obtain ⟨hx1, hx2⟩ := hx
  obtain ⟨hxy1, hxy2⟩ := hxy
  obtain ⟨hy1, hy2⟩ := hy
  have hk := zero_le_one.trans (one_le_powerFactor (K := ℝ) wh)
  have hB3 : (0 : ℝ) ≤ B3 := by norm_num [B3]
  have hB4 : (0 : ℝ) ≤ -B4 := by norm_num [B4]
  have hB5 : (0 : ℝ) ≤ -B5 := by norm_num [B5]
  rw [← sub_nonneg, powerPoly_sub]
  refine add_nonneg ?_ ?_
  · rcases hxy1.eq_or_lt with heq | hlt
    · simp [heq]
    refine mul_nonneg (sub_nonneg.2 hxy1) ((h.io (hx1.trans_lt (hlt.trans_le hy1))).trans ?_)
    have h3 := mul_le_mul_of_nonneg_left (show lo.1 + lo.1 ≤ x.1 + y.1 by linarith) hB3
    have h5 := mul_le_mul_of_nonneg_left hy2 (mul_nonneg hk hB5)
    linarith
  · rcases hxy2.eq_or_lt with heq | hlt
    · simp [heq]
    refine mul_nonneg (sub_nonneg.2 hxy2) (mul_nonneg hk
      ((h.cpu (hx2.trans_lt (hlt.trans_le hy2))).trans ?_))
    have h4 := mul_le_mul_of_nonneg_left (show x.2 + y.2 ≤ hi.2 + hi.2 by linarith) hB4
    have h5 := mul_le_mul_of_nonneg_left (hxy1.trans hy1) hB5
    linarith

/-- Between two charges the polynomial takes every value in between. -/
theorem exists_powerPoly_eq {u v : ℝ × ℝ} (huv : u ≤ v) {m : ℝ}
    (hm : m ∈ Set.uIcc (powerPoly u.1 u.2 wh) (powerPoly v.1 v.2 wh)) :
    ∃ y ∈ Set.Icc u v, powerPoly y.1 y.2 wh = m := by
  have hcont : Continuous fun z : ℝ × ℝ => powerPoly z.1 z.2 wh := by
    unfold powerPoly
    fun_prop
  have hconn : IsPreconnected (Set.Icc u v) := by
    rw [Set.Icc_prod_eq]
    exact isPreconnected_Icc.prod isPreconnected_Icc
  have hu : u ∈ Set.Icc u v := ⟨le_rfl, huv⟩
  have hv : v ∈ Set.Icc u v := ⟨huv, le_rfl⟩
  rcases Set.mem_uIcc.1 hm with hm | hm
  · exact hconn.intermediate_value hu hv hcont.continuousOn hm
  · exact hconn.intermediate_value hv hu hcont.continuousOn hm

/-- Below a charge over the cap every charge is over it: a smaller prediction
would pass through 60 on the way to the 45 of the cap. -/
theorem NeverFalls.over_of_le (h : NeverFalls wh lo hi) {u v : ℝ × ℝ} (hu : lo ≤ u) (huv : u ≤ v)
    (hv : v ≤ hi) (hover : 80 < powerPoly v.1 v.2 wh) : 80 < powerPoly u.1 u.2 wh := by
  by_contra hle
  rw [not_lt] at hle
  have hle45 := h u ⟨hu, huv.trans hv⟩ v ⟨hu.trans huv, hv⟩ huv 0 0
  rw [countPowerCost_eq, countPowerCost_eq, if_neg (not_lt.2 hle), if_pos hover] at hle45
  obtain ⟨y, ⟨huy, hyv⟩, hy⟩ := exists_powerPoly_eq (m := 60) huv
    (Set.mem_uIcc.2 (.inl ⟨by linarith, by linarith⟩))
  have hfall := h y ⟨hu.trans huy, hyv.trans hv⟩ v ⟨hu.trans huv, hv⟩ hyv 0 0
  rw [countPowerCost_eq, countPowerCost_eq, hy, if_neg (by norm_num), if_pos hover] at hfall
  norm_num at hfall

/-- Above a charge over the cap no charge comes back below it. -/
theorem NeverFalls.le_of_over (h : NeverFalls wh lo hi) {u v : ℝ × ℝ} (hu : lo ≤ u) (huv : u ≤ v)
    (hv : v ≤ hi) (hover : 80 < powerPoly u.1 u.2 wh) : 80 ≤ powerPoly v.1 v.2 wh := by
  by_contra hlt
  rw [not_le] at hlt
  obtain ⟨y, ⟨huy, hyv⟩, hy⟩ := exists_powerPoly_eq (m := 80) huv
    (Set.mem_uIcc.2 (.inr ⟨hlt.le, hover.le⟩))
  have hfall := h y ⟨hu.trans huy, hyv.trans hv⟩ v ⟨hu.trans huv, hv⟩ hyv 0 0
  rw [countPowerCost_eq, countPowerCost_eq, hy, if_neg (lt_irrefl _), if_neg hlt.not_gt] at hfall
  exact absurd hfall (not_le.2 hlt)

/-- Nor does one short of the end of the range stay at 80, for the polynomial
is nowhere flat. -/
theorem NeverFalls.ne_of_ne (h : NeverFalls wh lo hi) {v : ℝ × ℝ} (hlo : lo ≤ v) (hhi : v ≤ hi)
    (hne : v ≠ hi) : powerPoly v.1 v.2 wh ≠ 80 := by
  intro heq
  have hflat : ∀ x y, v.1 ≤ x → x ≤ hi.1 → v.2 ≤ y → y ≤ hi.2 → powerPoly x y wh = 80 := by
    intro x y hx hx' hy hy'
    have hle := h v ⟨hlo, hhi⟩ (x, y) ⟨hlo.trans ⟨hx, hy⟩, ⟨hx', hy'⟩⟩ ⟨hx, hy⟩ 0 0
    rw [countPowerCost_eq, countPowerCost_eq, heq, if_neg (lt_irrefl _)] at hle
    split_ifs at hle with hcap
    · norm_num at hle
    · exact le_antisymm (not_lt.1 hcap) hle
  have hk := zero_lt_one.trans_le (one_le_powerFactor (K := ℝ) wh)
  -- a second difference along one side of the range
  rcases hhi.1.lt_or_eq with hlt | heq1
  · have hend := hflat hi.1 v.2 hhi.1 le_rfl le_rfl hhi.2
    have hmid := hflat ((v.1 + hi.1) / 2) v.2 (by linarith) (by linarith) le_rfl hhi.2
    have hcurve : (B3 : ℝ) * (hi.1 - v.1) ^ 2 = 0 := by
      unfold powerPoly at heq hend hmid
      linear_combination 2 * heq + 2 * hend - 4 * hmid
    have hpos : (0 : ℝ) < B3 * (hi.1 - v.1) ^ 2 :=
      mul_pos (by norm_num [B3]) (pow_pos (sub_pos.2 hlt) 2)
    exact hpos.ne' hcurve
  · have hlt : v.2 < hi.2 := hhi.2.lt_of_ne fun heq2 => hne (Prod.ext heq1 heq2)
    have hend := hflat v.1 hi.2 le_rfl hhi.1 hhi.2 le_rfl
    have hmid := hflat v.1 ((v.2 + hi.2) / 2) le_rfl hhi.1 (by linarith) (by linarith)
    have hcurve : powerFactor wh * (-B4 : ℝ) * (hi.2 - v.2) ^ 2 = 0 := by
      unfold powerPoly at heq hend hmid
      linear_combination -2 * heq - 2 * hend + 4 * hmid
    have hpos : (0 : ℝ) < powerFactor wh * -B4 * (hi.2 - v.2) ^ 2 :=
      mul_pos (mul_pos hk (by norm_num [B4])) (pow_pos (sub_pos.2 hlt) 2)
    exact hpos.ne' hcurve

/-- Where the cap never comes in, a prediction that never falls rises at the
two places `Rising` names: the differences over ever shorter steps there. -/
theorem NeverFalls.rising (h : NeverFalls wh lo hi) (hle : lo ≤ hi)
    (hcap : ∀ x ∈ Set.Icc lo hi, powerPoly x.1 x.2 wh ≤ 80) : Rising wh lo hi := by
  have hk := zero_lt_one.trans_le (one_le_powerFactor (K := ℝ) wh)
  have hstep : ∀ x ∈ Set.Icc lo hi, ∀ y ∈ Set.Icc lo hi, x ≤ y →
      0 ≤ powerRise x.1 x.2 y.1 y.2 wh := by
    intro x hx y hy hxy
    have := h x hx y hy hxy 0 0
    rw [countPowerCost_eq, countPowerCost_eq, if_neg (not_lt.2 (hcap x hx)),
      if_neg (not_lt.2 (hcap y hy))] at this
    rw [← powerPoly_sub]
    linarith
  constructor
  · intro hlt
    refine le_of_forall_pos_le_add fun ε hε => ?_
    have hB3 : (0 : ℝ) < B3 := by norm_num [B3]
    obtain ⟨d, hd, hd1, hd2⟩ : ∃ d, 0 < d ∧ d ≤ hi.1 - lo.1 ∧ B3 * d ≤ ε :=
      ⟨min (hi.1 - lo.1) (ε / B3), lt_min (sub_pos.2 hlt) (div_pos hε hB3), min_le_left _ _, by
        rw [← le_div_iff₀' hB3]; exact min_le_right _ _⟩
    have hrise := hstep (lo.1, hi.2) ⟨⟨le_rfl, hle.2⟩, ⟨hle.1, le_rfl⟩⟩ (lo.1 + d, hi.2)
      ⟨⟨by simp [hd.le], hle.2⟩, ⟨by simp; linarith, le_rfl⟩⟩ ⟨by simp [hd.le], le_rfl⟩
    simp only [powerRise, sub_self, zero_mul, add_zero, add_sub_cancel_left] at hrise
    have := nonneg_of_mul_nonneg_right hrise hd
    linarith
  · intro hlt
    refine le_of_forall_pos_le_add fun ε hε => ?_
    have hB4 : (0 : ℝ) < -B4 := by norm_num [B4]
    obtain ⟨d, hd, hd1, hd2⟩ : ∃ d, 0 < d ∧ d ≤ hi.2 - lo.2 ∧ -B4 * d ≤ ε :=
      ⟨min (hi.2 - lo.2) (ε / -B4), lt_min (sub_pos.2 hlt) (div_pos hε hB4), min_le_left _ _, by
        rw [← le_div_iff₀' hB4]; exact min_le_right _ _⟩
    have hrise := hstep (hi.1, hi.2 - d) ⟨⟨hle.1, by simp; linarith⟩, ⟨le_rfl, by simp [hd.le]⟩⟩ hi
      ⟨hle, le_rfl⟩ ⟨le_rfl, by simp [hd.le]⟩
    simp only [powerRise, sub_self, zero_mul, zero_add, sub_sub_cancel] at hrise
    have := nonneg_of_mul_nonneg_right (nonneg_of_mul_nonneg_right hrise hd) hk
    linarith

/-- Below the cap that happens only where one of the two charges is fixed:
the pages take over at 8.7 million, the CPU cost counts up to 2.2 million. -/
theorem Rising.one_side (h : Rising wh lo hi) (hle : lo ≤ hi) (hcpu : 0 ≤ hi.2) :
    lo.1 = hi.1 ∨ lo.2 = hi.2 := by
  by_contra hne
  rw [not_or] at hne
  have hio := h.io (hle.1.lt_of_ne hne.1)
  have hcpu' := h.cpu (hle.2.lt_of_ne hne.2)
  have hk : powerFactor wh * B5 * hi.2 ≤ 0 :=
    mul_nonpos_of_nonpos_of_nonneg (mul_nonpos_of_nonneg_of_nonpos
      (zero_le_one.trans (one_le_powerFactor wh)) (by norm_num [B5])) hcpu
  have hpages := hle.1
  norm_num [B1, B2, B3, B4, B5] at hio hcpu' hk
  linarith

/-- **The ranges over which more work never draws less power**: those on which
the polynomial rises and stays within the cap, and those on which every
charge but the last exceeds the cap and is put at 45. -/
theorem countPowerCost_neverFalls_iff (wh : ℕ) (hle : lo ≤ hi) :
    NeverFalls wh lo hi ↔
      (Rising wh lo hi ∧ powerPoly hi.1 hi.2 wh ≤ 80) ∨
      (80 ≤ powerPoly hi.1 hi.2 wh ∧
        ∀ x ∈ Set.Icc lo hi, x ≠ hi → 80 < powerPoly x.1 x.2 wh) := by
  constructor
  · intro h
    by_cases hcap : ∀ x ∈ Set.Icc lo hi, powerPoly x.1 x.2 wh ≤ 80
    · exact .inl ⟨h.rising hle hcap, hcap hi ⟨hle, le_rfl⟩⟩
    · simp only [not_forall, not_le] at hcap
      obtain ⟨x, hx, hover⟩ := hcap
      refine .inr ⟨h.le_of_over hx.1 hx.2 le_rfl hover, fun z hz hne => ?_⟩
      -- what `x` and `z` have in common is over the cap, and `z` is more
      have hmeet := h.over_of_le (le_inf hx.1 hz.1) inf_le_left hx.2 hover
      exact (h.le_of_over (le_inf hx.1 hz.1) inf_le_right hz.2 hmeet).lt_of_ne
        (h.ne_of_ne hz.1 hz.2 hne).symm
  · rintro (⟨hrising, hcap⟩ | ⟨hend, hover⟩) x hx y hy hxy time time'
    · have hpoly := hrising.powerPoly_le hx.1 hxy hy.2
      have hy80 := (hrising.powerPoly_le hy.1 hy.2 le_rfl).trans hcap
      rw [countPowerCost_eq, countPowerCost_eq, if_neg (not_lt.2 (hpoly.trans hy80)),
        if_neg (not_lt.2 hy80)]
      exact hpoly
    · by_cases hxhi : x = hi
      · rw [hxhi, le_antisymm hy.2 (hxhi ▸ hxy)]
        exact le_of_eq rfl
      · rw [countPowerCost_eq, countPowerCost_eq, if_pos (hover x hx hxhi)]
        split_ifs with hcap
        · exact le_rfl
        · have : y = hi := by_contra fun hne => hcap (hover y hy hne)
          rw [this]
          linarith

end

/-- At 100000 pages a CPU cost of up to a million draws the more the higher it is. -/
theorem countPowerCost_neverFalls_cpu : NeverFalls 0 (100000, 0) (100000, 1000000) := by
  have hle : ((100000, 0) : ℝ × ℝ) ≤ (100000, 1000000) := ⟨le_rfl, by norm_num⟩
  refine (countPowerCost_neverFalls_iff 0 hle).2 (.inl ⟨⟨?_, ?_⟩, ?_⟩)
  · intro h
    exact absurd h (lt_irrefl _)
  · intro _
    norm_num [B2, B4, B5]
  · norm_num [powerPoly, powerFactor, B0, B1, B2, B3, B4, B5]

/-- A million pages draw less than none, and at the cap two million pages more draw less. -/
theorem countPowerCost_pages_fall :
    countPowerCost (1000000 : ℚ) 0 0 0 < countPowerCost 0 0 0 0 ∧
      countPowerCost (25000000 : ℚ) 0 0 0 < countPowerCost 23000000 0 0 0 := by
  simp only [countPowerCost, B0, B1, B2, B3, B4, B5]
  norm_num

end GreenPipeline.L3.PowerModel
