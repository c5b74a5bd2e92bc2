import GreenPipeline.L3Planner.PathNodes
import Mathlib.Tactic.Ring

/-!
# Pages fetched by an index scan (`index_pages_fetched`)

The estimate of Mackert and Lohman for the pages read when a number of tuples is fetched through
an index. A table that fits its share of the cache is read at most once; else the estimate goes on
along a line once the cache is full (`src/backend/optimizer/path/costsize.c`).

Results:

* `curve_lim`: curve and line meet where the cache is full.
* `indexPagesFetched_bounds`: the estimate grows with the tuples, and is at most their number and,
  if the table fits, its size.
-/
namespace GreenPipeline.L3.IndexPages
open GreenPipeline.L3.PathNodes Int

variable {K : Type*} [Field K]

/-- `T`. mirrors costsize.c:896 -/
def tablePages (pages : ℕ) : K := if pages > 1 then pages else 1

theorem tablePages_eq (pages : ℕ) : ∃ n : ℤ, (tablePages pages : K) = n ∧ 1 ≤ n := by
  unfold tablePages
  split
  · exact ⟨pages, by simp, by omega⟩
  · exact ⟨1, by simp, le_refl 1⟩

variable [LinearOrder K] [FloorRing K]

/-- `b`. mirrors costsize.c:898-910 -/
def cacheShare (env : CostEnv K) (pages : ℕ) (indexPages : K) : K :=
  let totalPages := max (env.totalTablePages + indexPages) 1
  let b := env.effectiveCacheSize * tablePages pages / totalPages
  if b ≤ 1 then 1 else ⌈b⌉

/-- The formula while there is room in the cache. -/
def curve (T tuplesFetched : K) : K := (2.0 * T * tuplesFetched) / (2.0 * T + tuplesFetched)

/-- mirrors costsize.c:886-942 -/
def indexPagesFetched (env : CostEnv K) (tuplesFetched : K) (pages : ℕ) (indexPages : K) : K :=
  let T : K := tablePages pages
  let b := cacheShare env pages indexPages
  if T ≤ b then
    let pagesFetched := curve T tuplesFetched
    if pagesFetched ≥ T then T else ⌈pagesFetched⌉
  else
    let lim := (2.0 * T * b) / (2.0 * T - b)
    ⌈if tuplesFetched ≤ lim then curve T tuplesFetched else b + (tuplesFetched - lim) * (T - b) / T⌉

variable {T b x y : K}

theorem cacheShare_pos (env : CostEnv K) (pages : ℕ) (indexPages : K) :
    0 < cacheShare env pages indexPages := by
  unfold cacheShare
  dsimp only
  split
  · exact one_pos
  · rename_i h
    exact (one_pos.trans (not_le.1 h)).trans_le (le_ceil _)

variable [IsStrictOrderedRing K]

omit [FloorRing K] in
theorem curve_mono (hT : 0 < T) (hx : 0 ≤ x) (hxy : x ≤ y) : curve T x ≤ curve T y := by
  rw [curve, curve, div_le_div_iff₀ (by linarith) (by linarith)]
  have hmul := mul_le_mul_of_nonneg_left hxy (mul_nonneg hT.le hT.le)
  linarith

omit [FloorRing K] in
theorem curve_le (hT : 0 < T) (hx : 0 ≤ x) : curve T x ≤ x := by
  rw [curve, div_le_iff₀ (by linarith)]
  have hsq := mul_nonneg hx hx
  linarith

omit [FloorRing K] in
/-- Curve and line meet where the cache is full. -/
theorem curve_lim (hb : 0 < b) (hbT : b < T) {lim : K} (hlim : 2.0 * T * b / (2.0 * T - b) = lim) :
    0 ≤ lim ∧ curve T lim = b := by
  have hpos : 0 < 2.0 * T - b := by linarith
  have hT := hb.trans hbT
  have hlim0 := hlim ▸ div_nonneg (mul_nonneg (by linarith) hb.le) hpos.le
  rw [div_eq_iff hpos.ne'] at hlim
  refine ⟨hlim0, ?_⟩
  rw [curve, div_eq_iff (by linarith)]
  linarith

omit [FloorRing K] in
/-- Beyond the limit: from `b` on, with a slope of at most one. -/
theorem line_bounds (hb : 0 < b) (hbT : b < T) {lim : K} (hx : lim ≤ x) (hxy : x ≤ y) :
    b ≤ b + (x - lim) * (T - b) / T ∧ b + (x - lim) * (T - b) / T ≤ b + (y - lim) * (T - b) / T ∧
    b + (x - lim) * (T - b) / T ≤ b + (x - lim) := by
  have hT := hb.trans hbT
  have hslope : 0 ≤ T - b := by linarith
  refine ⟨?_, ?_, ?_⟩
  · have h := div_nonneg (mul_nonneg (sub_nonneg.2 hx) hslope) hT.le
    linarith
  · have h :=
      div_le_div_of_nonneg_right
        (mul_le_mul_of_nonneg_right (sub_le_sub_right hxy lim) hslope) hT.le
    linarith
  · have h : (x - lim) * (T - b) / T ≤ x - lim := by
      rw [div_le_iff₀ hT]
      exact mul_le_mul_of_nonneg_left (by linarith) (sub_nonneg.2 hx)
    linarith

/-- The estimate grows with the tuples, is at most their number rounded up and, if the table fits
its share of the cache, at most the size of the table. -/
theorem indexPagesFetched_bounds (env : CostEnv K) (pages : ℕ) (indexPages : K) (hx : 0 ≤ x)
    (hxy : x ≤ y) :
    indexPagesFetched env x pages indexPages ≤ indexPagesFetched env y pages indexPages ∧
      indexPagesFetched env x pages indexPages ≤ ⌈x⌉ ∧
      (tablePages pages ≤ cacheShare env pages indexPages →
        indexPagesFetched env x pages indexPages ≤ tablePages pages) := by
  obtain ⟨n, hn, hn1⟩ := tablePages_eq (K := K) pages
  have hb := cacheShare_pos env pages indexPages
  unfold indexPagesFetched
  dsimp only
  rw [hn]
  generalize cacheShare env pages indexPages = b at hb ⊢
  have hT : (0 : K) < n := cast_pos.2 (by omega)
  have hmono := curve_mono hT hx hxy
  have hle := curve_le hT hx
  have hceil : (⌈curve (n : K) x⌉ : K) ≤ ⌈x⌉ := cast_le.2 (ceil_mono hle)
  by_cases hfit : (n : K) ≤ b
  · simp only [if_pos hfit]
    have hround : ∀ z : K, curve (n : K) z < n → (⌈curve (n : K) z⌉ : K) ≤ n :=
      fun z hz => cast_le.2 (ceil_le.2 hz.le)
    split
    · rename_i hfull
      exact ⟨by rw [if_pos (hfull.trans hmono)], (hfull.trans hle).trans (le_ceil x),
        fun _ => le_refl _⟩
    · rename_i hroom
      refine ⟨?_, hceil, fun _ => hround x (not_le.1 hroom)⟩
      split
      · exact hround x (not_le.1 hroom)
      · exact cast_le.2 (ceil_mono hmono)
  · simp only [if_neg hfit]
    rw [not_le] at hfit
    generalize hlim : 2.0 * (n : K) * b / (2.0 * n - b) = lim
    obtain ⟨hlim0, hmeet⟩ := curve_lim hb hfit hlim
    have hblim := hmeet ▸ curve_le hT hlim0
    refine ⟨cast_le.2 (ceil_mono ?_), cast_le.2 (ceil_mono ?_), fun h => absurd h (not_le.2 hfit)⟩
    · split
      · rename_i hxlim
        split
        · exact hmono
        · rename_i hylim
          calc curve (n : K) x ≤ curve (n : K) lim := curve_mono hT hx hxlim
            _ = b := hmeet
            _ ≤ b + (y - lim) * (n - b) / n :=
              (line_bounds hb hfit (not_le.1 hylim).le (le_refl y)).1
      · rename_i hxlim
        rw [if_neg fun hylim => hxlim (hxy.trans hylim)]
        exact (line_bounds hb hfit (not_le.1 hxlim).le hxy).2.1
    · split
      · exact hle
      · rename_i hxlim
        have hline := (line_bounds hb hfit (not_le.1 hxlim).le hxy).2.2
        linarith

/-- A table of a hundred pages fits the default cache. -/
theorem indexPagesFetched_bounds_fits :
    indexPagesFetched defaultEnv 10 100 100 ≤ indexPagesFetched defaultEnv 20 100 100 ∧
      indexPagesFetched defaultEnv 10 100 100 ≤ (⌈(10 : ℝ)⌉ : ℝ) ∧
      indexPagesFetched defaultEnv 10 100 100 ≤ (100 : ℝ) := by
  have hT : (tablePages 100 : ℝ) = 100 := by norm_num [tablePages]
  have hfit : (tablePages 100 : ℝ) ≤ cacheShare defaultEnv 100 100 := by
    rw [cacheShare, hT]
    norm_num [defaultEnv]
  obtain ⟨hmono, hceil, hsize⟩ :=
    indexPagesFetched_bounds defaultEnv 100 100 (x := 10) (y := 20) (by norm_num) (by norm_num)
  exact ⟨hmono, hceil, hT ▸ hsize hfit⟩

end GreenPipeline.L3.IndexPages
