import CudaForge.Evaluation.LatencyProfile
import CudaForge.Library.Numerals
import CudaForge.Statistics.ParetoPoints
import Mathlib.Analysis.Real.Sqrt
import Mathlib.Data.List.ReduceOption
import Mathlib.Data.Rat.Cast.Order

/-!
Latency distributions in exact arithmetic. What the seeded generator picks for the resamples is a
parameter, as is the square root; a sample is `none` where it is not a number.
-/
namespace CudaForge.Statistics
open Evaluation LinearInterpolation Numerals

structure ConfidenceInterval (𝕜 : Type*) where
  lower : 𝕜
  upper : 𝕜
  confidenceLevel : ℚ

structure LatencyDistributionSummary (𝕜 : Type*) where
  count : ℕ
  mean : 𝕜
  stdDev : 𝕜
  variance : 𝕜
  medianP50 : 𝕜
  p90 : 𝕜
  p95 : 𝕜
  p99 : 𝕜
  p99_9 : 𝕜
  iqr : 𝕜
  mad : 𝕜
  meanCi : ConfidenceInterval 𝕜
  p95Ci : ConfidenceInterval 𝕜
  p99Ci : ConfidenceInterval 𝕜

/-- The indices that the generator of a seed picks out of `n`, for each resample and position. -/
structure Choices where
  index : ℕ → ℕ → ℕ → ℕ
  index_lt : ∀ {n : ℕ} (i k : ℕ), 0 < n → index n i k < n

def ValueError.emptyDataset : ValueError :=
  ⟨"Cannot compute statistical distribution on empty or NaN dataset."⟩

def ValueError.percentileRange : ValueError := ⟨"Percentiles must be in the range [0, 100]"⟩

section Model
variable {𝕜 : Type*} [Field 𝕜] [LinearOrder 𝕜] [FloorRing 𝕜]

def ascending (data : List 𝕜) : List 𝕜 := data.mergeSort fun x y => decide (x ≤ y)

/-- `np.percentile` with its documented default method `linear`, for a `q` between 0 and 100: the
values of the sorted data around the virtual index `(n - 1) * q / 100`, weighted by its fraction. -/
def percentileOf (data : List 𝕜) (q : ℚ) : 𝕜 :=
  interpolate (element (ascending data)) (rank (ascending data) ((q / 100 : ℚ) : 𝕜))

/-- `np.percentile`, which raises for other `q`. -/
def npPercentile (data : List 𝕜) (q : ℚ) : Except ValueError 𝕜 :=
  if 0 ≤ q ∧ q ≤ 100 then .ok (percentileOf data q) else .error .percentileRange

/-- `np.median`: the middle of the sorted data, or the mean of the two middle values. -/
def median (data : List 𝕜) : 𝕜 :=
  let middle : ℤ := data.length / 2
  if data.length % 2 = 1 then element (ascending data) middle
  else (element (ascending data) (middle - 1) + element (ascending data) middle) / 2

/-- `np.var` with `ddof=1`: the squared deviations from the mean, summed and divided by `n - 1`. -/
def sampleVariance (data : List 𝕜) : 𝕜 :=
  (data.map fun x => (x - mean data) ^ 2).sum / (data.length - 1)

/-- `rng.choice(data, size=n, replace=True)` -/
def resample (choices : Choices) (data : List 𝕜) (i : ℕ) : List 𝕜 :=
  (List.range data.length).map fun k => data.getD (choices.index data.length i k) 0

def bootstrapCi (choices : Choices) (data : List 𝕜) (statFn : List 𝕜 → 𝕜) (numBootstrap : ℤ)
    (confidenceLevel : ℚ) : Except ValueError (ConfidenceInterval 𝕜) :=
  if data.length < 2 ∨ numBootstrap ≤ 0 then
    .ok ⟨statFn data, statFn data, confidenceLevel⟩
  else
    let bootstrapStats :=
      (List.range numBootstrap.toNat).map fun i => statFn (resample choices data i)
    let alpha := (1 - confidenceLevel) / 2
    (npPercentile bootstrapStats (alpha * 100)).bind fun lowerBound =>
      (npPercentile bootstrapStats ((1 - alpha) * 100)).map fun upperBound =>
        ⟨lowerBound, upperBound, confidenceLevel⟩

def summaryOf (sqrt : 𝕜 → 𝕜) (data : List 𝕜) (meanCi p95Ci p99Ci : ConfidenceInterval 𝕜) :
    LatencyDistributionSummary 𝕜 :=
  let p50 := percentileOf data 50
  { count := data.length
    mean := mean data
    stdDev := if 1 < data.length then sqrt (sampleVariance data) else 0
    variance := if 1 < data.length then sampleVariance data else 0
    medianP50 := p50
    p90 := percentileOf data 90
    p95 := percentileOf data 95
    p99 := percentileOf data 99
    p99_9 := percentileOf data (999 / 10)
    iqr := percentileOf data 75 - percentileOf data 25
    mad := median (data.map fun x => |x - p50|)
    meanCi := meanCi
    p95Ci := p95Ci
    p99Ci := p99Ci }

/-- The three intervals start from the same seed, and so from the same choices. -/
def computeDistribution (sqrt : 𝕜 → 𝕜) (choices : Choices) (samples : List (Option 𝕜))
    (numBootstrapSamples : ℤ) (confidenceLevel : ℚ) :
    Except ValueError (LatencyDistributionSummary 𝕜) :=
  let data := samples.reduceOption
  if data.isEmpty then .error .emptyDataset
  else
    let ci := fun statFn => bootstrapCi choices data statFn numBootstrapSamples confidenceLevel
    (ci mean).bind fun meanCi =>
      (ci fun x => percentileOf x 95).bind fun p95Ci =>
        (ci fun x => percentileOf x 99).map fun p99Ci => summaryOf sqrt data meanCi p95Ci p99Ci

end Model

section Bounds
variable {𝕜 : Type*} [Field 𝕜] [LinearOrder 𝕜] [FloorRing 𝕜] {data : List 𝕜} {lo hi : 𝕜}

def Within (lo hi : 𝕜) (data : List 𝕜) : Prop := data ≠ [] ∧ ∀ x ∈ data, lo ≤ x ∧ x ≤ hi

omit [Field 𝕜] [FloorRing 𝕜] in
theorem ascending_perm (data : List 𝕜) : (ascending data).Perm data := List.mergeSort_perm _ _

omit [Field 𝕜] [FloorRing 𝕜] in
theorem ascending_sorted (data : List 𝕜) : (ascending data).Pairwise (· ≤ ·) :=
  List.pairwise_mergeSort' (· ≤ ·) data

omit [Field 𝕜] [FloorRing 𝕜] in
theorem ascending_ne_nil (hne : data ≠ []) : ascending data ≠ [] := by
  intro hempty
  exact hne (List.nil_perm.mp (hempty ▸ ascending_perm data))

omit [Field 𝕜] [FloorRing 𝕜] in
theorem Within.sorted (h : Within lo hi data) : Within lo hi (ascending data) :=
  ⟨ascending_ne_nil h.1, fun x hx => h.2 x ((ascending_perm data).mem_iff.mp hx)⟩

omit [FloorRing 𝕜] in
theorem Within.element (h : Within lo hi data) {i : ℤ} (hi' : i < data.length) :
    lo ≤ element data i ∧ element data i ≤ hi := by
  have hpos := List.length_pos_iff.mpr h.1
  have hlt : i.toNat < data.length := by omega
  rw [Evaluation.element, List.getD_eq_getElem _ _ hlt]
  exact h.2 _ (List.getElem_mem hlt)

variable [IsStrictOrderedRing 𝕜]

omit [FloorRing 𝕜] in
theorem percent_mem {q : ℚ} (h : 0 ≤ q ∧ q ≤ 100) :
    0 ≤ ((q / 100 : ℚ) : 𝕜) ∧ ((q / 100 : ℚ) : 𝕜) ≤ 1 := by
  constructor
  · exact_mod_cast div_nonneg h.1 (by norm_num)
  · have hle : q / 100 ≤ 1 := (div_le_one (by norm_num)).mpr h.2
    exact_mod_cast hle

theorem Within.percentileOf (h : Within lo hi data) {q : ℚ} (hq : 0 ≤ q ∧ q ≤ 100) :
    lo ≤ percentileOf data q ∧ percentileOf data q ≤ hi := by
  have hsorted := h.sorted
  obtain ⟨hp, hp'⟩ := percent_mem (𝕜 := 𝕜) hq
  have hrank := rank_mem hsorted.1 hp hp'
  obtain ⟨hlow, hhigh⟩ :=
    interpolate_between (element_monotoneOn (ascending_sorted data)) hrank
  have hfloor := (floor_mem hrank).2
  have hceil := (ceil_mem hrank).2
  exact ⟨(hsorted.element (by omega)).1.trans hlow, hhigh.trans (hsorted.element (by omega)).2⟩

theorem percentileOf_mono (hne : data ≠ []) {q r : ℚ} (hq : 0 ≤ q) (hqr : q ≤ r) (hr : r ≤ 100) :
    percentileOf data q ≤ percentileOf data r := by
  have hne' := ascending_ne_nil hne
  obtain ⟨hp, hp'⟩ := percent_mem (𝕜 := 𝕜) ⟨hq, hqr.trans hr⟩
  obtain ⟨hs, hs'⟩ := percent_mem (𝕜 := 𝕜) ⟨hq.trans hqr, hr⟩
  have hle : ((q / 100 : ℚ) : 𝕜) ≤ ((r / 100 : ℚ) : 𝕜) := by
    have hdiv : q / 100 ≤ r / 100 := div_le_div_of_nonneg_right hqr (by norm_num)
    exact_mod_cast hdiv
  exact interpolate_monotoneOn (element_monotoneOn (ascending_sorted data)) (rank_mem hne' hp hp')
    (rank_mem hne' hs hs') (rank_mono hne' hle)

omit [FloorRing 𝕜] in
theorem Within.mean (h : Within lo hi data) : lo ≤ mean data ∧ mean data ≤ hi := by
  have hlen : (0 : 𝕜) < data.length := Nat.cast_pos.mpr (List.length_pos_iff.mpr h.1)
  rw [Evaluation.mean, le_div_iff₀ hlen, div_le_iff₀ hlen, mul_comm lo, mul_comm hi,
    ← nsmul_eq_mul, ← nsmul_eq_mul]
  exact ⟨List.card_nsmul_le_sum _ _ fun x hx => (h.2 x hx).1,
    List.sum_le_card_nsmul _ _ fun x hx => (h.2 x hx).2⟩

theorem Within.median (h : Within lo hi data) : lo ≤ median data ∧ median data ≤ hi := by
  have hpos := List.length_pos_iff.mpr h.1
  have hlength : (ascending data).length = data.length := (ascending_perm data).length_eq
  obtain ⟨hlow, hhigh⟩ := h.sorted.element (i := data.length / 2) (by omega)
  obtain ⟨hlow', hhigh'⟩ := h.sorted.element (i := data.length / 2 - 1) (by omega)
  unfold Statistics.median
  dsimp only
  split_ifs
  · exact ⟨hlow, hhigh⟩
  · constructor <;> linarith

omit [FloorRing 𝕜] [IsStrictOrderedRing 𝕜] in
/-- The resamples draw from the data. -/
theorem Within.resample (h : Within lo hi data) (choices : Choices) (i : ℕ) :
    Within lo hi (resample choices data i) := by
  have hpos := List.length_pos_iff.mpr h.1
  constructor
  · simpa [Statistics.resample] using h.1
  · intro x hx
    obtain ⟨k, -, rfl⟩ := List.mem_map.mp hx
    rw [List.getD_eq_getElem _ _ (choices.index_lt i k hpos)]
    exact h.2 _ (List.getElem_mem _)

end Bounds

section Ordered
variable {𝕜 : Type*} [Field 𝕜] [LinearOrder 𝕜] [FloorRing 𝕜] {data : List 𝕜} {lo hi : 𝕜}
  {choices : Choices} {statFn : List 𝕜 → 𝕜} {numBootstrap : ℤ} {confidenceLevel : ℚ}

/-- The two percentiles of an interval are in numpy's range. -/
theorem bounds_mem_iff (confidenceLevel : ℚ) :
    ((0 ≤ (1 - confidenceLevel) / 2 * 100 ∧ (1 - confidenceLevel) / 2 * 100 ≤ 100) ∧
      0 ≤ (1 - (1 - confidenceLevel) / 2) * 100 ∧ (1 - (1 - confidenceLevel) / 2) * 100 ≤ 100) ↔
      -1 ≤ confidenceLevel ∧ confidenceLevel ≤ 1 := by
  constructor
  · rintro ⟨⟨h, h'⟩, -⟩
    constructor <;> linarith
  · rintro ⟨h, h'⟩
    refine ⟨⟨?_, ?_⟩, ?_, ?_⟩ <;> linarith

/-- Whether an interval can be given does not depend on the data beyond its length. -/
theorem bootstrapCi_ok_iff : (∃ ci, bootstrapCi choices data statFn numBootstrap confidenceLevel =
      .ok ci) ↔
    data.length < 2 ∨ numBootstrap ≤ 0 ∨ -1 ≤ confidenceLevel ∧ confidenceLevel ≤ 1 := by
  unfold bootstrapCi
  split_ifs with hfew
  · exact iff_of_true ⟨_, rfl⟩ (hfew.elim Or.inl fun h => Or.inr (Or.inl h))
  · obtain ⟨hlen, hnum⟩ := not_or.mp hfew
    simp only [hlen, hnum, false_or, ← bounds_mem_iff, npPercentile]
    by_cases hlower : 0 ≤ (1 - confidenceLevel) / 2 * 100 ∧ (1 - confidenceLevel) / 2 * 100 ≤ 100
    · by_cases hupper : 0 ≤ (1 - (1 - confidenceLevel) / 2) * 100 ∧
          (1 - (1 - confidenceLevel) / 2) * 100 ≤ 100
      · rw [if_pos hlower, if_pos hupper]
        exact iff_of_true ⟨_, rfl⟩ ⟨hlower, hupper⟩
      · rw [if_pos hlower, if_neg hupper]
        exact iff_of_false (by rintro ⟨ci, h⟩; cases h) fun h => hupper h.2
    · rw [if_neg hlower]
      exact iff_of_false (by rintro ⟨ci, h⟩; cases h) fun h => hlower h.1

omit [Field 𝕜] [LinearOrder 𝕜] [FloorRing 𝕜] in
theorem replicates_ne_nil (h : ¬ numBootstrap ≤ 0) (statistic : ℕ → 𝕜) :
    (List.range numBootstrap.toNat).map statistic ≠ [] := by
  simp only [ne_eq, List.map_eq_nil_iff, List.range_eq_nil]
  omega

def ConfidenceInterval.Inside (lo hi : 𝕜) (ci : ConfidenceInterval 𝕜) : Prop :=
  lo ≤ ci.lower ∧ ci.lower ≤ ci.upper ∧ ci.upper ≤ hi

/-- A statistic that stays between the bounds of its data has an interval between them. -/
theorem Within.bootstrapCi [IsStrictOrderedRing 𝕜] (h : Within lo hi data)
    (hstat : ∀ l, Within lo hi l → lo ≤ statFn l ∧ statFn l ≤ hi) (hlevel : 0 ≤ confidenceLevel)
    {ci : ConfidenceInterval 𝕜}
    (hci : bootstrapCi choices data statFn numBootstrap confidenceLevel = .ok ci) :
    ci.Inside lo hi := by
  unfold Statistics.bootstrapCi at hci
  split_ifs at hci with hfew
  · obtain rfl := Except.ok.inj hci
    obtain ⟨hlow, hhigh⟩ := hstat data h
    exact ⟨hlow, le_rfl, hhigh⟩
  · obtain ⟨-, hnum⟩ := not_or.mp hfew
    simp only [npPercentile] at hci
    have hstats : Within lo hi ((List.range numBootstrap.toNat).map fun i =>
        statFn (Statistics.resample choices data i)) := by
      refine ⟨replicates_ne_nil hnum _, fun x hx => ?_⟩
      obtain ⟨i, -, rfl⟩ := List.mem_map.mp hx
      exact hstat _ (h.resample choices i)
    split_ifs at hci with hlower hupper
    · obtain rfl := Except.ok.inj hci
      refine ⟨(hstats.percentileOf hlower).1, ?_, (hstats.percentileOf hupper).2⟩
      exact percentileOf_mono hstats.1 hlower.1 (by linarith) hupper.2
    all_goals cases hci

/-- All of the summary lies between the bounds of the data, in the order of the names. -/
structure LatencyDistributionSummary.Ordered (lo hi : 𝕜) (r : LatencyDistributionSummary 𝕜) :
    Prop where
  mean : lo ≤ r.mean ∧ r.mean ≤ hi
  median : lo ≤ r.medianP50
  percentiles : r.medianP50 ≤ r.p90 ∧ r.p90 ≤ r.p95 ∧ r.p95 ≤ r.p99 ∧ r.p99 ≤ r.p99_9
  last : r.p99_9 ≤ hi
  iqr : 0 ≤ r.iqr ∧ r.iqr ≤ hi - lo
  mad : 0 ≤ r.mad ∧ r.mad ≤ hi - lo
  variance : 0 ≤ r.variance
  meanCi : r.meanCi.Inside lo hi
  p95Ci : r.p95Ci.Inside lo hi
  p99Ci : r.p99Ci.Inside lo hi

theorem sampleVariance_nonneg [IsStrictOrderedRing 𝕜] (h : 1 < data.length) :
    0 ≤ sampleVariance data := by
  apply div_nonneg
  · apply List.sum_nonneg
    intro y hy
    obtain ⟨x, -, rfl⟩ := List.mem_map.mp hy
    exact sq_nonneg _
  · rw [sub_nonneg]
    exact_mod_cast h.le

omit [FloorRing 𝕜] in
/-- The deviations from a number between the bounds are at most the range. -/
theorem Within.deviations [IsStrictOrderedRing 𝕜] (h : Within lo hi data) {y : 𝕜} (hlo : lo ≤ y)
    (hhi : y ≤ hi) : Within 0 (hi - lo) (data.map fun x => |x - y|) := by
  refine ⟨by simpa using h.1, fun d hd => ?_⟩
  obtain ⟨x, hx, rfl⟩ := List.mem_map.mp hd
  obtain ⟨hxlo, hxhi⟩ := h.2 x hx
  refine ⟨abs_nonneg _, abs_le.mpr ⟨?_, ?_⟩⟩ <;> linarith

theorem computeDistribution_eq_ok {sqrt : 𝕜 → 𝕜} {samples : List (Option 𝕜)}
    {r : LatencyDistributionSummary 𝕜} :
    computeDistribution sqrt choices samples numBootstrap confidenceLevel = .ok r ↔
      samples.reduceOption ≠ [] ∧ ∃ meanCi p95Ci p99Ci,
        bootstrapCi choices samples.reduceOption mean numBootstrap confidenceLevel = .ok meanCi ∧
        bootstrapCi choices samples.reduceOption (fun x => percentileOf x 95) numBootstrap
          confidenceLevel = .ok p95Ci ∧
        bootstrapCi choices samples.reduceOption (fun x => percentileOf x 99) numBootstrap
          confidenceLevel = .ok p99Ci ∧
        r = summaryOf sqrt samples.reduceOption meanCi p95Ci p99Ci := by
  unfold computeDistribution
  dsimp only
  split_ifs with hempty
  · rw [List.isEmpty_iff] at hempty
    exact iff_of_false (fun h => by cases h) fun h => h.1 hempty
  · rw [List.isEmpty_iff] at hempty
    generalize bootstrapCi choices samples.reduceOption mean numBootstrap confidenceLevel = first
    generalize bootstrapCi choices samples.reduceOption (fun x => percentileOf x 95) numBootstrap
      confidenceLevel = second
    generalize bootstrapCi choices samples.reduceOption (fun x => percentileOf x 99) numBootstrap
      confidenceLevel = third
    cases first <;> cases second <;> cases third <;>
      simp [Except.bind, Except.map, hempty, eq_comm]

theorem Within.summaryOf [IsStrictOrderedRing 𝕜] (h : Within lo hi data) (sqrt : 𝕜 → 𝕜)
    {meanCi p95Ci p99Ci : ConfidenceInterval 𝕜} (hmean : meanCi.Inside lo hi)
    (hp95 : p95Ci.Inside lo hi) (hp99 : p99Ci.Inside lo hi) :
    (summaryOf sqrt data meanCi p95Ci p99Ci).Ordered lo hi := by
  have hmono {q r : ℚ} := percentileOf_mono h.1 (q := q) (r := r)
  have hp50 := h.percentileOf (q := 50) (by norm_num)
  have hp25 := h.percentileOf (q := 25) (by norm_num)
  have hp75 := h.percentileOf (q := 75) (by norm_num)
  refine ⟨h.mean, hp50.1, ⟨?_, ?_, ?_, ?_⟩, ?_, ⟨?_, ?_⟩, ?_, ?_, hmean, hp95, hp99⟩
  · exact hmono (by norm_num) (by norm_num) (by norm_num)
  · exact hmono (by norm_num) (by norm_num) (by norm_num)
  · exact hmono (by norm_num) (by norm_num) (by norm_num)
  · exact hmono (by norm_num) (by norm_num) (by norm_num)
  · exact (h.percentileOf (by norm_num)).2
  · exact sub_nonneg.mpr (hmono (by norm_num) (by norm_num) (by norm_num))
  · exact sub_le_sub hp75.2 hp25.1
  · exact (h.deviations hp50.1 hp50.2).median
  · show 0 ≤ if 1 < data.length then sampleVariance data else 0
    split_ifs with hmany
    · exact sampleVariance_nonneg hmany
    · exact le_rfl

/-- A distribution is computed exactly when some sample is a number and, where there is something to
resample, the confidence level is between -1 and 1. At a level that is not negative everything in it
lies between any bounds of the samples and in order. -/
theorem distribution_ordered [IsStrictOrderedRing 𝕜] (sqrt : 𝕜 → 𝕜) (choices : Choices)
    (samples : List (Option 𝕜)) (numBootstrapSamples : ℤ) (confidenceLevel : ℚ) :
    ((∃ r, computeDistribution sqrt choices samples numBootstrapSamples confidenceLevel = .ok r) ↔
      samples.reduceOption ≠ [] ∧ (samples.reduceOption.length < 2 ∨ numBootstrapSamples ≤ 0 ∨
        -1 ≤ confidenceLevel ∧ confidenceLevel ≤ 1)) ∧
    ∀ r, computeDistribution sqrt choices samples numBootstrapSamples confidenceLevel = .ok r →
      0 ≤ confidenceLevel → ∀ lo hi, (∀ x, some x ∈ samples → lo ≤ x ∧ x ≤ hi) →
        r.Ordered lo hi := by
  constructor
  · constructor
    · rintro ⟨r, hr⟩
      obtain ⟨hne, meanCi, -, -, hmean, -⟩ := computeDistribution_eq_ok.mp hr
      exact ⟨hne, bootstrapCi_ok_iff.mp ⟨meanCi, hmean⟩⟩
    · rintro ⟨hne, hlevel⟩
      obtain ⟨meanCi, hmean⟩ := bootstrapCi_ok_iff.mpr hlevel
      obtain ⟨p95Ci, hp95⟩ := bootstrapCi_ok_iff.mpr hlevel
      obtain ⟨p99Ci, hp99⟩ := bootstrapCi_ok_iff.mpr hlevel
      exact ⟨_, computeDistribution_eq_ok.mpr
        ⟨hne, meanCi, p95Ci, p99Ci, hmean, hp95, hp99, rfl⟩⟩
  · intro r hr hlevel lo hi hsamples
    obtain ⟨hne, meanCi, p95Ci, p99Ci, hmean, hp95, hp99, rfl⟩ := computeDistribution_eq_ok.mp hr
    have hwithin : Within lo hi samples.reduceOption :=
      ⟨hne, fun x hx => hsamples x (List.reduceOption_mem_iff.mp hx)⟩
    apply hwithin.summaryOf
    · exact hwithin.bootstrapCi (fun l hl => hl.mean) hlevel hmean
    · exact hwithin.bootstrapCi (fun l hl => hl.percentileOf (by norm_num)) hlevel hp95
    · exact hwithin.bootstrapCi (fun l hl => hl.percentileOf (by norm_num)) hlevel hp99

def Choices.cyclic : Choices where
  index n i k := (i + k) % n
  index_lt _ _ hn := Nat.mod_lt _ hn

theorem distribution_ordered_three :
    ∃ r, computeDistribution Real.sqrt .cyclic [some 3, none, some 1, some 2] 1000 (19 / 20) =
      .ok r ∧ r.Ordered 1 3 := by
  obtain ⟨hok, hordered⟩ := distribution_ordered Real.sqrt .cyclic
    [some 3, none, some 1, some 2] 1000 (19 / 20)
  obtain ⟨r, hr⟩ := hok.mpr ⟨List.cons_ne_nil _ _, by norm_num⟩
  refine ⟨r, hr, hordered r hr (by norm_num) 1 3 fun x hx => ?_⟩
  simp only [List.mem_cons, Option.some.injEq, reduceCtorEq, List.not_mem_nil, or_false,
    false_or] at hx
  rcases hx with rfl | rfl | rfl <;> norm_num

end Ordered

section Affine
variable {𝕜 : Type*} [Field 𝕜] [LinearOrder 𝕜] [FloorRing 𝕜] {data : List 𝕜} {a : 𝕜}

def affine (a b x : 𝕜) : 𝕜 := a * x + b

def ConfidenceInterval.affine (a b : 𝕜) (ci : ConfidenceInterval 𝕜) : ConfidenceInterval 𝕜 :=
  { ci with lower := Statistics.affine a b ci.lower, upper := Statistics.affine a b ci.upper }

def LatencyDistributionSummary.affine (a b : 𝕜) (r : LatencyDistributionSummary 𝕜) :
    LatencyDistributionSummary 𝕜 where
  count := r.count
  mean := Statistics.affine a b r.mean
  stdDev := a * r.stdDev
  variance := a ^ 2 * r.variance
  medianP50 := Statistics.affine a b r.medianP50
  p90 := Statistics.affine a b r.p90
  p95 := Statistics.affine a b r.p95
  p99 := Statistics.affine a b r.p99
  p99_9 := Statistics.affine a b r.p99_9
  iqr := a * r.iqr
  mad := a * r.mad
  meanCi := r.meanCi.affine a b
  p95Ci := r.p95Ci.affine a b
  p99Ci := r.p99Ci.affine a b

variable [IsStrictOrderedRing 𝕜]

omit [FloorRing 𝕜] in
theorem ascending_affine (ha : 0 < a) (b : 𝕜) (data : List 𝕜) :
    ascending (data.map (affine a b)) = (ascending data).map (affine a b) := by
  unfold ascending
  rw [List.map_mergeSort]
  intro x _ y _
  simp [affine, ha]

omit [FloorRing 𝕜] [LinearOrder 𝕜] [IsStrictOrderedRing 𝕜] in
theorem element_affine (a b : 𝕜) {i : ℤ} (hi : i < data.length) (hne : data ≠ []) :
    element (data.map (affine a b)) i = affine a b (element data i) := by
  have hpos := List.length_pos_iff.mpr hne
  have hlt : i.toNat < data.length := by omega
  rw [element, element, List.getD_eq_getElem _ _ (by simpa using hlt),
    List.getD_eq_getElem _ _ hlt, List.getElem_map]

theorem percentileOf_affine (ha : 0 < a) (b : 𝕜) (hne : data ≠ []) {q : ℚ}
    (hq : 0 ≤ q ∧ q ≤ 100) :
    percentileOf (data.map (affine a b)) q = affine a b (percentileOf data q) := by
  have hne' := ascending_ne_nil hne
  obtain ⟨hp, hp'⟩ := percent_mem (𝕜 := 𝕜) hq
  have hrank := rank_mem hne' hp hp'
  have hfloor := (floor_mem hrank).2
  have hceil := (ceil_mem hrank).2
  have hsame : rank ((ascending data).map (affine a b)) ((q / 100 : ℚ) : 𝕜) =
      rank (ascending data) ((q / 100 : ℚ) : 𝕜) := by
    rw [rank, rank, List.length_map]
  rw [percentileOf, ascending_affine ha, hsame, interpolate, element_affine a b (by omega) hne',
    element_affine a b (by omega) hne', percentileOf, interpolate, affine, affine, affine]
  ring

omit [FloorRing 𝕜] [LinearOrder 𝕜] [IsStrictOrderedRing 𝕜] in
theorem sum_affine (a b : 𝕜) (data : List 𝕜) :
    (data.map (affine a b)).sum = a * data.sum + data.length * b := by
  induction data with
  | nil => simp
  | cons x data ih =>
    rw [List.map_cons, List.sum_cons, List.sum_cons, List.length_cons, ih, affine, Nat.cast_succ]
    ring

omit [FloorRing 𝕜] in
theorem mean_affine (a b : 𝕜) (hne : data ≠ []) :
    mean (data.map (affine a b)) = affine a b (mean data) := by
  have hlen : (data.length : 𝕜) ≠ 0 :=
    Nat.cast_ne_zero.mpr (List.length_pos_iff.mpr hne).ne'
  rw [mean, mean, sum_affine, List.length_map, affine, add_div, mul_div_assoc,
    mul_div_cancel_left₀ _ hlen]

omit [FloorRing 𝕜] in
theorem sampleVariance_affine (a b : 𝕜) (hne : data ≠ []) :
    sampleVariance (data.map (affine a b)) = a ^ 2 * sampleVariance data := by
  rw [sampleVariance, sampleVariance, mean_affine a b hne, List.length_map, List.map_map,
    mul_div_assoc', ← List.sum_map_mul_left]
  congr 2
  apply List.map_congr_left
  intro x _
  simp only [Function.comp_apply, affine]
  ring

theorem median_affine (ha : 0 < a) (b : 𝕜) (hne : data ≠ []) :
    median (data.map (affine a b)) = affine a b (median data) := by
  have hpos := List.length_pos_iff.mpr hne
  have hlength : (ascending data).length = data.length := (ascending_perm data).length_eq
  have hne' := ascending_ne_nil hne
  unfold median
  dsimp only
  rw [List.length_map, ascending_affine ha, element_affine a b (by omega) hne',
    element_affine a b (by omega) hne']
  split_ifs
  · rfl
  · simp only [affine]
    ring

omit [FloorRing 𝕜] [LinearOrder 𝕜] [IsStrictOrderedRing 𝕜] in
theorem resample_affine (a b : 𝕜) (choices : Choices) (hne : data ≠ []) (i : ℕ) :
    resample choices (data.map (affine a b)) i = (resample choices data i).map (affine a b) := by
  have hpos := List.length_pos_iff.mpr hne
  unfold resample
  rw [List.length_map, List.map_map]
  apply List.map_congr_left
  intro k _
  have hlt := choices.index_lt i k hpos
  rw [List.getD_eq_getElem _ _ (by simpa using hlt), List.getElem_map, Function.comp_apply,
    List.getD_eq_getElem _ _ hlt]

theorem npPercentile_affine (ha : 0 < a) (b : 𝕜) (hne : data ≠ []) (q : ℚ) :
    npPercentile (data.map (affine a b)) q = (npPercentile data q).map (affine a b) := by
  unfold npPercentile
  split_ifs with hq
  · rw [percentileOf_affine ha b hne hq]
    rfl
  · rfl

/-- A statistic that changes with its data has an interval that does. -/
theorem bootstrapCi_affine (ha : 0 < a) (b : 𝕜) (choices : Choices) (hne : data ≠ [])
    {statFn : List 𝕜 → 𝕜}
    (hstat : ∀ l, l ≠ [] → statFn (l.map (affine a b)) = affine a b (statFn l))
    (numBootstrap : ℤ) (confidenceLevel : ℚ) :
    bootstrapCi choices (data.map (affine a b)) statFn numBootstrap confidenceLevel =
      (bootstrapCi choices data statFn numBootstrap confidenceLevel).map
        (ConfidenceInterval.affine a b) := by
  unfold bootstrapCi
  rw [List.length_map]
  split_ifs with hfew
  · rw [hstat data hne]
    rfl
  · obtain ⟨-, hnum⟩ := not_or.mp hfew
    have hresampled (i : ℕ) : resample choices data i ≠ [] := by
      simpa [resample] using hne
    have hstats : ((List.range numBootstrap.toNat).map fun i =>
        statFn (resample choices (data.map (affine a b)) i)) =
        ((List.range numBootstrap.toNat).map fun i => statFn (resample choices data i)).map
          (affine a b) := by
      rw [List.map_map]
      apply List.map_congr_left
      intro i _
      rw [resample_affine a b choices hne, hstat _ (hresampled i), Function.comp_apply]
    have hne' := replicates_ne_nil hnum fun i => statFn (resample choices data i)
    dsimp only
    rw [hstats, npPercentile_affine ha b hne', npPercentile_affine ha b hne']
    generalize (List.range numBootstrap.toNat).map (fun i =>
      statFn (resample choices data i)) = bootstrapStats
    cases npPercentile bootstrapStats ((1 - confidenceLevel) / 2 * 100) <;>
      cases npPercentile bootstrapStats ((1 - (1 - confidenceLevel) / 2) * 100) <;> rfl

theorem summaryOf_affine (ha : 0 < a) (b : 𝕜) {sqrt : 𝕜 → 𝕜}
    (hsqrt : ∀ x, 0 ≤ x → sqrt (a ^ 2 * x) = a * sqrt x) (hne : data ≠ [])
    (meanCi p95Ci p99Ci : ConfidenceInterval 𝕜) :
    summaryOf sqrt (data.map (affine a b)) (meanCi.affine a b) (p95Ci.affine a b)
        (p99Ci.affine a b) =
      (summaryOf sqrt data meanCi p95Ci p99Ci).affine a b := by
  have hdeviations : (data.map (affine a b)).map (fun x =>
      |x - affine a b (percentileOf data 50)|) =
      (data.map fun x => |x - percentileOf data 50|).map (affine a 0) := by
    rw [List.map_map, List.map_map]
    apply List.map_congr_left
    intro x _
    simp only [Function.comp_apply, affine]
    rw [add_sub_add_right_eq_sub, ← mul_sub, abs_mul, abs_of_pos ha, add_zero]
  have hmad : median ((data.map (affine a b)).map fun x =>
      |x - affine a b (percentileOf data 50)|) =
      a * median (data.map fun x => |x - percentileOf data 50|) := by
    rw [hdeviations, median_affine ha 0 (by simpa using hne), affine, add_zero]
  unfold summaryOf LatencyDistributionSummary.affine
  simp (disch := norm_num) only [List.length_map, mean_affine a b hne,
    sampleVariance_affine a b hne, percentileOf_affine ha b hne, hmad]
  congr 1
  · split_ifs with hmany
    · exact hsqrt _ (sampleVariance_nonneg hmany)
    · rw [mul_zero]
  · split_ifs
    · rfl
    · rw [mul_zero]
  · simp only [affine]
    ring

/-- The same seed on samples in another unit with another zero gives the same distribution in that
unit, or the same error. -/
theorem distribution_affine (ha : 0 < a) (b : 𝕜) {sqrt : 𝕜 → 𝕜}
    (hsqrt : ∀ x, 0 ≤ x → sqrt (a ^ 2 * x) = a * sqrt x) (choices : Choices)
    (samples : List (Option 𝕜)) (numBootstrapSamples : ℤ) (confidenceLevel : ℚ) :
    computeDistribution sqrt choices (samples.map (Option.map (affine a b))) numBootstrapSamples
        confidenceLevel =
      (computeDistribution sqrt choices samples numBootstrapSamples confidenceLevel).map
        (LatencyDistributionSummary.affine a b) := by
  unfold computeDistribution
  rw [List.reduceOption_map]
  dsimp only
  rw [List.isEmpty_map]
  split_ifs with hempty
  · rfl
  · have hne : samples.reduceOption ≠ [] := by rwa [List.isEmpty_iff] at hempty
    rw [bootstrapCi_affine ha b choices hne fun l hl => mean_affine a b hl,
      bootstrapCi_affine ha b choices hne fun l hl => percentileOf_affine ha b hl (by norm_num),
      bootstrapCi_affine ha b choices hne fun l hl => percentileOf_affine ha b hl (by norm_num)]
    generalize bootstrapCi choices samples.reduceOption mean numBootstrapSamples confidenceLevel =
      first
    generalize bootstrapCi choices samples.reduceOption (fun x => percentileOf x 95)
      numBootstrapSamples confidenceLevel = second
    generalize bootstrapCi choices samples.reduceOption (fun x => percentileOf x 99)
      numBootstrapSamples confidenceLevel = third
    cases first <;> cases second <;> cases third <;>
      simp [Except.bind, Except.map, summaryOf_affine ha b hsqrt hne]

theorem distribution_affine_three :
    computeDistribution Real.sqrt .cyclic
        ([some 3, none, some 1, some 2].map (Option.map (affine 10 4))) 1000 (19 / 20) =
      (computeDistribution Real.sqrt .cyclic [some 3, none, some 1, some 2] 1000 (19 / 20)).map
        (LatencyDistributionSummary.affine 10 4) := by
  refine distribution_affine (by norm_num) 4 (fun x _ => ?_) .cyclic _ 1000 (19 / 20)
  rw [Real.sqrt_mul (sq_nonneg 10), Real.sqrt_sq (by norm_num)]

end Affine

end CudaForge.Statistics
