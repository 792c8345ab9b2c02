import CudaForge.Library.LinearInterpolation
import Mathlib.Data.List.GetD
import Mathlib.Data.Rat.Floor

/-!
Latency percentiles of a generation loop, in exact arithmetic. The square root of the standard
deviation is a parameter, as are the measured times.
-/
namespace CudaForge.Evaluation
open LinearInterpolation

structure LatencyProfileResult (𝕜 : Type*) where
  ttftMs : 𝕜
  itlMeanMs : 𝕜
  itlP50Ms : 𝕜
  itlP95Ms : 𝕜
  itlP99Ms : 𝕜
  itlStdMs : 𝕜
  prefillTps : 𝕜
  generationTps : 𝕜
  totalLatencySec : 𝕜
  numGeneratedTokens : ℤ
  perTokenLatenciesMs : List 𝕜

/-- `xs[i]`, where a negative index counts from the end; `none` is an `IndexError`. -/
def getItem {α : Type*} (xs : List α) (i : ℤ) : Option α :=
  if 0 ≤ i then xs[i.toNat]?
  else if 0 ≤ xs.length + i then xs[(xs.length + i).toNat]?
  else none

section Model
variable {𝕜 : Type*} [Field 𝕜] [LinearOrder 𝕜] [FloorRing 𝕜]

def rank (sortedData : List 𝕜) (percentile : 𝕜) : 𝕜 :=
  ((sortedData.length - 1 : ℤ) : 𝕜) * percentile

def percentile (sortedData : List 𝕜) (percentile : 𝕜) : Option 𝕜 :=
  if sortedData.isEmpty then some 0
  else
    let idx := rank sortedData percentile
    let floorIdx := ⌊idx⌋
    let ceilIdx := ⌈idx⌉
    if floorIdx = ceilIdx then getItem sortedData floorIdx
    else
      let weight := idx - floorIdx
      (getItem sortedData floorIdx).bind fun lower =>
        (getItem sortedData ceilIdx).map fun upper => lower * (1 - weight) + upper * weight

/-- `statistics.mean` -/
def mean (data : List 𝕜) : 𝕜 := data.sum / data.length

/-- `statistics.stdev` -/
def stdev (sqrt : 𝕜 → 𝕜) (data : List 𝕜) : 𝕜 :=
  sqrt ((data.map fun x => (x - mean data) ^ 2).sum / (data.length - 1))

/-- `elapsedTime step` is the time between the events around `step_fn(step)`. `none` when the
assertion on the device fails or an index is out of range. -/
def profileGenerationLoop (sqrt : 𝕜 → 𝕜) (cudaIsAvailable : Bool) (elapsedTime : ℕ → 𝕜)
    (promptLen genLen batchSize : ℤ) : Option (LatencyProfileResult 𝕜) :=
  if cudaIsAvailable then
    let ttftMs := elapsedTime 0
    let measured := (List.range' 1 (genLen - 1).toNat).map elapsedTime
    let tokenLatencies := if measured.isEmpty then [ttftMs] else measured
    let itlStd := if 1 < tokenLatencies.length then stdev sqrt tokenLatencies else 0
    let sortedItl := tokenLatencies.mergeSort fun x y => decide (x ≤ y)
    (percentile sortedItl (50 / 100)).bind fun itlP50 =>
      (percentile sortedItl (95 / 100)).bind fun itlP95 =>
        (percentile sortedItl (99 / 100)).map fun itlP99 =>
          let totalGenTimeMs := tokenLatencies.sum
          { ttftMs := ttftMs
            itlMeanMs := mean tokenLatencies
            itlP50Ms := itlP50
            itlP95Ms := itlP95
            itlP99Ms := itlP99
            itlStdMs := itlStd
            prefillTps :=
              if 0 < ttftMs then ((batchSize * promptLen : ℤ) : 𝕜) / (ttftMs / 1000) else 0
            generationTps :=
              if 0 < totalGenTimeMs then
                ((batchSize * tokenLatencies.length : ℤ) : 𝕜) / (totalGenTimeMs / 1000)
              else 0
            totalLatencySec := (ttftMs + totalGenTimeMs) / 1000
            numGeneratedTokens := genLen
            perTokenLatenciesMs := tokenLatencies }
  else none

end Model

section Elements
variable {𝕜 : Type*} [Zero 𝕜] {data : List 𝕜}

def element (data : List 𝕜) (i : ℤ) : 𝕜 := data.getD i.toNat 0

theorem getItem_eq {i : ℤ} (hi : i ∈ Set.Icc 0 ((data.length : ℤ) - 1)) :
    getItem data i = some (element data i) := by
  obtain ⟨hlow, hhigh⟩ := hi
  have hlt : i.toNat < data.length := by omega
  rw [getItem, if_pos hlow, element, List.getD_eq_getElem _ _ hlt, List.getElem?_eq_getElem hlt]

theorem element_zero (hne : data ≠ []) : element data 0 = data.head hne := by
  cases data with
  | nil => exact absurd rfl hne
  | cons x xs => rfl

theorem element_last (hne : data ≠ []) :
    element data ((data.length : ℤ) - 1) = data.getLast hne := by
  have hpos := List.length_pos_iff.mpr hne
  have hindex : ((data.length : ℤ) - 1).toNat = data.length - 1 := by omega
  rw [element, hindex, List.getLast_eq_getElem, List.getD_eq_getElem _ _ (by omega)]

/-- An ascending list is monotone in the index. -/
theorem element_monotoneOn [Preorder 𝕜] (hsorted : data.Pairwise (· ≤ ·)) :
    MonotoneOn (element data) (Set.Icc 0 ((data.length : ℤ) - 1)) := by
  rintro i ⟨hi, hi'⟩ j ⟨hj, hj'⟩ hij
  rcases hij.eq_or_lt with rfl | hlt
  · exact le_rfl
  have hi'' : i.toNat < data.length := by omega
  have hj'' : j.toNat < data.length := by omega
  rw [element, element, List.getD_eq_getElem _ _ hi'', List.getD_eq_getElem _ _ hj'']
  exact List.pairwise_iff_getElem.mp hsorted _ _ hi'' hj'' (by omega)

end Elements

section Order
variable {𝕜 : Type*} [Field 𝕜] [LinearOrder 𝕜] [FloorRing 𝕜]

def IndicesInRange (sortedData : List 𝕜) (p : 𝕜) : Prop :=
  0 ≤ ⌊rank sortedData p⌋ ∧ ⌈rank sortedData p⌉ < sortedData.length

variable [IsStrictOrderedRing 𝕜] {data : List 𝕜} {p q : 𝕜}

theorem rank_mem (hne : data ≠ []) (hp : 0 ≤ p) (hp' : p ≤ 1) :
    rank data p ∈ Set.Icc ((0 : ℤ) : 𝕜) (((data.length : ℤ) - 1 : ℤ) : 𝕜) := by
  have hpos := List.length_pos_iff.mpr hne
  have hlast : (0 : 𝕜) ≤ (((data.length : ℤ) - 1 : ℤ) : 𝕜) := by
    rw [Int.cast_nonneg_iff]
    omega
  rw [Int.cast_zero]
  exact ⟨mul_nonneg hlast hp, mul_le_of_le_one_right hlast hp'⟩

theorem rank_mono (hne : data ≠ []) (hpq : p ≤ q) : rank data p ≤ rank data q := by
  have hpos := List.length_pos_iff.mpr hne
  refine mul_le_mul_of_nonneg_left hpq ?_
  rw [Int.cast_nonneg_iff]
  omega

theorem indicesInRange (hne : data ≠ []) (hp : 0 ≤ p) (hp' : p ≤ 1) : IndicesInRange data p :=
  ⟨(floor_mem (rank_mem hne hp hp')).1, Int.lt_of_le_sub_one (ceil_mem (rank_mem hne hp hp')).2⟩

/-- A percentile interpolates between the elements at its indices, also in the branch for a whole
index. -/
theorem percentile_eq (hne : data ≠ []) (hp : 0 ≤ p) (hp' : p ≤ 1) :
    percentile data p = some (interpolate (element data) (rank data p)) := by
  have hmem := rank_mem hne hp hp'
  have hempty : ¬ data.isEmpty := by rwa [List.isEmpty_iff]
  unfold percentile
  dsimp only
  rw [if_neg hempty, getItem_eq (floor_mem hmem), getItem_eq (ceil_mem hmem)]
  split_ifs with hwhole
  · rw [interpolate_of_floor_eq_ceil hwhole]
  · rfl

/-- Percentiles are between the first and the last element, and do not fall. -/
theorem percentile_mono (hne : data ≠ []) (hsorted : data.Pairwise (· ≤ ·)) (hp : 0 ≤ p)
    (hpq : p ≤ q) (hq : q ≤ 1) :
    ∃ a b, percentile data p = some a ∧ percentile data q = some b ∧
      data.head hne ≤ a ∧ a ≤ b ∧ b ≤ data.getLast hne := by
  have hp' := hpq.trans hq
  have hq' := hp.trans hpq
  have hmono := element_monotoneOn hsorted
  have hlen := List.length_pos_iff.mpr hne
  have hends : (0 : ℤ) ≤ (data.length : ℤ) - 1 := by omega
  refine ⟨_, _, percentile_eq hne hp hp', percentile_eq hne hq' hq, ?_, ?_, ?_⟩
  · rw [← element_zero hne]
    have hfloor := floor_mem (rank_mem hne hp hp')
    exact (hmono ⟨le_rfl, hends⟩ hfloor hfloor.1).trans
      (interpolate_between hmono (rank_mem hne hp hp')).1
  · exact interpolate_monotoneOn hmono (rank_mem hne hp hp') (rank_mem hne hq' hq)
      (rank_mono hne hpq)
  · rw [← element_last hne]
    have hceil := ceil_mem (rank_mem hne hq' hq)
    exact (interpolate_between hmono (rank_mem hne hq' hq)).2.trans
      (hmono hceil ⟨hends, le_rfl⟩ hceil.2)

/-- With a device, every run of the loop has a profile, and its percentiles are in order. -/
theorem profile_ordered (sqrt : 𝕜 → 𝕜) (elapsedTime : ℕ → 𝕜) (promptLen genLen batchSize : ℤ) :
    ∃ r, profileGenerationLoop sqrt true elapsedTime promptLen genLen batchSize = some r ∧
      r.itlP50Ms ≤ r.itlP95Ms ∧ r.itlP95Ms ≤ r.itlP99Ms := by
  unfold profileGenerationLoop
  dsimp only
  rw [if_pos rfl]
  generalize hlatencies : (if ((List.range' 1 (genLen - 1).toNat).map elapsedTime).isEmpty then
    [elapsedTime 0] else (List.range' 1 (genLen - 1).toNat).map elapsedTime) = tokenLatencies
  have hne : tokenLatencies ≠ [] := by
    rw [← hlatencies]
    split_ifs with hempty
    · exact List.cons_ne_nil _ _
    · rwa [List.isEmpty_iff] at hempty
  have hsorted : (tokenLatencies.mergeSort fun x y => decide (x ≤ y)).Pairwise (· ≤ ·) :=
    List.pairwise_mergeSort' (· ≤ ·) tokenLatencies
  have hne' : (tokenLatencies.mergeSort fun x y => decide (x ≤ y)) ≠ [] := by
    rwa [← List.length_pos_iff, List.length_mergeSort, List.length_pos_iff]
  obtain ⟨p50, p95, h50, h95, -, hle, -⟩ := percentile_mono (p := 50 / 100) (q := 95 / 100) hne'
    hsorted (by norm_num) (by norm_num) (by norm_num)
  obtain ⟨p95', p99, h95', h99, -, hle', -⟩ := percentile_mono (p := 95 / 100) (q := 99 / 100) hne'
    hsorted (by norm_num) (by norm_num) (by norm_num)
  obtain rfl := Option.some.inj (h95.symm.trans h95')
  rw [h50, h95, h99]
  exact ⟨_, rfl, hle, hle'⟩

/-- The percentiles of an ascending list have indices in the list, stay between its ends and do not
fall; so every profile has its percentiles in order. -/
theorem percentiles_ordered :
    (∀ (data : List 𝕜) (hne : data ≠ []), data.Pairwise (· ≤ ·) →
      ∀ p q : 𝕜, 0 ≤ p → p ≤ q → q ≤ 1 → IndicesInRange data p ∧ IndicesInRange data q ∧
        ∃ a b, percentile data p = some a ∧ percentile data q = some b ∧
          data.head hne ≤ a ∧ a ≤ b ∧ b ≤ data.getLast hne) ∧
    ∀ (sqrt : 𝕜 → 𝕜) (elapsedTime : ℕ → 𝕜) (promptLen genLen batchSize : ℤ),
      ∃ r, profileGenerationLoop sqrt true elapsedTime promptLen genLen batchSize = some r ∧
        r.itlP50Ms ≤ r.itlP95Ms ∧ r.itlP95Ms ≤ r.itlP99Ms := by
  refine ⟨fun data hne hsorted p q hp hpq hq => ⟨?_, ?_, ?_⟩, profile_ordered⟩
  · exact indicesInRange hne hp (hpq.trans hq)
  · exact indicesInRange hne (hp.trans hpq) hq
  · exact percentile_mono hne hsorted hp hpq hq

end Order

theorem percentiles_ordered_three :
    IndicesInRange [1, 2, (4 : ℚ)] (1 / 2) ∧ IndicesInRange [1, 2, (4 : ℚ)] (3 / 4) ∧
      ∃ a b, percentile [1, 2, (4 : ℚ)] (1 / 2) = some a ∧
        percentile [1, 2, (4 : ℚ)] (3 / 4) = some b ∧ 1 ≤ a ∧ a ≤ b ∧ b ≤ 4 :=
  percentiles_ordered.1 [1, 2, (4 : ℚ)] (List.cons_ne_nil _ _) (by norm_num) (1 / 2) (3 / 4)
    (by norm_num) (by norm_num) (by norm_num)

end CudaForge.Evaluation
