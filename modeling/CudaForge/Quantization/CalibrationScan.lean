import CudaForge.Library.CountedLoop
import CudaForge.Library.FirstMaximum
import CudaForge.Library.RelativeEntropy
import CudaForge.Quantization.HistogramMerge

/-!
What the scan of the KL calibration returns: the middle of the first candidate whose divergence is
least. On a histogram of large counts that divergence does not depend on how the bins were merged.
-/
namespace CudaForge.Quantization
open FirstMaximum NearestInteger Numerals RelativeEntropy

section Scan
variable {𝕜 : Type*} [Field 𝕜] [LinearOrder 𝕜] [FloorSemiring 𝕜] {histogram edges : List 𝕜}
  {targetBins i n : ℕ} {log : 𝕜 → 𝕜}

theorem scanStep_eq (log : 𝕜 → 𝕜) (histogram : List 𝕜) (targetBins : ℕ) (best : Option 𝕜 × 𝕜)
    (hi : 0 < i) (hedge : i + 1 < edges.length) :
    scanStep log histogram edges targetBins best i =
      some (if best.1.all fun bestKl => klDiv log histogram targetBins i < bestKl then
        (some (klDiv log histogram targetBins i), midpoint edges i) else best) := by
  unfold scanStep
  rw [if_neg hi.ne']
  dsimp only
  split_ifs
  · rw [List.getElem?_eq_getElem (Nat.lt_of_succ_lt hedge), List.getElem?_eq_getElem hedge,
      midpoint, List.getD_eq_getElem _ _ (Nat.lt_of_succ_lt hedge), List.getD_eq_getElem _ _ hedge]
    rfl
  · rfl

/-- Candidate `j` of the scan is the first with the least divergence. -/
def FirstLeast (log : 𝕜 → 𝕜) (histogram : List 𝕜) (targetBins n j : ℕ) : Prop :=
  IsFirstIndex (fun j => OrderDual.toDual (klDiv log histogram targetBins (targetBins + j))) n j

variable (log histogram) in
/-- The scan keeps the first least divergence with the middle of its bin. -/
theorem scan_firstLeast (ht : 0 < targetBins) (hedges : targetBins + n < edges.length) (last : 𝕜) :
    ∃ best, (List.Ico targetBins (targetBins + n)).foldlM
        (scanStep log histogram edges targetBins) (none, last) = some best ∧
      (n = 0 ∧ best.1 = none ∨ ∃ j, FirstLeast log histogram targetBins n j ∧
        best = (some (klDiv log histogram targetBins (targetBins + j)),
          midpoint edges (targetBins + j))) := by
  induction n with
  | zero => exact ⟨(none, last), by simp, Or.inl ⟨rfl, rfl⟩⟩
  | succ n ih =>
    obtain ⟨best, hrun, hbest⟩ := ih (by omega)
    have hstep := scanStep_eq log histogram targetBins best (Nat.add_pos_left ht n) hedges
    rw [← Nat.add_assoc, List.Ico.succ_top (Nat.le_add_right targetBins n), List.foldlM_append,
      hrun]
    refine ⟨_, by simpa using hstep, Or.inr ?_⟩
    rcases hbest with ⟨rfl, hnone⟩ | ⟨j, hj, rfl⟩
    · exact ⟨0, .succ_of_lt nofun, by simp [hnone]⟩
    · by_cases hlt : klDiv log histogram targetBins (targetBins + n) <
          klDiv log histogram targetBins (targetBins + j)
      · refine ⟨n, .succ_of_lt fun j' hj' => ?_, by simp [hlt]⟩
        exact (hj.greatest j' hj').trans_lt hlt
      · exact ⟨j, hj.succ_of_le (not_lt.mp hlt), by simp [hlt]⟩

end Scan

section Expansion
variable {𝕜 : Type*} [Field 𝕜] [LinearOrder 𝕜] [FloorSemiring 𝕜] {targetBins i : ℕ}

omit [LinearOrder 𝕜] [FloorSemiring 𝕜] in
/-- A target bin sets the entries that it fills and no others. -/
theorem getD_foldl_set (filled : List ℕ) (x : 𝕜) (q : List 𝕜) {k : ℕ} (hk : k < q.length) :
    (filled.foldl (fun q k => q.set k x) q).getD k 0 = if k ∈ filled then x else q.getD k 0 := by
  induction filled generalizing q with
  | nil => simp
  | cons k' filled ih =>
    rw [List.foldl_cons, ih _ (by simpa using hk)]
    by_cases hmem : k ∈ filled
    · simp [hmem]
    · by_cases heq : k = k'
      · subst heq
        simp [hmem, hk]
      · simp [hmem, heq, List.getD_eq_getElem?_getD, List.getElem?_set_ne (Ne.symm heq)]

omit [Field 𝕜] [LinearOrder 𝕜] [FloorSemiring 𝕜] in
theorem length_foldl_set (filled : List ℕ) (x : 𝕜) (q : List 𝕜) :
    (filled.foldl (fun q k => q.set k x) q).length = q.length := by
  induction filled generalizing q with
  | nil => rfl
  | cons k filled ih => rw [List.foldl_cons, ih, List.length_set]

theorem length_expandBins (reference quantized : List 𝕜) :
    (expandBins reference quantized i targetBins).length = i := by
  unfold expandBins
  refine CountedLoop.foldl_range (fun _ (q : List 𝕜) => q.length = i) List.length_replicate ?_
  intro j q _ hq
  rw [length_foldl_set, hq]

end Expansion

section Divergence
variable {histogram : List ℝ} {targetBins i : ℕ}

theorem sum_map_div (l : List ℝ) (x : ℝ) : (l.map (· / x)).sum = l.sum / x := by
  induction l with
  | nil => simp
  | cons a l ih => simp [ih, add_div]

theorem clip_pos (x : ℝ) : 0 < clip x := by
  have hlo : (0 : ℝ) < 1 / 10 ^ 12 := by norm_num
  exact hlo.trans_le (clamp_mem (by norm_num) x).1

theorem le_clip {x : ℝ} (h : x ≤ 1) : x ≤ clip x := le_min (le_max_left _ _) h

theorem referenceDist_nonneg (hnonneg : ∀ x ∈ histogram, 0 ≤ x) :
    ∀ x ∈ referenceDist histogram i, 0 ≤ x := by
  intro x hx
  obtain ⟨k, hk, rfl⟩ := List.mem_iff_getElem.mp hx
  simp only [referenceDist, List.getElem_modify]
  split_ifs
  · apply add_nonneg
    · exact hnonneg _ (List.mem_of_mem_take (List.getElem_mem _))
    · exact List.sum_nonneg fun y hy => hnonneg y (List.mem_of_mem_drop hy)
  · exact hnonneg _ (List.mem_of_mem_take (List.getElem_mem _))

/-- The clipped reference weighs at least one, the expanded bins exactly one. -/
theorem klDiv_nonneg (hnonneg : ∀ x ∈ histogram, 0 ≤ x) (hsum : 0 < histogram.sum) (hi : 0 < i)
    (hlen : i < histogram.length) : 0 ≤ klDiv Real.log histogram targetBins i := by
  obtain ⟨hlength, hmass⟩ := referenceDist_sum histogram hi hlen
  have hreference := referenceDist_nonneg (i := i) hnonneg
  unfold klDiv
  dsimp only
  generalize referenceDist histogram i = reference at hlength hmass hreference ⊢
  have hq : ∀ x ∈ (expandBins reference (quantizedBins reference i targetBins) i targetBins).map
      clip, 0 < x := by
    intro x hx
    obtain ⟨y, -, rfl⟩ := List.mem_map.mp hx
    exact clip_pos y
  have hqlength : ((expandBins reference (quantizedBins reference i targetBins) i targetBins).map
      clip).length = i := by
    rw [List.length_map, length_expandBins]
  generalize (expandBins reference (quantizedBins reference i targetBins) i targetBins).map clip =
    q at hq hqlength ⊢
  have hqsum : 0 < q.sum := List.sum_pos q hq (List.ne_nil_of_length_pos (hqlength ▸ hi))
  have hqone : (q.map (· / q.sum)).sum = 1 := by
    rw [sum_map_div, div_self hqsum.ne']
  have hpone : 1 ≤ (reference.map fun x => clip (x / reference.sum)).sum := by
    have hle : ∀ x ∈ reference, x / reference.sum ≤ clip (x / reference.sum) := by
      intro x hx
      apply le_clip
      rw [div_le_one (hmass ▸ hsum)]
      exact List.single_le_sum hreference x hx
    calc (1 : ℝ) = (reference.map fun x => x / reference.sum).sum := by
          rw [sum_map_div, div_self (hmass ▸ hsum).ne']
      _ ≤ _ := List.sum_le_sum hle
  have hgibbs : (reference.map fun x => clip (x / reference.sum)).sum - (q.map (· / q.sum)).sum ≤
      divergence (reference.map fun x => clip (x / reference.sum)) (q.map (· / q.sum)) := by
    apply sum_sub_sum_le
    · simp [hlength, hqlength]
    · intro a ha
      obtain ⟨x, -, rfl⟩ := List.mem_map.mp ha
      exact clip_pos _
    · intro b hb
      obtain ⟨x, hx, rfl⟩ := List.mem_map.mp hb
      exact div_pos (hq x hx) hqsum
  rw [divergence, List.zipWith_map_right] at hgibbs
  linarith

theorem set_zero_sum (histogram : List ℝ) : (histogram.set 0 0).sum = histogram.tail.sum := by
  cases histogram with
  | nil => rfl
  | cons a l => simp

theorem set_zero_nonneg (hnonneg : ∀ x ∈ histogram, 0 ≤ x) : ∀ x ∈ histogram.set 0 0, 0 ≤ x := by
  intro x hx
  rcases List.mem_or_eq_of_mem_set hx with hx | rfl
  · exact hnonneg x hx
  · exact le_rfl

/-- The calibration returns the middle of the first candidate bin whose divergence is least, and no
divergence is negative. -/
theorem calibrated_threshold (histogram edges : List ℝ) (hnonneg : ∀ x ∈ histogram, 0 ≤ x)
    (hmass : histogram.tail.sum ≠ 0) (ht : 1 ≤ targetBins) (hbins : targetBins < histogram.length)
    (hedges : edges.length = histogram.length + 1) :
    ∃ i, targetBins ≤ i ∧ i < histogram.length ∧
      computeKlDivergenceScale Real.log histogram edges targetBins = some (midpoint edges i) ∧
      (∀ j, targetBins ≤ j → j < histogram.length →
        0 ≤ klDiv Real.log (histogram.set 0 0) targetBins j ∧
        klDiv Real.log (histogram.set 0 0) targetBins i ≤
          klDiv Real.log (histogram.set 0 0) targetBins j) ∧
      ∀ j, targetBins ≤ j → j < i →
        klDiv Real.log (histogram.set 0 0) targetBins i <
          klDiv Real.log (histogram.set 0 0) targetBins j := by
  have hne : edges ≠ [] := List.ne_nil_of_length_pos (by omega)
  have hlength : targetBins + (histogram.length - targetBins) = histogram.length := by omega
  have hmass' : (histogram.set 0 0).sum ≠ 0 := by rwa [set_zero_sum]
  have hpos : 0 < (histogram.set 0 0).sum :=
    (List.sum_nonneg (set_zero_nonneg hnonneg)).lt_of_ne' hmass'
  have hscanned : targetBins + (histogram.length - targetBins) < edges.length := by omega
  obtain ⟨best, hrun, hbest⟩ :=
    scan_firstLeast (histogram.set 0 0) Real.log ht hscanned (edges.getLast hne)
  rcases hbest with ⟨hzero, -⟩ | ⟨k, hk, rfl⟩
  · omega
  refine ⟨targetBins + k, by omega, by have := hk.lt; omega, ?_, fun j hj hlt => ?_,
    fun j hj hlt => ?_⟩
  · unfold computeKlDivergenceScale
    rw [if_neg (List.ne_nil_of_length_pos (by omega)), List.getLast?_eq_some_getLast hne]
    rw [hlength] at hrun
    simp only [Option.bind_eq_bind, Option.bind_some, hmass', if_false, List.length_set, hrun]
    rfl
  · obtain ⟨m, rfl⟩ := Nat.exists_eq_add_of_le hj
    constructor
    · apply klDiv_nonneg (set_zero_nonneg hnonneg) hpos (by omega)
      rwa [List.length_set]
    · exact hk.greatest m (by omega)
  · obtain ⟨m, rfl⟩ := Nat.exists_eq_add_of_le hj
    exact hk.first m (by omega)

theorem calibrated_threshold_four :
    ∃ i, 2 ≤ i ∧ i < 4 ∧
      computeKlDivergenceScale Real.log [9, 4, 2, 1] [0, 1, 2, 3, 4] 2 =
        some (midpoint [0, 1, 2, 3, 4] i) ∧
      ∀ j, 2 ≤ j → j < 4 → 0 ≤ klDiv Real.log [0, 4, 2, 1] 2 j := by
  obtain ⟨i, hi, hlt, hresult, hleast, -⟩ :=
    calibrated_threshold [9, 4, 2, 1] [0, 1, 2, 3, 4] (by simp) (by norm_num)
      (show 1 ≤ 2 by norm_num) (by simp) (by simp)
  exact ⟨i, hi, hlt, hresult, fun j hj hj' => (hleast j hj hj').1⟩

end Divergence

section Counts
variable {𝕜 : Type*} [Field 𝕜] [LinearOrder 𝕜] [IsStrictOrderedRing 𝕜] [FloorSemiring 𝕜]
  {reference : List 𝕜} {targetBins i j k : ℕ}

def IsCount (targetBins : ℕ) (x : 𝕜) : Prop := x = 0 ∨ (targetBins : 𝕜) ≤ x

/-- The ends of a target bin are multiples of its share of a source bin. -/
theorem le_mergeWeight (hi : 0 < i) (ht : 0 < targetBins) (hk : k ∈ mergedRange 𝕜 i targetBins j) :
    1 / (targetBins : 𝕜) ≤ mergeWeight i targetBins j k := by
  obtain ⟨hfrom, hto⟩ := List.Ico.mem.mp hk
  have hend : k < endIdx 𝕜 i targetBins j := hto.trans_le (min_le_left _ _)
  obtain ⟨-, hstart, -, hceil⟩ := idx_spec 𝕜 hi ht j
  have htpos : (0 : 𝕜) < targetBins := Nat.cast_pos.mpr ht
  have hone : 1 / (targetBins : 𝕜) ≤ 1 := by
    rw [div_le_one htpos]
    exact_mod_cast ht
  have hleft : (binStart i targetBins j : 𝕜) = (j * i : ℕ) / targetBins := by
    simp [binStart, numMergedBins, mul_div_assoc]
  have hright : (binEnd i targetBins j : 𝕜) = ((j + 1) * i : ℕ) / targetBins := by
    simp [binEnd, numMergedBins, mul_div_assoc]
  -- the bin overlaps the cell, so it does by a multiple of the share
  have hbefore : (binStart i targetBins j : 𝕜) + 1 / targetBins ≤ k + 1 := by
    have hlt : (binStart i targetBins j : 𝕜) < (k + 1 : ℕ) := by
      refine hstart.trans_le ?_
      exact_mod_cast Nat.succ_le_succ hfrom
    rw [hleft, div_lt_iff₀ htpos] at hlt
    have hnat : j * i + 1 ≤ (k + 1) * targetBins := by exact_mod_cast hlt
    rw [hleft, ← add_div, div_le_iff₀ htpos]
    exact_mod_cast hnat
  have hbehind : (k : 𝕜) + 1 / targetBins ≤ binEnd i targetBins j := by
    have hlt : ((k : ℕ) : 𝕜) < binEnd i targetBins j := Nat.lt_ceil.mp hend
    rw [hright, lt_div_iff₀ htpos] at hlt
    have hnat : k * targetBins + 1 ≤ (j + 1) * i := by exact_mod_cast hlt
    rw [hright, ← le_sub_iff_add_le, ← sub_div, le_div_iff₀ htpos, le_sub_iff_add_le]
    exact_mod_cast hnat
  have hwide : (binStart i targetBins j : 𝕜) + 1 / targetBins ≤ binEnd i targetBins j := by
    rw [hleft, hright, ← add_div]
    apply div_le_div_of_nonneg_right _ htpos.le
    have hnat : j * i + 1 ≤ (j + 1) * i := by
      rw [Nat.add_mul, Nat.one_mul]
      omega
    exact_mod_cast hnat
  rw [mergeWeight_eq hi ht hfrom hend, le_sub_iff_add_le]
  generalize (binStart i targetBins j : 𝕜) = a at hbefore hwide ⊢
  generalize (binEnd i targetBins j : 𝕜) = b at hbehind hwide ⊢
  have hcell : filled k a ≤ max (a - k) 0 := min_le_left _ _
  have htop : max (a - k) 0 ≤ 1 - 1 / (targetBins : 𝕜) := max_le (by linarith) (by linarith)
  have hnext : max (a - k) 0 ≤ b - k - 1 / (targetBins : 𝕜) := max_le (by linarith) (by linarith)
  apply le_min
  · apply le_max_of_le_left
    linarith
  · linarith

omit [LinearOrder 𝕜] [IsStrictOrderedRing 𝕜] [FloorSemiring 𝕜] in
theorem length_filter_eq_sum (p : ℕ → Bool) (l : List ℕ) :
    ((l.filter p).length : 𝕜) = (l.map fun k => if p k then (1 : 𝕜) else 0).sum := by
  induction l with
  | nil => simp
  | cons k l ih => cases hp : p k <;> simp [hp, ih, add_comm]

def filledBins (reference : List 𝕜) (i targetBins j : ℕ) : List ℕ :=
  (mergedRange 𝕜 i targetBins j).filter fun k => 0 < reference.getD k 0

/-- A target bin holds at least one for each source bin that is not empty. -/
theorem length_filledBins_le (hi : 0 < i) (ht : 0 < targetBins)
    (hcounts : ∀ k, IsCount targetBins (reference.getD k 0)) (hj : j < targetBins) :
    ((filledBins reference i targetBins j).length : 𝕜) ≤
      (quantizedBins reference i targetBins).getD j 0 := by
  have htpos : (0 : 𝕜) < targetBins := Nat.cast_pos.mpr ht
  rw [quantizedBins, List.getD_eq_getElem _ _ (by simpa using hj), List.getElem_map,
    List.getElem_range, foldl_add_eq_sum, filledBins, length_filter_eq_sum]
  apply List.sum_le_sum
  intro k hk
  have hweight := le_mergeWeight hi ht hk
  rcases hcounts k with hzero | hcount
  · simp only [hzero, zero_mul]
    simp
  · have hpos : 0 < reference.getD k 0 := htpos.trans_le hcount
    rw [if_pos (by simpa using hpos)]
    calc (1 : 𝕜) = targetBins * (1 / targetBins) := by rw [mul_one_div_cancel htpos.ne']
      _ ≤ reference.getD k 0 * mergeWeight i targetBins j k :=
        mul_le_mul hcount hweight (by positivity) hpos.le

/-- Every source bin belongs to a target bin. -/
theorem exists_mem_mergedRange (hi : 0 < i) (ht : 0 < targetBins) (hk : k < i) :
    ∃ j < targetBins, k ∈ mergedRange 𝕜 i targetBins j := by
  by_contra hnone
  push Not at hnone
  have hzero : ∑ j ∈ Finset.range targetBins, binWeight 𝕜 i targetBins j k = 0 := by
    apply Finset.sum_eq_zero
    intro j hj
    rw [binWeight, if_neg (hnone j (Finset.mem_range.mp hj))]
  exact zero_ne_one (hzero.symm.trans (sum_binWeight hi ht hk))

/-- What the expansion has set after the first `n` target bins. -/
def Expanded (reference : List 𝕜) (i targetBins n : ℕ) (q : List 𝕜) : Prop :=
  q.length = i ∧ ∀ k < i,
    (¬0 < reference.getD k 0 → q.getD k 0 = 0) ∧
    (0 < reference.getD k 0 → (∃ j < n, k ∈ mergedRange 𝕜 i targetBins j) → 1 ≤ q.getD k 0)

theorem expandBins_expanded (hi : 0 < i) (ht : 0 < targetBins)
    (hcounts : ∀ k, IsCount targetBins (reference.getD k 0)) :
    Expanded reference i targetBins targetBins
      (expandBins reference (quantizedBins reference i targetBins) i targetBins) := by
  unfold expandBins
  refine CountedLoop.foldl_range (Expanded reference i targetBins) ?_ ?_
  · refine ⟨List.length_replicate, fun k hk => ⟨fun _ => ?_, ?_⟩⟩
    · simp [hk]
    · rintro - ⟨j, hj, -⟩
      exact absurd hj (Nat.not_lt_zero j)
  · intro j q hj hq
    obtain ⟨hlength, hq⟩ := hq
    have hle := length_filledBins_le hi ht hcounts hj
    refine ⟨by rw [length_foldl_set, hlength], fun k hk => ?_⟩
    dsimp only
    rw [getD_foldl_set _ _ _ (by rwa [hlength])]
    obtain ⟨hempty, hfilled⟩ := hq k hk
    constructor
    · intro hzero
      have hset : k ∉ (mergedRange 𝕜 i targetBins j).filter fun k => 0 < reference.getD k 0 :=
        fun hmem => hzero (of_decide_eq_true (p := 0 < reference.getD k 0)
          (List.mem_filter.mp hmem).2)
      rw [if_neg hset, hempty hzero]
    · rintro hpos ⟨j', hj', hmem⟩
      split_ifs with hset
      · -- the target bin is shared out among as many bins as it holds at least
        have hlen : (0 : 𝕜) < (filledBins reference i targetBins j).length :=
          Nat.cast_pos.mpr (List.length_pos_of_mem hset)
        exact (one_le_div hlen).mpr hle
      · apply hfilled hpos
        refine ⟨j', (Nat.lt_succ_iff_lt_or_eq.mp hj').resolve_right ?_, hmem⟩
        rintro rfl
        exact hset (List.mem_filter.mpr ⟨hmem, by simpa using hpos⟩)

/-- The quantised distribution against which a reference of counts is held: even over the bins that
are not empty. -/
def evenLevel (x : 𝕜) : 𝕜 := if 0 < x then 1 else 1 / 10 ^ 12

theorem clip_expandBins (hi : 0 < i) (ht : 0 < targetBins) (hlength : reference.length = i)
    (hcounts : ∀ x ∈ reference, IsCount targetBins x) :
    (expandBins reference (quantizedBins reference i targetBins) i targetBins).map clip =
      reference.map evenLevel := by
  have hcounts' : ∀ k, IsCount targetBins (reference.getD k 0) := by
    intro k
    by_cases hk : k < reference.length
    · rw [List.getD_eq_getElem _ _ hk]
      exact hcounts _ (List.getElem_mem hk)
    · rw [List.getD_eq_default _ _ (not_lt.mp hk)]
      exact Or.inl rfl
  obtain ⟨hqlength, hq⟩ := expandBins_expanded hi ht hcounts'
  have hsmall : (1 : 𝕜) / 10 ^ 12 ≤ 1 := by norm_num
  apply List.ext_getElem
  · simp [hqlength, hlength]
  · intro k hk _
    rw [List.length_map, hqlength] at hk
    obtain ⟨hempty, hfilled⟩ := hq k hk
    simp only [List.getElem_map]
    rw [← List.getD_eq_getElem _ 0 (by rwa [hqlength]),
      ← List.getD_eq_getElem _ 0 (by rwa [hlength])]
    unfold evenLevel
    split_ifs with hpos
    · have hone := hfilled hpos (exists_mem_mergedRange hi ht hk)
      rw [clip, clamp, max_eq_left (hsmall.trans hone), min_eq_right hone]
    · rw [hempty hpos, clip, clamp_of_le hsmall (by positivity)]

def evenDiv (log : 𝕜 → 𝕜) (reference : List 𝕜) : 𝕜 :=
  (reference.map fun x =>
    clip (x / reference.sum) * log (clip (x / reference.sum) /
      (evenLevel x / (reference.map evenLevel).sum))).sum

omit [FloorSemiring 𝕜] in
theorem IsCount.add (ht : 0 < targetBins) {x y : 𝕜} (hx : IsCount targetBins x)
    (hy : IsCount targetBins y) : IsCount targetBins (x + y) := by
  have htpos : (0 : 𝕜) < targetBins := Nat.cast_pos.mpr ht
  rcases hx with rfl | hx
  · rwa [zero_add]
  · rcases hy with rfl | hy
    · exact Or.inr (by rwa [add_zero])
    · exact Or.inr (by linarith)

omit [FloorSemiring 𝕜] in
theorem IsCount.sum (ht : 0 < targetBins) {l : List 𝕜} (hl : ∀ x ∈ l, IsCount targetBins x) :
    IsCount targetBins l.sum := by
  induction l with
  | nil => exact Or.inl rfl
  | cons x l ih =>
    obtain ⟨hx, hl⟩ := List.forall_mem_cons.mp hl
    rw [List.sum_cons]
    exact hx.add ht (ih hl)

omit [FloorSemiring 𝕜] in
theorem isCount_referenceDist (ht : 0 < targetBins) {histogram : List 𝕜}
    (hcounts : ∀ x ∈ histogram, IsCount targetBins x) :
    ∀ x ∈ referenceDist histogram i, IsCount targetBins x := by
  intro x hx
  obtain ⟨k, hk, rfl⟩ := List.mem_iff_getElem.mp hx
  simp only [referenceDist, List.getElem_modify]
  split_ifs
  · apply IsCount.add ht
    · exact hcounts _ (List.mem_of_mem_take (List.getElem_mem _))
    · exact IsCount.sum ht fun y hy => hcounts y (List.mem_of_mem_drop hy)
  · exact hcounts _ (List.mem_of_mem_take (List.getElem_mem _))

/-- Where every bin that is not empty has as many counts as there are target bins, the clipping
flattens the expanded bins, and a candidate's divergence is that from the even distribution,
whatever the number of target bins. -/
theorem klDiv_counts (log : 𝕜 → 𝕜) (histogram : List 𝕜) (ht : 1 ≤ targetBins)
    (hti : targetBins ≤ i) (hlen : i < histogram.length)
    (hcounts : ∀ x ∈ histogram, x = 0 ∨ (targetBins : 𝕜) ≤ x) :
    klDiv log histogram targetBins i = evenDiv log (referenceDist histogram i) ∧
      ∀ targetBins', 1 ≤ targetBins' → targetBins' ≤ targetBins →
        klDiv log histogram targetBins' i = klDiv log histogram targetBins i := by
  have hi : 0 < i := ht.trans hti
  have heven : ∀ n, 1 ≤ n → n ≤ targetBins →
      klDiv log histogram n i = evenDiv log (referenceDist histogram i) := by
    intro n hn hle
    have hcountsN : ∀ x ∈ histogram, IsCount n x := by
      intro x hx
      refine (hcounts x hx).imp_right fun hge => le_trans ?_ hge
      exact_mod_cast hle
    have hlevels := clip_expandBins hi hn (referenceDist_sum histogram hi hlen).1
      (isCount_referenceDist hn hcountsN)
    unfold klDiv evenDiv
    dsimp only
    rw [hlevels, List.zipWith_map, List.zipWith_self]
  refine ⟨heven targetBins ht le_rfl, fun targetBins' ht' hle => ?_⟩
  rw [heven targetBins' ht' hle, heven targetBins ht le_rfl]

theorem klDiv_counts_five :
    klDiv Real.log [0, 5, 2, 3, 4] 1 3 = klDiv Real.log [0, 5, 2, 3, 4] 2 3 :=
  (klDiv_counts Real.log [0, 5, 2, 3, 4] (show 1 ≤ 2 by norm_num) (show 2 ≤ 3 by norm_num)
    (by simp) (by norm_num)).2 1 le_rfl (by norm_num)

end Counts

end CudaForge.Quantization
