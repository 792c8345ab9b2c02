import CudaForge.Library.NearestInteger
import CudaForge.Library.Numerals
import Mathlib.Algebra.BigOperators.Group.Finset.Basic
import Mathlib.Data.List.GetD
import Mathlib.Data.List.Intervals

/-!
The KL calibration in exact arithmetic, with the logarithm as a parameter, and that merging the bins
of a histogram loses no mass.
-/
namespace CudaForge.Quantization
open Finset NearestInteger Numerals

section Calibration
variable {𝕜 : Type*} [Field 𝕜] [LinearOrder 𝕜] [FloorSemiring 𝕜]

/-- `histogram[:i]`, with the outliers in its last bin. -/
def referenceDist (histogram : List 𝕜) (i : ℕ) : List 𝕜 :=
  (histogram.take i).modify (i - 1) (· + (histogram.drop i).sum)

def numMergedBins (i targetBins : ℕ) : 𝕜 := i / targetBins

def binStart (i targetBins j : ℕ) : 𝕜 := j * numMergedBins i targetBins

def binEnd (i targetBins j : ℕ) : 𝕜 := (j + 1) * numMergedBins i targetBins

variable (𝕜) in
def startIdx (i targetBins j : ℕ) : ℕ := ⌊(binStart i targetBins j : 𝕜)⌋₊

variable (𝕜) in
def endIdx (i targetBins j : ℕ) : ℕ := ⌈(binEnd i targetBins j : 𝕜)⌉₊

variable (𝕜) in
/-- `range(start_idx, min(end_idx, i))` -/
def mergedRange (i targetBins j : ℕ) : List ℕ :=
  List.Ico (startIdx 𝕜 i targetBins j) (min (endIdx 𝕜 i targetBins j) i)

/-- The weight of source bin `k` in target bin `j`, for a `k` of the range. -/
def mergeWeight (i targetBins j k : ℕ) : 𝕜 :=
  let weight : 𝕜 := 1
  let weight :=
    if k = startIdx 𝕜 i targetBins j then
      weight - (binStart i targetBins j - startIdx 𝕜 i targetBins j)
    else weight
  if k + 1 = endIdx 𝕜 i targetBins j then
    weight - (endIdx 𝕜 i targetBins j - binEnd i targetBins j)
  else weight

def quantizedBins (reference : List 𝕜) (i targetBins : ℕ) : List 𝕜 :=
  (List.range targetBins).map fun j =>
    (mergedRange 𝕜 i targetBins j).foldl
      (fun bin k => bin + reference.getD k 0 * mergeWeight i targetBins j k) 0

def expandBins (reference quantized : List 𝕜) (i targetBins : ℕ) : List 𝕜 :=
  (List.range targetBins).foldl
    (fun q j =>
      let filled := (mergedRange 𝕜 i targetBins j).filter fun k => 0 < reference.getD k 0
      let normalizedVal := quantized.getD j 0 / filled.length
      filled.foldl (fun q k => q.set k normalizedVal) q)
    (List.replicate i 0)

def clip (x : 𝕜) : 𝕜 := clamp (1 / 10 ^ 12) 1 x

/-- The divergence of the candidate that saturates at bin `i`. -/
def klDiv (log : 𝕜 → 𝕜) (histogram : List 𝕜) (targetBins i : ℕ) : 𝕜 :=
  let reference := referenceDist histogram i
  let p := reference.map fun x => clip (x / reference.sum)
  let q := (expandBins reference (quantizedBins reference i targetBins) i targetBins).map clip
  (List.zipWith (fun a b => a * log (a / (b / q.sum))) p q).sum

/-- The body of the scan: the best divergence so far, `none` for infinity, and its threshold. -/
def scanStep (log : 𝕜 → 𝕜) (histogram edges : List 𝕜) (targetBins : ℕ)
    (best : Option 𝕜 × 𝕜) (i : ℕ) : Option (Option 𝕜 × 𝕜) :=
  if i = 0 then none  -- `reference_dist[-1]` of an empty array
  else
    let kl := klDiv log histogram targetBins i
    if best.1.all fun bestKl => kl < bestKl then do
      let left ← edges[i]?
      let right ← edges[i + 1]?
      return (some kl, (left + right) / 2)
    else some best

/-- `none` stands for an index out of range. -/
def computeKlDivergenceScale (log : 𝕜 → 𝕜) (activationHistogram edges : List 𝕜)
    (targetBins : ℕ) : Option 𝕜 := do
  if activationHistogram = [] then none
  let histogram := activationHistogram.set 0 0
  let last ← edges.getLast?
  if histogram.sum = 0 then return last
  let best ← (List.Ico targetBins histogram.length).foldlM
    (scanStep log histogram edges targetBins) (none, last)
  return best.2

end Calibration

section Cells
variable {𝕜 : Type*} [Field 𝕜] [LinearOrder 𝕜] [IsStrictOrderedRing 𝕜]

/-- How much of the cell from `k` to `k + 1` lies below `x`. -/
def filled (k : ℕ) (x : 𝕜) : 𝕜 := clamp 0 1 (x - k)

theorem filled_mono (k : ℕ) : Monotone (filled (𝕜 := 𝕜) k) := by
  intro x y hxy
  exact min_le_min (max_le_max (sub_le_sub_right hxy _) le_rfl) le_rfl

theorem filled_below {k : ℕ} {x : 𝕜} (h : x ≤ k) : filled k x = 0 :=
  clamp_of_le zero_le_one (sub_nonpos.mpr h)

theorem filled_above {k : ℕ} {x : 𝕜} (h : (k : 𝕜) + 1 ≤ x) : filled k x = 1 := by
  have hx : 1 ≤ x - k := by linarith
  rw [filled, clamp, max_eq_left (zero_le_one.trans hx), min_eq_right hx]

theorem filled_inside {k : ℕ} {x : 𝕜} (hlo : (k : 𝕜) ≤ x) (hhi : x ≤ k + 1) :
    filled k x = x - k := by
  apply clamp_of_mem
  · linarith
  · linarith

end Cells

section Weights
variable {𝕜 : Type*} [Field 𝕜] [LinearOrder 𝕜] [IsStrictOrderedRing 𝕜] [FloorSemiring 𝕜]
  {i targetBins j k : ℕ}

def binWeight (𝕜 : Type*) [Field 𝕜] [LinearOrder 𝕜] [FloorSemiring 𝕜] (i targetBins j k : ℕ) : 𝕜 :=
  if k ∈ mergedRange 𝕜 i targetBins j then mergeWeight i targetBins j k else 0

theorem binStart_lt_binEnd (hi : 0 < i) (ht : 0 < targetBins) :
    (0 : 𝕜) ≤ binStart i targetBins j ∧ (binStart i targetBins j : 𝕜) < binEnd i targetBins j := by
  have hmerged : (0 : 𝕜) < numMergedBins i targetBins :=
    div_pos (Nat.cast_pos.mpr hi) (Nat.cast_pos.mpr ht)
  constructor
  · exact mul_nonneg (Nat.cast_nonneg j) hmerged.le
  · exact mul_lt_mul_of_pos_right (lt_add_one _) hmerged

variable (𝕜) in
/-- The indices of a target bin, and its ends. -/
theorem idx_spec (hi : 0 < i) (ht : 0 < targetBins) (j : ℕ) :
    (startIdx 𝕜 i targetBins j : 𝕜) ≤ binStart i targetBins j ∧
      (binStart i targetBins j : 𝕜) < startIdx 𝕜 i targetBins j + 1 ∧
      (binEnd i targetBins j : 𝕜) ≤ endIdx 𝕜 i targetBins j ∧
      (endIdx 𝕜 i targetBins j : 𝕜) < binEnd i targetBins j + 1 := by
  obtain ⟨hnonneg, hlt⟩ := binStart_lt_binEnd (𝕜 := 𝕜) (j := j) hi ht
  exact ⟨Nat.floor_le hnonneg, Nat.lt_floor_add_one _, Nat.le_ceil _,
    Nat.ceil_lt_add_one (hnonneg.trans hlt.le)⟩

/-- Each end that lies in a cell takes off what is on the other side of it. -/
theorem mergeWeight_eq (hi : 0 < i) (ht : 0 < targetBins) (hstart : startIdx 𝕜 i targetBins j ≤ k)
    (hend : k < endIdx 𝕜 i targetBins j) :
    mergeWeight i targetBins j k =
      filled k (binEnd i targetBins j : 𝕜) - filled k (binStart i targetBins j) := by
  obtain ⟨hfloor, hfloor', hceil, hceil'⟩ := idx_spec 𝕜 hi ht j
  have hleft : filled k (binStart i targetBins j) =
      (if k = startIdx 𝕜 i targetBins j then
        binStart i targetBins j - startIdx 𝕜 i targetBins j else 0 : 𝕜) := by
    split_ifs with hk
    · rw [← hk] at hfloor hfloor' ⊢
      exact filled_inside hfloor hfloor'.le
    · have hnext : ((startIdx 𝕜 i targetBins j : 𝕜) + 1) ≤ k := by
        exact_mod_cast lt_of_le_of_ne hstart (Ne.symm hk)
      exact filled_below (hfloor'.le.trans hnext)
  have hright : filled k (binEnd i targetBins j) =
      (if k + 1 = endIdx 𝕜 i targetBins j then
        1 - (endIdx 𝕜 i targetBins j - binEnd i targetBins j) else 1 : 𝕜) := by
    split_ifs with hk
    · rw [← hk] at hceil hceil' ⊢
      push_cast at hceil hceil' ⊢
      rw [filled_inside (by linarith) hceil]
      ring
    · have hnext : (k : 𝕜) + 1 + 1 ≤ endIdx 𝕜 i targetBins j := by
        exact_mod_cast lt_of_le_of_ne hend hk
      exact filled_above (by linarith)
  rw [hleft, hright, mergeWeight]
  split_ifs
  · ring
  · ring
  · ring
  · ring

omit [IsStrictOrderedRing 𝕜] in
variable (𝕜) in
theorem mem_mergedRange (hk : k < i) : k ∈ mergedRange 𝕜 i targetBins j ↔
    startIdx 𝕜 i targetBins j ≤ k ∧ k < endIdx 𝕜 i targetBins j := by
  rw [mergedRange, List.Ico.mem, lt_min_iff, and_iff_left hk]

/-- A weight is the part of its cell between the ends of the target bin. -/
theorem binWeight_eq (hi : 0 < i) (ht : 0 < targetBins) (hk : k < i) :
    binWeight 𝕜 i targetBins j k =
      filled k (binEnd i targetBins j) - filled k (binStart i targetBins j) := by
  obtain ⟨-, hlt⟩ := binStart_lt_binEnd (𝕜 := 𝕜) (j := j) hi ht
  obtain ⟨hfloor, -, hceil, -⟩ := idx_spec 𝕜 hi ht j
  unfold binWeight
  split_ifs with hmem
  · obtain ⟨hstart, hend⟩ := (mem_mergedRange 𝕜 hk).mp hmem
    exact mergeWeight_eq hi ht hstart hend
  · rcases Nat.lt_or_ge k (startIdx 𝕜 i targetBins j) with hbefore | hfrom
    · have hcell : (k : 𝕜) + 1 ≤ binStart i targetBins j :=
        le_trans (by exact_mod_cast hbefore) hfloor
      rw [filled_above hcell, filled_above (hcell.trans hlt.le), sub_self]
    · have hbehind : endIdx 𝕜 i targetBins j ≤ k :=
        not_lt.mp fun hend => hmem ((mem_mergedRange 𝕜 hk).mpr ⟨hfrom, hend⟩)
      have hcell : (binEnd i targetBins j : 𝕜) ≤ k := hceil.trans (by exact_mod_cast hbehind)
      rw [filled_below hcell, filled_below (hlt.le.trans hcell), sub_self]

theorem binWeight_nonneg (hi : 0 < i) (ht : 0 < targetBins) (hk : k < i) (j : ℕ) :
    0 ≤ binWeight 𝕜 i targetBins j k := by
  obtain ⟨-, hlt⟩ := binStart_lt_binEnd (𝕜 := 𝕜) (j := j) hi ht
  rw [binWeight_eq hi ht hk]
  exact sub_nonneg.mpr (filled_mono k hlt.le)

/-- The target bins are adjacent, so the parts of a cell add up. -/
theorem sum_binWeight (hi : 0 < i) (ht : 0 < targetBins) (hk : k < i) :
    ∑ j ∈ range targetBins, binWeight 𝕜 i targetBins j k = 1 := by
  have hadjacent : ∀ j, binWeight 𝕜 i targetBins j k =
      filled k (binStart i targetBins (j + 1)) - filled k (binStart i targetBins j) := by
    intro j
    rw [binWeight_eq hi ht hk, binEnd, ← Nat.cast_succ]
    rfl
  have hfirst : (binStart i targetBins 0 : 𝕜) = 0 := by
    rw [binStart, Nat.cast_zero, zero_mul]
  have hlast : (binStart i targetBins targetBins : 𝕜) = i := by
    rw [binStart, numMergedBins, mul_div_cancel₀]
    exact Nat.cast_ne_zero.mpr ht.ne'
  have hcell : (k : 𝕜) + 1 ≤ i := by exact_mod_cast hk
  calc ∑ j ∈ range targetBins, binWeight 𝕜 i targetBins j k
      = ∑ j ∈ range targetBins,
          (filled k (binStart i targetBins (j + 1)) - filled k (binStart i targetBins j)) :=
        sum_congr rfl fun j _ => hadjacent j
    _ = filled k (binStart i targetBins targetBins) - filled k (binStart i targetBins 0) :=
        sum_range_sub (fun j => filled k (binStart i targetBins j)) targetBins
    _ = 1 := by rw [hfirst, hlast, filled_above hcell, filled_below k.cast_nonneg, sub_zero]

end Weights

section Mass
variable {𝕜 : Type*} [Field 𝕜] [LinearOrder 𝕜] [FloorSemiring 𝕜] {i targetBins : ℕ}

omit [LinearOrder 𝕜] [FloorSemiring 𝕜] in
theorem sum_getD (l : List 𝕜) : ∑ k ∈ range l.length, l.getD k 0 = l.sum := by
  induction l with
  | nil => rfl
  | cons a l ih =>
    rw [List.length_cons, sum_range_succ', List.sum_cons, ← ih, add_comm]
    rfl

omit [LinearOrder 𝕜] [FloorSemiring 𝕜] in
theorem sum_modify {l : List 𝕜} {n : ℕ} (hn : n < l.length) (o : 𝕜) :
    (l.modify n (· + o)).sum = l.sum + o := by
  induction l generalizing n with
  | nil => exact absurd hn (Nat.not_lt_zero n)
  | cons a l ih =>
    cases n with
    | zero => rw [List.modify_zero_cons, List.sum_cons, List.sum_cons]; ring
    | succ n =>
      rw [List.modify_succ_cons, List.sum_cons, List.sum_cons, ih (Nat.lt_of_succ_lt_succ hn)]
      ring

omit [LinearOrder 𝕜] [FloorSemiring 𝕜] in
/-- The outliers stay in the reference distribution. -/
theorem referenceDist_sum (histogram : List 𝕜) (hi : 0 < i) (hlen : i < histogram.length) :
    (referenceDist histogram i).length = i ∧
      (referenceDist histogram i).sum = histogram.sum := by
  have htake : (histogram.take i).length = i := by
    rw [List.length_take, min_eq_left hlen.le]
  constructor
  · rw [referenceDist, List.length_modify, htake]
  · rw [referenceDist, sum_modify (by omega), List.sum_take_add_sum_drop]

omit [LinearOrder 𝕜] [FloorSemiring 𝕜] in
theorem foldl_add_eq_sum (f : ℕ → 𝕜) (l : List ℕ) :
    l.foldl (fun acc k => acc + f k) 0 = (l.map f).sum := by
  rw [List.sum_eq_foldl, List.foldl_map]

/-- A target bin as a sum over all source bins. -/
theorem quantizedBins_eq (reference : List 𝕜) (i targetBins : ℕ) :
    quantizedBins reference i targetBins = (List.range targetBins).map fun j =>
      ∑ k ∈ range i, reference.getD k 0 * binWeight 𝕜 i targetBins j k := by
  unfold quantizedBins
  apply List.map_congr_left
  intro j _
  have hinside : (mergedRange 𝕜 i targetBins j).toFinset ⊆ range i := by
    intro k hk
    rw [List.mem_toFinset, mergedRange, List.Ico.mem] at hk
    exact mem_range.mpr (hk.2.trans_le (min_le_right _ _))
  have hnodup : (mergedRange 𝕜 i targetBins j).Nodup := List.Ico.nodup _ _
  rw [foldl_add_eq_sum, ← List.sum_toFinset _ hnodup]
  apply sum_subset_zero_on_sdiff hinside
  · intro k hk
    rw [binWeight, if_neg fun hmem => (mem_sdiff.mp hk).2 (List.mem_toFinset.mpr hmem), mul_zero]
  · intro k hk
    rw [binWeight, if_pos (List.mem_toFinset.mp hk)]

/-- Merging keeps the mass of the reference, since the weights of a source bin add up to one. -/
theorem quantizedBins_sum [IsStrictOrderedRing 𝕜] {reference : List 𝕜} (hi : 0 < i)
    (ht : 0 < targetBins) (hlen : reference.length = i) :
    (quantizedBins reference i targetBins).sum = reference.sum := by
  rw [quantizedBins_eq, ← List.sum_toFinset _ List.nodup_range, List.toFinset_range, sum_comm,
    ← sum_getD reference, hlen]
  apply sum_congr rfl
  intro k hk
  rw [← mul_sum, sum_binWeight hi ht (mem_range.mp hk), mul_one]

variable [IsStrictOrderedRing 𝕜]

/-- The merging loop shares out every source bin, so no mass is lost. -/
theorem merging_conserves_mass (histogram : List 𝕜) (ht : 1 ≤ targetBins) (hti : targetBins ≤ i)
    (hlen : i < histogram.length) :
    (∀ reference, quantizedBins reference i targetBins = (List.range targetBins).map fun j =>
      ∑ k ∈ range i, reference.getD k 0 * binWeight 𝕜 i targetBins j k) ∧
    (∀ k < i, (∀ j < targetBins, 0 ≤ binWeight 𝕜 i targetBins j k) ∧
      ∑ j ∈ range targetBins, binWeight 𝕜 i targetBins j k = 1) ∧
    (quantizedBins (referenceDist (histogram.set 0 0) i) i targetBins).sum =
      (referenceDist (histogram.set 0 0) i).sum ∧
    (referenceDist (histogram.set 0 0) i).sum = histogram.tail.sum := by
  have hi : 0 < i := ht.trans hti
  obtain ⟨hlength, hsum⟩ := referenceDist_sum (histogram.set 0 0) hi
    (by rwa [List.length_set])
  have htail : (histogram.set 0 0).sum = histogram.tail.sum := by
    cases histogram with
    | nil => rfl
    | cons a l => rw [List.set_cons_zero, List.sum_cons, zero_add, List.tail_cons]
  refine ⟨fun reference => quantizedBins_eq reference i targetBins, fun k hk => ?_, ?_, ?_⟩
  · exact ⟨fun j _ => binWeight_nonneg hi ht hk j, sum_binWeight hi ht hk⟩
  · exact quantizedBins_sum hi ht hlength
  · exact hsum.trans htail

/-- Five source bins merged into two: half of the middle one goes to each side. -/
theorem merging_conserves_mass_five :
    (∀ k < 5, (∀ j < 2, 0 ≤ binWeight ℚ 5 2 j k) ∧ ∑ j ∈ range 2, binWeight ℚ 5 2 j k = 1) ∧
    (quantizedBins (referenceDist (([7, 1, 2, 3, 4, 5] : List ℚ).set 0 0) 5) 5 2).sum =
      (referenceDist (([7, 1, 2, 3, 4, 5] : List ℚ).set 0 0) 5).sum ∧
    (referenceDist (([7, 1, 2, 3, 4, 5] : List ℚ).set 0 0) 5).sum = 15 := by
  obtain ⟨-, hweights, hbins, hmass⟩ :=
    merging_conserves_mass ([7, 1, 2, 3, 4, 5] : List ℚ) (show 1 ≤ 2 by norm_num)
      (show 2 ≤ 5 by norm_num) (by norm_num)
  exact ⟨hweights, hbins, hmass.trans (by norm_num)⟩

end Mass

section Scan
variable {𝕜 : Type*} [Field 𝕜] [LinearOrder 𝕜] [FloorSemiring 𝕜] {histogram edges : List 𝕜}
  {targetBins i : ℕ}

def midpoint (edges : List 𝕜) (i : ℕ) : 𝕜 := (edges.getD i 0 + edges.getD (i + 1) 0) / 2

/-- A candidate is either taken or leaves the best one as it is. -/
theorem scanStep_spec (log : 𝕜 → 𝕜) (histogram : List 𝕜) (targetBins : ℕ)
    (best : Option 𝕜 × 𝕜) (hi : 0 < i) (hedge : i + 1 < edges.length) :
    ∃ best', scanStep log histogram edges targetBins best i = some best' ∧
      (best'.2 = best.2 ∨ best'.2 = midpoint edges i) := by
  unfold scanStep
  rw [if_neg hi.ne']
  dsimp only
  split_ifs
  · rw [List.getElem?_eq_getElem (Nat.lt_of_succ_lt hedge), List.getElem?_eq_getElem hedge]
    refine ⟨_, rfl, Or.inr ?_⟩
    rw [midpoint, List.getD_eq_getElem _ _ (Nat.lt_of_succ_lt hedge),
      List.getD_eq_getElem _ _ hedge]
  · exact ⟨best, rfl, Or.inl rfl⟩

/-- A scan over candidates with two edges each returns, with the threshold of one of them. -/
theorem scan_spec (log : 𝕜 → 𝕜) (histogram : List 𝕜) (targetBins : ℕ) {candidates : List ℕ}
    (best : Option 𝕜 × 𝕜)
    (hcandidates : ∀ i ∈ candidates, 0 < i ∧ i + 1 < edges.length) :
    ∃ best', candidates.foldlM (scanStep log histogram edges targetBins) best = some best' ∧
      (best'.2 = best.2 ∨ ∃ i ∈ candidates, best'.2 = midpoint edges i) := by
  induction candidates generalizing best with
  | nil => exact ⟨best, rfl, Or.inl rfl⟩
  | cons i candidates ih =>
    obtain ⟨hi, hedge⟩ := hcandidates i List.mem_cons_self
    obtain ⟨next, hstep, hnext⟩ := scanStep_spec log histogram targetBins best hi hedge
    obtain ⟨best', hrun, hbest⟩ := ih next fun k hk => hcandidates k (List.mem_cons_of_mem i hk)
    refine ⟨best', ?_, ?_⟩
    · rw [List.foldlM_cons, hstep]
      exact hrun
    · rcases hbest with hkept | ⟨k, hk, hthreshold⟩
      · rw [hkept]
        exact hnext.imp_right fun h => ⟨i, List.mem_cons_self, h⟩
      · exact Or.inr ⟨k, List.mem_cons_of_mem i hk, hthreshold⟩

/-- A histogram with its edges has a threshold: the last edge, or the middle of a candidate. -/
theorem computeKlDivergenceScale_spec (log : 𝕜 → 𝕜) (hlen : 0 < histogram.length)
    (hedges : edges.length = histogram.length + 1) (ht : 1 ≤ targetBins) :
    ∃ threshold, computeKlDivergenceScale log histogram edges targetBins = some threshold ∧
      (edges.getLast? = some threshold ∨
        ∃ i, targetBins ≤ i ∧ i < histogram.length ∧ threshold = midpoint edges i) := by
  have hne : edges ≠ [] := List.ne_nil_of_length_pos (by omega)
  have hlast : edges.getLast? = some (edges.getLast hne) := List.getLast?_eq_some_getLast hne
  have hcandidates : ∀ i ∈ List.Ico targetBins (histogram.set 0 0).length,
      0 < i ∧ i + 1 < edges.length := by
    intro i hi
    rw [List.Ico.mem, List.length_set] at hi
    omega
  obtain ⟨best, hrun, hbest⟩ :=
    scan_spec log (histogram.set 0 0) targetBins (none, edges.getLast hne) hcandidates
  unfold computeKlDivergenceScale
  rw [if_neg (List.ne_nil_of_length_pos hlen), hlast]
  simp only [Option.bind_eq_bind, Option.bind_some, hrun]
  split_ifs
  · exact ⟨_, rfl, Or.inl rfl⟩
  · refine ⟨best.2, rfl, ?_⟩
    rcases hbest with hkept | ⟨i, hi, hthreshold⟩
    · exact Or.inl (congrArg some hkept.symm)
    · rw [List.Ico.mem, List.length_set] at hi
      exact Or.inr ⟨i, hi.1, hi.2, hthreshold⟩

end Scan
end CudaForge.Quantization
