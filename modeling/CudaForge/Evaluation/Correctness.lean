import CudaForge.Evaluation.RougeLcs
import Mathlib.Algebra.Order.Field.Rat

/-!
Exact match, ROUGE-L and token accuracy of generated sequences, in exact arithmetic: their order,
and when the ROUGE-L score is perfect.
-/
namespace CudaForge.Evaluation
open CommonSubsequence

structure GenerationCorrectnessResult where
  exactMatch : ℚ
  rougeLF1 : ℚ
  tokenAccuracy : ℚ
  totalSamples : ℕ
  deriving DecidableEq

structure CorrectnessSums where
  exactMatches : ℕ
  rougeF1Sum : ℚ
  tokenAccSum : ℚ

/-- `sum(1 for i in range(min_len) if gen[i] == ref[i])` -/
def positionMatches (gen ref : List ℤ) : ℕ :=
  (List.range (min gen.length ref.length)).countP fun i => gen[i]? = ref[i]?

def rougeF1 (gen ref : List ℤ) : ℚ :=
  let lcs := lcsLength gen ref
  if 0 < lcs ∧ 0 < gen.length ∧ 0 < ref.length then
    let prec : ℚ := lcs / gen.length
    let rec' : ℚ := lcs / ref.length
    if 0 < prec + rec' then 2 * prec * rec' / (prec + rec') else 0
  else 0

def addSample (s : CorrectnessSums) (sample : List ℤ × List ℤ) : CorrectnessSums :=
  let gen := sample.1
  let ref := sample.2
  { exactMatches := if gen = ref then s.exactMatches + 1 else s.exactMatches
    rougeF1Sum := s.rougeF1Sum + rougeF1 gen ref
    tokenAccSum :=
      if 0 < min gen.length ref.length then
        s.tokenAccSum + positionMatches gen ref / (max gen.length ref.length : ℕ)
      else s.tokenAccSum }

/-- `none` when the numbers of samples differ, which the assertion refuses. -/
def evaluateCorrectness (generatedSequences referenceSequences : List (List ℤ)) :
    Option GenerationCorrectnessResult :=
  if generatedSequences.length = referenceSequences.length then
    let totalSamples := generatedSequences.length
    if totalSamples = 0 then some ⟨0, 0, 0, 0⟩
    else
      let sums := (generatedSequences.zip referenceSequences).foldl addSample ⟨0, 0, 0⟩
      some
        { exactMatch := sums.exactMatches / totalSamples
          rougeLF1 := sums.rougeF1Sum / totalSamples
          tokenAccuracy := sums.tokenAccSum / totalSamples
          totalSamples := totalSamples }
  else none

section Sample
variable {gen ref : List ℤ}

theorem lcsLength_le_left : lcsLength gen ref ≤ gen.length := (lcsLength_spec gen ref).le_left

theorem lcsLength_le_right : lcsLength gen ref ≤ ref.length := (lcsLength_spec gen ref).le_right

/-- The harmonic mean of precision and recall, for empty sequences also. -/
theorem rougeF1_eq (gen ref : List ℤ) :
    rougeF1 gen ref = 2 * lcsLength gen ref / (gen.length + ref.length) := by
  have hleft : lcsLength gen ref ≤ gen.length := lcsLength_le_left
  have hright : lcsLength gen ref ≤ ref.length := lcsLength_le_right
  unfold rougeF1
  dsimp only
  by_cases hlcs : 0 < lcsLength gen ref
  · have hl : (0 : ℚ) < lcsLength gen ref := by exact_mod_cast hlcs
    have hm : (0 : ℚ) < gen.length := by exact_mod_cast hlcs.trans_le hleft
    have hn : (0 : ℚ) < ref.length := by exact_mod_cast hlcs.trans_le hright
    rw [if_pos ⟨hlcs, hlcs.trans_le hleft, hlcs.trans_le hright⟩, if_pos (by positivity)]
    field_simp
    ring
  · have hzero : lcsLength gen ref = 0 := Nat.eq_zero_of_not_pos hlcs
    rw [if_neg fun h => hlcs h.1, hzero, Nat.cast_zero, mul_zero, zero_div]

theorem rougeF1_le_one : rougeF1 gen ref ≤ 1 := by
  have hleft : (lcsLength gen ref : ℚ) ≤ gen.length := by exact_mod_cast lcsLength_le_left
  have hright : (lcsLength gen ref : ℚ) ≤ ref.length := by exact_mod_cast lcsLength_le_right
  rw [rougeF1_eq]
  exact div_le_one_of_le₀ (by linarith) (by positivity)

/-- A perfect score leaves no element of either sequence outside the common subsequence. -/
theorem rougeF1_eq_one_iff : rougeF1 gen ref = 1 ↔ gen = ref ∧ gen ≠ [] := by
  have hleft : (lcsLength gen ref : ℚ) ≤ gen.length := by exact_mod_cast lcsLength_le_left
  have hright : (lcsLength gen ref : ℚ) ≤ ref.length := by exact_mod_cast lcsLength_le_right
  rw [rougeF1_eq, ← (lcsLength_spec gen ref).eq_iff, ← List.length_pos_iff]
  constructor
  · intro hone
    have hne : (gen.length + ref.length : ℚ) ≠ 0 := by
      intro hzero
      rw [hzero, div_zero] at hone
      exact zero_ne_one hone
    rw [div_eq_one_iff_eq hne] at hone
    have hm : (lcsLength gen ref : ℚ) = gen.length := by linarith
    have hn : (lcsLength gen ref : ℚ) = ref.length := by linarith
    refine ⟨⟨by exact_mod_cast hm, by exact_mod_cast hn⟩, Nat.pos_of_ne_zero fun hempty => hne ?_⟩
    rw [← hn, hm, hempty, Nat.cast_zero, add_zero]
  · rintro ⟨⟨hm, hn⟩, hpos⟩
    have hgen : (0 : ℚ) < gen.length := by exact_mod_cast hpos
    rw [← hn, hm, ← two_mul, div_self (by positivity)]

/-- A sample's token accuracy is at most its ROUGE-L score. -/
theorem accuracy_le_rougeF1 :
    (positionMatches gen ref : ℚ) / (max gen.length ref.length : ℕ) ≤ rougeF1 gen ref := by
  have hagree : (positionMatches gen ref : ℚ) ≤ lcsLength gen ref := by
    exact_mod_cast (lcsLength_spec gen ref).agreements_le
  have hm : (gen.length : ℚ) ≤ (max gen.length ref.length : ℕ) := by
    exact_mod_cast le_max_left _ _
  have hn : (ref.length : ℚ) ≤ (max gen.length ref.length : ℕ) := by
    exact_mod_cast le_max_right _ _
  rw [rougeF1_eq]
  rcases (add_nonneg (Nat.cast_nonneg gen.length) (Nat.cast_nonneg ref.length) :
    (0 : ℚ) ≤ gen.length + ref.length).eq_or_lt with hzero | hpos
  · -- both sequences are empty
    have hempty : max gen.length ref.length = 0 := by
      have : gen.length + ref.length = 0 := by exact_mod_cast hzero.symm
      omega
    rw [hempty, ← hzero, Nat.cast_zero, div_zero, div_zero]
  · have hmax : (0 : ℚ) < (max gen.length ref.length : ℕ) := by linarith
    rw [div_le_div_iff₀ hmax hpos]
    calc (positionMatches gen ref : ℚ) * (gen.length + ref.length)
        ≤ lcsLength gen ref * (2 * (max gen.length ref.length : ℕ)) :=
          mul_le_mul hagree (by linarith) hpos.le (Nat.cast_nonneg _)
      _ = 2 * lcsLength gen ref * (max gen.length ref.length : ℕ) := by ring

/-- Empty samples have nothing to add to the token accuracy. -/
theorem addSample_tokenAccSum (s : CorrectnessSums) :
    (addSample s (gen, ref)).tokenAccSum =
      s.tokenAccSum + positionMatches gen ref / (max gen.length ref.length : ℕ) := by
  unfold addSample
  dsimp only
  split_ifs with hmin
  · rfl
  · rw [positionMatches, Nat.eq_zero_of_not_pos hmin, List.range_zero, List.countP_nil,
      Nat.cast_zero, zero_div, add_zero]

end Sample

structure Ordered (samples : List (List ℤ × List ℤ)) (s : CorrectnessSums) : Prop where
  tokenAcc_nonneg : 0 ≤ s.tokenAccSum
  tokenAcc_le : s.tokenAccSum ≤ s.rougeF1Sum
  rougeF1_le : s.rougeF1Sum ≤ samples.length
  exactMatches_le : s.exactMatches ≤ samples.length
  rougeF1_eq_iff : s.rougeF1Sum = samples.length ↔
    ∀ sample ∈ samples, sample.1 = sample.2 ∧ sample.1 ≠ []

section Loop
variable {samples : List (List ℤ × List ℤ)} {s : CorrectnessSums}

theorem Ordered.addSample (h : Ordered samples s) (sample : List ℤ × List ℤ) :
    Ordered (samples ++ [sample]) (addSample s sample) := by
  obtain ⟨gen, ref⟩ := sample
  have hacc : (0 : ℚ) ≤ positionMatches gen ref / (max gen.length ref.length : ℕ) := by positivity
  have hle : _ ≤ rougeF1 gen ref := accuracy_le_rougeF1
  have hone : rougeF1 gen ref ≤ 1 := rougeF1_le_one
  have hsum := h.rougeF1_le
  have hlen : ((samples ++ [(gen, ref)]).length : ℚ) = samples.length + 1 := by
    rw [List.length_append, List.length_singleton, Nat.cast_succ]
  have hrouge : (Evaluation.addSample s (gen, ref)).rougeF1Sum = s.rougeF1Sum + rougeF1 gen ref :=
    rfl
  constructor
  · rw [addSample_tokenAccSum]
    exact add_nonneg h.tokenAcc_nonneg hacc
  · rw [addSample_tokenAccSum, hrouge]
    exact add_le_add h.tokenAcc_le hle
  · rw [hrouge, hlen]
    exact add_le_add hsum hone
  · have hexact := h.exactMatches_le
    rw [List.length_append, List.length_singleton, Evaluation.addSample]
    dsimp only
    split_ifs <;> omega
  · rw [hrouge, hlen, List.forall_mem_append, List.forall_mem_singleton, ← h.rougeF1_eq_iff,
      ← rougeF1_eq_one_iff]
    -- both summands are at their bounds
    constructor
    · intro heq
      exact ⟨by linarith, by linarith⟩
    · rintro ⟨hall, hlast⟩
      rw [hall, hlast]

theorem ordered_samples (samples : List (List ℤ × List ℤ)) :
    Ordered samples (samples.foldl addSample ⟨0, 0, 0⟩) := by
  induction samples using List.reverseRecOn with
  | nil => exact ⟨le_rfl, le_rfl, le_rfl, le_rfl, iff_of_true rfl (List.forall_mem_nil _)⟩
  | append_singleton samples sample ih =>
    rw [List.foldl_concat]
    exact ih.addSample sample

end Loop

/-- Token accuracy is at most the ROUGE-L score, both and the exact match lie between 0 and 1, and
the score is 1 only if all pairs are equal and not empty. -/
theorem evaluateCorrectness_ordered (gens refs : List (List ℤ)) (hlen : gens.length = refs.length)
    (hne : gens ≠ []) :
    ∃ r, evaluateCorrectness gens refs = some r ∧ 0 ≤ r.tokenAccuracy ∧
      r.tokenAccuracy ≤ r.rougeLF1 ∧ r.rougeLF1 ≤ 1 ∧ 0 ≤ r.exactMatch ∧ r.exactMatch ≤ 1 ∧
      (r.rougeLF1 = 1 ↔ ∀ sample ∈ gens.zip refs, sample.1 = sample.2 ∧ sample.1 ≠ []) := by
  have h := ordered_samples (gens.zip refs)
  have hsamples : (gens.zip refs).length = gens.length := by
    rw [List.length_zip, hlen, min_self]
  have hpos : 0 < gens.length := List.length_pos_iff.mpr hne
  have htotal : (0 : ℚ) < gens.length := by exact_mod_cast hpos
  have hrouge := h.rougeF1_le
  have hiff := h.rougeF1_eq_iff
  rw [hsamples] at hrouge hiff
  have hexact : (((gens.zip refs).foldl addSample ⟨0, 0, 0⟩).exactMatches : ℚ) ≤ gens.length := by
    rw [← hsamples]
    exact_mod_cast h.exactMatches_le
  unfold evaluateCorrectness
  rw [if_pos hlen, if_neg hpos.ne']
  refine ⟨_, rfl, div_nonneg h.tokenAcc_nonneg htotal.le,
    div_le_div_of_nonneg_right h.tokenAcc_le htotal.le, div_le_one_of_le₀ hrouge htotal.le,
    div_nonneg (Nat.cast_nonneg _) htotal.le, div_le_one_of_le₀ hexact htotal.le, ?_⟩
  rw [← hiff]
  exact div_eq_one_iff_eq htotal.ne'

theorem evaluateCorrectness_ordered_two :
    ∃ r, evaluateCorrectness [[1, 2], [3]] [[1, 2], [4]] = some r ∧ 0 ≤ r.tokenAccuracy ∧
      r.tokenAccuracy ≤ r.rougeLF1 ∧ r.rougeLF1 ≤ 1 ∧ 0 ≤ r.exactMatch ∧ r.exactMatch ≤ 1 ∧
      (r.rougeLF1 = 1 ↔ ∀ sample ∈ List.zip [[(1 : ℤ), 2], [3]] [[1, 2], [4]],
        sample.1 = sample.2 ∧ sample.1 ≠ []) :=
  evaluateCorrectness_ordered _ _ rfl (List.cons_ne_nil _ _)

end CudaForge.Evaluation
