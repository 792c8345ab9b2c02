import CudaForge.Engine.FusedSampling
import CudaForge.Library.TopMass

/-!
Which draws make the fused sampling kernel respect `top_k` and `top_p`. The kernel samples from the
whole softmax distribution, so that all draws do only when the two parameters remove no token.
-/
namespace CudaForge.Engine.FusedSampling
open Finset OnlineSoftmax OnlineSoftmax.Number TopMass

namespace SamplingParams
variable (p : SamplingParams) (batchIdx : ℕ)

noncomputable def softmaxProb (i : ℕ) : ℝ :=
  weight (p.scaled (p.rowLogits batchIdx) i) /
    ∑ j ∈ range p.vocabSize, weight (p.scaled (p.rowLogits batchIdx) j)

noncomputable def cumulative (i : ℕ) : ℝ := ∑ j ∈ range i, p.softmaxProb batchIdx j

/-- The token is one of the `top_k` with the largest logits. -/
def InTopK (i : Fin p.vocabSize) : Prop :=
  (#{j : Fin p.vocabSize | p.rowLogits batchIdx i < p.rowLogits batchIdx j} : ℤ) < p.topK

/-- The token is in the shortest top set of tokens whose probability reaches `top_p`. -/
def InNucleus (i : Fin p.vocabSize) : Prop :=
  ∃ N, IsShortestTop (fun j : Fin p.vocabSize => p.softmaxProb batchIdx j) (p.topP ≤ ·) N ∧ i ∈ N

/-- The kernel returns a token that both parameters allow. -/
def Respects (result : Option ℕ) : Prop :=
  ∃ i : Fin p.vocabSize, result = some i.val ∧ p.InTopK batchIdx i ∧ p.InNucleus batchIdx i

/-- The parameters remove no token that is not masked: `top_k` counts all of them, and the mass
above each of them is below `top_p`. -/
def Untruncated : Prop :=
  (#{i : Fin p.vocabSize | p.rowLogits batchIdx i ≠ ⊥} : ℤ) ≤ p.topK ∧
    ∀ i : Fin p.vocabSize, p.rowLogits batchIdx i ≠ ⊥ →
      massAbove (fun j : Fin p.vocabSize => p.softmaxProb batchIdx j) i < p.topP

end SamplingParams

section Scan

/-- The scan stops at the token whose part of the cumulative sum holds the draw. -/
theorem cdfLoop_spec {u : ℝ} {q : ℕ → ℝ} (n i : ℕ) (hlow : ∑ j ∈ range i, q j < u)
    (hhigh : u ≤ ∑ j ∈ range (i + n), q j) : ∃ k, i ≤ k ∧ k < i + n ∧
      cdfLoop u (fun j => real (q j)) n i (real (∑ j ∈ range i, q j)) = some k ∧
      ∑ j ∈ range k, q j < u ∧ u ≤ ∑ j ∈ range (k + 1), q j := by
  induction n generalizing i with
  | zero => exact absurd hhigh hlow.not_ge
  | succ n ih =>
    rw [cdfLoop, real_add, ← sum_range_succ]
    by_cases hstop : u ≤ ∑ j ∈ range (i + 1), q j
    · refine ⟨i, le_rfl, by omega, ?_, hlow, hstop⟩
      rw [if_pos]
      exact decide_eq_true hstop
    · obtain ⟨k, hik, hkn, hloop, hk⟩ := ih (i + 1) (not_le.mp hstop) (by rwa [Nat.add_right_comm])
      refine ⟨k, by omega, by omega, ?_, hk⟩
      rw [if_neg, hloop]
      exact fun h => hstop (of_decide_eq_true h)

end Scan

namespace SamplingParams
variable {p : SamplingParams} {batchIdx : ℕ}

section Probabilities
variable (hfinite : ∃ i : Fin p.vocabSize, p.rowLogits batchIdx i ≠ ⊥)
include hfinite

theorem total_pos : 0 < ∑ j ∈ range p.vocabSize, weight (p.scaled (p.rowLogits batchIdx) j) := by
  obtain ⟨i, hi⟩ := hfinite
  refine sum_pos' (fun _ _ => weight_nonneg _) ⟨i, mem_range.mpr i.isLt, ?_⟩
  obtain ⟨x, hx⟩ := WithBot.ne_bot_iff_exists.mp hi
  rw [scaled, ← hx]
  exact Real.exp_pos _

/-- The kernel's probability of a token is its softmax probability. -/
theorem prob_eq (i : ℕ) : p.prob (p.rowLogits batchIdx) i = real (p.softmaxProb batchIdx i) := by
  have htotal := total_pos hfinite
  have hmax := (Real.exp_pos (-p.maxLogit (p.rowLogits batchIdx))).ne'
  rw [prob, sumVal_eq, real_div _ (mul_ne_zero hmax htotal.ne'), real_mul, expf_eq, softmaxProb]
  congr 1
  field_simp

theorem softmaxProb_nonneg (i : ℕ) : 0 ≤ p.softmaxProb batchIdx i :=
  div_nonneg (weight_nonneg _) (total_pos hfinite).le

theorem softmaxProb_pos {i : ℕ} (hi : p.rowLogits batchIdx i ≠ ⊥) :
    0 < p.softmaxProb batchIdx i := by
  obtain ⟨x, hx⟩ := WithBot.ne_bot_iff_exists.mp hi
  refine div_pos ?_ (total_pos hfinite)
  rw [scaled, ← hx]
  exact Real.exp_pos _

theorem cumulative_vocabSize : p.cumulative batchIdx p.vocabSize = 1 := by
  unfold cumulative softmaxProb
  rw [← sum_div, div_self (total_pos hfinite).ne']

theorem cumulative_mono : Monotone (p.cumulative batchIdx) := fun _ _ h =>
  sum_le_sum_of_subset_of_nonneg (range_mono h) fun i _ _ => softmaxProb_nonneg hfinite i

/-- The draw falls in the part of one token only. -/
theorem cumulative_unique {u : ℝ} {i k : ℕ} (hi : p.cumulative batchIdx i < u)
    (hi' : u ≤ p.cumulative batchIdx (i + 1)) (hk : p.cumulative batchIdx k < u)
    (hk' : u ≤ p.cumulative batchIdx (k + 1)) : i = k := by
  have hmono := cumulative_mono hfinite
  by_contra hne
  rcases Nat.lt_or_gt_of_ne hne with hlt | hlt
  · exact absurd (hi'.trans (hmono hlt)) hk.not_ge
  · exact absurd (hk'.trans (hmono hlt)) hi.not_ge

variable {u : ℝ} (htemperature : 1 / 100000 < p.temperature) (hu : 0 < u) (hu' : u ≤ 1)
include htemperature hu hu'

/-- The kernel returns the token whose part of the cumulative probability holds the draw. -/
theorem fusedSamplingKernel_spec : ∃ k : Fin p.vocabSize,
    p.fusedSamplingKernel launchFloats batchIdx u = some k.val ∧
      p.cumulative batchIdx k < u ∧ u ≤ p.cumulative batchIdx (k + 1) := by
  have hhigh : u ≤ ∑ j ∈ range (0 + p.vocabSize), p.softmaxProb batchIdx j := by
    rw [Nat.zero_add]
    exact hu'.trans (cumulative_vocabSize hfinite).ge
  obtain ⟨k, -, hk, hloop, hcdf⟩ := cdfLoop_spec p.vocabSize 0 (by rwa [sum_range_zero]) hhigh
  rw [Nat.zero_add] at hk
  refine ⟨⟨k, hk⟩, ?_, hcdf⟩
  have hprob : p.prob (p.rowLogits batchIdx) = fun i => real (p.softmaxProb batchIdx i) :=
    funext (prob_eq hfinite)
  rw [sum_range_zero] at hloop
  have hsize : ¬ launchFloats < blockSize / WARP_SIZE := lt_irrefl _
  unfold fusedSamplingKernel
  dsimp only
  rw [if_neg hsize, if_neg htemperature.not_ge, selectedToken, hprob, hloop]
  rfl

/-- For one draw: the part of an allowed token holds it. -/
theorem respects_iff : p.Respects batchIdx (p.fusedSamplingKernel launchFloats batchIdx u) ↔
    ∃ i : Fin p.vocabSize, p.InTopK batchIdx i ∧ p.InNucleus batchIdx i ∧
      p.cumulative batchIdx i < u ∧ u ≤ p.cumulative batchIdx (i + 1) := by
  obtain ⟨k, hk, hlow, hhigh⟩ := fusedSamplingKernel_spec hfinite htemperature hu hu'
  rw [Respects, hk]
  constructor
  · rintro ⟨i, hi, htop, hnucleus⟩
    rw [← Fin.ext (Option.some.inj hi)] at htop hnucleus
    exact ⟨k, htop, hnucleus, hlow, hhigh⟩
  · rintro ⟨i, htop, hnucleus, hlow', hhigh'⟩
    have heq := cumulative_unique hfinite hlow hhigh hlow' hhigh'
    exact ⟨i, congrArg some heq, htop, hnucleus⟩

end Probabilities

section Truncation
variable (hfinite : ∃ i : Fin p.vocabSize, p.rowLogits batchIdx i ≠ ⊥)
include hfinite

theorem inNucleus_iff (htopP : p.topP ≤ 1) (i : Fin p.vocabSize) : p.InNucleus batchIdx i ↔
    massAbove (fun j : Fin p.vocabSize => p.softmaxProb batchIdx j) i < p.topP := by
  have htotal := cumulative_vocabSize hfinite
  rw [cumulative, ← Fin.sum_univ_eq_sum_range] at htotal
  have hreaches : p.topP ≤ ∑ j : Fin p.vocabSize, p.softmaxProb batchIdx j :=
    htopP.trans htotal.ge
  exact mem_shortestTop_iff (fun j : Fin p.vocabSize => softmaxProb_nonneg hfinite j) hreaches

/-- Of tokens with different logits, the parameters allow all that are not masked exactly when they
remove none. -/
theorem untruncated_iff (hdistinct : Function.Injective fun i : Fin p.vocabSize =>
      p.rowLogits batchIdx i) (htopP : p.topP ≤ 1) : p.Untruncated batchIdx ↔
    ∀ i : Fin p.vocabSize, p.rowLogits batchIdx i ≠ ⊥ →
      p.InTopK batchIdx i ∧ p.InNucleus batchIdx i := by
  simp only [inNucleus_iff hfinite htopP, Untruncated]
  constructor
  · rintro ⟨hcount, hmass⟩ i hi
    refine ⟨lt_of_lt_of_le ?_ hcount, hmass i hi⟩
    rw [Nat.cast_lt]
    refine card_lt_card ⟨fun j hj => ?_, fun hsub => ?_⟩
    · rw [mem_filter_univ] at hj ⊢
      exact (bot_le.trans_lt hj).ne'
    · have hself := hsub ((mem_filter_univ i).mpr hi)
      rw [mem_filter_univ] at hself
      exact lt_irrefl _ hself
  · intro hall
    refine ⟨?_, fun i hi => (hall i hi).2⟩
    -- the least logit that is not masked has all the others above it
    obtain ⟨i₀, hi₀⟩ := hfinite
    obtain ⟨i, hi, hmin⟩ := exists_min_image {i : Fin p.vocabSize | p.rowLogits batchIdx i ≠ ⊥}
      (fun i => p.rowLogits batchIdx i) ⟨i₀, (mem_filter_univ i₀).mpr hi₀⟩
    rw [mem_filter_univ] at hi
    have hsplit : ({j : Fin p.vocabSize | p.rowLogits batchIdx j ≠ ⊥} : Finset _) =
        insert i ({j : Fin p.vocabSize | p.rowLogits batchIdx i < p.rowLogits batchIdx j} :
          Finset _) := by
      ext j
      rw [mem_filter_univ, mem_insert, mem_filter_univ]
      constructor
      · intro hj
        have hle := hmin j ((mem_filter_univ j).mpr hj)
        exact hle.eq_or_lt.imp (fun heq => hdistinct heq.symm) id
      · rintro (rfl | hlt)
        · exact hi
        · exact (bot_le.trans_lt hlt).ne'
    have hrank := (hall i hi).1
    unfold InTopK at hrank
    rw [hsplit, card_insert_of_notMem (by rw [mem_filter_univ]; exact lt_irrefl _)]
    push_cast
    omega

/-- All draws give allowed tokens exactly when the parameters remove no token. -/
theorem forall_respects_iff (hdistinct : Function.Injective fun i : Fin p.vocabSize =>
      p.rowLogits batchIdx i) (htopP : p.topP ≤ 1) (htemperature : 1 / 100000 < p.temperature) :
    (∀ u, 0 < u → u ≤ 1 →
      p.Respects batchIdx (p.fusedSamplingKernel launchFloats batchIdx u)) ↔
      p.Untruncated batchIdx := by
  rw [untruncated_iff hfinite hdistinct htopP]
  constructor
  · intro hall i hi
    -- the last draw of the token's part
    have hpart : p.cumulative batchIdx (i + 1) =
        p.cumulative batchIdx i + p.softmaxProb batchIdx i := sum_range_succ _ _
    have hpos := softmaxProb_pos hfinite hi
    have hmono := cumulative_mono hfinite
    have hlow : 0 ≤ p.cumulative batchIdx i := sum_nonneg fun j _ => softmaxProb_nonneg hfinite j
    have hone : p.cumulative batchIdx (i + 1) ≤ 1 :=
      (hmono i.isLt).trans (cumulative_vocabSize hfinite).le
    have hdraw : 0 < p.cumulative batchIdx (i + 1) := by linarith
    obtain ⟨k, htop, hnucleus, hk, hk'⟩ :=
      (respects_iff hfinite htemperature hdraw hone).mp (hall _ hdraw hone)
    have heq := cumulative_unique hfinite hk hk' (by linarith) le_rfl
    rw [← Fin.ext heq]
    exact ⟨htop, hnucleus⟩
  · intro hall u hu hu'
    obtain ⟨k, -, hlow, hhigh⟩ := fusedSamplingKernel_spec hfinite htemperature hu hu'
    have hpart : p.cumulative batchIdx (k + 1) =
        p.cumulative batchIdx k + p.softmaxProb batchIdx k := sum_range_succ _ _
    have hk : p.rowLogits batchIdx k ≠ ⊥ := by
      intro hmasked
      have hzero : p.softmaxProb batchIdx k = 0 := by
        rw [softmaxProb, scaled, hmasked]
        exact zero_div _
      linarith
    obtain ⟨htop, hnucleus⟩ := hall k hk
    exact (respects_iff hfinite htemperature hu hu').mpr ⟨k, htop, hnucleus, hlow, hhigh⟩

end Truncation

/-- All draws respect `top_k` and `top_p` exactly when they remove no token; one draw does when it
falls in the part of a token that they keep. -/
theorem sampling_respects_iff (p : SamplingParams) (batchIdx : ℕ)
    (hdistinct : Function.Injective fun i : Fin p.vocabSize => p.rowLogits batchIdx i)
    (hfinite : ∃ i : Fin p.vocabSize, p.rowLogits batchIdx i ≠ ⊥)
    (htemperature : 1 / 100000 < p.temperature) (htopP : p.topP ≤ 1) :
    ((∀ u, 0 < u → u ≤ 1 →
      p.Respects batchIdx (p.fusedSamplingKernel launchFloats batchIdx u)) ↔
        p.Untruncated batchIdx) ∧
    ∀ u, 0 < u → u ≤ 1 →
      (p.Respects batchIdx (p.fusedSamplingKernel launchFloats batchIdx u) ↔
        ∃ i : Fin p.vocabSize, p.InTopK batchIdx i ∧ p.InNucleus batchIdx i ∧
          p.cumulative batchIdx i < u ∧ u ≤ p.cumulative batchIdx (i + 1)) :=
  ⟨forall_respects_iff hfinite hdistinct htopP htemperature,
    fun _ hu hu' => respects_iff hfinite htemperature hu hu'⟩

noncomputable def twoTokens (topK : ℤ) : SamplingParams where
  logits := fun i => if i = 0 then (1 : ℝ) else (0 : ℝ)
  batchSize := 1
  vocabSize := 2
  temperature := 1
  topK := topK
  topP := 1

theorem twoTokens_rowLogits (topK : ℤ) (i : ℕ) :
    (twoTokens topK).rowLogits 0 i = ((if i = 0 then 1 else 0 : ℝ) : WithBot ℝ) := by
  show (if 0 * 2 + i = 0 then ((1 : ℝ) : WithBot ℝ) else ((0 : ℝ) : WithBot ℝ)) = _
  rw [Nat.zero_mul, Nat.zero_add]
  split_ifs <;> rfl

theorem twoTokens_distinct (topK : ℤ) : Function.Injective fun i : Fin (twoTokens topK).vocabSize =>
    (twoTokens topK).rowLogits 0 i := by
  intro i j h
  simp only [twoTokens_rowLogits, WithBot.coe_inj] at h
  have hi : i.val < 2 := i.isLt
  have hj : j.val < 2 := j.isLt
  apply Fin.ext
  by_cases hi0 : i.val = 0 <;> by_cases hj0 : j.val = 0 <;> simp [hi0, hj0] at h <;> omega

theorem twoTokens_finite (topK : ℤ) :
    ∀ i : Fin (twoTokens topK).vocabSize, (twoTokens topK).rowLogits 0 i ≠ ⊥ := by
  intro i
  rw [twoTokens_rowLogits]
  exact WithBot.coe_ne_bot

theorem sampling_respects_iff_two :
    ((∀ u, 0 < u → u ≤ 1 →
      (twoTokens 2).Respects 0 ((twoTokens 2).fusedSamplingKernel launchFloats 0 u)) ↔
        (twoTokens 2).Untruncated 0) ∧
    ∀ u, 0 < u → u ≤ 1 →
      ((twoTokens 2).Respects 0 ((twoTokens 2).fusedSamplingKernel launchFloats 0 u) ↔
        ∃ i : Fin (twoTokens 2).vocabSize, (twoTokens 2).InTopK 0 i ∧ (twoTokens 2).InNucleus 0 i ∧
          (twoTokens 2).cumulative 0 i < u ∧ u ≤ (twoTokens 2).cumulative 0 (i + 1)) :=
  sampling_respects_iff (twoTokens 2) 0 (twoTokens_distinct 2)
    ⟨⟨0, Nat.two_pos⟩, twoTokens_finite 2 _⟩ (by norm_num [twoTokens]) le_rfl

/-- With `top_k = 1` the draw 1 gives the second of two tokens. -/
theorem top_k_ignored : ¬ (twoTokens 1).Respects 0
    ((twoTokens 1).fusedSamplingKernel launchFloats 0 1) := by
  have hfinite : ∃ i : Fin (twoTokens 1).vocabSize, (twoTokens 1).rowLogits 0 i ≠ ⊥ :=
    ⟨⟨0, Nat.two_pos⟩, twoTokens_finite 1 _⟩
  rw [respects_iff hfinite (by norm_num [twoTokens]) one_pos le_rfl]
  rintro ⟨⟨i, hi⟩, htop, -, -, hhigh⟩
  change i < 2 at hi
  interval_cases i
  · -- the part of the first token ends before the draw
    have htotal := cumulative_vocabSize hfinite
    have hpos := softmaxProb_pos hfinite (twoTokens_finite 1 ⟨1, Nat.one_lt_two⟩)
    have hsplit : (twoTokens 1).cumulative 0 2 =
        (twoTokens 1).cumulative 0 (0 + 1) + (twoTokens 1).softmaxProb 0 1 := sum_range_succ _ _
    change (twoTokens 1).cumulative 0 2 = 1 at htotal
    change 1 ≤ (twoTokens 1).cumulative 0 (0 + 1) at hhigh
    linarith
  · -- the second token has a token above it
    have habove : (⟨0, Nat.two_pos⟩ : Fin (twoTokens 1).vocabSize) ∈
        ({j | (twoTokens 1).rowLogits 0 1 < (twoTokens 1).rowLogits 0 j} :
          Finset (Fin (twoTokens 1).vocabSize)) := by
      rw [mem_filter_univ, twoTokens_rowLogits, twoTokens_rowLogits, WithBot.coe_lt_coe]
      norm_num
    have hcard := card_pos.mpr ⟨_, habove⟩
    have hrank : (#{j : Fin (twoTokens 1).vocabSize |
        (twoTokens 1).rowLogits 0 1 < (twoTokens 1).rowLogits 0 j} : ℤ) < 1 := htop
    omega

end SamplingParams

end CudaForge.Engine.FusedSampling
