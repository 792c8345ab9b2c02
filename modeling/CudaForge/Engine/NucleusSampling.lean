import Mathlib.Data.Fin.Tuple.Sort
import CudaForge.Library.OnlineSoftmax
import CudaForge.Library.TopMass

/-!
Nucleus sampling of one row of logits, in exact arithmetic. A removed token has the logit `⊥`, which
is `-inf`.
-/
namespace CudaForge.Engine
open OnlineSoftmax TopMass Finset

namespace NucleusSampling
variable {S : Type*} {V : ℕ}

/-- What `torch.sort(row, descending=True)` promises: the token at each rank. -/
structure DescendingSort (row : Fin V → ℝ) where
  sortedIndices : Equiv.Perm (Fin V)
  descending : Antitone (row ∘ sortedIndices)

noncomputable def softmax (row : Fin V → WithBot ℝ) (x : Fin V) : ℝ :=
  weight (row x) / ∑ y, weight (row y)

def cumsum (row : Fin V → ℝ) (k : Fin V) : ℝ := ∑ j ∈ Iic k, row j

/-- `mask[1:] = mask[:-1].clone()`. -/
def assignTail (mask : Fin V → Bool) (k : Fin V) : Bool :=
  if k.val = 0 then mask k else mask ⟨k.val - 1, (Nat.sub_le _ _).trans_lt k.isLt⟩

/-- `mask[0] = 0`. -/
def clearFirst (mask : Fin V → Bool) (k : Fin V) : Bool := if k.val = 0 then false else mask k

/-- `self.scatter(index, src)`: a copy of `self` with `out[index[k]] = src[k]` for each `k`. -/
def scatter (self : Fin V → Bool) (index : Fin V → Fin V) (src : Fin V → Bool) : Fin V → Bool :=
  (List.finRange V).foldl (fun out k => Function.update out (index k) (src k)) self

noncomputable def sortedIndicesToRemove {row : Fin V → ℝ} (sorted : DescendingSort row)
    (topP : ℝ) : Fin V → Bool :=
  let sortedLogits : Fin V → WithBot ℝ := fun k => row (sorted.sortedIndices k)
  let cumulativeProbs := cumsum (softmax sortedLogits)
  clearFirst (assignTail fun k => decide (topP < cumulativeProbs k))

noncomputable def filteredLogits (sort : ∀ row : Fin V → ℝ, DescendingSort row)
    (logits : Fin V → ℝ) (temperature topP : ℝ) : Fin V → WithBot ℝ :=
  let scaled := fun x => logits x / temperature
  if topP < 1 then
    let sorted := sort scaled
    let toRemove := sortedIndicesToRemove sorted topP
    let indicesToRemove := scatter toRemove sorted.sortedIndices toRemove
    fun x => if indicesToRemove x then ⊥ else scaled x
  else fun x => scaled x

/-- `_sample_next_token` on one row; `multinomial` turns weights and a random draw into a token. -/
noncomputable def sampleNextToken (sort : ∀ row : Fin V → ℝ, DescendingSort row)
    (multinomial : (Fin V → ℝ) → S → Fin V) (logits : Fin V → ℝ) (temperature topP : ℝ)
    (source : S) : Fin V :=
  multinomial (softmax (filteredLogits sort logits temperature topP)) source

noncomputable def probs (logits : Fin V → ℝ) (temperature : ℝ) : Fin V → ℝ :=
  softmax fun x => ((logits x / temperature : ℝ) : WithBot ℝ)

noncomputable def renormalised (probs : Fin V → ℝ) (N : Finset (Fin V)) (x : Fin V) : ℝ :=
  if x ∈ N then probs x / ∑ y ∈ N, probs y else 0

section Masks

theorem foldl_update (self src : Fin V → Bool) (σ : Equiv.Perm (Fin V)) (l : List (Fin V))
    (k : Fin V) : l.foldl (fun out k => Function.update out (σ k) (src k)) self (σ k) =
      if k ∈ l then src k else self (σ k) := by
  induction l generalizing self with
  | nil => rfl
  | cons a l ih =>
    rw [List.foldl_cons, ih]
    by_cases hk : k ∈ l
    · rw [if_pos hk, if_pos (List.mem_cons_of_mem a hk)]
    · rw [if_neg hk]
      rcases eq_or_ne k a with rfl | hne
      · rw [Function.update_self, if_pos List.mem_cons_self]
      · rw [Function.update_of_ne (σ.injective.ne hne), if_neg]
        exact fun hmem => hk ((List.mem_cons.mp hmem).resolve_left hne)

/-- Scattering through a permutation puts the entry of each rank at the token of the rank. -/
theorem scatter_perm (self src : Fin V → Bool) (σ : Equiv.Perm (Fin V)) (k : Fin V) :
    scatter self σ src (σ k) = src k := by
  rw [scatter, foldl_update, if_pos (List.mem_finRange k)]

theorem clearFirst_assignTail (mask : Fin V → Bool) (k : Fin V) :
    clearFirst (assignTail mask) k = true ↔ ∃ j : Fin V, j.val + 1 = k.val ∧ mask j = true := by
  unfold clearFirst assignTail
  split_ifs with hk
  · refine iff_of_false nofun ?_
    rintro ⟨j, hj, -⟩
    omega
  · constructor
    · intro h
      exact ⟨_, Nat.succ_pred_eq_of_ne_zero hk, h⟩
    · rintro ⟨j, hj, hmask⟩
      have heq : (⟨k.val - 1, (Nat.sub_le _ _).trans_lt k.isLt⟩ : Fin V) = j :=
        Fin.ext (by simp only; omega)
      rwa [heq]

end Masks

section Probabilities
variable {logits : Fin V → ℝ} {temperature topP : ℝ}

theorem probs_eq (x : Fin V) : probs logits temperature x =
    Real.exp (logits x / temperature) / ∑ y, Real.exp (logits y / temperature) := rfl

theorem sum_exp_pos (hV : 0 < V) (row : Fin V → ℝ) : 0 < ∑ y, Real.exp (row y) :=
  sum_pos (fun _ _ => Real.exp_pos _) ⟨⟨0, hV⟩, mem_univ _⟩

theorem probs_nonneg (x : Fin V) : 0 ≤ probs logits temperature x :=
  div_nonneg (weight_nonneg _) (sum_nonneg fun _ _ => weight_nonneg _)

theorem sum_probs (hV : 0 < V) : ∑ x, probs logits temperature x = 1 := by
  simp only [probs_eq]
  rw [← sum_div, div_self (sum_exp_pos hV _).ne']

theorem probs_lt {x y : Fin V} (h : logits x / temperature < logits y / temperature) :
    probs logits temperature x < probs logits temperature y := by
  rw [probs_eq, probs_eq]
  exact div_lt_div_of_pos_right (Real.exp_lt_exp.mpr h) (sum_exp_pos x.pos _)

theorem sorted_strictAnti (hlogits : Function.Injective logits) (htemperature : 0 < temperature)
    (sorted : DescendingSort fun x => logits x / temperature) :
    StrictAnti (probs logits temperature ∘ sorted.sortedIndices) := by
  have hinjective : Function.Injective ((fun x => logits x / temperature) ∘
      sorted.sortedIndices) := by
    intro i j h
    exact sorted.sortedIndices.injective (hlogits ((div_left_inj' htemperature.ne').mp h))
  intro i j hij
  exact probs_lt (sorted.descending.strictAnti_of_injective hinjective hij)

theorem softmax_sorted (sorted : DescendingSort fun x => logits x / temperature) (k : Fin V) :
    softmax (fun k => ((logits (sorted.sortedIndices k) / temperature : ℝ) : WithBot ℝ)) k =
      probs logits temperature (sorted.sortedIndices k) := by
  rw [softmax, probs_eq]
  simp only [weight_coe]
  rw [Equiv.sum_comp sorted.sortedIndices fun x => Real.exp (logits x / temperature)]

/-- A token is removed when the tokens before it in the order carry more than `top_p`. -/
theorem removed_iff (hlogits : Function.Injective logits) (htemperature : 0 < temperature)
    (htopP : 0 ≤ topP) (sorted : DescendingSort fun x => logits x / temperature) (k : Fin V) :
    sortedIndicesToRemove sorted topP k = true ↔
      topP < massAbove (probs logits temperature) (sorted.sortedIndices k) := by
  rw [massAbove_sorted (sorted_strictAnti hlogits htemperature sorted), sortedIndicesToRemove,
    clearFirst_assignTail]
  simp only [decide_eq_true_iff, cumsum, softmax_sorted]
  constructor
  · rintro ⟨j, hj, hlt⟩
    have hranks : Iic j = Iio k := by
      ext i
      rw [mem_Iic, mem_Iio, Fin.le_def, Fin.lt_def]
      omega
    rwa [← hranks]
  · intro hlt
    have hk : k.val ≠ 0 := by
      intro hzero
      have hempty : Iio k = ∅ := by
        ext i
        simp only [mem_Iio, Fin.lt_def, notMem_empty, iff_false]
        omega
      rw [hempty, sum_empty] at hlt
      exact absurd hlt htopP.not_gt
    have hranks : Iio k = Iic (⟨k.val - 1, (Nat.sub_le _ _).trans_lt k.isLt⟩ : Fin V) := by
      ext i
      rw [mem_Iic, mem_Iio, Fin.le_def, Fin.lt_def]
      simp only
      omega
    rw [hranks] at hlt
    exact ⟨_, Nat.succ_pred_eq_of_ne_zero hk, hlt⟩

/-- Softmax of the logits with the others removed is the renormalised softmax. -/
theorem softmax_restricted (hV : 0 < V) (N : Finset (Fin V)) :
    softmax (fun x => if x ∈ N then ((logits x / temperature : ℝ) : WithBot ℝ) else ⊥) =
      renormalised (probs logits temperature) N := by
  have hweight : ∀ x, weight (if x ∈ N then ((logits x / temperature : ℝ) : WithBot ℝ) else ⊥) =
      if x ∈ N then Real.exp (logits x / temperature) else 0 := by
    intro x
    split_ifs <;> rfl
  funext x
  rw [softmax, renormalised]
  simp only [hweight, probs_eq]
  rw [← sum_div, sum_ite_mem, univ_inter]
  split_ifs
  · rw [div_div_div_cancel_right₀ (sum_exp_pos hV _).ne']
  · rw [zero_div]

end Probabilities

/-- Filtering keeps the nucleus, and the token is drawn from its renormalised probabilities. -/
theorem sampleNextToken_nucleus (sort : ∀ row : Fin V → ℝ, DescendingSort row)
    (multinomial : (Fin V → ℝ) → S → Fin V) (logits : Fin V → ℝ) (temperature topP : ℝ)
    (source : S) (hV : 0 < V) (hlogits : Function.Injective logits)
    (htemperature : 0 < temperature) (htopP : 0 ≤ topP) :
    (topP < 1 → ∃ N : Finset (Fin V), IsNucleus (probs logits temperature) topP N ∧ N.Nonempty ∧
      (∀ x, filteredLogits sort logits temperature topP x =
        if x ∈ N then ((logits x / temperature : ℝ) : WithBot ℝ) else ⊥) ∧
      sampleNextToken sort multinomial logits temperature topP source =
        multinomial (renormalised (probs logits temperature) N) source) ∧
    (1 ≤ topP → sampleNextToken sort multinomial logits temperature topP source =
      multinomial (probs logits temperature) source) := by
  constructor
  · intro htop
    have hnonneg : ∀ x, 0 ≤ probs logits temperature x := probs_nonneg
    have htotal : topP < ∑ x, probs logits temperature x := by rwa [sum_probs hV]
    have hnucleus := isNucleus_filter hnonneg htotal
    have hfiltered : filteredLogits sort logits temperature topP = fun x =>
        if x ∈ ({x | massAbove (probs logits temperature) x ≤ topP} : Finset (Fin V)) then
          ((logits x / temperature : ℝ) : WithBot ℝ)
        else ⊥ := by
      funext x
      obtain ⟨k, rfl⟩ := (sort fun x => logits x / temperature).sortedIndices.surjective x
      rw [filteredLogits, if_pos htop]
      dsimp only
      rw [scatter_perm]
      simp only [removed_iff hlogits htemperature htopP, mem_filter_univ, ← not_lt]
      split_ifs <;> rfl
    refine ⟨_, hnucleus, hnucleus.nonempty htopP, fun x => congrFun hfiltered x, ?_⟩
    rw [sampleNextToken, hfiltered, softmax_restricted hV]
  · intro htop
    rw [sampleNextToken, filteredLogits, if_neg htop.not_gt]
    rfl

noncomputable def descendingSort (row : Fin V → ℝ) : DescendingSort row where
  sortedIndices := Tuple.sort fun x => -row x
  descending _ _ hij := neg_le_neg_iff.mp (Tuple.monotone_sort (fun x => -row x) hij)

noncomputable def drawOfTwo (weights : Fin 2 → ℝ) (source : ℝ) : Fin 2 :=
  if source * (weights 0 + weights 1) < weights 0 then 0 else 1

theorem sampleNextToken_nucleus_two :
    (1 / 2 < (1 : ℝ) → ∃ N : Finset (Fin 2), IsNucleus (probs ![1, 0] 1) (1 / 2) N ∧ N.Nonempty ∧
      (∀ x, filteredLogits descendingSort ![1, 0] 1 (1 / 2) x =
        if x ∈ N then (((![1, 0] : Fin 2 → ℝ) x / 1 : ℝ) : WithBot ℝ) else ⊥) ∧
      sampleNextToken descendingSort drawOfTwo ![1, 0] 1 (1 / 2) (3 / 4) =
        drawOfTwo (renormalised (probs ![1, 0] 1) N) (3 / 4)) ∧
    (1 ≤ (1 / 2 : ℝ) → sampleNextToken descendingSort drawOfTwo ![1, 0] 1 (1 / 2) (3 / 4) =
      drawOfTwo (probs ![1, 0] 1) (3 / 4)) := by
  have hlogits : Function.Injective (![1, 0] : Fin 2 → ℝ) := by
    intro i j h
    fin_cases i <;> fin_cases j <;> simp_all
  exact sampleNextToken_nucleus descendingSort drawOfTwo ![1, 0] 1 (1 / 2) (3 / 4) Nat.two_pos
    hlogits one_pos (by norm_num)

end NucleusSampling
end CudaForge.Engine
