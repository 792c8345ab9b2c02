import CudaForge.Engine.SpeculationColumns
import CudaForge.Library.Numerals

/-!
The law of the tokens that a batched speculation step appends.

The rows of a batch share the decision whether a draft token is kept, so that a row also replaces
tokens that it would have kept by itself.
-/
namespace CudaForge.Engine
open MeasureTheory Numerals Set UniformDraw

namespace SpeculativeEngine
variable {S : Type*} {B V K : ℕ}

section Row
variable [MeasurableSpace S] {P : Measure S} {multinomial : (Fin V → ℝ) → S → Fin V}
  {p q : FiniteDistribution V}

noncomputable def exactRatio (p q : FiniteDistribution V) (x : Fin V) : ℝ :=
  min 1 (q.prob x / p.prob x)

theorem exactRatio_nonneg (x : Fin V) : 0 ≤ exactRatio p q x :=
  le_min zero_le_one (div_nonneg (q.nonneg x) (p.nonneg x))

theorem mul_exactRatio (x : Fin V) : p.prob x * exactRatio p q x = min (p.prob x) (q.prob x) := by
  rcases (p.nonneg x).eq_or_lt with hzero | hpos
  · rw [← hzero, zero_mul, min_eq_left (q.nonneg x)]
  · rw [exactRatio, mul_min_of_nonneg _ _ hpos.le, mul_one, mul_div_cancel₀ _ hpos.ne']

def keeps (multinomial : (Fin V → ℝ) → S → Fin V) (p q : FiniteDistribution V) :
    Set (S × ℝ × S) :=
  {s | s.2.1 < exactRatio p q (multinomial p.prob s.1)}

theorem measurableSet_keeps (hm : SamplesWeights P multinomial) :
    MeasurableSet (keeps multinomial p q) :=
  measurableSet_lt (measurable_fst.comp measurable_snd)
    ((measurable_of_countable (exactRatio p q)).comp ((hm.measurable _).comp measurable_fst))

theorem sampled_law (hm : SamplesWeights P multinomial) (x : Fin V) :
    P {s | multinomial p.prob s = x} = ENNReal.ofReal (p.prob x) := by
  have hpos : 0 < ∑ y, p.prob y := p.sum_eq_one.symm ▸ zero_lt_one
  rw [hm.law p.prob p.nonneg hpos x, p.sum_eq_one, div_one]

noncomputable def replacementProb (p q : FiniteDistribution V) (x : Fin V) : ℝ :=
  if p.overlap q = 1 then q.prob x else max (q.prob x - p.prob x) 0 / (1 - p.overlap q)

theorem replacementProb_nonneg (x : Fin V) : 0 ≤ replacementProb p q x := by
  unfold replacementProb
  split_ifs
  · exact q.nonneg x
  · exact div_nonneg (le_max_right _ _) (sub_nonneg.mpr (p.overlap_le_one q))

/-- The probability of a token as what a row appends, when the other rows keep their draft tokens
with probability `others`: the row drafted and kept it, or it is the replacement. -/
noncomputable def appendedProb (p q : FiniteDistribution V) (others : ℝ) (x : Fin V) : ℝ :=
  min (p.prob x) (q.prob x) * others + replacementProb p q x * (1 - p.overlap q * others)

theorem overlap_mul_le_one {others : ℝ} (hnonneg : 0 ≤ others) (hle : others ≤ 1) :
    p.overlap q * others ≤ 1 := mul_le_one₀ (p.overlap_le_one q) hnonneg hle

theorem appendedProb_nonneg {others : ℝ} (hnonneg : 0 ≤ others) (hle : others ≤ 1) (x : Fin V) :
    0 ≤ appendedProb p q others x :=
  add_nonneg (mul_nonneg (le_min (p.nonneg x) (q.nonneg x)) hnonneg)
    (mul_nonneg (replacementProb_nonneg x) (sub_nonneg.mpr (overlap_mul_le_one hnonneg hle)))

/-- What a row appends has the law of its target distribution when the other rows always keep their
draft tokens, or when its residual is a multiple of its target distribution. -/
theorem rowExact_iff (p q : FiniteDistribution V) (others : ℝ) :
    (∀ x, appendedProb p q others x = q.prob x) ↔
      others = 1 ∨ ∀ x, max (q.prob x - p.prob x) 0 =
        (∑ y, max (q.prob y - p.prob y) 0) * q.prob x := by
  rw [p.sum_max_sub q]
  rcases eq_or_ne (p.overlap q) 1 with hone | hne
  · obtain rfl := FiniteDistribution.overlap_eq_one_iff.mp hone
    refine iff_of_true (fun x => ?_) (Or.inr fun x => ?_)
    · rw [appendedProb, replacementProb, if_pos hone, hone, min_self]
      ring
    · rw [hone, sub_self, sub_self, max_self, zero_mul]
  · have hpos : 0 < 1 - p.overlap q := sub_pos.mpr (lt_of_le_of_ne (p.overlap_le_one q) hne)
    have hpoint : ∀ x, appendedProb p q others x = q.prob x ↔
        (max (q.prob x - p.prob x) 0 - (1 - p.overlap q) * q.prob x) * (1 - others) = 0 := by
      intro x
      have hmin : min (p.prob x) (q.prob x) = q.prob x - max (q.prob x - p.prob x) 0 := by
        rcases le_total (p.prob x) (q.prob x) with h | h
        · rw [min_eq_left h, max_eq_left (sub_nonneg.mpr h), sub_sub_cancel]
        · rw [min_eq_right h, max_eq_right (sub_nonpos.mpr h), sub_zero]
      rw [appendedProb, replacementProb, if_neg hne, hmin]
      field_simp
      constructor <;> intro h <;> linear_combination h
    rw [forall_congr' hpoint]
    constructor
    · intro hall
      rcases eq_or_ne others 1 with hothers | hothers
      · exact Or.inl hothers
      · refine Or.inr fun x => ?_
        have hzero := (mul_eq_zero.mp (hall x)).resolve_right (sub_ne_zero.mpr hothers.symm)
        exact sub_eq_zero.mp hzero
    · rintro (rfl | hall) x
      · rw [sub_self, mul_zero]
      · rw [hall x, sub_self, zero_mul]

end Row

section Others

noncomputable def othersKeep (p q : Fin B → FiniteDistribution V) (b : Fin B) : ℝ :=
  ∏ b' ∈ Finset.univ.erase b, (p b').overlap (q b')

theorem othersKeep_nonneg (p q : Fin B → FiniteDistribution V) (b : Fin B) :
    0 ≤ othersKeep p q b :=
  Finset.prod_nonneg fun b' _ => (p b').overlap_nonneg (q b')

theorem othersKeep_le_one (p q : Fin B → FiniteDistribution V) (b : Fin B) :
    othersKeep p q b ≤ 1 :=
  Finset.prod_le_one (fun b' _ => (p b').overlap_nonneg (q b'))
    fun b' _ => (p b').overlap_le_one (q b')

theorem othersKeep_eq_one_iff (p q : Fin B → FiniteDistribution V) (b : Fin B) :
    othersKeep p q b = 1 ↔ ∀ b' ≠ b, p b' = q b' := by
  constructor
  · intro hone b' hb'
    have hmem : b' ∈ Finset.univ.erase b := Finset.mem_erase.mpr ⟨hb', Finset.mem_univ b'⟩
    have hrest : ∏ a ∈ (Finset.univ.erase b).erase b', (p a).overlap (q a) ≤ 1 :=
      Finset.prod_le_one (fun a _ => (p a).overlap_nonneg (q a))
        fun a _ => (p a).overlap_le_one (q a)
    have hsplit := Finset.mul_prod_erase _ (fun a => (p a).overlap (q a)) hmem
    have hle := (p b').overlap_le_one (q b')
    have hnonneg := (p b').overlap_nonneg (q b')
    rw [show ∏ a ∈ Finset.univ.erase b, (p a).overlap (q a) = 1 from hone] at hsplit
    apply FiniteDistribution.overlap_eq_one_iff.mp
    nlinarith
  · intro hall
    apply Finset.prod_eq_one
    intro b' hb'
    exact FiniteDistribution.overlap_eq_one_iff.mpr (hall b' (Finset.ne_of_mem_erase hb'))

variable [MeasurableSpace S] {P : Measure S} {multinomial : (Fin V → ℝ) → S → Fin V}
  {p q : Fin B → FiniteDistribution V}

theorem measurableSet_passes (hm : SamplesWeights P multinomial) :
    MeasurableSet {draws : PositionDraws ℝ S B |
      ∀ b, draws b ∈ keeps multinomial (p b) (q b)} := by
  have hset : {draws : PositionDraws ℝ S B |
      ∀ b, draws b ∈ keeps multinomial (p b) (q b)} =
        univ.pi fun b => keeps multinomial (p b) (q b) := by
    ext draws
    rw [mem_univ_pi]
    exact Iff.rfl
  rw [hset]
  exact MeasurableSet.univ_pi fun b => measurableSet_keeps hm

end Others

section Calls
variable {multinomial : (Fin V → ℝ) → S → Fin V}
  {sampleNextToken : ProbRows ℝ B V → (Fin B → S) → TokenColumn B V}
  {draft target : List (TokenColumn B V) → Fin B → FiniteDistribution V}
  {h : List (TokenColumn B V)}

theorem passes_iff (draws : PositionDraws ℝ S B) :
    (exactEngine draft target multinomial sampleNextToken).Passes h draws ↔
      ∀ b, draws b ∈ keeps multinomial (draft h b) (target h b) := by
  apply forall_congr'
  intro b
  unfold acceptanceRatio
  rw [show (exactEngine draft target multinomial sampleNextToken).guards.ratio = 0 from rfl,
    add_zero]
  exact Iff.rfl

/-- A row appends its draft token when all rows keep theirs, and a replacement otherwise. -/
theorem appending_eq (b : Fin B) (x : Fin V) :
    (exactEngine draft target multinomial sampleNextToken).appending h b x =
      {draws | (∀ b, draws b ∈ keeps multinomial (draft h b) (target h b)) ∧
          draws b ∈ {s | multinomial (draft h b).prob s.1 = x}} ∪
        ({draws | draws b ∈ {s | s.2.2 ∈ {s | multinomial
            ((exactEngine draft target multinomial sampleNextToken).modifiedDist
              (draft h b).prob (target h b).prob) s = x}}} \
          {draws | (∀ b, draws b ∈ keeps multinomial (draft h b) (target h b)) ∧
            draws b ∈ {s | s.2.2 ∈ {s | multinomial
              ((exactEngine draft target multinomial sampleNextToken).modifiedDist
                (draft h b).prob (target h b).prob) s = x}}}) := by
  ext draws
  have hpasses : (exactEngine draft target multinomial sampleNextToken).Passes h draws ↔
      ∀ b, draws b ∈ keeps multinomial (draft h b) (target h b) := passes_iff draws
  simp only [appending, mem_ofPred_eq, mem_union, mem_sdiff, ← hpasses]
  unfold appendedColumn
  by_cases hpass : (exactEngine draft target multinomial sampleNextToken).Passes h draws
  · rw [if_pos hpass]
    simp only [hpass, true_and, and_not_self, or_false]
    exact Iff.rfl
  · rw [if_neg hpass]
    simp only [hpass, false_and, not_false_eq_true, and_true, false_or]
    exact Iff.rfl

variable [MeasurableSpace S] {P : Measure S}

theorem replacement_law (hm : SamplesWeights P multinomial) (b : Fin B) (x : Fin V) :
    P {s | multinomial ((exactEngine draft target multinomial sampleNextToken).modifiedDist
        (draft h b).prob (target h b).prob) s = x} =
      ENNReal.ofReal (replacementProb (draft h b) (target h b) x) := by
  have hsum := (draft h b).sum_max_sub (target h b)
  have hle := (draft h b).overlap_le_one (target h b)
  unfold modifiedDist replacementProb
  simp only [hsum, exactEngine]
  by_cases hone : (draft h b).overlap (target h b) = 1
  · rw [if_pos (by linarith), if_pos hone]
    exact sampled_law hm x
  · have hlt : 0 < 1 - (draft h b).overlap (target h b) := sub_pos.mpr (lt_of_le_of_ne hle hone)
    rw [if_neg hlt.not_ge, if_neg hone, hm.law _ (fun _ => le_max_right _ _) (hsum ▸ hlt), hsum]

theorem measurableSet_reached (hm : SamplesWeights P multinomial) (hK : h.length < K) :
    MeasurableSet
      ((exactEngine draft target multinomial sampleNextToken).reached K h) := by
  rw [reached_eq hK]
  refine (MeasurableSet.univ_pi fun j => ?_).prod MeasurableSet.univ
  cases hj : h[(j : ℕ)]? with
  | none =>
    have hset : (exactEngine draft target multinomial sampleNextToken).passing h j = univ :=
      eq_univ_of_forall fun draws c hc => nomatch hj.symm.trans hc
    rw [hset]
    exact MeasurableSet.univ
  | some c =>
    have hset : (exactEngine draft target multinomial sampleNextToken).passing h j =
        {draws | (exactEngine draft target multinomial sampleNextToken).draftToken (h.take j)
          draws = c} ∩ {draws | ∀ b, draws b ∈
            keeps multinomial (draft (h.take j) b) (target (h.take j) b)} := by
      ext draws
      constructor
      · intro hall
        obtain ⟨htoken, hpass⟩ := hall c hj
        exact ⟨htoken, (passes_iff draws).mp hpass⟩
      · rintro ⟨htoken, hpass⟩ c' hc'
        obtain rfl := Option.some.inj (hj.symm.trans hc')
        exact ⟨htoken, (passes_iff draws).mpr hpass⟩
    have hdraft : Measurable
        ((exactEngine draft target multinomial sampleNextToken).draftToken (h.take j)) :=
      measurable_pi_lambda _ fun b =>
        (hm.measurable _).comp (measurable_fst.comp (measurable_pi_apply b))
    rw [hset]
    exact (hdraft (measurableSet_singleton c)).inter (measurableSet_passes hm)

end Calls

section Law
variable [MeasurableSpace S] {P : Measure S}

noncomputable def rowLaw (P : Measure S) : Measure (S × ℝ × S) := P.prod (unit.prod P)

noncomputable def positionLaw (P : Measure S) (B : ℕ) : Measure (PositionDraws ℝ S B) :=
  Measure.pi fun _ => rowLaw P

noncomputable def stepLaw (P : Measure S) (B K : ℕ) : Measure (StepDraws S B K) :=
  (Measure.pi fun _ => positionLaw P B).prod (Measure.pi fun _ => P)

variable [IsProbabilityMeasure P]

instance : IsProbabilityMeasure (rowLaw P) := by
  unfold rowLaw
  infer_instance

instance : IsProbabilityMeasure (positionLaw P B) := by
  unfold positionLaw
  infer_instance

instance : IsProbabilityMeasure (stepLaw P B K) := by
  unfold stepLaw
  infer_instance

variable {e : SpeculativeEngine ℝ S B V} {h : List (TokenColumn B V)}

/-- Reaching a position and the draws of that position are independent. -/
theorem stepLaw_reached_inter_appends (hK : h.length < K) (b : Fin B) (x : Fin V) :
    stepLaw P B K (e.reached K h ∩ e.appends K h.length b x) =
      stepLaw P B K (e.reached K h) * positionLaw P B (e.appending h b x) := by
  have hother : ∀ j ∈ Finset.univ.erase (⟨h.length, hK⟩ : Fin K),
      positionLaw P B (Function.update (fun j : Fin K => e.passing h j) ⟨h.length, hK⟩
        (e.appending h b x) j) = positionLaw P B (e.passing h j) := by
    intro j hj
    rw [Function.update_of_ne (Finset.ne_of_mem_erase hj)]
  rw [reached_inter_appends hK, reached_eq hK, stepLaw, Measure.prod_prod, Measure.prod_prod,
    measure_univ, mul_one, mul_one, Measure.pi_pi, Measure.pi_pi,
    ← Finset.mul_prod_erase _ _ (Finset.mem_univ (⟨h.length, hK⟩ : Fin K)),
    ← Finset.mul_prod_erase _ (fun j : Fin K => positionLaw P B (e.passing h j))
      (Finset.mem_univ (⟨h.length, hK⟩ : Fin K)), Finset.prod_congr rfl hother,
    Function.update_self, passing_length, measure_univ, one_mul, mul_comm]

section Kept
variable {multinomial : (Fin V → ℝ) → S → Fin V} {p q : FiniteDistribution V}

/-- A row drafts `x` and keeps it, whatever becomes of its second source. -/
theorem keeps_token_law (hm : SamplesWeights P multinomial) (x : Fin V) (C : Set S) :
    rowLaw P {s | multinomial p.prob s.1 = x ∧ s ∈ keeps multinomial p q ∧ s.2.2 ∈ C} =
      ENNReal.ofReal (min (p.prob x) (q.prob x)) * P C := by
  have hset : {s : S × ℝ × S | multinomial p.prob s.1 = x ∧ s ∈ keeps multinomial p q ∧
      s.2.2 ∈ C} = {s | multinomial p.prob s = x} ×ˢ (Iio (exactRatio p q x) ×ˢ C) := by
    ext s
    simp only [keeps, mem_ofPred_eq, mem_prod, mem_Iio]
    apply and_congr_right
    intro hx
    rw [hx]
  rw [hset, rowLaw, Measure.prod_prod, Measure.prod_prod, sampled_law hm,
    unit_Iio (exactRatio_nonneg x) (min_le_left _ _), ← mul_assoc,
    ← ENNReal.ofReal_mul (p.nonneg x), mul_exactRatio]

/-- A row keeps its draft token with the mass that the two distributions share. -/
theorem keeps_law (hm : SamplesWeights P multinomial) {C : Set S} (hC : MeasurableSet C) :
    rowLaw P {s | s ∈ keeps multinomial p q ∧ s.2.2 ∈ C} =
      ENNReal.ofReal (p.overlap q) * P C := by
  have hset : {s : S × ℝ × S | s ∈ keeps multinomial p q ∧ s.2.2 ∈ C} = ⋃ x : Fin V,
      {s | multinomial p.prob s.1 = x ∧ s ∈ keeps multinomial p q ∧ s.2.2 ∈ C} := by
    ext s
    simp
  have hdisjoint : Pairwise (Function.onFun Disjoint fun x : Fin V =>
      {s : S × ℝ × S | multinomial p.prob s.1 = x ∧ s ∈ keeps multinomial p q ∧ s.2.2 ∈ C}) := by
    intro x y hxy
    rw [Function.onFun, Set.disjoint_left]
    exact fun s hx hy => hxy (hx.1.symm.trans hy.1)
  have hmeasurable : ∀ x : Fin V, MeasurableSet
      {s : S × ℝ × S | multinomial p.prob s.1 = x ∧ s ∈ keeps multinomial p q ∧ s.2.2 ∈ C} := by
    intro x
    have hdraft : Measurable fun s : S × ℝ × S => multinomial p.prob s.1 :=
      (hm.measurable p.prob).comp measurable_fst
    have hsecond : Measurable fun s : S × ℝ × S => s.2.2 := measurable_snd.comp measurable_snd
    exact (hdraft (measurableSet_singleton x)).inter
      ((measurableSet_keeps hm).inter (hsecond hC))
  rw [hset, measure_iUnion hdisjoint hmeasurable, tsum_fintype, FiniteDistribution.overlap,
    ENNReal.ofReal_sum_of_nonneg fun x _ => le_min (p.nonneg x) (q.nonneg x), Finset.sum_mul]
  exact Finset.sum_congr rfl fun x _ => keeps_token_law hm x C

end Kept

section Rows
variable {multinomial : (Fin V → ℝ) → S → Fin V} {p q : Fin B → FiniteDistribution V}

/-- All rows pass, and one of them with draws from a set. -/
theorem passes_inter_law (hm : SamplesWeights P multinomial) (b : Fin B) (D : Set (S × ℝ × S)) :
    positionLaw P B {draws | (∀ b, draws b ∈ keeps multinomial (p b) (q b)) ∧
        draws b ∈ D} =
      rowLaw P (keeps multinomial (p b) (q b) ∩ D) *
        ENNReal.ofReal (othersKeep p q b) := by
  have hset : {draws : PositionDraws ℝ S B |
      (∀ b, draws b ∈ keeps multinomial (p b) (q b)) ∧ draws b ∈ D} =
      univ.pi (Function.update (fun b => keeps multinomial (p b) (q b)) b
        (keeps multinomial (p b) (q b) ∩ D)) := by
    ext draws
    rw [mem_univ_pi]
    constructor
    · rintro ⟨hall, hD⟩ b'
      rcases eq_or_ne b' b with rfl | hne
      · rw [Function.update_self]
        exact ⟨hall b', hD⟩
      · rw [Function.update_of_ne hne]
        exact hall b'
    · intro hall
      have hb := hall b
      rw [Function.update_self] at hb
      refine ⟨fun b' => ?_, hb.2⟩
      rcases eq_or_ne b' b with rfl | hne
      · exact hb.1
      · have hb' := hall b'
        rwa [Function.update_of_ne hne] at hb'
  have hother : ∀ b' ∈ Finset.univ.erase b,
      rowLaw P (Function.update (fun b => keeps multinomial (p b) (q b)) b
        (keeps multinomial (p b) (q b) ∩ D) b') =
      ENNReal.ofReal ((p b').overlap (q b')) := by
    intro b' hb'
    have hlaw := keeps_law (p := p b') (q := q b') hm MeasurableSet.univ
    rw [measure_univ, mul_one] at hlaw
    rw [Function.update_of_ne (Finset.ne_of_mem_erase hb'), ← hlaw]
    congr 1
    ext s
    simp
  rw [hset, positionLaw, Measure.pi_pi, ← Finset.mul_prod_erase _ _ (Finset.mem_univ b),
    Finset.prod_congr rfl hother, Function.update_self, othersKeep,
    ENNReal.ofReal_prod_of_nonneg fun b' _ => (p b').overlap_nonneg (q b')]

theorem accepted_law (hm : SamplesWeights P multinomial) (b : Fin B) (x : Fin V) :
    positionLaw P B {draws | (∀ b, draws b ∈ keeps multinomial (p b) (q b)) ∧
        draws b ∈ {s | multinomial (p b).prob s.1 = x}} =
      ENNReal.ofReal (min ((p b).prob x) ((q b).prob x) *
        othersKeep p q b) := by
  have htoken : rowLaw P (keeps multinomial (p b) (q b) ∩
      {s | multinomial (p b).prob s.1 = x}) =
        ENNReal.ofReal (min ((p b).prob x) ((q b).prob x)) := by
    have hlaw := keeps_token_law (p := p b) (q := q b) hm x univ
    rw [measure_univ, mul_one] at hlaw
    rw [← hlaw]
    congr 1
    ext s
    simp [and_comm]
  rw [passes_inter_law hm, htoken,
    ← ENNReal.ofReal_mul (le_min ((p b).nonneg x) ((q b).nonneg x))]

theorem accepted_second_law (hm : SamplesWeights P multinomial) (b : Fin B) {C : Set S}
    (hC : MeasurableSet C) :
    positionLaw P B {draws | (∀ b, draws b ∈ keeps multinomial (p b) (q b)) ∧
        draws b ∈ {s | s.2.2 ∈ C}} =
      ENNReal.ofReal ((p b).overlap (q b) * othersKeep p q b) *
        P C := by
  have hrow : keeps multinomial (p b) (q b) ∩ {s | s.2.2 ∈ C} =
      {s | s ∈ keeps multinomial (p b) (q b) ∧ s.2.2 ∈ C} := rfl
  rw [passes_inter_law hm, hrow, keeps_law hm hC,
    ENNReal.ofReal_mul ((p b).overlap_nonneg (q b)), mul_right_comm]

theorem second_law (b : Fin B) {C : Set S} (hC : MeasurableSet C) :
    positionLaw P B {draws | draws b ∈ {s | s.2.2 ∈ C}} = P C := by
  have hsecond : Measurable fun s : S × ℝ × S => s.2.2 := measurable_snd.comp measurable_snd
  have hset : {s : S × ℝ × S | s.2.2 ∈ C} = univ ×ˢ (univ ×ˢ C) := by
    ext s
    simp
  have heval := (measurePreserving_eval (fun _ : Fin B => rowLaw P) b).measure_preimage
    (hsecond hC).nullMeasurableSet
  have hrow : rowLaw P {s : S × ℝ × S | s.2.2 ∈ C} = P C := by
    rw [hset, rowLaw, Measure.prod_prod, Measure.prod_prod, measure_univ, measure_univ, one_mul,
      one_mul]
  exact heval.trans hrow

end Rows

section Position
variable {multinomial : (Fin V → ℝ) → S → Fin V}
  {sampleNextToken : ProbRows ℝ B V → (Fin B → S) → TokenColumn B V}
  {draft target : List (TokenColumn B V) → Fin B → FiniteDistribution V}

/-- The law of the token that a row appends. -/
theorem appending_law (hm : SamplesWeights P multinomial) (b : Fin B) (x : Fin V) :
    positionLaw P B ((exactEngine draft target multinomial sampleNextToken).appending h b x) =
      ENNReal.ofReal (appendedProb (draft h b) (target h b)
        (othersKeep (draft h) (target h) b) x) := by
  have hreplaced : P {s | multinomial
      ((exactEngine draft target multinomial sampleNextToken).modifiedDist (draft h b).prob
        (target h b).prob) s = x} =
      ENNReal.ofReal (replacementProb (draft h b) (target h b) x) := replacement_law hm b x
  have hC : MeasurableSet {s | multinomial
      ((exactEngine draft target multinomial sampleNextToken).modifiedDist (draft h b).prob
        (target h b).prob) s = x} := hm.measurable _ (measurableSet_singleton x)
  rw [appending_eq]
  generalize (exactEngine draft target multinomial sampleNextToken).modifiedDist
    (draft h b).prob (target h b).prob = weights at hreplaced hC ⊢
  have hothers := othersKeep_nonneg (draft h) (target h) b
  have hoverlap := (draft h b).overlap_nonneg (target h b)
  have hboth : (draft h b).overlap (target h b) * othersKeep (draft h) (target h) b ≤ 1 :=
    overlap_mul_le_one hothers (othersKeep_le_one (draft h) (target h) b)
  have hr := replacementProb_nonneg (p := draft h b) (q := target h b) x
  have hmin : 0 ≤ min ((draft h b).prob x) ((target h b).prob x) :=
    le_min ((draft h b).nonneg x) ((target h b).nonneg x)
  have hsecond : Measurable fun s : S × ℝ × S => s.2.2 := measurable_snd.comp measurable_snd
  have hreplacing : MeasurableSet {draws : PositionDraws ℝ S B |
      draws b ∈ {s | s.2.2 ∈ {s | multinomial weights s = x}}} :=
    (measurable_pi_apply b) (hsecond hC)
  have hkeeping : MeasurableSet {draws : PositionDraws ℝ S B |
      (∀ b, draws b ∈ keeps multinomial (draft h b) (target h b)) ∧
        draws b ∈ {s | s.2.2 ∈ {s | multinomial weights s = x}}} :=
    (measurableSet_passes hm).inter hreplacing
  rw [measure_union _ (hreplacing.diff hkeeping), measure_sdiff _ hkeeping.nullMeasurableSet
    (measure_ne_top _ _), accepted_law hm, accepted_second_law hm b hC, second_law b hC,
    hreplaced, ← ENNReal.ofReal_mul (mul_nonneg hoverlap hothers),
    ← ENNReal.ofReal_sub _ (mul_nonneg (mul_nonneg hoverlap hothers) hr),
    ← ENNReal.ofReal_add (mul_nonneg hmin hothers)]
  · congr 1
    rw [appendedProb]
    ring
  · nlinarith
  · exact fun draws hdraws => hdraws.2
  · rw [Set.disjoint_left]
    exact fun draws hkept hreplaced' => hreplaced'.2 ⟨hkept.1, hreplaced'.1⟩

/-- Given that the step appends the columns of `h` and goes on, the token that it appends behind
them has in every row the law of the target distribution. -/
def LosslessBehind (P : Measure S) (multinomial : (Fin V → ℝ) → S → Fin V)
    (sampleNextToken : ProbRows ℝ B V → (Fin B → S) → TokenColumn B V)
    (draft target : List (TokenColumn B V) → Fin B → FiniteDistribution V) (K : ℕ)
    (h : List (TokenColumn B V)) : Prop :=
  ∀ b x, ProbabilityTheory.cond (stepLaw P B K)
    ((exactEngine draft target multinomial sampleNextToken).reached K h)
    ((exactEngine draft target multinomial sampleNextToken).appends K h.length b x) =
      ENNReal.ofReal ((target h b).prob x)

/-- No row is held up by the others: they always keep their draft tokens, or the residual of the
row is a multiple of its target distribution. -/
def Uncoupled (draft target : Fin B → FiniteDistribution V) : Prop :=
  ∀ b, (∀ b' ≠ b, draft b' = target b') ∨
    ∀ x, max ((target b).prob x - (draft b).prob x) 0 =
      (∑ y, max ((target b).prob y - (draft b).prob y) 0) * (target b).prob x

/-- What a row appends, given that the step reaches the position. -/
theorem cond_appends (hm : SamplesWeights P multinomial) (hK : h.length < K)
    (hreach : stepLaw P B K
      ((exactEngine draft target multinomial sampleNextToken).reached K h) ≠ 0)
    (b : Fin B) (x : Fin V) :
    ProbabilityTheory.cond (stepLaw P B K)
      ((exactEngine draft target multinomial sampleNextToken).reached K h)
      ((exactEngine draft target multinomial sampleNextToken).appends K h.length b x) =
        ENNReal.ofReal (appendedProb (draft h b) (target h b)
          (othersKeep (draft h) (target h) b) x) := by
  rw [ProbabilityTheory.cond_apply (measurableSet_reached hm hK),
    stepLaw_reached_inter_appends hK, appending_law hm, ← mul_assoc,
    ENNReal.inv_mul_cancel hreach (measure_ne_top _ _), one_mul]

/-- Given that the step reaches a position, the token that it appends there has in every row the law
of the target distribution exactly when no row is held up by the others. -/
theorem losslessBehind_iff_uncoupled (hm : SamplesWeights P multinomial) (hK : h.length < K)
    (hreach : stepLaw P B K
      ((exactEngine draft target multinomial sampleNextToken).reached K h) ≠ 0) :
    LosslessBehind P multinomial sampleNextToken draft target K h ↔
      Uncoupled (draft h) (target h) := by
  apply forall_congr'
  intro b
  rw [← othersKeep_eq_one_iff (draft h) (target h) b, ← rowExact_iff]
  apply forall_congr'
  intro x
  have hnonneg : 0 ≤ appendedProb (draft h b) (target h b)
      (othersKeep (draft h) (target h) b) x :=
    appendedProb_nonneg (othersKeep_nonneg (draft h) (target h) b)
      (othersKeep_le_one (draft h) (target h) b) x
  rw [cond_appends hm hK hreach, ENNReal.ofReal_eq_ofReal_iff hnonneg ((target h b).nonneg x)]

end Position

end Law

section Coins

noncomputable def flip (w : Fin 2 → ℝ) (r : ℝ) : Fin 2 := if r * (w 0 + w 1) < w 0 then 0 else 1

theorem flip_samplesWeights : SamplesWeights unit flip where
  measurable w := by
    have hset : MeasurableSet {r : ℝ | r * (w 0 + w 1) < w 0} :=
      measurableSet_lt (measurable_id.mul_const _) measurable_const
    exact Measurable.ite hset measurable_const measurable_const
  law w hw hsum x := by
    rw [Fin.sum_univ_two] at hsum ⊢
    have hle : w 0 / (w 0 + w 1) ≤ 1 := by
      rw [div_le_one hsum]
      linarith [hw 1]
    have hnonneg : 0 ≤ w 0 / (w 0 + w 1) := div_nonneg (hw 0) hsum.le
    have hzero : {r | flip w r = 0} = Iio (w 0 / (w 0 + w 1)) := by
      ext r
      rw [mem_Iio, lt_div_iff₀ hsum, mem_ofPred_eq, flip]
      split_ifs with h <;> simp [h]
    have hlaw := unit_Iio hnonneg hle
    rw [← hzero] at hlaw
    have hcases : x = 0 ∨ x = 1 := by omega
    rcases hcases with rfl | rfl
    · exact hlaw
    · have hone : {r | flip w r = 1} = {r | flip w r = 0}ᶜ := by
        ext r
        rw [mem_compl_iff, mem_ofPred_eq, mem_ofPred_eq]
        omega
      have hmeasurable : MeasurableSet {r | flip w r = 0} := hzero ▸ measurableSet_Iio
      have hsplit : w 1 / (w 0 + w 1) = 1 - w 0 / (w 0 + w 1) := by
        rw [eq_sub_iff_add_eq, ← add_div, add_comm, div_self hsum.ne']
      rw [hone, prob_compl_eq_one_sub hmeasurable, hlaw, hsplit, ENNReal.ofReal_sub _ hnonneg,
        ENNReal.ofReal_one]

noncomputable def fair : FiniteDistribution 2 where
  prob := ![1 / 2, 1 / 2]
  nonneg x := by fin_cases x <;> norm_num
  sum_eq_one := by norm_num

noncomputable def biased : FiniteDistribution 2 where
  prob := ![3 / 4, 1 / 4]
  nonneg x := by fin_cases x <;> norm_num
  sum_eq_one := by norm_num

theorem first_position_reached :
    stepLaw unit 2 1 ((exactEngine (fun _ _ => fair) (fun _ _ => biased) flip
      fun _ _ _ => 0).reached 1 []) ≠ 0 := by
  have hall : (exactEngine (fun _ _ => fair) (fun _ _ => biased) flip
      fun _ _ _ => 0).reached 1 ([] : List (TokenColumn 2 2)) = univ := by
    rw [reached_eq Nat.zero_lt_one]
    apply eq_univ_of_forall
    intro ω
    rw [mem_prod, mem_univ_pi]
    exact ⟨fun j c hc => (nomatch hc), mem_univ _⟩
  rw [hall, measure_univ]
  exact one_ne_zero

theorem losslessBehind_iff_uncoupled_flip :
    LosslessBehind unit flip (fun _ _ _ => 0) (fun _ _ => fair) (fun _ _ => biased) 1
        ([] : List (TokenColumn 2 2)) ↔
      Uncoupled (B := 2) (fun _ => fair) fun _ => biased :=
  losslessBehind_iff_uncoupled flip_samplesWeights Nat.zero_lt_one first_position_reached

/-- Two rows that both draft from a fair coin towards a biased one. The first token then has
probability 13/16 instead of 3/4. -/
theorem coupled_rows_biased :
    ¬ LosslessBehind unit flip (fun _ _ _ => 0) (fun _ _ => fair) (fun _ _ => biased) 1
      ([] : List (TokenColumn 2 2)) := by
  intro h
  have hlaw := h 0 0
  have hoverlap : fair.overlap biased = 3 / 4 := by
    norm_num [FiniteDistribution.overlap, fair, biased]
  have hothers : othersKeep (B := 2) (fun _ => fair) (fun _ => biased) 0 = 3 / 4 := by
    rw [othersKeep, show Finset.univ.erase (0 : Fin 2) = {1} from by decide,
      Finset.prod_singleton, hoverlap]
  have hreplace : replacementProb fair biased 0 = 1 := by
    rw [replacementProb, hoverlap]
    norm_num [fair, biased]
  rw [cond_appends flip_samplesWeights Nat.zero_lt_one first_position_reached, appendedProb,
    hoverlap, hothers, hreplace, ENNReal.ofReal_eq_ofReal_iff] at hlaw <;>
    norm_num [fair, biased] at *

end Coins

end SpeculativeEngine
end CudaForge.Engine
