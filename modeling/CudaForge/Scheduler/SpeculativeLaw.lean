import CudaForge.Library.UniformDraw
import CudaForge.Scheduler.Speculative

/-! The law of the tokens that stochastic verification emits. -/
namespace CudaForge.Scheduler
open MeasureTheory Numerals Set UniformDraw

namespace SpeculativeEngine
variable {K V : ℕ}

section Sampling

/-- The selected index is the one whose partial sums enclose the draw. -/
theorem sampleLoop_eq {r : ℝ} {probs : List ℝ} (hnonneg : ∀ p ∈ probs, 0 ≤ p) (cumulative : ℝ)
    (i x : ℕ) : sampleLoop r probs cumulative i = some (i + x) ↔
      x < probs.length ∧ r ≤ cumulative + (probs.take (x + 1)).sum ∧
        (x = 0 ∨ cumulative + (probs.take x).sum < r) := by
  induction probs generalizing cumulative i x with
  | nil => simp [sampleLoop]
  | cons p probs ih =>
    have hprobs : ∀ p ∈ probs, 0 ≤ p := fun p hp => hnonneg p (List.mem_cons_of_mem _ hp)
    unfold sampleLoop
    cases x with
    | zero =>
      simp only [List.length_cons, Nat.zero_lt_succ, List.take_succ_cons, List.take_zero,
        List.sum_cons, List.sum_nil, add_zero, true_and, true_or, and_true]
      split_ifs with hr
      · exact iff_of_true rfl hr
      · exact iff_of_false (fun h => Nat.not_succ_le_self i (le_of_sampleLoop h)) hr
    | succ x =>
      have hsum : 0 ≤ (probs.take x).sum :=
        List.sum_nonneg fun p hp => hprobs p (List.mem_of_mem_take hp)
      simp only [List.length_cons, Nat.succ_lt_succ_iff, List.take_succ_cons, List.sum_cons,
        Nat.succ_ne_zero, false_or, ← add_assoc]
      split_ifs with hr
      · refine iff_of_false (fun h => ?_) fun h => ?_
        · exact absurd (Option.some.inj h) (by omega)
        · linarith [h.2.2]
      · rw [show i + x + 1 = i + 1 + x by omega, ih hprobs]
        refine and_congr_right fun _ => and_congr_right fun _ => ?_
        constructor
        · rintro (rfl | h)
          · simpa using hr
          · exact h
        · exact Or.inr

noncomputable def sampleAt (probs : List ℝ) (r : ℝ) : ℤ :=
  (sampleFromDistribution probs fun _ => r).1

theorem sampleFromDistribution_fst (probs : List ℝ) (rng : Draws ℝ) :
    (sampleFromDistribution probs rng).1 = sampleAt probs (rng 0) := by
  unfold sampleAt sampleFromDistribution
  cases sampleLoop (rng 0) probs 0 0 <;> rfl

/-- The probability of the indices below `n`. -/
noncomputable def partialSum (d : FiniteDistribution V) (n : ℕ) : ℝ :=
  ((List.ofFn d.prob).take n).sum

theorem partialSum_succ (d : FiniteDistribution V) (x : Fin V) :
    partialSum d (x + 1) = partialSum d x + d.prob x := by
  have hlt : x.val < (List.ofFn d.prob).length := by
    rw [List.length_ofFn]
    exact x.isLt
  rw [partialSum, partialSum, List.sum_take_succ _ _ hlt, List.getElem_ofFn]

theorem partialSum_nonneg (d : FiniteDistribution V) (n : ℕ) : 0 ≤ partialSum d n := by
  apply List.sum_nonneg
  intro p hp
  obtain ⟨x, rfl⟩ := (List.mem_ofFn' _ _).mp (List.mem_of_mem_take hp)
  exact d.nonneg x

theorem partialSum_le_one (d : FiniteDistribution V) (n : ℕ) : partialSum d n ≤ 1 := by
  have hsplit : partialSum d n + ((List.ofFn d.prob).drop n).sum = 1 := by
    rw [partialSum, ← List.sum_append, List.take_append_drop, List.sum_ofFn, d.sum_eq_one]
  have hdrop : 0 ≤ ((List.ofFn d.prob).drop n).sum := by
    apply List.sum_nonneg
    intro p hp
    obtain ⟨x, rfl⟩ := (List.mem_ofFn' _ _).mp (List.mem_of_mem_drop hp)
    exact d.nonneg x
  linarith

theorem sampleAt_eq (d : FiniteDistribution V) (x : Fin V) {r : ℝ} (hr : r < 1) :
    sampleAt (List.ofFn d.prob) r = x ↔
      r ≤ partialSum d (x + 1) ∧ (x.val = 0 ∨ partialSum d x < r) := by
  have hnonneg : ∀ p ∈ List.ofFn d.prob, 0 ≤ p := by
    intro p hp
    obtain ⟨x, rfl⟩ := (List.mem_ofFn' _ _).mp hp
    exact d.nonneg x
  have hloop := sampleLoop_eq (r := r) hnonneg 0 0 x
  simp only [zero_add, List.length_ofFn, x.isLt, true_and] at hloop
  unfold partialSum
  rw [← hloop, sampleAt, sampleFromDistribution]
  cases hs : sampleLoop r (List.ofFn d.prob) 0 0 with
  | none =>
    have hne : List.ofFn d.prob ≠ [] := by
      rw [← List.length_pos_iff, List.length_ofFn]
      exact x.pos
    have hlt := sampleLoop_none hne hs
    rw [List.sum_ofFn, d.sum_eq_one, zero_add] at hlt
    exact absurd hlt hr.not_gt
  | some j => simp

/-- A uniform draw selects an index with its probability. -/
theorem sampleAt_law (d : FiniteDistribution V) (x : Fin V) :
    unit {r | sampleAt (List.ofFn d.prob) r = x} = ENNReal.ofReal (d.prob x) := by
  have hsucc := partialSum_succ d x
  rcases Nat.eq_zero_or_pos x.val with hzero | hpos
  · have hset : unit {r | sampleAt (List.ofFn d.prob) r = x} = unit (Iic (partialSum d (x + 1))) :=
      unit_congr fun r _ hr => by
        rw [mem_ofPred_eq, sampleAt_eq d x hr]
        exact and_iff_left (Or.inl hzero)
    have hstart : partialSum d x = 0 := by simp [partialSum, hzero]
    rw [hset, unit_Iic (partialSum_nonneg d _) (partialSum_le_one d _), hsucc, hstart, zero_add]
  · have hset : unit {r | sampleAt (List.ofFn d.prob) r = x} =
        unit (Ioc (partialSum d x) (partialSum d (x + 1))) :=
      unit_congr fun r _ hr => by
        simp only [mem_ofPred_eq, sampleAt_eq d x hr, hpos.ne', false_or, mem_Ioc]
        exact and_comm
    rw [hset, unit_Ioc (partialSum_nonneg d _) (by linarith [d.nonneg x]) (partialSum_le_one d _),
      hsucc, add_sub_cancel_left]

end Sampling

section Residual

/-- The mass of `max(0, p - q)`. -/
noncomputable def residualMass (p q : FiniteDistribution V) : ℝ := ∑ x, max 0 (p.prob x - q.prob x)

theorem max_eq_sub_min (p q : ℝ) : max 0 (p - q) = p - min q p := by
  rcases le_total q p with h | h
  · rw [min_eq_left h, max_eq_right (by linarith)]
  · rw [min_eq_right h, max_eq_left (by linarith), sub_self]

theorem residualMass_eq (p q : FiniteDistribution V) :
    residualMass p q = 1 - ∑ x, min (q.prob x) (p.prob x) := by
  simp only [residualMass, max_eq_sub_min, Finset.sum_sub_distrib, p.sum_eq_one]

noncomputable def adjusted (p q : FiniteDistribution V) (h : residualMass p q ≠ 0) :
    FiniteDistribution V where
  prob x := max 0 (p.prob x - q.prob x) / residualMass p q
  nonneg x := div_nonneg (le_max_left _ _)
    (Finset.sum_nonneg fun x _ => le_max_left 0 (p.prob x - q.prob x))
  sum_eq_one := by rw [← Finset.sum_div]; exact div_self h

theorem zipWith_ofFn {f g : Fin V → ℝ} (op : ℝ → ℝ → ℝ) :
    List.zipWith op (List.ofFn f) (List.ofFn g) = List.ofFn fun x => op (f x) (g x) := by
  apply List.ext_getElem
  · simp
  · intro i h₁ h₂
    simp

theorem sampleAdjustedDistribution_fst (p q : FiniteDistribution V) (rng : Draws ℝ) :
    (sampleAdjustedDistribution (List.ofFn p.prob) (List.ofFn q.prob) rng).1 =
      if h : residualMass p q ≤ residualEps then sampleAt (List.ofFn p.prob) (rng 0)
      else sampleAt (List.ofFn (adjusted p q fun h0 => h (by rw [h0, residualEps]; norm_num)).prob)
        (rng 0) := by
  have hsum : (List.ofFn fun x => max 0 (p.prob x - q.prob x)).foldl (· + ·) 0 =
      residualMass p q := by
    rw [← List.sum_eq_foldl, List.sum_ofFn, residualMass]
  unfold sampleAdjustedDistribution
  simp only [zipWith_ofFn, hsum]
  split_ifs with h
  · exact sampleFromDistribution_fst _ _
  · rw [sampleFromDistribution_fst, List.map_ofFn]
    rfl

end Residual

section Step

noncomputable def acceptSet (p q : FiniteDistribution V) : Set (Fin V × ℝ) :=
  {d | d.2 ≤ acceptanceRatio (q.prob d.1) (p.prob d.1)}

theorem acceptanceRatio_mem {q p : ℝ} (hp : 0 ≤ p) :
    0 ≤ acceptanceRatio q p ∧ acceptanceRatio q p ≤ 1 := by
  unfold acceptanceRatio
  split_ifs with h
  · exact ⟨le_min zero_le_one (div_nonneg hp h.le), min_le_left _ _⟩
  · exact ⟨le_rfl, zero_le_one⟩

theorem mul_acceptanceRatio {q p : ℝ} (hq : 0 ≤ q) (hp : 0 ≤ p) :
    q * acceptanceRatio q p = min q p := by
  unfold acceptanceRatio
  split_ifs with h
  · rw [mul_min_of_nonneg _ _ hq, mul_one, mul_div_cancel₀ _ h.ne']
  · have hzero : q = 0 := le_antisymm (not_lt.mp h) hq
    rw [hzero, zero_mul, min_eq_left hp]

/-- The draft proposes `x` and it is accepted. -/
theorem accept_law (p q : FiniteDistribution V) (x : Fin V) :
    (q.law.prod unit) {d | d.1 = x ∧ d ∈ acceptSet p q} =
      ENNReal.ofReal (min (q.prob x) (p.prob x)) := by
  have hset : {d : Fin V × ℝ | d.1 = x ∧ d ∈ acceptSet p q} =
      {x} ×ˢ Iic (acceptanceRatio (q.prob x) (p.prob x)) := by
    ext ⟨y, r⟩
    simp only [acceptSet, mem_ofPred_eq, mem_prod, mem_singleton_iff, mem_Iic]
    apply and_congr_right
    intro h
    rw [h]
  obtain ⟨h₀, h₁⟩ := acceptanceRatio_mem (q := q.prob x) (p.nonneg x)
  rw [hset, Measure.prod_prod, q.law_singleton, unit_Iic h₀ h₁, ← ENNReal.ofReal_mul (q.nonneg x),
    mul_acceptanceRatio (q.nonneg x) (p.nonneg x)]

theorem measurableSet_acceptSet (p q : FiniteDistribution V) : MeasurableSet (acceptSet p q) := by
  have hset : acceptSet p q =
      ⋃ x : Fin V, {x} ×ˢ Iic (acceptanceRatio (q.prob x) (p.prob x)) := by
    ext ⟨y, r⟩
    simp [acceptSet]
  rw [hset]
  exact MeasurableSet.iUnion fun x => (measurableSet_singleton x).prod measurableSet_Iic

/-- A candidate is rejected with the residual's mass. -/
theorem reject_law (p q : FiniteDistribution V) :
    (q.law.prod unit) (acceptSet p q)ᶜ = ENNReal.ofReal (residualMass p q) := by
  have hset : acceptSet p q = ⋃ x : Fin V, {d | d.1 = x ∧ d ∈ acceptSet p q} := by
    ext d
    simp
  have hdisjoint : Pairwise (Function.onFun Disjoint
      fun x : Fin V => {d : Fin V × ℝ | d.1 = x ∧ d ∈ acceptSet p q}) := by
    intro x y hxy
    rw [Function.onFun, Set.disjoint_left]
    exact fun d hx hy => hxy (hx.1.symm.trans hy.1)
  have hmeasurable : ∀ x : Fin V, MeasurableSet {d : Fin V × ℝ | d.1 = x ∧ d ∈ acceptSet p q} :=
    fun x => (measurable_fst (measurableSet_singleton x)).inter (measurableSet_acceptSet p q)
  have haccept : (q.law.prod unit) (acceptSet p q) =
      ENNReal.ofReal (∑ x, min (q.prob x) (p.prob x)) := by
    rw [hset, measure_iUnion hdisjoint hmeasurable, tsum_fintype,
      ENNReal.ofReal_sum_of_nonneg fun x _ => le_min (q.nonneg x) (p.nonneg x)]
    exact Finset.sum_congr rfl fun x _ => accept_law p q x
  rw [prob_compl_eq_one_sub (measurableSet_acceptSet p q), haccept, residualMass_eq,
    ENNReal.ofReal_sub _ (Finset.sum_nonneg fun x _ => le_min (q.nonneg x) (p.nonneg x)),
    ENNReal.ofReal_one]

noncomputable def replacementAt (p q : FiniteDistribution V) (r : ℝ) : ℤ :=
  (sampleAdjustedDistribution (List.ofFn p.prob) (List.ofFn q.prob) fun _ => r).1

/-- Accepted and replaced candidates together have the target's probability. -/
theorem step_law (p q : FiniteDistribution V) (x : Fin V)
    (hres : residualMass p q = 0 ∨ residualEps < residualMass p q) :
    (q.law.prod unit) {d | d.1 = x ∧ d ∈ acceptSet p q} +
      (q.law.prod unit) (acceptSet p q)ᶜ * unit {r | replacementAt p q r = x} =
        ENNReal.ofReal (p.prob x) := by
  have hmax : 0 ≤ max 0 (p.prob x - q.prob x) := le_max_left _ _
  have hmass : 0 ≤ residualMass p q :=
    Finset.sum_nonneg fun x _ => le_max_left 0 (p.prob x - q.prob x)
  have hmin : 0 ≤ min (q.prob x) (p.prob x) := le_min (q.nonneg x) (p.nonneg x)
  have hsplit : p.prob x = min (q.prob x) (p.prob x) + max 0 (p.prob x - q.prob x) := by
    rw [max_eq_sub_min]
    ring
  rw [accept_law, reject_law]
  rcases hres with hzero | hlt
  · have hx : max 0 (p.prob x - q.prob x) = 0 :=
      (Finset.sum_eq_zero_iff_of_nonneg fun x _ => le_max_left 0 (p.prob x - q.prob x)).mp hzero x
        (Finset.mem_univ x)
    rw [hzero, ENNReal.ofReal_zero, zero_mul, add_zero, hsplit, hx, add_zero]
    simp
  · have hne : residualMass p q ≠ 0 := by
      have heps : (0 : ℝ) < residualEps := by norm_num [residualEps]
      exact (heps.trans hlt).ne'
    have hreplace : unit {r | replacementAt p q r = x} =
        ENNReal.ofReal (max 0 (p.prob x - q.prob x) / residualMass p q) := by
      have hlaw := sampleAt_law (adjusted p q hne) x
      simp only [replacementAt, sampleAdjustedDistribution_fst, hlt.not_ge, dif_neg, not_false_iff]
      exact hlaw
    rw [hreplace, ← ENNReal.ofReal_mul hmass, mul_div_cancel₀ _ hne,
      ← ENNReal.ofReal_add hmin hmax, ← hsplit]

end Step

section Run

def emitted (result : SpeculativeVerificationResult) : List ℤ :=
  result.acceptedTokens ++ [result.finalToken]

/-- Position `i` is reached: all earlier candidates are accepted and none ends the sequence. -/
def Reaches (eosTokenId : ℤ) (i : ℕ) (result : SpeculativeVerificationResult) : Prop :=
  i ≤ result.acceptedTokens.length ∧ eosTokenId ∉ result.acceptedTokens.take i

theorem reaches_iff (eosTokenId : ℤ) (i : ℕ) (result : SpeculativeVerificationResult) :
    Reaches eosTokenId i result ↔
      i < (emitted result).length ∧ eosTokenId ∉ (emitted result).take i := by
  unfold Reaches emitted
  rw [List.length_append, List.length_singleton, Nat.lt_succ_iff]
  apply and_congr_right
  intro h
  rw [List.take_append_of_le_length h]

theorem emitted_endWith (result : SpeculativeVerificationResult) (finalToken eosTokenId : ℤ) :
    emitted (endWith result finalToken eosTokenId) = result.acceptedTokens ++ [finalToken] := by
  unfold endWith
  split_ifs <;> rfl

/-- The accumulated result is a prefix of what the loop emits. -/
theorem emitted_verifyLoop (eosTokenId : ℤ) (draftTokens : List ℤ)
    (draftProbs targetProbs : List (List ℝ)) (rng : Draws ℝ)
    (result : SpeculativeVerificationResult) :
    emitted (verifyLoop eosTokenId draftTokens draftProbs targetProbs rng result).1 =
      result.acceptedTokens ++
        emitted (verifyLoop eosTokenId draftTokens draftProbs targetProbs rng {}).1 := by
  induction draftTokens generalizing draftProbs targetProbs rng result with
  | nil => simp [verifyLoop, emitted_endWith]
  | cons token draftTokens ih =>
    unfold verifyLoop
    dsimp only
    split_ifs with haccept heos
    · simp [emitted, acceptToken]
    · rw [ih, ih _ _ _ (acceptToken {} token)]
      simp [acceptToken]
    · simp [emitted_endWith]

abbrev Randomness (K V : ℕ) := (Fin K → Fin V × ℝ) × ℝ

/-- Candidate `i` is drawn from `draft i`; everything is independent. -/
noncomputable def randomnessLaw (draft : Fin K → FiniteDistribution V) : Measure (Randomness K V) :=
  (Measure.pi fun i => (draft i).law.prod unit).prod unit

def draws (ω : Randomness K V) : Draws ℝ := fun n => if h : n < K then (ω.1 ⟨n, h⟩).2 else ω.2

def drawnTokens (ω : Randomness K V) : List ℤ := List.ofFn fun i => ((ω.1 i).1 : ℤ)

def rows {n : ℕ} (d : Fin n → FiniteDistribution V) : List (List ℝ) :=
  List.ofFn fun i => List.ofFn (d i).prob

noncomputable def verify (draft : Fin K → FiniteDistribution V)
    (target : Fin (K + 1) → FiniteDistribution V)
    (eosTokenId : ℤ) (ω : Randomness K V) : SpeculativeVerificationResult :=
  (verifyLoop eosTokenId (drawnTokens ω) (rows draft) (rows target) (draws ω) {}).1

theorem verifyCandidates_rows (draft : Fin K → FiniteDistribution V)
    (target : Fin (K + 1) → FiniteDistribution V) (eosTokenId : ℤ) (ω : Randomness K V) :
    (verifyCandidates (drawnTokens ω) (rows draft) (rows target) eosTokenId (draws ω)).map
      Prod.fst = .ok (verify draft target eosTokenId ω) := by
  unfold verifyCandidates
  rw [if_neg (by simp [drawnTokens, rows])]
  rfl

def laterDraws (ω : Randomness (K + 1) V) : Randomness K V := (fun i => ω.1 i.succ, ω.2)

theorem rest_draws (ω : Randomness (K + 1) V) : rest (draws ω) = draws (laterDraws ω) := by
  funext n
  by_cases h : n < K <;> simp [rest, draws, laterDraws, h]

theorem emitted_verify_zero (draft : Fin 0 → FiniteDistribution V)
    (target : Fin 1 → FiniteDistribution V)
    (eosTokenId : ℤ) (ω : Randomness 0 V) : emitted (verify draft target eosTokenId ω) =
      [sampleAt (List.ofFn (target 0).prob) ω.2] := by
  simp [verify, drawnTokens, verifyLoop, emitted_endWith, rows, sampleFromDistribution_fst, draws]

theorem probAt_ofFn (d : FiniteDistribution V) (x : Fin V) :
    probAt (List.ofFn d.prob) x = d.prob x := by
  simp [probAt]

open Classical in
/-- Verification of the first candidate and of the others after it. -/
theorem emitted_verify_succ (draft : Fin (K + 1) → FiniteDistribution V)
    (target : Fin (K + 2) → FiniteDistribution V) (eosTokenId : ℤ) (ω : Randomness (K + 1) V) :
    emitted (verify draft target eosTokenId ω) =
      if ω.1 0 ∈ acceptSet (target 0) (draft 0) then
        if ((ω.1 0).1 : ℤ) = eosTokenId then [((ω.1 0).1 : ℤ), eosTokenId]
        else ((ω.1 0).1 : ℤ) :: emitted (verify (fun i => draft i.succ) (fun i => target i.succ)
          eosTokenId (laterDraws ω))
      else [replacementAt (target 0) (draft 0) (draws (laterDraws ω) 0)] := by
  have htokens : drawnTokens ω = ((ω.1 0).1 : ℤ) :: drawnTokens (laterDraws ω) := by
    simp [drawnTokens, laterDraws, List.ofFn_succ]
  have hrows : ∀ {n : ℕ} (d : Fin (n + 1) → FiniteDistribution V),
      rows d = List.ofFn (d 0).prob :: rows fun i => d i.succ := by
    intro n d
    simp [rows, List.ofFn_succ]
  have hdraw : draws ω 0 = (ω.1 0).2 := by simp [draws]
  unfold verify
  rw [htokens, hrows draft, hrows target, verifyLoop]
  simp only [List.headD_cons, List.tail_cons, probAt_ofFn, hdraw, rest_draws]
  by_cases haccept : ω.1 0 ∈ acceptSet (target 0) (draft 0)
  · have hle : (ω.1 0).2 ≤
        acceptanceRatio ((draft 0).prob (ω.1 0).1) ((target 0).prob (ω.1 0).1) := haccept
    rw [if_pos hle, if_pos haccept]
    split_ifs with heos
    · simp [emitted, acceptToken]
    · rw [emitted_verifyLoop]
      simp [acceptToken]
  · have hlt : ¬(ω.1 0).2 ≤
        acceptanceRatio ((draft 0).prob (ω.1 0).1) ((target 0).prob (ω.1 0).1) := haccept
    rw [if_neg hlt, if_neg haccept, emitted_endWith]
    simp [replacementAt, sampleAdjustedDistribution_fst]

end Run

section Law

def firstAndLater : Randomness (K + 1) V ≃ᵐ (Fin V × ℝ) × Randomness K V :=
  ((MeasurableEquiv.piFinSuccAbove (fun _ => Fin V × ℝ) 0).prodCongr (MeasurableEquiv.refl ℝ)).trans
    MeasurableEquiv.prodAssoc

theorem measurePreserving_firstAndLater (draft : Fin (K + 1) → FiniteDistribution V) :
    MeasurePreserving firstAndLater (randomnessLaw draft)
      (((draft 0).law.prod unit).prod (randomnessLaw fun i => draft i.succ)) := by
  have hpeel := measurePreserving_piFinSuccAbove (fun i => (draft i).law.prod unit) 0
  exact (measurePreserving_prodAssoc _ _ _).comp (hpeel.prod (MeasurePreserving.id unit))

theorem randomnessLaw_firstAndLater (draft : Fin (K + 1) → FiniteDistribution V)
    (s : Set ((Fin V × ℝ) × Randomness K V)) :
    randomnessLaw draft {ω | (ω.1 0, laterDraws ω) ∈ s} =
      (((draft 0).law.prod unit).prod (randomnessLaw fun i => draft i.succ)) s :=
  (measurePreserving_firstAndLater draft).measure_preimage_equiv s

instance (draft : Fin K → FiniteDistribution V) : IsProbabilityMeasure (randomnessLaw draft) := by
  unfold randomnessLaw
  infer_instance

/-- Any first draw is uniform. -/
theorem randomnessLaw_draw (draft : Fin K → FiniteDistribution V) (s : Set ℝ) :
    randomnessLaw draft {ω | draws ω 0 ∈ s} = unit s := by
  cases K with
  | zero =>
    have hset : {ω : Randomness 0 V | draws ω 0 ∈ s} = univ ×ˢ s := by
      ext ω
      simp [draws]
    rw [hset, randomnessLaw, Measure.prod_prod, measure_univ, one_mul]
  | succ K =>
    have hset : {ω : Randomness (K + 1) V | draws ω 0 ∈ s} =
        {ω | (ω.1 0, laterDraws ω) ∈ (univ ×ˢ s) ×ˢ (univ : Set (Randomness K V))} := by
      ext ω
      simp [draws]
    rw [hset, randomnessLaw_firstAndLater, Measure.prod_prod, Measure.prod_prod, measure_univ,
      measure_univ, one_mul, mul_one]

def reached (draft : Fin K → FiniteDistribution V) (target : Fin (K + 1) → FiniteDistribution V)
    (eosTokenId : ℤ) (i : ℕ) : Set (Randomness K V) :=
  {ω | Reaches eosTokenId i (verify draft target eosTokenId ω)}

/-- Token `x` is emitted at position `i` on these draws. -/
def emits (draft : Fin K → FiniteDistribution V) (target : Fin (K + 1) → FiniteDistribution V)
    (eosTokenId : ℤ) (i : ℕ) (x : Fin V) : Set (Randomness K V) :=
  {ω | (emitted (verify draft target eosTokenId ω))[i]? = some (x : ℤ)}

def continueSet (p q : FiniteDistribution V) (eosTokenId : ℤ) : Set (Fin V × ℝ) :=
  {d | d ∈ acceptSet p q ∧ (d.1 : ℤ) ≠ eosTokenId}

theorem reached_zero (draft : Fin K → FiniteDistribution V)
    (target : Fin (K + 1) → FiniteDistribution V)
    (eosTokenId : ℤ) : reached draft target eosTokenId 0 = univ := by
  ext ω
  simp [reached, Reaches]

theorem reached_succ (draft : Fin (K + 1) → FiniteDistribution V)
    (target : Fin (K + 2) → FiniteDistribution V) (eosTokenId : ℤ) (i : ℕ) :
    reached draft target eosTokenId (i + 1) =
      {ω | (ω.1 0, laterDraws ω) ∈ continueSet (target 0) (draft 0) eosTokenId ×ˢ
        reached (fun i => draft i.succ) (fun i => target i.succ) eosTokenId i} := by
  ext ω
  simp only [reached, reaches_iff, emitted_verify_succ, continueSet, mem_ofPred_eq, mem_prod]
  by_cases haccept : ω.1 0 ∈ acceptSet (target 0) (draft 0)
  · by_cases heos : ((ω.1 0).1 : ℤ) = eosTokenId
    · simp [haccept, heos]
    · simp [haccept, heos, Ne.symm heos]
  · simp [haccept]

theorem reached_inter_emits_succ (draft : Fin (K + 1) → FiniteDistribution V)
    (target : Fin (K + 2) → FiniteDistribution V) (eosTokenId : ℤ) (i : ℕ) (x : Fin V) :
    reached draft target eosTokenId (i + 1) ∩ emits draft target eosTokenId (i + 1) x =
      {ω | (ω.1 0, laterDraws ω) ∈ continueSet (target 0) (draft 0) eosTokenId ×ˢ
        (reached (fun i => draft i.succ) (fun i => target i.succ) eosTokenId i ∩
          emits (fun i => draft i.succ) (fun i => target i.succ) eosTokenId i x)} := by
  ext ω
  rw [reached_succ]
  simp only [emits, emitted_verify_succ, continueSet, mem_inter_iff, mem_ofPred_eq, mem_prod]
  constructor
  · rintro ⟨⟨⟨haccept, heos⟩, hreach⟩, hemit⟩
    rw [if_pos haccept, if_neg heos] at hemit
    exact ⟨⟨haccept, heos⟩, hreach, hemit⟩
  · rintro ⟨⟨haccept, heos⟩, hreach, hemit⟩
    rw [if_pos haccept, if_neg heos]
    exact ⟨⟨⟨haccept, heos⟩, hreach⟩, hemit⟩

theorem measurableSet_reached (draft : Fin K → FiniteDistribution V)
    (target : Fin (K + 1) → FiniteDistribution V) (eosTokenId : ℤ) (i : ℕ) (hi : i ≤ K) :
    MeasurableSet (reached draft target eosTokenId i) := by
  induction i generalizing K with
  | zero => rw [reached_zero]; exact MeasurableSet.univ
  | succ i ih =>
    obtain ⟨K, rfl⟩ : ∃ k, K = k + 1 := ⟨K - 1, by omega⟩
    have hcontinue : MeasurableSet (continueSet (target 0) (draft 0) eosTokenId) :=
      (measurableSet_acceptSet _ _).inter
        (measurable_fst (Set.toFinite {y : Fin V | (y : ℤ) ≠ eosTokenId}).measurableSet)
    rw [reached_succ]
    exact firstAndLater.measurable (hcontinue.prod (ih _ _ (by omega)))

/-- At the first position the target's law comes out. -/
theorem emits_zero_law (draft : Fin K → FiniteDistribution V)
    (target : Fin (K + 1) → FiniteDistribution V)
    (eosTokenId : ℤ) (x : Fin V)
    (hres : ∀ i : Fin K, residualMass (target i.castSucc) (draft i) = 0 ∨
      residualEps < residualMass (target i.castSucc) (draft i)) :
    randomnessLaw draft (emits draft target eosTokenId 0 x) =
      ENNReal.ofReal ((target 0).prob x) := by
  cases K with
  | zero =>
    have hset : emits draft target eosTokenId 0 x =
        {ω | draws ω 0 ∈ {r | sampleAt (List.ofFn (target 0).prob) r = x}} := by
      ext ω
      simp [emits, emitted_verify_zero, draws]
    rw [hset, randomnessLaw_draw, sampleAt_law]
  | succ K =>
    have hset : emits draft target eosTokenId 0 x = {ω | (ω.1 0, laterDraws ω) ∈
        {d | d.1 = x ∧ d ∈ acceptSet (target 0) (draft 0)} ×ˢ univ ∪
          (acceptSet (target 0) (draft 0))ᶜ ×ˢ
            {ω' | draws ω' 0 ∈ {r | replacementAt (target 0) (draft 0) r = x}}} := by
      ext ω
      simp only [emits, emitted_verify_succ, mem_ofPred_eq, mem_union, mem_prod, mem_univ,
        and_true, mem_compl_iff]
      by_cases haccept : ω.1 0 ∈ acceptSet (target 0) (draft 0)
      · by_cases heos : ((ω.1 0).1 : ℤ) = eosTokenId
        · subst heos
          simp [haccept, Fin.ext_iff]
        · simp [haccept, heos, Fin.ext_iff]
      · simp [haccept]
    have hdisjoint : Disjoint
        ({d | d.1 = x ∧ d ∈ acceptSet (target 0) (draft 0)} ×ˢ (univ : Set (Randomness K V)))
        ((acceptSet (target 0) (draft 0))ᶜ ×ˢ
          {ω' | draws ω' 0 ∈ {r | replacementAt (target 0) (draft 0) r = x}}) := by
      rw [Set.disjoint_left]
      exact fun d hfirst hsecond => hsecond.1 hfirst.1.2
    have hmeasurable : MeasurableSet
        ({d | d.1 = x ∧ d ∈ acceptSet (target 0) (draft 0)} ×ˢ (univ : Set (Randomness K V))) :=
      ((measurable_fst (measurableSet_singleton x)).inter (measurableSet_acceptSet _ _)).prod
        MeasurableSet.univ
    rw [hset, randomnessLaw_firstAndLater, measure_union' hdisjoint hmeasurable,
      Measure.prod_prod, Measure.prod_prod, measure_univ, mul_one, randomnessLaw_draw]
    exact step_law (target 0) (draft 0) x (hres 0)

/-- Reaching a position and emitting a token there are independent. -/
theorem reached_inter_emits_law (draft : Fin K → FiniteDistribution V)
    (target : Fin (K + 1) → FiniteDistribution V) (eosTokenId : ℤ) (i : Fin (K + 1)) (x : Fin V)
    (hres : ∀ i : Fin K, residualMass (target i.castSucc) (draft i) = 0 ∨
      residualEps < residualMass (target i.castSucc) (draft i)) :
    randomnessLaw draft (reached draft target eosTokenId i ∩ emits draft target eosTokenId i x) =
      randomnessLaw draft (reached draft target eosTokenId i) *
        ENNReal.ofReal ((target i).prob x) := by
  induction K with
  | zero =>
    obtain rfl : i = 0 := Fin.ext (Nat.lt_one_iff.mp i.isLt)
    rw [Fin.val_zero, reached_zero, univ_inter, measure_univ, one_mul]
    exact emits_zero_law draft target eosTokenId x hres
  | succ K ih =>
    cases i using Fin.cases with
    | zero =>
      rw [Fin.val_zero, reached_zero, univ_inter, measure_univ, one_mul]
      exact emits_zero_law draft target eosTokenId x hres
    | succ j =>
      have hlater := ih (fun i => draft i.succ) (fun i => target i.succ) j
        fun i => by simpa using hres i.succ
      rw [Fin.val_succ, reached_inter_emits_succ, reached_succ, randomnessLaw_firstAndLater,
        randomnessLaw_firstAndLater, Measure.prod_prod, Measure.prod_prod, hlater, mul_assoc]

/-- Given that verification reaches a position, what it emits there has the target's law. -/
theorem verification_lossless (draft : Fin K → FiniteDistribution V)
    (target : Fin (K + 1) → FiniteDistribution V) (eosTokenId : ℤ) (i : Fin (K + 1)) (x : Fin V)
    (hres : ∀ i : Fin K, residualMass (target i.castSucc) (draft i) = 0 ∨
      residualEps < residualMass (target i.castSucc) (draft i))
    (hreach : randomnessLaw draft (reached draft target eosTokenId i) ≠ 0) :
    (∀ ω, (verifyCandidates (drawnTokens ω) (rows draft) (rows target) eosTokenId (draws ω)).map
      Prod.fst = .ok (verify draft target eosTokenId ω)) ∧
    ProbabilityTheory.cond (randomnessLaw draft) (reached draft target eosTokenId i)
      (emits draft target eosTokenId i x) = ENNReal.ofReal ((target i).prob x) := by
  refine ⟨verifyCandidates_rows draft target eosTokenId, ?_⟩
  rw [ProbabilityTheory.cond_apply
      (measurableSet_reached draft target eosTokenId i (Nat.lt_succ_iff.mp i.isLt)),
    reached_inter_emits_law draft target eosTokenId i x hres, ← mul_assoc,
    ENNReal.inv_mul_cancel hreach (measure_ne_top _ _), one_mul]

noncomputable def twoTokens (a : ℝ) (h₀ : 0 ≤ a) (h₁ : a ≤ 1) : FiniteDistribution 2 where
  prob := ![a, 1 - a]
  nonneg x := by fin_cases x <;> simp [h₀, h₁]
  sum_eq_one := by simp

noncomputable def biasedDraft : Fin 1 → FiniteDistribution 2 :=
  fun _ => twoTokens (3 / 4) (by norm_num) (by norm_num)

noncomputable def fairTarget : Fin 2 → FiniteDistribution 2 :=
  fun _ => twoTokens (1 / 2) (by norm_num) (by norm_num)

theorem reached_biasedDraft :
    randomnessLaw biasedDraft (reached biasedDraft fairTarget (-1) 1) ≠ 0 := by
  have hsubset : {d | d.1 = 0 ∧ d ∈ acceptSet (fairTarget 0) (biasedDraft 0)} ⊆
      continueSet (fairTarget 0) (biasedDraft 0) (-1) := by
    rintro d ⟨-, haccept⟩
    exact ⟨haccept, by omega⟩
  have hle := measure_mono (μ := (biasedDraft 0).law.prod unit) hsubset
  rw [accept_law] at hle
  have hpos : (0 : ℝ) < min ((biasedDraft 0).prob 0) ((fairTarget 0).prob 0) := by
    norm_num [biasedDraft, fairTarget, twoTokens]
  rw [reached_succ, randomnessLaw_firstAndLater, reached_zero, Measure.prod_prod, measure_univ,
    mul_one]
  exact ((ENNReal.ofReal_pos.mpr hpos).trans_le hle).ne'

/-- The bonus token after one accepted candidate. -/
theorem verification_lossless_bonus :
    (∀ ω, (verifyCandidates (drawnTokens ω) (rows biasedDraft) (rows fairTarget) (-1)
      (draws ω)).map Prod.fst = .ok (verify biasedDraft fairTarget (-1) ω)) ∧
    ProbabilityTheory.cond (randomnessLaw biasedDraft) (reached biasedDraft fairTarget (-1) 1)
      (emits biasedDraft fairTarget (-1) 1 0) = ENNReal.ofReal ((fairTarget 1).prob 0) := by
  refine verification_lossless biasedDraft fairTarget (-1) 1 0 (fun i => Or.inr ?_)
    reached_biasedDraft
  norm_num [residualMass, residualEps, biasedDraft, fairTarget, twoTokens]

end Law
end SpeculativeEngine
end CudaForge.Scheduler
