import CudaForge.Library.Autoregressive
import CudaForge.Library.DrawSequence
import CudaForge.Scheduler.GreedySpeculation
import CudaForge.Scheduler.SpeculativeLaw

/-!
Calls of the verifier one after the other, each on a draft in the context that the calls before it
left. The generator is an endless sequence of uniform draws.
-/
open MeasureTheory Set Autoregressive UniformDraw

namespace FiniteDistribution
variable {n : ℕ} (d : FiniteDistribution n)

noncomputable def pmf : PMF (Fin n) :=
  PMF.ofFintype (fun x => ENNReal.ofReal (d.prob x)) (by
    rw [← ENNReal.ofReal_sum_of_nonneg fun x _ => d.nonneg x, d.sum_eq_one, ENNReal.ofReal_one])

theorem pmf_apply (x : Fin n) : d.pmf x = ENNReal.ofReal (d.prob x) := rfl

end FiniteDistribution

namespace CudaForge.Scheduler
namespace SpeculativeEngine
variable {V : ℕ}

section Correction
variable {p q : FiniteDistribution V}

noncomputable def replacement (p q : FiniteDistribution V) : PMF (Fin V) :=
  if h : residualMass p q ≤ residualEps then p.pmf
  else (adjusted p q fun h0 => h (by rw [h0, residualEps]; norm_num)).pmf

theorem unit_replacementAt (p q : FiniteDistribution V) (x : Fin V) :
    unit {r | replacementAt p q r = x} = replacement p q x := by
  unfold replacementAt replacement
  simp only [sampleAdjustedDistribution_fst]
  split_ifs with h
  · exact sampleAt_law p x
  · exact sampleAt_law _ x

/-- A draft token is rejected with the mass of the residual. -/
theorem sum_rejected (p q : FiniteDistribution V) :
    ∑ x, q.pmf x * (1 - ENNReal.ofReal (acceptanceRatio (q.prob x) (p.prob x))) =
      ENNReal.ofReal (residualMass p q) := by
  have hpoint : ∀ x, q.pmf x * (1 - ENNReal.ofReal (acceptanceRatio (q.prob x) (p.prob x))) =
      ENNReal.ofReal (q.prob x - min (q.prob x) (p.prob x)) := by
    intro x
    rw [q.pmf_apply, ← ENNReal.ofReal_one,
      ← ENNReal.ofReal_sub _ (acceptanceRatio_mem (p.nonneg x)).1,
      ← ENNReal.ofReal_mul (q.nonneg x), mul_sub, mul_one,
      mul_acceptanceRatio (q.nonneg x) (p.nonneg x)]
  have hnonneg : ∀ x ∈ Finset.univ, 0 ≤ q.prob x - min (q.prob x) (p.prob x) :=
    fun x _ => sub_nonneg.mpr (min_le_left _ _)
  simp only [hpoint]
  rw [← ENNReal.ofReal_sum_of_nonneg hnonneg, Finset.sum_sub_distrib, q.sum_eq_one,
    residualMass_eq]

variable (p q) in
/-- The fallback to the target below `1e-6` is exact only when nothing is left to draw from. -/
noncomputable def correction
    (h : residualMass p q = 0 ∨ residualEps < residualMass p q) : Correction p.pmf q.pmf where
  accept x := ENNReal.ofReal (acceptanceRatio (q.prob x) (p.prob x))
  accept_le_one x := ENNReal.ofReal_le_one.mpr (acceptanceRatio_mem (p.nonneg x)).2
  replacement := replacement p q
  corrects := by
    ext y
    have hlaw := step_law p q y h
    have haccept : q.pmf y * ENNReal.ofReal (acceptanceRatio (q.prob y) (p.prob y)) =
        ENNReal.ofReal (min (q.prob y) (p.prob y)) := by
      rw [q.pmf_apply, ← ENNReal.ofReal_mul (q.nonneg y),
        mul_acceptanceRatio (q.nonneg y) (p.nonneg y)]
    rw [accept_law, reject_law, unit_replacementAt] at hlaw
    rw [PMF.bind_apply, tsum_fintype, p.pmf_apply, ← hlaw, ← haccept, ← sum_rejected,
      Finset.sum_mul]
    simp only [mix_apply, PMF.pure_apply, mul_ite, mul_one, mul_zero, mul_add,
      Finset.sum_add_distrib, Finset.sum_ite_eq, Finset.mem_univ, if_true, mul_assoc]

end Correction

abbrev Model (V : ℕ) := List (Fin V) → FiniteDistribution V

def draftRows (model : Model V) : List (Fin V) → List (Fin V) → List (List ℝ)
  | _, [] => []
  | tokens, x :: xs => List.ofFn (model tokens).prob :: draftRows model (tokens ++ [x]) xs

def targetRows (model : Model V) : List (Fin V) → List (Fin V) → List (List ℝ)
  | tokens, [] => [List.ofFn (model tokens).prob]
  | tokens, x :: xs => List.ofFn (model tokens).prob :: targetRows model (tokens ++ [x]) xs

theorem length_draftRows (model : Model V) (tokens xs : List (Fin V)) :
    (draftRows model tokens xs).length = xs.length := by
  induction xs generalizing tokens with
  | nil => rfl
  | cons x xs ih => rw [draftRows, List.length_cons, List.length_cons, ih]

theorem length_targetRows (model : Model V) (tokens xs : List (Fin V)) :
    (targetRows model tokens xs).length = xs.length + 1 := by
  induction xs generalizing tokens with
  | nil => rfl
  | cons x xs ih => rw [targetRows, List.length_cons, List.length_cons, ih]

def throughEnd (eosTokenId : ℤ) : List ℤ → List ℤ
  | [] => []
  | x :: xs => if x = eosTokenId then [x] else x :: throughEnd eosTokenId xs

def ids (xs : List (Fin V)) : List ℤ := xs.map fun x : Fin V => (x : ℤ)

def ends (eosTokenId : ℤ) (x : Fin V) : Bool := (x : ℤ) == eosTokenId

theorem ids_injective : Function.Injective (ids (V := V)) :=
  List.map_injective_iff.mpr fun _ _ h => Fin.ext (Int.natCast_inj.mp h)

section Appended
variable (target draft : Model V) (eosTokenId : ℤ)

noncomputable def appended (tokens xs : List (Fin V)) (rng : Draws ℝ) :
    Except SpeculativeException (List ℤ) :=
  (verifyCandidates (ids xs) (draftRows draft tokens xs) (targetRows target tokens xs) eosTokenId
    rng).map fun r => throughEnd eosTokenId (emitted r.1)

theorem appended_eq (tokens xs : List (Fin V)) (rng : Draws ℝ) :
    appended target draft eosTokenId tokens xs rng =
      .ok (throughEnd eosTokenId (emitted (verifyLoop eosTokenId (ids xs)
        (draftRows draft tokens xs) (targetRows target tokens xs) rng {}).1)) := by
  unfold appended verifyCandidates
  rw [if_neg (by simp [ids, length_draftRows, length_targetRows])]
  rfl

theorem length_of_mem_draftRows {model : Model V} {tokens xs : List (Fin V)} {row : List ℝ}
    (h : row ∈ draftRows model tokens xs) : row.length = V := by
  induction xs generalizing tokens with
  | nil => cases h
  | cons x xs ih =>
    rcases List.mem_cons.mp h with rfl | h
    · exact List.length_ofFn
    · exact ih h

theorem length_of_mem_targetRows {model : Model V} {tokens xs : List (Fin V)} {row : List ℝ}
    (h : row ∈ targetRows model tokens xs) : row.length = V := by
  induction xs generalizing tokens with
  | nil =>
    rw [List.mem_singleton.mp h]
    exact List.length_ofFn
  | cons x xs ih =>
    rcases List.mem_cons.mp h with rfl | h
    · exact List.length_ofFn
    · exact ih h

/-- The calls on the rows of two models access nothing outside these, so that they can be made
without the checks. -/
theorem checked_verifyCandidates (hV : V ≤ 2 ^ 31) (tokens xs : List (Fin V)) (rng : Draws ℝ) :
    CheckedEngine.verifyCandidates residualEps (ids xs) (draftRows draft tokens xs)
        (targetRows target tokens xs) eosTokenId rng =
      (verifyCandidates (ids xs) (draftRows draft tokens xs) (targetRows target tokens xs)
        eosTokenId rng).mapError .thrown := by
  have hpos : 0 < V := by
    rcases Nat.eq_zero_or_pos V with rfl | hpos
    · have hsum := (target tokens).sum_eq_one
      rw [Fin.sum_univ_zero] at hsum
      exact absurd hsum zero_ne_one
    · exact hpos
  refine CheckedEngine.verifyCandidates_eq ⟨hpos, hV, fun _ => length_of_mem_draftRows,
    fun _ => length_of_mem_targetRows, fun token htoken => ?_⟩ eosTokenId rng
  obtain ⟨x, -, rfl⟩ := List.mem_map.mp htoken
  exact ⟨Int.natCast_nonneg _, Int.ofNat_lt.mpr x.isLt⟩

theorem throughEnd_singleton (x : ℤ) : throughEnd eosTokenId [x] = [x] := by
  unfold throughEnd
  split_ifs <;> rfl

theorem appended_nil (tokens : List (Fin V)) (rng : Draws ℝ) :
    appended target draft eosTokenId tokens [] rng =
      .ok [sampleAt (List.ofFn (target tokens).prob) (rng 0)] := by
  rw [appended_eq, ids, List.map_nil, verifyLoop]
  simp only [targetRows, List.headD_cons, emitted_endWith, List.nil_append, throughEnd_singleton,
    sampleFromDistribution_fst]

theorem appended_cons (tokens xs : List (Fin V)) (x : Fin V) (rng : Draws ℝ) :
    appended target draft eosTokenId tokens (x :: xs) rng =
      if rng 0 ≤ acceptanceRatio ((draft tokens).prob x) ((target tokens).prob x) then
        if ends eosTokenId x then .ok [(x : ℤ)]
        else (appended target draft eosTokenId (tokens ++ [x]) xs (rest rng)).map ((x : ℤ) :: ·)
      else .ok [replacementAt (target tokens) (draft tokens) (rest rng 0)] := by
  rw [appended_eq, appended_eq, ids, List.map_cons, verifyLoop]
  simp only [draftRows, targetRows, List.headD_cons, List.tail_cons, probAt_ofFn, ends, beq_iff_eq]
  split_ifs with haccept heos
  · simp [emitted, acceptToken, throughEnd, heos]
  · rw [emitted_verifyLoop]
    simp only [acceptToken, List.nil_append, List.singleton_append, throughEnd, heos, if_false]
    rfl
  · simp only [emitted_endWith, List.nil_append, throughEnd_singleton, replacementAt,
      sampleAdjustedDistribution_fst]

end Appended

section Law
variable {target draft : Model V} (eosTokenId : ℤ)

theorem map_singleton_apply {n : ℕ} (m : PMF (Fin n)) (x : Fin n) : m.map ([·]) [x] = m x := by
  simp [PMF.map_apply]

/-- One draw that selects an index selects a list of one token. -/
theorem law_singleton {f : ℝ → ℤ} {m : PMF (Fin V)} (h : ∀ x : Fin V, unit {r | f r = x} = m x)
    (l : List (Fin V)) : DrawSequence.law unit {ω | [f (ω 0)] = ids l} = m.map ([·]) l := by
  cases l with
  | nil => simp [ids, PMF.map_apply]
  | cons x l =>
    cases l with
    | nil =>
      have hset : {ω : ℕ → ℝ | [f (ω 0)] = ids [x]} = {ω | ω 0 ∈ {r | f r = x}} := by
        ext ω
        simp [ids]
      rw [hset, DrawSequence.law_first, h, map_singleton_apply]
    | cons y l => simp [ids, PMF.map_apply]

theorem map_cons_eq_ok {ε : Type*} (e : Except ε (List ℤ)) (a : ℤ) (l : List ℤ) :
    e.map (a :: ·) = .ok l ↔ ∃ tail, l = a :: tail ∧ e = .ok tail := by
  cases e with
  | error err => simp [Except.map]
  | ok tail => simp [Except.map, eq_comm]

theorem law_cons {e : Draws ℝ → Except SpeculativeException (List ℤ)} {m : PMF (List (Fin V))}
    (h : ∀ l, DrawSequence.law unit {ω | e ω = .ok (ids l)} = m l) (x : Fin V)
    (l : List (Fin V)) :
    DrawSequence.law unit {ω | (e ω).map ((x : ℤ) :: ·) = .ok (ids l)} = m.map (x :: ·) l := by
  cases l with
  | nil => simp [map_cons_eq_ok, ids, PMF.map_apply]
  | cons y l =>
    have hset : {ω | (e ω).map ((x : ℤ) :: ·) = .ok (ids (y :: l))} =
        {ω | y = x ∧ e ω = .ok (ids l)} := by
      ext ω
      simp [map_cons_eq_ok, ids, Fin.ext_iff]
    rw [hset]
    by_cases hxy : y = x
    · simp [hxy, h, PMF.map_apply]
    · simp [hxy, PMF.map_apply]

/-- The draws of the call decide what it appends with the probabilities of the correction. -/
theorem law_appended (h : ∀ tokens, residualMass (target tokens) (draft tokens) = 0 ∨
    residualEps < residualMass (target tokens) (draft tokens)) (tokens xs l : List (Fin V)) :
    DrawSequence.law unit {ω | appended target draft eosTokenId tokens xs ω = .ok (ids l)} =
      corrected (ends eosTokenId)
        (fun tokens => correction (target tokens) (draft tokens) (h tokens)) tokens xs l := by
  induction xs generalizing tokens l with
  | nil =>
    simp only [appended_nil, Except.ok.injEq]
    exact law_singleton (sampleAt_law (target tokens)) l
  | cons x xs ih =>
    obtain ⟨h₀, h₁⟩ := acceptanceRatio_mem (q := (draft tokens).prob x) ((target tokens).nonneg x)
    have hreplaced := law_singleton (unit_replacementAt (target tokens) (draft tokens)) l
    have hset : {ω | appended target draft eosTokenId tokens (x :: xs) ω = .ok (ids l)} =
        {ω | ω 0 ∈ Iic (acceptanceRatio ((draft tokens).prob x) ((target tokens).prob x)) ∧
            (fun n => ω (n + 1)) ∈ {ω | (if ends eosTokenId x then .ok [(x : ℤ)]
              else (appended target draft eosTokenId (tokens ++ [x]) xs ω).map ((x : ℤ) :: ·)) =
                Except.ok (ids l)} ∨
          ω 0 ∉ Iic (acceptanceRatio ((draft tokens).prob x) ((target tokens).prob x)) ∧
            (fun n => ω (n + 1)) ∈
              {ω | [replacementAt (target tokens) (draft tokens) (ω 0)] = ids l}} := by
      ext ω
      simp only [appended_cons, mem_ofPred_eq, mem_Iic]
      by_cases haccept :
          ω 0 ≤ acceptanceRatio ((draft tokens).prob x) ((target tokens).prob x)
      · simp only [haccept, if_true, true_and, not_true, false_and, or_false]
        rfl
      · simp only [haccept, if_false, false_and, not_false_iff, true_and, false_or,
          Except.ok.injEq]
        rfl
    rw [hset, DrawSequence.law_ite _ measurableSet_Iic, unit_Iic h₀ h₁, hreplaced, corrected,
      mix_apply]
    congr 2
    split_ifs with hends
    · by_cases hl : l = [x]
      · simp [hl, ids]
      · have hne : ids l ≠ [(x : ℤ)] := fun heq => hl (ids_injective heq)
        simp [hl, hne.symm]
    · exact law_cons (ih (tokens ++ [x])) x l

end Law

section Rounds
variable {target : Model V}

variable (target) in
/-- A draft model and the number of tokens it drafts. Where it differs from the target, it differs
by more than the fallback ignores. -/
structure Drafter where
  model : Model V
  gamma : ℕ
  residual : ∀ tokens, residualMass (target tokens) (model tokens) = 0 ∨
    residualEps < residualMass (target tokens) (model tokens)

noncomputable def verified (drafter : Drafter target) (eosTokenId : ℤ)
    (tokens xs : List (Fin V)) : PMF (List (Fin V)) :=
  ⟨fun l => DrawSequence.law unit
      {ω | appended target drafter.model eosTokenId tokens xs ω = .ok (ids l)}, by
    simp only [law_appended eosTokenId drafter.residual tokens xs]
    exact PMF.hasSum_coe_one _⟩

/-- The tokens behind `tokens` after a call with each drafter, or once the sequence has ended. -/
noncomputable def rounds (eosTokenId : ℤ) : List (Drafter target) → List (Fin V) →
    PMF (List (Fin V))
  | [], _ => PMF.pure []
  | drafter :: drafters, tokens =>
    ((drafted (fun tokens => (drafter.model tokens).pmf) drafter.gamma tokens).bind
      (verified drafter eosTokenId tokens)).bind fun block =>
        if block.any (ends eosTokenId) then PMF.pure block
        else (rounds eosTokenId drafters (tokens ++ block)).map (block ++ ·)

noncomputable def Drafter.call (eosTokenId : ℤ) (drafter : Drafter target) :
    Call (fun tokens => (target tokens).pmf) (ends eosTokenId) :=
  speculate (fun tokens => correction (target tokens) (drafter.model tokens)
    (drafter.residual tokens)) drafter.gamma

theorem block_call (eosTokenId : ℤ) (drafter : Drafter target) (tokens : List (Fin V)) :
    (drafter.call eosTokenId).block tokens =
      (drafted (fun tokens => (drafter.model tokens).pmf) drafter.gamma tokens).bind
        (verified drafter eosTokenId tokens) := by
  have hlaw : verified drafter eosTokenId tokens = corrected (ends eosTokenId)
      (fun tokens => correction (target tokens) (drafter.model tokens) (drafter.residual tokens))
        tokens := by
    ext xs l
    exact law_appended eosTokenId drafter.residual tokens xs l
  rw [hlaw]
  rfl

theorem rounds_eq_run (eosTokenId : ℤ) (drafters : List (Drafter target))
    (tokens : List (Fin V)) :
    rounds eosTokenId drafters tokens = run (drafters.map (Drafter.call eosTokenId)) tokens := by
  induction drafters generalizing tokens with
  | nil => rfl
  | cons drafter drafters ih =>
    rw [rounds, List.map_cons, run, block_call]
    simp only [ih]

/-- Speculation with any drafters appends the target's own tokens: after `n` calls the first `n`
tokens have the law of decoding with the target alone. -/
theorem rounds_decode (eosTokenId : ℤ) (drafters : List (Drafter target)) {n : ℕ}
    (hn : n ≤ drafters.length) (tokens : List (Fin V)) :
    (rounds eosTokenId drafters tokens).map (List.take n) =
      decode (fun tokens => (target tokens).pmf) (ends eosTokenId) n tokens := by
  rw [rounds_eq_run]
  apply run_take
  rw [List.length_map]
  exact hn

/-- The draft that prefers one of two tokens that the target gives the same probability. -/
noncomputable def biasedDrafter : Drafter fun _ => fairTarget ⟨0, Nat.two_pos⟩ where
  model _ := biasedDraft ⟨0, Nat.one_pos⟩
  gamma := 5
  residual _ := by
    right
    norm_num [residualMass, residualEps, biasedDraft, fairTarget, twoTokens, Fin.sum_univ_two]

theorem rounds_decode_biasedDrafter :
    (rounds 1 [biasedDrafter, biasedDrafter] []).map (List.take 2) =
      decode (fun _ => (fairTarget 0).pmf) (ends 1) 2 [] :=
  rounds_decode 1 [biasedDrafter, biasedDrafter] (Nat.le_refl 2) []

end Rounds
end SpeculativeEngine

namespace CheckedEngine
open FirstMaximum SpeculativeEngine
variable {α : Type*} [LinearOrder α] (f : List ℤ → List α) (eosTokenId : ℤ)

def scoredRows (tokens draftTokens : List ℤ) : List (List α) :=
  (List.range (draftTokens.length + 1)).map fun i => f (tokens ++ draftTokens.take i)

def greedyAppended (tokens draftTokens : List ℤ) : Except VerifyFault (List ℤ) :=
  (verifyCandidatesGreedy draftTokens (scoredRows f tokens draftTokens) eosTokenId).map
    fun result => throughEnd eosTokenId (emitted result)

def greedyRounds : List (List ℤ → List ℤ) → List ℤ → Except VerifyFault (List ℤ)
  | [], _ => .ok []
  | propose :: proposals, tokens => do
    let block ← greedyAppended f eosTokenId tokens (propose tokens)
    if eosTokenId ∈ block then return block
    let later ← greedyRounds proposals (tokens ++ block)
    return block ++ later

variable {f eosTokenId}

theorem throughEnd_append {xs : List ℤ} (h : eosTokenId ∉ xs) (rest : List ℤ) :
    throughEnd eosTokenId (xs ++ rest) = xs ++ throughEnd eosTokenId rest := by
  induction xs with
  | nil => rfl
  | cons x xs ih =>
    rw [List.mem_cons, not_or] at h
    obtain ⟨hx, hxs⟩ := h
    simp only [List.cons_append, throughEnd, Ne.symm hx, if_false, ih hxs]

variable (f eosTokenId) in
/-- Whatever the draft, a call appends a token that greedy decoding gives and those before it. -/
theorem greedyAppended_eq (tokens draftTokens : List ℤ) :
    ∃ xs token, greedyAppended f eosTokenId tokens draftTokens = .ok (xs ++ [token]) ∧
      eosTokenId ∉ xs ∧ greedyDecode f eosTokenId (xs.length + 1) tokens = xs ++ [token] := by
  have hrows : RowsOf f tokens draftTokens (scoredRows f tokens draftTokens) := by
    intro i hi
    simp [scoredRows, Nat.lt_succ_iff.mpr hi]
  have hend : ¬GreedyContinues draftTokens (scoredRows f tokens draftTokens) eosTokenId
      draftTokens.length := not_greedyContinues_length
  obtain ⟨n, hn, hreached, hstop⟩ := exists_stop hend
  obtain ⟨hdecoded, hnot⟩ := decoded_take hrows hreached
  refine ⟨draftTokens.take n, _, ?_, hnot, greedyDecode_succ hdecoded hnot⟩
  rw [greedyAppended, greedyLoop_stop hreached hstop hn (hrows n hn), argmaxToken_eq]
  split_ifs with hargmax
  · have heos : castInt32 (firstArgmax (f (tokens ++ draftTokens.take n))) = eosTokenId := by
      by_contra hne
      rw [← argmaxToken_eq] at hargmax hne
      exact hstop ⟨_, hrows n hn, hargmax, hne⟩
    rw [heos] at hargmax ⊢
    simp [Except.map, emitted, accepting, List.take_add_one, hargmax, throughEnd_append hnot,
      throughEnd]
  · simp [Except.map, emitted, accepting, throughEnd_append hnot, throughEnd_singleton]

/-- A block that ended the sequence is all that greedy decoding gives. -/
theorem greedyDecode_block_ended {xs tokens : List ℤ} (hnot : eosTokenId ∉ xs)
    (h : greedyDecode f eosTokenId (xs.length + 1) tokens = xs ++ [eosTokenId]) (n : ℕ) :
    (xs ++ [eosTokenId]).take n = greedyDecode f eosTokenId n tokens := by
  rcases Nat.lt_or_ge xs.length n with hlt | hle
  · have hdecoded : greedyDecode f eosTokenId xs.length tokens = xs := by
      rw [← greedyDecode_take (Nat.le_succ _), h, List.take_left]
    have hlast := greedyDecode_succ hdecoded hnot
    rw [h, List.append_cancel_left_eq, List.cons.injEq] at hlast
    rw [greedyDecode_ended hdecoded hnot hlast.1.symm hlt, List.take_of_length_le (by simp; omega)]
  · rw [← h, greedyDecode_take (hle.trans (Nat.le_succ _))]

/-- Behind a block that did not end the sequence greedy decoding goes on. -/
theorem greedyDecode_block_append {block later tokens : List ℤ} (hnot : eosTokenId ∉ block)
    (h : greedyDecode f eosTokenId block.length tokens = block) {n : ℕ}
    (hlater : later.take (n - block.length) =
      greedyDecode f eosTokenId (n - block.length) (tokens ++ block)) :
    (block ++ later).take n = greedyDecode f eosTokenId n tokens := by
  rw [List.take_append, hlater]
  rcases Nat.le_total n block.length with hle | hle
  · rw [Nat.sub_eq_zero_of_le hle, greedyDecode, List.append_nil, ← greedyDecode_take hle, h]
  · rw [List.take_of_length_le hle, ← greedyDecode_add h hnot, Nat.add_sub_cancel' hle]

/-- Whatever is proposed, as many greedy calls as tokens are asked for give the greedy decode. -/
theorem greedyRounds_decode (proposals : List (List ℤ → List ℤ)) (tokens : List ℤ) :
    ∃ later, greedyRounds f eosTokenId proposals tokens = .ok later ∧
      ∀ n ≤ proposals.length, later.take n = greedyDecode f eosTokenId n tokens := by
  induction proposals generalizing tokens with
  | nil =>
    refine ⟨[], rfl, fun n hn => ?_⟩
    obtain rfl : n = 0 := Nat.le_zero.mp hn
    rfl
  | cons propose proposals ih =>
    obtain ⟨xs, token, hcall, hnot, hdecoded⟩ :=
      greedyAppended_eq f eosTokenId tokens (propose tokens)
    by_cases hend : token = eosTokenId
    · subst hend
      refine ⟨xs ++ [token], ?_, fun n _ => greedyDecode_block_ended hnot hdecoded n⟩
      simp [greedyRounds, hcall, bind, Except.bind, pure, Except.pure]
    · obtain ⟨later, hrounds, hlater⟩ := ih (tokens ++ (xs ++ [token]))
      have hblock : eosTokenId ∉ xs ++ [token] := by simp [hnot, Ne.symm hend]
      have hlength : (xs ++ [token]).length = xs.length + 1 := by simp
      refine ⟨xs ++ [token] ++ later, ?_, fun n hn => ?_⟩
      · simp only [greedyRounds, hcall, bind, Except.bind, pure, Except.pure, hblock, if_false,
          hrounds]
      · apply greedyDecode_block_append hblock (hlength ▸ hdecoded)
        apply hlater
        rw [List.length_cons] at hn
        omega

end CheckedEngine
end CudaForge.Scheduler
