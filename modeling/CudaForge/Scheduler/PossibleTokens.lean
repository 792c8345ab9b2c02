import CudaForge.Scheduler.SpeculativeAccess

/-!
Which tokens the stochastic verifier can emit. Its samplers compare with `≤`, so that a draw of
exactly zero accepts a candidate of ratio zero and selects the first token of any row.
-/
namespace CudaForge.Scheduler
open CheckedEngine (accepting accepting_succ endWith_accepting finalPosition finalPosition_ended
  finalPosition_accepting getLast_accepting exists_stop forall_reached_iff verifyLoop_cons)

namespace SpeculativeEngine
variable {𝕜 : Type*} [Field 𝕜] [LinearOrder 𝕜] {V : ℕ}

structure IsDistribution (V : ℕ) (row : List 𝕜) : Prop where
  length : row.length = V
  nonneg : ∀ p ∈ row, 0 ≤ p
  sum : row.sum = 1

section Sampling

omit [LinearOrder 𝕜] in
theorem probAt_of_get {row : List 𝕜} {x : ℕ} {p : 𝕜} (h : row[x]? = some p) :
    probAt row x = p := by
  rw [probAt, Int.toNat_natCast, List.getD_eq_getElem?_getD, h, Option.getD_some]

omit [LinearOrder 𝕜] in
theorem sum_normalized {l : List 𝕜} (h : l.sum ≠ 0) : (l.map (· / l.sum)).sum = 1 := by
  simp only [div_eq_mul_inv, List.sum_map_mul_right, List.map_id']
  exact mul_inv_cancel₀ h

theorem residual_nonneg {targetRow draftRow : List 𝕜} :
    ∀ a ∈ List.zipWith (fun p q => max 0 (p - q)) targetRow draftRow, 0 ≤ a := by
  intro a ha
  obtain ⟨i, hi⟩ := List.mem_iff_getElem?.mp ha
  rw [List.getElem?_zipWith] at hi
  split at hi
  · obtain rfl := Option.some.inj hi
    exact le_max_left _ _
  · cases hi

variable [IsStrictOrderedRing 𝕜]

/-- A draw above the cumulative probability so far selects a token with positive probability. -/
theorem sampleLoop_pos {r cumulative : 𝕜} {probs : List 𝕜} {i j : ℕ} (hlt : cumulative < r)
    (h : sampleLoop r probs cumulative i = some j) :
    ∃ p, probs[j - i]? = some p ∧ 0 < p := by
  induction probs generalizing cumulative i with
  | nil => cases h
  | cons p probs ih =>
    unfold sampleLoop at h
    split_ifs at h with hr
    · obtain rfl := Option.some.inj h
      rw [Nat.sub_self]
      exact ⟨p, rfl, by linarith⟩
    · have hle := le_of_sampleLoop h
      obtain ⟨q, hq, hpos⟩ := ih (not_le.mp hr) h
      refine ⟨q, ?_, hpos⟩
      rw [show j - i = j - (i + 1) + 1 by omega, List.getElem?_cons_succ]
      exact hq

/-- What a draw below one selects: the first token for a zero draw, and otherwise a token with
positive weight. -/
theorem sampleFromDistribution_cases {weights : List 𝕜} (hnonneg : ∀ p ∈ weights, 0 ≤ p)
    (hsum : weights.sum = 1) {rng : Draws 𝕜} (h1 : rng 0 < 1) :
    ∃ x : ℕ, (sampleFromDistribution weights rng).1 = x ∧ x < weights.length ∧
      (rng 0 = 0 → x = 0) ∧ (0 < rng 0 → ∃ p, weights[x]? = some p ∧ 0 < p) := by
  have hne : weights ≠ [] := by
    rintro rfl
    exact zero_ne_one hsum
  unfold sampleFromDistribution
  cases hloop : sampleLoop (rng 0) weights 0 0 with
  | none =>
    have hlt := sampleLoop_none hne hloop
    rw [zero_add, hsum] at hlt
    exact absurd hlt h1.not_gt
  | some x =>
    have hlength := CheckedEngine.sampleLoop_lt ((CheckedEngine.sampleLoop_eq _ _ _ _).trans hloop)
    rw [Nat.zero_add] at hlength
    refine ⟨x, rfl, hlength, fun hzero => ?_, fun hpos => sampleLoop_pos hpos hloop⟩
    cases weights with
    | nil => contradiction
    | cons p weights =>
      have hp := hnonneg p List.mem_cons_self
      rw [sampleLoop, zero_add, hzero, if_pos hp] at hloop
      exact (Option.some.inj hloop).symm

/-- A token sampled from a row is possible, but for the first token at a zero draw. -/
theorem sample_possible_iff {row : List 𝕜} (hrow : IsDistribution V row) {rng : Draws 𝕜}
    (h0 : 0 ≤ rng 0) (h1 : rng 0 < 1) :
    0 < probAt row (sampleFromDistribution row rng).1 ↔ (rng 0 = 0 → 0 < probAt row 0) := by
  obtain ⟨x, hx, -, hzero, hpos⟩ := sampleFromDistribution_cases hrow.nonneg hrow.sum h1
  rw [hx]
  rcases h0.eq_or_lt with heq | hlt
  · rw [hzero heq.symm]
    exact ⟨fun h _ => h, fun h => h heq.symm⟩
  · obtain ⟨p, hp, hppos⟩ := hpos hlt
    rw [probAt_of_get hp]
    exact iff_of_true hppos fun h => absurd h hlt.ne'

/-- Where the residual is positive the target's row is. -/
theorem target_pos_of_residual {targetRow draftRow : List 𝕜} (hdraft : ∀ q ∈ draftRow, 0 ≤ q)
    {x : ℕ} {a : 𝕜}
    (ha : (List.zipWith (fun p q => max 0 (p - q)) targetRow draftRow)[x]? = some a)
    (hpos : 0 < a) : ∃ p, targetRow[x]? = some p ∧ 0 < p := by
  rw [List.getElem?_zipWith] at ha
  split at ha
  · next p q hp hq =>
    obtain rfl := Option.some.inj ha
    have hsub := (lt_max_iff.mp hpos).resolve_left (lt_irrefl 0)
    exact ⟨p, hp, (hdraft q (List.mem_of_getElem? hq)).trans_lt (sub_pos.mp hsub)⟩
  · cases ha

/-- A replacement is possible, but for the first token at a zero draw. -/
theorem replacement_possible_iff {targetRow draftRow : List 𝕜}
    (htarget : IsDistribution V targetRow) (hdraft : IsDistribution V draftRow)
    {rng : Draws 𝕜} (h0 : 0 ≤ rng 0) (h1 : rng 0 < 1) :
    0 < probAt targetRow (sampleAdjustedDistribution targetRow draftRow rng).1 ↔
      (rng 0 = 0 → 0 < probAt targetRow 0) := by
  unfold sampleAdjustedDistribution
  dsimp only
  split_ifs with hsum
  · exact sample_possible_iff htarget h0 h1
  · rw [not_le, ← List.sum_eq_foldl] at hsum
    rw [← List.sum_eq_foldl]
    have heps : (0 : 𝕜) < residualEps := by
      rw [residualEps]
      positivity
    have hpos := heps.trans hsum
    have hnonneg : ∀ w ∈ (List.zipWith (fun p q => max 0 (p - q)) targetRow draftRow).map
        (· / (List.zipWith (fun p q => max 0 (p - q)) targetRow draftRow).sum), 0 ≤ w := by
      intro w hw
      obtain ⟨a, ha, rfl⟩ := List.mem_map.mp hw
      exact div_nonneg (residual_nonneg a ha) hpos.le
    obtain ⟨x, hx, hlt, hzero, hselected⟩ :=
      sampleFromDistribution_cases hnonneg (sum_normalized hpos.ne') h1
    rw [hx]
    rcases h0.eq_or_lt with heq | hlt
    · rw [hzero heq.symm]
      exact ⟨fun h _ => h, fun h => h heq.symm⟩
    · refine iff_of_true ?_ fun h => absurd h hlt.ne'
      obtain ⟨w, hw, hwpos⟩ := hselected hlt
      rw [List.getElem?_map, Option.map_eq_some_iff] at hw
      obtain ⟨a, ha, rfl⟩ := hw
      obtain ⟨p, hp, hppos⟩ := target_pos_of_residual hdraft.nonneg ha
        ((div_pos_iff_of_pos_right hpos).mp hwpos)
      rwa [probAt_of_get hp]

end Sampling
section Runs
variable {draftTokens : List ℤ} {draftProbs targetProbs : List (List 𝕜)} {eosTokenId : ℤ}
  {rng : Draws 𝕜} {n : ℕ}

/-- What the verifier is called with: distributions, and draft tokens that the draft can propose. -/
structure Speculation (V : ℕ) (draftTokens : List ℤ) (draftProbs targetProbs : List (List 𝕜)) :
    Prop where
  draftLength : draftProbs.length = draftTokens.length
  targetLength : draftTokens.length < targetProbs.length
  draft : ∀ row ∈ draftProbs, IsDistribution V row
  target : ∀ row ∈ targetProbs, IsDistribution V row
  tokens : ∀ (i : ℕ) (token : ℤ), draftTokens[i]? = some token →
    0 ≤ token ∧ 0 < probAt (draftProbs.getD i []) token

def Accepts (draftTokens : List ℤ) (draftProbs targetProbs : List (List 𝕜)) (rng : Draws 𝕜)
    (n : ℕ) (token : ℤ) : Prop :=
  draftTokens[n]? = some token ∧ rng n ≤ acceptanceRatio (probAt (draftProbs.getD n []) token)
    (probAt (targetProbs.getD n []) token)

def GoesOn (draftTokens : List ℤ) (draftProbs targetProbs : List (List 𝕜)) (eosTokenId : ℤ)
    (rng : Draws 𝕜) (n : ℕ) : Prop :=
  ∃ token, Accepts draftTokens draftProbs targetProbs rng n token ∧ token ≠ eosTokenId

theorem Speculation.drop (h : Speculation V draftTokens draftProbs targetProbs)
    (hn : n < draftTokens.length) :
    draftTokens.drop n = draftTokens[n] :: draftTokens.drop (n + 1) ∧
      draftProbs.drop n = draftProbs.getD n [] :: draftProbs.drop (n + 1) ∧
      targetProbs.drop n = targetProbs.getD n [] :: targetProbs.drop (n + 1) := by
  have hdraft : n < draftProbs.length := hn.trans_eq h.draftLength.symm
  have htarget : n < targetProbs.length := hn.trans h.targetLength
  rw [List.getD_eq_getElem _ _ hdraft, List.getD_eq_getElem _ _ htarget]
  exact ⟨List.drop_eq_getElem_cons hn, List.drop_eq_getElem_cons hdraft,
    List.drop_eq_getElem_cons htarget⟩

theorem Speculation.targetRow (h : Speculation V draftTokens draftProbs targetProbs)
    (hn : n ≤ draftTokens.length) : IsDistribution V (targetProbs.getD n []) := by
  have htarget : n < targetProbs.length := hn.trans_lt h.targetLength
  rw [List.getD_eq_getElem _ _ htarget]
  exact h.target _ (List.getElem_mem htarget)

theorem Speculation.draftRow (h : Speculation V draftTokens draftProbs targetProbs)
    (hn : n < draftTokens.length) : IsDistribution V (draftProbs.getD n []) := by
  have hdraft : n < draftProbs.length := hn.trans_eq h.draftLength.symm
  rw [List.getD_eq_getElem _ _ hdraft]
  exact h.draft _ (List.getElem_mem hdraft)

theorem verifyLoop_reached (h : Speculation V draftTokens draftProbs targetProbs)
    (hreached : ∀ j < n, GoesOn draftTokens draftProbs targetProbs eosTokenId rng j) :
    verifyLoop eosTokenId draftTokens draftProbs targetProbs rng {} =
      verifyLoop eosTokenId (draftTokens.drop n) (draftProbs.drop n) (targetProbs.drop n)
        (fun k => rng (n + k)) (accepting draftTokens n) := by
  induction n with
  | zero => simp only [Nat.zero_add, List.drop_zero]; rfl
  | succ n ih =>
    rw [ih fun j hj => hreached j (Nat.lt_succ_of_lt hj)]
    obtain ⟨token, ⟨htoken, haccept⟩, heos⟩ := hreached n (Nat.lt_succ_self n)
    obtain ⟨hn, rfl⟩ := List.getElem?_eq_some_iff.mp htoken
    obtain ⟨hdropTokens, hdropDraft, hdropTarget⟩ := h.drop hn
    have hdraws : rest (fun k => rng (n + k)) = fun k => rng (n + 1 + k) := by
      funext k
      rw [rest, Nat.add_right_comm, Nat.add_assoc]
    rw [hdropTokens, hdropDraft, hdropTarget, verifyLoop_cons, Nat.add_zero, if_pos haccept,
      if_neg heos, accepting_succ htoken, hdraws]

theorem verifyLoop_bonus (h : Speculation V draftTokens draftProbs targetProbs)
    (hreached : ∀ j < draftTokens.length,
      GoesOn draftTokens draftProbs targetProbs eosTokenId rng j) :
    (verifyLoop eosTokenId draftTokens draftProbs targetProbs rng {}).1 =
      endWith (accepting draftTokens draftTokens.length)
        (sampleFromDistribution (targetProbs.getD draftTokens.length [])
          fun k => rng (draftTokens.length + k)).1 eosTokenId := by
  rw [verifyLoop_reached h hreached, List.drop_length, verifyLoop,
    List.drop_eq_getElem_cons h.targetLength, List.getD_eq_getElem _ _ h.targetLength]
  rfl

theorem verifyLoop_ended (h : Speculation V draftTokens draftProbs targetProbs)
    (hreached : ∀ j < n, GoesOn draftTokens draftProbs targetProbs eosTokenId rng j)
    (haccepts : Accepts draftTokens draftProbs targetProbs rng n eosTokenId) :
    (verifyLoop eosTokenId draftTokens draftProbs targetProbs rng {}).1 =
      { accepting draftTokens (n + 1) with
        finalToken := eosTokenId, endOfSequence := true } := by
  obtain ⟨htoken, haccept⟩ := haccepts
  obtain ⟨hn, hget⟩ := List.getElem?_eq_some_iff.mp htoken
  obtain ⟨hdropTokens, hdropDraft, hdropTarget⟩ := h.drop hn
  rw [verifyLoop_reached h hreached, hdropTokens, hdropDraft, hdropTarget, verifyLoop_cons, hget,
    Nat.add_zero, if_pos haccept, if_pos rfl, accepting_succ htoken]

theorem verifyLoop_rejected (h : Speculation V draftTokens draftProbs targetProbs)
    (hreached : ∀ j < n, GoesOn draftTokens draftProbs targetProbs eosTokenId rng j)
    (hn : n < draftTokens.length)
    (hreject : ¬Accepts draftTokens draftProbs targetProbs rng n draftTokens[n]) :
    (verifyLoop eosTokenId draftTokens draftProbs targetProbs rng {}).1 =
      endWith (accepting draftTokens n)
        (sampleAdjustedDistribution (targetProbs.getD n []) (draftProbs.getD n [])
          fun k => rng (n + (k + 1))).1 eosTokenId := by
  have htest := fun hle => hreject ⟨List.getElem?_eq_getElem hn, hle⟩
  obtain ⟨hdropTokens, hdropDraft, hdropTarget⟩ := h.drop hn
  rw [verifyLoop_reached h hreached, hdropTokens, hdropDraft, hdropTarget, verifyLoop_cons,
    Nat.add_zero, if_neg htest]
  rfl

/-- Every accepted token and the final token have positive probability in the target rows of their
positions. -/
def EmitsPossible (targetProbs : List (List 𝕜)) (eosTokenId : ℤ)
    (result : SpeculativeVerificationResult) : Prop :=
  (∀ (i : ℕ) (token : ℤ), result.acceptedTokens[i]? = some token →
    0 < probAt (targetProbs.getD i []) token) ∧
  0 < probAt (targetProbs.getD (finalPosition result eosTokenId) []) result.finalToken

/-- At position `n`, no draw that accepts a candidate or samples the final token is zero, unless the
candidate, or the first token of the vocabulary, is possible there. -/
structure PossibleAt (draftTokens : List ℤ) (draftProbs targetProbs : List (List 𝕜))
    (rng : Draws 𝕜) (n : ℕ) : Prop where
  accepted : ∀ token, Accepts draftTokens draftProbs targetProbs rng n token →
    rng n = 0 → 0 < probAt (targetProbs.getD n []) token
  rejected : ∀ token, draftTokens[n]? = some token →
    ¬Accepts draftTokens draftProbs targetProbs rng n token →
    rng (n + 1) = 0 → 0 < probAt (targetProbs.getD n []) 0
  bonus : n = draftTokens.length → rng n = 0 → 0 < probAt (targetProbs.getD n []) 0

def AvoidsZeroDraws (draftTokens : List ℤ) (draftProbs targetProbs : List (List 𝕜))
    (eosTokenId : ℤ) (rng : Draws 𝕜) : Prop :=
  ∀ n ≤ draftTokens.length,
    (∀ j < n, GoesOn draftTokens draftProbs targetProbs eosTokenId rng j) →
    PossibleAt draftTokens draftProbs targetProbs rng n

theorem not_goesOn_length :
    ¬GoesOn draftTokens draftProbs targetProbs eosTokenId rng draftTokens.length := by
  rintro ⟨token, ⟨htoken, -⟩, -⟩
  rw [List.getElem?_eq_none le_rfl] at htoken
  cases htoken

section Possible
variable [IsStrictOrderedRing 𝕜]

/-- An accepted candidate is possible, but at a zero draw. -/
theorem Accepts.possible_iff (h : Speculation V draftTokens draftProbs targetProbs) {token : ℤ}
    (haccepts : Accepts draftTokens draftProbs targetProbs rng n token) (h0 : 0 ≤ rng n) :
    PossibleAt draftTokens draftProbs targetProbs rng n ↔
      0 < probAt (targetProbs.getD n []) token := by
  obtain ⟨htoken, hle⟩ := haccepts
  have hn := (List.getElem?_eq_some_iff.mp htoken).1
  have hq := (h.tokens n token htoken).2
  constructor
  · intro hpossible
    rcases h0.eq_or_lt with heq | hlt
    · exact hpossible.accepted token ⟨htoken, hle⟩ heq.symm
    · have hratio := hlt.trans_le hle
      rw [acceptanceRatio, if_pos hq, lt_min_iff] at hratio
      exact (div_pos_iff_of_pos_right hq).mp hratio.2
  · intro hpos
    refine ⟨fun token' haccepts' _ => ?_, fun token' htoken' hreject => ?_, fun heq => ?_⟩
    · obtain rfl := Option.some.inj (htoken.symm.trans haccepts'.1)
      exact hpos
    · obtain rfl := Option.some.inj (htoken.symm.trans htoken')
      exact absurd ⟨htoken, hle⟩ hreject
    · exact absurd heq hn.ne

/-- The accepted tokens are possible exactly when their positions are free of such draws. -/
theorem accepted_possible_iff (h : Speculation V draftTokens draftProbs targetProbs)
    (hrng : ∀ k, 0 ≤ rng k)
    (haccepts : ∀ j < n, ∃ token, Accepts draftTokens draftProbs targetProbs rng j token) :
    (∀ (i : ℕ) (token : ℤ), (draftTokens.take n)[i]? = some token →
      0 < probAt (targetProbs.getD i []) token) ↔
    ∀ j < n, PossibleAt draftTokens draftProbs targetProbs rng j := by
  constructor
  · intro hall j hj
    obtain ⟨token, haccept⟩ := haccepts j hj
    rw [haccept.possible_iff h (hrng j)]
    exact hall j token ((List.getElem?_take_of_lt hj).trans haccept.1)
  · intro hall i token hget
    have hi : i < n := by
      have hlt := (List.getElem?_eq_some_iff.mp hget).1
      rw [List.length_take] at hlt
      exact hlt.trans_le (Nat.min_le_left _ _)
    rw [List.getElem?_take_of_lt hi] at hget
    obtain ⟨token', haccept⟩ := haccepts i hi
    obtain rfl := Option.some.inj (hget.symm.trans haccept.1)
    exact (haccept.possible_iff h (hrng i)).mp (hall i hi)

/-- When the loop ends with a sampled token, that token decides about the position. -/
theorem emitsPossible_endWith (h : Speculation V draftTokens draftProbs targetProbs)
    (hrng : ∀ k, 0 ≤ rng k)
    (hreached : ∀ j < n, GoesOn draftTokens draftProbs targetProbs eosTokenId rng j)
    {finalToken : ℤ} (hfinal : 0 < probAt (targetProbs.getD n []) finalToken ↔
      PossibleAt draftTokens draftProbs targetProbs rng n) :
    EmitsPossible targetProbs eosTokenId
        (endWith (accepting draftTokens n) finalToken eosTokenId) ↔
      (∀ j < n, PossibleAt draftTokens draftProbs targetProbs rng j) ∧
        PossibleAt draftTokens draftProbs targetProbs rng n := by
  have hlast : (draftTokens.take n).getLast? ≠ some eosTokenId := by
    refine getLast_accepting fun j hj => ?_
    obtain ⟨token, haccept, heos⟩ := hreached j hj
    exact ⟨token, haccept.1, heos⟩
  rw [endWith_accepting, EmitsPossible, finalPosition_accepting hlast]
  refine and_congr (accepted_possible_iff h hrng fun j hj => ?_) hfinal
  obtain ⟨token, haccept, -⟩ := hreached j hj
  exact ⟨token, haccept⟩

theorem verifyLoop_possible_iff (h : Speculation V draftTokens draftProbs targetProbs)
    (hrng : ∀ k, 0 ≤ rng k ∧ rng k < 1) :
    EmitsPossible targetProbs eosTokenId
        (verifyLoop eosTokenId draftTokens draftProbs targetProbs rng {}).1 ↔
      AvoidsZeroDraws draftTokens draftProbs targetProbs eosTokenId rng := by
  have hnonneg := fun k => (hrng k).1
  have hend : ¬GoesOn draftTokens draftProbs targetProbs eosTokenId rng draftTokens.length :=
    not_goesOn_length
  obtain ⟨n, hn, hreached, hstop⟩ := exists_stop hend
  rw [AvoidsZeroDraws, forall_reached_iff hreached hstop hn]
  rcases hn.lt_or_eq with hlt | rfl
  · have htoken := List.getElem?_eq_getElem hlt
    by_cases haccepts : Accepts draftTokens draftProbs targetProbs rng n draftTokens[n]
    · have heos : draftTokens[n] = eosTokenId := by
        by_contra hne
        exact hstop ⟨_, haccepts, hne⟩
      rw [heos] at haccepts htoken
      have hall : ∀ j < n + 1, ∃ token,
          Accepts draftTokens draftProbs targetProbs rng j token := by
        intro j hj
        rcases Nat.lt_succ_iff_lt_or_eq.mp hj with hj | rfl
        · obtain ⟨token, haccept, -⟩ := hreached j hj
          exact ⟨token, haccept⟩
        · exact ⟨_, haccepts⟩
      rw [verifyLoop_ended h hreached haccepts, EmitsPossible, finalPosition_ended htoken,
        haccepts.possible_iff h (hnonneg n)]
      refine and_congr_left fun hpos => ?_
      refine (accepted_possible_iff h hnonneg hall).trans ?_
      rw [Nat.forall_lt_succ_right, haccepts.possible_iff h (hnonneg n), and_iff_left hpos]
    · rw [verifyLoop_rejected h hreached hlt haccepts]
      refine emitsPossible_endWith h hnonneg hreached ?_
      refine (replacement_possible_iff (h.targetRow hn) (h.draftRow hlt) (hnonneg (n + 1))
        (hrng (n + 1)).2).trans ?_
      constructor
      · intro hzero
        refine ⟨fun token haccept => ?_, fun _ _ _ => hzero, fun heq => absurd heq hlt.ne⟩
        obtain rfl := Option.some.inj (htoken.symm.trans haccept.1)
        exact absurd haccept haccepts
      · exact fun hpossible => hpossible.rejected _ htoken haccepts
  · rw [verifyLoop_bonus h hreached]
    refine emitsPossible_endWith h hnonneg hreached ?_
    refine (sample_possible_iff (h.targetRow le_rfl) (hnonneg draftTokens.length)
      (hrng draftTokens.length).2).trans ?_
    constructor
    · intro hzero
      refine ⟨fun token haccept => ?_, fun token htoken => ?_, fun _ => hzero⟩
      · rw [Accepts, List.getElem?_eq_none le_rfl] at haccept
        cases haccept.1
      · rw [List.getElem?_eq_none le_rfl] at htoken
        cases htoken
    · exact fun hpossible => hpossible.bonus rfl

/-- The verifier emits possible tokens only, exactly when no zero draw meets an impossible
candidate or samples from a row whose first token is impossible. -/
theorem verifyCandidates_possible_iff (h : Speculation V draftTokens draftProbs targetProbs)
    (hrng : ∀ k, 0 ≤ rng k ∧ rng k < 1) (eosTokenId : ℤ) :
    (∃ result rng', verifyCandidates draftTokens draftProbs targetProbs eosTokenId rng =
        .ok (result, rng') ∧ EmitsPossible targetProbs eosTokenId result) ↔
      AvoidsZeroDraws draftTokens draftProbs targetProbs eosTokenId rng := by
  have hdims : ¬(draftProbs.length ≠ draftTokens.length ∨
      targetProbs.length < draftTokens.length + 1) := by
    have hdraft := h.draftLength
    have htarget := h.targetLength
    omega
  rw [verifyCandidates, if_neg hdims, ← verifyLoop_possible_iff h hrng]
  constructor
  · rintro ⟨result, rng', hcall, hpossible⟩
    rw [Except.ok.inj hcall]
    exact hpossible
  · exact fun hpossible => ⟨_, _, rfl, hpossible⟩

end Possible

section TwoTokens

theorem isDistribution_pair {p : ℚ} (h0 : 0 ≤ p) (h1 : p ≤ 1) :
    IsDistribution 2 [1 - p, p] := by
  refine ⟨rfl, fun x hx => ?_, by simp⟩
  simp only [List.mem_cons, List.not_mem_nil, or_false] at hx
  rcases hx with rfl | rfl
  · exact sub_nonneg.mpr h1
  · exact h0

/-- Token 1 of two is the only draft. -/
theorem speculation_pair {q p p' : ℚ} (hq : 0 < q ∧ q ≤ 1) (hp : 0 ≤ p ∧ p ≤ 1)
    (hp' : 0 ≤ p' ∧ p' ≤ 1) : Speculation 2 [1] [[1 - q, q]] [[1 - p, p], [1 - p', p']] where
  draftLength := rfl
  targetLength := Nat.one_lt_two
  draft row hrow := by
    rw [List.mem_singleton.mp hrow]
    exact isDistribution_pair hq.1.le hq.2
  target row hrow := by
    simp only [List.mem_cons, List.not_mem_nil, or_false] at hrow
    rcases hrow with rfl | rfl
    · exact isDistribution_pair hp.1 hp.2
    · exact isDistribution_pair hp'.1 hp'.2
  tokens i token htoken := by
    cases i with
    | zero =>
      obtain rfl := Option.some.inj htoken
      exact ⟨zero_le_one, hq.1⟩
    | succ i => cases htoken

theorem verifyCandidates_possible_pair :
    (∃ result rng', verifyCandidates [1] [[1 - 1 / 2, 1 / 2]]
        [[1 - 1 / 4, 1 / 4], [1 - 1, 1]] 0 (fun _ => (1 / 2 : ℚ)) = .ok (result, rng') ∧
      EmitsPossible [[1 - 1 / 4, 1 / 4], [1 - 1, (1 : ℚ)]] 0 result) ↔
    AvoidsZeroDraws [1] [[1 - 1 / 2, 1 / 2]] [[1 - 1 / 4, 1 / 4], [1 - 1, 1]] 0
      (fun _ => (1 / 2 : ℚ)) :=
  verifyCandidates_possible_iff (speculation_pair (by norm_num) (by norm_num) (by norm_num))
    (fun _ => by norm_num) 0

/-- A zero draw accepts a token that the target rules out, and a zero draw samples the ruled-out
first token of the bonus row. -/
theorem impossible_emitted :
    Speculation 2 [1] [[1 - 1 / 2, 1 / 2]] [[1 - 0, 0], [1 - 1, (1 : ℚ)]] ∧
    ¬∃ result rng', verifyCandidates [1] [[1 - 1 / 2, 1 / 2]] [[1 - 0, 0], [1 - 1, 1]] 0
        (fun _ => (0 : ℚ)) = .ok (result, rng') ∧
      EmitsPossible [[1 - 0, 0], [1 - 1, (1 : ℚ)]] 0 result := by
  refine ⟨speculation_pair (by norm_num) (by norm_num) (by norm_num), ?_⟩
  rintro ⟨result, rng', hcall, haccepted, -⟩
  have hresult : result.acceptedTokens = [1] := by
    have heq := (Prod.ext_iff.mp (Except.ok.inj hcall)).1
    dsimp only at heq
    rw [← heq]
    decide +kernel
  have hpos := haccepted 0 1 (by rw [hresult]; rfl)
  exact lt_irrefl _ hpos

end TwoTokens

end Runs

end SpeculativeEngine
end CudaForge.Scheduler
