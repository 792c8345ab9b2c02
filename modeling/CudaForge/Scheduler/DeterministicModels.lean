import CudaForge.Scheduler.SpeculativeAccess

/-! The stochastic and the greedy verifier on models that put all mass on one token. -/
namespace CudaForge.Scheduler
open FirstMaximum

/-- A vocabulary of tokens that are `int32_t` values. -/
structure Vocabulary where
  size : ℕ
  int32 : size ≤ 2 ^ 31

namespace CheckedEngine
variable {𝕜 : Type*} [Field 𝕜] [LinearOrder 𝕜] {V t d : ℕ}

theorem castInt32_token {V : Vocabulary} (t : Fin V.size) : castInt32 t = t := by
  have hlt := t.isLt.trans_le V.int32
  exact castInt32_eq (Int.natCast_nonneg _) (by exact_mod_cast hlt)

section Rows

def oneHot (V t : ℕ) : List 𝕜 := (List.replicate V 0).set t 1

omit [LinearOrder 𝕜] in
theorem oneHot_length (V t : ℕ) : (oneHot V t : List 𝕜).length = V := by
  rw [oneHot, List.length_set, List.length_replicate]

omit [LinearOrder 𝕜] in
theorem oneHot_get {i : ℕ} (hi : i < V) :
    (oneHot V t : List 𝕜)[i]? = some (if t = i then 1 else 0) := by
  rw [oneHot, List.getElem?_set, List.getElem?_replicate, List.length_replicate, if_pos hi]
  by_cases h : t = i
  · rw [if_pos h, if_pos h, if_pos (h ▸ hi)]
  · rw [if_neg h, if_neg h]

omit [LinearOrder 𝕜] in
theorem entry_oneHot {i : ℕ} (hi : i < V) :
    entry (oneHot V t : List 𝕜) i = some (if t = i then 1 else 0) := by
  rw [entry, if_pos (Int.natCast_nonneg i), Int.toNat_natCast, oneHot_get hi]

omit [LinearOrder 𝕜] in
theorem sum_oneHot (ht : t < V) : (oneHot V t : List 𝕜).sum = 1 := by
  induction V generalizing t with
  | zero => exact absurd ht (Nat.not_lt_zero t)
  | succ V ih =>
    cases t with
    | zero =>
      rw [oneHot, List.replicate_succ, List.set_cons_zero, List.sum_cons, List.sum_replicate,
        smul_zero, add_zero]
    | succ t =>
      have hrest := ih (Nat.succ_lt_succ_iff.mp ht)
      rw [oneHot, List.replicate_succ, List.set_cons_succ, List.sum_cons, zero_add]
      exact hrest

/-- A draw that is neither zero nor greater than one selects the token. -/
theorem sampleLoop_oneHot {r : 𝕜} (hpos : 0 < r) (hle : r ≤ 1) (ht : t < V) (i : ℕ) :
    sampleLoop r (oneHot V t) 0 i = some (i + t) := by
  induction V generalizing t i with
  | zero => exact absurd ht (Nat.not_lt_zero t)
  | succ V ih =>
    cases t with
    | zero =>
      rw [oneHot, List.replicate_succ, List.set_cons_zero, sampleLoop, zero_add, if_pos hle,
        Nat.add_zero]
    | succ t =>
      have hrest := ih (Nat.succ_lt_succ_iff.mp ht) (i + 1)
      rw [oneHot, List.replicate_succ, List.set_cons_succ, sampleLoop, zero_add,
        if_neg hpos.not_ge]
      rw [oneHot] at hrest
      rw [hrest, Nat.add_assoc, Nat.add_comm 1]

theorem sampleIndex_oneHot {r : 𝕜} (hr : 0 < r ∧ r < 1) (ht : t < V) :
    sampleIndex (oneHot V t) r = t := by
  rw [sampleIndex, sampleLoop_oneHot hr.1 hr.2.le ht, Nat.zero_add]

theorem replacementRow_oneHot (ht : t < V) :
    replacementRow SpeculativeEngine.residualEps (oneHot V t : List 𝕜) (oneHot V t) =
      oneHot V t := by
  unfold replacementRow
  dsimp only
  split_ifs
  · rfl
  · rw [← List.sum_eq_foldl, sum_oneHot ht]
    simp

variable [IsStrictOrderedRing 𝕜]

theorem maxElement_oneHot (ht : t < V) : maxElement (oneHot V t : List 𝕜) = t := by
  rw [maxElement_eq]
  apply IsFirst.firstArgmax_eq (x := 1)
  constructor
  · rw [oneHot_get ht, if_pos rfl]
  · intro y hy
    obtain ⟨i, hi⟩ := List.mem_iff_getElem?.mp hy
    have hlt := (List.getElem?_eq_some_iff.mp hi).1
    rw [oneHot_length] at hlt
    rw [oneHot_get hlt] at hi
    obtain rfl := Option.some.inj hi
    split_ifs
    · exact le_rfl
    · exact zero_le_one
  · intro j y hj hy
    rw [oneHot_get (hj.trans ht), if_neg hj.ne'] at hy
    obtain rfl := Option.some.inj hy
    exact zero_lt_one

theorem argmaxToken_oneHot {V : Vocabulary} (t : Fin V.size) :
    argmaxToken (oneHot V.size t : List 𝕜) = castInt32 t := by
  rw [argmaxToken, maxElement_oneHot t.isLt]

/-- The residual of two different tokens is the mass of the target's. -/
theorem adjustedRow_oneHot (h : d ≠ t) :
    adjustedRow (oneHot V t : List 𝕜) (oneHot V d) = some (oneHot V t) := by
  rw [adjustedRow_eq ((oneHot_length V t).trans (oneHot_length V d).symm), Option.some.injEq]
  apply List.ext_getElem?
  intro i
  rcases Nat.lt_or_ge i V with hi | hi
  · rw [List.getElem?_zipWith, oneHot_get hi, oneHot_get hi]
    dsimp only
    split_ifs with ht hd hd
    · exact absurd (hd.trans ht.symm) h
    · simp
    · simp
    · simp
  · rw [List.getElem?_eq_none, List.getElem?_eq_none]
    · rwa [oneHot_length]
    · rwa [List.length_zipWith, oneHot_length, oneHot_length, Nat.min_self]

/-- The ratio tells whether the draft token is the target's. -/
theorem acceptanceRatio_oneHot :
    acceptanceRatio (1 : 𝕜) (if t = d then 1 else 0) = if t = d then 1 else 0 := by
  rw [acceptanceRatio, if_pos zero_lt_one, div_one]
  by_cases h : t = d
  · rw [if_pos h, if_neg (lt_irrefl 1)]
  · rw [if_neg h, if_pos zero_lt_one]

end Rows

section Agreement
variable {V : Vocabulary}

def tokenIds (tokens : List (Fin V.size)) : List ℤ := tokens.map fun t => (t.val : ℤ)

def oneHotRows (tokens : List (Fin V.size)) : List (List 𝕜) :=
  tokens.map fun t => oneHot V.size t.val

variable [IsStrictOrderedRing 𝕜]

/-- From any position on, the loops take the same exit with the same token. -/
theorem loops_agree {eosTokenId : ℤ} {draftProbs targetProbs : List (List 𝕜)}
    {draftTokens : List (Fin V.size)} {i : ℕ} {rng : Draws 𝕜}
    (hdraft : ∀ (j : ℕ) (d : Fin V.size), draftTokens[j]? = some d →
      draftProbs[i + j]? = some (oneHot V.size d))
    (htarget : ∀ j ≤ draftTokens.length, ∃ t : Fin V.size,
      targetProbs[i + j]? = some (oneHot V.size t))
    (hrng : ∀ n, 0 < rng n ∧ rng n < 1) (result : SpeculativeVerificationResult) :
    ∃ final rng', verifyLoop SpeculativeEngine.residualEps draftProbs targetProbs eosTokenId
          (tokenIds draftTokens) i rng result = .ok (final, rng') ∧
        greedyLoop targetProbs eosTokenId (tokenIds draftTokens) i result = .ok final := by
  induction draftTokens generalizing i rng result with
  | nil =>
    obtain ⟨t, ht⟩ := htarget 0 le_rfl
    rw [Nat.add_zero] at ht
    rw [tokenIds, List.map_nil, verifyLoop, greedyLoop, ht]
    dsimp only
    rw [sampleFromDistribution, sampleIndex_oneHot (hrng 0) t.isLt, argmaxToken_oneHot t,
      castInt32_token]
    exact ⟨_, _, rfl, rfl⟩
  | cons d draftTokens ih =>
    obtain ⟨t, ht⟩ := htarget 0 (Nat.zero_le _)
    have hd := hdraft 0 d rfl
    rw [Nat.add_zero] at ht hd
    rw [tokenIds, List.map_cons, verifyLoop, greedyLoop, hd, ht]
    dsimp only
    rw [entry_oneHot d.isLt, entry_oneHot d.isLt, if_pos rfl, argmaxToken_oneHot t]
    dsimp only
    rw [acceptanceRatio_oneHot]
    by_cases h : (t : ℕ) = d
    · have htoken : (d : ℤ) = castInt32 t := by rw [castInt32_token, h]
      rw [if_pos h, if_pos (hrng 0).2.le, if_pos htoken]
      split_ifs
      · exact ⟨_, _, rfl, rfl⟩
      · refine ih (fun j d' hj => ?_) (fun j hj => ?_) (fun n => hrng (n + 1)) _
        · rw [Nat.add_right_comm, Nat.add_assoc]
          exact hdraft (j + 1) d' hj
        · rw [Nat.add_right_comm, Nat.add_assoc]
          exact htarget (j + 1) (Nat.succ_le_succ hj)
    · have htoken : (d : ℤ) ≠ castInt32 t := by
        rw [castInt32_token]
        exact fun heq => h (Int.ofNat.inj heq).symm
      rw [if_neg h, if_neg (hrng 0).1.not_ge, if_neg htoken, sampleAdjustedDistribution,
        adjustedRow_oneHot (Ne.symm h), Option.map_some, replacementRow_oneHot t.isLt,
        sampleFromDistribution, sampleIndex_oneHot (hrng 1) t.isLt]
      exact ⟨_, _, rfl, rfl⟩

/-- On one-hot rows the stochastic verifier returns what the greedy one does, whatever it draws. -/
theorem verifiers_agree (V : Vocabulary) (draftTokens targets : List (Fin V.size))
    (eosTokenId : ℤ) (rng : Draws 𝕜) (hlength : draftTokens.length < targets.length)
    (hrng : ∀ n, 0 < rng n ∧ rng n < 1) :
    ∃ result rng', verifyCandidates SpeculativeEngine.residualEps (tokenIds draftTokens)
          (oneHotRows draftTokens) (oneHotRows targets) eosTokenId rng = .ok (result, rng') ∧
        verifyCandidatesGreedy (tokenIds draftTokens) (oneHotRows (𝕜 := 𝕜) targets) eosTokenId =
          .ok result := by
  have hdims : ¬((oneHotRows (𝕜 := 𝕜) draftTokens).length ≠ (tokenIds draftTokens).length ∨
      (oneHotRows (𝕜 := 𝕜) targets).length < (tokenIds draftTokens).length + 1) := by
    simp only [oneHotRows, tokenIds, List.length_map]
    omega
  rw [verifyCandidates, if_neg hdims]
  apply loops_agree _ _ hrng
  · intro j d hj
    rw [oneHotRows, Nat.zero_add, List.getElem?_map, hj, Option.map_some]
  · intro j hj
    have hjt : j < targets.length := hj.trans_lt hlength
    refine ⟨targets[j], ?_⟩
    rw [oneHotRows, Nat.zero_add, List.getElem?_map, List.getElem?_eq_getElem hjt,
      Option.map_some]

/-- A mismatch at the second of two drafts. -/
theorem verifiers_agree_mismatch :
    let V : Vocabulary := ⟨3, by decide⟩
    let draftTokens : List (Fin V.size) := [⟨1, by decide⟩, ⟨2, by decide⟩]
    let targets : List (Fin V.size) := [⟨1, by decide⟩, ⟨0, by decide⟩, ⟨2, by decide⟩]
    ∃ result rng', verifyCandidates (F := ℚ) SpeculativeEngine.residualEps (tokenIds draftTokens)
          (oneHotRows draftTokens) (oneHotRows targets) 0 (fun _ => 1 / 2) = .ok (result, rng') ∧
        verifyCandidatesGreedy (tokenIds draftTokens) (oneHotRows (𝕜 := ℚ) targets) 0 =
          .ok result := by
  intro V draftTokens targets
  exact verifiers_agree V draftTokens targets 0 _ (by decide) fun _ => by norm_num

end Agreement

end CheckedEngine
end CudaForge.Scheduler
