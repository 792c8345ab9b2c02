import CudaForge.Library.FirstMaximum
import CudaForge.Scheduler.Speculative

/-!
The two verifiers with their vector accesses and casts. Floats are any type with the operations that
the code uses, of which no law is assumed: rounding, infinities and NaN are all covered.
-/
namespace CudaForge.Scheduler
open FirstMaximum

inductive VerifyFault where
  | thrown (exception : SpeculativeEngine.SpeculativeException)
  | outOfBounds
  deriving DecidableEq

namespace CheckedEngine
variable {F : Type*}

/-- `static_cast<int32_t>`. -/
def castInt32 (n : ℤ) : ℤ := Int.bmod n (2 ^ 32)

/-- `row[token]`. A negative token is converted to an index behind every row. -/
def entry (row : List F) (token : ℤ) : Option F := if 0 ≤ token then row[token.toNat]? else none

section Sampling
variable [Zero F] [One F] [Add F] [Sub F] [Div F] [LT F] [LE F] [DecidableLT F] [DecidableLE F]

/-- The first index from `i` on whose cumulative probability reaches `r`. -/
def sampleLoop (r : F) : List F → F → ℕ → Option ℕ
  | [], _, _ => none
  | p :: probs, cumulative, i =>
    if r ≤ cumulative + p then some i else sampleLoop r probs (cumulative + p) (i + 1)

/-- The index before its cast; it is `-1` for an empty row, as the `size_t` casts to that. -/
def sampleIndex (probs : List F) (r : F) : ℤ :=
  match sampleLoop r probs 0 0 with
  | some i => i
  | none => probs.length - 1

def sampleFromDistribution (probs : List F) (rng : Draws F) : ℤ × Draws F :=
  (castInt32 (sampleIndex probs (rng 0)), fun n => rng (n + 1))

/-- The loop over `adjusted`, which reads `draft_q` at every index of the target row. -/
def adjustedRow : List F → List F → Option (List F)
  | [], _ => some []
  | _ :: _, [] => none
  | p :: targetP, q :: draftQ =>
    (adjustedRow targetP draftQ).map fun adjusted => (if 0 < p - q then p - q else 0) :: adjusted

def replacementRow (eps : F) (targetP adjusted : List F) : List F :=
  let sum := adjusted.foldl (· + ·) 0
  if sum ≤ eps then targetP else adjusted.map (· / sum)

def sampleAdjustedDistribution (eps : F) (targetP draftQ : List F) (rng : Draws F) :
    Option (ℤ × Draws F) :=
  (adjustedRow targetP draftQ).map fun adjusted =>
    sampleFromDistribution (replacementRow eps targetP adjusted) rng

def acceptanceRatio (q p : F) : F := if 0 < q then if p / q < 1 then p / q else 1 else 0

end Sampling

section Verifiers
variable [LT F] [DecidableLT F]

def argmaxToken (row : List F) : ℤ := castInt32 (maxElement row)

/-- The draft tokens from position `i` on and, behind them, the bonus token. -/
def greedyLoop (targetProbs : List (List F)) (eosTokenId : ℤ) : List ℤ → ℕ →
    SpeculativeVerificationResult → Except VerifyFault SpeculativeVerificationResult
  | [], i, result =>
    match targetProbs[i]? with
    | none => .error .outOfBounds
    | some row => .ok (SpeculativeEngine.endWith result (argmaxToken row) eosTokenId)
  | candidateToken :: draftTokens, i, result =>
    match targetProbs[i]? with
    | none => .error .outOfBounds
    | some row =>
      if candidateToken = argmaxToken row then
        let result := SpeculativeEngine.acceptToken result candidateToken
        if candidateToken = eosTokenId then
          .ok { result with endOfSequence := true, finalToken := eosTokenId }
        else greedyLoop targetProbs eosTokenId draftTokens (i + 1) result
      else .ok (SpeculativeEngine.endWith result (argmaxToken row) eosTokenId)

def verifyCandidatesGreedy (draftTokens : List ℤ) (targetProbs : List (List F))
    (eosTokenId : ℤ) : Except VerifyFault SpeculativeVerificationResult :=
  greedyLoop targetProbs eosTokenId draftTokens 0 {}

variable [Zero F] [One F] [Add F] [Sub F] [Div F] [LE F] [DecidableLE F]

/-- The draft tokens from position `i` on and, behind them, the bonus token; `eps` is `1e-6f`. -/
def verifyLoop (eps : F) (draftProbs targetProbs : List (List F)) (eosTokenId : ℤ) : List ℤ → ℕ →
    Draws F → SpeculativeVerificationResult →
    Except VerifyFault (SpeculativeVerificationResult × Draws F)
  | [], i, rng, result =>
    match targetProbs[i]? with
    | none => .error .outOfBounds
    | some targetRow =>
      let (finalToken, rng) := sampleFromDistribution targetRow rng
      .ok (SpeculativeEngine.endWith result finalToken eosTokenId, rng)
  | candidateToken :: draftTokens, i, rng, result =>
    match draftProbs[i]?, targetProbs[i]? with
    | some draftRow, some targetRow =>
      match entry draftRow candidateToken, entry targetRow candidateToken with
      | some q, some p =>
        if rng 0 ≤ acceptanceRatio q p then
          let result := SpeculativeEngine.acceptToken result candidateToken
          if candidateToken = eosTokenId then
            .ok ({ result with endOfSequence := true, finalToken := eosTokenId },
              fun n => rng (n + 1))
          else
            verifyLoop eps draftProbs targetProbs eosTokenId draftTokens (i + 1)
              (fun n => rng (n + 1)) result
        else
          match sampleAdjustedDistribution eps targetRow draftRow fun n => rng (n + 1) with
          | none => .error .outOfBounds
          | some (finalToken, rng) =>
            .ok (SpeculativeEngine.endWith result finalToken eosTokenId, rng)
      | _, _ => .error .outOfBounds
    | _, _ => .error .outOfBounds

def verifyCandidates (eps : F) (draftTokens : List ℤ) (draftProbs targetProbs : List (List F))
    (eosTokenId : ℤ) (rng : Draws F) :
    Except VerifyFault (SpeculativeVerificationResult × Draws F) :=
  if draftProbs.length ≠ draftTokens.length ∨ targetProbs.length < draftTokens.length + 1 then
    .error (.thrown .invalidArgument)
  else verifyLoop eps draftProbs targetProbs eosTokenId draftTokens 0 rng {}

end Verifiers

section Safety

/-- The position that the final token is for: the last accepted one if the sequence ended there. -/
def finalPosition (result : SpeculativeVerificationResult) (eosTokenId : ℤ) : ℕ :=
  if result.acceptedTokens.getLast? = some eosTokenId then result.numAccepted - 1
  else result.numAccepted

/-- The call throws, or stays in bounds and its final token is an index of the row of its
position. -/
def MemorySafe (targetProbs : List (List F)) (eosTokenId : ℤ) :
    Except VerifyFault SpeculativeVerificationResult → Prop
  | .error fault => fault ≠ .outOfBounds
  | .ok result => ∃ row, targetProbs[finalPosition result eosTokenId]? = some row ∧
      0 ≤ result.finalToken ∧ result.finalToken < row.length

theorem memorySafe_ok {targetProbs : List (List F)} {eosTokenId : ℤ} {n : ℕ} {row : List F}
    {result : SpeculativeVerificationResult} (hn : finalPosition result eosTokenId = n)
    (hrow : targetProbs[n]? = some row) :
    MemorySafe targetProbs eosTokenId (.ok result) ↔
      0 ≤ result.finalToken ∧ result.finalToken < row.length := by
  simp only [MemorySafe, hn, hrow, Option.some.injEq, exists_eq_left']

/-- An index of a row is an index of it after the cast. -/
theorem castInt32_mem {k : ℕ} {length : ℕ} (h : k < length) :
    (0 ≤ castInt32 k ∧ castInt32 k < length) ↔ k % 2 ^ 32 < 2 ^ 31 := by
  unfold castInt32 Int.bmod
  dsimp only
  split_ifs <;> omega

def accepting (draftTokens : List ℤ) (n : ℕ) : SpeculativeVerificationResult where
  acceptedTokens := draftTokens.take n
  numAccepted := n

theorem accepting_succ {draftTokens : List ℤ} {n : ℕ} {token : ℤ}
    (h : draftTokens[n]? = some token) :
    SpeculativeEngine.acceptToken (accepting draftTokens n) token =
      accepting draftTokens (n + 1) := by
  simp only [SpeculativeEngine.acceptToken, accepting, List.take_add_one, h, Option.toList_some]

theorem endWith_accepting (draftTokens : List ℤ) (n : ℕ) (finalToken eosTokenId : ℤ) :
    SpeculativeEngine.endWith (accepting draftTokens n) finalToken eosTokenId =
      { accepting draftTokens n with
        finalToken := finalToken
        endOfSequence := decide (finalToken = eosTokenId) } := by
  unfold SpeculativeEngine.endWith
  split_ifs with h
  · rw [decide_eq_true h]
  · rw [decide_eq_false h]
    rfl

theorem entry_mem {row : List F} {token : ℤ} {x : F} (h : entry row token = some x) :
    0 ≤ token ∧ token < row.length := by
  unfold entry at h
  split_ifs at h with hnonneg
  have hlt := (List.getElem?_eq_some_iff.mp h).1
  omega

/-- No token ended the sequence so far. -/
theorem getLast_accepting {draftTokens : List ℤ} {n : ℕ} {eosTokenId : ℤ}
    (h : ∀ j < n, ∃ token, draftTokens[j]? = some token ∧ token ≠ eosTokenId) :
    (draftTokens.take n).getLast? ≠ some eosTokenId := by
  cases n with
  | zero => simp
  | succ n =>
    obtain ⟨token, htoken, heos⟩ := h n (Nat.lt_succ_self n)
    rw [List.take_add_one, htoken, Option.toList_some, List.getLast?_concat]
    exact fun heq => heos (Option.some.inj heq)

theorem finalPosition_accepting {draftTokens : List ℤ} {n : ℕ} {finalToken eosTokenId : ℤ}
    {endOfSequence : Bool} (h : (draftTokens.take n).getLast? ≠ some eosTokenId) :
    finalPosition { accepting draftTokens n with
      finalToken := finalToken, endOfSequence := endOfSequence } eosTokenId = n :=
  if_neg h

theorem finalPosition_ended {draftTokens : List ℤ} {n : ℕ} {eosTokenId : ℤ}
    (h : draftTokens[n]? = some eosTokenId) :
    finalPosition { accepting draftTokens (n + 1) with
      finalToken := eosTokenId, endOfSequence := true } eosTokenId = n := by
  refine if_pos ?_
  simp only [accepting, List.take_add_one, h, Option.toList_some, List.getLast?_concat]

/-- The first number that does not have a property, when some number has not. -/
theorem exists_stop {P : ℕ → Prop} {n : ℕ} (h : ¬P n) : ∃ m ≤ n, (∀ j < m, P j) ∧ ¬P m := by
  classical
  have hend : ∃ n, ¬P n := ⟨n, h⟩
  exact ⟨Nat.find hend, Nat.find_min' hend h, fun j hj => not_not.mp (Nat.find_min hend hj),
    Nat.find_spec hend⟩

/-- The positions that a loop comes to are those up to the first at which it does not go on. -/
theorem forall_reached_iff {P Q : ℕ → Prop} {n last : ℕ} (hreached : ∀ j < n, P j) (hstop : ¬P n)
    (hn : n ≤ last) :
    (∀ m ≤ last, (∀ j < m, P j) → Q m) ↔ (∀ m < n, Q m) ∧ Q n := by
  constructor
  · intro h
    exact ⟨fun m hm => h m (hm.le.trans hn) fun j hj => hreached j (hj.trans hm), h n hn hreached⟩
  · rintro ⟨hbefore, hat⟩ m - hm
    rcases Nat.lt_trichotomy m n with hlt | rfl | hgt
    · exact hbefore m hlt
    · exact hat
    · exact absurd (hm n hgt) hstop

/-- The candidate at position `n` indexes both rows there, at the entries `q` and `p`. -/
structure Reads (draftTokens : List ℤ) (draftProbs targetProbs : List (List F)) (n : ℕ)
    (candidateToken : ℤ) (draftRow targetRow : List F) (q p : F) : Prop where
  candidate : draftTokens[n]? = some candidateToken
  draft : draftProbs[n]? = some draftRow
  target : targetProbs[n]? = some targetRow
  draftEntry : entry draftRow candidateToken = some q
  targetEntry : entry targetRow candidateToken = some p

theorem Reads.unique {draftTokens : List ℤ} {draftProbs targetProbs : List (List F)} {n : ℕ}
    {token token' : ℤ} {draftRow draftRow' targetRow targetRow' : List F} {q q' p p' : F}
    (h : Reads draftTokens draftProbs targetProbs n token draftRow targetRow q p)
    (h' : Reads draftTokens draftProbs targetProbs n token' draftRow' targetRow' q' p') :
    draftRow = draftRow' ∧ targetRow = targetRow' ∧ q = q' ∧ p = p' := by
  obtain rfl := Option.some.inj (h.candidate.symm.trans h'.candidate)
  obtain rfl := Option.some.inj (h.draft.symm.trans h'.draft)
  obtain rfl := Option.some.inj (h.target.symm.trans h'.target)
  exact ⟨rfl, rfl, Option.some.inj (h.draftEntry.symm.trans h'.draftEntry),
    Option.some.inj (h.targetEntry.symm.trans h'.targetEntry)⟩

end Safety

section Greedy
variable [LT F] [DecidableLT F] {draftTokens : List ℤ} {targetProbs : List (List F)}
  {eosTokenId : ℤ} {n : ℕ}

def GreedyContinues (draftTokens : List ℤ) (targetProbs : List (List F)) (eosTokenId : ℤ) (n : ℕ) :
    Prop :=
  ∃ row, targetProbs[n]? = some row ∧ draftTokens[n]? = some (argmaxToken row) ∧
    argmaxToken row ≠ eosTokenId

theorem GreedyContinues.token (h : GreedyContinues draftTokens targetProbs eosTokenId n) :
    ∃ token, draftTokens[n]? = some token ∧ token ≠ eosTokenId := by
  obtain ⟨row, -, htoken, heos⟩ := h
  exact ⟨argmaxToken row, htoken, heos⟩

theorem greedyLoop_reached (h : ∀ j < n, GreedyContinues draftTokens targetProbs eosTokenId j) :
    verifyCandidatesGreedy draftTokens targetProbs eosTokenId =
      greedyLoop targetProbs eosTokenId (draftTokens.drop n) n (accepting draftTokens n) := by
  induction n with
  | zero => rfl
  | succ n ih =>
    rw [ih fun j hj => h j (Nat.lt_succ_of_lt hj)]
    obtain ⟨row, hrow, htoken, heos⟩ := h n (Nat.lt_succ_self n)
    obtain ⟨hn, hget⟩ := List.getElem?_eq_some_iff.mp htoken
    rw [List.drop_eq_getElem_cons hn, hget, greedyLoop, hrow]
    simp only [if_true, if_neg heos, accepting_succ htoken]

theorem not_greedyContinues_length :
    ¬GreedyContinues draftTokens targetProbs eosTokenId draftTokens.length := by
  rintro ⟨row, -, htoken, -⟩
  rw [List.getElem?_eq_none le_rfl] at htoken
  cases htoken

/-- The result when position `n` is the first at which the loop does not go on. -/
theorem greedyLoop_stop {row : List F}
    (hreached : ∀ j < n, GreedyContinues draftTokens targetProbs eosTokenId j)
    (hstop : ¬GreedyContinues draftTokens targetProbs eosTokenId n)
    (hn : n ≤ draftTokens.length) (hrow : targetProbs[n]? = some row) :
    verifyCandidatesGreedy draftTokens targetProbs eosTokenId = .ok (
      if draftTokens[n]? = some (argmaxToken row) then
        { accepting draftTokens (n + 1) with finalToken := eosTokenId, endOfSequence := true }
      else
        { accepting draftTokens n with
          finalToken := argmaxToken row
          endOfSequence := decide (argmaxToken row = eosTokenId) }) := by
  rw [greedyLoop_reached hreached]
  rcases hn.lt_or_eq with hlt | rfl
  · have htoken := List.getElem?_eq_getElem hlt
    rw [List.drop_eq_getElem_cons hlt, greedyLoop, hrow]
    dsimp only
    rw [htoken, accepting_succ htoken, endWith_accepting]
    by_cases hargmax : draftTokens[n] = argmaxToken row
    · have heos : draftTokens[n] = eosTokenId := by
        by_contra hne
        exact hstop ⟨row, hrow, hargmax ▸ htoken, hargmax ▸ hne⟩
      rw [if_pos hargmax, if_pos heos, if_pos (congrArg some hargmax)]
    · rw [if_neg hargmax, if_neg fun h => hargmax (Option.some.inj h)]
  · rw [List.drop_length, greedyLoop, hrow, List.getElem?_eq_none le_rfl, if_neg nofun]
    dsimp only
    rw [endWith_accepting]

theorem greedyLoop_fault
    (hreached : ∀ j < n, GreedyContinues draftTokens targetProbs eosTokenId j)
    (hrow : targetProbs[n]? = none) :
    verifyCandidatesGreedy draftTokens targetProbs eosTokenId = .error .outOfBounds := by
  rw [greedyLoop_reached hreached]
  cases draftTokens.drop n <;> simp only [greedyLoop, hrow]

/-- Every row that the loop comes to is there, and the row where it stops is not empty and its
argmax is an `int32_t`, up to the wrap of the cast. -/
def GreedyInBounds (draftTokens : List ℤ) (targetProbs : List (List F)) (eosTokenId : ℤ) : Prop :=
  ∀ n ≤ draftTokens.length,
    (∀ j < n, GreedyContinues draftTokens targetProbs eosTokenId j) →
    ∃ row, targetProbs[n]? = some row ∧
      (¬GreedyContinues draftTokens targetProbs eosTokenId n →
        row ≠ [] ∧ maxElement row % 2 ^ 32 < 2 ^ 31)

theorem argmaxToken_mem {row : List F} :
    (0 ≤ argmaxToken row ∧ argmaxToken row < row.length) ↔
      row ≠ [] ∧ maxElement row % 2 ^ 32 < 2 ^ 31 := by
  rcases eq_or_ne row [] with rfl | hne
  · refine iff_of_false (fun h => ?_) fun h => h.1 rfl
    rw [List.length_nil] at h
    omega
  · rw [and_iff_right hne]
    exact castInt32_mem (maxElement_lt hne)

theorem greedy_memorySafe_iff (draftTokens : List ℤ) (targetProbs : List (List F))
    (eosTokenId : ℤ) :
    MemorySafe targetProbs eosTokenId (verifyCandidatesGreedy draftTokens targetProbs eosTokenId) ↔
      GreedyInBounds draftTokens targetProbs eosTokenId := by
  have hend : ¬GreedyContinues draftTokens targetProbs eosTokenId draftTokens.length :=
    not_greedyContinues_length
  obtain ⟨n, hn, hreached, hstop⟩ := exists_stop hend
  have honly : GreedyInBounds draftTokens targetProbs eosTokenId ↔
      ∃ row, targetProbs[n]? = some row ∧ 0 ≤ argmaxToken row ∧ argmaxToken row < row.length := by
    rw [GreedyInBounds, forall_reached_iff hreached hstop hn, and_iff_right]
    · simp only [argmaxToken_mem, hstop, not_false_eq_true, true_imp_iff]
    · intro m hm
      obtain ⟨row, hrow, hcontinues⟩ := hreached m hm
      exact ⟨row, hrow, absurd ⟨row, hrow, hcontinues⟩⟩
  rw [honly]
  cases hrow : targetProbs[n]? with
  | none =>
    rw [greedyLoop_fault hreached hrow]
    simp [MemorySafe]
  | some row =>
    rw [greedyLoop_stop hreached hstop hn hrow]
    simp only [Option.some.injEq, exists_eq_left']
    split_ifs with hargmax
    · have heos : argmaxToken row = eosTokenId := by
        by_contra hne
        exact hstop ⟨row, hrow, hargmax, hne⟩
      rw [memorySafe_ok (finalPosition_ended (heos ▸ hargmax)) hrow, heos]
    · have hlast := getLast_accepting fun j hj => (hreached j hj).token
      rw [memorySafe_ok (finalPosition_accepting hlast) hrow]

end Greedy

section Indices
variable [Add F] [LE F] [DecidableLE F]

theorem sampleLoop_lt {r : F} {probs : List F} {cumulative : F} {i k : ℕ}
    (h : sampleLoop r probs cumulative i = some k) : k < i + probs.length := by
  induction probs generalizing cumulative i with
  | nil => cases h
  | cons p probs ih =>
    unfold sampleLoop at h
    rw [List.length_cons]
    split_ifs at h
    · obtain rfl := Option.some.inj h
      omega
    · have hlt := ih h
      omega

variable [Zero F]

/-- The drawn index is one of the row, and an `int32_t` up to the wrap of the cast. -/
def DrawsIndex (row : List F) (r : F) : Prop := row ≠ [] ∧ sampleIndex row r % 2 ^ 32 < 2 ^ 31

theorem sampleIndex_mem {row : List F} {r : F} :
    (0 ≤ castInt32 (sampleIndex row r) ∧ castInt32 (sampleIndex row r) < row.length) ↔
      DrawsIndex row r := by
  rcases eq_or_ne row [] with rfl | hne
  · refine iff_of_false (fun h => ?_) fun h => h.1 rfl
    rw [List.length_nil] at h
    omega
  · have hindex : ∃ k : ℕ, k < row.length ∧ sampleIndex row r = k := by
      have hpos := List.length_pos_iff.mpr hne
      unfold sampleIndex
      split
      · next k hk => exact ⟨k, by simpa using sampleLoop_lt hk, rfl⟩
      · exact ⟨row.length - 1, Nat.sub_lt hpos Nat.one_pos, by omega⟩
    obtain ⟨k, hk, heq⟩ := hindex
    rw [DrawsIndex, and_iff_right hne, heq, castInt32_mem hk]
    omega

theorem replacementRow_length [Div F] {eps : F} {targetP adjusted : List F}
    (h : adjusted.length = targetP.length) :
    (replacementRow eps targetP adjusted).length = targetP.length := by
  unfold replacementRow
  dsimp only
  split_ifs
  · rfl
  · rw [List.length_map, h]

end Indices

section Adjusted
variable [Zero F] [Sub F] [LT F] [DecidableLT F]

theorem adjustedRow_length {targetP draftQ adjusted : List F}
    (h : adjustedRow targetP draftQ = some adjusted) : adjusted.length = targetP.length := by
  induction targetP generalizing draftQ adjusted with
  | nil =>
    obtain rfl := Option.some.inj h
    rfl
  | cons p targetP ih =>
    cases draftQ with
    | nil => cases h
    | cons q draftQ =>
      obtain ⟨rest, hrest, rfl⟩ := Option.map_eq_some_iff.mp h
      rw [List.length_cons, List.length_cons, ih hrest]

theorem adjustedRow_isSome {targetP draftQ : List F} :
    (adjustedRow targetP draftQ).isSome ↔ targetP.length ≤ draftQ.length := by
  induction targetP generalizing draftQ with
  | nil => simp [adjustedRow]
  | cons p targetP ih =>
    cases draftQ with
    | nil => simp [adjustedRow]
    | cons q draftQ =>
      rw [adjustedRow, Option.isSome_map, ih, List.length_cons, List.length_cons,
        Nat.succ_le_succ_iff]

end Adjusted

section Stochastic
variable [Zero F] [One F] [Div F] [LT F] [LE F] [DecidableLT F] {eps : F} {draftTokens : List ℤ}
  {draftProbs targetProbs : List (List F)} {eosTokenId : ℤ} {rng : Draws F} {n : ℕ}

def Continues (draftTokens : List ℤ) (draftProbs targetProbs : List (List F)) (eosTokenId : ℤ)
    (rng : Draws F) (n : ℕ) : Prop :=
  ∃ candidateToken draftRow targetRow q p,
    Reads draftTokens draftProbs targetProbs n candidateToken draftRow targetRow q p ∧
      rng n ≤ acceptanceRatio q p ∧ candidateToken ≠ eosTokenId

theorem Continues.token (h : Continues draftTokens draftProbs targetProbs eosTokenId rng n) :
    ∃ token, draftTokens[n]? = some token ∧ token ≠ eosTokenId := by
  obtain ⟨token, _, _, _, _, hreads, -, heos⟩ := h
  exact ⟨token, hreads.candidate, heos⟩

theorem not_continues_length :
    ¬Continues draftTokens draftProbs targetProbs eosTokenId rng draftTokens.length := by
  intro h
  obtain ⟨token, htoken, -⟩ := h.token
  rw [List.getElem?_eq_none le_rfl] at htoken
  cases htoken

variable [Add F] [Sub F] [DecidableLE F]

theorem verifyLoop_reached
    (h : ∀ j < n, Continues draftTokens draftProbs targetProbs eosTokenId rng j) :
    verifyLoop eps draftProbs targetProbs eosTokenId draftTokens 0 rng {} =
      verifyLoop eps draftProbs targetProbs eosTokenId (draftTokens.drop n) n
        (fun k => rng (n + k)) (accepting draftTokens n) := by
  induction n with
  | zero => simp only [Nat.zero_add, List.drop_zero]; rfl
  | succ n ih =>
    rw [ih fun j hj => h j (Nat.lt_succ_of_lt hj)]
    obtain ⟨token, draftRow, targetRow, q, p, hreads, haccept, heos⟩ := h n (Nat.lt_succ_self n)
    obtain ⟨hn, hget⟩ := List.getElem?_eq_some_iff.mp hreads.candidate
    have hdraws : (fun k => rng (n + (k + 1))) = fun k => rng (n + 1 + k) := by
      funext k
      rw [Nat.add_right_comm, Nat.add_assoc]
    rw [List.drop_eq_getElem_cons hn, hget, verifyLoop, hreads.draft, hreads.target]
    simp only [hreads.draftEntry, hreads.targetEntry, Nat.add_zero, if_pos haccept, if_neg heos,
      accepting_succ hreads.candidate, hdraws]

variable {candidateToken : ℤ} {draftRow targetRow : List F} {q p : F}

/-- The last row is sampled when the loop is through. -/
theorem verifyLoop_bonus
    (hreached : ∀ j < draftTokens.length,
      Continues draftTokens draftProbs targetProbs eosTokenId rng j)
    (hrow : targetProbs[draftTokens.length]? = some targetRow) :
    (verifyLoop eps draftProbs targetProbs eosTokenId draftTokens 0 rng {}).map Prod.fst =
      .ok { accepting draftTokens draftTokens.length with
        finalToken := castInt32 (sampleIndex targetRow (rng draftTokens.length))
        endOfSequence :=
          decide (castInt32 (sampleIndex targetRow (rng draftTokens.length)) = eosTokenId) } := by
  rw [verifyLoop_reached hreached, List.drop_length, verifyLoop, hrow]
  dsimp only [sampleFromDistribution, Except.map]
  rw [endWith_accepting, Nat.add_zero]

theorem verifyLoop_ended
    (hreached : ∀ j < n, Continues draftTokens draftProbs targetProbs eosTokenId rng j)
    (hreads : Reads draftTokens draftProbs targetProbs n eosTokenId draftRow targetRow q p)
    (haccept : rng n ≤ acceptanceRatio q p) :
    (verifyLoop eps draftProbs targetProbs eosTokenId draftTokens 0 rng {}).map Prod.fst =
      .ok { accepting draftTokens (n + 1) with
        finalToken := eosTokenId, endOfSequence := true } := by
  obtain ⟨hn, hget⟩ := List.getElem?_eq_some_iff.mp hreads.candidate
  rw [verifyLoop_reached hreached, List.drop_eq_getElem_cons hn, hget, verifyLoop, hreads.draft,
    hreads.target]
  simp only [hreads.draftEntry, hreads.targetEntry, Nat.add_zero, if_pos haccept, if_true,
    accepting_succ hreads.candidate, Except.map]

theorem verifyLoop_rejected
    (hreached : ∀ j < n, Continues draftTokens draftProbs targetProbs eosTokenId rng j)
    (hreads : Reads draftTokens draftProbs targetProbs n candidateToken draftRow targetRow q p)
    (hreject : ¬rng n ≤ acceptanceRatio q p) :
    (verifyLoop eps draftProbs targetProbs eosTokenId draftTokens 0 rng {}).map Prod.fst =
      match adjustedRow targetRow draftRow with
      | none => .error .outOfBounds
      | some adjusted =>
        let token := castInt32 (sampleIndex (replacementRow eps targetRow adjusted) (rng (n + 1)))
        .ok { accepting draftTokens n with
          finalToken := token, endOfSequence := decide (token = eosTokenId) } := by
  obtain ⟨hn, hget⟩ := List.getElem?_eq_some_iff.mp hreads.candidate
  rw [verifyLoop_reached hreached, List.drop_eq_getElem_cons hn, hget, verifyLoop, hreads.draft,
    hreads.target]
  simp only [hreads.draftEntry, hreads.targetEntry, Nat.add_zero, if_neg hreject,
    sampleAdjustedDistribution]
  cases adjustedRow targetRow draftRow with
  | none => rfl
  | some adjusted =>
    dsimp only [Option.map_some, sampleFromDistribution, Except.map]
    rw [endWith_accepting]

theorem verifyLoop_fault
    (hreached : ∀ j < n, Continues draftTokens draftProbs targetProbs eosTokenId rng j)
    (hn : n < draftTokens.length)
    (hreads : ¬∃ candidateToken draftRow targetRow q p,
      Reads draftTokens draftProbs targetProbs n candidateToken draftRow targetRow q p) :
    verifyLoop eps draftProbs targetProbs eosTokenId draftTokens 0 rng {} =
      .error .outOfBounds := by
  rw [verifyLoop_reached hreached, List.drop_eq_getElem_cons hn, verifyLoop]
  split
  · next draftRow targetRow hdraft htarget =>
    split
    · next q p hq hp =>
      exact absurd ⟨_, _, _, _, _, List.getElem?_eq_getElem hn, hdraft, htarget, hq, hp⟩ hreads
    · rfl
  · rfl

/-- The loop at position `n` reads nothing out of bounds and, if it ends there, draws an index that
the cast keeps. -/
structure PositionInBounds (eps : F) (draftTokens : List ℤ) (draftProbs targetProbs : List (List F))
    (rng : Draws F) (n : ℕ) : Prop where
  candidate : n < draftTokens.length → ∃ candidateToken draftRow targetRow q p,
    Reads draftTokens draftProbs targetProbs n candidateToken draftRow targetRow q p ∧
      (¬rng n ≤ acceptanceRatio q p → targetRow.length ≤ draftRow.length ∧
        ∀ adjusted, adjustedRow targetRow draftRow = some adjusted →
          DrawsIndex (replacementRow eps targetRow adjusted) (rng (n + 1)))
  bonus : n = draftTokens.length → ∃ row, targetProbs[n]? = some row ∧ DrawsIndex row (rng n)

/-- Every position that the loop comes to is in bounds. -/
def InBounds (eps : F) (draftTokens : List ℤ) (draftProbs targetProbs : List (List F))
    (eosTokenId : ℤ) (rng : Draws F) : Prop :=
  ∀ n ≤ draftTokens.length,
    (∀ j < n, Continues draftTokens draftProbs targetProbs eosTokenId rng j) →
    PositionInBounds eps draftTokens draftProbs targetProbs rng n

theorem Continues.positionInBounds
    (h : Continues draftTokens draftProbs targetProbs eosTokenId rng n) :
    PositionInBounds eps draftTokens draftProbs targetProbs rng n := by
  obtain ⟨candidateToken, draftRow, targetRow, q, p, hreads, haccept, heos⟩ := h
  constructor
  · exact fun _ => ⟨candidateToken, draftRow, targetRow, q, p, hreads, absurd haccept⟩
  · intro hn
    have hcandidate := hreads.candidate
    rw [hn, List.getElem?_eq_none le_rfl] at hcandidate
    cases hcandidate

/-- It is enough to look at the position where the loop ends. -/
theorem inBounds_iff
    (hreached : ∀ j < n, Continues draftTokens draftProbs targetProbs eosTokenId rng j)
    (hstop : ¬Continues draftTokens draftProbs targetProbs eosTokenId rng n)
    (hn : n ≤ draftTokens.length) :
    InBounds eps draftTokens draftProbs targetProbs eosTokenId rng ↔
      PositionInBounds eps draftTokens draftProbs targetProbs rng n := by
  rw [InBounds, forall_reached_iff hreached hstop hn, and_iff_right]
  exact fun m hm => (hreached m hm).positionInBounds

/-- A rejection is safe when the target row is not longer than the draft row and the index drawn
from the replacement row survives the cast. -/
theorem rejected_memorySafe_iff
    (hreached : ∀ j < n, Continues draftTokens draftProbs targetProbs eosTokenId rng j)
    (hreads : Reads draftTokens draftProbs targetProbs n candidateToken draftRow targetRow q p)
    (hreject : ¬rng n ≤ acceptanceRatio q p) :
    MemorySafe targetProbs eosTokenId
        ((verifyLoop eps draftProbs targetProbs eosTokenId draftTokens 0 rng {}).map Prod.fst) ↔
      targetRow.length ≤ draftRow.length ∧
        ∀ adjusted, adjustedRow targetRow draftRow = some adjusted →
          DrawsIndex (replacementRow eps targetRow adjusted) (rng (n + 1)) := by
  have hlast := getLast_accepting fun j hj => (hreached j hj).token
  rw [verifyLoop_rejected hreached hreads hreject, ← adjustedRow_isSome]
  cases hadjusted : adjustedRow targetRow draftRow with
  | none => simp [MemorySafe]
  | some adjusted =>
    have hlength : (replacementRow eps targetRow adjusted).length = targetRow.length :=
      replacementRow_length (adjustedRow_length hadjusted)
    rw [memorySafe_ok (finalPosition_accepting hlast) hreads.target, ← hlength, sampleIndex_mem]
    simp

/-- With compatible outer dimensions, the loop is safe when every position it comes to is. -/
theorem verifyLoop_memorySafe_iff (hlength : draftTokens.length < targetProbs.length) :
    MemorySafe targetProbs eosTokenId
        ((verifyLoop eps draftProbs targetProbs eosTokenId draftTokens 0 rng {}).map Prod.fst) ↔
      InBounds eps draftTokens draftProbs targetProbs eosTokenId rng := by
  have hend : ¬Continues draftTokens draftProbs targetProbs eosTokenId rng draftTokens.length :=
    not_continues_length
  obtain ⟨n, hn, hreached, hstop⟩ := exists_stop hend
  rw [inBounds_iff hreached hstop hn]
  rcases hn.lt_or_eq with hlt | rfl
  · by_cases hexists : ∃ candidateToken draftRow targetRow q p,
        Reads draftTokens draftProbs targetProbs n candidateToken draftRow targetRow q p
    · obtain ⟨token, draftRow, targetRow, q, p, hreads⟩ := hexists
      by_cases haccept : rng n ≤ acceptanceRatio q p
      · have heos : token = eosTokenId := by
          by_contra hne
          exact hstop ⟨token, draftRow, targetRow, q, p, hreads, haccept, hne⟩
        subst heos
        rw [verifyLoop_ended hreached hreads haccept,
          memorySafe_ok (finalPosition_ended hreads.candidate) hreads.target]
        refine iff_of_true (entry_mem hreads.targetEntry) ⟨fun _ => ?_, fun heq => ?_⟩
        · exact ⟨token, draftRow, targetRow, q, p, hreads, absurd haccept⟩
        · exact absurd heq hlt.ne
      · rw [rejected_memorySafe_iff hreached hreads haccept]
        constructor
        · exact fun h => ⟨fun _ => ⟨token, draftRow, targetRow, q, p, hreads, fun _ => h⟩,
            fun heq => absurd heq hlt.ne⟩
        · intro h
          obtain ⟨token', draftRow', targetRow', q', p', hreads', hsafe⟩ := h.candidate hlt
          obtain ⟨rfl, rfl, rfl, rfl⟩ := hreads.unique hreads'
          exact hsafe haccept
    · rw [verifyLoop_fault hreached hlt hexists]
      refine iff_of_false (fun h => h rfl) fun h => ?_
      obtain ⟨token, draftRow, targetRow, q, p, hreads, -⟩ := h.candidate hlt
      exact hexists ⟨token, draftRow, targetRow, q, p, hreads⟩
  · have hrow := List.getElem?_eq_getElem hlength
    have hlast := getLast_accepting fun j hj => (hreached j hj).token
    rw [verifyLoop_bonus hreached hrow, memorySafe_ok (finalPosition_accepting hlast) hrow,
      sampleIndex_mem]
    constructor
    · exact fun h => ⟨fun hlt => absurd hlt (Nat.lt_irrefl _), fun _ => ⟨_, hrow, h⟩⟩
    · intro h
      obtain ⟨row, hrow', hdraws⟩ := h.bonus rfl
      obtain rfl := Option.some.inj (hrow.symm.trans hrow')
      exact hdraws

/-- Which inputs each verifier is memory-safe on. -/
theorem verifiers_memorySafe_iff (eps : F) (draftTokens : List ℤ)
    (draftProbs targetProbs : List (List F)) (eosTokenId : ℤ) (rng : Draws F) :
    (MemorySafe targetProbs eosTokenId
        ((verifyCandidates eps draftTokens draftProbs targetProbs eosTokenId rng).map Prod.fst) ↔
      (draftProbs.length = draftTokens.length → draftTokens.length < targetProbs.length →
        InBounds eps draftTokens draftProbs targetProbs eosTokenId rng)) ∧
    (MemorySafe targetProbs eosTokenId
        (verifyCandidatesGreedy draftTokens targetProbs eosTokenId) ↔
      GreedyInBounds draftTokens targetProbs eosTokenId) := by
  refine ⟨?_, greedy_memorySafe_iff draftTokens targetProbs eosTokenId⟩
  unfold verifyCandidates
  split_ifs with hdims
  · refine iff_of_true (by simp [MemorySafe, Except.map]) fun hdraft htarget => ?_
    rcases hdims with hne | hlt
    · exact absurd hdraft hne
    · omega
  · rw [not_or, not_not, Nat.not_lt] at hdims
    obtain ⟨hdraft, htarget⟩ := hdims
    rw [verifyLoop_memorySafe_iff htarget]
    exact ⟨fun h _ _ => h, fun h => h hdraft htarget⟩

end Stochastic

/-- A candidate outside the rows is read, and the greedy verifier reads behind the rows and takes a
token from an empty one. -/
theorem rows_overrun :
    ¬MemorySafe (F := ℚ) [[1], [1]] 0
        ((verifyCandidates (F := ℚ) (1 / 10 ^ 6) [5] [[1]] [[1], [1]] 0 0).map Prod.fst) ∧
      ¬MemorySafe (F := ℚ) [] 0 (verifyCandidatesGreedy (F := ℚ) [] [] 0) ∧
      ¬MemorySafe (F := ℚ) [[]] 0 (verifyCandidatesGreedy (F := ℚ) [] [[]] 0) := by
  have hverify : (verifyCandidates (F := ℚ) (1 / 10 ^ 6) [5] [[1]] [[1], [1]] 0 0).map Prod.fst =
      .error .outOfBounds := by decide +kernel
  refine ⟨?_, fun h => h rfl, ?_⟩
  · rw [hverify]
    exact fun h => h rfl
  · rintro ⟨row, hrow, hnonneg, hlt⟩
    obtain rfl := Option.some.inj hrow
    exact absurd (hnonneg.trans_lt hlt) (lt_irrefl 0)

section Unchecked
variable {𝕜 : Type*} [Field 𝕜] [LinearOrder 𝕜] {V : ℕ}

theorem sampleLoop_eq (r : 𝕜) (probs : List 𝕜) (cumulative : 𝕜) (i : ℕ) :
    sampleLoop r probs cumulative i = SpeculativeEngine.sampleLoop r probs cumulative i := by
  induction probs generalizing cumulative i with
  | nil => rfl
  | cons p probs ih =>
    rw [sampleLoop, SpeculativeEngine.sampleLoop, ih]

theorem castInt32_eq {n : ℤ} (hnonneg : 0 ≤ n) (hlt : n < 2 ^ 31) : castInt32 n = n := by
  unfold castInt32 Int.bmod
  dsimp only
  split_ifs <;> omega

theorem sampleFromDistribution_eq {probs : List 𝕜} (hne : probs ≠ [])
    (hlength : probs.length ≤ 2 ^ 31) (rng : Draws 𝕜) :
    sampleFromDistribution probs rng = SpeculativeEngine.sampleFromDistribution probs rng := by
  have hpos := List.length_pos_iff.mpr hne
  rw [sampleFromDistribution, SpeculativeEngine.sampleFromDistribution, sampleIndex, sampleLoop_eq]
  cases hloop : SpeculativeEngine.sampleLoop (rng 0) probs 0 0 with
  | none =>
    dsimp only
    rw [castInt32_eq (by omega) (by omega)]
    rfl
  | some k =>
    have hlt := sampleLoop_lt ((sampleLoop_eq _ _ _ _).trans hloop)
    dsimp only
    rw [castInt32_eq (by omega) (by omega)]
    rfl

theorem adjustedRow_eq {targetP draftQ : List 𝕜} (h : targetP.length = draftQ.length) :
    adjustedRow targetP draftQ =
      some (List.zipWith (fun p q => max 0 (p - q)) targetP draftQ) := by
  induction targetP generalizing draftQ with
  | nil => rfl
  | cons p targetP ih =>
    cases draftQ with
    | nil => cases h
    | cons q draftQ =>
      rw [adjustedRow, ih (Nat.succ.inj h), List.zipWith_cons_cons, max_def_lt]
      rfl

theorem sampleAdjustedDistribution_eq {targetP draftQ : List 𝕜} (hne : targetP ≠ [])
    (hlength : targetP.length ≤ 2 ^ 31) (h : targetP.length = draftQ.length) (rng : Draws 𝕜) :
    sampleAdjustedDistribution SpeculativeEngine.residualEps targetP draftQ rng =
      some (SpeculativeEngine.sampleAdjustedDistribution targetP draftQ rng) := by
  have hadjusted := adjustedRow_length (adjustedRow_eq h)
  rw [sampleAdjustedDistribution, SpeculativeEngine.sampleAdjustedDistribution, adjustedRow_eq h,
    Option.map_some, replacementRow]
  split_ifs
  · rw [sampleFromDistribution_eq hne hlength]
  · rw [sampleFromDistribution_eq]
    · rw [← List.length_pos_iff, List.length_map, hadjusted]
      exact List.length_pos_iff.mpr hne
    · rwa [List.length_map, hadjusted]

theorem acceptanceRatio_eq (q p : 𝕜) :
    acceptanceRatio q p = SpeculativeEngine.acceptanceRatio q p := by
  rw [acceptanceRatio, SpeculativeEngine.acceptanceRatio, min_comm, min_def_lt]

omit [LinearOrder 𝕜] in
theorem entry_eq {row : List 𝕜} {token : ℤ} (hnonneg : 0 ≤ token) (hlt : token < row.length) :
    entry row token = some (SpeculativeEngine.probAt row token) := by
  have hindex : token.toNat < row.length := by omega
  rw [entry, if_pos hnonneg, SpeculativeEngine.probAt, List.getElem?_eq_getElem hindex,
    List.getD_eq_getElem _ _ hindex]

theorem verifyLoop_cons (eosTokenId token : ℤ) (draftTokens : List ℤ) (draftRow targetRow : List 𝕜)
    (draftProbs targetProbs : List (List 𝕜)) (rng : Draws 𝕜)
    (result : SpeculativeVerificationResult) :
    SpeculativeEngine.verifyLoop eosTokenId (token :: draftTokens) (draftRow :: draftProbs)
        (targetRow :: targetProbs) rng result =
      if rng 0 ≤ SpeculativeEngine.acceptanceRatio (SpeculativeEngine.probAt draftRow token)
          (SpeculativeEngine.probAt targetRow token) then
        if token = eosTokenId then
          ({ SpeculativeEngine.acceptToken result token with
              endOfSequence := true, finalToken := eosTokenId }, SpeculativeEngine.rest rng)
        else
          SpeculativeEngine.verifyLoop eosTokenId draftTokens draftProbs targetProbs
            (SpeculativeEngine.rest rng) (SpeculativeEngine.acceptToken result token)
      else
        let sampled := SpeculativeEngine.sampleAdjustedDistribution targetRow draftRow
          (SpeculativeEngine.rest rng)
        (SpeculativeEngine.endWith result sampled.1 eosTokenId, sampled.2) :=
  rfl

/-- The rows have one length, and the draft tokens are indices of them. -/
structure WellFormed (V : ℕ) (draftTokens : List ℤ) (draftProbs targetProbs : List (List 𝕜)) :
    Prop where
  pos : 0 < V
  int32 : V ≤ 2 ^ 31
  draft : ∀ row ∈ draftProbs, row.length = V
  target : ∀ row ∈ targetProbs, row.length = V
  tokens : ∀ token ∈ draftTokens, 0 ≤ token ∧ token < V

theorem verifyLoop_eq {draftTokens : List ℤ} {draftProbs targetProbs : List (List 𝕜)}
    (hform : WellFormed V draftTokens draftProbs targetProbs) {eosTokenId : ℤ} {i : ℕ}
    (hdraft : i + draftTokens.length ≤ draftProbs.length)
    (htarget : i + draftTokens.length < targetProbs.length) (rng : Draws 𝕜)
    (result : SpeculativeVerificationResult) :
    verifyLoop SpeculativeEngine.residualEps draftProbs targetProbs eosTokenId draftTokens i rng
        result =
      .ok (SpeculativeEngine.verifyLoop eosTokenId draftTokens (draftProbs.drop i)
        (targetProbs.drop i) rng result) := by
  induction draftTokens generalizing i rng result with
  | nil =>
    have hi : i < targetProbs.length := htarget
    have hrow := hform.target _ (List.getElem_mem hi)
    rw [verifyLoop, SpeculativeEngine.verifyLoop, List.getElem?_eq_getElem hi,
      List.drop_eq_getElem_cons hi, List.headD_cons]
    dsimp only
    rw [sampleFromDistribution_eq]
    · exact List.length_pos_iff.mp (hrow ▸ hform.pos)
    · exact hrow ▸ hform.int32
  | cons token draftTokens ih =>
    rw [List.length_cons] at hdraft htarget
    have hid : i < draftProbs.length := by omega
    have hit : i < targetProbs.length := by omega
    have hdraftRow := hform.draft _ (List.getElem_mem hid)
    have htargetRow := hform.target _ (List.getElem_mem hit)
    obtain ⟨hnonneg, hlt⟩ := hform.tokens token List.mem_cons_self
    have hrest : WellFormed V draftTokens draftProbs targetProbs :=
      { hform with tokens := fun t ht => hform.tokens t (List.mem_cons_of_mem _ ht) }
    rw [verifyLoop, List.getElem?_eq_getElem hid, List.getElem?_eq_getElem hit,
      List.drop_eq_getElem_cons hid, List.drop_eq_getElem_cons hit, verifyLoop_cons]
    dsimp only
    rw [entry_eq hnonneg (hdraftRow ▸ hlt), entry_eq hnonneg (htargetRow ▸ hlt)]
    dsimp only
    rw [acceptanceRatio_eq]
    by_cases haccept : rng 0 ≤ SpeculativeEngine.acceptanceRatio
        (SpeculativeEngine.probAt draftProbs[i] token)
        (SpeculativeEngine.probAt targetProbs[i] token)
    · rw [if_pos haccept, if_pos haccept]
      split_ifs
      · rfl
      · exact ih hrest (by omega) (by omega) _ _
    · rw [if_neg haccept, if_neg haccept, sampleAdjustedDistribution_eq
        (List.length_pos_iff.mp (htargetRow ▸ hform.pos)) (htargetRow ▸ hform.int32)
        (htargetRow.trans hdraftRow.symm)]
      rfl

/-- On rows of one length that the draft tokens index, nothing is lost by leaving out the accesses
and the casts. -/
theorem verifyCandidates_eq {draftTokens : List ℤ} {draftProbs targetProbs : List (List 𝕜)}
    (hform : WellFormed V draftTokens draftProbs targetProbs) (eosTokenId : ℤ) (rng : Draws 𝕜) :
    verifyCandidates SpeculativeEngine.residualEps draftTokens draftProbs targetProbs eosTokenId
        rng =
      (SpeculativeEngine.verifyCandidates draftTokens draftProbs targetProbs eosTokenId
        rng).mapError .thrown := by
  unfold verifyCandidates SpeculativeEngine.verifyCandidates
  split_ifs with hdims
  · rfl
  · rw [verifyLoop_eq hform (by omega) (by omega), List.drop_zero, List.drop_zero]
    rfl

end Unchecked

end CheckedEngine
end CudaForge.Scheduler
