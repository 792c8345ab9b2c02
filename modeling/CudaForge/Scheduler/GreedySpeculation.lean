import CudaForge.Scheduler.SpeculativeAccess

/-! Greedy verification against the sequential greedy decoding of a model that scores prefixes. -/
namespace CudaForge.Scheduler
open FirstMaximum CheckedEngine

section Decoding
variable {α : Type*} [LinearOrder α]

/-- The first `n` tokens that decoding appends: always the first argmax, up to the end of the
sequence. -/
def greedyDecode (f : List ℤ → List α) (eosTokenId : ℤ) : ℕ → List ℤ → List ℤ
  | 0, _ => []
  | n + 1, tokens =>
    let token := castInt32 (firstArgmax (f tokens))
    if token = eosTokenId then [token]
    else token :: greedyDecode f eosTokenId n (tokens ++ [token])

variable {f : List ℤ → List α} {eosTokenId : ℤ} {tokens l : List ℤ}

theorem greedyDecode_step (n : ℕ) (tokens : List ℤ) :
    greedyDecode f eosTokenId (n + 1) tokens =
      let token := castInt32 (firstArgmax (f tokens))
      if token = eosTokenId then [token]
      else token :: greedyDecode f eosTokenId n (tokens ++ [token]) := rfl

theorem greedyDecode_take {m n : ℕ} (h : m ≤ n) (tokens : List ℤ) :
    (greedyDecode f eosTokenId n tokens).take m = greedyDecode f eosTokenId m tokens := by
  induction n generalizing m tokens with
  | zero =>
    obtain rfl := Nat.le_zero.mp h
    rfl
  | succ n ih =>
    cases m with
    | zero => rfl
    | succ m =>
      rw [greedyDecode_step, greedyDecode_step]
      dsimp only
      split_ifs
      · rw [List.take_succ_cons, List.take_nil]
      · rw [List.take_succ_cons, ih (Nat.succ_le_succ_iff.mp h)]

/-- Decoding goes on behind tokens that it gave and that did not end the sequence. -/
theorem greedyDecode_add (h : greedyDecode f eosTokenId l.length tokens = l)
    (heos : eosTokenId ∉ l) (m : ℕ) :
    greedyDecode f eosTokenId (l.length + m) tokens =
      l ++ greedyDecode f eosTokenId m (tokens ++ l) := by
  induction l generalizing tokens with
  | nil => rw [List.length_nil, Nat.zero_add, List.append_nil, List.nil_append]
  | cons token l ih =>
    rw [List.length_cons, greedyDecode_step] at h
    rw [List.length_cons, Nat.add_right_comm, greedyDecode_step]
    dsimp only at h ⊢
    split_ifs at h ⊢ with hend
    · obtain ⟨rfl, -⟩ := List.cons.inj h
      exact absurd (hend ▸ List.mem_cons_self) heos
    · obtain ⟨rfl, hrest⟩ := List.cons.inj h
      have hlater := ih hrest fun hmem => heos (List.mem_cons_of_mem _ hmem)
      rw [List.append_assoc, List.singleton_append] at hlater
      rw [hlater, List.cons_append]

theorem greedyDecode_succ (h : greedyDecode f eosTokenId l.length tokens = l)
    (heos : eosTokenId ∉ l) :
    greedyDecode f eosTokenId (l.length + 1) tokens =
      l ++ [castInt32 (firstArgmax (f (tokens ++ l)))] := by
  rw [greedyDecode_add h heos, greedyDecode_step]
  dsimp only
  split_ifs <;> rfl

/-- Once the sequence has ended, no token follows. -/
theorem greedyDecode_ended (h : greedyDecode f eosTokenId l.length tokens = l)
    (heos : eosTokenId ∉ l) (hend : castInt32 (firstArgmax (f (tokens ++ l))) = eosTokenId) {n : ℕ}
    (hn : l.length < n) : greedyDecode f eosTokenId n tokens = l ++ [eosTokenId] := by
  obtain ⟨k, rfl⟩ := Nat.exists_eq_add_of_le hn
  rw [Nat.succ_eq_add_one, Nat.add_assoc, Nat.add_comm 1, greedyDecode_add h heos,
    greedyDecode_step]
  dsimp only
  rw [if_pos hend, hend]

/-- What the accepted tokens and the final token are to the sequential decode. -/
structure EqualsGreedyDecode (f : List ℤ → List α) (tokens draftTokens : List ℤ) (eosTokenId : ℤ)
    (result : SpeculativeVerificationResult) : Prop where
  count : result.numAccepted = result.acceptedTokens.length
  draft : result.acceptedTokens <+: draftTokens
  decode : ∀ n, result.numAccepted ≤ n →
    result.acceptedTokens <+: greedyDecode f eosTokenId n tokens
  continued : result.acceptedTokens.getLast? ≠ some eosTokenId →
    greedyDecode f eosTokenId (result.numAccepted + 1) tokens =
      result.acceptedTokens ++ [result.finalToken]
  longest : result.acceptedTokens.getLast? ≠ some eosTokenId → ∀ l, l <+: draftTokens →
    l <+: greedyDecode f eosTokenId l.length tokens → l.length ≤ result.numAccepted
  ended : result.acceptedTokens.getLast? = some eosTokenId →
    result.finalToken = eosTokenId ∧
      ∀ n, result.numAccepted ≤ n → greedyDecode f eosTokenId n tokens = result.acceptedTokens
  flag : result.endOfSequence = true ↔ result.finalToken = eosTokenId

end Decoding

section Verification
variable {α : Type*} [LinearOrder α] {f : List ℤ → List α} {tokens draftTokens : List ℤ}
  {targetProbs : List (List α)} {eosTokenId : ℤ} {n : ℕ}

def RowsOf (f : List ℤ → List α) (tokens draftTokens : List ℤ) (targetProbs : List (List α)) :
    Prop :=
  ∀ i ≤ draftTokens.length, targetProbs[i]? = some (f (tokens ++ draftTokens.take i))

theorem argmaxToken_eq (row : List α) : argmaxToken row = castInt32 (firstArgmax row) := by
  rw [argmaxToken, maxElement_eq]

/-- Only rows behind accepted tokens are used: the accepted tokens are the sequential ones. -/
theorem decoded_take (hrows : RowsOf f tokens draftTokens targetProbs)
    (h : ∀ j < n, GreedyContinues draftTokens targetProbs eosTokenId j) :
    greedyDecode f eosTokenId (draftTokens.take n).length tokens = draftTokens.take n ∧
      eosTokenId ∉ draftTokens.take n := by
  induction n with
  | zero => exact ⟨rfl, List.not_mem_nil⟩
  | succ n ih =>
    obtain ⟨hdecoded, hnot⟩ := ih fun j hj => h j (Nat.lt_succ_of_lt hj)
    obtain ⟨row, hrow, htoken, heos⟩ := h n (Nat.lt_succ_self n)
    have hn := (List.getElem?_eq_some_iff.mp htoken).1
    obtain rfl := Option.some.inj (hrow.symm.trans (hrows n hn.le))
    rw [List.take_add_one, htoken, Option.toList_some]
    constructor
    · rw [List.length_append, List.length_singleton, greedyDecode_succ hdecoded hnot,
        argmaxToken_eq]
    · rw [List.mem_append, List.mem_singleton, not_or]
      exact ⟨hnot, heos.symm⟩

/-- No prefix of the draft beyond a mismatch is decoded. -/
theorem length_le_of_mismatch (hrows : RowsOf f tokens draftTokens targetProbs)
    (h : ∀ j < n, GreedyContinues draftTokens targetProbs eosTokenId j)
    (hn : n ≤ draftTokens.length)
    (hmismatch :
      draftTokens[n]? ≠ some (castInt32 (firstArgmax (f (tokens ++ draftTokens.take n)))))
    {l : List ℤ} (hdraft : l <+: draftTokens)
    (hl : l <+: greedyDecode f eosTokenId l.length tokens) : l.length ≤ n := by
  by_contra hlong
  rw [Nat.not_le] at hlong
  obtain ⟨hdecoded, hnot⟩ := decoded_take hrows h
  have hlength : (draftTokens.take n).length = n := List.length_take_of_le hn
  have hnext := greedyDecode_succ hdecoded hnot
  rw [hlength, ← greedyDecode_take hlong] at hnext
  obtain ⟨rest, hrest⟩ := hl
  obtain ⟨rest', rfl⟩ := hdraft
  rw [← hrest, List.take_append_of_le_length hlong] at hnext
  have hget := congrArg (fun l => l[n]?) hnext
  rw [List.getElem?_take_of_lt (Nat.lt_succ_self n)] at hget
  apply hmismatch
  rw [List.getElem?_append_left hlong, hget, List.getElem?_append_right (by omega), hlength,
    Nat.sub_self, List.getElem?_singleton, if_pos rfl]

/-- Greedy verification of a draft against the rows of a model is greedy decoding with it. -/
theorem verifyCandidatesGreedy_decodes (f : List ℤ → List α) (tokens draftTokens : List ℤ)
    (targetProbs : List (List α)) (eosTokenId : ℤ)
    (hrows : ∀ i ≤ draftTokens.length, targetProbs[i]? = some (f (tokens ++ draftTokens.take i))) :
    ∃ result, verifyCandidatesGreedy draftTokens targetProbs eosTokenId = .ok result ∧
      EqualsGreedyDecode f tokens draftTokens eosTokenId result := by
  have hend : ¬GreedyContinues draftTokens targetProbs eosTokenId draftTokens.length :=
    not_greedyContinues_length
  obtain ⟨n, hn, hreached, hstop⟩ := exists_stop hend
  refine ⟨_, greedyLoop_stop hreached hstop hn (hrows n hn), ?_⟩
  obtain ⟨hdecoded, hnot⟩ := decoded_take hrows hreached
  have hlength : (draftTokens.take n).length = n := List.length_take_of_le hn
  rw [argmaxToken_eq]
  split_ifs with hargmax
  · have heos : castInt32 (firstArgmax (f (tokens ++ draftTokens.take n))) = eosTokenId := by
      by_contra hne
      rw [← argmaxToken_eq] at hargmax hne
      exact hstop ⟨_, hrows n hn, hargmax, hne⟩
    have hwhole : draftTokens.take (n + 1) = draftTokens.take n ++ [eosTokenId] := by
      rw [List.take_add_one, hargmax, Option.toList_some, heos]
    have hended : ∀ m, n + 1 ≤ m →
        greedyDecode f eosTokenId m tokens = draftTokens.take (n + 1) := by
      intro m hm
      rw [hwhole]
      exact greedyDecode_ended hdecoded hnot heos (hlength.trans_lt hm)
    have hlast : (draftTokens.take (n + 1)).getLast? = some eosTokenId := by
      rw [hwhole, List.getLast?_concat]
    exact {
      count := by rw [accepting, hwhole, List.length_append, hlength]; rfl
      draft := List.take_prefix _ _
      decode := fun m hm => by rw [hended m hm]; rfl
      continued := fun hne => absurd hlast hne
      longest := fun hne => absurd hlast hne
      ended := fun _ => ⟨rfl, hended⟩
      flag := iff_of_true rfl rfl }
  · have hlast := getLast_accepting fun j hj => (hreached j hj).token
    have hnext := greedyDecode_succ hdecoded hnot
    have hlongest := fun l => length_le_of_mismatch (l := l) hrows hreached hn hargmax
    rw [hlength] at hdecoded hnext
    have hprefix : ∀ {m}, n ≤ m → draftTokens.take n <+: greedyDecode f eosTokenId m tokens := by
      intro m hm
      rw [← hdecoded, ← greedyDecode_take hm]
      exact List.take_prefix _ _
    generalize castInt32 (firstArgmax (f (tokens ++ draftTokens.take n))) = token at hnext ⊢
    exact {
      count := hlength.symm
      draft := List.take_prefix _ _
      decode := fun m hm => hprefix hm
      continued := fun _ => hnext
      longest := fun _ => hlongest
      ended := fun h => absurd h hlast
      flag := decide_eq_true_iff }

/-- Two drafts that a model takes and a third that it does not. -/
theorem verifyCandidatesGreedy_decodes_mismatch :
    let f : List ℤ → List ℕ := fun tokens => if tokens.length < 3 then [0, 2, 2] else [3, 1, 1]
    ∃ result, verifyCandidatesGreedy [1, 1, 2] [[0, 2, 2], [0, 2, 2], [3, 1, 1], [3, 1, 1]] 2 =
        .ok result ∧ EqualsGreedyDecode f [7] [1, 1, 2] 2 result := by
  intro f
  refine verifyCandidatesGreedy_decodes f [7] [1, 1, 2] _ 2 fun i hi => ?_
  have hi' : i ≤ 3 := hi
  interval_cases i <;> rfl

end Verification
end CudaForge.Scheduler
