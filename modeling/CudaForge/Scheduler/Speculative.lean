import CudaForge.Library.Numerals
import Mathlib.Algebra.Order.Field.Basic
import Mathlib.Algebra.Order.Ring.Rat
import Mathlib.Data.List.GetD
import Mathlib.Tactic

/-!
Rejection sampling of draft tokens, in exact arithmetic over an ordered field. The generator is the
sequence of its coming uniform draws; tokens are `int32_t` values that index the rows.
-/
namespace CudaForge.Scheduler
open Numerals
variable {𝕜 : Type*} [Field 𝕜] [LinearOrder 𝕜]

structure SpeculativeVerificationResult where
  acceptedTokens : List ℤ := []
  finalToken : ℤ := 0
  numAccepted : ℕ := 0
  endOfSequence : Bool := false
  deriving DecidableEq

/-- The coming draws of `uniform_real_distribution(0, 1)`. -/
abbrev Draws (𝕜 : Type*) := ℕ → 𝕜

namespace SpeculativeEngine

def rest (rng : Draws 𝕜) : Draws 𝕜 := fun n => rng (n + 1)

/-- The first index from `i` on whose cumulative probability reaches `r`. -/
def sampleLoop (r : 𝕜) : List 𝕜 → 𝕜 → ℕ → Option ℕ
  | [], _, _ => none
  | p :: probs, cumulative, i =>
    if r ≤ cumulative + p then some i else sampleLoop r probs (cumulative + p) (i + 1)

theorem le_of_sampleLoop {r : 𝕜} {probs : List 𝕜} {cumulative : 𝕜} {i j : ℕ}
    (h : sampleLoop r probs cumulative i = some j) : i ≤ j := by
  induction probs generalizing cumulative i with
  | nil => contradiction
  | cons p probs ih =>
    unfold sampleLoop at h
    split_ifs at h
    · exact (Option.some.inj h).le
    · exact (Nat.le_succ i).trans (ih h)

theorem sampleLoop_none {r : 𝕜} {probs : List 𝕜} {cumulative : 𝕜} {i : ℕ} (hne : probs ≠ [])
    (h : sampleLoop r probs cumulative i = none) : cumulative + probs.sum < r := by
  induction probs generalizing cumulative i with
  | nil => contradiction
  | cons p probs ih =>
    unfold sampleLoop at h
    split_ifs at h with hr
    rw [List.sum_cons, ← add_assoc]
    cases probs with
    | nil => simpa using hr
    | cons q probs => exact ih (List.cons_ne_nil q probs) h

def sampleFromDistribution (probs : List 𝕜) (rng : Draws 𝕜) : ℤ × Draws 𝕜 :=
  match sampleLoop (rng 0) probs 0 0 with
  | some i => (i, rest rng)
  | none => (probs.length - 1, rest rng)

/-- `1e-6f` in exact arithmetic. -/
def residualEps : 𝕜 := 1 / 10 ^ 6

def sampleAdjustedDistribution (targetP draftQ : List 𝕜) (rng : Draws 𝕜) : ℤ × Draws 𝕜 :=
  let adjusted := List.zipWith (fun p q => max 0 (p - q)) targetP draftQ
  let sum := adjusted.foldl (· + ·) 0
  if sum ≤ residualEps then sampleFromDistribution targetP rng
  else sampleFromDistribution (adjusted.map (· / sum)) rng

/-- `probs[token]` for a token of the vocabulary. -/
def probAt (probs : List 𝕜) (token : ℤ) : 𝕜 := probs.getD token.toNat 0

def acceptanceRatio (q p : 𝕜) : 𝕜 := if 0 < q then min 1 (p / q) else 0

def acceptToken (result : SpeculativeVerificationResult) (token : ℤ) :
    SpeculativeVerificationResult :=
  { result with
    acceptedTokens := result.acceptedTokens ++ [token]
    numAccepted := result.numAccepted + 1 }

def endWith (result : SpeculativeVerificationResult) (finalToken eosTokenId : ℤ) :
    SpeculativeVerificationResult :=
  if finalToken = eosTokenId then { result with finalToken := finalToken, endOfSequence := true }
  else { result with finalToken := finalToken }

def verifyLoop (eosTokenId : ℤ) : List ℤ → List (List 𝕜) → List (List 𝕜) → Draws 𝕜 →
    SpeculativeVerificationResult → SpeculativeVerificationResult × Draws 𝕜
  | [], _, targetProbs, rng, result =>
    let (finalToken, rng) := sampleFromDistribution (targetProbs.headD []) rng
    (endWith result finalToken eosTokenId, rng)
  | candidateToken :: draftTokens, draftProbs, targetProbs, rng, result =>
    let q := probAt (draftProbs.headD []) candidateToken
    let p := probAt (targetProbs.headD []) candidateToken
    if rng 0 ≤ acceptanceRatio q p then
      let result := acceptToken result candidateToken
      if candidateToken = eosTokenId then
        ({ result with endOfSequence := true, finalToken := eosTokenId }, rest rng)
      else verifyLoop eosTokenId draftTokens draftProbs.tail targetProbs.tail (rest rng) result
    else
      let (finalToken, rng) :=
        sampleAdjustedDistribution (targetProbs.headD []) (draftProbs.headD []) (rest rng)
      (endWith result finalToken eosTokenId, rng)

inductive SpeculativeException where
  | invalidArgument
  deriving DecidableEq

def SpeculativeException.what : SpeculativeException → String
  | .invalidArgument => "Incompatible draft and target tensor dimensions in SpeculativeEngine."

def verifyCandidates (draftTokens : List ℤ) (draftProbs targetProbs : List (List 𝕜))
    (eosTokenId : ℤ) (rng : Draws 𝕜) :
    Except SpeculativeException (SpeculativeVerificationResult × Draws 𝕜) :=
  if draftProbs.length ≠ draftTokens.length ∨ targetProbs.length < draftTokens.length + 1 then
    .error .invalidArgument
  else .ok (verifyLoop eosTokenId draftTokens draftProbs targetProbs rng {})

end SpeculativeEngine
end CudaForge.Scheduler
