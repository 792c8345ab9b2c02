import Mathlib.Algebra.BigOperators.Fin
import Mathlib.Algebra.Order.Field.Basic
import Mathlib.Algebra.Order.Ring.Rat

/-!
Speculative decoding of a batch, in exact arithmetic over an ordered field.

The runners are known by the rows that `softmax` gives of their logits after the draft tokens so
far, and the target is causal. `torch.multinomial` turns a row of weights and a random source into a
token. Latencies are left out.
-/
namespace CudaForge.Engine
variable {𝕜 S : Type*} {B V : ℕ}

/-- A tensor of shape `[batch_size, 1]`. -/
abbrev TokenColumn (B V : ℕ) := Fin B → Fin V

/-- A tensor of shape `[batch_size, vocab_size]`. -/
abbrev ProbRows (𝕜 : Type*) (B V : ℕ) := Fin B → Fin V → 𝕜

/-- The randomness of one position in each row: the sources of the draft token and of its
replacement, and between them the number that `rand_like` draws. -/
abbrev PositionDraws (𝕜 S : Type*) (B : ℕ) := Fin B → S × 𝕜 × S

/-- The constants `1e-8` and `1e-6` of the step. -/
structure SpeculationGuards (𝕜 : Type*) where
  ratio : 𝕜
  residual : 𝕜

structure SpeculativeEngine (𝕜 S : Type*) (B V : ℕ) where
  draftRunner : List (TokenColumn B V) → ProbRows 𝕜 B V
  targetRunner : List (TokenColumn B V) → ProbRows 𝕜 B V
  multinomial : (Fin V → 𝕜) → S → Fin V
  /-- `_sample_next_token` on the last target row. -/
  sampleNextToken : ProbRows 𝕜 B V → (Fin B → S) → TokenColumn B V
  guards : SpeculationGuards 𝕜

structure SpeculativeBatchResult (𝕜 : Type*) (B V : ℕ) where
  /-- By columns. -/
  acceptedTokens : List (TokenColumn B V)
  numAccepted : ℕ
  draftTokensGenerated : ℕ
  acceptanceRate : 𝕜

structure SpeculationTotals where
  totalDraftTokens : ℕ := 0
  totalAcceptedTokens : ℕ := 0
  deriving DecidableEq

namespace SpeculativeEngine
variable [Field 𝕜] [LinearOrder 𝕜] (e : SpeculativeEngine 𝕜 S B V)

def draftPhase : List (PositionDraws 𝕜 S B) → List (TokenColumn B V) →
    List (TokenColumn B V × ProbRows 𝕜 B V)
  | [], _ => []
  | draws :: rest, drafted =>
    let probs := e.draftRunner drafted
    let nextToken : TokenColumn B V := fun b => e.multinomial (probs b) (draws b).1
    (nextToken, probs) :: draftPhase rest (drafted ++ [nextToken])

/-- One row more than there are draft tokens. -/
def targetPhase (draftTokens : List (TokenColumn B V)) : List (ProbRows 𝕜 B V) :=
  (List.range (draftTokens.length + 1)).map fun i => e.targetRunner (draftTokens.take i)

def acceptanceRatio (pDraft qTarget : 𝕜) : 𝕜 := min 1 (qTarget / (pDraft + e.guards.ratio))

def AllAccepted (draftProbs targetProbs : ProbRows 𝕜 B V) (candidateToken : TokenColumn B V)
    (draws : PositionDraws 𝕜 S B) : Prop :=
  ∀ b, (draws b).2.1 <
    e.acceptanceRatio (draftProbs b (candidateToken b)) (targetProbs b (candidateToken b))

instance (draftProbs targetProbs : ProbRows 𝕜 B V) (candidateToken : TokenColumn B V)
    (draws : PositionDraws 𝕜 S B) :
    Decidable (e.AllAccepted draftProbs targetProbs candidateToken draws) :=
  inferInstanceAs (Decidable (∀ _, _))

def modifiedDist (draftProbs targetProbs : Fin V → 𝕜) : Fin V → 𝕜 :=
  let modified := fun x => max (targetProbs x - draftProbs x) 0
  if ∑ x, modified x ≤ e.guards.residual then targetProbs else modified

def resampledToken (draftProbs targetProbs : ProbRows 𝕜 B V) (draws : PositionDraws 𝕜 S B) :
    TokenColumn B V :=
  fun b => e.multinomial (e.modifiedDist (draftProbs b) (targetProbs b)) (draws b).2.2

def verifyLoop : List (PositionDraws 𝕜 S B) → List (TokenColumn B V × ProbRows 𝕜 B V) →
    List (ProbRows 𝕜 B V) → List (TokenColumn B V)
  | draws :: rest, (candidateToken, draftProbs) :: drafts, targetProbs :: targets =>
    if e.AllAccepted draftProbs targetProbs candidateToken draws then
      candidateToken :: verifyLoop rest drafts targets
    else [e.resampledToken draftProbs targetProbs draws]
  | _, _, _ => []

/-- A step with as many speculative tokens as there are draws, `none` when `torch.cat` raises on an
empty list. The counter goes up with every column that is appended. -/
def step (totals : SpeculationTotals) (draws : List (PositionDraws 𝕜 S B)) (final : Fin B → S) :
    Option (SpeculativeBatchResult 𝕜 B V × SpeculationTotals) :=
  if draws = [] then none
  else
    let k := draws.length
    let drafts := e.draftPhase draws []
    let targets := e.targetPhase (drafts.map Prod.fst)
    let verified := e.verifyLoop draws drafts targets
    let accepted :=
      if verified.length = k then
        verified ++ (targets.getLast?.map fun row => e.sampleNextToken row final).toList
      else verified
    some (
      { acceptedTokens := accepted
        numAccepted := accepted.length
        draftTokensGenerated := k
        acceptanceRate := accepted.length / k },
      { totalDraftTokens := totals.totalDraftTokens + k
        totalAcceptedTokens := totals.totalAcceptedTokens + accepted.length })

end SpeculativeEngine

namespace SpeculationTotals

def getAggregateAcceptanceRate [Field 𝕜] (totals : SpeculationTotals) : 𝕜 :=
  if totals.totalDraftTokens = 0 then 0
  else totals.totalAcceptedTokens / totals.totalDraftTokens

end SpeculationTotals
end CudaForge.Engine
