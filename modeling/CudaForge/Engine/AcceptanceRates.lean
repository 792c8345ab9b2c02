import CudaForge.Engine.FirstRejection

/-!
Acceptance statistics over runs of speculation steps. A step counts the columns it returns: the
drafts that passed, the replacement or the bonus token, and both when the last position is rejected.
-/
namespace CudaForge.Engine

/-- A call of `step` that drafts at least one token. -/
structure StepCall (𝕜 S : Type*) (B V : ℕ) where
  engine : SpeculativeEngine 𝕜 S B V
  draws : List (PositionDraws 𝕜 S B)
  final : Fin B → S
  drafts : draws ≠ []

namespace StepCall
variable {𝕜 S : Type*} {B V : ℕ}

def drafted (call : StepCall 𝕜 S B V) : ℕ := call.draws.length

theorem drafted_pos (call : StepCall 𝕜 S B V) : 0 < call.drafted :=
  List.length_pos_iff.mpr call.drafts

variable [Field 𝕜] [LinearOrder 𝕜]

def run : List (StepCall 𝕜 S B V) → SpeculationTotals →
    List (SpeculativeBatchResult 𝕜 B V) × SpeculationTotals
  | [], totals => ([], totals)
  | call :: calls, totals =>
    match call.engine.step totals call.draws call.final with
    | none => run calls totals
    | some (result, totals) => (result :: (run calls totals).1, (run calls totals).2)

def passed (call : StepCall 𝕜 S B V) : ℕ := call.engine.leadingPasses call.draws []

def counted (call : StepCall 𝕜 S B V) : ℕ :=
  if call.passed + 1 < call.drafted then call.passed + 1 else call.drafted + 1

theorem passed_le_drafted (call : StepCall 𝕜 S B V) : call.passed ≤ call.drafted :=
  call.engine.leadingPasses_le call.draws []

/-- No exit of the step counts the drafts alone. -/
theorem passed_lt_counted (call : StepCall 𝕜 S B V) : call.passed < call.counted := by
  have hle := call.passed_le_drafted
  unfold counted
  split_ifs <;> omega

theorem run_cons (call : StepCall 𝕜 S B V) (calls : List (StepCall 𝕜 S B V))
    (totals : SpeculationTotals) :
    ∃ result : SpeculativeBatchResult 𝕜 B V,
      result.acceptanceRate = call.counted / call.drafted ∧
      run (call :: calls) totals =
        (result :: (run calls ⟨totals.totalDraftTokens + call.drafted,
            totals.totalAcceptedTokens + call.counted⟩).1,
          (run calls ⟨totals.totalDraftTokens + call.drafted,
            totals.totalAcceptedTokens + call.counted⟩).2) := by
  have hcounted : (call.engine.returnedTokens call.draws call.final).length = call.counted :=
    SpeculativeEngine.returnedTokens_length
  refine ⟨_, ?_, by rw [run, SpeculativeEngine.step_eq call.drafts, hcounted]; rfl⟩
  rfl

/-- The rates and the totals of a run. -/
theorem run_statistics (calls : List (StepCall 𝕜 S B V)) (totals : SpeculationTotals) :
    (run calls totals).1.map (fun result => result.acceptanceRate) =
        calls.map (fun call => (call.counted / call.drafted : 𝕜)) ∧
      (run calls totals).2 =
        { totalDraftTokens := totals.totalDraftTokens + (calls.map drafted).sum
          totalAcceptedTokens := totals.totalAcceptedTokens + (calls.map counted).sum } := by
  induction calls generalizing totals with
  | nil => exact ⟨rfl, rfl⟩
  | cons call calls ih =>
    obtain ⟨result, hrate, hrun⟩ := run_cons call calls totals
    obtain ⟨hrates, htotals⟩ := ih ⟨totals.totalDraftTokens + call.drafted,
      totals.totalAcceptedTokens + call.counted⟩
    rw [hrun]
    constructor
    · simp only [List.map_cons, hrate, hrates]
    · simp only [htotals, List.map_cons, List.sum_cons, Nat.add_assoc]

/-- What a run of calls should report. -/
structure ReportsRatios (calls : List (StepCall 𝕜 S B V)) : Prop where
  rates : (run calls {}).1.map (fun result => result.acceptanceRate) =
    calls.map fun call => (call.passed / call.drafted : 𝕜)
  rates_mem : ∀ result ∈ (run calls {}).1,
    0 ≤ result.acceptanceRate ∧ result.acceptanceRate ≤ 1
  aggregate : ((run calls {}).2.getAggregateAcceptanceRate : 𝕜) =
    (calls.map passed).sum / (calls.map drafted).sum
  aggregate_mem : 0 ≤ ((run calls {}).2.getAggregateAcceptanceRate : 𝕜) ∧
    ((run calls {}).2.getAggregateAcceptanceRate : 𝕜) ≤ 1

variable [IsStrictOrderedRing 𝕜]

/-- The reported rate is never the share of the drafts that passed. -/
theorem rate_ne (call : StepCall 𝕜 S B V) :
    (call.counted / call.drafted : 𝕜) ≠ call.passed / call.drafted := by
  have hpos : (0 : 𝕜) < call.drafted := Nat.cast_pos.mpr call.drafted_pos
  rw [Ne, div_left_inj' hpos.ne', Nat.cast_inj]
  exact call.passed_lt_counted.ne'

/-- The statistics are the ratios of passed to drafted tokens in no run that has a call. -/
theorem reportsRatios_iff (calls : List (StepCall 𝕜 S B V)) :
    ReportsRatios calls ↔ calls = [] := by
  constructor
  · intro hratios
    cases calls with
    | nil => rfl
    | cons call calls =>
      have hrates := hratios.rates
      rw [(run_statistics (call :: calls) {}).1, List.map_cons, List.map_cons] at hrates
      exact absurd (List.cons.inj hrates).1 call.rate_ne
  · rintro rfl
    have hzero : ((run ([] : List (StepCall 𝕜 S B V)) {}).2.getAggregateAcceptanceRate : 𝕜) = 0 :=
      if_pos rfl
    refine ⟨rfl, ?_, ?_, ?_⟩
    · rintro result ⟨⟩
    · rw [hzero, List.map_nil, List.map_nil, List.sum_nil, Nat.cast_zero, div_zero]
    · rw [hzero]
      exact ⟨le_rfl, zero_le_one⟩

def rejectedDraft : StepCall ℚ ℚ 1 2 :=
  ⟨evenDraft, [fun _ => (3 / 4, 3 / 4, 0)], 0, List.cons_ne_nil _ _⟩

theorem reportsRatios_iff_rejected : ReportsRatios [rejectedDraft] ↔ [rejectedDraft] = [] :=
  reportsRatios_iff [rejectedDraft]

/-- A draft token that is rejected counts as two accepted ones. -/
theorem rejected_rate_two : ¬ReportsRatios [rejectedDraft] := by
  intro hratios
  have hrates := hratios.rates
  revert hrates
  decide +kernel

end StepCall
end CudaForge.Engine
