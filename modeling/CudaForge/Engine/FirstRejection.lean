import CudaForge.Engine.SpeculationColumns
import CudaForge.Library.Numerals

/-!
What one speculation step returns, by the number of leading positions that pass. The counter stands
for accepted drafts and for the replacement, so a rejection at the last position is taken for full
acceptance, and the statistics count the replacement as accepted.
-/
namespace CudaForge.Engine
open Numerals

namespace SpeculativeEngine
variable {𝕜 S : Type*} {B V : ℕ} (e : SpeculativeEngine 𝕜 S B V)

def draftTokens (draws : List (PositionDraws 𝕜 S B)) (h : List (TokenColumn B V)) :
    List (TokenColumn B V) :=
  (e.draftPhase draws h).map Prod.fst

theorem draftTokens_length (draws : List (PositionDraws 𝕜 S B)) (h : List (TokenColumn B V)) :
    (e.draftTokens draws h).length = draws.length := by
  rw [draftTokens, List.length_map, draftPhase_length]

theorem draftTokens_cons (d : PositionDraws 𝕜 S B) (rest : List (PositionDraws 𝕜 S B))
    (h : List (TokenColumn B V)) :
    e.draftTokens (d :: rest) h =
      e.draftToken h d :: e.draftTokens rest (h ++ [e.draftToken h d]) := rfl

variable [Field 𝕜] [LinearOrder 𝕜]

section Positions

def leadingPasses : List (PositionDraws 𝕜 S B) → List (TokenColumn B V) → ℕ
  | [], _ => 0
  | d :: rest, h =>
    if e.Passes h d then leadingPasses rest (h ++ [e.draftToken h d]) + 1 else 0

theorem leadingPasses_le (draws : List (PositionDraws 𝕜 S B)) (h : List (TokenColumn B V)) :
    e.leadingPasses draws h ≤ draws.length := by
  induction draws generalizing h with
  | nil => exact Nat.le_refl 0
  | cons d rest ih =>
    unfold leadingPasses
    split_ifs
    · exact Nat.succ_le_succ (ih _)
    · exact Nat.zero_le _

/-- Up to the first position that fails, a position passes exactly when it is before it. -/
theorem passes_iff_lt {draws : List (PositionDraws 𝕜 S B)} {h : List (TokenColumn B V)} {i : ℕ}
    {d : PositionDraws 𝕜 S B} (hd : draws[i]? = some d) (hi : i ≤ e.leadingPasses draws h) :
    e.Passes (h ++ (e.draftTokens draws h).take i) d ↔ i < e.leadingPasses draws h := by
  induction draws generalizing h i with
  | nil => cases hd
  | cons d₀ rest ih =>
    unfold leadingPasses at hi ⊢
    cases i with
    | zero =>
      obtain rfl := Option.some.inj hd
      rw [List.take_zero, List.append_nil]
      split_ifs with hpass
      · exact iff_of_true hpass (Nat.succ_pos _)
      · exact iff_of_false hpass (Nat.lt_irrefl 0)
    | succ i =>
      split_ifs at hi ⊢ with hpass
      · have hlater := ih (h := h ++ [e.draftToken h d₀]) hd (Nat.succ_le_succ_iff.mp hi)
        rw [List.append_assoc, List.singleton_append] at hlater
        rw [draftTokens_cons, List.take_succ_cons, hlater, Nat.succ_lt_succ_iff]
      · exact absurd hi (Nat.not_succ_le_zero i)

def RejectsLast (draws : List (PositionDraws 𝕜 S B)) : Prop :=
  ∀ i d, draws[i]? = some d →
    (e.Passes ((e.draftTokens draws []).take i) d ↔ i + 1 ≠ draws.length)

theorem rejectsLast_iff {draws : List (PositionDraws 𝕜 S B)} (hne : draws ≠ []) :
    e.RejectsLast draws ↔ e.leadingPasses draws [] + 1 = draws.length := by
  have hpos := List.length_pos_iff.mpr hne
  have hle := e.leadingPasses_le draws []
  constructor
  · intro hlast
    by_contra hother
    have hget : ∀ i, i < draws.length → i ≤ e.leadingPasses draws [] →
        (i + 1 ≠ draws.length ↔ i < e.leadingPasses draws []) := by
      intro i hi hreached
      rw [← hlast i draws[i] (List.getElem?_eq_getElem hi)]
      exact e.passes_iff_lt (h := []) (List.getElem?_eq_getElem hi) hreached
    rcases Nat.lt_or_ge (e.leadingPasses draws []) draws.length with hlt | hge
    · exact Nat.lt_irrefl _ ((hget _ hlt le_rfl).mp hother)
    · have hend := hget (draws.length - 1) (by omega) (by omega)
      omega
  · intro heq i d hd
    have hi := (List.getElem?_eq_some_iff.mp hd).1
    have hpasses := e.passes_iff_lt (h := []) hd (by omega)
    rw [List.nil_append] at hpasses
    rw [hpasses]
    omega

/-- The columns of the loop: the passing draft tokens, then the replacement of the first to fail. -/
theorem verifiedFrom_eq (draws : List (PositionDraws 𝕜 S B)) (h : List (TokenColumn B V)) :
    e.verifiedFrom draws h =
      let passed := (e.draftTokens draws h).take (e.leadingPasses draws h)
      passed ++ (draws[e.leadingPasses draws h]?.map fun d => e.resampledToken
        (e.draftRunner (h ++ passed)) (e.targetRunner (h ++ passed)) d).toList := by
  induction draws generalizing h with
  | nil => rfl
  | cons d rest ih =>
    unfold verifiedFrom leadingPasses
    split_ifs with hpass
    · rw [ih]
      simp only [draftTokens_cons, List.take_succ_cons, List.cons_append, List.getElem?_cons_succ,
        List.append_assoc, List.nil_append]
    · rw [appendedColumn, if_neg hpass]
      simp

end Positions

section Step
variable {e} {draws : List (PositionDraws 𝕜 S B)} {final : Fin B → S} {totals : SpeculationTotals}

def bonusToken (e : SpeculativeEngine 𝕜 S B V) (draws : List (PositionDraws 𝕜 S B))
    (final : Fin B → S) : TokenColumn B V :=
  e.sampleNextToken (e.targetRunner (e.draftTokens draws [])) final

def returnedTokens (e : SpeculativeEngine 𝕜 S B V) (draws : List (PositionDraws 𝕜 S B))
    (final : Fin B → S) : List (TokenColumn B V) :=
  e.verifiedFrom draws [] ++
    if e.leadingPasses draws [] + 1 < draws.length then [] else [e.bonusToken draws final]

theorem verifiedFrom_length (draws : List (PositionDraws 𝕜 S B)) (h : List (TokenColumn B V)) :
    (e.verifiedFrom draws h).length = min (e.leadingPasses draws h + 1) draws.length := by
  have hle := e.leadingPasses_le draws h
  rw [verifiedFrom_eq]
  dsimp only
  rw [List.length_append, List.length_take, draftTokens_length]
  rcases hle.lt_or_eq with hlt | heq
  · rw [List.getElem?_eq_getElem hlt, Option.map_some, Option.toList_some, List.length_singleton]
    omega
  · rw [heq, List.getElem?_eq_none le_rfl, Option.map_none, Option.toList_none, List.length_nil]
    omega

theorem returnedTokens_length :
    (e.returnedTokens draws final).length =
      if e.leadingPasses draws [] + 1 < draws.length then e.leadingPasses draws [] + 1
      else draws.length + 1 := by
  rw [returnedTokens, List.length_append, verifiedFrom_length]
  split_ifs with hlt
  · rw [List.length_nil]
    omega
  · rw [List.length_singleton]
    omega

theorem step_eq (hne : draws ≠ []) :
    e.step totals draws final = some (
      { acceptedTokens := e.returnedTokens draws final
        numAccepted := (e.returnedTokens draws final).length
        draftTokensGenerated := draws.length
        acceptanceRate := (e.returnedTokens draws final).length / draws.length },
      { totalDraftTokens := totals.totalDraftTokens + draws.length
        totalAcceptedTokens :=
          totals.totalAcceptedTokens + (e.returnedTokens draws final).length }) := by
  have hloop := e.verifyLoop_eq draws []
  simp only [List.nil_append] at hloop
  have hlast : ((List.range (draws.length + 1)).map fun i =>
      e.targetRunner ((e.draftTokens draws []).take i)).getLast? =
        some (e.targetRunner (e.draftTokens draws [])) := by
    rw [List.range_succ, List.map_append, List.map_singleton, List.getLast?_concat,
      ← e.draftTokens_length draws [], List.take_length]
  have hreturned : (if (e.verifiedFrom draws []).length = draws.length then
      e.verifiedFrom draws [] ++ [e.bonusToken draws final] else e.verifiedFrom draws []) =
        e.returnedTokens draws final := by
    have hle := e.leadingPasses_le draws []
    rw [returnedTokens, verifiedFrom_length]
    split_ifs with hlen hlt hlt
    · omega
    · rfl
    · rw [List.append_nil]
    · omega
  unfold step
  rw [if_neg hne]
  dsimp only
  rw [targetPhase, List.length_map, draftPhase_length, hloop]
  have hrows := hlast
  rw [draftTokens] at hrows
  rw [hrows, Option.map_some, Option.toList_some]
  simp only [← hreturned, bonusToken, draftTokens]

def lastToken (e : SpeculativeEngine 𝕜 S B V) (draws : List (PositionDraws 𝕜 S B))
    (final : Fin B → S) : TokenColumn B V :=
  let passed := (e.draftTokens draws []).take (e.leadingPasses draws [])
  match draws[e.leadingPasses draws []]? with
  | some d => e.resampledToken (e.draftRunner passed) (e.targetRunner passed) d
  | none => e.bonusToken draws final

/-- A step returns the leading draft tokens that pass and one more token. -/
def StopsAtFirstRejection (e : SpeculativeEngine 𝕜 S B V) (totals : SpeculationTotals)
    (draws : List (PositionDraws 𝕜 S B)) (final : Fin B → S) : Prop :=
  (e.step totals draws final).map (fun r => r.1.acceptedTokens) =
    some ((e.draftTokens draws []).take (e.leadingPasses draws []) ++ [e.lastToken draws final])

/-- A step stops at the first rejection unless the last position is the one that is rejected. -/
theorem stopsAtFirstRejection_iff (hne : draws ≠ []) :
    e.StopsAtFirstRejection totals draws final ↔ ¬e.RejectsLast draws := by
  have hle := e.leadingPasses_le draws []
  rw [StopsAtFirstRejection, step_eq hne, Option.map_some, Option.some.injEq, rejectsLast_iff e hne]
  constructor
  · intro heq hlast
    have hlen := congrArg List.length heq
    rw [returnedTokens_length, List.length_append, List.length_take, draftTokens_length,
      List.length_singleton] at hlen
    split_ifs at hlen <;> omega
  · intro hlast
    have hverified := e.verifiedFrom_eq draws []
    simp only [List.nil_append] at hverified
    rw [returnedTokens, hverified, lastToken]
    rcases hle.lt_or_eq with hlt | heq
    · rw [List.getElem?_eq_getElem hlt, if_pos (by omega), List.append_nil]
      rfl
    · rw [List.getElem?_eq_none heq.ge, if_neg (by omega)]
      simp

end Step

end SpeculativeEngine

def evenDraft : SpeculativeEngine ℚ ℚ 1 2 where
  draftRunner _ _ _ := 1 / 2
  targetRunner _ _ := ![3 / 4, 1 / 4]
  multinomial weights source := if source * (weights 0 + weights 1) < weights 0 then 0 else 1
  sampleNextToken rows sources b := if sources b * (rows b 0 + rows b 1) < rows b 0 then 0 else 1
  guards := ⟨1 / 10 ^ 8, 1 / 10 ^ 6⟩

theorem stopsAtFirstRejection_evenDraft :
    evenDraft.StopsAtFirstRejection {} [fun _ => (1 / 4, 1 / 2, 0), fun _ => (1 / 4, 1 / 2, 0)] 0 ↔
      ¬evenDraft.RejectsLast [fun _ => (1 / 4, 1 / 2, 0), fun _ => (1 / 4, 1 / 2, 0)] :=
  SpeculativeEngine.stopsAtFirstRejection_iff (List.cons_ne_nil _ _)

/-- The only draft token is rejected, and a token from behind it follows its replacement. -/
theorem rejected_continued :
    ¬evenDraft.StopsAtFirstRejection {} [fun _ => (3 / 4, 3 / 4, 0)] 0 := by
  unfold SpeculativeEngine.StopsAtFirstRejection
  decide +kernel

end CudaForge.Engine
