import CudaForge.Library.UniformDraw
import CudaForge.Engine.BatchSpeculation

/-!
The columns that a batched speculation step appends, as a function of its draws. Reaching a position
depends on the draws of the positions before it, and the column appended there on its own draws.
-/
namespace CudaForge.Engine
open MeasureTheory Set

namespace SpeculativeEngine
variable {S : Type*} {B V K : ℕ}

section Columns
variable {𝕜 : Type*} (e : SpeculativeEngine 𝕜 S B V) {h h₀ : List (TokenColumn B V)}

def draftToken (h : List (TokenColumn B V)) (draws : PositionDraws 𝕜 S B) : TokenColumn B V :=
  fun b => e.multinomial (e.draftRunner h b) (draws b).1

theorem draftPhase_length (draws : List (PositionDraws 𝕜 S B)) (h : List (TokenColumn B V)) :
    (e.draftPhase draws h).length = draws.length := by
  induction draws generalizing h with
  | nil => rfl
  | cons d rest ih =>
    unfold draftPhase
    rw [List.length_cons, List.length_cons, ih]

variable [Field 𝕜] [LinearOrder 𝕜]

def Passes (h : List (TokenColumn B V)) (draws : PositionDraws 𝕜 S B) : Prop :=
  e.AllAccepted (e.draftRunner h) (e.targetRunner h) (e.draftToken h draws) draws

instance (h : List (TokenColumn B V)) (draws : PositionDraws 𝕜 S B) :
    Decidable (e.Passes h draws) :=
  inferInstanceAs (Decidable (e.AllAccepted _ _ _ _))

def appendedColumn (h : List (TokenColumn B V)) (draws : PositionDraws 𝕜 S B) : TokenColumn B V :=
  if e.Passes h draws then e.draftToken h draws
  else e.resampledToken (e.draftRunner h) (e.targetRunner h) draws

def verifiedFrom : List (PositionDraws 𝕜 S B) → List (TokenColumn B V) → List (TokenColumn B V)
  | [], _ => []
  | draws :: rest, h =>
    if e.Passes h draws then
      e.draftToken h draws :: verifiedFrom rest (h ++ [e.draftToken h draws])
    else [e.appendedColumn h draws]

theorem verifyLoop_eq (draws : List (PositionDraws 𝕜 S B)) (h : List (TokenColumn B V)) :
    e.verifyLoop draws (e.draftPhase draws h) ((List.range (draws.length + 1)).map fun i =>
      e.targetRunner (h ++ ((e.draftPhase draws h).map Prod.fst).take i)) =
        e.verifiedFrom draws h := by
  induction draws generalizing h with
  | nil => rfl
  | cons d rest ih =>
    have hlater := ih (h ++ [e.draftToken h d])
    simp only [List.append_assoc, List.singleton_append] at hlater
    unfold draftPhase
    rw [List.length_cons, List.range_succ_eq_map, List.map_cons, List.map_map, verifyLoop,
      verifiedFrom]
    simp only [Function.comp_def, List.map_cons, List.take_zero, List.append_nil,
      List.take_succ_cons]
    by_cases hpass : e.Passes h d
    · rw [if_pos hpass, ← hlater]
      exact if_pos hpass
    · rw [if_neg hpass, appendedColumn, if_neg hpass]
      exact if_neg hpass

/-- The step appends the columns of `h` and goes on behind them exactly when the draft tokens of
their positions are these columns, and all are accepted. -/
theorem verifiedFrom_reaches (h₀ : List (TokenColumn B V))
    (draws : List (PositionDraws 𝕜 S B)) :
    (h <+: e.verifiedFrom draws h₀ ∧ h.length < (e.verifiedFrom draws h₀).length) ↔
      h.length < draws.length ∧ ∀ j c d, h[j]? = some c → draws[j]? = some d →
        e.draftToken (h₀ ++ h.take j) d = c ∧ e.Passes (h₀ ++ h.take j) d := by
  induction h generalizing h₀ draws with
  | nil =>
    cases draws with
    | nil => simp [verifiedFrom]
    | cons d rest =>
      unfold verifiedFrom
      split_ifs <;> simp
  | cons c h ih =>
    cases draws with
    | nil => simp [verifiedFrom]
    | cons d rest =>
      have hlater := ih (h₀ ++ [c]) rest
      simp only [List.append_assoc, List.singleton_append] at hlater
      unfold verifiedFrom
      by_cases hpass : e.Passes h₀ d
      · rw [if_pos hpass, List.cons_prefix_cons, List.length_cons, List.length_cons,
          List.length_cons, Nat.succ_lt_succ_iff, Nat.succ_lt_succ_iff]
        constructor
        · rintro ⟨⟨rfl, hpre⟩, hlt⟩
          obtain ⟨hlen, hall⟩ := hlater.mp ⟨hpre, hlt⟩
          refine ⟨hlen, fun j c' d' hc hd => ?_⟩
          cases j with
          | zero =>
            obtain rfl := Option.some.inj hc
            obtain rfl := Option.some.inj hd
            simpa using hpass
          | succ j => exact hall j c' d' hc hd
        · rintro ⟨hlen, hall⟩
          have hfirst := hall 0 c d rfl rfl
          rw [List.take_zero, List.append_nil] at hfirst
          obtain ⟨rfl, -⟩ := hfirst
          obtain ⟨hpre, hlt⟩ := hlater.mpr ⟨hlen, fun j c' d' hc hd =>
            hall (j + 1) c' d' hc hd⟩
          exact ⟨⟨rfl, hpre⟩, hlt⟩
      · rw [if_neg hpass]
        refine iff_of_false (fun hreach => ?_) fun hall => ?_
        · exact absurd hreach.2 (by simp)
        · have hfirst := (hall.2 0 c d rfl rfl).2
          rw [List.take_zero, List.append_nil] at hfirst
          exact hpass hfirst

theorem verifiedFrom_get {draws : List (PositionDraws 𝕜 S B)}
    (hreach : h <+: e.verifiedFrom draws h₀ ∧ h.length < (e.verifiedFrom draws h₀).length) :
    (e.verifiedFrom draws h₀)[h.length]? =
      draws[h.length]?.map (e.appendedColumn (h₀ ++ h)) := by
  induction h generalizing draws h₀ with
  | nil =>
    cases draws with
    | nil => rfl
    | cons d rest =>
      unfold verifiedFrom
      rw [List.append_nil]
      by_cases hpass : e.Passes h₀ d
      · simp [hpass, appendedColumn]
      · simp [hpass]
  | cons c h ih =>
    cases draws with
    | nil => rfl
    | cons d rest =>
      unfold verifiedFrom at hreach ⊢
      by_cases hpass : e.Passes h₀ d
      · rw [if_pos hpass, List.cons_prefix_cons, List.length_cons, List.length_cons,
          Nat.succ_lt_succ_iff] at hreach
        obtain ⟨⟨rfl, hpre⟩, hlt⟩ := hreach
        have hlater := ih ⟨hpre, hlt⟩
        rw [List.append_assoc, List.singleton_append] at hlater
        rw [if_pos hpass]
        exact hlater
      · rw [if_neg hpass] at hreach
        exact absurd hreach.2 (by simp)

/-- The columns that the loop appends and, when there are as many as draft tokens, one more. -/
theorem step_acceptedTokens {totals totals' : SpeculationTotals}
    {draws : List (PositionDraws 𝕜 S B)} {final : Fin B → S}
    {result : SpeculativeBatchResult 𝕜 B V}
    (hs : e.step totals draws final = some (result, totals')) :
    result.acceptedTokens = e.verifiedFrom draws [] ∨
      (e.verifiedFrom draws []).length = draws.length ∧
        ∃ extra, result.acceptedTokens = e.verifiedFrom draws [] ++ extra := by
  have hloop := e.verifyLoop_eq draws []
  simp only [List.nil_append] at hloop
  unfold step at hs
  split_ifs at hs
  simp only [targetPhase, List.length_map, draftPhase_length, hloop, Option.some.injEq,
    Prod.mk.injEq] at hs
  obtain ⟨rfl, -⟩ := hs
  simp only
  split_ifs with hlen
  · exact Or.inr ⟨hlen, _, rfl⟩
  · exact Or.inl rfl

end Columns

section Events

/-- The documented behaviour of `torch.multinomial` on a row of weights. -/
structure SamplesWeights [MeasurableSpace S] (P : Measure S)
    (multinomial : (Fin V → ℝ) → S → Fin V) : Prop where
  measurable : ∀ w, Measurable (multinomial w)
  law : ∀ w, (∀ x, 0 ≤ w x) → 0 < ∑ x, w x →
    ∀ x, P {s | multinomial w s = x} = ENNReal.ofReal (w x / ∑ y, w y)

abbrev StepDraws (S : Type*) (B K : ℕ) := (Fin K → PositionDraws ℝ S B) × (Fin B → S)

/-- Without the two constants. -/
def exactEngine (draft target : List (TokenColumn B V) → Fin B → FiniteDistribution V)
    (multinomial : (Fin V → ℝ) → S → Fin V)
    (sampleNextToken : ProbRows ℝ B V → (Fin B → S) → TokenColumn B V) :
    SpeculativeEngine ℝ S B V where
  draftRunner h b := (draft h b).prob
  targetRunner h b := (target h b).prob
  multinomial := multinomial
  sampleNextToken := sampleNextToken
  guards := ⟨0, 0⟩

variable (e : SpeculativeEngine ℝ S B V)

noncomputable def acceptedTokens (ω : StepDraws S B K) : List (TokenColumn B V) :=
  ((e.step {} (List.ofFn ω.1) ω.2).map fun r => r.1.acceptedTokens).getD []

def reached (K : ℕ) (h : List (TokenColumn B V)) : Set (StepDraws S B K) :=
  {ω | h <+: e.acceptedTokens ω ∧ h.length < (e.acceptedTokens ω).length}

/-- Row `b` of the column at position `i` is the token `x`. -/
def appends (K i : ℕ) (b : Fin B) (x : Fin V) : Set (StepDraws S B K) :=
  {ω | ∃ column, (e.acceptedTokens ω)[i]? = some column ∧ column b = x}

/-- The draws of position `j` with which the step appends the column of `h` there and goes on. -/
def passing (h : List (TokenColumn B V)) (j : ℕ) : Set (PositionDraws ℝ S B) :=
  {draws | ∀ c, h[j]? = some c →
    e.draftToken (h.take j) draws = c ∧ e.Passes (h.take j) draws}

/-- The draws with which row `b` of the column behind `h` is the token `x`. -/
def appending (h : List (TokenColumn B V)) (b : Fin B) (x : Fin V) : Set (PositionDraws ℝ S B) :=
  {draws | e.appendedColumn h draws b = x}

variable {e} {h : List (TokenColumn B V)} {ω : StepDraws S B K}

theorem prefix_append_iff {α : Type*} {l m extra : List α} (hlen : l.length < m.length) :
    l <+: m ++ extra ↔ l <+: m := by
  constructor
  · intro hpre
    exact List.prefix_of_prefix_length_le hpre (List.prefix_append m extra) hlen.le
  · intro hpre
    exact hpre.trans (List.prefix_append m extra)

theorem acceptedTokens_eq (hK : 0 < K) (ω : StepDraws S B K) :
    ∃ extra, e.acceptedTokens ω = e.verifiedFrom (List.ofFn ω.1) [] ++ extra ∧
      (extra ≠ [] → (e.verifiedFrom (List.ofFn ω.1) []).length = K) := by
  unfold acceptedTokens
  cases hs : e.step {} (List.ofFn ω.1) ω.2 with
  | none =>
    have hne : List.ofFn ω.1 ≠ [] := by
      rw [← List.length_pos_iff, List.length_ofFn]
      exact hK
    unfold step at hs
    rw [if_neg hne] at hs
    cases hs
  | some r =>
    obtain ⟨result, totals⟩ := r
    rcases e.step_acceptedTokens hs with heq | ⟨hlen, extra, heq⟩
    · exact ⟨[], by simp [heq], fun hne => absurd rfl hne⟩
    · exact ⟨extra, heq, fun _ => hlen.trans List.length_ofFn⟩

theorem mem_reached_iff (hK : h.length < K) : ω ∈ e.reached K h ↔
    h <+: e.verifiedFrom (List.ofFn ω.1) [] ∧
      h.length < (e.verifiedFrom (List.ofFn ω.1) []).length := by
  obtain ⟨extra, heq, hextra⟩ := acceptedTokens_eq (e := e) (Nat.zero_lt_of_lt hK) ω
  show h <+: _ ∧ _ ↔ _
  rw [heq]
  rcases eq_or_ne extra [] with rfl | hne
  · rw [List.append_nil]
  · have hlen := hK.trans_eq (hextra hne).symm
    have hlen' := hlen.trans_le (List.length_append ▸ Nat.le_add_right _ extra.length)
    rw [prefix_append_iff hlen, and_iff_left hlen', and_iff_left hlen]

theorem reached_eq (hK : h.length < K) :
    e.reached K h = (univ.pi fun j : Fin K => e.passing h j) ×ˢ univ := by
  ext ω
  rw [mem_reached_iff hK, verifiedFrom_reaches, List.length_ofFn, and_iff_right hK, mem_prod,
    and_iff_left (mem_univ _), mem_univ_pi]
  constructor
  · intro hall j c hc
    have hd : (List.ofFn ω.1)[(j : ℕ)]? = some (ω.1 j) := by simp
    exact hall j c _ hc hd
  · intro hall j c d hc hd
    have hj : j < K := by simpa using (List.getElem?_eq_some_iff.mp hd).1
    obtain rfl : d = ω.1 ⟨j, hj⟩ := by
      rw [List.getElem?_ofFn, dif_pos hj] at hd
      exact (Option.some.inj hd).symm
    exact hall ⟨j, hj⟩ c hc

theorem passing_length : e.passing h h.length = univ := by
  apply eq_univ_of_forall
  intro draws c hc
  rw [List.getElem?_eq_none (Nat.le_refl _)] at hc
  cases hc

theorem reached_inter_appends (hK : h.length < K) (b : Fin B) (x : Fin V) :
    e.reached K h ∩ e.appends K h.length b x =
      (univ.pi fun j => Function.update (fun j : Fin K => e.passing h j) ⟨h.length, hK⟩
        (e.appending h b x) j) ×ˢ univ := by
  ext ω
  rw [mem_inter_iff]
  have hget : ω ∈ e.reached K h → (ω ∈ e.appends K h.length b x ↔
      ω.1 ⟨h.length, hK⟩ ∈ e.appending h b x) := by
    intro hreach
    have hverified := (mem_reached_iff hK).mp hreach
    obtain ⟨extra, heq, -⟩ := acceptedTokens_eq (e := e) (Nat.zero_lt_of_lt hK) ω
    have hcolumn : (e.acceptedTokens ω)[h.length]? =
        some (e.appendedColumn h (ω.1 ⟨h.length, hK⟩)) := by
      rw [heq, List.getElem?_append_left hverified.2, e.verifiedFrom_get hverified,
        List.getElem?_ofFn, dif_pos hK]
      rfl
    show (∃ column, _ ∧ _) ↔ _ = _
    rw [hcolumn]
    simp
  rw [and_congr_right hget, reached_eq hK, mem_prod, mem_prod, and_iff_left (mem_univ _),
    and_iff_left (mem_univ _), mem_univ_pi, mem_univ_pi]
  constructor
  · rintro ⟨hall, hlast⟩ j
    rcases eq_or_ne j ⟨h.length, hK⟩ with rfl | hne
    · rw [Function.update_self]
      exact hlast
    · rw [Function.update_of_ne hne]
      exact hall j
  · intro hall
    have hlast := hall ⟨h.length, hK⟩
    rw [Function.update_self] at hlast
    refine ⟨fun j => ?_, hlast⟩
    rcases eq_or_ne j ⟨h.length, hK⟩ with rfl | hne
    · rw [passing_length]
      exact mem_univ _
    · have hj := hall j
      rwa [Function.update_of_ne hne] at hj

end Events

end SpeculativeEngine
end CudaForge.Engine
