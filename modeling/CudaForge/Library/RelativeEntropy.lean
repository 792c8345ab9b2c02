import Mathlib.Analysis.SpecialFunctions.Log.Basic

/-! The divergence of two rows of positive weights, which need not add up to one. -/
namespace RelativeEntropy

noncomputable def divergence (p q : List ℝ) : ℝ :=
  (List.zipWith (fun a b => a * Real.log (a / b)) p q).sum

theorem sub_le_mul_log {a b : ℝ} (ha : 0 < a) (hb : 0 < b) : a - b ≤ a * Real.log (a / b) := by
  have hlog := Real.one_sub_inv_le_log_of_pos (div_pos ha hb)
  have hmul := mul_le_mul_of_nonneg_left hlog ha.le
  have heq : a * (1 - (a / b)⁻¹) = a - b := by
    field_simp
  linarith

/-- Gibbs' inequality: moving weight from one row to the other is paid for. -/
theorem sum_sub_sum_le {p q : List ℝ} (hlen : p.length = q.length) (hp : ∀ a ∈ p, 0 < a)
    (hq : ∀ b ∈ q, 0 < b) : p.sum - q.sum ≤ divergence p q := by
  induction p generalizing q with
  | nil =>
    cases q with
    | nil => simp [divergence]
    | cons b q => simp at hlen
  | cons a p ih =>
    cases q with
    | nil => simp at hlen
    | cons b q =>
      obtain ⟨ha, hp⟩ := List.forall_mem_cons.mp hp
      obtain ⟨hb, hq⟩ := List.forall_mem_cons.mp hq
      have hrest := ih (Nat.succ.inj hlen) hp hq
      have hfirst := sub_le_mul_log ha hb
      simp only [divergence, List.zipWith_cons_cons, List.sum_cons] at hrest ⊢
      linarith

end RelativeEntropy
