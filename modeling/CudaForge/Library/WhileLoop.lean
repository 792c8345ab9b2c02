import Mathlib.Logic.Function.Iterate
import Mathlib.Tactic

/-! While loops by their finite executions: a loop that returns nothing never ends. -/
namespace WhileLoop
variable {σ : Type*} {test : σ → Prop} {body : σ → σ} {s t u : σ}

/-- `while (test(s)) s = body(s)` ends in the given state. -/
inductive Returns (test : σ → Prop) (body : σ → σ) : σ → σ → Prop
  | exit {s : σ} (h : ¬ test s) : Returns test body s s
  | next {s t : σ} (h : test s) (rest : Returns test body (body s) t) : Returns test body s t

theorem Returns.not_test (h : Returns test body s t) : ¬ test t := by
  induction h with
  | exit hexit => exact hexit
  | next _ _ ih => exact ih

theorem Returns.unique (h : Returns test body s t) (h' : Returns test body s u) : t = u := by
  induction h with
  | exit hexit =>
    cases h' with
    | exit => rfl
    | next htest => exact absurd htest hexit
  | next htest _ ih =>
    cases h' with
    | exit hexit => exact absurd htest hexit
    | next _ rest => exact ih rest

/-- A property that the body keeps while the test holds is one of the result. -/
theorem Returns.invariant (Inv : σ → Prop) (h : Returns test body s t) (hs : Inv s)
    (hstep : ∀ s, Inv s → test s → Inv (body s)) : Inv t := by
  induction h with
  | exit => exact hs
  | next htest _ ih => exact ih (hstep _ hs htest)

/-- Where an invariant keeps the test true, the loop never ends. -/
theorem not_returns (Inv : σ → Prop) (hs : Inv s) (htest : ∀ s, Inv s → test s)
    (hstep : ∀ s, Inv s → Inv (body s)) : ¬ Returns test body s t := by
  intro h
  have ht : Inv t := h.invariant Inv hs fun s hs _ => hstep s hs
  exact h.not_test (htest t ht)

/-- The loop ends at the first iterate that fails the test. -/
theorem returns_iterate {n : ℕ} (hbefore : ∀ m < n, test (body^[m] s)) (hat : ¬ test (body^[n] s)) :
    Returns test body s (body^[n] s) := by
  induction n generalizing s with
  | zero => exact .exit hat
  | succ n ih =>
    refine .next (hbefore 0 n.succ_pos) (ih (s := body s) (fun m hm => ?_) hat)
    exact hbefore (m + 1) (Nat.succ_lt_succ hm)

end WhileLoop
