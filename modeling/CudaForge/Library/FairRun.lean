import Mathlib.Data.Option.Basic
import Mathlib.Tactic

/-! Infinite runs of a labelled transition system, and what weak fairness makes of a rank. -/
namespace Transition
variable {σ ι : Type*} {step : σ → ι → Option σ} {run : ℕ → σ}

/-- Every state of the run comes from the one before by an action, or repeats it. -/
def IsRun (step : σ → ι → Option σ) (run : ℕ → σ) : Prop :=
  ∀ t, run (t + 1) = run t ∨ ∃ i, step (run t) i = some (run (t + 1))

/-- The action is not possible forever without being taken. -/
def WeaklyFair (step : σ → ι → Option σ) (run : ℕ → σ) (i : ι) : Prop :=
  ∀ t, (∀ u ≥ t, (step (run u) i).isSome) → ∃ u ≥ t, step (run u) i = some (run (u + 1))

/-- What every action keeps holds in all states of a run. -/
theorem IsRun.invariant {I : σ → Prop} (hrun : IsRun step run)
    (hstep : ∀ s i s', I s → step s i = some s' → I s') (hinit : I (run 0)) (t : ℕ) :
    I (run t) := by
  induction t with
  | zero => exact hinit
  | succ t ih =>
    rcases hrun t with hsame | ⟨i, hi⟩
    · exact hsame ▸ ih
    · exact hstep _ i _ ih hi

/-- A rank that never rises reaches zero when a weakly fair action lowers it, and remains the one
that does until the rank is lower. -/
theorem eventually_rank_zero (rank : σ → ℕ) (helper : σ → ι)
    (hfair : ∀ s, WeaklyFair step run (helper s))
    (hle : ∀ t, rank (run (t + 1)) ≤ rank (run t))
    (hlowers : ∀ t, rank (run t) ≠ 0 → ∃ s', step (run t) (helper (run t)) = some s' ∧
      rank s' < rank (run t))
    (hstays : ∀ t, rank (run t) ≠ 0 → rank (run (t + 1)) = rank (run t) →
      helper (run (t + 1)) = helper (run t)) (t : ℕ) : ∃ u ≥ t, rank (run u) = 0 := by
  induction hn : rank (run t) using Nat.strong_induction_on generalizing t with
  | _ n ih =>
    by_cases hzero : rank (run t) = 0
    · exact ⟨t, le_rfl, hzero⟩
    by_cases hdrop : ∃ u ≥ t, rank (run u) < n
    · obtain ⟨u, hu, hlt⟩ := hdrop
      obtain ⟨v, hv, hz⟩ := ih _ hlt u rfl
      exact ⟨v, hu.trans hv, hz⟩
    -- The rank stays, so the same action stays possible and is taken, which lowers the rank.
    have hconst : ∀ u ≥ t, rank (run u) = rank (run t) ∧ helper (run u) = helper (run t) := by
      intro u hu
      induction u, hu using Nat.le_induction with
      | base => exact ⟨rfl, rfl⟩
      | succ u hu hprev =>
        have hge : ¬rank (run (u + 1)) < n := fun hlt => hdrop ⟨u + 1, Nat.le_succ_of_le hu, hlt⟩
        have hstep := hle u
        have hsame : rank (run (u + 1)) = rank (run u) := by omega
        refine ⟨hsame.trans hprev.1, ?_⟩
        rw [hstays u (hprev.1 ▸ hzero) hsame, hprev.2]
    have hlower : ∀ u ≥ t, ∃ s', step (run u) (helper (run t)) = some s' ∧
        rank s' < rank (run t) := by
      intro u hu
      obtain ⟨hrank, hhelper⟩ := hconst u hu
      obtain ⟨s', hs', hlt⟩ := hlowers u (hrank ▸ hzero)
      exact ⟨s', hhelper ▸ hs', hrank ▸ hlt⟩
    obtain ⟨u, hu, htaken⟩ := hfair (run t) t fun u hu => by
      obtain ⟨s', hs', -⟩ := hlower u hu
      exact Option.isSome_iff_exists.mpr ⟨s', hs'⟩
    obtain ⟨s', hs', hlt⟩ := hlower u hu
    obtain rfl := Option.some.inj (htaken.symm.trans hs')
    have hge := (hconst (u + 1) (Nat.le_succ_of_le hu)).1
    omega

end Transition
