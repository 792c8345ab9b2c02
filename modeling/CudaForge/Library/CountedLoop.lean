import Mathlib.Data.List.Range
import Mathlib.Tactic

/-! Invariants of loops over consecutive numbers. -/
namespace CountedLoop
variable {σ : Type*} {f : σ → ℕ → σ} {init : σ}

/-- What holds before the first number and is kept by each one holds after the last. -/
theorem foldl_range' (Inv : ℕ → σ → Prop) {start n : ℕ} (hinit : Inv start init)
    (hstep : ∀ i s, start ≤ i → i < start + n → Inv i s → Inv (i + 1) (f s i)) :
    Inv (start + n) ((List.range' start n).foldl f init) := by
  induction n with
  | zero => exact hinit
  | succ n ih =>
    rw [List.range'_concat, List.foldl_concat, one_mul]
    have hprefix := ih fun i s hle hlt => hstep i s hle (by omega)
    exact hstep (start + n) _ (by omega) (by omega) hprefix

theorem foldl_range (Inv : ℕ → σ → Prop) {n : ℕ} (hinit : Inv 0 init)
    (hstep : ∀ i s, i < n → Inv i s → Inv (i + 1) (f s i)) :
    Inv n ((List.range n).foldl f init) := by
  rw [List.range_eq_range']
  have h := foldl_range' (f := f) Inv (n := n) hinit fun i s _ hlt => hstep i s (by omega)
  rwa [Nat.zero_add] at h

end CountedLoop
