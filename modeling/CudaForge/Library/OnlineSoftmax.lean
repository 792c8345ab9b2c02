import Mathlib.Analysis.SpecialFunctions.Exp
import Mathlib.Algebra.BigOperators.Intervals
import Mathlib.Tactic

/-!
Softmax-weighted sums accumulated tile by tile with a running maximum.

A score is a `WithBot ℝ`, whose `⊥` is `-inf` and has weight 0. A computed number is real or `nan`:
every operation without a real result gives `nan`, and `nan` spreads through all that use it.
-/
namespace OnlineSoftmax
open Finset

inductive Number where
  | nan
  | real (x : ℝ)

namespace Number

def add : Number → Number → Number
  | real x, real y => real (x + y)
  | _, _ => nan

def mul : Number → Number → Number
  | real x, real y => real (x * y)
  | _, _ => nan

/-- A division by zero is infinite or NaN. -/
noncomputable def div : Number → Number → Number
  | real x, real y => if y = 0 then nan else real (x / y)
  | _, _ => nan

instance : Add Number := ⟨add⟩
instance : Mul Number := ⟨mul⟩
noncomputable instance : Div Number := ⟨div⟩

@[simp] theorem real_add (x y : ℝ) : real x + real y = real (x + y) := rfl

@[simp] theorem real_mul (x y : ℝ) : real x * real y = real (x * y) := rfl

theorem real_div (x : ℝ) {y : ℝ} (hy : y ≠ 0) : real x / real y = real (x / y) := if_neg hy

def toReal : Number → ℝ
  | nan => 0
  | real x => x

noncomputable def sum {ι : Type*} [Fintype ι] (x : ι → Number) : Number :=
  open Classical in if ∀ i, x i ≠ nan then real (∑ i, (x i).toReal) else nan

@[simp] theorem sum_real {ι : Type*} [Fintype ι] (x : ι → ℝ) :
    sum (fun i => real (x i)) = real (∑ i, x i) :=
  if_pos fun _ => Number.noConfusion

end Number
open Number

noncomputable def weight : WithBot ℝ → ℝ
  | ⊥ => 0
  | (s : ℝ) => Real.exp s

/-- `exp(s - m)`; `-inf - -inf` is NaN, and `exp(inf)` is not a real number. -/
noncomputable def expSub : WithBot ℝ → WithBot ℝ → Number
  | _, ⊥ => nan
  | ⊥, (_ : ℝ) => real 0
  | (s : ℝ), (m : ℝ) => real (Real.exp (s - m))

@[simp] theorem weight_bot : weight ⊥ = 0 := rfl

@[simp] theorem weight_coe (s : ℝ) : weight s = Real.exp s := rfl

theorem weight_nonneg : ∀ s, 0 ≤ weight s
  | ⊥ => le_rfl
  | (s : ℝ) => (Real.exp_pos s).le

theorem weight_strictMono : StrictMono weight := by
  intro s t h
  cases t with
  | bot => exact absurd h not_lt_bot
  | coe t =>
    cases s with
    | bot => exact Real.exp_pos t
    | coe s => exact Real.exp_lt_exp.mpr (WithBot.coe_lt_coe.mp h)

theorem expSub_coe (m : ℝ) : ∀ s, expSub s m = real (Real.exp (-m) * weight s)
  | ⊥ => by
    show real 0 = real (Real.exp (-m) * 0)
    rw [mul_zero]
  | (s : ℝ) => by
    show real (Real.exp (s - m)) = real (Real.exp (-m) * Real.exp s)
    rw [← Real.exp_add, neg_add_eq_sub]

variable {δ ι : Type*}

/-- What the running maximum `m`, normaliser `l` and accumulator `acc` of a row hold when the scores
absorbed so far have total weight `L` and weighted value sums `A`. -/
structure Summary (m : WithBot ℝ) (l : Number) (acc : δ → Number) (L : ℝ) (A : δ → ℝ) : Prop where
  normaliser : l = real (Real.exp (-(m.unbotD 0)) * L)
  accumulator : ∀ d, acc d = real (Real.exp (-(m.unbotD 0)) * A d)
  unstarted : m = ⊥ → L = 0 ∧ ∀ d, A d = 0

namespace Summary
variable {m : WithBot ℝ} {l : Number} {acc : δ → Number} {L : ℝ} {A : δ → ℝ}

theorem start : Summary ⊥ (real 0) (fun _ : δ => real 0) 0 (fun _ => 0) where
  normaliser := by rw [mul_zero]
  accumulator := fun _ => by rw [mul_zero]
  unstarted := fun _ => ⟨rfl, fun _ => rfl⟩

/-- Rescaling by `exp(m - m')` moves a sum from the old running maximum to the new one. -/
theorem rescale {S : ℝ} (h : m = ⊥ → S = 0) (m' : ℝ) :
    real (Real.exp (-(m.unbotD 0)) * S) * expSub m m' = real (Real.exp (-m') * S) := by
  rw [expSub_coe, real_mul]
  congr 1
  cases m with
  | bot =>
    have hS : S = 0 := h rfl
    simp [hS]
  | coe m =>
    have hcancel : Real.exp (-m) * Real.exp m = 1 := by rw [← Real.exp_add]; simp
    show Real.exp (-m) * S * (Real.exp (-m') * Real.exp m) = Real.exp (-m') * S
    linear_combination Real.exp (-m') * S * hcancel

/-- One tile: whatever real number the new running maximum is, the sums are those of all scores. -/
theorem absorb [Fintype ι] (h : Summary m l acc L A) (s : ι → WithBot ℝ) (v : ι → δ → ℝ) (m' : ℝ) :
    Summary m' (l * expSub m m' + Number.sum fun i => expSub (s i) m')
      (fun d => acc d * expSub m m' + Number.sum fun i => expSub (s i) m' * real (v i d))
      (L + ∑ i, weight (s i)) (fun d => A d + ∑ i, weight (s i) * v i d) where
  normaliser := by
    rw [h.normaliser, rescale fun hm => (h.unstarted hm).1]
    simp only [expSub_coe, sum_real, real_add, WithBot.unbotD_coe]
    rw [mul_add, mul_sum]
  accumulator := fun d => by
    rw [h.accumulator d, rescale fun hm => (h.unstarted hm).2 d]
    simp only [expSub_coe, real_mul, sum_real, real_add, WithBot.unbotD_coe]
    rw [mul_add, mul_sum]
    simp only [mul_assoc]
  unstarted := fun hm => absurd hm WithBot.coe_ne_bot

/-- The normalised accumulator is the weighted average. -/
theorem average (h : Summary m l acc L A) (hL : L ≠ 0) (d : δ) : acc d / l = real (A d / L) := by
  have hpos : Real.exp (-(m.unbotD 0)) ≠ 0 := (Real.exp_pos _).ne'
  rw [h.accumulator d, h.normaliser, real_div _ (mul_ne_zero hpos hL), mul_div_mul_left _ _ hpos]

end Summary

end OnlineSoftmax
