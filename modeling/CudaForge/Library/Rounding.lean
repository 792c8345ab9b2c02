import Mathlib.Order.Monotone.Basic
import Mathlib.Data.Rat.Cast.Order
import Mathlib.Tactic

/-! Arithmetic with rounded results: what holds for every monotone rounding that keeps 0 and 1. -/

structure Rounding where
  round : ℚ → ℚ
  mono : Monotone round
  zero : round 0 = 0
  one : round 1 = 1

namespace Rounding

def exact : Rounding := ⟨id, monotone_id, rfl, rfl⟩

variable (fl : Rounding)

theorem nonneg {x : ℚ} (h : 0 ≤ x) : 0 ≤ fl.round x := fl.zero ▸ fl.mono h

theorem le_one {x : ℚ} (h : x ≤ 1) : fl.round x ≤ 1 := fl.one ▸ fl.mono h

theorem one_le {x : ℚ} (h : 1 ≤ x) : 1 ≤ fl.round x := fl.one ▸ fl.mono h

/-- `1.0 - double(part) / double(whole)`, each operation rounded. -/
def oneMinusRatio (part whole : ℕ) : ℚ :=
  fl.round (1 - fl.round (fl.round part / fl.round whole))

/-- The rounded complement of a proportion is still a proportion. -/
theorem oneMinusRatio_mem {part whole : ℕ} (h : part ≤ whole) (hw : 0 < whole) :
    0 ≤ fl.oneMinusRatio part whole ∧ fl.oneMinusRatio part whole ≤ 1 := by
  have hpos : (0 : ℚ) < fl.round whole :=
    zero_lt_one.trans_le (fl.one_le (by exact_mod_cast hw))
  have hle : fl.round part ≤ fl.round whole := fl.mono (by exact_mod_cast h)
  have hratio : fl.round part / fl.round whole ≤ 1 := (div_le_one hpos).mpr hle
  have hratio' : 0 ≤ fl.round part / fl.round whole :=
    div_nonneg (fl.nonneg (Nat.cast_nonneg part)) hpos.le
  constructor
  · exact fl.nonneg (sub_nonneg.mpr (fl.le_one hratio))
  · exact fl.le_one (sub_le_self 1 (fl.nonneg hratio'))

end Rounding
