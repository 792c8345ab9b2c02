import Mathlib.Algebra.BigOperators.Fin
import Mathlib.Algebra.BigOperators.Intervals
import Mathlib.Tactic

/-! Sums over tiles of columns with a masked tail, and stores that one program makes. -/
namespace TiledLoop
open Finset

section Sums
variable {β : Type*} [AddCommMonoid β]

/-- The sums over the first `(t + 1) * B` columns, split at the last tile. -/
theorem sum_range_tile (f : ℕ → β) (B t : ℕ) :
    ∑ c ∈ range ((t + 1) * B), f c = ∑ c ∈ range (t * B), f c + ∑ n : Fin B, f (t * B + n) := by
  rw [add_one_mul, sum_range_add, sum_range fun n => f (t * B + n)]

/-- The sums over whole tiles. -/
theorem sum_range_tiles (f : ℕ → β) (B T : ℕ) :
    ∑ c ∈ range (T * B), f c = ∑ t ∈ range T, ∑ n ∈ range B, f (t * B + n) := by
  induction T with
  | zero => rw [Nat.zero_mul, sum_range_zero, sum_range_zero]
  | succ T ih => rw [add_one_mul, sum_range_add, ih, sum_range_succ]

/-- Columns behind the mask add nothing. -/
theorem sum_range_masked {K n : ℕ} (h : K ≤ n) (f : ℕ → β) :
    (∑ c ∈ range n, if c < K then f c else 0) = ∑ c ∈ range K, f c := by
  rw [← sum_filter]
  congr 1
  ext c
  simp only [mem_filter, mem_range]
  omega

/-- The tiles of a rounded-up number of columns cover the columns. -/
theorem le_ceil_mul {K B : ℕ} (hB : 0 < B) : K ≤ (K + B - 1) / B * B := by
  have hdiv := Nat.div_add_mod (K + B - 1) B
  have hmod := Nat.mod_lt (K + B - 1) hB
  rw [mul_comm] at hdiv
  omega

end Sums

/-- A tile lies in one group when the groups are made of whole tiles. -/
theorem tile_start_div {B G : ℕ} (h : B ∣ G) (k : ℕ) : k / B * B / G = k / G := by
  obtain ⟨q, rfl⟩ := h
  rcases Nat.eq_zero_or_pos B with rfl | hB
  · rw [Nat.zero_mul, Nat.div_zero, Nat.div_zero]
  · rw [Nat.mul_comm (k / B), Nat.mul_div_mul_left _ _ hB, Nat.div_div_eq_div_mul]

/-- A position and the begin of its tile lie in one group. -/
theorem tile_start_group {B G K k : ℕ} (hk : k < K) (h : K ≤ G ∨ B ∣ G) :
    k / B * B / G = k / G := by
  rcases h with hle | hwhole
  · rw [Nat.div_eq_of_lt (hk.trans_le hle),
      Nat.div_eq_of_lt ((Nat.div_mul_le_self k B).trans_lt (hk.trans_le hle))]
  · exact tile_start_div hwhole k

/-- The row of a row-major offset; `Nat.mul_add_mod_of_lt` gives the column. -/
theorem mul_add_div_of_lt {n q r : ℕ} (hr : r < n) : (q * n + r) / n = q := by
  rw [Nat.mul_comm, Nat.mul_add_div (Nat.zero_lt_of_lt hr), Nat.div_eq_of_lt hr, Nat.add_zero]

/-- Row-major offsets determine the row and the column. -/
theorem eq_of_mul_add_eq {n q r q' r' : ℕ} (hr : r < n) (hr' : r' < n)
    (h : q * n + r = q' * n + r') : q = q' ∧ r = r' := by
  have hdiv : q = q' := by
    rw [← mul_add_div_of_lt (q := q) hr, h, mul_add_div_of_lt hr']
  subst hdiv
  exact ⟨rfl, Nat.add_left_cancel h⟩

/-- The tile of a place, when the tiles of `s` places come in groups of `L`. -/
theorem mem_tile_iff {s L x q r : ℕ} (hs : 0 < s) (hr : r < L) :
    q * (L * s) + r * s ≤ x ∧ x < q * (L * s) + r * s + s ↔ x / s / L = q ∧ x / s % L = r := by
  have hstart : q * (L * s) + r * s = (q * L + r) * s := by rw [Nat.add_mul, Nat.mul_assoc]
  have htile : (q * L + r) * s ≤ x ∧ x < (q * L + r) * s + s ↔ x / s = q * L + r := by
    rw [← Nat.le_div_iff_mul_le hs, ← Nat.succ_mul, ← Nat.div_lt_iff_lt_mul hs, Nat.lt_succ_iff,
      and_comm, Nat.le_antisymm_iff]
  rw [hstart, htile]
  constructor
  · intro h
    rw [h]
    exact ⟨mul_add_div_of_lt hr, Nat.mul_add_mod_of_lt hr⟩
  · rintro ⟨rfl, rfl⟩
    rw [Nat.mul_comm, Nat.div_add_mod]

/-- A loop over the tile starts `0, B, 2 * B, …` keeps what every tile keeps. -/
theorem foldl_tiles {σ : Type*} (step : σ → ℕ → σ) (P : ℕ → σ → Prop) (B : ℕ) {s : σ} (h0 : P 0 s)
    (hstep : ∀ t s, P t s → P (t + 1) (step s (t * B))) (T : ℕ) :
    P T (((List.range T).map (· * B)).foldl step s) := by
  induction T with
  | zero => exact h0
  | succ T ih =>
    rw [List.range_succ, List.map_append, List.foldl_append]
    exact hstep T _ ih

/-- When only one element contributes to a filter, it does so alone. -/
theorem flatMap_filter_unique {α β : Type*} {l : List α} {f : α → List β} {p : β → Bool} {a : α}
    (hl : l.Nodup) (ha : a ∈ l) (h : ∀ b ∈ l, b ≠ a → (f b).filter p = []) :
    (l.flatMap f).filter p = (f a).filter p := by
  induction l with
  | nil => cases ha
  | cons b l ih =>
    obtain ⟨hb, hl⟩ := List.nodup_cons.mp hl
    rw [List.flatMap_cons, List.filter_append]
    by_cases hab : b = a
    · subst hab
      have hrest : (l.flatMap f).filter p = [] := by
        rw [List.filter_flatMap]
        apply List.flatMap_eq_nil_iff.mpr
        intro c hc
        exact h c (List.mem_cons_of_mem _ hc) fun hcb => hb (hcb ▸ hc)
      rw [hrest, List.append_nil]
    · have hmem : a ∈ l := (List.mem_cons.mp ha).resolve_left fun hab' => hab hab'.symm
      rw [h b List.mem_cons_self hab, List.nil_append]
      exact ih hl hmem fun c hc => h c (List.mem_cons_of_mem _ hc)

/-- A filter that one element of a list without duplicates passes. -/
theorem filter_unique {α : Type*} {l : List α} {p : α → Bool} {a : α} (hl : l.Nodup) (ha : a ∈ l)
    (hp : p a) (h : ∀ b ∈ l, p b → b = a) : l.filter p = [a] := by
  have hflat := flatMap_filter_unique (f := fun b => [b]) (p := p) hl ha fun b hb hba =>
    List.filter_cons_of_neg fun hpb => hba (h b hb hpb)
  rwa [List.flatMap_singleton', List.filter_cons_of_pos hp] at hflat

section MaskedStores
variable {ι A V : Type*} {lanes : List ι} {mask : ι → Prop} [DecidablePred mask] {store : ι → A × V}

theorem mem_maskedStores {s : A × V} :
    s ∈ lanes.flatMap (fun lane => if mask lane then [store lane] else []) ↔
      ∃ lane ∈ lanes, mask lane ∧ s = store lane := by
  simp only [List.mem_flatMap, List.mem_ite_nil_right, List.mem_singleton]

/-- A lane that shares its place with no other one stores there alone. -/
theorem maskedStores_filter [DecidableEq A] {lane : ι} {place : A} (hlanes : lanes.Nodup)
    (hlane : lane ∈ lanes) (hmask : mask lane) (hplace : (store lane).1 = place)
    (hown : ∀ l ∈ lanes, mask l → (store l).1 = place → l = lane) :
    (lanes.flatMap fun lane => if mask lane then [store lane] else []).filter (·.1 = place) =
      [store lane] := by
  rw [flatMap_filter_unique hlanes hlane]
  · rw [if_pos hmask]
    exact List.filter_cons_of_pos (decide_eq_true hplace)
  · intro l hl hne
    apply List.filter_eq_nil_iff.mpr
    intro s hs hhit
    obtain ⟨hmasked, hs⟩ := List.mem_ite_nil_right.mp hs
    rw [List.mem_singleton.mp hs] at hhit
    exact hne (hown l hl hmasked (of_decide_eq_true hhit))

end MaskedStores

end TiledLoop
