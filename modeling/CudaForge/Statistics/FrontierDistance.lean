import CudaForge.Statistics.ParetoPoints

/-! Rows that differ stay apart when they are normalized, and have a positive distance. -/
namespace CudaForge.Statistics

section Reductions
variable {α : Type*}

theorem length_foldl_zipWith (pick : α → α → α) {w : ℕ} {row : List α} {rows : List (List α)}
    (hrow : row.length = w) (hrows : ∀ r ∈ rows, r.length = w) :
    (rows.foldl (List.zipWith pick) row).length = w := by
  induction rows generalizing row with
  | nil => exact hrow
  | cons r rows ih =>
    refine ih ?_ fun r' hr' => hrows r' (List.mem_cons_of_mem r hr')
    rw [List.length_zipWith, hrow, hrows r List.mem_cons_self, min_self]

theorem length_reduceRows (pick : α → α → α) {w : ℕ} {matrix : List (List α)}
    (hne : matrix ≠ []) (hrows : ∀ r ∈ matrix, r.length = w) :
    (reduceRows pick matrix).length = w := by
  cases matrix with
  | nil => exact absurd rfl hne
  | cons row rows =>
    exact length_foldl_zipWith pick (hrows row List.mem_cons_self) fun r hr =>
      hrows r (List.mem_cons_of_mem row hr)

theorem lt_foldl_min [LinearOrder α] {lo d : α} {ds : List α} (hd : lo < d)
    (hds : ∀ x ∈ ds, lo < x) : lo < ds.foldl min d := by
  induction ds generalizing d with
  | nil => exact hd
  | cons x ds ih =>
    exact ih (lt_min hd (hds x List.mem_cons_self)) fun y hy => hds y (List.mem_cons_of_mem x hy)

/-- The rows of the frontier are the rows whose flags are set. -/
theorem mem_frontierMatrix {matrix : List (List α)} {isOptimal : List Bool} {row : List α} :
    row ∈ frontierMatrix matrix isOptimal ↔
      ∃ k : ℕ, matrix[k]? = some row ∧ isOptimal[k]? = some true := by
  rw [frontierMatrix, List.mem_map]
  constructor
  · rintro ⟨⟨r, flag⟩, hmem, rfl⟩
    rw [List.mem_filter] at hmem
    obtain ⟨k, hk⟩ := List.mem_iff_getElem?.mp hmem.1
    rw [show flag = true from hmem.2] at hk
    exact ⟨k, List.getElem?_zip_eq_some.mp hk⟩
  · rintro ⟨k, hk⟩
    have hmem : (row, true) ∈ matrix.zip isOptimal :=
      List.mem_iff_getElem?.mpr ⟨k, List.getElem?_zip_eq_some.mpr hk⟩
    exact ⟨(row, true), List.mem_filter.mpr ⟨hmem, rfl⟩, rfl⟩

end Reductions

section Cancellation
variable {𝕜 : Type*} [Field 𝕜]

theorem zipWith_sub_cancel {r s lows : List 𝕜} (hr : r.length = lows.length)
    (hs : s.length = lows.length)
    (h : List.zipWith (· - ·) r lows = List.zipWith (· - ·) s lows) : r = s := by
  induction lows generalizing r s with
  | nil => rw [List.eq_nil_of_length_eq_zero hr, List.eq_nil_of_length_eq_zero hs]
  | cons lo lows ih =>
    obtain ⟨x, r, rfl⟩ := List.exists_cons_of_length_eq_add_one hr
    obtain ⟨y, s, rfl⟩ := List.exists_cons_of_length_eq_add_one hs
    rw [List.zipWith_cons_cons, List.zipWith_cons_cons, List.cons.injEq, sub_left_inj] at h
    rw [h.1, ih (Nat.succ.inj hr) (Nat.succ.inj hs) h.2]

theorem zipWith_div_cancel {r s ranges : List 𝕜} (hr : r.length = ranges.length)
    (hs : s.length = ranges.length) (hne : ∀ x ∈ ranges, x ≠ 0)
    (h : List.zipWith (· / ·) r ranges = List.zipWith (· / ·) s ranges) : r = s := by
  induction ranges generalizing r s with
  | nil => rw [List.eq_nil_of_length_eq_zero hr, List.eq_nil_of_length_eq_zero hs]
  | cons range ranges ih =>
    obtain ⟨x, r, rfl⟩ := List.exists_cons_of_length_eq_add_one hr
    obtain ⟨y, s, rfl⟩ := List.exists_cons_of_length_eq_add_one hs
    rw [List.zipWith_cons_cons, List.zipWith_cons_cons, List.cons.injEq,
      div_left_inj' (hne range List.mem_cons_self)] at h
    rw [h.1, ih (Nat.succ.inj hr) (Nat.succ.inj hs)
      (fun x hx => hne x (List.mem_cons_of_mem range hx)) h.2]

/-- Normalizing keeps rows apart. -/
theorem normRow_injective {minVals ranges r s : List 𝕜} (hlen : ranges.length = minVals.length)
    (hr : r.length = minVals.length) (hs : s.length = minVals.length) (hne : ∀ x ∈ ranges, x ≠ 0)
    (h : normRow minVals ranges r = normRow minVals ranges s) : r = s := by
  refine zipWith_sub_cancel hr hs (zipWith_div_cancel ?_ ?_ hne h)
  · rw [List.length_zipWith, hr, hlen, min_self]
  · rw [List.length_zipWith, hs, hlen, min_self]

end Cancellation

variable {𝕜 : Type*} [Field 𝕜] [LinearOrder 𝕜]

theorem rangeVals_ne_zero {matrix : List (List 𝕜)} : ∀ x ∈ rangeVals matrix, x ≠ 0 := by
  intro x hx
  rw [rangeVals] at hx
  obtain ⟨k, hk, rfl⟩ := List.mem_iff_getElem.mp hx
  rw [List.getElem_zipWith]
  split_ifs with h
  · exact one_ne_zero
  · exact h

theorem minimum_pos {ds : List 𝕜} (hne : ds ≠ []) (hpos : ∀ x ∈ ds, 0 < x) :
    ∃ d, minimum ds = .ok d ∧ 0 < d := by
  cases ds with
  | nil => exact absurd rfl hne
  | cons d ds =>
    exact ⟨_, rfl, lt_foldl_min (hpos d List.mem_cons_self) fun x hx =>
      hpos x (List.mem_cons_of_mem d hx)⟩

variable [IsStrictOrderedRing 𝕜]

/-- Different rows have a positive sum of squared differences. -/
theorem sum_sq_pos {r s : List 𝕜} (hlen : r.length = s.length) (hne : r ≠ s) :
    0 < ((List.zipWith (· - ·) r s).map (· ^ 2)).sum := by
  induction r generalizing s with
  | nil => exact absurd (List.eq_nil_of_length_eq_zero hlen.symm).symm hne
  | cons x r ih =>
    obtain ⟨y, s, rfl⟩ := List.exists_cons_of_length_eq_add_one hlen.symm
    rw [List.zipWith_cons_cons, List.map_cons, List.sum_cons]
    have hlen' : r.length = s.length := Nat.succ.inj hlen
    by_cases hxy : x = y
    · have hrs : r ≠ s := fun h => hne (by rw [hxy, h])
      exact add_pos_of_nonneg_of_pos (sq_nonneg _) (ih hlen' hrs)
    · have hsum : 0 ≤ ((List.zipWith (· - ·) r s).map (· ^ 2)).sum := by
        refine List.sum_nonneg fun z hz => ?_
        obtain ⟨d, -, rfl⟩ := List.mem_map.mp hz
        exact sq_nonneg d
      exact add_pos_of_pos_of_nonneg (sq_pos_of_ne_zero (sub_ne_zero.mpr hxy)) hsum

end CudaForge.Statistics
