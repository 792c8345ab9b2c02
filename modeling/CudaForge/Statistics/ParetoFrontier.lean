import CudaForge.Statistics.FrontierDistance
import CudaForge.Library.CountedLoop
import CudaForge.Library.Dominance
import Mathlib.Analysis.Real.Sqrt

/-! The flags of the frontier are those of the non-dominated points, the others lie away from it. -/
namespace CudaForge.Statistics
variable {𝕜 : Type*} [Field 𝕜] [LinearOrder 𝕜] {objectives : FiniteMap String String}

/-! ### Dominance among points -/

def AtLeastAsGood (objective : (_ : String) × String) (p q : ParetoPoint 𝕜) : Prop :=
  if lower objective.2 = "maximize" then q.metric objective.1 ≤ p.metric objective.1
  else p.metric objective.1 ≤ q.metric objective.1

def StrictlyBetter (objective : (_ : String) × String) (p q : ParetoPoint 𝕜) : Prop :=
  if lower objective.2 = "maximize" then q.metric objective.1 < p.metric objective.1
  else p.metric objective.1 < q.metric objective.1

def Dominates (objectives : FiniteMap String String) (p q : ParetoPoint 𝕜) : Prop :=
  (∀ o ∈ objectives.entries, AtLeastAsGood o p q) ∧ ∃ o ∈ objectives.entries, StrictlyBetter o p q

def Directed (objectives : FiniteMap String String) : Prop :=
  ∀ o ∈ objectives.entries, lower o.2 = "maximize" ∨ lower o.2 = "minimize"

def criteria (objectives : FiniteMap String String) (p : ParetoPoint 𝕜) : List 𝕜 :=
  objectives.entries.map fun o =>
    if lower o.2 = "maximize" then p.metric o.1 else -p.metric o.1

abbrev rows (objectives : FiniteMap String String) (points : List (ParetoPoint 𝕜)) :
    List (List 𝕜) := points.map (criteria objectives)

theorem mapM_ok {α β ε : Type*} {f : α → Except ε β} {R : α → β → Prop} {l : List α}
    (h : ∀ a ∈ l, ∃ b, f a = .ok b ∧ R a b) : ∃ bs, l.mapM f = .ok bs ∧ List.Forall₂ R l bs := by
  induction l with
  | nil => exact ⟨[], rfl, .nil⟩
  | cons a l ih =>
    obtain ⟨b, hb, hab⟩ := h a List.mem_cons_self
    obtain ⟨bs, hbs, hl⟩ := ih fun c hc => h c (List.mem_cons_of_mem a hc)
    refine ⟨b :: bs, ?_, .cons hab hl⟩
    rw [List.mapM_cons, hb, hbs]
    rfl

theorem mapM_eq_map {α β ε : Type*} {f : α → Except ε β} {g : α → β} {l : List α}
    (h : ∀ a ∈ l, f a = .ok (g a)) : l.mapM f = .ok (l.map g) := by
  induction l with
  | nil => rfl
  | cons a l ih =>
    rw [List.mapM_cons, h a List.mem_cons_self, ih fun b hb => h b (List.mem_cons_of_mem a hb)]
    rfl

section Order

theorem not_strictlyBetter_self (o : (_ : String) × String) (p : ParetoPoint 𝕜) :
    ¬ StrictlyBetter o p p := by
  unfold StrictlyBetter
  split_ifs <;> exact lt_irrefl _

theorem AtLeastAsGood.trans {o : (_ : String) × String} {p q r : ParetoPoint 𝕜}
    (h : AtLeastAsGood o p q) (h' : AtLeastAsGood o q r) : AtLeastAsGood o p r := by
  unfold AtLeastAsGood at *
  split_ifs at * with hmax
  · exact h'.trans h
  · exact h.trans h'

theorem StrictlyBetter.trans_atLeast {o : (_ : String) × String} {p q r : ParetoPoint 𝕜}
    (h : StrictlyBetter o p q) (h' : AtLeastAsGood o q r) : StrictlyBetter o p r := by
  unfold StrictlyBetter AtLeastAsGood at *
  split_ifs at * with hmax
  · exact h'.trans_lt h
  · exact h.trans_le h'

instance : IsStrictOrder (ParetoPoint 𝕜) (Dominates objectives) where
  irrefl p h := by
    obtain ⟨o, -, hbetter⟩ := h.2
    exact not_strictlyBetter_self o p hbetter
  trans p q r hpq hqr := by
    obtain ⟨o, ho, hbetter⟩ := hpq.2
    exact ⟨fun o ho => (hpq.1 o ho).trans (hqr.1 o ho), o, ho, hbetter.trans_atLeast (hqr.1 o ho)⟩

def Above (objectives : FiniteMap String String) (points : List (ParetoPoint 𝕜)) (j i : ℕ) : Prop :=
  ∃ p q, points[j]? = some p ∧ points[i]? = some q ∧ Dominates objectives p q

instance {points : List (ParetoPoint 𝕜)} : IsStrictOrder ℕ (Above objectives points) where
  irrefl i h := by
    obtain ⟨p, q, hp, hq, hdom⟩ := h
    rw [hp, Option.some.injEq] at hq
    subst hq
    exact irrefl_of (Dominates objectives) p hdom
  trans i j k hij hjk := by
    obtain ⟨p, q, hp, hq, hpq⟩ := hij
    obtain ⟨q', r, hq', hr, hqr⟩ := hjk
    rw [hq, Option.some.injEq] at hq'
    exact ⟨p, r, hp, hr, trans_of (Dominates objectives) hpq (hq' ▸ hqr)⟩

end Order

/-! ### The criteria matrix -/

section Matrix
variable {points : List (ParetoPoint 𝕜)}

omit [LinearOrder 𝕜] in
theorem criteriaMatrix_eq (hdir : Directed objectives) :
    criteriaMatrix points objectives = .ok (rows objectives points) := by
  refine mapM_eq_map fun p _ => mapM_eq_map fun o ho => ?_
  rcases hdir o ho with h | h
  · rw [criterion, if_pos h, if_pos h]
  · have hne : lower o.2 ≠ "maximize" := by rw [h]; decide
    rw [criterion, if_neg hne, if_pos h, if_neg hne]

variable [IsStrictOrderedRing 𝕜]

theorem rowDominates_criteria (p q : ParetoPoint 𝕜) :
    rowDominates (criteria objectives p) (criteria objectives q) = true ↔
      Dominates objectives p q := by
  have hle : ∀ o : (_ : String) × String, AtLeastAsGood o p q ↔
      (if lower o.2 = "maximize" then q.metric o.1 else -q.metric o.1) ≤
        if lower o.2 = "maximize" then p.metric o.1 else -p.metric o.1 := by
    intro o
    unfold AtLeastAsGood
    split_ifs
    · rfl
    · exact neg_le_neg_iff.symm
  have hlt : ∀ o : (_ : String) × String, StrictlyBetter o p q ↔
      (if lower o.2 = "maximize" then q.metric o.1 else -q.metric o.1) <
        if lower o.2 = "maximize" then p.metric o.1 else -p.metric o.1 := by
    intro o
    unfold StrictlyBetter
    split_ifs
    · rfl
    · exact neg_lt_neg_iff.symm
  unfold rowDominates criteria Dominates
  simp only [List.zipWith_map, List.zipWith_self, Bool.and_eq_true, List.all_eq_true,
    List.any_eq_true, List.mem_map, forall_exists_index, and_imp, forall_apply_eq_imp_iff₂, id,
    decide_eq_true_eq, exists_exists_and_eq_and, hle, hlt]

theorem rowDominates_iff_above {i j : ℕ} (hi : i < points.length) (hj : j < points.length) :
    rowDominates ((rows objectives points).getD j [])
      ((rows objectives points).getD i []) = true ↔ Above objectives points j i := by
  simp only [List.getD_eq_getElem?_getD, List.getElem?_map, List.getElem?_eq_getElem hi,
    List.getElem?_eq_getElem hj, Option.map_some, Option.getD_some, rowDominates_criteria, Above,
    Option.some.injEq, exists_and_left, exists_eq_left']

end Matrix

/-! ### The elimination loop -/

section Flags
variable {α : Type*} [LinearOrder α] {matrix : List (List α)} {above : ℕ → ℕ → Prop}
  {isOptimal : List Bool} {i : ℕ}

/-- Up to `i` the flags are final, from there on they are all set. -/
structure Eliminated (matrix : List (List α)) (above : ℕ → ℕ → Prop) (i : ℕ)
    (isOptimal : List Bool) : Prop where
  length : isOptimal.length = matrix.length
  flag : ∀ k, k < matrix.length → (isOptimal[k]? = some true ↔
    i ≤ k ∨ Dominance.Maximal above matrix.length k)

variable [IsStrictOrder ℕ above]
  (hrows : ∀ i j, i < matrix.length → j < matrix.length →
    (rowDominates (matrix.getD j []) (matrix.getD i []) = true ↔ above j i))
include hrows

/-- Flagged indices alone decide, since a maximal one is above whatever is not maximal. -/
theorem isDominated_iff (h : Eliminated matrix above i isOptimal) (hi : i < matrix.length) :
    isDominated matrix isOptimal i = true ↔ ¬ Dominance.Maximal above matrix.length i := by
  simp only [isDominated, List.any_eq_true, List.mem_range, Bool.and_eq_true, bne_iff_ne]
  constructor
  · rintro ⟨j, hj, -, hdom⟩ hmax
    exact hmax j hj ((hrows i j hi hj).mp hdom)
  · intro hnot
    simp only [Dominance.Maximal, not_forall, not_not] at hnot
    obtain ⟨j, hj, habove⟩ := hnot
    obtain ⟨m, hm, hmi, hmax⟩ := Dominance.exists_maximal_above hj habove
    refine ⟨m, hm, ⟨?_, ?_⟩, (hrows i m hi hm).mpr hmi⟩
    · rintro rfl
      exact irrefl_of above i hmi
    · rw [List.getD_eq_getElem?_getD, (h.flag m hm).mpr (.inr hmax), Option.getD_some]

theorem eliminated_step (h : Eliminated matrix above i isOptimal) (hi : i < matrix.length) :
    Eliminated matrix above (i + 1) (eliminate matrix isOptimal i) := by
  have hflag : isOptimal[i]? = some true := (h.flag i hi).mpr (.inl le_rfl)
  have hlt : i < isOptimal.length := by rw [h.length]; exact hi
  rw [eliminate, List.getD_eq_getElem?_getD, hflag, Option.getD_some, Bool.true_and]
  split_ifs with hdom
  · rw [isDominated_iff hrows h hi] at hdom
    refine ⟨by rw [List.length_set, h.length], fun k hk => ?_⟩
    rw [List.getElem?_set]
    by_cases hik : i = k
    · subst hik
      rw [if_pos rfl, if_pos hlt]
      constructor
      · intro hfalse
        cases hfalse
      · rintro (hle | hmax)
        · omega
        · exact absurd hmax hdom
    · rw [if_neg hik, h.flag k hk]
      exact or_congr_left (by omega)
  · rw [isDominated_iff hrows h hi, not_not] at hdom
    refine ⟨h.length, fun k hk => ?_⟩
    rw [h.flag k hk]
    by_cases hik : i = k
    · subst hik
      exact iff_of_true (.inr hdom) (.inr hdom)
    · exact or_congr_left (by omega)

theorem optimalFlags_spec : Eliminated matrix above matrix.length (optimalFlags matrix) := by
  refine CountedLoop.foldl_range (Eliminated matrix above) ⟨List.length_replicate, fun k hk => ?_⟩
    fun i isOptimal hi h => eliminated_step hrows h hi
  rw [List.getElem?_replicate, if_pos hk]
  exact iff_of_true rfl (.inl (Nat.zero_le k))

end Flags

/-! ### The classified points -/

section Classification
variable [IsStrictOrderedRing 𝕜] {points : List (ParetoPoint 𝕜)} {i : ℕ} {p : ParetoPoint 𝕜}

variable (objectives points) in
theorem optimalFlags_points :
    Eliminated (rows objectives points) (Above objectives points)
      (rows objectives points).length
      (optimalFlags (rows objectives points)) := by
  refine optimalFlags_spec fun i j hi hj => ?_
  rw [List.length_map] at hi hj
  exact rowDominates_iff_above hi hj

omit [IsStrictOrderedRing 𝕜] in
theorem maximal_iff_not_dominated (hp : points[i]? = some p) :
    Dominance.Maximal (Above objectives points) points.length i ↔
      ¬ ∃ (j : ℕ) (q : ParetoPoint 𝕜), j ≠ i ∧ points[j]? = some q ∧ Dominates objectives q p := by
  constructor
  · rintro hmax ⟨j, q, -, hq, hdom⟩
    exact hmax j (List.getElem?_eq_some_iff.mp hq).1 ⟨q, p, hq, hp, hdom⟩
  · rintro hnot j - ⟨q, p', hq, hp', hdom⟩
    have hpp : p' = p := Option.some.inj (hp'.symm.trans hp)
    subst hpp
    refine hnot ⟨j, q, ?_, hq, hdom⟩
    rintro rfl
    rw [hp, Option.some.injEq] at hq
    subst hq
    exact irrefl_of (Dominates objectives) _ hdom

theorem flag_iff_not_dominated (hp : points[i]? = some p) :
    (optimalFlags (rows objectives points))[i]? = some true ↔
      ¬ ∃ (j : ℕ) (q : ParetoPoint 𝕜), j ≠ i ∧ points[j]? = some q ∧ Dominates objectives q p := by
  have hi : i < (rows objectives points).length := by
    rw [List.length_map]
    exact (List.getElem?_eq_some_iff.mp hp).1
  rw [(optimalFlags_points objectives points).flag i hi, or_iff_right (not_le.mpr hi),
    List.length_map]
  exact maximal_iff_not_dominated hp

/-- A dominated point has another row than every point of the frontier. -/
theorem frontier_row_ne {row : List 𝕜}
    (hrow : row ∈ frontierMatrix (rows objectives points)
      (optimalFlags (rows objectives points)))
    (hp : points[i]? = some p)
    (hflag : (optimalFlags (rows objectives points))[i]? ≠ some true) :
    row ≠ criteria objectives p := by
  rintro rfl
  obtain ⟨k, hk, hkflag⟩ := mem_frontierMatrix.mp hrow
  rw [List.getElem?_map, Option.map_eq_some_iff] at hk
  obtain ⟨q, hq, hqp⟩ := hk
  rw [ne_eq, flag_iff_not_dominated hp, not_not] at hflag
  obtain ⟨j, r, -, hr, hdom⟩ := hflag
  -- what dominates the point dominates the point with the same row
  have hdom' : Dominates objectives r q := by
    rwa [← rowDominates_criteria, hqp, rowDominates_criteria]
  refine (flag_iff_not_dominated hq).mp hkflag ⟨j, r, ?_, hr, hdom'⟩
  rintro rfl
  rw [hq, Option.some.injEq] at hr
  subst hr
  exact irrefl_of (Dominates objectives) _ hdom'

theorem frontierMatrix_ne_nil (hne : points ≠ []) :
    frontierMatrix (rows objectives points)
      (optimalFlags (rows objectives points)) ≠ [] := by
  have hpos : 0 < (rows objectives points).length := by
    rw [List.length_map]
    exact List.length_pos_of_ne_nil hne
  obtain ⟨m, hm, hmax⟩ := Dominance.exists_maximal (Above objectives points) hpos
  have hflag := ((optimalFlags_points objectives points).flag m hm).mpr (.inr hmax)
  exact List.ne_nil_of_mem (mem_frontierMatrix.mpr ⟨m, List.getElem?_eq_getElem hm, hflag⟩)

/-- Every row of the frontier has a positive distance from a dominated point. -/
theorem rowDistance_pos {sqrt : 𝕜 → 𝕜} (hsqrt : ∀ x, 0 < x → 0 < sqrt x) {row : List 𝕜}
    (hrow : row ∈ frontierMatrix (rows objectives points)
      (optimalFlags (rows objectives points)))
    (hp : points[i]? = some p)
    (hflag : (optimalFlags (rows objectives points))[i]? ≠ some true) :
    let normalize := normRow (reduceRows min (rows objectives points))
      (rangeVals (rows objectives points))
    0 < rowDistance sqrt (normalize row) (normalize (criteria objectives p)) := by
  intro normalize
  have hne : rows objectives points ≠ [] :=
    List.ne_nil_of_mem (List.mem_map_of_mem (List.mem_of_getElem? hp))
  have hwidth : ∀ r ∈ rows objectives points, r.length = objectives.entries.length := by
    intro r hr
    obtain ⟨q, -, rfl⟩ := List.mem_map.mp hr
    exact List.length_map _
  have hmin := length_reduceRows min hne hwidth
  have hmax := length_reduceRows max hne hwidth
  have hranges : (rangeVals (rows objectives points)).length =
      (reduceRows min (rows objectives points)).length := by
    rw [rangeVals, List.length_zipWith, hmax, hmin, min_self]
  obtain ⟨k, hk, -⟩ := mem_frontierMatrix.mp hrow
  have hrowlen : row.length = objectives.entries.length := hwidth row (List.mem_of_getElem? hk)
  have hplen : (criteria objectives p).length = objectives.entries.length := List.length_map _
  refine hsqrt _ (sum_sq_pos ?_ fun heq => frontier_row_ne hrow hp hflag ?_)
  · simp only [normalize, normRow, List.length_zipWith, hrowlen, hplen]
  · exact normRow_injective hranges (hrowlen.trans hmin.symm) (hplen.trans hmin.symm)
      rangeVals_ne_zero heq

structure Classified (pt : ParetoPoint 𝕜) (flag : Bool) (r : ParetoPoint 𝕜) : Prop where
  pointId : r.pointId = pt.pointId
  metrics : r.metrics = pt.metrics
  metadata : r.metadata = pt.metadata
  isParetoOptimal : r.isParetoOptimal = flag
  optimal_distance : flag = true → r.distanceToFrontier = 0
  other_distance : flag = false → 0 < r.distanceToFrontier

omit [IsStrictOrderedRing 𝕜] in
theorem processPoint_classified {sqrt : 𝕜 → 𝕜} {normFrontier : List (List 𝕜)}
    {pt : ParetoPoint 𝕜} {flag : Bool} {row : List 𝕜} (hne : normFrontier ≠ [])
    (hpos : flag = false → ∀ f ∈ normFrontier, 0 < rowDistance sqrt f row) :
    ∃ r, processPoint sqrt normFrontier (pt, flag, row) = .ok r ∧ Classified pt flag r := by
  cases flag with
  | true => exact ⟨_, rfl, rfl, rfl, rfl, rfl, fun _ => rfl, fun h => absurd h (by decide)⟩
  | false =>
    have hne' : normFrontier.map (fun f => rowDistance sqrt f row) ≠ [] :=
      fun h => hne (List.map_eq_nil_iff.mp h)
    obtain ⟨d, hd, hdpos⟩ := minimum_pos hne' fun x hx => by
      obtain ⟨f, hf, rfl⟩ := List.mem_map.mp hx
      exact hpos rfl f hf
    refine ⟨{ pt with isParetoOptimal := false, distanceToFrontier := d }, ?_,
      rfl, rfl, rfl, rfl, fun h => absurd h (by decide), fun _ => hdpos⟩
    simp only [processPoint, Bool.false_eq_true, if_false, hd]
    rfl

theorem computeParetoFrontier_classified {sqrt : 𝕜 → 𝕜} (hsqrt : ∀ x, 0 < x → 0 < sqrt x)
    (hdir : Directed objectives) (hne : points ≠ []) :
    ∃ result, computeParetoFrontier sqrt points objectives = .ok result ∧
      List.Forall₂ (fun entry r => Classified entry.1 entry.2.1 r)
        (points.zip ((optimalFlags (rows objectives points)).zip
          ((rows objectives points).map
            (normRow (reduceRows min (rows objectives points))
              (rangeVals (rows objectives points)))))) result := by
  rw [computeParetoFrontier, if_neg (by rwa [List.isEmpty_iff]), criteriaMatrix_eq hdir]
  refine mapM_ok fun entry hentry => ?_
  obtain ⟨pt, flag, row⟩ := entry
  obtain ⟨i, hi⟩ := List.mem_iff_getElem?.mp hentry
  obtain ⟨hp, hi⟩ := List.getElem?_zip_eq_some.mp hi
  obtain ⟨hflag, hrow⟩ := List.getElem?_zip_eq_some.mp hi
  rw [List.getElem?_map, List.getElem?_map, hp] at hrow
  have hrow' := Option.some.inj hrow
  dsimp only at hp hflag hrow'
  refine processPoint_classified ?_ fun hfalse f hf => ?_
  · exact fun h => frontierMatrix_ne_nil hne (List.map_eq_nil_iff.mp h)
  · obtain ⟨g, hg, rfl⟩ := List.mem_map.mp hf
    rw [← hrow']
    exact rowDistance_pos hsqrt hg hp (by rw [hflag, hfalse]; decide)

end Classification

/-- The points come back in order, flagged where no other point is at least as good in every
objective and better in one; the flagged points have distance zero, the others a positive one. -/
theorem computeParetoFrontier_spec (points : List (ParetoPoint ℝ))
    (objectives : FiniteMap String String)
    (hdir : ∀ o ∈ objectives.entries, lower o.2 = "maximize" ∨ lower o.2 = "minimize") :
    ∃ result, computeParetoFrontier Real.sqrt points objectives = .ok result ∧
      result.length = points.length ∧
      (∀ (i : ℕ) (p r : ParetoPoint ℝ), points[i]? = some p → result[i]? = some r →
        r.pointId = p.pointId ∧ r.metrics = p.metrics ∧ r.metadata = p.metadata ∧
        (r.isParetoOptimal = true ↔
          ¬ ∃ (j : ℕ) (q : ParetoPoint ℝ), j ≠ i ∧ points[j]? = some q ∧
            Dominates objectives q p) ∧
        (r.isParetoOptimal = true → r.distanceToFrontier = 0) ∧
        (r.isParetoOptimal = false → 0 < r.distanceToFrontier)) ∧
      (points ≠ [] → ∃ r ∈ result, r.isParetoOptimal = true) := by
  rcases eq_or_ne points [] with rfl | hne
  · exact ⟨[], rfl, rfl, fun i p r h => absurd h (by simp), fun h => absurd rfl h⟩
  obtain ⟨result, hresult, hall⟩ :=
    computeParetoFrontier_classified (fun x => Real.sqrt_pos.mpr) hdir hne
  have hflags := optimalFlags_points objectives points
  have hlen : (optimalFlags (rows objectives points)).length = points.length := by
    rw [hflags.length, List.length_map]
  have hresultlen : result.length = points.length := by
    rw [← hall.length_eq, List.length_zip, List.length_zip, List.length_map, List.length_map, hlen,
      min_self, min_self]
  -- the point at an index is classified with the flag at the index
  have hclass : ∀ (i : ℕ) (p r : ParetoPoint ℝ), points[i]? = some p → result[i]? = some r →
      ∃ flag, (optimalFlags (rows objectives points))[i]? = some flag ∧ Classified p flag r := by
    intro i p r hp hr
    obtain ⟨hri, rfl⟩ := List.getElem?_eq_some_iff.mp hr
    have hi : i < (points.zip ((optimalFlags (rows objectives points)).zip
        ((rows objectives points).map (normRow (reduceRows min (rows objectives points))
          (rangeVals (rows objectives points)))))).length := by rwa [hall.length_eq]
    have hcls := hall.get hi hri
    have hentry := List.getElem?_eq_getElem hi
    obtain ⟨hp', hrest⟩ := List.getElem?_zip_eq_some.mp hentry
    obtain ⟨hflag, -⟩ := List.getElem?_zip_eq_some.mp hrest
    rw [hp, Option.some.injEq] at hp'
    exact ⟨_, hflag, hp' ▸ hcls⟩
  refine ⟨result, hresult, hresultlen, fun i p r hp hr => ?_, fun _ => ?_⟩
  · obtain ⟨flag, hflag, hcls⟩ := hclass i p r hp hr
    refine ⟨hcls.pointId, hcls.metrics, hcls.metadata, ?_, fun h => ?_, fun h => ?_⟩
    · rw [← flag_iff_not_dominated hp, hflag, hcls.isParetoOptimal, Option.some.injEq]
    · exact hcls.optimal_distance (hcls.isParetoOptimal ▸ h)
    · exact hcls.other_distance (hcls.isParetoOptimal ▸ h)
  · have hpos : 0 < (rows objectives points).length := by
      rw [List.length_map]
      exact List.length_pos_of_ne_nil hne
    obtain ⟨m, hm, hmax⟩ := Dominance.exists_maximal (Above objectives points) hpos
    have hmflag := (hflags.flag m hm).mpr (.inr hmax)
    rw [List.length_map] at hm
    obtain ⟨flag, hflag, hcls⟩ := hclass m points[m] (result.get ⟨m, hresultlen ▸ hm⟩)
      (List.getElem?_eq_getElem hm) (List.getElem?_eq_getElem _)
    rw [hmflag, Option.some.injEq] at hflag
    exact ⟨_, List.getElem_mem _, hcls.isParetoOptimal.trans hflag.symm⟩

theorem computeParetoFrontier_spec_pair :
    ∃ result, computeParetoFrontier Real.sqrt
        [{ pointId := "slow", metrics := ∅, metadata := ∅ },
          { pointId := "fast", metrics := (∅ : FiniteMap String ℝ).insert "tps" 1, metadata := ∅ }]
        ((∅ : FiniteMap String String).insert "tps" "maximize") = .ok result ∧
      result.length = 2 ∧ ∃ r ∈ result, r.isParetoOptimal = true := by
  obtain ⟨result, hresult, hlen, -, hopt⟩ := computeParetoFrontier_spec
    [{ pointId := "slow", metrics := ∅, metadata := ∅ },
      { pointId := "fast", metrics := (∅ : FiniteMap String ℝ).insert "tps" 1, metadata := ∅ }]
    ((∅ : FiniteMap String String).insert "tps" "maximize")
    (by
      intro o ho
      rw [show ((∅ : FiniteMap String String).insert "tps" "maximize").entries =
        [⟨"tps", "maximize"⟩] from rfl, List.mem_singleton] at ho
      subst ho
      exact .inl (by decide))
  exact ⟨result, hresult, hlen, hopt (List.cons_ne_nil _ _)⟩

example : (computeParetoFrontier (𝕜 := ℚ) id
    [{ pointId := "slow", metrics := ∅, metadata := ∅ },
      { pointId := "fast", metrics := (∅ : FiniteMap String ℚ).insert "tps" 1, metadata := ∅ }]
    ((∅ : FiniteMap String String).insert "tps" "Maximize")).map
      (fun result => result.map fun p => (p.isParetoOptimal, p.distanceToFrontier)) =
    .ok [(false, 1), (true, 0)] := by
  decide +kernel

end CudaForge.Statistics
