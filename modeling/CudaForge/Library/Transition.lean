import Mathlib.Data.Option.Basic

/-! Runs of a labelled transition system whose actions may be disabled. -/
namespace Transition
variable {σ ι : Type*}

/-- The state after a sequence of actions, or `none` when one of them is not enabled. -/
def exec (step : σ → ι → Option σ) : σ → List ι → Option σ
  | s, [] => some s
  | s, i :: is => (step s i).bind fun s' => exec step s' is

/-- Every action of the run is taken in a state where `cond` allows it. -/
def AllSteps (step : σ → ι → Option σ) (cond : σ → ι → Prop) : σ → List ι → Prop
  | _, [] => True
  | s, i :: is => cond s i ∧ ∀ s', step s i = some s' → AllSteps step cond s' is

variable {step : σ → ι → Option σ} {cond : σ → ι → Prop}

theorem allSteps_of_some {s t : σ} {i : ι} {is : List ι} (ht : step s i = some t) :
    AllSteps step cond s (i :: is) ↔ cond s i ∧ AllSteps step cond t is := by
  refine and_congr_right fun _ => ⟨fun h => h t ht, fun h s' hs => ?_⟩
  exact Option.some.inj (ht.symm.trans hs) ▸ h

theorem allSteps_of_none {s : σ} {i : ι} {is : List ι} (ht : step s i = none) :
    AllSteps step cond s (i :: is) ↔ cond s i :=
  and_iff_left fun _ hs => nomatch ht.symm.trans hs

instance AllSteps.decidable [∀ s i, Decidable (cond s i)] :
    ∀ (s : σ) (is : List ι), Decidable (AllSteps step cond s is)
  | _, [] => isTrue trivial
  | s, i :: is =>
    match ht : step s i with
    | none => decidable_of_iff (cond s i) (allSteps_of_none ht).symm
    | some t =>
      have := AllSteps.decidable t is
      decidable_of_iff (cond s i ∧ AllSteps step cond t is) (allSteps_of_some ht).symm

theorem exec_cons {s s'' : σ} {i : ι} {is : List ι} :
    exec step s (i :: is) = some s'' ↔ ∃ s', step s i = some s' ∧ exec step s' is = some s'' :=
  Option.bind_eq_some_iff

theorem exec_append (s : σ) (is js : List ι) :
    exec step s (is ++ js) = (exec step s is).bind fun s' => exec step s' js := by
  induction is generalizing s with
  | nil => rfl
  | cons i is ih =>
    simp only [List.cons_append, exec, ih]
    cases step s i <;> rfl

/-- A property of the initial state that every admitted step keeps holds after the run. -/
theorem exec_invariant {I : σ → Prop}
    (hstep : ∀ s i s', I s → cond s i → step s i = some s' → I s')
    {s s' : σ} {is : List ι} (hs : I s) (hc : AllSteps step cond s is)
    (he : exec step s is = some s') : I s' := by
  induction is generalizing s with
  | nil => exact Option.some.inj he ▸ hs
  | cons i is ih =>
    obtain ⟨t, ht, he⟩ := exec_cons.mp he
    exact ih (hstep s i t hs hc.1 ht) (hc.2 t ht) he

/-- Two conditions that agree wherever an invariant holds, which admitted steps keep, agree on whole
runs. -/
theorem allSteps_iff_of_kept {I : σ → Prop} {cond' : σ → ι → Prop}
    (hstep : ∀ s i s', I s → cond s i → step s i = some s' → I s')
    (h : ∀ s i, I s → (cond s i ↔ cond' s i)) {s : σ} (hs : I s) (is : List ι) :
    AllSteps step cond s is ↔ AllSteps step cond' s is := by
  induction is generalizing s with
  | nil => exact Iff.rfl
  | cons i is ih =>
    constructor
    · rintro ⟨hi, his⟩
      exact ⟨(h s i hs).mp hi, fun t ht => (ih (hstep s i t hs hi ht)).mp (his t ht)⟩
    · rintro ⟨hi, his⟩
      have hcond := (h s i hs).mpr hi
      exact ⟨hcond, fun t ht => (ih (hstep s i t hs hcond ht)).mpr (his t ht)⟩

/-- Two conditions that agree wherever an invariant holds agree on whole runs. -/
theorem allSteps_congr {I : σ → Prop} {cond' : σ → ι → Prop}
    (hstep : ∀ s i s', I s → step s i = some s' → I s') (h : ∀ s i, I s → (cond s i ↔ cond' s i))
    {s : σ} (hs : I s) (is : List ι) : AllSteps step cond s is ↔ AllSteps step cond' s is :=
  allSteps_iff_of_kept (fun s i s' hs _ => hstep s i s' hs) h hs is

/-- A condition that holds of the actions in every state. -/
theorem allSteps_of_forall {is : List ι} (h : ∀ i ∈ is, ∀ s, cond s i) (s : σ) :
    AllSteps step cond s is := by
  induction is generalizing s with
  | nil => exact trivial
  | cons i is ih =>
    obtain ⟨hi, his⟩ := List.forall_mem_cons.mp h
    exact ⟨hi s, fun t _ => ih his t⟩

/-- The invariant rule when every action is admitted everywhere. -/
theorem exec_preserves {I : σ → Prop} (hstep : ∀ s i s', I s → step s i = some s' → I s')
    {s s' : σ} {is : List ι} (hs : I s) (he : exec step s is = some s') : I s' :=
  exec_invariant (fun s i t h _ => hstep s i t h) hs
    (allSteps_of_forall (fun _ _ _ => trivial) s) he

/-- Two conditions on the steps of a run are one. -/
theorem AllSteps.and {cond' : σ → ι → Prop} {s : σ} {is : List ι} (h : AllSteps step cond s is)
    (h' : AllSteps step cond' s is) : AllSteps step (fun s i => cond s i ∧ cond' s i) s is := by
  induction is generalizing s with
  | nil => exact trivial
  | cons i is ih => exact ⟨⟨h.1, h'.1⟩, fun t ht => ih (h.2 t ht) (h'.2 t ht)⟩

/-- A property that exactly the admitted steps keep holds after every part of a run exactly when all
its steps are admitted. -/
theorem always_iff_allSteps {I P : σ → Prop} (hprop : ∀ s, I s → P s)
    (hkeeps : ∀ s i s', I s → cond s i → step s i = some s' → I s')
    (honly : ∀ s i s', I s → step s i = some s' → P s' → cond s i)
    {s t : σ} {is : List ι} (hs : I s) (he : exec step s is = some t) :
    (∀ pre, pre <+: is → ∀ s', exec step s pre = some s' → P s') ↔ AllSteps step cond s is := by
  induction is generalizing s with
  | nil =>
    refine iff_of_true (fun pre hpre s' hs' => ?_) trivial
    rw [List.prefix_nil.mp hpre] at hs'
    exact Option.some.inj hs' ▸ hprop s hs
  | cons i is ih =>
    obtain ⟨s₁, hs₁, hrun⟩ := exec_cons.mp he
    rw [allSteps_of_some hs₁]
    constructor
    · intro h
      have hone : P s₁ := h [i] ⟨is, rfl⟩ s₁ (exec_cons.mpr ⟨s₁, hs₁, rfl⟩)
      have hcond := honly s i s₁ hs hs₁ hone
      refine ⟨hcond, (ih (hkeeps s i s₁ hs hcond hs₁) hrun).mp ?_⟩
      intro pre hpre s' hs'
      exact h (i :: pre) (List.prefix_cons_inj i |>.mpr hpre) s' (exec_cons.mpr ⟨s₁, hs₁, hs'⟩)
    · rintro ⟨hcond, hrest⟩ pre hpre s' hs'
      cases pre with
      | nil => exact Option.some.inj hs' ▸ hprop s hs
      | cons j pre =>
        obtain ⟨rfl, htail⟩ := List.cons_prefix_cons.mp hpre
        obtain ⟨s₁', hs₁', hs'⟩ := exec_cons.mp hs'
        obtain rfl : s₁ = s₁' := Option.some.inj (hs₁.symm.trans hs₁')
        exact (ih (hkeeps s j s₁ hs hcond hs₁) hrun).mpr hrest pre htail s' hs'

/-- A simulation of the admitted steps is one of the admitted runs. -/
theorem exec_simulates {τ : Type*} {step' : τ → ι → Option τ} {R : σ → τ → Prop}
    (hstep : ∀ s t i s', R s t → cond s i → step s i = some s' →
      ∃ t', step' t i = some t' ∧ R s' t')
    {s s' : σ} {t : τ} {is : List ι} (h : R s t) (hc : AllSteps step cond s is)
    (he : exec step s is = some s') : ∃ t', exec step' t is = some t' ∧ R s' t' := by
  induction is generalizing s t with
  | nil => exact ⟨t, rfl, Option.some.inj he ▸ h⟩
  | cons i is ih =>
    obtain ⟨s₁, hs₁, he⟩ := exec_cons.mp he
    obtain ⟨t₁, ht₁, h₁⟩ := hstep s t i s₁ h hc.1 hs₁
    obtain ⟨t', ht', hrel⟩ := ih h₁ (hc.2 s₁ hs₁) he
    exact ⟨t', exec_cons.mpr ⟨t₁, ht₁, ht'⟩, hrel⟩

/-- A run on fixed inputs is evaluated, and what it shows of the last state is used. -/
theorem exec_exists {P Q : σ → Prop} [DecidablePred P] {s : σ} {is : List ι}
    (h : ((exec step s is).any fun s' => decide (P s')) = true)
    (hq : ∀ s', exec step s is = some s' → P s' → Q s') :
    ∃ s', exec step s is = some s' ∧ Q s' := by
  obtain ⟨s', hs, hp⟩ := (Option.any_eq_true _ _).mp h
  exact ⟨s', hs, hq s' hs (of_decide_eq_true hp)⟩

end Transition
