import CudaForge.Autotuner.Transparency
import CudaForge.Library.Transition

/-!
Runs of dispatches. The cache outlives the candidates that its winners were elected from, and an
election may have no winner, so that a dispatch finds a candidate only under a condition on the
cache.
-/
namespace CudaForge.Autotuner
open FiniteMap Transition

inductive DispatcherCall (σ : Type*) where
  | dispatchOrAutotune (totalMs : String → ℚ) (key : KernelKey) (candidates : Candidates σ)
  | clearCache

namespace KernelDispatcher
variable {σ : Type*}

/-- The dispatcher and the device after a call, whether it returned or threw. -/
def step (fl : Rounding) (s : KernelDispatcher × σ) :
    DispatcherCall σ → Option (KernelDispatcher × σ)
  | .dispatchOrAutotune totalMs key candidates =>
    some (s.1.dispatchOrAutotune fl totalMs key candidates s.2).2
  | .clearCache => some (s.1.clearCache, s.2)

section Call
variable (fl : Rounding) (totalMs : String → ℚ) (d : KernelDispatcher) (key : KernelKey)
  (candidates : Candidates σ) (x : σ)

/-- The device when the winner is launched: behind the benchmarks on a cold cache. -/
def deviceAtLaunch : σ :=
  if d.cachedWinner key = "" then (autotuneCandidates fl totalMs candidates x).2 else x

/-- The call returns, and the last thing it did was to launch a member of its map. -/
def LaunchesCandidate : Prop :=
  ∃ name func, candidates.lookup name = some func ∧
    (d.dispatchOrAutotune fl totalMs key candidates x).1 = .ok () ∧
    (d.dispatchOrAutotune fl totalMs key candidates x).2.2 =
      func (d.deviceAtLaunch fl totalMs key candidates x)

/-- The cached winner is among the candidates, or none is cached and one of them is elected. -/
def FindsCandidate : Prop :=
  if d.cachedWinner key = "" then ElectsCandidate fl totalMs candidates
  else d.cachedWinner key ∈ candidates

end Call

def Launches (fl : Rounding) (s : KernelDispatcher × σ) : DispatcherCall σ → Prop
  | .dispatchOrAutotune totalMs key candidates =>
    LaunchesCandidate fl totalMs s.1 key candidates s.2
  | .clearCache => True

def Finds (fl : Rounding) (s : KernelDispatcher × σ) : DispatcherCall σ → Prop
  | .dispatchOrAutotune totalMs key candidates => FindsCandidate fl totalMs s.1 key candidates
  | .clearCache => True

section Dispatch
variable {fl : Rounding} {totalMs : String → ℚ} {d : KernelDispatcher} {key : KernelKey}
  {candidates : Candidates σ} {x : σ}

/-- A launch succeeds exactly for a name in the map, and runs what the map has there. -/
theorem launch_ok_iff (winnerName : String) :
    (∃ name func, candidates.lookup name = some func ∧
      (launch candidates winnerName x).1 = .ok () ∧
      (launch candidates winnerName x).2 = func x) ↔ winnerName ∈ candidates := by
  rw [← AList.lookup_isSome, launch]
  cases hlookup : candidates.lookup winnerName with
  | none =>
    refine iff_of_false ?_ Bool.false_ne_true
    rintro ⟨name, func, -, hok, -⟩
    cases hok
  | some func => exact iff_of_true ⟨winnerName, func, hlookup, rfl, rfl⟩ rfl

theorem dispatch_cold_cache (hcold : d.cachedWinner key = "") {winnerName : String} {y : σ}
    (htuned : autotuneCandidates fl totalMs candidates x = (.ok winnerName, y))
    (other : KernelKey) :
    (d.dispatchOrAutotune fl totalMs key candidates x).2.1.cachedWinner other =
      if other = key then winnerName else d.cachedWinner other := by
  simp only [dispatchOrAutotune, hcold, if_true, htuned]
  rw [cachedWinner, lookup_insert_ite]
  split_ifs <;> rfl

theorem dispatch_warm_cache (hwarm : d.cachedWinner key ≠ "") :
    (d.dispatchOrAutotune fl totalMs key candidates x).2.1 = d := by
  simp only [dispatchOrAutotune, hwarm, if_false]

theorem launchesCandidate_iff :
    LaunchesCandidate fl totalMs d key candidates x ↔
      FindsCandidate fl totalMs d key candidates := by
  unfold LaunchesCandidate FindsCandidate deviceAtLaunch
  by_cases hcold : d.cachedWinner key = ""
  · simp only [dispatchOrAutotune, hcold, if_true]
    rcases eq_or_ne candidates.entries [] with hempty | hne
    · refine iff_of_false ?_ ?_
      · rintro ⟨name, func, hlookup, -⟩
        exact not_mem_of_entries_nil hempty (mem_of_lookup hlookup)
      · rintro (⟨name, hmem, -⟩ | hmem) <;> exact not_mem_of_entries_nil hempty hmem
    · obtain ⟨winnerName, htuned, hwinner⟩ := autotuneCandidates_winner fl totalMs hne x
      simp only [htuned]
      rw [launch_ok_iff, hwinner]
  · simp only [dispatchOrAutotune, hcold, if_false]
    exact launch_ok_iff _

end Dispatch

/-- In every run of dispatches and clears, whatever the keys, the maps and the latencies, all
dispatches launch a member of their own map exactly when each finds its cached winner there or,
with none cached, elects one. -/
theorem launches_iff_finds (fl : Rounding) (device : σ) (calls : List (DispatcherCall σ)) :
    AllSteps (step fl) (Launches fl) (⟨∅⟩, device) calls ↔
      AllSteps (step fl) (Finds fl) (⟨∅⟩, device) calls := by
  refine allSteps_congr (I := fun _ => True) (fun _ _ _ _ _ => trivial) ?_ trivial calls
  rintro s (⟨totalMs, key, candidates⟩ | -) -
  · exact launchesCandidate_iff
  · exact Iff.rfl

/-- Two calls with one key and different maps: the second finds the winner of the first. -/
theorem dispatch_stale_winner :
    let key : KernelKey := ⟨"fused_rmsnorm", 1, 8, 1, 0⟩
    let first := (∅ : Candidates ℕ).insert "scalar" (· + 1)
    let second := (∅ : Candidates ℕ).insert "vectorized" (· + 1)
    let d := (dispatchOrAutotune Rounding.exact (fun _ => 1) ⟨∅⟩ key first 0).2.1
    (d.dispatchOrAutotune Rounding.exact (fun _ => 1) key second 0).1 =
        .error (.outOfRange "scalar") ∧
      ¬ AllSteps (step Rounding.exact) (Launches Rounding.exact) (⟨∅⟩, 0)
        [.dispatchOrAutotune (fun _ => 1) key first,
          .dispatchOrAutotune (fun _ => 1) key second] := by
  intro key first second d
  have hwinner : d.cachedWinner key = "scalar" := by decide +kernel
  have hthrow (x : ℕ) : (d.dispatchOrAutotune Rounding.exact (fun _ => 1) key second x).1 =
      .error (.outOfRange "scalar") := by
    simp only [dispatchOrAutotune, hwinner]
    rfl
  refine ⟨hthrow 0, fun hall => ?_⟩
  obtain ⟨-, -, -, hok, -⟩ := (hall.2 _ rfl).1
  have hcontra := (hthrow _).symm.trans hok
  cases hcontra

section SameNames
variable {fl : Rounding} {calls : List (DispatcherCall σ)}

def SameNames (calls : List (DispatcherCall σ)) : Prop :=
  ∀ totalMs key candidates totalMs' candidates',
    .dispatchOrAutotune totalMs key candidates ∈ calls →
    .dispatchOrAutotune totalMs' key candidates' ∈ calls →
    ∀ name, name ∈ candidates → name ∈ candidates'

def AlwaysElects (fl : Rounding) (calls : List (DispatcherCall σ)) : Prop :=
  ∀ totalMs key candidates, .dispatchOrAutotune totalMs key candidates ∈ calls →
    ElectsCandidate fl totalMs candidates

def CachedFrom (calls : List (DispatcherCall σ)) (d : KernelDispatcher) : Prop :=
  ∀ key, d.cachedWinner key ≠ "" → ∃ totalMs candidates,
    .dispatchOrAutotune totalMs key candidates ∈ calls ∧ d.cachedWinner key ∈ candidates

theorem cachedFrom_step {s s' : KernelDispatcher × σ} {call : DispatcherCall σ}
    (helects : AlwaysElects fl calls) (hcall : call ∈ calls) (h : CachedFrom calls s.1)
    (hs : step fl s call = some s') : CachedFrom calls s'.1 := by
  cases call with
  | clearCache =>
    obtain rfl := Option.some.inj hs
    exact fun key hkey => absurd rfl hkey
  | dispatchOrAutotune totalMs key candidates =>
    obtain rfl := Option.some.inj hs
    have hcandidate := helects totalMs key candidates hcall
    have hne : candidates.entries ≠ [] := by
      intro hempty
      rcases hcandidate with ⟨name, hmem, -⟩ | hmem <;> exact not_mem_of_entries_nil hempty hmem
    by_cases hcold : s.1.cachedWinner key = ""
    · obtain ⟨winnerName, htuned, hwinner⟩ := autotuneCandidates_winner fl totalMs hne s.2
      intro other hother
      rw [dispatch_cold_cache hcold htuned] at hother ⊢
      split_ifs at hother ⊢ with hkey
      · exact ⟨totalMs, candidates, hkey ▸ hcall, hwinner.mpr hcandidate⟩
      · exact h other hother
    · rw [dispatch_warm_cache hcold]
      exact h

/-- Where calls with the same key offer the same names and a candidate can win in each, every
dispatch launches one of its candidates. -/
theorem launches_of_sameNames (hnames : SameNames calls) (helects : AlwaysElects fl calls)
    (device : σ) : AllSteps (step fl) (Launches fl) (⟨∅⟩, device) calls := by
  have hrun : ∀ rest, (∀ call ∈ rest, call ∈ calls) → ∀ s : KernelDispatcher × σ,
      CachedFrom calls s.1 → AllSteps (step fl) (Launches fl) s rest := by
    intro rest
    induction rest with
    | nil => exact fun _ _ _ => trivial
    | cons call rest ih =>
      intro hmem s h
      obtain ⟨hcall, hrest⟩ := List.forall_mem_cons.mp hmem
      refine ⟨?_, fun s' hs => ih hrest s' (cachedFrom_step helects hcall h hs)⟩
      cases call with
      | clearCache => trivial
      | dispatchOrAutotune totalMs key candidates =>
        refine launchesCandidate_iff.mpr ?_
        unfold FindsCandidate
        split_ifs with hcold
        · exact helects totalMs key candidates hcall
        · obtain ⟨totalMs', candidates', hcall', hwinner⟩ := h key hcold
          exact hnames totalMs' key candidates' totalMs candidates hcall' hcall _ hwinner
  exact hrun calls (fun call h => h) _ fun key hkey => absurd rfl hkey

end SameNames

end KernelDispatcher
end CudaForge.Autotuner
