import CudaForge.Autotuner.KernelDispatcher
import CudaForge.Kernels.FusedRMSNorm

/-!
What autotuning does to the operands. The candidates are benchmarked on the caller's live operands,
so that a cold dispatch is transparent only where further runs of a kernel change nothing.
-/
namespace CudaForge.Autotuner
open FiniteMap

namespace KernelDispatcher
variable {σ : Type*} {fl : Rounding} {totalMs : String → ℚ} {d : KernelDispatcher}
  {key : KernelKey} {candidates : Candidates σ} {f : σ → σ} {x : σ}

/-- The call returns, and the device is as after one run of `f`. -/
def Transparent (fl : Rounding) (totalMs : String → ℚ) (d : KernelDispatcher) (key : KernelKey)
    (candidates : Candidates σ) (f : σ → σ) (x : σ) : Prop :=
  let r := d.dispatchOrAutotune fl totalMs key candidates x
  r.1 = .ok () ∧ r.2.2 = f x

/-- Some candidate beats the initial `1e9f`, or is named like the winner of none. -/
def ElectsCandidate (fl : Rounding) (totalMs : String → ℚ) (candidates : Candidates σ) : Prop :=
  (∃ name ∈ candidates, avgMs fl totalMs name < 10 ^ 9) ∨ "" ∈ candidates

def benchmarkedRuns : ℕ := WARMUP_RUNS + BENCHMARK_RUNS

section Benchmark

theorem benchmark_device (acc : Autotuning σ) (name : String) (func : σ → σ) :
    (benchmark fl totalMs acc name func).device = func^[benchmarkedRuns] acc.device := by
  have hruns : func^[BENCHMARK_RUNS] (func^[WARMUP_RUNS] acc.device) =
      func^[benchmarkedRuns] acc.device := by
    rw [← Function.iterate_add_apply, benchmarkedRuns, Nat.add_comm]
  rw [← hruns]
  unfold benchmark
  simp only
  split_ifs <;> rfl

/-- Every candidate is run on what the one before has left. -/
theorem benchmarks_device (fl : Rounding) (totalMs : String → ℚ)
    (entries : List (Sigma fun _ : String => σ → σ))
    (hsame : ∀ e ∈ entries, e.2 = f) (acc : Autotuning σ) :
    (entries.foldl (fun acc e => benchmark fl totalMs acc e.1 e.2) acc).device =
      f^[benchmarkedRuns * entries.length] acc.device := by
  induction entries generalizing acc with
  | nil => rfl
  | cons e rest ih =>
    obtain ⟨hfirst, hrest⟩ := List.forall_mem_cons.mp hsame
    rw [List.foldl_cons, ih hrest, benchmark_device, hfirst, ← Function.iterate_add_apply,
      List.length_cons, Nat.mul_succ]

/-- The winner beats the initial latency, unless no candidate does. -/
theorem benchmarks_winner (fl : Rounding) (totalMs : String → ℚ)
    (entries : List (Sigma fun _ : String => σ → σ)) (acc : Autotuning σ) :
    let acc' := entries.foldl (fun acc e => benchmark fl totalMs acc e.1 e.2) acc
    (∃ e ∈ entries, avgMs fl totalMs e.1 < acc.bestLatencyMs ∧ acc'.bestCandidate = e.1) ∨
      (∀ e ∈ entries, ¬avgMs fl totalMs e.1 < acc.bestLatencyMs) ∧
        acc'.bestCandidate = acc.bestCandidate := by
  induction entries generalizing acc with
  | nil => exact Or.inr ⟨fun e he => absurd he List.not_mem_nil, rfl⟩
  | cons e rest ih =>
    simp only [List.foldl_cons]
    by_cases hbeats : avgMs fl totalMs e.1 < acc.bestLatencyMs
    · left
      have hlatency : (benchmark fl totalMs acc e.1 e.2).bestLatencyMs = avgMs fl totalMs e.1 := by
        simp only [benchmark, hbeats, if_true]
      have hname : (benchmark fl totalMs acc e.1 e.2).bestCandidate = e.1 := by
        simp only [benchmark, hbeats, if_true]
      rcases ih (benchmark fl totalMs acc e.1 e.2) with ⟨e', he', hlt, hwinner⟩ | ⟨-, hwinner⟩
      · rw [hlatency] at hlt
        exact ⟨e', List.mem_cons_of_mem e he', hlt.trans hbeats, hwinner⟩
      · exact ⟨e, List.mem_cons_self, hbeats, hwinner.trans hname⟩
    · have hlatency : (benchmark fl totalMs acc e.1 e.2).bestLatencyMs = acc.bestLatencyMs := by
        simp only [benchmark, hbeats, if_false]
      have hname : (benchmark fl totalMs acc e.1 e.2).bestCandidate = acc.bestCandidate := by
        simp only [benchmark, hbeats, if_false]
      have hrest := ih (benchmark fl totalMs acc e.1 e.2)
      rw [hlatency, hname] at hrest
      rcases hrest with ⟨e', he', hlt, hwinner⟩ | ⟨hnone, hwinner⟩
      · exact Or.inl ⟨e', List.mem_cons_of_mem e he', hlt, hwinner⟩
      · exact Or.inr ⟨List.forall_mem_cons.mpr ⟨hbeats, hnone⟩, hwinner⟩

theorem mem_iff_entry {name : String} :
    name ∈ candidates ↔ ∃ e ∈ candidates.entries, e.1 = name := by
  rw [AList.mem_keys, AList.keys, List.keys, List.mem_map]

theorem not_mem_of_entries_nil (hempty : candidates.entries = []) {name : String} :
    name ∉ candidates := by
  intro hmem
  obtain ⟨e, he, -⟩ := mem_iff_entry.mp hmem
  exact List.not_mem_nil (hempty ▸ he)

theorem autotuneCandidates_winner (fl : Rounding) (totalMs : String → ℚ)
    (hne : candidates.entries ≠ []) (x : σ) : ∃ winnerName,
    autotuneCandidates fl totalMs candidates x =
      (.ok winnerName, (candidates.entries.foldl (fun acc e => benchmark fl totalMs acc e.1 e.2)
        ⟨x, "", 10 ^ 9⟩).device) ∧
    (winnerName ∈ candidates ↔ ElectsCandidate fl totalMs candidates) := by
  have hwinner := benchmarks_winner fl totalMs candidates.entries
    ⟨x, "", 10 ^ 9⟩
  have hrun : autotuneCandidates fl totalMs candidates x =
      let acc := candidates.entries.foldl (fun acc e => benchmark fl totalMs acc e.1 e.2)
        ⟨x, "", 10 ^ 9⟩
      (.ok acc.bestCandidate, acc.device) := if_neg (by simpa using hne)
  rw [hrun]
  simp only at hwinner ⊢
  generalize candidates.entries.foldl (fun acc e => benchmark fl totalMs acc e.1 e.2)
    ⟨x, "", 10 ^ 9⟩ = acc at hwinner
  refine ⟨acc.bestCandidate, rfl, ?_⟩
  rcases hwinner with ⟨e, he, hbeats, hname⟩ | ⟨hnone, hname⟩
  · have hmem : e.1 ∈ candidates := mem_iff_entry.mpr ⟨e, he, rfl⟩
    rw [hname]
    exact iff_of_true hmem (Or.inl ⟨e.1, hmem, hbeats⟩)
  · rw [hname, ElectsCandidate, or_iff_right]
    rintro ⟨name, hmem, hbeats⟩
    obtain ⟨e, he, rfl⟩ := mem_iff_entry.mp hmem
    exact hnone e he hbeats

theorem autotuneCandidates_eq (fl : Rounding) (totalMs : String → ℚ)
    (hsame : ∀ e ∈ candidates.entries, e.2 = f)
    (hne : candidates.entries ≠ []) (x : σ) : ∃ winnerName,
    autotuneCandidates fl totalMs candidates x =
      (.ok winnerName, f^[benchmarkedRuns * candidates.entries.length] x) ∧
    (winnerName ∈ candidates ↔ ElectsCandidate fl totalMs candidates) := by
  have hdevice := benchmarks_device fl totalMs candidates.entries hsame
    ⟨x, "", 10 ^ 9⟩
  obtain ⟨winnerName, hrun, hwinner⟩ := autotuneCandidates_winner fl totalMs hne x
  exact ⟨winnerName, by rw [hrun, hdevice], hwinner⟩

end Benchmark

section Dispatch

/-- A launch runs `f` exactly when the winner is among the candidates. -/
theorem launch_iff (hsame : ∀ name func, candidates.lookup name = some func → func = f)
    (winnerName : String) (x y : σ) :
    (launch candidates winnerName x).1 = .ok () ∧ (launch candidates winnerName x).2 = y ↔
      winnerName ∈ candidates ∧ f x = y := by
  rw [← AList.lookup_isSome, launch]
  cases hlookup : candidates.lookup winnerName with
  | none => simp only [reduceCtorEq, false_and, Option.isSome_none, Bool.false_eq_true]
  | some func =>
    rw [hsame winnerName func hlookup]
    simp only [Option.isSome_some, true_and]

theorem transparent_warm (hwarm : d.cachedWinner key ≠ "")
    (hsame : ∀ name func, candidates.lookup name = some func → func = f) :
    d.Transparent fl totalMs key candidates f x ↔ d.cachedWinner key ∈ candidates := by
  simp only [Transparent, dispatchOrAutotune, hwarm, if_false]
  rw [launch_iff hsame, and_iff_left rfl]

theorem transparent_cold (hcold : d.cachedWinner key = "")
    (hsame : ∀ name func, candidates.lookup name = some func → func = f) :
    d.Transparent fl totalMs key candidates f x ↔ ElectsCandidate fl totalMs candidates ∧
      f^[benchmarkedRuns * candidates.entries.length + 1] x = f x := by
  simp only [Transparent, dispatchOrAutotune, hcold, if_true]
  rcases eq_or_ne candidates.entries [] with hempty | hne
  · have hnone : ∀ name, name ∉ candidates := fun name => not_mem_of_entries_nil hempty
    simp only [autotuneCandidates, hempty, List.isEmpty_nil, if_true, ElectsCandidate, hnone,
      false_and, exists_false, or_self, reduceCtorEq]
  · have hentries : ∀ e ∈ candidates.entries, e.2 = f := fun e he =>
      hsame e.1 e.2 (AList.mem_lookup_iff.mpr he)
    obtain ⟨winnerName, htuned, helects⟩ := autotuneCandidates_eq fl totalMs hentries hne x
    simp only [htuned]
    rw [launch_iff hsame, helects, Function.iterate_succ_apply']

theorem dispatch_cold (hcold : d.cachedWinner key = "")
    (hsame : ∀ name func, candidates.lookup name = some func → func = f)
    (helects : ElectsCandidate fl totalMs candidates) :
    (d.dispatchOrAutotune fl totalMs key candidates x).2.2 =
      f^[benchmarkedRuns * candidates.entries.length + 1] x := by
  have hne : candidates.entries ≠ [] := by
    intro hempty
    rcases helects with ⟨name, hmem, -⟩ | hmem <;> exact not_mem_of_entries_nil hempty hmem
  obtain ⟨winnerName, htuned, hwinner⟩ := autotuneCandidates_eq fl totalMs
    (fun e he => hsame e.1 e.2 (AList.mem_lookup_iff.mpr he)) hne x
  simp only [dispatchOrAutotune, hcold, if_true, htuned]
  rw [Function.iterate_succ_apply']
  exact ((launch_iff hsame winnerName _ _).mpr ⟨hwinner.mpr helects, rfl⟩).2

/-- A kernel that may be run again is dispatched transparently on a cold cache. -/
theorem transparent_of_idempotent (hidem : ∀ x, f (f x) = f x)
    (hsame : ∀ name func, candidates.lookup name = some func → func = f)
    (helects : ElectsCandidate fl totalMs candidates) (hcold : d.cachedWinner key = "") :
    d.Transparent fl totalMs key candidates f x := by
  rw [transparent_cold hcold hsame]
  refine ⟨helects, ?_⟩
  induction benchmarkedRuns * candidates.entries.length with
  | zero => rfl
  | succ n ih => rw [Function.iterate_succ_apply', ih, hidem]

/-- A dispatch is transparent exactly when the cached winner is among the candidates or, on a cold
cache, when one of them is elected and the runs of the benchmarks change nothing. -/
theorem dispatch_transparent_iff (fl : Rounding) (totalMs : String → ℚ) (d : KernelDispatcher)
    (key : KernelKey) (candidates : Candidates σ) (f : σ → σ) (x : σ)
    (hsame : ∀ name func, candidates.lookup name = some func → func = f) :
    d.Transparent fl totalMs key candidates f x ↔
      if d.cachedWinner key = "" then
        ElectsCandidate fl totalMs candidates ∧
          f^[benchmarkedRuns * candidates.entries.length + 1] x = f x
      else d.cachedWinner key ∈ candidates := by
  split_ifs with hcold
  · exact transparent_cold hcold hsame
  · exact transparent_warm hcold hsame

/-- Two variants that write the same value may be benchmarked on the live operands. -/
theorem dispatch_transparent_overwriting :
    let write : ℕ → ℕ := fun _ => 7
    Transparent Rounding.exact (fun _ => 1) ⟨∅⟩ ⟨"write", 1, 1, 1, 0⟩
      (((∅ : Candidates ℕ).insert "scalar" write).insert "vectorized" write) write 3 := by
  intro write
  refine (dispatch_transparent_iff Rounding.exact (fun _ => 1) ⟨∅⟩ ⟨"write", 1, 1, 1, 0⟩ _
    write 3 ?_).mpr ?_
  · intro name func hlookup
    simp only [lookup_insert_ite, AList.lookup_empty] at hlookup
    split_ifs at hlookup <;> exact (Option.some.inj hlookup).symm
  · have hcold : cachedWinner ⟨∅⟩ ⟨"write", 1, 1, 1, 0⟩ = "" := rfl
    rw [if_pos hcold]
    refine ⟨Or.inl ⟨"scalar", by decide, ?_⟩, rfl⟩
    norm_num [avgMs, Rounding.exact, BENCHMARK_RUNS]

end Dispatch

section InPlace
open Kernels.Cuda

/-- The residual of `fused_rmsnorm` takes the input once more for each benchmarked run. -/
theorem fusedRmsnorm_not_transparent {candidates : Candidates NormMemory} {p : FusedRMSNormParams}
    {m : NormMemory} {x : ℕ} (hvec : p.hiddenDim % 8 = 0) (hx : x < p.numTokens * p.hiddenDim)
    (hinput : p.input x ≠ 0) (hne : candidates.entries ≠ []) (hcold : d.cachedWinner key = "")
    (hsame : ∀ name func, candidates.lookup name = some func → func = p.fusedRmsnormKernel) :
    ¬d.Transparent fl totalMs key candidates p.fusedRmsnormKernel m := by
  rw [transparent_cold hcold hsame]
  rintro ⟨-, hagain⟩
  have hresidual := congrFun (congrArg NormMemory.residual hagain) x
  rw [FusedRMSNormParams.iterate_residual hvec, FusedRMSNormParams.fusedRmsnormKernel_residual hvec,
    if_pos hx, if_pos hx] at hresidual
  have hruns : benchmarkedRuns * candidates.entries.length ≠ 0 :=
    Nat.mul_ne_zero (by decide) (mt List.length_eq_zero_iff.mp hne)
  push_cast at hresidual
  have hmore : (benchmarkedRuns : ℝ) * candidates.entries.length * p.input x = 0 := by linarith
  rw [mul_eq_zero] at hmore
  exact hmore.elim (by exact_mod_cast hruns) hinput

def oneToken : FusedRMSNormParams := ⟨fun _ => 1, fun _ => 1, 1, 8, 1⟩

theorem dispatch_not_transparent :
    let m : NormMemory := ⟨fun _ => 0, fun _ => 0⟩
    let candidates := (∅ : Candidates NormMemory).insert "vectorized" oneToken.fusedRmsnormKernel
    let key : KernelKey := ⟨"fused_rmsnorm", 1, 8, 1, 0⟩
    let f := oneToken.fusedRmsnormKernel
    oneToken.launchFusedRmsnorm m = some (f m) ∧ (f m).residual 0 = 1 ∧
      (dispatchOrAutotune Rounding.exact (fun _ => 1) ⟨∅⟩ key candidates m).2.2.residual 0 = 14 ∧
      ¬Transparent Rounding.exact (fun _ => 1) ⟨∅⟩ key candidates f m := by
  intro m candidates key f
  have hvec : oneToken.hiddenDim % 8 = 0 := rfl
  have hplace : 0 < oneToken.numTokens * oneToken.hiddenDim := by decide
  have hsame : ∀ name func, candidates.lookup name = some func →
      func = oneToken.fusedRmsnormKernel := by
    intro name func hlookup
    simp only [candidates, lookup_insert_ite, AList.lookup_empty] at hlookup
    split_ifs at hlookup
    exact (Option.some.inj hlookup).symm
  have helects : ElectsCandidate Rounding.exact (fun _ => 1) candidates :=
    Or.inl ⟨"vectorized", by decide, by norm_num [avgMs, Rounding.exact, BENCHMARK_RUNS]⟩
  refine ⟨rfl, ?_, ?_, fusedRmsnorm_not_transparent hvec hplace one_ne_zero (by decide) rfl hsame⟩
  · rw [FusedRMSNormParams.fusedRmsnormKernel_residual hvec, if_pos hplace]
    norm_num [oneToken, m]
  · rw [dispatch_cold rfl hsame helects, FusedRMSNormParams.iterate_residual hvec, if_pos hplace]
    norm_num [benchmarkedRuns, WARMUP_RUNS, BENCHMARK_RUNS, candidates, oneToken, m]

end InPlace
end KernelDispatcher
end CudaForge.Autotuner
