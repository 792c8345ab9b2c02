import CudaForge.Library.FiniteMap
import CudaForge.Library.Rounding
import Mathlib.Logic.Function.Iterate

/-!
The autotuning dispatcher. A candidate is what its launch does to the memory of the device once the
stream has reached it; the order of `candidates` is that of the entries.
-/
namespace CudaForge.Autotuner
open FiniteMap

structure KernelKey where
  opName : String
  m : Int32
  n : Int32
  k : Int32
  dtypeCode : Int32
  deriving DecidableEq

inductive DispatchException where
  | noCandidates
  /-- `std::out_of_range` of `candidates.at`. -/
  | outOfRange (winnerName : String)
  deriving DecidableEq

/-- The standard library chooses the text of its exception. -/
def DispatchException.what : DispatchException → Option String
  | .noCandidates => some "Autotuner error: No candidate kernels provided."
  | .outOfRange _ => none

abbrev Candidates (σ : Type*) := FiniteMap String (σ → σ)

structure KernelDispatcher where
  cache : FiniteMap KernelKey String

def WARMUP_RUNS : ℕ := 3

def BENCHMARK_RUNS : ℕ := 10

/-- The locals of `autotune_candidates`, and the memory of the device. -/
structure Autotuning (σ : Type*) where
  device : σ
  bestCandidate : String
  bestLatencyMs : ℚ

namespace KernelDispatcher
variable {σ : Type*}

/-- `totalMs` is what the events measure for the benchmark runs of a candidate. -/
def avgMs (fl : Rounding) (totalMs : String → ℚ) (name : String) : ℚ :=
  fl.round (totalMs name / BENCHMARK_RUNS)

def benchmark (fl : Rounding) (totalMs : String → ℚ) (acc : Autotuning σ) (name : String)
    (func : σ → σ) : Autotuning σ :=
  let device := func^[BENCHMARK_RUNS] (func^[WARMUP_RUNS] acc.device)
  if avgMs fl totalMs name < acc.bestLatencyMs then ⟨device, name, avgMs fl totalMs name⟩
  else { acc with device := device }

/-- The best candidate starts as the empty name, with `1e9f`. -/
def autotuneCandidates (fl : Rounding) (totalMs : String → ℚ) (candidates : Candidates σ)
    (device : σ) : Except DispatchException String × σ :=
  if candidates.entries.isEmpty then (.error .noCandidates, device)
  else
    let acc := candidates.entries.foldl (fun acc e => benchmark fl totalMs acc e.1 e.2)
      ⟨device, "", 10 ^ 9⟩
    (.ok acc.bestCandidate, acc.device)

/-- `candidates.at(winner_name)(stream)` -/
def launch (candidates : Candidates σ) (winnerName : String) (device : σ) :
    Except DispatchException Unit × σ :=
  match candidates.lookup winnerName with
  | none => (.error (.outOfRange winnerName), device)
  | some func => (.ok (), func device)

/-- The winner in the cache, or the empty name. -/
def cachedWinner (d : KernelDispatcher) (key : KernelKey) : String :=
  (d.cache.lookup key).getD ""

def dispatchOrAutotune (fl : Rounding) (totalMs : String → ℚ) (d : KernelDispatcher)
    (key : KernelKey) (candidates : Candidates σ) (device : σ) :
    Except DispatchException Unit × KernelDispatcher × σ :=
  if d.cachedWinner key = "" then
    match autotuneCandidates fl totalMs candidates device with
    | (.error exception, device) => (.error exception, d, device)
    | (.ok winnerName, device) =>
      let r := launch candidates winnerName device
      (r.1, ⟨d.cache.insert key winnerName⟩, r.2)
  else
    let r := launch candidates (d.cachedWinner key) device
    (r.1, d, r.2)

def clearCache (_ : KernelDispatcher) : KernelDispatcher := ⟨∅⟩

end KernelDispatcher
end CudaForge.Autotuner
