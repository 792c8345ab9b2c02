import CudaForge.Autotuner.KernelDispatcher
import CudaForge.Library.Transition

/-!
The dispatcher under any number of threads. A call holds the cache mutex for its lookup and again to
store a winner; in between it benchmarks its candidates without it, launch by launch.
-/
namespace CudaForge.Autotuner
open FiniteMap Transition

abbrev ThreadId := ℕ

inductive DispatchCall (σ : Type*) where
  /-- `runs` launches of the head of `rest` are behind; `measured` is what the finished candidates
  have taken. -/
  | tuning (key : KernelKey) (candidates : Candidates σ)
      (rest : List (Sigma fun _ : String => σ → σ)) (runs : ℕ) (bestCandidate : String)
      (bestLatencyMs : ℚ) (measured : List (String × ℚ))
  | launching (key : KernelKey) (candidates : Candidates σ) (winnerName : String)

def DispatchCall.tunes {σ : Type*} (key : KernelKey) : DispatchCall σ → ℕ
  | .tuning key' _ _ _ _ _ _ => if key' = key then 1 else 0
  | .launching _ _ _ => 0

structure Election where
  key : KernelKey
  measured : List (String × ℚ)
  winnerName : String

structure Dispatched (σ : Type*) where
  key : KernelKey
  candidates : Candidates σ
  winnerName : String
  result : Except DispatchException Unit

/-- The dispatcher, the device, the calls in flight, and what has happened: the elections, the keys
of the calls that began to benchmark, the calls that ended and the number of clears. -/
structure DispatchSystem (σ : Type*) where
  dispatcher : KernelDispatcher
  device : σ
  calls : FiniteMap ThreadId (DispatchCall σ)
  elections : List Election
  tunings : List KernelKey
  dispatched : List (Dispatched σ)
  clears : ℕ

inductive DispatchAction (σ : Type*) where
  | lookup (t : ThreadId) (key : KernelKey) (candidates : Candidates σ)
  | run (t : ThreadId)
  | measure (t : ThreadId) (totalMs : ℚ)
  | store (t : ThreadId)
  | launch (t : ThreadId)
  | clearCache (t : ThreadId)

namespace DispatchSystem
open KernelDispatcher
variable {σ : Type*}

def init (device : σ) : DispatchSystem σ := ⟨⟨∅⟩, device, ∅, [], [], [], 0⟩

/-- One critical section, one launch of a benchmark, the reading of its events, or the last
launch. -/
def step (fl : Rounding) (s : DispatchSystem σ) : DispatchAction σ → Option (DispatchSystem σ)
  | .lookup t key candidates =>
    if t ∈ s.calls then none
    else if s.dispatcher.cachedWinner key = "" then
      if candidates.entries.isEmpty then
        some { s with
          dispatched := s.dispatched ++ [⟨key, candidates, "", .error .noCandidates⟩] }
      else
        some { s with
          calls := s.calls.insert t (.tuning key candidates candidates.entries 0 "" (10 ^ 9) [])
          tunings := s.tunings ++ [key] }
    else
      some { s with
        calls := s.calls.insert t (.launching key candidates (s.dispatcher.cachedWinner key)) }
  | .run t =>
    match s.calls.lookup t with
    | some (.tuning key candidates (e :: rest) runs bestCandidate bestLatencyMs measured) =>
      if runs < WARMUP_RUNS + BENCHMARK_RUNS then
        some { s with
          device := e.2 s.device
          calls := s.calls.insert t (.tuning key candidates (e :: rest) (runs + 1) bestCandidate
            bestLatencyMs measured) }
      else none
    | _ => none
  | .measure t totalMs =>
    match s.calls.lookup t with
    | some (.tuning key candidates (e :: rest) runs bestCandidate bestLatencyMs measured) =>
      if runs = WARMUP_RUNS + BENCHMARK_RUNS then
        let avgMs := fl.round (totalMs / BENCHMARK_RUNS)
        some { s with
          calls := s.calls.insert t (.tuning key candidates rest 0
            (if avgMs < bestLatencyMs then e.1 else bestCandidate)
            (if avgMs < bestLatencyMs then avgMs else bestLatencyMs)
            (measured ++ [(e.1, avgMs)])) }
      else none
    | _ => none
  | .store t =>
    match s.calls.lookup t with
    | some (.tuning key candidates [] _ bestCandidate _ measured) =>
      some { s with
        dispatcher := ⟨s.dispatcher.cache.insert key bestCandidate⟩
        calls := s.calls.insert t (.launching key candidates bestCandidate)
        elections := s.elections ++ [⟨key, measured, bestCandidate⟩] }
    | _ => none
  | .launch t =>
    match s.calls.lookup t with
    | some (.launching key candidates winnerName) =>
      let r := KernelDispatcher.launch candidates winnerName s.device
      some { s with
        device := r.2
        calls := s.calls.erase t
        dispatched := s.dispatched ++ [⟨key, candidates, winnerName, r.1⟩] }
    | _ => none
  | .clearCache t =>
    if t ∈ s.calls then none
    else some { s with dispatcher := s.dispatcher.clearCache, clears := s.clears + 1 }

section Invariant
variable {fl : Rounding} {offered : KernelKey → Finset String} {threads : Finset ThreadId}
  {s s' : DispatchSystem σ}

def Offers (offered : KernelKey → Finset String) (key : KernelKey) (candidates : Candidates σ) :
    Prop :=
  (∀ name, name ∈ candidates ↔ name ∈ offered key) ∧ "" ∉ offered key

/-- Calls with one key offer the same names, of which there is one; none is empty and none takes
`1e9` ms. -/
def Regular (fl : Rounding) (offered : KernelKey → Finset String) (threads : Finset ThreadId) :
    DispatchAction σ → Prop
  | .lookup t key candidates =>
    t ∈ threads ∧ Offers offered key candidates ∧ (offered key).Nonempty
  | .measure _ totalMs => fl.round (totalMs / BENCHMARK_RUNS) < 10 ^ 9
  | _ => True

/-- Nothing is measured yet, or the best candidate is the fastest of those that are. -/
def Leads (bestCandidate : String) (bestLatencyMs : ℚ) (measured : List (String × ℚ)) : Prop :=
  measured = [] ∧ bestLatencyMs = 10 ^ 9 ∨
    (bestCandidate, bestLatencyMs) ∈ measured ∧ ∀ m ∈ measured, bestLatencyMs ≤ m.2

/-- The tuning measured all names of the key, and its winner was the fastest of them. -/
def Election.Fair (offered : KernelKey → Finset String) (e : Election) : Prop :=
  (∀ name, name ∈ e.measured.map Prod.fst ↔ name ∈ offered e.key) ∧
    ∃ ms, (e.winnerName, ms) ∈ e.measured ∧ ∀ m ∈ e.measured, ms ≤ m.2

def Elected (offered : KernelKey → Finset String) (elections : List Election) (key : KernelKey)
    (winnerName : String) : Prop :=
  ∃ e ∈ elections, e.key = key ∧ e.winnerName = winnerName ∧ Election.Fair offered e

theorem Elected.append {elections : List Election} {key : KernelKey} {winnerName : String}
    (h : Elected offered elections key winnerName) (later : List Election) :
    Elected offered (elections ++ later) key winnerName := by
  obtain ⟨e, he, h⟩ := h
  exact ⟨e, List.mem_append_left later he, h⟩

theorem Elected.mem_offered {elections : List Election} {key : KernelKey} {winnerName : String}
    (h : Elected offered elections key winnerName) : winnerName ∈ offered key := by
  obtain ⟨e, -, rfl, rfl, hnames, ms, hwinner, -⟩ := h
  exact (hnames _).mp (List.mem_map_of_mem hwinner)

theorem Leads.measure {bestCandidate name : String} {bestLatencyMs ms : ℚ}
    {measured : List (String × ℚ)} (h : Leads bestCandidate bestLatencyMs measured)
    (hms : ms < 10 ^ 9) :
    Leads (if ms < bestLatencyMs then name else bestCandidate)
      (if ms < bestLatencyMs then ms else bestLatencyMs) (measured ++ [(name, ms)]) := by
  right
  rcases h with ⟨rfl, rfl⟩ | ⟨hmem, hleast⟩
  · simp [hms]
  · split_ifs with hlt
    · refine ⟨by simp, fun m hm => ?_⟩
      rcases List.mem_append.mp hm with hm | hm
      · exact hlt.le.trans (hleast m hm)
      · rw [List.mem_singleton.mp hm]
    · refine ⟨List.mem_append_left _ hmem, fun m hm => ?_⟩
      rcases List.mem_append.mp hm with hm | hm
      · exact hleast m hm
      · rw [List.mem_singleton.mp hm]
        exact not_lt.mp hlt

def CallInv (offered : KernelKey → Finset String) (elections : List Election) :
    DispatchCall σ → Prop
  | .tuning key candidates rest runs bestCandidate bestLatencyMs measured =>
    Offers offered key candidates ∧ (offered key).Nonempty ∧
      runs ≤ WARMUP_RUNS + BENCHMARK_RUNS ∧ Leads bestCandidate bestLatencyMs measured ∧
        ∀ name, name ∈ measured.map Prod.fst ∨ name ∈ rest.map Sigma.fst ↔ name ∈ offered key
  | .launching key candidates winnerName =>
    Offers offered key candidates ∧ Elected offered elections key winnerName

theorem CallInv.append {elections : List Election} {call : DispatchCall σ}
    (h : CallInv offered elections call) (later : List Election) :
    CallInv offered (elections ++ later) call := by
  cases call with
  | tuning key candidates rest runs bestCandidate bestLatencyMs measured => exact h
  | launching key candidates winnerName => exact ⟨h.1, h.2.append later⟩

def inFlight (s : DispatchSystem σ) (key : KernelKey) : ℕ :=
  total (fun _ call => call.tunes key) s.calls

structure Inv (offered : KernelKey → Finset String) (threads : Finset ThreadId)
    (s : DispatchSystem σ) : Prop where
  cached : ∀ key, s.dispatcher.cachedWinner key ≠ "" →
    Elected offered s.elections key (s.dispatcher.cachedWinner key)
  callers : ∀ t ∈ s.calls, t ∈ threads
  calls : ∀ t call, s.calls.lookup t = some call → CallInv offered s.elections call
  dispatched : ∀ d ∈ s.dispatched, d.result = .ok () ∧ d.winnerName ∈ d.candidates ∧
    Elected offered s.elections d.key d.winnerName
  tunings : ∀ key, s.tunings.count key ≤ threads.card * s.clears +
    if s.dispatcher.cachedWinner key = "" then s.inFlight key else threads.card

theorem init_inv (device : σ) : (init device).Inv offered threads where
  cached key hkey := absurd rfl hkey
  callers t ht := absurd ht (AList.notMem_empty t)
  calls t call hcall := by simp [init] at hcall
  dispatched d hd := absurd hd List.not_mem_nil
  tunings key := Nat.zero_le _

theorem Inv.inFlight_le (h : s.Inv offered threads) (key : KernelKey) :
    s.inFlight key ≤ threads.card := by
  apply total_le_card _ h.callers
  intro t call
  cases call with
  | tuning key' =>
    show (if key' = key then 1 else 0) ≤ 1
    split_ifs <;> decide
  | launching => exact Nat.zero_le 1

/-- A call that goes on tuning the same key counts as before. -/
theorem inFlight_insert {t : ThreadId} {call call' : DispatchCall σ} {key : KernelKey}
    (hcall : s.calls.lookup t = some call) (hsame : call'.tunes key = call.tunes key) :
    total (fun _ call => call.tunes key) (s.calls.insert t call') = s.inFlight key := by
  have hinsert := total_insert_of_lookup (f := fun _ (call : DispatchCall σ) => call.tunes key)
    hcall call'
  unfold inFlight
  omega

theorem calls_insert {t : ThreadId} {call' : DispatchCall σ} {elections : List Election}
    (h : ∀ t call, s.calls.lookup t = some call → CallInv offered elections call)
    (hcall' : CallInv offered elections call') (t' : ThreadId) (call : DispatchCall σ)
    (hcall : (s.calls.insert t call').lookup t' = some call) : CallInv offered elections call := by
  rw [lookup_insert_ite] at hcall
  split_ifs at hcall
  · exact Option.some.inj hcall ▸ hcall'
  · exact h t' call hcall

theorem threads_insert {t : ThreadId} {call' : DispatchCall σ} (h : ∀ t ∈ s.calls, t ∈ threads)
    (ht : t ∈ threads) : ∀ t' ∈ s.calls.insert t call', t' ∈ threads := by
  intro t' ht'
  rcases (AList.mem_insert _).mp ht' with rfl | ht'
  · exact ht
  · exact h t' ht'

theorem step_lookup {t : ThreadId} {key : KernelKey} {candidates : Candidates σ}
    (h : s.Inv offered threads)
    (hregular : Regular fl offered threads (.lookup t key candidates))
    (hs : step fl s (.lookup t key candidates) = some s') : s'.Inv offered threads := by
  obtain ⟨ht, hoffers, hnonempty⟩ := hregular
  simp only [step] at hs
  split_ifs at hs with hcall hcold hempty
  · obtain ⟨name, hname⟩ := hnonempty
    have hmem := (hoffers.1 name).mpr hname
    rw [AList.mem_keys, AList.keys, List.isEmpty_iff.mp hempty] at hmem
    cases hmem
  · obtain rfl := Option.some.inj hs
    refine ⟨h.cached, threads_insert h.callers ht, calls_insert h.calls ?_, h.dispatched, ?_⟩
    · refine ⟨hoffers, hnonempty, Nat.zero_le _, Or.inl ⟨rfl, rfl⟩, fun name => ?_⟩
      rw [← hoffers.1 name, AList.mem_keys, AList.keys, List.keys]
      simp
    · intro key'
      have hbound := h.tunings key'
      have hinsert := total_insert_of_notMem
        (f := fun _ (call : DispatchCall σ) => call.tunes key')
        (v := .tuning key candidates candidates.entries 0 "" (10 ^ 9) []) hcall
      simp only [inFlight, DispatchCall.tunes] at hbound hinsert ⊢
      rw [List.count_append, List.count_singleton, hinsert]
      by_cases hkey : key = key'
      · subst hkey
        simp only [hcold, if_true, beq_self_eq_true] at hbound ⊢
        omega
      · simp only [hkey, if_false, beq_iff_eq, Nat.zero_add, Nat.add_zero]
        exact hbound
  · obtain rfl := Option.some.inj hs
    refine ⟨h.cached, threads_insert h.callers ht,
      calls_insert h.calls ⟨hoffers, h.cached key hcold⟩, h.dispatched, fun key' => ?_⟩
    have hbound := h.tunings key'
    have hinsert := total_insert_of_notMem
      (f := fun _ (call : DispatchCall σ) => call.tunes key')
      (v := .launching key candidates (s.dispatcher.cachedWinner key)) hcall
    simp only [inFlight, DispatchCall.tunes, Nat.zero_add] at hbound hinsert ⊢
    rw [hinsert]
    exact hbound

/-- The other steps of a tuning leave all but its own call as it is. -/
theorem Inv.tune (h : s.Inv offered threads) {t : ThreadId} {call call' : DispatchCall σ}
    (hcall : s.calls.lookup t = some call) (hcall' : CallInv offered s.elections call')
    (hsame : ∀ key, call'.tunes key = call.tunes key) (device : σ) :
    Inv offered threads { s with device := device, calls := s.calls.insert t call' } where
  cached := h.cached
  callers := threads_insert h.callers (h.callers t (mem_of_lookup hcall))
  calls := calls_insert h.calls hcall'
  dispatched := h.dispatched
  tunings key := by
    have hbound := h.tunings key
    have heq := inFlight_insert hcall (hsame key)
    unfold inFlight at hbound ⊢
    rw [heq]
    exact hbound

theorem step_run {t : ThreadId} (h : s.Inv offered threads)
    (hs : step fl s (.run t) = some s') : s'.Inv offered threads := by
  simp only [step] at hs
  split at hs
  · rename_i key candidates e rest runs bestCandidate bestLatencyMs measured hcall
    split_ifs at hs with hruns
    obtain rfl := Option.some.inj hs
    obtain ⟨hoffers, hnonempty, -, hleads, hnames⟩ := h.calls t _ hcall
    have hcall' : CallInv offered s.elections (.tuning key candidates (e :: rest) (runs + 1)
        bestCandidate bestLatencyMs measured) :=
      ⟨hoffers, hnonempty, hruns, hleads, hnames⟩
    exact h.tune hcall hcall' (fun _ => rfl) _
  · cases hs

theorem step_measure {t : ThreadId} {totalMs : ℚ} (h : s.Inv offered threads)
    (hregular : Regular fl offered threads (.measure t totalMs : DispatchAction σ))
    (hs : step fl s (.measure t totalMs) = some s') : s'.Inv offered threads := by
  simp only [step] at hs
  split at hs
  · rename_i key candidates e rest runs bestCandidate bestLatencyMs measured hcall
    by_cases hruns : runs = WARMUP_RUNS + BENCHMARK_RUNS
    swap
    · rw [if_neg hruns] at hs
      cases hs
    rw [if_pos hruns] at hs
    obtain rfl := Option.some.inj hs
    obtain ⟨hoffers, hnonempty, -, hleads, hnames⟩ := h.calls t _ hcall
    simp only [Regular] at hregular
    generalize fl.round (totalMs / BENCHMARK_RUNS) = avgMs at hregular ⊢
    have hrest : ∀ name, name ∈ (measured ++ [(e.1, avgMs)]).map Prod.fst ∨
        name ∈ rest.map Sigma.fst ↔ name ∈ offered key := by
      intro name
      rw [← hnames name, List.map_append, List.mem_append, or_assoc]
      simp
    have hcall' : CallInv offered s.elections (.tuning key candidates rest 0
        (if avgMs < bestLatencyMs then e.1 else bestCandidate)
        (if avgMs < bestLatencyMs then avgMs else bestLatencyMs) (measured ++ [(e.1, avgMs)])) :=
      ⟨hoffers, hnonempty, Nat.zero_le _, hleads.measure hregular, hrest⟩
    exact h.tune hcall hcall' (fun _ => rfl) _
  · cases hs

theorem cachedWinner_insert (d : KernelDispatcher) (key key' : KernelKey) (winnerName : String) :
    cachedWinner ⟨d.cache.insert key winnerName⟩ key' =
      if key' = key then winnerName else d.cachedWinner key' := by
  unfold cachedWinner
  rw [lookup_insert_ite]
  split_ifs <;> rfl

theorem step_store {t : ThreadId} (h : s.Inv offered threads)
    (hs : step fl s (.store t) = some s') : s'.Inv offered threads := by
  simp only [step] at hs
  split at hs
  · rename_i key candidates runs bestCandidate bestLatencyMs measured hcall
    obtain rfl := Option.some.inj hs
    obtain ⟨hoffers, ⟨first, hfirst⟩, -, hleads, hnames⟩ := h.calls t _ hcall
    have hmeasured : ∀ name, name ∈ measured.map Prod.fst ↔ name ∈ offered key := by
      simpa using hnames
    -- all names are measured, so there is a best one
    have hwon : (bestCandidate, bestLatencyMs) ∈ measured ∧
        ∀ m ∈ measured, bestLatencyMs ≤ m.2 := by
      rcases hleads with ⟨rfl, -⟩ | hwon
      · cases (hmeasured first).mpr hfirst
      · exact hwon
    have helected : Elected offered (s.elections ++ [⟨key, measured, bestCandidate⟩]) key
        bestCandidate :=
      ⟨_, List.mem_append_right _ (List.mem_singleton_self _), rfl, rfl, hmeasured,
        bestLatencyMs, hwon⟩
    have hne : bestCandidate ≠ "" := fun heq => hoffers.2 (heq ▸ helected.mem_offered)
    refine ⟨fun key' hkey' => ?_, threads_insert h.callers (h.callers t (mem_of_lookup hcall)),
      calls_insert (fun t' call' h' => (h.calls t' call' h').append _) ⟨hoffers, helected⟩,
      fun d hd => ?_, fun key' => ?_⟩
    · simp only [cachedWinner_insert] at hkey' ⊢
      split_ifs at hkey' ⊢ with heq
      · exact heq ▸ helected
      · exact (h.cached key' hkey').append _
    · obtain ⟨hresult, hmem, hd⟩ := h.dispatched d hd
      exact ⟨hresult, hmem, hd.append _⟩
    · have hbound := h.tunings key'
      simp only [cachedWinner_insert]
      by_cases heq : key' = key
      · have hle := h.inFlight_le key'
        rw [if_pos heq, if_neg hne]
        split_ifs at hbound <;> omega
      · have hsame := inFlight_insert hcall
          (show (DispatchCall.launching key candidates bestCandidate).tunes key' = _ by
            simp [DispatchCall.tunes, Ne.symm heq])
        rw [if_neg heq]
        unfold inFlight at hbound ⊢
        rw [hsame]
        exact hbound
  · cases hs

theorem step_launch {t : ThreadId} (h : s.Inv offered threads)
    (hs : step fl s (.launch t) = some s') : s'.Inv offered threads := by
  simp only [step] at hs
  split at hs
  · rename_i key candidates winnerName hcall
    obtain rfl := Option.some.inj hs
    obtain ⟨hoffers, helected⟩ := h.calls t _ hcall
    have hmem : winnerName ∈ candidates := (hoffers.1 winnerName).mpr helected.mem_offered
    refine ⟨h.cached, fun t' ht' => h.callers t' (AList.mem_erase.mp ht').2, ?_, ?_,
      fun key' => ?_⟩
    · intro t' call' hcall'
      rw [lookup_erase_ite] at hcall'
      split_ifs at hcall'
      exact h.calls t' call' hcall'
    · intro d hd
      rcases List.mem_append.mp hd with hd | hd
      · exact h.dispatched d hd
      · obtain rfl := List.mem_singleton.mp hd
        refine ⟨?_, hmem, helected⟩
        obtain ⟨func, hfunc⟩ := Option.isSome_iff_exists.mp (AList.lookup_isSome.mpr hmem)
        simp only [KernelDispatcher.launch, hfunc]
    · have hbound := h.tunings key'
      have herase := total_erase (f := fun _ (call : DispatchCall σ) => call.tunes key') hcall
      simp only [inFlight, DispatchCall.tunes, Nat.zero_add] at hbound herase ⊢
      rw [herase]
      exact hbound
  · cases hs

theorem step_clearCache {t : ThreadId} (h : s.Inv offered threads)
    (hs : step fl s (.clearCache t) = some s') : s'.Inv offered threads := by
  simp only [step] at hs
  split_ifs at hs
  obtain rfl := Option.some.inj hs
  refine ⟨fun key hkey => absurd rfl hkey, h.callers, h.calls, h.dispatched, fun key => ?_⟩
  have hbound := h.tunings key
  have hle := h.inFlight_le key
  have hempty : (s.dispatcher.clearCache).cachedWinner key = "" := rfl
  simp only [hempty, if_true, inFlight] at hbound hle ⊢
  rw [Nat.mul_add_one]
  split_ifs at hbound <;> omega

theorem step_inv {action : DispatchAction σ} (h : s.Inv offered threads)
    (hregular : Regular fl offered threads action) (hs : step fl s action = some s') :
    s'.Inv offered threads := by
  cases action with
  | lookup t key candidates => exact step_lookup h hregular hs
  | run t => exact step_run h hs
  | measure t totalMs => exact step_measure h hregular hs
  | store t => exact step_store h hs
  | launch t => exact step_launch h hs
  | clearCache t => exact step_clearCache h hs

/-- A call in flight can always take its next step. -/
theorem Inv.enabled (h : s.Inv offered threads) {t : ThreadId} (ht : t ∈ s.calls) :
    (∃ totalMs, (step fl s (.measure t totalMs)).isSome) ∨ (step fl s (.run t)).isSome ∨
      (step fl s (.store t)).isSome ∨ (step fl s (.launch t)).isSome := by
  obtain ⟨call, hcall⟩ := Option.isSome_iff_exists.mp (AList.lookup_isSome.mpr ht)
  cases call with
  | launching key candidates winnerName => simp [step, hcall]
  | tuning key candidates rest runs bestCandidate bestLatencyMs measured =>
    cases rest with
    | nil => simp [step, hcall]
    | cons e rest =>
      obtain ⟨-, -, hruns, -⟩ := h.calls t _ hcall
      rcases hruns.lt_or_eq with hlt | heq
      · simp [step, hcall, hlt]
      · simp [step, hcall, heq]

/-- However the calls interleave, none throws, each launches the fastest of its candidates by some
tuning of its key, a key is tuned at most once by each thread between two clears, and no call ever
waits for another. -/
theorem dispatches_fastest {device : σ} {actions : List (DispatchAction σ)}
    (hregular : ∀ action ∈ actions, Regular fl offered threads action)
    (he : exec (step fl) (init device) actions = some s) :
    (∀ d ∈ s.dispatched, d.result = .ok () ∧ d.winnerName ∈ d.candidates ∧
      Elected offered s.elections d.key d.winnerName) ∧
    (∀ key, s.tunings.count key ≤ threads.card * (s.clears + 1)) ∧
    ∀ t ∈ s.calls, (∃ totalMs, (step fl s (.measure t totalMs)).isSome) ∨
      (step fl s (.run t)).isSome ∨ (step fl s (.store t)).isSome ∨
        (step fl s (.launch t)).isSome := by
  have h : s.Inv offered threads :=
    exec_invariant (fun _ _ _ h hregular hs => step_inv h hregular hs) (init_inv device)
      (allSteps_of_forall (fun action haction _ => hregular action haction) _) he
  refine ⟨h.dispatched, fun key => ?_, fun t ht => h.enabled ht⟩
  have hbound := h.tunings key
  have hle := h.inFlight_le key
  rw [Nat.mul_add_one]
  split_ifs at hbound <;> omega

end Invariant

def gemmVariants : Candidates ℕ := AList.insert "row" (· + 1) (AList.insert "tiled" (· + 1) ∅)

/-- Two threads that both find the cache cold and tune one key with different outcomes. -/
def racing : List (DispatchAction ℕ) :=
  let key : KernelKey := ⟨"gemm", 1, 1, 1, 0⟩
  let tune (t : ThreadId) (first second : ℚ) : List (DispatchAction ℕ) :=
    List.replicate 13 (.run t) ++ .measure t first :: List.replicate 13 (.run t) ++
      [.measure t second, .store t]
  [.lookup 0 key gemmVariants, .lookup 1 key gemmVariants] ++ tune 1 1 2 ++ tune 0 2 1 ++
    [.launch 1, .launch 0]

theorem racing_regular :
    ∀ action ∈ racing, Regular Rounding.exact (fun _ => {"row", "tiled"}) {0, 1} action := by
  have hnames : Offers (fun _ => {"row", "tiled"}) ⟨"gemm", 1, 1, 1, 0⟩ gemmVariants :=
    ⟨fun name => by simp only [gemmVariants, AList.mem_insert, AList.notMem_empty, or_false,
      Finset.mem_insert, Finset.mem_singleton], by decide⟩
  simp only [racing, List.forall_mem_append, List.forall_mem_cons, List.mem_replicate, Regular,
    Rounding.exact, BENCHMARK_RUNS]
  norm_num [hnames]

theorem dispatches_fastest_racing :
    ∃ s, exec (step Rounding.exact) (init 0) racing = some s ∧
      s.dispatched.map (fun d => d.winnerName) = ["row", "tiled"] ∧
      (∀ key, s.tunings.count key ≤ 2) ∧ ∀ d ∈ s.dispatched, d.result = .ok () := by
  refine exec_exists (P := fun s => s.clears = 0 ∧
    s.dispatched.map (fun d => d.winnerName) = ["row", "tiled"]) (by decide +kernel) ?_
  rintro s hs ⟨hclears, hwinners⟩
  obtain ⟨hdispatched, htunings, -⟩ := dispatches_fastest racing_regular hs
  refine ⟨hwinners, fun key => ?_, fun d hd => (hdispatched d hd).1⟩
  have htunings := htunings key
  rwa [hclears] at htunings

end DispatchSystem
end CudaForge.Autotuner
