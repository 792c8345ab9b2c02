import CudaForge.Scheduler.Progress

/-!
Which waiting requests a `schedule_step` admits. The queue gives them out by rank, and the first one
that does not fit ends the admission, so that the admitted ones are a prefix of the ranking.
-/
namespace CudaForge.Scheduler
open PriorityQueue

namespace BatcherState
variable {Q : Type} [PriorityQueue Q RequestRef] {s : BatcherState Q}

section AdmitLoop

def unfinished (requests : Requests) (m : Multiset RequestRef) : Multiset RequestRef :=
  m.filter fun r => (requests r).state ≠ .finished

/-- These requests fit both limits besides what runs and is allocated already. -/
def Fits (maxNumSeqs maxNumBatchedTokens running allocatedTokens : ℕ) (requests : Requests)
    (l : List RequestRef) : Prop :=
  running + l.length ≤ maxNumSeqs ∧
    allocatedTokens + promptLengths requests l ≤ maxNumBatchedTokens

/-- The first `n` of the ranking are the longest prefix that fits. -/
structure LongestFit (maxNumSeqs maxNumBatchedTokens running allocatedTokens : ℕ)
    (requests : Requests) (order : List RequestRef) (n : ℕ) : Prop where
  le_length : n ≤ order.length
  fits : ∀ m ≤ n,
    Fits maxNumSeqs maxNumBatchedTokens running allocatedTokens requests (order.take m)
  maximal : n < order.length →
    ¬Fits maxNumSeqs maxNumBatchedTokens running allocatedTokens requests (order.take (n + 1))

variable {maxNumSeqs maxNumBatchedTokens running allocatedTokens : ℕ} {requests : Requests}
  {order : List RequestRef} {n : ℕ}

/-- The next of the ranking takes its place and its tokens. -/
theorem fits_cons {r : RequestRef} {l : List RequestRef} :
    Fits maxNumSeqs maxNumBatchedTokens running allocatedTokens requests (r :: l) ↔
      Fits maxNumSeqs maxNumBatchedTokens (running + 1)
        (allocatedTokens + (requests r).promptTokens.length) requests l := by
  simp only [Fits, promptLengths, List.length_cons, List.map_cons, List.sum_cons]
  constructor <;> rintro ⟨hseqs, htokens⟩ <;> constructor <;> omega

/-- Nothing is taken when the first of the ranking does not fit. -/
theorem longestFit_zero
    (hstart : Fits maxNumSeqs maxNumBatchedTokens running allocatedTokens requests [])
    (hfirst : ∀ r rest, order = r :: rest →
      ¬Fits maxNumSeqs maxNumBatchedTokens running allocatedTokens requests [r]) :
    LongestFit maxNumSeqs maxNumBatchedTokens running allocatedTokens requests order 0 where
  le_length := Nat.zero_le _
  fits m hm := by
    rw [Nat.le_zero.mp hm, List.take_zero]
    exact hstart
  maximal hlt := by
    cases order with
    | nil => exact absurd hlt (Nat.lt_irrefl 0)
    | cons r rest => exact hfirst r rest rfl

theorem LongestFit.cons {r : RequestRef}
    (hstart : Fits maxNumSeqs maxNumBatchedTokens running allocatedTokens requests [])
    (h : LongestFit maxNumSeqs maxNumBatchedTokens (running + 1)
      (allocatedTokens + (requests r).promptTokens.length) requests order n) :
    LongestFit maxNumSeqs maxNumBatchedTokens running allocatedTokens requests (r :: order)
      (n + 1) where
  le_length := Nat.succ_le_succ h.le_length
  fits m hm := by
    cases m with
    | zero => exact hstart
    | succ m =>
      rw [List.take_succ_cons, fits_cons]
      exact h.fits m (Nat.le_of_succ_le_succ hm)
  maximal hlt := by
    rw [List.take_succ_cons, fits_cons]
    exact h.maximal (Nat.lt_of_succ_lt_succ hlt)

theorem LongestFit.congr {requests' : Requests}
    (hprompt : ∀ r, (requests' r).promptTokens = (requests r).promptTokens)
    (h : LongestFit maxNumSeqs maxNumBatchedTokens running allocatedTokens requests' order n) :
    LongestFit maxNumSeqs maxNumBatchedTokens running allocatedTokens requests order n := by
  have hlengths : ∀ l, promptLengths requests' l = promptLengths requests l := by
    intro l
    simp only [promptLengths, hprompt]
  obtain ⟨hle, hfits, hmax⟩ := h
  simp only [Fits, hlengths] at hfits hmax
  exact ⟨hle, hfits, hmax⟩

/-- What the admission loop took from a ranking of the unfinished entries, and what it left. -/
structure TookPrefix (maxNumSeqs maxNumBatchedTokens : ℕ) (acc acc' : Admission Q)
    (order : List RequestRef) (n : ℕ) : Prop where
  ranking : (order : Multiset RequestRef) = unfinished acc.requests (items acc.waitingQueue)
  sorted : order.Pairwise fun a b => acc.requests.comparator a b = false
  longest : LongestFit maxNumSeqs maxNumBatchedTokens acc.runningRequests.length
    acc.allocatedTokens acc.requests order n
  prefill : acc'.prefillRequests = acc.prefillRequests ++ order.take n
  left : unfinished acc.requests (acc'.deferredWaiting + items acc'.waitingQueue) =
    ((order.drop n : List RequestRef) : Multiset RequestRef)

theorem unfinished_cons_of_finished {r : RequestRef} {m : Multiset RequestRef}
    (h : (requests r).state = .finished) : unfinished requests (r ::ₘ m) = unfinished requests m :=
  Multiset.filter_cons_of_neg _ (not_not_intro h)

theorem unfinished_cons {r : RequestRef} {m : Multiset RequestRef}
    (h : (requests r).state ≠ .finished) :
    unfinished requests (r ::ₘ m) = r ::ₘ unfinished requests m :=
  Multiset.filter_cons_of_pos _ h

/-- Unfinished requests that are started stay unfinished. -/
theorem unfinished_markAll_running {l : List RequestRef}
    (h : ∀ r ∈ l, (requests r).state ≠ .finished) (m : Multiset RequestRef) :
    unfinished (requests.markAll l .running) m = unfinished requests m := by
  apply Multiset.filter_congr
  intro q _
  rw [Requests.markAll_state]
  split_ifs with hq
  · exact iff_of_true (by decide) (h q hq)
  · exact Iff.rfl

/-- The loop stops at once. -/
theorem tookPrefix_stop {acc : Admission Q}
    (hstart : Fits maxNumSeqs maxNumBatchedTokens acc.runningRequests.length acc.allocatedTokens
      acc.requests [])
    (hdeferred : acc.deferredWaiting = [])
    (hstop : items acc.waitingQueue = 0 ∨ maxNumSeqs ≤ acc.runningRequests.length) :
    ∃ order n, TookPrefix maxNumSeqs maxNumBatchedTokens acc acc order n := by
  obtain ⟨order, horder, hsorted⟩ := acc.requests.strictWeak_comparator.exists_sorted
    (unfinished acc.requests (items acc.waitingQueue))
  refine ⟨order, 0, horder, hsorted, longestFit_zero hstart ?_, (List.append_nil _).symm, ?_⟩
  · rintro r rest rfl ⟨hseqs, -⟩
    rcases hstop with hempty | hfull
    · rw [hempty] at horder
      exact absurd horder (by simp [unfinished])
    · rw [List.length_singleton] at hseqs
      omega
  · rw [hdeferred, Multiset.coe_nil, zero_add, List.drop_zero, horder]

theorem admitLoop_order (turns : ℕ) (acc : Admission Q)
    (hturns : Multiset.card (items acc.waitingQueue) ≤ turns)
    (hordered : Ordered acc.requests.comparator acc.waitingQueue)
    (hstart : Fits maxNumSeqs maxNumBatchedTokens acc.runningRequests.length acc.allocatedTokens
      acc.requests [])
    (hdeferred : acc.deferredWaiting = []) :
    ∃ order n, TookPrefix maxNumSeqs maxNumBatchedTokens acc
      (admitLoop maxNumSeqs maxNumBatchedTokens turns acc) order n := by
  induction turns generalizing acc with
  | zero =>
    have hempty : items acc.waitingQueue = 0 := Multiset.card_eq_zero.mp (Nat.le_zero.mp hturns)
    exact tookPrefix_stop hstart hdeferred (Or.inl hempty)
  | succ turns ih =>
    unfold admitLoop
    split_ifs with hroom
    · cases hpop : pop acc.requests.comparator acc.waitingQueue with
      | none => exact tookPrefix_stop hstart hdeferred (Or.inl (pop_none hpop))
      | some found =>
        obtain ⟨candidate, rest⟩ := found
        have hitems := pop_some hpop
        have hrest := ordered_pop hordered hpop
        have htop := pop_max acc.requests.strictWeak_comparator hordered hpop
        rw [hitems, Multiset.card_cons] at hturns
        simp only
        split_ifs with hfinished hfit
        · -- a cancelled entry is dropped
          obtain ⟨order, n, htook⟩ := ih { acc with waitingQueue := rest }
            (Nat.le_of_succ_le_succ hturns) hrest hstart hdeferred
          refine ⟨order, n, ?_, htook.sorted, htook.longest, htook.prefill, htook.left⟩
          rw [hitems, unfinished_cons_of_finished hfinished]
          exact htook.ranking
        · -- the top entry is admitted and heads the ranking of the others
          have hless : (acc.requests.markAll [candidate] .running).comparator =
              acc.requests.comparator := Requests.comparator_markAll _ _ _
          have hstarted := unfinished_markAll_running (List.forall_mem_singleton.mpr hfinished)
          rw [Requests.setState_eq_markAll]
          obtain ⟨order, n, htook⟩ := ih
            { acc with
              waitingQueue := rest
              requests := acc.requests.markAll [candidate] .running
              prefillRequests := acc.prefillRequests ++ [candidate]
              runningRequests := acc.runningRequests ++ [candidate]
              allocatedTokens :=
                acc.allocatedTokens + (acc.requests candidate).promptTokens.length }
            (Nat.le_of_succ_le_succ hturns) (hless ▸ hrest)
            ⟨by simpa using hroom, hfit⟩ hdeferred
          obtain ⟨hranking, hsorted, hlongest, hprefill, hleft⟩ := htook
          rw [hstarted] at hranking hleft
          rw [hless] at hsorted
          simp only [List.length_append, List.length_singleton] at hlongest
          have hlongest' := hlongest.congr
            (acc.requests.markAll_promptTokens · [candidate] .running)
          refine ⟨candidate :: order, n + 1, ?_, ?_, hlongest'.cons hstart, ?_, hleft⟩
          · rw [hitems, unfinished_cons hfinished, ← hranking, Multiset.cons_coe]
          · refine List.pairwise_cons.mpr ⟨fun b hb => htop b ?_, hsorted⟩
            have hmem : b ∈ (order : Multiset RequestRef) := hb
            rw [hranking] at hmem
            exact Multiset.mem_of_mem_filter hmem
          · rw [hprefill, List.take_succ_cons, List.append_assoc, List.singleton_append]
        · -- the top entry is deferred, whatever comes after it
          obtain ⟨order, horder, hsorted⟩ := acc.requests.strictWeak_comparator.exists_sorted
            (unfinished acc.requests (items rest))
          refine ⟨candidate :: order, 0, ?_, ?_, longestFit_zero hstart ?_,
            (List.append_nil _).symm, ?_⟩
          · rw [hitems, unfinished_cons hfinished, ← horder, Multiset.cons_coe]
          · refine List.pairwise_cons.mpr ⟨fun b hb => htop b ?_, hsorted⟩
            have hmem : b ∈ (order : Multiset RequestRef) := hb
            rw [horder] at hmem
            exact Multiset.mem_of_mem_filter hmem
          · rintro r rest' hcons ⟨-, htokens⟩
            obtain rfl := (List.cons.inj hcons).1
            simp only [promptLengths, List.map_singleton, List.sum_singleton] at htokens
            exact hfit htokens
          · rw [hdeferred, List.nil_append, Multiset.coe_singleton, Multiset.singleton_add,
              unfinished_cons hfinished, ← horder, Multiset.cons_coe, List.drop_zero]
    · exact tookPrefix_stop hstart hdeferred (Or.inr (Nat.not_lt.mp hroom))

end AdmitLoop

def RanksBefore (a b : Request) : Prop :=
  b.priority < a.priority ∨ b.priority = a.priority ∧ a.arrivalTime < b.arrivalTime

theorem comparator_iff {rs : Requests} {a b : RequestRef} :
    rs.comparator a b = true ↔ RanksBefore (rs b) (rs a) := by
  simp only [Requests.comparator, requestPriorityComparator, RanksBefore]
  grind

/-- No two waiting entries have the same priority and arrival time. -/
def DistinctRanks (s : BatcherState Q) : Prop :=
  ((items s.batcher.waitingQueue).map fun r =>
    ((s.requests r).priority, (s.requests r).arrivalTime)).Nodup

instance (s : BatcherState Q) : Decidable s.DistinctRanks :=
  inferInstanceAs (Decidable (Multiset.Nodup _))

/-- The prefill requests are the longest prefix of the ranking that fits, and the rest still waits.
Finished means finished after step 1. -/
structure AdmitsInOrder (s : BatcherState Q) (order : List RequestRef) (n : ℕ) : Prop where
  ranking : (order : Multiset RequestRef) =
    unfinished s.filteredRequests (items s.batcher.waitingQueue)
  sorted : order.Pairwise fun a b => ¬RanksBefore (s.requests b) (s.requests a)
  prefill : s.scheduleStep.1.prefillRequests = order.take n
  longest : LongestFit s.batcher.maxNumSeqs s.batcher.maxNumBatchedTokens
    s.scheduleStep.1.decodeRequests.length s.scheduleStep.1.decodeRequests.length s.requests order n
  left : unfinished s.scheduleStep.2.requests (items s.scheduleStep.2.batcher.waitingQueue) =
    ((order.drop n : List RequestRef) : Multiset RequestRef)

theorem Ranked.admitsInOrder (h : s.Ranked) : ∃ order n, s.AdmitsInOrder order n := by
  have htokens := s.filterRunning_length_le.trans h.budgeted.tokens_le
  have hseqs := s.filterRunning_length_le.trans h.budgeted.seqs_le
  have hless : s.filteredRequests.comparator = s.requests.comparator :=
    Requests.comparator_markAll _ _ _
  have hprompt : ∀ r, (s.filteredRequests r).promptTokens = (s.requests r).promptTokens :=
    (s.requests.markAll_promptTokens · s.dropped .finished)
  obtain ⟨skipped, hs⟩ := scheduleStep_spec h.budgeted.tokens_le
  obtain ⟨order, n, hranking, hsorted, hlongest, hprefill, hleft⟩ := admitLoop_order
    (Multiset.card (items s.batcher.waitingQueue))
    ⟨s.batcher.waitingQueue, s.filterRunning.batcher.runningRequests, s.filteredRequests, [], [],
      s.filterRunning.batcher.runningRequests.length⟩ le_rfl (hless ▸ h.ordered)
    (show Fits s.batcher.maxNumSeqs s.batcher.maxNumBatchedTokens _ _ _ [] from
      ⟨hseqs, htokens⟩) rfl
  have hdecode : s.scheduleStep.1.decodeRequests = s.filterRunning.batcher.runningRequests :=
    hs.decode_eq.trans s.filterRunning_running.symm
  refine ⟨order, n, hranking, ?_, ?_, ?_, ?_⟩
  · apply hsorted.imp
    intro a b hab
    rw [hless] at hab
    rw [← comparator_iff, hab]
    exact Bool.false_ne_true
  · simp only [BatcherState.scheduleStep, decodeLoop_filterRunning h.budgeted.tokens_le,
      Bool.false_eq_true, if_false, filterRunning_requests]
    exact hprefill.trans (List.nil_append _)
  · rw [hdecode]
    exact hlongest.congr hprompt
  · rw [hs.requests_eq, unfinished_markAll_running hs.prefill_unfinished, ← hleft]
    simp only [BatcherState.scheduleStep, decodeLoop_filterRunning h.budgeted.tokens_le,
      Bool.false_eq_true, if_false, filterRunning_requests, items_pushAll]
    rfl

/-- Without ties the ranking is strict. -/
theorem AdmitsInOrder.strict {order : List RequestRef} {n : ℕ} (h : s.AdmitsInOrder order n)
    (hdistinct : s.DistinctRanks) :
    order.Pairwise fun a b => RanksBefore (s.requests a) (s.requests b) := by
  have hsub : (order : Multiset RequestRef) ≤ items s.batcher.waitingQueue := by
    rw [h.ranking]
    exact Multiset.filter_le _ _
  have hkeys := Multiset.nodup_of_le (Multiset.map_le_map hsub) hdistinct
  rw [Multiset.map_coe, Multiset.coe_nodup, List.nodup_iff_pairwise_ne, List.pairwise_map] at hkeys
  apply (h.sorted.and hkeys).imp
  rintro a b ⟨hnot, hne⟩
  simp only [RanksBefore, ne_eq, Prod.mk.injEq] at hnot hne ⊢
  omega

/-- In every reachable state the admission follows the ranking exactly; without ties no request is
overtaken by one that ranks behind it. -/
theorem admission_in_order (maxNumSeqs maxNumBatchedTokens : ℕ) (objects : Requests)
    (hobjects : ∀ r, (objects r).state = .waiting) (actions : List BatcherAction) :
    let s : BatcherState Q := actions.foldl step (init maxNumSeqs maxNumBatchedTokens objects)
    s.DistinctRanks → ∃ order n, s.AdmitsInOrder order n ∧
      order.Pairwise (fun a b => RanksBefore (s.requests a) (s.requests b)) ∧
      (∀ a ∈ s.scheduleStep.1.prefillRequests,
        ∀ b ∈ unfinished s.scheduleStep.2.requests (items s.scheduleStep.2.batcher.waitingQueue),
          RanksBefore (s.requests a) (s.requests b)) ∧
      (∀ r ∉ s.batcher.runningRequests, s.filteredRequests r = s.requests r) := by
  intro s hdistinct
  have h : s.Ranked := run_ranked (init_ranked _ _ hobjects) actions
  obtain ⟨order, n, horder⟩ := h.admitsInOrder
  have hstrict := horder.strict hdistinct
  refine ⟨order, n, horder, hstrict, fun a ha b hb => ?_, fun r hr => ?_⟩
  · rw [horder.prefill] at ha
    rw [horder.left, Multiset.mem_coe] at hb
    rw [← List.take_append_drop n order, List.pairwise_append] at hstrict
    exact hstrict.2.2 a ha b hb
  · exact Requests.markAll_of_notMem _ _ _ _ fun hd => hr (mem_dropped.mp hd).1

def pairedRequests : Requests := fun r => Request.new r [1, 1] 4 (r / 2) r

/-- One of four waiting requests is cancelled, two fit, and the last one waits on. -/
theorem admission_in_order_cancelled :
    let s : BatcherState (List RequestRef) := [.addRequest (some 2), .addRequest (some 5),
      .addRequest (some 3), .addRequest (some 4), .cancelRequest 4].foldl step
        (init 4 5 pairedRequests)
    s.scheduleStep.1.prefillRequests = [5, 2] ∧
      ∃ order n, s.AdmitsInOrder order n ∧
        order.Pairwise (fun a b => RanksBefore (s.requests a) (s.requests b)) := by
  intro s
  obtain ⟨order, n, horder, hstrict, -⟩ := admission_in_order (Q := List RequestRef) 4 5
    pairedRequests (fun _ => rfl) [.addRequest (some 2), .addRequest (some 5),
      .addRequest (some 3), .addRequest (some 4), .cancelRequest 4] (by decide +kernel)
  exact ⟨by decide +kernel, order, n, horder, hstrict⟩
end BatcherState
end CudaForge.Scheduler
