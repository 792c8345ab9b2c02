import CudaForge.Library.Transition
import CudaForge.Scheduler.BatcherBudget

/-! The entries of the queue and of the running vector, and the ids that the map keeps for them. -/
namespace CudaForge.Scheduler
open FiniteMap PriorityQueue Transition

namespace BatcherState
variable {Q : Type} [PriorityQueue Q RequestRef] {s : BatcherState Q}

def call (s : BatcherState Q) (a : BatcherAction) : Option (BatcherState Q) := some (s.step a)

def entries (s : BatcherState Q) : Multiset RequestRef :=
  (s.batcher.runningRequests : Multiset RequestRef) + items s.batcher.waitingQueue

theorem mem_entries {r : RequestRef} :
    r ∈ s.entries ↔ r ∈ s.batcher.runningRequests ∨ r ∈ items s.batcher.waitingQueue := by
  rw [entries, Multiset.mem_add, Multiset.mem_coe]

/-- The test of `add_request` on a request that is not null. -/
def Acceptable (s : BatcherState Q) (r : RequestRef) : Prop :=
  (s.requests r).promptTokens ≠ [] ∧ (s.requests r).id ∉ s.batcher.requestMap

theorem addRequest_accepted {r : RequestRef} (h : s.Acceptable r) :
    s.addRequest (some r) = (true,
      { batcher :=
          { s.batcher with
            requestMap := s.batcher.requestMap.insert (s.requests r).id r
            waitingQueue := push (s.requests.setState r .waiting).comparator r
              s.batcher.waitingQueue }
        requests := s.requests.setState r .waiting }) := by
  have hprompt : (s.requests r).promptTokens.isEmpty = false := by simpa using h.1
  simp only [addRequest, hprompt, Bool.false_eq_true, if_false, if_neg h.2, Requests.setState_id]

theorem addRequest_refused {r : RequestRef} (h : ¬s.Acceptable r) :
    s.addRequest (some r) = (false, s) := by
  unfold Acceptable at h
  unfold addRequest
  dsimp only
  split_ifs with hprompt hid
  · rfl
  · rfl
  · exact absurd ⟨by simpa using hprompt, hid⟩ h

theorem addRequest_fst {r : RequestRef} : (s.addRequest (some r)).1 = true ↔ s.Acceptable r := by
  constructor
  · intro h
    by_contra hr
    rw [addRequest_refused hr] at h
    contradiction
  · intro h
    rw [addRequest_accepted h]

theorem cancelRequest_entries (requestId : ℕ) :
    (s.cancelRequest requestId).2.entries ≤ s.entries := by
  unfold cancelRequest
  split
  · exact le_rfl
  · apply add_le_add_left
    exact Multiset.coe_le.mpr List.filter_sublist.subperm

theorem scheduleStep_entries (h : s.Budgeted) : s.scheduleStep.2.entries ≤ s.entries := by
  obtain ⟨skipped, hs⟩ := scheduleStep_spec h.tokens_le
  have hdecode : (s.scheduleStep.1.decodeRequests : Multiset RequestRef) ≤
      s.batcher.runningRequests := by
    rw [hs.decode_eq]
    exact Multiset.coe_le.mpr List.filter_sublist.subperm
  unfold entries
  rw [hs.running_eq, hs.items_eq, ← Multiset.coe_add, add_assoc]
  apply add_le_add hdecode
  rw [add_assoc]
  exact Multiset.le_add_left _ _

/-- A call enters at most the request that it accepts. -/
theorem step_entries (h : s.Budgeted) (a : BatcherAction) :
    (∃ r, a = .addRequest (some r) ∧ s.Acceptable r ∧ (s.step a).entries = r ::ₘ s.entries) ∨
      (s.step a).entries ≤ s.entries := by
  cases a with
  | addRequest request =>
    cases request with
    | none => exact Or.inr le_rfl
    | some r =>
      by_cases hr : s.Acceptable r
      · refine Or.inl ⟨r, rfl, hr, ?_⟩
        simp only [step, addRequest_accepted hr, entries, items_push, Multiset.add_cons]
      · right
        simp only [step, addRequest_refused hr, le_rfl]
  | cancelRequest requestId => exact Or.inr (cancelRequest_entries requestId)
  | scheduleStep => exact Or.inr (scheduleStep_entries h)
  | updateRequestsState finishedIds => exact Or.inr le_rfl
  | appendToken r token => exact Or.inr le_rfl
  | finish r => exact Or.inr le_rfl

/-- No object is accepted while an entry of it is still in the queue. -/
def SingleEntry (s : BatcherState Q) : BatcherAction → Prop
  | .addRequest (some r) => s.Acceptable r → r ∉ items s.batcher.waitingQueue
  | _ => True

instance (s : BatcherState Q) (r : RequestRef) : Decidable (s.Acceptable r) :=
  inferInstanceAs (Decidable (_ ∧ _))

instance (s : BatcherState Q) : ∀ a, Decidable (s.SingleEntry a)
  | .addRequest (some r) => inferInstanceAs (Decidable (s.Acceptable r → _ ∉ _))
  | .addRequest none | .cancelRequest _ | .updateRequestsState _ | .scheduleStep
  | .appendToken _ _ | .finish _ => isTrue trivial

structure Distinct (s : BatcherState Q) : Prop where
  budgeted : s.Budgeted
  entries_nodup : s.entries.Nodup

theorem Distinct.step (h : s.Distinct) {a : BatcherAction} (ha : s.SingleEntry a) :
    (s.step a).Distinct := by
  refine ⟨step_budgeted h.budgeted a, ?_⟩
  rcases step_entries h.budgeted a with ⟨r, rfl, hr, hentries⟩ | hle
  · have hrunning : r ∉ s.batcher.runningRequests := fun hmem =>
      hr.2 (mem_of_lookup (h.budgeted.mapped r hmem))
    have hnot : r ∉ s.entries := by
      rw [mem_entries]
      rintro (hmem | hmem)
      · exact hrunning hmem
      · exact ha hr hmem
    rw [hentries]
    exact Multiset.nodup_cons.mpr ⟨hnot, h.entries_nodup⟩
  · exact Multiset.nodup_of_le hle h.entries_nodup

theorem Distinct.running (h : s.Distinct) : s.batcher.runningRequests.Nodup :=
  Multiset.coe_nodup.mp (Multiset.nodup_of_le (Multiset.le_add_right _ _) h.entries_nodup)

theorem init_distinct (maxNumSeqs maxNumBatchedTokens : ℕ) {objects : Requests}
    (hobjects : ∀ r, (objects r).state = .waiting) :
    (init maxNumSeqs maxNumBatchedTokens objects : BatcherState Q).Distinct :=
  ⟨init_budgeted _ _ hobjects, by simp [entries, init, items_empty]⟩

/-- When no object is submitted over an entry that it still has in the queue, no request runs twice
and no batch contains one twice. -/
theorem scheduled_once (maxNumSeqs maxNumBatchedTokens : ℕ) (objects : Requests)
    (hobjects : ∀ r, (objects r).state = .waiting) (actions : List BatcherAction)
    (s : BatcherState Q) (hrun : exec call (init maxNumSeqs maxNumBatchedTokens objects) actions =
      some s) (hsteps : AllSteps call SingleEntry
        (init maxNumSeqs maxNumBatchedTokens objects : BatcherState Q) actions) :
    s.batcher.runningRequests.Nodup ∧
      (s.scheduleStep.1.decodeRequests ++ s.scheduleStep.1.prefillRequests).Nodup := by
  have hinit : (init maxNumSeqs maxNumBatchedTokens objects : BatcherState Q).Distinct :=
    init_distinct _ _ hobjects
  have h : s.Distinct := by
    apply exec_invariant _ hinit hsteps hrun
    rintro s a s' hs ha hstep
    obtain rfl := Option.some.inj hstep
    exact hs.step ha
  obtain ⟨skipped, hs⟩ := scheduleStep_spec h.budgeted.tokens_le
  have hnext : s.scheduleStep.2.Distinct := h.step (a := .scheduleStep) trivial
  refine ⟨h.running, ?_⟩
  rw [← hs.running_eq]
  exact hnext.running

def sameRequests : Requests := fun r => Request.new 5 [1] 4 0 r

/-- The cancelled object is submitted again after its entry is gone. -/
theorem scheduled_once_again : ∃ s : BatcherState (List RequestRef),
    exec call (init 4 8 sameRequests) [.addRequest (some 1), .cancelRequest 5, .scheduleStep,
      .addRequest (some 1), .scheduleStep] = some s ∧
    s.batcher.runningRequests.Nodup ∧
      (s.scheduleStep.1.decodeRequests ++ s.scheduleStep.1.prefillRequests).Nodup :=
  ⟨_, rfl, scheduled_once 4 8 sameRequests (fun _ => rfl) [.addRequest (some 1),
    .cancelRequest 5, .scheduleStep, .addRequest (some 1), .scheduleStep] _ rfl
    (by decide +kernel)⟩

/-- The cancelled object is submitted again over its old entry, and both entries are admitted. -/
theorem scheduled_twice : ∃ s : BatcherState (List RequestRef),
    exec call (init 4 8 sameRequests) [.addRequest (some 1), .cancelRequest 5,
      .addRequest (some 1), .scheduleStep] = some s ∧
    ¬s.batcher.runningRequests.Nodup ∧
      ¬(s.scheduleStep.1.decodeRequests ++ s.scheduleStep.1.prefillRequests).Nodup :=
  exec_exists (by decide +kernel) fun _ _ h => h

/-- Every id of the map belongs to a request that is running or waiting. -/
structure MapTracked (s : BatcherState Q) : Prop where
  budgeted : s.Budgeted
  map_entry : ∀ id r, s.batcher.requestMap.lookup id = some r →
    (s.requests r).id = id ∧ r ∈ s.entries

/-- No finished entry of the queue is still in the map when `schedule_step` runs. -/
def EndedUnmapped (s : BatcherState Q) : BatcherAction → Prop
  | .scheduleStep => ∀ r ∈ items s.batcher.waitingQueue, (s.requests r).state = .finished →
      s.batcher.requestMap.lookup (s.requests r).id ≠ some r
  | _ => True

instance (s : BatcherState Q) : ∀ a, Decidable (s.EndedUnmapped a)
  | .scheduleStep => inferInstanceAs (Decidable (∀ r ∈ items s.batcher.waitingQueue, _ → _ ≠ _))
  | .addRequest _ | .cancelRequest _ | .updateRequestsState _ | .appendToken _ _
  | .finish _ => isTrue trivial

theorem MapTracked.congr {t : BatcherState Q} (h : s.MapTracked) (ht : t.Budgeted)
    (hbatcher : t.batcher = s.batcher) (hid : ∀ r, (t.requests r).id = (s.requests r).id) :
    t.MapTracked where
  budgeted := ht
  map_entry id r hr := by
    rw [hbatcher] at hr
    rw [hid, entries, hbatcher]
    exact h.map_entry id r hr

theorem MapTracked.addRequest (h : s.MapTracked) (request : Option RequestRef) :
    (s.addRequest request).2.MapTracked := by
  cases request with
  | none => exact h
  | some r =>
    by_cases hr : s.Acceptable r
    · have hb := h.budgeted.addRequest (some r)
      rw [addRequest_accepted hr] at hb ⊢
      refine ⟨hb, fun id q hq => ?_⟩
      simp only [lookup_insert_ite] at hq
      simp only [Requests.setState_id, entries, items_push,
        Multiset.add_cons, Multiset.mem_cons]
      split_ifs at hq with hid
      · obtain rfl := Option.some.inj hq
        exact ⟨hid.symm, Or.inl rfl⟩
      · obtain ⟨hqid, hentry⟩ := h.map_entry id q hq
        exact ⟨hqid, Or.inr hentry⟩
    · rw [addRequest_refused hr]
      exact h

theorem MapTracked.cancelRequest (h : s.MapTracked) (requestId : ℕ) :
    (s.cancelRequest requestId).2.MapTracked := by
  have hb := h.budgeted.cancelRequest requestId
  unfold BatcherState.cancelRequest at hb ⊢
  split at hb
  · exact h
  · refine ⟨hb, fun id q hq => ?_⟩
    simp only [lookup_erase_ite] at hq
    simp only [Requests.setState_id, mem_entries]
    split_ifs at hq with hid
    obtain ⟨hqid, hentry⟩ := h.map_entry id q hq
    refine ⟨hqid, (mem_entries.mp hentry).imp_left fun hmem => ?_⟩
    exact List.mem_filter.mpr ⟨hmem, by simpa [hqid] using hid⟩

/-- A request that leaves the queue or the running vector also leaves the map, unless its entry is
skipped as finished. -/
theorem MapTracked.scheduleStep (h : s.MapTracked) (hc : s.EndedUnmapped .scheduleStep) :
    s.scheduleStep.2.MapTracked := by
  obtain ⟨skipped, hs⟩ := scheduleStep_spec h.budgeted.tokens_le
  refine ⟨h.budgeted.scheduleStep, fun id r hr => ?_⟩
  have hid : (s.scheduleStep.2.requests r).id = (s.requests r).id := by
    simp [hs.requests_eq, filteredRequests]
  rw [hs.map_eq] at hr
  split_ifs at hr with hdrop
  obtain ⟨hrid, hentry⟩ := h.map_entry id r hr
  rw [hid]
  refine ⟨hrid, mem_entries.mpr ?_⟩
  rw [hs.running_eq, List.mem_append]
  rcases mem_entries.mp hentry with hrunning | hwaiting
  · cases hkeeps : (s.requests r).keeps with
    | false => exact absurd ⟨r, hrunning, hkeeps, hrid⟩ hdrop
    | true =>
      left
      left
      rw [hs.decode_eq]
      exact List.mem_filter.mpr ⟨hrunning, hkeeps⟩
  · rw [hs.items_eq, Multiset.mem_add, Multiset.mem_add] at hwaiting
    rcases hwaiting with (hskip | hprefill) | hkept
    · have hdropped : r ∉ s.dropped := fun hd => by
        obtain ⟨hrunning, hkeeps⟩ := mem_dropped.mp hd
        exact hdrop ⟨r, hrunning, hkeeps, hrid⟩
      have hfinished := hs.skipped_finished r hskip
      rw [filteredRequests, Requests.markAll_of_notMem _ _ _ _ hdropped] at hfinished
      have hitem : r ∈ items s.batcher.waitingQueue := by
        rw [hs.items_eq, Multiset.mem_add, Multiset.mem_add]
        exact Or.inl (Or.inl hskip)
      exact absurd (hrid.symm ▸ hr) (hc r hitem hfinished)
    · exact Or.inl (Or.inr hprefill)
    · exact Or.inr hkept

theorem MapTracked.step (h : s.MapTracked) {a : BatcherAction} (ha : s.EndedUnmapped a) :
    (s.step a).MapTracked := by
  have hb := step_budgeted h.budgeted a
  cases a with
  | addRequest request => exact h.addRequest request
  | cancelRequest requestId => exact h.cancelRequest requestId
  | scheduleStep => exact h.scheduleStep ha
  | updateRequestsState finishedIds =>
    apply h.congr hb rfl
    intro r
    simp only [BatcherState.step, updateRequestsState_eq, Requests.markAll_id]
  | appendToken r token =>
    apply h.congr hb rfl
    intro q
    simp only [BatcherState.step, Requests.pushToken, Function.update_apply]
    split_ifs with hq
    · rw [hq]
    · rfl
  | finish r =>
    apply h.congr hb rfl
    intro q
    simp only [BatcherState.step, Requests.setState_id]

theorem init_mapTracked (maxNumSeqs maxNumBatchedTokens : ℕ) {objects : Requests}
    (hobjects : ∀ r, (objects r).state = .waiting) :
    (init maxNumSeqs maxNumBatchedTokens objects : BatcherState Q).MapTracked :=
  ⟨init_budgeted _ _ hobjects, fun _ _ h => by simp [init] at h⟩

/-- When `schedule_step` never finds a finished entry in the queue that is still in the map, every
id of the map has an entry, every unfinished entry is mapped, and an id without entries can be
submitted. -/
theorem map_tracks_requests (maxNumSeqs maxNumBatchedTokens : ℕ) (objects : Requests)
    (hobjects : ∀ r, (objects r).state = .waiting) (actions : List BatcherAction)
    (s : BatcherState Q) (hrun : exec call (init maxNumSeqs maxNumBatchedTokens objects) actions =
      some s) (hsteps : AllSteps call EndedUnmapped
        (init maxNumSeqs maxNumBatchedTokens objects : BatcherState Q) actions) :
    (∀ id r, s.batcher.requestMap.lookup id = some r → r ∈ s.entries) ∧
    (∀ r ∈ s.entries, (s.requests r).state ≠ .finished →
      s.batcher.requestMap.lookup (s.requests r).id = some r) ∧
    ∀ r, (s.requests r).promptTokens ≠ [] →
      (∀ q ∈ s.entries, (s.requests q).id ≠ (s.requests r).id) →
        (s.addRequest (some r)).1 = true := by
  have h : s.MapTracked := by
    apply exec_invariant _ (init_mapTracked _ _ hobjects) hsteps hrun
    rintro s a s' hs ha hstep
    obtain rfl := Option.some.inj hstep
    exact hs.step ha
  refine ⟨fun id r hr => (h.map_entry id r hr).2, ?_, ?_⟩
  · intro r hr hs
    rcases mem_entries.mp hr with hrunning | hwaiting
    · exact h.budgeted.mapped r hrunning
    · exact h.budgeted.waiting_mapped r hwaiting hs
  · intro r hprompt hfree
    rw [addRequest_fst]
    refine ⟨hprompt, fun hmem => ?_⟩
    obtain ⟨q, hq⟩ := Option.isSome_iff_exists.mp (AList.lookup_isSome.mpr hmem)
    obtain ⟨hid, hentry⟩ := h.map_entry _ q hq
    exact hfree q hentry hid

/-- A finished request leaves the running vector and its id goes to another object. -/
theorem map_tracks_requests_reused : ∃ s : BatcherState (List RequestRef),
    exec call (init 4 8 sameRequests) [.addRequest (some 1), .scheduleStep,
      .updateRequestsState [5], .scheduleStep] = some s ∧ (s.addRequest (some 2)).1 = true :=
  ⟨_, rfl, (map_tracks_requests 4 8 sameRequests (fun _ => rfl) [.addRequest (some 1),
    .scheduleStep, .updateRequestsState [5], .scheduleStep] _ rfl (by decide +kernel)).2.2 2
    (by decide +kernel) (by decide +kernel)⟩

/-- A waiting request that is reported finished leaves the queue but not the map, so its id is
refused from then on. -/
theorem map_keeps_dropped : ∃ s : BatcherState (List RequestRef),
    exec call (init 4 8 sameRequests) [.addRequest (some 1), .updateRequestsState [5],
      .scheduleStep] = some s ∧
    s.batcher.requestMap.lookup 5 = some 1 ∧ 1 ∉ s.entries ∧ (s.addRequest (some 2)).1 = false :=
  exec_exists (by decide +kernel) fun _ _ h => h

end BatcherState
end CudaForge.Scheduler
