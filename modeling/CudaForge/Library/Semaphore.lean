import Mathlib.Data.List.Count
import Mathlib.Tactic

/-!
Counting semaphores that hand their permits to the waiters in order of arrival.

A permit handed to a waiter has left the value before the waiter runs again.
-/

structure Semaphore (ι : Type*) where
  value : ℕ
  /-- In order of arrival, each with whether a permit was handed to it. -/
  waiters : List (ι × Bool)

namespace Semaphore
variable {ι : Type*}

def ofValue (value : ℕ) : Semaphore ι := ⟨value, []⟩

def locked (s : Semaphore ι) : Bool := s.value == 0 || !s.waiters.isEmpty

def grantFirst : List (ι × Bool) → Option (List (ι × Bool))
  | [] => none
  | (i, false) :: ws => some ((i, true) :: ws)
  | (i, true) :: ws => (grantFirst ws).map ((i, true) :: ·)

/-- Permits are handed out while there are both permits and waiters. -/
def wakeUp : ℕ → List (ι × Bool) → Semaphore ι
  | 0, ws => ⟨0, ws⟩
  | value + 1, ws =>
    match grantFirst ws with
    | none => ⟨value + 1, ws⟩
    | some ws' => wakeUp value ws'

/-- The permit is taken at once, or the caller joins the waiters. -/
def acquire (s : Semaphore ι) (i : ι) : Semaphore ι × Bool :=
  if s.locked then (⟨s.value, s.waiters ++ [(i, false)]⟩, false)
  else (⟨s.value - 1, s.waiters⟩, true)

def release (s : Semaphore ι) : Semaphore ι :=
  match grantFirst s.waiters with
  | none => ⟨s.value + 1, s.waiters⟩
  | some ws' => ⟨s.value, ws'⟩

section Waiting
variable [DecidableEq ι]

def resume (s : Semaphore ι) (i : ι) : Option (Semaphore ι) :=
  if (i, true) ∈ s.waiters then some (wakeUp s.value (s.waiters.erase (i, true))) else none

/-- A waiter is cancelled; the permit handed to it is given back. -/
def abandon (s : Semaphore ι) (i : ι) : Semaphore ι :=
  if (i, true) ∈ s.waiters then wakeUp (s.value + 1) (s.waiters.erase (i, true))
  else wakeUp s.value (s.waiters.erase (i, false))

end Waiting

section Permits

def granted (s : Semaphore ι) : ℕ := s.waiters.countP (·.2)

def permits (s : Semaphore ι) : ℕ := s.value + s.granted

@[simp] theorem permits_ofValue (value : ℕ) : (ofValue value : Semaphore ι).permits = value := rfl

theorem countP_grantFirst {ws ws' : List (ι × Bool)} (h : grantFirst ws = some ws') :
    ws'.countP (·.2) = ws.countP (·.2) + 1 := by
  induction ws generalizing ws' with
  | nil => cases h
  | cons w ws ih =>
    obtain ⟨i, _ | _⟩ := w
    · cases h
      simp
    · obtain ⟨ws'', hws, rfl⟩ := Option.map_eq_some_iff.mp h
      simp [ih hws]

theorem permits_wakeUp (value : ℕ) (ws : List (ι × Bool)) :
    (wakeUp value ws).permits = value + ws.countP (·.2) := by
  induction value generalizing ws with
  | zero => rfl
  | succ value ih =>
    rw [wakeUp]
    cases hgrant : grantFirst ws with
    | none => rfl
    | some ws' =>
      simp only
      rw [ih, countP_grantFirst hgrant]
      omega

/-- A caller that takes a permit takes it from the free ones. -/
theorem permits_acquire (s : Semaphore ι) (i : ι) :
    (s.acquire i).1.permits + (s.acquire i).2.toNat = s.permits := by
  unfold acquire
  split_ifs with hlocked
  · simp [permits, granted, List.countP_append]
  · have hvalue : s.value ≠ 0 := fun hzero => hlocked (by simp [locked, hzero])
    simp only [permits, granted, Bool.toNat_true]
    omega

theorem permits_release (s : Semaphore ι) : s.release.permits = s.permits + 1 := by
  unfold release
  cases hgrant : grantFirst s.waiters with
  | none =>
    simp only [permits, granted]
    omega
  | some ws' =>
    simp only [permits, granted]
    rw [countP_grantFirst hgrant]
    omega

variable [DecidableEq ι] {s : Semaphore ι} {i : ι}

theorem countP_erase_granted (h : (i, true) ∈ s.waiters) :
    (s.waiters.erase (i, true)).countP (·.2) + 1 = s.granted := by
  have hpos : 0 < s.waiters.countP (·.2) := List.countP_pos_iff.mpr ⟨_, h, rfl⟩
  rw [List.countP_erase, if_pos ⟨h, rfl⟩, granted]
  omega

theorem permits_resume {s' : Semaphore ι} (h : s.resume i = some s') :
    s'.permits + 1 = s.permits := by
  obtain ⟨hmem, hs⟩ := Option.ite_none_right_eq_some.mp h
  rw [← Option.some.inj hs, permits_wakeUp, permits, ← countP_erase_granted hmem]
  omega

theorem permits_abandon (s : Semaphore ι) (i : ι) : (s.abandon i).permits = s.permits := by
  unfold abandon
  split_ifs with hmem
  · rw [permits_wakeUp, permits, ← countP_erase_granted hmem]
    omega
  · rw [permits_wakeUp, List.countP_erase, if_neg (by simp), permits, granted]
    omega

end Permits
end Semaphore
