import Mathlib.Data.Finset.Card
import Mathlib.Tactic

/-!
Condition variables. A thread in `waiting` hears the next notification. A notified thread, and one
that wakes up by itself or by its time limit, goes on when it gets the mutex.
-/

structure ConditionVariable (τ : Type*) where
  waiting : Finset τ
  notified : Finset τ
  expired : Finset τ
  deriving DecidableEq

namespace ConditionVariable
variable {τ : Type*} {c c' : ConditionVariable τ} {t : τ} {supply : ℕ}

def idle : ConditionVariable τ := ⟨∅, ∅, ∅⟩

/-- As long as a thread waits, the supply that it could have is left to notified threads. -/
structure Covers (c : ConditionVariable τ) (supply : ℕ) : Prop where
  separate : ∀ t ∈ c.waiting, t ∉ c.notified ∧ t ∉ c.expired
  covered : c.waiting.Nonempty → supply ≤ c.notified.card

theorem idle_covers (supply : ℕ) : (idle : ConditionVariable τ).Covers supply where
  separate t ht := absurd ht (Finset.notMem_empty t)
  covered h := absurd h Finset.not_nonempty_empty

theorem Covers.anti (h : c.Covers supply) {supply' : ℕ} (hle : supply' ≤ supply) :
    c.Covers supply' := ⟨h.separate, fun hw => hle.trans (h.covered hw)⟩

variable [DecidableEq τ]

def blocked (c : ConditionVariable τ) : Finset τ := c.waiting ∪ c.notified ∪ c.expired

def wait (c : ConditionVariable τ) (t : τ) : ConditionVariable τ :=
  { c with waiting := insert t c.waiting }

/-- Which of the waiting threads is woken is open; without one nothing happens. -/
def notifyOne (c : ConditionVariable τ) : Option τ → Option (ConditionVariable τ)
  | none => if c.waiting = ∅ then some c else none
  | some t =>
    if t ∈ c.waiting then some ⟨c.waiting.erase t, insert t c.notified, c.expired⟩ else none

def notifyAll (c : ConditionVariable τ) : ConditionVariable τ :=
  ⟨∅, c.notified ∪ c.waiting, c.expired⟩

def expire (c : ConditionVariable τ) (t : τ) : Option (ConditionVariable τ) :=
  if t ∈ c.waiting then some ⟨c.waiting.erase t, c.notified, insert t c.expired⟩ else none

def resume (c : ConditionVariable τ) (t : τ) : Option (ConditionVariable τ) :=
  if t ∈ c.notified ∨ t ∈ c.expired then
    some ⟨c.waiting, c.notified.erase t, c.expired.erase t⟩
  else none

/-- A thread that waits finds nothing. -/
theorem Covers.wait (h : c.Covers supply) (ht : t ∉ c.notified ∧ t ∉ c.expired) :
    (c.wait t).Covers 0 where
  separate u hu := by
    rcases Finset.mem_insert.mp hu with rfl | hu
    · exact ht
    · exact h.separate u hu
  covered _ := Nat.zero_le _

theorem Covers.notifyOne (h : c.Covers supply) {woken : Option τ}
    (hnotify : c.notifyOne woken = some c') : c'.Covers (supply + 1) := by
  cases woken with
  | none =>
    simp only [ConditionVariable.notifyOne] at hnotify
    split_ifs at hnotify with hempty
    obtain rfl := Option.some.inj hnotify
    exact ⟨h.separate, fun hw => absurd hempty hw.ne_empty⟩
  | some t =>
    simp only [ConditionVariable.notifyOne] at hnotify
    split_ifs at hnotify with ht
    obtain rfl := Option.some.inj hnotify
    refine ⟨fun u hu => ?_, fun _ => ?_⟩
    · obtain ⟨hne, hu⟩ := Finset.mem_erase.mp hu
      simp [hne, h.separate u hu]
    · have hcovered := h.covered ⟨t, ht⟩
      simp only [Finset.card_insert_of_notMem (h.separate t ht).1]
      omega

theorem notifyAll_covers (c : ConditionVariable τ) (supply : ℕ) : c.notifyAll.Covers supply where
  separate t ht := absurd ht (Finset.notMem_empty t)
  covered h := absurd h Finset.not_nonempty_empty

theorem Covers.expire (h : c.Covers supply) (hexpire : c.expire t = some c') :
    c'.Covers supply := by
  unfold ConditionVariable.expire at hexpire
  split_ifs at hexpire with ht
  obtain rfl := Option.some.inj hexpire
  refine ⟨fun u hu => ?_, fun hw => h.covered (hw.mono (Finset.erase_subset t _))⟩
  obtain ⟨hne, hu⟩ := Finset.mem_erase.mp hu
  simp [hne, h.separate u hu]

/-- A thread that goes on takes one of the supply, if there is any. -/
theorem Covers.resume (h : c.Covers supply) (hresume : c.resume t = some c') :
    c'.Covers (supply - 1) := by
  unfold ConditionVariable.resume at hresume
  split_ifs at hresume
  obtain rfl := Option.some.inj hresume
  refine ⟨fun u hu => ?_, fun hw => ?_⟩
  · simp [h.separate u hu]
  · have hcovered := h.covered hw
    have hcard := Finset.pred_card_le_card_erase (s := c.notified) (a := t)
    simp only
    omega

/-- A thread that goes on is not blocked any more. -/
theorem Covers.resumed (h : c.Covers supply) (hresume : c.resume t = some c') :
    t ∉ c'.waiting ∧ t ∉ c'.notified ∧ t ∉ c'.expired := by
  unfold ConditionVariable.resume at hresume
  split_ifs at hresume with ht
  obtain rfl := Option.some.inj hresume
  refine ⟨fun hw => ?_, Finset.notMem_erase t _, Finset.notMem_erase t _⟩
  exact ht.elim (h.separate t hw).1 (h.separate t hw).2

end ConditionVariable
