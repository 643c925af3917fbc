/-
Bounded spinning (`common/src/utils/spin_wait.hpp`, `types/constants.hpp`).

* `SpinWait.next_of_lt`, `next_last`, `next_of_le` — when `++waiter` says to go on
  and when it does not.
-/
import Mathlib.Tactic.Common

/-- `SPIN_RETRIES_HOT`. -/
def spinRetriesHot : ℕ := 1000

/-- `SPIN_RETRIES_WARM`. -/
def spinRetriesWarm : ℕ := spinRetriesHot * 100

/-- `SPIN_RETRIES_YIELD`. -/
def spinRetriesYield : ℕ := spinRetriesWarm * 10

/-- `SpinWait`; the default cap is `SPIN_RETRIES_YIELD`. -/
structure SpinWait where
  cap : ℕ := spinRetriesYield
  cycles : ℕ := 0
deriving DecidableEq

namespace SpinWait

/-- `++waiter`: whether to go on, and the counter.  Pausing and yielding are left
out. -/
def next (w : SpinWait) : Bool × SpinWait :=
  if w.cap ≤ w.cycles then (false, w)
  else
    let w := { w with cycles := w.cycles + 1 }
    if w.cycles < spinRetriesHot then (true, w)
    else if w.cycles < spinRetriesWarm then (true, w)
    else if w.cycles < spinRetriesYield then (true, w)
    else (false, w)

def reset (w : SpinWait) : SpinWait := { w with cycles := 0 }

theorem next_of_lt {w : SpinWait} (h : w.cycles < w.cap) (h' : w.cycles + 1 < spinRetriesYield) :
    w.next = (true, { w with cycles := w.cycles + 1 }) := by
  rw [next, if_neg (Nat.not_le.2 h)]
  simp only [if_pos h', ite_self]

/-- The default cap is reached together with the end of the yielding. -/
theorem next_last {w : SpinWait} (h : w.cycles < w.cap) (h' : spinRetriesYield ≤ w.cycles + 1) :
    w.next = (false, { w with cycles := w.cycles + 1 }) := by
  have hhot : ¬ w.cycles + 1 < spinRetriesHot := by
    rw [spinRetriesYield, spinRetriesWarm] at h'
    omega
  have hwarm : ¬ w.cycles + 1 < spinRetriesWarm := by
    rw [spinRetriesYield] at h'
    omega
  rw [next, if_neg (Nat.not_le.2 h)]
  simp only [if_neg hhot, if_neg hwarm, if_neg (Nat.not_lt.2 h')]

theorem next_of_le {w : SpinWait} (h : w.cap ≤ w.cycles) : w.next = (false, w) := by
  rw [next, if_pos h]

/-- As long as it says to go on, it counts, and has not come to the end. -/
theorem next_true {w w' : SpinWait} (h : w.next = (true, w')) :
    w'.cycles = w.cycles + 1 ∧ w.cycles + 1 < spinRetriesYield := by
  rw [next] at h
  split at h
  · simp at h
  · simp only at h
    have hwarm : spinRetriesHot ≤ spinRetriesWarm := by decide
    have hyield : spinRetriesWarm ≤ spinRetriesYield := by decide
    split at h
    · obtain ⟨_, rfl⟩ := Prod.mk.inj h
      exact ⟨rfl, by omega⟩
    · split at h
      · obtain ⟨_, rfl⟩ := Prod.mk.inj h
        exact ⟨rfl, by omega⟩
      · split at h
        · next hlt =>
          obtain ⟨_, rfl⟩ := Prod.mk.inj h
          exact ⟨rfl, hlt⟩
        · simp at h

end SpinWait
