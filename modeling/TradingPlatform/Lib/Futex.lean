/-
Sleeping on a 32-bit word.

A party that wants to sleep reads the word, and is put to sleep only if the word
still has the value it read; whoever has something for it changes the word
before waking it.  A word that was incremented fewer than `2 ^ 32` times since
it was read is recognised as changed.
-/
import Mathlib.Algebra.Group.Nat.Defs
import Mathlib.Tactic.Common

namespace Futex

/-- `FUTEX_WAIT` puts the caller to sleep. -/
def sleeps (word val : UInt32) : Prop := word = val

instance (word val : UInt32) : Decidable (sleeps word val) := inferInstanceAs (Decidable (_ = _))

/-- Adding one more increment. -/
theorem add_one (v : UInt32) (n : ℕ) : v + UInt32.ofNat n + 1 = v + UInt32.ofNat (n + 1) := by
  rw [UInt32.add_assoc, UInt32.ofNat_add, UInt32.ofNat_one]

theorem sleeps_add_iff (v : UInt32) (n : ℕ) :
    sleeps (v + UInt32.ofNat n) v ↔ n % 2 ^ 32 = 0 := by
  have hv : v.toNat < 2 ^ 32 := v.toNat_lt
  rw [sleeps, ← UInt32.toNat_inj, UInt32.toNat_add, UInt32.toNat_ofNat']
  omega

/-- Of fewer than `2 ^ 32` increments there were none. -/
theorem eq_zero_of_sleeps {v : UInt32} {n : ℕ} (hn : n < 2 ^ 32)
    (h : sleeps (v + UInt32.ofNat n) v) : n = 0 := by
  rw [sleeps_add_iff, Nat.mod_eq_of_lt hn] at h
  exact h

end Futex
