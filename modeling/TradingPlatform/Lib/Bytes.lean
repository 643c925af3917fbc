/-
Records laid out in bytes.

Numbers are little-endian and of a fixed width, texts are filled up with zeros,
and a field is the slice of the record at its offset.

* `ofLeBytes_leBytes` — a number is read back modulo what its width holds;
* `untilNul_pad` — a text is read back up to its first zero;
* `slice_zero`, `slice_append` — the fields of a record that is a concatenation.
-/
import Mathlib.Algebra.Group.Nat.Defs
import Mathlib.Data.List.Basic
import Mathlib.Data.List.TakeWhile
import Mathlib.Tactic.Common

namespace Bytes

/-- The `w` low bytes of `v`, the lowest first. -/
def leBytes : ℕ → ℕ → List UInt8
  | 0, _ => []
  | w + 1, v => UInt8.ofNat v :: leBytes w (v / 256)

/-- The number with these bytes, the lowest first. -/
def ofLeBytes : List UInt8 → ℕ
  | [] => 0
  | b :: bs => b.toNat + 256 * ofLeBytes bs

@[simp] theorem length_leBytes (w v : ℕ) : (leBytes w v).length = w := by
  induction w generalizing v with
  | zero => rfl
  | succ w ih => rw [leBytes, List.length_cons, ih]

theorem ofLeBytes_leBytes (w v : ℕ) : ofLeBytes (leBytes w v) = v % 256 ^ w := by
  induction w generalizing v with
  | zero => rw [leBytes, ofLeBytes, Nat.pow_zero, Nat.mod_one]
  | succ w ih =>
    have hpow : 256 ^ (w + 1) = 256 * 256 ^ w := by rw [Nat.pow_succ, Nat.mul_comm]
    rw [leBytes, ofLeBytes, ih, UInt8.toNat_ofNat', hpow, Nat.mod_mul]

/-- A text filled up with zeros to `n` bytes. -/
def pad (n : ℕ) (s : List UInt8) : List UInt8 := s ++ List.replicate (n - s.length) 0

/-- A text up to its first zero. -/
def untilNul (s : List UInt8) : List UInt8 := s.takeWhile (· ≠ 0)

theorem length_pad {n : ℕ} {s : List UInt8} (h : s.length ≤ n) : (pad n s).length = n := by
  rw [pad, List.length_append, List.length_replicate]
  omega

/-- The zeros behind a text are not read back. -/
theorem untilNul_append_zeros (s : List UInt8) (k : ℕ) :
    untilNul (s ++ List.replicate k 0) = untilNul s := by
  induction s with
  | nil =>
    cases k with
    | zero => rfl
    | succ k => rfl
  | cons b s ih =>
    rw [untilNul, untilNul] at ih
    rw [List.cons_append, untilNul, untilNul, List.takeWhile_cons, List.takeWhile_cons, ih]

theorem untilNul_pad (n : ℕ) (s : List UInt8) : untilNul (pad n s) = untilNul s :=
  untilNul_append_zeros s _

/-- Cutting a text at its first zero changes it exactly if it has one. -/
theorem untilNul_eq_self {s : List UInt8} : untilNul s = s ↔ (0 : UInt8) ∉ s := by
  rw [untilNul, List.takeWhile_eq_self_iff]
  constructor
  · intro h hmem
    simpa using h 0 hmem
  · intro h b hb
    rw [decide_eq_true_eq]
    rintro rfl
    exact h hb

/-! ### Fields -/

variable {α : Type*}

/-- The `w` elements at offset `off`. -/
def slice (off w : ℕ) (xs : List α) : List α := (xs.drop off).take w

theorem slice_zero {w : ℕ} {xs : List α} (h : xs.length = w) (ys : List α) :
    slice 0 w (xs ++ ys) = xs := by
  rw [slice, List.drop_zero, List.take_left' h]

theorem slice_append {off w : ℕ} {xs : List α} (h : xs.length ≤ off) (ys : List α) :
    slice off w (xs ++ ys) = slice (off - xs.length) w ys := by
  rw [slice, slice, List.drop_append, List.drop_of_length_le h, List.nil_append]

/-- A field that has arrived is not changed by what arrives later. -/
theorem slice_prefix {off w : ℕ} {xs : List α} (h : off + w ≤ xs.length) (ys : List α) :
    slice off w (xs ++ ys) = slice off w xs := by
  rw [slice, slice, List.drop_append_of_le_length (by omega),
    List.take_append_of_le_length (by rw [List.length_drop]; omega)]

theorem length_slice {off w : ℕ} {xs : List α} (h : off + w ≤ xs.length) :
    (slice off w xs).length = w := by
  rw [slice, List.length_take, List.length_drop]
  omega

end Bytes
