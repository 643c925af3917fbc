/-
Finite maps as programs use hash maps.

An association list without repeated keys is the map; `insertNew` is the
insertion that leaves a present key alone, and `size` the number of keys.  The
lemmas say what a lookup finds after each update, and how many keys there are.
-/
import Mathlib.Data.List.AList
import Mathlib.Tactic.Common

namespace FiniteMap

variable {α β : Type*} {m : AList fun _ : α => β} {a b : α} {v w : β}

/-- The number of keys. -/
def size (m : AList fun _ : α => β) : ℕ := m.entries.length

/-- The first entry that passes a test. -/
def find? (p : β → Bool) (m : AList fun _ : α => β) : Option (α × β) :=
  (m.entries.find? fun e => p e.2).map fun e => (e.1, e.2)

@[simp] theorem size_empty : size (∅ : AList fun _ : α => β) = 0 := rfl

theorem size_eq_keys : size m = m.keys.length := by
  rw [size, AList.keys, List.keys, List.length_map]

variable [DecidableEq α]

/-- Insert, unless the key is there. -/
def insertNew (a : α) (v : β) (m : AList fun _ : α => β) : AList fun _ : α => β :=
  if a ∈ m then m else m.insert a v

theorem lookup_erase_eq_some :
    (m.erase a).lookup b = some w ↔ b ≠ a ∧ m.lookup b = some w := by
  by_cases h : b = a
  · subst h
    simp [AList.lookup_erase]
  · simp [AList.lookup_erase_ne h, h]

theorem lookup_insert_eq_some :
    (m.insert a v).lookup b = some w ↔ (b = a ∧ w = v) ∨ (b ≠ a ∧ m.lookup b = some w) := by
  by_cases h : b = a
  · subst h
    simp [AList.lookup_insert, eq_comm]
  · simp [AList.lookup_insert_ne h, h]

theorem lookup_insertNew_eq_some :
    (insertNew a v m).lookup b = some w ↔
      (b = a ∧ w = v ∧ a ∉ m) ∨ m.lookup b = some w := by
  rw [insertNew]
  split
  · next h => simp [h]
  · next h =>
    rw [lookup_insert_eq_some]
    constructor
    · rintro (⟨hb, hw⟩ | ⟨_, hw⟩)
      · exact .inl ⟨hb, hw, h⟩
      · exact .inr hw
    · rintro (⟨hb, hw, _⟩ | hw)
      · exact .inl ⟨hb, hw⟩
      · refine .inr ⟨fun hb => ?_, hw⟩
        subst hb
        rw [AList.lookup_eq_none.2 h] at hw
        exact absurd hw (by simp)

theorem mem_of_lookup (h : m.lookup a = some v) : a ∈ m :=
  AList.lookup_isSome.1 (by rw [h]; rfl)

theorem lookup_of_mem_keys (h : a ∈ m.keys) : ∃ v, m.lookup a = some v :=
  Option.isSome_iff_exists.1 (AList.lookup_isSome.2 (AList.mem_keys.2 h))

theorem lookup_of_find? {p : β → Bool} (h : find? p m = some (a, v)) :
    m.lookup a = some v ∧ p v = true := by
  rw [find?, Option.map_eq_some_iff] at h
  obtain ⟨e, he, heq⟩ := h
  obtain ⟨rfl, rfl⟩ := Prod.mk.inj heq
  have hp := List.find?_some he
  exact ⟨AList.mem_lookup_iff.2 (List.mem_of_find?_eq_some he), hp⟩

theorem size_insert (h : a ∉ m) : size (m.insert a v) = size m + 1 := by
  rw [size, AList.entries_insert_of_notMem h, List.length_cons]
  rfl

/-- Overwriting the value of a key does not change the number of keys. -/
theorem size_overwrite (h : a ∈ m) : size (m.insert a v) = size m := by
  rw [size_eq_keys, size_eq_keys, AList.keys_insert, List.length_cons,
    List.length_erase_of_mem (AList.mem_keys.1 h)]
  have hpos : 0 < m.keys.length := List.length_pos_of_mem (AList.mem_keys.1 h)
  omega

theorem size_erase_le : size (m.erase a) ≤ size m := by
  rw [size_eq_keys, size_eq_keys, AList.keys_erase]
  exact List.length_erase_le

theorem size_erase (h : a ∈ m) : size (m.erase a) + 1 = size m := by
  rw [size_eq_keys, size_eq_keys, AList.keys_erase,
    List.length_erase_of_mem (AList.mem_keys.1 h)]
  have hpos : 0 < m.keys.length := List.length_pos_of_mem (AList.mem_keys.1 h)
  omega

theorem size_insertNew_le : size (insertNew a v m) ≤ size m + 1 := by
  rw [insertNew]
  split
  · exact Nat.le_succ _
  · next h => exact le_of_eq (size_insert h)

end FiniteMap
