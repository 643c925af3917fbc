/-
Passes over a list from which elements are removed on the way.

An element that is removed at position `i` is overwritten with the last one, and
the last one is dropped; the pass looks at position `i` again.

* `swapRemove` — the removal, with `swapRemove_perm` and `take_swapRemove`;
* `Pass` — where a pass is: which elements it has visited and which of them it has
  removed, with the two ways to go on (`keep`, `remove`);
* `Pass.done` — a pass that reaches the end has visited every element once.
-/
import Mathlib.Data.List.Perm.Subperm
import Mathlib.Data.List.Basic

open scoped List

variable {α : Type*}

/-- Remove the element at position `i` by moving the last one there. -/
def swapRemove (l : List α) (i : ℕ) : List α :=
  match l.getLast? with
  | some x => (l.set i x).dropLast
  | none => []

theorem swapRemove_snoc (l : List α) (x : α) (i : ℕ) :
    swapRemove (l ++ [x]) i = l.set i x := by
  have hlast : (l ++ [x]).getLast? = some x := by simp
  have hset : swapRemove (l ++ [x]) i = ((l ++ [x]).set i x).dropLast := by
    rw [swapRemove, hlast]
  rw [hset, List.dropLast_eq_take, List.length_set, List.length_append, List.length_singleton,
    Nat.add_sub_cancel, List.take_set, List.take_left]

/-- What is in front of `i` stays. -/
theorem take_swapRemove (l : List α) {i : ℕ} (hi : i < l.length) :
    (swapRemove l i).take i = l.take i := by
  rcases List.eq_nil_or_concat l with rfl | ⟨l, x, rfl⟩
  · exact absurd hi (by simp)
  · rw [List.concat_eq_append, List.length_append, List.length_singleton] at hi
    rw [List.concat_eq_append, swapRemove_snoc, List.take_set_of_le (Nat.le_refl i),
      List.take_append_of_le_length (by omega)]

/-- One element is gone. -/
theorem swapRemove_perm (l : List α) {i : ℕ} (hi : i < l.length) :
    (l[i] :: swapRemove l i).Perm l := by
  rcases List.eq_nil_or_concat l with rfl | ⟨l, x, rfl⟩
  · exact absurd hi (by simp)
  · simp only [List.concat_eq_append] at hi ⊢
    rw [swapRemove_snoc]
    by_cases hlt : i < l.length
    · rw [List.getElem_append_left hlt]
      calc l[i] :: l.set i x
          _ ~ l[i] :: x :: l.eraseIdx i := (List.set_perm_cons_eraseIdx hlt x).cons _
          _ ~ x :: l[i] :: l.eraseIdx i := List.Perm.swap ..
          _ ~ x :: l := (List.getElem_cons_eraseIdx_perm hlt).cons _
          _ ~ l ++ [x] := (List.perm_append_singleton x l).symm
    · have heq : i = l.length := by
        rw [List.length_append, List.length_singleton] at hi
        omega
      subst heq
      rw [List.getElem_concat_length rfl, List.set_eq_of_length_le (Nat.le_refl _)]
      exact (List.perm_append_singleton x l).symm

/-- A pass over `orig` that has come to position `i` of what is left, `l`: it has
visited `visited`, and removed `removed` of them. -/
structure Pass (orig l : List α) (i : ℕ) (visited removed : List α) : Prop where
  bound : i ≤ l.length
  all : (l ++ removed).Perm orig
  seen : (l.take i ++ removed).Perm visited

namespace Pass

variable {orig l visited removed : List α} {i : ℕ}

theorem start (l : List α) : Pass l l 0 [] [] where
  bound := Nat.zero_le _
  all := by rw [List.append_nil]
  seen := by simp

/-- The element at `i` stays. -/
theorem keep (h : Pass orig l i visited removed) (hi : i < l.length) :
    Pass orig l (i + 1) (visited ++ [l[i]]) removed where
  bound := hi
  all := h.all
  seen := by
    rw [List.take_succ_eq_append_getElem hi, List.append_assoc]
    calc l.take i ++ ([l[i]] ++ removed)
        _ ~ l.take i ++ (removed ++ [l[i]]) := List.perm_append_comm.append_left _
        _ ~ visited ++ [l[i]] := by
          rw [← List.append_assoc]
          exact h.seen.append_right _

/-- The element at `i` is removed, and another one has its place. -/
theorem remove (h : Pass orig l i visited removed) (hi : i < l.length) :
    Pass orig (swapRemove l i) i (visited ++ [l[i]]) (removed ++ [l[i]]) where
  bound := by
    have hlen := (swapRemove_perm l hi).length_eq
    rw [List.length_cons] at hlen
    omega
  all := by
    calc swapRemove l i ++ (removed ++ [l[i]])
        _ ~ swapRemove l i ++ ([l[i]] ++ removed) := List.perm_append_comm.append_left _
        _ ~ l[i] :: (swapRemove l i ++ removed) := List.perm_middle
        _ ~ l ++ removed := (swapRemove_perm l hi).append_right _
        _ ~ orig := h.all
  seen := by
    rw [take_swapRemove l hi, ← List.append_assoc]
    exact h.seen.append_right _

/-- At the end every element was visited once. -/
theorem done (h : Pass orig l i visited removed) (hi : l.length ≤ i) : visited.Perm orig := by
  have hseen := h.seen
  rw [List.take_of_length_le hi] at hseen
  exact hseen.symm.trans h.all

/-- Before the end none was visited twice. -/
theorem subperm (h : Pass orig l i visited removed) : visited.Subperm orig := by
  have hsub : (l.take i ++ removed).Subperm (l ++ removed) :=
    ((List.take_sublist i l).append_right removed).subperm
  exact (h.seen.symm.subperm.trans hsub).trans h.all.subperm

end Pass
