/-
Array heaps, as the algorithms of a standard library keep them.

`IsHeap comp l` is what `std::is_heap` checks.  `HeapAlgorithms` has the two
algorithms with what their documentation promises, and nothing about how they
order elements that compare equal.

* `IsHeap.top` — the first element of a heap is a largest one;
* `IsHeap.replace` — the first element may be changed as long as it compares as
  before;
* `HeapAlgorithms.sorting` — algorithms that keep the array sorted.
-/
import Mathlib.Data.List.Sort
import Mathlib.Tactic.Common

/-- A strict weak order: what the algorithms require of a comparison. -/
structure StrictWeak {α : Type*} (comp : α → α → Bool) : Prop where
  asymm : ∀ {a b}, comp a b = true → comp b a = false
  trans : ∀ {a b c}, comp a b = false → comp b c = false → comp a c = false

/-- No element is smaller than one of its two children. -/
def IsHeap {α : Type*} (comp : α → α → Bool) (l : List α) : Prop :=
  ∀ i a b, 0 < i → l[(i - 1) / 2]? = some a → l[i]? = some b → comp a b = false

namespace IsHeap

variable {α : Type*} {comp : α → α → Bool} {x y : α} {l : List α}

theorem nil : IsHeap comp ([] : List α) := by
  intro i a b _ ha
  cases ha

/-- Every element is below the first one, over its parents. -/
theorem top (h : IsHeap comp (x :: l)) (hcomp : StrictWeak comp) (hy : y ∈ x :: l) :
    comp x y = false := by
  obtain ⟨i, hi⟩ := List.mem_iff_getElem?.1 hy
  induction i using Nat.strong_induction_on generalizing y with
  | _ i ih =>
    rcases Nat.eq_zero_or_pos i with rfl | hpos
    · obtain rfl := Option.some_inj.1 hi
      by_contra hx
      have hxx : comp x x = true := by simpa using hx
      exact hx (hcomp.asymm hxx)
    · have hlt := (List.getElem?_eq_some_iff.1 hi).1
      have hparent := List.getElem?_eq_getElem (show (i - 1) / 2 < (x :: l).length by omega)
      exact hcomp.trans (ih _ (by omega) (List.getElem_mem _) hparent) (h i _ _ hpos hparent hi)

theorem replace (h : IsHeap comp (x :: l)) (hxy : ∀ z, comp y z = comp x z) :
    IsHeap comp (y :: l) := by
  intro i a b hi ha hb
  obtain ⟨k, rfl⟩ := Nat.exists_eq_succ_of_ne_zero (Nat.pos_iff_ne_zero.1 hi)
  rw [List.getElem?_cons_succ] at hb
  have hb' : (x :: l)[k + 1]? = some b := by
    rw [List.getElem?_cons_succ]
    exact hb
  cases hj : (k + 1 - 1) / 2 with
  | zero =>
    rw [hj, List.getElem?_cons_zero, Option.some_inj] at ha
    rw [← ha, hxy]
    exact h (k + 1) x b hi (by rw [hj]; rfl) hb'
  | succ j =>
    rw [hj, List.getElem?_cons_succ] at ha
    exact h (k + 1) a b hi (by rw [hj, List.getElem?_cons_succ]; exact ha) hb'

theorem of_sorted (h : l.Pairwise fun a b => comp a b = false) : IsHeap comp l := by
  intro i a b hi ha hb
  obtain ⟨ha', rfl⟩ := List.getElem?_eq_some_iff.1 ha
  obtain ⟨hb', rfl⟩ := List.getElem?_eq_some_iff.1 hb
  exact List.pairwise_iff_getElem.1 h _ _ ha' hb' (by omega)

end IsHeap

/-- `push_heap` and `pop_heap`, for any comparison: the last element joins the heap in
front of it, and the first one moves behind what is then a heap. -/
structure HeapAlgorithms (α : Type*) where
  pushHeap : (α → α → Bool) → List α → List α
  popHeap : (α → α → Bool) → List α → List α
  push_perm : ∀ {comp l x}, StrictWeak comp → IsHeap comp l →
    (pushHeap comp (l ++ [x])).Perm (l ++ [x])
  push_isHeap : ∀ {comp l x}, StrictWeak comp → IsHeap comp l →
    IsHeap comp (pushHeap comp (l ++ [x]))
  pop_spec : ∀ {comp x l}, StrictWeak comp → IsHeap comp (x :: l) →
    ∃ l', popHeap comp (x :: l) = l' ++ [x] ∧ l'.Perm l ∧ IsHeap comp l'

namespace HeapAlgorithms

variable {α : Type*}

/-- The largest first. -/
def sort (comp : α → α → Bool) (l : List α) : List α := l.mergeSort fun a b => !comp a b

theorem sort_isHeap {comp : α → α → Bool} (hcomp : StrictWeak comp) (l : List α) :
    IsHeap comp (sort comp l) := by
  refine IsHeap.of_sorted ((List.pairwise_mergeSort ?_ ?_ l).imp fun h => by simpa using h)
  · intro a b c hab hbc
    simp only [Bool.not_eq_true'] at hab hbc ⊢
    exact hcomp.trans hab hbc
  · intro a b
    cases hab : comp a b with
    | false => rfl
    | true => simp [hcomp.asymm hab]

/-- A sorted array is a heap. -/
def sorting (α : Type*) : HeapAlgorithms α where
  pushHeap comp l := sort comp l
  popHeap comp l :=
    match l with
    | [] => []
    | x :: l => sort comp l ++ [x]
  push_perm _ _ := List.mergeSort_perm _ _
  push_isHeap hcomp _ := sort_isHeap hcomp _
  pop_spec hcomp _ := ⟨_, rfl, List.mergeSort_perm _ _, sort_isHeap hcomp _⟩

end HeapAlgorithms
