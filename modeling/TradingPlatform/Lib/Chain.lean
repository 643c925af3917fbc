/-
Intrusive doubly linked lists in a pool of nodes.

A pool gives every node index a `next` and a `prev` index, with `0` for "no
node".  `Linked next prev p xs n` says that the indices `xs` are linked in
this order, entered from `p` and left to `n`; `Chain next prev head tail xs`
says that `head` and `tail` delimit exactly the list `xs`, without repetition.

Two operations are described by what they do to the links, so that they apply
to any way of writing the updates:

* `Chain.append` — linking a fresh node behind the tail;
* `Chain.remove` — unlinking a node from any place (the head included).

`walk` reads a chain from its head, and `Chain.walk_eq` says it reads `xs`.
-/
import Mathlib.Data.List.Nodup
import Mathlib.Tactic.Common

variable {α : Type*}

theorem List.headD_mem_of_ne_nil {p : α} {xs : List α} (hne : xs ≠ []) : xs.headD p ∈ xs := by
  cases xs with
  | nil => exact absurd rfl hne
  | cons x xs => exact List.mem_cons_self

theorem List.getLastD_mem_of_ne_nil {p : α} {xs : List α} (hne : xs ≠ []) :
    xs.getLastD p ∈ xs := by
  cases xs with
  | nil => exact absurd rfl hne
  | cons x xs =>
    rw [List.getLastD_cons]
    exact List.getLastD_mem_cons

variable [Zero α]

/-- The indices `xs` are doubly linked in this order: `p` stands before the
first of them and `n` behind the last. -/
def Linked (next prev : α → α) : α → List α → α → Prop
  | _, [], _ => True
  | p, i :: rest, n => i ≠ 0 ∧ prev i = p ∧ next i = rest.headD n ∧ Linked next prev i rest n

/-- `head` and `tail` delimit the doubly linked list `xs`. -/
structure Chain (next prev : α → α) (head tail : α) (xs : List α) : Prop where
  linked : Linked next prev 0 xs 0
  head_eq : head = xs.headD 0
  tail_eq : tail = xs.getLastD 0
  nodup : xs.Nodup

/-- The indices met from `i` by following `next` for at most `n` steps. -/
def walk [DecidableEq α] (next : α → α) : ℕ → α → List α
  | 0, _ => []
  | n + 1, i => if i = 0 then [] else i :: walk next n (next i)

namespace Linked

variable {next prev next' prev' : α → α} {p n n' p' i j : α} {xs ys zs : List α}

theorem append_iff : Linked next prev p (ys ++ zs) n ↔
    Linked next prev p ys (zs.headD n) ∧ Linked next prev (ys.getLastD p) zs n := by
  induction ys generalizing p with
  | nil => simp [Linked]
  | cons y ys ih =>
    have hhead : (ys ++ zs).headD n = ys.headD (zs.headD n) := by
      cases ys <;> rfl
    have hlast : (y :: ys).getLastD p = ys.getLastD y := by
      rw [List.getLastD_cons]
    rw [List.cons_append, Linked, Linked, ih, hhead, hlast]
    tauto

theorem ne_zero (h : Linked next prev p xs n) (hi : i ∈ xs) : i ≠ 0 := by
  induction xs generalizing p with
  | nil => exact absurd hi List.not_mem_nil
  | cons x xs ih =>
    rcases List.mem_cons.mp hi with rfl | hi
    · exact h.1
    · exact ih h.2.2.2 hi

theorem headD_eq_zero_iff (h : Linked next prev p xs n) : xs.headD 0 = 0 ↔ xs = [] := by
  constructor
  · intro h0
    by_contra hne
    exact h.ne_zero (List.headD_mem_of_ne_nil hne) h0
  · rintro rfl
    rfl

theorem getLastD_eq_zero_iff (h : Linked next prev p xs n) : xs.getLastD 0 = 0 ↔ xs = [] := by
  constructor
  · intro h0
    by_contra hne
    exact h.ne_zero (List.getLastD_mem_of_ne_nil hne) h0
  · rintro rfl
    rfl

theorem congr (h : Linked next prev p xs n) (hn : ∀ j ∈ xs, next' j = next j)
    (hp : ∀ j ∈ xs, prev' j = prev j) : Linked next' prev' p xs n := by
  induction xs generalizing p with
  | nil => trivial
  | cons x xs ih =>
    obtain ⟨h0, h1, h2, h3⟩ := h
    refine ⟨h0, ?_, ?_, ih h3 (fun j hj => hn j (List.mem_cons_of_mem x hj))
      (fun j hj => hp j (List.mem_cons_of_mem x hj))⟩
    · rw [hp x List.mem_cons_self, h1]
    · rw [hn x List.mem_cons_self, h2]

/-- Redirecting the `next` of the last index changes only where the list is
left to. -/
theorem relink_end [DecidableEq α] (h : Linked next prev p xs n) (hd : xs.Nodup)
    (hn : ∀ j ∈ xs, next' j = if j = xs.getLastD 0 then n' else next j)
    (hp : ∀ j ∈ xs, prev' j = prev j) : Linked next' prev' p xs n' := by
  induction xs generalizing p with
  | nil => trivial
  | cons x xs ih =>
    obtain ⟨h0, h1, h2, h3⟩ := h
    have hx := hn x List.mem_cons_self
    refine ⟨h0, by rw [hp x List.mem_cons_self, h1], ?_, ?_⟩
    · cases xs with
      | nil =>
        rw [List.getLastD_cons, List.getLastD_nil, if_pos rfl] at hx
        exact hx
      | cons y ys =>
        -- the last index stands behind `x`, which does not come again
        have hne : x ≠ (x :: y :: ys).getLastD 0 := by
          rw [List.getLastD_cons]
          intro hc
          exact (List.nodup_cons.mp hd).1 (hc ▸ List.getLastD_mem_of_ne_nil (List.cons_ne_nil y ys))
        rw [if_neg hne] at hx
        rw [hx, h2]
        rfl
    · refine ih h3 (List.nodup_cons.mp hd).2 ?_ (fun j hj => hp j (List.mem_cons_of_mem x hj))
      intro j hj
      rw [hn j (List.mem_cons_of_mem x hj)]
      cases xs with
      | nil => exact absurd hj List.not_mem_nil
      | cons y ys => simp only [List.getLastD_cons]

/-- Redirecting the `prev` of the first index changes only where the list is
entered from. -/
theorem relink_start [DecidableEq α] (h : Linked next prev p xs n) (hd : xs.Nodup)
    (hn : ∀ j ∈ xs, next' j = next j)
    (hp : ∀ j ∈ xs, prev' j = if j = xs.headD 0 then p' else prev j) :
    Linked next' prev' p' xs n := by
  cases xs with
  | nil => trivial
  | cons x xs =>
    obtain ⟨h0, _, h2, h3⟩ := h
    have hx := hp x List.mem_cons_self
    rw [List.headD_cons, if_pos rfl] at hx
    refine ⟨h0, hx, by rw [hn x List.mem_cons_self, h2], ?_⟩
    refine h3.congr (fun j hj => hn j (List.mem_cons_of_mem x hj)) (fun j hj => ?_)
    have hne : j ≠ x := by
      rintro rfl
      exact (List.nodup_cons.mp hd).1 hj
    rw [hp j (List.mem_cons_of_mem x hj), List.headD_cons, if_neg hne]

/-- Every link inside the list has its inverse: behind a member stands either
the exit or a member whose `prev` points back. -/
theorem prev_next (h : Linked next prev p xs n) (hi : i ∈ xs) :
    (next i = n ∧ i = xs.getLastD p) ∨ (next i ∈ xs ∧ prev (next i) = i) := by
  induction xs generalizing p with
  | nil => exact absurd hi List.not_mem_nil
  | cons x xs ih =>
    obtain ⟨_, _, h2, h3⟩ := h
    rw [List.getLastD_cons]
    rcases List.mem_cons.mp hi with rfl | hi
    · cases xs with
      | nil => exact .inl ⟨h2, rfl⟩
      | cons y ys =>
        rw [List.headD_cons] at h2
        rw [h2]
        exact .inr ⟨by simp, h3.2.1⟩
    · rcases ih h3 hi with ⟨hn, hl⟩ | ⟨hm, hb⟩
      · exact .inl ⟨hn, hl⟩
      · exact .inr ⟨List.mem_cons_of_mem x hm, hb⟩

theorem next_prev (h : Linked next prev p xs n) (hi : i ∈ xs) :
    (prev i = p ∧ i = xs.headD n) ∨ (prev i ∈ xs ∧ next (prev i) = i) := by
  induction xs generalizing p with
  | nil => exact absurd hi List.not_mem_nil
  | cons x xs ih =>
    obtain ⟨_, h1, h2, h3⟩ := h
    rcases List.mem_cons.mp hi with rfl | hi
    · exact .inl ⟨h1, rfl⟩
    · rcases ih h3 hi with ⟨hp, hh⟩ | ⟨hm, hb⟩
      · refine .inr ⟨hp ▸ List.mem_cons_self, ?_⟩
        rw [hp, h2, hh]
      · exact .inr ⟨List.mem_cons_of_mem x hm, hb⟩

end Linked

namespace Chain

variable {next prev next' prev' : α → α} {h t i : α} {xs ys zs : List α}

theorem nil (next prev : α → α) : Chain next prev 0 0 [] :=
  ⟨trivial, rfl, rfl, List.nodup_nil⟩

theorem head_eq_zero_iff (hc : Chain next prev h t xs) : h = 0 ↔ xs = [] := by
  rw [hc.head_eq]
  exact hc.linked.headD_eq_zero_iff

theorem tail_mem (hc : Chain next prev h t xs) (hne : xs ≠ []) : t ∈ xs := by
  rw [hc.tail_eq]
  exact List.getLastD_mem_of_ne_nil hne

theorem tail_eq_zero_iff (hc : Chain next prev h t xs) : t = 0 ↔ xs = [] := by
  rw [hc.tail_eq]
  exact hc.linked.getLastD_eq_zero_iff

theorem congr (hc : Chain next prev h t xs) (hn : ∀ j ∈ xs, next' j = next j)
    (hp : ∀ j ∈ xs, prev' j = prev j) : Chain next' prev' h t xs :=
  ⟨hc.linked.congr hn hp, hc.head_eq, hc.tail_eq, hc.nodup⟩

theorem next_head (hc : Chain next prev h t (i :: xs)) : next i = xs.headD 0 :=
  hc.linked.2.2.1

variable [DecidableEq α]

/-- Linking a fresh node behind the tail appends it. -/
theorem append (hc : Chain next prev h t xs) (hi : i ∉ xs) (hi0 : i ≠ 0)
    (hni : next' i = 0) (hpi : prev' i = t)
    (hn : ∀ j ∈ xs, next' j = if j = t then i else next j)
    (hp : ∀ j ∈ xs, prev' j = prev j) :
    Chain next' prev' (if t = 0 then i else h) i (xs ++ [i]) := by
  refine ⟨Linked.append_iff.mpr ⟨?_, hi0, ?_, hni, trivial⟩, ?_, ?_, ?_⟩
  · refine hc.linked.relink_end hc.nodup ?_ hp
    intro j hj
    rw [hn j hj, hc.tail_eq]
    rfl
  · rw [hpi, hc.tail_eq]
  · by_cases ht : t = 0
    · obtain rfl := hc.tail_eq_zero_iff.mp ht
      rw [if_pos ht]
      rfl
    · have hne : xs ≠ [] := fun hxs => ht (hc.tail_eq_zero_iff.mpr hxs)
      rw [if_neg ht, hc.head_eq]
      cases xs with
      | nil => exact absurd rfl hne
      | cons x xs => rfl
  · simp [List.getLastD_eq_getLast?]
  · exact List.nodup_append.mpr ⟨hc.nodup, List.nodup_singleton i, by
      rintro a ha b hb rfl
      exact hi (List.mem_singleton.mp hb ▸ ha)⟩

/-- Unlinking a node joins what stands before it to what stands behind it. -/
theorem remove (hc : Chain next prev h t (ys ++ i :: zs))
    (hn : ∀ j ∈ ys ++ zs, next' j = if j = prev i then next i else next j)
    (hp : ∀ j ∈ ys ++ zs, prev' j = if j = next i then prev i else prev j) :
    Chain next' prev' (if prev i = 0 then next i else h)
      (if next i = 0 then prev i else t) (ys ++ zs) := by
  obtain ⟨hys, hi0, hprev, hnext, hzs⟩ := Linked.append_iff.mp hc.linked
  obtain ⟨hdy, hdiz, hdisj⟩ := List.nodup_append.mp hc.nodup
  obtain ⟨hiz, hdz⟩ := List.nodup_cons.mp hdiz
  have hprev0 : prev i = 0 ↔ ys = [] := by
    rw [hprev]
    exact hys.getLastD_eq_zero_iff
  have hnext0 : next i = 0 ↔ zs = [] := by
    rw [hnext]
    exact hzs.headD_eq_zero_iff
  -- no node before `i` follows it, and none behind `i` precedes it
  have hny : ∀ j ∈ ys, j ≠ next i := by
    rintro j hj rfl
    by_cases hz : zs = []
    · exact hys.ne_zero hj (hnext0.mpr hz)
    · exact hdisj _ hj _ (List.mem_cons_of_mem i (hnext ▸ List.headD_mem_of_ne_nil hz)) rfl
  have hpz : ∀ j ∈ zs, j ≠ prev i := by
    rintro j hj rfl
    by_cases hy : ys = []
    · exact hzs.ne_zero hj (hprev0.mpr hy)
    · exact hdisj _ (hprev ▸ List.getLastD_mem_of_ne_nil hy) _ (List.mem_cons_of_mem i hj) rfl
  refine ⟨Linked.append_iff.mpr ⟨?_, ?_⟩, ?_, ?_, ?_⟩
  · -- the part before the node now leaves to the node's `next`
    refine hys.relink_end hdy (fun j hj => ?_) (fun j hj => ?_)
    · rw [hn j (List.mem_append_left zs hj), hprev, hnext]
    · rw [hp j (List.mem_append_left zs hj), if_neg (hny j hj)]
  · -- the part behind it is entered from the node's `prev`
    refine hzs.relink_start hdz (fun j hj => ?_) (fun j hj => ?_)
    · rw [hn j (List.mem_append_right ys hj), if_neg (hpz j hj)]
    · rw [hp j (List.mem_append_right ys hj), hnext, hprev]
  · by_cases h0 : prev i = 0
    · rw [if_pos h0, hprev0.mp h0]
      exact hnext
    · rw [if_neg h0, hc.head_eq]
      cases ys with
      | nil => exact absurd (hprev0.mpr rfl) h0
      | cons y ys => rfl
  · by_cases h0 : next i = 0
    · rw [if_pos h0, hnext0.mp h0, List.append_nil, hprev]
    · rw [if_neg h0, hc.tail_eq]
      cases zs with
      | nil => exact absurd (hnext0.mpr rfl) h0
      | cons z zs => simp [List.getLastD_eq_getLast?, List.getLast?_append]
  · exact hc.nodup.sublist (List.Sublist.append_left (List.sublist_cons_self i zs) ys)

theorem linked_walk {p : α} (hl : Linked next prev p xs 0) :
    ∀ {n : ℕ}, xs.length ≤ n → walk next n (xs.headD 0) = xs := by
  induction xs generalizing p with
  | nil =>
    intro n _
    cases n with
    | zero => rfl
    | succ n => simp [walk]
  | cons x xs ih =>
    intro n hn
    obtain ⟨n, rfl⟩ : ∃ m, n = m + 1 := ⟨n - 1, by simp at hn; omega⟩
    rw [List.headD_cons, walk, if_neg hl.1, hl.2.2.1, ih hl.2.2.2 (by simpa using hn)]

/-- Walking a chain from its head reads exactly its list. -/
theorem walk_eq (hc : Chain next prev h t xs) {n : ℕ} (hn : xs.length ≤ n) :
    walk next n h = xs := by
  rw [hc.head_eq]
  exact linked_walk hc.linked hn

end Chain
