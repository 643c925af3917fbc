/-
Handles that are recycled with a new generation.

An allocator hands out handles.  `index` is what a handle refers to; a handle
starts as `seed i` for some index `i`, and comes back as `next x` when `x` is
released.  All handles there are, in the allocator's hands or out of them, form
its stock.

* `Stock R stock` — no index occurs twice, and every handle is the seed of its
  index, advanced once for each of the `R i` releases of that index so far; it
  survives new indices (`Stock.add`) and releases (`Stock.release`);
* `releases` — the number of releases of an index in a list of events;
* `eq_iff_dvd` — if the generations repeat after `M` releases, two handles of one
  index are equal exactly if `M` divides the number of releases between them.
-/
import TradingPlatform.Lib.Custody
import Mathlib.Data.Nat.ModEq
import Mathlib.Logic.Function.Iterate

/-- What a user of an allocator sees of it. -/
inductive AllocEvent (α : Type*)
  | acquired (x : α)
  | released (x : α)
  | internal

namespace Recycle

variable {α : Type*} (index : α → ℕ) (next : α → α) (seed : ℕ → α)

/-- The event is a release of index `i`. -/
def isRelease (i : ℕ) : AllocEvent α → Bool
  | .acquired _ => false
  | .released x => decide (index x = i)
  | .internal => false

/-- The number of releases of index `i`. -/
def releases (i : ℕ) (es : List (AllocEvent α)) : ℕ := es.countP (isRelease index i)

@[simp] theorem releases_nil (i : ℕ) : releases index i [] = 0 := rfl

theorem releases_append (i : ℕ) (es es' : List (AllocEvent α)) :
    releases index i (es ++ es') = releases index i es + releases index i es' :=
  List.countP_append

theorem releases_cons (i : ℕ) (e : AllocEvent α) (es : List (AllocEvent α)) :
    releases index i (e :: es) = releases index i es + if isRelease index i e then 1 else 0 :=
  List.countP_cons

/-- An acquisition releases nothing. -/
theorem releases_append_acquired (i : ℕ) (es es' : List (AllocEvent α)) (x : α) :
    releases index i (es ++ .acquired x :: es') = releases index i es + releases index i es' := by
  rw [releases_append, releases_cons]
  rfl

theorem releases_eq_zero {index : α → ℕ} {i : ℕ} {es : List (AllocEvent α)}
    (h : ∀ x, .released x ∈ es → index x ≠ i) : releases index i es = 0 := by
  rw [releases, List.countP_eq_zero]
  intro e he hrel
  cases e with
  | acquired x => exact Bool.noConfusion hrel
  | released x => exact h x he (of_decide_eq_true hrel)
  | internal => exact Bool.noConfusion hrel

theorem releases_concat_of_not {index : α → ℕ} {i : ℕ} {e : AllocEvent α}
    (he : isRelease index i e = false) (es : List (AllocEvent α)) :
    releases index i (es ++ [e]) = releases index i es := by
  rw [releases_append, releases_cons, he, releases_nil, if_neg Bool.false_ne_true,
    Nat.add_zero]

/-- A release counts for its own index and for no other. -/
theorem releases_concat_released (i : ℕ) (es : List (AllocEvent α)) (x : α) :
    releases index i (es ++ [.released x]) =
      Function.update (fun i => releases index i es) (index x)
        (releases index (index x) es + 1) i := by
  rw [releases_append, releases_cons, releases_nil, isRelease, Nat.zero_add]
  by_cases hi : i = index x
  · subst hi
    rw [Function.update_self, if_pos (decide_eq_true rfl)]
  · have hne : ¬decide (index x = i) = true := by
      rw [decide_eq_true_eq]
      exact fun hc => hi hc.symm
    rw [Function.update_of_ne hi, if_neg hne, Nat.add_zero]

/-- The handle of index `i` after `r` releases. -/
def aged (r i : ℕ) : α := next^[r] (seed i)

theorem aged_zero (i : ℕ) : aged next seed 0 i = seed i := rfl

theorem aged_succ (r i : ℕ) : aged next seed (r + 1) i = next (aged next seed r i) :=
  Function.iterate_succ_apply' next r (seed i)

/-- All handles there are, `R i` releases of each index `i` after the start. -/
structure Stock (R : ℕ → ℕ) (stock : Multiset α) : Prop where
  custody : Custody index (fun x => x = aged next seed (R (index x)) (index x)) stock
  known : ∀ i, R i ≠ 0 → i ∈ stock.map index

namespace Stock

variable {index next seed} {R : ℕ → ℕ} {stock rest : Multiset α} {x : α}

theorem zero : Stock index next seed (fun _ => 0) 0 where
  custody := Custody.zero
  known _ hi := absurd rfl hi

/-- A new index starts with its seed. -/
theorem add (h : Stock index next seed R stock) {i : ℕ} (hseed : index (seed i) = i)
    (hnew : i ∉ stock.map index) : Stock index next seed R (seed i ::ₘ stock) where
  custody := by
    refine h.custody.add (by rw [hseed]; exact hnew) ?_
    -- an index that was released before is in the stock
    have hzero : R i = 0 := by
      by_contra hne
      exact hnew (h.known i hne)
    rw [hseed, hzero, aged_zero]
  known j hj := by
    rw [Multiset.map_cons]
    exact Multiset.mem_cons_of_mem (h.known j hj)

theorem addAll (h : Stock index next seed R stock) {is : List ℕ} (hnd : is.Nodup)
    (hseed : ∀ i ∈ is, index (seed i) = i) (hnew : ∀ i ∈ is, i ∉ stock.map index) :
    Stock index next seed R (↑(is.map seed) + stock) := by
  induction is with
  | nil =>
    rw [List.map_nil, Multiset.coe_nil, Multiset.zero_add]
    exact h
  | cons i is ih =>
    rw [List.nodup_cons] at hnd
    have hrest := ih hnd.2 (fun j hj => hseed j (List.mem_cons_of_mem i hj))
      (fun j hj => hnew j (List.mem_cons_of_mem i hj))
    rw [List.map_cons, ← Multiset.cons_coe, Multiset.cons_add]
    refine hrest.add (hseed i List.mem_cons_self) ?_
    rw [Multiset.map_add, Multiset.mem_add, not_or]
    refine ⟨?_, hnew i List.mem_cons_self⟩
    rw [Multiset.map_coe, Multiset.mem_coe, List.map_map]
    intro hc
    obtain ⟨j, hj, hij⟩ := List.mem_map.1 hc
    rw [Function.comp_apply, hseed j (List.mem_cons_of_mem i hj)] at hij
    exact hnd.1 (hij ▸ hj)

/-- A released handle comes back as the next one of its index. -/
theorem release (h : Stock index next seed R (x ::ₘ rest)) (hnext : index (next x) = index x) :
    Stock index next seed (Function.update R (index x) (R (index x) + 1)) (next x ::ₘ rest) where
  custody := by
    refine h.custody.move hnext ?_ ?_
    · rw [hnext, Function.update_self, aged_succ, ← h.custody.head]
    · intro y hne hy
      rw [Function.update_of_ne hne]
      exact hy
  known i hi := by
    rw [Multiset.map_cons, hnext, ← Multiset.map_cons]
    by_cases hix : i = index x
    · rw [hix]
      exact Multiset.mem_map_of_mem index (Multiset.mem_cons_self x rest)
    · rw [Function.update_of_ne hix] at hi
      exact h.known i hi

end Stock

variable {next seed}

/-- The period decides which generations of an index are equal. -/
theorem eq_iff_dvd {M i : ℕ}
    (hper : ∀ r r', aged next seed r i = aged next seed r' i ↔ r ≡ r' [MOD M]) (r k : ℕ) :
    aged next seed r i = aged next seed (r + k) i ↔ M ∣ k := by
  rw [hper, Nat.modEq_iff_dvd' (Nat.le_add_right r k), Nat.add_sub_cancel_left]

end Recycle
