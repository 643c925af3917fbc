/-
Ring buffers, addressed by positions that do not wrap.

A ring of `cap` cells is read at `k % cap`.  `window buf cap C T` lists what
stands at the positions `C, …, T - 1`; as long as these are fewer than `cap`,
a write at position `T` does not disturb them (`window_update`).  `entries` is
the same list computed from the wrapped positions the ring really stores
(`entries_eq`).

Blocks of `s` cells that follow each other fit into the ring without crossing
its end if `s` divides `cap` (`block_le`); otherwise the block at `cap / s` is the
first to cross it (`block_overruns`).

What is written into a ring is a log, a list that grows at its end (`old_or_new`);
what has been read of it is a prefix of the log (`read_next`).
-/
import Mathlib.Data.List.Range
import Mathlib.Logic.Function.Basic
import Mathlib.Tactic.Common

namespace Ring

variable {α : Type*} {buf : ℕ → α} {cap C T : ℕ}

/-- What stands at the positions `C, …, T - 1`. -/
def window (buf : ℕ → α) (cap C T : ℕ) : List α :=
  (List.range' C (T - C)).map fun k => buf (k % cap)

/-- The number of cells from `h` to `t`, both wrapped. -/
def span (cap h t : ℕ) : ℕ := (t + cap - h) % cap

/-- What stands in the cells from `h` up to `t`, both wrapped. -/
def entries (buf : ℕ → α) (cap h t : ℕ) : List α :=
  (List.range (span cap h t)).map fun k => buf ((h + k) % cap)

@[simp] theorem length_window : (window buf cap C T).length = T - C := by
  rw [window, List.length_map, List.length_range']

@[simp] theorem window_self : window buf cap C C = [] := by
  rw [window, Nat.sub_self]
  rfl

theorem window_pop (h : C < T) :
    window buf cap C T = buf (C % cap) :: window buf cap (C + 1) T := by
  rw [window, show T - C = T - (C + 1) + 1 by omega, List.range'_succ, List.map_cons]
  rfl

theorem window_push (h : C ≤ T) :
    window buf cap C (T + 1) = window buf cap C T ++ [buf (T % cap)] := by
  rw [window, show T + 1 - C = T - C + 1 by omega, List.range'_concat, List.map_append,
    List.map_singleton, show C + 1 * (T - C) = T by omega]
  rfl

theorem span_eq (h : C ≤ T) (hlt : T < C + cap) : span cap (C % cap) (T % cap) = T - C := by
  obtain ⟨d, rfl⟩ := Nat.exists_eq_add_of_le h
  have hd : d < cap := by omega
  have hC : C % cap < cap := Nat.mod_lt _ (by omega)
  rw [span, Nat.add_sub_cancel_left, Nat.add_mod, Nat.mod_eq_of_lt hd]
  -- the end has wrapped once or not at all
  by_cases hw : C % cap + d < cap
  · rw [Nat.mod_eq_of_lt hw, show C % cap + d + cap - C % cap = d + cap by omega,
      Nat.add_mod_right, Nat.mod_eq_of_lt hd]
  · have hsub : (C % cap + d) % cap = C % cap + d - cap := by
      rw [Nat.mod_eq_sub_mod (by omega), Nat.mod_eq_of_lt (by omega)]
    rw [hsub, show C % cap + d - cap + cap - C % cap = d by omega, Nat.mod_eq_of_lt hd]

/-- Fewer than `cap` positions apart, different positions are different cells. -/
theorem mod_inj (h : C ≤ T) (hlt : T < C + cap) (heq : C % cap = T % cap) : C = T := by
  have hspan := span_eq h hlt
  rw [heq, span, Nat.add_sub_cancel_left, Nat.mod_self] at hspan
  omega

/-- Writing at the end of a window leaves the window alone. -/
theorem window_update (hlt : T < C + cap) (x : α) :
    window (Function.update buf (T % cap) x) cap C T = window buf cap C T := by
  refine List.map_congr_left fun k hk => ?_
  rw [List.mem_range'_1] at hk
  refine Function.update_of_ne (fun heq => ?_) _ _
  have := mod_inj (by omega) (by omega) heq
  omega

/-- The wrapped positions give the same list. -/
theorem entries_eq (h : C ≤ T) (hlt : T < C + cap) :
    entries buf cap (C % cap) (T % cap) = window buf cap C T := by
  rw [entries, window, span_eq h hlt, List.range'_eq_map_range, List.map_map]
  refine List.map_congr_left fun k _ => ?_
  rw [Function.comp_apply, Nat.mod_add_mod]

/-! ### What has been written and read -/

/-- An entry of a log with a new entry `x` is an old one, or it is `x`. -/
theorem old_or_new {xs : List α} {x y : α} {i : ℕ} (h : (xs ++ [x])[i]? = some y) :
    xs[i]? = some y ∨ i = xs.length ∧ y = x := by
  by_cases hlt : i < xs.length
  · rw [List.getElem?_append_left hlt] at h
    exact .inl h
  · have hle := (List.getElem?_eq_some_iff.1 h).1
    rw [List.length_append, List.length_singleton] at hle
    obtain rfl : i = xs.length := by omega
    rw [List.getElem?_concat_length, Option.some_inj] at h
    exact .inr ⟨rfl, h.symm⟩

/-- Reading the next entry of `ys` extends what has been read of it. -/
theorem read_next {xs ys : List α} {y : α} (h : xs <+: ys) (hy : ys[xs.length]? = some y) :
    xs ++ [y] <+: ys := by
  obtain ⟨hlt, hget⟩ := List.getElem?_eq_some_iff.1 hy
  have htake := List.take_prefix (xs.length + 1) ys
  rw [List.take_succ_eq_append_getElem hlt, ← List.prefix_iff_eq_take.1 h, hget] at htake
  exact htake

/-! ### Blocks -/

section

variable {s : ℕ}

theorem block_le (hdvd : s ∣ cap) (hcap : 0 < cap) (i : ℕ) : i * s % cap + s ≤ cap := by
  obtain ⟨c, rfl⟩ := hdvd
  have hc : 0 < c := Nat.pos_of_mul_pos_left hcap
  rw [Nat.mul_comm i s, Nat.mul_mod_mul_left, ← Nat.mul_succ]
  exact Nat.mul_le_mul_left s (Nat.mod_lt i hc)

/-- The cells of a block are the positions from its first one on. -/
theorem block_add (hdvd : s ∣ cap) (hcap : 0 < cap) (i : ℕ) {j : ℕ} (hj : j < s) :
    i * s % cap + j = (i * s + j) % cap := by
  have hle := block_le hdvd hcap i
  rw [Nat.add_mod, Nat.mod_eq_of_lt (show j < cap by omega),
    Nat.mod_eq_of_lt (show i * s % cap + j < cap by omega)]

theorem block_overruns (hs : 0 < s) (hdvd : ¬s ∣ cap) :
    cap / s * s < cap ∧ cap < cap / s * s + s := by
  have hmod : cap % s ≠ 0 := fun h => hdvd (Nat.dvd_of_mod_eq_zero h)
  have hlt := Nat.mod_lt cap hs
  have hdiv := Nat.div_add_mod cap s
  rw [Nat.mul_comm] at hdiv
  omega

end

end Ring
