/-
The pool of network buffers (`common/src/containers/buffer_pool.hpp`).

An index comes from the queue of released ones, or from a counter while there
are fresh ones.  Acquires that find the queue empty after the last fresh index
was handed out go on incrementing the counter, and it has 32 bits.

* `Inv.act` — while the counter has not wrapped, every index is held, released
  or queued once, and the fresh ones are new;
* `buffers_exclusive` — so no index that is held is handed out again, and there is
  room in the queue for every release;
* `buffer_shared` — after `2 ^ 32` failed attempts to pop, the first buffer is
  handed out a second time.

The queue is a bounded queue whose operations are atomic; a pop may also report
that it is empty while a push is in progress.  Threads are told apart by the step
they are at only: `fetching` of them have found the queue empty, and `pushing`
are the indices of the releases that have begun.
-/
import TradingPlatform.Lib.Machine
import Mathlib.Algebra.Group.Nat.Defs
import Mathlib.Data.List.Nodup
import Mathlib.Data.List.Perm.Subperm
import Mathlib.Data.Nat.Basic

namespace BufferPool

/-- `PoolSize`, a `uint32_t`. -/
structure PoolSize where
  val : ℕ
  pos : 0 < val
  lt : val < 2 ^ 32

/-- The default. -/
def PoolSize.standard : PoolSize := ⟨1024, by decide, by decide⟩

/-- The pool, the calls in progress and the indices that are out.  `fetches`
counts the increments of `nextFreeIdx_`, and `failed` are the releases that
were not taken back. -/
structure State where
  indexQueue : List UInt32
  nextFreeIdx : UInt32
  fetching : ℕ
  pushing : List UInt32
  held : List UInt32
  fetches : ℕ
  failed : List UInt32
deriving DecidableEq

def fresh : State := ⟨[], 0, 0, [], [], 0, []⟩

/-- The steps of `acquire` and `release`. -/
inductive Action
  | pop
  | popEmpty
  | fetchAdd
  | release (index : UInt32)
  | push (index : UInt32)
deriving DecidableEq

variable (P : PoolSize)

/-- The index a step hands out. -/
def acquired (s : State) : Action → Option UInt32
  | .pop => s.indexQueue.head?
  | .fetchAdd => if s.nextFreeIdx.toNat < P.val then some s.nextFreeIdx else none
  | _ => none

/-- One step; `none` where no thread is at it. -/
def State.act (s : State) : Action → Option State
  | .pop =>
    match s.indexQueue with
    | index :: rest => some { s with indexQueue := rest, held := index :: s.held }
    | [] => none
  | .popEmpty =>
    if s.indexQueue = [] ∨ s.pushing ≠ [] then some { s with fetching := s.fetching + 1 } else none
  | .fetchAdd =>
    if 0 < s.fetching then
      some { s with
        fetching := s.fetching - 1
        nextFreeIdx := s.nextFreeIdx + 1
        fetches := s.fetches + 1
        -- an index that is not below `PoolSize` is an exhausted pool
        held := if s.nextFreeIdx.toNat < P.val then s.nextFreeIdx :: s.held else s.held }
    else none
  | .release index =>
    if index ∈ s.held then
      some { s with held := s.held.erase index, pushing := index :: s.pushing }
    else none
  | .push index =>
    if index ∈ s.pushing then
      if s.indexQueue.length < P.val then
        some { s with
          pushing := s.pushing.erase index
          indexQueue := s.indexQueue ++ [index] }
      else
        some { s with
          pushing := s.pushing.erase index
          failed := index :: s.failed }
    else none

def pool : Machine State Action := .ofFun fresh (State.act P)

/-- The counter is incremented fewer than `2 ^ 32` times. -/
def FewFetches (s : State) (e : Action) : Prop := e = .fetchAdd → s.fetches < 2 ^ 32

/-! ### Where the indices are -/

/-- All indices that were handed out, each where it is now. -/
def State.known (s : State) : List UInt32 := s.held ++ (s.indexQueue ++ s.pushing)

/-- The invariant, as long as the counter has not wrapped. -/
structure Inv (s : State) : Prop where
  counter : s.nextFreeIdx = UInt32.ofNat s.fetches
  nodup : s.known.Nodup
  below : ∀ i ∈ s.known, i.toNat < P.val ∧ i.toNat < s.fetches
  failed : s.failed = []

theorem Inv.start : Inv P fresh where
  counter := rfl
  nodup := List.nodup_nil
  below _ hi := absurd hi List.not_mem_nil
  failed := rfl

variable {P}

/-- Distinct indices below `PoolSize` are at most `PoolSize`. -/
theorem length_le_of_below {l : List UInt32} (hl : l.Nodup) (hlt : ∀ i ∈ l, i.toNat < P.val) :
    l.length ≤ P.val := by
  have hmap : (l.map UInt32.toNat).Nodup := hl.map fun _ _ h => UInt32.toNat_inj.1 h
  have hsub : l.map UInt32.toNat ⊆ List.range P.val := by
    intro n hn
    obtain ⟨i, hi, rfl⟩ := List.mem_map.1 hn
    exact List.mem_range.2 (hlt i hi)
  have hle := (hmap.subperm hsub).length_le
  rwa [List.length_map, List.length_range] at hle

namespace Inv

variable {s s' : State}

theorem length_known_le (h : Inv P s) : s.known.length ≤ P.val :=
  length_le_of_below h.nodup fun i hi => (h.below i hi).1

/-- Indices that change places. -/
theorem of_perm (h : Inv P s) (hperm : s'.known.Perm s.known)
    (hnext : s'.nextFreeIdx = s.nextFreeIdx) (hfetches : s'.fetches = s.fetches)
    (hfailed : s'.failed = s.failed) : Inv P s' where
  counter := by rw [hnext, hfetches, h.counter]
  nodup := hperm.nodup_iff.2 h.nodup
  below i hi := by
    rw [hfetches]
    exact h.below i (hperm.subset hi)
  failed := hfailed.trans h.failed

/-- The counter gives an index that was never handed out. -/
theorem fresh_index (h : Inv P s) (hfew : s.fetches < 2 ^ 32) :
    s.nextFreeIdx.toNat = s.fetches ∧ s.nextFreeIdx ∉ s.known := by
  have hnat : s.nextFreeIdx.toNat = s.fetches := by
    rw [h.counter, UInt32.toNat_ofNat', Nat.mod_eq_of_lt hfew]
  refine ⟨hnat, fun hmem => ?_⟩
  have hlt := (h.below _ hmem).2
  omega

theorem fetchAdd (h : Inv P s) (hfew : s.fetches < 2 ^ 32)
    (hs : s.act P .fetchAdd = some s') : Inv P s' := by
  simp only [State.act, Option.ite_none_right_eq_some, Option.some.injEq] at hs
  obtain ⟨_, rfl⟩ := hs
  obtain ⟨hnat, hnew⟩ := h.fresh_index hfew
  have hcounter : s.nextFreeIdx + 1 = UInt32.ofNat (s.fetches + 1) := by
    rw [h.counter, UInt32.ofNat_add, UInt32.ofNat_one]
  have hbelow : ∀ i ∈ s.known, i.toNat < P.val ∧ i.toNat < s.fetches + 1 := fun i hi =>
    ⟨(h.below i hi).1, Nat.lt_succ_of_lt (h.below i hi).2⟩
  by_cases hlt : s.nextFreeIdx.toNat < P.val
  · refine ⟨hcounter, ?_, ?_, h.failed⟩
    · rw [State.known, if_pos hlt]
      exact List.nodup_cons.2 ⟨hnew, h.nodup⟩
    · intro i hi
      rw [State.known, if_pos hlt] at hi
      rcases List.mem_cons.1 hi with rfl | hi
      · exact ⟨hlt, by rw [hnat]; exact Nat.lt_succ_self _⟩
      · exact hbelow i hi
  · refine ⟨hcounter, ?_, ?_, h.failed⟩
    · rw [State.known, if_neg hlt]
      exact h.nodup
    · intro i hi
      rw [State.known, if_neg hlt] at hi
      exact hbelow i hi

/-- A release finds room, for the index it brings is one of `PoolSize`. -/
theorem push (h : Inv P s) {index : UInt32} (hs : s.act P (.push index) = some s') :
    Inv P s' := by
  simp only [State.act, Option.ite_none_right_eq_some] at hs
  obtain ⟨hmem, hs⟩ := hs
  have hroom : s.indexQueue.length < P.val := by
    have hle := h.length_known_le
    have hpos := List.length_pos_of_mem hmem
    rw [State.known, List.length_append, List.length_append] at hle
    omega
  rw [if_pos hroom, Option.some_inj] at hs
  obtain rfl := hs
  refine h.of_perm ?_ rfl rfl rfl
  show (s.held ++ (s.indexQueue ++ [index] ++ s.pushing.erase index)).Perm _
  refine List.Perm.append_left _ ?_
  rw [List.append_assoc]
  exact List.Perm.append_left _ (List.perm_cons_erase hmem).symm

theorem act (h : Inv P s) {e : Action} (hfew : FewFetches s e) (hs : s.act P e = some s') :
    Inv P s' := by
  cases e with
  | pop =>
    simp only [State.act] at hs
    split at hs
    · next index rest hq =>
      obtain rfl := Option.some_inj.1 hs
      refine h.of_perm ?_ rfl rfl rfl
      show (index :: (s.held ++ (rest ++ s.pushing))).Perm (s.held ++ (s.indexQueue ++ s.pushing))
      rw [hq]
      exact List.perm_middle.symm
    · cases hs
  | popEmpty =>
    simp only [State.act, Option.ite_none_right_eq_some, Option.some.injEq] at hs
    obtain ⟨_, rfl⟩ := hs
    exact h.of_perm (List.Perm.refl _) rfl rfl rfl
  | fetchAdd => exact h.fetchAdd (hfew rfl) hs
  | release index =>
    simp only [State.act, Option.ite_none_right_eq_some, Option.some.injEq] at hs
    obtain ⟨hmem, rfl⟩ := hs
    refine h.of_perm ?_ rfl rfl rfl
    show (s.held.erase index ++ (s.indexQueue ++ index :: s.pushing)).Perm
      (s.held ++ (s.indexQueue ++ s.pushing))
    rw [← List.append_assoc, ← List.append_assoc]
    refine List.perm_middle.trans ?_
    exact ((List.perm_cons_erase hmem).symm.append_right s.indexQueue).append_right s.pushing
  | push index => exact h.push hs

theorem run {es : List Action} (h : ((pool P).restrict FewFetches).Run es s) : Inv P s := by
  refine h.invariant ?_ ?_
  · rintro s rfl
    exact .start P
  · rintro s e s' hI ⟨hfew, hs⟩
    exact hI.act hfew hs

end Inv

/-- **No buffer in use is handed out**, in every run in which the counter is
incremented fewer than `2 ^ 32` times: what a step hands out is not held and is
below `PoolSize`, at most `PoolSize` buffers are out, and no release has
failed. -/
theorem buffers_exclusive {es : List Action} {s : State}
    (h : ((pool P).restrict FewFetches).Run es s) :
    (∀ e s' i, ((pool P).restrict FewFetches).step s e s' → acquired P s e = some i →
      i ∉ s.held ∧ i.toNat < P.val) ∧
    s.held.length ≤ P.val ∧ s.failed = [] := by
  have hI := Inv.run h
  refine ⟨fun e s' i hs hi => ?_, ?_, hI.failed⟩
  · obtain ⟨hfew, hs⟩ := hs
    cases e with
    | pop =>
      rw [acquired, List.head?_eq_some_iff] at hi
      obtain ⟨rest, hq⟩ := hi
      have hnodup := hI.nodup
      have hbelow := hI.below i (by simp [State.known, hq])
      rw [State.known, hq, List.cons_append, List.nodup_append] at hnodup
      refine ⟨fun hheld => ?_, hbelow.1⟩
      exact hnodup.2.2 i hheld i List.mem_cons_self rfl
    | fetchAdd =>
      rw [acquired, Option.ite_none_right_eq_some, Option.some_inj] at hi
      obtain ⟨hlt, rfl⟩ := hi
      obtain ⟨_, hnew⟩ := hI.fresh_index (hfew rfl)
      exact ⟨fun hheld => hnew (List.mem_append_left _ hheld), hlt⟩
    | popEmpty => cases hi
    | release index => cases hi
    | push index => cases hi
  · have hle := hI.length_known_le
    rw [State.known, List.length_append] at hle
    omega

/-! ### The counter wraps -/

instance (s : State) (e : Action) : Decidable (FewFetches s e) :=
  inferInstanceAs (Decidable (_ → _))

/-- A fresh buffer, another one, and the first one again after its release. -/
theorem buffers_exclusive_recycled :
    ∃ s, ((pool .standard).restrict FewFetches).Run
        [.popEmpty, .fetchAdd, .popEmpty, .fetchAdd, .release 0, .push 0] s ∧
      acquired .standard s .pop = some 0 ∧ 0 ∉ s.held := by
  obtain ⟨s, hrun, hs⟩ := Machine.exists_run
    (f := Machine.guarded FewFetches (State.act .standard))
    (Machine.restrict_step_of_guarded (M := pool .standard) fun h => h) rfl
    [.popEmpty, .fetchAdd, .popEmpty, .fetchAdd, .release 0, .push 0]
    (fun s => acquired .standard s .pop = some 0 ∧ (s.act .standard .pop).isSome) (by decide)
  obtain ⟨hpop, hsome⟩ := of_decide_eq_true hs
  obtain ⟨s', hs'⟩ := Option.isSome_iff_exists.1 hsome
  have hfew : FewFetches s .pop := fun h => by cases h
  exact ⟨s, hrun, hpop, ((buffers_exclusive hrun).1 .pop s' 0 ⟨hfew, hs'⟩ hpop).1⟩

/-- After `n` acquires and no release. -/
def afterAcquires (P : PoolSize) (n : ℕ) : State :=
  { fresh with
    nextFreeIdx := UInt32.ofNat n
    held := ((List.range (min n P.val)).map UInt32.ofNat).reverse
    fetches := n }

theorem acquires_run (P : PoolSize) (n : ℕ) (hn : n ≤ 2 ^ 32) :
    ∃ es, (pool P).Run es (afterAcquires P n) := by
  induction n with
  | zero =>
    refine ⟨[], .start ?_⟩
    show afterAcquires P 0 = fresh
    rw [afterAcquires, Nat.zero_min]
    rfl
  | succ n ih =>
    obtain ⟨es, hrun⟩ := ih (by omega)
    have hnat : (UInt32.ofNat n).toNat = n := by
      rw [UInt32.toNat_ofNat', Nat.mod_eq_of_lt (by omega)]
    have hcounter : UInt32.ofNat n + 1 = UInt32.ofNat (n + 1) := by
      rw [UInt32.ofNat_add, UInt32.ofNat_one]
    have hfetching : (pool P).step (afterAcquires P n) .popEmpty
        { afterAcquires P n with fetching := 1 } := rfl
    refine ⟨_, .snoc (.snoc hrun hfetching) (e := .fetchAdd) ?_⟩
    show State.act P _ _ = _
    simp only [State.act, afterAcquires, fresh, Nat.one_pos, if_true, hnat, hcounter,
      Nat.sub_self]
    by_cases hlt : n < P.val
    · rw [if_pos hlt, Nat.min_eq_left (le_of_lt hlt), Nat.min_eq_left hlt, List.range_succ,
        List.map_append, List.reverse_append]
      rfl
    · rw [if_neg hlt, Nat.min_eq_right (by omega), Nat.min_eq_right (by omega)]

/-- The first acquire still holds its buffer. -/
theorem first_held (P : PoolSize) {n : ℕ} (hn : 0 < n) : 0 ∈ (afterAcquires P n).held := by
  rw [afterAcquires, List.mem_reverse, List.mem_map]
  exact ⟨0, List.mem_range.2 (lt_min hn P.pos), rfl⟩

/-- Acquires without a release: after `2 ^ 32` of them the counter is 0 again, and
the next one is handed the buffer the first one still holds. -/
theorem buffer_shared :
    ∃ es s s', (pool .standard).Run es s ∧ (pool .standard).step s .fetchAdd s' ∧
      acquired .standard s .fetchAdd = some 0 ∧ 0 ∈ s.held := by
  obtain ⟨es, hrun⟩ := acquires_run .standard (2 ^ 32) (le_refl _)
  have hheld := first_held .standard (Nat.two_pow_pos 32)
  have hnext : (afterAcquires .standard (2 ^ 32)).nextFreeIdx = 0 := by
    show UInt32.ofNat (2 ^ 32) = 0
    decide
  have hqueue : (afterAcquires .standard (2 ^ 32)).indexQueue = [] := rfl
  -- nothing else matters of the state, and its numbers are large
  generalize afterAcquires .standard (2 ^ 32) = s at hrun hheld hnext hqueue
  have hempty : (pool .standard).step s .popEmpty { s with fetching := s.fetching + 1 } :=
    if_pos (.inl hqueue)
  have hsome : (State.act .standard { s with fetching := s.fetching + 1 } .fetchAdd).isSome := by
    simp [State.act]
  obtain ⟨s', hs'⟩ := Option.isSome_iff_exists.1 hsome
  refine ⟨_, _, s', .snoc hrun hempty, hs', ?_, hheld⟩
  simp only [acquired, hnext]
  decide

end BufferPool
