/-
The pool between two threads.

One party acquires, the other releases.  The loads and stores of `head_` and
`tail_`, the copies of `refill` and the write of `release` are steps of their
own, taken in any order that each party's program allows.  A user releases
only ids it holds; an id counts as held until its release is published.

* `Parties` — the invariant: the inventory, with what each program counter
  promises;
* `pool_exclusive` — in every state, for every capacity: no index is in two
  places or lost, an id handed out is not held by anyone, the ring never
  overflows, and an invalid id means that nothing was left to hand out.
-/
import TradingPlatform.IdPool.Inventory
import TradingPlatform.Lib.Machine

namespace SlotIdPool

/-- Where the acquiring party is in `acquire`. -/
inductive Acquirer
  | idle
  | loadedHead (h : ℕ)
  | copying (h t : ℕ)
  | stored (t : ℕ)
deriving DecidableEq

/-- Where the releasing party is in `release`. -/
inductive Releaser (c : Capacity)
  | idle
  | written (t : ℕ) (id : SlotId c)
deriving DecidableEq

/-- The pool, the two parties, and the ids held by users. -/
structure PoolState (c : Capacity) where
  pool : SlotIdPool c
  acquirer : Acquirer
  releaser : Releaser c
  held : List (SlotId c)

/-- The steps of the two parties.  `pop` and `finish` are the ends of
`acquire`, with the id it returns. -/
inductive PoolAction (c : Capacity)
  | pop (id : SlotId c)
  | loadHead
  | loadTail
  | copy
  | storeHead
  | finish (id : SlotId c)
  | write (id : SlotId c)
  | publish

variable {c : Capacity}

namespace PoolState

def start (c : Capacity) : PoolState c := ⟨fresh c, .idle, .idle, []⟩

/-- One step; `none` where the program counters do not allow it. -/
def act (s : PoolState c) : PoolAction c → Option (PoolState c)
  | .pop id =>
    if s.acquirer = .idle ∧ 0 < s.pool.localTop ∧ s.pool.pop.1 = id then
      some { s with pool := s.pool.pop.2, held := id :: s.held }
    else none
  | .loadHead =>
    if s.acquirer = .idle ∧ s.pool.localTop = 0 then
      some { s with acquirer := .loadedHead s.pool.head }
    else none
  | .loadTail =>
    match s.acquirer with
    | .loadedHead h => some { s with acquirer := .copying h s.pool.tail }
    | _ => none
  | .copy =>
    match s.acquirer with
    | .copying h t =>
      if h ≠ t ∧ s.pool.localTop < localCacheSize then
        some { s with
          pool := s.pool.push (s.pool.sharedQueue h)
          acquirer := .copying ((h + 1) &&& mask c) t }
      else none
    | _ => none
  | .storeHead =>
    match s.acquirer with
    | .copying h t =>
      if h ≠ t ∧ s.pool.localTop < localCacheSize then none
      else some { s with pool := { s.pool with head := h }, acquirer := .stored t }
    | _ => none
  | .finish id =>
    match s.acquirer with
    | .stored _ =>
      if s.pool.finishRefill.1 = id then
        some { s with
          pool := s.pool.finishRefill.2
          acquirer := .idle
          held := if id.isValid then id :: s.held else s.held }
      else none
    | _ => none
  | .write id =>
    if s.releaser = .idle ∧ id ∈ s.held then
      some { s with
        pool := { s.pool with
          sharedQueue := Function.update s.pool.sharedQueue s.pool.tail id.nextGen }
        releaser := .written s.pool.tail id }
    else none
  | .publish =>
    match s.releaser with
    | .written t id =>
      some { s with
        pool := { s.pool with tail := (t + 1) &&& mask c }
        releaser := .idle
        held := s.held.erase id }
    | _ => none

/-- `refill`'s cursor while a refill runs, else `head_`. -/
def cursor (s : PoolState c) : ℕ :=
  match s.acquirer with
  | .loadedHead h => h
  | .copying h _ => h
  | _ => s.pool.head

end PoolState

def poolMachine (c : Capacity) : Machine (PoolState c) (PoolAction c) :=
  .ofFun (.start c) PoolState.act

/-! ### The invariant -/

/-- What the acquiring party's program counter promises; `H`, `C` and `T` are
the positions of head, cursor and tail. -/
def AcquirerOk (c : Capacity) (localTop H C T : ℕ) : Acquirer → Prop
  | .idle => H = C
  | .loadedHead h => H = C ∧ h = C % capacity c ∧ localTop = 0
  | .copying h t => H ≤ C ∧ h = C % capacity c ∧ localTop = C - H ∧
      ∃ L, C ≤ L ∧ L ≤ T ∧ t = L % capacity c
  | .stored t => H = C ∧ (localTop = 0 → t = C % capacity c)

/-- What the releasing party's program counter promises. -/
def ReleaserOk (p : SlotIdPool c) (held : List (SlotId c)) (T : ℕ) : Releaser c → Prop
  | .idle => True
  | .written t id => t = T % capacity c ∧ id ∈ held ∧ p.sharedQueue t = id.nextGen

theorem ReleaserOk.mono {p p' : SlotIdPool c} {held held' : List (SlotId c)} {T : ℕ}
    {r : Releaser c} (h : ReleaserOk p held T r) (hq : p'.sharedQueue = p.sharedQueue)
    (hheld : ∀ id ∈ held, id ∈ held') : ReleaserOk p' held' T r := by
  cases r with
  | idle => trivial
  | written t id =>
    obtain ⟨h1, h2, h3⟩ := h
    exact ⟨h1, hheld id h2, by rw [hq, h3]⟩

structure Parties (s : PoolState c) (H C T : ℕ) : Prop where
  head : s.pool.head = H % capacity c
  tail : s.pool.tail = T % capacity c
  inventory : Inventory s.pool C T s.held
  acquirer : AcquirerOk c s.pool.localTop H C T s.acquirer
  releaser : ReleaserOk s.pool s.held T s.releaser

namespace Parties

variable {s s' : PoolState c} {H C T : ℕ} {id : SlotId c}

theorem start (c : Capacity) : Parties (.start c) 0 0 0 :=
  ⟨(Nat.zero_mod _).symm, (Nat.zero_mod _).symm, Inventory.fresh c, rfl, trivial⟩

/-- The cells between head and cursor have been copied, so head is behind the
cursor by no more than the local stack. -/
theorem head_le (h : Parties s H C T) : H ≤ C ∧ C - H ≤ s.pool.localTop := by
  have hacq := h.acquirer
  cases ha : s.acquirer with
  | idle =>
    rw [ha] at hacq
    have heq : H = C := hacq
    omega
  | loadedHead k =>
    rw [ha] at hacq
    have heq := hacq.1
    omega
  | copying k t =>
    rw [ha] at hacq
    exact ⟨hacq.1, hacq.2.2.1.ge⟩
  | stored t =>
    rw [ha] at hacq
    have heq := hacq.1
    omega

theorem cursor_eq (h : Parties s H C T) : s.cursor = C % capacity c := by
  have hacq := h.acquirer
  rw [PoolState.cursor.eq_def]
  cases ha : s.acquirer with
  | idle =>
    rw [ha] at hacq
    have heq : H = C := hacq
    rw [← heq]
    exact h.head
  | loadedHead k =>
    rw [ha] at hacq
    exact hacq.2.1
  | copying k t =>
    rw [ha] at hacq
    exact hacq.2.1
  | stored t =>
    rw [ha] at hacq
    rw [← hacq.1]
    exact h.head

/-! One lemma for each step. -/

theorem pop (h : Parties s H C T) (hs : s.act (.pop id) = some s') :
    (id.isValid = true ∧ id.index ≠ 0 ∧ id.index ∉ s.held.map SlotId.index) ∧
      Parties s' H C T := by
  rw [PoolState.act, Option.ite_none_right_eq_some] at hs
  obtain ⟨⟨hidle, htop, rfl⟩, hs⟩ := hs
  obtain rfl := Option.some_inj.mp hs
  obtain ⟨h1, h2, h3, h4⟩ := h.inventory.pop htop
  have hacq := h.acquirer
  rw [hidle] at hacq
  refine ⟨⟨h1, h2, h3⟩, h.head, h.tail, h4, ?_, ?_⟩
  · rw [hidle]
    exact hacq
  · exact h.releaser.mono rfl fun _ hid => List.mem_cons_of_mem _ hid

theorem loadHead (h : Parties s H C T) (hs : s.act .loadHead = some s') : Parties s' H C T := by
  rw [PoolState.act, Option.ite_none_right_eq_some] at hs
  obtain ⟨⟨hidle, htop⟩, hs⟩ := hs
  obtain rfl := Option.some_inj.mp hs
  have hacq := h.acquirer
  rw [hidle] at hacq
  have heq : H = C := hacq
  refine ⟨h.head, h.tail, h.inventory, ⟨heq, ?_, htop⟩, h.releaser⟩
  rw [← heq]
  exact h.head

theorem loadTail (h : Parties s H C T) (hs : s.act .loadTail = some s') : Parties s' H C T := by
  have hacq := h.acquirer
  cases ha : s.acquirer with
  | loadedHead k =>
    rw [ha] at hacq
    obtain ⟨heq, hk, htop⟩ := hacq
    simp only [PoolState.act, ha] at hs
    obtain rfl := Option.some_inj.mp hs
    refine ⟨h.head, h.tail, h.inventory, ⟨heq.le, hk, ?_, T, h.inventory.le, le_rfl, h.tail⟩,
      h.releaser⟩
    show s.pool.localTop = C - H
    omega
  | _ => simp [PoolState.act, ha] at hs

theorem copy (h : Parties s H C T) (hs : s.act .copy = some s') : Parties s' H (C + 1) T := by
  have hacq := h.acquirer
  cases ha : s.acquirer with
  | copying k t =>
    rw [ha] at hacq
    obtain ⟨hle, rfl, htop, L, hCL, hLT, rfl⟩ := hacq
    simp only [PoolState.act, ha, Option.ite_none_right_eq_some] at hs
    obtain ⟨⟨hne, _⟩, hs⟩ := hs
    obtain rfl := Option.some_inj.mp hs
    -- the cursor is before the tail that was loaded
    have hlt : C < L := by
      refine lt_of_le_of_ne hCL ?_
      rintro rfl
      exact hne rfl
    refine ⟨h.head, h.tail, h.inventory.copy (by omega), ⟨by omega, ?_, ?_, L, hlt, hLT, rfl⟩,
      h.releaser.mono rfl fun _ hid => hid⟩
    · rw [and_mask, Nat.mod_add_mod]
    · show s.pool.localTop + 1 = C + 1 - H
      omega
  | _ => simp [PoolState.act, ha] at hs

theorem storeHead (h : Parties s H C T) (hs : s.act .storeHead = some s') : Parties s' C C T := by
  have hacq := h.acquirer
  cases ha : s.acquirer with
  | copying k t =>
    rw [ha] at hacq
    obtain ⟨hle, rfl, htop, L, hCL, hLT, rfl⟩ := hacq
    simp only [PoolState.act, ha, Option.ite_none_left_eq_some] at hs
    obtain ⟨hstop, hs⟩ := hs
    obtain rfl := Option.some_inj.mp hs
    refine ⟨rfl, h.tail, h.inventory.move _ _, ⟨rfl, fun h0 => ?_⟩,
      h.releaser.mono rfl fun _ hid => hid⟩
    -- with an empty local stack only the end of the ring stops the loop
    have hroom : s.pool.localTop < localCacheSize := by
      rw [show s.pool.localTop = 0 from h0]
      decide
    by_contra hne
    exact hstop ⟨fun hc => hne hc.symm, hroom⟩
  | _ => simp [PoolState.act, ha] at hs

theorem finish (h : Parties s H C T) (hs : s.act (.finish id) = some s') :
    ((id.isValid = true ∧ id.index ≠ 0 ∧ id.index ∉ s.held.map SlotId.index) ∨
      id.isValid = false ∧ s.pool.localTop = 0 ∧ s.pool.nextFreshIdx = capacity c) ∧
    (∃ t, s.acquirer = .stored t) ∧ Parties s' H C T := by
  have hacq := h.acquirer
  cases ha : s.acquirer with
  | stored t =>
    rw [ha] at hacq
    simp only [PoolState.act, ha, Option.ite_none_right_eq_some] at hs
    obtain ⟨rfl, hs⟩ := hs
    obtain rfl := Option.some_inj.mp hs
    obtain ⟨hhead, htail, hqueue⟩ := finishRefill_frame s.pool
    -- the releaser only looks at the ring, which the end of a refill leaves alone
    rcases h.inventory.finishRefill with ⟨h1, h2, h3, h4⟩ | ⟨heq, h0, hfull⟩
    · refine ⟨.inl ⟨h1, h2, h3⟩, ⟨t, rfl⟩, hhead.trans h.head, htail.trans h.tail, ?_, hacq.1,
        h.releaser.mono hqueue fun _ hid => ?_⟩
      · simp only [h1, if_true]
        exact h4
      · simp only [h1, if_true]
        exact List.mem_cons_of_mem _ hid
    · have hbad : s.pool.finishRefill.1.isValid = false := by
        rw [heq]
        exact SlotId.isValid_default
      refine ⟨.inr ⟨hbad, h0, hfull⟩, ⟨t, rfl⟩, hhead.trans h.head, htail.trans h.tail, ?_, hacq.1,
        h.releaser.mono hqueue fun _ hid => ?_⟩
      · simp only [heq, SlotId.isValid_default, Bool.false_eq_true, if_false]
        exact h.inventory
      · simp only [hbad, Bool.false_eq_true, if_false]
        exact hid
  | _ => simp [PoolState.act, ha] at hs

theorem write (h : Parties s H C T) (hs : s.act (.write id) = some s') : Parties s' H C T := by
  rw [PoolState.act, Option.ite_none_right_eq_some] at hs
  obtain ⟨⟨_, hid⟩, hs⟩ := hs
  obtain rfl := Option.some_inj.mp hs
  have hw := h.inventory.write id.nextGen
  rw [← h.tail] at hw
  exact ⟨h.head, h.tail, hw, h.acquirer, h.tail, hid, Function.update_self _ _ _⟩

theorem publish (h : Parties s H C T) (hs : s.act .publish = some s') :
    s'.pool.tail ≠ s'.pool.head ∧ Parties s' H C (T + 1) := by
  have hrel := h.releaser
  cases hr : s.releaser with
  | idle => simp [PoolState.act, hr] at hs
  | written t id =>
    rw [hr] at hrel
    obtain ⟨rfl, hid, hw⟩ := hrel
    simp only [PoolState.act, hr] at hs
    obtain rfl := Option.some_inj.mp hs
    have hinv := (h.inventory.publish hid hw).move s.pool.head ((T % capacity c + 1) &&& mask c)
    have htail : (T % capacity c + 1) &&& mask c = (T + 1) % capacity c := by
      rw [and_mask, Nat.mod_add_mod]
    have hlen := hinv.length
    have hnext := hinv.next_le
    have hpos := hinv.next_pos
    obtain ⟨hle, hcopied⟩ := h.head_le
    have hC := h.inventory.le
    -- the id published now was held until now, so there was a spare cell
    have hroom : T + 1 < H + capacity c := by
      simp only at hlen hnext hpos
      omega
    refine ⟨?_, h.head, htail, hinv, ?_, trivial⟩
    · intro heq
      simp only [htail, h.head] at heq
      have := Ring.mod_inj (by omega) hroom heq.symm
      omega
    · have hacq := h.acquirer
      cases ha : s.acquirer with
      | copying k t =>
        rw [ha] at hacq
        obtain ⟨h1, h2, h3, L, h4, h5, h6⟩ := hacq
        exact ⟨h1, h2, h3, L, h4, by omega, h6⟩
      | _ =>
        rw [ha] at hacq
        exact hacq

end Parties

/-- Every step keeps the invariant, at positions of its own. -/
theorem parties_step {s s' : PoolState c} {a : PoolAction c} {H C T : ℕ} (h : Parties s H C T)
    (hs : s.act a = some s') : ∃ H' C' T', Parties s' H' C' T' := by
  cases a with
  | pop id => exact ⟨_, _, _, (h.pop hs).2⟩
  | loadHead => exact ⟨_, _, _, h.loadHead hs⟩
  | loadTail => exact ⟨_, _, _, h.loadTail hs⟩
  | copy => exact ⟨_, _, _, h.copy hs⟩
  | storeHead => exact ⟨_, _, _, h.storeHead hs⟩
  | finish id => exact ⟨_, _, _, (h.finish hs).2.2⟩
  | write id => exact ⟨_, _, _, h.write hs⟩
  | publish => exact ⟨_, _, _, (h.publish hs).2⟩

theorem parties_run {s : PoolState c} {es : List (PoolAction c)}
    (h : (poolMachine c).Run es s) : ∃ H C T, Parties s H C T := by
  refine Machine.Run.invariant (I := fun s => ∃ H C T, Parties s H C T) ?_ ?_ h
  · rintro s rfl
    exact ⟨0, 0, 0, Parties.start c⟩
  · rintro s a s' ⟨H, C, T, hp⟩ hs
    exact parties_step hp hs

/-! ### Exclusive hand-out -/

/-- `acquire` returns `id` in the step from `s` to `s'`. -/
def Returns (s : PoolState c) (id : SlotId c) (s' : PoolState c) : Prop :=
  (poolMachine c).step s (.pop id) s' ∨ (poolMachine c).step s (.finish id) s'

/-- The ids are handed out exclusively and none is lost. -/
structure Exclusive (s : PoolState c) : Prop where
  /-- Local stack, ring and held ids are the indices generated so far. -/
  partition : ((s.pool.locals ++
    Ring.entries s.pool.sharedQueue (capacity c) s.cursor s.pool.tail ++ s.held).map
      SlotId.index).Perm (List.range' 1 (s.pool.nextFreshIdx - 1))
  /-- A valid id returned by `acquire` is nobody else's. -/
  unheld : ∀ id s', Returns s id s' → id.isValid = true →
    id.index ≠ 0 ∧ id.index ∉ s.held.map SlotId.index
  /-- The tail does not catch up with the head. -/
  no_overflow : ∀ s', (poolMachine c).step s .publish s' → s'.pool.tail ≠ s'.pool.head
  /-- An invalid id means that every index has been generated, and is held or
  was published after `refill` loaded the tail `t`. -/
  exhausted : ∀ id s', Returns s id s' → id.isValid = false →
    s.pool.nextFreshIdx = capacity c ∧ ∃ t, s.acquirer = .stored t ∧
      ∀ i, 1 ≤ i → i < capacity c → i ∈ s.held.map SlotId.index ∨
        i ∈ (Ring.entries s.pool.sharedQueue (capacity c) t s.pool.tail).map SlotId.index

/-- **Exclusive hand-out** in every state of every run, for every capacity. -/
theorem pool_exclusive {es : List (PoolAction c)} {s : PoolState c}
    (h : (poolMachine c).Run es s) : Exclusive s := by
  obtain ⟨H, C, T, hp⟩ := parties_run h
  have hinv := hp.inventory
  have hring : Ring.entries s.pool.sharedQueue (capacity c) (C % capacity c) (T % capacity c) =
      Ring.window s.pool.sharedQueue (capacity c) C T := Ring.entries_eq hinv.le hinv.room
  refine ⟨?_, ?_, ?_, ?_⟩
  · rw [hp.cursor_eq, hp.tail, hring]
    exact hinv.perm
  · rintro id s' (hs | hs) hv
    · exact (hp.pop hs).1.2
    · rcases (hp.finish hs).1 with hok | ⟨hbad, _⟩
      · exact hok.2
      · rw [hbad] at hv
        exact Bool.noConfusion hv
  · intro s' hs
    exact (hp.publish hs).1
  · rintro id s' (hs | hs) hv
    · rw [(hp.pop hs).1.1] at hv
      exact Bool.noConfusion hv
    · obtain ⟨hcase, ⟨t, ht⟩, _⟩ := hp.finish hs
      rcases hcase with ⟨hok, _⟩ | ⟨_, h0, hfull⟩
      · rw [hok] at hv
        exact Bool.noConfusion hv
      · refine ⟨hfull, t, ht, fun i h1 h2 => ?_⟩
        have hacq := hp.acquirer
        rw [ht] at hacq
        -- the local stack is empty, so what is not held is in the ring
        have hnil : s.pool.locals = [] := by
          rw [locals, h0]
          rfl
        have hmem := hinv.perm.mem_iff.mpr (List.mem_range'_1.mpr ⟨h1, by rw [hfull]; omega⟩)
        rw [allIds, hnil, List.nil_append, List.map_append, List.mem_append] at hmem
        rw [hacq.2 h0, hp.tail, hring]
        exact hmem.symm

/-- In a pool of four: three ids are acquired and one of them is released, but
the refill loads the tail before the release is published. -/
def lateRelease : List (PoolAction ⟨4, by decide, by decide⟩) :=
  [.loadHead, .loadTail, .storeHead, .finish ⟨7⟩, .pop ⟨6⟩, .pop ⟨5⟩, .write ⟨6⟩, .loadHead,
    .loadTail, .publish, .storeHead]

theorem lateRelease_isSome :
    (Machine.exec PoolState.act (.start _) lateRelease).isSome = true := by decide

theorem pool_exclusive_lateRelease :
    ∃ s, (poolMachine _).Run lateRelease s ∧ s.held.map SlotId.index = [1, 3] ∧
      (s.act (.finish default)).isSome = true ∧ Exclusive s :=
  have hrun := (Machine.Run.start rfl).exec (M := poolMachine _) (fun hs => hs)
    (Option.some_get lateRelease_isSome).symm
  ⟨_, hrun, by decide, by decide, pool_exclusive hrun⟩

end SlotIdPool
