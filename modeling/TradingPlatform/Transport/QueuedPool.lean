/-
The pool of network buffers over the queue that it has.

`Transport/BufferPool.lean` takes the queue of released indices for one whose calls are
atomic.  Here `acquire` and `release` call the queue of `Mpmc/Model.lean`, and every
load, compare-exchange, copy and store of any number of threads is a step of its own.

* `QueuedPool.act` — the steps, and `Change`, what they do to the indices;
* `At` — where an index is: held by a caller, with a thread that releases it, in the
  queue under a ticket, or lost;
* `index_in_one_place` — every index that was handed out is at exactly one of them;
* `release_fails_behind_pop` — the only release that is not taken back is one that has
  come round to the slot of a `pop` that is not finished.

The atomic queue has room for every release.  This one need not: a thread that is
interrupted in `pop` keeps its slot, and a `push` one lap later finds it taken.  The
index is then lost, but it is never handed out twice.
-/
import TradingPlatform.Lib.Custody
import TradingPlatform.Mpmc.Queue
import TradingPlatform.Transport.BufferPool

/-- `BufferPool`.  `fetching` are the threads whose `pop` has failed in `acquire`; `held`
are the indices that are out, `lost` those of the releases whose `push` has failed, and
`fetches` counts the increments of `nextFreeIdx_`. -/
structure QueuedPool (ι : Type*) where
  indexQueue : VyukovMPMC.State ι UInt32
  nextFreeIdx : UInt32
  fetching : ι → Bool
  held : List UInt32
  lost : List UInt32
  fetches : ℕ

/-- A thread calls `acquire` or `release`, goes on in the call of the queue, or
increments the counter. -/
inductive QueuedPoolAction (ι : Type*)
  | acquire (i : ι)
  | release (i : ι) (index : UInt32)
  | queue (e : VyukovMPMC.Action ι UInt32)
  | fetchAdd (i : ι)

namespace QueuedPool

variable (C : QueueCapacity) {ι : Type*}

section Steps

variable [DecidableEq ι]

/-- What follows a step of the queue: the branch on the result of its call. -/
def branch (s : QueuedPool ι) (q : VyukovMPMC.State ι UInt32) :
    VyukovMPMC.Action ι UInt32 → Option (QueuedPool ι)
  | .push _ _ => none
  | .pop _ => none
  | .examine i =>
    match s.indexQueue.threads i, q.threads i with
    | .popExamine _, .idle =>
      some { s with indexQueue := q, fetching := Function.update s.fetching i true }
    -- "Index double release in BufferPool"
    | .pushExamine index _, .idle => some { s with indexQueue := q, lost := index :: s.lost }
    | _, _ => some { s with indexQueue := q }
  | .store i =>
    match s.indexQueue.threads i with
    | .popStore _ index => some { s with indexQueue := q, held := index :: s.held }
    | _ => some { s with indexQueue := q }
  | _ => some { s with indexQueue := q }

/-- One step; `none` where no thread is at it.  An index is released by its holder. -/
def act (s : QueuedPool ι) : QueuedPoolAction ι → Option (QueuedPool ι)
  | .acquire i =>
    if s.fetching i then none
    else (s.indexQueue.act C (.pop i)).map fun q => { s with indexQueue := q }
  | .release i index =>
    if s.fetching i ∨ index ∉ s.held then none
    else (s.indexQueue.act C (.push i index)).map fun q =>
      { s with indexQueue := q, held := s.held.erase index }
  | .queue e => (s.indexQueue.act C e).bind fun q => s.branch q e
  | .fetchAdd i =>
    if s.fetching i then
      some { s with
        fetching := Function.update s.fetching i false
        nextFreeIdx := s.nextFreeIdx + 1
        fetches := s.fetches + 1
        -- an index that is not below `PoolSize` is an exhausted pool
        held := if s.nextFreeIdx.toNat < C.val then s.nextFreeIdx :: s.held else s.held }
    else none

def fresh (slots : ℕ → VyukovMPMC.Slot UInt32) : QueuedPool ι :=
  ⟨.start C slots, 0, fun _ => false, [], [], 0⟩

/-- Any number of threads on one pool, whose size is the capacity of its queue. -/
def queuedPool : Machine (QueuedPool ι) (QueuedPoolAction ι) where
  init s := ∃ slots, s = fresh C slots
  step s e s' := s.act C e = some s'

/-- The counter is incremented fewer than `2 ^ 32` times. -/
def FewFetches (s : QueuedPool ι) : QueuedPoolAction ι → Prop
  | .fetchAdd _ => s.fetches < 2 ^ 32
  | _ => True

instance (s : QueuedPool ι) : (e : QueuedPoolAction ι) → Decidable (FewFetches s e)
  | .fetchAdd _ => inferInstanceAs (Decidable (s.fetches < 2 ^ 32))
  | .acquire _ => .isTrue trivial
  | .release _ _ => .isTrue trivial
  | .queue _ => .isTrue trivial

end Steps

/-! ### Where the indices are -/

/-- The index a thread is about to push. -/
def releasing : VyukovMPMC.Thread UInt32 → Option UInt32
  | .pushLoad index => some index
  | .pushExamine index _ => some index
  | .pushCas index _ => some index
  | _ => none

inductive Place (ι : Type*)
  | held
  | lost
  | thread (i : ι)
  | ticket (t : ℕ)

/-- The index is at the place. -/
def At (s : QueuedPool ι) : Place ι → UInt32 → Prop
  | .held, v => v ∈ s.held
  | .lost, v => v ∈ s.lost
  | .thread i, v => releasing (s.indexQueue.threads i) = some v
  | .ticket t, v => s.indexQueue.pushed[t]? = some v ∧ t ∉ s.indexQueue.returned.map Prod.fst

/-- The index was handed out. -/
def Out (s : QueuedPool ι) (v : UInt32) : Prop := v.toNat < min s.fetches C.val

variable {C} {s s' : QueuedPool ι}

/-- What a step does to the indices: nothing, or one of them goes from a place to another
one, or the counter hands out a new one. -/
inductive Change (C : QueueCapacity) (s s' : QueuedPool ι) : Prop
  | stay (hplaces : ∀ p v, s'.At p v ↔ s.At p v) (hheld : s'.held = s.held)
      (hnext : s'.nextFreeIdx = s.nextFreeIdx) (hfetches : s'.fetches = s.fetches)
  | move (p q : Place ι) (v : UInt32) (hfrom : s.At p v)
      (hplaces : ∀ r u, s'.At r u ↔ r = q ∧ u = v ∨ s.At r u ∧ ¬ (r = p ∧ u = v))
      (hheld : s'.held = s.held ∨ s'.held = s.held.erase v ∨
        p ≠ .held ∧ s'.held = v :: s.held)
      (hnext : s'.nextFreeIdx = s.nextFreeIdx) (hfetches : s'.fetches = s.fetches)
  | fetch (hqueue : s'.indexQueue = s.indexQueue) (hlost : s'.lost = s.lost)
      (hheld : s'.held =
        if s.nextFreeIdx.toNat < C.val then s.nextFreeIdx :: s.held else s.held)
      (hnext : s'.nextFreeIdx = s.nextFreeIdx + 1) (hfetches : s'.fetches = s.fetches + 1)

/-- The indices that were handed out are at one place each. -/
structure Inv (C : QueueCapacity) (s : QueuedPool ι) : Prop where
  counter : s.nextFreeIdx = UInt32.ofNat s.fetches
  nodup : s.held.Nodup
  placed : Placed s.At (s.Out C)

theorem Inv.start (slots : ℕ → VyukovMPMC.Slot UInt32) : Inv C (fresh C slots : QueuedPool ι) where
  counter := rfl
  nodup := List.nodup_nil
  placed :=
    { unique := by
        intro p q v hp
        cases p <;> simp [At, fresh, VyukovMPMC.State.start, releasing] at hp
      out := by
        intro p v hp
        cases p <;> simp [At, fresh, VyukovMPMC.State.start, releasing] at hp
      somewhere := by
        intro v hv
        rw [Out, show (fresh C slots : QueuedPool ι).fetches = 0 from rfl, Nat.zero_min] at hv
        exact absurd hv (Nat.not_lt_zero _) }

/-- The counter hands out an index that was not out. -/
theorem Inv.fetch (h : Inv C s) (hfew : s.fetches < 2 ^ 32)
    (hqueue : s'.indexQueue = s.indexQueue) (hlost : s'.lost = s.lost)
    (hheld : s'.held = if s.nextFreeIdx.toNat < C.val then s.nextFreeIdx :: s.held else s.held)
    (hnext : s'.nextFreeIdx = s.nextFreeIdx + 1) (hfetches : s'.fetches = s.fetches + 1) :
    Inv C s' := by
  have hnat : s.nextFreeIdx.toNat = s.fetches := by
    rw [h.counter, UInt32.toNat_ofNat', Nat.mod_eq_of_lt hfew]
  have hcounter : s'.nextFreeIdx = UInt32.ofNat s'.fetches := by
    rw [hnext, hfetches, h.counter, UInt32.ofNat_add, UInt32.ofNat_one]
  have hnot : ¬ s.Out C s.nextFreeIdx := by
    rw [Out, hnat]
    exact fun hlt => absurd (lt_of_lt_of_le hlt (min_le_left _ _)) (lt_irrefl _)
  have hnothere : s.nextFreeIdx ∉ s.held := fun hmem => hnot (h.placed.out (p := .held) hmem)
  by_cases hlt : s.nextFreeIdx.toNat < C.val
  · rw [if_pos hlt] at hheld
    refine ⟨hcounter, ?_, h.placed.enter (q := .held) hnot ?_ ?_⟩
    · rw [hheld]
      exact List.nodup_cons.2 ⟨hnothere, h.nodup⟩
    · intro u
      rw [Out, Out, hfetches, ← UInt32.toNat_inj, hnat]
      rw [hnat] at hlt
      omega
    · intro r u
      cases r <;> simp [At, hheld, hlost, hqueue]
  · rw [if_neg hlt] at hheld
    have hplaced : Placed s'.At (s.Out C) := h.placed.same (by
      intro r u
      cases r <;> simp [At, hheld, hlost, hqueue])
    refine ⟨hcounter, hheld ▸ h.nodup, ⟨hplaced.unique, fun hp => ?_, fun hv => ?_⟩⟩
    · exact lt_of_lt_of_le (hplaced.out hp) (by rw [hfetches]; omega)
    · refine hplaced.somewhere ?_
      rw [Out, hfetches] at hv
      rw [Out]
      omega

theorem Inv.change (h : Inv C s) (hfew : s'.fetches = s.fetches + 1 → s.fetches < 2 ^ 32)
    (hc : Change C s s') : Inv C s' := by
  cases hc with
  | stay hplaces hheld hnext hfetches =>
    refine ⟨by rw [hnext, hfetches, h.counter], hheld ▸ h.nodup, ?_⟩
    have hout : s'.Out C = s.Out C := by
      funext v
      rw [Out, Out, hfetches]
    rw [hout]
    exact h.placed.same hplaces
  | move p q v hfrom hplaces hheld hnext hfetches =>
    refine ⟨by rw [hnext, hfetches, h.counter], ?_, ?_⟩
    · rcases hheld with hheld | hheld | ⟨hp, hheld⟩
      · rw [hheld]
        exact h.nodup
      · rw [hheld]
        exact h.nodup.erase v
      · rw [hheld]
        refine List.nodup_cons.2 ⟨fun hmem => hp ?_, h.nodup⟩
        exact h.placed.unique hfrom hmem
    · have hout : s'.Out C = s.Out C := by
        funext v
        rw [Out, Out, hfetches]
      rw [hout]
      exact h.placed.move hfrom hplaces
  | fetch hqueue hlost hheld hnext hfetches =>
    exact h.fetch (hfew hfetches) hqueue hlost hheld hnext hfetches

/-- A ticket that was returned was claimed. -/
theorem returned_lt {q : VyukovMPMC.State ι UInt32} (hq : VyukovMPMC.Inv C q) {t : ℕ}
    (ht : t ∈ q.returned.map Prod.fst) : t < q.popped := by
  have hcap := hq.cap
  have hC := C.one_lt
  obtain ⟨r, hr, rfl⟩ := List.mem_map.1 ht
  have hseq := (hq.returned r hr).1
  obtain ⟨u, hmod, hu⟩ := hq.phase _ (Nat.mod_lt r.1 (by omega))
  by_contra hge
  -- the slot would be full for the last ticket of the lap, which is not of this slot
  have hlast : u + 1 = r.1 + C.val := by omega
  refine VyukovMPMC.mod_succ_ne (C := C) u ?_
  rw [hlast, Nat.add_mod_right, hmod]

/-- What is in the queue, and not claimed by a `pop`, and what one more thread releases. -/
theorem Inv.waiting_nodup (h : Inv C s) (hq : VyukovMPMC.Inv C s.indexQueue) {i : ι}
    {index : UInt32}
    (hi : releasing (s.indexQueue.threads i) = some index) :
    (index :: s.indexQueue.pushed.drop s.indexQueue.popped).Nodup ∧
      ∀ v ∈ index :: s.indexQueue.pushed.drop s.indexQueue.popped, v.toNat < C.val := by
  have hat : ∀ {n v}, (s.indexQueue.pushed.drop s.indexQueue.popped)[n]? = some v →
      s.At (.ticket (s.indexQueue.popped + n)) v := by
    intro n v hv
    rw [List.getElem?_drop] at hv
    refine ⟨hv, fun hmem => ?_⟩
    have hlt := returned_lt hq hmem
    omega
  have hbelow : ∀ {p v}, s.At p v → v.toNat < C.val := fun hp =>
    lt_of_lt_of_le (h.placed.out hp) (min_le_right _ _)
  refine ⟨List.nodup_cons.2 ⟨fun hmem => ?_, ?_⟩, fun v hv => ?_⟩
  · obtain ⟨n, hn⟩ := List.getElem?_of_mem hmem
    exact absurd (h.placed.unique (hat hn) (q := .thread i) hi) (by simp)
  · rw [List.nodup_iff_getElem?_ne_getElem?]
    intro n m hnm hm heq
    have hget := List.getElem?_eq_getElem hm
    have hsame := h.placed.unique (hat (heq.trans hget)) (hat hget)
    have hadd : s.indexQueue.popped + n = s.indexQueue.popped + m := by
      injection hsame
    omega
  · rcases List.mem_cons.1 hv with rfl | hv
    · exact hbelow (p := .thread i) hi
    · obtain ⟨n, hn⟩ := List.getElem?_of_mem hv
      exact hbelow (hat hn)

section Steps

variable [DecidableEq ι]

/-- Another index in the hands of one thread. -/
theorem releasing_update (threads : ι → VyukovMPMC.Thread UInt32) (i j : ι)
    (w : VyukovMPMC.Thread UInt32) : releasing (Function.update threads i w j) =
      if j = i then releasing w else releasing (threads j) := by
  rw [Function.update_apply]
  split
  · rfl
  · rfl

/-- A thread goes on, with the same index or none, and nothing else. -/
theorem Change.quiet {i : ι} {w w' : VyukovMPMC.Thread UInt32} (hi : s.indexQueue.threads i = w)
    (hthreads : s'.indexQueue.threads = Function.update s.indexQueue.threads i w')
    (hw : releasing w' = releasing w) (hpushed : s'.indexQueue.pushed = s.indexQueue.pushed)
    (hreturned : s'.indexQueue.returned = s.indexQueue.returned)
    (hrest : s'.held = s.held ∧ s'.lost = s.lost ∧ s'.nextFreeIdx = s.nextFreeIdx ∧
      s'.fetches = s.fetches) : Change C s s' := by
  obtain ⟨hheld, hlost, hnext, hfetches⟩ := hrest
  refine .stay ?_ hheld hnext hfetches
  intro p v
  cases p with
  | held => rw [At, At, hheld]
  | lost => rw [At, At, hlost]
  | thread j =>
    rw [At, At, hthreads, releasing_update]
    split
    · next hj => rw [hw, hj, hi]
    · rfl
  | ticket t => rw [At, At, hpushed, hreturned]

/-- A release begins. -/
theorem Change.release {i : ι} {index : UInt32} (hnodup : s.held.Nodup)
    (hidle : s.indexQueue.threads i = .idle) (hheld : index ∈ s.held) :
    Change C s { s with
      indexQueue := { s.indexQueue.setThread i (.pushLoad index) with
        calls := s.indexQueue.calls + 1 }
      held := s.held.erase index } := by
  refine .move .held (.thread i) index hheld ?_ (.inr (.inl rfl)) rfl rfl
  intro r u
  cases r with
  | held =>
    show u ∈ s.held.erase index ↔ _
    rw [hnodup.mem_erase_iff]
    simp [At, and_comm]
  | lost => simp [At]
  | thread j =>
    show releasing (Function.update s.indexQueue.threads i (.pushLoad index) j) = some u ↔ _
    rw [releasing_update]
    by_cases hj : j = i
    · subst hj
      simp [At, releasing, hidle, eq_comm]
    · simp [At, hj]
  | ticket t => simp [At, VyukovMPMC.State.setThread]

/-- A `push` claims a ticket. -/
theorem Change.claim (hq : VyukovMPMC.Inv C s.indexQueue) {i : ι} {index : UInt32}
    (hi : releasing (s.indexQueue.threads i) = some index) {q : VyukovMPMC.State ι UInt32}
    {w : VyukovMPMC.Thread UInt32} (hw : releasing w = none)
    (hthreads : q.threads = Function.update s.indexQueue.threads i w)
    (hpushed : q.pushed = s.indexQueue.pushed ++ [index])
    (hreturned : q.returned = s.indexQueue.returned) :
    Change C s { s with indexQueue := q } := by
  have hnew : s.indexQueue.pushed.length ∉ s.indexQueue.returned.map Prod.fst := by
    intro hmem
    obtain ⟨r, hr, hlen⟩ := List.mem_map.1 hmem
    have hlt := (List.getElem?_eq_some_iff.1 (hq.returned r hr).2).1
    omega
  refine .move (.thread i) (.ticket s.indexQueue.pushed.length) index hi ?_ (.inl rfl) rfl rfl
  intro r u
  cases r with
  | held => simp [At]
  | lost => simp [At]
  | thread j =>
    show releasing (q.threads j) = some u ↔ _
    rw [hthreads, releasing_update]
    by_cases hj : j = i
    · subst hj
      simp [At, hw, hi, eq_comm]
    · simp [At, hj]
  | ticket t =>
    show q.pushed[t]? = some u ∧ t ∉ q.returned.map Prod.fst ↔ _
    rw [hpushed, hreturned]
    rcases Nat.lt_trichotomy t s.indexQueue.pushed.length with hlt | rfl | hgt
    · rw [List.getElem?_append_left hlt]
      simp [At, Nat.ne_of_lt hlt]
    · simp [At, hnew, eq_comm]
    · have hnone : (s.indexQueue.pushed ++ [index])[t]? = none := by
        rw [List.getElem?_eq_none_iff, List.length_append, List.length_singleton]
        omega
      have hnone' : s.indexQueue.pushed[t]? = none := by
        rw [List.getElem?_eq_none_iff]
        omega
      rw [hnone]
      simp [At, hnone', Nat.ne_of_gt hgt]

/-- A `push` fails. -/
theorem Change.fail {i : ι} {index : UInt32} {tail : UInt64}
    (hi : s.indexQueue.threads i = .pushExamine index tail) :
    Change C s { s with
      indexQueue := s.indexQueue.setThread i .idle
      lost := index :: s.lost } := by
  have hfrom : s.At (.thread i) index := by
    show releasing (s.indexQueue.threads i) = some index
    rw [hi]
    rfl
  refine .move (.thread i) .lost index hfrom ?_ (.inl rfl) rfl rfl
  intro r u
  cases r with
  | held => simp [At]
  | lost => simp [At]
  | thread j =>
    show releasing (Function.update s.indexQueue.threads i .idle j) = some u ↔ _
    rw [releasing_update]
    by_cases hj : j = i
    · subst hj
      simp [At, releasing, hi, eq_comm]
    · simp [At, hj]
  | ticket t => simp [At, VyukovMPMC.State.setThread]

/-- A `pop` returns. -/
theorem Change.give (hq : VyukovMPMC.Inv C s.indexQueue) {q : VyukovMPMC.State ι UInt32}
    (hq' : VyukovMPMC.Inv C q) {i : ι} {head : UInt64} {index : UInt32}
    (hi : s.indexQueue.threads i = .popStore head index)
    (hthreads : q.threads = Function.update s.indexQueue.threads i .idle)
    (hpushed : q.pushed = s.indexQueue.pushed)
    (hreturned : q.returned = s.indexQueue.returned ++ [(head.toNat, index)]) :
    Change C s { s with indexQueue := q, held := index :: s.held } := by
  have hget : s.indexQueue.pushed[head.toNat]? = some index := by
    have hok := hq.threads i
    rw [hi] at hok
    exact hok.2.2
  have honce : head.toNat ∉ s.indexQueue.returned.map Prod.fst := by
    have hnodup := hq'.once.2
    rw [hreturned, List.map_append, List.nodup_append] at hnodup
    intro hmem
    exact hnodup.2.2 _ hmem _ (by simp) rfl
  refine .move (.ticket head.toNat) .held index ⟨hget, honce⟩ ?_ (.inr (.inr ⟨by simp, rfl⟩))
    rfl rfl
  intro r u
  cases r with
  | held => simp [At]
  | lost => simp [At]
  | thread j =>
    show releasing (q.threads j) = some u ↔ _
    rw [hthreads, releasing_update]
    by_cases hj : j = i
    · subst hj
      simp [At, releasing, hi]
    · simp [At, hj]
  | ticket t =>
    show q.pushed[t]? = some u ∧ t ∉ q.returned.map Prod.fst ↔ _
    rw [hpushed, hreturned]
    by_cases ht : t = head.toNat
    · subst ht
      simp only [At, hget, List.map_append, List.map_cons, List.map_nil, List.mem_append,
        List.mem_singleton, Option.some.injEq]
      constructor
      · rintro ⟨_, hnot⟩
        exact absurd (.inr trivial) hnot
      · rintro (⟨hne, _⟩ | ⟨⟨rfl, _⟩, hne⟩)
        · cases hne
        · exact absurd ⟨trivial, rfl⟩ hne
    · simp [At, ht]

theorem change_of_act (hq : VyukovMPMC.Inv C s.indexQueue) (hq' : VyukovMPMC.Inv C s'.indexQueue)
    (hnodup : s.held.Nodup) {e : QueuedPoolAction ι} (hs : s.act C e = some s') :
    Change C s s' := by
  cases e with
  | acquire i =>
    simp only [act, Option.ite_none_left_eq_some] at hs
    obtain ⟨q, hact, rfl⟩ := Option.map_eq_some_iff.1 hs.2
    cases VyukovMPMC.step_of_act hact with
    | pop hi => exact .quiet hi rfl rfl rfl rfl ⟨rfl, rfl, rfl, rfl⟩
  | release i index =>
    simp only [act, Option.ite_none_left_eq_some, not_or, not_not] at hs
    obtain ⟨q, hact, rfl⟩ := Option.map_eq_some_iff.1 hs.2
    cases VyukovMPMC.step_of_act hact with
    | push hi => exact .release hnodup hi hs.1.2
  | queue e =>
    obtain ⟨q, hact, hbranch⟩ := Option.bind_eq_some_iff.1 hs
    cases VyukovMPMC.step_of_act hact with
    | push _ => cases hbranch
    | pop _ => cases hbranch
    | loadTail hi =>
      obtain rfl := Option.some_inj.1 hbranch
      exact .quiet hi rfl rfl rfl rfl ⟨rfl, rfl, rfl, rfl⟩
    | loadHead hi =>
      obtain rfl := Option.some_inj.1 hbranch
      exact .quiet hi rfl rfl rfl rfl ⟨rfl, rfl, rfl, rfl⟩
    | pushFree hi _ =>
      simp only [branch, hi, VyukovMPMC.State.setThread_self, Option.some.injEq] at hbranch
      subst hbranch
      exact .quiet hi rfl rfl rfl rfl ⟨rfl, rfl, rfl, rfl⟩
    | pushFull hi _ =>
      simp only [branch, hi, VyukovMPMC.State.setThread_self, Option.some.injEq] at hbranch
      subst hbranch
      exact .fail hi
    | pushLate hi _ _ =>
      simp only [branch, hi, VyukovMPMC.State.setThread_self, Option.some.injEq] at hbranch
      subst hbranch
      exact .quiet hi rfl rfl rfl rfl ⟨rfl, rfl, rfl, rfl⟩
    | popReady hi _ =>
      simp only [branch, hi, VyukovMPMC.State.setThread_self, Option.some.injEq] at hbranch
      subst hbranch
      exact .quiet hi rfl rfl rfl rfl ⟨rfl, rfl, rfl, rfl⟩
    | popEmpty hi _ =>
      simp only [branch, hi, VyukovMPMC.State.setThread_self, Option.some.injEq] at hbranch
      subst hbranch
      exact .quiet hi rfl rfl rfl rfl ⟨rfl, rfl, rfl, rfl⟩
    | popLate hi _ _ =>
      simp only [branch, hi, VyukovMPMC.State.setThread_self, Option.some.injEq] at hbranch
      subst hbranch
      exact .quiet hi rfl rfl rfl rfl ⟨rfl, rfl, rfl, rfl⟩
    | claimTail hi =>
      obtain rfl := Option.some_inj.1 hbranch
      exact .claim hq (by rw [hi]; rfl) rfl rfl rfl rfl
    | claimHead hi =>
      obtain rfl := Option.some_inj.1 hbranch
      exact .quiet hi rfl rfl rfl rfl ⟨rfl, rfl, rfl, rfl⟩
    | missTail hi =>
      obtain rfl := Option.some_inj.1 hbranch
      exact .quiet hi rfl rfl rfl rfl ⟨rfl, rfl, rfl, rfl⟩
    | missHead hi =>
      obtain rfl := Option.some_inj.1 hbranch
      exact .quiet hi rfl rfl rfl rfl ⟨rfl, rfl, rfl, rfl⟩
    | write hi =>
      obtain rfl := Option.some_inj.1 hbranch
      exact .quiet hi rfl rfl rfl rfl ⟨rfl, rfl, rfl, rfl⟩
    | take hi =>
      obtain rfl := Option.some_inj.1 hbranch
      exact .quiet hi rfl rfl rfl rfl ⟨rfl, rfl, rfl, rfl⟩
    | publish hi =>
      simp only [branch, hi, Option.some.injEq] at hbranch
      subst hbranch
      exact .quiet hi rfl rfl rfl rfl ⟨rfl, rfl, rfl, rfl⟩
    | release hi =>
      simp only [branch, hi, Option.some.injEq] at hbranch
      subst hbranch
      exact .give hq hq' hi rfl rfl rfl
  | fetchAdd i =>
    simp only [act, Option.ite_none_right_eq_some, Option.some.injEq] at hs
    obtain ⟨_, rfl⟩ := hs
    exact .fetch rfl rfl rfl rfl rfl

/-! ### Every interleaving -/

theorem branch_spec {q : VyukovMPMC.State ι UInt32} {e : VyukovMPMC.Action ι UInt32}
    (hs : s.branch q e = some s') : s'.indexQueue = q ∧ s'.fetches = s.fetches := by
  rw [branch.eq_def] at hs
  split at hs <;> grind

/-- The queue makes a step of its own, or the counter is incremented. -/
theorem queue_step {e : QueuedPoolAction ι} (hs : s.act C e = some s') :
    (∃ e', (VyukovMPMC.mpmc C).step s.indexQueue e' s'.indexQueue) ∧ s'.fetches = s.fetches ∨
      s'.indexQueue = s.indexQueue ∧ ∃ i, e = .fetchAdd i := by
  cases e with
  | acquire i =>
    simp only [act, Option.ite_none_left_eq_some] at hs
    obtain ⟨q, hact, rfl⟩ := Option.map_eq_some_iff.1 hs.2
    exact .inl ⟨⟨_, hact⟩, rfl⟩
  | release i index =>
    simp only [act, Option.ite_none_left_eq_some] at hs
    obtain ⟨q, hact, rfl⟩ := Option.map_eq_some_iff.1 hs.2
    exact .inl ⟨⟨_, hact⟩, rfl⟩
  | queue e =>
    obtain ⟨q, hact, hbranch⟩ := Option.bind_eq_some_iff.1 hs
    obtain ⟨rfl, hfetches⟩ := branch_spec hbranch
    exact .inl ⟨⟨e, hact⟩, hfetches⟩
  | fetchAdd i =>
    simp only [act, Option.ite_none_right_eq_some, Option.some.injEq] at hs
    obtain ⟨_, rfl⟩ := hs
    exact .inr ⟨rfl, i, rfl⟩

theorem queue_run {es : List (QueuedPoolAction ι)} (h : (queuedPool C).Run es s) :
    ∃ es', (VyukovMPMC.mpmc C).Run es' s.indexQueue := by
  induction h with
  | start h0 =>
    obtain ⟨slots, rfl⟩ := h0
    exact ⟨[], .start ⟨slots, rfl⟩⟩
  | snoc _ hs ih =>
    obtain ⟨es', hrun⟩ := ih
    rcases queue_step hs with ⟨⟨e', he'⟩, _⟩ | ⟨heq, _⟩
    · exact ⟨es' ++ [e'], hrun.snoc he'⟩
    · exact ⟨es', heq ▸ hrun⟩

theorem calls_le {e : QueuedPoolAction ι} (hs : s.act C e = some s') :
    s.indexQueue.calls ≤ s'.indexQueue.calls := by
  rcases queue_step hs with ⟨⟨e', he'⟩, _⟩ | ⟨heq, _⟩
  · exact VyukovMPMC.calls_le he'
  · rw [heq]

/-- The queue is one, in every state of a run of the pool. -/
theorem queue_inv {es : List (QueuedPoolAction ι)} (h : (queuedPool C).Run es s)
    (hcalls : s.indexQueue.calls < 2 ^ 63) : VyukovMPMC.Inv C s.indexQueue := by
  obtain ⟨es', hrun⟩ := queue_run h
  exact .run hrun hcalls

theorem Inv.run {es : List (QueuedPoolAction ι)}
    (h : ((queuedPool C).restrict FewFetches).Run es s)
    (hcalls : s.indexQueue.calls < 2 ^ 63) : Inv C s := by
  induction h with
  | start h0 =>
    obtain ⟨slots, rfl⟩ := h0
    exact Inv.start slots
  | snoc hrun hs ih =>
    obtain ⟨hfew, hs⟩ := hs
    have hlt := Nat.lt_of_le_of_lt (calls_le hs) hcalls
    have hI := ih hlt
    have hq := queue_inv hrun.of_restrict hlt
    have hq' := queue_inv (hrun.of_restrict.snoc hs) hcalls
    refine hI.change ?_ (change_of_act hq hq' hI.nodup hs)
    intro hfetches
    rcases queue_step hs with ⟨_, hsame⟩ | ⟨_, i, rfl⟩
    · omega
    · exact hfew

/-- **Every index is in one place.**  In every interleaving of the steps of any number of
threads, up to `2 ^ 63` calls of the queue and `2 ^ 32` increments of the counter: an index
that was handed out is held by a caller, with one thread that releases it, in the queue
under one ticket, or lost, and only one of these; no caller holds it twice, and no other
index is anywhere. -/
theorem index_in_one_place {es : List (QueuedPoolAction ι)}
    (h : ((queuedPool C).restrict FewFetches).Run es s) (hcalls : s.indexQueue.calls < 2 ^ 63) :
    s.held.Nodup ∧ (∀ v, v.toNat < min s.fetches C.val → ∃! p, s.At p v) ∧
      ∀ p v, s.At p v → v.toNat < min s.fetches C.val := by
  have hI := Inv.run h hcalls
  exact ⟨hI.nodup, fun v hv => hI.placed.existsUnique hv, fun p v hp => hI.placed.out hp⟩

/-! ### Releases that fail -/

/-- A step that loses an index is the examination of a slot that is not free. -/
theorem lost_step {e : QueuedPoolAction ι} (hs : s.act C e = some s') (hlost : s'.lost ≠ s.lost) :
    ∃ i index tail, e = .queue (.examine i) ∧ s.indexQueue.threads i = .pushExamine index tail ∧
      VyukovMPMC.diff (s.indexQueue.slots (VyukovMPMC.slotAt C tail)).sequence tail < 0 := by
  cases e with
  | acquire i =>
    simp only [act, Option.ite_none_left_eq_some] at hs
    obtain ⟨q, hact, rfl⟩ := Option.map_eq_some_iff.1 hs.2
    exact absurd rfl hlost
  | release i index =>
    simp only [act, Option.ite_none_left_eq_some] at hs
    obtain ⟨q, hact, rfl⟩ := Option.map_eq_some_iff.1 hs.2
    exact absurd rfl hlost
  | queue e =>
    obtain ⟨q, hact, hbranch⟩ := Option.bind_eq_some_iff.1 hs
    cases VyukovMPMC.step_of_act hact with
    | pushFull hi hd => exact ⟨_, _, _, rfl, hi, hd⟩
    | _ => grind [branch, VyukovMPMC.State.setThread_self]
  | fetchAdd i =>
    simp only [act, Option.ite_none_right_eq_some, Option.some.injEq] at hs
    obtain ⟨_, rfl⟩ := hs
    exact absurd rfl hlost

/-- **A release fails only behind a `pop`.**  In every interleaving, a step that loses an
index is a `push` that has come to the slot of a `pop` which has claimed it one lap earlier
and is not finished; a pool whose callers are not in `pop` takes every index back. -/
theorem release_fails_behind_pop {es : List (QueuedPoolAction ι)}
    (h : ((queuedPool C).restrict FewFetches).Run es s) (hcalls : s.indexQueue.calls < 2 ^ 63)
    {e : QueuedPoolAction ι} (hs : s.act C e = some s') (hlost : s'.lost ≠ s.lost) :
    ∃ i index tail j, e = .queue (.examine i) ∧
      s.indexQueue.threads i = .pushExamine index tail ∧ C.val ≤ tail.toNat ∧
      (s.indexQueue.threads j).ticket = some (.pop, tail.toNat - C.val) := by
  have hI := Inv.run h hcalls
  have hq := queue_inv h.of_restrict hcalls
  obtain ⟨i, index, tail, he, hi, hd⟩ := lost_step hs hlost
  have hfew : s.indexQueue.pushed.length + s.indexQueue.popped < 2 ^ 63 := by
    obtain ⟨es', hrun⟩ := queue_run h.of_restrict
    obtain ⟨waiting, -, hle⟩ := VyukovMPMC.Room.run hrun
    omega
  obtain ⟨hlap, hnot⟩ := hq.full hfew hi hd
  have htail : tail.toNat ≤ s.indexQueue.pushed.length := by
    have hok := hq.threads i
    rwa [hi] at hok
  have hclaimed : tail.toNat - C.val < s.indexQueue.popped := by
    by_contra hge
    -- then the queue is full, and one more index is being released
    have hreleasing : releasing (s.indexQueue.threads i) = some index := by
      rw [hi]
      rfl
    obtain ⟨hnodup, hbelow⟩ := hI.waiting_nodup hq hreleasing
    have hlen := BufferPool.length_le_of_below
      (P := ⟨C.val, Nat.lt_trans Nat.zero_lt_one C.one_lt, Nat.lt_of_le_of_lt C.val_le (by decide)⟩)
      hnodup hbelow
    rw [List.length_cons, List.length_drop] at hlen
    have hle := hq.le
    change _ ≤ C.val at hlen
    omega
  obtain ⟨j, hj⟩ := (hq.popping _ hclaimed).resolve_left hnot
  exact ⟨i, index, tail, j, he, hi, hlap, hj⟩

end Steps

/-! ### An index is lost -/

/-- The steps of a `push` that succeeds, of a `pop`, and of an acquire that finds the queue
empty. -/
def pushes (i : Bool) : List (QueuedPoolAction Bool) :=
  [.queue (.load i), .queue (.examine i), .queue (.cas i), .queue (.write i), .queue (.store i)]

def pops (i : Bool) : List (QueuedPoolAction Bool) :=
  [.queue (.load i), .queue (.examine i), .queue (.cas i), .queue (.take i 0), .queue (.store i)]

def takesFresh (i : Bool) : List (QueuedPoolAction Bool) :=
  [.acquire i, .queue (.load i), .queue (.examine i), .fetchAdd i]

/-- A thread acquires two buffers and releases the first; another one stops in the `pop` of
it, while the first thread releases the second buffer, acquires it again, and is about to
release it. -/
def stoppedPop : List (QueuedPoolAction Bool) :=
  takesFresh true ++ takesFresh true ++ .release true 0 :: pushes true ++
    .acquire false :: (pops false).take 3 ++ .release true 1 :: pushes true ++
    .acquire true :: pops true ++ [.release true 1, .queue (.load true)]

theorem calls_le_succ {ι : Type*} [DecidableEq ι] {q q' : VyukovMPMC.State ι UInt32}
    {e : VyukovMPMC.Action ι UInt32} (hs : q.act C e = some q') : q'.calls ≤ q.calls + 1 := by
  cases VyukovMPMC.step_of_act hs with
  | push _ => exact Nat.le_refl _
  | pop _ => exact Nat.le_refl _
  | _ => exact Nat.le_succ _

/-- Every call of the queue is a step of the pool. -/
theorem calls_le_length {ι : Type*} [DecidableEq ι] {s : QueuedPool ι}
    {es : List (QueuedPoolAction ι)} (h : (queuedPool C).Run es s) :
    s.indexQueue.calls ≤ es.length := by
  induction h with
  | start h0 =>
    obtain ⟨slots, rfl⟩ := h0
    exact Nat.le_refl 0
  | snoc _ hs ih =>
    rw [List.length_append, List.length_singleton]
    rcases queue_step hs with ⟨⟨e', he'⟩, _⟩ | ⟨heq, _⟩
    · exact (calls_le_succ he').trans (Nat.succ_le_succ ih)
    · rw [heq]
      exact Nat.le_succ_of_le ih

/-- The next step of the thread finds the slot taken. -/
theorem stoppedPop_run : ∃ s s', ((queuedPool VyukovMPMC.twoSlots).restrict FewFetches).Run
    stoppedPop s ∧ s.indexQueue.calls < 2 ^ 63 ∧
      s.act VyukovMPMC.twoSlots (.queue (.examine true)) = some s' ∧ s'.lost = [1] ∧
      s.lost = [] := by
  have h0 : (queuedPool VyukovMPMC.twoSlots : Machine (QueuedPool Bool) _).init
      (fresh VyukovMPMC.twoSlots fun _ => ⟨0, 0⟩) := ⟨_, rfl⟩
  obtain ⟨s, hrun, hs⟩ := Machine.exists_run
    (f := Machine.guarded FewFetches (act VyukovMPMC.twoSlots))
    (Machine.restrict_step_of_guarded (M := queuedPool VyukovMPMC.twoSlots) fun h => h) h0
    stoppedPop
    (fun s => s.lost = [] ∧
      (s.act VyukovMPMC.twoSlots (.queue (.examine true))).map lost = some [1])
    (by decide +kernel)
  obtain ⟨hnone, hlost⟩ := of_decide_eq_true hs
  obtain ⟨s', hs', hlost'⟩ := Option.map_eq_some_iff.1 hlost
  have hcalls := calls_le_length hrun.of_restrict
  exact ⟨s, s', hrun, Nat.lt_of_le_of_lt hcalls (by decide), hs', hlost', hnone⟩

theorem index_in_one_place_stoppedPop :
    ∃ s, ((queuedPool VyukovMPMC.twoSlots).restrict FewFetches).Run
        (stoppedPop ++ [.queue (.examine true)]) s ∧ s.lost = [1] ∧ s.held.Nodup ∧
      ∃! p, s.At p 1 := by
  obtain ⟨_, s, hrun, _, hs, hlost, _⟩ := stoppedPop_run
  have hrun' : ((queuedPool VyukovMPMC.twoSlots).restrict FewFetches).Run
      (stoppedPop ++ [.queue (.examine true)]) s := hrun.snoc ⟨trivial, hs⟩
  have hcalls := calls_le_length hrun'.of_restrict
  obtain ⟨hnodup, hone, hout⟩ :=
    index_in_one_place hrun' (Nat.lt_of_le_of_lt hcalls (by decide))
  have hat : s.At .lost 1 := by
    show (1 : UInt32) ∈ s.lost
    simp [hlost]
  exact ⟨s, hrun', hlost, hnodup, hone 1 (hout _ _ hat)⟩

theorem release_fails_behind_pop_stoppedPop :
    ∃ s, ((queuedPool VyukovMPMC.twoSlots).restrict FewFetches).Run stoppedPop s ∧
      ∃ i index tail j, s.indexQueue.threads i = .pushExamine index tail ∧
        (s.indexQueue.threads j).ticket = some (.pop, tail.toNat - 2) := by
  obtain ⟨s, s', hrun, hcalls, hs, hlost, hnone⟩ := stoppedPop_run
  have hne : s'.lost ≠ s.lost := by
    rw [hlost, hnone]
    simp
  obtain ⟨i, index, tail, j, _, hi, _, hj⟩ := release_fails_behind_pop hrun hcalls hs hne
  exact ⟨s, hrun, i, index, tail, j, hi, hj⟩

end QueuedPool
