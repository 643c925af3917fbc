/-
The queue of many threads is a queue.

The slot at ticket `t` goes through the numbers `t` (free for the `push` with this
ticket), `t + 1` (full, for the `pop`) and `t + C` (free again, one lap later).
While a counter stands at a ticket, the slot cannot have gone on without it, so
what a thread saw before a compare-exchange that succeeds is still true
(`Inv.free_of_le`, `Inv.ready_of_le`), and from then on the slot is its own
(`Inv.slot_ne`).

* `diff_eq_zero_iff`, `diff_neg_iff` — the signed difference below `2 ^ 63`;
* `Inv.step` — the invariant survives every step;
* `Room.step` — every claim has its own call;
* `bounded_queue` — in every state of every interleaving of fewer than `2 ^ 63`
  calls: every value returned is that of the `push` with the same ticket, once;
  at most `C` tickets are out; `push` reports full and `pop` reports empty only at a
  slot that is not released or not published.
-/
import Mathlib.Data.List.Nodup
import TradingPlatform.Lib.Ring
import TradingPlatform.Mpmc.Model

namespace QueueCapacity

theorem one_lt (C : QueueCapacity) : 1 < C.val :=
  Nat.one_lt_two_pow (Nat.pos_iff_ne_zero.1 C.pos)

theorem val_le (C : QueueCapacity) : C.val ≤ 2 ^ 20 :=
  Nat.pow_le_pow_right (by decide) C.le

end QueueCapacity

namespace VyukovMPMC

variable {C : QueueCapacity} {ι α : Type*}

/-! ### Words and tickets -/

theorem slotAt_eq (pos : UInt64) : slotAt C pos = pos.toNat % C.val := by
  have hle := C.val_le
  rw [slotAt, UInt64.toNat_and, QueueCapacity.mask, UInt64.toNat_ofNat',
    Nat.mod_eq_of_lt (show C.val - 1 < 2 ^ 64 by omega), QueueCapacity.val,
    Nat.and_two_pow_sub_one_eq_mod]

theorem toInt_toInt64 {a : UInt64} (h : a.toNat < 2 ^ 63) : a.toInt64.toInt = a.toNat :=
  BitVec.toInt_eq_toNat_of_lt (show 2 * a.toNat < 2 ^ 64 by omega)

theorem toInt_diff {a b : UInt64} (ha : a.toNat < 2 ^ 63) (hb : b.toNat < 2 ^ 63) :
    (diff a b).toInt = (a.toNat : ℤ) - b.toNat := by
  rw [diff, Int64.toInt_sub, toInt_toInt64 ha, toInt_toInt64 hb]
  exact Int.bmod_eq_of_le (by omega) (by omega)

theorem diff_eq_zero_iff {a b : UInt64} (ha : a.toNat < 2 ^ 63) (hb : b.toNat < 2 ^ 63) :
    diff a b = 0 ↔ a.toNat = b.toNat := by
  rw [← Int64.toInt_inj, toInt_diff ha hb, Int64.toInt_zero]
  omega

theorem diff_neg_iff {a b : UInt64} (ha : a.toNat < 2 ^ 63) (hb : b.toNat < 2 ^ 63) :
    diff a b < 0 ↔ a.toNat < b.toNat := by
  rw [Int64.lt_iff_toInt_lt, toInt_diff ha hb, Int64.toInt_zero]
  omega

theorem toNat_add_one {a : UInt64} (h : a.toNat < 2 ^ 63) : (a + 1).toNat = a.toNat + 1 := by
  rw [UInt64.toNat_add, UInt64.toNat_one, Nat.mod_eq_of_lt (by omega)]

theorem toNat_add_capacity {a : UInt64} (h : a.toNat < 2 ^ 63) :
    (a + UInt64.ofNat C.val).toNat = a.toNat + C.val := by
  have hle := C.val_le
  rw [UInt64.toNat_add, UInt64.toNat_ofNat', Nat.mod_eq_of_lt (show C.val < 2 ^ 64 by omega),
    Nat.mod_eq_of_lt (by omega)]

/-- Neighbouring tickets have different slots. -/
theorem mod_succ_ne (t : ℕ) : (t + 1) % C.val ≠ t % C.val := by
  intro h
  have := Ring.mod_inj (Nat.le_succ t) (Nat.add_lt_add_left C.one_lt t) h.symm
  omega

/-! ### The invariant -/

/-- `push` or `pop`. -/
inductive Side
  | push
  | pop

/-- The number of the slot at a ticket that is the side's turn. -/
def Side.expected : Side → ℕ → ℕ
  | .push, t => t
  | .pop, t => t + 1

/-- How many tickets of the side were claimed. -/
def Side.claimed (s : State ι α) : Side → ℕ
  | .push => s.pushed.length
  | .pop => s.popped

/-- The ticket a thread has claimed and not finished with. -/
def Thread.ticket : Thread α → Option (Side × ℕ)
  | .pushWrite _ tail => some (.push, tail.toNat)
  | .pushStore tail => some (.push, tail.toNat)
  | .popTake head => some (.pop, head.toNat)
  | .popStore head _ => some (.pop, head.toNat)
  | _ => none

/-- The sequence number of a slot. -/
def State.seq (s : State ι α) (j : ℕ) : ℕ := (s.slots j).sequence.toNat

/-- Slot `j` is free for a ticket below the next lap of `H`, or full for one that
was claimed. -/
def Phase (C T H j n : ℕ) : Prop :=
  ∃ t, t % C = j ∧ (n = t ∧ t < H + C ∨ n = t + 1 ∧ t < T)

/-- What the program counter of a thread promises. -/
def ThreadOk (C : QueueCapacity) (s : State ι α) : Thread α → Prop
  | .idle => True
  | .pushLoad _ => True
  | .pushExamine _ tail => tail.toNat ≤ s.pushed.length
  | .pushCas _ tail => tail.toNat ≤ s.pushed.length ∧ tail.toNat ≤ s.seq (tail.toNat % C.val)
  | .pushWrite item tail =>
    s.seq (tail.toNat % C.val) = tail.toNat ∧ s.pushed[tail.toNat]? = some item
  | .pushStore tail =>
    s.seq (tail.toNat % C.val) = tail.toNat ∧
      s.pushed[tail.toNat]? = some (s.slots (tail.toNat % C.val)).value
  | .popLoad => True
  | .popExamine head => head.toNat ≤ s.popped
  | .popCas head => head.toNat ≤ s.popped ∧ head.toNat + 1 ≤ s.seq (head.toNat % C.val)
  | .popTake head =>
    s.seq (head.toNat % C.val) = head.toNat + 1 ∧ head.toNat < s.popped ∧
      s.pushed[head.toNat]? = some (s.slots (head.toNat % C.val)).value
  | .popStore head out =>
    s.seq (head.toNat % C.val) = head.toNat + 1 ∧ head.toNat < s.popped ∧
      s.pushed[head.toNat]? = some out

structure Inv (C : QueueCapacity) (s : State ι α) : Prop where
  tail : s.tail.toNat = s.pushed.length
  head : s.head.toNat = s.popped
  le : s.popped ≤ s.pushed.length
  cap : s.pushed.length ≤ s.popped + C.val
  phase : ∀ j < C.val, Phase C.val s.pushed.length s.popped j (s.seq j)
  held : ∀ t, s.popped ≤ t → s.seq (t % C.val) = t + 1 →
    s.pushed[t]? = some (s.slots (t % C.val)).value
  threads : ∀ i, ThreadOk C s (s.threads i)
  unique : ∀ i j x, (s.threads i).ticket = some x → (s.threads j).ticket = some x → i = j
  published : ∀ t ∈ s.published, t + 1 ≤ s.seq (t % C.val)
  returned : ∀ r ∈ s.returned, r.1 + C.val ≤ s.seq (r.1 % C.val) ∧ s.pushed[r.1]? = some r.2
  once : s.published.Nodup ∧ (s.returned.map Prod.fst).Nodup
  pushing : ∀ t < s.pushed.length,
    t ∈ s.published ∨ ∃ i, (s.threads i).ticket = some (.push, t)
  popping : ∀ t < s.popped,
    t ∈ s.returned.map Prod.fst ∨ ∃ i, (s.threads i).ticket = some (.pop, t)

theorem Phase.mono {T T' H H' j n : ℕ} (h : Phase C.val T H j n) (hT : T ≤ T') (hH : H ≤ H') :
    Phase C.val T' H' j n := by
  obtain ⟨t, hj, ⟨hn, ht⟩ | ⟨hn, ht⟩⟩ := h
  · exact ⟨t, hj, .inl ⟨hn, by omega⟩⟩
  · exact ⟨t, hj, .inr ⟨hn, by omega⟩⟩

/-- A ticket in hand says which number the slot has. -/
theorem ThreadOk.expected {s : State ι α} {w : Thread α} (h : ThreadOk C s w) {side : Side}
    {t : ℕ} (hw : w.ticket = some (side, t)) : s.seq (t % C.val) = side.expected t := by
  cases w with
  | pushWrite item tail =>
    cases hw
    exact h.1
  | pushStore tail =>
    cases hw
    exact h.1
  | popTake head =>
    cases hw
    exact h.1
  | popStore head out =>
    cases hw
    exact h.1
  | _ => cases hw

theorem ThreadOk.lt_claimed {s : State ι α} {w : Thread α} (h : ThreadOk C s w) {side : Side}
    {t : ℕ} (hw : w.ticket = some (side, t)) : t < side.claimed s := by
  cases w with
  | pushWrite item tail =>
    cases hw
    exact (List.getElem?_eq_some_iff.1 h.2).1
  | pushStore tail =>
    cases hw
    exact (List.getElem?_eq_some_iff.1 h.2).1
  | popTake head =>
    cases hw
    exact h.2.1
  | popStore head out =>
    cases hw
    exact h.2.1
  | _ => cases hw

/-- What a thread relies on survives the steps of the others. -/
theorem ThreadOk.mono {s s' : State ι α} {w : Thread α} (h : ThreadOk C s w)
    (hpushed : s.pushed <+: s'.pushed) (hpopped : s.popped ≤ s'.popped)
    (hseq : ∀ j, s.seq j ≤ s'.seq j)
    (hslot : ∀ side t, w.ticket = some (side, t) → s'.slots (t % C.val) = s.slots (t % C.val)) :
    ThreadOk C s' w := by
  have hle := hpushed.length_le
  have hget : ∀ {t : ℕ} {v : α}, s.pushed[t]? = some v → s'.pushed[t]? = some v := by
    intro t v hv
    obtain ⟨rest, hrest⟩ := hpushed
    rw [← hrest, List.getElem?_append_left (List.getElem?_eq_some_iff.1 hv).1]
    exact hv
  cases w with
  | idle => trivial
  | pushLoad item => trivial
  | pushExamine item tail => exact le_trans h hle
  | pushCas item tail => exact ⟨le_trans h.1 hle, le_trans h.2 (hseq _)⟩
  | pushWrite item tail =>
    have hs := hslot _ _ rfl
    exact ⟨(congrArg (fun slot => slot.sequence.toNat) hs).trans h.1, hget h.2⟩
  | pushStore tail =>
    have hs := hslot _ _ rfl
    refine ⟨(congrArg (fun slot => slot.sequence.toNat) hs).trans h.1, ?_⟩
    rw [hs]
    exact hget h.2
  | popLoad => trivial
  | popExamine head => exact le_trans h hpopped
  | popCas head => exact ⟨le_trans h.1 hpopped, le_trans h.2 (hseq _)⟩
  | popTake head =>
    have hs := hslot _ _ rfl
    refine ⟨(congrArg (fun slot => slot.sequence.toNat) hs).trans h.1, lt_of_lt_of_le h.2.1 hpopped,
      ?_⟩
    rw [hs]
    exact hget h.2.2
  | popStore head out =>
    have hs := hslot _ _ rfl
    exact ⟨(congrArg (fun slot => slot.sequence.toNat) hs).trans h.1,
      lt_of_lt_of_le h.2.1 hpopped, hget h.2.2⟩

namespace Inv

variable {s : State ι α}

/-- The slot at a counter that has come up to the number of its ticket is free, and
the `pop` one lap earlier has its ticket. -/
theorem free_of_le (h : Inv C s)
    (hle : s.pushed.length ≤ s.seq (s.pushed.length % C.val)) :
    s.seq (s.pushed.length % C.val) = s.pushed.length ∧ s.pushed.length < s.popped + C.val := by
  have hHT := h.le
  have hC := C.one_lt
  obtain ⟨t, hj, ⟨hn, ht⟩ | ⟨hn, ht⟩⟩ := h.phase _ (Nat.mod_lt s.pushed.length (by omega))
  · have heq := Ring.mod_inj (show s.pushed.length ≤ t by omega) (by omega) hj.symm
    omega
  · exact absurd hj (by
      rw [show s.pushed.length = t + 1 by omega]
      exact (mod_succ_ne t).symm)

/-- The slot at a counter that has come up to the number of its item is full, and
the `push` has its ticket. -/
theorem ready_of_le (h : Inv C s) (hle : s.popped + 1 ≤ s.seq (s.popped % C.val)) :
    s.seq (s.popped % C.val) = s.popped + 1 ∧ s.popped < s.pushed.length := by
  have hcap := h.cap
  have hC := C.one_lt
  obtain ⟨t, hj, ⟨hn, ht⟩ | ⟨hn, ht⟩⟩ := h.phase _ (Nat.mod_lt s.popped (by omega))
  · have heq := Ring.mod_inj (show s.popped ≤ t by omega) (by omega) hj.symm
    omega
  · have heq := Ring.mod_inj (show s.popped ≤ t by omega) (by omega) hj.symm
    omega

/-- An item that was published and whose `pop` has no ticket yet is in its slot. -/
theorem full_of_le (h : Inv C s) {t : ℕ} (hle : t + 1 ≤ s.seq (t % C.val))
    (ht : s.popped ≤ t) : s.seq (t % C.val) = t + 1 := by
  have hcap := h.cap
  have hC := C.one_lt
  obtain ⟨u, hj, ⟨hn, hu⟩ | ⟨hn, hu⟩⟩ := h.phase _ (Nat.mod_lt t (by omega))
  · have heq := Ring.mod_inj (show t ≤ u by omega) (by omega) hj.symm
    omega
  · have heq := Ring.mod_inj (show t ≤ u by omega) (by omega) hj.symm
    omega

/-- A number below the ticket is one of an earlier lap. -/
theorem lap_of_lt (h : Inv C s) {t : ℕ} (hlt : s.seq (t % C.val) < t) : C.val ≤ t := by
  have hC := C.one_lt
  obtain ⟨u, hj, hu⟩ := h.phase _ (Nat.mod_lt t (by omega))
  by_contra hc
  have heq := Ring.mod_inj (show u ≤ t by omega) (by omega) hj
  omega

/-- The threads in possession of a ticket work on different slots. -/
theorem slot_ne (h : Inv C s) {i j : ι} {a b : Side} {t u : ℕ} (hij : j ≠ i)
    (hi : (s.threads i).ticket = some (a, t)) (hj : (s.threads j).ticket = some (b, u)) :
    u % C.val ≠ t % C.val := by
  intro hmod
  have ht := (h.threads i).expected hi
  have hu := (h.threads j).expected hj
  rw [hmod, ht] at hu
  cases a with
  | push =>
    cases b with
    | push =>
      obtain rfl : t = u := hu
      exact hij (h.unique j i _ hj hi)
    | pop =>
      obtain rfl : t = u + 1 := hu
      exact mod_succ_ne u hmod.symm
  | pop =>
    cases b with
    | push =>
      obtain rfl : t + 1 = u := hu
      exact mod_succ_ne t hmod
    | pop =>
      obtain rfl : t = u := Nat.succ_injective hu
      exact hij (h.unique j i _ hj hi)

/-- A slot whose item waits for its `pop` belongs to nobody. -/
theorem held_ne (h : Inv C s) {i : ι} {side : Side} {t u : ℕ}
    (hi : (s.threads i).ticket = some (side, t)) (hu : s.popped ≤ u)
    (hseq : s.seq (u % C.val) = u + 1) : u % C.val ≠ t % C.val := by
  intro hmod
  have ht := (h.threads i).expected hi
  have hlt := (h.threads i).lt_claimed hi
  rw [hmod, ht] at hseq
  cases side with
  | push =>
    obtain rfl : t = u + 1 := hseq
    exact mod_succ_ne u hmod.symm
  | pop =>
    obtain rfl : t = u := Nat.succ_injective hseq
    exact absurd hlt (Nat.not_lt.2 hu)

/-- The owner of a slot changes it: the others do not see it. -/
theorem others {s' : State ι α} (h : Inv C s) {i : ι} {side : Side} {pos : UInt64}
    (hi : (s.threads i).ticket = some (side, pos.toNat)) {slot : Slot α}
    (hpushed : s'.pushed = s.pushed) (hpopped : s'.popped = s.popped)
    (hslots : s'.slots = Function.update s.slots (pos.toNat % C.val) slot)
    (hseq : ∀ j, s.seq j ≤ s'.seq j) (j : ι) (hj : j ≠ i) : ThreadOk C s' (s.threads j) := by
  refine (h.threads j).mono (hpushed ▸ List.prefix_rfl) (le_of_eq hpopped.symm) hseq
    fun b u hb => ?_
  rw [hslots]
  exact Function.update_of_ne (h.slot_ne hj hi hb) _ _

/-- No number has reached the sign bit. -/
theorem seq_lt (h : Inv C s) (hfew : s.pushed.length + s.popped < 2 ^ 63) {j : ℕ}
    (hj : j < C.val) : s.seq j < 2 ^ 63 := by
  have hle := C.val_le
  have hHT := h.le
  obtain ⟨t, -, ⟨hn, ht⟩ | ⟨hn, ht⟩⟩ := h.phase j hj
  · omega
  · omega

end Inv

/-! ### The constructor -/

theorem construct_sequence (slots : ℕ → Slot α) {n j : ℕ} (hj : j < n) :
    (construct slots n j).sequence = UInt64.ofNat j := by
  induction n with
  | zero => exact absurd hj (Nat.not_lt_zero j)
  | succ n ih =>
    rw [construct]
    rcases Nat.lt_or_eq_of_le (Nat.lt_succ_iff.1 hj) with hlt | rfl
    · rw [Function.update_of_ne (Nat.ne_of_lt hlt)]
      exact ih hlt
    · rw [Function.update_self]

theorem Inv.start (slots : ℕ → Slot α) : Inv C (.start C slots : State ι α) := by
  have hle := C.val_le
  have hseq : ∀ j < C.val, (State.start C slots : State ι α).seq j = j := by
    intro j hj
    show (construct slots C.val j).sequence.toNat = j
    rw [construct_sequence slots hj, UInt64.toNat_ofNat', Nat.mod_eq_of_lt (by omega)]
  refine {
    tail := rfl
    head := rfl
    le := le_refl _
    cap := Nat.zero_le _
    phase := fun j hj => ⟨j, Nat.mod_eq_of_lt hj, .inl ⟨hseq j hj, by
      rw [Nat.add_comm]
      exact hj⟩⟩
    held := fun t _ ht => ?_
    threads := fun i => trivial
    unique := fun i j x hi => by cases hi
    published := fun t ht => absurd ht List.not_mem_nil
    returned := fun r hr => absurd hr List.not_mem_nil
    once := ⟨List.nodup_nil, List.nodup_nil⟩
    pushing := fun t ht => absurd ht (Nat.not_lt_zero t)
    popping := fun t ht => absurd ht (Nat.not_lt_zero t) }
  have hmod := Nat.mod_lt t (show 0 < C.val from Nat.lt_of_succ_lt C.one_lt)
  rw [hseq _ hmod] at ht
  have := Nat.mod_le t C.val
  omega

/-! ### The steps -/

theorem modify_slots (s : State ι α) (pos : UInt64) (f : Slot α → Slot α) :
    (s.modify C pos f).slots =
      Function.update s.slots (pos.toNat % C.val) (f (s.slots (pos.toNat % C.val))) := by
  rw [← slotAt_eq]
  rfl

section Steps

variable [DecidableEq ι] {s s' : State ι α} {i : ι} {w : Thread α}

/-- Every ticket has one owner, also after thread `i` has moved. -/
theorem unique_update (h : Inv C s)
    (hw : ∀ x, w.ticket = some x → (s.threads i).ticket = some x ∨
      ∀ j, (s.threads j).ticket ≠ some x) :
    ∀ j k x, (Function.update s.threads i w j).ticket = some x →
      (Function.update s.threads i w k).ticket = some x → j = k := by
  have hother : ∀ j x, j ≠ i → (s.threads j).ticket = some x → w.ticket ≠ some x := by
    intro j x hj hx hwx
    rcases hw x hwx with hi | hnone
    · exact hj (h.unique j i x hx hi)
    · exact hnone j hx
  intro j k x hj hk
  by_cases hji : j = i
  · by_cases hki : k = i
    · rw [hji, hki]
    · rw [hji, Function.update_self] at hj
      rw [Function.update_of_ne hki] at hk
      exact absurd hj (hother k x hki hk)
  · rw [Function.update_of_ne hji] at hj
    by_cases hki : k = i
    · rw [hki, Function.update_self] at hk
      exact absurd hk (hother j x hji hj)
    · rw [Function.update_of_ne hki] at hk
      exact h.unique j k x hj hk

theorem exists_update {x : Side × ℕ} (h : ∃ j, (s.threads j).ticket = some x)
    (hw : (s.threads i).ticket = some x → w.ticket = some x) :
    ∃ j, (Function.update s.threads i w j).ticket = some x := by
  obtain ⟨j, hj⟩ := h
  refine ⟨j, ?_⟩
  by_cases hji : j = i
  · rw [hji] at hj ⊢
    rw [Function.update_self]
    exact hw hj
  · rw [Function.update_of_ne hji]
    exact hj

/-- A thread without a ticket gives none away. -/
theorem exists_update_of_none {x : Side × ℕ} (h : ∃ j, (s.threads j).ticket = some x)
    (hi : (s.threads i).ticket = none) :
    ∃ j, (Function.update s.threads i w j).ticket = some x := by
  refine exists_update h fun hx => ?_
  rw [hi] at hx
  cases hx

theorem threads_update (hw : ThreadOk C s' w)
    (hothers : ∀ j, j ≠ i → ThreadOk C s' (s.threads j)) :
    ∀ j, ThreadOk C s' (Function.update s.threads i w j) := by
  intro j
  by_cases hji : j = i
  · rw [hji, Function.update_self]
    exact hw
  · rw [Function.update_of_ne hji]
    exact hothers j hji

namespace Inv

/-- A thread without a ticket moves on its own. -/
theorem moved (h : Inv C s) {v : Thread α} (hi : s.threads i = v) (hv : v.ticket = none)
    (w : Thread α) (hnew : w.ticket = none) (hok : ThreadOk C s w) (n : ℕ) :
    Inv C { s.setThread i w with calls := n } :=
  have hold : (s.threads i).ticket = none := hi ▸ hv
  { h with
    threads := threads_update hok fun j _ => h.threads j
    unique := unique_update h fun x hx => by
      rw [hnew] at hx
      cases hx
    pushing := fun t ht => (h.pushing t ht).imp_right fun hex => exists_update_of_none hex hold
    popping := fun t ht => (h.popping t ht).imp_right fun hex => exists_update_of_none hex hold }

/-- A compare-exchange on `tail_` that succeeds. -/
theorem claimTail (h : Inv C s) (hfew : s.pushed.length + s.popped < 2 ^ 63) {item : α}
    (hi : s.threads i = .pushCas item s.tail) :
    Inv C { s.setThread i (.pushWrite item s.tail) with
      tail := s.tail + 1, pushed := s.pushed ++ [item] } := by
  have hT := h.tail
  have hle := h.le
  have hlen : (s.pushed ++ [item]).length = s.pushed.length + 1 := by
    rw [List.length_append, List.length_singleton]
  have hget : ∀ {t : ℕ} {v : α}, s.pushed[t]? = some v → (s.pushed ++ [item])[t]? = some v := by
    intro t v hv
    rw [List.getElem?_append_left (List.getElem?_eq_some_iff.1 hv).1]
    exact hv
  have hok := h.threads i
  rw [hi] at hok
  have hseen := hok.2
  rw [hT] at hseen
  -- the tail is still the one that was loaded, and the number seen can only have grown
  obtain ⟨hfree, hroom⟩ := h.free_of_le hseen
  have hnone : (s.threads i).ticket = none := by
    rw [hi]
    rfl
  exact {
    tail := by
      rw [hlen, ← hT]
      exact toNat_add_one (by omega)
    head := h.head
    le := by
      rw [hlen]
      exact Nat.le_succ_of_le hle
    cap := by
      rw [hlen]
      exact hroom
    phase := fun j hj => (h.phase j hj).mono (hlen ▸ Nat.le_succ _) (le_refl _)
    held := fun t ht hseq => hget (h.held t ht hseq)
    threads := by
      refine threads_update ⟨?_, ?_⟩ fun j _ =>
        (h.threads j).mono (List.prefix_append _ _) (le_refl _) (fun _ => le_refl _)
          fun _ _ _ => rfl
      · rw [hT]
        exact hfree
      · rw [hT]
        exact List.getElem?_concat_length
    unique := by
      refine unique_update h fun x hx => .inr fun j hj => ?_
      cases hx
      -- tickets from the tail on are nobody's
      have hlt := (h.threads j).lt_claimed hj
      rw [hT] at hlt
      exact Nat.lt_irrefl _ hlt
    published := h.published
    returned := fun r hr => ⟨(h.returned r hr).1, hget (h.returned r hr).2⟩
    once := h.once
    pushing := fun t ht => by
      rw [hlen] at ht
      rcases Nat.lt_or_eq_of_le (Nat.lt_succ_iff.1 ht) with hlt | rfl
      · exact (h.pushing t hlt).imp_right fun hex => exists_update_of_none hex hnone
      · refine .inr ⟨i, ?_⟩
        show (Function.update s.threads i _ i).ticket = _
        rw [Function.update_self, Thread.ticket, hT]
    popping := fun t ht => (h.popping t ht).imp_right fun hex => exists_update_of_none hex hnone }

/-- A compare-exchange on `head_` that succeeds. -/
theorem claimHead (h : Inv C s) (hfew : s.pushed.length + s.popped < 2 ^ 63)
    (hi : s.threads i = .popCas s.head) :
    Inv C { s.setThread i (.popTake s.head) with
      head := s.head + 1, popped := s.popped + 1 } := by
  have hH := h.head
  have hcap := h.cap
  have hok := h.threads i
  rw [hi] at hok
  have hseen := hok.2
  rw [hH] at hseen
  -- the head is still the one that was loaded, so nobody has taken the message since
  obtain ⟨hready, hlt⟩ := h.ready_of_le hseen
  have hnone : (s.threads i).ticket = none := by
    rw [hi]
    rfl
  exact {
    tail := h.tail
    head := by
      show (s.head + 1).toNat = s.popped + 1
      rw [← hH]
      exact toNat_add_one (by omega)
    le := hlt
    cap := by
      show s.pushed.length ≤ s.popped + 1 + C.val
      omega
    phase := fun j hj => (h.phase j hj).mono (le_refl _) (Nat.le_succ _)
    held := fun t ht hseq => h.held t (Nat.le_of_succ_le ht) hseq
    threads := by
      refine threads_update ⟨?_, ?_, ?_⟩ fun j _ =>
        (h.threads j).mono List.prefix_rfl (Nat.le_succ _) (fun _ => le_refl _) fun _ _ _ => rfl
      · rw [hH]
        exact hready
      · rw [hH]
        exact Nat.lt_succ_self _
      · rw [hH]
        exact h.held _ (le_refl _) hready
    unique := by
      refine unique_update h fun x hx => .inr fun j hj => ?_
      cases hx
      have hlt := (h.threads j).lt_claimed hj
      rw [hH] at hlt
      exact Nat.lt_irrefl _ hlt
    published := h.published
    returned := h.returned
    once := h.once
    pushing := fun t ht => (h.pushing t ht).imp_right fun hex => exists_update_of_none hex hnone
    popping := fun t ht => by
      rcases Nat.lt_or_eq_of_le (Nat.lt_succ_iff.1 ht) with hlt | rfl
      · exact (h.popping t hlt).imp_right fun hex => exists_update_of_none hex hnone
      · refine .inr ⟨i, ?_⟩
        show (Function.update s.threads i _ i).ticket = _
        rw [Function.update_self, Thread.ticket, hH] }

/-- The owner of a slot copies a value into it or out of it. -/
theorem setValue (h : Inv C s) {side : Side} {pos : UInt64} {v : α}
    (hi : (s.threads i).ticket = some (side, pos.toNat)) (hw : w.ticket = (s.threads i).ticket)
    (hok : ThreadOk C ((s.modify C pos fun slot => { slot with value := v }).setThread i w) w) :
    Inv C ((s.modify C pos fun slot => { slot with value := v }).setThread i w) := by
  have hslots : ((s.modify C pos fun slot => { slot with value := v }).setThread i w).slots =
      Function.update s.slots (pos.toNat % C.val)
        { s.slots (pos.toNat % C.val) with value := v } :=
    modify_slots (C := C) s pos fun slot => { slot with value := v }
  -- copying leaves every number alone
  have hseq : ∀ j, ((s.modify C pos fun slot => { slot with value := v }).setThread i w).seq j =
      s.seq j := by
    intro j
    rw [State.seq, hslots]
    by_cases hj : j = pos.toNat % C.val
    · rw [hj, Function.update_self]
      rfl
    · rw [Function.update_of_ne hj]
      rfl
  exact {
    tail := h.tail
    head := h.head
    le := h.le
    cap := h.cap
    phase := fun j hj => by
      rw [hseq]
      exact h.phase j hj
    held := fun t ht htseq => by
      rw [hseq] at htseq
      rw [hslots, Function.update_of_ne (h.held_ne hi ht htseq)]
      exact h.held t ht htseq
    threads := threads_update hok
      (h.others hi rfl rfl hslots fun j => le_of_eq (hseq j).symm)
    unique := unique_update (s := s) h fun x hx => .inl (hw ▸ hx)
    published := fun t ht => by
      rw [hseq]
      exact h.published t ht
    returned := fun r hr => by
      rw [hseq]
      exact h.returned r hr
    once := h.once
    pushing := fun t ht => (h.pushing t ht).imp_right fun hex => exists_update hex (hw ▸ ·)
    popping := fun t ht => (h.popping t ht).imp_right fun hex => exists_update hex (hw ▸ ·) }

/-- The owner of a slot hands it on. -/
theorem setSequence (h : Inv C s) {side : Side} {pos n : UInt64} {published : List ℕ}
    {returned : List (ℕ × α)} (hi : (s.threads i).ticket = some (side, pos.toNat))
    (hn : s.seq (pos.toNat % C.val) ≤ n.toNat)
    (hphase : Phase C.val s.pushed.length s.popped (pos.toNat % C.val) n.toNat)
    (hheld : ∀ t, s.popped ≤ t → t % C.val = pos.toNat % C.val → n.toNat = t + 1 →
      s.pushed[t]? = some (s.slots (pos.toNat % C.val)).value)
    (hpublished : ∀ t ∈ published, t ∈ s.published ∨ t = pos.toNat ∧ t + 1 ≤ n.toNat)
    (hreturned : ∀ r ∈ returned, r ∈ s.returned ∨
      r.1 = pos.toNat ∧ r.1 + C.val ≤ n.toNat ∧ s.pushed[r.1]? = some r.2)
    (honce : published.Nodup ∧ (returned.map Prod.fst).Nodup)
    (hpushing : ∀ t, t ∈ s.published ∨ side = .push ∧ t = pos.toNat → t ∈ published)
    (hpopping : ∀ t, t ∈ s.returned.map Prod.fst ∨ side = .pop ∧ t = pos.toNat →
      t ∈ returned.map Prod.fst) :
    Inv C { (s.modify C pos fun slot => { slot with sequence := n }).setThread i .idle with
      published := published
      returned := returned } := by
  have hslots : (s.modify C pos fun slot => { slot with sequence := n }).slots =
      Function.update s.slots (pos.toNat % C.val)
        { s.slots (pos.toNat % C.val) with sequence := n } :=
    modify_slots s pos _
  have hself : (s.modify C pos fun slot => { slot with sequence := n }).seq (pos.toNat % C.val) =
      n.toNat := by
    rw [State.seq, hslots, Function.update_self]
  have hne : ∀ {j : ℕ}, j ≠ pos.toNat % C.val →
      (s.modify C pos fun slot => { slot with sequence := n }).seq j = s.seq j := by
    intro j hj
    rw [State.seq, hslots, Function.update_of_ne hj]
    rfl
  -- numbers only grow, which is what the other threads rely on
  have hseq : ∀ j, s.seq j ≤ (s.modify C pos fun slot => { slot with sequence := n }).seq j := by
    intro j
    by_cases hj : j = pos.toNat % C.val
    · rw [hj, hself]
      exact hn
    · exact le_of_eq (hne hj).symm
  exact {
    tail := h.tail
    head := h.head
    le := h.le
    cap := h.cap
    phase := fun j hj => by
      by_cases hj' : j = pos.toNat % C.val
      · rw [hj']
        exact hself ▸ hphase
      · exact hne hj' ▸ h.phase j hj
    held := fun t ht htseq => by
      show s.pushed[t]? = some
        ((s.modify C pos fun slot => { slot with sequence := n }).slots (t % C.val)).value
      by_cases ht' : t % C.val = pos.toNat % C.val
      · rw [hslots, ht', Function.update_self]
        refine hheld t ht ht' ?_
        rw [← hself, ← ht']
        exact htseq
      · rw [hslots, Function.update_of_ne ht']
        exact h.held t ht ((hne ht').symm.trans htseq)
    threads := threads_update trivial (h.others hi rfl rfl hslots hseq)
    unique := unique_update (s := s) h fun x hx => by cases hx
    published := fun t ht => by
      rcases hpublished t ht with hold | ⟨rfl, hle⟩
      · exact le_trans (h.published t hold) (hseq _)
      · exact hself ▸ hle
    returned := fun r hr => by
      rcases hreturned r hr with hold | ⟨heq, hle, hget⟩
      · exact ⟨le_trans (h.returned r hold).1 (hseq _), (h.returned r hold).2⟩
      · refine ⟨?_, hget⟩
        rw [heq] at hle ⊢
        exact hself ▸ hle
    once := honce
    pushing := fun t ht => by
      rcases h.pushing t ht with hold | hex
      · exact .inl (hpushing t (.inl hold))
      · -- the ticket this thread gives up is the one it has finished with
        by_cases hit : (s.threads i).ticket = some (.push, t)
        · rw [hi] at hit
          cases hit
          exact .inl (hpushing _ (.inr ⟨rfl, rfl⟩))
        · exact .inr (exists_update (s := s) hex fun hx => absurd hx hit)
    popping := fun t ht => by
      rcases h.popping t ht with hold | hex
      · exact .inl (hpopping t (.inl hold))
      · by_cases hit : (s.threads i).ticket = some (.pop, t)
        · rw [hi] at hit
          cases hit
          exact .inl (hpopping _ (.inr ⟨rfl, rfl⟩))
        · exact .inr (exists_update (s := s) hex fun hx => absurd hx hit) }

theorem publish (h : Inv C s) (hfew : s.pushed.length + s.popped < 2 ^ 63) {tail : UInt64}
    (hi : s.threads i = .pushStore tail) :
    Inv C { (s.modify C tail fun slot => { slot with sequence := tail + 1 }).setThread i
        .idle with
      published := s.published ++ [tail.toNat] } := by
  have hok := h.threads i
  rw [hi] at hok
  obtain ⟨hseq, hget⟩ := hok
  have hlt := (List.getElem?_eq_some_iff.1 hget).1
  have hn : (tail + 1).toNat = tail.toNat + 1 := toNat_add_one (by omega)
  have hticket : (s.threads i).ticket = some (.push, tail.toNat) := by
    rw [hi]
    rfl
  refine h.setSequence hticket ?_ ?_ ?_ ?_ (fun r hr => .inl hr) ⟨?_, h.once.2⟩ ?_ ?_
  · rw [hseq, hn]
    exact Nat.le_succ _
  · exact ⟨tail.toNat, rfl, .inr ⟨hn, hlt⟩⟩
  · intro t _ _ ht
    obtain rfl : tail.toNat = t := by omega
    exact hget
  · intro t ht
    rcases List.mem_append.1 ht with ht | ht
    · exact .inl ht
    · obtain rfl := List.mem_singleton.1 ht
      exact .inr ⟨rfl, le_of_eq hn.symm⟩
  · refine List.nodup_append.2 ⟨h.once.1, List.nodup_singleton _, ?_⟩
    rintro t ht u hu rfl
    obtain rfl := List.mem_singleton.1 hu
    have := h.published _ ht
    omega
  · rintro t (ht | ⟨-, rfl⟩)
    · exact List.mem_append_left _ ht
    · exact List.mem_append_right _ (List.mem_singleton_self _)
  · rintro t (ht | ⟨hside, -⟩)
    · exact ht
    · cases hside

theorem release (h : Inv C s) (hfew : s.pushed.length + s.popped < 2 ^ 63) {head : UInt64}
    {out : α} (hi : s.threads i = .popStore head out) :
    Inv C { (s.modify C head fun slot =>
        { slot with sequence := head + UInt64.ofNat C.val }).setThread i .idle with
      returned := s.returned ++ [(head.toNat, out)] } := by
  have hC := C.one_lt
  have hok := h.threads i
  rw [hi] at hok
  obtain ⟨hseq, hlt, hget⟩ := hok
  have hn : (head + UInt64.ofNat C.val).toNat = head.toNat + C.val :=
    toNat_add_capacity (by omega)
  have hticket : (s.threads i).ticket = some (.pop, head.toNat) := by
    rw [hi]
    rfl
  refine h.setSequence hticket ?_ ?_ ?_ (fun t ht => .inl ht) ?_ ⟨h.once.1, ?_⟩ ?_ ?_
  · rw [hseq, hn]
    omega
  · exact ⟨head.toNat + C.val, Nat.add_mod_right _ _, .inl ⟨hn, by omega⟩⟩
  · intro t _ hmod ht
    -- one lap on, the slot is free for a ticket and not full for one
    rw [hn, ← Nat.add_mod_right head.toNat] at *
    exact absurd hmod.symm (by rw [ht]; exact mod_succ_ne t)
  · intro r hr
    rcases List.mem_append.1 hr with hr | hr
    · exact .inl hr
    · obtain rfl := List.mem_singleton.1 hr
      exact .inr ⟨rfl, le_of_eq hn.symm, hget⟩
  · rw [List.map_append]
    refine List.nodup_append.2 ⟨h.once.2, List.nodup_singleton _, ?_⟩
    rintro t ht u hu rfl
    obtain rfl := List.mem_singleton.1 hu
    obtain ⟨r, hr, hr1⟩ := List.mem_map.1 ht
    have := (h.returned r hr).1
    rw [hr1] at this
    change head.toNat + C.val ≤ s.seq (head.toNat % C.val) at this
    omega
  · rintro t (ht | ⟨hside, -⟩)
    · exact ht
    · cases hside
  · rw [List.map_append]
    rintro t (ht | ⟨-, rfl⟩)
    · exact List.mem_append_left _ ht
    · exact List.mem_append_right _ (List.mem_singleton_self _)

/-- The invariant survives every step. -/
theorem step (h : Inv C s) (hfew : s.pushed.length + s.popped < 2 ^ 63) {e : Action ι α}
    (hs : s.act C e = some s') : Inv C s' := by
  have hC := C.one_lt
  cases step_of_act hs with
  | push hi => exact h.moved hi rfl (.pushLoad _) rfl trivial _
  | pop hi => exact h.moved hi rfl .popLoad rfl trivial _
  | loadTail hi => exact h.moved hi rfl (.pushExamine _ s.tail) rfl (le_of_eq h.tail) s.calls
  | loadHead hi => exact h.moved hi rfl (.popExamine s.head) rfl (le_of_eq h.head) s.calls
  | @pushFree i item tail hi hd =>
    have hok := h.threads i
    rw [hi] at hok
    refine h.moved hi rfl (.pushCas item tail) rfl ⟨hok, ?_⟩ s.calls
    -- numbers and tickets are far below the sign bit, so the difference says whether they agree
    have hlt := h.seq_lt hfew (Nat.mod_lt tail.toNat (show 0 < C.val by omega))
    rw [slotAt_eq, diff_eq_zero_iff hlt (Nat.lt_of_le_of_lt hok (by omega))] at hd
    exact le_of_eq hd.symm
  | pushFull hi _ => exact h.moved hi rfl .idle rfl trivial s.calls
  | pushLate hi _ _ => exact h.moved hi rfl (.pushLoad _) rfl trivial s.calls
  | @popReady i head hi hd =>
    have hHT := h.le
    have hok := h.threads i
    rw [hi] at hok
    change head.toNat ≤ s.popped at hok
    refine h.moved hi rfl (.popCas head) rfl ⟨hok, ?_⟩ s.calls
    have hlt := h.seq_lt hfew (Nat.mod_lt head.toNat (show 0 < C.val by omega))
    have hn : (head + 1).toNat = head.toNat + 1 := toNat_add_one (by omega)
    rw [slotAt_eq, diff_eq_zero_iff hlt (by omega), hn] at hd
    exact le_of_eq hd.symm
  | popEmpty hi _ => exact h.moved hi rfl .idle rfl trivial s.calls
  | popLate hi _ _ => exact h.moved hi rfl .popLoad rfl trivial s.calls
  | claimTail hi => exact h.claimTail hfew hi
  | claimHead hi => exact h.claimHead hfew hi
  | missTail hi => exact h.moved hi rfl (.pushExamine _ s.tail) rfl (le_of_eq h.tail) s.calls
  | missHead hi => exact h.moved hi rfl (.popExamine s.head) rfl (le_of_eq h.head) s.calls
  | @write i item tail hi =>
    have hok := h.threads i
    rw [hi] at hok
    have hticket : (s.threads i).ticket = some (.push, tail.toNat) := by
      rw [hi]
      rfl
    have hslot := congrFun (modify_slots (C := C) s tail fun slot => { slot with value := item })
      (tail.toNat % C.val)
    rw [Function.update_self] at hslot
    refine h.setValue hticket hticket.symm ⟨?_, ?_⟩
    · exact (congrArg (fun slot => slot.sequence.toNat) hslot).trans hok.1
    · exact hok.2.trans (congrArg (fun slot => some slot.value) hslot).symm
  | @take i left head hi =>
    have hok := h.threads i
    rw [hi] at hok
    have hticket : (s.threads i).ticket = some (.pop, head.toNat) := by
      rw [hi]
      rfl
    have hslot := congrFun (modify_slots (C := C) s head fun slot => { slot with value := left })
      (head.toNat % C.val)
    rw [Function.update_self] at hslot
    refine h.setValue hticket hticket.symm ⟨?_, hok.2.1, ?_⟩
    · exact (congrArg (fun slot => slot.sequence.toNat) hslot).trans hok.1
    · rw [slotAt_eq]
      exact hok.2.2
  | publish hi => exact h.publish hfew hi
  | release hi => exact h.release hfew hi

end Inv

/-! ### Every claim has its call -/

/-- The thread has called and not claimed a ticket. -/
def Thread.claiming : Thread α → Bool
  | .pushLoad _ => true
  | .pushExamine _ _ => true
  | .pushCas _ _ => true
  | .popLoad => true
  | .popExamine _ => true
  | .popCas _ => true
  | _ => false

/-- There are as many calls as claims, and one more for each thread that is still
about to claim. -/
def Room (s : State ι α) : Prop :=
  ∃ waiting : List ι, (∀ i, (s.threads i).claiming = true → i ∈ waiting) ∧
    s.pushed.length + s.popped + waiting.length ≤ s.calls

namespace Room

/-- A thread that was claiming goes on, and nothing is counted. -/
theorem moved (h : Room s) (hi : (s.threads i).claiming = true)
    (hthreads : s'.threads = Function.update s.threads i w) (hcalls : s'.calls = s.calls)
    (hpushed : s'.pushed.length = s.pushed.length) (hpopped : s'.popped = s.popped) : Room s' := by
  obtain ⟨waiting, hmem, hle⟩ := h
  refine ⟨waiting, fun j hj => ?_, by omega⟩
  by_cases hji : j = i
  · rw [hji]
    exact hmem i hi
  · rw [hthreads, Function.update_of_ne hji] at hj
    exact hmem j hj

/-- A thread that is not claiming afterwards. -/
theorem finished (h : Room s) (hw : w.claiming = false)
    (hthreads : s'.threads = Function.update s.threads i w) (hcalls : s'.calls = s.calls)
    (hle : s'.pushed.length + s'.popped ≤ s.pushed.length + s.popped) : Room s' := by
  obtain ⟨waiting, hmem, hcount⟩ := h
  refine ⟨waiting, fun j hj => ?_, by omega⟩
  by_cases hji : j = i
  · rw [hthreads, hji, Function.update_self, hw] at hj
    cases hj
  · rw [hthreads, Function.update_of_ne hji] at hj
    exact hmem j hj

/-- A call begins. -/
theorem called (h : Room s) : Room { s.setThread i w with calls := s.calls + 1 } := by
  obtain ⟨waiting, hmem, hcount⟩ := h
  refine ⟨i :: waiting, fun j hj => ?_, ?_⟩
  · by_cases hji : j = i
    · rw [hji]
      exact List.mem_cons_self
    · change (Function.update s.threads i w j).claiming = true at hj
      rw [Function.update_of_ne hji] at hj
      exact List.mem_cons_of_mem _ (hmem j hj)
  · show s.pushed.length + s.popped + (waiting.length + 1) ≤ s.calls + 1
    omega

/-- A claim succeeds: the thread leaves the list. -/
theorem claimed (h : Room s) (hi : (s.threads i).claiming = true) (hw : w.claiming = false)
    (hthreads : s'.threads = Function.update s.threads i w) (hcalls : s'.calls = s.calls)
    (hle : s'.pushed.length + s'.popped ≤ s.pushed.length + s.popped + 1) : Room s' := by
  obtain ⟨waiting, hmem, hcount⟩ := h
  have hin := hmem i hi
  have hlen := List.length_erase_of_mem hin
  have hpos := List.length_pos_of_mem hin
  refine ⟨waiting.erase i, fun j hj => ?_, by omega⟩
  by_cases hji : j = i
  · rw [hthreads, hji, Function.update_self, hw] at hj
    cases hj
  · rw [hthreads, Function.update_of_ne hji] at hj
    exact (List.mem_erase_of_ne hji).2 (hmem j hj)

theorem step (h : Room s) {e : Action ι α} (hs : s.act C e = some s') : Room s' := by
  cases step_of_act hs with
  | push hi => exact h.called
  | pop hi => exact h.called
  | loadTail hi => exact h.moved (by rw [hi]; rfl) rfl rfl rfl rfl
  | loadHead hi => exact h.moved (by rw [hi]; rfl) rfl rfl rfl rfl
  | pushFree hi _ => exact h.moved (by rw [hi]; rfl) rfl rfl rfl rfl
  | pushFull hi _ => exact h.moved (by rw [hi]; rfl) rfl rfl rfl rfl
  | pushLate hi _ _ => exact h.moved (by rw [hi]; rfl) rfl rfl rfl rfl
  | popReady hi _ => exact h.moved (by rw [hi]; rfl) rfl rfl rfl rfl
  | popEmpty hi _ => exact h.moved (by rw [hi]; rfl) rfl rfl rfl rfl
  | popLate hi _ _ => exact h.moved (by rw [hi]; rfl) rfl rfl rfl rfl
  | claimTail hi =>
    refine h.claimed (w := .pushWrite _ s.tail) (by rw [hi]; rfl) rfl rfl rfl ?_
    simp only [List.length_append, List.length_singleton, State.setThread]
    omega
  | claimHead hi => exact h.claimed (w := .popTake s.head) (by rw [hi]; rfl) rfl rfl rfl (le_refl _)
  | missTail hi => exact h.moved (by rw [hi]; rfl) rfl rfl rfl rfl
  | missHead hi => exact h.moved (by rw [hi]; rfl) rfl rfl rfl rfl
  | write hi => exact h.finished (w := .pushStore _) rfl rfl rfl (le_refl _)
  | take hi => exact h.finished (w := .popStore _ _) rfl rfl rfl (le_refl _)
  | publish hi => exact h.finished (w := .idle) rfl rfl rfl (le_refl _)
  | release hi => exact h.finished (w := .idle) rfl rfl rfl (le_refl _)

end Room

theorem calls_le {e : Action ι α} (hs : s.act C e = some s') : s.calls ≤ s'.calls := by
  cases step_of_act hs with
  | push _ => exact Nat.le_succ _
  | pop _ => exact Nat.le_succ _
  | _ => exact le_refl _

theorem Room.run {es : List (Action ι α)} (h : (mpmc C).Run es s) : Room s := by
  refine h.invariant ?_ fun s e s' hroom hs => hroom.step hs
  rintro s ⟨slots, rfl⟩
  refine ⟨[], fun i hi => ?_, le_refl _⟩
  cases hi

theorem Inv.run {es : List (Action ι α)} (h : (mpmc C).Run es s) (hcalls : s.calls < 2 ^ 63) :
    Inv C s := by
  induction h with
  | start h0 =>
    obtain ⟨slots, rfl⟩ := h0
    exact Inv.start slots
  | snoc hrun hs ih =>
    have hlt := Nat.lt_of_le_of_lt (calls_le hs) hcalls
    obtain ⟨waiting, -, hle⟩ := Room.run hrun
    exact (ih hlt).step (by omega) hs

end Steps

/-! ### Every interleaving -/

/-- What makes the memory and what was done so far those of a bounded queue. -/
structure IsQueue [DecidableEq ι] (C : QueueCapacity) (s : State ι α) : Prop where
  /-- A value returned is that of the claim of `tail_` with the same number, and was
  stored. -/
  delivered : ∀ t v, (t, v) ∈ s.returned → s.pushed[t]? = some v ∧ t ∈ s.published
  /-- No ticket is stored twice or returned twice. -/
  once : s.published.Nodup ∧ (s.returned.map Prod.fst).Nodup
  /-- The counters count the claims, and tickets are their numbers. -/
  tickets : s.tail.toNat = s.pushed.length ∧ s.head.toNat = s.popped
  /-- No more than the capacity is claimed and not popped. -/
  cap : s.head.toNat ≤ s.tail.toNat ∧ s.tail.toNat - s.head.toNat ≤ C.val
  /-- What was claimed on both sides is returned, or on its way to be. -/
  popping : ∀ t < s.popped, t ∈ s.returned.map Prod.fst ∨
    ∃ i, (s.threads i).ticket = some (.pop, t)
  /-- What was claimed by `push` only is in its slot, or on its way to it. -/
  waiting : ∀ t, s.popped ≤ t → t < s.pushed.length →
    s.seq (t % C.val) = t + 1 ∧ s.pushed[t]? = some (s.slots (t % C.val)).value ∨
    ∃ i, (s.threads i).ticket = some (.push, t)
  /-- `push` reports full only at a slot the `pop` one lap earlier has not released. -/
  full : ∀ i item tail s', s.threads i = .pushExamine item tail →
    (mpmc C).step s (.examine i) s' → s'.threads i = .idle →
    C.val ≤ tail.toNat ∧ tail.toNat - C.val ∉ s.returned.map Prod.fst
  /-- `pop` reports empty only at a slot that is not published. -/
  empty : ∀ i head s', s.threads i = .popExamine head →
    (mpmc C).step s (.examine i) s' → s'.threads i = .idle → head.toNat ∉ s.published

section IsQueue

variable {s : State ι α} {i : ι}

/-- What a returned ticket was published before. -/
theorem Inv.delivered (h : Inv C s) {t : ℕ} {v : α} (hr : (t, v) ∈ s.returned) :
    s.pushed[t]? = some v ∧ t ∈ s.published := by
  have hC := C.one_lt
  obtain ⟨hseq, hget⟩ := h.returned _ hr
  refine ⟨hget, (h.pushing t (List.getElem?_eq_some_iff.1 hget).1).resolve_right ?_⟩
  rintro ⟨i, hi⟩
  have hexpected := (h.threads i).expected hi
  change s.seq (t % C.val) = t at hexpected
  change t + C.val ≤ s.seq (t % C.val) at hseq
  omega

theorem Inv.full (h : Inv C s) (hfew : s.pushed.length + s.popped < 2 ^ 63) {item : α}
    {tail : UInt64} (hi : s.threads i = .pushExamine item tail)
    (hd : diff (s.slots (slotAt C tail)).sequence tail < 0) :
    C.val ≤ tail.toNat ∧ tail.toNat - C.val ∉ s.returned.map Prod.fst := by
  have hC := C.one_lt
  have hok := h.threads i
  rw [hi] at hok
  have hlt := h.seq_lt hfew (Nat.mod_lt tail.toNat (show 0 < C.val by omega))
  rw [slotAt_eq, diff_neg_iff hlt (Nat.lt_of_le_of_lt hok (by omega))] at hd
  have hlap := h.lap_of_lt hd
  refine ⟨hlap, fun hmem => ?_⟩
  obtain ⟨r, hr, hr1⟩ := List.mem_map.1 hmem
  have hge := (h.returned r hr).1
  -- one lap earlier is the same slot
  rw [hr1, Nat.sub_add_cancel hlap, ← Nat.mod_eq_sub_mod hlap] at hge
  exact absurd hd (Nat.not_lt.2 hge)

theorem Inv.empty (h : Inv C s) (hfew : s.pushed.length + s.popped < 2 ^ 63) {head : UInt64}
    (hi : s.threads i = .popExamine head)
    (hd : diff (s.slots (slotAt C head)).sequence (head + 1) < 0) :
    head.toNat ∉ s.published := by
  have hC := C.one_lt
  have hHT := h.le
  have hok := h.threads i
  rw [hi] at hok
  change head.toNat ≤ s.popped at hok
  have hlt := h.seq_lt hfew (Nat.mod_lt head.toNat (show 0 < C.val by omega))
  have hn : (head + 1).toNat = head.toNat + 1 := toNat_add_one (by omega)
  rw [slotAt_eq, diff_neg_iff hlt (by omega), hn] at hd
  exact fun hmem => absurd hd (Nat.not_lt.2 (h.published _ hmem))

/-- In every state of every interleaving of the steps of any number of threads on a
queue of any capacity, up to `2 ^ 63` calls, the queue is one. -/
theorem bounded_queue [DecidableEq ι] {es : List (Action ι α)} (h : (mpmc C).Run es s)
    (hcalls : s.calls < 2 ^ 63) : IsQueue C s := by
  have hI := Inv.run h hcalls
  have hfew : s.pushed.length + s.popped < 2 ^ 63 := by
    obtain ⟨waiting, -, hle⟩ := Room.run h
    omega
  refine ⟨fun t v hr => hI.delivered hr, hI.once, ⟨hI.tail, hI.head⟩, ?_, hI.popping, ?_, ?_, ?_⟩
  · have hle := hI.le
    have hcap := hI.cap
    rw [hI.tail, hI.head]
    omega
  · intro t ht hlt
    refine (hI.pushing t hlt).imp_left fun hpub => ?_
    have hseq := hI.full_of_le (hI.published t hpub) ht
    exact ⟨hseq, hI.held t ht hseq⟩
  · intro i item tail s' hi hs hidle
    cases step_of_act hs with
    | pushFree _ _ =>
      rw [State.setThread_self] at hidle
      cases hidle
    | pushFull hi' hd =>
      cases hi.symm.trans hi'
      exact hI.full hfew hi hd
    | pushLate _ _ _ =>
      rw [State.setThread_self] at hidle
      cases hidle
    | popReady hi' _ => cases hi.symm.trans hi'
    | popEmpty hi' _ => cases hi.symm.trans hi'
    | popLate hi' _ _ => cases hi.symm.trans hi'
  · intro i head s' hi hs hidle
    cases step_of_act hs with
    | pushFree hi' _ => cases hi.symm.trans hi'
    | pushFull hi' _ => cases hi.symm.trans hi'
    | pushLate hi' _ _ => cases hi.symm.trans hi'
    | popReady _ _ =>
      rw [State.setThread_self] at hidle
      cases hidle
    | popEmpty hi' hd =>
      cases hi.symm.trans hi'
      exact hI.empty hfew hi hd
    | popLate _ _ _ =>
      rw [State.setThread_self] at hidle
      cases hidle

end IsQueue

/-- The smallest queue. -/
def twoSlots : QueueCapacity := ⟨1, Nat.one_pos, by decide⟩

/-- One thread pushes while the other, which has found the queue empty before, calls
again and pops. -/
def pushPop : List (Action Bool ℕ) :=
  [.push true 7, .load true, .examine true, .pop false, .load false, .examine false,
    .casFail true, .examine true, .cas true, .write true, .store true,
    .pop false, .load false, .examine false, .cas false, .take false 0, .store false]

theorem bounded_queue_pushPop : ∃ s, (mpmc twoSlots).Run pushPop s ∧ s.calls < 2 ^ 63 ∧
    s.returned = [(0, 7)] ∧ IsQueue twoSlots s := by
  have h0 : (mpmc twoSlots : Machine (State Bool ℕ) _).init (.start twoSlots fun _ => ⟨0, 0⟩) :=
    ⟨_, rfl⟩
  obtain ⟨s, hrun, hs⟩ := Machine.exists_run (f := State.act twoSlots) (fun h => h) h0 pushPop
    (fun s => s.calls = 3 ∧ s.returned = [(0, 7)]) (by decide +kernel)
  obtain ⟨hcalls, hreturned⟩ := of_decide_eq_true hs
  have hlt : s.calls < 2 ^ 63 := by
    rw [hcalls]
    decide
  exact ⟨s, hrun, hlt, hreturned, bounded_queue hrun hlt⟩

end VyukovMPMC
