/-
Whole calls of the sequenced queue.

Where the callers' steps are what matters, `write` and `read` are one step
each.  `Contains` says which messages are in the queue, and the two calls do to
them what a bounded queue does.

* `Contains.canWrite_iff`, `Contains.canRead_iff` — when the calls succeed;
* `Contains.write`, `Contains.read` — what they leave.
-/
import TradingPlatform.Spsc.Fifo

/-- 65536 slots: the default of the template, and `LFQ_CAPACITY`. -/
def SlotCount.standard : SlotCount := ⟨16, by decide, by decide⟩

namespace SequencedSPSC

variable (N : SlotCount)

/-- `write(src, size)`; `none` where it returns `false`. -/
def write (q : SequencedSPSC) (src : List UInt8) : Option SequencedSPSC :=
  if canWrite N q src then
    some ((q.modify (q.writeSlot N) fun sloth =>
      ⟨sloth.seq, src.length, fun i => src.getD i (sloth.data i)⟩).publish N)
  else none

/-- `read(dst, maxSize)`: the bytes copied, as many as it returns, and the queue;
`none` where it returns 0 without taking anything. -/
def read (q : SequencedSPSC) (maxSize : ℕ) : Option (List UInt8 × SequencedSPSC) :=
  let sloth := q.slots (q.readSlot N)
  if canRead N q ∧ sloth.size ≤ maxSize then
    some ((List.range sloth.size).map sloth.data, q.giveBack N)
  else none

/-- The queue holds the messages `msgs`, the oldest first. -/
def Contains (q : SequencedSPSC) (msgs : List (List UInt8)) : Prop :=
  ∃ taken : List (List UInt8), N.val < 2 ^ 32 ∧
    Ledger N.val q.slots taken.length (taken ++ msgs) ∧
    q.writeIdx = UInt64.ofNat (taken ++ msgs).length ∧ q.readIdx = UInt64.ofNat taken.length

/-- A queue as its constructor leaves it. -/
def Constructed (q : SequencedSPSC) : Prop :=
  ∃ fuel slots, construct N fuel 0 (fun _ => blank) = some slots ∧ q = ⟨slots, 0, 0⟩

variable {N} {q : SequencedSPSC} {msgs : List (List UInt8)} {msg src : List UInt8}

/-- The constructor's loop ends if its counter does not wrap. -/
theorem construct_isSome (hN : N.val < 2 ^ 32) (fuel : ℕ) :
    ∀ (i : UInt32) (slots : ℕ → Sloth), i.toNat ≤ N.val → N.val < i.toNat + fuel →
      (construct N fuel i slots).isSome = true := by
  induction fuel with
  | zero =>
    intro i slots hle hlt
    omega
  | succ fuel ih =>
    intro i slots hle hlt
    rw [construct]
    split
    · next hi =>
      have hnext : (i + 1).toNat = i.toNat + 1 := by
        rw [UInt32.toNat_add, UInt32.toNat_one, Nat.mod_eq_of_lt (by omega)]
      exact ih _ _ (by omega) (by omega)
    · rfl

theorem exists_constructed (hN : N.val < 2 ^ 32) : ∃ q, Constructed N q := by
  have hsome := construct_isSome hN (N.val + 1) 0 (fun _ => blank) (Nat.zero_le _) (by simp)
  obtain ⟨slots, hslots⟩ := Option.isSome_iff_exists.1 hsome
  exact ⟨_, _, slots, hslots, rfl⟩

theorem Constructed.contains (h : Constructed N q) : Contains N q [] := by
  obtain ⟨fuel, slots, hslots, rfl⟩ := h
  obtain ⟨hlt, hseq⟩ := construct_spec (fun j hj => absurd hj (by simp)) hslots
  exact ⟨[], hlt, Ledger.fresh hseq, rfl, rfl⟩

/-- Preparing a slot and publishing it. -/
theorem publish_modify_slots (q : SequencedSPSC) (f : Sloth → Sloth) :
    ((q.modify (q.writeSlot N) f).publish N).slots =
      Function.update q.slots (q.writeSlot N)
        { f (q.slots (q.writeSlot N)) with seq := q.writeIdx + 1 } := by
  show Function.update (Function.update q.slots (q.writeSlot N) _) (q.writeSlot N) _ = _
  rw [Function.update_idem]
  congr 1
  show { (q.modify (q.writeSlot N) f).slots (q.writeSlot N) with seq := q.writeIdx + 1 } = _
  rw [modify_self]

/-- A slot that holds a message is read as the message. -/
theorem Holds.map_data {sloth : Sloth} {i : ℕ} (h : Holds sloth i msg) :
    (List.range sloth.size).map sloth.data = msg := by
  refine List.ext_getElem ?_ fun j hj hj' => ?_
  · rw [List.length_map, List.length_range, h.size]
  · rw [List.getElem_map, List.getElem_range]
    exact h.data j _ hj' (List.getElem?_eq_getElem hj')

namespace Contains

theorem length_le (h : Contains N q msgs) : msgs.length ≤ N.val := by
  obtain ⟨taken, _, hledger, _, _⟩ := h
  have hcap := hledger.cap
  rw [List.length_append] at hcap
  omega

theorem canWrite_iff (h : Contains N q msgs) (src : List UInt8) :
    canWrite N q src ↔ src.length ≤ maxDataSize ∧ msgs.length < N.val := by
  obtain ⟨taken, hlt, hledger, hwrite, _⟩ := h
  rw [canWrite, writeSlot, hwrite, and_mask hlt, hledger.writable_iff N.one_lt hlt,
    List.length_append, Nat.add_lt_add_iff_left]

theorem canRead_iff (h : Contains N q msgs) : canRead N q ↔ msgs ≠ [] := by
  obtain ⟨taken, hlt, hledger, _, hread⟩ := h
  rw [canRead, readSlot, hread, and_mask hlt, ← UInt64.ofNat_one, ← UInt64.ofNat_add,
    hledger.readable_iff N.one_lt, List.length_append, ← List.length_pos_iff]
  omega

/-- A successful write adds its message behind the others. -/
theorem write {q' : SequencedSPSC} (h : Contains N q msgs) (hwrite : q.write N src = some q') :
    Contains N q' (msgs ++ [src]) := by
  rw [SequencedSPSC.write, Option.ite_none_right_eq_some, Option.some_inj] at hwrite
  obtain ⟨hcan, rfl⟩ := hwrite
  obtain ⟨hlen, hroom⟩ := (h.canWrite_iff src).1 hcan
  obtain ⟨taken, hlt, hledger, hw, hr⟩ := h
  have hslot : q.writeSlot N = (taken ++ msgs).length % N.val := by
    rw [writeSlot, hw, and_mask hlt]
  have hidx : q.writeIdx + 1 = UInt64.ofNat ((taken ++ msgs).length + 1) := by
    rw [hw, UInt64.ofNat_add, UInt64.ofNat_one]
  have hroom' : (taken ++ msgs).length < taken.length + N.val := by
    rw [List.length_append]
    omega
  refine ⟨taken, hlt, ?_, ?_, hr⟩
  · rw [← List.append_assoc, publish_modify_slots, hslot]
    refine hledger.publish hroom' ⟨hidx, rfl, fun m b _ hb => ?_⟩
    show src.getD m _ = b
    rw [List.getD_eq_getElem?_getD, hb, Option.getD_some]
  · rw [← List.append_assoc, List.length_append, List.length_singleton]
    exact hidx

/-- Taking the oldest message. -/
theorem giveBack (h : Contains N q (msg :: msgs)) : Contains N (q.giveBack N) msgs := by
  obtain ⟨taken, hlt, hledger, hw, hr⟩ := h
  have hslot : q.readSlot N = taken.length % N.val := by rw [readSlot, hr, and_mask hlt]
  refine ⟨taken ++ [msg], hlt, ?_, ?_, ?_⟩
  · rw [List.append_assoc, List.singleton_append, List.length_append, List.length_singleton,
      SequencedSPSC.giveBack, hslot]
    refine hledger.giveBack ?_ ?_
    · rw [List.length_append, List.length_cons]
      omega
    · show q.readIdx + UInt64.ofNat N.val = _
      rw [hr, UInt64.ofNat_add]
  · rw [List.append_assoc, List.singleton_append]
    exact hw
  · show q.readIdx + 1 = _
    rw [hr, List.length_append, List.length_singleton, UInt64.ofNat_add, UInt64.ofNat_one]

theorem oldest (h : Contains N q (msg :: msgs)) :
    ∃ i, Holds (q.slots (q.readSlot N)) i msg := by
  obtain ⟨taken, hlt, hledger, _, hr⟩ := h
  refine ⟨taken.length, ?_⟩
  rw [readSlot, hr, and_mask hlt]
  refine hledger.full _ _ (le_refl _) ?_
  rw [List.getElem?_append_right (le_refl _), Nat.sub_self, List.getElem?_cons_zero]

/-- A read into a buffer with room for it takes the oldest message, and finds
nothing only if there is none. -/
theorem read (h : Contains N q msgs) {maxSize : ℕ} (hfits : ∀ msg ∈ msgs, msg.length ≤ maxSize) :
    (msgs = [] ∧ q.read N maxSize = none) ∨
    (∃ msg rest q', msgs = msg :: rest ∧ q.read N maxSize = some (msg, q') ∧
      Contains N q' rest) := by
  cases msgs with
  | nil =>
    refine .inl ⟨rfl, ?_⟩
    rw [SequencedSPSC.read, if_neg fun hc => h.canRead_iff.1 hc.1 rfl]
  | cons msg rest =>
    obtain ⟨i, hold⟩ := h.oldest
    have hlen : (q.slots (q.readSlot N)).size ≤ maxSize := by
      rw [hold.size]
      exact hfits msg List.mem_cons_self
    refine .inr ⟨msg, rest, q.giveBack N, rfl, ?_, h.giveBack⟩
    rw [SequencedSPSC.read, if_pos ⟨h.canRead_iff.2 (by simp), hlen⟩, hold.map_data]

theorem read_empty (h : Contains N q []) (maxSize : ℕ) : q.read N maxSize = none := by
  have hfits : ∀ msg ∈ ([] : List (List UInt8)), msg.length ≤ maxSize :=
    fun msg hmsg => absurd hmsg List.not_mem_nil
  rcases h.read hfits with ⟨_, hnone⟩ | ⟨_, _, _, hcons, _⟩
  · exact hnone
  · cases hcons

/-- What a read returns is the oldest message, whatever the buffer. -/
theorem of_read (h : Contains N q msgs) {maxSize : ℕ} {q' : SequencedSPSC}
    (hread : q.read N maxSize = some (msg, q')) :
    ∃ rest, msgs = msg :: rest ∧ Contains N q' rest := by
  rw [SequencedSPSC.read, Option.ite_none_right_eq_some, Option.some_inj, Prod.mk.injEq] at hread
  obtain ⟨⟨hcan, _⟩, hmsg, rfl⟩ := hread
  cases msgs with
  | nil => exact absurd rfl (h.canRead_iff.1 hcan)
  | cons first rest =>
    obtain ⟨i, hold⟩ := h.oldest
    exact ⟨rest, by rw [← hmsg, hold.map_data], h.giveBack⟩

end Contains

end SequencedSPSC
