/-
The sequenced queue is a queue.

A slot belongs to the writer while its sequence number is the position it is
going to be written at, and to the reader while it is one more.  `Ledger` says
so for every position between the two indices: the messages written and not
given back stand in their slots, and the other slots wait for the next ones.
With what the two program counters promise it survives every step (`Fifo.act`).

* `construct_spec` — a constructor that returns has numbered every slot;
* `fifo` — in every state of every interleaving: what was delivered is what was
  written, in order, a write fails only if it is too long or the queue is full,
  a read finds nothing only if nothing is there, and failed calls change
  nothing.
-/
import TradingPlatform.Spsc.Model
import TradingPlatform.Lib.Ring

namespace SlotCount

theorem val_pos (N : SlotCount) : 0 < N.val := Nat.two_pow_pos _

theorem one_lt (N : SlotCount) : 1 < N.val :=
  Nat.one_lt_two_pow (Nat.pos_iff_ne_zero.1 N.pos)

end SlotCount

namespace SequencedSPSC

/-! ### Words and positions -/

theorem ofNat_ne_add {a d : ℕ} (hd : 0 < d) (hlt : d < 2 ^ 64) :
    UInt64.ofNat a ≠ UInt64.ofNat (a + d) := by
  intro h
  have h' := congrArg UInt64.toNat h
  rw [UInt64.toNat_ofNat', UInt64.toNat_ofNat'] at h'
  omega

/-- As long as the mask fits, masking an index is taking the position modulo
the number of slots, also after the index has wrapped. -/
theorem and_mask {N : SlotCount} (hN : N.val < 2 ^ 32) (i : ℕ) :
    (UInt64.ofNat i &&& N.mask).toNat = i % N.val := by
  have hpos := N.val_pos
  rw [UInt64.toNat_and, SlotCount.mask, UInt64.toNat_ofNat', UInt64.toNat_ofNat',
    Nat.mod_eq_of_lt (show N.val - 1 < 2 ^ 32 by omega),
    Nat.mod_eq_of_lt (show N.val - 1 < 2 ^ 64 by omega), SlotCount.val,
    Nat.and_two_pow_sub_one_eq_mod,
    Nat.mod_mod_of_dvd _ (Nat.pow_dvd_pow 2 (le_of_lt N.lt))]

/-- Two positions of one lap in one slot are one position. -/
theorem slot_ne {N i j C : ℕ} (hi : C ≤ i) (hi' : i < C + N) (hj : C ≤ j) (hj' : j < C + N)
    (hne : i ≠ j) : i % N ≠ j % N := by
  intro h
  rcases Nat.lt_or_gt_of_ne hne with hlt | hlt
  · exact hne (Ring.mod_inj (le_of_lt hlt) (by omega) h)
  · exact hne (Ring.mod_inj (le_of_lt hlt) (by omega) h.symm).symm

/-! ### The constructor -/

theorem construct_spec {N : SlotCount} {fuel : ℕ} {i : UInt32} {slots slots' : ℕ → Sloth}
    (hseq : ∀ j < i.toNat, (slots j).seq = UInt64.ofNat j)
    (h : construct N fuel i slots = some slots') :
    N.val < 2 ^ 32 ∧ ∀ j < N.val, (slots' j).seq = UInt64.ofNat j := by
  induction fuel generalizing i slots with
  | zero => exact absurd h (by simp [construct])
  | succ fuel ih =>
    rw [construct] at h
    have hi : i.toNat < 2 ^ 32 := i.toNat_lt
    split at h
    · next hlt =>
      refine ih (fun j hj => ?_) h
      -- the next counter is one more, or has wrapped and promises nothing
      have hj' : j ≤ i.toNat := by
        rw [UInt32.toNat_add, UInt32.toNat_one] at hj
        have := Nat.mod_le (i.toNat + 1) (2 ^ 32)
        omega
      rcases Nat.lt_or_eq_of_le hj' with hj' | rfl
      · rw [Function.update_of_ne (by omega)]
        exact hseq j hj'
      · rw [Function.update_self]
        apply UInt64.toNat_inj.1
        rw [UInt32.toNat_toUInt64, UInt64.toNat_ofNat', Nat.mod_eq_of_lt (by omega)]
    · next hge =>
      obtain rfl := Option.some_inj.1 h
      exact ⟨by omega, fun j hj => hseq j (by omega)⟩

/-! ### What stands in the slots -/

/-- The first `n` bytes of `src` are in the slot. -/
def Copied (sloth : Sloth) (src : List UInt8) (n : ℕ) : Prop :=
  ∀ m b, m < n → src[m]? = some b → sloth.data m = b

/-- The message at position `i`, published. -/
structure Holds (sloth : Sloth) (i : ℕ) (msg : List UInt8) : Prop where
  seq : sloth.seq = UInt64.ofNat (i + 1)
  size : sloth.size = msg.length
  data : Copied sloth msg msg.length

/-- The messages from position `R` on are in their slots, and the rest of the
lap is free. -/
structure Ledger (N : ℕ) (slots : ℕ → Sloth) (R : ℕ) (written : List (List UInt8)) : Prop where
  le : R ≤ written.length
  cap : written.length ≤ R + N
  full : ∀ i msg, R ≤ i → written[i]? = some msg → Holds (slots (i % N)) i msg
  free : ∀ i, written.length ≤ i → i < R + N → (slots (i % N)).seq = UInt64.ofNat i

namespace Ledger

variable {N R : ℕ} {slots : ℕ → Sloth} {written : List (List UInt8)}

theorem fresh (hseq : ∀ i < N, (slots i).seq = UInt64.ofNat i) : Ledger N slots 0 [] where
  le := le_refl _
  cap := Nat.zero_le _
  full i msg _ h := absurd h (by simp)
  free i _ hlt := by
    rw [Nat.zero_add] at hlt
    rw [Nat.mod_eq_of_lt hlt]
    exact hseq i hlt

/-- A message is at a position of the current lap. -/
theorem lt_of_getElem? (h : Ledger N slots R written) {i : ℕ} {msg : List UInt8}
    (hmsg : written[i]? = some msg) : i < written.length ∧ i < R + N := by
  have hlt := (List.getElem?_eq_some_iff.1 hmsg).1
  exact ⟨hlt, lt_of_lt_of_le hlt h.cap⟩

/-- The writer works on the next free slot without disturbing anything. -/
theorem touch (h : Ledger N slots R written) (hroom : written.length < R + N) {sloth : Sloth}
    (hseq : sloth.seq = UInt64.ofNat written.length) :
    Ledger N (Function.update slots (written.length % N) sloth) R written where
  le := h.le
  cap := h.cap
  full i msg hi hmsg := by
    obtain ⟨hlt, hlt'⟩ := h.lt_of_getElem? hmsg
    rw [Function.update_of_ne (slot_ne hi hlt' h.le hroom (by omega))]
    exact h.full i msg hi hmsg
  free i hi hlt := by
    rcases Nat.lt_or_eq_of_le hi with hi' | rfl
    · rw [Function.update_of_ne (slot_ne (by have := h.le; omega) hlt h.le hroom (by omega))]
      exact h.free i hi hlt
    · rw [Function.update_self]
      exact hseq

/-- Publishing the message prepared in the next free slot. -/
theorem publish (h : Ledger N slots R written) (hroom : written.length < R + N) {sloth : Sloth}
    {src : List UInt8} (hsloth : Holds sloth written.length src) :
    Ledger N (Function.update slots (written.length % N) sloth) R (written ++ [src]) where
  le := by
    rw [List.length_append]
    exact le_trans h.le (Nat.le_add_right _ _)
  cap := by
    rw [List.length_append, List.length_singleton]
    exact hroom
  full i msg hi hmsg := by
    rcases Ring.old_or_new hmsg with hold | ⟨rfl, rfl⟩
    · have hlt := (List.getElem?_eq_some_iff.1 hold).1
      rw [Function.update_of_ne (slot_ne hi (by omega) h.le hroom (by omega))]
      exact h.full i msg hi hold
    · rw [Function.update_self]
      exact hsloth
  free i hi hlt := by
    rw [List.length_append, List.length_singleton] at hi
    rw [Function.update_of_ne (slot_ne (by have := h.le; omega) hlt h.le hroom (by omega))]
    exact h.free i (by omega) hlt

/-- Giving back the oldest message's slot makes it the last of the lap. -/
theorem giveBack (h : Ledger N slots R written) (hlt : R < written.length) {sloth : Sloth}
    (hseq : sloth.seq = UInt64.ofNat (R + N)) :
    Ledger N (Function.update slots (R % N) sloth) (R + 1) written where
  le := hlt
  cap := by
    have := h.cap
    omega
  full i msg hi hmsg := by
    obtain ⟨_, hlt'⟩ := h.lt_of_getElem? hmsg
    rw [Function.update_of_ne (slot_ne (by omega) hlt' (le_refl R) (by omega) (by omega))]
    exact h.full i msg (by omega) hmsg
  free i hi hlt' := by
    rcases Nat.lt_or_eq_of_le (show i ≤ R + N by omega) with hi' | rfl
    · rw [Function.update_of_ne (slot_ne (by omega) hi' (le_refl R) (by omega) (by omega))]
      exact h.free i hi hi'
    · rw [Nat.add_mod_right, Function.update_self]
      exact hseq

/-- The slot at the write index carries it exactly while there is room: one
that is still published carries its position of the lap before, plus one. -/
theorem writable_iff (h : Ledger N slots R written) (hN : 1 < N) (hlt : N < 2 ^ 32) :
    (slots (written.length % N)).seq = UInt64.ofNat written.length ↔ written.length < R + N := by
  constructor
  · intro hseq
    by_contra hge
    have hW : written.length = R + N := le_antisymm h.cap (Nat.not_lt.1 hge)
    have hR : R < written.length := by omega
    have hheld := (h.full R written[R] (le_refl R) (List.getElem?_eq_getElem hR)).seq
    rw [hW, Nat.add_mod_right, hheld, show R + N = R + 1 + (N - 1) by omega] at hseq
    exact ofNat_ne_add (by omega) (by omega) hseq
  · intro hroom
    exact h.free _ (le_refl _) hroom

/-- The slot at the read index is published exactly if there is a message. -/
theorem readable_iff (h : Ledger N slots R written) (hN : 1 < N) :
    (slots (R % N)).seq = UInt64.ofNat (R + 1) ↔ R < written.length := by
  constructor
  · intro hseq
    by_contra hge
    have hW : written.length = R := le_antisymm (Nat.not_lt.1 hge) h.le
    rw [h.free R (le_of_eq hW) (by omega)] at hseq
    exact ofNat_ne_add Nat.one_pos (by decide) hseq
  · intro hR
    exact (h.full R written[R] (le_refl R) (List.getElem?_eq_getElem hR)).seq

end Ledger

/-! ### The invariant -/

/-- What the writer's program counter promises of the slot it works on. -/
def WriterOk (sloth : Sloth) (room : Prop) : Writer → Prop
  | .idle => True
  | .copying src n => src.length ≤ maxDataSize ∧ room ∧ n ≤ src.length ∧ Copied sloth src n
  | .sized src => src.length ≤ maxDataSize ∧ room ∧ sloth.size = src.length ∧
      Copied sloth src src.length

/-- What the reader's program counter promises; `R` is the position it reads. -/
def ReaderOk (R : ℕ) (written : List (List UInt8)) : Reader → Prop
  | .idle => True
  | .checked _ => R < written.length
  | .sized => R < written.length
  | .copying size dst => ∃ msg, written[R]? = some msg ∧ size = msg.length ∧ dst <+: msg
  | .handedBack _ _ => True

/-- The payload of a read that has given back its slot and not returned yet. -/
def Reader.pending : Reader → List (List UInt8)
  | .handedBack _ dst => [dst]
  | _ => []

/-- The invariant of the queue and its two parties. -/
structure Fifo (N : SlotCount) (s : QueueState) : Prop where
  count_lt : N.val < 2 ^ 32
  ledger : Ledger N.val s.queue.slots s.givenBack.length s.written
  writeIdx : s.queue.writeIdx = UInt64.ofNat s.written.length
  readIdx : s.queue.readIdx = UInt64.ofNat s.givenBack.length
  inOrder : s.givenBack <+: s.written
  short : ∀ msg ∈ s.written, msg.length ≤ maxDataSize
  writer : WriterOk (s.queue.slots (s.written.length % N.val))
    (s.written.length < s.givenBack.length + N.val) s.writer
  reader : ReaderOk s.givenBack.length s.written s.reader
  delivered : s.delivered.map Prod.fst ++ s.reader.pending = s.givenBack

theorem Copied.update {sloth : Sloth} {src : List UInt8} {n : ℕ} {b : UInt8}
    (h : Copied sloth src n) (hb : src[n]? = some b) :
    Copied { sloth with data := Function.update sloth.data n b } src (n + 1) := by
  intro m b' hm hb'
  rcases Nat.lt_or_eq_of_le (Nat.lt_succ_iff.1 hm) with hlt | rfl
  · rw [← h m b' hlt hb']
    exact Function.update_of_ne (by omega) _ _
  · rw [hb] at hb'
    rw [← Option.some_inj.1 hb']
    exact Function.update_self _ _ _

/-- What the writer has prepared stays when the message beside it arrives. -/
theorem WriterOk.mono {sloth : Sloth} {room room' : Prop} {w : Writer}
    (h : WriterOk sloth room w) (hroom : room → room') : WriterOk sloth room' w := by
  cases w with
  | idle => trivial
  | copying src n =>
    obtain ⟨hlen, hr, hn, hc⟩ := h
    exact ⟨hlen, hroom hr, hn, hc⟩
  | sized src =>
    obtain ⟨hlen, hr, hsize, hc⟩ := h
    exact ⟨hlen, hroom hr, hsize, hc⟩

/-- A party that is not idle has room to work in. -/
theorem WriterOk.room {sloth : Sloth} {room : Prop} {w : Writer} (h : WriterOk sloth room w)
    (hw : w ≠ .idle) : room := by
  cases w with
  | idle => exact absurd rfl hw
  | copying src n => exact h.2.1
  | sized src => exact h.2.1

/-- New messages do not concern the one being read. -/
theorem ReaderOk.append {R : ℕ} {written : List (List UInt8)} {r : Reader}
    (h : ReaderOk R written r) (src : List UInt8) : ReaderOk R (written ++ [src]) r := by
  have hlen : written.length ≤ (written ++ [src]).length := by
    rw [List.length_append]
    exact Nat.le_add_right _ _
  cases r with
  | idle => trivial
  | checked maxSize => exact lt_of_lt_of_le h hlen
  | sized => exact lt_of_lt_of_le h hlen
  | copying size dst =>
    obtain ⟨msg, hmsg, hsize, hdst⟩ := h
    refine ⟨msg, ?_, hsize, hdst⟩
    rw [List.getElem?_append_left (List.getElem?_eq_some_iff.1 hmsg).1]
    exact hmsg
  | handedBack slot dst => trivial

namespace Fifo

variable {N : SlotCount} {s s' : QueueState}

theorem writeSlot_eq (h : Fifo N s) : s.queue.writeSlot N = s.written.length % N.val := by
  rw [writeSlot, h.writeIdx, and_mask h.count_lt]

theorem readSlot_eq (h : Fifo N s) : s.queue.readSlot N = s.givenBack.length % N.val := by
  rw [readSlot, h.readIdx, and_mask h.count_lt]

theorem canWrite_iff (h : Fifo N s) (src : List UInt8) :
    canWrite N s.queue src ↔
      src.length ≤ maxDataSize ∧ s.written.length < s.givenBack.length + N.val := by
  rw [canWrite, h.writeSlot_eq, h.writeIdx, h.ledger.writable_iff N.one_lt h.count_lt]

theorem canRead_iff (h : Fifo N s) :
    canRead N s.queue ↔ s.givenBack.length < s.written.length := by
  rw [canRead, h.readSlot_eq, h.readIdx, ← UInt64.ofNat_one, ← UInt64.ofNat_add,
    h.ledger.readable_iff N.one_lt]

/-- While there is a message, the slot at the read index holds it. -/
theorem oldest (h : Fifo N s) {msg : List UInt8}
    (hmsg : s.written[s.givenBack.length]? = some msg) :
    Holds (s.queue.slots (s.queue.readSlot N)) s.givenBack.length msg := by
  rw [h.readSlot_eq]
  exact h.ledger.full _ _ (le_refl _) hmsg

theorem start {slots : ℕ → Sloth} {fuel : ℕ}
    (h : construct N fuel 0 (fun _ => blank) = some slots) : Fifo N (.start slots) := by
  obtain ⟨hlt, hseq⟩ := construct_spec (fun j hj => absurd hj (by simp)) h
  exact {
    count_lt := hlt
    ledger := Ledger.fresh hseq
    writeIdx := rfl
    readIdx := rfl
    inOrder := List.prefix_rfl
    short := fun msg hmsg => absurd hmsg List.not_mem_nil
    writer := trivial
    reader := trivial
    delivered := rfl }

/-- The writer prepares the slot it works on. -/
theorem touch (h : Fifo N s) (hw : s.writer ≠ .idle) {f : Sloth → Sloth} {w : Writer}
    (hseq : ∀ sloth, (f sloth).seq = sloth.seq)
    (hok : WriterOk (f (s.queue.slots (s.written.length % N.val)))
      (s.written.length < s.givenBack.length + N.val) w) :
    Fifo N { s with queue := s.queue.modify (s.queue.writeSlot N) f, writer := w } := by
  have hroom := h.writer.room hw
  rw [h.writeSlot_eq]
  exact { h with
    ledger := h.ledger.touch hroom
      ((hseq _).trans (h.ledger.free _ (le_refl _) hroom))
    writer := by
      show WriterOk ((s.queue.modify _ f).slots _) _ w
      rw [modify_self]
      exact hok }

/-- The writer publishes the slot it has prepared. -/
theorem publish (h : Fifo N s) {src : List UInt8} (hw : s.writer = .sized src) :
    Fifo N { s with
      queue := s.queue.publish N
      writer := .idle
      written := s.written ++ [src] } := by
  have hok := h.writer
  rw [hw] at hok
  obtain ⟨hlen, hroom, hsize, hdata⟩ := hok
  have hidx : s.queue.writeIdx + 1 = UInt64.ofNat (s.written.length + 1) := by
    rw [h.writeIdx, UInt64.ofNat_add, UInt64.ofNat_one]
  exact {
    count_lt := h.count_lt
    ledger := by
      rw [SequencedSPSC.publish, h.writeSlot_eq]
      exact h.ledger.publish hroom ⟨hidx, hsize, hdata⟩
    writeIdx := by
      rw [List.length_append, List.length_singleton]
      exact hidx
    readIdx := h.readIdx
    inOrder := h.inOrder.trans (List.prefix_append _ _)
    short := fun msg hmsg => by
      rcases List.mem_append.1 hmsg with hmsg | hmsg
      · exact h.short msg hmsg
      · rw [List.mem_singleton.1 hmsg]
        exact hlen
    writer := trivial
    reader := h.reader.append src
    delivered := h.delivered }

/-- The reader moves on without touching the queue. -/
theorem reading (h : Fifo N s) {r : Reader} (hr : s.reader.pending = []) (hr' : r.pending = [])
    (hok : ReaderOk s.givenBack.length s.written r) : Fifo N { s with reader := r } :=
  { h with
    reader := hok
    delivered := by
      have hd := h.delivered
      rw [hr] at hd
      rw [hr']
      exact hd }

/-- The reader gives back the slot it has copied. -/
theorem giveBack (h : Fifo N s) {dst : List UInt8} (hr : s.reader = .copying dst.length dst) :
    Fifo N { s with
      queue := s.queue.giveBack N
      reader := .handedBack (s.queue.readSlot N) dst
      givenBack := s.givenBack ++ [dst] } := by
  have hok := h.reader
  rw [hr] at hok
  obtain ⟨msg, hmsg, hlen, hdst⟩ := hok
  -- the copy is complete
  obtain rfl : dst = msg := hdst.eq_of_length hlen
  have hlt := (List.getElem?_eq_some_iff.1 hmsg).1
  have hlen' : (s.givenBack ++ [dst]).length = s.givenBack.length + 1 := by
    rw [List.length_append, List.length_singleton]
  exact {
    count_lt := h.count_lt
    ledger := by
      rw [hlen', SequencedSPSC.giveBack, h.readSlot_eq]
      refine h.ledger.giveBack hlt ?_
      show s.queue.readIdx + UInt64.ofNat N.val = _
      rw [h.readIdx, UInt64.ofNat_add]
    writeIdx := h.writeIdx
    readIdx := by
      show s.queue.readIdx + 1 = _
      rw [hlen', h.readIdx, UInt64.ofNat_add, UInt64.ofNat_one]
    inOrder := Ring.read_next h.inOrder hmsg
    short := h.short
    writer := by
      rw [hlen']
      by_cases hidle : s.writer = .idle
      · show WriterOk _ _ s.writer
        rw [hidle]
        trivial
      · -- the writer works on another slot of the lap
        have hroom := h.writer.room hidle
        show WriterOk ((s.queue.giveBack N).slots _) _ s.writer
        rw [SequencedSPSC.giveBack, h.readSlot_eq,
          modify_of_ne _ (slot_ne h.ledger.le hroom (le_refl _) (by omega) (by omega))]
        exact h.writer.mono fun hr => Nat.lt_of_lt_of_le hr (by omega)
    reader := trivial
    delivered := by
      have hd := h.delivered
      rw [hr] at hd
      change s.delivered.map Prod.fst ++ [] = s.givenBack at hd
      rw [List.append_nil] at hd
      show s.delivered.map Prod.fst ++ [dst] = _
      rw [hd] }

/-- A successful read returns. -/
theorem finish (h : Fifo N s) {slot : ℕ} {dst : List UInt8}
    (hr : s.reader = .handedBack slot dst) (size : ℕ) :
    Fifo N { s with reader := .idle, delivered := s.delivered ++ [(dst, size)] } :=
  { h with
    reader := trivial
    delivered := by
      have hd := h.delivered
      rw [hr] at hd
      show (s.delivered ++ [(dst, size)]).map Prod.fst ++ [] = s.givenBack
      rw [List.append_nil, List.map_append]
      exact hd }

/-- The invariant survives every step. -/
theorem act (h : Fifo N s) {e : QueueAction} (hs : s.act N e = some s') : Fifo N s' := by
  have hW := h.writer
  have hR := h.reader
  cases step_of_act hs with
  | @beginWrite src hw hcan =>
    obtain ⟨hlen, hroom⟩ := (h.canWrite_iff src).1 hcan
    exact { h with
      writer := ⟨hlen, hroom, Nat.zero_le _, fun m b hm => absurd hm (Nat.not_lt_zero m)⟩ }
  | failWrite _ _ => exact h
  | writeByte hw hb =>
    rw [hw] at hW
    obtain ⟨hlen, hroom, _, hc⟩ := hW
    exact h.touch (by simp [hw]) (fun _ => rfl)
      ⟨hlen, hroom, (List.getElem?_eq_some_iff.1 hb).1, hc.update hb⟩
  | storeSize hw =>
    rw [hw] at hW
    obtain ⟨hlen, hroom, _, hc⟩ := hW
    exact h.touch (by simp [hw]) (fun _ => rfl) ⟨hlen, hroom, rfl, hc⟩
  | publish hw => exact h.publish hw
  | beginRead hr hcan => exact h.reading (by rw [hr]; rfl) rfl (h.canRead_iff.1 hcan)
  | emptyRead _ _ => exact h
  | fits hr _ =>
    rw [hr] at hR
    exact h.reading (by rw [hr]; rfl) rfl hR
  | tooSmall hr _ => exact h.reading (by rw [hr]; rfl) rfl trivial
  | loadSize hr =>
    rw [hr] at hR
    have hmsg := List.getElem?_eq_getElem hR
    exact h.reading (by rw [hr]; rfl) rfl ⟨_, hmsg, (h.oldest hmsg).size, List.nil_prefix⟩
  | @readByte size dst hr hlt =>
    rw [hr] at hR
    obtain ⟨msg, hmsg, hsize, hdst⟩ := hR
    refine h.reading (by rw [hr]; rfl) rfl ⟨_, hmsg, hsize, Ring.read_next hdst ?_⟩
    -- the next byte of the slot is the next byte of the message
    have hlt' : dst.length < msg.length := by omega
    have hget := List.getElem?_eq_getElem hlt'
    rw [(h.oldest hmsg).data dst.length _ hlt' hget]
    exact hget
  | giveBack hr => exact h.giveBack hr
  | finish hr => exact h.finish hr _

/-- The invariant holds in every state of every interleaving. -/
theorem run {es : List QueueAction} (h : (spsc N).Run es s) : Fifo N s := by
  refine h.invariant ?_ ?_
  · rintro s ⟨fuel, slots, hslots, rfl⟩
    exact Fifo.start hslots
  · intro s e s' hI hs
    exact hI.act hs

end Fifo

/-! ### What is in the queue -/

/-- The bytes a writer is about to publish. -/
def Writer.src : Writer → Option (List UInt8)
  | .idle => none
  | .copying src _ => some src
  | .sized src => some src

/-- The messages written and not read yet. -/
def QueueState.waiting (q : QueueState) : List (List UInt8) := q.written.drop q.delivered.length

theorem Fifo.waiting_append {N : SlotCount} {q : QueueState} (h : Fifo N q) (src : List UInt8) :
    (q.written ++ [src]).drop q.delivered.length = q.waiting ++ [src] := by
  have hlen : q.delivered.length ≤ q.written.length := by
    have hle := h.inOrder.length_le
    rw [← h.delivered, List.length_append, List.length_map] at hle
    omega
  rw [QueueState.waiting, List.drop_append_of_le_length hlen]

/-- The message being handed out is the first of those that wait. -/
theorem Fifo.waiting_finish {N : SlotCount} {q : QueueState} (h : Fifo N q) {slot : ℕ}
    {dst : List UInt8} (hr : q.reader = .handedBack slot dst) (size : ℕ) :
    q.waiting = dst :: q.written.drop (q.delivered ++ [(dst, size)]).length := by
  have hd := h.delivered
  rw [hr] at hd
  obtain ⟨rest, hrest⟩ := h.inOrder
  have hw : q.written = q.delivered.map Prod.fst ++ dst :: rest := by
    rw [← hrest, ← hd, List.append_assoc]
    rfl
  rw [QueueState.waiting, hw, List.drop_left' (List.length_map _), List.length_append,
    List.length_singleton, ← List.drop_drop, List.drop_left' (List.length_map _), List.drop_one,
    List.tail_cons]

/-! ### Every interleaving -/

/-- In every state of every interleaving, for every number of slots: the
payloads delivered are the first ones written; a write fails only for a message
longer than a slot, or while as many messages as there are slots have not been
given back; a read finds nothing only while every message has been given back,
and finds its buffer too small only for a message that is longer; and a failed
call leaves the queue and what was done so far as they are. -/
theorem fifo {N : SlotCount} {es : List QueueAction} {s : QueueState} (h : (spsc N).Run es s) :
    s.delivered.map Prod.fst <+: s.written ∧
    (∀ src s', (spsc N).step s (.failWrite src) s' →
      s' = s ∧ (maxDataSize < src.length ∨ s.written.length = s.givenBack.length + N.val)) ∧
    (∀ maxSize s', (spsc N).step s (.emptyRead maxSize) s' →
      s' = s ∧ s.written.length = s.givenBack.length) ∧
    (∀ maxSize s', (spsc N).step s (.beginRead maxSize) s' →
      s' = { s with reader := .checked maxSize }) ∧
    (∀ s', (spsc N).step s .tooSmall s' → s' = { s with reader := .idle } ∧
      ∃ maxSize msg, s.reader = .checked maxSize ∧
        s.written[s.givenBack.length]? = some msg ∧ maxSize < msg.length) := by
  have hI := Fifo.run h
  refine ⟨?_, fun src s' hs => ?_, fun maxSize s' hs => ?_, fun maxSize s' hs => ?_,
    fun s' hs => ?_⟩
  · have hpre : s.delivered.map Prod.fst <+: s.givenBack := ⟨_, hI.delivered⟩
    exact hpre.trans hI.inOrder
  · cases step_of_act hs with
    | failWrite _ hcan =>
      rw [hI.canWrite_iff src] at hcan
      have hcap := hI.ledger.cap
      exact ⟨rfl, by omega⟩
  · cases step_of_act hs with
    | emptyRead _ hcan =>
      rw [hI.canRead_iff] at hcan
      have hle := hI.ledger.le
      exact ⟨rfl, by omega⟩
  · cases step_of_act hs with
    | beginRead _ _ => rfl
  · cases step_of_act hs with
    | @tooSmall maxSize hr hlt =>
      have hok := hI.reader
      rw [hr] at hok
      have hmsg := List.getElem?_eq_getElem hok
      rw [(hI.oldest hmsg).size] at hlt
      exact ⟨rfl, maxSize, _, hr, hmsg, hlt⟩

/-! ### Queues of two slots -/

/-- The smallest queue. -/
def twoSlots : SlotCount := ⟨1, by decide, by decide⟩

/-- `write(src)` from its first check to its return. -/
def writeAll (src : List UInt8) : List QueueAction :=
  .beginWrite src :: (src.map fun _ => .writeByte) ++ [.storeSize, .publish]

/-- `read` of a message of `n` bytes, up to the store that gives its slot back. -/
def readAll (n : ℕ) : List QueueAction :=
  [.beginRead n, .fits, .loadSize] ++ List.replicate n .readByte ++ [.giveBack]

/-- What `acts` lead to from the state the constructor leaves two slots in. -/
theorem exists_run {G : QueueState → QueueAction → Prop} [∀ s e, Decidable (G s e)]
    (acts : List QueueAction) (p : QueueState → Bool)
    (h : ((construct twoSlots 3 0 fun _ => blank).bind fun slots =>
      Machine.exec (Machine.guarded G (QueueState.act twoSlots)) (.start slots) acts).any p
        = true) :
    ∃ s, ((spsc twoSlots).restrict G).Run acts s ∧ p s = true := by
  rw [Option.any_eq_true] at h
  obtain ⟨s, hs, hp⟩ := h
  obtain ⟨slots, hslots, hs⟩ := Option.bind_eq_some_iff.1 hs
  have h0 : ((spsc twoSlots).restrict G).init (.start slots) := ⟨3, slots, hslots, rfl⟩
  exact ⟨s, (Machine.Run.start h0).exec
    (fun h => Machine.restrict_step_of_guarded (M := spsc twoSlots) (fun h => h) h) hs, hp⟩

/-- Three messages around a ring of two: the third write is refused once. -/
theorem fifo_around : ∃ es s, (spsc twoSlots).Run es s ∧ s.written = [[1], [2, 2], [3]] ∧
    s.delivered.map Prod.fst <+: s.written := by
  obtain ⟨s, hrun, hs⟩ := exists_run (G := fun _ _ => True)
    (writeAll [1] ++ writeAll [2, 2] ++ [.failWrite [3]] ++ readAll 1 ++ [.finish] ++
      writeAll [3] ++ readAll 2 ++ [.finish])
    (fun s => s.written = [[1], [2, 2], [3]]) (by decide +kernel)
  exact ⟨_, s, hrun.of_restrict, of_decide_eq_true hs, (fifo hrun.of_restrict).1⟩

end SequencedSPSC
