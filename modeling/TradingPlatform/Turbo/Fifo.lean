/-
When the byte queue is a queue.

Only the start of a copy is masked.  If the size of the messages divides the
size of the buffer, every message lies in the buffer as one block, and the two
caches err on the safe side: the writer's copy of `head_` is at most the position
the reader has reached, and the reader's copy of `tail_` at most the position the
writer has.  `Fifo` says so and survives every step (`Fifo.act`), as long as the
positions do not wrap.

If the size does not divide the buffer's, some message starts so close to the end
that its copy runs over it, and `exists_overrun` finds a run that gets there: fill
the buffer, read everything, and write once more.

* `safe_iff` — the queue is safe in all runs exactly if the size of its messages
  is a power of two;
* `overrun` — messages of 48 bytes.
-/
import TradingPlatform.Turbo.Model
import TradingPlatform.Lib.Ring
import Mathlib.Data.Nat.Prime.Basic

namespace TurboCapacity

theorem bufferSize_eq (C : TurboCapacity) : C.bufferSize = 2 ^ (C.log + 6) :=
  (Nat.pow_add 2 C.log 6).symm

theorem sixtyFour_le (C : TurboCapacity) : 64 ≤ C.bufferSize :=
  Nat.le_mul_of_pos_left 64 (Nat.two_pow_pos C.log)

theorem bufferSize_le (C : TurboCapacity) : C.bufferSize ≤ 2 ^ 62 := by
  rw [bufferSize_eq]
  exact Nat.pow_le_pow_right Nat.two_pos (by have := C.lt; omega)

theorem toNat_bufferSizeWord (C : TurboCapacity) : C.bufferSizeWord.toNat = C.bufferSize := by
  have hle := C.bufferSize_le
  rw [bufferSizeWord, UInt64.toNat_ofNat', Nat.mod_eq_of_lt (by omega)]

/-- Masking a position is taking it modulo the size of the buffer. -/
theorem and_mask (C : TurboCapacity) (p : UInt64) :
    (p &&& (C.bufferSizeWord - 1)).toNat = p.toNat % C.bufferSize := by
  have hpos := C.sixtyFour_le
  have hle : (1 : UInt64) ≤ C.bufferSizeWord := by
    rw [UInt64.le_iff_toNat_le, toNat_bufferSizeWord, UInt64.toNat_one]
    omega
  rw [UInt64.toNat_and, UInt64.toNat_sub_of_le _ _ hle, toNat_bufferSizeWord, UInt64.toNat_one,
    bufferSize_eq, Nat.and_two_pow_sub_one_eq_mod]

/-- Below 65 the divisors of the buffer's size are those of 64. -/
theorem dvd_bufferSize_iff (C : TurboCapacity) {size : ℕ} (h : size ≤ 64) :
    size ∣ C.bufferSize ↔ size ∣ 64 := by
  constructor
  · intro hdvd
    rw [bufferSize_eq] at hdvd
    obtain ⟨k, _, rfl⟩ := (Nat.dvd_prime_pow Nat.prime_two).1 hdvd
    have hk : k ≤ 6 := by
      by_contra hgt
      have h7 : 2 ^ 7 ≤ 2 ^ k := Nat.pow_le_pow_right Nat.two_pos (by omega)
      omega
    exact Nat.pow_dvd_pow 2 hk
  · intro hdvd
    exact Nat.dvd_trans hdvd (Nat.dvd_mul_left 64 C.val)

end TurboCapacity

namespace TurboSPSC

/-- The messages not read yet; one that is being read is the first of them. -/
def TurboState.unread (s : TurboState) : List Message := s.written.drop s.delivered.length

/-- What is expected of the queue in a state: the copy a party is at stays in
the buffer, the byte the writer is about to copy does not go into a message that
is not read yet, and the messages read are the first ones written. -/
structure Safe (C : TurboCapacity) (size : ℕ) (s : TurboState) : Prop where
  write_inside : ∀ src n, s.writer = .copying src n → s.queue.writePos C + size ≤ C.bufferSize
  read_inside : ∀ dst, s.reader = .copying dst → s.queue.readPos C + size ≤ C.bufferSize
  no_overwrite : ∀ src n, s.writer = .copying src n → n < size → ∀ m ∈ s.unread,
    ∀ j < m.bytes.length, s.queue.writePos C + n ≠ m.pos + j
  in_order : s.delivered <+: s.written.map (·.bytes)

/-- The check of the writer, where nothing wraps. -/
theorem isFull_iff_of_lt {C : TurboCapacity} {size : ℕ} {q : TurboSPSC}
    (hhead : q.headCache.toNat + C.bufferSize < 2 ^ 64) (htail : q.tail.toNat + size < 2 ^ 64) :
    q.isFull C size ↔ q.headCache.toNat + C.bufferSize < q.tail.toNat + size := by
  rw [isFull, UInt64.lt_iff_toNat_lt, UInt64.toNat_add, UInt64.toNat_add,
    C.toNat_bufferSizeWord, UInt64.toNat_ofNat', Nat.mod_eq_of_lt (show size < 2 ^ 64 by omega),
    Nat.mod_eq_of_lt hhead, Nat.mod_eq_of_lt htail]

/-- A position moves on by one message, where it does not wrap. -/
theorem toNat_add_size {p : UInt64} {size : ℕ} (h : p.toNat + size < 2 ^ 64) :
    (p + UInt64.ofNat size).toNat = p.toNat + size := by
  rw [UInt64.toNat_add, UInt64.toNat_ofNat', Nat.mod_eq_of_lt (show size < 2 ^ 64 by omega),
    Nat.mod_eq_of_lt h]

/-! ### The invariant -/

/-- The first `n` bytes of `src` stand in the buffer from `pos` on. -/
def Copied (buffer : ℕ → UInt8) (pos : ℕ) (src : List UInt8) (n : ℕ) : Prop :=
  ∀ j b, j < n → src[j]? = some b → buffer (pos + j) = b

/-- What the writer's program counter promises; `pos` is the offset it writes at. -/
def WriterOk (size : ℕ) (buffer : ℕ → UInt8) (pos : ℕ) (room : Prop) : Writer → Prop
  | .idle => True
  | .full src => src.length = size
  | .copying src n => src.length = size ∧ n ≤ size ∧ room ∧ Copied buffer pos src n

/-- What the reader's program counter promises; `D` is the number of the message
it reads, `known` the number of messages it knows of. -/
def ReaderOk (D known : ℕ) (written : List Message) : Reader → Prop
  | .idle => True
  | .drained => True
  | .copying dst => D < known ∧ ∃ m, written[D]? = some m ∧ dst <+: m.bytes

/-- The invariant of a queue whose messages are blocks of the buffer; `known` is
the number of messages behind the reader's copy of `tail_`. -/
structure Fifo (C : TurboCapacity) (size known : ℕ) (s : TurboState) : Prop where
  tail : s.queue.tail.toNat = s.written.length * size
  cursor : s.queue.readCursor.toNat = s.delivered.length * size
  tailCache : s.queue.tailCache.toNat = known * size
  read_le : s.delivered.length ≤ known
  known_le : known ≤ s.written.length
  headCache_le : s.queue.headCache.toNat ≤ s.queue.head.toNat
  head_le : s.queue.head.toNat ≤ s.queue.readCursor.toNat
  room : s.queue.tail.toNat ≤ s.queue.headCache.toNat + C.bufferSize
  placed : ∀ i m, s.written[i]? = some m →
    m.pos = i * size % C.bufferSize ∧ m.bytes.length = size
  stored : ∀ i m, s.delivered.length ≤ i → s.written[i]? = some m →
    Copied s.queue.buffer m.pos m.bytes size
  inOrder : s.delivered <+: s.written.map (·.bytes)
  writer : WriterOk size s.queue.buffer (s.queue.writePos C)
    (s.queue.tail.toNat + size ≤ s.queue.headCache.toNat + C.bufferSize) s.writer
  reader : ReaderOk s.delivered.length known s.written s.reader

theorem Copied.zero {buffer : ℕ → UInt8} {pos : ℕ} {src : List UInt8} :
    Copied buffer pos src 0 := by
  intro j b hj
  exact absurd hj (Nat.not_lt_zero j)

theorem Copied.update {buffer : ℕ → UInt8} {pos n : ℕ} {src : List UInt8} {b : UInt8}
    (h : Copied buffer pos src n) (hb : src[n]? = some b) :
    Copied (Function.update buffer (pos + n) b) pos src (n + 1) := by
  intro j b' hj hb'
  rcases Nat.lt_or_eq_of_le (Nat.lt_succ_iff.1 hj) with hlt | rfl
  · rw [Function.update_of_ne (by omega)]
    exact h j b' hlt hb'
  · rw [Function.update_self]
    rw [hb] at hb'
    exact Option.some_inj.1 hb'

namespace Fifo

variable {C : TurboCapacity} {size known : ℕ} {s s' : TurboState}

theorem writePos_eq (h : Fifo C size known s) :
    s.queue.writePos C = s.written.length * size % C.bufferSize := by
  rw [writePos, C.and_mask, h.tail]

theorem readPos_eq (h : Fifo C size known s) :
    s.queue.readPos C = s.delivered.length * size % C.bufferSize := by
  rw [readPos, C.and_mask, h.cursor]

theorem start (buffer : ℕ → UInt8) : Fifo C size 0 (.start buffer) where
  tail := (Nat.zero_mul size).symm
  cursor := (Nat.zero_mul size).symm
  tailCache := (Nat.zero_mul size).symm
  read_le := le_refl _
  known_le := le_refl _
  headCache_le := le_refl _
  head_le := le_refl _
  room := Nat.zero_le _
  placed i m hm := absurd hm (by simp [TurboState.start])
  stored i m _ hm := absurd hm (by simp [TurboState.start])
  inOrder := List.prefix_rfl
  writer := trivial
  reader := trivial

/-- The number of messages read, in messages and in bytes. -/
theorem cursor_le (h : Fifo C size known s) : s.queue.readCursor.toNat ≤ s.queue.tail.toNat := by
  rw [h.cursor, h.tail]
  exact Nat.mul_le_mul_right size (h.read_le.trans h.known_le)

/-- The check of the writer, with any copy of `head_` it may hold. -/
theorem isFull_iff (h : Fifo C size known s) (hb : s.written.length * size < 2 ^ 63)
    (hsize : size ≤ 64) {hc : UInt64} (hhc : hc.toNat ≤ s.queue.head.toNat) :
    ({ s.queue with headCache := hc }).isFull C size ↔
      hc.toNat + C.bufferSize < s.queue.tail.toNat + size := by
  have h1 := h.cursor_le
  have h2 := h.head_le
  have h3 := h.tail
  have h4 := C.bufferSize_le
  refine isFull_iff_of_lt ?_ ?_
  · show hc.toNat + C.bufferSize < 2 ^ 64
    omega
  · show s.queue.tail.toNat + size < 2 ^ 64
    omega

variable (hdvd : size ∣ C.bufferSize)
include hdvd

/-- The cells the writer works on are not those of a message that is not read:
they are less than one lap ahead of it. -/
theorem cell_ne (h : Fifo C size known s)
    (hroom : s.queue.tail.toNat + size ≤ s.queue.headCache.toNat + C.bufferSize) {n : ℕ}
    (hn : n < size) {i : ℕ} {m : Message} (hi : s.delivered.length ≤ i)
    (hm : s.written[i]? = some m) {j : ℕ} (hj : j < size) :
    s.queue.writePos C + n ≠ m.pos + j := by
  have hpos : 0 < C.bufferSize := lt_of_lt_of_le (by omega) C.sixtyFour_le
  have hlt := (List.getElem?_eq_some_iff.1 hm).1
  -- positions: the reader's, then this byte of the message, then the writer's
  have hread : s.queue.readCursor.toNat ≤ i * size := by
    rw [h.cursor]
    exact Nat.mul_le_mul_right size hi
  have hnext : i * size + size ≤ s.queue.tail.toNat := by
    rw [h.tail, ← Nat.succ_mul]
    exact Nat.mul_le_mul_right size hlt
  have h1 := h.headCache_le
  have h2 := h.head_le
  rw [h.writePos_eq, (h.placed i m hm).1, Ring.block_add hdvd hpos _ hn,
    Ring.block_add hdvd hpos _ hj, ← h.tail]
  intro heq
  have hsame := Ring.mod_inj (show i * size + j ≤ s.queue.tail.toNat + n by omega) (by omega)
    heq.symm
  omega

theorem safe (h : Fifo C size known s) : Safe C size s := by
  have hpos : 0 < C.bufferSize := lt_of_lt_of_le (by omega) C.sixtyFour_le
  have hW := h.writer
  refine ⟨fun src n _ => ?_, fun dst _ => ?_, fun src n hw hn m hm j hj => ?_, h.inOrder⟩
  · rw [h.writePos_eq]
    exact Ring.block_le hdvd hpos _
  · rw [h.readPos_eq]
    exact Ring.block_le hdvd hpos _
  · rw [hw] at hW
    obtain ⟨k, hk⟩ := List.mem_iff_getElem?.1 hm
    rw [TurboState.unread, List.getElem?_drop] at hk
    rw [(h.placed _ m hk).2] at hj
    exact h.cell_ne hdvd hW.2.2.1 hn (Nat.le_add_right _ _) hk hj

/-- The writer copies a byte. -/
theorem writeByte (h : Fifo C size known s) {src : List UInt8} {n : ℕ} {b : UInt8}
    (hw : s.writer = .copying src n) (hb : src[n]? = some b) :
    Fifo C size known { s with
      queue := { s.queue with
        buffer := Function.update s.queue.buffer (s.queue.writePos C + n) b }
      writer := .copying src (n + 1) } := by
  have hW := h.writer
  rw [hw] at hW
  obtain ⟨hlen, _, hroom, hcopied⟩ := hW
  have hn : n < size := hlen ▸ (List.getElem?_eq_some_iff.1 hb).1
  exact { h with
    stored := by
      intro i m hi hm j b' hj hb'
      show Function.update s.queue.buffer _ b (m.pos + j) = b'
      rw [Function.update_of_ne (h.cell_ne hdvd hroom hn hi hm hj).symm]
      exact h.stored i m hi hm j b' hj hb'
    writer := ⟨hlen, hn, hroom, hcopied.update hb⟩ }

omit hdvd

/-- The writer publishes the block it has copied. -/
theorem storeTail (h : Fifo C size known s) (hb : s.written.length * size + size < 2 ^ 64)
    {src : List UInt8} (hw : s.writer = .copying src size) :
    Fifo C size known { s with
      queue := { s.queue with tail := s.queue.tail + UInt64.ofNat size }
      writer := .idle
      written := s.written ++ [⟨s.queue.writePos C, src⟩] } := by
  have hW := h.writer
  rw [hw] at hW
  obtain ⟨hlen, _, hroom, hcopied⟩ := hW
  have htail : (s.queue.tail + UInt64.ofNat size).toNat = s.queue.tail.toNat + size := by
    refine toNat_add_size ?_
    rw [h.tail]
    exact hb
  have hlen' : (s.written ++ [Message.mk (s.queue.writePos C) src]).length =
      s.written.length + 1 := by
    rw [List.length_append, List.length_singleton]
  exact { h with
    tail := by
      rw [hlen', Nat.succ_mul, ← h.tail]
      exact htail
    known_le := by
      rw [hlen']
      exact Nat.le_succ_of_le h.known_le
    room := htail.trans_le hroom
    placed := by
      intro i m hm
      rcases Ring.old_or_new hm with hold | ⟨rfl, rfl⟩
      · exact h.placed i m hold
      · exact ⟨h.writePos_eq, hlen⟩
    stored := by
      intro i m hi hm
      rcases Ring.old_or_new hm with hold | ⟨rfl, rfl⟩
      · exact h.stored i m hi hold
      · exact hcopied
    inOrder := by
      rw [List.map_append]
      exact h.inOrder.trans (List.prefix_append _ _)
    writer := trivial
    reader := by
      have hR := h.reader
      show ReaderOk _ _ _ s.reader
      cases hr : s.reader with
      | idle => trivial
      | drained => trivial
      | copying dst =>
        rw [hr] at hR
        obtain ⟨hlt, m, hm, hdst⟩ := hR
        refine ⟨hlt, m, ?_, hdst⟩
        rw [List.getElem?_append_left (List.getElem?_eq_some_iff.1 hm).1]
        exact hm }

/-- The writer renews its copy of `head_`. -/
theorem loadHead (h : Fifo C size known s) {w : Writer}
    (hok : WriterOk size s.queue.buffer (s.queue.writePos C)
      (s.queue.tail.toNat + size ≤ s.queue.head.toNat + C.bufferSize) w) :
    Fifo C size known { s with
      queue := { s.queue with headCache := s.queue.head }, writer := w } :=
  { h with
    headCache_le := le_refl _
    room := h.room.trans (Nat.add_le_add_right h.headCache_le _)
    writer := hok }

/-- The reader stands before a message it knows of. -/
theorem next (h : Fifo C size known s) (hlt : s.delivered.length < known) :
    ReaderOk s.delivered.length known s.written (.copying []) := by
  have hget := List.getElem?_eq_getElem (lt_of_lt_of_le hlt h.known_le)
  exact ⟨hlt, _, hget, List.nil_prefix⟩

/-- The reader renews its copy of `tail_`. -/
theorem loadTail (h : Fifo C size known s) {r : Reader}
    (hok : ReaderOk s.delivered.length s.written.length s.written r) :
    Fifo C size s.written.length { s with
      queue := { s.queue with tailCache := s.queue.tail }, reader := r } :=
  { h with
    tailCache := h.tail
    read_le := h.read_le.trans h.known_le
    known_le := le_refl _
    reader := hok }

/-- The reader copies a byte. -/
theorem readByte (h : Fifo C size known s) {dst : List UInt8} (hr : s.reader = .copying dst)
    (hlt : dst.length < size) :
    Fifo C size known { s with
      reader := .copying (dst ++ [s.queue.buffer (s.queue.readPos C + dst.length)]) } := by
  have hR := h.reader
  rw [hr] at hR
  obtain ⟨hknown, m, hm, hdst⟩ := hR
  obtain ⟨hpos, hlen⟩ := h.placed _ m hm
  refine { h with reader := ⟨hknown, m, hm, Ring.read_next hdst ?_⟩ }
  -- the next byte of the block is the next byte of the message
  have hget := List.getElem?_eq_getElem (show dst.length < m.bytes.length by omega)
  rw [h.readPos_eq, ← hpos, h.stored _ m (le_refl _) hm _ _ hlt hget]
  exact hget

/-- The reader has copied a whole message and moves on. -/
theorem finish (h : Fifo C size known s) (hb : s.written.length * size < 2 ^ 63)
    {dst : List UInt8} (hr : s.reader = .copying dst) (hlen : dst.length = size) :
    Fifo C size known { s with
      queue := { s.queue with readCursor := s.queue.readCursor + UInt64.ofNat size }
      reader := .idle
      delivered := s.delivered ++ [dst] } := by
  have hR := h.reader
  rw [hr] at hR
  obtain ⟨hknown, m, hm, hdst⟩ := hR
  obtain rfl : dst = m.bytes := hdst.eq_of_length (hlen.trans (h.placed _ m hm).2.symm)
  have hlen' : (s.delivered ++ [m.bytes]).length = s.delivered.length + 1 := by
    rw [List.length_append, List.length_singleton]
  have hle : s.delivered.length * size + size ≤ s.written.length * size := by
    rw [← Nat.succ_mul]
    exact Nat.mul_le_mul_right size (le_trans hknown h.known_le)
  have hcursor : (s.queue.readCursor + UInt64.ofNat size).toNat =
      s.queue.readCursor.toNat + size := by
    refine toNat_add_size ?_
    rw [h.cursor]
    omega
  exact { h with
    cursor := by
      rw [hlen', Nat.succ_mul, ← h.cursor]
      exact hcursor
    read_le := by
      rw [hlen']
      exact hknown
    head_le := by
      show _ ≤ (s.queue.readCursor + UInt64.ofNat size).toNat
      rw [hcursor]
      exact Nat.le_add_right_of_le h.head_le
    stored := by
      intro i m' hi hm'
      rw [hlen'] at hi
      exact h.stored i m' (by omega) hm'
    inOrder := by
      have hnext : (s.written.map (·.bytes))[s.delivered.length]? = some m.bytes := by
        rw [List.getElem?_map, hm]
        rfl
      exact Ring.read_next h.inOrder hnext
    reader := trivial }

/-- The invariant survives every step that leaves fewer than `2 ^ 63` bytes written. -/
theorem act (hdvd : size ∣ C.bufferSize) (hsize : size ≤ 64) (h : Fifo C size known s)
    {e : TurboAction} (hs : s.act C size e = some s') (hb : s'.written.length * size < 2 ^ 63) :
    ∃ known', Fifo C size known' s' := by
  have hW := h.writer
  have hread := h.read_le
  cases step_of_act hs with
  | writeFull hw hlen _ => exact ⟨known, { h with writer := hlen }⟩
  | write hw hlen hroom =>
    rw [h.isFull_iff hb hsize h.headCache_le, not_lt] at hroom
    exact ⟨known, { h with writer := ⟨hlen, Nat.zero_le _, hroom, .zero⟩ }⟩
  | failWrite hw _ => exact ⟨known, h.loadHead trivial⟩
  | loadHead hw hroom =>
    rw [hw] at hW
    rw [h.isFull_iff hb hsize (le_refl _), not_lt] at hroom
    exact ⟨known, h.loadHead ⟨hW, Nat.zero_le _, hroom, .zero⟩⟩
  | writeByte hw hbyte => exact ⟨known, h.writeByte hdvd hw hbyte⟩
  | storeTail hw =>
    rw [List.length_append, List.length_singleton, Nat.succ_mul] at hb
    exact ⟨known, h.storeTail (by omega) hw⟩
  | readDrained hr _ => exact ⟨known, { h with
      headCache_le := h.headCache_le.trans h.head_le
      head_le := le_refl _
      reader := trivial }⟩
  | read hr hne =>
    refine ⟨known, { h with reader := h.next (lt_of_le_of_ne hread ?_) }⟩
    rintro heq
    refine hne (UInt64.toNat_inj.1 ?_)
    rw [h.cursor, h.tailCache, heq]
  | emptyRead hr _ => exact ⟨_, h.loadTail trivial⟩
  | loadTail hr hne =>
    have hle := hread.trans h.known_le
    have hlt : s.delivered.length < s.written.length := by
      refine lt_of_le_of_ne hle ?_
      rintro heq
      refine hne (UInt64.toNat_inj.1 ?_)
      rw [h.cursor, h.tail, heq]
    exact ⟨_, h.loadTail ⟨hlt, _, List.getElem?_eq_getElem hlt, List.nil_prefix⟩⟩
  | readByte hr hlt => exact ⟨known, h.readByte hr hlt⟩
  | finish hr hlen => exact ⟨known, h.finish hb hr hlen⟩

end Fifo

/-- A step writes at most one message more. -/
theorem Step.written_le {C : TurboCapacity} {size : ℕ} {s s' : TurboState} {e : TurboAction}
    (h : Step C size s e s') : s.written.length ≤ s'.written.length := by
  cases h with
  | storeTail _ =>
    rw [List.length_append]
    exact Nat.le_add_right _ _
  | _ => exact le_refl _

/-- The invariant holds in every state of every interleaving, until `2 ^ 63`
bytes have been written. -/
theorem Fifo.run {C : TurboCapacity} {size : ℕ} (hdvd : size ∣ C.bufferSize) (hsize : size ≤ 64)
    {es : List TurboAction} {s : TurboState} (h : (turbo C size).Run es s) :
    s.written.length * size < 2 ^ 63 → ∃ known, Fifo C size known s := by
  refine h.invariant (I := fun s => s.written.length * size < 2 ^ 63 →
    ∃ known, Fifo C size known s) ?_ ?_
  · rintro s ⟨buffer, rfl⟩ _
    exact ⟨0, Fifo.start buffer⟩
  · intro s e s' ih hs hb
    have hle := Nat.mul_le_mul_right size (step_of_act hs).written_le
    obtain ⟨known, hI⟩ := ih (lt_of_le_of_lt hle hb)
    exact hI.act hdvd hsize hs hb

/-! ### Running over the end -/

section

variable {C : TurboCapacity} {size : ℕ} {es : List TurboAction} {s : TurboState}

/-- The rest of a copy into the buffer. -/
theorem exists_copied {src : List UInt8} (hlen : src.length = size) :
    ∀ {k n : ℕ} {es : List TurboAction} {s : TurboState}, n + k = size →
      (turbo C size).Run es s → s.writer = .copying src n →
      ∃ es' buffer, (turbo C size).Run es' { s with
        queue := { s.queue with buffer := buffer }, writer := .copying src size } := by
  intro k
  induction k with
  | zero =>
    intro n es s hn hrun hw
    refine ⟨es, s.queue.buffer, ?_⟩
    obtain rfl : n = size := hn
    rw [← hw]
    exact hrun
  | succ k ih =>
    intro n es s hn hrun hw
    have hlt : n < src.length := by omega
    have hnext := turbo_snoc hrun (.writeByte hw (List.getElem?_eq_getElem hlt))
    obtain ⟨es', buffer, hrun'⟩ := ih (n := n + 1) (by omega) hnext rfl
    exact ⟨es', buffer, hrun'⟩

/-- A write that finds room and goes through. -/
theorem exists_written {src : List UInt8} (hlen : src.length = size)
    (hrun : (turbo C size).Run es s) (hw : s.writer = .idle) (hroom : ¬s.queue.isFull C size) :
    ∃ es' buffer m, (turbo C size).Run es' { s with
      queue := { s.queue with buffer := buffer, tail := s.queue.tail + UInt64.ofNat size }
      writer := .idle
      written := s.written ++ [m] } := by
  have hbegin := turbo_snoc hrun (.write hw hlen hroom)
  obtain ⟨es', buffer, hcopied⟩ := exists_copied hlen (Nat.zero_add size) hbegin rfl
  exact ⟨_, buffer, _, turbo_snoc hcopied (.storeTail rfl)⟩

/-- The rest of a copy out of the buffer, to the end of the read. -/
theorem exists_read :
    ∀ {k : ℕ} {dst : List UInt8} {es : List TurboAction} {s : TurboState},
      dst.length + k = size → (turbo C size).Run es s → s.reader = .copying dst →
      ∃ es' msg, (turbo C size).Run es' { s with
        queue := { s.queue with readCursor := s.queue.readCursor + UInt64.ofNat size }
        reader := .idle
        delivered := s.delivered ++ [msg] } := by
  intro k
  induction k with
  | zero =>
    intro dst es s hlen hrun hr
    exact ⟨_, dst, turbo_snoc hrun (.finish hr hlen)⟩
  | succ k ih =>
    intro dst es s hlen hrun hr
    have hnext := turbo_snoc hrun (.readByte hr (by omega))
    obtain ⟨es', msg, hrun'⟩ := ih (by rw [List.length_append, List.length_singleton]; omega)
      hnext rfl
    exact ⟨es', msg, hrun'⟩

/-- Everything written has been read, and the writer still works from the first
copy of `head_`. -/
structure Level (size m : ℕ) (s : TurboState) : Prop where
  writer : s.writer = .idle
  reader : s.reader = .idle
  written : s.written.length = m
  tail : s.queue.tail.toNat = m * size
  cursor : s.queue.readCursor = s.queue.tail
  tailCache : s.queue.tailCache = s.queue.tail
  headCache : s.queue.headCache = 0

/-- As long as it fits, a message can be written and read. -/
theorem exists_level (hsize : 0 < size) :
    ∀ {m : ℕ}, m * size ≤ C.bufferSize → ∃ es s, (turbo C size).Run es s ∧ Level size m s := by
  intro m
  induction m with
  | zero =>
    intro _
    exact ⟨[], .start fun _ => 0, .start ⟨_, rfl⟩, rfl, rfl, rfl, (Nat.zero_mul size).symm, rfl,
      rfl, rfl⟩
  | succ m ih =>
    intro hle
    rw [Nat.succ_mul] at hle
    have hbuf := C.bufferSize_le
    obtain ⟨es, s, hrun, h⟩ := ih (by omega)
    have htail := h.tail
    have hnext : (s.queue.tail + UInt64.ofNat size).toNat = m * size + size := by
      rw [toNat_add_size (by omega), htail]
    have hroom : ¬s.queue.isFull C size := by
      rw [isFull_iff_of_lt (by rw [h.headCache, UInt64.toNat_zero]; omega) (by omega), h.headCache,
        UInt64.toNat_zero]
      omega
    obtain ⟨es₁, buffer, msg, hwrite⟩ :=
      exists_written (List.length_replicate (n := size) (a := 0)) hrun h.writer hroom
    -- the reader has to look at `tail_` before it finds the message
    have hne : s.queue.readCursor ≠ s.queue.tail + UInt64.ofNat size := by
      intro hc
      have hc' := congrArg UInt64.toNat hc
      rw [hnext, h.cursor, htail] at hc'
      omega
    have hdrained := turbo_snoc hwrite (.readDrained h.reader (h.cursor.trans h.tailCache.symm))
    have hloaded := turbo_snoc hdrained (.loadTail rfl hne)
    obtain ⟨es₂, out, hread⟩ := exists_read (Nat.zero_add size) hloaded rfl
    refine ⟨es₂, _, hread, rfl, rfl, ?_, ?_, ?_, rfl, h.headCache⟩
    · rw [List.length_append, h.written, List.length_singleton]
    · rw [Nat.succ_mul]
      exact hnext
    · show s.queue.readCursor + UInt64.ofNat size = s.queue.tail + UInt64.ofNat size
      rw [h.cursor]

/-- Messages whose size does not divide the buffer's run over its end. -/
theorem exists_overrun (hsize : 0 < size) (hle : size ≤ 64) (hdvd : ¬size ∣ C.bufferSize) :
    ∃ es s src n, (turbo C size).Run es s ∧ s.written.length * size < 2 ^ 63 ∧
      s.writer = .copying src n ∧ C.bufferSize < s.queue.writePos C + size := by
  have hbuf := C.bufferSize_le
  have hmin := C.sixtyFour_le
  obtain ⟨hfits, hover⟩ := Ring.block_overruns hsize hdvd
  obtain ⟨es, s, hrun, h⟩ := exists_level (C := C) hsize hfits.le
  have htail := h.tail
  -- the last call of `read` tells the writer that the buffer is empty
  have hdrained := turbo_snoc hrun (.readDrained h.reader (h.cursor.trans h.tailCache.symm))
  have hfull : ({ s.queue with head := s.queue.readCursor }).isFull C size := by
    rw [isFull_iff_of_lt]
    · show s.queue.headCache.toNat + C.bufferSize < s.queue.tail.toNat + size
      rw [h.headCache, UInt64.toNat_zero]
      omega
    · show s.queue.headCache.toNat + C.bufferSize < 2 ^ 64
      rw [h.headCache, UInt64.toNat_zero]
      omega
    · show s.queue.tail.toNat + size < 2 ^ 64
      omega
  have hroom : ¬({ s.queue with
      head := s.queue.readCursor, headCache := s.queue.readCursor }).isFull C size := by
    rw [isFull_iff_of_lt]
    · show ¬s.queue.readCursor.toNat + C.bufferSize < s.queue.tail.toNat + size
      rw [h.cursor]
      omega
    · show s.queue.readCursor.toNat + C.bufferSize < 2 ^ 64
      rw [h.cursor]
      omega
    · show s.queue.tail.toNat + size < 2 ^ 64
      omega
  have hwrite := turbo_snoc hdrained
    (.writeFull h.writer (List.length_replicate (n := size) (a := 0)) hfull)
  have hcopying := turbo_snoc hwrite (.loadHead rfl hroom)
  refine ⟨_, _, List.replicate size 0, 0, hcopying, ?_, rfl, ?_⟩
  · show s.written.length * size < 2 ^ 63
    rw [h.written]
    omega
  · rw [writePos, C.and_mask]
    show C.bufferSize < s.queue.tail.toNat % C.bufferSize + size
    rw [htail, Nat.mod_eq_of_lt hfits]
    exact hover

end

/-! ### Exactly when -/

/-- **TurboSPSC stays in its buffer and is a queue exactly for messages whose
size is a power of two.**  For every capacity and every message size from 1 to
64: all states of all interleavings of fewer than `2 ^ 63` bytes are safe if and
only if the size divides 64. -/
theorem safe_iff (C : TurboCapacity) {size : ℕ} (hpos : 1 ≤ size) (hle : size ≤ 64) :
    (∀ es s, (turbo C size).Run es s → s.written.length * size < 2 ^ 63 → Safe C size s) ↔
      size ∣ 64 := by
  rw [← C.dvd_bufferSize_iff hle]
  constructor
  · intro hsafe
    by_contra hdvd
    obtain ⟨es, s, src, n, hrun, hb, hw, hover⟩ := exists_overrun hpos hle hdvd
    have hinside := (hsafe es s hrun hb).write_inside src n hw
    omega
  · intro hdvd es s hrun hb
    obtain ⟨known, hI⟩ := Fifo.run hdvd hle hrun hb
    exact hI.safe hdvd

/-- The queue of the benchmark has `1 << 15` lines. -/
def benchmarkQueue : TurboCapacity := ⟨15, Nat.le_add_left 16 41⟩

/-- The messages of the benchmark are words of 8 bytes. -/
theorem safe_iff_words : (1 ≤ 8 ∧ 8 ≤ 64) ∧
    ((∀ es s, (turbo benchmarkQueue 8).Run es s → s.written.length * 8 < 2 ^ 63 →
      Safe benchmarkQueue 8 s) ↔ 8 ∣ 64) :=
  ⟨⟨by decide, by decide⟩, safe_iff benchmarkQueue (by decide) (by decide)⟩

/-- The smallest queue, with a buffer of 64 bytes. -/
def oneLine : TurboCapacity := ⟨0, Nat.succ_pos 56⟩

/-- Messages of six words. -/
def sixWords (x : UInt8) : List UInt8 := List.replicate 48 x

/-- One message is written and read, the reader looks for another one, and a
second message is written. -/
def writeReadWrite : List TurboAction :=
  TurboAction.write (sixWords 1) :: List.replicate 48 TurboAction.writeByte ++
    [TurboAction.storeTail, TurboAction.read, TurboAction.loadTail] ++
    List.replicate 48 TurboAction.readByte ++
    [TurboAction.finish, TurboAction.read, TurboAction.write (sixWords 2), TurboAction.loadHead]

/-- Messages of 48 bytes in a buffer of 64: the second one is copied to the
offsets 48 to 95. -/
theorem overrun : ∃ es s, (turbo oneLine 48).Run es s ∧ s.written.length * 48 < 2 ^ 63 ∧
    ¬Safe oneLine 48 s := by
  have h0 : (turbo oneLine 48).init (.start fun _ => 0) := ⟨_, rfl⟩
  obtain ⟨s, hrun, hs⟩ := Machine.exists_run (f := TurboState.act oneLine 48) (fun h => h) h0
    writeReadWrite (fun s => s.written.length * 48 < 2 ^ 63 ∧ s.writer = .copying (sixWords 2) 0 ∧
      s.queue.writePos oneLine = 48) (by decide +kernel)
  obtain ⟨hb, hw, hpos⟩ := of_decide_eq_true hs
  refine ⟨_, s, hrun, hb, fun hsafe => ?_⟩
  have hinside := hsafe.write_inside _ _ hw
  rw [hpos] at hinside
  exact absurd hinside (by decide)

end TurboSPSC
