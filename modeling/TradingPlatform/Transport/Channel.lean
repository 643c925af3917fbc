/-
A channel and its read buffer (`common/src/transport/channel.hpp`,
`common/src/containers/sliding_buffer.hpp`).

The channel offers the transport a span at the end of the buffer, hands what
has arrived to the framer, forgets what the framer has consumed and offers the
next span.  When the span at the end gets short, the bytes that are left are
moved to the front.

* `SlidingBuffer.data_write`, `data_commitRead`, `exists_buffer` — what the
  buffer holds after each operation, and that it offers enough as long as little
  is left in it;
* `Channel.deliver` — a read completes;
* `Channel.Fed.run` — for a framer that is not changed by later bytes and leaves
  little: after any reads the channel has posted what the framer finds in all
  bytes at once;
* `Channel.Idle` — a channel whose framer has taken everything.

A read that fails, and writing, are left out.
-/
import TradingPlatform.Messages
import TradingPlatform.Lib.Stream
import TradingPlatform.Lib.Machine
import Mathlib.Data.List.Range

/-- `SlidingBuffer`; bytes below `head_` have been written, those below `tail_`
have been consumed. -/
structure SlidingBuffer where
  head : ℕ
  tail : ℕ
  bytes : ℕ → UInt8

namespace SlidingBuffer

/-- The default capacity. -/
def capacity : ℕ := 1024 * 128

/-- `MIN_READ_CAPACITY`. -/
def minReadCapacity : ℕ := 512

def fresh : SlidingBuffer := ⟨0, 0, fun _ => 0⟩

/-- `rotate`; `none` where it throws. -/
def rotate (b : SlidingBuffer) : Option SlidingBuffer :=
  if b.tail = 0 then some b
  else if b.head < b.tail then none
  else
    let dataSize := b.head - b.tail
    some ⟨dataSize, 0, fun i => if i < dataSize then b.bytes (b.tail + i) else b.bytes i⟩

/-- `buffer()`: the buffer, and the size of the span it offers at `head_`. -/
def buffer (b : SlidingBuffer) : Option (SlidingBuffer × ℕ) :=
  (if capacity - b.head < minReadCapacity then b.rotate else some b).map fun b =>
    (b, capacity - b.head)

/-- `data()`. -/
def data (b : SlidingBuffer) : List UInt8 :=
  (List.range (b.head - b.tail)).map fun i => b.bytes (b.tail + i)

/-- The transport writes into the span it was offered. -/
def fill (b : SlidingBuffer) (chunk : List UInt8) : SlidingBuffer :=
  { b with bytes := fun i => if b.head ≤ i then chunk.getD (i - b.head) (b.bytes i) else b.bytes i }

/-- `commitWrite`. -/
def commitWrite (b : SlidingBuffer) (n : ℕ) : SlidingBuffer × Bool :=
  if capacity < b.head + n then (b, false) else ({ b with head := b.head + n }, true)

/-- `reset`. -/
def reset (b : SlidingBuffer) : SlidingBuffer := { b with head := 0, tail := 0 }

/-- `commitRead`. -/
def commitRead (b : SlidingBuffer) (n : ℕ) : SlidingBuffer :=
  if b.tail + n = b.head then b.reset else { b with tail := b.tail + n }

/-- The two ends are in order. -/
structure Ordered (b : SlidingBuffer) : Prop where
  tail_le : b.tail ≤ b.head
  head_le : b.head ≤ capacity

variable {b : SlidingBuffer}

@[simp] theorem length_data : b.data.length = b.head - b.tail := by
  rw [data, List.length_map, List.length_range]

theorem getElem_data {i : ℕ} (h : i < b.data.length) : b.data[i] = b.bytes (b.tail + i) := by
  simp only [data, List.getElem_map, List.getElem_range]

theorem data_reset : b.reset.data = [] := rfl

theorem Ordered.reset (b : SlidingBuffer) : Ordered b.reset :=
  ⟨le_refl _, Nat.zero_le _⟩

/-- What arrives stands after what was there. -/
theorem data_write (h : Ordered b) (chunk : List UInt8)
    (hle : b.head + chunk.length ≤ capacity) :
    ((b.fill chunk).commitWrite chunk.length).2 = true ∧
    ((b.fill chunk).commitWrite chunk.length).1.data = b.data ++ chunk ∧
    Ordered ((b.fill chunk).commitWrite chunk.length).1 := by
  have htail := h.tail_le
  have hcommit : (b.fill chunk).commitWrite chunk.length =
      (⟨b.head + chunk.length, b.tail, (b.fill chunk).bytes⟩, true) := if_neg (by
    show ¬ capacity < b.head + chunk.length
    omega)
  rw [hcommit]
  refine ⟨rfl, ?_, ⟨le_trans htail (Nat.le_add_right _ _), hle⟩⟩
  have hlen : b.data.length = b.head - b.tail := length_data
  refine List.ext_getElem (by simp [fill]; omega) fun i hi hi' => ?_
  rw [getElem_data hi]
  rw [List.length_append] at hi'
  show (if b.head ≤ b.tail + i then chunk.getD (b.tail + i - b.head) (b.bytes (b.tail + i))
    else b.bytes (b.tail + i)) = _
  by_cases hlt : i < b.data.length
  · -- a byte that was there
    rw [if_neg (by omega), List.getElem_append_left hlt, getElem_data hlt]
  · have hidx : b.tail + i - b.head = i - b.data.length := by omega
    rw [if_pos (by omega), List.getElem_append_right (Nat.not_lt.1 hlt), hidx,
      List.getD_eq_getElem _ _ (by omega)]

/-- Consuming bytes takes them off the front. -/
theorem data_commitRead (h : Ordered b) {n : ℕ} (hn : n ≤ b.data.length) :
    (b.commitRead n).data = b.data.drop n ∧ Ordered (b.commitRead n) := by
  rw [length_data] at hn
  have htail := h.tail_le
  rw [commitRead]
  split
  · next heq =>
    refine ⟨?_, Ordered.reset b⟩
    rw [data_reset, List.drop_of_length_le (by rw [length_data]; omega)]
  · refine ⟨?_, ⟨by show b.tail + n ≤ b.head; omega, h.head_le⟩⟩
    refine List.ext_getElem (by simp; omega) fun i hi hi' => ?_
    rw [getElem_data hi, List.getElem_drop, getElem_data, Nat.add_assoc]

/-- Moving the bytes to the front keeps them. -/
theorem data_rotate (h : Ordered b) :
    ∃ b', b.rotate = some b' ∧ b'.data = b.data ∧ b'.tail = 0 ∧ Ordered b' := by
  have htail := h.tail_le
  rw [rotate]
  split
  · next hzero => exact ⟨b, rfl, rfl, hzero, h⟩
  · rw [if_neg (Nat.not_lt.2 htail)]
    refine ⟨_, rfl, ?_, rfl, ⟨Nat.zero_le _, le_trans (Nat.sub_le _ _) h.head_le⟩⟩
    refine List.ext_getElem (by simp) fun i hi hi' => ?_
    rw [getElem_data hi, getElem_data hi']
    rw [length_data] at hi'
    show (if 0 + i < b.head - b.tail then b.bytes (b.tail + (0 + i)) else _) = _
    rw [Nat.zero_add, if_pos hi']

/-- As long as little is left, the span offered is long enough. -/
theorem exists_buffer (h : Ordered b) (hlen : b.data.length + minReadCapacity ≤ capacity) :
    ∃ b', b.buffer = some (b', capacity - b'.head) ∧ b'.data = b.data ∧ Ordered b' ∧
      minReadCapacity ≤ capacity - b'.head := by
  rw [buffer]
  split
  · obtain ⟨b', hb', hdata, hzero, hordered⟩ := data_rotate h
    refine ⟨b', by rw [hb']; rfl, hdata, hordered, ?_⟩
    rw [← hdata, length_data, hzero] at hlen
    omega
  · exact ⟨b, rfl, rfl, h, by omega⟩

end SlidingBuffer

/-- A channel that posts messages of type `β`.  `offered` is the size of the span
of the read that is under way, `threw` says that an exception has left the read
handler. -/
structure Channel (β : Type*) where
  buffer : SlidingBuffer
  status : ConnectionStatus
  offered : Option ℕ
  posted : List β
  threw : Bool

namespace Channel

variable {β : Type*}

/-- `read()`. -/
def read (c : Channel β) : Channel β :=
  if c.status ≠ .Connected then c
  else
    match c.buffer.buffer with
    | some (b, avail) => { c with buffer := b, offered := some avail }
    | none => { c with threw := true }

/-- A channel after its first `read()`. -/
def start : Channel β := read ⟨.fresh, .Connected, none, [], false⟩

/-- `readHandler` for a read that has succeeded. -/
def readHandler (unframe : List UInt8 → List β × Except Failure ℕ) (c : Channel β)
    (chunk : List UInt8) : Channel β :=
  let b := ((c.buffer.fill chunk).commitWrite chunk.length).1
  let r := unframe b.data
  let posted := c.posted ++ r.1
  match r.2 with
  | .ok n => read { c with buffer := b.commitRead n, offered := none, posted := posted }
  | .error .error => { c with
      buffer := b.reset, status := .Error, offered := none, posted := posted }
  | .error .exception => { c with buffer := b, offered := none, posted := posted, threw := true }

/-- The read under way completes with `chunk`, which is not empty and fits. -/
def deliver (unframe : List UInt8 → List β × Except Failure ℕ) (c : Channel β)
    (chunk : List UInt8) : Option (Channel β) :=
  match c.offered with
  | some avail =>
    if chunk ≠ [] ∧ chunk.length ≤ avail then some (c.readHandler unframe chunk) else none
  | none => none

/-- Every way a transport can deliver bytes to a new channel. -/
def reads (unframe : List UInt8 → List β × Except Failure ℕ) :
    Machine (Channel β) (List UInt8) := .ofFun start (deliver unframe)

/-- The transport has delivered `chunks`, as far as the channel reads. -/
def Delivered (unframe : List UInt8 → List β × Except Failure ℕ) (chunks : List (List UInt8))
    (c : Channel β) : Prop :=
  ∃ seen rest, chunks = seen ++ rest ∧ (reads unframe).Run seen c ∧
    (rest = [] ∨ c.offered = none)

/-! ### Framers that are not changed by later bytes -/

open SlidingBuffer (capacity minReadCapacity)

/-- What a channel shows of the outcome of a scan of all bytes. -/
def Shows (c : Channel β) (bytes : List UInt8) : Except Failure ℕ → Prop
  | .ok n => c.status = .Connected ∧ c.threw = false ∧ c.buffer.data = bytes.drop n ∧
      c.offered = some (capacity - c.buffer.head) ∧ minReadCapacity ≤ capacity - c.buffer.head
  | .error .error => c.status = .Error ∧ c.threw = false ∧ c.offered = none
  | .error .exception => c.status = .Connected ∧ c.threw = true ∧ c.offered = none

/-- The channel has done with `bytes` what a scan of them does. -/
structure Fed (next : List UInt8 → Stream.Next β Failure) (bytes : List UInt8)
    (c : Channel β) : Prop where
  ordered : c.buffer.Ordered
  posted : c.posted = (Stream.scan next bytes).1
  shows : c.Shows bytes (Stream.scan next bytes).2

section Stable

variable {next : List UInt8 → Stream.Next β Failure} {limit : ℕ} {bytes chunk : List UInt8}
  {c c' : Channel β}

/-- A channel that has little left offers the next span. -/
theorem shows_read (bytes : List UInt8) (n : ℕ) (hstatus : c.status = .Connected)
    (hthrew : c.threw = false) (hordered : c.buffer.Ordered) (hdata : c.buffer.data = bytes.drop n)
    (hlen : (bytes.drop n).length + minReadCapacity ≤ capacity) :
    c.read.buffer.Ordered ∧ c.read.posted = c.posted ∧ c.read.Shows bytes (.ok n) := by
  rw [← hdata] at hlen
  obtain ⟨b', hb', hdata', hordered', hmin⟩ := SlidingBuffer.exists_buffer hordered hlen
  rw [read, if_neg (by simp [hstatus]), hb']
  exact ⟨hordered', rfl, hstatus, hthrew, hdata'.trans hdata, rfl, hmin⟩

theorem Fed.start (hlimit : limit + minReadCapacity ≤ capacity) :
    Fed next [] (Channel.start : Channel β) := by
  obtain ⟨hordered, hposted, hshows⟩ := shows_read [] 0
    (c := ⟨.fresh, .Connected, none, ([] : List β), false⟩) rfl rfl
    ⟨le_refl _, Nat.zero_le _⟩ rfl (by rw [List.drop_nil, List.length_nil]; omega)
  exact ⟨hordered, hposted, hshows⟩

/-- One more read. -/
theorem Fed.deliver (hs : Stream.Stable next)
    (hrest : ∀ xs, next xs = .more → xs.length ≤ limit)
    (hlimit : limit + minReadCapacity ≤ capacity) (h : Fed next bytes c)
    (hc : c.deliver (Stream.scan next) chunk = some c') : Fed next (bytes ++ chunk) c' := by
  obtain ⟨hordered, hposted, hshows⟩ := h
  rw [Channel.deliver] at hc
  cases hscan : (Stream.scan next bytes).2 with
  | error e =>
    -- no read is under way
    rw [hscan] at hshows
    cases e with
    | error => rw [hshows.2.2] at hc; cases hc
    | exception => rw [hshows.2.2] at hc; cases hc
  | ok n =>
    rw [hscan] at hshows
    obtain ⟨hstatus, hthrew, hdata, hoffered, hmin⟩ := hshows
    rw [hoffered] at hc
    dsimp only at hc
    rw [Option.ite_none_right_eq_some, Option.some_inj] at hc
    obtain ⟨⟨_, hfits⟩, rfl⟩ := hc
    have hhead := hordered.head_le
    obtain ⟨_, hwrite, hordered'⟩ :=
      SlidingBuffer.data_write hordered chunk (by omega)
    have hn := (Stream.scan_rest hs.toProgress hscan).1
    have happend := Stream.scan_append hs chunk hscan
    rw [hdata] at hwrite
    rw [readHandler, hwrite]
    cases hr : (Stream.scan next (bytes.drop n ++ chunk)).2 with
    | error e =>
      rw [hr] at happend
      cases e with
      | error =>
        refine ⟨SlidingBuffer.Ordered.reset _, ?_, ?_⟩
        · rw [happend, hposted]
        · rw [happend]
          exact ⟨rfl, hthrew, rfl⟩
      | exception =>
        refine ⟨hordered', ?_, ?_⟩
        · rw [happend, hposted]
        · rw [happend]
          exact ⟨hstatus, rfl, rfl⟩
    | ok m =>
      rw [hr] at happend
      -- what is left now is what a scan of all bytes leaves
      have hm := Stream.scan_rest hs.toProgress hr
      have hdrop : (bytes.drop n ++ chunk).drop m = (bytes ++ chunk).drop (n + m) := by
        rw [← List.drop_append_of_le_length hn, List.drop_drop]
      obtain ⟨hread, hordered''⟩ := SlidingBuffer.data_commitRead hordered'
        (n := m) (by rw [hwrite]; exact hm.1)
      rw [hwrite, hdrop] at hread
      obtain ⟨ho, hp, hsh⟩ := shows_read (bytes ++ chunk) (n + m)
        (c := { c with
          buffer := ((c.buffer.fill chunk).commitWrite chunk.length).1.commitRead m
          offered := none
          posted := c.posted ++ (Stream.scan next (bytes.drop n ++ chunk)).1 })
        hstatus hthrew hordered'' hread (by
          have hle := hrest _ hm.2
          rw [hdrop] at hle
          omega)
      refine ⟨ho, ?_, ?_⟩
      · rw [hp, happend, hposted]
      · rw [happend]
        exact hsh

/-! What a channel shows can be read off the scan, and the other way round. -/

theorem Fed.status_error_iff (h : Fed next bytes c) :
    c.status = .Error ↔ (Stream.scan next bytes).2 = .error .error := by
  have hshows := h.shows
  cases hscan : (Stream.scan next bytes).2 with
  | ok n =>
    rw [hscan] at hshows
    simp [hshows.1]
  | error e =>
    rw [hscan] at hshows
    cases e with
    | error => simp [hshows.1]
    | exception => simp [hshows.1]

theorem Fed.threw_iff (h : Fed next bytes c) :
    c.threw = true ↔ (Stream.scan next bytes).2 = .error .exception := by
  have hshows := h.shows
  cases hscan : (Stream.scan next bytes).2 with
  | ok n =>
    rw [hscan] at hshows
    simp [hshows.2.1]
  | error e =>
    rw [hscan] at hshows
    cases e with
    | error => simp [hshows.2.1]
    | exception => simp [hshows.2.1]

/-- A channel reads until it has stopped. -/
theorem Fed.stopped_iff (h : Fed next bytes c) :
    c.offered = none ↔ c.status = .Error ∨ c.threw = true := by
  have hshows := h.shows
  cases hscan : (Stream.scan next bytes).2 with
  | ok n =>
    rw [hscan] at hshows
    simp [hshows.1, hshows.2.1, hshows.2.2.2.1]
  | error e =>
    rw [hscan] at hshows
    cases e with
    | error => simp [hshows.1, hshows.2.2]
    | exception => simp [hshows.2.1, hshows.2.2]

/-- Until then, the span offered is the rest of the buffer. -/
theorem Fed.offered (h : Fed next bytes c) {avail : ℕ} (havail : c.offered = some avail) :
    avail = capacity - c.buffer.head ∧ minReadCapacity ≤ avail := by
  have hshows := h.shows
  cases hscan : (Stream.scan next bytes).2 with
  | ok n =>
    rw [hscan] at hshows
    obtain ⟨_, _, _, hoffered, hmin⟩ := hshows
    obtain rfl := Option.some_inj.1 (havail.symm.trans hoffered)
    exact ⟨rfl, hmin⟩
  | error e =>
    rw [hscan] at hshows
    have hnone : c.offered = none := by
      cases e with
      | error => exact hshows.2.2
      | exception => exact hshows.2.2
    rw [hnone] at havail
    cases havail

/-- After any reads the channel has done what a scan of all bytes does. -/
theorem Fed.run (hs : Stream.Stable next) (hrest : ∀ xs, next xs = .more → xs.length ≤ limit)
    (hlimit : limit + minReadCapacity ≤ capacity) {chunks : List (List UInt8)}
    (h : (reads (Stream.scan next)).Run chunks c) : Fed next chunks.flatten c := by
  induction h with
  | start hi =>
    rw [show _ = Channel.start from hi]
    exact Fed.start hlimit
  | snoc _ hstep ih =>
    rw [List.flatten_append, List.flatten_singleton]
    exact ih.deliver hs hrest hlimit hstep

end Stable

/-! ### Framers that take everything -/

section Idle

variable {unframe : List UInt8 → List β × Except Failure ℕ} {c : Channel β} {chunk : List UInt8}

/-- Nothing is left in the buffer, and all of it has been offered. -/
structure Idle (c : Channel β) : Prop where
  head : c.buffer.head = 0
  tail : c.buffer.tail = 0
  status : c.status = .Connected
  offered : c.offered = some capacity

theorem Idle.read (hhead : c.buffer.head = 0) (htail : c.buffer.tail = 0)
    (hstatus : c.status = .Connected) : c.read.Idle ∧ c.read.posted = c.posted := by
  have hbuffer : c.buffer.buffer = some (c.buffer, capacity) := by
    rw [SlidingBuffer.buffer, hhead, if_neg (by decide), Option.map_some, hhead]
    rfl
  rw [Channel.read, if_neg (by simp [hstatus]), hbuffer]
  exact ⟨⟨hhead, htail, hstatus, rfl⟩, rfl⟩

theorem Idle.start : Idle (Channel.start : Channel β) := (Idle.read rfl rfl rfl).1

theorem Idle.deliver_eq_some (h : c.Idle) {c' : Channel β} :
    c.deliver unframe chunk = some c' ↔
      (chunk ≠ [] ∧ chunk.length ≤ capacity) ∧ c.readHandler unframe chunk = c' := by
  rw [Channel.deliver, h.offered]
  dsimp only
  rw [Option.ite_none_right_eq_some, Option.some_inj]

/-- What arrives is all there is. -/
theorem Idle.data_write (h : c.Idle) (hle : chunk.length ≤ capacity) :
    ((c.buffer.fill chunk).commitWrite chunk.length).1.data = chunk := by
  have hordered : c.buffer.Ordered := ⟨by rw [h.tail, h.head], by rw [h.head]; exact Nat.zero_le _⟩
  have hnil : c.buffer.data = [] := by rw [SlidingBuffer.data, h.head, Nat.zero_sub]; rfl
  have hwrite := (SlidingBuffer.data_write hordered chunk (by rwa [h.head, Nat.zero_add])).2.1
  rwa [hnil, List.nil_append] at hwrite

theorem Idle.readHandler_ok (h : c.Idle) (hle : chunk.length ≤ capacity) {posted : List β}
    (hunframe : unframe chunk = (posted, .ok chunk.length)) :
    (c.readHandler unframe chunk).Idle ∧
      (c.readHandler unframe chunk).posted = c.posted ++ posted := by
  have hwrite : (c.buffer.fill chunk).commitWrite chunk.length =
      (⟨chunk.length, 0, (c.buffer.fill chunk).bytes⟩, true) := by
    rw [SlidingBuffer.commitWrite, if_neg]
    · simp [SlidingBuffer.fill, h.head, h.tail]
    · show ¬ capacity < c.buffer.head + chunk.length
      rw [h.head]
      omega
  have hreset : (⟨chunk.length, 0, (c.buffer.fill chunk).bytes⟩ : SlidingBuffer).commitRead
      chunk.length = SlidingBuffer.reset ⟨chunk.length, 0, (c.buffer.fill chunk).bytes⟩ :=
    if_pos (Nat.zero_add _)
  rw [readHandler, h.data_write hle, hunframe, hwrite]
  dsimp only
  rw [hreset]
  exact Idle.read rfl rfl h.status

theorem Idle.readHandler_error (h : c.Idle) (hle : chunk.length ≤ capacity)
    (hunframe : (unframe chunk).2 = .error .error) :
    (c.readHandler unframe chunk).status = .Error ∧
      (c.readHandler unframe chunk).offered = none := by
  rw [readHandler, h.data_write hle, hunframe]
  exact ⟨rfl, rfl⟩

end Idle

end Channel
