/-
The byte queue between one writer and one reader
(`common/src/containers/turbo_spsc.hpp`).

Positions count bytes and are masked where a copy starts.  Each party works from
a cached copy of the other's position: the writer loads `head_` only when its
copy leaves no room, and the reader stores `head_` and loads `tail_` only when it
has read everything it knew of.

The loads and stores of `head_` and `tail_` are steps of their own, the copies go
byte by byte, and what touches only members of one party belongs to the step
before or after it.

* `TurboState.act` — the steps of `write<T>` and `read<T>` for one `T`, in any
  order the two programs allow;
* `Step` — the same as a relation: what each step requires and does;
* `turbo C size` — the machine of a queue and a type of `size` bytes.

Positions are 64-bit words that wrap.  Offsets into the buffer are natural
numbers: what is behind its end is memory of something else.
-/
import TradingPlatform.Lib.Machine
import Mathlib.Algebra.Group.Nat.Defs
import Mathlib.Logic.Function.Basic

/-- `Capacity`: a power of two.  The buffer has 64 times as many bytes, and no
object has `2 ^ 63`. -/
structure TurboCapacity where
  log : ℕ
  lt : log < 57

namespace TurboCapacity

def val (C : TurboCapacity) : ℕ := 2 ^ C.log

/-- `BUFFER_SIZE`. -/
def bufferSize (C : TurboCapacity) : ℕ := C.val * 64

/-- `BUFFER_SIZE`, as it takes part in 64-bit operations. -/
def bufferSizeWord (C : TurboCapacity) : UInt64 := UInt64.ofNat C.bufferSize

end TurboCapacity

/-- The queue's memory. -/
structure TurboSPSC where
  head : UInt64
  tailCache : UInt64
  readCursor : UInt64
  tail : UInt64
  headCache : UInt64
  buffer : ℕ → UInt8

namespace TurboSPSC

variable (C : TurboCapacity) (size : ℕ)

/-- `currentTail & (BUFFER_SIZE - 1)`; `tail_` is stored by the writer only, so
its copy in `write` is the member. -/
def writePos (q : TurboSPSC) : ℕ := (q.tail &&& (C.bufferSizeWord - 1)).toNat

/-- `readCursor_ & (BUFFER_SIZE - 1)`. -/
def readPos (q : TurboSPSC) : ℕ := (q.readCursor &&& (C.bufferSizeWord - 1)).toNat

/-- `currentTail + size > headCache_ + BUFFER_SIZE`. -/
def isFull (q : TurboSPSC) : Prop :=
  q.headCache + C.bufferSizeWord < q.tail + UInt64.ofNat size

instance (q : TurboSPSC) : Decidable (q.isFull C size) := inferInstanceAs (Decidable (_ < _))

/-- Where the writer is in `write(msg)`; `src` are the bytes of `msg`. -/
inductive Writer
  | idle
  | full (src : List UInt8)
  | copying (src : List UInt8) (n : ℕ)
deriving DecidableEq

/-- Where the reader is in `read(msg)`; `dst` is what has been copied so far. -/
inductive Reader
  | idle
  | drained
  | copying (dst : List UInt8)
deriving DecidableEq

/-- A message and the offset it was copied to. -/
structure Message where
  pos : ℕ
  bytes : List UInt8
deriving DecidableEq

/-- The queue, the two parties, and what they have done: the messages of the
successful writes and those of the successful reads. -/
structure TurboState where
  queue : TurboSPSC
  writer : Writer
  reader : Reader
  written : List Message
  delivered : List (List UInt8)

/-- The steps.  `write` ends in the first check of `write<T>` and `loadHead` in
the second; `read` goes up to the store of `head_`, if there is one. -/
inductive TurboAction
  | write (src : List UInt8)
  | loadHead
  | writeByte
  | storeTail
  | read
  | loadTail
  | readByte
  | finish
deriving DecidableEq

namespace TurboState

/-- One step; `none` where the program counters do not allow it. -/
def act (s : TurboState) : TurboAction → Option TurboState
  | .write src =>
    if s.writer = .idle ∧ src.length = size then
      some { s with writer := if s.queue.isFull C size then .full src else .copying src 0 }
    else none
  | .loadHead =>
    match s.writer with
    | .full src =>
      let q := { s.queue with headCache := s.queue.head }
      some { s with
        queue := q
        writer := if q.isFull C size then .idle else .copying src 0 }
    | _ => none
  | .writeByte =>
    match s.writer with
    | .copying src n =>
      match src[n]? with
      | some b =>
        some { s with
          queue := { s.queue with
            buffer := Function.update s.queue.buffer (s.queue.writePos C + n) b }
          writer := .copying src (n + 1) }
      | none => none
    | _ => none
  | .storeTail =>
    match s.writer with
    | .copying src n =>
      if n = size then
        some { s with
          queue := { s.queue with tail := s.queue.tail + UInt64.ofNat size }
          writer := .idle
          written := s.written ++ [⟨s.queue.writePos C, src⟩] }
      else none
    | _ => none
  | .read =>
    if s.reader = .idle then
      if s.queue.readCursor = s.queue.tailCache then
        some { s with
          queue := { s.queue with head := s.queue.readCursor }
          reader := .drained }
      else some { s with reader := .copying [] }
    else none
  | .loadTail =>
    if s.reader = .drained then
      some { s with
        queue := { s.queue with tailCache := s.queue.tail }
        reader := if s.queue.readCursor = s.queue.tail then .idle else .copying [] }
    else none
  | .readByte =>
    match s.reader with
    | .copying dst =>
      if dst.length < size then
        some { s with
          reader := .copying (dst ++ [s.queue.buffer (s.queue.readPos C + dst.length)]) }
      else none
    | _ => none
  | .finish =>
    match s.reader with
    | .copying dst =>
      if dst.length = size then
        some { s with
          queue := { s.queue with readCursor := s.queue.readCursor + UInt64.ofNat size }
          reader := .idle
          delivered := s.delivered ++ [dst] }
      else none
    | _ => none

/-- Both parties idle, nothing written; the buffer is not initialised. -/
def start (buffer : ℕ → UInt8) : TurboState := ⟨⟨0, 0, 0, 0, 0, buffer⟩, .idle, .idle, [], []⟩

end TurboState

/-- What each step requires and does. -/
inductive Step (s : TurboState) : TurboAction → TurboState → Prop
  | writeFull {src : List UInt8} : s.writer = .idle → src.length = size →
      s.queue.isFull C size → Step s (.write src) { s with writer := .full src }
  | write {src : List UInt8} : s.writer = .idle → src.length = size →
      ¬s.queue.isFull C size → Step s (.write src) { s with writer := .copying src 0 }
  | failWrite {src : List UInt8} : s.writer = .full src →
      ({ s.queue with headCache := s.queue.head }).isFull C size →
      Step s .loadHead { s with
        queue := { s.queue with headCache := s.queue.head }, writer := .idle }
  | loadHead {src : List UInt8} : s.writer = .full src →
      ¬({ s.queue with headCache := s.queue.head }).isFull C size →
      Step s .loadHead { s with
        queue := { s.queue with headCache := s.queue.head }, writer := .copying src 0 }
  | writeByte {src : List UInt8} {n : ℕ} {b : UInt8} : s.writer = .copying src n →
      src[n]? = some b →
      Step s .writeByte { s with
        queue := { s.queue with
          buffer := Function.update s.queue.buffer (s.queue.writePos C + n) b }
        writer := .copying src (n + 1) }
  | storeTail {src : List UInt8} : s.writer = .copying src size →
      Step s .storeTail { s with
        queue := { s.queue with tail := s.queue.tail + UInt64.ofNat size }
        writer := .idle
        written := s.written ++ [⟨s.queue.writePos C, src⟩] }
  | readDrained : s.reader = .idle → s.queue.readCursor = s.queue.tailCache →
      Step s .read { s with
        queue := { s.queue with head := s.queue.readCursor }, reader := .drained }
  | read : s.reader = .idle → s.queue.readCursor ≠ s.queue.tailCache →
      Step s .read { s with reader := .copying [] }
  | emptyRead : s.reader = .drained → s.queue.readCursor = s.queue.tail →
      Step s .loadTail { s with
        queue := { s.queue with tailCache := s.queue.tail }, reader := .idle }
  | loadTail : s.reader = .drained → s.queue.readCursor ≠ s.queue.tail →
      Step s .loadTail { s with
        queue := { s.queue with tailCache := s.queue.tail }, reader := .copying [] }
  | readByte {dst : List UInt8} : s.reader = .copying dst → dst.length < size →
      Step s .readByte { s with
        reader := .copying (dst ++ [s.queue.buffer (s.queue.readPos C + dst.length)]) }
  | finish {dst : List UInt8} : s.reader = .copying dst → dst.length = size →
      Step s .finish { s with
        queue := { s.queue with readCursor := s.queue.readCursor + UInt64.ofNat size }
        reader := .idle
        delivered := s.delivered ++ [dst] }

theorem step_of_act {C : TurboCapacity} {size : ℕ} {s s' : TurboState} {e : TurboAction}
    (h : s.act C size e = some s') : Step C size s e s' := by
  cases e with
  | write src =>
    simp only [TurboState.act, Option.ite_none_right_eq_some, Option.some.injEq] at h
    obtain ⟨⟨hw, hlen⟩, rfl⟩ := h
    split
    · next hfull => exact .writeFull hw hlen hfull
    · next hroom => exact .write hw hlen hroom
  | loadHead =>
    simp only [TurboState.act] at h
    split at h
    · next src hw =>
      obtain rfl := Option.some_inj.1 h
      split
      · next hfull => exact .failWrite hw hfull
      · next hroom => exact .loadHead hw hroom
    · exact absurd h (by simp)
  | writeByte =>
    simp only [TurboState.act] at h
    split at h
    · next src n hw =>
      split at h
      · next b hb =>
        obtain rfl := Option.some_inj.1 h
        exact .writeByte hw hb
      · exact absurd h (by simp)
    · exact absurd h (by simp)
  | storeTail =>
    simp only [TurboState.act] at h
    split at h
    · next src n hw =>
      rw [Option.ite_none_right_eq_some, Option.some_inj] at h
      obtain ⟨rfl, rfl⟩ := h
      exact .storeTail hw
    · exact absurd h (by simp)
  | read =>
    simp only [TurboState.act, Option.ite_none_right_eq_some] at h
    obtain ⟨hr, h⟩ := h
    split at h
    · next heq =>
      obtain rfl := Option.some_inj.1 h
      exact .readDrained hr heq
    · next hne =>
      obtain rfl := Option.some_inj.1 h
      exact .read hr hne
  | loadTail =>
    simp only [TurboState.act, Option.ite_none_right_eq_some, Option.some.injEq] at h
    obtain ⟨hr, rfl⟩ := h
    split
    · next heq => exact .emptyRead hr heq
    · next hne => exact .loadTail hr hne
  | readByte =>
    simp only [TurboState.act] at h
    split at h
    · next dst hr =>
      rw [Option.ite_none_right_eq_some, Option.some_inj] at h
      obtain ⟨hlt, rfl⟩ := h
      exact .readByte hr hlt
    · exact absurd h (by simp)
  | finish =>
    simp only [TurboState.act] at h
    split at h
    · next dst hr =>
      rw [Option.ite_none_right_eq_some, Option.some_inj] at h
      obtain ⟨hlen, rfl⟩ := h
      exact .finish hr hlen
    · exact absurd h (by simp)

theorem act_of_step {C : TurboCapacity} {size : ℕ} {s s' : TurboState} {e : TurboAction}
    (h : Step C size s e s') : s.act C size e = some s' := by
  cases h with
  | writeFull hw hlen hfull => rw [TurboState.act, if_pos ⟨hw, hlen⟩, if_pos hfull]
  | write hw hlen hroom => rw [TurboState.act, if_pos ⟨hw, hlen⟩, if_neg hroom]
  | failWrite hw hfull => simp only [TurboState.act, hw, if_pos hfull]
  | loadHead hw hroom => simp only [TurboState.act, hw, if_neg hroom]
  | writeByte hw hb => simp only [TurboState.act, hw, hb]
  | storeTail hw => simp only [TurboState.act, hw, if_true]
  | readDrained hr heq => rw [TurboState.act, if_pos hr, if_pos heq]
  | read hr hne => rw [TurboState.act, if_pos hr, if_neg hne]
  | emptyRead hr heq => rw [TurboState.act, if_pos hr, if_pos heq]
  | loadTail hr hne => rw [TurboState.act, if_pos hr, if_neg hne]
  | readByte hr hlt => simp only [TurboState.act, hr, if_pos hlt]
  | finish hr hlen => simp only [TurboState.act, hr, if_pos hlen]

/-- A queue and two parties that exchange messages of `size` bytes. -/
def turbo : Machine TurboState TurboAction where
  init s := ∃ buffer, s = .start buffer
  step s e s' := s.act C size e = some s'

/-- A run goes on with any step that is possible. -/
theorem turbo_snoc {C : TurboCapacity} {size : ℕ} {es : List TurboAction} {s s' : TurboState}
    {e : TurboAction} (hrun : (turbo C size).Run es s) (h : Step C size s e s') :
    (turbo C size).Run (es ++ [e]) s' :=
  .snoc hrun (act_of_step h)

end TurboSPSC
