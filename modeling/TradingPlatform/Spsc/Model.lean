/-
The sequenced queue between one writer and one reader
(`common/src/containers/sequenced_spsc.hpp`).

Every slot carries a sequence number; `writeIdx_` and `readIdx_` belong to one
party each.  The loads and stores of the two parties on the slots are steps of
their own, the copies go byte by byte, and the increments of the private
indices belong to the store before them.

* `construct` — the constructor's loop, with its 32-bit counter;
* `QueueState.act` — the steps of `write` and `read`, in any order the two
  programs allow, and `step_of_act`, what each of them requires and does;
* `spsc N` — the machine of a queue of `N` slots.

Sequence numbers and indices are 64-bit words that wrap; sizes are natural
numbers, which the code only compares and counts up to.
-/
import TradingPlatform.Lib.Machine
import Mathlib.Algebra.Group.Nat.Defs
import Mathlib.Data.List.Basic
import Mathlib.Logic.Function.Basic

/-- `SlotCount`: a power of two, at least 2, that fits in a `size_t`. -/
structure SlotCount where
  log : ℕ
  pos : 0 < log
  lt : log < 64

namespace SlotCount

def val (N : SlotCount) : ℕ := 2 ^ N.log

/-- `uint32_t MASK = SlotCount - 1`, as it takes part in 64-bit operations. -/
def mask (N : SlotCount) : UInt64 := UInt64.ofNat ((N.val - 1) % 2 ^ 32)

end SlotCount

namespace SequencedSPSC

/-- `MAX_DATA_SIZE`. -/
def maxDataSize : ℕ := 52

/-- `Sloth`. -/
structure Sloth where
  seq : UInt64
  size : ℕ
  data : ℕ → UInt8

/-- A slot before the constructor's loop. -/
def blank : Sloth := ⟨0, 0, fun _ => 0⟩

/-- The constructor's loop, from `i` on.  The counter is 32 bits wide: with
`2 ^ 32` slots or more no fuel is enough. -/
def construct (N : SlotCount) : ℕ → UInt32 → (ℕ → Sloth) → Option (ℕ → Sloth)
  | 0, _, _ => none
  | fuel + 1, i, slots =>
    if i.toNat < N.val then
      construct N fuel (i + 1)
        (Function.update slots i.toNat { slots i.toNat with seq := i.toUInt64 })
    else some slots

end SequencedSPSC

/-- The queue's memory. -/
structure SequencedSPSC where
  slots : ℕ → SequencedSPSC.Sloth
  writeIdx : UInt64
  readIdx : UInt64

namespace SequencedSPSC

variable (N : SlotCount)

/-- `writeIdx_ & MASK`. -/
def writeSlot (q : SequencedSPSC) : ℕ := (q.writeIdx &&& N.mask).toNat

/-- `readIdx_ & MASK`. -/
def readSlot (q : SequencedSPSC) : ℕ := (q.readIdx &&& N.mask).toNat

/-- Changing the slot at `i`. -/
def modify (q : SequencedSPSC) (i : ℕ) (f : Sloth → Sloth) : SequencedSPSC :=
  { q with slots := Function.update q.slots i (f (q.slots i)) }

@[simp] theorem modify_self (q : SequencedSPSC) (i : ℕ) (f : Sloth → Sloth) :
    (q.modify i f).slots i = f (q.slots i) :=
  Function.update_self _ _ _

theorem modify_of_ne (q : SequencedSPSC) {i j : ℕ} (h : j ≠ i) (f : Sloth → Sloth) :
    (q.modify i f).slots j = q.slots j :=
  Function.update_of_ne h _ _

/-- `sloth.seq.store(writeIdx_ + 1); ++writeIdx_`. -/
def publish (q : SequencedSPSC) : SequencedSPSC where
  slots := (q.modify (q.writeSlot N) fun sloth => { sloth with seq := q.writeIdx + 1 }).slots
  writeIdx := q.writeIdx + 1
  readIdx := q.readIdx

/-- `sloth.seq.store(readIdx_ + SlotCount); readIdx_++`. -/
def giveBack (q : SequencedSPSC) : SequencedSPSC where
  slots := (q.modify (q.readSlot N) fun sloth =>
    { sloth with seq := q.readIdx + UInt64.ofNat N.val }).slots
  writeIdx := q.writeIdx
  readIdx := q.readIdx + 1

/-- Where the writer is in `write(src, size)`. -/
inductive Writer
  | idle
  | copying (src : List UInt8) (n : ℕ)
  | sized (src : List UInt8)
deriving DecidableEq

/-- Where the reader is in `read(dst, maxSize)`; `dst` is what has been copied
so far. -/
inductive Reader
  | idle
  | checked (maxSize : ℕ)
  | sized
  | copying (size : ℕ) (dst : List UInt8)
  | handedBack (slot : ℕ) (dst : List UInt8)
deriving DecidableEq

/-- The queue, the two parties, and what they have done: the payloads of the
successful writes, the payloads whose slot was given back, and for every read
that returned a message its payload with the size returned. -/
structure QueueState where
  queue : SequencedSPSC
  writer : Writer
  reader : Reader
  written : List (List UInt8)
  givenBack : List (List UInt8)
  delivered : List (List UInt8 × ℕ)

/-- The steps.  `beginWrite` and `failWrite` are the two outcomes of the checks
of `write`, `beginRead` and `emptyRead` of the first check of `read`, `fits` and
`tooSmall` of its second. -/
inductive QueueAction
  | beginWrite (src : List UInt8)
  | failWrite (src : List UInt8)
  | writeByte
  | storeSize
  | publish
  | beginRead (maxSize : ℕ)
  | emptyRead (maxSize : ℕ)
  | fits
  | tooSmall
  | loadSize
  | readByte
  | giveBack
  | finish
deriving DecidableEq

/-- The steps of `read` into `size` bytes. -/
def isRead (size : ℕ) : QueueAction → Bool
  | .beginRead maxSize => maxSize = size
  | .emptyRead maxSize => maxSize = size
  | .fits => true
  | .tooSmall => true
  | .loadSize => true
  | .readByte => true
  | .giveBack => true
  | .finish => true
  | _ => false

/-- The steps of `write` of these bytes. -/
def isWrite (msg : List UInt8) : QueueAction → Bool
  | .beginWrite src => src = msg
  | .failWrite src => src = msg
  | .writeByte => true
  | .storeSize => true
  | .publish => true
  | _ => false

/-- `write` goes past its two checks. -/
def canWrite (q : SequencedSPSC) (src : List UInt8) : Prop :=
  src.length ≤ maxDataSize ∧ (q.slots (q.writeSlot N)).seq = q.writeIdx

instance (q : SequencedSPSC) (src : List UInt8) : Decidable (canWrite N q src) :=
  inferInstanceAs (Decidable (_ ∧ _))

/-- `read` goes past its first check. -/
def canRead (q : SequencedSPSC) : Prop :=
  (q.slots (q.readSlot N)).seq = q.readIdx + 1

instance (q : SequencedSPSC) : Decidable (canRead N q) :=
  inferInstanceAs (Decidable (_ = _))

namespace QueueState

/-- One step; `none` where the program counters do not allow it. -/
def act (s : QueueState) : QueueAction → Option QueueState
  | .beginWrite src =>
    if s.writer = .idle ∧ canWrite N s.queue src then
      some { s with writer := .copying src 0 }
    else none
  | .failWrite src => if s.writer = .idle ∧ ¬ canWrite N s.queue src then some s else none
  | .writeByte =>
    match s.writer with
    | .copying src n =>
      match src[n]? with
      | some b =>
        some { s with
          queue := s.queue.modify (s.queue.writeSlot N) fun sloth =>
            { sloth with data := Function.update sloth.data n b }
          writer := .copying src (n + 1) }
      | none => none
    | _ => none
  | .storeSize =>
    match s.writer with
    | .copying src n =>
      if n = src.length then
        some { s with
          queue := s.queue.modify (s.queue.writeSlot N) fun sloth =>
            { sloth with size := src.length }
          writer := .sized src }
      else none
    | _ => none
  | .publish =>
    match s.writer with
    | .sized src =>
      some { s with
        queue := s.queue.publish N
        writer := .idle
        written := s.written ++ [src] }
    | _ => none
  | .beginRead maxSize =>
    if s.reader = .idle ∧ canRead N s.queue then some { s with reader := .checked maxSize }
    else none
  | .emptyRead _ => if s.reader = .idle ∧ ¬ canRead N s.queue then some s else none
  | .fits =>
    match s.reader with
    | .checked maxSize =>
      if (s.queue.slots (s.queue.readSlot N)).size ≤ maxSize then
        some { s with reader := .sized }
      else none
    | _ => none
  | .tooSmall =>
    match s.reader with
    | .checked maxSize =>
      if maxSize < (s.queue.slots (s.queue.readSlot N)).size then
        some { s with reader := .idle }
      else none
    | _ => none
  | .loadSize =>
    match s.reader with
    | .sized =>
      some { s with reader := .copying (s.queue.slots (s.queue.readSlot N)).size [] }
    | _ => none
  | .readByte =>
    match s.reader with
    | .copying size dst =>
      if dst.length < size then
        some { s with
          reader := .copying size
            (dst ++ [(s.queue.slots (s.queue.readSlot N)).data dst.length]) }
      else none
    | _ => none
  | .giveBack =>
    match s.reader with
    | .copying size dst =>
      if dst.length = size then
        some { s with
          queue := s.queue.giveBack N
          reader := .handedBack (s.queue.readSlot N) dst
          givenBack := s.givenBack ++ [dst] }
      else none
    | _ => none
  | .finish =>
    match s.reader with
    | .handedBack slot dst =>
      some { s with
        reader := .idle
        delivered := s.delivered ++ [(dst, (s.queue.slots slot).size)] }
    | _ => none

/-- Both parties idle, nothing written. -/
def start (slots : ℕ → Sloth) : QueueState := ⟨⟨slots, 0, 0⟩, .idle, .idle, [], [], []⟩

end QueueState

/-- What each step requires and does. -/
inductive Step (s : QueueState) : QueueAction → QueueState → Prop
  | beginWrite {src : List UInt8} : s.writer = .idle → canWrite N s.queue src →
      Step s (.beginWrite src) { s with writer := .copying src 0 }
  | failWrite {src : List UInt8} : s.writer = .idle → ¬ canWrite N s.queue src →
      Step s (.failWrite src) s
  | writeByte {src : List UInt8} {n : ℕ} {b : UInt8} : s.writer = .copying src n →
      src[n]? = some b →
      Step s .writeByte { s with
        queue := s.queue.modify (s.queue.writeSlot N) fun sloth =>
          { sloth with data := Function.update sloth.data n b }
        writer := .copying src (n + 1) }
  | storeSize {src : List UInt8} : s.writer = .copying src src.length →
      Step s .storeSize { s with
        queue := s.queue.modify (s.queue.writeSlot N) fun sloth =>
          { sloth with size := src.length }
        writer := .sized src }
  | publish {src : List UInt8} : s.writer = .sized src →
      Step s .publish { s with
        queue := s.queue.publish N, writer := .idle, written := s.written ++ [src] }
  | beginRead {maxSize : ℕ} : s.reader = .idle → canRead N s.queue →
      Step s (.beginRead maxSize) { s with reader := .checked maxSize }
  | emptyRead {maxSize : ℕ} : s.reader = .idle → ¬ canRead N s.queue →
      Step s (.emptyRead maxSize) s
  | fits {maxSize : ℕ} : s.reader = .checked maxSize →
      (s.queue.slots (s.queue.readSlot N)).size ≤ maxSize →
      Step s .fits { s with reader := .sized }
  | tooSmall {maxSize : ℕ} : s.reader = .checked maxSize →
      maxSize < (s.queue.slots (s.queue.readSlot N)).size →
      Step s .tooSmall { s with reader := .idle }
  | loadSize : s.reader = .sized →
      Step s .loadSize { s with
        reader := .copying (s.queue.slots (s.queue.readSlot N)).size [] }
  | readByte {size : ℕ} {dst : List UInt8} : s.reader = .copying size dst → dst.length < size →
      Step s .readByte { s with
        reader := .copying size
          (dst ++ [(s.queue.slots (s.queue.readSlot N)).data dst.length]) }
  | giveBack {dst : List UInt8} : s.reader = .copying dst.length dst →
      Step s .giveBack { s with
        queue := s.queue.giveBack N
        reader := .handedBack (s.queue.readSlot N) dst
        givenBack := s.givenBack ++ [dst] }
  | finish {slot : ℕ} {dst : List UInt8} : s.reader = .handedBack slot dst →
      Step s .finish { s with
        reader := .idle
        delivered := s.delivered ++ [(dst, (s.queue.slots slot).size)] }

theorem step_of_act {N : SlotCount} {s s' : QueueState} {e : QueueAction}
    (h : s.act N e = some s') : Step N s e s' := by
  cases e with
  | beginWrite src =>
    simp only [QueueState.act, Option.ite_none_right_eq_some, Option.some.injEq] at h
    obtain ⟨⟨hw, hcan⟩, rfl⟩ := h
    exact .beginWrite hw hcan
  | failWrite src =>
    simp only [QueueState.act, Option.ite_none_right_eq_some, Option.some.injEq] at h
    obtain ⟨⟨hw, hcan⟩, rfl⟩ := h
    exact .failWrite hw hcan
  | writeByte =>
    simp only [QueueState.act] at h
    split at h
    · next src n hw =>
      split at h
      · next b hb =>
        obtain rfl := Option.some_inj.1 h
        exact .writeByte hw hb
      · exact absurd h (by simp)
    · exact absurd h (by simp)
  | storeSize =>
    simp only [QueueState.act] at h
    split at h
    · next src n hw =>
      rw [Option.ite_none_right_eq_some, Option.some_inj] at h
      obtain ⟨rfl, rfl⟩ := h
      exact .storeSize hw
    · exact absurd h (by simp)
  | publish =>
    simp only [QueueState.act] at h
    split at h
    · next src hw =>
      obtain rfl := Option.some_inj.1 h
      exact .publish hw
    · exact absurd h (by simp)
  | beginRead maxSize =>
    simp only [QueueState.act, Option.ite_none_right_eq_some, Option.some.injEq] at h
    obtain ⟨⟨hr, hcan⟩, rfl⟩ := h
    exact .beginRead hr hcan
  | emptyRead maxSize =>
    simp only [QueueState.act, Option.ite_none_right_eq_some, Option.some.injEq] at h
    obtain ⟨⟨hr, hcan⟩, rfl⟩ := h
    exact .emptyRead hr hcan
  | fits =>
    simp only [QueueState.act] at h
    split at h
    · next maxSize hr =>
      rw [Option.ite_none_right_eq_some, Option.some_inj] at h
      obtain ⟨hle, rfl⟩ := h
      exact .fits hr hle
    · exact absurd h (by simp)
  | tooSmall =>
    simp only [QueueState.act] at h
    split at h
    · next maxSize hr =>
      rw [Option.ite_none_right_eq_some, Option.some_inj] at h
      obtain ⟨hlt, rfl⟩ := h
      exact .tooSmall hr hlt
    · exact absurd h (by simp)
  | loadSize =>
    simp only [QueueState.act] at h
    split at h
    · next hr =>
      obtain rfl := Option.some_inj.1 h
      exact .loadSize hr
    · exact absurd h (by simp)
  | readByte =>
    simp only [QueueState.act] at h
    split at h
    · next size dst hr =>
      rw [Option.ite_none_right_eq_some, Option.some_inj] at h
      obtain ⟨hlt, rfl⟩ := h
      exact .readByte hr hlt
    · exact absurd h (by simp)
  | giveBack =>
    simp only [QueueState.act] at h
    split at h
    · next size dst hr =>
      rw [Option.ite_none_right_eq_some, Option.some_inj] at h
      obtain ⟨rfl, rfl⟩ := h
      exact .giveBack hr
    · exact absurd h (by simp)
  | finish =>
    simp only [QueueState.act] at h
    split at h
    · next slot dst hr =>
      obtain rfl := Option.some_inj.1 h
      exact .finish hr
    · exact absurd h (by simp)

/-- A queue starts where its constructor ends. -/
def spsc : Machine QueueState QueueAction where
  init s := ∃ fuel slots, construct N fuel 0 (fun _ => blank) = some slots ∧ s = .start slots
  step s e s' := s.act N e = some s'

end SequencedSPSC
