/-
The queue of many producers and many consumers
(`common/src/containers/vyukov_mpmc.hpp`).

Every slot carries a sequence number.  A `push` takes a ticket by advancing
`tail_` with a compare-exchange, a `pop` by advancing `head_`; the slot at a
ticket is written or emptied after that, without looking at it again.  Every load
and store on shared memory is a step of its own, and what follows a load without
touching shared memory belongs to it.

* `Thread` — where a thread is in `push` or `pop`;
* `State.act` — the steps, and `step_of_act`, what each of them requires and
  does;
* `mpmc C` — the machine of any number of threads on a queue of `C` slots.

The two overloads of `push` are the same up to a line of the log.
-/
import Mathlib.Algebra.Group.Nat.Defs
import Mathlib.Logic.Function.Basic
import TradingPlatform.Lib.Machine

/-- `Capacity`: a power of two, between 2 and `1ULL << 20`. -/
structure QueueCapacity where
  log : ℕ
  pos : 0 < log
  le : log ≤ 20

namespace QueueCapacity

def val (C : QueueCapacity) : ℕ := 2 ^ C.log

/-- `mask_`. -/
def mask (C : QueueCapacity) : UInt64 := UInt64.ofNat (C.val - 1)

end QueueCapacity

namespace VyukovMPMC

/-- `Slot`. -/
structure Slot (α : Type*) where
  sequence : UInt64
  value : α

/-- The constructor's loop over the first `n` slots. -/
def construct {α : Type*} (slots : ℕ → Slot α) : ℕ → ℕ → Slot α
  | 0 => slots
  | n + 1 =>
    Function.update (construct slots n) n
      { construct slots n n with sequence := UInt64.ofNat n }

/-- Where a thread is: about to load the counter, about to load the sequence of the
slot, about to compare and exchange, about to copy the value, about to store the
sequence. -/
inductive Thread (α : Type*)
  | idle
  | pushLoad (item : α)
  | pushExamine (item : α) (tail : UInt64)
  | pushCas (item : α) (tail : UInt64)
  | pushWrite (item : α) (tail : UInt64)
  | pushStore (tail : UInt64)
  | popLoad
  | popExamine (head : UInt64)
  | popCas (head : UInt64)
  | popTake (head : UInt64)
  | popStore (head : UInt64) (out : α)

/-- The queue, the threads, and what they have done: the calls begun, the items of
the successful claims of `tail_` in their order, the number of successful claims
of `head_`, the tickets whose item was published, and for every `pop` that
returned `true` its ticket and value. -/
structure State (ι α : Type*) where
  slots : ℕ → Slot α
  head : UInt64
  tail : UInt64
  threads : ι → Thread α
  calls : ℕ
  pushed : List α
  popped : ℕ
  published : List ℕ
  returned : List (ℕ × α)

/-- A call, and the steps of a thread; `casFail` is a compare-exchange that fails,
spuriously or not, and `left` what a move leaves behind. -/
inductive Action (ι α : Type*)
  | push (i : ι) (item : α)
  | pop (i : ι)
  | load (i : ι)
  | examine (i : ι)
  | cas (i : ι)
  | casFail (i : ι)
  | write (i : ι)
  | take (i : ι) (left : α)
  | store (i : ι)

/-- `static_cast<intptr_t>(seq) - static_cast<intptr_t>(pos)`. -/
def diff (seq pos : UInt64) : Int64 := seq.toInt64 - pos.toInt64

variable (C : QueueCapacity) {ι α : Type*} [DecidableEq ι]

/-- `&slots_[pos & mask_]`, as an index. -/
def slotAt (pos : UInt64) : ℕ := (pos &&& C.mask).toNat

namespace State

def setThread (s : State ι α) (i : ι) (t : Thread α) : State ι α :=
  { s with threads := Function.update s.threads i t }

@[simp] theorem setThread_self (s : State ι α) (i : ι) (t : Thread α) :
    (s.setThread i t).threads i = t :=
  Function.update_self _ _ _

/-- Changing the slot at `pos`. -/
def modify (s : State ι α) (pos : UInt64) (f : Slot α → Slot α) : State ι α :=
  { s with slots := Function.update s.slots (slotAt C pos) (f (s.slots (slotAt C pos))) }

/-- One step; `none` where the program counters do not allow it. -/
def act (s : State ι α) : Action ι α → Option (State ι α)
  | .push i item =>
    match s.threads i with
    | .idle => some { s.setThread i (.pushLoad item) with calls := s.calls + 1 }
    | _ => none
  | .pop i =>
    match s.threads i with
    | .idle => some { s.setThread i .popLoad with calls := s.calls + 1 }
    | _ => none
  | .load i =>
    match s.threads i with
    | .pushLoad item => some (s.setThread i (.pushExamine item s.tail))
    | .popLoad => some (s.setThread i (.popExamine s.head))
    | _ => none
  | .examine i =>
    match s.threads i with
    | .pushExamine item tail =>
      let diff := diff (s.slots (slotAt C tail)).sequence tail
      if diff = 0 then some (s.setThread i (.pushCas item tail))
      else if diff < 0 then some (s.setThread i .idle)
      else some (s.setThread i (.pushLoad item))
    | .popExamine head =>
      let diff := diff (s.slots (slotAt C head)).sequence (head + 1)
      if diff = 0 then some (s.setThread i (.popCas head))
      else if diff < 0 then some (s.setThread i .idle)
      else some (s.setThread i .popLoad)
    | _ => none
  | .cas i =>
    match s.threads i with
    | .pushCas item tail =>
      if s.tail = tail then
        some { s.setThread i (.pushWrite item tail) with
          tail := tail + 1
          pushed := s.pushed ++ [item] }
      else none
    | .popCas head =>
      if s.head = head then
        some { s.setThread i (.popTake head) with
          head := head + 1
          popped := s.popped + 1 }
      else none
    | _ => none
  | .casFail i =>
    match s.threads i with
    | .pushCas item _ => some (s.setThread i (.pushExamine item s.tail))
    | .popCas _ => some (s.setThread i (.popExamine s.head))
    | _ => none
  | .write i =>
    match s.threads i with
    | .pushWrite item tail =>
      some ((s.modify C tail fun slot => { slot with value := item }).setThread i
        (.pushStore tail))
    | _ => none
  | .take i left =>
    match s.threads i with
    | .popTake head =>
      some ((s.modify C head fun slot => { slot with value := left }).setThread i
        (.popStore head (s.slots (slotAt C head)).value))
    | _ => none
  | .store i =>
    match s.threads i with
    | .pushStore tail =>
      some { (s.modify C tail fun slot => { slot with sequence := tail + 1 }).setThread i
          .idle with
        published := s.published ++ [tail.toNat] }
    | .popStore head out =>
      some { (s.modify C head fun slot =>
          { slot with sequence := head + UInt64.ofNat C.val }).setThread i .idle with
        returned := s.returned ++ [(head.toNat, out)] }
    | _ => none

/-- A queue as the constructor leaves it, and no thread in it. -/
def start (slots : ℕ → Slot α) : State ι α :=
  ⟨construct slots C.val, 0, 0, fun _ => .idle, 0, [], 0, [], []⟩

end State

/-- Any number of threads on one queue. -/
def mpmc : Machine (State ι α) (Action ι α) where
  init s := ∃ slots, s = .start C slots
  step s e s' := s.act C e = some s'

/-- What each step requires and does. -/
inductive Step (s : State ι α) : Action ι α → State ι α → Prop
  | push {i : ι} {item : α} : s.threads i = .idle →
      Step s (.push i item) { s.setThread i (.pushLoad item) with calls := s.calls + 1 }
  | pop {i : ι} : s.threads i = .idle →
      Step s (.pop i) { s.setThread i .popLoad with calls := s.calls + 1 }
  | loadTail {i : ι} {item : α} : s.threads i = .pushLoad item →
      Step s (.load i) (s.setThread i (.pushExamine item s.tail))
  | loadHead {i : ι} : s.threads i = .popLoad →
      Step s (.load i) (s.setThread i (.popExamine s.head))
  | pushFree {i : ι} {item : α} {tail : UInt64} : s.threads i = .pushExamine item tail →
      diff (s.slots (slotAt C tail)).sequence tail = 0 →
      Step s (.examine i) (s.setThread i (.pushCas item tail))
  | pushFull {i : ι} {item : α} {tail : UInt64} : s.threads i = .pushExamine item tail →
      diff (s.slots (slotAt C tail)).sequence tail < 0 →
      Step s (.examine i) (s.setThread i .idle)
  | pushLate {i : ι} {item : α} {tail : UInt64} : s.threads i = .pushExamine item tail →
      ¬ diff (s.slots (slotAt C tail)).sequence tail = 0 →
      ¬ diff (s.slots (slotAt C tail)).sequence tail < 0 →
      Step s (.examine i) (s.setThread i (.pushLoad item))
  | popReady {i : ι} {head : UInt64} : s.threads i = .popExamine head →
      diff (s.slots (slotAt C head)).sequence (head + 1) = 0 →
      Step s (.examine i) (s.setThread i (.popCas head))
  | popEmpty {i : ι} {head : UInt64} : s.threads i = .popExamine head →
      diff (s.slots (slotAt C head)).sequence (head + 1) < 0 →
      Step s (.examine i) (s.setThread i .idle)
  | popLate {i : ι} {head : UInt64} : s.threads i = .popExamine head →
      ¬ diff (s.slots (slotAt C head)).sequence (head + 1) = 0 →
      ¬ diff (s.slots (slotAt C head)).sequence (head + 1) < 0 →
      Step s (.examine i) (s.setThread i .popLoad)
  | claimTail {i : ι} {item : α} : s.threads i = .pushCas item s.tail →
      Step s (.cas i) { s.setThread i (.pushWrite item s.tail) with
        tail := s.tail + 1, pushed := s.pushed ++ [item] }
  | claimHead {i : ι} : s.threads i = .popCas s.head →
      Step s (.cas i) { s.setThread i (.popTake s.head) with
        head := s.head + 1, popped := s.popped + 1 }
  | missTail {i : ι} {item : α} {tail : UInt64} : s.threads i = .pushCas item tail →
      Step s (.casFail i) (s.setThread i (.pushExamine item s.tail))
  | missHead {i : ι} {head : UInt64} : s.threads i = .popCas head →
      Step s (.casFail i) (s.setThread i (.popExamine s.head))
  | write {i : ι} {item : α} {tail : UInt64} : s.threads i = .pushWrite item tail →
      Step s (.write i) ((s.modify C tail fun slot => { slot with value := item }).setThread i
        (.pushStore tail))
  | take {i : ι} {left : α} {head : UInt64} : s.threads i = .popTake head →
      Step s (.take i left) ((s.modify C head fun slot => { slot with value := left }).setThread i
        (.popStore head (s.slots (slotAt C head)).value))
  | publish {i : ι} {tail : UInt64} : s.threads i = .pushStore tail →
      Step s (.store i) { (s.modify C tail fun slot =>
          { slot with sequence := tail + 1 }).setThread i .idle with
        published := s.published ++ [tail.toNat] }
  | release {i : ι} {head : UInt64} {out : α} : s.threads i = .popStore head out →
      Step s (.store i) { (s.modify C head fun slot =>
          { slot with sequence := head + UInt64.ofNat C.val }).setThread i .idle with
        returned := s.returned ++ [(head.toNat, out)] }

theorem step_of_act {C : QueueCapacity} {s s' : State ι α} {e : Action ι α}
    (h : s.act C e = some s') : Step C s e s' := by
  cases e with
  | push i item =>
    simp only [State.act] at h
    split at h
    · next hi =>
      obtain rfl := Option.some_inj.1 h
      exact .push hi
    · exact absurd h (by simp)
  | pop i =>
    simp only [State.act] at h
    split at h
    · next hi =>
      obtain rfl := Option.some_inj.1 h
      exact .pop hi
    · exact absurd h (by simp)
  | load i =>
    simp only [State.act] at h
    split at h
    · next hi =>
      obtain rfl := Option.some_inj.1 h
      exact .loadTail hi
    · next hi =>
      obtain rfl := Option.some_inj.1 h
      exact .loadHead hi
    · exact absurd h (by simp)
  | examine i =>
    simp only [State.act] at h
    split at h
    · next hi =>
      split at h
      · next hd =>
        obtain rfl := Option.some_inj.1 h
        exact .pushFree hi hd
      · next hne =>
        split at h
        · next hd =>
          obtain rfl := Option.some_inj.1 h
          exact .pushFull hi hd
        · next hd =>
          obtain rfl := Option.some_inj.1 h
          exact .pushLate hi hne hd
    · next hi =>
      split at h
      · next hd =>
        obtain rfl := Option.some_inj.1 h
        exact .popReady hi hd
      · next hne =>
        split at h
        · next hd =>
          obtain rfl := Option.some_inj.1 h
          exact .popEmpty hi hd
        · next hd =>
          obtain rfl := Option.some_inj.1 h
          exact .popLate hi hne hd
    · exact absurd h (by simp)
  | cas i =>
    simp only [State.act] at h
    split at h
    · next hi =>
      simp only [Option.ite_none_right_eq_some, Option.some.injEq] at h
      obtain ⟨rfl, rfl⟩ := h
      exact .claimTail hi
    · next hi =>
      simp only [Option.ite_none_right_eq_some, Option.some.injEq] at h
      obtain ⟨rfl, rfl⟩ := h
      exact .claimHead hi
    · exact absurd h (by simp)
  | casFail i =>
    simp only [State.act] at h
    split at h
    · next hi =>
      obtain rfl := Option.some_inj.1 h
      exact .missTail hi
    · next hi =>
      obtain rfl := Option.some_inj.1 h
      exact .missHead hi
    · exact absurd h (by simp)
  | write i =>
    simp only [State.act] at h
    split at h
    · next hi =>
      obtain rfl := Option.some_inj.1 h
      exact .write hi
    · exact absurd h (by simp)
  | take i left =>
    simp only [State.act] at h
    split at h
    · next hi =>
      obtain rfl := Option.some_inj.1 h
      exact .take hi
    · exact absurd h (by simp)
  | store i =>
    simp only [State.act] at h
    split at h
    · next hi =>
      obtain rfl := Option.some_inj.1 h
      exact .publish hi
    · next hi =>
      obtain rfl := Option.some_inj.1 h
      exact .release hi
    · exact absurd h (by simp)

end VyukovMPMC
