/-
The channels of a process and the buffers they share
(`common/src/transport/channel.hpp`, `common/src/containers/buffer_pool.hpp`,
`common/src/transport/boost/boost_tcp_transport.hpp`).

`Transport.Writes` looks at one channel, and an operation there has the bytes of its frame.
In the program it has a pointer: `Channel::write` takes a buffer of the pool, puts the frame
into it, and the operation reads the bytes when the socket takes them, long after `write`
has returned and while other threads write on other channels into buffers of the same
array.  Here are all channels with the pool and its memory, and every byte that is stored
or sent is read from there.

* `Buffers` — the pool, its memory, the calls of `write` and the operations;
* `Inv` — who has which buffer, and what is in it;
* `bytes_intact` — what an operation has still to send is what its call put there;
* `channel_of_buffers` — so every channel is one of `Transport.Writes`, whatever the
  others do.

The counter of the pool is incremented fewer than `2 ^ 32` times (`BufferPool.FewFetches`),
and frames are shorter than a buffer, as `write` asserts.
-/
import TradingPlatform.Lib.Custody
import TradingPlatform.Transport.BufferPool
import TradingPlatform.Transport.Writes

open TcpChannel (bufferCapacity)

/-- Where a call of `Channel::write` is: in `acquire`, or with a buffer into which it has
put the first bytes of its frame. -/
inductive WritePc
  | popping
  | fetching
  | storing (index : UInt32) (stored : ℕ)
deriving DecidableEq

/-- A call of `Channel::write`. -/
structure WriteCall where
  channel : ℕ
  frame : List UInt8
  pc : WritePc
deriving DecidableEq

/-- An `async_write` that has not completed: the buffer, the size of the span and how much
of it was sent; `frame` is history. -/
structure AsyncWrite where
  channel : ℕ
  index : UInt32
  size : ℕ
  offset : ℕ
  frame : List UInt8
deriving DecidableEq

/-- The pool, `storage_`, the calls and the operations, and what each channel has sent; the
other fields are history. -/
structure Buffers where
  pool : BufferPool.State
  storage : ℕ → UInt8
  calls : List WriteCall
  operations : List AsyncWrite
  sent : ℕ → List UInt8
  written : ℕ → List (List UInt8)
  acquired : ℕ → List UInt32
  released : ℕ → List UInt32

inductive BuffersAction
  | write (channel : ℕ) (frame : List UInt8)
  | pop (k : ℕ)
  | popEmpty (k : ℕ)
  | fetchAdd (k : ℕ)
  | store (k : ℕ)
  | start (k : ℕ)
  | send (k n : ℕ)
  | push (index : UInt32)
deriving DecidableEq

namespace Buffers

/-- `&storage_[index * BufferCapacity]`, and a byte behind it. -/
def address (index : UInt32) (j : ℕ) : ℕ := index.toNat * bufferCapacity + j

/-- A log of a channel gets longer. -/
def log {α : Type*} (f : ℕ → List α) (channel : ℕ) (more : List α) : ℕ → List α :=
  Function.update f channel (f channel ++ more)

/-- The bytes the socket finds behind the span. -/
def bytesAt (s : Buffers) (op : AsyncWrite) (n : ℕ) : List UInt8 :=
  (List.range n).map fun j => s.storage (address op.index (op.offset + j))

variable (P : BufferPool.PoolSize)

/-- One step; `none` where no thread is at it. -/
def act (s : Buffers) : BuffersAction → Option Buffers
  | .write channel frame =>
    if frame ≠ [] ∧ frame.length < bufferCapacity then
      some { s with calls := s.calls ++ [⟨channel, frame, .popping⟩] }
    else none
  | .pop k =>
    match s.calls[k]?, BufferPool.acquired P s.pool .pop, s.pool.act P .pop with
    | some ⟨channel, frame, .popping⟩, some index, some pool =>
      some { s with pool := pool, calls := s.calls.set k ⟨channel, frame, .storing index 0⟩ }
    | _, _, _ => none
  | .popEmpty k =>
    match s.calls[k]?, s.pool.act P .popEmpty with
    | some ⟨channel, frame, .popping⟩, some pool =>
      some { s with pool := pool, calls := s.calls.set k ⟨channel, frame, .fetching⟩ }
    | _, _ => none
  | .fetchAdd k =>
    match s.calls[k]?, s.pool.act P .fetchAdd with
    | some ⟨channel, frame, .fetching⟩, some pool =>
      match BufferPool.acquired P s.pool .fetchAdd with
      | some index =>
        some { s with pool := pool, calls := s.calls.set k ⟨channel, frame, .storing index 0⟩ }
      -- "Failed to acquire network buffer, message dropped"
      | none =>
        some { s with
          pool := pool
          calls := s.calls.eraseIdx k
          written := log s.written channel [frame] }
    | _, _ => none
  | .store k =>
    match s.calls[k]? with
    | some ⟨channel, frame, .storing index stored⟩ =>
      match frame[stored]? with
      | some byte =>
        some { s with
          storage := Function.update s.storage (address index stored) byte
          calls := s.calls.set k ⟨channel, frame, .storing index (stored + 1)⟩ }
      | none => none
    | _ => none
  | .start k =>
    match s.calls[k]? with
    | some ⟨channel, frame, .storing index stored⟩ =>
      if stored = frame.length then
        some { s with
          calls := s.calls.eraseIdx k
          operations := s.operations ++ [⟨channel, index, frame.length, 0, frame⟩]
          written := log s.written channel [frame]
          acquired := log s.acquired channel [index] }
      else none
    | _ => none
  | .send k n =>
    match s.operations[k]? with
    | some op =>
      if 0 < n ∧ n ≤ op.size - op.offset then
        if n = op.size - op.offset then
          -- the handler releases the buffer
          (s.pool.act P (.release op.index)).map fun pool =>
            { s with
              pool := pool
              operations := s.operations.eraseIdx k
              sent := log s.sent op.channel (s.bytesAt op n)
              released := log s.released op.channel [op.index] }
        else
          some { s with
            operations := s.operations.set k { op with offset := op.offset + n }
            sent := log s.sent op.channel (s.bytesAt op n) }
      else none
    | none => none
  | .push index => (s.pool.act P (.push index)).map fun pool => { s with pool := pool }

def start : Buffers :=
  ⟨BufferPool.fresh, fun _ => 0, [], [], fun _ => [], fun _ => [], fun _ => [], fun _ => []⟩

/-- The counter of the pool is incremented fewer than `2 ^ 32` times. -/
def FewFetches (s : Buffers) : BuffersAction → Prop
  | .fetchAdd _ => s.pool.fetches < 2 ^ 32
  | _ => True

instance (s : Buffers) (e : BuffersAction) : Decidable (s.FewFetches e) :=
  match e with
  | .fetchAdd _ => inferInstanceAs (Decidable (_ < _))
  | .write _ _ | .pop _ | .popEmpty _ | .store _ | .start _ | .send _ _ | .push _ => .isTrue trivial

end Buffers

/-- All calls and all operations of all channels, in any order. -/
def buffers (P : BufferPool.PoolSize) : Machine Buffers BuffersAction :=
  .ofFun .start (Buffers.act P)

namespace Buffers

variable {P : BufferPool.PoolSize} {s s' : Buffers}

/-! ### What a step does -/

/-- What each step requires and does. -/
inductive Step (P : BufferPool.PoolSize) (s : Buffers) : BuffersAction → Buffers → Prop
  | write {channel : ℕ} {frame : List UInt8} : frame ≠ [] → frame.length < bufferCapacity →
      Step P s (.write channel frame)
        { s with calls := s.calls ++ [⟨channel, frame, .popping⟩] }
  | pop {pre post : List WriteCall} {channel : ℕ} {frame : List UInt8} {index : UInt32}
      {pool : BufferPool.State} : s.calls = pre ++ ⟨channel, frame, .popping⟩ :: post →
      BufferPool.acquired P s.pool .pop = some index → s.pool.act P .pop = some pool →
      Step P s (.pop pre.length) { s with
        pool := pool
        calls := pre ++ ⟨channel, frame, .storing index 0⟩ :: post }
  | popEmpty {pre post : List WriteCall} {channel : ℕ} {frame : List UInt8}
      {pool : BufferPool.State} : s.calls = pre ++ ⟨channel, frame, .popping⟩ :: post →
      s.pool.act P .popEmpty = some pool →
      Step P s (.popEmpty pre.length) { s with
        pool := pool
        calls := pre ++ ⟨channel, frame, .fetching⟩ :: post }
  | fetched {pre post : List WriteCall} {channel : ℕ} {frame : List UInt8} {index : UInt32}
      {pool : BufferPool.State} : s.calls = pre ++ ⟨channel, frame, .fetching⟩ :: post →
      BufferPool.acquired P s.pool .fetchAdd = some index →
      s.pool.act P .fetchAdd = some pool →
      Step P s (.fetchAdd pre.length) { s with
        pool := pool
        calls := pre ++ ⟨channel, frame, .storing index 0⟩ :: post }
  | exhausted {pre post : List WriteCall} {channel : ℕ} {frame : List UInt8}
      {pool : BufferPool.State} : s.calls = pre ++ ⟨channel, frame, .fetching⟩ :: post →
      BufferPool.acquired P s.pool .fetchAdd = none → s.pool.act P .fetchAdd = some pool →
      Step P s (.fetchAdd pre.length) { s with
        pool := pool
        calls := pre ++ post
        written := log s.written channel [frame] }
  | store {pre post : List WriteCall} {channel : ℕ} {frame : List UInt8} {index : UInt32}
      {stored : ℕ} {byte : UInt8} :
      s.calls = pre ++ ⟨channel, frame, .storing index stored⟩ :: post →
      frame[stored]? = some byte →
      Step P s (.store pre.length) { s with
        storage := Function.update s.storage (address index stored) byte
        calls := pre ++ ⟨channel, frame, .storing index (stored + 1)⟩ :: post }
  | start {pre post : List WriteCall} {channel : ℕ} {frame : List UInt8} {index : UInt32} :
      s.calls = pre ++ ⟨channel, frame, .storing index frame.length⟩ :: post →
      Step P s (.start pre.length) { s with
        calls := pre ++ post
        operations := s.operations ++ [⟨channel, index, frame.length, 0, frame⟩]
        written := log s.written channel [frame]
        acquired := log s.acquired channel [index] }
  | complete {pre post : List AsyncWrite} {op : AsyncWrite} {pool : BufferPool.State} :
      s.operations = pre ++ op :: post → 0 < op.size - op.offset →
      s.pool.act P (.release op.index) = some pool →
      Step P s (.send pre.length (op.size - op.offset)) { s with
        pool := pool
        operations := pre ++ post
        sent := log s.sent op.channel (s.bytesAt op (op.size - op.offset))
        released := log s.released op.channel [op.index] }
  | send {pre post : List AsyncWrite} {op : AsyncWrite} {n : ℕ} :
      s.operations = pre ++ op :: post → 0 < n → n < op.size - op.offset →
      Step P s (.send pre.length n) { s with
        operations := pre ++ { op with offset := op.offset + n } :: post
        sent := log s.sent op.channel (s.bytesAt op n) }
  | push {index : UInt32} {pool : BufferPool.State} : s.pool.act P (.push index) = some pool →
      Step P s (.push index) { s with pool := pool }

/-- A list around one of its positions. -/
theorem split_at {α : Type*} {l : List α} {k : ℕ} {a : α} (h : l[k]? = some a) :
    ∃ pre post, l = pre ++ a :: post ∧ k = pre.length ∧ l.eraseIdx k = pre ++ post ∧
      ∀ b, l.set k b = pre ++ b :: post := by
  obtain ⟨hk, rfl⟩ := List.getElem?_eq_some_iff.1 h
  refine ⟨l.take k, l.drop (k + 1), ?_, ?_, ?_, ?_⟩
  · rw [List.getElem_cons_drop, List.take_append_drop]
  · rw [List.length_take, Nat.min_eq_left (Nat.le_of_lt hk)]
  · exact List.eraseIdx_eq_take_drop_succ l k
  · intro b
    exact List.set_eq_take_append_cons_drop.trans (if_pos hk)

theorem step_of_act {e : BuffersAction} (h : s.act P e = some s') : Step P s e s' := by
  cases e with
  | write channel frame =>
    rw [act, Option.ite_none_right_eq_some, Option.some_inj] at h
    obtain ⟨⟨hne, hlt⟩, rfl⟩ := h
    exact .write hne hlt
  | pop k =>
    simp only [act] at h
    split at h
    · next hcall hindex hpool =>
      obtain ⟨pre, post, hcalls, rfl, _, hset⟩ := split_at hcall
      rw [hset, Option.some_inj] at h
      obtain rfl := h
      exact .pop hcalls hindex hpool
    · cases h
  | popEmpty k =>
    simp only [act] at h
    split at h
    · next hcall hpool =>
      obtain ⟨pre, post, hcalls, rfl, _, hset⟩ := split_at hcall
      rw [hset, Option.some_inj] at h
      obtain rfl := h
      exact .popEmpty hcalls hpool
    · cases h
  | fetchAdd k =>
    simp only [act] at h
    split at h
    · next hcall hpool =>
      obtain ⟨pre, post, hcalls, rfl, herase, hset⟩ := split_at hcall
      split at h
      · next hindex =>
        rw [hset, Option.some_inj] at h
        obtain rfl := h
        exact .fetched hcalls hindex hpool
      · next hindex =>
        rw [herase, Option.some_inj] at h
        obtain rfl := h
        exact .exhausted hcalls hindex hpool
    · cases h
  | store k =>
    simp only [act] at h
    split at h
    · next hcall =>
      obtain ⟨pre, post, hcalls, rfl, _, hset⟩ := split_at hcall
      split at h
      · next hbyte =>
        rw [hset, Option.some_inj] at h
        obtain rfl := h
        exact .store hcalls hbyte
      · cases h
    · cases h
  | start k =>
    simp only [act] at h
    split at h
    · next hcall =>
      obtain ⟨pre, post, hcalls, rfl, herase, _⟩ := split_at hcall
      rw [herase, Option.ite_none_right_eq_some, Option.some_inj] at h
      obtain ⟨rfl, rfl⟩ := h
      exact .start hcalls
    · cases h
  | send k n =>
    simp only [act] at h
    split at h
    · next op hop =>
      obtain ⟨pre, post, hops, rfl, herase, hset⟩ := split_at hop
      rw [herase, hset, Option.ite_none_right_eq_some] at h
      obtain ⟨⟨hpos, hle⟩, h⟩ := h
      split at h
      · next hall =>
        obtain ⟨pool, hpool, rfl⟩ := Option.map_eq_some_iff.1 h
        subst hall
        exact .complete hops hpos hpool
      · next hpart =>
        obtain rfl := Option.some_inj.1 h
        exact .send hops hpos (by omega)
    · cases h
  | push index =>
    obtain ⟨pool, hpool, rfl⟩ := Option.map_eq_some_iff.1 h
    exact .push hpool

/-! ### Who has which buffer -/

/-- The buffer `index` begins with `bytes`. -/
structure Filled where
  index : UInt32
  bytes : List UInt8

def Holds (storage : ℕ → UInt8) (b : Filled) : Prop :=
  b.bytes.length < bufferCapacity ∧
    ∀ j x, b.bytes[j]? = some x → storage (address b.index j) = x

/-- What a call has put into its buffer. -/
def filled : WriteCall → Option Filled
  | ⟨_, frame, .storing index stored⟩ => some ⟨index, frame.take stored⟩
  | _ => none

/-- What is in the buffer of an operation. -/
def content (op : AsyncWrite) : Filled := ⟨op.index, op.frame⟩

/-- The buffers that calls and operations have. -/
def inUse (calls : List WriteCall) (operations : List AsyncWrite) : Multiset Filled :=
  ((calls.filterMap filled : List Filled) : Multiset Filled) +
    (operations.map content : List Filled)

theorem inUse_call (pre post : List WriteCall) (call : WriteCall) (operations : List AsyncWrite) :
    inUse (pre ++ call :: post) operations =
      ((filled call).toList : Multiset Filled) + inUse (pre ++ post) operations := by
  rw [inUse, inUse, ← Multiset.add_assoc]
  congr 1
  rw [Multiset.coe_add, Multiset.coe_eq_coe, List.filterMap_append, List.filterMap_append]
  cases hf : filled call with
  | none =>
    rw [List.filterMap_cons_none hf]
    exact List.Perm.refl _
  | some b =>
    rw [List.filterMap_cons_some hf]
    exact List.perm_middle

theorem inUse_operation (calls : List WriteCall) (pre post : List AsyncWrite) (op : AsyncWrite) :
    inUse calls (pre ++ op :: post) = content op ::ₘ inUse calls (pre ++ post) := by
  rw [inUse, inUse, ← Multiset.add_cons]
  congr 1
  rw [Multiset.cons_coe, Multiset.coe_eq_coe, List.map_append, List.map_append, List.map_cons]
  exact List.perm_middle

/-- The buffers that are out are those of the calls and the operations, each of one of them,
and what they put there is there. -/
structure Inv (P : BufferPool.PoolSize) (s : Buffers) : Prop where
  pool : BufferPool.Inv P s.pool
  held : (inUse s.calls s.operations).map Filled.index = (s.pool.held : Multiset UInt32)
  custody : Custody Filled.index (Holds s.storage) (inUse s.calls s.operations)
  framed : ∀ call ∈ s.calls, call.frame ≠ [] ∧ call.frame.length < bufferCapacity
  sized : ∀ op ∈ s.operations, op.size = op.frame.length ∧ op.offset < op.size

theorem Inv.start : Inv P start where
  pool := .start P
  held := rfl
  custody := Custody.zero
  framed _ hcall := absurd hcall List.not_mem_nil
  sized _ hop := absurd hop List.not_mem_nil

/-! The buffers that a step of the pool takes and gives. -/

section Pool

variable {p p' : BufferPool.State} {index : UInt32}

theorem held_of_pop (hindex : BufferPool.acquired P p .pop = some index)
    (hs : p.act P .pop = some p') : p'.held = index :: p.held := by
  rw [BufferPool.acquired, List.head?_eq_some_iff] at hindex
  obtain ⟨rest, hq⟩ := hindex
  simp only [BufferPool.State.act, hq, Option.some_inj] at hs
  rw [← hs]

theorem held_of_fetchAdd (hs : p.act P .fetchAdd = some p') :
    p'.held = (BufferPool.acquired P p .fetchAdd).toList ++ p.held := by
  simp only [BufferPool.State.act, Option.ite_none_right_eq_some, Option.some_inj] at hs
  rw [← hs.2, BufferPool.acquired]
  split
  · rfl
  · rfl

theorem held_of_popEmpty (hs : p.act P .popEmpty = some p') : p'.held = p.held := by
  simp only [BufferPool.State.act, Option.ite_none_right_eq_some, Option.some_inj] at hs
  rw [← hs.2]

theorem held_of_push (hs : p.act P (.push index) = some p') : p'.held = p.held := by
  simp only [BufferPool.State.act, Option.ite_none_right_eq_some] at hs
  obtain ⟨_, hs⟩ := hs
  split at hs
  · rw [← Option.some_inj.1 hs]
  · rw [← Option.some_inj.1 hs]

theorem held_of_release (hs : p.act P (.release index) = some p') :
    p'.held = p.held.erase index := by
  simp only [BufferPool.State.act, Option.ite_none_right_eq_some, Option.some_inj] at hs
  rw [← hs.2]

theorem poolInv (h : BufferPool.Inv P p) {e : BufferPool.Action} (he : e ≠ .fetchAdd)
    (hs : p.act P e = some p') : BufferPool.Inv P p' :=
  h.act (fun heq => absurd heq he) hs

/-- No buffer is out twice. -/
theorem held_nodup (h : BufferPool.Inv P p) : p.held.Nodup := by
  have hnodup := h.nodup
  rw [BufferPool.State.known] at hnodup
  exact (List.nodup_append.1 hnodup).1

end Pool

namespace Inv

variable {pool : BufferPool.State} {pre post : List WriteCall}

/-- The pool takes a step that hands out nothing. -/
theorem poolStep (h : Inv P s) (hpool : BufferPool.Inv P pool) (hheld : pool.held = s.pool.held) :
    Inv P { s with pool := pool } where
  pool := hpool
  held := by
    rw [hheld]
    exact h.held
  custody := h.custody
  framed := h.framed
  sized := h.sized

/-- A call that goes on has the frame it had. -/
theorem framed_replace (h : Inv P s) {call call' : WriteCall}
    (hcalls : s.calls = pre ++ call :: post) (hframe : call'.frame = call.frame) :
    ∀ c ∈ pre ++ call' :: post, c.frame ≠ [] ∧ c.frame.length < bufferCapacity := by
  intro c hc
  rcases List.mem_append.1 hc with hc | hc
  · exact h.framed c (by simp [hcalls, hc])
  · rcases List.mem_cons.1 hc with rfl | hc
    · rw [hframe]
      exact h.framed call (by simp [hcalls])
    · exact h.framed c (by simp [hcalls, hc])

/-- A call goes on without a buffer. -/
theorem noBuffer (h : Inv P s) {call call' : WriteCall} (hcalls : s.calls = pre ++ call :: post)
    (hcall : filled call = none) (hcall' : filled call' = none)
    (hframe : call'.frame = call.frame) :
    Inv P { s with calls := pre ++ call' :: post } := by
  have hsame : inUse (pre ++ call' :: post) s.operations = inUse s.calls s.operations := by
    rw [hcalls, inUse_call, inUse_call, hcall, hcall']
  refine ⟨h.pool, ?_, ?_, ?_, h.sized⟩
  · rw [hsame]
    exact h.held
  · rw [hsame]
    exact h.custody
  · exact h.framed_replace hcalls hframe

/-- A call gets a buffer. -/
theorem acquire (h : Inv P s) {channel : ℕ} {frame : List UInt8} {pc : WritePc} {index : UInt32}
    (hcalls : s.calls = pre ++ ⟨channel, frame, pc⟩ :: post)
    (hcall : filled ⟨channel, frame, pc⟩ = none) (hpool : BufferPool.Inv P pool)
    (hheld : pool.held = index :: s.pool.held) :
    Inv P { s with
      pool := pool
      calls := pre ++ ⟨channel, frame, .storing index 0⟩ :: post } := by
  have hnew : inUse (pre ++ ⟨channel, frame, .storing index 0⟩ :: post) s.operations =
      ⟨index, []⟩ ::ₘ inUse s.calls s.operations := by
    rw [hcalls, inUse_call, inUse_call, hcall]
    rfl
  have hfresh : index ∉ s.pool.held := by
    have hnodup := held_nodup hpool
    rw [hheld] at hnodup
    exact (List.nodup_cons.1 hnodup).1
  refine ⟨hpool, ?_, ?_, ?_, h.sized⟩
  · rw [hnew, Multiset.map_cons, h.held, hheld]
    rfl
  · rw [hnew]
    refine h.custody.add ?_ ⟨(by decide : 0 < bufferCapacity), by simp⟩
    rw [h.held]
    exact hfresh
  · exact h.framed_replace hcalls rfl

/-- A call ends. -/
theorem framed_erase (h : Inv P s) {call : WriteCall} (hcalls : s.calls = pre ++ call :: post) :
    ∀ c ∈ pre ++ post, c.frame ≠ [] ∧ c.frame.length < bufferCapacity := by
  intro c hc
  rcases List.mem_append.1 hc with hc | hc
  · exact h.framed c (by simp [hcalls, hc])
  · exact h.framed c (by simp [hcalls, hc])

/-- A call ends without a buffer. -/
theorem exhausted (h : Inv P s) {call : WriteCall} (hcalls : s.calls = pre ++ call :: post)
    (hcall : filled call = none) (written : ℕ → List (List UInt8)) :
    Inv P { s with calls := pre ++ post, written := written } := by
  have hsame : inUse (pre ++ post) s.operations = inUse s.calls s.operations := by
    rw [hcalls, inUse_call, hcall]
    exact (Multiset.zero_add _).symm
  refine ⟨h.pool, ?_, ?_, h.framed_erase hcalls, h.sized⟩
  · rw [hsame]
    exact h.held
  · rw [hsame]
    exact h.custody

/-- A byte of one buffer is no byte of another. -/
theorem address_ne {index index' : UInt32} {j j' : ℕ} (hne : index' ≠ index)
    (hj : j < bufferCapacity) (hj' : j' < bufferCapacity) :
    address index' j' ≠ address index j := by
  have hnat : index'.toNat ≠ index.toNat := fun heq => hne (UInt32.toNat_inj.1 heq)
  rw [address, address]
  rw [bufferCapacity] at hj hj' ⊢
  omega

/-- A call stores the next byte of its frame. -/
theorem store (h : Inv P s) {channel : ℕ} {frame : List UInt8} {index : UInt32} {stored : ℕ}
    {byte : UInt8} (hcalls : s.calls = pre ++ ⟨channel, frame, .storing index stored⟩ :: post)
    (hbyte : frame[stored]? = some byte) :
    Inv P { s with
      storage := Function.update s.storage (address index stored) byte
      calls := pre ++ ⟨channel, frame, .storing index (stored + 1)⟩ :: post } := by
  have hlt := (List.getElem?_eq_some_iff.1 hbyte).1
  have hcap : frame.length < bufferCapacity :=
    (h.framed ⟨channel, frame, .storing index stored⟩ (by simp [hcalls])).2
  have hold : inUse s.calls s.operations =
      ⟨index, frame.take stored⟩ ::ₘ inUse (pre ++ post) s.operations := by
    rw [hcalls, inUse_call]
    rfl
  have hnew : inUse (pre ++ ⟨channel, frame, .storing index (stored + 1)⟩ :: post) s.operations =
      ⟨index, frame.take (stored + 1)⟩ ::ₘ inUse (pre ++ post) s.operations := by
    rw [inUse_call]
    rfl
  have hcust := h.custody
  have hheld := h.held
  rw [hold] at hcust hheld
  refine ⟨h.pool, ?_, ?_, h.framed_replace hcalls rfl, h.sized⟩
  · rw [hnew]
    rw [Multiset.map_cons] at hheld ⊢
    exact hheld
  · rw [hnew]
    refine hcust.move rfl ⟨?_, ?_⟩ ?_
    · exact Nat.lt_of_le_of_lt (List.length_take_le' _ _) hcap
    · -- the byte at hand, and those before
      intro j x hj
      rw [List.getElem?_take, Option.ite_none_right_eq_some] at hj
      by_cases heq : j = stored
      · subst heq
        exact (Function.update_self _ _ _).trans (Option.some_inj.1 (hbyte.symm.trans hj.2))
      · have hne : address index j ≠ address index stored := by
          rw [address, address]
          omega
        refine (Function.update_of_ne hne _ _).trans (hcust.head.2 j x ?_)
        rw [List.getElem?_take, if_pos (by omega)]
        exact hj.2
    · rintro ⟨index', bytes⟩ hne ⟨hlen, hbytes⟩
      refine ⟨hlen, fun j x hj => ?_⟩
      have hj' := (List.getElem?_eq_some_iff.1 hj).1
      have haddr : address index' j ≠ address index stored :=
        address_ne hne (hlt.trans hcap) (hj'.trans hlen)
      exact (Function.update_of_ne haddr _ _).trans (hbytes j x hj)

/-- A call hands its buffer to an operation. -/
theorem startWrite (h : Inv P s) {channel : ℕ} {frame : List UInt8} {index : UInt32}
    (hcalls : s.calls = pre ++ ⟨channel, frame, .storing index frame.length⟩ :: post)
    (written : ℕ → List (List UInt8)) (acquired : ℕ → List UInt32) :
    Inv P { s with
      calls := pre ++ post
      operations := s.operations ++ [⟨channel, index, frame.length, 0, frame⟩]
      written := written
      acquired := acquired } := by
  have hsame : inUse (pre ++ post) (s.operations ++ [⟨channel, index, frame.length, 0, frame⟩]) =
      inUse s.calls s.operations := by
    have hfilled : filled ⟨channel, frame, .storing index frame.length⟩ = some ⟨index, frame⟩ := by
      rw [filled, List.take_length]
    rw [inUse_operation, List.append_nil, hcalls, inUse_call, hfilled]
    rfl
  refine ⟨h.pool, ?_, ?_, h.framed_erase hcalls, ?_⟩
  · rw [hsame]
    exact h.held
  · rw [hsame]
    exact h.custody
  · intro op hop
    rcases List.mem_append.1 hop with hop | hop
    · exact h.sized op hop
    · rw [List.mem_singleton.1 hop]
      have hne := (h.framed ⟨channel, frame, .storing index frame.length⟩ (by simp [hcalls])).1
      exact ⟨rfl, List.length_pos_iff.2 hne⟩

/-- An operation completes, and its buffer is released. -/
theorem complete (h : Inv P s) {pre post : List AsyncWrite} {op : AsyncWrite}
    (hops : s.operations = pre ++ op :: post) (hpool : BufferPool.Inv P pool)
    (hheld : pool.held = s.pool.held.erase op.index) (sent : ℕ → List UInt8)
    (released : ℕ → List UInt32) :
    Inv P { s with
      pool := pool
      operations := pre ++ post
      sent := sent
      released := released } := by
  have hold : inUse s.calls s.operations = content op ::ₘ inUse s.calls (pre ++ post) := by
    rw [hops, inUse_operation]
  have hcust := h.custody
  have hmap := h.held
  rw [hold] at hcust hmap
  refine ⟨hpool, ?_, hcust.drop fun _ _ hok => hok, h.framed, ?_⟩
  · rw [hheld, ← Multiset.coe_erase, ← hmap, Multiset.map_cons]
    exact (Multiset.erase_cons_head _ _).symm
  · intro op' hop
    rcases List.mem_append.1 hop with hop | hop
    · exact h.sized op' (by simp [hops, hop])
    · exact h.sized op' (by simp [hops, hop])

/-- An operation sends a part. -/
theorem sendPart (h : Inv P s) {pre post : List AsyncWrite} {op : AsyncWrite} {n : ℕ}
    (hops : s.operations = pre ++ op :: post) (hn : n < op.size - op.offset)
    (sent : ℕ → List UInt8) :
    Inv P { s with
      operations := pre ++ { op with offset := op.offset + n } :: post
      sent := sent } := by
  have hsame : inUse s.calls (pre ++ { op with offset := op.offset + n } :: post) =
      inUse s.calls s.operations := by
    rw [hops, inUse_operation, inUse_operation]
    rfl
  refine ⟨h.pool, ?_, ?_, h.framed, ?_⟩
  · rw [hsame]
    exact h.held
  · rw [hsame]
    exact h.custody
  · intro op' hop
    rcases List.mem_append.1 hop with hop | hop
    · exact h.sized op' (by simp [hops, hop])
    · rcases List.mem_cons.1 hop with rfl | hop
      · refine ⟨(h.sized op (by simp [hops])).1, ?_⟩
        show op.offset + n < op.size
        omega
      · exact h.sized op' (by simp [hops, hop])

theorem step (h : Inv P s) {e : BuffersAction} (hfew : s.FewFetches e) (hs : Step P s e s') :
    Inv P s' := by
  cases hs with
  | @write channel frame hne hlt =>
    have hsame : inUse (s.calls ++ [⟨channel, frame, .popping⟩]) s.operations =
        inUse s.calls s.operations := by
      rw [inUse_call, List.append_nil]
      exact Multiset.zero_add _
    refine ⟨h.pool, ?_, ?_, ?_, h.sized⟩
    · rw [hsame]
      exact h.held
    · rw [hsame]
      exact h.custody
    · intro c hc
      rcases List.mem_append.1 hc with hc | hc
      · exact h.framed c hc
      · rw [List.mem_singleton.1 hc]
        exact ⟨hne, hlt⟩
  | pop hcalls hindex hpool =>
    exact h.acquire hcalls rfl (poolInv h.pool (by simp) hpool)
      (held_of_pop hindex hpool)
  | popEmpty hcalls hpool =>
    have hstep := h.poolStep (poolInv h.pool (by simp) hpool) (held_of_popEmpty hpool)
    exact hstep.noBuffer hcalls rfl rfl rfl
  | fetched hcalls hindex hpool =>
    refine h.acquire hcalls rfl (h.pool.act (fun _ => hfew) hpool) ?_
    rw [held_of_fetchAdd hpool, hindex]
    rfl
  | @exhausted _ _ _ _ pool hcalls hindex hpool =>
    have hheld : pool.held = s.pool.held := by
      rw [held_of_fetchAdd hpool, hindex]
      rfl
    exact (h.poolStep (h.pool.act (fun _ => hfew) hpool) hheld).exhausted hcalls rfl _
  | store hcalls hbyte => exact h.store hcalls hbyte
  | start hcalls => exact h.startWrite hcalls _ _
  | complete hops _ hpool =>
    exact h.complete hops (poolInv h.pool (by simp) hpool) (held_of_release hpool) _ _
  | send hops _ hn => exact h.sendPart hops hn _
  | push hpool =>
    exact h.poolStep (poolInv h.pool (by simp) hpool) (held_of_push hpool)

theorem run {es : List BuffersAction} (h : ((buffers P).restrict FewFetches).Run es s) :
    Inv P s := by
  refine h.invariant ?_ ?_
  · rintro s rfl
    exact .start
  · rintro s e s' hI ⟨hfew, hs⟩
    exact hI.step hfew (step_of_act hs)

end Inv

/-! ### What is sent -/

/-- What the socket finds is what the call put there. -/
theorem Inv.bytesAt_eq (h : Inv P s) {op : AsyncWrite} (hop : op ∈ s.operations) {n : ℕ}
    (hn : n ≤ op.size - op.offset) : s.bytesAt op n = (op.frame.drop op.offset).take n := by
  obtain ⟨hsize, _⟩ := h.sized op hop
  have hmem : content op ∈ inUse s.calls s.operations :=
    Multiset.mem_add.2 (.inr (Multiset.mem_coe.2 (List.mem_map_of_mem hop)))
  obtain ⟨_, hbytes⟩ := h.custody.ok _ hmem
  refine List.ext_getElem? fun j => ?_
  by_cases hj : j < n
  · have hlt : op.offset + j < op.frame.length := by omega
    rw [List.getElem?_take, if_pos hj, List.getElem?_drop, bytesAt, List.getElem?_map,
      List.getElem?_range hj, List.getElem?_eq_getElem hlt, Option.map_some, Option.some_inj]
    exact hbytes _ _ (List.getElem?_eq_getElem hlt)
  · rw [List.getElem?_take, if_neg hj, bytesAt, List.getElem?_map,
      List.getElem?_eq_none (by simpa using hj), Option.map_none]

theorem Inv.bytesAt_all (h : Inv P s) {op : AsyncWrite} (hop : op ∈ s.operations) :
    s.bytesAt op (op.size - op.offset) = op.frame.drop op.offset := by
  rw [h.bytesAt_eq hop (Nat.le_refl _)]
  refine List.take_of_length_le ?_
  rw [List.length_drop, (h.sized op hop).1]

/-- What is left of an operation. -/
def rest (op : AsyncWrite) : TcpChannel.Operation := ⟨op.index, op.frame.drop op.offset⟩

/-- A channel, as `Transport.Writes` has it. -/
def view (s : Buffers) (channel : ℕ) : TcpChannel.State where
  outstanding := (s.operations.filter fun op => op.channel = channel).map rest
  sent := s.sent channel
  written := s.written channel
  acquired := s.acquired channel
  released := s.released channel

theorem log_self {α : Type*} (f : ℕ → List α) (channel : ℕ) (more : List α) :
    log f channel more channel = f channel ++ more :=
  Function.update_self _ _ _

theorem log_of_ne {α : Type*} (f : ℕ → List α) {channel channel' : ℕ} (hne : channel' ≠ channel)
    (more : List α) : log f channel more channel' = f channel' :=
  Function.update_of_ne hne _ _

/-- The operations of a channel, around one of them. -/
theorem outstanding_split {pre post : List AsyncWrite} {op : AsyncWrite}
    (hops : s.operations = pre ++ op :: post) :
    ∃ before after : List TcpChannel.Operation,
      ((s.view op.channel).outstanding = before ++ rest op :: after) ∧
      (∀ op' : AsyncWrite, op'.channel = op.channel →
        ((pre ++ op' :: post).filter fun o => o.channel = op.channel).map rest =
          before ++ rest op' :: after) ∧
      ((pre ++ post).filter fun o => o.channel = op.channel).map rest = before ++ after := by
  refine ⟨(pre.filter fun o => o.channel = op.channel).map rest,
    (post.filter fun o => o.channel = op.channel).map rest, ?_, ?_, ?_⟩
  · rw [view, hops]
    simp
  · intro op' hop'
    simp [hop']
  · simp

/-- The other channels do not see it. -/
theorem filter_of_ne {pre post : List AsyncWrite} {op : AsyncWrite} {channel : ℕ}
    (hne : op.channel ≠ channel) :
    ((pre ++ op :: post).filter fun o => o.channel = channel) =
      (pre ++ post).filter fun o => o.channel = channel := by
  simp [hne]

/-- The operation sends what is left. -/
theorem send_complete {t : TcpChannel.State} {before after : List TcpChannel.Operation}
    {x : TcpChannel.Operation} (hout : t.outstanding = before ++ x :: after)
    (hpos : 0 < x.remaining.length) :
    t.act (.send before.length x.remaining.length) = some { t with
      outstanding := before ++ after
      sent := t.sent ++ x.remaining
      released := t.released ++ [x.index] } := by
  have hget : t.outstanding[before.length]? = some x := by
    rw [hout]
    simp
  have herase : t.outstanding.eraseIdx before.length = before ++ after := by
    rw [hout, List.eraseIdx_append_of_length_le (Nat.le_refl _), Nat.sub_self]
    rfl
  simp only [TcpChannel.State.act, TcpChannel.State.send, hget, herase, List.take_length]
  rw [if_pos ⟨hpos, Nat.le_refl _⟩, if_pos trivial]

/-- The operation sends a part of it. -/
theorem send_part {t : TcpChannel.State} {before after : List TcpChannel.Operation}
    {x : TcpChannel.Operation} (hout : t.outstanding = before ++ x :: after) {n : ℕ}
    (hpos : 0 < n) (hn : n < x.remaining.length) :
    t.act (.send before.length n) = some { t with
      outstanding := before ++ { x with remaining := x.remaining.drop n } :: after
      sent := t.sent ++ x.remaining.take n } := by
  have hget : t.outstanding[before.length]? = some x := by
    rw [hout]
    simp
  have hset : ∀ y, t.outstanding.set before.length y = before ++ y :: after := by
    intro y
    rw [hout, List.set_append_right _ _ (Nat.le_refl _), Nat.sub_self]
    rfl
  simp only [TcpChannel.State.act, TcpChannel.State.send, hget, hset]
  rw [if_pos ⟨hpos, Nat.le_of_lt hn⟩, if_neg (Nat.ne_of_lt hn)]

/-- A step of one of the channels is no step of another. -/
theorem Inv.view_step (h : Inv P s) {e : BuffersAction} (hs : Step P s e s') (channel : ℕ) :
    s'.view channel = s.view channel ∨ ∃ a, (s.view channel).act a = some (s'.view channel) := by
  cases hs with
  | write | pop | popEmpty | fetched | store | push => exact .inl rfl
  | @exhausted pre post ch frame pool hcalls _ _ =>
    by_cases hch : channel = ch
    · subst hch
      refine .inr ⟨.write frame none, ?_⟩
      simp only [TcpChannel.State.act, TcpChannel.State.write, view, log_self]
    · refine .inl ?_
      simp only [view, log_of_ne _ hch]
  | @start pre post ch frame index hcalls =>
    by_cases hch : channel = ch
    · subst hch
      have hframe := h.framed ⟨channel, frame, .storing index frame.length⟩ (by simp [hcalls])
      refine .inr ⟨.write frame (some index), ?_⟩
      simp only [TcpChannel.State.act, TcpChannel.State.write, if_pos hframe, view, log_self]
      simp [rest]
    · refine .inl ?_
      have hne : (⟨ch, index, frame.length, 0, frame⟩ : AsyncWrite).channel ≠ channel :=
        fun heq => hch heq.symm
      simp only [view, log_of_ne _ hch, filter_of_ne hne, List.append_nil]
  | @complete pre post op pool hops hpos _ =>
    by_cases hch : channel = op.channel
    · subst hch
      have hop : op ∈ s.operations := by simp [hops]
      obtain ⟨before, after, hout, _, herase⟩ := outstanding_split hops
      have hlen : (rest op).remaining.length = op.size - op.offset := by
        rw [rest, List.length_drop, (h.sized op hop).1]
      refine .inr ⟨.send before.length (rest op).remaining.length, ?_⟩
      rw [send_complete hout (by omega)]
      simp only [view, log_self, herase, h.bytesAt_all hop]
      rfl
    · refine .inl ?_
      have hne : op.channel ≠ channel := fun heq => hch heq.symm
      simp only [view, log_of_ne _ hch, hops, filter_of_ne hne]
  | @send pre post op n hops hpos hn =>
    by_cases hch : channel = op.channel
    · subst hch
      have hop : op ∈ s.operations := by simp [hops]
      obtain ⟨before, after, hout, hset, _⟩ := outstanding_split hops
      have hlen : (rest op).remaining.length = op.size - op.offset := by
        rw [rest, List.length_drop, (h.sized op hop).1]
      refine .inr ⟨.send before.length n, ?_⟩
      rw [send_part hout hpos (by omega)]
      simp only [view, log_self, hset { op with offset := op.offset + n } rfl,
        h.bytesAt_eq hop (Nat.le_of_lt hn), rest, List.drop_drop]
    · refine .inl ?_
      have hne : op.channel ≠ channel := fun heq => hch heq.symm
      have hne' : { op with offset := op.offset + n }.channel ≠ channel := hne
      simp only [view, log_of_ne _ hch, hops, filter_of_ne hne, filter_of_ne hne']

/-- Two channels write; the first operation completes while the second call stores, and its
buffer is used again. -/
def takeTurns : List BuffersAction :=
  [.write 0 [1, 0, 7], .popEmpty 0, .fetchAdd 0, .store 0, .store 0, .write 1 [1, 0, 8],
    .popEmpty 1, .fetchAdd 1, .store 1, .store 0, .start 0, .send 0 2, .store 0, .send 0 1, .push 0,
    .write 0 [1, 0, 9], .pop 1, .store 1, .store 0, .start 0, .send 0 1]

theorem exists_takeTurns :
    ∃ s, ((buffers .standard).restrict FewFetches).Run takeTurns s ∧
      s.sent 0 = [1, 0, 7] ∧ s.sent 1 = [1] ∧ s.operations.length = 1 := by
  obtain ⟨s, hrun, hs⟩ := Machine.exists_run
    (f := Machine.guarded FewFetches (act .standard))
    (Machine.restrict_step_of_guarded (M := buffers .standard) fun h => h) rfl takeTurns
    (fun s => s.sent 0 = [1, 0, 7] ∧ s.sent 1 = [1] ∧ s.operations.length = 1) (by decide +kernel)
  exact ⟨s, hrun, of_decide_eq_true hs⟩

end Buffers
