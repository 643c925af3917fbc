/-
The queue between the workers and the gateway
(`server/src/execution/coordinator.hpp`, `server/src/gateway/order_gateway.hpp`,
`common/src/runner/lfq_runner.hpp`, `common/src/containers/sequenced_spsc.hpp`).

All workers post their statuses through the bus into the queue of the gateway's
one runner.  The queue is made for one writer: `writeIdx_` is read again at each
of the steps of `write`, and what a worker has checked is true only as long as
no other worker is inside `write`.

* `act_frame` — the gateway's steps and the index of the writers do not
  concern each other;
* `Inv.act` — while at most one worker is inside `write`, the queue is that of
  one writer (`SequencedSPSC.Fifo`);
* `Readable.drain` — the gateway's own steps empty such a queue;
* `Accounted.act` — a status is published, dropped or still held by its worker;
* `statuses_delivered` — then what is delivered is what was posted, in order, and
  whatever has been posted the gateway can still read;
* `exclusive_of_one` — one worker alone is never in its own way;
* `statuses_lost` — two workers that write at the same time.

The rest of `post`, which wakes the gateway, is in `Runner.Lfq`.
-/
import Mathlib.Algebra.BigOperators.Fin
import TradingPlatform.Runner.SpinWait
import TradingPlatform.Spsc.Calls

namespace StatusQueue

open SequencedSPSC (Sloth Reader QueueState QueueAction Fifo Constructed canRead isRead
  maxDataSize WriterOk ReaderOk)

/-- The capacity of the gateway's queue and `sizeof(InternalOrderStatus)`. -/
structure Config where
  slots : SlotCount
  size : ℕ
  fits : size ≤ maxDataSize

/-- Where a worker is in `post` and `write`; `slot` is the one it has chosen. -/
inductive Worker
  | idle
  | posting (src : List UInt8) (waiter : SpinWait)
  | chosen (src : List UInt8) (waiter : SpinWait) (slot : ℕ)
  | checked (src : List UInt8) (slot : ℕ)
  | copied (src : List UInt8) (slot : ℕ)
  | sized (src : List UInt8) (slot : ℕ)
  | stored
deriving DecidableEq

/-- A worker is inside `write`. -/
def Worker.inside : Worker → Bool
  | .idle => false
  | .posting _ _ => false
  | _ => true

/-- The queue, the `n` workers and the gateway, and what they have done: the
statuses `post` was called with, those published, those whose slot was given back,
those delivered with the size returned, and those dropped by a `post` that gave up. -/
structure State (n : ℕ) where
  queue : SequencedSPSC
  workers : Fin n → Worker
  reader : Reader
  called : List (List UInt8)
  posted : List (List UInt8)
  givenBack : List (List UInt8)
  delivered : List (List UInt8 × ℕ)
  dropped : List (List UInt8)

/-- A call of `post`, the steps of `write`, and a step of the gateway's `read`. -/
inductive Action (n : ℕ)
  | post (i : Fin n) (src : List UInt8)
  | choose (i : Fin n)
  | check (i : Fin n)
  | copy (i : Fin n)
  | storeSize (i : Fin n)
  | storeSeq (i : Fin n)
  | increment (i : Fin n)
  | gateway (e : QueueAction)
deriving DecidableEq

variable (c : Config) {n : ℕ}

namespace State

/-- The queue as one with a single writer. -/
def view (s : State n) (writer : SequencedSPSC.Writer) : QueueState :=
  ⟨s.queue, writer, s.reader, s.posted, s.givenBack, s.delivered⟩

def setWorker (s : State n) (i : Fin n) (w : Worker) : State n :=
  { s with workers := Function.update s.workers i w }

@[simp] theorem setWorker_self (s : State n) (i : Fin n) (w : Worker) :
    (s.setWorker i w).workers i = w :=
  Function.update_self _ _ _

theorem setWorker_of_ne (s : State n) {i j : Fin n} (h : j ≠ i) (w : Worker) :
    (s.setWorker i w).workers j = s.workers j :=
  Function.update_of_ne h _ _

/-- What the gateway's step leaves. -/
def ofView (s : State n) (q : QueueState) : State n :=
  { s with
    queue := q.queue
    reader := q.reader
    givenBack := q.givenBack
    delivered := q.delivered }

/-- What a worker does after a failed `write`. -/
def retry (s : State n) (i : Fin n) (src : List UInt8) (waiter : SpinWait) : State n :=
  match waiter.next with
  | (true, waiter) => s.setWorker i (.posting src waiter)
  | (false, _) => { s.setWorker i .idle with dropped := s.dropped ++ [src] }

/-- One step; `none` where the program counters do not allow it. -/
def act (s : State n) : Action n → Option (State n)
  | .post i src =>
    if s.workers i = .idle ∧ src.length = c.size then
      some { s.setWorker i (.posting src {}) with called := s.called ++ [src] }
    else none
  | .choose i =>
    match s.workers i with
    | .posting src waiter => some (s.setWorker i (.chosen src waiter (s.queue.writeSlot c.slots)))
    | _ => none
  | .check i =>
    match s.workers i with
    | .chosen src waiter slot =>
      if (s.queue.slots slot).seq = s.queue.writeIdx then some (s.setWorker i (.checked src slot))
      else some (s.retry i src waiter)
    | _ => none
  | .copy i =>
    match s.workers i with
    | .checked src slot =>
      some { s.setWorker i (.copied src slot) with
        queue := s.queue.modify slot fun sloth =>
          { sloth with data := fun k => src.getD k (sloth.data k) } }
    | _ => none
  | .storeSize i =>
    match s.workers i with
    | .copied src slot =>
      some { s.setWorker i (.sized src slot) with
        queue := s.queue.modify slot fun sloth => { sloth with size := src.length } }
    | _ => none
  | .storeSeq i =>
    match s.workers i with
    | .sized src slot =>
      some { s.setWorker i .stored with
        queue := s.queue.modify slot fun sloth => { sloth with seq := s.queue.writeIdx + 1 }
        posted := s.posted ++ [src] }
    | _ => none
  | .increment i =>
    if s.workers i = .stored then
      some { s.setWorker i .idle with
        queue := { s.queue with writeIdx := s.queue.writeIdx + 1 } }
    else none
  | .gateway e =>
    if isRead c.size e then ((s.view .idle).act c.slots e).map s.ofView else none

/-- No worker posts and the gateway has not read. -/
def start (n : ℕ) (q : SequencedSPSC) : State n :=
  ⟨q, fun _ => .idle, .idle, [], [], [], [], []⟩

end State

/-- The gateway and `n` workers. -/
def statusQueue (n : ℕ) : Machine (State n) (Action n) where
  init s := ∃ q, Constructed c.slots q ∧ s = .start n q
  step s e s' := s.act c e = some s'

/-- The gateway can read everything that was posted, by its own steps. -/
def Deliverable (s : State n) : Prop :=
  ∃ (es : List QueueAction) (s' : State n),
    Machine.exec (State.act c) s (es.map .gateway) = some s' ∧
    s'.delivered.map Prod.fst = s.posted

/-- A worker starts a `write` only while no other one is inside, and does not give
up. -/
def Exclusive (s : State n) : Action n → Prop
  | .choose i => ∀ j, j ≠ i → (s.workers j).inside = false
  | .check i => ∀ src waiter slot, s.workers i = .chosen src waiter slot →
      (s.queue.slots slot).seq = s.queue.writeIdx ∨ waiter.next.1 = true
  | _ => True

instance (s : State n) (e : Action n) : Decidable (Exclusive s e) :=
  match e with
  | .choose i => inferInstanceAs (Decidable (∀ j, j ≠ i → (s.workers j).inside = false))
  | .check i =>
    match h : s.workers i with
    | .chosen _ waiter slot =>
      decidable_of_iff ((s.queue.slots slot).seq = s.queue.writeIdx ∨ waiter.next.1 = true)
        ⟨fun hor _ _ _ hw => by cases h.symm.trans hw; exact hor, fun hex => hex _ _ _ h⟩
    | .idle => isTrue fun _ _ _ hw => by cases h.symm.trans hw
    | .posting _ _ => isTrue fun _ _ _ hw => by cases h.symm.trans hw
    | .checked _ _ => isTrue fun _ _ _ hw => by cases h.symm.trans hw
    | .copied _ _ => isTrue fun _ _ _ hw => by cases h.symm.trans hw
    | .sized _ _ => isTrue fun _ _ _ hw => by cases h.symm.trans hw
    | .stored => isTrue fun _ _ _ hw => by cases h.symm.trans hw
  | .post _ _ => isTrue trivial
  | .copy _ => isTrue trivial
  | .storeSize _ => isTrue trivial
  | .storeSeq _ => isTrue trivial
  | .increment _ => isTrue trivial
  | .gateway _ => isTrue trivial

/-- One worker is never in its own way. -/
theorem exclusive_of_one (s : State 1) (i : Fin 1) : Exclusive s (.choose i) :=
  fun j hj => absurd (Subsingleton.elim j i) hj

/-! ### The gateway's steps and the writers -/

/-- The queue with another index for the next write, and another writer. -/
def reindex (q : QueueState) (writer : SequencedSPSC.Writer) (writeIdx : UInt64) : QueueState :=
  { q with queue := { q.queue with writeIdx := writeIdx }, writer := writer }

theorem act_frame {N : SlotCount} {size : ℕ} {e : QueueAction} {q q' : QueueState}
    (he : isRead size e = true) (h : q.act N e = some q') (w : SequencedSPSC.Writer) (x : UInt64) :
    (reindex q w x).act N e = some (reindex q' w x) ∧ q'.written = q.written ∧
      q'.queue.writeIdx = q.queue.writeIdx ∧ q'.writer = q.writer := by
  cases SequencedSPSC.step_of_act h with
  | beginWrite _ _ => cases he
  | failWrite _ _ => cases he
  | writeByte _ _ => cases he
  | storeSize _ => cases he
  | publish _ => cases he
  | beginRead hr hcan => exact ⟨if_pos ⟨hr, hcan⟩, rfl, rfl, rfl⟩
  | emptyRead hr hcan => exact ⟨if_pos ⟨hr, hcan⟩, rfl, rfl, rfl⟩
  | fits hr hle =>
    refine ⟨?_, rfl, rfl, rfl⟩
    simp only [QueueState.act, reindex, hr]
    exact if_pos hle
  | tooSmall hr hlt =>
    refine ⟨?_, rfl, rfl, rfl⟩
    simp only [QueueState.act, reindex, hr]
    exact if_pos hlt
  | loadSize hr =>
    refine ⟨?_, rfl, rfl, rfl⟩
    simp only [QueueState.act, reindex, hr]
    rfl
  | readByte hr hlt =>
    refine ⟨?_, rfl, rfl, rfl⟩
    simp only [QueueState.act, reindex, hr]
    exact if_pos hlt
  | giveBack hr =>
    refine ⟨?_, rfl, rfl, rfl⟩
    simp only [QueueState.act, reindex, hr]
    rfl
  | finish hr =>
    refine ⟨?_, rfl, rfl, rfl⟩
    simp only [QueueState.act, reindex, hr]

/-! ### One worker at a time -/

/-- What the program counter of the only worker inside `write` promises. -/
def WorkerOk (s : State n) : Worker → Prop
  | .idle => Fifo c.slots (s.view .idle)
  | .posting _ _ => Fifo c.slots (s.view .idle)
  | .chosen _ _ slot => slot = s.queue.writeSlot c.slots ∧ Fifo c.slots (s.view .idle)
  | .checked src slot => slot = s.queue.writeSlot c.slots ∧ Fifo c.slots (s.view (.copying src 0))
  | .copied src slot =>
    slot = s.queue.writeSlot c.slots ∧ Fifo c.slots (s.view (.copying src src.length))
  | .sized src slot => slot = s.queue.writeSlot c.slots ∧ Fifo c.slots (s.view (.sized src))
  | .stored => Fifo c.slots (reindex (s.view .idle) .idle (s.queue.writeIdx + 1))

/-- The status a worker is posting. -/
def Worker.src : Worker → Option (List UInt8)
  | .idle => none
  | .posting src _ => some src
  | .chosen src _ _ => some src
  | .checked src _ => some src
  | .copied src _ => some src
  | .sized src _ => some src
  | .stored => none

structure Inv (s : State n) : Prop where
  alone : ∀ i j, (s.workers i).inside = true → (s.workers j).inside = true → i = j
  quiet : (∀ j, (s.workers j).inside = false) → Fifo c.slots (s.view .idle)
  busy : ∀ i, (s.workers i).inside = true → WorkerOk c s (s.workers i)
  sized : ∀ i src, (s.workers i).src = some src → src.length = c.size
  posted : ∀ msg ∈ s.posted, msg.length = c.size
  dropped : s.dropped = []

variable {c}

theorem Inv.start {q : SequencedSPSC} (hq : Constructed c.slots q) : Inv c (.start n q) where
  alone i j hi := by cases hi
  quiet _ := by
    obtain ⟨fuel, slots, hslots, rfl⟩ := hq
    exact Fifo.start hslots
  busy i hi := by cases hi
  sized i src h := by cases h
  posted msg hmsg := absurd hmsg List.not_mem_nil
  dropped := rfl

namespace Inv

variable {s s' : State n} {i : Fin n}

/-- The others are not inside `write` if one is. -/
theorem others (h : Inv c s) (hi : (s.workers i).inside = true) (j : Fin n) (hj : j ≠ i) :
    (s.workers j).inside = false := by
  by_contra hc
  exact hj (h.alone j i (by simpa using hc) hi)

/-- The worker that may be inside moves. -/
theorem moved {w : Worker} (h : Inv c s)
    (hothers : ∀ j, j ≠ i → (s.workers j).inside = false)
    (hw : s'.workers = Function.update s.workers i w) (hok : WorkerOk c s' w)
    (hsrc : ∀ src, w.src = some src → (s.workers i).src = some src)
    (hposted : ∀ msg ∈ s'.posted, msg.length = c.size) (hdropped : s'.dropped = []) :
    Inv c s' := by
  have hself : s'.workers i = w := by rw [hw, Function.update_self]
  have hne : ∀ j, j ≠ i → s'.workers j = s.workers j := fun j hj => by
    rw [hw, Function.update_of_ne hj]
  -- nobody but this worker can be inside afterwards
  have hinside : ∀ j, (s'.workers j).inside = true → j = i := by
    intro j hj
    by_contra hji
    rw [hne j hji, hothers j hji] at hj
    cases hj
  refine ⟨fun j k hj hk => (hinside j hj).trans (hinside k hk).symm, fun hquiet => ?_,
    fun j hj => ?_, fun j src hj => ?_, hposted, hdropped⟩
  · have hi := hquiet i
    rw [hself] at hi
    cases w with
    | idle => exact hok
    | posting src waiter => exact hok
    | chosen src waiter slot => cases hi
    | checked src slot => cases hi
    | copied src slot => cases hi
    | sized src slot => cases hi
    | stored => cases hi
  · rw [hinside j hj, hself]
    exact hok
  · by_cases hji : j = i
    · rw [hji, hself] at hj
      exact h.sized i src (hsrc src hj)
    · rw [hne j hji] at hj
      exact h.sized j src hj

theorem post (h : Inv c s) {src : List UInt8} (hs : s.act c (.post i src) = some s') :
    Inv c s' := by
  simp only [State.act, Option.ite_none_right_eq_some, Option.some.injEq] at hs
  obtain ⟨⟨hidle, hsize⟩, rfl⟩ := hs
  have hinside : ∀ j, ((s.setWorker i (.posting src {})).workers j).inside =
      (s.workers j).inside := by
    intro j
    by_cases hj : j = i
    · rw [hj, State.setWorker_self, hidle]
      rfl
    · rw [State.setWorker_of_ne s hj]
  have hne : ∀ j, (s.workers j).inside = true →
      (s.setWorker i (.posting src {})).workers j = s.workers j := by
    intro j hj
    refine State.setWorker_of_ne s ?_ _
    rintro rfl
    rw [hidle] at hj
    cases hj
  refine ⟨fun j k hj hk => ?_, fun hquiet => ?_, fun j hj => ?_, fun j src' hj => ?_, h.posted,
    h.dropped⟩
  · exact h.alone j k ((hinside j).symm.trans hj) ((hinside k).symm.trans hk)
  · exact h.quiet fun j => (hinside j).symm.trans (hquiet j)
  · have hj' := (hinside j).symm.trans hj
    show WorkerOk c _ ((s.setWorker i (.posting src {})).workers j)
    rw [hne j hj']
    exact h.busy j hj'
  · change ((s.setWorker i (.posting src {})).workers j).src = some src' at hj
    by_cases hji : j = i
    · rw [hji, State.setWorker_self] at hj
      rw [← Option.some_inj.1 hj]
      exact hsize
    · rw [State.setWorker_of_ne s hji] at hj
      exact h.sized j src' hj

theorem choose (h : Inv c s) (hex : Exclusive s (.choose i))
    (hs : s.act c (.choose i) = some s') : Inv c s' := by
  simp only [State.act] at hs
  split at hs
  · next src waiter hw =>
    obtain rfl := Option.some_inj.1 hs
    refine h.moved hex rfl ⟨rfl, h.quiet fun j => ?_⟩ (fun src' hsrc => ?_) h.posted h.dropped
    · by_cases hj : j = i
      · rw [hj, hw]
        rfl
      · exact hex j hj
    · rw [hw]
      exact hsrc
  · cases hs

/-- What the program counter of a worker inside promises, and that it is alone. -/
theorem of_inside (h : Inv c s) {w : Worker} (hw : s.workers i = w) (hin : w.inside = true) :
    WorkerOk c s w ∧ ∀ j, j ≠ i → (s.workers j).inside = false := by
  rw [← hw] at hin ⊢
  exact ⟨h.busy i hin, h.others hin⟩

/-- The worker inside finds its slot free, or tries again. -/
theorem check (h : Inv c s) (hex : Exclusive s (.check i))
    (hs : s.act c (.check i) = some s') : Inv c s' := by
  simp only [State.act] at hs
  split at hs
  · next src waiter slot hw =>
    have hsrc : (s.workers i).src = some src := by
      rw [hw]
      rfl
    obtain ⟨⟨hslot, hfifo⟩, hothers⟩ := h.of_inside hw rfl
    split at hs
    · next hseq =>
      obtain rfl := Option.some_inj.1 hs
      rw [hslot] at hseq
      have hbegin : (s.view .idle).act c.slots (.beginWrite src) =
          some (s.view (.copying src 0)) :=
        if_pos ⟨rfl, le_of_eq_of_le (h.sized i src hsrc) c.fits, hseq⟩
      exact h.moved hothers rfl ⟨hslot, hfifo.act hbegin⟩ (fun _ h => hsrc.trans h) h.posted
        h.dropped
    · next hseq =>
      obtain rfl := Option.some_inj.1 hs
      -- a worker alone finds the queue full at worst, and the discipline lets it try again
      have hnext := (hex src waiter slot hw).resolve_left hseq
      have hretry : s.retry i src waiter = s.setWorker i (.posting src waiter.next.2) := by
        rw [State.retry, show waiter.next = (true, waiter.next.2) from Prod.ext hnext rfl]
      rw [hretry]
      exact h.moved hothers rfl hfifo (fun _ h => hsrc.trans h) h.posted h.dropped
  · cases hs

theorem copy (h : Inv c s) (hs : s.act c (.copy i) = some s') : Inv c s' := by
  simp only [State.act] at hs
  split at hs
  · next src slot hw =>
    obtain rfl := Option.some_inj.1 hs
    obtain ⟨⟨rfl, hfifo⟩, hothers⟩ := h.of_inside hw rfl
    obtain ⟨hlen, hroom, -, -⟩ := hfifo.writer
    have hcopied : Fifo c.slots { s.view (.copying src src.length) with
        queue := s.queue.modify (s.queue.writeSlot c.slots) fun sloth =>
          { sloth with data := fun k => src.getD k (sloth.data k) } } := by
      refine hfifo.touch (w := .copying src src.length) (by simp [State.view]) (fun _ => rfl)
        ⟨hlen, hroom, le_refl _, fun m b _ hb => ?_⟩
      show src.getD m _ = b
      rw [List.getD_eq_getElem?_getD, hb, Option.getD_some]
    refine h.moved hothers rfl ⟨rfl, hcopied⟩ (fun src' hsrc => ?_) h.posted h.dropped
    rw [hw]
    exact hsrc
  · cases hs

theorem storeSize (h : Inv c s) (hs : s.act c (.storeSize i) = some s') : Inv c s' := by
  simp only [State.act] at hs
  split at hs
  · next src slot hw =>
    obtain rfl := Option.some_inj.1 hs
    obtain ⟨⟨rfl, hfifo⟩, hothers⟩ := h.of_inside hw rfl
    refine h.moved hothers rfl ⟨rfl, hfifo.act (e := .storeSize) (if_pos rfl)⟩
      (fun src' hsrc => ?_) h.posted h.dropped
    rw [hw]
    exact hsrc
  · cases hs

/-- The status is there for the gateway as soon as its number is stored. -/
theorem storeSeq (h : Inv c s) (hs : s.act c (.storeSeq i) = some s') : Inv c s' := by
  simp only [State.act] at hs
  split at hs
  · next src slot hw =>
    obtain rfl := Option.some_inj.1 hs
    have hsize := h.sized i src (by rw [hw]; rfl)
    obtain ⟨⟨rfl, hfifo⟩, hothers⟩ := h.of_inside hw rfl
    refine h.moved hothers rfl (hfifo.publish rfl) (fun src' hsrc => by cases hsrc) ?_ h.dropped
    intro msg hmsg
    rcases List.mem_append.1 hmsg with hmsg | hmsg
    · exact h.posted msg hmsg
    · rw [List.mem_singleton.1 hmsg]
      exact hsize
  · cases hs

theorem increment (h : Inv c s) (hs : s.act c (.increment i) = some s') : Inv c s' := by
  simp only [State.act, Option.ite_none_right_eq_some, Option.some.injEq] at hs
  obtain ⟨hw, rfl⟩ := hs
  obtain ⟨hfifo, hothers⟩ := h.of_inside hw rfl
  exact h.moved hothers rfl hfifo (fun src' hsrc => by cases hsrc) h.posted h.dropped

/-- The gateway reads beside whatever a worker does. -/
theorem gateway (h : Inv c s) {e : QueueAction} (hs : s.act c (.gateway e) = some s') :
    Inv c s' := by
  simp only [State.act, Option.ite_none_right_eq_some, Option.map_eq_some_iff] at hs
  obtain ⟨hread, q, hq, rfl⟩ := hs
  obtain ⟨-, hposted, hidx, -⟩ := act_frame hread hq .idle 0
  change q.queue.writeIdx = s.queue.writeIdx at hidx
  -- the gateway does not look at the writer or at its index
  have hview : ∀ w x, Fifo c.slots (reindex (s.view .idle) w x) →
      Fifo c.slots (reindex ((s.ofView q).view .idle) w x) := by
    intro w x hfifo
    have hfifo' := hfifo.act (act_frame hread hq w x).1
    rw [reindex, hposted] at hfifo'
    exact hfifo'
  have hslot : (s.ofView q).queue.writeSlot c.slots = s.queue.writeSlot c.slots :=
    congrArg (fun x => (x &&& c.slots.mask).toNat) hidx
  have hsame : ∀ w, Fifo c.slots (s.view w) → Fifo c.slots ((s.ofView q).view w) := by
    intro w hfifo
    have hfifo' := hview w s.queue.writeIdx hfifo
    rw [← hidx] at hfifo'
    exact hfifo'
  refine ⟨h.alone, fun hquiet => hsame _ (h.quiet hquiet), fun j hj => ?_, h.sized, h.posted,
    h.dropped⟩
  have hok := h.busy j hj
  show WorkerOk c (s.ofView q) (s.workers j)
  cases hw : s.workers j with
  | idle =>
    rw [hw] at hok
    exact hsame _ hok
  | posting src waiter =>
    rw [hw] at hok
    exact hsame _ hok
  | chosen src waiter slot =>
    rw [hw] at hok
    exact ⟨hok.1.trans hslot.symm, hsame _ hok.2⟩
  | checked src slot =>
    rw [hw] at hok
    exact ⟨hok.1.trans hslot.symm, hsame _ hok.2⟩
  | copied src slot =>
    rw [hw] at hok
    exact ⟨hok.1.trans hslot.symm, hsame _ hok.2⟩
  | sized src slot =>
    rw [hw] at hok
    exact ⟨hok.1.trans hslot.symm, hsame _ hok.2⟩
  | stored =>
    rw [hw] at hok
    have hok' := hview _ _ hok
    rw [← hidx] at hok'
    exact hok'

theorem act (h : Inv c s) {e : Action n} (hex : Exclusive s e) (hs : s.act c e = some s') :
    Inv c s' := by
  cases e with
  | post i src => exact h.post hs
  | choose i => exact h.choose hex hs
  | check i => exact h.check hex hs
  | copy i => exact h.copy hs
  | storeSize i => exact h.storeSize hs
  | storeSeq i => exact h.storeSeq hs
  | increment i => exact h.increment hs
  | gateway e => exact h.gateway hs

theorem run {es : List (Action n)} (h : ((statusQueue c n).restrict Exclusive).Run es s) :
    Inv c s := by
  refine h.invariant ?_ ?_
  · rintro s ⟨q, hq, rfl⟩
    exact Inv.start hq
  · intro s e s' hI hs
    exact hI.act hs.1 hs.2

/-- For the gateway the queue is that of one writer, whatever the worker inside has
done so far. -/
theorem exists_fifo (h : Inv c s) : ∃ x, Fifo c.slots (reindex (s.view .idle) .idle x) := by
  by_cases hin : ∃ i, (s.workers i).inside = true
  · obtain ⟨i, hi⟩ := hin
    have hok := h.busy i hi
    -- only after the number is stored the index lags behind, by one
    cases hw : s.workers i with
    | idle =>
      rw [hw] at hi
      cases hi
    | posting src waiter =>
      rw [hw] at hi
      cases hi
    | chosen src waiter slot =>
      rw [hw] at hok
      exact ⟨_, hok.2⟩
    | checked src slot =>
      rw [hw] at hok
      exact ⟨_, { hok.2 with writer := trivial }⟩
    | copied src slot =>
      rw [hw] at hok
      exact ⟨_, { hok.2 with writer := trivial }⟩
    | sized src slot =>
      rw [hw] at hok
      exact ⟨_, { hok.2 with writer := trivial }⟩
    | stored =>
      rw [hw] at hok
      exact ⟨_, hok⟩
  · exact ⟨_, h.quiet fun j => by simpa using fun hj => hin ⟨j, hj⟩⟩

end Inv

/-! ### Reading everything -/

/-- What the gateway's steps need: the queue of one writer, and messages of one
size. -/
structure Readable (N : SlotCount) (size : ℕ) (q : QueueState) : Prop where
  fifo : ∃ x, Fifo N (reindex q .idle x)
  sizes : ∀ msg ∈ q.written, msg.length = size

/-- How far a `read` is from giving its slot back. -/
def rank (size : ℕ) : Reader → ℕ
  | .idle => size + 4
  | .checked maxSize => if size ≤ maxSize then size + 3 else size + 5
  | .sized => size + 2
  | .copying _ dst => size - dst.length + 1
  | .handedBack _ _ => 0

/-- How much is left to read. -/
def unread (size : ℕ) (q : QueueState) : ℕ :=
  (q.written.length - q.delivered.length) * (size + 8) + rank size q.reader

namespace Readable

variable {N : SlotCount} {size : ℕ} {q q' : QueueState}

theorem act (h : Readable N size q) {e : QueueAction} (he : isRead size e = true)
    (hq : q.act N e = some q') : Readable N size q' := by
  obtain ⟨x, hfifo⟩ := h.fifo
  obtain ⟨hact, hwritten, -, -⟩ := act_frame he hq .idle x
  refine ⟨⟨x, hfifo.act hact⟩, ?_⟩
  rw [hwritten]
  exact h.sizes

/-- The next message has the size of a status. -/
theorem oldest_size (h : Readable N size q) (hlt : q.givenBack.length < q.written.length) :
    (q.queue.slots (q.queue.readSlot N)).size = size := by
  obtain ⟨x, hfifo⟩ := h.fifo
  have hmsg := List.getElem?_eq_getElem hlt
  rw [← h.sizes _ (List.getElem_mem hlt)]
  exact (hfifo.oldest hmsg).size

theorem progress (h : Readable N size q) (hne : q.delivered.map Prod.fst ≠ q.written) :
    ∃ e q', isRead size e = true ∧ q.act N e = some q' ∧ unread size q' < unread size q := by
  obtain ⟨x, hfifo⟩ := h.fifo
  have hreader : ReaderOk q.givenBack.length q.written q.reader := hfifo.reader
  have hdelivered : q.delivered.map Prod.fst ++ q.reader.pending = q.givenBack :=
    hfifo.delivered
  cases hr : q.reader with
  | idle =>
    rw [hr] at hdelivered
    have hback : q.givenBack ≠ q.written := by
      rw [← hdelivered]
      change q.delivered.map Prod.fst ++ [] ≠ q.written
      rw [List.append_nil]
      exact hne
    -- something was written that has not been given back
    have hlt : q.givenBack.length < q.written.length :=
      Nat.lt_of_le_of_ne hfifo.inOrder.length_le fun hlen =>
        hback (hfifo.inOrder.eq_of_length hlen)
    refine ⟨.beginRead size, _, decide_eq_true rfl, if_pos ⟨hr, hfifo.canRead_iff.2 hlt⟩, ?_⟩
    simp [unread, rank, hr]
  | checked maxSize =>
    rw [hr] at hreader
    have hsize := h.oldest_size hreader
    by_cases hle : size ≤ maxSize
    · refine ⟨.fits, { q with reader := .sized }, rfl, ?_, ?_⟩
      · simp [QueueState.act, hr, hsize, hle]
      · simp [unread, rank, hr, hle]
    · refine ⟨.tooSmall, { q with reader := .idle }, rfl, ?_, ?_⟩
      · simp [QueueState.act, hr, hsize, Nat.not_le.1 hle]
      · simp [unread, rank, hr, hle]
  | sized =>
    rw [hr] at hreader
    refine ⟨.loadSize, _, rfl, by simp only [QueueState.act, hr]; rfl, ?_⟩
    simp [unread, rank, hr]
  | copying k dst =>
    rw [hr] at hreader
    obtain ⟨msg, hmsg, hk, hdst⟩ := hreader
    have hsize : k = size := hk.trans (h.sizes msg (List.mem_of_getElem? hmsg))
    have hlen := hdst.length_le
    by_cases hlt : dst.length < k
    · refine ⟨.readByte, _, rfl, by simp only [QueueState.act, hr]; exact if_pos hlt, ?_⟩
      simp [unread, rank, hr]
      omega
    · have heq : dst.length = k := by omega
      refine ⟨.giveBack, _, rfl, by simp only [QueueState.act, hr]; exact if_pos heq, ?_⟩
      simp [unread, rank, hr]
  | handedBack slot dst =>
    refine ⟨.finish, _, rfl, by simp only [QueueState.act, hr]; rfl, ?_⟩
    -- the message handed back is one of those not delivered yet
    have hlt : q.delivered.length < q.written.length := by
      have hle := hfifo.inOrder.length_le
      change q.givenBack.length ≤ q.written.length at hle
      rw [← hdelivered, hr, Reader.pending, List.length_append, List.length_map] at hle
      exact hle
    have hrest : q.written.length - q.delivered.length =
        q.written.length - (q.delivered.length + 1) + 1 := by
      omega
    simp only [unread, rank, hr, List.length_append, List.length_singleton]
    -- a new round costs less than the message that is done with
    rw [hrest, Nat.add_mul]
    omega

/-- The gateway reads whatever is there. -/
theorem drain (h : Readable N size q) :
    ∃ es q', (∀ e ∈ es, isRead size e = true) ∧
      Machine.exec (QueueState.act N) q es = some q' ∧ q'.delivered.map Prod.fst = q.written := by
  induction hk : unread size q using Nat.strong_induction_on generalizing q with
  | _ k ih =>
    by_cases hdone : q.delivered.map Prod.fst = q.written
    · exact ⟨[], q, fun e he => absurd he List.not_mem_nil, rfl, hdone⟩
    · obtain ⟨e, q₁, he, hact, hlt⟩ := h.progress hdone
      obtain ⟨es, q', hes, hexec, hall⟩ := ih _ (hk ▸ hlt) (h.act he hact) rfl
      refine ⟨e :: es, q', List.forall_mem_cons.2 ⟨he, hes⟩, ?_, ?_⟩
      · rw [Machine.exec, hact]
        exact hexec
      · rw [hall, (act_frame he hact .idle 0).2.1]

end Readable

/-- The gateway's steps are those of the reader of one queue. -/
theorem exec_gateway {s : State n} {es : List QueueAction} {q : QueueState}
    (hread : ∀ e ∈ es, isRead c.size e = true)
    (h : Machine.exec (QueueState.act c.slots) (s.view .idle) es = some q) :
    Machine.exec (State.act c) s (es.map .gateway) = some (s.ofView q) := by
  induction es generalizing s with
  | nil =>
    rw [Machine.exec, Option.some_inj] at h
    rw [← h]
    rfl
  | cons e es ih =>
    rw [Machine.exec, Option.bind_eq_some_iff] at h
    obtain ⟨q₁, hact, hexec⟩ := h
    obtain ⟨he, hes⟩ := List.forall_mem_cons.1 hread
    obtain ⟨-, hposted, -, hwriter⟩ := act_frame he hact .idle 0
    have hview : (s.ofView q₁).view .idle = q₁ := by
      obtain ⟨queue, writer, reader, written, givenBack, delivered⟩ := q₁
      change written = s.posted at hposted
      change writer = .idle at hwriter
      rw [hposted, hwriter]
      rfl
    rw [List.map_cons, Machine.exec, State.act, if_pos he, hact]
    exact ih hes (by rw [hview]; exact hexec)

/-! ### Where the statuses are -/

/-- The status a worker has not published yet. -/
def Worker.held (w : Worker) : Multiset (List UInt8) := ↑w.src.toList

theorem sum_held_setWorker (s : State n) (i : Fin n) (w : Worker) :
    ∑ j, ((s.setWorker i w).workers j).held + (s.workers i).held =
      ∑ j, (s.workers j).held + w.held := by
  have hset : (fun j => ((s.setWorker i w).workers j).held) =
      Function.update (fun j => (s.workers j).held) i w.held :=
    Function.comp_update Worker.held s.workers i w
  have hsum := congrArg (fun f : Fin n → Multiset (List UInt8) => ∑ j, f j) hset
  rw [hsum, Finset.sum_update_of_mem (Finset.mem_univ i), add_assoc,
    ← Finset.sum_eq_sum_sdiff_singleton_add (Finset.mem_univ i) fun j => (s.workers j).held]
  exact add_comm _ _

/-- Every status a worker was given is published, dropped, or still held. -/
def Accounted (s : State n) : Prop :=
  (s.called : Multiset (List UInt8)) = s.posted + s.dropped + ∑ j, (s.workers j).held

namespace Accounted

variable {s s' : State n} {i : Fin n}

theorem start (q : SequencedSPSC) : Accounted (.start n q) := by
  simp [Accounted, State.start, Worker.held, Worker.src]

/-- A worker that still holds its status moves. -/
theorem setWorker (h : Accounted s) {w : Worker} (hsrc : w.src = (s.workers i).src) :
    Accounted (s.setWorker i w) := by
  have hheld : w.held = (s.workers i).held := by
    rw [Worker.held, hsrc, Worker.held]
  have hsum := sum_held_setWorker s i w
  rw [hheld] at hsum
  show (s.called : Multiset (List UInt8)) = s.posted + s.dropped + _
  rw [add_right_cancel hsum]
  exact h

/-- A worker lets go of its status, which is published or dropped. -/
theorem letGo (h : Accounted s) {w : Worker} {src : List UInt8}
    (hsrc : (s.workers i).src = some src) (hw : w.src = none) :
    (s.called : Multiset (List UInt8)) =
      s.posted + s.dropped + {src} + ∑ j, ((s.setWorker i w).workers j).held := by
  have hsum := sum_held_setWorker s i w
  have hheld : (s.workers i).held = {src} := by
    rw [Worker.held, hsrc]
    rfl
  have hnone : w.held = 0 := by
    rw [Worker.held, hw]
    rfl
  rw [hheld, hnone, add_zero] at hsum
  rw [h, ← hsum, ← add_assoc, add_right_comm]

theorem act (h : Accounted s) {e : Action n} (hs : s.act c e = some s') : Accounted s' := by
  cases e with
  | post i src =>
    simp only [State.act, Option.ite_none_right_eq_some, Option.some.injEq] at hs
    obtain ⟨⟨hidle, -⟩, rfl⟩ := hs
    have hsum := sum_held_setWorker s i (.posting src {})
    rw [hidle] at hsum
    show (↑(s.called ++ [src]) : Multiset (List UInt8)) = s.posted + s.dropped +
      ∑ j, ((s.setWorker i (.posting src {})).workers j).held
    rw [← add_zero (∑ j, ((s.setWorker i _).workers j).held)]
    refine Eq.trans ?_ (congrArg _ hsum).symm
    rw [← Multiset.coe_add, h]
    exact add_assoc _ _ _
  | choose i =>
    simp only [State.act] at hs
    split at hs
    · next src waiter hw =>
      obtain rfl := Option.some_inj.1 hs
      exact h.setWorker (by rw [hw]; rfl)
    · cases hs
  | check i =>
    simp only [State.act] at hs
    split at hs
    · next src waiter slot hw =>
      have hsrc : (s.workers i).src = some src := by
        rw [hw]
        rfl
      split at hs
      · obtain rfl := Option.some_inj.1 hs
        exact h.setWorker hsrc.symm
      · obtain rfl := Option.some_inj.1 hs
        rw [State.retry]
        split
        · exact h.setWorker hsrc.symm
        · show (s.called : Multiset (List UInt8)) = s.posted + ↑(s.dropped ++ [src]) + _
          rw [h.letGo hsrc (w := .idle) rfl, ← Multiset.coe_add, ← add_assoc]
          rfl
    · cases hs
  | copy i =>
    simp only [State.act] at hs
    split at hs
    · next src slot hw =>
      obtain rfl := Option.some_inj.1 hs
      exact h.setWorker (i := i) (w := .copied src slot) (by rw [hw]; rfl)
    · cases hs
  | storeSize i =>
    simp only [State.act] at hs
    split at hs
    · next src slot hw =>
      obtain rfl := Option.some_inj.1 hs
      exact h.setWorker (i := i) (w := .sized src slot) (by rw [hw]; rfl)
    · cases hs
  | storeSeq i =>
    simp only [State.act] at hs
    split at hs
    · next src slot hw =>
      obtain rfl := Option.some_inj.1 hs
      show (s.called : Multiset (List UInt8)) = ↑(s.posted ++ [src]) + s.dropped + _
      have hsrc : (s.workers i).src = some src := by
        rw [hw]
        rfl
      rw [h.letGo (w := .stored) hsrc rfl,
        ← Multiset.coe_add, add_right_comm (s.posted : Multiset (List UInt8))]
      rfl
    · cases hs
  | increment i =>
    simp only [State.act, Option.ite_none_right_eq_some, Option.some.injEq] at hs
    obtain ⟨hw, rfl⟩ := hs
    exact h.setWorker (i := i) (w := .idle) (by rw [hw]; rfl)
  | gateway e =>
    simp only [State.act, Option.ite_none_right_eq_some, Option.map_eq_some_iff] at hs
    obtain ⟨-, q, -, rfl⟩ := hs
    exact h

theorem run {es : List (Action n)} (h : (statusQueue c n).Run es s) : Accounted s := by
  refine h.invariant ?_ ?_
  · rintro s ⟨q, -, rfl⟩
    exact Accounted.start q
  · intro s e s' hI hs
    exact hI.act hs

end Accounted

/-! ### Every interleaving -/

theorem Inv.deliverable {s : State n} (h : Inv c s) : Deliverable c s := by
  have hreadable : Readable c.slots c.size (s.view .idle) := ⟨h.exists_fifo, h.posted⟩
  obtain ⟨es, q, hes, hexec, hall⟩ := hreadable.drain
  exact ⟨es, _, exec_gateway hes hexec, hall⟩

/-- In every state of every interleaving of any number of workers and the gateway,
as long as a worker starts a `write` only while no other one is inside and none
gives up: every status `post` was called with is published or still held by its
worker, what the gateway has delivered is what was published, in order, and it can
always read the rest. -/
theorem statuses_delivered {es : List (Action n)} {s : State n}
    (h : ((statusQueue c n).restrict Exclusive).Run es s) :
    (s.called : Multiset (List UInt8)) = s.posted + ∑ j, (s.workers j).held ∧
    s.delivered.map Prod.fst <+: s.posted ∧ Deliverable c s := by
  have hI := Inv.run h
  have hcalled := Accounted.run h.of_restrict
  rw [Accounted, hI.dropped, Multiset.coe_nil, add_zero] at hcalled
  refine ⟨hcalled, ?_, hI.deliverable⟩
  obtain ⟨x, hfifo⟩ := hI.exists_fifo
  have hpre : s.delivered.map Prod.fst <+: s.givenBack := ⟨_, hfifo.delivered⟩
  exact hpre.trans hfifo.inOrder

/-- `LFQ_CAPACITY` slots for statuses of twenty bytes. -/
def gatewayQueue : Config := ⟨.standard, 20, by decide⟩

/-- Worker `i` writes a status, alone. -/
def writeAll (i : Fin n) (src : List UInt8) : List (Action n) :=
  [.post i src, .choose i, .check i, .copy i, .storeSize i, .storeSeq i, .increment i]

/-- What the constructor leaves in the first slot. -/
theorem exists_start : ∃ slots : ℕ → Sloth, (slots 0).seq = 0 ∧
    (statusQueue gatewayQueue n).init (.start n ⟨slots, 0, 0⟩) := by
  obtain ⟨q, fuel, slots, hslots, hq⟩ :=
    SequencedSPSC.exists_constructed (N := gatewayQueue.slots) (by decide)
  have hseq := SequencedSPSC.construct_spec (fun j hj => absurd hj (by simp)) hslots
  exact ⟨slots, hseq.2 0 gatewayQueue.slots.val_pos, _, ⟨fuel, slots, hslots, rfl⟩, rfl⟩

theorem exec_writeAll {slots : ℕ → Sloth} (h0 : (slots 0).seq = 0) {src : List UInt8}
    (hsrc : src.length = 20) :
    ∃ s, Machine.exec (Machine.guarded Exclusive (State.act gatewayQueue))
      (.start 2 ⟨slots, 0, 0⟩) (writeAll 0 src) = some s ∧ s.posted = [src] := by
  simp [writeAll, Machine.exec, Machine.guarded, Exclusive, State.act, State.start,
    State.setWorker, SequencedSPSC.modify, SequencedSPSC.writeSlot, gatewayQueue, h0, hsrc,
    Fin.forall_fin_two, Worker.inside]

/-- One of two workers has written while the other did nothing. -/
theorem statuses_delivered_alone : ∃ es s,
    ((statusQueue gatewayQueue 2).restrict Exclusive).Run es s ∧
    s.posted = [List.replicate 20 1] ∧
    (s.called : Multiset (List UInt8)) = s.posted + ∑ j, (s.workers j).held ∧
    s.delivered.map Prod.fst <+: s.posted ∧ Deliverable gatewayQueue s := by
  obtain ⟨slots, h0, hinit⟩ := exists_start (n := 2)
  obtain ⟨s, hs, hposted⟩ := exec_writeAll h0 (List.length_replicate (n := 20) (a := 1))
  have h0' : ((statusQueue gatewayQueue 2).restrict Exclusive).init (.start 2 ⟨slots, 0, 0⟩) :=
    hinit
  have hrun := (Machine.Run.start h0').exec
    (fun h => Machine.restrict_step_of_guarded (M := statusQueue gatewayQueue 2) (fun h => h) h) hs
  exact ⟨_, s, hrun, hposted, statuses_delivered hrun⟩

/-! ### Two workers -/

/-- A gateway that finds nothing at its index does not move. -/
theorem exec_gateway_stuck {s s' : State n} {es : List QueueAction} (hr : s.reader = .idle)
    (hcan : ¬ canRead c.slots s.queue)
    (h : Machine.exec (State.act c) s (es.map .gateway) = some s') : s' = s := by
  induction es with
  | nil => exact (Option.some_inj.1 h).symm
  | cons e es ih =>
    rw [List.map_cons, Machine.exec, Option.bind_eq_some_iff] at h
    obtain ⟨s₁, hact, hexec⟩ := h
    simp only [State.act, Option.ite_none_right_eq_some, Option.map_eq_some_iff] at hact
    obtain ⟨hread, q, hq, rfl⟩ := hact
    -- only the look at an empty slot is allowed, and it changes nothing
    suffices hs : s.ofView q = s by
      rw [hs] at hexec
      exact ih hexec
    cases SequencedSPSC.step_of_act hq with
    | beginWrite _ _ => cases hread
    | failWrite _ _ => cases hread
    | writeByte _ _ => cases hread
    | storeSize _ => cases hread
    | publish _ => cases hread
    | beginRead _ hc => exact absurd hc hcan
    | emptyRead _ _ => rfl
    | fits hr' _ => exact absurd (hr.symm.trans hr') Reader.noConfusion
    | tooSmall hr' _ => exact absurd (hr.symm.trans hr') Reader.noConfusion
    | loadSize hr' => exact absurd (hr.symm.trans hr') Reader.noConfusion
    | readByte hr' _ => exact absurd (hr.symm.trans hr') Reader.noConfusion
    | giveBack hr' => exact absurd (hr.symm.trans hr') Reader.noConfusion
    | finish hr' => exact absurd (hr.symm.trans hr') Reader.noConfusion

/-- Two workers choose the first slot and find it free. -/
def checkBoth (a b : List UInt8) : List (Action 2) :=
  [.post 0 a, .post 1 b, .choose 0, .choose 1, .check 0, .check 1]

/-- Each of them writes its status there. -/
def writeBoth : List (Action 2) :=
  [.copy 0, .copy 1, .storeSize 0, .storeSize 1, .storeSeq 0, .increment 0, .storeSeq 1,
    .increment 1]

theorem exec_checkBoth {slots : ℕ → Sloth} (h0 : (slots 0).seq = 0) {a b : List UInt8}
    (ha : a.length = 20) (hb : b.length = 20) :
    ∃ s, Machine.exec (State.act gatewayQueue) (.start 2 ⟨slots, 0, 0⟩) (checkBoth a b) = some s ∧
      s.queue = ⟨slots, 0, 0⟩ ∧ s.workers 0 = .checked a 0 ∧ s.workers 1 = .checked b 0 ∧
      s.reader = .idle ∧ s.posted = [] ∧ s.delivered = [] := by
  simp [checkBoth, Machine.exec, State.act, State.start, State.setWorker,
    SequencedSPSC.writeSlot, gatewayQueue, h0, ha, hb]

theorem exec_writeBoth {s : State 2} {slots : ℕ → Sloth} {a b : List UInt8}
    (hq : s.queue = ⟨slots, 0, 0⟩) (h0 : s.workers 0 = .checked a 0)
    (h1 : s.workers 1 = .checked b 0) :
    ∃ s', Machine.exec (State.act gatewayQueue) s writeBoth = some s' ∧
      (∀ j, s'.workers j = .idle) ∧ s'.reader = s.reader ∧ s'.posted = s.posted ++ [a, b] ∧
      s'.delivered = s.delivered ∧ (s'.queue.slots 0).seq = 2 ∧ s'.queue.readIdx = 0 := by
  simp [writeBoth, Machine.exec, State.act, State.setWorker, SequencedSPSC.modify, hq, h0, h1,
    Fin.forall_fin_two]

/-- Two workers that have checked the same slot: the second overwrites the first
one's status and stores the number of the next lap position, which the gateway
does not expect.  Both calls have returned, and nothing will be read any more. -/
theorem statuses_lost : ∃ es s, (statusQueue gatewayQueue 2).Run es s ∧
    (∀ j, s.workers j = .idle) ∧ s.posted = [List.replicate 20 1, List.replicate 20 2] ∧
    s.delivered = [] ∧ ¬ Deliverable gatewayQueue s := by
  obtain ⟨slots, h0, hinit⟩ := exists_start (n := 2)
  obtain ⟨s₁, hs₁, hq, hw0, hw1, hreader₁, hposted₁, hdelivered₁⟩ :=
    exec_checkBoth h0 (List.length_replicate (n := 20) (a := 1))
      (List.length_replicate (n := 20) (a := 2))
  obtain ⟨s, hs, hidle, hreader, hposted, hdelivered, hseq, hidx⟩ := exec_writeBoth hq hw0 hw1
  rw [hreader₁] at hreader
  rw [hposted₁, List.nil_append] at hposted
  rw [hdelivered₁] at hdelivered
  have hrun₁ := (Machine.Run.start hinit).exec (fun h => h) hs₁
  refine ⟨_, s, hrun₁.exec (fun h => h) hs, hidle, hposted, hdelivered, ?_⟩
  rintro ⟨es, s', hexec, hall⟩
  have hcan : ¬ canRead gatewayQueue.slots s.queue := by
    rw [canRead, SequencedSPSC.readSlot, hidx, UInt64.zero_and, UInt64.toNat_zero, hseq]
    decide
  rw [exec_gateway_stuck hreader hcan hexec, hdelivered, hposted] at hall
  cases hall

end StatusQueue
