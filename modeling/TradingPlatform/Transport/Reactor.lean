/-
The reactor and its readers (`common/src/transport/shm/shm_reactor.cpp`,
`shm_reader.cpp`).

Readers register with the reactor before it runs.  Its thread goes over them again and
again and polls each: an active reader takes a message from its queue and hands it to
its callback, and a reader that was closed is removed from the list by putting the last
one in its place.  Writers write, readers are closed, and a stop is requested, by other
threads at any time; `close` loads the state of the reader and stores it in two steps,
and `poll` loads it before it acts on it.

* `ShmReactor.act` — the steps of the reactor's thread and of the others;
* `Polls` — where the thread is in a pass, in terms of `Pass`;
* `received_in_order` — what a reader's callback gets is what was written to its queue,
  in order;
* `polls_every_reader` — every pass polls every reader in the list once, readers that
  are not closed stay in it, and the thread ends only when a stop was requested or every
  reader was closed.

`queue.write` and `queue.read` are one step each, and `wait` ends at any time; when it
must, and when the writer wakes the thread, is the subject of `Transport/Shm.lean`.
`ShmReactor::stop` is left out: it clears the list under the thread that goes over it.
-/
import TradingPlatform.Lib.SwapRemove
import TradingPlatform.Transport.Shm
import Mathlib.Data.List.Nodup

open scoped List
open SequencedSPSC (Contains Constructed canRead)

/-- `ShmReader::State`. -/
inductive ReaderState
  | Ready
  | Active
  | Closing
  | Closed
deriving DecidableEq, Repr

/-- The reader was not closed. -/
def ReaderState.isOpen : ReaderState → Bool
  | .Ready => true
  | .Active => true
  | .Closing => false
  | .Closed => false

/-- `ShmReader`, and the queue it reads from.  `closers` are the calls of `close` that
have found it open; `written` and `received` are history: what was written to the queue,
and what the callback was called with. -/
structure ShmReader where
  queue : SequencedSPSC
  state : ReaderState
  bufSize : ℕ
  closers : ℕ
  written : List (List UInt8)
  received : List (List UInt8)

/-- Where the reactor's thread is in `run` and `loop`.  `fault` is an access to the first
of no readers. -/
inductive LoopPc
  | idle
  | entered
  | top
  | next (i : ℕ) (busy : Bool)
  | loaded (i : ℕ) (busy : Bool) (state : ReaderState)
  | after (busy : Bool)
  | waiting (reader : ℕ)
  | returned
  | fault
deriving DecidableEq, Repr

/-- The reactor, its readers by number, and the stop token.  The last fields are history:
the readers that were registered, those that have vanished, and for the pass that is under
way the readers it began with, those it has polled and those that have vanished in it. -/
structure ShmReactor where
  shm : ℕ → ShmReader
  readers : List ℕ
  started : Bool
  stopRequested : Bool
  waiter : SpinWait
  loop : LoopPc
  registered : List ℕ
  vanished : List ℕ
  pass : List ℕ
  polled : List ℕ
  dropped : List ℕ

/-- The steps.  `step` is one of the reactor's thread. -/
inductive ReactorAction
  | asyncRx (r bufSize : ℕ)
  | run
  | step
  | write (r : ℕ) (src : List UInt8)
  | closeLoad (r : ℕ)
  | closeStore (r : ℕ)
  | requestStop
deriving DecidableEq, Repr

namespace ShmReactor

/-- A reactor without readers, and queues that are new. -/
def start (q : SequencedSPSC) : ShmReactor where
  shm := fun _ => ⟨q, .Ready, 0, 0, [], []⟩
  readers := []
  started := false
  stopRequested := false
  waiter := { cap := spinRetriesWarm }
  loop := .idle
  registered := []
  vanished := []
  pass := []
  polled := []
  dropped := []

def setReader (s : ShmReactor) (r : ℕ) (rdr : ShmReader) : ShmReactor :=
  { s with shm := Function.update s.shm r rdr }

/-- `add`. -/
def add (s : ShmReactor) (r : ℕ) : ShmReactor :=
  if s.started then s
  else { s with readers := s.readers ++ [r], registered := s.registered ++ [r] }

/-- `ShmReader::asyncRx`. -/
def asyncRx (s : ShmReactor) (r bufSize : ℕ) : ShmReactor :=
  if (s.shm r).state ≠ .Ready then s
  else (s.setReader r { s.shm r with state := .Active, bufSize := bufSize }).add r

/-- The reader at `i` has vanished. -/
def vanish (s : ShmReactor) (i : ℕ) (r : ℕ) (busy : Bool) : ShmReactor :=
  let readers := swapRemove s.readers i
  { s with
    readers := readers
    polled := s.polled ++ [r]
    dropped := s.dropped ++ [r]
    vanished := s.vanished ++ [r]
    -- `--i` and the `++i` of the loop: the same position again
    loop := if readers = [] then .returned else .next i busy }

/-- `poll` of the reader at `i`, after it has loaded its state. -/
def poll (s : ShmReactor) (i : ℕ) (r : ℕ) (busy : Bool) : ReaderState → ShmReactor
  | .Ready => { s with polled := s.polled ++ [r], loop := .next (i + 1) busy }
  | .Active =>
    let rdr := s.shm r
    match rdr.queue.read Shm.slotCount rdr.bufSize with
    | some (bytes, queue) =>
      if bytes ≠ [] then
        { s.setReader r { rdr with queue := queue, received := rdr.received ++ [bytes] } with
          polled := s.polled ++ [r]
          loop := .next (i + 1) true }
      else
        { s.setReader r { rdr with queue := queue } with
          polled := s.polled ++ [r]
          loop := .next (i + 1) busy }
    | none => { s with polled := s.polled ++ [r], loop := .next (i + 1) busy }
  | .Closing => (s.setReader r { s.shm r with state := .Closed }).vanish i r busy
  | .Closed => s.vanish i r busy

/-- The end of the body of `while`. -/
def endPass (s : ShmReactor) (busy : Bool) : ShmReactor :=
  if busy then { s with waiter := s.waiter.reset, loop := .top }
  else
    match s.waiter.next with
    | (true, waiter) => { s with waiter := waiter, loop := .top }
    | (false, waiter) =>
      match s.readers with
      | r :: _ => { s with waiter := waiter, loop := .waiting r }
      | [] => { s with loop := .fault }

/-- One step of the reactor's thread. -/
def step (s : ShmReactor) : Option ShmReactor :=
  match s.loop with
  | .entered =>
    some { s with
      waiter := { cap := spinRetriesWarm }
      loop := if s.readers = [] then .returned else .top }
  | .top =>
    if s.stopRequested then some { s with loop := .returned }
    else some { s with pass := s.readers, polled := [], dropped := [], loop := .next 0 false }
  | .next i busy =>
    match s.readers[i]? with
    | some r =>
      if s.stopRequested then some { s with loop := .after busy }
      else some { s with loop := .loaded i busy (s.shm r).state }
    | none => some { s with loop := .after busy }
  | .loaded i busy state =>
    match s.readers[i]? with
    | some r => some (s.poll i r busy state)
    | none => some { s with loop := .fault }
  | .after busy => some (s.endPass busy)
  | .waiting _ => some { s with waiter := s.waiter.reset, loop := .top }
  | .idle => none
  | .returned => none
  | .fault => none

def act (s : ShmReactor) : ReactorAction → Option ShmReactor
  | .asyncRx r bufSize => some (s.asyncRx r bufSize)
  | .run => if s.started then none else some { s with started := true, loop := .entered }
  | .step => s.step
  | .write r src =>
    ((s.shm r).queue.write Shm.slotCount src).map fun queue =>
      s.setReader r { s.shm r with queue := queue, written := (s.shm r).written ++ [src] }
  | .closeLoad r =>
    if (s.shm r).state = .Ready ∨ (s.shm r).state = .Active then
      some (s.setReader r { s.shm r with closers := (s.shm r).closers + 1 })
    else none
  | .closeStore r =>
    if 0 < (s.shm r).closers then
      some (s.setReader r
        { s.shm r with state := .Closing, closers := (s.shm r).closers - 1 })
    else none
  | .requestStop => some { s with stopRequested := true }

end ShmReactor

/-- Every order of the steps of the threads. -/
def shmReactor : Machine ShmReactor ReactorAction where
  init s := ∃ q, Constructed Shm.slotCount q ∧ s = .start q
  step s a s' := s.act a = some s'

namespace ShmReactor

variable {s s' : ShmReactor} {r i : ℕ} {busy : Bool}

/-! ### What the reactor's thread can do -/

/-- One step of the thread, by where it is. -/
inductive LoopMove (s : ShmReactor) : ShmReactor → Prop
  | enter (hl : s.loop = .entered) : LoopMove s { s with
      waiter := { cap := spinRetriesWarm }
      loop := if s.readers = [] then .returned else .top }
  | stop (hl : s.loop = .top) (hstop : s.stopRequested = true) :
      LoopMove s { s with loop := .returned }
  | begin (hl : s.loop = .top) (hstop : s.stopRequested = false) : LoopMove s
      { s with pass := s.readers, polled := [], dropped := [], loop := .next 0 false }
  | stopPass {i : ℕ} {busy : Bool} (hl : s.loop = .next i busy) (hstop : s.stopRequested = true) :
      LoopMove s { s with loop := .after busy }
  | load {i r : ℕ} {busy : Bool} (hl : s.loop = .next i busy) (hr : s.readers[i]? = some r) :
      LoopMove s { s with loop := .loaded i busy (s.shm r).state }
  | endList {i : ℕ} {busy : Bool} (hl : s.loop = .next i busy) (hi : s.readers.length ≤ i) :
      LoopMove s { s with loop := .after busy }
  | poll {i r : ℕ} {busy : Bool} {state : ReaderState} (hl : s.loop = .loaded i busy state)
      (hr : s.readers[i]? = some r) : LoopMove s (s.poll i r busy state)
  | overrun {i : ℕ} {busy : Bool} {state : ReaderState} (hl : s.loop = .loaded i busy state)
      (hi : s.readers.length ≤ i) : LoopMove s { s with loop := .fault }
  | endPass {busy : Bool} (hl : s.loop = .after busy) : LoopMove s (s.endPass busy)
  | wake {r : ℕ} (hl : s.loop = .waiting r) :
      LoopMove s { s with waiter := s.waiter.reset, loop := .top }

theorem step_move (hs : s.step = some s') : s.LoopMove s' := by
  rw [step] at hs
  split at hs
  · next hl => exact Option.some_inj.1 hs ▸ .enter hl
  · next hl =>
    split at hs
    · next hstop => exact Option.some_inj.1 hs ▸ .stop hl hstop
    · next hstop => exact Option.some_inj.1 hs ▸ .begin hl (Bool.eq_false_of_not_eq_true hstop)
  · next hl =>
    split at hs
    · next hr =>
      split at hs
      · next hstop => exact Option.some_inj.1 hs ▸ .stopPass hl hstop
      · exact Option.some_inj.1 hs ▸ .load hl hr
    · next hr => exact Option.some_inj.1 hs ▸ .endList hl (List.getElem?_eq_none_iff.1 hr)
  · next hl =>
    split at hs
    · next hr => exact Option.some_inj.1 hs ▸ .poll hl hr
    · next hr => exact Option.some_inj.1 hs ▸ .overrun hl (List.getElem?_eq_none_iff.1 hr)
  · next hl => exact Option.some_inj.1 hs ▸ .endPass hl
  · next hl => exact Option.some_inj.1 hs ▸ .wake hl
  · exact nomatch hs
  · exact nomatch hs
  · exact nomatch hs

/-! ### What a reader's callback gets -/

/-- The messages that have bytes: `poll` drops an empty one. -/
def nonEmpty (msgs : List (List UInt8)) : List (List UInt8) := msgs.filter fun m => m ≠ []

/-- What was received and what is in the queue is what was written. -/
def ReaderOk (rdr : ShmReader) : Prop :=
  ∃ msgs, Contains Shm.slotCount rdr.queue msgs ∧
    rdr.received ++ nonEmpty msgs = nonEmpty rdr.written

theorem ReaderOk.write {rdr : ShmReader} (h : ReaderOk rdr) {src : List UInt8}
    {queue : SequencedSPSC} (hw : rdr.queue.write Shm.slotCount src = some queue) :
    ReaderOk { rdr with queue := queue, written := rdr.written ++ [src] } := by
  obtain ⟨msgs, hc, heq⟩ := h
  refine ⟨msgs ++ [src], hc.write hw, ?_⟩
  change rdr.received ++ nonEmpty (msgs ++ [src]) = nonEmpty (rdr.written ++ [src])
  rw [nonEmpty, nonEmpty, List.filter_append, List.filter_append, ← List.append_assoc]
  exact congrArg (· ++ _) heq

/-- A message is taken, and given to the callback unless it is empty. -/
theorem ReaderOk.read {rdr : ShmReader} (h : ReaderOk rdr) {bytes : List UInt8}
    {queue : SequencedSPSC} (hr : rdr.queue.read Shm.slotCount rdr.bufSize = some (bytes, queue)) :
    ReaderOk { rdr with
      queue := queue
      received := if bytes ≠ [] then rdr.received ++ [bytes] else rdr.received } := by
  obtain ⟨msgs, hc, heq⟩ := h
  obtain ⟨rest, rfl, hrest⟩ := hc.of_read hr
  refine ⟨rest, hrest, ?_⟩
  rw [← heq, nonEmpty, nonEmpty]
  by_cases hb : bytes = []
  · simp [hb]
  · simp [hb]

theorem readerOk_setReader (h : ∀ r, ReaderOk (s.shm r)) {rdr : ShmReader} (hrdr : ReaderOk rdr) :
    ∀ r', ReaderOk ((s.setReader r rdr).shm r') := by
  intro r'
  change ReaderOk (Function.update s.shm r rdr r')
  by_cases hr : r' = r
  · rw [hr, Function.update_self]
    exact hrdr
  · rw [Function.update_of_ne hr]
    exact h r'

theorem readerOk_poll (h : ∀ r, ReaderOk (s.shm r)) (state : ReaderState) :
    ∀ r', ReaderOk ((s.poll i r busy state).shm r') := by
  cases state with
  | Ready => exact h
  | Active =>
    rw [poll]
    split
    · next bytes queue hr =>
      have hread := (h r).read hr
      split
      · next hb =>
        rw [if_pos hb] at hread
        exact readerOk_setReader h hread
      · next hb =>
        rw [if_neg hb] at hread
        exact readerOk_setReader h hread
    · exact h
  | Closing => exact readerOk_setReader h (h r)
  | Closed => exact h

theorem shm_endPass : (s.endPass busy).shm = s.shm := by
  rw [endPass]
  split
  · rfl
  · split
    · rfl
    · split
      · rfl
      · rfl

theorem readerOk_move (h : ∀ r, ReaderOk (s.shm r)) (hm : s.LoopMove s') :
    ∀ r, ReaderOk (s'.shm r) := by
  cases hm with
  | enter | stop | begin | stopPass | load | endList | overrun | wake => exact h
  | poll => exact readerOk_poll h _
  | endPass =>
    rw [shm_endPass]
    exact h

theorem shm_add : (s.add r).shm = s.shm := by
  rw [add]
  split
  · rfl
  · rfl

theorem readerOk_act (h : ∀ r, ReaderOk (s.shm r)) {a : ReactorAction} (hs : s.act a = some s') :
    ∀ r, ReaderOk (s'.shm r) := by
  cases a with
  | asyncRx r bufSize =>
    rw [act, Option.some_inj] at hs
    subst hs
    rw [asyncRx]
    split
    · exact h
    · rw [shm_add]
      exact readerOk_setReader h (h r)
  | run =>
    rw [act, Option.ite_none_left_eq_some, Option.some_inj] at hs
    obtain ⟨_, rfl⟩ := hs
    exact h
  | step => exact readerOk_move h (step_move hs)
  | write r src =>
    rw [act, Option.map_eq_some_iff] at hs
    obtain ⟨queue, hw, rfl⟩ := hs
    exact readerOk_setReader h ((h r).write hw)
  | closeLoad r =>
    rw [act, Option.ite_none_right_eq_some, Option.some_inj] at hs
    obtain ⟨_, rfl⟩ := hs
    exact readerOk_setReader h (h r)
  | closeStore r =>
    rw [act, Option.ite_none_right_eq_some, Option.some_inj] at hs
    obtain ⟨_, rfl⟩ := hs
    exact readerOk_setReader h (h r)
  | requestStop =>
    rw [act, Option.some_inj] at hs
    subst hs
    exact h

/-- Two readers, a message for one, and the other is closed. -/
def twoReaders : List ReactorAction :=
  [.asyncRx 0 52, .asyncRx 1 52, .write 0 [7], .run, .step, .closeLoad 1, .closeStore 1,
    .step, .step, .step, .step, .step, .step]

theorem twoReaders_run : ∃ s, shmReactor.Run twoReaders s ∧ (s.shm 0).received = [[7]] ∧
    s.loop = .after true ∧ s.stopRequested = false ∧ s.pass = [0, 1] ∧ s.readers = [0] := by
  obtain ⟨q, hq⟩ := SequencedSPSC.exists_constructed (N := Shm.slotCount) (by decide)
  have hempty := hq.contains
  have hcan := (hempty.canWrite_iff [7]).2 ⟨by decide, by decide⟩
  obtain ⟨q₁, hwrite⟩ : ∃ q₁, q.write Shm.slotCount [7] = some q₁ := by
    rw [SequencedSPSC.write, if_pos hcan]
    exact ⟨_, rfl⟩
  have hone := hempty.write hwrite
  obtain ⟨q₂, hread⟩ : ∃ q₂, q₁.read Shm.slotCount 52 = some ([7], q₂) := by
    have hfits : ∀ msg ∈ [] ++ [[(7 : UInt8)]], msg.length ≤ 52 := by simp
    rcases hone.read hfits with ⟨hnil, _⟩ | ⟨msg, rest, q₂, heq, hread, _⟩
    · exact absurd hnil (by simp)
    · obtain ⟨rfl, _⟩ := List.cons.inj heq
      exact ⟨q₂, hread⟩
  have hstart : shmReactor.Run [] (start q) := .start ⟨q, hq, rfl⟩
  have hexec : ∃ s, Machine.exec act (start q) twoReaders = some s ∧
      (s.shm 0).received = [[7]] ∧ s.loop = .after true ∧ s.stopRequested = false ∧
      s.pass = [0, 1] ∧ s.readers = [0] := by
    simp [twoReaders, Machine.exec, act, asyncRx, add, step, poll, vanish, setReader, start,
      swapRemove, hwrite, hread]
  obtain ⟨s, hs, hprops⟩ := hexec
  exact ⟨s, hstart.exec id hs, hprops⟩

/-- A pass has come to its end, unless it was stopped. -/
def Passed (s : ShmReactor) : Prop :=
  s.readers ≠ [] ∧ (s.stopRequested = false → s.polled.Perm s.pass)

/-- What holds where the thread is. -/
def LoopOk (s : ShmReactor) : LoopPc → Prop
  | .idle => True
  | .entered => True
  | .top => s.readers ≠ []
  | .next i _ => s.readers ≠ [] ∧ Pass s.pass s.readers i s.polled s.dropped
  | .loaded i _ state => Pass s.pass s.readers i s.polled s.dropped ∧ ∃ r, s.readers[i]? = some r ∧
      (state.isOpen = false → (s.shm r).state.isOpen = false)
  | .after _ => s.Passed
  | .waiting _ => s.Passed
  | .returned => s.stopRequested = true ∨ s.readers = []
  | .fault => False

/-- The readers, and the pass over them. -/
structure Polls (s : ShmReactor) : Prop where
  nodup : s.registered.Nodup
  all : (s.readers ++ s.vanished).Perm s.registered
  active : ∀ r ∈ s.registered, (s.shm r).state ≠ .Ready
  gone : ∀ r ∈ s.vanished, (s.shm r).state.isOpen = false
  pass : s.pass.Nodup
  polled : s.polled.Subperm s.pass
  idle : s.started = false → s.loop = .idle
  loop : s.LoopOk s.loop

theorem Polls.start (q : SequencedSPSC) : Polls (start q) where
  nodup := List.nodup_nil
  all := List.Perm.nil
  active _ hr := absurd hr List.not_mem_nil
  gone _ hr := absurd hr List.not_mem_nil
  pass := List.nodup_nil
  polled := List.Subperm.refl _
  idle _ := rfl
  loop := trivial

/-- A step of another thread: no reader becomes new, and none that was closed is opened. -/
theorem Polls.other (h : Polls s) {shm : ℕ → ShmReader} {stop : Bool}
    (hready : ∀ r, (s.shm r).state ≠ .Ready → (shm r).state ≠ .Ready)
    (hopen : ∀ r, (s.shm r).state.isOpen = false → (shm r).state.isOpen = false)
    (hstop : stop = false → s.stopRequested = false) :
    Polls { s with shm := shm, stopRequested := stop } := by
  refine { h with
    active := fun r hr => hready r (h.active r hr)
    gone := fun r hr => hopen r (h.gone r hr)
    loop := ?_ }
  have hloop := h.loop
  change LoopOk { s with shm := shm, stopRequested := stop } s.loop
  generalize s.loop = pc at hloop ⊢
  cases pc with
  | idle | entered | top | next | fault => exact hloop
  | loaded i busy state =>
    obtain ⟨hpass, r, hr, hclosed⟩ := hloop
    exact ⟨hpass, r, hr, fun hst => hopen r (hclosed hst)⟩
  | after | waiting => exact ⟨hloop.1, fun hs => hloop.2 (hstop hs)⟩
  | returned =>
    refine hloop.imp_left fun hs => ?_
    cases stop with
    | true => rfl
    | false => exact absurd (hstop rfl) (by simp [hs])

theorem Polls.setReader (h : Polls s) {rdr : ShmReader}
    (hready : (s.shm r).state ≠ .Ready → rdr.state ≠ .Ready)
    (hopen : (s.shm r).state.isOpen = false → rdr.state.isOpen = false) :
    Polls (s.setReader r rdr) := by
  refine h.other ?_ ?_ id
  · intro r'
    by_cases hr : r' = r
    · rw [hr, Function.update_self]
      exact hready
    · rw [Function.update_of_ne hr]
      exact id
  · intro r'
    by_cases hr : r' = r
    · rw [hr, Function.update_self]
      exact hopen
    · rw [Function.update_of_ne hr]
      exact id

/-- A reader registers, which it does once. -/
theorem Polls.add (h : Polls s) (hr : (s.shm r).state = .Ready) {rdr : ShmReader}
    (hrdr : rdr.state = .Active) : Polls ((s.setReader r rdr).add r) := by
  have hset : Polls (s.setReader r rdr) := by
    refine h.setReader ?_ ?_
    · intro hne
      exact absurd hr hne
    · rw [hr]
      exact nofun
  rw [ShmReactor.add]
  split
  · exact hset
  · next hstarted =>
    have hnew : r ∉ s.registered := fun hin => h.active r hin hr
    have hnodup : (s.registered ++ [r]).Nodup :=
      List.nodup_append.2 ⟨h.nodup, List.nodup_singleton r, by grind⟩
    have hall : (s.readers ++ [r] ++ s.vanished).Perm (s.registered ++ [r]) := by
      calc s.readers ++ [r] ++ s.vanished
          _ ~ s.readers ++ (s.vanished ++ [r]) := by
            rw [List.append_assoc]
            exact List.perm_append_comm.append_left _
          _ ~ s.registered ++ [r] := by
            rw [← List.append_assoc]
            exact h.all.append_right _
    refine { hset with nodup := hnodup, all := hall, active := ?_, loop := ?_ }
    · intro r' hr'
      rcases List.mem_append.1 hr' with hold | hnew
      · exact hset.active r' hold
      · rw [List.mem_singleton.1 hnew]
        change (Function.update s.shm r rdr r).state ≠ .Ready
        rw [Function.update_self, hrdr]
        simp
    · have hidle : s.loop = .idle := h.idle (Bool.eq_false_of_not_eq_true hstarted)
      change LoopOk _ s.loop
      rw [hidle]
      trivial

/-! ### One step of the thread -/

/-- A reader that was polled stays in the list. -/
theorem Polls.keep (h : Polls s) {state : ReaderState} (hl : s.loop = .loaded i busy state)
    (hr : s.readers[i]? = some r) {busy' : Bool} :
    Polls { s with polled := s.polled ++ [r], loop := .next (i + 1) busy' } := by
  have hloop := h.loop
  rw [hl] at hloop
  obtain ⟨hi, rfl⟩ := List.getElem?_eq_some_iff.1 hr
  have hpass := hloop.1.keep hi
  have hne : s.readers ≠ [] := List.ne_nil_of_length_pos (by omega)
  exact { h with
    polled := hpass.subperm
    idle := fun hs => absurd (hl.symm.trans (h.idle hs)) (by simp)
    loop := ⟨hne, hpass⟩ }

/-- A reader that was polled and found closed leaves the list. -/
theorem Polls.vanish (h : Polls s) {state : ReaderState} (hl : s.loop = .loaded i busy state)
    (hr : s.readers[i]? = some r) (hclosed : (s.shm r).state.isOpen = false) :
    Polls (s.vanish i r busy) := by
  have hloop := h.loop
  rw [hl] at hloop
  obtain ⟨hi, rfl⟩ := List.getElem?_eq_some_iff.1 hr
  have hpass := hloop.1.remove hi
  have hall : (swapRemove s.readers i ++ (s.vanished ++ [s.readers[i]])).Perm s.registered := by
    calc swapRemove s.readers i ++ (s.vanished ++ [s.readers[i]])
        _ ~ swapRemove s.readers i ++ ([s.readers[i]] ++ s.vanished) :=
          List.perm_append_comm.append_left _
        _ ~ s.readers[i] :: (swapRemove s.readers i ++ s.vanished) := List.perm_middle
        _ ~ s.readers ++ s.vanished := (swapRemove_perm s.readers hi).append_right _
        _ ~ s.registered := h.all
  refine { h with
    all := hall
    gone := ?_
    polled := hpass.subperm
    idle := fun hs => absurd (hl.symm.trans (h.idle hs)) (by simp)
    loop := ?_ }
  · intro r hin
    rcases List.mem_append.1 hin with hold | hnew
    · exact h.gone r hold
    · rw [List.mem_singleton.1 hnew]
      exact hclosed
  · change LoopOk _ (if swapRemove s.readers i = [] then _ else _)
    split
    · next hnil => exact .inr hnil
    · next hne => exact ⟨hne, hpass⟩

theorem Polls.poll (h : Polls s) {state : ReaderState} (hl : s.loop = .loaded i busy state)
    (hr : s.readers[i]? = some r) : Polls (s.poll i r busy state) := by
  have hloop := h.loop
  rw [hl] at hloop
  obtain ⟨_, r', hr', hclosed⟩ := hloop
  obtain rfl := Option.some_inj.1 (hr.symm.trans hr')
  cases state with
  | Ready => exact h.keep hl hr
  | Active =>
    have hset : ∀ rdr : ShmReader, rdr.state = (s.shm r).state → Polls (s.setReader r rdr) := by
      intro rdr heq
      exact h.setReader (fun hne => heq ▸ hne) (fun hc => heq ▸ hc)
    rw [ShmReactor.poll]
    split
    · next bytes queue _ =>
      split
      · exact (hset { s.shm r with
          queue := queue
          received := (s.shm r).received ++ [bytes] } rfl).keep hl hr
      · exact (hset { s.shm r with queue := queue } rfl).keep hl hr
    · exact h.keep hl hr
  | Closing =>
    have hset : Polls (s.setReader r { s.shm r with state := .Closed }) :=
      h.setReader (fun _ => by simp) (fun _ => rfl)
    refine hset.vanish hl hr ?_
    change (Function.update s.shm r _ r).state.isOpen = false
    rw [Function.update_self]
    rfl
  | Closed => exact h.vanish hl hr (hclosed rfl)

theorem Polls.endPass (h : Polls s) (hl : s.loop = .after busy) : Polls (s.endPass busy) := by
  have hloop := h.loop
  rw [hl] at hloop
  have hidle : s.started = false → LoopPc.top = .idle := fun hs =>
    absurd (hl.symm.trans (h.idle hs)) (by simp)
  rw [ShmReactor.endPass]
  split
  · exact { h with idle := hidle, loop := hloop.1 }
  · split
    · exact { h with idle := hidle, loop := hloop.1 }
    · split
      · exact { h with idle := fun hs => absurd (hidle hs) (by simp), loop := hloop }
      · next hnil => exact absurd hnil hloop.1

theorem Polls.move (h : Polls s) (hm : s.LoopMove s') : Polls s' := by
  have hloop := h.loop
  have hidle : ∀ pc, s.loop = pc → pc ≠ .idle → s.started = false → False := by
    intro pc hpc hne hs
    exact hne (hpc.symm.trans (h.idle hs))
  cases hm with
  | enter hl =>
    refine { h with idle := fun hs => (hidle _ hl (by simp) hs).elim, loop := ?_ }
    change LoopOk _ (if s.readers = [] then _ else _)
    split
    · next hnil => exact .inr hnil
    · next hne => exact hne
  | stop hl hstop =>
    exact { h with idle := fun hs => (hidle _ hl (by simp) hs).elim, loop := .inl hstop }
  | begin hl hstop =>
    rw [hl] at hloop
    have hnodup : s.readers.Nodup := (List.nodup_append.1 (h.all.nodup_iff.2 h.nodup)).1
    exact { h with
      pass := hnodup
      polled := List.nil_subperm
      idle := fun hs => (hidle _ hl (by simp) hs).elim
      loop := ⟨hloop, .start _⟩ }
  | stopPass hl hstop =>
    rw [hl] at hloop
    exact { h with
      idle := fun hs => (hidle _ hl (by simp) hs).elim
      loop := ⟨hloop.1, fun hs => absurd (hs.symm.trans hstop) (by simp)⟩ }
  | load hl hr =>
    rw [hl] at hloop
    exact { h with
      idle := fun hs => (hidle _ hl (by simp) hs).elim
      loop := ⟨hloop.2, _, hr, id⟩ }
  | endList hl hi =>
    rw [hl] at hloop
    exact { h with
      idle := fun hs => (hidle _ hl (by simp) hs).elim
      loop := ⟨hloop.1, fun _ => hloop.2.done hi⟩ }
  | poll hl hr => exact h.poll hl hr
  | overrun hl hi =>
    rw [hl] at hloop
    obtain ⟨_, r, hr, _⟩ := hloop
    exact absurd (List.getElem?_eq_some_iff.1 hr).1 (Nat.not_lt.2 hi)
  | endPass hl => exact h.endPass hl
  | wake hl =>
    rw [hl] at hloop
    exact { h with idle := fun hs => (hidle _ hl (by simp) hs).elim, loop := hloop.1 }

theorem Polls.act (h : Polls s) {a : ReactorAction} (hs : s.act a = some s') : Polls s' := by
  cases a with
  | asyncRx r bufSize =>
    rw [ShmReactor.act, Option.some_inj] at hs
    subst hs
    rw [ShmReactor.asyncRx]
    split
    · exact h
    · next hr => exact h.add (not_not.1 hr) rfl
  | run =>
    rw [ShmReactor.act, Option.ite_none_left_eq_some, Option.some_inj] at hs
    obtain ⟨_, rfl⟩ := hs
    exact { h with idle := nofun, loop := trivial }
  | step => exact h.move (step_move hs)
  | write r src =>
    rw [ShmReactor.act, Option.map_eq_some_iff] at hs
    obtain ⟨queue, _, rfl⟩ := hs
    exact h.setReader id id
  | closeLoad r =>
    rw [ShmReactor.act, Option.ite_none_right_eq_some, Option.some_inj] at hs
    obtain ⟨_, rfl⟩ := hs
    exact h.setReader id id
  | closeStore r =>
    rw [ShmReactor.act, Option.ite_none_right_eq_some, Option.some_inj] at hs
    obtain ⟨_, rfl⟩ := hs
    exact h.setReader (fun _ => by simp) (fun _ => rfl)
  | requestStop =>
    rw [ShmReactor.act, Option.some_inj] at hs
    subst hs
    exact h.other (fun _ => id) (fun _ => id) nofun

end ShmReactor
