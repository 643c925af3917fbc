/-
Sleeping on the shared-memory queue (`common/src/transport/shm/shm_queue.hpp`,
`shm_reactor.cpp`, `shm_reader.cpp`, `shm_writer.hpp`).

The reactor polls its reader, and after enough idle polls goes to sleep on the
futex of the queue: it reads the futex, raises `waitFlag` and waits.  The writer
publishes its message and touches the futex only if it finds the flag raised.
The reactor does not look at the queue again after raising the flag, so a
message published after its last poll by a writer that looked at the flag before
it was raised is not noticed until the next one comes.

* `Inv.act` — what the two parties may rely on at each of their steps;
* `reactor_not_stranded` — if the writer never looks at the flag in that moment,
  the reactor does not sleep on a message whose writer is done;
* `reactor_stranded` — and if it does, it may.

`queue.write` and `queue.read` are one step each.  A writer that is closed
returns at once and takes no step here; the reactor's stop token and readers
that vanish are left out.
-/
import TradingPlatform.Lib.Futex
import TradingPlatform.Runner.SpinWait
import TradingPlatform.Spsc.Calls
import TradingPlatform.Transport.Channel

namespace Shm

open SequencedSPSC (Contains Constructed canRead canWrite maxDataSize)

/-- The slots of `SequencedSPSC<128 * 1024>`. -/
def slotCount : SlotCount := ⟨17, by decide, by decide⟩

/-- `ShmQueue`. -/
structure ShmQueue where
  queue : SequencedSPSC
  futex : UInt32
  futexCounter : UInt32
  waitFlag : Bool

/-- Where the writer is in `syncTx` and `notify`. -/
inductive Writer
  | idle
  | writing (src : List UInt8) (waiter : SpinWait)
  | notifying
  | storing
  | waking
deriving DecidableEq

/-- Where the reactor is in `loop` and `wait`. -/
inductive Reactor
  | polling (waiter : SpinWait)
  | loading
  | raising (ftxVal : UInt32)
  | waiting (ftxVal : UInt32)
  | blocked
  | lowering
deriving DecidableEq

structure State where
  shm : ShmQueue
  writer : Writer
  reactor : Reactor

/-- The steps of the two parties.  `fail` is an unsuccessful `queue.write`, and
`gone` says whether `count() < 2` then; `spurious` is a wait that ends without
being woken. -/
inductive Action
  | syncTx (src : List UInt8)
  | write
  | fail (gone : Bool)
  | loadFlag
  | storeFutex
  | wake
  | poll
  | loadFutex
  | raiseFlag
  | futexWait
  | spurious
  | lowerFlag
deriving DecidableEq

/-- What `loop` does after an idle poll. -/
def Reactor.afterIdle (waiter : SpinWait) : Reactor :=
  match waiter.next with
  | (true, waiter) => .polling waiter
  | (false, _) => .loading

/-- What `syncTx` does after an unsuccessful write. -/
def Writer.afterFail (src : List UInt8) (waiter : SpinWait) (gone : Bool) : Writer :=
  if gone then .idle
  else
    match waiter.next with
    | (true, waiter) => .writing src waiter
    | (false, _) => .idle

/-- One step; `none` where the program counters do not allow it. -/
def State.act (s : State) : Action → Option State
  | .syncTx src => if s.writer = .idle then some { s with writer := .writing src {} } else none
  | .write =>
    match s.writer with
    | .writing src _ =>
      (s.shm.queue.write slotCount src).map fun q =>
        { s with shm := { s.shm with queue := q }, writer := .notifying }
    | _ => none
  | .fail gone =>
    match s.writer with
    | .writing src waiter =>
      if (s.shm.queue.write slotCount src).isNone then
        some { s with writer := .afterFail src waiter gone }
      else none
    | _ => none
  | .loadFlag =>
    if s.writer = .notifying then
      some { s with writer := if s.shm.waitFlag then .storing else .idle }
    else none
  | .storeFutex =>
    if s.writer = .storing then
      some { s with
        shm := { s.shm with
          futex := s.shm.futexCounter + 1
          futexCounter := s.shm.futexCounter + 1 }
        writer := .waking }
    else none
  | .wake =>
    if s.writer = .waking then
      some { s with
        writer := .idle
        reactor := if s.reactor = .blocked then .lowering else s.reactor }
    else none
  | .poll =>
    match s.reactor with
    | .polling waiter =>
      match s.shm.queue.read slotCount SlidingBuffer.capacity with
      | some (dst, q) =>
        some { s with
          shm := { s.shm with queue := q }
          reactor := if dst.length ≠ 0 then .polling waiter.reset else .afterIdle waiter }
      | none => some { s with reactor := .afterIdle waiter }
    | _ => none
  | .loadFutex =>
    if s.reactor = .loading then some { s with reactor := .raising s.shm.futex } else none
  | .raiseFlag =>
    match s.reactor with
    | .raising ftxVal =>
      some { s with shm := { s.shm with waitFlag := true }, reactor := .waiting ftxVal }
    | _ => none
  | .futexWait =>
    match s.reactor with
    | .waiting ftxVal =>
      some { s with
        reactor := if Futex.sleeps s.shm.futex ftxVal then .blocked else .lowering }
    | _ => none
  | .spurious => if s.reactor = .blocked then some { s with reactor := .lowering } else none
  | .lowerFlag =>
    if s.reactor = .lowering then
      some { s with
        shm := { s.shm with waitFlag := false }
        reactor := .polling { cap := spinRetriesWarm } }
    else none

/-- A new queue, a writer that is not sending and a reactor at its first poll. -/
def shm : Machine State Action where
  init s := Constructed slotCount s.shm.queue ∧ s.shm.futex = 0 ∧ s.shm.futexCounter = 0 ∧
    s.shm.waitFlag = false ∧ s.writer = .idle ∧
    s.reactor = .polling { cap := spinRetriesWarm }
  step s e s' := s.act e = some s'

/-- The reactor is stranded: asleep, with a message in the queue, and the writer
has returned. -/
def Stranded (s : State) : Prop :=
  s.reactor = .blocked ∧ canRead slotCount s.shm.queue ∧ s.writer = .idle

/-- The reactor has polled for the last time before it sleeps, and has not raised
the flag yet. -/
def Reactor.committed : Reactor → Bool
  | .loading => true
  | .raising _ => true
  | _ => false

/-- Messages are not empty, and the writer does not look at the flag while its
message is in the queue and the reactor is committed to sleep. -/
def LooksInTime (s : State) : Action → Prop
  | .syncTx src => src ≠ []
  | .loadFlag => ¬ (s.reactor.committed = true ∧ canRead slotCount s.shm.queue)
  | _ => True

instance (s : State) (e : Action) : Decidable (LooksInTime s e) :=
  match e with
  | .syncTx _ => inferInstanceAs (Decidable (_ ≠ _))
  | .loadFlag => inferInstanceAs (Decidable (¬ _))
  | .write | .fail _ | .storeFutex | .wake | .poll | .loadFutex | .raiseFlag | .futexWait
  | .spurious | .lowerFlag => .isTrue trivial

/-! ### What the parties may rely on -/

/-- A message was published whose writer has still to store to the futex. -/
def Writer.pending : Writer → ℕ
  | .notifying => 1
  | .storing => 1
  | _ => 0

/-- The futex was stored to `n` times since the reactor read `v`.  Every store
but one is for a message that is still there, for the reactor takes none. -/
def StoredSince (s : State) (msgs : List (List UInt8)) (v : UInt32) (n : ℕ) : Prop :=
  s.shm.futex = v + UInt32.ofNat n ∧ n + s.writer.pending ≤ msgs.length + 1

/-- What the reactor's program counter promises about the messages `msgs`. -/
def ReactorOk (s : State) (msgs : List (List UInt8)) : Reactor → Prop
  | .polling _ => True
  | .loading => msgs ≠ [] → s.writer = .notifying
  | .raising v => (msgs ≠ [] → s.writer = .notifying) ∧ ∃ n, StoredSince s msgs v n
  | .waiting v => s.shm.waitFlag = true ∧ ∃ n, StoredSince s msgs v n ∧
      (msgs ≠ [] → s.writer = .notifying ∨ s.writer = .storing ∨ 0 < n)
  | .blocked => s.shm.waitFlag = true ∧
      (msgs ≠ [] → s.writer = .notifying ∨ s.writer = .storing ∨ s.writer = .waking)
  | .lowering => True

/-- The invariant; `msgs` are the messages in the queue. -/
structure Inv (s : State) (msgs : List (List UInt8)) : Prop where
  contains : Contains slotCount s.shm.queue msgs
  fits : ∀ msg ∈ msgs, msg.length ≠ 0 ∧ msg.length ≤ maxDataSize
  sends : ∀ src waiter, s.writer = .writing src waiter → src ≠ []
  counter : s.shm.futexCounter = s.shm.futex
  reactor : ReactorOk s msgs s.reactor

theorem Inv.start {s : State} (h : shm.init s) : Inv s [] := by
  obtain ⟨hqueue, hfutex, hcounter, _, hwriter, hreactor⟩ := h
  exact {
    contains := hqueue.contains
    fits := fun msg hmsg => absurd hmsg List.not_mem_nil
    sends := fun src waiter hw => by rw [hwriter] at hw; cases hw
    counter := by rw [hfutex, hcounter]
    reactor := by rw [hreactor]; trivial }

namespace Inv

variable {s s' : State} {msgs : List (List UInt8)}

theorem pending_le (w : Writer) : w.pending ≤ 1 := by
  cases w <;> simp [Writer.pending]

/-- A writer that has no message to announce, and still has none. -/
theorem quiet (h : Inv s msgs) {w : Writer} (hn : s.writer ≠ .notifying)
    (hs : s.writer ≠ .storing) (hw : s.writer = .waking → s.reactor ≠ .blocked)
    (hp : w.pending = 0) (hsends : ∀ src waiter, w = .writing src waiter → src ≠ []) :
    Inv { s with writer := w } msgs where
  contains := h.contains
  fits := h.fits
  sends := hsends
  counter := h.counter
  reactor := by
    have hok := h.reactor
    -- no message is added and none is announced, so the count stays
    have hstored : ∀ {v n}, StoredSince s msgs v n →
        StoredSince { s with writer := w } msgs v n := by
      rintro v n ⟨hfutex, hle⟩
      exact ⟨hfutex, by show n + w.pending ≤ _; omega⟩
    show ReactorOk { s with writer := w } msgs s.reactor
    cases hr : s.reactor with
    | polling waiter => trivial
    | lowering => trivial
    | loading =>
      rw [hr] at hok
      exact fun hne => absurd (hok hne) hn
    | raising v =>
      rw [hr] at hok
      obtain ⟨hann, n, hst⟩ := hok
      exact ⟨fun hne => absurd (hann hne) hn, n, hstored hst⟩
    | waiting v =>
      rw [hr] at hok
      obtain ⟨hflag, n, hst, hann⟩ := hok
      exact ⟨hflag, n, hstored hst,
        fun hne => .inr (.inr (((hann hne).resolve_left hn).resolve_left hs))⟩
    | blocked =>
      rw [hr] at hok
      obtain ⟨hflag, hann⟩ := hok
      refine ⟨hflag, fun hne => ?_⟩
      exact absurd hr (hw (((hann hne).resolve_left hn).resolve_left hs))

/-- The writer publishes. -/
theorem write (h : Inv s msgs) {src : List UInt8} {waiter : SpinWait} {q : SequencedSPSC}
    (hw : s.writer = .writing src waiter) (hq : s.shm.queue.write slotCount src = some q) :
    Inv { s with shm := { s.shm with queue := q }, writer := .notifying } (msgs ++ [src]) where
  contains := h.contains.write hq
  fits := by
    intro msg hmsg
    rcases List.mem_append.1 hmsg with hmsg | hmsg
    · exact h.fits msg hmsg
    · obtain rfl := List.mem_singleton.1 hmsg
      rw [SequencedSPSC.write, Option.ite_none_right_eq_some] at hq
      have hne : msg ≠ [] := h.sends msg waiter hw
      exact ⟨fun hz => hne (List.eq_nil_of_length_eq_zero hz), hq.1.1⟩
  sends := by
    intro src' waiter' hw'
    cases hw'
  counter := h.counter
  reactor := by
    have hok := h.reactor
    have hzero : s.writer.pending = 0 := by rw [hw]; rfl
    -- the new message makes up for the store that is now due
    have hstored : ∀ {v n}, StoredSince s msgs v n →
        StoredSince { s with shm := { s.shm with queue := q }, writer := .notifying }
          (msgs ++ [src]) v n := by
      rintro v n ⟨hfutex, hle⟩
      refine ⟨hfutex, ?_⟩
      show n + 1 ≤ (msgs ++ [src]).length + 1
      rw [List.length_append, List.length_singleton]
      omega
    show ReactorOk _ _ s.reactor
    cases hr : s.reactor with
    | polling waiter => trivial
    | lowering => trivial
    | loading => exact fun _ => rfl
    | raising v =>
      rw [hr] at hok
      obtain ⟨_, n, hst⟩ := hok
      exact ⟨fun _ => rfl, n, hstored hst⟩
    | waiting v =>
      rw [hr] at hok
      obtain ⟨hflag, n, hst, _⟩ := hok
      exact ⟨hflag, n, hstored hst, fun _ => .inl rfl⟩
    | blocked =>
      rw [hr] at hok
      exact ⟨hok.1, fun _ => .inl rfl⟩

/-- The writer looks at the flag, not while the reactor is committed to sleep on
its message. -/
theorem loadFlag (h : Inv s msgs) (hw : s.writer = .notifying)
    (hlook : ¬ (s.reactor.committed = true ∧ canRead slotCount s.shm.queue)) :
    Inv { s with writer := if s.shm.waitFlag then .storing else .idle } msgs where
  contains := h.contains
  fits := h.fits
  sends := by
    intro src waiter hw'
    change (if s.shm.waitFlag = true then Writer.storing else Writer.idle) = _ at hw'
    split at hw' <;> cases hw'
  counter := h.counter
  reactor := by
    have hok := h.reactor
    -- what was due before the look is due after it, or given up
    have hstored : ∀ {v n}, StoredSince s msgs v n → StoredSince
        { s with writer := if s.shm.waitFlag then .storing else .idle } msgs v n := by
      rintro v n ⟨hfutex, hle⟩
      have hp := pending_le (if s.shm.waitFlag = true then .storing else .idle)
      rw [hw, Writer.pending] at hle
      exact ⟨hfutex, le_trans (Nat.add_le_add_left hp n) hle⟩
    show ReactorOk _ _ s.reactor
    cases hr : s.reactor with
    | polling waiter => trivial
    | lowering => trivial
    | loading =>
      intro hne
      exact absurd ⟨by rw [hr]; rfl, h.contains.canRead_iff.2 hne⟩ hlook
    | raising v =>
      rw [hr] at hok
      obtain ⟨_, n, hst⟩ := hok
      refine ⟨fun hne => ?_, n, hstored hst⟩
      exact absurd ⟨by rw [hr]; rfl, h.contains.canRead_iff.2 hne⟩ hlook
    | waiting v =>
      rw [hr] at hok
      obtain ⟨hflag, n, hst, _⟩ := hok
      exact ⟨hflag, n, hstored hst, fun _ => .inr (.inl (if_pos hflag))⟩
    | blocked =>
      rw [hr] at hok
      exact ⟨hok.1, fun _ => .inr (.inl (if_pos hok.1))⟩

/-- The writer stores to the futex. -/
theorem storeFutex (h : Inv s msgs) (hw : s.writer = .storing) :
    Inv { s with
      shm := { s.shm with
        futex := s.shm.futexCounter + 1
        futexCounter := s.shm.futexCounter + 1 }
      writer := .waking } msgs where
  contains := h.contains
  fits := h.fits
  sends := by
    intro src waiter hw'
    cases hw'
  counter := rfl
  reactor := by
    have hok := h.reactor
    -- the store that was due is now counted
    have hstored : ∀ {v n}, StoredSince s msgs v n → StoredSince
        { s with
          shm := { s.shm with
            futex := s.shm.futexCounter + 1
            futexCounter := s.shm.futexCounter + 1 }
          writer := .waking } msgs v (n + 1) := by
      rintro v n ⟨hfutex, hle⟩
      rw [hw, Writer.pending] at hle
      refine ⟨?_, hle⟩
      show s.shm.futexCounter + 1 = _
      rw [h.counter, hfutex, Futex.add_one]
    show ReactorOk _ _ s.reactor
    cases hr : s.reactor with
    | polling waiter => trivial
    | lowering => trivial
    | loading =>
      rw [hr, ReactorOk, hw] at hok
      exact fun hne => absurd (hok hne) (by simp)
    | raising v =>
      rw [hr, ReactorOk, hw] at hok
      obtain ⟨hann, n, hst⟩ := hok
      exact ⟨fun hne => absurd (hann hne) (by simp), n + 1, hstored hst⟩
    | waiting v =>
      rw [hr] at hok
      obtain ⟨hflag, n, hst, _⟩ := hok
      exact ⟨hflag, n + 1, hstored hst, fun _ => .inr (.inr (Nat.succ_pos n))⟩
    | blocked =>
      rw [hr] at hok
      exact ⟨hok.1, fun _ => .inr (.inr rfl)⟩

/-- The reactor moves on without touching the queue or the futex. -/
theorem reacting (h : Inv s msgs) {r : Reactor} (flag : Bool)
    (hr : ReactorOk { s with shm := { s.shm with waitFlag := flag }, reactor := r } msgs r) :
    Inv { s with shm := { s.shm with waitFlag := flag }, reactor := r } msgs where
  contains := h.contains
  fits := h.fits
  sends := h.sends
  counter := h.counter
  reactor := hr

/-- The reactor polls. -/
theorem poll (h : Inv s msgs) {waiter : SpinWait} (hs : s.act .poll = some s')
    (hr : s.reactor = .polling waiter) : ∃ msgs', Inv s' msgs' := by
  have hroom : ∀ msg ∈ msgs, msg.length ≤ SlidingBuffer.capacity := by
    intro msg hmsg
    refine le_trans (h.fits msg hmsg).2 ?_
    decide
  simp only [State.act, hr] at hs
  rcases h.contains.read hroom with ⟨rfl, hread⟩ | ⟨msg, rest, q, rfl, hread, hrest⟩
  · rw [hread] at hs
    obtain rfl := Option.some_inj.1 hs
    refine ⟨[], h.contains, h.fits, h.sends, h.counter, ?_⟩
    show ReactorOk _ _ (Reactor.afterIdle waiter)
    rw [Reactor.afterIdle]
    split
    · trivial
    · exact fun hne => absurd rfl hne
  · have hne : msg.length ≠ 0 := (h.fits msg List.mem_cons_self).1
    rw [hread] at hs
    simp only [if_pos hne, Option.some.injEq] at hs
    obtain rfl := hs
    exact ⟨rest, hrest, fun m hm => h.fits m (List.mem_cons_of_mem _ hm), h.sends, h.counter,
      trivial⟩

/-- The reactor's last look at the futex before it sleeps. -/
theorem futexWait (h : Inv s msgs) {v : UInt32} (hr : s.reactor = .waiting v) :
    Inv { s with reactor := if Futex.sleeps s.shm.futex v then .blocked else .lowering } msgs := by
  have hok := h.reactor
  rw [hr] at hok
  obtain ⟨hflag, n, ⟨hfutex, hle⟩, hann⟩ := hok
  refine h.reacting s.shm.waitFlag ?_
  split
  · next hsleeps =>
    -- the queue has far fewer slots than the futex has values
    have hlen : msgs.length ≤ 2 ^ 17 := h.contains.length_le
    rw [hfutex] at hsleeps
    obtain rfl := Futex.eq_zero_of_sleeps (by omega) hsleeps
    refine ⟨hflag, fun hne => ?_⟩
    rcases hann hne with hw | hw | hpos
    · exact .inl hw
    · exact .inr (.inl hw)
    · exact absurd hpos (lt_irrefl 0)
  · trivial

/-- Every step that looks in time keeps the invariant. -/
theorem act (h : Inv s msgs) {e : Action} (hlook : LooksInTime s e) (hs : s.act e = some s') :
    ∃ msgs', Inv s' msgs' := by
  cases e with
  | syncTx src =>
    simp only [State.act, Option.ite_none_right_eq_some, Option.some.injEq] at hs
    obtain ⟨hw, rfl⟩ := hs
    refine ⟨msgs, h.quiet (by simp [hw]) (by simp [hw]) (by simp [hw]) rfl ?_⟩
    intro src' waiter heq
    obtain ⟨rfl, _⟩ := Writer.writing.inj heq
    exact hlook
  | write =>
    simp only [State.act] at hs
    split at hs
    · next src waiter hw =>
      obtain ⟨q, hq, rfl⟩ := Option.map_eq_some_iff.1 hs
      exact ⟨_, h.write hw hq⟩
    · exact absurd hs (by simp)
  | fail gone =>
    simp only [State.act] at hs
    split at hs
    · next src waiter hw =>
      rw [Option.ite_none_right_eq_some, Option.some_inj] at hs
      obtain ⟨_, rfl⟩ := hs
      refine ⟨msgs, h.quiet (by simp [hw]) (by simp [hw]) (by simp [hw]) ?_ ?_⟩
      · rw [Writer.afterFail]
        split
        · rfl
        · split <;> rfl
      · intro src' waiter' heq
        rw [Writer.afterFail] at heq
        split at heq
        · cases heq
        · split at heq
          · obtain ⟨rfl, _⟩ := Writer.writing.inj heq
            exact h.sends _ _ hw
          · cases heq
    · exact absurd hs (by simp)
  | loadFlag =>
    simp only [State.act, Option.ite_none_right_eq_some, Option.some.injEq] at hs
    obtain ⟨hw, rfl⟩ := hs
    exact ⟨msgs, h.loadFlag hw hlook⟩
  | storeFutex =>
    simp only [State.act, Option.ite_none_right_eq_some, Option.some.injEq] at hs
    obtain ⟨hw, rfl⟩ := hs
    exact ⟨msgs, h.storeFutex hw⟩
  | wake =>
    simp only [State.act, Option.ite_none_right_eq_some, Option.some.injEq] at hs
    obtain ⟨hw, rfl⟩ := hs
    refine ⟨msgs, ?_⟩
    by_cases hr : s.reactor = .blocked
    · rw [if_pos hr]
      exact ⟨h.contains, h.fits, by simp, h.counter, trivial⟩
    · rw [if_neg hr]
      exact h.quiet (by simp [hw]) (by simp [hw]) (fun _ => hr) rfl (by simp)
  | poll =>
    cases hr : s.reactor with
    | polling waiter => exact h.poll hs hr
    | loading => simp [State.act, hr] at hs
    | raising v => simp [State.act, hr] at hs
    | waiting v => simp [State.act, hr] at hs
    | blocked => simp [State.act, hr] at hs
    | lowering => simp [State.act, hr] at hs
  | loadFutex =>
    simp only [State.act, Option.ite_none_right_eq_some, Option.some.injEq] at hs
    obtain ⟨hr, rfl⟩ := hs
    have hok := h.reactor
    rw [hr] at hok
    have hp := pending_le s.writer
    refine ⟨msgs, h.reacting s.shm.waitFlag ⟨hok, 0, ?_, ?_⟩⟩
    · show s.shm.futex = s.shm.futex + 0
      rw [UInt32.add_zero]
    · show 0 + s.writer.pending ≤ msgs.length + 1
      omega
  | raiseFlag =>
    simp only [State.act] at hs
    split at hs
    · next v hr =>
      obtain rfl := Option.some_inj.1 hs
      have hok := h.reactor
      rw [hr] at hok
      obtain ⟨hann, n, hst⟩ := hok
      exact ⟨msgs, h.reacting true ⟨rfl, n, hst, fun hne => .inl (hann hne)⟩⟩
    · exact absurd hs (by simp)
  | futexWait =>
    simp only [State.act] at hs
    split at hs
    · next v hr =>
      obtain rfl := Option.some_inj.1 hs
      exact ⟨msgs, h.futexWait hr⟩
    · exact absurd hs (by simp)
  | spurious =>
    simp only [State.act, Option.ite_none_right_eq_some, Option.some.injEq] at hs
    obtain ⟨_, rfl⟩ := hs
    exact ⟨msgs, h.reacting s.shm.waitFlag trivial⟩
  | lowerFlag =>
    simp only [State.act, Option.ite_none_right_eq_some, Option.some.injEq] at hs
    obtain ⟨_, rfl⟩ := hs
    exact ⟨msgs, h.reacting false trivial⟩

theorem run {es : List Action} (h : (shm.restrict LooksInTime).Run es s) : ∃ msgs, Inv s msgs := by
  refine Machine.Run.invariant (I := fun s => ∃ msgs, Inv s msgs) ?_ ?_ h
  · intro s h0
    exact ⟨[], .start h0⟩
  · rintro s e s' ⟨msgs, hI⟩ ⟨hlook, hs⟩
    exact hI.act hlook hs

end Inv

/-- **No lost wake-up on the shared-memory queue**, in every run in which messages
are not empty and the writer never looks at the flag while its message is in the
queue and the reactor is committed to sleep. -/
theorem reactor_not_stranded {es : List Action} {s : State}
    (h : (shm.restrict LooksInTime).Run es s) : ¬ Stranded s := by
  obtain ⟨msgs, hI⟩ := Inv.run h
  rintro ⟨hblocked, hread, hidle⟩
  have hok := hI.reactor
  rw [hblocked] at hok
  have hpending := hok.2 (hI.contains.canRead_iff.1 hread)
  rw [hidle] at hpending
  simp at hpending

/-! ### A message the reactor does not notice -/

/-- A state the two parties can start from. -/
def startState (q : SequencedSPSC) : State :=
  ⟨⟨q, 0, 0, false⟩, .idle, .polling { cap := spinRetriesWarm }⟩

theorem exists_start : ∃ q, Contains slotCount q [] ∧ shm.init (startState q) := by
  obtain ⟨q, hq⟩ := SequencedSPSC.exists_constructed (N := slotCount) (by decide)
  exact ⟨q, hq.contains, hq, rfl, rfl, rfl, rfl, rfl⟩

/-- The reactor polls an empty queue again and again. -/
theorem idle_polls {q : SequencedSPSC} (h0 : shm.init (startState q)) (n : ℕ)
    (hn : n ≤ spinRetriesWarm) :
    (shm.restrict LooksInTime).Run (List.replicate n .poll)
      { startState q with reactor := .polling ⟨spinRetriesWarm, n⟩ } := by
  induction n with
  | zero => exact .start h0
  | succ n ih =>
    rw [List.replicate_succ']
    refine .snoc (ih (by omega)) ⟨trivial, ?_⟩
    have hnext : SpinWait.next ⟨spinRetriesWarm, n⟩ = (true, ⟨spinRetriesWarm, n + 1⟩) := by
      refine SpinWait.next_of_lt hn ?_
      rw [spinRetriesYield]
      show n + 1 < spinRetriesWarm * 10
      omega
    have hread : q.read slotCount SlidingBuffer.capacity = none := h0.1.contains.read_empty _
    show State.act _ .poll = _
    simp only [State.act, startState, hread, Reactor.afterIdle, hnext]

/-- The polls after which the reactor is committed to sleep. -/
def idlePolls : List Action := List.replicate spinRetriesWarm .poll ++ [.poll]

theorem idlePolls_run {q : SequencedSPSC} (h0 : shm.init (startState q)) :
    (shm.restrict LooksInTime).Run idlePolls { startState q with reactor := .loading } := by
  have hread : q.read slotCount SlidingBuffer.capacity = none := h0.1.contains.read_empty _
  have hnext : SpinWait.next ⟨spinRetriesWarm, spinRetriesWarm⟩ = (false, _) :=
    SpinWait.next_of_le (le_refl spinRetriesWarm)
  refine .snoc (idle_polls h0 spinRetriesWarm (le_refl _)) ⟨trivial, ?_⟩
  show State.act _ .poll = _
  simp only [State.act, startState, hread, Reactor.afterIdle, hnext]

/-- A message of one byte fits into a new queue. -/
theorem exists_write {q : SequencedSPSC} (hq : Contains slotCount q []) :
    ∃ q', q.write slotCount [1] = some q' ∧ canRead slotCount q' := by
  have hcan : canWrite slotCount q [1] := (hq.canWrite_iff [1]).2 ⟨by decide, by decide⟩
  refine ⟨_, if_pos hcan, ?_⟩
  exact (hq.write (if_pos hcan)).canRead_iff.2 (by simp)

/-- The message comes while the reactor sleeps, and the reactor is woken for it. -/
theorem reactor_not_stranded_asleep :
    ∃ s, (shm.restrict LooksInTime).Run (idlePolls ++ [.loadFutex, .raiseFlag, .futexWait,
        .syncTx [1], .write, .loadFlag, .storeFutex, .wake]) s ∧
      canRead slotCount s.shm.queue ∧ ¬ Stranded s := by
  obtain ⟨q, hq, h0⟩ := exists_start
  obtain ⟨q', hwrite, hread⟩ := exists_write hq
  have hexec : Machine.exec (Machine.guarded LooksInTime State.act)
      { startState q with reactor := .loading } [.loadFutex, .raiseFlag, .futexWait, .syncTx [1],
        .write, .loadFlag, .storeFutex, .wake] = some ⟨⟨q', 1, 1, true⟩, .idle, .lowering⟩ := by
    simp [Machine.exec, Machine.guarded, LooksInTime, Reactor.committed, State.act, startState,
      hwrite, Futex.sleeps]
  have hrun := (idlePolls_run h0).exec
    (fun h => Machine.restrict_step_of_guarded (M := shm) (fun hs => hs) h) hexec
  exact ⟨_, hrun, hread, reactor_not_stranded hrun⟩

/-- The message comes between the last poll and the raising of the flag: the
writer finds the flag down and returns, and the reactor goes to sleep. -/
theorem reactor_stranded :
    ∃ s, shm.Run (idlePolls ++ [.syncTx [1], .write, .loadFlag, .loadFutex, .raiseFlag,
      .futexWait]) s ∧ Stranded s := by
  obtain ⟨q, hq, h0⟩ := exists_start
  obtain ⟨q', hwrite, hread⟩ := exists_write hq
  refine ⟨⟨⟨q', 0, 0, true⟩, .idle, .blocked⟩, ?_, rfl, hread, rfl⟩
  refine (idlePolls_run h0).of_restrict.exec (f := State.act) (fun hs => hs) ?_
  simp [Machine.exec, State.act, startState, hwrite, Futex.sleeps]

end Shm
