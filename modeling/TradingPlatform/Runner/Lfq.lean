/-
The runner of a queue (`common/src/runner/lfq_runner.hpp`,
`common/src/utils/sync_utils.hpp`).

One producer posts messages, the consumer takes them, and when it has found
nothing for long enough it goes to sleep on `ftx_`: it reads the futex,
announces in `sleeping_` that it is going to sleep, looks at the queue and at the
stop token once more, and waits.  The producer looks at `sleeping_` after it has
written, and `stop()` changes the futex after the stop was requested, so that
either the consumer sees what they did or they see that it sleeps.

* `Inv.act` — what the three parties may rely on at each of their steps;
* `consumer_not_stranded` — as long as the futex is incremented fewer than
  `2 ^ 32` times between the consumer's load and its wait, the consumer does not
  sleep on a message or a stop request that nobody is going to wake it for;
* `consumer_stranded` — counting the posts only is one too many, for `stop()`
  increments the futex too.

`queue_.write` and `queue_.read` are one step each.  A message has at least one
byte, so `read` returns something else than 0 exactly if it takes a message.
-/
import TradingPlatform.Lib.Futex
import TradingPlatform.Runner.SpinWait
import TradingPlatform.Spsc.Calls

namespace LfqRunner

open SequencedSPSC (Contains Constructed canRead canWrite)

/-- `Capacity` and `sizeof(MessageT)`. -/
structure Config where
  slots : SlotCount
  size : ℕ
  pos : 0 < size

/-- Where the producer is in `post`. -/
inductive Producer
  | idle
  | writing (message : List UInt8) (waiter : SpinWait)
  | checking
  | adding
  | waking
deriving DecidableEq

/-- Where the consumer is in `lfqLoop`. -/
inductive Consumer
  | top (waiter : SpinWait)
  | reading (waiter : SpinWait)
  | draining
  | drained
  | givingUp (waiter : SpinWait)
  | loading
  | announcing (ftxVal : UInt32)
  | rechecking (ftxVal : UInt32)
  | found
  | lastCheck (ftxVal : UInt32)
  | waiting (ftxVal : UInt32)
  | blocked
  | clearing
  | left
deriving DecidableEq

/-- A stop request, and then the steps of `stop`. -/
inductive Stopper
  | idle
  | requested
  | storing
  | adding
  | waking
  | finished
deriving DecidableEq

/-- The memory and the three parties.  `posts` and `adds` count the calls of
`post` and the increments of `ftx_` since the consumer last read it. -/
structure State where
  queue : SequencedSPSC
  sleeping : Bool
  ftx : UInt32
  started : Bool
  stopRequested : Bool
  producer : Producer
  consumer : Consumer
  stopper : Stopper
  posts : ℕ
  adds : ℕ

/-- A call of `post`, the next step of one of the parties, or a wait that ends
without being woken. -/
inductive Action
  | post (message : List UInt8)
  | produce
  | consume
  | stop
  | spurious
deriving DecidableEq

variable (c : Config)

namespace State

/-- `futexWake(ftx_)`. -/
def futexWake (s : State) : State :=
  if s.consumer = .blocked then { s with consumer := .clearing } else s

/-- `ftx_.fetch_add(1)`. -/
def fetchAdd (s : State) : State := { s with ftx := s.ftx + 1, adds := s.adds + 1 }

/-- `post`, up to its loop. -/
def post (s : State) (message : List UInt8) : Option State :=
  if s.producer = .idle ∧ message.length = c.size then
    some { s with
      producer := if s.stopRequested then .idle else .writing message {}
      posts := s.posts + 1 }
  else none

/-- The next step of `post`. -/
def produce (s : State) : Option State :=
  match s.producer with
  | .idle => none
  | .writing message waiter =>
    match s.queue.write c.slots message with
    | some q => some { s with queue := q, producer := .checking }
    | none =>
      match waiter.next with
      | (true, waiter) => some { s with producer := .writing message waiter }
      -- an error is posted to the bus, and the rest of `post` is done all the same
      | (false, _) => some { s with producer := .checking }
  | .checking => some { s with producer := if s.sleeping then .adding else .idle }
  | .adding => some { s.fetchAdd with producer := .waking }
  | .waking => some { s.futexWake with producer := .idle }

/-- The next step of `lfqLoop`; `draining` is `consumer_.post` and the read after
it. -/
def consume (s : State) : Option State :=
  match s.consumer with
  | .top waiter =>
    some { s with consumer := if s.stopRequested then .left else .reading waiter }
  | .reading waiter =>
    match s.queue.read c.slots c.size with
    | some (_, q) => some { s with queue := q, consumer := .draining }
    | none =>
      match waiter.next with
      | (true, waiter) => some { s with consumer := .top waiter }
      | (false, waiter) => some { s with consumer := .givingUp waiter }
  | .draining =>
    match s.queue.read c.slots c.size with
    | some (_, q) => some { s with queue := q, consumer := .drained }
    | none => some { s with consumer := .top {} }
  | .drained => some { s with consumer := if s.stopRequested then .top {} else .draining }
  | .givingUp waiter =>
    some { s with consumer := if s.stopRequested then .top waiter else .loading }
  | .loading => some { s with consumer := .announcing s.ftx, posts := 0, adds := 0 }
  | .announcing ftxVal => some { s with sleeping := true, consumer := .rechecking ftxVal }
  | .rechecking ftxVal =>
    match s.queue.read c.slots c.size with
    | some (_, q) => some { s with queue := q, consumer := .found }
    | none => some { s with consumer := .lastCheck ftxVal }
  | .found => some { s with sleeping := false, consumer := .top {} }
  -- `break` leaves `sleeping_` as it is
  | .lastCheck ftxVal =>
    some { s with consumer := if s.stopRequested then .left else .waiting ftxVal }
  | .waiting ftxVal =>
    some { s with consumer := if Futex.sleeps s.ftx ftxVal then .blocked else .clearing }
  | .blocked => none
  | .clearing => some { s with sleeping := false, consumer := .top {} }
  | .left => none

/-- The stop request, and the next step of `stop`. -/
def stop (s : State) : Option State :=
  match s.stopper with
  | .idle => some { s with stopRequested := true, stopper := .requested }
  | .requested => some { s with stopper := if s.started then .storing else .finished }
  | .storing => some { s with started := false, stopper := .adding }
  | .adding => some { s.fetchAdd with stopper := .waking }
  | .waking => some { s.futexWake with stopper := .finished }
  | .finished => none

def act (s : State) : Action → Option State
  | .post message => s.post c message
  | .produce => s.produce c
  | .consume => s.consume c
  | .stop => s.stop
  | .spurious => if s.consumer = .blocked then some { s with consumer := .clearing } else none

end State

/-- The consumer's thread has set `started_` and enters `lfqLoop`. -/
def startState (q : SequencedSPSC) : State where
  queue := q
  sleeping := false
  ftx := 0
  started := true
  stopRequested := false
  producer := .idle
  consumer := .top {}
  stopper := .idle
  posts := 0
  adds := 0

def runner : Machine State Action where
  init s := ∃ q, Constructed c.slots q ∧ s = startState q
  step s e s' := s.act c e = some s'

/-- The rest of a call of `post` is going to wake the consumer. -/
def Producer.willWake (sleeping : Bool) : Producer → Bool
  | .idle => false
  | .writing _ _ => sleeping
  | .checking => sleeping
  | .adding => true
  | .waking => true

/-- What is left of a stop request is going to wake the consumer. -/
def Stopper.willWake (started : Bool) : Stopper → Bool
  | .idle => false
  | .requested => started
  | .storing => true
  | .adding => true
  | .waking => true
  | .finished => false

/-- The consumer is stranded: asleep, with a message in the queue or a stop
requested, and nobody is going to wake it. -/
def Stranded (s : State) : Prop :=
  s.consumer = .blocked ∧ (canRead c.slots s.queue ∨ s.stopRequested = true) ∧
    s.producer.willWake s.sleeping = false ∧ s.stopper.willWake s.started = false

/-- The wait comes after fewer than `2 ^ 32` increments of the futex. -/
def FewAdds (s : State) (e : Action) : Prop :=
  e = .consume → (∃ ftxVal, s.consumer = .waiting ftxVal) → s.adds < 2 ^ 32

/-- The wait comes after fewer than `2 ^ 32` posts. -/
def FewPosts (s : State) (e : Action) : Prop :=
  e = .consume → (∃ ftxVal, s.consumer = .waiting ftxVal) → s.posts < 2 ^ 32

/-! ### What the parties may rely on -/

/-- `stop` has still to increment the futex. -/
def Stopper.due : Stopper → Bool
  | .requested => true
  | .storing => true
  | .adding => true
  | _ => false

/-- A message in the queue has made the futex differ from what the consumer read,
or is going to. -/
def Announced (s : State) (msgs : List (List UInt8)) : Prop :=
  msgs ≠ [] → s.producer = .checking ∨ s.producer = .adding ∨ 0 < s.adds

/-- A stop request has made the futex differ from what the consumer read, or is
going to. -/
def StopAnnounced (s : State) : Prop :=
  s.stopRequested = true → s.stopper.due = true ∨ 0 < s.adds

/-- A message in the queue is going to wake the consumer. -/
def Wakes (s : State) (msgs : List (List UInt8)) : Prop :=
  msgs ≠ [] → s.producer = .checking ∨ s.producer = .adding ∨ s.producer = .waking

/-- A stop request is going to wake the consumer. -/
def StopWakes (s : State) : Prop :=
  s.stopRequested = true → s.stopper.due = true ∨ s.stopper = .waking

/-- What the consumer's program counter promises about the messages `msgs`. -/
def ConsumerOk (s : State) (msgs : List (List UInt8)) : Consumer → Prop
  | .announcing v => s.ftx = v + UInt32.ofNat s.adds
  | .rechecking v => s.ftx = v + UInt32.ofNat s.adds ∧ s.sleeping = true
  | .lastCheck v => s.ftx = v + UInt32.ofNat s.adds ∧ s.sleeping = true ∧ Announced s msgs
  | .waiting v => s.ftx = v + UInt32.ofNat s.adds ∧ s.sleeping = true ∧ Announced s msgs ∧
      StopAnnounced s
  | .blocked => s.sleeping = true ∧ Wakes s msgs ∧ StopWakes s
  | _ => True

/-- The invariant; `msgs` are the messages in the queue. -/
structure Inv (s : State) (msgs : List (List UInt8)) : Prop where
  contains : Contains c.slots s.queue msgs
  sized : ∀ msg ∈ msgs, msg.length = c.size
  writes : ∀ message waiter, s.producer = .writing message waiter → message.length = c.size
  started : s.stopper = .idle ∨ s.stopper = .requested → s.started = true
  consumer : ConsumerOk s msgs s.consumer

variable {c}

theorem Inv.start {q : SequencedSPSC} (hq : Constructed c.slots q) : Inv c (startState q) [] where
  contains := hq.contains
  sized msg hmsg := absurd hmsg List.not_mem_nil
  writes message waiter hw := by cases hw
  started _ := rfl
  consumer := trivial

/-- The other parties move: what they owe the consumer they still owe it. -/
theorem ConsumerOk.mono {s s' : State} {msgs msgs' : List (List UInt8)} {p : Consumer}
    (h : ConsumerOk s msgs p) (hsleeping : s'.sleeping = s.sleeping)
    (hftx : ∀ v, s.ftx = v + UInt32.ofNat s.adds → s'.ftx = v + UInt32.ofNat s'.adds)
    (hann : Announced s msgs → s.sleeping = true → Announced s' msgs')
    (hstop : StopAnnounced s → StopAnnounced s')
    (hwakes : p = .blocked → Wakes s msgs → s.sleeping = true → Wakes s' msgs')
    (hstopWakes : p = .blocked → StopWakes s → StopWakes s') : ConsumerOk s' msgs' p := by
  cases p with
  | announcing v => exact hftx v h
  | rechecking v => exact ⟨hftx v h.1, hsleeping.trans h.2⟩
  | lastCheck v =>
    obtain ⟨hv, hs, ha⟩ := h
    exact ⟨hftx v hv, hsleeping.trans hs, hann ha hs⟩
  | waiting v =>
    obtain ⟨hv, hs, ha, hst⟩ := h
    exact ⟨hftx v hv, hsleeping.trans hs, hann ha hs, hstop hst⟩
  | blocked =>
    obtain ⟨hs, hw, hst⟩ := h
    exact ⟨hsleeping.trans hs, hwakes rfl hw hs, hstopWakes rfl hst⟩
  | top waiter => trivial
  | reading waiter => trivial
  | draining => trivial
  | drained => trivial
  | givingUp waiter => trivial
  | loading => trivial
  | found => trivial
  | clearing => trivial
  | left => trivial

namespace Inv

variable {s s' : State} {msgs : List (List UInt8)}

/-- A producer that has nothing to announce, and still has nothing. -/
theorem quiet (h : Inv c s msgs) {p : Producer} (posts : ℕ) (hc : s.producer ≠ .checking)
    (ha : s.producer ≠ .adding) (hw : s.producer = .waking → s.consumer ≠ .blocked)
    (hwrites : ∀ message waiter, p = .writing message waiter → message.length = c.size) :
    Inv c { s with producer := p, posts := posts } msgs where
  contains := h.contains
  sized := h.sized
  writes := hwrites
  started := h.started
  consumer := by
    refine h.consumer.mono rfl (fun _ hv => hv) (fun hann _ hne => ?_) (fun hst => hst)
      (fun hb hwakes _ hne => ?_) (fun _ hst => hst)
    · exact .inr (.inr (((hann hne).resolve_left hc).resolve_left ha))
    · exact absurd hb (hw (((hwakes hne).resolve_left hc).resolve_left ha))

/-- The producer has written, or has given up, and is going to look at
`sleeping_`. -/
theorem toChecking (h : Inv c s msgs) {q : SequencedSPSC} {msgs' : List (List UInt8)}
    (hq : Contains c.slots q msgs') (hsized : ∀ msg ∈ msgs', msg.length = c.size) :
    Inv c { s with queue := q, producer := .checking } msgs' where
  contains := hq
  sized := hsized
  writes message waiter hw := by cases hw
  started := h.started
  consumer := by
    refine h.consumer.mono rfl (fun _ hv => hv) (fun _ _ _ => .inl rfl) (fun hst => hst)
      (fun _ _ _ _ => .inl rfl) (fun _ hst => hst)

/-- The producer looks at `sleeping_`. -/
theorem loadSleeping (h : Inv c s msgs) :
    Inv c { s with producer := if s.sleeping then .adding else .idle } msgs where
  contains := h.contains
  sized := h.sized
  writes message waiter hw := by
    change (if s.sleeping = true then Producer.adding else .idle) = _ at hw
    split at hw <;> cases hw
  started := h.started
  consumer := by
    refine h.consumer.mono rfl (fun _ hv => hv) (fun _ hs _ => .inr (.inl (if_pos hs)))
      (fun hst => hst) (fun _ _ hs _ => .inr (.inl (if_pos hs))) (fun _ hst => hst)

/-- The producer increments the futex. -/
theorem produceAdd (h : Inv c s msgs) : Inv c { s.fetchAdd with producer := .waking } msgs where
  contains := h.contains
  sized := h.sized
  writes message waiter hw := by cases hw
  started := h.started
  consumer := by
    refine h.consumer.mono rfl (fun v hv => ?_) (fun _ _ _ => .inr (.inr (Nat.succ_pos _)))
      (fun _ _ => .inr (Nat.succ_pos _)) (fun _ _ _ _ => .inr (.inr rfl)) (fun _ hst => hst)
    rw [State.fetchAdd, hv, Futex.add_one]

/-- `stop` increments the futex. -/
theorem stopAdd (h : Inv c s msgs) : Inv c { s.fetchAdd with stopper := .waking } msgs where
  contains := h.contains
  sized := h.sized
  writes := h.writes
  started hs := by simp at hs
  consumer := by
    refine h.consumer.mono rfl (fun v hv => ?_) (fun _ _ _ => .inr (.inr (Nat.succ_pos _)))
      (fun _ _ => .inr (Nat.succ_pos _)) (fun _ hw _ => hw) (fun _ _ _ => .inr rfl)
    rw [State.fetchAdd, hv, Futex.add_one]

/-- A stop request, and the steps of `stop` before the increment. -/
theorem stopping (h : Inv c s msgs) (requested : Bool) {st : Stopper} {started : Bool}
    (hdue : st.due = true) (hstarted : st = .requested → started = true) :
    Inv c { s with stopRequested := requested, started := started, stopper := st } msgs where
  contains := h.contains
  sized := h.sized
  writes := h.writes
  started hs := by
    rcases hs with rfl | hs
    · cases hdue
    · exact hstarted hs
  consumer := by
    refine h.consumer.mono rfl (fun _ hv => hv) (fun hann _ => hann) (fun _ _ => .inl hdue)
      (fun _ hw _ => hw) (fun _ _ _ => .inl hdue)

/-- The consumer moves on without touching the queue. -/
theorem consuming (h : Inv c s msgs) {s' : State} (hqueue : s'.queue = s.queue)
    (hproducer : s'.producer = s.producer) (hstopper : s'.stopper = s.stopper)
    (hstarted : s'.started = s.started) (hok : ConsumerOk s' msgs s'.consumer) :
    Inv c s' msgs where
  contains := by rw [hqueue]; exact h.contains
  sized := h.sized
  writes := by rw [hproducer]; exact h.writes
  started := by rw [hstopper, hstarted]; exact h.started
  consumer := hok

/-- The consumer looks at the stop token where neither branch promises anything. -/
theorem branching (h : Inv c s msgs) {p q : Consumer} (hp : ∀ s, ConsumerOk s msgs p)
    (hq : ∀ s, ConsumerOk s msgs q) :
    Inv c { s with consumer := if s.stopRequested then p else q } msgs := by
  refine h.consuming rfl rfl rfl rfl ?_
  show ConsumerOk _ _ (if s.stopRequested = true then p else q)
  split
  · exact hp _
  · exact hq _

/-- What a read of the consumer can do. -/
theorem read (h : Inv c s msgs) :
    (msgs = [] ∧ s.queue.read c.slots c.size = none) ∨
    (∃ msg q rest, s.queue.read c.slots c.size = some (msg, q) ∧
      ∀ p, ConsumerOk { s with queue := q, consumer := p } rest p →
        Inv c { s with queue := q, consumer := p } rest) := by
  rcases h.contains.read fun msg hmsg => le_of_eq (h.sized msg hmsg) with
    ⟨rfl, hread⟩ | ⟨msg, rest, q, rfl, hread, hrest⟩
  · exact .inl ⟨rfl, hread⟩
  · refine .inr ⟨msg, q, rest, hread, fun p hok => ?_⟩
    exact ⟨hrest, fun m hm => h.sized m (List.mem_cons_of_mem _ hm), h.writes, h.started, hok⟩

theorem post (h : Inv c s msgs) {message : List UInt8} (hs : s.post c message = some s') :
    Inv c s' msgs := by
  rw [State.post, Option.ite_none_right_eq_some, Option.some_inj] at hs
  obtain ⟨⟨hp, hsize⟩, rfl⟩ := hs
  refine h.quiet _ (by simp [hp]) (by simp [hp]) (by simp [hp]) fun message' waiter hw => ?_
  split at hw
  · cases hw
  · obtain ⟨rfl, _⟩ := Producer.writing.inj hw
    exact hsize

theorem produce (h : Inv c s msgs) (hs : s.produce c = some s') : ∃ msgs', Inv c s' msgs' := by
  rw [State.produce] at hs
  split at hs
  · cases hs
  · next message waiter hp =>
    have hsize := h.writes message waiter hp
    split at hs
    · next q hq =>
      obtain rfl := Option.some_inj.1 hs
      refine ⟨msgs ++ [message], h.toChecking (h.contains.write hq) fun msg hmsg => ?_⟩
      rcases List.mem_append.1 hmsg with hmsg | hmsg
      · exact h.sized msg hmsg
      · rw [List.mem_singleton.1 hmsg]
        exact hsize
    · split at hs
      · next waiter' _ =>
        obtain rfl := Option.some_inj.1 hs
        refine ⟨msgs, h.quiet s.posts (by simp [hp]) (by simp [hp]) (by simp [hp]) ?_⟩
        intro message' waiter'' hw
        obtain ⟨rfl, _⟩ := Producer.writing.inj hw
        exact hsize
      · obtain rfl := Option.some_inj.1 hs
        exact ⟨msgs, h.toChecking h.contains h.sized⟩
  · obtain rfl := Option.some_inj.1 hs
    exact ⟨msgs, h.loadSleeping⟩
  · obtain rfl := Option.some_inj.1 hs
    exact ⟨msgs, h.produceAdd⟩
  · next hp =>
    obtain rfl := Option.some_inj.1 hs
    refine ⟨msgs, ?_⟩
    rw [State.futexWake]
    split
    · exact ⟨h.contains, h.sized, by simp, h.started, trivial⟩
    · next hb => exact h.quiet s.posts (by simp [hp]) (by simp [hp]) (fun _ => hb) (by simp)

theorem stop (h : Inv c s msgs) (hs : s.stop = some s') : Inv c s' msgs := by
  rw [State.stop] at hs
  split at hs
  · next hst =>
    obtain rfl := Option.some_inj.1 hs
    exact h.stopping true rfl fun _ => h.started (.inl hst)
  · next hst =>
    obtain rfl := Option.some_inj.1 hs
    have hstarted := h.started (.inr hst)
    rw [if_pos hstarted]
    exact h.stopping s.stopRequested rfl fun _ => hstarted
  · obtain rfl := Option.some_inj.1 hs
    exact h.stopping s.stopRequested rfl (by simp)
  · obtain rfl := Option.some_inj.1 hs
    exact h.stopAdd
  · next hst =>
    obtain rfl := Option.some_inj.1 hs
    rw [State.futexWake]
    split
    · exact ⟨h.contains, h.sized, h.writes, by simp, trivial⟩
    · next hb =>
      refine ⟨h.contains, h.sized, h.writes, by simp, ?_⟩
      refine h.consumer.mono rfl (fun _ hv => hv) (fun hann _ => hann) (fun hann hreq => ?_)
        (fun _ hw _ => hw) (fun hblocked => absurd hblocked hb)
      have hadds := hann hreq
      rw [hst] at hadds
      exact .inr (hadds.resolve_left (by simp [Stopper.due]))
  · cases hs

theorem consume (h : Inv c s msgs) (hfew : FewAdds s .consume) (hs : s.consume c = some s') :
    ∃ msgs', Inv c s' msgs' := by
  have hok := h.consumer
  rw [State.consume] at hs
  split at hs
  · obtain rfl := Option.some_inj.1 hs
    exact ⟨msgs, h.branching (fun _ => trivial) (fun _ => trivial)⟩
  · -- the first read of the loop
    rcases h.read with ⟨rfl, hread⟩ | ⟨msg, q, rest, hread, hInv⟩
    · rw [hread] at hs
      split at hs
      · next hsome => cases hsome
      · split at hs
        · obtain rfl := Option.some_inj.1 hs
          exact ⟨[], h.consuming rfl rfl rfl rfl trivial⟩
        · obtain rfl := Option.some_inj.1 hs
          exact ⟨[], h.consuming rfl rfl rfl rfl trivial⟩
    · rw [hread] at hs
      obtain rfl := Option.some_inj.1 hs
      exact ⟨rest, hInv _ trivial⟩
  · rcases h.read with ⟨rfl, hread⟩ | ⟨msg, q, rest, hread, hInv⟩
    · rw [hread] at hs
      obtain rfl := Option.some_inj.1 hs
      exact ⟨[], h.consuming rfl rfl rfl rfl trivial⟩
    · rw [hread] at hs
      obtain rfl := Option.some_inj.1 hs
      exact ⟨rest, hInv _ trivial⟩
  · obtain rfl := Option.some_inj.1 hs
    exact ⟨msgs, h.branching (fun _ => trivial) (fun _ => trivial)⟩
  · obtain rfl := Option.some_inj.1 hs
    exact ⟨msgs, h.branching (fun _ => trivial) (fun _ => trivial)⟩
  · obtain rfl := Option.some_inj.1 hs
    refine ⟨msgs, h.consuming rfl rfl rfl rfl ?_⟩
    show s.ftx = s.ftx + 0
    rw [UInt32.add_zero]
  · next v hp =>
    obtain rfl := Option.some_inj.1 hs
    rw [hp] at hok
    exact ⟨msgs, h.consuming rfl rfl rfl rfl ⟨hok, rfl⟩⟩
  · -- the look at the queue after the announcement
    next v hp =>
    rw [hp] at hok
    rcases h.read with ⟨rfl, hread⟩ | ⟨msg, q, rest, hread, hInv⟩
    · rw [hread] at hs
      obtain rfl := Option.some_inj.1 hs
      exact ⟨[], h.consuming rfl rfl rfl rfl ⟨hok.1, hok.2, fun hne => absurd rfl hne⟩⟩
    · rw [hread] at hs
      obtain rfl := Option.some_inj.1 hs
      exact ⟨rest, hInv _ trivial⟩
  · obtain rfl := Option.some_inj.1 hs
    exact ⟨msgs, h.consuming rfl rfl rfl rfl trivial⟩
  · -- the look at the stop token after the announcement
    next v hp =>
    obtain rfl := Option.some_inj.1 hs
    rw [hp] at hok
    obtain ⟨hv, hsleeping, hann⟩ := hok
    refine ⟨msgs, h.consuming rfl rfl rfl rfl ?_⟩
    show ConsumerOk _ _ (if s.stopRequested = true then _ else _)
    split
    · trivial
    · next hstop => exact ⟨hv, hsleeping, hann, fun hreq => absurd hreq hstop⟩
  · next v hp =>
    obtain rfl := Option.some_inj.1 hs
    rw [hp] at hok
    obtain ⟨hv, hsleeping, hann, hstop⟩ := hok
    refine ⟨msgs, h.consuming rfl rfl rfl rfl ?_⟩
    show ConsumerOk _ _ (if Futex.sleeps s.ftx v then _ else _)
    split
    · next hsleeps =>
      -- the futex is unchanged, so what is due is still to come
      rw [hv] at hsleeps
      have hzero := Futex.eq_zero_of_sleeps (hfew rfl ⟨v, hp⟩) hsleeps
      refine ⟨hsleeping, fun hne => ?_, fun hreq => ?_⟩
      · rcases hann hne with hc | ha | hpos
        · exact .inl hc
        · exact .inr (.inl ha)
        · omega
      · rcases hstop hreq with hdue | hpos
        · exact .inl hdue
        · omega
    · trivial
  · cases hs
  · obtain rfl := Option.some_inj.1 hs
    exact ⟨msgs, h.consuming rfl rfl rfl rfl trivial⟩
  · cases hs

theorem act (h : Inv c s msgs) {e : Action} (hfew : FewAdds s e) (hs : s.act c e = some s') :
    ∃ msgs', Inv c s' msgs' := by
  cases e with
  | post message => exact ⟨msgs, h.post hs⟩
  | produce => exact h.produce hs
  | consume => exact h.consume hfew hs
  | stop => exact ⟨msgs, h.stop hs⟩
  | spurious =>
    rw [State.act, Option.ite_none_right_eq_some, Option.some_inj] at hs
    obtain ⟨_, rfl⟩ := hs
    exact ⟨msgs, h.consuming rfl rfl rfl rfl trivial⟩

theorem run {es : List Action} (h : ((runner c).restrict FewAdds).Run es s) :
    ∃ msgs, Inv c s msgs := by
  refine Machine.Run.invariant (I := fun s => ∃ msgs, Inv c s msgs) ?_ ?_ h
  · rintro s ⟨q, hq, rfl⟩
    exact ⟨[], .start hq⟩
  · rintro s e s' ⟨msgs, hI⟩ ⟨hfew, hs⟩
    exact hI.act hfew hs

end Inv

/-- **No lost wake-up in the runner**, in every run in which the consumer waits
only after fewer than `2 ^ 32` increments of the futex since it read it. -/
theorem consumer_not_stranded {es : List Action} {s : State}
    (h : ((runner c).restrict FewAdds).Run es s) : ¬ Stranded c s := by
  obtain ⟨msgs, hI⟩ := Inv.run h
  rintro ⟨hblocked, hwork, hproducer, hstopper⟩
  have hok := hI.consumer
  rw [hblocked] at hok
  obtain ⟨hsleeping, hwakes, hstopWakes⟩ := hok
  rcases hwork with hread | hreq
  · rw [hsleeping] at hproducer
    rcases hwakes (hI.contains.canRead_iff.1 hread) with hp | hp | hp
    · rw [hp] at hproducer
      cases hproducer
    · rw [hp] at hproducer
      cases hproducer
    · rw [hp] at hproducer
      cases hproducer
  · have hstarted := hI.started
    rcases hstopWakes hreq with hdue | hst
    · cases hst : s.stopper with
      | idle => rw [hst] at hdue; cases hdue
      | requested =>
        rw [hstarted (.inr hst), hst] at hstopper
        cases hstopper
      | storing => rw [hst] at hstopper; cases hstopper
      | adding => rw [hst] at hstopper; cases hstopper
      | waking => rw [hst] at hstopper; cases hstopper
      | finished => rw [hst] at hdue; cases hdue
    · rw [hst] at hstopper
      cases hstopper

/-! ### One increment too many -/

/-- A state at the end of a run under the guard. -/
def Reaches (c : Config) (G : State → Action → Prop) (s : State) : Prop :=
  ∃ es, ((runner c).restrict G).Run es s

theorem Reaches.step {G : State → Action → Prop} {s s' : State} (h : Reaches c G s) (e : Action)
    (hG : G s e) (hs : s.act c e = some s') : Reaches c G s' := by
  obtain ⟨es, hrun⟩ := h
  exact ⟨es ++ [e], .snoc hrun ⟨hG, hs⟩⟩

/-- Both ways of counting say nothing of a step that is not the wait. -/
theorem few_of_ne {s : State} {e : Action} (h : e = .consume → ∀ v, s.consumer ≠ .waiting v) :
    FewPosts s e ∧ FewAdds s e :=
  ⟨fun he hw => absurd hw.choose_spec (h he _), fun he hw => absurd hw.choose_spec (h he _)⟩

/-- Runs that respect both ways of counting. -/
def Few (s : State) (e : Action) : Prop := FewPosts s e ∧ FewAdds s e

/-- The consumer finds nothing again and again. -/
theorem reaches_top {q : SequencedSPSC} (hq : Constructed c.slots q) (n : ℕ)
    (hn : n < spinRetriesYield) :
    Reaches c Few { startState q with consumer := .top ⟨spinRetriesYield, n⟩ } := by
  induction n with
  | zero => exact ⟨[], .start ⟨q, hq, rfl⟩⟩
  | succ n ih =>
    have hread : q.read c.slots c.size = none := hq.contains.read_empty _
    have hnext : SpinWait.next ⟨spinRetriesYield, n⟩ = (true, ⟨spinRetriesYield, n + 1⟩) :=
      SpinWait.next_of_lt (Nat.lt_of_succ_lt hn) hn
    refine ((ih (Nat.lt_of_succ_lt hn)).step .consume (few_of_ne (by simp)) rfl).step .consume
      (few_of_ne (by simp [startState])) ?_
    simp [State.act, State.consume, startState, hread, hnext]

/-- The consumer before its wait: it has read 0 from the futex and announced that
it sleeps. -/
def atWait (q : SequencedSPSC) (p : Producer) (ftx : UInt32) (posts adds : ℕ) : State where
  queue := q
  sleeping := true
  ftx := ftx
  started := true
  stopRequested := false
  producer := p
  consumer := .waiting 0
  stopper := .idle
  posts := posts
  adds := adds

theorem reaches_atWait {q : SequencedSPSC} (hq : Constructed c.slots q) :
    Reaches c Few (atWait q .idle 0 0 0) := by
  have hread : q.read c.slots c.size = none := hq.contains.read_empty _
  have hlast : SpinWait.next ⟨spinRetriesYield, spinRetriesYield - 1⟩ =
      (false, ⟨spinRetriesYield, spinRetriesYield - 1 + 1⟩) :=
    SpinWait.next_last (by decide) (by decide)
  have hreading : Reaches c Few { startState q with
      consumer := .reading ⟨spinRetriesYield, spinRetriesYield - 1⟩ } :=
    (reaches_top hq (spinRetriesYield - 1) (by decide)).step .consume (few_of_ne (by simp)) rfl
  have hgiving : Reaches c Few { startState q with
      consumer := .givingUp ⟨spinRetriesYield, spinRetriesYield - 1 + 1⟩ } := by
    refine hreading.step .consume (few_of_ne (by simp)) ?_
    simp only [State.act, State.consume, startState, hread, hlast]
  have hloading : Reaches c Few { startState q with consumer := .loading } :=
    hgiving.step .consume (few_of_ne (by simp)) rfl
  have hannouncing : Reaches c Few { startState q with consumer := .announcing 0 } :=
    hloading.step .consume (few_of_ne (by simp)) rfl
  have hrechecking : Reaches c Few { startState q with
      sleeping := true, consumer := .rechecking 0 } :=
    hannouncing.step .consume (few_of_ne (by simp)) rfl
  have hlastCheck : Reaches c Few { startState q with
      sleeping := true, consumer := .lastCheck 0 } := by
    refine hrechecking.step .consume (few_of_ne (by simp)) ?_
    simp only [State.act, State.consume, startState, hread]
  exact hlastCheck.step .consume (few_of_ne (by simp)) rfl

/-- A post to a full queue gives up. -/
theorem reaches_checking {q : SequencedSPSC} {message : List UInt8} {ftx : UInt32}
    {posts adds : ℕ} (hfull : q.write c.slots message = none) (k : ℕ) :
    ∀ n, n + k = spinRetriesYield - 1 →
      Reaches c Few (atWait q (.writing message ⟨spinRetriesYield, n⟩) ftx posts adds) →
      Reaches c Few (atWait q .checking ftx posts adds) := by
  induction k with
  | zero =>
    intro n hn h
    have hlast : SpinWait.next ⟨spinRetriesYield, n⟩ = (false, ⟨spinRetriesYield, n + 1⟩) := by
      rw [show n = spinRetriesYield - 1 by omega]
      exact SpinWait.next_last (by decide) (by decide)
    refine h.step .produce (few_of_ne (by simp)) ?_
    simp only [State.act, State.produce, atWait, hfull, hlast]
  | succ k ih =>
    intro n hn h
    have hnext : SpinWait.next ⟨spinRetriesYield, n⟩ = (true, ⟨spinRetriesYield, n + 1⟩) := by
      refine SpinWait.next_of_lt ?_ ?_
      · show n < spinRetriesYield
        omega
      · show n + 1 < spinRetriesYield
        omega
    refine ih (n + 1) (by omega) (h.step .produce (few_of_ne (by simp)) ?_)
    simp only [State.act, State.produce, atWait, hfull, hnext]

/-- A post while the consumer is about to wait increments the futex, whether or
not there was room for its message. -/
theorem reaches_post {q : SequencedSPSC} {msgs : List (List UInt8)} {ftx : UInt32}
    {posts adds : ℕ} (hsize : c.size ≤ SequencedSPSC.maxDataSize) (hq : Contains c.slots q msgs)
    (h : Reaches c Few (atWait q .idle ftx posts adds)) :
    ∃ q' msgs', Contains c.slots q' msgs' ∧ msgs' ≠ [] ∧
      Reaches c Few (atWait q' .idle (ftx + 1) (posts + 1) (adds + 1)) := by
  set message : List UInt8 := List.replicate c.size 0 with hmessage
  have hlen : message.length = c.size := List.length_replicate
  have hwriting : Reaches c Few (atWait q (.writing message {}) ftx (posts + 1) adds) := by
    refine h.step (.post message) (few_of_ne (by simp)) ?_
    simp [State.act, State.post, atWait, hlen]
  -- the call after its loop
  have hrest : ∀ q', Reaches c Few (atWait q' .checking ftx (posts + 1) adds) →
      Reaches c Few (atWait q' .idle (ftx + 1) (posts + 1) (adds + 1)) := by
    intro q' hchecking
    have hadding : Reaches c Few (atWait q' .adding ftx (posts + 1) adds) :=
      hchecking.step .produce (few_of_ne (by simp)) rfl
    have hwaking : Reaches c Few (atWait q' .waking (ftx + 1) (posts + 1) (adds + 1)) :=
      hadding.step .produce (few_of_ne (by simp)) rfl
    exact hwaking.step .produce (few_of_ne (by simp)) rfl
  cases hwrite : q.write c.slots message with
  | some q' =>
    refine ⟨q', _, hq.write hwrite, by simp,
      hrest q' (hwriting.step .produce (few_of_ne (by simp)) ?_)⟩
    simp only [State.act, State.produce, atWait, hwrite]
  | none =>
    have hne : msgs ≠ [] := by
      rintro rfl
      have hcan : canWrite c.slots q message :=
        (hq.canWrite_iff message).2 ⟨by omega, c.slots.val_pos⟩
      rw [SequencedSPSC.write, if_pos hcan] at hwrite
      cases hwrite
    exact ⟨q, msgs, hq, hne,
      hrest q (reaches_checking hwrite (spinRetriesYield - 1) 0 (Nat.zero_add _) hwriting)⟩

theorem reaches_posts (hsize : c.size ≤ SequencedSPSC.maxDataSize) {q : SequencedSPSC}
    (hq : Constructed c.slots q) (n : ℕ) :
    ∃ q' msgs, Contains c.slots q' msgs ∧ (0 < n → msgs ≠ []) ∧
      Reaches c Few (atWait q' .idle (UInt32.ofNat n) n n) := by
  induction n with
  | zero => exact ⟨q, [], hq.contains, fun h => absurd h (lt_irrefl 0), reaches_atWait hq⟩
  | succ n ih =>
    obtain ⟨q', msgs, hq', _, h⟩ := ih
    obtain ⟨q'', msgs', hq'', hne, h'⟩ := reaches_post hsize hq' h
    rw [show UInt32.ofNat n + 1 = UInt32.ofNat (n + 1) by
      rw [UInt32.ofNat_add, UInt32.ofNat_one]] at h'
    exact ⟨q'', msgs', hq'', fun _ => hne, h'⟩

/-- The stop request and `stop()` come before the wait, and bring the futex back to
the value the consumer read. -/
theorem Reaches.stopped {q : SequencedSPSC} {ftx : UInt32} {posts adds : ℕ}
    (h : Reaches c FewPosts (atWait q .idle ftx posts adds)) (hftx : ftx + 1 = 0)
    (hposts : posts < 2 ^ 32) :
    Reaches c FewPosts { atWait q .idle (ftx + 1) posts (adds + 1) with
      started := false, stopRequested := true, consumer := .blocked, stopper := .finished } := by
  have hfew : ∀ s, FewPosts s .stop := fun s he => by cases he
  have hrequested : Reaches c FewPosts { atWait q .idle ftx posts adds with
      stopRequested := true, stopper := .requested } := h.step .stop (hfew _) rfl
  have hstoring : Reaches c FewPosts { atWait q .idle ftx posts adds with
      stopRequested := true, stopper := .storing } := hrequested.step .stop (hfew _) rfl
  have hadding : Reaches c FewPosts { atWait q .idle ftx posts adds with
      started := false, stopRequested := true, stopper := .adding } :=
    hstoring.step .stop (hfew _) rfl
  have hwaking : Reaches c FewPosts { atWait q .idle (ftx + 1) posts (adds + 1) with
      started := false, stopRequested := true, stopper := .waking } :=
    hadding.step .stop (hfew _) rfl
  have hfinished : Reaches c FewPosts { atWait q .idle (ftx + 1) posts (adds + 1) with
      started := false, stopRequested := true, stopper := .finished } :=
    hwaking.step .stop (hfew _) rfl
  have hsleeps : Futex.sleeps (ftx + 1) 0 := hftx
  refine hfinished.step .consume (fun _ _ => hposts) ?_
  simp [State.act, State.consume, atWait, hsleeps]

/-- The runner of a worker: the default capacity, and messages of 24 bytes. -/
def workerConfig : Config := ⟨.standard, 24, by decide⟩

theorem exists_constructed : ∃ q, Constructed workerConfig.slots q :=
  SequencedSPSC.exists_constructed (by decide)

/-- The consumer is about to wait when a message comes, and does not sleep. -/
theorem consumer_not_stranded_post :
    ∃ es s, ((runner workerConfig).restrict FewAdds).Run es s ∧
      canRead workerConfig.slots s.queue ∧ s.sleeping = true ∧ ¬ Stranded workerConfig s := by
  obtain ⟨q, hq⟩ := exists_constructed
  obtain ⟨q', msgs, hq', hne, es, hrun⟩ := reaches_posts (by decide) hq 1
  have hrun' : ((runner workerConfig).restrict FewAdds).Run es _ :=
    hrun.restrict_mono fun _ _ h => h.2
  exact ⟨es, _, hrun', hq'.canRead_iff.2 (hne Nat.one_pos), rfl, consumer_not_stranded hrun'⟩

/-- After `2 ^ 32 - 1` posts and the increment of `stop()` the futex has again the
value the consumer read: the consumer goes to sleep, although messages are in the
queue and the stop was requested, and nobody is left to wake it. -/
theorem consumer_stranded :
    ∃ es s, ((runner workerConfig).restrict FewPosts).Run es s ∧ Stranded workerConfig s ∧
      canRead workerConfig.slots s.queue ∧ s.stopRequested = true := by
  obtain ⟨q, hq⟩ := exists_constructed
  obtain ⟨q', msgs, hq', hne, es, hrun⟩ := reaches_posts (by decide) hq (2 ^ 32 - 1)
  have hwaits : Reaches workerConfig FewPosts
      (atWait q' .idle (UInt32.ofNat (2 ^ 32 - 1)) (2 ^ 32 - 1) (2 ^ 32 - 1)) :=
    ⟨es, hrun.restrict_mono fun _ _ h => h.1⟩
  obtain ⟨es', hrun'⟩ := hwaits.stopped (by decide) (by decide)
  have hread : canRead workerConfig.slots q' := hq'.canRead_iff.2 (hne (by decide))
  exact ⟨es', _, hrun', ⟨rfl, .inl hread, rfl, rfl⟩, hread, rfl⟩

end LfqRunner
