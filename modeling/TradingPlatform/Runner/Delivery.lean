/-
What becomes of the messages of a runner.

The order path of the server takes a runner for a queue that loses nothing but what finds
it full.  Here this is shown of the runner itself, with its spinning, its sleep and its
stop: every message whose post was not refused is either in the queue, in the order of the
posts, or has been handed to the consumer, in the same order and once.

* `Delivery` — a runner with the history of its messages;
* `Carries` — where each of them is;
* `handled_in_order` — along every run, and whatever the parties do;
* `drains` — left alone, the consumer hands on everything that was written.

Two messages are not delivered, and both are visible in the source: a post to a queue that
stays full for as long as `SpinWait` allows gives up, and a message that the inner loop has
taken is not handed on if a stop was requested in the meantime.
-/
import TradingPlatform.Runner.Lfq
import Mathlib.Data.List.Perm.Basic

namespace LfqRunner

open SequencedSPSC (Contains Constructed canRead)

/-- A runner, the message its loop has taken and not yet handed on, and history: the
messages of the calls of `post` that got to the queue, those that were written and those
that gave up, and those that were handed to the consumer. -/
structure Delivery where
  runner : State
  message : Option (List UInt8)
  posted : List (List UInt8)
  written : List (List UInt8)
  dropped : List (List UInt8)
  handled : List (List UInt8)
  skipped : Option (List UInt8)

/-- The message of a call of `post` that is at its loop. -/
def Producer.message : Producer → List (List UInt8)
  | .writing message _ => [message]
  | _ => []

variable (c : Config)

namespace Delivery

/-- `queue_.read(msgPtr, msgSize)`. -/
def take (d : Delivery) : Delivery :=
  match d.runner.queue.read c.slots c.size with
  | some (msg, _) => { d with message := some msg }
  | none => d

/-- `consumer_.post(message)`. -/
def handle (d : Delivery) : Delivery :=
  { d with handled := d.handled ++ d.message.toList, message := none }

/-- What a step of the runner does to the messages. -/
def note (d : Delivery) : Action → Delivery
  | .post message =>
    if d.runner.stopRequested then d else { d with posted := d.posted ++ [message] }
  | .produce =>
    match d.runner.producer with
    | .writing message waiter =>
      if (d.runner.queue.write c.slots message).isSome then
        { d with written := d.written ++ [message] }
      else if waiter.next.1 then d
      else { d with dropped := d.dropped ++ [message] }
    | _ => d
  | .consume =>
    match d.runner.consumer with
    | .reading _ => d.take c
    | .draining => d.handle.take c
    -- the condition of the inner loop: the message has been taken
    | .drained =>
      if d.runner.stopRequested then { d with message := none, skipped := d.message } else d
    | .rechecking _ => d.take c
    | .found => d.handle
    | _ => d
  | .stop => d
  | .spurious => d

def act (d : Delivery) (e : Action) : Option Delivery :=
  (d.runner.act c e).map fun s => { d.note c e with runner := s }

end Delivery

/-- The runner, observed. -/
def delivery : Machine Delivery Action where
  init d := ∃ q, Constructed c.slots q ∧ d = ⟨startState q, none, [], [], [], [], none⟩
  step d e d' := d.act c e = some d'

/-! ### Where the messages are -/

/-- The consumer has taken a message that it has not handed on. -/
def Consumer.hasMessage : Consumer → Bool
  | .draining => true
  | .drained => true
  | .found => true
  | _ => false

/-- The consumer is on its way out, once a stop was requested. -/
def Consumer.leaves : Consumer → Bool
  | .top _ => true
  | .left => true
  | _ => false

/-- Where the messages are; `msgs` are those in the queue. -/
structure Carries (d : Delivery) (msgs : List (List UInt8)) : Prop where
  contains : Contains c.slots d.runner.queue msgs
  sized : ∀ msg ∈ msgs, msg.length = c.size
  writes : ∀ msg ∈ d.runner.producer.message, msg.length = c.size
  accounted : d.posted.Perm (d.written ++ (d.dropped ++ d.runner.producer.message))
  order : d.written = d.handled ++ (d.skipped.toList ++ (d.message.toList ++ msgs))
  inHand : d.message ≠ none → d.runner.consumer.hasMessage = true
  stopped : d.skipped ≠ none → d.runner.stopRequested = true ∧ d.runner.consumer.leaves = true

variable {c}

namespace Carries

variable {d : Delivery} {s : State} {msgs : List (List UInt8)}

theorem start {q : SequencedSPSC} (hq : Constructed c.slots q) :
    Carries c ⟨startState q, none, [], [], [], [], none⟩ [] where
  contains := hq.contains
  sized _ hmsg := absurd hmsg List.not_mem_nil
  writes _ hmsg := absurd hmsg List.not_mem_nil
  accounted := List.Perm.nil
  order := rfl
  inHand h := absurd rfl h
  stopped h := absurd rfl h

/-- The consumer has no message in its hands. -/
theorem message_none (h : Carries c d msgs) (hc : d.runner.consumer.hasMessage = false) :
    d.message = none := by
  by_contra hne
  rw [h.inHand hne] at hc
  cases hc

/-- The consumer has not skipped a message. -/
theorem skipped_none (h : Carries c d msgs) (hc : d.runner.consumer.leaves = false) :
    d.skipped = none := by
  by_contra hne
  rw [(h.stopped hne).2] at hc
  cases hc

/-- A step that leaves the queue and the messages alone. -/
theorem moved (h : Carries c d msgs) (hqueue : s.queue = d.runner.queue)
    (hproducer : s.producer.message = d.runner.producer.message)
    (hhand : d.message ≠ none → s.consumer.hasMessage = true)
    (hstop : d.skipped ≠ none → s.stopRequested = true ∧ s.consumer.leaves = true) :
    Carries c { d with runner := s } msgs where
  contains := by rw [hqueue]; exact h.contains
  sized := h.sized
  writes := by rw [hproducer]; exact h.writes
  accounted := by rw [hproducer]; exact h.accounted
  order := h.order
  inHand := hhand
  stopped := hstop

/-- A step of the consumer that has no message and has skipped none. -/
theorem consuming (h : Carries c d msgs) (hqueue : s.queue = d.runner.queue)
    (hproducer : s.producer = d.runner.producer)
    (hhand : d.runner.consumer.hasMessage = false) (hleaves : d.runner.consumer.leaves = false) :
    Carries c { d with runner := s } msgs := by
  refine h.moved hqueue (by rw [hproducer]) ?_ ?_
  · exact fun hne => absurd (h.message_none hhand) hne
  · exact fun hne => absurd (h.skipped_none hleaves) hne

/-- A step of a party that is not the consumer. -/
theorem other (h : Carries c d msgs) (hqueue : s.queue = d.runner.queue)
    (hproducer : s.producer.message = d.runner.producer.message)
    (hconsumer : s.consumer = d.runner.consumer ∨
      d.runner.consumer = .blocked ∧ s.consumer = .clearing)
    (hstop : d.runner.stopRequested = true → s.stopRequested = true) :
    Carries c { d with runner := s } msgs := by
  rcases hconsumer with hconsumer | ⟨hblocked, _⟩
  · refine h.moved hqueue hproducer ?_ ?_
    · rw [hconsumer]
      exact h.inHand
    · rw [hconsumer]
      exact fun hne => ⟨hstop (h.stopped hne).1, (h.stopped hne).2⟩
  · refine h.moved hqueue hproducer ?_ ?_
    · exact fun hne => absurd (h.message_none (by rw [hblocked]; rfl)) hne
    · exact fun hne => absurd (h.skipped_none (by rw [hblocked]; rfl)) hne

/-- The message in the consumer's hands is handed on. -/
theorem handle (h : Carries c d msgs) (hleaves : d.runner.consumer.leaves = false) :
    Carries c d.handle msgs where
  contains := h.contains
  sized := h.sized
  writes := h.writes
  accounted := h.accounted
  order := by
    show d.written = d.handled ++ d.message.toList ++ (d.skipped.toList ++ ([] ++ msgs))
    rw [h.order, h.skipped_none hleaves, List.append_assoc]
    rfl
  inHand hne := absurd rfl hne
  stopped := h.stopped

/-- A read of the consumer, which has no message. -/
theorem take (h : Carries c d msgs) (hnone : d.message = none)
    (hleaves : d.runner.consumer.leaves = false) {p : Consumer} (hp : p.hasMessage = true)
    (hread : ∀ msg q, d.runner.queue.read c.slots c.size = some (msg, q) →
      s = { d.runner with queue := q, consumer := p })
    (hempty : d.runner.queue.read c.slots c.size = none →
      ∃ p', s = { d.runner with consumer := p' }) :
    ∃ msgs', Carries c { d.take c with runner := s } msgs' := by
  have hskip := h.skipped_none hleaves
  rcases h.contains.read fun msg hmsg => le_of_eq (h.sized msg hmsg) with
    ⟨rfl, heq⟩ | ⟨msg, rest, q, rfl, heq, hrest⟩
  · obtain ⟨p', rfl⟩ := hempty heq
    simp only [Delivery.take, heq]
    exact ⟨[], h.moved rfl rfl (fun hne => absurd hnone hne) fun hne => absurd hskip hne⟩
  · obtain rfl := hread msg q heq
    simp only [Delivery.take, heq]
    refine ⟨rest, hrest, fun m hm => h.sized m (List.mem_cons_of_mem _ hm), h.writes,
      h.accounted, ?_, fun _ => hp, fun hne => absurd hskip hne⟩
    show d.written = d.handled ++ (d.skipped.toList ++ ([msg] ++ rest))
    rw [h.order, hnone]
    rfl

/-! The steps of the parties. -/

theorem post (h : Carries c d msgs) {message : List UInt8} (hs : d.runner.post c message = some s) :
    Carries c { d.note c (.post message) with runner := s } msgs := by
  rw [State.post, Option.ite_none_right_eq_some, Option.some_inj] at hs
  obtain ⟨⟨hidle, hsize⟩, rfl⟩ := hs
  rw [Delivery.note]
  by_cases hstop : d.runner.stopRequested = true
  · rw [if_pos hstop, if_pos hstop]
    exact h.other rfl (by rw [hidle]) (.inl rfl) fun hreq => hreq
  · rw [if_neg hstop, if_neg hstop]
    have haccounted := h.accounted
    rw [hidle] at haccounted
    refine ⟨h.contains, h.sized, ?_, ?_, h.order, h.inHand, h.stopped⟩
    · intro msg hmsg
      rw [List.mem_singleton.1 hmsg]
      exact hsize
    · show (d.posted ++ [message]).Perm (d.written ++ (d.dropped ++ [message]))
      rw [← List.append_assoc]
      refine List.Perm.append ?_ (List.Perm.refl _)
      rwa [show Producer.idle.message = [] from rfl, List.append_nil] at haccounted

theorem produce (h : Carries c d msgs) (hs : d.runner.produce c = some s) :
    ∃ msgs', Carries c { d.note c .produce with runner := s } msgs' := by
  rw [State.produce] at hs
  rw [Delivery.note]
  cases hp : d.runner.producer with
  | idle =>
    rw [hp] at hs
    cases hs
  | writing message waiter =>
    simp only [hp] at hs ⊢
    have hwrites := h.writes
    have haccounted := h.accounted
    rw [hp] at hwrites haccounted
    cases hwrite : d.runner.queue.write c.slots message with
    | some q =>
      simp only [hwrite, Option.some_inj] at hs
      subst hs
      refine ⟨msgs ++ [message], h.contains.write hwrite, ?_, by simp [Producer.message],
        ?_, ?_, h.inHand, h.stopped⟩
      · intro msg hmsg
        rcases List.mem_append.1 hmsg with hmsg | hmsg
        · exact h.sized msg hmsg
        · exact hwrites msg hmsg
      · show d.posted.Perm (d.written ++ [message] ++ (d.dropped ++ []))
        refine haccounted.trans ?_
        rw [List.append_nil, List.append_assoc]
        exact List.Perm.append_left _ List.perm_append_comm
      · show d.written ++ [message] = _
        rw [h.order]
        simp only [List.append_assoc]
        rfl
    | none =>
      simp only [hwrite] at hs
      cases hnext : waiter.next with
      | mk goOn waiter' =>
        rw [hnext] at hs
        cases goOn with
        | true =>
          obtain rfl := Option.some_inj.1 hs
          exact ⟨msgs, h.moved rfl (by rw [hp]; rfl) h.inHand h.stopped⟩
        | false =>
          obtain rfl := Option.some_inj.1 hs
          refine ⟨msgs, h.contains, h.sized, by simp [Producer.message], ?_, h.order, h.inHand,
            h.stopped⟩
          show d.posted.Perm (d.written ++ (d.dropped ++ [message] ++ []))
          rw [List.append_nil]
          exact haccounted
  | checking =>
    simp only [hp, Option.some_inj] at hs
    subst hs
    refine ⟨msgs, h.other rfl ?_ (.inl rfl) fun hreq => hreq⟩
    rw [hp]
    show Producer.message (if d.runner.sleeping = true then .adding else .idle) = _
    split
    · rfl
    · rfl
  | adding =>
    simp only [hp, Option.some_inj] at hs
    subst hs
    exact ⟨msgs, h.other rfl (by rw [hp]; rfl) (.inl rfl) fun hreq => hreq⟩
  | waking =>
    simp only [hp, Option.some_inj] at hs
    subst hs
    refine ⟨msgs, ?_⟩
    by_cases hblocked : d.runner.consumer = .blocked
    · rw [State.futexWake, if_pos hblocked]
      exact h.other rfl (by rw [hp]; rfl) (.inr ⟨hblocked, rfl⟩) fun hreq => hreq
    · rw [State.futexWake, if_neg hblocked]
      exact h.other rfl (by rw [hp]; rfl) (.inl rfl) fun hreq => hreq

theorem stop (h : Carries c d msgs) (hs : d.runner.stop = some s) :
    Carries c { d with runner := s } msgs := by
  rw [State.stop] at hs
  split at hs
  · obtain rfl := Option.some_inj.1 hs
    exact h.other rfl rfl (.inl rfl) fun _ => rfl
  · obtain rfl := Option.some_inj.1 hs
    exact h.other rfl rfl (.inl rfl) fun hreq => hreq
  · obtain rfl := Option.some_inj.1 hs
    exact h.other rfl rfl (.inl rfl) fun hreq => hreq
  · obtain rfl := Option.some_inj.1 hs
    exact h.other rfl rfl (.inl rfl) fun hreq => hreq
  · obtain rfl := Option.some_inj.1 hs
    rw [State.futexWake]
    split
    · next hblocked => exact h.other rfl rfl (.inr ⟨hblocked, rfl⟩) fun hreq => hreq
    · exact h.other rfl rfl (.inl rfl) fun hreq => hreq
  · cases hs

theorem consume (h : Carries c d msgs) (hs : d.runner.consume c = some s) :
    ∃ msgs', Carries c { d.note c .consume with runner := s } msgs' := by
  rw [State.consume] at hs
  rw [Delivery.note]
  cases hc : d.runner.consumer with
  | top waiter =>
    simp only [hc, Option.some_inj] at hs
    subst hs
    refine ⟨msgs, h.moved rfl rfl ?_ ?_⟩
    · exact fun hne => absurd (h.message_none (by rw [hc]; rfl)) hne
    · intro hne
      obtain ⟨hreq, _⟩ := h.stopped hne
      exact ⟨hreq, by rw [if_pos hreq]; rfl⟩
  | reading waiter =>
    simp only [hc] at hs ⊢
    refine h.take (h.message_none (by rw [hc]; rfl)) (by rw [hc]; rfl)
      (p := .draining) rfl ?_ ?_
    · intro msg q hread
      rw [hread] at hs
      exact (Option.some_inj.1 hs).symm
    · intro hread
      rw [hread] at hs
      cases hnext : waiter.next with
      | mk goOn waiter' =>
        rw [hnext] at hs
        cases goOn with
        | true => exact ⟨_, (Option.some_inj.1 hs).symm⟩
        | false => exact ⟨_, (Option.some_inj.1 hs).symm⟩
  | draining =>
    simp only [hc] at hs ⊢
    -- the message is handed on before the next one is taken
    refine (h.handle (by rw [hc]; rfl)).take rfl (by rw [Delivery.handle, hc]; rfl)
      (p := .drained) rfl ?_ ?_
    · intro msg q hread
      rw [show d.runner.queue.read c.slots c.size = some (msg, q) from hread] at hs
      exact (Option.some_inj.1 hs).symm
    · intro hread
      rw [show d.runner.queue.read c.slots c.size = none from hread] at hs
      exact ⟨_, (Option.some_inj.1 hs).symm⟩
  | drained =>
    simp only [hc, Option.some_inj] at hs ⊢
    subst hs
    have hskip := h.skipped_none (by rw [hc]; rfl)
    by_cases hstop : d.runner.stopRequested = true
    · rw [if_pos hstop, if_pos hstop]
      refine ⟨msgs, h.contains, h.sized, h.writes, h.accounted, ?_, ?_, fun _ => ⟨hstop, rfl⟩⟩
      · show d.written = d.handled ++ (d.message.toList ++ ([] ++ msgs))
        rw [h.order, hskip]
        rfl
      · exact fun hne => absurd rfl hne
    · rw [if_neg hstop, if_neg hstop]
      exact ⟨msgs, h.moved rfl rfl (fun _ => rfl) fun hne => absurd hskip hne⟩
  | rechecking ftxVal =>
    simp only [hc] at hs ⊢
    refine h.take (h.message_none (by rw [hc]; rfl)) (by rw [hc]; rfl) (p := .found) rfl ?_ ?_
    · intro msg q hread
      rw [hread] at hs
      exact (Option.some_inj.1 hs).symm
    · intro hread
      rw [hread] at hs
      exact ⟨_, (Option.some_inj.1 hs).symm⟩
  | found =>
    simp only [hc, Option.some_inj] at hs ⊢
    subst hs
    have hhandle := h.handle (by rw [hc]; rfl)
    refine ⟨msgs, hhandle.moved rfl rfl (fun hne => absurd rfl hne) ?_⟩
    exact fun hne => absurd (h.skipped_none (by rw [hc]; rfl)) hne
  | givingUp waiter =>
    simp only [hc, Option.some_inj] at hs
    subst hs
    exact ⟨msgs, h.consuming rfl rfl (by rw [hc]; rfl) (by rw [hc]; rfl)⟩
  | loading =>
    simp only [hc, Option.some_inj] at hs
    subst hs
    exact ⟨msgs, h.consuming rfl rfl (by rw [hc]; rfl) (by rw [hc]; rfl)⟩
  | announcing ftxVal =>
    simp only [hc, Option.some_inj] at hs
    subst hs
    exact ⟨msgs, h.consuming rfl rfl (by rw [hc]; rfl) (by rw [hc]; rfl)⟩
  | lastCheck ftxVal =>
    simp only [hc, Option.some_inj] at hs
    subst hs
    exact ⟨msgs, h.consuming rfl rfl (by rw [hc]; rfl) (by rw [hc]; rfl)⟩
  | waiting ftxVal =>
    simp only [hc, Option.some_inj] at hs
    subst hs
    exact ⟨msgs, h.consuming rfl rfl (by rw [hc]; rfl) (by rw [hc]; rfl)⟩
  | clearing =>
    simp only [hc, Option.some_inj] at hs
    subst hs
    exact ⟨msgs, h.consuming rfl rfl (by rw [hc]; rfl) (by rw [hc]; rfl)⟩
  | blocked =>
    rw [hc] at hs
    cases hs
  | left =>
    rw [hc] at hs
    cases hs

theorem act {d' : Delivery} (h : Carries c d msgs) {e : Action} (hs : d.act c e = some d') :
    ∃ msgs', Carries c d' msgs' := by
  rw [Delivery.act, Option.map_eq_some_iff] at hs
  obtain ⟨s, hs, rfl⟩ := hs
  cases e with
  | post message => exact ⟨msgs, h.post hs⟩
  | produce => exact h.produce hs
  | consume => exact h.consume hs
  | stop => exact ⟨msgs, h.stop hs⟩
  | spurious =>
    rw [State.act, Option.ite_none_right_eq_some, Option.some_inj] at hs
    obtain ⟨hblocked, rfl⟩ := hs
    exact ⟨msgs, h.other rfl rfl (.inr ⟨hblocked, rfl⟩) fun hreq => hreq⟩

theorem run {es : List Action} (h : (delivery c).Run es d) : ∃ msgs, Carries c d msgs := by
  refine Machine.Run.invariant (I := fun d => ∃ msgs, Carries c d msgs) ?_ ?_ h
  · rintro d ⟨q, hq, rfl⟩
    exact ⟨[], .start hq⟩
  · rintro d e d' ⟨msgs, hI⟩ hs
    exact hI.act hs

end Carries

/-- **Posts are handled in order.**  In every run, whatever the parties do and however the
consumer sleeps and wakes: what was written to the queue is what was handed to the consumer,
the message that a stop request made it skip, the one it has in its hands, and what is in
the queue, in this order; and a message that was posted is written, given up, or still to
be written, once. -/
theorem handled_in_order {es : List Action} {d : Delivery} (h : (delivery c).Run es d) :
    (∃ msgs, Contains c.slots d.runner.queue msgs ∧
      d.written = d.handled ++ (d.skipped.toList ++ (d.message.toList ++ msgs))) ∧
      d.posted.Perm (d.written ++ (d.dropped ++ d.runner.producer.message)) ∧
      (d.skipped ≠ none → d.runner.stopRequested = true) := by
  obtain ⟨msgs, hI⟩ := Carries.run h
  exact ⟨⟨msgs, hI.contains, hI.order⟩, hI.accounted, fun hne => (hI.stopped hne).1⟩

/-! ### The consumer, left alone -/

/-- The runs in which the futex does not come round. -/
def observed (c : Config) : Machine Delivery Action :=
  (delivery c).restrict fun d => FewAdds d.runner

theorem runner_of_observed {es : List Action} {d : Delivery} (h : (observed c).Run es d) :
    ((runner c).restrict FewAdds).Run es d.runner := by
  induction h with
  | start hi =>
    obtain ⟨q, hq, rfl⟩ := hi
    exact .start ⟨q, hq, rfl⟩
  | snoc _ hs ih =>
    obtain ⟨hfew, hs⟩ := hs
    obtain ⟨s, hact, rfl⟩ := Option.map_eq_some_iff.1 hs
    exact ih.snoc ⟨hfew, hact⟩

/-- Nothing is left when the consumer sleeps. -/
theorem handled_of_blocked {es : List Action} {d : Delivery} (h : (observed c).Run es d)
    (hblocked : d.runner.consumer = .blocked) (hidle : d.runner.producer = .idle) :
    d.handled = d.written := by
  obtain ⟨msgs, hI⟩ := Carries.run h.of_restrict
  obtain ⟨msgs', hI'⟩ := Inv.run (runner_of_observed h)
  have hok := hI'.consumer
  rw [hblocked] at hok
  obtain ⟨_, hwakes, _⟩ := hok
  have hnone : msgs' = [] := by
    by_contra hne
    rcases hwakes hne with hp | hp | hp
    · simp [hidle] at hp
    · simp [hidle] at hp
    · simp [hidle] at hp
  have hmsgs : msgs = [] := by
    by_contra hne
    exact hI'.contains.canRead_iff.1 (hI.contains.canRead_iff.2 hne) hnone
  rw [hI.order, hI.skipped_none (by rw [hblocked]; rfl), hI.message_none (by rw [hblocked]; rfl),
    hmsgs]
  exact (List.append_nil _).symm

/-- No post is under way and no stop was requested; `msgs` are in the queue. -/
structure Alone (c : Config) (s : State) (msgs : List (List UInt8)) : Prop where
  contains : Contains c.slots s.queue msgs
  sized : ∀ msg ∈ msgs, msg.length = c.size
  idle : s.producer = .idle
  running : s.stopRequested = false

/-- The oldest message can be taken. -/
theorem Alone.read_cons {s : State} {msg : List UInt8} {rest : List (List UInt8)}
    (ha : Alone c s (msg :: rest)) :
    ∃ q, s.queue.read c.slots c.size = some (msg, q) ∧ Contains c.slots q rest := by
  rcases ha.contains.read fun m hm => le_of_eq (ha.sized m hm) with ⟨hnil, _⟩ | hcons
  · cases hnil
  · obtain ⟨msg', rest', q, heq, hread, hrest⟩ := hcons
    obtain ⟨rfl, rfl⟩ := List.cons.inj heq
    exact ⟨q, hread, hrest⟩

/-- The consumer's next steps put it to sleep. -/
def Settles (c : Config) (d : Delivery) : Prop :=
  ∀ es, (observed c).Run es d → ∃ n d', (observed c).Run (es ++ List.replicate n .consume) d' ∧
    d'.runner.consumer = .blocked ∧ d'.runner.producer = .idle ∧ d'.written = d.written

theorem take_written (d : Delivery) : (d.take c).written = d.written := by
  rw [Delivery.take]
  split
  · rfl
  · rfl

theorem note_consume_written (d : Delivery) : (d.note c .consume).written = d.written := by
  rw [Delivery.note]
  cases d.runner.consumer with
  | reading _ => exact take_written d
  | draining => exact take_written d.handle
  | drained =>
    dsimp only
    split
    · rfl
    · rfl
  | rechecking _ => exact take_written d
  | _ => rfl

namespace Settles

variable {d : Delivery} {s : State} {msgs : List (List UInt8)}

theorem of_blocked (hblocked : d.runner.consumer = .blocked) (hidle : d.runner.producer = .idle) :
    Settles c d := by
  intro es hrun
  refine ⟨0, d, ?_, hblocked, hidle, rfl⟩
  rw [List.replicate_zero, List.append_nil]
  exact hrun

theorem step (hs : d.runner.consume c = some s) (hfew : FewAdds d.runner .consume)
    (hnext : Settles c { d.note c .consume with runner := s }) : Settles c d := by
  intro es hrun
  have hact : d.act c .consume = some { d.note c .consume with runner := s } :=
    Option.map_eq_some_iff.2 ⟨s, hs, rfl⟩
  obtain ⟨n, d', hrun', hblocked, hidle, hwritten⟩ := hnext _ (hrun.snoc ⟨hfew, hact⟩)
  refine ⟨n + 1, d', ?_, hblocked, hidle, hwritten.trans (note_consume_written d)⟩
  rw [List.append_assoc] at hrun'
  exact hrun'

/-- A step that is not the wait. -/
theorem step_of_ne (hs : d.runner.consume c = some s)
    (hne : ∀ v, d.runner.consumer ≠ .waiting v)
    (hnext : Settles c { d.note c .consume with runner := s }) : Settles c d :=
  step hs (fun _ hw => absurd hw.choose_spec (hne _)) hnext

/-- The wait with the value the futex has. -/
theorem waiting_same {v : UInt32} (ha : Alone c d.runner msgs)
    (hc : d.runner.consumer = .waiting v) (hftx : d.runner.ftx = v)
    (hadds : d.runner.adds < 2 ^ 32) : Settles c d := by
  refine step (s := { d.runner with consumer := .blocked }) ?_ (fun _ _ => hadds) ?_
  · rw [State.consume, hc]
    simp only [if_pos (show Futex.sleeps d.runner.ftx v from hftx)]
  · exact of_blocked rfl ha.idle

/-- The way to sleep, from the load of the futex, when there is nothing to do. -/
theorem loading_empty (ha : Alone c d.runner []) (hc : d.runner.consumer = .loading) :
    Settles c d := by
  have hread : d.runner.queue.read c.slots c.size = none := ha.contains.read_empty _
  refine step_of_ne (by rw [State.consume, hc]) (by simp [hc]) ?_
  refine step_of_ne (by rw [State.consume]) (by simp) ?_
  refine step_of_ne (s := { d.runner with
    consumer := .lastCheck d.runner.ftx, posts := 0, adds := 0, sleeping := true }) ?_ (by simp) ?_
  · simp only [State.consume, hread]
  refine step_of_ne (s := { d.runner with
    consumer := .waiting d.runner.ftx, posts := 0, adds := 0, sleeping := true }) ?_ (by simp) ?_
  · simp only [State.consume, ha.running]
    rfl
  exact waiting_same ⟨ha.contains, ha.sized, ha.idle, ha.running⟩ rfl rfl (by simp)

/-- The consumer finds nothing, and goes on as long as `SpinWait` allows. -/
theorem reading_empty {waiter : SpinWait} (ha : Alone c d.runner [])
    (hc : d.runner.consumer = .reading waiter)
    (hagain : ∀ waiter', waiter.next = (true, waiter') → ∀ d' : Delivery, Alone c d'.runner [] →
      d'.runner.consumer = .top waiter' → Settles c d') : Settles c d := by
  have hread : d.runner.queue.read c.slots c.size = none := ha.contains.read_empty _
  have halone : ∀ p, Alone c { d.runner with consumer := p } [] :=
    fun p => ⟨ha.contains, ha.sized, ha.idle, ha.running⟩
  cases hnext : waiter.next with
  | mk goOn waiter' =>
    cases goOn with
    | true =>
      refine step_of_ne (s := { d.runner with consumer := .top waiter' }) ?_ (by simp [hc]) ?_
      · simp only [State.consume, hc, hread, hnext]
      · exact hagain waiter' hnext _ (halone _) rfl
    | false =>
      refine step_of_ne (s := { d.runner with consumer := .givingUp waiter' }) ?_ (by simp [hc]) ?_
      · simp only [State.consume, hc, hread, hnext]
      refine step_of_ne (s := { d.runner with consumer := .loading }) ?_ (by simp) ?_
      · simp only [State.consume, ha.running]
        rfl
      exact loading_empty (halone _) rfl

theorem top_empty (n : ℕ) : ∀ {d : Delivery} {waiter : SpinWait}, Alone c d.runner [] →
    d.runner.consumer = .top waiter → spinRetriesYield ≤ waiter.cycles + n → Settles c d := by
  induction n with
  | zero =>
    intro d waiter ha hc hn
    refine step_of_ne (s := { d.runner with consumer := .reading waiter }) ?_ (by simp [hc]) ?_
    · simp only [State.consume, hc, ha.running]
      rfl
    refine reading_empty ⟨ha.contains, ha.sized, ha.idle, ha.running⟩ rfl ?_
    intro waiter' hnext
    have hlt := (SpinWait.next_true hnext).2
    omega
  | succ n ih =>
    intro d waiter ha hc hn
    refine step_of_ne (s := { d.runner with consumer := .reading waiter }) ?_ (by simp [hc]) ?_
    · simp only [State.consume, hc, ha.running]
      rfl
    refine reading_empty ⟨ha.contains, ha.sized, ha.idle, ha.running⟩ rfl ?_
    intro waiter' hnext d' ha' hc'
    have hcycles := (SpinWait.next_true hnext).1
    exact ih ha' hc' (by omega)

/-- The inner loop hands on everything there is. -/
theorem draining : ∀ {msgs : List (List UInt8)} {d : Delivery}, Alone c d.runner msgs →
    d.runner.consumer = .draining → Settles c d := by
  intro msgs
  induction msgs with
  | nil =>
    intro d ha hc
    have hread : d.runner.queue.read c.slots c.size = none := ha.contains.read_empty _
    refine step_of_ne (s := { d.runner with consumer := .top {} }) ?_ (by simp [hc]) ?_
    · simp only [State.consume, hc, hread]
    · exact top_empty spinRetriesYield ⟨ha.contains, ha.sized, ha.idle, ha.running⟩ rfl
        (Nat.le_add_left _ _)
  | cons msg rest ih =>
    intro d ha hc
    obtain ⟨q, hread, hrest⟩ := ha.read_cons
    refine step_of_ne (s := { d.runner with queue := q, consumer := .drained }) ?_ (by simp [hc]) ?_
    · simp only [State.consume, hc, hread]
    refine step_of_ne (s := { d.runner with queue := q, consumer := .draining }) ?_ (by simp) ?_
    · simp only [State.consume, ha.running]
      rfl
    exact ih ⟨hrest, fun m hm => ha.sized m (List.mem_cons_of_mem _ hm), ha.idle, ha.running⟩ rfl

/-- From the top of the loop. -/
theorem top {waiter : SpinWait} (ha : Alone c d.runner msgs)
    (hc : d.runner.consumer = .top waiter) : Settles c d := by
  cases msgs with
  | nil => exact top_empty spinRetriesYield ha hc (Nat.le_add_left _ _)
  | cons msg rest =>
    obtain ⟨q, hread, hrest⟩ := ha.read_cons
    refine step_of_ne (s := { d.runner with consumer := .reading waiter }) ?_ (by simp [hc]) ?_
    · simp only [State.consume, hc, ha.running]
      rfl
    refine step_of_ne (s := { d.runner with queue := q, consumer := .draining }) ?_ (by simp) ?_
    · simp only [State.consume, hread]
    exact draining ⟨hrest, fun m hm => ha.sized m (List.mem_cons_of_mem _ hm), ha.idle,
      ha.running⟩ rfl

theorem reading {waiter : SpinWait} (ha : Alone c d.runner msgs)
    (hc : d.runner.consumer = .reading waiter) : Settles c d := by
  cases msgs with
  | nil => exact reading_empty ha hc fun _ _ _ ha' hc' => top ha' hc'
  | cons msg rest =>
    obtain ⟨q, hread, hrest⟩ := ha.read_cons
    refine step_of_ne (s := { d.runner with queue := q, consumer := .draining }) ?_
      (by simp [hc]) ?_
    · simp only [State.consume, hc, hread]
    · exact draining ⟨hrest, fun m hm => ha.sized m (List.mem_cons_of_mem _ hm), ha.idle,
        ha.running⟩ rfl

theorem clearing (ha : Alone c d.runner msgs) (hc : d.runner.consumer = .clearing) :
    Settles c d := by
  refine step_of_ne (by rw [State.consume, hc]) (by simp [hc]) ?_
  exact top ⟨ha.contains, ha.sized, ha.idle, ha.running⟩ rfl

theorem found (ha : Alone c d.runner msgs) (hc : d.runner.consumer = .found) : Settles c d := by
  refine step_of_ne (by rw [State.consume, hc]) (by simp [hc]) ?_
  exact top ⟨ha.contains, ha.sized, ha.idle, ha.running⟩ rfl

/-- The wait sleeps, or goes back to the top. -/
theorem waiting {v : UInt32} (ha : Alone c d.runner msgs) (hc : d.runner.consumer = .waiting v)
    (hadds : d.runner.adds < 2 ^ 32) : Settles c d := by
  by_cases hftx : d.runner.ftx = v
  · exact waiting_same ha hc hftx hadds
  · refine step (s := { d.runner with consumer := .clearing }) ?_ (fun _ _ => hadds) ?_
    · rw [State.consume, hc]
      simp only [if_neg (show ¬Futex.sleeps d.runner.ftx v from hftx)]
    · exact clearing ⟨ha.contains, ha.sized, ha.idle, ha.running⟩ rfl

theorem lastCheck {v : UInt32} (ha : Alone c d.runner msgs)
    (hc : d.runner.consumer = .lastCheck v) (hadds : d.runner.adds < 2 ^ 32) : Settles c d := by
  refine step_of_ne (s := { d.runner with consumer := .waiting v }) ?_ (by simp [hc]) ?_
  · simp only [State.consume, hc, ha.running]
    rfl
  · exact waiting ⟨ha.contains, ha.sized, ha.idle, ha.running⟩ rfl hadds

theorem rechecking {v : UInt32} (ha : Alone c d.runner msgs)
    (hc : d.runner.consumer = .rechecking v) (hadds : d.runner.adds < 2 ^ 32) : Settles c d := by
  cases msgs with
  | nil =>
    have hread : d.runner.queue.read c.slots c.size = none := ha.contains.read_empty _
    refine step_of_ne (s := { d.runner with consumer := .lastCheck v }) ?_ (by simp [hc]) ?_
    · simp only [State.consume, hc, hread]
    · exact lastCheck ⟨ha.contains, ha.sized, ha.idle, ha.running⟩ rfl hadds
  | cons msg rest =>
    obtain ⟨q, hread, hrest⟩ := ha.read_cons
    refine step_of_ne (s := { d.runner with queue := q, consumer := .found }) ?_ (by simp [hc]) ?_
    · simp only [State.consume, hc, hread]
    · exact found ⟨hrest, fun m hm => ha.sized m (List.mem_cons_of_mem _ hm), ha.idle,
        ha.running⟩ rfl

theorem announcing {v : UInt32} (ha : Alone c d.runner msgs)
    (hc : d.runner.consumer = .announcing v) (hadds : d.runner.adds < 2 ^ 32) : Settles c d := by
  refine step_of_ne (by rw [State.consume, hc]) (by simp [hc]) ?_
  exact rechecking ⟨ha.contains, ha.sized, ha.idle, ha.running⟩ rfl hadds

theorem loading (ha : Alone c d.runner msgs) (hc : d.runner.consumer = .loading) :
    Settles c d := by
  refine step_of_ne (by rw [State.consume, hc]) (by simp [hc]) ?_
  exact announcing ⟨ha.contains, ha.sized, ha.idle, ha.running⟩ rfl (by simp)

theorem of_alone (ha : Alone c d.runner msgs) (hadds : d.runner.adds < 2 ^ 32)
    (hleft : d.runner.consumer ≠ .left) : Settles c d := by
  have halone : ∀ p, Alone c { d.runner with consumer := p } msgs :=
    fun p => ⟨ha.contains, ha.sized, ha.idle, ha.running⟩
  cases hc : d.runner.consumer with
  | top waiter => exact top ha hc
  | reading waiter => exact reading ha hc
  | draining => exact draining ha hc
  | drained =>
    refine step_of_ne (s := { d.runner with consumer := .draining }) ?_ (by simp [hc]) ?_
    · simp only [State.consume, hc, ha.running]
      rfl
    · exact draining (halone _) rfl
  | givingUp waiter =>
    refine step_of_ne (s := { d.runner with consumer := .loading }) ?_ (by simp [hc]) ?_
    · simp only [State.consume, hc, ha.running]
      rfl
    · exact loading (halone _) rfl
  | loading => exact loading ha hc
  | announcing v => exact announcing ha hc hadds
  | rechecking v => exact rechecking ha hc hadds
  | found => exact found ha hc
  | lastCheck v => exact lastCheck ha hc hadds
  | waiting v => exact waiting ha hc hadds
  | blocked => exact of_blocked hc ha.idle
  | clearing => exact clearing ha hc
  | left => exact absurd hc hleft

end Settles

/-- The consumer leaves its loop only when a stop was requested. -/
theorem stopRequested_of_left {es : List Action} {s : State} (h : (runner c).Run es s)
    (hleft : s.consumer = .left) : s.stopRequested = true := by
  refine h.invariant (I := fun s => s.consumer = .left → s.stopRequested = true) ?_ ?_ hleft
  · rintro s ⟨q, _, rfl⟩ hleft
    cases hleft
  · intro s e s' hI hs hleft
    change s.act c e = some s' at hs
    cases e with
    | post message => grind [State.act, State.post]
    | produce => grind [State.act, State.produce, State.fetchAdd, State.futexWake]
    | consume => grind [State.act, State.consume]
    | stop => grind [State.act, State.stop, State.fetchAdd, State.futexWake]
    | spurious => grind [State.act]

/-- **Nothing stays behind.**  In every run in which the futex does not come round between
the consumer's load and its wait: from any state in which no post is under way and no stop
was requested, the consumer by itself hands on everything that was written, and goes to
sleep. -/
theorem drains {es : List Action} {d : Delivery} (h : (observed c).Run es d)
    (hidle : d.runner.producer = .idle) (hstop : d.runner.stopRequested = false)
    (hadds : d.runner.adds < 2 ^ 32) :
    ∃ n d', (observed c).Run (es ++ List.replicate n .consume) d' ∧
      d'.runner.consumer = .blocked ∧ d'.handled = d.written := by
  obtain ⟨msgs, hI⟩ := Carries.run h.of_restrict
  have hleft : d.runner.consumer ≠ .left := by
    intro hleft
    have hreq := stopRequested_of_left (runner_of_observed h).of_restrict hleft
    simp [hstop] at hreq
  have halone : Alone c d.runner msgs := ⟨hI.contains, hI.sized, hidle, hstop⟩
  obtain ⟨n, d', hrun, hblocked, hidle', hwritten⟩ := Settles.of_alone halone hadds hleft es h
  refine ⟨n, d', hrun, hblocked, ?_⟩
  rw [← hwritten]
  exact handled_of_blocked hrun hblocked hidle'

/-! ### Two posts -/

/-- A queue of two slots, and messages of one byte. -/
def smallConfig : Config := ⟨SequencedSPSC.twoSlots, 1, Nat.one_pos⟩

/-- A message is posted and handled, while another one is posted. -/
def postTwo : List Action :=
  [.post [7], .produce, .produce, .consume, .consume, .post [8], .produce, .consume]

theorem exists_delivery (G : Delivery → Action → Prop) (f : Delivery → Action → Option Delivery)
    (hf : ∀ {d e d'}, f d e = some d' → G d e ∧ d.act smallConfig e = some d')
    (es : List Action) (p : Delivery → Bool)
    (h : ((SequencedSPSC.construct smallConfig.slots 3 0 fun _ => SequencedSPSC.blank).bind
      fun slots => Machine.exec f ⟨startState ⟨slots, 0, 0⟩, none, [], [], [], [], none⟩ es).any p
        = true) :
    ∃ d, ((delivery smallConfig).restrict G).Run es d ∧ p d = true := by
  rw [Option.any_eq_true] at h
  obtain ⟨d, hd, hp⟩ := h
  obtain ⟨slots, hslots, hd⟩ := Option.bind_eq_some_iff.1 hd
  refine ⟨d, (Machine.Run.start ?_).exec hf hd, hp⟩
  exact ⟨_, ⟨3, slots, hslots, rfl⟩, rfl⟩

theorem handled_in_order_postTwo :
    ∃ d, (delivery smallConfig).Run postTwo d ∧ d.handled = [[7]] ∧
      (∃ msgs, Contains smallConfig.slots d.runner.queue msgs ∧
        d.written = d.handled ++ (d.skipped.toList ++ (d.message.toList ++ msgs))) ∧
        d.posted.Perm (d.written ++ (d.dropped ++ d.runner.producer.message)) ∧
        (d.skipped ≠ none → d.runner.stopRequested = true) := by
  obtain ⟨d, hrun, hd⟩ := exists_delivery (fun _ _ => True) (Delivery.act smallConfig)
    (fun hs => ⟨trivial, hs⟩) postTwo (fun d => d.handled = [[7]]) (by decide +kernel)
  exact ⟨d, hrun.of_restrict, of_decide_eq_true hd, handled_in_order hrun.of_restrict⟩

theorem drains_postTwo :
    ∃ d, (observed smallConfig).Run (postTwo.take 3) d ∧ d.written = [[7]] ∧
      ∃ n d', (observed smallConfig).Run (postTwo.take 3 ++ List.replicate n .consume) d' ∧
        d'.runner.consumer = .blocked ∧ d'.handled = d.written := by
  obtain ⟨d, hrun, hd⟩ := exists_delivery (fun d => FewAdds d.runner)
    (fun d e => if e = .consume then none else d.act smallConfig e)
    (fun hs => by
      rw [Option.ite_none_left_eq_some] at hs
      exact ⟨fun he => absurd he hs.1, hs.2⟩)
    (postTwo.take 3)
    (fun d => d.written = [[7]] ∧ d.runner.producer = .idle ∧ d.runner.stopRequested = false ∧
      d.runner.adds < 2 ^ 32) (by decide +kernel)
  obtain ⟨hwritten, hidle, hstop, hadds⟩ := of_decide_eq_true hd
  exact ⟨d, hrun, hwritten, drains hrun hidle hstop hadds⟩

end LfqRunner
