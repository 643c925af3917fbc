/-
Orders over shared memory (`client/src/connection/trusted_connection_manager.hpp`,
`common/src/transport/shm/shm_writer.hpp`, `server/src/session/trusted_session_manager.hpp`).

A client on the same machine needs no login: its connection manager writes the object
representation of every order to a shared queue, and the server's session manager reads it
back into an object of its own and posts it with client id 0.  The queue can be full for
longer than `SpinWait` waits, and the server can go away; the order is then not written.

* `TrustedLink.act` — the steps of the client's trader, of other threads that reset the
  connection, of the server's reader, and of a stop of the server;
* `Inv` — where the orders are;
* `orders_without_gaps` — what the server posts are the first of the orders posted by the
  client: a connection that has lost an order is closed before the next one.

`queue.write` and `queue.read` are one step each.  The statuses of the way back are left
out: a failed write of the server closes nothing, and two of its threads write them.
-/
import TradingPlatform.Client.Connection
import TradingPlatform.Runner.SpinWait
import TradingPlatform.Spsc.Calls

open SequencedSPSC (Contains Constructed canRead)

/-- `sizeof(Order)`: four words, and the action with its padding. -/
def sizeofOrder : ℕ := 20

/-- Where the trader's thread is in `post(Order)` of the connection manager, and in
`syncTx`. -/
inductive Poster
  | idle
  | entered (order : List UInt8)
  | writing (order : List UInt8) (waiter : SpinWait)
  | failed
  | announcing
deriving DecidableEq

/-- The queue with its `refCount`, `closed_` of the client's writer, and on the server the
object that is read into and whether its callback is to be called.  `resets` are the other
threads in `reset`; `posted` are the orders the engine has posted and `served` those the
session manager has. -/
structure TrustedLink where
  queue : SequencedSPSC
  refCount : ℕ
  closed : Bool
  poster : Poster
  resets : ℕ
  announced : List ServerConnectionState
  stopRequested : Bool
  order : List UInt8
  called : Bool
  posted : List (List UInt8)
  served : List (ClientId × List UInt8)

/-- The steps; `post` and `step` are those of the trader's thread. -/
inductive TrustedAction
  | post (order : List UInt8)
  | step
  | reset
  | announce
  | attach
  | detach
  | poll
  | callback
  | requestStop
deriving DecidableEq

namespace TrustedLink

variable (N : SlotCount)

/-- The body of the loop of `syncTx`. -/
def syncTx (s : TrustedLink) (order : List UInt8) (waiter : SpinWait) : TrustedLink :=
  match s.queue.write N order with
  | some queue => { s with queue := queue, poster := .idle }
  | none =>
    if s.refCount < 2 then { s with poster := .failed }
    else
      match waiter.next with
      | (true, waiter) => { s with poster := .writing order waiter }
      | (false, _) => { s with poster := .failed }

/-- The next step of the trader's thread. -/
def step (s : TrustedLink) : Option TrustedLink :=
  match s.poster with
  | .idle => none
  | .entered order =>
    some { s with poster := if s.closed then .failed else .writing order {} }
  | .writing order waiter => some (s.syncTx N order waiter)
  -- `reset()`
  | .failed => some { s with closed := true, poster := .announcing }
  | .announcing =>
    some { s with announced := s.announced ++ [.Disconnected], poster := .idle }

def act (s : TrustedLink) : TrustedAction → Option TrustedLink
  | .post order =>
    if s.poster = .idle ∧ order.length = sizeofOrder then
      some { s with poster := .entered order, posted := s.posted ++ [order] }
    else none
  | .step => s.step N
  | .reset => some { s with closed := true, resets := s.resets + 1 }
  | .announce =>
    if 0 < s.resets then
      some { s with announced := s.announced ++ [.Disconnected], resets := s.resets - 1 }
    else none
  | .attach => some { s with refCount := s.refCount + 1 }
  | .detach => some { s with refCount := s.refCount - 1 }
  | .poll =>
    if s.called then none
    else
      match s.queue.read N sizeofOrder with
      | some ([], queue) => some { s with queue := queue }
      | some (bytes, queue) => some { s with queue := queue, order := bytes, called := true }
      | none => some s
  | .callback =>
    if s.called then
      some { s with
        called := false
        served := if s.stopRequested then s.served else s.served ++ [(0, s.order)] }
    else none
  | .requestStop => some { s with stopRequested := true }

/-- A connected client, and nothing posted. -/
def start (queue : SequencedSPSC) (order : List UInt8) : TrustedLink :=
  ⟨queue, 2, false, .idle, 0, [.Connected], false, order, false, [], []⟩

/-- Every order of the steps of the threads. -/
def trustedLink : Machine TrustedLink TrustedAction where
  init s := ∃ queue order, Constructed N queue ∧ s = start queue order
  step s a s' := s.act N a = some s'

/-! ### Where the orders are -/

/-- The client has closed the connection and said so. -/
def Broken (s : TrustedLink) : Prop := s.closed = true ∧ .Disconnected ∈ s.announced

/-- The orders that are not in the queue and have not been, by where the trader is: an order
that is on its way is alone, unless the connection is broken. -/
def Unsent (s : TrustedLink) (rest : List (List UInt8)) : Poster → Prop
  | .idle => rest = [] ∨ s.Broken
  | .entered order => ∃ front, rest = front ++ [order] ∧ (front = [] ∨ s.Broken)
  | .writing order _ => rest = [order]
  | .failed => True
  | .announcing => s.closed = true

/-- The object that was read and not yet posted. -/
def inHand (s : TrustedLink) : List (ClientId × List UInt8) :=
  if s.called then [(0, s.order)] else []

structure Inv (s : TrustedLink) (taken msgs rest : List (List UInt8)) : Prop where
  contains : Contains N s.queue msgs
  posted : s.posted = taken ++ (msgs ++ rest)
  sized : ∀ m ∈ s.posted, m.length = sizeofOrder
  unsent : s.Unsent rest s.poster
  served : s.served <+: taken.map (Prod.mk 0)
  running : s.stopRequested = false → s.served ++ s.inHand = taken.map (Prod.mk 0)

variable {N} {s s' : TrustedLink} {taken msgs rest : List (List UInt8)}

theorem Inv.start {queue : SequencedSPSC} {order : List UInt8} (hq : Constructed N queue) :
    Inv N (start queue order) [] [] [] where
  contains := hq.contains
  posted := rfl
  sized _ hm := absurd hm List.not_mem_nil
  unsent := .inl rfl
  served := List.prefix_rfl
  running _ := rfl

/-- The client does something that is no post and no write. -/
theorem Inv.client (h : Inv N s taken msgs rest) (hqueue : s'.queue = s.queue)
    (hposted : s'.posted = s.posted) (hunsent : s'.Unsent rest s'.poster)
    (hserver : s'.served = s.served ∧ s'.inHand = s.inHand ∧ s'.stopRequested = s.stopRequested) :
    Inv N s' taken msgs rest := by
  obtain ⟨hserved, hhand, hstop⟩ := hserver
  refine ⟨hqueue ▸ h.contains, hposted ▸ h.posted, hposted ▸ h.sized, hunsent,
    hserved ▸ h.served, ?_⟩
  rw [hserved, hhand, hstop]
  exact h.running

/-- A connection that is broken stays so. -/
theorem Unsent.mono {poster : Poster} (h : s.Unsent rest poster)
    (hclosed : s.closed = true → s'.closed = true)
    (hannounced : s.announced ⊆ s'.announced) : s'.Unsent rest poster := by
  have hbroken : s.Broken → s'.Broken := fun hb => ⟨hclosed hb.1, hannounced hb.2⟩
  cases poster with
  | idle => exact h.imp_right hbroken
  | entered order =>
    obtain ⟨front, heq, hfront⟩ := h
    exact ⟨front, heq, hfront.imp_right hbroken⟩
  | writing order waiter => exact h
  | failed => trivial
  | announcing => exact hclosed h

theorem Inv.syncTx (h : Inv N s taken msgs rest) {order : List UInt8} {waiter : SpinWait}
    (hp : s.poster = .writing order waiter) :
    ∃ msgs' rest', Inv N (s.syncTx N order waiter) taken msgs' rest' := by
  have hrest := h.unsent
  rw [hp] at hrest
  obtain rfl : rest = [order] := hrest
  rw [TrustedLink.syncTx]
  split
  · next queue hwrite =>
    refine ⟨msgs ++ [order], [], h.contains.write hwrite, ?_, h.sized, .inl rfl, h.served,
      h.running⟩
    show s.posted = _
    rw [h.posted, List.append_nil]
  · split
    · exact ⟨msgs, [order], h.client rfl rfl trivial ⟨rfl, rfl, rfl⟩⟩
    · split
      · exact ⟨msgs, [order], h.client rfl rfl rfl ⟨rfl, rfl, rfl⟩⟩
      · exact ⟨msgs, [order], h.client rfl rfl trivial ⟨rfl, rfl, rfl⟩⟩

/-- The steps of the trader's thread. -/
theorem Inv.step (h : Inv N s taken msgs rest) (hs : s.step N = some s') :
    ∃ msgs' rest', Inv N s' taken msgs' rest' := by
  have hunsent := h.unsent
  rw [TrustedLink.step] at hs
  split at hs
  · cases hs
  · next order hp =>
    obtain rfl := Option.some_inj.1 hs
    rw [hp] at hunsent
    obtain ⟨front, rfl, hfront⟩ := hunsent
    refine ⟨msgs, _, h.client rfl rfl ?_ ⟨rfl, rfl, rfl⟩⟩
    show Unsent _ _ (if s.closed = true then .failed else .writing order {})
    by_cases hclosed : s.closed = true
    · rw [if_pos hclosed]
      trivial
    · -- an open connection has lost nothing
      rw [if_neg hclosed]
      rcases hfront with rfl | hbroken
      · rfl
      · exact absurd hbroken.1 hclosed
  · next order waiter hp =>
    obtain rfl := Option.some_inj.1 hs
    exact h.syncTx hp
  · obtain rfl := Option.some_inj.1 hs
    exact ⟨msgs, rest, h.client rfl rfl rfl ⟨rfl, rfl, rfl⟩⟩
  · next hp =>
    obtain rfl := Option.some_inj.1 hs
    rw [hp] at hunsent
    exact ⟨msgs, rest, h.client rfl rfl (.inr ⟨hunsent, by simp⟩) ⟨rfl, rfl, rfl⟩⟩

theorem Inv.post (h : Inv N s taken msgs rest) {order : List UInt8} (hp : s.poster = .idle)
    (hlen : order.length = sizeofOrder) :
    Inv N { s with poster := .entered order, posted := s.posted ++ [order] } taken msgs
      (rest ++ [order]) := by
  have hunsent := h.unsent
  rw [hp] at hunsent
  refine ⟨h.contains, ?_, ?_, ⟨rest, rfl, hunsent⟩, h.served, h.running⟩
  · show s.posted ++ [order] = _
    rw [h.posted, List.append_assoc, List.append_assoc]
  · intro m hm
    rcases List.mem_append.1 hm with hm | hm
    · exact h.sized m hm
    · rw [List.mem_singleton.1 hm, hlen]

/-- The server reads an order. -/
theorem Inv.poll (h : Inv N s taken msgs rest) (hs : s.act N .poll = some s') :
    ∃ taken' msgs', Inv N s' taken' msgs' rest := by
  simp only [act, Option.ite_none_left_eq_some] at hs
  obtain ⟨hcalled, hs⟩ := hs
  have hhand : s.inHand = [] := if_neg hcalled
  have hsized : ∀ {m q}, s.queue.read N sizeofOrder = some (m, q) →
      ∃ rest', msgs = m :: rest' ∧ Contains N q rest' ∧ m.length = sizeofOrder := by
    intro m q hread
    obtain ⟨rest', hmsgs, hrest'⟩ := h.contains.of_read hread
    refine ⟨rest', hmsgs, hrest', h.sized m ?_⟩
    rw [h.posted, hmsgs]
    simp
  split at hs
  · next q hread =>
    obtain ⟨_, _, _, hlen⟩ := hsized hread
    cases hlen
  · next bytes q _ hread =>
    obtain rfl := Option.some_inj.1 hs
    obtain ⟨msgs', rfl, hcontains, _⟩ := hsized hread
    refine ⟨taken ++ [bytes], msgs', hcontains, ?_, h.sized, h.unsent, ?_, ?_⟩
    · show s.posted = _
      rw [h.posted]
      simp
    · rw [List.map_append]
      exact h.served.trans (List.prefix_append _ _)
    · intro hstop
      have hrunning := h.running hstop
      rw [hhand, List.append_nil] at hrunning
      show s.served ++ [(0, bytes)] = _
      rw [hrunning, List.map_append]
      rfl
  · obtain rfl := Option.some_inj.1 hs
    exact ⟨taken, msgs, h⟩

/-- The callback posts the order, unless the server stops. -/
theorem Inv.callback (h : Inv N s taken msgs rest) (hs : s.act N .callback = some s') :
    Inv N s' taken msgs rest := by
  simp only [act, Option.ite_none_right_eq_some, Option.some.injEq] at hs
  obtain ⟨hcalled, rfl⟩ := hs
  have hhand : s.inHand = [(0, s.order)] := if_pos hcalled
  by_cases hstop : s.stopRequested = true
  · refine ⟨h.contains, h.posted, h.sized, h.unsent, ?_, fun hrun => ?_⟩
    · show (if s.stopRequested = true then s.served else _) <+: _
      rw [if_pos hstop]
      exact h.served
    · exact absurd (hstop.symm.trans hrun) (by decide)
  · have hrunning := h.running (Bool.eq_false_of_not_eq_true hstop)
    rw [hhand] at hrunning
    refine ⟨h.contains, h.posted, h.sized, h.unsent, ?_, fun _ => ?_⟩
    · show (if s.stopRequested = true then s.served else _) <+: _
      rw [if_neg hstop]
      exact hrunning ▸ List.prefix_rfl
    · show (if s.stopRequested = true then s.served else _) ++ [] = _
      rw [if_neg hstop, hrunning, List.append_nil]

theorem Inv.act (h : Inv N s taken msgs rest) {a : TrustedAction} (hs : s.act N a = some s') :
    ∃ taken' msgs' rest', Inv N s' taken' msgs' rest' := by
  cases a with
  | post order =>
    simp only [TrustedLink.act, Option.ite_none_right_eq_some, Option.some.injEq] at hs
    obtain ⟨⟨hp, hlen⟩, rfl⟩ := hs
    exact ⟨taken, msgs, _, h.post hp hlen⟩
  | step =>
    obtain ⟨msgs', rest', h'⟩ := h.step hs
    exact ⟨taken, msgs', rest', h'⟩
  | reset =>
    obtain rfl := Option.some_inj.1 hs
    exact ⟨taken, msgs, rest, h.client rfl rfl (h.unsent.mono (fun _ => rfl) (List.Subset.refl _))
      ⟨rfl, rfl, rfl⟩⟩
  | announce =>
    simp only [TrustedLink.act, Option.ite_none_right_eq_some, Option.some.injEq] at hs
    obtain ⟨_, rfl⟩ := hs
    exact ⟨taken, msgs, rest, h.client rfl rfl
      (h.unsent.mono id (List.subset_append_left _ _)) ⟨rfl, rfl, rfl⟩⟩
  | attach =>
    obtain rfl := Option.some_inj.1 hs
    exact ⟨taken, msgs, rest, h.client rfl rfl (h.unsent.mono id (List.Subset.refl _))
      ⟨rfl, rfl, rfl⟩⟩
  | detach =>
    obtain rfl := Option.some_inj.1 hs
    exact ⟨taken, msgs, rest, h.client rfl rfl (h.unsent.mono id (List.Subset.refl _))
      ⟨rfl, rfl, rfl⟩⟩
  | poll =>
    obtain ⟨taken', msgs', h'⟩ := h.poll hs
    exact ⟨taken', msgs', rest, h'⟩
  | callback => exact ⟨taken, msgs, rest, h.callback hs⟩
  | requestStop =>
    obtain rfl := Option.some_inj.1 hs
    exact ⟨taken, msgs, rest, h.contains, h.posted, h.sized,
      h.unsent.mono id (List.Subset.refl _), h.served, fun hstop => absurd hstop (by simp)⟩

/-- **No gaps.**  In every order of the steps of all threads, whatever is closed, detached
or stopped when: the orders the server posts are the first of those the client has posted,
each as client 0, in order and without a gap; and they are all of them if the client has
not announced that it is disconnected, is not in a post, and the server has read what is in
the queue and was not stopped. -/
theorem orders_without_gaps {as : List TrustedAction} (h : (trustedLink N).Run as s) :
    s.served <+: s.posted.map (Prod.mk 0) ∧
      (.Disconnected ∉ s.announced → s.poster = .idle → ¬ canRead N s.queue →
        s.called = false → s.stopRequested = false →
        s.served = s.posted.map (Prod.mk 0)) := by
  obtain ⟨taken, msgs, rest, hI⟩ : ∃ taken msgs rest, Inv N s taken msgs rest := by
    refine h.invariant (I := fun s => ∃ taken msgs rest, Inv N s taken msgs rest) ?_ ?_
    · rintro s ⟨queue, order, hq, rfl⟩
      exact ⟨[], [], [], .start hq⟩
    · rintro s a s' ⟨taken, msgs, rest, hI⟩ hs
      exact hI.act hs
  refine ⟨?_, fun hann hp hread hcalled hstop => ?_⟩
  · rw [hI.posted, List.map_append]
    exact hI.served.trans (List.prefix_append _ _)
  · have hmsgs : msgs = [] := by
      by_contra hne
      exact hread (hI.contains.canRead_iff.2 hne)
    have hrest : rest = [] := by
      have hunsent := hI.unsent
      rw [hp] at hunsent
      exact hunsent.resolve_right fun hbroken => hann hbroken.2
    have hrunning := hI.running hstop
    rw [inHand, if_neg (by simp [hcalled]), List.append_nil] at hrunning
    rw [hI.posted, hmsgs, hrest, List.append_nil, List.append_nil]
    exact hrunning

/-- Two orders fill the queue.  The server has detached when a third one is posted, which is
lost with the connection, and so is a fourth one, though the server has read an order. -/
def lostThird : List TrustedAction :=
  [.post (List.replicate 20 1), .step, .step, .post (List.replicate 20 2), .step, .step,
    .detach, .post (List.replicate 20 3), .step, .step, .step, .step, .poll, .callback,
    .post (List.replicate 20 4), .step, .step, .step]

theorem orders_without_gaps_lostThird :
    ∃ s, (trustedLink SequencedSPSC.twoSlots).Run lostThird s ∧ s.posted.length = 4 ∧
      s.served = [(0, List.replicate 20 1)] ∧ s.served <+: s.posted.map (Prod.mk 0) := by
  have h : ((SequencedSPSC.construct SequencedSPSC.twoSlots 3 0 fun _ =>
      SequencedSPSC.blank).bind fun slots =>
        Machine.exec (act SequencedSPSC.twoSlots) (start ⟨slots, 0, 0⟩ []) lostThird).any
      (fun s => s.posted.length = 4 ∧ s.served = [(0, List.replicate 20 1)]) = true := by
    decide +kernel
  rw [Option.any_eq_true] at h
  obtain ⟨s, hs, hp⟩ := h
  obtain ⟨slots, hslots, hs⟩ := Option.bind_eq_some_iff.1 hs
  have hstart : (trustedLink SequencedSPSC.twoSlots).Run [] (start ⟨slots, 0, 0⟩ []) :=
    .start ⟨_, [], ⟨3, slots, hslots, rfl⟩, rfl⟩
  have hrun := hstart.exec id hs
  obtain ⟨hposted, hserved⟩ := of_decide_eq_true hp
  exact ⟨s, hrun, hposted, hserved, (orders_without_gaps hrun).1⟩

end TrustedLink
