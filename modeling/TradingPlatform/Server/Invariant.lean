/-
The invariant of the order path.

Every message on its way is about an open order, and no order has two messages
on their way; the record of an order tells at which point of its life it is
(`EventOk`, `StatusOk`, `GatewayOk`).  All of this depends only on what belongs
to one order (`SameView`), and a step touches one order, so each step is
checked for that order and carried over for the others.

The one step that can break the invariant is a cancel that is let through
while another cancel of the same order is still on its way; `NoSecondCancel`
excludes it, and `Inv.step` holds for every other step.
-/
import TradingPlatform.Server.Model

variable {K : Constants} {M : Matching K}

/-! ### The id pool -/

/-- The ids acquired and not released since. -/
def outstanding (ops : List (PoolOp K)) : List (SystemOrderId K) :=
  ops.foldl (fun held op =>
    match op with
    | .acquired id => id :: held
    | .released id => held.erase id) []

/-- Every release gives back an id that was acquired and not released since. -/
def SingleRelease (ops : List (PoolOp K)) : Prop :=
  ∀ pre id post, ops = pre ++ .released id :: post → id ∈ outstanding pre

@[simp] theorem outstanding_acquired (ops : List (PoolOp K)) (id : SystemOrderId K) :
    outstanding (ops ++ [.acquired id]) = id :: outstanding ops := by
  rw [outstanding, List.foldl_append]
  rfl

@[simp] theorem outstanding_released (ops : List (PoolOp K)) (id : SystemOrderId K) :
    outstanding (ops ++ [.released id]) = (outstanding ops).erase id := by
  rw [outstanding, List.foldl_append]
  rfl

theorem SingleRelease.acquired {ops : List (PoolOp K)} (h : SingleRelease ops)
    (id : SystemOrderId K) : SingleRelease (ops ++ [.acquired id]) := by
  intro pre id' post heq
  rcases List.append_eq_append_iff.mp heq with ⟨l, rfl, hl⟩ | ⟨l, rfl, hl⟩
  · cases l with
    | nil => simp at hl
    | cons x l => simp at hl
  · cases l with
    | nil => simp at hl
    | cons x l =>
      simp only [List.cons_append, List.cons.injEq] at hl
      exact h pre id' l (by rw [hl.1])

theorem SingleRelease.released {ops : List (PoolOp K)} (h : SingleRelease ops)
    {id : SystemOrderId K} (hid : id ∈ outstanding ops) :
    SingleRelease (ops ++ [.released id]) := by
  intro pre id' post heq
  rcases List.append_eq_append_iff.mp heq with ⟨l, rfl, hl⟩ | ⟨l, rfl, hl⟩
  · cases l with
    | nil =>
      simp only [List.nil_append, List.cons.injEq, PoolOp.released.injEq] at hl
      rw [List.append_nil, ← hl.1]
      exact hid
    | cons x l => simp at hl
  · cases l with
    | nil =>
      simp only [List.nil_append, List.cons.injEq, PoolOp.released.injEq] at hl
      rw [List.append_nil] at hid
      rw [hl.1]
      exact hid
    | cons x l =>
      simp only [List.cons_append, List.cons.injEq] at hl
      exact h pre id' l (by rw [hl.1])

theorem SlotIdPool.PoolInv.nodup {c : Capacity} {p : SlotIdPool c} {held : List (SlotId c)}
    (h : PoolInv p held) : (held.map SlotId.index).Nodup := by
  obtain ⟨_, _, _, _, hinv⟩ := h
  have hnd := hinv.nodup
  rw [allIds, List.map_append] at hnd
  exact (List.nodup_append.mp hnd).2.1

/-- The order the gateway thread is busy with, if any. -/
def GatewayPc.orders : GatewayPc K → List ℕ
  | .idle => []
  | .emitted tag _ => [tag.order]
  | .linked tag _ => [tag.order]
  | .closed tag _ => [tag.order]

namespace Server

/-- The ids of the open orders. -/
def held (s : Server M) : List (SystemOrderId K) := outstanding s.ops

/-! ### What belongs to one order -/

/-- Order `n` is open, and `id` is its id. -/
structure Owns (s : Server M) (n : ℕ) (id : SystemOrderId K) : Prop where
  submitted : ∃ so, s.orders[n]? = some ⟨so, some id⟩
  held : id ∈ s.held
  owner : s.owner id.index = n

/-- The record of the order `so` with the id `id`. -/
structure RecordOf (r : OrderRecord K) (so : ServerOrder) (id : SystemOrderId K) : Prop where
  externalOId : r.externalOId = so.order.id
  systemOId : r.systemOId = id
  clientId : r.clientId = so.clientId

def stateOf (s : Server M) (id : SystemOrderId K) : RecordState := (s.recordMap id.index).state

/-- An event in the worker's queue. -/
structure EventOk (s : Server M) (tag : Tag) (e : InternalOrderEvent K) : Prop where
  owns : s.Owns tag.order e.order.id
  state : s.stateOf e.order.id = if tag.cancel then .Accepted else .New
  action : e.action = .Cancel ↔ tag.cancel = true
  book : tag.cancel = true → (s.recordMap e.order.id.index).bookOId = e.order.bookOId

/-- A status in the gateway's queue, or just emitted. -/
structure StatusOk (s : Server M) (tag : Tag) (st : InternalOrderStatus K) : Prop where
  owns : s.Owns tag.order st.id
  state : s.stateOf st.id = if tag.cancel then .Accepted else .New
  cancel : tag.cancel = true → st.state = .Cancelled ∨ st.state = .Rejected
  new : tag.cancel = false →
    st.state = .Full ∨ st.state.rests = true ∧ s.assigned tag.order = some st.bookOId

/-- A status whose handle has been stored in the record. -/
structure LinkedOk (s : Server M) (tag : Tag) (st : InternalOrderStatus K) : Prop where
  owns : s.Owns tag.order st.id
  state : s.stateOf st.id = .New
  new : tag.cancel = false
  rests : st.state.rests = true
  book : (s.recordMap st.id.index).bookOId = st.bookOId
  assigned : s.assigned tag.order = some st.bookOId

/-- A status whose record has been closed. -/
structure ClosedOk (s : Server M) (tag : Tag) (st : InternalOrderStatus K) : Prop where
  owns : s.Owns tag.order st.id
  state : s.stateOf st.id = .Closed

def GatewayOk (s : Server M) : GatewayPc K → Prop
  | .idle => True
  | .emitted tag st => s.StatusOk tag st
  | .linked tag st => s.LinkedOk tag st
  | .closed tag st => s.ClosedOk tag st

/-- What `s` and `s'` have in common for order `n` with id `id`. -/
structure SameView (s s' : Server M) (n : ℕ) (id : SystemOrderId K) : Prop where
  orders : ∀ sub, s.orders[n]? = some sub → s'.orders[n]? = some sub
  held : id ∈ s.held → id ∈ s'.held
  owner : s'.owner id.index = s.owner id.index
  record : s'.recordMap id.index = s.recordMap id.index
  assigned : s'.assigned n = s.assigned n

variable {s s' : Server M} {n m : ℕ} {id id' : SystemOrderId K} {tag : Tag}
  {e : InternalOrderEvent K} {st : InternalOrderStatus K}

theorem SameView.state (hv : SameView s s' n id) : s'.stateOf id = s.stateOf id := by
  rw [stateOf, stateOf, hv.record]

theorem Owns.unique (h : s.Owns n id) (h' : s.Owns n id') : id = id' := by
  obtain ⟨so, hso⟩ := h.submitted
  obtain ⟨so', hso'⟩ := h'.submitted
  rw [hso, Option.some_inj, Submission.mk.injEq, Option.some_inj] at hso'
  exact hso'.2

theorem Owns.index_ne (h : s.Owns n id) (h' : s.Owns m id') (hne : n ≠ m) :
    id.index ≠ id'.index := by
  intro heq
  rw [← h.owner, ← h'.owner, heq] at hne
  exact hne rfl

theorem Owns.congr (h : s.Owns n id) (horders : s'.orders = s.orders) (hops : s'.ops = s.ops)
    (howner : s'.owner = s.owner) : s'.Owns n id := by
  obtain ⟨hso, hid, ho⟩ := h
  exact ⟨horders ▸ hso, by rwa [Server.held, hops], by rwa [howner]⟩

theorem Owns.frame (h : s.Owns n id) (hv : SameView s s' n id) : s'.Owns n id := by
  obtain ⟨so, hso⟩ := h.submitted
  exact ⟨⟨so, hv.orders _ hso⟩, hv.held h.held, hv.owner.trans h.owner⟩

theorem EventOk.frame (h : s.EventOk tag e) (hv : SameView s s' tag.order e.order.id) :
    s'.EventOk tag e := by
  refine ⟨h.owns.frame hv, hv.state.trans h.state, h.action, ?_⟩
  rw [hv.record]
  exact h.book

theorem StatusOk.frame (h : s.StatusOk tag st) (hv : SameView s s' tag.order st.id) :
    s'.StatusOk tag st := by
  refine ⟨h.owns.frame hv, hv.state.trans h.state, h.cancel, ?_⟩
  rw [hv.assigned]
  exact h.new

theorem LinkedOk.frame (h : s.LinkedOk tag st) (hv : SameView s s' tag.order st.id) :
    s'.LinkedOk tag st := by
  refine ⟨h.owns.frame hv, hv.state.trans h.state, h.new, h.rests, ?_, ?_⟩
  · rw [hv.record]
    exact h.book
  · rw [hv.assigned]
    exact h.assigned

theorem ClosedOk.frame (h : s.ClosedOk tag st) (hv : SameView s s' tag.order st.id) :
    s'.ClosedOk tag st :=
  ⟨h.owns.frame hv, hv.state.trans h.state⟩

theorem GatewayOk.frame {g : GatewayPc K} (h : s.GatewayOk g)
    (hv : ∀ n ∈ g.orders, ∀ id, s.Owns n id → SameView s s' n id) : s'.GatewayOk g := by
  cases g with
  | idle => trivial
  | emitted tag st => exact StatusOk.frame h (hv _ (List.mem_singleton_self _) _ h.owns)
  | linked tag st => exact LinkedOk.frame h (hv _ (List.mem_singleton_self _) _ h.owns)
  | closed tag st => exact ClosedOk.frame h (hv _ (List.mem_singleton_self _) _ h.owns)

/-! ### The invariant -/

/-- The orders with a message on its way. -/
def inFlight (s : Server M) : List ℕ :=
  s.events.map (·.1.order) ++ (s.statuses.map (·.1.order) ++ s.gateway.orders)

/-- The client has been told that order `n` rests. -/
def ToldResting (s : Server M) (n : ℕ) : Prop :=
  ∃ x ∈ s.sent, x.byGateway = true ∧ x.about = some ⟨n, false⟩ ∧
    x.status.orderStatus.state.rests = true

/-- The gateway thread has told the client that order `n` rests, and has not
yet set its record to `Accepted`. -/
def InWindow (s : Server M) (n : ℕ) : Prop :=
  ∃ st : InternalOrderStatus K, st.state.rests = true ∧
    (s.gateway = .emitted ⟨n, false⟩ st ∨ s.gateway = .linked ⟨n, false⟩ st)

instance (s : Server M) (n : ℕ) (id : SystemOrderId K) : Decidable (s.Owns n id) :=
  decidable_of_iff ((s.orders[n]?.bind (·.systemOId)) = some id ∧ id ∈ s.held ∧
      s.owner id.index = n) <| by
    rw [Option.bind_eq_some_iff]
    constructor
    · rintro ⟨⟨⟨so, _⟩, hso, rfl⟩, hheld, howner⟩
      exact ⟨⟨so, hso⟩, hheld, howner⟩
    · rintro ⟨⟨so, hso⟩, hheld, howner⟩
      exact ⟨⟨_, hso, rfl⟩, hheld, howner⟩

instance (s : Server M) (n : ℕ) : Decidable (s.ToldResting n) :=
  inferInstanceAs (Decidable (∃ x ∈ s.sent, _ ∧ _ ∧ _))

/-- A message of the gateway thread reaches the client that submitted the
order, with the order's own identifiers. -/
def Routed (s : Server M) (x : Sent) : Prop :=
  ∃ (tag : Tag) (so : ServerOrder) (id : SystemOrderId K), x.about = some tag ∧
    s.orders[tag.order]? = some ⟨so, some id⟩ ∧
    x.status.clientId = so.clientId ∧ x.status.orderStatus.orderId = so.order.id ∧
    x.status.orderStatus.systemOrderId = id.raw

/-- An open id: its record is that of its order, tells the handle once it is
accepted, and is closed only in the hands of the gateway thread. -/
structure SlotOk (s : Server M) (id : SystemOrderId K) : Prop where
  owned : ∃ so, s.orders[s.owner id.index]? = some ⟨so, some id⟩ ∧
    RecordOf (s.recordMap id.index) so id
  accepted : s.stateOf id = .Accepted →
    s.assigned (s.owner id.index) = some (s.recordMap id.index).bookOId
  closed : s.stateOf id = .Closed →
    ∃ tag st, s.gateway = .closed tag st ∧ tag.order = s.owner id.index
  told : s.ToldResting (s.owner id.index) →
    s.stateOf id ≠ .New ∨ s.InWindow (s.owner id.index)

theorem Routed.frame {x : Sent} (h : s.Routed x)
    (horders : ∀ (n : ℕ) sub, s.orders[n]? = some sub → s'.orders[n]? = some sub) :
    s'.Routed x := by
  obtain ⟨tag, so, id, habout, hso, hsame⟩ := h
  exact ⟨tag, so, id, habout, horders _ _ hso, hsame⟩

/-- A slot stays as it is when its order has the same view, is not told
anything, and the gateway thread stays where it was with this order. -/
theorem SlotOk.frame (h : s.SlotOk id) (hv : SameView s s' (s.owner id.index) id)
    (htold : s'.ToldResting (s.owner id.index) → s.ToldResting (s.owner id.index))
    (hclosed : ∀ tag st, s.gateway = .closed tag st → tag.order = s.owner id.index →
      s'.gateway = .closed tag st)
    (hwindow : s.InWindow (s.owner id.index) → s'.InWindow (s.owner id.index)) :
    s'.SlotOk id := by
  obtain ⟨⟨so, hso, hr⟩, hacc, hcl, hto⟩ := h
  refine ⟨⟨so, ?_, ?_⟩, ?_, ?_, ?_⟩
  · rw [hv.owner]
    exact hv.orders _ hso
  · rw [hv.record]
    exact hr
  · rw [hv.state, hv.owner, hv.record, hv.assigned]
    exact hacc
  · rw [hv.state, hv.owner]
    intro hstate
    obtain ⟨tag, st, hg, htag⟩ := hcl hstate
    exact ⟨tag, st, hclosed tag st hg htag, htag⟩
  · rw [hv.state, hv.owner]
    intro hs
    exact (hto (htold hs)).imp_right hwindow

structure Inv (s : Server M) : Prop where
  pool : SlotIdPool.PoolInv s.idPool s.held
  releases : SingleRelease s.ops
  slots : ∀ id ∈ s.held, s.SlotOk id
  live : ∀ i, (s.recordMap i).state = .Accepted → ∃ id ∈ s.held, id.index = i
  single : s.inFlight.Nodup
  events : ∀ x ∈ s.events, s.EventOk x.1 x.2
  statuses : ∀ x ∈ s.statuses, s.StatusOk x.1 x.2
  gateway : s.GatewayOk s.gateway
  routed : ∀ x ∈ s.sent, x.byGateway = true → s.Routed x

variable {so : ServerOrder}

theorem Owns.lt (h : s.Owns n id) : n < s.orders.length := by
  obtain ⟨so, hso⟩ := h.submitted
  exact (List.getElem?_eq_some_iff.mp hso).1

namespace Inv

theorem start (M : Matching K) : Inv (start M) where
  pool := SlotIdPool.PoolInv.fresh _
  releases := by
    intro pre id post heq
    exact absurd heq (by simp [Server.start])
  slots := fun _ h => absurd h List.not_mem_nil
  live := fun _ h => absurd h (by simp [Server.start])
  single := List.nodup_nil
  events := fun _ h => absurd h List.not_mem_nil
  statuses := fun _ h => absurd h List.not_mem_nil
  gateway := trivial
  routed := fun _ h => absurd h List.not_mem_nil

theorem owns (h : Inv s) (hid : id ∈ s.held) : s.Owns (s.owner id.index) id := by
  obtain ⟨so, hso, _⟩ := (h.slots id hid).owned
  exact ⟨⟨so, hso⟩, hid, rfl⟩

/-- The record of an open order knows its id. -/
theorem systemOId_eq (h : Inv s) (hid : id ∈ s.held) : (s.recordMap id.index).systemOId = id := by
  obtain ⟨so, _, hrec⟩ := (h.slots id hid).owned
  exact hrec.systemOId

theorem emitted (h : Inv s) (hg : s.gateway = .emitted tag st) : s.StatusOk tag st := by
  have hok := h.gateway
  rwa [hg] at hok

theorem linked (h : Inv s) (hg : s.gateway = .linked tag st) : s.LinkedOk tag st := by
  have hok := h.gateway
  rwa [hg] at hok

theorem closed (h : Inv s) (hg : s.gateway = .closed tag st) : s.ClosedOk tag st := by
  have hok := h.gateway
  rwa [hg] at hok

/-- Every order with a message on its way is open. -/
theorem inFlight_owns (h : Inv s) (hn : n ∈ s.inFlight) : ∃ id, s.Owns n id := by
  rw [inFlight, List.mem_append, List.mem_append, List.mem_map, List.mem_map] at hn
  rcases hn with ⟨x, hx, rfl⟩ | ⟨x, hx, rfl⟩ | hn
  · exact ⟨_, (h.events x hx).owns⟩
  · exact ⟨_, (h.statuses x hx).owns⟩
  · cases hg : s.gateway with
    | idle =>
      rw [hg] at hn
      exact absurd hn List.not_mem_nil
    | emitted tag st =>
      rw [hg, GatewayPc.orders, List.mem_singleton] at hn
      exact ⟨_, hn ▸ (h.emitted hg).owns⟩
    | linked tag st =>
      rw [hg, GatewayPc.orders, List.mem_singleton] at hn
      exact ⟨_, hn ▸ (h.linked hg).owns⟩
    | closed tag st =>
      rw [hg, GatewayPc.orders, List.mem_singleton] at hn
      exact ⟨_, hn ▸ (h.closed hg).owns⟩

end Inv

end Server
