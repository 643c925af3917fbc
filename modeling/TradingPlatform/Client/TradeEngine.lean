/-
The client's trade engine (`client/src/execution/trade_engine.hpp`) between its
two threads, and a server that answers it.

The trade loop sends new orders and cancels; the handler of statuses runs on
another thread.  They share the records of the orders, the pool of the ids,
where the loop acquires and the handler releases, and the queue of the slots to
cancel.  The steps of the pool and of the queue are steps of the engine.

* `EngineState.act` — the steps of the loop, of the handler and of the server,
  in any order the programs allow, and `step_of_act`, what each of them requires
  and does;
* `engine c N` — the machine for a pool of capacity `c` and a queue of `N`
  slots.

The server answers a new order once, and a cancel at most once, with the id of
the client's order.  A cancel names its order by the system id only, so the order
it was sent for is kept beside it.  Messages in flight are delivered in any
order, and prices, tickers and quantities are any the loop may draw.
-/
import TradingPlatform.IdPool.Concurrent
import TradingPlatform.Spsc.Fifo
import TradingPlatform.Lib.Bytes
import TradingPlatform.Types
import Mathlib.Data.Multiset.UnionInter

open SlotIdPool SequencedSPSC

namespace TradeEngine

/-- `ClientOrder`. -/
structure ClientOrder (c : Capacity) where
  order : Order
  created : ℕ
  sysOId : SlotId c
deriving DecidableEq

variable {c : Capacity}

def ClientOrder.isValid (r : ClientOrder c) : Bool := r.created != 0 && r.sysOId.isValid

/-- A record before its first order: zeroed memory. -/
instance : Inhabited (ClientOrder c) := ⟨⟨⟨0, (0, 0, 0, 0), 0, 0, .Dummy⟩, 0, default⟩⟩

/-- Where the trade loop is: at its head, in `toCancel_.read`, between the steps
of `sendCancel`, in `idPool_.acquire`, between the steps of `sendNew`. -/
inductive Trader (c : Capacity)
  | idle
  | reading
  | cancelling (idx : ℕ)
  | touched (idx : ℕ)
  | acquiring
  | acquired (id : SlotId c)
  | recorded (order : Order)
  | stopped
deriving DecidableEq

/-- Where `post(OrderStatus)` is with its status; `requesting` is in
`toCancel_.write`, `releasing` in `idPool_.release`, `joining` in `stop`. -/
inductive Handler
  | idle
  | received (s : OrderStatus)
  | checked (s : OrderStatus)
  | stored (s : OrderStatus)
  | requesting (s : OrderStatus)
  | releasing (s : OrderStatus)
  | joining
deriving DecidableEq

/-- The status being handled. -/
def Handler.status : Handler → Option OrderStatus
  | .received s => some s
  | .checked s => some s
  | .stored s => some s
  | .requesting s => some s
  | .releasing s => some s
  | _ => none

/-- The engine, what is in flight between it and the server, the system id the
server has given to each open order, and the ids acquired and released so far. -/
structure EngineState (c : Capacity) where
  pool : PoolState c
  orders : ℕ → ClientOrder c
  toCancel : QueueState
  trading : Bool
  stopRequested : Bool
  trader : Trader c
  handler : Handler
  newOrders : Multiset Order
  cancels : Multiset (Order × OrderId)
  statuses : Multiset OrderStatus
  assigned : OrderId → Option OrderId
  acquired : List (SlotId c)
  released : List (SlotId c)

/-- The steps.  `record` and `postNew` are `sendNew` after `acquire`, `touch` and
`postCancel` are `sendCancel` after `read`, `receive` to `joined` are
`post(OrderStatus)`, with the outcome of its coin in `dispatch`. -/
inductive EngineAction (c : Capacity)
  | loop
  | read (e : QueueAction)
  | acquire (a : PoolAction c)
  | record (order : Order) (now : ℕ)
  | postNew
  | touch (now : ℕ)
  | postCancel (order : Order)
  | receive (s : OrderStatus)
  | check
  | store
  | dispatch (coin : Bool)
  | write (e : QueueAction)
  | releaseWrite
  | releasePublish
  | joined
  | requestStop
  | setTrading (on : Bool)
  | answerNew (order : Order) (s : OrderStatus)
  | answerCancel (cancel : Order × OrderId) (s : OrderStatus)

/-- `SystemOId{s.orderId}`. -/
def soid (s : OrderStatus) : SlotId c := ⟨s.orderId⟩

/-- The bytes of `soid.index()`. -/
def request (c : Capacity) (s : OrderStatus) : List UInt8 :=
  Bytes.leBytes 4 (soid s : SlotId c).index

/-- The steps of `acquire`. -/
def isAcquire : PoolAction c → Bool
  | .write _ => false
  | .publish => false
  | _ => true

/-- What the loop does next after a step of `read`: `sendCancel` goes on with the
index read, or returns `false`, and then `sendNew` acquires an id. -/
def afterRead (r : Reader) : QueueAction → Trader c
  | .emptyRead _ => .acquiring
  | .tooSmall => .acquiring
  | .finish =>
    match r with
    | .handedBack _ dst => .cancelling (Bytes.ofLeBytes dst)
    | _ => .reading
  | _ => .reading

/-- The id returned by a step of `acquire`. -/
def returned : PoolAction c → Option (SlotId c)
  | .pop id => some id
  | .finish id => some id
  | _ => none

/-- What the loop does next after a step of `acquire`; without an id it ends. -/
def afterAcquire (a : PoolAction c) : Trader c :=
  match returned a with
  | some id => if id.isValid then .acquired id else .stopped
  | none => .acquiring

/-- `write` returns with its last step, or when it fails. -/
def afterWrite (s : OrderStatus) : QueueAction → Handler
  | .publish => .idle
  | .failWrite _ => .idle
  | _ => .requesting s

/-- `sharedQueue_[t] = id` of `release(id)`, whoever has the id. -/
def storeReleased (p : PoolState c) (id : SlotId c) : PoolState c :=
  { p with
    pool := { p.pool with
      sharedQueue := Function.update p.pool.sharedQueue p.pool.tail id.nextGen }
    releaser := .written p.pool.tail id }

/-- The cancel for the order recorded in `r`. -/
def cancelOrder (r : ClientOrder c) : Order :=
  ⟨r.sysOId.raw, r.order.ticker, r.order.quantity, r.order.price, .Cancel⟩

/-- The answers to a new order. -/
def AnswersNew (order : Order) (s : OrderStatus) : Prop :=
  s.orderId = order.id ∧
    (s.state = .Accepted ∨ s.state = .Partial ∨ s.state = .Full ∨ s.state = .Rejected)

/-- The answers to a cancel of the order with this id. -/
def AnswersCancel (orderId : OrderId) (s : OrderStatus) : Prop :=
  s.orderId = orderId ∧ (s.state = .Cancelled ∨ s.state = .Rejected)

instance (order : Order) (s : OrderStatus) : Decidable (AnswersNew order s) :=
  inferInstanceAs (Decidable (_ ∧ _))

instance (orderId : OrderId) (s : OrderStatus) : Decidable (AnswersCancel orderId s) :=
  inferInstanceAs (Decidable (_ ∧ _))

/-- What `sendNew` draws for the order with this id. -/
def Drawn (id : SlotId c) (order : Order) : Prop :=
  order.id = id.raw ∧ (order.action = .Buy ∨ order.action = .Sell) ∧
    1 ≤ order.quantity ∧ order.quantity ≤ 100

instance (id : SlotId c) (order : Order) : Decidable (Drawn id order) :=
  inferInstanceAs (Decidable (_ ∧ _))

namespace EngineState

/-- The record of the order a status is about. -/
def record (st : EngineState c) (s : OrderStatus) : ClientOrder c :=
  st.orders (soid s : SlotId c).index

/-- The checks at the beginning of `post(OrderStatus)`. -/
def afterCheck (st : EngineState c) (s : OrderStatus) : Handler :=
  if st.stopRequested then .idle
  else if !(soid s : SlotId c).isValid then .joining
  else if !(st.record s).isValid then .joining
  else .checked s

/-- One step; `none` where the program counters do not allow it. -/
def act (N : SlotCount) (st : EngineState c) : EngineAction c → Option (EngineState c)
  | .loop =>
    if st.trader = .idle then
      some { st with
        trader := if st.stopRequested then .stopped else if st.trading then .reading else .idle }
    else none
  | .read e =>
    if st.trader = .reading ∧ isRead 4 e then
      (st.toCancel.act N e).map fun q =>
        { st with toCancel := q, trader := afterRead st.toCancel.reader e }
    else none
  | .acquire a =>
    if st.trader = .acquiring ∧ isAcquire a then
      (st.pool.act a).map fun p =>
        { st with
          pool := p
          trader := afterAcquire a
          acquired := st.acquired ++ ((returned a).filter SlotId.isValid).toList }
    else none
  | .record order now =>
    match st.trader with
    | .acquired id =>
      if Drawn id order then
        some { st with
          orders := Function.update st.orders id.index ⟨order, now, id⟩
          trader := .recorded order }
      else none
    | _ => none
  | .postNew =>
    match st.trader with
    | .recorded order =>
      some { st with
        trader := .idle
        newOrders := order ::ₘ st.newOrders
        assigned := Function.update st.assigned order.id none }
    | _ => none
  | .touch now =>
    match st.trader with
    | .cancelling idx =>
      some { st with
        orders := Function.update st.orders idx { st.orders idx with created := now }
        trader := .touched idx }
    | _ => none
  | .postCancel order =>
    match st.trader with
    | .touched idx =>
      if order = cancelOrder (st.orders idx) then
        some { st with
          trader := .idle
          cancels := (order, (st.orders idx).order.id) ::ₘ st.cancels }
      else none
    | _ => none
  | .receive s =>
    if st.handler = .idle ∧ s ∈ st.statuses then
      some { st with handler := .received s, statuses := st.statuses.erase s }
    else none
  | .check =>
    match st.handler with
    | .received s => some { st with handler := st.afterCheck s }
    | _ => none
  | .store =>
    match st.handler with
    | .checked s =>
      some { st with
        orders := Function.update st.orders (soid s : SlotId c).index
          { st.record s with sysOId := ⟨s.systemOrderId⟩ }
        handler := .stored s }
    | _ => none
  | .dispatch coin =>
    match st.handler with
    | .stored s =>
      match s.state with
      | .Accepted => some { st with handler := if coin then .requesting s else .idle }
      | .Partial => some { st with handler := .idle }
      | _ => some { st with handler := .releasing s, released := st.released ++ [soid s] }
    | _ => none
  | .write e =>
    match st.handler with
    | .requesting s =>
      if isWrite (request c s) e then
        (st.toCancel.act N e).map fun q => { st with toCancel := q, handler := afterWrite s e }
      else none
    | _ => none
  | .releaseWrite =>
    match st.handler with
    | .releasing s =>
      if st.pool.releaser = .idle then some { st with pool := storeReleased st.pool (soid s) }
      else none
    | _ => none
  | .releasePublish =>
    match st.handler with
    | .releasing _ => (st.pool.act .publish).map fun p => { st with pool := p, handler := .idle }
    | _ => none
  | .joined =>
    if st.handler = .joining ∧ st.trader = .stopped then some { st with handler := .idle }
    else none
  | .requestStop => some { st with stopRequested := true }
  | .setTrading on => some { st with trading := on }
  | .answerNew order s =>
    if order ∈ st.newOrders ∧ AnswersNew order s then
      some { st with
        newOrders := st.newOrders.erase order
        statuses := s ::ₘ st.statuses
        assigned := Function.update st.assigned order.id (some s.systemOrderId) }
    else none
  | .answerCancel cancel s =>
    if cancel ∈ st.cancels ∧ AnswersCancel cancel.2 s then
      some { st with cancels := st.cancels.erase cancel, statuses := s ::ₘ st.statuses }
    else none

/-- A constructed engine, with nothing in flight. -/
def start (c : Capacity) (q : QueueState) : EngineState c where
  pool := .start c
  orders := fun _ => default
  toCancel := q
  trading := false
  stopRequested := false
  trader := .idle
  handler := .idle
  newOrders := 0
  cancels := 0
  statuses := 0
  assigned := fun _ => none
  acquired := []
  released := []

end EngineState

/-- What each step requires and does. -/
inductive Step (N : SlotCount) (st : EngineState c) : EngineAction c → EngineState c → Prop
  | loop {t : Trader c} : st.trader = .idle → (t = .stopped ∨ t = .reading ∨ t = .idle) →
      Step N st .loop { st with trader := t }
  | read {e : QueueAction} {q : QueueState} : st.trader = .reading → isRead 4 e = true →
      st.toCancel.act N e = some q →
      Step N st (.read e) { st with toCancel := q, trader := afterRead st.toCancel.reader e }
  | acquire {a : PoolAction c} {p : PoolState c} : st.trader = .acquiring → isAcquire a = true →
      st.pool.act a = some p →
      Step N st (.acquire a) { st with
        pool := p
        trader := afterAcquire a
        acquired := st.acquired ++ ((returned a).filter SlotId.isValid).toList }
  | record {order : Order} {now : ℕ} {id : SlotId c} : st.trader = .acquired id → Drawn id order →
      Step N st (.record order now) { st with
        orders := Function.update st.orders id.index ⟨order, now, id⟩
        trader := .recorded order }
  | postNew {order : Order} : st.trader = .recorded order →
      Step N st .postNew { st with
        trader := .idle
        newOrders := order ::ₘ st.newOrders
        assigned := Function.update st.assigned order.id none }
  | touch {now idx : ℕ} : st.trader = .cancelling idx →
      Step N st (.touch now) { st with
        orders := Function.update st.orders idx { st.orders idx with created := now }
        trader := .touched idx }
  | postCancel {idx : ℕ} : st.trader = .touched idx →
      Step N st (.postCancel (cancelOrder (st.orders idx))) { st with
        trader := .idle
        cancels := (cancelOrder (st.orders idx), (st.orders idx).order.id) ::ₘ st.cancels }
  | receive {s : OrderStatus} : st.handler = .idle → s ∈ st.statuses →
      Step N st (.receive s) { st with handler := .received s, statuses := st.statuses.erase s }
  | check {s : OrderStatus} : st.handler = .received s →
      Step N st .check { st with handler := st.afterCheck s }
  | store {s : OrderStatus} : st.handler = .checked s →
      Step N st .store { st with
        orders := Function.update st.orders (soid s : SlotId c).index
          { st.record s with sysOId := ⟨s.systemOrderId⟩ }
        handler := .stored s }
  | keep {coin : Bool} {s : OrderStatus} : st.handler = .stored s →
      Step N st (.dispatch coin) { st with handler := .idle }
  | request {coin : Bool} {s : OrderStatus} : st.handler = .stored s → s.state = .Accepted →
      Step N st (.dispatch coin) { st with handler := .requesting s }
  | close {coin : Bool} {s : OrderStatus} : st.handler = .stored s →
      Step N st (.dispatch coin)
        { st with handler := .releasing s, released := st.released ++ [soid s] }
  | write {e : QueueAction} {q : QueueState} {s : OrderStatus} : st.handler = .requesting s →
      isWrite (request c s) e = true → st.toCancel.act N e = some q →
      Step N st (.write e) { st with toCancel := q, handler := afterWrite s e }
  | releaseWrite {s : OrderStatus} : st.handler = .releasing s → st.pool.releaser = .idle →
      Step N st .releaseWrite { st with pool := storeReleased st.pool (soid s) }
  | releasePublish {s : OrderStatus} {p : PoolState c} : st.handler = .releasing s →
      st.pool.act .publish = some p →
      Step N st .releasePublish { st with pool := p, handler := .idle }
  | joined : st.handler = .joining → st.trader = .stopped →
      Step N st .joined { st with handler := .idle }
  | requestStop : Step N st .requestStop { st with stopRequested := true }
  | setTrading {on : Bool} : Step N st (.setTrading on) { st with trading := on }
  | answerNew {order : Order} {s : OrderStatus} : order ∈ st.newOrders → AnswersNew order s →
      Step N st (.answerNew order s) { st with
        newOrders := st.newOrders.erase order
        statuses := s ::ₘ st.statuses
        assigned := Function.update st.assigned order.id (some s.systemOrderId) }
  | answerCancel {cancel : Order × OrderId} {s : OrderStatus} : cancel ∈ st.cancels →
      AnswersCancel cancel.2 s →
      Step N st (.answerCancel cancel s)
        { st with cancels := st.cancels.erase cancel, statuses := s ::ₘ st.statuses }

theorem step_of_act {N : SlotCount} {st st' : EngineState c} {e : EngineAction c}
    (h : st.act N e = some st') : Step N st e st' := by
  cases e with
  | loop =>
    rw [EngineState.act, Option.ite_none_right_eq_some, Option.some_inj] at h
    obtain ⟨ht, rfl⟩ := h
    refine .loop ht ?_
    cases st.stopRequested with
    | true => exact .inl rfl
    | false =>
      cases st.trading with
      | true => exact .inr (.inl rfl)
      | false => exact .inr (.inr rfl)
  | read e =>
    rw [EngineState.act, Option.ite_none_right_eq_some, Option.map_eq_some_iff] at h
    obtain ⟨⟨ht, he⟩, q, hq, rfl⟩ := h
    exact .read ht he hq
  | acquire a =>
    rw [EngineState.act, Option.ite_none_right_eq_some, Option.map_eq_some_iff] at h
    obtain ⟨⟨ht, ha⟩, p, hp, rfl⟩ := h
    exact .acquire ht ha hp
  | record order now =>
    simp only [EngineState.act] at h
    split at h
    · next id ht =>
      rw [Option.ite_none_right_eq_some, Option.some_inj] at h
      obtain ⟨hdrawn, rfl⟩ := h
      exact .record ht hdrawn
    · exact absurd h (by simp)
  | postNew =>
    simp only [EngineState.act] at h
    split at h
    · next order ht =>
      obtain rfl := Option.some_inj.1 h
      exact .postNew ht
    · exact absurd h (by simp)
  | touch now =>
    simp only [EngineState.act] at h
    split at h
    · next idx ht =>
      obtain rfl := Option.some_inj.1 h
      exact .touch ht
    · exact absurd h (by simp)
  | postCancel order =>
    simp only [EngineState.act] at h
    split at h
    · next idx ht =>
      rw [Option.ite_none_right_eq_some, Option.some_inj] at h
      obtain ⟨rfl, rfl⟩ := h
      exact .postCancel ht
    · exact absurd h (by simp)
  | receive s =>
    rw [EngineState.act, Option.ite_none_right_eq_some, Option.some_inj] at h
    obtain ⟨⟨hh, hs⟩, rfl⟩ := h
    exact .receive hh hs
  | check =>
    simp only [EngineState.act] at h
    split at h
    · next s hh =>
      obtain rfl := Option.some_inj.1 h
      exact .check hh
    · exact absurd h (by simp)
  | store =>
    simp only [EngineState.act] at h
    split at h
    · next s hh =>
      obtain rfl := Option.some_inj.1 h
      exact .store hh
    · exact absurd h (by simp)
  | dispatch coin =>
    simp only [EngineState.act] at h
    split at h
    · next s hh =>
      cases hstate : s.state with
      | Accepted =>
        rw [hstate] at h
        obtain rfl := Option.some_inj.1 h
        cases coin with
        | true => exact .request hh hstate
        | false => exact .keep hh
      | Partial =>
        rw [hstate] at h
        obtain rfl := Option.some_inj.1 h
        exact .keep hh
      | _ =>
        rw [hstate] at h
        obtain rfl := Option.some_inj.1 h
        exact .close hh
    · exact absurd h (by simp)
  | write e =>
    simp only [EngineState.act] at h
    split at h
    · next s hh =>
      rw [Option.ite_none_right_eq_some, Option.map_eq_some_iff] at h
      obtain ⟨he, q, hq, rfl⟩ := h
      exact .write hh he hq
    · exact absurd h (by simp)
  | releaseWrite =>
    simp only [EngineState.act] at h
    split at h
    · next s hh =>
      rw [Option.ite_none_right_eq_some, Option.some_inj] at h
      obtain ⟨hr, rfl⟩ := h
      exact .releaseWrite hh hr
    · exact absurd h (by simp)
  | releasePublish =>
    simp only [EngineState.act] at h
    split at h
    · next s hh =>
      rw [Option.map_eq_some_iff] at h
      obtain ⟨p, hp, rfl⟩ := h
      exact .releasePublish hh hp
    · exact absurd h (by simp)
  | joined =>
    rw [EngineState.act, Option.ite_none_right_eq_some, Option.some_inj] at h
    obtain ⟨⟨hh, ht⟩, rfl⟩ := h
    exact .joined hh ht
  | requestStop =>
    obtain rfl := Option.some_inj.1 h
    exact .requestStop
  | setTrading on =>
    obtain rfl := Option.some_inj.1 h
    exact .setTrading
  | answerNew order s =>
    rw [EngineState.act, Option.ite_none_right_eq_some, Option.some_inj] at h
    obtain ⟨⟨ho, hs⟩, rfl⟩ := h
    exact .answerNew ho hs
  | answerCancel cancel s =>
    rw [EngineState.act, Option.ite_none_right_eq_some, Option.some_inj] at h
    obtain ⟨⟨hc, hs⟩, rfl⟩ := h
    exact .answerCancel hc hs

/-- The engine with a pool of capacity `c` and a queue of `N` slots. -/
def engine (c : Capacity) (N : SlotCount) : Machine (EngineState c) (EngineAction c) where
  init st := ∃ q, (spsc N).init q ∧ st = .start c q
  step st e st' := st.act N e = some st'

end TradeEngine
