/-
The order path of the server
(`server/src/gateway/order_gateway.hpp`, `server/src/execution/coordinator.hpp`).

Three threads take turns.  The network thread checks an incoming order, gives
it a system id and a record, and queues an event for the matching worker; a
cancel is checked against the record and queued.  The worker hands one event
after the other to the book and queues the statuses the book posts.  The
gateway thread answers the client and updates the record: for one status it
first emits the answer, and then stores the book's handle and sets the record
to `Accepted`, or sets it to `Closed` and releases the id.  Each of these
stores is a step of its own.

The book is a parameter (`Matching`), so that what holds for any book that
keeps to its contract (`Matching.Lawful`) can be told from what depends on the
price-level book (`bookMatching`).  A queue has `lfqCapacity` places
(`common/src/runner/lfq_runner.hpp`); a thread that posts to a full queue spins
for a while, which is the time before its step, and then drops the message.
The queues are `SequencedSPSC` rings with one producer each, so there is one
worker; the server is looked at between its start and its shutdown.

The last fields of `Server` are history: which orders were submitted and by
whom, which order owns a slot, which handle the book gave to an order, what was
sent to the clients, and what was asked of the id pool.  Messages carry the
order they are about.  No step looks at any of this.
-/
import TradingPlatform.OrderBook.Tickets
import TradingPlatform.IdPool.Inventory

inductive RecordState
  | New
  | Accepted
  | Closed
deriving DecidableEq, Repr

/-- `server/src/gateway/order_record.hpp`. -/
structure OrderRecord (K : Constants) where
  externalOId : OrderId
  systemOId : SystemOrderId K
  bookOId : BookOrderId K
  ticker : Ticker
  clientId : ClientId
  state : RecordState
deriving DecidableEq

/-- The tickers with a book, and the books behind them: `post σ ioe msgs σ'`
when handing `ioe` to its book posts `msgs`. -/
structure Matching (K : Constants) where
  tickers : Ticker → Bool
  State : Type
  start : State
  post : State → InternalOrderEvent K → List (BookMessage K) → State → Prop

/-- The order a message is about, and whether it belongs to a cancel of it. -/
structure Tag where
  order : ℕ
  cancel : Bool
deriving DecidableEq

/-- The default `Capacity` of `LfqRunner`. -/
def lfqCapacity : ℕ := 65536

/-- Where the gateway thread is in `post(InternalOrderStatus)`. -/
inductive GatewayPc (K : Constants)
  | idle
  | emitted (tag : Tag) (st : InternalOrderStatus K)
  | linked (tag : Tag) (st : InternalOrderStatus K)
  | closed (tag : Tag) (st : InternalOrderStatus K)
deriving DecidableEq

/-- A message to a client: what it answers, if it is an order or a cancel of
one, and whether the gateway thread sent it. -/
structure Sent where
  about : Option Tag
  byGateway : Bool
  status : ServerOrderStatus
deriving DecidableEq

/-- A Buy or Sell order that came in, and the id it was given. -/
structure Submission (K : Constants) where
  request : ServerOrder
  systemOId : Option (SystemOrderId K)
deriving DecidableEq

/-- A call of the id pool. -/
inductive PoolOp (K : Constants)
  | acquired (id : SystemOrderId K)
  | released (id : SystemOrderId K)
deriving DecidableEq

structure Server (M : Matching K) where
  idPool : SlotIdPool K.maxSystemOrders
  recordMap : ℕ → OrderRecord K
  events : List (Tag × InternalOrderEvent K)
  matching : M.State
  statuses : List (Tag × InternalOrderStatus K)
  gateway : GatewayPc K
  orders : List (Submission K)
  owner : ℕ → ℕ
  assigned : ℕ → Option (BookOrderId K)
  cancelled : List ℕ
  sent : List Sent
  ops : List (PoolOp K)

/-- The steps of the three threads.  `client` is the network thread handling
one order; `about` is the order a cancel is meant for.  `work` is the worker
handling one event, with what the book posts. -/
inductive ServerAction (K : Constants)
  | client (so : ServerOrder) (about : ℕ)
  | work (msgs : List (BookMessage K))
  | emit
  | linkBook
  | accept
  | close
  | release

variable {K : Constants} {M : Matching K}

/-- The statuses among the messages of a book. -/
def statusesOf (msgs : List (BookMessage K)) : List (InternalOrderStatus K) :=
  msgs.filterMap fun m =>
    match m with
    | .status st => some st
    | .error _ => none

/-- The states after which `post(InternalOrderStatus)` closes the record. -/
def OrderState.closes : OrderState → Bool
  | .Cancelled => true
  | .Rejected => true
  | .Full => true
  | _ => false

/-- The states that leave an order resting. -/
def OrderState.rests : OrderState → Bool
  | .Accepted => true
  | .Partial => true
  | _ => false

namespace Server

/-- The server after its start. -/
def start (M : Matching K) : Server M where
  idPool := .fresh _
  recordMap := fun _ => ⟨0, default, default, (0, 0, 0, 0), 0, .New⟩
  events := []
  matching := M.start
  statuses := []
  gateway := .idle
  orders := []
  owner := fun _ => 0
  assigned := fun _ => none
  cancelled := []
  sent := []
  ops := []

/-! ### The network thread -/

def isValid (so : ServerOrder) : Bool := 0 < so.order.price

/-- The answer of the network thread to an order it does not accept. -/
def rejection (so : ServerOrder) : ServerOrderStatus :=
  ⟨so.clientId, ⟨so.order.id, 0, so.order.quantity, so.order.price, .Rejected⟩⟩

/-- The ticker has a book, and there is a place in the worker's queue. -/
def CanPost (s : Server M) (ioe : InternalOrderEvent K) : Prop :=
  M.tickers ioe.ticker = true ∧ s.events.length < lfqCapacity

instance (s : Server M) (ioe : InternalOrderEvent K) : Decidable (s.CanPost ioe) :=
  inferInstanceAs (Decidable (_ ∧ _))

/-- `Coordinator::post`, up to the worker's queue. -/
def postEvent (s : Server M) (tag : Tag) (ioe : InternalOrderEvent K) : Server M :=
  -- an unknown ticker is logged, a full queue drops the event
  if s.CanPost ioe then { s with events := s.events ++ [(tag, ioe)] } else s

/-- `OrderGateway::cancelOrder`: the event it posts, if the checks pass. -/
def cancelOrder (s : Server M) (so : ServerOrder) : Option (InternalOrderEvent K) :=
  let sysOId : SystemOrderId K := ⟨so.order.id⟩
  let r := s.recordMap sysOId.index
  if r.state ≠ .Accepted ∨ so.clientId ≠ r.clientId ∨ so.order.id ≠ r.systemOId.raw then none
  else some ⟨⟨sysOId, r.bookOId, so.order.quantity, so.order.price⟩, so.order.ticker,
    so.order.action⟩

/-- The record of a new order. -/
def newRecord (so : ServerOrder) (id : SystemOrderId K) : OrderRecord K :=
  ⟨so.order.id, id, default, so.order.ticker, so.clientId, .New⟩

/-- The event of a new order. -/
def newEvent (so : ServerOrder) (id : SystemOrderId K) : InternalOrderEvent K :=
  ⟨⟨id, default, so.order.quantity, so.order.price⟩, so.order.ticker, so.order.action⟩

/-- A new order with the id `id`, up to its event. -/
def createRecord (s : Server M) (so : ServerOrder) (id : SystemOrderId K)
    (pool : SlotIdPool K.maxSystemOrders) : Server M :=
  { s with
    idPool := pool
    recordMap := Function.update s.recordMap id.index (newRecord so id)
    orders := s.orders ++ [⟨so, some id⟩]
    owner := Function.update s.owner id.index s.orders.length
    ops := s.ops ++ [.acquired id] }

/-- An order answered by the network thread. -/
def reject (s : Server M) (so : ServerOrder) : Server M :=
  { s with
    orders := s.orders ++ [⟨so, none⟩]
    sent := s.sent ++ [⟨some ⟨s.orders.length, false⟩, false, rejection so⟩] }

/-- `OrderGateway::newOrder`. -/
def newOrder (s : Server M) (so : ServerOrder) : Server M :=
  let r := s.idPool.acquire
  if r.1.isValid then
    (s.createRecord so r.1 r.2).postEvent ⟨s.orders.length, false⟩ (newEvent so r.1)
  else
    { s with idPool := r.2 }.reject so

/-- `OrderGateway::post(ServerOrder)`. -/
def postOrder (s : Server M) (so : ServerOrder) : Server M :=
  if isValid so then
    match so.order.action with
    | .Dummy => s
    | .Cancel =>
      -- a cancel that fails a check gets no answer
      match s.cancelOrder so with
      | some ioe => s.postEvent ⟨s.owner ioe.order.id.index, true⟩ ioe
      | none => s
    | .Modify => s
    | .Buy => s.newOrder so
    | .Sell => s.newOrder so
  else if so.order.action = .Buy ∨ so.order.action = .Sell then
    s.reject so
  else
    { s with sent := s.sent ++ [⟨none, false, rejection so⟩] }

/-- One incoming order; a cancel is noted with the order it is meant for. -/
def clientStep (s : Server M) (so : ServerOrder) (about : ℕ) : Server M :=
  if so.order.action = .Cancel then
    { s.postOrder so with cancelled := s.cancelled ++ [about] }
  else s.postOrder so

/-! ### The worker and the gateway thread -/

/-- The worker's queue and the gateway's queue after the book has answered. -/
def worked (s : Server M) (tag : Tag) (rest : List (Tag × InternalOrderEvent K))
    (msgs : List (BookMessage K)) (σ : M.State) : Server M :=
  { s with
    events := rest
    matching := σ
    statuses := s.statuses ++
      ((statusesOf msgs).map fun st => (tag, st)).take (lfqCapacity - s.statuses.length)
    assigned := match (statusesOf msgs).find? fun st => st.state.rests with
      | some st => Function.update s.assigned tag.order (some st.bookOId)
      | none => s.assigned }

/-- The answer to the client, read from the record. -/
def answer (s : Server M) (st : InternalOrderStatus K) : ServerOrderStatus :=
  let r := s.recordMap st.id.index
  ⟨r.clientId, ⟨r.externalOId, r.systemOId.raw, st.fillQty, st.fillPrice, st.state⟩⟩

def setRecord (s : Server M) (i : ℕ) (r : OrderRecord K) : Server M :=
  { s with recordMap := Function.update s.recordMap i r }

/-- The first four steps of the gateway thread, as far as its program counter
allows them, and the release. -/
def gatewayStep (s : Server M) : ServerAction K → Option (Server M)
  | .emit =>
    match s.gateway, s.statuses with
    | .idle, (tag, st) :: rest =>
      some { s with
        statuses := rest
        gateway := .emitted tag st
        sent := s.sent ++ [⟨some tag, true, s.answer st⟩] }
    | _, _ => none
  | .linkBook =>
    match s.gateway with
    | .emitted tag st =>
      -- the `default` branch of the switch
      if st.state.closes then none
      else
        let r := s.recordMap st.id.index
        some { s.setRecord st.id.index { r with bookOId := st.bookOId } with
          gateway := .linked tag st }
    | _ => none
  | .accept =>
    match s.gateway with
    | .linked _ st =>
      let r := s.recordMap st.id.index
      some { s.setRecord st.id.index { r with state := .Accepted } with gateway := .idle }
    | _ => none
  | .close =>
    match s.gateway with
    | .emitted tag st =>
      if st.state.closes then
        let r := s.recordMap st.id.index
        some { s.setRecord st.id.index { r with state := .Closed } with gateway := .closed tag st }
      else none
    | _ => none
  | .release =>
    match s.gateway with
    | .closed _ st =>
      -- the id in the record, not the one in the status
      let id := (s.recordMap st.id.index).systemOId
      some { s with
        idPool := s.idPool.release id
        ops := s.ops ++ [.released id]
        gateway := .idle }
    | _ => none
  | _ => none

end Server

/-- One step of the server. -/
def Server.Step (s : Server M) : ServerAction K → Server M → Prop
  | .client so about, s' => s' = s.clientStep so about
  | .work msgs, s' => ∃ tag ioe rest σ, s.events = (tag, ioe) :: rest ∧
      M.post s.matching ioe msgs σ ∧ s' = s.worked tag rest msgs σ
  | a, s' => s.gatewayStep a = some s'

/-- The server as a machine. -/
def serverMachine (M : Matching K) : Machine (Server M) (ServerAction K) where
  init s := s = .start M
  step := Server.Step

/-! ### The contract of a book -/

/-- What the server relies on: at most one status for an event, with its id;
a new order is filled or gets a valid handle, a cancel is answered as one. -/
def Matching.Lawful (M : Matching K) : Prop :=
  ∀ σ ioe msgs σ', M.post σ ioe msgs σ' →
    statusesOf msgs = [] ∨ ∃ st, statusesOf msgs = [st] ∧ st.id = ioe.order.id ∧
      (ioe.action = .Cancel → st.state = .Cancelled ∨ st.state = .Rejected) ∧
      (ioe.action ≠ .Cancel →
        st.state = .Full ∨ st.state.rests = true ∧ st.bookOId.isValid = true)

/-- The price-level books, one for each ticker. -/
def bookMatching (K : Constants) (tickers : Ticker → Bool) : Matching K where
  tickers := tickers
  State := Ticker → PriceLevelOrderBook K
  start := fun _ => .fresh K
  post σ ioe msgs σ' := ∃ b, (σ ioe.ticker).Adds ioe msgs b ∧
    σ' = Function.update σ ioe.ticker b
