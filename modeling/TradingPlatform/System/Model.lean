/-
A client and the server, connected.

The trade engine (`Client/TradeEngine.lean`) was looked at against any server that
answers as it expects, and the server (`Server/Model.lean`) against any clients that
cancel as it expects.  Here the two are put together.  What the engine posts reaches
the server in the order in which it was posted; what the server sends to this client
waits for the engine's handler, which takes it in any order.  Other clients of the
server send what they like and keep to the discipline themselves.

* `TradingSystem` — the engine, the server and the orders on their way;
* `TradingSystem.hear` — what the engine's side of the connection makes of a message;
* `tradingSystem` — every order of the steps of the threads of the two programs.

The engine's `newOrders`, `cancels` and `assigned` say what its posts have come to;
they are history here, and so are `origin`, the number the server gave to the last order
with an id of the client, and `asked`, the cancel that came in for an order.
-/
import TradingPlatform.Client.Orders
import TradingPlatform.Server.Dialogue

open TradeEngine

variable {K : Constants} {M : Matching K} {c : Capacity}

structure TradingSystem (M : Matching K) (c : Capacity) where
  engine : EngineState c
  server : Server M
  upstream : List (Order × OrderId)
  origin : OrderId → ℕ
  asked : ℕ → Order × OrderId

/-- A step of the engine, the server taking in the next order of the client, an order of
another client, or a step of the worker or the gateway thread. -/
inductive SystemAction (K : Constants) (c : Capacity)
  | engine (e : EngineAction c)
  | deliver
  | other (so : ServerOrder) (about : ℕ)
  | server (a : ServerAction K)

/-- The steps of the engine's own threads. -/
def TradeEngine.EngineAction.own : EngineAction c → Bool
  | .answerNew _ _ => false
  | .answerCancel _ _ => false
  | _ => true

/-- The engine's side takes in the answer to a new order. -/
def TradeEngine.EngineState.heardNew (st : EngineState c) (order : Order) (s : OrderStatus) :
    EngineState c :=
  { st with
    newOrders := st.newOrders.erase order
    statuses := s ::ₘ st.statuses
    assigned := Function.update st.assigned order.id (some s.systemOrderId) }

/-- The engine's side takes in the answer to a cancel. -/
def TradeEngine.EngineState.heardCancel (st : EngineState c) (cancel : Order × OrderId)
    (s : OrderStatus) : EngineState c :=
  { st with cancels := st.cancels.erase cancel, statuses := s ::ₘ st.statuses }

namespace TradingSystem

/-- No order. -/
def noOrder : Order := ⟨0, (0, 0, 0, 0), 0, 0, .Dummy⟩

/-- Order `n` as the client sent it. -/
def requestOf (s : Server M) (n : ℕ) : Order :=
  match s.orders[n]? with
  | some sub => sub.request.order
  | none => noOrder

/-- A message of the server; it is for the engine if it is for client `k`. -/
def hear (k : ClientId) (s : Server M) (asked : ℕ → Order × OrderId) (st : EngineState c)
    (x : Sent) : EngineState c :=
  if x.status.clientId = k then
    match x.about with
    | some ⟨n, false⟩ => st.heardNew (requestOf s n) x.status.orderStatus
    | some ⟨n, true⟩ => st.heardCancel (asked n) x.status.orderStatus
    | none => { st with statuses := x.status.orderStatus ::ₘ st.statuses }
  else st

/-- The server goes on, and what it sends meanwhile is heard. -/
def advance (k : ClientId) (z : TradingSystem M c) (s : Server M) : TradingSystem M c :=
  { z with
    engine := (s.sent.drop z.server.sent.length).foldl (hear k s z.asked) z.engine
    server := s }

/-- What a step of the engine posts. -/
def posted (st : EngineState c) : EngineAction c → List (Order × OrderId)
  | .postNew =>
    match st.trader with
    | .recorded order => [(order, order.id)]
    | _ => []
  | .postCancel order =>
    match st.trader with
    | .touched idx => [(order, (st.orders idx).order.id)]
    | _ => []
  | _ => []

/-- The server is about to take in an order of the client. -/
def note (z : TradingSystem M c) (m : Order × OrderId) (rest : List (Order × OrderId)) :
    TradingSystem M c :=
  if m.1.action = .Cancel then
    { z with upstream := rest, asked := Function.update z.asked (z.origin m.2) m }
  else
    { z with
      upstream := rest
      origin := Function.update z.origin m.2 z.server.orders.length }

/-- One step; the engine is that of client `k`, and `N` are the slots of its queue. -/
def Step (k : ClientId) (N : SlotCount) (z : TradingSystem M c) :
    SystemAction K c → TradingSystem M c → Prop
  | .engine e, z' => e.own = true ∧ ∃ st, z.engine.act N e = some st ∧
      z' = { z with engine := st, upstream := z.upstream ++ posted z.engine e }
  | .deliver, z' => ∃ m rest, z.upstream = m :: rest ∧
      z' = (z.note m rest).advance k (z.server.clientStep ⟨k, m.1⟩ (z.origin m.2))
  | .other so about, z' => so.clientId ≠ k ∧ z.server.Disciplined (.client so about) ∧
      z' = z.advance k (z.server.clientStep so about)
  | .server a, z' => a.internal = true ∧ ∃ s, z.server.Step a s ∧ z' = z.advance k s

end TradingSystem

/-- Every order of steps of the engine of client `k`, the server and other clients. -/
def tradingSystem (M : Matching K) (c : Capacity) (N : SlotCount) (k : ClientId) :
    Machine (TradingSystem M c) (SystemAction K c) where
  init z := (TradeEngine.engine c N).init z.engine ∧ z.server = .start M ∧ z.upstream = []
  step := TradingSystem.Step k N

namespace TradingSystem

variable {k : ClientId} {N : SlotCount} {z z' : TradingSystem M c} {s : Server M}

/-! ### What is heard in a step -/

theorem advance_silent (hs : s.sent = z.server.sent) :
    z.advance k s = { z with server := s } := by
  rw [advance, hs, List.drop_length]
  rfl

theorem advance_sent {x : Sent} (hs : s.sent = z.server.sent ++ [x]) :
    z.advance k s = { z with engine := hear k s z.asked z.engine x, server := s } := by
  rw [advance, hs, List.drop_left]
  rfl

theorem note_server (z : TradingSystem M c) (m : Order × OrderId) (rest : List (Order × OrderId)) :
    (z.note m rest).server = z.server := by
  rw [note]
  split
  · rfl
  · rfl

theorem hear_other {asked : ℕ → Order × OrderId} {st : EngineState c} {x : Sent}
    (hx : x.status.clientId ≠ k) : hear k s asked st x = st :=
  if_neg hx

theorem hear_new {asked : ℕ → Order × OrderId} {st : EngineState c} {x : Sent} {n : ℕ}
    {sub : Submission K} (hx : x.status.clientId = k) (habout : x.about = some ⟨n, false⟩)
    (hsub : s.orders[n]? = some sub) :
    hear k s asked st x = st.heardNew sub.request.order x.status.orderStatus := by
  have hreq : requestOf s n = sub.request.order := by simp only [requestOf, hsub]
  rw [hear, if_pos hx, habout, ← hreq]

theorem hear_cancel {asked : ℕ → Order × OrderId} {st : EngineState c} {x : Sent} {n : ℕ}
    (hx : x.status.clientId = k) (habout : x.about = some ⟨n, true⟩) :
    hear k s asked st x = st.heardCancel (asked n) x.status.orderStatus := by
  rw [hear, if_pos hx, habout]

/-- What is heard is one of the engine's steps, if the engine waits for it. -/
theorem act_answerNew {st : EngineState c} {order : Order} {x : OrderStatus}
    (hmem : order ∈ st.newOrders) (hx : AnswersNew order x) :
    st.act N (.answerNew order x) = some (st.heardNew order x) :=
  if_pos ⟨hmem, hx⟩

theorem act_answerCancel {st : EngineState c} {cancel : Order × OrderId} {x : OrderStatus}
    (hmem : cancel ∈ st.cancels) (hx : AnswersCancel cancel.2 x) :
    st.act N (.answerCancel cancel x) = some (st.heardCancel cancel x) :=
  if_pos ⟨hmem, hx⟩

end TradingSystem
