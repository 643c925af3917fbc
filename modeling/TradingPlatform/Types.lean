/-
Constants, order messages and the internal order events
(`common/src/types`, `server/src/gateway`, `server/src/domain`).

The compile-time limits are kept as a parameter: `Constants.production` and
`Constants.cicd` are the two builds of the repository, and every result is
about any limits the templates accept.

Quantities, client and order identifiers are 32-bit words as in the source.
Prices and array indices are natural numbers: the code compares prices and
uses them as positions, and never does arithmetic on them that could wrap.
-/
import TradingPlatform.SlotId

/-- `common/src/types/constants.hpp`. -/
structure Constants where
  maxSystemOrders : Capacity
  maxBookOrders : Capacity
  maxTicks : ℕ
  maxTicks_lt : maxTicks < 2 ^ 32

namespace Constants

def production : Constants where
  maxSystemOrders := ⟨2 ^ 24, by decide, by decide⟩
  maxBookOrders := ⟨2 ^ 17, by decide, by decide⟩
  maxTicks := 2 ^ 13
  maxTicks_lt := by decide

def cicd : Constants where
  maxSystemOrders := ⟨2 ^ 17, by decide, by decide⟩
  maxBookOrders := ⟨2 ^ 10, by decide, by decide⟩
  maxTicks := 2 ^ 7
  maxTicks_lt := by decide

end Constants

abbrev OrderId := UInt32
abbrev ClientId := UInt32
abbrev Quantity := UInt32

/-- `SystemOrderId = SlotId<MAX_SYSTEM_ORDERS>`. -/
abbrev SystemOrderId (K : Constants) := SlotId K.maxSystemOrders

/-- `BookOrderId = SlotId<MAX_BOOK_ORDERS>`. -/
abbrev BookOrderId (K : Constants) := SlotId K.maxBookOrders

/-- `Ticker = std::array<char, 4>`. -/
abbrev Ticker := UInt8 × UInt8 × UInt8 × UInt8

inductive OrderAction
  | Dummy
  | Buy
  | Sell
  | Modify
  | Cancel
deriving DecidableEq, Repr

inductive OrderState
  | Accepted
  | Rejected
  | Cancelled
  | Partial
  | Full
deriving DecidableEq, Repr

/-- `domain_types.hpp`: an order as the client sends it. -/
structure Order where
  id : OrderId
  ticker : Ticker
  quantity : Quantity
  price : ℕ
  action : OrderAction
deriving DecidableEq, Repr

/-- `domain_types.hpp`: the answer the client gets. -/
structure OrderStatus where
  orderId : OrderId
  systemOrderId : OrderId
  quantity : Quantity
  fillPrice : ℕ
  state : OrderState
deriving DecidableEq, Repr

structure ServerOrder where
  clientId : ClientId
  order : Order
deriving DecidableEq, Repr

structure ServerOrderStatus where
  clientId : ClientId
  orderStatus : OrderStatus
deriving DecidableEq, Repr

/-- `InternalOrder`: what is left of an order inside the server. -/
structure InternalOrder (K : Constants) where
  id : SystemOrderId K
  bookOId : BookOrderId K
  quantity : Quantity
  price : ℕ
deriving DecidableEq, Repr

/-- `InternalOrderEvent`, without the pointer to the ticker's data, which the
coordinator fills in (`Coordinator.post`). -/
structure InternalOrderEvent (K : Constants) where
  order : InternalOrder K
  ticker : Ticker
  action : OrderAction
deriving DecidableEq, Repr

structure InternalOrderStatus (K : Constants) where
  id : SystemOrderId K
  bookOId : BookOrderId K
  fillQty : Quantity
  fillPrice : ℕ
  state : OrderState
deriving DecidableEq, Repr

inductive StatusCode
  | Ok
  | Error
  | DbError
  | AuthUserNotFound
  | AuthInvalidPassword
deriving DecidableEq, Repr

structure InternalError where
  code : StatusCode
  what : String
deriving DecidableEq, Repr

/-- What a book posts to its consumer: a status for the gateway, or an error
for the control center. -/
inductive BookMessage (K : Constants)
  | status (s : InternalOrderStatus K)
  | error (e : InternalError)
deriving DecidableEq, Repr
