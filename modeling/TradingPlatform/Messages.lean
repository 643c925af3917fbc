/-
The messages of the wire (`common/src/types/domain_types.hpp`).

Strings are their bytes, and every number has the width of its field in the
source; the server's own order types are in `Types`.  Here too is what channels
and serializers report.
-/
import TradingPlatform.Types

abbrev Price := UInt32
abbrev Token := UInt64
abbrev ConnectionId := UInt64

/-- What a channel posts when it has decoded a message, and what it sends. -/
inductive DomainMessage
  | loginRequest (name password : List UInt8)
  | tokenBindRequest (token : Token)
  | loginResponse (token : Token) (ok : Bool) (error : List UInt8)
  | order (id : OrderId) (ticker : Ticker) (quantity : Quantity) (price : Price)
      (action : OrderAction)
  | orderStatus (orderId systemOrderId : OrderId) (quantity : Quantity) (fillPrice : Price)
      (state : OrderState)
  | tickerPrice (ticker : Ticker) (price : Price)
deriving DecidableEq, Repr

/-- `common/src/transport/connection_status.hpp`. -/
inductive ConnectionStatus
  | Disconnected
  | Connected
  | Error
deriving DecidableEq, Repr

/-- How decoding can end without a size: `StatusCode::Error`, or an exception
that leaves the function. -/
inductive Failure
  | error
  | exception
deriving DecidableEq, Repr

/-- What a serializer does with some bytes: it posts one message and returns a
size that is there, or posts nothing and returns an error. -/
def Answered (size : ℕ) (r : List DomainMessage × Except Failure ℕ) : Prop :=
  (∃ m n, r = ([m], .ok n) ∧ 0 < n ∧ n ≤ size) ∨ r = ([], .error .error)
