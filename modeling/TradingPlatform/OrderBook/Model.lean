/-
The price-level order book
(`server/src/execution/orderbook/price_level_order_book.hpp`).

Orders rest in nodes of a pool.  The nodes of one side and price form a doubly
linked list, two bit masks tell which levels hold orders, the best price of
each side is cached, and the indices of closed orders are recycled through a
stack.  Arrays are functions of their index, zero where nothing was written:
the source's `HugeArray` clears its memory.

Members of the source that are references or pointers into the book are
written here as reads and writes of the field they refer to, in the same
order.  Volumes are 64-bit and quantities 32-bit, so their arithmetic wraps as
in the source.

The two loops of `match` take fuel: an answer `none` means that the loops did
not finish within it.
-/
import TradingPlatform.Types
import TradingPlatform.Lib.WordMask

inductive Side
  | Buy
  | Sell
deriving DecidableEq, Repr

/-- `side == Side::Buy ? Side::Sell : Side::Buy`. -/
def Side.opposite : Side → Side
  | .Buy => .Sell
  | .Sell => .Buy

structure Node (K : Constants) where
  next : ℕ
  prev : ℕ
  price : ℕ
  qty : Quantity
  localId : BookOrderId K
  systemId : SystemOrderId K
  side : Side

structure PriceLevelSide where
  volume : UInt64
  head : ℕ
  tail : ℕ

structure PriceLevel where
  bid : PriceLevelSide
  ask : PriceLevelSide

structure PriceLevelOrderBook (K : Constants) where
  nodePool : ℕ → Node K
  levels : ℕ → PriceLevel
  bidMask : ℕ → BitVec 64
  askMask : ℕ → BitVec 64
  freeStack : ℕ → BookOrderId K
  freeTop : ℕ
  nextAvailableIdx : ℕ
  minAsk : ℕ
  maxBid : ℕ

/-- `MASK_SIZE`. -/
def maskSize (K : Constants) : ℕ := K.maxTicks / 64 + 1

namespace PriceLevelOrderBook

variable {K : Constants}

/-- The constructor: cleared arrays, no order. -/
def fresh (K : Constants) : PriceLevelOrderBook K where
  nodePool := fun _ => ⟨0, 0, 0, 0, default, default, .Buy⟩
  levels := fun _ => ⟨⟨0, 0, 0⟩, ⟨0, 0, 0⟩⟩
  bidMask := fun _ => 0
  askMask := fun _ => 0
  freeStack := fun _ => default
  freeTop := 0
  nextAvailableIdx := 1
  minAsk := K.maxTicks
  maxBid := 0

/-! ### Access by side -/

/-- `side == Side::Buy ? levels_[price].bid : levels_[price].ask`. -/
def level (b : PriceLevelOrderBook K) (side : Side) (price : ℕ) : PriceLevelSide :=
  match side with
  | .Buy => (b.levels price).bid
  | .Sell => (b.levels price).ask

def setLevel (b : PriceLevelOrderBook K) (side : Side) (price : ℕ) (l : PriceLevelSide) :
    PriceLevelOrderBook K :=
  match side with
  | .Buy => { b with levels := Function.update b.levels price { b.levels price with bid := l } }
  | .Sell => { b with levels := Function.update b.levels price { b.levels price with ask := l } }

/-- `side == Side::Buy ? bidMask_ : askMask_`. -/
def mask (b : PriceLevelOrderBook K) (side : Side) : ℕ → BitVec 64 :=
  match side with
  | .Buy => b.bidMask
  | .Sell => b.askMask

def setMask (b : PriceLevelOrderBook K) (side : Side) (m : ℕ → BitVec 64) :
    PriceLevelOrderBook K :=
  match side with
  | .Buy => { b with bidMask := m }
  | .Sell => { b with askMask := m }

def setNode (b : PriceLevelOrderBook K) (i : ℕ) (n : Node K) : PriceLevelOrderBook K :=
  { b with nodePool := Function.update b.nodePool i n }

/-! ### Node recycling -/

def acquireId (b : PriceLevelOrderBook K) : BookOrderId K × PriceLevelOrderBook K :=
  if 0 < b.freeTop then
    (b.freeStack (b.freeTop - 1), { b with freeTop := b.freeTop - 1 })
  else if K.maxBookOrders.val ≤ b.nextAvailableIdx then
    (default, b)
  else
    (SlotId.make (UInt32.ofNat b.nextAvailableIdx) 1,
      { b with nextAvailableIdx := b.nextAvailableIdx + 1 })

def releaseId (b : PriceLevelOrderBook K) (id : BookOrderId K) : PriceLevelOrderBook K :=
  -- the generation advances on the stack only; the node keeps its handle
  { b with
    freeStack := Function.update b.freeStack b.freeTop id.nextGen
    freeTop := b.freeTop + 1 }

/-! ### Best prices -/

/-- The loop over `bidMask_[startWord], …, bidMask_[0]`. -/
def findNewMaxBid (b : PriceLevelOrderBook K) (startWord : ℕ) : PriceLevelOrderBook K :=
  { b with maxBid := (WordMask.lastFrom b.bidMask startWord (startWord + 1)).getD 0 }

/-- The loop over `askMask_[startWord], …, askMask_[MASK_SIZE - 1]`. -/
def findNewMinAsk (b : PriceLevelOrderBook K) (startWord : ℕ) : PriceLevelOrderBook K :=
  { b with
    minAsk := (WordMask.firstFrom b.askMask startWord (maskSize K - startWord)).getD K.maxTicks }

/-- `getBestAsk`; `none` is `{0, false}`.  Only the first non-zero word between
`minAsk_ >> 6` and `limitPrice >> 6` is looked at. -/
def getBestAsk (b : PriceLevelOrderBook K) (limitPrice : ℕ) : Option ℕ :=
  let startWord := b.minAsk >>> 6
  let maxWord := limitPrice >>> 6
  match WordMask.firstFrom b.askMask startWord (maxWord + 1 - startWord) with
  | some p => if p ≤ limitPrice ∧ (b.levels p).ask.head ≠ 0 then some p else none
  | none => none

/-- `getBestBid`; `none` is `{0, false}`. -/
def getBestBid (b : PriceLevelOrderBook K) (limitPrice : ℕ) : Option ℕ :=
  let startWord := b.maxBid >>> 6
  let minWord := limitPrice >>> 6
  match WordMask.lastFrom b.bidMask startWord (startWord + 1 - minWord) with
  | some p => if limitPrice ≤ p ∧ (b.levels p).bid.head ≠ 0 then some p else none
  | none => none

def updateOccupancy (b : PriceLevelOrderBook K) (side : Side) (priceIdx : ℕ)
    (active : Bool) : PriceLevelOrderBook K :=
  let wordIdx := priceIdx >>> 6
  let bitIdx := priceIdx &&& 63
  let volume := (b.level side priceIdx).volume
  if active then
    let b := b.setMask side (WordMask.setBit (b.mask side) wordIdx bitIdx)
    match side with
    | .Buy => { b with maxBid := max b.maxBid priceIdx }
    | .Sell => { b with minAsk := min b.minAsk priceIdx }
  else
    -- a level with orders keeps its bit, but the best price is searched again
    let b :=
      if volume = 0 then b.setMask side (WordMask.clearBit (b.mask side) wordIdx bitIdx) else b
    if side = .Buy ∧ priceIdx = b.maxBid then
      b.findNewMaxBid wordIdx
    else if side = .Sell ∧ priceIdx = b.minAsk then
      b.findNewMinAsk wordIdx
    else
      b

/-! ### Matching -/

/-- One iteration of the inner loop of `match`: the order at the head of the
level `side`, `price` is filled as far as `remainingQty` reaches, and leaves
the book when nothing of it is left. -/
def fillHead (b : PriceLevelOrderBook K) (side : Side) (price : ℕ) (remainingQty : Quantity) :
    PriceLevelOrderBook K × Quantity :=
  let lvl := b.level side price
  let restingNode := b.nodePool lvl.head
  let fillQty := min remainingQty restingNode.qty
  let b := b.setNode lvl.head { restingNode with qty := restingNode.qty - fillQty }
  let lvl := { lvl with volume := lvl.volume - fillQty.toUInt64 }
  if restingNode.qty - fillQty = 0 then
    let b :=
      if restingNode.next ≠ 0 then
        (b.setLevel side price { lvl with head := restingNode.next }).setNode restingNode.next
          { b.nodePool restingNode.next with prev := 0 }
      else
        -- the level is empty now
        (b.setLevel side price { lvl with head := restingNode.next, tail := 0 }).updateOccupancy
          restingNode.side price false
    (b.releaseId restingNode.localId, remainingQty - fillQty)
  else
    (b.setLevel side price lvl, remainingQty - fillQty)

/-- The inner loop of `match`. -/
def fillLevel (side : Side) (price : ℕ) :
    ℕ → PriceLevelOrderBook K → Quantity → Option (PriceLevelOrderBook K × Quantity)
  | 0, _, _ => none
  | fuel + 1, b, remainingQty =>
    if (b.level side price).head ≠ 0 ∧ 0 < remainingQty then
      let r := b.fillHead side price remainingQty
      fillLevel side price fuel r.1 r.2
    else
      some (b, remainingQty)

/-- The test on the cached best price at the top of the outer loop. -/
def bestIsBeyond (b : PriceLevelOrderBook K) (side : Side) (price : ℕ) : Bool :=
  match side with
  | .Buy => price < b.minAsk
  | .Sell => b.maxBid < price

/-- `side == Side::Buy ? getBestAsk(price) : getBestBid(price)`. -/
def getBest (b : PriceLevelOrderBook K) (side : Side) (price : ℕ) : Option ℕ :=
  match side with
  | .Buy => b.getBestAsk price
  | .Sell => b.getBestBid price

/-- The outer loop of `match`, for an order of side `side` and price `price`. -/
def matchLoop (side : Side) (price : ℕ) :
    ℕ → PriceLevelOrderBook K → Quantity → Option (PriceLevelOrderBook K × Quantity)
  | 0, _, _ => none
  | fuel + 1, b, remainingQty =>
    if 0 < remainingQty then
      if b.bestIsBeyond side price then
        some (b, remainingQty)
      else
        match b.getBest side price with
        | none => some (b, remainingQty)
        | some best =>
          if (b.level side.opposite best).head = 0 then
            -- the branch logged as "Mask out of sync"
            matchLoop side price fuel (b.updateOccupancy side.opposite best false) remainingQty
          else
            (fillLevel side.opposite best (fuel + 1) b remainingQty).bind fun r =>
              matchLoop side price fuel r.1 r.2
    else
      some (b, remainingQty)

/-- `match`. -/
def matchOrder (fuel : ℕ) (b : PriceLevelOrderBook K) (o : InternalOrder K) (side : Side) :
    Option (PriceLevelOrderBook K × Quantity) :=
  matchLoop side o.price fuel b o.quantity

/-! ### The operations -/

/-- Linking a new node behind the tail of its level, up to the status. -/
def linkNode (b : PriceLevelOrderBook K) (o : InternalOrder K) (side : Side) (qty : Quantity)
    (localId : BookOrderId K) : PriceLevelOrderBook K :=
  let idx := localId.index
  let lvl := b.level side o.price
  let b := b.setNode idx ⟨0, lvl.tail, o.price, qty, localId, o.id, side⟩
  let b :=
    if lvl.tail ≠ 0 then
      b.setNode lvl.tail { b.nodePool lvl.tail with next := idx }
    else
      (b.setLevel side o.price { lvl with head := idx }).updateOccupancy side o.price true
  let lvl := b.level side o.price
  b.setLevel side o.price { lvl with tail := idx, volume := lvl.volume + qty.toUInt64 }

def restOrder (b : PriceLevelOrderBook K) (o : InternalOrder K) (side : Side) (qty : Quantity) :
    PriceLevelOrderBook K × List (BookMessage K) :=
  let r := b.acquireId
  if r.1.isValid then
    let fillTtl := o.quantity - qty
    let state := if fillTtl = 0 then OrderState.Accepted else OrderState.Partial
    (r.2.linkNode o side qty r.1, [.status ⟨o.id, r.1, fillTtl, o.price, state⟩])
  else
    (r.2, [.error ⟨.Error, "OrderBook is full"⟩])

/-- `if (node.prev) … else …` of `cancelOrder`. -/
def relinkPrev (b : PriceLevelOrderBook K) (node : Node K) : PriceLevelOrderBook K :=
  if node.prev ≠ 0 then
    b.setNode node.prev { b.nodePool node.prev with next := node.next }
  else
    b.setLevel node.side node.price { b.level node.side node.price with head := node.next }

/-- `if (node.next) … else …` of `cancelOrder`. -/
def relinkNext (b : PriceLevelOrderBook K) (node : Node K) : PriceLevelOrderBook K :=
  if node.next ≠ 0 then
    b.setNode node.next { b.nodePool node.next with prev := node.prev }
  else
    b.setLevel node.side node.price { b.level node.side node.price with tail := node.prev }

/-- Unlinking a node from its level, up to the status. -/
def unlinkNode (b : PriceLevelOrderBook K) (node : Node K) : PriceLevelOrderBook K :=
  let b := (b.relinkPrev node).relinkNext node
  let lvl := b.level node.side node.price
  let b := b.setLevel node.side node.price { lvl with volume := lvl.volume - node.qty.toUInt64 }
  if lvl.volume - node.qty.toUInt64 = 0 then
    b.updateOccupancy node.side node.price false
  else
    b

def cancelOrder (b : PriceLevelOrderBook K) (o : InternalOrder K) :
    PriceLevelOrderBook K × List (BookMessage K) :=
  let node := b.nodePool o.bookOId.index
  -- the only check there is; what it refuses is logged as "already closed"
  if node.localId ≠ o.bookOId then
    (b, [.status ⟨o.id, o.bookOId, 0, 0, .Rejected⟩])
  else
    ((b.unlinkNode node).releaseId node.localId, [.status ⟨o.id, o.bookOId, 0, 0, .Cancelled⟩])

def getSide (action : OrderAction) : Side := if action = .Buy then .Buy else .Sell

/-- `add`: the new book, the messages posted to the consumer, and the value
returned. -/
def add (fuel : ℕ) (b : PriceLevelOrderBook K) (ioe : InternalOrderEvent K) :
    Option (PriceLevelOrderBook K × List (BookMessage K) × Bool) :=
  if ioe.action = .Cancel then
    let r := b.cancelOrder ioe.order
    some (r.1, r.2, true)
  else
    let o := ioe.order
    let side := getSide ioe.action
    if K.maxTicks ≤ o.price then
      -- logged, and nothing is posted
      some (b, [], false)
    else
      (b.matchOrder fuel o side).map fun m =>
        if 0 < m.2 then
          let r := m.1.restOrder o side m.2
          (r.1, r.2, true)
        else
          (m.1, [.status ⟨o.id, default, o.quantity, o.price, .Full⟩], true)

/-- A call of `add` that returns: it leaves the book `b'` and posts `msgs`. -/
def Adds (b : PriceLevelOrderBook K) (ioe : InternalOrderEvent K)
    (msgs : List (BookMessage K)) (b' : PriceLevelOrderBook K) : Prop :=
  ∃ fuel ret, b.add fuel ioe = some (b', msgs, ret)

end PriceLevelOrderBook
