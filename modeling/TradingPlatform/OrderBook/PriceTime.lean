/-
Price-time priority, on lists.

The abstract book keeps, for each side, the resting orders in the order in
which they are served: best price first, and within a price in order of
arrival.  This is what the price-level book is for; it knows nothing of
levels, masks or nodes.  An order carries the name (`bookOId`) it was given
when it came to rest, so that a cancel can say which order it means.

* `consume` fills an incoming order from the front of the opposite list;
* `enqueue` puts the unfilled remainder behind every order of its price;
* `PriceTimeBook.add` is the reaction to one event, with the messages to post.

The lemmas about `consume` are the accounting of a match: quantity is
conserved (`consume_sum`), the orders that survive keep their names and
prices (`mem_consume`), and whatever stops a match short of its quantity is
not crossed (`consume_stops`).
-/
import TradingPlatform.OrderBook.Model

/-- Whether an incoming order of side `side` and limit `limit` trades with an
order resting at price `p`. -/
def crosses (side : Side) (limit p : ℕ) : Bool :=
  match side with
  | .Buy => p ≤ limit
  | .Sell => limit ≤ p

/-- Whether price `p` is strictly better than `r` for orders resting on `side`. -/
def better (side : Side) (p r : ℕ) : Bool :=
  match side with
  | .Buy => r < p
  | .Sell => p < r

theorem Side.ne_opposite (side : Side) : side ≠ side.opposite := by
  cases side <;> decide

theorem crosses_eq_false_iff {side : Side} {limit p : ℕ} :
    crosses side limit p = false ↔ better side.opposite limit p = true := by
  cases side <;> simp [crosses, better, Side.opposite]

theorem better_trans {side : Side} {p q r : ℕ} (hpq : better side p q = true)
    (hqr : better side r q = false) : better side p r = true := by
  cases side <;> simp [better] at * <;> omega

/-- An order resting in the abstract book. -/
structure RestingOrder (K : Constants) where
  bookOId : BookOrderId K
  systemId : SystemOrderId K
  price : ℕ
  qty : ℕ
deriving DecidableEq

variable {K : Constants}

/-- Filling `qty` at `limit` from the front of a list of resting orders: the
orders left, and the quantity not filled. -/
def consume (side : Side) (limit : ℕ) :
    ℕ → List (RestingOrder K) → List (RestingOrder K) × ℕ
  | qty, [] => ([], qty)
  | qty, o :: rest =>
    if qty = 0 ∨ ¬crosses side limit o.price then (o :: rest, qty)
    else if qty < o.qty then ({ o with qty := o.qty - qty } :: rest, 0)
    else consume side limit (qty - o.qty) rest

/-- Putting an order behind every order of `side` that is served before it. -/
def enqueue (side : Side) (o : RestingOrder K) (l : List (RestingOrder K)) :
    List (RestingOrder K) :=
  l.takeWhile (fun x => !better side o.price x.price) ++
    o :: l.dropWhile (fun x => !better side o.price x.price)

/-- The abstract book. -/
structure PriceTimeBook (K : Constants) where
  bids : List (RestingOrder K)
  asks : List (RestingOrder K)

namespace PriceTimeBook

def empty : PriceTimeBook K := ⟨[], []⟩

def orders (a : PriceTimeBook K) (side : Side) : List (RestingOrder K) :=
  match side with
  | .Buy => a.bids
  | .Sell => a.asks

def setOrders (a : PriceTimeBook K) (side : Side) (l : List (RestingOrder K)) : PriceTimeBook K :=
  match side with
  | .Buy => { a with bids := l }
  | .Sell => { a with asks := l }

/-- The number of resting orders. -/
def count (a : PriceTimeBook K) : ℕ := a.bids.length + a.asks.length

/-- No two resting orders have the same name. -/
def DistinctNames (a : PriceTimeBook K) : Prop := ((a.bids ++ a.asks).map (·.bookOId)).Nodup

/-- An order named `id` rests in the book. -/
def Holds (a : PriceTimeBook K) (id : BookOrderId K) : Prop :=
  ∃ o ∈ a.bids ++ a.asks, o.bookOId = id

instance (a : PriceTimeBook K) (id : BookOrderId K) : Decidable (a.Holds id) :=
  inferInstanceAs (Decidable (∃ o ∈ a.bids ++ a.asks, o.bookOId = id))

/-- The book without the order named `id`. -/
def remove (a : PriceTimeBook K) (id : BookOrderId K) : PriceTimeBook K :=
  ⟨a.bids.filter (·.bookOId ≠ id), a.asks.filter (·.bookOId ≠ id)⟩

/-- A new order of side `side`.  `newId` is the name it gets if it comes to
rest. -/
def place (a : PriceTimeBook K) (o : InternalOrder K) (side : Side) (newId : BookOrderId K) :
    PriceTimeBook K × List (BookMessage K) :=
  let r := consume side o.price o.quantity.toNat (a.orders side.opposite)
  let a := a.setOrders side.opposite r.1
  if r.2 = 0 then
    (a, [.status ⟨o.id, default, o.quantity, o.price, .Full⟩])
  else if K.maxBookOrders.val - 1 ≤ a.count then
    (a, [.error ⟨.Error, "OrderBook is full"⟩])
  else
    let filled := o.quantity.toNat - r.2
    let state := if filled = 0 then OrderState.Accepted else OrderState.Partial
    (a.setOrders side (enqueue side ⟨newId, o.id, o.price, r.2⟩ (a.orders side)),
      [.status ⟨o.id, newId, UInt32.ofNat filled, o.price, state⟩])

/-- The reaction to one event. -/
def add (a : PriceTimeBook K) (ioe : InternalOrderEvent K) (newId : BookOrderId K) :
    PriceTimeBook K × List (BookMessage K) :=
  let o := ioe.order
  if ioe.action = .Cancel then
    if a.Holds o.bookOId then
      (a.remove o.bookOId, [.status ⟨o.id, o.bookOId, 0, 0, .Cancelled⟩])
    else
      (a, [.status ⟨o.id, o.bookOId, 0, 0, .Rejected⟩])
  else if K.maxTicks ≤ o.price then
    (a, [])
  else
    a.place o (PriceLevelOrderBook.getSide ioe.action) newId

end PriceTimeBook

/-! ### The accounting of a match -/

theorem consume_zero (side : Side) (limit : ℕ) (l : List (RestingOrder K)) :
    consume side limit 0 l = (l, 0) := by
  cases l with
  | nil => rfl
  | cons o rest => rw [consume, if_pos (.inl rfl)]

theorem consume_of_not_crosses {side : Side} {limit : ℕ} {l : List (RestingOrder K)}
    (h : ∀ o ∈ l, crosses side limit o.price = false) (qty : ℕ) :
    consume side limit qty l = (l, qty) := by
  cases l with
  | nil => rfl
  | cons o rest =>
    rw [consume, if_pos (.inr (by simp [h o List.mem_cons_self]))]

theorem consume_le (side : Side) (limit : ℕ) :
    ∀ (l : List (RestingOrder K)) (qty : ℕ), (consume side limit qty l).2 ≤ qty := by
  intro l
  induction l with
  | nil => exact fun qty => le_rfl
  | cons o rest ih =>
    intro qty
    rw [consume]
    split
    · exact le_rfl
    · split
      · exact Nat.zero_le _
      · exact (ih _).trans (Nat.sub_le _ _)

/-- What the match took from the resting orders is what it filled. -/
theorem consume_sum (side : Side) (limit : ℕ) :
    ∀ (l : List (RestingOrder K)) (qty : ℕ),
      ((consume side limit qty l).1.map (·.qty)).sum + (qty - (consume side limit qty l).2)
        = (l.map (·.qty)).sum := by
  intro l
  induction l with
  | nil =>
    intro qty
    simp [consume]
  | cons o rest ih =>
    intro qty
    rw [consume]
    split
    · simp
    · split
      · simp only [List.map_cons, List.sum_cons]
        omega
      · have hle := consume_le side limit rest (qty - o.qty)
        have hsum := ih (qty - o.qty)
        simp only [List.map_cons, List.sum_cons]
        omega

/-- The orders that survive a match keep their names and prices. -/
theorem mem_consume {side : Side} {limit : ℕ} :
    ∀ {l : List (RestingOrder K)} {qty : ℕ} {x : RestingOrder K},
      x ∈ (consume side limit qty l).1 →
        ∃ y ∈ l, y.bookOId = x.bookOId ∧ y.systemId = x.systemId ∧ y.price = x.price := by
  intro l
  induction l with
  | nil =>
    intro qty x hx
    exact absurd hx List.not_mem_nil
  | cons o rest ih =>
    intro qty x hx
    rw [consume] at hx
    split at hx
    · exact ⟨x, hx, rfl, rfl, rfl⟩
    · split at hx
      · rcases List.mem_cons.mp hx with rfl | hx
        · exact ⟨o, List.mem_cons_self, rfl, rfl, rfl⟩
        · exact ⟨x, List.mem_cons_of_mem o hx, rfl, rfl, rfl⟩
      · obtain ⟨y, hy, h⟩ := ih hx
        exact ⟨y, List.mem_cons_of_mem o hy, h⟩

/-- A list of resting orders in the order of their prices. -/
def PriceSorted (side : Side) (l : List (RestingOrder K)) : Prop :=
  l.Pairwise fun x y => better side y.price x.price = false

theorem crosses_of_not_better {side : Side} {limit p r : ℕ}
    (hb : better side.opposite r p = false) (hc : crosses side limit p = false) :
    crosses side limit r = false := by
  rw [crosses_eq_false_iff] at hc ⊢
  exact better_trans hc hb

/-- A limit that is no better crosses no more. -/
theorem crosses_of_limit_not_better {side : Side} {limit limit' p : ℕ}
    (hb : better side limit limit' = false) (hc : crosses side limit' p = false) :
    crosses side limit p = false := by
  cases side with
  | Buy =>
    rw [better, decide_eq_false_iff_not] at hb
    rw [crosses, decide_eq_false_iff_not] at hc ⊢
    omega
  | Sell =>
    rw [better, decide_eq_false_iff_not] at hb
    rw [crosses, decide_eq_false_iff_not] at hc ⊢
    omega

/-- A match that runs out of its side's list before its quantity is filled
leaves nothing that it crosses. -/
theorem consume_stops {side : Side} {limit : ℕ} :
    ∀ {l : List (RestingOrder K)} {qty : ℕ}, PriceSorted side.opposite l →
      (consume side limit qty l).2 ≠ 0 →
        ∀ x ∈ (consume side limit qty l).1, crosses side limit x.price = false := by
  intro l
  induction l with
  | nil =>
    intro qty _ _ x hx
    exact absurd hx List.not_mem_nil
  | cons o rest ih =>
    intro qty hs hne x hx
    obtain ⟨ho, hs⟩ := List.pairwise_cons.mp hs
    rw [consume] at hne hx
    split at hne
    · next hstop =>
      rw [if_pos hstop] at hx
      have hno : crosses side limit o.price = false := by
        rcases hstop with h0 | hno
        · exact absurd h0 hne
        · simpa using hno
      rcases List.mem_cons.mp hx with rfl | hx
      · exact hno
      · -- the orders behind the first that does not cross are no better
        exact crosses_of_not_better (ho x hx) hno
    · next hgo =>
      rw [if_neg hgo] at hx
      split at hne
      · exact absurd rfl hne
      · next hfull =>
        rw [if_neg hfull] at hx
        exact ih hs hne x hx

/-- A match of orders with something left in them either changes nothing, or
fills something; and when it does not fill everything, an order has gone. -/
theorem consume_progress {side : Side} {limit : ℕ} :
    ∀ {l : List (RestingOrder K)} {qty : ℕ}, (∀ o ∈ l, 0 < o.qty) →
      consume side limit qty l = (l, qty) ∨
        (consume side limit qty l).2 < qty ∧
          ((consume side limit qty l).2 ≠ 0 → (consume side limit qty l).1.length < l.length) := by
  intro l
  induction l with
  | nil => exact fun _ => .inl rfl
  | cons o rest ih =>
    intro qty hpos
    have ho := hpos o List.mem_cons_self
    rw [consume]
    split
    · exact .inl rfl
    · next hgo =>
      have hq : 0 < qty := by
        by_contra h0
        exact hgo (.inl (by omega))
      right
      split
      · exact ⟨hq, fun hc => absurd rfl hc⟩
      · have ih := @ih (qty - o.qty) fun x hx => hpos x (List.mem_cons_of_mem o hx)
        rcases ih with heq | ⟨hlt, hlen⟩
        · rw [heq]
          exact ⟨by simp only; omega, fun _ => by simp⟩
        · refine ⟨by omega, fun hc => ?_⟩
          have := hlen hc
          rw [List.length_cons]
          omega
