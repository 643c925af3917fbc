/-
The flat order book (`server/src/execution/orderbook/flat_order_book.hpp`,
`server/src/gateway/internal_order.hpp`).

Each side is an array kept as a heap by price; a new order is pushed first and the
tops of the two heaps are matched after that.  The part of an array below its
count is a list here.  The two heap algorithms are a parameter with what the
standard promises of them, so nothing depends on how orders of one price lie.

While the book is matched for a new order, every pair that crosses has that order
in it (`Matching.own_top`): the orders that were there did not cross.

* `add` — the operation, with the statuses it posts;
* `matchLoop_spec` — a call of `match` serves the opposite side like any match that
  takes the best prices first, and its statuses tell how much was filled;
* `add_spec` — so does a call of `add`, and it leaves the book in order.
-/
import TradingPlatform.Lib.Heap
import TradingPlatform.OrderBook.Depth

variable {K : Constants}

namespace InternalOrder

def partialFill (o : InternalOrder K) (fill : Quantity) : InternalOrder K :=
  { o with quantity := if o.quantity < fill then 0 else o.quantity - fill }

end InternalOrder

/-- Both arrays, up to their counts. -/
structure FlatOrderBook (K : Constants) where
  bids : List (InternalOrder K)
  asks : List (InternalOrder K)

namespace FlatOrderBook

def compareBids (left right : InternalOrder K) : Bool := left.price < right.price

def compareAsks (left right : InternalOrder K) : Bool := right.price < left.price

variable (H : HeapAlgorithms (InternalOrder K))

/-- `pop_heap` and the decrement of the count, if the first order is filled. -/
def popFilled (comp : InternalOrder K → InternalOrder K → Bool) (best : InternalOrder K)
    (rest : List (InternalOrder K)) : List (InternalOrder K) :=
  if best.quantity = 0 then (H.popHeap comp (best :: rest)).dropLast else best :: rest

/-- The status for the order of the event, if `best` is it. -/
def report (o best : InternalOrder K) (matchQty : Quantity) (matchPrice : ℕ) :
    List (InternalOrderStatus K) :=
  if o.id = best.id then
    [⟨best.id, default, matchQty, matchPrice, if best.quantity = 0 then .Full else .Partial⟩]
  else []

/-- The loop of `match`; `none` if it did not finish within the fuel. -/
def matchLoop (o : InternalOrder K) :
    ℕ → FlatOrderBook K → Option (FlatOrderBook K × List (InternalOrderStatus K))
  | 0, _ => none
  | fuel + 1, b =>
    match b.bids, b.asks with
    | bestBid :: bids, bestAsk :: asks =>
      if bestBid.price < bestAsk.price then some (b, [])
      else
        let matchQty := min bestBid.quantity bestAsk.quantity
        let matchPrice := bestAsk.price
        let bestBid := bestBid.partialFill matchQty
        let bestAsk := bestAsk.partialFill matchQty
        let b := ⟨popFilled H compareBids bestBid bids, popFilled H compareAsks bestAsk asks⟩
        (matchLoop o fuel b).map fun r =>
          (r.1, report o bestBid matchQty matchPrice ++ report o bestAsk matchQty matchPrice ++ r.2)
    | _, _ => some (b, [])

/-- `add`: the new book, the statuses posted to the consumer, and the value
returned. -/
def add (fuel : ℕ) (b : FlatOrderBook K) (ioe : InternalOrderEvent K) :
    Option (FlatOrderBook K × List (InternalOrderStatus K) × Bool) :=
  let count := if ioe.action = .Buy then b.bids.length else b.asks.length
  if K.maxBookOrders.val ≤ count then
    -- logged
    some (b, [⟨ioe.order.id, default, 0, 0, .Rejected⟩], false)
  else
    let b : FlatOrderBook K :=
      if ioe.action = .Buy then
        { b with bids := H.pushHeap compareBids (b.bids ++ [ioe.order]) }
      else
        { b with asks := H.pushHeap compareAsks (b.asks ++ [ioe.order]) }
    (matchLoop H ioe.order fuel b).map fun r => (r.1, r.2, true)

/-- A call of `add` that returns: it leaves the book `b'` and posts `statuses`. -/
def Adds (b : FlatOrderBook K) (ioe : InternalOrderEvent K)
    (statuses : List (InternalOrderStatus K)) (b' : FlatOrderBook K) : Prop :=
  ∃ fuel ret, add H fuel b ioe = some (b', statuses, ret)

/-- A book without orders. -/
def empty : FlatOrderBook K := ⟨[], []⟩

/-! ### Fuel -/

variable {H}

theorem matchLoop_mono {o : InternalOrder K} {fuel fuel' : ℕ} {b : FlatOrderBook K}
    {r : FlatOrderBook K × List (InternalOrderStatus K)} (hle : fuel ≤ fuel')
    (h : matchLoop H o fuel b = some r) : matchLoop H o fuel' b = some r := by
  induction fuel generalizing fuel' b r with
  | zero => cases h
  | succ fuel ih =>
    obtain ⟨m, rfl⟩ : ∃ m, fuel' = m + 1 := ⟨fuel' - 1, by omega⟩
    rw [matchLoop] at h ⊢
    split at h
    · split at h
      · next hlt =>
        rw [if_pos hlt]
        exact h
      · next hge =>
        rw [if_neg hge]
        rw [Option.map_eq_some_iff] at h ⊢
        obtain ⟨r', hr', h⟩ := h
        exact ⟨r', ih (by omega) hr', h⟩
    · exact h

/-- A call has one outcome. -/
theorem Adds.det {b b₁ b₂ : FlatOrderBook K} {ioe : InternalOrderEvent K}
    {m m' : List (InternalOrderStatus K)} (h : Adds H b ioe m b₁) (h' : Adds H b ioe m' b₂) :
    m = m' ∧ b₁ = b₂ := by
  obtain ⟨fuel, ret, h⟩ := h
  obtain ⟨fuel', ret', h'⟩ := h'
  rw [add] at h h'
  by_cases hfull : K.maxBookOrders.val ≤
      (if ioe.action = .Buy then b.bids.length else b.asks.length)
  · rw [if_pos hfull] at h h'
    have heq := h.symm.trans h'
    simp only [Option.some.injEq, Prod.mk.injEq] at heq
    exact ⟨heq.2.1, heq.1⟩
  · rw [if_neg hfull] at h h'
    obtain ⟨r, hr, hr'⟩ := Option.map_eq_some_iff.1 h
    obtain ⟨t, ht, ht'⟩ := Option.map_eq_some_iff.1 h'
    have heq := (matchLoop_mono (le_max_left fuel fuel') hr).symm.trans
      (matchLoop_mono (le_max_right fuel fuel') ht)
    obtain rfl := Option.some_inj.1 heq
    have hout := hr'.symm.trans ht'
    simp only [Prod.mk.injEq] at hout
    exact ⟨hout.2.1, hout.1⟩

/-! ### The two sides -/

def orders (b : FlatOrderBook K) (side : Side) : List (InternalOrder K) :=
  match side with
  | .Buy => b.bids
  | .Sell => b.asks

/-- The book with `own` on one side and `opp` on the other. -/
def ofSides (side : Side) (own opp : List (InternalOrder K)) : FlatOrderBook K :=
  match side with
  | .Buy => ⟨own, opp⟩
  | .Sell => ⟨opp, own⟩

def compare (side : Side) : InternalOrder K → InternalOrder K → Bool :=
  match side with
  | .Buy => compareBids
  | .Sell => compareAsks

@[simp] theorem orders_ofSides (side : Side) (own opp : List (InternalOrder K)) :
    (ofSides side own opp).orders side = own := by
  cases side <;> rfl

@[simp] theorem orders_opposite_ofSides (side : Side) (own opp : List (InternalOrder K)) :
    (ofSides side own opp).orders side.opposite = opp := by
  cases side <;> rfl

/-- The smaller order of a heap is the one at the worse price. -/
theorem compare_eq (side : Side) (x y : InternalOrder K) :
    compare side x y = better side y.price x.price := by
  cases side <;> rfl

theorem compare_strictWeak (side : Side) : StrictWeak (compare (K := K) side) where
  asymm h := by
    rw [compare_eq] at h ⊢
    exact PriceLevelOrderBook.better_asymm h
  trans hab hbc := by
    rw [compare_eq] at hab hbc ⊢
    cases side <;> simp [better] at * <;> omega

/-- The tops do not cross, or there is only one. -/
theorem matchLoop_stop {side : Side} {o : InternalOrder K} {own opp : List (InternalOrder K)}
    (h : ∀ x ∈ own.head?, ∀ y ∈ opp.head?, crosses side x.price y.price = false) (fuel : ℕ) :
    matchLoop H o (fuel + 1) (ofSides side own opp) = some (ofSides side own opp, []) := by
  cases own with
  | nil =>
    cases side with
    | Buy => rw [matchLoop, ofSides]
    | Sell =>
      cases opp with
      | nil => rw [matchLoop, ofSides]
      | cons y opp => rw [matchLoop, ofSides]
  | cons x own =>
    cases opp with
    | nil =>
      cases side with
      | Buy => rw [matchLoop, ofSides]
      | Sell => rw [matchLoop, ofSides]
    | cons y opp =>
      have hno := h x rfl y rfl
      cases side with
      | Buy =>
        rw [matchLoop, ofSides]
        exact if_pos (by simpa [crosses] using hno)
      | Sell =>
        rw [matchLoop, ofSides]
        exact if_pos (by simpa [crosses] using hno)

theorem min_qty_comm (x y : Quantity) : min x y = min y x := by
  rcases Nat.lt_trichotomy x.toNat y.toNat with h | h | h
  · rw [PriceLevelOrderBook.min_qty_of_lt h, PriceLevelOrderBook.min_qty_of_le (le_of_lt h)]
  · rw [UInt32.toNat_inj.1 h]
  · rw [PriceLevelOrderBook.min_qty_of_lt h, PriceLevelOrderBook.min_qty_of_le (le_of_lt h)]

/-- One round, when the order of the event is on top of its side and crosses. -/
theorem matchLoop_round {side : Side} {o x y : InternalOrder K} (own opp : List (InternalOrder K))
    (hcross : crosses side x.price y.price = true) (hy : o.id ≠ y.id) (fuel : ℕ) : ∃ price,
    matchLoop H o (fuel + 1) (ofSides side (x :: own) (y :: opp)) =
      (matchLoop H o fuel (ofSides side
        (popFilled H (compare side) (x.partialFill (min x.quantity y.quantity)) own)
        (popFilled H (compare side.opposite) (y.partialFill (min x.quantity y.quantity)) opp))).map
      fun r => (r.1, report o (x.partialFill (min x.quantity y.quantity))
        (min x.quantity y.quantity) price ++ r.2) := by
  have hother : ∀ q p, report o (y.partialFill q) q p = [] := fun q p => if_neg hy
  cases side with
  | Buy =>
    refine ⟨y.price, ?_⟩
    have hge : ¬ x.price < y.price := by simpa [crosses] using hcross
    rw [matchLoop, ofSides]
    simp only [if_neg hge, hother, List.append_nil]
    rfl
  | Sell =>
    refine ⟨x.price, ?_⟩
    have hge : ¬ y.price < x.price := by simpa [crosses] using hcross
    rw [matchLoop, ofSides]
    simp only [if_neg hge, min_qty_comm y.quantity, hother, List.nil_append]
    rfl

/-! ### The heaps -/

theorem partialFill_compare (side : Side) (x : InternalOrder K) (q : Quantity)
    (z : InternalOrder K) : compare side (x.partialFill q) z = compare side x z := by
  rw [compare_eq, compare_eq]
  rfl

/-- What becomes of a heap whose first order is filled. -/
theorem popFilled_spec {side : Side} {x : InternalOrder K} {rest : List (InternalOrder K)}
    (h : IsHeap (compare side) (x :: rest)) (q : Quantity) :
    IsHeap (compare side) (popFilled H (compare side) (x.partialFill q) rest) ∧
    ((x.partialFill q).quantity = 0 →
      (popFilled H (compare side) (x.partialFill q) rest).Perm rest) ∧
    ((x.partialFill q).quantity ≠ 0 →
      popFilled H (compare side) (x.partialFill q) rest = x.partialFill q :: rest) := by
  have hheap : IsHeap (compare side) (x.partialFill q :: rest) :=
    h.replace (partialFill_compare side x q)
  rw [popFilled]
  split
  · next h0 =>
    obtain ⟨l, hpop, hperm, hl⟩ := H.pop_spec (compare_strictWeak side) hheap
    rw [hpop, List.dropLast_concat]
    exact ⟨hl, fun _ => hperm, fun hne => absurd h0 hne⟩
  · next hne => exact ⟨hheap, fun h0 => absurd h0 hne, fun _ => rfl⟩

/-- Prices and quantities of orders. -/
def flatQty (l : List (InternalOrder K)) : List (ℕ × ℕ) :=
  l.map fun o => (o.price, o.quantity.toNat)

theorem flatQty_perm {l l' : List (InternalOrder K)} (h : l.Perm l') :
    depthAt (flatQty l) = depthAt (flatQty l') :=
  funext fun _ => depthAt_perm (h.map _)

theorem partialFill_quantity {x : InternalOrder K} {q : Quantity}
    (h : q.toNat ≤ x.quantity.toNat) :
    (x.partialFill q).quantity.toNat = x.quantity.toNat - q.toNat := by
  have hge : ¬ x.quantity < q := by
    rw [UInt32.lt_iff_toNat_lt]
    exact Nat.not_lt.2 h
  show (if x.quantity < q then 0 else x.quantity - q).toNat = _
  rw [if_neg hge, PriceLevelOrderBook.toNat_sub_qty h]

/-- A fill takes its quantity from the price of the first order. -/
theorem depthAt_popFilled {side : Side} {y : InternalOrder K} {rest : List (InternalOrder K)}
    (h : IsHeap (compare side) (y :: rest)) {q : Quantity} (hq : q.toNat ≤ y.quantity.toNat)
    (p : ℕ) : depthAt (flatQty (y :: rest)) p =
      depthAt (flatQty (popFilled H (compare side) (y.partialFill q) rest)) p +
        if y.price = p then q.toNat else 0 := by
  obtain ⟨-, hzero, hpos⟩ := popFilled_spec (H := H) h q
  have hqty := partialFill_quantity hq
  by_cases h0 : (y.partialFill q).quantity = 0
  · have hall : y.quantity.toNat = q.toNat := by
      rw [h0, UInt32.toNat_zero] at hqty
      omega
    rw [flatQty_perm (hzero h0), flatQty, List.map_cons, depthAt_cons, hall, Nat.add_comm]
    rfl
  · rw [hpos h0, flatQty, flatQty, List.map_cons, List.map_cons, depthAt_cons, depthAt_cons, hqty]
    show (if y.price = p then _ else 0) + _ = (if y.price = p then _ else 0) + _ + _
    split <;> omega

/-- The orders that stay keep their names and prices, and something is left in each. -/
theorem mem_popFilled {side : Side} {y : InternalOrder K} {rest : List (InternalOrder K)}
    (h : IsHeap (compare side) (y :: rest)) {q : Quantity}
    (hpos : ∀ x ∈ y :: rest, 0 < x.quantity.toNat) {x : InternalOrder K}
    (hx : x ∈ popFilled H (compare side) (y.partialFill q) rest) :
    0 < x.quantity.toNat ∧ ∃ z ∈ y :: rest, z.id = x.id ∧ z.price = x.price := by
  obtain ⟨-, hzero, hne⟩ := popFilled_spec (H := H) h q
  by_cases h0 : (y.partialFill q).quantity = 0
  · have hmem := List.mem_cons_of_mem y ((hzero h0).mem_iff.1 hx)
    exact ⟨hpos x hmem, x, hmem, rfl, rfl⟩
  · rw [hne h0] at hx
    rcases List.mem_cons.1 hx with rfl | hx
    · refine ⟨Nat.pos_of_ne_zero fun hz => h0 (UInt32.toNat_inj.1 hz), y, List.mem_cons_self,
        rfl, rfl⟩
    · have hmem := List.mem_cons_of_mem y hx
      exact ⟨hpos x hmem, x, hmem, rfl, rfl⟩

theorem length_popFilled_le {side : Side} {y : InternalOrder K} {rest : List (InternalOrder K)}
    (h : IsHeap (compare side) (y :: rest)) (q : Quantity) :
    (popFilled H (compare side) (y.partialFill q) rest).length ≤ (y :: rest).length := by
  obtain ⟨-, hzero, hne⟩ := popFilled_spec (H := H) h q
  by_cases h0 : (y.partialFill q).quantity = 0
  · rw [(hzero h0).length_eq]
    exact Nat.le_succ _
  · rw [hne h0]
    exact le_refl _

/-! ### Matching a new order -/

/-- The book while it is matched for `o`, of which `q` is left: `own₀` are the other
orders of its side, `N` bounds the prices. -/
structure Matching (N : ℕ) (side : Side) (o : InternalOrder K)
    (own₀ own opp : List (InternalOrder K)) (q : Quantity) : Prop where
  own_heap : IsHeap (compare side) own
  opp_heap : IsHeap (compare side.opposite) opp
  own_perm : own.Perm ({ o with quantity := q } :: own₀)
  opp_pos : ∀ y ∈ opp, 0 < y.quantity.toNat
  opp_below : ∀ y ∈ opp, y.price < N
  opp_id : ∀ y ∈ opp, o.id ≠ y.id
  apart : ∀ x ∈ own₀, ∀ y ∈ opp, crosses side x.price y.price = false
  pos : 0 < q.toNat

/-- What a match of `q` from `opp` leaves: the book, the statuses, and what is left of
the order. -/
structure Matched (N : ℕ) (side : Side) (o : InternalOrder K) (own₀ opp : List (InternalOrder K))
    (q : Quantity) (b : FlatOrderBook K) (statuses : List (InternalOrderStatus K))
    (rem : Quantity) : Prop where
  own_heap : IsHeap (compare side) (b.orders side)
  opp_heap : IsHeap (compare side.opposite) (b.orders side.opposite)
  own_perm : (b.orders side).Perm (if rem = 0 then own₀ else { o with quantity := rem } :: own₀)
  opp_mem : ∀ y ∈ b.orders side.opposite, 0 < y.quantity.toNat ∧
    ∃ z ∈ opp, z.id = y.id ∧ z.price = y.price
  opp_length : (b.orders side.opposite).length ≤ opp.length
  greedy : GreedyFill N side o.price q.toNat (depthAt (flatQty opp))
    (depthAt (flatQty (b.orders side.opposite))) rem.toNat
  filled : (statuses.map (·.fillQty.toNat)).sum + rem.toNat = q.toNat
  full : (∃ st ∈ statuses, st.state = .Full) ↔ rem = 0

theorem depthAt_flatQty_of_le {N : ℕ} {l : List (InternalOrder K)} (h : ∀ y ∈ l, y.price < N)
    {p : ℕ} (hp : N ≤ p) : depthAt (flatQty l) p = 0 := by
  refine depthAt_eq_zero fun a ha => ?_
  obtain ⟨y, hy, rfl⟩ := List.mem_map.1 ha
  exact Nat.ne_of_lt (Nat.lt_of_lt_of_le (h y hy) hp)

/-- No order of a heap is at a better price than the first. -/
theorem depthAt_of_better_top {side : Side} {y : InternalOrder K} {rest : List (InternalOrder K)}
    (h : IsHeap (compare side) (y :: rest)) {r : ℕ} (hr : better side r y.price = true) :
    depthAt (flatQty (y :: rest)) r = 0 := by
  refine depthAt_eq_zero fun a ha hp => ?_
  obtain ⟨z, hz, rfl⟩ := List.mem_map.1 ha
  have htop := h.top (compare_strictWeak side) hz
  change z.price = r at hp
  rw [compare_eq, hp, hr] at htop
  cases htop

namespace Matching

variable {N : ℕ} {side : Side} {o : InternalOrder K} {own₀ own opp : List (InternalOrder K)}
  {q : Quantity}

/-- A pair that crosses has the new order in it. -/
theorem own_top {x y : InternalOrder K} (h : Matching N side o own₀ (x :: own) opp q)
    (hy : y ∈ opp) (hcross : crosses side x.price y.price = true) :
    x = { o with quantity := q } ∧ own.Perm own₀ := by
  have hx : x = { o with quantity := q } := by
    rcases List.mem_cons.1 (h.own_perm.mem_iff.1 List.mem_cons_self) with hx | hx
    · exact hx
    · rw [h.apart x hx y hy] at hcross
      cases hcross
  have hperm := h.own_perm
  rw [hx] at hperm
  exact ⟨hx, hperm.cons_inv⟩

/-- The first orders do not cross, or there is none on the opposite side. -/
theorem stop (h : Matching N side o own₀ own opp q)
    (hno : ∀ x ∈ own.head?, ∀ y ∈ opp.head?, crosses side x.price y.price = false) :
    Matched N side o own₀ opp q (ofSides side own opp) [] q := by
  have hq : q ≠ 0 := fun h0 => by
    have hpos := h.pos
    rw [h0, UInt32.toNat_zero] at hpos
    exact absurd hpos (lt_irrefl 0)
  have hnone : ∀ p, crosses side o.price p = true → depthAt (flatQty opp) p = 0 := by
    intro p hp
    refine depthAt_eq_zero fun a ha hap => ?_
    obtain ⟨z, hz, rfl⟩ := List.mem_map.1 ha
    change z.price = p at hap
    obtain ⟨y, rest, rfl⟩ := List.exists_cons_of_ne_nil (List.ne_nil_of_mem hz)
    obtain ⟨x, own', rfl⟩ : ∃ x own', own = x :: own' := by
      refine List.exists_cons_of_ne_nil (List.ne_nil_of_mem (a := { o with quantity := q }) ?_)
      exact h.own_perm.mem_iff.2 List.mem_cons_self
    -- neither side has a better order than its first
    have hxy := hno x rfl y rfl
    have hxo := h.own_heap.top (compare_strictWeak side)
      (h.own_perm.mem_iff.2 (List.mem_cons_self (a := { o with quantity := q })))
    have hyz := h.opp_heap.top (compare_strictWeak side.opposite) hz
    rw [compare_eq] at hxo hyz
    have hxz := crosses_of_not_better hyz hxy
    rw [hap] at hxz
    rw [crosses_of_limit_not_better hxo hxz] at hp
    exact Bool.noConfusion hp
  exact {
    own_heap := by
      rw [orders_ofSides]
      exact h.own_heap
    opp_heap := by
      rw [orders_opposite_ofSides]
      exact h.opp_heap
    own_perm := by
      rw [orders_ofSides, if_neg hq]
      exact h.own_perm
    opp_mem := by
      rw [orders_opposite_ofSides]
      exact fun y hy => ⟨h.opp_pos y hy, y, hy, rfl, rfl⟩
    opp_length := by rw [orders_opposite_ofSides]
    greedy := by
      rw [orders_opposite_ofSides]
      exact .refl (fun _ => hnone) fun p hp => depthAt_flatQty_of_le h.opp_below hp
    filled := Nat.zero_add _
    full := by
      constructor
      · rintro ⟨st, hst, _⟩
        exact absurd hst List.not_mem_nil
      · intro h0
        exact absurd h0 hq }

/-- The first order opposite is large enough: the new order is filled and leaves. -/
theorem last {x y : InternalOrder K} (h : Matching N side o own₀ (x :: own) (y :: opp) q)
    (hcross : crosses side x.price y.price = true) (hle : q.toNat ≤ y.quantity.toNat) (price : ℕ) :
    Matched N side o own₀ (y :: opp) q
      (ofSides side (popFilled H (compare side) (x.partialFill q) own)
        (popFilled H (compare side.opposite) (y.partialFill q) opp))
      (report o (x.partialFill q) q price) 0 ∧
    ∀ a ∈ (popFilled H (compare side) (x.partialFill q) own).head?,
      ∀ b ∈ (popFilled H (compare side.opposite) (y.partialFill q) opp).head?,
        crosses side a.price b.price = false := by
  obtain ⟨hx, hperm⟩ := h.own_top List.mem_cons_self hcross
  have hxq : x.quantity = q := by rw [hx]
  -- the first order of the side is the new one, and nothing of it is left
  have hfilled : (x.partialFill q).quantity = 0 := by
    apply UInt32.toNat_inj.1
    rw [partialFill_quantity (le_of_eq (congrArg UInt32.toNat hxq.symm)), hxq, Nat.sub_self]
    rfl
  obtain ⟨hheap, hown, -⟩ := popFilled_spec (H := H) h.own_heap q
  have hown₀ := (hown hfilled).trans hperm
  have hreport : report o (x.partialFill q) q price =
      [⟨(x.partialFill q).id, default, q, price, .Full⟩] := by
    have hid : o.id = (x.partialFill q).id := by
      rw [hx]
      rfl
    rw [report, if_pos hid, if_pos hfilled]
  constructor
  · exact {
      own_heap := by
        rw [orders_ofSides]
        exact hheap
      opp_heap := by
        rw [orders_opposite_ofSides]
        exact (popFilled_spec h.opp_heap q).1
      own_perm := by
        rw [orders_ofSides, if_pos rfl]
        exact hown₀
      opp_mem := by
        rw [orders_opposite_ofSides]
        exact fun z hz => mem_popFilled h.opp_heap h.opp_pos hz
      opp_length := by
        rw [orders_opposite_ofSides]
        exact length_popFilled_le h.opp_heap q
      greedy := by
        rw [orders_opposite_ofSides]
        -- the match ends here: what is left of the new order is nothing
        have hend : GreedyFill N side o.price (q.toNat - q.toNat)
            (depthAt (flatQty (popFilled H (compare side.opposite) (y.partialFill q) opp)))
            (depthAt (flatQty (popFilled H (compare side.opposite) (y.partialFill q) opp))) 0 := by
          rw [Nat.sub_self]
          refine .refl (fun h0 => absurd h0 (lt_irrefl 0)) fun p hp => ?_
          refine depthAt_flatQty_of_le (fun z hz => ?_) hp
          obtain ⟨-, w, hw, -, hwz⟩ := mem_popFilled h.opp_heap h.opp_pos hz
          rw [← hwz]
          exact h.opp_below w hw
        have hprice : o.price = x.price := by rw [hx]
        refine .step y.price ?_ (fun r hr => depthAt_of_better_top h.opp_heap hr)
          (h.opp_below y List.mem_cons_self) (depthAt_popFilled h.opp_heap hle) (le_refl _) hend
        rw [hprice]
        exact hcross
      filled := by
        rw [hreport]
        simp
      full := by
        rw [hreport]
        simp }
  · intro a ha b hb
    have ha' := hown₀.mem_iff.1 (List.mem_of_mem_head? ha)
    obtain ⟨-, w, hw, -, hwb⟩ := mem_popFilled h.opp_heap h.opp_pos (List.mem_of_mem_head? hb)
    rw [← hwb]
    exact h.apart a ha' w hw

/-- The first order opposite is filled and leaves, and the match goes on. -/
theorem next {x y : InternalOrder K} (h : Matching N side o own₀ (x :: own) (y :: opp) q)
    (hcross : crosses side x.price y.price = true) (hlt : y.quantity.toNat < q.toNat) :
    Matching N side o own₀ (popFilled H (compare side) (x.partialFill y.quantity) own)
      (popFilled H (compare side.opposite) (y.partialFill y.quantity) opp) (q - y.quantity) ∧
    (popFilled H (compare side.opposite) (y.partialFill y.quantity) opp).length = opp.length := by
  obtain ⟨hx, hperm⟩ := h.own_top List.mem_cons_self hcross
  have hxq : x.quantity = q := by rw [hx]
  have hqty : (x.partialFill y.quantity).quantity.toNat = q.toNat - y.quantity.toNat := by
    rw [partialFill_quantity (by rw [hxq]; exact le_of_lt hlt), hxq]
  -- the new order stays first, the other one leaves
  have hleft : (x.partialFill y.quantity).quantity ≠ 0 := fun h0 => by
    rw [h0, UInt32.toNat_zero] at hqty
    omega
  have hgone : (y.partialFill y.quantity).quantity = 0 := by
    apply UInt32.toNat_inj.1
    rw [partialFill_quantity (le_refl _), Nat.sub_self]
    rfl
  have hx' : x.partialFill y.quantity = { o with quantity := q - y.quantity } := by
    have hge : ¬ q < y.quantity := by
      rw [UInt32.lt_iff_toNat_lt]
      omega
    rw [hx, InternalOrder.partialFill, if_neg hge]
  obtain ⟨hheap, -, hown⟩ := popFilled_spec (H := H) h.own_heap y.quantity
  obtain ⟨hheap', hopp, -⟩ := popFilled_spec (H := H) h.opp_heap y.quantity
  have hmem : ∀ {z}, z ∈ popFilled H (compare side.opposite) (y.partialFill y.quantity) opp →
      z ∈ y :: opp := fun hz => List.mem_cons_of_mem y ((hopp hgone).mem_iff.1 hz)
  refine ⟨⟨hheap, hheap', ?_, fun z hz => h.opp_pos z (hmem hz),
    fun z hz => h.opp_below z (hmem hz), fun z hz => h.opp_id z (hmem hz),
    fun a ha z hz => h.apart a ha z (hmem hz), ?_⟩, (hopp hgone).length_eq⟩
  · rw [hown hleft, hx']
    exact hperm.cons _
  · rw [PriceLevelOrderBook.toNat_sub_qty (le_of_lt hlt)]
    omega

end Matching

/-- One round and the rest of the match. -/
theorem Matched.cons {N : ℕ} {side : Side} {o x y : InternalOrder K}
    {own₀ own opp : List (InternalOrder K)} {q rem : Quantity} {b : FlatOrderBook K}
    {statuses : List (InternalOrderStatus K)}
    (hm : Matching N side o own₀ (x :: own) (y :: opp) q)
    (hcross : crosses side x.price y.price = true) (hlt : y.quantity.toNat < q.toNat) (price : ℕ)
    (h : Matched N side o own₀
      (popFilled H (compare side.opposite) (y.partialFill y.quantity) opp) (q - y.quantity) b
      statuses rem) :
    Matched N side o own₀ (y :: opp) q b
      (report o (x.partialFill y.quantity) y.quantity price ++ statuses) rem := by
  obtain ⟨hx, hperm⟩ := hm.own_top List.mem_cons_self hcross
  have hxq : x.quantity = q := by rw [hx]
  have hsub := PriceLevelOrderBook.toNat_sub_qty (le_of_lt hlt)
  have hleft : (x.partialFill y.quantity).quantity ≠ 0 := fun h0 => by
    have hqty := partialFill_quantity (x := x) (q := y.quantity) (by rw [hxq]; exact le_of_lt hlt)
    rw [h0, hxq, UInt32.toNat_zero] at hqty
    omega
  -- the round reports a part of the new order
  have hreport : report o (x.partialFill y.quantity) y.quantity price =
      [⟨(x.partialFill y.quantity).id, default, y.quantity, price, .Partial⟩] := by
    have hid : o.id = (x.partialFill y.quantity).id := by
      rw [hx]
      rfl
    rw [report, if_pos hid, if_neg hleft]
  exact {
    own_heap := h.own_heap
    opp_heap := h.opp_heap
    own_perm := h.own_perm
    opp_mem := fun z hz => by
      obtain ⟨hpos, w, hw, hid, hprice⟩ := h.opp_mem z hz
      obtain ⟨-, v, hv, hid', hprice'⟩ := mem_popFilled hm.opp_heap hm.opp_pos hw
      exact ⟨hpos, v, hv, hid'.trans hid, hprice'.trans hprice⟩
    opp_length := h.opp_length.trans (length_popFilled_le hm.opp_heap _)
    greedy := by
      have hgreedy := h.greedy
      rw [hsub] at hgreedy
      refine .step y.price ?_ (fun r hr => depthAt_of_better_top hm.opp_heap hr)
        (hm.opp_below y List.mem_cons_self) (depthAt_popFilled hm.opp_heap (le_refl _))
        (le_of_lt hlt) hgreedy
      rw [show o.price = x.price by rw [hx]]
      exact hcross
    filled := by
      have hfilled := h.filled
      rw [hsub] at hfilled
      simp only [hreport, List.singleton_append, List.map_cons, List.sum_cons]
      omega
    full := by
      rw [hreport, ← h.full]
      simp }

/-- The loop ends, and what it leaves is a match of the new order. -/
theorem matchLoop_spec {N : ℕ} {side : Side} {o : InternalOrder K}
    {own₀ own opp : List (InternalOrder K)} {q : Quantity} {fuel : ℕ}
    (h : Matching N side o own₀ own opp q) (hfuel : opp.length + 1 < fuel) :
    ∃ b statuses rem, matchLoop H o fuel (ofSides side own opp) = some (b, statuses) ∧
      Matched N side o own₀ opp q b statuses rem := by
  induction fuel generalizing own opp q with
  | zero => exact absurd hfuel (Nat.not_lt_zero _)
  | succ fuel ih =>
    by_cases hno : ∀ x ∈ own.head?, ∀ y ∈ opp.head?, crosses side x.price y.price = false
    · exact ⟨_, _, q, matchLoop_stop hno fuel, h.stop hno⟩
    · simp only [not_forall] at hno
      obtain ⟨x, hx, y, hy, hcross⟩ := hno
      obtain ⟨own, rfl⟩ := List.head?_eq_some_iff.1 hx
      obtain ⟨opp, rfl⟩ := List.head?_eq_some_iff.1 hy
      replace hcross : crosses side x.price y.price = true := by simpa using hcross
      obtain ⟨price, hround⟩ := matchLoop_round (H := H) own opp hcross
        (h.opp_id y List.mem_cons_self) fuel
      have hxq : x.quantity = q := by
        rw [(h.own_top List.mem_cons_self hcross).1]
      rw [hround, hxq]
      by_cases hle : q.toNat ≤ y.quantity.toNat
      · have hmin : min q y.quantity = q := by
          rw [min_qty_comm]
          exact PriceLevelOrderBook.min_qty_of_le hle
        obtain ⟨hmatched, hend⟩ := h.last (H := H) hcross hle price
        -- one more round finds that nothing crosses
        obtain ⟨fuel, rfl⟩ : ∃ n, fuel = n + 1 := ⟨fuel - 1, by omega⟩
        rw [hmin, matchLoop_stop hend fuel]
        refine ⟨_, _, 0, rfl, ?_⟩
        rw [List.append_nil]
        exact hmatched
      · have hmin : min q y.quantity = y.quantity :=
          PriceLevelOrderBook.min_qty_of_le (by omega)
        obtain ⟨hnext, hlen⟩ := h.next (H := H) hcross (by omega)
        obtain ⟨b, statuses, rem, hloop, hmatched⟩ := ih hnext (by
          rw [hlen]
          simp only [List.length_cons] at hfuel
          omega)
        rw [hmin, hloop]
        exact ⟨b, _, rem, rfl, hmatched.cons h hcross (by omega) price⟩

/-! ### One call -/

/-- The book between two calls; `ids` are the orders that came so far. -/
structure Ordered (N : ℕ) (b : FlatOrderBook K) (ids : List (SystemOrderId K)) : Prop where
  heap : ∀ side, IsHeap (compare side) (b.orders side)
  apart : ∀ side, ∀ x ∈ b.orders side, ∀ y ∈ b.orders side.opposite,
    crosses side x.price y.price = false
  pos : ∀ side, ∀ x ∈ b.orders side, 0 < x.quantity.toNat
  below : ∀ side, ∀ x ∈ b.orders side, x.price < N
  known : ∀ side, ∀ x ∈ b.orders side, x.id ∈ ids
  length : ∀ side, (b.orders side).length ≤ ids.length

theorem Ordered.empty (N : ℕ) : Ordered N (empty : FlatOrderBook K) [] where
  heap side := by
    cases side <;> exact IsHeap.nil
  apart side x hx := by
    cases side <;> exact absurd hx List.not_mem_nil
  pos side x hx := by
    cases side <;> exact absurd hx List.not_mem_nil
  below side x hx := by
    cases side <;> exact absurd hx List.not_mem_nil
  known side x hx := by
    cases side <;> exact absurd hx List.not_mem_nil
  length side := by
    cases side <;> exact le_refl _

theorem crosses_opposite (side : Side) (p r : ℕ) :
    crosses side.opposite p r = crosses side r p := by
  cases side <;> rfl

/-- What holds for one side and the opposite one holds for both. -/
theorem forall_side {P : Side → Prop} (side : Side) (h : P side) (h' : P side.opposite) :
    ∀ s, P s := by
  intro s
  cases side <;> cases s <;> assumption

/-- A match leaves the book in order. -/
theorem Matched.ordered {N : ℕ} {side : Side} {o : InternalOrder K} {own₀ : List (InternalOrder K)}
    {b b' : FlatOrderBook K} {ids : List (SystemOrderId K)}
    {statuses : List (InternalOrderStatus K)} {rem : Quantity} (hb : Ordered N b ids)
    (hown₀ : own₀ = b.orders side) (hprice : o.price < N)
    (h : Matched N side o own₀ (b.orders side.opposite) o.quantity b' statuses rem) :
    Ordered N b' (ids ++ [o.id]) := by
  subst hown₀
  -- the side of the new order gains the order itself at most
  have hown : ∀ x ∈ b'.orders side,
      x ∈ b.orders side ∨ 0 < rem.toNat ∧ x = { o with quantity := rem } := by
    intro x hx
    have hx' := h.own_perm.mem_iff.1 hx
    split at hx'
    · exact .inl hx'
    · next hrem =>
      rcases List.mem_cons.1 hx' with rfl | hx'
      · exact .inr ⟨Nat.pos_of_ne_zero fun h0 => hrem (UInt32.toNat_inj.1 h0), rfl⟩
      · exact .inl hx'
  have hapart : ∀ x ∈ b'.orders side, ∀ y ∈ b'.orders side.opposite,
      crosses side x.price y.price = false := by
    intro x hx y hy
    obtain ⟨hpos, z, hz, -, hzy⟩ := h.opp_mem y hy
    rcases hown x hx with hx | ⟨hrem, rfl⟩
    · rw [← hzy]
      exact hb.apart side x hx z hz
    · -- a match that stops short has left nothing to cross
      by_contra hcross
      have h0 := h.greedy.stops hrem y.price (by simpa using hcross)
      exact ne_of_depthAt_eq_zero h0 (List.mem_map_of_mem hy) hpos rfl
  refine ⟨forall_side side h.own_heap h.opp_heap, forall_side side hapart ?_,
    forall_side side ?_ fun y hy => (h.opp_mem y hy).1, forall_side side ?_ ?_,
    forall_side side ?_ ?_, forall_side side ?_ ?_⟩
  · intro y hy x hx
    rw [crosses_opposite]
    cases side <;> exact hapart x hx y hy
  · intro x hx
    rcases hown x hx with hx | ⟨hrem, rfl⟩
    · exact hb.pos side x hx
    · exact hrem
  · intro x hx
    rcases hown x hx with hx | ⟨-, rfl⟩
    · exact hb.below side x hx
    · exact hprice
  · intro y hy
    obtain ⟨-, z, hz, -, hzy⟩ := h.opp_mem y hy
    rw [← hzy]
    exact hb.below _ z hz
  · intro x hx
    rcases hown x hx with hx | ⟨-, rfl⟩
    · exact List.mem_append_left _ (hb.known side x hx)
    · exact List.mem_append_right _ (List.mem_singleton_self _)
  · intro y hy
    obtain ⟨-, z, hz, hid, -⟩ := h.opp_mem y hy
    rw [← hid]
    exact List.mem_append_left _ (hb.known _ z hz)
  · have hlen := hb.length side
    rw [h.own_perm.length_eq, List.length_append, List.length_singleton]
    split
    · omega
    · simp only [List.length_cons]
      omega
  · rw [List.length_append]
    exact (h.opp_length.trans (hb.length _)).trans (Nat.le_add_right _ _)

/-- The order of the event on its side of the book. -/
theorem add_eq (b : FlatOrderBook K) (ioe : InternalOrderEvent K) (fuel : ℕ)
    (hcount : (b.orders (PriceLevelOrderBook.getSide ioe.action)).length < K.maxBookOrders.val) :
    add H fuel b ioe =
      (matchLoop H ioe.order fuel (ofSides (PriceLevelOrderBook.getSide ioe.action)
        (H.pushHeap (compare (PriceLevelOrderBook.getSide ioe.action))
          (b.orders (PriceLevelOrderBook.getSide ioe.action) ++ [ioe.order]))
        (b.orders (PriceLevelOrderBook.getSide ioe.action).opposite))).map
      fun r => (r.1, r.2, true) := by
  by_cases hbuy : ioe.action = .Buy
  · have hside : PriceLevelOrderBook.getSide ioe.action = .Buy := if_pos hbuy
    rw [hside] at hcount ⊢
    rw [add]
    simp only [if_pos hbuy]
    exact if_neg (Nat.not_le.2 hcount)
  · have hside : PriceLevelOrderBook.getSide ioe.action = .Sell := if_neg hbuy
    rw [hside] at hcount ⊢
    rw [add]
    simp only [if_neg hbuy]
    exact if_neg (Nat.not_le.2 hcount)

/-- A call for a new order returns, leaves the book in order, and is a match of the
order with the opposite side. -/
theorem add_spec {N : ℕ} {b : FlatOrderBook K} {ids : List (SystemOrderId K)}
    {ioe : InternalOrderEvent K} (hb : Ordered N b ids) (hnew : ioe.order.id ∉ ids)
    (hpos : 0 < ioe.order.quantity.toNat) (hprice : ioe.order.price < N)
    (hcount : ids.length < K.maxBookOrders.val) :
    ∃ b' statuses rem, Adds H b ioe statuses b' ∧ Ordered N b' (ids ++ [ioe.order.id]) ∧
      Matched N (PriceLevelOrderBook.getSide ioe.action) ioe.order
        (b.orders (PriceLevelOrderBook.getSide ioe.action))
        (b.orders (PriceLevelOrderBook.getSide ioe.action).opposite) ioe.order.quantity b'
        statuses rem := by
  generalize hside : PriceLevelOrderBook.getSide ioe.action = side
  have hheap := hb.heap side
  have hsw := compare_strictWeak (K := K) side
  have hmatching : Matching N side ioe.order (b.orders side)
      (H.pushHeap (compare side) (b.orders side ++ [ioe.order])) (b.orders side.opposite)
      ioe.order.quantity :=
    { own_heap := H.push_isHeap hsw hheap
      opp_heap := hb.heap _
      own_perm := (H.push_perm hsw hheap).trans (List.perm_append_singleton _ _)
      opp_pos := hb.pos _
      opp_below := hb.below _
      opp_id := fun y hy heq => hnew (heq ▸ hb.known _ y hy)
      apart := hb.apart side
      pos := hpos }
  obtain ⟨b', statuses, rem, hloop, hmatched⟩ :=
    matchLoop_spec (H := H) hmatching (Nat.lt_succ_self _)
  refine ⟨b', statuses, rem, ⟨(b.orders side.opposite).length + 2, true, ?_⟩,
    hmatched.ordered hb rfl hprice, hmatched⟩
  have hlen := hb.length side
  rw [add_eq b ioe _ (by rw [hside]; omega), hside, hloop]
  rfl

end FlatOrderBook
