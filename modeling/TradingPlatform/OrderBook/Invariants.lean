/-
What holds in every state of an admissible run.

* `admissible_consistent` — lists, nodes, volumes, masks, best prices and the
  free stack agree;
* `admissible_fill_report` — every new order is answered by one status that
  reports exactly what the call did to the book, or refused without effect;
* `admissible_uncrossed` — bids stay below asks.

The last two are properties of the abstract book, where they are facts about
`consume` and `enqueue`.
-/
import TradingPlatform.OrderBook.Refinement

variable {K : Constants}

/-! ### Quantities and prices of the abstract book -/

/-- The quantity in a list of resting orders. -/
def restingQty (l : List (RestingOrder K)) : ℕ := (l.map (·.qty)).sum

theorem restingQty_enqueue (side : Side) (o : RestingOrder K) (l : List (RestingOrder K)) :
    restingQty (enqueue side o l) = restingQty l + o.qty := by
  have hcut := List.takeWhile_append_dropWhile (p := fun x => !better side o.price x.price) (l := l)
  rw [enqueue, restingQty, restingQty]
  nth_rewrite 3 [← hcut]
  simp only [List.map_append, List.map_cons, List.sum_append, List.sum_cons]
  omega

namespace PriceTimeBook

/-- The quantity resting on both sides. -/
def qty (a : PriceTimeBook K) : ℕ := restingQty a.bids + restingQty a.asks

theorem qty_eq (a : PriceTimeBook K) (side : Side) :
    a.qty = restingQty (a.orders side) + restingQty (a.orders side.opposite) := by
  cases side with
  | Buy => rfl
  | Sell => exact Nat.add_comm _ _

theorem count_eq (a : PriceTimeBook K) (side : Side) :
    a.count = (a.orders side).length + (a.orders side.opposite).length := by
  cases side with
  | Buy => rfl
  | Sell => exact Nat.add_comm _ _

/-- Every bid is below every ask. -/
def Uncrossed (a : PriceTimeBook K) : Prop :=
  ∀ x ∈ a.bids, ∀ y ∈ a.asks, x.price < y.price

theorem uncrossed_iff (a : PriceTimeBook K) (side : Side) :
    a.Uncrossed ↔ ∀ x ∈ a.orders side, ∀ y ∈ a.orders side.opposite,
      crosses side x.price y.price = false := by
  cases side with
  | Buy => simp [Uncrossed, orders, Side.opposite, crosses]
  | Sell =>
    simp only [Uncrossed, orders, Side.opposite, crosses, decide_eq_false_iff_not, not_le]
    exact ⟨fun h x hx y hy => h y hy x hx, fun h x hx y hy => h y hy x hx⟩

@[simp] theorem orders_setOrders_self (a : PriceTimeBook K) (side : Side)
    (l : List (RestingOrder K)) : (a.setOrders side l).orders side = l := by
  cases side <;> rfl

@[simp] theorem orders_setOrders_opposite (a : PriceTimeBook K) (side : Side)
    (l : List (RestingOrder K)) :
    (a.setOrders side l).orders side.opposite = a.orders side.opposite := by
  cases side <;> rfl

@[simp] theorem orders_opposite_setOrders (a : PriceTimeBook K) (side : Side)
    (l : List (RestingOrder K)) :
    (a.setOrders side.opposite l).orders side = a.orders side := by
  cases side <;> rfl

theorem mem_enqueue {side : Side} {o x : RestingOrder K} {l : List (RestingOrder K)}
    (h : x ∈ enqueue side o l) : x = o ∨ x ∈ l := by
  rw [enqueue, List.mem_append, List.mem_cons] at h
  rcases h with h | rfl | h
  · exact .inr ((List.takeWhile_sublist _).mem h)
  · exact .inl rfl
  · exact .inr ((List.dropWhile_sublist _).mem h)

/-- A new order leaves the book uncrossed. -/
theorem place_uncrossed {a : PriceTimeBook K} {o : InternalOrder K} {side : Side}
    {newId : BookOrderId K} (hs : PriceSorted side.opposite (a.orders side.opposite))
    (hu : a.Uncrossed) : (a.place o side newId).1.Uncrossed := by
  rw [uncrossed_iff _ side] at hu ⊢
  -- what survives of the opposite side has the prices it had
  have hopp : ∀ y ∈ (consume side o.price o.quantity.toNat (a.orders side.opposite)).1,
      ∃ z ∈ a.orders side.opposite, z.price = y.price := by
    intro y hy
    obtain ⟨z, hz, _, _, hp⟩ := mem_consume hy
    exact ⟨z, hz, hp⟩
  have hold : ∀ x ∈ a.orders side,
      ∀ y ∈ (consume side o.price o.quantity.toNat (a.orders side.opposite)).1,
        crosses side x.price y.price = false := by
    intro x hx y hy
    obtain ⟨z, hz, hp⟩ := hopp y hy
    rw [← hp]
    exact hu x hx z hz
  rw [place]
  split
  · simpa using hold
  · next hrem =>
    split
    · simpa using hold
    · simp only [orders_setOrders_self, orders_setOrders_opposite, orders_opposite_setOrders]
      intro x hx y hy
      rcases mem_enqueue hx with rfl | hx
      · exact consume_stops hs hrem y hy
      · exact hold x hx y hy

theorem add_uncrossed {a : PriceTimeBook K} (ioe : InternalOrderEvent K) (newId : BookOrderId K)
    (hs : ∀ side, PriceSorted side (a.orders side)) (hu : a.Uncrossed) :
    (a.add ioe newId).1.Uncrossed := by
  rw [add]
  split
  · split
    · intro x hx y hy
      exact hu x (List.mem_filter.mp hx).1 y (List.mem_filter.mp hy).1
    · exact hu
  · split
    · exact hu
    · exact place_uncrossed (hs _) hu

end PriceTimeBook

namespace PriceLevelOrderBook

variable {b b' : PriceLevelOrderBook K} {q : Side → ℕ → List ℕ}
  {es : List (InternalOrderEvent K × List (BookMessage K))}

/-! ### The book is never crossed -/

theorem Rep.sorted (h : Rep b q) (side : Side) : PriceSorted side (b.orders.orders side) := by
  rw [h.orders_side]
  exact listing_sorted h.queues side

theorem admissible_orders_uncrossed (h : (admissibleRuns K).Run es b) : b.orders.Uncrossed := by
  have hinv : (∃ q, Rep b q) ∧ b.orders.Uncrossed := by
    refine Machine.Run.invariant (I := fun b => (∃ q, Rep b q) ∧ b.orders.Uncrossed) ?_ ?_ h
    · rintro s rfl
      refine ⟨⟨_, Rep.fresh⟩, ?_⟩
      rw [fresh_orders]
      exact fun x hx => absurd hx List.not_mem_nil
    · rintro s e s' ⟨⟨q, hq⟩, hu⟩ hs
      obtain ⟨q', hrep, id, _, hadd, _⟩ := admissible_step hq hs
      refine ⟨⟨q', hrep⟩, ?_⟩
      have hu' := PriceTimeBook.add_uncrossed e.1 id hq.sorted hu
      rw [hadd] at hu'
      exact hu'
  exact hinv.2

/-- **The book is never crossed**: neither its lists nor its levels. -/
theorem admissible_uncrossed (h : (admissibleRuns K).Run es b) :
    (∀ x ∈ b.orders.bids, ∀ y ∈ b.orders.asks, x.price < y.price) ∧
      ∀ p r, (b.level .Buy p).head ≠ 0 → (b.level .Sell r).head ≠ 0 → p < r := by
  have hu := admissible_orders_uncrossed h
  refine ⟨hu, fun p r hp hr => ?_⟩
  obtain ⟨q, hq⟩ := admissible_rep h
  obtain ⟨i, hi⟩ := List.exists_mem_of_ne_nil _ ((hq.head_ne_zero_iff _ _).mp hp)
  obtain ⟨j, hj⟩ := List.exists_mem_of_ne_nil _ ((hq.head_ne_zero_iff _ _).mp hr)
  have hx : b.order i ∈ b.orders.orders .Buy := by
    rw [hq.orders_side]
    exact mem_listing.mpr ⟨p, hq.price_lt hi, i, hi, rfl⟩
  have hy : b.order j ∈ b.orders.orders .Sell := by
    rw [hq.orders_side]
    exact mem_listing.mpr ⟨r, hq.price_lt hj, j, hj, rfl⟩
  have hlt := hu _ hx _ hy
  rw [show (b.order i).price = p from hq.queues.price _ _ i hi,
    show (b.order j).price = r from hq.queues.price _ _ j hj] at hlt
  exact hlt

theorem admissible_uncrossed_tradeAndCancel :
    ∃ b, (admissibleRuns .cicd).Run tradeAndCancel b ∧
      (∀ x ∈ b.orders.bids, ∀ y ∈ b.orders.asks, x.price < y.price) ∧
      ∀ p r, (b.level .Buy p).head ≠ 0 → (b.level .Sell r).head ≠ 0 → p < r := by
  obtain ⟨b, hb⟩ := tradeAndCancel_run
  exact ⟨b, hb, admissible_uncrossed hb⟩

/-! ### Representation -/

/-- The structures of the book agree.  `b.queue side price` are the nodes met
from the head of a level by following `next`. -/
structure Consistent (b : PriceLevelOrderBook K) : Prop where
  chain : ∀ s p, Chain b.next b.prev (b.level s p).head (b.level s p).tail (b.queue s p)
  head_tail : ∀ s p, (b.level s p).head = 0 ↔ (b.level s p).tail = 0
  inverse : ∀ s p, ∀ i ∈ b.queue s p, ∀ j ∈ b.queue s p, b.next i = j ↔ b.prev j = i
  node : ∀ s p, ∀ i ∈ b.queue s p, (b.nodePool i).price = p ∧ (b.nodePool i).side = s ∧
    0 < (b.nodePool i).qty ∧ (b.nodePool i).localId.index = i
  volume : ∀ s p, (b.level s p).volume.toNat =
    ((b.queue s p).map fun i => (b.nodePool i).qty.toNat).sum
  mask : ∀ s p, WordMask.test (b.mask s) p = true ↔ (b.level s p).head ≠ 0
  minAsk_le : ∀ p, (b.level .Sell p).head ≠ 0 → b.minAsk ≤ p
  minAsk_eq : (b.level .Sell b.minAsk).head ≠ 0 ∨
    b.minAsk = K.maxTicks ∧ ∀ p, (b.level .Sell p).head = 0
  le_maxBid : ∀ p, (b.level .Buy p).head ≠ 0 → p ≤ b.maxBid
  maxBid_eq : (b.level .Buy b.maxBid).head ≠ 0 ∨
    b.maxBid = 0 ∧ ∀ p, (b.level .Buy p).head = 0
  one_chain : ∀ s p s' p' i, i ∈ b.queue s p → i ∈ b.queue s' p' → s = s' ∧ p = p'
  partition : (resting K b.queue ++ b.freeIndices).Perm (List.range' 1 (b.nextAvailableIdx - 1))
  acquire : b.acquireId.1.isValid = false ↔
    (resting K b.queue).length = K.maxBookOrders.val - 1
  stack : b.freeTop < K.maxBookOrders.val

theorem Queues.next_eq_iff (h : Queues b q) {s : Side} {p i j : ℕ} (hi : i ∈ q s p)
    (hj : j ∈ q s p) : b.next i = j ↔ b.prev j = i := by
  have hl := (h.chain s p).linked
  constructor
  · rintro rfl
    rcases hl.prev_next hi with ⟨h0, _⟩ | ⟨_, hp⟩
    · exact absurd h0 (h.ne_zero hj)
    · exact hp
  · rintro rfl
    rcases hl.next_prev hj with ⟨h0, _⟩ | ⟨_, hn⟩
    · exact absurd h0 (h.ne_zero hi)
    · exact hn

theorem Rep.consistent (h : Rep b q) : Consistent b := by
  have hhead := h.head_ne_zero_iff
  have hq := h.queue_eq
  refine ⟨?_, ?_, ?_, ?_, ?_, ?_, ?_, ?_, ?_, ?_, ?_, ?_, ?_, ?_⟩
  · rw [hq]
    exact h.queues.chain
  · intro s p
    rw [(h.queues.chain s p).head_eq_zero_iff, (h.queues.chain s p).tail_eq_zero_iff]
  · rw [hq]
    exact fun s p i hi j hj => h.queues.next_eq_iff hi hj
  · rw [hq]
    intro s p i hi
    exact ⟨h.queues.price s p i hi, h.queues.side s p i hi,
      UInt32.lt_iff_toNat_lt.mpr (h.queues.qty s p i hi), h.queues.localId s p i hi⟩
  · rw [hq]
    exact h.queues.volume
  · intro s p
    rw [hhead]
    exact h.occupancy.bit s p
  · intro p hp
    exact h.occupancy.minAsk_le p ((hhead _ _).mp hp)
  · by_cases hm : (b.level .Sell b.minAsk).head = 0
    · -- the cached ask is not a level, so there is none
      right
      have hno := h.occupancy.no_ask (fun hc => (hhead _ _).mpr hc hm)
      refine ⟨h.occupancy.minAsk_mem.resolve_left (hno _), fun p => ?_⟩
      by_contra hp
      exact hno p ((hhead _ _).mp hp)
    · exact .inl hm
  · intro p hp
    exact h.occupancy.le_maxBid p ((hhead _ _).mp hp)
  · by_cases hm : (b.level .Buy b.maxBid).head = 0
    · right
      have hno := h.occupancy.no_bid (fun hc => (hhead _ _).mpr hc hm)
      refine ⟨h.occupancy.maxBid_mem.resolve_left (hno _), fun p => ?_⟩
      by_contra hp
      exact hno p ((hhead _ _).mp hp)
    · exact .inl hm
  · rw [hq]
    exact fun s p s' p' i hi hi' => h.queues.unique hi hi'
  · rw [hq]
    exact h.partition
  · have hcount := h.count_lt
    rw [hq, ← h.count_eq, ← Bool.not_eq_true, h.acquire_isValid_iff]
    omega
  · have h1 := h.slots.freeTop_lt
    have h2 := h.slots.next_le
    omega

/-- **The representation invariant** holds in every state of an admissible run. -/
theorem admissible_consistent (h : (admissibleRuns K).Run es b) : Consistent b := by
  obtain ⟨q, hq⟩ := admissible_rep h
  exact hq.consistent

theorem admissible_consistent_tradeAndCancel :
    ∃ b, (admissibleRuns .cicd).Run tradeAndCancel b ∧ Consistent b := by
  obtain ⟨b, hb⟩ := tradeAndCancel_run
  exact ⟨b, hb, admissible_consistent hb⟩

/-! ### Fill reports -/

/-- The status `st` reports what the call that led from `b` to `b'` did for
the order `o`. -/
structure FillReport (b b' : PriceLevelOrderBook K) (o : InternalOrder K) (side : Side)
    (st : InternalOrderStatus K) : Prop where
  id : st.id = o.id
  le : st.fillQty.toNat ≤ o.quantity.toNat
  filled : restingQty (b'.orders.orders side.opposite) + st.fillQty.toNat =
    restingQty (b.orders.orders side.opposite)
  rested : b'.orders.orders side =
    if o.quantity.toNat - st.fillQty.toNat = 0 then b.orders.orders side
    else enqueue side ⟨st.bookOId, o.id, o.price, o.quantity.toNat - st.fillQty.toNat⟩
      (b.orders.orders side)
  balance : b'.orders.qty + st.fillQty.toNat =
    b.orders.qty + (o.quantity.toNat - st.fillQty.toNat)
  full : st.state = .Full ↔ o.quantity.toNat - st.fillQty.toNat = 0
  accepted : st.state = .Accepted ↔
    st.fillQty = 0 ∧ o.quantity.toNat - st.fillQty.toNat ≠ 0
  part : st.state = .Partial ↔
    st.fillQty ≠ 0 ∧ o.quantity.toNat - st.fillQty.toNat ≠ 0

/-- The order `o` was refused: the book is full, nothing in it crosses the
order, and nothing has changed. -/
structure Refused (b b' : PriceLevelOrderBook K) (o : InternalOrder K) (side : Side) : Prop where
  unchanged : b' = b
  full : b.orders.count = K.maxBookOrders.val - 1
  no_match : ∀ x ∈ b.orders.orders side.opposite, crosses side o.price x.price = false

/-- A status that leaves the opposite side as consumed and reports it. -/
theorem Filled.report {o : InternalOrder K} {side : Side} {rem : Quantity}
    {b₁ : PriceLevelOrderBook K} {q₁ : Side → ℕ → List ℕ} (h : Rep b q)
    (hf : Filled side o.price b q o.quantity b₁ q₁ rem)
    (hcons : consume side o.price o.quantity.toNat (b.listing q side.opposite) =
      (b₁.listing q₁ side.opposite, rem.toNat))
    {id : BookOrderId K} (hopp : b'.orders.orders side.opposite = b₁.orders.orders side.opposite)
    (hown : b'.orders.orders side = if rem.toNat = 0 then b.orders.orders side
      else enqueue side ⟨id, o.id, o.price, rem.toNat⟩ (b.orders.orders side)) :
    FillReport b b' o side ⟨o.id, id, o.quantity - rem, o.price,
      if rem = 0 then .Full else if o.quantity - rem = 0 then .Accepted else .Partial⟩ := by
  have hle := hf.le
  have hfill : (o.quantity - rem).toNat = o.quantity.toNat - rem.toNat := toNat_sub_qty hle
  have hrem : o.quantity.toNat - (o.quantity - rem).toNat = rem.toNat := by omega
  have hzero : rem = 0 ↔ rem.toNat = 0 := by rw [← UInt32.toNat_inj, UInt32.toNat_zero]
  have hfilled : restingQty (b'.orders.orders side.opposite) + (o.quantity - rem).toNat =
      restingQty (b.orders.orders side.opposite) := by
    have hsum := consume_sum side o.price (b.listing q side.opposite) o.quantity.toNat
    rw [hcons] at hsum
    rw [hopp, hf.rep.orders_side, h.orders_side, hfill]
    exact hsum
  have hrested : restingQty (b'.orders.orders side) =
      restingQty (b.orders.orders side) + rem.toNat := by
    rw [hown]
    split
    · omega
    · rw [restingQty_enqueue]
  refine ⟨rfl, by simp only; omega, hfilled, ?_, ?_, ?_, ?_, ?_⟩
  · simp only [hrem]
    exact hown
  · rw [PriceTimeBook.qty_eq _ side, PriceTimeBook.qty_eq _ side, hrested]
    simp only [hrem]
    omega
  -- the three states, by what is left and what was filled
  all_goals
    simp only [hrem, ← hzero, ne_eq]
    by_cases h0 : rem = 0
    · simp [h0]
    · by_cases h1 : o.quantity - rem = 0
      · simp [h0, h1]
      · simp [h0, h1]

/-- A book that is full after a match was full before it, and did not match. -/
theorem Filled.refused {o : InternalOrder K} {side : Side} {rem : Quantity}
    {b₁ : PriceLevelOrderBook K} {q₁ : Side → ℕ → List ℕ} (h : Rep b q)
    (hf : Filled side o.price b q o.quantity b₁ q₁ rem)
    (hcons : consume side o.price o.quantity.toNat (b.listing q side.opposite) =
      (b₁.listing q₁ side.opposite, rem.toNat))
    (hrem : 0 < rem.toNat) (hfull : b₁.orders.count = K.maxBookOrders.val - 1) :
    Refused b b₁ o side := by
  have hpos : ∀ x ∈ b.listing q side.opposite, 0 < x.qty := by
    intro x hx
    obtain ⟨p, _, i, hi, rfl⟩ := mem_listing.mp hx
    exact h.queues.qty _ _ i hi
  have hcount := h.count_lt
  have hkeep : rem = o.quantity := by
    rcases @consume_progress K side o.price _ o.quantity.toNat hpos with heq | ⟨_, hlen⟩
    · rw [hcons] at heq
      exact UInt32.toNat_inj.mp (congrArg Prod.snd heq)
    · -- an order has gone, so the book was fuller than it can be
      rw [hcons] at hlen
      have hlt := hlen (by simp only; omega)
      rw [PriceTimeBook.count_eq _ side, hf.rep.orders_side, hf.rep.orders_side, hf.own] at hfull
      rw [PriceTimeBook.count_eq _ side, h.orders_side, h.orders_side] at hcount
      simp only at hlt
      omega
  have hb : b₁ = b := hf.idle hkeep
  refine ⟨hb, hb ▸ hfull, fun x hx => ?_⟩
  have hstop := @consume_stops K side o.price _ o.quantity.toNat (listing_sorted h.queues _)
    (by rw [hcons]; simp only; omega)
  rw [hcons, ← hf.rep.orders_side, hb] at hstop
  exact hstop x hx

/-- A new order with a price on the book is answered by exactly one status,
which reports what the call did, or it is refused. -/
theorem Rep.fill_report (hq : Rep b q) {ioe : InternalOrderEvent K}
    (hnc : ioe.action ≠ .Cancel) (hp : ioe.order.price < K.maxTicks) :
    ∃ msgs b', Adds b ioe msgs b' ∧
      ((∃ st, msgs = [.status st] ∧ FillReport b b' ioe.order (getSide ioe.action) st) ∨
        (∃ err, msgs = [.error err]) ∧ 0 < ioe.order.quantity.toNat ∧
          Refused b b' ioe.order (getSide ioe.action)) := by
  obtain ⟨b₁, q₁, rem, hfill, hcons, hcase⟩ := add_new_spec hq hnc hp (Nat.lt_succ_self _)
  rcases hcase with ⟨hrem, hadd⟩ | ⟨hrem, hadd⟩
  · -- nothing is left: the status is Full, and the own side is as it was
    refine ⟨_, b₁, ⟨_, _, hadd⟩, .inl ⟨_, rfl, ?_⟩⟩
    have hown : b₁.orders.orders (getSide ioe.action) = if rem.toNat = 0 then
        b.orders.orders (getSide ioe.action) else enqueue (getSide ioe.action)
          ⟨default, ioe.order.id, ioe.order.price, rem.toNat⟩
          (b.orders.orders (getSide ioe.action)) := by
      rw [hrem, UInt32.toNat_zero, if_pos rfl, hq.orders_side, hfill.rep.orders_side]
      exact hfill.own
    have hreport := hfill.report hq hcons rfl hown
    rw [hrem, UInt32.sub_zero, if_pos rfl] at hreport
    exact hreport
  · have hne : rem ≠ 0 := by
      rintro rfl
      exact absurd hrem (lt_irrefl 0)
    rcases restOrder_spec hfill.rep (getSide ioe.action) hp hrem with
      ⟨q', id, hrep, _, _, _, _, hmsg, hown, hopp⟩ | ⟨hcount, hrest⟩
    · refine ⟨_, _, ⟨_, _, hadd⟩, .inl ⟨_, hmsg, ?_⟩⟩
      have hown' : (b₁.restOrder ioe.order (getSide ioe.action) rem).1.orders.orders
          (getSide ioe.action) = if rem.toNat = 0 then b.orders.orders (getSide ioe.action)
          else enqueue (getSide ioe.action) ⟨id, ioe.order.id, ioe.order.price, rem.toNat⟩
            (b.orders.orders (getSide ioe.action)) := by
        rw [if_neg (by omega), hrep.orders_side, hown, hfill.own, hq.orders_side]
      have hopp' : (b₁.restOrder ioe.order (getSide ioe.action) rem).1.orders.orders
          (getSide ioe.action).opposite = b₁.orders.orders (getSide ioe.action).opposite := by
        rw [hrep.orders_side, hopp, hfill.rep.orders_side]
      have hreport := hfill.report hq hcons hopp' hown'
      rw [if_neg hne] at hreport
      exact hreport
    · -- no node for the rest of the order
      rw [hrest] at hadd
      exact ⟨_, b₁, ⟨_, _, hadd⟩, .inr ⟨⟨_, rfl⟩, lt_of_lt_of_le hrem hfill.le,
        hfill.refused hq hcons hrem hcount⟩⟩

/-- **Exact fill reporting.**  In every state of an admissible run a new order
with a price on the book is answered by exactly one status, which reports what
the call did, or it is refused because every node is in use, and then it did
nothing. -/
theorem admissible_fill_report (h : (admissibleRuns K).Run es b) {ioe : InternalOrderEvent K}
    (hact : ioe.action = .Buy ∨ ioe.action = .Sell) (hp : ioe.order.price < K.maxTicks) :
    ∃ msgs b', Adds b ioe msgs b' ∧
      ((∃ st, msgs = [.status st] ∧ FillReport b b' ioe.order (getSide ioe.action) st) ∨
        (∃ err, msgs = [.error err]) ∧ Refused b b' ioe.order (getSide ioe.action)) := by
  obtain ⟨q, hq⟩ := admissible_rep h
  have hnc : ioe.action ≠ .Cancel := by
    rcases hact with ha | ha <;> rw [ha] <;> decide
  obtain ⟨msgs, b', hadds, hreport | ⟨herr, _, hrefused⟩⟩ := hq.fill_report hnc hp
  · exact ⟨msgs, b', hadds, .inl hreport⟩
  · exact ⟨msgs, b', hadds, .inr ⟨herr, hrefused⟩⟩

theorem admissible_fill_report_tradeAndCancel :
    ∃ b, (admissibleRuns .cicd).Run tradeAndCancel b ∧
      ∃ msgs b', Adds b ⟨⟨⟨4⟩, ⟨0⟩, 9, 20⟩, (65, 65, 80, 76), .Buy⟩ msgs b' ∧
        ((∃ st, msgs = [.status st] ∧ FillReport b b' ⟨⟨4⟩, ⟨0⟩, 9, 20⟩ .Buy st) ∨
          (∃ err, msgs = [.error err]) ∧ Refused b b' ⟨⟨4⟩, ⟨0⟩, 9, 20⟩ .Buy) := by
  obtain ⟨b, hb⟩ := tradeAndCancel_run
  exact ⟨b, hb, admissible_fill_report hb (.inl rfl) (by decide)⟩

end PriceLevelOrderBook
