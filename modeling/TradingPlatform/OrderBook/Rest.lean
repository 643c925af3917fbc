/-
Orders coming to rest.

`linkNode` puts a node that does not rest behind the tail of its level
(`linkNode_rep`): the list of its side is the old one with the order enqueued.
Whether there is such a node is a matter of counting: resting orders and free
stack share the indices handed out so far (`Rep.count_add_freeTop`), so
`acquireId` fails exactly when `MAX_BOOK_ORDERS - 1` orders rest
(`Rep.acquire_isValid_iff`).
-/
import TradingPlatform.OrderBook.Listing
import Mathlib.Algebra.Order.BigOperators.Group.List

namespace PriceLevelOrderBook

variable {K : Constants} {b : PriceLevelOrderBook K} {q : Side → ℕ → List ℕ}

/-! ### Counting -/

/-- The indices on the free stack. -/
def freeIndices (b : PriceLevelOrderBook K) : List ℕ :=
  (List.range b.freeTop).map fun k => (b.freeStack k).index

/-- The indices of the resting nodes, side by side and level by level. -/
def resting (K : Constants) (q : Side → ℕ → List ℕ) : List ℕ :=
  (prices K .Buy).flatMap (q .Buy) ++ (prices K .Sell).flatMap (q .Sell)

namespace Rep

theorem mem_resting (h : Rep b q) {i : ℕ} : i ∈ resting K q ↔ ∃ s p, i ∈ q s p := by
  rw [resting, List.mem_append, List.mem_flatMap, List.mem_flatMap]
  constructor
  · rintro (⟨p, _, hi⟩ | ⟨p, _, hi⟩)
    · exact ⟨_, p, hi⟩
    · exact ⟨_, p, hi⟩
  · rintro ⟨s, p, hi⟩
    have hp : p ∈ prices K s := mem_prices.mpr (h.price_lt hi)
    cases s with
    | Buy => exact .inl ⟨p, hp, hi⟩
    | Sell => exact .inr ⟨p, hp, hi⟩

theorem resting_nodup (h : Rep b q) : (resting K q).Nodup := by
  have hside : ∀ s, ((prices K s).flatMap (q s)).Nodup := by
    intro s
    rw [List.nodup_flatMap]
    refine ⟨fun p _ => (h.queues.chain s p).nodup, (prices_pairwise K s).imp ?_⟩
    intro p r hpr i hi hi'
    have heq := (h.queues.unique hi hi').2
    rw [heq, better_irrefl] at hpr
    exact Bool.noConfusion hpr
  refine List.nodup_append.mpr ⟨hside .Buy, hside .Sell, ?_⟩
  rintro i hi j hj rfl
  obtain ⟨p, _, hi⟩ := List.mem_flatMap.mp hi
  obtain ⟨r, _, hj⟩ := List.mem_flatMap.mp hj
  exact Side.noConfusion (h.queues.unique hi hj).1

theorem freeIndices_nodup (h : Rep b q) : b.freeIndices.Nodup := by
  refine List.Nodup.map_on ?_ List.nodup_range
  intro k hk l hl heq
  exact h.slots.inj k (List.mem_range.mp hk) l (List.mem_range.mp hl) heq

/-- Resting nodes and free stack are, without repetition, the indices handed
out so far. -/
theorem partition (h : Rep b q) :
    (resting K q ++ b.freeIndices).Perm (List.range' 1 (b.nextAvailableIdx - 1)) := by
  have hnext := h.slots.next_pos
  have hnd : (resting K q ++ b.freeIndices).Nodup := by
    refine List.nodup_append.mpr ⟨h.resting_nodup, h.freeIndices_nodup, ?_⟩
    rintro i hi j hj rfl
    obtain ⟨k, hk, rfl⟩ := List.mem_map.mp hj
    exact h.slots.free k (List.mem_range.mp hk) (h.mem_resting.mp hi)
  refine (List.perm_ext_iff_of_nodup hnd List.nodup_range').mpr ?_
  intro i
  have hcover := h.slots.cover i
  rw [List.mem_append, h.mem_resting, List.mem_range'_1, freeIndices, List.mem_map]
  simp only [List.mem_range]
  rw [← hcover]
  omega

theorem count_eq (h : Rep b q) : b.orders.count = (resting K q).length := by
  rw [h.orders_eq, PriceTimeBook.count, resting, List.length_append, listing, listing,
    List.length_flatMap, List.length_flatMap, List.length_flatMap, List.length_flatMap]
  simp only [List.length_map]

theorem count_add_freeTop (h : Rep b q) :
    b.orders.count + b.freeTop = b.nextAvailableIdx - 1 := by
  have hlen := h.partition.length_eq
  rw [List.length_append, ← h.count_eq, freeIndices, List.length_map, List.length_range,
    List.length_range'] at hlen
  exact hlen

theorem count_lt (h : Rep b q) : b.orders.count < K.maxBookOrders.val := by
  have hsum := h.count_add_freeTop
  have h1 := h.slots.next_pos
  have h2 := h.slots.next_le
  omega

/-- There is a node for another order as long as fewer than
`MAX_BOOK_ORDERS - 1` orders rest. -/
theorem acquire_isValid_iff (h : Rep b q) :
    b.acquireId.1.isValid = true ↔ b.orders.count < K.maxBookOrders.val - 1 := by
  have hsum := h.count_add_freeTop
  have h1 := h.slots.next_pos
  have h2 := h.slots.next_le
  rw [acquireId]
  split
  · next htop =>
    rw [h.slots.valid _ (by omega)]
    simp only [true_iff]
    omega
  · next htop =>
    split
    · next hfull =>
      rw [SlotId.isValid_default]
      simp only [Bool.false_eq_true, false_iff]
      omega
    · next hroom =>
      rw [SlotId.isValid_make_one (Slots.index_fits (by omega))]
      simp only [true_iff]
      omega

/-- The volume of a level has room for another order in 64 bits. -/
theorem volume_add_lt (h : Rep b q) (s : Side) (p : ℕ) (qty : Quantity) :
    (b.level s p).volume.toNat + qty.toNat < 2 ^ 64 := by
  have hlen := h.length_lt s p
  have hcap := K.maxBookOrders.le_two_pow
  have hqty := qty.toNat_lt
  have hsum : ((q s p).map fun i => (b.nodePool i).qty.toNat).sum ≤ (q s p).length * 2 ^ 32 := by
    have hle := List.sum_le_card_nsmul ((q s p).map fun i => (b.nodePool i).qty.toNat) (2 ^ 32) ?_
    · simpa using hle
    · intro x hx
      obtain ⟨i, _, rfl⟩ := List.mem_map.mp hx
      exact (b.nodePool i).qty.toNat_lt.le
  have hbound : (q s p).length * 2 ^ 32 ≤ 2 ^ 31 * 2 ^ 32 := Nat.mul_le_mul_right _ (by omega)
  rw [h.queues.volume s p]
  omega

end Rep

/-! ### Linking a node -/

section

variable (o : InternalOrder K) (side : Side) (qty : Quantity) (id : BookOrderId K)

theorem linkNode_nodePool_self (htail : (b.level side o.price).tail ≠ id.index) :
    (b.linkNode o side qty id).nodePool id.index =
      ⟨0, (b.level side o.price).tail, o.price, qty, id, o.id, side⟩ := by
  simp only [linkNode]
  split
  · simp [Function.update_of_ne htail.symm]
  · simp

theorem linkNode_nodePool {j : ℕ} (hj : j ≠ id.index) :
    (b.linkNode o side qty id).nodePool j =
      if (b.level side o.price).tail ≠ 0 ∧ j = (b.level side o.price).tail then
        { b.nodePool j with next := id.index }
      else b.nodePool j := by
  simp only [linkNode]
  by_cases ht : (b.level side o.price).tail = 0
  · simp [ht, Function.update_of_ne hj]
  · by_cases hjt : j = (b.level side o.price).tail
    · subst hjt
      simp [ht, Function.update_of_ne hj]
    · simp [ht, hjt, Function.update_of_ne hj]

theorem linkNode_level (s : Side) (p : ℕ) :
    (b.linkNode o side qty id).level s p =
      if s = side ∧ p = o.price then
        ⟨(b.level side o.price).volume + qty.toUInt64,
          if (b.level side o.price).tail = 0 then id.index else (b.level side o.price).head,
          id.index⟩
      else b.level s p := by
  simp only [linkNode]
  by_cases hsp : s = side ∧ p = o.price
  · obtain ⟨rfl, rfl⟩ := hsp
    by_cases ht : (b.level s o.price).tail = 0
    · simp [ht]
    · simp [ht]
  · by_cases ht : (b.level side o.price).tail = 0
    · simp [ht, level_setLevel, hsp]
    · simp [ht, level_setLevel, hsp]

theorem linkNode_order {j : ℕ} (hj : j ≠ id.index) :
    (b.linkNode o side qty id).order j = b.order j := by
  rw [order, linkNode_nodePool o side qty id hj]
  split
  · rfl
  · rfl

end

/-- A node linked behind the tail of its level. -/
theorem linkNode_queues (h : Queues b q) {o : InternalOrder K} {side : Side} {qty : Quantity}
    {id : BookOrderId K} (h0 : id.index ≠ 0) (hfree : ∀ s p, id.index ∉ q s p)
    (hqty : 0 < qty.toNat)
    (hvol : (b.level side o.price).volume.toNat + qty.toNat < 2 ^ 64) :
    Queues (b.linkNode o side qty id) (setQueue q side o.price (q side o.price ++ [id.index])) ∧
      (b.linkNode o side qty id).order id.index = ⟨id, o.id, o.price, qty.toNat⟩ := by
  -- the tail of the level rests, or there is none, so it is not the new node
  have htail : (b.level side o.price).tail ≠ id.index := by
    intro hc
    by_cases hq : q side o.price = []
    · exact h0 (hc ▸ (h.chain _ _).tail_eq_zero_iff.mpr hq)
    · exact hfree side o.price (hc ▸ (h.chain side o.price).tail_mem hq)
  have hnew := linkNode_nodePool_self o side qty id htail
  have hold := fun j hj => linkNode_nodePool (b := b) o side qty id (j := j) hj
  have hlevel := linkNode_level (b := b) o side qty id
  refine ⟨h.append h0 hfree ?_ ?_ ?_ ?_ ?_ ?_ ?_ ?_ ?_ ?_, ?_⟩
  · rw [hnew]
  · rw [hnew]
    exact hqty
  · rw [hnew]
  · intro j hj
    rw [Queues.SameOrder, hold j hj]
    split <;> simp
  · intro j hj hj0
    rw [next, hold j hj]
    by_cases hjt : j = (b.level side o.price).tail
    · rw [if_pos ⟨hjt ▸ hj0, hjt⟩, if_pos hjt]
    · rw [if_neg fun hc => hjt hc.2, if_neg hjt, next]
  · intro j hj _
    rw [prev, hold j hj]
    split <;> rfl
  · intro s p hsp
    rw [hlevel, if_neg hsp]
  · rw [hlevel, if_pos ⟨rfl, rfl⟩]
  · rw [hlevel, if_pos ⟨rfl, rfl⟩]
  · -- `hvol` keeps the sum below the wrap of the 64 bit volume
    rw [hlevel, if_pos ⟨rfl, rfl⟩, hnew]
    simp only [UInt64.toNat_add, UInt32.toNat_toUInt64]
    exact Nat.mod_eq_of_lt hvol
  · rw [order, hnew]

theorem linkNode_occupancy (hq : Queues b q) (h : Occupancy b fun s p => q s p ≠ [])
    {o : InternalOrder K} {side : Side} {qty : Quantity} {id : BookOrderId K}
    (hp : o.price < K.maxTicks) :
    Occupancy (b.linkNode o side qty id)
      fun s p => setQueue q side o.price (q side o.price ++ [id.index]) s p ≠ [] := by
  have hxs : q side o.price ++ [id.index] ≠ [] := by simp
  simp only [linkNode]
  by_cases ht : (b.level side o.price).tail = 0
  · rw [if_neg (by simpa using ht)]
    set c := (b.setNode id.index ⟨0, (b.level side o.price).tail, o.price, qty, id, o.id,
      side⟩).setLevel side o.price { b.level side o.price with head := id.index }
    have hc : Occupancy c fun s p => q s p ≠ [] := h.congr (by simp [c]) (by simp [c]) (by simp [c])
    exact ((hc.activate hp).congr (by simp) (by simp) (by simp)).iff_congr
      fun s p => occupied_setQueue_of_ne_nil hxs s p
  · rw [if_pos ht]
    have hne : q side o.price ≠ [] := fun he => ht ((hq.chain _ _).tail_eq_zero_iff.mpr he)
    exact (h.congr (by simp) (by simp) (by simp)).iff_congr
      fun s p => occupied_setQueue_same hne hxs s p

theorem linkNode_recycling (o : InternalOrder K) (side : Side) (qty : Quantity)
    (id : BookOrderId K) :
    (b.linkNode o side qty id).freeStack = b.freeStack ∧
      (b.linkNode o side qty id).freeTop = b.freeTop ∧
      (b.linkNode o side qty id).nextAvailableIdx = b.nextAvailableIdx := by
  simp only [linkNode]
  split <;> simp

/-- The list of a side after an order has come to rest on it. -/
theorem listing_linkNode (h : Rep b q) {b' : PriceLevelOrderBook K} (side : Side) {price i : ℕ}
    (hp : price < K.maxTicks) (hfree : ∀ s p, i ∉ q s p) (hprice : (b'.order i).price = price)
    (horder : ∀ j ≠ i, b'.order j = b.order j) :
    b'.listing (setQueue q side price (q side price ++ [i])) side =
        enqueue side (b'.order i) (b.listing q side) ∧
      b'.listing (setQueue q side price (q side price ++ [i])) side.opposite =
        b.listing q side.opposite := by
  have hmap : ∀ s p, (q s p).map b'.order = (q s p).map b.order := by
    intro s p
    refine List.map_congr_left fun j hj => horder j ?_
    rintro rfl
    exact hfree s p hj
  constructor
  · -- behind the orders of its price, before those of every worse price
    obtain ⟨A, B, hlist, hA, hB, _, hlist'⟩ := listing_at h.queues side hp
    rw [hlist, hlist' (fun r hr => ?_), setQueue_self, List.map_append, hmap, List.map_singleton]
    · refine (enqueue_at ?_ ?_ ?_).symm
      · rw [hprice]
        exact hA
      · intro x hx
        obtain ⟨j, hj, rfl⟩ := List.mem_map.mp hx
        rw [hprice]
        exact h.queues.price side price j hj
      · rw [hprice]
        exact hB
    · rw [setQueue_of_ne _ fun hc => hr hc.2, hmap]
  · refine listing_congr fun r => ?_
    rw [setQueue_of_ne _ fun hc => Side.ne_opposite side hc.1.symm, hmap]

/-- Taking a node off the free stack leaves the queues and the levels alone. -/
theorem Rep.acquireId_frame (h : Rep b q) :
    Queues b.acquireId.2 q ∧ (Occupancy b.acquireId.2 fun s p => q s p ≠ []) ∧
      (∀ s p, b.acquireId.2.level s p = b.level s p) ∧ ∀ j, b.acquireId.2.order j = b.order j := by
  obtain ⟨hn, hl, _, hask, hbid⟩ := b.acquireId_frame .Buy
  have hlevel : ∀ s p, b.acquireId.2.level s p = b.level s p := fun s p => level_congr s p hl
  refine ⟨h.queues.congr hn hlevel, ?_, hlevel, ?_⟩
  · exact h.occupancy.congr (fun s => (b.acquireId_frame s).2.2.1) hask hbid
  · intro j
    rw [order, order, hn]

/-- `restOrder`: either the order is enqueued under a name no resting order
has, or every node is in use and nothing happens. -/
theorem restOrder_spec (h : Rep b q) {o : InternalOrder K} (side : Side) {qty : Quantity}
    (hp : o.price < K.maxTicks) (hqty : 0 < qty.toNat) :
    (∃ q' id, Rep (b.restOrder o side qty).1 q' ∧ b.orders.count < K.maxBookOrders.val - 1 ∧
      id.isValid = true ∧ (∀ s p, id.index ∉ q s p) ∧ id.index ∈ q' side o.price ∧
      (b.restOrder o side qty).2 = [.status ⟨o.id, id, o.quantity - qty, o.price,
        if o.quantity - qty = 0 then .Accepted else .Partial⟩] ∧
      (b.restOrder o side qty).1.listing q' side =
        enqueue side ⟨id, o.id, o.price, qty.toNat⟩ (b.listing q side) ∧
      (b.restOrder o side qty).1.listing q' side.opposite = b.listing q side.opposite) ∨
    (b.orders.count = K.maxBookOrders.val - 1 ∧
      b.restOrder o side qty = (b, [.error ⟨.Error, "OrderBook is full"⟩])) := by
  have hcount := h.count_lt
  have hvalid := h.acquire_isValid_iff
  rw [restOrder]
  rcases h.slots.acquire with ⟨hv, hfree, hpos, _, hslots⟩ | ⟨hfail, _⟩
  · left
    obtain ⟨hq', hocc, hlevel, horder⟩ := h.acquireId_frame
    have hfree' : ∀ s p, b.acquireId.1.index ∉ q s p := fun s p hc => hfree ⟨s, p, hc⟩
    have hvol : (b.acquireId.2.level side o.price).volume.toNat + qty.toNat < 2 ^ 64 := by
      rw [hlevel]
      exact h.volume_add_lt side o.price qty
    obtain ⟨hqueues, hnew⟩ := linkNode_queues hq' (by omega) hfree' hqty hvol
    obtain ⟨hr1, hr2, hr3⟩ := linkNode_recycling (b := b.acquireId.2) o side qty b.acquireId.1
    have horder' : ∀ j ≠ b.acquireId.1.index,
        (b.acquireId.2.linkNode o side qty b.acquireId.1).order j = b.order j := by
      intro j hj
      rw [linkNode_order o side qty _ hj, horder]
    have hprice : ((b.acquireId.2.linkNode o side qty b.acquireId.1).order
        b.acquireId.1.index).price = o.price := by
      rw [hnew]
    obtain ⟨hown, hopp⟩ := listing_linkNode h side hp hfree' hprice horder'
    rw [hnew] at hown
    -- the node taken off the free stack is the one that is linked
    simp only [hv, if_true]
    refine ⟨_, b.acquireId.1, ⟨hqueues, linkNode_occupancy hq' hocc hp, ?_⟩, hvalid.mp hv, hv,
      hfree', ?_, rfl, hown, hopp⟩
    · exact (hslots.congr hr1 hr2 hr3).iff_congr fun j => mem_setQueue_append side o.price _ j
    · rw [setQueue_self]
      exact List.mem_append_right _ List.mem_cons_self
  · right
    have hno : b.acquireId.1.isValid = false := by
      rw [hfail]
      exact SlotId.isValid_default
    have hfull : ¬b.orders.count < K.maxBookOrders.val - 1 := by
      rw [← hvalid, hno]
      decide
    refine ⟨by omega, ?_⟩
    simp only [hfail, SlotId.isValid_default, Bool.false_eq_true, if_false]

end PriceLevelOrderBook
