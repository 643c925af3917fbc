/-
Cancels of resting orders.

`unlinkNode` takes a node out of the middle of its level's list:
`unlinkNode_nodePool` and `unlinkNode_level` say what it writes,
`unlinkNode_queues` and `unlinkNode_occupancy` what becomes of the invariant.
On the lists of the two sides a cancel is a filter (`cancelOrder_spec`).
-/
import TradingPlatform.OrderBook.Listing

namespace PriceLevelOrderBook

variable {K : Constants} {b : PriceLevelOrderBook K} {q : Side → ℕ → List ℕ}

/-! ### Fields -/

theorem relinkPrev_nodePool (b : PriceLevelOrderBook K) (node : Node K) (j : ℕ) :
    (b.relinkPrev node).nodePool j =
      if node.prev ≠ 0 ∧ j = node.prev then { b.nodePool j with next := node.next }
      else b.nodePool j := by
  rw [relinkPrev]
  by_cases hp : node.prev = 0
  · simp [hp]
  · by_cases hj : j = node.prev
    · simp [hp, hj]
    · simp [hp, hj]

theorem relinkNext_nodePool (b : PriceLevelOrderBook K) (node : Node K) (j : ℕ) :
    (b.relinkNext node).nodePool j =
      if node.next ≠ 0 ∧ j = node.next then { b.nodePool j with prev := node.prev }
      else b.nodePool j := by
  rw [relinkNext]
  by_cases hn : node.next = 0
  · simp [hn]
  · by_cases hj : j = node.next
    · simp [hn, hj]
    · simp [hn, hj]

theorem relink_level (b : PriceLevelOrderBook K) (node : Node K) (s : Side) (p : ℕ) :
    ((b.relinkPrev node).relinkNext node).level s p =
      if s = node.side ∧ p = node.price then
        ⟨(b.level s p).volume, if node.prev = 0 then node.next else (b.level s p).head,
          if node.next = 0 then node.prev else (b.level s p).tail⟩
      else b.level s p := by
  rw [relinkNext, relinkPrev]
  by_cases hsp : s = node.side ∧ p = node.price
  · obtain ⟨rfl, rfl⟩ := hsp
    by_cases hp : node.prev = 0 <;> by_cases hn : node.next = 0 <;> simp [hp, hn]
  · by_cases hp : node.prev = 0 <;> by_cases hn : node.next = 0 <;>
      simp [hp, hn, level_setLevel, hsp]

/-- Relinking the neighbours writes nodes and one level only. -/
theorem relink_frame (b : PriceLevelOrderBook K) (node : Node K) (s : Side) :
    ((b.relinkPrev node).relinkNext node).mask s = b.mask s ∧
    ((b.relinkPrev node).relinkNext node).minAsk = b.minAsk ∧
    ((b.relinkPrev node).relinkNext node).maxBid = b.maxBid ∧
    ((b.relinkPrev node).relinkNext node).freeStack = b.freeStack ∧
    ((b.relinkPrev node).relinkNext node).freeTop = b.freeTop ∧
    ((b.relinkPrev node).relinkNext node).nextAvailableIdx = b.nextAvailableIdx := by
  rw [relinkNext, relinkPrev]
  by_cases hp : node.prev = 0 <;> by_cases hn : node.next = 0 <;> simp [hp, hn]

/-- Unlinking writes at most one link of each neighbour. -/
theorem unlinkNode_nodePool (b : PriceLevelOrderBook K) (node : Node K) (j : ℕ) :
    (b.unlinkNode node).nodePool j =
      { b.nodePool j with
        next := if node.prev ≠ 0 ∧ j = node.prev then node.next else b.next j
        prev := if node.next ≠ 0 ∧ j = node.next then node.prev else b.prev j } := by
  have hpool : (b.unlinkNode node).nodePool j =
      ((b.relinkPrev node).relinkNext node).nodePool j := by
    simp only [unlinkNode]
    split <;> simp
  rw [hpool, relinkNext_nodePool, relinkPrev_nodePool]
  split <;> split <;> rfl

/-- Unlinking writes one level. -/
theorem unlinkNode_level (b : PriceLevelOrderBook K) (node : Node K) (s : Side) (p : ℕ) :
    (b.unlinkNode node).level s p =
      if s = node.side ∧ p = node.price then
        ⟨(b.level s p).volume - node.qty.toUInt64,
          if node.prev = 0 then node.next else (b.level s p).head,
          if node.next = 0 then node.prev else (b.level s p).tail⟩
      else b.level s p := by
  have hlevel : (b.unlinkNode node).level s p =
      if s = node.side ∧ p = node.price then
        { ((b.relinkPrev node).relinkNext node).level s p with
          volume := (((b.relinkPrev node).relinkNext node).level s p).volume - node.qty.toUInt64 }
      else ((b.relinkPrev node).relinkNext node).level s p := by
    simp only [unlinkNode]
    by_cases hsp : s = node.side ∧ p = node.price
    · obtain ⟨rfl, rfl⟩ := hsp
      split <;> simp
    · split <;> simp [level_setLevel, hsp]
  rw [hlevel, relink_level]
  split <;> rfl

theorem unlinkNode_recycling (b : PriceLevelOrderBook K) (node : Node K) :
    (b.unlinkNode node).freeStack = b.freeStack ∧ (b.unlinkNode node).freeTop = b.freeTop ∧
      (b.unlinkNode node).nextAvailableIdx = b.nextAvailableIdx := by
  obtain ⟨_, _, _, h1, h2, h3⟩ := relink_frame b node .Buy
  simp only [unlinkNode]
  split <;> simp [h1, h2, h3]

/-! ### The invariant -/

variable {s : Side} {p i : ℕ} {ys zs : List ℕ}

theorem unlinkNode_queues (h : Queues b q) (hq : q s p = ys ++ i :: zs) :
    Queues (b.unlinkNode (b.nodePool i)) (setQueue q s p (ys ++ zs)) := by
  have hi : i ∈ q s p := hq ▸ List.mem_append_cons_self
  have hside := h.side s p i hi
  have hprice := h.price s p i hi
  refine h.remove hq ?_ ?_ ?_ ?_ ?_ ?_ ?_
  · intro j _
    rw [Queues.SameOrder, unlinkNode_nodePool]
    exact ⟨⟨rfl, rfl, rfl, rfl⟩, rfl⟩
  · intro j _ hj
    rw [next, unlinkNode_nodePool]
    by_cases hjp : j = b.prev i
    · have h0 : (b.nodePool i).prev ≠ 0 := fun hc => hj (hjp.trans hc)
      rw [if_pos hjp]
      exact if_pos ⟨h0, hjp⟩
    · rw [if_neg hjp]
      exact if_neg fun hc => hjp hc.2
  · intro j _ hj
    rw [prev, unlinkNode_nodePool]
    by_cases hjn : j = b.next i
    · have h0 : (b.nodePool i).next ≠ 0 := fun hc => hj (hjn.trans hc)
      rw [if_pos hjn]
      exact if_pos ⟨h0, hjn⟩
    · rw [if_neg hjn]
      exact if_neg fun hc => hjn hc.2
  · intro s' p' hsp
    rw [unlinkNode_level, hside, hprice, if_neg hsp]
  · rw [unlinkNode_level, hside, hprice, if_pos ⟨rfl, rfl⟩]
    rfl
  · rw [unlinkNode_level, hside, hprice, if_pos ⟨rfl, rfl⟩]
    rfl
  · rw [unlinkNode_level, hside, hprice, if_pos ⟨rfl, rfl⟩]

/-- The volume that is left tells whether the level is empty now. -/
theorem unlinkNode_occupancy (h : Rep b q) (hq : q s p = ys ++ i :: zs) :
    Occupancy (b.unlinkNode (b.nodePool i)) fun s' p' => setQueue q s p (ys ++ zs) s' p' ≠ [] := by
  have hi : i ∈ q s p := hq ▸ List.mem_append_cons_self
  have hside := h.queues.side s p i hi
  have hprice := h.queues.price s p i hi
  have hqueues := unlinkNode_queues h.queues hq
  have hempty := hqueues.volume_eq_zero_iff s p
  rw [setQueue_self, unlinkNode_level, hside, hprice, if_pos ⟨rfl, rfl⟩] at hempty
  -- the links of the level have changed by now, but not its volume
  have hlvl : (((b.relinkPrev (b.nodePool i)).relinkNext (b.nodePool i)).level s p).volume =
      (b.level s p).volume := by
    rw [relink_level, hside, hprice, if_pos ⟨rfl, rfl⟩]
  have hframe := relink_frame b (b.nodePool i)
  set c := (b.relinkPrev (b.nodePool i)).relinkNext (b.nodePool i) with hc
  have hunfold : b.unlinkNode (b.nodePool i) =
      if (b.level s p).volume - (b.nodePool i).qty.toUInt64 = 0 then
        (c.setLevel s p { c.level s p with
          volume := (c.level s p).volume - (b.nodePool i).qty.toUInt64 }).updateOccupancy s p false
      else c.setLevel s p { c.level s p with
        volume := (c.level s p).volume - (b.nodePool i).qty.toUInt64 } := by
    simp only [unlinkNode, hside, hprice, ← hc, hlvl]
  have hocc : Occupancy (c.setLevel s p { c.level s p with
      volume := (c.level s p).volume - (b.nodePool i).qty.toUInt64 })
      fun s' p' => q s' p' ≠ [] := by
    refine h.occupancy.congr (fun s' => ?_) ?_ ?_
    · rw [mask_setLevel, (hframe s').1]
    · rw [minAsk_setLevel, (hframe s).2.1]
    · rw [maxBid_setLevel, (hframe s).2.2.1]
  rw [hunfold]
  by_cases hz : (b.level s p).volume - (b.nodePool i).qty.toUInt64 = 0
  · -- the node was alone on its level
    rw [if_pos hz, hempty.mp hz]
    refine (hocc.deactivate ?_).iff_congr fun s' p' => occupied_setQueue_nil s' p'
    rw [level_setLevel_self, hlvl]
    exact hz
  · rw [if_neg hz]
    exact hocc.iff_congr fun s' p' =>
      occupied_setQueue_same (List.ne_nil_of_mem hi) (fun hnil => hz (hempty.mpr hnil)) s' p'

/-- Taking out the order named `id` and giving its node back. -/
theorem unlink_release_rep (h : Rep b q) (hq : q s p = ys ++ i :: zs) :
    Rep ((b.unlinkNode (b.nodePool i)).releaseId (b.nodePool i).localId)
      (setQueue q s p (ys ++ zs)) := by
  obtain ⟨h1, h2, h3⟩ := unlinkNode_recycling b (b.nodePool i)
  refine ⟨?_, ?_, h.slots_release hq h1 h2 h3⟩
  · refine (unlinkNode_queues h.queues hq).congr (nodePool_releaseId _ _) fun s' p' => ?_
    exact level_releaseId _ _ _ _
  · refine (unlinkNode_occupancy h hq).congr (fun s' => ?_) (minAsk_releaseId _ _)
      (maxBid_releaseId _ _)
    exact mask_releaseId _ _ _

/-! ### On lists -/

/-- Resting orders have different names: the index in the name is their node. -/
theorem Queues.eq_of_bookOId (h : Queues b q) {s' : Side} {p' j : ℕ} (hi : i ∈ q s p)
    (hj : j ∈ q s' p') (heq : (b.order j).bookOId = (b.order i).bookOId) : j = i := by
  have hid := congrArg SlotId.index heq
  rw [show (b.order j).bookOId.index = j from h.localId s' p' j hj,
    show (b.order i).bookOId.index = i from h.localId s p i hi] at hid
  exact hid

/-- The lists after the order in node `i` left its queue. -/
theorem listing_remove {b' : PriceLevelOrderBook K} (h : Queues b q) (hq : q s p = ys ++ i :: zs)
    (horder : ∀ j ≠ i, b'.order j = b.order j) (s' : Side) :
    b'.listing (setQueue q s p (ys ++ zs)) s' =
      (b.listing q s').filter fun x => x.bookOId ≠ (b.order i).bookOId := by
  have hi : i ∈ q s p := hq ▸ List.mem_append_cons_self
  -- a queue without node `i` passes the filter unchanged
  have hkeep : ∀ l : List ℕ, (∀ j ∈ l, j ≠ i ∧ ∃ s' p', j ∈ q s' p') →
      (l.map b.order).filter (fun x => x.bookOId ≠ (b.order i).bookOId) = l.map b'.order := by
    intro l hl
    rw [List.filter_eq_self.mpr]
    · exact List.map_congr_left fun j hj => (horder j (hl j hj).1).symm
    · intro x hx
      obtain ⟨j, hj, rfl⟩ := List.mem_map.mp hx
      obtain ⟨hne, s', p', hj'⟩ := hl j hj
      rw [decide_eq_true_eq]
      exact fun heq => hne (h.eq_of_bookOId hi hj' heq)
  rw [listing, listing, List.filter_flatMap]
  refine List.flatMap_congr fun r _ => ?_
  by_cases hsp : s' = s ∧ r = p
  · obtain ⟨rfl, rfl⟩ := hsp
    have hnd := (h.chain s' r).nodup
    rw [hq] at hnd
    have hnd := List.nodup_cons.mp (List.nodup_middle.mp hnd)
    have hmem : ∀ j ∈ ys ++ zs, j ≠ i ∧ ∃ s' p', j ∈ q s' p' := by
      intro j hj
      refine ⟨fun hc => hnd.1 (hc ▸ hj), s', r, ?_⟩
      rw [hq]
      rcases List.mem_append.mp hj with hj | hj
      · exact List.mem_append_left _ hj
      · exact List.mem_append_right _ (List.mem_cons_of_mem i hj)
    rw [setQueue_self, hq, List.map_append, List.map_append, List.map_cons, List.filter_append,
      List.filter_cons_of_neg (by simp),
      hkeep ys fun j hj => hmem j (List.mem_append_left _ hj),
      hkeep zs fun j hj => hmem j (List.mem_append_right _ hj)]
  · rw [setQueue_of_ne _ hsp]
    refine (hkeep _ fun j hj => ⟨?_, s', r, hj⟩).symm
    rintro rfl
    exact hsp (h.unique hj hi)

theorem Rep.holds_iff (h : Rep b q) {id : BookOrderId K} :
    b.orders.Holds id ↔
      (∃ s p, id.index ∈ q s p) ∧ (b.nodePool id.index).localId = id := by
  rw [h.orders_eq, PriceTimeBook.Holds]
  simp only [List.mem_append, mem_listing]
  constructor
  · rintro ⟨x, (⟨p, _, i, hi, rfl⟩ | ⟨p, _, i, hi, rfl⟩), rfl⟩
    · have hindex : (b.order i).bookOId.index = i := h.queues.localId _ p i hi
      exact ⟨⟨_, p, by rw [hindex]; exact hi⟩, by rw [hindex]; rfl⟩
    · have hindex : (b.order i).bookOId.index = i := h.queues.localId _ p i hi
      exact ⟨⟨_, p, by rw [hindex]; exact hi⟩, by rw [hindex]; rfl⟩
  · rintro ⟨⟨s, p, hi⟩, hid⟩
    refine ⟨b.order id.index, ?_, hid⟩
    cases s with
    | Buy => exact .inl ⟨p, h.price_lt hi, _, hi, rfl⟩
    | Sell => exact .inr ⟨p, h.price_lt hi, _, hi, rfl⟩

/-- **Cancelling a resting order** removes it from the lists, and nothing else. -/
theorem cancelOrder_spec (h : Rep b q) {o : InternalOrder K} (hh : b.orders.Holds o.bookOId) :
    ∃ q', Rep (b.cancelOrder o).1 q' ∧
      (b.cancelOrder o).2 = [.status ⟨o.id, o.bookOId, 0, 0, .Cancelled⟩] ∧
      (b.cancelOrder o).1.orders = b.orders.remove o.bookOId := by
  obtain ⟨⟨s, p, hi⟩, hid⟩ := h.holds_iff.mp hh
  obtain ⟨ys, zs, hq⟩ := List.append_of_mem hi
  have hrep := unlink_release_rep h hq
  have horder : ∀ j ≠ o.bookOId.index,
      ((b.unlinkNode (b.nodePool o.bookOId.index)).releaseId
        (b.nodePool o.bookOId.index).localId).order j = b.order j := by
    intro j _
    rw [order, nodePool_releaseId, unlinkNode_nodePool]
    rfl
  have hlist := listing_remove h.queues hq horder
  have hname : (b.order o.bookOId.index).bookOId = o.bookOId := hid
  rw [hname] at hlist
  rw [cancelOrder, if_neg (by simpa using hid)]
  refine ⟨_, hrep, rfl, ?_⟩
  rw [hrep.orders_eq, hlist, hlist, h.orders_eq]
  rfl

end PriceLevelOrderBook
