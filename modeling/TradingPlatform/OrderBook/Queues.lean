/-
The queues of the price levels, and the representation invariant.

`Queues b q` ties the linked lists, the node contents and the volumes of `b` to
an assignment `q` of a queue of node indices to every side and price; `Rep b q`
adds the masks, the best prices and the free stack.  A single queue changes in
three ways, each described by what it does to the fields:

* `Queues.remove` — a node leaves its queue (a full fill or a cancel);
* `Queues.append` — a node joins the end of a queue (an order comes to rest);
* `Queues.reduce` — a node loses quantity and keeps its place.

`PriceLevelOrderBook.orders` reads a book as the two lists of a `PriceTimeBook`,
walking the levels from the best price on.
-/
import TradingPlatform.OrderBook.Occupancy
import TradingPlatform.OrderBook.Slots
import TradingPlatform.Lib.Chain

namespace PriceLevelOrderBook

variable {K : Constants}

def next (b : PriceLevelOrderBook K) (i : ℕ) : ℕ := (b.nodePool i).next

def prev (b : PriceLevelOrderBook K) (i : ℕ) : ℕ := (b.nodePool i).prev

/-! ### Reading a book -/

/-- The order in node `i`. -/
def order (b : PriceLevelOrderBook K) (i : ℕ) : RestingOrder K :=
  ⟨(b.nodePool i).localId, (b.nodePool i).systemId, (b.nodePool i).price,
    (b.nodePool i).qty.toNat⟩

/-- The prices of a side, best first. -/
def prices (K : Constants) (side : Side) : List ℕ :=
  match side with
  | .Buy => (List.range K.maxTicks).reverse
  | .Sell => List.range K.maxTicks

/-- The nodes of a level, walked from its head. -/
def queue (b : PriceLevelOrderBook K) (side : Side) (price : ℕ) : List ℕ :=
  walk b.next K.maxBookOrders.val (b.level side price).head

/-- The orders in the queues `q` of a side, best price first. -/
def listing (b : PriceLevelOrderBook K) (q : Side → ℕ → List ℕ) (side : Side) :
    List (RestingOrder K) :=
  (prices K side).flatMap fun p => (q side p).map b.order

/-- The book read as a pair of lists in price-time order. -/
def orders (b : PriceLevelOrderBook K) : PriceTimeBook K :=
  ⟨b.listing b.queue .Buy, b.listing b.queue .Sell⟩

/-! ### The invariant -/

/-- The linked lists, the nodes on them and the volumes are those of the queues `q`. -/
structure Queues (b : PriceLevelOrderBook K) (q : Side → ℕ → List ℕ) : Prop where
  chain : ∀ s p, Chain b.next b.prev (b.level s p).head (b.level s p).tail (q s p)
  price : ∀ s p, ∀ i ∈ q s p, (b.nodePool i).price = p
  side : ∀ s p, ∀ i ∈ q s p, (b.nodePool i).side = s
  qty : ∀ s p, ∀ i ∈ q s p, 0 < (b.nodePool i).qty.toNat
  localId : ∀ s p, ∀ i ∈ q s p, (b.nodePool i).localId.index = i
  volume : ∀ s p, (b.level s p).volume.toNat = ((q s p).map fun i => (b.nodePool i).qty.toNat).sum

/-- The representation invariant of the book. -/
structure Rep (b : PriceLevelOrderBook K) (q : Side → ℕ → List ℕ) : Prop where
  queues : Queues b q
  occupancy : Occupancy b fun s p => q s p ≠ []
  slots : Slots b fun i => ∃ s p, i ∈ q s p

/-- `q` with the queue of one level replaced. -/
def setQueue (q : Side → ℕ → List ℕ) (side : Side) (price : ℕ) (xs : List ℕ) :
    Side → ℕ → List ℕ :=
  fun s p => if s = side ∧ p = price then xs else q s p

@[simp] theorem setQueue_self (q : Side → ℕ → List ℕ) (side : Side) (price : ℕ) (xs : List ℕ) :
    setQueue q side price xs side price = xs := by
  rw [setQueue, if_pos ⟨rfl, rfl⟩]

theorem setQueue_of_ne {q : Side → ℕ → List ℕ} {side s : Side} {price p : ℕ} (xs : List ℕ)
    (h : ¬(s = side ∧ p = price)) : setQueue q side price xs s p = q s p := by
  rw [setQueue, if_neg h]

namespace Queues

variable {b b' : PriceLevelOrderBook K} {q : Side → ℕ → List ℕ} {side : Side} {price i : ℕ}
  {xs ys zs : List ℕ}

theorem fresh : Queues (fresh K) fun _ _ => [] where
  chain := by
    intro s p
    cases s <;> exact Chain.nil _ _
  price := fun _ _ _ h => absurd h List.not_mem_nil
  side := fun _ _ _ h => absurd h List.not_mem_nil
  qty := fun _ _ _ h => absurd h List.not_mem_nil
  localId := fun _ _ _ h => absurd h List.not_mem_nil
  volume := by
    intro s p
    cases s <;> rfl

theorem head_ne_zero_iff (h : Queues b q) (s : Side) (p : ℕ) :
    (b.level s p).head ≠ 0 ↔ q s p ≠ [] :=
  not_congr (h.chain s p).head_eq_zero_iff

/-- A node is in one queue only: it knows its side and price. -/
theorem unique (h : Queues b q) {s s' : Side} {p p' : ℕ} (hi : i ∈ q s p) (hi' : i ∈ q s' p') :
    s = s' ∧ p = p' :=
  ⟨(h.side s p i hi).symm.trans (h.side s' p' i hi'),
    (h.price s p i hi).symm.trans (h.price s' p' i hi')⟩

theorem ne_zero (h : Queues b q) {s : Side} {p : ℕ} (hi : i ∈ q s p) : i ≠ 0 :=
  (h.chain s p).linked.ne_zero hi

/-- The parts of a node other than its links and its quantity. -/
def SameOrder (b b' : PriceLevelOrderBook K) (j : ℕ) : Prop :=
  (b'.nodePool j).price = (b.nodePool j).price ∧ (b'.nodePool j).side = (b.nodePool j).side ∧
    (b'.nodePool j).localId = (b.nodePool j).localId ∧
    (b'.nodePool j).systemId = (b.nodePool j).systemId

/-- What a node in the queue of side `s` and price `p` looks like. -/
structure NodeOk (b : PriceLevelOrderBook K) (s : Side) (p j : ℕ) : Prop where
  price : (b.nodePool j).price = p
  side : (b.nodePool j).side = s
  qty : 0 < (b.nodePool j).qty.toNat
  localId : (b.nodePool j).localId.index = j

theorem node (h : Queues b q) {s : Side} {p j : ℕ} (hj : j ∈ q s p) : NodeOk b s p j :=
  ⟨h.price s p j hj, h.side s p j hj, h.qty s p j hj, h.localId s p j hj⟩

theorem NodeOk.congr {s : Side} {p j : ℕ} (h : NodeOk b s p j) (hsame : SameOrder b b' j)
    (hqty : (b'.nodePool j).qty = (b.nodePool j).qty) : NodeOk b' s p j := by
  obtain ⟨h1, h2, h3, _⟩ := hsame
  exact ⟨h1.trans h.price, h2.trans h.side, hqty ▸ h.qty, h3 ▸ h.localId⟩

theorem of_nodes
    (hchain : ∀ s p, Chain b.next b.prev (b.level s p).head (b.level s p).tail (q s p))
    (hnode : ∀ s p, ∀ j ∈ q s p, NodeOk b s p j)
    (hvol : ∀ s p, (b.level s p).volume.toNat =
      ((q s p).map fun j => (b.nodePool j).qty.toNat).sum) : Queues b q where
  chain := hchain
  price := fun s p j hj => (hnode s p j hj).price
  side := fun s p j hj => (hnode s p j hj).side
  qty := fun s p j hj => (hnode s p j hj).qty
  localId := fun s p j hj => (hnode s p j hj).localId
  volume := hvol

/-- The neighbours of a node are in its queue. -/
theorem neighbour_mem (h : Queues b q) {s : Side} {p j : ℕ} (hi : i ∈ q s p)
    (hj : j = b.prev i ∨ j = b.next i) (h0 : j ≠ 0) : j ∈ q s p := by
  rcases hj with rfl | rfl
  · rcases (h.chain s p).linked.next_prev hi with ⟨hp, _⟩ | ⟨hp, _⟩
    · exact absurd hp h0
    · exact hp
  · rcases (h.chain s p).linked.prev_next hi with ⟨hn, _⟩ | ⟨hn, _⟩
    · exact absurd hn h0
    · exact hn

/-- What is left in the queues after a node has been taken out of one. -/
theorem mem_of_remove (h : Queues b q) (hxs : q side price = ys ++ i :: zs) {s : Side} {p j : ℕ}
    (hj : j ∈ setQueue q side price (ys ++ zs) s p) : j ∈ q s p ∧ j ≠ i := by
  have hi : i ∈ q side price := hxs ▸ List.mem_append_cons_self
  by_cases hsp : s = side ∧ p = price
  · obtain ⟨rfl, rfl⟩ := hsp
    rw [setQueue_self] at hj
    have hnd := (h.chain s p).nodup
    rw [hxs] at hnd
    refine ⟨?_, fun hji => (List.nodup_cons.mp (List.nodup_middle.mp hnd)).1 (hji ▸ hj)⟩
    rw [hxs]
    rcases List.mem_append.mp hj with hj | hj
    · exact List.mem_append_left _ hj
    · exact List.mem_append_right _ (List.mem_cons_of_mem i hj)
  · -- in another queue there is no `i` in the first place
    rw [setQueue_of_ne _ hsp] at hj
    refine ⟨hj, ?_⟩
    rintro rfl
    exact hsp (h.unique hj hi)

theorem remove (h : Queues b q) (hxs : q side price = ys ++ i :: zs)
    (hsame : ∀ j ≠ i, SameOrder b b' j ∧ (b'.nodePool j).qty = (b.nodePool j).qty)
    (hnext : ∀ j ≠ i, j ≠ 0 → b'.next j = if j = b.prev i then b.next i else b.next j)
    (hprev : ∀ j ≠ i, j ≠ 0 → b'.prev j = if j = b.next i then b.prev i else b.prev j)
    (hlevel : ∀ s p, ¬(s = side ∧ p = price) → b'.level s p = b.level s p)
    (hhead : (b'.level side price).head =
      if b.prev i = 0 then b.next i else (b.level side price).head)
    (htail : (b'.level side price).tail =
      if b.next i = 0 then b.prev i else (b.level side price).tail)
    (hvol : (b'.level side price).volume =
      (b.level side price).volume - (b.nodePool i).qty.toUInt64) :
    Queues b' (setQueue q side price (ys ++ zs)) := by
  have hc := h.chain side price
  rw [hxs] at hc
  have hi : i ∈ q side price := hxs ▸ List.mem_append_cons_self
  have hmem : ∀ s p, ∀ j ∈ setQueue q side price (ys ++ zs) s p, j ∈ q s p ∧ j ≠ i :=
    fun s p j hj => h.mem_of_remove hxs hj
  refine of_nodes ?_ ?_ ?_
  · intro s p
    by_cases hsp : s = side ∧ p = price
    · -- the queue of the node: the neighbours are linked to each other
      obtain ⟨rfl, rfl⟩ := hsp
      have hsub := hmem s p
      rw [setQueue_self] at hsub ⊢
      rw [hhead, htail]
      refine hc.remove (fun j hj => ?_) (fun j hj => ?_)
      · exact hnext j (hsub j hj).2 (h.ne_zero (hsub j hj).1)
      · exact hprev j (hsub j hj).2 (h.ne_zero (hsub j hj).1)
    · -- another queue: none of its nodes is a neighbour
      rw [setQueue_of_ne _ hsp, hlevel s p hsp]
      have hother : ∀ j ∈ q s p, j ≠ i ∧ j ≠ 0 ∧ j ≠ b.prev i ∧ j ≠ b.next i := by
        intro j hj
        have h0 := h.ne_zero hj
        refine ⟨?_, h0, ?_, ?_⟩
        · rintro rfl
          exact hsp (h.unique hj hi)
        · intro hjp
          exact hsp (h.unique hj (h.neighbour_mem hi (.inl hjp) h0))
        · intro hjn
          exact hsp (h.unique hj (h.neighbour_mem hi (.inr hjn) h0))
      refine (h.chain s p).congr (fun j hj => ?_) (fun j hj => ?_)
      · obtain ⟨h1, h2, h3, _⟩ := hother j hj
        rw [hnext j h1 h2, if_neg h3]
      · obtain ⟨h1, h2, _, h4⟩ := hother j hj
        rw [hprev j h1 h2, if_neg h4]
  · intro s p j hj
    obtain ⟨hj, hne⟩ := hmem s p j hj
    exact (h.node hj).congr (hsame j hne).1 (hsame j hne).2
  · intro s p
    have hqty : ((setQueue q side price (ys ++ zs) s p).map fun j => (b'.nodePool j).qty.toNat) =
        (setQueue q side price (ys ++ zs) s p).map fun j => (b.nodePool j).qty.toNat := by
      refine List.map_congr_left fun j hj => ?_
      rw [(hsame j (hmem s p j hj).2).2]
    rw [hqty]
    by_cases hsp : s = side ∧ p = price
    · -- the volume was the sum with the node, so subtracting does not wrap
      obtain ⟨rfl, rfl⟩ := hsp
      have hsum := h.volume s p
      rw [hxs] at hsum
      simp only [List.map_append, List.map_cons, List.sum_append, List.sum_cons] at hsum
      have hle : (b.nodePool i).qty.toUInt64 ≤ (b.level s p).volume := by
        rw [UInt64.le_iff_toNat_le, UInt32.toNat_toUInt64]
        omega
      rw [setQueue_self, hvol, UInt64.toNat_sub_of_le _ _ hle, UInt32.toNat_toUInt64]
      simp only [List.map_append, List.sum_append]
      omega
    · rw [setQueue_of_ne _ hsp, hlevel s p hsp]
      exact h.volume s p

theorem append (h : Queues b q) (hi0 : i ≠ 0) (hfree : ∀ s p, i ∉ q s p)
    (hnode : b'.nodePool i = ⟨0, (b.level side price).tail, price, (b'.nodePool i).qty,
      (b'.nodePool i).localId, (b'.nodePool i).systemId, side⟩)
    (hqty : 0 < (b'.nodePool i).qty.toNat) (hid : (b'.nodePool i).localId.index = i)
    (hsame : ∀ j ≠ i, SameOrder b b' j ∧ (b'.nodePool j).qty = (b.nodePool j).qty)
    (hnext : ∀ j ≠ i, j ≠ 0 →
      b'.next j = if j = (b.level side price).tail then i else b.next j)
    (hprev : ∀ j ≠ i, j ≠ 0 → b'.prev j = b.prev j)
    (hlevel : ∀ s p, ¬(s = side ∧ p = price) → b'.level s p = b.level s p)
    (hhead : (b'.level side price).head =
      if (b.level side price).tail = 0 then i else (b.level side price).head)
    (htail : (b'.level side price).tail = i)
    (hvol : (b'.level side price).volume.toNat =
      (b.level side price).volume.toNat + (b'.nodePool i).qty.toNat) :
    Queues b' (setQueue q side price (q side price ++ [i])) := by
  have hc := h.chain side price
  have hne : ∀ s p, ∀ j ∈ q s p, j ≠ i := by
    rintro s p j hj rfl
    exact hfree s p hj
  have hmem : ∀ s p, ∀ j ∈ setQueue q side price (q side price ++ [i]) s p,
      j ∈ q s p ∧ j ≠ i ∨ j = i ∧ s = side ∧ p = price := by
    intro s p j hj
    by_cases hsp : s = side ∧ p = price
    · obtain ⟨rfl, rfl⟩ := hsp
      rw [setQueue_self, List.mem_append, List.mem_singleton] at hj
      rcases hj with hj | hj
      · exact .inl ⟨hj, hne s p j hj⟩
      · exact .inr ⟨hj, rfl, rfl⟩
    · rw [setQueue_of_ne _ hsp] at hj
      exact .inl ⟨hj, hne s p j hj⟩
  refine of_nodes ?_ ?_ ?_
  · intro s p
    by_cases hsp : s = side ∧ p = price
    · obtain ⟨rfl, rfl⟩ := hsp
      rw [setQueue_self, hhead, htail]
      refine hc.append (hfree s p) hi0 ?_ ?_ (fun j hj => ?_) (fun j hj => ?_)
      · rw [next, hnode]
      · rw [prev, hnode]
      · exact hnext j (hne s p j hj) (h.ne_zero hj)
      · exact hprev j (hne s p j hj) (h.ne_zero hj)
    · -- another queue: the old tail is not in it
      rw [setQueue_of_ne _ hsp, hlevel s p hsp]
      refine (h.chain s p).congr (fun j hj => ?_) (fun j hj => ?_)
      · have htail' : j ≠ (b.level side price).tail := by
          rintro rfl
          have hne' : q side price ≠ [] := fun he => h.ne_zero hj (hc.tail_eq_zero_iff.mpr he)
          exact hsp (h.unique hj (hc.tail_mem hne'))
        rw [hnext j (hne s p j hj) (h.ne_zero hj), if_neg htail']
      · exact hprev j (hne s p j hj) (h.ne_zero hj)
  · intro s p j hj
    rcases hmem s p j hj with ⟨hj, hji⟩ | ⟨rfl, rfl, rfl⟩
    · exact (h.node hj).congr (hsame j hji).1 (hsame j hji).2
    · exact ⟨by rw [hnode], by rw [hnode], hqty, hid⟩
  · intro s p
    have hold : ((q s p).map fun j => (b'.nodePool j).qty.toNat) =
        (q s p).map fun j => (b.nodePool j).qty.toNat := by
      refine List.map_congr_left fun j hj => ?_
      rw [(hsame j (hne s p j hj)).2]
    by_cases hsp : s = side ∧ p = price
    · obtain ⟨rfl, rfl⟩ := hsp
      rw [setQueue_self, hvol, List.map_append, List.sum_append, hold, h.volume s p]
      simp
    · rw [setQueue_of_ne _ hsp, hlevel s p hsp, hold]
      exact h.volume s p

/-- The quantity in a queue after one of its nodes has lost `fill`. -/
theorem sum_reduce {fill : ℕ} (hfill : fill ≤ (b.nodePool i).qty.toNat)
    (hqty : (b'.nodePool i).qty.toNat = (b.nodePool i).qty.toNat - fill)
    (hsame : ∀ j ≠ i, b'.nodePool j = b.nodePool j) (l : List ℕ) (hnd : l.Nodup) :
    (l.map fun j => (b'.nodePool j).qty.toNat).sum + (if i ∈ l then fill else 0) =
      (l.map fun j => (b.nodePool j).qty.toNat).sum := by
  induction l with
  | nil => simp
  | cons j l ih =>
    obtain ⟨hjl, hnd⟩ := List.nodup_cons.mp hnd
    have hrest := ih hnd
    by_cases hji : j = i
    · -- the node itself, which does not come again
      subst hji
      rw [if_neg hjl] at hrest
      simp only [List.map_cons, List.sum_cons, List.mem_cons, true_or, if_true]
      omega
    · have hne : i ≠ j := fun hc => hji hc.symm
      simp only [List.map_cons, List.sum_cons, List.mem_cons, hne, false_or, hsame j hji]
      omega

theorem reduce (h : Queues b q) (hi : i ∈ q side price) {fill : Quantity}
    (hfill : fill.toNat < (b.nodePool i).qty.toNat)
    (hnode : b'.nodePool i = { b.nodePool i with qty := (b.nodePool i).qty - fill })
    (hsame : ∀ j ≠ i, b'.nodePool j = b.nodePool j)
    (hlevel : ∀ s p, ¬(s = side ∧ p = price) → b'.level s p = b.level s p)
    (hhead : (b'.level side price).head = (b.level side price).head)
    (htail : (b'.level side price).tail = (b.level side price).tail)
    (hvol : (b'.level side price).volume = (b.level side price).volume - fill.toUInt64) :
    Queues b' q := by
  have hnext : ∀ j, b'.next j = b.next j := by
    intro j
    by_cases hji : j = i
    · rw [next, next, hji, hnode]
    · rw [next, next, hsame j hji]
  have hprev : ∀ j, b'.prev j = b.prev j := by
    intro j
    by_cases hji : j = i
    · rw [prev, prev, hji, hnode]
    · rw [prev, prev, hsame j hji]
  have hqty : (b'.nodePool i).qty.toNat = (b.nodePool i).qty.toNat - fill.toNat := by
    have hle : fill ≤ (b.nodePool i).qty := by
      rw [UInt32.le_iff_toNat_le]
      omega
    rw [hnode]
    exact UInt32.toNat_sub_of_le _ _ hle
  have hlinks : ∀ s p, Chain b'.next b'.prev (b.level s p).head (b.level s p).tail (q s p) :=
    fun s p => (h.chain s p).congr (fun j _ => hnext j) (fun j _ => hprev j)
  refine of_nodes ?_ ?_ ?_
  · intro s p
    by_cases hsp : s = side ∧ p = price
    · obtain ⟨rfl, rfl⟩ := hsp
      rw [hhead, htail]
      exact hlinks s p
    · rw [hlevel s p hsp]
      exact hlinks s p
  · intro s p j hj
    by_cases hji : j = i
    · obtain ⟨h1, h2, _, h4⟩ := h.node hj
      rw [hji] at h1 h2 h4 ⊢
      exact ⟨by rw [hnode, h1], by rw [hnode, h2], by omega, by rw [hnode, h4]⟩
    · obtain ⟨h1, h2, h3, h4⟩ := h.node hj
      rw [← hsame j hji] at h1 h2 h3 h4
      exact ⟨h1, h2, h3, h4⟩
  · -- volume and sum lose the same amount, in the queue of the node only
    intro s p
    have hs := sum_reduce hfill.le hqty hsame (q s p) (h.chain s p).nodup
    by_cases hsp : s = side ∧ p = price
    · obtain ⟨rfl, rfl⟩ := hsp
      rw [if_pos hi, ← h.volume s p] at hs
      have hle : fill.toUInt64 ≤ (b.level s p).volume := by
        rw [UInt64.le_iff_toNat_le, UInt32.toNat_toUInt64]
        omega
      rw [hvol, UInt64.toNat_sub_of_le _ _ hle, UInt32.toNat_toUInt64]
      omega
    · have hni : i ∉ q s p := fun hc => hsp (h.unique hc hi)
      rw [if_neg hni, Nat.add_zero] at hs
      rw [hlevel s p hsp, hs]
      exact h.volume s p

theorem congr (h : Queues b q) (hn : b'.nodePool = b.nodePool)
    (hl : ∀ s p, b'.level s p = b.level s p) : Queues b' q := by
  obtain ⟨h1, h2, h3, h4, h5, h6⟩ := h
  have hnext : b'.next = b.next := by
    funext i
    rw [next, next, hn]
  have hprev : b'.prev = b.prev := by
    funext i
    rw [prev, prev, hn]
  refine ⟨?_, ?_, ?_, ?_, ?_, ?_⟩
  · intro s p
    rw [hnext, hprev, hl]
    exact h1 s p
  · rw [hn]
    exact h2
  · rw [hn]
    exact h3
  · rw [hn]
    exact h4
  · rw [hn]
    exact h5
  · intro s p
    rw [hn, hl]
    exact h6 s p

/-- The volume of a level tells whether its queue is empty. -/
theorem volume_eq_zero_iff (h : Queues b q) (s : Side) (p : ℕ) :
    (b.level s p).volume = 0 ↔ q s p = [] := by
  rw [← UInt64.toNat_inj, h.volume s p, UInt64.toNat_zero]
  constructor
  · intro hz
    by_contra hne
    obtain ⟨j, rest, hj⟩ := List.exists_cons_of_ne_nil hne
    have hpos := h.qty s p j (by rw [hj]; exact List.mem_cons_self)
    rw [hj, List.map_cons, List.sum_cons] at hz
    omega
  · intro hnil
    rw [hnil]
    rfl

/-- The nodes that rest after one node left its queue. -/
theorem mem_setQueue_remove (h : Queues b q) (hxs : q side price = ys ++ i :: zs) (j : ℕ) :
    ((∃ s p, j ∈ q s p) ∧ j ≠ i) ↔ ∃ s p, j ∈ setQueue q side price (ys ++ zs) s p := by
  constructor
  · rintro ⟨⟨s, p, hj⟩, hne⟩
    refine ⟨s, p, ?_⟩
    by_cases hsp : s = side ∧ p = price
    · obtain ⟨rfl, rfl⟩ := hsp
      rw [hxs] at hj
      rw [setQueue_self]
      rcases List.mem_append.mp hj with hj | hj
      · exact List.mem_append_left _ hj
      · exact List.mem_append_right _ ((List.mem_cons.mp hj).resolve_left hne)
    · rw [setQueue_of_ne _ hsp]
      exact hj
  · rintro ⟨s, p, hj⟩
    obtain ⟨hj, hne⟩ := h.mem_of_remove hxs hj
    exact ⟨⟨s, p, hj⟩, hne⟩

end Queues

/-! ### What a change of one queue does to the resting nodes and the occupied levels -/

variable {q : Side → ℕ → List ℕ} {side : Side} {price : ℕ} {xs : List ℕ}

/-- The nodes that rest after one node joined a queue. -/
theorem mem_setQueue_append (side : Side) (price i j : ℕ) :
    ((∃ s p, j ∈ q s p) ∨ j = i) ↔
      ∃ s p, j ∈ setQueue q side price (q side price ++ [i]) s p := by
  constructor
  · rintro (⟨s, p, hj⟩ | rfl)
    · refine ⟨s, p, ?_⟩
      by_cases hsp : s = side ∧ p = price
      · obtain ⟨rfl, rfl⟩ := hsp
        rw [setQueue_self]
        exact List.mem_append_left _ hj
      · rw [setQueue_of_ne _ hsp]
        exact hj
    · refine ⟨side, price, ?_⟩
      rw [setQueue_self]
      exact List.mem_append_right _ List.mem_cons_self
  · rintro ⟨s, p, hj⟩
    by_cases hsp : s = side ∧ p = price
    · obtain ⟨rfl, rfl⟩ := hsp
      rw [setQueue_self, List.mem_append, List.mem_singleton] at hj
      rcases hj with hj | hj
      · exact .inl ⟨_, _, hj⟩
      · exact .inr hj
    · rw [setQueue_of_ne _ hsp] at hj
      exact .inl ⟨s, p, hj⟩

/-- The free stack after the node that left its queue has been given back. -/
theorem Rep.slots_release {b b' : PriceLevelOrderBook K} (h : Rep b q) {i : ℕ} {ys zs : List ℕ}
    (hxs : q side price = ys ++ i :: zs) (hstack : b'.freeStack = b.freeStack)
    (htop : b'.freeTop = b.freeTop) (hnext : b'.nextAvailableIdx = b.nextAvailableIdx) :
    Slots (b'.releaseId (b.nodePool i).localId)
      fun j => ∃ s p, j ∈ setQueue q side price (ys ++ zs) s p := by
  have hi : i ∈ q side price := hxs ▸ List.mem_append_cons_self
  have hindex := h.queues.localId side price i hi
  refine ((h.slots.congr hstack htop hnext).release ?_).iff_congr fun j => ?_
  · rw [hindex]
    exact ⟨side, price, hi⟩
  · rw [hindex]
    exact h.queues.mem_setQueue_remove hxs j

theorem occupied_setQueue_nil (s : Side) (p : ℕ) :
    (q s p ≠ [] ∧ ¬(s = side ∧ p = price)) ↔ setQueue q side price [] s p ≠ [] := by
  by_cases hsp : s = side ∧ p = price
  · simp [setQueue, hsp]
  · rw [setQueue_of_ne _ hsp]
    simp [hsp]

theorem occupied_setQueue_of_ne_nil (hxs : xs ≠ []) (s : Side) (p : ℕ) :
    (q s p ≠ [] ∨ (s = side ∧ p = price)) ↔ setQueue q side price xs s p ≠ [] := by
  by_cases hsp : s = side ∧ p = price
  · simp [setQueue, hsp, hxs]
  · rw [setQueue_of_ne _ hsp]
    simp [hsp]

/-- Replacing an occupied queue by another non-empty one occupies the same levels. -/
theorem occupied_setQueue_same (hq : q side price ≠ []) (hxs : xs ≠ []) (s : Side) (p : ℕ) :
    q s p ≠ [] ↔ setQueue q side price xs s p ≠ [] := by
  rw [← occupied_setQueue_of_ne_nil hxs]
  constructor
  · exact .inl
  · rintro (h | ⟨rfl, rfl⟩)
    · exact h
    · exact hq

end PriceLevelOrderBook
