/-
The matching loops.

One iteration of the inner loop either takes the order at the head of the best
level out of the book (`fillHead_full`) or leaves it there with less quantity
(`fillHead_partial`); the invariant holds again after each of them.  Both are
one step of `consume` on the list of the side, so the loops compute `consume`
(`fillLevel_spec`, `matchLoop_spec`) and need no more fuel than the quantity
they start with.
-/
import TradingPlatform.OrderBook.Listing

namespace PriceLevelOrderBook

variable {K : Constants} {b : PriceLevelOrderBook K} {q : Side → ℕ → List ℕ}

theorem min_qty_of_le {x y : Quantity} (h : y.toNat ≤ x.toNat) : min x y = y := by
  rw [show min x y = if x ≤ y then x else y from rfl]
  split
  · next hle =>
    rw [UInt32.le_iff_toNat_le] at hle
    exact UInt32.toNat_inj.mp (by omega)
  · rfl

theorem min_qty_of_lt {x y : Quantity} (h : x.toNat < y.toNat) : min x y = x := by
  rw [show min x y = if x ≤ y then x else y from rfl, if_pos]
  rw [UInt32.le_iff_toNat_le]
  omega

theorem toNat_sub_qty {x y : Quantity} (h : y.toNat ≤ x.toNat) :
    (x - y).toNat = x.toNat - y.toNat :=
  UInt32.toNat_sub_of_le _ _ (UInt32.le_iff_toNat_le.mpr h)

/-- The head of an occupied level, with the links that follow from its place. -/
theorem Rep.head_facts (h : Rep b q) {s : Side} {p i : ℕ} {rest : List ℕ}
    (hq : q s p = i :: rest) :
    (b.level s p).head = i ∧ b.prev i = 0 ∧ b.next i = rest.headD 0 ∧ i ∈ q s p := by
  have hc := h.queues.chain s p
  rw [hq] at hc
  exact ⟨hc.head_eq, hc.linked.2.1, hc.next_head, by rw [hq]; exact List.mem_cons_self⟩

/-! ### One iteration -/

/-- The book without the order in node `i`, the head of its level, before the
index of the node is released. -/
def withoutHead (b : PriceLevelOrderBook K) (s : Side) (p i : ℕ) : PriceLevelOrderBook K :=
  let lvl : PriceLevelSide := { b.level s p with
    volume := (b.level s p).volume - (b.nodePool i).qty.toUInt64 }
  let c := b.setNode i { b.nodePool i with qty := 0 }
  if b.next i ≠ 0 then
    (c.setLevel s p { lvl with head := b.next i }).setNode (b.next i)
      { c.nodePool (b.next i) with prev := 0 }
  else
    (c.setLevel s p { lvl with head := b.next i, tail := 0 }).updateOccupancy s p false

/-- A full fill of the head order. -/
theorem fillHead_of_le (h : Rep b q) {s : Side} {p i : ℕ} {rest : List ℕ} {rem : Quantity}
    (hq : q s p = i :: rest) (hle : (b.nodePool i).qty.toNat ≤ rem.toNat) :
    b.fillHead s p rem =
      ((b.withoutHead s p i).releaseId (b.nodePool i).localId, rem - (b.nodePool i).qty) := by
  obtain ⟨hhead, _, _, hi⟩ := h.head_facts hq
  have hside := h.queues.side s p i hi
  simp only [fillHead, withoutHead, hhead, min_qty_of_le hle, UInt32.sub_self, if_true, hside, next]

variable {s : Side} {p i : ℕ}

/-- The only node that changes besides the head is the one behind it. -/
theorem withoutHead_nodePool (hni : b.next i ≠ i) {j : ℕ} (hj : j ≠ i) :
    (b.withoutHead s p i).nodePool j =
      { b.nodePool j with prev := if b.next i ≠ 0 ∧ j = b.next i then 0 else b.prev j } := by
  rw [withoutHead]
  by_cases hn : b.next i = 0
  · simp [hn, prev, Function.update_of_ne hj]
  · by_cases hjn : j = b.next i
    · rw [if_pos hn, if_pos ⟨hn, hjn⟩, hjn]
      simp [Function.update_of_ne hni]
    · simp [hn, hjn, prev, Function.update_of_ne hj]

theorem withoutHead_level (b : PriceLevelOrderBook K) (s : Side) (p i : ℕ) (s' : Side) (p' : ℕ) :
    (b.withoutHead s p i).level s' p' =
      if s' = s ∧ p' = p then
        ⟨(b.level s p).volume - (b.nodePool i).qty.toUInt64, b.next i,
          if b.next i = 0 then 0 else (b.level s p).tail⟩
      else b.level s' p' := by
  rw [withoutHead]
  by_cases hn : b.next i = 0
  · simp [hn, level_setLevel]
  · simp [hn, level_setLevel]

theorem withoutHead_recycling (b : PriceLevelOrderBook K) (s : Side) (p i : ℕ) :
    (b.withoutHead s p i).freeStack = b.freeStack ∧
      (b.withoutHead s p i).freeTop = b.freeTop ∧
      (b.withoutHead s p i).nextAvailableIdx = b.nextAvailableIdx := by
  rw [withoutHead]
  split <;> simp

/-- The node behind the head is another one. -/
theorem Rep.next_head_ne (h : Rep b q) {rest : List ℕ} (hq : q s p = i :: rest) :
    b.next i ≠ i := by
  obtain ⟨_, _, hnext, hi⟩ := h.head_facts hq
  have hnd := (h.queues.chain s p).nodup
  rw [hq, List.nodup_cons] at hnd
  rw [hnext]
  cases rest with
  | nil => exact (h.queues.ne_zero hi).symm
  | cons j rest =>
    rintro rfl
    exact hnd.1 List.mem_cons_self

theorem withoutHead_queues (h : Rep b q) {rest : List ℕ} (hq : q s p = i :: rest) :
    Queues (b.withoutHead s p i) (setQueue q s p rest) := by
  obtain ⟨_, hprev, _, _⟩ := h.head_facts hq
  have hpool := fun j (hj : j ≠ i) => withoutHead_nodePool (s := s) (p := p) (h.next_head_ne hq) hj
  have hcut : q s p = [] ++ i :: rest := hq
  refine h.queues.remove hcut ?_ ?_ ?_ ?_ ?_ ?_ ?_
  · intro j hj
    rw [Queues.SameOrder, hpool j hj]
    exact ⟨⟨rfl, rfl, rfl, rfl⟩, rfl⟩
  · intro j hj h0
    rw [hprev, if_neg h0, next, hpool j hj]
    rfl
  · intro j hj h0
    rw [hprev, prev, hpool j hj]
    by_cases hjn : j = b.next i
    · exact (if_pos ⟨hjn ▸ h0, hjn⟩).trans (if_pos hjn).symm
    · exact (if_neg fun hc => hjn hc.2).trans (if_neg hjn).symm
  · intro s' p' hsp
    rw [withoutHead_level, if_neg hsp]
  · rw [withoutHead_level, if_pos ⟨rfl, rfl⟩, if_pos hprev]
  · rw [withoutHead_level, if_pos ⟨rfl, rfl⟩, hprev]
  · rw [withoutHead_level, if_pos ⟨rfl, rfl⟩]

/-- The mask and the best price change only when the level is empty now. -/
theorem withoutHead_occupancy (h : Rep b q) {rest : List ℕ} (hq : q s p = i :: rest) :
    Occupancy (b.withoutHead s p i) fun s' p' => setQueue q s p rest s' p' ≠ [] := by
  obtain ⟨_, _, hnext, hi⟩ := h.head_facts hq
  have hqueues := withoutHead_queues h hq
  have hempty := hqueues.volume_eq_zero_iff s p
  rw [withoutHead_level, if_pos ⟨rfl, rfl⟩, setQueue_self] at hempty
  rw [withoutHead]
  cases rest with
  | nil =>
    have hn : b.next i = 0 := hnext
    rw [if_neg (not_not.mpr hn)]
    refine ((h.occupancy.congr ?_ ?_ ?_).deactivate ?_).iff_congr
      fun s' p' => occupied_setQueue_nil s' p'
    · intro s'
      simp
    · simp
    · simp
    · rw [level_setLevel_self]
      exact hempty.mpr rfl
  | cons j rest =>
    have hn : b.next i ≠ 0 := by
      have hj : j ∈ q s p := by
        rw [hq]
        exact List.mem_cons_of_mem i List.mem_cons_self
      rw [hnext]
      exact h.queues.ne_zero hj
    rw [if_pos hn]
    refine (h.occupancy.congr ?_ ?_ ?_).iff_congr fun s' p' =>
      occupied_setQueue_same (List.ne_nil_of_mem hi) (List.cons_ne_nil j rest) s' p'
    · intro s'
      simp
    · simp
    · simp

/-- The head order is filled completely and leaves the book. -/
theorem fillHead_full (h : Rep b q) {rest : List ℕ} {rem : Quantity}
    (hq : q s p = i :: rest) (hle : (b.nodePool i).qty.toNat ≤ rem.toNat) :
    Rep (b.fillHead s p rem).1 (setQueue q s p rest) ∧
      (b.fillHead s p rem).2.toNat = rem.toNat - (b.nodePool i).qty.toNat ∧
      ∀ j ≠ i, (b.fillHead s p rem).1.order j = b.order j := by
  obtain ⟨h1, h2, h3⟩ := withoutHead_recycling b s p i
  rw [fillHead_of_le h hq hle]
  refine ⟨⟨?_, ?_, ?_⟩, toNat_sub_qty hle, ?_⟩
  · exact (withoutHead_queues h hq).congr (nodePool_releaseId _ _) fun s' p' =>
      level_releaseId _ _ _ _
  · exact (withoutHead_occupancy h hq).congr (fun s' => mask_releaseId _ _ _)
      (minAsk_releaseId _ _) (maxBid_releaseId _ _)
  · have hcut : q s p = [] ++ i :: rest := hq
    exact h.slots_release hcut h1 h2 h3
  · intro j hj
    rw [order, nodePool_releaseId, withoutHead_nodePool (h.next_head_ne hq) hj]
    rfl

/-- The head order is filled in part and keeps its place. -/
theorem fillHead_partial (h : Rep b q) {rest : List ℕ} {rem : Quantity}
    (hq : q s p = i :: rest) (hlt : rem.toNat < (b.nodePool i).qty.toNat) :
    Rep (b.fillHead s p rem).1 q ∧ (b.fillHead s p rem).2 = 0 ∧
      (b.fillHead s p rem).1.order i =
        { b.order i with qty := (b.nodePool i).qty.toNat - rem.toNat } ∧
      ∀ j ≠ i, (b.fillHead s p rem).1.order j = b.order j := by
  obtain ⟨hhead, _, _, hi⟩ := h.head_facts hq
  -- something of the head is left, so it stays linked
  have hne : (b.nodePool i).qty - rem ≠ 0 := by
    intro hc
    rw [← UInt32.toNat_inj, toNat_sub_qty hlt.le, UInt32.toNat_zero] at hc
    omega
  have hunfold : b.fillHead s p rem =
      ((b.setNode i { b.nodePool i with qty := (b.nodePool i).qty - rem }).setLevel s p
        { b.level s p with volume := (b.level s p).volume - rem.toUInt64 }, 0) := by
    simp only [fillHead, hhead, min_qty_of_lt hlt, UInt32.sub_self, if_neg hne]
  rw [hunfold]
  refine ⟨⟨?_, ?_, ?_⟩, rfl, ?_, ?_⟩
  · refine h.queues.reduce hi hlt ?_ ?_ ?_ ?_ ?_ ?_
    · simp
    · intro j hj
      simp [Function.update_of_ne hj]
    · intro s' p' hsp
      simp [level_setLevel, hsp]
    · simp
    · simp
    · simp
  · refine h.occupancy.congr ?_ ?_ ?_
    · intro s'
      simp
    · simp
    · simp
  · exact h.slots.congr (by simp) (by simp) (by simp)
  · simp [order, toNat_sub_qty hlt.le]
  · intro j hj
    simp [order, Function.update_of_ne hj]

/-! ### The loops -/

/-- An order of side `side` and limit `limit` has been filled from `rem` down to
`rem'`: what is left to do is the rest of the same `consume`. -/
structure Filled (side : Side) (limit : ℕ) (b : PriceLevelOrderBook K) (q : Side → ℕ → List ℕ)
    (rem : Quantity) (b' : PriceLevelOrderBook K) (q' : Side → ℕ → List ℕ) (rem' : Quantity) :
    Prop where
  rep : Rep b' q'
  rest : consume side limit rem.toNat (b.listing q side.opposite) =
    consume side limit rem'.toNat (b'.listing q' side.opposite)
  own : b'.listing q' side = b.listing q side
  le : rem'.toNat ≤ rem.toNat
  idle : rem' = rem → b' = b

namespace Filled

variable {side : Side} {limit p : ℕ} {rem rem' rem'' : Quantity}
  {b' b'' : PriceLevelOrderBook K} {q' q'' : Side → ℕ → List ℕ}

theorem refl (h : Rep b q) : Filled side limit b q rem b q rem :=
  ⟨h, rfl, rfl, le_rfl, fun _ => rfl⟩

theorem trans (h : Filled side limit b q rem b' q' rem')
    (h' : Filled side limit b' q' rem' b'' q'' rem'') :
    Filled side limit b q rem b'' q'' rem'' where
  rep := h'.rep
  rest := h.rest.trans h'.rest
  own := h'.own.trans h.own
  le := h'.le.trans h.le
  idle := by
    intro heq
    have hle := h.le
    have hle' := h'.le
    have h1 : rem' = rem := by
      subst heq
      exact UInt32.toNat_inj.mp (le_antisymm hle hle')
    rw [h'.idle (heq.trans h1.symm), h.idle h1]

end Filled

/-- The orders of the other nodes, when only the order of the head has changed. -/
theorem Rep.map_order_of_head (h : Rep b q) {b' : PriceLevelOrderBook K} {s : Side} {p i : ℕ}
    {rest : List ℕ} (hq : q s p = i :: rest) (horder : ∀ j ≠ i, b'.order j = b.order j) :
    (∀ s' r, ¬(s' = s ∧ r = p) → (q s' r).map b'.order = (q s' r).map b.order) ∧
      rest.map b'.order = rest.map b.order := by
  have hi : i ∈ q s p := (h.head_facts hq).2.2.2
  have hnd := (h.queues.chain s p).nodup
  rw [hq] at hnd
  constructor
  · intro s' r hsr
    refine List.map_congr_left fun j hj => horder j ?_
    rintro rfl
    exact hsr (h.queues.unique hj hi)
  · refine List.map_congr_left fun j hj => horder j ?_
    rintro rfl
    exact (List.nodup_cons.mp hnd).1 hj

/-- One iteration at the best level of the opposite side is one step of `consume`. -/
theorem fillHead_filled (h : Rep b q) {side : Side} {limit p : ℕ} {rem : Quantity}
    (hne : q side.opposite p ≠ []) (hcross : crosses side limit p = true)
    (hbest : ∀ r, q side.opposite r ≠ [] → better side.opposite r p = false)
    (hrem : 0 < rem.toNat) :
    ∃ q', Filled side limit b q rem (b.fillHead side.opposite p rem).1 q'
        (b.fillHead side.opposite p rem).2 ∧
      (b.fillHead side.opposite p rem).2.toNat < rem.toNat ∧
      ∀ r ≠ p, q' side.opposite r = q side.opposite r := by
  obtain ⟨i, rest, hq⟩ := List.exists_cons_of_ne_nil hne
  have hi : i ∈ q side.opposite p := (h.head_facts hq).2.2.2
  have hpos := h.queues.qty _ _ i hi
  have hprice : (b.order i).price = p := h.queues.price _ _ i hi
  have hqty : (b.order i).qty = (b.nodePool i).qty.toNat := rfl
  -- nothing stands before the head of the best level
  obtain ⟨A, B, hlist, _, _, hA, hlist'⟩ := listing_at h.queues side.opposite (h.price_lt hi)
  rw [hA hbest, hq, List.map_cons] at hlist
  rw [hA hbest] at hlist'
  by_cases hfull : (b.nodePool i).qty.toNat ≤ rem.toNat
  · -- the head is filled and leaves the list
    obtain ⟨hrep, hqty', horder⟩ := fillHead_full h hq hfull
    obtain ⟨hmap, hrestmap⟩ := h.map_order_of_head hq horder
    have hsame : ∀ s r, ¬(s = side.opposite ∧ r = p) →
        (setQueue q side.opposite p rest s r).map (b.fillHead side.opposite p rem).1.order =
          (q s r).map b.order := by
      intro s r hsr
      rw [setQueue_of_ne _ hsr, hmap s r hsr]
    refine ⟨setQueue q side.opposite p rest, ⟨hrep, ?_, ?_, by omega, ?_⟩, by omega, ?_⟩
    · rw [hlist, hlist' (fun r hr => hsame _ r fun hc => hr hc.2), setQueue_self, hrestmap, hqty',
        List.nil_append, List.nil_append, List.cons_append, consume, hprice, hcross, hqty,
        if_neg (by simp; omega), if_neg (by omega)]
    · exact listing_congr fun r => hsame side r fun hc => Side.ne_opposite side hc.1
    · intro heq
      rw [heq] at hqty'
      omega
    · intro r hr
      exact setQueue_of_ne _ fun hc => hr hc.2
  · -- the head stays with what is left of it
    have hlt : rem.toNat < (b.nodePool i).qty.toNat := by omega
    obtain ⟨hrep, hzero, hnew, horder⟩ := fillHead_partial h hq hlt
    obtain ⟨hsame, hrestmap⟩ := h.map_order_of_head hq horder
    have hz : (b.fillHead side.opposite p rem).2.toNat = 0 := by
      rw [hzero]
      rfl
    refine ⟨q, ⟨hrep, ?_, ?_, by omega, ?_⟩, by omega, fun r _ => rfl⟩
    · rw [hlist, hlist' (fun r hr => hsame _ r fun hc => hr hc.2), hz, consume_zero, hq,
        List.map_cons, hnew, hrestmap, List.nil_append, List.nil_append, List.cons_append,
        List.cons_append, consume, hprice, hcross, hqty, if_neg (by simp; omega), if_pos hlt]
      simp only [hprice]
    · exact listing_congr fun r => hsame side r fun hc => Side.ne_opposite side hc.1
    · intro heq
      rw [heq] at hz
      omega

/-- The inner loop at the best crossing level: it ends, and it fills something
unless there was nothing to do. -/
theorem fillLevel_spec {side : Side} {limit p : ℕ} (hcross : crosses side limit p = true) :
    ∀ (fuel : ℕ) {b : PriceLevelOrderBook K} {q : Side → ℕ → List ℕ} {rem : Quantity},
      Rep b q → (∀ r, q side.opposite r ≠ [] → better side.opposite r p = false) →
      rem.toNat < fuel →
      ∃ b' q' rem', fillLevel side.opposite p fuel b rem = some (b', rem') ∧
        Filled side limit b q rem b' q' rem' ∧
        (q side.opposite p ≠ [] → 0 < rem.toNat → rem'.toNat < rem.toNat) := by
  -- on the fuel: every iteration takes at least one from `rem`
  intro fuel
  induction fuel with
  | zero =>
    intro b q rem _ _ hfuel
    omega
  | succ fuel ih =>
    intro b q rem h hbest hfuel
    rw [fillLevel]
    by_cases hgo : (b.level side.opposite p).head ≠ 0 ∧ 0 < rem
    · rw [if_pos hgo]
      have hne := (h.head_ne_zero_iff _ _).mp hgo.1
      have hpos : 0 < rem.toNat := UInt32.lt_iff_toNat_lt.mp hgo.2
      obtain ⟨q₁, hfill, hlt, hkeep⟩ := fillHead_filled h hne hcross hbest hpos
      have hbest₁ : ∀ r, q₁ side.opposite r ≠ [] → better side.opposite r p = false := by
        intro r hr
        by_cases hrp : r = p
        · rw [hrp]
          exact better_irrefl _ _
        · rw [hkeep r hrp] at hr
          exact hbest r hr
      have hfuel₁ : (b.fillHead side.opposite p rem).2.toNat < fuel := by omega
      obtain ⟨b', q', rem', heq, hfill', _⟩ := ih hfill.rep hbest₁ hfuel₁
      exact ⟨b', q', rem', heq, hfill.trans hfill', fun _ _ => lt_of_le_of_lt hfill'.le hlt⟩
    · rw [if_neg hgo]
      refine ⟨b, q, rem, rfl, Filled.refl h, fun hne hpos => ?_⟩
      exact absurd ⟨(h.head_ne_zero_iff _ _).mpr hne, UInt32.lt_iff_toNat_lt.mpr hpos⟩ hgo

/-- The outer loop ends when `consume` has nothing more to do. -/
theorem matchLoop_spec (side : Side) (limit : ℕ) :
    ∀ (fuel : ℕ) {b : PriceLevelOrderBook K} {q : Side → ℕ → List ℕ} {rem : Quantity},
      Rep b q → rem.toNat < fuel →
      ∃ b' q' rem', matchLoop side limit fuel b rem = some (b', rem') ∧
        Filled side limit b q rem b' q' rem' ∧
        consume side limit rem'.toNat (b'.listing q' side.opposite) =
          (b'.listing q' side.opposite, rem'.toNat) := by
  intro fuel
  induction fuel with
  | zero =>
    intro b q rem _ hfuel
    omega
  | succ fuel ih =>
    intro b q rem h hfuel
    -- both ways of stopping before `rem` is used up say that no level crosses
    have hstop : (∀ r, q side.opposite r ≠ [] → crosses side limit r = false) →
        consume side limit rem.toNat (b.listing q side.opposite) =
          (b.listing q side.opposite, rem.toNat) := by
      intro hno
      refine consume_of_not_crosses (fun o ho => ?_) _
      obtain ⟨r, _, j, hj, rfl⟩ := mem_listing.mp ho
      rw [show (b.order j).price = r from h.queues.price _ _ j hj]
      exact hno r (List.ne_nil_of_mem hj)
    rw [matchLoop]
    by_cases hpos : 0 < rem
    · rw [if_pos hpos]
      have hpos' : 0 < rem.toNat := UInt32.lt_iff_toNat_lt.mp hpos
      by_cases hbeyond : b.bestIsBeyond side limit = true
      · rw [if_pos hbeyond]
        exact ⟨b, q, rem, rfl, Filled.refl h,
          hstop (h.occupancy.bestIsBeyond_eq_true hbeyond)⟩
      · rw [if_neg hbeyond]
        rcases hg : b.getBest side limit with _ | best
        · exact ⟨b, q, rem, rfl, Filled.refl h,
            hstop (h.occupancy.getBest_eq_none h.head_ne_zero_iff hg)⟩
        · obtain ⟨hocc, hcross, hbest⟩ := h.occupancy.getBest_eq_some hg
          have hhead := (h.head_ne_zero_iff _ _).mpr hocc
          obtain ⟨b₁, q₁, rem₁, heq, hfill, hlt⟩ := fillLevel_spec hcross (fuel + 1) h hbest hfuel
          have hlt := hlt hocc hpos'
          have hfuel₁ : rem₁.toNat < fuel := by omega
          obtain ⟨b', q', rem', heq', hfill', hend⟩ := ih hfill.rep hfuel₁
          refine ⟨b', q', rem', ?_, hfill.trans hfill', hend⟩
          simp only [if_neg hhead, heq, Option.bind_some, heq']
    · rw [if_neg hpos]
      refine ⟨b, q, rem, rfl, Filled.refl h, ?_⟩
      have hz : rem.toNat = 0 := by
        rw [UInt32.lt_iff_toNat_lt] at hpos
        exact Nat.eq_zero_of_not_pos hpos
      rw [hz, consume_zero]

end PriceLevelOrderBook
