/-
The queues read as lists in price-time order.

`listing_at` cuts the list of a side at one price: the orders at better
prices, the queue at this price, the orders at worse prices.  Whatever happens
to that queue alone happens to the middle part alone.
-/
import TradingPlatform.OrderBook.Queues

namespace PriceLevelOrderBook

variable {K : Constants} {b b' : PriceLevelOrderBook K} {q : Side → ℕ → List ℕ}

theorem mem_prices {s : Side} {p : ℕ} : p ∈ prices K s ↔ p < K.maxTicks := by
  cases s <;> simp [prices]

theorem prices_pairwise (K : Constants) (s : Side) :
    (prices K s).Pairwise fun p r => better s p r = true := by
  cases s with
  | Buy =>
    simp only [prices, better, List.pairwise_reverse, decide_eq_true_eq]
    exact List.pairwise_lt_range
  | Sell =>
    simp only [prices, better, decide_eq_true_eq]
    exact List.pairwise_lt_range

/-- The prices of a side, cut at one of them. -/
theorem prices_cut (s : Side) {p : ℕ} (hp : p < K.maxTicks) :
    ∃ pre post, prices K s = pre ++ p :: post ∧ (∀ r ∈ pre, better s r p = true) ∧
      ∀ r ∈ post, better s p r = true := by
  obtain ⟨pre, post, hcut⟩ := List.append_of_mem ((mem_prices (s := s)).mpr hp)
  have hpw := prices_pairwise K s
  rw [hcut] at hpw
  obtain ⟨_, h2, h3⟩ := List.pairwise_append.mp hpw
  exact ⟨pre, post, hcut, fun r hr => h3 r hr p List.mem_cons_self,
    (List.pairwise_cons.mp h2).1⟩

theorem better_irrefl (s : Side) (p : ℕ) : better s p p = false := by
  cases s <;> simp [better]

theorem better_asymm {s : Side} {p r : ℕ} (h : better s p r = true) : better s r p = false := by
  cases s <;> simp only [better, decide_eq_true_eq, decide_eq_false_iff_not] at * <;> omega

theorem mem_listing {s : Side} {x : RestingOrder K} :
    x ∈ b.listing q s ↔ ∃ p < K.maxTicks, ∃ i ∈ q s p, b.order i = x := by
  simp only [listing, List.mem_flatMap, mem_prices, List.mem_map]

theorem listing_congr {q' : Side → ℕ → List ℕ} {s : Side}
    (h : ∀ p, (q' s p).map b'.order = (q s p).map b.order) :
    b'.listing q' s = b.listing q s := by
  rw [listing, listing]
  simp only [h]

/-- Cutting the list of a side at one price. -/
theorem listing_at (h : Queues b q) (s : Side) {p : ℕ} (hp : p < K.maxTicks) :
    ∃ A B, b.listing q s = A ++ ((q s p).map b.order ++ B) ∧
      (∀ x ∈ A, better s x.price p = true) ∧ (∀ x ∈ B, better s p x.price = true) ∧
      ((∀ r, q s r ≠ [] → better s r p = false) → A = []) ∧
      ∀ {b' : PriceLevelOrderBook K} {q' : Side → ℕ → List ℕ},
        (∀ r ≠ p, (q' s r).map b'.order = (q s r).map b.order) →
        b'.listing q' s = A ++ ((q' s p).map b'.order ++ B) := by
  obtain ⟨pre, post, hcut, hpre, hpost⟩ := prices_cut s hp
  have hprice : ∀ r, ∀ x ∈ (q s r).map b.order, x.price = r := by
    intro r x hx
    obtain ⟨i, hi, rfl⟩ := List.mem_map.mp hx
    exact h.price s r i hi
  refine ⟨pre.flatMap fun r => (q s r).map b.order, post.flatMap fun r => (q s r).map b.order,
    ?_, ?_, ?_, ?_, ?_⟩
  · rw [listing, hcut, List.flatMap_append, List.flatMap_cons]
  · intro x hx
    obtain ⟨r, hr, hx⟩ := List.mem_flatMap.mp hx
    rw [hprice r x hx]
    exact hpre r hr
  · intro x hx
    obtain ⟨r, hr, hx⟩ := List.mem_flatMap.mp hx
    rw [hprice r x hx]
    exact hpost r hr
  · -- every price before `p` is better than `p`, so its queue is empty
    intro hbest
    rw [List.flatMap_eq_nil_iff]
    intro r hr
    by_contra hne
    have hb := hbest r (fun hq => hne (by rw [hq]; rfl))
    rw [hpre r hr] at hb
    exact Bool.noConfusion hb
  · intro b' q' hsame
    have hneq : ∀ r, better s r p = true ∨ better s p r = true → r ≠ p := by
      rintro r hr rfl
      rw [better_irrefl] at hr
      simp at hr
    have h1 : (pre.flatMap fun r => (q' s r).map b'.order) =
        pre.flatMap fun r => (q s r).map b.order :=
      List.flatMap_congr fun r hr => hsame r (hneq r (.inl (hpre r hr)))
    have h2 : (post.flatMap fun r => (q' s r).map b'.order) =
        post.flatMap fun r => (q s r).map b.order :=
      List.flatMap_congr fun r hr => hsame r (hneq r (.inr (hpost r hr)))
    rw [listing, hcut, List.flatMap_append, List.flatMap_cons, h1, h2]

/-- The list of a side is in the order of its prices. -/
theorem listing_sorted (h : Queues b q) (s : Side) : PriceSorted s (b.listing q s) := by
  rw [PriceSorted, listing, List.pairwise_flatMap]
  constructor
  · intro p _
    rw [List.pairwise_map]
    refine List.pairwise_of_forall_mem_list ?_
    intro i hi j hj
    rw [show (b.order i).price = p from h.price s p i hi,
      show (b.order j).price = p from h.price s p j hj]
    exact better_irrefl s p
  · refine (prices_pairwise K s).imp ?_
    intro p r hpr x hx y hy
    obtain ⟨i, hi, rfl⟩ := List.mem_map.mp hx
    obtain ⟨j, hj, rfl⟩ := List.mem_map.mp hy
    rw [show (b.order i).price = p from h.price s p i hi,
      show (b.order j).price = r from h.price s r j hj]
    exact better_asymm hpr

/-- The place at which an order comes to rest. -/
theorem enqueue_at {s : Side} {o : RestingOrder K} {A M B : List (RestingOrder K)}
    (hA : ∀ x ∈ A, better s x.price o.price = true) (hM : ∀ x ∈ M, x.price = o.price)
    (hB : ∀ x ∈ B, better s o.price x.price = true) :
    enqueue s o (A ++ (M ++ B)) = A ++ ((M ++ [o]) ++ B) := by
  have hfront : ∀ x ∈ A ++ M, (!better s o.price x.price) = true := by
    intro x hx
    rcases List.mem_append.mp hx with hx | hx
    · rw [better_asymm (hA x hx)]
      rfl
    · rw [hM x hx, better_irrefl]
      rfl
  have hback : B.takeWhile (fun x => !better s o.price x.price) = [] ∧
      B.dropWhile (fun x => !better s o.price x.price) = B := by
    cases B with
    | nil => exact ⟨rfl, rfl⟩
    | cons x B =>
      have hx := hB x List.mem_cons_self
      simp [hx]
  rw [enqueue, ← List.append_assoc, List.takeWhile_append_of_pos hfront,
    List.dropWhile_append_of_pos hfront, hback.1, hback.2]
  simp

namespace Rep

theorem fresh : Rep (fresh K) fun _ _ => [] where
  queues := Queues.fresh
  occupancy := Occupancy.fresh.iff_congr fun _ _ => by simp
  slots := Slots.fresh.iff_congr fun _ => by simp

theorem price_lt (h : Rep b q) {s : Side} {p i : ℕ} (hi : i ∈ q s p) : p < K.maxTicks :=
  h.occupancy.lt s p (List.ne_nil_of_mem hi)

theorem head_ne_zero_iff (h : Rep b q) (s : Side) (p : ℕ) :
    (b.level s p).head ≠ 0 ↔ q s p ≠ [] := h.queues.head_ne_zero_iff s p

/-- A queue is no longer than the pool, so walking it reads all of it. -/
theorem length_lt (h : Rep b q) (s : Side) (p : ℕ) : (q s p).length < K.maxBookOrders.val := by
  have hsub : (q s p).toFinset ⊆ Finset.Ico 1 b.nextAvailableIdx := by
    intro i hi
    rw [List.mem_toFinset] at hi
    rw [Finset.mem_Ico]
    exact h.slots.resting_bounds ⟨s, p, hi⟩
  have hcard := Finset.card_le_card hsub
  rw [List.toFinset_card_of_nodup (h.queues.chain s p).nodup, Nat.card_Ico] at hcard
  have h1 := h.slots.next_pos
  have h2 := h.slots.next_le
  omega

theorem queue_eq (h : Rep b q) : b.queue = q := by
  funext s p
  exact (h.queues.chain s p).walk_eq (h.length_lt s p).le

theorem orders_eq (h : Rep b q) : b.orders = ⟨b.listing q .Buy, b.listing q .Sell⟩ := by
  rw [orders, h.queue_eq]

theorem orders_side (h : Rep b q) (s : Side) : b.orders.orders s = b.listing q s := by
  rw [h.orders_eq]
  cases s <;> rfl

end Rep

end PriceLevelOrderBook
