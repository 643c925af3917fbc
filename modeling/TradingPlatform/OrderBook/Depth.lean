/-
Depth, and what a match does to it.

The depth of a side at a price is the quantity that rests there.  A match that
serves the best prices first (`GreedyFill`) is determined, as far as the depth and
the quantity not filled go, by the depth before it (`GreedyFill.unique`): which of
the orders at one price are served does not matter.

* `GreedyFill.refl`, `GreedyFill.step` — a match is its first fill followed by a match;
* `consume_greedy` — the match of the price-time book is one.
-/
import Mathlib.Algebra.BigOperators.Group.Finset.Piecewise
import Mathlib.Algebra.Order.BigOperators.Group.Finset
import TradingPlatform.OrderBook.Invariants

/-- The quantity at price `p` in a list of prices with quantities. -/
def depthAt (l : List (ℕ × ℕ)) (p : ℕ) : ℕ := (l.map fun a => if a.1 = p then a.2 else 0).sum

section Depth

variable {l l' : List (ℕ × ℕ)} {p : ℕ}

@[simp] theorem depthAt_nil : depthAt [] p = 0 := rfl

@[simp] theorem depthAt_cons (a : ℕ × ℕ) :
    depthAt (a :: l) p = (if a.1 = p then a.2 else 0) + depthAt l p := rfl

theorem depthAt_perm (h : l.Perm l') : depthAt l p = depthAt l' p := (h.map _).sum_eq

theorem depthAt_eq_zero (h : ∀ a ∈ l, a.1 ≠ p) : depthAt l p = 0 := by
  induction l with
  | nil => rfl
  | cons a l ih =>
    rw [depthAt_cons, if_neg (h a List.mem_cons_self), Nat.zero_add]
    exact ih fun b hb => h b (List.mem_cons_of_mem a hb)

/-- Nothing rests at a price without depth. -/
theorem ne_of_depthAt_eq_zero (h : depthAt l p = 0) {a : ℕ × ℕ} (ha : a ∈ l) (hpos : 0 < a.2) :
    a.1 ≠ p := by
  intro hp
  have hle : a.2 ≤ depthAt l p := by
    refine List.single_le_sum (fun x _ => Nat.zero_le x) _ (List.mem_map.2 ⟨a, ha, ?_⟩)
    exact if_pos hp
  omega

end Depth

/-- Filling `qty` at `limit` from depth `D` leaves depth `D'` and `rem` not filled: only
crossed prices are served, a price only after the better ones, and the match ends
short of its quantity only if it has left nothing to cross.  `N` bounds the prices. -/
structure GreedyFill (N : ℕ) (side : Side) (limit qty : ℕ) (D D' : ℕ → ℕ) (rem : ℕ) : Prop where
  le : ∀ p, D' p ≤ D p
  crossing : ∀ p, D' p < D p → crosses side limit p = true
  best : ∀ p r, D' p < D p → better side.opposite r p = true → D' r = 0
  stops : 0 < rem → ∀ p, crosses side limit p = true → D' p = 0
  total : ∑ p ∈ Finset.range N, D' p + qty = ∑ p ∈ Finset.range N, D p + rem
  below : ∀ p, N ≤ p → D p = 0
  rem_le : rem ≤ qty

theorem better_total (side : Side) {p r : ℕ} (h : p ≠ r) :
    better side p r = true ∨ better side r p = true := by
  cases side <;> simp [better] <;> omega

namespace GreedyFill

variable {N limit qty rem rem₁ rem₂ : ℕ} {side : Side} {D D₁ D₂ D' : ℕ → ℕ}

theorem refl (hstop : 0 < qty → ∀ p, crosses side limit p = true → D p = 0)
    (hbelow : ∀ p, N ≤ p → D p = 0) : GreedyFill N side limit qty D D qty where
  le _ := le_refl _
  crossing _ h := absurd h (lt_irrefl _)
  best _ _ h := absurd h (lt_irrefl _)
  stops := hstop
  total := rfl
  below := hbelow
  rem_le := le_refl _

/-- The first fill takes `m` at the best price. -/
theorem step (p₀ : ℕ) {m : ℕ} (hcross : crosses side limit p₀ = true)
    (hbest : ∀ r, better side.opposite r p₀ = true → D r = 0) (hp₀ : p₀ < N)
    (hD : ∀ p, D p = D₁ p + if p₀ = p then m else 0) (hm : m ≤ qty)
    (h : GreedyFill N side limit (qty - m) D₁ D' rem) : GreedyFill N side limit qty D D' rem := by
  have hle : ∀ p, D₁ p ≤ D p := fun p => by
    rw [hD]
    exact Nat.le_add_right _ _
  -- what a price has lost it lost to the first fill or to the rest of the match
  have hlost : ∀ p, D' p < D p → D' p < D₁ p ∨ p₀ = p := by
    intro p hp
    by_contra hc
    rw [not_or] at hc
    rw [hD, if_neg hc.2] at hp
    exact hc.1 hp
  refine ⟨fun p => (h.le p).trans (hle p), fun p hp => ?_, fun p r hp hr => ?_, h.stops, ?_, ?_, ?_⟩
  · rcases hlost p hp with hp | rfl
    · exact h.crossing p hp
    · exact hcross
  · rcases hlost p hp with hp | rfl
    · exact h.best p r hp hr
    · have h0 := hbest r hr
      have h1 := h.le r
      have h2 := hle r
      omega
  · have hsum : ∑ p ∈ Finset.range N, D p = ∑ p ∈ Finset.range N, D₁ p + m := by
      rw [Finset.sum_congr rfl fun p _ => hD p, Finset.sum_add_distrib, Finset.sum_ite_eq,
        if_pos (Finset.mem_range.2 hp₀)]
    have htotal := h.total
    omega
  · intro p hp
    rw [hD, h.below p hp, if_neg (by omega)]
  · exact h.rem_le.trans (Nat.sub_le _ _)

/-- A match that has taken less at one price has filled everything and touched nothing
behind it, so it has taken less altogether. -/
theorem not_lt (h₁ : GreedyFill N side limit qty D D₁ rem₁)
    (h₂ : GreedyFill N side limit qty D D₂ rem₂) (p : ℕ) : ¬ D₁ p < D₂ p := by
  intro hp
  have hlt₁ : D₁ p < D p := lt_of_lt_of_le hp (h₂.le p)
  have hcross := h₁.crossing p hlt₁
  have hpN : p < N := by
    by_contra hc
    have := h₂.below p (by omega)
    omega
  have hrem₂ : rem₂ = 0 := by
    by_contra hr
    have := h₂.stops (Nat.pos_of_ne_zero hr) p hcross
    omega
  have hle : ∀ r ∈ Finset.range N, D₁ r ≤ D₂ r := by
    intro r _
    by_cases hrp : r = p
    · rw [hrp]
      exact le_of_lt hp
    · rcases better_total side.opposite hrp with hr | hr
      · rw [h₁.best p r hlt₁ hr]
        exact Nat.zero_le _
      · -- a worse price, which the second match has not come to
        have hge : ¬ D₂ r < D r := fun hr' => by
          have := h₂.best r p hr' hr
          omega
        exact (h₁.le r).trans (Nat.not_lt.1 hge)
  have hsum := Finset.sum_lt_sum hle ⟨p, Finset.mem_range.2 hpN, hp⟩
  have ht₁ := h₁.total
  have ht₂ := h₂.total
  have hr₁ := h₁.rem_le
  omega

theorem unique (h₁ : GreedyFill N side limit qty D D₁ rem₁)
    (h₂ : GreedyFill N side limit qty D D₂ rem₂) : D₁ = D₂ ∧ rem₁ = rem₂ := by
  have hD : D₁ = D₂ := by
    funext p
    have h := h₁.not_lt h₂ p
    have h' := h₂.not_lt h₁ p
    omega
  have ht₁ := h₁.total
  have ht₂ := h₂.total
  rw [hD] at ht₁
  exact ⟨hD, by omega⟩

end GreedyFill

/-! ### The price-time book -/

variable {K : Constants}

/-- Prices and quantities of resting orders. -/
def priceQty (l : List (RestingOrder K)) : List (ℕ × ℕ) := l.map fun o => (o.price, o.qty)

/-- The quantity resting at a side and price. -/
def PriceTimeBook.depth (a : PriceTimeBook K) (side : Side) (p : ℕ) : ℕ :=
  depthAt (priceQty (a.orders side)) p

theorem enqueue_perm (side : Side) (o : RestingOrder K) (l : List (RestingOrder K)) :
    (enqueue side o l).Perm (o :: l) := by
  rw [enqueue]
  refine List.perm_middle.trans (List.Perm.of_eq ?_)
  rw [List.takeWhile_append_dropWhile]

theorem depthAt_enqueue (side : Side) (o : RestingOrder K) (l : List (RestingOrder K)) (p : ℕ) :
    depthAt (priceQty (enqueue side o l)) p =
      depthAt (priceQty l) p + if o.price = p then o.qty else 0 := by
  have hdepth : depthAt (priceQty (enqueue side o l)) p = depthAt (priceQty (o :: l)) p :=
    depthAt_perm ((enqueue_perm side o l).map _)
  rw [hdepth, priceQty, List.map_cons, depthAt_cons, Nat.add_comm]
  rfl

/-- Nothing in a sorted list is better than its first order. -/
theorem depthAt_of_better {side : Side} {o : RestingOrder K} {l : List (RestingOrder K)}
    (hs : PriceSorted side (o :: l)) {r : ℕ} (hr : better side r o.price = true) :
    depthAt (priceQty (o :: l)) r = 0 := by
  refine depthAt_eq_zero fun a ha hp => ?_
  obtain ⟨x, hx, rfl⟩ := List.mem_map.1 ha
  change x.price = r at hp
  rw [← hp] at hr
  rcases List.mem_cons.1 hx with rfl | hx
  · rw [PriceLevelOrderBook.better_irrefl] at hr
    cases hr
  · rw [(List.pairwise_cons.1 hs).1 x hx] at hr
    cases hr

theorem consume_greedy {side : Side} (limit qty : ℕ) {N : ℕ} {l : List (RestingOrder K)}
    (hs : PriceSorted side.opposite l) (hN : ∀ o ∈ l, o.price < N) :
    GreedyFill N side limit qty (depthAt (priceQty l))
      (depthAt (priceQty (consume side limit qty l).1)) (consume side limit qty l).2 := by
  have hbelow : ∀ {l : List (RestingOrder K)}, (∀ o ∈ l, o.price < N) →
      ∀ p, N ≤ p → depthAt (priceQty l) p = 0 := by
    intro l hl p hp
    refine depthAt_eq_zero fun a ha => ?_
    obtain ⟨x, hx, rfl⟩ := List.mem_map.1 ha
    exact Nat.ne_of_lt (Nat.lt_of_lt_of_le (hl x hx) hp)
  induction l generalizing qty with
  | nil => exact .refl (fun _ _ _ => rfl) (hbelow hN)
  | cons o rest ih =>
    have hNrest : ∀ x ∈ rest, x.price < N := fun x hx => hN x (List.mem_cons_of_mem o hx)
    have hstops : (consume side limit qty (o :: rest)).2 ≠ 0 →
        ∀ x ∈ (consume side limit qty (o :: rest)).1, crosses side limit x.price = false :=
      consume_stops hs
    rw [consume] at hstops ⊢
    split
    · next hstop =>
      rw [if_pos hstop] at hstops
      refine .refl (fun hq p hp => depthAt_eq_zero fun a ha => ?_) (hbelow hN)
      obtain ⟨x, hx, rfl⟩ := List.mem_map.1 ha
      rintro rfl
      rw [hstops (Nat.pos_iff_ne_zero.1 hq) x hx] at hp
      cases hp
    · next hgo =>
      rw [not_or, not_not] at hgo
      have hbest : ∀ r, better side.opposite r o.price = true →
          depthAt (priceQty (o :: rest)) r = 0 := fun r hr => depthAt_of_better hs hr
      split
      · next hlt =>
        -- the order is filled in part, and the match is over
        have hend : GreedyFill N side limit (qty - qty)
            (depthAt (priceQty ({ o with qty := o.qty - qty } :: rest)))
            (depthAt (priceQty ({ o with qty := o.qty - qty } :: rest))) 0 := by
          rw [Nat.sub_self]
          refine .refl (fun h => absurd h (lt_irrefl 0)) (hbelow fun x hx => ?_)
          rcases List.mem_cons.1 hx with rfl | hx
          · exact hN o List.mem_cons_self
          · exact hNrest x hx
        refine .step o.price hgo.2 hbest (hN o List.mem_cons_self) (fun p => ?_) (le_refl qty) hend
        simp only [priceQty, List.map_cons, depthAt_cons]
        split <;> omega
      · next hge =>
        refine .step o.price hgo.2 hbest (hN o List.mem_cons_self) (m := o.qty) (fun p => ?_)
          (Nat.not_lt.1 hge) (ih _ (List.pairwise_cons.1 hs).2 hNrest)
        rw [priceQty, List.map_cons, depthAt_cons, Nat.add_comm]
        rfl
