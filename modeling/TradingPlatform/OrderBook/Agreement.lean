/-
The two order books agree.

Both books answer a new order with a match that serves the best prices first, and
leave the rest of the order on its side.  `GreedyFill.unique` makes the depth after
it, and how much of the order was filled, the same in both.

* `PriceTimeBook.place_greedy` — the price-level book, through its lists;
* `Agree.step` — one event on two books that agree;
* `books_agree` — every run of fewer events than a book has room for.
-/
import TradingPlatform.OrderBook.Flat

variable {K : Constants}

/-! ### The price-time book -/

theorem length_consume_le (side : Side) (limit : ℕ) (l : List (RestingOrder K)) (qty : ℕ) :
    (consume side limit qty l).1.length ≤ l.length := by
  induction l generalizing qty with
  | nil => exact le_refl _
  | cons o rest ih =>
    rw [consume]
    split
    · exact le_refl _
    · split
      · exact le_refl _
      · exact (ih _).trans (Nat.le_succ _)

namespace PriceTimeBook

/-- What `place` does to the depth and what it posts, while there is room. -/
theorem place_greedy {a : PriceTimeBook K} (o : InternalOrder K) {side : Side}
    (newId : BookOrderId K) {N : ℕ}
    (hs : PriceSorted side.opposite (a.orders side.opposite))
    (hN : ∀ x ∈ a.orders side.opposite, x.price < N)
    (hroom : a.count < K.maxBookOrders.val - 1) :
    ∃ rem st, GreedyFill N side o.price o.quantity.toNat (a.depth side.opposite)
        ((a.place o side newId).1.depth side.opposite) rem ∧
      (∀ p, (a.place o side newId).1.depth side p =
        a.depth side p + if o.price = p then rem else 0) ∧
      (a.place o side newId).2 = [.status st] ∧ st.fillQty.toNat + rem = o.quantity.toNat ∧
      (st.state = .Full ↔ rem = 0) ∧ (a.place o side newId).1.count ≤ a.count + 1 := by
  have hgreedy := consume_greedy o.price o.quantity.toNat hs hN
  have hlen := length_consume_le side o.price (a.orders side.opposite) o.quantity.toNat
  have hle := hgreedy.rem_le
  have hlt := o.quantity.toNat_lt
  rw [place]
  generalize consume side o.price o.quantity.toNat (a.orders side.opposite) = r at hgreedy hlen hle
  have hcount : (a.setOrders side.opposite r.1).count ≤ a.count := by
    rw [count_eq _ side, count_eq a side, orders_opposite_setOrders, orders_setOrders_self]
    omega
  by_cases hrem : r.2 = 0
  · -- filled completely
    simp only [if_pos hrem]
    refine ⟨0, _, ?_, fun p => ?_, rfl, rfl, ⟨fun _ => rfl, fun _ => rfl⟩, by omega⟩
    · rw [hrem] at hgreedy
      show GreedyFill _ _ _ _ _ (depthAt (priceQty ((a.setOrders _ r.1).orders side.opposite))) 0
      rw [orders_setOrders_self]
      exact hgreedy
    · rw [depth, orders_opposite_setOrders, ite_self]
      rfl
  · have hfull : ¬ K.maxBookOrders.val - 1 ≤ (a.setOrders side.opposite r.1).count := by omega
    simp only [if_neg hrem, if_neg hfull]
    refine ⟨r.2, _, ?_, fun p => ?_, rfl, ?_, ?_, ?_⟩
    · show GreedyFill _ _ _ _ _ (depthAt (priceQty
        (((a.setOrders side.opposite r.1).setOrders side _).orders side.opposite))) r.2
      rw [orders_setOrders_opposite, orders_setOrders_self]
      exact hgreedy
    · rw [depth, orders_setOrders_self, orders_opposite_setOrders, depthAt_enqueue]
      rfl
    · show (UInt32.ofNat (o.quantity.toNat - r.2)).toNat + r.2 = _
      rw [UInt32.toNat_ofNat', Nat.mod_eq_of_lt (by omega)]
      omega
    · refine ⟨fun hst => ?_, fun h0 => absurd h0 hrem⟩
      -- what rests is accepted or filled in part
      change (if _ = 0 then OrderState.Accepted else .Partial) = .Full at hst
      split at hst <;> cases hst
    · rw [count_eq _ side, orders_setOrders_self, orders_setOrders_opposite, orders_setOrders_self,
        orders_opposite_setOrders, count_eq a side]
      have henq : (enqueue side ⟨newId, o.id, o.price, r.2⟩ (a.orders side)).length =
          (a.orders side).length + 1 := by
        rw [(enqueue_perm side _ _).length_eq, List.length_cons]
      omega

end PriceTimeBook

/-! ### Two books -/

/-- The quantity resting at a side and price of the price-level book. -/
def PriceLevelOrderBook.depth (b : PriceLevelOrderBook K) (side : Side) (p : ℕ) : ℕ :=
  b.orders.depth side p

/-- The quantity resting at a side and price of the flat book. -/
def FlatOrderBook.depth (f : FlatOrderBook K) (side : Side) (p : ℕ) : ℕ :=
  depthAt (FlatOrderBook.flatQty (f.orders side)) p

/-- The price-level book posts one status, and the flat book reports the same filled
quantity, as a full fill or not. -/
def SameFill (msgs : List (BookMessage K)) (statuses : List (InternalOrderStatus K)) : Prop :=
  ∃ st, msgs = [.status st] ∧ (statuses.map (·.fillQty.toNat)).sum = st.fillQty.toNat ∧
    ((∃ st' ∈ statuses, st'.state = .Full) ↔ st.state = .Full)

/-- A Buy or Sell order the books accept. -/
structure NewOrder (ioe : InternalOrderEvent K) : Prop where
  action : ioe.action = .Buy ∨ ioe.action = .Sell
  quantity : 1 ≤ ioe.order.quantity.toNat
  price : ioe.order.price < K.maxTicks

/-- Fewer events than a book has room for, with different ids. -/
structure NewOrders (events : List (InternalOrderEvent K)) : Prop where
  few : events.length < K.maxBookOrders.val
  distinct : (events.map (·.order.id)).Nodup
  new : ∀ ioe ∈ events, NewOrder ioe

/-- The two books after the same orders `ids`. -/
structure Agree (b : PriceLevelOrderBook K) (f : FlatOrderBook K)
    (ids : List (SystemOrderId K)) : Prop where
  rep : ∃ q, PriceLevelOrderBook.Rep b q
  ordered : f.Ordered K.maxTicks ids
  depth : ∀ side p, b.depth side p = f.depth side p
  count : b.orders.count ≤ ids.length

variable {H : HeapAlgorithms (InternalOrder K)} {b : PriceLevelOrderBook K} {f : FlatOrderBook K}
  {ids : List (SystemOrderId K)}

theorem PriceLevelOrderBook.Rep.orders_price {q : Side → ℕ → List ℕ}
    (h : PriceLevelOrderBook.Rep b q) {side : Side} {x : RestingOrder K}
    (hx : x ∈ b.orders.orders side) : x.price < K.maxTicks := by
  rw [h.orders_side, PriceLevelOrderBook.mem_listing] at hx
  obtain ⟨p, hp, i, hi, rfl⟩ := hx
  rw [show (b.order i).price = p from h.queues.price side p i hi]
  exact hp

/-- The depth of the flat book's own side after a match. -/
theorem FlatOrderBook.Matched.own_depth {N : ℕ} {side : Side} {o : InternalOrder K}
    {own₀ opp : List (InternalOrder K)} {q rem : Quantity} {f : FlatOrderBook K}
    {statuses : List (InternalOrderStatus K)}
    (h : FlatOrderBook.Matched N side o own₀ opp q f statuses rem) (p : ℕ) :
    f.depth side p = depthAt (flatQty own₀) p + if o.price = p then rem.toNat else 0 := by
  rw [FlatOrderBook.depth, FlatOrderBook.flatQty_perm h.own_perm]
  split
  · next h0 =>
    rw [h0, UInt32.toNat_zero, ite_self]
    rfl
  · rw [FlatOrderBook.flatQty, List.map_cons, depthAt_cons, Nat.add_comm]
    rfl

/-- One more order on two books that agree. -/
theorem Agree.step (h : Agree b f ids) {ioe : InternalOrderEvent K} (hnew : NewOrder ioe)
    (hid : ioe.order.id ∉ ids) (hroom : ids.length + 1 < K.maxBookOrders.val) :
    ∃ b' msgs f' statuses, b.Adds ioe msgs b' ∧ FlatOrderBook.Adds H f ioe statuses f' ∧
      Agree b' f' (ids ++ [ioe.order.id]) ∧ SameFill msgs statuses := by
  obtain ⟨q, hrep⟩ := h.rep
  have hact : ioe.action ≠ .Cancel := by
    rcases hnew.action with hb | hs
    · rw [hb]
      exact OrderAction.noConfusion
    · rw [hs]
      exact OrderAction.noConfusion
  obtain ⟨b', q', msgs, ret, newId, hadd, hrep', -, hplace⟩ :=
    PriceLevelOrderBook.add_place_spec hrep hact hnew.price (Nat.lt_succ_self _)
  obtain ⟨f', statuses, rem, hadds, hordered, hmatched⟩ :=
    FlatOrderBook.add_spec (H := H) h.ordered hid hnew.quantity hnew.price (by omega)
  have hcount := h.count
  generalize PriceLevelOrderBook.getSide ioe.action = side at hplace hmatched
  obtain ⟨rem', st, hgreedy, hown, hmsg, hfill, hfull, hcount'⟩ :=
    PriceTimeBook.place_greedy ioe.order newId (hrep.sorted side.opposite)
      (fun x hx => hrep.orders_price hx) (by omega)
  rw [hplace] at hgreedy hown hmsg hcount'
  -- both matches start from the same depth
  have hstart : b.orders.depth side.opposite =
      depthAt (FlatOrderBook.flatQty (f.orders side.opposite)) := funext (h.depth side.opposite)
  rw [hstart] at hgreedy
  obtain ⟨hopp, hrem⟩ := hgreedy.unique hmatched.greedy
  have hfilled := hmatched.filled
  refine ⟨b', msgs, f', statuses, ⟨_, ret, hadd⟩, hadds, ⟨⟨q', hrep'⟩, hordered, ?_, ?_⟩, st, hmsg,
    by omega, ?_⟩
  · refine FlatOrderBook.forall_side side (fun p => ?_) fun p => congrFun hopp p
    rw [PriceLevelOrderBook.depth, hown p, hmatched.own_depth p, hrem]
    exact congrArg (· + _) (h.depth side p)
  · rw [List.length_append, List.length_singleton]
    exact hcount'.trans (Nat.succ_le_succ hcount)
  · rw [hmatched.full, hfull, hrem, ← UInt32.toNat_inj, UInt32.toNat_zero]

/-! ### Runs -/

/-- The same events on both books, labelled with what each of them posts. -/
def bothBooks (H : HeapAlgorithms (InternalOrder K)) :
    Machine (PriceLevelOrderBook K × FlatOrderBook K)
      (InternalOrderEvent K × List (BookMessage K) × List (InternalOrderStatus K)) where
  init s := s = (.fresh K, .empty)
  step s e s' := s.1.Adds e.1 e.2.1 s'.1 ∧ FlatOrderBook.Adds H s.2 e.1 e.2.2 s'.2

theorem Agree.start : Agree (.fresh K) .empty ([] : List (SystemOrderId K)) where
  rep := ⟨_, PriceLevelOrderBook.Rep.fresh⟩
  ordered := .empty _
  depth side p := by
    rw [PriceLevelOrderBook.depth, PriceLevelOrderBook.fresh_orders]
    cases side <;> rfl
  count := by
    rw [PriceLevelOrderBook.fresh_orders]
    exact le_refl _

namespace NewOrders

variable {events : List (InternalOrderEvent K)} {ioe : InternalOrderEvent K}

/-- The orders before the last one are new orders too. -/
theorem init (h : NewOrders (events ++ [ioe])) : NewOrders events where
  few := by
    have hfew := h.few
    rw [List.length_append] at hfew
    omega
  distinct := by
    have hdistinct := h.distinct
    rw [List.map_append] at hdistinct
    exact (List.nodup_append.1 hdistinct).1
  new e he := h.new e (List.mem_append_left _ he)

theorem last (h : NewOrders (events ++ [ioe])) :
    NewOrder ioe ∧ ioe.order.id ∉ events.map (·.order.id) ∧
      events.length + 1 < K.maxBookOrders.val := by
  refine ⟨h.new ioe (List.mem_append_right _ (List.mem_singleton_self _)), fun hmem => ?_, ?_⟩
  · have hdistinct := h.distinct
    rw [List.map_append] at hdistinct
    exact (List.nodup_append.1 hdistinct).2.2 _ hmem _ List.mem_cons_self rfl
  · have hfew := h.few
    rw [List.length_append, List.length_singleton] at hfew
    exact hfew

end NewOrders

variable {es : List (InternalOrderEvent K × List (BookMessage K) × List (InternalOrderStatus K))}
  {s : PriceLevelOrderBook K × FlatOrderBook K}

theorem Agree.run (h : (bothBooks H).Run es s) (hnew : NewOrders (es.map Prod.fst)) :
    Agree s.1 s.2 ((es.map Prod.fst).map (·.order.id)) ∧ ∀ e ∈ es, SameFill e.2.1 e.2.2 := by
  induction h with
  | start h0 =>
    obtain rfl := h0
    exact ⟨Agree.start, fun e he => absurd he List.not_mem_nil⟩
  | @snoc es s e s' hrun hs ih =>
    rw [List.map_append] at hnew ⊢
    obtain ⟨hagree, hsame⟩ := ih hnew.init
    obtain ⟨hlast, hid, hroom⟩ := hnew.last
    obtain ⟨b', msgs, f', statuses, hadds, hadds', hagree', hfill⟩ :=
      hagree.step (H := H) hlast hid (by rw [List.length_map]; exact hroom)
    -- the calls of the run are these
    obtain ⟨hmsgs, hb⟩ := hs.1.det hadds
    obtain ⟨hstatuses, hf⟩ := hs.2.det hadds'
    rw [hb, hf, List.map_append]
    refine ⟨hagree', fun e' he' => ?_⟩
    rcases List.mem_append.1 he' with he' | he'
    · exact hsame e' he'
    · obtain rfl := List.mem_singleton.1 he'
      rw [hmsgs, hstatuses]
      exact hfill

/-- After every run of fewer Buy and Sell orders than a book has room for, with
different ids, both books hold the same quantity at every side and price, every
order was answered with the same filled quantity and as a full fill by both or by
neither; and both books answer every further such order. -/
theorem books_agree (h : (bothBooks H).Run es s) (hnew : NewOrders (es.map Prod.fst)) :
    (∀ side p, s.1.depth side p = s.2.depth side p) ∧ (∀ e ∈ es, SameFill e.2.1 e.2.2) ∧
    ∀ ioe, NewOrders (es.map Prod.fst ++ [ioe]) →
      ∃ msgs statuses s', (bothBooks H).step s (ioe, msgs, statuses) s' := by
  obtain ⟨hagree, hsame⟩ := Agree.run h hnew
  refine ⟨hagree.depth, hsame, fun ioe hioe => ?_⟩
  obtain ⟨hlast, hid, hroom⟩ := hioe.last
  obtain ⟨b', msgs, f', statuses, hadds, hadds', -, -⟩ :=
    hagree.step (H := H) hlast hid (by rw [List.length_map]; exact hroom)
  exact ⟨msgs, statuses, (b', f'), hadds, hadds'⟩

/-- Every list of new orders has its run. -/
theorem exists_run_of_newOrders (H : HeapAlgorithms (InternalOrder K))
    {events : List (InternalOrderEvent K)} (hnew : NewOrders events) :
    ∃ es s, (bothBooks H).Run es s ∧ es.map Prod.fst = events := by
  induction events using List.reverseRecOn with
  | nil => exact ⟨[], _, .start rfl, rfl⟩
  | append_singleton events ioe ih =>
    obtain ⟨es, s, hrun, rfl⟩ := ih hnew.init
    obtain ⟨hlast, hid, hroom⟩ := hnew.last
    obtain ⟨b', msgs, f', statuses, hadds, hadds', -, -⟩ :=
      (Agree.run hrun hnew.init).1.step (H := H) hlast hid (by rw [List.length_map]; exact hroom)
    exact ⟨es ++ [(ioe, msgs, statuses)], (b', f'), hrun.snoc ⟨hadds, hadds'⟩, List.map_append⟩

/-- A sell order, a larger buy order that takes it, and another sell order. -/
def threeOrders : List (InternalOrderEvent .cicd) :=
  [⟨⟨⟨1⟩, ⟨0⟩, 5, 10⟩, (65, 65, 80, 76), .Sell⟩, ⟨⟨⟨2⟩, ⟨0⟩, 8, 12⟩, (65, 65, 80, 76), .Buy⟩,
    ⟨⟨⟨3⟩, ⟨0⟩, 4, 20⟩, (65, 65, 80, 76), .Sell⟩]

theorem books_agree_threeOrders : ∃ es s, (bothBooks (.sorting _)).Run es s ∧
    es.map Prod.fst = threeOrders ∧ NewOrders (es.map Prod.fst) ∧
    (∀ side p, s.1.depth side p = s.2.depth side p) ∧ ∀ e ∈ es, SameFill e.2.1 e.2.2 := by
  have hnew : NewOrders threeOrders := by
    refine ⟨by decide, by decide, ?_⟩
    intro ioe hioe
    rw [threeOrders] at hioe
    simp only [List.mem_cons, List.not_mem_nil, or_false] at hioe
    rcases hioe with rfl | rfl | rfl
    · exact ⟨.inr rfl, by decide, by decide⟩
    · exact ⟨.inl rfl, by decide, by decide⟩
    · exact ⟨.inr rfl, by decide, by decide⟩
  obtain ⟨es, s, hrun, hes⟩ := exists_run_of_newOrders (.sorting _) hnew
  rw [← hes] at hnew
  obtain ⟨hdepth, hsame, -⟩ := books_agree hrun hnew
  exact ⟨es, s, hrun, hes, hnew, hdepth, hsame⟩
