/-
The price-level book refines the price-time book.

* `Adds.det` — how much fuel a call of `add` gets does not matter once it
  returns;
* `add_new_spec` — a Buy or Sell event is a `consume` of the opposite side,
  followed by a full status or by the rest of the order coming to rest;
* `add_spec` — every admissible call returns, keeps the invariant, and is a
  step of the abstract book;
* `bookMachine_refines` — the same for whole runs.
-/
import TradingPlatform.OrderBook.Match
import TradingPlatform.OrderBook.Rest
import TradingPlatform.OrderBook.Cancel
import TradingPlatform.Lib.Machine

namespace PriceLevelOrderBook

variable {K : Constants} {b b' : PriceLevelOrderBook K} {q : Side → ℕ → List ℕ}

/-! ### Fuel -/

theorem fillLevel_mono {side : Side} {price : ℕ} :
    ∀ {fuel fuel' : ℕ} {b : PriceLevelOrderBook K} {rem : Quantity}
      {r : PriceLevelOrderBook K × Quantity},
      fuel ≤ fuel' → fillLevel side price fuel b rem = some r →
      fillLevel side price fuel' b rem = some r := by
  intro fuel
  induction fuel with
  | zero =>
    intro fuel' b rem r _ h
    exact absurd h (by simp [fillLevel])
  | succ fuel ih =>
    intro fuel' b rem r hle h
    obtain ⟨m, rfl⟩ : ∃ m, fuel' = m + 1 := ⟨fuel' - 1, by omega⟩
    rw [fillLevel] at h ⊢
    split at h
    · next hgo =>
      rw [if_pos hgo]
      exact ih (by omega) h
    · next hgo =>
      rw [if_neg hgo]
      exact h

theorem matchLoop_mono {side : Side} {price : ℕ} :
    ∀ {fuel fuel' : ℕ} {b : PriceLevelOrderBook K} {rem : Quantity}
      {r : PriceLevelOrderBook K × Quantity},
      fuel ≤ fuel' → matchLoop side price fuel b rem = some r →
      matchLoop side price fuel' b rem = some r := by
  intro fuel
  induction fuel with
  | zero =>
    intro fuel' b rem r _ h
    exact absurd h (by simp [matchLoop])
  | succ fuel ih =>
    -- both runs take the same branch at every iteration
    intro fuel' b rem r hle h
    obtain ⟨m, rfl⟩ : ∃ m, fuel' = m + 1 := ⟨fuel' - 1, by omega⟩
    rw [matchLoop] at h ⊢
    by_cases hpos : 0 < rem
    · rw [if_pos hpos] at h ⊢
      by_cases hbeyond : b.bestIsBeyond side price = true
      · rw [if_pos hbeyond] at h ⊢
        exact h
      · rw [if_neg hbeyond] at h ⊢
        rcases hg : b.getBest side price with _ | best
        · rw [hg] at h
          exact h
        · rw [hg] at h
          simp only at h ⊢
          by_cases hhead : (b.level side.opposite best).head = 0
          · rw [if_pos hhead] at h ⊢
            exact ih (by omega) h
          · rw [if_neg hhead] at h ⊢
            rw [Option.bind_eq_some_iff] at h ⊢
            obtain ⟨r', hr', h⟩ := h
            exact ⟨r', fillLevel_mono (by omega) hr', ih (by omega) h⟩
    · rw [if_neg hpos] at h ⊢
      exact h

theorem add_mono {fuel fuel' : ℕ} {ioe : InternalOrderEvent K}
    {r : PriceLevelOrderBook K × List (BookMessage K) × Bool} (hle : fuel ≤ fuel')
    (h : b.add fuel ioe = some r) : b.add fuel' ioe = some r := by
  rw [add] at h ⊢
  split at h
  · next hc =>
    rw [if_pos hc]
    exact h
  · next hc =>
    rw [if_neg hc]
    simp only at h ⊢
    split at h
    · next hp =>
      rw [if_pos hp]
      exact h
    · next hp =>
      rw [if_neg hp]
      rw [Option.map_eq_some_iff] at h ⊢
      obtain ⟨m, hm, h⟩ := h
      exact ⟨m, matchLoop_mono hle hm, h⟩

/-- A call has one outcome. -/
theorem Adds.det {ioe : InternalOrderEvent K} {m m' : List (BookMessage K)}
    {b₁ b₂ : PriceLevelOrderBook K} (h : Adds b ioe m b₁) (h' : Adds b ioe m' b₂) :
    m = m' ∧ b₁ = b₂ := by
  obtain ⟨fuel, ret, h⟩ := h
  obtain ⟨fuel', ret', h'⟩ := h'
  have h1 := add_mono (le_max_left fuel fuel') h
  have h2 := add_mono (le_max_right fuel fuel') h'
  rw [h1, Option.some_inj, Prod.mk.injEq, Prod.mk.injEq] at h2
  exact ⟨h2.2.1, h2.1⟩

/-! ### One call -/

/-- A new order, up to the point where what is left of it comes to rest. -/
theorem add_new_spec (h : Rep b q) {ioe : InternalOrderEvent K} (hact : ioe.action ≠ .Cancel)
    (hp : ioe.order.price < K.maxTicks) {fuel : ℕ} (hfuel : ioe.order.quantity.toNat < fuel) :
    ∃ b₁ q₁ rem, Filled (getSide ioe.action) ioe.order.price b q ioe.order.quantity b₁ q₁ rem ∧
      consume (getSide ioe.action) ioe.order.price ioe.order.quantity.toNat
          (b.listing q (getSide ioe.action).opposite) =
        (b₁.listing q₁ (getSide ioe.action).opposite, rem.toNat) ∧
      (rem = 0 ∧ b.add fuel ioe = some (b₁, [.status ⟨ioe.order.id, default, ioe.order.quantity,
          ioe.order.price, .Full⟩], true) ∨
        0 < rem.toNat ∧ b.add fuel ioe = some ((b₁.restOrder ioe.order (getSide ioe.action) rem).1,
          (b₁.restOrder ioe.order (getSide ioe.action) rem).2, true)) := by
  obtain ⟨b₁, q₁, rem, heq, hfill, hend⟩ :=
    matchLoop_spec (getSide ioe.action) ioe.order.price fuel h hfuel
  refine ⟨b₁, q₁, rem, hfill, hfill.rest.trans hend, ?_⟩
  rw [add, if_neg hact]
  simp only [matchOrder, heq, Option.map_some, if_neg (by omega : ¬K.maxTicks ≤ ioe.order.price)]
  by_cases hrem : 0 < rem
  · right
    rw [if_pos hrem]
    exact ⟨UInt32.lt_iff_toNat_lt.mp hrem, rfl⟩
  · left
    rw [if_neg hrem]
    refine ⟨UInt32.toNat_inj.mp ?_, rfl⟩
    rw [UInt32.lt_iff_toNat_lt] at hrem
    exact Nat.eq_zero_of_not_pos hrem

/-- The abstract book after the opposite side has been consumed. -/
theorem Filled.setOrders_eq {side : Side} {limit : ℕ} {rem rem' : Quantity}
    {q' : Side → ℕ → List ℕ} (h : Rep b q) (hf : Filled side limit b q rem b' q' rem') :
    b.orders.setOrders side.opposite (b'.listing q' side.opposite) = b'.orders := by
  rw [h.orders_eq, hf.rep.orders_eq, PriceTimeBook.setOrders.eq_def]
  have hown := hf.own
  cases side with
  | Buy => simp only [Side.opposite, hown]
  | Sell => simp only [Side.opposite, hown]

/-- Resting orders have different names. -/
theorem Rep.distinctNames (h : Rep b q) : b.orders.DistinctNames := by
  have hlist : (b.orders.bids ++ b.orders.asks) = (resting K q).map b.order := by
    rw [h.orders_eq, resting, List.map_append, List.map_flatMap, List.map_flatMap]
    rfl
  rw [PriceTimeBook.DistinctNames, hlist, List.map_map]
  refine List.Nodup.map_on ?_ h.resting_nodup
  intro i hi j hj heq
  obtain ⟨s, p, hi⟩ := h.mem_resting.mp hi
  obtain ⟨s', p', hj⟩ := h.mem_resting.mp hj
  exact (h.queues.eq_of_bookOId hj hi heq)

/-- The abstract book after an order has come to rest. -/
theorem Rep.setOrders_eq {side : Side} {q' : Side → ℕ → List ℕ} (h : Rep b q) (h' : Rep b' q')
    (hopp : b'.listing q' side.opposite = b.listing q side.opposite) :
    b.orders.setOrders side (b'.listing q' side) = b'.orders := by
  rw [h.orders_eq, h'.orders_eq, PriceTimeBook.setOrders.eq_def]
  cases side with
  | Buy =>
    simp only [Side.opposite] at hopp
    simp only [hopp]
  | Sell =>
    simp only [Side.opposite] at hopp
    simp only [hopp]

/-- The events of the runs considered: new orders, and cancels of orders that
rest in the book. -/
def Admissible (b : PriceLevelOrderBook K) (ioe : InternalOrderEvent K) : Prop :=
  ioe.action = .Buy ∨ ioe.action = .Sell ∨
    ioe.action = .Cancel ∧ b.orders.Holds ioe.order.bookOId

theorem exists_isValid (K : Constants) : ∃ id : BookOrderId K, id.isValid = true :=
  ⟨_, SlotId.isValid_nextGen default⟩

/-- The status of an order that comes to rest tells how much of it was filled. -/
theorem fillTtl_eq {x y : Quantity} (h : y.toNat ≤ x.toNat) :
    UInt32.ofNat (x.toNat - y.toNat) = x - y := by
  rw [← UInt32.toNat_inj, toNat_sub_qty h, UInt32.toNat_ofNat']
  exact Nat.mod_eq_of_lt (lt_of_le_of_lt (Nat.sub_le _ _) x.toNat_lt)

theorem add_place_spec (h : Rep b q) {ioe : InternalOrderEvent K} (hact : ioe.action ≠ .Cancel)
    (hp : ioe.order.price < K.maxTicks) {fuel : ℕ} (hfuel : ioe.order.quantity.toNat < fuel) :
    ∃ b' q' msgs ret newId, b.add fuel ioe = some (b', msgs, ret) ∧ Rep b' q' ∧
      newId.isValid = true ∧
      b.orders.place ioe.order (getSide ioe.action) newId = (b'.orders, msgs) := by
  obtain ⟨b₁, q₁, rem, hfill, hcons, hcase⟩ := add_new_spec h hact hp hfuel
  obtain ⟨id₀, hid₀⟩ := exists_isValid K
  have hle := hfill.le
  have hset := hfill.setOrders_eq h
  rcases hcase with ⟨hrem, hadd⟩ | ⟨hrem, hadd⟩
  · -- filled completely; no handle is given, so any name will do
    refine ⟨_, q₁, _, _, id₀, hadd, hfill.rep, hid₀, ?_⟩
    have hz : rem.toNat = 0 := by
      rw [hrem]
      rfl
    simp only [PriceTimeBook.place, h.orders_side, hcons, hset, hz, if_true]
  · have hne : rem.toNat ≠ 0 := by omega
    rcases restOrder_spec hfill.rep (getSide ioe.action) hp hrem with
      ⟨q', id, hrep, hcount, hid, _, _, hmsg, hown, hopp⟩ | ⟨hcount, hrest⟩
    · refine ⟨_, q', _, _, id, hadd, hrep, hid, ?_⟩
      have hset' := hfill.rep.setOrders_eq hrep hopp
      rw [hown] at hset'
      have hzero : ioe.order.quantity.toNat - rem.toNat = 0 ↔ ioe.order.quantity - rem = 0 := by
        rw [← UInt32.toNat_inj, toNat_sub_qty hle, UInt32.toNat_zero]
      simp only [PriceTimeBook.place, h.orders_side, hcons, hset, hne, if_false,
        if_neg (by omega : ¬K.maxBookOrders.val - 1 ≤ b₁.orders.count), hfill.rep.orders_side,
        hset', hmsg, fillTtl_eq hle, hzero]
    · rw [hrest] at hadd
      refine ⟨_, q₁, _, _, id₀, hadd, hfill.rep, hid₀, ?_⟩
      simp only [PriceTimeBook.place, h.orders_side, hcons, hset, hne, if_false, hcount, le_refl,
        if_true]

/-- Every admissible call returns, keeps the invariant, and does what the
abstract book does. -/
theorem add_spec (h : Rep b q) {ioe : InternalOrderEvent K} (ha : b.Admissible ioe) {fuel : ℕ}
    (hfuel : ioe.order.quantity.toNat < fuel) :
    ∃ b' q' msgs ret newId, b.add fuel ioe = some (b', msgs, ret) ∧ Rep b' q' ∧
      newId.isValid = true ∧ b.orders.add ioe newId = (b'.orders, msgs) := by
  by_cases hc : ioe.action = .Cancel
  · have hh : b.orders.Holds ioe.order.bookOId := by
      rcases ha with ha | ha | ha
      · exact OrderAction.noConfusion (ha.symm.trans hc)
      · exact OrderAction.noConfusion (ha.symm.trans hc)
      · exact ha.2
    obtain ⟨id₀, hid₀⟩ := exists_isValid K
    obtain ⟨q', hrep, hmsg, horders⟩ := cancelOrder_spec h hh
    refine ⟨_, q', _, true, id₀, by rw [add, if_pos hc], hrep, hid₀, ?_⟩
    simp only [PriceTimeBook.add, if_pos hc, if_pos hh, horders, hmsg]
  · by_cases hp : K.maxTicks ≤ ioe.order.price
    · obtain ⟨id₀, hid₀⟩ := exists_isValid K
      refine ⟨b, q, [], false, id₀, ?_, h, hid₀, ?_⟩
      · rw [add, if_neg hc]
        exact if_pos hp
      · rw [PriceTimeBook.add, if_neg hc]
        exact if_pos hp
    · obtain ⟨b', q', msgs, ret, id, hadd, hrep, hid, hplace⟩ :=
        add_place_spec h hc (by omega) hfuel
      refine ⟨b', q', msgs, ret, id, hadd, hrep, hid, ?_⟩
      rw [PriceTimeBook.add, if_neg hc]
      simp only [if_neg hp, hplace]

/-! ### Runs -/

/-- Calls of `add`, labelled with the event and the messages it posts. -/
def bookMachine (K : Constants) :
    Machine (PriceLevelOrderBook K) (InternalOrderEvent K × List (BookMessage K)) where
  init b := b = fresh K
  step b e b' := Adds b e.1 e.2 b'

/-- The runs in which every event is admissible when it comes. -/
def admissibleRuns (K : Constants) :
    Machine (PriceLevelOrderBook K) (InternalOrderEvent K × List (BookMessage K)) :=
  (bookMachine K).restrict fun b e => b.Admissible e.1

/-- The abstract book.  The name of an order that comes to rest is valid and
not the name of any other resting order. -/
def priceTimeMachine (K : Constants) :
    Machine (PriceTimeBook K) (InternalOrderEvent K × List (BookMessage K)) where
  init a := a = .empty
  step a e a' := ∃ newId, newId.isValid = true ∧ a.add e.1 newId = (a', e.2) ∧ a'.DistinctNames

instance (b : PriceLevelOrderBook K) (ioe : InternalOrderEvent K) :
    Decidable (b.Admissible ioe) :=
  inferInstanceAs (Decidable (_ ∨ _ ∨ _ ∧ _))

/-- A call of `add` that posts the messages of the label. -/
def addStep (fuel : ℕ) (b : PriceLevelOrderBook K)
    (e : InternalOrderEvent K × List (BookMessage K)) : Option (PriceLevelOrderBook K) :=
  (b.add fuel e.1).bind fun r => if r.2.1 = e.2 then some r.1 else none

theorem step_of_addStep {fuel : ℕ} {e : InternalOrderEvent K × List (BookMessage K)}
    (h : b.addStep fuel e = some b') : (bookMachine K).step b e b' := by
  rw [addStep, Option.bind_eq_some_iff] at h
  obtain ⟨⟨b₁, msgs, ret⟩, hadd, h⟩ := h
  split at h
  · next hm =>
    obtain rfl := Option.some_inj.mp h
    exact ⟨fuel, ret, by rw [hadd, ← hm]⟩
  · exact absurd h (by simp)

/-- What every step of an admissible run does. -/
theorem admissible_step (h : Rep b q) {e : InternalOrderEvent K × List (BookMessage K)}
    (hs : (admissibleRuns K).step b e b') :
    ∃ q', Rep b' q' ∧ (priceTimeMachine K).step b.orders e b'.orders := by
  obtain ⟨ha, hadds⟩ := hs
  obtain ⟨b₁, q', msgs, ret, id, hadd, hrep, hid, habs⟩ := add_spec h ha (Nat.lt_succ_self _)
  obtain ⟨hm, rfl⟩ := hadds.det ⟨_, ret, hadd⟩
  refine ⟨q', hrep, id, hid, ?_, hrep.distinctNames⟩
  rw [hm]
  exact habs

/-- The invariant holds along every admissible run. -/
theorem admissible_rep {es : List (InternalOrderEvent K × List (BookMessage K))}
    (h : (admissibleRuns K).Run es b) : ∃ q, Rep b q := by
  refine Machine.Run.invariant (I := fun b => ∃ q, Rep b q) ?_ ?_ h
  · rintro s rfl
    exact ⟨_, Rep.fresh⟩
  · rintro s e s' ⟨q, hq⟩ hs
    obtain ⟨q', hrep, _⟩ := admissible_step hq hs
    exact ⟨q', hrep⟩

theorem fresh_orders (K : Constants) : (fresh K).orders = .empty := by
  rw [Rep.fresh.orders_eq]
  simp [listing, PriceTimeBook.empty]

/-- A book and its lists, step by step. -/
theorem simulation (K : Constants) : Machine.Simulation (admissibleRuns K) (priceTimeMachine K)
    fun b a => (∃ q, Rep b q) ∧ b.orders = a where
  init := by
    rintro s rfl
    exact ⟨.empty, rfl, ⟨_, Rep.fresh⟩, fresh_orders K⟩
  step := by
    rintro s e s' t ⟨⟨q, hq⟩, rfl⟩ hs
    obtain ⟨q', hrep, hstep⟩ := admissible_step hq hs
    exact ⟨s'.orders, hstep, ⟨q', hrep⟩, rfl⟩

/-- **Price-time priority.**  Every run of new orders and cancels of resting
orders is a run of the abstract book with the same messages, ending in the
lists of the book; and in no state of such a run does a further event of these
kinds fail to return. -/
theorem bookMachine_refines {es : List (InternalOrderEvent K × List (BookMessage K))}
    (h : (admissibleRuns K).Run es b) :
    (priceTimeMachine K).Run es b.orders ∧
      ∀ ioe, b.Admissible ioe → ∃ msgs b', Adds b ioe msgs b' := by
  constructor
  · obtain ⟨a, hrun, _, rfl⟩ := (simulation K).run h
    exact hrun
  · intro ioe ha
    obtain ⟨q, hq⟩ := admissible_rep h
    obtain ⟨b', _, msgs, ret, _, hadd, _⟩ := add_spec hq ha (Nat.lt_succ_self _)
    exact ⟨msgs, b', _, ret, hadd⟩

/-- A sell order comes to rest, a larger buy order takes it and rests for what
is left, another sell order comes to rest, and the buy order is cancelled. -/
def tradeAndCancel : List (InternalOrderEvent .cicd × List (BookMessage .cicd)) :=
  [(⟨⟨⟨1⟩, ⟨0⟩, 5, 10⟩, (65, 65, 80, 76), .Sell⟩,
      [.status ⟨⟨1⟩, ⟨1025⟩, 0, 10, .Accepted⟩]),
    (⟨⟨⟨2⟩, ⟨0⟩, 8, 12⟩, (65, 65, 80, 76), .Buy⟩,
      [.status ⟨⟨2⟩, ⟨2049⟩, 5, 12, .Partial⟩]),
    (⟨⟨⟨3⟩, ⟨0⟩, 4, 20⟩, (65, 65, 80, 76), .Sell⟩,
      [.status ⟨⟨3⟩, ⟨1026⟩, 0, 20, .Accepted⟩]),
    (⟨⟨⟨2⟩, ⟨2049⟩, 0, 12⟩, (65, 65, 80, 76), .Cancel⟩,
      [.status ⟨⟨2⟩, ⟨2049⟩, 0, 0, .Cancelled⟩])]

theorem tradeAndCancel_run : ∃ b, (admissibleRuns .cicd).Run tradeAndCancel b := by
  have hsome : (Machine.exec (Machine.guarded (fun b e => b.Admissible e.1) (addStep 10))
      (fresh .cicd) tradeAndCancel).isSome = true := by decide +kernel
  obtain ⟨b, hb⟩ := Option.isSome_iff_exists.mp hsome
  exact ⟨b, (Machine.Run.start rfl).exec (Machine.restrict_step_of_guarded step_of_addStep) hb⟩

theorem bookMachine_refines_tradeAndCancel :
    ∃ b, (priceTimeMachine .cicd).Run tradeAndCancel b.orders ∧
      ∀ ioe, b.Admissible ioe → ∃ msgs b', Adds b ioe msgs b' := by
  obtain ⟨b, hb⟩ := tradeAndCancel_run
  exact ⟨b, bookMachine_refines hb⟩

end PriceLevelOrderBook
