/-
Cancels of orders that may be closed already.

The gateway cancels an order by the pair of identifiers it was told when the
order came to rest.  Here a run keeps these pairs as tickets, in the order in
which they were handed out, and a cancel presents one of them; whether the
order behind it still rests is not the caller's to know.

`cancelOrder` recognises a closed order by comparing the handle with the one
in the node.  But `releaseId` advances the generation of its own copy only, so
the node keeps the handle of the closed order until the node is used again,
and until then a cancel of the closed order passes the check: it unlinks the
node a second time and pushes its index a second time.

* `cancel_meets_iff` — as long as every cancel presented a ticket whose order
  rests or whose node carries another handle, the book is consistent, and the
  next cancel does what it should exactly under the same condition;
* `cancel_twice` — cancelling an order twice violates it.
-/
import TradingPlatform.OrderBook.Invariants

namespace PriceLevelOrderBook

variable {K : Constants}

/-- What a status hands out: the pair to cancel the order with, if it rests. -/
def ticketOf : BookMessage K → Option (SystemOrderId K × BookOrderId K)
  | .status st =>
    if st.state = .Accepted ∨ st.state = .Partial then some (st.id, st.bookOId) else none
  | .error _ => none

/-- A book and the tickets it has handed out so far. -/
structure Ticketed (K : Constants) where
  book : PriceLevelOrderBook K
  issued : List (SystemOrderId K × BookOrderId K)

/-- A call: the event, the ticket presented (if the event is a cancel), and the
messages posted. -/
structure Call (K : Constants) where
  ioe : InternalOrderEvent K
  ticket : ℕ
  msgs : List (BookMessage K)

/-- New orders, and cancels that present a ticket of the same run. -/
def Presents (s : Ticketed K) (c : Call K) : Prop :=
  c.ioe.action = .Buy ∨ c.ioe.action = .Sell ∨
    c.ioe.action = .Cancel ∧
      s.issued[c.ticket]? = some (c.ioe.order.id, c.ioe.order.bookOId)

def ticketMachine (K : Constants) : Machine (Ticketed K) (Call K) where
  init s := s = ⟨fresh K, []⟩
  step s c s' := Presents s c ∧ Adds s.book c.ioe c.msgs s'.book ∧
    s'.issued = s.issued ++ c.msgs.filterMap ticketOf

/-- The order behind a ticket still rests: an order with its two identifiers is
on the book, and its handle has not been handed out again since. -/
def StillRests (s : Ticketed K) (c : Call K) : Prop :=
  (∃ x ∈ s.book.orders.bids ++ s.book.orders.asks,
    x.bookOId = c.ioe.order.bookOId ∧ x.systemId = c.ioe.order.id) ∧
  ∀ u ∈ s.issued.drop (c.ticket + 1), u.2 ≠ c.ioe.order.bookOId

/-- What a cancel should do. -/
def CancelMeets (s : Ticketed K) (c : Call K) (s' : Ticketed K) : Prop :=
  (StillRests s c →
    c.msgs = [.status ⟨c.ioe.order.id, c.ioe.order.bookOId, 0, 0, .Cancelled⟩] ∧
      s'.book.orders = s.book.orders.remove c.ioe.order.bookOId) ∧
  (¬StillRests s c →
    c.msgs = [.status ⟨c.ioe.order.id, c.ioe.order.bookOId, 0, 0, .Rejected⟩] ∧
      s'.book = s.book)

/-- The condition: the order behind the ticket still rests, or its node carries
another handle by now. -/
def CancelSafe (s : Ticketed K) (c : Call K) : Prop :=
  c.ioe.action = .Cancel →
    StillRests s c ∨
      (s.book.nodePool c.ioe.order.bookOId.index).localId ≠ c.ioe.order.bookOId

/-- The runs in which every cancel meets the condition. -/
def safeRuns (K : Constants) : Machine (Ticketed K) (Call K) :=
  (ticketMachine K).restrict CancelSafe

/-! ### What a cancel does -/

theorem StillRests.holds {s : Ticketed K} {c : Call K} (h : StillRests s c) :
    s.book.orders.Holds c.ioe.order.bookOId := by
  obtain ⟨⟨x, hx, hid, _⟩, _⟩ := h
  exact ⟨x, hx, hid⟩

theorem adds_cancel {b b' : PriceLevelOrderBook K} {ioe : InternalOrderEvent K}
    {msgs : List (BookMessage K)} (ha : ioe.action = .Cancel) (h : Adds b ioe msgs b') :
    b' = (b.cancelOrder ioe.order).1 ∧ msgs = (b.cancelOrder ioe.order).2 := by
  obtain ⟨fuel, ret, h⟩ := h
  rw [add, if_pos ha, Option.some_inj, Prod.mk.injEq, Prod.mk.injEq] at h
  exact ⟨h.1.symm, h.2.1.symm⟩

/-- A handle that is not the node's is rejected. -/
theorem cancelOrder_rejected {b : PriceLevelOrderBook K} {o : InternalOrder K}
    (h : (b.nodePool o.bookOId.index).localId ≠ o.bookOId) :
    b.cancelOrder o = (b, [.status ⟨o.id, o.bookOId, 0, 0, .Rejected⟩]) := by
  rw [cancelOrder, if_pos h]

/-- A handle that is the node's is cancelled, whether or not the node rests. -/
theorem cancelOrder_cancelled {b : PriceLevelOrderBook K} {o : InternalOrder K}
    (h : (b.nodePool o.bookOId.index).localId = o.bookOId) :
    (b.cancelOrder o).2 = [.status ⟨o.id, o.bookOId, 0, 0, .Cancelled⟩] := by
  rw [cancelOrder, if_neg (by simpa using h)]

theorem cancelMeets_iff {s s' : Ticketed K} {c : Call K} {q : Side → ℕ → List ℕ}
    (hq : Rep s.book q) (ha : c.ioe.action = .Cancel) (hs : (ticketMachine K).step s c s') :
    CancelMeets s c s' ↔ CancelSafe s c := by
  obtain ⟨_, hadds, _⟩ := hs
  obtain ⟨hbook, hmsgs⟩ := adds_cancel ha hadds
  rw [CancelMeets, hbook, hmsgs]
  constructor
  · rintro ⟨_, hclosed⟩ _
    by_contra hno
    rw [not_or, not_not] at hno
    -- the order is closed, and yet its handle is found in the node
    have hrej := (hclosed hno.1).1
    rw [cancelOrder_cancelled hno.2] at hrej
    simp at hrej
  · intro hsafe
    refine ⟨fun hrests => ?_, fun hclosed => ?_⟩
    · obtain ⟨_, _, hmsg, horders⟩ := cancelOrder_spec hq hrests.holds
      exact ⟨hmsg, horders⟩
    · rw [cancelOrder_rejected ((hsafe ha).resolve_left hclosed)]
      exact ⟨rfl, rfl⟩

/-! ### Tickets and resting orders -/

/-- Every resting order has a ticket, and the handle of the ticket has not been
handed out again since. -/
def Issued (s : Ticketed K) : Prop :=
  ∀ x ∈ s.book.orders.bids ++ s.book.orders.asks,
    ∃ t, s.issued[t]? = some (x.systemId, x.bookOId) ∧
      ∀ u ∈ s.issued.drop (t + 1), u.2 ≠ x.bookOId

theorem mem_orders_iff {a : PriceTimeBook K} (side : Side) {x : RestingOrder K} :
    x ∈ a.bids ++ a.asks ↔ x ∈ a.orders side ∨ x ∈ a.orders side.opposite := by
  cases side with
  | Buy => exact List.mem_append
  | Sell => exact List.mem_append.trans or_comm

theorem ticketOf_resting (id : SystemOrderId K) (newId : BookOrderId K) (fill : Quantity)
    (price : ℕ) (c : Prop) [Decidable c] :
    ticketOf (.status ⟨id, newId, fill, price, if c then .Accepted else .Partial⟩) =
      some (id, newId) := by
  rw [ticketOf]
  split <;> simp

/-- The resting orders after an event are old ones, except for the one whose
ticket is handed out. -/
theorem resting_after_add {a : PriceTimeBook K} (ioe : InternalOrderEvent K)
    (newId : BookOrderId K) :
    let a' := (a.add ioe newId).1
    let Old := fun x : RestingOrder K =>
      ∃ y ∈ a.bids ++ a.asks, y.bookOId = x.bookOId ∧ y.systemId = x.systemId
    ((a.add ioe newId).2.filterMap ticketOf = [] ∧ ∀ x ∈ a'.bids ++ a'.asks, Old x) ∨
    ((a.add ioe newId).2.filterMap ticketOf = [(ioe.order.id, newId)] ∧
      ∃ x₀ ∈ a'.bids ++ a'.asks, x₀.bookOId = newId ∧ x₀.systemId = ioe.order.id ∧
        ∀ x ∈ a'.bids ++ a'.asks, x = x₀ ∨ Old x) := by
  intro a' Old
  have hself : ∀ x ∈ a.bids ++ a.asks, Old x := fun x hx => ⟨x, hx, rfl, rfl⟩
  simp only [a', PriceTimeBook.add]
  split
  · split
    · refine .inl ⟨rfl, fun x hx => hself x ?_⟩
      rcases List.mem_append.mp hx with hx | hx
      · exact List.mem_append_left _ (List.mem_filter.mp hx).1
      · exact List.mem_append_right _ (List.mem_filter.mp hx).1
    · exact .inl ⟨rfl, hself⟩
  · split
    · exact .inl ⟨rfl, hself⟩
    · set side := getSide ioe.action
      -- what a match leaves of the opposite side
      have hopp : ∀ x ∈ (consume side ioe.order.price ioe.order.quantity.toNat
          (a.orders side.opposite)).1, Old x := by
        intro x hx
        obtain ⟨y, hy, h1, h2, _⟩ := mem_consume hx
        exact ⟨y, (mem_orders_iff side).mpr (.inr hy), h1, h2⟩
      have hown : ∀ x ∈ a.orders side, Old x :=
        fun x hx => hself x ((mem_orders_iff side).mpr (.inl hx))
      have hmatched : ∀ left, (∀ x ∈ left, Old x) → ∀ x ∈ (a.setOrders side.opposite left).bids ++
          (a.setOrders side.opposite left).asks, Old x := by
        intro left hleft x hx
        rw [mem_orders_iff side, PriceTimeBook.orders_setOrders_self,
          PriceTimeBook.orders_opposite_setOrders] at hx
        exact hx.elim (hown x) (hleft x)
      simp only [PriceTimeBook.place]
      split
      · exact .inl ⟨rfl, hmatched _ hopp⟩
      · split
        · exact .inl ⟨rfl, hmatched _ hopp⟩
        · right
          refine ⟨?_, ⟨newId, ioe.order.id, ioe.order.price, (consume side ioe.order.price
            ioe.order.quantity.toNat (a.orders side.opposite)).2⟩, ?_, rfl, rfl, fun x hx => ?_⟩
          · rw [List.filterMap_cons, ticketOf_resting, List.filterMap_nil]
          · rw [mem_orders_iff side, PriceTimeBook.orders_setOrders_self]
            exact .inl (List.mem_append_right _ List.mem_cons_self)
          · rw [mem_orders_iff side, PriceTimeBook.orders_setOrders_self,
              PriceTimeBook.orders_setOrders_opposite, PriceTimeBook.orders_setOrders_self,
              PriceTimeBook.orders_opposite_setOrders] at hx
            rcases hx with hx | hx
            · exact (PriceTimeBook.mem_enqueue hx).imp id (hown x)
            · exact .inr (hopp x hx)

theorem issued_step {s s' : Ticketed K} {c : Call K} (hi : Issued s)
    (habs : (priceTimeMachine K).step s.book.orders (c.ioe, c.msgs) s'.book.orders)
    (hissued : s'.issued = s.issued ++ c.msgs.filterMap ticketOf) : Issued s' := by
  obtain ⟨id, _, hadd, hnames⟩ := habs
  have hafter := resting_after_add (a := s.book.orders) c.ioe id
  rw [hadd] at hafter
  rcases hafter with ⟨hnone, hold⟩ | ⟨hone, x₀, hx₀, hid, hsys, hold⟩
  · intro x hx
    obtain ⟨y, hy, h1, h2⟩ := hold x hx
    rw [hissued, hnone, List.append_nil, ← h1, ← h2]
    exact hi y hy
  · intro x hx
    rw [hissued, hone]
    by_cases hx0 : x = x₀
    · -- the order that has just come to rest has the last ticket
      refine ⟨s.issued.length, ?_, ?_⟩
      · rw [hx0, hid, hsys, List.getElem?_concat_length]
      · intro u hu
        simp at hu
    · obtain ⟨y, hy, h1, h2⟩ := (hold x hx).resolve_left hx0
      -- the new handle is not that of another resting order
      have hne : id ≠ x.bookOId := by
        intro hc
        rw [← hid] at hc
        exact hx0 (List.inj_on_of_nodup_map hnames hx hx₀ hc.symm)
      obtain ⟨t, ht, hlast⟩ := hi y hy
      rw [h1, h2] at ht
      rw [h1] at hlast
      have hlt : t < s.issued.length := (List.getElem?_eq_some_iff.mp ht).1
      refine ⟨t, ?_, ?_⟩
      · rw [List.getElem?_append_left hlt, ht]
      · intro u hu
        rw [List.drop_append_of_le_length (by omega), List.mem_append, List.mem_singleton] at hu
        rcases hu with hu | rfl
        · exact hlast u hu
        · exact hne

/-- A safe step keeps the invariant and the tickets. -/
theorem safe_step {s s' : Ticketed K} {c : Call K} {q : Side → ℕ → List ℕ}
    (hq : Rep s.book q) (hi : Issued s) (hs : (safeRuns K).step s c s') :
    (∃ q', Rep s'.book q') ∧ Issued s' := by
  obtain ⟨hsafe, hpresents, hadds, hissued⟩ := hs
  by_cases hc : c.ioe.action = .Cancel ∧ ¬s.book.orders.Holds c.ioe.order.bookOId
  · -- a cancel of a closed order, whose node has another handle
    obtain ⟨ha, hclosed⟩ := hc
    have hne := (hsafe ha).resolve_left fun hrests => hclosed hrests.holds
    obtain ⟨hbook, hmsgs⟩ := adds_cancel ha hadds
    rw [cancelOrder_rejected hne] at hbook hmsgs
    have hsame : s' = s := by
      rw [hmsgs] at hissued
      cases s
      cases s'
      simp_all [ticketOf]
    rw [hsame]
    exact ⟨⟨q, hq⟩, hi⟩
  · have hadm : s.book.Admissible c.ioe := by
      rcases hpresents with ha | ha | ⟨ha, _⟩
      · exact .inl ha
      · exact .inr (.inl ha)
      · exact .inr (.inr ⟨ha, not_not.mp fun hno => hc ⟨ha, hno⟩⟩)
    obtain ⟨q', hrep, habs⟩ := admissible_step (e := (c.ioe, c.msgs)) hq ⟨hadm, hadds⟩
    exact ⟨⟨q', hrep⟩, issued_step hi habs hissued⟩

theorem safe_invariant {s : Ticketed K} {cs : List (Call K)} (h : (safeRuns K).Run cs s) :
    (∃ q, Rep s.book q) ∧ Issued s := by
  refine Machine.Run.invariant (I := fun s => (∃ q, Rep s.book q) ∧ Issued s) ?_ ?_ h
  · rintro s rfl
    refine ⟨⟨_, Rep.fresh⟩, fun x hx => ?_⟩
    rw [fresh_orders] at hx
    exact absurd hx List.not_mem_nil
  · rintro s c s' ⟨⟨q, hq⟩, hi⟩ hs
    exact safe_step hq hi hs

/-- **Cancels of closed orders.**  In a run in which every cancel met the
condition the book is consistent, no index is on the free stack twice, and
every resting order is the one behind its latest ticket; and a further cancel
removes its order or is rejected, as the order rests or is closed, exactly when
it meets the condition too. -/
theorem cancel_meets_iff {s : Ticketed K} {cs : List (Call K)} (h : (safeRuns K).Run cs s) :
    Consistent s.book ∧ s.book.freeIndices.Nodup ∧ Issued s ∧
      ∀ c s', (ticketMachine K).step s c s' → c.ioe.action = .Cancel →
        (CancelMeets s c s' ↔ CancelSafe s c) := by
  obtain ⟨⟨q, hq⟩, hi⟩ := safe_invariant h
  exact ⟨hq.consistent, hq.freeIndices_nodup, hi, fun c s' hs ha => cancelMeets_iff hq ha hs⟩

/-! ### Cancelling twice -/

instance (s : Ticketed K) (c : Call K) : Decidable (Presents s c) :=
  inferInstanceAs (Decidable (_ ∨ _ ∨ _ ∧ _))

instance (s : Ticketed K) (c : Call K) : Decidable (StillRests s c) :=
  inferInstanceAs (Decidable (_ ∧ _))

instance (s : Ticketed K) (c : Call K) : Decidable (CancelSafe s c) :=
  inferInstanceAs (Decidable (_ → _ ∨ _))

/-- A call that posts the messages of the label. -/
def ticketStep (fuel : ℕ) (s : Ticketed K) (c : Call K) : Option (Ticketed K) :=
  if Presents s c then
    (s.book.addStep fuel (c.ioe, c.msgs)).map fun b =>
      ⟨b, s.issued ++ c.msgs.filterMap ticketOf⟩
  else none

theorem step_of_ticketStep {fuel : ℕ} {s s' : Ticketed K} {c : Call K}
    (h : ticketStep fuel s c = some s') : (ticketMachine K).step s c s' := by
  rw [ticketStep] at h
  split at h
  · next hp =>
    rw [Option.map_eq_some_iff] at h
    obtain ⟨b, hb, rfl⟩ := h
    exact ⟨hp, step_of_addStep hb, rfl⟩
  · exact absurd h (by simp)

/-- An order comes to rest and is cancelled. -/
def restAndCancel : List (Call .cicd) :=
  [⟨⟨⟨⟨1⟩, ⟨0⟩, 5, 10⟩, (65, 65, 80, 76), .Buy⟩, 0,
      [.status ⟨⟨1⟩, ⟨1025⟩, 0, 10, .Accepted⟩]⟩,
    ⟨⟨⟨⟨1⟩, ⟨1025⟩, 0, 10⟩, (65, 65, 80, 76), .Cancel⟩, 0,
      [.status ⟨⟨1⟩, ⟨1025⟩, 0, 0, .Cancelled⟩]⟩]

/-- The same cancel again, and the answer it gets. -/
def cancelAgain : Call .cicd :=
  ⟨⟨⟨⟨1⟩, ⟨1025⟩, 0, 10⟩, (65, 65, 80, 76), .Cancel⟩, 0,
    [.status ⟨⟨1⟩, ⟨1025⟩, 0, 0, .Cancelled⟩]⟩

theorem restAndCancel_isSome : (Machine.exec (Machine.guarded CancelSafe (ticketStep 10))
    ⟨fresh .cicd, []⟩ restAndCancel).isSome = true := by decide +kernel

/-- The state after `restAndCancel`. -/
def afterCancel : Ticketed .cicd :=
  (Machine.exec (Machine.guarded CancelSafe (ticketStep 10)) ⟨fresh .cicd, []⟩
    restAndCancel).get restAndCancel_isSome

theorem restAndCancel_run : (safeRuns .cicd).Run restAndCancel afterCancel :=
  (Machine.Run.start rfl).exec (Machine.restrict_step_of_guarded step_of_ticketStep)
    (Option.some_get restAndCancel_isSome).symm

theorem cancel_meets_iff_restAndCancel :
    Consistent afterCancel.book ∧ afterCancel.book.freeIndices.Nodup ∧ Issued afterCancel ∧
      ∀ c s', (ticketMachine .cicd).step afterCancel c s' → c.ioe.action = .Cancel →
        (CancelMeets afterCancel c s' ↔ CancelSafe afterCancel c) :=
  cancel_meets_iff restAndCancel_run

theorem cancelAgain_isSome : (ticketStep 10 afterCancel cancelAgain).isSome = true := by
  decide +kernel

/-- The state after `cancelAgain`. -/
def afterCancelAgain : Ticketed .cicd :=
  (ticketStep 10 afterCancel cancelAgain).get cancelAgain_isSome

/-- The second of two cancels of one order is answered with `Cancelled` and
leaves the index of the order on the free stack twice. -/
theorem cancel_twice :
    (ticketMachine .cicd).Run restAndCancel afterCancel ∧
      (ticketMachine .cicd).step afterCancel cancelAgain afterCancelAgain ∧
      ¬StillRests afterCancel cancelAgain ∧
      ¬CancelMeets afterCancel cancelAgain afterCancelAgain ∧
      ¬afterCancelAgain.book.freeIndices.Nodup := by
  have hclosed : ¬StillRests afterCancel cancelAgain := by decide +kernel
  refine ⟨restAndCancel_run.of_restrict,
    step_of_ticketStep (Option.some_get cancelAgain_isSome).symm, hclosed, fun hmeets => ?_, ?_⟩
  · exact absurd (hmeets.2 hclosed).1 (by decide)
  · decide +kernel

end PriceLevelOrderBook
