/-
No quantity is made or lost.

A ledger is kept beside the book: for each side what was submitted, what was
reported as filled to the orders that came in, what was left of the orders that
were cancelled, and what was refused because the book was full.  The fills are read
off the statuses, the rest off the events and the book they meet.

* `ledgerRuns` — the runs of the book with their ledger;
* `quantity_conserved` — on each side what was submitted has been filled on coming
  in, has been filled while resting, rests, was cancelled, or was refused.

Resting orders are told nothing when they are filled.  That what they lose is what
the orders on the other side report is the point of the equation.
-/
import TradingPlatform.OrderBook.Invariants

namespace PriceLevelOrderBook

variable {K : Constants} {b b' : PriceLevelOrderBook K}

/-- The quantities of each side. -/
structure Ledger where
  submitted : Side → ℕ
  filled : Side → ℕ
  withdrawn : Side → ℕ
  refused : Side → ℕ

/-- The fill a message reports. -/
def fillOf : BookMessage K → ℕ
  | .status st => st.fillQty.toNat
  | .error _ => 0

/-- A message that refuses an order. -/
def isRefusal : BookMessage K → Bool
  | .status _ => false
  | .error _ => true

namespace Ledger

def empty : Ledger := ⟨fun _ => 0, fun _ => 0, fun _ => 0, fun _ => 0⟩

/-- Adding to one side. -/
def credit (f : Side → ℕ) (side : Side) (n : ℕ) : Side → ℕ :=
  Function.update f side (f side + n)

@[simp] theorem credit_self (f : Side → ℕ) (side : Side) (n : ℕ) :
    credit f side n side = f side + n :=
  Function.update_self _ _ _

@[simp] theorem credit_opposite (f : Side → ℕ) (side : Side) (n : ℕ) :
    credit f side n side.opposite = f side.opposite :=
  Function.update_of_ne side.ne_opposite.symm _ _

/-- What one call does to the ledger; `b` is the book before it. -/
def record (L : Ledger) (b : PriceLevelOrderBook K)
    (e : InternalOrderEvent K × List (BookMessage K)) : Ledger :=
  let o := e.1.order
  let side := getSide e.1.action
  if e.1.action = .Cancel then
    { L with withdrawn := fun d =>
        L.withdrawn d + restingQty ((b.orders.orders d).filter (·.bookOId = o.bookOId)) }
  else if K.maxTicks ≤ o.price then L
  else
    { L with
      submitted := credit L.submitted side o.quantity.toNat
      filled := credit L.filled side (e.2.map fillOf).sum
      refused := credit L.refused side (if e.2.any isRefusal then o.quantity.toNat else 0) }

end Ledger

/-- The runs of the book with new orders and cancels of resting orders, and the
ledger of each. -/
def ledgerRuns (K : Constants) :
    Machine (PriceLevelOrderBook K × Ledger) (InternalOrderEvent K × List (BookMessage K)) where
  init s := (admissibleRuns K).init s.1 ∧ s.2 = .empty
  step s e s' := (admissibleRuns K).step s.1 e s'.1 ∧ s'.2 = s.2.record s.1 e

/-- Every run has its ledger. -/
theorem exists_ledger {es : List (InternalOrderEvent K × List (BookMessage K))}
    (h : (admissibleRuns K).Run es b) : ∃ L, (ledgerRuns K).Run es (b, L) := by
  induction h with
  | start hi => exact ⟨.empty, .start ⟨hi, rfl⟩⟩
  | snoc _ hs ih =>
    obtain ⟨L, hL⟩ := ih
    exact ⟨_, .snoc hL ⟨hs, rfl⟩⟩

/-! ### One call -/

/-- The equation of one side. -/
def Balanced (b : PriceLevelOrderBook K) (L : Ledger) : Prop :=
  ∀ side, L.submitted side = L.filled side + L.filled side.opposite +
    restingQty (b.orders.orders side) + L.withdrawn side + L.refused side

theorem restingQty_filter_add (p : RestingOrder K → Bool) (l : List (RestingOrder K)) :
    restingQty (l.filter fun o => !p o) + restingQty (l.filter p) = restingQty l := by
  induction l with
  | nil => rfl
  | cons o l ih =>
    simp only [restingQty] at ih ⊢
    by_cases ho : p o = true
    · simp [ho]
      omega
    · simp [ho]
      omega

theorem orders_remove (a : PriceTimeBook K) (id : BookOrderId K) (side : Side) :
    (a.remove id).orders side = (a.orders side).filter (·.bookOId ≠ id) := by
  cases side with
  | Buy => rfl
  | Sell => rfl

/-- A cancel takes out of the book what the ledger says. -/
theorem Balanced.cancel {L : Ledger} (h : Balanced b L) {ioe : InternalOrderEvent K}
    {msgs : List (BookMessage K)} (hc : ioe.action = .Cancel)
    (horders : b'.orders = b.orders.remove ioe.order.bookOId) :
    Balanced b' (L.record b (ioe, msgs)) := by
  intro side
  have hold := h side
  have hsplit := restingQty_filter_add (fun o => o.bookOId = ioe.order.bookOId)
    (b.orders.orders side)
  rw [Ledger.record, if_pos hc, horders, orders_remove]
  simp only [decide_not] at hsplit ⊢
  omega

theorem opposite_opposite (side : Side) : side.opposite.opposite = side := by
  cases side with
  | Buy => rfl
  | Sell => rfl

theorem eq_or_eq_opposite (side d : Side) : d = side ∨ d = side.opposite := by
  cases d <;> cases side <;> simp [Side.opposite]

/-- A new order: the other side loses what is reported as filled, and its own side
gains what is neither filled nor refused. -/
theorem Balanced.place {L : Ledger} (h : Balanced b L) {ioe : InternalOrderEvent K}
    {msgs : List (BookMessage K)} (hnc : ioe.action ≠ .Cancel)
    (hp : ioe.order.price < K.maxTicks)
    (hopp : restingQty (b'.orders.orders (getSide ioe.action).opposite) + (msgs.map fillOf).sum =
      restingQty (b.orders.orders (getSide ioe.action).opposite))
    (hown : restingQty (b'.orders.orders (getSide ioe.action)) + (msgs.map fillOf).sum +
        (if msgs.any isRefusal then ioe.order.quantity.toNat else 0) =
      restingQty (b.orders.orders (getSide ioe.action)) + ioe.order.quantity.toNat) :
    Balanced b' (L.record b (ioe, msgs)) := by
  rw [Ledger.record, if_neg hnc, if_neg (not_le.2 hp)]
  have hself := h (getSide ioe.action)
  have hother := h (getSide ioe.action).opposite
  rw [opposite_opposite] at hother
  intro d
  rcases eq_or_eq_opposite (getSide ioe.action) d with rfl | rfl
  · simp only [Ledger.credit_self, Ledger.credit_opposite]
    omega
  · simp only [opposite_opposite, Ledger.credit_self, Ledger.credit_opposite]
    omega

theorem Balanced.report {L : Ledger} (h : Balanced b L) {ioe : InternalOrderEvent K}
    (hnc : ioe.action ≠ .Cancel) (hp : ioe.order.price < K.maxTicks)
    {st : InternalOrderStatus K} (hr : FillReport b b' ioe.order (getSide ioe.action) st) :
    Balanced b' (L.record b (ioe, [.status st])) := by
  have hle := hr.le
  have hrested : restingQty (b'.orders.orders (getSide ioe.action)) =
      restingQty (b.orders.orders (getSide ioe.action)) +
        (ioe.order.quantity.toNat - st.fillQty.toNat) := by
    rw [hr.rested]
    split
    · omega
    · rw [restingQty_enqueue]
  have hsum : (([.status st] : List (BookMessage K)).map fillOf).sum = st.fillQty.toNat :=
    List.sum_singleton
  refine h.place hnc hp ?_ ?_
  · rw [hsum]
    exact hr.filled
  · rw [hsum]
    simp only [List.any_cons, List.any_nil, isRefusal, Bool.or_false, Bool.false_eq_true, if_false]
    omega

/-- Every call keeps the equation. -/
theorem Balanced.step {L : Ledger} (h : Balanced b L) {q : Side → ℕ → List ℕ} (hq : Rep b q)
    {e : InternalOrderEvent K × List (BookMessage K)} (hs : (admissibleRuns K).step b e b') :
    Balanced b' (L.record b e) := by
  obtain ⟨ioe, msgs⟩ := e
  obtain ⟨_, _, id, _, habs, _⟩ := admissible_step hq hs
  obtain ⟨hadm, hadds⟩ := hs
  by_cases hc : ioe.action = .Cancel
  · have hholds : b.orders.Holds ioe.order.bookOId := by
      rcases hadm with ha | ha | ha
      · exact OrderAction.noConfusion (ha.symm.trans hc)
      · exact OrderAction.noConfusion (ha.symm.trans hc)
      · exact ha.2
    rw [PriceTimeBook.add, if_pos hc, if_pos hholds] at habs
    exact h.cancel hc (congrArg Prod.fst habs).symm
  · by_cases hp : ioe.order.price < K.maxTicks
    · obtain ⟨msgs', b₁, hadds', hcase⟩ := hq.fill_report hc hp
      obtain ⟨rfl, rfl⟩ := hadds.det hadds'
      rcases hcase with ⟨st, rfl, hr⟩ | ⟨⟨err, rfl⟩, _, hr⟩
      · exact h.report hc hp hr
      · refine h.place hc hp ?_ ?_
        · rw [hr.unchanged]
          rfl
        · rw [hr.unchanged]
          rfl
    · -- the price is not on the book: nothing happens
      rw [PriceTimeBook.add, if_neg hc, if_pos (not_lt.1 hp)] at habs
      have hsame : b'.orders = b.orders := (congrArg Prod.fst habs).symm
      rw [Ledger.record, if_neg hc, if_pos (not_lt.1 hp)]
      intro side
      rw [hsame]
      exact h side

/-! ### Whole runs -/

theorem ledger_run {es : List (InternalOrderEvent K × List (BookMessage K))} {L : Ledger}
    (h : (ledgerRuns K).Run es (b, L)) : (∃ q, Rep b q) ∧ Balanced b L := by
  have hall := h.invariant (I := fun s => (∃ q, Rep s.1 q) ∧ Balanced s.1 s.2) ?_ ?_
  · exact hall
  · rintro ⟨b, L⟩ ⟨rfl, rfl⟩
    refine ⟨⟨_, Rep.fresh⟩, ?_⟩
    intro side
    rw [fresh_orders]
    cases side with
    | Buy => rfl
    | Sell => rfl
  · rintro ⟨b, L⟩ e ⟨b', L'⟩ ⟨⟨q, hq⟩, hbal⟩ ⟨hs, rfl⟩
    obtain ⟨q', hq', _⟩ := admissible_step hq hs
    exact ⟨⟨q', hq'⟩, hbal.step hq hs⟩

/-- In every run of new orders and cancels of resting orders, on each side: what was
submitted is what the statuses of that side report as filled, plus what those of the
other side report (which was filled while resting), plus what rests, plus what was
left of cancelled orders, plus what was refused because the book was full. -/
theorem quantity_conserved {es : List (InternalOrderEvent K × List (BookMessage K))}
    {L : Ledger} (h : (ledgerRuns K).Run es (b, L)) (side : Side) :
    L.submitted side = L.filled side + L.filled side.opposite +
      restingQty (b.orders.orders side) + L.withdrawn side + L.refused side :=
  (ledger_run h).2 side

theorem quantity_conserved_tradeAndCancel : ∃ b L,
    (ledgerRuns .cicd).Run tradeAndCancel (b, L) ∧
    L.submitted .Buy = L.filled .Buy + L.filled .Sell + restingQty b.orders.bids +
      L.withdrawn .Buy + L.refused .Buy := by
  obtain ⟨b, hb⟩ := tradeAndCancel_run
  obtain ⟨L, hL⟩ := exists_ledger hb
  exact ⟨b, L, hL, quantity_conserved hL .Buy⟩

end PriceLevelOrderBook
