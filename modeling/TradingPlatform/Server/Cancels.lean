/-
Cancels on their way through the server, with the price-level books.

The gateway thread closes a record by its slot alone, and the network thread
lets a cancel through as long as the record is `Accepted`.  So two cancels of
one order that are under way together close it twice, and its id is released
twice.

* `singleCancel_release` — if no cancel is let through while another one of the
  same order is on its way, every id is released at most once for each time it
  is acquired, and the open orders have different slots;
* `second_cancel_releases_twice` — two cancels under way together;
* `cancel_forwarded_iff` — the cancel of an order that the client has been told
  rests is forwarded, except while the gateway thread, having sent the answer,
  has not yet set the record to `Accepted`;
* `early_cancel_dropped` — a cancel in that window.
-/
import TradingPlatform.Server.Gateway

variable {K : Constants} {tickers : Ticker → Bool}

/-! ### The price-level books -/

theorem PriceLevelOrderBook.adds_lawful {b b' : PriceLevelOrderBook K}
    {ioe : InternalOrderEvent K} {msgs : List (BookMessage K)} (h : b.Adds ioe msgs b') :
    statusesOf msgs = [] ∨ ∃ st, statusesOf msgs = [st] ∧ st.id = ioe.order.id ∧
      (ioe.action = .Cancel → st.state = .Cancelled ∨ st.state = .Rejected) ∧
      (ioe.action ≠ .Cancel →
        st.state = .Full ∨ st.state.rests = true ∧ st.bookOId.isValid = true) := by
  by_cases ha : ioe.action = .Cancel
  · obtain ⟨_, rfl⟩ := adds_cancel ha h
    refine .inr ?_
    rw [PriceLevelOrderBook.cancelOrder]
    split
    · exact ⟨_, rfl, rfl, fun _ => .inr rfl, fun hc => absurd ha hc⟩
    · exact ⟨_, rfl, rfl, fun _ => .inl rfl, fun hc => absurd ha hc⟩
  · obtain ⟨fuel, ret, h⟩ := h
    rw [PriceLevelOrderBook.add, if_neg ha] at h
    simp only at h
    split at h
    · -- a price beyond the book: no message
      simp only [Option.some_inj, Prod.mk.injEq] at h
      rw [← h.2.1]
      exact .inl rfl
    · rw [Option.map_eq_some_iff] at h
      obtain ⟨m, _, h⟩ := h
      split at h
      · simp only [Prod.mk.injEq] at h
        rw [← h.2.1, PriceLevelOrderBook.restOrder]
        simp only
        split
        · next hv =>
          refine .inr ⟨_, rfl, rfl, fun hc => absurd hc ha, fun _ => .inr ⟨?_, hv⟩⟩
          simp only
          split
          · rfl
          · rfl
        · -- a full book posts an error, which is not a status
          exact .inl rfl
      · simp only [Prod.mk.injEq] at h
        rw [← h.2.1]
        exact .inr ⟨_, rfl, rfl, fun hc => absurd hc ha, fun _ => .inl rfl⟩

/-- The price-level books keep the contract. -/
theorem bookMatching_lawful : (bookMatching K tickers).Lawful := by
  rintro σ ioe msgs σ' ⟨b, hadds, _⟩
  exact PriceLevelOrderBook.adds_lawful hadds

namespace Server

variable {s s' : Server (bookMatching K tickers)} {n : ℕ} {id : SystemOrderId K}

/-- The steps of the server, computed; `work` checks what the book posts. -/
def run (fuel : ℕ) (s : Server (bookMatching K tickers)) :
    ServerAction K → Option (Server (bookMatching K tickers))
  | .client so about => some (s.clientStep so about)
  | .work msgs =>
    match s.events with
    | [] => none
    | (tag, ioe) :: rest =>
      ((s.matching ioe.ticker).addStep fuel (ioe, msgs)).map fun b =>
        s.worked tag rest msgs (Function.update s.matching ioe.ticker b)
  | a => s.gatewayStep a

theorem step_of_run (fuel : ℕ) {a : ServerAction K} (h : s.run fuel a = some s') :
    (serverMachine (bookMatching K tickers)).step s a s' := by
  cases a with
  | client so about => exact (Option.some_inj.mp h).symm
  | work msgs =>
    simp only [run] at h
    split at h
    · exact nomatch h
    · next tag ioe rest hev =>
      rw [Option.map_eq_some_iff] at h
      obtain ⟨b, hb, rfl⟩ := h
      exact ⟨tag, ioe, rest, _, hev, ⟨b, PriceLevelOrderBook.step_of_addStep hb, rfl⟩, rfl⟩
  | _ => exact h

/-- Runs found by computing them. -/
theorem exists_run (G : Server (bookMatching K tickers) → ServerAction K → Prop)
    [∀ s a, Decidable (G s a)] (as : List (ServerAction K))
    (p : Server (bookMatching K tickers) → Prop) [DecidablePred p]
    (h : (Machine.exec (Machine.guarded G (run 10)) (.start _) as).any (fun s => decide (p s)) =
      true) :
    ∃ s, ((serverMachine (bookMatching K tickers)).restrict G).Run as s ∧ p s := by
  obtain ⟨s, hrun, hp⟩ := Machine.exists_run
    (M := (serverMachine (bookMatching K tickers)).restrict G)
    (Machine.restrict_step_of_guarded (step_of_run 10)) rfl as _ h
  exact ⟨s, hrun, of_decide_eq_true hp⟩

/-! ### Releases -/

/-- **Single release.**  If no cancel is let through while another one of the
same order is on its way, every release gives back an id that was acquired and
not released since, and the open orders have different slots. -/
theorem singleCancel_release {as : List (ServerAction K)}
    (h : (singleCancelRuns (bookMatching K tickers)).Run as s) :
    SingleRelease s.ops ∧ ((outstanding s.ops).map SlotId.index).Nodup := by
  have hinv := singleCancelRuns_inv bookMatching_lawful h
  exact ⟨hinv.releases, hinv.pool.nodup⟩

/-- The one ticker of the examples. -/
def onlyAAPL : Ticker → Bool := fun t => t = (65, 65, 80, 76)

/-- A buy order of client 7 comes to rest and is answered. -/
def restOne : List (ServerAction .cicd) :=
  [.client ⟨7, ⟨1, (65, 65, 80, 76), 5, 10, .Buy⟩⟩ 0,
    .work [.status ⟨⟨147456⟩, ⟨1025⟩, 0, 10, .Accepted⟩],
    .emit, .linkBook, .accept]

/-- The cancel of this order. -/
def cancelOne : ServerOrder := ⟨7, ⟨147456, (65, 65, 80, 76), 5, 10, .Cancel⟩⟩

/-- Two cancels of the order are under way before the first one is answered. -/
def cancelTwice : List (ServerAction .cicd) :=
  restOne ++ [.client cancelOne 0, .client cancelOne 0,
    .work [.status ⟨⟨147456⟩, ⟨1025⟩, 0, 0, .Cancelled⟩],
    .work [.status ⟨⟨147456⟩, ⟨1025⟩, 0, 0, .Cancelled⟩],
    .emit, .close, .release, .emit, .close, .release]

/-- One cancel, and after its answer another one, which is dropped. -/
def cancelInTurn : List (ServerAction .cicd) :=
  restOne ++ [.client cancelOne 0, .work [.status ⟨⟨147456⟩, ⟨1025⟩, 0, 0, .Cancelled⟩],
    .emit, .close, .client cancelOne 0, .release]

theorem cancelInTurn_run :
    ∃ s, (singleCancelRuns (bookMatching .cicd onlyAAPL)).Run cancelInTurn s ∧
      s.ops = [.acquired ⟨147456⟩, .released ⟨147456⟩] :=
  exists_run NoSecondCancel cancelInTurn _ (by decide +kernel)

theorem singleCancel_release_cancelInTurn :
    ∃ s, (singleCancelRuns (bookMatching .cicd onlyAAPL)).Run cancelInTurn s ∧
      SingleRelease s.ops ∧ ((outstanding s.ops).map SlotId.index).Nodup := by
  obtain ⟨s, hrun, _⟩ := cancelInTurn_run
  exact ⟨s, hrun, singleCancel_release hrun⟩

/-- Two cancels under way together release the id of their order twice. -/
theorem second_cancel_releases_twice :
    ∃ s, (serverMachine (bookMatching .cicd onlyAAPL)).Run cancelTwice s ∧
      ¬SingleRelease s.ops := by
  obtain ⟨s, hrun, hops⟩ := exists_run (fun _ _ => True) cancelTwice
    (fun s : Server (bookMatching .cicd onlyAAPL) =>
      s.ops = [.acquired ⟨147456⟩, .released ⟨147456⟩] ++ .released ⟨147456⟩ :: [])
    (by decide +kernel)
  refine ⟨s, hrun.of_restrict, fun hsingle => ?_⟩
  exact absurd (hsingle _ _ _ hops) (by decide)

/-! ### Cancels in the window -/

/-- Order `n` has been given the id `id` and is not closed. -/
structure Open (s : Server (bookMatching K tickers)) (n : ℕ) (id : SystemOrderId K) : Prop where
  owns : s.Owns n id
  notClosed : s.stateOf id ≠ .Closed

instance (s : Server (bookMatching K tickers)) (n : ℕ) (id : SystemOrderId K) :
    Decidable (s.Open n id) :=
  decidable_of_iff (s.Owns n id ∧ s.stateOf id ≠ .Closed)
    ⟨fun h => ⟨h.1, h.2⟩, fun h => ⟨h.owns, h.notClosed⟩⟩

/-- In the window the record is still `New`. -/
theorem Inv.new_of_inWindow (h : Inv s) (ho : s.Owns n id) (hw : s.InWindow n) :
    s.stateOf id = .New := by
  obtain ⟨st, _, hg | hg⟩ := hw
  · have hok := h.emitted hg
    rw [ho.unique hok.owns]
    exact hok.state
  · have hok := h.linked hg
    rw [ho.unique hok.owns]
    exact hok.state

/-- **No lost cancel.**  A client that has been told that its order rests sends
a cancel with the id it was told, and the order is not closed: the cancel is
forwarded to the book, with the handle the book gave to the order, if and only
if the gateway thread is not between sending that answer and setting the record
to `Accepted`. -/
theorem cancel_forwarded_iff {as : List (ServerAction K)}
    (h : (singleCancelRuns (bookMatching K tickers)).Run as s) {so c : ServerOrder}
    (horder : s.orders[n]? = some ⟨so, some id⟩) (htold : s.ToldResting n) (hopen : s.Open n id)
    (hclient : c.clientId = so.clientId) (hid : c.order.id = id.raw) :
    (∃ bookOId, s.assigned n = some bookOId ∧ s.cancelOrder c =
        some ⟨⟨id, bookOId, c.order.quantity, c.order.price⟩, c.order.ticker, c.order.action⟩) ↔
      ¬s.InWindow n := by
  have hinv := singleCancelRuns_inv bookMatching_lawful h
  have howner : s.owner id.index = n := hopen.owns.owner
  have hsys : (⟨c.order.id⟩ : SystemOrderId K) = id := by rw [hid]; rfl
  constructor
  · rintro ⟨bookOId, _, hc⟩ hw
    have hstate := (cancelOrder_eq_some.mp hc).1
    rw [hsys, hinv.new_of_inWindow hopen.owns hw] at hstate
    exact nomatch hstate
  · intro hw
    obtain ⟨⟨so', hso', hrec⟩, hacc, _, htold'⟩ := hinv.slots id hopen.owns.held
    rw [howner] at hso' hacc htold'
    rw [horder, Option.some_inj, Submission.mk.injEq] at hso'
    -- told and outside the window, so the record is no longer New
    have hstate : s.stateOf id = .Accepted := by
      have hnew := (htold' htold).resolve_right hw
      have hclosed := hopen.notClosed
      cases hs : s.stateOf id with
      | New => exact absurd hs hnew
      | Accepted => rfl
      | Closed => exact absurd hs hclosed
    refine ⟨_, hacc hstate, cancelOrder_eq_some.mpr ?_⟩
    rw [hsys]
    refine ⟨hstate, ?_, ?_, rfl⟩
    · rw [hclient, hso'.1, hrec.clientId]
    · rw [hid, hrec.systemOId]

theorem cancel_forwarded_iff_restOne :
    ∃ s, (singleCancelRuns (bookMatching .cicd onlyAAPL)).Run restOne s ∧
      ((∃ bookOId, s.assigned 0 = some bookOId ∧ s.cancelOrder cancelOne =
          some ⟨⟨⟨147456⟩, bookOId, 5, 10⟩, (65, 65, 80, 76), .Cancel⟩) ↔ ¬s.InWindow 0) := by
  obtain ⟨s, hrun, horder, htold, hopen⟩ := exists_run NoSecondCancel restOne
    (fun s : Server (bookMatching .cicd onlyAAPL) =>
      s.orders[0]? = some ⟨⟨7, ⟨1, (65, 65, 80, 76), 5, 10, .Buy⟩⟩, some ⟨147456⟩⟩ ∧
        s.ToldResting 0 ∧ s.Open 0 ⟨147456⟩) (by decide +kernel)
  exact ⟨s, hrun, cancel_forwarded_iff hrun horder htold hopen rfl rfl⟩

/-- A cancel that comes right after the answer is dropped. -/
theorem early_cancel_dropped :
    ∃ s, (serverMachine (bookMatching .cicd onlyAAPL)).Run (restOne.take 3) s ∧
      s.orders[0]? = some ⟨⟨7, ⟨1, (65, 65, 80, 76), 5, 10, .Buy⟩⟩, some ⟨147456⟩⟩ ∧
      s.ToldResting 0 ∧ s.Open 0 ⟨147456⟩ ∧
      cancelOne.clientId = 7 ∧ cancelOne.order.id = (⟨147456⟩ : SystemOrderId .cicd).raw ∧
      s.cancelOrder cancelOne = none := by
  obtain ⟨s, hrun, hs⟩ := exists_run (fun _ _ => True) (restOne.take 3)
    (fun s : Server (bookMatching .cicd onlyAAPL) =>
      s.orders[0]? = some ⟨⟨7, ⟨1, (65, 65, 80, 76), 5, 10, .Buy⟩⟩, some ⟨147456⟩⟩ ∧
        s.ToldResting 0 ∧ s.Open 0 ⟨147456⟩ ∧
        cancelOne.clientId = 7 ∧ cancelOne.order.id = (⟨147456⟩ : SystemOrderId .cicd).raw ∧
        s.cancelOrder cancelOne = none) (by decide +kernel)
  exact ⟨s, hrun.of_restrict, hs⟩

end Server
