/-
What a step of the trade engine does to the orders in its hands.

An order of the engine is in one place at a time (`EngineState.tokens`), and a step of the
engine's threads leaves every order where it is, takes up or lets go one of them, or moves
one to the next place.  `EngineMove` lists these moves, with what each of them does to the
records, and `engineMove_of_act` reads the move off a step.

This is what the engine looks like from outside: the proofs about the connected system go
by the moves and not by the steps.
-/
import TradingPlatform.System.Model

open TradeEngine SequencedSPSC SlotIdPool

namespace TradingSystem

variable {c : Capacity} {N : SlotCount}

/-- The records hold the same orders, and the same is known of them. -/
structure SameOrders (st st' : EngineState c) : Prop where
  orders : ∀ i, (st'.orders i).order = (st.orders i).order
  assigned : st'.assigned = st.assigned
  newOrders : st'.newOrders = st.newOrders
  cancels : st'.cancels = st.cancels
  recorded : ∀ order, st'.trader = .recorded order → st.trader = .recorded order

/-- An order goes to its next place inside the engine. -/
inductive Advance : Token c → Token c → Prop
  | store (s : OrderStatus) : Advance (.answered s) (.stored s)
  | request (s : OrderStatus) (hs : s.state = .Accepted) : Advance (.stored s) (.requested s)
  | enqueue (s : OrderStatus) : Advance (.requested s) (.waiting (soid s : SlotId c).index)

/-- `EngineMove st msgs st'`: one move of the engine, which posts `msgs`. -/
inductive EngineMove (st : EngineState c) : List (Order × OrderId) → EngineState c → Prop
  | quiet {st' : EngineState c} : st'.tokens = st.tokens → SameOrders st st' → EngineMove st [] st'
  | acquire {st' : EngineState c} {id : SlotId c} : st'.tokens = .acquired id ::ₘ st.tokens →
      SameOrders st st' → EngineMove st [] st'
  | forget {st' : EngineState c} {t : Token c} : st.tokens = t ::ₘ st'.tokens →
      SameOrders st st' → EngineMove st [] st'
  | advance {st' : EngineState c} {t t' : Token c} {rest : Multiset (Token c)} :
      st.tokens = t ::ₘ rest → st'.tokens = t' ::ₘ rest → Advance t t' → SameOrders st st' →
      EngineMove st [] st'
  | record {id : SlotId c} {order : Order} {now : ℕ} : st.trader = .acquired id →
      Drawn id order → EngineMove st [] { st with
        orders := Function.update st.orders id.index ⟨order, now, id⟩
        trader := .recorded order }
  | postNew {order : Order} : st.trader = .recorded order →
      EngineMove st [(order, order.id)] { st with
        trader := .idle
        newOrders := order ::ₘ st.newOrders
        assigned := Function.update st.assigned order.id none }
  | postCancel {idx : ℕ} : st.trader = .touched idx →
      EngineMove st [(cancelOrder (st.orders idx), (st.orders idx).order.id)] { st with
        trader := .idle
        cancels := (cancelOrder (st.orders idx), (st.orders idx).order.id) ::ₘ st.cancels }

variable {st st' : EngineState c}

/-- Steps that touch neither records nor what is in flight. -/
theorem SameOrders.of_eq (horders : st'.orders = st.orders) (hassigned : st'.assigned = st.assigned)
    (hnew : st'.newOrders = st.newOrders) (hcancels : st'.cancels = st.cancels)
    (hrec : ∀ order, st'.trader = .recorded order → st.trader = .recorded order) :
    SameOrders st st' :=
  ⟨fun i => by rw [horders], hassigned, hnew, hcancels, hrec⟩

/-- A record is written again with the same order. -/
theorem order_update (orders : ℕ → ClientOrder c) {i : ℕ} {r : ClientOrder c}
    (hr : r.order = (orders i).order) (j : ℕ) :
    (Function.update orders i r j).order = (orders j).order := by
  by_cases hj : j = i
  · rw [hj, Function.update_self, hr]
  · rw [Function.update_of_ne hj]

theorem move_read (h : Tracked N st) {e : QueueAction} {q : QueueState}
    (ht : st.trader = .reading) (he : isRead 4 e = true) (hq : st.toCancel.act N e = some q) :
    EngineMove st [] { st with toCancel := q, trader := afterRead st.toCancel.reader e } := by
  obtain ⟨_, hcase⟩ := read_cases (c := c) h.queue he hq
  have hidle : st.trader.tokens = 0 := by
    rw [ht]
    rfl
  rcases hcase with ⟨hwait, hafter⟩ | ⟨msg, hwait, hafter⟩
  · refine .quiet (EngineState.tokens_congr ?_ rfl (EngineState.inFlight_queue hwait))
      (.of_eq rfl rfl rfl rfl ?_)
    · rw [hidle]
      rcases hafter with hafter | hafter
      · rw [hafter]
        rfl
      · rw [hafter]
        rfl
    · intro order hrec
      change afterRead st.toCancel.reader e = _ at hrec
      rcases hafter with hafter | hafter
      · exact nomatch hafter.symm.trans hrec
      · exact nomatch hafter.symm.trans hrec
  · -- the order goes from the queue to the loop
    have hfirst : (queueTokens st.toCancel.waiting : Multiset (Token c)) =
        .waiting (Bytes.ofLeBytes msg) ::ₘ queueTokens q.waiting := by
      rw [hwait]
      rfl
    have hs := EngineState.tokens_of_inFlight (EngineState.inFlight_waiting st hfirst)
    rw [hidle, Multiset.zero_add] at hs
    refine .quiet ((EngineState.tokens_of_trader hafter rfl).trans hs.symm)
      (.of_eq rfl rfl rfl rfl ?_)
    intro order hrec
    exact nomatch hafter.symm.trans hrec

theorem move_acquire (h : Tracked N st) {a : PoolAction c} {p : PoolState c}
    (ht : st.trader = .acquiring) (ha : isAcquire a = true) (hp : st.pool.act a = some p) :
    EngineMove st [] { st with
      pool := p
      trader := afterAcquire a
      acquired := st.acquired ++ ((returned a).filter SlotId.isValid).toList } := by
  obtain ⟨H, C, T, hparties⟩ := h.pool
  obtain ⟨_, hcase⟩ := acquire_cases hparties ha hp
  have hidle : st.trader.tokens = 0 := by
    rw [ht]
    rfl
  have hrec : ∀ order, afterAcquire a ≠ .recorded order := by
    intro order
    rw [afterAcquire]
    split
    · split
      · simp
      · simp
    · simp
  rcases hcase with ⟨id, hret, hvalid, _, _⟩ | ⟨hret, _⟩
  · have hafter : afterAcquire a = .acquired id := by
      rw [afterAcquire, hret]
      exact if_pos hvalid
    have htokens : EngineState.tokens { st with
        pool := p
        trader := afterAcquire a
        acquired := st.acquired ++ ((returned a).filter SlotId.isValid).toList } =
          .acquired id ::ₘ st.tokens := by
      rw [EngineState.tokens, EngineState.tokens, hidle, Multiset.zero_add]
      show (afterAcquire a).tokens + _ = _
      rw [hafter]
      exact Multiset.singleton_add _ _
    exact .acquire htokens (.of_eq rfl rfl rfl rfl fun order heq => absurd heq (hrec order))
  · refine .quiet (EngineState.tokens_congr ?_ rfl rfl)
      (.of_eq rfl rfl rfl rfl fun order heq => absurd heq (hrec order))
    rw [hidle]
    exact afterAcquire_tokens hret

/-- The handler lets go of the order it has. -/
theorem move_drop {t : Token c} {hd : Handler} (hh : st.handler = hd) (ht : hd.tokens = {t})
    (hst' : st'.tokens = st.trader.tokens + st.inFlight) (hsame : SameOrders st st') :
    EngineMove st [] st' := by
  refine .forget (t := t) ?_ hsame
  rw [hst']
  exact EngineState.tokens_of_handler hh ht

theorem move_check {s : OrderStatus} (hh : st.handler = .received s) :
    EngineMove st [] { st with handler := st.afterCheck s } := by
  have hsame : ∀ hd : Handler, SameOrders st { st with handler := hd } :=
    fun hd => .of_eq rfl rfl rfl rfl fun _ => id
  have hdrop : ∀ hd : Handler, (hd.tokens : Multiset (Token c)) = 0 →
      EngineMove st [] { st with handler := hd } := by
    intro hd hhd
    refine move_drop hh rfl ?_ (hsame hd)
    show _ + ((hd.tokens : Multiset (Token c)) + _) = _
    rw [hhd, Multiset.zero_add]
    rfl
  rw [EngineState.afterCheck]
  split
  · exact hdrop .idle rfl
  · split
    · exact hdrop .joining rfl
    · split
      · exact hdrop .joining rfl
      · exact .quiet (EngineState.tokens_congr rfl (by rw [hh]; rfl) rfl) (hsame _)

theorem move_store {s : OrderStatus} (hh : st.handler = .checked s) :
    EngineMove st [] { st with
      orders := Function.update st.orders (soid s : SlotId c).index
        { st.record s with sysOId := ⟨s.systemOrderId⟩ }
      handler := .stored s } := by
  refine .advance (EngineState.tokens_of_handler hh rfl) (EngineState.tokens_of_handler rfl rfl)
    (.store s) ⟨?_, rfl, rfl, rfl, fun _ => id⟩
  intro i
  exact order_update st.orders (r := { st.record s with sysOId := ⟨s.systemOrderId⟩ }) rfl i

theorem move_write (h : Tracked N st) {e : QueueAction} {q : QueueState} {s : OrderStatus}
    (hh : st.handler = .requesting s) (he : isWrite (request c s) e = true)
    (hq : st.toCancel.act N e = some q) :
    EngineMove st [] { st with toCancel := q, handler := afterWrite s e } := by
  have hw : ∀ src, st.toCancel.writer.src = some src → src = request c s := by
    intro src hsrc
    obtain ⟨s', hs', rfl⟩ := h.writer src hsrc
    rw [hh] at hs'
    rw [Handler.requesting.inj hs']
  have hsame : ∀ hd : Handler, SameOrders st { st with toCancel := q, handler := hd } :=
    fun hd => .of_eq rfl rfl rfl rfl fun _ => id
  rcases write_cases h.queue hw he hq with ⟨hafter, hwait, _⟩ | ⟨hafter, _, hwait⟩
  · rw [hafter]
    exact .quiet (EngineState.tokens_congr rfl (by rw [hh]) (EngineState.inFlight_queue hwait))
      (hsame _)
  · rw [hafter]
    rcases hwait with hwait | hwait
    · -- the queue was full: the order stays open
      refine move_drop hh rfl ?_ (hsame _)
      rw [← EngineState.inFlight_queue hwait]
      exact congrArg _ (Multiset.zero_add _)
    · -- the order goes from the handler to the queue
      have hflight : { st with toCancel := q, handler := .idle }.inFlight =
          .waiting (soid s : SlotId c).index ::ₘ st.inFlight := by
        rw [← ofLeBytes_request]
        refine EngineState.inFlight_waiting _ (q := st.toCancel) ?_
        show queueTokens q.waiting = _
        rw [hwait, queueTokens_append]
      have hs' : { st with toCancel := q, handler := .idle }.tokens =
          .waiting (soid s : SlotId c).index ::ₘ (st.trader.tokens + st.inFlight) := by
        rw [EngineState.tokens_of_inFlight hflight]
        exact congrArg (fun m => Token.waiting _ ::ₘ (st.trader.tokens + m))
          (Multiset.zero_add st.inFlight)
      exact .advance (EngineState.tokens_of_handler hh rfl) hs' (.enqueue s) (hsame _)

/-- The move behind a step of the engine's threads. -/
theorem engineMove_of_act (h : Tracked N st) {e : EngineAction c} (hown : e.own = true)
    (hs : st.act N e = some st') : EngineMove st (posted st e) st' := by
  cases step_of_act hs with
  | loop ht ht' =>
    refine .quiet (EngineState.tokens_congr ?_ rfl rfl) (.of_eq rfl rfl rfl rfl ?_)
    · rw [ht]
      rcases ht' with rfl | rfl | rfl
      · rfl
      · rfl
      · rfl
    · rintro order rfl
      simp at ht'
  | read ht he hq => exact move_read h ht he hq
  | acquire ht ha hp => exact move_acquire h ht ha hp
  | record ht hdrawn => exact .record ht hdrawn
  | postNew ht =>
    rw [posted, ht]
    exact .postNew ht
  | @touch now idx ht =>
    refine .quiet ?_ ⟨?_, rfl, rfl, rfl, ?_⟩
    · exact EngineState.tokens_congr (by rw [ht]; rfl) rfl rfl
    · intro i
      exact order_update st.orders (r := { st.orders idx with created := now }) rfl i
    · intro order hrec
      exact nomatch hrec
  | postCancel ht =>
    rw [posted, ht]
    exact .postCancel ht
  | @receive s hh hmem =>
    refine .quiet ?_ (.of_eq rfl rfl rfl rfl fun _ => id)
    have htokens := EngineState.tokens_of_inFlight
      (EngineState.inFlight_status st (Multiset.cons_erase hmem).symm)
    have hidle : (st.handler.tokens : Multiset (Token c)) = 0 := by
      rw [hh]
      rfl
    rw [hidle, Multiset.zero_add] at htokens
    exact (EngineState.tokens_of_handler rfl rfl).trans htokens.symm
  | check hh => exact move_check hh
  | store hh => exact move_store hh
  | keep hh =>
    exact move_drop hh rfl (congrArg _ (Multiset.zero_add _)) (.of_eq rfl rfl rfl rfl fun _ => id)
  | @request coin s hh hstate =>
    exact .advance (EngineState.tokens_of_handler hh rfl) (EngineState.tokens_of_handler rfl rfl)
      (.request s hstate) (.of_eq rfl rfl rfl rfl fun _ => id)
  | close hh =>
    exact .quiet (EngineState.tokens_congr rfl (by rw [hh]; rfl) rfl)
      (.of_eq rfl rfl rfl rfl fun _ => id)
  | write hh he hq => exact move_write h hh he hq
  | releaseWrite => exact .quiet rfl (.of_eq rfl rfl rfl rfl fun _ => id)
  | releasePublish hh _ =>
    exact move_drop hh rfl (congrArg _ (Multiset.zero_add _)) (.of_eq rfl rfl rfl rfl fun _ => id)
  | joined hh _ =>
    exact .quiet (EngineState.tokens_congr rfl (by rw [hh]; rfl) rfl)
      (.of_eq rfl rfl rfl rfl fun _ => id)
  | requestStop => exact .quiet rfl (.of_eq rfl rfl rfl rfl fun _ => id)
  | setTrading => exact .quiet rfl (.of_eq rfl rfl rfl rfl fun _ => id)
  | answerNew | answerCancel => exact nomatch hown

end TradingSystem
