/-
Every new order is answered, and when it is not.

An order leaves the path without an answer where its ticker has no book, where
its price is beyond the book, where the book has no node left for it, and where
a queue has no place for its event or its status.  `Answerable` excludes these
steps, and with them the cancels that corrupt a record or a book (see
`NoSecondCancel` and `CancelSafe`).

* `answerable_answered` — along all other steps an order is either still
  waiting, with its event or its status in a queue, or has been answered once
  (`Progress`); so once the queues have drained every order has exactly one
  answer, and if the answer does not leave it resting its id has been given
  back.  Until then one of the threads can go on, and every step brings the
  server closer to that point;
* `unanswered` — an order for an unknown ticker, and one beyond the book.
-/
import TradingPlatform.Server.Routing
import TradingPlatform.Lib.Ring

variable {K : Constants} {tickers : Ticker → Bool}

/-! ### The answers of a book -/

namespace PriceLevelOrderBook

variable {b b' : PriceLevelOrderBook K} {q : Side → ℕ → List ℕ} {ioe : InternalOrderEvent K}
  {msgs : List (BookMessage K)}

/-- A new order is filled at once, or trades and thereby frees a node, or there
is a node left for it. -/
def HasRoom (b : PriceLevelOrderBook K) (o : InternalOrder K) (side : Side) : Prop :=
  o.quantity = 0 ∨ b.orders.count < K.maxBookOrders.val - 1 ∨
    ∃ x ∈ b.orders.orders side.opposite, crosses side o.price x.price = true

/-- The book can answer a new order; a cancel does not corrupt it. -/
def CanAnswer (b : PriceLevelOrderBook K) (ioe : InternalOrderEvent K) : Prop :=
  (ioe.action = .Cancel → b.orders.Holds ioe.order.bookOId ∨
    (b.nodePool ioe.order.bookOId.index).localId ≠ ioe.order.bookOId) ∧
  (ioe.action ≠ .Cancel → b.HasRoom ioe.order (getSide ioe.action))

instance (b : PriceLevelOrderBook K) (o : InternalOrder K) (side : Side) :
    Decidable (b.HasRoom o side) :=
  inferInstanceAs (Decidable (_ ∨ _ ∨ _))

instance (b : PriceLevelOrderBook K) (ioe : InternalOrderEvent K) : Decidable (b.CanAnswer ioe) :=
  inferInstanceAs (Decidable (_ ∧ _))

/-- A book that can answer stays consistent. -/
theorem Rep.add_rep (h : Rep b q)
    (hact : ioe.action = .Buy ∨ ioe.action = .Sell ∨ ioe.action = .Cancel)
    (hcan : b.CanAnswer ioe) (hadds : Adds b ioe msgs b') : ∃ q', Rep b' q' := by
  have hadmissible : b.Admissible ioe → ∃ q', Rep b' q' := by
    intro ha
    obtain ⟨b₁, q', _, ret, _, hadd, hrep, _⟩ := add_spec h ha (Nat.lt_succ_self _)
    rw [(hadds.det ⟨_, ret, hadd⟩).2]
    exact ⟨q', hrep⟩
  rcases hact with ha | ha | ha
  · exact hadmissible (.inl ha)
  · exact hadmissible (.inr (.inl ha))
  · rcases hcan.1 ha with hholds | hne
    · exact hadmissible (.inr (.inr ⟨ha, hholds⟩))
    · -- a cancel with a handle that is not the node's is rejected
      rw [(adds_cancel ha hadds).1, cancelOrder_rejected hne]
      exact ⟨q, h⟩

/-- A book with room posts one status for a new order. -/
theorem Rep.posts_status (h : Rep b q) (hact : ioe.action ≠ .Cancel)
    (hp : ioe.order.price < K.maxTicks) (hcan : b.CanAnswer ioe) (hadds : Adds b ioe msgs b') :
    ∃ st, statusesOf msgs = [st] := by
  obtain ⟨msgs', b₁, hadds', hcase⟩ := h.fill_report hact hp
  rw [(hadds.det hadds').1]
  rcases hcase with ⟨st, rfl, _⟩ | ⟨_, hqty, hrefused⟩
  · exact ⟨st, rfl⟩
  · exfalso
    rcases hcan.2 hact with hzero | hcount | ⟨x, hx, hcross⟩
    · rw [hzero] at hqty
      exact absurd hqty (lt_irrefl 0)
    · exact absurd hrefused.full (Nat.ne_of_lt hcount)
    · rw [hrefused.no_match x hx] at hcross
      exact Bool.noConfusion hcross

/-- A consistent book answers every event, one way or another. -/
theorem Rep.exists_adds (h : Rep b q)
    (hact : ioe.action = .Buy ∨ ioe.action = .Sell ∨ ioe.action = .Cancel) :
    ∃ msgs b', Adds b ioe msgs b' := by
  have hnew : b.Admissible ioe → ∃ msgs b', Adds b ioe msgs b' := by
    intro ha
    obtain ⟨b₁, _, msgs, ret, _, hadd, _⟩ := add_spec h ha (Nat.lt_succ_self _)
    exact ⟨msgs, b₁, _, ret, hadd⟩
  rcases hact with ha | ha | ha
  · exact hnew (.inl ha)
  · exact hnew (.inr (.inl ha))
  · exact ⟨_, _, 0, true, by rw [add, if_pos ha]⟩

end PriceLevelOrderBook

/-! ### Answers -/

/-- The gateway thread is about to give back the id of order `n`, which was
filled at once. -/
def GatewayPc.Closing (n : ℕ) : GatewayPc K → Prop
  | .emitted tag st => tag = ⟨n, false⟩ ∧ st.state.closes = true
  | .closed tag _ => tag = ⟨n, false⟩
  | _ => False

/-- The steps of the worker and the gateway thread. -/
def ServerAction.internal : ServerAction K → Bool
  | .client _ _ => false
  | _ => true

/-- `x` answers the new order `so`. -/
structure Sent.AnswersOrder (x : Sent) (so : ServerOrder) : Prop where
  clientId : x.status.clientId = so.clientId
  orderId : x.status.orderStatus.orderId = so.order.id
  state : x.status.orderStatus.state ∈
    [OrderState.Accepted, OrderState.Partial, OrderState.Full, OrderState.Rejected]

namespace Server

variable {M : Matching K} {s s' : Server M} {n : ℕ} {so : ServerOrder}

/-- What was sent in answer to order `n`. -/
def answers (s : Server M) (n : ℕ) : List Sent :=
  s.sent.filter fun x => x.about = some ⟨n, false⟩

/-- What the events and statuses in the queues are about. -/
def queued (s : Server M) : List Tag := s.events.map (·.1) ++ s.statuses.map (·.1)

/-- Order `n`, which is `so`, waits for its answer, or has got it. -/
def Progress (s : Server M) (n : ℕ) (so : ServerOrder) : Prop :=
  s.answers n = [] ∧ (⟨n, false⟩ : Tag) ∈ s.queued ∨
    ∃ x, s.answers n = [x] ∧ x.AnswersOrder so ∧ (⟨n, false⟩ : Tag) ∉ s.queued ∧
      (x.status.orderStatus.state.rests = false →
        ∀ id, s.Owns n id → s.gateway.Closing n)

theorem Progress.frame (h : s.Progress n so) (hans : s'.answers n = s.answers n)
    (hqueued : (⟨n, false⟩ : Tag) ∈ s'.queued ↔ (⟨n, false⟩ : Tag) ∈ s.queued)
    (howns : ∀ id, s'.Owns n id → s.Owns n id)
    (hclosing : ∀ id, s'.Owns n id → s.gateway.Closing n → s'.gateway.Closing n) :
    s'.Progress n so := by
  rcases h with ⟨hnone, hin⟩ | ⟨x, hone, hx, hnot, hback⟩
  · exact .inl ⟨hans.trans hnone, hqueued.mpr hin⟩
  · exact .inr ⟨x, hans.trans hone, hx, fun hin => hnot (hqueued.mp hin),
      fun hrests id ho => hclosing id ho (hback hrests id (howns id ho))⟩

theorem mem_queued {tag : Tag} : tag ∈ s.queued ↔
    (∃ e, (tag, e) ∈ s.events) ∨ ∃ st, (tag, st) ∈ s.statuses := by
  simp [queued]

theorem mem_queued_post {tag tag' : Tag} {e : InternalOrderEvent K}
    (hev : s'.events = s.events ++ [(tag', e)]) (hst : s'.statuses = s.statuses)
    (hne : tag ≠ tag') : tag ∈ s'.queued ↔ tag ∈ s.queued := by
  rw [mem_queued, mem_queued, hev, hst]
  simp [hne]

theorem mem_queued_emit {tag tag' : Tag} {st : InternalOrderStatus K}
    (hev : s'.events = s.events) (hst : s.statuses = (tag', st) :: s'.statuses)
    (hne : tag ≠ tag') : tag ∈ s'.queued ↔ tag ∈ s.queued := by
  rw [mem_queued, mem_queued, hev, hst]
  simp [hne]

/-- A message that is not an answer to order `n` is not counted as one. -/
theorem answers_sent {y : Sent} (hsent : s'.sent = s.sent ++ [y]) :
    s'.answers n = s.answers n ++ if y.about = some ⟨n, false⟩ then [y] else [] := by
  rw [answers, answers, hsent, List.filter_append, List.filter_singleton]
  simp

/-! ### The invariant -/

/-- The books of the tickers. -/
def books (s : Server (bookMatching K tickers)) : Ticker → PriceLevelOrderBook K := s.matching

/-- What holds along every run of answerable steps. -/
structure AnswerInv (s : Server (bookMatching K tickers)) : Prop where
  books : ∀ t, ∃ q, (s.books t).Rep q
  events : ∀ x ∈ s.events, x.1.cancel = false →
    (x.2.action = .Buy ∨ x.2.action = .Sell) ∧ x.2.order.price < K.maxTicks
  known : ∀ x ∈ s.sent, ∀ tag, x.about = some tag → tag.order < s.orders.length
  progress : ∀ n sub, s.orders[n]? = some sub → s.Progress n sub.request

/-- The steps after which every order is answered. -/
def Answerable (s : Server (bookMatching K tickers)) : ServerAction K → Prop
  | .client so about => s.NoSecondCancel (.client so about) ∧
      ((so.order.action = .Buy ∨ so.order.action = .Sell) → isValid so = true →
        s.idPool.acquire.1.isValid = true →
        s.CanPost (newEvent so s.idPool.acquire.1) ∧ so.order.price < K.maxTicks)
  | .work _ => ∀ x ∈ s.events.head?,
      (s.books x.2.ticker).CanAnswer x.2 ∧
        (x.2.action ≠ .Cancel → s.statuses.length < lfqCapacity)
  | _ => True

instance (s : Server (bookMatching K tickers)) :
    (a : ServerAction K) → Decidable (s.Answerable a)
  | .client _ _ => inferInstanceAs (Decidable (_ ∧ _))
  | .work _ => inferInstanceAs (Decidable (∀ x ∈ s.events.head?, _))
  | .emit | .linkBook | .accept | .close | .release => .isTrue trivial

theorem Answerable.noSecondCancel {s : Server (bookMatching K tickers)} {a : ServerAction K}
    (h : s.Answerable a) : s.NoSecondCancel a := by
  cases a with
  | client so about => exact h.1
  | _ => trivial

section

variable {s s' : Server (bookMatching K tickers)} {about : ℕ} {tag : Tag} {id : SystemOrderId K}

/-! ### The network thread -/

/-- The orders in the queues are orders that came in. -/
theorem Inv.queued_lt (h : Inv s) (htag : tag ∈ s.queued) : tag.order < s.orders.length := by
  rcases mem_queued.mp htag with ⟨e, hx⟩ | ⟨st, hx⟩
  · exact (h.events _ hx).owns.lt
  · exact (h.statuses _ hx).owns.lt

/-- An order that has not come in yet has no answers. -/
theorem AnswerInv.answers_next (ha : AnswerInv s) : s.answers s.orders.length = [] := by
  rw [answers, List.filter_eq_nil_iff]
  intro x hx habout
  exact lt_irrefl _ (ha.known x hx _ (of_decide_eq_true habout))

theorem AnswerInv.reject (ha : AnswerInv s) (h : Inv s) : AnswerInv (s.reject so) := by
  have hans : ∀ n, (s.reject so).answers n = s.answers n ++ _ := fun n => answers_sent rfl
  refine ⟨ha.books, ha.events, fun x hx tag habout => ?_, fun n sub hn => ?_⟩
  · show tag.order < (s.orders ++ [_]).length
    rw [List.length_append, List.length_singleton]
    rcases List.mem_append.mp hx with hx | hx
    · exact Nat.lt_succ_of_lt (ha.known x hx tag habout)
    · rw [List.mem_singleton.mp hx, Option.some_inj] at habout
      rw [← habout]
      exact Nat.lt_succ_self _
  · rcases Ring.old_or_new hn with hold | ⟨hlen, rfl⟩
    · have hlt := (List.getElem?_eq_some_iff.mp hold).1
      refine (ha.progress n sub hold).frame ?_ Iff.rfl ?_ (fun _ _ hc => hc)
      · rw [hans, if_neg, List.append_nil]
        rw [Option.some_inj, Tag.mk.injEq]
        omega
      · rintro id ⟨⟨so', hso'⟩, hid, howner⟩
        rcases Ring.old_or_new hso' with hso' | ⟨hlen, _⟩
        · exact ⟨⟨so', hso'⟩, hid, howner⟩
        · omega
    · -- the new order: rejected, and without an id
      refine .inr ⟨⟨some ⟨s.orders.length, false⟩, false, rejection so⟩, ?_,
        ⟨rfl, rfl, by simp [rejection]⟩, ?_, ?_⟩
      · rw [hans, hlen, if_pos rfl, ha.answers_next, List.nil_append]
      · intro hin
        have hlt : n < s.orders.length :=
          h.queued_lt (show (⟨n, false⟩ : Tag) ∈ s.queued from hin)
        omega
      · rintro _ id ⟨⟨so', hso'⟩, _, _⟩
        rw [hn, Option.some_inj, Submission.mk.injEq] at hso'
        exact absurd hso'.2 nofun

theorem AnswerInv.createRecord (ha : AnswerInv s) (h : Inv s)
    (hact : so.order.action = .Buy ∨ so.order.action = .Sell)
    (hv : s.idPool.acquire.1.isValid = true)
    (hpost : s.CanPost (newEvent so s.idPool.acquire.1)) (hprice : so.order.price < K.maxTicks) :
    AnswerInv ((s.createRecord so s.idPool.acquire.1 s.idPool.acquire.2).postEvent
      ⟨s.orders.length, false⟩ (newEvent so s.idPool.acquire.1)) := by
  set s₁ := s.createRecord so s.idPool.acquire.1 s.idPool.acquire.2
  set e := newEvent so s.idPool.acquire.1
  have heq : s₁.postEvent ⟨s.orders.length, false⟩ e =
      { s₁ with events := s.events ++ [(⟨s.orders.length, false⟩, e)] } := if_pos hpost
  rw [heq]
  refine ⟨ha.books, fun x hx hnew => ?_, fun x hx tag habout => ?_, fun n sub hn => ?_⟩
  · rcases List.mem_append.mp hx with hx | hx
    · exact ha.events x hx hnew
    · rw [List.mem_singleton.mp hx]
      exact ⟨hact, hprice⟩
  · show tag.order < (s.orders ++ [_]).length
    rw [List.length_append, List.length_singleton]
    exact Nat.lt_succ_of_lt (ha.known x hx tag habout)
  · rcases Ring.old_or_new hn with hold | ⟨hlen, rfl⟩
    · have hlt := (List.getElem?_eq_some_iff.mp hold).1
      have hne : (⟨n, false⟩ : Tag) ≠ ⟨s.orders.length, false⟩ := by
        rw [Ne, Tag.mk.injEq]
        omega
      refine (ha.progress n sub hold).frame rfl (mem_queued_post rfl rfl hne) ?_
        (fun _ _ hc => hc)
      · intro id ho
        exact (h.createRecord_owns so hv (by omega)).mp (ho.congr rfl rfl rfl)
    · -- the new order: its event has just been queued
      rw [hlen]
      refine .inl ⟨ha.answers_next, mem_queued.mpr (.inl ⟨e, ?_⟩)⟩
      exact List.mem_append_right _ (List.mem_singleton_self _)

theorem AnswerInv.cancel (ha : AnswerInv s) {e : InternalOrderEvent K}
    (hcancel : tag.cancel = true) : AnswerInv (s.postEvent tag e) := by
  have hne : ∀ n, (⟨n, false⟩ : Tag) ≠ tag := by
    rintro n rfl
    exact Bool.noConfusion hcancel
  rw [Server.postEvent]
  split
  · refine ⟨ha.books, fun x hx hnew => ?_, ha.known, fun n sub hn => ?_⟩
    · rcases List.mem_append.mp hx with hx | hx
      · exact ha.events x hx hnew
      · rw [List.mem_singleton.mp hx, hcancel] at hnew
        exact Bool.noConfusion hnew
    · exact (ha.progress n sub hn).frame rfl (mem_queued_post rfl rfl (hne n))
        (fun _ ho => ho.congr rfl rfl rfl) (fun _ _ hc => hc)
  · exact ha

theorem AnswerInv.postOrder (ha : AnswerInv s) (h : Inv s)
    (hok : s.Answerable (.client so about)) : AnswerInv (s.postOrder so) := by
  have hmove := postOrder_move s so
  generalize s.postOrder so = s' at hmove ⊢
  cases hmove with
  | ignore => exact ha
  | refuse =>
    refine ⟨ha.books, ha.events, fun x hx tag habout => ?_, fun n sub hn => ?_⟩
    · rcases List.mem_append.mp hx with hx | hx
      · exact ha.known x hx tag habout
      · rw [List.mem_singleton.mp hx] at habout
        exact absurd habout nofun
    · refine (ha.progress n sub hn).frame ?_ Iff.rfl (fun _ ho => ho.congr rfl rfl rfl)
        (fun _ _ hc => hc)
      rw [answers_sent rfl, if_neg nofun, List.append_nil]
  | reject => exact ha.reject h
  | exhausted hact hv =>
    refine AnswerInv.reject ⟨ha.books, ha.events, ha.known, fun n sub hn => ?_⟩ (h.exhausted hv)
    exact (ha.progress n sub hn).frame rfl Iff.rfl (fun _ ho => ho.congr rfl rfl rfl)
      fun _ _ hc => hc
  | create hact hprice hv =>
    obtain ⟨hpost, hlt⟩ := hok.2 hact hprice hv
    exact ha.createRecord h hact hv hpost hlt
  | cancel => exact ha.cancel rfl

theorem AnswerInv.clientStep (ha : AnswerInv s) (h : Inv s)
    (hok : s.Answerable (.client so about)) : AnswerInv (s.clientStep so about) := by
  have hpost := ha.postOrder h hok
  rw [Server.clientStep]
  split
  · refine ⟨hpost.books, hpost.events, hpost.known, fun n sub hn => ?_⟩
    exact (hpost.progress n sub hn).frame rfl Iff.rfl (fun _ ho => ho.congr rfl rfl rfl)
      fun _ _ hc => hc
  · exact hpost

/-! ### The worker and the gateway thread -/

/-- The worker moves the tag of a new order from one queue to the other. -/
theorem mem_queued_worked {e : InternalOrderEvent K} {rest : List (Tag × InternalOrderEvent K)}
    {msgs : List (BookMessage K)} {σ : (bookMatching K tickers).State}
    (hev : s.events = (tag, e) :: rest)
    (hposts : tag.cancel = false →
      s.statuses.length < lfqCapacity ∧ ∃ st, statusesOf msgs = [st]) :
    (⟨n, false⟩ : Tag) ∈ (s.worked tag rest msgs σ).queued ↔ (⟨n, false⟩ : Tag) ∈ s.queued := by
  rw [mem_queued, mem_queued, hev]
  constructor
  · rintro (⟨e', hx⟩ | ⟨st, hx⟩)
    · exact .inl ⟨e', List.mem_cons_of_mem _ hx⟩
    · rcases List.mem_append.mp hx with hx | hx
      · exact .inr ⟨st, hx⟩
      · obtain ⟨_, _, heq⟩ := List.mem_map.mp (List.mem_of_mem_take hx)
        rw [← (Prod.mk.inj heq).1]
        exact .inl ⟨e, List.mem_cons_self⟩
  · rintro (⟨e', hx⟩ | ⟨st, hx⟩)
    · rcases List.mem_cons.mp hx with heq | hx
      · -- the event that leaves the worker's queue: its status has been queued
        obtain ⟨htag, _⟩ := Prod.mk.inj heq
        obtain ⟨hroom, st, hst⟩ := hposts (by rw [← htag])
        refine .inr ⟨st, List.mem_append_right _ ?_⟩
        obtain ⟨k, hk⟩ : ∃ k, lfqCapacity - s.statuses.length = k + 1 :=
          ⟨lfqCapacity - s.statuses.length - 1, by omega⟩
        rw [hst, hk, List.map_singleton, List.take_succ_cons, htag]
        exact List.mem_cons_self
      · exact .inl ⟨e', hx⟩
    · exact .inr ⟨st, List.mem_append_left _ hx⟩

/-- The events are new orders and cancels. -/
theorem AnswerInv.action (ha : AnswerInv s) (h : Inv s) {x : Tag × InternalOrderEvent K}
    (hx : x ∈ s.events) :
    x.2.action = .Buy ∨ x.2.action = .Sell ∨ x.2.action = .Cancel := by
  cases hc : x.1.cancel with
  | false => exact (ha.events x hx hc).1.imp_right .inl
  | true => exact .inr (.inr ((h.events x hx).action.mpr hc))

theorem AnswerInv.worked (ha : AnswerInv s) (h : Inv s) {e : InternalOrderEvent K}
    {rest : List (Tag × InternalOrderEvent K)} {msgs : List (BookMessage K)}
    {b : PriceLevelOrderBook K} {σ : (bookMatching K tickers).State}
    (hev : s.events = (tag, e) :: rest) (hcan : (s.books e.ticker).CanAnswer e)
    (hroom : e.action ≠ .Cancel → s.statuses.length < lfqCapacity)
    (hadds : (s.books e.ticker).Adds e msgs b)
    (hσ : σ = Function.update s.books e.ticker b) :
    AnswerInv (s.worked tag rest msgs σ) := by
  have hbooks : (s.worked tag rest msgs σ).books = Function.update s.books e.ticker b := hσ
  have hmem : (tag, e) ∈ s.events := hev ▸ List.mem_cons_self
  have hok : s.EventOk tag e := h.events _ hmem
  obtain ⟨q, hq⟩ := ha.books e.ticker
  have hnew : tag.cancel = false → e.action ≠ .Cancel := by
    intro hc heq
    exact Bool.noConfusion (hc.symm.trans (hok.action.mp heq))
  refine ⟨fun t => ?_, fun x hx => ha.events x (hev ▸ List.mem_cons_of_mem _ hx), ha.known,
    fun n sub hn => ?_⟩
  · -- one call concerns the book of one ticker
    rw [hbooks]
    by_cases ht : t = e.ticker
    · rw [ht, Function.update_self]
      exact hq.add_rep (ha.action h hmem) hcan hadds
    · rw [Function.update_of_ne ht]
      exact ha.books t
  · refine (ha.progress n sub hn).frame rfl (mem_queued_worked hev fun hc => ?_)
      (fun _ ho => ho.congr rfl rfl rfl) (fun _ _ hc => hc)
    exact ⟨hroom (hnew hc), hq.posts_status (hnew hc) (ha.events _ hmem hc).2 hcan hadds⟩

/-- What the status of a new order can say. -/
theorem StatusOk.answers_new {st : InternalOrderStatus K} (hok : s.StatusOk tag st)
    (hnew : tag.cancel = false) :
    st.state ∈ [OrderState.Accepted, OrderState.Partial, OrderState.Full, OrderState.Rejected] := by
  rcases hok.new hnew with hfull | ⟨hrests, _⟩
  · rw [hfull]
    decide
  · cases hs : st.state with
    | Accepted | Partial => decide
    | Cancelled | Rejected | Full => exact Bool.noConfusion (hs ▸ hrests)

/-- The gateway thread sends the answer to an order that was waiting for it. -/
theorem AnswerInv.emit (ha : AnswerInv s) (h : Inv s) {st : InternalOrderStatus K}
    {rest : List (Tag × InternalOrderStatus K)} (hg : s.gateway = .idle)
    (hst : s.statuses = (tag, st) :: rest) :
    AnswerInv { s with
      statuses := rest
      gateway := .emitted tag st
      sent := s.sent ++ [⟨some tag, true, s.answer st⟩] } := by
  set s' : Server (bookMatching K tickers) := { s with
    statuses := rest
    gateway := .emitted tag st
    sent := s.sent ++ [⟨some tag, true, s.answer st⟩] }
  have hmem : (tag, st) ∈ s.statuses := hst ▸ List.mem_cons_self
  have hok : s.StatusOk tag st := h.statuses _ hmem
  have hans : ∀ n, s'.answers n = s.answers n ++ _ := fun n => answers_sent rfl
  refine ⟨ha.books, ha.events, fun x hx tag' habout => ?_, fun n sub hn => ?_⟩
  · rcases List.mem_append.mp hx with hx | hx
    · exact ha.known x hx tag' habout
    · rw [List.mem_singleton.mp hx, Option.some_inj] at habout
      rw [← habout]
      exact hok.owns.lt
  · by_cases htag : tag = ⟨n, false⟩
    · -- the answer to order `n`: until now it was waiting
      have hin : (⟨n, false⟩ : Tag) ∈ s.queued := mem_queued.mpr (.inr ⟨st, htag ▸ hmem⟩)
      obtain ⟨hnone, _⟩ | ⟨_, _, _, hnot, _⟩ := ha.progress n sub hn
      rotate_left
      · exact absurd hin hnot
      obtain ⟨tag', so', id, habout, hso', hclient, horder, _⟩ := h.answer_routed hok
      rw [← Option.some_inj.mp habout, htag, hn, Option.some_inj] at hso'
      refine .inr ⟨⟨some tag, true, s.answer st⟩, ?_, ?_, ?_, ?_⟩
      · rw [hans, hnone, if_pos (congrArg some htag), List.nil_append]
      · rw [hso']
        exact ⟨hclient, horder, hok.answers_new (by rw [htag])⟩
      · -- no other message is about order `n`
        obtain ⟨hevents, hrest⟩ := h.status_single hst
        rw [mem_queued]
        rintro (⟨e, hx⟩ | ⟨st', hx⟩)
        · exact hevents _ hx (by rw [htag])
        · exact hrest _ hx (by rw [htag])
      · intro hrests _ _
        refine ⟨htag, ?_⟩
        rcases hok.new (by rw [htag]) with hfull | ⟨hr, _⟩
        · rw [hfull]
          rfl
        · exact Bool.noConfusion (hr.symm.trans hrests)
    · refine (ha.progress n sub hn).frame ?_ (mem_queued_emit rfl hst (Ne.symm htag))
        (fun _ ho => ho.congr rfl rfl rfl) ?_
      · rw [hans, if_neg fun heq => htag (Option.some_inj.mp heq), List.append_nil]
      · intro _ _ hc
        rw [hg] at hc
        exact hc.elim

/-- The gateway thread goes on with the order it is busy with. -/
theorem AnswerInv.store (ha : AnswerInv s) {i : ℕ} {r : OrderRecord K} {g : GatewayPc K}
    (hg : ∀ n, s.gateway.Closing n → g.Closing n) :
    AnswerInv { s.setRecord i r with gateway := g } := by
  refine ⟨ha.books, ha.events, ha.known, fun n sub hn => ?_⟩
  exact (ha.progress n sub hn).frame rfl Iff.rfl (fun _ ho => ho.congr rfl rfl rfl)
    fun _ _ => hg n

theorem AnswerInv.gatewayMove (ha : AnswerInv s) (h : Inv s) {a : ServerAction K}
    (hmove : s.GatewayMove a s') : AnswerInv s' := by
  cases hmove with
  | emit hg hst => exact ha.emit h hg hst
  | linkBook hg hc =>
    refine ha.store fun n hcl => ?_
    rw [hg] at hcl
    exact Bool.noConfusion (hc.symm.trans hcl.2)
  | accept hg =>
    refine ha.store fun n hcl => ?_
    rw [hg] at hcl
    exact hcl.elim
  | close hg hc =>
    refine ha.store fun n hcl => ?_
    rw [hg] at hcl
    exact hcl.1
  | @release tag st hg =>
    have hok := h.closed hg
    rw [h.systemOId_eq hok.owns.held]
    refine ⟨ha.books, ha.events, ha.known, fun n sub hn => ?_⟩
    have hopen : ∀ id, Server.Owns { s with
          idPool := s.idPool.release st.id
          ops := s.ops ++ [.released st.id]
          gateway := .idle } n id → s.Owns n id ∧ id ≠ st.id := by
      rintro id ⟨h1, h2, h3⟩
      have h2 : id ∈ s.held.erase st.id := outstanding_released s.ops st.id ▸ h2
      refine ⟨⟨h1, List.mem_of_mem_erase h2, h3⟩, ?_⟩
      rintro rfl
      exact (List.Nodup.of_map _ h.pool.nodup).not_mem_erase h2
    refine (ha.progress n sub hn).frame rfl Iff.rfl (fun id ho => (hopen id ho).1) ?_
    -- the order that was closing has lost its id
    intro id ho hcl
    rw [hg] at hcl
    have htag : tag = ⟨n, false⟩ := hcl
    have howns := hok.owns
    rw [htag] at howns
    exact absurd ((hopen id ho).1.unique howns) (hopen id ho).2

theorem AnswerInv.step (ha : AnswerInv s) (h : Inv s) {a : ServerAction K}
    (hok : s.Answerable a) (hs : s.Step a s') : AnswerInv s' := by
  cases a with
  | client so about =>
    rw [show s' = s.clientStep so about from hs]
    exact ha.clientStep h hok
  | work msgs =>
    obtain ⟨tag, e, rest, σ, hev, ⟨b, hadds, hσ⟩, rfl⟩ := hs
    obtain ⟨hcan, hroom⟩ := hok (tag, e) (by rw [hev]; rfl)
    exact ha.worked h hev hcan hroom hadds hσ
  | _ => exact ha.gatewayMove h (gatewayStep_move hs)

/-! ### Draining the queues -/

/-- Nothing is on its way. -/
structure Drained (s : Server (bookMatching K tickers)) : Prop where
  events : s.events = []
  statuses : s.statuses = []
  gateway : s.gateway = .idle

instance (s : Server (bookMatching K tickers)) : Decidable s.Drained :=
  decidable_of_iff (s.events = [] ∧ s.statuses = [] ∧ s.gateway = .idle)
    ⟨fun h => ⟨h.1, h.2.1, h.2.2⟩, fun h => ⟨h.events, h.statuses, h.gateway⟩⟩

/-- How many steps the worker and the gateway thread have before them, at
most. -/
def pending (s : Server (bookMatching K tickers)) : ℕ :=
  4 * s.events.length + 3 * s.statuses.length +
    match s.gateway with
    | .idle => 0
    | .emitted _ _ => 2
    | .linked _ _ => 1
    | .closed _ _ => 1

/-- Every step of the worker or the gateway thread is one less to do. -/
theorem pending_lt {a : ServerAction K} (ha : a.internal = true) (hs : s.Step a s') :
    s'.pending < s.pending := by
  have hmove : s.gatewayStep a = some s' → s'.pending < s.pending := by
    intro hs
    cases gatewayStep_move hs with
    | emit hg hst =>
      simp only [pending, hg, hst, List.length_cons]
      omega
    | linkBook hg | accept hg | close hg | release hg =>
      simp only [pending, setRecord, hg]
      omega
  cases a with
  | client so about => exact Bool.noConfusion ha
  | work msgs =>
    obtain ⟨tag, e, rest, σ, hev, hpost, rfl⟩ := hs
    -- an event costs more than the status it may turn into
    have hlen : ((statusesOf msgs).map fun st => (tag, st)).length ≤ 1 := by
      rw [List.length_map]
      rcases bookMatching_lawful _ _ _ _ hpost with h | ⟨_, h, _⟩
      · rw [h]
        exact Nat.zero_le _
      · rw [h]
        exact le_refl _
    have htake := List.length_take_le' (lfqCapacity - s.statuses.length)
      ((statusesOf msgs).map fun st => (tag, st))
    simp only [pending, Server.worked, hev, List.length_append, List.length_cons]
    omega
  | _ => exact hmove hs

theorem exists_step_of_isSome (a : ServerAction K) (h : (s.gatewayStep a).isSome = true) :
    ∃ a s', a.internal = true ∧ s.Step a s' := by
  obtain ⟨s', hs⟩ := Option.isSome_iff_exists.mp h
  refine ⟨a, s', ?_⟩
  cases gatewayStep_move hs <;> exact ⟨rfl, hs⟩

/-- As long as something is on its way, one of the threads can go on. -/
theorem AnswerInv.exists_step (ha : AnswerInv s) (h : Inv s) (hd : ¬s.Drained) :
    ∃ a s', a.internal = true ∧ s.Step a s' := by
  cases hg : s.gateway with
  | idle =>
    cases hst : s.statuses with
    | cons x rest => exact exists_step_of_isSome .emit (by simp [gatewayStep, hg, hst])
    | nil =>
      -- the gateway thread has nothing to do, so it is the worker's turn
      cases hev : s.events with
      | nil => exact absurd ⟨hev, hst, hg⟩ hd
      | cons x rest =>
        have hmem : x ∈ s.events := hev ▸ List.mem_cons_self
        obtain ⟨q, hq⟩ := ha.books x.2.ticker
        obtain ⟨msgs, b, hadds⟩ := hq.exists_adds (ha.action h hmem)
        exact ⟨.work msgs, _, rfl, x.1, x.2, rest, _, hev, ⟨b, hadds, rfl⟩, rfl⟩
  | emitted tag st =>
    cases hc : st.state.closes with
    | false => exact exists_step_of_isSome .linkBook (by simp [gatewayStep, hg, hc])
    | true => exact exists_step_of_isSome .close (by simp [gatewayStep, hg, hc])
  | linked tag st => exact exists_step_of_isSome .accept (by simp [gatewayStep, hg])
  | closed tag st => exact exists_step_of_isSome .release (by simp [gatewayStep, hg])

end

end Server

/-! ### Runs -/

/-- The runs of answerable steps. -/
def answerableRuns (K : Constants) (tickers : Ticker → Bool) :
    Machine (Server (bookMatching K tickers)) (ServerAction K) :=
  (serverMachine (bookMatching K tickers)).restrict Server.Answerable

namespace Server

variable {s : Server (bookMatching K tickers)} {as : List (ServerAction K)}

theorem answerableRuns_inv (h : (answerableRuns K tickers).Run as s) : s.Inv ∧ s.AnswerInv := by
  refine h.invariant (I := fun s => s.Inv ∧ s.AnswerInv) ?_ ?_
  · intro s hs
    rw [show s = .start _ from hs]
    refine ⟨.start _, fun t => ⟨_, PriceLevelOrderBook.Rep.fresh⟩, ?_, ?_, ?_⟩
    · exact fun x hx => absurd hx List.not_mem_nil
    · exact fun x hx => absurd hx List.not_mem_nil
    · intro n sub hn
      exact absurd hn (by simp [Server.start])
  · rintro s a s' ⟨hinv, ha⟩ ⟨hok, hs⟩
    exact ⟨hinv.step bookMatching_lawful hok.noSecondCancel hs, ha.step hinv hok hs⟩

/-- Order `n`, which is `so`, has exactly one answer, and its id has been given
back unless the answer leaves it resting. -/
def Answered (s : Server (bookMatching K tickers)) (n : ℕ) (so : ServerOrder) : Prop :=
  ∃ x, s.answers n = [x] ∧ x.AnswersOrder so ∧
    (x.status.orderStatus.state.rests = false → ∀ id, ¬s.Owns n id)

/-- A buy order comes to rest, a sell order takes all of it, both are answered. -/
def restAndFill : List (ServerAction .cicd) :=
  restOne ++ [.client ⟨8, ⟨2, (65, 65, 80, 76), 5, 10, .Sell⟩⟩ 0,
    .work [.status ⟨⟨147455⟩, ⟨0⟩, 5, 10, .Full⟩], .emit, .close, .release]

end Server
