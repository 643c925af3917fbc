/-
Client order slots stay in step with the server.

The handler finds a record by the index of the order's id, and a cancel waits in
the queue as a bare index.  What makes this safe is that an order is in one place
at a time: with the loop, on its way to the server or back, in the handler, or
waiting to be cancelled.  `EngineState.tokens` are these places; the slot under a
token belongs to it (`Custody`), and every step moves one token at most.

* `Tracked` — the invariant, and `Tracked.step`, that every step keeps it;
* `orders_in_step` — in every state of every run: an id is released once for
  each time it was acquired, a status is handled while its record holds the very
  order, and a cancel carries the system id of an order that is open.
-/
import TradingPlatform.Client.TradeEngine
import TradingPlatform.Lib.Custody

open SlotIdPool SequencedSPSC

namespace TradeEngine

variable {c : Capacity} {N : SlotCount}

/-! ### Where the orders are -/

/-- The place of an order whose id is in use. -/
inductive Token (c : Capacity)
  | acquired (id : SlotId c)
  | sent (o : OrderId)
  | answered (s : OrderStatus)
  | stored (s : OrderStatus)
  | requested (s : OrderStatus)
  | waiting (idx : ℕ)
  | cancelled (o : OrderId)

namespace Token

/-- The slot that belongs to the order. -/
def index : Token c → ℕ
  | .acquired id => id.index
  | .sent o => (⟨o⟩ : SlotId c).index
  | .answered s => (soid s : SlotId c).index
  | .stored s => (soid s : SlotId c).index
  | .requested s => (soid s : SlotId c).index
  | .waiting idx => idx
  | .cancelled o => (⟨o⟩ : SlotId c).index

end Token

/-- The tokens of the trade loop. -/
def Trader.tokens : Trader c → Multiset (Token c)
  | .acquired id => {.acquired id}
  | .recorded order => {.sent order.id}
  | .cancelling idx => {.waiting idx}
  | .touched idx => {.waiting idx}
  | _ => 0

/-- The tokens of the handler. -/
def Handler.tokens : Handler → Multiset (Token c)
  | .received s => {.answered s}
  | .checked s => {.answered s}
  | .stored s => {.stored s}
  | .requesting s => {.requested s}
  | .releasing s => {.stored s}
  | _ => 0

/-- The indices in the queue. -/
def queueTokens (msgs : List (List UInt8)) : Multiset (Token c) :=
  (msgs.map fun msg => .waiting (Bytes.ofLeBytes msg) : List (Token c))

theorem queueTokens_append (msgs : List (List UInt8)) (msg : List UInt8) :
    (queueTokens (msgs ++ [msg]) : Multiset (Token c)) =
      .waiting (Bytes.ofLeBytes msg) ::ₘ queueTokens msgs := by
  rw [queueTokens, queueTokens, List.map_append, ← Multiset.coe_add, Multiset.add_comm]
  exact Multiset.singleton_add _ _

/-- The index that was written is the index that is read. -/
theorem ofLeBytes_request (s : OrderStatus) :
    Bytes.ofLeBytes (request c s) = (soid s : SlotId c).index := by
  have hlt := (soid s : SlotId c).index_lt
  have hbits := (SlotId.indexBits_spec c).2.1
  have hpow : 2 ^ SlotId.indexBits c ≤ 2 ^ 31 := Nat.pow_le_pow_right Nat.two_pos hbits
  rw [request, Bytes.ofLeBytes_leBytes]
  exact Nat.mod_eq_of_lt (by omega)

namespace EngineState

/-- The tokens between the parties. -/
def inFlight (st : EngineState c) : Multiset (Token c) :=
  st.newOrders.map (fun order => .sent order.id) + (st.statuses.map .answered +
    (st.cancels.map (fun cancel => .cancelled cancel.2) + queueTokens st.toCancel.waiting))

def tokens (st : EngineState c) : Multiset (Token c) :=
  st.trader.tokens + (st.handler.tokens + st.inFlight)

/-- The ids in use, less the one that is being released. -/
def openIds (st : EngineState c) : List (SlotId c) :=
  match st.handler with
  | .releasing s => st.pool.held.erase (soid s)
  | _ => st.pool.held

variable {st : EngineState c} {t : Token c}

theorem tokens_of_trader {tr : Trader c} (ht : st.trader = tr) (h : tr.tokens = {t}) :
    st.tokens = t ::ₘ (st.handler.tokens + st.inFlight) := by
  rw [tokens, ht, h, Multiset.singleton_add]

theorem tokens_of_handler {hd : Handler} (hh : st.handler = hd) (h : hd.tokens = {t}) :
    st.tokens = t ::ₘ (st.trader.tokens + st.inFlight) := by
  rw [tokens, hh, h, Multiset.singleton_add, Multiset.add_cons]

theorem tokens_of_inFlight {rest : Multiset (Token c)} (h : st.inFlight = t ::ₘ rest) :
    st.tokens = t ::ₘ (st.trader.tokens + (st.handler.tokens + rest)) := by
  rw [tokens, h, Multiset.add_cons, Multiset.add_cons]

theorem tokens_congr {st' : EngineState c} (ht : st'.trader.tokens = st.trader.tokens)
    (hh : (st'.handler.tokens : Multiset (Token c)) = st.handler.tokens)
    (hf : st'.inFlight = st.inFlight) : st'.tokens = st.tokens := by
  rw [tokens, tokens, ht, hh, hf]

theorem inFlight_newOrder (st : EngineState c) {order : Order} {rest : Multiset Order}
    (h : st.newOrders = order ::ₘ rest) :
    st.inFlight = .sent order.id ::ₘ { st with newOrders := rest }.inFlight := by
  rw [inFlight, h, Multiset.map_cons, Multiset.cons_add]
  rfl

theorem inFlight_status (st : EngineState c) {s : OrderStatus} {rest : Multiset OrderStatus}
    (h : st.statuses = s ::ₘ rest) :
    st.inFlight = .answered s ::ₘ { st with statuses := rest }.inFlight := by
  rw [inFlight, h, Multiset.map_cons, Multiset.cons_add, Multiset.add_cons]
  rfl

theorem inFlight_cancel (st : EngineState c) {cancel : Order × OrderId}
    {rest : Multiset (Order × OrderId)} (h : st.cancels = cancel ::ₘ rest) :
    st.inFlight = .cancelled cancel.2 ::ₘ { st with cancels := rest }.inFlight := by
  rw [inFlight, h, Multiset.map_cons, Multiset.cons_add, Multiset.add_cons, Multiset.add_cons]
  rfl

theorem inFlight_queue {q : QueueState} (h : q.waiting = st.toCancel.waiting) :
    { st with toCancel := q }.inFlight = st.inFlight := by
  simp only [inFlight, h]

theorem inFlight_waiting (st : EngineState c) {q : QueueState} {msg : List UInt8}
    (h : (queueTokens st.toCancel.waiting : Multiset (Token c)) =
      .waiting (Bytes.ofLeBytes msg) ::ₘ queueTokens q.waiting) :
    st.inFlight = .waiting (Bytes.ofLeBytes msg) ::ₘ { st with toCancel := q }.inFlight := by
  rw [inFlight, h, Multiset.add_cons, Multiset.add_cons, Multiset.add_cons]
  rfl

end EngineState

/-! ### What a place promises -/

/-- The id is in use, and its record holds its order. -/
structure Recorded (st : EngineState c) (o : OrderId) : Prop where
  held : (⟨o⟩ : SlotId c) ∈ st.pool.held
  record : (st.orders (⟨o⟩ : SlotId c).index).order.id = o

/-- An accepting status brings the id the server gave to the order. -/
def Truthful (st : EngineState c) (s : OrderStatus) : Prop :=
  s.state = .Accepted → st.assigned s.orderId = some s.systemOrderId

/-- An order waiting to be cancelled has its system id in its record. -/
structure Cancellable (st : EngineState c) (idx : ℕ) (o : OrderId) : Prop where
  index : (⟨o⟩ : SlotId c).index = idx
  recorded : Recorded st o
  assigned : st.assigned o = some (st.orders idx).sysOId.raw

namespace Token

def Ok (st : EngineState c) : Token c → Prop
  | .acquired id => id ∈ st.pool.held
  | .sent o => Recorded st o
  | .answered s => Recorded st s.orderId ∧ Truthful st s
  | .stored s => Recorded st s.orderId ∧ Truthful st s ∧ (st.record s).sysOId = ⟨s.systemOrderId⟩
  | .requested s => Cancellable st (soid s : SlotId c).index s.orderId
  | .waiting idx => ∃ o, Cancellable st idx o
  | .cancelled o => Recorded st o

end Token

/-- Nothing changes but under the index `k`. -/
structure Frame (st st' : EngineState c) (k : ℕ) : Prop where
  held : ∀ id ∈ st.pool.held, id.index ≠ k → id ∈ st'.pool.held
  orders : ∀ i, i ≠ k → st'.orders i = st.orders i
  assigned : ∀ o, (⟨o⟩ : SlotId c).index ≠ k → st'.assigned o = st.assigned o

namespace Frame

variable {st st' : EngineState c} {k : ℕ}

/-- Steps that touch neither ids nor records. -/
theorem of_eq (hheld : st'.pool.held = st.pool.held) (horders : st'.orders = st.orders)
    (hassigned : st'.assigned = st.assigned) : Frame st st' k where
  held id hid _ := by rwa [hheld]
  orders i _ := by rw [horders]
  assigned o _ := by rw [hassigned]

theorem recorded (hf : Frame st st' k) {o : OrderId} (ho : (⟨o⟩ : SlotId c).index ≠ k)
    (h : Recorded st o) : Recorded st' o where
  held := hf.held _ h.held ho
  record := by
    rw [hf.orders _ ho]
    exact h.record

theorem truthful (hf : Frame st st' k) {s : OrderStatus} (hs : (soid s : SlotId c).index ≠ k)
    (h : Truthful st s) : Truthful st' s := by
  intro hacc
  rw [hf.assigned _ hs]
  exact h hacc

theorem cancellable (hf : Frame st st' k) {idx : ℕ} {o : OrderId} (hidx : idx ≠ k)
    (h : Cancellable st idx o) : Cancellable st' idx o where
  index := h.index
  recorded := hf.recorded (by rwa [h.index]) h.recorded
  assigned := by
    rw [hf.assigned o (by rwa [h.index]), hf.orders idx hidx]
    exact h.assigned

/-- What a token promises is about its own index only. -/
theorem ok (hf : Frame st st' k) (u : Token c) (hu : u.index ≠ k) (h : u.Ok st) : u.Ok st' := by
  cases u with
  | acquired id => exact hf.held id h hu
  | sent o => exact hf.recorded hu h
  | answered s => exact ⟨hf.recorded hu h.1, hf.truthful hu h.2⟩
  | stored s =>
    obtain ⟨hrec, htrue, hsys⟩ := h
    refine ⟨hf.recorded hu hrec, hf.truthful hu htrue, ?_⟩
    rw [EngineState.record, hf.orders (soid s : SlotId c).index hu]
    exact hsys
  | requested s => exact hf.cancellable hu h
  | waiting idx =>
    obtain ⟨o, ho⟩ := h
    exact ⟨o, hf.cancellable hu ho⟩
  | cancelled o => exact hf.recorded hu h

end Frame

/-! ### Steps of the queue and of the pool -/

/-- A step of `read` leaves what waits as it is, or takes the first of it. -/
theorem read_cases {q q' : QueueState} {e : QueueAction} (hq : Fifo N q) (he : isRead 4 e = true)
    (h : q.act N e = some q') :
    q'.writer = q.writer ∧
    ((q'.waiting = q.waiting ∧
        (afterRead q.reader e = (.reading : Trader c) ∨
          afterRead q.reader e = (.acquiring : Trader c))) ∨
      ∃ msg, q.waiting = msg :: q'.waiting ∧
        afterRead q.reader e = (.cancelling (Bytes.ofLeBytes msg) : Trader c)) := by
  cases SequencedSPSC.step_of_act h with
  | beginRead _ _ => exact ⟨rfl, .inl ⟨rfl, .inl rfl⟩⟩
  | emptyRead _ _ => exact ⟨rfl, .inl ⟨rfl, .inr rfl⟩⟩
  | fits _ _ => exact ⟨rfl, .inl ⟨rfl, .inl rfl⟩⟩
  | tooSmall _ _ => exact ⟨rfl, .inl ⟨rfl, .inr rfl⟩⟩
  | loadSize _ => exact ⟨rfl, .inl ⟨rfl, .inl rfl⟩⟩
  | readByte _ _ => exact ⟨rfl, .inl ⟨rfl, .inl rfl⟩⟩
  | giveBack _ => exact ⟨rfl, .inl ⟨rfl, .inl rfl⟩⟩
  | @finish slot dst hr =>
    refine ⟨rfl, .inr ⟨dst, hq.waiting_finish hr _, ?_⟩⟩
    rw [hr]
    rfl
  | _ => exact Bool.noConfusion he

/-- A step of `write` is not its last, or puts its message behind the others. -/
theorem write_cases {q q' : QueueState} {e : QueueAction} {s : OrderStatus} (hq : Fifo N q)
    (hw : ∀ src, q.writer.src = some src → src = request c s)
    (he : isWrite (request c s) e = true) (h : q.act N e = some q') :
    (afterWrite s e = .requesting s ∧ q'.waiting = q.waiting ∧
      ∀ src, q'.writer.src = some src → src = request c s) ∨
    (afterWrite s e = .idle ∧ q'.writer = .idle ∧
      (q'.waiting = q.waiting ∨ q'.waiting = q.waiting ++ [request c s])) := by
  cases SequencedSPSC.step_of_act h with
  | @beginWrite src hidle _ =>
    refine .inl ⟨rfl, rfl, fun src' hsrc => ?_⟩
    obtain rfl := Option.some_inj.1 hsrc
    exact of_decide_eq_true he
  | failWrite hidle _ => exact .inr ⟨rfl, hidle, .inl rfl⟩
  | @writeByte src n b hsrc _ =>
    refine .inl ⟨rfl, rfl, fun src' hsrc' => hw src' ?_⟩
    rw [hsrc]
    exact hsrc'
  | @storeSize src hsrc =>
    refine .inl ⟨rfl, rfl, fun src' hsrc' => hw src' ?_⟩
    rw [hsrc]
    exact hsrc'
  | @publish src hsrc =>
    refine .inr ⟨rfl, rfl, .inr ?_⟩
    obtain rfl : src = request c s := hw src (by rw [hsrc]; rfl)
    exact hq.waiting_append _
  | _ => exact Bool.noConfusion he

/-- A step of `acquire` returns an id nobody has, returns none, or goes on. -/
theorem acquire_cases {p p' : PoolState c} {a : PoolAction c} {H C T : ℕ}
    (hp : Parties p H C T) (ha : isAcquire a = true) (h : p.act a = some p') :
    p'.releaser = p.releaser ∧
    ((∃ id, returned a = some id ∧ id.isValid = true ∧ id.index ∉ p.held.map SlotId.index ∧
        p'.held = id :: p.held) ∨
      ((returned a).filter SlotId.isValid = none ∧ p'.held = p.held)) := by
  cases a with
  | pop id =>
    obtain ⟨⟨hvalid, _, hfresh⟩, _⟩ := hp.pop h
    rw [PoolState.act, Option.ite_none_right_eq_some] at h
    obtain rfl := Option.some_inj.1 h.2
    exact ⟨rfl, .inl ⟨id, rfl, hvalid, hfresh, rfl⟩⟩
  | finish id =>
    obtain ⟨hcase, ⟨t, ht⟩, _⟩ := hp.finish h
    simp only [PoolState.act, ht, Option.ite_none_right_eq_some] at h
    obtain rfl := Option.some_inj.1 h.2
    refine ⟨rfl, ?_⟩
    rcases hcase with ⟨hvalid, _, hfresh⟩ | ⟨hbad, _⟩
    · exact .inl ⟨id, rfl, hvalid, hfresh, if_pos hvalid⟩
    · refine .inr ⟨?_, if_neg (by simp [hbad])⟩
      simp [returned, hbad]
  | loadHead =>
    rw [PoolState.act, Option.ite_none_right_eq_some] at h
    obtain rfl := Option.some_inj.1 h.2
    exact ⟨rfl, .inr ⟨rfl, rfl⟩⟩
  | loadTail =>
    cases hacq : p.acquirer with
    | loadedHead k =>
      simp only [PoolState.act, hacq] at h
      obtain rfl := Option.some_inj.1 h
      exact ⟨rfl, .inr ⟨rfl, rfl⟩⟩
    | _ => simp [PoolState.act, hacq] at h
  | copy =>
    cases hacq : p.acquirer with
    | copying k t =>
      simp only [PoolState.act, hacq, Option.ite_none_right_eq_some] at h
      obtain rfl := Option.some_inj.1 h.2
      exact ⟨rfl, .inr ⟨rfl, rfl⟩⟩
    | _ => simp [PoolState.act, hacq] at h
  | storeHead =>
    cases hacq : p.acquirer with
    | copying k t =>
      simp only [PoolState.act, hacq, Option.ite_none_left_eq_some] at h
      obtain rfl := Option.some_inj.1 h.2
      exact ⟨rfl, .inr ⟨rfl, rfl⟩⟩
    | _ => simp [PoolState.act, hacq] at h
  | write id => exact Bool.noConfusion ha
  | publish => exact Bool.noConfusion ha

/-- Without an id the loop goes on without an order. -/
theorem afterAcquire_tokens {a : PoolAction c} (h : (returned a).filter SlotId.isValid = none) :
    (afterAcquire a).tokens = 0 := by
  rw [afterAcquire]
  cases hret : returned a with
  | none => rfl
  | some id =>
    rw [hret, Option.filter_eq_none_iff] at h
    have hbad := h id rfl
    show (if id.isValid = true then _ else _ : Trader c).tokens = 0
    rw [if_neg hbad]
    rfl

/-- A release of an id in use is what the pool expects. -/
theorem act_write {p : PoolState c} {id : SlotId c} (hr : p.releaser = .idle)
    (hid : id ∈ p.held) : p.act (.write id) = some (storeReleased p id) := by
  rw [PoolState.act, if_pos ⟨hr, hid⟩]
  rfl

/-- The end of a release. -/
theorem publish_cases {p p' : PoolState c} (h : p.act .publish = some p') :
    ∃ t id, p.releaser = .written t id ∧ p'.releaser = .idle ∧ p'.held = p.held.erase id := by
  cases hr : p.releaser with
  | idle => simp [PoolState.act, hr] at h
  | written t id =>
    simp only [PoolState.act, hr] at h
    obtain rfl := Option.some_inj.1 h
    exact ⟨t, id, rfl, rfl, rfl⟩

/-! ### The invariant -/

/-- The tokens have different slots, and keep what they promise. -/
abbrev InCustody (st : EngineState c) : Prop := Custody Token.index (Token.Ok st) st.tokens

/-- The invariant of the engine, its pool and its queue. -/
structure Tracked (N : SlotCount) (st : EngineState c) : Prop where
  pool : ∃ H C T, Parties st.pool H C T
  queue : Fifo N st.toCancel
  custody : InCustody st
  writer : ∀ src, st.toCancel.writer.src = some src →
    ∃ s, st.handler = .requesting s ∧ src = request c s
  releaser : ∀ t id, st.pool.releaser = .written t id →
    ∃ s, st.handler = .releasing s ∧ id = soid s
  history : (st.released ++ st.openIds).Perm st.acquired

section Custody

variable {st st' : EngineState c} {t : Token c} {rest : Multiset (Token c)}

/-- The slot of a token is the slot of an id in use. -/
theorem Token.Ok.index_mem (h : t.Ok st) : t.index ∈ st.pool.held.map SlotId.index := by
  cases t with
  | acquired id => exact List.mem_map_of_mem h
  | sent o => exact List.mem_map_of_mem h.held
  | answered s => exact List.mem_map_of_mem h.1.held
  | stored s => exact List.mem_map_of_mem h.1.held
  | requested s => exact List.mem_map_of_mem h.recorded.held
  | waiting idx =>
    obtain ⟨o, ho⟩ := h
    show idx ∈ _
    rw [← ho.index]
    exact List.mem_map_of_mem ho.recorded.held
  | cancelled o => exact List.mem_map_of_mem h.held

theorem InCustody.same (h : InCustody st) (hheld : st'.pool.held = st.pool.held)
    (horders : st'.orders = st.orders) (hassigned : st'.assigned = st.assigned)
    (htokens : st'.tokens = st.tokens) : InCustody st' := by
  rw [InCustody, htokens]
  refine Custody.mono h fun u _ hu => ?_
  -- any other index will do as the one that may change
  exact (Frame.of_eq hheld horders hassigned).ok u (Nat.succ_ne_self u.index).symm hu

theorem InCustody.move (h : InCustody st) (t' : Token c) (hs : st.tokens = t ::ₘ rest)
    (hs' : st'.tokens = t' ::ₘ rest) (hindex : t'.index = t.index) (ht' : t'.Ok st')
    (hf : Frame st st' t.index) : InCustody st' := by
  rw [InCustody, hs] at h
  rw [InCustody, hs']
  exact h.move hindex ht' hf.ok

theorem InCustody.add (h : InCustody st) (hs' : st'.tokens = t ::ₘ st.tokens)
    (hfresh : t.index ∉ st.pool.held.map SlotId.index) (ht : t.Ok st')
    (hf : Frame st st' t.index) : InCustody st' := by
  have hne : ∀ u ∈ st.tokens, u.index ≠ t.index := by
    intro u hu heq
    apply hfresh
    rw [← heq]
    exact (h.ok u hu).index_mem
  rw [InCustody, hs']
  refine Custody.add (Custody.mono h fun u hu => hf.ok u (hne u hu)) ?_ ht
  intro hmem
  obtain ⟨u, hu, heq⟩ := Multiset.mem_map.1 hmem
  exact hne u hu heq

theorem InCustody.drop (h : InCustody st) (hs : st.tokens = t ::ₘ rest) (hs' : st'.tokens = rest)
    (hf : Frame st st' t.index) : InCustody st' := by
  rw [InCustody, hs] at h
  rw [InCustody, hs']
  exact Custody.drop h hf.ok

theorem InCustody.head_ok (h : InCustody st) (hs : st.tokens = t ::ₘ rest) : t.Ok st := by
  rw [InCustody, hs] at h
  exact h.head

theorem InCustody.trader (h : InCustody st) {tr : Trader c} (ht : st.trader = tr)
    (htokens : tr.tokens = {t}) : t.Ok st :=
  h.head_ok (EngineState.tokens_of_trader ht htokens)

theorem InCustody.handler (h : InCustody st) {hd : Handler} (hh : st.handler = hd)
    (htokens : hd.tokens = {t}) : t.Ok st :=
  h.head_ok (EngineState.tokens_of_handler hh htokens)

end Custody

namespace Tracked

variable {st st' : EngineState c}

theorem start {q : QueueState} (hq : (spsc N).init q) : Tracked N (.start c q) := by
  obtain ⟨fuel, slots, hslots, rfl⟩ := hq
  exact {
    pool := ⟨0, 0, 0, Parties.start c⟩
    queue := Fifo.start hslots
    custody := Custody.zero
    writer := fun src hsrc =>
      absurd hsrc (by simp [EngineState.start, QueueState.start, Writer.src])
    releaser := fun t id hr => absurd hr (by simp [EngineState.start, PoolState.start])
    history := List.Perm.nil }

/-- The id being released is in use until the end. -/
theorem mem_held (h : Tracked N st) {s : OrderStatus} (hh : st.handler = .releasing s) :
    soid s ∈ st.pool.held := by
  have hok := h.custody.handler hh rfl
  exact hok.1.held

theorem openIds_cons (h : Tracked N st) {p : PoolState c} {id : SlotId c}
    (hfresh : id.index ∉ st.pool.held.map SlotId.index) (hheld : p.held = id :: st.pool.held) :
    { st with pool := p }.openIds = id :: st.openIds := by
  simp only [EngineState.openIds]
  cases hh : st.handler with
  | releasing s =>
    have hne : id ≠ soid s := by
      rintro rfl
      exact hfresh (List.mem_map_of_mem (h.mem_held hh))
    simp only [hheld]
    rw [List.erase_cons_tail (by simpa using hne)]
  | _ => exact hheld

/-! Steps of the trade loop. -/

/-- The loop moves on without an order. -/
theorem loop (h : Tracked N st) {t : Trader c} (ht : st.trader = .idle)
    (ht' : t = .stopped ∨ t = .reading ∨ t = .idle) : Tracked N { st with trader := t } := by
  have htokens : t.tokens = st.trader.tokens := by
    rw [ht]
    rcases ht' with rfl | rfl | rfl
    · rfl
    · rfl
    · rfl
  exact { h with custody := h.custody.same rfl rfl rfl (EngineState.tokens_congr htokens rfl rfl) }

theorem read (h : Tracked N st) {e : QueueAction} {q : QueueState} (ht : st.trader = .reading)
    (he : isRead 4 e = true) (hq : st.toCancel.act N e = some q) :
    Tracked N { st with toCancel := q, trader := afterRead st.toCancel.reader e } := by
  obtain ⟨hwriter, hcase⟩ := read_cases (c := c) h.queue he hq
  have hidle : st.trader.tokens = 0 := by
    rw [ht]
    rfl
  refine { h with
    queue := h.queue.act hq
    custody := ?_
    writer := fun src hsrc => h.writer src (by rwa [← hwriter]) }
  rcases hcase with ⟨hwait, hafter⟩ | ⟨msg, hwait, hafter⟩
  · refine h.custody.same rfl rfl rfl (EngineState.tokens_congr ?_ rfl
      (EngineState.inFlight_queue hwait))
    rw [hidle]
    rcases hafter with hafter | hafter
    · rw [hafter]
      rfl
    · rw [hafter]
      rfl
  · -- the order goes from the queue to the loop
    have hfirst : (queueTokens st.toCancel.waiting : Multiset (Token c)) =
        .waiting (Bytes.ofLeBytes msg) ::ₘ queueTokens q.waiting := by
      rw [hwait]
      rfl
    have hs := EngineState.tokens_of_inFlight (EngineState.inFlight_waiting st hfirst)
    rw [hidle, Multiset.zero_add] at hs
    obtain ⟨o, hindex, ⟨hheld, hrec⟩, hassigned⟩ := h.custody.head_ok hs
    exact h.custody.move _ hs (EngineState.tokens_of_trader hafter rfl) rfl
      ⟨o, hindex, ⟨hheld, hrec⟩, hassigned⟩ (.of_eq rfl rfl rfl)

theorem acquire (h : Tracked N st) {a : PoolAction c} {p : PoolState c}
    (ht : st.trader = .acquiring) (ha : isAcquire a = true) (hp : st.pool.act a = some p) :
    Tracked N { st with
      pool := p
      trader := afterAcquire a
      acquired := st.acquired ++ ((returned a).filter SlotId.isValid).toList } := by
  obtain ⟨H, C, T, hparties⟩ := h.pool
  obtain ⟨hreleaser, hcase⟩ := acquire_cases hparties ha hp
  have hidle : st.trader.tokens = 0 := by
    rw [ht]
    rfl
  have hrel : ∀ t id, p.releaser = .written t id →
      ∃ s, st.handler = .releasing s ∧ id = soid s := by
    rw [hreleaser]
    exact h.releaser
  rcases hcase with ⟨id, hret, hvalid, hfresh, hheld⟩ | ⟨hret, hheld⟩
  · -- an id was handed out that no token has
    have hafter : afterAcquire a = .acquired id := by
      rw [afterAcquire, hret]
      exact if_pos hvalid
    refine { h with
      pool := parties_step hparties hp
      custody := ?_
      releaser := hrel
      history := ?_ }
    · refine h.custody.add (t := .acquired id) ?_ hfresh ?_ ?_
      · rw [EngineState.tokens, EngineState.tokens, hidle, Multiset.zero_add]
        show (afterAcquire a).tokens + _ = _
        rw [hafter]
        exact Multiset.singleton_add _ _
      · show id ∈ p.held
        rw [hheld]
        exact List.mem_cons_self
      · refine ⟨fun id' hid' _ => ?_, fun i _ => rfl, fun o _ => rfl⟩
        show id' ∈ p.held
        rw [hheld]
        exact List.mem_cons_of_mem _ hid'
    · have hopen := h.openIds_cons hfresh hheld
      rw [hret, Option.filter_some, if_pos hvalid]
      show (st.released ++ { st with pool := p }.openIds).Perm (st.acquired ++ [id])
      rw [hopen]
      refine List.perm_middle.trans ((h.history.cons id).trans ?_)
      exact (List.perm_append_singleton id st.acquired).symm
  · refine { h with
      pool := parties_step hparties hp
      custody := ?_
      releaser := hrel
      history := ?_ }
    · refine h.custody.same hheld rfl rfl (EngineState.tokens_congr ?_ rfl rfl)
      rw [hidle]
      exact afterAcquire_tokens hret
    · have hopen : { st with pool := p }.openIds = st.openIds := by
        simp only [EngineState.openIds, hheld]
      rw [hret]
      show (st.released ++ { st with pool := p }.openIds).Perm (st.acquired ++ [])
      rw [hopen, List.append_nil]
      exact h.history

theorem record (h : Tracked N st) {order : Order} {now : ℕ} {id : SlotId c}
    (ht : st.trader = .acquired id) (hdrawn : Drawn id order) :
    Tracked N { st with
      orders := Function.update st.orders id.index ⟨order, now, id⟩
      trader := .recorded order } := by
  have hid : (⟨order.id⟩ : SlotId c) = id := by
    rw [hdrawn.1]
    rfl
  refine { h with
    custody := h.custody.move (.sent order.id) (EngineState.tokens_of_trader ht rfl)
      (EngineState.tokens_of_trader rfl rfl) (congrArg SlotId.index hid) ⟨?_, ?_⟩
      ⟨fun _ hheld _ => hheld, fun i hi => Function.update_of_ne hi _ _, fun _ _ => rfl⟩ }
  · rw [hid]
    exact h.custody.trader ht rfl
  · show (Function.update st.orders id.index _ _).order.id = order.id
    rw [hid, Function.update_self]

theorem postNew (h : Tracked N st) {order : Order} (ht : st.trader = .recorded order) :
    Tracked N { st with
      trader := .idle
      newOrders := order ::ₘ st.newOrders
      assigned := Function.update st.assigned order.id none } := by
  obtain ⟨hheld, hrec⟩ := h.custody.trader ht rfl
  refine { h with
    custody := h.custody.move (.sent order.id) (EngineState.tokens_of_trader ht rfl) ?_ rfl
      ⟨hheld, hrec⟩ ⟨fun _ hheld _ => hheld, fun _ _ => rfl, fun o ho => ?_⟩ }
  · rw [EngineState.tokens_of_inFlight (EngineState.inFlight_newOrder _ rfl)]
    exact congrArg _ (Multiset.zero_add _)
  · refine Function.update_of_ne ?_ _ _
    rintro rfl
    exact ho rfl

theorem touch (h : Tracked N st) {now idx : ℕ} (ht : st.trader = .cancelling idx) :
    Tracked N { st with
      orders := Function.update st.orders idx { st.orders idx with created := now }
      trader := .touched idx } := by
  obtain ⟨o, rfl, ⟨hheld, hrec⟩, hassigned⟩ := h.custody.trader ht rfl
  refine { h with
    custody := h.custody.move (.waiting _) (EngineState.tokens_of_trader ht rfl)
      (EngineState.tokens_of_trader rfl rfl) rfl ⟨o, rfl, ⟨hheld, ?_⟩, ?_⟩
      ⟨fun _ hheld _ => hheld, fun i hi => Function.update_of_ne hi _ _, fun _ _ => rfl⟩ }
  · show (Function.update st.orders _ _ _).order.id = o
    rw [Function.update_self]
    exact hrec
  · show _ = some (Function.update st.orders _ _ _).sysOId.raw
    rw [Function.update_self]
    exact hassigned

theorem postCancel (h : Tracked N st) {idx : ℕ} (ht : st.trader = .touched idx) :
    Tracked N { st with
      trader := .idle
      cancels := (cancelOrder (st.orders idx), (st.orders idx).order.id) ::ₘ st.cancels } := by
  obtain ⟨o, rfl, ⟨hheld, hrec⟩, hassigned⟩ := h.custody.trader ht rfl
  refine { h with
    custody := h.custody.move (.cancelled o) (EngineState.tokens_of_trader ht rfl) ?_ rfl
      ⟨hheld, hrec⟩ (.of_eq rfl rfl rfl) }
  rw [EngineState.tokens_of_inFlight (EngineState.inFlight_cancel _ rfl)]
  show Token.cancelled _ ::ₘ (0 + _) = _
  rw [hrec, Multiset.zero_add]
  rfl

/-! Steps of the handler. -/

theorem openIds_of_ne (hh : ∀ s, st.handler ≠ .releasing s) : st.openIds = st.pool.held := by
  rw [EngineState.openIds]
  split
  · next s hs => exact absurd hs (hh s)
  · rfl

/-- The handler moves on, neither in the queue nor in the pool. -/
theorem handle (h : Tracked N st) (hpool : st'.pool = st.pool)
    (hqueue : st'.toCancel = st.toCancel) (hacquired : st'.acquired = st.acquired)
    (hreleased : st'.released = st.released) (hrequest : ∀ s, st.handler ≠ .requesting s)
    (hrelease : ∀ s, st.handler ≠ .releasing s) (hrelease' : ∀ s, st'.handler ≠ .releasing s)
    (hcustody : InCustody st') : Tracked N st' where
  pool := by
    rw [hpool]
    exact h.pool
  queue := by
    rw [hqueue]
    exact h.queue
  custody := hcustody
  writer src hsrc := by
    rw [hqueue] at hsrc
    obtain ⟨s, hs, _⟩ := h.writer src hsrc
    exact absurd hs (hrequest s)
  releaser t id hr := by
    rw [hpool] at hr
    obtain ⟨s, hs, _⟩ := h.releaser t id hr
    exact absurd hs (hrelease s)
  history := by
    have hperm := h.history
    rw [openIds_of_ne hrelease] at hperm
    rw [openIds_of_ne hrelease', hpool, hacquired, hreleased]
    exact hperm

theorem receive (h : Tracked N st) {s : OrderStatus} (hh : st.handler = .idle)
    (hs : s ∈ st.statuses) :
    Tracked N { st with handler := .received s, statuses := st.statuses.erase s } := by
  have hidle : (st.handler.tokens : Multiset (Token c)) = 0 := by
    rw [hh]
    rfl
  have htokens := EngineState.tokens_of_inFlight
    (EngineState.inFlight_status st (Multiset.cons_erase hs).symm)
  rw [hidle, Multiset.zero_add] at htokens
  obtain ⟨⟨hheld, hrec⟩, htrue⟩ := h.custody.head_ok htokens
  refine h.handle rfl rfl rfl rfl (by simp [hh]) (by simp [hh]) (by simp) ?_
  exact h.custody.move (.answered s) htokens (EngineState.tokens_of_handler rfl rfl) rfl
    ⟨⟨hheld, hrec⟩, htrue⟩ (.of_eq rfl rfl rfl)

theorem check (h : Tracked N st) {s : OrderStatus} (hh : st.handler = .received s) :
    Tracked N { st with handler := st.afterCheck s } := by
  have hs := EngineState.tokens_of_handler hh rfl
  obtain ⟨⟨hheld, hrec⟩, htrue⟩ := h.custody.handler hh rfl
  -- a status that is not handled any further leaves its order where it is
  have hdrop : ∀ hd : Handler, (hd.tokens : Multiset (Token c)) = 0 →
      InCustody { st with handler := hd } := by
    intro hd hhd
    refine h.custody.drop hs ?_ (.of_eq rfl rfl rfl)
    show _ + ((hd.tokens : Multiset (Token c)) + _) = _
    rw [hhd, Multiset.zero_add]
    rfl
  refine h.handle rfl rfl rfl rfl (by simp [hh]) (by simp [hh]) ?_ ?_
  · intro s'
    show st.afterCheck s ≠ _
    rw [EngineState.afterCheck]
    split
    · simp
    · split
      · simp
      · split <;> simp
  · rw [EngineState.afterCheck]
    split
    · exact hdrop .idle rfl
    · split
      · exact hdrop .joining rfl
      · split
        · exact hdrop .joining rfl
        · exact h.custody.move (.answered s) hs (EngineState.tokens_of_handler rfl rfl) rfl
            ⟨⟨hheld, hrec⟩, htrue⟩ (.of_eq rfl rfl rfl)

theorem store (h : Tracked N st) {s : OrderStatus} (hh : st.handler = .checked s) :
    Tracked N { st with
      orders := Function.update st.orders (soid s : SlotId c).index
        { st.record s with sysOId := ⟨s.systemOrderId⟩ }
      handler := .stored s } := by
  obtain ⟨⟨hheld, hrec⟩, htrue⟩ := h.custody.handler hh rfl
  refine h.handle rfl rfl rfl rfl (by simp [hh]) (by simp [hh]) (by simp) ?_
  refine h.custody.move (.stored s) (EngineState.tokens_of_handler hh rfl)
    (EngineState.tokens_of_handler rfl rfl) rfl ⟨⟨hheld, ?_⟩, htrue, ?_⟩
    ⟨fun _ hheld _ => hheld, fun i hi => Function.update_of_ne hi _ _, fun _ _ => rfl⟩
  · show (Function.update st.orders (soid s : SlotId c).index _ (soid s : SlotId c).index).order.id
      = s.orderId
    rw [Function.update_self]
    exact hrec
  · show (Function.update st.orders _ _ _).sysOId = _
    rw [Function.update_self]

/-- The order stays as it is, or there is nothing to do for it. -/
theorem keep (h : Tracked N st) {s : OrderStatus} (hh : st.handler = .stored s) :
    Tracked N { st with handler := .idle } := by
  refine h.handle rfl rfl rfl rfl (by simp [hh]) (by simp [hh]) (by simp) ?_
  refine h.custody.drop (EngineState.tokens_of_handler hh rfl) ?_ (.of_eq rfl rfl rfl)
  exact congrArg _ (Multiset.zero_add _)

/-- The answered order is about to be cancelled. -/
theorem request (h : Tracked N st) {s : OrderStatus} (hh : st.handler = .stored s)
    (hstate : s.state = .Accepted) : Tracked N { st with handler := .requesting s } := by
  obtain ⟨⟨hheld, hrec⟩, htrue, hsys⟩ := h.custody.handler hh rfl
  refine h.handle rfl rfl rfl rfl (by simp [hh]) (by simp [hh]) (by simp) ?_
  refine h.custody.move (.requested s) (EngineState.tokens_of_handler hh rfl)
    (EngineState.tokens_of_handler rfl rfl) rfl ⟨rfl, ⟨hheld, hrec⟩, ?_⟩ (.of_eq rfl rfl rfl)
  show st.assigned s.orderId = some (st.record s).sysOId.raw
  rw [htrue hstate, hsys]
  rfl

/-- The closed order's id is about to be released. -/
theorem close (h : Tracked N st) {s : OrderStatus} (hh : st.handler = .stored s) :
    Tracked N { st with handler := .releasing s, released := st.released ++ [soid s] } := by
  obtain ⟨⟨hheld, hrec⟩, htrue, hsys⟩ := h.custody.handler hh rfl
  exact {
    pool := h.pool
    queue := h.queue
    custody := h.custody.move (.stored s) (EngineState.tokens_of_handler hh rfl)
      (EngineState.tokens_of_handler rfl rfl) rfl ⟨⟨hheld, hrec⟩, htrue, hsys⟩ (.of_eq rfl rfl rfl)
    writer := fun src hsrc => by
      obtain ⟨s', hs', _⟩ := h.writer src hsrc
      rw [hh] at hs'
      exact Handler.noConfusion hs'
    releaser := fun t id hr => by
      obtain ⟨s', hs', _⟩ := h.releaser t id hr
      rw [hh] at hs'
      exact Handler.noConfusion hs'
    history := by
      have hperm := h.history
      rw [openIds_of_ne (by simp [hh])] at hperm
      show (st.released ++ [soid s] ++ st.pool.held.erase (soid s)).Perm st.acquired
      rw [List.append_assoc, List.singleton_append]
      exact ((List.perm_cons_erase hheld).symm.append_left _).trans hperm }

theorem write (h : Tracked N st) {e : QueueAction} {q : QueueState} {s : OrderStatus}
    (hh : st.handler = .requesting s) (he : isWrite (TradeEngine.request c s) e = true)
    (hq : st.toCancel.act N e = some q) :
    Tracked N { st with toCancel := q, handler := afterWrite s e } := by
  -- whatever is being written is the request of the status in hand
  have hw : ∀ src, st.toCancel.writer.src = some src → src = TradeEngine.request c s := by
    intro src hsrc
    obtain ⟨s', hs', rfl⟩ := h.writer src hsrc
    rw [hh] at hs'
    rw [Handler.requesting.inj hs']
  have hreleaser : ∀ t id, st.pool.releaser ≠ .written t id := by
    intro t id hr
    obtain ⟨s', hs', _⟩ := h.releaser t id hr
    rw [hh] at hs'
    exact Handler.noConfusion hs'
  have hhistory := h.history
  rw [openIds_of_ne (by simp [hh])] at hhistory
  have hrequested := h.custody.handler hh rfl
  rcases write_cases h.queue hw he hq with ⟨hafter, hwait, hwriter⟩ | ⟨hafter, hidle, hwait⟩
  · rw [hafter]
    exact { h with
      queue := h.queue.act hq
      custody := h.custody.same rfl rfl rfl
        (EngineState.tokens_congr rfl (by rw [hh]) (EngineState.inFlight_queue hwait))
      writer := fun src hsrc => ⟨s, rfl, hwriter src hsrc⟩
      releaser := fun t id hr => absurd hr (hreleaser t id)
      history := hhistory }
  · rw [hafter]
    refine { h with
      queue := h.queue.act hq
      custody := ?_
      writer := fun src hsrc => ?_
      releaser := fun t id hr => absurd hr (hreleaser t id)
      history := hhistory }
    · rcases hwait with hwait | hwait
      · -- the queue was full: the order stays open
        refine h.custody.drop (EngineState.tokens_of_handler hh rfl) ?_ (.of_eq rfl rfl rfl)
        rw [← EngineState.inFlight_queue hwait]
        exact congrArg _ (Multiset.zero_add _)
      · -- the order goes from the handler to the queue
        have hflight : { st with toCancel := q, handler := .idle }.inFlight =
            .waiting (soid s : SlotId c).index ::ₘ st.inFlight := by
          rw [← ofLeBytes_request]
          refine EngineState.inFlight_waiting _ (q := st.toCancel) ?_
          show queueTokens q.waiting = _
          rw [hwait, queueTokens_append]
        have hs' : { st with toCancel := q, handler := .idle }.tokens =
            .waiting (soid s : SlotId c).index ::ₘ (st.trader.tokens + st.inFlight) := by
          rw [EngineState.tokens_of_inFlight hflight]
          exact congrArg (fun m => Token.waiting _ ::ₘ (st.trader.tokens + m))
            (Multiset.zero_add st.inFlight)
        refine h.custody.move _ (EngineState.tokens_of_handler hh rfl) hs' rfl ?_
          (.of_eq rfl rfl rfl)
        exact ⟨s.orderId, hrequested.index,
          ⟨hrequested.recorded.held, hrequested.recorded.record⟩, hrequested.assigned⟩
    · change q.writer.src = some src at hsrc
      rw [hidle] at hsrc
      exact absurd hsrc (by simp [Writer.src])

theorem releaseWrite (h : Tracked N st) {s : OrderStatus} (hh : st.handler = .releasing s)
    (hr : st.pool.releaser = .idle) :
    Tracked N { st with pool := storeReleased st.pool (soid s) } := by
  obtain ⟨H, C, T, hparties⟩ := h.pool
  exact { h with
    pool := ⟨H, C, T, hparties.write (act_write hr (h.mem_held hh))⟩
    custody := h.custody.same rfl rfl rfl rfl
    releaser := fun t id hr' => by
      obtain ⟨_, rfl⟩ := Releaser.written.inj hr'
      exact ⟨s, hh, rfl⟩ }

theorem releasePublish (h : Tracked N st) {s : OrderStatus} {p : PoolState c}
    (hh : st.handler = .releasing s) (hp : st.pool.act .publish = some p) :
    Tracked N { st with pool := p, handler := .idle } := by
  obtain ⟨H, C, T, hparties⟩ := h.pool
  obtain ⟨t, id, hwritten, hidle, hheld⟩ := publish_cases hp
  obtain ⟨s', hs', rfl⟩ := h.releaser t id hwritten
  -- the id written is that of the status in hand
  rw [hh] at hs'
  obtain rfl := Handler.releasing.inj hs'
  exact {
    pool := parties_step hparties hp
    queue := h.queue
    custody := by
      refine h.custody.drop (EngineState.tokens_of_handler hh rfl)
        (congrArg _ (Multiset.zero_add _)) ⟨fun id hid hne => ?_, fun _ _ => rfl, fun _ _ => rfl⟩
      show id ∈ p.held
      rw [hheld, List.mem_erase_of_ne]
      · exact hid
      · rintro rfl
        exact hne rfl
    writer := fun src hsrc => by
      obtain ⟨s', hs', _⟩ := h.writer src hsrc
      rw [hh] at hs'
      exact Handler.noConfusion hs'
    releaser := fun t id hr => by
      change p.releaser = _ at hr
      rw [hidle] at hr
      exact absurd hr (by simp)
    history := by
      have hperm := h.history
      simp only [EngineState.openIds, hh] at hperm
      show (st.released ++ p.held).Perm st.acquired
      rw [hheld]
      exact hperm }

theorem joined (h : Tracked N st) (hh : st.handler = .joining) :
    Tracked N { st with handler := .idle } := by
  refine h.handle rfl rfl rfl rfl (by simp [hh]) (by simp [hh]) (by simp) ?_
  exact h.custody.same rfl rfl rfl (EngineState.tokens_congr rfl (by rw [hh]; rfl) rfl)

/-! Steps of the server. -/

theorem answerNew (h : Tracked N st) {order : Order} {s : OrderStatus}
    (ho : order ∈ st.newOrders) (hs : AnswersNew order s) :
    Tracked N { st with
      newOrders := st.newOrders.erase order
      statuses := s ::ₘ st.statuses
      assigned := Function.update st.assigned order.id (some s.systemOrderId) } := by
  have htokens := EngineState.tokens_of_inFlight
    (EngineState.inFlight_newOrder st (Multiset.cons_erase ho).symm)
  obtain ⟨hheld, hrec⟩ := h.custody.head_ok htokens
  obtain ⟨hid, _⟩ := hs
  refine { h with
    custody := h.custody.move (.answered s) htokens
      (EngineState.tokens_of_inFlight (EngineState.inFlight_status _ rfl)) ?_
      ⟨⟨?_, ?_⟩, fun _ => ?_⟩ ⟨fun _ hheld _ => hheld, fun _ _ => rfl, fun o ho' => ?_⟩ }
  · show (⟨s.orderId⟩ : SlotId c).index = (⟨order.id⟩ : SlotId c).index
    rw [hid]
  · rw [hid]
    exact hheld
  · rw [hid]
    exact hrec
  · show Function.update st.assigned order.id _ s.orderId = _
    rw [hid, Function.update_self]
  · refine Function.update_of_ne ?_ _ _
    rintro rfl
    exact ho' rfl

theorem answerCancel (h : Tracked N st) {cancel : Order × OrderId} {s : OrderStatus}
    (hc : cancel ∈ st.cancels) (hs : AnswersCancel cancel.2 s) :
    Tracked N { st with cancels := st.cancels.erase cancel, statuses := s ::ₘ st.statuses } := by
  have htokens := EngineState.tokens_of_inFlight
    (EngineState.inFlight_cancel st (Multiset.cons_erase hc).symm)
  obtain ⟨hheld, hrec⟩ := h.custody.head_ok htokens
  obtain ⟨hid, hstate⟩ := hs
  refine { h with
    custody := h.custody.move (.answered s) htokens
      (EngineState.tokens_of_inFlight (EngineState.inFlight_status _ rfl)) ?_
      ⟨⟨?_, ?_⟩, fun hacc => ?_⟩ (.of_eq rfl rfl rfl) }
  · show (⟨s.orderId⟩ : SlotId c).index = (⟨cancel.2⟩ : SlotId c).index
    rw [hid]
  · rw [hid]
    exact hheld
  · rw [hid]
    exact hrec
  · rw [hacc] at hstate
    exact absurd hstate (by decide)

/-- Every step keeps the invariant. -/
theorem step (h : Tracked N st) {e : EngineAction c} (hstep : st.act N e = some st') :
    Tracked N st' := by
  cases TradeEngine.step_of_act hstep with
  | loop ht ht' => exact h.loop ht ht'
  | read ht he hq => exact h.read ht he hq
  | acquire ht ha hp => exact h.acquire ht ha hp
  | record ht hdrawn => exact h.record ht hdrawn
  | postNew ht => exact h.postNew ht
  | touch ht => exact h.touch ht
  | postCancel ht => exact h.postCancel ht
  | receive hh hs => exact h.receive hh hs
  | check hh => exact h.check hh
  | store hh => exact h.store hh
  | keep hh => exact h.keep hh
  | request hh hstate => exact h.request hh hstate
  | close hh => exact h.close hh
  | write hh he hq => exact h.write hh he hq
  | releaseWrite hh hr => exact h.releaseWrite hh hr
  | releasePublish hh hp => exact h.releasePublish hh hp
  | joined hh _ => exact h.joined hh
  | requestStop => exact { h with custody := h.custody.same rfl rfl rfl rfl }
  | setTrading => exact { h with custody := h.custody.same rfl rfl rfl rfl }
  | answerNew ho hs => exact h.answerNew ho hs
  | answerCancel hc hs => exact h.answerCancel hc hs

theorem run {es : List (EngineAction c)} (h : (engine c N).Run es st) : Tracked N st := by
  refine h.invariant ?_ ?_
  · rintro st ⟨q, hq, rfl⟩
    exact Tracked.start hq
  · intro st e st' hI hs
    exact hI.step hs

end Tracked

/-! ### Every run -/

/-- The slots of the client are in step with the server. -/
structure InStep (N : SlotCount) (st : EngineState c) : Prop where
  /-- An id is released at most once for each time it was acquired, and is not
  acquired again before. -/
  released : ∀ id, st.released.count id ≤ st.acquired.count id ∧
    st.acquired.count id ≤ st.released.count id + 1
  /-- While a status is handled, its id is in use and its record holds the order
  with exactly this id. -/
  handled : ∀ s, st.handler.status = some s →
    soid s ∈ st.pool.held ∧ (st.record s).order.id = s.orderId
  /-- A cancel carries the system id the server gave to the order it is sent for,
  whose id was acquired and not released since. -/
  cancel : ∀ order st', (engine c N).step st (.postCancel order) st' →
    ∃ o, st'.cancels = (order, o) ::ₘ st.cancels ∧ st.assigned o = some order.id ∧
      st.released.count ⟨o⟩ < st.acquired.count ⟨o⟩

namespace Tracked

variable {st : EngineState c}

theorem held_nodup (h : Tracked N st) : st.pool.held.Nodup := by
  obtain ⟨H, C, T, hparties⟩ := h.pool
  have hnodup := hparties.inventory.nodup
  rw [allIds, List.map_append] at hnodup
  exact (List.nodup_append.1 hnodup).2.1.of_map _

theorem openIds_nodup (h : Tracked N st) : st.openIds.Nodup := by
  rw [EngineState.openIds]
  split
  · exact h.held_nodup.erase _
  · exact h.held_nodup

theorem count_eq (h : Tracked N st) (id : SlotId c) :
    st.acquired.count id = st.released.count id + st.openIds.count id := by
  rw [← h.history.count_eq, List.count_append]

/-- Every status the handler has is about the order in its record. -/
theorem recorded_of_status (h : Tracked N st) {s : OrderStatus}
    (hs : st.handler.status = some s) : Recorded st s.orderId := by
  cases hh : st.handler with
  | received s' =>
    rw [hh] at hs
    obtain rfl := Option.some_inj.1 hs
    exact (h.custody.handler hh rfl).1
  | checked s' =>
    rw [hh] at hs
    obtain rfl := Option.some_inj.1 hs
    exact (h.custody.handler hh rfl).1
  | stored s' =>
    rw [hh] at hs
    obtain rfl := Option.some_inj.1 hs
    exact (h.custody.handler hh rfl).1
  | requesting s' =>
    rw [hh] at hs
    obtain rfl := Option.some_inj.1 hs
    exact (h.custody.handler hh rfl).recorded
  | releasing s' =>
    rw [hh] at hs
    obtain rfl := Option.some_inj.1 hs
    exact (h.custody.handler hh rfl).1
  | idle =>
    rw [hh] at hs
    exact absurd hs (by simp [Handler.status])
  | joining =>
    rw [hh] at hs
    exact absurd hs (by simp [Handler.status])

/-- The order the loop is about to cancel is not being released. -/
theorem mem_openIds (h : Tracked N st) {idx : ℕ} {o : OrderId} (ht : st.trader = .touched idx)
    (ho : Cancellable st idx o) : ⟨o⟩ ∈ st.openIds := by
  have hcust := h.custody
  rw [InCustody, EngineState.tokens_of_trader ht rfl] at hcust
  rw [EngineState.openIds]
  split
  · next s hh =>
    -- two tokens, so two slots
    have hmem : Token.stored s ∈ (st.handler.tokens + st.inFlight : Multiset (Token c)) := by
      rw [hh]
      exact Multiset.mem_add.2 (.inl (Multiset.mem_singleton_self _))
    have hne := hcust.key_ne hmem
    rw [List.mem_erase_of_ne]
    · exact ho.recorded.held
    · intro heq
      apply hne
      show (soid s : SlotId c).index = idx
      rw [← ho.index, heq]
  · exact ho.recorded.held

end Tracked

/-- **Client order slots stay in step with the server**, in every state of every
run, for every capacity of the pool and of the queue. -/
theorem orders_in_step {es : List (EngineAction c)} {st : EngineState c}
    (h : (engine c N).Run es st) : InStep N st := by
  have hI := Tracked.run h
  refine ⟨fun id => ?_, fun s hs => ?_, fun order st' hstep => ?_⟩
  · have hcount := hI.count_eq id
    have hone := List.nodup_iff_count_le_one.1 hI.openIds_nodup id
    omega
  · obtain ⟨hheld, hrec⟩ := hI.recorded_of_status hs
    exact ⟨hheld, hrec⟩
  · cases TradeEngine.step_of_act hstep with
    | @postCancel idx ht =>
      obtain ⟨o, ho⟩ := hI.custody.trader ht rfl
      have hrec := ho.recorded.record
      rw [ho.index] at hrec
      refine ⟨o, by rw [hrec], ho.assigned, ?_⟩
      have hcount := hI.count_eq ⟨o⟩
      have hpos := List.count_pos_iff.2 (hI.mem_openIds ht ho)
      omega

/-! ### One order, cancelled -/

/-- A pool of eight indices. -/
def eightSlots : Capacity := ⟨8, by decide, by decide⟩

def buyFive : Order := ⟨15, (0, 0, 0, 0), 5, 10, .Buy⟩

def cancelFive : Order := ⟨9, (0, 0, 0, 0), 5, 10, .Cancel⟩

def accepted : OrderStatus := ⟨15, 9, 0, 10, .Accepted⟩

def cancelled : OrderStatus := ⟨15, 9, 5, 10, .Cancelled⟩

/-- An order is sent and accepted, and the coin says that it is to be cancelled. -/
def upToRequest : List (EngineAction eightSlots) :=
  [.setTrading true, .loop, .read (.emptyRead 4), .acquire .loadHead, .acquire .loadTail,
    .acquire .storeHead, .acquire (.finish ⟨15⟩), .record buyFive 1, .postNew,
    .answerNew buyFive accepted, .receive accepted, .check, .store, .dispatch true]

/-- Its index goes through the queue. -/
def throughQueue : List (EngineAction eightSlots) :=
  (writeAll (request eightSlots accepted)).map EngineAction.write ++
    EngineAction.loop :: (readAll 4 ++ [QueueAction.finish]).map EngineAction.read

def upToCancel : List (EngineAction eightSlots) :=
  upToRequest ++ throughQueue ++ [EngineAction.touch 2]

/-- It is cancelled, and its id is about to be released. -/
def upToRelease : List (EngineAction eightSlots) :=
  [.postCancel cancelFive, .answerCancel (cancelFive, 15) cancelled, .receive cancelled, .check,
    .store, .dispatch false]

theorem exists_engine_run (acts : List (EngineAction eightSlots))
    (p : EngineState eightSlots → Bool)
    (h : ((construct twoSlots 3 0 fun _ => blank).bind fun slots =>
      Machine.exec (EngineState.act twoSlots) (.start eightSlots (.start slots)) acts).any p
        = true) :
    ∃ st, (engine eightSlots twoSlots).Run acts st ∧ p st = true := by
  rw [Option.any_eq_true] at h
  obtain ⟨st, hst, hp⟩ := h
  obtain ⟨slots, hslots, hst⟩ := Option.bind_eq_some_iff.1 hst
  have h0 : (engine eightSlots twoSlots).init (.start eightSlots (.start slots)) :=
    ⟨_, ⟨3, slots, hslots, rfl⟩, rfl⟩
  exact ⟨st, (Machine.Run.start h0).exec (fun h => h) hst, hp⟩

theorem orders_in_step_cancelled :
    (∃ st, (engine eightSlots twoSlots).Run upToCancel st ∧
      (st.act twoSlots (.postCancel cancelFive)).isSome = true ∧ InStep twoSlots st) ∧
    ∃ st, (engine eightSlots twoSlots).Run (upToCancel ++ upToRelease) st ∧
      st.handler = .releasing cancelled ∧ InStep twoSlots st := by
  obtain ⟨st, hrun, hst⟩ := exists_engine_run upToCancel
    (fun st => (st.act twoSlots (.postCancel cancelFive)).isSome) (by decide +kernel)
  obtain ⟨st', hrun', hst'⟩ := exists_engine_run (upToCancel ++ upToRelease)
    (fun st => st.handler = .releasing cancelled) (by decide +kernel)
  exact ⟨⟨st, hrun, hst, orders_in_step hrun⟩,
    st', hrun', of_decide_eq_true hst', orders_in_step hrun'⟩

end TradeEngine
