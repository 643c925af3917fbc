/-
What the client and the server promise each other.

An order of the trade engine is in one place at a time, and the place says what the server
knows of the order: an order that waits to be cancelled rests at the server, under the id
in the engine's record, and no cancel of it has come in.

* `Live` — an order of the client rests at the server, the engine's record tells the truth
  about it, and no cancel of it has come in;
* `Promise` — what the place of an order in the engine promises about the server;
* `Linked` — the promises of all places, and where the orders and cancels in flight are;
* `Linked.engineMove` — the engine's threads keep the promises.
-/
import TradingPlatform.System.Moves

open TradeEngine

namespace TradingSystem

variable {K : Constants} {M : Matching K} {c : Capacity} {N : SlotCount} {k : ClientId}
  {z z' : TradingSystem M c}

/-! ### Where orders and cancels are -/

/-- The order of client `k` with number `n`, if it waits for its answer. -/
def openOrder (k : ClientId) (s : Server M) (n : ℕ) : Option Order :=
  match s.orders[n]? with
  | some sub =>
    if sub.request.clientId = k ∧ s.dialogue n = [] then some sub.request.order else none
  | none => none

/-- The orders of client `k` that wait for their answers at the server. -/
def openOrders (k : ClientId) (s : Server M) : List Order :=
  (List.range s.orders.length).filterMap (openOrder k s)

/-- The cancel of order `n` of client `k`, if it waits for its answer. -/
def openCancel (k : ClientId) (s : Server M) (asked : ℕ → Order × OrderId) (n : ℕ) :
    Option (Order × OrderId) :=
  match s.orders[n]? with
  | some sub =>
    if sub.request.clientId = k ∧ ∀ y ∈ s.dialogue n, y.about ≠ some ⟨n, true⟩ then some (asked n)
    else none
  | none => none

/-- The cancels of client `k` that wait for their answers at the server. -/
def openCancels (k : ClientId) (s : Server M) (asked : ℕ → Order × OrderId) :
    List (Order × OrderId) :=
  s.cancelled.filterMap (openCancel k s asked)

/-- The new orders on their way. -/
def newsOf (upstream : List (Order × OrderId)) : List Order :=
  (upstream.filter fun m => m.1.action ≠ .Cancel).map (·.1)

/-- The cancels on their way. -/
def cancelsOf (upstream : List (Order × OrderId)) : List (Order × OrderId) :=
  upstream.filter fun m => m.1.action = .Cancel

/-- Order `o` of client `k` rests at the server under the id the engine knows, and was not
cancelled. -/
structure Live (k : ClientId) (z : TradingSystem M c) (o : OrderId) : Prop where
  named : (z.engine.orders (⟨o⟩ : SlotId c).index).order.id = o
  submitted : ∃ id : SystemOrderId K, z.server.orders[z.origin o]? =
      some ⟨⟨k, (z.engine.orders (⟨o⟩ : SlotId c).index).order⟩, some id⟩ ∧
    z.engine.assigned o = some id.raw
  told : z.server.ToldResting (z.origin o)
  fresh : z.origin o ∉ z.server.cancelled

/-- What the place of an order promises. -/
def Promise (k : ClientId) (z : TradingSystem M c) : Token c → Prop
  | .acquired _ => True
  | .sent o => ∀ order, z.engine.trader = .recorded order ∨ order ∈ z.engine.newOrders →
      order.id = o → (z.engine.orders (⟨o⟩ : SlotId c).index).order = order ∧
        (order.action = .Buy ∨ order.action = .Sell)
  | .answered s => s.state = .Accepted → Live k z s.orderId
  | .stored s => s.state = .Accepted → Live k z s.orderId
  | .requested s => Live k z s.orderId
  | .waiting idx => Live k z (z.engine.orders idx).order.id
  | .cancelled o => ∀ m, (m, o) ∈ z.upstream → m.action = .Cancel → Live k z o ∧
      z.engine.assigned o = some m.id ∧
        m.price = (z.engine.orders (⟨o⟩ : SlotId c).index).order.price

/-- The connection between the two parties. -/
structure Linked (k : ClientId) (z : TradingSystem M c) : Prop where
  promises : ∀ t ∈ z.engine.tokens, Promise k z t
  news : z.engine.newOrders = (newsOf z.upstream : Multiset Order) + openOrders k z.server
  cancels : z.engine.cancels =
    (cancelsOf z.upstream : Multiset (Order × OrderId)) + openCancels k z.server z.asked
  named : ∀ m ∈ z.upstream, m.1.action ≠ .Cancel → m.2 = m.1.id
  origin : ∀ n sub, z.server.orders[n]? = some sub → sub.request.clientId = k →
    z.server.dialogue n = [] → z.origin sub.request.order.id = n
  asked : ∀ n ∈ z.server.cancelled, ∀ sub, z.server.orders[n]? = some sub →
    sub.request.clientId = k → (z.asked n).2 = sub.request.order.id
  told : ∀ n ∈ z.server.cancelled, z.server.ToldResting n
  once : z.server.cancelled.Nodup
  valid : ∀ (n : ℕ) (so : ServerOrder) (id : SystemOrderId K),
    z.server.orders[n]? = some ⟨so, some id⟩ → Server.isValid so = true

/-! ### Lists that change in one place -/

/-- An entry that is not listed any more. -/
theorem perm_filterMap_of_drop {β : Type*} {l : List ℕ} (hl : l.Nodup) {f f' : ℕ → Option β}
    {n : ℕ} {b : β} (hn : n ∈ l) (hf : f n = some b) (hf' : f' n = none)
    (hother : ∀ m ∈ l, m ≠ n → f' m = f m) : (l.filterMap f).Perm (b :: l.filterMap f') := by
  obtain ⟨l₁, l₂, rfl⟩ := List.append_of_mem hn
  rw [List.nodup_middle, List.nodup_cons, List.mem_append, not_or] at hl
  have hleft : l₁.filterMap f' = l₁.filterMap f := by
    refine List.filterMap_congr fun m hm => hother m (by simp [hm]) ?_
    rintro rfl
    exact hl.1.1 hm
  have hright : l₂.filterMap f' = l₂.filterMap f := by
    refine List.filterMap_congr fun m hm => hother m (by simp [hm]) ?_
    rintro rfl
    exact hl.1.2 hm
  rw [List.filterMap_append, List.filterMap_append, List.filterMap_cons_some hf,
    List.filterMap_cons_none hf', hleft, hright]
  exact List.perm_middle

theorem coe_snoc_add {β : Type*} (l : List β) (b : β) (rest : Multiset β) :
    ((l ++ [b] : List β) : Multiset β) + rest = b ::ₘ (l + rest) := by
  rw [← Multiset.coe_add, Multiset.coe_singleton, Multiset.add_assoc, Multiset.singleton_add,
    Multiset.add_cons]

theorem newsOf_snoc (upstream : List (Order × OrderId)) {m : Order × OrderId}
    (hm : m.1.action ≠ .Cancel) : newsOf (upstream ++ [m]) = newsOf upstream ++ [m.1] := by
  simp [newsOf, hm]

theorem newsOf_snoc_cancel (upstream : List (Order × OrderId)) {m : Order × OrderId}
    (hm : m.1.action = .Cancel) : newsOf (upstream ++ [m]) = newsOf upstream := by
  simp [newsOf, hm]

theorem cancelsOf_snoc (upstream : List (Order × OrderId)) {m : Order × OrderId}
    (hm : m.1.action = .Cancel) : cancelsOf (upstream ++ [m]) = cancelsOf upstream ++ [m] := by
  simp [cancelsOf, hm]

theorem cancelsOf_snoc_new (upstream : List (Order × OrderId)) {m : Order × OrderId}
    (hm : m.1.action ≠ .Cancel) : cancelsOf (upstream ++ [m]) = cancelsOf upstream := by
  simp [cancelsOf, hm]

/-! ### What a step leaves alone -/

/-- Everything a promise speaks of is as it was, but for the orders under the index `i`. -/
structure Outside (k : ClientId) (z z' : TradingSystem M c) (i : ℕ) : Prop where
  orders : ∀ j, j ≠ i → (z'.engine.orders j).order = (z.engine.orders j).order
  assigned : ∀ o, (⟨o⟩ : SlotId c).index ≠ i → z'.engine.assigned o = z.engine.assigned o
  newOrders : ∀ order ∈ z'.engine.newOrders, (⟨order.id⟩ : SlotId c).index ≠ i →
    order ∈ z.engine.newOrders
  recorded : ∀ order, z'.engine.trader = .recorded order → (⟨order.id⟩ : SlotId c).index ≠ i →
    z.engine.trader = .recorded order
  upstream : ∀ m o, (m, o) ∈ z'.upstream → m.action = .Cancel → (⟨o⟩ : SlotId c).index ≠ i →
    (m, o) ∈ z.upstream
  origin : ∀ o, (⟨o⟩ : SlotId c).index ≠ i → z'.origin o = z.origin o
  submitted : ∀ (n : ℕ) sub, z.server.orders[n]? = some sub → z'.server.orders[n]? = some sub
  told : ∀ n, z.server.ToldResting n → z'.server.ToldResting n
  fresh : ∀ o, (⟨o⟩ : SlotId c).index ≠ i → Live k z o → z.origin o ∉ z'.server.cancelled

namespace Outside

variable {i : ℕ} {o : OrderId}

theorem live (hf : Outside k z z' i) (ho : (⟨o⟩ : SlotId c).index ≠ i) (h : Live k z o) :
    Live k z' o := by
  obtain ⟨id, hid, hassigned⟩ := h.submitted
  refine ⟨?_, ⟨id, ?_, ?_⟩, ?_, ?_⟩
  · rw [hf.orders _ ho]
    exact h.named
  · rw [hf.orders _ ho, hf.origin o ho]
    exact hf.submitted _ _ hid
  · rw [hf.assigned o ho]
    exact hassigned
  · rw [hf.origin o ho]
    exact hf.told _ h.told
  · rw [hf.origin o ho]
    exact hf.fresh o ho h

/-- What a place promises is about its own index only. -/
theorem promise (hf : Outside k z z' i) {u : Token c} (hu : u.index ≠ i) (hok : u.Ok z.engine)
    (h : Promise k z u) : Promise k z' u := by
  cases u with
  | acquired id => trivial
  | sent o =>
    intro order horder heq
    have hindex : (⟨o⟩ : SlotId c).index ≠ i := hu
    have hne : (⟨order.id⟩ : SlotId c).index ≠ i := by
      rw [heq]
      exact hu
    rw [hf.orders _ hindex]
    refine h order ?_ heq
    exact horder.imp (fun hrec => hf.recorded order hrec hne)
      fun hmem => hf.newOrders order hmem hne
  | answered s => exact fun hacc => hf.live hu (h hacc)
  | stored s => exact fun hacc => hf.live hu (h hacc)
  | requested s => exact hf.live hu h
  | waiting idx =>
    obtain ⟨o, hindex, hrec, _⟩ := hok
    have hname : (z.engine.orders idx).order.id = o := hindex ▸ hrec.record
    change Live k z' (z'.engine.orders idx).order.id
    rw [hf.orders idx hu, hname]
    change Live k z (z.engine.orders idx).order.id at h
    rw [hname] at h
    refine hf.live ?_ h
    rw [hindex]
    exact hu
  | cancelled o =>
    intro m hm hact
    have hindex : (⟨o⟩ : SlotId c).index ≠ i := hu
    obtain ⟨hlive, hassigned, hprice⟩ := h m (hf.upstream m o hm hact hu) hact
    refine ⟨hf.live hu hlive, ?_, ?_⟩
    · rw [hf.assigned o hu]
      exact hassigned
    · rw [hf.orders _ hindex]
      exact hprice

end Outside

/-- A step of the engine that leaves all orders as they are. -/
theorem SameOrders.outside {st : EngineState c} (h : SameOrders z.engine st) (i : ℕ) :
    Outside k z { z with engine := st } i where
  orders j _ := h.orders j
  assigned o _ := by rw [h.assigned]
  newOrders order hmem _ := h.newOrders ▸ hmem
  recorded order hrec _ := h.recorded order hrec
  upstream _ _ hm _ _ := hm
  origin _ _ := rfl
  submitted _ _ hsub := hsub
  told _ htold := htold
  fresh _ _ hlive := hlive.fresh

/-! ### Steps of the engine -/

section Engine

variable {st : EngineState c}

theorem idle_ne_recorded {order : Order} : (Trader.idle : Trader c) ≠ .recorded order := by simp

theorem mem_tokens_sent {order : Order} (h : order ∈ st.newOrders) :
    Token.sent order.id ∈ st.tokens := by
  rw [EngineState.tokens_of_inFlight
    (EngineState.inFlight_newOrder st (Multiset.cons_erase h).symm)]
  exact Multiset.mem_cons_self _ _

theorem mem_tokens_cancelled {cancel : Order × OrderId} (h : cancel ∈ st.cancels) :
    Token.cancelled cancel.2 ∈ st.tokens := by
  rw [EngineState.tokens_of_inFlight
    (EngineState.inFlight_cancel st (Multiset.cons_erase h).symm)]
  exact Multiset.mem_cons_self _ _

/-- A cancel on its way is one the engine waits for. -/
theorem Linked.mem_cancels (h : Linked k z) {m : Order} {o : OrderId} (hm : (m, o) ∈ z.upstream)
    (hact : m.action = .Cancel) : (m, o) ∈ z.engine.cancels := by
  rw [h.cancels]
  refine Multiset.mem_add.2 (.inl ?_)
  simp [cancelsOf, hm, hact]

theorem Linked.sameOrders (h : Linked k z) (hsame : SameOrders z.engine st)
    (hp : ∀ t ∈ st.tokens, Promise k { z with engine := st } t) :
    Linked k { z with engine := st } :=
  { h with
    promises := hp
    news := hsame.newOrders.trans h.news
    cancels := hsame.cancels.trans h.cancels }

/-- The orders that stay where they are keep their promises. -/
theorem Linked.promise_same (h : Linked k z) (ht : Tracked N z.engine)
    (hsame : SameOrders z.engine st) {u : Token c} (hu : u ∈ z.engine.tokens) :
    Promise k { z with engine := st } u :=
  (hsame.outside (u.index + 1)).promise (Nat.succ_ne_self u.index).symm (ht.custody.ok u hu)
    (h.promises u hu)

/-- An order takes its promise along. -/
theorem Linked.promise_advance (h : Linked k z) (ht : Tracked N z.engine)
    (hsame : SameOrders z.engine st) {t t' : Token c} (hmem : t ∈ z.engine.tokens)
    (ha : Advance t t') : Promise k { z with engine := st } t' := by
  have hp := h.promise_same ht hsame hmem
  have hok := ht.custody.ok t hmem
  cases ha with
  | store s => exact hp
  | request s hs => exact hp hs
  | enqueue s =>
    have hlive : Live k { z with engine := st } s.orderId := hp
    change Live k _ (st.orders (soid s : SlotId c).index).order.id
    have hname : (st.orders (soid s : SlotId c).index).order.id = s.orderId := by
      rw [hsame.orders]
      exact hok.recorded.record
    rw [hname]
    exact hlive

/-- The orders but the one that the step is about keep their promises. -/
theorem Linked.promise_rest (h : Linked k z) (ht : Tracked N z.engine) {t : Token c}
    {rest : Multiset (Token c)} (hs : z.engine.tokens = t ::ₘ rest)
    (hf : Outside k z z' t.index) {u : Token c} (hu : u ∈ rest) : Promise k z' u := by
  have hcust := ht.custody
  rw [InCustody, hs] at hcust
  have hmem : u ∈ z.engine.tokens := by
    rw [hs]
    exact Multiset.mem_cons_of_mem hu
  exact hf.promise (hcust.key_ne hu) (ht.custody.ok u hmem) (h.promises u hmem)

theorem Linked.record (h : Linked k z) (ht : Tracked N z.engine) {id : SlotId c} {order : Order}
    {now : ℕ} (htr : z.engine.trader = .acquired id) (hdrawn : Drawn id order) :
    Linked k { z with engine := { z.engine with
      orders := Function.update z.engine.orders id.index ⟨order, now, id⟩
      trader := .recorded order } } := by
  have hid : (⟨order.id⟩ : SlotId c) = id := by
    rw [hdrawn.1]
    rfl
  have hs := EngineState.tokens_of_trader htr rfl
  have hcust := ht.custody
  rw [InCustody, hs] at hcust
  refine { h with promises := ?_ }
  intro t htok
  rw [EngineState.tokens_of_trader rfl rfl] at htok
  rcases Multiset.mem_cons.1 htok with rfl | hu
  · -- no other order has this id
    rintro order' (hrec | hmem) heq
    · obtain rfl := Trader.recorded.inj hrec
      refine ⟨?_, hdrawn.2.1⟩
      change (Function.update z.engine.orders id.index _ _).order = order
      rw [hid, Function.update_self]
    · have hother : Token.sent order'.id ∈ (z.engine.handler.tokens + z.engine.inFlight :
          Multiset (Token c)) := by
        have hall : Token.sent order'.id ∈ z.engine.tokens := mem_tokens_sent hmem
        rw [hs] at hall
        exact (Multiset.mem_cons.1 hall).resolve_left (by simp)
      refine absurd ?_ (hcust.key_ne hother)
      change (⟨order'.id⟩ : SlotId c).index = id.index
      rw [heq, hid]
  · refine h.promise_rest ht hs ?_ hu
    exact {
      orders := fun j hj => congrArg ClientOrder.order (Function.update_of_ne hj _ _)
      assigned := fun _ _ => rfl
      newOrders := fun _ hmem _ => hmem
      recorded := fun order' hrec hne => by
        obtain rfl := Trader.recorded.inj hrec
        exact absurd (congrArg SlotId.index hid) hne
      upstream := fun _ _ hm _ _ => hm
      origin := fun _ _ => rfl
      submitted := fun _ _ hsub => hsub
      told := fun _ htold => htold
      fresh := fun _ _ hlive => hlive.fresh }

theorem Linked.postNew (h : Linked k z) (ht : Tracked N z.engine) {order : Order}
    (htr : z.engine.trader = .recorded order) :
    Linked k { z with
      engine := { z.engine with
        trader := .idle
        newOrders := order ::ₘ z.engine.newOrders
        assigned := Function.update z.engine.assigned order.id none }
      upstream := z.upstream ++ [(order, order.id)] } := by
  have hs := EngineState.tokens_of_trader htr rfl
  have hcust := ht.custody
  rw [InCustody, hs] at hcust
  have hown := h.promises (.sent order.id) (by rw [hs]; exact Multiset.mem_cons_self _ _)
  obtain ⟨hrec, hact⟩ := hown order (.inl htr) rfl
  have hnew : order.action ≠ .Cancel := by
    rcases hact with hact | hact
    · simp [hact]
    · simp [hact]
  have htokens : EngineState.tokens { z.engine with
      trader := .idle
      newOrders := order ::ₘ z.engine.newOrders
      assigned := Function.update z.engine.assigned order.id none } =
        .sent order.id ::ₘ (z.engine.handler.tokens + z.engine.inFlight) := by
    rw [EngineState.tokens_of_inFlight (EngineState.inFlight_newOrder _ rfl)]
    exact congrArg _ (Multiset.zero_add _)
  refine { h with promises := ?_, news := ?_, cancels := ?_, named := ?_ }
  · intro t htok
    rw [htokens] at htok
    rcases Multiset.mem_cons.1 htok with rfl | hu
    · rintro order' (hrec' | hmem) heq
      · exact absurd hrec' idle_ne_recorded
      · rcases Multiset.mem_cons.1 hmem with rfl | hold
        · exact ⟨hrec, hact⟩
        · exact hown order' (.inr hold) heq
    · refine h.promise_rest ht hs ?_ hu
      exact {
        orders := fun _ _ => rfl
        assigned := fun o ho => by
          refine Function.update_of_ne ?_ _ _
          rintro rfl
          exact ho rfl
        newOrders := fun order' hmem hne => by
          refine (Multiset.mem_cons.1 hmem).resolve_left ?_
          rintro rfl
          exact hne rfl
        recorded := fun _ hrec' _ => absurd hrec' idle_ne_recorded
        upstream := fun m o hm hcancel _ => by
          rcases List.mem_append.1 hm with hm | hm
          · exact hm
          · rw [(Prod.mk.inj (List.mem_singleton.1 hm)).1] at hcancel
            exact absurd hcancel hnew
        origin := fun _ _ => rfl
        submitted := fun _ _ hsub => hsub
        told := fun _ htold => htold
        fresh := fun _ _ hlive => hlive.fresh }
  · change order ::ₘ z.engine.newOrders = _
    rw [newsOf_snoc _ hnew, h.news, coe_snoc_add]
  · change z.engine.cancels = _
    rw [cancelsOf_snoc_new _ hnew]
    exact h.cancels
  · intro m hm hne
    rcases List.mem_append.1 hm with hm | hm
    · exact h.named m hm hne
    · rw [List.mem_singleton.1 hm]

theorem Linked.postCancel (h : Linked k z) (ht : Tracked N z.engine) {idx : ℕ}
    (htr : z.engine.trader = .touched idx) :
    Linked k { z with
      engine := { z.engine with
        trader := .idle
        cancels := (cancelOrder (z.engine.orders idx), (z.engine.orders idx).order.id) ::ₘ
          z.engine.cancels }
      upstream := z.upstream ++
        [(cancelOrder (z.engine.orders idx), (z.engine.orders idx).order.id)] } := by
  have hs := EngineState.tokens_of_trader htr rfl
  have hcust := ht.custody
  rw [InCustody, hs] at hcust
  have hlive : Live k z (z.engine.orders idx).order.id :=
    h.promises (.waiting idx) (by rw [hs]; exact Multiset.mem_cons_self _ _)
  obtain ⟨o, hindex, hrec, hassigned⟩ := ht.custody.trader htr rfl
  have hname : (z.engine.orders idx).order.id = o := hindex ▸ hrec.record
  rw [hname] at hlive ⊢
  set cancel := cancelOrder (z.engine.orders idx)
  have htokens : EngineState.tokens { z.engine with
      trader := .idle
      cancels := (cancel, o) ::ₘ z.engine.cancels } =
        .cancelled o ::ₘ (z.engine.handler.tokens + z.engine.inFlight) := by
    rw [EngineState.tokens_of_inFlight (EngineState.inFlight_cancel _ rfl)]
    exact congrArg _ (Multiset.zero_add _)
  refine { h with promises := ?_, news := ?_, cancels := ?_, named := ?_ }
  · intro t htok
    rw [htokens] at htok
    rcases Multiset.mem_cons.1 htok with rfl | hu
    · intro m hm hact
      rcases List.mem_append.1 hm with hm | hm
      · -- no other cancel of this order is on its way
        have hall := mem_tokens_cancelled (h.mem_cancels hm hact)
        rw [hs] at hall
        have hother := (Multiset.mem_cons.1 hall).resolve_left (by simp)
        exact absurd hindex (hcust.key_ne hother)
      · obtain rfl := (Prod.mk.inj (List.mem_singleton.1 hm)).1
        refine ⟨⟨hlive.named, hlive.submitted, hlive.told, hlive.fresh⟩, hassigned, ?_⟩
        change (z.engine.orders idx).order.price = _
        rw [hindex]
    · refine h.promise_rest ht hs ?_ hu
      exact {
        orders := fun _ _ => rfl
        assigned := fun _ _ => rfl
        newOrders := fun _ hmem _ => hmem
        recorded := fun _ hrec' _ => absurd hrec' idle_ne_recorded
        upstream := fun m o' hm _ hne => by
          rcases List.mem_append.1 hm with hm | hm
          · exact hm
          · rw [(Prod.mk.inj (List.mem_singleton.1 hm)).2] at hne
            exact absurd hindex hne
        origin := fun _ _ => rfl
        submitted := fun _ _ hsub => hsub
        told := fun _ htold => htold
        fresh := fun _ _ hlive => hlive.fresh }
  · change z.engine.newOrders = _
    rw [newsOf_snoc_cancel _ rfl]
    exact h.news
  · change (cancel, o) ::ₘ z.engine.cancels = _
    rw [cancelsOf_snoc _ rfl, h.cancels, coe_snoc_add]
  · intro m hm hne
    rcases List.mem_append.1 hm with hm | hm
    · exact h.named m hm hne
    · rw [List.mem_singleton.1 hm] at hne
      exact absurd rfl hne

/-- A step of the engine's threads. -/
theorem Linked.engineMove (h : Linked k z) (ht : Tracked N z.engine)
    {msgs : List (Order × OrderId)} (hm : EngineMove z.engine msgs st) :
    Linked k { z with engine := st, upstream := z.upstream ++ msgs } := by
  cases hm with
  | quiet htokens hsame =>
    rw [List.append_nil]
    refine h.sameOrders hsame fun t htok => h.promise_same ht hsame ?_
    rwa [← htokens]
  | acquire htokens hsame =>
    rw [List.append_nil]
    refine h.sameOrders hsame fun t htok => ?_
    rw [htokens] at htok
    rcases Multiset.mem_cons.1 htok with rfl | hu
    · trivial
    · exact h.promise_same ht hsame hu
  | forget htokens hsame =>
    rw [List.append_nil]
    refine h.sameOrders hsame fun t htok => h.promise_same ht hsame ?_
    rw [htokens]
    exact Multiset.mem_cons_of_mem htok
  | advance hs hs' ha hsame =>
    rw [List.append_nil]
    refine h.sameOrders hsame fun t htok => ?_
    rw [hs'] at htok
    rcases Multiset.mem_cons.1 htok with rfl | hu
    · exact h.promise_advance ht hsame (by rw [hs]; exact Multiset.mem_cons_self _ _) ha
    · exact h.promise_same ht hsame (by rw [hs]; exact Multiset.mem_cons_of_mem hu)
  | record htr hdrawn =>
    rw [List.append_nil]
    exact h.record ht htr hdrawn
  | postNew htr => exact h.postNew ht htr
  | postCancel htr => exact h.postCancel ht htr

end Engine

end TradingSystem
