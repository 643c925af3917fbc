/-
The server keeps its promises to the client.

A step of the server is about the client when it answers one of its orders or cancels, or
takes in the next one of them; everything else it does for other clients, or between its
messages, and the promises do not speak of that.

* `Elsewhere` — what the server does for other clients, and between its messages;
* `Linked.heardNew` and `Linked.heardCancel` — an order or a cancel of the client is
  answered, and the engine waits for this answer;
* `Linked.submit` and `Linked.cancel` — the server takes in an order or a cancel.
-/
import TradingPlatform.System.Promises

open TradeEngine

namespace TradingSystem

variable {K : Constants} {M : Matching K} {c : Capacity} {N : SlotCount} {k : ClientId}
  {z z' : TradingSystem M c}

/-! ### Steps of the server that are not about the client -/

section Server

variable {s s' : Server M}

/-- A step of the server that does not concern client `k`. -/
structure Elsewhere (k : ClientId) (s s' : Server M) : Prop where
  orders : s'.orders = s.orders ∨ ∃ sub, s'.orders = s.orders ++ [sub] ∧
    sub.request.clientId ≠ k ∧ (sub.systemOId ≠ none → Server.isValid sub.request = true)
  sent : s'.sent = s.sent ∨ ∃ x, s'.sent = s.sent ++ [x] ∧ x.status.clientId ≠ k
  dialogue : ∀ n sub, s.orders[n]? = some sub → sub.request.clientId = k →
    s'.dialogue n = s.dialogue n
  cancelled : s'.cancelled = s.cancelled ∨ ∃ n sub, s'.cancelled = s.cancelled ++ [n] ∧
    n ∉ s.cancelled ∧ s.ToldResting n ∧ s.orders[n]? = some sub ∧ sub.request.clientId ≠ k

/-- What was sent stays sent. -/
theorem toldResting_mono (hsent : s.sent <+: s'.sent) {n : ℕ} (h : s.ToldResting n) :
    s'.ToldResting n := by
  obtain ⟨x, hx, hrest⟩ := h
  exact ⟨x, hsent.subset hx, hrest⟩

namespace Elsewhere

theorem told (he : Elsewhere k s s') {n : ℕ} (h : s.ToldResting n) : s'.ToldResting n := by
  refine toldResting_mono ?_ h
  rcases he.sent with hsent | ⟨x, hsent, _⟩
  · rw [hsent]
  · rw [hsent]
    exact List.prefix_append _ _

theorem submitted (he : Elsewhere k s s') {n : ℕ} {sub : Submission K}
    (h : s.orders[n]? = some sub) : s'.orders[n]? = some sub := by
  rcases he.orders with horders | ⟨sub', horders, _⟩
  · rw [horders]
    exact h
  · rw [horders]
    exact Server.orders_append h

/-- The orders of client `k` are those it had. -/
theorem submitted_own (he : Elsewhere k s s') {n : ℕ} {sub : Submission K}
    (h : s'.orders[n]? = some sub) (hk : sub.request.clientId = k) : s.orders[n]? = some sub := by
  rcases he.orders with horders | ⟨sub', horders, hne, _⟩
  · rwa [horders] at h
  · rw [horders] at h
    rcases Ring.old_or_new h with hold | ⟨_, rfl⟩
    · exact hold
    · exact absurd hk hne

theorem openOrder (he : Elsewhere k s s') {n : ℕ} (hn : n < s.orders.length) :
    openOrder k s' n = openOrder k s n := by
  have hsub : s.orders[n]? = some (s.orders[n]) := List.getElem?_eq_getElem hn
  rw [TradingSystem.openOrder, TradingSystem.openOrder, hsub, he.submitted hsub]
  by_cases hk : (s.orders[n]).request.clientId = k
  · simp only [he.dialogue n _ hsub hk]
  · simp [hk]

theorem openOrders (he : Elsewhere k s s') : openOrders k s' = openOrders k s := by
  have hold : (List.range s.orders.length).filterMap (TradingSystem.openOrder k s') =
      (List.range s.orders.length).filterMap (TradingSystem.openOrder k s) :=
    List.filterMap_congr fun n hn => he.openOrder (List.mem_range.1 hn)
  rw [TradingSystem.openOrders, TradingSystem.openOrders]
  rcases he.orders with horders | ⟨sub, horders, hne, _⟩
  · rw [horders, hold]
  · have hnew : TradingSystem.openOrder k s' s.orders.length = none := by
      rw [TradingSystem.openOrder, horders, List.getElem?_concat_length]
      simp [hne]
    rw [horders, List.length_append, List.length_singleton, List.range_succ,
      List.filterMap_append, hold, List.filterMap_cons_none hnew, List.filterMap_nil,
      List.append_nil]

theorem openCancel (he : Elsewhere k s s') (asked : ℕ → Order × OrderId) (n : ℕ) :
    openCancel k s' asked n = openCancel k s asked n := by
  rw [TradingSystem.openCancel, TradingSystem.openCancel]
  cases hsub : s.orders[n]? with
  | some sub =>
    rw [he.submitted hsub]
    by_cases hk : sub.request.clientId = k
    · simp only [he.dialogue n _ hsub hk]
    · simp [hk]
  | none =>
    cases hsub' : s'.orders[n]? with
    | none => rfl
    | some sub =>
      have hne : sub.request.clientId ≠ k := by
        intro hk
        rw [he.submitted_own hsub' hk] at hsub
        exact nomatch hsub
      simp [hne]

theorem openCancels (he : Elsewhere k s s') (asked : ℕ → Order × OrderId) :
    openCancels k s' asked = openCancels k s asked := by
  rw [TradingSystem.openCancels, TradingSystem.openCancels,
    List.filterMap_congr fun n _ => he.openCancel asked n]
  rcases he.cancelled with hcan | ⟨n, sub, hcan, _, _, hsub, hne⟩
  · rw [hcan]
  · have hnone : TradingSystem.openCancel k s asked n = none := by
      simp [TradingSystem.openCancel, hsub, hne]
    rw [hcan, List.filterMap_append, List.filterMap_cons_none hnone, List.filterMap_nil,
      List.append_nil]

/-- The cancels of client `k` are those it sent. -/
theorem mem_cancelled (he : Elsewhere k s s') {n : ℕ} {sub : Submission K}
    (hn : n ∈ s'.cancelled) (hsub : s.orders[n]? = some sub) (hk : sub.request.clientId = k) :
    n ∈ s.cancelled := by
  rcases he.cancelled with hcan | ⟨m, sub', hcan, _, _, hsub', hne⟩
  · rwa [hcan] at hn
  · rw [hcan, List.mem_append, List.mem_singleton] at hn
    rcases hn with hn | rfl
    · exact hn
    · rw [hsub, Option.some_inj] at hsub'
      exact absurd (hsub' ▸ hk) hne

theorem outside (he : Elsewhere k z.server s') (i : ℕ) :
    Outside k z { z with server := s' } i where
  orders _ _ := rfl
  assigned _ _ := rfl
  newOrders _ hmem _ := hmem
  recorded _ hrec _ := hrec
  upstream _ _ hm _ _ := hm
  origin _ _ := rfl
  submitted _ _ hsub := he.submitted hsub
  told _ htold := he.told htold
  fresh o _ hlive hn := by
    obtain ⟨id, hsub, _⟩ := hlive.submitted
    exact hlive.fresh (he.mem_cancelled hn hsub rfl)

theorem advance_eq (he : Elsewhere k z.server s') :
    z.advance k s' = { z with server := s' } := by
  rcases he.sent with hsent | ⟨x, hsent, hne⟩
  · exact advance_silent hsent
  · rw [advance_sent hsent, hear_other hne]

end Elsewhere

theorem Linked.elsewhere (h : Linked k z) (ht : Tracked N z.engine)
    (he : Elsewhere k z.server s') : Linked k { z with server := s' } := by
  refine ⟨?_, ?_, ?_, h.named, ?_, ?_, ?_, ?_, ?_⟩
  · intro t htok
    exact (he.outside (t.index + 1)).promise (Nat.succ_ne_self t.index).symm
      (ht.custody.ok t htok) (h.promises t htok)
  · rw [he.openOrders]
    exact h.news
  · rw [he.openCancels]
    exact h.cancels
  · intro n sub hsub hk hnone
    have hold := he.submitted_own hsub hk
    rw [he.dialogue n sub hold hk] at hnone
    exact h.origin n sub hold hk hnone
  · intro n hn sub hsub hk
    have hold := he.submitted_own hsub hk
    exact h.asked n (he.mem_cancelled hn hold hk) sub hold hk
  · intro n hn
    rcases he.cancelled with hcan | ⟨m, _, hcan, _, htold, _⟩
    · rw [hcan] at hn
      exact he.told (h.told n hn)
    · rw [hcan, List.mem_append, List.mem_singleton] at hn
      rcases hn with hn | rfl
      · exact he.told (h.told n hn)
      · exact he.told htold
  · rcases he.cancelled with hcan | ⟨m, _, hcan, hnot, _⟩
    · rw [hcan]
      exact h.once
    · rw [hcan, ← List.concat_eq_append]
      exact h.once.concat hnot
  · intro n so id hsub
    rcases he.orders with horders | ⟨sub, horders, _, hvalid⟩
    · rw [horders] at hsub
      exact h.valid n so id hsub
    · rw [horders] at hsub
      rcases Ring.old_or_new hsub with hold | ⟨_, rfl⟩
      · exact h.valid n so id hold
      · exact hvalid (by simp)

/-! The steps that do not concern the client. -/

namespace Elsewhere

variable {so : ServerOrder} {about : ℕ}

theorem silent (horders : s'.orders = s.orders) (hsent : s'.sent = s.sent)
    (hcancelled : s'.cancelled = s.cancelled) : Elsewhere k s s' :=
  ⟨.inl horders, .inl hsent, fun _ _ _ _ => Server.dialogue_congr hsent, .inl hcancelled⟩

/-- An order of another client is rejected. -/
theorem reject (hne : so.clientId ≠ k) (p : SlotIdPool K.maxSystemOrders) :
    Elsewhere k s ({ s with idPool := p }.reject so) where
  orders := .inr ⟨⟨so, none⟩, rfl, hne, fun h => absurd rfl h⟩
  sent := .inr ⟨_, rfl, hne⟩
  dialogue n sub hsub _ := by
    have hlt := (List.getElem?_eq_some_iff.1 hsub).1
    refine Server.dialogue_sent_of_ne rfl ?_
    rw [Option.map_some, Ne, Option.some_inj]
    exact (Nat.ne_of_lt hlt).symm
  cancelled := .inl rfl

/-- An order of another client gets its record. -/
theorem create (hne : so.clientId ≠ k) (hvalid : Server.isValid so = true) (id : SystemOrderId K)
    (p : SlotIdPool K.maxSystemOrders) :
    Elsewhere k s ((s.createRecord so id p).postEvent ⟨s.orders.length, false⟩
      (Server.newEvent so id)) := by
  have heq := Server.postEvent_eq (s.createRecord so id p) ⟨s.orders.length, false⟩
    (Server.newEvent so id)
  rw [heq]
  exact {
    orders := .inr ⟨⟨so, some id⟩, rfl, hne, fun _ => hvalid⟩
    sent := .inl rfl
    dialogue := fun _ _ _ _ => Server.dialogue_congr rfl
    cancelled := .inl rfl }

/-- A cancel of another client is noted, and may be refused. -/
theorem cancel (hdis : s.Disciplined (.client so about)) (hact : so.order.action = .Cancel)
    (hne : so.clientId ≠ k) (horders : s'.orders = s.orders)
    (hsent : s'.sent = s.sent ∨ s'.sent = s.sent ++ [⟨none, false, Server.rejection so⟩]) :
    Elsewhere k s { s' with cancelled := s.cancelled ++ [about] } := by
  obtain ⟨sub, hsub, hclient, _, htold, hnot⟩ := hdis hact
  refine ⟨.inl horders, hsent.imp_right fun h => ⟨_, h, hne⟩, ?_,
    .inr ⟨about, sub, rfl, hnot, htold, hsub, hclient ▸ hne⟩⟩
  intro n _ _ _
  rcases hsent with hsent | hsent
  · exact Server.dialogue_congr hsent
  · exact Server.dialogue_sent_of_ne hsent (by simp)

theorem clientStep (hne : so.clientId ≠ k) (hdis : s.Disciplined (.client so about)) :
    Elsewhere k s (s.clientStep so about) := by
  have hmove := Server.postOrder_move s so
  rw [Server.clientStep]
  split
  · next hact =>
    have hother : ¬(so.order.action = .Buy ∨ so.order.action = .Sell) := by simp [hact]
    generalize s.postOrder so = s' at hmove ⊢
    cases hmove with
    | ignore => exact cancel hdis hact hne rfl (.inl rfl)
    | refuse => exact cancel hdis hact hne rfl (.inr rfl)
    | reject hnew => exact absurd hnew hother
    | exhausted hnew => exact absurd hnew hother
    | create hnew => exact absurd hnew hother
    | cancel =>
      rw [Server.postEvent_eq]
      exact cancel hdis hact hne rfl (.inl rfl)
  · next hact =>
    generalize s.postOrder so = s' at hmove ⊢
    cases hmove with
    | ignore => exact silent rfl rfl rfl
    | refuse =>
      exact ⟨.inl rfl, .inr ⟨_, rfl, hne⟩, fun _ _ _ _ => Server.dialogue_sent_of_ne rfl (by simp),
        .inl rfl⟩
    | reject => exact reject hne s.idPool
    | exhausted => exact reject hne _
    | create _ hvalid => exact create hne hvalid _ _
    | cancel hcancel => exact absurd hcancel hact

/-- The answer to another client. -/
theorem emit (h : s.Inv) {tag : Tag} {st : InternalOrderStatus K}
    {rest : List (Tag × InternalOrderStatus K)} (hst : s.statuses = (tag, st) :: rest)
    (hne : (s.answer st).clientId ≠ k) :
    Elsewhere k s { s with
      statuses := rest
      gateway := .emitted tag st
      sent := s.sent ++ [⟨some tag, true, s.answer st⟩] } where
  orders := .inl rfl
  sent := .inr ⟨_, rfl, hne⟩
  dialogue n sub hsub hk := by
    obtain ⟨_, so, id, habout, hso, hclient, _⟩ :=
      h.answer_routed (h.statuses _ (hst ▸ List.mem_cons_self))
    obtain rfl := Option.some_inj.1 habout
    refine Server.dialogue_sent_of_ne rfl ?_
    rw [Option.map_some, Ne, Option.some_inj]
    rintro rfl
    rw [hsub, Option.some_inj] at hso
    subst hso
    exact hne (hclient.trans hk)
  cancelled := .inl rfl

end Elsewhere

/-! ### Answers to the client -/

section Answers

variable {st : EngineState c} {n : ℕ} {sub : Submission K}

theorem openOrders_congr (horders : s'.orders = s.orders)
    (hsame : ∀ m, s'.dialogue m = [] ↔ s.dialogue m = []) : openOrders k s' = openOrders k s := by
  rw [openOrders, openOrders, horders]
  refine List.filterMap_congr fun m _ => ?_
  simp only [openOrder, horders, hsame]

theorem openCancels_congr (asked : ℕ → Order × OrderId) (horders : s'.orders = s.orders)
    (hcancelled : s'.cancelled = s.cancelled)
    (hsame : ∀ m ∈ s.cancelled, s'.dialogue m = s.dialogue m) :
    openCancels k s' asked = openCancels k s asked := by
  rw [openCancels, openCancels, hcancelled]
  refine List.filterMap_congr fun m hm => ?_
  simp only [openCancel, horders, hsame m hm]

/-- An order that is answered is open no more. -/
theorem openOrders_drop (hsub : s.orders[n]? = some sub) (hk : sub.request.clientId = k)
    (hnone : s.dialogue n = []) (horders : s'.orders = s.orders) (hsaid : s'.dialogue n ≠ [])
    (hother : ∀ m, m ≠ n → s'.dialogue m = s.dialogue m) :
    (openOrders k s : Multiset Order) = sub.request.order ::ₘ openOrders k s' := by
  rw [Multiset.cons_coe, Multiset.coe_eq_coe, openOrders, openOrders, horders]
  refine perm_filterMap_of_drop List.nodup_range (n := n) ?_ ?_ ?_ ?_
  · exact List.mem_range.2 (List.getElem?_eq_some_iff.1 hsub).1
  · simp [openOrder, hsub, hk, hnone]
  · simp [openOrder, horders, hsub, hsaid]
  · intro m _ hm
    simp only [openOrder, horders, hother m hm]

/-- And a cancel that is answered. -/
theorem openCancels_drop (asked : ℕ → Order × OrderId) (honce : s.cancelled.Nodup)
    (hn : n ∈ s.cancelled) (hsub : s.orders[n]? = some sub) (hk : sub.request.clientId = k)
    (hnone : ∀ y ∈ s.dialogue n, y.about ≠ some ⟨n, true⟩) (horders : s'.orders = s.orders)
    (hcancelled : s'.cancelled = s.cancelled)
    (hsaid : ∃ y ∈ s'.dialogue n, y.about = some ⟨n, true⟩)
    (hother : ∀ m, m ≠ n → s'.dialogue m = s.dialogue m) :
    (openCancels k s asked : Multiset (Order × OrderId)) =
      asked n ::ₘ openCancels k s' asked := by
  rw [Multiset.cons_coe, Multiset.coe_eq_coe, openCancels, openCancels, hcancelled]
  refine perm_filterMap_of_drop honce hn ?_ ?_ ?_
  · simp only [openCancel, hsub]
    exact if_pos ⟨hk, hnone⟩
  · obtain ⟨y, hy, habout⟩ := hsaid
    simp only [openCancel, horders, hsub]
    exact if_neg fun h => h.2 y hy habout
  · intro m _ hm
    simp only [openCancel, horders, hother m hm]

/-- What is sent about one order. -/
theorem dialogue_about {x : Sent} {cancel : Bool} (hsent : s'.sent = s.sent ++ [x])
    (hx : x.about = some ⟨n, cancel⟩) :
    s'.dialogue n = s.dialogue n ++ [x] ∧ ∀ m, m ≠ n → s'.dialogue m = s.dialogue m := by
  constructor
  · exact Server.dialogue_sent hsent (by rw [hx]; rfl)
  · intro m hm
    refine Server.dialogue_sent_of_ne hsent ?_
    rw [hx, Option.map_some, Ne, Option.some_inj]
    exact fun heq => hm heq.symm

/-- An order that was told to rest was answered. -/
theorem dialogue_ne_nil (htold : s.ToldResting n) : s.dialogue n ≠ [] := by
  obtain ⟨x, hx, _, habout, _⟩ := htold
  refine List.ne_nil_of_mem (a := x) ?_
  rw [Server.dialogue, List.mem_filter, habout]
  exact ⟨hx, by simp⟩

/-- An answer changes nothing for the other orders. -/
theorem outside_answer {i : ℕ} {x : Sent} (horders : st.orders = z.engine.orders)
    (hassigned : ∀ o, (⟨o⟩ : SlotId c).index ≠ i → st.assigned o = z.engine.assigned o)
    (hnew : ∀ order ∈ st.newOrders, order ∈ z.engine.newOrders)
    (htrader : st.trader = z.engine.trader) (hsubs : s'.orders = z.server.orders)
    (hsent : s'.sent = z.server.sent ++ [x]) (hcancelled : s'.cancelled = z.server.cancelled) :
    Outside k z { z with engine := st, server := s' } i where
  orders j _ := by rw [horders]
  assigned := hassigned
  newOrders order hmem _ := hnew order hmem
  recorded order hrec _ := htrader ▸ hrec
  upstream _ _ hm _ _ := hm
  origin _ _ := rfl
  submitted m sub hsub := by rwa [hsubs]
  told m htold := toldResting_mono (hsent ▸ List.prefix_append _ _) htold
  fresh o _ hlive := by
    rw [hcancelled]
    exact hlive.fresh

/-- A new order is answered; an answer that accepts it comes from the gateway thread and
names the id of the order. -/
theorem Linked.heardNew (h : Linked k z) (ht : Tracked N z.engine) {x : Sent}
    (hsub : z.server.orders[n]? = some sub) (hk : sub.request.clientId = k)
    (hnone : z.server.dialogue n = []) (habout : x.about = some ⟨n, false⟩)
    (hans : AnswersNew sub.request.order x.status.orderStatus)
    (hacc : x.status.orderStatus.state = .Accepted → x.byGateway = true ∧
      sub.systemOId = some ⟨x.status.orderStatus.systemOrderId⟩)
    (hsubs : s'.orders = z.server.orders) (hsent : s'.sent = z.server.sent ++ [x])
    (hcancelled : s'.cancelled = z.server.cancelled) :
    sub.request.order ∈ z.engine.newOrders ∧ Linked k { z with
      engine := z.engine.heardNew sub.request.order x.status.orderStatus
      server := s' } := by
  obtain ⟨hsaid, hother⟩ := dialogue_about hsent habout
  have hdrop := openOrders_drop hsub hk hnone hsubs (by rw [hsaid]; simp) hother
  have hnews : z.engine.newOrders = sub.request.order ::ₘ
      ((newsOf z.upstream : Multiset Order) + openOrders k s') := by
    rw [h.news, hdrop, Multiset.add_cons]
  have hmem : sub.request.order ∈ z.engine.newOrders := by
    rw [hnews]
    exact Multiset.mem_cons_self _ _
  have hfresh : n ∉ z.server.cancelled := fun hn => dialogue_ne_nil (h.told n hn) hnone
  have hs := EngineState.tokens_of_inFlight
    (EngineState.inFlight_newOrder z.engine (Multiset.cons_erase hmem).symm)
  obtain ⟨hrec, _⟩ := h.promises _ (mem_tokens_sent hmem) _ (.inr hmem) rfl
  refine ⟨hmem, ?_, ?_, ?_, h.named, ?_, ?_, ?_, ?_, ?_⟩
  · intro t htok
    rw [EngineState.tokens_of_inFlight (EngineState.inFlight_status _ rfl)] at htok
    rcases Multiset.mem_cons.1 htok with rfl | hu
    · -- an accepted order rests at the server
      intro hstate
      obtain ⟨hby, hid⟩ := hacc hstate
      have horigin := h.origin n sub hsub hk hnone
      rw [hans.1]
      refine ⟨?_, ⟨⟨x.status.orderStatus.systemOrderId⟩, ?_, Function.update_self _ _ _⟩,
        ?_, ?_⟩
      · change (z.engine.orders _).order.id = _
        rw [hrec]
      · change s'.orders[z.origin sub.request.order.id]? =
          some ⟨⟨k, (z.engine.orders _).order⟩, _⟩
        rw [horigin, hrec, hsubs, hsub, ← hid, ← hk]
      · change s'.ToldResting (z.origin sub.request.order.id)
        rw [horigin]
        refine ⟨x, ?_, hby, habout, ?_⟩
        · rw [hsent]
          exact List.mem_append_right _ (List.mem_singleton_self x)
        · rw [hstate]
          rfl
      · change z.origin sub.request.order.id ∉ s'.cancelled
        rw [horigin, hcancelled]
        exact hfresh
    · refine h.promise_rest ht hs ?_ hu
      refine outside_answer rfl ?_ ?_ rfl hsubs hsent hcancelled
      · intro o ho
        refine Function.update_of_ne ?_ _ _
        rintro rfl
        exact ho rfl
      · exact fun order horder => Multiset.mem_of_mem_erase horder
  · change z.engine.newOrders.erase sub.request.order = _
    rw [hnews, Multiset.erase_cons_head]
  · rw [openCancels_congr z.asked hsubs hcancelled]
    · exact h.cancels
    · intro m hm
      refine hother m ?_
      rintro rfl
      exact hfresh hm
  · intro m sub' hsub' hk' hnone'
    have hne : m ≠ n := by
      rintro rfl
      change s'.dialogue m = [] at hnone'
      rw [hsaid] at hnone'
      simp at hnone'
    change s'.dialogue m = [] at hnone'
    rw [hother m hne] at hnone'
    exact h.origin m sub' (hsubs ▸ hsub') hk' hnone'
  · intro m hm sub' hsub' hk'
    exact h.asked m (hcancelled ▸ hm) sub' (hsubs ▸ hsub') hk'
  · intro m hm
    exact toldResting_mono (hsent ▸ List.prefix_append _ _) (h.told m (hcancelled ▸ hm))
  · change s'.cancelled.Nodup
    rw [hcancelled]
    exact h.once
  · intro m so id hsub'
    exact h.valid m so id (hsubs ▸ hsub')

/-- The cancel of an order is answered. -/
theorem Linked.heardCancel (h : Linked k z) (ht : Tracked N z.engine) {x : Sent}
    (hsub : z.server.orders[n]? = some sub) (hk : sub.request.clientId = k)
    (hn : n ∈ z.server.cancelled)
    (hnone : ∀ y ∈ z.server.dialogue n, y.about ≠ some ⟨n, true⟩)
    (habout : x.about = some ⟨n, true⟩)
    (hans : AnswersCancel sub.request.order.id x.status.orderStatus)
    (hsubs : s'.orders = z.server.orders) (hsent : s'.sent = z.server.sent ++ [x])
    (hcancelled : s'.cancelled = z.server.cancelled) :
    z.asked n ∈ z.engine.cancels ∧ (z.asked n).2 = sub.request.order.id ∧ Linked k { z with
      engine := z.engine.heardCancel (z.asked n) x.status.orderStatus
      server := s' } := by
  obtain ⟨hsaid, hother⟩ := dialogue_about hsent habout
  have hdrop := openCancels_drop z.asked h.once hn hsub hk hnone hsubs hcancelled
    ⟨x, by rw [hsaid]; simp, habout⟩ hother
  have hcancels : z.engine.cancels = z.asked n ::ₘ
      ((cancelsOf z.upstream : Multiset (Order × OrderId)) + openCancels k s' z.asked) := by
    rw [h.cancels, hdrop, Multiset.add_cons]
  have hmem : z.asked n ∈ z.engine.cancels := by
    rw [hcancels]
    exact Multiset.mem_cons_self _ _
  have hnil : ∀ m, s'.dialogue m = [] ↔ z.server.dialogue m = [] := by
    intro m
    by_cases hm : m = n
    · subst hm
      have hold := dialogue_ne_nil (h.told m hn)
      rw [hsaid]
      simp [hold]
    · rw [hother m hm]
  have hs := EngineState.tokens_of_inFlight
    (EngineState.inFlight_cancel z.engine (Multiset.cons_erase hmem).symm)
  refine ⟨hmem, h.asked n hn sub hsub hk, ?_, ?_, ?_, h.named, ?_, ?_, ?_, ?_, ?_⟩
  · intro t htok
    rw [EngineState.tokens_of_inFlight (EngineState.inFlight_status _ rfl)] at htok
    rcases Multiset.mem_cons.1 htok with rfl | hu
    · intro hstate
      have hcases := hans.2
      rw [hstate] at hcases
      simp at hcases
    · refine h.promise_rest ht hs ?_ hu
      exact outside_answer rfl (fun _ _ => rfl) (fun _ horder => horder) rfl hsubs hsent
        hcancelled
  · rw [openOrders_congr hsubs hnil]
    exact h.news
  · change z.engine.cancels.erase (z.asked n) = _
    rw [hcancels, Multiset.erase_cons_head]
  · intro m sub' hsub' hk' hnone'
    exact h.origin m sub' (hsubs ▸ hsub') hk' ((hnil m).1 hnone')
  · intro m hm sub' hsub' hk'
    exact h.asked m (hcancelled ▸ hm) sub' (hsubs ▸ hsub') hk'
  · intro m hm
    exact toldResting_mono (hsent ▸ List.prefix_append _ _) (h.told m (hcancelled ▸ hm))
  · change s'.cancelled.Nodup
    rw [hcancelled]
    exact h.once
  · intro m so id hsub'
    exact h.valid m so id (hsubs ▸ hsub')

end Answers

/-! ### Orders of the client -/

section Orders

variable {m : Order} {o : OrderId} {rest : List (Order × OrderId)}

theorem getElem?_snoc_of_ne {β : Type*} {l : List β} {b : β} {n : ℕ} (hn : n ≠ l.length) :
    (l ++ [b])[n]? = l[n]? := by
  rw [List.getElem?_append]
  split
  · rfl
  · rw [List.getElem?_eq_none (by simp; omega), List.getElem?_eq_none (by omega)]

theorem openOrders_snoc {id : Option (SystemOrderId K)} (hsent : s'.sent = s.sent)
    (horders : s'.orders = s.orders ++ [⟨⟨k, m⟩, id⟩])
    (hnext : s.dialogue s.orders.length = []) : openOrders k s' = openOrders k s ++ [m] := by
  have hold : (List.range s.orders.length).filterMap (openOrder k s') = openOrders k s := by
    refine List.filterMap_congr fun n hn => ?_
    have hne := Nat.ne_of_lt (List.mem_range.1 hn)
    simp only [openOrder, horders, getElem?_snoc_of_ne hne, Server.dialogue_congr hsent]
  have hnew : openOrder k s' s.orders.length = some m := by
    simp [openOrder, horders, Server.dialogue_congr hsent, hnext]
  rw [openOrders, horders, List.length_append, List.length_singleton, List.range_succ,
    List.filterMap_append, hold, List.filterMap_cons_some hnew, List.filterMap_nil]

/-- The server takes in a new order. -/
theorem Linked.submit (h : Linked k z) (ht : Tracked N z.engine) (hup : z.upstream = (m, o) :: rest)
    (hact : m.action ≠ .Cancel) {id : Option (SystemOrderId K)}
    (hvalid : id ≠ none → Server.isValid ⟨k, m⟩ = true)
    (hsubs : s'.orders = z.server.orders ++ [⟨⟨k, m⟩, id⟩]) (hsent : s'.sent = z.server.sent)
    (hcancelled : s'.cancelled = z.server.cancelled)
    (hnext : z.server.dialogue z.server.orders.length = []) :
    Linked k { z with
      server := s'
      upstream := rest
      origin := Function.update z.origin o z.server.orders.length } := by
  obtain rfl : o = m.id := h.named (m, o) (by rw [hup]; exact List.mem_cons_self) hact
  have hnews : z.engine.newOrders = m ::ₘ ((newsOf rest : Multiset Order) +
      openOrders k z.server) := by
    rw [h.news, hup, newsOf, List.filter_cons_of_pos (by simpa using hact), List.map_cons,
      ← Multiset.cons_coe, Multiset.cons_add]
    rfl
  have hmem : m ∈ z.engine.newOrders := by
    rw [hnews]
    exact Multiset.mem_cons_self _ _
  have hlen : ∀ n ∈ z.server.cancelled, n ≠ z.server.orders.length := by
    rintro n hn rfl
    exact dialogue_ne_nil (h.told _ hn) hnext
  have hold : ∀ (n : ℕ) sub, z.server.orders[n]? = some sub → s'.orders[n]? = some sub := by
    intro n sub hsub
    rw [hsubs]
    exact Server.orders_append hsub
  have hs := EngineState.tokens_of_inFlight
    (EngineState.inFlight_newOrder z.engine (Multiset.cons_erase hmem).symm)
  have hcust := ht.custody
  rw [InCustody, hs] at hcust
  refine ⟨?_, ?_, ?_, ?_, ?_, ?_, ?_, ?_, ?_⟩
  · intro t htok
    have hall := htok
    change t ∈ z.engine.tokens at htok
    rw [hs] at htok
    rcases Multiset.mem_cons.1 htok with rfl | hu
    · exact h.promises _ hall
    · refine h.promise_rest ht hs ?_ hu
      exact {
        orders := fun _ _ => rfl
        assigned := fun _ _ => rfl
        newOrders := fun _ horder _ => horder
        recorded := fun _ hrec _ => hrec
        upstream := fun m' o' hm _ _ => by
          rw [hup]
          exact List.mem_cons_of_mem _ hm
        origin := fun o' ho' => by
          refine Function.update_of_ne ?_ _ _
          rintro rfl
          exact ho' rfl
        submitted := hold
        told := fun _ htold => toldResting_mono (hsent ▸ List.prefix_rfl) htold
        fresh := fun _ _ hlive => by
          rw [hcancelled]
          exact hlive.fresh }
  · change z.engine.newOrders = _
    rw [hnews, openOrders_snoc hsent hsubs hnext, ← Multiset.coe_add, Multiset.coe_singleton,
      ← Multiset.add_assoc, ← Multiset.singleton_add, Multiset.add_comm]
  · change z.engine.cancels = _
    have hcan : cancelsOf z.upstream = cancelsOf rest := by
      rw [hup]
      exact List.filter_cons_of_neg (by simpa using hact)
    have hsame : openCancels k s' z.asked = openCancels k z.server z.asked := by
      rw [openCancels, openCancels, hcancelled]
      refine List.filterMap_congr fun n hn => ?_
      simp only [openCancel, hsubs, getElem?_snoc_of_ne (hlen n hn), Server.dialogue_congr hsent]
    rw [hsame, ← hcan]
    exact h.cancels
  · intro m' hm hne
    exact h.named m' (by rw [hup]; exact List.mem_cons_of_mem _ hm) hne
  · intro n sub hsub hk hnone
    have hnone' : z.server.dialogue n = [] := (Server.dialogue_congr hsent).symm.trans hnone
    change s'.orders[n]? = some sub at hsub
    rw [hsubs] at hsub
    rcases Ring.old_or_new hsub with hsub | ⟨rfl, rfl⟩
    · -- another order that is open has another id
      have hopen : sub.request.order ∈ z.engine.newOrders.erase m := by
        rw [hnews, Multiset.erase_cons_head]
        refine Multiset.mem_add.2 (.inr (Multiset.mem_coe.2 ?_))
        refine List.mem_filterMap.2 ⟨n, List.mem_range.2 (List.getElem?_eq_some_iff.1 hsub).1, ?_⟩
        simp [openOrder, hsub, hk, hnone']
      have htok : Token.sent sub.request.order.id ∈ z.engine.trader.tokens +
          (z.engine.handler.tokens +
            { z.engine with newOrders := z.engine.newOrders.erase m }.inFlight) := by
        refine Multiset.mem_add.2 (.inr (Multiset.mem_add.2 (.inr ?_)))
        exact Multiset.mem_add.2 (.inl (Multiset.mem_map_of_mem _ hopen))
      have hne : sub.request.order.id ≠ m.id := by
        intro heq
        refine hcust.key_ne htok ?_
        change (⟨sub.request.order.id⟩ : SlotId c).index = (⟨m.id⟩ : SlotId c).index
        rw [heq]
      exact (Function.update_of_ne hne _ _).trans (h.origin n sub hsub hk hnone')
    · exact Function.update_self _ _ _
  · intro n hn sub hsub hk
    rw [hcancelled] at hn
    change s'.orders[n]? = some sub at hsub
    rw [hsubs, getElem?_snoc_of_ne (hlen n hn)] at hsub
    exact h.asked n hn sub hsub hk
  · intro n hn
    exact toldResting_mono (hsent ▸ List.prefix_rfl) (h.told n (hcancelled ▸ hn))
  · change s'.cancelled.Nodup
    rw [hcancelled]
    exact h.once
  · intro n so id' hsub
    change s'.orders[n]? = _ at hsub
    rw [hsubs] at hsub
    rcases Ring.old_or_new hsub with hsub | ⟨_, heq⟩
    · exact h.valid n so id' hsub
    · rw [Submission.mk.injEq] at heq
      rw [heq.1]
      exact hvalid (by simp [← heq.2])

/-- A cancel on its way is for an order that rests at the server, under this id. -/
theorem Linked.live_of_cancel (h : Linked k z) (hm : (m, o) ∈ z.upstream)
    (hact : m.action = .Cancel) : Live k z o ∧ z.engine.assigned o = some m.id ∧
      m.price = (z.engine.orders (⟨o⟩ : SlotId c).index).order.price :=
  h.promises _ (mem_tokens_cancelled (h.mem_cancels hm hact)) m hm hact

/-- The client keeps to the discipline. -/
theorem Linked.disciplined (h : Linked k z) (hup : z.upstream = (m, o) :: rest) :
    z.server.Disciplined (.client ⟨k, m⟩ (z.origin o)) := by
  intro hact
  obtain ⟨hlive, hassigned, _⟩ := h.live_of_cancel (by rw [hup]; exact List.mem_cons_self) hact
  obtain ⟨id, hsub, hid⟩ := hlive.submitted
  refine ⟨_, hsub, rfl, ?_, hlive.told, hlive.fresh⟩
  rw [hassigned, Option.some_inj] at hid
  change some id = some ⟨m.id⟩
  rw [hid]
  rfl

/-- The price of a cancel is that of its order, which was checked. -/
theorem Linked.isValid_cancel (h : Linked k z) (hm : (m, o) ∈ z.upstream)
    (hact : m.action = .Cancel) : Server.isValid ⟨k, m⟩ = true := by
  obtain ⟨hlive, _, hprice⟩ := h.live_of_cancel hm hact
  obtain ⟨id, hsub, _⟩ := hlive.submitted
  have hvalid := h.valid _ _ _ hsub
  rw [Server.isValid] at hvalid ⊢
  rw [hprice]
  exact hvalid

/-- The orders that rest at the server have different numbers there. -/
theorem Live.origin_inj {o' : OrderId} (hlive : Live k z o) (hlive' : Live k z o')
    (heq : z.origin o = z.origin o') : o = o' := by
  obtain ⟨_, hsub, _⟩ := hlive.submitted
  obtain ⟨_, hsub', _⟩ := hlive'.submitted
  rw [heq, hsub', Option.some_inj, Submission.mk.injEq, ServerOrder.mk.injEq] at hsub
  rw [← hlive.named, ← hlive'.named, hsub.1.2]

theorem openCancels_snoc {asked : ℕ → Order × OrderId} {n : ℕ} {sub : Submission K}
    (hsub : s.orders[n]? = some sub) (hk : sub.request.clientId = k)
    (hnone : ∀ y ∈ s.dialogue n, y.about ≠ some ⟨n, true⟩) (hfresh : n ∉ s.cancelled)
    (horders : s'.orders = s.orders) (hsent : s'.sent = s.sent)
    (hcancelled : s'.cancelled = s.cancelled ++ [n]) (cancel : Order × OrderId) :
    openCancels k s' (Function.update asked n cancel) = openCancels k s asked ++ [cancel] := by
  have hold : s.cancelled.filterMap (openCancel k s' (Function.update asked n cancel)) =
      openCancels k s asked := by
    refine List.filterMap_congr fun m hm => ?_
    have hne : m ≠ n := by
      rintro rfl
      exact hfresh hm
    simp only [openCancel, horders, Server.dialogue_congr hsent, Function.update_of_ne hne]
  have hnew : openCancel k s' (Function.update asked n cancel) n = some cancel := by
    simp only [openCancel, horders, hsub, Server.dialogue_congr hsent, Function.update_self]
    exact if_pos ⟨hk, hnone⟩
  rw [openCancels, hcancelled, List.filterMap_append, hold, List.filterMap_cons_some hnew,
    List.filterMap_nil]

/-- The server takes in a cancel. -/
theorem Linked.cancel (h : Linked k z) (ht : Tracked N z.engine) (hd : z.server.DialogueInv)
    (hup : z.upstream = (m, o) :: rest) (hact : m.action = .Cancel)
    (hsubs : s'.orders = z.server.orders) (hsent : s'.sent = z.server.sent)
    (hcancelled : s'.cancelled = z.server.cancelled ++ [z.origin o]) :
    Linked k { z with
      server := s'
      upstream := rest
      asked := Function.update z.asked (z.origin o) (m, o) } := by
  have hm : (m, o) ∈ z.upstream := by
    rw [hup]
    exact List.mem_cons_self
  obtain ⟨hlive, _, _⟩ := h.live_of_cancel hm hact
  obtain ⟨id, hsub, _⟩ := hlive.submitted
  have hcan : z.engine.cancels = (m, o) ::ₘ ((cancelsOf rest : Multiset (Order × OrderId)) +
      openCancels k z.server z.asked) := by
    rw [h.cancels, hup, cancelsOf, List.filter_cons_of_pos (by simpa using hact),
      ← Multiset.cons_coe, Multiset.cons_add]
    rfl
  have hmem := h.mem_cancels hm hact
  have hs := EngineState.tokens_of_inFlight
    (EngineState.inFlight_cancel z.engine (Multiset.cons_erase hmem).symm)
  have hcust := ht.custody
  rw [InCustody, hs] at hcust
  have htold : ∀ n, z.server.ToldResting n → s'.ToldResting n :=
    fun n => toldResting_mono (hsent ▸ List.prefix_rfl)
  refine ⟨?_, ?_, ?_, ?_, ?_, ?_, ?_, ?_, ?_⟩
  · intro t htok
    change t ∈ z.engine.tokens at htok
    rw [hs] at htok
    rcases Multiset.mem_cons.1 htok with rfl | hu
    · -- no other cancel of this order is on its way
      intro m' hm' hact'
      have hother : (m', o) ∈ z.engine.cancels.erase (m, o) := by
        rw [hcan, Multiset.erase_cons_head]
        refine Multiset.mem_add.2 (.inl (Multiset.mem_coe.2 ?_))
        exact List.mem_filter.2 ⟨hm', by simpa using hact'⟩
      refine absurd rfl (hcust.key_ne (u := .cancelled o) ?_)
      refine Multiset.mem_add.2 (.inr (Multiset.mem_add.2 (.inr ?_)))
      refine Multiset.mem_add.2 (.inr (Multiset.mem_add.2 (.inr (Multiset.mem_add.2 (.inl ?_)))))
      exact Multiset.mem_map.2 ⟨(m', o), hother, rfl⟩
    · refine h.promise_rest ht hs ?_ hu
      exact {
        orders := fun _ _ => rfl
        assigned := fun _ _ => rfl
        newOrders := fun _ horder _ => horder
        recorded := fun _ hrec _ => hrec
        upstream := fun m' o' hm' _ _ => by
          rw [hup]
          exact List.mem_cons_of_mem _ hm'
        origin := fun _ _ => rfl
        submitted := fun n sub hn => by rwa [hsubs]
        told := htold
        fresh := fun o' ho' hlive' hn => by
          rw [hcancelled, List.mem_append, List.mem_singleton] at hn
          rcases hn with hn | hn
          · exact hlive'.fresh hn
          · rw [hlive'.origin_inj hlive hn] at ho'
            exact ho' rfl }
  · change z.engine.newOrders = _
    have hnews : newsOf z.upstream = newsOf rest := by
      rw [hup, newsOf, List.filter_cons_of_neg (by simpa using hact)]
      rfl
    rw [openOrders_congr hsubs fun n => by rw [Server.dialogue_congr hsent], ← hnews]
    exact h.news
  · change z.engine.cancels = _
    have hnone : ∀ y ∈ z.server.dialogue (z.origin o), y.about ≠ some ⟨z.origin o, true⟩ :=
      fun y hy habout => hlive.fresh (hd.noted _ y hy habout)
    rw [hcan, openCancels_snoc hsub rfl hnone hlive.fresh hsubs hsent hcancelled,
      ← Multiset.coe_add, Multiset.coe_singleton, ← Multiset.add_assoc,
      ← Multiset.singleton_add, Multiset.add_comm]
  · intro m' hm' hne
    exact h.named m' (by rw [hup]; exact List.mem_cons_of_mem _ hm') hne
  · intro n sub' hsub' hk hnone
    exact h.origin n sub' (hsubs ▸ hsub') hk ((Server.dialogue_congr hsent).symm.trans hnone)
  · intro n hn sub' hsub' hk
    change s'.orders[n]? = some sub' at hsub'
    rw [hsubs] at hsub'
    by_cases hne : n = z.origin o
    · subst hne
      rw [hsub, Option.some_inj] at hsub'
      rw [← hsub']
      change (Function.update z.asked (z.origin o) (m, o) (z.origin o)).2 = _
      rw [Function.update_self]
      exact hlive.named.symm
    · change n ∈ s'.cancelled at hn
      rw [hcancelled, List.mem_append, List.mem_singleton] at hn
      change (Function.update z.asked (z.origin o) (m, o) n).2 = _
      rw [Function.update_of_ne hne]
      exact h.asked n (hn.resolve_right hne) sub' hsub' hk
  · intro n hn
    change n ∈ s'.cancelled at hn
    rw [hcancelled, List.mem_append, List.mem_singleton] at hn
    rcases hn with hn | rfl
    · exact htold n (h.told n hn)
    · exact htold _ hlive.told
  · change s'.cancelled.Nodup
    rw [hcancelled, ← List.concat_eq_append]
    exact h.once.concat hlive.fresh
  · intro n so id' hsub'
    exact h.valid n so id' (hsubs ▸ hsub')

end Orders

end Server

end TradingSystem
