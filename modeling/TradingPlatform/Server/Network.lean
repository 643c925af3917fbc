/-
The network thread keeps the invariant.

One lemma for each thing the thread can do with an incoming order: answer it
itself, give it a slot and queue its event, or queue a cancel.  A cancel that
passes the checks of `cancelOrder` names an open order whose record is
`Accepted`, so the only message that can already be on its way for it is
another cancel; `NoSecondCancel` says that there is none.
-/
import TradingPlatform.Server.Invariant

variable {K : Constants} {M : Matching K}

namespace Server

variable {s s' : Server M} {n m : ℕ} {id id' : SystemOrderId K} {tag : Tag}
  {e : InternalOrderEvent K} {st : InternalOrderStatus K} {so : ServerOrder}

/-! ### What the network thread can do -/

/-- What the network thread can do with an order. -/
inductive NetworkMove (s : Server M) (so : ServerOrder) : Server M → Prop
  | ignore (hact : ¬(so.order.action = .Buy ∨ so.order.action = .Sell)) : NetworkMove s so s
  | refuse (hact : ¬(so.order.action = .Buy ∨ so.order.action = .Sell)) :
      NetworkMove s so { s with sent := s.sent ++ [⟨none, false, rejection so⟩] }
  | reject (hact : so.order.action = .Buy ∨ so.order.action = .Sell) :
      NetworkMove s so (s.reject so)
  | exhausted (hact : so.order.action = .Buy ∨ so.order.action = .Sell)
      (hv : s.idPool.acquire.1.isValid = false) :
      NetworkMove s so ({ s with idPool := s.idPool.acquire.2 }.reject so)
  | create (hact : so.order.action = .Buy ∨ so.order.action = .Sell)
      (hprice : isValid so = true) (hv : s.idPool.acquire.1.isValid = true) :
      NetworkMove s so ((s.createRecord so s.idPool.acquire.1 s.idPool.acquire.2).postEvent
        ⟨s.orders.length, false⟩ (newEvent so s.idPool.acquire.1))
  | cancel {ioe : InternalOrderEvent K} (hact : so.order.action = .Cancel)
      (hc : s.cancelOrder so = some ioe) :
      NetworkMove s so (s.postEvent ⟨s.owner ioe.order.id.index, true⟩ ioe)

theorem newOrder_move (hact : so.order.action = .Buy ∨ so.order.action = .Sell)
    (hprice : isValid so = true) : s.NetworkMove so (s.newOrder so) := by
  rw [newOrder]
  split
  · next hv => exact .create hact hprice hv
  · next hv => exact .exhausted hact (Bool.eq_false_of_not_eq_true hv)

theorem postOrder_move (s : Server M) (so : ServerOrder) : s.NetworkMove so (s.postOrder so) := by
  rw [postOrder]
  split
  · next hprice =>
    split
    · next hact => exact .ignore (by simp [hact])
    · next hact =>
      split
      · next hc => exact .cancel hact hc
      · exact .ignore (by simp [hact])
    · next hact => exact .ignore (by simp [hact])
    · next hact => exact newOrder_move (.inl hact) hprice
    · next hact => exact newOrder_move (.inr hact) hprice
  · split
    · next hact => exact .reject hact
    · next hact => exact .refuse hact

/-- Posting an event only adds to the worker's queue. -/
theorem postEvent_eq (s : Server M) (tag : Tag) (e : InternalOrderEvent K) :
    s.postEvent tag e = { s with events := (s.postEvent tag e).events } := by
  rw [postEvent]
  split
  · rfl
  · rfl

theorem mem_postEvent {x : Tag × InternalOrderEvent K} (hx : x ∈ (s.postEvent tag e).events) :
    x ∈ s.events ∨ x = (tag, e) := by
  rw [postEvent] at hx
  split at hx
  · exact (List.mem_append.mp hx).imp_right List.mem_singleton.mp
  · exact .inl hx

theorem postEvent_sent : (s.postEvent tag e).sent = s.sent := by
  rw [postEvent_eq]

theorem postEvent_owns : (s.postEvent tag e).Owns n id ↔ s.Owns n id := by
  rw [postEvent_eq]
  exact ⟨fun ho => ho.congr rfl rfl rfl, fun ho => ho.congr rfl rfl rfl⟩

/-! ### New orders -/

/-- A step that only adds submissions and answers of the network thread. -/
theorem Inv.extend (h : Inv s) (hpool : SlotIdPool.PoolInv s'.idPool s.held)
    (hops : s'.ops = s.ops) (hrec : s'.recordMap = s.recordMap) (howner : s'.owner = s.owner)
    (hasg : s'.assigned = s.assigned) (hev : s'.events = s.events)
    (hst : s'.statuses = s.statuses) (hgw : s'.gateway = s.gateway)
    (horders : ∀ (n : ℕ) sub, s.orders[n]? = some sub → s'.orders[n]? = some sub)
    (hsent : ∃ xs, s'.sent = s.sent ++ xs ∧ ∀ x ∈ xs, x.byGateway = false) : Inv s' := by
  have hheld : s'.held = s.held := by rw [held, held, hops]
  have hview : ∀ n id, SameView s s' n id := fun n id =>
    ⟨horders n, fun hid => hheld ▸ hid, by rw [howner], by rw [hrec], by rw [hasg]⟩
  obtain ⟨xs, hsent, hnet⟩ := hsent
  -- what the gateway thread has sent is not concerned
  have hold : ∀ x ∈ s'.sent, x.byGateway = true → x ∈ s.sent := by
    intro x hx hby
    rw [hsent] at hx
    rcases List.mem_append.mp hx with hx | hx
    · exact hx
    · rw [hnet x hx] at hby
      exact Bool.noConfusion hby
  refine ⟨hheld ▸ hpool, hops ▸ h.releases, ?_, ?_, ?_, ?_, ?_, ?_, ?_⟩
  · intro id hid
    refine (h.slots id (hheld ▸ hid)).frame (hview _ _) ?_ (fun tag st hg _ => hgw.trans hg) ?_
    · rintro ⟨x, hx, hby, habout, hrests⟩
      exact ⟨x, hold x hx hby, hby, habout, hrests⟩
    · rw [InWindow, InWindow, hgw]
      exact fun hw => hw
  · intro i hi
    rw [hrec] at hi
    rw [hheld]
    exact h.live i hi
  · rw [inFlight, hev, hst, hgw]
    exact h.single
  · rw [hev]
    exact fun x hx => (h.events x hx).frame (hview _ _)
  · rw [hst]
    exact fun x hx => (h.statuses x hx).frame (hview _ _)
  · rw [hgw]
    exact h.gateway.frame fun n _ id _ => hview n id
  · exact fun x hx hby => (h.routed x (hold x hx hby) hby).frame horders

theorem orders_append {xs : List (Submission K)} {sub : Submission K}
    (h : s.orders[n]? = some sub) : (s.orders ++ xs)[n]? = some sub := by
  rw [List.getElem?_append_left (List.getElem?_eq_some_iff.mp h).1]
  exact h

theorem Inv.reject (h : Inv s) (so : ServerOrder) : Inv (s.reject so) := by
  refine h.extend h.pool rfl rfl rfl rfl rfl rfl rfl (fun n sub hn => orders_append hn)
    ⟨_, rfl, ?_⟩
  intro x hx
  rw [List.mem_singleton] at hx
  rw [hx]

/-- The pool without ids changes nothing but itself. -/
theorem Inv.exhausted (h : Inv s) (hv : s.idPool.acquire.1.isValid = false) :
    Inv { s with idPool := s.idPool.acquire.2 } := by
  rcases h.pool.acquire with ⟨hok, _⟩ | ⟨_, hpool, _⟩
  · exact Bool.noConfusion (hok.symm.trans hv)
  · exact h.extend hpool rfl rfl rfl rfl rfl rfl rfl (fun _ _ hn => hn)
      ⟨[], (List.append_nil _).symm, fun x hx => absurd hx List.not_mem_nil⟩

/-- An event joins the worker's queue, if no other message is about its order. -/
theorem Inv.postEvent (h : Inv s) (hok : s.EventOk tag e) (hfree : tag.order ∉ s.inFlight) :
    Inv (s.postEvent tag e) := by
  rw [Server.postEvent]
  split
  · have hview : ∀ n id, SameView s { s with events := s.events ++ [(tag, e)] } n id :=
      fun n id => ⟨fun _ hn => hn, fun hid => hid, rfl, rfl, rfl⟩
    refine ⟨h.pool, h.releases, ?_, h.live, ?_, ?_, ?_, ?_, h.routed⟩
    · exact fun id hid => (h.slots id hid).frame (hview _ _) (fun ht => ht) (fun _ _ hg _ => hg)
        fun hw => hw
    · show ((s.events ++ [(tag, e)]).map (·.1.order) ++ _).Nodup
      rw [List.map_append, List.append_assoc]
      exact List.nodup_middle.mpr (List.nodup_cons.mpr ⟨hfree, h.single⟩)
    · intro x hx
      rcases List.mem_append.mp hx with hx | hx
      · exact (h.events x hx).frame (hview _ _)
      · rw [List.mem_singleton] at hx
        rw [hx]
        exact hok.frame (hview _ _)
    · exact fun x hx => (h.statuses x hx).frame (hview _ _)
    · exact h.gateway.frame fun n _ id _ => hview n id
  · exact h

/-- A valid id comes with a slot that no open order has. -/
theorem Inv.acquire_fresh (h : Inv s) (hv : s.idPool.acquire.1.isValid = true) :
    (∀ id ∈ s.held, id.index ≠ s.idPool.acquire.1.index) ∧
      SlotIdPool.PoolInv s.idPool.acquire.2 (s.idPool.acquire.1 :: s.held) := by
  rcases h.pool.acquire with ⟨_, _, hfresh, hpool⟩ | ⟨hbad, _⟩
  · exact ⟨fun id hid heq => hfresh (List.mem_map.mpr ⟨id, hid, heq⟩), hpool⟩
  · rw [hbad, SlotId.isValid_default] at hv
    exact Bool.noConfusion hv

/-- Nobody has been told about an order that has not come in yet. -/
theorem Inv.not_told_next (h : Inv s) : ¬s.ToldResting s.orders.length := by
  rintro ⟨x, hx, hby, habout, _⟩
  obtain ⟨tag, so, id, htag, hso, _⟩ := h.routed x hx hby
  rw [habout, Option.some_inj] at htag
  have hlt := (List.getElem?_eq_some_iff.mp hso).1
  rw [← htag] at hlt
  exact lt_irrefl _ hlt

/-- The slot of a new order: its record is fresh. -/
theorem Inv.createRecord_slot (h : Inv s) (so : ServerOrder) (id : SystemOrderId K)
    (p : SlotIdPool K.maxSystemOrders) : (s.createRecord so id p).SlotOk id := by
  set s' := s.createRecord so id p
  have hrec : s'.recordMap id.index = newRecord so id := Function.update_self _ _ _
  have howner : s'.owner id.index = s.orders.length := Function.update_self _ _ _
  have hnew : s'.orders[s.orders.length]? = some ⟨so, some id⟩ := List.getElem?_concat_length
  refine ⟨⟨so, by rw [howner]; exact hnew, ?_⟩, ?_, ?_, ?_⟩
  · rw [hrec]
    exact ⟨rfl, rfl, rfl⟩
  · rw [stateOf, hrec]
    exact fun hs => RecordState.noConfusion hs
  · rw [stateOf, hrec]
    exact fun hs => RecordState.noConfusion hs
  · rw [howner]
    exact fun htold => absurd htold h.not_told_next

/-- A new order gets a slot that no open order has. -/
theorem Inv.createRecord (h : Inv s) (so : ServerOrder)
    (hv : s.idPool.acquire.1.isValid = true) :
    let s' := s.createRecord so s.idPool.acquire.1 s.idPool.acquire.2
    Inv s' ∧ s'.Owns s.orders.length s.idPool.acquire.1 ∧
      s'.stateOf s.idPool.acquire.1 = .New ∧ s.orders.length ∉ s'.inFlight := by
  intro s'
  set id := s.idPool.acquire.1
  obtain ⟨hne, hpool⟩ := h.acquire_fresh hv
  have hheld : s'.held = id :: s.held := outstanding_acquired _ _
  -- the open orders have other slots, so what belongs to them is untouched
  have hview : ∀ n id', s.Owns n id' → SameView s s' n id' := by
    intro n id' ho
    have hi := hne id' ho.held
    exact ⟨fun sub hn => orders_append hn, fun hid => hheld ▸ List.mem_cons_of_mem _ hid,
      Function.update_of_ne hi _ _, Function.update_of_ne hi _ _, rfl⟩
  have hrec : s'.recordMap id.index = newRecord so id := Function.update_self _ _ _
  have hflight : ∀ n ∈ s'.inFlight, n < s.orders.length := by
    intro n hn
    obtain ⟨id', ho⟩ := h.inFlight_owns hn
    exact ho.lt
  refine ⟨⟨hheld ▸ hpool, h.releases.acquired _, ?_, ?_, h.single, ?_, ?_, ?_, ?_⟩,
    ⟨⟨so, List.getElem?_concat_length⟩, hheld ▸ List.mem_cons_self, Function.update_self _ _ _⟩,
    congrArg OrderRecord.state hrec, fun hc => lt_irrefl _ (hflight _ hc)⟩
  · intro id' hid'
    rw [hheld, List.mem_cons] at hid'
    rcases hid' with rfl | hid'
    · exact h.createRecord_slot so id _
    · exact (h.slots id' hid').frame (hview _ _ (h.owns hid')) (fun ht => ht)
        (fun _ _ hg _ => hg) fun hw => hw
  · intro i hi
    by_cases hidx : i = id.index
    · rw [hidx, hrec] at hi
      exact RecordState.noConfusion hi
    · have hold : (s.recordMap i).state = .Accepted := by
        rw [← hi]
        exact congrArg OrderRecord.state (Function.update_of_ne hidx _ _).symm
      obtain ⟨id', hid', rfl⟩ := h.live i hold
      exact ⟨id', hheld ▸ List.mem_cons_of_mem _ hid', rfl⟩
  · exact fun x hx => (h.events x hx).frame (hview _ _ (h.events x hx).owns)
  · exact fun x hx => (h.statuses x hx).frame (hview _ _ (h.statuses x hx).owns)
  · exact h.gateway.frame fun n _ => hview n
  · exact fun x hx hby => (h.routed x hx hby).frame fun n sub hn => orders_append hn

/-- Creating a record leaves the other orders their ids. -/
theorem Inv.createRecord_owns (h : Inv s) (so : ServerOrder)
    (hv : s.idPool.acquire.1.isValid = true) (hn : n ≠ s.orders.length) :
    (s.createRecord so s.idPool.acquire.1 s.idPool.acquire.2).Owns n id ↔ s.Owns n id := by
  set s' := s.createRecord so s.idPool.acquire.1 s.idPool.acquire.2
  have hheld : s'.held = s.idPool.acquire.1 :: s.held := outstanding_acquired _ _
  have hown : s'.owner = Function.update s.owner s.idPool.acquire.1.index s.orders.length := rfl
  have horders : s'.orders = s.orders ++ [⟨so, some s.idPool.acquire.1⟩] := rfl
  constructor
  · rintro ⟨⟨so', hso'⟩, hid, howner⟩
    have hidx : id.index ≠ s.idPool.acquire.1.index := by
      intro heq
      rw [hown, heq, Function.update_self] at howner
      exact hn howner.symm
    refine ⟨⟨so', ?_⟩, ?_, ?_⟩
    · have hlt := (List.getElem?_eq_some_iff.mp hso').1
      rw [horders, List.length_append, List.length_singleton] at hlt
      rwa [horders, List.getElem?_append_left (by omega)] at hso'
    · rw [hheld, List.mem_cons] at hid
      exact hid.resolve_left fun heq => hidx (by rw [heq])
    · rwa [hown, Function.update_of_ne hidx] at howner
  · rintro ⟨⟨so', hso'⟩, hid, howner⟩
    have hidx := (h.acquire_fresh hv).1 id hid
    exact ⟨⟨so', orders_append hso'⟩, hheld ▸ List.mem_cons_of_mem _ hid,
      (Function.update_of_ne hidx _ _).trans howner⟩

/-! ### Cancels -/

/-- The answer to a cancel of the order with id `id`. -/
def AnswersCancel (id : SystemOrderId K) (st : InternalOrderStatus K) : Prop :=
  (st.state = .Cancelled ∨ st.state = .Rejected) ∧ st.id = id

/-- A cancel of the order with id `id`, or the answer to one, is still in a
queue or in the hands of the gateway thread. -/
def CancelInFlight (s : Server M) (id : SystemOrderId K) : Prop :=
  (∃ x ∈ s.events, x.2.action = .Cancel ∧ x.2.order.id = id) ∨
    (∃ x ∈ s.statuses, AnswersCancel id x.2) ∨
    match s.gateway with
    | .emitted _ st => AnswersCancel id st
    | _ => False

/-- No cancel is let through while another one of the same order is on its way. -/
def NoSecondCancel (s : Server M) : ServerAction K → Prop
  | .client so _ => so.order.action = .Cancel → ∀ ioe ∈ s.cancelOrder so,
      s.CanPost ioe → ¬s.CancelInFlight ioe.order.id
  | _ => True

instance (id : SystemOrderId K) (st : InternalOrderStatus K) : Decidable (AnswersCancel id st) :=
  inferInstanceAs (Decidable (_ ∧ _))

instance (s : Server M) (id : SystemOrderId K) : Decidable (s.CancelInFlight id) :=
  match hg : s.gateway with
  | .emitted _ st => decidable_of_iff
      ((∃ x ∈ s.events, x.2.action = .Cancel ∧ x.2.order.id = id) ∨
        (∃ x ∈ s.statuses, AnswersCancel id x.2) ∨ AnswersCancel id st)
      (by rw [CancelInFlight, hg])
  | .idle | .linked _ _ | .closed _ _ => decidable_of_iff
      ((∃ x ∈ s.events, x.2.action = .Cancel ∧ x.2.order.id = id) ∨
        ∃ x ∈ s.statuses, AnswersCancel id x.2)
      (by rw [CancelInFlight, hg, or_false])

instance (s : Server M) : (a : ServerAction K) → Decidable (s.NoSecondCancel a)
  | .client _ _ => inferInstanceAs (Decidable (_ → _))
  | .work _ | .emit | .linkBook | .accept | .close | .release => .isTrue trivial

/-- The checks `cancelOrder` makes, and the event it posts. -/
theorem cancelOrder_eq_some {ioe : InternalOrderEvent K} :
    s.cancelOrder so = some ioe ↔
      s.stateOf ⟨so.order.id⟩ = .Accepted ∧
      so.clientId = (s.recordMap (⟨so.order.id⟩ : SystemOrderId K).index).clientId ∧
      so.order.id = (s.recordMap (⟨so.order.id⟩ : SystemOrderId K).index).systemOId.raw ∧
      ioe = ⟨⟨⟨so.order.id⟩, (s.recordMap (⟨so.order.id⟩ : SystemOrderId K).index).bookOId,
        so.order.quantity, so.order.price⟩, so.order.ticker, so.order.action⟩ := by
  simp only [Server.cancelOrder, stateOf]
  split
  · next hc => grind
  · next hc =>
    push Not at hc
    rw [Option.some_inj]
    exact ⟨fun h => ⟨hc.1, hc.2.1, hc.2.2, h.symm⟩, fun h => h.2.2.2.symm⟩

/-- A cancel that passes the checks names an open order. -/
theorem Inv.cancel_event (h : Inv s) {ioe : InternalOrderEvent K}
    (hact : so.order.action = .Cancel) (hc : s.cancelOrder so = some ioe) :
    s.EventOk ⟨s.owner ioe.order.id.index, true⟩ ioe := by
  obtain ⟨hstate, _, hraw, rfl⟩ := cancelOrder_eq_some.mp hc
  obtain ⟨id, hid, hidx⟩ := h.live _ hstate
  obtain ⟨so', _, hrec⟩ := (h.slots id hid).owned
  have hsys : id = ⟨so.order.id⟩ := by
    rw [hidx] at hrec
    rw [hrec.systemOId] at hraw
    exact SlotId.raw_inj.mp hraw.symm
  subst hsys
  exact ⟨h.owns hid, hstate, ⟨fun _ => rfl, fun _ => hact⟩, fun _ => rfl⟩

/-- Only another cancel can be on its way for an order that is accepted. -/
theorem Inv.cancelInFlight (h : Inv s) (ho : s.Owns n id) (hstate : s.stateOf id = .Accepted)
    (hn : n ∈ s.inFlight) : s.CancelInFlight id := by
  rw [inFlight, List.mem_append, List.mem_append, List.mem_map, List.mem_map] at hn
  have hcancel : ∀ tag : Tag, s.stateOf id = (if tag.cancel then .Accepted else .New) →
      tag.cancel = true := by
    intro tag htag
    rw [hstate] at htag
    by_contra hc
    rw [if_neg hc] at htag
    exact RecordState.noConfusion htag
  rcases hn with ⟨x, hx, rfl⟩ | ⟨x, hx, rfl⟩ | hn
  · have hok := h.events x hx
    have hid := hok.owns.unique ho
    exact .inl ⟨x, hx, hok.action.mpr (hcancel _ (hid ▸ hok.state)), hid⟩
  · have hok := h.statuses x hx
    have hid := hok.owns.unique ho
    exact .inr (.inl ⟨x, hx, hok.cancel (hcancel _ (hid ▸ hok.state)), hid⟩)
  · cases hg : s.gateway with
    | idle =>
      rw [hg] at hn
      exact absurd hn List.not_mem_nil
    | emitted tag st =>
      rw [hg, GatewayPc.orders, List.mem_singleton] at hn
      subst hn
      have hok := h.emitted hg
      have hid := hok.owns.unique ho
      refine .inr (.inr ?_)
      rw [hg]
      exact ⟨hok.cancel (hcancel _ (hid ▸ hok.state)), hid⟩
    | linked tag st =>
      -- the record is not yet accepted
      rw [hg, GatewayPc.orders, List.mem_singleton] at hn
      subst hn
      have hok := h.linked hg
      rw [← hok.owns.unique ho, hok.state] at hstate
      exact RecordState.noConfusion hstate
    | closed tag st =>
      -- the record is no longer accepted
      rw [hg, GatewayPc.orders, List.mem_singleton] at hn
      subst hn
      have hok := h.closed hg
      rw [← hok.owns.unique ho, hok.state] at hstate
      exact RecordState.noConfusion hstate

theorem Inv.cancel (h : Inv s) {about : ℕ} (hact : so.order.action = .Cancel)
    (hsafe : s.NoSecondCancel (.client so about)) {ioe : InternalOrderEvent K}
    (hc : s.cancelOrder so = some ioe) :
    Inv (s.postEvent ⟨s.owner ioe.order.id.index, true⟩ ioe) := by
  by_cases hpost : s.CanPost ioe
  · have hok := h.cancel_event hact hc
    refine h.postEvent hok fun hflight => ?_
    exact hsafe hact ioe hc hpost (h.cancelInFlight hok.owns hok.state hflight)
  · rw [Server.postEvent, if_neg hpost]
    exact h

theorem Inv.postOrder (h : Inv s) {about : ℕ} (hsafe : s.NoSecondCancel (.client so about)) :
    Inv (s.postOrder so) := by
  have hmove := postOrder_move s so
  generalize s.postOrder so = s' at hmove ⊢
  cases hmove with
  | ignore => exact h
  | refuse =>
    refine h.extend h.pool rfl rfl rfl rfl rfl rfl rfl (fun _ _ hn => hn) ⟨_, rfl, ?_⟩
    intro x hx
    rw [List.mem_singleton] at hx
    rw [hx]
  | reject => exact h.reject so
  | exhausted hact hv => exact (h.exhausted hv).reject so
  | create hact hprice hv =>
    obtain ⟨hinv, howns, hstate, hfree⟩ := h.createRecord so hv
    have hne : so.order.action ≠ .Cancel := by
      rcases hact with hact | hact
      · exact hact ▸ nofun
      · exact hact ▸ nofun
    exact hinv.postEvent ⟨howns, hstate, ⟨fun hc => absurd hc hne, nofun⟩, nofun⟩ hfree
  | cancel hact hc => exact h.cancel hact hsafe hc

theorem Inv.clientStep (h : Inv s) {about : ℕ} (hsafe : s.NoSecondCancel (.client so about)) :
    Inv (s.clientStep so about) := by
  rw [Server.clientStep]
  split
  · exact (h.postOrder hsafe).extend (h.postOrder hsafe).pool rfl rfl rfl rfl rfl rfl rfl
      (fun _ _ hn => hn) ⟨[], (List.append_nil _).symm, fun x hx => absurd hx List.not_mem_nil⟩
  · exact h.postOrder hsafe

end Server
