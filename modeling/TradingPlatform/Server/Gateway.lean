/-
The worker and the gateway thread keep the invariant.

Each of their steps concerns one order (`Touches`), the one its message is
about, so `Inv.touch` leaves only this order to be checked.  `Inv.step` puts
the steps of the three threads together, and `singleCancelRuns_inv` follows it
along every run without a second cancel.
-/
import TradingPlatform.Server.Network

variable {K : Constants} {M : Matching K}

namespace Server

variable {s s' : Server M} {n m : ℕ} {id id' : SystemOrderId K} {tag : Tag}
  {e : InternalOrderEvent K} {st : InternalOrderStatus K} {so : ServerOrder}

/-! ### Steps that concern one order -/

/-- Between `s` and `s'`, only order `n`, whose id is `id`, has changed. -/
structure Touches (s s' : Server M) (n : ℕ) (id : SystemOrderId K) : Prop where
  orders : s'.orders = s.orders
  owner : s'.owner = s.owner
  held : ∀ id', id' ∈ s'.held → id' ∈ s.held
  others : ∀ id', id' ≠ id → id' ∈ s.held → id' ∈ s'.held
  record : ∀ i, i ≠ id.index → s'.recordMap i = s.recordMap i
  assigned : ∀ m, m ≠ n → s'.assigned m = s.assigned m
  gateway : s'.gateway = s.gateway ∨ ∀ m ∈ s.gateway.orders, m = n
  sent : ∃ xs, s'.sent = s.sent ++ xs ∧ ∀ x ∈ xs, ∃ c, x.about = some ⟨n, c⟩

theorem Touches.view (ht : Touches s s' n id) (ho : s.Owns n id) {m : ℕ}
    {id' : SystemOrderId K} (ho' : s.Owns m id') (hne : m ≠ n) : SameView s s' m id' := by
  have hidx := ho'.index_ne ho hne
  refine ⟨fun sub hsub => ht.orders ▸ hsub, ht.others id' fun heq => hidx (by rw [heq]),
    by rw [ht.owner], ht.record _ hidx, ht.assigned m hne⟩

theorem Touches.inWindow (ht : Touches s s' n id) (hne : m ≠ n) (hw : s.InWindow m) :
    s'.InWindow m := by
  obtain ⟨st, hrests, hw⟩ := hw
  rcases ht.gateway with hg | hg
  · exact ⟨st, hrests, hg ▸ hw⟩
  · rcases hw with hw | hw
    · exact absurd (hg m (by simp [hw, GatewayPc.orders])) hne
    · exact absurd (hg m (by simp [hw, GatewayPc.orders])) hne

theorem Touches.toldResting (ht : Touches s s' n id) (hne : m ≠ n) (htold : s'.ToldResting m) :
    s.ToldResting m := by
  obtain ⟨x, hx, hby, habout, hrests⟩ := htold
  obtain ⟨xs, hsent, hxs⟩ := ht.sent
  rw [hsent] at hx
  rcases List.mem_append.mp hx with hx | hx
  · exact ⟨x, hx, hby, habout, hrests⟩
  · obtain ⟨c, hc⟩ := hxs x hx
    rw [habout, Option.some_inj, Tag.mk.injEq] at hc
    exact absurd hc.1 hne

/-- The slots of the other orders are as they were. -/
theorem Inv.touch_slot (h : Inv s) (ht : Touches s s' n id) (ho : s.Owns n id)
    (hid' : id' ∈ s.held) (hne : id' ≠ id) : s'.SlotOk id' := by
  have ho' := h.owns hid'
  have hn : s.owner id'.index ≠ n := by
    intro heq
    exact hne ((heq ▸ ho').unique ho)
  refine (h.slots id' hid').frame (ht.view ho ho' hn) (ht.toldResting hn) ?_ (ht.inWindow hn)
  intro tag st hg htag
  rcases ht.gateway with hg' | hg'
  · exact hg'.trans hg
  · exact absurd (hg' _ (by simp [hg, GatewayPc.orders, htag])) hn

/-- A step that concerns one order keeps the invariant, if it does so for this
order. -/
theorem Inv.touch (h : Inv s) (ht : Touches s s' n id) (ho : s.Owns n id)
    (hpool : SlotIdPool.PoolInv s'.idPool s'.held) (hrel : SingleRelease s'.ops)
    (hslot : id ∈ s'.held → s'.SlotOk id)
    (hlive : (s'.recordMap id.index).state = .Accepted → id ∈ s'.held)
    (hsingle : s'.inFlight.Nodup)
    (hevents : ∀ x ∈ s'.events, x ∈ s.events ∧ x.1.order ≠ n)
    (hstatuses : ∀ x ∈ s'.statuses, x ∈ s.statuses ∧ x.1.order ≠ n ∨ s'.StatusOk x.1 x.2)
    (hgateway : s'.GatewayOk s'.gateway)
    (hrouted : ∀ x ∈ s'.sent, x ∈ s.sent ∨ s'.Routed x) : Inv s' := by
  refine ⟨hpool, hrel, ?_, ?_, hsingle, ?_, ?_, hgateway, ?_⟩
  · intro id' hid'
    by_cases heq : id' = id
    · exact heq ▸ hslot (heq ▸ hid')
    · exact h.touch_slot ht ho (ht.held id' hid') heq
  · intro i hi
    by_cases heq : i = id.index
    · exact ⟨id, hlive (heq ▸ hi), heq.symm⟩
    · rw [ht.record i heq] at hi
      obtain ⟨id', hid', rfl⟩ := h.live i hi
      exact ⟨id', ht.others id' (fun hc => heq (by rw [hc])) hid', rfl⟩
  · intro x hx
    obtain ⟨hx, hne⟩ := hevents x hx
    exact (h.events x hx).frame (ht.view ho (h.events x hx).owns hne)
  · intro x hx
    rcases hstatuses x hx with ⟨hx, hne⟩ | hok
    · exact (h.statuses x hx).frame (ht.view ho (h.statuses x hx).owns hne)
    · exact hok
  · intro x hx hby
    rcases hrouted x hx with hx | hr
    · exact (h.routed x hx hby).frame fun n sub hn => ht.orders ▸ hn
    · exact hr

/-! ### The worker -/

/-- An event leaves the worker's queue, and what the book posts joins the
gateway's. -/
theorem Inv.dequeue (h : Inv s) {rest : List (Tag × InternalOrderEvent K)} {σ : M.State}
    {added : List (Tag × InternalOrderStatus K)} {asg : ℕ → Option (BookOrderId K)}
    (hev : s.events = (tag, e) :: rest)
    (hadded : added.map (·.1.order) = [] ∨ added.map (·.1.order) = [tag.order])
    (hothers : ∀ m, m ≠ tag.order → asg m = s.assigned m)
    (hcancel : tag.cancel = true → asg = s.assigned) :
    let s' : Server M := { s with
      events := rest
      matching := σ
      statuses := s.statuses ++ added
      assigned := asg }
    (∀ x ∈ added, s'.StatusOk x.1 x.2) → Inv s' := by
  intro s' hnew
  have hok : s.EventOk tag e := h.events (tag, e) (hev ▸ List.mem_cons_self)
  have hsingle := h.single
  rw [inFlight, hev, List.map_cons, List.cons_append, List.nodup_cons, List.mem_append,
    List.mem_append, not_or, not_or] at hsingle
  obtain ⟨⟨hrest, hstat, hgw⟩, hnodup⟩ := hsingle
  have ht : Touches s s' tag.order e.order.id :=
    ⟨rfl, rfl, fun _ hid => hid, fun _ _ hid => hid, fun _ _ => rfl, hothers, .inl rfl,
      [], (List.append_nil _).symm, fun x hx => absurd hx List.not_mem_nil⟩
  refine h.touch ht hok.owns h.pool h.releases ?_ (fun _ => hok.owns.held) ?_ ?_ ?_ ?_
    fun x hx => .inl hx
  · intro _
    obtain ⟨howned, hacc, hclosed, htold⟩ := h.slots _ hok.owns.held
    refine ⟨howned, fun hstate => ?_, hclosed, htold⟩
    -- an accepted record: the event was a cancel, and no handle was given
    have hc : tag.cancel = true := by
      by_contra hc
      have hstate' := hok.state
      rw [if_neg hc] at hstate'
      exact RecordState.noConfusion (hstate'.symm.trans hstate)
    rw [show s'.assigned = s.assigned from hcancel hc]
    exact hacc hstate
  · show (rest.map (·.1.order) ++ ((s.statuses ++ added).map (·.1.order) ++ s.gateway.orders)).Nodup
    rw [List.map_append]
    rcases hadded with hadded | hadded
    · rw [hadded, List.append_nil]
      exact hnodup
    · rw [hadded, List.append_assoc, ← List.append_assoc, List.singleton_append,
        List.nodup_middle, List.append_assoc, List.nodup_cons, List.mem_append, List.mem_append]
      exact ⟨not_or.mpr ⟨hrest, not_or.mpr ⟨hstat, hgw⟩⟩, hnodup⟩
  · exact fun x hx => ⟨hev ▸ List.mem_cons_of_mem _ hx,
      fun heq => hrest (List.mem_map.mpr ⟨x, hx, heq⟩)⟩
  · intro x hx
    rcases List.mem_append.mp hx with hx | hx
    · exact .inl ⟨hx, fun heq => hstat (List.mem_map.mpr ⟨x, hx, heq⟩)⟩
    · exact .inr (hnew x hx)
  · exact h.gateway.frame fun m hm id' ho' => ht.view hok.owns ho' fun heq => hgw (heq ▸ hm)

theorem Inv.worked (hM : M.Lawful) (h : Inv s) {rest : List (Tag × InternalOrderEvent K)}
    {msgs : List (BookMessage K)} {σ : M.State} (hev : s.events = (tag, e) :: rest)
    (hpost : M.post s.matching e msgs σ) : Inv (s.worked tag rest msgs σ) := by
  have hok : s.EventOk tag e := h.events (tag, e) (hev ▸ List.mem_cons_self)
  rw [Server.worked]
  rcases hM _ _ _ _ hpost with hnil | ⟨st, hone, hid, hcan, hnew⟩
  · rw [hnil, List.map_nil, List.take_nil]
    exact h.dequeue hev (.inl rfl) (fun _ _ => rfl) (fun _ => rfl)
      fun x hx => absurd hx List.not_mem_nil
  · rw [hone, List.map_singleton]
    refine h.dequeue hev ?_ ?_ ?_ ?_
    · -- the status is queued, or lost
      cases lfqCapacity - s.statuses.length with
      | zero => exact .inl rfl
      | succ k => exact .inr (by rw [List.take_succ_cons, List.take_nil, List.map_singleton])
    · intro m hm
      rcases hrests : st.state.rests with _ | _
      · simp [hrests]
      · simp [hrests, hm]
    · intro hc
      have hrests : st.state.rests = false := by
        rcases hcan (hok.action.mpr hc) with h | h
        · rw [h]; rfl
        · rw [h]; rfl
      simp [hrests]
    · intro x hx
      have hx := List.mem_singleton.mp (List.mem_of_mem_take hx)
      subst hx
      refine ⟨?_, ?_, ?_, ?_⟩
      · show Owns _ tag.order st.id
        rw [hid]
        exact ⟨hok.owns.submitted, hok.owns.held, hok.owns.owner⟩
      · show stateOf _ st.id = _
        rw [hid]
        exact hok.state
      · exact fun hc => hcan (hok.action.mpr hc)
      · intro hc
        have hc : ¬tag.cancel = true := by
          rw [show tag.cancel = false from hc]
          decide
        refine (hnew fun ha => hc (hok.action.mp ha)).imp_right fun hr => ⟨hr.1, ?_⟩
        simp [hr.1]

/-! ### The gateway thread -/

/-- What the gateway thread can do, step by step. -/
inductive GatewayMove (s : Server M) : ServerAction K → Server M → Prop
  | emit {tag : Tag} {st : InternalOrderStatus K} {rest : List (Tag × InternalOrderStatus K)}
      (hg : s.gateway = .idle) (hst : s.statuses = (tag, st) :: rest) :
      GatewayMove s .emit { s with
        statuses := rest
        gateway := .emitted tag st
        sent := s.sent ++ [⟨some tag, true, s.answer st⟩] }
  | linkBook {tag : Tag} {st : InternalOrderStatus K} (hg : s.gateway = .emitted tag st)
      (hc : st.state.closes = false) :
      GatewayMove s .linkBook
        { s.setRecord st.id.index { s.recordMap st.id.index with bookOId := st.bookOId } with
          gateway := .linked tag st }
  | accept {tag : Tag} {st : InternalOrderStatus K} (hg : s.gateway = .linked tag st) :
      GatewayMove s .accept
        { s.setRecord st.id.index { s.recordMap st.id.index with state := .Accepted } with
          gateway := .idle }
  | close {tag : Tag} {st : InternalOrderStatus K} (hg : s.gateway = .emitted tag st)
      (hc : st.state.closes = true) :
      GatewayMove s .close
        { s.setRecord st.id.index { s.recordMap st.id.index with state := .Closed } with
          gateway := .closed tag st }
  | release {tag : Tag} {st : InternalOrderStatus K} (hg : s.gateway = .closed tag st) :
      GatewayMove s .release { s with
        idPool := s.idPool.release (s.recordMap st.id.index).systemOId
        ops := s.ops ++ [.released (s.recordMap st.id.index).systemOId]
        gateway := .idle }

theorem gatewayStep_move {a : ServerAction K} (h : s.gatewayStep a = some s') :
    s.GatewayMove a s' := by
  cases a with
  | client so about => exact nomatch h
  | work msgs => exact nomatch h
  | emit =>
    simp only [gatewayStep] at h
    split at h
    · next hg hst => exact Option.some_inj.mp h ▸ .emit hg hst
    · exact nomatch h
  | linkBook =>
    simp only [gatewayStep] at h
    split at h
    · next hg =>
      split at h
      · exact nomatch h
      · next hc => exact Option.some_inj.mp h ▸ .linkBook hg (Bool.eq_false_of_not_eq_true hc)
    · exact nomatch h
  | accept =>
    simp only [gatewayStep] at h
    split at h
    · next hg => exact Option.some_inj.mp h ▸ .accept hg
    · exact nomatch h
  | close =>
    simp only [gatewayStep] at h
    split at h
    · next hg =>
      split at h
      · next hc => exact Option.some_inj.mp h ▸ .close hg hc
      · exact nomatch h
    · exact nomatch h
  | release =>
    simp only [gatewayStep] at h
    split at h
    · next hg => exact Option.some_inj.mp h ▸ .release hg
    · exact nomatch h

/-- No other message is about the order the gateway thread is busy with. -/
theorem Inv.gateway_single (h : Inv s) (hg : s.gateway.orders = [n]) :
    (∀ x ∈ s.events, x.1.order ≠ n) ∧ ∀ x ∈ s.statuses, x.1.order ≠ n := by
  have hsingle := h.single
  rw [inFlight, hg, ← List.append_assoc, List.nodup_append] at hsingle
  have hne := hsingle.2.2
  constructor
  · intro x hx
    exact hne _ (List.mem_append_left _ (List.mem_map.mpr ⟨x, hx, rfl⟩)) n List.mem_cons_self
  · intro x hx
    exact hne _ (List.mem_append_right _ (List.mem_map.mpr ⟨x, hx, rfl⟩)) n List.mem_cons_self

/-- No other message in the queues is about the order of the status at the head. -/
theorem Inv.status_single (h : Inv s) {rest : List (Tag × InternalOrderStatus K)}
    (hst : s.statuses = (tag, st) :: rest) :
    (∀ x ∈ s.events, x.1.order ≠ tag.order) ∧ ∀ x ∈ rest, x.1.order ≠ tag.order := by
  have hsingle := h.single
  rw [inFlight, hst, List.map_cons, List.cons_append, List.nodup_middle, List.nodup_cons,
    List.mem_append, List.mem_append, not_or, not_or] at hsingle
  obtain ⟨⟨hevents, hrest, _⟩, _⟩ := hsingle
  exact ⟨fun x hx heq => hevents (List.mem_map.mpr ⟨x, hx, heq⟩),
    fun x hx heq => hrest (List.mem_map.mpr ⟨x, hx, heq⟩)⟩

/-- The gateway thread stores into the record of the order it is busy with. -/
theorem Inv.store (h : Inv s) (hg : s.gateway.orders = [n]) (ho : s.Owns n id)
    {r : OrderRecord K} {g : GatewayPc K} (hg' : g.orders.Sublist [n]) :
    let s' : Server M := { s.setRecord id.index r with gateway := g }
    s'.SlotOk id → s'.GatewayOk g → Inv s' := by
  intro s' hslot hgok
  obtain ⟨hev, hst⟩ := h.gateway_single hg
  have ht : Touches s s' n id :=
    ⟨rfl, rfl, fun _ hid => hid, fun _ _ hid => hid, fun i hi => Function.update_of_ne hi _ _,
      fun _ _ => rfl, .inr fun m hm => List.mem_singleton.mp (hg ▸ hm),
      [], (List.append_nil _).symm, fun x hx => absurd hx List.not_mem_nil⟩
  refine h.touch ht ho h.pool h.releases (fun _ => hslot) (fun _ => ho.held) ?_
    (fun x hx => ⟨hx, hev x hx⟩) (fun x hx => .inl ⟨hx, hst x hx⟩) hgok fun x hx => .inl hx
  refine h.single.sublist ?_
  rw [inFlight, inFlight, hg]
  exact ((hg'.append_left _).append_left _)

/-- The answer is read from the record of the order it is about. -/
theorem Inv.answer_routed (h : Inv s) (hok : s.StatusOk tag st) :
    s.Routed ⟨some tag, true, s.answer st⟩ := by
  obtain ⟨so, hso, hrec⟩ := (h.slots _ hok.owns.held).owned
  rw [hok.owns.owner] at hso
  refine ⟨tag, so, st.id, rfl, hso, hrec.clientId, hrec.externalOId, ?_⟩
  show (s.recordMap st.id.index).systemOId.raw = st.id.raw
  rw [hrec.systemOId]

theorem Inv.emit (h : Inv s) {rest : List (Tag × InternalOrderStatus K)}
    (hg : s.gateway = .idle) (hst : s.statuses = (tag, st) :: rest) :
    Inv { s with
      statuses := rest
      gateway := .emitted tag st
      sent := s.sent ++ [⟨some tag, true, s.answer st⟩] } := by
  set s' : Server M := { s with
    statuses := rest
    gateway := .emitted tag st
    sent := s.sent ++ [⟨some tag, true, s.answer st⟩] }
  have hok : s.StatusOk tag st := h.statuses (tag, st) (hst ▸ List.mem_cons_self)
  obtain ⟨hevents, hrest⟩ := h.status_single hst
  have ht : Touches s s' tag.order st.id :=
    ⟨rfl, rfl, fun _ hid => hid, fun _ _ hid => hid, fun _ _ => rfl, fun _ _ => rfl,
      .inr (by simp [hg, GatewayPc.orders]), _, rfl,
      fun x hx => ⟨tag.cancel, by rw [List.mem_singleton.mp hx]⟩⟩
  have hv : ∀ n id, SameView s s' n id := fun n id =>
    ⟨fun _ hn => hn, fun hid => hid, rfl, rfl, rfl⟩
  refine h.touch ht hok.owns h.pool h.releases ?_ (fun _ => hok.owns.held) ?_ ?_ ?_
    (hok.frame (hv _ _)) ?_
  · intro _
    obtain ⟨howned, hacc, hclosed, htold⟩ := h.slots _ hok.owns.held
    refine ⟨howned, hacc, fun hstate => ?_, fun hnow => ?_⟩
    · obtain ⟨tag', st', hg', _⟩ := hclosed hstate
      cases hg.symm.trans hg'
    · -- told now, or told before and accepted since: `s` is outside the window
      obtain ⟨x, hx, hby, habout, hrests⟩ := hnow
      rcases List.mem_append.mp hx with hx | hx
      · rcases htold ⟨x, hx, hby, habout, hrests⟩ with hne | ⟨_, _, hg' | hg'⟩
        · exact .inl hne
        · cases hg.symm.trans hg'
        · cases hg.symm.trans hg'
      · rw [List.mem_singleton] at hx
        rw [hx] at habout hrests
        rw [Option.some_inj] at habout
        exact .inr ⟨st, hrests, .inl (by rw [← habout])⟩
  · -- the tag moves from the head of the queue to the hands of the gateway thread
    have hsingle := h.single
    rw [inFlight, hg, hst, List.map_cons, GatewayPc.orders, List.append_nil] at hsingle
    show (s.events.map (·.1.order) ++ (rest.map (·.1.order) ++ [tag.order])).Nodup
    exact (List.Perm.nodup_iff (List.perm_append_comm.append_left _)).mpr hsingle
  · exact fun x hx => ⟨hx, hevents x hx⟩
  · exact fun x hx => .inl ⟨hst ▸ List.mem_cons_of_mem _ hx, hrest x hx⟩
  · intro x hx
    rcases List.mem_append.mp hx with hx | hx
    · exact .inl hx
    · rw [List.mem_singleton] at hx
      rw [hx]
      exact .inr (h.answer_routed hok)

theorem Inv.linkBook (h : Inv s) (hg : s.gateway = .emitted tag st)
    (hc : st.state.closes = false) :
    Inv { s.setRecord st.id.index { s.recordMap st.id.index with bookOId := st.bookOId } with
      gateway := .linked tag st } := by
  have hok := h.emitted hg
  -- the answer to a cancel closes the record, so this is the answer to a new order
  have hnew : tag.cancel = false := by
    by_contra hcancel
    rcases hok.cancel (Bool.eq_true_of_not_eq_false hcancel) with h | h
    · rw [h] at hc
      exact Bool.noConfusion hc
    · rw [h] at hc
      exact Bool.noConfusion hc
  have hstate := hok.state
  rw [hnew] at hstate
  obtain ⟨hrests, hassigned⟩ : st.state.rests = true ∧ s.assigned tag.order = some st.bookOId := by
    rcases hok.new hnew with h | h
    · rw [h] at hc
      exact Bool.noConfusion hc
    · exact h
  set r : OrderRecord K := { s.recordMap st.id.index with bookOId := st.bookOId }
  set s' : Server M := { s.setRecord st.id.index r with gateway := .linked tag st }
  have hrec : s'.recordMap st.id.index = r := Function.update_self _ _ _
  have hstate' : s'.stateOf st.id = .New := by
    rw [stateOf, hrec]
    exact hstate
  refine h.store (by rw [hg, GatewayPc.orders]) hok.owns (List.Sublist.refl _) ?_ ?_
  · obtain ⟨⟨so, hso, hr⟩, -, -, -⟩ := h.slots _ hok.owns.held
    refine ⟨⟨so, hso, ?_⟩, fun hs => ?_, fun hs => ?_, fun _ => .inr ?_⟩
    · rw [hrec]
      exact ⟨hr.externalOId, hr.systemOId, hr.clientId⟩
    · exact RecordState.noConfusion (hstate'.symm.trans hs)
    · exact RecordState.noConfusion (hstate'.symm.trans hs)
    · refine ⟨st, hrests, .inr ?_⟩
      rw [show s'.owner st.id.index = tag.order from hok.owns.owner, ← hnew]
  · exact ⟨⟨hok.owns.submitted, hok.owns.held, hok.owns.owner⟩, hstate', hnew, hrests,
      congrArg OrderRecord.bookOId hrec, hassigned⟩

theorem Inv.accept (h : Inv s) (hg : s.gateway = .linked tag st) :
    Inv { s.setRecord st.id.index { s.recordMap st.id.index with state := .Accepted } with
      gateway := .idle } := by
  have hok := h.linked hg
  set r : OrderRecord K := { s.recordMap st.id.index with state := .Accepted }
  set s' : Server M := { s.setRecord st.id.index r with gateway := .idle }
  have hrec : s'.recordMap st.id.index = r := Function.update_self _ _ _
  have hstate' : s'.stateOf st.id = .Accepted := by rw [stateOf, hrec]
  refine h.store (by rw [hg, GatewayPc.orders]) hok.owns (List.nil_sublist _) ?_ trivial
  obtain ⟨⟨so, hso, hr⟩, -, -, -⟩ := h.slots _ hok.owns.held
  refine ⟨⟨so, hso, ?_⟩, fun _ => ?_, fun hs => ?_, fun _ => .inl ?_⟩
  · rw [hrec]
    exact ⟨hr.externalOId, hr.systemOId, hr.clientId⟩
  · rw [hrec, show s'.owner st.id.index = tag.order from hok.owns.owner]
    show s.assigned tag.order = some (s.recordMap st.id.index).bookOId
    rw [hok.assigned, hok.book]
  · exact RecordState.noConfusion (hstate'.symm.trans hs)
  · rw [hstate']
    exact fun hs => RecordState.noConfusion hs

theorem Inv.close (h : Inv s) (hg : s.gateway = .emitted tag st) :
    Inv { s.setRecord st.id.index { s.recordMap st.id.index with state := .Closed } with
      gateway := .closed tag st } := by
  have hok := h.emitted hg
  set r : OrderRecord K := { s.recordMap st.id.index with state := .Closed }
  set s' : Server M := { s.setRecord st.id.index r with gateway := .closed tag st }
  have hrec : s'.recordMap st.id.index = r := Function.update_self _ _ _
  have hstate' : s'.stateOf st.id = .Closed := by rw [stateOf, hrec]
  refine h.store (by rw [hg, GatewayPc.orders]) hok.owns (List.Sublist.refl _) ?_ ?_
  · obtain ⟨⟨so, hso, hr⟩, -, -, -⟩ := h.slots _ hok.owns.held
    refine ⟨⟨so, hso, ?_⟩, fun hs => ?_, fun _ => ?_, fun _ => .inl ?_⟩
    · rw [hrec]
      exact ⟨hr.externalOId, hr.systemOId, hr.clientId⟩
    · exact RecordState.noConfusion (hstate'.symm.trans hs)
    · exact ⟨tag, st, rfl, hok.owns.owner.symm⟩
    · rw [hstate']
      exact fun hs => RecordState.noConfusion hs
  · exact ⟨⟨hok.owns.submitted, hok.owns.held, hok.owns.owner⟩, hstate'⟩

theorem Inv.release (h : Inv s) (hg : s.gateway = .closed tag st) :
    Inv { s with
      idPool := s.idPool.release (s.recordMap st.id.index).systemOId
      ops := s.ops ++ [.released (s.recordMap st.id.index).systemOId]
      gateway := .idle } := by
  have hok := h.closed hg
  -- the id in the record is that of the status: nobody has taken the slot meanwhile
  rw [h.systemOId_eq hok.owns.held]
  set s' : Server M := { s with
    idPool := s.idPool.release st.id
    ops := s.ops ++ [.released st.id]
    gateway := .idle }
  have hheld : s'.held = s.held.erase st.id := outstanding_released _ _
  have horders : s.gateway.orders = [tag.order] := by rw [hg, GatewayPc.orders]
  obtain ⟨hev, hst⟩ := h.gateway_single horders
  have ht : Touches s s' tag.order st.id :=
    ⟨rfl, rfl, fun id hid => List.mem_of_mem_erase (hheld ▸ hid),
      fun id hne hid => hheld ▸ (List.mem_erase_of_ne hne).mpr hid, fun _ _ => rfl,
      fun _ _ => rfl, .inr fun m hm => List.mem_singleton.mp (horders ▸ hm),
      [], (List.append_nil _).symm, fun x hx => absurd hx List.not_mem_nil⟩
  have hgone : st.id ∉ s'.held := by
    rw [hheld]
    exact (List.Nodup.of_map _ h.pool.nodup).not_mem_erase
  refine h.touch ht hok.owns (hheld ▸ h.pool.release hok.owns.held)
    (h.releases.released hok.owns.held) (fun hid => absurd hid hgone) ?_ ?_
    (fun x hx => ⟨hx, hev x hx⟩) (fun x hx => .inl ⟨hx, hst x hx⟩) trivial fun x hx => .inl hx
  · -- a record that is Accepted has an open order; this one is Closed
    intro hacc
    exact RecordState.noConfusion (hok.state.symm.trans hacc)
  · refine h.single.sublist ?_
    exact ((List.nil_sublist _).append_left _).append_left _

/-! ### Every step -/

/-- Every step keeps the invariant, if no cancel overtakes another. -/
theorem Inv.step (hM : M.Lawful) (h : Inv s) {a : ServerAction K} (hsafe : s.NoSecondCancel a)
    (hs : s.Step a s') : Inv s' := by
  have hmove : s.gatewayStep a = some s' → Inv s' := by
    intro hs
    cases gatewayStep_move hs with
    | emit hg hst => exact h.emit hg hst
    | linkBook hg hc => exact h.linkBook hg hc
    | accept hg => exact h.accept hg
    | close hg hc => exact h.close hg
    | release hg => exact h.release hg
  cases a with
  | client so about =>
    rw [show s' = s.clientStep so about from hs]
    exact h.clientStep hsafe
  | work msgs =>
    obtain ⟨tag, e, rest, σ, hev, hpost, rfl⟩ := hs
    exact h.worked hM hev hpost
  | _ => exact hmove hs

end Server

/-- The runs of the server in which no cancel is let through while another one
of the same order is on its way. -/
def singleCancelRuns (M : Matching K) : Machine (Server M) (ServerAction K) :=
  (serverMachine M).restrict Server.NoSecondCancel

theorem singleCancelRuns_inv (hM : M.Lawful) {as : List (ServerAction K)} {s : Server M}
    (h : (singleCancelRuns M).Run as s) : s.Inv := by
  refine h.invariant ?_ fun s a s' hinv hs => hinv.step hM hs.1 hs.2
  intro s hs
  rw [show s = .start M from hs]
  exact .start M
