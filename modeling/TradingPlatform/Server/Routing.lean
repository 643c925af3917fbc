/-
Status routing and record linkage, for clients that cancel an order at most
once, and only after they have been told that it rests.

Of the book only its contract is assumed (`Matching.Lawful`).  Under this
discipline a second cancel of an order is never under way (`noSecondCancel`):
a cancel on its way is one the client has already sent, and an order the client
has been told rests is not closed unless it was cancelled (`CancelInv`).  So
the invariant holds along every run, and with it

* every answer of the gateway thread goes to the client that submitted the
  order, with the order's own identifiers;
* every cancel that is forwarded carries the handle the book gave to the order;
* every id is released at most once for each time it is acquired.
-/
import TradingPlatform.Server.Cancels

variable {K : Constants} {M : Matching K}

def GatewayPc.tags : GatewayPc K → List Tag
  | .idle => []
  | .emitted tag _ => [tag]
  | .linked tag _ => [tag]
  | .closed tag _ => [tag]

namespace Server

variable {s s' : Server M} {n : ℕ} {id : SystemOrderId K} {tag : Tag} {so : ServerOrder}
  {about : ℕ}

/-- What the messages on their way are about. -/
def tags (s : Server M) : List Tag :=
  s.events.map (·.1) ++ (s.statuses.map (·.1) ++ s.gateway.tags)

theorem mem_tags : tag ∈ s.tags ↔
    (∃ e, (tag, e) ∈ s.events) ∨ (∃ st, (tag, st) ∈ s.statuses) ∨ tag ∈ s.gateway.tags := by
  simp [tags]

/-! ### The discipline -/

/-- A client cancels its own order, with the id it was told, after it was told
that the order rests, and once. -/
def Disciplined (s : Server M) : ServerAction K → Prop
  | .client so about => so.order.action = .Cancel → ∃ sub ∈ s.orders[about]?,
      sub.request.clientId = so.clientId ∧ sub.systemOId = some ⟨so.order.id⟩ ∧
      s.ToldResting about ∧ about ∉ s.cancelled
  | _ => True

instance (s : Server M) : (a : ServerAction K) → Decidable (s.Disciplined a)
  | .client _ _ => inferInstanceAs (Decidable (_ → _))
  | .work _ | .emit | .linkBook | .accept | .close | .release => .isTrue trivial

/-- What the discipline brings about. -/
structure CancelInv (s : Server M) : Prop where
  tags : ∀ tag ∈ s.tags, tag.cancel = true → tag.order ∈ s.cancelled
  closed : ∀ tag st, s.gateway = .closed tag st → tag.cancel = false →
    ¬s.ToldResting tag.order
  told : ∀ n, s.ToldResting n → n ∉ s.cancelled → ∃ id, s.Owns n id

/-- A cancel on its way is tagged as one. -/
theorem Inv.tag_of_cancelInFlight (h : Inv s) (hc : s.CancelInFlight id) :
    ∃ tag ∈ s.tags, tag.cancel = true ∧ s.Owns tag.order id := by
  have hstatus : ∀ tag st, s.StatusOk tag st → AnswersCancel id st →
      tag.cancel = true ∧ s.Owns tag.order id := by
    rintro tag st hok ⟨hstate, rfl⟩
    refine ⟨?_, hok.owns⟩
    by_contra hnew
    rcases hok.new (Bool.eq_false_of_not_eq_true hnew) with hfull | ⟨hrests, _⟩
    · rw [hfull] at hstate
      exact absurd hstate (by decide)
    · rcases hstate with hs | hs
      · exact Bool.noConfusion (hs ▸ hrests)
      · exact Bool.noConfusion (hs ▸ hrests)
  rcases hc with ⟨⟨tag, e⟩, hx, hact, rfl⟩ | ⟨⟨tag, st⟩, hx, hans⟩ | hg
  · have hok := h.events _ hx
    exact ⟨tag, mem_tags.mpr (.inl ⟨e, hx⟩), hok.action.mp hact, hok.owns⟩
  · exact ⟨tag, mem_tags.mpr (.inr (.inl ⟨st, hx⟩)), hstatus tag st (h.statuses _ hx) hans⟩
  · split at hg
    · next tag st hgw =>
      exact ⟨tag, mem_tags.mpr (.inr (.inr (by simp [hgw, GatewayPc.tags]))),
        hstatus tag st (h.emitted hgw) hg⟩
    · exact hg.elim

/-- A disciplined cancel names an open order. -/
theorem CancelInv.owns (h : CancelInv s) (hdis : s.Disciplined (.client so about))
    (hact : so.order.action = .Cancel) : s.Owns about ⟨so.order.id⟩ ∧ about ∉ s.cancelled := by
  obtain ⟨⟨sub, _⟩, hsub, _, rfl, htold, hnot⟩ := hdis hact
  obtain ⟨id, ho⟩ := h.told about htold hnot
  obtain ⟨so', hso'⟩ := ho.submitted
  rw [Option.mem_def, hso', Option.some_inj, Submission.mk.injEq, Option.some_inj] at hsub
  exact ⟨hsub.2 ▸ ho, hnot⟩

/-- Under the discipline no cancel overtakes another. -/
theorem CancelInv.noSecondCancel (hd : CancelInv s) (h : Inv s) {a : ServerAction K}
    (hdis : s.Disciplined a) : s.NoSecondCancel a := by
  cases a with
  | client so about =>
    intro hact ioe hc _ hflight
    obtain ⟨ho, hnot⟩ := hd.owns hdis hact
    obtain ⟨tag, htag, hcancel, ho'⟩ := h.tag_of_cancelInFlight hflight
    obtain ⟨_, _, _, rfl⟩ := cancelOrder_eq_some.mp hc
    have heq : tag.order = about := ho'.owner.symm.trans ho.owner
    exact hnot (heq ▸ hd.tags tag htag hcancel)
  | _ => trivial

/-! ### The network thread -/

/-- The network thread leaves the gateway's side alone. -/
theorem postOrder_frame (s : Server M) (so : ServerOrder) :
    (s.postOrder so).gateway = s.gateway ∧ (s.postOrder so).statuses = s.statuses ∧
      (s.postOrder so).cancelled = s.cancelled := by
  have hmove := postOrder_move s so
  generalize s.postOrder so = s' at hmove ⊢
  cases hmove with
  | ignore | refuse | reject | exhausted => exact ⟨rfl, rfl, rfl⟩
  | create | cancel =>
    rw [postEvent_eq]
    exact ⟨rfl, rfl, rfl⟩

/-- What the network thread sends is not sent by the gateway thread. -/
theorem toldResting_of_postOrder (h : (s.postOrder so).ToldResting n) : s.ToldResting n := by
  have hmove := postOrder_move s so
  generalize s.postOrder so = s' at hmove h
  obtain ⟨x, hx, hby, habout⟩ := h
  have hnet : ∀ about status, x ≠ ⟨about, false, status⟩ := by
    rintro about status rfl
    exact nomatch hby
  suffices hold : x ∈ s.sent from ⟨x, hold, hby, habout⟩
  cases hmove with
  | ignore => exact hx
  | refuse | reject | exhausted =>
    rcases List.mem_append.mp hx with hx | hx
    · exact hx
    · exact absurd (List.mem_singleton.mp hx) (hnet _ _)
  | create | cancel =>
    rw [postEvent_sent] at hx
    exact hx

theorem Inv.owns_postOrder (h : Inv s) (so : ServerOrder) (ho : s.Owns n id) :
    (s.postOrder so).Owns n id := by
  have hmove := postOrder_move s so
  generalize s.postOrder so = s' at hmove ⊢
  obtain ⟨⟨so', hso'⟩, hid, howner⟩ := ho
  cases hmove with
  | ignore => exact ⟨⟨so', hso'⟩, hid, howner⟩
  | refuse => exact ⟨⟨so', hso'⟩, hid, howner⟩
  | reject | exhausted => exact ⟨⟨so', orders_append hso'⟩, hid, howner⟩
  | create _ _ hv =>
    have hlt := (List.getElem?_eq_some_iff.mp hso').1
    exact postEvent_owns.mpr ((h.createRecord_owns so hv (by omega)).mpr ⟨⟨so', hso'⟩, hid, howner⟩)
  | cancel => exact postEvent_owns.mpr ⟨⟨so', hso'⟩, hid, howner⟩

/-- The only cancel that comes under way is the one that came in. -/
theorem tags_postOrder (htag : tag ∈ (s.postOrder so).tags) (hcancel : tag.cancel = true) :
    tag ∈ s.tags ∨ so.order.action = .Cancel ∧ ∃ ioe, s.cancelOrder so = some ioe ∧
      tag.order = s.owner ioe.order.id.index := by
  obtain ⟨hg, hst, _⟩ := postOrder_frame s so
  rw [mem_tags, hg, hst] at htag
  rw [mem_tags]
  rcases htag with ⟨e, htag⟩ | htag
  · have hmove := postOrder_move s so
    generalize s.postOrder so = s' at hmove htag
    cases hmove with
    | ignore | refuse | reject | exhausted => exact .inl (.inl ⟨e, htag⟩)
    | create =>
      rcases mem_postEvent htag with htag | heq
      · exact .inl (.inl ⟨e, htag⟩)
      · rw [(Prod.mk.inj heq).1] at hcancel
        exact nomatch hcancel
    | cancel hact hc =>
      rcases mem_postEvent htag with htag | heq
      · exact .inl (.inl ⟨e, htag⟩)
      · exact .inr ⟨hact, _, hc, by rw [(Prod.mk.inj heq).1]⟩
  · exact .inl (.inr htag)

/-- An order comes in and the orders `noted` are noted as cancelled. -/
theorem CancelInv.postOrder (hd : CancelInv s) (h : Inv s) (so : ServerOrder) {noted : List ℕ}
    (hnoted : so.order.action = .Cancel → ∀ ioe, s.cancelOrder so = some ioe →
      s.owner ioe.order.id.index ∈ noted) :
    CancelInv { s.postOrder so with cancelled := s.cancelled ++ noted } := by
  obtain ⟨hg, _, _⟩ := postOrder_frame s so
  refine ⟨fun tag htag hcancel => ?_, fun tag st hgw hnew htold => ?_, fun n htold hn => ?_⟩
  · rcases tags_postOrder htag hcancel with htag | ⟨hact, ioe, hc, heq⟩
    · exact List.mem_append_left _ (hd.tags tag htag hcancel)
    · exact List.mem_append_right _ (heq ▸ hnoted hact ioe hc)
  · exact hd.closed tag st (hg ▸ hgw) hnew (toldResting_of_postOrder htold)
  · obtain ⟨id, ho⟩ := hd.told n (toldResting_of_postOrder htold)
      fun hmem => hn (List.mem_append_left _ hmem)
    exact ⟨id, (h.owns_postOrder so ho).congr rfl rfl rfl⟩

theorem CancelInv.clientStep (hd : CancelInv s) (h : Inv s)
    (hdis : s.Disciplined (.client so about)) : CancelInv (s.clientStep so about) := by
  rw [Server.clientStep]
  split
  · next hact =>
    refine hd.postOrder h so fun _ ioe hc => ?_
    obtain ⟨_, _, _, rfl⟩ := cancelOrder_eq_some.mp hc
    exact List.mem_singleton.mpr (hd.owns hdis hact).1.owner
  · next hact =>
    have hnone : CancelInv { s.postOrder so with cancelled := s.cancelled ++ [] } :=
      hd.postOrder h so fun hc => absurd hc hact
    rw [List.append_nil, ← (postOrder_frame s so).2.2] at hnone
    exact hnone

/-! ### The worker and the gateway thread -/

theorem CancelInv.worked (hd : CancelInv s) {e : InternalOrderEvent K}
    {rest : List (Tag × InternalOrderEvent K)} {msgs : List (BookMessage K)} {σ : M.State}
    (hev : s.events = (tag, e) :: rest) : CancelInv (s.worked tag rest msgs σ) := by
  refine ⟨fun tag' htag hcancel => ?_, hd.closed, fun n htold hn => ?_⟩
  · refine hd.tags tag' (mem_tags.mpr ?_) hcancel
    rw [hev]
    rcases mem_tags.mp htag with ⟨e', hx⟩ | ⟨st, hx⟩ | hx
    · exact .inl ⟨e', List.mem_cons_of_mem _ hx⟩
    · rcases List.mem_append.mp hx with hx | hx
      · exact .inr (.inl ⟨st, hx⟩)
      · obtain ⟨_, _, heq⟩ := List.mem_map.mp (List.mem_of_mem_take hx)
        rw [← (Prod.mk.inj heq).1]
        exact .inl ⟨e, List.mem_cons_self⟩
    · exact .inr (.inr hx)
  · obtain ⟨id, ho⟩ := hd.told n htold hn
    exact ⟨id, ho.congr rfl rfl rfl⟩

/-- An order that is closed without a cancel is one that was filled at once. -/
theorem Inv.not_told_of_closes (h : Inv s) {st : InternalOrderStatus K}
    (hg : s.gateway = .emitted tag st) (hc : st.state.closes = true)
    (hnew : tag.cancel = false) : ¬s.ToldResting tag.order := by
  intro htold
  have hok := h.emitted hg
  have hslot := (h.slots _ hok.owns.held).told
  rw [hok.owns.owner, hok.state, if_neg (by simp [hnew])] at hslot
  obtain ⟨st', hrests, hw | hw⟩ := (hslot htold).resolve_left fun hne => hne rfl
  · rw [hg, GatewayPc.emitted.injEq] at hw
    rw [← hw.2] at hrests
    cases hs : st.state with
    | Accepted | Partial => exact nomatch hs ▸ hc
    | Cancelled | Rejected | Full => exact nomatch hs ▸ hrests
  · exact nomatch hg.symm.trans hw

/-- The gateway thread goes on with the order it is busy with. -/
theorem CancelInv.store (hd : CancelInv s) {i : ℕ} {r : OrderRecord K} {g : GatewayPc K}
    (hg : ∀ tag ∈ g.tags, tag ∈ s.gateway.tags)
    (hclosed : ∀ tag st, g = .closed tag st → tag.cancel = false → ¬s.ToldResting tag.order) :
    CancelInv { s.setRecord i r with gateway := g } := by
  refine ⟨fun tag htag hcancel => ?_, hclosed, fun n htold hn => ?_⟩
  · refine hd.tags tag (mem_tags.mpr ?_) hcancel
    exact (mem_tags.mp htag).imp_right fun hx => hx.imp_right (hg tag)
  · obtain ⟨id, ho⟩ := hd.told n htold hn
    exact ⟨id, ho.congr rfl rfl rfl⟩

theorem CancelInv.gatewayMove (hd : CancelInv s) (h : Inv s) {a : ServerAction K}
    (hmove : s.GatewayMove a s') : CancelInv s' := by
  cases hmove with
  | emit hg hst =>
    refine ⟨fun tag' htag hcancel => ?_, nofun, fun n htold hn => ?_⟩
    · refine hd.tags tag' (mem_tags.mpr ?_) hcancel
      rw [hst]
      rcases mem_tags.mp htag with hx | ⟨st', hx⟩ | hx
      · exact .inl hx
      · exact .inr (.inl ⟨st', List.mem_cons_of_mem _ hx⟩)
      · rw [GatewayPc.tags, List.mem_singleton] at hx
        rw [hx]
        exact .inr (.inl ⟨_, List.mem_cons_self⟩)
    · obtain ⟨x, hx, hby, habout, hrests⟩ := htold
      rcases List.mem_append.mp hx with hx | hx
      · obtain ⟨id, ho⟩ := hd.told n ⟨x, hx, hby, habout, hrests⟩ hn
        exact ⟨id, ho.congr rfl rfl rfl⟩
      · rw [List.mem_singleton] at hx
        rw [hx, Option.some_inj] at habout
        have hok := h.statuses _ (hst ▸ List.mem_cons_self)
        obtain ⟨h1, h2, h3⟩ := hok.owns
        rw [habout] at h1 h3
        exact ⟨_, h1, h2, h3⟩
  | linkBook hg hc => exact hd.store (fun _ htag => hg ▸ htag) nofun
  | accept hg => exact hd.store (fun _ htag => absurd htag List.not_mem_nil) nofun
  | close hg hc =>
    refine hd.store (fun _ htag => hg ▸ htag) fun tag' st' heq hnew => ?_
    rw [GatewayPc.closed.injEq] at heq
    rw [← heq.1] at hnew ⊢
    exact h.not_told_of_closes hg hc hnew
  | @release tag st hg =>
    have hok := h.closed hg
    rw [h.systemOId_eq hok.owns.held]
    refine ⟨fun tag' htag hcancel => ?_, nofun, fun n htold hn => ?_⟩
    · refine hd.tags tag' (mem_tags.mpr ?_) hcancel
      exact (mem_tags.mp htag).imp_right fun hx => hx.imp_right fun hx => absurd hx List.not_mem_nil
    · obtain ⟨id, ho⟩ := hd.told n htold hn
      refine ⟨id, ho.submitted, ?_, ho.owner⟩
      show id ∈ outstanding _
      rw [outstanding_released]
      refine (List.mem_erase_of_ne ?_).mpr ho.held
      -- the order just closed was not told that it rests, or was cancelled
      rintro rfl
      have heq : tag.order = n := hok.owns.owner.symm.trans ho.owner
      cases hcancel : tag.cancel with
      | false => exact hd.closed tag st hg hcancel (heq ▸ htold)
      | true =>
        refine hn (heq ▸ hd.tags tag (mem_tags.mpr (.inr (.inr ?_))) hcancel)
        rw [hg, GatewayPc.tags]
        exact List.mem_singleton_self _

theorem CancelInv.step (hd : CancelInv s) (h : Inv s) {a : ServerAction K}
    (hdis : s.Disciplined a) (hs : s.Step a s') : CancelInv s' := by
  cases a with
  | client so about =>
    rw [show s' = s.clientStep so about from hs]
    exact hd.clientStep h hdis
  | work msgs =>
    obtain ⟨tag, e, rest, σ, hev, _, rfl⟩ := hs
    exact hd.worked hev
  | _ => exact hd.gatewayMove h (gatewayStep_move hs)

end Server

/-! ### Disciplined runs -/

/-- The runs in which every client keeps to the discipline. -/
def disciplinedRuns (M : Matching K) : Machine (Server M) (ServerAction K) :=
  (serverMachine M).restrict Server.Disciplined

theorem disciplinedRuns_inv (hM : M.Lawful) {as : List (ServerAction K)} {s : Server M}
    (h : (disciplinedRuns M).Run as s) : s.Inv ∧ s.CancelInv := by
  refine h.invariant (I := fun s => s.Inv ∧ s.CancelInv) ?_ ?_
  · intro s hs
    rw [show s = .start M from hs]
    refine ⟨.start M, fun tag htag => absurd htag List.not_mem_nil, nofun, ?_⟩
    rintro n ⟨x, hx, _⟩
    exact absurd hx List.not_mem_nil
  · rintro s a s' ⟨hinv, hd⟩ ⟨hdis, hs⟩
    exact ⟨hinv.step hM (hd.noSecondCancel hinv hdis) hs, hd.step hinv hdis hs⟩

namespace Server

/-- The cancel `e` in the worker's queue is about the open order with its id,
and carries the handle the book gave to this order. -/
structure Linked (s : Server M) (tag : Tag) (e : InternalOrderEvent K) : Prop where
  owns : s.Owns tag.order e.order.id
  assigned : s.assigned tag.order = some e.order.bookOId

theorem Inv.cancel_linked (h : Inv s) {x : Tag × InternalOrderEvent K} (hx : x ∈ s.events)
    (hact : x.2.action = .Cancel) : s.Linked x.1 x.2 := by
  have hok := h.events x hx
  have hcancel := hok.action.mp hact
  have hstate := hok.state
  rw [if_pos hcancel] at hstate
  refine ⟨hok.owns, ?_⟩
  rw [← hok.book hcancel, ← (h.slots _ hok.owns.held).accepted hstate, hok.owns.owner]

/-- **Routing.**  In every run of disciplined clients, every answer of the
gateway thread goes to the client that submitted the order and carries its
identifiers, every cancel handed to the book carries the handle the book gave
to its order, and every id is released at most once for each time it is
acquired. -/
theorem disciplined_routing (hM : M.Lawful) {as : List (ServerAction K)}
    (h : (disciplinedRuns M).Run as s) :
    (∀ x ∈ s.sent, x.byGateway = true → s.Routed x) ∧
      (∀ x ∈ s.events, x.2.action = .Cancel → s.Linked x.1 x.2) ∧ SingleRelease s.ops := by
  obtain ⟨hinv, _⟩ := disciplinedRuns_inv hM h
  exact ⟨hinv.routed, fun x hx hact => hinv.cancel_linked hx hact, hinv.releases⟩

theorem disciplined_routing_restOne :
    ∃ s, (disciplinedRuns (bookMatching .cicd onlyAAPL)).Run
        (restOne ++ [.client cancelOne 0]) s ∧
      (∀ x ∈ s.sent, x.byGateway = true → s.Routed x) ∧
      (∀ x ∈ s.events, x.2.action = .Cancel → s.Linked x.1 x.2) ∧ SingleRelease s.ops := by
  obtain ⟨s, hrun, _⟩ := exists_run Disciplined (restOne ++ [.client cancelOne 0])
    (fun s : Server (bookMatching .cicd onlyAAPL) => s.events ≠ [] ∧ s.sent ≠ [])
    (by decide +kernel)
  exact ⟨s, hrun, disciplined_routing bookMatching_lawful hrun⟩

end Server
