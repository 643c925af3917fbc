/-
What a client is told about each of its orders.

The client's trade engine relies on a server that answers a new order at most
once, with a state a new order can have, and a cancel at most once, after the
order's own answer, with a state a cancel can have, and that names the order by
the client's id for it (`Client/TradeEngine.lean`).  Here the server is shown to
be such a server, for every book that keeps to its contract and every order of
the steps of its threads, as long as clients cancel an order once and after they
were told that it rests, which is what the trade engine does.

* `dialogue` — everything sent that is about one order, in the order in which it
  was sent;
* `Dialogue` — what it may be: nothing, the answer to the order, or that answer
  and the one to its cancel;
* `DialogueInv` — what the queues may still hold, given what was said;
* `dialogue_of_run` — along every run of disciplined clients, every order's dialogue
  is one of these.
-/
import TradingPlatform.Server.Answers
import TradingPlatform.Client.TradeEngine

variable {K : Constants} {M : Matching K}

/-- `x` answers order `n`, which is `so`. -/
structure Sent.RepliesToOrder (x : Sent) (n : ℕ) (so : ServerOrder) : Prop where
  about : x.about = some ⟨n, false⟩
  clientId : x.status.clientId = so.clientId
  answers : TradeEngine.AnswersNew so.order x.status.orderStatus

/-- `y` answers the cancel of order `n`, which is `so`. -/
structure Sent.RepliesToCancel (y : Sent) (n : ℕ) (so : ServerOrder) : Prop where
  about : y.about = some ⟨n, true⟩
  clientId : y.status.clientId = so.clientId
  answers : TradeEngine.AnswersCancel so.order.id y.status.orderStatus

/-- What may be said about order `n`, which is `so`. -/
inductive Dialogue (n : ℕ) (so : ServerOrder) : List Sent → Prop
  | silent : Dialogue n so []
  | answered {x : Sent} : x.RepliesToOrder n so → Dialogue n so [x]
  | cancelled {x y : Sent} : x.RepliesToOrder n so →
      x.status.orderStatus.state.rests = true → y.RepliesToCancel n so →
      y.status.orderStatus.systemOrderId = x.status.orderStatus.systemOrderId →
      Dialogue n so [x, y]

namespace Server

variable {s s' : Server M} {n : ℕ} {tag : Tag} {so : ServerOrder} {about : ℕ}

/-- What was sent about order `n`. -/
def dialogue (s : Server M) (n : ℕ) : List Sent :=
  s.sent.filter fun x => x.about.map (·.order) = some n

/-- Something is said about one order. -/
theorem dialogue_sent {y : Sent} (hsent : s'.sent = s.sent ++ [y])
    (hy : y.about.map (·.order) = some n) : s'.dialogue n = s.dialogue n ++ [y] := by
  rw [dialogue, dialogue, hsent, List.filter_append, List.filter_singleton]
  simp [hy]

/-- Nothing is said about the others. -/
theorem dialogue_sent_of_ne {y : Sent} (hsent : s'.sent = s.sent ++ [y])
    (hy : y.about.map (·.order) ≠ some n) : s'.dialogue n = s.dialogue n := by
  rw [dialogue, dialogue, hsent, List.filter_append, List.filter_singleton]
  simp [hy]

theorem dialogue_congr (hsent : s'.sent = s.sent) : s'.dialogue n = s.dialogue n := by
  rw [dialogue, dialogue, hsent]

/-- What was said, and what the queues may still hold. -/
structure DialogueInv (s : Server M) : Prop where
  talk : ∀ n sub, s.orders[n]? = some sub → Dialogue n sub.request (s.dialogue n)
  next : ∀ n, s.orders.length ≤ n → s.dialogue n = []
  waiting : ∀ tag ∈ s.queued, tag.cancel = false → s.dialogue tag.order = []
  asked : ∀ tag ∈ s.queued, tag.cancel = true → ∃ x, s.dialogue tag.order = [x] ∧
    x.byGateway = true ∧ x.status.orderStatus.state.rests = true
  noted : ∀ n, ∀ y ∈ s.dialogue n, y.about = some ⟨n, true⟩ → n ∈ s.cancelled

theorem DialogueInv.start (M : Matching K) : DialogueInv (start M) where
  talk _ _ hn := absurd hn (by simp [Server.start])
  next _ _ := rfl
  waiting _ htag := absurd htag List.not_mem_nil
  asked _ htag := absurd htag List.not_mem_nil
  noted _ _ hy := absurd hy List.not_mem_nil

/-- A step that says nothing about any order and queues nothing. -/
theorem DialogueInv.quiet (hd : DialogueInv s) (horders : s'.orders = s.orders)
    (hsame : ∀ n, s'.dialogue n = s.dialogue n) (hqueued : ∀ tag ∈ s'.queued, tag ∈ s.queued)
    (hcancelled : s.cancelled ⊆ s'.cancelled) : DialogueInv s' := by
  refine ⟨?_, ?_, ?_, ?_, ?_⟩
  · intro n sub hn
    rw [hsame]
    exact hd.talk n sub (horders ▸ hn)
  · intro n hn
    rw [hsame]
    exact hd.next n (horders ▸ hn)
  · intro tag htag hnew
    rw [hsame]
    exact hd.waiting tag (hqueued tag htag) hnew
  · intro tag htag hcancel
    rw [hsame]
    exact hd.asked tag (hqueued tag htag) hcancel
  · intro n y hy habout
    rw [hsame] at hy
    exact hcancelled (hd.noted n y hy habout)

/-! ### The network thread -/

/-- A new order comes in, and what is said and queued is about it. -/
theorem DialogueInv.submit (hd : DialogueInv s) {sub : Submission K}
    (horders : s'.orders = s.orders ++ [sub])
    (hother : ∀ n, n ≠ s.orders.length → s'.dialogue n = s.dialogue n)
    (htalk : Dialogue s.orders.length sub.request (s'.dialogue s.orders.length))
    (hnew : ∀ y ∈ s'.dialogue s.orders.length, y.about ≠ some ⟨s.orders.length, true⟩)
    (hqueued : ∀ tag ∈ s'.queued, tag ∈ s.queued ∧ tag.order < s.orders.length ∨
      tag = ⟨s.orders.length, false⟩ ∧ s'.dialogue s.orders.length = [])
    (hcancelled : s'.cancelled = s.cancelled) : DialogueInv s' := by
  refine ⟨?_, ?_, ?_, ?_, ?_⟩
  · intro n sub' hn
    rw [horders] at hn
    rcases Ring.old_or_new hn with hold | ⟨rfl, rfl⟩
    · have hlt := (List.getElem?_eq_some_iff.mp hold).1
      rw [hother n (by omega)]
      exact hd.talk n sub' hold
    · exact htalk
  · intro n hn
    rw [horders, List.length_append, List.length_singleton] at hn
    rw [hother n (by omega)]
    exact hd.next n (by omega)
  · intro tag htag hc
    rcases hqueued tag htag with ⟨hold, hlt⟩ | ⟨rfl, hnone⟩
    · rw [hother _ (by omega)]
      exact hd.waiting tag hold hc
    · exact hnone
  · intro tag htag hc
    rcases hqueued tag htag with ⟨hold, hlt⟩ | ⟨rfl, _⟩
    · rw [hother _ (by omega)]
      exact hd.asked tag hold hc
    · exact nomatch hc
  · intro n y hy habout
    rw [hcancelled]
    by_cases hn : n = s.orders.length
    · subst hn
      exact absurd habout (hnew y hy)
    · rw [hother n hn] at hy
      exact hd.noted n y hy habout

/-- Every message in the queues is about an order that came in. -/
theorem Inv.lt_of_queued (h : Inv s) (htag : tag ∈ s.queued) : tag.order < s.orders.length := by
  rcases mem_queued.mp htag with ⟨e, hx⟩ | ⟨st, hx⟩
  · exact (h.events _ hx).owns.lt
  · exact (h.statuses _ hx).owns.lt

theorem DialogueInv.reject (hd : DialogueInv s) (h : Inv s) : DialogueInv (s.reject so) := by
  have hsaid : (s.reject so).dialogue s.orders.length =
      [⟨some ⟨s.orders.length, false⟩, false, rejection so⟩] := by
    rw [dialogue_sent (s := s) rfl rfl, hd.next _ (Nat.le_refl _), List.nil_append]
  refine hd.submit rfl ?_ ?_ ?_ ?_ rfl
  · intro n hn
    refine dialogue_sent_of_ne rfl ?_
    rw [Option.map_some, Ne, Option.some_inj]
    exact fun heq => hn heq.symm
  · rw [hsaid]
    exact .answered ⟨rfl, rfl, rfl, .inr (.inr (.inr rfl))⟩
  · intro y hy
    rw [hsaid, List.mem_singleton] at hy
    rw [hy]
    simp
  · intro tag htag
    exact .inl ⟨htag, h.lt_of_queued (s := s) htag⟩

theorem DialogueInv.create (hd : DialogueInv s) (h : Inv s) (id : SystemOrderId K)
    (pool : SlotIdPool K.maxSystemOrders) :
    DialogueInv ((s.createRecord so id pool).postEvent ⟨s.orders.length, false⟩
      (newEvent so id)) := by
  set s₁ := s.createRecord so id pool
  set e := newEvent so id
  have heq := postEvent_eq s₁ ⟨s.orders.length, false⟩ e
  have hsame : ∀ n, (s₁.postEvent ⟨s.orders.length, false⟩ e).dialogue n = s.dialogue n := by
    intro n
    exact dialogue_congr postEvent_sent
  have hnone := hd.next _ (Nat.le_refl s.orders.length)
  have horders : (s₁.postEvent ⟨s.orders.length, false⟩ e).orders =
      s.orders ++ [⟨so, some id⟩] := by
    rw [heq]
    rfl
  refine hd.submit horders (fun n _ => hsame n) ?_ ?_ ?_ (by rw [heq]; rfl)
  · rw [hsame, hnone]
    exact .silent
  · rw [hsame, hnone]
    exact fun y hy => absurd hy List.not_mem_nil
  · intro tag htag
    have hst : (s₁.postEvent ⟨s.orders.length, false⟩ e).statuses = s.statuses := by
      rw [heq]
      rfl
    rcases mem_queued.mp htag with ⟨e', hx⟩ | ⟨st, hx⟩
    · rcases mem_postEvent hx with hx | hx
      · have hold : tag ∈ s.queued := mem_queued.mpr (.inl ⟨e', hx⟩)
        exact .inl ⟨hold, h.lt_of_queued hold⟩
      · exact .inr ⟨(Prod.mk.inj hx).1, by rw [hsame, hnone]⟩
    · have hold : tag ∈ s.queued := mem_queued.mpr (.inr ⟨st, hst ▸ hx⟩)
      exact .inl ⟨hold, h.lt_of_queued hold⟩

/-- A cancel of an order that is told to rest, and was not cancelled before. -/
theorem DialogueInv.told (hd : DialogueInv s) {sub : Submission K} (hn : s.orders[n]? = some sub)
    (htold : s.ToldResting n) (hnot : n ∉ s.cancelled) : ∃ x, s.dialogue n = [x] ∧
      x.byGateway = true ∧ x.status.orderStatus.state.rests = true := by
  obtain ⟨x, hx, hby, habout, hrests⟩ := htold
  have hmem : x ∈ s.dialogue n := by
    rw [dialogue, List.mem_filter, habout]
    exact ⟨hx, by simp⟩
  have htalk := hd.talk n sub hn
  generalize hsaid : s.dialogue n = said at htalk hmem
  cases htalk with
  | silent => exact absurd hmem List.not_mem_nil
  | answered =>
    obtain rfl := List.mem_singleton.mp hmem
    exact ⟨x, rfl, hby, hrests⟩
  | @cancelled x' y _ _ hy _ =>
    exact absurd (hd.noted n y (by rw [hsaid]; simp) hy.about) hnot

theorem DialogueInv.cancel (hd : DialogueInv s) {e : InternalOrderEvent K} {noted : List ℕ}
    (hasked : ∃ x, s.dialogue n = [x] ∧ x.byGateway = true ∧
      x.status.orderStatus.state.rests = true) :
    DialogueInv { s.postEvent ⟨n, true⟩ e with cancelled := s.cancelled ++ noted } := by
  have heq := postEvent_eq s ⟨n, true⟩ e
  set s' : Server M := { s.postEvent ⟨n, true⟩ e with cancelled := s.cancelled ++ noted }
  have horders : s'.orders = s.orders := by
    change (s.postEvent ⟨n, true⟩ e).orders = s.orders
    rw [heq]
  have hsame : ∀ m, s'.dialogue m = s.dialogue m := fun m => dialogue_congr postEvent_sent
  have hqueued : ∀ tag ∈ s'.queued, tag ∈ s.queued ∨ tag = ⟨n, true⟩ := by
    intro tag htag
    rcases mem_queued.mp htag with ⟨e', hx⟩ | ⟨st, hx⟩
    · rcases mem_postEvent hx with hx | hx
      · exact .inl (mem_queued.mpr (.inl ⟨e', hx⟩))
      · exact .inr (Prod.mk.inj hx).1
    · change (tag, st) ∈ (s.postEvent ⟨n, true⟩ e).statuses at hx
      rw [heq] at hx
      exact .inl (mem_queued.mpr (.inr ⟨st, hx⟩))
  refine ⟨?_, ?_, ?_, ?_, ?_⟩
  · intro m sub hm
    rw [hsame]
    exact hd.talk m sub (horders ▸ hm)
  · intro m hm
    rw [hsame]
    exact hd.next m (horders ▸ hm)
  · intro tag htag hnew
    rw [hsame]
    rcases hqueued tag htag with hold | rfl
    · exact hd.waiting tag hold hnew
    · exact nomatch hnew
  · intro tag htag hcancel
    rw [hsame]
    rcases hqueued tag htag with hold | rfl
    · exact hd.asked tag hold hcancel
    · exact hasked
  · intro m y hy habout
    rw [hsame] at hy
    exact List.mem_append_left _ (hd.noted m y hy habout)

/-- A refusal is about no order. -/
theorem DialogueInv.refuse (hd : DialogueInv s) {noted : List ℕ} :
    DialogueInv { s with
      sent := s.sent ++ [⟨none, false, rejection so⟩]
      cancelled := s.cancelled ++ noted } :=
  hd.quiet rfl (fun _ => dialogue_sent_of_ne rfl nofun) (fun _ htag => htag)
    (List.subset_append_left _ _)

theorem DialogueInv.clientStep (hd : DialogueInv s) (h : Inv s) (hc : CancelInv s)
    (hdis : s.Disciplined (.client so about)) : DialogueInv (s.clientStep so about) := by
  have hmove := postOrder_move s so
  rw [Server.clientStep]
  split
  · next hact =>
    have hother : ¬(so.order.action = .Buy ∨ so.order.action = .Sell) := by simp [hact]
    generalize s.postOrder so = s' at hmove ⊢
    cases hmove with
    | ignore =>
      exact hd.quiet rfl (fun _ => rfl) (fun _ htag => htag) (List.subset_append_left _ _)
    | refuse => exact hd.refuse
    | reject hnew => exact absurd hnew hother
    | exhausted hnew => exact absurd hnew hother
    | create hnew => exact absurd hnew hother
    | cancel _ hcancel =>
      obtain ⟨ho, _⟩ := hc.owns hdis hact
      obtain ⟨_, _, _, rfl⟩ := cancelOrder_eq_some.mp hcancel
      obtain ⟨sub, hsub, _, _, htold, hnot⟩ := hdis hact
      rw [ho.owner]
      exact hd.cancel (hd.told hsub htold hnot)
  · next hact =>
    generalize s.postOrder so = s' at hmove ⊢
    cases hmove with
    | ignore => exact hd
    | refuse =>
      have hrefuse : DialogueInv { s with
          sent := s.sent ++ [⟨none, false, rejection so⟩]
          cancelled := s.cancelled ++ [] } := hd.refuse
      rwa [List.append_nil] at hrefuse
    | reject => exact hd.reject h
    | exhausted _ hv =>
      have hpool : DialogueInv { s with idPool := s.idPool.acquire.2 } :=
        hd.quiet rfl (fun _ => rfl) (fun _ htag => htag) (List.Subset.refl _)
      exact hpool.reject (h.exhausted hv)
    | create => exact hd.create h _ _
    | cancel hcancel => exact absurd hcancel hact

/-! ### The worker and the gateway thread -/

theorem DialogueInv.worked (hd : DialogueInv s) {e : InternalOrderEvent K}
    {rest : List (Tag × InternalOrderEvent K)} {msgs : List (BookMessage K)} {σ : M.State}
    (hev : s.events = (tag, e) :: rest) : DialogueInv (s.worked tag rest msgs σ) := by
  refine hd.quiet rfl (fun _ => rfl) ?_ (List.Subset.refl _)
  intro tag' htag
  rw [mem_queued, hev]
  rcases mem_queued.mp htag with ⟨e', hx⟩ | ⟨st, hx⟩
  · exact .inl ⟨e', List.mem_cons_of_mem _ hx⟩
  · rcases List.mem_append.mp hx with hx | hx
    · exact .inr ⟨st, hx⟩
    · obtain ⟨_, _, heq⟩ := List.mem_map.mp (List.mem_of_mem_take hx)
      rw [← (Prod.mk.inj heq).1]
      exact .inl ⟨e, List.mem_cons_self⟩

/-- The status of a new order is an answer the client knows. -/
theorem StatusOk.repliesToOrder {st : InternalOrderStatus K} (h : Inv s)
    (hok : s.StatusOk ⟨n, false⟩ st) {sub : Submission K} (hn : s.orders[n]? = some sub) :
    Sent.RepliesToOrder ⟨some ⟨n, false⟩, true, s.answer st⟩ n sub.request := by
  obtain ⟨tag, so, id, habout, hso, hclient, horder, _⟩ := h.answer_routed hok
  obtain rfl := Option.some_inj.mp habout
  rw [hn, Option.some_inj] at hso
  subst hso
  refine ⟨rfl, hclient, horder, ?_⟩
  change st.state = _ ∨ st.state = _ ∨ st.state = _ ∨ st.state = _
  rcases hok.new rfl with hfull | ⟨hrests, _⟩
  · exact .inr (.inr (.inl hfull))
  · cases hs : st.state with
    | Accepted => exact .inl rfl
    | Partial => exact .inr (.inl rfl)
    | Cancelled | Rejected | Full => exact nomatch hs ▸ hrests

/-- The status of a cancel is one, and names the order as its answer did. -/
theorem StatusOk.repliesToCancel {st : InternalOrderStatus K} (h : Inv s)
    (hok : s.StatusOk ⟨n, true⟩ st) {sub : Submission K} (hn : s.orders[n]? = some sub)
    {x : Sent} (hx : x ∈ s.sent) (hby : x.byGateway = true) (habout : x.about = some ⟨n, false⟩) :
    Sent.RepliesToCancel ⟨some ⟨n, true⟩, true, s.answer st⟩ n sub.request ∧
      (s.answer st).orderStatus.systemOrderId = x.status.orderStatus.systemOrderId := by
  obtain ⟨tag, so, id, htag, hso, hclient, horder, hid⟩ := h.answer_routed hok
  obtain ⟨tag', so', id', htag', hso', _, _, hid'⟩ := h.routed x hx hby
  obtain rfl := Option.some_inj.mp htag
  obtain rfl := Option.some_inj.mp (habout.symm.trans htag')
  rw [hn, Option.some_inj] at hso
  rw [hn, hso, Option.some_inj, Submission.mk.injEq, Option.some_inj] at hso'
  subst hso
  refine ⟨⟨rfl, hclient, horder, hok.cancel rfl⟩, ?_⟩
  rw [hid']
  exact hid.trans (by rw [hso'.2])

theorem DialogueInv.emit (hd : DialogueInv s) (h : Inv s) (hc : CancelInv s)
    {st : InternalOrderStatus K} {rest : List (Tag × InternalOrderStatus K)}
    (hst : s.statuses = (tag, st) :: rest) :
    DialogueInv { s with
      statuses := rest
      gateway := .emitted tag st
      sent := s.sent ++ [⟨some tag, true, s.answer st⟩] } := by
  set s' : Server M := { s with
    statuses := rest
    gateway := .emitted tag st
    sent := s.sent ++ [⟨some tag, true, s.answer st⟩] }
  have hmem : (tag, st) ∈ s.statuses := hst ▸ List.mem_cons_self
  have hok : s.StatusOk tag st := h.statuses _ hmem
  have hhead : tag ∈ s.queued := mem_queued.mpr (.inr ⟨st, hmem⟩)
  have hsaid : s'.dialogue tag.order = s.dialogue tag.order ++ [⟨some tag, true, s.answer st⟩] :=
    dialogue_sent rfl rfl
  have hother : ∀ n, n ≠ tag.order → s'.dialogue n = s.dialogue n := by
    intro n hn
    refine dialogue_sent_of_ne rfl ?_
    rw [Option.map_some, Ne, Option.some_inj]
    exact fun heq => hn heq.symm
  -- no other message in the queues is about this order
  have hqueued : ∀ tag' ∈ s'.queued, tag' ∈ s.queued ∧ tag'.order ≠ tag.order := by
    obtain ⟨hevents, hrest⟩ := h.status_single hst
    intro tag' htag
    rcases mem_queued.mp htag with ⟨e, hx⟩ | ⟨st', hx⟩
    · exact ⟨mem_queued.mpr (.inl ⟨e, hx⟩), hevents _ hx⟩
    · exact ⟨mem_queued.mpr (.inr ⟨st', hst ▸ List.mem_cons_of_mem _ hx⟩), hrest _ hx⟩
  refine ⟨?_, ?_, ?_, ?_, ?_⟩
  · intro n sub hn
    by_cases hne : n = tag.order
    · subst hne
      rw [hsaid]
      obtain ⟨m, c⟩ := tag
      cases c with
      | false =>
        rw [hd.waiting _ hhead rfl]
        exact .answered (hok.repliesToOrder h hn)
      | true =>
        obtain ⟨x, hx, hby, hrests⟩ := hd.asked _ hhead rfl
        have htalk := hd.talk _ sub hn
        rw [hx] at htalk
        rw [hx]
        cases htalk with
        | answered hreply =>
          have hin : x ∈ s.sent := (List.mem_filter.mp (hx ▸ List.mem_singleton_self x)).1
          obtain ⟨hcancel, hsame⟩ := hok.repliesToCancel h hn hin hby hreply.about
          exact .cancelled hreply hrests hcancel hsame
    · rw [hother n hne]
      exact hd.talk n sub hn
  · intro n hn
    have hlt := hok.owns.lt
    rw [hother n (by change s.orders.length ≤ n at hn; omega)]
    exact hd.next n hn
  · intro tag' htag hnew
    obtain ⟨hold, hne⟩ := hqueued tag' htag
    rw [hother _ hne]
    exact hd.waiting tag' hold hnew
  · intro tag' htag hcancel
    obtain ⟨hold, hne⟩ := hqueued tag' htag
    rw [hother _ hne]
    exact hd.asked tag' hold hcancel
  · intro n y hy habout
    by_cases hne : n = tag.order
    · subst hne
      rw [hsaid, List.mem_append, List.mem_singleton] at hy
      rcases hy with hy | rfl
      · exact hd.noted _ y hy habout
      · refine hc.tags tag (mem_tags.mpr (.inr (.inl ⟨st, hmem⟩))) ?_
        rw [Option.some_inj.mp habout]
    · rw [hother n hne] at hy
      exact hd.noted n y hy habout

theorem DialogueInv.gatewayMove (hd : DialogueInv s) (h : Inv s) (hc : CancelInv s)
    {a : ServerAction K} (hmove : s.GatewayMove a s') : DialogueInv s' := by
  cases hmove with
  | emit _ hst => exact hd.emit h hc hst
  | linkBook | accept | close | release =>
    exact hd.quiet rfl (fun _ => rfl) (fun _ htag => htag) (List.Subset.refl _)

theorem DialogueInv.step (hd : DialogueInv s) (h : Inv s) (hc : CancelInv s)
    {a : ServerAction K} (hdis : s.Disciplined a) (hs : s.Step a s') : DialogueInv s' := by
  cases a with
  | client so about =>
    rw [show s' = s.clientStep so about from hs]
    exact hd.clientStep h hc hdis
  | work msgs =>
    obtain ⟨tag, e, rest, σ, hev, _, rfl⟩ := hs
    exact hd.worked hev
  | _ => exact hd.gatewayMove h hc (gatewayStep_move hs)

theorem disciplinedRuns_dialogue (hM : M.Lawful) {as : List (ServerAction K)}
    (hr : (disciplinedRuns M).Run as s) : s.DialogueInv := by
  induction hr with
  | start hi => exact hi ▸ .start M
  | snoc hr hs ih =>
    obtain ⟨h, hc⟩ := disciplinedRuns_inv hM hr
    exact ih.step h hc hs.1 hs.2

/-- An order that comes to rest and is cancelled. -/
def restAndCancel : List (ServerAction .cicd) :=
  restOne ++ [.client cancelOne 0, .work [.status ⟨⟨147456⟩, ⟨1025⟩, 0, 0, .Cancelled⟩], .emit]

end Server
