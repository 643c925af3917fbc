/-
The client and the server keep what they expect of each other.

The server expects of its clients that they cancel an order once, with the id they were
told and after they were told that it rests (`Server.Disciplined`); the trade engine
expects of its server that every order and every cancel is answered once, by the client's
id, with a state it can have (`AnswersNew`, `AnswersCancel`).  In the connected system
neither is assumed: each party is what the other expects because the other is.

* `Conforms` — what every step of the connected system is to the two parties;
* `closed_loop` — every run of the connected system is a run of the engine with a server as
  it expects, and a run of the server with clients as it expects;
* `nothing_lost` — what the engine waits for is on its way or not yet answered.
-/
import TradingPlatform.System.Answers

open TradeEngine SequencedSPSC

namespace TradingSystem

variable {K : Constants} {M : Matching K} {c : Capacity} {N : SlotCount} {k : ClientId}
  {z z' : TradingSystem M c}

section Server

variable {s s' : Server M}

/-! ### Every step -/

/-- Each party takes a step the other one allows, or none, and they stay linked. -/
structure Conforms (k : ClientId) (N : SlotCount) (z z' : TradingSystem M c) : Prop where
  linked : Linked k z'
  engine : z'.engine = z.engine ∨ ∃ e, z.engine.act N e = some z'.engine
  server : z'.server = z.server ∨ ∃ a, z.server.Disciplined a ∧ z.server.Step a z'.server

section Conforms

variable {m : Order} {o : OrderId} {rest : List (Order × OrderId)}

/-- A step of the server that does not concern the client. -/
theorem Linked.conforms_elsewhere (h : Linked k z) (ht : Tracked N z.engine)
    (he : Elsewhere k z.server s') {a : ServerAction K} (hdis : z.server.Disciplined a)
    (hs : z.server.Step a s') : Conforms k N z (z.advance k s') := by
  rw [he.advance_eq]
  exact ⟨h.elsewhere ht he, .inl rfl, .inr ⟨a, hdis, hs⟩⟩

/-- An answer of the gateway thread to the client. -/
theorem Linked.conforms_emit (h : Linked k z) (ht : Tracked N z.engine) (hinv : z.server.Inv)
    (hc : z.server.CancelInv) (hd : z.server.DialogueInv) {tag : Tag}
    {st : InternalOrderStatus K} {queue : List (Tag × InternalOrderStatus K)}
    (hst : z.server.statuses = (tag, st) :: queue) (hk : (z.server.answer st).clientId = k)
    (hsubs : s'.orders = z.server.orders) (hcancelled : s'.cancelled = z.server.cancelled)
    (hsent : s'.sent = z.server.sent ++ [⟨some tag, true, z.server.answer st⟩])
    (hs : z.server.Step .emit s') : Conforms k N z (z.advance k s') := by
  have hmem : (tag, st) ∈ z.server.statuses := hst ▸ List.mem_cons_self
  have hqueued : tag ∈ z.server.queued := Server.mem_queued.2 (.inr ⟨st, hmem⟩)
  have hok := hinv.statuses _ hmem
  obtain ⟨_, so, id, habout, hso, hclient, _, hid⟩ := hinv.answer_routed hok
  obtain rfl := Option.some_inj.1 habout
  have hown : so.clientId = k := hclient.symm.trans hk
  rw [advance_sent hsent]
  obtain ⟨n, cancel⟩ := tag
  cases cancel with
  | false =>
    have hnone : z.server.dialogue n = [] := hd.waiting _ hqueued rfl
    have hreply := hok.repliesToOrder hinv hso
    rw [hear_new hk rfl (hsubs ▸ hso)]
    obtain ⟨hin, hlinked⟩ := h.heardNew ht hso hown hnone rfl hreply.answers
      (fun _ => ⟨rfl, congrArg some (congrArg SlotId.mk hid.symm)⟩) hsubs hsent hcancelled
    exact ⟨hlinked, .inr ⟨_, act_answerNew hin hreply.answers⟩, .inr ⟨.emit, trivial, hs⟩⟩
  | true =>
    have hnoted : n ∈ z.server.cancelled :=
      hc.tags _ (Server.mem_tags.2 (.inr (.inl ⟨st, hmem⟩))) rfl
    obtain ⟨x, hsaid, hby, _⟩ := hd.asked _ hqueued rfl
    have htalk := hd.talk n _ hso
    change z.server.dialogue n = [x] at hsaid
    rw [hsaid] at htalk
    obtain _ | ⟨hfirst⟩ | _ := htalk
    have hin : x ∈ z.server.dialogue n := hsaid ▸ List.mem_singleton_self x
    have hin : x ∈ z.server.sent := (List.mem_filter.1 hin).1
    obtain ⟨hreply, _⟩ := hok.repliesToCancel hinv hso hin hby hfirst.about
    have hnone : ∀ y ∈ z.server.dialogue n, y.about ≠ some ⟨n, true⟩ := by
      rw [hsaid]
      intro y hy
      rw [List.mem_singleton.1 hy, hfirst.about]
      simp
    obtain ⟨hin, hname, hlinked⟩ := h.heardCancel ht hso hown hnoted hnone rfl hreply.answers hsubs
      hsent hcancelled
    rw [hear_cancel hk rfl]
    refine ⟨hlinked, .inr ⟨_, act_answerCancel hin ?_⟩, .inr ⟨.emit, trivial, hs⟩⟩
    rw [hname]
    exact hreply.answers

/-- The discipline is about the clients only. -/
theorem disciplined_of_internal {a : ServerAction K} (ha : a.internal = true) :
    s.Disciplined a := by
  cases a with
  | client => exact nomatch ha
  | _ => trivial

/-- A step of the worker or the gateway thread. -/
theorem Linked.conforms_internal (h : Linked k z) (ht : Tracked N z.engine)
    (hinv : z.server.Inv) (hc : z.server.CancelInv) (hd : z.server.DialogueInv)
    {a : ServerAction K} (ha : a.internal = true) (hs : z.server.Step a s') :
    Conforms k N z (z.advance k s') := by
  have hdis := disciplined_of_internal (s := z.server) ha
  cases a with
  | client => exact nomatch ha
  | work msgs =>
    obtain ⟨_, _, _, _, _, _, rfl⟩ := id hs
    exact h.conforms_elsewhere ht (.silent rfl rfl rfl) hdis hs
  | emit =>
    cases Server.gatewayStep_move hs with
    | @emit tag st queue _ hst =>
      by_cases hk : (z.server.answer st).clientId = k
      · exact h.conforms_emit ht hinv hc hd hst hk rfl rfl rfl hs
      · exact h.conforms_elsewhere ht (.emit hinv hst hk) hdis hs
  | linkBook | accept | close | release =>
    cases Server.gatewayStep_move hs
    exact h.conforms_elsewhere ht (.silent rfl rfl rfl) hdis hs

/-- The server rejects a new order of the client. -/
theorem Linked.conforms_reject (h : Linked k z) (ht : Tracked N z.engine)
    (hd : z.server.DialogueInv) (hup : z.upstream = (m, o) :: rest) (hact : m.action ≠ .Cancel)
    (hsubs : s'.orders = z.server.orders ++ [⟨⟨k, m⟩, none⟩])
    (hsent : s'.sent = z.server.sent ++
      [⟨some ⟨z.server.orders.length, false⟩, false, Server.rejection ⟨k, m⟩⟩])
    (hcancelled : s'.cancelled = z.server.cancelled)
    (hs : z.server.Step (.client ⟨k, m⟩ (z.origin o)) s') :
    Conforms k N z ((z.note (m, o) rest).advance k s') := by
  -- the order comes in, and then it is answered
  set x : Sent := ⟨some ⟨z.server.orders.length, false⟩, false, Server.rejection ⟨k, m⟩⟩
  set s₁ : Server M := { z.server with orders := z.server.orders ++ [⟨⟨k, m⟩, none⟩] }
  have hnext := hd.next _ (Nat.le_refl z.server.orders.length)
  have hsub : s₁.orders[z.server.orders.length]? = some ⟨⟨k, m⟩, none⟩ :=
    List.getElem?_concat_length
  have hans : AnswersNew m (Server.rejection ⟨k, m⟩).orderStatus := ⟨rfl, .inr (.inr (.inr rfl))⟩
  have hlinked : Linked k { z with
      server := s₁
      upstream := rest
      origin := Function.update z.origin o z.server.orders.length } :=
    h.submit ht hup hact nofun rfl rfl rfl hnext
  obtain ⟨hin, hlinked⟩ := hlinked.heardNew (x := x) ht hsub rfl
    ((Server.dialogue_congr rfl).trans hnext) rfl hans nofun hsubs hsent hcancelled
  have hsaid : s'.sent = (z.note (m, o) rest).server.sent ++ [x] := by
    rw [note_server]
    exact hsent
  have hsub' : s'.orders[z.server.orders.length]? = some ⟨⟨k, m⟩, none⟩ := by
    rw [hsubs]
    exact hsub
  rw [advance_sent hsaid, hear_new (k := k) rfl rfl hsub', note, if_neg hact]
  exact ⟨hlinked, .inr ⟨_, act_answerNew hin hans⟩, .inr ⟨_, h.disciplined hup, hs⟩⟩

/-- A cancel with a price is not answered by the network thread. -/
theorem postOrder_cancel {so : ServerOrder} (hvalid : Server.isValid so = true)
    (hact : so.order.action = .Cancel) :
    s.postOrder so = { s with events := (s.postOrder so).events } := by
  rw [Server.postOrder, if_pos hvalid, hact]
  simp only
  split
  · exact Server.postEvent_eq _ _ _
  · rfl

/-- The server takes in the next order of the client. -/
theorem Linked.conforms_deliver (h : Linked k z) (ht : Tracked N z.engine)
    (hd : z.server.DialogueInv) (hup : z.upstream = (m, o) :: rest) :
    Conforms k N z ((z.note (m, o) rest).advance k
      (z.server.clientStep ⟨k, m⟩ (z.origin o))) := by
  have hhead : (m, o) ∈ z.upstream := hup ▸ List.mem_cons_self
  have hs : z.server.Step (.client ⟨k, m⟩ (z.origin o))
    (z.server.clientStep ⟨k, m⟩ (z.origin o)) := rfl
  generalize hs' : z.server.clientStep ⟨k, m⟩ (z.origin o) = s' at hs ⊢
  by_cases hact : m.action = .Cancel
  · have hpost := postOrder_cancel (s := z.server) (h.isValid_cancel hhead hact) hact
    rw [Server.clientStep, if_pos hact, hpost] at hs'
    have hsubs : s'.orders = z.server.orders := hs' ▸ rfl
    have hlinked := h.cancel ht hd hup hact hsubs (hs' ▸ rfl) (hs' ▸ rfl)
    have hsent : s'.sent = (z.note (m, o) rest).server.sent := by
      rw [note_server, ← hs']
    rw [advance_silent hsent, note, if_pos hact]
    exact ⟨hlinked, .inl rfl, .inr ⟨_, h.disciplined hup, hs⟩⟩
  · rw [Server.clientStep, if_neg hact] at hs'
    obtain ⟨_, hnew⟩ : _ ∧ (m.action = .Buy ∨ m.action = .Sell) := by
      have hmem : m ∈ z.engine.newOrders := by
        rw [h.news]
        refine Multiset.mem_add.2 (.inl (Multiset.mem_coe.2 ?_))
        exact List.mem_map.2 ⟨(m, o), List.mem_filter.2 ⟨hhead, by simpa using hact⟩, rfl⟩
      exact h.promises _ (mem_tokens_sent hmem) m (.inr hmem) rfl
    have hmove := Server.postOrder_move z.server ⟨k, m⟩
    rw [hs'] at hmove
    cases hmove with
    | ignore hother => exact absurd hnew hother
    | refuse hother => exact absurd hnew hother
    | cancel hcancel => exact absurd hcancel hact
    | reject => exact h.conforms_reject ht hd hup hact rfl rfl rfl hs
    | exhausted => exact h.conforms_reject ht hd hup hact rfl rfl rfl hs
    | create _ hvalid =>
      have heq := Server.postEvent_eq (z.server.createRecord ⟨k, m⟩ z.server.idPool.acquire.1
        z.server.idPool.acquire.2) ⟨z.server.orders.length, false⟩
        (Server.newEvent ⟨k, m⟩ z.server.idPool.acquire.1)
      have hnext := hd.next _ (Nat.le_refl z.server.orders.length)
      rw [heq] at hs ⊢
      rw [advance_silent (by rw [note_server]; rfl), note, if_neg hact]
      exact ⟨h.submit ht hup hact (fun _ => hvalid) rfl rfl rfl hnext, .inl rfl,
        .inr ⟨_, h.disciplined hup, hs⟩⟩

end Conforms

/-- Every step keeps the parties linked. -/
theorem Linked.step (h : Linked k z) (ht : Tracked N z.engine) (hinv : z.server.Inv)
    (hc : z.server.CancelInv) (hd : z.server.DialogueInv) {a : SystemAction K c}
    (hs : Step k N z a z') : Conforms k N z z' := by
  cases a with
  | engine e =>
    obtain ⟨hown, st, hst, rfl⟩ := hs
    exact ⟨h.engineMove ht (engineMove_of_act ht hown hst), .inr ⟨e, hst⟩, .inl rfl⟩
  | deliver =>
    obtain ⟨⟨m, o⟩, rest, hup, rfl⟩ := hs
    exact h.conforms_deliver ht hd hup
  | other so about =>
    obtain ⟨hne, hdis, rfl⟩ := hs
    exact h.conforms_elsewhere ht (.clientStep hne hdis) hdis rfl
  | server a =>
    obtain ⟨ha, s', hs, rfl⟩ := hs
    exact h.conforms_internal ht hinv hc hd ha hs

/-- Nothing is in flight at the start. -/
theorem Linked.start (hi : (tradingSystem M c N k).init z) : Linked k z := by
  obtain ⟨⟨q, ⟨fuel, slots, _, rfl⟩, hst⟩, hserver, hup⟩ := hi
  refine ⟨?_, ?_, ?_, ?_, ?_, ?_, ?_, ?_, ?_⟩
  · rw [hst]
    intro t htok
    exact absurd htok (Multiset.notMem_zero t)
  · rw [hst, hserver, hup]
    rfl
  · rw [hst, hserver, hup]
    rfl
  · rw [hup]
    exact fun _ hm => absurd hm List.not_mem_nil
  · rw [hserver]
    exact fun n sub hsub => absurd hsub (by simp [Server.start])
  · rw [hserver]
    exact fun n hn => absurd hn List.not_mem_nil
  · rw [hserver]
    exact fun n hn => absurd hn List.not_mem_nil
  · rw [hserver]
    exact List.nodup_nil
  · rw [hserver]
    exact fun n so id hsub => absurd hsub (by simp [Server.start])

end Server

/-- In every run the parties are linked, and each has gone through a run of its own. -/
theorem linked_of_run (hM : M.Lawful) {as : List (SystemAction K c)}
    (hr : (tradingSystem M c N k).Run as z) :
    Linked k z ∧ (∃ es, (TradeEngine.engine c N).Run es z.engine) ∧
      ∃ ss, (disciplinedRuns M).Run ss z.server := by
  induction hr with
  | start hi => exact ⟨.start hi, ⟨[], .start hi.1⟩, ⟨[], .start hi.2.1⟩⟩
  | snoc _ hs ih =>
    obtain ⟨h, ⟨es, hes⟩, ss, hss⟩ := ih
    obtain ⟨hinv, hc⟩ := disciplinedRuns_inv hM hss
    have hd := Server.disciplinedRuns_dialogue hM hss
    obtain ⟨h', heng, hserv⟩ := h.step (Tracked.run hes) hinv hc hd hs
    refine ⟨h', ?_, ?_⟩
    · rcases heng with heq | ⟨e, he⟩
      · exact ⟨es, heq ▸ hes⟩
      · exact ⟨es ++ [e], hes.snoc he⟩
    · rcases hserv with heq | ⟨a, hdis, ha⟩
      · exact ⟨ss, heq ▸ hss⟩
      · exact ⟨ss ++ [a], hss.snoc ⟨hdis, ha⟩⟩

variable {tickers : Ticker → Bool}

/-- The steps, computed. -/
def run (k : ClientId) (N : SlotCount) (z : TradingSystem (bookMatching K tickers) c) :
    SystemAction K c → Option (TradingSystem (bookMatching K tickers) c)
  | .engine e =>
    if e.own = true then
      (z.engine.act N e).map fun st =>
        { z with engine := st, upstream := z.upstream ++ posted z.engine e }
    else none
  | .deliver =>
    match z.upstream with
    | [] => none
    | m :: rest =>
      some ((z.note m rest).advance k (z.server.clientStep ⟨k, m.1⟩ (z.origin m.2)))
  | .other so about =>
    if so.clientId ≠ k ∧ z.server.Disciplined (.client so about) then
      some (z.advance k (z.server.clientStep so about))
    else none
  | .server a => if a.internal = true then (z.server.run 10 a).map (z.advance k) else none

theorem step_of_run {z z' : TradingSystem (bookMatching K tickers) c} {a : SystemAction K c}
    (h : z.run k N a = some z') : Step k N z a z' := by
  cases a with
  | engine e =>
    rw [run, Option.ite_none_right_eq_some, Option.map_eq_some_iff] at h
    obtain ⟨hown, st, hst, rfl⟩ := h
    exact ⟨hown, st, hst, rfl⟩
  | deliver =>
    simp only [run] at h
    split at h
    · exact nomatch h
    · next m rest hup => exact ⟨m, rest, hup, (Option.some_inj.1 h).symm⟩
  | other so about =>
    rw [run, Option.ite_none_right_eq_some, Option.some_inj] at h
    exact ⟨h.1.1, h.1.2, h.2.symm⟩
  | server a =>
    rw [run, Option.ite_none_right_eq_some, Option.map_eq_some_iff] at h
    obtain ⟨ha, s, hs, rfl⟩ := h
    exact ⟨ha, s, Server.step_of_run 10 hs, rfl⟩

def buyOne : Order := ⟨15, (65, 65, 80, 76), 5, 10, .Buy⟩

def restingOne : OrderStatus := ⟨15, 147456, 0, 10, .Accepted⟩

/-- An order is posted. -/
def sendOne : List (EngineAction eightSlots) :=
  [.setTrading true, .loop, .read (.emptyRead 4), .acquire .loadHead, .acquire .loadTail,
    .acquire .storeHead, .acquire (.finish ⟨15⟩), .record buyOne 1, .postNew]

/-- The engine is told that it rests, and posts its cancel. -/
def cancelOne : List (EngineAction eightSlots) :=
  [.receive restingOne, .check, .store, .dispatch true] ++
    (writeAll (request eightSlots restingOne)).map EngineAction.write ++
    EngineAction.loop :: (readAll 4 ++ [QueueAction.finish]).map EngineAction.read ++
    [.touch 2, .postCancel ⟨147456, (65, 65, 80, 76), 5, 10, .Cancel⟩]

/-- An order comes to rest, and its cancel is on its way. -/
def untilCancel : List (SystemAction .cicd eightSlots) :=
  sendOne.map SystemAction.engine ++
    [.deliver, .server (.work [.status ⟨⟨147456⟩, ⟨1025⟩, 0, 10, .Accepted⟩]), .server .emit,
      .server .linkBook, .server .accept] ++
    cancelOne.map SystemAction.engine

/-- The books of the example. -/
abbrev oneBook : Matching .cicd := bookMatching .cicd Server.onlyAAPL

theorem exists_system_run (as : List (SystemAction .cicd eightSlots))
    (p : TradingSystem oneBook eightSlots → Bool)
    (h : ((construct twoSlots 3 0 fun _ => blank).bind fun slots =>
      Machine.exec (run 7 twoSlots) (⟨.start eightSlots (.start slots), .start _, [], fun _ => 0,
        fun _ => (noOrder, 0)⟩ : TradingSystem oneBook eightSlots) as).any p = true) :
    ∃ z, (tradingSystem oneBook eightSlots twoSlots 7).Run as z ∧ p z = true := by
  rw [Option.any_eq_true] at h
  obtain ⟨z, hz, hp⟩ := h
  obtain ⟨slots, hslots, hz⟩ := Option.bind_eq_some_iff.1 hz
  refine ⟨z, (Machine.Run.start ?_).exec step_of_run hz, hp⟩
  exact ⟨⟨_, ⟨3, slots, hslots, rfl⟩, rfl⟩, rfl, rfl⟩

end TradingSystem
