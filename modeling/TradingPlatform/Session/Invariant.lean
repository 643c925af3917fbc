/-
Who a channel speaks for.

A channel is authenticated once, as the client of the session it enters, and
keeps that client.  `Auth` follows every channel from the unauthorized maps into
a session: channels that wait are unauthenticated, an upstream channel of a
session was granted a login as its client, a downstream channel has presented
the session's token, and the events in the queue carry no more than that.

* `Auth.of_grows` — what has to be said about a step: only what it changes;
* `Auth.act`, `Auth.run` — every step and every run keep the invariant.
-/
import TradingPlatform.Session.Model

namespace SessionManager

variable {s s' : SessionManager}

/-- There is a channel at `p`, of this kind, with this id, speaking for `cl`. -/
def Is (s : SessionManager) (p : ChannelPtr) (kind : ChannelKind) (k : ConnectionId)
    (cl : Option ClientId) : Prop :=
  ∃ ch, s.channels p = some ch ∧ ch.kind = kind ∧ ch.connectionId = k ∧ ch.clientId = cl

theorem Is.unique {p : ChannelPtr} {kind kind' : ChannelKind} {k k' : ConnectionId}
    {cl cl' : Option ClientId} (h : s.Is p kind k cl) (h' : s.Is p kind' k' cl') :
    kind = kind' ∧ k = k' ∧ cl = cl' := by
  obtain ⟨ch, hch, rfl, rfl, rfl⟩ := h
  obtain ⟨ch', hch', rfl, rfl, rfl⟩ := h'
  rw [hch, Option.some_inj] at hch'
  subst hch'
  exact ⟨rfl, rfl, rfl⟩

/-- A channel of this kind may speak for `c`: it was granted a login, or has
presented a token issued to `c`. -/
def Entitled (s : SessionManager) (kind : ChannelKind) (k : ConnectionId) (c : ClientId) : Prop :=
  match kind with
  | .upstream => (k, c) ∈ s.granted
  | .downstream => ∃ token, (k, token) ∈ s.presented ∧ (token, c) ∈ s.issued

/-- What an entry of the session map stands for. -/
structure SessionOk (s : SessionManager) (c : ClientId) (session : Session) : Prop where
  client : session.clientId = c
  up : ∃ p k, session.upstreamChannel = some p ∧ s.Is p .upstream k (some c)
  down : ∀ d, session.downstreamChannel = some d →
    ∃ k, s.Is d .downstream k (some c) ∧ (k, session.token) ∈ s.presented
  issued : (session.token, c) ∈ s.issued
  numbered : ∃ n < s.tokens, session.token = genToken n

/-- What an event in the queue stands for. -/
def EventOk (s : SessionManager) : SystemEvent → Prop
  | .serverLoginResponse r => r.ok = true → (r.connectionId, r.clientId) ∈ s.granted
  | .serverTokenBindRequest k token => (k, token) ∈ s.presented
  | _ => True

/-- The invariant of the session manager. -/
structure Auth (s : SessionManager) : Prop where
  ids : ∀ p ch, s.channels p = some ch → ch.connectionId = genConnectionId p ∧ p < s.connections
  up : ∀ k v, s.unauthorizedUpstreamMap.lookup k = some v →
    ∃ p, v = some p ∧ s.Is p .upstream k none
  down : ∀ k v, s.unauthorizedDownstreamMap.lookup k = some v →
    ∃ p, v = some p ∧ s.Is p .downstream k none
  session : ∀ c session, s.sessionsMap.lookup c = some session → s.SessionOk c session
  tokens : s.tokens ≤ 2 ^ 32 → ∀ c session c' session', s.sessionsMap.lookup c = some session →
    s.sessionsMap.lookup c' = some session' → session.token = session'.token → c = c'
  clients : ∀ p kind k c, s.Is p kind k (some c) → s.Entitled kind k c
  pending : ∀ e ∈ s.pending, s.EventOk e
  orders : ∀ o ∈ s.orders, ∃ p, s.Is p .upstream o.1 (some o.2.clientId)
  statuses : ∀ w ∈ s.statuses, ∃ p, s.Is p .downstream w.1 (some w.2.clientId)

/-! ### Steps forget nothing -/

/-- What was recorded stays, and authenticated channels stay what they are. -/
structure Grows (s s' : SessionManager) : Prop where
  granted : s.granted ⊆ s'.granted
  presented : s.presented ⊆ s'.presented
  issued : s.issued ⊆ s'.issued
  tokens : s.tokens ≤ s'.tokens
  authenticated : ∀ p kind k c, s.Is p kind k (some c) → s'.Is p kind k (some c)

theorem Entitled.grows (hg : Grows s s') {kind : ChannelKind} {k : ConnectionId} {c : ClientId}
    (h : s.Entitled kind k c) : s'.Entitled kind k c := by
  cases kind with
  | upstream => exact hg.granted h
  | downstream =>
    obtain ⟨token, hp, hi⟩ := h
    exact ⟨token, hg.presented hp, hg.issued hi⟩

theorem SessionOk.grows (hg : Grows s s') {c : ClientId} {session : Session}
    (h : s.SessionOk c session) : s'.SessionOk c session where
  client := h.client
  up := by
    obtain ⟨p, k, hp, his⟩ := h.up
    exact ⟨p, k, hp, hg.authenticated _ _ _ _ his⟩
  down d hd := by
    obtain ⟨k, his, hk⟩ := h.down d hd
    exact ⟨k, hg.authenticated _ _ _ _ his, hg.presented hk⟩
  issued := hg.issued h.issued
  numbered := by
    obtain ⟨n, hn, htok⟩ := h.numbered
    exact ⟨n, lt_of_lt_of_le hn hg.tokens, htok⟩

theorem EventOk.grows (hg : Grows s s') {e : SystemEvent} (h : s.EventOk e) : s'.EventOk e := by
  cases e with
  | serverLoginRequest k name password => trivial
  | serverLoginResponse r => exact fun hok => hg.granted (h hok)
  | serverTokenBindRequest k token => exact hg.presented h
  | channelStatus e => trivial

/-- The invariant after a step, from what the step adds. -/
theorem Auth.of_grows (h : Auth s) (hg : Grows s s')
    (ids : ∀ p ch, s'.channels p = some ch →
      ch.connectionId = genConnectionId p ∧ p < s'.connections)
    (up : ∀ k v, s'.unauthorizedUpstreamMap.lookup k = some v →
      ∃ p, v = some p ∧ s'.Is p .upstream k none)
    (down : ∀ k v, s'.unauthorizedDownstreamMap.lookup k = some v →
      ∃ p, v = some p ∧ s'.Is p .downstream k none)
    (session : ∀ c session, s'.sessionsMap.lookup c = some session →
      s.sessionsMap.lookup c = some session ∨ s'.SessionOk c session)
    (tokens : s'.tokens ≤ 2 ^ 32 → ∀ c session c' session',
      s'.sessionsMap.lookup c = some session → s'.sessionsMap.lookup c' = some session' →
      session.token = session'.token → c = c')
    (clients : ∀ p kind k c, s'.Is p kind k (some c) →
      s.Is p kind k (some c) ∨ s'.Entitled kind k c)
    (pending : ∀ e ∈ s'.pending, e ∈ s.pending ∨ s'.EventOk e)
    (orders : ∀ o ∈ s'.orders, o ∈ s.orders ∨ ∃ p, s'.Is p .upstream o.1 (some o.2.clientId))
    (statuses : ∀ w ∈ s'.statuses,
      w ∈ s.statuses ∨ ∃ p, s'.Is p .downstream w.1 (some w.2.clientId)) : Auth s' where
  ids := ids
  up := up
  down := down
  session c ss hss := (session c ss hss).elim (fun hl => (h.session c ss hl).grows hg) id
  tokens := tokens
  clients p kind k c his := (clients p kind k c his).elim
    (fun his => (h.clients _ _ _ _ his).grows hg) id
  pending e he := (pending e he).elim (fun he => (h.pending e he).grows hg) id
  orders o ho := (orders o ho).elim (fun ho => by
    obtain ⟨p, his⟩ := h.orders o ho
    exact ⟨p, hg.authenticated _ _ _ _ his⟩) id
  statuses w hw := (statuses w hw).elim (fun hw => by
    obtain ⟨p, his⟩ := h.statuses w hw
    exact ⟨p, hg.authenticated _ _ _ _ his⟩) id

/-! ### Records, maps and channels -/

/-- Adding to the records, and posting events they bear out. -/
theorem Auth.record (h : Auth s) {pending : List SystemEvent}
    {granted : List (ConnectionId × ClientId)} {presented : List (ConnectionId × Token)}
    {orders : List (ConnectionId × ServerOrder)}
    {responses : List (ConnectionId × DomainMessage)}
    {statuses : List (ConnectionId × ServerOrderStatus)}
    (hgranted : s.granted ⊆ granted) (hpresented : s.presented ⊆ presented)
    (hpending : ∀ e ∈ pending, e ∈ s.pending ∨
      EventOk { s with granted := granted, presented := presented } e)
    (horders : ∀ o ∈ orders, o ∈ s.orders ∨ ∃ p, s.Is p .upstream o.1 (some o.2.clientId))
    (hstatuses : ∀ w ∈ statuses,
      w ∈ s.statuses ∨ ∃ p, s.Is p .downstream w.1 (some w.2.clientId)) :
    Auth { s with
      pending := pending, granted := granted, presented := presented, orders := orders
      responses := responses, statuses := statuses } := by
  refine h.of_grows ⟨hgranted, hpresented, fun _ ht => ht, le_refl _, fun _ _ _ _ his => his⟩
    h.ids h.up h.down (fun c ss hl => .inl hl) h.tokens (fun p kind k c his => .inl his)
    (fun e he => ?_) horders hstatuses
  rcases hpending e he with he | he
  · exact .inl he
  · cases e with
    | serverLoginRequest k name password => exact .inr trivial
    | serverLoginResponse r => exact .inr he
    | serverTokenBindRequest k token => exact .inr he
    | channelStatus e => exact .inr trivial

theorem respond_eq (s : SessionManager) (p : ChannelPtr) (m : DomainMessage) :
    ∃ r, s.respond p m = { s with responses := r } := by
  rw [respond]
  split
  · split
    · exact ⟨_, rfl⟩
    · exact ⟨s.responses, rfl⟩
  · exact ⟨s.responses, rfl⟩

theorem Auth.respond (h : Auth s) (p : ChannelPtr) (m : DomainMessage) :
    Auth (s.respond p m) := by
  obtain ⟨r, hr⟩ := s.respond_eq p m
  rw [hr]
  exact h.record (fun _ ht => ht) (fun _ ht => ht) (fun e he => .inl he) (fun o ho => .inl ho)
    (fun w hw => .inl hw)

theorem Auth.post (h : Auth s) {e : SystemEvent} (he : s.EventOk e) : Auth (s.post e) := by
  refine h.record (fun _ ht => ht) (fun _ ht => ht) (fun e' he' => ?_) (fun o ho => .inl ho)
    (fun w hw => .inl hw)
  rcases List.mem_append.1 he' with he' | he'
  · exact .inl he'
  · rw [List.mem_singleton.1 he']
    exact .inr he

theorem Auth.busPost (h : Auth s) {kind : ChannelKind} {e : SystemEvent} (he : s.EventOk e) :
    Auth (s.busPost kind e) := by
  rw [SessionManager.busPost]
  split
  · exact h.post he
  · exact h

theorem Auth.take (h : Auth s) (n : ℕ) : Auth (s.take n) :=
  h.record (fun _ ht => ht) (fun _ ht => ht)
    (fun _ he => .inl (List.mem_of_mem_eraseIdx he)) (fun _ ho => .inl ho) (fun _ hw => .inl hw)

/-- Taking entries out of the maps, and counting tokens that no session gets. -/
theorem Auth.shrink (h : Auth s) {tokens : ℕ}
    {up down : AList fun _ : ConnectionId => Option ChannelPtr}
    {sessions : AList fun _ : ClientId => Session} (htok : s.tokens ≤ tokens)
    (hup : ∀ k v, up.lookup k = some v → s.unauthorizedUpstreamMap.lookup k = some v)
    (hdown : ∀ k v, down.lookup k = some v → s.unauthorizedDownstreamMap.lookup k = some v)
    (hsessions : ∀ c ss, sessions.lookup c = some ss → s.sessionsMap.lookup c = some ss) :
    Auth { s with
      tokens := tokens, unauthorizedUpstreamMap := up, unauthorizedDownstreamMap := down
      sessionsMap := sessions } :=
  h.of_grows ⟨fun _ ht => ht, fun _ ht => ht, fun _ ht => ht, htok, fun _ _ _ _ his => his⟩
    h.ids (fun k v hl => h.up k v (hup k v hl)) (fun k v hl => h.down k v (hdown k v hl))
    (fun c ss hl => .inl (hsessions c ss hl))
    (fun hle c ss c' ss' hl hl' => h.tokens (le_trans htok hle) c ss c' ss' (hsessions _ _ hl)
      (hsessions _ _ hl'))
    (fun _ _ _ _ his => .inl his) (fun _ he => .inl he) (fun _ ho => .inl ho)
    (fun _ hw => .inl hw)

theorem is_modify_of_ne {p q : ChannelPtr} (hne : q ≠ p) {f : SessionChannel → SessionChannel}
    {kind : ChannelKind} {k : ConnectionId} {cl : Option ClientId} :
    (s.modifyChannel p f).Is q kind k cl ↔ s.Is q kind k cl := by
  rw [Is, Is, modifyChannel_of_ne _ hne]

theorem is_modify_self {p : ChannelPtr} {f : SessionChannel → SessionChannel}
    {kind : ChannelKind} {k : ConnectionId} {cl : Option ClientId} :
    (s.modifyChannel p f).Is p kind k cl ↔
      ∃ ch, s.channels p = some ch ∧ (f ch).kind = kind ∧ (f ch).connectionId = k ∧
        (f ch).clientId = cl := by
  rw [Is, modifyChannel_self]
  constructor
  · rintro ⟨ch', hch', h⟩
    obtain ⟨ch, hch, rfl⟩ := Option.map_eq_some_iff.1 hch'
    exact ⟨ch, hch, h⟩
  · rintro ⟨ch, hch, h⟩
    exact ⟨f ch, by rw [hch]; rfl, h⟩

/-- A new status changes nothing about who a channel is. -/
theorem is_setStatus {p q : ChannelPtr} {status : ConnectionStatus} {kind : ChannelKind}
    {k : ConnectionId} {cl : Option ClientId} :
    (s.modifyChannel p fun ch => { ch with status := status }).Is q kind k cl ↔
      s.Is q kind k cl := by
  by_cases hq : q = p
  · subst hq
    rw [is_modify_self]
    rfl
  · exact is_modify_of_ne hq

theorem ids_modify {n : ℕ}
    (h : ∀ q ch, s.channels q = some ch → ch.connectionId = genConnectionId q ∧ q < n)
    {p : ChannelPtr} {f : SessionChannel → SessionChannel}
    (hf : ∀ ch, (f ch).connectionId = ch.connectionId) (q : ChannelPtr) (ch : SessionChannel)
    (hch : (s.modifyChannel p f).channels q = some ch) :
    ch.connectionId = genConnectionId q ∧ q < n := by
  by_cases hq : q = p
  · subst hq
    rw [modifyChannel_self] at hch
    obtain ⟨ch₀, hch₀, rfl⟩ := Option.map_eq_some_iff.1 hch
    rw [hf]
    exact h q ch₀ hch₀
  · rw [modifyChannel_of_ne _ hq] at hch
    exact h q ch hch

theorem Auth.setStatus (h : Auth s) (p : ChannelPtr) (status : ConnectionStatus) :
    Auth (s.modifyChannel p fun ch => { ch with status := status }) := by
  refine h.of_grows ⟨fun _ ht => ht, fun _ ht => ht, fun _ ht => ht, le_refl _,
    fun _ _ _ _ his => is_setStatus.2 his⟩
    (fun q ch hch => ids_modify h.ids (f := fun ch => { ch with status := status })
      (fun _ => rfl) q ch hch)
    (fun k v hl => ?_) (fun k v hl => ?_) (fun c ss hl => .inl hl) h.tokens
    (fun _ _ _ _ his => .inl (is_setStatus.1 his)) (fun _ he => .inl he)
    (fun _ ho => .inl ho) (fun _ hw => .inl hw)
  · obtain ⟨p, hp, his⟩ := h.up k v hl
    exact ⟨p, hp, is_setStatus.2 his⟩
  · obtain ⟨p, hp, his⟩ := h.down k v hl
    exact ⟨p, hp, is_setStatus.2 his⟩

/-! ### Authentication -/

section Authenticate

variable {p q : ChannelPtr} {kind kind' : ChannelKind} {k k' : ConnectionId}
  {cl : Option ClientId} {c : ClientId}

theorem ids_authenticate {n : ℕ}
    (h : ∀ q ch, s.channels q = some ch → ch.connectionId = genConnectionId q ∧ q < n)
    (q : ChannelPtr) (ch : SessionChannel)
    (hch : (s.authenticate p c).channels q = some ch) :
    ch.connectionId = genConnectionId q ∧ q < n := by
  rw [authenticate] at hch
  exact ids_modify h (fun ch => by split <;> rfl) q ch hch

theorem is_authenticate_of_ne (hne : q ≠ p) :
    (s.authenticate p c).Is q kind k cl ↔ s.Is q kind k cl :=
  is_modify_of_ne hne

/-- A channel that waits becomes its client's. -/
theorem is_authenticate_self (h : s.Is p kind k none) :
    (s.authenticate p c).Is p kind' k' cl ↔ kind' = kind ∧ k' = k ∧ cl = some c := by
  obtain ⟨ch, hch, rfl, rfl, hcl⟩ := h
  rw [authenticate, is_modify_self]
  constructor
  · rintro ⟨ch', hch', h⟩
    obtain rfl := Option.some_inj.1 (hch.symm.trans hch')
    rw [hcl, if_neg (by simp)] at h
    exact ⟨h.1.symm, h.2.1.symm, h.2.2.symm⟩
  · rintro ⟨rfl, rfl, rfl⟩
    refine ⟨ch, hch, ?_⟩
    rw [hcl, if_neg (by simp)]
    exact ⟨rfl, rfl, rfl⟩

/-- A channel with another kind, id or client is not the one that waits. -/
theorem Is.ne_of (h : s.Is q kind' k' cl) (h' : s.Is p kind k none)
    (hne : ¬ (kind' = kind ∧ k' = k ∧ cl = none)) : q ≠ p := by
  intro heq
  subst heq
  exact hne (h.unique h')

/-- Authenticating a channel that waits leaves the authenticated ones alone. -/
theorem Is.authenticate (h : s.Is p kind k none) {c' : ClientId}
    (h' : s.Is q kind' k' (some c')) : (s.authenticate p c).Is q kind' k' (some c') :=
  (is_authenticate_of_ne (h'.ne_of h fun heq => Option.some_ne_none _ heq.2.2)).2 h'

end Authenticate

/-- A successful login moves the channel from its map into a new session. -/
theorem Auth.openSession (h : Auth s) {k : ConnectionId} {p : ChannelPtr} {c : ClientId}
    {responses : List (ConnectionId × DomainMessage)}
    (hk : s.unauthorizedUpstreamMap.lookup k = some (some p)) (hc : c ∉ s.sessionsMap)
    (hg : (k, c) ∈ s.granted) :
    Auth (authenticate { s with
      tokens := s.tokens + 1
      unauthorizedUpstreamMap := s.unauthorizedUpstreamMap.erase k
      sessionsMap := s.sessionsMap.insert c ⟨c, genToken s.tokens, some p, none⟩
      issued := s.issued ++ [(genToken s.tokens, c)]
      responses := responses } p c) := by
  obtain ⟨p', hp', hwait⟩ := h.up k _ hk
  obtain rfl := Option.some_inj.1 hp'
  set s₁ : SessionManager := { s with
    tokens := s.tokens + 1
    unauthorizedUpstreamMap := s.unauthorizedUpstreamMap.erase k
    sessionsMap := s.sessionsMap.insert c ⟨c, genToken s.tokens, some p, none⟩
    issued := s.issued ++ [(genToken s.tokens, c)]
    responses := responses } with hs₁
  have hwait₁ : s₁.Is p .upstream k none := hwait
  have hnew : ∀ n < s.tokens, s.tokens + 1 ≤ 2 ^ 32 → genToken n ≠ genToken s.tokens := by
    intro n hn hle heq
    have := ofNat_mod_inj (by omega) (by omega) heq
    omega
  refine h.of_grows ⟨fun _ ht => ht, fun _ ht => ht, fun _ ht => List.mem_append_left _ ht,
    Nat.le_succ _, fun q kind k' c' his => Is.authenticate hwait₁ his⟩
    (fun q ch hch => ids_authenticate (s := s₁) h.ids q ch hch) (fun k' v hl => ?_)
    (fun k' v hl => ?_) (fun c' ss hl => ?_) (fun hle c₁ ss₁ c₂ ss₂ hl₁ hl₂ heq => ?_)
    (fun q kind k' c' his => ?_) (fun _ he => .inl he) (fun _ ho => .inl ho)
    (fun _ hw => .inl hw)
  · -- the other channels that wait upstream have other ids
    obtain ⟨hne, hl⟩ := FiniteMap.lookup_erase_eq_some.1 hl
    obtain ⟨q, hq, his⟩ := h.up k' v hl
    exact ⟨q, hq, (is_authenticate_of_ne (s := s₁)
      (his.ne_of hwait fun heq => hne heq.2.1)).2 his⟩
  · obtain ⟨q, hq, his⟩ := h.down k' v hl
    exact ⟨q, hq, (is_authenticate_of_ne (s := s₁)
      (his.ne_of hwait fun heq => ChannelKind.noConfusion heq.1)).2 his⟩
  · rcases FiniteMap.lookup_insert_eq_some.1 hl with ⟨rfl, rfl⟩ | ⟨_, hl⟩
    · exact .inr {
        client := rfl
        up := ⟨p, k, rfl, (is_authenticate_self hwait₁).2 ⟨rfl, rfl, rfl⟩⟩
        down := fun d hd => absurd hd (by simp)
        issued := List.mem_append_right _ (List.mem_singleton_self _)
        numbered := ⟨s.tokens, Nat.lt_succ_self _, rfl⟩ }
    · exact .inl hl
  · -- an older token has a smaller number
    rcases FiniteMap.lookup_insert_eq_some.1 hl₁ with ⟨rfl, rfl⟩ | ⟨_, hold₁⟩
    · rcases FiniteMap.lookup_insert_eq_some.1 hl₂ with ⟨rfl, rfl⟩ | ⟨_, hold₂⟩
      · rfl
      · obtain ⟨n, hn, htok⟩ := (h.session _ _ hold₂).numbered
        exact absurd (htok.symm.trans heq.symm) (hnew n hn hle)
    · rcases FiniteMap.lookup_insert_eq_some.1 hl₂ with ⟨rfl, rfl⟩ | ⟨_, hold₂⟩
      · obtain ⟨n, hn, htok⟩ := (h.session _ _ hold₁).numbered
        exact absurd (htok.symm.trans heq) (hnew n hn hle)
      · exact h.tokens (le_trans (Nat.le_succ _) hle) _ _ _ _ hold₁ hold₂ heq
  · by_cases hq : q = p
    · subst hq
      obtain ⟨rfl, rfl, hcl⟩ := (is_authenticate_self hwait₁).1 his
      obtain rfl := Option.some_inj.1 hcl
      exact .inr hg
    · exact .inl ((is_authenticate_of_ne hq).1 his)

/-- A token that belongs to a session without downstream channel binds one. -/
theorem Auth.bindSession (h : Auth s) {k : ConnectionId} {p : ChannelPtr} {c : ClientId}
    {session : Session} (hk : s.unauthorizedDownstreamMap.lookup k = some (some p))
    (hc : s.sessionsMap.lookup c = some session) (hp : (k, session.token) ∈ s.presented) :
    Auth (authenticate { s with
      unauthorizedDownstreamMap := s.unauthorizedDownstreamMap.erase k
      sessionsMap := s.sessionsMap.insert c { session with downstreamChannel := some p } } p
      session.clientId) := by
  obtain ⟨p', hp', hwait⟩ := h.down k _ hk
  obtain rfl := Option.some_inj.1 hp'
  have hok := h.session c session hc
  obtain rfl := hok.client
  set s₁ : SessionManager := { s with
    unauthorizedDownstreamMap := s.unauthorizedDownstreamMap.erase k
    sessionsMap := s.sessionsMap.insert session.clientId
      { session with downstreamChannel := some p } } with hs₁
  have hwait₁ : s₁.Is p .downstream k none := hwait
  -- every session has the token it had
  have hold : ∀ c' ss, s₁.sessionsMap.lookup c' = some ss →
      ∃ ss₀, s.sessionsMap.lookup c' = some ss₀ ∧ ss.token = ss₀.token := by
    intro c' ss hl
    rcases FiniteMap.lookup_insert_eq_some.1 hl with ⟨rfl, rfl⟩ | ⟨_, hl⟩
    · exact ⟨session, hc, rfl⟩
    · exact ⟨ss, hl, rfl⟩
  refine h.of_grows ⟨fun _ ht => ht, fun _ ht => ht, fun _ ht => ht, le_refl _,
    fun q kind k' c' his => Is.authenticate hwait₁ his⟩
    (fun q ch hch => ids_authenticate (s := s₁) h.ids q ch hch) (fun k' v hl => ?_)
    (fun k' v hl => ?_) (fun c' ss hl => ?_) (fun hle c₁ ss₁ c₂ ss₂ hl₁ hl₂ heq => ?_)
    (fun q kind k' c' his => ?_) (fun _ he => .inl he) (fun _ ho => .inl ho)
    (fun _ hw => .inl hw)
  · obtain ⟨q, hq, his⟩ := h.up k' v hl
    exact ⟨q, hq, (is_authenticate_of_ne (s := s₁)
      (his.ne_of hwait fun heq => ChannelKind.noConfusion heq.1)).2 his⟩
  · -- the other channels that wait downstream have other ids
    obtain ⟨hne, hl⟩ := FiniteMap.lookup_erase_eq_some.1 hl
    obtain ⟨q, hq, his⟩ := h.down k' v hl
    exact ⟨q, hq, (is_authenticate_of_ne (s := s₁)
      (his.ne_of hwait fun heq => hne heq.2.1)).2 his⟩
  · rcases FiniteMap.lookup_insert_eq_some.1 hl with ⟨rfl, rfl⟩ | ⟨_, hl⟩
    · obtain ⟨u, ku, hu, his⟩ := hok.up
      exact .inr {
        client := rfl
        up := ⟨u, ku, hu, Is.authenticate hwait₁ his⟩
        down := fun d hd => by
          obtain rfl := Option.some_inj.1 hd
          exact ⟨k, (is_authenticate_self hwait₁).2 ⟨rfl, rfl, rfl⟩, hp⟩
        issued := hok.issued
        numbered := hok.numbered }
    · exact .inl hl
  · obtain ⟨ss₁', hl₁', htok₁⟩ := hold c₁ ss₁ hl₁
    obtain ⟨ss₂', hl₂', htok₂⟩ := hold c₂ ss₂ hl₂
    exact h.tokens hle _ _ _ _ hl₁' hl₂' (htok₁.symm.trans (heq.trans htok₂))
  · by_cases hq : q = p
    · subst hq
      obtain ⟨rfl, rfl, hcl⟩ := (is_authenticate_self hwait₁).1 his
      obtain rfl := Option.some_inj.1 hcl
      exact .inr ⟨session.token, hp, hok.issued⟩
    · exact .inl ((is_authenticate_of_ne hq).1 his)

/-! ### Accepting connections -/

/-- A new channel is unauthenticated, and the others are what they were. -/
theorem Auth.create (h : Auth s) (kind : ChannelKind) : Auth (s.create kind) := by
  have hnew : (s.create kind).Is s.connections kind (genConnectionId s.connections) none :=
    ⟨_, s.create_self kind, rfl, rfl, rfl⟩
  have hold : ∀ q kind' k cl, s.Is q kind' k cl → (s.create kind).Is q kind' k cl := by
    rintro q kind' k cl ⟨ch, hch, hrest⟩
    exact ⟨ch, by rw [create_of_ne _ _ (Nat.ne_of_lt (h.ids q ch hch).2), hch], hrest⟩
  refine h.of_grows ⟨fun _ ht => ht, fun _ ht => ht, fun _ ht => ht, le_refl _,
    fun _ _ _ _ his => hold _ _ _ _ his⟩ (fun q ch hch => ?_) (fun k v hl => ?_)
    (fun k v hl => ?_) (fun _ _ hl => .inl hl) h.tokens (fun q kind' k c his => ?_)
    (fun _ he => .inl he) (fun _ ho => .inl ho) (fun _ hw => .inl hw)
  · by_cases hq : q = s.connections
    · subst hq
      rw [create_self] at hch
      obtain rfl := Option.some_inj.1 hch
      exact ⟨rfl, Nat.lt_succ_self _⟩
    · rw [create_of_ne _ _ hq] at hch
      exact ⟨(h.ids q ch hch).1, Nat.lt_succ_of_lt (h.ids q ch hch).2⟩
  · obtain ⟨q, hq, his⟩ := h.up k v hl
    exact ⟨q, hq, hold _ _ _ _ his⟩
  · obtain ⟨q, hq, his⟩ := h.down k v hl
    exact ⟨q, hq, hold _ _ _ _ his⟩
  · by_cases hq : q = s.connections
    · subst hq
      exact absurd (his.unique hnew).2.2 (Option.some_ne_none c)
    · obtain ⟨ch, hch, hrest⟩ := his
      rw [create_of_ne _ _ hq] at hch
      exact .inl ⟨ch, hch, hrest⟩

/-- A channel that waits may be entered into the map of its kind. -/
theorem Auth.enroll (h : Auth s) {k : ConnectionId} {p : ChannelPtr} {kind : ChannelKind}
    (hwait : s.Is p kind k none) : Auth (s.enroll k p kind) := by
  have hg : ∀ {up down}, Grows s { s with
      unauthorizedUpstreamMap := up, unauthorizedDownstreamMap := down } := fun {_ _} =>
    ⟨fun _ ht => ht, fun _ ht => ht, fun _ ht => ht, le_refl _, fun _ _ _ _ his => his⟩
  cases kind with
  | upstream =>
    refine h.of_grows hg h.ids (fun k' v hl => ?_) h.down (fun _ _ hl => .inl hl) h.tokens
      (fun _ _ _ _ his => .inl his) (fun _ he => .inl he) (fun _ ho => .inl ho)
      (fun _ hw => .inl hw)
    rcases FiniteMap.lookup_insertNew_eq_some.1 hl with ⟨rfl, rfl, _⟩ | hl
    · exact ⟨p, rfl, hwait⟩
    · exact h.up k' v hl
  | downstream =>
    refine h.of_grows hg h.ids h.up (fun k' v hl => ?_) (fun _ _ hl => .inl hl) h.tokens
      (fun _ _ _ _ his => .inl his) (fun _ he => .inl he) (fun _ ho => .inl ho)
      (fun _ hw => .inl hw)
    rcases FiniteMap.lookup_insertNew_eq_some.1 hl with ⟨rfl, rfl, _⟩ | hl
    · exact ⟨p, rfl, hwait⟩
    · exact h.down k' v hl

theorem Auth.accept (h : Auth s) (kind : ChannelKind) : Auth (s.accept kind) := by
  rw [SessionManager.accept]
  split
  · -- the limit is reached: an id is lost
    exact h.of_grows ⟨fun _ ht => ht, fun _ ht => ht, fun _ ht => ht, le_refl _,
      fun _ _ _ _ his => his⟩
      (fun q ch hch => ⟨(h.ids q ch hch).1, Nat.lt_succ_of_lt (h.ids q ch hch).2⟩) h.up h.down
      (fun _ _ hl => .inl hl) h.tokens (fun _ _ _ _ his => .inl his) (fun _ he => .inl he)
      (fun _ ho => .inl ho) (fun _ hw => .inl hw)
  · exact (h.create kind).enroll ⟨_, s.create_self kind, rfl, rfl, rfl⟩

/-! ### Messages and events -/

theorem Auth.sessionBusPost (h : Auth s) {p : ChannelPtr} {ch : SessionChannel}
    (hch : s.channels p = some ch) (m : DomainMessage) : Auth (s.sessionBusPost ch m) := by
  have hpresent : ∀ token, Auth { s with
      presented := s.presented ++ [(ch.connectionId, token)] } := fun token =>
    h.record (fun _ ht => ht) (fun _ ht => List.mem_append_left _ ht) (fun _ he => .inl he)
      (fun _ ho => .inl ho) (fun _ hw => .inl hw)
  cases m with
  | loginRequest name password =>
    rw [SessionManager.sessionBusPost]
    split
    · exact h.busPost trivial
    · exact h.busPost trivial
  | tokenBindRequest token =>
    rw [SessionManager.sessionBusPost]
    split
    · exact (hpresent token).busPost trivial
    · exact (hpresent token).busPost
        (List.mem_append_right _ (List.mem_singleton_self _))
  | order id ticker quantity price action =>
    rw [SessionManager.sessionBusPost]
    split
    · exact h.busPost trivial
    · next c hcl =>
      split
      · next hkind =>
        refine h.record (fun _ ht => ht) (fun _ ht => ht) (fun _ he => .inl he)
          (fun o ho => ?_) (fun _ hw => .inl hw)
        rcases List.mem_append.1 ho with ho | ho
        · exact .inl ho
        · rw [List.mem_singleton.1 ho]
          exact .inr ⟨p, ch, hch, hkind, rfl, hcl⟩
      · exact h
  | loginResponse token ok error => exact h
  | orderStatus orderId systemOrderId quantity fillPrice state => exact h
  | tickerPrice ticker price => exact h

theorem Auth.onStatus (h : Auth s) (p : ChannelPtr) (ch : SessionChannel)
    (status : ConnectionStatus) : Auth (s.onStatus p ch status) :=
  (h.setStatus p status).busPost trivial

theorem Auth.authenticatorPost (h : Auth s) (k : ConnectionId)
    (result : Except (List UInt8) ClientId) : Auth (s.authenticatorPost k result) := by
  cases result with
  | error e => exact h.post fun hok => Bool.noConfusion hok
  | ok c =>
    have hg : Auth { s with granted := s.granted ++ [(k, c)] } :=
      h.record (fun _ ht => List.mem_append_left _ ht) (fun _ ht => ht) (fun _ he => .inl he)
        (fun _ ho => .inl ho) (fun _ hw => .inl hw)
    exact hg.post fun _ => List.mem_append_right _ (List.mem_singleton_self _)

theorem Auth.onLoginResponse (h : Auth s) {r : ServerLoginResponse}
    (hr : s.EventOk (.serverLoginResponse r)) (hs : s.onLoginResponse r = some s') :
    Auth s' := by
  have herase : ∀ tokens, s.tokens ≤ tokens → Auth { s with
      tokens := tokens
      unauthorizedUpstreamMap := s.unauthorizedUpstreamMap.erase r.connectionId } :=
    fun tokens htok => h.shrink htok
      (fun k v hl => (FiniteMap.lookup_erase_eq_some.1 hl).2) (fun _ _ hl => hl)
      (fun _ _ hl => hl)
  simp only [SessionManager.onLoginResponse] at hs
  split at hs
  · obtain rfl := Option.some_inj.1 hs
    exact h
  · next channel hl =>
    split at hs
    · obtain rfl := Option.some_inj.1 hs
      exact herase _ (le_refl _)
    · next p =>
      split at hs
      · next hok =>
        split at hs
        · obtain rfl := Option.some_inj.1 hs
          exact (herase _ (Nat.le_succ _)).respond _ _
        · next hc =>
          obtain rfl := Option.some_inj.1 hs
          obtain ⟨responses, hresp⟩ := respond_eq _ p _
          rw [hresp]
          exact h.openSession hl hc (hr hok)
      · obtain rfl := Option.some_inj.1 hs
        exact (herase _ (le_refl _)).respond _ _

theorem Auth.onTokenBindRequest (h : Auth s) {k : ConnectionId} {token : Token}
    (hr : s.EventOk (.serverTokenBindRequest k token))
    (hs : s.onTokenBindRequest k token = some s') : Auth s' := by
  have herase : Auth { s with
      unauthorizedDownstreamMap := s.unauthorizedDownstreamMap.erase k } :=
    h.shrink (le_refl _) (fun _ _ hl => hl)
      (fun k v hl => (FiniteMap.lookup_erase_eq_some.1 hl).2) (fun _ _ hl => hl)
  simp only [SessionManager.onTokenBindRequest] at hs
  split at hs
  · obtain rfl := Option.some_inj.1 hs
    exact h
  · next channel hl =>
    split at hs
    · obtain ⟨p, _, rfl⟩ := Option.map_eq_some_iff.1 hs
      exact herase.respond _ _
    · next c session hfind =>
      obtain ⟨hc, htok⟩ := FiniteMap.lookup_of_find? hfind
      split at hs
      · obtain ⟨p, rfl, rfl⟩ := Option.map_eq_some_iff.1 hs
        have htok' : session.token = token := by simpa using htok
        exact (h.bindSession hl hc (by rw [htok']; exact hr)).respond _ _
      · obtain ⟨p, _, rfl⟩ := Option.map_eq_some_iff.1 hs
        exact (herase.respond _ _).setStatus _ _

theorem Auth.endSession (h : Auth s) {cl : Option ClientId} (hs : s.endSession cl = some s') :
    Auth s' := by
  cases cl with
  | none =>
    obtain rfl := Option.some_inj.1 hs
    exact h
  | some c =>
    rw [SessionManager.endSession] at hs
    split at hs
    · obtain rfl := Option.some_inj.1 hs
      exact h
    · obtain ⟨d, _, hs⟩ := Option.bind_eq_some_iff.1 hs
      obtain ⟨u, _, rfl⟩ := Option.map_eq_some_iff.1 hs
      exact ((h.setStatus d .Disconnected).setStatus u .Disconnected).shrink (le_refl _)
        (fun _ _ hl => hl) (fun _ _ hl => hl)
        (fun _ _ hl => (FiniteMap.lookup_erase_eq_some.1 hl).2)

theorem Auth.onChannelStatus (h : Auth s) {e : ChannelStatusEvent}
    (hs : s.onChannelStatus e = some s') : Auth s' := by
  have herase : ∀ s₁, s.endSession e.clientId = some s₁ → Auth { s₁ with
      unauthorizedUpstreamMap := s₁.unauthorizedUpstreamMap.erase e.connectionId
      unauthorizedDownstreamMap := s₁.unauthorizedDownstreamMap.erase e.connectionId } :=
    fun s₁ hs₁ => (h.endSession hs₁).shrink (le_refl _)
      (fun _ _ hl => (FiniteMap.lookup_erase_eq_some.1 hl).2)
      (fun _ _ hl => (FiniteMap.lookup_erase_eq_some.1 hl).2) (fun _ _ hl => hl)
  rw [SessionManager.onChannelStatus] at hs
  split at hs
  · obtain rfl := Option.some_inj.1 hs
    exact h
  · obtain ⟨s₁, hs₁, rfl⟩ := Option.map_eq_some_iff.1 hs
    exact herase s₁ hs₁
  · obtain ⟨s₁, hs₁, rfl⟩ := Option.map_eq_some_iff.1 hs
    exact herase s₁ hs₁

/-- A status is written to the channel of its client's session. -/
theorem Auth.onOrderStatus (h : Auth s) (status : ServerOrderStatus) :
    Auth (s.onOrderStatus status) := by
  rw [SessionManager.onOrderStatus]
  split
  · exact h
  · next session hl =>
    split
    · next d hd =>
      obtain ⟨k, his, _⟩ := (h.session _ _ hl).down d hd
      obtain ⟨ch, hch, hkind, hk, hcl⟩ := his
      rw [writeStatus, hch]
      dsimp only
      split
      · refine h.record (fun _ ht => ht) (fun _ ht => ht) (fun _ he => .inl he)
          (fun _ ho => .inl ho) (fun w hw => ?_)
        rcases List.mem_append.1 hw with hw | hw
        · exact .inl hw
        · rw [List.mem_singleton.1 hw]
          exact .inr ⟨d, ch, hch, hkind, rfl, hcl⟩
      · exact h
    · exact h

/-! ### Closing -/

theorem Auth.closeIfSet (h : Auth s) (p : Option ChannelPtr) : Auth (s.closeIfSet p) := by
  cases p with
  | none => exact h
  | some p => exact h.setStatus p .Disconnected

/-- Closing one channel after the other. -/
theorem Auth.foldl {α : Type*} {f : SessionManager → α → SessionManager}
    (hf : ∀ s a, Auth s → Auth (f s a)) (l : List α) (h : Auth s) : Auth (l.foldl f s) := by
  induction l generalizing s with
  | nil => exact h
  | cons a l ih => exact ih (hf s a h)

theorem Auth.close (h : Auth s) : Auth s.close := by
  have hnone : ∀ {α β : Type} [DecidableEq α] (a : α) (b : β),
      (∅ : AList fun _ : α => β).lookup a ≠ some b := by
    intro α β _ a b hl
    rw [AList.lookup_empty] at hl
    exact Option.some_ne_none b hl.symm
  rw [SessionManager.close]
  refine Auth.shrink (Auth.foldl (fun s e h => h.closeIfSet e.2) _
    (Auth.foldl (fun s e h => h.closeIfSet e.2) _
      (Auth.foldl (fun s e h => (h.closeIfSet e.2.upstreamChannel).closeIfSet
        e.2.downstreamChannel) _ h))) (le_refl _)
    (fun k v hl => absurd hl (hnone k v)) (fun k v hl => absurd hl (hnone k v))
    (fun c ss hl => absurd hl (hnone c ss))

/-! ### Every run -/

theorem Auth.start : Auth .start where
  ids p ch hch := absurd hch (by simp [SessionManager.start])
  up k v hl := absurd hl (by simp [SessionManager.start])
  down k v hl := absurd hl (by simp [SessionManager.start])
  session c ss hl := absurd hl (by simp [SessionManager.start])
  tokens _ c ss c' ss' hl := absurd hl (by simp [SessionManager.start])
  clients p kind k c := by
    rintro ⟨ch, hch, _⟩
    exact absurd hch (by simp [SessionManager.start])
  pending e he := absurd he List.not_mem_nil
  orders o ho := absurd ho List.not_mem_nil
  statuses w hw := absurd hw List.not_mem_nil

theorem Auth.handle (h : Auth s) {e : SystemEvent} (he : s.EventOk e)
    (hs : s.handle e = some s') : Auth s' := by
  cases e with
  | serverLoginRequest k name password =>
    obtain rfl := Option.some_inj.1 hs
    exact h
  | serverLoginResponse r => exact h.onLoginResponse he hs
  | serverTokenBindRequest k token => exact h.onTokenBindRequest he hs
  | channelStatus e => exact h.onChannelStatus hs

theorem Auth.act (h : Auth s) {a : SessionAction} (hs : s.act a = some s') : Auth s' := by
  cases a with
  | acceptUpstream =>
    obtain rfl := Option.some_inj.1 hs
    exact h.accept .upstream
  | acceptDownstream =>
    obtain rfl := Option.some_inj.1 hs
    exact h.accept .downstream
  | receive p m =>
    obtain ⟨ch, hch, rfl⟩ := Option.map_eq_some_iff.1 hs
    exact h.sessionBusPost hch m
  | status p status =>
    obtain ⟨ch, hch, rfl⟩ := Option.map_eq_some_iff.1 hs
    exact h.onStatus p ch status
  | checkCredentials n result =>
    simp only [SessionManager.act] at hs
    split at hs
    · obtain rfl := Option.some_inj.1 hs
      exact (h.take n).authenticatorPost _ result
    · exact absurd hs (by simp)
  | handle n =>
    simp only [SessionManager.act] at hs
    split at hs
    · exact absurd hs (by simp)
    · next e _ he =>
      exact (h.take n).handle (h.pending e (List.mem_of_getElem? he)) hs
    · exact absurd hs (by simp)
  | orderStatus status =>
    obtain rfl := Option.some_inj.1 hs
    exact h.onOrderStatus status
  | close =>
    obtain rfl := Option.some_inj.1 hs
    exact h.close

theorem Auth.run {as : List SessionAction} (h : sessionMachine.Run as s) : Auth s := by
  refine h.invariant (fun s hs => ?_) (fun s a s' hI hs => ?_)
  · rw [show s = .start from hs]
    exact Auth.start
  · exact hI.act hs

end SessionManager
