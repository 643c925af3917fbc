/-
Sessions belong to the clients that logged in.

As long as connection ids and tokens have not been used up, an id names one
connection (`channel_unique`), so the invariant of `Session.Invariant` can be
read off the ids: every connection is in one place, and what it may do is what it
was authenticated for.

* `authentication` — the whole statement, for every order of events;
* `fullSession` — a client that logs in, binds its downstream connection, sends
  an order and gets a status.
-/
import TradingPlatform.Session.Invariant

namespace SessionManager

variable {s : SessionManager}

/-- The sessions, in some order. -/
def sessions (s : SessionManager) : List Session := s.sessionsMap.entries.map fun e => e.2

/-- The id of the connection a pointer refers to. -/
def idAt (s : SessionManager) (p : Option ChannelPtr) : Option ConnectionId :=
  p.bind fun p => (s.channels p).map SessionChannel.connectionId

/-- The ids in the unauthorized maps and in the sessions. -/
def connectionIds (s : SessionManager) : List ConnectionId :=
  s.unauthorizedUpstreamMap.keys ++ s.unauthorizedDownstreamMap.keys ++
    s.sessions.filterMap (fun session => s.idAt session.upstreamChannel) ++
    s.sessions.filterMap (fun session => s.idAt session.downstreamChannel)

/-- Two channels with one id are one channel. -/
theorem channel_unique (h : Auth s) (hc : s.connections ≤ 2 ^ 32) {p q : ChannelPtr}
    {kind kind' : ChannelKind} {k : ConnectionId} {cl cl' : Option ClientId}
    (hp : s.Is p kind k cl) (hq : s.Is q kind' k cl') :
    p = q ∧ kind = kind' ∧ cl = cl' := by
  obtain ⟨ch, hch, hkind, hk, hcl⟩ := hp
  obtain ⟨ch', hch', hkind', hk', hcl'⟩ := hq
  obtain ⟨hid, hlt⟩ := h.ids p ch hch
  obtain ⟨hid', hlt'⟩ := h.ids q ch' hch'
  have hpq : p = q := by
    refine ofNat_mod_inj (lt_of_lt_of_le hlt hc) (lt_of_lt_of_le hlt' hc) ?_
    exact hid.symm.trans (hk.trans (hk'.symm.trans hid'))
  subst hpq
  obtain rfl := Option.some_inj.1 (hch.symm.trans hch')
  exact ⟨rfl, hkind.symm.trans hkind', hcl.symm.trans hcl'⟩

/-! ### What the ids in each place are -/

theorem mem_sessions {session : Session} (h : session ∈ s.sessions) :
    ∃ c, s.sessionsMap.lookup c = some session := by
  obtain ⟨⟨c, session'⟩, he, rfl⟩ := List.mem_map.1 h
  exact ⟨c, AList.mem_lookup_iff.2 he⟩

theorem is_of_upstream (h : Auth s) {c : ClientId} {session : Session} {k : ConnectionId}
    (hl : s.sessionsMap.lookup c = some session) (hk : s.idAt session.upstreamChannel = some k) :
    ∃ p, s.Is p .upstream k (some c) := by
  obtain ⟨p, k', hp, his⟩ := (h.session c session hl).up
  obtain ⟨ch, hch, hrest⟩ := id his
  rw [idAt, hp, Option.bind_some, hch, Option.map_some, hrest.2.1, Option.some_inj] at hk
  subst hk
  exact ⟨p, his⟩

theorem is_of_downstream (h : Auth s) {c : ClientId} {session : Session} {k : ConnectionId}
    (hl : s.sessionsMap.lookup c = some session)
    (hk : s.idAt session.downstreamChannel = some k) :
    ∃ d, s.Is d .downstream k (some c) := by
  cases hd : session.downstreamChannel with
  | none =>
    rw [hd] at hk
    exact absurd hk (by simp [idAt])
  | some d =>
    obtain ⟨k', his, _⟩ := (h.session c session hl).down d hd
    obtain ⟨ch, hch, hrest⟩ := id his
    rw [idAt, hd, Option.bind_some, hch, Option.map_some, hrest.2.1, Option.some_inj] at hk
    subst hk
    exact ⟨d, his⟩

/-- Ids that name a client's own channel occur once among the sessions. -/
theorem nodup_filterMap (h : Auth s) (hc : s.connections ≤ 2 ^ 32)
    {f : Session → Option ConnectionId} {kind : ChannelKind}
    (hf : ∀ c session k, s.sessionsMap.lookup c = some session → f session = some k →
      ∃ p, s.Is p kind k (some c)) : (s.sessions.filterMap f).Nodup := by
  rw [sessions, List.filterMap_map]
  refine List.pairwise_filterMap.2 ?_
  have hkeys := List.nodupKeys_iff_pairwise.1 s.sessionsMap.nodupKeys
  refine hkeys.imp_of_mem fun {e e'} he he' hne k hk k' hk' heq => hne ?_
  subst heq
  obtain ⟨p, hp⟩ := hf e.1 e.2 k (AList.mem_lookup_iff.2 he) hk
  obtain ⟨p', hp'⟩ := hf e'.1 e'.2 k (AList.mem_lookup_iff.2 he') hk'
  exact Option.some_inj.1 (channel_unique h hc hp hp').2.2

theorem connectionIds_nodup (h : Auth s) (hc : s.connections ≤ 2 ^ 32) :
    s.connectionIds.Nodup := by
  -- what an id of each of the four parts names
  have hup : ∀ k ∈ s.unauthorizedUpstreamMap.keys, ∃ p, s.Is p .upstream k none := by
    intro k hk
    obtain ⟨v, hl⟩ := FiniteMap.lookup_of_mem_keys hk
    obtain ⟨p, _, his⟩ := h.up k v hl
    exact ⟨p, his⟩
  have hdown : ∀ k ∈ s.unauthorizedDownstreamMap.keys, ∃ p, s.Is p .downstream k none := by
    intro k hk
    obtain ⟨v, hl⟩ := FiniteMap.lookup_of_mem_keys hk
    obtain ⟨p, _, his⟩ := h.down k v hl
    exact ⟨p, his⟩
  have hsup : ∀ k ∈ s.sessions.filterMap (fun session => s.idAt session.upstreamChannel),
      ∃ p c, s.Is p .upstream k (some c) := by
    intro k hk
    obtain ⟨session, hsession, hid⟩ := List.mem_filterMap.1 hk
    obtain ⟨c, hl⟩ := mem_sessions hsession
    obtain ⟨p, his⟩ := is_of_upstream h hl hid
    exact ⟨p, c, his⟩
  have hsdown : ∀ k ∈ s.sessions.filterMap (fun session => s.idAt session.downstreamChannel),
      ∃ p c, s.Is p .downstream k (some c) := by
    intro k hk
    obtain ⟨session, hsession, hid⟩ := List.mem_filterMap.1 hk
    obtain ⟨c, hl⟩ := mem_sessions hsession
    obtain ⟨p, his⟩ := is_of_downstream h hl hid
    exact ⟨p, c, his⟩
  refine List.Nodup.append (List.Nodup.append (List.Nodup.append
    (AList.keys_nodup _) (AList.keys_nodup _) ?_)
    (nodup_filterMap h hc fun c session k => is_of_upstream h) ?_)
    (nodup_filterMap h hc fun c session k => is_of_downstream h) ?_
  · intro k hk hk'
    obtain ⟨p, his⟩ := hup k hk
    obtain ⟨q, his'⟩ := hdown k hk'
    exact ChannelKind.noConfusion (channel_unique h hc his his').2.1
  · intro k hk hk'
    obtain ⟨q, c, his'⟩ := hsup k hk'
    rcases List.mem_append.1 hk with hk | hk
    · obtain ⟨p, his⟩ := hup k hk
      exact Option.some_ne_none c (channel_unique h hc his his').2.2.symm
    · obtain ⟨p, his⟩ := hdown k hk
      exact ChannelKind.noConfusion (channel_unique h hc his his').2.1
  · intro k hk hk'
    obtain ⟨q, c, his'⟩ := hsdown k hk'
    rcases List.mem_append.1 hk with hk | hk
    · rcases List.mem_append.1 hk with hk | hk
      · obtain ⟨p, his⟩ := hup k hk
        exact ChannelKind.noConfusion (channel_unique h hc his his').2.1
      · obtain ⟨p, his⟩ := hdown k hk
        exact Option.some_ne_none c (channel_unique h hc his his').2.2.symm
    · obtain ⟨p, c', his⟩ := hsup k hk
      exact ChannelKind.noConfusion (channel_unique h hc his his').2.1

theorem tokens_nodup (h : Auth s) (ht : s.tokens ≤ 2 ^ 32) :
    (s.sessions.map Session.token).Nodup := by
  rw [sessions, List.map_map]
  refine List.pairwise_map.2 ?_
  have hkeys := List.nodupKeys_iff_pairwise.1 s.sessionsMap.nodupKeys
  refine hkeys.imp_of_mem fun {e e'} he he' hne heq => hne ?_
  exact h.tokens ht e.1 e.2 e'.1 e'.2 (AList.mem_lookup_iff.2 he) (AList.mem_lookup_iff.2 he') heq

/-! ### Every order of events -/

/-- In every order of events, with fewer than `2 ^ 32` connections and logins: no
connection is in two places, tokens are distinct, channels that wait are
unauthenticated, the upstream channel of a session logged in as its client and
its downstream channel presented its token; so every order on the bus came from
an upstream connection that logged in as the client it names, and every status
for a client was written to a downstream connection that presented a token
issued to that client. -/
theorem authentication {as : List SessionAction} (h : sessionMachine.Run as s)
    (hc : s.connections ≤ 2 ^ 32) (ht : s.tokens ≤ 2 ^ 32) :
    s.connectionIds.Nodup ∧
    (s.sessions.map Session.token).Nodup ∧
    (∀ k v, s.unauthorizedUpstreamMap.lookup k = some v →
      ∃ p, v = some p ∧ s.Is p .upstream k none) ∧
    (∀ k v, s.unauthorizedDownstreamMap.lookup k = some v →
      ∃ p, v = some p ∧ s.Is p .downstream k none) ∧
    (∀ c session, s.sessionsMap.lookup c = some session →
      session.clientId = c ∧
      (∃ p k, session.upstreamChannel = some p ∧ s.Is p .upstream k (some c) ∧
        (k, c) ∈ s.granted) ∧
      (∀ d, session.downstreamChannel = some d →
        ∃ k, s.Is d .downstream k (some c) ∧ (k, session.token) ∈ s.presented)) ∧
    (∀ o ∈ s.orders, ∃ p, s.Is p .upstream o.1 (some o.2.clientId) ∧
      (o.1, o.2.clientId) ∈ s.granted) ∧
    (∀ w ∈ s.statuses, ∃ d, s.Is d .downstream w.1 (some w.2.clientId) ∧
      ∃ token, (w.1, token) ∈ s.presented ∧ (token, w.2.clientId) ∈ s.issued) := by
  have hI := Auth.run h
  refine ⟨connectionIds_nodup hI hc, tokens_nodup hI ht, hI.up, hI.down,
    fun c session hl => ?_, fun o ho => ?_, fun w hw => ?_⟩
  · have hok := hI.session c session hl
    obtain ⟨p, k, hp, his⟩ := hok.up
    exact ⟨hok.client, ⟨p, k, hp, his, hI.clients _ _ _ _ his⟩, hok.down⟩
  · obtain ⟨p, his⟩ := hI.orders o ho
    exact ⟨p, his, hI.clients _ _ _ _ his⟩
  · obtain ⟨d, his⟩ := hI.statuses w hw
    exact ⟨d, his, hI.clients _ _ _ _ his⟩

/-! ### A session -/

/-- A run of the machine, computed. -/
theorem exists_run (as : List SessionAction) (p : SessionManager → Bool)
    (h : (Machine.exec act .start as).any p = true) :
    ∃ s, sessionMachine.Run as s ∧ p s = true :=
  Machine.exists_run (M := sessionMachine) (fun h => h) rfl as p h

/-- A client connects upstream and logs in, as client 7. -/
def logIn : List SessionAction :=
  [.acceptUpstream, .receive 0 (.loginRequest [110] [112]), .checkCredentials 0 (.ok 7),
    .handle 0]

/-- It connects downstream and presents its token. -/
def bindToken : List SessionAction :=
  [.acceptDownstream, .receive 1 (.tokenBindRequest 0), .handle 0]

/-- A client that logs in, binds its downstream connection, sends an order and
is told about it. -/
def fullSession : List SessionAction :=
  logIn ++ bindToken ++ [.receive 0 (.order 1 (65, 65, 0, 0) 10 100 .Buy),
    .orderStatus ⟨7, ⟨1, 1, 10, 100, .Full⟩⟩]

theorem authentication_fullSession : ∃ s, sessionMachine.Run fullSession s ∧
    s.orders.length = 1 ∧ s.statuses.length = 1 ∧
    (∀ o ∈ s.orders, ∃ p, s.Is p .upstream o.1 (some o.2.clientId) ∧
      (o.1, o.2.clientId) ∈ s.granted) := by
  obtain ⟨s, hrun, hs⟩ := exists_run fullSession
    (fun s => s.orders.length = 1 ∧ s.statuses.length = 1 ∧ s.connections ≤ 2 ^ 32 ∧
      s.tokens ≤ 2 ^ 32) (by decide +kernel)
  obtain ⟨horders, hstatuses, hc, ht⟩ := of_decide_eq_true hs
  exact ⟨s, hrun, horders, hstatuses, (authentication hrun hc ht).2.2.2.2.2.1⟩

end SessionManager
