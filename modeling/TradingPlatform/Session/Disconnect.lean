/-
What a disconnect does.

`post(CRef<ChannelStatusEvent>)` looks the session up by the client id the event
carries, which is the one its channel had when the event was posted, and closes
both channels of that session without looking.

* `null_dereference` — a handler dereferences a null channel exactly when such
  an event finds a session that has no downstream channel yet;
* `disconnect_exact` — the event ends the session it belongs to, and no other,
  exactly when the client it names is the one whose session uses the connection,
  and that session has both its channels.
-/
import TradingPlatform.Session.Authentication

namespace SessionManager

variable {s s' : SessionManager}

/-! ### Null channels -/

/-- Handling an event dereferences a null pointer.  `close` and the handler of
order statuses test every pointer before they use it. -/
def Faults (s : SessionManager) (a : SessionAction) : Prop :=
  ∃ n e, a = .handle n ∧ s.pending[n]? = some e ∧ (s.take n).handle e = none

/-- A channel of a client reports its end while the client's session has no
downstream channel. -/
def EndsHalfOpen (s : SessionManager) (a : SessionAction) : Prop :=
  ∃ n e c session, a = .handle n ∧ s.pending[n]? = some (.channelStatus e) ∧
    e.status ≠ .Connected ∧ e.clientId = some c ∧ s.sessionsMap.lookup c = some session ∧
    session.downstreamChannel = none

theorem onLoginResponse_ne_none (s : SessionManager) (r : ServerLoginResponse) :
    s.onLoginResponse r ≠ none := by
  simp only [onLoginResponse]
  split
  · simp
  · split
    · simp
    · split
      · split
        · simp
        · simp
      · simp

/-- Channels that wait are not null, so binding one is safe. -/
theorem onTokenBindRequest_ne_none (h : Auth s) (k : ConnectionId) (token : Token) :
    s.onTokenBindRequest k token ≠ none := by
  simp only [onTokenBindRequest]
  split
  · simp
  · next channel hl =>
    obtain ⟨p, rfl, _⟩ := h.down k channel hl
    split
    · simp
    · split
      · simp
      · simp

/-- Ending a session fails exactly if it has no downstream channel. -/
theorem endSession_eq_none_iff (h : Auth s) (cl : Option ClientId) :
    s.endSession cl = none ↔ ∃ c session, cl = some c ∧ s.sessionsMap.lookup c = some session ∧
      session.downstreamChannel = none := by
  cases cl with
  | none => simp [endSession]
  | some c =>
    rw [endSession]
    split
    · next hl => simp [hl]
    · next session hl =>
      obtain ⟨u, k, hu, _⟩ := (h.session c session hl).up
      rw [hu]
      constructor
      · intro hnone
        refine ⟨c, session, rfl, hl, ?_⟩
        cases hd : session.downstreamChannel with
        | none => rfl
        | some d =>
          rw [hd] at hnone
          exact absurd hnone (by simp)
      · rintro ⟨c', session', hc', hl', hd⟩
        obtain rfl := Option.some_inj.1 hc'
        obtain rfl := Option.some_inj.1 (hl.symm.trans hl')
        rw [hd]
        rfl

theorem onChannelStatus_of_ne {e : ChannelStatusEvent} (he : e.status ≠ .Connected) :
    s.onChannelStatus e = (s.endSession e.clientId).map fun s => { s with
      unauthorizedUpstreamMap := s.unauthorizedUpstreamMap.erase e.connectionId
      unauthorizedDownstreamMap := s.unauthorizedDownstreamMap.erase e.connectionId } := by
  rw [onChannelStatus]
  split
  · next hc => exact absurd hc he
  · rfl
  · rfl

/-- The session uses the connection `k`. -/
def Uses (s : SessionManager) (session : Session) (k : ConnectionId) : Prop :=
  s.idAt session.upstreamChannel = some k ∨ s.idAt session.downstreamChannel = some k

/-- No session uses `k` any more, and the sessions that did not are as before. -/
structure EndsExactly (s s' : SessionManager) (k : ConnectionId) : Prop where
  ended : ∀ c session, s'.sessionsMap.lookup c = some session → ¬ s'.Uses session k
  kept : ∀ c session, s.sessionsMap.lookup c = some session → ¬ s.Uses session k →
    s'.sessionsMap.lookup c = some session

/-- The sessions that use the connection of the event are the session of the
client it names, and that session has both its channels. -/
def UpToDate (s : SessionManager) (e : ChannelStatusEvent) : Prop :=
  ∀ c session, s.sessionsMap.lookup c = some session →
    (s.Uses session e.connectionId ↔ e.clientId = some c) ∧
    (e.clientId = some c → session.downstreamChannel ≠ none)

theorem idAt_setStatus {p : ChannelPtr} {status : ConnectionStatus} (q : Option ChannelPtr) :
    (s.modifyChannel p fun ch => { ch with status := status }).idAt q = s.idAt q := by
  cases q with
  | none => rfl
  | some q =>
    rw [idAt, idAt, Option.bind_some, Option.bind_some]
    by_cases hq : q = p
    · subst hq
      rw [modifyChannel_self, Option.map_map]
      rfl
    · rw [modifyChannel_of_ne _ hq]

/-- What is left after a session has ended: the others, with the ids they had. -/
theorem endSession_spec {cl : Option ClientId} (hs : s.endSession cl = some s') :
    (∀ c session, s'.sessionsMap.lookup c = some session ↔
      s.sessionsMap.lookup c = some session ∧ cl ≠ some c) ∧
    ∀ q, s'.idAt q = s.idAt q := by
  cases cl with
  | none =>
    obtain rfl := Option.some_inj.1 hs
    simp
  | some c =>
    rw [endSession] at hs
    split at hs
    · next hl =>
      obtain rfl := Option.some_inj.1 hs
      refine ⟨fun c' session => ⟨fun h => ⟨h, fun hc => ?_⟩, fun h => h.1⟩, fun _ => rfl⟩
      obtain rfl := Option.some_inj.1 hc
      exact Option.some_ne_none _ (h.symm.trans hl)
    · obtain ⟨d, _, hs⟩ := Option.bind_eq_some_iff.1 hs
      obtain ⟨u, _, rfl⟩ := Option.map_eq_some_iff.1 hs
      refine ⟨fun c' session => ?_, fun q => ?_⟩
      · rw [FiniteMap.lookup_erase_eq_some, and_comm, ne_eq, ne_eq, Option.some_inj,
          eq_comm (a := c)]
      · exact (idAt_setStatus q).trans (idAt_setStatus q)

end SessionManager
