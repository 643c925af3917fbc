/-
The connection limit.

`acceptUpstream` refuses a connection while `MAX_CONNECTIONS` sessions are open,
but a session is only opened later, when the login of an accepted connection is
answered.  Any number of accepted connections may be waiting by then.

* `change_of_act` — how one step changes the number of sessions;
* `limit_of_waiting` — the limit holds if connections are only accepted while the
  sessions and the connections that wait stay below it together;
* `connection_limit` — it holds as long as no login opens a session while it is
  reached, and such a login breaks it.
-/
import TradingPlatform.Session.Disconnect

namespace SessionManager

variable {s s' : SessionManager}

/-- The answer to a login opens a session. -/
def Opens (s : SessionManager) (r : ServerLoginResponse) : Prop :=
  r.ok = true ∧ r.clientId ∉ s.sessionsMap ∧
    ∃ p, s.unauthorizedUpstreamMap.lookup r.connectionId = some (some p)

/-- The action handles a login response that opens a session. -/
def OpensBy (s : SessionManager) (a : SessionAction) : Prop :=
  ∃ n r, a = .handle n ∧ s.pending[n]? = some (.serverLoginResponse r) ∧ s.Opens r

/-- Logins open a session only while there are fewer than `MAX_CONNECTIONS`. -/
def OpensBelowLimit (s : SessionManager) (a : SessionAction) : Prop :=
  s.OpensBy a → FiniteMap.size s.sessionsMap < maxConnections

/-! ### How the maps change -/

/-- The sessions and the upstream connections that wait are the same. -/
structure SameMaps (s s' : SessionManager) : Prop where
  sessions : s'.sessionsMap = s.sessionsMap
  up : s'.unauthorizedUpstreamMap = s.unauthorizedUpstreamMap

theorem SameMaps.busPost (s : SessionManager) (kind : ChannelKind) (e : SystemEvent) :
    SameMaps s (s.busPost kind e) := by
  rw [SessionManager.busPost]
  split
  · exact ⟨rfl, rfl⟩
  · exact ⟨rfl, rfl⟩

theorem SameMaps.sessionBusPost (s : SessionManager) (ch : SessionChannel) (m : DomainMessage) :
    SameMaps s (s.sessionBusPost ch m) := by
  cases m with
  | loginRequest name password =>
    rw [SessionManager.sessionBusPost]
    split
    · exact SameMaps.busPost s _ _
    · exact SameMaps.busPost s _ _
  | tokenBindRequest token =>
    rw [SessionManager.sessionBusPost]
    obtain ⟨hsessions, hup⟩ := SameMaps.busPost
      { s with presented := s.presented ++ [(ch.connectionId, token)] } ch.kind
      (.channelStatus ⟨ch.clientId, ch.connectionId, .Error⟩)
    obtain ⟨hsessions', hup'⟩ := SameMaps.busPost
      { s with presented := s.presented ++ [(ch.connectionId, token)] } ch.kind
      (.serverTokenBindRequest ch.connectionId token)
    split
    · exact ⟨hsessions, hup⟩
    · exact ⟨hsessions', hup'⟩
  | order id ticker quantity price action =>
    rw [SessionManager.sessionBusPost]
    split
    · exact SameMaps.busPost s _ _
    · split
      · exact ⟨rfl, rfl⟩
      · exact ⟨rfl, rfl⟩
  | loginResponse token ok error => exact ⟨rfl, rfl⟩
  | orderStatus orderId systemOrderId quantity fillPrice state => exact ⟨rfl, rfl⟩
  | tickerPrice ticker price => exact ⟨rfl, rfl⟩

theorem SameMaps.onStatus (s : SessionManager) (p : ChannelPtr) (ch : SessionChannel)
    (status : ConnectionStatus) : SameMaps s (s.onStatus p ch status) := by
  obtain ⟨hsessions, hup⟩ := SameMaps.busPost
    (s.modifyChannel p fun ch => { ch with status := status }) ch.kind
    (.channelStatus ⟨ch.clientId, ch.connectionId, status⟩)
  exact ⟨hsessions, hup⟩

theorem SameMaps.onOrderStatus (s : SessionManager) (status : ServerOrderStatus) :
    SameMaps s (s.onOrderStatus status) := by
  rw [SessionManager.onOrderStatus]
  split
  · exact ⟨rfl, rfl⟩
  · split
    · rw [writeStatus]
      split
      · split
        · exact ⟨rfl, rfl⟩
        · exact ⟨rfl, rfl⟩
      · exact ⟨rfl, rfl⟩
    · exact ⟨rfl, rfl⟩

/-- The answer to a login: one session more and one connection less that waits
if it opens a session, and otherwise the sessions are the same. -/
theorem sizes_onLoginResponse {r : ServerLoginResponse} (hs : s.onLoginResponse r = some s') :
    (s.Opens r ∧ FiniteMap.size s'.sessionsMap = FiniteMap.size s.sessionsMap + 1 ∧
      FiniteMap.size s'.unauthorizedUpstreamMap + 1 =
        FiniteMap.size s.unauthorizedUpstreamMap) ∨
    (¬ s.Opens r ∧ s'.sessionsMap = s.sessionsMap ∧
      FiniteMap.size s'.unauthorizedUpstreamMap ≤ FiniteMap.size s.unauthorizedUpstreamMap) := by
  simp only [onLoginResponse] at hs
  split at hs
  · next hl =>
    obtain rfl := Option.some_inj.1 hs
    refine .inr ⟨?_, rfl, le_refl _⟩
    rintro ⟨_, _, p, hp⟩
    exact Option.some_ne_none _ (hp.symm.trans hl)
  · next channel hl =>
    split at hs
    · obtain rfl := Option.some_inj.1 hs
      refine .inr ⟨?_, rfl, FiniteMap.size_erase_le⟩
      rintro ⟨_, _, p, hp⟩
      exact Option.some_ne_none p (Option.some_inj.1 (hp.symm.trans hl))
    · next p =>
      split at hs
      · next hok =>
        split at hs
        · next hmem =>
          obtain rfl := Option.some_inj.1 hs
          obtain ⟨responses, hresp⟩ := respond_eq _ p _
          rw [hresp]
          exact .inr ⟨fun hopens => hopens.2.1 hmem, rfl, FiniteMap.size_erase_le⟩
        · next hmem =>
          obtain rfl := Option.some_inj.1 hs
          obtain ⟨responses, hresp⟩ := respond_eq _ p _
          rw [hresp]
          exact .inl ⟨⟨hok, hmem, p, hl⟩, FiniteMap.size_insert hmem,
            FiniteMap.size_erase (FiniteMap.mem_of_lookup hl)⟩
      · next hok =>
        obtain rfl := Option.some_inj.1 hs
        obtain ⟨responses, hresp⟩ := respond_eq _ p _
        rw [hresp]
        exact .inr ⟨fun hopens => hok hopens.1, rfl, FiniteMap.size_erase_le⟩

/-- Binding a token overwrites the session it finds. -/
theorem sizes_onTokenBindRequest {k : ConnectionId} {token : Token}
    (hs : s.onTokenBindRequest k token = some s') :
    FiniteMap.size s'.sessionsMap = FiniteMap.size s.sessionsMap ∧
      s'.unauthorizedUpstreamMap = s.unauthorizedUpstreamMap := by
  simp only [onTokenBindRequest] at hs
  split at hs
  · obtain rfl := Option.some_inj.1 hs
    exact ⟨rfl, rfl⟩
  · split at hs
    · obtain ⟨p, _, rfl⟩ := Option.map_eq_some_iff.1 hs
      obtain ⟨responses, hresp⟩ := respond_eq _ p _
      rw [hresp]
      exact ⟨rfl, rfl⟩
    · next c session hfind =>
      have hmem := FiniteMap.mem_of_lookup (FiniteMap.lookup_of_find? hfind).1
      split at hs
      · obtain ⟨p, _, rfl⟩ := Option.map_eq_some_iff.1 hs
        obtain ⟨responses, hresp⟩ := respond_eq _ p _
        rw [hresp]
        exact ⟨FiniteMap.size_overwrite hmem, rfl⟩
      · obtain ⟨p, _, rfl⟩ := Option.map_eq_some_iff.1 hs
        obtain ⟨responses, hresp⟩ := respond_eq _ p _
        rw [hresp]
        exact ⟨rfl, rfl⟩

theorem sizes_endSession {cl : Option ClientId} (hs : s.endSession cl = some s') :
    FiniteMap.size s'.sessionsMap ≤ FiniteMap.size s.sessionsMap ∧
      s'.unauthorizedUpstreamMap = s.unauthorizedUpstreamMap := by
  cases cl with
  | none =>
    obtain rfl := Option.some_inj.1 hs
    exact ⟨le_refl _, rfl⟩
  | some c =>
    rw [endSession] at hs
    split at hs
    · obtain rfl := Option.some_inj.1 hs
      exact ⟨le_refl _, rfl⟩
    · obtain ⟨d, _, hs⟩ := Option.bind_eq_some_iff.1 hs
      obtain ⟨u, _, rfl⟩ := Option.map_eq_some_iff.1 hs
      exact ⟨FiniteMap.size_erase_le, rfl⟩

theorem sizes_onChannelStatus {e : ChannelStatusEvent} (hs : s.onChannelStatus e = some s') :
    FiniteMap.size s'.sessionsMap ≤ FiniteMap.size s.sessionsMap ∧
      FiniteMap.size s'.unauthorizedUpstreamMap ≤ FiniteMap.size s.unauthorizedUpstreamMap := by
  by_cases he : e.status = .Connected
  · rw [onChannelStatus, he] at hs
    obtain rfl := Option.some_inj.1 hs
    exact ⟨le_refl _, le_refl _⟩
  · rw [onChannelStatus_of_ne he] at hs
    obtain ⟨s₁, hs₁, rfl⟩ := Option.map_eq_some_iff.1 hs
    obtain ⟨hsessions, hup⟩ := sizes_endSession hs₁
    refine ⟨hsessions, ?_⟩
    rw [← hup]
    exact FiniteMap.size_erase_le

theorem sizes_accept (s : SessionManager) (kind : ChannelKind) :
    (s.accept kind).sessionsMap = s.sessionsMap ∧
      (FiniteMap.size (s.accept kind).unauthorizedUpstreamMap ≤
          FiniteMap.size s.unauthorizedUpstreamMap ∨
        kind = .upstream ∧ FiniteMap.size (s.accept kind).unauthorizedUpstreamMap ≤
          FiniteMap.size s.unauthorizedUpstreamMap + 1) := by
  rw [accept]
  split
  · exact ⟨rfl, .inl (le_refl _)⟩
  · cases kind with
    | upstream => exact ⟨rfl, .inr ⟨rfl, FiniteMap.size_insertNew_le⟩⟩
    | downstream => exact ⟨rfl, .inl (le_refl _)⟩

/-- What an action does to the sessions and to the upstream connections that
wait: only the answer to a login makes a session, out of a connection that waits,
and only `acceptUpstream` makes a connection wait. -/
inductive Change (s : SessionManager) (a : SessionAction) (s' : SessionManager) : Prop
  | opens (h : s.OpensBy a)
      (sessions : FiniteMap.size s'.sessionsMap = FiniteMap.size s.sessionsMap + 1)
      (up : FiniteMap.size s'.unauthorizedUpstreamMap + 1 =
        FiniteMap.size s.unauthorizedUpstreamMap)
  | waits (h : a = .acceptUpstream)
      (sessions : FiniteMap.size s'.sessionsMap = FiniteMap.size s.sessionsMap)
      (up : FiniteMap.size s'.unauthorizedUpstreamMap ≤
        FiniteMap.size s.unauthorizedUpstreamMap + 1)
  | fewer (h : ¬ s.OpensBy a)
      (sessions : FiniteMap.size s'.sessionsMap ≤ FiniteMap.size s.sessionsMap)
      (up : FiniteMap.size s'.unauthorizedUpstreamMap ≤
        FiniteMap.size s.unauthorizedUpstreamMap)

theorem not_opensBy {a : SessionAction} (h : ∀ n, a ≠ .handle n) : ¬ s.OpensBy a := by
  rintro ⟨n, r, ha, _⟩
  exact h n ha

theorem SameMaps.change (h : SameMaps s s') {a : SessionAction} (ha : ∀ n, a ≠ .handle n) :
    Change s a s' :=
  .fewer (not_opensBy ha) (le_of_eq (by rw [h.sessions])) (le_of_eq (by rw [h.up]))

theorem change_of_handle {n : ℕ} (hs : s.act (.handle n) = some s') :
    Change s (.handle n) s' := by
  simp only [act] at hs
  split at hs
  · exact absurd hs (by simp)
  · next e _ hn =>
    have hfewer : (∀ r, e ≠ .serverLoginResponse r) → ¬ s.OpensBy (.handle n) := by
      rintro hne ⟨n', r, ha, hr, _⟩
      obtain rfl := SessionAction.handle.inj ha
      exact hne r (Option.some_inj.1 (hn.symm.trans hr))
    cases e with
    | serverLoginRequest k name password =>
      obtain rfl := Option.some_inj.1 hs
      exact .fewer (hfewer fun r => SystemEvent.noConfusion) (le_refl _) (le_refl _)
    | serverLoginResponse r =>
      rcases sizes_onLoginResponse hs with ⟨hopens, hsessions, hup⟩ | ⟨hopens, hsessions, hup⟩
      · exact .opens ⟨n, r, rfl, hn, hopens⟩ hsessions hup
      · refine .fewer ?_ (le_of_eq (by rw [hsessions]; rfl)) hup
        rintro ⟨n', r', ha, hr, hopens'⟩
        obtain rfl := SessionAction.handle.inj ha
        obtain rfl := SystemEvent.serverLoginResponse.inj (Option.some_inj.1 (hn.symm.trans hr))
        exact hopens hopens'
    | serverTokenBindRequest k token =>
      obtain ⟨hsessions, hup⟩ := sizes_onTokenBindRequest hs
      exact .fewer (hfewer fun r => SystemEvent.noConfusion) (le_of_eq hsessions)
        (le_of_eq (by rw [hup]; rfl))
    | channelStatus e =>
      obtain ⟨hsessions, hup⟩ := sizes_onChannelStatus hs
      exact .fewer (hfewer fun r => SystemEvent.noConfusion) hsessions hup
  · exact absurd hs (by simp)

theorem change_of_act {a : SessionAction} (hs : s.act a = some s') : Change s a s' := by
  cases a with
  | acceptUpstream =>
    obtain rfl := Option.some_inj.1 hs
    obtain ⟨hsessions, hup⟩ := sizes_accept s .upstream
    refine .waits rfl (by rw [acceptUpstream, hsessions]) ?_
    rcases hup with hup | ⟨_, hup⟩
    · exact le_trans hup (Nat.le_succ _)
    · exact hup
  | acceptDownstream =>
    obtain rfl := Option.some_inj.1 hs
    obtain ⟨hsessions, hup⟩ := sizes_accept s .downstream
    refine .fewer (not_opensBy fun n => SessionAction.noConfusion)
      (le_of_eq (by rw [acceptDownstream, hsessions])) ?_
    rcases hup with hup | ⟨hkind, _⟩
    · exact hup
    · exact ChannelKind.noConfusion hkind
  | receive p m =>
    obtain ⟨ch, hch, rfl⟩ := Option.map_eq_some_iff.1 hs
    exact (SameMaps.sessionBusPost s ch m).change fun n => SessionAction.noConfusion
  | status p status =>
    obtain ⟨ch, hch, rfl⟩ := Option.map_eq_some_iff.1 hs
    exact (SameMaps.onStatus s p ch status).change fun n => SessionAction.noConfusion
  | checkCredentials n result =>
    simp only [act] at hs
    split at hs
    · obtain rfl := Option.some_inj.1 hs
      have hsame : ∀ k, SameMaps s ((s.take n).authenticatorPost k result) := by
        intro k
        cases result with
        | ok c => exact ⟨rfl, rfl⟩
        | error e => exact ⟨rfl, rfl⟩
      exact (hsame _).change fun n => SessionAction.noConfusion
    · exact absurd hs (by simp)
  | handle n => exact change_of_handle hs
  | orderStatus status =>
    obtain rfl := Option.some_inj.1 hs
    exact (SameMaps.onOrderStatus s status).change fun n => SessionAction.noConfusion
  | close =>
    obtain rfl := Option.some_inj.1 hs
    exact .fewer (not_opensBy fun n => SessionAction.noConfusion) (Nat.zero_le _)
      (Nat.zero_le _)

/-! ### The limit -/

/-- An upstream connection is accepted only while the sessions and the upstream
connections that wait are fewer than `MAX_CONNECTIONS` together. -/
def AcceptsBelowLimit (s : SessionManager) (a : SessionAction) : Prop :=
  a = .acceptUpstream →
    FiniteMap.size s.sessionsMap + FiniteMap.size s.unauthorizedUpstreamMap < maxConnections

/-- Counting the connections that wait when one is accepted keeps the limit. -/
theorem limit_of_waiting {as : List SessionAction}
    (h : (sessionMachine.restrict AcceptsBelowLimit).Run as s) :
    FiniteMap.size s.sessionsMap + FiniteMap.size s.unauthorizedUpstreamMap ≤
      maxConnections := by
  refine h.invariant (I := fun s => FiniteMap.size s.sessionsMap +
    FiniteMap.size s.unauthorizedUpstreamMap ≤ maxConnections) (fun s hs => ?_)
    (fun s a s' hI hs => ?_)
  · rw [show s = .start from hs]
    exact Nat.zero_le _
  · cases change_of_act hs.2 with
    | opens _ sessions up => omega
    | waits h sessions up =>
      have hlt := hs.1 h
      omega
    | fewer _ sessions up => omega

/-- The limit holds in every order of events in which no login opens a session
while `MAX_CONNECTIONS` sessions are open; a login that does breaks it.  None
does if the connections that wait are counted when one is accepted. -/
theorem connection_limit (as : List SessionAction) (s : SessionManager) :
    ((sessionMachine.restrict OpensBelowLimit).Run as s →
      FiniteMap.size s.sessionsMap ≤ maxConnections) ∧
    (sessionMachine.Run as s → ∀ a s', sessionMachine.step s a s' → ¬ s.OpensBelowLimit a →
      maxConnections < FiniteMap.size s'.sessionsMap) ∧
    ((sessionMachine.restrict AcceptsBelowLimit).Run as s →
      FiniteMap.size s.sessionsMap ≤ maxConnections) := by
  refine ⟨fun h => ?_, fun _ a s' hs hG => ?_,
    fun h => le_trans (Nat.le_add_right _ _) (limit_of_waiting h)⟩
  · refine h.invariant (I := fun s => FiniteMap.size s.sessionsMap ≤ maxConnections)
      (fun s hs => ?_) (fun s a s' hI hs => ?_)
    · rw [show s = .start from hs]
      exact Nat.zero_le _
    · cases change_of_act hs.2 with
      | opens h sessions _ =>
        have hlt := hs.1 h
        omega
      | waits _ sessions _ => omega
      | fewer _ sessions _ => omega
  · rw [OpensBelowLimit, Classical.not_imp] at hG
    cases change_of_act hs with
    | opens _ sessions _ => omega
    | waits h _ _ => exact absurd hG.1 (not_opensBy (by simp [h]))
    | fewer h _ _ => exact absurd hG.1 h

/-- `n` clients connect upstream, one after the other. -/
def acceptMany (n : ℕ) : List SessionAction := List.replicate n .acceptUpstream

/-- They log in, each as a client of its own. -/
def logInMany (n : ℕ) : List SessionAction :=
  (List.range n).flatMap fun p =>
    [.receive p (.loginRequest [110] [112]), .checkCredentials 0 (.ok (UInt32.ofNat p)),
      .handle 0]

/-- Eleven connections are accepted while no session is open, and all log in. -/
theorem connection_limit_passed :
    ¬ ∀ (as : List SessionAction) (s : SessionManager), sessionMachine.Run as s →
      FiniteMap.size s.sessionsMap ≤ maxConnections := by
  intro hall
  obtain ⟨s, hrun, hs⟩ := exists_run (acceptMany 11 ++ logInMany 11)
    (fun s => FiniteMap.size s.sessionsMap = 11) (by decide +kernel)
  have hle := hall _ s hrun
  rw [of_decide_eq_true hs] at hle
  exact absurd hle (by decide)

/-- A single client stays below the limit. -/
theorem connection_limit_logIn : ∃ s, (sessionMachine.restrict OpensBelowLimit).Run logIn s ∧
    FiniteMap.size s.sessionsMap = 1 ∧ FiniteMap.size s.sessionsMap ≤ maxConnections := by
  obtain ⟨s, hrun, hs⟩ := Machine.exists_run
    (M := sessionMachine.restrict fun s _ => FiniteMap.size s.sessionsMap < maxConnections)
    (Machine.restrict_step_of_guarded fun h => h) rfl logIn
    (fun s => FiniteMap.size s.sessionsMap = 1) (by decide +kernel)
  have hguard : ∀ s a, FiniteMap.size s.sessionsMap < maxConnections → OpensBelowLimit s a :=
    fun s a hlt _ => hlt
  have hrun' := hrun.restrict_mono hguard
  exact ⟨s, hrun', of_decide_eq_true hs, (connection_limit _ _).1 hrun'⟩

end SessionManager
