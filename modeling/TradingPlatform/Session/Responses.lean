/-
What the server answers to logins.

Most steps of the session manager leave alone who its channels are and what was
recorded (`Quiet`).  The others are few: a connection is accepted, a token is
presented, a login is granted, a request is refused, or a channel is welcomed,
which means that it is authenticated and told so.  `effect_of_act` says this once
for all steps.

* `Welcomed` — every positive answer went to a channel that was authenticated by
  then, it carries a token issued to the channel's client, and no connection gets a
  second one;
* `Welcomed.act`, `Welcomed.run` — in every step and in every run;
* `positive_answers` — what this says once ids and tokens are unique.
-/
import TradingPlatform.Session.Authentication

namespace SessionManager

variable {s s' s'' : SessionManager}

/-- Nothing changed in who the channels are and in what was recorded. -/
structure Quiet (s s' : SessionManager) : Prop where
  is_iff : ∀ {p kind k cl}, s'.Is p kind k cl ↔ s.Is p kind k cl
  connections : s'.connections = s.connections
  tokens : s'.tokens = s.tokens
  granted : s'.granted = s.granted
  presented : s'.presented = s.presented
  issued : s'.issued = s.issued
  responses : s'.responses = s.responses

namespace Quiet

theorem refl (s : SessionManager) : Quiet s s := ⟨Iff.rfl, rfl, rfl, rfl, rfl, rfl, rfl⟩

theorem trans (h : Quiet s s') (h' : Quiet s' s'') : Quiet s s'' where
  is_iff := h'.is_iff.trans h.is_iff
  connections := h'.connections.trans h.connections
  tokens := h'.tokens.trans h.tokens
  granted := h'.granted.trans h.granted
  presented := h'.presented.trans h.presented
  issued := h'.issued.trans h.issued
  responses := h'.responses.trans h.responses

theorem setStatus (s : SessionManager) (p : ChannelPtr) (status : ConnectionStatus) :
    Quiet s (s.modifyChannel p fun ch => { ch with status := status }) :=
  ⟨is_setStatus, rfl, rfl, rfl, rfl, rfl, rfl⟩

theorem busPost (s : SessionManager) (kind : ChannelKind) (e : SystemEvent) :
    Quiet s (s.busPost kind e) := by
  rw [SessionManager.busPost]
  split
  · exact ⟨Iff.rfl, rfl, rfl, rfl, rfl, rfl, rfl⟩
  · exact refl s

theorem writeStatus (s : SessionManager) (p : ChannelPtr) (status : ServerOrderStatus) :
    Quiet s (s.writeStatus p status) := by
  rw [SessionManager.writeStatus]
  split
  · split
    · exact ⟨Iff.rfl, rfl, rfl, rfl, rfl, rfl, rfl⟩
    · exact refl s
  · exact refl s

theorem onOrderStatus (s : SessionManager) (status : ServerOrderStatus) :
    Quiet s (s.onOrderStatus status) := by
  rw [SessionManager.onOrderStatus]
  split
  · exact refl s
  · split
    · exact writeStatus s _ status
    · exact refl s

theorem closeIfSet (s : SessionManager) (p : Option ChannelPtr) : Quiet s (s.closeIfSet p) := by
  cases p with
  | none => exact refl s
  | some p => exact setStatus s p .Disconnected

theorem foldl {α : Type*} {f : SessionManager → α → SessionManager}
    (hf : ∀ s a, Quiet s (f s a)) (l : List α) (s : SessionManager) : Quiet s (l.foldl f s) := by
  induction l generalizing s with
  | nil => exact refl s
  | cons a l ih => exact (hf s a).trans (ih (f s a))

theorem close (s : SessionManager) : Quiet s s.close := by
  have hsessions := foldl (fun s (e : Sigma fun _ : ClientId => Session) =>
    (closeIfSet s e.2.upstreamChannel).trans (closeIfSet _ e.2.downstreamChannel))
    s.sessionsMap.entries s
  have hwaiting : ∀ (l : List (Sigma fun _ : ConnectionId => Option ChannelPtr)) s,
      Quiet s (l.foldl (fun s e => s.closeIfSet e.2) s) :=
    foldl fun s e => closeIfSet s e.2
  exact ((hsessions.trans (hwaiting _ _)).trans (hwaiting _ _)).trans
    ⟨Iff.rfl, rfl, rfl, rfl, rfl, rfl, rfl⟩

theorem endSession {cl : Option ClientId} (hs : s.endSession cl = some s') : Quiet s s' := by
  cases cl with
  | none =>
    obtain rfl := Option.some_inj.1 hs
    exact refl s
  | some c =>
    rw [SessionManager.endSession] at hs
    split at hs
    · obtain rfl := Option.some_inj.1 hs
      exact refl s
    · obtain ⟨d, _, hs⟩ := Option.bind_eq_some_iff.1 hs
      obtain ⟨u, _, rfl⟩ := Option.map_eq_some_iff.1 hs
      exact ((setStatus s d .Disconnected).trans (setStatus _ u .Disconnected)).trans
        ⟨Iff.rfl, rfl, rfl, rfl, rfl, rfl, rfl⟩

theorem onChannelStatus {e : ChannelStatusEvent} (hs : s.onChannelStatus e = some s') :
    Quiet s s' := by
  have herase : ∀ s₁, s.endSession e.clientId = some s₁ → Quiet s { s₁ with
      unauthorizedUpstreamMap := s₁.unauthorizedUpstreamMap.erase e.connectionId
      unauthorizedDownstreamMap := s₁.unauthorizedDownstreamMap.erase e.connectionId } :=
    fun s₁ hs₁ => (endSession hs₁).trans ⟨Iff.rfl, rfl, rfl, rfl, rfl, rfl, rfl⟩
  rw [SessionManager.onChannelStatus] at hs
  split at hs
  · obtain rfl := Option.some_inj.1 hs
    exact refl s
  · obtain ⟨s₁, hs₁, rfl⟩ := Option.map_eq_some_iff.1 hs
    exact herase s₁ hs₁
  · obtain ⟨s₁, hs₁, rfl⟩ := Option.map_eq_some_iff.1 hs
    exact herase s₁ hs₁

end Quiet

/-! ### What a step does -/

/-- The message grants a login, or the binding of a token. -/
def isOk : DomainMessage → Bool
  | .loginResponse _ ok _ => ok
  | _ => false

/-- A channel that waits is authenticated as `c` and told so, unless its status
keeps it from being written to. -/
structure Welcome (s s' : SessionManager) (kind : ChannelKind) (p : ChannelPtr)
    (k : ConnectionId) (c : ClientId) (token : Token) : Prop where
  waiting : s.Is p kind k none
  is_iff : ∀ {q kind' k' cl}, q ≠ p → (s'.Is q kind' k' cl ↔ s.Is q kind' k' cl)
  is_self : s'.Is p kind k (some c)
  connections : s'.connections = s.connections
  granted : s'.granted = s.granted
  presented : s'.presented = s.presented
  responses : s'.responses = s.responses ∨
    s'.responses = s.responses ++ [(k, .loginResponse token true [])]

/-- Everything a step can do to channels and records. -/
inductive Effect (s : SessionManager) : SessionAction → SessionManager → Prop
  | quiet {a : SessionAction} {s' : SessionManager} : Quiet s s' → Effect s a s'
  | acceptUpstream : Effect s .acceptUpstream (s.accept .upstream)
  | acceptDownstream : Effect s .acceptDownstream (s.accept .downstream)
  | present {p : ChannelPtr} {ch : SessionChannel} {token : Token} {s' : SessionManager} :
      s.channels p = some ch →
      Quiet { s with presented := s.presented ++ [(ch.connectionId, token)] } s' →
      Effect s (.receive p (.tokenBindRequest token)) s'
  | grant {a : SessionAction} {k : ConnectionId} {c : ClientId} {s' : SessionManager} :
      Quiet { s with granted := s.granted ++ [(k, c)] } s' → Effect s a s'
  | refuse {n tokens : ℕ} {answers : List (ConnectionId × DomainMessage)} {s' : SessionManager} :
      s.tokens ≤ tokens → (∀ x ∈ answers, isOk x.2 = false) →
      Quiet { s with tokens := tokens, responses := s.responses ++ answers } s' →
      Effect s (.handle n) s'
  | logIn {n : ℕ} {p : ChannelPtr} {k : ConnectionId} {c : ClientId} {s' : SessionManager} :
      Welcome s s' .upstream p k c (genToken s.tokens) → s'.tokens = s.tokens + 1 →
      s'.issued = s.issued ++ [(genToken s.tokens, c)] → Effect s (.handle n) s'
  | bindToken {n : ℕ} {p : ChannelPtr} {k : ConnectionId} {c : ClientId} {token : Token}
      {s' : SessionManager} :
      Welcome s s' .downstream p k c token → s'.tokens = s.tokens → s'.issued = s.issued →
      (token, c) ∈ s.issued → (k, token) ∈ s.presented → Effect s (.handle n) s'

/-- What `respond` writes goes to the connection of the channel. -/
theorem respond_cases (s : SessionManager) (p : ChannelPtr) (m : DomainMessage) :
    s.respond p m = s ∨ ∃ ch, s.channels p = some ch ∧
      s.respond p m = { s with responses := s.responses ++ [(ch.connectionId, m)] } := by
  rw [respond]
  split
  · next ch hch =>
    split
    · exact .inr ⟨ch, hch, rfl⟩
    · exact .inl rfl
  · exact .inl rfl

/-- A negative answer, whether it is written or not. -/
theorem respond_refusal (s : SessionManager) (p : ChannelPtr) {m : DomainMessage}
    (hm : isOk m = false) : ∃ answers : List (ConnectionId × DomainMessage),
      (∀ x ∈ answers, isOk x.2 = false) ∧
      s.respond p m = { s with responses := s.responses ++ answers } := by
  rcases s.respond_cases p m with heq | ⟨ch, _, heq⟩
  · exact ⟨[], by simp, by rw [heq, List.append_nil]⟩
  · refine ⟨[(ch.connectionId, m)], ?_, heq⟩
    intro x hx
    rw [List.mem_singleton.1 hx]
    exact hm

/-- A positive answer goes to the connection of the channel that waits. -/
theorem respond_welcome {kind : ChannelKind} {p : ChannelPtr} {k : ConnectionId}
    {cl : Option ClientId} (h : s.Is p kind k cl) (m : DomainMessage) :
    s.respond p m = s ∨ s.respond p m = { s with responses := s.responses ++ [(k, m)] } := by
  rcases s.respond_cases p m with heq | ⟨ch, hch, heq⟩
  · exact .inl heq
  · obtain ⟨ch', hch', _, rfl, _⟩ := h
    obtain rfl := Option.some_inj.1 (hch.symm.trans hch')
    exact .inr heq

/-- Authenticating a channel that waits, after changes elsewhere. -/
theorem Welcome.of_authenticate {s₁ : SessionManager} {kind : ChannelKind} {p : ChannelPtr}
    {k : ConnectionId} {c : ClientId} {token : Token} (hwait : s.Is p kind k none)
    (hch : s₁.channels = s.channels) (hconn : s₁.connections = s.connections)
    (hgranted : s₁.granted = s.granted) (hpresented : s₁.presented = s.presented)
    (hresp : s₁.responses = s.responses ∨
      s₁.responses = s.responses ++ [(k, .loginResponse token true [])]) :
    Welcome s (s₁.authenticate p c) kind p k c token := by
  have hsame : ∀ {q kind' k' cl}, s₁.Is q kind' k' cl ↔ s.Is q kind' k' cl := by
    intro q kind' k' cl
    rw [Is, Is, hch]
  exact {
    waiting := hwait
    is_iff := fun hne => (is_authenticate_of_ne hne).trans hsame
    is_self := (is_authenticate_self (hsame.2 hwait)).2 ⟨rfl, rfl, rfl⟩
    connections := hconn
    granted := hgranted
    presented := hpresented
    responses := hresp }

theorem effect_onLoginResponse (h : Auth s) {n : ℕ} {r : ServerLoginResponse}
    (hs : s.onLoginResponse r = some s') : Effect s (.handle n) s' := by
  simp only [SessionManager.onLoginResponse] at hs
  split at hs
  · obtain rfl := Option.some_inj.1 hs
    exact .quiet (.refl s)
  · next channel hl =>
    obtain ⟨p, rfl, hwait⟩ := h.up _ _ hl
    simp only at hs
    split at hs
    · split at hs
      · obtain rfl := Option.some_inj.1 hs
        obtain ⟨answers, hno, heq⟩ := respond_refusal _ p (m := .loginResponse 0 false
          (text "Already authorized")) rfl
        rw [heq]
        exact .refuse (Nat.le_succ _) hno ⟨Iff.rfl, rfl, rfl, rfl, rfl, rfl, rfl⟩
      · obtain rfl := Option.some_inj.1 hs
        -- the answer is written before the channel is authenticated
        rcases respond_welcome (s := { s with
          unauthorizedUpstreamMap := s.unauthorizedUpstreamMap.erase r.connectionId
          tokens := s.tokens + 1
          sessionsMap := _, issued := _ }) hwait _ with heq | heq
        · rw [heq]
          exact .logIn (.of_authenticate hwait rfl rfl rfl rfl (.inl rfl)) rfl rfl
        · rw [heq]
          exact .logIn (.of_authenticate hwait rfl rfl rfl rfl (.inr rfl)) rfl rfl
    · obtain rfl := Option.some_inj.1 hs
      obtain ⟨answers, hno, heq⟩ := respond_refusal _ p (m := .loginResponse 0 false r.error) rfl
      rw [heq]
      exact .refuse (le_refl _) hno ⟨Iff.rfl, rfl, rfl, rfl, rfl, rfl, rfl⟩

theorem effect_onTokenBindRequest (h : Auth s) {n : ℕ} {k : ConnectionId} {token : Token}
    (hr : (k, token) ∈ s.presented) (hs : s.onTokenBindRequest k token = some s') :
    Effect s (.handle n) s' := by
  simp only [SessionManager.onTokenBindRequest] at hs
  split at hs
  · obtain rfl := Option.some_inj.1 hs
    exact .quiet (.refl s)
  · next channel hl =>
    obtain ⟨p, rfl, hwait⟩ := h.down _ _ hl
    simp only [Option.map_some] at hs
    split at hs
    · obtain rfl := Option.some_inj.1 hs
      obtain ⟨answers, hno, heq⟩ := respond_refusal _ p (m := .loginResponse 0 false
        (text "Invalid token")) rfl
      rw [heq]
      exact .refuse (le_refl _) hno ⟨Iff.rfl, rfl, rfl, rfl, rfl, rfl, rfl⟩
    · next c session hfind =>
      obtain ⟨hc, htok⟩ := FiniteMap.lookup_of_find? hfind
      obtain rfl : session.token = token := by simpa using htok
      have hok := h.session c session hc
      split at hs
      · obtain rfl := Option.some_inj.1 hs
        set s₁ : SessionManager := { s with
          unauthorizedDownstreamMap := s.unauthorizedDownstreamMap.erase k
          sessionsMap := s.sessionsMap.insert c { session with downstreamChannel := some p } }
        have hwelcome : Welcome s (s₁.authenticate p session.clientId) .downstream p k
            session.clientId session.token :=
          .of_authenticate hwait rfl rfl rfl rfl (.inl rfl)
        have hissued : (session.token, session.clientId) ∈ s.issued := by
          rw [hok.client]
          exact hok.issued
        rcases respond_welcome hwelcome.is_self (.loginResponse session.token true [])
          with heq | heq
        · rw [heq]
          exact .bindToken hwelcome rfl rfl hissued hr
        · rw [heq]
          exact .bindToken ⟨hwait, hwelcome.is_iff, hwelcome.is_self, rfl, rfl, rfl, .inr rfl⟩
            rfl rfl hissued hr
      · obtain rfl := Option.some_inj.1 hs
        obtain ⟨answers, hno, heq⟩ := respond_refusal _ p (m := .loginResponse 0 false
          (text "Already connected")) rfl
        rw [heq]
        exact .refuse (le_refl _) hno ⟨is_setStatus, rfl, rfl, rfl, rfl, rfl, rfl⟩

/-- Events and messages that concern no login. -/
theorem effect_receive {p : ChannelPtr} {ch : SessionChannel} (hch : s.channels p = some ch)
    (m : DomainMessage) : Effect s (.receive p m) (s.sessionBusPost ch m) := by
  cases m with
  | loginRequest name password =>
    rw [sessionBusPost]
    split
    · exact .quiet (.busPost s _ _)
    · exact .quiet (.busPost s _ _)
  | tokenBindRequest token =>
    rw [sessionBusPost]
    split
    · exact .present hch (.busPost _ _ _)
    · exact .present hch (.busPost _ _ _)
  | order id ticker quantity price action =>
    rw [sessionBusPost]
    split
    · exact .quiet (.busPost s _ _)
    · split
      · exact .quiet ⟨Iff.rfl, rfl, rfl, rfl, rfl, rfl, rfl⟩
      · exact .quiet (.refl s)
  | loginResponse token ok error => exact .quiet (.refl s)
  | orderStatus orderId systemOrderId quantity fillPrice state => exact .quiet (.refl s)
  | tickerPrice ticker price => exact .quiet (.refl s)

theorem Quiet.take (s : SessionManager) (n : ℕ) : Quiet s (s.take n) :=
  ⟨Iff.rfl, rfl, rfl, rfl, rfl, rfl, rfl⟩

/-- The event that is handled is taken out of the queue, which changes no more. -/
theorem Effect.of_take {m n : ℕ} (h : Effect (s.take m) (.handle n) s') :
    Effect s (.handle n) s' := by
  cases h with
  | quiet hq => exact .quiet ((Quiet.take s m).trans hq)
  | grant hq =>
    exact .grant ⟨hq.is_iff, hq.connections, hq.tokens, hq.granted, hq.presented, hq.issued,
      hq.responses⟩
  | refuse htok hno hq =>
    exact .refuse htok hno ⟨hq.is_iff, hq.connections, hq.tokens, hq.granted, hq.presented,
      hq.issued, hq.responses⟩
  | logIn hw htok hissued =>
    exact .logIn ⟨hw.waiting, hw.is_iff, hw.is_self, hw.connections, hw.granted, hw.presented,
      hw.responses⟩ htok hissued
  | bindToken hw htok hissued hmem hpres =>
    exact .bindToken ⟨hw.waiting, hw.is_iff, hw.is_self, hw.connections, hw.granted,
      hw.presented, hw.responses⟩ htok hissued hmem hpres

theorem effect_of_act (h : Auth s) {a : SessionAction} (hs : s.act a = some s') :
    Effect s a s' := by
  cases a with
  | acceptUpstream =>
    obtain rfl := Option.some_inj.1 hs
    exact .acceptUpstream
  | acceptDownstream =>
    obtain rfl := Option.some_inj.1 hs
    exact .acceptDownstream
  | receive p m =>
    obtain ⟨ch, hch, rfl⟩ := Option.map_eq_some_iff.1 hs
    exact effect_receive hch m
  | status p status =>
    obtain ⟨ch, hch, rfl⟩ := Option.map_eq_some_iff.1 hs
    exact .quiet ((Quiet.setStatus s p status).trans (.busPost _ _ _))
  | checkCredentials n result =>
    simp only [SessionManager.act] at hs
    split at hs
    · obtain rfl := Option.some_inj.1 hs
      cases result with
      | error e => exact .quiet ⟨Iff.rfl, rfl, rfl, rfl, rfl, rfl, rfl⟩
      | ok c => exact .grant ⟨Iff.rfl, rfl, rfl, rfl, rfl, rfl, rfl⟩
    · exact absurd hs (by simp)
  | handle n =>
    simp only [SessionManager.act] at hs
    split at hs
    · exact absurd hs (by simp)
    · next e _ he =>
      have hok := (h.take n).pending
      have heok := h.pending e (List.mem_of_getElem? he)
      refine Effect.of_take (m := n) ?_
      cases e with
      | serverLoginRequest k name password =>
        obtain rfl := Option.some_inj.1 hs
        exact .quiet (.refl _)
      | serverLoginResponse r => exact effect_onLoginResponse (h.take n) hs
      | serverTokenBindRequest k token => exact effect_onTokenBindRequest (h.take n) heok hs
      | channelStatus e => exact .quiet (.onChannelStatus hs)
    · exact absurd hs (by simp)
  | orderStatus status =>
    obtain rfl := Option.some_inj.1 hs
    exact .quiet (.onOrderStatus s status)
  | close =>
    obtain rfl := Option.some_inj.1 hs
    exact .quiet (.close s)

/-! ### Steps forget nothing -/

/-- After a step there are channels where there were, for the same connections. -/
def Keeps (s s' : SessionManager) : Prop :=
  s.connections ≤ s'.connections ∧
    ∀ p kind k cl, s.Is p kind k cl → ∃ cl', s'.Is p kind k cl' ∧ (cl.isSome → cl' = cl)

theorem Keeps.of_iff (hconn : s.connections ≤ s'.connections)
    (his : ∀ {p kind k cl}, s'.Is p kind k cl ↔ s.Is p kind k cl) : Keeps s s' := by
  constructor
  · exact hconn
  · intro p kind k cl h
    exact ⟨cl, his.2 h, fun _ => rfl⟩

theorem Keeps.accept (h : Auth s) (kind : ChannelKind) : Keeps s (s.accept kind) := by
  rw [SessionManager.accept]
  split
  · exact .of_iff (Nat.le_succ _) Iff.rfl
  · have hnew : ∀ p kind' k cl, s.Is p kind' k cl → (s.create kind).Is p kind' k cl := by
      rintro p kind' k cl ⟨ch, hch, his⟩
      have hne : p ≠ s.connections := ne_of_lt (h.ids p ch hch).2
      exact ⟨ch, by rw [create_of_ne s kind hne, hch], his⟩
    constructor
    · cases kind with
      | upstream => exact Nat.le_succ _
      | downstream => exact Nat.le_succ _
    · intro p kind' k cl his
      refine ⟨cl, ?_, fun _ => rfl⟩
      cases kind with
      | upstream => exact hnew p kind' k cl his
      | downstream => exact hnew p kind' k cl his

/-- The channel of a connection that was taken. -/
theorem accept_is {kind : ChannelKind} {ch : SessionChannel}
    (hnew : s.channels s.connections = none)
    (hch : (s.accept kind).channels s.connections = some ch) :
    (s.accept kind).Is s.connections kind (genConnectionId s.connections) none := by
  rw [SessionManager.accept] at hch ⊢
  split at hch
  · rw [hnew] at hch
    exact absurd hch (Option.some_ne_none _).symm
  · next hroom =>
    rw [if_neg hroom]
    cases kind with
    | upstream => exact ⟨_, s.create_self _, rfl, rfl, rfl⟩
    | downstream => exact ⟨_, s.create_self _, rfl, rfl, rfl⟩

theorem Welcome.keeps {kind : ChannelKind} {p : ChannelPtr} {k : ConnectionId} {c : ClientId}
    {token : Token} (hw : Welcome s s' kind p k c token) : Keeps s s' := by
  constructor
  · exact hw.connections.ge
  · intro q kind' k' cl his
    by_cases hq : q = p
    · subst hq
      obtain ⟨rfl, rfl, rfl⟩ := his.unique hw.waiting
      exact ⟨some c, hw.is_self, fun hsome => absurd hsome (by simp)⟩
    · exact ⟨cl, (hw.is_iff hq).2 his, fun _ => rfl⟩

theorem Effect.keeps (h : Auth s) {a : SessionAction} (he : Effect s a s') : Keeps s s' := by
  cases he with
  | quiet hq => exact .of_iff hq.connections.ge hq.is_iff
  | acceptUpstream => exact .accept h .upstream
  | acceptDownstream => exact .accept h .downstream
  | present _ hq => exact .of_iff hq.connections.ge hq.is_iff
  | grant hq => exact .of_iff hq.connections.ge hq.is_iff
  | refuse _ _ hq => exact .of_iff hq.connections.ge hq.is_iff
  | logIn hw _ _ => exact hw.keeps
  | bindToken hw _ _ _ _ => exact hw.keeps

theorem accept_records (s : SessionManager) (kind : ChannelKind) :
    (s.accept kind).tokens = s.tokens ∧ (s.accept kind).granted = s.granted ∧
      (s.accept kind).presented = s.presented ∧ (s.accept kind).issued = s.issued ∧
      (s.accept kind).responses = s.responses := by
  rw [SessionManager.accept]
  split
  · exact ⟨rfl, rfl, rfl, rfl, rfl⟩
  · cases kind with
    | upstream => exact ⟨rfl, rfl, rfl, rfl, rfl⟩
    | downstream => exact ⟨rfl, rfl, rfl, rfl, rfl⟩

theorem Effect.grows (h : Auth s) {a : SessionAction} (he : Effect s a s') : Grows s s' := by
  have same : ∀ {β : Type} {l l' : List β}, l' = l → l ⊆ l' := by
    intro β l l' heq
    rw [heq]
    exact List.Subset.refl l
  have more : ∀ {β : Type} {l l' m : List β}, l' = l ++ m → l ⊆ l' := by
    intro β l l' m heq
    rw [heq]
    exact List.subset_append_left l m
  have hauth : ∀ p kind k c, s.Is p kind k (some c) → s'.Is p kind k (some c) := by
    intro p kind k c his
    obtain ⟨cl', his', heq⟩ := (he.keeps h).2 p kind k _ his
    rwa [heq rfl] at his'
  have haccept : ∀ kind, s' = s.accept kind → Grows s s' := by
    intro kind heq
    obtain ⟨htok, hgr, hpr, hiss, _⟩ := s.accept_records kind
    subst heq
    exact ⟨same hgr, same hpr, same hiss, htok.ge, hauth⟩
  cases he with
  | quiet hq =>
    exact ⟨same hq.granted, same hq.presented, same hq.issued,
      hq.tokens.ge, hauth⟩
  | acceptUpstream => exact haccept .upstream rfl
  | acceptDownstream => exact haccept .downstream rfl
  | present _ hq =>
    exact ⟨same hq.granted, more hq.presented,
      same hq.issued, hq.tokens.ge, hauth⟩
  | grant hq =>
    exact ⟨more hq.granted, same hq.presented,
      same hq.issued, hq.tokens.ge, hauth⟩
  | refuse htok _ hq =>
    exact ⟨same hq.granted, same hq.presented, same hq.issued,
      htok.trans hq.tokens.ge, hauth⟩
  | logIn hw htok hissued =>
    exact ⟨same hw.granted, same hw.presented,
      more hissued, (Nat.le_succ _).trans htok.ge, hauth⟩
  | bindToken hw htok hissued _ _ =>
    exact ⟨same hw.granted, same hw.presented, same hissued, htok.ge,
      hauth⟩

/-- Only a request that comes in on a connection presents a token there. -/
theorem Effect.presented {a : SessionAction} (he : Effect s a s') :
    s'.presented = s.presented ∨ ∃ p ch token, a = .receive p (.tokenBindRequest token) ∧
      s.channels p = some ch ∧ s'.presented = s.presented ++ [(ch.connectionId, token)] := by
  cases he with
  | quiet hq => exact .inl hq.presented
  | acceptUpstream => exact .inl (s.accept_records .upstream).2.2.1
  | acceptDownstream => exact .inl (s.accept_records .downstream).2.2.1
  | present hch hq => exact .inr ⟨_, _, _, rfl, hch, hq.presented⟩
  | grant hq => exact .inl hq.presented
  | refuse _ _ hq => exact .inl hq.presented
  | logIn hw _ _ => exact .inl hw.presented
  | bindToken hw _ _ _ _ => exact .inl hw.presented

/-- Answers are added at the end. -/
theorem Effect.responses {a : SessionAction} (he : Effect s a s') :
    s.responses <+: s'.responses := by
  have same : s'.responses = s.responses → s.responses <+: s'.responses := by
    intro heq
    exact ⟨[], by rw [heq, List.append_nil]⟩
  have welcome : ∀ {m}, s'.responses = s.responses ∨ s'.responses = s.responses ++ [m] →
      s.responses <+: s'.responses := by
    intro m hresp
    rcases hresp with hresp | hresp
    · exact same hresp
    · exact ⟨[m], hresp.symm⟩
  cases he with
  | quiet hq => exact same hq.responses
  | acceptUpstream => exact same (s.accept_records .upstream).2.2.2.2
  | acceptDownstream => exact same (s.accept_records .downstream).2.2.2.2
  | present _ hq => exact same hq.responses
  | grant hq => exact same hq.responses
  | refuse _ _ hq => exact ⟨_, hq.responses.symm⟩
  | logIn hw _ _ => exact welcome hw.responses
  | bindToken hw _ _ _ _ => exact welcome hw.responses

/-! ### Positive answers -/

/-- The positive answers written to connection `k`. -/
def okAnswers (s : SessionManager) (k : ConnectionId) : List (ConnectionId × DomainMessage) :=
  s.responses.filter fun x => x.1 == k && isOk x.2

/-- What a positive answer stands for. -/
structure AnswerOk (s : SessionManager) (k : ConnectionId) (token : Token) : Prop where
  welcomed : ∃ p kind c, s.Is p kind k (some c) ∧ (token, c) ∈ s.issued ∧
    (kind = .downstream → (k, token) ∈ s.presented)

theorem AnswerOk.grows (hg : Grows s s') {k : ConnectionId} {token : Token}
    (h : s.AnswerOk k token) : s'.AnswerOk k token := by
  obtain ⟨p, kind, c, his, hissued, hpres⟩ := h.welcomed
  exact ⟨p, kind, c, hg.authenticated _ _ _ _ his, hg.issued hissued,
    fun hk => hg.presented (hpres hk)⟩

/-- The invariant of the answers. -/
structure Welcomed (s : SessionManager) : Prop where
  answer : ∀ k token error, (k, .loginResponse token true error) ∈ s.responses →
    s.AnswerOk k token
  once : s.connections ≤ 2 ^ 32 → ∀ k, (s.okAnswers k).length ≤ 1
  numbered : ∀ x ∈ s.issued, ∃ n < s.tokens, x.1 = genToken n
  issued : s.tokens ≤ 2 ^ 32 → ∀ token c c', (token, c) ∈ s.issued → (token, c') ∈ s.issued →
    c = c'

theorem Welcomed.start : Welcomed .start where
  answer _ _ _ h := absurd h (List.not_mem_nil)
  once _ _ := Nat.zero_le 1
  numbered _ h := absurd h (List.not_mem_nil)
  issued _ _ _ _ h := absurd h (List.not_mem_nil)

/-- The invariant survives steps that welcome nobody and issue no token. -/
theorem Welcomed.of_refusals (h : Welcomed s) (hg : Grows s s')
    (hconn : s.connections ≤ s'.connections) {answers : List (ConnectionId × DomainMessage)}
    (hno : ∀ x ∈ answers, isOk x.2 = false) (hresp : s'.responses = s.responses ++ answers)
    (hissued : s'.issued = s.issued) : Welcomed s' where
  answer k token error hmem := by
    rw [hresp, List.mem_append] at hmem
    rcases hmem with hmem | hmem
    · exact (h.answer k token error hmem).grows hg
    · exact absurd (hno _ hmem) (by simp [isOk])
  once hc k := by
    have hnil : answers.filter (fun x => x.1 == k && isOk x.2) = [] := by
      rw [List.filter_eq_nil_iff]
      intro x hx
      simp [hno x hx]
    rw [okAnswers, hresp, List.filter_append, hnil, List.append_nil]
    exact h.once (hconn.trans hc) k
  numbered x hx := by
    obtain ⟨n, hn, heq⟩ := h.numbered x (hissued ▸ hx)
    exact ⟨n, lt_of_lt_of_le hn hg.tokens, heq⟩
  issued ht := by
    rw [hissued]
    exact h.issued (hg.tokens.trans ht)

/-- A channel that waits was never welcomed before. -/
theorem Welcomed.okAnswers_eq_nil (h : Welcomed s) (hI : Auth s) (hc : s.connections ≤ 2 ^ 32)
    {p : ChannelPtr} {kind : ChannelKind} {k : ConnectionId} (hwait : s.Is p kind k none) :
    s.okAnswers k = [] := by
  rw [okAnswers, List.filter_eq_nil_iff]
  rintro ⟨k', m⟩ hmem hok
  rw [Bool.and_eq_true, beq_iff_eq] at hok
  obtain ⟨rfl, hok⟩ := hok
  cases m with
  | loginResponse token ok error =>
    obtain rfl : ok = true := hok
    obtain ⟨q, kind', c, his, _⟩ := (h.answer k' token error hmem).welcomed
    exact Option.some_ne_none c (channel_unique hI hc his hwait).2.2
  | _ => exact absurd hok (by simp [isOk])

/-- A channel that waits is welcomed with a token of its client. -/
theorem Welcomed.welcome (h : Welcomed s) (hI : Auth s) (hg : Grows s s') {kind : ChannelKind}
    {p : ChannelPtr} {k : ConnectionId} {c : ClientId} {token : Token}
    (hw : Welcome s s' kind p k c token) (htoken : (token, c) ∈ s'.issued)
    (hpres : kind = .downstream → (k, token) ∈ s'.presented)
    (hnum : ∀ x ∈ s'.issued, ∃ n < s'.tokens, x.1 = genToken n)
    (hissued : s'.tokens ≤ 2 ^ 32 → ∀ token c c', (token, c) ∈ s'.issued →
      (token, c') ∈ s'.issued → c = c') : Welcomed s' where
  answer k' token' error hmem := by
    have hold : (k', DomainMessage.loginResponse token' true error) ∈ s.responses →
        s'.AnswerOk k' token' := fun hmem => (h.answer _ _ _ hmem).grows hg
    rcases hw.responses with hresp | hresp
    · exact hold (hresp ▸ hmem)
    · rw [hresp, List.mem_append, List.mem_singleton] at hmem
      rcases hmem with hmem | hmem
      · exact hold hmem
      · rw [Prod.mk.injEq, DomainMessage.loginResponse.injEq] at hmem
        obtain ⟨rfl, rfl, _⟩ := hmem
        exact ⟨p, kind, c, hw.is_self, htoken, hpres⟩
  once hc k' := by
    rw [hw.connections] at hc
    rcases hw.responses with hresp | hresp
    · rw [okAnswers, hresp]
      exact h.once hc k'
    · rw [okAnswers, hresp, List.filter_append, List.length_append]
      by_cases hk : k = k'
      · subst hk
        have hnil := h.okAnswers_eq_nil hI hc hw.waiting
        rw [okAnswers] at hnil
        rw [hnil, List.length_nil, Nat.zero_add]
        exact List.length_filter_le _ _
      · have hold := h.once hc k'
        rw [okAnswers] at hold
        simpa [hk] using hold
  numbered := hnum
  issued := hissued

theorem Welcomed.act (h : Welcomed s) (hI : Auth s) {a : SessionAction}
    (hs : s.act a = some s') : Welcomed s' := by
  have he := effect_of_act hI hs
  have hg := he.grows hI
  have hconn := (he.keeps hI).1
  have hquiet : s'.responses = s.responses → s'.issued = s.issued → Welcomed s' :=
    fun hresp hissued => h.of_refusals hg hconn (fun _ hx => absurd hx List.not_mem_nil)
      (hresp.trans (List.append_nil _).symm) hissued
  cases he with
  | quiet hq => exact hquiet hq.responses hq.issued
  | acceptUpstream =>
    have hrec := s.accept_records .upstream
    exact hquiet hrec.2.2.2.2 hrec.2.2.2.1
  | acceptDownstream =>
    have hrec := s.accept_records .downstream
    exact hquiet hrec.2.2.2.2 hrec.2.2.2.1
  | present _ hq => exact hquiet hq.responses hq.issued
  | grant hq => exact hquiet hq.responses hq.issued
  | refuse _ hno hq => exact h.of_refusals hg hconn hno hq.responses hq.issued
  | logIn hw htok hissued =>
    rename_i n p k c
    refine h.welcome hI hg hw ?_ (fun hk => ChannelKind.noConfusion hk) ?_ ?_
    · rw [hissued]
      exact List.mem_append_right _ (List.mem_singleton_self _)
    · intro x hx
      rw [hissued, List.mem_append, List.mem_singleton] at hx
      rw [htok]
      rcases hx with hx | rfl
      · obtain ⟨m, hm, heq⟩ := h.numbered x hx
        exact ⟨m, Nat.lt_succ_of_lt hm, heq⟩
      · exact ⟨s.tokens, Nat.lt_succ_self _, rfl⟩
    · intro ht token c₁ c₂ h₁ h₂
      rw [htok] at ht
      -- the new token is none of the older ones
      have hnew : ∀ c', (genToken s.tokens, c') ∉ s.issued := by
        intro c' hmem
        obtain ⟨m, hm, heq⟩ := h.numbered _ hmem
        exact absurd (ofNat_mod_inj ht (lt_trans hm ht) heq) (ne_of_gt hm)
      rw [hissued, List.mem_append, List.mem_singleton, Prod.mk.injEq] at h₁ h₂
      rcases h₁ with h₁ | ⟨rfl, rfl⟩
      · rcases h₂ with h₂ | ⟨rfl, rfl⟩
        · exact h.issued (Nat.le_of_succ_le ht) token c₁ c₂ h₁ h₂
        · exact absurd h₁ (hnew c₁)
      · rcases h₂ with h₂ | ⟨_, rfl⟩
        · exact absurd h₂ (hnew c₂)
        · rfl
  | bindToken hw htok hissued hmem hpres =>
    refine h.welcome hI hg hw (hg.issued hmem) (fun _ => hg.presented hpres) ?_ ?_
    · rw [hissued, htok]
      exact h.numbered
    · rw [hissued, htok]
      exact h.issued

theorem Welcomed.run {as : List SessionAction} (h : sessionMachine.Run as s) : Welcomed s := by
  have hboth : Auth s ∧ Welcomed s := by
    refine h.invariant (I := fun s => Auth s ∧ Welcomed s) ?_ ?_
    · rintro s rfl
      exact ⟨.start, .start⟩
    · intro s a s' hI hs
      exact ⟨hI.1.act hs, hI.2.act hI.1 hs⟩
  exact hboth.2

/-- In every order of events, with fewer than `2 ^ 32` connections and logins: a
connection is told at most once that it is logged in or bound, and then it is
authenticated, as the only client the token in the answer was ever issued to; an
upstream connection was granted a login as this client, a downstream connection had
presented this token. -/
theorem positive_answers {as : List SessionAction} (h : sessionMachine.Run as s)
    (hc : s.connections ≤ 2 ^ 32) (ht : s.tokens ≤ 2 ^ 32) :
    (∀ k, (s.okAnswers k).length ≤ 1) ∧
    ∀ k token error, (k, .loginResponse token true error) ∈ s.responses →
      ∃ p kind c, s.Is p kind k (some c) ∧ (token, c) ∈ s.issued ∧
        (∀ c', (token, c') ∈ s.issued → c' = c) ∧
        (kind = .upstream → (k, c) ∈ s.granted) ∧
        (kind = .downstream → (k, token) ∈ s.presented) := by
  have hI := Auth.run h
  have hw := Welcomed.run h
  refine ⟨hw.once hc, ?_⟩
  intro k token error hmem
  obtain ⟨p, kind, c, his, hissued, hpres⟩ := (hw.answer k token error hmem).welcomed
  refine ⟨p, kind, c, his, hissued, ?_, ?_, hpres⟩
  · intro c' hissued'
    exact hw.issued ht token c' c hissued' hissued
  · rintro rfl
    exact hI.clients _ _ _ _ his

theorem positive_answers_fullSession : ∃ s, sessionMachine.Run fullSession s ∧
    (genConnectionId 1, .loginResponse 0 true []) ∈ s.responses ∧
    (s.okAnswers (genConnectionId 1)).length ≤ 1 := by
  obtain ⟨s, hrun, hs⟩ := exists_run fullSession
    (fun s => (genConnectionId 1, .loginResponse 0 true []) ∈ s.responses ∧
      s.connections ≤ 2 ^ 32 ∧ s.tokens ≤ 2 ^ 32) (by decide +kernel)
  obtain ⟨hmem, hc, ht⟩ := of_decide_eq_true hs
  exact ⟨s, hrun, hmem, (positive_answers hrun hc ht).1 _⟩

end SessionManager
