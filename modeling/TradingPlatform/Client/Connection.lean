/-
The client's connection manager
(`client/src/connection/network_connection_manager.hpp`, with
`client/src/connection/connection_state.hpp`, `client/src/events.hpp` and the
channels of `common/src/transport/channel.hpp`).

A client opens an upstream and a downstream connection.  Once it has both it logs
in upstream, binds the downstream connection with the token of the answer, and
announces that it is connected when that is granted too.

* `ConnectionManager` — the channels, the state, the events in the system queue,
  and a record of what was written, granted and announced;
* `ConnectionManager.handle` — the handlers of the system queue; `none` stands for
  a null pointer that is dereferenced;
* `ConnectionManager.Steady` — the invariant that every operation keeps.

The answers of both channels end up in one queue, and the handler does not see
where an answer comes from: the origin of an event is a record, like the last
three fields.  A message that finds no free buffer is dropped; this is left to who
reads what was written.
-/
import TradingPlatform.Session.Model

/-- `client::ConnectionState`. -/
inductive ConnectionState
  | Disconnected
  | Connected
  | TokenReceived
  | Authenticated
deriving DecidableEq, Repr

/-- `client::ServerConnectionState`. -/
inductive ServerConnectionState
  | Disconnected
  | Connected
  | Failed
deriving DecidableEq, Repr

/-- The events of the client's system queue that the manager is subscribed to. -/
inductive ClientEvent
  | loginResponse (origin : ChannelKind) (token : Token) (ok : Bool) (error : List UInt8)
  | connectionStatus (status : ConnectionStatus)
deriving DecidableEq, Repr

/-- A positive answer, with its origin. -/
def ClientEvent.grant? : ClientEvent → Option (ChannelKind × Token)
  | .loginResponse origin token true _ => some (origin, token)
  | _ => none

/-- The manager and its queue.  A channel is its status; `none` is the null
pointer. -/
structure ConnectionManager where
  name : List UInt8
  password : List UInt8
  upstreamChannel : Option ConnectionStatus
  downstreamChannel : Option ConnectionStatus
  pricesChannel : Option ConnectionStatus
  token : Option Token
  state : ConnectionState
  pending : List ClientEvent
  written : ChannelKind → List DomainMessage
  accepted : List (ChannelKind × Token)
  announced : List ServerConnectionState

namespace ConnectionManager

def start (name password : List UInt8) : ConnectionManager :=
  ⟨name, password, none, none, none, none, .Disconnected, [], fun _ => [], [], []⟩

/-- `Channel::write`, on a channel that is there. -/
def write (s : ConnectionManager) (kind : ChannelKind) (status : ConnectionStatus)
    (m : DomainMessage) : ConnectionManager :=
  if status = .Connected then
    { s with written := Function.update s.written kind (s.written kind ++ [m]) }
  else s

/-- `ctx_.bus.post(ServerConnectionState)`. -/
def announce (s : ConnectionManager) (e : ServerConnectionState) : ConnectionManager :=
  { s with announced := s.announced ++ [e] }

/-- `reset`; `close` is the same. -/
def reset (s : ConnectionManager) : ConnectionManager :=
  { s with
    token := none
    upstreamChannel := none
    downstreamChannel := none
    pricesChannel := none
    state := .Disconnected }.announce .Disconnected

def tryAuthenticate (s : ConnectionManager) : ConnectionManager :=
  match s.upstreamChannel, s.downstreamChannel with
  | some status, some _ =>
    { s with state := .Connected }.write .upstream status (.loginRequest s.name s.password)
  | _, _ => s

def onUpstream (s : ConnectionManager) : ConnectionManager :=
  if s.upstreamChannel.isSome then s
  else { s with upstreamChannel := some .Connected }.tryAuthenticate

def onDownstream (s : ConnectionManager) : ConnectionManager :=
  if s.downstreamChannel.isSome then s
  else { s with downstreamChannel := some .Connected }.tryAuthenticate

def onDatagram (s : ConnectionManager) : ConnectionManager :=
  { s with pricesChannel := some .Connected }

/-- The callback of the connection that is established. -/
def onConnected (s : ConnectionManager) : ChannelKind → ConnectionManager
  | .upstream => s.onUpstream
  | .downstream => s.onDownstream

/-- `post(CRef<ConnectionStatusEvent>)`. -/
def onConnectionStatus (s : ConnectionManager) (status : ConnectionStatus) : ConnectionManager :=
  if status ≠ .Connected then s.reset else s

/-- `post(CRef<LoginResponse>)`; the downstream channel is not checked for null. -/
def onLoginResponse (s : ConnectionManager) (origin : ChannelKind) (token : Token) (ok : Bool) :
    Option ConnectionManager :=
  if ok then
    let s := { s with token := some token, accepted := s.accepted ++ [(origin, token)] }
    match s.state with
    | .Connected =>
      s.downstreamChannel.map fun status =>
        { s with state := .TokenReceived }.write .downstream status (.tokenBindRequest token)
    | .TokenReceived => some ({ s with state := .Authenticated }.announce .Connected)
    | _ => some s
  else some s.reset

/-- `post(CRef<Order>)`. -/
def onOrder (s : ConnectionManager) (id : OrderId) (ticker : Ticker) (quantity : Quantity)
    (price : Price) (action : OrderAction) : ConnectionManager :=
  match s.upstreamChannel with
  | some status => s.write .upstream status (.order id ticker quantity price action)
  | none => s

/-- The types the client's `UpstreamBus` and `DownstreamBus` let through to the
manager. -/
def post (s : ConnectionManager) (origin : ChannelKind) : DomainMessage → ConnectionManager
  | .loginResponse token ok error =>
    { s with pending := s.pending ++ [.loginResponse origin token ok error] }
  | _ => s

/-- `Channel::onStatus` of the client's channels. -/
def onStatus (s : ConnectionManager) (kind : ChannelKind) (status : ConnectionStatus) :
    ConnectionManager :=
  let s := match kind with
    | .upstream => { s with upstreamChannel := s.upstreamChannel.map fun _ => status }
    | .downstream => { s with downstreamChannel := s.downstreamChannel.map fun _ => status }
  { s with pending := s.pending ++ [.connectionStatus status] }

/-- The same for the channel of the prices. -/
def onPricesStatus (s : ConnectionManager) (status : ConnectionStatus) : ConnectionManager :=
  { s with
    pricesChannel := s.pricesChannel.map fun _ => status
    pending := s.pending ++ [.connectionStatus status] }

/-- The handlers the manager has subscribed on the system queue. -/
def handle (s : ConnectionManager) : ClientEvent → Option ConnectionManager
  | .loginResponse origin token ok _ => s.onLoginResponse origin token ok
  | .connectionStatus status => some (s.onConnectionStatus status)

/-- Taking an event out of the system queue. -/
def take (s : ConnectionManager) (n : ℕ) : ConnectionManager :=
  { s with pending := s.pending.eraseIdx n }

variable {s s' : ConnectionManager}

/-! ### What is recorded -/

/-- What a write changes. -/
theorem write_eq (s : ConnectionManager) (kind : ChannelKind) (status : ConnectionStatus)
    (m : DomainMessage) : ∃ w, s.write kind status m = { s with written := w } ∧
      (∀ kind', s.written kind' ⊆ w kind') ∧
      ∀ kind' m', m' ∈ w kind' → m' ∈ s.written kind' ∨ kind' = kind ∧ m' = m := by
  rw [write]
  split
  · refine ⟨_, rfl, ?_, ?_⟩
    · intro kind'
      by_cases hk : kind' = kind
      · subst hk
        simp
      · simp [hk]
    · intro kind' m' hm'
      by_cases hk : kind' = kind
      · subst hk
        rw [Function.update_self, List.mem_append, List.mem_singleton] at hm'
        exact hm'.imp_right fun heq => ⟨rfl, heq⟩
      · rw [Function.update_of_ne hk] at hm'
        exact .inl hm'
  · exact ⟨s.written, rfl, fun _ => List.Subset.refl _, fun _ _ hm' => .inl hm'⟩

/-- What an operation adds to the records and to the queue: `grants` are positive
answers, and only their tokens are bound. -/
structure Records (s s' : ConnectionManager) (grants : List (ChannelKind × Token))
    (events : List ClientEvent) : Prop where
  written : ∀ kind, s.written kind ⊆ s'.written kind
  bound : ∀ m ∈ s'.written .downstream,
    m ∈ s.written .downstream ∨ ∃ g ∈ grants, m = .tokenBindRequest g.2
  accepted : s'.accepted = s.accepted ++ grants
  pending : s'.pending = s.pending ++ events

theorem Records.of_eq {events : List ClientEvent} (hw : s'.written = s.written)
    (ha : s'.accepted = s.accepted) (hp : s'.pending = s.pending ++ events) :
    Records s s' [] events := by
  refine ⟨?_, ?_, ?_, hp⟩
  · intro kind
    rw [hw]
    exact List.Subset.refl _
  · intro m hm
    rw [hw] at hm
    exact .inl hm
  · rw [ha, List.append_nil]

theorem Records.refl (s : ConnectionManager) : Records s s [] [] :=
  .of_eq rfl rfl (List.append_nil _).symm

theorem Records.reset (s : ConnectionManager) : Records s s.reset [] [] :=
  .of_eq rfl rfl (List.append_nil _).symm

theorem Records.writeUpstream (s : ConnectionManager) (status : ConnectionStatus)
    (m : DomainMessage) : Records s (s.write .upstream status m) [] [] := by
  obtain ⟨w, heq, hsub, hw⟩ := s.write_eq .upstream status m
  rw [heq]
  refine ⟨hsub, ?_, (List.append_nil _).symm, (List.append_nil _).symm⟩
  intro m' hm'
  rcases hw _ m' hm' with hm' | ⟨hk, _⟩
  · exact .inl hm'
  · exact ChannelKind.noConfusion hk

theorem Records.tryAuthenticate (s : ConnectionManager) :
    Records s s.tryAuthenticate [] [] := by
  rw [ConnectionManager.tryAuthenticate]
  split
  · obtain ⟨hw, hb, ha, hp⟩ := Records.writeUpstream { s with state := .Connected } _
      (.loginRequest s.name s.password)
    exact ⟨hw, hb, ha, hp⟩
  · exact .refl s

theorem Records.onConnected (s : ConnectionManager) (kind : ChannelKind) :
    Records s (s.onConnected kind) [] [] := by
  cases kind with
  | upstream =>
    rw [ConnectionManager.onConnected, onUpstream]
    split
    · exact .refl s
    · obtain ⟨hw, hb, ha, hp⟩ :=
        Records.tryAuthenticate { s with upstreamChannel := some .Connected }
      exact ⟨hw, hb, ha, hp⟩
  | downstream =>
    rw [ConnectionManager.onConnected, onDownstream]
    split
    · exact .refl s
    · obtain ⟨hw, hb, ha, hp⟩ :=
        Records.tryAuthenticate { s with downstreamChannel := some .Connected }
      exact ⟨hw, hb, ha, hp⟩

theorem Records.onOrder (s : ConnectionManager) (id : OrderId) (ticker : Ticker)
    (quantity : Quantity) (price : Price) (action : OrderAction) :
    Records s (s.onOrder id ticker quantity price action) [] [] := by
  rw [ConnectionManager.onOrder]
  split
  · exact .writeUpstream s _ _
  · exact .refl s

theorem Records.onStatus (s : ConnectionManager) (kind : ChannelKind)
    (status : ConnectionStatus) :
    Records s (s.onStatus kind status) [] [.connectionStatus status] := by
  cases kind with
  | upstream => exact .of_eq rfl rfl rfl
  | downstream => exact .of_eq rfl rfl rfl

theorem Records.onDatagram (s : ConnectionManager) : Records s s.onDatagram [] [] :=
  .of_eq rfl rfl (List.append_nil _).symm

theorem Records.onPricesStatus (s : ConnectionManager) (status : ConnectionStatus) :
    Records s (s.onPricesStatus status) [] [.connectionStatus status] :=
  .of_eq rfl rfl rfl

theorem Records.handle {e : ClientEvent} (hs : s.handle e = some s') :
    Records s s' e.grant?.toList [] := by
  cases e with
  | connectionStatus status =>
    obtain rfl := Option.some_inj.1 hs
    rw [onConnectionStatus]
    split
    · exact .reset s
    · exact .refl s
  | loginResponse origin token ok error =>
    rw [ConnectionManager.handle, onLoginResponse] at hs
    split at hs
    · next hok =>
      obtain rfl : ok = true := hok
      simp only at hs
      split at hs
      · obtain ⟨status, _, rfl⟩ := Option.map_eq_some_iff.1 hs
        obtain ⟨w, heq, hsub, hw⟩ := write_eq { s with
          state := .TokenReceived, token := some token
          accepted := s.accepted ++ [(origin, token)] } .downstream status
          (.tokenBindRequest token)
        rw [heq]
        refine ⟨hsub, ?_, rfl, (List.append_nil _).symm⟩
        intro m hm
        exact (hw _ m hm).imp_right fun hm => ⟨(origin, token), List.mem_singleton_self _, hm.2⟩
      · obtain rfl := Option.some_inj.1 hs
        exact ⟨fun _ => List.Subset.refl _, fun _ hm => .inl hm, rfl, (List.append_nil _).symm⟩
      · obtain rfl := Option.some_inj.1 hs
        exact ⟨fun _ => List.Subset.refl _, fun _ hm => .inl hm, rfl, (List.append_nil _).symm⟩
    · next hok =>
      obtain rfl : ok = false := by simpa using hok
      obtain rfl := Option.some_inj.1 hs
      exact .reset s

/-! ### The invariant -/

/-- What the manager's state stands for. -/
structure Steady (s : ConnectionManager) : Prop where
  channels : s.state ≠ .Disconnected → s.upstreamChannel.isSome ∧ s.downstreamChannel.isSome
  received : s.state = .TokenReceived → 1 ≤ s.accepted.length
  authenticated : s.state = .Authenticated → .Connected ∈ s.announced
  announced : .Connected ∈ s.announced → 2 ≤ s.accepted.length
  upstream : ∀ m ∈ s.written .upstream, ∀ token, m ≠ .tokenBindRequest token
  downstream : ∀ m ∈ s.written .downstream, ∃ origin token,
    m = .tokenBindRequest token ∧ (origin, token) ∈ s.accepted

theorem Steady.start (name password : List UInt8) : Steady (start name password) where
  channels h := absurd rfl h
  received h := ConnectionState.noConfusion h
  authenticated h := ConnectionState.noConfusion h
  announced h := absurd h List.not_mem_nil
  upstream _ h := absurd h List.not_mem_nil
  downstream _ h := absurd h List.not_mem_nil

/-- A login request or an order goes out on the upstream channel. -/
theorem Steady.writeUpstream (h : Steady s) (status : ConnectionStatus) {m : DomainMessage}
    (hm : ∀ token, m ≠ .tokenBindRequest token) : Steady (s.write .upstream status m) := by
  obtain ⟨w, heq, _, hw⟩ := s.write_eq .upstream status m
  rw [heq]
  refine ⟨h.channels, h.received, h.authenticated, h.announced, ?_, ?_⟩
  · intro m' hm'
    rcases hw _ m' hm' with hm' | ⟨_, rfl⟩
    · exact h.upstream m' hm'
    · exact hm
  · intro m' hm'
    rcases hw _ m' hm' with hm' | ⟨hk, _⟩
    · exact h.downstream m' hm'
    · exact ChannelKind.noConfusion hk

theorem Steady.reset (h : Steady s) : Steady s.reset where
  channels hne := absurd rfl hne
  received heq := ConnectionState.noConfusion heq
  authenticated heq := ConnectionState.noConfusion heq
  announced hmem := h.announced (by simpa [ConnectionManager.reset, announce] using hmem)
  upstream := h.upstream
  downstream := h.downstream

theorem Steady.tryAuthenticate (h : Steady s) : Steady s.tryAuthenticate := by
  rw [ConnectionManager.tryAuthenticate]
  split
  · next status _ hup hdown =>
    have hconnected : Steady { s with state := .Connected } := by
      refine ⟨fun _ => ?_, fun heq => ConnectionState.noConfusion heq,
        fun heq => ConnectionState.noConfusion heq, h.announced, h.upstream, h.downstream⟩
      rw [hup, hdown]
      exact ⟨rfl, rfl⟩
    exact hconnected.writeUpstream status fun _ => DomainMessage.noConfusion
  · exact h

/-- A channel may become non-null or change its status. -/
theorem Steady.withChannels (h : Steady s) {up down prices : Option ConnectionStatus}
    (hup : s.upstreamChannel.isSome → up.isSome)
    (hdown : s.downstreamChannel.isSome → down.isSome) :
    Steady { s with
      upstreamChannel := up, downstreamChannel := down, pricesChannel := prices } := by
  refine ⟨?_, h.received, h.authenticated, h.announced, h.upstream, h.downstream⟩
  intro hne
  exact ⟨hup (h.channels hne).1, hdown (h.channels hne).2⟩

theorem Steady.onConnected (h : Steady s) (kind : ChannelKind) : Steady (s.onConnected kind) := by
  cases kind with
  | upstream =>
    rw [ConnectionManager.onConnected, onUpstream]
    split
    · exact h
    · exact (h.withChannels (fun _ => rfl) id).tryAuthenticate
  | downstream =>
    rw [ConnectionManager.onConnected, onDownstream]
    split
    · exact h
    · exact (h.withChannels id fun _ => rfl).tryAuthenticate

theorem Steady.onDatagram (h : Steady s) : Steady s.onDatagram := h.withChannels id id

theorem Steady.withPending (h : Steady s) (pending : List ClientEvent) :
    Steady { s with pending := pending } :=
  ⟨h.channels, h.received, h.authenticated, h.announced, h.upstream, h.downstream⟩

theorem Steady.post (h : Steady s) (origin : ChannelKind) (m : DomainMessage) :
    Steady (s.post origin m) := by
  cases m with
  | loginResponse token ok error => exact h.withPending _
  | _ => exact h

theorem Steady.onStatus (h : Steady s) (kind : ChannelKind) (status : ConnectionStatus) :
    Steady (s.onStatus kind status) := by
  have hmap : ∀ o : Option ConnectionStatus, o.isSome → (o.map fun _ => status).isSome := by
    intro o ho
    rw [Option.isSome_map]
    exact ho
  cases kind with
  | upstream => exact (h.withChannels (hmap _) id).withPending _
  | downstream => exact (h.withChannels id (hmap _)).withPending _

theorem Steady.onPricesStatus (h : Steady s) (status : ConnectionStatus) :
    Steady (s.onPricesStatus status) := by
  have hprices : Steady { s with pricesChannel := s.pricesChannel.map fun _ => status } :=
    h.withChannels id id
  exact hprices.withPending _

theorem Steady.onOrder (h : Steady s) (id : OrderId) (ticker : Ticker) (quantity : Quantity)
    (price : Price) (action : OrderAction) :
    Steady (s.onOrder id ticker quantity price action) := by
  rw [ConnectionManager.onOrder]
  split
  · exact h.writeUpstream _ fun _ => DomainMessage.noConfusion
  · exact h

theorem Steady.onConnectionStatus (h : Steady s) (status : ConnectionStatus) :
    Steady (s.onConnectionStatus status) := by
  rw [ConnectionManager.onConnectionStatus]
  split
  · exact h.reset
  · exact h

/-- A positive answer is recorded. -/
theorem Steady.accept (h : Steady s) (origin : ChannelKind) (token : Token) :
    Steady { s with token := some token, accepted := s.accepted ++ [(origin, token)] } := by
  refine ⟨h.channels, ?_, h.authenticated, ?_, h.upstream, ?_⟩
  · intro _
    simp
  · intro hmem
    have hle := h.announced hmem
    simp only [List.length_append, List.length_singleton]
    omega
  · intro m hm
    obtain ⟨origin', token', rfl, hacc⟩ := h.downstream m hm
    exact ⟨origin', token', rfl, List.mem_append_left _ hacc⟩

theorem Steady.bind (h : Steady s) {origin : ChannelKind} {token : Token}
    (hacc : (origin, token) ∈ s.accepted) (hstate : s.state ≠ .Disconnected)
    (status : ConnectionStatus) :
    Steady ({ s with state := .TokenReceived }.write .downstream status
      (.tokenBindRequest token)) := by
  have hreceived : Steady { s with state := .TokenReceived } :=
    ⟨fun _ => h.channels hstate, fun _ => List.length_pos_of_mem hacc,
      fun heq => ConnectionState.noConfusion heq, h.announced, h.upstream, h.downstream⟩
  obtain ⟨w, heq, _, hw⟩ := write_eq { s with state := .TokenReceived } .downstream status
    (.tokenBindRequest token)
  rw [heq]
  refine ⟨hreceived.channels, hreceived.received, hreceived.authenticated, h.announced, ?_, ?_⟩
  · intro m hm
    rcases hw _ m hm with hm | ⟨hk, _⟩
    · exact h.upstream m hm
    · exact ChannelKind.noConfusion hk
  · intro m hm
    rcases hw _ m hm with hm | ⟨_, rfl⟩
    · exact h.downstream m hm
    · exact ⟨origin, token, rfl, hacc⟩

/-- The handler is never left without a channel, and keeps the invariant. -/
theorem Steady.onLoginResponse (h : Steady s) (origin : ChannelKind) (token : Token)
    (ok : Bool) : ∃ s', s.onLoginResponse origin token ok = some s' ∧ Steady s' := by
  rw [ConnectionManager.onLoginResponse]
  split
  · have hacc := h.accept origin token
    have hmem : (origin, token) ∈ s.accepted ++ [(origin, token)] :=
      List.mem_append_right _ (List.mem_singleton_self _)
    simp only
    split
    · next hstate =>
      have hne : s.state ≠ .Disconnected := by
        rw [hstate]
        exact ConnectionState.noConfusion
      obtain ⟨status, hstatus⟩ := Option.isSome_iff_exists.1 (h.channels hne).2
      exact ⟨_, Option.map_eq_some_iff.2 ⟨status, hstatus, rfl⟩, hacc.bind hmem hne status⟩
    · next hstate =>
      refine ⟨_, rfl, ?_, ?_, ?_, ?_, h.upstream, hacc.downstream⟩
      · intro _
        refine h.channels ?_
        rw [hstate]
        exact ConnectionState.noConfusion
      · intro heq
        exact ConnectionState.noConfusion heq
      · intro _
        exact List.mem_append_right _ (List.mem_singleton_self _)
      · intro _
        have hle := h.received hstate
        simp only [announce, List.length_append, List.length_singleton]
        omega
    · exact ⟨_, rfl, hacc⟩
  · exact ⟨_, rfl, h.reset⟩

theorem Steady.handle (h : Steady s) (e : ClientEvent) :
    ∃ s', s.handle e = some s' ∧ Steady s' := by
  cases e with
  | loginResponse origin token ok error => exact h.onLoginResponse origin token ok
  | connectionStatus status => exact ⟨_, rfl, h.onConnectionStatus status⟩

end ConnectionManager
