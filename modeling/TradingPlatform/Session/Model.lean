/-
The session manager (`server/src/session/network_session_manager.hpp`) with the
channels, their buses and the system queue
(`server/src/ipc/session_bus.hpp`, `session_channel.hpp`, `server/src/traits.hpp`,
`server/src/session/authenticator.hpp`, `common/src/transport/channel.hpp`).

A client has an upstream connection, on which it logs in and sends orders, and a
downstream connection, which it binds to its session with the token of the login
and on which it gets its order statuses.

* `SessionManager` — the three maps, the channels on the heap, the events in the
  system queue, and a record of what was granted, presented, posted and written;
* `SessionManager.handle` — the handlers of the session manager; `none` stands
  for a null pointer that is dereferenced;
* `SessionAction`, `SessionManager.act` — accepting connections, messages from
  clients and failures of channels at any time, and the handling of any event
  that is pending.

Pointers are optional heap indices.  The channel of the `n`-th connection lives
at `n`; its id is what `genConnectionId` makes of `n`.  Messages and failures of
a channel are not restricted by its status or by who still refers to it: a read
may complete while another thread closes the channel.  Stopping is left out.
-/
import TradingPlatform.Messages
import TradingPlatform.Lib.FiniteMap
import TradingPlatform.Lib.Machine
import Mathlib.Logic.Function.Basic

/-- `MAX_CONNECTIONS`. -/
def maxConnections : ℕ := 10

/-- `utils::genConnectionId` at its `n`-th call: a 32-bit value. -/
def genConnectionId (n : ℕ) : ConnectionId := UInt64.ofNat (n % 2 ^ 32)

/-- `utils::genToken` at its `n`-th call. -/
def genToken (n : ℕ) : Token := UInt64.ofNat (n % 2 ^ 32)

theorem ofNat_mod_inj {a b : ℕ} (ha : a < 2 ^ 32) (hb : b < 2 ^ 32)
    (h : UInt64.ofNat (a % 2 ^ 32) = UInt64.ofNat (b % 2 ^ 32)) : a = b := by
  have h' := congrArg UInt64.toNat h
  rw [UInt64.toNat_ofNat', UInt64.toNat_ofNat'] at h'
  omega

/-- `SessionChannel<UpstreamBus>` or `SessionChannel<DownstreamBus>`. -/
inductive ChannelKind
  | upstream
  | downstream
deriving DecidableEq, Repr

/-- A channel with its `SessionBus`. -/
structure SessionChannel where
  kind : ChannelKind
  connectionId : ConnectionId
  clientId : Option ClientId
  status : ConnectionStatus
deriving DecidableEq, Repr

/-- The address of a channel. -/
abbrev ChannelPtr := ℕ

/-- `NetworkSessionManager::Session`. -/
structure Session where
  clientId : ClientId
  token : Token
  upstreamChannel : Option ChannelPtr
  downstreamChannel : Option ChannelPtr
deriving DecidableEq, Repr

structure ServerLoginResponse where
  connectionId : ConnectionId
  clientId : ClientId
  ok : Bool
  error : List UInt8
deriving DecidableEq, Repr

/-- `ChannelStatusEvent`, with the `ConnectionStatusEvent` it carries. -/
structure ChannelStatusEvent where
  clientId : Option ClientId
  connectionId : ConnectionId
  status : ConnectionStatus
deriving DecidableEq, Repr

/-- The events of the system queue that concern sessions. -/
inductive SystemEvent
  | serverLoginRequest (connectionId : ConnectionId) (name password : List UInt8)
  | serverLoginResponse (response : ServerLoginResponse)
  | serverTokenBindRequest (connectionId : ConnectionId) (token : Token)
  | channelStatus (event : ChannelStatusEvent)
deriving DecidableEq, Repr

/-- The types `UpstreamBus` and `DownstreamBus` let through. -/
def ChannelKind.isAllowed : ChannelKind → SystemEvent → Bool
  | .upstream, .serverLoginRequest .. => true
  | .downstream, .serverTokenBindRequest .. => true
  | _, .channelStatus _ => true
  | _, _ => false

/-- The manager, the heap and the queue.  The last five fields are a record no
handler reads: credentials accepted for a connection, tokens presented on one,
tokens issued to clients, orders posted to the bus, and what was written. -/
structure SessionManager where
  connections : ℕ
  tokens : ℕ
  channels : ChannelPtr → Option SessionChannel
  unauthorizedUpstreamMap : AList fun _ : ConnectionId => Option ChannelPtr
  unauthorizedDownstreamMap : AList fun _ : ConnectionId => Option ChannelPtr
  sessionsMap : AList fun _ : ClientId => Session
  pending : List SystemEvent
  granted : List (ConnectionId × ClientId)
  presented : List (ConnectionId × Token)
  issued : List (Token × ClientId)
  orders : List (ConnectionId × ServerOrder)
  responses : List (ConnectionId × DomainMessage)
  statuses : List (ConnectionId × ServerOrderStatus)

namespace SessionManager

def start : SessionManager :=
  ⟨0, 0, fun _ => none, ∅, ∅, ∅, [], [], [], [], [], [], []⟩

/-! ### Channels -/

/-- Changing the channel at `p`. -/
def modifyChannel (s : SessionManager) (p : ChannelPtr) (f : SessionChannel → SessionChannel) :
    SessionManager :=
  { s with channels := Function.update s.channels p ((s.channels p).map f) }

@[simp] theorem modifyChannel_self (s : SessionManager) (p : ChannelPtr)
    (f : SessionChannel → SessionChannel) :
    (s.modifyChannel p f).channels p = (s.channels p).map f :=
  Function.update_self _ _ _

theorem modifyChannel_of_ne (s : SessionManager) {p q : ChannelPtr} (h : q ≠ p)
    (f : SessionChannel → SessionChannel) :
    (s.modifyChannel p f).channels q = s.channels q :=
  Function.update_of_ne h _ _

/-- `SessionChannel::authenticate`: a channel keeps its first client. -/
def authenticate (s : SessionManager) (p : ChannelPtr) (c : ClientId) : SessionManager :=
  s.modifyChannel p fun ch => if ch.clientId.isSome then ch else { ch with clientId := some c }

/-- `Channel::close`. -/
def closeChannel (s : SessionManager) (p : ChannelPtr) : SessionManager :=
  s.modifyChannel p fun ch => { ch with status := .Disconnected }

/-- `SessionChannel::write(LoginResponse)`. -/
def respond (s : SessionManager) (p : ChannelPtr) (m : DomainMessage) : SessionManager :=
  match s.channels p with
  | some ch =>
    if ch.status = .Connected then
      { s with responses := s.responses ++ [(ch.connectionId, m)] }
    else s
  | none => s

/-- `SessionChannel::write(OrderStatus)`. -/
def writeStatus (s : SessionManager) (p : ChannelPtr) (status : ServerOrderStatus) :
    SessionManager :=
  match s.channels p with
  | some ch =>
    if ch.clientId.isSome ∧ ch.status = .Connected then
      { s with statuses := s.statuses ++ [(ch.connectionId, status)] }
    else s
  | none => s

/-- Posting to the system queue. -/
def post (s : SessionManager) (e : SystemEvent) : SessionManager :=
  { s with pending := s.pending ++ [e] }

/-- `BusRestrictor::post`. -/
def busPost (s : SessionManager) (kind : ChannelKind) (e : SystemEvent) : SessionManager :=
  if kind.isAllowed e then s.post e else s

/-- `SessionBus::post` for the messages a client can send. -/
def sessionBusPost (s : SessionManager) (ch : SessionChannel) : DomainMessage → SessionManager
  | .loginRequest name password =>
    if ch.clientId.isSome then
      s.busPost ch.kind (.channelStatus ⟨ch.clientId, ch.connectionId, .Error⟩)
    else s.busPost ch.kind (.serverLoginRequest ch.connectionId name password)
  | .tokenBindRequest token =>
    let s := { s with presented := s.presented ++ [(ch.connectionId, token)] }
    if ch.clientId.isSome then
      s.busPost ch.kind (.channelStatus ⟨ch.clientId, ch.connectionId, .Error⟩)
    else s.busPost ch.kind (.serverTokenBindRequest ch.connectionId token)
  | .order id ticker quantity price action =>
    match ch.clientId with
    | none => s.busPost ch.kind (.channelStatus ⟨none, ch.connectionId, .Error⟩)
    | some c =>
      -- only `UpstreamBus` lets a `ServerOrder` through
      match ch.kind with
      | .upstream =>
        { s with orders := s.orders ++
          [(ch.connectionId, ⟨c, ⟨id, ticker, quantity, price.toNat, action⟩⟩)] }
      | .downstream => s
  | _ => s

/-- `Channel::onStatus`. -/
def onStatus (s : SessionManager) (p : ChannelPtr) (ch : SessionChannel)
    (status : ConnectionStatus) : SessionManager :=
  (s.modifyChannel p fun ch => { ch with status := status }).busPost ch.kind
    (.channelStatus ⟨ch.clientId, ch.connectionId, status⟩)

/-! ### Accepting connections -/

/-- A channel for the next connection. -/
def create (s : SessionManager) (kind : ChannelKind) : SessionManager :=
  { s with
    connections := s.connections + 1
    channels := Function.update s.channels s.connections
      (some ⟨kind, genConnectionId s.connections, none, .Connected⟩) }

@[simp] theorem create_self (s : SessionManager) (kind : ChannelKind) :
    (s.create kind).channels s.connections =
      some ⟨kind, genConnectionId s.connections, none, .Connected⟩ :=
  Function.update_self _ _ _

theorem create_of_ne (s : SessionManager) (kind : ChannelKind) {q : ChannelPtr}
    (h : q ≠ s.connections) : (s.create kind).channels q = s.channels q :=
  Function.update_of_ne h _ _

/-- Inserting a channel into the map of its kind. -/
def enroll (s : SessionManager) (k : ConnectionId) (p : ChannelPtr) :
    ChannelKind → SessionManager
  | .upstream => { s with
      unauthorizedUpstreamMap := FiniteMap.insertNew k (some p) s.unauthorizedUpstreamMap }
  | .downstream => { s with
      unauthorizedDownstreamMap := FiniteMap.insertNew k (some p) s.unauthorizedDownstreamMap }

/-- `acceptUpstream` and `acceptDownstream`; the id is generated before the
limit is checked. -/
def accept (s : SessionManager) (kind : ChannelKind) : SessionManager :=
  if FiniteMap.size s.sessionsMap ≥ maxConnections then
    { s with connections := s.connections + 1 }
  else (s.create kind).enroll (genConnectionId s.connections) s.connections kind

def acceptUpstream (s : SessionManager) : SessionManager := s.accept .upstream

def acceptDownstream (s : SessionManager) : SessionManager := s.accept .downstream

/-! ### Handlers -/

/-- The bytes of a text of the source. -/
def text (t : String) : List UInt8 := t.toUTF8.toList

/-- `post(CRef<ServerLoginResponse>)`. -/
def onLoginResponse (s : SessionManager) (r : ServerLoginResponse) : Option SessionManager :=
  match s.unauthorizedUpstreamMap.lookup r.connectionId with
  | none => some s
  | some channel =>
    let s := { s with
      unauthorizedUpstreamMap := s.unauthorizedUpstreamMap.erase r.connectionId }
    match channel with
    | none => some s
    | some p =>
      if r.ok then
        let token := genToken s.tokens
        let s := { s with tokens := s.tokens + 1 }
        if r.clientId ∈ s.sessionsMap then
          some (s.respond p (.loginResponse 0 false (text "Already authorized")))
        else
          let s := { s with
            sessionsMap := s.sessionsMap.insert r.clientId ⟨r.clientId, token, some p, none⟩
            issued := s.issued ++ [(token, r.clientId)] }
          some ((s.respond p (.loginResponse token true [])).authenticate p r.clientId)
      else some (s.respond p (.loginResponse 0 false r.error))

/-- `post(CRef<ServerTokenBindRequest>)`; here the channel is not checked for
null before it is used. -/
def onTokenBindRequest (s : SessionManager) (k : ConnectionId) (token : Token) :
    Option SessionManager :=
  match s.unauthorizedDownstreamMap.lookup k with
  | none => some s
  | some channel =>
    let s := { s with unauthorizedDownstreamMap := s.unauthorizedDownstreamMap.erase k }
    match FiniteMap.find? (fun session => session.token == token) s.sessionsMap with
    | none =>
      channel.map fun p => s.respond p (.loginResponse 0 false (text "Invalid token"))
    | some (c, session) =>
      match session.downstreamChannel with
      | none =>
        let s := { s with
          sessionsMap := s.sessionsMap.insert c { session with downstreamChannel := channel } }
        channel.map fun p =>
          (s.authenticate p session.clientId).respond p (.loginResponse token true [])
      | some _ =>
        channel.map fun p =>
          (s.respond p (.loginResponse 0 false (text "Already connected"))).closeChannel p

/-- The part of `post(CRef<ChannelStatusEvent>)` that ends the client's session:
both channels are closed without a check for null, the downstream one first. -/
def endSession (s : SessionManager) : Option ClientId → Option SessionManager
  | none => some s
  | some c =>
    match s.sessionsMap.lookup c with
    | none => some s
    | some session =>
      session.downstreamChannel.bind fun d =>
        session.upstreamChannel.map fun u =>
          { (s.closeChannel d).closeChannel u with sessionsMap := s.sessionsMap.erase c }

/-- `post(CRef<ChannelStatusEvent>)`. -/
def onChannelStatus (s : SessionManager) (e : ChannelStatusEvent) : Option SessionManager :=
  match e.status with
  | .Connected => some s
  | .Disconnected | .Error =>
    (s.endSession e.clientId).map fun s => { s with
      unauthorizedUpstreamMap := s.unauthorizedUpstreamMap.erase e.connectionId
      unauthorizedDownstreamMap := s.unauthorizedDownstreamMap.erase e.connectionId }

/-- `post(CRef<ServerOrderStatus>)`. -/
def onOrderStatus (s : SessionManager) (status : ServerOrderStatus) : SessionManager :=
  match s.sessionsMap.lookup status.clientId with
  | none => s
  | some session =>
    match session.downstreamChannel with
    | some d => s.writeStatus d status
    | none => s

/-- Closing what a pointer refers to, if it is not null. -/
def closeIfSet (s : SessionManager) : Option ChannelPtr → SessionManager
  | some p => s.closeChannel p
  | none => s

/-- `close`. -/
def close (s : SessionManager) : SessionManager :=
  let s := s.sessionsMap.entries.foldl (fun s e =>
    (s.closeIfSet e.2.upstreamChannel).closeIfSet e.2.downstreamChannel) s
  let s := s.unauthorizedUpstreamMap.entries.foldl (fun s e => s.closeIfSet e.2) s
  let s := s.unauthorizedDownstreamMap.entries.foldl (fun s e => s.closeIfSet e.2) s
  { s with unauthorizedUpstreamMap := ∅, unauthorizedDownstreamMap := ∅, sessionsMap := ∅ }

/-- The handlers the manager has subscribed on the system queue; login requests
are the authenticator's. -/
def handle (s : SessionManager) : SystemEvent → Option SessionManager
  | .serverLoginRequest .. => some s
  | .serverLoginResponse r => s.onLoginResponse r
  | .serverTokenBindRequest k token => s.onTokenBindRequest k token
  | .channelStatus e => s.onChannelStatus e

/-- `Authenticator::post`, with the answer of the database. -/
def authenticatorPost (s : SessionManager) (k : ConnectionId) :
    Except (List UInt8) ClientId → SessionManager
  | .ok c => { s with granted := s.granted ++ [(k, c)] }.post
      (.serverLoginResponse ⟨k, c, true, []⟩)
  | .error e => s.post (.serverLoginResponse ⟨k, 0, false, e⟩)

/-- Taking an event out of the system queue. -/
def take (s : SessionManager) (n : ℕ) : SessionManager :=
  { s with pending := s.pending.eraseIdx n }

end SessionManager

/-- What can happen next.  `handle n` handles the `n`-th pending event,
`checkCredentials n result` has the authenticator handle a login request to
which the database answers `result`. -/
inductive SessionAction
  | acceptUpstream
  | acceptDownstream
  | receive (p : ChannelPtr) (m : DomainMessage)
  | status (p : ChannelPtr) (status : ConnectionStatus)
  | checkCredentials (n : ℕ) (result : Except (List UInt8) ClientId)
  | handle (n : ℕ)
  | orderStatus (status : ServerOrderStatus)
  | close

namespace SessionManager

/-- One step; `none` where it is not enabled, or dereferences a null pointer. -/
def act (s : SessionManager) : SessionAction → Option SessionManager
  | .acceptUpstream => some s.acceptUpstream
  | .acceptDownstream => some s.acceptDownstream
  | .receive p m => (s.channels p).map fun ch => s.sessionBusPost ch m
  | .status p status => (s.channels p).map fun ch => s.onStatus p ch status
  | .checkCredentials n result =>
    match s.pending[n]? with
    | some (.serverLoginRequest k _ _) => some ((s.take n).authenticatorPost k result)
    | _ => none
  | .handle n =>
    match s.pending[n]? with
    | some (.serverLoginRequest ..) => none
    | some e => (s.take n).handle e
    | none => none
  | .orderStatus status => some (s.onOrderStatus status)
  | .close => some s.close

end SessionManager

/-- Every order of accepts, messages, failures and handled events. -/
def sessionMachine : Machine SessionManager SessionAction := .ofFun .start SessionManager.act
