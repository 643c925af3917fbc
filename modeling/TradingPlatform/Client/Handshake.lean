/-
A client and the server it logs in to.

One client runs the connection manager of `Client.Connection` against the session
manager of `Session.Model`.  Who else connects to the server, and what they send,
is not restricted; only the client's own two connections carry nothing but what the
client has written.  What the server answers on them reaches the client in order
and at most once; what the client writes may reach the server late, or never.

* `agreement` — if the client was ever told that it is connected, the server has
  authenticated both its connections, as one and the same client, after a login
  on the one and with the token of that login on the other;
* `bound_to_own_login` — the downstream connection speaks for nobody but the
  client that logged in on the upstream one, whatever others send;
* `handled` — the client's handlers never dereference a null channel.

The argument is that both answers the client waits for come from different
connections although it does not look: a connection is welcomed once, and the
downstream one only after the token of the upstream one.
-/
import TradingPlatform.Client.Connection
import TradingPlatform.Session.Responses
import Mathlib.Data.List.Perm.Basic

open SessionManager ConnectionManager

/-- A client and the server.  `ends` is where the server has put the channels of
the client's connections, `opened` says which of them the client knows about, and
`arrived` how many answers it has seen on each; `received` lists them. -/
structure Handshake where
  server : SessionManager
  client : ConnectionManager
  ends : ChannelKind → Option ChannelPtr
  opened : ChannelKind → Bool
  arrived : ChannelKind → ℕ
  received : List (ChannelKind × DomainMessage)

/-- What can happen next. -/
inductive HandshakeAction
  | accept (kind : ChannelKind)
  | connect (kind : ChannelKind)
  | datagram
  | deliver (kind : ChannelKind) (m : DomainMessage)
  | arrive (kind : ChannelKind) (n : ℕ)
  | fail (kind : ChannelKind) (status : ConnectionStatus)
  | failPrices (status : ConnectionStatus)
  | handle (n : ℕ)
  | order (id : OrderId) (ticker : Ticker) (quantity : Quantity) (price : Price)
      (action : OrderAction)
  | close
  | server (a : SessionAction)

namespace Handshake

def start (name password : List UInt8) : Handshake :=
  ⟨.start, .start name password, fun _ => none, fun _ => false, fun _ => 0, []⟩

/-- What the server has answered on the connection of the client. -/
def answers (s : Handshake) (kind : ChannelKind) : List DomainMessage :=
  match s.ends kind with
  | some p => (s.server.responses.filter fun x => x.1 == genConnectionId p).map Prod.snd
  | none => []

/-- A step of the server that is not a message on a connection of the client. -/
def Foreign (s : Handshake) : SessionAction → Prop
  | .receive p _ => s.ends .upstream ≠ some p ∧ s.ends .downstream ≠ some p
  | _ => True

instance (s : Handshake) (a : SessionAction) : Decidable (s.Foreign a) :=
  match a with
  | .receive p _ =>
    inferInstanceAs (Decidable (s.ends .upstream ≠ some p ∧ s.ends .downstream ≠ some p))
  | .acceptUpstream | .acceptDownstream | .status .. | .checkCredentials .. | .handle .. |
    .orderStatus .. | .close => isTrue trivial

/-- One step.  A connection is accepted once, if the server has room for it, and
the client's callback for it runs once. -/
def act (s : Handshake) : HandshakeAction → Option Handshake
  | .accept kind =>
    if s.ends kind = none then
      let server := s.server.accept kind
      some { s with
        server := server
        ends := Function.update s.ends kind
          ((server.channels s.server.connections).map fun _ => s.server.connections) }
    else none
  | .connect kind =>
    if s.opened kind then none
    else some { s with
      client := s.client.onConnected kind, opened := Function.update s.opened kind true }
  | .datagram => some { s with client := s.client.onDatagram }
  | .deliver kind m =>
    if m ∈ s.client.written kind then
      (s.ends kind).bind fun p =>
        (s.server.act (.receive p m)).map fun server => { s with server := server }
    else none
  | .arrive kind n =>
    if s.opened kind ∧ s.arrived kind ≤ n then
      (s.answers kind)[n]?.map fun m => { s with
        client := s.client.post kind m
        received := s.received ++ [(kind, m)]
        arrived := Function.update s.arrived kind (n + 1) }
    else none
  | .fail kind status =>
    if s.opened kind then some { s with client := s.client.onStatus kind status } else none
  | .failPrices status => some { s with client := s.client.onPricesStatus status }
  | .handle n =>
    s.client.pending[n]?.bind fun e =>
      ((s.client.take n).handle e).map fun client => { s with client := client }
  | .order id ticker quantity price action =>
    some { s with client := s.client.onOrder id ticker quantity price action }
  | .close => some { s with client := s.client.reset }
  | .server a =>
    if s.Foreign a then (s.server.act a).map fun server => { s with server := server } else none

end Handshake

/-- Every order of steps of the client, the server and everybody else. -/
def handshakeMachine (name password : List UInt8) : Machine Handshake HandshakeAction :=
  .ofFun (.start name password) Handshake.act

namespace Handshake

variable {s s' : Handshake}

/-! ### The invariant -/

/-- A positive answer, as the client sees it. -/
def grantOf : ChannelKind × DomainMessage → Option (ChannelKind × Token)
  | (kind, .loginResponse token true _) => some (kind, token)
  | _ => none

/-- The positive answers the client has seen. -/
def grants (s : Handshake) : List (ChannelKind × Token) := s.received.filterMap grantOf

/-- How the two sides hang together. -/
structure Linked (s : Handshake) : Prop where
  auth : Auth s.server
  welcomed : Welcomed s.server
  steady : Steady s.client
  ends : ∀ kind p, s.ends kind = some p → ∃ cl, s.server.Is p kind (genConnectionId p) cl
  numbered : ∀ x ∈ s.server.presented, ∃ q < s.server.connections, x.1 = genConnectionId q
  heard : ∀ kind, ((s.received.filter fun x => x.1 == kind).map Prod.snd).Sublist
    ((s.answers kind).take (s.arrived kind))
  balanced : (s.client.accepted ++ s.client.pending.filterMap ClientEvent.grant?).Perm s.grants
  presented : s.server.connections ≤ 2 ^ 32 → ∀ p token, s.ends .downstream = some p →
    (genConnectionId p, token) ∈ s.server.presented →
    .tokenBindRequest token ∈ s.client.written .downstream
  bound : s.server.connections ≤ 2 ^ 32 → ∀ token,
    .tokenBindRequest token ∈ s.client.written .downstream → (.upstream, token) ∈ s.grants

theorem Linked.start (name password : List UInt8) : Linked (start name password) where
  auth := .start
  welcomed := .start
  steady := .start name password
  ends _ _ h := absurd h (Option.some_ne_none _).symm
  numbered _ h := absurd h List.not_mem_nil
  heard _ := List.nil_sublist _
  balanced := .refl _
  presented _ _ _ h := absurd h (Option.some_ne_none _).symm
  bound _ _ h := absurd h List.not_mem_nil

theorem mem_grants {kind : ChannelKind} {token : Token} (h : (kind, token) ∈ s.grants) :
    ∃ error, (kind, .loginResponse token true error) ∈ s.received := by
  obtain ⟨⟨kind', m⟩, hmem, hg⟩ := List.mem_filterMap.1 h
  cases m with
  | loginResponse token' ok error =>
    cases ok with
    | true =>
      obtain ⟨rfl, rfl⟩ := Prod.mk.inj (Option.some_inj.1 hg)
      exact ⟨error, hmem⟩
    | false => exact absurd hg (by simp [grantOf])
  | _ => exact absurd hg (by simp [grantOf])

/-- What the client has seen as granted was granted by the server. -/
theorem Linked.granted (h : Linked s) {kind : ChannelKind} {token : Token}
    (hg : (kind, token) ∈ s.grants) : ∃ p, s.ends kind = some p ∧
      s.server.AnswerOk (genConnectionId p) token := by
  obtain ⟨error, hmem⟩ := mem_grants hg
  have hin : DomainMessage.loginResponse token true error ∈ s.answers kind := by
    refine List.mem_of_mem_take ((h.heard kind).subset ?_)
    exact List.mem_map.2 ⟨_, List.mem_filter.2 ⟨hmem, beq_self_eq_true kind⟩, rfl⟩
  rw [answers] at hin
  split at hin
  · next p hp =>
    obtain ⟨⟨k, m⟩, hx, rfl⟩ := List.mem_map.1 hin
    obtain ⟨hx, hk⟩ := List.mem_filter.1 hx
    obtain rfl := beq_iff_eq.1 hk
    exact ⟨p, hp, h.welcomed.answer _ _ _ hx⟩
  · exact absurd hin List.not_mem_nil

/-- The channel behind a granted answer. -/
theorem Linked.authenticated (h : Linked s) (hc : s.server.connections ≤ 2 ^ 32)
    {kind : ChannelKind} {token : Token} (hg : (kind, token) ∈ s.grants) :
    ∃ p c, s.ends kind = some p ∧ s.server.Is p kind (genConnectionId p) (some c) ∧
      (token, c) ∈ s.server.issued ∧
      (kind = .downstream → (genConnectionId p, token) ∈ s.server.presented) := by
  obtain ⟨p, hp, hok⟩ := h.granted hg
  obtain ⟨q, kind', c, his, hissued, hpres⟩ := hok.welcomed
  obtain ⟨cl, his'⟩ := h.ends kind p hp
  obtain ⟨rfl, rfl, rfl⟩ := channel_unique h.auth hc his his'
  exact ⟨q, c, hp, his, hissued, hpres⟩

/-- The client binds tokens of its own login only. -/
theorem Linked.grant_upstream (h : Linked s) (hc : s.server.connections ≤ 2 ^ 32)
    {kind : ChannelKind} {token : Token} (hg : (kind, token) ∈ s.grants) :
    (.upstream, token) ∈ s.grants := by
  cases kind with
  | upstream => exact hg
  | downstream =>
    obtain ⟨p, c, hp, _, _, hpres⟩ := h.authenticated hc hg
    exact h.bound hc token (h.presented hc p token hp (hpres rfl))

/-! ### One answer on each connection -/

theorem countP_grants (l : List (ChannelKind × DomainMessage)) (kind : ChannelKind) :
    (l.filterMap grantOf).countP (fun g => g.1 == kind) =
      ((l.filter fun x => x.1 == kind).map Prod.snd).countP isOk := by
  induction l with
  | nil => rfl
  | cons x l ih =>
    obtain ⟨kind', m⟩ := x
    have hx : grantOf (kind', m) = none ∧ isOk m = false ∨
        ∃ token, grantOf (kind', m) = some (kind', token) ∧ isOk m = true := by
      cases m with
      | loginResponse token ok error =>
        cases ok with
        | true => exact .inr ⟨token, rfl, rfl⟩
        | false => exact .inl ⟨rfl, rfl⟩
      | _ => exact .inl ⟨rfl, rfl⟩
    rcases hx with ⟨hg, hok⟩ | ⟨token, hg, hok⟩
    · rw [List.filterMap_cons_none hg, ih, List.filter_cons]
      split
      · rw [List.map_cons, List.countP_cons_of_neg (by simp [hok])]
      · rfl
    · rw [List.filterMap_cons_some hg, List.filter_cons]
      by_cases hk : kind' = kind
      · subst hk
        simp [hok, ih]
      · simp [hk, ih]

/-- On each connection the client has seen at most one positive answer. -/
theorem Linked.grants_le_one (h : Linked s) (hc : s.server.connections ≤ 2 ^ 32)
    (kind : ChannelKind) : s.grants.countP (fun g => g.1 == kind) ≤ 1 := by
  rw [grants, countP_grants]
  have hle := ((h.heard kind).trans (List.take_sublist _ _)).countP_le (p := isOk)
  refine le_trans hle ?_
  rw [answers]
  split
  · next p _ =>
    rw [List.countP_map, List.countP_eq_length_filter, List.filter_filter]
    have honce := h.welcomed.once hc (genConnectionId p)
    rw [okAnswers] at honce
    refine le_trans (le_of_eq ?_) honce
    congr 1
    refine List.filter_congr fun x _ => ?_
    rw [Bool.and_comm]
    rfl
  · exact Nat.zero_le 1

/-- A client that has accepted two answers has one from each connection. -/
theorem Linked.both (h : Linked s) (hc : s.server.connections ≤ 2 ^ 32)
    (htwo : 2 ≤ s.client.accepted.length) :
    ∃ token token', (.upstream, token) ∈ s.grants ∧ (.downstream, token') ∈ s.grants := by
  have hlen : 2 ≤ s.grants.length := by
    rw [← h.balanced.length_eq, List.length_append]
    omega
  have hup := h.grants_le_one hc .upstream
  have hdown := h.grants_le_one hc .downstream
  have hsum : s.grants.length = s.grants.countP (fun g => g.1 == .upstream) +
      s.grants.countP (fun g => g.1 == .downstream) := by
    rw [List.length_eq_countP_add_countP fun g => g.1 == ChannelKind.upstream]
    congr 1
    refine List.countP_congr fun g _ => ?_
    obtain ⟨kind, token⟩ := g
    cases kind with
    | upstream => simp
    | downstream => simp
  have hmem : ∀ kind, 0 < s.grants.countP (fun g => g.1 == kind) →
      ∃ token, (kind, token) ∈ s.grants := by
    intro kind hpos
    obtain ⟨⟨kind', token⟩, hg, hk⟩ := List.countP_pos_iff.1 hpos
    obtain rfl : kind' = kind := beq_iff_eq.1 hk
    exact ⟨token, hg⟩
  obtain ⟨token, htoken⟩ := hmem .upstream (by omega)
  obtain ⟨token', htoken'⟩ := hmem .downstream (by omega)
  exact ⟨token, token', htoken, htoken'⟩

/-! ### Steps of the client -/

/-- The client does something that is no answer. -/
theorem Linked.clientStep (h : Linked s) {client : ConnectionManager} {events : List ClientEvent}
    (hsteady : Steady client) (hr : Records s.client client [] events)
    (hev : events.filterMap ClientEvent.grant? = []) : Linked { s with client := client } where
  auth := h.auth
  welcomed := h.welcomed
  steady := hsteady
  ends := h.ends
  numbered := h.numbered
  heard := h.heard
  balanced := by
    rw [hr.accepted, hr.pending, List.append_nil, List.filterMap_append, hev, List.append_nil]
    exact h.balanced
  presented hc p token hp hmem := hr.written _ (h.presented hc p token hp hmem)
  bound hc token hmem := by
    rcases hr.bound _ hmem with hmem | ⟨g, hg, _⟩
    · exact h.bound hc token hmem
    · exact absurd hg List.not_mem_nil

/-- An answer is posted to the client's queue. -/
theorem Linked.arrive (h : Linked s) {kind : ChannelKind} {n : ℕ} {m : DomainMessage}
    (hn : s.arrived kind ≤ n) (hm : (s.answers kind)[n]? = some m) : Linked { s with
      client := s.client.post kind m
      received := s.received ++ [(kind, m)]
      arrived := Function.update s.arrived kind (n + 1) } := by
  have hwritten : (s.client.post kind m).written = s.client.written := by
    cases m with
    | _ => rfl
  have hgrants : ((s.client.post kind m).accepted ++
      (s.client.post kind m).pending.filterMap ClientEvent.grant?).Perm
      (s.grants ++ [(kind, m)].filterMap grantOf) := by
    have hsame : (s.client.accepted ++ s.client.pending.filterMap ClientEvent.grant?).Perm
        (s.grants ++ []) := by
      rw [List.append_nil]
      exact h.balanced
    cases m with
    | loginResponse token ok error =>
      rw [ConnectionManager.post, List.filterMap_append, ← List.append_assoc]
      cases ok with
      | true => exact h.balanced.append_right _
      | false => exact h.balanced.append_right _
    | _ => exact hsame
  refine {
    auth := h.auth
    welcomed := h.welcomed
    steady := h.steady.post kind m
    ends := h.ends
    numbered := h.numbered
    heard := ?_
    balanced := ?_
    presented := ?_
    bound := ?_ }
  · intro kind'
    by_cases hk : kind' = kind
    · subst hk
      have hanswers : Handshake.answers { s with
          client := s.client.post kind' m
          received := s.received ++ [(kind', m)]
          arrived := Function.update s.arrived kind' (n + 1) } kind' = s.answers kind' := rfl
      simp only [List.filter_append, List.map_append, Function.update_self]
      rw [hanswers, List.take_add_one, hm]
      refine List.Sublist.append ((h.heard kind').trans ?_) ?_
      · exact (List.take_prefix_take_left hn).sublist
      · simp
    · simp only [List.filter_append, List.map_append, Function.update_of_ne hk]
      have hnil : [(kind, m)].filter (fun x => x.1 == kind') = [] := by
        simp [Ne.symm hk]
      rw [hnil, List.map_nil, List.append_nil]
      exact h.heard kind'
  · rw [grants, List.filterMap_append]
    exact hgrants
  · intro hc p token hp hmem
    rw [hwritten]
    exact h.presented hc p token hp hmem
  · intro hc token hmem
    rw [hwritten] at hmem
    rw [grants, List.filterMap_append]
    exact List.mem_append_left _ (h.bound hc token hmem)

/-- The client handles an event of its queue. -/
theorem Linked.handleStep (h : Linked s) {n : ℕ} {e : ClientEvent} {client : ConnectionManager}
    (hn : s.client.pending[n]? = some e) (hs : (s.client.take n).handle e = some client) :
    Linked { s with client := client } := by
  have hr := Records.handle hs
  obtain ⟨client', hs', hsteady⟩ := Steady.handle (h.steady.withPending _) e
  obtain rfl := Option.some_inj.1 (hs'.symm.trans hs)
  -- the answer moves from the queue to the record
  have hbalanced : (client'.accepted ++ client'.pending.filterMap ClientEvent.grant?).Perm
      s.grants := by
    obtain ⟨hlt, hget⟩ := List.getElem?_eq_some_iff.1 hn
    have hperm : (e.grant?.toList ++ (s.client.pending.eraseIdx n).filterMap
        ClientEvent.grant?).Perm (s.client.pending.filterMap ClientEvent.grant?) := by
      have hmove := (List.getElem_cons_eraseIdx_perm hlt).filterMap ClientEvent.grant?
      rw [hget] at hmove
      cases hg : e.grant? with
      | none =>
        rw [List.filterMap_cons_none hg] at hmove
        exact hmove
      | some g =>
        rw [List.filterMap_cons_some hg] at hmove
        exact hmove
    rw [hr.accepted, hr.pending, List.append_nil, List.append_assoc]
    exact (hperm.append_left _).trans h.balanced
  have hgrant : ∀ g ∈ e.grant?.toList, g ∈ s.grants := by
    intro g hg
    refine hbalanced.subset (List.mem_append_left _ ?_)
    rw [hr.accepted]
    exact List.mem_append_right _ hg
  exact {
    auth := h.auth
    welcomed := h.welcomed
    steady := hsteady
    ends := h.ends
    numbered := h.numbered
    heard := h.heard
    balanced := hbalanced
    presented := fun hc p token hp hmem => hr.written _ (h.presented hc p token hp hmem)
    bound := by
      intro hc token hmem
      rcases hr.bound _ hmem with hmem | ⟨⟨origin, token'⟩, hg, heq⟩
      · exact h.bound hc token hmem
      · obtain rfl := DomainMessage.tokenBindRequest.inj heq
        exact h.grant_upstream hc (hgrant _ hg) }

/-! ### Steps of the server -/

/-- A step of the server on whatever is not the client's connections, or with what
the client has written on them. -/
theorem Linked.serverStep (h : Linked s) {a : SessionAction} {server : SessionManager}
    (hs : s.server.act a = some server)
    (ha : s.Foreign a ∨ ∃ kind p m, a = .receive p m ∧ s.ends kind = some p ∧
      m ∈ s.client.written kind) : Linked { s with server := server } := by
  have he := effect_of_act h.auth hs
  have hkeeps := he.keeps h.auth
  have hresp := he.responses
  refine {
    auth := h.auth.act hs
    welcomed := h.welcomed.act h.auth hs
    steady := h.steady
    ends := ?_
    numbered := ?_
    heard := ?_
    balanced := h.balanced
    presented := ?_
    bound := fun hc token hmem => h.bound (hkeeps.1.trans hc) token hmem }
  · intro kind p hp
    obtain ⟨cl, his⟩ := h.ends kind p hp
    obtain ⟨cl', his', _⟩ := hkeeps.2 p kind _ cl his
    exact ⟨cl', his'⟩
  · intro x hx
    have hold : x ∈ s.server.presented → ∃ q < server.connections, x.1 = genConnectionId q := by
      intro hx
      obtain ⟨q, hq, heq⟩ := h.numbered x hx
      exact ⟨q, lt_of_lt_of_le hq hkeeps.1, heq⟩
    rcases he.presented with hpres | ⟨q, ch, token, _, hch, hpres⟩
    · exact hold (hpres ▸ hx)
    · rw [hpres, List.mem_append, List.mem_singleton] at hx
      rcases hx with hx | rfl
      · exact hold hx
      · obtain ⟨hid, hlt⟩ := h.auth.ids q ch hch
        exact ⟨q, lt_of_lt_of_le hlt hkeeps.1, hid⟩
  · intro kind
    have hpre : s.answers kind <+: Handshake.answers { s with server := server } kind := by
      simp only [answers]
      cases s.ends kind with
      | some p => exact (hresp.filter _).map _
      | none => exact List.nil_prefix
    refine (h.heard kind).trans (List.IsPrefix.sublist (List.prefix_take_iff.2 ⟨?_, ?_⟩))
    · exact (List.take_prefix _ _).trans hpre
    · exact List.length_take_le _ _
  · intro hc p token hp hmem
    have hc' := hkeeps.1.trans hc
    rcases he.presented with hpres | ⟨q, ch, token', heq, hch, hpres⟩
    · exact h.presented hc' p token hp (hpres ▸ hmem)
    · rw [hpres, List.mem_append, List.mem_singleton, Prod.mk.injEq] at hmem
      rcases hmem with hmem | ⟨hid, rfl⟩
      · exact h.presented hc' p token hp hmem
      · -- the request came in on the client's own downstream connection
        obtain ⟨cl, ch', hch', hkind, _⟩ := h.ends .downstream p hp
        have hids := h.auth.ids p ch' hch'
        have hids' := h.auth.ids q ch hch
        obtain rfl : p = q := ofNat_mod_inj (lt_of_lt_of_le hids.2 hc')
          (lt_of_lt_of_le hids'.2 hc') (hid.trans hids'.1)
        rcases ha with ha | ⟨kind, p', m, heq', hp', hm⟩
        · rw [heq] at ha
          exact absurd hp ha.2
        · obtain ⟨rfl, rfl⟩ := SessionAction.receive.inj (heq.symm.trans heq')
          obtain ⟨cl', ch'', hch'', hkind', _⟩ := h.ends kind p hp'
          obtain rfl := Option.some_inj.1 (hch'.symm.trans hch'')
          obtain rfl : ChannelKind.downstream = kind := hkind.symm.trans hkind'
          exact hm

/-- The server accepts a connection of the client. -/
theorem Linked.accept (h : Linked s) {kind : ChannelKind} (hnone : s.ends kind = none) :
    Linked { s with
      server := s.server.accept kind
      ends := Function.update s.ends kind
        (((s.server.accept kind).channels s.server.connections).map
          fun _ => s.server.connections) } := by
  have hact : ∃ a, s.server.act a = some (s.server.accept kind) ∧ s.Foreign a := by
    cases kind with
    | upstream => exact ⟨.acceptUpstream, rfl, trivial⟩
    | downstream => exact ⟨.acceptDownstream, rfl, trivial⟩
  obtain ⟨a, ha, hforeign⟩ := hact
  have h' := h.serverStep ha (.inl hforeign)
  have hpres := (s.server.accept_records kind).2.2.1
  have hnew : s.server.channels s.server.connections = none := by
    rw [Option.eq_none_iff_forall_ne_some]
    intro ch hch
    exact absurd (h.auth.ids _ ch hch).2 (lt_irrefl _)
  refine {
    auth := h'.auth
    welcomed := h'.welcomed
    steady := h'.steady
    ends := ?_
    numbered := h'.numbered
    heard := ?_
    balanced := h'.balanced
    presented := ?_
    bound := h'.bound }
  · intro kind' p hp
    by_cases hk : kind' = kind
    · subst hk
      simp only [Function.update_self] at hp
      obtain ⟨ch, hch, rfl⟩ := Option.map_eq_some_iff.1 hp
      exact ⟨none, accept_is hnew hch⟩
    · simp only [Function.update_of_ne hk] at hp
      exact h'.ends kind' p hp
  · intro kind'
    by_cases hk : kind' = kind
    · -- nothing was heard on it before
      have hnil := h.heard kind'
      subst hk
      rw [answers, hnone, List.take_nil] at hnil
      rw [List.sublist_nil.1 hnil]
      exact List.nil_sublist _
    · have hsame := h'.heard kind'
      simp only [answers, Function.update_of_ne hk]
      simp only [answers] at hsame
      exact hsame
  · intro hc p token hp hmem
    by_cases hk : ChannelKind.downstream = kind
    · subst hk
      simp only [Function.update_self] at hp
      obtain ⟨ch, hch, rfl⟩ := Option.map_eq_some_iff.1 hp
      -- the id is a new one, on which nothing was presented
      have hlt := (h'.auth.ids _ ch hch).2
      rw [hpres] at hmem
      obtain ⟨q, hq, heq⟩ := h.numbered _ hmem
      have hq' := lt_trans hq hlt
      exact absurd (ofNat_mod_inj (lt_of_lt_of_le hlt hc) (lt_of_lt_of_le hq' hc) heq)
        (ne_of_gt hq)
    · simp only [Function.update_of_ne hk] at hp
      exact h'.presented hc p token hp hmem

theorem Linked.act (h : Linked s) {a : HandshakeAction} (hs : s.act a = some s') :
    Linked s' := by
  cases a with
  | accept kind =>
    simp only [Handshake.act] at hs
    split at hs
    · next hnone =>
      obtain rfl := Option.some_inj.1 hs
      exact h.accept hnone
    · exact absurd hs (Option.some_ne_none _).symm
  | connect kind =>
    simp only [Handshake.act] at hs
    split at hs
    · exact absurd hs (Option.some_ne_none _).symm
    · obtain rfl := Option.some_inj.1 hs
      have h' := h.clientStep (h.steady.onConnected kind) (.onConnected _ kind) rfl
      exact ⟨h'.auth, h'.welcomed, h'.steady, h'.ends, h'.numbered, h'.heard, h'.balanced,
        h'.presented, h'.bound⟩
  | datagram =>
    obtain rfl := Option.some_inj.1 hs
    exact h.clientStep h.steady.onDatagram (.onDatagram _) rfl
  | deliver kind m =>
    simp only [Handshake.act] at hs
    split at hs
    · next hm =>
      obtain ⟨p, hp, hs⟩ := Option.bind_eq_some_iff.1 hs
      obtain ⟨server, hserver, rfl⟩ := Option.map_eq_some_iff.1 hs
      exact h.serverStep hserver (.inr ⟨kind, p, m, rfl, hp, hm⟩)
    · exact absurd hs (Option.some_ne_none _).symm
  | arrive kind n =>
    simp only [Handshake.act] at hs
    split at hs
    · next hn =>
      obtain ⟨m, hm, rfl⟩ := Option.map_eq_some_iff.1 hs
      exact h.arrive hn.2 hm
    · exact absurd hs (Option.some_ne_none _).symm
  | fail kind status =>
    simp only [Handshake.act] at hs
    split at hs
    · obtain rfl := Option.some_inj.1 hs
      exact h.clientStep (h.steady.onStatus kind status) (.onStatus _ kind status) rfl
    · exact absurd hs (Option.some_ne_none _).symm
  | failPrices status =>
    obtain rfl := Option.some_inj.1 hs
    exact h.clientStep (h.steady.onPricesStatus status) (.onPricesStatus _ status) rfl
  | handle n =>
    obtain ⟨e, hn, hs⟩ := Option.bind_eq_some_iff.1 hs
    obtain ⟨client, hclient, rfl⟩ := Option.map_eq_some_iff.1 hs
    exact h.handleStep hn hclient
  | order id ticker quantity price action =>
    obtain rfl := Option.some_inj.1 hs
    exact h.clientStep (h.steady.onOrder ..) (.onOrder ..) rfl
  | close =>
    obtain rfl := Option.some_inj.1 hs
    exact h.clientStep h.steady.reset (.reset _) rfl
  | server a =>
    simp only [Handshake.act] at hs
    split at hs
    · next hforeign =>
      obtain ⟨server, hserver, rfl⟩ := Option.map_eq_some_iff.1 hs
      exact h.serverStep hserver (.inl hforeign)
    · exact absurd hs (Option.some_ne_none _).symm

theorem Linked.run {name password : List UInt8} {as : List HandshakeAction}
    (h : (handshakeMachine name password).Run as s) : Linked s := by
  refine h.invariant ?_ fun s a s' hlinked hs => hlinked.act hs
  rintro s rfl
  exact .start name password

/-! ### Agreement -/

/-- In every order of steps, with fewer than `2 ^ 32` connections and logins: if the
client has announced that it is connected, the server has both its connections
authenticated, as one client that was granted the login on the upstream one, and the
token bound on the downstream one is the token issued at that login. -/
theorem agreement {name password : List UInt8} {as : List HandshakeAction}
    (h : (handshakeMachine name password).Run as s) (hc : s.server.connections ≤ 2 ^ 32)
    (ht : s.server.tokens ≤ 2 ^ 32) (hann : .Connected ∈ s.client.announced) :
    ∃ p q c token, s.ends .upstream = some p ∧ s.ends .downstream = some q ∧
      s.server.Is p .upstream (genConnectionId p) (some c) ∧
      s.server.Is q .downstream (genConnectionId q) (some c) ∧
      (genConnectionId p, c) ∈ s.server.granted ∧ (token, c) ∈ s.server.issued ∧
      .tokenBindRequest token ∈ s.client.written .downstream ∧
      (genConnectionId q, token) ∈ s.server.presented := by
  have hI := Linked.run h
  obtain ⟨t, token, hup, hdown⟩ := hI.both hc (hI.steady.announced hann)
  obtain ⟨q, c', hq, hisq, hissued', hpres⟩ := hI.authenticated hc hdown
  -- the token bound downstream is one of an upstream answer
  obtain ⟨p, c, hp, hisp, hissued, _⟩ := hI.authenticated hc (hI.grant_upstream hc hdown)
  obtain rfl := hI.welcomed.issued ht token c c' hissued hissued'
  exact ⟨p, q, c, token, hp, hq, hisp, hisq, hI.auth.clients _ _ _ _ hisp, hissued,
    hI.presented hc q token hq (hpres rfl), hpres rfl⟩

/-- A run of the machine, computed. -/
theorem exists_run (name password : List UInt8) (as : List HandshakeAction)
    (p : Handshake → Bool) (h : (Machine.exec act (.start name password) as).any p = true) :
    ∃ s, (handshakeMachine name password).Run as s ∧ p s = true :=
  Machine.exists_run (M := handshakeMachine name password) (fun h => h) rfl as p h

/-- The client connects, logs in as client 7 and binds its token. -/
def wholeHandshake : List HandshakeAction :=
  [.accept .upstream, .connect .upstream, .connect .downstream, .accept .downstream,
    .deliver .upstream (.loginRequest [110] [112]), .server (.checkCredentials 0 (.ok 7)),
    .server (.handle 0), .arrive .upstream 0, .handle 0,
    .deliver .downstream (.tokenBindRequest 0), .server (.handle 0), .arrive .downstream 0,
    .handle 0]

theorem agreement_wholeHandshake : ∃ s, (handshakeMachine [110] [112]).Run wholeHandshake s ∧
    .Connected ∈ s.client.announced ∧
    ∃ p q c, s.ends .upstream = some p ∧ s.ends .downstream = some q ∧
      s.server.Is p .upstream (genConnectionId p) (some c) ∧
      s.server.Is q .downstream (genConnectionId q) (some c) := by
  obtain ⟨s, hrun, hs⟩ := exists_run [110] [112] wholeHandshake
    (fun s => .Connected ∈ s.client.announced ∧ s.server.connections ≤ 2 ^ 32 ∧
      s.server.tokens ≤ 2 ^ 32) (by decide +kernel)
  obtain ⟨hann, hc, ht⟩ := of_decide_eq_true hs
  obtain ⟨p, q, c, token, hp, hq, hisp, hisq, _⟩ := agreement hrun hc ht hann
  exact ⟨s, hrun, hann, p, q, c, hp, hq, hisp, hisq⟩

/-- Whatever the server and others send, and in whatever order connections open,
fail and events are handled, no handler of the client finds a null channel. -/
theorem handled {name password : List UInt8} {as : List HandshakeAction}
    (h : (handshakeMachine name password).Run as s) {n : ℕ} {e : ClientEvent}
    (hn : s.client.pending[n]? = some e) : ∃ s', s.act (.handle n) = some s' := by
  obtain ⟨client, hclient, _⟩ := Steady.handle ((Linked.run h).steady.withPending _) e
  exact ⟨{ s with client := client }, Option.bind_eq_some_iff.2 ⟨e, hn,
    Option.map_eq_some_iff.2 ⟨client, hclient, rfl⟩⟩⟩

theorem handled_wholeHandshake : ∃ s, (handshakeMachine [110] [112]).Run
    (wholeHandshake.take 8) s ∧ ∃ s', s.act (.handle 0) = some s' := by
  obtain ⟨s, hrun, hs⟩ := exists_run [110] [112] (wholeHandshake.take 8)
    (fun s => s.client.pending[0]? = some (.loginResponse .upstream 0 true []))
    (by decide +kernel)
  exact ⟨s, hrun, handled hrun (of_decide_eq_true hs)⟩

end Handshake
