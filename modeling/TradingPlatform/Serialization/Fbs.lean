/-
The FlatBuffers serializer's way in (`common/src/serialization/fbs/fbs_domain_serializer.hpp`,
`fbs_converter.hpp`, `schema/fbs/domain_messages.fbs`), and which bytes the two
serializers answer.

FlatBuffers and the classes generated from the schema are not part of the
repository.  `FlatBuffers` is what the serializer calls: the verifier and the root
table, as the accessors show it.  In a table that has been verified a text can be
absent, and an enum can have any value of its type.

* `Fbs.deserialize` — every way it can end, with a null pointer that is followed
  as one of them;
* `Fbs.answers_iff`, `Sbe.answers_iff` — the bytes that are answered with one
  message or an error;
* `decoding_iff` — the same for both.
-/
import TradingPlatform.Serialization.SbeFailures

namespace Fbs

/-! ### Tables -/

structure LoginRequestTable where
  name : Option (List UInt8)
  password : Option (List UInt8)

structure TokenBindRequestTable where
  token : UInt32

structure LoginResponseTable where
  token : UInt32
  ok : Bool
  error : Option (List UInt8)

structure OrderTable where
  id : UInt32
  ticker : Option (List UInt8)
  quantity : UInt32
  price : UInt32
  action : Int8

structure OrderStatusTable where
  orderId : UInt32
  systemOrderId : UInt32
  quantity : UInt32
  fillPrice : UInt32
  state : Int32

structure TickerPriceTable where
  ticker : Option (List UInt8)
  price : UInt32

/-- The root table: the type of the union, and `message_as_…`. -/
structure MessageTable where
  messageType : UInt8
  asLoginRequest : Option LoginRequestTable
  asTokenBindRequest : Option TokenBindRequestTable
  asLoginResponse : Option LoginResponseTable
  asOrder : Option OrderTable
  asOrderStatus : Option OrderStatusTable
  asTickerPrice : Option TickerPriceTable

/-- `VerifyBuffer<Message>` and `GetRoot<Message>`. -/
structure FlatBuffers where
  verifyBuffer : List UInt8 → Bool
  getRoot : List UInt8 → Option MessageTable

/-! ### Conversions -/

/-- What can go wrong while a table is read. -/
inductive Fault
  | nullDereference
  | exception

/-- `fbStringToString`. -/
def fbStringToString : Option (List UInt8) → Except Fault (List UInt8)
  | some s => .ok s
  | none => .error .nullDereference

/-- `fbStringToTicker`: at most four bytes are copied into a ticker of zeros. -/
def fbStringToTicker : Option (List UInt8) → Except Fault Ticker
  | some s => .ok (s.getD 0 0, s.getD 1 0, s.getD 2 0, s.getD 3 0)
  | none => .error .nullDereference

/-- `convert(gen::fbs::domain::OrderAction)`. -/
def toOrderAction (raw : Int8) : Except Fault OrderAction :=
  match raw.toInt with
  | 0 => .ok .Dummy
  | 1 => .ok .Buy
  | 2 => .ok .Sell
  | 3 => .ok .Modify
  | 4 => .ok .Cancel
  | _ => .error .exception

/-- `convert(gen::fbs::domain::OrderState)`. -/
def toOrderState (raw : Int32) : Except Fault OrderState :=
  match raw.toInt with
  | 0 => .ok .Accepted
  | 1 => .ok .Rejected
  | 2 => .ok .Cancelled
  | 3 => .ok .Partial
  | 4 => .ok .Full
  | _ => .error .exception

/-! ### `deserialize` -/

def LoginRequestTable.read (t : LoginRequestTable) : Except Fault DomainMessage := do
  return .loginRequest (← fbStringToString t.name) (← fbStringToString t.password)

def TokenBindRequestTable.read (t : TokenBindRequestTable) : Except Fault DomainMessage :=
  .ok (.tokenBindRequest t.token.toUInt64)

def LoginResponseTable.read (t : LoginResponseTable) : Except Fault DomainMessage := do
  return .loginResponse t.token.toUInt64 t.ok (← fbStringToString t.error)

def OrderTable.read (t : OrderTable) : Except Fault DomainMessage := do
  return .order t.id (← fbStringToTicker t.ticker) t.quantity t.price (← toOrderAction t.action)

def OrderStatusTable.read (t : OrderStatusTable) : Except Fault DomainMessage := do
  return .orderStatus t.orderId t.systemOrderId t.quantity t.fillPrice (← toOrderState t.state)

def TickerPriceTable.read (t : TickerPriceTable) : Except Fault DomainMessage := do
  return .tickerPrice (← fbStringToTicker t.ticker) t.price

/-- One case of `deserialize`: the table is read and posted, if it is there.
`none` is a null pointer that has been followed. -/
def extract {τ : Type*} (size : ℕ) (table : Option τ) (read : τ → Except Fault DomainMessage) :
    Option (List DomainMessage × Except Failure ℕ) :=
  match table with
  | none => some ([], .error .error)
  | some t =>
    match read t with
    | .ok m => some ([m], .ok size)
    | .error .exception => some ([], .error .exception)
    | .error .nullDereference => none

/-- `deserialize`. -/
def deserialize (F : FlatBuffers) (data : List UInt8) :
    Option (List DomainMessage × Except Failure ℕ) :=
  if F.verifyBuffer data = false then some ([], .error .error)
  else
    match F.getRoot data with
    | none => some ([], .error .error)
    | some message =>
      match message.messageType.toNat with
      | 1 => extract data.length message.asLoginRequest LoginRequestTable.read
      | 3 => extract data.length message.asTokenBindRequest TokenBindRequestTable.read
      | 2 => extract data.length message.asLoginResponse LoginResponseTable.read
      | 4 => extract data.length message.asOrder OrderTable.read
      | 5 => extract data.length message.asOrderStatus OrderStatusTable.read
      | 6 => extract data.length message.asTickerPrice TickerPriceTable.read
      | _ => some ([], .error .error)

/-! ### Tables that can be read -/

/-- The values both enums of the schema declare. -/
def Declared (raw : ℤ) : Prop := 0 ≤ raw ∧ raw ≤ 4

/-- The texts of the message are there, and its enum has a declared value. -/
def Readable (message : MessageTable) : Prop :=
  match message.messageType.toNat with
  | 1 => ∀ t ∈ message.asLoginRequest, t.name.isSome ∧ t.password.isSome
  | 2 => ∀ t ∈ message.asLoginResponse, t.error.isSome
  | 4 => ∀ t ∈ message.asOrder, t.ticker.isSome ∧ Declared t.action.toInt
  | 5 => ∀ t ∈ message.asOrderStatus, Declared t.state.toInt
  | 6 => ∀ t ∈ message.asTickerPrice, t.ticker.isSome
  | _ => True

theorem fbStringToString_ok {s : Option (List UInt8)} :
    (∃ t, fbStringToString s = .ok t) ↔ s.isSome := by
  cases s <;> simp [fbStringToString]

theorem fbStringToTicker_ok {s : Option (List UInt8)} :
    (∃ t, fbStringToTicker s = .ok t) ↔ s.isSome := by
  cases s <;> simp [fbStringToTicker]

theorem toOrderAction_ok {raw : Int8} :
    (∃ a, toOrderAction raw = .ok a) ↔ Declared raw.toInt := by
  rw [toOrderAction, Declared]
  split <;> simp_all
  omega

theorem toOrderState_ok {raw : Int32} :
    (∃ a, toOrderState raw = .ok a) ↔ Declared raw.toInt := by
  rw [toOrderState, Declared]
  split <;> simp_all
  omega

/-- A computation succeeds if its first step does and what follows does. -/
theorem bind_ok {α β : Type} {x : Except Fault α} {f : α → Except Fault β} :
    (∃ b, (x >>= f) = .ok b) ↔ ∃ a, x = .ok a ∧ ∃ b, f a = .ok b := by
  cases x with
  | error e =>
    constructor
    · rintro ⟨b, hb⟩
      cases hb
    · rintro ⟨a, ha, _⟩
      cases ha
  | ok a =>
    constructor
    · rintro ⟨b, hb⟩
      exact ⟨a, rfl, b, hb⟩
    · rintro ⟨_, ⟨⟩, b, hb⟩
      exact ⟨b, hb⟩

theorem pure_ok {α : Type} (a : α) : ∃ b, (pure a : Except Fault α) = .ok b := ⟨a, rfl⟩

theorem LoginRequestTable.read_ok {t : LoginRequestTable} :
    (∃ m, t.read = .ok m) ↔ t.name.isSome ∧ t.password.isSome := by
  simp only [read, bind_ok, pure_ok, and_true, exists_and_right, fbStringToString_ok]

theorem LoginResponseTable.read_ok {t : LoginResponseTable} :
    (∃ m, t.read = .ok m) ↔ t.error.isSome := by
  simp only [read, bind_ok, pure_ok, and_true, fbStringToString_ok]

theorem OrderTable.read_ok {t : OrderTable} :
    (∃ m, t.read = .ok m) ↔ t.ticker.isSome ∧ Declared t.action.toInt := by
  simp only [read, bind_ok, pure_ok, and_true, exists_and_right, fbStringToTicker_ok,
    toOrderAction_ok]

theorem OrderStatusTable.read_ok {t : OrderStatusTable} :
    (∃ m, t.read = .ok m) ↔ Declared t.state.toInt := by
  simp only [read, bind_ok, pure_ok, and_true, toOrderState_ok]

theorem TickerPriceTable.read_ok {t : TickerPriceTable} :
    (∃ m, t.read = .ok m) ↔ t.ticker.isSome := by
  simp only [read, bind_ok, pure_ok, and_true, fbStringToTicker_ok]

/-- The call returns, and answers. -/
def Answers (size : ℕ) (r : Option (List DomainMessage × Except Failure ℕ)) : Prop :=
  ∃ answer, r = some answer ∧ Answered size answer

theorem answers_error (size : ℕ) : Answers size (some ([], .error .error)) :=
  ⟨_, rfl, .inr rfl⟩

/-- A case answers if the table is absent or can be read. -/
theorem answers_extract {τ : Type*} {size : ℕ} (hsize : 0 < size) {table : Option τ}
    {read : τ → Except Fault DomainMessage} {P : τ → Prop}
    (hread : ∀ t, (∃ m, read t = .ok m) ↔ P t) :
    Answers size (extract size table read) ↔ ∀ t ∈ table, P t := by
  cases table with
  | none => simp [extract, answers_error]
  | some t =>
    simp only [Option.mem_some_iff, forall_eq', ← hread, extract]
    constructor
    · rintro ⟨answer, hanswer, hgood⟩
      split at hanswer
      · next m hm => exact ⟨m, hm⟩
      · -- an exception is not an answer
        cases hanswer
        rcases hgood with ⟨m, n, hm, _⟩ | herror
        · cases hm
        · cases herror
      · cases hanswer
    · rintro ⟨m, hm⟩
      refine ⟨([m], .ok size), ?_, .inl ⟨m, size, rfl, hsize, le_refl _⟩⟩
      simp only [hm]

/-- `deserialize` answers exactly the bytes that are not verified and those of
messages that can be read. -/
theorem answers_iff {F : FlatBuffers} (hF : F.verifyBuffer [] = false) (data : List UInt8) :
    Answers data.length (deserialize F data) ↔
      (F.verifyBuffer data = true → ∀ message ∈ F.getRoot data, Readable message) := by
  rw [deserialize]
  by_cases hverify : F.verifyBuffer data = false
  · simp [hverify, answers_error]
  have hsize : 0 < data.length := by
    rw [List.length_pos_iff]
    rintro rfl
    exact hverify hF
  rw [if_neg hverify]
  rw [Bool.not_eq_false] at hverify
  cases F.getRoot data with
  | none => simp [answers_error]
  | some message =>
    simp only [hverify, Option.mem_some_iff, forall_eq', forall_const]
    unfold Readable
    generalize message.messageType.toNat = n
    split
    · exact answers_extract hsize fun _ => LoginRequestTable.read_ok
    · exact (answers_extract hsize fun _ => iff_of_true ⟨_, rfl⟩ trivial).trans (by simp)
    · exact answers_extract hsize fun _ => LoginResponseTable.read_ok
    · exact answers_extract hsize fun _ => OrderTable.read_ok
    · exact answers_extract hsize fun _ => OrderStatusTable.read_ok
    · exact answers_extract hsize fun _ => TickerPriceTable.read_ok
    · refine iff_of_true (answers_error _) ?_
      split <;> trivial

end Fbs

namespace Sbe

/-- `deserialize` answers everything but orders and order statuses whose action
or state it cannot convert. -/
theorem answers_iff {G : Generated} (hG : FollowsSchema G) (data : List UInt8) :
    Answered data.length (deserialize G data) ↔ ¬ Unreadable data := by
  refine ⟨fun hanswer hdata => ?_, deserialize_of_readable hG⟩
  rw [deserialize_of_unreadable hG hdata] at hanswer
  rcases hanswer with ⟨m, n, hm, _⟩ | herror
  · cases hm
  · cases herror

end Sbe

/-- For all bytes: FlatBuffers' are answered with one message and a size that is
there or with an error if and only if, in the case that they are verified, the
texts of the message are there and its enum is declared; SBE's, if and only if
they are not an order with an action or an order status with a state that cannot
be converted. -/
theorem decoding_iff {F : Fbs.FlatBuffers} (hF : F.verifyBuffer [] = false)
    {G : Sbe.Generated} (hG : Sbe.FollowsSchema G) (data : List UInt8) :
    (Fbs.Answers data.length (Fbs.deserialize F data) ↔
      (F.verifyBuffer data = true → ∀ message ∈ F.getRoot data, Fbs.Readable message)) ∧
    (Answered data.length (Sbe.deserialize G data) ↔ ¬ Sbe.Unreadable data) :=
  ⟨Fbs.answers_iff hF data, Sbe.answers_iff hG data⟩

namespace Fbs

/-- A login request without its two texts: the root table has the type of the
union and an offset, and the table at this offset has no fields. -/
def emptyLogin : List UInt8 :=
  [12, 0, 0, 0, 8, 0, 12, 0, 8, 0, 4, 0, 8, 0, 0, 0, 12, 0, 0, 0, 1, 0, 0, 0,
    4, 0, 4, 0, 4, 0, 0, 0]

/-- What FlatBuffers says about these bytes. -/
def ofEmptyLogin : FlatBuffers where
  verifyBuffer data := data == emptyLogin
  getRoot data := if data = emptyLogin then
    some ⟨1, some ⟨none, none⟩, none, none, none, none, none⟩ else none

theorem decoding_emptyLogin :
    ¬ Answers emptyLogin.length (deserialize ofEmptyLogin emptyLogin) ∧
      Answered emptyLogin.length (Sbe.deserialize Sbe.generated emptyLogin) := by
  obtain ⟨hfbs, hsbe⟩ := decoding_iff (F := ofEmptyLogin) rfl Sbe.generated_followsSchema emptyLogin
  rw [hfbs, hsbe]
  refine ⟨fun h => ?_, by decide⟩
  have hread := h rfl _ rfl
  simp [Readable] at hread

/-- The encoding of an order whose action is `CANCEL`. -/
def cancelOrder : List UInt8 :=
  [17, 0, 4, 0, 1, 0, 1, 0, 1, 0, 0, 0, 65, 65, 80, 76, 10, 0, 0, 0, 100, 0, 0, 0, 4]

/-- A text that is absent is followed, and an action that is declared is not
converted. -/
theorem not_answered :
    deserialize ofEmptyLogin emptyLogin = none ∧
      Sbe.deserialize Sbe.generated cancelOrder = ([], .error .exception) ∧
      ¬ Answered cancelOrder.length (Sbe.deserialize Sbe.generated cancelOrder) := by
  have hcancel : Sbe.Unreadable cancelOrder := by decide
  refine ⟨rfl, Sbe.deserialize_of_unreadable Sbe.generated_followsSchema hcancel, ?_⟩
  rw [Sbe.answers_iff Sbe.generated_followsSchema, not_not]
  exact hcancel

end Fbs
