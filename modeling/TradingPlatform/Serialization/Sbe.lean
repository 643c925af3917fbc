/-
The SBE serializer (`common/src/serialization/sbe/sbe_domain_serializer.hpp`,
`sbe_converter.hpp`, `schema/sbe/domain_messages.xml`).

The classes the build generates from the schema are not part of the repository.
`Generated` are their accessors, and `FollowsSchema` is what the serializer
relies on: numbers are little-endian and as wide as the schema says, `putCharN`
fills up with zeros, `getCharNAsString` stops at the first one, and the enum
accessors know the declared values.  Template ids, block lengths and offsets are
those of the schema.

* `serialize`, `deserialize` — the two directions, with every way to fail;
* `deserialize_serialize` — what is read back from an encoding, whatever
  follows it;
* `stored_eq_self` — which messages are read back as they were.
-/
import TradingPlatform.Messages
import TradingPlatform.Lib.Bytes

namespace Sbe

open Bytes

/-- The generated `OrderAction::Value`. -/
inductive ActionValue
  | DUMMY
  | BUY
  | SELL
  | MODIFY
  | CANCEL
  | NULL_VALUE
deriving DecidableEq, Repr

/-- The generated `OrderState::Value`. -/
inductive StateValue
  | Accepted
  | Rejected
  | Cancelled
  | Partial
  | Full
  | NULL_VALUE
deriving DecidableEq, Repr

/-- The number the schema gives a value, in the `int8` that holds it. -/
def ActionValue.number : ActionValue → ℕ
  | .DUMMY => 0
  | .BUY => 1
  | .SELL => 2
  | .MODIFY => 3
  | .CANCEL => 4
  | .NULL_VALUE => 2 ^ 7

/-- The number the schema gives a value, in the `int32` that holds it. -/
def StateValue.number : StateValue → ℕ
  | .Accepted => 0
  | .Rejected => 1
  | .Cancelled => 2
  | .Partial => 3
  | .Full => 4
  | .NULL_VALUE => 2 ^ 31

/-- The accessors of the generated classes, as functions of the bytes of a
field; `none` where they throw. -/
structure Generated where
  putUInt : (width value : ℕ) → List UInt8
  getUInt : (width : ℕ) → List UInt8 → ℕ
  putChars : (length : ℕ) → List UInt8 → List UInt8
  putString : (length : ℕ) → List UInt8 → Option (List UInt8)
  getString : (length : ℕ) → List UInt8 → List UInt8
  getAction : ℕ → Option ActionValue
  getState : ℕ → Option StateValue

/-- What the serializer relies on.  An accessor of an enum throws on a number
that is not declared, or has a null value for it. -/
structure FollowsSchema (G : Generated) : Prop where
  putUInt : ∀ w v, G.putUInt w v = leBytes w v
  getUInt : ∀ {w bs}, bs.length = w → G.getUInt w bs = ofLeBytes bs
  putChars : ∀ {n s}, s.length = n → G.putChars n s = s
  putString : ∀ {n s}, s.length ≤ n → G.putString n s = some (pad n s)
  putString_long : ∀ {n s}, n < s.length → G.putString n s = none
  getString : ∀ {n bs}, bs.length = n → G.getString n bs = untilNul bs
  getAction : ∀ v, v ≠ .NULL_VALUE → G.getAction v.number = some v
  getAction_undeclared : ∀ raw, ActionValue.CANCEL.number < raw →
    G.getAction raw = none ∨ G.getAction raw = some .NULL_VALUE
  getState : ∀ v, v ≠ .NULL_VALUE → G.getState v.number = some v
  getState_undeclared : ∀ raw, StateValue.Full.number < raw →
    G.getState raw = none ∨ G.getState raw = some .NULL_VALUE

/-- Classes as the SBE compiler generates them. -/
def generated : Generated where
  putUInt := leBytes
  getUInt _ := ofLeBytes
  putChars n s := s.take n
  putString n s := if s.length ≤ n then some (pad n s) else none
  getString _ := untilNul
  getAction
    | 0 => some .DUMMY
    | 1 => some .BUY
    | 2 => some .SELL
    | 3 => some .MODIFY
    | 4 => some .CANCEL
    | raw => if raw = ActionValue.NULL_VALUE.number then some .NULL_VALUE else none
  getState
    | 0 => some .Accepted
    | 1 => some .Rejected
    | 2 => some .Cancelled
    | 3 => some .Partial
    | 4 => some .Full
    | raw => if raw = StateValue.NULL_VALUE.number then some .NULL_VALUE else none

theorem generated_followsSchema : FollowsSchema generated where
  putUInt _ _ := rfl
  getUInt _ := rfl
  putChars h := List.take_of_length_le (le_of_eq h)
  putString h := if_pos h
  putString_long h := if_neg (Nat.not_le.2 h)
  getString _ := rfl
  getAction v _ := by cases v <;> rfl
  getAction_undeclared raw h := by
    rw [ActionValue.number] at h
    obtain ⟨k, rfl⟩ : ∃ k, raw = k + 5 := ⟨raw - 5, by omega⟩
    by_cases hnull : k + 5 = ActionValue.NULL_VALUE.number
    · exact .inr (if_pos hnull)
    · exact .inl (if_neg hnull)
  getState v _ := by cases v <;> rfl
  getState_undeclared raw h := by
    rw [StateValue.number] at h
    obtain ⟨k, rfl⟩ : ∃ k, raw = k + 5 := ⟨raw - 5, by omega⟩
    by_cases hnull : k + 5 = StateValue.NULL_VALUE.number
    · exact .inr (if_pos hnull)
    · exact .inl (if_neg hnull)

/-- A text that `putCharN` takes fits. -/
theorem FollowsSchema.of_putString {G : Generated} (hG : FollowsSchema G) {n : ℕ}
    {s bs : List UInt8} (h : G.putString n s = some bs) : s.length ≤ n ∧ bs = pad n s := by
  by_cases hlen : s.length ≤ n
  · rw [hG.putString hlen, Option.some_inj] at h
    exact ⟨hlen, h.symm⟩
  · rw [hG.putString_long (Nat.not_le.1 hlen)] at h
    cases h

/-! ### Conversions -/

/-- `convert(gen::sbe::domain::OrderAction::Value)`. -/
def toOrderAction : ActionValue → Option OrderAction
  | .BUY => some .Buy
  | .SELL => some .Sell
  | .DUMMY => some .Dummy
  | _ => none

/-- `convert(OrderAction)`. -/
def ofOrderAction : OrderAction → Option ActionValue
  | .Buy => some .BUY
  | .Sell => some .SELL
  | .Dummy => some .DUMMY
  | _ => none

/-- `convert(gen::sbe::domain::OrderState::Value)`. -/
def toOrderState : StateValue → Option OrderState
  | .Accepted => some .Accepted
  | .Rejected => some .Rejected
  | .Partial => some .Partial
  | .Full => some .Full
  | _ => none

/-- `convert(OrderState)`. -/
def ofOrderState : OrderState → Option StateValue
  | .Accepted => some .Accepted
  | .Rejected => some .Rejected
  | .Partial => some .Partial
  | .Full => some .Full
  | _ => none

/-- The bytes of a ticker. -/
def tickerBytes (t : Ticker) : List UInt8 := [t.1, t.2.1, t.2.2.1, t.2.2.2]

/-- `makeTicker`. -/
def makeTicker (s : List UInt8) : Ticker := (s.getD 0 0, s.getD 1 0, s.getD 2 0, s.getD 3 0)

/-! ### The two directions -/

/-- `MessageHeader::encodedLength()`. -/
def headerLength : ℕ := 8

variable (G : Generated)

/-- `wrapAndApplyHeader`: block length, template id, schema id and version. -/
def header (block template : ℕ) : List UInt8 :=
  G.putUInt 2 block ++ (G.putUInt 2 template ++ (G.putUInt 2 1 ++ G.putUInt 2 1))

/-- `serialize`; `none` where it throws.  Tokens are narrowed to the 32 bits of
their field. -/
def serialize : DomainMessage → Option (List UInt8)
  | .loginRequest name password =>
    (G.putString 32 name).bind fun name =>
      (G.putString 32 password).map fun password => header G 64 1 ++ (name ++ password)
  | .loginResponse token ok error =>
    (G.putString 32 error).map fun error =>
      header G 37 2 ++ (G.putUInt 4 (token.toNat % 2 ^ 32) ++
        (G.putUInt 1 (if ok then 1 else 0) ++ error))
  | .tokenBindRequest token => some (header G 4 3 ++ G.putUInt 4 (token.toNat % 2 ^ 32))
  | .order id ticker quantity price action =>
    (ofOrderAction action).map fun action =>
      header G 17 4 ++ (G.putUInt 4 id.toNat ++ (G.putChars 4 (tickerBytes ticker) ++
        (G.putUInt 4 quantity.toNat ++ (G.putUInt 4 price.toNat ++ G.putUInt 1 action.number))))
  | .orderStatus orderId systemOrderId quantity fillPrice state =>
    (ofOrderState state).map fun state =>
      header G 20 5 ++ (G.putUInt 4 orderId.toNat ++ (G.putUInt 4 systemOrderId.toNat ++
        (G.putUInt 4 quantity.toNat ++ (G.putUInt 4 fillPrice.toNat ++
          G.putUInt 4 state.number))))
  | .tickerPrice ticker price =>
    some (header G 8 6 ++ (G.putChars 4 (tickerBytes ticker) ++ G.putUInt 4 price.toNat))

/-- One case of `deserialize`: a block of this length, and the message in it or
an exception. -/
def readBlock (data : List UInt8) (block : ℕ) (message : Option DomainMessage) :
    List DomainMessage × Except Failure ℕ :=
  if data.length < block + headerLength then ([], .error .error)
  else
    match message with
    | some m => ([m], .ok (block + headerLength))
    | none => ([], .error .exception)

/-- An unsigned field. -/
def uintAt (data : List UInt8) (off w : ℕ) : ℕ := G.getUInt w (slice off w data)

/-- A text field. -/
def stringAt (data : List UInt8) (off n : ℕ) : List UInt8 := G.getString n (slice off n data)

/-- `deserialize`: what is posted, and the size or the failure. -/
def deserialize (data : List UInt8) : List DomainMessage × Except Failure ℕ :=
  if data.length < headerLength then ([], .error .error)
  else
    match uintAt G data 2 2 with
    | 1 => readBlock data 64 (some (.loginRequest (stringAt G data 8 32) (stringAt G data 40 32)))
    | 3 => readBlock data 4 (some (.tokenBindRequest (UInt64.ofNat (uintAt G data 8 4))))
    | 2 => readBlock data 37 (some (.loginResponse (UInt64.ofNat (uintAt G data 8 4))
        (uintAt G data 12 1 == 1) (stringAt G data 13 32)))
    | 4 => readBlock data 17 (((G.getAction (uintAt G data 24 1)).bind toOrderAction).map fun a =>
        .order (UInt32.ofNat (uintAt G data 8 4)) (makeTicker (stringAt G data 12 4))
          (UInt32.ofNat (uintAt G data 16 4)) (UInt32.ofNat (uintAt G data 20 4)) a)
    | 5 => readBlock data 20 (((G.getState (uintAt G data 24 4)).bind toOrderState).map fun st =>
        .orderStatus (UInt32.ofNat (uintAt G data 8 4)) (UInt32.ofNat (uintAt G data 12 4))
          (UInt32.ofNat (uintAt G data 16 4)) (UInt32.ofNat (uintAt G data 20 4)) st)
    | 6 => readBlock data 8 (some (.tickerPrice (makeTicker (stringAt G data 8 4))
        (UInt32.ofNat (uintAt G data 12 4))))
    | _ => ([], .error .error)

/-! ### Reading back an encoding -/

variable {G}

/-- What is left of a message in its encoding. -/
def stored : DomainMessage → DomainMessage
  | .loginRequest name password => .loginRequest (untilNul name) (untilNul password)
  | .tokenBindRequest token => .tokenBindRequest (UInt64.ofNat (token.toNat % 2 ^ 32))
  | .loginResponse token ok error =>
    .loginResponse (UInt64.ofNat (token.toNat % 2 ^ 32)) ok (untilNul error)
  | .order id ticker quantity price action =>
    .order id (makeTicker (untilNul (tickerBytes ticker))) quantity price action
  | .orderStatus orderId systemOrderId quantity fillPrice state =>
    .orderStatus orderId systemOrderId quantity fillPrice state
  | .tickerPrice ticker price => .tickerPrice (makeTicker (untilNul (tickerBytes ticker))) price

theorem length_tickerBytes (t : Ticker) : (tickerBytes t).length = 4 := rfl

/-! The fields of a concatenation: one that is in front, or further on. -/

section Fields

variable {xs ys : List UInt8} {off w : ℕ}

theorem uintAt_skip (h : xs.length ≤ off) :
    uintAt G (xs ++ ys) off w = uintAt G ys (off - xs.length) w := by
  rw [uintAt, uintAt, slice_append h]

theorem stringAt_skip (h : xs.length ≤ off) :
    stringAt G (xs ++ ys) off w = stringAt G ys (off - xs.length) w := by
  rw [stringAt, stringAt, slice_append h]

theorem length_putUInt (hG : FollowsSchema G) (w v : ℕ) : (G.putUInt w v).length = w := by
  rw [hG.putUInt, length_leBytes]

theorem length_putChars (hG : FollowsSchema G) (t : Ticker) :
    (G.putChars 4 (tickerBytes t)).length = 4 := by
  rw [hG.putChars (length_tickerBytes t), length_tickerBytes]

theorem length_header (hG : FollowsSchema G) (block template : ℕ) :
    (header G block template).length = 8 := by
  rw [header, List.length_append, List.length_append, List.length_append, length_putUInt hG,
    length_putUInt hG, length_putUInt hG]

theorem uintAt_putUInt (hG : FollowsSchema G) (w v : ℕ) :
    uintAt G (G.putUInt w v ++ ys) 0 w = v % 256 ^ w := by
  rw [uintAt, slice_zero (length_putUInt hG w v), hG.getUInt (length_putUInt hG w v),
    hG.putUInt, ofLeBytes_leBytes]

theorem stringAt_pad (hG : FollowsSchema G) {n : ℕ} {s : List UInt8} (h : s.length ≤ n) :
    stringAt G (pad n s ++ ys) 0 n = untilNul s := by
  rw [stringAt, slice_zero (length_pad h), hG.getString (length_pad h), untilNul_pad]

theorem stringAt_putChars (hG : FollowsSchema G) (t : Ticker) :
    stringAt G (G.putChars 4 (tickerBytes t) ++ ys) 0 4 = untilNul (tickerBytes t) := by
  rw [stringAt, slice_zero (length_putChars hG t), hG.getString (length_putChars hG t),
    hG.putChars (length_tickerBytes t)]

/-- The template id of an encoding is where `deserialize` looks for it. -/
theorem uintAt_header (hG : FollowsSchema G) {block template : ℕ} (ht : template < 256 ^ 2) :
    uintAt G (header G block template ++ ys) 2 2 = template := by
  have hlen : (G.putUInt 2 block).length = 2 := length_putUInt hG 2 block
  rw [header, List.append_assoc, uintAt_skip (le_of_eq hlen), hlen, Nat.sub_self,
    List.append_assoc, uintAt_putUInt hG, Nat.mod_eq_of_lt ht]

end Fields

theorem toOrderAction_ofOrderAction {a : OrderAction} {v : ActionValue}
    (h : ofOrderAction a = some v) : v ≠ .NULL_VALUE ∧ toOrderAction v = some a := by
  cases a <;> simp [ofOrderAction] at h <;> subst h <;> exact ⟨by simp, rfl⟩

theorem toOrderState_ofOrderState {a : OrderState} {v : StateValue}
    (h : ofOrderState a = some v) : v ≠ .NULL_VALUE ∧ toOrderState v = some a := by
  cases a <;> simp [ofOrderState] at h <;> subst h <;> exact ⟨by simp, rfl⟩

theorem ofNat_toNat_mod (v : UInt32) : UInt32.ofNat (v.toNat % 256 ^ 4) = v := by
  have hv : v.toNat < 2 ^ 32 := v.toNat_lt
  rw [Nat.mod_eq_of_lt (by omega), UInt32.ofNat_toNat]

/-- A block of the right length behind its header is read. -/
theorem readBlock_append (hG : FollowsSchema G) {block template : ℕ} {body rest : List UInt8}
    (hbody : body.length = block) (m : DomainMessage) :
    readBlock (header G block template ++ body ++ rest) block (some m) =
      ([m], .ok (header G block template ++ body).length) := by
  have hlen : (header G block template ++ body).length = block + headerLength := by
    rw [List.length_append, length_header hG, hbody, headerLength, Nat.add_comm]
  rw [readBlock, if_neg (by rw [List.length_append, hlen]; omega), hlen]

/-- The block lengths of the templates that `deserialize` knows. -/
def blockLength : ℕ → Option ℕ
  | 1 => some 64
  | 2 => some 37
  | 3 => some 4
  | 4 => some 17
  | 5 => some 20
  | 6 => some 8
  | _ => none

theorem lt_of_blockLength {template block : ℕ} (h : blockLength template = some block) :
    template < 256 ^ 2 := by
  unfold blockLength at h
  split at h <;> first | omega | cases h

/-- Behind a header there is enough to look at, and its template id is found. -/
theorem deserialize_header (hG : FollowsSchema G) {template block : ℕ}
    (hb : blockLength template = some block) (body rest : List UInt8) :
    ¬ (header G block template ++ body ++ rest).length < headerLength ∧
      uintAt G (header G block template ++ body ++ rest) 2 2 = template := by
  refine ⟨?_, by rw [List.append_assoc, uintAt_header hG (lt_of_blockLength hb)]⟩
  rw [List.append_assoc, List.length_append, length_header hG, headerLength]
  omega

/-- Whatever follows the encoding of a message, `deserialize` posts what is left
of the message and takes its encoding. -/
theorem deserialize_serialize (hG : FollowsSchema G) {m : DomainMessage} {bs : List UInt8}
    (h : serialize G m = some bs) (rest : List UInt8) :
    deserialize G (bs ++ rest) = ([stored m], .ok bs.length) := by
  cases m with
  | loginRequest name password =>
    obtain ⟨name', hname, h⟩ := Option.bind_eq_some_iff.1 h
    obtain ⟨password', hpassword, rfl⟩ := Option.map_eq_some_iff.1 h
    obtain ⟨hlen, rfl⟩ := hG.of_putString hname
    obtain ⟨hlen', rfl⟩ := hG.of_putString hpassword
    have hbody : (pad 32 name ++ pad 32 password).length = 64 := by
      rw [List.length_append, length_pad hlen, length_pad hlen']
    obtain ⟨hlong, htemplate⟩ := deserialize_header hG (rfl : blockLength 1 = some 64)
      (pad 32 name ++ pad 32 password) rest
    rw [deserialize, if_neg hlong, htemplate]
    show readBlock _ 64 _ = _
    rw [readBlock_append hG hbody, stored]
    simp (disch := simp [length_header hG, length_pad hlen]) only
      [List.append_assoc, stringAt_skip, length_header hG, length_pad hlen, Nat.reduceSub,
        stringAt_pad hG hlen, stringAt_pad hG hlen']
  | tokenBindRequest token =>
    obtain rfl := Option.some_inj.1 h
    obtain ⟨hlong, htemplate⟩ := deserialize_header hG (rfl : blockLength 3 = some 4)
      (G.putUInt 4 (token.toNat % 2 ^ 32)) rest
    rw [deserialize, if_neg hlong, htemplate]
    show readBlock _ 4 _ = _
    rw [readBlock_append hG (length_putUInt hG _ _), stored]
    simp (disch := simp [length_header hG]) only
      [List.append_assoc, uintAt_skip, length_header hG, Nat.reduceSub, uintAt_putUInt hG,
        show 256 ^ 4 = 2 ^ 32 from rfl, Nat.mod_mod]
  | loginResponse token ok error =>
    obtain ⟨error', herror, rfl⟩ := Option.map_eq_some_iff.1 h
    obtain ⟨hlen, rfl⟩ := hG.of_putString herror
    have hbody : (G.putUInt 4 (token.toNat % 2 ^ 32) ++
        (G.putUInt 1 (if ok then 1 else 0) ++ pad 32 error)).length = 37 := by
      rw [List.length_append, List.length_append, length_putUInt hG, length_putUInt hG,
        length_pad hlen]
    obtain ⟨hlong, htemplate⟩ := deserialize_header hG (rfl : blockLength 2 = some 37)
      (G.putUInt 4 (token.toNat % 2 ^ 32) ++
        (G.putUInt 1 (if ok then 1 else 0) ++ pad 32 error)) rest
    have hok : ((if ok then 1 else 0) % 256 ^ 1 == 1) = ok := by
      cases ok with
      | true => rfl
      | false => rfl
    rw [deserialize, if_neg hlong, htemplate]
    show readBlock _ 37 _ = _
    rw [readBlock_append hG hbody, stored]
    simp (disch := simp [length_header hG, length_putUInt hG]) only
      [List.append_assoc, uintAt_skip, stringAt_skip, length_header hG, length_putUInt hG,
        Nat.reduceSub, uintAt_putUInt hG, stringAt_pad hG hlen, hok,
        show 256 ^ 4 = 2 ^ 32 from rfl, Nat.mod_mod]
  | order id ticker quantity price action =>
    obtain ⟨v, hv, rfl⟩ := Option.map_eq_some_iff.1 h
    obtain ⟨hnull, hconvert⟩ := toOrderAction_ofOrderAction hv
    have hbody : (G.putUInt 4 id.toNat ++ (G.putChars 4 (tickerBytes ticker) ++
        (G.putUInt 4 quantity.toNat ++ (G.putUInt 4 price.toNat ++
          G.putUInt 1 v.number)))).length = 17 := by
      simp [length_putUInt hG, length_putChars hG]
    obtain ⟨hlong, htemplate⟩ := deserialize_header hG (rfl : blockLength 4 = some 17)
      (G.putUInt 4 id.toNat ++ (G.putChars 4 (tickerBytes ticker) ++
        (G.putUInt 4 quantity.toNat ++ (G.putUInt 4 price.toNat ++ G.putUInt 1 v.number)))) rest
    have haction : uintAt G (header G 17 4 ++ (G.putUInt 4 id.toNat ++
        (G.putChars 4 (tickerBytes ticker) ++ (G.putUInt 4 quantity.toNat ++
          (G.putUInt 4 price.toNat ++ G.putUInt 1 v.number)))) ++ rest) 24 1 = v.number := by
      simp (disch := simp [length_header hG, length_putUInt hG, length_putChars hG]) only
        [List.append_assoc, uintAt_skip, length_header hG, length_putUInt hG,
          length_putChars hG, Nat.reduceSub, uintAt_putUInt hG]
      cases v <;> rfl
    rw [deserialize, if_neg hlong, htemplate]
    show readBlock _ 17 _ = _
    rw [haction, hG.getAction v hnull, Option.bind_some, hconvert, Option.map_some,
      readBlock_append hG hbody, stored]
    simp (disch := simp [length_header hG, length_putUInt hG, length_putChars hG]) only
      [List.append_assoc, uintAt_skip, stringAt_skip, length_header hG, length_putUInt hG,
        length_putChars hG, Nat.reduceSub, uintAt_putUInt hG, stringAt_putChars hG,
        ofNat_toNat_mod]
  | orderStatus orderId systemOrderId quantity fillPrice state =>
    obtain ⟨v, hv, rfl⟩ := Option.map_eq_some_iff.1 h
    obtain ⟨hnull, hconvert⟩ := toOrderState_ofOrderState hv
    have hbody : (G.putUInt 4 orderId.toNat ++ (G.putUInt 4 systemOrderId.toNat ++
        (G.putUInt 4 quantity.toNat ++ (G.putUInt 4 fillPrice.toNat ++
          G.putUInt 4 v.number)))).length = 20 := by
      simp [length_putUInt hG]
    obtain ⟨hlong, htemplate⟩ := deserialize_header hG (rfl : blockLength 5 = some 20)
      (G.putUInt 4 orderId.toNat ++ (G.putUInt 4 systemOrderId.toNat ++
        (G.putUInt 4 quantity.toNat ++ (G.putUInt 4 fillPrice.toNat ++ G.putUInt 4 v.number)))) rest
    have hstate : uintAt G (header G 20 5 ++ (G.putUInt 4 orderId.toNat ++
        (G.putUInt 4 systemOrderId.toNat ++ (G.putUInt 4 quantity.toNat ++
          (G.putUInt 4 fillPrice.toNat ++ G.putUInt 4 v.number)))) ++ rest) 24 4 = v.number := by
      simp (disch := simp [length_header hG, length_putUInt hG]) only
        [List.append_assoc, uintAt_skip, length_header hG, length_putUInt hG, Nat.reduceSub,
          uintAt_putUInt hG]
      cases v <;> rfl
    rw [deserialize, if_neg hlong, htemplate]
    show readBlock _ 20 _ = _
    rw [hstate, hG.getState v hnull, Option.bind_some, hconvert, Option.map_some,
      readBlock_append hG hbody, stored]
    simp (disch := simp [length_header hG, length_putUInt hG]) only
      [List.append_assoc, uintAt_skip, length_header hG, length_putUInt hG, Nat.reduceSub,
        uintAt_putUInt hG, ofNat_toNat_mod]
  | tickerPrice ticker price =>
    obtain rfl := Option.some_inj.1 h
    have hbody : (G.putChars 4 (tickerBytes ticker) ++ G.putUInt 4 price.toNat).length = 8 := by
      rw [List.length_append, length_putChars hG, length_putUInt hG]
    obtain ⟨hlong, htemplate⟩ := deserialize_header hG (rfl : blockLength 6 = some 8)
      (G.putChars 4 (tickerBytes ticker) ++ G.putUInt 4 price.toNat) rest
    rw [deserialize, if_neg hlong, htemplate]
    show readBlock _ 8 _ = _
    rw [readBlock_append hG hbody, stored]
    simp (disch := simp [length_header hG, length_putChars hG]) only
      [List.append_assoc, uintAt_skip, stringAt_skip, length_header hG, length_putChars hG,
        Nat.reduceSub, uintAt_putUInt hG, stringAt_putChars hG, ofNat_toNat_mod]

/-! ### Messages that are read back as they were -/

/-- From its first zero on, a ticker has zeros only. -/
def ZeroFilled (t : Ticker) : Prop := ∀ b ∈ (tickerBytes t).dropWhile (· ≠ 0), b = 0

/-- Tokens of 32 bits, texts without a zero byte, tickers filled up with zeros. -/
def Canonical : DomainMessage → Prop
  | .loginRequest name password => (0 : UInt8) ∉ name ∧ (0 : UInt8) ∉ password
  | .tokenBindRequest token => token.toNat < 2 ^ 32
  | .loginResponse token _ error => token.toNat < 2 ^ 32 ∧ (0 : UInt8) ∉ error
  | .order _ ticker _ _ _ => ZeroFilled ticker
  | .orderStatus _ _ _ _ _ => True
  | .tickerPrice ticker _ => ZeroFilled ticker

theorem token_stored {token : Token} :
    UInt64.ofNat (token.toNat % 2 ^ 32) = token ↔ token.toNat < 2 ^ 32 := by
  have hlt : token.toNat < 2 ^ 64 := token.toNat_lt
  rw [← UInt64.toNat_inj, UInt64.toNat_ofNat']
  omega

/-- A ticker is read back from its bytes up to the first zero if it has nothing
but zeros after it. -/
theorem ticker_stored {t : Ticker} :
    makeTicker (untilNul (tickerBytes t)) = t ↔ ZeroFilled t := by
  obtain ⟨a, b, c, d⟩ := t
  rw [ZeroFilled, tickerBytes, untilNul]
  by_cases ha : a = 0
  · simp [makeTicker, ha, Prod.ext_iff, @eq_comm _ (0 : UInt8)]
  by_cases hb : b = 0
  · simp [makeTicker, ha, hb, Prod.ext_iff, @eq_comm _ (0 : UInt8)]
  by_cases hc : c = 0
  · simp [makeTicker, ha, hb, hc, Prod.ext_iff, @eq_comm _ (0 : UInt8)]
  by_cases hd : d = 0
  · simp [makeTicker, ha, hb, hc, hd]
  · simp [makeTicker, ha, hb, hc, hd]

theorem stored_eq_self {m : DomainMessage} : stored m = m ↔ Canonical m := by
  cases m with
  | loginRequest name password =>
    simp only [stored, Canonical, DomainMessage.loginRequest.injEq, untilNul_eq_self]
  | tokenBindRequest token =>
    simp only [stored, Canonical, DomainMessage.tokenBindRequest.injEq, token_stored]
  | loginResponse token ok error =>
    simp only [stored, Canonical, DomainMessage.loginResponse.injEq, token_stored,
      untilNul_eq_self, true_and]
  | order id ticker quantity price action =>
    simp only [stored, Canonical, DomainMessage.order.injEq, true_and, and_true, ticker_stored]
  | orderStatus orderId systemOrderId quantity fillPrice state =>
    simp only [stored, Canonical]
  | tickerPrice ticker price =>
    simp only [stored, Canonical, DomainMessage.tickerPrice.injEq, and_true, ticker_stored]

end Sbe
