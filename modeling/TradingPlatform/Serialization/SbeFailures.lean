/-
What the SBE serializer refuses (`common/src/serialization/sbe`).

* `isSome_serialize` — which messages have an encoding;
* `deserialize_cut` — an encoding that has not arrived as a whole is an error,
  however much of it is there;
* `deserialize_of_unreadable`, `deserialize_of_readable` — which bytes make an
  exception; all others are answered with one message or an error.
-/
import TradingPlatform.Serialization.Sbe

namespace Sbe

open Bytes

variable {G : Generated} {m : DomainMessage} {bs data : List UInt8}

/-! ### Messages that have an encoding -/

/-- The texts fit into their fields. -/
def Fits : DomainMessage → Prop
  | .loginRequest name password => name.length ≤ 32 ∧ password.length ≤ 32
  | .loginResponse _ _ error => error.length ≤ 32
  | _ => True

/-- The action or the state of the message is one the converters know. -/
def Convertible : DomainMessage → Prop
  | .order _ _ _ _ action => action ≠ .Modify ∧ action ≠ .Cancel
  | .orderStatus _ _ _ _ state => state ≠ .Cancelled
  | _ => True

theorem isSome_putString (hG : FollowsSchema G) {n : ℕ} {s : List UInt8} :
    (G.putString n s).isSome ↔ s.length ≤ n := by
  by_cases hlen : s.length ≤ n
  · simp only [hG.putString hlen, hlen, Option.isSome_some]
  · simp only [hG.putString_long (Nat.not_le.1 hlen), hlen, Option.isSome_none, Bool.false_eq_true]

theorem isSome_ofOrderAction {a : OrderAction} :
    (ofOrderAction a).isSome ↔ a ≠ .Modify ∧ a ≠ .Cancel := by
  cases a <;> simp [ofOrderAction]

theorem isSome_ofOrderState {a : OrderState} : (ofOrderState a).isSome ↔ a ≠ .Cancelled := by
  cases a <;> simp [ofOrderState]

theorem isSome_serialize (hG : FollowsSchema G) :
    (serialize G m).isSome ↔ Fits m ∧ Convertible m := by
  cases m with
  | loginRequest name password =>
    simp only [serialize, Fits, Convertible, and_true, ← isSome_putString hG]
    cases G.putString 32 name with
    | none => simp
    | some name => simp
  | tokenBindRequest token => simp [serialize, Fits, Convertible]
  | loginResponse token ok error =>
    simp only [serialize, Option.isSome_map, isSome_putString hG, Fits, Convertible, and_true]
  | order id ticker quantity price action =>
    simp only [serialize, Option.isSome_map, isSome_ofOrderAction, Fits, Convertible, true_and]
  | orderStatus orderId systemOrderId quantity fillPrice state =>
    simp only [serialize, Option.isSome_map, isSome_ofOrderState, Fits, Convertible, true_and]
  | tickerPrice ticker price => simp [serialize, Fits, Convertible]

/-! ### Encodings that have been cut -/

/-- An encoding is a header and the block it announces. -/
theorem serialize_header (hG : FollowsSchema G) (h : serialize G m = some bs) :
    ∃ template block body, bs = header G block template ++ body ∧ body.length = block ∧
      blockLength template = some block := by
  cases m with
  | loginRequest name password =>
    obtain ⟨name', hname, h⟩ := Option.bind_eq_some_iff.1 h
    obtain ⟨password', hpassword, rfl⟩ := Option.map_eq_some_iff.1 h
    obtain ⟨hlen, rfl⟩ := hG.of_putString hname
    obtain ⟨hlen', rfl⟩ := hG.of_putString hpassword
    refine ⟨1, 64, _, rfl, ?_, rfl⟩
    rw [List.length_append, length_pad hlen, length_pad hlen']
  | tokenBindRequest token =>
    obtain rfl := Option.some_inj.1 h
    exact ⟨3, 4, _, rfl, length_putUInt hG _ _, rfl⟩
  | loginResponse token ok error =>
    obtain ⟨error', herror, rfl⟩ := Option.map_eq_some_iff.1 h
    obtain ⟨hlen, rfl⟩ := hG.of_putString herror
    refine ⟨2, 37, _, rfl, ?_, rfl⟩
    rw [List.length_append, List.length_append, length_putUInt hG, length_putUInt hG,
      length_pad hlen]
  | order id ticker quantity price action =>
    obtain ⟨v, _, rfl⟩ := Option.map_eq_some_iff.1 h
    refine ⟨4, 17, _, rfl, ?_, rfl⟩
    simp only [List.length_append, length_putUInt hG, length_putChars hG]
  | orderStatus orderId systemOrderId quantity fillPrice state =>
    obtain ⟨v, _, rfl⟩ := Option.map_eq_some_iff.1 h
    refine ⟨5, 20, _, rfl, ?_, rfl⟩
    simp only [List.length_append, length_putUInt hG]
  | tickerPrice ticker price =>
    obtain rfl := Option.some_inj.1 h
    refine ⟨6, 8, _, rfl, ?_, rfl⟩
    rw [List.length_append, length_putChars hG, length_putUInt hG]

theorem length_serialize (hG : FollowsSchema G) (h : serialize G m = some bs) : 0 < bs.length := by
  obtain ⟨template, block, body, rfl, _⟩ := serialize_header hG h
  rw [List.length_append, length_header hG]
  omega

theorem deserialize_short (h : data.length < headerLength) :
    deserialize G data = ([], .error .error) := if_pos h

/-- `deserialize` reads a block as long as the template says. -/
theorem deserialize_block {block : ℕ} (hlen : ¬ data.length < headerLength)
    (hb : blockLength (uintAt G data 2 2) = some block) :
    ∃ message, deserialize G data = readBlock data block message := by
  rw [deserialize, if_neg hlen]
  generalize uintAt G data 2 2 = template at hb
  unfold blockLength at hb
  split at hb <;> cases hb <;> exact ⟨_, rfl⟩

/-- Part of an encoding is not read. -/
theorem deserialize_cut (hG : FollowsSchema G) (h : serialize G m = some bs) (hpre : data <+: bs)
    (hne : data ≠ bs) : deserialize G data = ([], .error .error) := by
  obtain ⟨template, block, body, rfl, hbody, hb⟩ := serialize_header hG h
  have hlt : data.length < (header G block template ++ body).length :=
    lt_of_le_of_ne hpre.length_le fun hlen => hne (hpre.eq_of_length hlen)
  rw [List.length_append, length_header hG, hbody] at hlt
  by_cases hshort : data.length < headerLength
  · exact deserialize_short hshort
  · -- the header is there, and the block is not
    obtain ⟨rest, hrest⟩ := hpre
    have htemplate : uintAt G data 2 2 = template := by
      have hheader : uintAt G (header G block template ++ body) 2 2 = template :=
        uintAt_header hG (lt_of_blockLength hb)
      rw [headerLength] at hshort
      rwa [← hrest, uintAt, slice_prefix (by omega)] at hheader
    obtain ⟨message, hread⟩ := deserialize_block hshort (htemplate ▸ hb)
    rw [hread]
    exact if_pos (by rw [headerLength]; omega)

/-! ### Bytes that make an exception -/

/-- An order with an action, or an order status with a state, that is not
declared or that the converters do not know. -/
def Unreadable (data : List UInt8) : Prop :=
  (ofLeBytes (slice 2 2 data) = 4 ∧ 17 + headerLength ≤ data.length ∧
    ofLeBytes (slice 24 1 data) ∉ [0, 1, 2]) ∨
  (ofLeBytes (slice 2 2 data) = 5 ∧ 20 + headerLength ≤ data.length ∧
    ofLeBytes (slice 24 4 data) ∉ [0, 1, 3, 4])

instance : DecidablePred Unreadable := fun _ => inferInstanceAs (Decidable (_ ∨ _))

theorem isSome_readAction (hG : FollowsSchema G) (raw : ℕ) :
    ((G.getAction raw).bind toOrderAction).isSome ↔ raw ∈ [0, 1, 2] := by
  match raw with
  | 0 => simp [show G.getAction 0 = _ from hG.getAction .DUMMY (by simp), toOrderAction]
  | 1 => simp [show G.getAction 1 = _ from hG.getAction .BUY (by simp), toOrderAction]
  | 2 => simp [show G.getAction 2 = _ from hG.getAction .SELL (by simp), toOrderAction]
  | 3 => simp [show G.getAction 3 = _ from hG.getAction .MODIFY (by simp), toOrderAction]
  | 4 => simp [show G.getAction 4 = _ from hG.getAction .CANCEL (by simp), toOrderAction]
  | raw + 5 =>
    have hlt : ActionValue.CANCEL.number < raw + 5 := by
      rw [ActionValue.number]
      omega
    rcases hG.getAction_undeclared (raw + 5) hlt with hnone | hnull
    · simp [hnone]
    · simp [hnull, toOrderAction]

theorem isSome_readState (hG : FollowsSchema G) (raw : ℕ) :
    ((G.getState raw).bind toOrderState).isSome ↔ raw ∈ [0, 1, 3, 4] := by
  match raw with
  | 0 => simp [show G.getState 0 = _ from hG.getState .Accepted (by simp), toOrderState]
  | 1 => simp [show G.getState 1 = _ from hG.getState .Rejected (by simp), toOrderState]
  | 2 => simp [show G.getState 2 = _ from hG.getState .Cancelled (by simp), toOrderState]
  | 3 => simp [show G.getState 3 = _ from hG.getState .Partial (by simp), toOrderState]
  | 4 => simp [show G.getState 4 = _ from hG.getState .Full (by simp), toOrderState]
  | raw + 5 =>
    have hlt : StateValue.Full.number < raw + 5 := by
      rw [StateValue.number]
      omega
    rcases hG.getState_undeclared (raw + 5) hlt with hnone | hnull
    · simp [hnone]
    · simp [hnull, toOrderState]

theorem uintAt_eq (hG : FollowsSchema G) {off w : ℕ} (h : off + w ≤ data.length) :
    uintAt G data off w = ofLeBytes (slice off w data) :=
  hG.getUInt (length_slice h)

theorem answered_readBlock (block : ℕ) (m : DomainMessage) :
    Answered data.length (readBlock data block (some m)) := by
  rw [readBlock]
  split
  · exact .inr rfl
  · refine .inl ⟨m, _, rfl, ?_⟩
    rw [headerLength] at *
    omega

/-- A block that is too short is an error, whatever stands in it. -/
theorem answered_readBlock_short {block : ℕ} {message : Option DomainMessage}
    (h : data.length < block + headerLength) :
    Answered data.length (readBlock data block message) :=
  .inr (if_pos h)

theorem readBlock_none {block : ℕ} (h : block + headerLength ≤ data.length) :
    readBlock data block none = ([], .error .exception) :=
  if_neg (Nat.not_lt.2 h)

theorem deserialize_of_unreadable (hG : FollowsSchema G) (h : Unreadable data) :
    deserialize G data = ([], .error .exception) := by
  rcases h with ⟨ht, hlen, hraw⟩ | ⟨ht, hlen, hraw⟩
  · have hlen' := hlen
    rw [headerLength] at hlen'
    have hnone : (G.getAction (uintAt G data 24 1)).bind toOrderAction = none := by
      rwa [← Option.not_isSome_iff_eq_none, isSome_readAction hG, uintAt_eq hG (by omega)]
    rw [deserialize, if_neg (by rw [headerLength]; omega), uintAt_eq hG (by omega), ht]
    show readBlock data 17 _ = _
    rw [hnone, Option.map_none, readBlock_none hlen]
  · have hlen' := hlen
    rw [headerLength] at hlen'
    have hnone : (G.getState (uintAt G data 24 4)).bind toOrderState = none := by
      rwa [← Option.not_isSome_iff_eq_none, isSome_readState hG, uintAt_eq hG (by omega)]
    rw [deserialize, if_neg (by rw [headerLength]; omega), uintAt_eq hG (by omega), ht]
    show readBlock data 20 _ = _
    rw [hnone, Option.map_none, readBlock_none hlen]

theorem deserialize_of_readable (hG : FollowsSchema G) (h : ¬ Unreadable data) :
    Answered data.length (deserialize G data) := by
  by_cases hshort : data.length < headerLength
  · rw [deserialize_short hshort]
    exact .inr rfl
  rw [headerLength] at hshort
  rw [Unreadable, not_or, ← uintAt_eq hG (by omega)] at h
  rw [deserialize, if_neg (by rwa [headerLength])]
  split
  · exact answered_readBlock 64 _
  · exact answered_readBlock 4 _
  · exact answered_readBlock 37 _
  · next ht =>
    by_cases hlen : data.length < 17 + headerLength
    · exact answered_readBlock_short hlen
    · -- the action can be converted
      have hsome : ((G.getAction (uintAt G data 24 1)).bind toOrderAction).isSome := by
        rw [isSome_readAction hG, uintAt_eq hG (by rw [headerLength] at hlen; omega)]
        by_contra hraw
        exact h.1 ⟨ht, Nat.not_lt.1 hlen, hraw⟩
      obtain ⟨a, ha⟩ := Option.isSome_iff_exists.1 hsome
      rw [ha, Option.map_some]
      exact answered_readBlock 17 _
  · next ht =>
    by_cases hlen : data.length < 20 + headerLength
    · exact answered_readBlock_short hlen
    · have hsome : ((G.getState (uintAt G data 24 4)).bind toOrderState).isSome := by
        rw [isSome_readState hG, uintAt_eq hG (by rw [headerLength] at hlen; omega)]
        by_contra hraw
        exact h.2 ⟨ht, Nat.not_lt.1 hlen, hraw⟩
      obtain ⟨st, hst⟩ := Option.isSome_iff_exists.1 hsome
      rw [hst, Option.map_some]
      exact answered_readBlock 20 _
  · exact answered_readBlock 8 _
  · exact .inr rfl

/-- A size that is returned is not zero and is there. -/
theorem size_of_deserialize (hG : FollowsSchema G) {n : ℕ} (h : (deserialize G data).2 = .ok n) :
    0 < n ∧ n ≤ data.length := by
  by_cases hdata : Unreadable data
  · rw [deserialize_of_unreadable hG hdata] at h
    cases h
  · rcases deserialize_of_readable hG hdata with ⟨m, k, hm, hk⟩ | herror
    · rw [hm] at h
      obtain rfl : k = n := Except.ok.inj h
      exact hk
    · rw [herror] at h
      cases h

end Sbe
