/-
Messages without frames (`common/src/transport/framing/dummy_framer.hpp`), over
the SBE serializer.

The framer hands what has arrived to the serializer, message after message, and
takes everything that is not a message for an error.

* `DummyFramer.unframe_encodings` — encodings one after the other are read one
  after the other;
* `DummyFramer.round_trip` — what is written is read back, as far as the
  converters know the actions and states;
* `DummyFramer.run_encodings`, `posts_messages_iff` — a channel that is fed with
  encodings posts the messages if every read ends where one of them ends, and is
  in `Error` after the first read that does not.
-/
import TradingPlatform.Serialization.SbeFailures
import TradingPlatform.Transport.Channel

namespace DummyFramer

section Unframe

variable {β : Type*} (deserialize : List UInt8 → List β × Except Failure ℕ)

/-- One turn of the loop of `unframe`. -/
def next (data : List UInt8) : Stream.Next β Failure :=
  if data = [] then .more
  else
    let r := deserialize data
    match r.2 with
    | .error e => .stop r.1 e
    | .ok n => .item r.1 n

/-- `unframe`, for a serializer that takes something from every message. -/
def unframe (data : List UInt8) : List β × Except Failure ℕ := Stream.scan (next deserialize) data

variable {deserialize}

theorem next_ok {data : List UInt8} {posted : List β} {n : ℕ} (hne : data ≠ [])
    (h : deserialize data = (posted, .ok n)) : next deserialize data = .item posted n := by
  rw [next, if_neg hne, h]

theorem next_error {data : List UInt8} {posted : List β} {e : Failure} (hne : data ≠ [])
    (h : deserialize data = (posted, .error e)) : next deserialize data = .stop posted e := by
  rw [next, if_neg hne, h]

theorem progress
    (hsize : ∀ {data n}, (deserialize data).2 = .ok n → 0 < n ∧ n ≤ data.length) :
    Stream.Progress (next deserialize) where
  nil := rfl
  item {data posted n} h := by
    simp only [next] at h
    split at h
    · cases h
    · split at h
      · cases h
      · next hok =>
        obtain ⟨_, rfl⟩ := Stream.Next.item.inj h
        exact hsize hok

end Unframe

open Sbe

variable {G : Generated} {m : DomainMessage} {bs : List UInt8} {ms : List DomainMessage}
  {encs : List (List UInt8)}

/-- `encs` are the encodings of `ms`. -/
def Encodings (G : Generated) (ms : List DomainMessage) (encs : List (List UInt8)) : Prop :=
  List.Forall₂ (fun m bs => serialize G m = some bs) ms encs

theorem next_encoding (hG : FollowsSchema G) (h : serialize G m = some bs) (rest : List UInt8) :
    next (deserialize G) (bs ++ rest) = .item [stored m] bs.length := by
  have hne : bs ++ rest ≠ [] :=
    List.append_ne_nil_of_left_ne_nil (List.length_pos_iff.1 (length_serialize hG h)) rest
  exact next_ok hne (deserialize_serialize hG h rest)

theorem sbe_progress (hG : FollowsSchema G) : Stream.Progress (next (deserialize G)) :=
  progress (size_of_deserialize hG)

/-- The messages that stand in front of `rest` are posted, then `rest` is read. -/
theorem unframe_encodings (hG : FollowsSchema G) (h : Encodings G ms encs) (rest : List UInt8) :
    unframe (deserialize G) (encs.flatten ++ rest) =
      (ms.map stored ++ (unframe (deserialize G) rest).1,
        (unframe (deserialize G) rest).2.map (encs.flatten.length + ·)) := by
  have hitems : List.Forall₂
      (fun xs emitted => ∀ ys, next (deserialize G) (xs ++ ys) = .item emitted xs.length)
      encs (ms.map fun m => [stored m]) := by
    rw [List.forall₂_map_right_iff]
    exact h.flip.imp fun _ _ henc => next_encoding hG henc
  have hscan := Stream.scan_items (sbe_progress hG) hitems rest
  rwa [← List.flatMap_def, ← List.map_eq_flatMap] at hscan

theorem unframe_all (hG : FollowsSchema G) (h : Encodings G ms encs) :
    unframe (deserialize G) encs.flatten = (ms.map stored, .ok encs.flatten.length) := by
  have hall := unframe_encodings hG h []
  have hnil : unframe (deserialize G) [] = ([], .ok 0) := rfl
  rw [List.append_nil, hnil, List.append_nil] at hall
  exact hall

theorem exists_encodings (h : ∀ m ∈ ms, (serialize G m).isSome) : ∃ encs, Encodings G ms encs := by
  induction ms with
  | nil => exact ⟨[], .nil⟩
  | cons m ms ih =>
    obtain ⟨bs, hbs⟩ := Option.isSome_iff_exists.1 (h m List.mem_cons_self)
    obtain ⟨encs, hencs⟩ := ih fun m' hm' => h m' (List.mem_cons_of_mem m hm')
    exact ⟨bs :: encs, .cons hbs hencs⟩

theorem Encodings.isSome (h : Encodings G ms encs) : ∀ m ∈ ms, (serialize G m).isSome := by
  induction h with
  | nil => exact fun m hm => absurd hm List.not_mem_nil
  | cons hm _ ih =>
    rw [List.forall_mem_cons, hm]
    exact ⟨rfl, ih⟩

theorem map_stored_eq : ms.map stored = ms ↔ ∀ m ∈ ms, Canonical m := by
  induction ms with
  | nil => simp
  | cons m ms ih => rw [List.map_cons, List.cons.injEq, stored_eq_self, ih, List.forall_mem_cons]

/-! ### Round trips -/

/-- For messages with tokens of 32 bits, texts of at most 32 bytes without zeros
and tickers filled up with zeros: every one is written, and reading all of them
posts the same messages and takes all bytes, if and only if no order is to be
modified or cancelled and no order status is `Cancelled`. -/
theorem round_trip (hG : FollowsSchema G) (hms : ∀ m ∈ ms, Fits m ∧ Canonical m) :
    (∃ encs, Encodings G ms encs ∧
      unframe (deserialize G) encs.flatten = (ms, .ok encs.flatten.length)) ↔
    ∀ m ∈ ms, Convertible m := by
  constructor
  · rintro ⟨encs, hencs, _⟩ m hm
    exact ((isSome_serialize hG).1 (hencs.isSome m hm)).2
  · intro h
    obtain ⟨encs, hencs⟩ : ∃ encs, Encodings G ms encs := exists_encodings fun m hm =>
      (isSome_serialize hG).2 ⟨(hms m hm).1, h m hm⟩
    refine ⟨encs, hencs, ?_⟩
    rw [unframe_all hG hencs, map_stored_eq.2 fun m hm => (hms m hm).2]

/-- A login, an order, its status and a price. -/
def session : List DomainMessage :=
  [.loginRequest [97, 98] [99], .order 1 (65, 65, 80, 76) 10 100 .Buy,
    .orderStatus 1 7 10 100 .Full, .tickerPrice (71, 69, 0, 0) 5]

theorem session_canonical : ∀ m ∈ session, Fits m ∧ Canonical m := by
  simp [session, Fits, Canonical, ZeroFilled, tickerBytes]

theorem round_trip_session : ∃ encs, Encodings generated session encs ∧
    unframe (deserialize generated) encs.flatten = (session, .ok encs.flatten.length) :=
  (round_trip generated_followsSchema session_canonical).2 (by simp [session, Convertible])

/-- An order to cancel. -/
def cancel : DomainMessage := .order 1 (65, 65, 80, 76) 10 100 .Cancel

/-- An order to cancel cannot be written, although the schema has a number for
its action. -/
theorem cancel_not_written : (Fits cancel ∧ Canonical cancel) ∧
    ¬ ∃ encs, Encodings generated [cancel] encs ∧
      unframe (deserialize generated) encs.flatten = ([cancel], .ok encs.flatten.length) := by
  refine ⟨by simp [cancel, Fits, Canonical, ZeroFilled, tickerBytes], ?_⟩
  rintro ⟨encs, hencs, _⟩
  have hsome := hencs.isSome cancel List.mem_cons_self
  simp [cancel, serialize, ofOrderAction] at hsome

/-! ### A channel fed with encodings -/

open SlidingBuffer (capacity)

/-- After every read the bytes seen so far are a number of whole encodings. -/
def AtBoundaries (encs chunks : List (List UInt8)) : Prop :=
  ∀ seen, seen <+: chunks → ∃ j, seen.flatten = (encs.take j).flatten

theorem AtBoundaries.nil : AtBoundaries encs [] :=
  fun _ hseen => ⟨0, by rw [List.prefix_nil.1 hseen]; rfl⟩

theorem AtBoundaries.mono {chunks chunks' : List (List UInt8)} (h : AtBoundaries encs chunks')
    (hpre : chunks <+: chunks') : AtBoundaries encs chunks :=
  fun seen hseen => h seen (hseen.trans hpre)

theorem AtBoundaries.snoc {chunks : List (List UInt8)} {chunk : List UInt8} {j : ℕ}
    (h : AtBoundaries encs chunks) (hj : chunks.flatten ++ chunk = (encs.take j).flatten) :
    AtBoundaries encs (chunks ++ [chunk]) := by
  intro seen hseen
  rcases List.prefix_concat_iff.1 hseen with rfl | hseen
  · exact ⟨j, by rw [List.flatten_append, List.flatten_singleton, hj]⟩
  · exact h seen hseen

theorem Encodings.exists_of_mem (h : Encodings G ms encs) (hbs : bs ∈ encs) :
    ∃ m, serialize G m = some bs := by
  induction h with
  | nil => exact absurd hbs List.not_mem_nil
  | cons hm _ ih =>
    rcases List.mem_cons.1 hbs with rfl | hbs
    · exact ⟨_, hm⟩
    · exact ih hbs

theorem Encodings.eq_nil (hG : FollowsSchema G) (h : Encodings G ms encs)
    (hnil : encs.flatten = []) : ms = [] := by
  cases h with
  | nil => rfl
  | cons hm _ =>
    rw [List.flatten_cons, List.append_eq_nil_iff] at hnil
    exact absurd hnil.1 (List.length_pos_iff.1 (length_serialize hG hm))

/-- Encodings with a part of one more behind them are an error. -/
theorem unframe_cut (hG : FollowsSchema G) (h : Encodings G ms encs) (hbs : serialize G m = some bs)
    {cut : List UInt8} (hcut : cut <+: bs) (hnil : cut ≠ []) (hall : cut ≠ bs) :
    (unframe (deserialize G) (encs.flatten ++ cut)).2 = .error .error := by
  have hstop : unframe (deserialize G) cut = ([], .error .error) :=
    Stream.scan_stop (sbe_progress hG) (next_error hnil (deserialize_cut hG hbs hcut hall))
  rw [unframe_encodings hG h, hstop]
  rfl

/-- One more read of a channel that has posted the first `j` messages: it ends at
the end of a message or inside one. -/
theorem readHandler_encodings (hG : FollowsSchema G) (h : Encodings G ms encs)
    {c : Channel DomainMessage} {chunk : List UInt8} {j : ℕ} (hc : c.Idle)
    (hposted : c.posted = (ms.take j).map stored) (hle : chunk.length ≤ capacity)
    (hchunk : chunk <+: (encs.drop j).flatten) :
    (∃ k, (encs.take j).flatten ++ chunk = (encs.take k).flatten ∧
      (c.readHandler (unframe (deserialize G)) chunk).Idle ∧
      (c.readHandler (unframe (deserialize G)) chunk).posted = (ms.take k).map stored) ∨
    ((∀ k, (encs.take j).flatten ++ chunk ≠ (encs.take k).flatten) ∧
      (c.readHandler (unframe (deserialize G)) chunk).status = .Error ∧
      (c.readHandler (unframe (deserialize G)) chunk).offered = none) := by
  obtain ⟨k, hk⟩ := Stream.prefix_flatten hchunk
  have hpiece : Encodings G ((ms.drop j).take k) ((encs.drop j).take k) :=
    List.forall₂_take k (List.forall₂_drop j h)
  have hjoin : (encs.take j).flatten ++ ((encs.drop j).take k).flatten =
      (encs.take (j + k)).flatten := by
    rw [← List.flatten_append, ← List.take_add]
  rcases hk with rfl | ⟨bs, cut, hbs, hcut, hnil, hall, rfl⟩
  · obtain ⟨hidle, hpost⟩ := hc.readHandler_ok hle (unframe_all hG hpiece)
    refine .inl ⟨j + k, hjoin, hidle, ?_⟩
    rw [hpost, hposted, ← List.map_append, ← List.take_add]
  · rw [List.getElem?_drop] at hbs
    obtain ⟨m, hm⟩ := h.exists_of_mem (List.mem_of_getElem? hbs)
    refine .inr ⟨fun i => ?_, hc.readHandler_error hle (unframe_cut hG hpiece hm hcut hnil hall)⟩
    rw [← List.append_assoc, hjoin]
    exact Stream.flatten_append_cut_ne hbs hcut hnil hall i

/-- After any reads: they have all ended at the end of a message, and the messages
before it have been posted, or one has not and the channel is in `Error`. -/
theorem run_encodings (hG : FollowsSchema G) (h : Encodings G ms encs)
    {chunks : List (List UInt8)} {c : Channel DomainMessage}
    (hrun : (Channel.reads (unframe (deserialize G))).Run chunks c)
    (hpre : chunks.flatten <+: encs.flatten) :
    (AtBoundaries encs chunks ∧ c.Idle ∧
      ∃ j, chunks.flatten = (encs.take j).flatten ∧ c.posted = (ms.take j).map stored) ∨
    (¬ AtBoundaries encs chunks ∧ c.status = .Error ∧ c.offered = none) := by
  induction hrun with
  | start hi =>
    obtain rfl : _ = Channel.start := hi
    exact .inl ⟨AtBoundaries.nil, Channel.Idle.start, 0, rfl, rfl⟩
  | @snoc chunks c chunk c' _ hstep ih =>
    rw [List.flatten_append, List.flatten_singleton] at hpre
    rcases ih ((List.prefix_append _ _).trans hpre) with
      ⟨hall, hidle, j, hj, hposted⟩ | ⟨_, _, hnone⟩
    · have hchunk : chunk <+: (encs.drop j).flatten := by
        rw [hj, ← List.take_append_drop j encs, List.flatten_append, List.take_append_drop,
          List.prefix_append_right_inj] at hpre
        exact hpre
      obtain ⟨⟨_, hle⟩, rfl⟩ := hidle.deliver_eq_some.1 hstep
      rcases readHandler_encodings hG h hidle hposted hle hchunk with
        ⟨k, hk, hidle', hposted'⟩ | ⟨hcut, herror, hnone⟩
      · rw [← hj] at hk
        refine .inl ⟨hall.snoc hk, hidle', k, ?_, hposted'⟩
        rw [List.flatten_append, List.flatten_singleton, hk]
      · refine .inr ⟨fun hall' => ?_, herror, hnone⟩
        obtain ⟨k, hk⟩ := hall' _ (List.prefix_refl _)
        rw [List.flatten_append, List.flatten_singleton, hj] at hk
        exact hcut k hk
    · -- the channel does not read any more
      have hstep' : c.deliver (unframe (deserialize G)) chunk = some c' := hstep
      rw [Channel.deliver, hnone] at hstep'
      cases hstep'

/-- Reads that fit into the buffer can all be delivered, or the channel stops. -/
theorem exists_delivered (hG : FollowsSchema G) (h : Encodings G ms encs)
    {chunks : List (List UInt8)} (hfit : ∀ chunk ∈ chunks, chunk ≠ [] ∧ chunk.length ≤ capacity)
    (hpre : chunks.flatten <+: encs.flatten) :
    ∃ c, Channel.Delivered (unframe (deserialize G)) chunks c := by
  induction chunks using List.reverseRecOn with
  | nil => exact ⟨Channel.start, [], [], rfl, .start rfl, .inl rfl⟩
  | append_singleton chunks chunk ih =>
    rw [List.flatten_append] at hpre
    have hpre' := (List.prefix_append chunks.flatten [chunk].flatten).trans hpre
    obtain ⟨c, seen, rest, rfl, hrun, hrest⟩ :=
      ih (fun x hx => hfit x (List.mem_append_left _ hx)) hpre'
    by_cases hnone : c.offered = none
    · exact ⟨c, seen, rest ++ [chunk], by rw [List.append_assoc], hrun, .inr hnone⟩
    · obtain rfl : rest = [] := hrest.resolve_right hnone
      rw [List.append_nil] at hpre'
      rcases run_encodings hG h hrun hpre' with ⟨_, hidle, _⟩ | ⟨_, _, hnone'⟩
      · refine ⟨c.readHandler (unframe (deserialize G)) chunk, seen ++ [chunk], [], ?_,
          .snoc hrun ?_, .inl rfl⟩
        · rw [List.append_nil, List.append_nil]
        · exact hidle.deliver_eq_some.2
            ⟨hfit chunk (List.mem_append_right _ List.mem_cons_self), rfl⟩
      · exact absurd hnone' hnone

/-- Let `chunks` be any way to cut the encodings of some messages into reads that
are not empty and fit into the buffer.  They can be delivered, as far as the
channel reads, and it posts exactly the messages and is not in `Error`, if and
only if the messages are ones that encodings keep and every read ends at the end
of a message. -/
theorem posts_messages_iff (hG : FollowsSchema G) (h : Encodings G ms encs)
    {chunks : List (List UInt8)} (hchunks : chunks.flatten = encs.flatten)
    (hfit : ∀ chunk ∈ chunks, chunk ≠ [] ∧ chunk.length ≤ capacity) :
    (∃ c, Channel.Delivered (unframe (deserialize G)) chunks c) ∧
    ∀ c, Channel.Delivered (unframe (deserialize G)) chunks c →
      ((c.posted = ms ∧ c.status ≠ .Error) ↔
        (∀ m ∈ ms, Canonical m) ∧ AtBoundaries encs chunks) := by
  refine ⟨exists_delivered hG h hfit ⟨[], by rw [List.append_nil, hchunks]⟩, ?_⟩
  rintro c ⟨seen, rest, rfl, hrun, hrest⟩
  have hpre : seen.flatten <+: encs.flatten := by
    rw [← hchunks, List.flatten_append]
    exact List.prefix_append _ _
  rcases run_encodings hG h hrun hpre with
    ⟨hall, hidle, j, hj, hposted⟩ | ⟨hcut, herror, _⟩
  · obtain rfl : rest = [] := by
      rcases hrest with hrest | hnone
      · exact hrest
      · rw [hidle.offered] at hnone
        cases hnone
    rw [List.append_nil] at hchunks ⊢
    have hms : ms.take j = ms := by
      have hnil : (encs.drop j).flatten = [] := by
        rw [hchunks, ← List.take_append_drop j encs, List.flatten_append, List.take_append_drop,
          List.append_right_eq_self] at hj
        exact hj
      have hdrop : ms.drop j = [] := Encodings.eq_nil hG (List.forall₂_drop j h) hnil
      rw [← List.append_nil (ms.take j), ← hdrop, List.take_append_drop]
    rw [hposted, hms, map_stored_eq, hidle.status]
    simp [hall]
  · refine ⟨fun hgood => absurd herror hgood.2, fun hgood => ?_⟩
    exact absurd (hgood.2.mono (List.prefix_append _ _)) hcut

/-- The encoding of a token in one byte. -/
def bind (token : UInt8) : List UInt8 := [4, 0, 3, 0, 1, 0, 1, 0, token, 0, 0, 0]

theorem posts_messages_binds : ∃ c,
    Channel.Delivered (unframe (deserialize generated)) [bind 7, bind 8] c ∧
    c.posted = [.tokenBindRequest 7, .tokenBindRequest 8] ∧ c.status ≠ .Error := by
  have hencs : Encodings generated [.tokenBindRequest 7, .tokenBindRequest 8]
      [bind 7, bind 8] := .cons rfl (.cons rfl .nil)
  obtain ⟨⟨c, hc⟩, hiff⟩ := posts_messages_iff generated_followsSchema hencs rfl
    (by simp [bind, capacity])
  refine ⟨c, hc, (hiff c hc).2 ⟨by simp [Canonical], ?_⟩⟩
  exact (AtBoundaries.nil.snoc (j := 1) rfl).snoc (j := 2) rfl

/-- A message that arrives in two reads is an error after the first. -/
theorem error_inside_header :
    Encodings generated [.tokenBindRequest 7] [bind 7] ∧
    [(bind 7).take 3, (bind 7).drop 3].flatten = [bind 7].flatten ∧
    ∃ c, Channel.Delivered (unframe (deserialize generated))
        [(bind 7).take 3, (bind 7).drop 3] c ∧
      c.posted = [] ∧ c.status = .Error := by
  refine ⟨.cons rfl .nil, rfl, ?_⟩
  obtain ⟨c, hrun, hc⟩ := Machine.exists_run
    (M := Channel.reads (unframe (deserialize generated))) (fun h => h) rfl [(bind 7).take 3]
    (fun c => c.posted = [] ∧ c.status = .Error ∧ c.offered = none) (by decide +kernel)
  obtain ⟨hposted, hstatus, hnone⟩ := of_decide_eq_true hc
  exact ⟨c, ⟨[(bind 7).take 3], [(bind 7).drop 3], rfl, hrun, .inr hnone⟩, hposted, hstatus⟩

end DummyFramer
