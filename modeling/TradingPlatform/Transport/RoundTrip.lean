/-
Framing and unframing (`common/src/transport/framing/fixed_size_framer.hpp`).

`frame` writes a body after its size, `unframe` takes whole frames off the
front of a buffer.  The serializer is a parameter, and what is needed of it is
that `deserialize` reads back what `serialize` wrote, takes all of the body, and
posts one message whenever it returns a size.

* `next_frame`, `next_of_initial` — the loop takes a frame, and waits on a part
  of one;
* `framed_round_trip` — unframing what was framed, with part of a frame after
  it, and what is known of a buffer that was unframed.
-/
import TradingPlatform.Transport.FixedSize
import TradingPlatform.Serialization.Sbe

namespace FixedSizeFramer

open Bytes

variable {β : Type*}

/-- `frame`; `none` where `serialize` throws.  The size is narrowed to the 16
bits of the header. -/
def frame (serialize : β → Option (List UInt8)) (m : β) : Option (List UInt8) :=
  (serialize m).map fun body => leBytes headerSize body.length ++ body

/-- The message has an encoding that the framer takes. -/
def Sized (serialize : β → Option (List UInt8)) (m : β) : Prop :=
  ∃ body, serialize m = some body ∧ 1 ≤ body.length ∧ body.length ≤ maxBodySize

/-- What `serialize` writes of the message, `deserialize` reads back. -/
def ReadsBack (serialize : β → Option (List UInt8))
    (deserialize : List UInt8 → List β × Except Failure ℕ) (m : β) : Prop :=
  ∀ body, serialize m = some body → deserialize body = ([m], .ok body.length)

/-- `deserialize` posts one message whenever it returns a size. -/
def PostsOne (deserialize : List UInt8 → List β × Except Failure ℕ) : Prop :=
  ∀ body n, (deserialize body).2 = .ok n → ∃ m, (deserialize body).1 = [m]

/-- A size between 1 and 1024 in two little-endian bytes, and as many bytes. -/
def IsFrame (piece : List UInt8) : Prop :=
  piece.length = headerSize + bodySize piece ∧ 1 ≤ bodySize piece ∧ bodySize piece ≤ maxBodySize

/-- `frames` are the frames of `ms`. -/
def Frames (serialize : β → Option (List UInt8)) (ms : List β) (frames : List (List UInt8)) :
    Prop :=
  List.Forall₂ (fun m f => frame serialize m = some f) ms frames

variable {serialize : β → Option (List UInt8)}
  {deserialize : List UInt8 → List β × Except Failure ℕ}

/-! ### One frame -/

theorem bodySize_leBytes {n : ℕ} (h : n ≤ maxBodySize) (ys : List UInt8) :
    bodySize (leBytes headerSize n ++ ys) = n := by
  rw [maxBodySize] at h
  simp only [bodySize, headerSize, leBytes, List.cons_append, List.getD_cons_zero,
    List.getD_cons_succ, UInt8.toNat_ofNat']
  omega

/-- The frame of a message that the framer takes, its size and its body. -/
theorem frame_eq {m : β} {f : List UInt8} (hm : Sized serialize m)
    (hf : frame serialize m = some f) :
    ∃ body, serialize m = some body ∧ 1 ≤ body.length ∧ body.length ≤ maxBodySize ∧
      f = leBytes headerSize body.length ++ body := by
  obtain ⟨body, hbody, hpos, hmax⟩ := hm
  rw [frame, hbody, Option.map_some, Option.some_inj] at hf
  exact ⟨body, hbody, hpos, hmax, hf.symm⟩

/-- The frame of a message that is read back is taken, whatever follows it. -/
theorem next_frame {m : β} {f : List UInt8} (hm : Sized serialize m)
    (hread : ReadsBack serialize deserialize m) (hf : frame serialize m = some f)
    (ys : List UInt8) : next deserialize (f ++ ys) = .item [m] f.length := by
  obtain ⟨body, hbody, hpos, hmax, rfl⟩ := frame_eq hm hf
  have hsize : bodySize (leBytes headerSize body.length ++ (body ++ ys)) = body.length :=
    bodySize_leBytes hmax _
  have hdrop : (leBytes headerSize body.length ++ (body ++ ys)).drop headerSize = body ++ ys :=
    List.drop_left' (length_leBytes _ _)
  have hlen : (leBytes headerSize body.length ++ (body ++ ys)).length =
      headerSize + (body.length + ys.length) := by
    rw [List.length_append, length_leBytes, List.length_append]
  rw [List.append_assoc, next, hsize, hdrop, hlen, if_pos (by omega), if_neg (by omega),
    if_neg (by omega), List.take_left, hread body hbody]
  simp only [ne_eq, not_true_eq_false, if_false, List.length_append, length_leBytes]

/-- Part of a frame is waited on. -/
theorem next_of_initial {m : β} {f t : List UInt8} (hm : Sized serialize m)
    (hf : frame serialize m = some f) (hpre : t <+: f) (hne : t ≠ f) :
    next deserialize t = .more := by
  obtain ⟨body, _, hpos, hmax, rfl⟩ := frame_eq hm hf
  have hlt : t.length < headerSize + body.length := by
    have hle := hpre.length_le
    have hneq : t.length ≠ (leBytes headerSize body.length ++ body).length :=
      fun hlen => hne (hpre.eq_of_length hlen)
    rw [List.length_append, length_leBytes] at hle hneq
    omega
  rw [next]
  by_cases hheader : headerSize < t.length
  · -- the size has arrived, but not all of the body
    obtain ⟨ys, hys⟩ := hpre
    have hsize : bodySize t = body.length := by
      rw [← bodySize_append hheader ys, hys, bodySize_leBytes hmax]
    rw [if_pos hheader, hsize, if_neg (by omega), if_pos hlt]
  · rw [if_neg hheader]

/-- A piece that was taken is a frame, and its body was read to its end. -/
theorem isFrame_of_next {piece ys : List UInt8} {posted : List β}
    (h : next deserialize (piece ++ ys) = .item posted piece.length) :
    IsFrame piece ∧ deserialize (piece.drop headerSize) = (posted, .ok (bodySize piece)) := by
  simp only [next] at h
  split at h
  · split at h
    · cases h
    · next hsize =>
      split at h
      · cases h
      · split at h
        · cases h
        · next n hn =>
          split at h
          · cases h
          · next hall =>
            rw [ne_eq, not_not] at hall
            obtain ⟨hposted, hlen⟩ := Stream.Next.item.inj h
            rw [not_or, Nat.not_lt] at hsize
            have hheader : headerSize < piece.length := by omega
            rw [bodySize_append hheader] at hsize hlen hall hn hposted
            have hbody : ((piece ++ ys).drop headerSize).take (bodySize piece) =
                piece.drop headerSize := by
              rw [List.drop_append_of_le_length (by omega), List.take_left' ?_]
              rw [List.length_drop]
              omega
            rw [hbody] at hn hposted
            refine ⟨⟨hlen.symm, by omega, hsize.2⟩, ?_⟩
            rw [← hposted, ← hall, ← hn]
  · cases h

/-- A frame tells its length. -/
theorem IsFrame.size {piece : List UInt8} (h : IsFrame piece) :
    piece ≠ [] ∧ ∀ ys, headerSize + bodySize (piece ++ ys) = piece.length := by
  obtain ⟨hlen, hpos, _⟩ := h
  refine ⟨List.ne_nil_of_length_pos (by omega), fun ys => ?_⟩
  rw [bodySize_append (by omega), hlen]

/-! ### Whole buffers -/

theorem unframe_frames {ms : List β} {frames : List (List UInt8)} {t : List UInt8}
    (h : Frames serialize ms frames)
    (hms : ∀ m ∈ ms, Sized serialize m ∧ ReadsBack serialize deserialize m)
    (ht : next deserialize t = .more) :
    unframe deserialize (frames.flatten ++ t) = (ms, .ok frames.flatten.length) := by
  have hitems : List.Forall₂
      (fun f posted => ∀ ys, next deserialize (f ++ ys) = .item posted f.length)
      frames (ms.map fun m => [m]) := by
    induction h with
    | nil => exact .nil
    | @cons m f ms frames hf _ ih =>
      obtain ⟨hsized, hread⟩ := hms m List.mem_cons_self
      exact .cons (next_frame hsized hread hf)
        (ih fun m hm => hms m (List.mem_cons_of_mem _ hm))
  have hsingle : (ms.map fun m => [m]).flatten = ms := by
    rw [← List.flatMap_def, List.flatMap_singleton']
  rw [unframe, Stream.scan_items progress hitems, Stream.scan_more progress ht, hsingle,
    List.append_nil]
  rfl

/-- The pieces of a buffer that was unframed, and the message each of them
posted. -/
theorem exists_pieces (hone : PostsOne deserialize) {data : List UInt8} {posted : List β} {c : ℕ}
    (h : unframe deserialize data = (posted, .ok c)) :
    ∃ pieces : List (List UInt8), pieces.flatten = data.take c ∧ (∀ p ∈ pieces, IsFrame p) ∧
      List.Forall₂ (fun p m => deserialize (p.drop headerSize) = ([m], .ok (bodySize p)))
        pieces posted := by
  obtain ⟨pieces, outs, hpieces, rfl, hall⟩ := Stream.scan_pieces progress h
  refine ⟨pieces, hpieces, ?_⟩
  clear hpieces h
  induction hall with
  | nil => exact ⟨fun p hp => absurd hp List.not_mem_nil, .nil⟩
  | @cons piece out pieces outs hitem _ ih =>
    obtain ⟨ys, hnext⟩ := hitem
    obtain ⟨hframe, hread⟩ := isFrame_of_next hnext
    obtain ⟨m, hm⟩ := hone (piece.drop headerSize) (bodySize piece) (by rw [hread])
    rw [hread] at hm
    have hm : out = [m] := hm
    obtain ⟨hframes, hposted⟩ := ih
    rw [hm] at hread ⊢
    exact ⟨List.forall_mem_cons.2 ⟨hframe, hframes⟩, .cons hread hposted⟩

/-- **Framing and unframing.**  The frames of messages whose encodings have
between 1 and 1024 bytes, followed by a proper prefix of one more such frame,
are unframed to exactly these messages, and what is returned is the length of
the whole frames.  Conversely, what `unframe` says it has taken of any buffer is
a concatenation of frames in one way only, each of which posted one message, and
less than the longest frame is left. -/
theorem framed_round_trip (serialize : β → Option (List UInt8))
    (deserialize : List UInt8 → List β × Except Failure ℕ) (hone : PostsOne deserialize) :
    (∀ (ms : List β) (frames : List (List UInt8)) (m : β) (f t : List UInt8),
      Frames serialize ms frames →
      (∀ m ∈ ms, Sized serialize m ∧ ReadsBack serialize deserialize m) →
      Sized serialize m → frame serialize m = some f → t <+: f → t ≠ f →
      unframe deserialize (frames.flatten ++ t) = (ms, .ok frames.flatten.length)) ∧
    (∀ (data : List UInt8) (posted : List β) (c : ℕ),
      unframe deserialize data = (posted, .ok c) →
      ∃ pieces : List (List UInt8),
        pieces.flatten = data.take c ∧ (∀ p ∈ pieces, IsFrame p) ∧
        (∀ pieces' : List (List UInt8), pieces'.flatten = data.take c →
          (∀ p ∈ pieces', IsFrame p) → pieces' = pieces) ∧
        List.Forall₂ (fun p m => deserialize (p.drop headerSize) = ([m], .ok (bodySize p)))
          pieces posted ∧
        c ≤ data.length ∧ data.length - c < 1026) := by
  refine ⟨fun ms frames m f t hframes hms hm hf hpre hne => ?_, fun data posted c h => ?_⟩
  · exact unframe_frames hframes hms (next_of_initial hm hf hpre hne)
  · obtain ⟨pieces, hpieces, hall, hposted⟩ := exists_pieces hone h
    have hc : (Stream.scan (next deserialize) data).2 = .ok c := congrArg Prod.snd h
    obtain ⟨hle, hmore⟩ := Stream.scan_rest progress hc
    have hleft := length_of_more hmore
    rw [List.length_drop, headerSize, maxBodySize] at hleft
    refine ⟨pieces, hpieces, hall, fun pieces' hpieces' hall' => ?_, hposted, hle, by omega⟩
    exact Stream.flatten_inj (fun p => headerSize + bodySize p) (fun p hp => (hall' p hp).size)
      (fun p hp => (hall p hp).size) (hpieces'.trans hpieces.symm)

/-! ### With the SBE serializer -/

theorem sbe_postsOne (G : Sbe.Generated) : PostsOne (Sbe.deserialize G) := by
  have hblock : ∀ (data : List UInt8) (block : ℕ) (message : Option DomainMessage) (n : ℕ),
      (Sbe.readBlock data block message).2 = .ok n →
      ∃ m, (Sbe.readBlock data block message).1 = [m] := by
    intro data block message n h
    unfold Sbe.readBlock at h ⊢
    split at h
    · cases h
    · next hlen =>
      rw [if_neg hlen]
      cases message with
      | some m => exact ⟨m, rfl⟩
      | none => cases h
  intro body n h
  rw [Sbe.deserialize] at h ⊢
  split at h
  · cases h
  · next hlen =>
    rw [if_neg hlen]
    split at h
    all_goals first | exact hblock _ _ _ _ h | cases h

/-- Two messages, and the header and first bytes of a third. -/
theorem framed_round_trip_binds :
    unframe (Sbe.deserialize Sbe.generated)
        ([12, 0, 4, 0, 3, 0, 1, 0, 1, 0, 7, 0, 0, 0] ++
          ([12, 0, 4, 0, 3, 0, 1, 0, 1, 0, 8, 0, 0, 0] ++ [12, 0, 4, 0, 3])) =
      ([.tokenBindRequest 7, .tokenBindRequest 8], .ok 28) := by
  have hbind : ∀ token : Token, token.toNat < 2 ^ 32 →
      Sized (Sbe.serialize Sbe.generated) (.tokenBindRequest token) ∧
        ReadsBack (Sbe.serialize Sbe.generated) (Sbe.deserialize Sbe.generated)
          (.tokenBindRequest token) := by
    intro token htoken
    have hlen : (Sbe.header Sbe.generated 4 3 ++
        Sbe.generated.putUInt 4 (token.toNat % 2 ^ 32)).length = 12 := rfl
    have hstored : Sbe.stored (.tokenBindRequest token) = .tokenBindRequest token :=
      Sbe.stored_eq_self.2 htoken
    refine ⟨⟨_, rfl, by rw [hlen]; decide, by rw [hlen]; decide⟩, fun body hbody => ?_⟩
    have hread := Sbe.deserialize_serialize Sbe.generated_followsSchema hbody []
    rwa [List.append_nil, hstored] at hread
  refine (framed_round_trip (Sbe.serialize Sbe.generated) (Sbe.deserialize Sbe.generated)
    (sbe_postsOne Sbe.generated)).1 [.tokenBindRequest 7, .tokenBindRequest 8]
    [[12, 0, 4, 0, 3, 0, 1, 0, 1, 0, 7, 0, 0, 0], [12, 0, 4, 0, 3, 0, 1, 0, 1, 0, 8, 0, 0, 0]]
    (.tokenBindRequest 9) [12, 0, 4, 0, 3, 0, 1, 0, 1, 0, 9, 0, 0, 0] [12, 0, 4, 0, 3]
    (.cons rfl (.cons rfl .nil)) ?_ (hbind 9 (by decide)).1 rfl ⟨_, rfl⟩ (by decide)
  intro m hm
  rw [List.mem_cons, List.mem_singleton] at hm
  rcases hm with rfl | rfl
  · exact hbind 7 (by decide)
  · exact hbind 8 (by decide)

end FixedSizeFramer
