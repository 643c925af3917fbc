/-
Frames with a size header (`common/src/transport/framing/fixed_size_framer.hpp`).

A frame is a body after its size in two little-endian bytes.  What the framer
finds in the bytes that have arrived does not change when more arrive, and it
leaves less than one frame behind, so a channel may be fed in any pieces.

* `FixedSizeFramer.stable`, `length_of_more` — these two facts;
* `FixedSizeFramer.chunking` — posted messages and errors are those of `unframe`
  on the whole stream, however it is cut, and the channel always has room to
  read until it stops.
-/
import TradingPlatform.Transport.Channel

namespace FixedSizeFramer

variable {β : Type*} (deserialize : List UInt8 → List β × Except Failure ℕ)

/-- `HEADER_SIZE`. -/
def headerSize : ℕ := 2

/-- The largest body the framer takes. -/
def maxBodySize : ℕ := 1024

/-- The size in the header, a `LittleEndianUInt16`. -/
def bodySize (data : List UInt8) : ℕ := (data.getD 0 0).toNat + 256 * (data.getD 1 0).toNat

/-- One turn of the loop of `unframe`.  `deserialize` gets the body's bytes, and
returns what it posts with the size it reports. -/
def next (data : List UInt8) : Stream.Next β Failure :=
  if headerSize < data.length then
    if bodySize data = 0 ∨ maxBodySize < bodySize data then .stop [] .error
    else if data.length < headerSize + bodySize data then .more
    else
      let r := deserialize ((data.drop headerSize).take (bodySize data))
      match r.2 with
      | .error e => .stop r.1 e
      | .ok n =>
        if n ≠ bodySize data then .stop r.1 .error
        else .item r.1 (headerSize + bodySize data)
  else .more

/-- `unframe`: the messages posted, and the bytes consumed or the failure. -/
def unframe (data : List UInt8) : List β × Except Failure ℕ := Stream.scan (next deserialize) data

/-! ### What later bytes change -/

variable {deserialize} {data : List UInt8}

theorem bodySize_append (h : headerSize < data.length) (more : List UInt8) :
    bodySize (data ++ more) = bodySize data := by
  rw [headerSize] at h
  rw [bodySize, bodySize, List.getD_append _ _ _ _ (by omega),
    List.getD_append _ _ _ _ (by omega)]

/-- A frame that is there is there with anything after it. -/
theorem next_append (h : next deserialize data ≠ .more) (more : List UInt8) :
    next deserialize (data ++ more) = next deserialize data := by
  by_cases hlen : headerSize < data.length
  · have hlen' : headerSize < (data ++ more).length := by
      rw [List.length_append]
      omega
    simp only [next, if_pos hlen, if_pos hlen', bodySize_append hlen] at h ⊢
    split
    · rfl
    · next hsize =>
      rw [if_neg hsize] at h
      by_cases hbody : data.length < headerSize + bodySize data
      · rw [if_pos hbody] at h
        exact absurd rfl h
      · have hbody' : ¬ (data ++ more).length < headerSize + bodySize data := by
          rw [List.length_append]
          omega
        rw [if_neg hbody, if_neg hbody', List.drop_append_of_le_length (by omega),
          List.take_append_of_le_length (by rw [List.length_drop]; omega)]
  · rw [next, if_neg hlen] at h
    exact absurd rfl h

/-- What one turn of the loop can do. -/
theorem next_cases (deserialize : List UInt8 → List β × Except Failure ℕ) (data : List UInt8) :
    (next deserialize data = .more ∧ data.length ≤ headerSize + maxBodySize - 1) ∨
    (∃ posted e, next deserialize data = .stop posted e) ∨
    (∃ posted, next deserialize data = .item posted (headerSize + bodySize data) ∧
      headerSize + bodySize data ≤ data.length) := by
  simp only [next]
  split
  · split
    · exact .inr (.inl ⟨_, _, rfl⟩)
    · split
      · refine .inl ⟨rfl, ?_⟩
        rw [headerSize, maxBodySize] at *
        omega
      · next hbody =>
        split
        · exact .inr (.inl ⟨_, _, rfl⟩)
        · split
          · exact .inr (.inl ⟨_, _, rfl⟩)
          · exact .inr (.inr ⟨_, rfl, Nat.not_lt.1 hbody⟩)
  · refine .inl ⟨rfl, ?_⟩
    rw [headerSize, maxBodySize] at *
    omega

theorem progress : Stream.Progress (next deserialize) where
  nil := rfl
  item {data posted n} h := by
    rcases next_cases deserialize data with
      ⟨hmore, _⟩ | ⟨_, _, hstop⟩ | ⟨_, hitem, hle⟩
    · rw [hmore] at h
      cases h
    · rw [hstop] at h
      cases h
    · rw [hitem] at h
      obtain ⟨_, rfl⟩ := Stream.Next.item.inj h
      exact ⟨Nat.lt_of_lt_of_le (Nat.succ_pos 1) (Nat.le_add_right _ _), hle⟩

theorem stable : Stream.Stable (next deserialize) where
  toProgress := progress
  stop_append h ys := by
    rw [next_append (by rw [h]; exact fun h => by cases h) ys, h]
  item_append h ys := by
    rw [next_append (by rw [h]; exact fun h => by cases h) ys, h]

/-- What is left for later is shorter than the longest frame. -/
theorem length_of_more (h : next deserialize data = .more) :
    data.length ≤ headerSize + maxBodySize - 1 := by
  rcases next_cases deserialize data with
    ⟨_, hlen⟩ | ⟨_, _, hstop⟩ | ⟨_, hitem, _⟩
  · exact hlen
  · rw [hstop] at h
    cases h
  · rw [hitem] at h
    cases h

/-! ### Any way of cutting the stream -/

open SlidingBuffer (capacity minReadCapacity)

theorem fed {chunks : List (List UInt8)} {c : Channel β}
    (h : (Channel.reads (unframe deserialize)).Run chunks c) :
    Channel.Fed (next deserialize) chunks.flatten c :=
  Channel.Fed.run stable (fun _ => length_of_more) (by decide) h

/-- Whatever comes after what was read: it is nothing, or the channel has stopped
before it. -/
theorem shows_append {c : Channel β} {bytes rest : List UInt8}
    (h : Channel.Fed (next deserialize) bytes c) (hrest : rest = [] ∨ c.offered = none) :
    c.posted = (unframe deserialize (bytes ++ rest)).1 ∧
      ((unframe deserialize (bytes ++ rest)).2 = .error .error ↔ c.status = .Error) ∧
      ((unframe deserialize (bytes ++ rest)).2 = .error .exception ↔ c.threw = true) := by
  have hscan : unframe deserialize (bytes ++ rest) = Stream.scan (next deserialize) bytes := by
    rcases hrest with rfl | hnone
    · rw [List.append_nil, unframe]
    · -- the scan has stopped before `rest`
      rcases h.stopped_iff.1 hnone with hstatus | hthrew
      · exact Stream.scan_append_of_error stable rest (h.status_error_iff.1 hstatus)
      · exact Stream.scan_append_of_error stable rest (h.threw_iff.1 hthrew)
  rw [hscan]
  exact ⟨h.posted, h.status_error_iff.symm, h.threw_iff.symm⟩

/-- For every stream and every way of delivering it in reads that are not empty
and fit into the span offered: the messages posted, and whether the channel ends
in `Error`, are those of `unframe` on the stream in one piece; a channel that has
stopped takes no more reads; and until then a read is under way whose span has
room for `MIN_READ_CAPACITY` bytes and all of which `commitWrite` accepts.  The
`rest` of the stream is what a channel that has stopped never reads. -/
theorem chunking (deserialize : List UInt8 → List β × Except Failure ℕ)
    {chunks : List (List UInt8)} {c : Channel β}
    (h : (Channel.reads (unframe deserialize)).Run chunks c) :
    (∀ rest, rest = [] ∨ c.offered = none →
      c.posted = (unframe deserialize (chunks.flatten ++ rest)).1 ∧
      ((unframe deserialize (chunks.flatten ++ rest)).2 = .error .error ↔ c.status = .Error) ∧
      ((unframe deserialize (chunks.flatten ++ rest)).2 = .error .exception ↔
        c.threw = true)) ∧
    (c.status = .Error ∨ c.threw = true → ∀ chunk, c.deliver (unframe deserialize) chunk = none) ∧
    (c.status ≠ .Error → c.threw = false → ∃ avail, c.offered = some avail ∧
      minReadCapacity ≤ avail ∧
      ∀ chunk, chunk.length ≤ avail →
        ((c.buffer.fill chunk).commitWrite chunk.length).2 = true) := by
  have hfed := fed h
  refine ⟨fun rest hrest => shows_append hfed hrest, fun hstopped chunk => ?_,
    fun hstatus hthrew => ?_⟩
  · rw [Channel.deliver, hfed.stopped_iff.2 hstopped]
  · have hne : c.offered ≠ none := by
      rw [ne_eq, hfed.stopped_iff, hthrew]
      simp [hstatus]
    obtain ⟨avail, havail⟩ := Option.ne_none_iff_exists'.1 hne
    obtain ⟨rfl, hmin⟩ := hfed.offered havail
    refine ⟨_, havail, hmin, fun chunk hle => ?_⟩
    have hhead := hfed.ordered.head_le
    exact (SlidingBuffer.data_write hfed.ordered chunk (by omega)).1

/-- A serializer that posts the body it gets. -/
def echo (body : List UInt8) : List (List UInt8) × Except Failure ℕ := ([body], .ok body.length)

/-- Two frames cut inside a header and inside a body, then a size of zero. -/
theorem chunking_cut : ∃ c : Channel (List UInt8),
    (Channel.reads (unframe echo)).Run [[2], [0, 7], [8, 1, 0], [9, 0, 0, 5]] c ∧
    c.posted = [[7, 8], [9]] ∧ c.status = .Error ∧
    c.posted = (unframe echo [2, 0, 7, 8, 1, 0, 9, 0, 0, 5]).1 := by
  obtain ⟨c, hrun, hc⟩ := Machine.exists_run (M := Channel.reads (unframe echo)) (fun h => h) rfl
    [[2], [0, 7], [8, 1, 0], [9, 0, 0, 5]]
    (fun c => c.posted = [[7, 8], [9]] ∧ c.status = .Error) (by decide +kernel)
  obtain ⟨hposted, hstatus⟩ := of_decide_eq_true hc
  exact ⟨c, hrun, hposted, hstatus, ((chunking echo hrun).1 [] (.inl rfl)).1⟩

end FixedSizeFramer
