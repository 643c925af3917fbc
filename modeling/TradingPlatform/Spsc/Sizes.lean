/-
The size `read` returns.

`read` gives its slot back first and loads the slot's size for its return value
afterwards.  In between the writer may have gone around the ring and stored the
size of its next message there.

* `size_of_act` — sizes change only where the writer stores one;
* `sizes_returned` — as long as no such store falls between the two, every read
  returns the size of the message it delivered, and after one that does the
  next return is wrong;
* `sizes_overtaken` — two slots are enough to see it.
-/
import TradingPlatform.Spsc.Fifo

namespace SequencedSPSC

/-- The message a writer is busy with. -/
def Writer.message : Writer → Option (List UInt8)
  | .idle => none
  | .copying src _ => some src
  | .sized src => some src

/-- The slot a reader has handed back with its payload, before its return. -/
def Reader.handed : Reader → Option (ℕ × List UInt8)
  | .handedBack slot dst => some (slot, dst)
  | _ => none

theorem Reader.mem_handed {r : Reader} {slot : ℕ} {dst : List UInt8} :
    (slot, dst) ∈ r.handed ↔ r = .handedBack slot dst := by
  cases r <;> simp [handed]

/-- The writer does not store another size into a slot that was handed back and
that the reader has not returned from. -/
def Undisturbed (N : SlotCount) (s : QueueState) (e : QueueAction) : Prop :=
  e = .storeSize → ∀ src ∈ s.writer.message, ∀ r ∈ s.reader.handed,
    r.1 = s.queue.writeSlot N → src.length = r.2.length

instance (N : SlotCount) (s : QueueState) (e : QueueAction) : Decidable (Undisturbed N s e) :=
  inferInstanceAs (Decidable (_ → _))

/-- Every read so far returned the size of the message it delivered, these being
the first messages written. -/
def SizesRight (s : QueueState) : Prop :=
  s.delivered <+: s.written.map fun msg => (msg, msg.length)

instance (s : QueueState) : Decidable (SizesRight s) :=
  inferInstanceAs (Decidable (_ <+: _))

variable {N : SlotCount} {s s' : QueueState} {e : QueueAction}

/-- Changing the sequence number or the bytes of a slot leaves all sizes. -/
theorem size_modify {q : SequencedSPSC} {f : Sloth → Sloth} (hf : ∀ x, (f x).size = x.size)
    (i j : ℕ) : ((q.modify i f).slots j).size = (q.slots j).size := by
  by_cases h : j = i
  · subst h
    rw [modify_self, hf]
  · rw [modify_of_ne _ h]

theorem size_of_act (h : s.act N e = some s') (he : e ≠ .storeSize) (i : ℕ) :
    (s'.queue.slots i).size = (s.queue.slots i).size := by
  cases step_of_act h with
  | storeSize _ => exact absurd rfl he
  | @writeByte src n b _ _ =>
    exact size_modify (f := fun sloth => { sloth with data := Function.update sloth.data n b })
      (fun _ => rfl) _ _
  | publish _ =>
    exact size_modify (f := fun sloth => { sloth with seq := s.queue.writeIdx + 1 })
      (fun _ => rfl) _ _
  | giveBack _ =>
    exact size_modify (f := fun sloth => { sloth with seq := s.queue.readIdx + .ofNat N.val })
      (fun _ => rfl) _ _
  | beginWrite _ _ | failWrite _ _ | beginRead _ _ | emptyRead _ _ | fits _ _ | tooSmall _ _
  | loadSize _ | readByte _ _ | finish _ => rfl

/-- What a read that has handed back its slot will return, and what the earlier
ones have. -/
structure Sized (s : QueueState) : Prop where
  delivered : ∀ r ∈ s.delivered, r.2 = r.1.length
  handed : ∀ slot dst, s.reader = .handedBack slot dst → (s.queue.slots slot).size = dst.length

theorem Sized.act (h : Sized s) (hI : Fifo N s) (hG : Undisturbed N s e)
    (hs : s.act N e = some s') : Sized s' := by
  have hsize := fun he => size_of_act hs he
  cases step_of_act hs with
  | storeSize hw =>
    refine ⟨h.delivered, fun slot dst hr => ?_⟩
    have hr' : s.reader = .handedBack slot dst := hr
    by_cases heq : slot = s.queue.writeSlot N
    · subst heq
      rw [modify_self]
      exact hG rfl _ (by rw [hw]; rfl) _ (by rw [hr']; rfl) rfl
    · rw [modify_of_ne _ heq]
      exact h.handed slot dst hr'
  | giveBack hr =>
    -- the slot still has the size that was loaded for the copy
    refine ⟨h.delivered, fun slot dst' hr' => ?_⟩
    obtain ⟨rfl, rfl⟩ := Reader.handedBack.inj hr'
    rw [hsize (by simp)]
    have hR := hI.reader
    rw [hr] at hR
    obtain ⟨msg, hmsg, hlen, _⟩ := hR
    rw [(hI.oldest hmsg).size, hlen]
  | finish hr =>
    refine ⟨fun r hmem => ?_, fun slot dst hr' => Reader.noConfusion hr'⟩
    rcases List.mem_append.1 hmem with hmem | hmem
    · exact h.delivered r hmem
    · rw [List.mem_singleton.1 hmem]
      exact h.handed _ _ hr
  | writeByte _ _ | publish _ | beginWrite _ _ | failWrite _ _ | emptyRead _ _ =>
    refine ⟨h.delivered, fun slot dst hr => ?_⟩
    rw [hsize (by simp)]
    exact h.handed slot dst hr
  | beginRead _ _ | fits _ _ | tooSmall _ _ | loadSize _ | readByte _ _ =>
    exact ⟨h.delivered, fun slot dst hr' => Reader.noConfusion hr'⟩

theorem Sized.run {es : List QueueAction}
    (h : ((spsc N).restrict (Undisturbed N)).Run es s) : Fifo N s ∧ Sized s := by
  refine h.invariant (I := fun s => Fifo N s ∧ Sized s) (fun s hs => ?_)
    (fun s e s' hI hs => ?_)
  · refine ⟨Fifo.run (.start hs), ?_⟩
    obtain ⟨fuel, slots, _, rfl⟩ := hs
    exact ⟨fun r hr => absurd hr List.not_mem_nil, fun slot dst hr => Reader.noConfusion hr⟩
  · exact ⟨hI.1.act hs.2, hI.2.act hI.1 hs.1 hs.2⟩

/-- The messages delivered are the first ones written; their sizes are right if
each is the length of its payload. -/
theorem sizesRight_iff (hI : Fifo N s) :
    SizesRight s ↔ ∀ r ∈ s.delivered, r.2 = r.1.length := by
  have hpre : s.delivered.map Prod.fst <+: s.written :=
    List.IsPrefix.trans ⟨_, hI.delivered⟩ hI.inOrder
  constructor
  · rintro ⟨rest, hrest⟩ r hr
    have hmem : r ∈ s.written.map fun msg => (msg, msg.length) := by
      rw [← hrest]
      exact List.mem_append_left _ hr
    obtain ⟨msg, _, rfl⟩ := List.mem_map.1 hmem
    rfl
  · intro hlen
    have hmap : s.delivered = (s.delivered.map Prod.fst).map fun msg => (msg, msg.length) := by
      rw [List.map_map]
      conv_lhs => rw [← List.map_id s.delivered]
      refine List.map_congr_left fun r hr => ?_
      exact Prod.ext rfl (hlen r hr)
    rw [SizesRight, hmap]
    exact hpre.map _

/-- A read whose slot has another size by now returns it. -/
theorem finish_wrong (hI : Fifo N s) {slot : ℕ} {dst : List UInt8}
    (hr : s.reader = .handedBack slot dst) (hne : (s.queue.slots slot).size ≠ dst.length) :
    ∃ s₂, (spsc N).step s .finish s₂ ∧ ¬ SizesRight s₂ := by
  refine ⟨{ s with
    reader := .idle
    delivered := s.delivered ++ [(dst, (s.queue.slots slot).size)] }, ?_, fun hright => ?_⟩
  · show s.act N .finish = _
    simp only [QueueState.act, hr]
  · rw [sizesRight_iff (hI.finish hr _)] at hright
    exact hne (hright (dst, _) (List.mem_append_right _ (List.mem_singleton_self _)))

/-! ### Every interleaving -/

/-- As long as no size is stored into a slot between its hand-back and the
return of the read, every read returns the size that was written for the payload
it delivered.  The condition is needed: after a store that breaks it the read
returns another size than that of the message it has copied. -/
theorem sizes_returned (N : SlotCount) (es : List QueueAction) (s : QueueState) :
    (((spsc N).restrict (Undisturbed N)).Run es s → SizesRight s) ∧
    ((spsc N).Run es s → ∀ s₁, (spsc N).step s .storeSize s₁ → ¬ Undisturbed N s .storeSize →
      ∃ s₂, (spsc N).step s₁ .finish s₂ ∧ ¬ SizesRight s₂) := by
  refine ⟨fun h => ?_, fun h s₁ hs hG => ?_⟩
  · obtain ⟨hI, hsized⟩ := Sized.run h
    exact (sizesRight_iff hI).2 hsized.delivered
  · have hI₁ : Fifo N s₁ := (Fifo.run h).act hs
    cases step_of_act hs with
    | @storeSize src hw =>
      simp only [Undisturbed, hw, Writer.message, Option.mem_some_iff, forall_eq',
        forall_const] at hG
      push Not at hG
      obtain ⟨⟨slot, dst⟩, hr, rfl, hne⟩ := hG
      refine finish_wrong hI₁ (Reader.mem_handed.1 hr) ?_
      rw [modify_self]
      exact hne

/-- A reader that returns before the writer comes around. -/
theorem sizes_in_turn : ∃ es s, ((spsc twoSlots).restrict (Undisturbed twoSlots)).Run es s ∧
    s.delivered = [([1], 1)] ∧ SizesRight s := by
  obtain ⟨s, hrun, hs⟩ := exists_run (G := Undisturbed twoSlots)
    (writeAll [1] ++ writeAll [2] ++ readAll 1 ++ [.finish] ++ writeAll [3, 3])
    (fun s => s.delivered = [([1], 1)]) (by decide +kernel)
  exact ⟨_, s, hrun, of_decide_eq_true hs, (sizes_returned _ _ _).1 hrun⟩

/-- Both slots are full; the reader copies the message of one byte and gives its
slot back, the writer stores the size of its next message there, and only then
does the reader load the size it returns. -/
theorem sizes_overtaken :
    ¬ ∀ (N : SlotCount) (es : List QueueAction) (s : QueueState),
      (spsc N).Run es s → SizesRight s := by
  intro hall
  obtain ⟨s, hrun, hs⟩ := exists_run (G := fun _ _ => True)
    (writeAll [1] ++ writeAll [2] ++ readAll 1 ++
      [.beginWrite [3, 3], .writeByte, .writeByte, .storeSize, .finish])
    (fun s => ¬ SizesRight s) (by decide +kernel)
  exact of_decide_eq_true hs (hall _ _ _ hrun.of_restrict)

end SequencedSPSC
