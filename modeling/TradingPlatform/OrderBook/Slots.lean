/-
Node recycling.

`Slots b R` says that the nodes handed out so far, `1 … nextAvailableIdx - 1`,
are divided between the resting ones `R` and the free stack, without
repetition.  `acquireId` moves one index to the resting nodes
(`Slots.acquire`), and fails only when all of them rest; `releaseId` moves one
back (`Slots.release`).
-/
import TradingPlatform.OrderBook.Frame
import Mathlib.Data.Finset.Card
import Mathlib.Order.Interval.Finset.Nat

namespace PriceLevelOrderBook

variable {K : Constants}

/-- Resting nodes `R` and free stack share the indices handed out so far. -/
structure Slots (b : PriceLevelOrderBook K) (R : ℕ → Prop) : Prop where
  next_pos : 1 ≤ b.nextAvailableIdx
  next_le : b.nextAvailableIdx ≤ K.maxBookOrders.val
  valid : ∀ k < b.freeTop, (b.freeStack k).isValid = true
  inj : ∀ k < b.freeTop, ∀ l < b.freeTop,
    (b.freeStack k).index = (b.freeStack l).index → k = l
  free : ∀ k < b.freeTop, ¬R (b.freeStack k).index
  cover : ∀ i, (1 ≤ i ∧ i < b.nextAvailableIdx) ↔
    R i ∨ ∃ k < b.freeTop, (b.freeStack k).index = i

namespace Slots

variable {b b' : PriceLevelOrderBook K} {R : ℕ → Prop}

theorem fresh : Slots (fresh K) fun _ => False where
  next_pos := le_rfl
  next_le := by
    have := K.maxBookOrders.two_le
    show 1 ≤ _
    omega
  valid := fun k hk => absurd hk (Nat.not_lt_zero k)
  inj := fun k hk => absurd hk (Nat.not_lt_zero k)
  free := fun k hk => absurd hk (Nat.not_lt_zero k)
  cover := by
    intro i
    constructor
    · rintro ⟨h1, h2⟩
      have h2' : i < 1 := h2
      omega
    · rintro (h | ⟨k, hk, _⟩)
      · exact h.elim
      · exact absurd hk (Nat.not_lt_zero k)

theorem congr (h : Slots b R) (hs : b'.freeStack = b.freeStack) (ht : b'.freeTop = b.freeTop)
    (hn : b'.nextAvailableIdx = b.nextAvailableIdx) : Slots b' R := by
  obtain ⟨h1, h2, h3, h4, h5, h6⟩ := h
  rw [← hs, ← ht] at h3 h4 h5
  rw [← hn] at h1 h2
  simp only [← hs, ← ht, ← hn] at h6
  exact ⟨h1, h2, h3, h4, h5, h6⟩

theorem iff_congr {R' : ℕ → Prop} (h : Slots b R) (hiff : ∀ i, R i ↔ R' i) : Slots b R' := by
  have heq : R = R' := by
    funext i
    exact propext (hiff i)
  exact heq ▸ h

theorem resting_bounds (h : Slots b R) {i : ℕ} (hi : R i) : 1 ≤ i ∧ i < b.nextAvailableIdx :=
  (h.cover i).mpr (.inl hi)

/-- Every index handed out fits the handles of the book. -/
theorem index_fits {i : ℕ} (hi : i < K.maxBookOrders.val) :
    i < 2 ^ SlotId.indexBits K.maxBookOrders :=
  lt_of_lt_of_le hi (SlotId.indexBits_spec K.maxBookOrders).2.2

/-- The stack never grows beyond the indices handed out, so it never overflows. -/
theorem freeTop_lt (h : Slots b R) : b.freeTop < b.nextAvailableIdx := by
  have hcard : (Finset.range b.freeTop).card ≤ (Finset.Ico 1 b.nextAvailableIdx).card := by
    refine Finset.card_le_card_of_injOn (fun k => (b.freeStack k).index) ?_ ?_
    · intro k hk
      have hk' : k < b.freeTop := by simpa using hk
      have := (h.cover (b.freeStack k).index).mpr (.inr ⟨k, hk', rfl⟩)
      simpa using this
    · intro k hk l hl heq
      exact h.inj k (by simpa using hk) l (by simpa using hl) heq
  have h1 := h.next_pos
  simp only [Finset.card_range, Nat.card_Ico] at hcard
  omega

theorem pop (h : Slots b R) (htop : 0 < b.freeTop) :
    Slots { b with freeTop := b.freeTop - 1 }
      fun i => R i ∨ i = (b.freeStack (b.freeTop - 1)).index := by
  have hlast : b.freeTop - 1 < b.freeTop := by omega
  have hlt : ∀ k, k < b.freeTop - 1 → k < b.freeTop := by
    intro k hk
    omega
  refine ⟨h.next_pos, h.next_le, ?_, ?_, ?_, ?_⟩
  · intro k hk
    exact h.valid k (hlt k hk)
  · intro k hk l hl
    exact h.inj k (hlt k hk) l (hlt l hl)
  · rintro k hk (hr | heq)
    · exact h.free k (hlt k hk) hr
    · -- what is left on the stack is not its old top
      have hkl := h.inj k (hlt k hk) _ hlast heq
      exact absurd hk (by rw [hkl]; exact lt_irrefl _)
  · intro i
    rw [h.cover i]
    constructor
    · rintro (hr | ⟨k, hk, rfl⟩)
      · exact .inl (.inl hr)
      · by_cases hkl : k = b.freeTop - 1
        · exact .inl (.inr (by rw [hkl]))
        · exact .inr ⟨k, by simp only; omega, rfl⟩
    · rintro ((hr | rfl) | ⟨k, hk, rfl⟩)
      · exact .inl hr
      · exact .inr ⟨_, hlast, rfl⟩
      · exact .inr ⟨k, hlt k hk, rfl⟩

theorem extend (h : Slots b R) (htop : b.freeTop = 0)
    (hroom : b.nextAvailableIdx < K.maxBookOrders.val) :
    Slots { b with nextAvailableIdx := b.nextAvailableIdx + 1 }
      fun i => R i ∨ i = b.nextAvailableIdx := by
  have hnone : ∀ k, ¬k < b.freeTop := by
    intro k
    rw [htop]
    exact Nat.not_lt_zero k
  refine ⟨Nat.le_add_left 1 _, hroom, h.valid, h.inj, fun k hk => absurd hk (hnone k), ?_⟩
  intro i
  have hcover := h.cover i
  have hnext := h.next_pos
  simp only [hnone, false_and, exists_const, or_false] at hcover ⊢
  rw [← hcover]
  omega

/-- `acquireId` hands out an index that does not rest, or nothing when every
index rests. -/
theorem acquire (h : Slots b R) :
    (b.acquireId.1.isValid = true ∧ ¬R b.acquireId.1.index ∧
      1 ≤ b.acquireId.1.index ∧ b.acquireId.1.index < K.maxBookOrders.val ∧
      Slots b.acquireId.2 fun i => R i ∨ i = b.acquireId.1.index) ∨
    (b.acquireId = (default, b) ∧ ∀ i, 1 ≤ i → i < K.maxBookOrders.val → R i) := by
  have hnext := h.next_le
  rw [acquireId]
  split
  · next htop =>
    -- the top of the stack
    left
    have hlast : b.freeTop - 1 < b.freeTop := by omega
    obtain ⟨hb1, hb2⟩ := (h.cover _).mpr (.inr ⟨_, hlast, rfl⟩)
    exact ⟨h.valid _ hlast, h.free _ hlast, hb1, lt_of_lt_of_le hb2 hnext, h.pop htop⟩
  · next htop =>
    have htop0 : b.freeTop = 0 := by omega
    split
    · next hfull =>
      -- the stack is empty and every index has been handed out
      right
      refine ⟨rfl, fun i h1 h2 => ?_⟩
      rcases (h.cover i).mp ⟨h1, by omega⟩ with hr | ⟨k, hk, _⟩
      · exact hr
      · exact absurd (htop0 ▸ hk) (Nat.not_lt_zero k)
    · next hroom =>
      -- a fresh index
      left
      have hlt : b.nextAvailableIdx < K.maxBookOrders.val := by omega
      have hfit := index_fits (K := K) hlt
      rw [SlotId.index_make_one hfit]
      refine ⟨SlotId.isValid_make_one hfit, ?_, h.next_pos, hlt, h.extend htop0 hlt⟩
      intro hr
      exact lt_irrefl _ (h.resting_bounds hr).2

theorem release (h : Slots b R) {id : BookOrderId K} (hr : R id.index) :
    Slots (b.releaseId id) fun i => R i ∧ i ≠ id.index := by
  have hold : ∀ k < b.freeTop, (b.releaseId id).freeStack k = b.freeStack k := by
    intro k hk
    exact Function.update_of_ne (by omega) _ _
  have hnew : (b.releaseId id).freeStack b.freeTop = id.nextGen := Function.update_self _ _ _
  have htop : (b.releaseId id).freeTop = b.freeTop + 1 := rfl
  have hne : ∀ k < b.freeTop, (b.freeStack k).index ≠ id.index := by
    intro k hk heq
    exact h.free k hk (heq ▸ hr)
  refine ⟨h.next_pos, h.next_le, ?_, ?_, ?_, ?_⟩
  · intro k hk
    rcases Nat.lt_succ_iff_lt_or_eq.mp hk with hk | rfl
    · rw [hold k hk]
      exact h.valid k hk
    · rw [hnew]
      exact SlotId.isValid_nextGen id
  · -- the released index was not on the stack yet
    intro k hk l hl heq
    rcases Nat.lt_succ_iff_lt_or_eq.mp hk with hk | rfl <;>
      rcases Nat.lt_succ_iff_lt_or_eq.mp hl with hl | rfl
    · rw [hold k hk, hold l hl] at heq
      exact h.inj k hk l hl heq
    · rw [hold k hk, hnew, SlotId.index_nextGen] at heq
      exact absurd heq (hne k hk)
    · rw [hold l hl, hnew, SlotId.index_nextGen] at heq
      exact absurd heq.symm (hne l hl)
    · rfl
  · intro k hk
    rcases Nat.lt_succ_iff_lt_or_eq.mp hk with hk | rfl
    · rw [hold k hk]
      exact fun hc => h.free k hk hc.1
    · rw [hnew, SlotId.index_nextGen]
      exact fun hc => hc.2 rfl
  · intro i
    show (1 ≤ i ∧ i < b.nextAvailableIdx) ↔ _
    rw [h.cover i]
    constructor
    · rintro (hri | ⟨k, hk, rfl⟩)
      · by_cases hi : i = id.index
        · exact .inr ⟨b.freeTop, by rw [htop]; omega, by rw [hnew, SlotId.index_nextGen, hi]⟩
        · exact .inl ⟨hri, hi⟩
      · exact .inr ⟨k, by rw [htop]; omega, by rw [hold k hk]⟩
    · rintro (⟨hri, _⟩ | ⟨k, hk, rfl⟩)
      · exact .inl hri
      · rcases Nat.lt_succ_iff_lt_or_eq.mp hk with hk | rfl
        · exact .inr ⟨k, hk, by rw [hold k hk]⟩
        · rw [hnew, SlotId.index_nextGen]
          exact .inl hr

end Slots

end PriceLevelOrderBook
