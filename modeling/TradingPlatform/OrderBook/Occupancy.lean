/-
Masks and cached best prices.

`Occupancy b occ` says that the masks of `b` are exactly the set `occ` of
occupied levels and that the two cached prices are its extremes, with
`MAX_TICKS` and `0` standing for an empty side.

* `Occupancy.activate`, `Occupancy.deactivate` — `updateOccupancy` adds or
  removes one level;
* `Occupancy.getBest_eq_some`, `Occupancy.getBest_eq_none` — the search for the
  best opposite price is a linear scan over the occupied levels.
-/
import TradingPlatform.OrderBook.Frame
import TradingPlatform.OrderBook.PriceTime

namespace PriceLevelOrderBook

variable {K : Constants}

/-- The masks are the occupied levels, the cached prices their extremes. -/
structure Occupancy (b : PriceLevelOrderBook K) (occ : Side → ℕ → Prop) : Prop where
  bit : ∀ s p, WordMask.test (b.mask s) p = true ↔ occ s p
  lt : ∀ s p, occ s p → p < K.maxTicks
  minAsk_le : ∀ p, occ .Sell p → b.minAsk ≤ p
  minAsk_mem : occ .Sell b.minAsk ∨ b.minAsk = K.maxTicks
  le_maxBid : ∀ p, occ .Buy p → p ≤ b.maxBid
  maxBid_mem : occ .Buy b.maxBid ∨ b.maxBid = 0

theorem shiftRight_six (p : ℕ) : p >>> 6 = p / 64 := Nat.shiftRight_eq_div_pow p 6

theorem and_sixtyThree (p : ℕ) : p &&& 63 = p % 64 := Nat.and_two_pow_sub_one_eq_mod p 6

namespace Occupancy

variable {b b' : PriceLevelOrderBook K} {occ : Side → ℕ → Prop}

theorem fresh : Occupancy (fresh K) fun _ _ => False where
  bit := by
    intro s p
    cases s <;> simp [WordMask.test, mask, PriceLevelOrderBook.fresh]
  lt := fun _ _ h => h.elim
  minAsk_le := fun _ h => h.elim
  minAsk_mem := .inr rfl
  le_maxBid := fun _ h => h.elim
  maxBid_mem := .inr rfl

theorem congr (h : Occupancy b occ) (hm : ∀ s, b'.mask s = b.mask s)
    (ha : b'.minAsk = b.minAsk) (hb : b'.maxBid = b.maxBid) : Occupancy b' occ where
  bit := by
    intro s p
    rw [hm]
    exact h.bit s p
  lt := h.lt
  minAsk_le := by
    rw [ha]
    exact h.minAsk_le
  minAsk_mem := by
    rw [ha]
    exact h.minAsk_mem
  le_maxBid := by
    rw [hb]
    exact h.le_maxBid
  maxBid_mem := by
    rw [hb]
    exact h.maxBid_mem

theorem iff_congr {occ' : Side → ℕ → Prop} (h : Occupancy b occ)
    (hiff : ∀ s p, occ s p ↔ occ' s p) : Occupancy b occ' := by
  have heq : occ = occ' := by
    funext s p
    exact propext (hiff s p)
  exact heq ▸ h

/-- No ask rests below the cached best ask; none rests at all when it is
`MAX_TICKS`. -/
theorem no_ask (h : Occupancy b occ) (hmem : ¬occ .Sell b.minAsk) (p : ℕ) : ¬occ .Sell p := by
  intro hp
  have hmax := h.minAsk_mem.resolve_left hmem
  have h1 := h.minAsk_le p hp
  have h2 := h.lt .Sell p hp
  omega

theorem no_bid (h : Occupancy b occ) (hmem : ¬occ .Buy b.maxBid) (p : ℕ) : ¬occ .Buy p := by
  intro hp
  have hmax := h.maxBid_mem.resolve_left hmem
  have h1 := h.le_maxBid p hp
  rw [show b.maxBid = p by omega] at hmem
  exact hmem hp

/-! ### Updating one level -/

/-- The mask after the bit of a level has been set. -/
private theorem activated (h : Occupancy b occ) {side : Side} {price : ℕ} (s : Side) (p : ℕ) :
    WordMask.test ((b.updateOccupancy side price true).mask s) p = true ↔
      occ s p ∨ (s = side ∧ p = price) := by
  have hm : (b.updateOccupancy side price true).mask s =
      if s = side then WordMask.setBit (b.mask side) (price / 64) (price % 64)
      else b.mask s := by
    rw [← shiftRight_six, ← and_sixtyThree]
    cases side <;> cases s <;> rfl
  rw [hm]
  by_cases hs : s = side
  · subst hs
    rw [if_pos rfl, WordMask.test_setBit (Nat.succ_pos _), Bool.or_eq_true, h.bit,
      decide_eq_true_iff]
    simp
  · rw [if_neg hs, h.bit]
    simp [hs]

theorem activate (h : Occupancy b occ) {side : Side} {price : ℕ} (hp : price < K.maxTicks) :
    Occupancy (b.updateOccupancy side price true)
      fun s p => occ s p ∨ (s = side ∧ p = price) := by
  have hbit : ∀ s p, WordMask.test ((b.updateOccupancy side price true).mask s) p = true ↔
      occ s p ∨ (s = side ∧ p = price) := fun s p => h.activated s p
  have hlt : ∀ s p, occ s p ∨ (s = side ∧ p = price) → p < K.maxTicks := by
    rintro s p (ho | ⟨rfl, rfl⟩)
    · exact h.lt s p ho
    · exact hp
  have hmin := h.minAsk_mem
  have hmax := h.maxBid_mem
  cases side with
  | Buy =>
    -- the asks are as they were; the best bid becomes the larger of the two
    refine ⟨hbit, hlt, ?_, ?_, ?_, ?_⟩
    · rintro p (ho | ⟨hc, _⟩)
      · exact h.minAsk_le p ho
      · exact Side.noConfusion hc
    · rcases hmin with hm | hm
      · exact .inl (.inl hm)
      · exact .inr hm
    · show ∀ p, _ → p ≤ max b.maxBid price
      rintro p (ho | ⟨_, rfl⟩)
      · exact (h.le_maxBid p ho).trans (le_max_left _ _)
      · exact le_max_right _ _
    · show (occ .Buy (max b.maxBid price) ∨ _ ∧ max b.maxBid price = price) ∨ _
      rcases le_total b.maxBid price with hle | hle
      · rw [max_eq_right hle]
        exact .inl (.inr ⟨rfl, rfl⟩)
      · rw [max_eq_left hle]
        -- without bids `maxBid_` is 0, and so is the price
        rcases hmax with hm | hm
        · exact .inl (.inl hm)
        · exact .inl (.inr ⟨rfl, by omega⟩)
  | Sell =>
    -- the bids are as they were; the best ask becomes the smaller of the two
    refine ⟨hbit, hlt, ?_, ?_, ?_, ?_⟩
    · show ∀ p, _ → min b.minAsk price ≤ p
      rintro p (ho | ⟨_, rfl⟩)
      · exact (min_le_left _ _).trans (h.minAsk_le p ho)
      · exact min_le_right _ _
    · show (occ .Sell (min b.minAsk price) ∨ _ ∧ min b.minAsk price = price) ∨ _
      rcases le_total b.minAsk price with hle | hle
      · rw [min_eq_left hle]
        rcases hmin with hm | hm
        · exact .inl (.inl hm)
        · exact absurd hp (by omega)
      · rw [min_eq_right hle]
        exact .inl (.inr ⟨rfl, rfl⟩)
    · rintro p (ho | ⟨hc, _⟩)
      · exact h.le_maxBid p ho
      · exact Side.noConfusion hc
    · rcases hmax with hm | hm
      · exact .inl (.inl hm)
      · exact .inr hm

/-- The state in which `updateOccupancy` looks for a new best price: the bit of
the emptied level is cleared, the cached prices are still the old ones. -/
private theorem cleared (h : Occupancy b occ) {side : Side} {price : ℕ} (s : Side) (p : ℕ) :
    WordMask.test ((b.setMask side (WordMask.clearBit (b.mask side) (price >>> 6)
      (price &&& 63))).mask s) p = true ↔ occ s p ∧ ¬(s = side ∧ p = price) := by
  rw [mask_setMask, shiftRight_six, and_sixtyThree]
  by_cases hs : s = side
  · subst hs
    rw [if_pos rfl, WordMask.test_clearBit (Nat.succ_pos _), Bool.and_eq_true, h.bit]
    simp
  · rw [if_neg hs, h.bit]
    simp [hs]

private theorem findNewMaxBid_spec {c : PriceLevelOrderBook K} {P : ℕ → Prop}
    {price : ℕ} (hbit : ∀ p, WordMask.test (c.mask .Buy) p = true ↔ P p)
    (hle : ∀ p, P p → p ≤ price) :
    (∀ p, P p → p ≤ (c.findNewMaxBid (price >>> 6)).maxBid) ∧
      (P (c.findNewMaxBid (price >>> 6)).maxBid ∨
        (c.findNewMaxBid (price >>> 6)).maxBid = 0) := by
  have hmax : (c.findNewMaxBid (price >>> 6)).maxBid =
      (WordMask.lastFrom c.bidMask (price / 64) (price / 64 + 1)).getD 0 := by
    rw [← shiftRight_six]
    rfl
  rw [hmax]
  rcases hl : WordMask.lastFrom c.bidMask (price / 64) (price / 64 + 1) with _ | r
  · -- no bit at or below the word of `price`, and no level above it
    have hnone := WordMask.lastFrom_eq_none (Nat.succ_pos _) le_rfl hl
    have hempty : ∀ p, ¬P p := by
      intro p hp
      have hf := hnone p (by omega) (by have := hle p hp; omega)
      have ht : WordMask.test c.bidMask p = true := (hbit p).mpr hp
      rw [hf] at ht
      exact Bool.noConfusion ht
    exact ⟨fun p hp => absurd hp (hempty p), .inr rfl⟩
  · obtain ⟨ht, _, _, habove⟩ := WordMask.lastFrom_eq_some (Nat.succ_pos _) le_rfl hl
    refine ⟨fun p hp => ?_, .inl ((hbit r).mp ht)⟩
    by_contra hlt
    have hf := habove p (by simpa using hlt) (by have := hle p hp; omega)
    have ht : WordMask.test c.bidMask p = true := (hbit p).mpr hp
    rw [hf] at ht
    exact Bool.noConfusion ht

private theorem findNewMinAsk_spec {c : PriceLevelOrderBook K} {P : ℕ → Prop}
    {price : ℕ} (hbit : ∀ p, WordMask.test (c.mask .Sell) p = true ↔ P p)
    (hle : ∀ p, P p → price ≤ p) (hlt : ∀ p, P p → p < K.maxTicks) :
    (∀ p, P p → (c.findNewMinAsk (price >>> 6)).minAsk ≤ p) ∧
      (P (c.findNewMinAsk (price >>> 6)).minAsk ∨
        (c.findNewMinAsk (price >>> 6)).minAsk = K.maxTicks) := by
  have hmin : (c.findNewMinAsk (price >>> 6)).minAsk =
      (WordMask.firstFrom c.askMask (price / 64) (maskSize K - price / 64)).getD K.maxTicks := by
    rw [← shiftRight_six]
    rfl
  have hsize : maskSize K = K.maxTicks / 64 + 1 := rfl
  rw [hmin]
  rcases hl : WordMask.firstFrom c.askMask (price / 64) (maskSize K - price / 64) with _ | r
  · -- no bit from the word of `price` to the end of the mask, and no level below
    have hnone := WordMask.firstFrom_eq_none (Nat.succ_pos _) hl
    have hempty : ∀ p, ¬P p := by
      intro p hp
      have h1 := hle p hp
      have h2 := hlt p hp
      have hf := hnone p (by omega) (by omega)
      have ht : WordMask.test c.askMask p = true := (hbit p).mpr hp
      rw [hf] at ht
      exact Bool.noConfusion ht
    exact ⟨fun p hp => absurd hp (hempty p), .inr rfl⟩
  · obtain ⟨ht, _, _, hbelow⟩ := WordMask.firstFrom_eq_some (Nat.succ_pos _) hl
    refine ⟨fun p hp => ?_, .inl ((hbit r).mp ht)⟩
    by_contra hgt
    have h1 := hle p hp
    have hf := hbelow p (by omega) (by simpa using hgt)
    have ht : WordMask.test c.askMask p = true := (hbit p).mpr hp
    rw [hf] at ht
    exact Bool.noConfusion ht

theorem deactivate (h : Occupancy b occ) {side : Side} {price : ℕ}
    (hvol : (b.level side price).volume = 0) :
    Occupancy (b.updateOccupancy side price false)
      fun s p => occ s p ∧ ¬(s = side ∧ p = price) := by
  set c := b.setMask side (WordMask.clearBit (b.mask side) (price >>> 6) (price &&& 63)) with hc
  have hbit : ∀ s p, WordMask.test (c.mask s) p = true ↔ occ s p ∧ ¬(s = side ∧ p = price) :=
    fun s p => h.cleared s p
  have hminAsk : c.minAsk = b.minAsk := minAsk_setMask _ _ _
  have hmaxBid : c.maxBid = b.maxBid := maxBid_setMask _ _ _
  have hunfold : b.updateOccupancy side price false =
      if side = .Buy ∧ price = c.maxBid then c.findNewMaxBid (price >>> 6)
      else if side = .Sell ∧ price = c.minAsk then c.findNewMinAsk (price >>> 6) else c := by
    simp only [updateOccupancy, Bool.false_eq_true, if_false, hvol, if_true, ← hc]
  have hlt : ∀ s p, occ s p ∧ ¬(s = side ∧ p = price) → p < K.maxTicks :=
    fun s p ho => h.lt s p ho.1
  rw [hunfold]
  -- the side whose level was emptied searches again only if the level was its best
  split
  · next hbuy =>
    -- the best bid: every other bid is in its word or in one below
    obtain ⟨rfl, hprice⟩ := hbuy
    have hle : ∀ p, occ .Buy p ∧ ¬(Side.Buy = Side.Buy ∧ p = price) → p ≤ price := by
      intro p ho
      rw [hprice, hmaxBid]
      exact h.le_maxBid p ho.1
    obtain ⟨h1, h2⟩ := findNewMaxBid_spec (hbit .Buy) hle
    refine ⟨fun s p => ?_, hlt, ?_, ?_, h1, h2⟩
    · exact hbit s p
    · show ∀ p, _ → c.minAsk ≤ p
      rw [hminAsk]
      exact fun p ho => h.minAsk_le p ho.1
    · show (_ ∧ _) ∨ c.minAsk = _
      rw [hminAsk]
      exact h.minAsk_mem.imp (fun ho => ⟨ho, by simp⟩) id
  · next hbuy =>
    split
    · next hsell =>
      -- the best ask: every other ask is in its word or in one above
      obtain ⟨rfl, hprice⟩ := hsell
      have hle : ∀ p, occ .Sell p ∧ ¬(Side.Sell = Side.Sell ∧ p = price) → price ≤ p := by
        intro p ho
        rw [hprice, hminAsk]
        exact h.minAsk_le p ho.1
      obtain ⟨h1, h2⟩ := findNewMinAsk_spec (hbit .Sell) hle (hlt .Sell)
      refine ⟨fun s p => ?_, hlt, h1, h2, ?_, ?_⟩
      · exact hbit s p
      · show ∀ p, _ → p ≤ c.maxBid
        rw [hmaxBid]
        exact fun p ho => h.le_maxBid p ho.1
      · show (_ ∧ _) ∨ c.maxBid = _
        rw [hmaxBid]
        exact h.maxBid_mem.imp (fun ho => ⟨ho, by simp⟩) id
    · next hsell =>
      -- the cached prices are levels other than the one that was emptied
      rw [hmaxBid] at hbuy
      rw [hminAsk] at hsell
      refine ⟨hbit, hlt, ?_, ?_, ?_, ?_⟩
      · rw [hminAsk]
        exact fun p ho => h.minAsk_le p ho.1
      · rw [hminAsk]
        exact h.minAsk_mem.imp (fun ho => ⟨ho, fun hc => hsell ⟨hc.1.symm, hc.2.symm⟩⟩) id
      · rw [hmaxBid]
        exact fun p ho => h.le_maxBid p ho.1
      · rw [hmaxBid]
        exact h.maxBid_mem.imp (fun ho => ⟨ho, fun hc => hbuy ⟨hc.1.symm, hc.2.symm⟩⟩) id

/-! ### The search for the best opposite price -/

theorem bestIsBeyond_eq_true (h : Occupancy b occ) {side : Side} {limit : ℕ}
    (hb : b.bestIsBeyond side limit = true) :
    ∀ r, occ side.opposite r → crosses side limit r = false := by
  intro r hr
  cases side with
  | Buy =>
    have hle := h.minAsk_le r hr
    simp only [bestIsBeyond, decide_eq_true_eq] at hb
    simp only [crosses, decide_eq_false_iff_not]
    omega
  | Sell =>
    have hle := h.le_maxBid r hr
    simp only [bestIsBeyond, decide_eq_true_eq] at hb
    simp only [crosses, decide_eq_false_iff_not]
    omega

/-- The first non-zero ask word at or above the cached best ask holds the best ask. -/
private theorem firstFrom_minAsk (h : Occupancy b occ) {n p : ℕ}
    (hf : WordMask.firstFrom b.askMask (b.minAsk >>> 6) n = some p) :
    occ .Sell p ∧ ∀ r, occ .Sell r → p ≤ r := by
  rw [shiftRight_six] at hf
  obtain ⟨ht, _, _, hbelow⟩ := WordMask.firstFrom_eq_some (Nat.succ_pos _) hf
  refine ⟨(h.bit .Sell p).mp ht, fun r hr => ?_⟩
  by_contra hlt
  have hmin := h.minAsk_le r hr
  have hr' : WordMask.test b.askMask r = true := (h.bit .Sell r).mpr hr
  rw [hbelow r (by omega) (by omega)] at hr'
  exact Bool.noConfusion hr'

private theorem lastFrom_maxBid (h : Occupancy b occ) {n p : ℕ} (hn : n ≤ b.maxBid / 64 + 1)
    (hf : WordMask.lastFrom b.bidMask (b.maxBid >>> 6) n = some p) :
    occ .Buy p ∧ ∀ r, occ .Buy r → r ≤ p := by
  rw [shiftRight_six] at hf
  obtain ⟨ht, _, _, habove⟩ := WordMask.lastFrom_eq_some (Nat.succ_pos _) hn hf
  refine ⟨(h.bit .Buy p).mp ht, fun r hr => ?_⟩
  by_contra hlt
  have hmax := h.le_maxBid r hr
  have hr' : WordMask.test b.bidMask r = true := (h.bit .Buy r).mpr hr
  rw [habove r (by omega) (by omega)] at hr'
  exact Bool.noConfusion hr'

theorem getBestAsk_eq_some (h : Occupancy b occ) {limit p : ℕ}
    (hg : b.getBestAsk limit = some p) :
    occ .Sell p ∧ p ≤ limit ∧ ∀ r, occ .Sell r → p ≤ r := by
  simp only [getBestAsk] at hg
  split at hg
  · next q hf =>
    split at hg
    · next hok =>
      rw [Option.some_inj] at hg
      subst hg
      obtain ⟨ho, hle⟩ := h.firstFrom_minAsk hf
      exact ⟨ho, hok.1, hle⟩
    · exact absurd hg (by simp)
  · exact absurd hg (by simp)

theorem getBestBid_eq_some (h : Occupancy b occ) {limit p : ℕ}
    (hg : b.getBestBid limit = some p) :
    occ .Buy p ∧ limit ≤ p ∧ ∀ r, occ .Buy r → r ≤ p := by
  simp only [getBestBid] at hg
  split at hg
  · next q hf =>
    split at hg
    · next hok =>
      rw [Option.some_inj] at hg
      subst hg
      obtain ⟨ho, hle⟩ := h.lastFrom_maxBid (by rw [shiftRight_six]; omega) hf
      exact ⟨ho, hok.1, hle⟩
    · exact absurd hg (by simp)
  · exact absurd hg (by simp)

variable (hhead : ∀ s p, (b.level s p).head ≠ 0 ↔ occ s p)
include hhead

theorem getBestAsk_eq_none (h : Occupancy b occ) {limit : ℕ} (hg : b.getBestAsk limit = none) :
    ∀ r, occ .Sell r → limit < r := by
  intro r hr
  by_contra hle
  have hmin := h.minAsk_le r hr
  simp only [getBestAsk] at hg
  split at hg
  · next q hf =>
    obtain ⟨hq, hleast⟩ := h.firstFrom_minAsk hf
    have hqr := hleast r hr
    rw [if_pos ⟨by omega, (hhead .Sell q).mpr hq⟩] at hg
    exact absurd hg (by simp)
  · next hf =>
    rw [shiftRight_six, shiftRight_six] at hf
    have hr' : WordMask.test b.askMask r = true := (h.bit .Sell r).mpr hr
    rw [WordMask.firstFrom_eq_none (Nat.succ_pos _) hf r (by omega) (by omega)] at hr'
    exact Bool.noConfusion hr'

theorem getBestBid_eq_none (h : Occupancy b occ) {limit : ℕ} (hg : b.getBestBid limit = none) :
    ∀ r, occ .Buy r → r < limit := by
  intro r hr
  by_contra hle
  have hmax := h.le_maxBid r hr
  simp only [getBestBid] at hg
  split at hg
  · next q hf =>
    obtain ⟨hq, hgreatest⟩ := h.lastFrom_maxBid (by rw [shiftRight_six]; omega) hf
    have hqr := hgreatest r hr
    rw [if_pos ⟨by omega, (hhead .Buy q).mpr hq⟩] at hg
    exact absurd hg (by simp)
  · next hf =>
    rw [shiftRight_six, shiftRight_six] at hf
    have hr' : WordMask.test b.bidMask r = true := (h.bit .Buy r).mpr hr
    rw [WordMask.lastFrom_eq_none (Nat.succ_pos _) (by omega) hf r (by omega) (by omega)] at hr'
    exact Bool.noConfusion hr'

omit hhead in
/-- The price found is the best one on the opposite side, and it is crossed. -/
theorem getBest_eq_some (h : Occupancy b occ) {side : Side} {limit p : ℕ}
    (hg : b.getBest side limit = some p) :
    occ side.opposite p ∧ crosses side limit p = true ∧
      ∀ r, occ side.opposite r → better side.opposite r p = false := by
  cases side with
  | Buy =>
    obtain ⟨h1, h2, h3⟩ := h.getBestAsk_eq_some hg
    refine ⟨h1, by simpa [crosses] using h2, fun r hr => ?_⟩
    simpa [better, Side.opposite] using h3 r hr
  | Sell =>
    obtain ⟨h1, h2, h3⟩ := h.getBestBid_eq_some hg
    refine ⟨h1, by simpa [crosses] using h2, fun r hr => ?_⟩
    simpa [better, Side.opposite] using h3 r hr

/-- When the search finds nothing, nothing on the opposite side is crossed. -/
theorem getBest_eq_none (h : Occupancy b occ) {side : Side} {limit : ℕ}
    (hg : b.getBest side limit = none) :
    ∀ r, occ side.opposite r → crosses side limit r = false := by
  intro r hr
  cases side with
  | Buy => simpa [crosses] using h.getBestAsk_eq_none hhead hg r hr
  | Sell => simpa [crosses] using h.getBestBid_eq_none hhead hg r hr

end Occupancy

end PriceLevelOrderBook
