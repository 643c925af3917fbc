/-
The search for the best price, and the mask words it reads.

`getBestAsk` and `getBestBid` start at the cached best price, look at the first
word that is not zero, and give up when its extreme bit is beyond the limit.
In every state of an admissible run this finds what a scan over the resting
orders finds (`search_exact`).

The masks are arrays of `MASK_SIZE` words.  The functions named `…Probes` list
the words that a call reads, and mark the branch of `match` that is logged as
"Mask out of sync"; each follows the function it is named after, branch by
branch.

* `matchProbes_inMask` — at every iteration of the loops of `match`;
* `addProbes_inMask` — in every admissible call.
-/
import TradingPlatform.OrderBook.Refinement
import Mathlib.Order.Bounds.Basic

namespace PriceLevelOrderBook

variable {K : Constants}

/-- What is recorded of a call. -/
inductive Probe
  /-- A read of `bidMask_[i]` or of `askMask_[i]`. -/
  | word (side : Side) (i : ℕ)
  /-- "Mask out of sync at price …". -/
  | outOfSync (price : ℕ)
deriving DecidableEq

/-- The probe is a read of a word that the masks have. -/
def Probe.InMask (K : Constants) : Probe → Prop
  | .word _ i => i < maskSize K
  | .outOfSync _ => False

/-! ### The words read -/

def getBestAskProbes (b : PriceLevelOrderBook K) (limitPrice : ℕ) : List Probe :=
  let startWord := b.minAsk >>> 6
  let maxWord := limitPrice >>> 6
  (WordMask.firstReads b.askMask startWord (maxWord + 1 - startWord)).map (.word .Sell)

def getBestBidProbes (b : PriceLevelOrderBook K) (limitPrice : ℕ) : List Probe :=
  let startWord := b.maxBid >>> 6
  let minWord := limitPrice >>> 6
  (WordMask.lastReads b.bidMask startWord (startWord + 1 - minWord)).map (.word .Buy)

def findNewMaxBidProbes (b : PriceLevelOrderBook K) (startWord : ℕ) : List Probe :=
  (WordMask.lastReads b.bidMask startWord (startWord + 1)).map (.word .Buy)

def findNewMinAskProbes (b : PriceLevelOrderBook K) (startWord : ℕ) : List Probe :=
  (WordMask.firstReads b.askMask startWord (maskSize K - startWord)).map (.word .Sell)

def updateOccupancyProbes (b : PriceLevelOrderBook K) (side : Side) (priceIdx : ℕ)
    (active : Bool) : List Probe :=
  let wordIdx := priceIdx >>> 6
  let bitIdx := priceIdx &&& 63
  let volume := (b.level side priceIdx).volume
  if active then
    [.word side wordIdx]
  else
    let b' :=
      if volume = 0 then b.setMask side (WordMask.clearBit (b.mask side) wordIdx bitIdx) else b
    (if volume = 0 then [Probe.word side wordIdx] else []) ++
      if side = .Buy ∧ priceIdx = b'.maxBid then
        b'.findNewMaxBidProbes wordIdx
      else if side = .Sell ∧ priceIdx = b'.minAsk then
        b'.findNewMinAskProbes wordIdx
      else
        []

def fillHeadProbes (b : PriceLevelOrderBook K) (side : Side) (price : ℕ)
    (remainingQty : Quantity) : List Probe :=
  let lvl := b.level side price
  let restingNode := b.nodePool lvl.head
  let fillQty := min remainingQty restingNode.qty
  let b := b.setNode lvl.head { restingNode with qty := restingNode.qty - fillQty }
  let lvl := { lvl with volume := lvl.volume - fillQty.toUInt64 }
  if restingNode.qty - fillQty = 0 ∧ restingNode.next = 0 then
    (b.setLevel side price { lvl with head := restingNode.next, tail := 0 }).updateOccupancyProbes
      restingNode.side price false
  else
    []

def fillLevelProbes (side : Side) (price : ℕ) :
    ℕ → PriceLevelOrderBook K → Quantity → List Probe
  | 0, _, _ => []
  | fuel + 1, b, remainingQty =>
    if (b.level side price).head ≠ 0 ∧ 0 < remainingQty then
      let r := b.fillHead side price remainingQty
      b.fillHeadProbes side price remainingQty ++ fillLevelProbes side price fuel r.1 r.2
    else
      []

def getBestProbes (b : PriceLevelOrderBook K) (side : Side) (price : ℕ) : List Probe :=
  match side with
  | .Buy => b.getBestAskProbes price
  | .Sell => b.getBestBidProbes price

def matchProbes (side : Side) (price : ℕ) :
    ℕ → PriceLevelOrderBook K → Quantity → List Probe
  | 0, _, _ => []
  | fuel + 1, b, remainingQty =>
    if 0 < remainingQty then
      if b.bestIsBeyond side price then
        []
      else
        b.getBestProbes side price ++
          match b.getBest side price with
          | none => []
          | some best =>
            if (b.level side.opposite best).head = 0 then
              .outOfSync best :: b.updateOccupancyProbes side.opposite best false ++
                matchProbes side price fuel (b.updateOccupancy side.opposite best false)
                  remainingQty
            else
              fillLevelProbes side.opposite best (fuel + 1) b remainingQty ++
                match fillLevel side.opposite best (fuel + 1) b remainingQty with
                | none => []
                | some r => matchProbes side price fuel r.1 r.2
    else
      []

def linkNodeProbes (b : PriceLevelOrderBook K) (o : InternalOrder K) (side : Side)
    (qty : Quantity) (localId : BookOrderId K) : List Probe :=
  let idx := localId.index
  let lvl := b.level side o.price
  let b := b.setNode idx ⟨0, lvl.tail, o.price, qty, localId, o.id, side⟩
  if lvl.tail ≠ 0 then
    []
  else
    (b.setLevel side o.price { lvl with head := idx }).updateOccupancyProbes side o.price true

def restOrderProbes (b : PriceLevelOrderBook K) (o : InternalOrder K) (side : Side)
    (qty : Quantity) : List Probe :=
  let r := b.acquireId
  if r.1.isValid then r.2.linkNodeProbes o side qty r.1 else []

def unlinkNodeProbes (b : PriceLevelOrderBook K) (node : Node K) : List Probe :=
  let b := (b.relinkPrev node).relinkNext node
  let lvl := b.level node.side node.price
  let b := b.setLevel node.side node.price { lvl with volume := lvl.volume - node.qty.toUInt64 }
  if lvl.volume - node.qty.toUInt64 = 0 then
    b.updateOccupancyProbes node.side node.price false
  else
    []

def cancelOrderProbes (b : PriceLevelOrderBook K) (o : InternalOrder K) : List Probe :=
  let node := b.nodePool o.bookOId.index
  if node.localId ≠ o.bookOId then [] else b.unlinkNodeProbes node

def addProbes (fuel : ℕ) (b : PriceLevelOrderBook K) (ioe : InternalOrderEvent K) :
    List Probe :=
  if ioe.action = .Cancel then
    b.cancelOrderProbes ioe.order
  else
    let o := ioe.order
    let side := getSide ioe.action
    if K.maxTicks ≤ o.price then
      []
    else
      matchProbes side o.price fuel b o.quantity ++
        match b.matchOrder fuel o side with
        | none => []
        | some m => if 0 < m.2 then m.1.restOrderProbes o side m.2 else []

/-! ### Single searches -/

theorem word_lt_maskSize {p : ℕ} (hp : p < K.maxTicks) : p >>> 6 < maskSize K := by
  have hsize : maskSize K = K.maxTicks / 64 + 1 := rfl
  rw [shiftRight_six]
  omega

section

variable {b : PriceLevelOrderBook K} {occ : Side → ℕ → Prop}

theorem getBestAskProbes_inMask {limit : ℕ} (hl : limit < K.maxTicks) :
    ∀ pr ∈ b.getBestAskProbes limit, pr.InMask K := by
  intro pr hpr
  obtain ⟨k, hk, rfl⟩ := List.mem_map.mp hpr
  have hbound := WordMask.mem_firstReads hk
  have hword := word_lt_maskSize hl
  rw [Probe.InMask]
  omega

/-- The bids are searched downwards from the cached price, which is a price of
the book or 0. -/
theorem Occupancy.getBestBidProbes_inMask (h : Occupancy b occ) (limit : ℕ) :
    ∀ pr ∈ b.getBestBidProbes limit, pr.InMask K := by
  intro pr hpr
  obtain ⟨k, hk, rfl⟩ := List.mem_map.mp hpr
  have hle := WordMask.mem_lastReads hk
  have hword : b.maxBid >>> 6 < maskSize K := by
    rcases h.maxBid_mem with hmem | hzero
    · exact word_lt_maskSize (h.lt _ _ hmem)
    · rw [hzero]
      exact Nat.succ_pos _
  exact lt_of_le_of_lt hle hword

theorem Occupancy.getBestProbes_inMask (h : Occupancy b occ) {side : Side} {limit : ℕ}
    (hl : limit < K.maxTicks) : ∀ pr ∈ b.getBestProbes side limit, pr.InMask K := by
  cases side with
  | Buy => exact getBestAskProbes_inMask hl
  | Sell => exact h.getBestBidProbes_inMask limit

/-- The answer depends on no other words of the mask. -/
theorem getBestAsk_congr {limit : ℕ} {mask : ℕ → BitVec 64}
    (h : ∀ i, .word .Sell i ∈ b.getBestAskProbes limit → mask i = b.askMask i) :
    getBestAsk { b with askMask := mask } limit = b.getBestAsk limit := by
  have hfirst := WordMask.firstFrom_congr fun i hi => h i (List.mem_map_of_mem hi)
  simp only [getBestAsk, hfirst]

theorem getBestBid_congr {limit : ℕ} {mask : ℕ → BitVec 64}
    (h : ∀ i, .word .Buy i ∈ b.getBestBidProbes limit → mask i = b.bidMask i) :
    getBestBid { b with bidMask := mask } limit = b.getBestBid limit := by
  have hlast := WordMask.lastFrom_congr fun i hi => h i (List.mem_map_of_mem hi)
  simp only [getBestBid, hlast]

theorem findNewMaxBidProbes_inMask {startWord : ℕ} (hs : startWord < maskSize K) :
    ∀ pr ∈ b.findNewMaxBidProbes startWord, pr.InMask K := by
  intro pr hpr
  obtain ⟨k, hk, rfl⟩ := List.mem_map.mp hpr
  exact lt_of_le_of_lt (WordMask.mem_lastReads hk) hs

theorem findNewMinAskProbes_inMask {startWord : ℕ} (hs : startWord < maskSize K) :
    ∀ pr ∈ b.findNewMinAskProbes startWord, pr.InMask K := by
  intro pr hpr
  obtain ⟨k, hk, rfl⟩ := List.mem_map.mp hpr
  have hbound := WordMask.mem_firstReads hk
  rw [Probe.InMask]
  omega

theorem updateOccupancyProbes_inMask {side : Side} {price : ℕ} (hp : price < K.maxTicks)
    (active : Bool) : ∀ pr ∈ b.updateOccupancyProbes side price active, pr.InMask K := by
  intro pr hpr
  have hword := word_lt_maskSize hp
  simp only [updateOccupancyProbes] at hpr
  split at hpr
  · obtain rfl := List.mem_singleton.mp hpr
    exact hword
  · rcases List.mem_append.mp hpr with hpr | hpr
    · split at hpr
      · obtain rfl := List.mem_singleton.mp hpr
        exact hword
      · exact absurd hpr List.not_mem_nil
    · -- the search for a new best price, in whichever mask the bit was cleared
      generalize (if (b.level side price).volume = 0 then b.setMask side
        (WordMask.clearBit (b.mask side) (price >>> 6) (price &&& 63)) else b) = c at hpr
      split at hpr
      · exact findNewMaxBidProbes_inMask hword pr hpr
      · split at hpr
        · exact findNewMinAskProbes_inMask hword pr hpr
        · exact absurd hpr List.not_mem_nil

end

/-! ### The loops of `match` -/

variable {b : PriceLevelOrderBook K} {q : Side → ℕ → List ℕ}

theorem fillHeadProbes_inMask {side : Side} {price : ℕ} (hp : price < K.maxTicks)
    (rem : Quantity) : ∀ pr ∈ b.fillHeadProbes side price rem, pr.InMask K := by
  intro pr hpr
  simp only [fillHeadProbes] at hpr
  split at hpr
  · exact updateOccupancyProbes_inMask hp false pr hpr
  · exact absurd hpr List.not_mem_nil

theorem fillLevelProbes_inMask {side : Side} {price : ℕ} (hp : price < K.maxTicks) :
    ∀ (fuel : ℕ) (b : PriceLevelOrderBook K) (rem : Quantity),
      ∀ pr ∈ fillLevelProbes side price fuel b rem, pr.InMask K := by
  intro fuel
  induction fuel with
  | zero =>
    intro b rem pr hpr
    exact absurd hpr List.not_mem_nil
  | succ fuel ih =>
    intro b rem pr hpr
    rw [fillLevelProbes] at hpr
    split at hpr
    · rcases List.mem_append.mp hpr with hpr | hpr
      · exact fillHeadProbes_inMask hp rem pr hpr
      · exact ih _ _ pr hpr
    · exact absurd hpr List.not_mem_nil

/-- However much fuel it got, the inner loop leaves a book that satisfies the
invariant when it returns. -/
theorem Rep.fillLevel (h : Rep b q) {side : Side} {limit p : ℕ}
    (hcross : crosses side limit p = true)
    (hbest : ∀ r, q side.opposite r ≠ [] → better side.opposite r p = false) {fuel : ℕ}
    {rem : Quantity} {r : PriceLevelOrderBook K × Quantity}
    (hf : fillLevel side.opposite p fuel b rem = some r) : ∃ q', Rep r.1 q' := by
  obtain ⟨b', q', rem', heq, hfill, _⟩ := fillLevel_spec hcross (max fuel (rem.toNat + 1)) h hbest
    (lt_of_lt_of_le (Nat.lt_succ_self _) (le_max_right _ _))
  have hsame := fillLevel_mono (le_max_left fuel (rem.toNat + 1)) hf
  rw [heq, Option.some_inj] at hsame
  subst hsame
  exact ⟨q', hfill.rep⟩

/-- The loops of `match` stay inside the masks and never find them out of sync. -/
theorem matchProbes_inMask {side : Side} {limit : ℕ} (hl : limit < K.maxTicks) :
    ∀ (fuel : ℕ) {b : PriceLevelOrderBook K} {q : Side → ℕ → List ℕ} {rem : Quantity},
      Rep b q → ∀ pr ∈ matchProbes side limit fuel b rem, pr.InMask K := by
  intro fuel
  induction fuel with
  | zero =>
    intro b q rem _ pr hpr
    exact absurd hpr List.not_mem_nil
  | succ fuel ih =>
    intro b q rem h pr hpr
    rw [matchProbes] at hpr
    split at hpr
    · split at hpr
      · exact absurd hpr List.not_mem_nil
      · rcases List.mem_append.mp hpr with hpr | hpr
        · exact h.occupancy.getBestProbes_inMask hl pr hpr
        · rcases hg : b.getBest side limit with _ | best
          · rw [hg] at hpr
            exact absurd hpr List.not_mem_nil
          · rw [hg] at hpr
            simp only at hpr
            obtain ⟨hocc, hcross, hbest⟩ := h.occupancy.getBest_eq_some hg
            -- the level found is occupied, so its head is not 0
            rw [if_neg ((h.head_ne_zero_iff _ _).mpr hocc)] at hpr
            rcases List.mem_append.mp hpr with hpr | hpr
            · exact fillLevelProbes_inMask (h.occupancy.lt _ _ hocc) _ _ _ pr hpr
            · split at hpr
              · exact absurd hpr List.not_mem_nil
              · next r hf =>
                obtain ⟨q', hrep⟩ := h.fillLevel hcross hbest hf
                exact ih hrep pr hpr
    · exact absurd hpr List.not_mem_nil

/-! ### Whole calls -/

theorem restOrderProbes_inMask {o : InternalOrder K} (hp : o.price < K.maxTicks) (side : Side)
    (qty : Quantity) : ∀ pr ∈ b.restOrderProbes o side qty, pr.InMask K := by
  intro pr hpr
  simp only [restOrderProbes] at hpr
  split at hpr
  · simp only [linkNodeProbes] at hpr
    split at hpr
    · exact absurd hpr List.not_mem_nil
    · exact updateOccupancyProbes_inMask hp true pr hpr
  · exact absurd hpr List.not_mem_nil

/-- The node of a resting order has a price of the book. -/
theorem Rep.cancelOrderProbes_inMask (h : Rep b q) {o : InternalOrder K}
    (hh : b.orders.Holds o.bookOId) : ∀ pr ∈ b.cancelOrderProbes o, pr.InMask K := by
  intro pr hpr
  obtain ⟨⟨s, p, hi⟩, _⟩ := h.holds_iff.mp hh
  have hp : (b.nodePool o.bookOId.index).price < K.maxTicks := by
    rw [h.queues.price s p _ hi]
    exact h.price_lt hi
  simp only [cancelOrderProbes] at hpr
  split at hpr
  · exact absurd hpr List.not_mem_nil
  · simp only [unlinkNodeProbes] at hpr
    split at hpr
    · exact updateOccupancyProbes_inMask hp false pr hpr
    · exact absurd hpr List.not_mem_nil

theorem Rep.addProbes_inMask (h : Rep b q) {ioe : InternalOrderEvent K} (ha : b.Admissible ioe)
    (fuel : ℕ) : ∀ pr ∈ b.addProbes fuel ioe, pr.InMask K := by
  intro pr hpr
  rw [addProbes] at hpr
  by_cases hc : ioe.action = .Cancel
  · rw [if_pos hc] at hpr
    rcases ha with ha | ha | ha
    · exact OrderAction.noConfusion (ha.symm.trans hc)
    · exact OrderAction.noConfusion (ha.symm.trans hc)
    · exact h.cancelOrderProbes_inMask ha.2 pr hpr
  · rw [if_neg hc] at hpr
    simp only at hpr
    split at hpr
    · exact absurd hpr List.not_mem_nil
    · next hp =>
      rcases List.mem_append.mp hpr with hpr | hpr
      · exact matchProbes_inMask (by omega) fuel h pr hpr
      · split at hpr
        · exact absurd hpr List.not_mem_nil
        · split at hpr
          · exact restOrderProbes_inMask (by omega) _ _ pr hpr
          · exact absurd hpr List.not_mem_nil

/-! ### The search is a scan -/

/-- An order of side `side` and price `p` rests in the book. -/
def Rests (b : PriceLevelOrderBook K) (side : Side) (p : ℕ) : Prop :=
  ∃ x ∈ b.orders.orders side, x.price = p

theorem Rep.rests_iff (h : Rep b q) {side : Side} {p : ℕ} : b.Rests side p ↔ q side p ≠ [] := by
  rw [Rests, h.orders_side]
  constructor
  · rintro ⟨x, hx, rfl⟩
    obtain ⟨r, _, i, hi, rfl⟩ := mem_listing.mp hx
    rw [show (b.order i).price = r from h.queues.price side r i hi]
    exact List.ne_nil_of_mem hi
  · intro hne
    obtain ⟨i, hi⟩ := List.exists_mem_of_ne_nil _ hne
    exact ⟨b.order i, mem_listing.mpr ⟨p, h.price_lt hi, i, hi, rfl⟩, h.queues.price side p i hi⟩

/-- What `getBestAsk` and `getBestBid` answer for `limit`, said of the resting
orders, and the words they read, on which alone the answers depend. -/
structure SearchExact (b : PriceLevelOrderBook K) (limit : ℕ) : Prop where
  ask : ∀ p, b.getBestAsk limit = some p ↔ IsLeast {r | r ≤ limit ∧ b.Rests .Sell r} p
  no_ask : b.getBestAsk limit = none ↔ ∀ r ≤ limit, ¬b.Rests .Sell r
  bid : ∀ p, b.getBestBid limit = some p ↔ IsGreatest {r | limit ≤ r ∧ b.Rests .Buy r} p
  no_bid : b.getBestBid limit = none ↔ ∀ r, limit ≤ r → ¬b.Rests .Buy r
  probes : ∀ pr ∈ b.getBestAskProbes limit ++ b.getBestBidProbes limit, pr.InMask K
  ask_reads : ∀ mask, (∀ i, .word .Sell i ∈ b.getBestAskProbes limit → mask i = b.askMask i) →
    getBestAsk { b with askMask := mask } limit = b.getBestAsk limit
  bid_reads : ∀ mask, (∀ i, .word .Buy i ∈ b.getBestBidProbes limit → mask i = b.bidMask i) →
    getBestBid { b with bidMask := mask } limit = b.getBestBid limit

/-- An answer that is extreme where there is one, and missing only where there
is none, is the extreme one. -/
theorem answer_iff {S : Set ℕ} {E : ℕ → Prop} {answer : Option ℕ} (hE : ∀ p, E p → p ∈ S)
    (huniq : ∀ p r, E p → E r → p = r) (hsome : ∀ p, answer = some p → E p)
    (hnone : answer = none → ∀ r, r ∉ S) :
    (∀ p, answer = some p ↔ E p) ∧ (answer = none ↔ ∀ r, r ∉ S) := by
  rcases answer with _ | r
  · have hempty := hnone rfl
    refine ⟨fun p => ?_, fun _ => hempty, fun _ => rfl⟩
    constructor
    · intro hc
      exact absurd hc (by simp)
    · intro hp
      exact absurd (hE p hp) (hempty p)
  · have hr := hsome r rfl
    refine ⟨fun p => ?_, ?_⟩
    · constructor
      · intro hp
        exact hsome p hp
      · intro hp
        rw [huniq r p hr hp]
    · constructor
      · intro hc
        exact absurd hc (by simp)
      · intro hempty
        exact absurd (hE r hr) (hempty r)

theorem Rep.getBestAsk_iff (h : Rep b q) (limit : ℕ) :
    (∀ p, b.getBestAsk limit = some p ↔ IsLeast {r | r ≤ limit ∧ b.Rests .Sell r} p) ∧
      (b.getBestAsk limit = none ↔ ∀ r, r ∉ {r | r ≤ limit ∧ b.Rests .Sell r}) := by
  refine answer_iff (fun p hp => hp.1) (fun p r hp hr => hp.unique hr) ?_ ?_
  · intro p hp
    obtain ⟨ho, hle, hleast⟩ := h.occupancy.getBestAsk_eq_some hp
    exact ⟨⟨hle, h.rests_iff.mpr ho⟩, fun r hr => hleast r (h.rests_iff.mp hr.2)⟩
  · rintro hn r ⟨hr, hrests⟩
    have hlt := h.occupancy.getBestAsk_eq_none h.head_ne_zero_iff hn r (h.rests_iff.mp hrests)
    omega

theorem Rep.getBestBid_iff (h : Rep b q) (limit : ℕ) :
    (∀ p, b.getBestBid limit = some p ↔ IsGreatest {r | limit ≤ r ∧ b.Rests .Buy r} p) ∧
      (b.getBestBid limit = none ↔ ∀ r, r ∉ {r | limit ≤ r ∧ b.Rests .Buy r}) := by
  refine answer_iff (fun p hp => hp.1) (fun p r hp hr => hp.unique hr) ?_ ?_
  · intro p hp
    obtain ⟨ho, hle, hgreatest⟩ := h.occupancy.getBestBid_eq_some hp
    exact ⟨⟨hle, h.rests_iff.mpr ho⟩, fun r hr => hgreatest r (h.rests_iff.mp hr.2)⟩
  · rintro hn r ⟨hr, hrests⟩
    have hlt := h.occupancy.getBestBid_eq_none h.head_ne_zero_iff hn r (h.rests_iff.mp hrests)
    omega

theorem Rep.searchExact (h : Rep b q) {limit : ℕ} (hl : limit < K.maxTicks) :
    SearchExact b limit := by
  obtain ⟨hask, hnoask⟩ := h.getBestAsk_iff limit
  obtain ⟨hbid, hnobid⟩ := h.getBestBid_iff limit
  refine ⟨hask, hnoask.trans ?_, hbid, hnobid.trans ?_, ?_, fun _ => getBestAsk_congr,
    fun _ => getBestBid_congr⟩
  · exact ⟨fun hno r hr hc => hno r ⟨hr, hc⟩, fun hno r hr => hno r hr.1 hr.2⟩
  · exact ⟨fun hno r hr hc => hno r ⟨hr, hc⟩, fun hno r hr => hno r hr.1 hr.2⟩
  · intro pr hpr
    rcases List.mem_append.mp hpr with hpr | hpr
    · exact getBestAskProbes_inMask hl pr hpr
    · exact h.occupancy.getBestBidProbes_inMask limit pr hpr

/-- **The bitmask search is a linear scan.**  In every state of an admissible
run the two searches find the extreme resting price within any limit below
`MAX_TICKS`; and whatever admissible event comes next, the call reads only words
that the masks have, and its `match` never finds a mask out of sync. -/
theorem search_exact {es : List (InternalOrderEvent K × List (BookMessage K))}
    (h : (admissibleRuns K).Run es b) :
    (∀ limit < K.maxTicks, SearchExact b limit) ∧
      ∀ ioe, b.Admissible ioe → ∀ fuel, ∀ pr ∈ b.addProbes fuel ioe, pr.InMask K := by
  obtain ⟨q, hq⟩ := admissible_rep h
  exact ⟨fun limit hl => hq.searchExact hl, fun ioe ha fuel => hq.addProbes_inMask ha fuel⟩

theorem search_exact_tradeAndCancel :
    ∃ b, (admissibleRuns .cicd).Run tradeAndCancel b ∧
      (∀ limit < Constants.cicd.maxTicks, SearchExact b limit) ∧
      ∀ ioe, b.Admissible ioe → ∀ fuel, ∀ pr ∈ b.addProbes fuel ioe, pr.InMask .cicd := by
  obtain ⟨b, hb⟩ := tradeAndCancel_run
  exact ⟨b, hb, search_exact hb⟩

end PriceLevelOrderBook
