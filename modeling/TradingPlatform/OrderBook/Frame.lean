/-
What each write of the order book leaves alone.

One equation for each field and each of the small writes of the model, all of
them simp lemmas, so that the proofs about the operations never unfold a write.
-/
import TradingPlatform.OrderBook.Model

namespace PriceLevelOrderBook

variable {K : Constants} (b : PriceLevelOrderBook K) (side s : Side) (price p i : ℕ)
  (l : PriceLevelSide) (m : ℕ → BitVec 64) (n : Node K) (id : BookOrderId K) (active : Bool)

/-! ### Levels -/

theorem level_congr {b b' : PriceLevelOrderBook K} (h : b'.levels = b.levels) :
    b'.level s p = b.level s p := by
  rw [level.eq_def, level.eq_def, h]

theorem level_setLevel : (b.setLevel side price l).level s p =
    if s = side ∧ p = price then l else b.level s p := by
  by_cases hp : p = price
  · subst hp
    cases s <;> cases side <;> simp [level, setLevel]
  · cases s <;> cases side <;> simp [level, setLevel, hp]

@[simp] theorem level_setLevel_self : (b.setLevel side price l).level side price = l := by
  rw [level_setLevel, if_pos ⟨rfl, rfl⟩]

@[simp] theorem nodePool_setLevel : (b.setLevel side price l).nodePool = b.nodePool := by
  cases side <;> rfl

@[simp] theorem mask_setLevel : (b.setLevel side price l).mask s = b.mask s := by
  cases side <;> cases s <;> rfl

@[simp] theorem minAsk_setLevel : (b.setLevel side price l).minAsk = b.minAsk := by
  cases side <;> rfl

@[simp] theorem maxBid_setLevel : (b.setLevel side price l).maxBid = b.maxBid := by
  cases side <;> rfl

@[simp] theorem freeStack_setLevel : (b.setLevel side price l).freeStack = b.freeStack := by
  cases side <;> rfl

@[simp] theorem freeTop_setLevel : (b.setLevel side price l).freeTop = b.freeTop := by
  cases side <;> rfl

@[simp] theorem nextAvailableIdx_setLevel :
    (b.setLevel side price l).nextAvailableIdx = b.nextAvailableIdx := by
  cases side <;> rfl

/-! ### Nodes -/

@[simp] theorem nodePool_setNode : (b.setNode i n).nodePool = Function.update b.nodePool i n := rfl

@[simp] theorem level_setNode : (b.setNode i n).level s p = b.level s p := by
  cases s <;> rfl

@[simp] theorem mask_setNode : (b.setNode i n).mask s = b.mask s := by
  cases s <;> rfl

@[simp] theorem minAsk_setNode : (b.setNode i n).minAsk = b.minAsk := rfl

@[simp] theorem maxBid_setNode : (b.setNode i n).maxBid = b.maxBid := rfl

@[simp] theorem freeStack_setNode : (b.setNode i n).freeStack = b.freeStack := rfl

@[simp] theorem freeTop_setNode : (b.setNode i n).freeTop = b.freeTop := rfl

@[simp] theorem nextAvailableIdx_setNode :
    (b.setNode i n).nextAvailableIdx = b.nextAvailableIdx := rfl

/-! ### Masks -/

theorem mask_setMask : (b.setMask side m).mask s = if s = side then m else b.mask s := by
  cases side <;> cases s <;> rfl

@[simp] theorem nodePool_setMask : (b.setMask side m).nodePool = b.nodePool := by
  cases side <;> rfl

@[simp] theorem levels_setMask : (b.setMask side m).levels = b.levels := by
  cases side <;> rfl

@[simp] theorem minAsk_setMask : (b.setMask side m).minAsk = b.minAsk := by
  cases side <;> rfl

@[simp] theorem maxBid_setMask : (b.setMask side m).maxBid = b.maxBid := by
  cases side <;> rfl

@[simp] theorem freeStack_setMask : (b.setMask side m).freeStack = b.freeStack := by
  cases side <;> rfl

@[simp] theorem freeTop_setMask : (b.setMask side m).freeTop = b.freeTop := by
  cases side <;> rfl

@[simp] theorem nextAvailableIdx_setMask :
    (b.setMask side m).nextAvailableIdx = b.nextAvailableIdx := by
  cases side <;> rfl

/-! ### Occupancy -/

/-- The fields an update of the masks and best prices does not write. -/
theorem updateOccupancy_frame :
    (b.updateOccupancy side price active).nodePool = b.nodePool ∧
    (b.updateOccupancy side price active).levels = b.levels ∧
    (b.updateOccupancy side price active).freeStack = b.freeStack ∧
    (b.updateOccupancy side price active).freeTop = b.freeTop ∧
    (b.updateOccupancy side price active).nextAvailableIdx = b.nextAvailableIdx := by
  cases active with
  | true => cases side <;> exact ⟨rfl, rfl, rfl, rfl, rfl⟩
  | false =>
    simp only [updateOccupancy, Bool.false_eq_true, if_false, findNewMaxBid, findNewMinAsk]
    split
    · split
      · simp
      · split <;> simp
    · split
      · exact ⟨rfl, rfl, rfl, rfl, rfl⟩
      · split <;> exact ⟨rfl, rfl, rfl, rfl, rfl⟩

@[simp] theorem nodePool_updateOccupancy :
    (b.updateOccupancy side price active).nodePool = b.nodePool :=
  (b.updateOccupancy_frame side price active).1

@[simp] theorem level_updateOccupancy :
    (b.updateOccupancy side price active).level s p = b.level s p := by
  exact level_congr s p (b.updateOccupancy_frame side price active).2.1

@[simp] theorem freeStack_updateOccupancy :
    (b.updateOccupancy side price active).freeStack = b.freeStack :=
  (b.updateOccupancy_frame side price active).2.2.1

@[simp] theorem freeTop_updateOccupancy :
    (b.updateOccupancy side price active).freeTop = b.freeTop :=
  (b.updateOccupancy_frame side price active).2.2.2.1

@[simp] theorem nextAvailableIdx_updateOccupancy :
    (b.updateOccupancy side price active).nextAvailableIdx = b.nextAvailableIdx :=
  (b.updateOccupancy_frame side price active).2.2.2.2

/-! ### Recycling -/

@[simp] theorem nodePool_releaseId : (b.releaseId id).nodePool = b.nodePool := rfl

@[simp] theorem level_releaseId : (b.releaseId id).level s p = b.level s p := by
  cases s <;> rfl

@[simp] theorem mask_releaseId : (b.releaseId id).mask s = b.mask s := by
  cases s <;> rfl

@[simp] theorem minAsk_releaseId : (b.releaseId id).minAsk = b.minAsk := rfl

@[simp] theorem maxBid_releaseId : (b.releaseId id).maxBid = b.maxBid := rfl

/-- Acquiring a node touches the free stack and the fresh index only. -/
theorem acquireId_frame :
    b.acquireId.2.nodePool = b.nodePool ∧ b.acquireId.2.levels = b.levels ∧
    b.acquireId.2.mask s = b.mask s ∧ b.acquireId.2.minAsk = b.minAsk ∧
    b.acquireId.2.maxBid = b.maxBid := by
  rw [acquireId]
  split
  · cases s <;> exact ⟨rfl, rfl, rfl, rfl, rfl⟩
  · split <;> cases s <;> exact ⟨rfl, rfl, rfl, rfl, rfl⟩

end PriceLevelOrderBook
