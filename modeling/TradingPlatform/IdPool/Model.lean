/-
The pool of system order ids (`common/src/id/slot_id_pool.hpp`).

Ids are handed out from a local stack, which is refilled from a ring of
released ids or, when the ring is empty, from indices never used before.
Arrays are functions of their index.  Positions in the ring are masked as in
the source; the arithmetic on `nextFreshIdx_` stays far below 32 bits.

`generateFresh` is the loop that generates fresh ids, in closed form, since one
call of `refill` may run it thousands of times; `generateFresh_loop` is its
equation.
-/
import TradingPlatform.SlotId
import TradingPlatform.Lib.Ring

/-- `SlotIdPool<MaxCapacity>`. -/
structure SlotIdPool (c : Capacity) where
  head : ℕ
  tail : ℕ
  sharedQueue : ℕ → SlotId c
  localStack : ℕ → SlotId c
  localTop : ℕ
  nextFreshIdx : ℕ

namespace SlotIdPool

variable {c : Capacity}

/-- `MASK = IdType::maxIndex()`. -/
def mask (c : Capacity) : ℕ := (SlotId.indexMask c).toNat

/-- `CAPACITY = MASK + 1`. -/
def capacity (c : Capacity) : ℕ := mask c + 1

def localCacheSize : ℕ := 65536

def freshChunkSize : ℕ := 16384

/-- The constructor. -/
def fresh (c : Capacity) : SlotIdPool c := ⟨0, 0, fun _ => default, fun _ => default, 0, 1⟩

/-- `localStack_[localTop_++] = id`. -/
def push (p : SlotIdPool c) (id : SlotId c) : SlotIdPool c :=
  { p with localStack := Function.update p.localStack p.localTop id, localTop := p.localTop + 1 }

/-- `localStack_[--localTop_]`. -/
def pop (p : SlotIdPool c) : SlotId c × SlotIdPool c :=
  (p.localStack (p.localTop - 1), { p with localTop := p.localTop - 1 })

/-- The loop of `refill` over the ring from `h` to `t`; `n` bounds the number
of iterations.  Returns the cursor at its end. -/
def copyShared (t : ℕ) : ℕ → SlotIdPool c → ℕ → SlotIdPool c × ℕ
  | 0, p, h => (p, h)
  | n + 1, p, h =>
    if h ≠ t ∧ p.localTop < localCacheSize then
      copyShared t n (p.push (p.sharedQueue h)) ((h + 1) &&& mask c)
    else (p, h)

/-- `n` iterations of the loop of `refill` that generates fresh ids, in closed
form. -/
def pushFresh (n : ℕ) (p : SlotIdPool c) : SlotIdPool c where
  head := p.head
  tail := p.tail
  sharedQueue := p.sharedQueue
  localStack := fun k =>
    if p.localTop ≤ k ∧ k < p.localTop + n then
      SlotId.make (UInt32.ofNat (p.nextFreshIdx + (k - p.localTop))) 1
    else p.localStack k
  localTop := p.localTop + n
  nextFreshIdx := p.nextFreshIdx + n

/-- The loop itself: it runs while `nextFreshIdx_ < limit` and `localTop_ <
LOCAL_CACHE_SIZE`. -/
def generateFresh (limit : ℕ) (p : SlotIdPool c) : SlotIdPool c :=
  p.pushFresh (min (limit - p.nextFreshIdx) (localCacheSize - p.localTop))

/-- What `refill` does after it has stored the new head. -/
def finishRefill (p : SlotIdPool c) : SlotId c × SlotIdPool c :=
  let p :=
    if p.localTop = 0 then
      p.generateFresh (min (p.nextFreshIdx + freshChunkSize) (capacity c))
    else p
  if 0 < p.localTop then p.pop else (default, p)

def refill (p : SlotIdPool c) : SlotId c × SlotIdPool c :=
  let r := copyShared p.tail (capacity c) p p.head
  { r.1 with head := r.2 }.finishRefill

def acquire (p : SlotIdPool c) : SlotId c × SlotIdPool c :=
  if 0 < p.localTop then p.pop else p.refill

def release (p : SlotIdPool c) (id : SlotId c) : SlotIdPool c :=
  { p with
    sharedQueue := Function.update p.sharedQueue p.tail id.nextGen
    tail := (p.tail + 1) &&& mask c }

theorem capacity_eq (c : Capacity) : capacity c = 2 ^ SlotId.indexBits c := by
  have hb := (SlotId.indexBits_spec c).2.1
  have hpos := Nat.two_pow_pos (SlotId.indexBits c)
  rw [capacity, mask, SlotId.indexMask, SlotId.toNat_mask (by omega)]
  omega

theorem capacity_pos (c : Capacity) : 0 < capacity c := Nat.succ_pos _

theorem and_mask (x : ℕ) : x &&& mask c = x % capacity c := by
  have hmask : mask c = 2 ^ SlotId.indexBits c - 1 := by
    have := capacity_eq c
    rw [capacity] at this
    omega
  rw [hmask, Nat.and_two_pow_sub_one_eq_mod, capacity_eq]

theorem pushFresh_zero (p : SlotIdPool c) : p.pushFresh 0 = p := by
  obtain ⟨h, t, sq, ls, lt, nf⟩ := p
  have hstack : (fun k => if lt ≤ k ∧ k < lt + 0 then
      SlotId.make (UInt32.ofNat (nf + (k - lt))) 1 else ls k) = ls := by
    funext k
    rw [if_neg (by omega)]
  exact congrArg (fun ls => (⟨h, t, sq, ls, lt, nf⟩ : SlotIdPool c)) hstack

/-- One iteration: `localStack_[localTop_++] = make(nextFreshIdx_++, 1)`. -/
theorem pushFresh_succ (n : ℕ) (p : SlotIdPool c) :
    p.pushFresh (n + 1) =
      { p.push (SlotId.make (UInt32.ofNat p.nextFreshIdx) 1) with
        nextFreshIdx := p.nextFreshIdx + 1 }.pushFresh n := by
  obtain ⟨h, t, sq, ls, lt, nf⟩ := p
  have hstack : (fun k => if lt ≤ k ∧ k < lt + (n + 1) then
        (SlotId.make (UInt32.ofNat (nf + (k - lt))) 1 : SlotId c) else ls k) =
      fun k => if lt + 1 ≤ k ∧ k < lt + 1 + n then
        SlotId.make (UInt32.ofNat (nf + 1 + (k - (lt + 1)))) 1
      else Function.update ls lt (SlotId.make (UInt32.ofNat nf) 1) k := by
    funext k
    by_cases hk : k = lt
    · rw [hk, if_pos (by omega), if_neg (by omega), Function.update_self, Nat.sub_self,
        Nat.add_zero]
    · rw [Function.update_of_ne hk]
      by_cases hin : lt ≤ k ∧ k < lt + (n + 1)
      · rw [if_pos hin, if_pos (by omega), show nf + 1 + (k - (lt + 1)) = nf + (k - lt) by omega]
      · rw [if_neg hin, if_neg (by omega)]
  show (⟨h, t, sq, _, lt + (n + 1), nf + (n + 1)⟩ : SlotIdPool c) =
    ⟨h, t, sq, _, lt + 1 + n, nf + 1 + n⟩
  rw [hstack, show lt + (n + 1) = lt + 1 + n by omega, show nf + (n + 1) = nf + 1 + n by omega]
  rfl

/-- The equation of the loop. -/
theorem generateFresh_loop (limit : ℕ) (p : SlotIdPool c) :
    p.generateFresh limit =
      if p.nextFreshIdx < limit ∧ p.localTop < localCacheSize then
        { p.push (SlotId.make (UInt32.ofNat p.nextFreshIdx) 1) with
          nextFreshIdx := p.nextFreshIdx + 1 }.generateFresh limit
      else p := by
  by_cases hgo : p.nextFreshIdx < limit ∧ p.localTop < localCacheSize
  · have hn : min (limit - p.nextFreshIdx) (localCacheSize - p.localTop) =
        min (limit - (p.nextFreshIdx + 1)) (localCacheSize - (p.localTop + 1)) + 1 := by omega
    rw [if_pos hgo, generateFresh, hn, pushFresh_succ]
    rfl
  · have hn : min (limit - p.nextFreshIdx) (localCacheSize - p.localTop) = 0 := by omega
    rw [if_neg hgo, generateFresh, hn, pushFresh_zero]

end SlotIdPool
