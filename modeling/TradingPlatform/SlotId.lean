/-
Versioned slot handles (`common/src/id/slot_id.hpp`).

A `SlotId` packs the index of an array slot and a generation number into one
32-bit word.  The index takes `indexBits` bits, computed from the capacity of
the array, and the generation takes the rest.

* `index_make`, `gen_make` — what is packed is what is read back;
* `index_nextGen`, `isValid_nextGen` — recycling keeps the index and never
  produces the generation `0`, which marks the invalid handle;
* `ext_index_gen` — index and generation determine the handle.
-/
import Mathlib.Data.Nat.Bitwise
import Mathlib.Tactic.Ring

/-- `utils::bitWidth`: the number of bits needed for the values below `x`. -/
def bitWidth (x : ℕ) : ℕ := if x = 0 then 0 else 32 - (BitVec.ofNat 32 (x - 1)).clz.toNat

/-- The capacities `SlotId` and `SlotIdPool` can be instantiated with. -/
structure Capacity where
  val : ℕ
  two_le : 2 ≤ val
  le_two_pow : val ≤ 2 ^ 31

/-- `SlotId<MaxCapacity>`. -/
structure SlotId (c : Capacity) where
  value : UInt32
deriving DecidableEq, Repr

namespace SlotId

variable {c : Capacity}

/-- A value-initialised handle `SlotId{}`. -/
instance : Inhabited (SlotId c) := ⟨⟨0⟩⟩

def indexBits (c : Capacity) : ℕ := bitWidth c.val

def genBits (c : Capacity) : ℕ := 32 - indexBits c

def indexMask (c : Capacity) : UInt32 := (1 <<< UInt32.ofNat (indexBits c)) - 1

def genMask (c : Capacity) : UInt32 := (1 <<< UInt32.ofNat (genBits c)) - 1

def make (index gen : UInt32) : SlotId c :=
  ⟨((gen &&& genMask c) <<< UInt32.ofNat (indexBits c)) ||| (index &&& indexMask c)⟩

def index (id : SlotId c) : ℕ := (id.value &&& indexMask c).toNat

def gen (id : SlotId c) : ℕ :=
  ((id.value >>> UInt32.ofNat (indexBits c)) &&& genMask c).toNat

def raw (id : SlotId c) : UInt32 := id.value

def isValid (id : SlotId c) : Bool := id.gen != 0

/-- `nextGen`, returning the advanced handle. -/
def nextGen (id : SlotId c) : SlotId c :=
  let g := (UInt32.ofNat id.gen + 1) &&& genMask c
  let g := if g = 0 then 1 else g
  ⟨(id.value &&& indexMask c) ||| (g <<< UInt32.ofNat (indexBits c))⟩

/-! ### Widths and masks -/

theorem indexBits_spec (c : Capacity) :
    1 ≤ indexBits c ∧ indexBits c ≤ 31 ∧ c.val ≤ 2 ^ indexBits c := by
  have h2 := c.two_le
  have h31 := c.le_two_pow
  have hx : (BitVec.ofNat 32 (c.val - 1)).toNat = c.val - 1 := by
    rw [BitVec.toNat_ofNat]
    exact Nat.mod_eq_of_lt (by omega)
  have hne : BitVec.ofNat 32 (c.val - 1) ≠ 0#32 := by
    intro h0
    rw [h0] at hx
    simp at hx
    omega
  have hbits : indexBits c = 32 - (BitVec.ofNat 32 (c.val - 1)).clz.toNat := by
    rw [indexBits, bitWidth, if_neg (by omega)]
  -- the width of `c - 1` is the position of its leading bit
  have hlow := BitVec.two_pow_sub_clz_le_toNat_of_ne_zero (by decide) hne
  have hup : (BitVec.ofNat 32 (c.val - 1)).toNat < _ := BitVec.toNat_lt_two_pow_sub_clz
  rw [hx] at hlow hup
  rw [← hbits] at hup
  refine ⟨?_, ?_, by omega⟩
  · by_contra h0
    rw [show indexBits c = 0 by omega] at hup
    omega
  · by_contra h31'
    have hz : (BitVec.ofNat 32 (c.val - 1)).clz.toNat = 0 := by omega
    rw [hz] at hlow
    omega

theorem indexBits_add_genBits (c : Capacity) : indexBits c + genBits c = 32 := by
  have := (indexBits_spec c).2.1
  rw [genBits]
  omega

theorem toNat_shift {b : ℕ} (hb : b < 32) : (UInt32.ofNat b).toNat % 32 = b := by
  rw [UInt32.toNat_ofNat']
  omega

theorem toNat_mask {b : ℕ} (hb : b < 32) :
    ((1 <<< UInt32.ofNat b) - 1 : UInt32).toNat = 2 ^ b - 1 := by
  have hpow : 2 ^ b < 2 ^ 32 := Nat.pow_lt_pow_right Nat.one_lt_two hb
  have h1 : ((1 : UInt32) <<< UInt32.ofNat b).toNat = 2 ^ b := by
    rw [UInt32.toNat_shiftLeft, toNat_shift hb, UInt32.toNat_one, Nat.shiftLeft_eq, Nat.one_mul]
    exact Nat.mod_eq_of_lt hpow
  have hle : (1 : UInt32) ≤ (1 : UInt32) <<< UInt32.ofNat b := by
    rw [UInt32.le_iff_toNat_le, h1, UInt32.toNat_one]
    exact Nat.one_le_two_pow
  rw [UInt32.toNat_sub_of_le _ _ hle, h1, UInt32.toNat_one]

theorem toNat_and_mask (x : UInt32) {b : ℕ} (hb : b < 32) :
    (x &&& ((1 <<< UInt32.ofNat b) - 1)).toNat = x.toNat % 2 ^ b := by
  rw [UInt32.toNat_and, toNat_mask hb, Nat.and_two_pow_sub_one_eq_mod]

theorem genBits_bounds (c : Capacity) : 1 ≤ genBits c ∧ genBits c ≤ 31 := by
  obtain ⟨h1, h2, _⟩ := indexBits_spec c
  have := indexBits_add_genBits c
  omega

theorem one_lt_two_pow_genBits (c : Capacity) : 1 < 2 ^ genBits c := by
  have hb := genBits_bounds c
  exact Nat.one_lt_two_pow (by omega)

/-! ### Reading a handle -/

theorem index_eq (id : SlotId c) : id.index = id.value.toNat % 2 ^ indexBits c := by
  rw [index, indexMask, toNat_and_mask _ (by have := (indexBits_spec c).2.1; omega)]

theorem gen_eq (id : SlotId c) : id.gen = id.value.toNat / 2 ^ indexBits c := by
  have hi := (indexBits_spec c).2.1
  have hg := genBits_bounds c
  have hlt : id.value.toNat / 2 ^ indexBits c < 2 ^ genBits c := by
    rw [Nat.div_lt_iff_lt_mul (Nat.two_pow_pos _), ← Nat.pow_add, Nat.add_comm,
      indexBits_add_genBits]
    exact id.value.toNat_lt
  rw [gen, genMask, toNat_and_mask _ (by omega), UInt32.toNat_shiftRight,
    toNat_shift (by omega), Nat.shiftRight_eq_div_pow, Nat.mod_eq_of_lt hlt]

theorem index_lt (id : SlotId c) : id.index < 2 ^ indexBits c := by
  rw [index_eq]
  exact Nat.mod_lt _ (Nat.two_pow_pos _)

theorem gen_lt (id : SlotId c) : id.gen < 2 ^ genBits c := by
  rw [gen_eq, Nat.div_lt_iff_lt_mul (Nat.two_pow_pos _), ← Nat.pow_add, Nat.add_comm,
    indexBits_add_genBits]
  exact id.value.toNat_lt

/-- Index and generation determine the handle. -/
theorem ext_index_gen {a b : SlotId c} (hi : a.index = b.index) (hg : a.gen = b.gen) : a = b := by
  rw [index_eq, index_eq] at hi
  rw [gen_eq, gen_eq] at hg
  have hv : a.value.toNat = b.value.toNat := by
    rw [← Nat.div_add_mod a.value.toNat (2 ^ indexBits c),
      ← Nat.div_add_mod b.value.toNat (2 ^ indexBits c), hi, hg]
  cases a
  cases b
  exact congrArg SlotId.mk (UInt32.toNat_inj.mp hv)

theorem raw_inj {a b : SlotId c} : a.raw = b.raw ↔ a = b := by
  cases a
  cases b
  simp [raw]

@[simp] theorem isValid_default : (default : SlotId c).isValid = false := by
  have h0 : (default : SlotId c).gen = 0 := by
    rw [gen_eq]
    exact Nat.zero_div _
  rw [isValid, h0]
  rfl

/-! ### Packing -/

/-- The word with generation `g` above index `i`. -/
theorem toNat_pack {g i : UInt32} (hi : i.toNat < 2 ^ indexBits c) (hg : g.toNat < 2 ^ genBits c) :
    ((g <<< UInt32.ofNat (indexBits c)) ||| i).toNat = g.toNat * 2 ^ indexBits c + i.toNat := by
  have hb := (indexBits_spec c).2.1
  have hlt : g.toNat * 2 ^ indexBits c < 2 ^ 32 := by
    calc g.toNat * 2 ^ indexBits c
        < 2 ^ genBits c * 2 ^ indexBits c := Nat.mul_lt_mul_of_pos_right hg (Nat.two_pow_pos _)
      _ = 2 ^ 32 := by rw [← Nat.pow_add, Nat.add_comm, indexBits_add_genBits]
  rw [UInt32.toNat_or, UInt32.toNat_shiftLeft, toNat_shift (by omega), Nat.shiftLeft_eq,
    Nat.mod_eq_of_lt hlt, ← Nat.shiftLeft_eq, ← Nat.shiftLeft_add_eq_or_of_lt hi]

theorem index_of_pack {v : UInt32} {g i : ℕ} (hv : v.toNat = g * 2 ^ indexBits c + i)
    (hi : i < 2 ^ indexBits c) : (⟨v⟩ : SlotId c).index = i := by
  rw [index_eq]
  show v.toNat % _ = i
  rw [hv, Nat.mul_comm, Nat.mul_add_mod, Nat.mod_eq_of_lt hi]

theorem gen_of_pack {v : UInt32} {g i : ℕ} (hv : v.toNat = g * 2 ^ indexBits c + i)
    (hi : i < 2 ^ indexBits c) : (⟨v⟩ : SlotId c).gen = g := by
  rw [gen_eq]
  show v.toNat / _ = g
  rw [hv, Nat.mul_comm, Nat.mul_add_div (Nat.two_pow_pos _), Nat.div_eq_of_lt hi, Nat.add_zero]

theorem toNat_make {i g : UInt32} (hi : i.toNat < 2 ^ indexBits c)
    (hg : g.toNat < 2 ^ genBits c) :
    (make i g : SlotId c).value.toNat = g.toNat * 2 ^ indexBits c + i.toNat := by
  have hb := (indexBits_spec c).2.1
  have hgb := genBits_bounds c
  have hi' : (i &&& indexMask c).toNat = i.toNat := by
    rw [indexMask, toNat_and_mask _ (by omega), Nat.mod_eq_of_lt hi]
  have hg' : (g &&& genMask c).toNat = g.toNat := by
    rw [genMask, toNat_and_mask _ (by omega), Nat.mod_eq_of_lt hg]
  show ((g &&& genMask c) <<< _ ||| (i &&& indexMask c)).toNat = _
  rw [toNat_pack (by rw [hi']; exact hi) (by rw [hg']; exact hg), hi', hg']

theorem index_make {i g : UInt32} (hi : i.toNat < 2 ^ indexBits c)
    (hg : g.toNat < 2 ^ genBits c) : (make i g : SlotId c).index = i.toNat :=
  index_of_pack (toNat_make hi hg) hi

theorem gen_make {i g : UInt32} (hi : i.toNat < 2 ^ indexBits c)
    (hg : g.toNat < 2 ^ genBits c) : (make i g : SlotId c).gen = g.toNat :=
  gen_of_pack (toNat_make hi hg) hi

/-! ### Recycling -/

/-- The generation that follows `g`: one more, skipping `0` at the wrap. -/
def succGen (c : Capacity) (g : ℕ) : ℕ := if g + 1 = 2 ^ genBits c then 1 else g + 1

theorem toNat_nextGen (id : SlotId c) :
    id.nextGen.value.toNat = succGen c id.gen * 2 ^ indexBits c + id.index := by
  have hgb := genBits_bounds c
  have hlt := id.gen_lt
  have hpow : 2 ^ genBits c ≤ 2 ^ 31 := Nat.pow_le_pow_right Nat.two_pos hgb.2
  have hone := one_lt_two_pow_genBits c
  have hg : (UInt32.ofNat id.gen + 1 &&& genMask c).toNat = (id.gen + 1) % 2 ^ genBits c := by
    rw [genMask, toNat_and_mask _ (by omega), UInt32.toNat_add, UInt32.toNat_ofNat',
      UInt32.toNat_one]
    congr 1
    omega
  have hsel : (if UInt32.ofNat id.gen + 1 &&& genMask c = 0 then 1
      else UInt32.ofNat id.gen + 1 &&& genMask c).toNat = succGen c id.gen := by
    rw [succGen]
    by_cases hw : id.gen + 1 = 2 ^ genBits c
    · -- the wrap: the masked generation is 0, and 1 is taken instead
      have h0 : UInt32.ofNat id.gen + 1 &&& genMask c = 0 := by
        rw [← UInt32.toNat_inj, hg, hw, Nat.mod_self, UInt32.toNat_zero]
      rw [if_pos h0, if_pos hw, UInt32.toNat_one]
    · have hmod : (id.gen + 1) % 2 ^ genBits c = id.gen + 1 := Nat.mod_eq_of_lt (by omega)
      have h0 : UInt32.ofNat id.gen + 1 &&& genMask c ≠ 0 := by
        intro h
        rw [← UInt32.toNat_inj, hg, hmod, UInt32.toNat_zero] at h
        omega
      rw [if_neg h0, if_neg hw, hg, hmod]
  have hidx : (id.value &&& indexMask c).toNat = id.index := rfl
  show ((id.value &&& indexMask c) ||| _ <<< _).toNat = _
  rw [UInt32.or_comm, toNat_pack (by rw [hidx]; exact id.index_lt), hsel, hidx]
  rw [hsel, succGen]
  split <;> omega

@[simp] theorem index_nextGen (id : SlotId c) : id.nextGen.index = id.index :=
  index_of_pack id.toNat_nextGen id.index_lt

theorem gen_nextGen (id : SlotId c) : id.nextGen.gen = succGen c id.gen :=
  gen_of_pack id.toNat_nextGen id.index_lt

@[simp] theorem isValid_nextGen (id : SlotId c) : id.nextGen.isValid = true := by
  have h0 : id.nextGen.gen ≠ 0 := by
    rw [gen_nextGen, succGen]
    split <;> omega
  simpa [isValid] using h0

/-- The first generation of an index that fits. -/
theorem make_one_fits {i : ℕ} (hi : i < 2 ^ indexBits c) :
    (UInt32.ofNat i).toNat = i ∧ (UInt32.ofNat i).toNat < 2 ^ indexBits c ∧
      (1 : UInt32).toNat < 2 ^ genBits c := by
  have hb := (indexBits_spec c).2.1
  have hpow : 2 ^ indexBits c ≤ 2 ^ 31 := Nat.pow_le_pow_right Nat.two_pos hb
  have hnat : (UInt32.ofNat i).toNat = i := by
    rw [UInt32.toNat_ofNat']
    omega
  refine ⟨hnat, ?_, ?_⟩
  · rw [hnat]
    exact hi
  · rw [UInt32.toNat_one]
    exact one_lt_two_pow_genBits c

theorem index_make_one {i : ℕ} (hi : i < 2 ^ indexBits c) :
    (make (UInt32.ofNat i) 1 : SlotId c).index = i := by
  obtain ⟨hnat, hlt, hone⟩ := make_one_fits hi
  rw [index_make hlt hone, hnat]

theorem gen_make_one {i : ℕ} (hi : i < 2 ^ indexBits c) :
    (make (UInt32.ofNat i) 1 : SlotId c).gen = 1 := by
  obtain ⟨_, hlt, hone⟩ := make_one_fits hi
  rw [gen_make hlt hone, UInt32.toNat_one]

theorem isValid_make_one {i : ℕ} (hi : i < 2 ^ indexBits c) :
    (make (UInt32.ofNat i) 1 : SlotId c).isValid = true := by
  rw [isValid, gen_make_one hi]
  rfl

end SlotId
