/-
Where the ids of the pool are.

`Inventory p C T held` says that the local stack, the ring between the
positions `C` and `T`, and the ids held by users are, without repetition, the
indices generated so far.  It speaks of positions that do not wrap, so that
the steps of the two parties are simple to follow: taking an id from the local
stack (`Inventory.pop`), copying one from the ring (`Inventory.copy`),
generating fresh ones (`Inventory.pushFresh`), writing a released id behind the
ring (`Inventory.write`) and publishing it (`Inventory.publish`).

`PoolInv` is the invariant between calls; `acquire` and `release` keep it.
-/
import TradingPlatform.IdPool.Model

namespace SlotIdPool

variable {c : Capacity}

/-- The local stack as a list, the top at its end. -/
def locals (p : SlotIdPool c) : List (SlotId c) := (List.range p.localTop).map p.localStack

/-- The ids in the pool and out of it. -/
def allIds (p : SlotIdPool c) (C T : ℕ) (held : List (SlotId c)) : List (SlotId c) :=
  p.locals ++ Ring.window p.sharedQueue (capacity c) C T ++ held

structure Inventory (p : SlotIdPool c) (C T : ℕ) (held : List (SlotId c)) : Prop where
  next_pos : 1 ≤ p.nextFreshIdx
  next_le : p.nextFreshIdx ≤ capacity c
  le : C ≤ T
  perm : ((p.allIds C T held).map SlotId.index).Perm (List.range' 1 (p.nextFreshIdx - 1))
  valid : ∀ id ∈ p.allIds C T held, id.isValid = true

/-! ### The local stack -/

theorem length_locals (p : SlotIdPool c) : p.locals.length = p.localTop := by
  rw [locals, List.length_map, List.length_range]

theorem locals_push (p : SlotIdPool c) (id : SlotId c) : (p.push id).locals = p.locals ++ [id] := by
  show (List.range (p.localTop + 1)).map (Function.update p.localStack p.localTop id) = _
  rw [List.range_succ, List.map_append, List.map_singleton, Function.update_self]
  congr 1
  refine List.map_congr_left fun k hk => Function.update_of_ne ?_ _ _
  have := List.mem_range.mp hk
  omega

theorem locals_pop {p : SlotIdPool c} (h : 0 < p.localTop) :
    p.locals = p.pop.2.locals ++ [p.pop.1] := by
  rw [locals, show p.localTop = p.localTop - 1 + 1 by omega, List.range_succ, List.map_append,
    List.map_singleton]
  rfl

theorem locals_pushFresh (p : SlotIdPool c) (n : ℕ) :
    (p.pushFresh n).locals = p.locals ++
      (List.range' p.nextFreshIdx n).map fun i => SlotId.make (UInt32.ofNat i) 1 := by
  induction n generalizing p with
  | zero => rw [pushFresh_zero, List.range'_zero, List.map_nil, List.append_nil]
  | succ n ih =>
    rw [pushFresh_succ, ih, List.range'_succ, List.map_cons]
    show (p.push _).locals ++ _ = _
    rw [locals_push, List.append_assoc]
    rfl

/-! ### All ids -/

theorem allIds_pop {p : SlotIdPool c} (h0 : 0 < p.localTop) (C T : ℕ) (held : List (SlotId c)) :
    (p.allIds C T held).Perm (p.pop.2.allIds C T (p.pop.1 :: held)) := by
  rw [allIds, allIds, locals_pop h0, List.append_assoc, List.append_assoc, List.append_assoc]
  refine List.Perm.append_left _ ?_
  rw [List.singleton_append]
  exact List.perm_middle.symm

/-- A copied entry changes its place between two lists that follow each other. -/
theorem allIds_copy (p : SlotIdPool c) {C T : ℕ} (hlt : C < T) (held : List (SlotId c)) :
    (p.push (p.sharedQueue (C % capacity c))).allIds (C + 1) T held = p.allIds C T held := by
  rw [allIds, allIds, locals_push, Ring.window_pop hlt, List.append_assoc p.locals,
    List.singleton_append]
  rfl

theorem allIds_pushFresh (p : SlotIdPool c) (n C T : ℕ) (held : List (SlotId c)) :
    ((p.pushFresh n).allIds C T held).Perm
      (p.allIds C T held ++ (List.range' p.nextFreshIdx n).map fun i =>
        SlotId.make (UInt32.ofNat i) 1) := by
  rw [allIds, allIds, locals_pushFresh, List.append_assoc, List.append_assoc,
    List.append_assoc p.locals, List.append_assoc p.locals]
  exact List.Perm.append_left _ List.perm_append_comm

/-- The cell behind the ring is not part of it. -/
theorem allIds_write (p : SlotIdPool c) {C T : ℕ} (hroom : T < C + capacity c) (x : SlotId c)
    (held : List (SlotId c)) :
    allIds { p with sharedQueue := Function.update p.sharedQueue (T % capacity c) x } C T held =
      p.allIds C T held := by
  rw [allIds, allIds]
  show p.locals ++ Ring.window (Function.update p.sharedQueue _ x) _ C T ++ held = _
  rw [Ring.window_update hroom]

/-- A held id and the one that is published for it take each other's place. -/
theorem allIds_publish (p : SlotIdPool c) {C T : ℕ} (hle : C ≤ T) {held : List (SlotId c)}
    {id : SlotId c} (hid : id ∈ held) :
    (p.allIds C T held).Perm
        (p.locals ++ Ring.window p.sharedQueue (capacity c) C T ++ id :: held.erase id) ∧
      p.allIds C (T + 1) (held.erase id) =
        p.locals ++ Ring.window p.sharedQueue (capacity c) C T ++
          p.sharedQueue (T % capacity c) :: held.erase id := by
  refine ⟨List.Perm.append_left _ (List.perm_cons_erase hid), ?_⟩
  rw [allIds, Ring.window_push hle]
  simp

/-- The end of a refill takes an id from the local stack, after generating fresh
ones if there is none, or fails because every index has been generated. -/
theorem finishRefill_cases {p : SlotIdPool c} (hnext : p.nextFreshIdx ≤ capacity c) :
    (∃ n, p.nextFreshIdx + n ≤ capacity c ∧ 0 < (p.pushFresh n).localTop ∧
      p.finishRefill = (p.pushFresh n).pop) ∨
    (p.finishRefill = (default, p) ∧ p.localTop = 0 ∧ p.nextFreshIdx = capacity c) := by
  by_cases h0 : p.localTop = 0
  · -- nothing was copied from the ring
    set n := min (min (p.nextFreshIdx + freshChunkSize) (capacity c) - p.nextFreshIdx)
      (localCacheSize - p.localTop) with hn
    have hchunk : freshChunkSize = 16384 := rfl
    have hcache : localCacheSize = 65536 := rfl
    have hgen : p.finishRefill =
        if 0 < (p.pushFresh n).localTop then (p.pushFresh n).pop else (default, p.pushFresh n) := by
      rw [SlotIdPool.finishRefill, if_pos h0]
      rfl
    have htop : (p.pushFresh n).localTop = n := by
      show p.localTop + n = n
      omega
    rw [hgen]
    by_cases hpos : 0 < n
    · left
      exact ⟨n, by omega, by omega, if_pos (by omega)⟩
    · right
      rw [if_neg (by omega), show n = 0 by omega, pushFresh_zero]
      exact ⟨rfl, h0, by omega⟩
  · left
    refine ⟨0, hnext, ?_, ?_⟩
    · rw [pushFresh_zero]
      exact Nat.pos_of_ne_zero h0
    · rw [pushFresh_zero]
      simp only [SlotIdPool.finishRefill, if_neg h0, if_pos (Nat.pos_of_ne_zero h0)]

namespace Inventory

variable {p : SlotIdPool c} {C T : ℕ} {held : List (SlotId c)}

theorem fresh (c : Capacity) : Inventory (fresh c) 0 0 [] where
  next_pos := le_rfl
  next_le := capacity_pos c
  le := le_rfl
  perm := by
    rw [allIds, Ring.window_self]
    exact List.Perm.refl _
  valid := by
    intro id hid
    rw [allIds, Ring.window_self] at hid
    exact absurd hid List.not_mem_nil

/-- The pool's own positions are not part of the inventory. -/
theorem move (h : Inventory p C T held) (head tail : ℕ) :
    Inventory { p with head := head, tail := tail } C T held :=
  ⟨h.next_pos, h.next_le, h.le, h.perm, h.valid⟩

theorem length (h : Inventory p C T held) :
    p.localTop + (T - C) + held.length = p.nextFreshIdx - 1 := by
  have hlen := h.perm.length_eq
  rw [allIds, List.length_map, List.length_append, List.length_append, length_locals,
    Ring.length_window, List.length_range'] at hlen
  exact hlen

/-- The ring always has a spare cell. -/
theorem room (h : Inventory p C T held) : T < C + capacity c := by
  have hlen := h.length
  have h1 := h.next_pos
  have h2 := h.next_le
  have h3 := h.le
  omega

theorem nodup (h : Inventory p C T held) : ((p.allIds C T held).map SlotId.index).Nodup :=
  h.perm.nodup_iff.mpr List.nodup_range'

theorem index_bounds (h : Inventory p C T held) {id : SlotId c} (hid : id ∈ p.allIds C T held) :
    1 ≤ id.index ∧ id.index < p.nextFreshIdx := by
  have hmem := h.perm.mem_iff.mp (List.mem_map_of_mem hid)
  rw [List.mem_range'_1] at hmem
  have := h.next_pos
  omega

/-- An id that left the local stack is held now, and was not held before. -/
theorem pop (h : Inventory p C T held) (h0 : 0 < p.localTop) :
    p.pop.1.isValid = true ∧ p.pop.1.index ≠ 0 ∧ p.pop.1.index ∉ held.map SlotId.index ∧
      Inventory p.pop.2 C T (p.pop.1 :: held) := by
  have hmem : p.pop.1 ∈ p.allIds C T held := by
    rw [allIds, locals_pop h0]
    simp
  have hperm := allIds_pop h0 C T held
  refine ⟨h.valid _ hmem, ?_, ?_, h.next_pos, h.next_le, h.le, ?_, ?_⟩
  · have := h.index_bounds hmem
    omega
  · -- the popped id and the held ones are different entries of one list without repetition
    intro hc
    have hnd := h.nodup
    rw [allIds, locals_pop h0, List.append_assoc, List.map_append, List.map_append] at hnd
    refine (List.nodup_append.mp hnd).2.2 p.pop.1.index ?_ p.pop.1.index ?_ rfl
    · exact List.mem_append_right _ (List.mem_singleton.mpr rfl)
    · rw [List.map_append]
      exact List.mem_append_right _ hc
  · exact (hperm.map _).symm.trans h.perm
  · intro id hid
    exact h.valid id (hperm.mem_iff.mpr hid)

/-- Copying the first entry of the ring to the local stack. -/
theorem copy (h : Inventory p C T held) (hlt : C < T) :
    Inventory (p.push (p.sharedQueue (C % capacity c))) (C + 1) T held := by
  have heq := p.allIds_copy hlt held
  refine ⟨h.next_pos, h.next_le, hlt, ?_, ?_⟩
  · rw [heq]
    exact h.perm
  · rw [heq]
    exact h.valid

/-- Generating `n` fresh ids. -/
theorem pushFresh (h : Inventory p C T held) {n : ℕ} (hn : p.nextFreshIdx + n ≤ capacity c) :
    Inventory (p.pushFresh n) C T held := by
  have h1 := h.next_pos
  have hfit : ∀ i ∈ List.range' p.nextFreshIdx n, i < 2 ^ SlotId.indexBits c := by
    intro i hi
    rw [List.mem_range'_1] at hi
    rw [← capacity_eq]
    omega
  have hindex : ((List.range' p.nextFreshIdx n).map fun i =>
      (SlotId.make (UInt32.ofNat i) 1 : SlotId c)).map SlotId.index =
      List.range' p.nextFreshIdx n := by
    rw [List.map_map]
    exact (List.map_congr_left fun i hi => SlotId.index_make_one (hfit i hi)).trans (List.map_id' _)
  have hperm := p.allIds_pushFresh n C T held
  refine ⟨?_, hn, h.le, ?_, ?_⟩
  · show 1 ≤ p.nextFreshIdx + n
    omega
  · -- the new indices continue the range of those handed out so far
    refine (hperm.map _).trans ?_
    rw [List.map_append, hindex]
    refine (h.perm.append_right _).trans (List.Perm.of_eq ?_)
    show _ = List.range' 1 (p.nextFreshIdx + n - 1)
    rw [show p.nextFreshIdx + n - 1 = p.nextFreshIdx - 1 + n by omega, ← List.range'_append_1,
      show 1 + (p.nextFreshIdx - 1) = p.nextFreshIdx by omega]
  · intro id hid
    rcases List.mem_append.mp (hperm.mem_iff.mp hid) with hid | hid
    · exact h.valid id hid
    · obtain ⟨i, hi, rfl⟩ := List.mem_map.mp hid
      exact SlotId.isValid_make_one (hfit i hi)

/-- Writing behind the ring does not disturb it. -/
theorem write (h : Inventory p C T held) (x : SlotId c) :
    Inventory { p with sharedQueue := Function.update p.sharedQueue (T % capacity c) x } C T
      held := by
  have heq := p.allIds_write h.room x held
  refine ⟨h.next_pos, h.next_le, h.le, ?_, ?_⟩
  · rw [heq]
    exact h.perm
  · rw [heq]
    exact h.valid

/-- A released id that has been written joins the ring. -/
theorem publish (h : Inventory p C T held) {id : SlotId c} (hid : id ∈ held)
    (hw : p.sharedQueue (T % capacity c) = id.nextGen) :
    Inventory p C (T + 1) (held.erase id) := by
  obtain ⟨hold, hnew⟩ := p.allIds_publish h.le hid
  rw [hw] at hnew
  -- only the generation differs, so the indices are those of before
  have hmap : (p.allIds C (T + 1) (held.erase id)).map SlotId.index =
      (p.locals ++ Ring.window p.sharedQueue (capacity c) C T ++ id :: held.erase id).map
        SlotId.index := by
    rw [hnew]
    simp
  refine ⟨h.next_pos, h.next_le, h.le.trans (Nat.le_succ T), ?_, ?_⟩
  · rw [hmap]
    exact (hold.map _).symm.trans h.perm
  · intro x hx
    rw [hnew, List.mem_append, List.mem_cons] at hx
    rcases hx with hx | rfl | hx
    · exact h.valid x (List.mem_append_left _ hx)
    · exact SlotId.isValid_nextGen id
    · exact h.valid x (List.mem_append_right _ (List.mem_of_mem_erase hx))

/-- The end of a refill: an id, unless every index has been generated and none
of them is left in the local stack. -/
theorem finishRefill (h : Inventory p C T held) :
    (p.finishRefill.1.isValid = true ∧ p.finishRefill.1.index ≠ 0 ∧
      p.finishRefill.1.index ∉ held.map SlotId.index ∧
      Inventory p.finishRefill.2 C T (p.finishRefill.1 :: held)) ∨
    (p.finishRefill = (default, p) ∧ p.localTop = 0 ∧ p.nextFreshIdx = capacity c) := by
  rcases finishRefill_cases h.next_le with ⟨n, hn, htop, heq⟩ | hfail
  · left
    rw [heq]
    exact (h.pushFresh hn).pop htop
  · exact .inr hfail

end Inventory

theorem finishRefill_frame (p : SlotIdPool c) :
    p.finishRefill.2.head = p.head ∧ p.finishRefill.2.tail = p.tail ∧
      p.finishRefill.2.sharedQueue = p.sharedQueue := by
  rw [finishRefill]
  split <;> split <;> exact ⟨rfl, rfl, rfl⟩

/-! ### Whole calls -/

/-- The loop over the ring stops at its end or with a full local stack. -/
theorem copyShared_spec {T : ℕ} {held : List (SlotId c)} :
    ∀ (n : ℕ) {p : SlotIdPool c} {C : ℕ}, Inventory p C T held → T - C ≤ n →
      ∃ C', (copyShared (T % capacity c) n p (C % capacity c)).2 = C' % capacity c ∧
        Inventory (copyShared (T % capacity c) n p (C % capacity c)).1 C' T held ∧
        (copyShared (T % capacity c) n p (C % capacity c)).1.tail = p.tail ∧
        ((copyShared (T % capacity c) n p (C % capacity c)).1.localTop = 0 → C' = T) := by
  -- on the number of entries left in the ring
  intro n
  induction n with
  | zero =>
    intro p C h hn
    have := h.le
    exact ⟨C, rfl, h, rfl, fun _ => by omega⟩
  | succ n ih =>
    intro p C h hn
    rw [copyShared]
    by_cases hgo : C % capacity c ≠ T % capacity c ∧ p.localTop < localCacheSize
    · rw [if_pos hgo, and_mask, Nat.mod_add_mod]
      have hlt : C < T := by
        refine lt_of_le_of_ne h.le ?_
        rintro rfl
        exact hgo.1 rfl
      exact ih (h.copy hlt) (by omega)
    · rw [if_neg hgo]
      refine ⟨C, rfl, h, rfl, fun h0 => ?_⟩
      have hroom : p.localTop < localCacheSize := by
        rw [show p.localTop = 0 from h0]
        decide
      have heq : C % capacity c = T % capacity c := by
        by_contra hne
        exact hgo ⟨hne, hroom⟩
      exact Ring.mod_inj h.le h.room heq

/-- The invariant of the pool between calls, with the ids held by users. -/
def PoolInv (p : SlotIdPool c) (held : List (SlotId c)) : Prop :=
  ∃ H T, p.head = H % capacity c ∧ p.tail = T % capacity c ∧ Inventory p H T held

namespace PoolInv

variable {p : SlotIdPool c} {held : List (SlotId c)}

theorem fresh (c : Capacity) : PoolInv (fresh c) [] :=
  ⟨0, 0, (Nat.zero_mod _).symm, (Nat.zero_mod _).symm, Inventory.fresh c⟩

/-- **`acquire`** hands out an id that is not held, or an invalid id when every
index is held. -/
theorem acquire (h : PoolInv p held) :
    (p.acquire.1.isValid = true ∧ p.acquire.1.index ≠ 0 ∧
      p.acquire.1.index ∉ held.map SlotId.index ∧
      PoolInv p.acquire.2 (p.acquire.1 :: held)) ∨
    (p.acquire.1 = default ∧ PoolInv p.acquire.2 held ∧
      (held.map SlotId.index).Perm (List.range' 1 (capacity c - 1))) := by
  obtain ⟨H, T, hH, hT, hinv⟩ := h
  rw [SlotIdPool.acquire]
  by_cases h0 : 0 < p.localTop
  · rw [if_pos h0]
    obtain ⟨h1, h2, h3, h4⟩ := hinv.pop h0
    exact .inl ⟨h1, h2, h3, H, T, hH, hT, h4⟩
  · rw [if_neg h0]
    have hlen : T - H ≤ capacity c := by
      have := hinv.room
      omega
    obtain ⟨C, hC, hcopy, htail, hend⟩ := copyShared_spec (capacity c) hinv hlen
    rw [← hT, ← hH] at hC hcopy htail hend
    set r := copyShared p.tail (capacity c) p p.head with hr
    have hstored : Inventory { r.1 with head := r.2 } C T held := hcopy.move r.2 r.1.tail
    have hrefill : p.refill = { r.1 with head := r.2 }.finishRefill := rfl
    obtain ⟨hhead, htail', _⟩ := finishRefill_frame { r.1 with head := r.2 }
    rw [hrefill]
    rcases hstored.finishRefill with ⟨h1, h2, h3, h4⟩ | ⟨heq, hz, hfull⟩
    · exact .inl ⟨h1, h2, h3, C, T, hhead.trans hC, htail'.trans (htail.trans hT), h4⟩
    · -- neither a local nor a shared id is left, so every index is held
      right
      have hCT : C = T := hend hz
      have hnil : r.1.locals = [] := by
        rw [locals, show r.1.localTop = 0 from hz]
        rfl
      have hperm := hcopy.perm
      have hnext : r.1.nextFreshIdx = capacity c := hfull
      rw [allIds, hnil, hCT, Ring.window_self, List.nil_append, List.nil_append, hnext] at hperm
      rw [heq]
      exact ⟨rfl, ⟨C, T, hC, htail.trans hT, hstored⟩, hperm⟩

/-- **`release`** of a held id puts it back. -/
theorem release (h : PoolInv p held) {id : SlotId c} (hid : id ∈ held) :
    PoolInv (p.release id) (held.erase id) := by
  obtain ⟨H, T, hH, hT, hinv⟩ := h
  refine ⟨H, T + 1, hH, ?_, ?_⟩
  · show (p.tail + 1) &&& mask c = _
    rw [and_mask, hT, Nat.mod_add_mod]
  · have hw := (hinv.write id.nextGen).publish hid (Function.update_self _ _ _)
    rw [← hT] at hw
    exact hw.move p.head ((p.tail + 1) &&& mask c)

end PoolInv

end SlotIdPool
