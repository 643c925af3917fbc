/-
Items that parties hand to each other.

Every item has a key, and only one item at a time has it: whoever has the item
may change what is stored under the key.  What an item promises then survives
everything that is done to other items.

* `Custody.add` — a new item under a key that no other item has;
* `Custody.drop` — an item leaves, whatever happens under its key;
* `Custody.move` — an item turns into another one under the same key;
* `Placed.move`, `Placed.enter` — items that are at one place each, where a place may
  hold any number of them.
-/
import Mathlib.Data.Multiset.UnionInter

variable {τ κ : Type*} {key : τ → κ} {Ok Ok' : τ → Prop} {items rest : Multiset τ} {t t' : τ}

/-- The items have different keys, and each keeps what it promises. -/
structure Custody (key : τ → κ) (Ok : τ → Prop) (items : Multiset τ) : Prop where
  nodup : (items.map key).Nodup
  ok : ∀ t ∈ items, Ok t

namespace Custody

theorem zero : Custody key Ok 0 where
  nodup := Multiset.nodup_zero
  ok t ht := absurd ht (Multiset.notMem_zero t)

/-- What holds of an item only grows. -/
theorem mono (h : Custody key Ok items) (hmono : ∀ u ∈ items, Ok u → Ok' u) :
    Custody key Ok' items :=
  ⟨h.nodup, fun u hu => hmono u hu (h.ok u hu)⟩

theorem notMem_rest (h : Custody key Ok (t ::ₘ rest)) : key t ∉ rest.map key := by
  have hnodup := h.nodup
  rw [Multiset.map_cons, Multiset.nodup_cons] at hnodup
  exact hnodup.1

/-- The other items have other keys. -/
theorem key_ne (h : Custody key Ok (t ::ₘ rest)) {u : τ} (hu : u ∈ rest) : key u ≠ key t := by
  intro heq
  apply h.notMem_rest
  rw [← heq]
  exact Multiset.mem_map_of_mem key hu

theorem head (h : Custody key Ok (t ::ₘ rest)) : Ok t := h.ok t (Multiset.mem_cons_self t rest)

theorem add (h : Custody key Ok items) (hkey : key t ∉ items.map key) (ht : Ok t) :
    Custody key Ok (t ::ₘ items) where
  nodup := by
    rw [Multiset.map_cons, Multiset.nodup_cons]
    exact ⟨hkey, h.nodup⟩
  ok u hu := by
    rcases Multiset.mem_cons.1 hu with rfl | hu
    · exact ht
    · exact h.ok u hu

theorem drop (h : Custody key Ok (t ::ₘ rest)) (hframe : ∀ u, key u ≠ key t → Ok u → Ok' u) :
    Custody key Ok' rest where
  nodup := by
    have hnodup := h.nodup
    rw [Multiset.map_cons, Multiset.nodup_cons] at hnodup
    exact hnodup.2
  ok u hu := hframe u (h.key_ne hu) (h.ok u (Multiset.mem_cons_of_mem hu))

theorem move (h : Custody key Ok (t ::ₘ rest)) (hkey : key t' = key t) (ht' : Ok' t')
    (hframe : ∀ u, key u ≠ key t → Ok u → Ok' u) : Custody key Ok' (t' ::ₘ rest) := by
  refine (h.drop hframe).add ?_ ht'
  rw [hkey]
  exact h.notMem_rest

end Custody

/-! ### Places -/

section Placed

variable {π : Type*} {At At' : π → κ → Prop} {Out : κ → Prop} {p q : π} {k : κ}

/-- Every item that is out is at one place, and no other item is at any. -/
structure Placed (At : π → κ → Prop) (Out : κ → Prop) : Prop where
  unique : ∀ {p q k}, At p k → At q k → p = q
  out : ∀ {p k}, At p k → Out k
  somewhere : ∀ {k}, Out k → ∃ p, At p k

namespace Placed

theorem existsUnique (h : Placed At Out) (hk : Out k) : ∃! p, At p k := by
  obtain ⟨p, hp⟩ := h.somewhere hk
  exact ⟨p, hp, fun q hq => h.unique hq hp⟩

/-- No item changes its place. -/
theorem same (h : Placed At Out) (hAt : ∀ p k, At' p k ↔ At p k) : Placed At' Out where
  unique hp hq := h.unique ((hAt _ _).1 hp) ((hAt _ _).1 hq)
  out hp := h.out ((hAt _ _).1 hp)
  somewhere hk := (h.somewhere hk).imp fun p hp => (hAt p _).2 hp

/-- An item goes from its place to another one. -/
theorem move (h : Placed At Out) (hk : At p k)
    (hAt : ∀ r u, At' r u ↔ r = q ∧ u = k ∨ At r u ∧ ¬ (r = p ∧ u = k)) : Placed At' Out where
  unique {r r' u} hr hr' := by
    rcases (hAt r u).1 hr with ⟨rfl, rfl⟩ | ⟨hr, hne⟩
    · rcases (hAt r' u).1 hr' with ⟨rfl, _⟩ | ⟨hr', hne⟩
      · rfl
      · exact absurd ⟨h.unique hr' hk, rfl⟩ hne
    · rcases (hAt r' u).1 hr' with ⟨_, rfl⟩ | ⟨hr', _⟩
      · exact absurd ⟨h.unique hr hk, rfl⟩ hne
      · exact h.unique hr hr'
  out {r u} hr := by
    rcases (hAt r u).1 hr with ⟨_, rfl⟩ | ⟨hr, _⟩
    · exact h.out hk
    · exact h.out hr
  somewhere {u} hu := by
    obtain ⟨r, hr⟩ := h.somewhere hu
    by_cases heq : r = p ∧ u = k
    · exact ⟨q, (hAt q u).2 (.inl ⟨rfl, heq.2⟩)⟩
    · exact ⟨r, (hAt r u).2 (.inr ⟨hr, heq⟩)⟩

/-- An item that was not out appears. -/
theorem enter {Out' : κ → Prop} (h : Placed At Out) (hk : ¬ Out k)
    (hOut : ∀ u, Out' u ↔ u = k ∨ Out u)
    (hAt : ∀ r u, At' r u ↔ r = q ∧ u = k ∨ At r u) : Placed At' Out' where
  unique {r r' u} hr hr' := by
    rcases (hAt r u).1 hr with ⟨rfl, rfl⟩ | hr
    · rcases (hAt r' u).1 hr' with ⟨rfl, _⟩ | hr'
      · rfl
      · exact absurd (h.out hr') hk
    · rcases (hAt r' u).1 hr' with ⟨_, rfl⟩ | hr'
      · exact absurd (h.out hr) hk
      · exact h.unique hr hr'
  out {r u} hr := by
    rcases (hAt r u).1 hr with ⟨_, hu⟩ | hr
    · exact (hOut u).2 (.inl hu)
    · exact (hOut u).2 (.inr (h.out hr))
  somewhere {u} hu := by
    rcases (hOut u).1 hu with hu | hu
    · exact ⟨q, (hAt q u).2 (.inl ⟨rfl, hu⟩)⟩
    · obtain ⟨r, hr⟩ := h.somewhere hu
      exact ⟨r, (hAt r u).2 (.inr hr)⟩

end Placed

end Placed
