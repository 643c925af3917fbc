/-
The allocator of book order ids, and how long its ids stay different.

`acquireId` and `releaseId` touch three members of the book that nothing else
touches, so their runs are described on their own: ids are acquired, and an id
that was acquired and not released since is released, with anything in between
that leaves the three members alone.

* `book_window` — the window of the book's ids;
* `aba_window` — the exact window of both allocators, for every capacity;
* `exhausted_pool` — an allocator with nothing left returns the invalid id, which
  has generation 0.
-/
import TradingPlatform.IdPool.Generations
import TradingPlatform.OrderBook.Model

namespace PriceLevelOrderBook

variable {K : Constants}

/-- A book, and the ids that were acquired and not released since. -/
structure IdUse (K : Constants) where
  book : PriceLevelOrderBook K
  held : List (BookOrderId K)

/-- Calls of `acquireId`, with the id it returns, and of `releaseId`, and what
the book does elsewhere. -/
inductive IdAction (K : Constants)
  | acquire (id : BookOrderId K)
  | release (id : BookOrderId K)
  | elsewhere

def IdAction.event : IdAction K → AllocEvent (BookOrderId K)
  | .acquire id => .acquired id
  | .release id => .released id
  | .elsewhere => .internal

/-- One call. -/
def IdUse.act (s : IdUse K) : IdAction K → Option (IdUse K)
  | .acquire id =>
    if s.book.acquireId.1 = id then
      some ⟨s.book.acquireId.2, if id.isValid then id :: s.held else s.held⟩
    else none
  | .release id =>
    if id ∈ s.held then some ⟨s.book.releaseId id, s.held.erase id⟩ else none
  | .elsewhere => none

/-- The members that the two calls use are the same. -/
def SameIds (b b' : PriceLevelOrderBook K) : Prop :=
  b'.freeStack = b.freeStack ∧ b'.freeTop = b.freeTop ∧ b'.nextAvailableIdx = b.nextAvailableIdx

def idMachine (K : Constants) : Machine (IdUse K) (IdAction K) where
  init s := s = ⟨fresh K, []⟩
  step s a s' := s.act a = some s' ∨ a = .elsewhere ∧ s'.held = s.held ∧ SameIds s.book s'.book

/-! ### The stock -/

/-- The ids on the free stack, the top at the end. -/
def freeIds (b : PriceLevelOrderBook K) : List (BookOrderId K) :=
  (List.range b.freeTop).map b.freeStack

theorem freeIds_pop {b : PriceLevelOrderBook K} (h : 0 < b.freeTop) :
    b.freeIds = freeIds { b with freeTop := b.freeTop - 1 } ++ [b.freeStack (b.freeTop - 1)] := by
  rw [freeIds, show b.freeTop = b.freeTop - 1 + 1 by omega, List.range_succ, List.map_append,
    List.map_singleton]
  rfl

theorem freeIds_releaseId (b : PriceLevelOrderBook K) (id : BookOrderId K) :
    (b.releaseId id).freeIds = b.freeIds ++ [id.nextGen] := by
  show (List.range (b.freeTop + 1)).map (Function.update b.freeStack b.freeTop id.nextGen) = _
  rw [List.range_succ, List.map_append, List.map_singleton, Function.update_self]
  congr 1
  refine List.map_congr_left fun k hk => Function.update_of_ne ?_ _ _
  have := List.mem_range.1 hk
  omega

theorem SameIds.freeIds {b b' : PriceLevelOrderBook K} (h : SameIds b b') :
    b'.freeIds = b.freeIds := by
  rw [PriceLevelOrderBook.freeIds, PriceLevelOrderBook.freeIds, h.1, h.2.1]

/-- The ids on the free stack and out of it, `R i` releases of each index `i`
after the start. -/
structure Kept (s : IdUse K) (R : ℕ → ℕ) : Prop where
  stock : Recycle.Stock SlotId.index SlotId.nextGen (SlotId.first K.maxBookOrders) R
    ↑(s.book.freeIds ++ s.held)
  next_pos : 1 ≤ s.book.nextAvailableIdx
  next_le : s.book.nextAvailableIdx ≤ K.maxBookOrders.val
  bounds : ∀ x ∈ s.book.freeIds ++ s.held, 1 ≤ x.index ∧ x.index < s.book.nextAvailableIdx

namespace Kept

variable {s s' : IdUse K} {R : ℕ → ℕ} {id : BookOrderId K}

theorem start (K : Constants) : Kept (⟨fresh K, []⟩ : IdUse K) fun _ => 0 where
  stock := Recycle.Stock.zero
  next_pos := le_rfl
  next_le := by
    have := K.maxBookOrders.two_le
    show 1 ≤ _
    omega
  bounds x hx := absurd hx List.not_mem_nil

theorem elsewhere (h : Kept s R) (hheld : s'.held = s.held) (hsame : SameIds s.book s'.book) :
    Kept s' R := by
  have hids := hsame.freeIds
  refine ⟨?_, ?_, ?_, ?_⟩
  · rw [hids, hheld]
    exact h.stock
  · rw [hsame.2.2]
    exact h.next_pos
  · rw [hsame.2.2]
    exact h.next_le
  · rw [hids, hheld, hsame.2.2]
    exact h.bounds

/-- The same stock, in another order. -/
theorem of_perm (h : Kept s R)
    (hp : (s.book.freeIds ++ s.held).Perm (s'.book.freeIds ++ s'.held))
    (hn : s'.book.nextAvailableIdx = s.book.nextAvailableIdx) : Kept s' R where
  stock := by
    rw [← Multiset.coe_eq_coe.2 hp]
    exact h.stock
  next_pos := by
    rw [hn]
    exact h.next_pos
  next_le := by
    rw [hn]
    exact h.next_le
  bounds x hx := by
    rw [hn]
    exact h.bounds x (hp.mem_iff.2 hx)

/-- An id that is in the stock has a generation. -/
theorem isValid (h : Kept s R) {x : BookOrderId K} (hx : x ∈ s.book.freeIds ++ s.held) :
    x.isValid = true := by
  have hgen : x.gen ≠ 0 := by
    rw [show x = SlotId.aged (R x.index) x.index from h.stock.custody.ok x hx,
      SlotId.gen_aged x.index_lt]
    exact Nat.succ_ne_zero _
  simpa [SlotId.isValid] using hgen

theorem pop (h : Kept s R) (htop : 0 < s.book.freeTop) :
    Kept ⟨{ s.book with freeTop := s.book.freeTop - 1 },
      s.book.freeStack (s.book.freeTop - 1) :: s.held⟩ R := by
  refine h.of_perm ?_ rfl
  rw [freeIds_pop htop, List.append_assoc, List.singleton_append]

theorem extend (h : Kept s R) (hroom : s.book.nextAvailableIdx < K.maxBookOrders.val) :
    Kept ⟨{ s.book with nextAvailableIdx := s.book.nextAvailableIdx + 1 },
      SlotId.first _ s.book.nextAvailableIdx :: s.held⟩ R := by
  have hpos := h.next_pos
  have hindex : (SlotId.first K.maxBookOrders s.book.nextAvailableIdx).index =
      s.book.nextAvailableIdx :=
    SlotId.index_make_one (lt_of_lt_of_le hroom (SlotId.indexBits_spec K.maxBookOrders).2.2)
  have hperm : (s.book.freeIds ++ SlotId.first _ s.book.nextAvailableIdx :: s.held).Perm
      (SlotId.first _ s.book.nextAvailableIdx :: (s.book.freeIds ++ s.held)) :=
    List.perm_middle
  refine ⟨?_, ?_, hroom, ?_⟩
  · show Recycle.Stock _ _ _ _ (↑(s.book.freeIds ++ _ :: s.held) : Multiset (BookOrderId K))
    rw [Multiset.coe_eq_coe.2 hperm, ← Multiset.cons_coe]
    refine h.stock.add hindex fun hc => ?_
    -- the stock has smaller indices only
    rw [Multiset.map_coe, Multiset.mem_coe] at hc
    obtain ⟨x, hx, hxi⟩ := List.mem_map.1 hc
    have hlt := (h.bounds x hx).2
    omega
  · show 1 ≤ s.book.nextAvailableIdx + 1
    omega
  · intro x hx
    show 1 ≤ x.index ∧ x.index < s.book.nextAvailableIdx + 1
    rcases List.mem_cons.1 (hperm.mem_iff.1 hx) with rfl | hx
    · omega
    · have hold := h.bounds x hx
      omega

/-- `acquireId`: the top of the stack, a fresh id, or none. -/
theorem acquire (h : Kept s R) (hs : s.act (.acquire id) = some s') :
    Kept s' R ∧ (id = default ∨ id ∈ s'.held) := by
  rw [IdUse.act, Option.ite_none_right_eq_some, Option.some_inj] at hs
  obtain ⟨rfl, rfl⟩ := hs
  by_cases htop : 0 < s.book.freeTop
  · have heq : s.book.acquireId = (s.book.freeStack (s.book.freeTop - 1),
        { s.book with freeTop := s.book.freeTop - 1 }) := if_pos htop
    have hkept := h.pop htop
    have hvalid := hkept.isValid (List.mem_append_right _ List.mem_cons_self)
    simp only [heq, hvalid, if_true]
    exact ⟨hkept, .inr List.mem_cons_self⟩
  · by_cases hfull : K.maxBookOrders.val ≤ s.book.nextAvailableIdx
    · have heq : s.book.acquireId = (default, s.book) :=
        (if_neg htop).trans (if_pos hfull)
      rw [heq]
      refine ⟨?_, .inl rfl⟩
      rw [if_neg (by simp)]
      exact h
    · have heq : s.book.acquireId = (SlotId.first _ s.book.nextAvailableIdx,
          { s.book with nextAvailableIdx := s.book.nextAvailableIdx + 1 }) :=
        (if_neg htop).trans (if_neg hfull)
      have hkept := h.extend (Nat.not_le.1 hfull)
      have hvalid := hkept.isValid (List.mem_append_right _ List.mem_cons_self)
      simp only [heq, hvalid, if_true]
      exact ⟨hkept, .inr List.mem_cons_self⟩

/-- `releaseId` of an id that is held. -/
theorem release (h : Kept s R) (hs : s.act (.release id) = some s') :
    Kept s' (Function.update R id.index (R id.index + 1)) ∧ 1 ≤ id.index := by
  rw [IdUse.act, Option.ite_none_right_eq_some, Option.some_inj] at hs
  obtain ⟨hid, rfl⟩ := hs
  have hbounds := h.bounds id (List.mem_append_right _ hid)
  have hold : (s.book.freeIds ++ s.held).Perm (id :: (s.book.freeIds ++ s.held.erase id)) :=
    (List.Perm.append_left _ (List.perm_cons_erase hid)).trans List.perm_middle
  have hnew : ((s.book.releaseId id).freeIds ++ s.held.erase id).Perm
      (id.nextGen :: (s.book.freeIds ++ s.held.erase id)) := by
    rw [freeIds_releaseId, List.append_assoc, List.singleton_append]
    exact List.perm_middle
  refine ⟨⟨?_, h.next_pos, h.next_le, ?_⟩, hbounds.1⟩
  · have hstock := h.stock
    rw [Multiset.coe_eq_coe.2 hold, ← Multiset.cons_coe] at hstock
    rw [Multiset.coe_eq_coe.2 hnew, ← Multiset.cons_coe]
    exact hstock.release (SlotId.index_nextGen id)
  · intro x hx
    show 1 ≤ x.index ∧ x.index < s.book.nextAvailableIdx
    rcases List.mem_cons.1 (hnew.mem_iff.1 hx) with rfl | hx
    · rw [SlotId.index_nextGen]
      exact hbounds
    · exact h.bounds x (hold.mem_iff.2 (List.mem_cons_of_mem id hx))

end Kept

/-! ### Runs -/

/-- The releases seen so far are those the stock has gone through. -/
theorem kept_run {s : IdUse K} {es : List (IdAction K)} (h : (idMachine K).Run es s) :
    Kept s fun i => SlotId.releases i (es.map IdAction.event) := by
  induction h with
  | start hi =>
    subst hi
    exact Kept.start K
  | @snoc es s a s' _ hs ih =>
    have hquiet : (∀ i, Recycle.isRelease SlotId.index i a.event = false) →
        (fun i => SlotId.releases i ((es ++ [a]).map IdAction.event)) =
          fun i => SlotId.releases i (es.map IdAction.event) := by
      intro ha
      funext i
      rw [List.map_append]
      exact Recycle.releases_concat_of_not (ha i) _
    rcases hs with hs | ⟨rfl, hheld, hsame⟩
    · cases a with
      | acquire id =>
        rw [hquiet fun _ => rfl]
        exact (ih.acquire hs).1
      | release id =>
        have hcount :
            (fun i => SlotId.releases i ((es ++ [IdAction.release id]).map IdAction.event)) =
            Function.update (fun i => SlotId.releases i (es.map IdAction.event)) id.index
              (SlotId.releases id.index (es.map IdAction.event) + 1) := by
          funext i
          rw [List.map_append]
          exact Recycle.releases_concat_released SlotId.index i _ id
        rw [hcount]
        exact (ih.release hs).1
      | elsewhere => simp [IdUse.act] at hs
    · rw [hquiet fun _ => rfl]
      exact ih.elsewhere hheld hsame

/-- The window of the book's ids, in every run. -/
theorem book_window {s : IdUse K} {es : List (IdAction K)} (h : (idMachine K).Run es s) :
    SlotId.Window (es.map IdAction.event) := by
  refine SlotId.window_of_current ?_ ?_
  · intro pre x post hes
    obtain ⟨es₁, a, s₁, s₂, rfl, ha, hrun, hs⟩ := h.step_of_map hes
    cases a with
    | acquire id =>
      obtain rfl : id = x := AllocEvent.acquired.inj ha
      rcases hs with hs | ⟨hc, _⟩
      · obtain ⟨hkept, hid | hid⟩ := (kept_run hrun).acquire hs
        · exact .inl hid
        · have hmem : id ∈ s₂.book.freeIds ++ s₂.held := List.mem_append_right _ hid
          exact .inr ⟨(hkept.bounds id hmem).1, hkept.stock.custody.ok id hmem⟩
      · simp at hc
    | release id => simp [IdAction.event] at ha
    | elsewhere => simp [IdAction.event] at ha
  · intro x hx
    obtain ⟨pre, post, hes⟩ := List.append_of_mem hx
    obtain ⟨es₁, a, s₁, s₂, rfl, ha, hrun, hs⟩ := h.step_of_map hes
    cases a with
    | release id =>
      obtain rfl : id = x := AllocEvent.released.inj ha
      rcases hs with hs | ⟨hc, _⟩
      · have hpos := ((kept_run hrun).release hs).2
        omega
      · simp at hc
    | acquire id => simp [IdAction.event] at ha
    | elsewhere => simp [IdAction.event] at ha

/-- **The exact window of recycled ids**, in every run of either allocator and for
every capacity: two acquisitions return the same word exactly if they return the
same index and the number of releases of it between them is a multiple of
`2 ^ genBits - 1`; and every acquisition returns the invalid id, or the id that was
created for its index, advanced by the releases of the index so far. -/
theorem aba_window {c : Capacity} {ps : List (SlotIdPool.PoolAction c)}
    {p : SlotIdPool.PoolState c} (hp : (SlotIdPool.poolMachine c).Run ps p)
    {es : List (IdAction K)} {s : IdUse K} (hs : (idMachine K).Run es s) :
    SlotId.Window (ps.map SlotIdPool.PoolAction.event) ∧
      SlotId.Window (es.map IdAction.event) ∧
      2 ^ SlotId.genBits Constants.production.maxSystemOrders - 2 = 254 ∧
      2 ^ SlotId.genBits Constants.production.maxBookOrders - 2 = 32766 :=
  ⟨SlotIdPool.pool_window hp, book_window hs, by decide, by decide⟩

/-! ### A small pool and a wide book -/

theorem two_le_two_pow : 2 ≤ 2 ^ 31 := by decide

/-- A pool with one id. -/
def twoSlots : Capacity := ⟨2, le_refl 2, two_le_two_pow⟩

/-- The id is acquired, released and acquired again. -/
def poolReuse : List (SlotIdPool.PoolAction twoSlots) :=
  [.loadHead, .loadTail, .storeHead, .finish ⟨3⟩, .write ⟨3⟩, .publish, .loadHead, .loadTail,
    .copy, .storeHead, .finish ⟨5⟩]

theorem poolReuse_run : ∃ p, (SlotIdPool.poolMachine twoSlots).Run poolReuse p := by
  obtain ⟨p, hrun, _⟩ := Machine.exists_run (M := SlotIdPool.poolMachine twoSlots)
    (f := SlotIdPool.PoolState.act) (fun h => h) rfl poolReuse (fun _ => true) (by decide)
  exact ⟨p, hrun⟩

theorem wide_bounds : 2 ≤ 2 ^ 30 ∧ 2 ^ 30 ≤ 2 ^ 31 := by decide

/-- Capacities that leave two bits to the generation. -/
def wide : Constants :=
  ⟨⟨2 ^ 30, wide_bounds.1, wide_bounds.2⟩, ⟨2 ^ 30, wide_bounds.1, wide_bounds.2⟩, 100,
    Nat.lt_of_lt_of_le (Nat.lt_succ_self 100) (Nat.le_add_left 101 4294967195)⟩

/-- The first id comes back after three releases. -/
def bookReuse : List (IdAction wide) :=
  [.acquire ⟨1073741825⟩, .release ⟨1073741825⟩, .acquire ⟨2147483649⟩, .release ⟨2147483649⟩,
    .acquire ⟨3221225473⟩, .release ⟨3221225473⟩, .acquire ⟨1073741825⟩]

theorem bookReuse_run : ∃ s, (idMachine wide).Run bookReuse s := by
  obtain ⟨s, hrun, _⟩ := Machine.exists_run (M := idMachine wide) (f := IdUse.act)
    (fun h => .inl h) rfl bookReuse (fun _ => true) (by decide)
  exact ⟨s, hrun⟩

theorem aba_window_reuse : ∃ p s, (SlotIdPool.poolMachine twoSlots).Run poolReuse p ∧
    (idMachine wide).Run bookReuse s ∧
    SlotId.Window (poolReuse.map SlotIdPool.PoolAction.event) ∧
    SlotId.Window (bookReuse.map IdAction.event) := by
  obtain ⟨p, hp⟩ := poolReuse_run
  obtain ⟨s, hs⟩ := bookReuse_run
  have h := aba_window hp hs
  exact ⟨p, s, hp, hs, h.1, h.2.1⟩

/-- The only id of a pool is acquired, and another acquisition returns the
invalid id. -/
theorem exhausted_pool : ∃ es p x, (SlotIdPool.poolMachine twoSlots).Run es p ∧
    AllocEvent.acquired x ∈ es.map SlotIdPool.PoolAction.event ∧ x.gen = 0 := by
  obtain ⟨p, hrun, _⟩ := Machine.exists_run (M := SlotIdPool.poolMachine twoSlots)
    (f := SlotIdPool.PoolState.act) (fun h => h) rfl
    [.loadHead, .loadTail, .storeHead, .finish ⟨3⟩, .loadHead, .loadTail, .storeHead, .finish ⟨0⟩]
    (fun _ => true) (by decide)
  refine ⟨_, p, ⟨0⟩, hrun, ?_, by decide⟩
  exact List.mem_map.2 ⟨.finish ⟨0⟩, by simp, rfl⟩

end PriceLevelOrderBook
