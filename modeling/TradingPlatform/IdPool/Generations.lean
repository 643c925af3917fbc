/-
How long a recycled id stays different from the ids before it.

A handle starts with generation 1 and is advanced at every release, and the
generations go round without 0.  So the handle of index `i` after `r` releases
has generation `r % period + 1` (`gen_aged`), where `period` is `2 ^ genBits - 1`.

`Window` says of the events of an allocator what this comes to: two acquisitions
return the same word exactly if they return the same index and the number of
releases of it between them is a multiple of the period.  `window_of_current`
derives it from what one acquisition returns, for any allocator; `pool_window` is
the pool of system order ids, whose stock is the inventory of its two parties.
-/
import TradingPlatform.IdPool.Concurrent
import TradingPlatform.Lib.Recycle

namespace SlotId

variable {c : Capacity}

/-- The handle an allocator creates for index `i`. -/
def first (c : Capacity) (i : ℕ) : SlotId c := make (UInt32.ofNat i) 1

/-- The number of generations. -/
def period (c : Capacity) : ℕ := 2 ^ genBits c - 1

theorem period_pos (c : Capacity) : 0 < period c := by
  have hone := one_lt_two_pow_genBits c
  rw [period]
  omega

/-- The handle of index `i` after `r` releases. -/
def aged (r i : ℕ) : SlotId c := Recycle.aged nextGen (first c) r i

theorem index_aged {i : ℕ} (hi : i < 2 ^ indexBits c) (r : ℕ) :
    (aged r i : SlotId c).index = i := by
  induction r with
  | zero => exact index_make_one hi
  | succ r ih =>
    rw [aged, Recycle.aged_succ, index_nextGen]
    exact ih

/-- The generations go round, without 0. -/
theorem gen_aged {i : ℕ} (hi : i < 2 ^ indexBits c) (r : ℕ) :
    (aged r i : SlotId c).gen = r % period c + 1 := by
  have hpos := period_pos c
  have hperiod : period c + 1 = 2 ^ genBits c := by
    have := Nat.two_pow_pos (genBits c)
    rw [period]
    omega
  induction r with
  | zero =>
    rw [Nat.zero_mod]
    exact gen_make_one hi
  | succ r ih =>
    have hlt := Nat.mod_lt r hpos
    rw [aged, Recycle.aged_succ, gen_nextGen, ← aged, ih, succGen, ← hperiod, Nat.add_mod]
    by_cases hw : r % period c + 1 = period c
    · -- the wrap
      rw [if_pos (by omega)]
      by_cases h1 : period c = 1
      · rw [h1, Nat.mod_one]
      · rw [Nat.mod_eq_of_lt (show 1 < period c by omega), hw, Nat.mod_self]
    · rw [if_neg (by omega), Nat.mod_eq_of_lt (show 1 < period c by omega),
        Nat.mod_eq_of_lt (show r % period c + 1 < period c by omega)]

theorem aged_eq_iff {i : ℕ} (hi : i < 2 ^ indexBits c) (r r' : ℕ) :
    (aged r i : SlotId c) = aged r' i ↔ r ≡ r' [MOD period c] := by
  constructor
  · intro heq
    have hgen := congrArg gen heq
    rw [gen_aged hi, gen_aged hi] at hgen
    exact Nat.succ_injective hgen
  · intro hmod
    refine ext_index_gen ?_ ?_
    · rw [index_aged hi, index_aged hi]
    · rw [gen_aged hi, gen_aged hi, hmod]

/-! ### Acquisitions and releases -/

/-- The number of releases of index `i`. -/
def releases (i : ℕ) (es : List (AllocEvent (SlotId c))) : ℕ := Recycle.releases index i es

/-- What the handles handed out tell from each other: of two acquisitions, and
of each one. -/
structure Window (es : List (AllocEvent (SlotId c))) : Prop where
  same_iff : ∀ pre x mid y post,
    es = pre ++ .acquired x :: (mid ++ .acquired y :: post) →
      (x.raw = y.raw ↔ x.index = y.index ∧ 2 ^ genBits c - 1 ∣ releases x.index mid)
  created : ∀ pre x post, es = pre ++ .acquired x :: post →
    x = default ∨ ∃ i, 1 ≤ i ∧ x = nextGen^[releases i pre] (make (UInt32.ofNat i) 1) ∧
      x.index = i ∧ x.gen ≠ 0

/-- What an acquisition after the events `pre` returns: the invalid handle, or
the one handle of its index. -/
def Current (pre : List (AllocEvent (SlotId c))) (x : SlotId c) : Prop :=
  x = default ∨ 1 ≤ x.index ∧ x = aged (releases x.index pre) x.index

theorem index_default : (default : SlotId c).index = 0 := by
  rw [index_eq]
  exact Nat.zero_mod _

/-- The window of any allocator that returns current handles, and that is never
given back index 0. -/
theorem window_of_current {es : List (AllocEvent (SlotId c))}
    (hcur : ∀ pre x post, es = pre ++ .acquired x :: post → Current pre x)
    (hzero : ∀ x, AllocEvent.released x ∈ es → x.index ≠ 0) : Window es := by
  constructor
  · intro pre x mid y post hes
    have hx := hcur pre x _ hes
    have hy := hcur (pre ++ .acquired x :: mid) y post (by
      rw [hes, List.append_assoc, List.cons_append])
    have hcount : ∀ i, releases i (pre ++ .acquired x :: mid) =
        releases i pre + releases i mid :=
      fun i => Recycle.releases_append_acquired index i pre mid x
    have hmid : releases 0 mid = 0 := by
      refine Recycle.releases_eq_zero fun z hz => hzero z ?_
      rw [hes]
      exact List.mem_append_right _ (List.mem_cons_of_mem _ (List.mem_append_left _ hz))
    rw [raw_inj]
    rcases hx with rfl | ⟨hx1, hxa⟩
    · rw [index_default, hmid]
      constructor
      · rintro rfl
        exact ⟨index_default.symm, Nat.dvd_zero _⟩
      · rintro ⟨hindex, _⟩
        rcases hy with rfl | ⟨hy1, _⟩
        · rfl
        · omega
    · constructor
      · rintro rfl
        refine ⟨rfl, ?_⟩
        rcases hy with rfl | ⟨_, hya⟩
        · rw [index_default] at hx1
          omega
        · rw [hcount] at hya
          exact (Recycle.eq_iff_dvd (aged_eq_iff x.index_lt) _ _).1 (hxa.symm.trans hya)
      · rintro ⟨hindex, hdvd⟩
        rcases hy with rfl | ⟨_, hya⟩
        · rw [index_default] at hindex
          omega
        · rw [hcount, ← hindex] at hya
          rw [hxa, hya]
          exact (Recycle.eq_iff_dvd (aged_eq_iff x.index_lt) _ _).2 hdvd
  · intro pre x post hes
    rcases hcur pre x post hes with hx | ⟨hx1, hxa⟩
    · exact .inl hx
    · refine .inr ⟨x.index, hx1, hxa, rfl, ?_⟩
      rw [hxa, gen_aged x.index_lt]
      exact Nat.succ_ne_zero _

end SlotId

namespace SlotIdPool

variable {c : Capacity}

/-- The calls of a run: where an acquisition returns, and where a release begins. -/
def PoolAction.event : PoolAction c → AllocEvent (SlotId c)
  | .pop id => .acquired id
  | .loadHead => .internal
  | .loadTail => .internal
  | .copy => .internal
  | .storeHead => .internal
  | .finish id => .acquired id
  | .write id => .released id
  | .publish => .internal

/-- The releases of index `i` that have begun and are not published. -/
def Releaser.pending (i : ℕ) : Releaser c → ℕ
  | .idle => 0
  | .written _ id => if id.index = i then 1 else 0

/-- The stock of the pool after the steps `es`: `R i` releases of index `i` have
been published. -/
structure Aging (s : PoolState c) (es : List (PoolAction c)) (C T : ℕ) (R : ℕ → ℕ) : Prop where
  stock : Recycle.Stock SlotId.index SlotId.nextGen (SlotId.first c) R
    ↑(s.pool.allIds C T s.held)
  count : ∀ i, SlotId.releases i (es.map PoolAction.event) = R i + s.releaser.pending i

namespace Aging

variable {s s' : PoolState c} {es : List (PoolAction c)} {H C T : ℕ} {R : ℕ → ℕ}
  {id : SlotId c}

theorem start (c : Capacity) : Aging (.start c) [] 0 0 fun _ => 0 where
  stock := by
    have hnil : (fresh c).allIds 0 0 [] = [] := by
      rw [allIds, Ring.window_self]
      rfl
    show Recycle.Stock _ _ _ _ (↑((fresh c).allIds 0 0 []) : Multiset (SlotId c))
    rw [hnil]
    exact Recycle.Stock.zero
  count _ := rfl

/-- A step that releases nothing. -/
theorem quiet (h : Aging s es C T R) (a : PoolAction c)
    (ha : ∀ i, Recycle.isRelease SlotId.index i a.event = false) (i : ℕ) :
    SlotId.releases i ((es ++ [a]).map PoolAction.event) = R i + s.releaser.pending i := by
  rw [← h.count i, List.map_append]
  exact Recycle.releases_concat_of_not (ha i) _

theorem pop (h : Aging s es C T R) (hs : s.act (.pop id) = some s') :
    Aging s' (es ++ [.pop id]) C T R := by
  rw [PoolState.act, Option.ite_none_right_eq_some] at hs
  obtain ⟨⟨_, htop, rfl⟩, hs⟩ := hs
  obtain rfl := Option.some_inj.mp hs
  refine ⟨?_, h.quiet _ fun _ => rfl⟩
  rw [← Multiset.coe_eq_coe.2 (allIds_pop htop C T s.held)]
  exact h.stock

theorem copy (hp : Parties s H C T) (h : Aging s es C T R) (hs : s.act .copy = some s') :
    Aging s' (es ++ [.copy]) (C + 1) T R := by
  have hacq := hp.acquirer
  have hlt : C < T := (hp.copy hs).inventory.le
  cases ha : s.acquirer with
  | copying k t =>
    rw [ha] at hacq
    obtain ⟨_, rfl, _⟩ := hacq
    simp only [PoolState.act, ha, Option.ite_none_right_eq_some] at hs
    obtain rfl := Option.some_inj.mp hs.2
    refine ⟨?_, h.quiet _ fun _ => rfl⟩
    rw [allIds_copy s.pool hlt]
    exact h.stock
  | _ => simp [PoolState.act, ha] at hs

/-- The end of a refill adds the fresh ids to the stock. -/
theorem finish (hp : Parties s H C T) (h : Aging s es C T R)
    (hs : s.act (.finish id) = some s') : Aging s' (es ++ [.finish id]) C T R := by
  have hinv := hp.inventory
  cases ha : s.acquirer with
  | stored t =>
    simp only [PoolState.act, ha, Option.ite_none_right_eq_some] at hs
    obtain ⟨rfl, hs⟩ := hs
    obtain rfl := Option.some_inj.mp hs
    refine ⟨?_, h.quiet _ fun _ => rfl⟩
    rcases finishRefill_cases hinv.next_le with ⟨n, hn, htop, heq⟩ | ⟨heq, _⟩
    · have hvalid := ((hinv.pushFresh hn).pop htop).1
      simp only [heq, hvalid, if_true]
      rw [← Multiset.coe_eq_coe.2 (allIds_pop htop C T s.held),
        Multiset.coe_eq_coe.2 ((s.pool.allIds_pushFresh n C T s.held).trans List.perm_append_comm),
        ← Multiset.coe_add]
      refine h.stock.addAll List.nodup_range' (fun i hi => ?_) (fun i hi hc => ?_)
      · rw [List.mem_range'_1] at hi
        refine SlotId.index_make_one ?_
        rw [← capacity_eq]
        omega
      · -- the indices in the stock have been generated before
        rw [List.mem_range'_1] at hi
        rw [Multiset.map_coe, Multiset.mem_coe] at hc
        have hgen := List.mem_range'_1.1 (hinv.perm.mem_iff.1 hc)
        have hnext := hinv.next_pos
        omega
    · simp only [heq, SlotId.isValid_default, Bool.false_eq_true, if_false]
      exact h.stock
  | _ => simp [PoolState.act, ha] at hs

theorem write (hp : Parties s H C T) (h : Aging s es C T R) (hs : s.act (.write id) = some s') :
    Aging s' (es ++ [.write id]) C T R := by
  rw [PoolState.act, Option.ite_none_right_eq_some] at hs
  obtain ⟨⟨hidle, hid⟩, hs⟩ := hs
  obtain rfl := Option.some_inj.mp hs
  constructor
  · rw [hp.tail, allIds_write s.pool hp.inventory.room]
    exact h.stock
  · intro i
    have hcount := h.count i
    rw [hidle, Releaser.pending, Nat.add_zero] at hcount
    rw [List.map_append, SlotId.releases, Recycle.releases_append]
    show SlotId.releases i _ + Recycle.releases SlotId.index i [.released id] = _
    rw [hcount, Recycle.releases_cons, Recycle.isRelease, Recycle.releases_nil, Nat.zero_add,
      Releaser.pending]
    simp only [decide_eq_true_eq]

/-- A published id comes back with its next generation. -/
theorem publish (hp : Parties s H C T) (h : Aging s es C T R) (hs : s.act .publish = some s') :
    ∃ R', Aging s' (es ++ [.publish]) C (T + 1) R' := by
  have hrel := hp.releaser
  cases hr : s.releaser with
  | idle => simp [PoolState.act, hr] at hs
  | written t id =>
    rw [hr] at hrel
    obtain ⟨rfl, hid, hw⟩ := hrel
    simp only [PoolState.act, hr] at hs
    obtain rfl := Option.some_inj.mp hs
    obtain ⟨hold, hnew⟩ := s.pool.allIds_publish hp.inventory.le hid
    rw [hw] at hnew
    set rest := s.pool.locals ++ Ring.window s.pool.sharedQueue (capacity c) C T with hrest
    have hstock := h.stock
    rw [Multiset.coe_eq_coe.2 (hold.trans List.perm_middle), ← Multiset.cons_coe] at hstock
    refine ⟨Function.update R id.index (R id.index + 1), ?_, fun i => ?_⟩
    · show Recycle.Stock _ _ _ _ (↑(s.pool.allIds C (T + 1) (s.held.erase id)) : Multiset (SlotId c))
      rw [hnew, Multiset.coe_eq_coe.2 List.perm_middle, ← Multiset.cons_coe]
      exact hstock.release (SlotId.index_nextGen id)
    · have hcount := h.count i
      rw [hr, Releaser.pending] at hcount
      rw [List.map_append, SlotId.releases, Recycle.releases_append]
      show SlotId.releases i _ + Recycle.releases SlotId.index i [.internal] = _
      rw [hcount, Recycle.releases_cons, Recycle.isRelease, Recycle.releases_nil, Nat.zero_add,
        Releaser.pending, if_neg Bool.false_ne_true, Nat.add_zero, Nat.add_zero]
      by_cases hi : id.index = i
      · rw [hi, if_pos rfl, Function.update_self]
      · rw [if_neg hi, Function.update_of_ne (fun hc => hi hc.symm), Nat.add_zero]

end Aging

theorem aging_step {s s' : PoolState c} {es : List (PoolAction c)} {a : PoolAction c}
    {H C T : ℕ} {R : ℕ → ℕ} (hp : Parties s H C T) (h : Aging s es C T R)
    (hs : s.act a = some s') :
    ∃ H' C' T' R', Parties s' H' C' T' ∧ Aging s' (es ++ [a]) C' T' R' := by
  cases a with
  | pop id => exact ⟨_, _, _, _, (hp.pop hs).2, h.pop hs⟩
  | loadHead =>
    refine ⟨_, _, _, R, hp.loadHead hs, ?_⟩
    rw [PoolState.act, Option.ite_none_right_eq_some] at hs
    obtain rfl := Option.some_inj.mp hs.2
    exact ⟨h.stock, h.quiet _ fun _ => rfl⟩
  | loadTail =>
    refine ⟨_, _, _, R, hp.loadTail hs, ?_⟩
    simp only [PoolState.act] at hs
    split at hs
    · obtain rfl := Option.some_inj.mp hs
      exact ⟨h.stock, h.quiet _ fun _ => rfl⟩
    · exact absurd hs (by simp)
  | copy => exact ⟨_, _, _, _, hp.copy hs, h.copy hp hs⟩
  | storeHead =>
    refine ⟨_, _, _, R, hp.storeHead hs, ?_⟩
    simp only [PoolState.act] at hs
    split at hs
    · rw [Option.ite_none_left_eq_some] at hs
      obtain rfl := Option.some_inj.mp hs.2
      exact ⟨h.stock, h.quiet _ fun _ => rfl⟩
    · exact absurd hs (by simp)
  | finish id => exact ⟨_, _, _, _, (hp.finish hs).2.2, h.finish hp hs⟩
  | write id => exact ⟨_, _, _, _, hp.write hs, h.write hp hs⟩
  | publish =>
    obtain ⟨R', h'⟩ := h.publish hp hs
    exact ⟨_, _, _, _, (hp.publish hs).2, h'⟩

theorem aging_run {s : PoolState c} {es : List (PoolAction c)} (h : (poolMachine c).Run es s) :
    ∃ H C T R, Parties s H C T ∧ Aging s es C T R := by
  induction h with
  | start hi =>
    subst hi
    exact ⟨0, 0, 0, _, Parties.start c, Aging.start c⟩
  | snoc _ hs ih =>
    obtain ⟨H, C, T, R, hp, h⟩ := ih
    exact aging_step hp h hs

/-- An index that nobody holds is not being released. -/
theorem Parties.pending_eq_zero {s : PoolState c} {H C T i : ℕ} (hp : Parties s H C T)
    (hi : i ∉ s.held.map SlotId.index) : s.releaser.pending i = 0 := by
  have hrel := hp.releaser
  cases hr : s.releaser with
  | idle => rfl
  | written t id =>
    rw [hr] at hrel
    refine if_neg fun hc => hi ?_
    rw [← hc]
    exact List.mem_map_of_mem hrel.2.1

/-- An id that comes to be held is the one handle of its index. -/
theorem Aging.current {s s' : PoolState c} {es es' : List (PoolAction c)} {H C T C' T' : ℕ}
    {R : ℕ → ℕ} {x : SlotId c} (hp : Parties s H C T) (h : Aging s es C T R)
    (h' : Aging s' es' C' T' R) (hnew : x.index ≠ 0 ∧ x.index ∉ s.held.map SlotId.index)
    (hheld : x ∈ s'.held) : SlotId.Current (es.map PoolAction.event) x := by
  have hmem : x ∈ s'.pool.allIds C' T' s'.held := List.mem_append_right _ hheld
  have hcount := h.count x.index
  rw [hp.pending_eq_zero hnew.2, Nat.add_zero] at hcount
  refine .inr ⟨Nat.pos_of_ne_zero hnew.1, ?_⟩
  rw [hcount]
  exact h'.stock.custody.ok x hmem

/-- What an acquisition of the pool returns. -/
theorem returns_current {s s' : PoolState c} {es : List (PoolAction c)} {H C T : ℕ}
    {R : ℕ → ℕ} {a : PoolAction c} {x : SlotId c} (hp : Parties s H C T) (h : Aging s es C T R)
    (hs : s.act a = some s') (ha : a.event = .acquired x) :
    SlotId.Current (es.map PoolAction.event) x := by
  cases a with
  | pop id =>
    obtain rfl : id = x := AllocEvent.acquired.inj ha
    refine h.current hp (h.pop hs) (hp.pop hs).1.2 ?_
    rw [PoolState.act, Option.ite_none_right_eq_some] at hs
    obtain rfl := Option.some_inj.mp hs.2
    exact List.mem_cons_self
  | finish id =>
    obtain rfl : id = x := AllocEvent.acquired.inj ha
    have hnext := h.finish hp hs
    obtain ⟨hcase, ⟨t, ht⟩, _⟩ := hp.finish hs
    simp only [PoolState.act, ht, Option.ite_none_right_eq_some] at hs
    obtain ⟨hid, hs⟩ := hs
    obtain rfl := Option.some_inj.mp hs
    rcases hcase with ⟨hvalid, hnew⟩ | ⟨hbad, _, hfull⟩
    · refine h.current hp hnext hnew ?_
      simp only [hvalid, if_true]
      exact List.mem_cons_self
    · -- the invalid id of an exhausted pool
      rcases hp.inventory.finishRefill with ⟨hvalid, _⟩ | ⟨heq, _⟩
      · rw [hid, hbad] at hvalid
        exact Bool.noConfusion hvalid
      · rw [heq] at hid
        exact .inl hid.symm
  | _ => simp [PoolAction.event] at ha

theorem pool_current {s : PoolState c} {es : List (PoolAction c)} (h : (poolMachine c).Run es s)
    (pre : List (AllocEvent (SlotId c))) (x : SlotId c) (post : List (AllocEvent (SlotId c)))
    (hes : es.map PoolAction.event = pre ++ .acquired x :: post) : SlotId.Current pre x := by
  obtain ⟨es₁, a, s₁, s₂, rfl, ha, hrun, hs⟩ := h.step_of_map hes
  obtain ⟨H, C, T, R, hp, haging⟩ := aging_run hrun
  exact returns_current hp haging hs ha

/-- Only held ids are released, and index 0 is not one of them. -/
theorem pool_released {s : PoolState c} {es : List (PoolAction c)} (h : (poolMachine c).Run es s)
    (x : SlotId c) (hx : AllocEvent.released x ∈ es.map PoolAction.event) : x.index ≠ 0 := by
  obtain ⟨pre, post, hes⟩ := List.append_of_mem hx
  obtain ⟨es₁, a, s₁, s₂, rfl, ha, hrun, hs⟩ := h.step_of_map hes
  obtain ⟨H, C, T, hp⟩ := parties_run hrun
  cases a with
  | write id =>
    obtain rfl : id = x := AllocEvent.released.inj ha
    have hact : s₁.act (.write id) = some s₂ := hs
    rw [PoolState.act, Option.ite_none_right_eq_some] at hact
    have hbounds := hp.inventory.index_bounds (List.mem_append_right _ hact.1.2)
    omega
  | _ => simp [PoolAction.event] at ha

/-- The window of the pool of system order ids, in every run. -/
theorem pool_window {s : PoolState c} {es : List (PoolAction c)} (h : (poolMachine c).Run es s) :
    SlotId.Window (es.map PoolAction.event) :=
  SlotId.window_of_current (pool_current h) (pool_released h)

end SlotIdPool
