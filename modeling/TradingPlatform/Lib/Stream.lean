/-
Reading items off a stream.

`next xs` looks at the elements that have arrived: it wants more of them, finds
an item that takes the first `n`, or stops.  `scan` takes items as long as there
are any and returns what they emit, with the number of elements taken or the
reason to stop.

* `scan_more`, `scan_stop`, `scan_item` — one item at a time, for functions whose
  items take something;
* `scan_append` — if elements that arrive later do not change what was found
  earlier, what is scanned in two pieces is what is scanned in one;
* `scan_items`, `prefix_flatten` — streams that are made of items, and where a
  beginning of one can end;
* `scan_pieces`, `flatten_inj` — what was scanned is made of items, and pieces
  that tell their length are found again in their concatenation.
-/
import Mathlib.Data.List.Basic
import Mathlib.Tactic.Common

namespace Stream

variable {α β ε : Type*}

/-- What the elements that have arrived amount to. -/
inductive Next (β ε : Type*)
  | more
  | stop (emitted : List β) (reason : ε)
  | item (emitted : List β) (n : ℕ)

/-- Taking items while there are any; every item takes an element at least, so
the number of elements is fuel enough. -/
def scanFuel (next : List α → Next β ε) : ℕ → List α → List β × Except ε ℕ
  | 0, _ => ([], .ok 0)
  | fuel + 1, xs =>
    match next xs with
    | .more => ([], .ok 0)
    | .stop emitted reason => (emitted, .error reason)
    | .item emitted n =>
      let r := scanFuel next fuel (xs.drop n)
      (emitted ++ r.1, r.2.map (n + ·))

def scan (next : List α → Next β ε) (xs : List α) : List β × Except ε ℕ :=
  scanFuel next xs.length xs

/-- Nothing is found in nothing, and items take something that is there. -/
structure Progress (next : List α → Next β ε) : Prop where
  nil : next [] = .more
  item : ∀ {xs emitted n}, next xs = .item emitted n → 0 < n ∧ n ≤ xs.length

/-- What is found does not depend on what comes after it. -/
structure Stable (next : List α → Next β ε) : Prop extends Progress next where
  stop_append : ∀ {xs emitted reason}, next xs = .stop emitted reason →
    ∀ ys, next (xs ++ ys) = .stop emitted reason
  item_append : ∀ {xs emitted n}, next xs = .item emitted n →
    ∀ ys, next (xs ++ ys) = .item emitted n

variable {next : List α → Next β ε} {xs : List α} {emitted : List β} {n : ℕ} {reason : ε}

theorem scanFuel_nil (h : Progress next) (fuel : ℕ) : scanFuel next fuel [] = ([], .ok 0) := by
  cases fuel with
  | zero => rfl
  | succ fuel => simp only [scanFuel, h.nil]

/-- More fuel than elements changes nothing. -/
theorem scanFuel_congr (h : Progress next) {fuel fuel' : ℕ} (hf : xs.length ≤ fuel)
    (hf' : xs.length ≤ fuel') : scanFuel next fuel xs = scanFuel next fuel' xs := by
  induction fuel generalizing fuel' xs with
  | zero =>
    obtain rfl := List.eq_nil_of_length_eq_zero (Nat.le_zero.1 hf)
    rw [scanFuel_nil h, scanFuel_nil h]
  | succ fuel ih =>
    cases fuel' with
    | zero =>
      obtain rfl := List.eq_nil_of_length_eq_zero (Nat.le_zero.1 hf')
      rw [scanFuel_nil h, scanFuel_nil h]
    | succ fuel' =>
      simp only [scanFuel]
      cases hnext : next xs with
      | more => rfl
      | stop emitted reason => rfl
      | item emitted n =>
        have hn := h.item hnext
        have hlen : (xs.drop n).length = xs.length - n := List.length_drop
        have hrest : scanFuel next fuel (xs.drop n) = scanFuel next fuel' (xs.drop n) :=
          ih (by omega) (by omega)
        simp only [hrest]

/-! ### One step of a scan -/

theorem scan_more (hp : Progress next) (h : next xs = .more) : scan next xs = ([], .ok 0) := by
  rw [scan, scanFuel_congr hp (Nat.le_refl _) (Nat.le_succ _)]
  simp only [scanFuel, h]

theorem scan_stop (hp : Progress next) (h : next xs = .stop emitted reason) :
    scan next xs = (emitted, .error reason) := by
  rw [scan, scanFuel_congr hp (Nat.le_refl _) (Nat.le_succ _)]
  simp only [scanFuel, h]

theorem scan_item (hp : Progress next) (h : next xs = .item emitted n) :
    scan next xs = (emitted ++ (scan next (xs.drop n)).1,
      (scan next (xs.drop n)).2.map (n + ·)) := by
  have hlen : (xs.drop n).length ≤ xs.length := by
    rw [List.length_drop]
    exact Nat.sub_le _ _
  rw [scan, scanFuel_congr hp (Nat.le_refl _) (Nat.le_succ _)]
  simp only [scanFuel, h, scan, scanFuel_congr hp hlen (Nat.le_refl _)]

/-- Every property of lists that holds where nothing more is found, and goes back
over an item, holds of every list. -/
theorem scan_induction (hp : Progress next) {P : List α → Prop}
    (more : ∀ xs, next xs = .more → P xs)
    (stop : ∀ xs emitted reason, next xs = .stop emitted reason → P xs)
    (item : ∀ xs emitted n, next xs = .item emitted n → P (xs.drop n) → P xs)
    (xs : List α) : P xs := by
  induction hlen : xs.length using Nat.strongRecOn generalizing xs with
  | ind m ih =>
    cases hnext : next xs with
    | more => exact more xs hnext
    | stop emitted reason => exact stop xs emitted reason hnext
    | item emitted n =>
      have hn := hp.item hnext
      refine item xs emitted n hnext (ih (xs.drop n).length ?_ (xs.drop n) rfl)
      rw [List.length_drop]
      omega

/-! ### Scanning in pieces -/

/-- What a scan leaves holds no item. -/
theorem scan_rest (hp : Progress next) (h : (scan next xs).2 = .ok n) :
    n ≤ xs.length ∧ next (xs.drop n) = .more := by
  induction xs using scan_induction hp generalizing n with
  | more xs hnext =>
    rw [scan_more hp hnext] at h
    obtain rfl := Except.ok.inj h
    exact ⟨Nat.zero_le _, hnext⟩
  | stop xs emitted reason hnext =>
    rw [scan_stop hp hnext] at h
    cases h
  | item xs emitted m hnext ih =>
    rw [scan_item hp hnext] at h
    cases hrest : (scan next (xs.drop m)).2 with
    | error e =>
      rw [hrest] at h
      cases h
    | ok k =>
      rw [hrest] at h
      obtain rfl : m + k = n := Except.ok.inj h
      obtain ⟨hle, hmore⟩ := ih hrest
      rw [List.length_drop] at hle
      rw [List.drop_drop] at hmore
      have hm := hp.item hnext
      exact ⟨by omega, hmore⟩

/-- Elements that come later are scanned after what is left. -/
theorem scan_append (hs : Stable next) (ys : List α) (h : (scan next xs).2 = .ok n) :
    scan next (xs ++ ys) = ((scan next xs).1 ++ (scan next (xs.drop n ++ ys)).1,
      (scan next (xs.drop n ++ ys)).2.map (n + ·)) := by
  have hp := hs.toProgress
  induction xs using scan_induction hp generalizing n with
  | more xs hnext =>
    rw [scan_more hp hnext] at h ⊢
    obtain rfl := Except.ok.inj h
    cases hrest : (scan next (xs ++ ys)).2 with
    | error e => simp [Prod.ext_iff, hrest, Except.map]
    | ok k => simp [Prod.ext_iff, hrest, Except.map]
  | stop xs emitted reason hnext =>
    rw [scan_stop hp hnext] at h
    cases h
  | item xs emitted m hnext ih =>
    have hm := hp.item hnext
    rw [scan_item hp hnext] at h
    cases hrest : (scan next (xs.drop m)).2 with
    | error e =>
      rw [hrest] at h
      cases h
    | ok k =>
      rw [hrest] at h
      obtain rfl : m + k = n := Except.ok.inj h
      have hdrop : (xs ++ ys).drop m = xs.drop m ++ ys := List.drop_append_of_le_length hm.2
      rw [scan_item hp (hs.item_append hnext ys), scan_item hp hnext, hdrop, ih hrest,
        List.drop_drop]
      cases (scan next (xs.drop (m + k) ++ ys)).2 with
      | error e => simp [Except.map]
      | ok l => simp [Except.map, Nat.add_assoc]

/-- A scan that has stopped stays stopped. -/
theorem scan_append_of_error (hs : Stable next) (ys : List α)
    (h : (scan next xs).2 = .error reason) : scan next (xs ++ ys) = scan next xs := by
  have hp := hs.toProgress
  induction xs using scan_induction hp with
  | more xs hnext =>
    rw [scan_more hp hnext] at h
    cases h
  | stop xs emitted reason hnext =>
    rw [scan_stop hp hnext, scan_stop hp (hs.stop_append hnext ys)]
  | item xs emitted m hnext ih =>
    rw [scan_item hp hnext] at h
    cases hrest : (scan next (xs.drop m)).2 with
    | ok k =>
      rw [hrest] at h
      cases h
    | error e =>
      rw [hrest] at h
      obtain rfl : e = reason := Except.error.inj h
      rw [scan_item hp (hs.item_append hnext ys), scan_item hp hnext,
        List.drop_append_of_le_length (hp.item hnext).2, ih hrest]

/-! ### Streams made of items -/

/-- Pieces that are items whatever follows them are taken one after the other. -/
theorem scan_items (hp : Progress next) {pieces : List (List α)} {outs : List (List β)}
    (h : List.Forall₂ (fun xs emitted => ∀ ys, next (xs ++ ys) = .item emitted xs.length)
      pieces outs) (ys : List α) :
    scan next (pieces.flatten ++ ys) = (outs.flatten ++ (scan next ys).1,
      (scan next ys).2.map (pieces.flatten.length + ·)) := by
  induction h with
  | nil =>
    cases hys : (scan next ys).2 with
    | error e => simp [Prod.ext_iff, hys, Except.map]
    | ok n => simp [Prod.ext_iff, hys, Except.map]
  | @cons xs emitted pieces outs hxs _ ih =>
    rw [List.flatten_cons, List.append_assoc, scan_item hp (hxs _), List.drop_left, ih]
    cases (scan next ys).2 with
    | error e => simp [Except.map]
    | ok n => simp [Except.map, Nat.add_assoc]

/-- What a scan has taken is a concatenation of items. -/
theorem scan_pieces (hp : Progress next) {out : List β} (h : scan next xs = (out, .ok n)) :
    ∃ (pieces : List (List α)) (outs : List (List β)), pieces.flatten = xs.take n ∧
      outs.flatten = out ∧
      List.Forall₂ (fun piece emitted => ∃ ys, next (piece ++ ys) = .item emitted piece.length)
        pieces outs := by
  induction xs using scan_induction hp generalizing out n with
  | more xs hnext =>
    rw [scan_more hp hnext] at h
    obtain ⟨rfl, hn⟩ := Prod.mk.inj h
    obtain rfl := Except.ok.inj hn
    exact ⟨[], [], rfl, rfl, .nil⟩
  | stop xs emitted reason hnext =>
    rw [scan_stop hp hnext] at h
    cases (Prod.mk.inj h).2
  | item xs emitted m hnext ih =>
    rw [scan_item hp hnext] at h
    obtain ⟨rfl, hn⟩ := Prod.mk.inj h
    cases hrest : (scan next (xs.drop m)).2 with
    | error e =>
      rw [hrest] at hn
      cases hn
    | ok k =>
      rw [hrest] at hn
      obtain rfl : m + k = n := Except.ok.inj hn
      obtain ⟨pieces, outs, hpieces, houts, hall⟩ := ih (Prod.ext rfl hrest)
      have hlen : (xs.take m).length = m := List.length_take_of_le (hp.item hnext).2
      refine ⟨xs.take m :: pieces, emitted :: outs, ?_, ?_, .cons ⟨xs.drop m, ?_⟩ hall⟩
      · rw [List.flatten_cons, hpieces, List.take_add]
      · rw [List.flatten_cons, houts]
      · rw [List.take_append_drop, hlen, hnext]

/-- Pieces that are not empty and whose length can be told from what they begin
are determined by their concatenation. -/
theorem flatten_inj (size : List α → ℕ) {ps qs : List (List α)}
    (hps : ∀ p ∈ ps, p ≠ [] ∧ ∀ ys, size (p ++ ys) = p.length)
    (hqs : ∀ q ∈ qs, q ≠ [] ∧ ∀ ys, size (q ++ ys) = q.length)
    (h : ps.flatten = qs.flatten) : ps = qs := by
  induction ps generalizing qs with
  | nil =>
    cases qs with
    | nil => rfl
    | cons q qs =>
      have hnil := List.append_eq_nil_iff.1 h.symm
      exact absurd hnil.1 (hqs q List.mem_cons_self).1
  | cons p ps ih =>
    cases qs with
    | nil =>
      have hnil := List.append_eq_nil_iff.1 h
      exact absurd hnil.1 (hps p List.mem_cons_self).1
    | cons q qs =>
      rw [List.flatten_cons, List.flatten_cons] at h
      have hlen : p.length = q.length := by
        rw [← (hps p List.mem_cons_self).2 ps.flatten, h, (hqs q List.mem_cons_self).2]
      obtain ⟨rfl, hrest⟩ := List.append_inj h hlen
      rw [ih (fun x hx => hps x (List.mem_cons_of_mem _ hx))
        (fun x hx => hqs x (List.mem_cons_of_mem _ hx)) hrest]

/-- A beginning of a concatenation ends between two pieces or inside one. -/
theorem prefix_flatten {xs : List α} {pieces : List (List α)} (h : xs <+: pieces.flatten) :
    ∃ j, xs = (pieces.take j).flatten ∨
      ∃ piece cut, pieces[j]? = some piece ∧ cut <+: piece ∧ cut ≠ [] ∧ cut ≠ piece ∧
        xs = (pieces.take j).flatten ++ cut := by
  induction pieces generalizing xs with
  | nil => exact ⟨0, .inl (List.prefix_nil.1 h)⟩
  | cons piece pieces ih =>
    rw [List.flatten_cons] at h
    rcases List.prefix_or_prefix_of_prefix h (List.prefix_append piece _) with hcut | ⟨ys, rfl⟩
    · by_cases hnil : xs = []
      · exact ⟨0, .inl hnil⟩
      by_cases hall : xs = piece
      · refine ⟨1, .inl ?_⟩
        rw [List.take_succ_cons, List.take_zero, List.flatten_singleton, hall]
      · exact ⟨0, .inr ⟨piece, xs, rfl, hcut, hnil, hall, rfl⟩⟩
    · rw [List.prefix_append_right_inj] at h
      obtain ⟨j, rfl | ⟨piece', cut, hj, hcut, hnil, hall, rfl⟩⟩ := ih h
      · exact ⟨j + 1, .inl rfl⟩
      · refine ⟨j + 1, .inr ⟨piece', cut, hj, hcut, hnil, hall, ?_⟩⟩
        rw [List.take_succ_cons, List.flatten_cons, List.append_assoc]

theorem length_take_flatten_mono (pieces : List (List α)) {i j : ℕ} (h : i ≤ j) :
    (pieces.take i).flatten.length ≤ (pieces.take j).flatten.length := by
  obtain ⟨ys, hys⟩ : pieces.take i <+: pieces.take j := List.take_prefix_take_left h
  rw [← hys, List.flatten_append, List.length_append]
  exact Nat.le_add_right _ _

/-- Inside a piece is not between two pieces. -/
theorem flatten_append_cut_ne {pieces : List (List α)} {j : ℕ} {piece cut : List α}
    (hj : pieces[j]? = some piece) (hcut : cut <+: piece) (hnil : cut ≠ []) (hall : cut ≠ piece)
    (i : ℕ) : (pieces.take j).flatten ++ cut ≠ (pieces.take i).flatten := by
  intro heq
  have hlen := congrArg List.length heq
  have hpos := List.length_pos_iff.2 hnil
  have hlt : cut.length < piece.length :=
    Nat.lt_of_le_of_ne hcut.length_le fun hlen => hall (hcut.eq_of_length hlen)
  rw [List.length_append] at hlen
  rcases Nat.lt_or_ge j i with hji | hij
  · have hle := length_take_flatten_mono pieces (Nat.succ_le_of_lt hji)
    rw [List.take_add_one, hj, List.flatten_append, List.length_append] at hle
    simp only [Option.toList_some, List.flatten_singleton] at hle
    omega
  · have hle := length_take_flatten_mono pieces hij
    omega

end Stream
