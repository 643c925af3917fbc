/-
Sets of natural numbers stored as arrays of machine words.

Bit `p % w` of word `p / w` says whether `p` belongs to the set (`test`).
Two facts describe the updates,

* `test_setBit` — or-ing one bit into a word adds exactly one position;
* `test_clearBit` — masking one bit out of a word removes exactly one position;

and two searches run over the words rather than over the positions:

* `firstFrom m i n` looks at words `i, i + 1, …` (`n` of them), and answers
  with the lowest set bit of the first word that is not zero;
* `lastFrom m i n` looks at words `i, i - 1, …` (`n` of them), and answers
  with the highest set bit of the first word that is not zero.

Both are exact: an answer is extreme among the positions searched
(`firstFrom_eq_some`, `lastFrom_eq_some`), and no answer means that no
position searched is set (`firstFrom_eq_none`, `lastFrom_eq_none`).
`firstReads` and `lastReads` are the words they look at on the way, and the only
ones their answers depend on (`firstFrom_congr`, `lastFrom_congr`).
-/
import Mathlib.Logic.Function.Basic
import Mathlib.Tactic.Ring
import Mathlib.Tactic.Set

namespace WordMask

variable {w : ℕ}

/-- Membership of position `p`. -/
def test (m : ℕ → BitVec w) (p : ℕ) : Bool := (m (p / w)).getLsbD (p % w)

/-- Words with bit `k` of word `i` set. -/
def setBit (m : ℕ → BitVec w) (i k : ℕ) : ℕ → BitVec w :=
  Function.update m i (m i ||| 1#w <<< k)

/-- Words with bit `k` of word `i` cleared. -/
def clearBit (m : ℕ → BitVec w) (i k : ℕ) : ℕ → BitVec w :=
  Function.update m i (m i &&& ~~~(1#w <<< k))

/-- Lowest set bit of the first non-zero word among `i, …, i + n - 1`. -/
def firstFrom (m : ℕ → BitVec w) : ℕ → ℕ → Option ℕ
  | _, 0 => none
  | i, n + 1 =>
    if m i ≠ 0#w then some (i * w + (m i).ctz.toNat) else firstFrom m (i + 1) n

/-- Highest set bit of the first non-zero word among `i, i - 1, …`, `n` words. -/
def lastFrom (m : ℕ → BitVec w) : ℕ → ℕ → Option ℕ
  | _, 0 => none
  | i, n + 1 =>
    if m i ≠ 0#w then some (i * w + (w - 1 - (m i).clz.toNat)) else lastFrom m (i - 1) n

/-- The words `firstFrom m i n` looks at. -/
def firstReads (m : ℕ → BitVec w) : ℕ → ℕ → List ℕ
  | _, 0 => []
  | i, n + 1 => i :: if m i ≠ 0#w then [] else firstReads m (i + 1) n

/-- The words `lastFrom m i n` looks at. -/
def lastReads (m : ℕ → BitVec w) : ℕ → ℕ → List ℕ
  | _, 0 => []
  | i, n + 1 => i :: if m i ≠ 0#w then [] else lastReads m (i - 1) n

/-! ### Positions and words -/

theorem div_eq_iff_between (hw : 0 < w) {i r : ℕ} : r / w = i ↔ i * w ≤ r ∧ r < i * w + w := by
  rw [Nat.div_eq_iff hw]
  constructor
  · rintro ⟨h1, h2⟩
    exact ⟨h1, by omega⟩
  · rintro ⟨h1, h2⟩
    exact ⟨h1, by omega⟩

theorem test_word_add (hw : 0 < w) (m : ℕ → BitVec w) (i : ℕ) {k : ℕ} (hk : k < w) :
    test m (i * w + k) = (m i).getLsbD k := by
  have hdiv : (i * w + k) / w = i := (div_eq_iff_between hw).mpr ⟨by omega, by omega⟩
  have hmod : (i * w + k) % w = k := by
    rw [Nat.mul_comm, Nat.mul_add_mod, Nat.mod_eq_of_lt hk]
  rw [test, hdiv, hmod]

/-- Every position of word `i` is the word's base plus a bit number. -/
theorem exists_bit (hw : 0 < w) {i r : ℕ} (h : r / w = i) : ∃ k < w, r = i * w + k := by
  refine ⟨r % w, Nat.mod_lt r hw, ?_⟩
  rw [← h, Nat.mul_comm]
  exact (Nat.div_add_mod r w).symm

/-- Two positions of one word are the same if they have the same bit number. -/
theorem mod_eq_iff {p r : ℕ} (hword : r / w = p / w) : r % w = p % w ↔ r = p := by
  constructor
  · intro h
    rw [← Nat.div_add_mod r w, ← Nat.div_add_mod p w, hword, h]
  · rintro rfl
    rfl

theorem getLsbD_bit {k j : ℕ} (hj : j < w) :
    (1#w <<< k).getLsbD j = decide (j = k) := by
  rw [BitVec.getLsbD_shiftLeft, BitVec.getLsbD_one]
  by_cases hjk : j = k
  · subst hjk
    simp [hj, show 0 < w by omega]
  · by_cases hlt : j < k
    · simp [hj, hlt, hjk]
    · have hne : j - k ≠ 0 := by omega
      simp [hj, hlt, hjk, hne]

theorem test_setBit (hw : 0 < w) (m : ℕ → BitVec w) (p r : ℕ) :
    test (setBit m (p / w) (p % w)) r = (test m r || decide (r = p)) := by
  have hr := Nat.mod_lt r hw
  by_cases hword : r / w = p / w
  · have hrp := mod_eq_iff hword
    rw [test, test, setBit, hword, Function.update_self, BitVec.getLsbD_or, getLsbD_bit hr]
    simp only [hrp]
  · have hne : r ≠ p := by
      rintro rfl
      exact hword rfl
    rw [test, test, setBit, Function.update_of_ne hword]
    simp [hne]

theorem test_clearBit (hw : 0 < w) (m : ℕ → BitVec w) (p r : ℕ) :
    test (clearBit m (p / w) (p % w)) r = (test m r && decide (r ≠ p)) := by
  have hr := Nat.mod_lt r hw
  by_cases hword : r / w = p / w
  · have hrp := mod_eq_iff hword
    rw [test, test, clearBit, hword, Function.update_self, BitVec.getLsbD_and,
      BitVec.getLsbD_not, getLsbD_bit hr]
    simp only [hrp, hr, decide_true, Bool.true_and, ne_eq, decide_not]
  · have hne : r ≠ p := by
      rintro rfl
      exact hword rfl
    rw [test, test, clearBit, Function.update_of_ne hword]
    simp [hne]

theorem test_eq_false_of_word_eq_zero {m : ℕ → BitVec w} {i r : ℕ} (hz : m i = 0#w)
    (hr : r / w = i) : test m r = false := by
  rw [test, hr, hz, BitVec.getLsbD_zero]

/-! ### One word -/

theorem ctz_spec {x : BitVec w} (hx : x ≠ 0#w) :
    x.ctz.toNat < w ∧ x.getLsbD x.ctz.toNat = true ∧
      ∀ k < x.ctz.toNat, x.getLsbD k = false := by
  have hbit := BitVec.getLsbD_true_ctz_of_ne_zero hx
  exact ⟨BitVec.lt_of_getLsbD hbit, hbit, fun k hk => BitVec.getLsbD_false_of_lt_ctz hk⟩

theorem clz_spec (hw : 0 < w) {x : BitVec w} (hx : x ≠ 0#w) :
    w - 1 - x.clz.toNat < w ∧ x.getLsbD (w - 1 - x.clz.toNat) = true ∧
      ∀ k < w, w - 1 - x.clz.toNat < k → x.getLsbD k = false := by
  refine ⟨by omega, BitVec.getLsbD_true_clz_of_ne_zero hw hx, fun k hk hlt => ?_⟩
  have hlt' : x.toNat < 2 ^ (w - x.clz.toNat) := BitVec.toNat_lt_two_pow_sub_clz
  exact Nat.testBit_lt_two_pow (lt_of_lt_of_le hlt' (Nat.pow_le_pow_right Nat.two_pos (by omega)))

/-! ### The searches are exact -/

theorem firstFrom_eq_some (hw : 0 < w) {m : ℕ → BitVec w} :
    ∀ {n i p : ℕ}, firstFrom m i n = some p →
      test m p = true ∧ i * w ≤ p ∧ p < (i + n) * w ∧
        ∀ r, i * w ≤ r → r < p → test m r = false := by
  intro n
  induction n with
  | zero =>
    intro i p h
    simp [firstFrom] at h
  | succ n ih =>
    intro i p h
    rw [firstFrom] at h
    by_cases hz : m i = 0#w
    · -- an empty word: the rest of the search, and nothing in this word
      rw [if_neg (by simpa using hz)] at h
      obtain ⟨h1, h2, h3, h4⟩ := ih h
      have hsucc : (i + 1) * w = i * w + w := by ring
      refine ⟨h1, by omega, by rw [show i + (n + 1) = i + 1 + n by omega]; exact h3, ?_⟩
      intro r hr hrp
      by_cases hword : r < i * w + w
      · exact test_eq_false_of_word_eq_zero hz ((div_eq_iff_between hw).mpr ⟨hr, hword⟩)
      · exact h4 r (by omega) hrp
    · -- the lowest bit of this word
      rw [if_pos hz, Option.some_inj] at h
      subst h
      obtain ⟨h1, h2, h3⟩ := ctz_spec hz
      have hle : (i + 1) * w ≤ (i + (n + 1)) * w := Nat.mul_le_mul_right w (by omega)
      have hsucc : (i + 1) * w = i * w + w := by ring
      refine ⟨by rw [test_word_add hw m i h1]; exact h2, by omega, by omega, ?_⟩
      intro r hr hrp
      obtain ⟨k, hk, rfl⟩ := exists_bit hw ((div_eq_iff_between hw).mpr ⟨hr, by omega⟩)
      rw [test_word_add hw m i hk]
      exact h3 k (by omega)

theorem firstFrom_eq_none (hw : 0 < w) {m : ℕ → BitVec w} :
    ∀ {n i : ℕ}, firstFrom m i n = none →
      ∀ r, i * w ≤ r → r < (i + n) * w → test m r = false := by
  intro n
  induction n with
  | zero =>
    intro i _ r h1 h2
    rw [Nat.add_zero] at h2
    omega
  | succ n ih =>
    intro i h r h1 h2
    rw [firstFrom] at h
    by_cases hz : m i = 0#w
    · rw [if_neg (by simpa using hz)] at h
      by_cases hword : r < i * w + w
      · exact test_eq_false_of_word_eq_zero hz ((div_eq_iff_between hw).mpr ⟨h1, hword⟩)
      · have hsucc : (i + 1) * w = i * w + w := by ring
        refine ih h r (by omega) ?_
        rw [show i + 1 + n = i + (n + 1) by omega]
        exact h2
    · rw [if_pos hz] at h
      exact absurd h (by simp)

theorem lastFrom_eq_some (hw : 0 < w) {m : ℕ → BitVec w} :
    ∀ {n i p : ℕ}, n ≤ i + 1 → lastFrom m i n = some p →
      test m p = true ∧ (i + 1 - n) * w ≤ p ∧ p < (i + 1) * w ∧
        ∀ r, p < r → r < (i + 1) * w → test m r = false := by
  intro n
  induction n with
  | zero =>
    intro i p _ h
    simp [lastFrom] at h
  | succ n ih =>
    intro i p hn h
    rw [lastFrom] at h
    have hsucc : (i + 1) * w = i * w + w := by ring
    by_cases hz : m i = 0#w
    · rw [if_neg (by simpa using hz)] at h
      rcases i with _ | i
      · -- word 0 was the last one to look at
        obtain rfl : n = 0 := by omega
        simp [lastFrom] at h
      · obtain ⟨h1, h2, h3, h4⟩ := ih (by omega) h
        rw [show i + 1 + 1 - (n + 1) = i + 1 - 1 + 1 - n by omega]
        have hword : (i + 1 - 1 + 1) * w = (i + 1) * w := by rw [Nat.add_sub_cancel]
        refine ⟨h1, h2, by omega, ?_⟩
        intro r hr hlt
        by_cases hrw : r < (i + 1) * w
        · exact h4 r hr (by omega)
        · exact test_eq_false_of_word_eq_zero hz ((div_eq_iff_between hw).mpr ⟨by omega, by omega⟩)
    · -- the highest bit of this word
      rw [if_pos hz, Option.some_inj] at h
      subst h
      obtain ⟨h1, h2, h3⟩ := clz_spec hw hz
      have hle : (i + 1 - (n + 1)) * w ≤ i * w := Nat.mul_le_mul_right w (by omega)
      refine ⟨by rw [test_word_add hw m i h1]; exact h2, by omega, by omega, ?_⟩
      intro r hr hlt
      have hword : r / w = i := (div_eq_iff_between hw).mpr ⟨by omega, by omega⟩
      obtain ⟨k, hk, rfl⟩ := exists_bit hw hword
      rw [test_word_add hw m i hk]
      exact h3 k hk (by omega)

theorem lastFrom_eq_none (hw : 0 < w) {m : ℕ → BitVec w} :
    ∀ {n i : ℕ}, n ≤ i + 1 → lastFrom m i n = none →
      ∀ r, (i + 1 - n) * w ≤ r → r < (i + 1) * w → test m r = false := by
  intro n
  induction n with
  | zero =>
    intro i _ _ r h1 h2
    rw [Nat.sub_zero] at h1
    omega
  | succ n ih =>
    intro i hn h r h1 h2
    rw [lastFrom] at h
    have hsucc : (i + 1) * w = i * w + w := by ring
    by_cases hz : m i = 0#w
    · rw [if_neg (by simpa using hz)] at h
      by_cases hword : i * w ≤ r
      · exact test_eq_false_of_word_eq_zero hz ((div_eq_iff_between hw).mpr ⟨hword, by omega⟩)
      · rcases i with _ | i
        · omega
        · rw [show i + 1 + 1 - (n + 1) = i + 1 - 1 + 1 - n by omega] at h1
          refine ih (by omega) h r h1 ?_
          rw [Nat.add_sub_cancel]
          omega
    · rw [if_pos hz] at h
      exact absurd h (by simp)

/-! ### The words looked at -/

theorem mem_firstReads {m : ℕ → BitVec w} {k : ℕ} :
    ∀ {n i : ℕ}, k ∈ firstReads m i n → i ≤ k ∧ k < i + n := by
  intro n
  induction n with
  | zero =>
    intro i h
    exact absurd h List.not_mem_nil
  | succ n ih =>
    intro i h
    rw [firstReads, List.mem_cons] at h
    rcases h with rfl | h
    · omega
    · split at h
      · exact absurd h List.not_mem_nil
      · obtain ⟨h1, h2⟩ := ih h
        omega

theorem mem_lastReads {m : ℕ → BitVec w} {k : ℕ} :
    ∀ {n i : ℕ}, k ∈ lastReads m i n → k ≤ i := by
  intro n
  induction n with
  | zero =>
    intro i h
    exact absurd h List.not_mem_nil
  | succ n ih =>
    intro i h
    rw [lastReads, List.mem_cons] at h
    rcases h with rfl | h
    · exact le_rfl
    · split at h
      · exact absurd h List.not_mem_nil
      · have hle := ih h
        omega

/-- The answer depends on the words looked at and on no others. -/
theorem firstFrom_congr {m m' : ℕ → BitVec w} :
    ∀ {n i : ℕ}, (∀ k ∈ firstReads m i n, m' k = m k) → firstFrom m' i n = firstFrom m i n := by
  intro n
  induction n with
  | zero =>
    intro i _
    rfl
  | succ n ih =>
    intro i h
    rw [firstReads] at h
    rw [firstFrom, firstFrom, h i List.mem_cons_self]
    by_cases hz : m i = 0#w
    · rw [if_neg (not_not.mpr hz), if_neg (not_not.mpr hz)]
      rw [if_neg (not_not.mpr hz)] at h
      exact ih fun k hk => h k (List.mem_cons_of_mem i hk)
    · rw [if_pos hz, if_pos hz]

theorem lastFrom_congr {m m' : ℕ → BitVec w} :
    ∀ {n i : ℕ}, (∀ k ∈ lastReads m i n, m' k = m k) → lastFrom m' i n = lastFrom m i n := by
  intro n
  induction n with
  | zero =>
    intro i _
    rfl
  | succ n ih =>
    intro i h
    rw [lastReads] at h
    rw [lastFrom, lastFrom, h i List.mem_cons_self]
    by_cases hz : m i = 0#w
    · rw [if_neg (not_not.mpr hz), if_neg (not_not.mpr hz)]
      rw [if_neg (not_not.mpr hz)] at h
      exact ih fun k hk => h k (List.mem_cons_of_mem i hk)
    · rw [if_pos hz, if_pos hz]

end WordMask
