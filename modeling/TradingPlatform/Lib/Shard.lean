/-
Work shared out by key.

Messages have keys, every key has an owner, and a message goes to the queue of the
owner of its key.  An owner takes one message after the other out of its queue and
is done with it some time later; only then does the state of the key change, as a
machine `M` says.  Owners take turns in any way.

* `shards M owner key` — this system;
* `Shards.exclusive` — two owners never work on one key at a time;
* `Shards.in_order` — what was done for a key, what is being done and what waits
  is what was taken for it, in this order;
* `Shards.sequential` — the state of a key is what `M` reaches with the messages
  done for it, one after the other;
* `Shards.run` — all this holds in every run;
* `Machine.Run.functional` — if a message determines what comes of it, the messages
  determine the run.
-/
import TradingPlatform.Lib.Machine
import Mathlib.Logic.Function.Basic

/-- A machine whose steps are determined by a part of their labels. -/
theorem Machine.Run.functional {σ ε β : Type*} {M : Machine σ (ε × β)}
    (hinit : ∀ s s', M.init s → M.init s' → s = s')
    (hstep : ∀ s e b b' s₁ s₂, M.step s (e, b) s₁ → M.step s (e, b') s₂ → b = b' ∧ s₁ = s₂)
    {es es' : List (ε × β)} {s s' : σ} (h : M.Run es s) (h' : M.Run es' s')
    (heq : es.map Prod.fst = es'.map Prod.fst) : es = es' ∧ s = s' := by
  induction h generalizing es' s' with
  | start hi =>
    cases h' with
    | start hi' => exact ⟨rfl, hinit _ _ hi hi'⟩
    | snoc _ _ => exact absurd heq (by simp)
  | @snoc es s e s₁ _ hs ih =>
    cases h' with
    | start _ => exact absurd heq (by simp)
    | @snoc es' s' e' s₁' hrun' hs' =>
      rw [List.map_append, List.map_append] at heq
      obtain ⟨hes, he⟩ := List.append_inj' heq rfl
      obtain ⟨rfl, rfl⟩ := ih hrun' hes
      obtain ⟨e, b⟩ := e
      obtain ⟨e', b'⟩ := e'
      obtain rfl : e = e' := List.singleton_inj.1 he
      obtain ⟨rfl, rfl⟩ := hstep _ _ _ _ _ _ hs hs'
      exact ⟨rfl, rfl⟩

/-- What owners and keys are at.  The last two fields are history: the messages
taken into a queue, and those done, with who did them and what came of it. -/
structure ShardState (ω κ ε β σ : Type*) where
  queue : ω → List ε
  busy : ω → Option ε
  state : κ → σ
  taken : List ε
  done : List (ω × ε × β)

/-- A message is posted, an owner takes one up, or is done with it. -/
inductive ShardAction (ω ε β : Type*)
  | post (e : ε)
  | begin (w : ω)
  | finish (w : ω) (b : β)

namespace ShardState

variable {ω κ ε β σ : Type*} [DecidableEq ω] [DecidableEq κ]

/-- The message goes into a queue. -/
def enqueue (s : ShardState ω κ ε β σ) (w : ω) (e : ε) : ShardState ω κ ε β σ :=
  { s with
    queue := Function.update s.queue w (s.queue w ++ [e])
    taken := s.taken ++ [e] }

/-- The first message is taken up, and `rest` is left. -/
def takeUp (s : ShardState ω κ ε β σ) (w : ω) (e : ε) (rest : List ε) : ShardState ω κ ε β σ :=
  { s with
    queue := Function.update s.queue w rest
    busy := Function.update s.busy w (some e) }

/-- The message is done, with `x` as the new state of its key. -/
def complete (s : ShardState ω κ ε β σ) (w : ω) (k : κ) (e : ε) (b : β) (x : σ) :
    ShardState ω κ ε β σ :=
  { s with
    busy := Function.update s.busy w none
    state := Function.update s.state k x
    done := s.done ++ [(w, e, b)] }

end ShardState

section

variable {ω κ ε β σ : Type*} [DecidableEq ω] [DecidableEq κ]

/-- The system.  A message that is posted may also be refused. -/
def shards (M : Machine σ (ε × β)) (owner : κ → ω) (key : ε → κ) :
    Machine (ShardState ω κ ε β σ) (ShardAction ω ε β) where
  init s := s.queue = (fun _ => []) ∧ s.busy = (fun _ => none) ∧ (∀ k, M.init (s.state k)) ∧
    s.taken = [] ∧ s.done = []
  step s a s' := match a with
    | .post e => s' = s.enqueue (owner (key e)) e ∨ s' = s
    | .begin w => s.busy w = none ∧ ∃ e rest, s.queue w = e :: rest ∧ s' = s.takeUp w e rest
    | .finish w b => ∃ e x, s.busy w = some e ∧ M.step (s.state (key e)) (e, b) x ∧
        s' = s.complete w (key e) e b x

/-- The messages done by `w`, in order. -/
def ShardState.doneBy (s : ShardState ω κ ε β σ) (w : ω) : List ε :=
  (s.done.filter fun x => x.1 = w).map fun x => x.2.1

/-- What was done for the key `k`, in order. -/
def ShardState.doneFor (s : ShardState ω κ ε β σ) (key : ε → κ) (k : κ) : List (ε × β) :=
  (s.done.filter fun x => key x.2.1 = k).map fun x => x.2

/-- The invariant of the system. -/
structure Shards (M : Machine σ (ε × β)) (owner : κ → ω) (key : ε → κ)
    (s : ShardState ω κ ε β σ) : Prop where
  queued : ∀ w, ∀ e ∈ s.queue w, owner (key e) = w
  working : ∀ w e, s.busy w = some e → owner (key e) = w
  done : ∀ x ∈ s.done, owner (key x.2.1) = x.1
  fifo : ∀ w, s.doneBy w ++ (s.busy w).toList ++ s.queue w =
    s.taken.filter fun e => owner (key e) = w
  sequential : ∀ k, M.Run (s.doneFor key k) (s.state k)

namespace Shards

variable {M : Machine σ (ε × β)} {owner : κ → ω} {key : ε → κ} {s s' : ShardState ω κ ε β σ}

theorem start (h : (shards M owner key).init s) : Shards M owner key s := by
  obtain ⟨hqueue, hbusy, hinit, htaken, hdone⟩ := h
  refine ⟨?_, ?_, ?_, ?_, ?_⟩
  · intro w e he
    rw [hqueue] at he
    exact absurd he List.not_mem_nil
  · intro w e he
    rw [hbusy] at he
    exact absurd he (Option.some_ne_none e).symm
  · intro x hx
    rw [hdone] at hx
    exact absurd hx List.not_mem_nil
  · intro w
    rw [ShardState.doneBy, hdone, hbusy, hqueue, htaken]
    rfl
  · intro k
    rw [ShardState.doneFor, hdone]
    exact .start (hinit k)

theorem enqueue (h : Shards M owner key s) (e : ε) :
    Shards M owner key (s.enqueue (owner (key e)) e) := by
  refine ⟨?_, h.working, h.done, ?_, h.sequential⟩
  · intro w e' he'
    by_cases hw : w = owner (key e)
    · subst hw
      simp only [ShardState.enqueue, Function.update_self, List.mem_append,
        List.mem_singleton] at he'
      rcases he' with he' | rfl
      · exact h.queued _ e' he'
      · rfl
    · simp only [ShardState.enqueue, Function.update_of_ne hw] at he'
      exact h.queued w e' he'
  · intro w
    have hold := h.fifo w
    by_cases hw : w = owner (key e)
    · subst hw
      simp only [ShardState.enqueue, Function.update_self, List.filter_append, ← hold]
      simp [ShardState.doneBy]
    · simp only [ShardState.enqueue, Function.update_of_ne hw, List.filter_append, ← hold]
      simp [ShardState.doneBy, Ne.symm hw]

theorem takeUp (h : Shards M owner key s) {w : ω} {e : ε} {rest : List ε}
    (hbusy : s.busy w = none) (hqueue : s.queue w = e :: rest) :
    Shards M owner key (s.takeUp w e rest) := by
  refine ⟨?_, ?_, h.done, ?_, h.sequential⟩
  · intro w' e' he'
    by_cases hw : w' = w
    · subst hw
      simp only [ShardState.takeUp, Function.update_self] at he'
      refine h.queued w' e' ?_
      rw [hqueue]
      exact List.mem_cons_of_mem e he'
    · simp only [ShardState.takeUp, Function.update_of_ne hw] at he'
      exact h.queued w' e' he'
  · intro w' e' he'
    by_cases hw : w' = w
    · subst hw
      simp only [ShardState.takeUp, Function.update_self, Option.some_inj] at he'
      subst he'
      refine h.queued w' e ?_
      rw [hqueue]
      exact List.mem_cons_self
    · simp only [ShardState.takeUp, Function.update_of_ne hw] at he'
      exact h.working w' e' he'
  · intro w'
    have hold := h.fifo w'
    by_cases hw : w' = w
    · subst hw
      rw [hbusy, hqueue] at hold
      simp only [ShardState.takeUp, Function.update_self, ← hold]
      simp [ShardState.doneBy]
    · simp only [ShardState.takeUp, Function.update_of_ne hw, ← hold]
      rfl

theorem complete (h : Shards M owner key s) {w : ω} {e : ε} {b : β} {x : σ}
    (hbusy : s.busy w = some e) (hstep : M.step (s.state (key e)) (e, b) x) :
    Shards M owner key (s.complete w (key e) e b x) := by
  refine ⟨h.queued, ?_, ?_, ?_, ?_⟩
  · intro w' e' he'
    by_cases hw : w' = w
    · subst hw
      simp only [ShardState.complete, Function.update_self] at he'
      exact absurd he' (Option.some_ne_none e').symm
    · simp only [ShardState.complete, Function.update_of_ne hw] at he'
      exact h.working w' e' he'
  · intro y hy
    simp only [ShardState.complete, List.mem_append, List.mem_singleton] at hy
    rcases hy with hy | rfl
    · exact h.done y hy
    · exact h.working w e hbusy
  · intro w'
    have hold := h.fifo w'
    by_cases hw : w' = w
    · subst hw
      rw [hbusy] at hold
      simp only [ShardState.complete, Function.update_self, ShardState.doneBy, List.filter_append,
        List.map_append, ← hold]
      simp
    · simp only [ShardState.complete, Function.update_of_ne hw, ShardState.doneBy,
        List.filter_append, List.map_append, ← hold]
      simp [Ne.symm hw]
  · intro k
    have hold := h.sequential k
    by_cases hk : k = key e
    · subst hk
      simp only [ShardState.complete, Function.update_self, ShardState.doneFor,
        List.filter_append, List.map_append]
      simpa [ShardState.doneFor] using hold.snoc hstep
    · simp only [ShardState.complete, Function.update_of_ne hk, ShardState.doneFor,
        List.filter_append, List.map_append]
      simpa [ShardState.doneFor, Ne.symm hk] using hold

theorem step (h : Shards M owner key s) {a : ShardAction ω ε β}
    (hs : (shards M owner key).step s a s') : Shards M owner key s' := by
  cases a with
  | post e =>
    rcases hs with rfl | rfl
    · exact h.enqueue e
    · exact h
  | begin w =>
    obtain ⟨hbusy, e, rest, hqueue, rfl⟩ := hs
    exact h.takeUp hbusy hqueue
  | finish w b =>
    obtain ⟨e, x, hbusy, hstep, rfl⟩ := hs
    exact h.complete hbusy hstep

theorem run {as : List (ShardAction ω ε β)} (h : (shards M owner key).Run as s) :
    Shards M owner key s :=
  h.invariant (fun _ => start) fun _ _ _ h hs => h.step hs

/-! ### Keys -/

/-- Two owners never work on one key at a time. -/
theorem exclusive (h : Shards M owner key s) {w w' : ω} {e e' : ε} (he : s.busy w = some e)
    (he' : s.busy w' = some e') (hkey : key e = key e') : w = w' := by
  rw [← h.working w e he, ← h.working w' e' he', hkey]

/-- What was done for a key, what is being done and what waits is what was taken
for it, in this order. -/
theorem in_order (h : Shards M owner key s) (k : κ) :
    (s.doneFor key k).map Prod.fst ++
      ((s.busy (owner k)).toList ++ s.queue (owner k)).filter (fun e => key e = k) =
      s.taken.filter fun e => key e = k := by
  have hfifo := congrArg (List.filter fun e => key e = k) (h.fifo (owner k))
  have hdone : (s.doneBy (owner k)).filter (fun e => key e = k) =
      (s.doneFor key k).map Prod.fst := by
    rw [ShardState.doneBy, ShardState.doneFor, List.filter_map, List.map_map, List.filter_filter]
    refine congrArg₂ _ rfl (List.filter_congr fun x hx => ?_)
    by_cases hk : key x.2.1 = k
    · have hw : x.1 = owner k := by rw [← h.done x hx, hk]
      simp [hk, hw]
    · simp [hk]
  have htaken : (s.taken.filter fun e => owner (key e) = owner k).filter (fun e => key e = k) =
      s.taken.filter fun e => key e = k := by
    rw [List.filter_filter]
    refine List.filter_congr fun e _ => ?_
    by_cases hk : key e = k
    · simp [hk]
    · simp [hk]
  rw [List.append_assoc, List.filter_append, hdone, htaken] at hfifo
  exact hfifo

/-- Once nothing of a key waits or is being done, its state is what the messages
taken for it lead to, one after the other. -/
theorem drained (h : Shards M owner key s) {k : κ}
    (hidle : ((s.busy (owner k)).toList ++ s.queue (owner k)).filter (fun e => key e = k) = []) :
    ∃ es : List (ε × β), es.map Prod.fst = s.taken.filter (fun e => key e = k) ∧
      M.Run es (s.state k) := by
  refine ⟨s.doneFor key k, ?_, h.sequential k⟩
  have hall := h.in_order k
  rw [hidle, List.append_nil] at hall
  exact hall

end Shards

end
