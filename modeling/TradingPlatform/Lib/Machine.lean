/-
Labelled machines, their runs, invariants and simulations.

A `Machine σ ε` has initial states and labelled steps.  `M.Run es s` says that
the labels `es`, in this order, lead from an initial state to `s`; runs grow at
their end, so every state a run passes through is itself the end of a run.

* `Machine.Run.step_at`, `Machine.Run.step_of_map` — every label of a run belongs
  to a step;
* `Machine.restrict` keeps the steps whose label satisfies a guard in the
  state they start from;
* `Machine.Run.invariant` — what holds initially and survives every step holds
  at the end of every run;
* `Machine.Simulation.run` — a step-by-step simulation maps runs to runs with
  the same labels;
* `Machine.Run.exec` — running a function that computes steps gives a run, and
  `Machine.exists_run` finds a run by computing it;
* `Machine.ofFun` — a machine whose steps are computed by a function.
-/
import Mathlib.Tactic.Common

/-- A labelled transition system with its initial states. -/
structure Machine (σ ε : Type*) where
  init : σ → Prop
  step : σ → ε → σ → Prop

namespace Machine

variable {σ τ ε : Type*} {M : Machine σ ε} {A : Machine τ ε}

/-- `M.Run es s`: the labels `es` lead from an initial state to `s`. -/
inductive Run (M : Machine σ ε) : List ε → σ → Prop
  | start {s : σ} : M.init s → Run M [] s
  | snoc {es : List ε} {s : σ} {e : ε} {s' : σ} :
      Run M es s → M.step s e s' → Run M (es ++ [e]) s'

/-- Every label of a run is that of a step from the end of a shorter run. -/
theorem Run.step_at {pre post : List ε} {e : ε} {s : σ} (h : M.Run (pre ++ e :: post) s) :
    ∃ s₁ s₂, M.Run pre s₁ ∧ M.step s₁ e s₂ := by
  generalize hes : pre ++ e :: post = es at h
  induction h generalizing post with
  | start _ => exact absurd hes (by simp)
  | snoc hrun hs ih =>
    rcases List.eq_nil_or_concat post with rfl | ⟨post', e', rfl⟩
    · obtain ⟨rfl, he⟩ := List.append_inj' hes rfl
      obtain rfl := List.singleton_inj.1 he
      exact ⟨_, _, hrun, hs⟩
    · rw [List.concat_eq_append, ← List.cons_append, ← List.append_assoc] at hes
      exact ih (List.append_inj' hes rfl).1

/-- The same for labels seen through `f`. -/
theorem Run.step_of_map {β : Type*} {f : ε → β} {es : List ε} {pre post : List β} {b : β} {s : σ}
    (h : M.Run es s) (hes : es.map f = pre ++ b :: post) :
    ∃ es₁ e s₁ s₂, es₁.map f = pre ∧ f e = b ∧ M.Run es₁ s₁ ∧ M.step s₁ e s₂ := by
  obtain ⟨es₁, es₂, rfl, hpre, hpost⟩ := List.map_eq_append_iff.1 hes
  obtain ⟨e, es₃, rfl, he, _⟩ := List.map_eq_cons_iff.1 hpost
  obtain ⟨s₁, s₂, hrun, hs⟩ := h.step_at
  exact ⟨es₁, e, s₁, s₂, hpre, he, hrun, hs⟩

/-- The steps of `M` whose label is allowed by `G` in the state they start from. -/
def restrict (M : Machine σ ε) (G : σ → ε → Prop) : Machine σ ε where
  init := M.init
  step s e s' := G s e ∧ M.step s e s'

theorem Run.invariant {I : σ → Prop} (h0 : ∀ s, M.init s → I s)
    (hstep : ∀ s e s', I s → M.step s e s' → I s') {es : List ε} {s : σ}
    (h : M.Run es s) : I s := by
  induction h with
  | start hi => exact h0 _ hi
  | snoc _ hs ih => exact hstep _ _ _ ih hs

/-- Every run of a restricted machine is a run of the machine. -/
theorem Run.of_restrict {G : σ → ε → Prop} {es : List ε} {s : σ}
    (h : (M.restrict G).Run es s) : M.Run es s := by
  induction h with
  | start hi => exact .start hi
  | snoc _ hs ih => exact .snoc ih hs.2

/-- A run under a guard is a run under every weaker one. -/
theorem Run.restrict_mono {G G' : σ → ε → Prop} (hG : ∀ s e, G s e → G' s e) {es : List ε}
    {s : σ} (h : (M.restrict G).Run es s) : (M.restrict G').Run es s := by
  induction h with
  | start hi => exact .start hi
  | snoc _ hs ih => exact .snoc ih ⟨hG _ _ hs.1, hs.2⟩

/-- `R` relates the states of `M` to states of `A` that can follow every step. -/
structure Simulation (M : Machine σ ε) (A : Machine τ ε) (R : σ → τ → Prop) : Prop where
  init : ∀ s, M.init s → ∃ t, A.init t ∧ R s t
  step : ∀ s e s' t, R s t → M.step s e s' → ∃ t', A.step t e t' ∧ R s' t'

theorem Simulation.run {R : σ → τ → Prop} (hR : Simulation M A R) {es : List ε} {s : σ}
    (h : M.Run es s) : ∃ t, A.Run es t ∧ R s t := by
  induction h with
  | start hi =>
    obtain ⟨t, ht, hr⟩ := hR.init _ hi
    exact ⟨t, .start ht, hr⟩
  | snoc _ hs ih =>
    obtain ⟨t, ht, hr⟩ := ih
    obtain ⟨t', ht', hr'⟩ := hR.step _ _ _ _ hr hs
    exact ⟨t', .snoc ht ht', hr'⟩

/-! ### Steps computed by a function -/

/-- Performing a list of labels one after the other. -/
def exec (f : σ → ε → Option σ) : σ → List ε → Option σ
  | s, [] => some s
  | s, e :: es => (f s e).bind fun s' => exec f s' es

/-- What `exec` computes is the end of a run, if `f` computes steps. -/
theorem Run.exec {f : σ → ε → Option σ} (hf : ∀ {s e s'}, f s e = some s' → M.step s e s')
    {pre es : List ε} {s s' : σ} (h : M.Run pre s) (he : Machine.exec f s es = some s') :
    M.Run (pre ++ es) s' := by
  induction es generalizing pre s with
  | nil =>
    rw [Machine.exec, Option.some_inj] at he
    subst he
    rw [List.append_nil]
    exact h
  | cons e es ih =>
    rw [Machine.exec, Option.bind_eq_some_iff] at he
    obtain ⟨t, ht, he⟩ := he
    rw [List.append_cons]
    exact ih (.snoc h (hf ht)) he

/-- A run whose end passes a test, found by computing it. -/
theorem exists_run {f : σ → ε → Option σ} (hf : ∀ {s e s'}, f s e = some s' → M.step s e s')
    {s₀ : σ} (h0 : M.init s₀) (es : List ε) (p : σ → Bool)
    (h : (Machine.exec f s₀ es).any p = true) : ∃ s, M.Run es s ∧ p s = true := by
  rw [Option.any_eq_true] at h
  obtain ⟨s, hs, hp⟩ := h
  exact ⟨s, (Run.start h0).exec hf hs, hp⟩

/-- `f`, where the guard allows it. -/
def guarded (G : σ → ε → Prop) [∀ s e, Decidable (G s e)] (f : σ → ε → Option σ) :
    σ → ε → Option σ :=
  fun s e => if G s e then f s e else none

theorem restrict_step_of_guarded {G : σ → ε → Prop} [∀ s e, Decidable (G s e)]
    {f : σ → ε → Option σ} (hf : ∀ {s e s'}, f s e = some s' → M.step s e s') {s s' : σ} {e : ε}
    (h : guarded G f s e = some s') : (M.restrict G).step s e s' := by
  rw [guarded] at h
  split at h
  · next hg => exact ⟨hg, hf h⟩
  · exact absurd h (by simp)

/-- The machine with one initial state whose steps are given by `f`; a label
`f` does not answer to is not enabled. -/
def ofFun (s₀ : σ) (f : σ → ε → Option σ) : Machine σ ε where
  init s := s = s₀
  step s e s' := f s e = some s'

end Machine
