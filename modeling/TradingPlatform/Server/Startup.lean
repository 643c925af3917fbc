/-
Starting the server (`server/src/control_center.hpp`, `server/src/events.hpp`,
`Coordinator::startWorkers`, `OrderGateway::start`, `LfqRunner::run`).

Every matching worker calls back when its thread runs, and the last of them reports
that the coordinator is ready; the gateway's worker and the calibration of the clock
report for themselves.  The control center collects the reports in a mask and starts the
network server when everything inside is ready.

* `Startup` — the workers, the counter they share, the reports in the system queue and
  the mask;
* `Startup.Inv` — every component reports once, and what the mask stands for;
* `ipc_starts_once` — in whatever order threads get there, the network server is
  started at most once, not before every worker runs, and it is started.

A worker adds to the counter and reports in two steps.  A thread that fails to start
never calls back; this is one that takes no further step.
-/
import TradingPlatform.Lib.Machine
import Mathlib.Algebra.Group.Nat.Defs
import Mathlib.Data.List.Nodup
import Mathlib.Data.List.Perm.Subperm
import Mathlib.Data.List.Range
import Mathlib.Logic.Function.Basic

/-- `server::Component`. -/
inductive Component
  | Coordinator
  | Gateway
  | Ipc
  | Time
deriving DecidableEq, Repr

/-- The value of the enumerator. -/
def Component.bit : Component → UInt8
  | .Coordinator => 1
  | .Gateway => 2
  | .Ipc => 4
  | .Time => 8

/-- `INTERNAL_READY`. -/
def internalReady : UInt8 := Component.bit .Coordinator ||| Component.bit .Gateway |||
  Component.bit .Time

/-- Where a worker is in the callback of `startWorkers`; `old` is what `fetch_add`
returned. -/
inductive CallbackPc
  | idle
  | counted (old : ℕ)
  | ready
deriving DecidableEq, Repr

/-- What starts.  `order` and `handled` are history: the workers in the order in which
they were counted, and the reports that were handled. -/
structure Startup where
  pc : ℕ → CallbackPc
  startCounter : ℕ
  gatewayUp : Bool
  timeUp : Bool
  queue : List Component
  readyMask : UInt8
  ipcStarts : ℕ
  ipcReports : ℕ
  order : List ℕ
  handled : List Component

inductive StartupAction
  | count (w : ℕ)
  | report (w : ℕ)
  | gateway
  | time
  | ipc
  | handle
deriving DecidableEq, Repr

namespace Startup

def start : Startup := ⟨fun _ => .idle, 0, false, false, [], 0, 0, 0, [], []⟩

/-- `ctx_.bus.post(ComponentReady{c})`. -/
def busPost (s : Startup) (c : Component) : Startup := { s with queue := s.queue ++ [c] }

/-- `post(CRef<ComponentReady>)`. -/
def post (s : Startup) (c : Component) : Startup :=
  let mask := s.readyMask ||| c.bit
  { s with
    readyMask := mask
    ipcStarts := if mask = internalReady then s.ipcStarts + 1 else s.ipcStarts
    handled := s.handled ++ [c] }

/-- One step, with `n` workers. -/
def act (n : ℕ) (s : Startup) : StartupAction → Option Startup
  | .count w =>
    if w < n ∧ s.pc w = .idle then
      some { s with
        pc := Function.update s.pc w (.counted s.startCounter)
        -- `AtomicUInt32`
        startCounter := (s.startCounter + 1) % 2 ^ 32
        order := s.order ++ [w] }
    else none
  | .report w =>
    match s.pc w with
    | .counted old =>
      let s := { s with pc := Function.update s.pc w .ready }
      some (if (old + 1) % 2 ^ 32 = n then s.busPost .Coordinator else s)
    | _ => none
  | .gateway =>
    if s.gatewayUp then none else some ({ s with gatewayUp := true }.busPost .Gateway)
  | .time => if s.timeUp then none else some ({ s with timeUp := true }.busPost .Time)
  | .ipc =>
    -- the thread of the network server, once for each start
    if s.ipcReports < s.ipcStarts then
      some ({ s with ipcReports := s.ipcReports + 1 }.busPost .Ipc)
    else none
  | .handle =>
    match s.queue with
    | c :: rest => some ({ s with queue := rest }.post c)
    | [] => none

end Startup

/-- Every order in which threads get there. -/
def startup (n : ℕ) : Machine Startup StartupAction := .ofFun .start (Startup.act n)

namespace Startup

/-! ### The mask -/

/-- The bits of the components in a list. -/
def maskOf (l : List Component) : UInt8 := l.foldl (fun mask c => mask ||| c.bit) 0

theorem maskOf_snoc (l : List Component) (c : Component) :
    maskOf (l ++ [c]) = maskOf l ||| c.bit := by
  rw [maskOf, List.foldl_append]
  rfl

/-- A mask, bit by bit. -/
def bits (coordinator gateway ipc time : Bool) : UInt8 :=
  (if coordinator then Component.bit .Coordinator else 0) |||
    (if gateway then Component.bit .Gateway else 0) |||
    (if ipc then Component.bit .Ipc else 0) ||| (if time then Component.bit .Time else 0)

theorem bits_or (a b c d : Bool) (x : Component) :
    bits a b c d ||| x.bit =
      bits (a || x == .Coordinator) (b || x == .Gateway) (c || x == .Ipc) (d || x == .Time) := by
  revert a b c d
  cases x with
  | _ => decide

theorem maskOf_eq (l : List Component) :
    maskOf l = bits (.Coordinator ∈ l) (.Gateway ∈ l) (.Ipc ∈ l) (.Time ∈ l) := by
  induction l using List.reverseRecOn with
  | nil => rfl
  | append_singleton l c ih =>
    rw [maskOf_snoc, ih, bits_or]
    have hmem : ∀ x : Component, (decide (x ∈ l) || c == x) = decide (x ∈ l ++ [c]) := by
      intro x
      by_cases hc : c = x
      · simp [hc]
      · simp [hc, Ne.symm hc]
    rw [hmem, hmem, hmem, hmem]

/-- When the network server is started. -/
theorem maskOf_eq_internalReady {l : List Component} : maskOf l = internalReady ↔
    .Coordinator ∈ l ∧ .Gateway ∈ l ∧ .Time ∈ l ∧ .Ipc ∉ l := by
  have hbits : ∀ a b c d : Bool, bits a b c d = internalReady ↔
      a = true ∧ b = true ∧ d = true ∧ c = false := by decide
  rw [maskOf_eq, hbits]
  simp

/-! ### Every component reports once -/

/-- The reports made, in the order in which they were posted. -/
def reported (s : Startup) : List Component := s.handled ++ s.queue

/-- Everything inside has reported in `l`. -/
def Ready (l : List Component) : Prop := .Coordinator ∈ l ∧ .Gateway ∈ l ∧ .Time ∈ l

/-- The workers are counted once each, and the one counted last reports for the
coordinator. -/
structure Counted (n : ℕ) (s : Startup) : Prop where
  counter : s.startCounter = s.order.length
  nodup : s.order.Nodup
  lt : ∀ w ∈ s.order, w < n
  idle : ∀ w, s.pc w = .idle ↔ w ∉ s.order
  counted : ∀ w old, s.pc w = .counted old → s.order[old]? = some w

/-- What a component reports. -/
def Up (n : ℕ) (s : Startup) : Component → Prop
  | .Coordinator => ∃ w, s.order[n - 1]? = some w ∧ s.pc w = .ready
  | .Gateway => s.gatewayUp = true
  | .Ipc => 1 ≤ s.ipcReports
  | .Time => s.timeUp = true

/-- Who has reported, and what was made of it. -/
structure Reported (n : ℕ) (s : Startup) : Prop where
  once : s.reported.Nodup
  up : ∀ c, c ∈ s.reported ↔ s.Up n c
  reports : s.ipcReports ≤ s.ipcStarts
  mask : s.readyMask = maskOf s.handled
  starts_le : s.ipcStarts ≤ 1
  starts : 1 ≤ s.ipcStarts ↔ Ready s.handled

variable {n w : ℕ} {s s' : Startup} {c : Component}

/-- Different workers are no more than there are workers. -/
theorem length_le_of_nodup {l : List ℕ} (hnodup : l.Nodup) (hlt : ∀ w ∈ l, w < n) :
    l.length ≤ n := by
  have hsub : l ⊆ List.range n := by
    intro w hw
    exact List.mem_range.2 (hlt w hw)
  have hle := List.Nodup.length_le_of_subset hnodup hsub
  rwa [List.length_range] at hle

/-- `n` different workers are all of them. -/
theorem Counted.mem_order (h : Counted n s) (hlen : n ≤ s.order.length) (hw : w < n) :
    w ∈ s.order := by
  have hsub : s.order ⊆ List.range n := by
    intro v hv
    exact List.mem_range.2 (h.lt v hv)
  have hle : (List.range n).length ≤ s.order.length := by
    rw [List.length_range]
    exact hlen
  have hperm := (List.subperm_of_subset h.nodup hsub).perm_of_length_le hle
  exact hperm.mem_iff.2 (List.mem_range.2 hw)

/-! ### One step -/

/-- A thread is counted: the counter cannot wrap. -/
theorem Counted.count (h : Counted n s) (hn : n < 2 ^ 32) (hw : w < n) (hidle : s.pc w = .idle) :
    s.order.length < n ∧ Counted n { s with
      pc := Function.update s.pc w (.counted s.startCounter)
      startCounter := (s.startCounter + 1) % 2 ^ 32
      order := s.order ++ [w] } := by
  have hnew : w ∉ s.order := (h.idle w).1 hidle
  have hnodup : (s.order ++ [w]).Nodup :=
    List.nodup_append.2 ⟨h.nodup, List.nodup_singleton w, by grind⟩
  have hlt : ∀ v ∈ s.order ++ [w], v < n := by
    intro v hv
    rw [List.mem_append, List.mem_singleton] at hv
    rcases hv with hv | rfl
    · exact h.lt v hv
    · exact hw
  have hlen : (s.order ++ [w]).length = s.order.length + 1 := by simp
  have hle := length_le_of_nodup hnodup hlt
  refine ⟨by omega, ?_, hnodup, hlt, ?_, ?_⟩
  · change (s.startCounter + 1) % 2 ^ 32 = (s.order ++ [w]).length
    rw [h.counter, Nat.mod_eq_of_lt (by omega), hlen]
  · intro v
    by_cases hv : v = w
    · subst hv
      simp
    · simp [hv, h.idle v]
  · intro v old hv
    by_cases hvw : v = w
    · subst hvw
      change Function.update s.pc v _ v = _ at hv
      rw [Function.update_self, CallbackPc.counted.injEq, h.counter] at hv
      rw [← hv, List.getElem?_append_right (Nat.le_refl _), Nat.sub_self]
      simp
    · change Function.update s.pc w _ v = _ at hv
      rw [Function.update_of_ne hvw] at hv
      have hold := h.counted v old hv
      rw [List.getElem?_append_left (List.getElem?_eq_some_iff.1 hold).1]
      exact hold

/-- A thread that was counted goes on. -/
theorem Counted.report (h : Counted n s) {old : ℕ} (hw : s.pc w = .counted old) :
    Counted n { s with pc := Function.update s.pc w .ready } := by
  refine ⟨h.counter, h.nodup, h.lt, ?_, ?_⟩
  · intro v
    by_cases hv : v = w
    · subst hv
      have hmem : v ∈ s.order := List.mem_of_getElem? (h.counted v old hw)
      simp [hmem]
    · simp [hv, h.idle v]
  · intro v k hv
    by_cases hvw : v = w
    · subst hvw
      change Function.update s.pc v _ v = _ at hv
      rw [Function.update_self] at hv
      exact absurd hv (by simp)
    · change Function.update s.pc w _ v = _ at hv
      rw [Function.update_of_ne hvw] at hv
      exact h.counted v k hv

/-- The place of a worker among those counted is what `fetch_add` returned to it. -/
theorem Counted.place (h : Counted n s) {old i : ℕ} (hw : s.pc w = .counted old)
    (hi : s.order[i]? = some w) : i = old := by
  have hold := h.counted w old hw
  exact (List.getElem?_inj (List.getElem?_eq_some_iff.1 hi).1 h.nodup).1 (hi.trans hold.symm)

/-- What a component reports when it gets there. -/
theorem Reported.busPost (h : Reported n s) (hnew : ¬ s.Up n c) (hup : s'.Up n c)
    (hother : ∀ x, x ≠ c → (s'.Up n x ↔ s.Up n x)) (hq : s'.queue = s.queue ++ [c])
    (hhandled : s'.handled = s.handled) (hmask : s'.readyMask = s.readyMask)
    (hstarts : s'.ipcStarts = s.ipcStarts) (hreports : s'.ipcReports ≤ s'.ipcStarts) :
    Reported n s' := by
  have hrep : s'.reported = s.reported ++ [c] := by
    rw [reported, hq, hhandled, ← List.append_assoc]
    rfl
  have hc : c ∉ s.reported := fun hin => hnew ((h.up c).1 hin)
  refine ⟨?_, ?_, hreports, ?_, ?_, ?_⟩
  · rw [hrep]
    exact List.nodup_append.2 ⟨h.once, List.nodup_singleton c, by grind⟩
  · intro x
    rw [hrep, List.mem_append, List.mem_singleton, h.up]
    by_cases hx : x = c
    · subst hx
      exact iff_of_true (.inr rfl) hup
    · rw [hother x hx]
      exact or_iff_left hx
  · rw [hmask, hhandled, h.mask]
  · rw [hstarts]
    exact h.starts_le
  · rw [hstarts, hhandled]
    exact h.starts

/-- A thread that is counted does not report for the coordinator yet. -/
theorem Reported.count (h : Reported n s) (hlen : s.order.length < n) :
    Reported n { s with
      pc := Function.update s.pc w (.counted s.startCounter)
      startCounter := (s.startCounter + 1) % 2 ^ 32
      order := s.order ++ [w] } := by
  refine { h with up := fun c => (h.up c).trans ?_ }
  cases c with
  | Gateway | Ipc | Time => exact Iff.rfl
  | Coordinator =>
    constructor
    · rintro ⟨v, hv, -⟩
      have hlast := (List.getElem?_eq_some_iff.1 hv).1
      omega
    · rintro ⟨v, hv, hready⟩
      change (s.order ++ [w])[n - 1]? = some v at hv
      rw [List.getElem?_append_right (by omega)] at hv
      obtain rfl : v = w := by simpa using List.mem_of_getElem? hv
      change Function.update s.pc v _ v = .ready at hready
      rw [Function.update_self] at hready
      exact absurd hready (by simp)

/-- Only the thread counted last reports for the coordinator. -/
theorem Reported.report (h : Reported n s) (hc : Counted n s) (h1 : 1 ≤ n) (hn : n < 2 ^ 32)
    {old : ℕ} (hw : s.pc w = .counted old) :
    Reported n (if (old + 1) % 2 ^ 32 = n
      then { s with pc := Function.update s.pc w .ready }.busPost .Coordinator
      else { s with pc := Function.update s.pc w .ready }) := by
  have hplace := hc.counted w old hw
  have hold : old < n :=
    ((List.getElem?_eq_some_iff.1 hplace).1).trans_le (length_le_of_nodup hc.nodup hc.lt)
  rw [Nat.mod_eq_of_lt (by omega : old + 1 < 2 ^ 32)]
  split
  · next hlast =>
    have hn1 : s.order[n - 1]? = some w := by
      rw [← hlast, Nat.add_sub_cancel]
      exact hplace
    refine h.busPost (c := .Coordinator) ?_ ⟨w, hn1, Function.update_self ..⟩ ?_ rfl rfl rfl rfl
      h.reports
    · rintro ⟨v, hv, hready⟩
      rw [hn1, Option.some_inj] at hv
      rw [← hv, hw] at hready
      exact absurd hready (by simp)
    · intro x hx
      cases x with
      | Coordinator => exact absurd rfl hx
      | Gateway | Ipc | Time => exact Iff.rfl
  · next hlast =>
    have hne : ∀ v, s.order[n - 1]? = some v → v ≠ w := by
      intro v hv hvw
      rw [hvw] at hv
      have := hc.place hw hv
      omega
    refine { h with up := fun c => (h.up c).trans ?_ }
    cases c with
    | Gateway | Ipc | Time => exact Iff.rfl
    | Coordinator =>
      constructor
      · rintro ⟨v, hv, hready⟩
        exact ⟨v, hv, (Function.update_of_ne (hne v hv) ..).trans hready⟩
      · rintro ⟨v, hv, hready⟩
        exact ⟨v, hv, (Function.update_of_ne (hne v hv) ..).symm.trans hready⟩

/-- A report completes the mask at most once: the network server reports only after it
was started. -/
theorem Reported.starts_post (h : Reported n s) (hc : c ∉ s.handled)
    (hsub : ∀ x ∈ s.handled ++ [c], x ∈ s.reported) {starts : ℕ}
    (hstarts : starts = if maskOf (s.handled ++ [c]) = internalReady then s.ipcStarts + 1
      else s.ipcStarts) :
    s.ipcStarts ≤ starts ∧ starts ≤ 1 ∧ (1 ≤ starts ↔ Ready (s.handled ++ [c])) := by
  by_cases hready : Ready s.handled
  · have hone : s.ipcStarts = 1 := Nat.le_antisymm h.starts_le (h.starts.2 hready)
    have hipc : c = .Ipc := by
      obtain ⟨h1, h2, h3⟩ := hready
      cases c with
      | Ipc => rfl
      | Coordinator | Gateway | Time => contradiction
    have hmask : maskOf (s.handled ++ [c]) ≠ internalReady := by
      intro heq
      exact (maskOf_eq_internalReady.1 heq).2.2.2 (by simp [hipc])
    rw [if_neg hmask, hone] at hstarts
    obtain ⟨h1, h2, h3⟩ := hready
    have hready' : Ready (s.handled ++ [c]) :=
      ⟨List.mem_append_left _ h1, List.mem_append_left _ h2, List.mem_append_left _ h3⟩
    exact ⟨by omega, by omega, iff_of_true (by omega) hready'⟩
  · have hzero : s.ipcStarts = 0 := by
      by_contra hne
      exact hready (h.starts.1 (Nat.one_le_iff_ne_zero.2 hne))
    have hipc : Component.Ipc ∉ s.handled ++ [c] := by
      intro hin
      have hup : 1 ≤ s.ipcReports := (h.up .Ipc).1 (hsub _ hin)
      have := h.reports
      omega
    have hmask : maskOf (s.handled ++ [c]) = internalReady ↔ Ready (s.handled ++ [c]) := by
      rw [maskOf_eq_internalReady]
      constructor
      · intro ⟨h1, h2, h3, _⟩
        exact ⟨h1, h2, h3⟩
      · intro ⟨h1, h2, h3⟩
        exact ⟨h1, h2, h3, hipc⟩
    rw [← hmask, hstarts, hzero]
    split
    · next hm => exact ⟨by omega, by omega, iff_of_true (by omega) hm⟩
    · next hm => exact ⟨by omega, by omega, iff_of_false (by omega) hm⟩

theorem Reported.handle (h : Reported n s) {rest : List Component} (hq : s.queue = c :: rest) :
    Reported n ({ s with queue := rest }.post c) := by
  have hrep : s.handled ++ [c] ++ rest = s.reported := by
    rw [reported, hq, List.append_assoc, List.singleton_append]
  have hc : c ∉ s.handled := by
    have honce := h.once
    rw [← hrep, List.append_assoc] at honce
    intro hin
    exact (List.nodup_append.1 honce).2.2 c hin c (by simp) rfl
  have hsub : ∀ x ∈ s.handled ++ [c], x ∈ s.reported := by
    intro x hx
    rw [← hrep]
    exact List.mem_append_left _ hx
  have hmask : s.readyMask ||| c.bit = maskOf (s.handled ++ [c]) := by
    rw [h.mask, maskOf_snoc]
  have hup : ∀ x, s.Up n x ↔ ({ s with queue := rest }.post c).Up n x := by
    intro x
    cases x with
    | _ => exact Iff.rfl
  obtain ⟨hle, hle1, hready⟩ := h.starts_post hc hsub rfl
  rw [← hmask] at hle hle1 hready
  exact {
    once := (hrep ▸ h.once : (s.handled ++ [c] ++ rest).Nodup)
    up := fun x => (by rw [← hrep]; exact Iff.rfl : _ ↔ x ∈ s.reported).trans
      ((h.up x).trans (hup x))
    reports := h.reports.trans hle
    mask := hmask
    starts_le := hle1
    starts := hready }

/-! ### Every order -/

/-- What every order of steps keeps. -/
structure Inv (n : ℕ) (s : Startup) : Prop extends Counted n s, Reported n s

theorem Inv.start (n : ℕ) : Inv n .start where
  counter := rfl
  nodup := List.nodup_nil
  lt := by simp [Startup.start]
  idle := by simp [Startup.start]
  counted := by simp [Startup.start]
  once := List.nodup_nil
  up c := by cases c <;> simp [reported, Up, Startup.start]
  reports := Nat.le_refl _
  mask := rfl
  starts_le := Nat.zero_le _
  starts := by simp [Ready, Startup.start]

theorem Inv.act (h : Inv n s) (h1 : 1 ≤ n) (hn : n < 2 ^ 32) {a : StartupAction}
    (hs : s.act n a = some s') : Inv n s' := by
  cases a with
  | count w =>
    rw [Startup.act, Option.ite_none_right_eq_some, Option.some_inj] at hs
    obtain ⟨⟨hw, hidle⟩, rfl⟩ := hs
    obtain ⟨hlen, hcounted⟩ := h.toCounted.count hn hw hidle
    exact ⟨hcounted, h.toReported.count hlen⟩
  | report w =>
    rw [Startup.act] at hs
    split at hs
    · next old hw =>
      rw [Option.some_inj] at hs
      subst hs
      refine ⟨?_, h.toReported.report h.toCounted h1 hn hw⟩
      split
      · exact { h.toCounted.report hw with }
      · exact h.toCounted.report hw
    · exact absurd hs (by simp)
  | gateway =>
    rw [Startup.act, Option.ite_none_left_eq_some, Option.some_inj] at hs
    obtain ⟨hdown, rfl⟩ := hs
    refine ⟨{ h.toCounted with }, h.toReported.busPost (c := .Gateway) hdown rfl ?_ rfl rfl rfl rfl
      h.reports⟩
    intro x hx
    cases x with
    | Gateway => exact absurd rfl hx
    | Coordinator | Ipc | Time => exact Iff.rfl
  | time =>
    rw [Startup.act, Option.ite_none_left_eq_some, Option.some_inj] at hs
    obtain ⟨hdown, rfl⟩ := hs
    refine ⟨{ h.toCounted with }, h.toReported.busPost (c := .Time) hdown rfl ?_ rfl rfl rfl rfl
      h.reports⟩
    intro x hx
    cases x with
    | Time => exact absurd rfl hx
    | Coordinator | Gateway | Ipc => exact Iff.rfl
  | ipc =>
    rw [Startup.act, Option.ite_none_right_eq_some, Option.some_inj] at hs
    obtain ⟨hlt, rfl⟩ := hs
    have hle := h.starts_le
    refine ⟨{ h.toCounted with }, h.toReported.busPost (c := .Ipc) ?_ (Nat.succ_pos _) ?_ rfl rfl
      rfl rfl hlt⟩
    · change ¬ 1 ≤ s.ipcReports
      omega
    · intro x hx
      cases x with
      | Ipc => exact absurd rfl hx
      | Coordinator | Gateway | Time => exact Iff.rfl
  | handle =>
    rw [Startup.act] at hs
    split at hs
    · next c rest hq =>
      rw [Option.some_inj] at hs
      subst hs
      exact ⟨{ h.toCounted with }, h.toReported.handle hq⟩
    · exact absurd hs (by simp)

theorem Inv.run (h1 : 1 ≤ n) (hn : n < 2 ^ 32) {as : List StartupAction}
    (hr : (startup n).Run as s) : Inv n s :=
  hr.invariant (fun _ hi => hi ▸ Inv.start n) (fun _ _ _ h hs => h.act h1 hn hs)

/-- Whatever the order in which the threads of `n` workers, the gateway, the clock and
the network server get there: the network server is started at most once; when it is
started every worker has been counted and the gateway and the clock are up; and once all
of them have called back and the queue is empty it has been started. -/
theorem ipc_starts_once (n : ℕ) (h1 : 1 ≤ n) (hn : n < 2 ^ 32) (as : List StartupAction)
    (s : Startup) (hr : (startup n).Run as s) :
    s.ipcStarts ≤ 1 ∧
    (s.ipcStarts = 1 → (∀ w < n, s.pc w ≠ .idle) ∧ s.gatewayUp = true ∧ s.timeUp = true) ∧
    ((∀ w < n, s.pc w = .ready) → s.gatewayUp = true → s.timeUp = true → s.queue = [] →
      s.ipcStarts = 1) := by
  have h := Inv.run h1 hn hr
  refine ⟨h.starts_le, ?_, ?_⟩
  · intro hstart
    obtain ⟨hc, hg, ht⟩ := h.starts.1 (by omega)
    have hmem : ∀ x ∈ s.handled, s.Up n x := fun x hx => (h.up x).1 (List.mem_append_left _ hx)
    obtain ⟨v, hv, -⟩ := hmem _ hc
    have hlast := (List.getElem?_eq_some_iff.1 hv).1
    refine ⟨?_, hmem _ hg, hmem _ ht⟩
    intro w hw hidle
    exact (h.idle w).1 hidle (h.mem_order (by omega) hw)
  · intro hready hg ht hq
    -- nothing is left in the queue: what was reported was handled
    have hmem : ∀ x, s.Up n x → x ∈ s.handled := by
      intro x hx
      have hrep := (h.up x).2 hx
      rwa [reported, hq, List.append_nil] at hrep
    have hsub : List.range n ⊆ s.order := by
      intro w hw
      by_contra hnot
      have hidle := (h.idle w).2 hnot
      rw [hready w (List.mem_range.1 hw)] at hidle
      exact absurd hidle (by simp)
    have hlen := List.Nodup.length_le_of_subset List.nodup_range hsub
    rw [List.length_range] at hlen
    have hv : s.order[n - 1]? = some (s.order[n - 1]) := List.getElem?_eq_getElem (by omega)
    have hup : s.Up n .Coordinator :=
      ⟨_, hv, hready _ (h.lt _ (List.getElem_mem _))⟩
    have hstart := h.starts.2 ⟨hmem _ hup, hmem .Gateway hg, hmem .Time ht⟩
    exact Nat.le_antisymm h.starts_le hstart

/-- Two workers, the second counted first and the first reporting. -/
theorem ipc_starts_once_crossed : ∃ s, (startup 2).Run
    [.time, .count 1, .gateway, .count 0, .handle, .report 0, .report 1, .handle, .handle, .ipc,
      .handle] s ∧ s.ipcStarts = 1 ∧ ((∀ w < 2, s.pc w ≠ .idle) ∧ s.gatewayUp = true ∧
        s.timeUp = true) := by
  obtain ⟨s, hr, hp⟩ := Machine.exists_run (M := startup 2) (f := Startup.act 2) id rfl
    [.time, .count 1, .gateway, .count 0, .handle, .report 0, .report 1, .handle, .handle, .ipc,
      .handle] (fun s => s.ipcStarts == 1) (by decide)
  have hstart : s.ipcStarts = 1 := by simpa using hp
  exact ⟨s, hr, hstart, (ipc_starts_once 2 (by decide) (by decide) _ s hr).2.1 hstart⟩

end Startup
