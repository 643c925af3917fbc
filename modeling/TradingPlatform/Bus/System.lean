/-
The system bus (`common/src/bus/system_bus.hpp`).

Subscribing and posting both put a task into the queue of the system thread, from any
thread and at any time, also from inside a handler.  The system thread executes one
task after the other: it enters a subscription into its table, or calls what is
subscribed to the event, first the handlers of the event's type and then the callbacks
of the event itself.

* `SystemBus` — the tables, the queue and the calls still to be made for the task that
  is being executed;
* `deliveries` — what a list of tasks calls for: each event goes to those who
  subscribed before it was posted, in the order of their subscriptions;
* `calls_in_order` — the calls made are the first of those, in the order in which the
  events were posted; and all of them once the queue is empty.

The tasks of an `io_context` that one thread runs are executed in the order in which
they were posted.  Types, events and handlers are arbitrary; only types that can be
keys have events with callbacks.  Handlers return.
-/
import TradingPlatform.Lib.Machine
import Mathlib.Logic.Function.Basic

variable {τ E H : Type*}

/-- What is posted to the `io_context`. -/
inductive BusTask (τ E H : Type*)
  | subscribe (type : τ) (handler : H)
  | subscribeValue (event : E) (callback : H)
  | post (event : E)
  | run (f : H)
deriving DecidableEq

/-- A call the system thread makes. -/
inductive BusCall (E H : Type*)
  | handler (handler : H) (event : E)
  | callback (callback : H) (event : E)
  | task (f : H)
deriving DecidableEq

/-- The bus.  `running` are the calls left of the task that is being executed; `posted`
and `calls` are history. -/
structure SystemBus (τ E H : Type*) where
  eventSubscribers : τ → List H
  valueSubscribers : E → List H
  queue : List (BusTask τ E H)
  running : List (BusCall E H)
  posted : List (BusTask τ E H)
  calls : List (BusCall E H)

/-- A thread posts a task, the system thread takes up the next one, or makes a call. -/
inductive BusAction (τ E H : Type*)
  | post (t : BusTask τ E H)
  | next
  | call

namespace SystemBus

def start : SystemBus τ E H := ⟨fun _ => [], fun _ => [], [], [], [], []⟩

variable [DecidableEq τ] [DecidableEq E] (type : E → τ)

/-- `onEvent`. -/
def onEvent (s : SystemBus τ E H) (e : E) : List (BusCall E H) :=
  (s.eventSubscribers (type e)).map (.handler · e) ++ (s.valueSubscribers e).map (.callback · e)

/-- The system thread executes a task. -/
def execute (s : SystemBus τ E H) : BusTask τ E H → SystemBus τ E H
  | .subscribe t h => { s with
      eventSubscribers := Function.update s.eventSubscribers t (s.eventSubscribers t ++ [h]) }
  | .subscribeValue e h => { s with
      valueSubscribers := Function.update s.valueSubscribers e (s.valueSubscribers e ++ [h]) }
  | .post e => { s with running := s.onEvent type e }
  | .run f => { s with running := [.task f] }

def act (s : SystemBus τ E H) : BusAction τ E H → Option (SystemBus τ E H)
  | .post t => some { s with queue := s.queue ++ [t], posted := s.posted ++ [t] }
  | .next =>
    match s.running, s.queue with
    | [], t :: rest => some ({ s with queue := rest }.execute type t)
    | _, _ => none
  | .call =>
    match s.running with
    | c :: rest => some { s with running := rest, calls := s.calls ++ [c] }
    | [] => none

end SystemBus

/-- Every order of posts and of steps of the system thread. -/
def systemBus [DecidableEq τ] [DecidableEq E] (H : Type*) (type : E → τ) :
    Machine (SystemBus τ E H) (BusAction τ E H) :=
  .ofFun .start (SystemBus.act type)

/-! ### What tasks call for -/

/-- The handlers of a type, in the order of their subscriptions. -/
def handlersOf [DecidableEq τ] (ts : List (BusTask τ E H)) (t : τ) : List H :=
  ts.filterMap fun
    | .subscribe t' h => if t' = t then some h else none
    | _ => none

/-- The callbacks of an event, in the order of their subscriptions. -/
def callbacksOf [DecidableEq E] (ts : List (BusTask τ E H)) (e : E) : List H :=
  ts.filterMap fun
    | .subscribeValue e' h => if e' = e then some h else none
    | _ => none

theorem handlersOf_append [DecidableEq τ] (ts ts' : List (BusTask τ E H)) (t : τ) :
    handlersOf (ts ++ ts') t = handlersOf ts t ++ handlersOf ts' t :=
  List.filterMap_append

theorem callbacksOf_append [DecidableEq E] (ts ts' : List (BusTask τ E H)) (e : E) :
    callbacksOf (ts ++ ts') e = callbacksOf ts e ++ callbacksOf ts' e :=
  List.filterMap_append

section

variable [DecidableEq τ] [DecidableEq E]

/-- What a task calls for that was posted after `before`. -/
def due (type : E → τ) (before : List (BusTask τ E H)) : BusTask τ E H → List (BusCall E H)
  | .post e => (handlersOf before (type e)).map (.handler · e) ++
      (callbacksOf before e).map (.callback · e)
  | .run f => [.task f]
  | _ => []

/-- What tasks call for, one after the other. -/
def deliveries (type : E → τ) (before : List (BusTask τ E H)) :
    List (BusTask τ E H) → List (BusCall E H)
  | [] => []
  | t :: ts => due type before t ++ deliveries type (before ++ [t]) ts

theorem deliveries_append (type : E → τ) (before ts ts' : List (BusTask τ E H)) :
    deliveries type before (ts ++ ts') =
      deliveries type before ts ++ deliveries type (before ++ ts) ts' := by
  induction ts generalizing before with
  | nil => rw [List.append_nil]; rfl
  | cons t ts ih =>
    rw [List.cons_append, deliveries, deliveries, ih, List.append_assoc, List.append_assoc]
    rfl

end

namespace SystemBus

variable [DecidableEq τ] [DecidableEq E] {type : E → τ} {s s' : SystemBus τ E H}

/-- The tasks `handled` have been executed, but for the calls still to be made. -/
structure Executed (type : E → τ) (handled : List (BusTask τ E H)) (s : SystemBus τ E H) :
    Prop where
  posted : s.posted = handled ++ s.queue
  events : ∀ t, s.eventSubscribers t = handlersOf handled t
  values : ∀ e, s.valueSubscribers e = callbacksOf handled e
  calls : s.calls ++ s.running = deliveries type [] handled

theorem Executed.start : Executed type [] (start : SystemBus τ E H) :=
  ⟨rfl, fun _ => rfl, fun _ => rfl, rfl⟩

/-- What a task does to the tables. -/
theorem eventSubscribers_execute (s : SystemBus τ E H) (t : BusTask τ E H) (ty : τ) :
    (s.execute type t).eventSubscribers ty = s.eventSubscribers ty ++ handlersOf [t] ty := by
  cases t with
  | subscribe ty' h =>
    by_cases hty : ty = ty'
    · subst hty
      simp [execute, handlersOf]
    · simp [execute, handlersOf, hty, Ne.symm hty]
  | _ => exact (List.append_nil _).symm

theorem valueSubscribers_execute (s : SystemBus τ E H) (t : BusTask τ E H) (e : E) :
    (s.execute type t).valueSubscribers e = s.valueSubscribers e ++ callbacksOf [t] e := by
  cases t with
  | subscribeValue e' h =>
    by_cases he : e = e'
    · subst he
      simp [execute, callbacksOf]
    · simp [execute, callbacksOf, he, Ne.symm he]
  | _ => exact (List.append_nil _).symm

/-- What a task has the thread call. -/
theorem calls_execute {handled : List (BusTask τ E H)} (h : Executed type handled s)
    (hrun : s.running = []) (t : BusTask τ E H) :
    (s.execute type t).calls ++ (s.execute type t).running = s.calls ++ due type handled t := by
  cases t with
  | subscribe ty h' => rw [execute, hrun]; rfl
  | subscribeValue e h' => rw [execute, hrun]; rfl
  | post e => rw [execute, due, ← h.events, ← h.values]; rfl
  | run f => rfl

/-- One task more. -/
theorem Executed.execute {handled : List (BusTask τ E H)} (h : Executed type handled s)
    {t : BusTask τ E H} {rest : List (BusTask τ E H)} (hrun : s.running = [])
    (hqueue : s.queue = t :: rest) :
    Executed type (handled ++ [t]) ({ s with queue := rest }.execute type t) := by
  have h' : Executed type handled { s with posted := handled ++ rest, queue := rest } :=
    ⟨rfl, h.events, h.values, h.calls⟩
  have hposted : ({ s with queue := rest }.execute type t).posted = s.posted := by
    cases t with
    | _ => rfl
  have hleft : ({ s with queue := rest }.execute type t).queue = rest := by
    cases t with
    | _ => rfl
  refine ⟨?_, ?_, ?_, ?_⟩
  · rw [hposted, hleft, h.posted, hqueue, List.append_assoc]
    rfl
  · intro ty
    rw [eventSubscribers_execute, handlersOf_append, ← h.events]
  · intro e
    rw [valueSubscribers_execute, callbacksOf_append, ← h.values]
  · have hcalls :=
      calls_execute (s := { s with queue := rest, posted := handled ++ rest }) h' hrun t
    have hold := h.calls
    rw [hrun, List.append_nil] at hold
    rw [deliveries_append, List.nil_append, deliveries, deliveries, List.append_nil, ← hold]
    cases t with
    | _ => exact hcalls

theorem Executed.act {handled : List (BusTask τ E H)} (h : Executed type handled s)
    {a : BusAction τ E H} (hs : s.act type a = some s') :
    ∃ handled', Executed type handled' s' := by
  cases a with
  | post t =>
    obtain rfl := Option.some_inj.1 hs
    refine ⟨handled, ?_, h.events, h.values, h.calls⟩
    rw [h.posted, List.append_assoc]
  | next =>
    rw [SystemBus.act] at hs
    split at hs
    · next t rest hrun hqueue =>
      obtain rfl := Option.some_inj.1 hs
      exact ⟨handled ++ [t], h.execute hrun hqueue⟩
    · exact absurd hs (Option.some_ne_none _).symm
  | call =>
    rw [SystemBus.act] at hs
    split at hs
    · next c rest hrun =>
      obtain rfl := Option.some_inj.1 hs
      refine ⟨handled, h.posted, h.events, h.values, ?_⟩
      rw [← h.calls, hrun, List.append_assoc]
      rfl
    · exact absurd hs (Option.some_ne_none _).symm

theorem Executed.run {as : List (BusAction τ E H)} (h : (systemBus H type).Run as s) :
    ∃ handled, Executed type handled s := by
  refine h.invariant (I := fun s => ∃ handled, Executed type handled s) ?_ ?_
  · rintro s rfl
    exact ⟨[], .start⟩
  · rintro s a s' ⟨handled, hI⟩ hs
    exact hI.act hs

/-- In every order of posts, also from inside handlers, and of steps of the system
thread: the calls made are the first of those the posted tasks call for, in the order of
the posts.  No event is lost, delivered twice, overtaken by a later one, or delivered to
a handler that subscribed after it was posted; and once the queue is empty, all calls
were made. -/
theorem calls_in_order {as : List (BusAction τ E H)} (h : (systemBus H type).Run as s) :
    s.calls <+: deliveries type [] s.posted ∧
      (s.queue = [] → s.running = [] → s.calls = deliveries type [] s.posted) := by
  obtain ⟨handled, hI⟩ := Executed.run h
  have hcalls := hI.calls
  constructor
  · rw [hI.posted, deliveries_append, ← hcalls, List.append_assoc]
    exact List.prefix_append _ _
  · intro hqueue hrun
    rw [hrun, List.append_nil] at hcalls
    rw [hI.posted, hqueue, List.append_nil, hcalls]

/-- A handler subscribes to events of type 0, an event is posted, a second handler
subscribes, and the first one posts another event while it is called. -/
def reentrant : List (BusAction ℕ ℕ ℕ) :=
  [.post (.subscribe 0 1), .post (.post 8), .post (.subscribeValue 8 2), .next, .next,
    .post (.post 8), .call, .next, .next, .call, .call]

theorem calls_in_order_reentrant : ∃ s, (systemBus ℕ (fun _ : ℕ => 0)).Run reentrant s ∧
    s.calls = [.handler 1 8, .handler 1 8, .callback 2 8] ∧
    s.calls = deliveries (fun _ => 0) [] s.posted := by
  obtain ⟨s, hrun, hs⟩ := Machine.exists_run (M := systemBus ℕ (fun _ : ℕ => 0)) (fun h => h) rfl
    reentrant (fun s => s.calls = [.handler 1 8, .handler 1 8, .callback 2 8] ∧ s.queue = [] ∧
      s.running = []) (by decide)
  obtain ⟨hcalls, hqueue, hrunning⟩ := of_decide_eq_true hs
  exact ⟨s, hrun, hcalls, (calls_in_order hrun).2 hqueue hrunning⟩

end SystemBus
