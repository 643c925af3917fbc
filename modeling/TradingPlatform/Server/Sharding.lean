/-
Which worker an order goes to
(`server/src/storage/storage.hpp`, `server/src/execution/coordinator.hpp`,
`server/src/execution/market_data.hpp`).

At start every ticker is given to one of the workers, in consecutive runs of the
list read from the database.  The coordinator looks up the ticker of an event and
posts the event to the queue of its worker; each worker takes one event after the
other and hands it to the book of the ticker, in its own thread.

* `loadMarketData` — the assignment, and `loadMarketData_spec` — every ticker has a
  worker that exists, and the tickers are spread evenly;
* `Coordinator` — routing and workers; `none` stands for an index out of range;
* `Coordinator.simulation` — this is work shared out by key, as in `Lib.Shard`;
* `coordinator_sequential` — every book is used by one worker at a time and gets its
  events in the order in which they were posted;
* `coordinator_schedule_independent` — what becomes of a book depends on nothing but
  the events posted for it.

Workers and books are looked at between start and shutdown.  A worker that is handed
an event takes some time for it: `begin` and `finish` are steps of their own.
-/
import TradingPlatform.Lib.Shard
import TradingPlatform.Lib.FiniteMap
import TradingPlatform.OrderBook.Refinement
import TradingPlatform.Server.Model
import TradingPlatform.Messages

/-- `MarketData`, without the books: the `workerId` of every ticker. -/
abbrev MarketData := AList fun _ : Ticker => ℕ

/-- `coresApp.empty() ? 1 : coresApp.size()`: how many workers are started. -/
def appCores (coresApp : List ℕ) : ℕ := if coresApp.isEmpty then 1 else coresApp.length

/-- The same as a `ThreadId`, which has 16 bits. -/
def workerCount (coresApp : List ℕ) : ℕ := appCores coresApp % 2 ^ 16

namespace Storage

/-- The inner loop: up to `n` tickers from the iterator on go to `idx`. -/
def emplaceTickers (idx : ℕ) : ℕ → List (Ticker × Price) → MarketData →
    MarketData × List (Ticker × Price)
  | 0, iter, data => (data, iter)
  | _ + 1, [], data => (data, [])
  | n + 1, p :: iter, data => emplaceTickers idx n iter (FiniteMap.insertNew p.1 idx data)

/-- `currWorkerTickers`. -/
def currWorkerTickers (perWorker leftOver idx : ℕ) : ℕ :=
  perWorker + if idx < leftOver then 1 else 0

/-- The loop over the workers, with `n` of them to go. -/
def emplaceWorkers (perWorker leftOver : ℕ) : ℕ → ℕ → List (Ticker × Price) → MarketData →
    MarketData
  | 0, _, _, data => data
  | n + 1, idx, iter, data =>
    let r := emplaceTickers idx (currWorkerTickers perWorker leftOver idx) iter data
    emplaceWorkers perWorker leftOver n (idx + 1) r.2 r.1

/-- `loadMarketData`; `none` if it throws, or divides by zero. -/
def loadMarketData (coresApp : List ℕ) :
    Except StatusCode (List (Ticker × Price)) → Option MarketData
  | .error _ => none
  | .ok prices =>
    let count := workerCount coresApp
    if count = 0 then none
    else some (emplaceWorkers (prices.length / count) (prices.length % count) count 0 prices ∅)

/-! ### Slices -/

/-- The tickers with the workers they are offered to, in order. -/
def assignment (size : ℕ → ℕ) : ℕ → ℕ → List (Ticker × Price) → List (Ticker × ℕ)
  | 0, _, _ => []
  | n + 1, idx, iter =>
    (iter.take (size idx)).map (fun p => (p.1, idx)) ++
      assignment size n (idx + 1) (iter.drop (size idx))

/-- How many tickers the next `n` workers take. -/
def total (size : ℕ → ℕ) : ℕ → ℕ → ℕ
  | 0, _ => 0
  | n + 1, idx => size idx + total size n (idx + 1)

theorem total_currWorkerTickers (perWorker leftOver n idx : ℕ) :
    total (currWorkerTickers perWorker leftOver) n idx =
      perWorker * n + (min (idx + n) leftOver - min idx leftOver) := by
  induction n generalizing idx with
  | zero => simp [total]
  | succ n ih =>
    rw [total, ih, currWorkerTickers, Nat.mul_succ]
    split
    · omega
    · omega

variable {size : ℕ → ℕ}

theorem assignment_fst {n idx : ℕ} {iter : List (Ticker × Price)}
    (h : iter.length ≤ total size n idx) :
    (assignment size n idx iter).map Prod.fst = iter.map Prod.fst := by
  induction n generalizing idx iter with
  | zero =>
    obtain rfl := List.length_eq_zero_iff.1 (Nat.le_zero.1 h)
    rfl
  | succ n ih =>
    rw [total] at h
    have hrest : (iter.drop (size idx)).length ≤ total size n (idx + 1) := by
      rw [List.length_drop]
      omega
    have hfst : (Prod.fst ∘ fun p : Ticker × Price => (p.1, idx)) = Prod.fst := rfl
    rw [assignment, List.map_append, ih hrest, List.map_map, hfst, ← List.map_append,
      List.take_append_drop]

theorem assignment_lt {n idx : ℕ} {iter : List (Ticker × Price)} {x : Ticker × ℕ}
    (h : x ∈ assignment size n idx iter) : idx ≤ x.2 ∧ x.2 < idx + n := by
  induction n generalizing idx iter with
  | zero => exact absurd h List.not_mem_nil
  | succ n ih =>
    rw [assignment, List.mem_append] at h
    rcases h with h | h
    · obtain ⟨p, _, rfl⟩ := List.mem_map.1 h
      exact ⟨le_refl _, by simp⟩
    · have hx := ih h
      omega

/-- Every worker is offered as many tickers as it may take, if there are enough. -/
theorem assignment_count {n idx w : ℕ} {iter : List (Ticker × Price)}
    (h : total size n idx ≤ iter.length) (hw : idx ≤ w) (hwn : w < idx + n) :
    (assignment size n idx iter).countP (fun x => x.2 = w) = size w := by
  induction n generalizing idx iter with
  | zero => omega
  | succ n ih =>
    rw [total] at h
    have hrest : total size n (idx + 1) ≤ (iter.drop (size idx)).length := by
      rw [List.length_drop]
      omega
    rw [assignment, List.countP_append, List.countP_map]
    by_cases hidx : idx = w
    · subst hidx
      have hnone : (assignment size n (idx + 1) (iter.drop (size idx))).countP
          (fun x => x.2 = idx) = 0 := by
        rw [List.countP_eq_zero]
        intro x hx hxw
        have hlt := assignment_lt hx
        have heq := of_decide_eq_true hxw
        omega
      rw [hnone, Nat.add_zero, List.countP_eq_length.2 (by simp), List.length_take]
      omega
    · have hnone : (iter.take (size idx)).countP
          ((fun x : Ticker × ℕ => decide (x.2 = w)) ∘ fun p => (p.1, idx)) = 0 := by
        rw [List.countP_eq_zero]
        intro p _ hp
        exact hidx (of_decide_eq_true hp)
      rw [hnone, Nat.zero_add]
      exact ih hrest (by omega) (by omega)

/-! ### The map that is loaded -/

/-- Emplacing one ticker after the other. -/
def emplaceAll (l : List (Ticker × ℕ)) (data : MarketData) : MarketData :=
  l.foldl (fun data x => FiniteMap.insertNew x.1 x.2 data) data

theorem emplaceTickers_eq (idx n : ℕ) (iter : List (Ticker × Price)) (data : MarketData) :
    emplaceTickers idx n iter data =
      (emplaceAll ((iter.take n).map fun p => (p.1, idx)) data, iter.drop n) := by
  induction n generalizing iter data with
  | zero => rw [emplaceTickers, List.take_zero, List.drop_zero]; rfl
  | succ n ih =>
    cases iter with
    | nil => rw [emplaceTickers, List.take_nil, List.drop_nil]; rfl
    | cons p iter =>
      rw [emplaceTickers, ih, List.take_succ_cons, List.drop_succ_cons]
      rfl

theorem emplaceWorkers_eq (perWorker leftOver n idx : ℕ) (iter : List (Ticker × Price))
    (data : MarketData) : emplaceWorkers perWorker leftOver n idx iter data =
      emplaceAll (assignment (currWorkerTickers perWorker leftOver) n idx iter) data := by
  induction n generalizing idx iter data with
  | zero => rfl
  | succ n ih =>
    rw [emplaceWorkers, emplaceTickers_eq]
    simp only [ih]
    rw [assignment, emplaceAll, emplaceAll, emplaceAll, List.foldl_append]

theorem mem_emplaceAll {l : List (Ticker × ℕ)} {data : MarketData} {t : Ticker} :
    t ∈ emplaceAll l data ↔ t ∈ data ∨ t ∈ l.map Prod.fst := by
  induction l generalizing data with
  | nil => simp [emplaceAll]
  | cons x l ih =>
    have hx : t ∈ FiniteMap.insertNew x.1 x.2 data ↔ t ∈ data ∨ t = x.1 := by
      rw [FiniteMap.insertNew]
      split
      · next hmem =>
        constructor
        · exact .inl
        · rintro (h | rfl)
          · exact h
          · exact hmem
      · rw [AList.mem_insert, or_comm]
    rw [emplaceAll, List.foldl_cons, ← emplaceAll, ih, hx, List.map_cons, List.mem_cons, or_assoc]

theorem lookup_emplaceAll {l : List (Ticker × ℕ)} {data : MarketData} {t : Ticker} {w : ℕ}
    (h : (emplaceAll l data).lookup t = some w) : data.lookup t = some w ∨ (t, w) ∈ l := by
  induction l generalizing data with
  | nil => exact .inl h
  | cons x l ih =>
    rw [emplaceAll, List.foldl_cons, ← emplaceAll] at h
    rcases ih h with h | h
    · rcases FiniteMap.lookup_insertNew_eq_some.1 h with ⟨rfl, rfl, _⟩ | h
      · exact .inr List.mem_cons_self
      · exact .inl h
    · exact .inr (List.mem_cons_of_mem x h)

/-- What is in the map stays. -/
theorem lookup_emplaceAll_of_lookup {l : List (Ticker × ℕ)} {data : MarketData} {t : Ticker}
    {w : ℕ} (h : data.lookup t = some w) : (emplaceAll l data).lookup t = some w := by
  induction l generalizing data with
  | nil => exact h
  | cons x l ih => exact ih (FiniteMap.lookup_insertNew_eq_some.2 (.inr h))

/-- Distinct tickers all get what they were offered. -/
theorem lookup_emplaceAll_of_mem {l : List (Ticker × ℕ)} {data : MarketData} {x : Ticker × ℕ}
    (hdata : ∀ t ∈ l.map Prod.fst, t ∉ data) (hnodup : (l.map Prod.fst).Nodup) (hx : x ∈ l) :
    (emplaceAll l data).lookup x.1 = some x.2 := by
  induction l generalizing data with
  | nil => exact absurd hx List.not_mem_nil
  | cons y l ih =>
    rw [List.map_cons, List.nodup_cons] at hnodup
    rw [emplaceAll, List.foldl_cons, ← emplaceAll]
    rcases List.mem_cons.1 hx with rfl | hx
    · refine lookup_emplaceAll_of_lookup (FiniteMap.lookup_insertNew_eq_some.2 (.inl ?_))
      exact ⟨rfl, rfl, hdata x.1 List.mem_cons_self⟩
    · refine ih ?_ hnodup.2 hx
      intro t ht hmem
      rw [FiniteMap.insertNew] at hmem
      split at hmem
      · exact hdata t (List.mem_cons_of_mem _ ht) hmem
      · rcases AList.mem_insert _ |>.1 hmem with rfl | hmem
        · exact hnodup.1 ht
        · exact hdata t (List.mem_cons_of_mem _ ht) hmem

/-- How many tickers of the list have worker `w`. -/
def load (prices : List (Ticker × Price)) (data : MarketData) (w : ℕ) : ℕ :=
  (prices.map Prod.fst).countP fun t => data.lookup t = some w

/-- With fewer than `2 ^ 16` cores the market data has exactly the tickers of the
database, every one with a worker the coordinator starts; and if the tickers are
distinct, the workers differ by at most one in how many of them they have, the first
ones having more. -/
theorem loadMarketData_spec (coresApp : List ℕ) (hcores : coresApp.length < 2 ^ 16)
    (prices : List (Ticker × Price)) :
    ∃ data, loadMarketData coresApp (.ok prices) = some data ∧
      (∀ t, t ∈ data ↔ t ∈ prices.map Prod.fst) ∧
      (∀ t w, data.lookup t = some w → w < appCores coresApp) ∧
      ((prices.map Prod.fst).Nodup → ∀ w < appCores coresApp,
        load prices data w = prices.length / appCores coresApp +
          if w < prices.length % appCores coresApp then 1 else 0) := by
  have hpos : 0 < appCores coresApp := by
    rw [appCores]
    split
    · exact Nat.one_pos
    · next hne => exact List.length_pos_iff.2 fun hnil => hne (by rw [hnil]; rfl)
  have hlt : appCores coresApp < 2 ^ 16 := by
    rw [appCores]
    split
    · decide
    · exact hcores
  have hcount : workerCount coresApp = appCores coresApp := Nat.mod_eq_of_lt hlt
  set m := appCores coresApp
  set l := assignment (currWorkerTickers (prices.length / m) (prices.length % m)) m 0 prices
  have htotal : total (currWorkerTickers (prices.length / m) (prices.length % m)) m 0 =
      prices.length := by
    have hmod := Nat.mod_lt prices.length hpos
    have hdiv := Nat.div_add_mod prices.length m
    rw [total_currWorkerTickers, Nat.mul_comm]
    omega
  have hfst : l.map Prod.fst = prices.map Prod.fst := assignment_fst htotal.ge
  refine ⟨emplaceAll l ∅, ?_, ?_, ?_, ?_⟩
  · rw [loadMarketData]
    simp only [hcount]
    rw [if_neg (Nat.ne_of_gt hpos), emplaceWorkers_eq]
  · intro t
    rw [mem_emplaceAll, hfst]
    simp
  · intro t w hl
    rcases lookup_emplaceAll hl with hl | hl
    · exact absurd hl (by simp)
    · have hw := (assignment_lt hl).2
      rwa [Nat.zero_add] at hw
  · intro hnodup w hw
    rw [← hfst] at hnodup
    rw [load, ← hfst, List.countP_map]
    have hsame : l.countP ((fun t => decide ((emplaceAll l ∅).lookup t = some w)) ∘ Prod.fst) =
        l.countP fun x => x.2 = w := by
      refine List.countP_congr fun x hx => ?_
      rw [Function.comp_apply, lookup_emplaceAll_of_mem (fun _ _ => AList.notMem_empty _) hnodup hx]
      simp
    rw [hsame, assignment_count htotal.le (Nat.zero_le w) (by omega)]
    rfl

theorem loadMarketData_spec_three : ∃ data,
    loadMarketData [4, 5] (.ok [((65, 0, 0, 0), 7), ((66, 0, 0, 0), 9), ((67, 0, 0, 0), 8)]) =
      some data ∧
    load [((65, 0, 0, 0), 7), ((66, 0, 0, 0), 9), ((67, 0, 0, 0), 8)] data 0 = 2 := by
  obtain ⟨data, hload, _, _, hcount⟩ := loadMarketData_spec [4, 5] (by decide)
    [((65, 0, 0, 0), 7), ((66, 0, 0, 0), 9), ((67, 0, 0, 0), 8)]
  exact ⟨data, hload, hcount (by decide) 0 (by decide)⟩

end Storage

/-! ### The coordinator and its workers -/

variable {K : Constants}

/-- A worker: its queue, and the event it is at. -/
structure Worker (K : Constants) where
  queue : List (InternalOrderEvent K)
  busy : Option (InternalOrderEvent K)

/-- The coordinator, its workers and the books.  `errors` counts the events that
found a full queue; the last two fields are history. -/
structure Coordinator (K : Constants) where
  data : MarketData
  workers : List (Worker K)
  books : Ticker → PriceLevelOrderBook K
  errors : ℕ
  taken : List (InternalOrderEvent K)
  done : List (ℕ × InternalOrderEvent K × List (BookMessage K))

/-- What the coordinator and its workers do. -/
abbrev CoordinatorAction (K : Constants) :=
  ShardAction ℕ (InternalOrderEvent K) (List (BookMessage K))

namespace Coordinator

/-- `startWorkers`, with `n` workers. -/
def start (data : MarketData) (n : ℕ) : Coordinator K :=
  ⟨data, List.replicate n ⟨[], none⟩, fun _ => .fresh K, 0, [], []⟩

/-- `post`, with the `post` of the worker's `LfqRunner`. -/
def post (s : Coordinator K) (ioe : InternalOrderEvent K) : Option (Coordinator K) :=
  match s.data.lookup ioe.ticker with
  | none => some s
  | some id =>
    s.workers[id]?.map fun worker =>
      if worker.queue.length < lfqCapacity then
        { s with
          workers := s.workers.set id { worker with queue := worker.queue ++ [ioe] }
          taken := s.taken ++ [ioe] }
      else { s with errors := s.errors + 1 }

/-- A worker that is not busy takes an event out of its queue. -/
def begin (s : Coordinator K) (w : ℕ) : Option (Coordinator K) :=
  s.workers[w]?.bind fun worker =>
    match worker.busy, worker.queue with
    | none, ioe :: rest => some { s with workers := s.workers.set w ⟨rest, some ioe⟩ }
    | _, _ => none

/-- `Matcher::post` has returned: the book of the ticker is `book`, and `msgs` were
posted. -/
def complete (s : Coordinator K) (w : ℕ) (worker : Worker K) (ioe : InternalOrderEvent K)
    (msgs : List (BookMessage K)) (book : PriceLevelOrderBook K) : Coordinator K :=
  { s with
    workers := s.workers.set w { worker with busy := none }
    books := Function.update s.books ioe.ticker book
    done := s.done ++ [(w, ioe, msgs)] }

end Coordinator

/-- The coordinator with `n` workers. -/
def coordinatorMachine (K : Constants) (data : MarketData) (n : ℕ) :
    Machine (Coordinator K) (CoordinatorAction K) where
  init s := s = .start data n
  step s a s' := match a with
    | .post ioe => s.post ioe = some s'
    | .begin w => s.begin w = some s'
    | .finish w msgs => ∃ worker ioe book, s.workers[w]? = some worker ∧
        worker.busy = some ioe ∧
        (s.books ioe.ticker).Adds ioe msgs book ∧ s' = s.complete w worker ioe msgs book

namespace Coordinator

variable {s s' : Coordinator K}

/-- The worker of a ticker. -/
def workerOf (data : MarketData) (t : Ticker) : ℕ := (data.lookup t).getD 0

/-- The same, seen as work shared out by ticker. -/
def shard (s : Coordinator K) : ShardState ℕ Ticker (InternalOrderEvent K)
    (List (BookMessage K)) (PriceLevelOrderBook K) where
  queue w := (s.workers[w]?.map Worker.queue).getD []
  busy w := s.workers[w]?.bind Worker.busy
  state := s.books
  taken := s.taken
  done := s.done

/-- Every worker id of the map is that of a worker. -/
structure Staffed (data : MarketData) (n : ℕ) (s : Coordinator K) : Prop where
  sameData : s.data = data
  workers : s.workers.length = n
  inRange : ∀ t w, data.lookup t = some w → w < n

theorem queue_set {ws : List (Worker K)} {w : ℕ} {worker : Worker K} (hw : w < ws.length) :
    (fun w' => ((ws.set w worker)[w']?.map Worker.queue).getD []) =
      Function.update (fun w' => (ws[w']?.map Worker.queue).getD []) w worker.queue := by
  funext w'
  by_cases h : w' = w
  · subst h
    rw [Function.update_self, List.getElem?_set_self hw]
    rfl
  · rw [Function.update_of_ne h, List.getElem?_set_ne (Ne.symm h)]

theorem busy_set {ws : List (Worker K)} {w : ℕ} {worker : Worker K} (hw : w < ws.length) :
    (fun w' => (ws.set w worker)[w']?.bind Worker.busy) =
      Function.update (fun w' => ws[w']?.bind Worker.busy) w worker.busy := by
  funext w'
  by_cases h : w' = w
  · subst h
    rw [Function.update_self, List.getElem?_set_self hw]
    rfl
  · rw [Function.update_of_ne h, List.getElem?_set_ne (Ne.symm h)]

theorem queue_of_getElem? {w : ℕ} {worker : Worker K} (h : s.workers[w]? = some worker) :
    s.shard.queue w = worker.queue := by
  simp only [shard, h]
  rfl

theorem busy_of_getElem? {w : ℕ} {worker : Worker K} (h : s.workers[w]? = some worker) :
    s.shard.busy w = worker.busy := by
  simp only [shard, h]
  rfl

variable {data : MarketData} {n : ℕ}

theorem Staffed.start (h : ∀ t w, data.lookup t = some w → w < n) :
    Staffed data n (start data n : Coordinator K) :=
  ⟨rfl, List.length_replicate, h⟩

/-- `workers_[ioe.data->workerId]` is there. -/
theorem Staffed.post (h : Staffed data n s) (ioe : InternalOrderEvent K) :
    ∃ s', s.post ioe = some s' ∧ Staffed data n s' ∧
      (s'.shard = s.shard.enqueue (workerOf data ioe.ticker) ioe ∨ s'.shard = s.shard) := by
  rw [Coordinator.post]
  cases hl : s.data.lookup ioe.ticker with
  | none => exact ⟨s, rfl, h, .inr rfl⟩
  | some id =>
    rw [h.sameData] at hl
    have hid : id < s.workers.length := by
      rw [h.workers]
      exact h.inRange _ _ hl
    have hget := List.getElem?_eq_getElem hid
    simp only [hget, Option.map_some]
    refine ⟨_, rfl, ?_⟩
    split
    · refine ⟨⟨h.sameData, by rw [List.length_set, h.workers], h.inRange⟩, .inl ?_⟩
      have howner : workerOf data ioe.ticker = id := by rw [workerOf, hl]; rfl
      have hq := queue_of_getElem? hget
      have hb := busy_of_getElem? hget
      rw [howner, ShardState.enqueue, hq]
      have hsame : Function.update s.shard.busy id s.workers[id].busy = s.shard.busy :=
        Function.update_eq_self_iff.2 hb.symm
      simp only [shard] at hsame
      simp only [shard, queue_set hid, busy_set hid, hsame]
    · exact ⟨⟨h.sameData, h.workers, h.inRange⟩, .inr rfl⟩

theorem Staffed.begin (h : Staffed data n s) {w : ℕ} (hs : s.begin w = some s') :
    Staffed data n s' ∧ s.shard.busy w = none ∧
      ∃ e rest, s.shard.queue w = e :: rest ∧ s'.shard = s.shard.takeUp w e rest := by
  obtain ⟨worker, hget, hs⟩ := Option.bind_eq_some_iff.1 hs
  have hw := (List.getElem?_eq_some_iff.1 hget).1
  split at hs
  · next ioe rest hbusy hqueue =>
    obtain rfl := Option.some_inj.1 hs
    refine ⟨⟨h.sameData, by rw [List.length_set, h.workers], h.inRange⟩, ?_, ioe, rest, ?_, ?_⟩
    · rw [busy_of_getElem? hget, hbusy]
    · rw [queue_of_getElem? hget, hqueue]
    · simp only [shard, ShardState.takeUp, queue_set hw, busy_set hw]
  · exact absurd hs (Option.some_ne_none _).symm

theorem Staffed.complete (h : Staffed data n s) {w : ℕ} {worker : Worker K}
    (ioe : InternalOrderEvent K) (msgs : List (BookMessage K)) (book : PriceLevelOrderBook K)
    (hget : s.workers[w]? = some worker) :
    Staffed data n (s.complete w worker ioe msgs book) ∧
      (s.complete w worker ioe msgs book).shard =
        s.shard.complete w ioe.ticker ioe msgs book := by
  have hw := (List.getElem?_eq_some_iff.1 hget).1
  constructor
  · exact ⟨h.sameData, by rw [Coordinator.complete, List.length_set, h.workers], h.inRange⟩
  · have hsame : Function.update s.shard.queue w worker.queue = s.shard.queue :=
      Function.update_eq_self_iff.2 (queue_of_getElem? hget).symm
    simp only [shard] at hsame
    simp only [shard, Coordinator.complete, ShardState.complete, queue_set hw, busy_set hw, hsame]

/-- The coordinator shares out the work by ticker. -/
theorem simulation (h : ∀ t w, data.lookup t = some w → w < n) :
    Machine.Simulation (coordinatorMachine K data n)
      (shards (PriceLevelOrderBook.bookMachine K) (workerOf data) InternalOrderEvent.ticker)
      fun s t => Staffed data n s ∧ t = s.shard where
  init := by
    rintro s rfl
    refine ⟨(start data n).shard, ⟨?_, ?_, fun _ => rfl, rfl, rfl⟩, .start h, rfl⟩
    · funext w
      simp only [shard, Coordinator.start, List.getElem?_replicate]
      split
      · rfl
      · rfl
    · funext w
      simp only [shard, Coordinator.start, List.getElem?_replicate]
      split
      · rfl
      · rfl
  step := by
    rintro s a s' t ⟨hst, rfl⟩ hs
    cases a with
    | post ioe =>
      obtain ⟨s₁, hs₁, hst', heq⟩ := hst.post ioe
      obtain rfl := Option.some_inj.1 (hs.symm.trans hs₁)
      exact ⟨_, heq, hst', rfl⟩
    | begin w =>
      obtain ⟨hst', hstep⟩ := hst.begin hs
      exact ⟨_, hstep, hst', rfl⟩
    | finish w msgs =>
      obtain ⟨worker, ioe, book, hget, hbusy, hadds, rfl⟩ := hs
      obtain ⟨hst', heq⟩ := hst.complete ioe msgs book hget
      refine ⟨_, ⟨ioe, book, ?_, hadds, heq⟩, hst', rfl⟩
      rw [busy_of_getElem? hget, hbusy]

/-! ### Every order of steps -/

/-- What the book of a ticker was handed, with the messages it posted. -/
def doneFor (s : Coordinator K) (t : Ticker) :
    List (InternalOrderEvent K × List (BookMessage K)) :=
  (s.done.filter fun x => x.2.1.ticker = t).map fun x => x.2

/-- The events of a ticker that its worker is at, or has in its queue. -/
def waiting (s : Coordinator K) (t : Ticker) : List (InternalOrderEvent K) :=
  ((s.shard.busy (workerOf s.data t)).toList ++ s.shard.queue (workerOf s.data t)).filter
    fun ioe => ioe.ticker = t

/-- The tickers were loaded for the workers that run. -/
theorem lookup_lt {coresApp : List ℕ} {prices : List (Ticker × Price)}
    (hload : Storage.loadMarketData coresApp (.ok prices) = some data) {t : Ticker} {w : ℕ}
    (hw : data.lookup t = some w) : w < appCores coresApp := by
  rw [Storage.loadMarketData] at hload
  split at hload
  · exact absurd hload (Option.some_ne_none _).symm
  · obtain rfl := Option.some_inj.1 hload
    rw [Storage.emplaceWorkers_eq] at hw
    rcases Storage.lookup_emplaceAll hw with hw | hw
    · exact absurd hw (by simp)
    · have hlt := (Storage.assignment_lt hw).2
      rw [Nat.zero_add] at hlt
      exact lt_of_lt_of_le hlt (Nat.mod_le _ _)

theorem run_spec {as : List (CoordinatorAction K)}
    (hin : ∀ t w, data.lookup t = some w → w < n)
    (h : (coordinatorMachine K data n).Run as s) : Staffed data n s ∧
      Shards (PriceLevelOrderBook.bookMachine K) (workerOf data) InternalOrderEvent.ticker
        s.shard := by
  obtain ⟨t, hrun, hst, rfl⟩ := (simulation hin).run h
  exact ⟨hst, Shards.run hrun⟩

/-- In every run of the coordinator with the market data it was started with, however
its workers take turns: an event is never posted to a worker that does not exist; no
two workers are at events of one ticker; an event is done by the worker of its ticker;
and for every ticker the events done, the one being done and those that wait are the
events taken for it, in this order, with the book in the state it has after adding the
events done one after the other. -/
theorem coordinator_sequential {coresApp : List ℕ} {prices : List (Ticker × Price)}
    {as : List (CoordinatorAction K)}
    (hload : Storage.loadMarketData coresApp (.ok prices) = some data)
    (h : (coordinatorMachine K data (appCores coresApp)).Run as s) :
    (∀ ioe, ∃ s', s.post ioe = some s') ∧
    (∀ (w w' : ℕ) (worker worker' : Worker K) (ioe ioe' : InternalOrderEvent K),
      s.workers[w]? = some worker → worker.busy = some ioe →
      s.workers[w']? = some worker' → worker'.busy = some ioe' → ioe.ticker = ioe'.ticker →
      w = w') ∧
    (∀ x ∈ s.done, workerOf data x.2.1.ticker = x.1) ∧
    (∀ t, (s.doneFor t).map Prod.fst ++ s.waiting t =
      s.taken.filter fun ioe => ioe.ticker = t) ∧
    ∀ t, (PriceLevelOrderBook.bookMachine K).Run (s.doneFor t) (s.books t) := by
  obtain ⟨hst, hsh⟩ := run_spec (fun _ _ => lookup_lt hload) h
  refine ⟨?_, ?_, hsh.done, ?_, hsh.sequential⟩
  · intro ioe
    obtain ⟨s', hs', _⟩ := hst.post ioe
    exact ⟨s', hs'⟩
  · intro w w' worker worker' ioe ioe' hget hbusy hget' hbusy' htick
    refine hsh.exclusive ?_ ?_ htick
    · rw [busy_of_getElem? hget, hbusy]
    · rw [busy_of_getElem? hget', hbusy']
  · intro t
    rw [waiting, hst.sameData]
    exact hsh.in_order t

/-- How many cores there are, which tickers are loaded beside, and how workers take
turns does not matter: two coordinators that have taken the same events for a ticker,
and have none of them waiting, have the same book for it and have posted the same
messages. -/
theorem coordinator_schedule_independent {coresApp coresApp' : List ℕ}
    {prices prices' : List (Ticker × Price)} {data' : MarketData}
    {as as' : List (CoordinatorAction K)}
    (hload : Storage.loadMarketData coresApp (.ok prices) = some data)
    (hload' : Storage.loadMarketData coresApp' (.ok prices') = some data')
    (h : (coordinatorMachine K data (appCores coresApp)).Run as s)
    (h' : (coordinatorMachine K data' (appCores coresApp')).Run as' s') {t : Ticker}
    (hidle : s.waiting t = []) (hidle' : s'.waiting t = [])
    (htaken : s.taken.filter (fun ioe => ioe.ticker = t) =
      s'.taken.filter fun ioe => ioe.ticker = t) :
    s.doneFor t = s'.doneFor t ∧ s.books t = s'.books t := by
  obtain ⟨hst, hsh⟩ := run_spec (fun _ _ => lookup_lt hload) h
  obtain ⟨hst', hsh'⟩ := run_spec (fun _ _ => lookup_lt hload') h'
  have hall := hsh.in_order t
  have hall' := hsh'.in_order t
  rw [waiting, hst.sameData] at hidle
  rw [waiting, hst'.sameData] at hidle'
  rw [hidle, List.append_nil] at hall
  rw [hidle', List.append_nil] at hall'
  refine (hsh.sequential t).functional ?_ ?_ (hsh'.sequential t)
    (hall.trans (htaken.trans hall'.symm))
  · rintro b b' rfl rfl
    rfl
  · intro b ioe msgs msgs' b₁ b₂ hadds hadds'
    exact hadds.det hadds'

/-! ### Two workers -/

/-- One step, with `fuel` for the book. -/
def act (fuel : ℕ) (s : Coordinator K) : CoordinatorAction K → Option (Coordinator K)
  | .post ioe => s.post ioe
  | .begin w => s.begin w
  | .finish w msgs =>
    s.workers[w]?.bind fun worker => worker.busy.bind fun ioe =>
      ((s.books ioe.ticker).addStep fuel (ioe, msgs)).map fun book =>
        s.complete w worker ioe msgs book

theorem step_of_act {fuel : ℕ} {a : CoordinatorAction K} (hs : s.act fuel a = some s') :
    (coordinatorMachine K data n).step s a s' := by
  cases a with
  | post ioe => exact hs
  | begin w => exact hs
  | finish w msgs =>
    obtain ⟨worker, hget, hs⟩ := Option.bind_eq_some_iff.1 hs
    obtain ⟨ioe, hbusy, hs⟩ := Option.bind_eq_some_iff.1 hs
    obtain ⟨book, hbook, rfl⟩ := Option.map_eq_some_iff.1 hs
    exact ⟨worker, ioe, book, hget, hbusy, PriceLevelOrderBook.step_of_addStep hbook, rfl⟩

/-- Two orders for different tickers, worked on at the same time. -/
def sideBySide (t t' : Ticker) : List (CoordinatorAction .cicd) :=
  [.post ⟨⟨⟨1⟩, ⟨0⟩, 5, 10⟩, t, .Sell⟩, .post ⟨⟨⟨2⟩, ⟨0⟩, 5, 10⟩, t', .Sell⟩, .begin 0, .begin 1,
    .finish 1 [.status ⟨⟨2⟩, ⟨1025⟩, 0, 10, .Accepted⟩],
    .finish 0 [.status ⟨⟨1⟩, ⟨1025⟩, 0, 10, .Accepted⟩]]

/-- The first of them alone. -/
def alone (t : Ticker) : List (CoordinatorAction .cicd) :=
  [.post ⟨⟨⟨1⟩, ⟨0⟩, 5, 10⟩, t, .Sell⟩, .begin 0,
    .finish 0 [.status ⟨⟨1⟩, ⟨1025⟩, 0, 10, .Accepted⟩]]

/-- A run with market data that is loaded, computed. -/
theorem exists_run (coresApp : List ℕ) (prices : List (Ticker × Price))
    (as : List (CoordinatorAction .cicd)) (p : Coordinator .cicd → Bool)
    (h : (Storage.loadMarketData coresApp (.ok prices)).any (fun data =>
      (Machine.exec (act 10) (start data (appCores coresApp)) as).any p) = true) :
    ∃ data s, Storage.loadMarketData coresApp (.ok prices) = some data ∧
      (coordinatorMachine .cicd data (appCores coresApp)).Run as s ∧ p s = true := by
  rw [Option.any_eq_true] at h
  obtain ⟨data, hload, h⟩ := h
  obtain ⟨s, hrun, hp⟩ := Machine.exists_run
    (M := coordinatorMachine .cicd data (appCores coresApp)) step_of_act rfl as p h
  exact ⟨data, s, hload, hrun, hp⟩

theorem coordinator_sequential_sideBySide : ∃ data s,
    Storage.loadMarketData [2, 3] (.ok [((65, 0, 0, 0), 7), ((66, 0, 0, 0), 9)]) = some data ∧
    (coordinatorMachine .cicd data (appCores [2, 3])).Run
      (sideBySide (65, 0, 0, 0) (66, 0, 0, 0)) s ∧
    s.done.map Prod.fst = [1, 0] ∧
    ∀ t, (PriceLevelOrderBook.bookMachine .cicd).Run (s.doneFor t) (s.books t) := by
  obtain ⟨data, s, hload, hrun, hs⟩ := exists_run [2, 3] [((65, 0, 0, 0), 7), ((66, 0, 0, 0), 9)]
    (sideBySide (65, 0, 0, 0) (66, 0, 0, 0)) (fun s => s.done.map Prod.fst = [1, 0])
    (by decide +kernel)
  exact ⟨data, s, hload, hrun, of_decide_eq_true hs,
    (coordinator_sequential hload hrun).2.2.2.2⟩

theorem coordinator_schedule_independent_alone : ∃ data data' s s',
    Storage.loadMarketData [2, 3] (.ok [((65, 0, 0, 0), 7), ((66, 0, 0, 0), 9)]) = some data ∧
    Storage.loadMarketData [] (.ok [((65, 0, 0, 0), 7)]) = some data' ∧
    (coordinatorMachine .cicd data (appCores [2, 3])).Run
      (sideBySide (65, 0, 0, 0) (66, 0, 0, 0)) s ∧
    (coordinatorMachine .cicd data' (appCores [])).Run (alone (65, 0, 0, 0)) s' ∧
    s.books (65, 0, 0, 0) = s'.books (65, 0, 0, 0) := by
  obtain ⟨data, s, hload, hrun, hs⟩ := exists_run [2, 3] [((65, 0, 0, 0), 7), ((66, 0, 0, 0), 9)]
    (sideBySide (65, 0, 0, 0) (66, 0, 0, 0))
    (fun s => s.waiting (65, 0, 0, 0) = [] ∧
      s.taken.filter (fun ioe => ioe.ticker = (65, 0, 0, 0)) =
        [⟨⟨⟨1⟩, ⟨0⟩, 5, 10⟩, (65, 0, 0, 0), .Sell⟩]) (by decide +kernel)
  obtain ⟨data', s', hload', hrun', hs'⟩ := exists_run [] [((65, 0, 0, 0), 7)]
    (alone (65, 0, 0, 0))
    (fun s => s.waiting (65, 0, 0, 0) = [] ∧
      s.taken.filter (fun ioe => ioe.ticker = (65, 0, 0, 0)) =
        [⟨⟨⟨1⟩, ⟨0⟩, 5, 10⟩, (65, 0, 0, 0), .Sell⟩]) (by decide +kernel)
  obtain ⟨hidle, htaken⟩ := of_decide_eq_true hs
  obtain ⟨hidle', htaken'⟩ := of_decide_eq_true hs'
  exact ⟨data, data', s, s', hload, hload', hrun, hrun', (coordinator_schedule_independent hload
    hload' hrun hrun' hidle hidle' (htaken.trans htaken'.symm)).2⟩

end Coordinator
