import QueueFlex.Dispatch.ShortestQueue

/-! # Affinity dispatch

The function-affinity policies of `src/components/dispatch_policies/func_policies.py`:
`AffinityDispatch`, which keeps the recent function types of each queue, and
`JoinAffinityQueue`, which extends `JBSQWithStatistics` (`JBSQ.py`) and looks for the
request's function type in each tracked queue and each history deque. A request is given by
its function type (`scan_q` reads a `FuncRequest` and a plain function id alike), and a
deque is a list read left to right.

`search_affinity` runs two loops over the queues that share the accumulators; both are one
`ScanStep`, and `ScanStep.foldl_range` describes a whole loop, so that `mem_searchAffinity`
and `searchAffinity_found` say which queues have affinity (`hasAffinity`).

Both policies then pick "the shortest queue among those with affinity" by calling
`find_shortest_q` with the affinity set as `filter_list`, which `find_shortest_q` leaves out
of its scan. When the affinity branch is taken, the queue chosen is therefore the shortest of
the queues WITHOUT affinity (`JoinAffinityQueue.select_of_affinity`,
`AffinityDispatch.select_of_history`).

The statistics counters, the sampling of `long_req_depth`, `req.setAffinity()` and the
executed-event of `func_executed` are writes that no choice reads and are left out. -/

namespace QueueFlex

/-- `deque.appendleft(x)` on a `deque(maxlen=m)`: a full deque drops its rightmost element. -/
def appendLeftBounded (maxlen x : Nat) (d : List Nat) : List Nat :=
  (x :: d).take maxlen

/-- `JBSQWithStatistics.scan_q(q, f_type, unique_funcs)`: walks `q` from the left until it
meets `f_type`, or has collected more than `affinity_threshold` other function types. -/
def scanQ (affinityThreshold : Int) (fType : Nat) : List Nat → List Nat → Bool × List Nat
  | [], uniqueFuncs => (false, uniqueFuncs)
  | rpc :: q, uniqueFuncs =>
    if (uniqueFuncs.length : Int) > affinityThreshold then (false, uniqueFuncs)
    else if rpc = fType then (true, uniqueFuncs)
    else scanQ affinityThreshold fType q
      (if rpc ∉ uniqueFuncs then uniqueFuncs ++ [rpc] else uniqueFuncs)

/-- `MAX_HISTORY_LENGTH` of `JBSQWithStatistics`: the history deques have `maxlen=2`. -/
def maxHistoryLength : Nat := 2

/-- The state `JoinAffinityQueue.select` and `func_executed` read and write. The tracked
queues take new requests on the left and lose their oldest on the right; `JBSQ(0)` raises
`ValueError`, and the history deques never outgrow their `maxlen`. -/
structure JoinAffinityQueue where
  depthLimit : Nat
  numQueues : Nat
  affinityThreshold : Int
  loadBalanceThreshold : Int
  queueLengthTracking : Nat → List Nat
  historyQueues : Nat → List Nat
  queueIndexOffset : Nat
  depthLimit_pos : 0 < depthLimit
  history_le : ∀ c, (historyQueues c).length ≤ maxHistoryLength

/-- The accumulators of the two loops of `search_affinity`. -/
structure AffinitySearch where
  foundAffinity : Bool
  affinityInInput : Bool
  numFound : Nat
  uniqueFuncs : Nat → List Nat
  queuesWithAffinity : List Nat

namespace JoinAffinityQueue

variable (j : JoinAffinityQueue) (fType : Nat)

/-- The depths of the tracked queues, as `find_shortest_q` reads them. -/
def lengths : List Nat :=
  (List.range j.numQueues).map fun q => (j.queueLengthTracking q).length

/-- One iteration of `search_affinity`'s loop over the tracked queues. -/
def inputStep (acc : AffinitySearch) (i : Nat) : AffinitySearch :=
  let scan := scanQ j.affinityThreshold fType (j.queueLengthTracking i) (acc.uniqueFuncs i)
  let acc := { acc with uniqueFuncs := Function.update acc.uniqueFuncs i scan.2 }
  if scan.1 then
    { acc with
      numFound := acc.numFound + 1, foundAffinity := true, affinityInInput := true,
      queuesWithAffinity := acc.queuesWithAffinity.insert i }
  else acc

/-- One iteration of `search_affinity`'s loop over the history deques: the scan goes on from
the function types the tracked queue showed, and a queue found in both is counted once. -/
def historyStep (acc : AffinitySearch) (i : Nat) : AffinitySearch :=
  let scan := scanQ j.affinityThreshold fType (j.historyQueues i) (acc.uniqueFuncs i)
  let acc := { acc with uniqueFuncs := Function.update acc.uniqueFuncs i scan.2 }
  if scan.1 then
    if i ∉ acc.queuesWithAffinity then
      { acc with
        numFound := acc.numFound + 1, foundAffinity := true,
        queuesWithAffinity := acc.queuesWithAffinity.insert i }
    else { acc with foundAffinity := true }
  else acc

/-- The accumulators after both loops of `search_affinity`. -/
def searchLoops : AffinitySearch :=
  let acc :=
    (List.range j.numQueues).foldl (j.inputStep fType) ⟨false, false, 0, fun _ => [], []⟩
  (List.range j.numQueues).foldl (j.historyStep fType) acc

/-- `JoinAffinityQueue.search_affinity(f_type)`: `(found_affinity, affinity_in_input,
num_found, queues_with_affinity)`. -/
def searchAffinity : Bool × Bool × Nat × List Nat :=
  let acc := j.searchLoops fType
  (acc.foundAffinity, acc.affinityInInput, acc.numFound, acc.queuesWithAffinity)

/-- `queue_length_tracking[q].appendleft(req)` and the advance of `queue_index_offset`. -/
def dispatchTo (q : Nat) : JoinAffinityQueue :=
  { j with
    queueLengthTracking :=
      Function.update j.queueLengthTracking q (fType :: j.queueLengthTracking q)
    queueIndexOffset :=
      if j.queueIndexOffset + 1 ≥ j.numQueues then 0 else j.queueIndexOffset + 1 }

/-- `JoinAffinityQueue.select(req)` for a request of type `fType`: the queue chosen and the
state after the dispatch, or `none` where an `assert` fails or the index is out of range. -/
def select : Option (Nat × JoinAffinityQueue) :=
  let affinity := j.searchAffinity fType
  let shortest := findShortestQ j.lengths [] j.queueIndexOffset
  let finalDec : Option Nat :=
    if affinity.1 then
      let shortestAff := findShortestQ j.lengths affinity.2.2.2 0
      if (shortestAff.2 : Int) < j.loadBalanceThreshold then
        if shortestAff.2 < j.depthLimit then some shortestAff.1 else none
      else if shortest.2 < j.depthLimit then some shortest.1 else none
    else if shortest.2 < j.depthLimit then some shortest.1 else none
  finalDec.bind fun q => if q < j.numQueues then some (q, j.dispatchTo fType q) else none

theorem length_update_le {h : Nat → List Nat} {m c : Nat} {l : List Nat}
    (hh : ∀ c, (h c).length ≤ m) (hl : l.length ≤ m) (c' : Nat) :
    (Function.update h c l c').length ≤ m := by
  rcases eq_or_ne c' c with rfl | hne
  · simpa using hl
  · simpa [hne] using hh c'

/-- `JBSQWithStatistics.func_executed(c_id, f_type)`: the oldest tracked request of queue
`c_id` moves to the front of its history deque, after the assertion that it has type
`f_type`; `deque.pop()` of an empty deque raises `IndexError`. -/
def funcExecuted (cId : Nat) : Option JoinAffinityQueue :=
  match (j.queueLengthTracking cId).getLast? with
  | none => none
  | some req =>
    if req = fType then
      some { j with
        queueLengthTracking :=
          Function.update j.queueLengthTracking cId (j.queueLengthTracking cId).dropLast
        historyQueues := Function.update j.historyQueues cId
          (appendLeftBounded maxHistoryLength req (j.historyQueues cId))
        history_le := length_update_le j.history_le (List.length_take_le _ _) }
    else none

/-- Queue `i` has affinity for `fType`: `scan_q` meets `fType` in its tracked queue, or in its
history deque, scanned on from the function types the tracked queue showed. -/
def hasAffinity (i : Nat) : Bool :=
  let scan := scanQ j.affinityThreshold fType (j.queueLengthTracking i) []
  scan.1 || (scanQ j.affinityThreshold fType (j.historyQueues i) scan.2).1

end JoinAffinityQueue

/-! ### The loops of `search_affinity` -/

/-- What an iteration of either loop of `search_affinity` does to the accumulators both
loops read: it scans queue `i` from the function types collected for `i`, and on success
records `i` and the find. -/
structure ScanStep (scan : Nat → List Nat → Bool × List Nat)
    (step : AffinitySearch → Nat → AffinitySearch) : Prop where
  uniqueFuncs : ∀ acc i, (step acc i).uniqueFuncs =
    Function.update acc.uniqueFuncs i (scan i (acc.uniqueFuncs i)).2
  mem : ∀ acc i x, x ∈ (step acc i).queuesWithAffinity ↔
    x ∈ acc.queuesWithAffinity ∨ x = i ∧ (scan i (acc.uniqueFuncs i)).1 = true
  found : ∀ acc i,
    (step acc i).foundAffinity = (acc.foundAffinity || (scan i (acc.uniqueFuncs i)).1)

namespace JoinAffinityQueue

variable (j : JoinAffinityQueue) (fType : Nat)

theorem inputStep_scanStep :
    ScanStep (fun i => scanQ j.affinityThreshold fType (j.queueLengthTracking i))
      (j.inputStep fType) where
  uniqueFuncs acc i := by dsimp only [inputStep]; split <;> rfl
  mem acc i x := by dsimp only [inputStep]; split <;> simp [*, or_comm]
  found acc i := by dsimp only [inputStep]; split <;> simp [*]

theorem historyStep_scanStep :
    ScanStep (fun i => scanQ j.affinityThreshold fType (j.historyQueues i))
      (j.historyStep fType) where
  uniqueFuncs acc i := by dsimp only [historyStep]; split_ifs <;> rfl
  mem acc i x := by
    dsimp only [historyStep]
    split_ifs with hs hi
    · simp only [iff_self_or, and_imp]
      rintro rfl -
      exact hi
    · simp [hs, or_comm]
    · simp [hs]
  found acc i := by dsimp only [historyStep]; split_ifs <;> simp [*]

end JoinAffinityQueue

/-- A whole loop of `search_affinity` over `range(k)`: queue `x < k` was scanned once, from the
function types collected for it before the loop. -/
theorem ScanStep.foldl_range {scan : Nat → List Nat → Bool × List Nat}
    {step : AffinitySearch → Nat → AffinitySearch} (h : ScanStep scan step)
    (acc : AffinitySearch) (k : Nat) :
    let acc' := (List.range k).foldl step acc
    (∀ x, acc'.uniqueFuncs x =
      if x < k then (scan x (acc.uniqueFuncs x)).2 else acc.uniqueFuncs x) ∧
    (∀ x, x ∈ acc'.queuesWithAffinity ↔
      x ∈ acc.queuesWithAffinity ∨ x < k ∧ (scan x (acc.uniqueFuncs x)).1 = true) ∧
    (acc'.foundAffinity = true ↔
      acc.foundAffinity = true ∨ ∃ x < k, (scan x (acc.uniqueFuncs x)).1 = true) := by
  induction k with
  | zero => simp
  | succ k ih =>
    obtain ⟨hu, hm, hf⟩ := ih
    rw [List.range_succ, List.foldl_append, List.foldl_cons, List.foldl_nil]
    generalize (List.range k).foldl step acc = a at hu hm hf
    have hk : a.uniqueFuncs k = acc.uniqueFuncs k := by simp [hu]
    refine ⟨fun x => ?_, fun x => ?_, ?_⟩
    · rw [h.uniqueFuncs, hk]
      rcases eq_or_ne x k with rfl | hne
      · simp
      · simp only [Function.update_noteq hne, hu, Nat.lt_succ_iff_lt_or_eq, hne, or_false]
    · rw [h.mem, hm, hk]
      rcases eq_or_ne x k with rfl | hne
      · simp
      · simp [hne, Nat.lt_succ_iff_lt_or_eq]
    · rw [h.found, Bool.or_eq_true, hf, hk, or_assoc]
      simp only [Nat.lt_succ_iff_lt_or_eq, or_and_right, exists_or, exists_eq_left]

namespace JoinAffinityQueue

variable (j : JoinAffinityQueue) (fType : Nat)

/-- After both loops, exactly the queues with affinity are in `queues_with_affinity`, and
`found_affinity` says whether there is one. -/
theorem searchLoops_spec :
    (∀ x, x ∈ (j.searchLoops fType).queuesWithAffinity ↔
      x < j.numQueues ∧ j.hasAffinity fType x = true) ∧
    ((j.searchLoops fType).foundAffinity = true ↔
      ∃ x < j.numQueues, j.hasAffinity fType x = true) := by
  obtain ⟨hu₁, hm₁, hf₁⟩ := (j.inputStep_scanStep fType).foldl_range
    ⟨false, false, 0, fun _ => [], []⟩ j.numQueues
  set acc₁ :=
    (List.range j.numQueues).foldl (j.inputStep fType) ⟨false, false, 0, fun _ => [], []⟩
  obtain ⟨-, hm₂, hf₂⟩ := (j.historyStep_scanStep fType).foldl_range acc₁ j.numQueues
  simp only [List.not_mem_nil, false_or, Bool.false_eq_true] at hm₁ hf₁
  -- queue `x` is found by the first loop, or by the second from what the first collected
  have hx : ∀ x,
      (x < j.numQueues ∧ (scanQ j.affinityThreshold fType (j.queueLengthTracking x) []).1 ∨
        x < j.numQueues ∧
          (scanQ j.affinityThreshold fType (j.historyQueues x) (acc₁.uniqueFuncs x)).1) ↔
      x < j.numQueues ∧ j.hasAffinity fType x = true := fun x => by
    by_cases hx : x < j.numQueues <;> simp [hx, hu₁, hasAffinity]
  exact ⟨fun x => by rw [searchLoops, hm₂, hm₁]; exact hx x,
    by rw [searchLoops, hf₂, hf₁, ← exists_or]; exact exists_congr hx⟩

theorem mem_searchAffinity {x : Nat} :
    x ∈ (j.searchAffinity fType).2.2.2 ↔ x < j.numQueues ∧ j.hasAffinity fType x = true :=
  (j.searchLoops_spec fType).1 x

theorem searchAffinity_found :
    (j.searchAffinity fType).1 = true ↔ ∃ x < j.numQueues, j.hasAffinity fType x = true :=
  (j.searchLoops_spec fType).2

/-- **The affinity branch avoids the queues with affinity.** When some queue has affinity for
`fType` and some queue without affinity is below both `load_balance_threshold` and the depth
limit, `select` takes the affinity branch and dispatches to a queue without affinity, the
shortest of those. -/
theorem select_of_affinity
    (hcap : ∀ q < j.numQueues, (j.queueLengthTracking q).length < 1000000000)
    (hfound : ∃ q < j.numQueues, j.hasAffinity fType q = true)
    (hbelow : ∃ q < j.numQueues, j.hasAffinity fType q = false ∧
      ((j.queueLengthTracking q).length : Int) < j.loadBalanceThreshold ∧
      (j.queueLengthTracking q).length < j.depthLimit) :
    ∃ q, j.select fType = some (q, j.dispatchTo fType q) ∧ q < j.numQueues ∧
      j.hasAffinity fType q = false ∧
      ∀ q' < j.numQueues, j.hasAffinity fType q' = false →
        (j.queueLengthTracking q).length ≤ (j.queueLengthTracking q').length := by
  have hout : ∀ q, q ∉ (j.searchAffinity fType).2.2.2 ↔
      (q < j.numQueues → j.hasAffinity fType q = false) := fun q => by
    rw [mem_searchAffinity]; simp
  obtain ⟨q, hq, hqa, hlb, hdl⟩ := hbelow
  obtain ⟨hlt, hnf, hval, hmin⟩ := @findShortestQ_range_unfiltered j.numQueues
    (fun q => (j.queueLengthTracking q).length) _ 0 hcap ⟨q, hq, (hout q).2 fun _ => hqa⟩
  -- the shortest queue without affinity is no longer than `q`
  have hle := hmin q hq ((hout q).2 fun _ => hqa)
  refine ⟨_, ?_, hlt, (hout _).1 hnf hlt,
    fun q' hq' ha => hval ▸ hmin q' hq' ((hout q').2 fun _ => ha)⟩
  simp only [select, lengths, (j.searchAffinity_found fType).2 hfound, if_true]
  rw [if_pos (by omega), if_pos (by omega)]
  simp [hlt]

end JoinAffinityQueue

/-- The state of `AffinityDispatch`: the recent function types of each queue, one list per
queue of `self.queues`. -/
structure AffinityDispatch where
  histories : List (List Nat)
  historyLength : Int
  maxAffinityQLen : Int

namespace AffinityDispatch

variable (a : AffinityDispatch) (fType : Nat)

/-- `qs_with_target_function(func_id)`: the queues whose history holds `func_id`. -/
def qsWithTargetFunction : List Nat :=
  (List.range a.histories.length).filter fun idx => decide (fType ∈ a.histories.getD idx [])

/-- `histories[q].append(f)`, then `pop(0)` once the history is longer than `history_length`. -/
def pushHistory (historyLength : Int) (h : List Nat) : List Nat :=
  let h := h ++ [fType]
  if (h.length : Int) > historyLength then h.tail else h

/-- `AffinityDispatch.select(req)` for a request of type `fType`, with `depth q` the depth of
`self.queues[q]`: the queue chosen and the state after its history is pushed, or `none` on
the `IndexError` of `histories[final_queue]`. -/
def select (depth : Nat → Nat) : Option (Nat × AffinityDispatch) :=
  let qs := (List.range a.histories.length).map depth
  let queuesWithHistory := a.qsWithTargetFunction fType
  let finalQueue :=
    if queuesWithHistory.length = 0 then (findShortestQ qs [] 0).1
    else
      let filtered := findShortestQ qs queuesWithHistory 0
      let shortest := findShortestQ qs [] 0
      if (filtered.2 : Int) ≥ a.maxAffinityQLen then shortest.1 else filtered.1
  (a.histories[finalQueue]?).map fun h =>
    (finalQueue,
      { a with histories := a.histories.set finalQueue (pushHistory fType a.historyLength h) })

theorem mem_qsWithTargetFunction {q : Nat} :
    q ∈ a.qsWithTargetFunction fType ↔
      q < a.histories.length ∧ fType ∈ a.histories.getD q [] := by
  simp [qsWithTargetFunction]

/-- **The affinity branch avoids the queues with history.** When some queue's history holds
`fType` and some queue whose history does not is below `max_affinity_q_len`, `select` takes the
affinity branch and returns a queue whose history does not hold `fType`, the shortest of those. -/
theorem select_of_history (depth : Nat → Nat)
    (hcap : ∀ q < a.histories.length, depth q < 1000000000)
    (hhist : ∃ q < a.histories.length, fType ∈ a.histories.getD q [])
    (hbelow : ∃ q < a.histories.length, fType ∉ a.histories.getD q [] ∧
      (depth q : Int) < a.maxAffinityQLen) :
    ∃ q, (a.select fType depth).map Prod.fst = some q ∧ q < a.histories.length ∧
      fType ∉ a.histories.getD q [] ∧
      ∀ q' < a.histories.length, fType ∉ a.histories.getD q' [] → depth q ≤ depth q' := by
  have hout : ∀ q, q ∉ a.qsWithTargetFunction fType ↔
      (q < a.histories.length → fType ∉ a.histories.getD q []) := fun q => by
    rw [mem_qsWithTargetFunction]; simp
  obtain ⟨q, hq, hqh, hlt⟩ := hbelow
  obtain ⟨hr, hnf, hval, hmin⟩ := @findShortestQ_range_unfiltered _ depth
    (a.qsWithTargetFunction fType) 0 hcap ⟨q, hq, (hout q).2 fun _ => hqh⟩
  -- the shortest queue without `fType` in its history is no deeper than `q`
  have hle := hmin q hq ((hout q).2 fun _ => hqh)
  have hne : (a.qsWithTargetFunction fType).length ≠ 0 := by
    obtain ⟨q₀, hq₀, hf₀⟩ := hhist
    exact (List.length_pos_of_mem ((mem_qsWithTargetFunction a fType).2 ⟨hq₀, hf₀⟩)).ne'
  refine ⟨_, ?_, hr, (hout _).1 hnf hr,
    fun q' hq' hf => hval ▸ hmin q' hq' ((hout q').2 fun _ => hf)⟩
  simp only [select, hne, if_false]
  rw [if_neg (by omega)]
  simp [hr]

end AffinityDispatch

/-- **Both affinity policies dispatch away from affinity.** For every state and function type
`fType`: when `JoinAffinityQueue.select` finds affinity and takes its affinity branch, it
dispatches to a queue without affinity, of least tracked length among those; and when some
history holds `fType` and `AffinityDispatch.select` takes its affinity branch, it returns a
queue whose history does not hold `fType`, of least depth among those. -/
theorem affinity_branch_avoids_affinity_queues :
    (∀ (j : JoinAffinityQueue) (fType : Nat),
      (∀ q < j.numQueues, (j.queueLengthTracking q).length < 1000000000) →
      (∃ q < j.numQueues, j.hasAffinity fType q = true) →
      (∃ q < j.numQueues, j.hasAffinity fType q = false ∧
        ((j.queueLengthTracking q).length : Int) < j.loadBalanceThreshold ∧
        (j.queueLengthTracking q).length < j.depthLimit) →
      ∃ q, j.select fType = some (q, j.dispatchTo fType q) ∧ q < j.numQueues ∧
        j.hasAffinity fType q = false ∧
        ∀ q' < j.numQueues, j.hasAffinity fType q' = false →
          (j.queueLengthTracking q).length ≤ (j.queueLengthTracking q').length) ∧
    (∀ (a : AffinityDispatch) (depth : Nat → Nat) (fType : Nat),
      (∀ q < a.histories.length, depth q < 1000000000) →
      (∃ q < a.histories.length, fType ∈ a.histories.getD q []) →
      (∃ q < a.histories.length, fType ∉ a.histories.getD q [] ∧
        (depth q : Int) < a.maxAffinityQLen) →
      ∃ q, (a.select fType depth).map Prod.fst = some q ∧ q < a.histories.length ∧
        fType ∉ a.histories.getD q [] ∧
        ∀ q' < a.histories.length, fType ∉ a.histories.getD q' [] → depth q ≤ depth q') :=
  ⟨fun j fType => j.select_of_affinity fType,
    fun a depth fType => a.select_of_history fType depth⟩

/-- `JoinAffinityQueue` over two queues with `bound=2` and its default thresholds, with a request
of type `7` waiting in queue `0`. -/
def twoQueuesOneWaiting : JoinAffinityQueue where
  depthLimit := 2
  numQueues := 2
  affinityThreshold := 1
  loadBalanceThreshold := 2
  queueLengthTracking q := if q = 0 then [7] else []
  historyQueues _ := []
  queueIndexOffset := 0
  depthLimit_pos := by decide
  history_le _ := Nat.zero_le _

/-- `AffinityDispatch` over two queues with `history_length=2` and `max_len=2`, after a request
of type `7` went to queue `0`. -/
def twoQueuesOneHistory : AffinityDispatch :=
  ⟨[[7], []], 2, 2⟩

/-- A request of type `7` while queue `0` has affinity for it and both queues are short: both
policies send it to queue `1`, which has none. -/
theorem affinity_request_goes_to_other_queue :
    twoQueuesOneWaiting.hasAffinity 7 0 = true ∧
      (twoQueuesOneWaiting.select 7).map Prod.fst = some 1 ∧
      twoQueuesOneWaiting.hasAffinity 7 1 = false ∧
      7 ∈ twoQueuesOneHistory.histories.getD 0 [] ∧
      (twoQueuesOneHistory.select 7 fun _ => 0).map Prod.fst = some 1 ∧
      7 ∉ twoQueuesOneHistory.histories.getD 1 [] := by
  obtain ⟨q, hsel, -, hq, -⟩ := affinity_branch_avoids_affinity_queues.1 twoQueuesOneWaiting 7
    (by decide) ⟨0, by decide, by decide⟩ ⟨1, by decide, by decide, by decide, by decide⟩
  obtain ⟨q', hsel', -, hq', -⟩ := affinity_branch_avoids_affinity_queues.2 twoQueuesOneHistory
    (fun _ => 0) 7 (by decide) ⟨0, by decide, by decide⟩
    ⟨1, by decide, by decide, by decide⟩
  have h : (twoQueuesOneWaiting.select 7).map Prod.fst = some 1 := by decide
  have h' : (twoQueuesOneHistory.select 7 fun _ => 0).map Prod.fst = some 1 := by decide
  rw [hsel, Option.map_some', Option.some_inj] at h
  rw [hsel', Option.some_inj] at h'
  subst h h'
  exact ⟨by decide, by rw [hsel]; rfl, hq, by decide, hsel', hq'⟩

end QueueFlex
