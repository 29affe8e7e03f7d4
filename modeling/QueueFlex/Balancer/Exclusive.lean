import QueueFlex.Balancer.Tracking

/-! # The exclusive-bucket map of the dynamic balancer

`DynamicEWLoadBalancer` with `DynJBSCREWDispatchPolicy` maps each bucket with outstanding
writes to the core that owns it, and on each write's ack `write_req_finished` asserts that the
bucket is still mapped to the acknowledging core. The map holds at most
`max_buckets_tracking` entries; `add_to_excl_bucket` evicts the oldest one when it is full.

`find_shortest_q` starts from the length `1000000000` and keeps only strictly shorter queues,
so when every queue holds at least that many requests it reports `1000000000`, not the
queue's length. With `depth_limit` above it the JBSQ check never refuses a request: one core
takes every write, the map fills, the entry of a bucket whose write is outstanding is
evicted, and that write's ack fails the first assertion of `write_req_finished`
(`dynJbscrew_eviction_fails_assertion`). The run takes `1000000002` writes; `Filled` describes
the state after each of them, and `Filled.next` is the step of the induction. -/

namespace QueueFlex

open LoadBalancer

/-! ## Steps of the plain `run` loop, forward -/

namespace Balancer

variable {cfg : BalancerConfig}

theorem run_drain_exit (hk : cfg.kind ≠ .indexAware) {b : Balancer} (hpc : b.pc = .drainPulls)
    (hp : b.pullQ = []) : run cfg b = some (.ok ({ b with pc := afterPulls cfg b.lb }, [])) := by
  obtain ⟨lb, pc, ev, inQ, pullQ⟩ := b
  simp only at hpc hp
  subst hpc hp
  unfold run
  split
  · exact absurd ‹_› hk
  · rfl

theorem run_input (hk : cfg.kind ≠ .indexAware) {b : Balancer} {m : Msg} {rest : List Msg}
    {lb' : LoadBalancer} {puts : Puts} (hpc : b.pc = .inputWait) (hin : b.inQ = m :: rest)
    (hs : selectAndDispatch cfg b.lb m = .ok (lb', puts)) :
    run cfg b = some (.ok ({ b with lb := lb', inQ := rest, pc := .drainPulls }, puts)) := by
  obtain ⟨lb, pc, ev, inQ, pullQ⟩ := b
  simp only at hpc hin
  subst hpc hin
  unfold run
  split
  · exact absurd ‹_› hk
  · cases pullQ <;> simp [hs, bind, Except.bind, pure, Except.pure]

theorem run_pull_error (hk : cfg.kind ≠ .indexAware) {b : Balancer} {pr : PullFeedbackRequest}
    {rest : List PullFeedbackRequest} {f : Fault} (hpc : b.pc = .drainPulls)
    (hp : b.pullQ = pr :: rest) (hu : updatePulls cfg b.lb pr = .error f) :
    run cfg b = some (.error f) := by
  obtain ⟨lb, pc, ev, inQ, pullQ⟩ := b
  simp only at hpc hp
  subst hpc hp
  unfold run
  split
  · exact absurd ‹_› hk
  · simp only at hu
    simp [hu, bind, Except.bind]

end Balancer

namespace BalancerWorld

variable {cfg : BalancerConfig}

theorem step_arrive (m : Msg) (w : BalancerWorld) :
    step cfg (.arrive m) w = some { w with bal := { w.bal with inQ := w.bal.inQ ++ [m] } } :=
  rfl

theorem step_run {w : BalancerWorld} {o : Except Fault (Balancer × Puts)} (hf : w.fault = none)
    (ho : Balancer.run cfg w.bal = some o) :
    step cfg .run w = some (apply w (takenBy w.bal) (consumedByRun cfg w.bal) o) := by
  simp [step, hf, ho]

/-- A plain `run` step leaving the pull drain. -/
theorem step_drain_exit (hk : cfg.kind ≠ .indexAware) {w : BalancerWorld} (hf : w.fault = none)
    (hpc : w.bal.pc = .drainPulls) (hp : w.bal.pullQ = []) :
    ∃ w', step cfg .run w = some w' ∧ w'.fault = none ∧ w'.bal.lb = w.bal.lb ∧
      w'.bal.pc = Balancer.afterPulls cfg w.bal.lb ∧ w'.bal.inQ = w.bal.inQ ∧
      w'.bal.pullQ = w.bal.pullQ ∧ w'.inFlight = w.inFlight :=
  ⟨_, step_run hf (Balancer.run_drain_exit hk hpc hp), hf, rfl, rfl, rfl, rfl,
    funext fun _ => by simp [apply, deliver]⟩

/-- A plain `run` step handling the next input. -/
theorem step_input (hk : cfg.kind ≠ .indexAware) {w : BalancerWorld} {m : Msg}
    {rest : List Msg} {lb' : LoadBalancer} {puts : Puts} (hf : w.fault = none)
    (hpc : w.bal.pc = .inputWait) (hin : w.bal.inQ = m :: rest)
    (hs : selectAndDispatch cfg w.bal.lb m = .ok (lb', puts)) :
    ∃ w', step cfg .run w = some w' ∧ w'.fault = none ∧ w'.bal.lb = lb' ∧
      w'.bal.pc = .drainPulls ∧ w'.bal.inQ = rest ∧ w'.bal.pullQ = w.bal.pullQ ∧
      w'.inFlight = deliver w.inFlight puts :=
  ⟨_, step_run hf (Balancer.run_input hk hpc hin hs), hf, rfl, rfl, rfl, rfl, rfl⟩

/-! ## Filling the map -/

/-- A dynamic balancer over one queue with `depth_limit = 1000000001`,
`max_buckets_tracking = 1000000001` (the driver's `cores * jbsq_depth`) and `1000000002`
buckets in both the policy and the index. -/
def dynBig : BalancerConfig :=
  ⟨.dynamicEW, ⟨.dynJbscrew 1000000001 1000000002 1000000001, 1, by decide, by decide⟩,
    1000000002, by decide⟩

/-- The `k`-th write: key and hash `k`, so bucket `k`. -/
def bigWrite (k : Nat) : RPCRequest := ⟨k, k, k, true, k⟩

/-- The state after `k` writes to the buckets `0, …, k - 1`: all dispatched to queue 0 and
outstanding, and the map holding the last `1000000001` of those buckets. -/
structure Filled (k : Nat) (w : BalancerWorld) : Prop where
  fault : w.fault = none
  pc : w.bal.pc = .drainPulls
  inQ : w.bal.inQ = []
  pullQ : w.bal.pullQ = []
  qipr : w.bal.lb.queuesIncludingProcessingReq 0 = ((List.range k).map bigWrite).reverse
  tracking : w.bal.lb.tracking 0 = ((List.range k).map bigWrite).reverse
  keys : w.bal.lb.dispatchPolicy.bucketMappings.keys = (List.range k).drop (k - 1000000001)
  inFlight : w.inFlight 0 = (List.range k).map bigWrite

theorem filled_init : Filled 0 (init dynBig) :=
  ⟨rfl, rfl, rfl, rfl, rfl, rfl, rfl, rfl⟩

/-- The map's keys after one more write, when they were the last `M` of `0, …, k - 1`. -/
theorem drop_range_succ {k M : Nat} (hM : 0 < M) :
    (List.range (k + 1)).drop (k + 1 - M) =
      (if M ≤ k then ((List.range k).drop (k - M)).tail else (List.range k).drop (k - M)) ++
        [k] := by
  rw [List.range_succ, List.drop_append_of_le_length (by simp; omega)]
  split
  · rw [List.tail_drop, show k - M + 1 = k + 1 - M by omega]
  · rw [show k + 1 - M = 0 by omega, show k - M = 0 by omega]

/-- No queue is ever full: `find_shortest_q` reports at most `1000000000`. -/
theorem dynBig_afterPulls (lb : LoadBalancer) : Balancer.afterPulls dynBig lb = .inputWait := by
  have h := (findShortestQ_default_spec (lb.dispatchPolicy.lengths 1)).1
  simp only [Balancer.afterPulls, queuesFull, dynBig, Dispatcher.noQueueAvailable,
    JBSQDispatchPolicy.noQueueAvailable, DispatchPolicy.isJBSQ, Bool.true_and,
    decide_eq_true_eq]
  rw [if_neg (by omega)]

theorem addToExclBucket_keys {M : Nat} {d : OrderedDict BucketMappingMetadata} {k : Nat} (hk : k ∉ d.keys) (q : Nat) :
    (DynJBSCREWDispatchPolicy.addToExclBucket M d k q).keys =
      (if M ≤ d.keys.length then d.keys.tail else d.keys) ++ [k] := by
  unfold DynJBSCREWDispatchPolicy.addToExclBucket
  rw [OrderedDict.size_eq_length_keys]
  split
  · rw [OrderedDict.keys_set_of_not_mem (fun h => hk (List.mem_of_mem_tail
      (by rwa [OrderedDict.keys_popFirst] at h))), OrderedDict.keys_popFirst]
  · rw [OrderedDict.keys_set_of_not_mem hk]

/-- **One more write** goes to queue 0, as a new exclusive write of its own bucket, and the
map keeps the last `1000000001` buckets. -/
theorem Filled.next {k : Nat} {w : BalancerWorld} (hk : k < 1000000002) (hw : Filled k w) :
    ∃ w', runActions dynBig [.arrive (.req (bigWrite k)), .run, .run] w = some w' ∧
      Filled (k + 1) w' := by
  have hne : dynBig.kind ≠ .indexAware := by decide
  have hq := findShortestQ_lt (s := w.bal.lb.dispatchPolicy) (n := 1) (by decide)
  have hlen := (findShortestQ_default_spec (w.bal.lb.dispatchPolicy.lengths 1)).1
  have hnot : k ∉ w.bal.lb.dispatchPolicy.bucketMappings.keys := by
    rw [hw.keys]
    intro h
    exact absurd (List.mem_range.mp ((List.drop_sublist _ _).subset h)) (Nat.lt_irrefl k)
  have hsel : Dispatcher.select dynBig.disp w.bal.lb.dispatchPolicy (bigWrite k) =
      (some 0, DynJBSCREWDispatchPolicy.updateMetadata 1000000001 1000000002
        w.bal.lb.dispatchPolicy (bigWrite k) .newExclWrite 0 k) := by
    have h0 : (findShortestQ (w.bal.lb.dispatchPolicy.lengths 1) [] 0).1 = 0 := by omega
    simp only [Dispatcher.select, dynBig, DynJBSCREWDispatchPolicy.select, bigWrite,
      Nat.mod_eq_of_lt hk, OrderedDict.get?_eq_none_iff.mpr hnot]
    rw [if_pos (by omega), if_pos trivial, h0]
  have hs : selectAndDispatch dynBig w.bal.lb (.req (bigWrite k)) = .ok
      ({ w.bal.lb.setQipr 0 (bigWrite k :: w.bal.lb.queuesIncludingProcessingReq 0) with
          dispatchPolicy := DynJBSCREWDispatchPolicy.updateMetadata 1000000001 1000000002
            w.bal.lb.dispatchPolicy (bigWrite k) .newExclWrite 0 k },
        [(0, .req (bigWrite k))]) := by
    simp only [selectAndDispatch, hsel]
  obtain ⟨w₂, h₂, hf₂, hlb₂, hpc₂, hin₂, hp₂, hfl₂⟩ := step_drain_exit hne
    (w := { w with bal := { w.bal with inQ := w.bal.inQ ++ [.req (bigWrite k)] } })
    hw.fault hw.pc hw.pullQ
  obtain ⟨w₃, h₃, hf₃, hlb₃, hpc₃, hin₃, hp₃, hfl₃⟩ :=
    @step_input dynBig hne _ (.req (bigWrite k)) [] _ _ hf₂
    (by rw [hpc₂]; exact dynBig_afterPulls _) (by rw [hin₂]; simp [hw.inQ])
    (by rw [hlb₂]; exact hs)
  refine ⟨w₃, by simp only [runActions, step_arrive, h₂, h₃, Option.some_bind], ?_⟩
  refine ⟨hf₃, hpc₃, hin₃, by rw [hp₃, hp₂]; exact hw.pullQ, ?_, ?_, ?_, ?_⟩
  · simp [hlb₃, setQipr, hw.qipr, List.range_succ]
  · have ht := hw.tracking
    simp only [LoadBalancer.tracking] at ht ⊢
    simp [hlb₃, DynJBSCREWDispatchPolicy.updateMetadata_tracking, ht, List.range_succ]
  · simp only [hlb₃, DynJBSCREWDispatchPolicy.updateMetadata,
      PolicyState.updateBucketLoad_mappings, PolicyState.trackDispatch_mappings]
    rw [addToExclBucket_keys hnot, hw.keys, drop_range_succ (by decide)]
    simp only [List.length_drop, List.length_range]
    by_cases h : 1000000001 ≤ k
    · rw [if_pos (by omega), if_pos h]
    · rw [if_neg (by omega), if_neg h]
  · simp [hfl₃, hfl₂, deliver, hw.inFlight, reqsTo_req, List.range_succ]

theorem filled_reachable : ∀ k, k ≤ 1000000002 → ∃ w, Reachable dynBig true w ∧ Filled k w
  | 0, _ => ⟨_, .refl, filled_init⟩
  | k + 1, hk => by
    obtain ⟨w, hr, hw⟩ := filled_reachable k (by omega)
    obtain ⟨w', h, hw'⟩ := hw.next (by omega)
    exact ⟨w', Reachable.runActions _ hr (by simp [BalancerAction.IsFifo]) h, hw'⟩

/-! ## The ack of an evicted bucket -/

theorem step_complete {w : BalancerWorld} {c i : Nat} {r : RPCRequest}
    (hr : (w.inFlight c)[i]? = some r) :
    step cfg (.complete c i) w = some { w with
      inFlight := Function.update w.inFlight c ((w.inFlight c).eraseIdx i)
      bal := { w.bal with pullQ := w.bal.pullQ ++ [⟨c, r⟩] } } := by
  simp [step, hr]

/-- `update_pulls` of a write whose bucket is no longer mapped fails the first assertion of
`write_req_finished`. -/
theorem updatePulls_unmapped {lb lb₁ : LoadBalancer} {pr : PullFeedbackRequest}
    (hf : lb.funcExecuted pr.procId = .ok lb₁) (hw : pr.reqCompleted.isWrite = true)
    (hm : lb₁.dispatchPolicy.bucketMappings.get? (pr.reqCompleted.h % 1000000002) = none) :
    updatePulls dynBig lb pr = .error (.bucketNotMapped (pr.reqCompleted.h % 1000000002)) := by
  simp [updatePulls, hf, bind, Except.bind, dynBig, hw,
    DynJBSCREWDispatchPolicy.writeReqFinished, hm]

/-- **The first write's ack**: its bucket was evicted when the map filled, so
`write_req_finished` finds it unmapped. -/
theorem Filled.fail {w : BalancerWorld} (hw : Filled 1000000002 w) :
    ∃ w', runActions dynBig [.complete 0 0, .run] w = some w' ∧
      w'.fault = some (.bucketNotMapped 0) := by
  have hne : dynBig.kind ≠ .indexAware := by decide
  have hr : (w.inFlight 0)[0]? = some (bigWrite 0) := by simp [hw.inFlight]
  have hq : w.bal.lb.queuesIncludingProcessingReq 0 ≠ [] := by simp [hw.qipr]
  have ht : w.bal.lb.tracking 0 ≠ [] := by simp [hw.tracking]
  obtain ⟨lb₁, hf⟩ : ∃ lb₁, w.bal.lb.funcExecuted 0 = .ok lb₁ := by
    rcases h : w.bal.lb.funcExecuted 0 with f | lb₁
    · exact absurd h (funcExecuted_ne_error hq ht)
    · exact ⟨lb₁, rfl⟩
  have hmap := (funcExecuted_ok hf).choose_spec.choose_spec.2.2.2.2
  have hm : lb₁.dispatchPolicy.bucketMappings.get? 0 = none := by
    rw [hmap, OrderedDict.get?_eq_none_iff, hw.keys]
    simp [List.mem_drop_iff_getElem]
  have hu := @updatePulls_unmapped _ _ ⟨0, bigWrite 0⟩ hf rfl hm
  have h₂ := @step_run dynBig { w with
      inFlight := Function.update w.inFlight 0 ((w.inFlight 0).eraseIdx 0)
      bal := { w.bal with pullQ := w.bal.pullQ ++ [⟨0, bigWrite 0⟩] } } _ hw.fault
    (@Balancer.run_pull_error dynBig hne _ ⟨0, bigWrite 0⟩ [] _ hw.pc
      (by simp [hw.pullQ]) hu)
  refine ⟨{ w with
      inFlight := Function.update w.inFlight 0 ((w.inFlight 0).eraseIdx 0)
      bal := { w.bal with pullQ := w.bal.pullQ ++ [⟨0, bigWrite 0⟩] }
      fault := some (.bucketNotMapped 0) }, ?_, rfl⟩
  simp only [runActions, step_complete hr, Option.some_bind, h₂]
  rfl

/-- **The exclusive-bucket map loses an outstanding write's bucket**: with one queue,
`depth_limit = max_buckets_tracking = 1000000001` and `1000000002` buckets, `1000000002`
writes to distinct buckets all reach queue 0, the map evicts the first write's bucket, and
that write's ack fails the first assertion of `write_req_finished`, with every ack in
order. -/
theorem dynJbscrew_eviction_fails_assertion :
    ∃ w, Reachable dynBig true w ∧ w.fault = some (.bucketNotMapped 0) := by
  obtain ⟨w, hr, hw⟩ := filled_reachable 1000000002 le_rfl
  obtain ⟨w', h, hf⟩ := hw.fail
  exact ⟨w', Reachable.runActions _ hr (by simp [BalancerAction.IsFifo]) h, hf⟩

end BalancerWorld

end QueueFlex
