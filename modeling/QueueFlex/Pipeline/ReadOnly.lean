import QueueFlex.Pipeline.Refinement

/-! # Runs without writes

On a workload without writes the CREW system (`JBSCREWDispatchPolicy` behind a
`LoadBalancer`, workers on the concurrent path), the d-CREW system (`DynJBSCREWDispatchPolicy`
behind a `DynamicEWLoadBalancer`) and the Ideal system (`JBSQDispatchPolicy` behind a
`LoadBalancer`, workers with `disregard_conf`) run alike. A policy of the JBSQ family sends a
read to the shortest tracked queue below its depth limit, whatever else it keeps. No version
ever moves, so a read on the concurrent path finds its version even at its check and
unchanged at its recheck, and completes after one service time as under `disregard_conf`.

`readView` forgets what differs between the systems: the policy's state other than its
tracking deques, and the version an optimistic read remembers. A run of a read-only system
keeps `ReadInv`: no updater, every version 0, only reads anywhere (`ReadInv.step`). From a
state where it holds, a step seen through `readView` is the same step of `readCanon`, an Ideal
system, from the view (`step_readView`). So runs of the three systems under the same actions
have the same views (`crew_dcrew_ideal_agree_on_reads`): the same messages on the same
channels, the same dispatch decisions, and the same stamps. -/

namespace QueueFlex

/-! ## Views -/

/-- The tracking deques, with the rest of the policy's state as after construction. -/
def PolicyState.tracked (p : PolicyState) : PolicyState :=
  { PolicyState.init with queueLengthTracking := p.queueLengthTracking }

/-- A balancer whose policy keeps only its tracking deques. -/
def LoadBalancer.view (lb : LoadBalancer) : LoadBalancer :=
  { lb with dispatchPolicy := lb.dispatchPolicy.tracked }

def Balancer.view (b : Balancer) : Balancer := { b with lb := b.lb.view }

/-- A balancer step's outcome, seen through `Balancer.view`. -/
def Balancer.viewOut (o : Except Fault (Balancer × Puts)) : Except Fault (Balancer × Puts) :=
  o.map fun p => (p.1.view, p.2)

/-- An optimistic read's recheck, seen as the completion it leads to when the version has not
moved. -/
def AfterServe.forgetRecheck : AfterServe → AfterServe
  | .recheck _ => .complete
  | next => next

def CorePc.forgetRecheck : CorePc → CorePc
  | .serve r due next => .serve r due next.forgetRecheck
  | pc => pc

def Core.view (k : Core) : Core := { k with pc := k.pc.forgetRecheck }

/-- The pipeline with the policy's bookkeeping beyond its tracking deques forgotten, and every
optimistic read seen as a plain one. -/
def Sim.readView (s : Sim) : Sim :=
  { s with bal := s.bal.view, cores := fun c => (s.cores c).view }

@[simp] theorem PolicyState.tracked_tracked (p : PolicyState) : p.tracked.tracked = p.tracked :=
  rfl

@[simp] theorem LoadBalancer.view_view (lb : LoadBalancer) : lb.view.view = lb.view := rfl

@[simp] theorem CorePc.forgetRecheck_forgetRecheck (pc : CorePc) :
    pc.forgetRecheck.forgetRecheck = pc.forgetRecheck := by
  rcases pc with _ | _ | ⟨r, due, _ | _ | _ | _ | _ | _⟩ | _ | _ <;> rfl

@[simp] theorem Sim.readView_readView (s : Sim) : s.readView.readView = s.readView := by
  simp [Sim.readView, Balancer.view, Core.view]

/-! ## Read-only systems -/

/-- A system running a workload without writes: no generated request is a write, the workers
are not on the EREW path, and a `LoadBalancer` or a `DynamicEWLoadBalancer` dispatches with a
policy of the JBSQ family of depth limit `d`. -/
structure SimConfig.ReadsOnly (cfg : SimConfig) (d : Nat) : Prop where
  noWrites : ∀ k, cfg.writeOf k = false
  erew : cfg.worker.erew = false
  kind : cfg.bal.kind ≠ .indexAware
  depth : cfg.bal.disp.policy.depthLimit? = some d

theorem SimConfig.ReadsOnly.depth_pos {cfg : SimConfig} {d : Nat} (h : cfg.ReadsOnly d) :
    0 < d := by
  have hwf := cfg.bal.disp.policy_wf
  revert hwf
  have hd := h.depth
  revert hd
  rcases cfg.bal.disp.policy with _ | _ | _ | d' | ⟨d', _⟩ | ⟨d', _, _⟩ <;>
    simp only [DispatchPolicy.depthLimit?, DispatchPolicy.WF, reduceCtorEq, Option.some.injEq,
      false_imp_iff]
  all_goals omega

/-- The balancer of the Ideal system: a `LoadBalancer` with `JBSQDispatchPolicy` of depth
limit `d` over the same queues. Without writes the index's bucket count plays no part. -/
def BalancerConfig.readCanon (bc : BalancerConfig) (d : Nat) (hd : 0 < d) : BalancerConfig :=
  ⟨.loadBalancer, ⟨.jbsq d, bc.disp.numQueues, hd, bc.disp.numQueues_pos⟩, 1, Nat.one_pos⟩

/-- The Ideal system of a workload: its balancer, and workers with `disregard_conf`. -/
def SimConfig.readCanon (cfg : SimConfig) (d : Nat) (hd : 0 < d) : SimConfig :=
  { cfg with bal := cfg.bal.readCanon d hd, worker := ⟨false, true, false, 0⟩ }

@[simp] theorem SimConfig.readCanon_bal (cfg : SimConfig) (d : Nat) (hd : 0 < d) :
    (cfg.readCanon d hd).bal = cfg.bal.readCanon d hd := rfl

@[simp] theorem BalancerConfig.readCanon_numQueues (bc : BalancerConfig) (d : Nat) (hd : 0 < d) :
    (bc.readCanon d hd).disp.numQueues = bc.disp.numQueues := rfl

@[simp] theorem SimConfig.readCanon_readCanon (cfg : SimConfig) (d : Nat) (hd hd' : 0 < d) :
    (cfg.readCanon d hd).readCanon d hd' = cfg.readCanon d hd := rfl

/-- The Ideal system runs without writes too. -/
theorem SimConfig.ReadsOnly.readCanon {cfg : SimConfig} {d : Nat} (h : cfg.ReadsOnly d) :
    (cfg.readCanon d h.depth_pos).ReadsOnly d :=
  ⟨h.noWrites, rfl, nofun, rfl⟩

/-- Every request of the list is a read. -/
def AllReads (l : List RPCRequest) : Prop := ∀ r ∈ l, r.isWrite = false

@[simp] theorem allReads_nil : AllReads [] := fun _ h => absurd h (List.not_mem_nil _)

@[simp] theorem allReads_append {l l' : List RPCRequest} :
    AllReads (l ++ l') ↔ AllReads l ∧ AllReads l' := by
  simp [AllReads, or_imp, forall_and]

@[simp] theorem allReads_cons {r : RPCRequest} {l : List RPCRequest} :
    AllReads (r :: l) ↔ r.isWrite = false ∧ AllReads l := by
  simp [AllReads]

/-- A worker on the read path: waiting for a request, stopped, serving a read (on the
concurrent path, one that started from version 0), or completing it. -/
def CorePc.IsRead : CorePc → Prop
  | .getWait | .stopped => True
  | .serve r _ .complete | .completion r _ .loop => r.isWrite = false
  | .serve r _ (.recheck v) => r.isWrite = false ∧ v = 0
  | _ => False

/-- **What a run without writes keeps**: no updater, every version 0, every worker on the read
path, and only reads on the channels and in the stores. -/
structure ReadInv (s : Sim) : Prop where
  updaters : s.updaters = []
  versions : ∀ b, s.versions b = 0
  cores : ∀ c, (s.cores c).pc.IsRead
  evT : AllReads (reqsOf (s.evT.map Prod.snd))
  inQ : AllReads (reqsOf s.bal.inQ)
  dispT : ∀ c, AllReads (reqsOf ((s.dispT c).map Prod.snd))
  dispS : ∀ c, AllReads (reqsOf (s.dispS c))
  pullT : AllReads (s.pullT.map fun p => p.2.reqCompleted)
  pullQ : AllReads (s.bal.pullQ.map PullFeedbackRequest.reqCompleted)

/-! ## The balancer on reads

A policy of the JBSQ family sends a read where `JBSQDispatchPolicy` sends it, and the
balancers other than the index-aware one only pop the tracking deques on a read's ack. -/

theorem Dispatcher.select_read (D : Dispatcher) {d : Nat} (hd : D.policy.depthLimit? = some d)
    (p : PolicyState) {r : RPCRequest} (hr : r.isWrite = false) :
    ((D.select p r).1, (D.select p r).2.tracked) =
      JBSQDispatchPolicy.select d D.numQueues p.tracked r := by
  have hl : p.tracked.lengths D.numQueues = p.lengths D.numQueues := rfl
  unfold Dispatcher.select
  revert hd
  rcases D.policy with _ | _ | _ | d' | ⟨d', H⟩ | ⟨d', H, M⟩ <;> intro hd <;>
    simp only [DispatchPolicy.depthLimit?, reduceCtorEq, Option.some.injEq] at hd <;> subst hd <;>
    simp only [JBSQDispatchPolicy.select, JBSCREWDispatchPolicy.select,
      DynJBSCREWDispatchPolicy.select, hl, hr, Bool.false_eq_true, ↓reduceIte]
  all_goals
    rcases findShortestQ (p.lengths D.numQueues) [] 0 with ⟨q, len⟩
    try split
    all_goals try split
    all_goals rfl

namespace LoadBalancer

theorem funcExecuted_view (lb : LoadBalancer) (q : Nat) :
    (lb.funcExecuted q).map view = lb.view.funcExecuted q := by
  have hq : lb.view.queuesIncludingProcessingReq = lb.queuesIncludingProcessingReq := rfl
  have ht : lb.view.dispatchPolicy.queueLengthTracking = lb.dispatchPolicy.queueLengthTracking :=
    rfl
  simp only [funcExecuted, PolicyState.funcExecuted, hq, ht]
  rcases popRight (lb.queuesIncludingProcessingReq q) with _ | ⟨x, qs⟩ <;>
    rcases popRight (lb.dispatchPolicy.queueLengthTracking q) with _ | ⟨y, ts⟩ <;> rfl

variable (bc : BalancerConfig) {d : Nat} (hd : bc.disp.policy.depthLimit? = some d) (hd0 : 0 < d)
include hd

theorem selectAndDispatch_read (lb : LoadBalancer) {m : Msg} (hm : AllReads m.reqs) :
    (selectAndDispatch bc lb m).map (fun o => (o.1.view, o.2)) =
      (selectAndDispatch (bc.readCanon d hd0) lb.view m).map (fun o => (o.1.view, o.2)) := by
  cases m with
  | endOfMeasurements => rfl
  | req r =>
    have key := bc.disp.select_read hd lb.dispatchPolicy (r := r) (by simpa [Msg.reqs] using hm)
    have hc : (bc.readCanon d hd0).disp.select lb.view.dispatchPolicy r =
        JBSQDispatchPolicy.select d bc.disp.numQueues lb.dispatchPolicy.tracked r := rfl
    simp only [selectAndDispatch, hc, ← key]
    rcases bc.disp.select lb.dispatchPolicy r with ⟨_ | q, p'⟩ <;> rfl

theorem queuesFull_read (lb : LoadBalancer) :
    queuesFull bc lb = queuesFull (bc.readCanon d hd0) lb.view := by
  unfold queuesFull Dispatcher.noQueueAvailable
  revert hd
  rcases bc.disp.policy with _ | _ | _ | d' | ⟨d', H⟩ | ⟨d', H, M⟩ <;> intro hd <;>
    simp only [DispatchPolicy.depthLimit?, reduceCtorEq, Option.some.injEq] at hd <;> subst hd <;>
    rfl

omit hd in
theorem updatePulls_read (hk : bc.kind ≠ .indexAware) (lb : LoadBalancer) {pr : PullFeedbackRequest}
    (hr : pr.reqCompleted.isWrite = false) :
    updatePulls bc lb pr = (lb.funcExecuted pr.procId).map (·, []) := by
  unfold updatePulls
  rcases lb.funcExecuted pr.procId with _ | lb' <;>
    rcases h : bc.kind <;> simp_all [bind, Except.bind, pure, Except.pure, Except.map]

end LoadBalancer

namespace Balancer

variable (bc : BalancerConfig) {d : Nat} (hd : bc.disp.policy.depthLimit? = some d) (hd0 : 0 < d)
include hd

theorem afterPulls_read (lb : LoadBalancer) :
    afterPulls bc lb = afterPulls (bc.readCanon d hd0) lb.view := by
  simp only [afterPulls, LoadBalancer.queuesFull_read bc hd hd0]

/-- **A step of the balancer on reads** is the step of the Ideal system's balancer on its
view. -/
theorem run_read (hk : bc.kind ≠ .indexAware) (b : Balancer) (hin : AllReads (reqsOf b.inQ))
    (hpull : AllReads (b.pullQ.map PullFeedbackRequest.reqCompleted)) :
    (run bc b).map viewOut = (run (bc.readCanon d hd0) b.view).map viewOut := by
  obtain ⟨lb, pc, ev, inQ, pullQ⟩ := b
  have hc : (bc.readCanon d hd0).kind = .loadBalancer := rfl
  unfold run
  have hk' : (bc.readCanon d hd0).kind ≠ .indexAware := by simp [hc]
  have hk'' := hk
  rcases hkind : bc.kind
  case indexAware => exact absurd hkind hk
  all_goals simp only [hc, Balancer.view]
  all_goals
    rcases pc with _ | _ | _ | m₀
    case drainPulls | noQueueWait =>
      rcases pullQ with _ | ⟨pr, rest⟩
      · rcases inQ <;> simp only [afterPulls_read bc hd hd0 lb] <;> rfl
      · have hr : pr.reqCompleted.isWrite = false := (allReads_cons.mp hpull).1
        dsimp only
        rw [LoadBalancer.updatePulls_read bc hk'' lb hr,
          LoadBalancer.updatePulls_read _ hk' lb.view hr,
          ← LoadBalancer.funcExecuted_view]
        rcases lb.funcExecuted pr.procId with _ | lb₁ <;>
          first | rfl | (simp only [afterPulls_read bc hd hd0]; rfl)
    case inputWait =>
      rcases inQ with _ | ⟨m, rest⟩
      · rcases pullQ <;> rfl
      · dsimp only
        have key := LoadBalancer.selectAndDispatch_read bc hd hd0 lb
          (allReads_append.mp (reqsOf_cons m rest ▸ hin)).1
        rcases hx : LoadBalancer.selectAndDispatch bc lb m with e | ⟨lb₁, puts⟩ <;>
          rcases hy : LoadBalancer.selectAndDispatch (bc.readCanon d hd0) lb.view m with
            e' | ⟨lb₂, puts'⟩ <;>
          simp only [hx, hy, Except.map, Except.error.injEq, Except.ok.injEq, Prod.mk.injEq,
            reduceCtorEq] at key
        · subst key; rfl
        · simp [viewOut, Except.map, bind, Except.bind, pure, Except.pure, key, Balancer.view]
    case jbsqWait => rfl

omit hd in
/-- Only the index-aware balancer runs a `pull_queue_updater`. -/
theorem pullQueueUpdater_of_ne {bc : BalancerConfig} (hk : bc.kind ≠ .indexAware) (b : Balancer) :
    pullQueueUpdater bc b = none := by
  unfold pullQueueUpdater
  split
  · exact absurd ‹_› hk
  · rfl

end Balancer

namespace Sim

variable {cfg : SimConfig}

/-! ## The view commutes with the workers' updates -/

@[simp] theorem readView_setCore (s : Sim) (c : Nat) (k : Core) :
    (s.setCore c k).readView = s.readView.setCore c k.view := by
  simp only [readView, setCore]
  congr 1
  funext c'
  by_cases h : c' = c
  · subst h; simp
  · simp [h]

theorem readView_setPc (s : Sim) (c : Nat) (pc : CorePc) :
    (setPc s c pc).readView = setPc s.readView c pc.forgetRecheck := by
  simp only [setPc, readView_setCore]; rfl

theorem readView_serveDrawn (s : Sim) (c : Nat) (r : RPCRequest) (next : AfterServe) :
    (serveDrawn cfg s c r next).readView = serveDrawn cfg s.readView c r next.forgetRecheck := by
  simp only [serveDrawn, readView_setCore]; rfl

theorem readView_loopTop (s : Sim) (c : Nat) : (loopTop s c).readView = loopTop s.readView c := by
  have hk : (s.readView.cores c).killed = (s.cores c).killed := rfl
  simp only [loopTop, readView_setPc, hk]
  cases (s.cores c).killed <;> rfl

theorem readView_startCompletion (s : Sim) (c : Nat) (r : RPCRequest) (next : AfterCompletion) :
    (startCompletion cfg s c r next).readView = startCompletion cfg s.readView c r next := by
  simp only [startCompletion, readView_setPc]; rfl

theorem readView_completionEnd (s : Sim) (c : Nat) (r : RPCRequest) :
    (completionEnd cfg s c r).readView = completionEnd cfg s.readView c r := by
  unfold completionEnd
  dsimp only [readView, setCore, stamp, Core.view]
  split_ifs <;> simp only [Sim.mk.injEq, true_and, and_true] <;> funext c' <;>
    by_cases h : c' = c
  all_goals first | (subst h; simp only [Function.update_same]) | simp only [Function.update_noteq h]

theorem readView_dispatchPuts (s : Sim) (puts : Puts) :
    (dispatchPuts cfg s puts).readView = dispatchPuts cfg s.readView puts := by
  induction puts generalizing s with
  | nil => rfl
  | cons p ps ih =>
    obtain ⟨q, m⟩ := p
    cases m <;> exact ih _

/-- The Ideal system's balancer puts its messages on the same channels. -/
theorem dispatchPuts_readCanon {d : Nat} (hd : 0 < d) :
    dispatchPuts (cfg.readCanon d hd) = dispatchPuts cfg := by
  funext s puts
  induction puts generalizing s with
  | nil => rfl
  | cons p ps ih => exact ih _

/-! ## The read path -/

theorem takeRequest_read {d : Nat} (h : cfg.ReadsOnly d) {s : Sim} (hv : ∀ b, s.versions b = 0)
    {c : Nat} {r : RPCRequest} (hr : r.isWrite = false) :
    takeRequest cfg s c (.req r) =
      serveDrawn cfg (s.stamp r.uid fun st => { st with startProcTime := s.now }) c r
        (if cfg.worker.disregardConf then .complete else .recheck 0) := by
  simp only [takeRequest, startRequest, h.erew, Bool.false_eq_true, ↓reduceIte]
  cases cfg.worker.disregardConf <;> simp [checkVersion, isOdd, stamp, hv, hr]

theorem serveEnd_read {s : Sim} (hv : ∀ b, s.versions b = 0) {c due : Nat} {r : RPCRequest}
    {next : AfterServe} (hp : (CorePc.serve r due next).IsRead) :
    serveEnd cfg s c r next = startCompletion cfg s c r .loop := by
  rcases next with _ | v | _ | _ | _ | _ <;> simp only [CorePc.IsRead] at hp
  · rfl
  · simp [serveEnd, hv, hp.2]

/-! ## The view of a step -/

@[simp] theorem readView_now (s : Sim) : s.readView.now = s.now := rfl
@[simp] theorem readView_gen (s : Sim) : s.readView.gen = s.gen := rfl
@[simp] theorem readView_evT (s : Sim) : s.readView.evT = s.evT := rfl
@[simp] theorem readView_dispT (s : Sim) : s.readView.dispT = s.dispT := rfl
@[simp] theorem readView_dispS (s : Sim) : s.readView.dispS = s.dispS := rfl
@[simp] theorem readView_pullT (s : Sim) : s.readView.pullT = s.pullT := rfl
@[simp] theorem readView_versions (s : Sim) : s.readView.versions = s.versions := rfl
@[simp] theorem readView_updaters (s : Sim) : s.readView.updaters = s.updaters := rfl
@[simp] theorem readView_fault (s : Sim) : s.readView.fault = s.fault := rfl
@[simp] theorem readView_bal (s : Sim) : s.readView.bal = s.bal.view := rfl

@[simp] theorem readView_cores_pc (s : Sim) (c : Nat) :
    (s.readView.cores c).pc = (s.cores c).pc.forgetRecheck := rfl

theorem readView_stamp (s : Sim) (u : Nat) (f : Stamps → Stamps) :
    (s.stamp u f).readView = s.readView.stamp u f := rfl

theorem CorePc.IsRead.forgetRecheck {pc : CorePc} (h : pc.IsRead) : pc.forgetRecheck.IsRead := by
  rcases pc with _ | _ | ⟨r, due, _ | _ | _ | _ | _ | _⟩ | _ | _ <;>
    first | exact h | exact h.1

@[simp] theorem CorePc.due?_forgetRecheck (pc : CorePc) :
    CorePc.due? pc.forgetRecheck = CorePc.due? pc := by
  rcases pc with _ | _ | ⟨r, due, _ | _ | _ | _ | _ | _⟩ | _ | _ <;> rfl

theorem takeRequest_marker_readView (s : Sim) (c : Nat) :
    (takeRequest cfg s c .endOfMeasurements).readView =
      takeRequest cfg s.readView c .endOfMeasurements := by
  simp only [takeRequest, readView_loopTop]
  congr 1
  exact congrArg (fun t : Sim => { t with gen := { s.gen with interrupted := true } })
    (readView_setCore s c _)

theorem readView_applyBalancer {d : Nat} (hd : 0 < d) (s : Sim)
    (o : Except Fault (Balancer × Puts)) :
    (applyBalancer (cfg.readCanon d hd) s.readView (Balancer.viewOut o)).readView =
      (applyBalancer cfg s o).readView := by
  rcases o with f | ⟨b, puts⟩
  · exact readView_readView { s with fault := some (.balancer f) }
  · simp only [applyBalancer, Balancer.viewOut, Except.map, readView_dispatchPuts,
      dispatchPuts_readCanon]
    exact congrArg (dispatchPuts cfg · puts) (readView_readView { s with bal := b })

theorem readView_generate (s : Sim) : (generate cfg s).readView = generate cfg s.readView := rfl

/-- A balancer step seen through the views is the Ideal system's from the view. -/
theorem map_applyBalancer_readView {d : Nat} (hd : 0 < d) (s : Sim)
    (x : Option (Except Fault (Balancer × Puts))) :
    x.map (readView ∘ applyBalancer cfg s) =
      (x.map Balancer.viewOut).map (readView ∘ applyBalancer (cfg.readCanon d hd) s.readView) := by
  rw [Option.map_map]
  exact congrArg (x.map ·) (funext fun o => (readView_applyBalancer hd s o).symm)

/-! ## Steps of a read-only system -/

section Steps

variable {d : Nat} (h : cfg.ReadsOnly d)
include h

theorem takeRequest_readView {s : Sim} (hv : ∀ b, s.versions b = 0) (c : Nat) {m : Msg}
    (hm : AllReads m.reqs) :
    (takeRequest cfg s c m).readView =
      (takeRequest (cfg.readCanon d h.depth_pos) s.readView c m).readView := by
  cases m with
  | endOfMeasurements =>
    rw [takeRequest_marker_readView, takeRequest_marker_readView, readView_readView]; rfl
  | req r =>
    have hr : r.isWrite = false := by simpa [Msg.reqs] using hm
    rw [takeRequest_read h hv hr, takeRequest_read h.readCanon (s := s.readView) hv hr,
      readView_serveDrawn, readView_serveDrawn, readView_stamp, readView_stamp, readView_readView]
    cases cfg.worker.disregardConf <;> rfl

theorem coreStep_readView {s : Sim} (hi : ReadInv s) (c : Nat) :
    (coreStep cfg s c).map readView =
      (coreStep (cfg.readCanon d h.depth_pos) s.readView c).map readView := by
  have hpc := hi.cores c
  have hv := hi.versions
  unfold coreStep
  simp only [readView_cores_pc]
  rcases hp : (s.cores c).pc with _ | ⟨r, w⟩ | ⟨r, due, next⟩ | ⟨r, due, _ | _ | _⟩ | _ <;>
    rw [hp] at hpc <;> simp only [CorePc.forgetRecheck, readView_dispS, readView_now]
  case getWait =>
    rcases hd : s.dispS c with _ | ⟨m, rest⟩
    · rfl
    · simp only [Option.map_some']
      exact congrArg some (takeRequest_readView h
        (s := { s with dispS := Function.update s.dispS c rest }) hv c
        (allReads_append.mp (reqsOf_cons m rest ▸ hd ▸ hi.dispS c)).1)
  case serve =>
    split_ifs
    · simp only [Option.map_some', serveEnd_read hv hpc,
        serveEnd_read (s := s.readView) hv (CorePc.IsRead.forgetRecheck hpc),
        readView_startCompletion, readView_readView]
      rfl
    · rfl
  case completion =>
    split_ifs
    · simp only [Option.map_some', afterCompletion, readView_loopTop, readView_completionEnd,
        readView_readView]
      rfl
    · rfl
  all_goals first | rfl | cases hpc

theorem procStep_readView {s : Sim} (hi : ReadInv s) (a : SimAction) :
    (procStep cfg a s).map readView =
      (procStep (cfg.readCanon d h.depth_pos) a s.readView).map readView := by
  cases a
  case balancerRun =>
    have hr := @map_applyBalancer_readView (cfg.readCanon d h.depth_pos) d h.depth_pos
      s.readView (Balancer.run (cfg.bal.readCanon d h.depth_pos) s.bal.view)
    rw [SimConfig.readCanon_readCanon, readView_readView] at hr
    simp only [procStep, Option.map_map, readView_bal, SimConfig.readCanon_bal]
    rw [@map_applyBalancer_readView cfg d h.depth_pos, hr,
      Balancer.run_read cfg.bal h.depth h.depth_pos h.kind s.bal hi.inQ hi.pullQ]
  case pullQueueUpdater =>
    simp only [procStep, Balancer.pullQueueUpdater_of_ne h.kind,
      Balancer.pullQueueUpdater_of_ne h.readCanon.kind, Option.map_none']
  case fire =>
    simp only [procStep, readView_updaters, hi.updaters, List.getElem?_nil]
  case core c =>
    simp only [procStep, SimConfig.readCanon_bal, BalancerConfig.readCanon_numQueues]
    split_ifs
    · exact coreStep_readView h hi c
    · rfl
  case tick => rfl
  -- the generator and the channels' latency processes do on the view what they do on the state
  all_goals
    simp only [procStep, readView_gen, readView_evT, readView_dispT, readView_dispS, readView_pullT,
      readView_now, SimConfig.readCanon_bal, BalancerConfig.readCanon_numQueues]
    (try split) <;> (try split_ifs) <;> first | rfl | exact congrArg some (readView_readView _).symm

theorem instStep_readView {s : Sim} (hi : ReadInv s) (a : SimAction) :
    (instStep cfg a s).map readView =
      (instStep (cfg.readCanon d h.depth_pos) a s.readView).map readView := by
  simp only [instStep, readView_fault]
  split_ifs
  · rfl
  · exact procStep_readView h hi a

theorem quiet_readView {s : Sim} (hi : ReadInv s) :
    quiet (cfg.readCanon d h.depth_pos) s.readView = quiet cfg s := by
  simp only [quiet]
  congr 1
  funext a
  simpa only [Option.isNone_map'] using congrArg Option.isNone (instStep_readView h hi a).symm

omit h in
theorem noEventBefore_readView {d : Nat} (hd : 0 < d) (s : Sim) (t : Nat) :
    noEventBefore (cfg.readCanon d hd) s.readView t = noEventBefore cfg s t := by
  simp [noEventBefore]

/-- **A step of a read-only system**, seen through `readView`, is the step of its Ideal system
from the view. -/
theorem step_readView {s : Sim} (hi : ReadInv s) (a : SimAction) :
    (step cfg a s).map readView =
      (step (cfg.readCanon d h.depth_pos) a s.readView).map readView := by
  cases a with
  | tick t =>
    simp only [step, quiet_readView h hi, noEventBefore_readView, readView_fault, readView_now]
    split_ifs
    · exact congrArg some (readView_readView { s with now := t }).symm
    · rfl
  | _ => exact instStep_readView h hi _

end Steps

end Sim

/-! ## What a run without writes keeps -/

theorem CorePc.IsRead.serve {r : RPCRequest} {due : Nat} {next : AfterServe}
    (h : (CorePc.serve r due next).IsRead) : r.isWrite = false := by
  rcases next with _ | _ | _ | _ | _ | _
  exacts [h, h.1, h.elim, h.elim, h.elim, h.elim]

namespace ReadInv

variable {cfg : SimConfig} {s : Sim}

theorem setCore (hi : ReadInv s) {c : Nat} {k : Core} (hk : k.pc.IsRead) :
    ReadInv (s.setCore c k) :=
  { hi with
    cores := fun c' => by
      by_cases hc : c' = c
      · subst hc; simpa using hk
      · simpa [hc] using hi.cores c' }

theorem stamp (hi : ReadInv s) (u : Nat) (f : Stamps → Stamps) : ReadInv (s.stamp u f) :=
  { hi with }

theorem loopTop (hi : ReadInv s) (c : Nat) : ReadInv (Sim.loopTop s c) :=
  hi.setCore (by dsimp only; split <;> trivial)

theorem startCompletion (hi : ReadInv s) {c : Nat} {r : RPCRequest} (hr : r.isWrite = false) :
    ReadInv (Sim.startCompletion cfg s c r .loop) :=
  (hi.stamp _ _).setCore hr

theorem completionEnd (hi : ReadInv s) {c : Nat} {r : RPCRequest} (hr : r.isWrite = false) :
    ReadInv (Sim.completionEnd cfg s c r) := by
  unfold Sim.completionEnd
  dsimp only [Sim.setCore, Sim.stamp]
  split <;>
  exact { hi with
    cores := fun c' => by
      by_cases hc : c' = c
      · subst hc; simp only [Function.update_same]; exact hi.cores c'
      · simp only [Function.update_noteq hc]; exact hi.cores c'
    pullT := by simpa [hr] using hi.pullT }

theorem coreStep {d : Nat} (h : cfg.ReadsOnly d) (hi : ReadInv s) {c : Nat} {s' : Sim}
    (hs : Sim.coreStep cfg s c = some s') : ReadInv s' := by
  have hpc := hi.cores c
  unfold Sim.coreStep at hs
  rcases hp : (s.cores c).pc with _ | ⟨r, w⟩ | ⟨r, due, next⟩ | ⟨r, due, _ | _ | _⟩ | _ <;>
    rw [hp] at hpc hs <;> dsimp only at hs
  case getWait =>
    rcases hd : s.dispS c with _ | ⟨m, rest⟩ <;>
      simp only [hd, Option.some.injEq, reduceCtorEq] at hs
    subst hs
    have hm := allReads_append.mp (reqsOf_cons m rest ▸ hd ▸ hi.dispS c)
    have h₁ : ReadInv { s with dispS := Function.update s.dispS c rest } :=
      { hi with
        dispS := fun c' => by
          by_cases hc : c' = c
          · subst hc; simpa using hm.2
          · simpa [hc] using hi.dispS c' }
    cases m with
    | endOfMeasurements =>
      refine ReadInv.loopTop ?_ c
      exact { h₁.setCore (c := c) (k := { s.cores c with killed := true }) (hi.cores c) with }
    | req r =>
      have hr : r.isWrite = false := by simpa [Msg.reqs] using hm.1
      rw [Sim.takeRequest_read h h₁.versions hr]
      exact (h₁.stamp _ _).setCore
        (by cases cfg.worker.disregardConf <;> first | exact hr | exact ⟨hr, rfl⟩)
  case serve =>
    split_ifs at hs
    cases hs
    rw [Sim.serveEnd_read hi.versions hpc]
    exact hi.startCompletion hpc.serve
  case completion =>
    split_ifs at hs
    cases hs
    exact (hi.completionEnd hpc).loopTop c
  all_goals first | cases hs | cases hpc

theorem dispatchPuts (hi : ReadInv s) {puts : Puts} (hp : ∀ c, AllReads (reqsTo puts c)) :
    ReadInv (Sim.dispatchPuts cfg s puts) := by
  obtain ⟨dT, st, he, hd⟩ := @Sim.dispatchPuts_eq cfg s puts
  rw [he]
  exact { hi with dispT := fun c => by rw [hd c]; exact allReads_append.mpr ⟨hi.dispT c, hp c⟩ }

theorem LoadBalancer.selectAndDispatch_puts {bc : BalancerConfig} {lb lb' : LoadBalancer} {m : Msg}
    {puts : Puts} (h : LoadBalancer.selectAndDispatch bc lb m = .ok (lb', puts)) :
    ∃ q, puts = [(q, m)] := by
  cases m with
  | endOfMeasurements => cases h; exact ⟨0, rfl⟩
  | req r =>
    rcases hs : bc.disp.select lb.dispatchPolicy r with ⟨_ | q, p⟩ <;>
      simp only [LoadBalancer.selectAndDispatch, hs, reduceCtorEq, Except.ok.injEq,
        Prod.mk.injEq] at h
    exact ⟨q, h.2.symm⟩

/-- A balancer step of a read-only system dispatches reads only. -/
theorem applyBalancer {d : Nat} (h : cfg.ReadsOnly d) (hi : ReadInv s)
    {o : Except Fault (Balancer × Puts)} (ho : Balancer.run cfg.bal s.bal = some o) :
    ReadInv (Sim.applyBalancer cfg s o) := by
  rcases o with f | ⟨b', puts⟩
  · exact { hi with }
  rcases (Balancer.run_plain_ok h.kind ho).2 with ⟨pr, -, hq, hin, hu⟩ | ⟨-, -, rfl, rfl⟩ |
    ⟨-, m, hin, hq, -, hsel⟩
  · have hpr := allReads_cons.mp (hq ▸ hi.pullQ)
    rw [LoadBalancer.updatePulls_read _ h.kind _ hpr.1] at hu
    rcases hf : s.bal.lb.funcExecuted pr.procId with _ | lb <;>
      simp only [hf, Except.map, reduceCtorEq, Except.ok.injEq, Prod.mk.injEq] at hu
    obtain ⟨-, rfl⟩ := hu
    exact { hi with inQ := hin ▸ hi.inQ, pullQ := hpr.2 }
  · exact { hi with }
  · obtain ⟨q, rfl⟩ := LoadBalancer.selectAndDispatch_puts hsel
    have hm := allReads_append.mp (reqsOf_cons m _ ▸ hin ▸ hi.inQ)
    refine ReadInv.dispatchPuts (s := { s with bal := b' })
      { hi with inQ := hm.2, pullQ := hq ▸ hi.pullQ } fun c => ?_
    rw [Sim.reqsTo_cons]
    split_ifs
    · simpa [reqsTo, putPairs, onQueue] using hm.1
    · simp [reqsTo, putPairs, onQueue]

theorem procStep {d : Nat} (h : cfg.ReadsOnly d) (hi : ReadInv s) {a : SimAction} {s' : Sim}
    (hs : Sim.procStep cfg a s = some s') : ReadInv s' := by
  cases a with
  | generate =>
    simp only [Sim.procStep, Option.ite_none_right_eq_some, Option.some.injEq] at hs
    obtain ⟨-, rfl⟩ := hs
    refine { hi with evT := ?_ }
    simp only [Sim.generate, List.map_append, reqsOf_append, allReads_append]
    refine ⟨⟨hi.evT, ?_⟩, by simpa [Msg.reqs, Sim.genReq] using h.noWrites _⟩
    split_ifs <;> simp [Msg.reqs]
  | deliverEvent =>
    simp only [Sim.procStep] at hs
    rcases he : s.evT with _ | ⟨⟨t, m⟩, rest⟩ <;>
      simp only [he, reduceCtorEq, Option.ite_none_right_eq_some, Option.some.injEq] at hs
    obtain ⟨-, rfl⟩ := hs
    have hm := allReads_append.mp (by simpa [he] using hi.evT)
    exact { hi with evT := hm.2, inQ := by simpa using ⟨hi.inQ, hm.1⟩ }
  | deliverDispatch c =>
    simp only [Sim.procStep] at hs
    rcases he : s.dispT c with _ | ⟨⟨t, m⟩, rest⟩ <;>
      simp only [he, reduceCtorEq, Option.ite_none_right_eq_some, Option.some.injEq] at hs
    obtain ⟨-, rfl⟩ := hs
    have hm := allReads_append.mp (by simpa [he] using hi.dispT c)
    refine { hi with dispT := fun c' => ?_, dispS := fun c' => ?_ } <;> by_cases hc : c' = c
    all_goals first
      | (subst hc; simpa using hm.2)
      | (subst hc; simpa using ⟨hi.dispS c', hm.1⟩)
      | simpa [hc] using hi.dispT c'
      | simpa [hc] using hi.dispS c'
  | deliverPull =>
    simp only [Sim.procStep] at hs
    rcases he : s.pullT with _ | ⟨⟨t, pr⟩, rest⟩ <;>
      simp only [he, reduceCtorEq, Option.ite_none_right_eq_some, Option.some.injEq] at hs
    obtain ⟨-, rfl⟩ := hs
    have hm := allReads_cons.mp (by simpa [he] using hi.pullT)
    exact { hi with pullT := hm.2, pullQ := by simpa using ⟨hi.pullQ, hm.1⟩ }
  | balancerRun =>
    obtain ⟨o, ho, rfl⟩ := Option.map_eq_some'.mp hs
    exact hi.applyBalancer h ho
  | pullQueueUpdater =>
    simp [Sim.procStep, Balancer.pullQueueUpdater_of_ne h.kind] at hs
  | fire i =>
    simp [Sim.procStep, hi.updaters] at hs
  | core c =>
    simp only [Sim.procStep, Option.ite_none_right_eq_some] at hs
    exact hi.coreStep h hs.2
  | tick t => cases hs

/-- **A run without writes keeps `ReadInv`.** -/
theorem step {d : Nat} (h : cfg.ReadsOnly d) (hi : ReadInv s) {a : SimAction} {s' : Sim}
    (hs : Sim.step cfg a s = some s') : ReadInv s' := by
  cases a with
  | tick t =>
    simp only [Sim.step, Option.ite_none_right_eq_some, Option.some.injEq] at hs
    obtain ⟨-, rfl⟩ := hs
    exact { hi with }
  | _ => exact hi.procStep h (Sim.step_proc hs nofun).2

theorem init (cfg : SimConfig) : ReadInv (Sim.init cfg) :=
  ⟨rfl, fun _ => rfl, fun _ => trivial, allReads_nil, allReads_nil, fun _ => allReads_nil,
    fun _ => allReads_nil, allReads_nil, allReads_nil⟩

end ReadInv

namespace Sim

/-! ## Runs without writes -/

/-- The Ideal system starts where a read-only system starts. -/
theorem init_readCanon {cfg : SimConfig} {d : Nat} (h : cfg.ReadsOnly d) :
    init (cfg.readCanon d h.depth_pos) = init cfg := by
  have hb : Balancer.init (cfg.bal.readCanon d h.depth_pos) = Balancer.init cfg.bal := by
    simp [Balancer.init, h.kind, BalancerConfig.readCanon]
  simp only [init, SimConfig.readCanon_bal, hb]

/-- Two read-only systems of one workload, from states with the same view, reach states with
the same view under the same actions. -/
theorem runActions_readView {cfg cfg' : SimConfig} {d : Nat} (h : cfg.ReadsOnly d)
    (h' : cfg'.ReadsOnly d) (hc : cfg'.readCanon d h'.depth_pos = cfg.readCanon d h.depth_pos)
    (acts : List SimAction) {s s' : Sim} (hi : ReadInv s) (hi' : ReadInv s')
    (hv : s.readView = s'.readView) :
    (runActions cfg acts s).map readView = (runActions cfg' acts s').map readView := by
  induction acts generalizing s s' with
  | nil => exact congrArg some hv
  | cons a acts ih =>
    have key : (step cfg a s).map readView = (step cfg' a s').map readView := by
      rw [step_readView h hi, step_readView h' hi', hc, hv]
    simp only [runActions]
    rcases h₁ : step cfg a s with _ | t <;> rcases h₂ : step cfg' a s' with _ | t' <;>
      simp only [h₁, h₂, Option.map_none', Option.map_some', reduceCtorEq,
        Option.some.injEq] at key
    · rfl
    · exact ih (hi.step h h₁) (hi'.step h' h₂) key

/-- **The CREW, d-CREW and Ideal systems agree on reads.** Two systems of one workload without
writes (the same generator, service times, overheads, latencies and number of workers), each
with a policy of the JBSQ family of depth limit `d` behind a `LoadBalancer` or a
`DynamicEWLoadBalancer` and workers on the concurrent or the `disregard_conf` path, have runs
with the same views under every schedule of their processes: one runs a schedule exactly when
the other does, and then their channels hold the same messages (every dispatch decision
alike), and their stamps (every request's dispatch, start, end and completion times), clock,
stores and recorded requests are the same. -/
theorem crew_dcrew_ideal_agree_on_reads {cfg cfg' : SimConfig} {d : Nat} (h : cfg.ReadsOnly d)
    (h' : cfg'.ReadsOnly d) (hc : cfg'.readCanon d h'.depth_pos = cfg.readCanon d h.depth_pos)
    (acts : List SimAction) :
    (runActions cfg acts (init cfg)).map readView = (runActions cfg' acts (init cfg')).map readView :=
  runActions_readView h h' hc acts (ReadInv.init cfg) (ReadInv.init cfg')
    (by rw [← init_readCanon h, ← init_readCanon h', hc])

/-- Two workers of the CREW system on a workload of reads of one key. -/
def twoCoreCrewReads : SimConfig where
  bal := ⟨.loadBalancer, ⟨.jbscrew 2 1, 2, by decide, by decide⟩, 1, by decide⟩
  worker := ⟨false, false, false, 0⟩
  reqsToSim := 2
  gap _ := 100
  keyOf _ := 0
  writeOf _ := false
  hashOf := id
  servDraw _ _ := 1000
  servTime := 1000
  fixedOverhead := 300
  channelLat := 30

/-- The d-CREW system on the same workload. -/
def twoCoreDcrewReads : SimConfig :=
  { twoCoreCrewReads with
    bal := ⟨.dynamicEW, ⟨.dynJbscrew 2 1 1, 2, by decide, by decide⟩, 1, by decide⟩ }

/-- The first request of the workload generated, handed to the balancer and dispatched. -/
def firstReadDispatched : List SimAction := [.generate, .tick 1, .deliverEvent, .balancerRun]

theorem crewReads_agree_with_dcrew :
    twoCoreCrewReads.ReadsOnly 2 ∧ twoCoreDcrewReads.ReadsOnly 2 ∧
      twoCoreDcrewReads.readCanon 2 (by decide) = twoCoreCrewReads.readCanon 2 (by decide) ∧
      (runActions twoCoreCrewReads firstReadDispatched (init twoCoreCrewReads)).map readView =
        (runActions twoCoreDcrewReads firstReadDispatched (init twoCoreDcrewReads)).map readView :=
  have h : twoCoreCrewReads.ReadsOnly 2 := ⟨fun _ => rfl, rfl, nofun, rfl⟩
  have h' : twoCoreDcrewReads.ReadsOnly 2 := ⟨fun _ => rfl, rfl, nofun, rfl⟩
  ⟨h, h', rfl, crew_dcrew_ideal_agree_on_reads h h' rfl _⟩

end Sim

end QueueFlex
