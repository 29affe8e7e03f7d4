import QueueFlex.Dispatch.Policy

/-! # The load balancers

`LoadBalancer`, `IndexAwareLoadBalancer` and `DynamicEWLoadBalancer`
(`src/components/load_balancer.py`).

`LoadBalancer` holds the dispatch policy, `queues_including_processing_req` (a deep copy of
every dispatched request per core, pushed on the left at dispatch and popped on the right per
pull-ack) and, for the index-aware balancer, `blocked_queues` (per bucket, pushed on the left
by `serialize_req` and drained from the right).

A balancer's processes are its `run` loop and, for the index-aware balancer, the
`pull_queue_updater`. Each of their steps below runs from one `yield` to the next; it reads
and consumes the items already in the input store `in_q` and the pull store `pull_q`, and
returns the puts it makes on the private queues. Taking an item from a store and resuming
after the `yield` are one step: no other process reads these stores.

Not modelled: the statistics `private_q_histograms` and `num_times_blocked`, `core_list`
(never set for these workers), `dispatch_to_q` and `get_queue_with_conflict` (not called),
and the `killed` flag of a balancer, which nothing sets. -/

namespace QueueFlex

/-- The three balancer classes. -/
inductive BalancerKind where
  | loadBalancer
  | indexAware
  | dynamicEW
deriving DecidableEq, Repr

/-- A balancer as a driver builds it: its class, its policy, and the bucket count of the
`BucketedIndex` it is given (read by the index-aware and dynamic balancers). -/
structure BalancerConfig where
  kind : BalancerKind
  disp : Dispatcher
  numBuckets : Nat
  numBuckets_pos : 0 < numBuckets

/-- The data of a balancer. -/
structure LoadBalancer where
  dispatchPolicy : PolicyState
  queuesIncludingProcessingReq : Nat → List RPCRequest
  blockedQueues : Nat → List RPCRequest

/-- Where the `run` process of a balancer is suspended, or about to continue. -/
inductive RunPc where
  /-- Top of the loop of `LoadBalancer.run`: handling the outstanding pulls. -/
  | drainPulls
  /-- Inside `while no_queue_available()`, suspended on `pull_q.get()`. -/
  | noQueueWait
  /-- Suspended on `in_q.get()`. -/
  | inputWait
  /-- `IndexAwareLoadBalancer.run` holding a message, suspended on `jbsq_event`. -/
  | jbsqWait (m : Msg)
deriving DecidableEq, Repr

/-- A balancer's processes and the two stores they read. `jbsqEvent` is
`jbsq_event is not None`. -/
structure Balancer where
  lb : LoadBalancer
  pc : RunPc
  jbsqEvent : Bool
  inQ : List Msg
  pullQ : List PullFeedbackRequest

/-- Puts on the private queues, in order: (core, message). -/
abbrev Puts := List (Nat × Msg)

namespace LoadBalancer

variable (cfg : BalancerConfig)

/-- A balancer right after construction. -/
def init : LoadBalancer := ⟨PolicyState.init, fun _ => [], fun _ => []⟩

/-- `queues_including_processing_req[qdx] = l`. -/
def setQipr (lb : LoadBalancer) (qdx : Nat) (l : List RPCRequest) : LoadBalancer :=
  { lb with queuesIncludingProcessingReq := Function.update lb.queuesIncludingProcessingReq qdx l }

/-- `blocked_queues[bucket] = l`. -/
def setBlocked (lb : LoadBalancer) (bucket : Nat) (l : List RPCRequest) : LoadBalancer :=
  { lb with blockedQueues := Function.update lb.blockedQueues bucket l }

/-- `func_executed`: pop `queues_including_processing_req[qdx]`, then the policy's deque. -/
def funcExecuted (lb : LoadBalancer) (qdx : Nat) : Except Fault LoadBalancer := do
  let (_, rest) ← popRight (lb.queuesIncludingProcessingReq qdx)
  let policy ← lb.dispatchPolicy.funcExecuted qdx
  return { lb.setQipr qdx rest with dispatchPolicy := policy }

/-- `select_and_dispatch`: the end marker goes to worker 0; a request goes to the queue
`select` returns, asserting there is one, and a copy of it is recorded. -/
def selectAndDispatch (lb : LoadBalancer) : Msg → Except Fault (LoadBalancer × Puts)
  | .endOfMeasurements => .ok (lb, [(0, .endOfMeasurements)])
  | .req r =>
    match cfg.disp.select lb.dispatchPolicy r with
    | (none, _) => .error .selectReturnedFull
    | (some q, policy) =>
      .ok ({ lb.setQipr q (r :: lb.queuesIncludingProcessingReq q) with dispatchPolicy := policy },
        [(q, .req r)])

/-- `causes_conflict`: some request recorded in `queues_including_processing_req` conflicts
with `r`. -/
def causesConflict (lb : LoadBalancer) (r : RPCRequest) : Bool :=
  (List.range cfg.disp.numQueues).any fun q =>
    (lb.queuesIncludingProcessingReq q).any fun r' => reqsConflict r r' cfg.numBuckets

/-- `serialize_req`: at the tail (`appendleft`) or back at the head (`append`). -/
def serializeReq (lb : LoadBalancer) (r : RPCRequest) (bucket : Nat) (atTail : Bool) :
    LoadBalancer :=
  lb.setBlocked bucket
    (if atTail then r :: lb.blockedQueues bucket else lb.blockedQueues bucket ++ [r])

/-- The JBSQ test of `select_and_dispatch_from_blocked_q`. -/
def queuesFull (lb : LoadBalancer) : Bool :=
  cfg.disp.policy.isJBSQ && cfg.disp.noQueueAvailable lb.dispatchPolicy

/-- The loop of `select_and_dispatch_from_blocked_q`: pop the head of the bucket's blocked
queue and dispatch it unless it conflicts or the queues are full, in which case it goes back
at the head and the loop stops. Each round that continues empties one slot, so `fuel`, the
queue's length, bounds the loop exactly. -/
def drainBlocked (bucket : Nat) : Nat → LoadBalancer → Except Fault (LoadBalancer × Puts)
  | 0, lb => .ok (lb, [])
  | fuel + 1, lb =>
    match (lb.blockedQueues bucket).getLast? with
    | none => .ok (lb, [])
    | some req =>
      let lb := lb.setBlocked bucket (lb.blockedQueues bucket).dropLast
      if !causesConflict cfg lb req && !queuesFull cfg lb then do
        let (lb, puts) ← selectAndDispatch cfg lb (.req req)
        let (lb, puts') ← drainBlocked bucket fuel lb
        return (lb, puts ++ puts')
      else .ok (serializeReq lb req bucket false, [])

/-- `select_and_dispatch_from_blocked_q`. -/
def selectAndDispatchFromBlockedQ (lb : LoadBalancer) (bucket : Nat) :
    Except Fault (LoadBalancer × Puts) :=
  drainBlocked cfg bucket (lb.blockedQueues bucket).length lb

/-- `update_pulls` of each class: `func_executed` for the acknowledging core, then the
blocked-queue drain of the completed request's bucket (index-aware), or
`write_req_finished` for a completed write (dynamic). -/
def updatePulls (lb : LoadBalancer) (pr : PullFeedbackRequest) :
    Except Fault (LoadBalancer × Puts) := do
  let lb ← lb.funcExecuted pr.procId
  let bucketCompleted := pr.reqCompleted.h % cfg.numBuckets
  match cfg.kind with
  | .loadBalancer => return (lb, [])
  | .indexAware => selectAndDispatchFromBlockedQ cfg lb bucketCompleted
  | .dynamicEW =>
    if pr.reqCompleted.isWrite then
      match cfg.disp.policy with
      | .dynJbscrew _ _ _ =>
        let (_, policy) ← DynJBSCREWDispatchPolicy.writeReqFinished lb.dispatchPolicy
          bucketCompleted pr.procId
        return ({ lb with dispatchPolicy := policy }, [])
      | _ => throw .noWriteReqFinished
    else return (lb, [])

/-- The body of `IndexAwareLoadBalancer.run` after the JBSQ wait: the marker goes to worker
0; a request that conflicts, or whose bucket already has blocked requests, is serialized;
any other request is dispatched. -/
def indexAwareDispatch (lb : LoadBalancer) : Msg → Except Fault (LoadBalancer × Puts)
  | .endOfMeasurements => .ok (lb, [(0, .endOfMeasurements)])
  | .req r =>
    let bucket := r.h % cfg.numBuckets
    if causesConflict cfg lb r || !(lb.blockedQueues bucket).isEmpty then
      .ok (serializeReq lb r bucket true, [])
    else selectAndDispatch cfg lb (.req r)

end LoadBalancer

namespace Balancer

variable (cfg : BalancerConfig)

/-- A balancer just built, with its `run` process started. -/
def init : Balancer :=
  { lb := LoadBalancer.init
    pc := if cfg.kind = .indexAware then .inputWait else .drainPulls
    jbsqEvent := false
    inQ := []
    pullQ := [] }

/-- Where `LoadBalancer.run` goes once no pull is pending: it waits for a pull while the JBSQ
policy has no queue available, and for input otherwise. -/
def afterPulls (lb : LoadBalancer) : RunPc :=
  if LoadBalancer.queuesFull cfg lb then .noQueueWait else .inputWait

/-- The JBSQ wait of `IndexAwareLoadBalancer.run` (a read while no queue is available),
or the rest of the loop body. -/
def indexAwareStep (b : Balancer) (m : Msg) : Except Fault (Balancer × Puts) :=
  if LoadBalancer.queuesFull cfg b.lb && !m.getWrite then
    .ok ({ b with pc := .jbsqWait m, jbsqEvent := true }, [])
  else do
    let (lb, puts) ← LoadBalancer.indexAwareDispatch cfg b.lb m
    return ({ b with lb := lb, pc := .inputWait }, puts)

/-- One step of the `run` process, or `none` while it is suspended. -/
def run (b : Balancer) : Option (Except Fault (Balancer × Puts)) :=
  match cfg.kind with
  | .indexAware =>
    match b.pc, b.inQ with
    | .inputWait, m :: rest => some (indexAwareStep cfg { b with inQ := rest } m)
    | .jbsqWait m, _ => if b.jbsqEvent then none else some (indexAwareStep cfg b m)
    | _, _ => none
  | _ =>
    match b.pc, b.pullQ, b.inQ with
    | .drainPulls, pr :: rest, _ => some do
      let (lb, puts) ← LoadBalancer.updatePulls cfg b.lb pr
      return ({ b with lb := lb, pullQ := rest }, puts)
    | .drainPulls, [], _ => some (.ok ({ b with pc := afterPulls cfg b.lb }, []))
    | .noQueueWait, pr :: rest, _ => some do
      let (lb, puts) ← LoadBalancer.updatePulls cfg b.lb pr
      return ({ b with lb := lb, pullQ := rest, pc := afterPulls cfg lb }, puts)
    | .inputWait, _, m :: rest => some do
      let (lb, puts) ← LoadBalancer.selectAndDispatch cfg b.lb m
      return ({ b with lb := lb, inQ := rest, pc := .drainPulls }, puts)
    | _, _, _ => none

/-- One step of `IndexAwareLoadBalancer.pull_queue_updater`: handle one pull, then trigger
`jbsq_event` if it is armed. -/
def pullQueueUpdater (b : Balancer) : Option (Except Fault (Balancer × Puts)) :=
  match cfg.kind, b.pullQ with
  | .indexAware, pr :: rest => some do
    let (lb, puts) ← LoadBalancer.updatePulls cfg b.lb pr
    return ({ b with lb := lb, pullQ := rest, jbsqEvent := false }, puts)
  | _, _ => none

end Balancer

end QueueFlex
