import QueueFlex.Balancer.Basic

/-! # The simulated pipeline: configuration and state

The pipeline of `src/exps/mica_rlu_jbscrew.py`: an `OpenPoissonLoadGen` puts requests on the
event channel (`CommChannel` of delay 1) read by a balancer, which dispatches them on one
`CommChannel` per core (delay `channel_lat`) to `MICAIndexAccessor` workers. The workers
share a `BucketedIndex`, whose versions change through `AsyncIndexUpdater` processes fired
`INDEX_UPDATE_DELAY` after their creation, record completed requests in a
`LatencyStoreWithBreakdown` and acknowledge each on the shared pull channel.

Simulated time is counted in whole units. Each random draw of the source is a function of
its index: the `k`-th gap, key and write roll of the generator and the `k`-th service time of
a core (`SimConfig`); a run is fixed by these draws and by the order in which processes due
at the same time are run, which the step relation leaves free.

A `CommChannel` is the list of values still in their latency process, each with the time it
reaches the store, and the store itself. The balancer's two stores are those of `Balancer`.
The fields that the pipeline writes into an `RPCRequest` object are kept per object identity
in `Stamps`. -/

namespace QueueFlex

/-- `INDEX_UPDATE_DELAY`. -/
def indexUpdateDelay : Nat := 50

/-- `BATCH_WINDOW_FACTOR`. -/
def batchWindowFactor : Nat := 10

/-- The flags a driver gives every `MICAIndexAccessor`. `erew` is `disp_policy == "EREW"`. -/
structure WorkerConfig where
  erew : Bool
  disregardConf : Bool
  useCompaction : Bool
  compactionTime : Nat
deriving DecidableEq, Repr

/-- A pipeline as the driver builds it. `gap k`, `keyOf k` and `writeOf k` are the draws of
the generator for its `k`-th request, `hashOf` is `hash_for_rank`, and `servDraw c k` is the
`k`-th draw of core `c`'s service-time generator. `servTime` and `fixedOverhead` are the
workers' `serv_time` and `fixed_overhead`. -/
structure SimConfig where
  bal : BalancerConfig
  worker : WorkerConfig
  reqsToSim : Nat
  gap : Nat → Nat
  keyOf : Nat → Nat
  writeOf : Nat → Bool
  hashOf : Nat → Nat
  servDraw : Nat → Nat → Nat
  servTime : Nat
  fixedOverhead : Nat
  channelLat : Nat

/-- The fields the pipeline writes into a request object. -/
structure Stamps where
  generatedTime : Nat
  dispatchTime : Nat
  startProcTime : Nat
  endProcTime : Nat
  completionTime : Nat
  numCcSpins : Nat
  numCcAborts : Nat
  delayed : Bool
deriving DecidableEq, Repr

/-- `AbstractRequest.__init__`. -/
def Stamps.init : Stamps := ⟨0, 0, 0, 0, 0, 0, 0, false⟩

/-- A pending `AsyncIndexUpdater`: its identity, the bucket it increments and the time its
timeout fires. -/
structure Updater where
  id : Nat
  bucket : Nat
  fireAt : Nat
deriving DecidableEq, Repr

/-- The load generator's process: requests generated so far, the time of its next put, and
whether it has been interrupted. -/
structure Gen where
  count : Nat
  next : Nat
  interrupted : Bool
deriving DecidableEq, Repr

/-- Where `do_write_process` returns: to the write of the `run` loop, or to
`respond_to_batched_writes` of a key. -/
inductive AfterWrite where
  | run
  | batch (key : Nat)
deriving DecidableEq, Repr

/-- What a worker does when a service timeout of `run` expires. -/
inductive AfterServe where
  /-- The request is served: `req_completion_logic`. -/
  | complete
  /-- An optimistic read re-reads its bucket's version. -/
  | recheck (prevVersion : Nat)
  /-- `do_write_process` after its service time: assert that the lock increment fired, then
  start the unlock increment. -/
  | unlock (lockId bucket : Nat) (k : AfterWrite)
  /-- An EREW write increments its bucket's version again. -/
  | erewUnlock (bucket : Nat)
  /-- A write that joined the batch of `key`: `close_batch_logic`. -/
  | followBatch (key : Nat)
  /-- A write that opened a batch. -/
  | newBatch
deriving DecidableEq, Repr

/-- What a worker does when `req_completion_logic` returns. -/
inductive AfterCompletion where
  /-- Back to the top of the `run` loop. -/
  | loop
  /-- `respond_to_batched_writes` of `key`: complete `rest`, then write `final`. -/
  | batchNext (key : Nat) (rest : List RPCRequest) (final : RPCRequest)
  /-- `respond_to_batched_writes` of `key` is done: delete its entries. -/
  | batchEnd (key : Nat)
deriving DecidableEq, Repr

/-- Where a worker's `run` process is suspended. -/
inductive CorePc where
  /-- `rpc = yield self.in_q.get()`. -/
  | getWait
  /-- Spinning on the version of `rpc`'s bucket: `woken` once an increment succeeded the
  event it yields. -/
  | spin (rpc : RPCRequest) (woken : Bool)
  /-- A service or compaction timeout of `rpc`, expiring at `due`. -/
  | serve (rpc : RPCRequest) (due : Nat) (next : AfterServe)
  /-- The overhead timeout of `req_completion_logic(rpc)`, expiring at `due`. -/
  | completion (rpc : RPCRequest) (due : Nat) (next : AfterCompletion)
  /-- The loop has exited: `killed` was set. -/
  | stopped
deriving DecidableEq, Repr

/-- A `MICAIndexAccessor`: its process, the `killed` flag, how many service times it has
drawn, `batch_map`, `batch_completion_time` and `lastFiveSTimes`. -/
structure Core where
  pc : CorePc
  killed : Bool
  draws : Nat
  batchMap : OrderedDict (List RPCRequest)
  batchCompletionTime : OrderedDict Nat
  lastSTimes : List Nat

/-- A worker just built. -/
def Core.init : Core := ⟨.getWait, false, 0, .empty, .empty, []⟩

/-- The assertions and errors a worker can raise. -/
inductive WorkerFault where
  /-- `assert is_odd(...) is False` of the EREW path. -/
  | erewOddVersion
  /-- "Writer finished a service time but async index update was not done!" -/
  | asyncUpdateNotDone
  /-- A `KeyError` on `batch_map` or `batch_completion_time`. -/
  | batchKeyError (key : Nat)
  /-- `batched_list.pop()` on an empty batch: "pop from empty list". -/
  | batchPopEmpty (key : Nat)
deriving DecidableEq, Repr

/-- What stopped the simulation: a fault of the balancer, or of worker `c`. -/
inductive SimFault where
  | balancer (f : Fault)
  | worker (c : Nat) (f : WorkerFault)
deriving DecidableEq, Repr

/-- The balancer's fault, if the balancer raised it. -/
def SimFault.toFault : SimFault → Option Fault
  | .balancer f => some f
  | .worker _ _ => none

/-- The whole simulation. -/
structure Sim where
  now : Nat
  gen : Gen
  evT : List (Nat × Msg)
  bal : Balancer
  dispT : Nat → List (Nat × Msg)
  dispS : Nat → List Msg
  pullT : List (Nat × PullFeedbackRequest)
  cores : Nat → Core
  versions : Nat → Nat
  updaters : List Updater
  nextUpdater : Nat
  stamps : Nat → Stamps
  recorded : List RPCRequest
  unstable : Bool
  fault : Option SimFault

namespace Sim

variable (cfg : SimConfig)

/-- The pipeline when `env.run()` starts. -/
def init : Sim :=
  { now := 0
    gen := ⟨0, 0, false⟩
    evT := []
    bal := Balancer.init cfg.bal
    dispT := fun _ => []
    dispS := fun _ => []
    pullT := []
    cores := fun _ => Core.init
    versions := fun _ => 0
    updaters := []
    nextUpdater := 0
    stamps := fun _ => Stamps.init
    recorded := []
    unstable := false
    fault := none }

/-- Replace core `c`. -/
def setCore (s : Sim) (c : Nat) (k : Core) : Sim :=
  { s with cores := Function.update s.cores c k }

/-- Update the stamps of request object `uid`. -/
def stamp (s : Sim) (uid : Nat) (f : Stamps → Stamps) : Sim :=
  { s with stamps := Function.update s.stamps uid (f (s.stamps uid)) }

@[simp] theorem setCore_cores_self (s : Sim) (c : Nat) (k : Core) :
    (s.setCore c k).cores c = k := by
  simp [setCore]

@[simp] theorem setCore_cores_ne (s : Sim) {c c' : Nat} (k : Core) (h : c' ≠ c) :
    (s.setCore c k).cores c' = s.cores c' := by
  simp [setCore, h]

end Sim

end QueueFlex
