import QueueFlex.Pipeline.Basic

/-! # The workers: `MICAIndexAccessor.run`

One step of a worker's `run` process goes from one `yield` to the next
(`src/components/datastore_rpc.py`, `src/components/rpc_core.py`). The sub-processes that
`run` waits for (`do_write_process`, `req_completion_logic`, `respond_to_batched_writes`)
start at the time they are created, so their code up to their first `yield` runs in the step
that creates them; where a sub-process returns, the continuation (`AfterServe`,
`AfterWrite`, `AfterCompletion`) says what its caller does next.

A request object is the `RPCRequest` together with its `Stamps`. Not modelled: the cache
locality model and the queued-read statistics (both off in the driver), and the counters and
histograms that nothing reads back (`num_cc_spins` histogram, `reads`, `batch_size_hist`,
`delayed_write_latencies`, `numSimulated`, `total_cycles_working`). -/

namespace QueueFlex

namespace Sim

variable (cfg : SimConfig)

/-- `hash(rpc) % num_hash_buckets`: the request's bucket in the shared `BucketedIndex`. -/
def index (r : RPCRequest) : Nat := r.h % cfg.bal.numBuckets

/-- `is_odd`. -/
def isOdd (v : Nat) : Bool := v % 2 == 1

/-- Worker `c` raises an assertion or a `KeyError`: the simulation stops. -/
def raise (s : Sim) (c : Nat) (f : WorkerFault) : Sim := { s with fault := some (.worker c f) }

/-- Suspend core `c` at `pc`. -/
def setPc (s : Sim) (c : Nat) (pc : CorePc) : Sim := s.setCore c { s.cores c with pc := pc }

/-- `yield self.env.timeout(self.serv_time_generator.get())`: core `c` draws its next service
time and waits for it. -/
def serveDrawn (s : Sim) (c : Nat) (rpc : RPCRequest) (next : AfterServe) : Sim :=
  let k := s.cores c
  s.setCore c { k with
    pc := .serve rpc (s.now + cfg.servDraw c k.draws) next
    draws := k.draws + 1 }

/-- `AsyncIndexUpdater(env, bindex, bucket, INDEX_UPDATE_DELAY)`: a process that increments
`bucket` once its timeout expires. -/
def startUpdater (s : Sim) (bucket : Nat) : Sim :=
  { s with
    updaters := s.updaters ++ [⟨s.nextUpdater, bucket, s.now + indexUpdateDelay⟩]
    nextUpdater := s.nextUpdater + 1 }

/-- `do_write_process(bucket)` up to its service timeout: the lock increment is started, and
`k` says where the process returns. -/
def doWriteProcess (s : Sim) (c : Nat) (rpc : RPCRequest) (bucket : Nat) (k : AfterWrite) :
    Sim :=
  serveDrawn cfg (startUpdater s bucket) c rpc (.unlock s.nextUpdater bucket k)

/-- The top of the `run` loop: `while not self.killed`. -/
def loopTop (s : Sim) (c : Nat) : Sim :=
  setPc s c (if (s.cores c).killed then .stopped else .getWait)

/-- `req_completion_logic(rpc)` up to its overhead timeout. -/
def startCompletion (s : Sim) (c : Nat) (rpc : RPCRequest) (next : AfterCompletion) : Sim :=
  setPc (s.stamp rpc.uid fun st => { st with endProcTime := s.now }) c
    (.completion rpc (s.now + cfg.fixedOverhead) next)

/-- `form_new_batch_logic(req_key)`: some item of the private store has the key; the marker
has no key (`AttributeError`) and is skipped. -/
def formNewBatchLogic (store : List Msg) (key : Nat) : Bool :=
  store.any fun
    | .req r => r.key == key
    | .endOfMeasurements => false

/-- `close_batch_logic(key)`: the batch window is about to end (`now + 1.5 * serv_time >=
comp_time`, doubled to stay in whole units), or no item of the store has the key (the loop
of `form_new_batch_logic`). -/
def closeBatchLogic (s : Sim) (c : Nat) (key : Nat) : Except WorkerFault Bool :=
  match (s.cores c).batchCompletionTime.get? key with
  | none => .error (.batchKeyError key)
  | some compTime =>
    .ok (decide (2 * compTime ≤ 2 * s.now + 3 * cfg.servTime) ||
      !formNewBatchLogic (s.dispS c) key)

/-- The write branch of the concurrent path, after the version check. -/
def beginWrite (s : Sim) (c : Nat) (rpc : RPCRequest) : Sim :=
  let k := s.cores c
  let delayed := s.stamp rpc.uid fun st => { st with delayed := true }
  if cfg.worker.useCompaction then
    match k.batchMap.get? rpc.key with
    | some l =>
      delayed.setCore c { k with
        batchMap := k.batchMap.set rpc.key (l ++ [rpc])
        pc := .serve rpc (s.now + cfg.worker.compactionTime) (.followBatch rpc.key) }
    | none =>
      if formNewBatchLogic (s.dispS c) rpc.key then
        delayed.setCore c { k with
          batchMap := k.batchMap.set rpc.key [rpc]
          batchCompletionTime :=
            k.batchCompletionTime.set rpc.key (s.now + batchWindowFactor * cfg.servTime)
          pc := .serve rpc (s.now + cfg.worker.compactionTime) .newBatch }
      else doWriteProcess cfg s c rpc (index cfg rpc) .run
  else doWriteProcess cfg s c rpc (index cfg rpc) .run

/-- The version check of the concurrent path: spin while the bucket's version is odd, then the
write branch, or an optimistic read that remembers the version it started from. -/
def checkVersion (s : Sim) (c : Nat) (rpc : RPCRequest) : Sim :=
  let v := s.versions (index cfg rpc)
  if isOdd v then
    setPc (s.stamp rpc.uid fun st => { st with numCcSpins := st.numCcSpins + 1 }) c
      (.spin rpc false)
  else if rpc.isWrite then beginWrite cfg s c rpc
  else serveDrawn cfg s c rpc (.recheck v)

/-- The body of the `run` loop for a request, once `rpc.start_proc_time` is stamped: the EREW
path, the `disregard_conf` path or the concurrent path. -/
def startRequest (s : Sim) (c : Nat) (rpc : RPCRequest) : Sim :=
  if cfg.worker.erew then
    if isOdd (s.versions (index cfg rpc)) then raise s c .erewOddVersion
    else if rpc.isWrite then
      let versions := Function.update s.versions (index cfg rpc) (s.versions (index cfg rpc) + 1)
      serveDrawn cfg { s with versions := versions } c rpc (.erewUnlock (index cfg rpc))
    else serveDrawn cfg s c rpc .complete
  else if cfg.worker.disregardConf then serveDrawn cfg s c rpc .complete
  else checkVersion cfg s c rpc

/-- The `run` loop after `rpc = yield self.in_q.get()`: the marker ends the worker
(`check_req_end_sim`, `endSimGraceful`); a request is started. -/
def takeRequest (s : Sim) (c : Nat) : Msg → Sim
  | .endOfMeasurements =>
    loopTop { s.setCore c { s.cores c with killed := true } with
      gen := { s.gen with interrupted := true } } c
  | .req rpc => startRequest cfg (s.stamp rpc.uid fun st => { st with startProcTime := s.now }) c rpc

/-- The loop of `respond_to_batched_writes`: complete the next batched request, and once none
is left, write the final one. -/
def batchNext (s : Sim) (c : Nat) (key : Nat) : List RPCRequest → RPCRequest → Sim
  | r :: rest, final => startCompletion cfg s c r (.batchNext key rest final)
  | [], final => doWriteProcess cfg s c final (index cfg final) (.batch key)

/-- `respond_to_batched_writes(req_key)`: pop the last batched request, which is written;
the others are only completed. -/
def respondToBatchedWrites (s : Sim) (c : Nat) (key : Nat) : Sim :=
  let k := s.cores c
  match k.batchMap.get? key with
  | none => raise s c (.batchKeyError key)
  | some l =>
    match l.getLast? with
    | none => raise s c (.batchPopEmpty key)
    | some final =>
      let k := { k with batchMap := k.batchMap.set key l.dropLast }
      batchNext cfg (s.setCore c k) c key l.dropLast final

/-- `putSTime`: `lastFiveSTimes` keeps the last four times. -/
def putSTime (l : List Nat) (t : Nat) : List Nat :=
  if 5 ≤ (l ++ [t]).length then (l ++ [t]).tail else l ++ [t]

/-- `isSimulationUnstable`, with `kill_sim_threshold = 1000000`. -/
def isSimulationUnstable (l : List Nat) : Bool := l.all fun t => 1000000 ≤ t

/-- `req_completion_logic(rpc)` after its overhead timeout: stamp and record the request, run
the instability check of core 0 (`endSimUnstable`), and acknowledge the request on the pull
channel. -/
def completionEnd (s : Sim) (c : Nat) (rpc : RPCRequest) : Sim :=
  let s := s.stamp rpc.uid fun st => { st with completionTime := s.now }
  let totalTime := s.now - (s.stamps rpc.uid).generatedTime
  let k := s.cores c
  let k := { k with lastSTimes := putSTime k.lastSTimes totalTime }
  let s := { s.setCore c k with recorded := s.recorded ++ [rpc] }
  let s := if c = 0 && isSimulationUnstable k.lastSTimes then
      { s.setCore c { k with killed := true } with
        gen := { s.gen with interrupted := true }
        unstable := true }
    else s
  { s with pullT := s.pullT ++ [(s.now + cfg.channelLat, ⟨c, rpc⟩)] }

/-- What the caller of `do_write_process` does when it returns. -/
def afterWrite (s : Sim) (c : Nat) (rpc : RPCRequest) : AfterWrite → Sim
  | .run => startCompletion cfg s c rpc .loop
  | .batch key => startCompletion cfg s c rpc (.batchEnd key)

/-- What the caller of `req_completion_logic` does when it returns. -/
def afterCompletion (s : Sim) (c : Nat) : AfterCompletion → Sim
  | .loop => loopTop s c
  | .batchNext key rest final => batchNext cfg s c key rest final
  | .batchEnd key =>
    let k := s.cores c
    if (k.batchMap.get? key).isSome && (k.batchCompletionTime.get? key).isSome then
      loopTop (s.setCore c { k with
        batchMap := k.batchMap.erase key
        batchCompletionTime := k.batchCompletionTime.erase key }) c
    else raise s c (.batchKeyError key)

/-- What a worker does when a service timeout of `rpc` expires. -/
def serveEnd (s : Sim) (c : Nat) (rpc : RPCRequest) : AfterServe → Sim
  | .complete => startCompletion cfg s c rpc .loop
  | .recheck prev =>
    if prev ≠ s.versions (index cfg rpc) then
      serveDrawn cfg (s.stamp rpc.uid fun st => { st with numCcAborts := st.numCcAborts + 1 })
        c rpc .complete
    else startCompletion cfg s c rpc .loop
  | .unlock lockId bucket k =>
    if s.updaters.any (·.id == lockId) then raise s c .asyncUpdateNotDone
    else afterWrite cfg (startUpdater s bucket) c rpc k
  | .erewUnlock bucket =>
    let versions := Function.update s.versions bucket (s.versions bucket + 1)
    startCompletion cfg { s with versions := versions } c rpc .loop
  | .followBatch key =>
    match closeBatchLogic cfg s c key with
    | .error f => raise s c f
    | .ok true => respondToBatchedWrites cfg s c key
    | .ok false => loopTop s c
  | .newBatch => loopTop s c

/-- One step of worker `c`'s `run` process, or `none` while it is suspended. -/
def coreStep (s : Sim) (c : Nat) : Option Sim :=
  match (s.cores c).pc with
  | .getWait =>
    match s.dispS c with
    | m :: rest => some (takeRequest cfg { s with dispS := Function.update s.dispS c rest } c m)
    | [] => none
  | .spin rpc woken => if woken then some (checkVersion cfg s c rpc) else none
  | .serve rpc due next => if due ≤ s.now then some (serveEnd cfg s c rpc next) else none
  | .completion rpc due next =>
    if due ≤ s.now then some (afterCompletion cfg (completionEnd cfg s c rpc) c next) else none
  | .stopped => none

end Sim

end QueueFlex
