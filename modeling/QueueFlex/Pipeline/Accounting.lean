import QueueFlex.Pipeline.Refinement

/-! # Where the dispatched requests are

The balancer keeps, per core, one entry in each of its deques for every request dispatched to
the core and not yet acknowledged in `pull_q`. In the pipeline such a request is on the core's
channel, in its store, taken by the worker, or acknowledged with its ack on the pull channel.

A worker has taken a request from its store when its `run` loop holds it, or when the request
waits in `batch_map`. `respond_to_batched_writes` pops the final write from the batch list and
completes the others one by one, acknowledging each, but leaves the list in `batch_map` until
the final write is done: while it runs, the batch's entries are acknowledged requests, and
the requests it has still to complete are those its loop holds (`CorePc.taken`). Counting the
whole `batch_map` counts the acknowledged ones twice (`batch_map_counts_acked_write`).

A batch is only answered when a later write of its key joins it: the time-based flush
`check_batched_writes` is commented out of `run`, so the deadline `batch_completion_time` is
never acted on. `form_new_batch_logic` matches reads as well as writes, so a write that finds
only a read of its key in the store opens a batch that nothing closes: the worker goes back to
waiting on an empty store with the write still in `batch_map`
(`compaction_strands_batched_write`). -/

namespace QueueFlex

/-- The request a worker is processing: the one its `run` loop, or the sub-process it waits
for, is working on. -/
def CorePc.processing : CorePc → List RPCRequest
  | .spin r _ | .serve r _ _ | .completion r _ _ => [r]
  | .getWait | .stopped => []

/-- All the requests in `batch_map`. -/
def Core.batchHeld (k : Core) : List RPCRequest := k.batchMap.entries.flatMap Prod.snd

namespace Sim

open BalancerWorld

variable {cfg : SimConfig}

/-- **Both deques of each core count the requests in its custody**, which is the requests
dispatched to it less its acks consumed by `update_pulls`; so `func_executed` never pops an
empty deque, and without compaction each ack pops the request it acknowledges. -/
theorem deques_count_custody {s : Sim} (hs : Reachable cfg s) :
    (s.fault = none → ∀ c,
      (s.bal.lb.tracking c).length = (s.bal.lb.queuesIncludingProcessingReq c).length ∧
      (s.bal.lb.queuesIncludingProcessingReq c).length =
        (s.inTransit c).length + (reqsOf (s.dispS c)).length + (s.cores c).unacked.length +
          (s.acksInTransit c).length + (acksFrom s.bal.pullQ c).length) ∧
    (∃ w, BalancerWorld.Reachable cfg.bal (!cfg.worker.useCompaction) w ∧ Refines cfg s w ∧
      ∀ c, (onQueue w.dispatched c).length =
        (s.bal.lb.queuesIncludingProcessingReq c).length + (acksFrom w.consumed c).length) ∧
    s.fault ≠ some (.balancer .popFromEmptyDeque) ∧
    (cfg.worker.useCompaction = false → ∀ pr rest, s.bal.pullQ = pr :: rest →
      ∃ lb₁, s.bal.lb.funcExecuted pr.procId = .ok lb₁ ∧
        s.bal.lb.queuesIncludingProcessingReq pr.procId =
          lb₁.queuesIncludingProcessingReq pr.procId ++ [pr.reqCompleted] ∧
        s.bal.lb.tracking pr.procId = lb₁.tracking pr.procId ++ [pr.reqCompleted]) := by
  obtain ⟨w, hw, hr⟩ := reachable_refines hs
  have hi := trackInv_reachable hw
  have hq : ∀ c, (s.bal.lb.queuesIncludingProcessingReq c).length = (w.outstanding c).length :=
    fun c => hr.bal ▸ hi.qipr c
  refine ⟨fun hf c => ⟨?_, ?_⟩, ⟨w, hw, hr, fun c => hq c ▸ hi.sent c⟩, fun h => ?_,
    fun hc pr rest hp => ?_⟩
  · rw [hq, ← hr.bal, hi.tracking]
  · rw [hq, outstanding, List.length_append, (hr.flight hf c).length_eq, hr.bal]
    simp only [Sim.unacked, List.length_append]
    omega
  · exact fault_ne_popFromEmptyDeque hw (by rw [hr.fault, h]; rfl)
  · rw [hc] at hw
    rw [← hr.bal] at hp ⊢
    exact funcExecuted_pops_acked hw hp

/-! ## Batched writes in one worker -/

/-- A single worker with compaction; a read of key 0, then two writes of key 1, one time unit
apart; every service time is 1000, the overhead 300 and the channel latency 30. -/
def oneCoreBatch : SimConfig where
  bal := ⟨.loadBalancer, ⟨.crcw, 1, trivial, by decide⟩, 1, by decide⟩
  worker := ⟨false, false, true, 200⟩
  reqsToSim := 3
  gap k := if k < 2 then 1 else 100000
  keyOf k := if k = 0 then 0 else 1
  writeOf k := k ≠ 0
  hashOf := id
  servDraw _ _ := 1000
  servTime := 1000
  fixedOverhead := 300
  channelLat := 30

/-- The run of `oneCoreBatch` up to the write of the batch's final write: the read is
served, the first write opens a batch, the second joins it and closes it. -/
def batchRun : List SimAction :=
  [.generate, .balancerRun, .tick 1, .generate, .deliverEvent, .balancerRun, .balancerRun,
    .tick 2, .generate, .deliverEvent, .balancerRun, .balancerRun, .tick 3, .deliverEvent,
    .balancerRun, .balancerRun, .tick 31, .deliverDispatch 0, .core 0, .tick 32,
    .deliverDispatch 0, .tick 33, .deliverDispatch 0, .tick 1031, .core 0, .tick 1331,
    .core 0, .core 0, .tick 1361, .deliverPull, .tick 1531, .core 0, .core 0, .tick 1731,
    .core 0, .tick 2031, .core 0]

/-- At the end of `batchRun` the deques of core 0 hold three requests: the batch's final
write, in `do_write_process`, and the read and the first write, acknowledged, one ack on the
pull channel and one in `pull_q`. -/
theorem oneCoreBatch_counts_custody :
    ∃ s, Reachable oneCoreBatch s ∧ s.fault = none ∧
      (s.bal.lb.queuesIncludingProcessingReq 0).length = 3 ∧ (s.cores 0).unacked.length = 1 ∧
      (s.acksInTransit 0).length = 1 ∧ (acksFrom s.bal.pullQ 0).length = 1 ∧
      (s.bal.lb.tracking 0).length = (s.bal.lb.queuesIncludingProcessingReq 0).length ∧
      (s.bal.lb.queuesIncludingProcessingReq 0).length =
        (s.inTransit 0).length + (reqsOf (s.dispS 0)).length + (s.cores 0).unacked.length +
          (s.acksInTransit 0).length + (acksFrom s.bal.pullQ 0).length := by
  have h : (runActions oneCoreBatch batchRun (init oneCoreBatch)).map (fun s =>
      decide (s.fault = none ∧ (s.bal.lb.queuesIncludingProcessingReq 0).length = 3 ∧
        (s.cores 0).unacked.length = 1 ∧ (s.acksInTransit 0).length = 1 ∧
        (acksFrom s.bal.pullQ 0).length = 1)) = some true := by
    decide
  obtain ⟨s, hs, hp⟩ := Option.map_eq_some'.mp h
  have hr := Reachable.runActions _ .refl hs
  obtain ⟨hf, h₁, h₂, h₃, h₄⟩ := of_decide_eq_true hp
  exact ⟨s, hr, hf, h₁, h₂, h₃, h₄, (deques_count_custody hr).1 hf 0⟩

/-- At the end of `batchRun` the first write is both in `batch_map` and acknowledged on the
pull channel: counting the whole of `batch_map` with the request the worker processes gives
four requests for the deques' three. -/
theorem batch_map_counts_acked_write :
    ∃ s, Reachable oneCoreBatch s ∧ s.fault = none ∧
      (s.bal.lb.queuesIncludingProcessingReq 0).length = 3 ∧
      (s.inTransit 0).length + (reqsOf (s.dispS 0)).length + ((s.cores 0).pc.processing).length +
        (s.cores 0).batchHeld.length + (s.acksInTransit 0).length +
        (acksFrom s.bal.pullQ 0).length = 4 := by
  have h : (runActions oneCoreBatch batchRun (init oneCoreBatch)).map (fun s =>
      decide (s.fault = none ∧ (s.bal.lb.queuesIncludingProcessingReq 0).length = 3 ∧
        (s.inTransit 0).length + (reqsOf (s.dispS 0)).length +
          ((s.cores 0).pc.processing).length + (s.cores 0).batchHeld.length +
          (s.acksInTransit 0).length + (acksFrom s.bal.pullQ 0).length = 4)) = some true := by
    decide
  obtain ⟨s, hs, hp⟩ := Option.map_eq_some'.mp h
  exact ⟨s, Reachable.runActions _ .refl hs, of_decide_eq_true hp⟩

/-- One worker with compaction behind a `LoadBalancer` with the CRCW policy; three requests:
a read of key 0, then a write and a read of key 1, one time unit apart; every service time is
1000, the overhead 300, the channel latency 30, and the generator's next gap is long. -/
def oneCoreCompaction : SimConfig where
  bal := ⟨.loadBalancer, ⟨.crcw, 1, trivial, by decide⟩, 1, by decide⟩
  worker := ⟨false, false, true, 200⟩
  reqsToSim := 3
  gap k := if k < 2 then 1 else 100000
  keyOf k := if k = 0 then 0 else 1
  writeOf k := k = 1
  hashOf := id
  servDraw _ _ := 1000
  servTime := 1000
  fixedOverhead := 300
  channelLat := 30

/-- The write of key 1 reaches the worker while the read of key 1 waits in its store, so it
opens a batch; the read is then served and acknowledged, and the worker waits on its empty
store with the write still batched, neither recorded nor acknowledged. -/
theorem compaction_strands_batched_write :
    ∃ s, Reachable oneCoreCompaction s ∧ s.fault = none ∧ (s.cores 0).pc = .getWait ∧
      s.dispS 0 = [] ∧ (s.cores 0).batchMap.get? 1 = some [genReq oneCoreCompaction 1] ∧
      (s.cores 0).batchCompletionTime.get? 1 = some 11331 ∧
      genReq oneCoreCompaction 1 ∉ s.recorded ∧
      s.pullT.all (fun p => p.2.reqCompleted ≠ genReq oneCoreCompaction 1) ∧
      s.bal.pullQ.all (fun pr => pr.reqCompleted ≠ genReq oneCoreCompaction 1) := by
  have h : (runActions oneCoreCompaction
      [.generate, .balancerRun, .tick 1, .generate, .deliverEvent, .balancerRun, .balancerRun,
        .tick 2, .generate, .deliverEvent, .balancerRun, .balancerRun, .tick 3, .deliverEvent,
        .balancerRun, .balancerRun, .tick 31, .deliverDispatch 0, .core 0, .tick 32,
        .deliverDispatch 0, .tick 33, .deliverDispatch 0, .tick 1031, .core 0, .tick 1331,
        .core 0, .core 0, .tick 1361, .deliverPull, .tick 1531, .core 0, .core 0, .tick 2531,
        .core 0, .tick 2831, .core 0] (init oneCoreCompaction)).map (fun s =>
      decide (s.fault = none ∧ (s.cores 0).pc = .getWait ∧ s.dispS 0 = [] ∧
        (s.cores 0).batchMap.get? 1 = some [genReq oneCoreCompaction 1] ∧
        (s.cores 0).batchCompletionTime.get? 1 = some 11331 ∧
        genReq oneCoreCompaction 1 ∉ s.recorded ∧
        s.pullT.all (fun p => p.2.reqCompleted ≠ genReq oneCoreCompaction 1) ∧
        s.bal.pullQ.all (fun pr => pr.reqCompleted ≠ genReq oneCoreCompaction 1))) =
      some true := by decide
  obtain ⟨s, hs, hp⟩ := Option.map_eq_some'.mp h
  exact ⟨s, Reachable.runActions _ .refl hs, of_decide_eq_true hp⟩

end Sim

end QueueFlex
