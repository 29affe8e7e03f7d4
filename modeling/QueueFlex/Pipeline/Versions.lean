import QueueFlex.Pipeline.System

/-! # Who holds a bucket

A write's `do_write_process` takes its bucket with its first `AsyncIndexUpdater` (the lock
increment, `INDEX_UPDATE_DELAY` after it starts) and releases it with its second (the unlock
increment, `INDEX_UPDATE_DELAY` after its service time). Between the two increments it holds
the bucket: `holders s b` counts the executions on `b` whose lock increment has fired and
whose unlock increment has not, those still in their service time (`lockHeld`) and those
whose unlock increment is pending (`unlockPending`).

A write only passes the version check while the version is even, but the lock increment
comes `INDEX_UPDATE_DELAY` later. Under CRCW two writes of one bucket can reach two workers
within that delay: both pass the check, both hold the bucket, and the two lock increments
leave its version even (`crcw_two_writers_hold_bucket`). -/

namespace QueueFlex

namespace Sim

variable (cfg : SimConfig)

/-- The pending updater `id` is the lock increment of the write core `c` is serving. -/
def waitsOn (pc : CorePc) (id : Nat) : Bool :=
  match pc with
  | .serve _ _ (.unlock lockId _ _) => lockId == id
  | _ => false

/-- Core `c` serves a write of `b` in `do_write_process`, and its lock increment has fired. -/
def lockHeld (s : Sim) (b c : Nat) : Bool :=
  match (s.cores c).pc with
  | .serve _ _ (.unlock lockId b' _) => b' == b && !s.updaters.any (·.id == lockId)
  | _ => false

/-- The pending unlock increments of `b`: its updaters that no write in service waits on. -/
def unlockPending (s : Sim) (b : Nat) : List Updater :=
  s.updaters.filter fun u =>
    u.bucket == b && !(List.range cfg.bal.disp.numQueues).any fun c => waitsOn (s.cores c).pc u.id

/-- The `do_write_process` executions on `b` whose lock increment has fired and whose unlock
increment has not. -/
def holders (s : Sim) (b : Nat) : Nat :=
  ((List.range cfg.bal.disp.numQueues).filter (lockHeld s b)).length + (unlockPending cfg s b).length

/-- Two workers on the concurrent path behind a `LoadBalancer` with the CRCW policy, one
bucket; two writes of key 0 one time unit apart; every service time is 1000. -/
def twoCoreCrcw : SimConfig where
  bal := ⟨.loadBalancer, ⟨.crcw, 2, trivial, by decide⟩, 1, by decide⟩
  worker := ⟨false, false, false, 200⟩
  reqsToSim := 2
  gap k := if k = 0 then 1 else 100000
  keyOf _ := 0
  writeOf _ := true
  hashOf := id
  servDraw _ _ := 1000
  servTime := 1000
  fixedOverhead := 300
  channelLat := 30

/-- The two writes go to the two workers and reach them one time unit apart; both find the
version even, and once both lock increments have fired both writes hold bucket 0 while its
version is even again. -/
theorem crcw_two_writers_hold_bucket :
    ∃ s, Reachable twoCoreCrcw s ∧ s.fault = none ∧ holders twoCoreCrcw s 0 = 2 ∧
      s.versions 0 = 2 ∧
      (s.cores 0).pc = .serve (genReq twoCoreCrcw 0) 1031 (.unlock 0 0 .run) ∧
      (s.cores 1).pc = .serve (genReq twoCoreCrcw 1) 1032 (.unlock 1 0 .run) := by
  have h : (runActions twoCoreCrcw
      [.generate, .balancerRun, .tick 1, .generate, .deliverEvent, .balancerRun, .balancerRun,
        .tick 2, .deliverEvent, .balancerRun, .balancerRun, .tick 31, .deliverDispatch 0,
        .core 0, .tick 32, .deliverDispatch 1, .core 1, .tick 81, .fire 0, .tick 82, .fire 0]
      (init twoCoreCrcw)).map (fun s =>
      decide (s.fault = none ∧ holders twoCoreCrcw s 0 = 2 ∧ s.versions 0 = 2 ∧
        (s.cores 0).pc = .serve (genReq twoCoreCrcw 0) 1031 (.unlock 0 0 .run) ∧
        (s.cores 1).pc = .serve (genReq twoCoreCrcw 1) 1032 (.unlock 1 0 .run))) =
      some true := by
    decide
  obtain ⟨s, hs, hp⟩ := Option.map_eq_some'.mp h
  exact ⟨s, Reachable.runActions _ .refl hs, of_decide_eq_true hp⟩

end Sim

end QueueFlex
