import Mathlib.Logic.Relation
import QueueFlex.Pipeline.Worker

/-! # The pipeline's processes and clock

`SimAction` lists what can happen next: a step of one of the pipeline's processes (the load
generator, a channel's latency process handing a value to its store, a balancer process, an
`AsyncIndexUpdater`, a worker), or the clock moving on. As in `simpy`, the clock moves only
when no process can run at the current time, and never past the time a process waits for
(`quiet`, `noEventBefore`). Processes due at the same time run in any order: `simpy` runs them
in the order their events were scheduled, which is one of these orders.

A raised assertion or `KeyError` propagates out of `env.run()`: once `fault` is set nothing
happens any more. -/

namespace QueueFlex

namespace Sim

variable (cfg : SimConfig)

/-- The request `gen_new_req` builds as the generator's `k`-th: id `k` before the marker and
`-1` after it. The object's identity is `k`. -/
def genReq (k : Nat) : RPCRequest :=
  ⟨k, if k < cfg.reqsToSim then k else -1, cfg.keyOf k, cfg.writeOf k, cfg.hashOf (cfg.keyOf k)⟩

/-- One step of `OpenPoissonLoadGen.run`, when its timeout expires: the next request (after
the `reqs_to_sim`-th, first the `EndOfMeasurements` marker) goes on the event channel, whose
delay is 1, and the generator waits for its next gap. -/
def generate (s : Sim) : Sim :=
  let k := s.gen.count
  let r := genReq cfg k
  let marker := if k = cfg.reqsToSim then [(s.now + 1, Msg.endOfMeasurements)] else []
  { s.stamp r.uid (fun st => { st with generatedTime := s.now }) with
    evT := s.evT ++ marker ++ [(s.now + 1, .req r)]
    gen := { s.gen with count := k + 1, next := s.now + cfg.gap k } }

/-- The balancer's puts on the private queues: each reaches its core's store `channel_lat`
later, and each request is stamped with its `dispatch_time`. -/
def dispatchPuts (s : Sim) : Puts → Sim
  | [] => s
  | (q, m) :: ps =>
    let s := match m with
      | .req r => s.stamp r.uid fun st => { st with dispatchTime := s.now }
      | .endOfMeasurements => s
    let dispT := Function.update s.dispT q (s.dispT q ++ [(s.now + cfg.channelLat, m)])
    dispatchPuts { s with dispT := dispT } ps

/-- The pipeline after a balancer step with the given outcome. -/
def applyBalancer (s : Sim) : Except Fault (Balancer × Puts) → Sim
  | .error f => { s with fault := some (.balancer f) }
  | .ok (b, puts) => dispatchPuts cfg { s with bal := b } puts

/-- The waiter of core `c` on bucket `bucket` has its event succeeded. -/
def wake (bucket : Nat) (k : Core) : Core :=
  match k.pc with
  | .spin rpc _ => if index cfg rpc = bucket then { k with pc := .spin rpc true } else k
  | _ => k

/-- `AsyncIndexUpdater.run` after its timeout: increment the bucket and succeed every event
waiting on it (`succeed_event_for_bucket`). -/
def fireUpdater (s : Sim) (i : Nat) (u : Updater) : Sim :=
  { s with
    versions := Function.update s.versions u.bucket (s.versions u.bucket + 1)
    cores := fun c => wake cfg u.bucket (s.cores c)
    updaters := s.updaters.eraseIdx i }

end Sim

/-- What can happen next. -/
inductive SimAction where
  /-- The load generator's timeout expires. -/
  | generate
  /-- The oldest value on the event channel reaches the balancer's `in_q`. -/
  | deliverEvent
  /-- The oldest value on core `c`'s channel reaches its store. -/
  | deliverDispatch (c : Nat)
  /-- The oldest ack on the pull channel reaches the balancer's `pull_q`. -/
  | deliverPull
  /-- A step of the balancer's `run` process. -/
  | balancerRun
  /-- A step of the index-aware balancer's `pull_queue_updater`. -/
  | pullQueueUpdater
  /-- The `i`-th pending `AsyncIndexUpdater` fires. -/
  | fire (i : Nat)
  /-- A step of worker `c`. -/
  | core (c : Nat)
  /-- The clock moves to `t`. -/
  | tick (t : Nat)
deriving DecidableEq, Repr

namespace Sim

variable (cfg : SimConfig)

/-- A step of a process at the current time, or `none` when it cannot run. -/
def procStep (a : SimAction) (s : Sim) : Option Sim :=
  match a with
  | .generate =>
    if !s.gen.interrupted && s.gen.next ≤ s.now then some (generate cfg s) else none
  | .deliverEvent =>
    match s.evT with
    | (t, m) :: rest =>
      if t ≤ s.now then some { s with evT := rest, bal := { s.bal with inQ := s.bal.inQ ++ [m] } }
      else none
    | [] => none
  | .deliverDispatch c =>
    match s.dispT c with
    | (t, m) :: rest =>
      if c < cfg.bal.disp.numQueues ∧ t ≤ s.now then
        some { s with
          dispT := Function.update s.dispT c rest
          dispS := Function.update s.dispS c (s.dispS c ++ [m]) }
      else none
    | [] => none
  | .deliverPull =>
    match s.pullT with
    | (t, pr) :: rest =>
      if t ≤ s.now then
        some { s with pullT := rest, bal := { s.bal with pullQ := s.bal.pullQ ++ [pr] } }
      else none
    | [] => none
  | .balancerRun => (Balancer.run cfg.bal s.bal).map (applyBalancer cfg s)
  | .pullQueueUpdater => (Balancer.pullQueueUpdater cfg.bal s.bal).map (applyBalancer cfg s)
  | .fire i =>
    match s.updaters[i]? with
    | some u => if u.fireAt ≤ s.now then some (fireUpdater cfg s i u) else none
    | none => none
  | .core c => if c < cfg.bal.disp.numQueues then coreStep cfg s c else none
  | .tick _ => none

/-- A step of a process, unless a fault has stopped the simulation. -/
def instStep (a : SimAction) (s : Sim) : Option Sim :=
  if s.fault.isSome then none else procStep cfg a s

/-- The steps that may run at the current time. -/
def instActions (s : Sim) : List SimAction :=
  [.generate, .deliverEvent, .deliverPull, .balancerRun, .pullQueueUpdater] ++
    (List.range cfg.bal.disp.numQueues).map .deliverDispatch ++
    (List.range cfg.bal.disp.numQueues).map .core ++
    (List.range s.updaters.length).map .fire

/-- No process can run at the current time. -/
def quiet (s : Sim) : Bool := (instActions cfg s).all fun a => (instStep cfg a s).isNone

/-- The time a worker's timeout expires, if it waits on one. -/
def CorePc.due? : CorePc → Option Nat
  | .serve _ due _ | .completion _ due _ => some due
  | _ => none

/-- No process waits for a time before `t`. -/
def noEventBefore (s : Sim) (t : Nat) : Bool :=
  (s.gen.interrupted || t ≤ s.gen.next) && s.evT.all (fun p => t ≤ p.1) &&
    s.pullT.all (fun p => t ≤ p.1) && s.updaters.all (fun u => t ≤ u.fireAt) &&
    (List.range cfg.bal.disp.numQueues).all fun c =>
      (s.dispT c).all (fun p => t ≤ p.1) && ((CorePc.due? (s.cores c).pc).all fun d => t ≤ d)

/-- The event queue is exhausted and `env.run()` returns: no process can run, and none waits
for a time. -/
def exhausted (s : Sim) : Bool :=
  quiet cfg s && s.gen.interrupted && s.evT.isEmpty && s.pullT.isEmpty && s.updaters.isEmpty &&
    (List.range cfg.bal.disp.numQueues).all fun c =>
      (s.dispT c).isEmpty && (CorePc.due? (s.cores c).pc).isNone

/-- One step, or `none` when the action cannot happen. -/
def step : SimAction → Sim → Option Sim
  | .tick t, s =>
    if s.fault.isNone && quiet cfg s && s.now < t && noEventBefore cfg s t then
      some { s with now := t }
    else none
  | a, s => instStep cfg a s

/-- Some process, or the clock, takes a step. -/
abbrev Next (s s' : Sim) : Prop := ∃ a, step cfg a s = some s'

/-- The states some run reaches. -/
def Reachable : Sim → Prop := Relation.ReflTransGen (Next cfg) (init cfg)

/-- **Induction over runs**: a property of the initial state that every step keeps holds in
every reachable state. -/
theorem Reachable.induction {P : Sim → Prop} (h0 : P (init cfg))
    (hs : ∀ {s s' : Sim} {a : SimAction}, Reachable cfg s → P s → step cfg a s = some s' → P s')
    {s : Sim} (hr : Reachable cfg s) : P s := by
  induction hr with
  | refl => exact h0
  | tail hr hst ih =>
    obtain ⟨a, hstep⟩ := hst
    exact hs hr ih hstep

/-- The state after the actions, in order, or `none` when one of them cannot happen. -/
def runActions : List SimAction → Sim → Option Sim
  | [], s => some s
  | a :: acts, s => (step cfg a s).bind (runActions acts)

/-- Every state a list of actions leads to from a reachable state is reachable. -/
theorem Reachable.runActions {acts : List SimAction} {s s' : Sim} (hs : Reachable cfg s)
    (h : runActions cfg acts s = some s') : Reachable cfg s' := by
  induction acts generalizing s with
  | nil => cases h; exact hs
  | cons a acts ih =>
    obtain ⟨s₁, h₁, h₂⟩ := Option.bind_eq_some.mp h
    exact ih (hs.tail ⟨a, h₁⟩) h₂

end Sim

end QueueFlex
