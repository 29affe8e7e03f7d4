import Mathlib.Logic.Relation
import QueueFlex.Balancer.Basic

/-! # A balancer against every arrival sequence and every ack order

A balancer's correctness has to hold for every arrival sequence and every order in which the
workers' pull-acks come back. `BalancerWorld` runs a balancer against exactly that
environment: any message may arrive in `in_q` at any time, and any request dispatched to a
worker and not yet acknowledged may complete at any time, its ack joining `pull_q`. A run
in which every worker serves its private queue in order only completes the oldest request
of a worker (`BalancerAction.IsFifo`).

`inFlight c` lists, oldest first, the requests put on worker `c`'s queue whose ack has not
reached `pull_q`. The ghost lists `taken`, `dispatched` and `consumed` record, in order, the
requests the `run` process took from `in_q`, the requests put on private queues with their
queue, and the acks handled by `update_pulls`. A raised `Fault` stops both balancer
processes. -/

namespace QueueFlex

/-- The state of a balancer and its environment. -/
structure BalancerWorld where
  bal : Balancer
  inFlight : Nat → List RPCRequest
  fault : Option Fault
  taken : List RPCRequest
  dispatched : List (Nat × RPCRequest)
  consumed : List PullFeedbackRequest

/-- What can happen next. -/
inductive BalancerAction where
  /-- A message reaches `in_q`. -/
  | arrive (m : Msg)
  /-- The `i`-th oldest in-flight request of worker `c` completes; its ack reaches `pull_q`. -/
  | complete (c i : Nat)
  /-- One step of the balancer's `run` process. -/
  | run
  /-- One step of the index-aware balancer's `pull_queue_updater`. -/
  | pullQueueUpdater
deriving DecidableEq, Repr

/-- Workers that serve their private queue in order complete their oldest request first. -/
def BalancerAction.IsFifo : BalancerAction → Prop
  | .complete _ i => i = 0
  | _ => True

/-- The requests among some puts with their queue, in order. -/
def putPairs : Puts → List (Nat × RPCRequest)
  | [] => []
  | (c, .req r) :: ps => (c, r) :: putPairs ps
  | (_, .endOfMeasurements) :: ps => putPairs ps

/-- The requests of a list of (queue, request) pairs that go to queue `c`, in order. -/
def onQueue (l : List (Nat × RPCRequest)) (c : Nat) : List RPCRequest :=
  (l.filter fun p => p.1 = c).map Prod.snd

/-- The requests among some puts that go to queue `c`, in order. -/
def reqsTo (puts : Puts) (c : Nat) : List RPCRequest := onQueue (putPairs puts) c

/-- Puts joining the in-flight lists. -/
def deliver (f : Nat → List RPCRequest) (puts : Puts) : Nat → List RPCRequest :=
  fun c => f c ++ reqsTo puts c

/-- The acks of worker `c` waiting in `pull_q`, in order. -/
def acksFrom (pull : List PullFeedbackRequest) (c : Nat) : List RPCRequest :=
  (pull.filter fun pr => pr.procId = c).map PullFeedbackRequest.reqCompleted

namespace BalancerWorld

variable (cfg : BalancerConfig)

/-- A balancer just built, nothing arrived. -/
def init : BalancerWorld := ⟨Balancer.init cfg, fun _ => [], none, [], [], []⟩

/-- The requests worker `c` has been sent and the balancer has not yet acknowledged, oldest
first: acks waiting in `pull_q`, then the in-flight requests. -/
def outstanding (w : BalancerWorld) (c : Nat) : List RPCRequest :=
  acksFrom w.bal.pullQ c ++ w.inFlight c

/-- The request the `run` process takes from `in_q` in its next step, if it takes one. -/
def takenBy (b : Balancer) : List RPCRequest :=
  match b.pc, b.inQ with
  | .inputWait, .req r :: _ => [r]
  | _, _ => []

/-- The ack the `run` process hands to `update_pulls` in its next step, if any. -/
def consumedByRun (b : Balancer) : List PullFeedbackRequest :=
  match cfg.kind, b.pc, b.pullQ with
  | .indexAware, _, _ => []
  | _, .drainPulls, pr :: _ => [pr]
  | _, .noQueueWait, pr :: _ => [pr]
  | _, _, _ => []

/-- Outside the index-aware balancer, `run` consumes the oldest ack exactly while it drains
the pulls or waits for a queue. -/
theorem consumedByRun_eq {cfg : BalancerConfig} (hk : cfg.kind ≠ .indexAware) (b : Balancer) :
    consumedByRun cfg b =
      if b.pc = .drainPulls ∨ b.pc = .noQueueWait then b.pullQ.take 1 else [] := by
  obtain ⟨lb, pc, ev, inQ, pullQ⟩ := b
  unfold consumedByRun
  cases h : cfg.kind
  · cases pc <;> cases pullQ <;> simp
  · exact absurd h hk
  · cases pc <;> cases pullQ <;> simp

/-- The world after a balancer step with the given outcome. -/
def apply (w : BalancerWorld) (taken : List RPCRequest) (consumed : List PullFeedbackRequest) :
    Except Fault (Balancer × Puts) → BalancerWorld
  | .error f => { w with fault := some f }
  | .ok (b, puts) =>
    { w with
      bal := b
      inFlight := deliver w.inFlight puts
      taken := w.taken ++ taken
      dispatched := w.dispatched ++ putPairs puts
      consumed := w.consumed ++ consumed }

/-- One step, or `none` when the action cannot happen. -/
def step : BalancerAction → BalancerWorld → Option BalancerWorld
  | .arrive m, w => some { w with bal := { w.bal with inQ := w.bal.inQ ++ [m] } }
  | .complete c i, w =>
    match (w.inFlight c)[i]? with
    | none => none
    | some r => some { w with
        inFlight := Function.update w.inFlight c ((w.inFlight c).eraseIdx i)
        bal := { w.bal with pullQ := w.bal.pullQ ++ [⟨c, r⟩] } }
  | .run, w =>
    if w.fault.isSome then none
    else (Balancer.run cfg w.bal).map (apply w (takenBy w.bal) (consumedByRun cfg w.bal))
  | .pullQueueUpdater, w =>
    if w.fault.isSome then none
    else (Balancer.pullQueueUpdater cfg w.bal).map (apply w [] (w.bal.pullQ.take 1))

/-- One step; with `fifo`, workers complete requests in order. -/
def Step (fifo : Bool) (w w' : BalancerWorld) : Prop :=
  ∃ a, (fifo = true → a.IsFifo) ∧ step cfg a w = some w'

/-- The states some run reaches. -/
def Reachable (fifo : Bool) : BalancerWorld → Prop :=
  Relation.ReflTransGen (Step cfg fifo) (init cfg)

/-- **Induction over runs**: a property of the initial state that every step keeps holds in
every reachable state. -/
theorem Reachable.induction {fifo : Bool} {P : BalancerWorld → Prop} (h0 : P (init cfg))
    (hs : ∀ {w w' : BalancerWorld} {a : BalancerAction}, Reachable cfg fifo w → P w →
      (fifo = true → a.IsFifo) → step cfg a w = some w' → P w')
    {w : BalancerWorld} (hw : Reachable cfg fifo w) : P w := by
  induction hw with
  | refl => exact h0
  | tail hr hst ih =>
    obtain ⟨a, ha, hstep⟩ := hst
    exact hs hr ih ha hstep

/-- The world after the actions, in order, or `none` when one of them cannot happen. -/
def runActions : List BalancerAction → BalancerWorld → Option BalancerWorld
  | [], w => some w
  | a :: acts, w => (step cfg a w).bind (runActions acts)

/-- Every state a list of allowed actions leads to from a reachable state is reachable. -/
theorem Reachable.runActions {fifo : Bool} {acts : List BalancerAction} {w w' : BalancerWorld}
    (hw : Reachable cfg fifo w) (ha : ∀ a ∈ acts, fifo = true → a.IsFifo)
    (h : runActions cfg acts w = some w') : Reachable cfg fifo w' := by
  induction acts generalizing w with
  | nil => cases h; exact hw
  | cons a acts ih =>
    obtain ⟨w₁, h₁, h₂⟩ := Option.bind_eq_some.mp h
    exact ih (hw.tail ⟨a, ha a (.head _), h₁⟩) (fun a' h' => ha a' (.tail _ h')) h₂

end BalancerWorld

end QueueFlex
