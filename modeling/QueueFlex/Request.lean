import Mathlib.Logic.Function.Basic
import Mathlib.Data.List.Basic

/-! # Requests, the end marker and pull feedback

The objects that travel through the simulated pipeline (`src/components/requests.py`,
`src/components/request_filter_lambdas.py`).

An `RPCRequest` is a mutable Python object. The balancers and dispatch policies only read
the fields fixed at creation (its id, key, write flag and hash), and they hold the same object
that the workers later stamp. We keep those fields in `RPCRequest`, together with `uid`, the
identity of the Python object, and keep the fields the pipeline writes (timestamps and
concurrency-control counters) in a store indexed by `uid` (`QueueFlex.Pipeline`). -/

namespace QueueFlex

/-- The creation-time fields of an `RPCRequest`: `num` is the id given by the load generator
(`-1` for requests generated after the end marker), `h` the predefined hash. -/
structure RPCRequest where
  uid : Nat
  num : Int
  key : Nat
  isWrite : Bool
  h : Nat
deriving DecidableEq, Repr

namespace RPCRequest

/-- `hash(req) % bucket_mod` (`hash_req_to_bucket`); the same expression is written inline
wherever the source maps a request to a bucket. -/
def bucket (r : RPCRequest) (bucketMod : Nat) : Nat := r.h % bucketMod

end RPCRequest

/-- `reqs_conflict`: two requests conflict when one of them writes and both hash to the
same bucket. -/
def reqsConflict (first second : RPCRequest) (bucketMod : Nat) : Bool :=
  (first.isWrite || second.isWrite) && first.bucket bucketMod == second.bucket bucketMod

theorem reqsConflict_comm (a b : RPCRequest) (m : Nat) :
    reqsConflict a b m = reqsConflict b a m := by
  unfold reqsConflict
  rw [Bool.or_comm]
  congr 1
  exact Bool.eq_iff_iff.mpr (by simp only [beq_iff_eq]; exact eq_comm)

theorem bucket_eq_of_reqsConflict {a b : RPCRequest} {m : Nat} (h : reqsConflict a b m) :
    a.bucket m = b.bucket m := by
  simp only [reqsConflict, Bool.and_eq_true, beq_iff_eq] at h
  exact h.2

/-- What a load generator puts into the input channel: a request, or the
`EndOfMeasurements` marker. -/
inductive Msg where
  | req (r : RPCRequest)
  | endOfMeasurements
deriving DecidableEq, Repr

/-- Modelled from the spec: `EndOfMeasurements` (its module `end_measure.py` is not in the
sources). The spec has it "traverse queues exactly like a request"; where a balancer asks
whether it writes, we answer as for a read. -/
def Msg.getWrite : Msg → Bool
  | .req r => r.isWrite
  | .endOfMeasurements => false

/-- The request a message carries, if any. -/
def Msg.reqs : Msg → List RPCRequest
  | .req r => [r]
  | .endOfMeasurements => []

/-- A `PullFeedbackRequest` as the workers send it: the worker's id and the completed
request. -/
structure PullFeedbackRequest where
  procId : Nat
  reqCompleted : RPCRequest
deriving DecidableEq, Repr

end QueueFlex
