import QueueFlex.Request
import QueueFlex.Dispatch.ShortestQueue

/-! # Dispatch policies

The policies of `src/components/dispatch_policies/key_based_policies.py` (CRCW, CREW, EREW)
and `src/components/dispatch_policies/JBSQ.py` (JBSQ, JBSCREW, dynamic JBSCREW), as the
drivers construct them.

Every policy keeps `queue_length_tracking`, one deque per private queue, pushed on the left
by `select` and popped on the right by `func_executed`. A deque is a list read left to
right. Dynamic JBSCREW also keeps `bucket_mappings`, an `OrderedDict` from buckets to
`BucketMappingMetadata`; `OrderedDict` below carries the uniqueness of its keys.

Python errors raised by this code (an `IndexError` of `deque.pop`, a failed `assert`) are
values of `Fault`; the balancers stop on them. -/

namespace QueueFlex

/-- The errors the dispatch and balancer code can raise. -/
inductive Fault where
  /-- `IndexError` of `deque.pop()` in `func_executed`. -/
  | popFromEmptyDeque
  /-- The assertion of `LoadBalancer.select_and_dispatch`. -/
  | selectReturnedFull
  /-- The first assertion of `DynJBSCREWDispatchPolicy.write_req_finished`. -/
  | bucketNotMapped (bucket : Nat)
  /-- The second assertion of `DynJBSCREWDispatchPolicy.write_req_finished`. -/
  | wrongExclQueue (bucket curAssignedQ exclQ : Nat)
  /-- `AttributeError`: `DynamicEWLoadBalancer.update_pulls` calls `write_req_finished` on
  a policy that has none. -/
  | noWriteReqFinished
deriving DecidableEq, Repr

/-- The text Python prints for each fault. -/
def Fault.message : Fault → String
  | .popFromEmptyDeque => "pop from an empty deque"
  | .selectReturnedFull => "selectQueue in JBSQ returned all queues full!"
  | .bucketNotMapped bucket =>
    s!"Bucket {bucket} not in exclusive mappings despite having a write req finished for it!"
  | .wrongExclQueue bucket curAssignedQ exclQ =>
    s!"Bucket {bucket} was currently assigned excl to queue {curAssignedQ}, but a write req finished on queue {exclQ}"
  | .noWriteReqFinished => "object has no attribute 'write_req_finished'"

/-! ## Deques -/

/-- `deque.pop()`: the rightmost element and the rest. -/
def popRight {α : Type} (l : List α) : Except Fault (α × List α) :=
  match l.getLast? with
  | some a => .ok (a, l.dropLast)
  | none => .error .popFromEmptyDeque

theorem popRight_append_singleton {α : Type} (l : List α) (a : α) :
    popRight (l ++ [a]) = .ok (a, l) := by
  simp [popRight]

theorem popRight_nil {α : Type} : popRight ([] : List α) = .error .popFromEmptyDeque := rfl

theorem popRight_ok {α : Type} {l l' : List α} {a : α} (h : popRight l = .ok (a, l')) :
    l = l' ++ [a] := by
  unfold popRight at h
  split at h
  · rename_i hl
    cases h
    exact (List.dropLast_append_getLast? _ hl).symm
  · cases h

theorem popRight_error {α : Type} {l : List α} {f : Fault} (h : popRight l = .error f) :
    f = .popFromEmptyDeque := by
  unfold popRight at h
  split at h
  · cases h
  · exact (Except.error.inj h).symm

/-! ## The exclusive-bucket map -/

/-- `BucketMappingMetadata`: the owning core and the writes still outstanding there. Python
integers are unbounded and signed. -/
structure BucketMappingMetadata where
  core : Nat
  wrsOutstanding : Int
deriving DecidableEq, Repr

/-- A Python dictionary keyed by integers (an `OrderedDict`, or a plain `dict`, which keeps
insertion order too): entries in insertion order, keys distinct. -/
structure OrderedDict (α : Type) where
  entries : List (Nat × α)
  nodup : (entries.map Prod.fst).Nodup

namespace OrderedDict

variable {α : Type}

/-- The empty `OrderedDict()`. -/
def empty : OrderedDict α := ⟨[], List.nodup_nil⟩

/-- The keys, oldest first. -/
def keys (d : OrderedDict α) : List Nat := d.entries.map Prod.fst

/-- `d[k]` when `k in d`. -/
def get? (d : OrderedDict α) (k : Nat) : Option α := d.entries.lookup k

/-- `len(d)`. -/
def size (d : OrderedDict α) : Nat := d.entries.length

/-- `d.popitem(last=False)`: drop the oldest entry. -/
def popFirst (d : OrderedDict α) : OrderedDict α :=
  ⟨d.entries.tail, by simpa only [List.map_tail] using d.nodup.sublist (List.tail_sublist _)⟩

/-- Rewriting the values of the entries at `k` keeps the keys. -/
private theorem map_at_keys (l : List (Nat × α)) (k : Nat)
    (f : α → α) :
    (l.map fun e => if e.1 = k then (e.1, f e.2) else e).map Prod.fst = l.map Prod.fst := by
  simp only [List.map_map]
  congr 1
  funext e
  by_cases h : e.1 = k <;> simp [h]

/-- `d[k] = f(d[k])` in place, as `inc_outstanding_writes` and `dec_outstanding_writes` do. -/
def modify (d : OrderedDict α) (k : Nat) (f : α → α) : OrderedDict α :=
  ⟨d.entries.map fun e => if e.1 = k then (e.1, f e.2) else e, by
    rw [map_at_keys]; exact d.nodup⟩

/-- `d[k] = v`: in place when `k in d`, appended last otherwise. -/
def set (d : OrderedDict α) (k : Nat) (v : α) : OrderedDict α :=
  if hk : k ∈ d.keys then d.modify k fun _ => v
  else ⟨d.entries ++ [(k, v)], by
    rw [List.map_append, List.nodup_append]
    exact ⟨d.nodup, List.nodup_singleton _, List.disjoint_singleton.mpr hk⟩⟩

/-- `del d[k]`. -/
def erase (d : OrderedDict α) (k : Nat) : OrderedDict α :=
  ⟨d.entries.filter fun e => e.1 ≠ k, d.nodup.sublist ((List.filter_sublist _).map _)⟩

theorem get?_eq_none_iff {d : OrderedDict α} {k : Nat} : d.get? k = none ↔ k ∉ d.keys := by
  simp only [get?, keys, List.lookup_eq_none_iff, List.mem_map, bne_iff_ne, ne_eq, not_exists,
    not_and]
  exact ⟨fun h p hp hk => h p hp hk.symm, fun h p hp hk => h p hp hk.symm⟩

theorem mem_of_get?_eq_some {d : OrderedDict α} {k : Nat} {v : α}
    (h : d.get? k = some v) : (k, v) ∈ d.entries := by
  obtain ⟨l₁, l₂, he, -⟩ := List.lookup_eq_some_iff.mp h
  rw [he]; simp

theorem get?_eq_some_of_mem {d : OrderedDict α} {k : Nat} {v : α}
    (h : (k, v) ∈ d.entries) : d.get? k = some v := by
  cases hg : d.get? k with
  | none => exact absurd (List.mem_map_of_mem Prod.fst h) (get?_eq_none_iff.mp hg)
  | some v' =>
    have h' := mem_of_get?_eq_some hg
    have := List.inj_on_of_nodup_map d.nodup h h' rfl
    simp only [Prod.mk.injEq, true_and] at this
    rw [this]

theorem get?_eq_some_iff {d : OrderedDict α} {k : Nat} {v : α} :
    d.get? k = some v ↔ (k, v) ∈ d.entries :=
  ⟨mem_of_get?_eq_some, get?_eq_some_of_mem⟩

private theorem lookup_cons_eq (l : List (Nat × α)) (a k : Nat)
    (b : α) :
    ((a, b) :: l).lookup k = if k = a then some b else l.lookup k := by
  rw [List.lookup_cons]
  by_cases h : k = a
  · subst h; simp
  · have : (k == a) = false := by simpa using h
    rw [this, if_neg h]

private theorem lookup_eq_none_of_not_mem {l : List (Nat × α)} {k : Nat}
    (h : k ∉ l.map Prod.fst) : l.lookup k = none := by
  induction l with
  | nil => rfl
  | cons e l ih =>
    obtain ⟨a, b⟩ := e
    simp only [List.map_cons, List.mem_cons, not_or] at h
    rw [lookup_cons_eq, if_neg h.1, ih h.2]

private theorem lookup_map_at (l : List (Nat × α)) (k k' : Nat)
    (f : α → α) :
    (l.map fun e => if e.1 = k then (e.1, f e.2) else e).lookup k' =
      if k' = k then (l.lookup k').map f else l.lookup k' := by
  induction l with
  | nil => simp
  | cons e l ih =>
    obtain ⟨a, b⟩ := e
    by_cases ha : a = k
    · subst ha; by_cases hk : k' = a <;> simp_all [lookup_cons_eq]
    · by_cases hk : k' = k
      · subst hk; simp_all [lookup_cons_eq, Ne.symm ha]
      · simp_all [lookup_cons_eq]

private theorem lookup_filter_ne (l : List (Nat × α)) (k k' : Nat) :
    (l.filter fun e => e.1 ≠ k).lookup k' = if k' = k then none else l.lookup k' := by
  induction l with
  | nil => simp
  | cons e l ih =>
    obtain ⟨a, b⟩ := e
    rw [List.filter_cons]
    by_cases ha : a = k
    · subst ha
      rw [if_neg (by simp), ih, lookup_cons_eq]
      by_cases hk : k' = a <;> simp [hk]
    · rw [if_pos (by simpa using ha), lookup_cons_eq, lookup_cons_eq, ih]
      by_cases hk : k' = a
      · subst hk; simp [ha]
      · simp [hk]

theorem get?_modify (d : OrderedDict α) (k k' : Nat)
    (f : α → α) :
    (d.modify k f).get? k' = if k' = k then (d.get? k').map f else d.get? k' :=
  lookup_map_at _ _ _ _

theorem get?_set (d : OrderedDict α) (k k' : Nat) (v : α) :
    (d.set k v).get? k' = if k' = k then some v else d.get? k' := by
  unfold set
  split
  · rename_i hk
    rw [get?_modify]
    split
    · subst k'
      cases hg : d.get? k with
      | none => exact absurd hk (get?_eq_none_iff.mp hg)
      | some m => rfl
    · rfl
  · rename_i hk
    simp only [get?, List.lookup_append, lookup_cons_eq, List.lookup_nil]
    by_cases hne : k' = k
    · subst k'
      have : d.entries.lookup k = none := get?_eq_none_iff.mpr hk
      simp [this]
    · cases d.entries.lookup k' <;> simp [hne]

theorem get?_erase (d : OrderedDict α) (k k' : Nat) :
    (d.erase k).get? k' = if k' = k then none else d.get? k' :=
  lookup_filter_ne _ _ _

theorem get?_popFirst (d : OrderedDict α) (k : Nat) :
    d.popFirst.get? k = if d.keys.head? = some k then none else d.get? k := by
  obtain ⟨_ | ⟨⟨a, b⟩, l⟩, hnd⟩ := d
  · rfl
  · simp only [popFirst, get?, keys, List.tail_cons, List.map_cons, List.head?_cons,
      Option.some.injEq, lookup_cons_eq]
    by_cases hk : a = k
    · subst hk
      simpa using lookup_eq_none_of_not_mem (List.nodup_cons.mp hnd).1
    · simp [hk, Ne.symm hk]

theorem keys_set_of_not_mem {d : OrderedDict α} {k : Nat} (hk : k ∉ d.keys)
    (v : α) : (d.set k v).keys = d.keys ++ [k] := by
  rw [set, dif_neg hk]
  simp [keys]

theorem keys_popFirst (d : OrderedDict α) : d.popFirst.keys = d.keys.tail := by
  simp [popFirst, keys, List.map_tail]

theorem size_eq_length_keys (d : OrderedDict α) : d.size = d.keys.length := by
  simp [size, keys]

theorem size_set_le (d : OrderedDict α) (k : Nat) (v : α) :
    (d.set k v).size ≤ d.size + 1 := by
  unfold set; split <;> simp [size, modify]

theorem size_popFirst (d : OrderedDict α) : d.popFirst.size = d.size - 1 := by
  simp [size, popFirst]

/-- The entries other than `k`'s do not see `d[k] = v`. -/
theorem filter_set (d : OrderedDict α) (k : Nat) (v : α) :
    (d.set k v).entries.filter (fun e => e.1 != k) = d.entries.filter fun e => e.1 != k := by
  unfold set modify
  split
  · show (d.entries.map _).filter _ = _
    induction d.entries with
    | nil => rfl
    | cons e l ih => by_cases h : e.1 = k <;> simp [List.filter_cons, h, ih]
  · simp [List.filter_append]

theorem erase_entries (d : OrderedDict α) (k : Nat) :
    (d.erase k).entries = d.entries.filter fun e => e.1 != k :=
  List.filter_congr fun e _ => by by_cases h : e.1 = k <;> simp [h]

theorem filter_ne_of_get?_eq_none {d : OrderedDict α} {k : Nat} (h : d.get? k = none) :
    d.entries.filter (fun e => e.1 != k) = d.entries :=
  List.filter_eq_self.mpr fun e he => by
    have : e.1 ≠ k := fun hk => by rw [← hk, get?_eq_some_of_mem he] at h; cases h
    simpa using this

/-- In a dictionary of lists, the list at `k` and the lists of the other keys make up all of
its values. -/
theorem flatMap_perm_of_get? {β : Type} {d : OrderedDict (List β)} {k : Nat} {v : List β}
    (h : d.get? k = some v) :
    (d.entries.flatMap Prod.snd).Perm (v ++ (d.entries.filter fun e => e.1 != k).flatMap Prod.snd) := by
  obtain ⟨l, hnd⟩ := d
  simp only [get?] at h ⊢
  induction l with
  | nil => cases h
  | cons e l ih =>
    obtain ⟨a, b⟩ := e
    simp only [List.map_cons, List.nodup_cons] at hnd
    by_cases hk : a = k
    · subst hk
      simp only [List.lookup_cons, beq_self_eq_true, Option.some.injEq] at h
      subst h
      have : l.filter (fun e => e.1 != a) = l :=
        List.filter_eq_self.mpr fun e he => by
          have : e.1 ≠ a := fun h' => hnd.1 (h' ▸ List.mem_map_of_mem Prod.fst he)
          simpa using this
      simp [this]
    · have h' : l.lookup k = some v := by
        rwa [List.lookup_cons, show (k == a) = false from by simpa using Ne.symm hk] at h
      have hb : (a != k) = true := by simpa using hk
      rw [List.flatMap_cons, List.filter_cons, if_pos hb, List.flatMap_cons]
      exact ((ih hnd.2 h').append_left b).trans (by
        rw [← List.append_assoc, ← List.append_assoc]
        exact List.perm_append_comm.append_right _)

end OrderedDict

/-! ## Policies -/

/-- The dispatch policies the drivers build, with their constructor arguments:
`CRCWDispatchPolicy`, `CREWDispatchPolicy(num_buckets)`, `EREWDispatchPolicy(num_buckets)`,
`JBSQDispatchPolicy(bound)`, `JBSCREWDispatchPolicy(bound_depth, num_hash_buckets)` and
`DynJBSCREWDispatchPolicy(bound_depth, num_hash_buckets, max_buckets_tracking)`. -/
inductive DispatchPolicy where
  | crcw
  | crew (numBuckets : Nat)
  | erew (numBuckets : Nat)
  | jbsq (depthLimit : Nat)
  | jbscrew (depthLimit numHashBuckets : Nat)
  | dynJbscrew (depthLimit numHashBuckets maxBucketsTracking : Nat)
deriving DecidableEq, Repr

namespace DispatchPolicy

/-- `isinstance(dispatch_policy, JBSQDispatchPolicy)`. -/
def isJBSQ : DispatchPolicy → Bool
  | .jbsq _ | .jbscrew _ _ | .dynJbscrew _ _ _ => true
  | _ => false

/-- The depth limit of a policy of the JBSQ family. -/
def depthLimit? : DispatchPolicy → Option Nat
  | .jbsq d | .jbscrew d _ | .dynJbscrew d _ _ => some d
  | _ => none

/-- Constructor arguments that do not fail at once: `JBSQ(0)` raises `ValueError`, a bucket
count of zero raises `ZeroDivisionError` on the first request, and `popitem` of an empty
`OrderedDict` raises `KeyError` when `max_buckets_tracking` is zero. -/
def WF : DispatchPolicy → Prop
  | .crcw => True
  | .crew b | .erew b | .jbsq b => 0 < b
  | .jbscrew d b => 0 < d ∧ 0 < b
  | .dynJbscrew d b m => 0 < d ∧ 0 < b ∧ 0 < m

instance : DecidablePred WF
  | .crcw => inferInstanceAs (Decidable True)
  | .crew b | .erew b | .jbsq b => inferInstanceAs (Decidable (0 < b))
  | .jbscrew d b => inferInstanceAs (Decidable (0 < d ∧ 0 < b))
  | .dynJbscrew d b m => inferInstanceAs (Decidable (0 < d ∧ 0 < b ∧ 0 < m))

end DispatchPolicy

/-- A policy over `numQueues` private queues, as the drivers build it. -/
structure Dispatcher where
  policy : DispatchPolicy
  numQueues : Nat
  policy_wf : policy.WF
  numQueues_pos : 0 < numQueues

/-- The state of a policy: the tracking deques, the exclusive-bucket map of dynamic JBSCREW
and its statistics counters (`balanced_writes`, `excl_writes`, `balanced_reads`,
`linearized_reads`, `bucket_load_counter`). Policies without a map leave it empty. -/
structure PolicyState where
  queueLengthTracking : Nat → List RPCRequest
  bucketMappings : OrderedDict BucketMappingMetadata
  balancedWrites : Nat
  exclWrites : Nat
  balancedReads : Nat
  linearizedReads : Nat
  bucketLoadCounter : Nat → Nat

namespace PolicyState

/-- The state right after construction. -/
def init : PolicyState :=
  ⟨fun _ => [], OrderedDict.empty, 0, 0, 0, 0, fun _ => 0⟩

/-- The depths of the `n` tracking deques, as `find_shortest_q` reads them. -/
def lengths (s : PolicyState) (n : Nat) : List Nat :=
  (List.range n).map fun q => (s.queueLengthTracking q).length

/-- `queue_length_tracking[q].appendleft(req)`. -/
def trackDispatch (s : PolicyState) (q : Nat) (r : RPCRequest) : PolicyState :=
  { s with queueLengthTracking :=
      Function.update s.queueLengthTracking q (r :: s.queueLengthTracking q) }

/-- `update_bucket_load`: `bucket_load_counter[hash(req) % num_hash_buckets] += 1`. -/
def updateBucketLoad (s : PolicyState) (bucket : Nat) : PolicyState :=
  { s with bucketLoadCounter :=
      Function.update s.bucketLoadCounter bucket (s.bucketLoadCounter bucket + 1) }

/-- `func_executed`: `queue_length_tracking[c_id].pop()`. -/
def funcExecuted (s : PolicyState) (c : Nat) : Except Fault PolicyState := do
  let (_, rest) ← popRight (s.queueLengthTracking c)
  return { s with queueLengthTracking := Function.update s.queueLengthTracking c rest }

end PolicyState

/-! ### Key-based policies -/

/-- `CRCWDispatchPolicy.select`: the shortest tracked queue, whatever the key. -/
def CRCWDispatchPolicy.select (n : Nat) (s : PolicyState) (req : RPCRequest) :
    Option Nat × PolicyState :=
  let shortestQIdx := (findShortestQ (s.lengths n) [] 0).1
  (some shortestQIdx, s.trackDispatch shortestQIdx req)

/-- `CREWDispatchPolicy.select`: writes to the queue of their bucket, reads to the shortest. -/
def CREWDispatchPolicy.select (numBuckets n : Nat) (s : PolicyState) (req : RPCRequest) :
    Option Nat × PolicyState :=
  let finalIdx :=
    if req.isWrite then (req.h % numBuckets) % n else (findShortestQ (s.lengths n) [] 0).1
  (some finalIdx, s.trackDispatch finalIdx req)

/-- `EREWDispatchPolicy.select`: every request to the queue of its bucket. -/
def EREWDispatchPolicy.select (numBuckets n : Nat) (s : PolicyState) (req : RPCRequest) :
    Option Nat × PolicyState :=
  let finalIdx := (req.h % numBuckets) % n
  (some finalIdx, s.trackDispatch finalIdx req)

/-! ### The JBSQ family -/

/-- `JBSQDispatchPolicy.no_queue_available`: every tracked queue is at the depth limit. -/
def JBSQDispatchPolicy.noQueueAvailable (depthLimit n : Nat) (s : PolicyState) : Bool :=
  depthLimit ≤ (findShortestQ (s.lengths n) [] 0).2

/-- `JBSQDispatchPolicy.select`: the shortest queue if it is below the depth limit. -/
def JBSQDispatchPolicy.select (depthLimit n : Nat) (s : PolicyState) (req : RPCRequest) :
    Option Nat × PolicyState :=
  let (shortestIdx, shortestLen) := findShortestQ (s.lengths n) [] 0
  if shortestLen < depthLimit then (some shortestIdx, s.trackDispatch shortestIdx req)
  else (none, s)

/-- `JBSCREWDispatchPolicy.select`: writes unconditionally to the queue of their bucket,
reads as JBSQ. -/
def JBSCREWDispatchPolicy.select (depthLimit numHashBuckets n : Nat) (s : PolicyState)
    (req : RPCRequest) : Option Nat × PolicyState :=
  if req.isWrite then
    let bucket := req.h % numHashBuckets
    let qdx := bucket % n
    (some qdx, (s.trackDispatch qdx req).updateBucketLoad (req.h % numHashBuckets))
  else
    let (qdx, qLen) := findShortestQ (s.lengths n) [] 0
    if qLen < depthLimit then
      (some qdx, (s.trackDispatch qdx req).updateBucketLoad (req.h % numHashBuckets))
    else (none, s)

/-- `ExclDispatchDecisionEnum`. -/
inductive ExclDispatchDecisionEnum where
  | lbRead
  | linRead
  | newExclWrite
  | followingExclWrite
deriving DecidableEq, Repr

namespace DynJBSCREWDispatchPolicy

/-- `add_to_excl_bucket`: evict the oldest mapping when the map is full, then map `bucket`
to `exclQ` with one outstanding write. -/
def addToExclBucket (maxBucketsTracking : Nat) (d : OrderedDict BucketMappingMetadata)
    (bucket exclQ : Nat) : OrderedDict BucketMappingMetadata :=
  let d := if maxBucketsTracking ≤ d.size then d.popFirst else d
  d.set bucket ⟨exclQ, 1⟩

/-- `update_metadata`: the statistics and map update of a dispatch decision, then the
tracking deque and the bucket-load counter. -/
def updateMetadata (maxBucketsTracking numHashBuckets : Nat) (s : PolicyState)
    (req : RPCRequest) (decision : ExclDispatchDecisionEnum) (queueChosen bucket : Nat) :
    PolicyState :=
  let s := match decision with
    | .lbRead => { s with balancedReads := s.balancedReads + 1 }
    | .linRead => { s with linearizedReads := s.linearizedReads + 1 }
    | .followingExclWrite =>
      { s with
        bucketMappings := s.bucketMappings.modify bucket
          fun m => { m with wrsOutstanding := m.wrsOutstanding + 1 }
        exclWrites := s.exclWrites + 1 }
    | .newExclWrite =>
      { s with
        bucketMappings := addToExclBucket maxBucketsTracking s.bucketMappings bucket queueChosen
        balancedWrites := s.balancedWrites + 1 }
  (s.trackDispatch queueChosen req).updateBucketLoad (req.h % numHashBuckets)

/-- `DynJBSCREWDispatchPolicy.select`. A write to a mapped bucket follows its owner; any
other request goes to the shortest queue if it is below the depth limit, and a write placed
so becomes the owner of its bucket. -/
def select (depthLimit numHashBuckets maxBucketsTracking n : Nat) (s : PolicyState)
    (req : RPCRequest) : Option Nat × PolicyState :=
  let bucket := req.h % numHashBuckets
  let update := updateMetadata maxBucketsTracking numHashBuckets s req
  match s.bucketMappings.get? bucket with
  | some m =>
    if req.isWrite then (some m.core, update .followingExclWrite m.core bucket)
    else
      let (dispQ, qLen) := findShortestQ (s.lengths n) [] 0
      if qLen < depthLimit then (some dispQ, update .lbRead dispQ bucket) else (none, s)
  | none =>
    let (dispQ, qLen) := findShortestQ (s.lengths n) [] 0
    if qLen < depthLimit then
      if req.isWrite then (some dispQ, update .newExclWrite dispQ bucket)
      else (some dispQ, update .lbRead dispQ bucket)
    else (none, s)

/-- `write_req_finished`: both assertions, then one write fewer on `bucket`, and the mapping
deleted when none is left. Returns the new count. -/
def writeReqFinished (s : PolicyState) (bucket exclQ : Nat) : Except Fault (Int × PolicyState) :=
  match s.bucketMappings.get? bucket with
  | none => .error (.bucketNotMapped bucket)
  | some m =>
    if m.core ≠ exclQ then .error (.wrongExclQueue bucket m.core exclQ)
    else
      let newOutstanding := m.wrsOutstanding - 1
      let d := s.bucketMappings.modify bucket fun m => { m with wrsOutstanding := newOutstanding }
      .ok (newOutstanding,
        { s with bucketMappings := if newOutstanding = 0 then d.erase bucket else d })

end DynJBSCREWDispatchPolicy

namespace Dispatcher

variable (D : Dispatcher)

/-- `dispatch_policy.select(req)`: the chosen queue, or `none` for `-1`. -/
def select (s : PolicyState) (req : RPCRequest) : Option Nat × PolicyState :=
  match D.policy with
  | .crcw => CRCWDispatchPolicy.select D.numQueues s req
  | .crew b => CREWDispatchPolicy.select b D.numQueues s req
  | .erew b => EREWDispatchPolicy.select b D.numQueues s req
  | .jbsq d => JBSQDispatchPolicy.select d D.numQueues s req
  | .jbscrew d b => JBSCREWDispatchPolicy.select d b D.numQueues s req
  | .dynJbscrew d b m => DynJBSCREWDispatchPolicy.select d b m D.numQueues s req

/-- `no_queue_available()` of the JBSQ family; the balancers only ask it of those. -/
def noQueueAvailable (s : PolicyState) : Bool :=
  match D.policy with
  | .jbsq d | .jbscrew d _ | .dynJbscrew d _ _ =>
    JBSQDispatchPolicy.noQueueAvailable d D.numQueues s
  | _ => false

end Dispatcher

/-! ## What one call does -/

namespace PolicyState

@[simp] theorem trackDispatch_tracking (s : PolicyState) (q : Nat) (r : RPCRequest) :
    (s.trackDispatch q r).queueLengthTracking =
      Function.update s.queueLengthTracking q (r :: s.queueLengthTracking q) := rfl

@[simp] theorem trackDispatch_mappings (s : PolicyState) (q : Nat) (r : RPCRequest) :
    (s.trackDispatch q r).bucketMappings = s.bucketMappings := rfl

@[simp] theorem updateBucketLoad_tracking (s : PolicyState) (b : Nat) :
    (s.updateBucketLoad b).queueLengthTracking = s.queueLengthTracking := rfl

@[simp] theorem updateBucketLoad_mappings (s : PolicyState) (b : Nat) :
    (s.updateBucketLoad b).bucketMappings = s.bucketMappings := rfl

@[simp] theorem lengths_length (s : PolicyState) (n : Nat) : (s.lengths n).length = n := by
  simp [lengths]

theorem lengths_getD (s : PolicyState) {n j : Nat} (hj : j < n) :
    (s.lengths n).getD j 0 = (s.queueLengthTracking j).length := by
  simp [lengths, hj]

/-- Every core named by the exclusive-bucket map is one of the `n` queues. -/
def CoresBelow (n : Nat) (s : PolicyState) : Prop :=
  ∀ b m, s.bucketMappings.get? b = some m → m.core < n

end PolicyState

theorem findShortestQ_lt {s : PolicyState} {n : Nat} (hn : 0 < n) :
    (findShortestQ (s.lengths n) [] 0).1 < n := by
  simpa using (findShortestQ_default_spec (s.lengths n)).2.2.2 (by simpa using hn)

namespace DynJBSCREWDispatchPolicy

@[simp] theorem updateMetadata_tracking (M B : Nat) (s : PolicyState) (r : RPCRequest)
    (dec : ExclDispatchDecisionEnum) (q b : Nat) :
    (updateMetadata M B s r dec q b).queueLengthTracking =
      Function.update s.queueLengthTracking q (r :: s.queueLengthTracking q) := by
  cases dec <;> rfl

theorem addToExclBucket_get? (M : Nat) (d : OrderedDict BucketMappingMetadata)
    (bucket q k : Nat) :
    (addToExclBucket M d bucket q).get? k =
      if k = bucket then some ⟨q, 1⟩ else (if M ≤ d.size then d.popFirst else d).get? k := by
  simp [addToExclBucket, OrderedDict.get?_set]

/-- A dispatch onto one of the `n` queues keeps every core of the map among them. -/
theorem updateMetadata_coresBelow {n M B : Nat} {s : PolicyState} (hc : s.CoresBelow n)
    {q : Nat} (hq : q < n) (r : RPCRequest) (dec : ExclDispatchDecisionEnum) (b : Nat) :
    (updateMetadata M B s r dec q b).CoresBelow n := by
  intro k m hm
  cases dec <;>
    simp only [updateMetadata, PolicyState.updateBucketLoad_mappings,
      PolicyState.trackDispatch_mappings] at hm
  · exact hc k m hm
  · exact hc k m hm
  · rw [addToExclBucket_get?] at hm
    split at hm
    · cases hm; exact hq
    · split at hm
      · rw [OrderedDict.get?_popFirst] at hm
        split at hm
        · cases hm
        · exact hc k m hm
      · exact hc k m hm
  · rw [OrderedDict.get?_modify] at hm
    split at hm
    · obtain ⟨m', hm', rfl⟩ := Option.map_eq_some'.mp hm
      exact hc k m' hm'
    · exact hc k m hm

/-- **`write_req_finished`** succeeds only on a bucket mapped to `exclQ`, and then lowers its
count by one, deleting the mapping when the count reaches zero. -/
theorem writeReqFinished_ok {s s' : PolicyState} {bucket exclQ : Nat} {n : Int}
    (h : writeReqFinished s bucket exclQ = .ok (n, s')) :
    ∃ m, s.bucketMappings.get? bucket = some m ∧ m.core = exclQ ∧ n = m.wrsOutstanding - 1 ∧
      s' = { s with bucketMappings :=
        let d := s.bucketMappings.modify bucket fun m => { m with wrsOutstanding := n }
        if n = 0 then d.erase bucket else d } := by
  unfold writeReqFinished at h
  split at h
  · cases h
  · rename_i m hm
    split at h
    · cases h
    · rename_i hc
      simp only [Except.ok.injEq, Prod.mk.injEq] at h
      obtain ⟨rfl, rfl⟩ := h
      exact ⟨m, hm, not_not.mp hc, rfl, rfl⟩

/-- `write_req_finished` fails only by one of its assertions. -/
theorem writeReqFinished_error {s : PolicyState} {bucket exclQ : Nat} {f : Fault}
    (h : writeReqFinished s bucket exclQ = .error f) :
    f = .bucketNotMapped bucket ∨ ∃ c, f = .wrongExclQueue bucket c exclQ := by
  unfold writeReqFinished at h
  split at h
  · exact .inl (Except.error.inj h).symm
  · split at h
    · exact .inr ⟨_, (Except.error.inj h).symm⟩
    · cases h

end DynJBSCREWDispatchPolicy

namespace Dispatcher

variable (D : Dispatcher)

/-- **A refused `select`** changes nothing, and the JBSQ check would have refused too. -/
theorem select_none {s s' : PolicyState} {r : RPCRequest} (h : D.select s r = (none, s')) :
    s' = s ∧ D.noQueueAvailable s = true := by
  revert h
  unfold select noQueueAvailable
  cases D.policy with
  | crcw | crew | erew =>
    simp [CRCWDispatchPolicy.select, CREWDispatchPolicy.select, EREWDispatchPolicy.select]
  | jbsq d | jbscrew d b | dynJbscrew d b m =>
    simp only [JBSQDispatchPolicy.select, JBSCREWDispatchPolicy.select,
      DynJBSCREWDispatchPolicy.select, JBSQDispatchPolicy.noQueueAvailable]
    intro h
    repeat' split at h
    all_goals simp_all

/-- **A `select` onto queue `q`** pushes the request on `q`'s tracking deque and touches no
other deque. -/
theorem select_some {s s' : PolicyState} {r : RPCRequest} {q : Nat}
    (h : D.select s r = (some q, s')) :
    s'.queueLengthTracking =
      Function.update s.queueLengthTracking q (r :: s.queueLengthTracking q) := by
  revert h
  unfold select
  cases D.policy with
  | crcw | crew | erew =>
    simp only [CRCWDispatchPolicy.select, CREWDispatchPolicy.select, EREWDispatchPolicy.select,
      Prod.mk.injEq, Option.some.injEq]
    rintro ⟨rfl, rfl⟩
    simp
  | jbsq d | jbscrew d b | dynJbscrew d b m =>
    simp only [JBSQDispatchPolicy.select, JBSCREWDispatchPolicy.select,
      DynJBSCREWDispatchPolicy.select]
    intro h
    repeat' split at h
    all_goals simp only [Prod.mk.injEq, Option.some.injEq, reduceCtorEq, false_and] at h
    all_goals obtain ⟨rfl, rfl⟩ := h
    all_goals simp

/-- **JBSCREW sends a write to the queue of its bucket**, whatever the policy's state. -/
theorem select_jbscrew_write {d H : Nat} (hp : D.policy = .jbscrew d H) {s s' : PolicyState}
    {r : RPCRequest} {q : Nat} (h : D.select s r = (some q, s')) (hw : r.isWrite = true) :
    q = r.h % H % D.numQueues := by
  simp only [select, hp, JBSCREWDispatchPolicy.select, hw, if_true, Prod.mk.injEq,
    Option.some.injEq] at h
  exact h.1.symm

/-- **EREW sends every request to the queue of its bucket.** -/
theorem select_erew {B : Nat} (hp : D.policy = .erew B) {s s' : PolicyState} {r : RPCRequest}
    {q : Nat} (h : D.select s r = (some q, s')) : q = r.h % B % D.numQueues := by
  simp only [select, hp, EREWDispatchPolicy.select, Prod.mk.injEq, Option.some.injEq] at h
  exact h.1.symm

theorem isJBSQ_of_noQueueAvailable {s : PolicyState} (h : D.noQueueAvailable s = true) :
    D.policy.isJBSQ = true := by
  revert h
  unfold noQueueAvailable
  cases D.policy <;> simp [DispatchPolicy.isJBSQ]

/-- `select` returns a queue whenever the JBSQ check lets a request through. -/
theorem select_isSome_of_available {s : PolicyState} (r : RPCRequest)
    (h : D.noQueueAvailable s = false) : (D.select s r).1.isSome := by
  rcases hs : D.select s r with ⟨_ | q, s'⟩
  · simp [(D.select_none hs).2] at h
  · rfl

/-- `select` keeps every core of the exclusive-bucket map among the queues. -/
theorem select_coresBelow {s : PolicyState} {r : RPCRequest} (hc : s.CoresBelow D.numQueues) :
    (D.select s r).2.CoresBelow D.numQueues := by
  have hfsq := findShortestQ_lt (s := s) D.numQueues_pos
  unfold select
  cases D.policy with
  | crcw | crew | erew | jbsq | jbscrew =>
    simp only [CRCWDispatchPolicy.select, CREWDispatchPolicy.select, EREWDispatchPolicy.select,
      JBSQDispatchPolicy.select, JBSCREWDispatchPolicy.select]
    repeat' split
    all_goals exact fun k m hm => hc k m (by simpa using hm)
  | dynJbscrew d b M =>
    simp only [DynJBSCREWDispatchPolicy.select]
    -- `dsimp only` takes the pair apart before `exact`, which would otherwise unfold
    -- `updateMetadata` to compare it with a projection
    split
    · split
      · dsimp only; exact DynJBSCREWDispatchPolicy.updateMetadata_coresBelow hc (hc _ _ ‹_›) _ _ _
      · split
        · dsimp only; exact DynJBSCREWDispatchPolicy.updateMetadata_coresBelow hc hfsq _ _ _
        · exact hc
    · split
      · split <;> (dsimp only; exact DynJBSCREWDispatchPolicy.updateMetadata_coresBelow hc hfsq _ _ _)
      · exact hc

/-- The queue `select` returns is one of the `numQueues` queues, when the exclusive-bucket
map names only those. -/
theorem select_lt {s : PolicyState} {r : RPCRequest} {q : Nat}
    (hc : s.CoresBelow D.numQueues) (h : (D.select s r).1 = some q) : q < D.numQueues := by
  have hn := D.numQueues_pos
  have hfsq := findShortestQ_lt (s := s) hn
  unfold select at h
  cases hp : D.policy with
  | crcw | crew | erew =>
    simp only [hp, CRCWDispatchPolicy.select, CREWDispatchPolicy.select,
      EREWDispatchPolicy.select, Option.some.injEq] at h
    subst h
    try split
    all_goals first | with_reducible exact hfsq | exact Nat.mod_lt _ hn
  | jbsq d | jbscrew d b =>
    simp only [hp, JBSQDispatchPolicy.select, JBSCREWDispatchPolicy.select] at h
    repeat' split at h
    all_goals cases h
    all_goals first | with_reducible exact hfsq | exact Nat.mod_lt _ hn
  | dynJbscrew d b m =>
    simp only [hp, DynJBSCREWDispatchPolicy.select] at h
    repeat' split at h
    all_goals cases h
    all_goals first | with_reducible exact hfsq | exact hc _ _ ‹_›

end Dispatcher

end QueueFlex
