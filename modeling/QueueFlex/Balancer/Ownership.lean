import Mathlib.Algebra.Order.BigOperators.Group.Finset
import QueueFlex.Balancer.Admission

/-! # Exclusive bucket ownership under dynamic JBSCREW

`DynamicEWLoadBalancer` with `DynJBSCREWDispatchPolicy`, as `src/exps/mica_rlu_jbscrew.py`
builds it: the policy hashes with the index's bucket count, and `max_buckets_tracking` is at
least the number of queues times `depth_limit`. With a depth limit at most the sentinel
`1000000000` of `find_shortest_q`, the exclusive-bucket map is exact over every run, against
every arrival sequence and every ack order (`OwnInv`): an entry `b ↦ (o, n)` has `n ≥ 1` and
`n` is the number of writes to `b` sent to core `o` whose ack `update_pulls` has not handled,
no other core has such a write, and no write to an unmapped bucket is outstanding. So the
assertions of `write_req_finished` never fire, and no step of the balancer raises a fault
(`dynJbscrew_map_tracks_outstanding_writes`).

The map never evicts. A core comes to own a bucket only through a write placed on it while
its tracking deque is below the depth limit, and every bucket it owns holds one of its
outstanding writes, so it owns at most `depth_limit` buckets (`OwnInv.owned_le`) and the map
has fewer than `max_buckets_tracking` entries whenever a bucket is added (`size_lt_of_owned`).
With a larger depth limit the JBSQ check lets writes onto full cores and the map does evict
(`QueueFlex.Balancer.Exclusive`). -/

namespace QueueFlex

/-- The writes to `bucket` among `l`, requests mapped to buckets modulo `H`. -/
def writesTo (H bucket : Nat) (l : List RPCRequest) : Nat :=
  l.countP fun r => r.isWrite && r.h % H == bucket

@[simp] theorem writesTo_nil (H b : Nat) : writesTo H b [] = 0 := rfl

@[simp] theorem writesTo_append (H b : Nat) (l l' : List RPCRequest) :
    writesTo H b (l ++ l') = writesTo H b l + writesTo H b l' :=
  List.countP_append _ _ _

@[simp] theorem writesTo_singleton (H b : Nat) (r : RPCRequest) :
    writesTo H b [r] = if r.isWrite ∧ r.h % H = b then 1 else 0 := by
  simp [writesTo, List.countP_cons]

theorem writesTo_perm (H b : Nat) {l l' : List RPCRequest} (h : l.Perm l') :
    writesTo H b l = writesTo H b l' :=
  h.countP_eq _

/-- The writes to `b` that `r` adds to core `c` when it is sent to, or acknowledged by, `c₀`. -/
theorem writesTo_on (H b c c₀ : Nat) (r : RPCRequest) :
    writesTo H b (if c₀ = c then [r] else []) =
      if b = r.h % H ∧ c = c₀ ∧ r.isWrite = true then 1 else 0 := by
  by_cases hc : c = c₀
  · subst hc
    by_cases hb : b = r.h % H
    · subst hb; simp
    · simp [hb, Ne.symm hb]
  · simp [hc, Ne.symm hc]

namespace DynJBSCREWDispatchPolicy

/-- The writes to `bucket` that the map records as outstanding on core `c`: the count of the
bucket's entry if `c` owns it, none otherwise. -/
def owedTo (d : OrderedDict BucketMappingMetadata) (bucket c : Nat) : Int :=
  match d.get? bucket with
  | some m => if m.core = c then m.wrsOutstanding else 0
  | none => 0

/-- The buckets the map assigns to core `o`, oldest first. -/
def ownedBy (d : OrderedDict BucketMappingMetadata) (o : Nat) : List Nat :=
  (d.entries.filter fun e => e.2.core = o).map Prod.fst

theorem owedTo_of_get? {d : OrderedDict BucketMappingMetadata} {b : Nat} {m : BucketMappingMetadata}
    (h : d.get? b = some m) (c : Nat) : owedTo d b c = if m.core = c then m.wrsOutstanding else 0 := by
  simp [owedTo, h]

theorem owedTo_of_get?_none {d : OrderedDict BucketMappingMetadata} {b : Nat}
    (h : d.get? b = none) (c : Nat) : owedTo d b c = 0 := by
  simp [owedTo, h]

theorem mem_ownedBy {d : OrderedDict BucketMappingMetadata} {o b : Nat} :
    b ∈ ownedBy d o ↔ ∃ m, d.get? b = some m ∧ m.core = o := by
  simp [ownedBy, OrderedDict.get?_eq_some_iff]

theorem ownedBy_nodup (d : OrderedDict BucketMappingMetadata) (o : Nat) : (ownedBy d o).Nodup :=
  d.nodup.sublist ((List.filter_sublist _).map _)

/-- Rewriting counts in place keeps who owns what. -/
theorem ownedBy_modify (d : OrderedDict BucketMappingMetadata) (b : Nat)
    {f : BucketMappingMetadata → BucketMappingMetadata} (hf : ∀ m, (f m).core = m.core) (o : Nat) :
    ownedBy (d.modify b f) o = ownedBy d o := by
  simp only [ownedBy, OrderedDict.modify, List.filter_map, List.map_map]
  congr 1
  · funext e; by_cases h : e.1 = b <;> simp [h]
  · congr 1; funext e; by_cases h : e.1 = b <;> simp [h, hf]

theorem ownedBy_erase_sublist (d : OrderedDict BucketMappingMetadata) (b o : Nat) :
    (ownedBy (d.erase b) o).Sublist (ownedBy d o) := by
  simp only [ownedBy, OrderedDict.erase]
  exact ((List.filter_sublist _).filter _).map _

/-- A new bucket is owned last by the core it is given to. -/
theorem ownedBy_set_of_not_mem {d : OrderedDict BucketMappingMetadata} {b : Nat}
    (hb : b ∉ d.keys) (v : BucketMappingMetadata) (o : Nat) :
    ownedBy (d.set b v) o = ownedBy d o ++ if v.core = o then [b] else [] := by
  rw [OrderedDict.set, dif_neg hb]
  by_cases h : v.core = o <;> simp [ownedBy, List.filter_append, h]

/-- The map's size is the number of buckets each core owns, summed over the cores. -/
theorem size_eq_sum_ownedBy {d : OrderedDict BucketMappingMetadata} {n : Nat}
    (h : ∀ e ∈ d.entries, e.2.core < n) :
    d.size = ∑ o in Finset.range n, (ownedBy d o).length := by
  simp only [OrderedDict.size, ownedBy, List.length_map]
  revert h
  generalize d.entries = l
  induction l with
  | nil => simp
  | cons e l ih =>
    intro h
    simp only [List.mem_cons, forall_eq_or_imp] at h
    simp only [List.filter_cons, List.length_cons]
    rw [ih h.2]
    have : ∀ o, (if decide (e.2.core = o) = true then e :: l.filter (fun e => e.2.core = o)
        else l.filter fun e => e.2.core = o).length =
        (l.filter fun e => e.2.core = o).length + if e.2.core = o then 1 else 0 :=
      fun o => by by_cases hc : e.2.core = o <;> simp [hc]
    simp only [this, Finset.sum_add_distrib, Finset.sum_ite_eq, Finset.mem_range,
      if_pos h.1]

/-- **No eviction**: a map whose owners are among `n` cores, each owning at most `k` buckets
and one of them fewer, has fewer than `n * k` entries. -/
theorem size_lt_of_owned {d : OrderedDict BucketMappingMetadata} {n k q : Nat}
    (hc : ∀ e ∈ d.entries, e.2.core < n) (hle : ∀ o, (ownedBy d o).length ≤ k) (hq : q < n)
    (hlt : (ownedBy d q).length < k) : d.size < n * k := by
  rw [size_eq_sum_ownedBy hc]
  calc ∑ o in Finset.range n, (ownedBy d o).length
      < ∑ _o in Finset.range n, k :=
        Finset.sum_lt_sum (fun o _ => hle o) ⟨q, Finset.mem_range.mpr hq, hlt⟩
    _ = n * k := by simp

/-! ## What `select` and `write_req_finished` do to the map -/

/-- **Dynamic JBSCREW's `select`, on the map**: a read leaves it alone; a write to a mapped
bucket goes to its owner and adds one write; a write to an unmapped bucket goes to the shortest
queue, below the depth limit, which becomes the bucket's owner. -/
theorem select_cases {d H M n : Nat} {s s' : PolicyState} {r : RPCRequest} {q : Nat}
    (h : select d H M n s r = (some q, s')) :
    (r.isWrite = false ∧ s'.bucketMappings = s.bucketMappings) ∨
    (r.isWrite = true ∧ ∃ m, s.bucketMappings.get? (r.h % H) = some m ∧ q = m.core ∧
      s'.bucketMappings = s.bucketMappings.modify (r.h % H)
        fun m => { m with wrsOutstanding := m.wrsOutstanding + 1 }) ∨
    (r.isWrite = true ∧ s.bucketMappings.get? (r.h % H) = none ∧
      (findShortestQ (s.lengths n) [] 0).1 = q ∧ (findShortestQ (s.lengths n) [] 0).2 < d ∧
      s'.bucketMappings = addToExclBucket M s.bucketMappings (r.h % H) q) := by
  dsimp only [select] at h
  rcases hm : s.bucketMappings.get? (r.h % H) with _ | m <;> simp only [hm] at h
  all_goals rcases hfs : findShortestQ (s.lengths n) [] 0 with ⟨dispQ, qLen⟩
  all_goals cases hw : r.isWrite <;> simp only [hfs, hw, Bool.false_eq_true, ↓reduceIte] at h
  all_goals try split_ifs at h
  all_goals simp only [Prod.mk.injEq, Option.some.injEq, reduceCtorEq, false_and] at h
  all_goals obtain ⟨rfl, rfl⟩ := h
  all_goals first
    | exact .inl ⟨rfl, rfl⟩
    | exact .inr (.inl ⟨rfl, m, rfl, rfl, rfl⟩)
    | exact .inr (.inr ⟨rfl, rfl, rfl, ‹_›, rfl⟩)

/-- **`write_req_finished`, on the map**: the bucket's entry loses one write, and goes when it
has none left; no other entry changes. -/
theorem get?_writeReqFinished {s s' : PolicyState} {b₀ q : Nat} {n : Int}
    (h : writeReqFinished s b₀ q = .ok (n, s')) (b : Nat) :
    s'.bucketMappings.get? b = if b = b₀ then
      (if n = 0 then none else (s.bucketMappings.get? b₀).map fun m => { m with wrsOutstanding := n })
      else s.bucketMappings.get? b := by
  obtain ⟨m, hm, -, -, rfl⟩ := writeReqFinished_ok h
  dsimp only
  by_cases hb : b = b₀
  · subst hb
    by_cases hn : n = 0 <;> simp [OrderedDict.get?_erase, OrderedDict.get?_modify, hm, hn]
  · by_cases hn : n = 0 <;> simp [OrderedDict.get?_erase, OrderedDict.get?_modify, hb, hn]

theorem owedTo_writeReqFinished {s s' : PolicyState} {b₀ q : Nat} {n : Int}
    (h : writeReqFinished s b₀ q = .ok (n, s')) (b c : Nat) :
    owedTo s'.bucketMappings b c = owedTo s.bucketMappings b c - if b = b₀ ∧ c = q then 1 else 0 := by
  obtain ⟨m, hm, rfl, rfl, -⟩ := writeReqFinished_ok h
  have hg := get?_writeReqFinished h b
  by_cases hb : b = b₀
  · subst hb
    rw [hm] at hg
    by_cases hc : c = m.core
    · subst hc; split_ifs at hg <;> simp_all [owedTo]
    · split_ifs at hg <;> simp_all [owedTo, Ne.symm hc]
  · simp only [hb, if_false] at hg
    simp [owedTo, hg, hb]

theorem ownedBy_writeReqFinished {s s' : PolicyState} {b₀ q : Nat} {n : Int}
    (h : writeReqFinished s b₀ q = .ok (n, s')) (o : Nat) :
    (ownedBy s'.bucketMappings o).Sublist (ownedBy s.bucketMappings o) := by
  obtain ⟨m, -, -, -, rfl⟩ := writeReqFinished_ok h
  have hmod := ownedBy_modify s.bucketMappings b₀ (f := fun m => { m with wrsOutstanding := n })
    (fun _ => rfl) o
  dsimp only
  rw [← hmod]
  split
  · exact ownedBy_erase_sublist _ _ _
  · exact List.Sublist.refl _

theorem owedTo_follow {d : OrderedDict BucketMappingMetadata} {b₀ : Nat}
    {m : BucketMappingMetadata} (hm : d.get? b₀ = some m) (b c : Nat) :
    owedTo (d.modify b₀ fun m => { m with wrsOutstanding := m.wrsOutstanding + 1 }) b c =
      owedTo d b c + if b = b₀ ∧ c = m.core then 1 else 0 := by
  by_cases hb : b = b₀
  · subst hb
    by_cases hc : c = m.core
    · subst hc; simp [owedTo, OrderedDict.get?_modify, hm]
    · simp [owedTo, OrderedDict.get?_modify, hm, hc, Ne.symm hc]
  · simp [owedTo, OrderedDict.get?_modify, hb]

theorem owedTo_set_new {d : OrderedDict BucketMappingMetadata} {b₀ : Nat}
    (hm : d.get? b₀ = none) (q b c : Nat) :
    owedTo (d.set b₀ ⟨q, 1⟩) b c = owedTo d b c + if b = b₀ ∧ c = q then 1 else 0 := by
  by_cases hb : b = b₀
  · subst hb
    by_cases hc : c = q
    · simp [owedTo, OrderedDict.get?_set, hm, hc]
    · simp [owedTo, OrderedDict.get?_set, hm, hc, Ne.symm hc]
  · simp [owedTo, OrderedDict.get?_set, hb]

/-- An entry after `write_req_finished` is an entry before, with the same owner and its count
kept or lowered by one to a non-zero value. -/
theorem writeReqFinished_entry {s s' : PolicyState} {b₀ q : Nat} {n : Int}
    (h : writeReqFinished s b₀ q = .ok (n, s')) {b : Nat} {m' : BucketMappingMetadata}
    (hm' : s'.bucketMappings.get? b = some m') :
    ∃ m, s.bucketMappings.get? b = some m ∧ m'.core = m.core ∧
      (m'.wrsOutstanding = m.wrsOutstanding ∨
        m'.wrsOutstanding = m.wrsOutstanding - 1 ∧ m'.wrsOutstanding ≠ 0) := by
  obtain ⟨m, hm, -, rfl, -⟩ := writeReqFinished_ok h
  rw [get?_writeReqFinished h b] at hm'
  split_ifs at hm' with hb hn
  · subst hb
    rw [hm] at hm'
    obtain rfl := Option.some.inj hm'
    exact ⟨m, hm, rfl, .inr ⟨rfl, hn⟩⟩
  · exact ⟨m', hm', rfl, .inl rfl⟩

theorem writeReqFinished_ne_error {s : PolicyState} {b q : Nat} {m : BucketMappingMetadata}
    (hm : s.bucketMappings.get? b = some m) (hc : m.core = q) (f : Fault) :
    writeReqFinished s b q ≠ .error f := by
  simp [writeReqFinished, hm, hc]

end DynJBSCREWDispatchPolicy

/-! ## The dynamic balancer's `update_pulls` -/

namespace LoadBalancer

variable {cfg : BalancerConfig} {d M : Nat}

/-- **`update_pulls` of the dynamic balancer over dynamic JBSCREW** is `func_executed`, then,
for a completed write, `write_req_finished` on its bucket and the acknowledging core. -/
theorem updatePulls_dynJbscrew_ok (hk : cfg.kind = .dynamicEW)
    (hp : cfg.disp.policy = .dynJbscrew d cfg.numBuckets M) {lb lb' : LoadBalancer}
    {pr : PullFeedbackRequest} {puts : Puts} (h : updatePulls cfg lb pr = .ok (lb', puts)) :
    puts = [] ∧ ((pr.reqCompleted.isWrite = false ∧
        lb'.dispatchPolicy.bucketMappings = lb.dispatchPolicy.bucketMappings) ∨
      (pr.reqCompleted.isWrite = true ∧ ∃ lb₁ n, lb.funcExecuted pr.procId = .ok lb₁ ∧
        DynJBSCREWDispatchPolicy.writeReqFinished lb₁.dispatchPolicy
          (pr.reqCompleted.h % cfg.numBuckets) pr.procId = .ok (n, lb'.dispatchPolicy))) := by
  unfold updatePulls at h
  rcases hf : lb.funcExecuted pr.procId with _ | lb₁
  · simp [hf, bind, Except.bind] at h
  obtain ⟨-, -, -, -, -, -, hmap⟩ := funcExecuted_ok hf
  cases hw : pr.reqCompleted.isWrite <;>
    simp only [hf, hk, hp, hw, bind, Except.bind, Bool.false_eq_true, ↓reduceIte, pure,
      Except.pure, Except.ok.injEq, Prod.mk.injEq] at h
  · obtain ⟨rfl, rfl⟩ := h
    exact ⟨rfl, .inl ⟨rfl, hmap⟩⟩
  · split at h
    · cases h
    · rename_i v hv
      simp only [Except.ok.injEq, Prod.mk.injEq] at h
      obtain ⟨rfl, rfl⟩ := h
      exact ⟨rfl, .inr ⟨rfl, lb₁, v.1, rfl, hv⟩⟩

/-- The dynamic balancer's `update_pulls` fails only in `func_executed`, or in
`write_req_finished` for a completed write. -/
theorem updatePulls_dynJbscrew_error (hk : cfg.kind = .dynamicEW)
    (hp : cfg.disp.policy = .dynJbscrew d cfg.numBuckets M) {lb : LoadBalancer}
    {pr : PullFeedbackRequest} {f : Fault} (h : updatePulls cfg lb pr = .error f) :
    lb.funcExecuted pr.procId = .error f ∨ pr.reqCompleted.isWrite = true ∧
      ∃ lb₁, lb.funcExecuted pr.procId = .ok lb₁ ∧ DynJBSCREWDispatchPolicy.writeReqFinished
        lb₁.dispatchPolicy (pr.reqCompleted.h % cfg.numBuckets) pr.procId = .error f := by
  unfold updatePulls at h
  rcases hf : lb.funcExecuted pr.procId with f' | lb₁
  · simp only [hf, bind, Except.bind, Except.error.injEq] at h
    exact .inl (h ▸ rfl)
  cases hw : pr.reqCompleted.isWrite <;>
    simp only [hf, hk, hp, hw, bind, Except.bind, Bool.false_eq_true, ↓reduceIte, pure,
      Except.pure] at h
  · cases h
  · split at h
    · rename_i hv
      exact .inr ⟨rfl, lb₁, rfl, hv.trans (congrArg _ (Except.error.inj h))⟩
    · cases h

end LoadBalancer

/-! ## The invariant -/

namespace BalancerWorld

open LoadBalancer DynJBSCREWDispatchPolicy

variable {cfg : BalancerConfig}

/-- **Exclusive ownership**: the exclusive-bucket map of the policy records, per bucket and
core, exactly the writes sent to the core and not yet acknowledged. -/
structure OwnInv (cfg : BalancerConfig) (depthLimit : Nat) (w : BalancerWorld) : Prop where
  /-- The writes to `b` outstanding on `c` are what the map owes `c` for `b`: the entry's
  count on its owner, and none on any other core or for an unmapped bucket. -/
  count : ∀ b c, (writesTo cfg.numBuckets b (w.outstanding c) : Int) =
    owedTo w.bal.lb.dispatchPolicy.bucketMappings b c
  /-- Every entry counts at least one write. -/
  pos : ∀ b m, w.bal.lb.dispatchPolicy.bucketMappings.get? b = some m → 0 < m.wrsOutstanding
  /-- No core owns more than `depth_limit` buckets. -/
  owned_le : ∀ o, (ownedBy w.bal.lb.dispatchPolicy.bucketMappings o).length ≤ depthLimit
  /-- Every owner is one of the queues. -/
  cores : w.bal.lb.dispatchPolicy.CoresBelow cfg.disp.numQueues

theorem ownInv_init (k : Nat) : OwnInv cfg k (init cfg) where
  count _ _ := rfl
  pos _ _ h := by cases h
  owned_le _ := Nat.zero_le _
  cores _ _ h := by cases h

section

variable {k : Nat} {w : BalancerWorld}

/-- A bucket with writes outstanding on `c` is mapped to `c`. -/
theorem OwnInv.mapped_of_writes (hi : OwnInv cfg k w) {b c : Nat}
    (h : 0 < writesTo cfg.numBuckets b (w.outstanding c)) :
    ∃ m, w.bal.lb.dispatchPolicy.bucketMappings.get? b = some m ∧ m.core = c := by
  have hc := hi.count b c
  unfold owedTo at hc
  split at hc
  · rename_i m hm
    by_cases hmc : m.core = c
    · exact ⟨m, hm, hmc⟩
    · rw [if_neg hmc] at hc; omega
  · omega

/-- A write outstanding on `c` is to a bucket the map assigns to `c`. -/
theorem OwnInv.owner_of_write (hi : OwnInv cfg k w) {c : Nat} {r : RPCRequest}
    (hr : r ∈ w.outstanding c) (hw : r.isWrite = true) :
    ∃ m, w.bal.lb.dispatchPolicy.bucketMappings.get? (r.h % cfg.numBuckets) = some m ∧
      m.core = c :=
  hi.mapped_of_writes (List.countP_pos_iff.mpr ⟨r, hr, by simp [hw]⟩)

/-- The writes of a bucket outstanding anywhere are all on one core. -/
theorem OwnInv.eq_of_writes (hi : OwnInv cfg k w) {b c c' : Nat}
    (h : 0 < writesTo cfg.numBuckets b (w.outstanding c))
    (h' : 0 < writesTo cfg.numBuckets b (w.outstanding c')) : c = c' := by
  obtain ⟨m, hm, rfl⟩ := hi.mapped_of_writes h
  obtain ⟨m', hm', rfl⟩ := hi.mapped_of_writes h'
  rw [hm] at hm'
  cases hm'
  rfl

/-- A core with writes outstanding is one of the queues. -/
theorem OwnInv.lt_of_writes (hi : OwnInv cfg k w) {b c : Nat}
    (h : 0 < writesTo cfg.numBuckets b (w.outstanding c)) : c < cfg.disp.numQueues := by
  obtain ⟨m, hm, rfl⟩ := hi.mapped_of_writes h
  exact hi.cores b m hm

/-- Each bucket a core owns holds one of its outstanding writes, so it owns no more buckets
than it has outstanding requests. -/
theorem OwnInv.ownedBy_length_le (hi : OwnInv cfg k w) (o : Nat) :
    (ownedBy w.bal.lb.dispatchPolicy.bucketMappings o).length ≤ (w.outstanding o).length := by
  have hsub : ownedBy w.bal.lb.dispatchPolicy.bucketMappings o ⊆
      ((w.outstanding o).filter (·.isWrite)).map (·.h % cfg.numBuckets) := by
    intro b hb
    obtain ⟨m, hm, rfl⟩ := mem_ownedBy.mp hb
    have hc := hi.count b m.core
    rw [owedTo_of_get? hm, if_pos rfl] at hc
    have hpos := hi.pos b m hm
    obtain ⟨r, hr, hrw⟩ :=
      List.countP_pos_iff.mp (by omega : 0 < writesTo cfg.numBuckets b (w.outstanding m.core))
    simp only [Bool.and_eq_true, beq_iff_eq] at hrw
    exact List.mem_map.mpr ⟨r, List.mem_filter.mpr ⟨hr, hrw.1⟩, hrw.2⟩
  calc (ownedBy w.bal.lb.dispatchPolicy.bucketMappings o).length
      ≤ (((w.outstanding o).filter (·.isWrite)).map (·.h % cfg.numBuckets)).length :=
        ((ownedBy_nodup _ _).subperm hsub).length_le
    _ ≤ (w.outstanding o).length := by
        rw [List.length_map]; exact List.length_filter_le _ _

/-- An ack handled by `update_pulls` takes its request off the acknowledging core: one write
fewer to its bucket there if it writes. -/
theorem writesTo_ack {pr : PullFeedbackRequest} {b' : Balancer} {puts : Puts}
    (taken : List RPCRequest) (consumed : List PullFeedbackRequest)
    (hpull : w.bal.pullQ = pr :: b'.pullQ) (hputs : puts = []) (H b c : Nat) :
    (writesTo H b (w.outstanding c) : Int) =
      writesTo H b ((apply w taken consumed (.ok (b', puts))).outstanding c) +
        if b = pr.reqCompleted.h % H ∧ c = pr.procId ∧ pr.reqCompleted.isWrite = true
        then 1 else 0 := by
  subst hputs
  rw [outstanding_apply_ok]
  simp only [outstanding, hpull, acksFrom_cons, List.append_assoc, writesTo_append, writesTo_on,
    reqsTo_nil, writesTo_nil]
  split_ifs <;> push_cast <;> omega

/-- **An ack keeps ownership exact**: a read's ack changes neither the map nor any write
count; a write's ack takes one write off its bucket on the core the map assigns it to, and
`write_req_finished` lowers that entry's count by one. -/
theorem OwnInv.ack {d M : Nat} (hk : cfg.kind = .dynamicEW)
    (hp : cfg.disp.policy = .dynJbscrew d cfg.numBuckets M) (hi : OwnInv cfg k w)
    {pr : PullFeedbackRequest} {b' : Balancer} {puts : Puts} {taken : List RPCRequest}
    {consumed : List PullFeedbackRequest} (hpull : w.bal.pullQ = pr :: b'.pullQ)
    (hu : updatePulls cfg w.bal.lb pr = .ok (b'.lb, puts)) :
    OwnInv cfg k (apply w taken consumed (.ok (b', puts))) := by
  obtain ⟨hputs, hcase⟩ := updatePulls_dynJbscrew_ok hk hp hu
  have hw := writesTo_ack taken consumed hpull hputs cfg.numBuckets
  refine ⟨fun b c => ?_, fun b m' hm' => ?_, fun o => ?_, fun b m' hm' => ?_⟩
  all_goals try simp only [apply_ok_bal] at hm'
  all_goals try simp only [apply_ok_bal]
  all_goals rcases hcase with ⟨hr, hmap⟩ | ⟨hr, lb₁, n, hf, hfin⟩
  · have := hw b c
    simp only [hr, Bool.false_eq_true, and_false, if_false, add_zero] at this
    rw [hmap, ← hi.count, this]
  · obtain ⟨-, -, -, -, -, -, hmap₁⟩ := funcExecuted_ok hf
    have h₁ := hw b c
    have h₂ := owedTo_writeReqFinished hfin b c
    rw [hmap₁, ← hi.count] at h₂
    simp only [hr, and_true] at h₁
    split_ifs at h₁ h₂ <;> omega
  · exact hi.pos b m' (hmap ▸ hm')
  · obtain ⟨-, -, -, -, -, -, hmap₁⟩ := funcExecuted_ok hf
    obtain ⟨m, hm, -, hwr⟩ := writeReqFinished_entry hfin hm'
    have := hi.pos b m (hmap₁ ▸ hm)
    omega
  · exact hmap ▸ hi.owned_le o
  · obtain ⟨-, -, -, -, -, -, hmap₁⟩ := funcExecuted_ok hf
    exact ((ownedBy_writeReqFinished hfin o).length_le).trans (hmap₁ ▸ hi.owned_le o)
  · exact hi.cores b m' (hmap ▸ hm')
  · obtain ⟨-, -, -, -, -, -, hmap₁⟩ := funcExecuted_ok hf
    obtain ⟨m, hm, hc, -⟩ := writeReqFinished_entry hfin hm'
    exact hc ▸ hi.cores b m (hmap₁ ▸ hm)

/-- A request put on queue `q` adds one write to its bucket there if it writes. -/
theorem writesTo_push {b' : Balancer} (taken : List RPCRequest)
    (consumed : List PullFeedbackRequest) (hpull : b'.pullQ = w.bal.pullQ) (H : Nat)
    (r : RPCRequest) (q b c : Nat) :
    (writesTo H b ((apply w taken consumed (.ok (b', [(q, .req r)]))).outstanding c) : Int) =
      writesTo H b (w.outstanding c) +
        if b = r.h % H ∧ c = q ∧ r.isWrite = true then 1 else 0 := by
  rw [outstanding_apply_ok, reqsTo_req]
  simp only [outstanding, hpull, writesTo_append, writesTo_on]
  split_ifs <;> push_cast <;> omega

/-- **A dispatch keeps ownership exact.** A read changes neither the map nor any write count.
A write to a mapped bucket goes to its owner, whose count and entry both grow by one. A write
to an unmapped bucket goes to a queue below the depth limit, which owns fewer than
`depth_limit` buckets; so the map has fewer than `max_buckets_tracking` entries, nothing is
evicted, and the new entry counts the one write. -/
theorem OwnInv.dispatch {d M : Nat} (hp : cfg.disp.policy = .dynJbscrew d cfg.numBuckets M)
    (hd : d ≤ 1000000000) (hM : cfg.disp.numQueues * d ≤ M) (hi : OwnInv cfg d w)
    (ht : TrackInv w) {m : Msg} {b' : Balancer} {puts : Puts} {taken : List RPCRequest}
    {consumed : List PullFeedbackRequest} (hpull : b'.pullQ = w.bal.pullQ)
    (hs : selectAndDispatch cfg w.bal.lb m = .ok (b'.lb, puts)) :
    OwnInv cfg d (apply w taken consumed (.ok (b', puts))) := by
  cases m with
  | endOfMeasurements =>
    simp only [selectAndDispatch, Except.ok.injEq, Prod.mk.injEq] at hs
    obtain ⟨hlb, rfl⟩ := hs
    have ho : ∀ c, (apply w taken consumed (.ok (b', [(0, .endOfMeasurements)]))).outstanding c =
        w.outstanding c := fun c => by rw [outstanding_apply_ok]; simp [outstanding, hpull]
    refine ⟨fun b c => ?_, fun b m' hm' => ?_, fun o => ?_, fun b m' hm' => ?_⟩
    all_goals try simp only [apply_ok_bal, ← hlb] at hm'
    all_goals try simp only [apply_ok_bal, ← hlb]
    exacts [ho c ▸ hi.count b c, hi.pos b m' hm', hi.owned_le o, hi.cores b m' hm']
  | req r =>
    obtain ⟨q, hsel, rfl, -, -⟩ := selectAndDispatch_req_ok hs
    have hw := writesTo_push taken consumed hpull cfg.numBuckets r q
    have hcores : b'.lb.dispatchPolicy.CoresBelow cfg.disp.numQueues := by
      have := cfg.disp.select_coresBelow (r := r) hi.cores
      rwa [hsel] at this
    have hq : q < cfg.disp.numQueues := cfg.disp.select_lt hi.cores (by rw [hsel])
    simp only [Dispatcher.select, hp] at hsel
    rcases select_cases hsel with ⟨hr, hmap⟩ | ⟨hr, mb, hmb, rfl, hmap⟩ |
      ⟨hr, hnone, hfs, hlen, hmap⟩
    · -- a read
      have hmap' : (apply w taken consumed (.ok (b', [(q, .req r)]))).bal.lb.dispatchPolicy.bucketMappings =
          w.bal.lb.dispatchPolicy.bucketMappings := hmap
      refine ⟨fun b c => ?_, fun b m' hm' => hi.pos b m' (hmap' ▸ hm'),
        fun o => hmap' ▸ hi.owned_le o, hcores⟩
      rw [hw, hmap', ← hi.count]
      simp [hr]
    · -- a write following its bucket's owner
      have hmap' : (apply w taken consumed (.ok (b', [(mb.core, .req r)]))).bal.lb.dispatchPolicy.bucketMappings =
          w.bal.lb.dispatchPolicy.bucketMappings.modify (r.h % cfg.numBuckets)
            fun m => { m with wrsOutstanding := m.wrsOutstanding + 1 } := hmap
      refine ⟨fun b c => ?_, fun b m' hm' => ?_, fun o => ?_, hcores⟩
      · rw [hw, hmap', owedTo_follow hmb, ← hi.count]
        simp [hr]
      · rw [hmap', OrderedDict.get?_modify] at hm'
        split_ifs at hm' with hb
        · subst hb
          rw [hmb] at hm'
          cases hm'
          have := hi.pos _ _ hmb
          dsimp only
          omega
        · exact hi.pos b m' hm'
      · rw [hmap', ownedBy_modify _ _ (f := fun m => { m with wrsOutstanding := m.wrsOutstanding + 1 })
          fun _ => rfl]
        exact hi.owned_le o
    · -- a write to an unmapped bucket: its queue owns fewer than `depth_limit` buckets
      have hlt : (ownedBy w.bal.lb.dispatchPolicy.bucketMappings q).length < d := by
        have hspec := (findShortestQ_default_spec
          (w.bal.lb.dispatchPolicy.lengths cfg.disp.numQueues)).2.2.1 (by omega)
        rw [hfs, PolicyState.lengths_getD _ hq] at hspec
        calc (ownedBy w.bal.lb.dispatchPolicy.bucketMappings q).length
            ≤ (w.outstanding q).length := hi.ownedBy_length_le q
          _ = (w.bal.lb.tracking q).length := (ht.tracking q).symm
          _ < d := hspec.2 ▸ hlen
      have hsize : ¬ M ≤ w.bal.lb.dispatchPolicy.bucketMappings.size := Nat.not_le.mpr <|
        (size_lt_of_owned (fun e he => hi.cores e.1 e.2 (OrderedDict.get?_eq_some_of_mem he))
          hi.owned_le hq hlt).trans_le hM
      have hmap' : (apply w taken consumed (.ok (b', [(q, .req r)]))).bal.lb.dispatchPolicy.bucketMappings =
          w.bal.lb.dispatchPolicy.bucketMappings.set (r.h % cfg.numBuckets) ⟨q, 1⟩ := by
        show b'.lb.dispatchPolicy.bucketMappings = _
        rw [hmap, addToExclBucket, if_neg hsize]
      refine ⟨fun b c => ?_, fun b m' hm' => ?_, fun o => ?_, hcores⟩
      · rw [hw, hmap', owedTo_set_new hnone, ← hi.count]
        simp [hr]
      · rw [hmap', OrderedDict.get?_set] at hm'
        split_ifs at hm' with hb
        · cases hm'
          exact Int.one_pos
        · exact hi.pos b m' hm'
      · rw [hmap', ownedBy_set_of_not_mem (OrderedDict.get?_eq_none_iff.mp hnone)]
        by_cases ho : q = o
        · subst ho
          simpa using hlt
        · simpa [ho] using hi.owned_le o

/-- A step that changes neither the policy's state, nor the acks, nor the requests on the
queues keeps ownership exact. -/
theorem OwnInv.of_apply_same (hi : OwnInv cfg k w) {b' : Balancer} {puts : Puts}
    {taken : List RPCRequest} {consumed : List PullFeedbackRequest}
    (hlb : b'.lb = w.bal.lb) (hpull : b'.pullQ = w.bal.pullQ) (hputs : ∀ c, reqsTo puts c = []) :
    OwnInv cfg k (apply w taken consumed (.ok (b', puts))) := by
  have ho : ∀ c, (apply w taken consumed (.ok (b', puts))).outstanding c = w.outstanding c :=
    fun c => by rw [outstanding_apply_ok, hputs, hpull, List.append_nil]; rfl
  have hmap : (apply w taken consumed (.ok (b', puts))).bal.lb = w.bal.lb := hlb
  exact ⟨fun b c => ho c ▸ hmap ▸ hi.count b c, hmap ▸ hi.pos, hmap ▸ hi.owned_le,
    hmap ▸ hi.cores⟩

/-- **No step of the dynamic balancer's `run` fails**: `func_executed` finds its deques
non-empty, `select` finds a queue, and an acknowledged write's bucket is mapped to the core that
acknowledges it, so both assertions of `write_req_finished` hold. -/
theorem OwnInv.run_ne_error {d M : Nat} (hk : cfg.kind = .dynamicEW)
    (hp : cfg.disp.policy = .dynJbscrew d cfg.numBuckets M) (hi : OwnInv cfg k w)
    (ht : TrackInv w) (ha : AdmitInv cfg w) (f : Fault) :
    Balancer.run cfg w.bal ≠ some (.error f) := by
  intro h
  have hk' : cfg.kind ≠ .indexAware := by rw [hk]; decide
  rcases Balancer.run_error h with ⟨pr, hh, hu⟩ | ⟨-, -, m, -, hs⟩ | ⟨hk'', -⟩
  · rcases updatePulls_dynJbscrew_error hk hp hu with hf | ⟨hr, lb₁, hf, hfin⟩
    · exact ht.error_ne_pop (.inl h) (funcExecuted_error hf)
    · obtain ⟨rest, hpq⟩ : ∃ rest, w.bal.pullQ = pr :: rest :=
        ⟨w.bal.pullQ.tail, List.eq_cons_of_mem_head? hh⟩
      obtain ⟨m, hm, hc⟩ := hi.owner_of_write (r := pr.reqCompleted) (c := pr.procId)
        (by simp [outstanding, hpq, acksFrom_cons]) hr
      obtain ⟨-, -, -, -, -, -, hmap₁⟩ := funcExecuted_ok hf
      exact writeReqFinished_ne_error (hmap₁ ▸ hm) hc f hfin
  · exact ha.run_error_ne hk' h (selectAndDispatch_error hs).1
  · exact hk' hk''

/-- **One step keeps ownership exact and raises no fault.** -/
theorem ownInv_step {d M : Nat} (hk : cfg.kind = .dynamicEW)
    (hp : cfg.disp.policy = .dynJbscrew d cfg.numBuckets M) (hd : d ≤ 1000000000)
    (hM : cfg.disp.numQueues * d ≤ M) (hi : OwnInv cfg d w) (ht : TrackInv w)
    (ha : AdmitInv cfg w) (hf : w.fault = none) {w' : BalancerWorld} {a : BalancerAction}
    (h : step cfg a w = some w') : OwnInv cfg d w' ∧ w'.fault = none := by
  have hk' : cfg.kind ≠ .indexAware := by rw [hk]; decide
  rcases step_cases h with ⟨m, -, rfl⟩ | ⟨c, i, r, -, hr, rfl⟩ | ⟨-, o, -, ho, rfl⟩ |
    ⟨-, o, -, ho, -⟩
  · exact ⟨⟨hi.count, hi.pos, hi.owned_le, hi.cores⟩, hf⟩
  · refine ⟨⟨fun b c' => ?_, hi.pos, hi.owned_le, hi.cores⟩, hf⟩
    rw [← hi.count, writesTo_perm _ _ (outstanding_complete_perm hr c')]
  · rcases o with f | ⟨b', puts⟩
    · exact absurd ho (hi.run_ne_error hk hp ht ha f)
    refine ⟨?_, hf⟩
    obtain ⟨-, ⟨pr, -, hpull, -, hu⟩ | ⟨-, -, rfl, rfl⟩ | ⟨-, m, -, hpull, -, hs⟩⟩ :=
      Balancer.run_plain_ok hk' ho
    · exact hi.ack hk hp hpull hu
    · exact hi.of_apply_same rfl rfl fun _ => rfl
    · exact hi.dispatch hp hd hM ht hpull hs
  · exact absurd (Balancer.kind_of_pullQueueUpdater ho) hk'

end

/-- Admission, ownership and the absence of a fault hold together in every reachable state of
dynamic JBSCREW with the driver's bounds. -/
theorem ownInv_reachable {d M : Nat} (hk : cfg.kind = .dynamicEW)
    (hp : cfg.disp.policy = .dynJbscrew d cfg.numBuckets M) (hd : d ≤ 1000000000)
    (hM : cfg.disp.numQueues * d ≤ M) {fifo : Bool} {w : BalancerWorld}
    (hw : Reachable cfg fifo w) : AdmitInv cfg w ∧ OwnInv cfg d w ∧ w.fault = none := by
  have hk' : cfg.kind ≠ .indexAware := by rw [hk]; decide
  exact Reachable.induction cfg (P := fun w => AdmitInv cfg w ∧ OwnInv cfg d w ∧ w.fault = none)
    ⟨admitInv_init hk', ownInv_init d, rfl⟩
    (fun hr hi _ h => ⟨admitInv_step hk' hi.1 h,
      ownInv_step hk hp hd hM hi.2.1 (trackInv_reachable hr) hi.1 hi.2.2 h⟩) hw

/-- **Dynamic JBSCREW's exclusive-bucket map is exact.** For the dynamic balancer over
dynamic JBSCREW hashing with the index's bucket count, with `max_buckets_tracking` at least the
number of queues times a depth limit of at most `1000000000`, in every state reached against
any arrival sequence and any ack order: no fault has been raised, so in particular every
`write_req_finished` passed both its assertions; and the map records, for each bucket and
core, exactly the writes to the bucket sent to the core and not yet acknowledged, each entry
with at least one (`OwnInv`). -/
theorem dynJbscrew_map_tracks_outstanding_writes {d M : Nat} (hk : cfg.kind = .dynamicEW)
    (hp : cfg.disp.policy = .dynJbscrew d cfg.numBuckets M) (hd : d ≤ 1000000000)
    (hM : cfg.disp.numQueues * d ≤ M) {fifo : Bool} {w : BalancerWorld}
    (hw : Reachable cfg fifo w) : w.fault = none ∧ OwnInv cfg d w :=
  let h := ownInv_reachable hk hp hd hM hw
  ⟨h.2.2, h.2.1⟩

/-- Dynamic JBSCREW over two queues of depth two and four buckets, with
`max_buckets_tracking = cores * jbsq_depth` as `mica_rlu_jbscrew` sets it. -/
def dynJbscrewDriver : BalancerConfig :=
  ⟨.dynamicEW, ⟨.dynJbscrew 2 4 4, 2, by decide, by decide⟩, 4, by decide⟩

/-- Two writes to bucket `1` go to its owner, core `0`; after the first one's ack the entry
counts the one left. -/
theorem dynJbscrewDriver_map_after_one_ack :
    ∃ w, Reachable dynJbscrewDriver true w ∧ w.fault = none ∧ OwnInv dynJbscrewDriver 2 w ∧
      w.bal.lb.dispatchPolicy.bucketMappings.get? 1 = some ⟨0, 1⟩ := by
  have h : (runActions dynJbscrewDriver
      [.arrive (.req ⟨0, 0, 0, true, 1⟩), .run, .run, .arrive (.req ⟨1, 1, 1, true, 5⟩), .run,
        .run, .complete 0 0, .run] (init dynJbscrewDriver)).map
      (fun w => w.bal.lb.dispatchPolicy.bucketMappings.get? 1) = some (some ⟨0, 1⟩) := by
    decide
  obtain ⟨w, hr, hm⟩ := Option.map_eq_some'.mp h
  have hw : Reachable dynJbscrewDriver true w :=
    Reachable.runActions _ .refl (by simp [BalancerAction.IsFifo]) hr
  obtain ⟨hf, hi⟩ := dynJbscrew_map_tracks_outstanding_writes rfl rfl (by decide) (by decide) hw
  exact ⟨w, hw, hf, hi, hm⟩

end BalancerWorld

end QueueFlex
