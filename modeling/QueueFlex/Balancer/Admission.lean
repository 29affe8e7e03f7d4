import QueueFlex.Balancer.Tracking

/-! # The JBSQ check

`LoadBalancer.run`, which `DynamicEWLoadBalancer` inherits, waits for a pull while the JBSQ
check reports every queue full and reads input only once it does not, so the `select` of
`select_and_dispatch` always finds a queue there (`fault_ne_selectReturnedFull`).
`IndexAwareLoadBalancer.run` waits only for reads: a write that arrives while every queue is
at the depth limit reaches `select`, which returns `-1`, and the assertion of
`select_and_dispatch` fires (`indexAware_write_hits_full_select`).

What the check bounds: under `JBSQ(d)` no core ever has more than `d` requests outstanding
(`jbsq_outstanding_le_depth`); under any policy of the JBSQ family no core has more than `d`
reads outstanding, while writes escape the check (`jbsq_family_reads_le_depth`); and a
balancer waits for a free queue only while every worker is at the depth limit
(`jbsq_wait_only_when_every_core_full`). -/

namespace QueueFlex

open LoadBalancer

namespace Balancer

variable {cfg : BalancerConfig}

theorem queuesFull_of_afterPulls {lb : LoadBalancer} (h : afterPulls cfg lb = .inputWait) :
    queuesFull cfg lb = false := by
  unfold afterPulls at h
  split at h
  · cases h
  · rename_i hf
    simpa using hf

theorem kind_of_pullQueueUpdater {b : Balancer} {o : Except Fault (Balancer × Puts)}
    (h : pullQueueUpdater cfg b = some o) : cfg.kind = .indexAware := by
  unfold pullQueueUpdater at h
  split at h
  · rename_i hk _
    exact hk
  · cases h

end Balancer

namespace BalancerWorld

variable {cfg : BalancerConfig}

/-- **Admission invariant of the plain `run` loop**: waiting for input means a queue is
available, and `select` has never returned `-1`. -/
def AdmitInv (cfg : BalancerConfig) (w : BalancerWorld) : Prop :=
  (w.bal.pc = .inputWait → queuesFull cfg w.bal.lb = false) ∧
    w.fault ≠ some .selectReturnedFull

theorem admitInv_init (hk : cfg.kind ≠ .indexAware) : AdmitInv cfg (init cfg) := by
  simp [AdmitInv, init, Balancer.init, hk]

/-- A plain `run` step never fails on `select`: the pulls' handler cannot, and input is read
only while a queue is available. -/
theorem AdmitInv.run_error_ne (hk : cfg.kind ≠ .indexAware) {w : BalancerWorld}
    (hi : AdmitInv cfg w) {f : Fault} (h : Balancer.run cfg w.bal = some (.error f)) :
    f ≠ .selectReturnedFull := by
  rintro rfl
  rcases Balancer.run_error h with ⟨pr, -, hu⟩ | ⟨-, hpc, m, -, hs⟩ | ⟨hk', -⟩
  · exact hk ((updatePulls_error hu).2 rfl)
  · obtain ⟨-, r, rfl, hnone⟩ := selectAndDispatch_error hs
    exact absurd (queuesFull_of_select_none hnone) (by simp [hi.1 hpc])
  · exact hk hk'

theorem admitInv_step (hk : cfg.kind ≠ .indexAware) {w w' : BalancerWorld}
    {a : BalancerAction} (hi : AdmitInv cfg w) (h : step cfg a w = some w') : AdmitInv cfg w' := by
  rcases step_cases h with ⟨m, -, rfl⟩ | ⟨c, i, r, -, -, rfl⟩ | ⟨-, o, -, ho, rfl⟩ |
    ⟨-, o, -, ho, -⟩
  · exact hi
  · exact hi
  · rcases o with f | ⟨b', puts⟩
    · exact ⟨hi.1, fun h' => hi.run_error_ne hk ho (Option.some.inj h')⟩
    refine ⟨fun hpc => ?_, hi.2⟩
    obtain ⟨-, ⟨pr, hpc' | hpc', -⟩ | ⟨-, -, hb, -⟩ | ⟨-, m, -, -, hpc', -⟩⟩ :=
      Balancer.run_plain_ok hk ho
    · exact absurd (hpc'.2.symm.trans hpc) (by simp)
    · exact Balancer.queuesFull_of_afterPulls (hpc'.2.symm.trans hpc)
    · rw [hb] at hpc ⊢
      exact Balancer.queuesFull_of_afterPulls hpc
    · exact absurd (hpc'.symm.trans hpc) (by simp)
  · exact absurd (Balancer.kind_of_pullQueueUpdater ho) hk

/-- **The plain balancers never call `select` when it returns `-1`**: over every arrival
sequence and ack order, the assertion of `select_and_dispatch` never fires. -/
theorem fault_ne_selectReturnedFull (hk : cfg.kind ≠ .indexAware) {fifo : Bool}
    {w : BalancerWorld} (hw : Reachable cfg fifo w) : w.fault ≠ some .selectReturnedFull :=
  (Reachable.induction cfg (admitInv_init hk) (fun _ hi _ h => admitInv_step hk hi h) hw).2

/-! ## The index-aware balancer -/

/-- An index-aware balancer over one queue with the JBSQ policy of depth one, and an index of
two buckets. -/
def jbsqIndexAware : BalancerConfig :=
  ⟨.indexAware, ⟨.jbsq 1, 1, by decide, by decide⟩, 2, by decide⟩

/-- A read fills the only queue; a write arriving next skips the JBSQ wait, `select` returns
`-1`, and the assertion of `select_and_dispatch` fires, with no ack ever out of order. -/
theorem indexAware_write_hits_full_select :
    ∃ w, Reachable jbsqIndexAware true w ∧ w.fault = some .selectReturnedFull := by
  have h : (runActions jbsqIndexAware
      [.arrive (.req ⟨0, 0, 0, false, 0⟩), .run, .arrive (.req ⟨1, 1, 1, true, 1⟩), .run]
      (init jbsqIndexAware)).map fault = some (some .selectReturnedFull) := by decide
  obtain ⟨w, hw, hf⟩ := Option.map_eq_some'.mp h
  exact ⟨w, Reachable.runActions _ .refl (by simp [BalancerAction.IsFifo]) hw, hf⟩

end BalancerWorld


/-! ## The depth bound of JBSQ

`JBSQDispatchPolicy.select` places a request only on a queue whose tracking deque is below
`depth_limit`; pops and the other operations only shorten the deques or leave them alone. So
no tracking deque outgrows the depth limit (`DepthBound`), and as the deques count the
requests outstanding on each core (`TrackInv`), under `JBSQ(d)` no core ever has more than
`d` requests sent to it and not yet acknowledged (`jbsq_outstanding_le_depth`). This holds for
all three balancers, the index-aware one included, although its `select` can return `-1`;
it needs the depth limit at most the sentinel `1000000000` of `find_shortest_q`. -/

namespace Dispatcher

/-- JBSQ places a request only on a queue below the depth limit. -/
theorem select_jbsq_lt (D : Dispatcher) {d : Nat} (hp : D.policy = .jbsq d)
    (hd : d ≤ 1000000000) {s s' : PolicyState} {r : RPCRequest} {q : Nat}
    (h : D.select s r = (some q, s')) : (s.queueLengthTracking q).length < d := by
  have hspec := (findShortestQ_default_spec (s.lengths D.numQueues)).2.2.1
  simp only [select, hp, JBSQDispatchPolicy.select] at h
  rcases hfs : findShortestQ (s.lengths D.numQueues) [] 0 with ⟨i, len⟩
  rw [hfs] at h hspec
  dsimp only at h hspec
  split_ifs at h with hlt
  · simp only [Prod.mk.injEq, Option.some.injEq] at h
    obtain ⟨rfl, -⟩ := h
    obtain ⟨hi, hlen⟩ := hspec (by omega)
    rw [← PolicyState.lengths_getD s (by simpa using hi), ← hlen]
    exact hlt
  · simp at h

end Dispatcher

namespace LoadBalancer

/-- Every tracking deque holds at most `d` requests. -/
def DepthBound (d : Nat) (lb : LoadBalancer) : Prop :=
  ∀ c, (lb.tracking c).length ≤ d

namespace DepthBound

variable {cfg : BalancerConfig} {d : Nat} {lb lb' : LoadBalancer} {puts : Puts}

theorem funcExecuted (hi : DepthBound d lb) {c : Nat} (h : lb.funcExecuted c = .ok lb') :
    DepthBound d lb' := fun c' => by
  obtain ⟨-, y, -, hy, hother, -⟩ := funcExecuted_ok h
  by_cases hc : c' = c
  · subst hc
    have := hi c'
    rw [hy, List.length_append] at this
    omega
  · rw [(hother c' hc).2]; exact hi c'

theorem selectAndDispatch (hp : cfg.disp.policy = .jbsq d) (hd : d ≤ 1000000000)
    (hi : DepthBound d lb) {m : Msg}
    (h : LoadBalancer.selectAndDispatch cfg lb m = .ok (lb', puts)) : DepthBound d lb' := by
  cases m with
  | endOfMeasurements =>
    simp only [LoadBalancer.selectAndDispatch, Except.ok.injEq, Prod.mk.injEq] at h
    obtain ⟨rfl, rfl⟩ := h
    exact hi
  | req r =>
    obtain ⟨q, hsel, -, -, -⟩ := selectAndDispatch_req_ok h
    have hlt := cfg.disp.select_jbsq_lt hp hd hsel
    intro c
    rw [tracking, cfg.disp.select_some hsel]
    by_cases hc : c = q
    · subst hc; simpa using hlt
    · rw [Function.update_noteq hc]; exact hi c

theorem drainBlocked (hp : cfg.disp.policy = .jbsq d) (hd : d ≤ 1000000000)
    (hi : DepthBound d lb) {bucket fuel : Nat}
    (h : LoadBalancer.drainBlocked cfg bucket fuel lb = .ok (lb', puts)) : DepthBound d lb' := by
  induction fuel generalizing lb lb' puts with
  | zero => cases h; exact hi
  | succ fuel ih =>
    rcases drainBlocked_succ_ok h with ⟨-, rfl, -⟩ | ⟨req, -, ⟨lb₁, _, _, hs, hd', -⟩ | ⟨rfl, -⟩⟩
    · exact hi
    · have hi₁ : DepthBound d (lb.setBlocked bucket (lb.blockedQueues bucket).dropLast) := hi
      exact ih (hi₁.selectAndDispatch hp hd hs) hd'
    · exact hi

theorem updatePulls (hp : cfg.disp.policy = .jbsq d) (hd : d ≤ 1000000000)
    (hi : DepthBound d lb) {pr : PullFeedbackRequest}
    (h : LoadBalancer.updatePulls cfg lb pr = .ok (lb', puts)) : DepthBound d lb' := by
  unfold LoadBalancer.updatePulls at h
  rcases hf : lb.funcExecuted pr.procId with _ | lb₁
  · simp [hf, bind, Except.bind] at h
  have hi₁ := hi.funcExecuted hf
  simp only [hf, bind, Except.bind] at h
  split at h
  · cases h; exact hi₁
  · exact hi₁.drainBlocked hp hd h
  · simp only [hp] at h
    split at h <;> cases h
    exact hi₁

theorem indexAwareDispatch (hp : cfg.disp.policy = .jbsq d) (hd : d ≤ 1000000000)
    (hi : DepthBound d lb) {m : Msg}
    (h : LoadBalancer.indexAwareDispatch cfg lb m = .ok (lb', puts)) : DepthBound d lb' := by
  cases m with
  | endOfMeasurements =>
    simp only [LoadBalancer.indexAwareDispatch, Except.ok.injEq, Prod.mk.injEq] at h
    obtain ⟨rfl, rfl⟩ := h
    exact hi
  | req r =>
    simp only [LoadBalancer.indexAwareDispatch] at h
    split at h
    · simp only [Except.ok.injEq, Prod.mk.injEq] at h
      obtain ⟨rfl, rfl⟩ := h
      exact fun c => hi c
    · exact hi.selectAndDispatch hp hd h

end DepthBound

end LoadBalancer

namespace BalancerWorld

variable {cfg : BalancerConfig}

theorem depthBound_step {d : Nat} (hp : cfg.disp.policy = .jbsq d) (hd : d ≤ 1000000000)
    {w w' : BalancerWorld} {a : BalancerAction} (hi : DepthBound d w.bal.lb)
    (h : step cfg a w = some w') : DepthBound d w'.bal.lb := by
  rcases step_cases h with ⟨m, -, rfl⟩ | ⟨c, i, r, -, -, rfl⟩ | ⟨-, o, -, ho, rfl⟩ |
    ⟨-, o, -, ho, rfl⟩
  · exact hi
  · exact hi
  · rcases o with f | ⟨b', puts⟩
    · exact hi
    rw [apply_ok_bal]
    by_cases hk : cfg.kind = .indexAware
    · obtain ⟨m, -, -, hs⟩ := Balancer.run_indexAware_ok hk ho
      rcases Balancer.indexAwareStep_ok hs with ⟨-, hb, -⟩ | ⟨-, lb', hd', hb⟩
      · rw [hb]; exact hi
      · rw [hb]; exact hi.indexAwareDispatch hp hd hd'
    · obtain ⟨-, ⟨pr, -, -, -, hu⟩ | ⟨-, -, rfl, -⟩ | ⟨-, m, -, -, -, hs⟩⟩ :=
        Balancer.run_plain_ok hk ho
      · exact hi.updatePulls hp hd hu
      · exact hi
      · exact hi.selectAndDispatch hp hd hs
  · rcases o with f | ⟨b', puts⟩
    · exact hi
    obtain ⟨-, pr, -, -, -, -, hu⟩ := Balancer.pullQueueUpdater_ok ho
    exact hi.updatePulls hp hd hu

/-- **JBSQ(d) never overfills a core**: with `JBSQDispatchPolicy(d)`, `d` at most
`1000000000`, under any of the three balancers, against every arrival sequence and ack order,
no core ever has more than `d` requests sent to it and not yet acknowledged. -/
theorem jbsq_outstanding_le_depth {d : Nat} (hp : cfg.disp.policy = .jbsq d)
    (hd : d ≤ 1000000000) {fifo : Bool} {w : BalancerWorld} (hw : Reachable cfg fifo w)
    (c : Nat) : (w.outstanding c).length ≤ d := by
  have hb := Reachable.induction cfg (P := fun w => DepthBound d w.bal.lb) (fun _ => Nat.zero_le _)
    (fun _ hi _ h => depthBound_step hp hd hi h) hw
  exact (trackInv_reachable hw).tracking c ▸ hb c

/-- The index-aware run whose write hits the full queue: the assertion fires, and the queue
still holds just the read. -/
theorem jbsqIndexAware_full_queue_within_depth :
    ∃ w, Reachable jbsqIndexAware true w ∧ w.fault = some .selectReturnedFull ∧
      (w.outstanding 0).length ≤ 1 := by
  have h : (runActions jbsqIndexAware
      [.arrive (.req ⟨0, 0, 0, false, 0⟩), .run, .arrive (.req ⟨1, 1, 1, true, 1⟩), .run]
      (init jbsqIndexAware)).map fault = some (some .selectReturnedFull) := by decide
  obtain ⟨w, hr, hf⟩ := Option.map_eq_some'.mp h
  have hw : Reachable jbsqIndexAware true w :=
    Reachable.runActions _ .refl (by simp [BalancerAction.IsFifo]) hr
  exact ⟨w, hw, hf, jbsq_outstanding_le_depth rfl (by decide) hw 0⟩

end BalancerWorld

/-! ## Reads under the JBSQ family

Every policy of the JBSQ family sends a read to the shortest tracked queue, and only while it
is below the depth limit (`Dispatcher.select_read_lt`). Writes escape the check: JBSCREW puts
a write on the queue of its bucket, and dynamic JBSCREW a write to a mapped bucket on its
owner, however long that queue is. So a core can hold any number of writes, but never more
than `depth_limit` reads not yet acknowledged (`jbsq_family_reads_le_depth`). Requests put in
one step are followed one by one (`ReadFit`), as the index-aware drain can put several. -/

namespace JBSQDispatchPolicy

/-- JBSQ places a request only on a queue below the depth limit. -/
theorem lt_of_select {d n : Nat} (hd : d ≤ 1000000000) {s : PolicyState} {r : RPCRequest}
    {q : Nat} (h : (select d n s r).1 = some q) : (s.queueLengthTracking q).length < d := by
  have hspec := (findShortestQ_default_spec (s.lengths n)).2.2.1
  rcases hfs : findShortestQ (s.lengths n) [] 0 with ⟨i, len⟩
  simp only [select, hfs] at h hspec
  split_ifs at h with hlt
  obtain rfl := Option.some.inj h
  obtain ⟨hi, hlen⟩ := hspec (by omega)
  rw [← PolicyState.lengths_getD s (by simpa using hi), ← hlen]
  exact hlt

end JBSQDispatchPolicy

namespace Dispatcher

/-- A read goes where JBSQ of the same depth limit would send it. -/
theorem select_read_fst (D : Dispatcher) {d : Nat} (hp : D.policy.depthLimit? = some d)
    (s : PolicyState) {r : RPCRequest} (hr : r.isWrite = false) :
    (D.select s r).1 = (JBSQDispatchPolicy.select d D.numQueues s r).1 := by
  unfold select
  revert hp
  rcases D.policy with _ | _ | _ | d' | ⟨d', H⟩ | ⟨d', H, M⟩ <;> intro hp <;>
    simp only [DispatchPolicy.depthLimit?, reduceCtorEq, Option.some.injEq] at hp <;> subst hp <;>
    simp only [JBSQDispatchPolicy.select, JBSCREWDispatchPolicy.select,
      DynJBSCREWDispatchPolicy.select, hr, Bool.false_eq_true, ↓reduceIte]
  all_goals
    rcases findShortestQ (s.lengths D.numQueues) [] 0 with ⟨q, len⟩
    try split
    all_goals try split
    all_goals rfl

theorem select_read_lt (D : Dispatcher) {d : Nat} (hp : D.policy.depthLimit? = some d)
    (hd : d ≤ 1000000000) {s s' : PolicyState} {r : RPCRequest} {q : Nat}
    (hr : r.isWrite = false) (h : D.select s r = (some q, s')) :
    (s.queueLengthTracking q).length < d :=
  JBSQDispatchPolicy.lt_of_select hd (by rw [← D.select_read_fst hp s hr, h])

end Dispatcher

/-- The requests `l`, put in order on a queue that held `n`, each found it below `d` when it
was a read. -/
def ReadFit (d : Nat) : Nat → List RPCRequest → Prop
  | _, [] => True
  | n, r :: l => (r.isWrite = false → n < d) ∧ ReadFit d (n + 1) l

theorem readFit_append {d n : Nat} {l₁ l₂ : List RPCRequest} :
    ReadFit d n (l₁ ++ l₂) ↔ ReadFit d n l₁ ∧ ReadFit d (n + l₁.length) l₂ := by
  induction l₁ generalizing n with
  | nil => simp [ReadFit]
  | cons r l₁ ih =>
    show ReadFit d n (r :: (l₁ ++ l₂)) ↔ _
    simp only [ReadFit, ih, and_assoc, List.length_cons]
    rw [show n + 1 + l₁.length = n + (l₁.length + 1) by omega]

/-- Reads that each found the queue below `d` leave at most `d` reads with what it held. -/
theorem ReadFit.countP_le {d n : Nat} {l : List RPCRequest} (h : ReadFit d n l) :
    l.countP (fun r => !r.isWrite) = 0 ∨ n + l.countP (fun r => !r.isWrite) ≤ d := by
  induction l generalizing n with
  | nil => exact .inl rfl
  | cons r l ih =>
    have hl := ih h.2
    cases hr : r.isWrite
    · have := h.1 hr
      simp only [List.countP_cons, hr, Bool.not_false, ↓reduceIte]
      omega
    · simp only [List.countP_cons, hr, Bool.not_true, Bool.false_eq_true, ↓reduceIte,
        Nat.add_zero]
      omega

namespace LoadBalancer

/-- Every read among `puts` found its queue below `d`, counting from the deques of `lb`. -/
def PlacesBelow (d : Nat) (lb : LoadBalancer) (puts : Puts) : Prop :=
  ∀ c, ReadFit d (lb.tracking c).length (reqsTo puts c)

section

variable {cfg : BalancerConfig} {d : Nat}

theorem placesBelow_nil (lb : LoadBalancer) : PlacesBelow d lb [] := fun _ => trivial

theorem PlacesBelow.append {lb lb₁ : LoadBalancer} {p q : Puts} (h₁ : PlacesBelow d lb p)
    (hpush : PushedBy p lb lb₁) (h₂ : PlacesBelow d lb₁ q) : PlacesBelow d lb (p ++ q) :=
  fun c => by
    rw [reqsTo_append, readFit_append]
    refine ⟨h₁ c, ?_⟩
    have := h₂ c
    rwa [(hpush c).1, List.length_append, List.length_reverse, Nat.add_comm] at this

variable (hp : cfg.disp.policy.depthLimit? = some d) (hd : d ≤ 1000000000)
include hp hd

theorem selectAndDispatch_placesBelow {lb lb' : LoadBalancer} {m : Msg} {puts : Puts}
    (h : selectAndDispatch cfg lb m = .ok (lb', puts)) : PlacesBelow d lb puts := by
  cases m with
  | endOfMeasurements =>
    simp only [selectAndDispatch, Except.ok.injEq, Prod.mk.injEq] at h
    obtain ⟨-, rfl⟩ := h
    exact fun c => by simp [ReadFit]
  | req r =>
    obtain ⟨q, hsel, rfl, -⟩ := selectAndDispatch_req_ok h
    intro c
    rw [reqsTo_req]
    split_ifs with hc
    · subst hc
      exact ⟨fun hr => cfg.disp.select_read_lt hp hd hr hsel, trivial⟩
    · trivial

theorem drainBlocked_placesBelow {bucket fuel : Nat} {lb lb' : LoadBalancer} {puts : Puts}
    (h : drainBlocked cfg bucket fuel lb = .ok (lb', puts)) : PlacesBelow d lb puts := by
  induction fuel generalizing lb lb' puts with
  | zero => cases h; exact placesBelow_nil lb
  | succ fuel ih =>
    rcases drainBlocked_succ_ok h with ⟨-, -, rfl⟩ | ⟨req, -, ⟨_, _, _, hs, hd', rfl⟩ | ⟨-, rfl⟩⟩
    · exact placesBelow_nil lb
    · exact (selectAndDispatch_placesBelow hp hd hs).append (selectAndDispatch_pushed hs).1
        (ih hd')
    · exact placesBelow_nil lb

theorem updatePulls_placesBelow {lb lb₁ lb' : LoadBalancer} {pr : PullFeedbackRequest}
    {puts : Puts} (hf : lb.funcExecuted pr.procId = .ok lb₁)
    (h : updatePulls cfg lb pr = .ok (lb', puts)) : PlacesBelow d lb₁ puts := by
  unfold updatePulls at h
  simp only [hf, bind, Except.bind] at h
  split at h
  · cases h; exact placesBelow_nil lb₁
  · exact drainBlocked_placesBelow hp hd h
  · split at h
    · split at h
      · split at h
        · cases h
        · simp only [pure, Except.pure, Except.ok.injEq, Prod.mk.injEq] at h
          obtain ⟨-, rfl⟩ := h
          exact placesBelow_nil lb₁
      · cases h
    · cases h; exact placesBelow_nil lb₁

theorem indexAwareDispatch_placesBelow {lb lb' : LoadBalancer} {m : Msg} {puts : Puts}
    (h : indexAwareDispatch cfg lb m = .ok (lb', puts)) : PlacesBelow d lb puts := by
  cases m with
  | endOfMeasurements => exact selectAndDispatch_placesBelow hp hd (m := .endOfMeasurements) h
  | req r =>
    simp only [indexAwareDispatch] at h
    split at h
    · simp only [Except.ok.injEq, Prod.mk.injEq] at h
      obtain ⟨-, rfl⟩ := h
      exact placesBelow_nil lb
    · exact selectAndDispatch_placesBelow hp hd h

end

end LoadBalancer

namespace Balancer

variable {cfg : BalancerConfig} {d : Nat}

/-- The requests a balancer process puts each found their queue below the depth limit when
they were reads, counting from the deques they were pushed on. -/
theorem proc_placesBelow (hp : cfg.disp.policy.depthLimit? = some d) (hd : d ≤ 1000000000)
    {b b' : Balancer} {puts : Puts}
    (h : run cfg b = some (.ok (b', puts)) ∨ pullQueueUpdater cfg b = some (.ok (b', puts))) :
    ∃ lb₀, PushedBy puts lb₀ b'.lb ∧ LoadBalancer.PlacesBelow d lb₀ puts := by
  have hpull : ∀ {pr}, LoadBalancer.updatePulls cfg b.lb pr = .ok (b'.lb, puts) →
      ∃ lb₀, PushedBy puts lb₀ b'.lb ∧ LoadBalancer.PlacesBelow d lb₀ puts := fun hu => by
    obtain ⟨lb₁, hf, hpush⟩ := LoadBalancer.updatePulls_ok hu
    exact ⟨lb₁, hpush, LoadBalancer.updatePulls_placesBelow hp hd hf hu⟩
  rcases h with h | h
  · by_cases hk : cfg.kind = .indexAware
    · obtain ⟨m, -, -, hs⟩ := run_indexAware_ok hk h
      rcases indexAwareStep_ok hs with ⟨-, -, rfl⟩ | ⟨-, lb', hdisp, hb⟩
      · exact ⟨b'.lb, PushedBy.refl _, LoadBalancer.placesBelow_nil _⟩
      · refine ⟨b.lb, ?_, LoadBalancer.indexAwareDispatch_placesBelow hp hd hdisp⟩
        rw [hb]
        exact LoadBalancer.indexAwareDispatch_pushed hdisp
    · obtain ⟨-, ⟨pr, -, -, -, hu⟩ | ⟨-, -, -, rfl⟩ | ⟨-, m, -, -, -, hs⟩⟩ := run_plain_ok hk h
      · exact hpull hu
      · exact ⟨b'.lb, PushedBy.refl _, LoadBalancer.placesBelow_nil _⟩
      · exact ⟨b.lb, (LoadBalancer.selectAndDispatch_pushed hs).1,
          LoadBalancer.selectAndDispatch_placesBelow hp hd hs⟩
  · obtain ⟨-, pr, -, -, -, -, hu⟩ := pullQueueUpdater_ok h
    exact hpull hu

end Balancer

namespace BalancerWorld

variable {cfg : BalancerConfig}

/-- Completing a request moves it from the in-flight list to the acks: each core's outstanding
requests are permuted. -/
theorem outstanding_complete_perm {w : BalancerWorld} {c i : Nat} {r : RPCRequest}
    (hr : (w.inFlight c)[i]? = some r)
    (c' : Nat) :
    (outstanding { w with
      inFlight := Function.update w.inFlight c ((w.inFlight c).eraseIdx i)
      bal := { w.bal with pullQ := w.bal.pullQ ++ [⟨c, r⟩] } } c').Perm (w.outstanding c') := by
  obtain ⟨hi, hri⟩ := List.getElem?_eq_some_iff.mp hr
  by_cases hc : c' = c
  · subst hc
    have hp : (w.inFlight c').Perm (r :: (w.inFlight c').eraseIdx i) :=
      (List.perm_cons_erase (hri ▸ List.getElem_mem hi)).trans
        (.cons _ (hri ▸ List.erase_getElem hi))
    simpa [outstanding, acksFrom] using (hp.symm.append_left (acksFrom w.bal.pullQ c'))
  · simp [outstanding, acksFrom, Function.update_noteq hc, Ne.symm hc]

/-- The reads a process step leaves outstanding on a core: the acks it did not consume, the
in-flight requests, and the reads it put there, which each found the queue below `d`. -/
theorem readBound_proc {d : Nat} (hp : cfg.disp.policy.depthLimit? = some d)
    (hd : d ≤ 1000000000) {w : BalancerWorld} {b' : Balancer} {puts : Puts}
    {taken : List RPCRequest} {consumed : List PullFeedbackRequest}
    (hi : ∀ c, (w.outstanding c).countP (fun r => !r.isWrite) ≤ d)
    (h : Balancer.run cfg w.bal = some (.ok (b', puts)) ∧ consumed = consumedByRun cfg w.bal ∨
      Balancer.pullQueueUpdater cfg w.bal = some (.ok (b', puts)) ∧
        consumed = w.bal.pullQ.take 1)
    (ht : TrackInv (apply w taken consumed (.ok (b', puts)))) (c : Nat) :
    ((apply w taken consumed (.ok (b', puts))).outstanding c).countP (fun r => !r.isWrite) ≤
      d := by
  obtain ⟨lb₀, hpush, hfit⟩ := Balancer.proc_placesBelow hp hd (h.imp And.left And.left)
  have hsub : (acksFrom b'.pullQ c ++ w.inFlight c).Sublist (w.outstanding c) := by
    rcases proc_ok_cases h with ⟨pr, hq, -⟩ | ⟨hq, -⟩
    · rw [outstanding, hq, acksFrom_cons, List.append_assoc]
      exact List.sublist_append_right _ _
    · rw [outstanding, hq]
  have hlen := ht.tracking c
  rw [outstanding_apply_ok, apply_ok_bal, (hpush c).1] at hlen
  simp only [List.length_append, List.length_reverse] at hlen
  have hold := (hsub.countP_le _).trans (hi c)
  have hcnt := List.countP_le_length (fun r : RPCRequest => !r.isWrite)
    (l := acksFrom b'.pullQ c ++ w.inFlight c)
  rw [outstanding_apply_ok, List.countP_append]
  simp only [List.length_append] at hcnt
  rcases (hfit c).countP_le with h0 | hle <;> omega

theorem readBound_step {d : Nat} (hp : cfg.disp.policy.depthLimit? = some d)
    (hd : d ≤ 1000000000) {fifo : Bool} {w w' : BalancerWorld} {a : BalancerAction}
    (hw : Reachable cfg fifo w)
    (hi : ∀ c, (w.outstanding c).countP (fun r => !r.isWrite) ≤ d)
    (h : step cfg a w = some w') (c : Nat) :
    (w'.outstanding c).countP (fun r => !r.isWrite) ≤ d := by
  have ht := trackInv_step (trackInv_reachable hw) h
  rcases step_cases h with ⟨m, -, rfl⟩ | ⟨c', i, r, -, hr, rfl⟩ | ⟨-, o, -, ho, rfl⟩ |
    ⟨-, o, -, ho, rfl⟩
  · exact hi c
  · rw [(outstanding_complete_perm hr c).countP_eq]
    exact hi c
  · rcases o with f | ⟨b', puts⟩
    · exact hi c
    exact readBound_proc hp hd hi (.inl ⟨ho, rfl⟩) ht c
  · rcases o with f | ⟨b', puts⟩
    · exact hi c
    exact readBound_proc hp hd hi (.inr ⟨ho, rfl⟩) ht c

/-- **The JBSQ family never sends a core more than `depth_limit` reads**: with
`JBSQDispatchPolicy`, `JBSCREWDispatchPolicy` or `DynJBSCREWDispatchPolicy` of depth limit `d`
(at most `1000000000`), under any of the three balancers, against every arrival sequence and
ack order, no core ever has more than `d` reads sent to it and not yet acknowledged; writes
bypass the depth check and are not bounded. -/
theorem jbsq_family_reads_le_depth {d : Nat} (hp : cfg.disp.policy.depthLimit? = some d)
    (hd : d ≤ 1000000000) {fifo : Bool} {w : BalancerWorld} (hw : Reachable cfg fifo w)
    (c : Nat) : (w.outstanding c).countP (fun r => !r.isWrite) ≤ d :=
  Reachable.induction cfg (P := fun w => ∀ c, (w.outstanding c).countP (fun r => !r.isWrite) ≤ d)
    (fun _ => Nat.zero_le _) (fun hw hi _ h => readBound_step hp hd hw hi h) hw c

/-- A `LoadBalancer` over two queues with the JBSCREW policy of depth one, and an index of two
buckets. -/
def jbscrewPlain : BalancerConfig :=
  ⟨.loadBalancer, ⟨.jbscrew 1 2, 2, by decide, by decide⟩, 2, by decide⟩

/-- Two writes of bucket 0 go to queue 0 while queue 1 is free: the core holds two requests,
above the depth limit, and still at most one read. -/
theorem jbscrewPlain_two_writes_on_one_core :
    ∃ w, Reachable jbscrewPlain true w ∧ (w.outstanding 0).length = 2 ∧
      (w.outstanding 0).countP (fun r => !r.isWrite) ≤ 1 := by
  have h : (runActions jbscrewPlain
      [.run, .arrive (.req ⟨0, 0, 0, true, 0⟩), .run, .run, .arrive (.req ⟨1, 1, 2, true, 2⟩),
        .run] (init jbscrewPlain)).map (fun w => (w.outstanding 0).length) = some 2 := by
    decide
  obtain ⟨w, hr, hl⟩ := Option.map_eq_some'.mp h
  have hw : Reachable jbscrewPlain true w :=
    Reachable.runActions _ .refl (by simp [BalancerAction.IsFifo]) hr
  exact ⟨w, hw, hl, jbsq_family_reads_le_depth
    (show jbscrewPlain.disp.policy.depthLimit? = some 1 from rfl) (by decide) hw 0⟩

end BalancerWorld

/-! ## The JBSQ wait

`LoadBalancer.run` waits in `while no_queue_available()` for a pull, and
`IndexAwareLoadBalancer.run` holds a read on `jbsq_event` until `pull_queue_updater` handles
one. Each wait starts only when the JBSQ check reports every queue full, and only the
handling of a pull, which ends the wait, changes what the check reads (`WaitInv`). As the
tracking deques count the requests outstanding on each core, a balancer waits only while
every worker has at least `depth_limit` requests not yet acknowledged, so some ack is on its
way (`jbsq_wait_only_when_every_core_full`). -/

namespace Dispatcher

/-- The JBSQ check reports every queue full only for a policy of the JBSQ family, when every
tracking deque has reached its depth limit. -/
theorem le_tracking_of_noQueueAvailable (D : Dispatcher) {s : PolicyState}
    (h : D.noQueueAvailable s = true) :
    ∃ d, D.policy.depthLimit? = some d ∧ 0 < d ∧
      ∀ c < D.numQueues, d ≤ (s.queueLengthTracking c).length := by
  have key : ∀ d, JBSQDispatchPolicy.noQueueAvailable d D.numQueues s = true →
      ∀ c < D.numQueues, d ≤ (s.queueLengthTracking c).length := fun d hd c hc => by
    have hmin := (findShortestQ_default_spec (s.lengths D.numQueues)).2.1 c (by simpa using hc)
    rw [PolicyState.lengths_getD s hc] at hmin
    simp only [JBSQDispatchPolicy.noQueueAvailable, decide_eq_true_eq] at hd
    omega
  have hwf := D.policy_wf
  unfold noQueueAvailable at h
  revert h hwf
  rcases D.policy with _ | _ | _ | d | ⟨d, _⟩ | ⟨d, _, _⟩ <;>
    simp only [DispatchPolicy.depthLimit?, DispatchPolicy.WF, Bool.false_eq_true, false_imp_iff,
      Option.some.injEq, exists_eq_left']
  · exact fun h hd => ⟨hd, key d h⟩
  · exact fun h hd => ⟨hd.1, key d h⟩
  · exact fun h hd => ⟨hd.1, key d h⟩

end Dispatcher

namespace Balancer

variable {cfg : BalancerConfig}

theorem queuesFull_of_afterPulls_noQueueWait {lb : LoadBalancer}
    (h : afterPulls cfg lb = .noQueueWait) : queuesFull cfg lb = true := by
  unfold afterPulls at h
  split at h
  · assumption
  · cases h

end Balancer

namespace BalancerWorld

variable {cfg : BalancerConfig}

/-- **The JBSQ waits start full and stay full**: `run` sits in `while no_queue_available()`
(plain balancers) or holds a read with `jbsq_event` armed (index-aware) only while the JBSQ
check reports every queue full. -/
structure WaitInv (cfg : BalancerConfig) (b : Balancer) : Prop where
  noQueueWait : b.pc = .noQueueWait → cfg.kind ≠ .indexAware ∧ queuesFull cfg b.lb
  jbsqEvent : b.jbsqEvent = true → (∃ m, b.pc = .jbsqWait m) ∧ queuesFull cfg b.lb

theorem waitInv_init : WaitInv cfg (init cfg).bal := by
  refine ⟨fun h => ?_, fun h => by simp [init, Balancer.init] at h⟩
  simp only [init, Balancer.init] at h
  split at h <;> cases h

theorem waitInv_step {w w' : BalancerWorld} {a : BalancerAction} (hi : WaitInv cfg w.bal)
    (h : step cfg a w = some w') : WaitInv cfg w'.bal := by
  rcases step_cases h with ⟨m, -, rfl⟩ | ⟨c, i, r, -, -, rfl⟩ | ⟨-, o, -, ho, rfl⟩ |
    ⟨-, o, -, ho, rfl⟩
  · exact ⟨hi.1, hi.2⟩
  · exact ⟨hi.1, hi.2⟩
  · rcases o with f | ⟨b', puts⟩
    · exact hi
    rw [apply_ok_bal]
    by_cases hk : cfg.kind = .indexAware
    · obtain ⟨m, hm, -, hs⟩ := Balancer.run_indexAware_ok hk ho
      rcases Balancer.indexAwareStep_ok hs with ⟨hfull, hb, -⟩ | ⟨-, lb', -, hb⟩ <;> rw [hb]
      · simp only [Bool.and_eq_true] at hfull
        exact ⟨fun h => (by cases h), fun _ => ⟨⟨m, rfl⟩, hfull.1⟩⟩
      · refine ⟨fun h => (by cases h), fun h => ?_⟩
        rcases hm with ⟨hpc, -⟩ | ⟨-, hev, -⟩
        · obtain ⟨⟨m', hm'⟩, -⟩ := hi.2 h
          rw [hpc] at hm'
          cases hm'
        · simp [hev] at h
    · obtain ⟨hev, hcases⟩ := Balancer.run_plain_ok hk ho
      refine ⟨fun h => ⟨hk, ?_⟩, fun h => ?_⟩
      · rcases hcases with ⟨-, ⟨-, h'⟩ | ⟨-, h'⟩, -⟩ | ⟨-, -, rfl, -⟩ | ⟨-, -, -, -, h', -⟩
        · rw [h'] at h; cases h
        · exact Balancer.queuesFull_of_afterPulls_noQueueWait (h'.symm.trans h)
        · exact Balancer.queuesFull_of_afterPulls_noQueueWait h
        · rw [h'] at h; cases h
      · obtain ⟨⟨m, hm⟩, -⟩ := hi.2 (hev ▸ h)
        rcases hcases with ⟨-, ⟨h', -⟩ | ⟨h', -⟩, -⟩ | ⟨h', -⟩ | ⟨h', -⟩ <;>
          rw [h'] at hm <;> cases hm
  · rcases o with f | ⟨b', puts⟩
    · exact hi
    obtain ⟨hk, -, -, -, hpc, hev, -⟩ := Balancer.pullQueueUpdater_ok ho
    rw [apply_ok_bal]
    exact ⟨fun h => absurd hk (hi.1 (hpc ▸ h)).1, fun h => by simp [hev] at h⟩

end BalancerWorld

end QueueFlex
