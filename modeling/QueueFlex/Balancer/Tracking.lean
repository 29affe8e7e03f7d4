import QueueFlex.Balancer.Spec

/-! # Tracking conservation

Over every run of a balancer, against every arrival sequence and every ack order, each core's
two deques, the policy's `queue_length_tracking[c]` and `queues_including_processing_req[c]`,
hold one entry per request sent to `c` whose ack `update_pulls` has not handled, and that
number is the requests dispatched to `c` less the acks of `c` consumed (`TrackInv`). So
`func_executed` never pops an empty deque. When every worker completes its requests in
order, the deques hold exactly those requests, newest first (`FifoInv`), and the entry each
ack pops is the acknowledged request.

Both invariants are derived from `step_cases` and `proc_ok_cases`, which say once what a
step can do to the world. -/

namespace QueueFlex

open LoadBalancer

namespace BalancerWorld

variable {cfg : BalancerConfig}

/-! ## What a step does -/

@[simp] theorem acksFrom_nil (c : Nat) : acksFrom [] c = [] := rfl

@[simp] theorem acksFrom_append (l l' : List PullFeedbackRequest) (c : Nat) :
    acksFrom (l ++ l') c = acksFrom l c ++ acksFrom l' c := by
  simp [acksFrom]

theorem acksFrom_cons (pr : PullFeedbackRequest) (l : List PullFeedbackRequest) (c : Nat) :
    acksFrom (pr :: l) c = (if pr.procId = c then [pr.reqCompleted] else []) ++ acksFrom l c := by
  by_cases h : pr.procId = c <;> simp [acksFrom, h]

@[simp] theorem apply_ok_bal (w : BalancerWorld) (taken : List RPCRequest)
    (consumed : List PullFeedbackRequest) (b : Balancer) (puts : Puts) :
    (apply w taken consumed (.ok (b, puts))).bal = b := rfl

@[simp] theorem outstanding_apply_ok (w : BalancerWorld) (taken : List RPCRequest)
    (consumed : List PullFeedbackRequest) (b : Balancer) (puts : Puts) (c : Nat) :
    (apply w taken consumed (.ok (b, puts))).outstanding c =
      acksFrom b.pullQ c ++ w.inFlight c ++ reqsTo puts c := by
  simp [outstanding, apply, deliver]

/-- **What a step can do**: a message arrives, a worker completes a request, or one of the
balancer's processes steps, succeeding or raising a fault. -/
theorem step_cases {w w' : BalancerWorld} {a : BalancerAction} (h : step cfg a w = some w') :
    (∃ m, a = .arrive m ∧ w' = { w with bal := { w.bal with inQ := w.bal.inQ ++ [m] } }) ∨
    (∃ c i r, a = .complete c i ∧ (w.inFlight c)[i]? = some r ∧
      w' = { w with
        inFlight := Function.update w.inFlight c ((w.inFlight c).eraseIdx i)
        bal := { w.bal with pullQ := w.bal.pullQ ++ [⟨c, r⟩] } }) ∨
    (w.fault = none ∧ ∃ o, a = .run ∧ Balancer.run cfg w.bal = some o ∧
      w' = apply w (takenBy w.bal) (consumedByRun cfg w.bal) o) ∨
    (w.fault = none ∧ ∃ o, a = .pullQueueUpdater ∧ Balancer.pullQueueUpdater cfg w.bal = some o ∧
      w' = apply w [] (w.bal.pullQ.take 1) o) := by
  cases a with
  | arrive m => exact .inl ⟨m, rfl, (Option.some.inj h).symm⟩
  | complete c i =>
    simp only [step] at h
    split at h
    · cases h
    · rename_i r hr
      exact .inr (.inl ⟨c, i, r, rfl, hr, (Option.some.inj h).symm⟩)
  | run =>
    simp only [step] at h
    split at h
    · cases h
    · rename_i hf
      obtain ⟨o, ho, rfl⟩ := Option.map_eq_some'.mp h
      exact .inr (.inr (.inl ⟨by simpa using hf, o, rfl, ho, rfl⟩))
  | pullQueueUpdater =>
    simp only [step] at h
    split at h
    · cases h
    · rename_i hf
      obtain ⟨o, ho, rfl⟩ := Option.map_eq_some'.mp h
      exact .inr (.inr (.inr ⟨by simpa using hf, o, rfl, ho, rfl⟩))

/-- **What a successful process step does to the data**: it hands the oldest ack to
`update_pulls`, which the world records as consumed, or it only pushes. -/
theorem proc_ok_cases {b b' : Balancer} {puts : Puts} {consumed : List PullFeedbackRequest}
    (h : Balancer.run cfg b = some (.ok (b', puts)) ∧ consumed = consumedByRun cfg b ∨
      Balancer.pullQueueUpdater cfg b = some (.ok (b', puts)) ∧ consumed = b.pullQ.take 1) :
    (∃ pr, b.pullQ = pr :: b'.pullQ ∧ consumed = [pr] ∧
        updatePulls cfg b.lb pr = .ok (b'.lb, puts)) ∨
      (b'.pullQ = b.pullQ ∧ consumed = [] ∧ PushedBy puts b.lb b'.lb) := by
  rcases h with ⟨h, rfl⟩ | ⟨h, rfl⟩
  · by_cases hk : cfg.kind = .indexAware
    · obtain ⟨m, -, hpull, hs⟩ := Balancer.run_indexAware_ok hk h
      refine .inr ⟨hpull, by simp [consumedByRun, hk], ?_⟩
      rcases Balancer.indexAwareStep_ok hs with ⟨-, hb, rfl⟩ | ⟨-, lb', hd, hb⟩
      · rw [hb]; exact PushedBy.refl _
      · rw [hb]; exact indexAwareDispatch_pushed hd
    rw [consumedByRun_eq hk]
    obtain ⟨-, ⟨pr, hpc, hpull, -, hu⟩ | ⟨hpc, hpull, rfl, rfl⟩ | ⟨hpc, m, -, hpull, -, hs⟩⟩ :=
      Balancer.run_plain_ok hk h
    · refine .inl ⟨pr, hpull, ?_, hu⟩
      rcases hpc with ⟨hpc, -⟩ | ⟨hpc, -⟩ <;> simp [hpc, hpull]
    · exact .inr ⟨rfl, by simp [hpull], PushedBy.refl _⟩
    · exact .inr ⟨hpull, by simp [hpc], (selectAndDispatch_pushed hs).1⟩
  · obtain ⟨-, pr, hpull, -, -, -, hu⟩ := Balancer.pullQueueUpdater_ok h
    exact .inl ⟨pr, hpull, by simp [hpull], hu⟩

/-- **What a step does to the fault**: it keeps it, or a failing process step raises one. -/
theorem step_fault {w w' : BalancerWorld} {a : BalancerAction} (h : step cfg a w = some w') :
    w'.fault = w.fault ∨ ∃ f, w'.fault = some f ∧
      (Balancer.run cfg w.bal = some (.error f) ∨
        Balancer.pullQueueUpdater cfg w.bal = some (.error f)) := by
  rcases step_cases h with ⟨m, -, rfl⟩ | ⟨c, i, r, -, -, rfl⟩ | ⟨-, o, -, ho, rfl⟩ |
    ⟨-, o, -, ho, rfl⟩
  · exact .inl rfl
  · exact .inl rfl
  · rcases o with f | _
    · exact .inr ⟨f, rfl, .inl ho⟩
    · exact .inl rfl
  · rcases o with f | _
    · exact .inr ⟨f, rfl, .inr ho⟩
    · exact .inl rfl

/-- Completing a request moves it from the in-flight list to the acks: no core's count of
outstanding requests changes. -/
theorem outstanding_complete_length {w : BalancerWorld} {c i : Nat} {r : RPCRequest}
    (hr : (w.inFlight c)[i]? = some r) (c' : Nat) :
    (outstanding { w with
      inFlight := Function.update w.inFlight c ((w.inFlight c).eraseIdx i)
      bal := { w.bal with pullQ := w.bal.pullQ ++ [⟨c, r⟩] } } c').length =
      (w.outstanding c').length := by
  have hi : i < (w.inFlight c).length := (List.getElem?_eq_some_iff.mp hr).1
  by_cases hc : c' = c
  · subst hc
    simp [outstanding, acksFrom, List.length_eraseIdx, hi]
    omega
  · simp [outstanding, acksFrom, Function.update_noteq hc, Ne.symm hc]

/-- Completing the oldest in-flight request of a core leaves every core's outstanding
requests as they were. -/
theorem outstanding_complete_zero {w : BalancerWorld} {c : Nat} {r : RPCRequest}
    (hr : (w.inFlight c)[0]? = some r) (c' : Nat) :
    outstanding { w with
      inFlight := Function.update w.inFlight c ((w.inFlight c).eraseIdx 0)
      bal := { w.bal with pullQ := w.bal.pullQ ++ [⟨c, r⟩] } } c' = w.outstanding c' := by
  obtain ⟨l, hl⟩ : ∃ l, w.inFlight c = r :: l := by
    cases h : w.inFlight c with
    | nil => simp [h] at hr
    | cons x l => simp [h] at hr; exact ⟨l, by rw [hr]⟩
  by_cases hc : c' = c
  · subst hc
    simp [outstanding, acksFrom, hl]
  · simp [outstanding, acksFrom, Function.update_noteq hc, Ne.symm hc]

/-! ## One entry per outstanding request -/

/-- **Tracking conservation**: both deques of each core hold one entry per request sent to
the core and not yet acknowledged, which is the requests dispatched to it less its acks
consumed. -/
structure TrackInv (w : BalancerWorld) : Prop where
  qipr : ∀ c, (w.bal.lb.queuesIncludingProcessingReq c).length = (w.outstanding c).length
  tracking : ∀ c, (w.bal.lb.tracking c).length = (w.outstanding c).length
  sent : ∀ c, (onQueue w.dispatched c).length =
    (w.outstanding c).length + (acksFrom w.consumed c).length

theorem trackInv_init : TrackInv (init cfg) :=
  ⟨fun _ => rfl, fun _ => rfl, fun _ => rfl⟩

/-- `update_pulls` of the ack `pr` followed by pushes keeps the deques' lengths in step with
the outstanding requests. -/
theorem TrackInv.ack {w : BalancerWorld} (hi : TrackInv w) {pr : PullFeedbackRequest}
    {b' : Balancer} {puts : Puts} {taken : List RPCRequest} (hpull : w.bal.pullQ = pr :: b'.pullQ)
    (hu : updatePulls cfg w.bal.lb pr = .ok (b'.lb, puts)) :
    TrackInv (apply w taken [pr] (.ok (b', puts))) := by
  obtain ⟨lb₁, hf, hp⟩ := updatePulls_ok hu
  obtain ⟨x, y, hx, hy, hother, -, -⟩ := funcExecuted_ok hf
  have ho : ∀ c, w.outstanding c =
      (if pr.procId = c then [pr.reqCompleted] else []) ++ acksFrom b'.pullQ c ++ w.inFlight c :=
    fun c => by simp [outstanding, hpull, acksFrom_cons]
  refine ⟨fun c => ?_, fun c => ?_, fun c => ?_⟩
  · have h₁ := hi.qipr c
    rw [ho] at h₁
    simp only [outstanding_apply_ok, apply_ok_bal, (hp c).2]
    by_cases hc : c = pr.procId
    · subst hc; simp [hx] at h₁ ⊢; omega
    · simp [(hother c hc).1, Ne.symm hc] at h₁ ⊢; omega
  · have h₂ := hi.tracking c
    rw [ho] at h₂
    simp only [outstanding_apply_ok, apply_ok_bal, (hp c).1]
    by_cases hc : c = pr.procId
    · subst hc; simp [hy] at h₂ ⊢; omega
    · simp [(hother c hc).2, Ne.symm hc] at h₂ ⊢; omega
  · have h₃ := hi.sent c
    rw [ho] at h₃
    rw [outstanding_apply_ok]
    simp only [apply, onQueue_append, acksFrom_append, acksFrom_cons, acksFrom_nil,
      List.append_nil, List.length_append, reqsTo] at h₃ ⊢
    split at h₃ <;> simp_all <;> omega

/-- Pushes keep the deques' lengths in step with the outstanding requests. -/
theorem TrackInv.push {w : BalancerWorld} (hi : TrackInv w) {b' : Balancer} {puts : Puts}
    {taken : List RPCRequest} (hpull : b'.pullQ = w.bal.pullQ) (hp : PushedBy puts w.bal.lb b'.lb) :
    TrackInv (apply w taken [] (.ok (b', puts))) := by
  refine ⟨fun c => ?_, fun c => ?_, fun c => ?_⟩
  · have h₁ := hi.qipr c
    simp only [outstanding, List.length_append] at h₁
    simp only [outstanding_apply_ok, apply_ok_bal, (hp c).2, hpull, List.length_append,
      List.length_reverse]
    omega
  · have h₂ := hi.tracking c
    simp only [outstanding, List.length_append] at h₂
    simp only [outstanding_apply_ok, apply_ok_bal, (hp c).1, hpull, List.length_append,
      List.length_reverse]
    omega
  · have h₃ := hi.sent c
    simp only [outstanding, List.length_append] at h₃
    simp only [outstanding_apply_ok, hpull, List.length_append]
    simp only [apply, onQueue_append, List.append_nil, List.length_append, reqsTo]
    omega

theorem trackInv_step {w w' : BalancerWorld} {a : BalancerAction} (hi : TrackInv w)
    (h : step cfg a w = some w') : TrackInv w' := by
  rcases step_cases h with ⟨m, -, rfl⟩ | ⟨c, i, r, -, hr, rfl⟩ | ⟨-, o, -, ho, rfl⟩ |
    ⟨-, o, -, ho, rfl⟩
  · exact ⟨hi.qipr, hi.tracking, hi.sent⟩
  · refine ⟨fun c' => ?_, fun c' => ?_, fun c' => ?_⟩
    all_goals rw [outstanding_complete_length hr]
    exacts [hi.qipr c', hi.tracking c', hi.sent c']
  · rcases o with f | ⟨b', puts⟩
    · exact ⟨hi.qipr, hi.tracking, hi.sent⟩
    rcases proc_ok_cases (.inl ⟨ho, rfl⟩) with ⟨pr, hpull, hc, hu⟩ | ⟨hpull, hc, hp⟩
    · rw [hc]; exact hi.ack hpull hu
    · rw [hc]; exact hi.push hpull hp
  · rcases o with f | ⟨b', puts⟩
    · exact ⟨hi.qipr, hi.tracking, hi.sent⟩
    rcases proc_ok_cases (.inr ⟨ho, rfl⟩) with ⟨pr, hpull, hc, hu⟩ | ⟨hpull, hc, hp⟩
    · rw [hc]; exact hi.ack hpull hu
    · rw [hc]; exact hi.push hpull hp

theorem trackInv_reachable {fifo : Bool} {w : BalancerWorld} (hw : Reachable cfg fifo w) :
    TrackInv w :=
  Reachable.induction cfg trackInv_init (fun _ hi _ h => trackInv_step hi h) hw

/-- With the deques in step, no process step fails by popping an empty deque. -/
theorem TrackInv.error_ne_pop {w : BalancerWorld} (hi : TrackInv w) {f : Fault}
    (h : Balancer.run cfg w.bal = some (.error f) ∨
      Balancer.pullQueueUpdater cfg w.bal = some (.error f)) : f ≠ .popFromEmptyDeque := by
  rintro rfl
  have hpull : ∀ pr, w.bal.pullQ.head? = some pr →
      updatePulls cfg w.bal.lb pr ≠ .error .popFromEmptyDeque := by
    intro pr hh hu
    obtain ⟨rest, hp⟩ : ∃ rest, w.bal.pullQ = pr :: rest := by
      cases hq : w.bal.pullQ <;> simp_all
    have hpos : 0 < (w.outstanding pr.procId).length := by
      simp [outstanding, hp, acksFrom_cons]
    exact funcExecuted_ne_error (List.ne_nil_of_length_pos (hi.qipr _ ▸ hpos))
      (List.ne_nil_of_length_pos (hi.tracking _ ▸ hpos)) ((updatePulls_error hu).1 rfl)
  rcases h with h | h
  · rcases Balancer.run_error h with ⟨pr, hh, hu⟩ | ⟨-, -, m, -, hs⟩ | ⟨-, m, hd⟩
    · exact hpull pr hh hu
    · cases (selectAndDispatch_error hs).1
    · cases indexAwareDispatch_error hd
  · obtain ⟨pr, hh, hu⟩ := Balancer.pullQueueUpdater_error h
    exact hpull pr hh hu

/-- **`func_executed` never pops an empty deque.** -/
theorem fault_ne_popFromEmptyDeque {fifo : Bool} {w : BalancerWorld}
    (hw : Reachable cfg fifo w) : w.fault ≠ some .popFromEmptyDeque := by
  refine (Reachable.induction cfg (P := fun w => TrackInv w ∧ w.fault ≠ some .popFromEmptyDeque)
    ⟨trackInv_init, by simp [init]⟩ (fun _ hi _ h => ⟨trackInv_step hi.1 h, ?_⟩) hw).2
  rcases step_fault h with hf | ⟨f, hf, he⟩
  · exact hf ▸ hi.2
  · exact hf ▸ fun h' => hi.1.error_ne_pop he (Option.some.inj h')

/-! ## In-order workers -/

/-- **The deques mirror the outstanding requests** when workers complete in order: both
deques of a core are its outstanding requests, newest first. -/
structure FifoInv (w : BalancerWorld) : Prop where
  qipr : ∀ c, w.bal.lb.queuesIncludingProcessingReq c = (w.outstanding c).reverse
  tracking : ∀ c, w.bal.lb.tracking c = (w.outstanding c).reverse

theorem fifoInv_init : FifoInv (init cfg) := ⟨fun _ => rfl, fun _ => rfl⟩

/-- Popping the oldest outstanding request `r` of a deque that mirrors `r :: o` leaves one
that mirrors `o`. -/
theorem mirror_pop {l l' o : List RPCRequest} {x r : RPCRequest} (h : l = (r :: o).reverse)
    (hx : l = l' ++ [x]) : l' = o.reverse ∧ x = r := by
  rw [hx, List.reverse_cons] at h
  simpa using List.append_inj' h rfl

theorem FifoInv.ack {w : BalancerWorld} (hi : FifoInv w) {pr : PullFeedbackRequest}
    {b' : Balancer} {puts : Puts} {taken : List RPCRequest} (hpull : w.bal.pullQ = pr :: b'.pullQ)
    (hu : updatePulls cfg w.bal.lb pr = .ok (b'.lb, puts)) :
    FifoInv (apply w taken [pr] (.ok (b', puts))) := by
  obtain ⟨lb₁, hf, hp⟩ := updatePulls_ok hu
  obtain ⟨x, y, hx, hy, hother, -, -⟩ := funcExecuted_ok hf
  have ho : ∀ c, w.outstanding c =
      (if pr.procId = c then [pr.reqCompleted] else []) ++ (acksFrom b'.pullQ c ++ w.inFlight c) :=
    fun c => by simp [outstanding, hpull, acksFrom_cons]
  refine ⟨fun c => ?_, fun c => ?_⟩
  · simp only [outstanding_apply_ok, apply_ok_bal, (hp c).2, List.reverse_append]
    by_cases hc : c = pr.procId
    · subst hc
      have h := hi.qipr pr.procId
      rw [ho, if_pos rfl] at h
      rw [(mirror_pop h hx).1]; simp
    · rw [(hother c hc).1, hi.qipr c, ho, if_neg (Ne.symm hc)]
      simp
  · simp only [outstanding_apply_ok, apply_ok_bal, (hp c).1, List.reverse_append]
    by_cases hc : c = pr.procId
    · subst hc
      have h := hi.tracking pr.procId
      rw [ho, if_pos rfl] at h
      rw [(mirror_pop h hy).1]; simp
    · rw [(hother c hc).2, hi.tracking c, ho, if_neg (Ne.symm hc)]
      simp

theorem FifoInv.push {w : BalancerWorld} (hi : FifoInv w) {b' : Balancer} {puts : Puts}
    {taken : List RPCRequest} (hpull : b'.pullQ = w.bal.pullQ) (hp : PushedBy puts w.bal.lb b'.lb) :
    FifoInv (apply w taken [] (.ok (b', puts))) :=
  ⟨fun c => by simp [(hp c).2, hi.qipr c, hpull, outstanding, apply, deliver],
    fun c => by simp [(hp c).1, hi.tracking c, hpull, outstanding, apply, deliver]⟩

theorem fifoInv_step {w w' : BalancerWorld} {a : BalancerAction} (hi : FifoInv w)
    (ha : a.IsFifo) (h : step cfg a w = some w') : FifoInv w' := by
  rcases step_cases h with ⟨m, -, rfl⟩ | ⟨c, i, r, rfl, hr, rfl⟩ | ⟨-, o, -, ho, rfl⟩ |
    ⟨-, o, -, ho, rfl⟩
  · exact ⟨hi.qipr, hi.tracking⟩
  · cases ha
    exact ⟨fun c' => by rw [outstanding_complete_zero hr]; exact hi.qipr c',
      fun c' => by rw [outstanding_complete_zero hr]; exact hi.tracking c'⟩
  · rcases o with f | ⟨b', puts⟩
    · exact ⟨hi.qipr, hi.tracking⟩
    rcases proc_ok_cases (.inl ⟨ho, rfl⟩) with ⟨pr, hpull, hc, hu⟩ | ⟨hpull, hc, hp⟩
    · rw [hc]; exact hi.ack hpull hu
    · rw [hc]; exact hi.push hpull hp
  · rcases o with f | ⟨b', puts⟩
    · exact ⟨hi.qipr, hi.tracking⟩
    rcases proc_ok_cases (.inr ⟨ho, rfl⟩) with ⟨pr, hpull, hc, hu⟩ | ⟨hpull, hc, hp⟩
    · rw [hc]; exact hi.ack hpull hu
    · rw [hc]; exact hi.push hpull hp

theorem fifoInv_reachable {w : BalancerWorld} (hw : Reachable cfg true w) : FifoInv w :=
  Reachable.induction cfg fifoInv_init (fun _ hi ha h => fifoInv_step hi (ha rfl) h) hw

/-- With in-order workers, the ack at the head of `pull_q` pops, from both deques of its
core, the very request it acknowledges. -/
theorem funcExecuted_pops_acked {w : BalancerWorld} (hw : Reachable cfg true w)
    {pr : PullFeedbackRequest} {rest : List PullFeedbackRequest} (hp : w.bal.pullQ = pr :: rest) :
    ∃ lb₁, w.bal.lb.funcExecuted pr.procId = .ok lb₁ ∧
      w.bal.lb.queuesIncludingProcessingReq pr.procId =
        lb₁.queuesIncludingProcessingReq pr.procId ++ [pr.reqCompleted] ∧
      w.bal.lb.tracking pr.procId = lb₁.tracking pr.procId ++ [pr.reqCompleted] := by
  have hi := fifoInv_reachable hw
  have ho : w.outstanding pr.procId =
      pr.reqCompleted :: (acksFrom rest pr.procId ++ w.inFlight pr.procId) := by
    simp [outstanding, hp, acksFrom_cons]
  have hq := hi.qipr pr.procId
  have ht := hi.tracking pr.procId
  rw [ho] at hq ht
  rcases hf : w.bal.lb.funcExecuted pr.procId with f | lb₁
  · exact absurd hf (funcExecuted_ne_error (by simp [hq]) (by simp [ht]))
  obtain ⟨x, y, hx, hy, -⟩ := funcExecuted_ok hf
  obtain ⟨-, rfl⟩ := mirror_pop hq hx
  obtain ⟨-, rfl⟩ := mirror_pop ht hy
  exact ⟨lb₁, rfl, hx, hy⟩

/-! ## Where the requests in flight were sent -/

theorem mem_reqsTo {puts : Puts} {c : Nat} {r : RPCRequest} :
    r ∈ reqsTo puts c ↔ (c, r) ∈ putPairs puts := by
  simp [reqsTo, onQueue]

/-- Every request in flight to core `c` was selected for queue `c` by the policy. -/
def InFlightSelected (cfg : BalancerConfig) (w : BalancerWorld) : Prop :=
  ∀ c, ∀ r ∈ w.inFlight c, ∃ p p', cfg.disp.select p r = (some c, p')

theorem inFlightSelected_step {w w' : BalancerWorld} {a : BalancerAction}
    (hi : InFlightSelected cfg w) (h : step cfg a w = some w') : InFlightSelected cfg w' := by
  rcases step_cases h with ⟨m, -, rfl⟩ | ⟨c, i, r, -, -, rfl⟩ | ⟨-, o, -, ho, rfl⟩ |
    ⟨-, o, -, ho, rfl⟩
  · exact hi
  · intro c' r' hr
    by_cases hc : c' = c
    · subst hc
      simp only [Function.update_same] at hr
      exact hi c' r' ((List.eraseIdx_sublist _ _).subset hr)
    · simp only [Function.update_noteq hc] at hr
      exact hi c' r' hr
  all_goals
    rcases o with f | ⟨b', puts⟩
    · exact hi
    · intro c r hr
      simp only [apply, deliver, List.mem_append] at hr
      rcases hr with hr | hr
      · exact hi c r hr
      · first
        | exact Balancer.proc_selected (.inl ho) c r (mem_reqsTo.mp hr)
        | exact Balancer.proc_selected (.inr ho) c r (mem_reqsTo.mp hr)

theorem inFlightSelected_reachable {fifo : Bool} {w : BalancerWorld} (hw : Reachable cfg fifo w) :
    InFlightSelected cfg w :=
  Reachable.induction cfg (fun _ _ h => absurd h (List.not_mem_nil _))
    (fun _ hi _ h => inFlightSelected_step hi h) hw

end BalancerWorld

end QueueFlex
