import QueueFlex.Balancer.Admission

/-! # The index-aware balancer

`IndexAwareLoadBalancer` dispatches a request only when no copy recorded in
`queues_including_processing_req` conflicts with it, and otherwise serializes it in the
blocked queue of its bucket, drained on the acks of that bucket.

* **Exclusion.** The recorded copies never conflict (`ExclInv`, kept by every operation).
  When workers complete in order the copies are the outstanding requests themselves
  (`FifoInv`), so no two conflicting requests are ever outstanding together
  (`indexAware_no_conflicting_outstanding`).
* **Per-bucket order.** The requests of each bucket taken from `in_q` are, in order, those
  dispatched, then the blocked ones oldest first, then the one held in the JBSQ wait
  (`OrderInv`); so the dispatches of a bucket are a prefix of its arrivals
  (`indexAware_bucket_order`).
* **Blocked queues.** A drain that finds every queue full stops, and an index-aware
  balancer with a JBSQ policy can leave a blocked queue behind with nothing outstanding on
  its bucket (`blocked_without_conflicting_outstanding`). -/

namespace QueueFlex

open LoadBalancer

/-! ## Exclusion -/

/-- No two of the requests conflict: at two positions of one core's list, or on two
cores. -/
def NoConflicts (B : Nat) (out : Nat → List RPCRequest) : Prop :=
  (∀ c, (out c).Pairwise fun r r' => reqsConflict r r' B = false) ∧
    ∀ c c', c ≠ c' → ∀ r ∈ out c, ∀ r' ∈ out c', reqsConflict r r' B = false

namespace NoConflicts

variable {B : Nat} {out : Nat → List RPCRequest}

theorem sublist (h : NoConflicts B out) {out' : Nat → List RPCRequest}
    (hs : ∀ c, (out' c).Sublist (out c)) : NoConflicts B out' :=
  ⟨fun c => (h.1 c).sublist (hs c),
    fun c c' hne r hr r' hr' => h.2 c c' hne r ((hs c).subset hr) r' ((hs c').subset hr')⟩

/-- Pushing a request that conflicts with none of the lists keeps them conflict-free. -/
theorem push (h : NoConflicts B out) (q : Nat) {r : RPCRequest}
    (hr : ∀ c, ∀ x ∈ out c, reqsConflict r x B = false) :
    NoConflicts B (Function.update out q (r :: out q)) := by
  have hr' : ∀ c, ∀ x ∈ out c, reqsConflict x r B = false :=
    fun c x hx => reqsConflict_comm x r B ▸ hr c x hx
  refine ⟨fun c => ?_, fun c c' hne x hx y hy => ?_⟩
  · by_cases hc : c = q
    · subst hc
      simpa using List.Pairwise.cons (fun x hx => hr c x hx) (h.1 c)
    · rw [Function.update_noteq hc]; exact h.1 c
  · by_cases hc : c = q
    · subst hc
      rw [Function.update_noteq (Ne.symm hne)] at hy
      rcases List.mem_cons.mp (by simpa using hx) with rfl | hx
      · exact hr c' y hy
      · exact h.2 c c' hne x hx y hy
    · rw [Function.update_noteq hc] at hx
      by_cases hc' : c' = q
      · subst hc'
        rcases List.mem_cons.mp (by simpa using hy) with rfl | hy
        · exact hr' c x hx
        · exact h.2 c c' hne x hx y hy
      · rw [Function.update_noteq hc'] at hy
        exact h.2 c c' hne x hx y hy

theorem reverse (h : NoConflicts B out) : NoConflicts B fun c => (out c).reverse :=
  ⟨fun c => List.pairwise_reverse.mpr ((h.1 c).imp fun hc => reqsConflict_comm _ _ B ▸ hc),
    fun c c' hne r hr r' hr' => h.2 c c' hne r (by simpa using hr) r' (by simpa using hr')⟩

end NoConflicts

theorem causesConflict_eq_false {cfg : BalancerConfig} {lb : LoadBalancer} {r : RPCRequest} :
    causesConflict cfg lb r = false ↔
      ∀ c < cfg.disp.numQueues, ∀ x ∈ lb.queuesIncludingProcessingReq c,
        reqsConflict r x cfg.numBuckets = false := by
  simp [causesConflict, List.any_eq_false]

/-- **Exclusion invariant of the index-aware balancer**: the recorded copies do not conflict,
only the `numQueues` queues hold any, and the policy's map names only those queues. -/
structure ExclInv (cfg : BalancerConfig) (lb : LoadBalancer) : Prop where
  noConflicts : NoConflicts cfg.numBuckets lb.queuesIncludingProcessingReq
  bounded : ∀ c, cfg.disp.numQueues ≤ c → lb.queuesIncludingProcessingReq c = []
  cores : lb.dispatchPolicy.CoresBelow cfg.disp.numQueues

namespace ExclInv

variable {cfg : BalancerConfig} {lb lb' : LoadBalancer} {puts : Puts}

theorem init : ExclInv cfg LoadBalancer.init :=
  ⟨⟨fun _ => .nil, fun _ _ _ _ h => absurd h (List.not_mem_nil _)⟩, fun _ _ => rfl,
    fun b m h => by simp [LoadBalancer.init, PolicyState.init, OrderedDict.get?,
      OrderedDict.empty] at h⟩

theorem funcExecuted (hi : ExclInv cfg lb) {c : Nat} (h : lb.funcExecuted c = .ok lb') :
    ExclInv cfg lb' := by
  obtain ⟨x, -, hx, -, hother, -, hmap⟩ := funcExecuted_ok h
  have hs : ∀ c', (lb'.queuesIncludingProcessingReq c').Sublist
      (lb.queuesIncludingProcessingReq c') := fun c' => by
    by_cases hc : c' = c
    · subst hc; rw [hx]; exact List.sublist_append_left _ _
    · rw [(hother c' hc).1]
  refine ⟨hi.noConflicts.sublist hs, fun c' hc' => ?_, fun b m hm => ?_⟩
  · exact List.eq_nil_of_sublist_nil (hi.bounded c' hc' ▸ hs c')
  · exact hi.cores b m (hmap ▸ hm)

/-- A dispatch that passed `causes_conflict` keeps the copies conflict-free. -/
theorem selectAndDispatch (hi : ExclInv cfg lb) {m : Msg}
    (hc : ∀ r, m = .req r → causesConflict cfg lb r = false)
    (h : LoadBalancer.selectAndDispatch cfg lb m = .ok (lb', puts)) : ExclInv cfg lb' := by
  cases m with
  | endOfMeasurements =>
    simp only [LoadBalancer.selectAndDispatch, Except.ok.injEq, Prod.mk.injEq] at h
    obtain ⟨rfl, rfl⟩ := h
    exact hi
  | req r =>
    obtain ⟨q, hsel, -, hqipr, -⟩ := selectAndDispatch_req_ok h
    have hq : q < cfg.disp.numQueues := cfg.disp.select_lt hi.cores (by rw [hsel])
    have hfree := causesConflict_eq_false.mp (hc r rfl)
    refine ⟨hqipr ▸ hi.noConflicts.push q fun c x hx => ?_, fun c hc' => ?_, ?_⟩
    · by_cases hcn : c < cfg.disp.numQueues
      · exact hfree c hcn x hx
      · rw [hi.bounded c (by omega)] at hx; cases hx
    · rw [hqipr, Function.update_noteq (by omega)]; exact hi.bounded c hc'
    · have := cfg.disp.select_coresBelow (r := r) hi.cores
      rwa [hsel] at this

theorem serializeReq (hi : ExclInv cfg lb) (r : RPCRequest) (b : Nat) (atTail : Bool) :
    ExclInv cfg (LoadBalancer.serializeReq lb r b atTail) :=
  ⟨hi.noConflicts, hi.bounded, hi.cores⟩

theorem drainBlocked (hi : ExclInv cfg lb) {bucket fuel : Nat}
    (h : LoadBalancer.drainBlocked cfg bucket fuel lb = .ok (lb', puts)) : ExclInv cfg lb' := by
  induction fuel generalizing lb lb' puts with
  | zero => cases h; exact hi
  | succ fuel ih =>
    unfold LoadBalancer.drainBlocked at h
    rcases hl : (lb.blockedQueues bucket).getLast? with _ | req
    · simp only [hl, Except.ok.injEq, Prod.mk.injEq] at h
      obtain ⟨rfl, rfl⟩ := h
      exact hi
    simp only [hl, bind, Except.bind] at h
    have hi₁ : ExclInv cfg (lb.setBlocked bucket (lb.blockedQueues bucket).dropLast) :=
      ⟨hi.noConflicts, hi.bounded, hi.cores⟩
    split at h
    · rename_i hok
      split at h
      · cases h
      · rename_i hs
        split at h
        · cases h
        · rename_i hd
          simp only [pure, Except.pure, Except.ok.injEq, Prod.mk.injEq] at h
          obtain ⟨rfl, rfl⟩ := h
          refine ih (hi₁.selectAndDispatch (fun r hr => ?_) hs) hd
          cases hr
          have hnc := (Bool.and_eq_true _ _ ▸ hok).1
          simpa using hnc
    · simp only [Except.ok.injEq, Prod.mk.injEq] at h
      obtain ⟨rfl, rfl⟩ := h
      exact hi₁.serializeReq _ _ _

theorem indexAwareDispatch (hi : ExclInv cfg lb) {m : Msg}
    (h : LoadBalancer.indexAwareDispatch cfg lb m = .ok (lb', puts)) : ExclInv cfg lb' := by
  cases m with
  | endOfMeasurements =>
    simp only [LoadBalancer.indexAwareDispatch, Except.ok.injEq, Prod.mk.injEq] at h
    obtain ⟨rfl, rfl⟩ := h
    exact hi
  | req r =>
    simp only [LoadBalancer.indexAwareDispatch] at h
    split at h
    · simp only [Except.ok.injEq, Prod.mk.injEq] at h
      obtain ⟨rfl, rfl⟩ := h
      exact hi.serializeReq _ _ _
    · rename_i hc
      refine hi.selectAndDispatch (fun r' hr => ?_) h
      cases hr
      have hnc := (Bool.or_eq_false_iff.mp (Bool.not_eq_true _ ▸ hc)).1
      simpa using hnc

theorem updatePulls (hk : cfg.kind = .indexAware) (hi : ExclInv cfg lb)
    {pr : PullFeedbackRequest} (h : LoadBalancer.updatePulls cfg lb pr = .ok (lb', puts)) :
    ExclInv cfg lb' := by
  unfold LoadBalancer.updatePulls at h
  rcases hf : lb.funcExecuted pr.procId with _ | lb₁
  · simp [hf, bind, Except.bind] at h
  simp only [hf, bind, Except.bind, hk] at h
  exact (hi.funcExecuted hf).drainBlocked h

end ExclInv

namespace BalancerWorld

variable {cfg : BalancerConfig}

theorem exclInv_step (hk : cfg.kind = .indexAware) {w w' : BalancerWorld} {a : BalancerAction}
    (hi : ExclInv cfg w.bal.lb) (h : step cfg a w = some w') : ExclInv cfg w'.bal.lb := by
  rcases step_cases h with ⟨m, -, rfl⟩ | ⟨c, i, r, -, -, rfl⟩ | ⟨-, o, -, ho, rfl⟩ |
    ⟨-, o, -, ho, rfl⟩
  · exact hi
  · exact hi
  · rcases o with f | ⟨b', puts⟩
    · exact hi
    obtain ⟨m, -, -, hs⟩ := Balancer.run_indexAware_ok hk ho
    rcases Balancer.indexAwareStep_ok hs with ⟨-, hb, -⟩ | ⟨-, lb', hd, hb⟩
    · rw [apply_ok_bal, hb]; exact hi
    · rw [apply_ok_bal, hb]; exact hi.indexAwareDispatch hd
  · rcases o with f | ⟨b', puts⟩
    · exact hi
    obtain ⟨-, pr, -, -, -, -, hu⟩ := Balancer.pullQueueUpdater_ok ho
    exact hi.updatePulls hk hu

theorem exclInv_reachable (hk : cfg.kind = .indexAware) {fifo : Bool} {w : BalancerWorld}
    (hw : Reachable cfg fifo w) : ExclInv cfg w.bal.lb :=
  Reachable.induction cfg (P := fun w => ExclInv cfg w.bal.lb) ExclInv.init
    (fun _ hi _ h => exclInv_step hk hi h) hw

/-! ### A run of the index-aware balancer with the JBSCREW policy -/

/-- An index-aware balancer over two queues with the JBSCREW policy of depth one, and an index
of four buckets. -/
def jbscrewIndexAware : BalancerConfig :=
  ⟨.indexAware, ⟨.jbscrew 1 4, 2, by decide, by decide⟩, 4, by decide⟩

/-- Writes to buckets 0 and 2 both go to queue 0; a read of bucket 0 is blocked behind the
first write and a read of bucket 1 fills queue 1. The first write then completes, and the
drain of bucket 0 finds every queue full. -/
theorem jbscrewIndexAware_run :
    ∃ w, Reachable jbscrewIndexAware true w ∧ w.fault = none ∧
      w.bal.lb.blockedQueues 0 = [⟨2, 2, 0, false, 0⟩] ∧
      w.outstanding 0 = [⟨1, 1, 2, true, 2⟩] ∧ w.outstanding 1 = [⟨3, 3, 1, false, 1⟩] := by
  have h : (runActions jbscrewIndexAware
      [.arrive (.req ⟨0, 0, 0, true, 0⟩), .run, .arrive (.req ⟨1, 1, 2, true, 2⟩), .run,
        .arrive (.req ⟨2, 2, 0, false, 0⟩), .run, .arrive (.req ⟨3, 3, 1, false, 1⟩), .run,
        .complete 0 0, .pullQueueUpdater] (init jbscrewIndexAware)).map
      (fun w => (w.fault, w.bal.lb.blockedQueues 0, w.outstanding 0, w.outstanding 1)) =
      some (none, [⟨2, 2, 0, false, 0⟩], [⟨1, 1, 2, true, 2⟩], [⟨3, 3, 1, false, 1⟩]) := by
    decide
  obtain ⟨w, hw, hf⟩ := Option.map_eq_some'.mp h
  simp only [Prod.mk.injEq] at hf
  exact ⟨w, Reachable.runActions _ .refl (by simp [BalancerAction.IsFifo]) hw, hf⟩

/-- **Mutual exclusion of the index-aware balancer**: when workers complete in order, no two
requests sent to workers and not yet acknowledged conflict, on one core or on two. -/
theorem indexAware_no_conflicting_outstanding (hk : cfg.kind = .indexAware) {w : BalancerWorld}
    (hw : Reachable cfg true w) : NoConflicts cfg.numBuckets w.outstanding := by
  have h := (exclInv_reachable hk hw).noConflicts.reverse
  simp only [(fifoInv_reachable hw).qipr, List.reverse_reverse] at h
  exact h

theorem jbscrewIndexAware_run_no_conflicts :
    ∃ w, Reachable jbscrewIndexAware true w ∧ w.outstanding 0 = [⟨1, 1, 2, true, 2⟩] ∧
      NoConflicts 4 w.outstanding := by
  obtain ⟨w, hw, -, -, h0, -⟩ := jbscrewIndexAware_run
  exact ⟨w, hw, h0, indexAware_no_conflicting_outstanding rfl hw⟩

end BalancerWorld

/-! ## Per-bucket order -/

/-- The request `run` holds in the JBSQ wait, if any. -/
def Balancer.held (b : Balancer) : List RPCRequest :=
  match b.pc with
  | .jbsqWait m => m.reqs
  | _ => []

/-- Every blocked queue holds requests of its own bucket. -/
def BlockedOwn (B : Nat) (lb : LoadBalancer) : Prop :=
  ∀ b, ∀ r ∈ lb.blockedQueues b, r.bucket B = b

theorem BlockedOwn.of_eq {B : Nat} {lb lb' : LoadBalancer}
    (h : lb'.blockedQueues = lb.blockedQueues) (ho : BlockedOwn B lb) : BlockedOwn B lb' :=
  fun b r hr => ho b r (by rw [← h]; exact hr)

/-- `lb'` and `puts` come from `lb` by handling the requests `extra`: per bucket, the blocked
requests oldest first and then `extra` are, in order, the requests put on a queue and then
those left blocked. -/
def Serializes (B : Nat) (lb : LoadBalancer) (extra : List RPCRequest) (puts : Puts)
    (lb' : LoadBalancer) : Prop :=
  ∀ b, (lb.blockedQueues b).reverse ++ extra.filter (·.bucket B = b) =
    ((putPairs puts).map Prod.snd).filter (·.bucket B = b) ++ (lb'.blockedQueues b).reverse

namespace Serializes

variable {B : Nat} {lb lb₁ lb' : LoadBalancer} {extra : List RPCRequest} {p q : Puts}

theorem trans (h₁ : Serializes B lb [] p lb₁) (h₂ : Serializes B lb₁ extra q lb') :
    Serializes B lb extra (p ++ q) lb' := fun b => by
  have e₁ := h₁ b
  simp only [List.filter_nil, List.append_nil] at e₁
  simp only [putPairs_append, List.map_append, List.filter_append, List.append_assoc]
  rw [e₁, List.append_assoc, h₂ b]

theorem of_blocked (h : lb'.blockedQueues = lb.blockedQueues) : Serializes B lb [] [] lb' :=
  fun b => by simp [h]

end Serializes

section

variable {cfg : BalancerConfig} {lb lb' : LoadBalancer} {puts : Puts}

/-- **The drain dispatches the oldest blocked requests of its bucket, in order**, and leaves
the other blocked queues alone. -/
theorem drainBlocked_serializes (ho : BlockedOwn cfg.numBuckets lb) {bucket fuel : Nat}
    (h : drainBlocked cfg bucket fuel lb = .ok (lb', puts)) :
    Serializes cfg.numBuckets lb [] puts lb' ∧ BlockedOwn cfg.numBuckets lb' := by
  induction fuel generalizing lb lb' puts with
  | zero => cases h; exact ⟨Serializes.of_blocked rfl, ho⟩
  | succ fuel ih =>
    rcases drainBlocked_succ_ok h with ⟨-, rfl, rfl⟩ | ⟨req, hl, hround⟩
    · exact ⟨Serializes.of_blocked rfl, ho⟩
    have hsplit := (List.dropLast_append_getLast? _ hl).symm
    have hreq : req.bucket cfg.numBuckets = bucket := ho bucket req (List.mem_of_getLast?_eq_some hl)
    have ho₁ : BlockedOwn cfg.numBuckets
        (lb.setBlocked bucket (lb.blockedQueues bucket).dropLast) := fun b r hr => by
      by_cases hb : b = bucket
      · subst hb
        simp only [setBlocked, Function.update_same] at hr
        exact ho _ r (List.dropLast_subset _ hr)
      · simp only [setBlocked, Function.update_noteq hb] at hr
        exact ho b r hr
    rcases hround with ⟨_, _, _, hs, hd, rfl⟩ | ⟨rfl, rfl⟩
    · -- `req` is dispatched ahead of the rest of the drain
      obtain ⟨q, -, hput, -, hb⟩ := selectAndDispatch_req_ok hs
      obtain ⟨hser, ho'⟩ := ih (ho₁.of_eq hb) hd
      refine ⟨Serializes.trans (fun b => ?_) hser, ho'⟩
      rw [hb, hput]
      by_cases hbk : b = bucket
      · subst hbk
        conv_lhs => rw [hsplit]
        simp [setBlocked, hreq]
      · simp [setBlocked, Function.update_noteq hbk, hreq, Ne.symm hbk]
    · -- `req` goes back at the head of its blocked queue
      refine ⟨fun b => ?_, fun b r hr => ?_⟩
      · by_cases hbk : b = bucket
        · subst hbk
          simp only [serializeReq, setBlocked, Function.update_same, Bool.false_eq_true,
            ite_false, ← hsplit]
          simp
        · simp [serializeReq, setBlocked, Function.update_noteq hbk]
      · by_cases hbk : b = bucket
        · subst hbk
          simp only [serializeReq, setBlocked, Function.update_same, Bool.false_eq_true,
            ite_false, ← hsplit] at hr
          exact ho _ r hr
        · simp only [serializeReq, setBlocked, Function.update_noteq hbk] at hr
          exact ho b r hr

/-- The index-aware handler serializes a request behind the blocked requests of its bucket,
or dispatches it when its bucket has none blocked. -/
theorem indexAwareDispatch_serializes (ho : BlockedOwn cfg.numBuckets lb) {m : Msg}
    (h : indexAwareDispatch cfg lb m = .ok (lb', puts)) :
    Serializes cfg.numBuckets lb m.reqs puts lb' ∧ BlockedOwn cfg.numBuckets lb' := by
  cases m with
  | endOfMeasurements =>
    simp only [indexAwareDispatch, Except.ok.injEq, Prod.mk.injEq] at h
    obtain ⟨rfl, rfl⟩ := h
    exact ⟨fun b => by simp [Msg.reqs], ho⟩
  | req r =>
    simp only [indexAwareDispatch] at h
    split at h
    · simp only [Except.ok.injEq, Prod.mk.injEq] at h
      obtain ⟨rfl, rfl⟩ := h
      refine ⟨fun b => ?_, fun b x hx => ?_⟩
      · by_cases hb : r.bucket cfg.numBuckets = b
        · subst hb
          simp [serializeReq, setBlocked, Msg.reqs, RPCRequest.bucket]
        · have hb' : b ≠ r.h % cfg.numBuckets := fun h => hb h.symm
          simp [serializeReq, setBlocked, Msg.reqs, hb, Function.update_noteq hb']
      · by_cases hb : b = r.h % cfg.numBuckets
        · subst hb
          simp only [serializeReq, setBlocked, ite_true, Function.update_same,
            List.mem_cons] at hx
          rcases hx with rfl | hx
          · rfl
          · exact ho _ x hx
        · simp only [serializeReq, setBlocked, Function.update_noteq hb] at hx
          exact ho b x hx
    · rename_i hc
      obtain ⟨q, -, rfl, -, hb⟩ := selectAndDispatch_req_ok h
      have hempty : lb.blockedQueues (r.h % cfg.numBuckets) = [] := by
        have h₂ := (Bool.or_eq_false_iff.mp (Bool.not_eq_true _ ▸ hc)).2
        cases hl : lb.blockedQueues (r.h % cfg.numBuckets) with
        | nil => rfl
        | cons => simp [hl] at h₂
      refine ⟨fun b => ?_, ho.of_eq hb⟩
      rw [hb]
      by_cases hbk : r.bucket cfg.numBuckets = b
      · subst hbk
        simp [Msg.reqs, RPCRequest.bucket, hempty]
      · simp [Msg.reqs, hbk]

/-- The index-aware `update_pulls` only drains. -/
theorem updatePulls_serializes (hk : cfg.kind = .indexAware) (ho : BlockedOwn cfg.numBuckets lb)
    {pr : PullFeedbackRequest} (h : updatePulls cfg lb pr = .ok (lb', puts)) :
    Serializes cfg.numBuckets lb [] puts lb' ∧ BlockedOwn cfg.numBuckets lb' := by
  unfold updatePulls at h
  rcases hf : lb.funcExecuted pr.procId with _ | lb₁
  · simp [hf, bind, Except.bind] at h
  simp only [hf, bind, Except.bind, hk] at h
  obtain ⟨-, -, -, -, -, hblk, -⟩ := funcExecuted_ok hf
  obtain ⟨hser, ho'⟩ := drainBlocked_serializes (ho.of_eq hblk) h
  exact ⟨by simpa using (Serializes.of_blocked hblk).trans hser, ho'⟩

end

namespace BalancerWorld

variable {cfg : BalancerConfig}

/-- **Per-bucket order invariant**: the blocked queues hold requests of their own bucket, and
the requests of each bucket taken from `in_q` are, in order, those dispatched, the blocked
ones oldest first, and the one held in the JBSQ wait. -/
structure OrderInv (cfg : BalancerConfig) (w : BalancerWorld) : Prop where
  own : BlockedOwn cfg.numBuckets w.bal.lb
  order : ∀ b, w.taken.filter (·.bucket cfg.numBuckets = b) =
    (w.dispatched.map Prod.snd).filter (·.bucket cfg.numBuckets = b) ++
      (w.bal.lb.blockedQueues b).reverse ++ w.bal.held.filter (·.bucket cfg.numBuckets = b)

theorem orderInv_init : OrderInv cfg (init cfg) := by
  have hheld : (init cfg).bal.held = [] := by
    simp only [init, Balancer.init, Balancer.held]
    split <;> rename_i h
    · split at h <;> cases h
    · rfl
  refine ⟨fun _ _ h => by simp [init, Balancer.init, LoadBalancer.init] at h, fun b => ?_⟩
  rw [hheld]
  rfl

/-- The message the index-aware `run` handles comes after everything taken before it. -/
theorem order_run {w : BalancerWorld} (hi : OrderInv cfg w) {b' : Balancer} {m : Msg}
    (hm : w.bal.pc = .inputWait ∧ w.bal.inQ = m :: b'.inQ ∨ w.bal.pc = .jbsqWait m) (b : Nat) :
    (w.taken ++ takenBy w.bal).filter (·.bucket cfg.numBuckets = b) =
      (w.dispatched.map Prod.snd).filter (·.bucket cfg.numBuckets = b) ++
        (w.bal.lb.blockedQueues b).reverse ++ m.reqs.filter (·.bucket cfg.numBuckets = b) := by
  rw [List.filter_append, hi.order b]
  rcases hm with ⟨hpc, hin⟩ | hpc
  · cases m <;> simp [Balancer.held, takenBy, hpc, hin, Msg.reqs]
  · simp [Balancer.held, takenBy, hpc]

theorem orderInv_step (hk : cfg.kind = .indexAware) {w w' : BalancerWorld} {a : BalancerAction}
    (hi : OrderInv cfg w) (h : step cfg a w = some w') : OrderInv cfg w' := by
  rcases step_cases h with ⟨m, -, rfl⟩ | ⟨c, i, r, -, -, rfl⟩ | ⟨-, o, -, ho, rfl⟩ |
    ⟨-, o, -, ho, rfl⟩
  · exact ⟨hi.own, hi.order⟩
  · exact ⟨hi.own, hi.order⟩
  · rcases o with f | ⟨b', puts⟩
    · exact ⟨hi.own, hi.order⟩
    obtain ⟨m, hm, -, hs⟩ := Balancer.run_indexAware_ok hk ho
    have hrun := order_run hi (hm.imp_right fun h => h.1)
    rcases Balancer.indexAwareStep_ok hs with ⟨-, hb, rfl⟩ | ⟨-, lb', hd, hb⟩
    · have hlb : b'.lb = w.bal.lb := by rw [hb]
      have hpc : b'.pc = .jbsqWait m := by rw [hb]
      refine ⟨by rw [apply_ok_bal, hlb]; exact hi.own, fun bk => ?_⟩
      simp only [apply, hrun, putPairs_nil, List.append_nil, hlb, Balancer.held, hpc]
    · have hlb : b'.lb = lb' := by rw [hb]
      have hpc : b'.pc = .inputWait := by rw [hb]
      obtain ⟨hser, ho'⟩ := indexAwareDispatch_serializes hi.own hd
      refine ⟨by rw [apply_ok_bal, hlb]; exact ho', fun bk => ?_⟩
      simp only [apply, hrun, hlb, Balancer.held, hpc, List.filter_nil, List.append_nil,
        List.map_append, List.filter_append, List.append_assoc, hser bk]
  · rcases o with f | ⟨b', puts⟩
    · exact ⟨hi.own, hi.order⟩
    obtain ⟨-, pr, -, -, hpc, -, hu⟩ := Balancer.pullQueueUpdater_ok ho
    obtain ⟨hser, ho'⟩ := updatePulls_serializes hk hi.own hu
    refine ⟨ho', fun bk => ?_⟩
    have e := hser bk
    simp only [List.filter_nil, List.append_nil] at e
    simp only [apply, List.append_nil, hi.order bk, List.map_append, List.filter_append,
      List.append_assoc, Balancer.held, hpc, ← e]

/-- **A blocked queue need not have a conflicting request outstanding**: in the run above,
the read of bucket 0 stays blocked while nothing outstanding conflicts with it, so no ack
will ever drain bucket 0, and every later request of bucket 0 is serialized behind it. -/
theorem blocked_without_conflicting_outstanding :
    ∃ w, Reachable jbscrewIndexAware true w ∧ w.fault = none ∧
      (w.bal.lb.blockedQueues 0).getLast? = some ⟨2, 2, 0, false, 0⟩ ∧
      ∀ c, ∀ x ∈ w.outstanding c, reqsConflict x ⟨2, 2, 0, false, 0⟩ 4 = false := by
  obtain ⟨w, hw, hf, hb, h0, h1⟩ := jbscrewIndexAware_run
  refine ⟨w, hw, hf, by rw [hb]; rfl, fun c x hx => ?_⟩
  rcases c with _ | _ | c
  · rw [h0, List.mem_singleton] at hx; subst hx; decide
  · rw [h1, List.mem_singleton] at hx; subst hx; decide
  · have hq := (exclInv_reachable rfl hw).bounded (c + 2) (by simp [jbscrewIndexAware])
    have hl := (trackInv_reachable hw).qipr (c + 2)
    rw [hq, List.length_nil, eq_comm, List.length_eq_zero] at hl
    rw [hl] at hx
    cases hx

end BalancerWorld

/-! ## The queue check

`check_queue_invariant` asserts that every request blocked in a queue is of the bucket of the
request that was just serialized, and that every recorded copy conflicting with a blocked
request is of its bucket. Its call in `run` is commented out as too costly; enabled, it would
never fail (`indexAware_check_queue_invariant`). -/

/-- The two assertions of `check_queue_invariant`. -/
inductive QueueCheckFailure where
  /-- A blocked request is not of the bucket of the request conflicted with. -/
  | bucketMismatch (reqId : Int) (reqHash : Nat) (withId : Int) (withHash : Nat)
  /-- A recorded copy that conflicts with a blocked request is of another bucket. -/
  | conflictMismatch (reqId : Int) (reqBucket : Nat) (queuedId : Int) (queuedBucket : Nat)
deriving DecidableEq, Repr

/-- The text of each assertion. -/
def QueueCheckFailure.message : QueueCheckFailure → String
  | .bucketMismatch reqId reqHash withId withHash =>
    s!"Request ID {reqId} to bucket {reqHash} that is currently blocked, does NOT match incoming request {withId} to bucket {withHash}."
  | .conflictMismatch reqId reqBucket queuedId queuedBucket =>
    s!"Request ID {reqId} to bucket {reqBucket} that is currently blocked, does NOT conflict with currently queued request {queuedId} to bucket {queuedBucket}."

theorem forM_except_eq_ok {α ε : Type} {l : List α} {f : α → Except ε Unit} :
    l.forM f = .ok () ↔ ∀ a ∈ l, f a = .ok () := by
  induction l with
  | nil => exact ⟨fun _ _ h => absurd h (List.not_mem_nil _), fun _ => rfl⟩
  | cons a l ih =>
    rw [List.forM, List.forall_mem_cons, ← ih]
    rcases f a with e | u
    · exact ⟨fun h => (nomatch h), fun h => (nomatch h.1)⟩
    · exact ⟨fun h => ⟨rfl, h⟩, fun h => h.2⟩

namespace LoadBalancer

variable (cfg : BalancerConfig)

/-- The map `causes_conflict` returns beside its verdict
(`search_queues_for_matching_requests` over every queue, processing requests included): for
each queue in index order, the recorded copies that conflict with `r`. -/
def conflictMap (lb : LoadBalancer) (r : RPCRequest) : List (Nat × List RPCRequest) :=
  (List.range cfg.disp.numQueues).map fun q =>
    (q, (lb.queuesIncludingProcessingReq q).filter fun r' => reqsConflict r r' cfg.numBuckets)

/-- The verdict of `causes_conflict` is whether its map has a non-empty entry. -/
theorem causesConflict_eq_any_conflictMap (lb : LoadBalancer) (r : RPCRequest) :
    causesConflict cfg lb r = (conflictMap cfg lb r).any fun p => !p.2.isEmpty := by
  rw [Bool.eq_iff_iff]
  simp [causesConflict, conflictMap, List.isEmpty_iff, List.filter_eq_nil_iff]

/-- The inner loops of `check_queue_invariant` for the blocked request `req`: every recorded
copy in its conflict map is of its bucket. -/
def checkConflictsOf (lb : LoadBalancer) (req : RPCRequest) : Except QueueCheckFailure Unit :=
  (conflictMap cfg lb req).forM fun (_, qReqs) => qReqs.forM fun cqc => do
    unless req.bucket cfg.numBuckets == cqc.bucket cfg.numBuckets do
      throw (.conflictMismatch req.num (req.bucket cfg.numBuckets) cqc.num
        (cqc.bucket cfg.numBuckets))

/-- `IndexAwareLoadBalancer.check_queue_invariant`. -/
def checkQueueInvariant (lb : LoadBalancer) (reqConflictedWith : RPCRequest) (qIdx : Nat) :
    Except QueueCheckFailure Unit :=
  (lb.blockedQueues qIdx).forM fun req => do
    unless req.bucket cfg.numBuckets == reqConflictedWith.bucket cfg.numBuckets do
      throw (.bucketMismatch req.num req.h reqConflictedWith.num reqConflictedWith.h)
    checkConflictsOf cfg lb req

variable {cfg}

/-- The second assertion cannot fail: requests conflict only within one bucket. -/
theorem checkConflictsOf_eq_ok (lb : LoadBalancer) (req : RPCRequest) :
    checkConflictsOf cfg lb req = .ok () := by
  refine forM_except_eq_ok.mpr fun ⟨q, qReqs⟩ hp => forM_except_eq_ok.mpr fun cqc hc => ?_
  obtain ⟨q, -, hq⟩ := List.mem_map.mp hp
  obtain ⟨-, rfl⟩ := Prod.mk.inj hq
  simp [bucket_eq_of_reqsConflict (List.mem_filter.mp hc).2]
  rfl

/-- The check passes exactly when every blocked request of the queue is of the bucket of
`reqConflictedWith`. -/
theorem checkQueueInvariant_eq_ok {lb : LoadBalancer} {r : RPCRequest} {qIdx : Nat} :
    checkQueueInvariant cfg lb r qIdx = .ok () ↔
      ∀ req ∈ lb.blockedQueues qIdx, req.bucket cfg.numBuckets = r.bucket cfg.numBuckets := by
  rw [checkQueueInvariant, forM_except_eq_ok]
  refine forall₂_congr fun req _ => ?_
  by_cases hb : req.bucket cfg.numBuckets = r.bucket cfg.numBuckets
  · simp [hb, checkConflictsOf_eq_ok]
  · simp [hb, throw, throwThe, MonadExceptOf.throw, bind, Except.bind]

end LoadBalancer

namespace BalancerWorld

variable {cfg : BalancerConfig}

/-- **The queue check of the index-aware balancer never fails where it would be called**: in
every reachable state, `check_queue_invariant` of a request against a blocked queue passes
exactly when that queue is empty or is the request's bucket; at its call after
`serialize_req`, with the request's own bucket, it always passes. -/
theorem indexAware_check_queue_invariant (hk : cfg.kind = .indexAware) {fifo : Bool}
    {w : BalancerWorld} (hw : Reachable cfg fifo w) (r : RPCRequest) (qIdx : Nat) :
    checkQueueInvariant cfg w.bal.lb r qIdx = .ok () ↔
      w.bal.lb.blockedQueues qIdx = [] ∨ r.bucket cfg.numBuckets = qIdx := by
  have ho := (Reachable.induction cfg orderInv_init (fun _ hi _ h => orderInv_step hk hi h) hw).own
  rw [checkQueueInvariant_eq_ok]
  constructor
  · intro h
    rcases hq : w.bal.lb.blockedQueues qIdx with _ | ⟨req, l⟩
    · exact .inl rfl
    · have hreq : req ∈ w.bal.lb.blockedQueues qIdx := by simp [hq]
      exact .inr ((h req hreq).symm.trans (ho qIdx req hreq))
  · rintro (h | rfl) req hreq
    · simp [h] at hreq
    · exact ho _ req hreq

theorem jbscrewIndexAware_check_passes_on_own_bucket :
    ∃ w, Reachable jbscrewIndexAware true w ∧ w.bal.lb.blockedQueues 0 ≠ [] ∧
      checkQueueInvariant jbscrewIndexAware w.bal.lb ⟨4, 4, 4, true, 4⟩ 0 = .ok () ∧
      checkQueueInvariant jbscrewIndexAware w.bal.lb ⟨5, 5, 1, true, 1⟩ 0 ≠ .ok () := by
  obtain ⟨w, hw, -, hb, -, -⟩ := jbscrewIndexAware_run
  refine ⟨w, hw, by simp [hb],
    (indexAware_check_queue_invariant rfl hw _ 0).mpr (.inr rfl), fun h => ?_⟩
  rcases (indexAware_check_queue_invariant rfl hw _ 0).mp h with h | h
  · simp [hb] at h
  · exact absurd h (by decide)

end BalancerWorld

end QueueFlex
