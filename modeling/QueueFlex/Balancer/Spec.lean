import QueueFlex.Balancer.World

/-! # What each balancer operation does

One lemma per operation of `QueueFlex.Balancer.Basic`, stated on the deques it changes.
`PushedBy puts lb lb'` says that `lb'` is `lb` with the requests of `puts` pushed, in order, on
the tracking deques and the recorded copies of their queues; `select_and_dispatch`, the
blocked-queue drain and both `run` handlers are of this form, and `func_executed` pops one
entry of each deque of the acknowledging core. -/

namespace QueueFlex

namespace LoadBalancer

variable {cfg : BalancerConfig}

/-- The tracking deque of core `c`. -/
abbrev tracking (lb : LoadBalancer) (c : Nat) : List RPCRequest :=
  lb.dispatchPolicy.queueLengthTracking c

/-- `lb'` is `lb` with the requests of `puts` pushed on the left, in order, on both deques of
their queue. -/
def PushedBy (puts : Puts) (lb lb' : LoadBalancer) : Prop :=
  ∀ c, lb'.tracking c = (reqsTo puts c).reverse ++ lb.tracking c ∧
    lb'.queuesIncludingProcessingReq c =
      (reqsTo puts c).reverse ++ lb.queuesIncludingProcessingReq c

@[simp] theorem putPairs_append (p q : Puts) :
    putPairs (p ++ q) = putPairs p ++ putPairs q := by
  induction p with
  | nil => rfl
  | cons x p ih => rcases x with ⟨_, _ | _⟩ <;> simp [putPairs, ih]

@[simp] theorem putPairs_nil : putPairs [] = [] := rfl

@[simp] theorem putPairs_req (q : Nat) (r : RPCRequest) : putPairs [(q, .req r)] = [(q, r)] :=
  rfl

@[simp] theorem putPairs_marker (q : Nat) : putPairs [(q, .endOfMeasurements)] = [] := rfl

@[simp] theorem onQueue_append (l l' : List (Nat × RPCRequest)) (c : Nat) :
    onQueue (l ++ l') c = onQueue l c ++ onQueue l' c := by
  simp [onQueue]

@[simp] theorem onQueue_nil (c : Nat) : onQueue [] c = [] := rfl

theorem onQueue_singleton (q c : Nat) (r : RPCRequest) :
    onQueue [(q, r)] c = if q = c then [r] else [] := by
  by_cases h : q = c <;> simp [onQueue, h]

@[simp] theorem reqsTo_append (p q : Puts) (c : Nat) :
    reqsTo (p ++ q) c = reqsTo p c ++ reqsTo q c := by
  simp [reqsTo]

@[simp] theorem reqsTo_nil (c : Nat) : reqsTo [] c = [] := rfl

theorem reqsTo_req (q c : Nat) (r : RPCRequest) :
    reqsTo [(q, .req r)] c = if q = c then [r] else [] := by
  simp [reqsTo, onQueue_singleton]

@[simp] theorem reqsTo_marker (q c : Nat) : reqsTo [(q, .endOfMeasurements)] c = [] := rfl

theorem PushedBy.refl (lb : LoadBalancer) : PushedBy [] lb lb := fun _ => by simp

theorem PushedBy.trans {p q : Puts} {a b c : LoadBalancer} (h₁ : PushedBy p a b)
    (h₂ : PushedBy q b c) : PushedBy (p ++ q) a c := fun x => by
  obtain ⟨h₁t, h₁q⟩ := h₁ x
  obtain ⟨h₂t, h₂q⟩ := h₂ x
  simp [h₁t, h₁q, h₂t, h₂q]

theorem PushedBy.of_eq {p : Puts} {a b b' : LoadBalancer} (h : PushedBy p a b)
    (ht : ∀ c, b'.tracking c = b.tracking c)
    (hq : b'.queuesIncludingProcessingReq = b.queuesIncludingProcessingReq) :
    PushedBy p a b' := fun c => by rw [ht, hq]; exact h c

@[simp] theorem setQipr_tracking (lb : LoadBalancer) (q : Nat) (l : List RPCRequest) (c : Nat) :
    (lb.setQipr q l).tracking c = lb.tracking c := rfl

@[simp] theorem setBlocked_tracking (lb : LoadBalancer) (b : Nat) (l : List RPCRequest)
    (c : Nat) : (lb.setBlocked b l).tracking c = lb.tracking c := rfl

@[simp] theorem setBlocked_qipr (lb : LoadBalancer) (b : Nat) (l : List RPCRequest) :
    (lb.setBlocked b l).queuesIncludingProcessingReq = lb.queuesIncludingProcessingReq := rfl

@[simp] theorem setBlocked_policy (lb : LoadBalancer) (b : Nat) (l : List RPCRequest) :
    (lb.setBlocked b l).dispatchPolicy = lb.dispatchPolicy := rfl

/-! ## `func_executed` -/

/-- **`func_executed`** pops the rightmost entry of both deques of core `c` and changes
nothing else. -/
theorem funcExecuted_ok {lb lb' : LoadBalancer} {c : Nat} (h : lb.funcExecuted c = .ok lb') :
    ∃ x y, lb.queuesIncludingProcessingReq c = lb'.queuesIncludingProcessingReq c ++ [x] ∧
      lb.tracking c = lb'.tracking c ++ [y] ∧
      (∀ c', c' ≠ c → lb'.queuesIncludingProcessingReq c' = lb.queuesIncludingProcessingReq c' ∧
        lb'.tracking c' = lb.tracking c') ∧
      lb'.blockedQueues = lb.blockedQueues ∧
      lb'.dispatchPolicy.bucketMappings = lb.dispatchPolicy.bucketMappings := by
  unfold funcExecuted PolicyState.funcExecuted at h
  rcases hq : popRight (lb.queuesIncludingProcessingReq c) with _ | ⟨x, qs⟩
  · simp [hq] at h; cases h
  rcases ht : popRight (lb.tracking c) with _ | ⟨y, ts⟩
  · simp [hq, ht] at h; cases h
  simp only [hq, ht] at h
  cases h
  refine ⟨x, y, ?_, ?_, fun c' hc' => ?_, rfl, rfl⟩
  · simpa [setQipr] using popRight_ok hq
  · simpa [setQipr, tracking] using popRight_ok ht
  · simp [setQipr, tracking, Function.update_noteq hc']

/-- `func_executed` only fails on an empty deque. -/
theorem funcExecuted_ne_error {lb : LoadBalancer} {c : Nat} {f : Fault}
    (hq : lb.queuesIncludingProcessingReq c ≠ []) (ht : lb.tracking c ≠ []) :
    lb.funcExecuted c ≠ .error f := by
  obtain ⟨qs, x, hx⟩ := List.eq_nil_or_concat _ |>.resolve_left hq
  obtain ⟨ts, y, hy⟩ := List.eq_nil_or_concat _ |>.resolve_left ht
  rw [List.concat_eq_append] at hx hy
  unfold funcExecuted PolicyState.funcExecuted
  simp only [tracking] at hy
  simp [hx, hy, popRight_append_singleton, bind, Except.bind, pure, Except.pure]

/-! ## Dispatch -/

/-- **`select_and_dispatch` of a request** pushes it on the queue `select` chose. -/
theorem selectAndDispatch_req_ok {lb lb' : LoadBalancer} {r : RPCRequest} {puts : Puts}
    (h : selectAndDispatch cfg lb (.req r) = .ok (lb', puts)) :
    ∃ q, cfg.disp.select lb.dispatchPolicy r = (some q, lb'.dispatchPolicy) ∧
      puts = [(q, .req r)] ∧
      lb'.queuesIncludingProcessingReq = Function.update lb.queuesIncludingProcessingReq q
        (r :: lb.queuesIncludingProcessingReq q) ∧
      lb'.blockedQueues = lb.blockedQueues := by
  unfold selectAndDispatch at h
  rcases hs : cfg.disp.select lb.dispatchPolicy r with ⟨_ | q, p⟩
  · simp [hs] at h
  · simp only [hs, Except.ok.injEq, Prod.mk.injEq] at h
    obtain ⟨rfl, rfl⟩ := h
    exact ⟨q, rfl, rfl, rfl, rfl⟩

theorem selectAndDispatch_pushed {lb lb' : LoadBalancer} {m : Msg} {puts : Puts}
    (h : selectAndDispatch cfg lb m = .ok (lb', puts)) :
    PushedBy puts lb lb' ∧ lb'.blockedQueues = lb.blockedQueues := by
  cases m with
  | endOfMeasurements =>
    simp only [selectAndDispatch, Except.ok.injEq, Prod.mk.injEq] at h
    obtain ⟨rfl, rfl⟩ := h
    exact ⟨fun c => by simp, rfl⟩
  | req r =>
    obtain ⟨q, hsel, rfl, hqipr, hb⟩ := selectAndDispatch_req_ok h
    refine ⟨fun c => ?_, hb⟩
    have ht := cfg.disp.select_some hsel
    by_cases hc : q = c
    · subst hc; simp [reqsTo_req, tracking, ht, hqipr]
    · simp [reqsTo_req, hc, tracking, ht, hqipr, Function.update_noteq (Ne.symm hc)]

/-- **One round of the blocked-queue drain**, when the drain returns: the blocked queue of
`bucket` is empty, or its oldest request is taken off and either dispatched ahead of the next
rounds or put back at the head. -/
theorem drainBlocked_succ_ok {bucket fuel : Nat} {lb lb' : LoadBalancer} {puts : Puts}
    (h : drainBlocked cfg bucket (fuel + 1) lb = .ok (lb', puts)) :
    (lb.blockedQueues bucket).getLast? = none ∧ lb' = lb ∧ puts = [] ∨
    ∃ req, (lb.blockedQueues bucket).getLast? = some req ∧
      ((∃ lb₁ p₁ p₂, selectAndDispatch cfg
          (lb.setBlocked bucket (lb.blockedQueues bucket).dropLast) (.req req) = .ok (lb₁, p₁) ∧
          drainBlocked cfg bucket fuel lb₁ = .ok (lb', p₂) ∧ puts = p₁ ++ p₂) ∨
        lb' = serializeReq (lb.setBlocked bucket (lb.blockedQueues bucket).dropLast) req bucket
          false ∧ puts = []) := by
  unfold drainBlocked at h
  rcases hl : (lb.blockedQueues bucket).getLast? with _ | req
  · simp only [hl, Except.ok.injEq, Prod.mk.injEq] at h
    exact .inl ⟨rfl, h.1.symm, h.2.symm⟩
  refine .inr ⟨req, rfl, ?_⟩
  simp only [hl, bind, Except.bind] at h
  split at h
  · split at h
    · cases h
    · rename_i v₁ hs
      split at h
      · cases h
      · rename_i v₂ hd
        simp only [pure, Except.pure, Except.ok.injEq, Prod.mk.injEq] at h
        exact .inl ⟨v₁.1, v₁.2, v₂.2, hs, h.1 ▸ hd, h.2.symm⟩
  · simp only [Except.ok.injEq, Prod.mk.injEq] at h
    exact .inr ⟨h.1.symm, h.2.symm⟩

/-- The blocked-queue drain pushes the requests it dispatches. -/
theorem drainBlocked_pushed {bucket fuel : Nat} {lb lb' : LoadBalancer} {puts : Puts}
    (h : drainBlocked cfg bucket fuel lb = .ok (lb', puts)) : PushedBy puts lb lb' := by
  induction fuel generalizing lb lb' puts with
  | zero => cases h; exact PushedBy.refl _
  | succ fuel ih =>
    rcases drainBlocked_succ_ok h with ⟨-, rfl, rfl⟩ | ⟨req, -, ⟨_, _, _, hs, hd, rfl⟩ | ⟨rfl, rfl⟩⟩
    · exact PushedBy.refl _
    · have hp := (selectAndDispatch_pushed hs).1.trans (ih hd)
      exact fun c => by simpa using hp c
    · exact fun c => by simp [serializeReq]

/-- **`update_pulls`** is `func_executed` of the acknowledging core followed by pushes. -/
theorem updatePulls_ok {lb lb' : LoadBalancer} {pr : PullFeedbackRequest} {puts : Puts}
    (h : updatePulls cfg lb pr = .ok (lb', puts)) :
    ∃ lb₁, lb.funcExecuted pr.procId = .ok lb₁ ∧ PushedBy puts lb₁ lb' := by
  unfold updatePulls at h
  rcases hf : lb.funcExecuted pr.procId with _ | lb₁
  · simp [hf, bind, Except.bind] at h
  refine ⟨lb₁, rfl, ?_⟩
  simp only [hf, bind, Except.bind] at h
  split at h
  · cases h; exact PushedBy.refl _
  · exact drainBlocked_pushed h
  · split at h
    · split at h
      · split at h
        · cases h
        · rename_i v hw
          obtain ⟨n, p⟩ := v
          simp only [pure, Except.pure, Except.ok.injEq, Prod.mk.injEq] at h
          obtain ⟨rfl, rfl⟩ := h
          obtain ⟨m, -, -, -, rfl⟩ := DynJBSCREWDispatchPolicy.writeReqFinished_ok hw
          exact fun c => by simp
      · cases h
    · cases h; exact PushedBy.refl _

/-- The index-aware handler of a message pushes what it dispatches. -/
theorem indexAwareDispatch_pushed {lb lb' : LoadBalancer} {m : Msg} {puts : Puts}
    (h : indexAwareDispatch cfg lb m = .ok (lb', puts)) : PushedBy puts lb lb' := by
  cases m with
  | endOfMeasurements =>
    simp only [indexAwareDispatch, Except.ok.injEq, Prod.mk.injEq] at h
    obtain ⟨rfl, rfl⟩ := h
    exact fun c => by simp
  | req r =>
    simp only [indexAwareDispatch] at h
    split at h
    · simp only [Except.ok.injEq, Prod.mk.injEq] at h
      obtain ⟨rfl, rfl⟩ := h
      exact fun c => by simp [serializeReq]
    · exact (selectAndDispatch_pushed h).1

/-! ## Where requests are put -/

/-- Every request among `puts` goes to a queue the policy selected for it. -/
def SelectedPuts (cfg : BalancerConfig) (puts : Puts) : Prop :=
  ∀ q r, (q, r) ∈ putPairs puts → ∃ p p', cfg.disp.select p r = (some q, p')

theorem selectedPuts_nil : SelectedPuts cfg [] := fun _ _ h => by simp at h

theorem SelectedPuts.append {p q : Puts} (h₁ : SelectedPuts cfg p) (h₂ : SelectedPuts cfg q) :
    SelectedPuts cfg (p ++ q) := fun q' r h => by
  rw [putPairs_append, List.mem_append] at h
  exact h.elim (h₁ q' r) (h₂ q' r)

theorem selectAndDispatch_selected {lb lb' : LoadBalancer} {m : Msg} {puts : Puts}
    (h : selectAndDispatch cfg lb m = .ok (lb', puts)) : SelectedPuts cfg puts := by
  cases m with
  | endOfMeasurements =>
    simp only [selectAndDispatch, Except.ok.injEq, Prod.mk.injEq] at h
    obtain ⟨-, rfl⟩ := h
    exact fun _ _ h => by simp at h
  | req r =>
    obtain ⟨q, hsel, rfl, -⟩ := selectAndDispatch_req_ok h
    intro q' r' h
    simp only [putPairs_req, List.mem_singleton, Prod.mk.injEq] at h
    obtain ⟨rfl, rfl⟩ := h
    exact ⟨_, _, hsel⟩

theorem drainBlocked_selected {bucket fuel : Nat} {lb lb' : LoadBalancer} {puts : Puts}
    (h : drainBlocked cfg bucket fuel lb = .ok (lb', puts)) : SelectedPuts cfg puts := by
  induction fuel generalizing lb lb' puts with
  | zero => cases h; exact selectedPuts_nil
  | succ fuel ih =>
    rcases drainBlocked_succ_ok h with ⟨-, -, rfl⟩ | ⟨req, -, ⟨_, _, _, hs, hd, rfl⟩ | ⟨-, rfl⟩⟩
    · exact selectedPuts_nil
    · exact (selectAndDispatch_selected hs).append (ih hd)
    · exact selectedPuts_nil

theorem updatePulls_selected {lb lb' : LoadBalancer} {pr : PullFeedbackRequest} {puts : Puts}
    (h : updatePulls cfg lb pr = .ok (lb', puts)) : SelectedPuts cfg puts := by
  unfold updatePulls at h
  rcases hf : lb.funcExecuted pr.procId with _ | lb₁
  · simp [hf, bind, Except.bind] at h
  simp only [hf, bind, Except.bind] at h
  split at h
  · cases h; exact selectedPuts_nil
  · exact drainBlocked_selected h
  · split at h
    · split at h
      · split at h
        · cases h
        · simp only [pure, Except.pure, Except.ok.injEq, Prod.mk.injEq] at h
          obtain ⟨-, rfl⟩ := h
          exact selectedPuts_nil
      · cases h
    · cases h; exact selectedPuts_nil

theorem indexAwareDispatch_selected {lb lb' : LoadBalancer} {m : Msg} {puts : Puts}
    (h : indexAwareDispatch cfg lb m = .ok (lb', puts)) : SelectedPuts cfg puts := by
  cases m with
  | endOfMeasurements => exact selectAndDispatch_selected (m := .endOfMeasurements) h
  | req r =>
    simp only [indexAwareDispatch] at h
    split at h
    · simp only [Except.ok.injEq, Prod.mk.injEq] at h
      obtain ⟨-, rfl⟩ := h
      exact selectedPuts_nil
    · exact selectAndDispatch_selected h

/-! ## Faults -/

theorem selectAndDispatch_error {lb : LoadBalancer} {m : Msg} {f : Fault}
    (h : selectAndDispatch cfg lb m = .error f) :
    f = .selectReturnedFull ∧ ∃ r, m = .req r ∧ (cfg.disp.select lb.dispatchPolicy r).1 = none := by
  cases m with
  | endOfMeasurements => cases h
  | req r =>
    unfold selectAndDispatch at h
    rcases hs : cfg.disp.select lb.dispatchPolicy r with ⟨_ | q, p⟩
    · simp only [hs, Except.error.injEq] at h
      exact ⟨h.symm, r, rfl, by rw [hs]⟩
    · simp [hs] at h

theorem drainBlocked_error {bucket fuel : Nat} {lb : LoadBalancer} {f : Fault}
    (h : drainBlocked cfg bucket fuel lb = .error f) : f = .selectReturnedFull := by
  induction fuel generalizing lb with
  | zero => cases h
  | succ fuel ih =>
    unfold drainBlocked at h
    rcases hl : (lb.blockedQueues bucket).getLast? with _ | req
    · simp [hl] at h
    simp only [hl, bind, Except.bind] at h
    split at h
    · split at h
      · cases h; exact (selectAndDispatch_error ‹_›).1
      · split at h
        · cases h; exact ih ‹_›
        · cases h
    · cases h

theorem indexAwareDispatch_error {lb : LoadBalancer} {m : Msg} {f : Fault}
    (h : indexAwareDispatch cfg lb m = .error f) : f = .selectReturnedFull := by
  cases m with
  | endOfMeasurements => cases h
  | req r =>
    simp only [indexAwareDispatch] at h
    split at h
    · cases h
    · exact (selectAndDispatch_error h).1

theorem funcExecuted_error {lb : LoadBalancer} {c : Nat} {f : Fault}
    (h : lb.funcExecuted c = .error f) : f = .popFromEmptyDeque := by
  unfold funcExecuted PolicyState.funcExecuted at h
  rcases hq : popRight (lb.queuesIncludingProcessingReq c) with f' | ⟨x, qs⟩
  · simp only [hq, bind, Except.bind, Except.error.injEq] at h
    exact h ▸ popRight_error hq
  rcases ht : popRight (lb.tracking c) with f' | ⟨y, ts⟩
  · simp only [hq, ht, bind, Except.bind, Except.error.injEq] at h
    exact h ▸ popRight_error ht
  simp [hq, ht, bind, Except.bind, pure, Except.pure] at h

/-- **Where a failing `update_pulls` fails**: popping an empty deque in `func_executed`; the
assertion of `select_and_dispatch` only in the index-aware drain. -/
theorem updatePulls_error {lb : LoadBalancer} {pr : PullFeedbackRequest} {f : Fault}
    (h : updatePulls cfg lb pr = .error f) :
    (f = .popFromEmptyDeque → lb.funcExecuted pr.procId = .error f) ∧
      (f = .selectReturnedFull → cfg.kind = .indexAware) := by
  unfold updatePulls at h
  rcases hf : lb.funcExecuted pr.procId with f' | lb₁
  · simp only [hf, bind, Except.bind, Except.error.injEq] at h
    subst h
    simp [funcExecuted_error hf]
  simp only [hf, bind, Except.bind] at h
  split at h
  · cases h
  · rename_i hk
    simp [drainBlocked_error h, hk]
  · split at h
    · split at h
      · split at h
        · rename_i hw
          cases h
          rcases DynJBSCREWDispatchPolicy.writeReqFinished_error hw with rfl | ⟨_, rfl⟩ <;> simp
        · cases h
      · cases h; simp
    · cases h

/-- A refused `select` means the balancer's JBSQ check reports full queues. -/
theorem queuesFull_of_select_none {lb : LoadBalancer} {r : RPCRequest}
    (h : (cfg.disp.select lb.dispatchPolicy r).1 = none) : queuesFull cfg lb = true := by
  rcases hs : cfg.disp.select lb.dispatchPolicy r with ⟨_ | q, s'⟩
  · have hn := (cfg.disp.select_none hs).2
    simp [queuesFull, hn, cfg.disp.isJBSQ_of_noQueueAvailable hn]
  · simp [hs] at h

end LoadBalancer

namespace Balancer

variable {cfg : BalancerConfig}

/-- An `Except` computation mapped through a pure continuation succeeds only if the
computation does. -/
private theorem bind_pure_ok {α β : Type} {x : Except Fault α} {f : α → β} {y : β}
    (h : (do let a ← x; pure (f a)) = Except.ok y) : ∃ a, x = .ok a ∧ f a = y := by
  rcases x with _ | a
  · cases h
  · exact ⟨a, rfl, by simpa [bind, Except.bind, pure, Except.pure] using h⟩

private theorem bind_pure_error {α β : Type} {x : Except Fault α} {f : α → β} {e : Fault}
    (h : (do let a ← x; pure (f a)) = Except.error e) : x = .error e := by
  rcases x with _ | a
  · simpa [bind, Except.bind] using h
  · cases h

/-- **A step of `LoadBalancer.run`** (also `DynamicEWLoadBalancer.run`): handle the oldest
pull, while draining or while waiting for a queue; leave the drain; or handle the next
input. -/
theorem run_plain_ok (hk : cfg.kind ≠ .indexAware) {b b' : Balancer} {puts : Puts}
    (h : run cfg b = some (.ok (b', puts))) :
    b'.jbsqEvent = b.jbsqEvent ∧
    ((∃ pr, (b.pc = .drainPulls ∧ b'.pc = .drainPulls ∨
          b.pc = .noQueueWait ∧ b'.pc = afterPulls cfg b'.lb) ∧
        b.pullQ = pr :: b'.pullQ ∧ b'.inQ = b.inQ ∧
        LoadBalancer.updatePulls cfg b.lb pr = .ok (b'.lb, puts)) ∨
      (b.pc = .drainPulls ∧ b.pullQ = [] ∧ b' = { b with pc := afterPulls cfg b.lb } ∧
        puts = []) ∨
      (b.pc = .inputWait ∧ ∃ m, b.inQ = m :: b'.inQ ∧ b'.pullQ = b.pullQ ∧
        b'.pc = .drainPulls ∧ LoadBalancer.selectAndDispatch cfg b.lb m = .ok (b'.lb, puts))) := by
  obtain ⟨lb, pc, ev, inQ, pullQ⟩ := b
  unfold run at h
  split at h
  · exact absurd ‹_› hk
  all_goals
    split at h <;> simp only [Option.some.injEq, reduceCtorEq] at h
    all_goals first
      | (obtain ⟨⟨lb', puts'⟩, hu, he⟩ := bind_pure_ok h
         simp only [Prod.mk.injEq] at he
         obtain ⟨rfl, rfl⟩ := he
         simp_all)
      | (simp only [Except.ok.injEq, Prod.mk.injEq] at h
         obtain ⟨rfl, rfl⟩ := h
         simp_all)

/-- The body of `IndexAwareLoadBalancer.run` with message `m`: arm `jbsq_event` for a read
while no queue is available, or handle `m`. -/
theorem indexAwareStep_ok {b b' : Balancer} {m : Msg} {puts : Puts}
    (h : indexAwareStep cfg b m = .ok (b', puts)) :
    (LoadBalancer.queuesFull cfg b.lb && !m.getWrite) = true ∧
        b' = { b with pc := .jbsqWait m, jbsqEvent := true } ∧ puts = [] ∨
      (LoadBalancer.queuesFull cfg b.lb && !m.getWrite) = false ∧
        ∃ lb', LoadBalancer.indexAwareDispatch cfg b.lb m = .ok (lb', puts) ∧
          b' = { b with lb := lb', pc := .inputWait } := by
  unfold indexAwareStep at h
  split at h
  · simp only [Except.ok.injEq, Prod.mk.injEq] at h
    obtain ⟨rfl, rfl⟩ := h
    exact .inl ⟨‹_›, rfl, rfl⟩
  · rename_i hc
    obtain ⟨⟨lb', puts'⟩, hu, he⟩ := bind_pure_ok h
    simp only [Prod.mk.injEq] at he
    obtain ⟨rfl, rfl⟩ := he
    exact .inr ⟨by simpa using hc, lb', hu, rfl⟩

/-- **A step of `IndexAwareLoadBalancer.run`**: take the next input, or resume with the held
message once `jbsq_event` fired, then go on as `indexAwareStep`. -/
theorem run_indexAware_ok (hk : cfg.kind = .indexAware) {b b' : Balancer} {puts : Puts}
    (h : run cfg b = some (.ok (b', puts))) :
    ∃ m, (b.pc = .inputWait ∧ b.inQ = m :: b'.inQ ∨
        b.pc = .jbsqWait m ∧ b.jbsqEvent = false ∧ b'.inQ = b.inQ) ∧
      b'.pullQ = b.pullQ ∧ indexAwareStep cfg { b with inQ := b'.inQ } m = .ok (b', puts) := by
  obtain ⟨lb, pc, ev, inQ, pullQ⟩ := b
  cases pc with
  | inputWait =>
    cases inQ with
    | nil => simp [run, hk] at h
    | cons m rest =>
      simp only [run, hk, Option.some.injEq] at h
      have hq : b'.inQ = rest ∧ b'.pullQ = pullQ := by
        rcases indexAwareStep_ok h with ⟨-, rfl, -⟩ | ⟨-, _, -, rfl⟩ <;> simp
      exact ⟨m, .inl ⟨rfl, by rw [hq.1]⟩, hq.2, by rw [hq.1]; exact h⟩
  | jbsqWait m =>
    cases ev
    · simp only [run, hk, Bool.false_eq_true, ite_false, Option.some.injEq] at h
      have hq : b'.inQ = inQ ∧ b'.pullQ = pullQ := by
        rcases indexAwareStep_ok h with ⟨-, rfl, -⟩ | ⟨-, _, -, rfl⟩ <;> simp
      exact ⟨m, .inr ⟨rfl, rfl, hq.1⟩, hq.2, by rw [hq.1]; exact h⟩
    · simp [run, hk] at h
  | drainPulls | noQueueWait => simp [run, hk] at h

/-- **A step of `pull_queue_updater`**: handle the oldest pull and fire `jbsq_event`. -/
theorem pullQueueUpdater_ok {b b' : Balancer} {puts : Puts}
    (h : pullQueueUpdater cfg b = some (.ok (b', puts))) :
    cfg.kind = .indexAware ∧ ∃ pr, b.pullQ = pr :: b'.pullQ ∧ b'.inQ = b.inQ ∧ b'.pc = b.pc ∧
      b'.jbsqEvent = false ∧ LoadBalancer.updatePulls cfg b.lb pr = .ok (b'.lb, puts) := by
  obtain ⟨lb, pc, ev, inQ, pullQ⟩ := b
  unfold pullQueueUpdater at h
  cases hk : cfg.kind <;> cases pullQ <;> simp only [hk, Option.some.injEq, reduceCtorEq] at h
  obtain ⟨⟨lb', puts'⟩, hu, he⟩ := bind_pure_ok h
  simp only [Prod.mk.injEq] at he
  obtain ⟨rfl, rfl⟩ := he
  exact ⟨rfl, _, rfl, rfl, rfl, rfl, hu⟩

/-- **Every request a balancer process puts** goes to a queue the policy selected for it. -/
theorem proc_selected {b b' : Balancer} {puts : Puts}
    (h : run cfg b = some (.ok (b', puts)) ∨ pullQueueUpdater cfg b = some (.ok (b', puts))) :
    LoadBalancer.SelectedPuts cfg puts := by
  rcases h with h | h
  · by_cases hk : cfg.kind = .indexAware
    · obtain ⟨m, -, -, hs⟩ := run_indexAware_ok hk h
      rcases indexAwareStep_ok hs with ⟨-, -, rfl⟩ | ⟨-, lb', hd, -⟩
      · exact LoadBalancer.selectedPuts_nil
      · exact LoadBalancer.indexAwareDispatch_selected hd
    · obtain ⟨-, ⟨pr, -, -, -, hu⟩ | ⟨-, -, -, rfl⟩ | ⟨-, m, -, -, -, hs⟩⟩ := run_plain_ok hk h
      · exact LoadBalancer.updatePulls_selected hu
      · exact LoadBalancer.selectedPuts_nil
      · exact LoadBalancer.selectAndDispatch_selected hs
  · obtain ⟨-, pr, -, -, -, -, hu⟩ := pullQueueUpdater_ok h
    exact LoadBalancer.updatePulls_selected hu

/-! ## Faults -/

theorem indexAwareStep_error {b : Balancer} {m : Msg} {f : Fault}
    (h : indexAwareStep cfg b m = .error f) :
    LoadBalancer.indexAwareDispatch cfg b.lb m = .error f := by
  unfold indexAwareStep at h
  split at h
  · cases h
  · exact bind_pure_error h

/-- **Where a failing `run` step fails**: in `update_pulls` of the oldest pull, in
`select_and_dispatch` of the next input, or in the index-aware handler. -/
theorem run_error {b : Balancer} {f : Fault} (h : run cfg b = some (.error f)) :
    (∃ pr, b.pullQ.head? = some pr ∧ LoadBalancer.updatePulls cfg b.lb pr = .error f) ∨
      (cfg.kind ≠ .indexAware ∧ b.pc = .inputWait ∧ ∃ m, b.inQ.head? = some m ∧
        LoadBalancer.selectAndDispatch cfg b.lb m = .error f) ∨
      (cfg.kind = .indexAware ∧ ∃ m, LoadBalancer.indexAwareDispatch cfg b.lb m = .error f) := by
  unfold run at h
  split at h
  · rename_i hk
    split at h
    · have := indexAwareStep_error (Option.some.inj h)
      exact .inr (.inr ⟨hk, _, this⟩)
    · split at h
      · cases h
      · have := indexAwareStep_error (Option.some.inj h)
        exact .inr (.inr ⟨hk, _, this⟩)
    · cases h
  · rename_i hk
    split at h <;> simp only [Option.some.injEq, reduceCtorEq] at h
    · rename_i hpull
      exact .inl ⟨_, by simp [hpull], bind_pure_error h⟩
    · rename_i hpull
      exact .inl ⟨_, by simp [hpull], bind_pure_error h⟩
    · rename_i hpc hin
      exact .inr (.inl ⟨hk, hpc, _, by simp [hin], bind_pure_error h⟩)

theorem pullQueueUpdater_error {b : Balancer} {f : Fault}
    (h : pullQueueUpdater cfg b = some (.error f)) :
    ∃ pr, b.pullQ.head? = some pr ∧ LoadBalancer.updatePulls cfg b.lb pr = .error f := by
  unfold pullQueueUpdater at h
  split at h
  · rename_i hpull
    exact ⟨_, by simp [hpull], bind_pure_error (Option.some.inj h)⟩
  · cases h

end Balancer

end QueueFlex
