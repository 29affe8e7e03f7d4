import QueueFlex.Balancer.Tracking
import QueueFlex.Pipeline.Custody

/-! # The pipeline refines the balancer world

`BalancerWorld` runs a balancer against every arrival sequence and every order in which the
workers' acks come back. The pipeline is one such environment: its generator and event
channel decide the arrivals, and its workers, channels and pull channel decide when each ack
reaches `pull_q`. `Sim.Refines s w` relates a pipeline state to a world with the same
balancer, the same balancer fault, and, as the in-flight requests of each core, the
requests in the core's custody (`Sim.unacked`): in the same order when the workers do not
compact writes, up to order when they do.

Each pipeline step is matched by at most one step of the world (`refines_step`): a message
reaching `in_q` by an arrival, an ack reaching `pull_q` by the completion of that request,
a balancer process step by the same step; everything else, the generator, a channel handing
a message to a store, an index updater, a worker, the clock, by no step. Without compaction
every completion is of a core's oldest request, so the world runs with in-order workers.
Every reachable pipeline state is therefore related to a reachable world
(`reachable_refines`), and every invariant of `BalancerWorld` holds of the pipeline's
balancer. -/

namespace QueueFlex

open LoadBalancer

namespace Sim

variable (cfg : SimConfig)

/-- The world `w` is the balancer of `s` against its workers. -/
structure Refines (s : Sim) (w : BalancerWorld) : Prop where
  bal : w.bal = s.bal
  fault : w.fault = s.fault.bind SimFault.toFault
  flight : s.fault = none → ∀ c, (w.inFlight c).Perm (s.unacked c)
  fifo : cfg.worker.useCompaction = false → s.fault = none → ∀ c,
    (s.cores c).batchMap.entries = [] ∧ w.inFlight c = s.unacked c

/-! ## Steps the balancer does not see -/

/-- `s'` differs from `s` in nothing the balancer world sees. -/
structure Unseen (s s' : Sim) : Prop where
  bal : s'.bal = s.bal
  fault : s'.fault = s.fault
  unacked : ∀ c, s'.unacked c = s.unacked c
  batchMap : ∀ c, (s'.cores c).batchMap = (s.cores c).batchMap

/-- `s'` has the cores, the index and the updaters of `s`. -/
structure KeepsIndex (s s' : Sim) : Prop where
  cores : s'.cores = s.cores
  versions : s'.versions = s.versions
  updaters : s'.updaters = s.updaters
  nextUpdater : s'.nextUpdater = s.nextUpdater

theorem Unseen.of_cores {s s' : Sim} (hb : s'.bal = s.bal) (hf : s'.fault = s.fault)
    (hp : s'.pullT = s.pullT) (hS : s'.dispS = s.dispS) (hT : s'.dispT = s.dispT)
    (hc : s'.cores = s.cores) : Unseen s s' :=
  ⟨hb, hf, fun c => by simp only [Sim.unacked, acksInTransit, inTransit, hp, hS, hT, hc],
    fun c => by rw [hc]⟩

variable {cfg}

theorem Refines.unseen {s s' : Sim} {w : BalancerWorld} (hr : Refines cfg s w)
    (hu : Unseen s s') : Refines cfg s' w :=
  ⟨hu.bal ▸ hr.bal, hu.fault ▸ hr.fault, fun hf c => hu.unacked c ▸ hr.flight (hu.fault ▸ hf) c,
    fun hc hf c => hu.batchMap c ▸ hu.unacked c ▸ hr.fifo hc (hu.fault ▸ hf) c⟩

theorem wake_unacked (b : Nat) (k : Core) :
    (wake cfg b k).unacked = k.unacked ∧ (wake cfg b k).batchMap = k.batchMap := by
  unfold wake
  split
  · rename_i r _ hpc
    split
    · exact ⟨by rw [Core.unacked, Core.unacked, hpc]; rfl, rfl⟩
    · exact ⟨rfl, rfl⟩
  · exact ⟨rfl, rfl⟩

theorem unseen_fireUpdater (s : Sim) (i : Nat) (u : Updater) : Unseen s (fireUpdater cfg s i u) :=
  ⟨rfl, rfl, fun c => by simp only [Sim.unacked, fireUpdater, (wake_unacked _ _).1]; rfl,
    fun _ => (wake_unacked _ _).2⟩

/-- A channel handing its oldest message to the store keeps the core's custody. -/
theorem unseen_deliverDispatch {s : Sim} {c t : Nat} {m : Msg} {rest : List (Nat × Msg)}
    (hd : s.dispT c = (t, m) :: rest) :
    Unseen s { s with
      dispT := Function.update s.dispT c rest
      dispS := Function.update s.dispS c (s.dispS c ++ [m]) } := by
  refine ⟨rfl, rfl, fun c' => ?_, fun _ => rfl⟩
  by_cases hc : c' = c
  · subst hc
    simp [Sim.unacked, acksInTransit, inTransit, hd]
  · simp [Sim.unacked, acksInTransit, inTransit, Function.update_noteq hc]

/-! ## What a pipeline step can do -/

/-- A process step happens only before a fault. -/
theorem step_proc {a : SimAction} {s s' : Sim} (h : step cfg a s = some s') (ha : ∀ t, a ≠ .tick t) :
    s.fault = none ∧ procStep cfg a s = some s' := by
  cases a with
  | tick t => exact absurd rfl (ha t)
  | _ =>
    simp only [step, instStep] at h
    split at h
    · cases h
    · rename_i hf
      exact ⟨by simpa using hf, h⟩

/-- **What a step can do**: nothing the balancer world or the index sees, an index update, a
worker step, a message reaching `in_q`, an ack reaching `pull_q`, or a step of a balancer
process. -/
theorem step_cases {s s' : Sim} {a : SimAction} (h : step cfg a s = some s') :
    (Unseen s s' ∧ KeepsIndex s s') ∨
    (∃ i u, s.updaters[i]? = some u ∧ u.fireAt ≤ s.now ∧ s' = fireUpdater cfg s i u) ∨
    (s.fault = none ∧ ∃ c, c < cfg.bal.disp.numQueues ∧ coreStep cfg s c = some s') ∨
    (s.fault = none ∧ ∃ t m rest, s.evT = (t, m) :: rest ∧
      s' = { s with evT := rest, bal := { s.bal with inQ := s.bal.inQ ++ [m] } }) ∨
    (s.fault = none ∧ ∃ t pr rest, s.pullT = (t, pr) :: rest ∧
      s' = { s with pullT := rest, bal := { s.bal with pullQ := s.bal.pullQ ++ [pr] } }) ∨
    (s.fault = none ∧ ∃ o, (Balancer.run cfg.bal s.bal = some o ∨
      Balancer.pullQueueUpdater cfg.bal s.bal = some o) ∧ s' = applyBalancer cfg s o) := by
  cases a with
  | tick t =>
    simp only [step] at h
    split at h <;> cases h
    exact .inl ⟨Unseen.of_cores rfl rfl rfl rfl rfl rfl, rfl, rfl, rfl, rfl⟩
  | generate =>
    obtain ⟨-, h⟩ := step_proc h nofun
    simp only [procStep] at h
    split at h <;> cases h
    exact .inl ⟨Unseen.of_cores rfl rfl rfl rfl rfl rfl, rfl, rfl, rfl, rfl⟩
  | fire i =>
    obtain ⟨-, h⟩ := step_proc h nofun
    simp only [procStep] at h
    split at h
    · rename_i u hu
      split at h <;> cases h
      exact .inr (.inl ⟨i, u, hu, ‹_›, rfl⟩)
    · cases h
  | deliverDispatch c =>
    obtain ⟨-, h⟩ := step_proc h nofun
    simp only [procStep] at h
    split at h
    · split at h <;> cases h
      exact .inl ⟨unseen_deliverDispatch ‹_›, rfl, rfl, rfl, rfl⟩
    · cases h
  | deliverEvent =>
    obtain ⟨hf, h⟩ := step_proc h nofun
    simp only [procStep] at h
    split at h
    · rename_i t m rest hd
      split at h <;> cases h
      exact .inr (.inr (.inr (.inl ⟨hf, t, m, rest, hd, rfl⟩)))
    · cases h
  | deliverPull =>
    obtain ⟨hf, h⟩ := step_proc h nofun
    simp only [procStep] at h
    split at h
    · rename_i t pr rest hd
      split at h <;> cases h
      exact .inr (.inr (.inr (.inr (.inl ⟨hf, t, pr, rest, hd, rfl⟩))))
    · cases h
  | balancerRun =>
    obtain ⟨hf, h⟩ := step_proc h nofun
    obtain ⟨o, ho, rfl⟩ := Option.map_eq_some'.mp h
    exact .inr (.inr (.inr (.inr (.inr ⟨hf, o, .inl ho, rfl⟩))))
  | pullQueueUpdater =>
    obtain ⟨hf, h⟩ := step_proc h nofun
    obtain ⟨o, ho, rfl⟩ := Option.map_eq_some'.mp h
    exact .inr (.inr (.inr (.inr (.inr ⟨hf, o, .inr ho, rfl⟩))))
  | core c =>
    obtain ⟨hf, h⟩ := step_proc h nofun
    simp only [procStep] at h
    split at h
    · exact .inr (.inr (.inl ⟨hf, c, ‹_›, h⟩))
    · cases h

/-! ## Balancer steps -/

theorem reqsTo_cons (q : Nat) (m : Msg) (ps : Puts) (c : Nat) :
    reqsTo ((q, m) :: ps) c = (if q = c then m.reqs else []) ++ reqsTo ps c := by
  rw [← List.singleton_append, reqsTo_append]
  cases m
  · rw [reqsTo_req]; split <;> rfl
  · simp [Msg.reqs]

/-- The balancer's puts change only the channels and the stamps, and each request put for
core `c` joins the end of its channel. -/
theorem dispatchPuts_eq (s : Sim) (puts : Puts) :
    ∃ dT st, dispatchPuts cfg s puts = { s with dispT := dT, stamps := st } ∧
      ∀ c, reqsOf ((dT c).map Prod.snd) = s.inTransit c ++ reqsTo puts c := by
  induction puts generalizing s with
  | nil => exact ⟨s.dispT, s.stamps, rfl, fun c => by simp [inTransit]⟩
  | cons p ps ih =>
    obtain ⟨q, m⟩ := p
    obtain ⟨dT, st, he, hd⟩ := ih (dispatchPuts cfg s [(q, m)])
    refine ⟨dT, st, by cases m <;> exact he, fun c => ?_⟩
    rw [hd c, reqsTo_cons]
    by_cases hc : q = c
    · subst hc
      cases m <;> simp [dispatchPuts, inTransit, stamp, Msg.reqs]
    · cases m <;> simp [dispatchPuts, inTransit, stamp, hc, Function.update_noteq (Ne.symm hc)]

theorem unacked_dispatchPuts (s : Sim) (puts : Puts) (c : Nat) :
    (dispatchPuts cfg s puts).unacked c = s.unacked c ++ reqsTo puts c := by
  obtain ⟨dT, st, he, hd⟩ := dispatchPuts_eq s puts
  rw [he]
  simp only [Sim.unacked, acksInTransit, inTransit] at hd ⊢
  rw [hd]
  simp only [List.append_assoc]

theorem cores_dispatchPuts (s : Sim) (puts : Puts) : (dispatchPuts cfg s puts).cores = s.cores := by
  obtain ⟨dT, st, he, -⟩ := dispatchPuts_eq s puts
  rw [he]

theorem fault_dispatchPuts (s : Sim) (puts : Puts) : (dispatchPuts cfg s puts).fault = s.fault := by
  obtain ⟨dT, st, he, -⟩ := dispatchPuts_eq s puts
  rw [he]

theorem bal_dispatchPuts (s : Sim) (puts : Puts) : (dispatchPuts cfg s puts).bal = s.bal := by
  obtain ⟨dT, st, he, -⟩ := dispatchPuts_eq s puts
  rw [he]

/-- A balancer step has the same outcome in the pipeline and in the world. -/
theorem Refines.applyBalancer {s : Sim} {w : BalancerWorld} (hr : Refines cfg s w)
    (taken : List RPCRequest) (consumed : List PullFeedbackRequest)
    (o : Except Fault (Balancer × Puts)) :
    Refines cfg (applyBalancer cfg s o) (BalancerWorld.apply w taken consumed o) := by
  rcases o with f | ⟨b, puts⟩
  · exact ⟨hr.bal, rfl, nofun, fun _ => nofun⟩
  · have hu : ∀ c, (Sim.applyBalancer cfg s (.ok (b, puts))).unacked c =
        s.unacked c ++ reqsTo puts c := fun c => unacked_dispatchPuts _ puts c
    refine ⟨(@bal_dispatchPuts cfg { s with bal := b } puts).symm, ?_, fun hf c => ?_, fun hc hf c => ?_⟩
    · rw [Sim.applyBalancer, fault_dispatchPuts]
      exact hr.fault
    · rw [Sim.applyBalancer, fault_dispatchPuts] at hf
      rw [hu]
      exact (hr.flight hf c).append_right _
    · rw [Sim.applyBalancer, fault_dispatchPuts] at hf
      obtain ⟨he, hw⟩ := hr.fifo hc hf c
      rw [hu, Sim.applyBalancer, cores_dispatchPuts]
      exact ⟨he, by simp only [BalancerWorld.apply, deliver, hw]⟩

/-- A message reaching `in_q` is an arrival. -/
theorem Refines.arrive {s : Sim} {w : BalancerWorld} (hr : Refines cfg s w)
    (rest : List (Nat × Msg)) (m : Msg) :
    Refines cfg { s with evT := rest, bal := { s.bal with inQ := s.bal.inQ ++ [m] } }
      { w with bal := { w.bal with inQ := w.bal.inQ ++ [m] } } :=
  ⟨by rw [hr.bal], hr.fault, hr.flight, hr.fifo⟩

/-- An ack reaching `pull_q` is the completion of the acknowledged request, which is in the
core's custody; without compaction it is the core's oldest. -/
theorem Refines.deliverPull {s : Sim} {w : BalancerWorld} (hr : Refines cfg s w)
    (hf : s.fault = none) {t : Nat} {pr : PullFeedbackRequest} {rest : List (Nat × PullFeedbackRequest)}
    (hp : s.pullT = (t, pr) :: rest) :
    ∃ i, (cfg.worker.useCompaction = false → i = 0) ∧
      ∃ w', BalancerWorld.step cfg.bal (.complete pr.procId i) w = some w' ∧
        Refines cfg { s with pullT := rest, bal := { s.bal with pullQ := s.bal.pullQ ++ [pr] } } w' := by
  set s' : Sim := { s with pullT := rest, bal := { s.bal with pullQ := s.bal.pullQ ++ [pr] } }
  have hu : ∀ c, s.unacked c = (if pr.procId = c then [pr.reqCompleted] else []) ++ s'.unacked c :=
    fun c => by
      by_cases hc : pr.procId = c <;> simp [Sim.unacked, acksInTransit, inTransit, hp, hc, s']
  have hperm := hr.flight hf pr.procId
  rw [hu, if_pos rfl] at hperm
  have hmem : pr.reqCompleted ∈ w.inFlight pr.procId := hperm.mem_iff.mpr (List.mem_cons_self _ _)
  refine ⟨(w.inFlight pr.procId).indexOf pr.reqCompleted, fun hc => ?_, _,
    by simp only [BalancerWorld.step, List.getElem?_indexOf hmem]; rfl, ?_, ?_, fun _ c => ?_,
    fun hc _ c => ?_⟩
  · rw [((hr.fifo hc hf pr.procId).2.trans (hu _)), if_pos rfl]
    exact List.indexOf_cons_self _ _
  · rw [hr.bal]
  · exact hr.fault
  · by_cases hc : c = pr.procId
    · subst hc
      simp only [Function.update_same, List.eraseIdx_indexOf_eq_erase]
      simpa using hperm.erase pr.reqCompleted
    · simp only [Function.update_noteq hc]
      simpa [Ne.symm hc] using (hr.flight hf c).trans (List.Perm.of_eq (hu c))
  · obtain ⟨he, hw⟩ := hr.fifo hc hf c
    refine ⟨he, ?_⟩
    by_cases hc : c = pr.procId
    · subst hc
      have hw' : w.inFlight pr.procId = pr.reqCompleted :: s'.unacked pr.procId := by
        rw [hw, hu, if_pos rfl]; rfl
      simp only [Function.update_same, hw', List.indexOf_cons_self, List.eraseIdx_cons_zero]
    · simp only [Function.update_noteq hc, hw, hu c, if_neg (Ne.symm hc), List.nil_append]

/-! ## Worker steps -/

/-- A worker step is no step of the world: the worker keeps the requests in its custody. -/
theorem Refines.coreStep {s s' : Sim} {w : BalancerWorld} {c : Nat} (hr : Refines cfg s w)
    (hf : s.fault = none) (h : coreStep cfg s c = some s') : Refines cfg s' w := by
  have hl := coreStep_local h
  refine ⟨hl.bal ▸ hr.bal, ?_, fun hf' c' => ?_, fun hc hf' c' => ?_⟩
  · rcases hl.fault with h' | ⟨f, h'⟩
    · rw [h', hr.fault]
    · rw [h', hr.fault, hf]; rfl
  · by_cases hc : c' = c
    · subst hc
      exact (hr.flight hf c').trans (coreStep_unacked h hf hf').1.symm
    · rw [hl.unacked hc]
      exact hr.flight hf c'
  · obtain ⟨he, hw⟩ := hr.fifo hc hf c'
    by_cases hc' : c' = c
    · subst hc'
      obtain ⟨hu, he'⟩ := (coreStep_unacked h hf hf').2 hc he
      exact ⟨he', hw.trans hu.symm⟩
    · rw [hl.unacked hc', hl.cores c' hc']
      exact ⟨he, hw⟩

/-! ## Runs -/

theorem refines_init : Refines cfg (init cfg) (BalancerWorld.init cfg.bal) :=
  ⟨rfl, rfl, fun _ _ => .refl _, fun _ _ _ => ⟨rfl, rfl⟩⟩

/-- **Each pipeline step is matched by at most one step of the world**, a step of in-order
workers when the workers do not compact writes. -/
theorem refines_step {s s' : Sim} {a : SimAction} {w : BalancerWorld} (hr : Refines cfg s w)
    (h : step cfg a s = some s') :
    ∃ w', Relation.ReflGen (BalancerWorld.Step cfg.bal !cfg.worker.useCompaction) w w' ∧
      Refines cfg s' w' := by
  rcases step_cases h with ⟨hu, -⟩ | ⟨i, u, -, -, rfl⟩ | ⟨hf, c, -, hc⟩ | ⟨hf, t, m, rest, -, rfl⟩ |
    ⟨hf, t, pr, rest, hp, rfl⟩ | ⟨hf, o, ho, rfl⟩
  · exact ⟨w, .refl, hr.unseen hu⟩
  · exact ⟨w, .refl, hr.unseen (unseen_fireUpdater s i u)⟩
  · exact ⟨w, .refl, hr.coreStep hf hc⟩
  · exact ⟨_, .single ⟨.arrive m, fun _ => trivial, rfl⟩, hr.arrive rest m⟩
  · obtain ⟨i, hi, w', hw', hr'⟩ := hr.deliverPull hf hp
    exact ⟨w', .single ⟨.complete pr.procId i, fun h => hi (by simpa using h), hw'⟩, hr'⟩
  · have hwf : w.fault = none := by rw [hr.fault, hf]; rfl
    rcases ho with ho | ho
    · exact ⟨_, .single ⟨.run, fun _ => trivial, by simp [BalancerWorld.step, hwf, hr.bal, ho]⟩,
        hr.applyBalancer (BalancerWorld.takenBy s.bal) (BalancerWorld.consumedByRun cfg.bal s.bal) o⟩
    · exact ⟨_, .single ⟨.pullQueueUpdater, fun _ => trivial,
        by simp [BalancerWorld.step, hwf, hr.bal, ho]⟩, hr.applyBalancer [] (s.bal.pullQ.take 1) o⟩

/-- **Every reachable pipeline state refines a reachable world**, one of in-order workers
when the workers do not compact writes. -/
theorem reachable_refines {s : Sim} (hs : Reachable cfg s) :
    ∃ w, BalancerWorld.Reachable cfg.bal (!cfg.worker.useCompaction) w ∧ Refines cfg s w := by
  refine Reachable.induction cfg (P := fun s => ∃ w, BalancerWorld.Reachable cfg.bal
    (!cfg.worker.useCompaction) w ∧ Refines cfg s w) ⟨_, .refl, refines_init⟩
    (fun _ ⟨w, hw, hr⟩ h => ?_) hs
  obtain ⟨w', hg, hr'⟩ := refines_step hr h
  exact ⟨w', hw.trans hg.to_reflTransGen, hr'⟩

end Sim

end QueueFlex
