import QueueFlex.Pipeline.Effect

/-! # The EREW path

With `disp_policy == "EREW"` a worker asserts that its request's bucket has an even version
and, for a write, increments the version itself before and after the service time; no
`AsyncIndexUpdater` and no waiting is involved (`MICAIndexAccessor.run`). `ErewPc` lists where
such a worker can be suspended, in every run whatever the balancer does (`erewPcs_reachable`).

`EREWDispatchPolicy` sends every request to the queue of its bucket, `(hash % B) % C`; with
`B` the index's bucket count only the bucket's owner serves it, one request at a time. The
version of each bucket then counts two for every write of the bucket past both increments and
one for the write in service (`ErewInv`), so the assertion at the start of a request never
fails and every write raises its bucket's version by exactly two (`erew_version_ledger`). -/

namespace QueueFlex

/-- The EREW system of the drivers: `disp_policy == "EREW"` for the workers, and
`EREWDispatchPolicy` over the index's buckets. -/
structure SimConfig.IsErew (cfg : SimConfig) : Prop where
  erew : cfg.worker.erew = true
  policy : cfg.bal.disp.policy = .erew cfg.bal.numBuckets

namespace Sim

variable (cfg : SimConfig)

/-- Where a worker on the EREW path can be suspended: a read in its service time, a write
between its two increments, `req_completion_logic` of the `run` loop. -/
def ErewPc : CorePc → Prop
  | .getWait | .stopped | .completion _ _ .loop => True
  | .serve r _ .complete => r.isWrite = false
  | .serve r _ (.erewUnlock b) => r.isWrite = true ∧ b = index cfg r
  | _ => False

/-- The EREW write at `pc` holds bucket `b`. -/
def erewHeld (pc : CorePc) (b : Nat) : Bool :=
  match pc with
  | .serve _ _ (.erewUnlock b') => b' == b
  | _ => false

/-- Request `r` writes bucket `b`. -/
def writesTo (b : Nat) (r : RPCRequest) : Bool := r.isWrite && index cfg r == b

/-- The worker at `pc` completes a write of bucket `b`. -/
def completing (b : Nat) (pc : CorePc) : Bool :=
  match pc with
  | .completion r _ _ => writesTo cfg b r
  | _ => false

/-- The writes of bucket `b` past both increments: recorded by `req_completion_logic`, or in
its overhead timeout. -/
def writesDone (s : Sim) (b : Nat) : Nat :=
  s.recorded.countP (writesTo cfg b) +
    (List.range cfg.bal.disp.numQueues).countP fun c => completing cfg b (s.cores c).pc

/-- Every request in a worker's custody is of a bucket the worker owns. -/
def RoutedAll (s : Sim) : Prop := ∀ c r, r ∈ s.unacked c → owner cfg (index cfg r) = c

/-- **The EREW ledger.** The workers are on the EREW path, no updater runs, and the version of
each bucket counts two for each write done and one for the write its owner serves. -/
structure ErewInv (s : Sim) : Prop where
  pcs : ∀ c, ErewPc cfg (s.cores c).pc
  updaters : s.updaters = []
  ledger : ∀ b, s.versions b =
    2 * writesDone cfg s b + if erewHeld (s.cores (owner cfg b)).pc b then 1 else 0
  held : ∀ b c, erewHeld (s.cores c).pc b = true → c = owner cfg b
  fault : ∀ c, s.fault ≠ some (.worker c .erewOddVersion)

variable {cfg}

/-! ## The workers' suspension points -/

theorem completionEnd_recorded (s : Sim) (c : Nat) (r : RPCRequest) :
    (completionEnd cfg s c r).recorded = s.recorded ++ [r] := by
  unfold completionEnd
  dsimp only
  split <;> rfl

/-- A worker on the EREW path steps to a suspension point of the EREW path. -/
theorem erewPc_coreStep (he : cfg.worker.erew = true) {s s' : Sim} {c : Nat}
    (hp : ErewPc cfg (s.cores c).pc) (h : coreStep cfg s c = some s') :
    ErewPc cfg (s'.cores c).pc ∧ s'.updaters = s.updaters := by
  unfold coreStep at h
  split at h
  · split at h
    · cases h
      rename_i m _ _
      cases m with
      | endOfMeasurements =>
        refine ⟨?_, rfl⟩
        simp only [takeRequest, loopTop_cores_self]
        split <;> trivial
      | req r =>
        simp only [takeRequest, startRequest, he, ↓reduceIte]
        split
        · exact ⟨by simpa [raise, stamp] using hp, rfl⟩
        · split <;> exact ⟨by simp [ErewPc, *], rfl⟩
    · cases h
  all_goals rename_i hpc; rw [hpc] at hp
  · exact hp.elim
  · split at h <;> cases h
    rename_i r due next _
    cases next <;> simp only [ErewPc] at hp
    all_goals exact ⟨by simp [serveEnd, ErewPc], rfl⟩
  · split at h <;> cases h
    rename_i r due next _
    cases next <;> simp only [ErewPc] at hp
    refine ⟨?_, (@completionEnd_index cfg s c r).updaters⟩
    simp only [afterCompletion, loopTop_cores_self]
    split <;> trivial
  · cases h

/-- **Where an EREW worker can be.** With `disp_policy == "EREW"`, every worker of every
reachable state is suspended at a point of the EREW path, and no updater runs. -/
theorem erewPcs_reachable (he : cfg.worker.erew = true) {s : Sim} (hs : Reachable cfg s) :
    (∀ c, ErewPc cfg (s.cores c).pc) ∧ s.updaters = [] := by
  refine @Reachable.induction cfg (fun s => (∀ c, ErewPc cfg (s.cores c).pc) ∧ s.updaters = [])
    ⟨fun _ => trivial, rfl⟩ (fun _ hi h => ?_) s hs
  obtain ⟨hp, hu⟩ := hi
  rcases step_workers h with hw | ⟨i, u, hu', -, rfl⟩ | ⟨-, c, -, hc⟩
  · exact ⟨fun c => hw.cores ▸ hp c, hw.updaters.trans hu⟩
  · simp [hu] at hu'
  · obtain ⟨hpc, hu'⟩ := erewPc_coreStep he (hp c) hc
    refine ⟨fun c' => ?_, hu'.trans hu⟩
    by_cases h' : c' = c
    · exact h' ▸ hpc
    · rw [(coreStep_local hc).cores c' h']
      exact hp c'

/-! ## The ledger -/

theorem writesDone_update {s s' : Sim} {c : Nat} (hc : c < cfg.bal.disp.numQueues)
    (hcores : ∀ c', c' ≠ c → (s'.cores c').pc = (s.cores c').pc) {l : List RPCRequest}
    (hrec : s'.recorded = s.recorded ++ l) (b : Nat) :
    writesDone cfg s' b + (if completing cfg b (s.cores c).pc then 1 else 0) =
      writesDone cfg s b + l.countP (writesTo cfg b) +
        (if completing cfg b (s'.cores c).pc then 1 else 0) := by
  have := countP_range_update hc (p := fun c => completing cfg b (s.cores c).pc)
    (q := fun c => completing cfg b (s'.cores c).pc) fun x hx => by simp only [hcores x hx]
  simp only [writesDone, hrec, List.countP_append] at this ⊢
  omega

/-- The ledger after worker `c` steps from `(s.cores c).pc` to `(s'.cores c).pc`, recording
`l` and raising the versions as `hv` says. -/
theorem ErewInv.of_core {s s' : Sim} (hi : ErewInv cfg s) {c : Nat}
    (hc : c < cfg.bal.disp.numQueues)
    (hcores : ∀ c', c' ≠ c → (s'.cores c').pc = (s.cores c').pc)
    (hpc : ErewPc cfg (s'.cores c).pc) (hu : s'.updaters = s.updaters) (hf : s'.fault = s.fault)
    {l : List RPCRequest} (hrec : s'.recorded = s.recorded ++ l)
    (hheld : ∀ b, erewHeld (s'.cores c).pc b = true → c = owner cfg b)
    (hv : ∀ b, s'.versions b + 2 * (if completing cfg b (s.cores c).pc then 1 else 0) +
        (if erewHeld (s.cores c).pc b then 1 else 0) =
      s.versions b + 2 * l.countP (writesTo cfg b) +
        2 * (if completing cfg b (s'.cores c).pc then 1 else 0) +
        (if erewHeld (s'.cores c).pc b then 1 else 0)) :
    ErewInv cfg s' := by
  refine ⟨fun c' => ?_, hu.trans hi.updaters, fun b => ?_, fun b c' h => ?_, hf ▸ hi.fault⟩
  · by_cases h : c' = c
    · exact h ▸ hpc
    · rw [hcores c' h]; exact hi.pcs c'
  · have hw := writesDone_update hc hcores hrec b
    have hl := hi.ledger b
    have hvb := hv b
    by_cases ho : owner cfg b = c
    · subst ho
      omega
    · have h₁ : erewHeld (s.cores c).pc b = false :=
        Bool.eq_false_iff.mpr fun h => ho (hi.held b c h).symm
      have h₂ : erewHeld (s'.cores c).pc b = false :=
        Bool.eq_false_iff.mpr fun h => ho (hheld b h).symm
      rw [hcores _ ho]
      simp only [h₁, h₂] at hvb
      omega
  · by_cases h' : c' = c
    · subst h'; exact hheld b h
    · rw [hcores c' h'] at h; exact hi.held b c' h

theorem erewHeld_eq_false {pc : CorePc} (h : ∀ r due b, pc ≠ .serve r due (.erewUnlock b))
    (b : Nat) : erewHeld pc b = false := by
  unfold erewHeld
  split
  · exact absurd rfl (h _ _ _)
  · rfl

theorem completing_eq_false {pc : CorePc} (h : ∀ r due next, pc ≠ .completion r due next)
    (b : Nat) : completing cfg b pc = false := by
  unfold completing
  split
  · exact absurd rfl (h _ _ _)
  · rfl

/-- A worker of the EREW system takes the next value of its store: the end marker, or a
request of a bucket it owns, whose version it then finds even. -/
theorem ErewInv.takeRequest (herew : cfg.IsErew) {s : Sim} (hi : ErewInv cfg s) {c : Nat}
    (hc : c < cfg.bal.disp.numQueues) {m : Msg} {rest : List Msg}
    (hpc : (s.cores c).pc = .getWait)
    (ho : ∀ r, m = .req r → owner cfg (index cfg r) = c) :
    ErewInv cfg (Sim.takeRequest cfg { s with dispS := Function.update s.dispS c rest } c m) := by
  cases m with
  | endOfMeasurements =>
    have hk := @takeRequest_keeps cfg { s with dispS := Function.update s.dispS c rest } c
      .endOfMeasurements
    have hnew : ((Sim.takeRequest cfg { s with dispS := Function.update s.dispS c rest } c
        .endOfMeasurements).cores c).pc = .stopped := by simp [Sim.takeRequest]
    refine hi.of_core hc (fun c' h => by rw [hk.cores c' h]) (by rw [hnew]; trivial) rfl rfl
      (List.append_nil _).symm (fun b h => by rw [hnew] at h; cases h) fun b => ?_
    rw [hnew]
    simp [hpc, erewHeld, completing, Sim.takeRequest, loopTop, setPc, setCore]
  | req r =>
    have heven : isOdd (s.versions (index cfg r)) = false := by
      have hl := hi.ledger (index cfg r)
      rw [ho r rfl, hpc] at hl
      simp only [erewHeld, Bool.false_eq_true, ↓reduceIte, Nat.add_zero] at hl
      simp [isOdd, hl]
    simp only [Sim.takeRequest, startRequest, herew.erew, ↓reduceIte]
    rw [if_neg (by simpa [stamp] using heven)]
    split
    · rename_i hw
      refine hi.of_core hc (fun c' h => by rw [(keeps_serveDrawn _ c r _).cores c' h]; rfl)
        (by simp [ErewPc, hw]) rfl rfl (List.append_nil _).symm
        (fun b h => by simp only [serveDrawn_cores_self, erewHeld, beq_iff_eq] at h; rw [← h, ho r rfl])
        fun b => ?_
      by_cases hb : index cfg r = b
      · subst hb; simp [hpc, erewHeld, completing, serveDrawn, setCore, stamp]
      · simp [hpc, erewHeld, completing, serveDrawn, setCore, stamp, hb,
          Function.update_noteq (Ne.symm hb)]
    · refine hi.of_core hc (fun c' h => by rw [(keeps_serveDrawn _ c r _).cores c' h]; rfl)
        (by simp [ErewPc, *]) rfl rfl (List.append_nil _).symm (fun b h => by simp [erewHeld] at h)
        fun b => ?_
      simp [hpc, erewHeld, completing, serveDrawn, setCore, stamp]

/-- A service timeout of the EREW path expires: a read goes to `req_completion_logic`, a write
increments its bucket's version again first. -/
theorem ErewInv.serveEnd {s : Sim} (hi : ErewInv cfg s) {c : Nat}
    (hc : c < cfg.bal.disp.numQueues) {r : RPCRequest} {due : Nat} {next : AfterServe}
    (hpc : (s.cores c).pc = .serve r due next) : ErewInv cfg (Sim.serveEnd cfg s c r next) := by
  have hp := hi.pcs c
  rw [hpc] at hp
  cases next <;> simp only [ErewPc] at hp
  case complete =>
    simp only [Sim.serveEnd]
    refine hi.of_core hc (fun c' h => by rw [(keeps_startCompletion _ c r _).cores c' h])
      (by simp [ErewPc]) rfl rfl (List.append_nil _).symm (fun b h => by simp [erewHeld] at h)
      fun b => ?_
    simp [hpc, erewHeld, completing, writesTo, hp, startCompletion, setPc, setCore, stamp]
  case erewUnlock b₀ =>
    obtain ⟨hw, rfl⟩ := hp
    simp only [Sim.serveEnd]
    refine hi.of_core hc (fun c' h => by rw [(keeps_startCompletion _ c r _).cores c' h])
      (by simp [ErewPc]) rfl rfl (List.append_nil _).symm (fun b h => by simp [erewHeld] at h)
      fun b => ?_
    by_cases hb : index cfg r = b
    · subst hb
      simp [hpc, erewHeld, completing, writesTo, hw, startCompletion, setPc, setCore, stamp]
    · simp [hpc, erewHeld, completing, writesTo, hw, hb, startCompletion, setPc, setCore, stamp,
        Function.update_noteq (Ne.symm hb)]

/-- `req_completion_logic` of the `run` loop ends: the request is recorded. -/
theorem ErewInv.afterCompletion {s : Sim} (hi : ErewInv cfg s) {c : Nat}
    (hc : c < cfg.bal.disp.numQueues) {r : RPCRequest} {due : Nat}
    (hpc : (s.cores c).pc = .completion r due .loop) :
    ErewInv cfg (Sim.afterCompletion cfg (completionEnd cfg s c r) c .loop) := by
  have hf := @completionEnd_index cfg s c r
  have hnew : ((Sim.afterCompletion cfg (completionEnd cfg s c r) c .loop).cores c).pc = .getWait ∨
      ((Sim.afterCompletion cfg (completionEnd cfg s c r) c .loop).cores c).pc = .stopped := by
    simp only [Sim.afterCompletion, loopTop_cores_self]
    split <;> simp
  simp only [Sim.afterCompletion] at hnew ⊢
  refine hi.of_core hc (fun c' h => by
      rw [(keeps_loopTop _ c).cores c' h, (completionEnd_local s c r).cores c' h])
    (by rcases hnew with h | h <;> rw [h] <;> trivial) hf.updaters
    (@completionEnd_fault cfg s c r) (@completionEnd_recorded cfg s c r)
    (fun b h => by rcases hnew with h' | h' <;> rw [h'] at h <;> cases h) fun b => ?_
  have hv : (loopTop (completionEnd cfg s c r) c).versions = s.versions := hf.versions
  rcases hnew with h | h <;> rw [h, hv, hpc] <;> simp [erewHeld, completing, List.countP_cons]

/-- **A step of a worker of the EREW system keeps the ledger**, when the requests in its custody
are of buckets it owns. -/
theorem ErewInv.coreStep (herew : cfg.IsErew) {s s' : Sim} (hi : ErewInv cfg s)
    (hr : RoutedAll cfg s) {c : Nat} (hc : c < cfg.bal.disp.numQueues)
    (h : coreStep cfg s c = some s') : ErewInv cfg s' := by
  have hp := hi.pcs c
  unfold Sim.coreStep at h
  split at h
  · rename_i hpc
    split at h
    · rename_i m rest hd
      cases h
      refine hi.takeRequest herew hc hpc fun r hm => hr c r ?_
      simp [Sim.unacked, hd, hm, Msg.reqs]
    · cases h
  all_goals rename_i hpc; rw [hpc] at hp
  · exact hp.elim
  · split at h <;> cases h
    exact hi.serveEnd hc hpc
  · rename_i r due next
    split at h <;> cases h
    cases next <;> simp only [ErewPc] at hp
    exact hi.afterCompletion hc hpc
  · cases h

theorem ErewInv.of_frame {s s' : Sim} (hi : ErewInv cfg s) (hw : WorkersFrame s s') :
    ErewInv cfg s' := by
  have hd : ∀ b, writesDone cfg s' b = writesDone cfg s b := fun b => by
    simp only [writesDone, hw.recorded, hw.cores]
  refine ⟨fun c => hw.cores ▸ hi.pcs c, hw.updaters.trans hi.updaters, fun b => ?_,
    fun b c h => hi.held b c (hw.cores ▸ h), fun c => ?_⟩
  · rw [hw.versions, hd, hw.cores]; exact hi.ledger b
  · rcases hw.fault with h | ⟨f, h⟩ <;> rw [h]
    · exact hi.fault c
    · simp

theorem erewInv_init : ErewInv cfg (init cfg) := by
  refine ⟨fun _ => trivial, rfl, fun b => ?_, fun b c h => (by cases h), fun c h => (by cases h)⟩
  simp [writesDone, init, Core.init, completing, erewHeld]

theorem routedAll_reachable (herew : cfg.IsErew) {s : Sim} (hs : Reachable cfg s)
    (hf : s.fault = none) : RoutedAll cfg s := by
  obtain ⟨w, hw, hr⟩ := reachable_refines hs
  intro c r hmem
  obtain ⟨p, p', hsel⟩ :=
    BalancerWorld.inFlightSelected_reachable hw c r ((hr.flight hf c).mem_iff.mpr hmem)
  exact (cfg.bal.disp.select_erew herew.policy hsel).symm

theorem erewInv_reachable (herew : cfg.IsErew) {s : Sim} (hs : Reachable cfg s) :
    ErewInv cfg s := by
  refine Reachable.induction cfg erewInv_init (fun hs hi h => ?_) hs
  rcases step_workers h with hw | ⟨i, u, hu, -, rfl⟩ | ⟨hf, c, hc, h⟩
  · exact hi.of_frame hw
  · simp [hi.updaters] at hu
  · exact hi.coreStep herew (routedAll_reachable herew hs hf) hc h

/-- **EREW: the version check never fails, and every write adds two.** In every reachable
state of the EREW system no worker has failed the assertion that its request's bucket has an
even version; a write between its two increments is served by its bucket's owner; and the
version of every bucket is twice the number of its writes past both increments, plus one while
its owner serves a write of it. -/
theorem erew_version_ledger (herew : cfg.IsErew) {s : Sim} (hs : Reachable cfg s) :
    (∀ c, s.fault ≠ some (.worker c .erewOddVersion)) ∧
    (∀ b c, erewHeld (s.cores c).pc b = true → c = owner cfg b) ∧
    ∀ b, s.versions b =
      2 * writesDone cfg s b + if erewHeld (s.cores (owner cfg b)).pc b then 1 else 0 :=
  have hi := erewInv_reachable herew hs
  ⟨hi.fault, hi.held, hi.ledger⟩

end Sim

/-- Two workers on the EREW path behind a `LoadBalancer` with `EREWDispatchPolicy` over the
index's two buckets. -/
def twoCoreErew : SimConfig where
  bal := ⟨.loadBalancer, ⟨.erew 2, 2, by decide, by decide⟩, 2, by decide⟩
  worker := ⟨true, false, false, 200⟩
  reqsToSim := 2
  gap k := if k = 0 then 1 else 100000
  keyOf k := k
  writeOf _ := true
  hashOf := id
  servDraw _ _ := 1000
  servTime := 1000
  fixedOverhead := 300
  channelLat := 30

theorem twoCoreErew_isErew : twoCoreErew.IsErew := ⟨rfl, rfl⟩

/-- Worker 0 has written bucket 0 and worker 1 serves a write of bucket 1, between its two
increments: bucket 0's version counts the write done, bucket 1's the write its owner serves. -/
theorem twoCoreErew_ledger_mid_run :
    ∃ s, Sim.Reachable twoCoreErew s ∧ s.versions 0 = 2 ∧ s.versions 1 = 1 ∧
      Sim.writesDone twoCoreErew s 0 = 1 ∧ Sim.erewHeld (s.cores 1).pc 1 = true ∧
      ((∀ c, s.fault ≠ some (.worker c .erewOddVersion)) ∧
      (∀ b c, Sim.erewHeld (s.cores c).pc b = true → c = Sim.owner twoCoreErew b) ∧
      ∀ b, s.versions b = 2 * Sim.writesDone twoCoreErew s b +
        if Sim.erewHeld (s.cores (Sim.owner twoCoreErew b)).pc b then 1 else 0) := by
  have h : (Sim.runActions twoCoreErew
      [.generate, .balancerRun, .tick 1, .generate, .deliverEvent, .balancerRun, .balancerRun,
        .tick 2, .deliverEvent, .balancerRun, .balancerRun, .tick 31, .deliverDispatch 0,
        .core 0, .tick 32, .deliverDispatch 1, .core 1, .tick 1031, .core 0]
      (Sim.init twoCoreErew)).map (fun s =>
      decide (s.versions 0 = 2 ∧ s.versions 1 = 1 ∧ Sim.writesDone twoCoreErew s 0 = 1 ∧
        Sim.erewHeld (s.cores 1).pc 1 = true)) = some true := by
    decide
  obtain ⟨s, hs, hp⟩ := Option.map_eq_some'.mp h
  have hr := Sim.Reachable.runActions _ .refl hs
  obtain ⟨h₁, h₂, h₃, h₄⟩ := of_decide_eq_true hp
  exact ⟨s, hr, h₁, h₂, h₃, h₄, Sim.erew_version_ledger twoCoreErew_isErew hr⟩

end QueueFlex
