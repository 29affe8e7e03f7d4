import QueueFlex.Pipeline.Locking

/-! # What a step does to the index and the clock

On the concurrent path (`disp_policy != "EREW"`) a step of a worker touches the shared
`BucketedIndex` in one of a few ways (`WorkerEffect`): not at all, as it moves between
suspension points outside `do_write_process`; by starting `do_write_process`, whose lock
increment it then waits on; by starting the unlock increment once its service time is over
and its lock increment has fired; or by raising an assertion, which stops the simulation.
Only the EREW path increments a version itself. `coreStep_effect` derives this from the
worker's code once, one lemma per function of `MICAIndexAccessor`; the invariants of the
index under any dispatch policy are built on it.

The clock moves only by its own step, and never past a time a process waits for
(`step_clock`). -/

namespace QueueFlex

namespace Sim

variable (cfg : SimConfig)

/-- The worker at `pc` runs no `do_write_process`. -/
def NoLock (pc : CorePc) : Prop := ∀ b, pc.lockOn b = none

/-- `s'` is `s` with the updater `⟨s.nextUpdater, b, s.now + INDEX_UPDATE_DELAY⟩` started by
worker `c`; the versions and the other workers are untouched. -/
structure Starts (c b : Nat) (s s' : Sim) : Prop where
  versions : s'.versions = s.versions
  updaters : s'.updaters = s.updaters ++ [⟨s.nextUpdater, b, s.now + indexUpdateDelay⟩]
  nextUpdater : s'.nextUpdater = s.nextUpdater + 1
  cores : ∀ c', c' ≠ c → s'.cores c' = s.cores c'

/-- A suspension point reached without touching the index: a worker spins only on an odd
version, and reaches the second increment of the EREW path only from its first. -/
def PcFresh (s : Sim) (pc : CorePc) : Prop :=
  (∀ r, pc = .spin r false → s.versions (index cfg r) % 2 = 1) ∧
    ∀ r due b, pc ≠ .serve r due (.erewUnlock b)

/-- **What a worker step does to the index** on the concurrent path. -/
inductive WorkerEffect (c : Nat) (s s' : Sim) : Prop
  /-- The worker moves between suspension points outside `do_write_process`. -/
  | move : IndexFrame c s s' → NoLock (s.cores c).pc → NoLock (s'.cores c).pc →
      PcFresh cfg s (s'.cores c).pc → WorkerEffect c s s'
  /-- `do_write_process(b)` starts its lock increment and waits for its service time. -/
  | lock {r : RPCRequest} {due b : Nat} {k : AfterWrite} : Starts c b s s' →
      NoLock (s.cores c).pc → (s'.cores c).pc = .serve r due (.unlock s.nextUpdater b k) →
      WorkerEffect c s s'
  /-- Its service time over and its lock increment fired, `do_write_process(b)` starts its
  unlock increment. -/
  | unlock {r : RPCRequest} {due id b : Nat} {k : AfterWrite} :
      (s.cores c).pc = .serve r due (.unlock id b k) → s.pending id = false → Starts c b s s' →
      NoLock (s'.cores c).pc → PcFresh cfg s (s'.cores c).pc → WorkerEffect c s s'
  /-- An assertion or a `KeyError` stops the simulation. -/
  | raise {f : WorkerFault} : IndexFrame c s s' → (s'.cores c).pc = (s.cores c).pc →
      s'.fault = some (.worker c f) → WorkerEffect c s s'
  /-- The second increment of the EREW path. -/
  | erewUnlock {r : RPCRequest} {due b : Nat} : (s.cores c).pc = .serve r due (.erewUnlock b) →
      s'.versions = Function.update s.versions b (s.versions b + 1) →
      s'.updaters = s.updaters → (∀ c', c' ≠ c → s'.cores c' = s.cores c') → WorkerEffect c s s'

/-- `s₁` is `s` with only worker `c`'s bookkeeping changed (stamps, counters, batches, its
store), not its suspension point. -/
structure Bookkeeps (c : Nat) (s s₁ : Sim) : Prop where
  frame : IndexFrame c s s₁
  pc : (s₁.cores c).pc = (s.cores c).pc
  now : s₁.now = s.now

variable {cfg}

theorem Bookkeeps.of_setCore (s : Sim) {c : Nat} {k : Core} (h : k.pc = (s.cores c).pc) :
    Bookkeeps c s (s.setCore c k) :=
  ⟨⟨rfl, rfl, rfl, fun _ h' => setCore_cores_ne s k h'⟩, by rw [setCore_cores_self, h], rfl⟩

theorem Bookkeeps.of_completionEnd (s : Sim) (c : Nat) (r : RPCRequest) :
    Bookkeeps c s (completionEnd cfg s c r) :=
  ⟨completionEnd_index s c r, (completionEnd_core s c r).1, (completionEnd_local s c r).now⟩

/-- Bookkeeping before a step does not change what the step does to the index. -/
theorem WorkerEffect.of_bookkeeps {c : Nat} {s s₁ s' : Sim} (h : WorkerEffect cfg c s₁ s')
    (h₀ : Bookkeeps c s s₁) : WorkerEffect cfg c s s' := by
  obtain ⟨⟨hv, hu, hn, hc⟩, hpc, hnow⟩ := h₀
  have hst : ∀ {b}, Starts c b s₁ s' → Starts c b s s' := fun ⟨h₁, h₂, h₃, h₄⟩ =>
    ⟨h₁.trans hv, by rw [h₂, hu, hn, hnow], by rw [h₃, hn],
      fun c' h => (h₄ c' h).trans (hc c' h)⟩
  cases h with
  | move hf hl hl' hfr =>
    exact .move ((IndexFrame.mk hv hu hn hc).trans hf) (hpc ▸ hl) hl'
      ⟨fun r h => hv ▸ hfr.1 r h, hfr.2⟩
  | lock hs hl hpc' => exact .lock (hst hs) (hpc ▸ hl) (by rw [hpc', hn])
  | unlock hpc' hp hs hl' hfr =>
    exact .unlock (hpc ▸ hpc') (by rwa [pending, hu] at hp) (hst hs) hl'
      ⟨fun r h => hv ▸ hfr.1 r h, hfr.2⟩
  | raise hf hpc' hfault => exact .raise ((IndexFrame.mk hv hu hn hc).trans hf) (hpc'.trans hpc) hfault
  | erewUnlock hpc' hv' hu' hc' =>
    exact .erewUnlock (hpc ▸ hpc') (by rw [hv', hv]) (hu'.trans hu)
      fun c' h => (hc' c' h).trans (hc c' h)

theorem WorkerEffect.raise' {s : Sim} (c : Nat) (f : WorkerFault) :
    WorkerEffect cfg c s (Sim.raise s c f) :=
  .raise ⟨rfl, rfl, rfl, fun _ _ => rfl⟩ rfl rfl

/-! ## One lemma per function of the worker -/

section
variable {s : Sim} {c : Nat}

theorem effect_serveDrawn (hl : NoLock (s.cores c).pc) (r : RPCRequest) {next : AfterServe}
    (hn : next = .complete ∨ ∃ v, next = .recheck v) :
    WorkerEffect cfg c s (serveDrawn cfg s c r next) := by
  refine .move (.of_keeps (keeps_serveDrawn s c r next) rfl rfl rfl) hl ?_ ⟨?_, ?_⟩ <;>
    rcases hn with rfl | ⟨v, rfl⟩ <;> simp [NoLock, CorePc.lockOn]

theorem effect_doWriteProcess (hl : NoLock (s.cores c).pc) (r : RPCRequest) (b : Nat)
    (k : AfterWrite) : WorkerEffect cfg c s (doWriteProcess cfg s c r b k) :=
  .lock ⟨rfl, rfl, rfl, (keeps_doWriteProcess s c r b k).cores⟩ hl
    (by rw [doWriteProcess_cores_self])

theorem effect_loopTop (hl : NoLock (s.cores c).pc) : WorkerEffect cfg c s (loopTop s c) := by
  refine .move (.of_keeps (keeps_loopTop s c) rfl rfl rfl) hl ?_ ⟨?_, ?_⟩ <;>
    simp only [loopTop_cores_self] <;> split <;> simp [NoLock, CorePc.lockOn]

theorem effect_startCompletion (hl : NoLock (s.cores c).pc) (r : RPCRequest)
    (next : AfterCompletion) : WorkerEffect cfg c s (startCompletion cfg s c r next) := by
  refine .move (.of_keeps (keeps_startCompletion s c r next) rfl rfl rfl) hl ?_ ⟨?_, ?_⟩ <;>
    simp [NoLock, CorePc.lockOn]

theorem effect_beginWrite (hl : NoLock (s.cores c).pc) (r : RPCRequest) :
    WorkerEffect cfg c s (beginWrite cfg s c r) := by
  have hb : ∀ {k : Core} (next : AfterServe), k.pc = .serve r (s.now + cfg.worker.compactionTime) next →
      (next = .newBatch ∨ ∃ key, next = .followBatch key) →
      WorkerEffect cfg c s ((s.stamp r.uid fun st => { st with delayed := true }).setCore c k) :=
    fun next hpc hn =>
      .move (.of_keeps ((keeps_stamp c s _ _).trans (keeps_setCore _ c _)) rfl rfl rfl) hl
        (by rcases hn with rfl | ⟨_, rfl⟩ <;> simp [NoLock, hpc, CorePc.lockOn])
        (by rcases hn with rfl | ⟨_, rfl⟩ <;> simp [PcFresh, hpc])
  unfold beginWrite
  dsimp only
  split
  · split
    · exact hb _ rfl (.inr ⟨_, rfl⟩)
    · split
      · exact hb _ rfl (.inl rfl)
      · exact effect_doWriteProcess hl _ _ _
  · exact effect_doWriteProcess hl _ _ _

theorem effect_checkVersion (hl : NoLock (s.cores c).pc) (r : RPCRequest) :
    WorkerEffect cfg c s (checkVersion cfg s c r) := by
  unfold checkVersion
  dsimp only
  split
  · rename_i hodd
    refine .move (.of_keeps ((keeps_stamp c s _ _).trans (keeps_setPc _ c _)) rfl rfl rfl) hl
      (fun _ => by simp [CorePc.lockOn]) ⟨fun r' h => ?_, by simp⟩
    obtain rfl : r = r' := by simpa using h
    simpa [isOdd] using hodd
  · split
    · exact effect_beginWrite hl r
    · exact effect_serveDrawn hl r (.inr ⟨_, rfl⟩)

theorem effect_startRequest (he : cfg.worker.erew = false) (hl : NoLock (s.cores c).pc)
    (r : RPCRequest) : WorkerEffect cfg c s (startRequest cfg s c r) := by
  simp only [startRequest, he, Bool.false_eq_true, ↓reduceIte]
  split
  · exact effect_serveDrawn hl r (.inl rfl)
  · exact effect_checkVersion hl r

theorem effect_takeRequest (he : cfg.worker.erew = false) (hpc : (s.cores c).pc = .getWait)
    (m : Msg) : WorkerEffect cfg c s (takeRequest cfg s c m) := by
  have hl : NoLock (s.cores c).pc := by rw [hpc]; exact fun _ => rfl
  cases m with
  | endOfMeasurements =>
    exact .of_bookkeeps (effect_loopTop (by simpa using hl))
      ⟨⟨rfl, rfl, rfl, fun _ h => setCore_cores_ne s _ h⟩, by simp, rfl⟩
  | req r =>
    refine .of_bookkeeps (effect_startRequest he ?_ r) ⟨⟨rfl, rfl, rfl, fun _ _ => rfl⟩, rfl, rfl⟩
    exact hl

theorem effect_batchNext (hl : NoLock (s.cores c).pc) (key : Nat) (rest : List RPCRequest)
    (final : RPCRequest) : WorkerEffect cfg c s (batchNext cfg s c key rest final) := by
  cases rest with
  | cons r rest => exact effect_startCompletion hl r _
  | nil => exact effect_doWriteProcess hl final _ _

theorem effect_respondToBatchedWrites (hl : NoLock (s.cores c).pc) (key : Nat) :
    WorkerEffect cfg c s (respondToBatchedWrites cfg s c key) := by
  unfold respondToBatchedWrites
  dsimp only
  split
  · exact .raise' c _
  · split
    · exact .raise' c _
    · exact .of_bookkeeps (effect_batchNext (by simpa using hl) key _ _) (.of_setCore s rfl)

theorem effect_serveEnd {r : RPCRequest} {due : Nat} {next : AfterServe}
    (hpc : (s.cores c).pc = .serve r due next) : WorkerEffect cfg c s (serveEnd cfg s c r next) := by
  have hl : (∀ id b k, next ≠ .unlock id b k) → NoLock (s.cores c).pc := fun h b => by
    rw [hpc]
    cases next with
    | unlock id b' k => exact absurd rfl (h id b' k)
    | _ => rfl
  cases next with
  | complete => exact effect_startCompletion (hl nofun) r .loop
  | recheck prev =>
    simp only [serveEnd]
    split
    · refine .of_bookkeeps (effect_serveDrawn ?_ r (.inl rfl)) ⟨⟨rfl, rfl, rfl, fun _ _ => rfl⟩, rfl, rfl⟩
      exact hl nofun
    · exact effect_startCompletion (hl nofun) r .loop
  | unlock id b k =>
    simp only [serveEnd]
    split
    · exact .raise' c _
    · rename_i hp
      cases k <;>
      exact .unlock hpc (by simpa [pending] using hp)
        ⟨rfl, rfl, rfl, (keeps_startCompletion _ c r _).cores⟩
        (by simp [afterWrite, NoLock, CorePc.lockOn]) (by simp [afterWrite, PcFresh])
  | erewUnlock b =>
    exact .erewUnlock hpc rfl rfl (keeps_startCompletion _ c r _).cores
  | followBatch key =>
    simp only [serveEnd]
    split
    · exact .raise' c _
    · exact effect_respondToBatchedWrites (hl nofun) key
    · exact effect_loopTop (hl nofun)
  | newBatch => exact effect_loopTop (hl nofun)

theorem effect_afterCompletion {r : RPCRequest} {due : Nat} {next : AfterCompletion}
    (hpc : (s.cores c).pc = .completion r due next) :
    WorkerEffect cfg c s (afterCompletion cfg (completionEnd cfg s c r) c next) := by
  have h₀ := @Bookkeeps.of_completionEnd cfg s c r
  have hl : NoLock ((completionEnd cfg s c r).cores c).pc := by
    rw [h₀.pc, hpc]; exact fun _ => rfl
  refine .of_bookkeeps ?_ h₀
  cases next with
  | loop => exact effect_loopTop hl
  | batchNext key rest final => exact effect_batchNext hl key rest final
  | batchEnd key =>
    simp only [afterCompletion]
    split
    · exact .of_bookkeeps (effect_loopTop (by simpa using hl)) (.of_setCore _ rfl)
    · exact .raise' c _

end

/-- **What a worker step does to the index**, on the concurrent path. -/
theorem coreStep_effect (he : cfg.worker.erew = false) {s s' : Sim} {c : Nat}
    (h : coreStep cfg s c = some s') : WorkerEffect cfg c s s' := by
  unfold coreStep at h
  split at h
  · rename_i hpc
    split at h
    · cases h
      refine .of_bookkeeps (effect_takeRequest he ?_ _) ⟨⟨rfl, rfl, rfl, fun _ _ => rfl⟩, rfl, rfl⟩
      exact hpc
    · cases h
  · rename_i r woken hpc
    split at h <;> cases h
    exact effect_checkVersion (by rw [hpc]; exact fun _ => rfl) r
  · split at h <;> cases h
    exact effect_serveEnd ‹_›
  · split at h <;> cases h
    exact effect_afterCompletion ‹_›
  · cases h

/-- A worker step on the concurrent path only adds updaters, and leaves the other workers. -/
theorem WorkerEffect.frame {c : Nat} {s s' : Sim} (h : WorkerEffect cfg c s s') :
    (∃ l, s'.updaters = s.updaters ++ l) ∧ ∀ c', c' ≠ c → s'.cores c' = s.cores c' := by
  cases h with
  | move hf => exact ⟨⟨[], by simp [hf.updaters]⟩, hf.cores⟩
  | lock hs => exact ⟨⟨_, hs.updaters⟩, hs.cores⟩
  | unlock _ _ hs => exact ⟨⟨_, hs.updaters⟩, hs.cores⟩
  | raise hf => exact ⟨⟨[], by simp [hf.updaters]⟩, hf.cores⟩
  | erewUnlock _ _ hu hc => exact ⟨⟨[], by simp [hu]⟩, hc⟩

/-! ## Steps of the other processes -/

/-- `s'` has the workers, the index, the records and the workers' faults of `s`. -/
structure WorkersFrame (s s' : Sim) : Prop where
  cores : s'.cores = s.cores
  versions : s'.versions = s.versions
  updaters : s'.updaters = s.updaters
  nextUpdater : s'.nextUpdater = s.nextUpdater
  recorded : s'.recorded = s.recorded
  fault : s'.fault = s.fault ∨ ∃ f, s'.fault = some (.balancer f)

theorem WorkersFrame.refl' {s s' : Sim} (hc : s'.cores = s.cores) (hv : s'.versions = s.versions)
    (hu : s'.updaters = s.updaters) (hn : s'.nextUpdater = s.nextUpdater)
    (hr : s'.recorded = s.recorded) (hf : s'.fault = s.fault) : WorkersFrame s s' :=
  ⟨hc, hv, hu, hn, hr, .inl hf⟩

/-- **What a step does to the workers and the index**: the clock, the generator, a channel or
a balancer process leaves them alone; otherwise an updater fires, or a worker steps. -/
theorem step_workers {s s' : Sim} {a : SimAction} (h : step cfg a s = some s') :
    WorkersFrame s s' ∨
    (∃ i u, s.updaters[i]? = some u ∧ u.fireAt ≤ s.now ∧ s' = fireUpdater cfg s i u) ∨
    (s.fault = none ∧ ∃ c, c < cfg.bal.disp.numQueues ∧ coreStep cfg s c = some s') := by
  cases a with
  | tick t =>
    simp only [step] at h
    split at h <;> cases h
    exact .inl (.refl' rfl rfl rfl rfl rfl rfl)
  | fire i =>
    obtain ⟨-, h⟩ := step_proc h nofun
    simp only [procStep] at h
    split at h
    · split at h <;> cases h
      exact .inr (.inl ⟨i, _, ‹_›, ‹_›, rfl⟩)
    · cases h
  | core c =>
    obtain ⟨hf, h⟩ := step_proc h nofun
    simp only [procStep] at h
    split at h
    · exact .inr (.inr ⟨hf, c, ‹_›, h⟩)
    · cases h
  | balancerRun | pullQueueUpdater =>
    obtain ⟨-, h⟩ := step_proc h nofun
    obtain ⟨o, -, rfl⟩ := Option.map_eq_some'.mp h
    refine .inl ?_
    rcases o with f | ⟨b, puts⟩
    · exact ⟨rfl, rfl, rfl, rfl, rfl, .inr ⟨f, rfl⟩⟩
    · obtain ⟨dT, st, he, -⟩ := @dispatchPuts_eq cfg { s with bal := b } puts
      show WorkersFrame s (dispatchPuts cfg { s with bal := b } puts)
      rw [he]
      exact .refl' rfl rfl rfl rfl rfl rfl
  | _ =>
    obtain ⟨-, h⟩ := step_proc h nofun
    simp only [procStep] at h
    refine .inl ?_
    repeat' split at h
    all_goals (cases h; try exact .refl' rfl rfl rfl rfl rfl rfl)

/-- Counting over the workers when only worker `c`'s term changes. -/
theorem countP_range_update {n c : Nat} (hc : c < n) {p q : Nat → Bool}
    (h : ∀ x, x ≠ c → q x = p x) :
    (List.range n).countP q + (if p c then 1 else 0) =
      (List.range n).countP p + (if q c then 1 else 0) := by
  have hperm := List.perm_cons_erase (List.mem_range.mpr hc)
  have hrest : ((List.range n).erase c).countP q = ((List.range n).erase c).countP p :=
    List.countP_congr fun x hx => by rw [h x ((List.nodup_range n).mem_erase_iff.mp hx).1]
  rw [hperm.countP_eq, hperm.countP_eq, List.countP_cons, List.countP_cons, hrest]
  omega

/-! ## The clock -/

/-- **Only the clock's step moves the clock**, to a time no process waits to pass. -/
theorem step_clock {s s' : Sim} {a : SimAction} (h : step cfg a s = some s') :
    s'.now = s.now ∨ s.fault = none ∧ ∃ t, s' = { s with now := t } ∧ noEventBefore cfg s t = true := by
  cases a with
  | tick t =>
    simp only [step, Bool.and_eq_true, decide_eq_true_eq] at h
    split at h <;> cases h
    rename_i hg
    exact .inr ⟨by simpa using hg.1.1.1, t, rfl, hg.2⟩
  | core c =>
    obtain ⟨-, h⟩ := step_proc h nofun
    simp only [procStep] at h
    split at h
    · exact .inl (coreStep_local h).now
    · cases h
  | balancerRun | pullQueueUpdater =>
    obtain ⟨-, h⟩ := step_proc h nofun
    obtain ⟨o, -, rfl⟩ := Option.map_eq_some'.mp h
    refine .inl ?_
    rcases o with f | ⟨b, puts⟩
    · rfl
    · obtain ⟨dT, st, he, -⟩ := @dispatchPuts_eq cfg { s with bal := b } puts
      show (dispatchPuts cfg { s with bal := b } puts).now = s.now
      rw [he]
  | _ =>
    obtain ⟨-, h⟩ := step_proc h nofun
    simp only [procStep] at h
    refine .inl ?_
    repeat' split at h
    all_goals (cases h; try rfl)

/-- A worker's timeout bounds every time the clock moves to. -/
theorem noEventBefore_due {s : Sim} {t : Nat} (h : noEventBefore cfg s t = true) {c d : Nat}
    (hc : c < cfg.bal.disp.numQueues) (hd : CorePc.due? (s.cores c).pc = some d) : t ≤ d := by
  simp only [noEventBefore, Bool.and_eq_true, List.all_eq_true, List.mem_range] at h
  simpa [hd] using (h.2 c hc).2

/-- An updater's timeout bounds every time the clock moves to. -/
theorem noEventBefore_fireAt {s : Sim} {t : Nat} (h : noEventBefore cfg s t = true) {u : Updater}
    (hu : u ∈ s.updaters) : t ≤ u.fireAt := by
  simp only [noEventBefore, Bool.and_eq_true, List.all_eq_true, decide_eq_true_eq] at h
  exact h.1.2 u hu

end Sim

end QueueFlex
