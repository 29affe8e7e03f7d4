import Mathlib.Logic.Relation
import QueueFlex.Rlu.EpochTracker
import QueueFlex.Rlu.Deferral

/-! # The multiversion worker

`MultiversionMICAIndexAccessor.run` of `src/components/datastore_rpc.py`: workers that share a
`BucketedIndex`, a `GlobalSequencer`, an `EpochTracker` and a `DeferralController`. A writer
marks its bucket with its core id plus one and, when the bucket was marked by an earlier
writer, or after its write, calls `rlu_synchronize`; a reader registers itself in the current
epoch and chooses its service time by the mark it finds on the bucket.

`rlu_synchronize` is a generator function, and every call site in `run` calls it as a plain
statement, `self.rlu_synchronize(cur_epoch, index)`, neither yielding from the generator it
returns nor starting a process with it. Python then creates the generator and drops it: no
line of its body runs. `rluSynchronizeCall` models such a call.

Every worker is a process with a program counter at one of its `yield`s. The environment
delivers messages to the input stores, and lets time pass up to the next timeout; the
duration of each timeout is the environment's draw from `serv_time_generator.get_with_mean`.
The measurements, the instability check that may kill a worker, and the interrupt of the
load generator at the end marker are left out: they read and write nothing below. -/

namespace QueueFlex

/-- The parameters the run loop reads: the number of workers (`len(remote_cores)`), the
number of buckets of the `BucketedIndex`, whether `disp_policy` is `'CREW'` or `'d-CREW'`,
`write_defer`, the `DeferralController`'s initial value and the `GlobalSequencer`'s. -/
structure MvConfig where
  numCores : Nat
  numBuckets : Nat
  crewPolicy : Bool
  writeDefer : Bool
  deferCount : Int
  initialTs : Nat

/-- The branch a read takes on the mark it finds on its bucket. -/
inductive ReadBranch where
  /-- `locked_core_id > 0` fails: no intervening writer. -/
  | noWriter
  /-- An intervening writer whose `write_ts` is `None`. -/
  | writerWithoutTs
  /-- `cur_epoch >= remote_wr_ts`: steal the writer's copy. -/
  | steal
  /-- Read the old copy. -/
  | oldCopy
deriving DecidableEq, Repr

/-- Where a worker's `run` is suspended. -/
inductive MvPc where
  /-- At `yield self.in_q.get()`. -/
  | getWait
  /-- At the write's service timeout, after marking bucket `index`. -/
  | writeServe (rpc : RPCRequest) (curEpoch index due : Nat)
  /-- At the cleanup timeout of a deferred write. -/
  | writeCleanup (rpc : RPCRequest) (due : Nat)
  /-- At the read's service timeout, registered in `curEpoch`. -/
  | readServe (rpc : RPCRequest) (curEpoch : Nat) (branch : ReadBranch) (due : Nat)
deriving DecidableEq, Repr

/-- The time a worker's timeout ends, if it is at one. -/
def MvPc.due? : MvPc → Option Nat
  | .getWait => none
  | .writeServe _ _ _ due | .writeCleanup _ due | .readServe _ _ _ due => some due

/-- A worker: its program counter and `write_ts`. -/
structure MvCore where
  pc : MvPc
  writeTs : Option Nat
deriving DecidableEq, Repr

/-- The errors a worker can raise: the assertion on `disp_policy` in the write path, an
`IndexError` of `remote_cores[locked_core_id]`, and the tracker's. -/
inductive MvFault where
  | notCrew (core : Nat)
  | remoteCoreIndex (core : Nat) (lockedCoreId : Int)
  | tracker (f : TrackerFault)
deriving DecidableEq, Repr

/-- The state of a multiversion pipeline. `versions` are the `BucketedIndex`'s buckets, Python
integers; `pulls` are the feedback messages the workers put on the pull queue. -/
structure MvSim where
  now : Nat
  inQ : Nat → List Msg
  cores : Nat → MvCore
  versions : Nat → Int
  tracker : EpochTracker
  deferral : DeferralController
  pulls : List PullFeedbackRequest
  fault : Option MvFault

/-- What the environment or a worker does: deliver a message to a worker's store, run a
worker's next step (`d` is the duration drawn if the step starts a timeout), or let time
pass. -/
inductive MvAction where
  | arrive (c : Nat) (m : Msg)
  | core (c d : Nat)
  | tick (t : Nat)
deriving DecidableEq, Repr

namespace MvSim

variable (cfg : MvConfig)

/-- The pipeline before any request. -/
def init : MvSim where
  now := 0
  inQ _ := []
  cores _ := ⟨.getWait, none⟩
  versions _ := 0
  tracker := EpochTracker.new ⟨cfg.initialTs⟩
  deferral := DeferralController.new cfg.deferCount
  pulls := []
  fault := none

/-- `hash(rpc) % num_hash_buckets`. -/
def index (rpc : RPCRequest) : Nat := rpc.h % cfg.numBuckets

variable {cfg}

/-- Worker `c` moves to `pc`. -/
def setPc (s : MvSim) (c : Nat) (pc : MvPc) : MvSim :=
  { s with cores := Function.update s.cores c { s.cores c with pc := pc } }

/-- `self.rlu_synchronize(cur_epoch, index)` as `run` writes it: the call creates a generator
and drops it, so the state is as before. -/
def rluSynchronizeCall (s : MvSim) (_curEpoch _index : Nat) : MvSim := s

/-- The end of a request: `pull_queue.put(PullFeedbackRequest(self.id, rpc))`, and back to
`in_q.get()`. -/
def completeRequest (s : MvSim) (c : Nat) (rpc : RPCRequest) : MvSim :=
  { setPc s c .getWait with pulls := s.pulls ++ [⟨c, rpc⟩] }

/-- The end of a write: `self.write_ts = None`. -/
def writeComplete (s : MvSim) (c : Nat) (rpc : RPCRequest) : MvSim :=
  completeRequest { s with cores := Function.update s.cores c { s.cores c with writeTs := none } }
    c rpc

variable (cfg)

/-- The body of `run` for a request taken from the store, up to its service timeout. -/
def startRequest (s : MvSim) (c : Nat) (rpc : RPCRequest) (d : Nat) : MvSim :=
  let index := index cfg rpc
  if rpc.isWrite then
    if !cfg.crewPolicy then { s with fault := some (.notCrew c) }
    else
      let curEpoch := s.tracker.getCurEpoch
      let lockedCoreId : Int := s.versions index - 1
      let s := if lockedCoreId > 0 then rluSynchronizeCall s curEpoch index else s
      let s := { s with versions := Function.update s.versions index (c + 1) }
      setPc s c (.writeServe rpc curEpoch index (s.now + d))
  else
    let (curEpoch, tracker) := s.tracker.registerReader c
    let s := { s with tracker := tracker }
    let lockedCoreId : Int := s.versions index - 1
    if lockedCoreId > 0 then
      if lockedCoreId ≥ (cfg.numCores : Int) then { s with fault := some (.remoteCoreIndex c lockedCoreId) }
      else
        let branch := match (s.cores lockedCoreId.toNat).writeTs with
          | none => .writerWithoutTs
          | some remoteWrTs => if curEpoch ≥ remoteWrTs then .steal else .oldCopy
        setPc s c (.readServe rpc curEpoch branch (s.now + d))
    else setPc s c (.readServe rpc curEpoch .noWriter (s.now + d))

/-- The write path after its service timeout: synchronize, or, when writes are deferred,
synchronize on `check_defer()` and otherwise wait for the cleanup. -/
def writeServeEnd (s : MvSim) (c : Nat) (rpc : RPCRequest) (curEpoch index d : Nat) : MvSim :=
  if cfg.writeDefer then
    let (sync, deferral) := s.deferral.checkDefer
    let s := { s with deferral := deferral }
    if sync then writeComplete (rluSynchronizeCall s curEpoch index) c rpc
    else setPc s c (.writeCleanup rpc (s.now + d))
  else writeComplete (rluSynchronizeCall s curEpoch index) c rpc

/-- The read path after its service timeout: `unregister_reader(cur_epoch, core_id)`. -/
def readServeEnd (s : MvSim) (c : Nat) (rpc : RPCRequest) (curEpoch : Nat) : MvSim :=
  match s.tracker.unregisterReader curEpoch c with
  | .ok tracker => completeRequest { s with tracker := tracker } c rpc
  | .error f => { s with fault := some (.tracker f) }

/-- One step of worker `c`'s `run`, or `none` while it is suspended. The end marker only makes
`check_req_end_sim` interrupt the load generator, and the loop goes on. -/
def coreStep (s : MvSim) (c d : Nat) : Option MvSim :=
  match (s.cores c).pc with
  | .getWait =>
    match s.inQ c with
    | [] => none
    | m :: rest =>
      let s := { s with inQ := Function.update s.inQ c rest }
      match m with
      | .endOfMeasurements => some s
      | .req rpc => some (startRequest cfg s c rpc d)
  | .writeServe rpc curEpoch index due =>
    if due ≤ s.now then some (writeServeEnd cfg s c rpc curEpoch index d) else none
  | .writeCleanup rpc due => if due ≤ s.now then some (writeComplete s c rpc) else none
  | .readServe rpc curEpoch _ due =>
    if due ≤ s.now then some (readServeEnd s c rpc curEpoch) else none

/-- No worker's timeout ends before `t`. -/
def noDueBefore (s : MvSim) (t : Nat) : Bool :=
  (List.range cfg.numCores).all fun c => ((s.cores c).pc.due?).all fun due => t ≤ due

/-- One step, or `none` when the action cannot happen; nothing runs after a fault. -/
def step : MvAction → MvSim → Option MvSim
  | .arrive c m, s =>
    if s.fault.isNone && c < cfg.numCores then
      some { s with inQ := Function.update s.inQ c (s.inQ c ++ [m]) }
    else none
  | .core c d, s => if s.fault.isNone && c < cfg.numCores then coreStep cfg s c d else none
  | .tick t, s =>
    if s.fault.isNone && s.now < t && noDueBefore cfg s t then some { s with now := t } else none

/-- Some worker, or the environment, takes a step. -/
abbrev Next (s s' : MvSim) : Prop := ∃ a, step cfg a s = some s'

/-- The states some run reaches. -/
def Reachable : MvSim → Prop := Relation.ReflTransGen (Next cfg) (init cfg)

/-- The state after the actions, in order, or `none` when one of them cannot happen. -/
def runActions : List MvAction → MvSim → Option MvSim
  | [], s => some s
  | a :: acts, s => (step cfg a s).bind (runActions acts)

theorem Reachable.runActions {acts : List MvAction} {s s' : MvSim} (hs : Reachable cfg s)
    (h : runActions cfg acts s = some s') : Reachable cfg s' := by
  induction acts generalizing s with
  | nil => cases h; exact hs
  | cons a acts ih =>
    obtain ⟨s₁, h₁, h₂⟩ := Option.bind_eq_some.mp h
    exact ih (hs.tail ⟨a, h₁⟩) h₂

/-! ## What a step does -/

variable {cfg}

@[simp] theorem setPc_pc_self (s : MvSim) (c : Nat) (pc : MvPc) : ((setPc s c pc).cores c).pc = pc := by
  simp [setPc]

theorem setPc_cores_ne {s : MvSim} {c c' : Nat} (pc : MvPc) (h : c' ≠ c) :
    (setPc s c pc).cores c' = s.cores c' := by
  simp [setPc, h]

@[simp] theorem setPc_writeTs (s : MvSim) (c c' : Nat) (pc : MvPc) :
    ((setPc s c pc).cores c').writeTs = (s.cores c').writeTs := by
  by_cases h : c' = c
  · subst h; simp [setPc]
  · rw [setPc_cores_ne pc h]

@[simp] theorem setPc_versions (s : MvSim) (c : Nat) (pc : MvPc) :
    (setPc s c pc).versions = s.versions := rfl

@[simp] theorem setPc_tracker (s : MvSim) (c : Nat) (pc : MvPc) :
    (setPc s c pc).tracker = s.tracker := rfl

/-- A worker's step is one of the five things its `run` can do next. -/
theorem coreStep_cases {s s' : MvSim} {c d : Nat} (h : coreStep cfg s c d = some s') :
    (∃ rest, (s.cores c).pc = .getWait ∧ s.inQ c = .endOfMeasurements :: rest ∧
      s' = { s with inQ := Function.update s.inQ c rest }) ∨
    (∃ rpc rest, (s.cores c).pc = .getWait ∧ s.inQ c = .req rpc :: rest ∧
      s' = startRequest cfg { s with inQ := Function.update s.inQ c rest } c rpc d) ∨
    (∃ rpc e i due, (s.cores c).pc = .writeServe rpc e i due ∧
      s' = writeServeEnd cfg s c rpc e i d) ∨
    (∃ rpc due, (s.cores c).pc = .writeCleanup rpc due ∧ s' = writeComplete s c rpc) ∨
    (∃ rpc e br due, (s.cores c).pc = .readServe rpc e br due ∧ s' = readServeEnd s c rpc e) := by
  unfold coreStep at h
  split at h
  · rename_i hpc
    split at h
    · cases h
    · rename_i m rest hq
      cases m with
      | endOfMeasurements => exact .inl ⟨rest, hpc, hq, (Option.some.inj h).symm⟩
      | req rpc => exact .inr (.inl ⟨rpc, rest, hpc, hq, (Option.some.inj h).symm⟩)
  all_goals
    rename_i hpc
    split at h
    · cases h
      first
        | exact .inr (.inr (.inl ⟨_, _, _, _, hpc, rfl⟩))
        | exact .inr (.inr (.inr (.inl ⟨_, _, hpc, rfl⟩)))
        | exact .inr (.inr (.inr (.inr ⟨_, _, _, _, hpc, rfl⟩)))
    · cases h

/-- A step is a delivery, the clock, or a worker's step. -/
theorem step_cases {a : MvAction} {s s' : MvSim} (h : step cfg a s = some s') :
    (∃ c m, s' = { s with inQ := Function.update s.inQ c (s.inQ c ++ [m]) }) ∨
    (∃ t, s' = { s with now := t }) ∨
    (∃ c d, c < cfg.numCores ∧ coreStep cfg s c d = some s') := by
  cases a with
  | arrive c m =>
    simp only [step] at h
    split at h
    · exact .inl ⟨c, m, (Option.some.inj h).symm⟩
    · cases h
  | tick t =>
    simp only [step] at h
    split at h
    · exact .inr (.inl ⟨t, (Option.some.inj h).symm⟩)
    · cases h
  | core c d =>
    simp only [step] at h
    split at h
    · rename_i hc
      exact .inr (.inr ⟨c, d, by simp_all, h⟩)
    · cases h

/-! ## Nothing synchronizes -/

variable (cfg) in
/-- What no run changes, because `rlu_synchronize`'s body never runs: no worker sets
`write_ts`, the sequencer never moves, no writer waits on the tracker, and a bucket is only
ever marked by a writer, never reset to 0. -/
structure Unsynchronized (s : MvSim) : Prop where
  writeTs : ∀ c, (s.cores c).writeTs = none
  sequencer : s.tracker.tsObject = ⟨cfg.initialTs⟩
  events : s.tracker.env = ⟨0, []⟩
  noWriters : s.tracker.waitingWriterEvents.entries = []
  marks : ∀ b, s.versions b = 0 ∨ ∃ c < cfg.numCores, s.versions b = c + 1

/-- A step's effect on what `Unsynchronized` reads: `write_ts` only cleared, the tracker's
sequencer, events and waiting writers kept, and a bucket only marked by the worker. -/
structure KeepsSync (c : Nat) (s s' : MvSim) : Prop where
  writeTs : ∀ c', (s'.cores c').writeTs = (s.cores c').writeTs ∨ (s'.cores c').writeTs = none
  sequencer : s'.tracker.tsObject = s.tracker.tsObject
  events : s'.tracker.env = s.tracker.env
  noWriters : s'.tracker.waitingWriterEvents = s.tracker.waitingWriterEvents
  marks : ∀ b, s'.versions b = s.versions b ∨ s'.versions b = c + 1

theorem KeepsSync.of_eq {c : Nat} {s s' : MvSim} (hc : s'.cores = s.cores) (ht : s'.tracker = s.tracker)
    (hv : s'.versions = s.versions) : KeepsSync c s s' :=
  ⟨fun _ => .inl (by rw [hc]), by rw [ht], by rw [ht], by rw [ht], fun _ => .inl (by rw [hv])⟩

theorem KeepsSync.trans {c : Nat} {s s₁ s₂ : MvSim} (h₁ : KeepsSync c s s₁) (h₂ : KeepsSync c s₁ s₂) :
    KeepsSync c s s₂ := by
  refine ⟨fun c' => ?_, h₂.sequencer.trans h₁.sequencer, h₂.events.trans h₁.events,
    h₂.noWriters.trans h₁.noWriters, fun b => ?_⟩
  · rcases h₂.writeTs c' with h | h
    · exact h ▸ h₁.writeTs c'
    · exact .inr h
  · rcases h₂.marks b with h | h
    · exact h ▸ h₁.marks b
    · exact .inr h

theorem KeepsSync.setPc {c : Nat} {s s' : MvSim} (h : KeepsSync c s s') (c' : Nat) (pc : MvPc) :
    KeepsSync c s (setPc s' c' pc) :=
  ⟨fun c'' => by rw [setPc_writeTs]; exact h.writeTs c'', h.sequencer, h.events, h.noWriters,
    h.marks⟩

theorem KeepsSync.completeRequest {c : Nat} {s s' : MvSim} (h : KeepsSync c s s') (c' : Nat)
    (rpc : RPCRequest) : KeepsSync c s (completeRequest s' c' rpc) :=
  have h' := h.setPc c' .getWait
  ⟨h'.writeTs, h'.sequencer, h'.events, h'.noWriters, h'.marks⟩

theorem keepsSync_writeComplete (s : MvSim) (c : Nat) (rpc : RPCRequest) :
    KeepsSync c s (writeComplete s c rpc) := by
  refine ⟨fun c' => ?_, rfl, rfl, rfl, fun _ => .inl rfl⟩
  by_cases h : c' = c
  · subst h; simp [writeComplete, completeRequest]
  · left; simp [writeComplete, completeRequest, setPc, h]

theorem keepsSync_startRequest (s : MvSim) (c : Nat) (rpc : RPCRequest) (d : Nat) :
    KeepsSync c s (startRequest cfg s c rpc d) := by
  unfold startRequest
  split
  · split
    · exact .of_eq rfl rfl rfl
    · simp only [rluSynchronizeCall, ite_self]
      refine KeepsSync.setPc ?_ _ _
      refine ⟨fun _ => .inl rfl, rfl, rfl, rfl, fun b => ?_⟩
      simp only [Function.update_apply]
      split <;> simp
  · have ht := s.tracker.registerReader_snd c
    have hk : KeepsSync c s { s with tracker := (s.tracker.registerReader c).2 } :=
      ⟨fun _ => .inl rfl, by rw [ht], by rw [ht], by rw [ht], fun _ => .inl rfl⟩
    dsimp only
    split
    · split
      · exact ⟨hk.writeTs, hk.sequencer, hk.events, hk.noWriters, hk.marks⟩
      · exact hk.setPc _ _
    · exact hk.setPc _ _

theorem keepsSync_writeServeEnd (s : MvSim) (c : Nat) (rpc : RPCRequest) (e i d : Nat) :
    KeepsSync c s (writeServeEnd cfg s c rpc e i d) := by
  unfold writeServeEnd rluSynchronizeCall
  split
  · dsimp only
    split
    · refine KeepsSync.trans ?_ (keepsSync_writeComplete _ c rpc)
      exact .of_eq rfl rfl rfl
    · refine KeepsSync.setPc ?_ _ _
      exact .of_eq rfl rfl rfl
  · exact keepsSync_writeComplete s c rpc

theorem keepsSync_readServeEnd {s : MvSim} (hw : s.tracker.waitingWriterEvents.entries = [])
    (c : Nat) (rpc : RPCRequest) (e : Nat) : KeepsSync c s (readServeEnd s c rpc e) := by
  unfold readServeEnd
  split
  · rename_i t' ht
    have hn : s.tracker.waitingWriterEvents.get? e = none := by
      simp [OrderedDict.get?, hw]
    obtain ⟨h₁, h₂, h₃⟩ := EpochTracker.unregisterReader_of_no_waiting hn ht
    refine KeepsSync.completeRequest ?_ _ _
    exact ⟨fun _ => .inl rfl, h₁, h₂, h₃, fun _ => .inl rfl⟩
  · exact .of_eq rfl rfl rfl

theorem keepsSync_coreStep {s s' : MvSim} {c d : Nat}
    (hw : s.tracker.waitingWriterEvents.entries = []) (h : coreStep cfg s c d = some s') :
    KeepsSync c s s' := by
  rcases coreStep_cases h with ⟨_, -, -, rfl⟩ | ⟨rpc, _, -, -, rfl⟩ | ⟨rpc, e, i, _, -, rfl⟩ |
    ⟨rpc, _, -, rfl⟩ | ⟨rpc, e, _, _, -, rfl⟩
  · exact .of_eq rfl rfl rfl
  · refine KeepsSync.trans ?_ (keepsSync_startRequest _ c rpc d)
    exact .of_eq rfl rfl rfl
  · exact keepsSync_writeServeEnd s c rpc e i d
  · exact keepsSync_writeComplete s c rpc
  · exact keepsSync_readServeEnd hw c rpc e

theorem Unsynchronized.of_keeps {c : Nat} {s s' : MvSim} (hi : Unsynchronized cfg s)
    (hc : c < cfg.numCores) (h : KeepsSync c s s') : Unsynchronized cfg s' := by
  refine ⟨fun c' => ?_, h.sequencer.trans hi.sequencer, h.events.trans hi.events,
    h.noWriters ▸ hi.noWriters, fun b => ?_⟩
  · rcases h.writeTs c' with h' | h'
    · exact h'.trans (hi.writeTs c')
    · exact h'
  · rcases h.marks b with h' | h'
    · exact h' ▸ hi.marks b
    · exact .inr ⟨c, hc, h'⟩

theorem unsynchronized_init : Unsynchronized cfg (init cfg) :=
  ⟨fun _ => rfl, rfl, rfl, rfl, fun _ => .inl rfl⟩

theorem Unsynchronized.step {a : MvAction} {s s' : MvSim} (hi : Unsynchronized cfg s)
    (h : step cfg a s = some s') : Unsynchronized cfg s' := by
  rcases step_cases h with ⟨c, m, rfl⟩ | ⟨t, rfl⟩ | ⟨c, d, hc, h⟩
  · exact ⟨hi.writeTs, hi.sequencer, hi.events, hi.noWriters, hi.marks⟩
  · exact ⟨hi.writeTs, hi.sequencer, hi.events, hi.noWriters, hi.marks⟩
  · exact hi.of_keeps hc (keepsSync_coreStep hi.noWriters h)

/-- A step marks a bucket only with a worker's id plus one. -/
theorem step_marks {a : MvAction} {s s' : MvSim} (hi : Unsynchronized cfg s)
    (h : step cfg a s = some s') (b : Nat) :
    s'.versions b = s.versions b ∨ ∃ c < cfg.numCores, s'.versions b = c + 1 := by
  rcases step_cases h with ⟨c, m, rfl⟩ | ⟨t, rfl⟩ | ⟨c, d, hc, h⟩
  · exact .inl rfl
  · exact .inl rfl
  · exact ((keepsSync_coreStep hi.noWriters h).marks b).imp id fun h' => ⟨c, hc, h'⟩

theorem unsynchronized_reachable {s : MvSim} (hs : Reachable cfg s) : Unsynchronized cfg s := by
  induction hs with
  | refl => exact unsynchronized_init
  | tail _ h ih => obtain ⟨a, h⟩ := h; exact ih.step h

/-- A read of a bucket holding 0 or 1 runs the no-writer branch: `locked_core_id > 0` fails
for core 0's mark. -/
theorem startRequest_read_noWriter {s : MvSim} {c : Nat} {rpc : RPCRequest} (d : Nat)
    (hr : rpc.isWrite = false) (hv : s.versions (index cfg rpc) ≤ 1) :
    ((startRequest cfg s c rpc d).cores c).pc =
      .readServe rpc s.tracker.tsObject.ts .noWriter (s.now + d) := by
  unfold startRequest
  simp only [hr, Bool.false_eq_true, if_false, EpochTracker.registerReader_fst]
  rw [if_neg (by omega)]
  simp

/-- **`rlu_synchronize` never runs.** In every run of the multiversion workers no worker sets
`write_ts`, the epoch never moves from the sequencer's initial value, no writer waits on the
tracker, a bucket only ever holds 0 or a worker's id plus one and no step resets a marked
bucket to 0, and a read of a bucket that holds core 0's mark runs the no-writer branch. -/
theorem rlu_synchronize_never_runs {s : MvSim} (hs : Reachable cfg s) :
    (∀ c, (s.cores c).writeTs = none) ∧
    s.tracker.getCurEpoch = cfg.initialTs ∧
    s.tracker.waiting = [] ∧
    (∀ b, s.versions b = 0 ∨ ∃ c < cfg.numCores, s.versions b = c + 1) ∧
    (∀ {a s'}, step cfg a s = some s' →
      ∀ b, s'.versions b ≠ s.versions b → ∃ c < cfg.numCores, s'.versions b = c + 1) ∧
    (s.fault = none → ∀ c d rpc rest, c < cfg.numCores → (s.cores c).pc = .getWait →
      s.inQ c = .req rpc :: rest → rpc.isWrite = false → s.versions (index cfg rpc) ≤ 1 →
      ∃ s', step cfg (.core c d) s = some s' ∧
        (s'.cores c).pc = .readServe rpc cfg.initialTs .noWriter (s.now + d)) := by
  have hi := unsynchronized_reachable hs
  refine ⟨hi.writeTs, by rw [EpochTracker.getCurEpoch, hi.sequencer]; rfl,
    by simp [EpochTracker.waiting, hi.noWriters], hi.marks, fun h b hb => ?_,
    fun hf c d rpc rest hc hpc hq hr hv => ?_⟩
  · exact (step_marks hi h b).resolve_left hb
  · let s₀ : MvSim := { s with inQ := Function.update s.inQ c rest, fault := none }
    refine ⟨_, by simp [step, hf, hc, coreStep, hpc, hq]; rfl, ?_⟩
    exact (startRequest_read_noWriter (s := s₀) d hr hv).trans (by rw [hi.sequencer])

/-- Two multiversion workers over one bucket, without write deferral, the sequencer from 1 as
the driver builds it. -/
def twoCoreMv : MvConfig := ⟨2, 1, true, false, 25, 1⟩

/-- A write and a read of key 0, both hashing to bucket 0. -/
def mvWrite : RPCRequest := ⟨0, 0, 0, true, 0⟩

def mvRead : RPCRequest := ⟨1, 1, 0, false, 0⟩

/-- Worker 0 marks bucket 0 with 1 and serves its write for `1.15 * 1000`; at time 200 worker 1
reads bucket 0, registers in epoch 1 and, finding the mark 1, runs the no-writer branch; at
time 1150 the write completes while worker 1 is still registered in its epoch, and bucket 0
still holds 1. -/
theorem twoCoreMv_write_completes_unsynchronized :
    ∃ s, Reachable twoCoreMv s ∧ s.pulls = [⟨0, mvWrite⟩] ∧ s.versions 0 = 1 ∧
      s.tracker.readersOf 1 = [1] ∧ (s.cores 1).pc = .readServe mvRead 1 .noWriter 1230 ∧
      (∀ c, (s.cores c).writeTs = none) ∧
      s.tracker.getCurEpoch = twoCoreMv.initialTs ∧
      s.tracker.waiting = [] ∧
      (∀ b, s.versions b = 0 ∨ ∃ c < twoCoreMv.numCores, s.versions b = c + 1) ∧
      (∀ {a s'}, step twoCoreMv a s = some s' →
        ∀ b, s'.versions b ≠ s.versions b → ∃ c < twoCoreMv.numCores, s'.versions b = c + 1) ∧
      (s.fault = none → ∀ c d rpc rest, c < twoCoreMv.numCores → (s.cores c).pc = .getWait →
        s.inQ c = .req rpc :: rest → rpc.isWrite = false → s.versions (index twoCoreMv rpc) ≤ 1 →
        ∃ s', step twoCoreMv (.core c d) s = some s' ∧
          (s'.cores c).pc = .readServe rpc twoCoreMv.initialTs .noWriter (s.now + d)) := by
  have h : (runActions twoCoreMv
      [.arrive 0 (.req mvWrite), .core 0 1150, .tick 200, .arrive 1 (.req mvRead), .core 1 1030,
        .tick 1150, .core 0 0] (init twoCoreMv)).map (fun s =>
      decide (s.pulls = [⟨0, mvWrite⟩] ∧ s.versions 0 = 1 ∧ s.tracker.readersOf 1 = [1] ∧
        (s.cores 1).pc = .readServe mvRead 1 .noWriter 1230)) = some true := by
    decide
  obtain ⟨s, hs, hp⟩ := Option.map_eq_some'.mp h
  have hr := Reachable.runActions twoCoreMv .refl hs
  obtain ⟨h₁, h₂, h₃, h₄⟩ := of_decide_eq_true hp
  exact ⟨s, hr, h₁, h₂, h₃, h₄, rlu_synchronize_never_runs hr⟩

end MvSim

end QueueFlex
