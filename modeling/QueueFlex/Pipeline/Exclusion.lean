import QueueFlex.Pipeline.Locking

/-! # What the bucket protocol guarantees

From `LockInv`: the `do_write_process` executions holding a bucket (`holders`) number its
version's parity, so at most one holds it and the version is odd exactly while one does; a
write that checks its bucket's version and finds it even finds no write of the bucket in
progress; and, since versions only grow, a read whose recheck finds the version it started
from ran while no write held its bucket. -/

namespace QueueFlex

namespace Sim

variable (cfg : SimConfig)

/-- A `do_write_process` on bucket `b` has started and its unlock increment has not fired: one
of its updaters is pending, or a worker serves it. -/
def writeInProgress (s : Sim) (b : Nat) : Bool :=
  !(s.bucketUpdaters b).isEmpty ||
    (List.range cfg.bal.disp.numQueues).any fun c => ((s.cores c).pc.lockOn b).isSome

/-- Worker `c`'s next step checks the version of write `r`'s bucket: it was woken on the
bucket, or it takes `r` from its store. -/
def checksWrite (s : Sim) (c : Nat) (r : RPCRequest) : Prop :=
  r.isWrite = true ∧
    ((s.cores c).pc = .spin r true ∨ (s.cores c).pc = .getWait ∧ (s.dispS c).head? = some (.req r))

variable {cfg}

/-! ## Who holds a bucket -/

theorem lockHeld_eq_true {s : Sim} {b c : Nat} :
    lockHeld s b c = true ↔ ∃ id, (s.cores c).pc.lockOn b = some id ∧ s.pending id = false := by
  unfold lockHeld
  split
  · rename_i hpc
    simp only [hpc, CorePc.lockOn, pending, Bool.and_eq_true, beq_iff_eq, Bool.not_eq_true',
      Option.ite_none_right_eq_some, Option.some.injEq]
    exact ⟨fun ⟨h₁, h₂⟩ => ⟨_, ⟨h₁, rfl⟩, h₂⟩, fun ⟨_, ⟨h₁, rfl⟩, h₂⟩ => ⟨h₁, h₂⟩⟩
  · rename_i hpc
    simp only [Bool.false_eq_true, false_iff, not_exists, not_and]
    intro id h
    obtain ⟨r, due, k, h'⟩ := CorePc.lockOn_eq_some.mp h
    exact absurd h' (hpc r due id b k)

theorem waitsOn_eq_true {pc : CorePc} {id : Nat} :
    waitsOn pc id = true ↔ ∃ b, pc.lockOn b = some id := by
  unfold waitsOn
  split
  · simp [CorePc.lockOn]
  · rename_i hpc
    simp only [Bool.false_eq_true, false_iff, not_exists]
    intro b h
    obtain ⟨r, due, k, h'⟩ := CorePc.lockOn_eq_some.mp h
    exact hpc r due id b k h'

theorem unlockPending_eq (s : Sim) (b : Nat) : unlockPending cfg s b =
    (s.bucketUpdaters b).filter fun u =>
      !(List.range cfg.bal.disp.numQueues).any fun c => waitsOn (s.cores c).pc u.id := by
  simp only [unlockPending, bucketUpdaters, List.filter_filter, Bool.and_comm]

theorem lockHeld_of_lockOn_none {s : Sim} {b c : Nat} (h : (s.cores c).pc.lockOn b = none) :
    lockHeld s b c = false :=
  Bool.eq_false_iff.mpr fun h' => by
    obtain ⟨id, h', -⟩ := lockHeld_eq_true.mp h'
    rw [h] at h'
    cases h'

/-- A worker waits on a pending updater only as its lock increment, of the updater's bucket. -/
theorem LockInv.lockOn_of_waitsOn {s : Sim} (hi : LockInv cfg s) {c : Nat} {u : Updater}
    (hu : u ∈ s.updaters) (hw : waitsOn (s.cores c).pc u.id = true) :
    (s.cores c).pc.lockOn u.bucket = some u.id := by
  obtain ⟨b, h⟩ := waitsOn_eq_true.mp hw
  obtain ⟨r, due, k, hpc⟩ := CorePc.lockOn_eq_some.mp h
  have hok := hi.cores c
  rw [PcOk, hpc] at hok
  rw [hok.2.2.2 u hu rfl]
  exact h

/-- The workers holding bucket `b`'s lock, when no worker but `c` locks it. -/
theorem lockers_length {s : Sim} {b c : Nat} (hlt : c < cfg.bal.disp.numQueues)
    (hc : ∀ c', c' ≠ c → (s.cores c').pc.lockOn b = none) :
    ((List.range cfg.bal.disp.numQueues).filter (lockHeld s b)).length =
      if lockHeld s b c then 1 else 0 := by
  have hsub : (List.range cfg.bal.disp.numQueues).filter (lockHeld s b) ⊆ [c] :=
    fun c' hc' => List.mem_singleton.mpr <| by
      by_contra h
      have := (List.mem_filter.mp hc').2
      rw [lockHeld_of_lockOn_none (hc c' h)] at this
      cases this
  have hle := (List.subperm_of_subset ((List.nodup_range _).filter _) hsub).length_le
  have hmem : c ∈ (List.range cfg.bal.disp.numQueues).filter (lockHeld s b) ↔
      lockHeld s b c = true := by
    simp [List.mem_filter, hlt]
  split
  · have := List.length_pos_of_mem (hmem.mpr ‹_›)
    simp only [List.length_singleton] at hle
    omega
  · refine List.length_eq_zero.mpr (List.eq_nil_iff_forall_not_mem.mpr fun c' hc' => ?_)
    cases List.mem_singleton.mp (hsub hc')
    exact ‹¬_› (hmem.mp hc')

/-- **The holders of a bucket are its version's parity.** -/
theorem LockInv.holders_eq {s : Sim} (hi : LockInv cfg s) (b : Nat) :
    holders cfg s b = s.versions b % 2 := by
  have hmem : ∀ {u}, s.bucketUpdaters b = [u] → u ∈ s.updaters ∧ u.bucket = b := fun h => by
    have := (List.mem_filter.mp (h ▸ List.mem_singleton_self _ : _ ∈ s.bucketUpdaters b))
    exact ⟨this.1, beq_iff_eq.mp this.2⟩
  have h0 := cfg.bal.disp.numQueues_pos
  unfold holders
  rw [unlockPending_eq]
  rcases hi.phase b with ⟨h₁, h₂, h₃⟩ | ⟨u, c, h₁, h₂, h₃⟩ | ⟨id, c, h₁, h₂, h₃, h₄⟩ |
    ⟨u, h₁, h₂, h₃, -⟩
  case idle =>
    rw [lockers_length h0 fun c' _ => h₃ c', lockHeld_of_lockOn_none (h₃ 0)]
    simp [h₁, h₂]
  case locking =>
    have hhold : holdsFor cfg (s.cores c).pc b = true := holdsFor_of_lockOn h₃
    have hlt := hi.inRange b c hhold
    have hheld : lockHeld s b c = false := Bool.eq_false_iff.mpr fun h => by
      obtain ⟨id, h, hp⟩ := lockHeld_eq_true.mp h
      rw [h₃, Option.some_inj] at h
      subst h
      simp only [pending, List.any_eq_false, beq_iff_eq] at hp
      exact hp u (hmem h₁).1 rfl
    have hwait : waitsOn (s.cores c).pc u.id = true := waitsOn_eq_true.mpr ⟨b, h₃⟩
    rw [lockers_length hlt fun c' h => hi.lockOn_of_ne hhold h, hheld]
    simp only [h₁, h₂]
    simp [List.filter_cons, List.any_eq_true, hlt, hwait]
    exact ⟨c, hlt, hwait⟩
  case locked =>
    have hhold : holdsFor cfg (s.cores c).pc b = true := holdsFor_of_lockOn h₃
    rw [lockers_length (hi.inRange b c hhold) fun c' h => hi.lockOn_of_ne hhold h,
      lockHeld_eq_true.mpr ⟨id, h₃, h₄⟩]
    simp [h₁, h₂]
  case unlocking =>
    obtain ⟨hu, hb⟩ := hmem h₁
    have hnone : ∀ c, waitsOn (s.cores c).pc u.id = false := fun c =>
      Bool.eq_false_iff.mpr fun hw => by
        have h := hi.lockOn_of_waitsOn hu hw
        rw [hb, h₃ c] at h
        cases h
    rw [lockers_length h0 fun c' _ => h₃ c', lockHeld_of_lockOn_none (h₃ 0)]
    simp [h₁, h₂, hnone]

/-! ## Versions only grow -/

theorem step_versions_le {s s' : Sim} {a : SimAction} (h : step cfg a s = some s') (b : Nat) :
    s.versions b ≤ s'.versions b := by
  rcases step_cases h with ⟨-, hk⟩ | ⟨i, u, -, -, rfl⟩ | ⟨-, c, -, hc⟩ | ⟨-, -, -, -, -, rfl⟩ |
    ⟨-, -, -, -, -, rfl⟩ | ⟨-, o, -, rfl⟩
  · rw [hk.versions]
  · simp only [fireUpdater, Function.update_apply]
    split
    · next hb => rw [hb]; exact Nat.le_succ _
    · exact le_rfl
  · exact (coreStep_local hc).versions b
  · exact le_rfl
  · exact le_rfl
  · rcases o with f | ⟨b', puts⟩
    · exact le_rfl
    · obtain ⟨dT, st, he, -⟩ := @dispatchPuts_eq cfg { s with bal := b' } puts
      show s.versions b ≤ (dispatchPuts cfg { s with bal := b' } puts).versions b
      rw [he]

theorem versions_le_of_run {s s' : Sim} (h : Relation.ReflTransGen (Next cfg) s s') (b : Nat) :
    s.versions b ≤ s'.versions b := by
  induction h with
  | refl => exact le_rfl
  | tail _ hst ih =>
    obtain ⟨a, ha⟩ := hst
    exact ih.trans (step_versions_le ha b)

/-! ## The guarantees -/

/-- A write that finds its bucket's version even finds no write of the bucket in progress:
the bucket is idle. -/
theorem LockInv.idle_of_checksWrite {s : Sim} (hi : LockInv cfg s) (hr : Routed cfg s)
    {c : Nat} {r : RPCRequest} (hc : checksWrite s c r)
    (he : s.versions (index cfg r) % 2 = 0) : writeInProgress cfg s (index cfg r) = false := by
  obtain ⟨hw, hpc⟩ := hc
  have hm : r ∈ s.unacked c := by
    rcases hpc with hpc | ⟨-, hd⟩
    · simp [Sim.unacked, Core.unacked, hpc, CorePc.taken]
    · obtain ⟨rest, hd⟩ := List.head?_eq_some_iff.mp hd
      simp [Sim.unacked, hd, Msg.reqs]
  have hfree := hi.free_of_unacked hr hm hw
  have hnone : ∀ c', (s.cores c').pc.lockOn (index cfg r) = none := fun c' => by
    by_cases h : c' = c
    · subst h
      rcases hpc with hpc | ⟨hpc, -⟩ <;> rw [hpc] <;> rfl
    · cases h' : (s.cores c').pc.lockOn (index cfg r)
      · rfl
      · have := hfree.2 c' h
        rw [holdsFor_of_lockOn h'] at this
        cases this
  have hidle : s.bucketUpdaters (index cfg r) = [] := by
    rcases hi.phase (index cfg r) with ⟨h₁, -⟩ | ⟨u, c', -, -, h₃⟩ | ⟨id, c', -, h₂, -⟩ |
      ⟨u, -, h₂, -⟩
    · exact h₁
    · rw [hnone] at h₃; cases h₃
    · omega
    · omega
  simp only [writeInProgress, hidle, List.isEmpty_nil, Bool.not_true, Bool.false_or,
    List.any_eq_false, Option.isSome_iff_ne_none, not_not]
  exact fun c' _ => hnone c'

/-- **One writer per bucket under CREW and d-CREW.** In every reachable state of the CREW
system, and of the d-CREW system with the driver's bounds on the depth limit: at
most one `do_write_process` holds a bucket, and its version is odd exactly when one does; a
write that checks the version of its bucket and finds it even finds no write of the bucket in
progress; and while a read that will find, at its recheck, the version it started from is
in service, no write holds its bucket. -/
theorem crew_one_writer_per_bucket (hcrew : cfg.IsCrew) {s : Sim} (hs : Reachable cfg s)
    (b : Nat) :
    (holders cfg s b ≤ 1 ∧ (isOdd (s.versions b) = true ↔ holders cfg s b = 1)) ∧
    (s.fault = none → ∀ c r, index cfg r = b → checksWrite s c r → s.versions b % 2 = 0 →
      writeInProgress cfg s b = false) ∧
    (∀ c r due prev s₁ s₂, (s.cores c).pc = .serve r due (.recheck prev) → index cfg r = b →
      Relation.ReflTransGen (Next cfg) s s₁ → Relation.ReflTransGen (Next cfg) s₁ s₂ →
      s₂.versions b = prev → holders cfg s₁ b = 0) := by
  have hi := lockInv_reachable hcrew hs
  refine ⟨?_, fun hf c r hb hc he =>
    hb ▸ hi.idle_of_checksWrite (routed_reachable hcrew.routing hs hf) hc (hb ▸ he),
    fun c r due prev s₁ s₂ hpc hb h₁ h₂ hv => ?_⟩
  · rw [hi.holders_eq, isOdd, beq_iff_eq]
    omega
  · have hok := hi.cores c
    rw [PcOk, hpc] at hok
    obtain ⟨hp, hle₀⟩ := hok
    have hle := versions_le_of_run h₁ b
    have hle' := versions_le_of_run h₂ b
    rw [(lockInv_reachable hcrew (hs.trans h₁)).holders_eq]
    subst hb
    omega

/-- The d-CREW system over two workers and the index's one bucket: `DynamicEWLoadBalancer`
with dynamic JBSCREW of depth limit two and `max_buckets_tracking = cores * depth`; two
writes of key 0 one time unit apart. -/
def twoCoreDcrew : SimConfig where
  bal := ⟨.dynamicEW, ⟨.dynJbscrew 2 1 4, 2, by decide, by decide⟩, 1, by decide⟩
  worker := ⟨false, false, false, 200⟩
  reqsToSim := 2
  gap k := if k = 0 then 1 else 100000
  keyOf _ := 0
  writeOf _ := true
  hashOf := id
  servDraw _ _ := 1000
  servTime := 1000
  fixedOverhead := 300
  channelLat := 30

/-- Both writes go to worker 0; once the lock increment of the first has fired it holds
bucket 0 alone, with the version odd, while the second waits in the same worker's store. -/
theorem twoCoreDcrew_write_holds_bucket :
    ∃ s, twoCoreDcrew.IsCrew ∧ Reachable twoCoreDcrew s ∧ holders twoCoreDcrew s 0 = 1 ∧
      s.versions 0 = 1 ∧
      (s.cores 0).pc = .serve (genReq twoCoreDcrew 0) 1031 (.unlock 0 0 .run) ∧
      s.dispS 0 = [.req (genReq twoCoreDcrew 1)] ∧
      ((holders twoCoreDcrew s 0 ≤ 1 ∧
        (isOdd (s.versions 0) = true ↔ holders twoCoreDcrew s 0 = 1)) ∧
      (s.fault = none → ∀ c r, index twoCoreDcrew r = 0 → checksWrite s c r →
        s.versions 0 % 2 = 0 → writeInProgress twoCoreDcrew s 0 = false) ∧
      (∀ c r due prev s₁ s₂, (s.cores c).pc = .serve r due (.recheck prev) →
        index twoCoreDcrew r = 0 → Relation.ReflTransGen (Next twoCoreDcrew) s s₁ →
        Relation.ReflTransGen (Next twoCoreDcrew) s₁ s₂ → s₂.versions 0 = prev →
        holders twoCoreDcrew s₁ 0 = 0)) := by
  have hc : twoCoreDcrew.IsCrew := ⟨rfl, rfl, .dynJbscrew 2 4 rfl rfl (by decide) (by decide)⟩
  have h : (runActions twoCoreDcrew
      [.generate, .balancerRun, .tick 1, .generate, .deliverEvent, .balancerRun, .balancerRun,
        .tick 2, .deliverEvent, .balancerRun, .balancerRun, .tick 31, .deliverDispatch 0,
        .core 0, .tick 32, .deliverDispatch 0, .tick 81, .fire 0]
      (init twoCoreDcrew)).map (fun s =>
      decide (holders twoCoreDcrew s 0 = 1 ∧ s.versions 0 = 1 ∧
        (s.cores 0).pc = .serve (genReq twoCoreDcrew 0) 1031 (.unlock 0 0 .run) ∧
        s.dispS 0 = [.req (genReq twoCoreDcrew 1)])) = some true := by
    decide
  obtain ⟨s, hs, hp⟩ := Option.map_eq_some'.mp h
  have hr := Reachable.runActions _ .refl hs
  obtain ⟨h₁, h₂, h₃, h₄⟩ := of_decide_eq_true hp
  exact ⟨s, hc, hr, h₁, h₂, h₃, h₄, crew_one_writer_per_bucket hc hr 0⟩

end Sim

end QueueFlex
