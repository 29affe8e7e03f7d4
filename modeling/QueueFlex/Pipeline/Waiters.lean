import QueueFlex.Pipeline.Erew
import QueueFlex.Pipeline.Exclusion

/-! # Waiters on a bucket

A worker on the concurrent path that finds its request's bucket odd spins: it yields the event
that `get_event_for_increment` appends to the bucket's `event_waitlist`, and the next
`AsyncIndexUpdater` of the bucket increments the version, then succeeds every event of the list
and clears it (`succeed_event_for_bucket`). Here the list of bucket `b` is the workers suspended
at `spin r false` with `r` of bucket `b`, and succeeding a waiter's event sets `woken`.

Under every dispatch policy the version of each bucket has the parity of the
`do_write_process` executions holding it (`HoldInv`, with `holders` of `Versions`): a lock
increment adds a holder, an unlock increment removes one, and on the concurrent path nothing
else changes a version. So a waiter's bucket is odd and held, and the first increment of the
bucket wakes it (`waiters_wait_on_held_bucket`). On the EREW path nobody waits. -/

namespace QueueFlex

namespace Sim

variable (cfg : SimConfig)

/-- **The waiting invariant of the concurrent path.** Updater identities are unique and issued
in order; a worker in `do_write_process` waits on a lock increment of its own bucket that no
other worker waits on; the workers are where `PcFresh` allows; and each version has the parity
of the executions holding its bucket. -/
structure HoldInv (s : Sim) : Prop where
  idsNodup : (s.updaters.map Updater.id).Nodup
  idsBelow : ∀ u ∈ s.updaters, u.id < s.nextUpdater
  locks : ∀ c b id, (s.cores c).pc.lockOn b = some id →
    id < s.nextUpdater ∧ ∀ u ∈ s.updaters, u.id = id → u.bucket = b
  lockUnique : ∀ c c' b b' id, (s.cores c).pc.lockOn b = some id →
    (s.cores c').pc.lockOn b' = some id → c = c'
  fresh : ∀ c, PcFresh cfg s (s.cores c).pc
  parity : ∀ b, s.versions b % 2 = holders cfg s b % 2

variable {cfg}

/-! ## Counting the holders -/

theorem lockHeld_of_noLock {s : Sim} {c : Nat} (h : NoLock (s.cores c).pc) (b : Nat) :
    lockHeld s b c = false :=
  Bool.eq_false_iff.mpr fun h' => by
    obtain ⟨id, h', -⟩ := lockHeld_eq_true.mp h'
    rw [h b] at h'
    cases h'

theorem waitsOn_of_noLock {pc : CorePc} (h : NoLock pc) (id : Nat) : waitsOn pc id = false :=
  Bool.eq_false_iff.mpr fun h' => by
    obtain ⟨b, h'⟩ := waitsOn_eq_true.mp h'
    rw [h b] at h'
    cases h'

theorem waitsOn_congr {pc pc' : CorePc} (h : ∀ b, pc'.lockOn b = pc.lockOn b) (id : Nat) :
    waitsOn pc' id = waitsOn pc id :=
  Bool.eq_iff_iff.mpr (by simp only [waitsOn_eq_true, h])

/-- The holders of a bucket depend only on the updaters and on the workers' locks. -/
theorem holders_congr {s s' : Sim} (hu : s'.updaters = s.updaters)
    (hl : ∀ c b, (s'.cores c).pc.lockOn b = (s.cores c).pc.lockOn b) (b : Nat) :
    holders cfg s' b = holders cfg s b := by
  have hp : s'.pending = s.pending := by funext id; simp only [pending, hu]
  have hh : lockHeld s' b = lockHeld s b := funext fun c =>
    Bool.eq_iff_iff.mpr (by simp only [lockHeld_eq_true, hl, hp])
  have hw : ∀ c, waitsOn (s'.cores c).pc = waitsOn (s.cores c).pc := fun c =>
    funext (waitsOn_congr (hl c))
  simp only [holders, unlockPending, hh, hw, hu]

/-- Under `Starts`, the locks of the other workers keep their holding. -/
theorem lockHeld_starts {s s' : Sim} (hi : HoldInv cfg s) {c b₀ : Nat} (hs : Starts c b₀ s s')
    {c' : Nat} (hc : c' ≠ c) (b : Nat) : lockHeld s' b c' = lockHeld s b c' :=
  Bool.eq_iff_iff.mpr <| by
    simp only [lockHeld_eq_true, hs.cores c' hc]
    exact exists_congr fun id => and_congr_right fun h =>
      by rw [pending_append hs.updaters (hi.locks c' b id h).1]

/-- Under `Starts`, an updater already there stays a pending unlock exactly when it was one,
if worker `c` waits on it as it did; the new updater is one unless a worker waits on it. -/
theorem unlockPending_starts {s s' : Sim} {c b₀ : Nat} (hs : Starts c b₀ s s')
    (hw : ∀ u ∈ s.updaters, waitsOn (s'.cores c).pc u.id = waitsOn (s.cores c).pc u.id)
    (b : Nat) :
    unlockPending cfg s' b = unlockPending cfg s b ++
      if b₀ = b ∧ ((List.range cfg.bal.disp.numQueues).any fun c =>
          waitsOn (s'.cores c).pc s.nextUpdater) = false
      then [⟨s.nextUpdater, b₀, s.now + indexUpdateDelay⟩] else [] := by
  simp only [unlockPending, hs.updaters, List.filter_append]
  congr 1
  swap
  · by_cases hb : b₀ = b <;> simp [List.filter_cons, hb]
  refine List.filter_congr fun u hu => ?_
  have hf : (fun c' => waitsOn (s'.cores c').pc u.id) = fun c' => waitsOn (s.cores c').pc u.id :=
    funext fun c' => by
      by_cases h : c' = c
      · subst h; exact hw u hu
      · rw [hs.cores c' h]
  simp only [hf]

/-- **Starting a lock increment keeps every bucket's holders**: the new updater is waited on,
and no holding changes. -/
theorem holders_lockStart {s s' : Sim} (hi : HoldInv cfg s) {c b₀ : Nat}
    (hc : c < cfg.bal.disp.numQueues) (hs : Starts c b₀ s s') (hl : NoLock (s.cores c).pc)
    {r : RPCRequest} {due : Nat} {k : AfterWrite}
    (hpc : (s'.cores c).pc = .serve r due (.unlock s.nextUpdater b₀ k)) (b : Nat) :
    holders cfg s' b = holders cfg s b := by
  have hnew : s'.pending s.nextUpdater = true := by simp [pending, hs.updaters]
  have hh : lockHeld s' b = lockHeld s b := funext fun c' => by
    by_cases h : c' = c
    · subst h
      rw [lockHeld_of_noLock hl]
      refine Bool.eq_false_iff.mpr fun h' => ?_
      obtain ⟨id, h', hp⟩ := lockHeld_eq_true.mp h'
      obtain ⟨-, rfl⟩ : b₀ = b ∧ s.nextUpdater = id := by simpa [hpc, CorePc.lockOn] using h'
      rw [hnew] at hp
      cases hp
    · exact lockHeld_starts hi hs h b
  have hw : ∀ u ∈ s.updaters, waitsOn (s'.cores c).pc u.id = waitsOn (s.cores c).pc u.id :=
    fun u hu => by
      rw [waitsOn_of_noLock hl, hpc]
      simpa [waitsOn] using Nat.ne_of_gt (hi.idsBelow u hu)
  have hwait : (List.range cfg.bal.disp.numQueues).any (fun c' => waitsOn (s'.cores c').pc
      s.nextUpdater) = true :=
    List.any_eq_true.mpr ⟨c, List.mem_range.mpr hc, by simp [hpc, waitsOn]⟩
  simp [holders, hh, unlockPending_starts hs hw, hwait]

/-- **Starting an unlock increment keeps every bucket's holders**: the worker's holding of
`b₀` passes to the new updater. -/
theorem holders_unlockStart {s s' : Sim} (hi : HoldInv cfg s) {c b₀ id : Nat}
    (hc : c < cfg.bal.disp.numQueues) {r : RPCRequest} {due : Nat} {k : AfterWrite}
    (hpc : (s.cores c).pc = .serve r due (.unlock id b₀ k)) (hp : s.pending id = false)
    (hs : Starts c b₀ s s') (hl : NoLock (s'.cores c).pc) (b : Nat) :
    holders cfg s' b = holders cfg s b := by
  have hw : ∀ u ∈ s.updaters, waitsOn (s'.cores c).pc u.id = waitsOn (s.cores c).pc u.id :=
    fun u hu => by
      rw [waitsOn_of_noLock hl, hpc]
      simp only [pending, List.any_eq_false, beq_iff_eq] at hp
      simpa [waitsOn] using fun h => hp u hu h.symm
  have hfree : (List.range cfg.bal.disp.numQueues).any (fun c' => waitsOn (s'.cores c').pc
      s.nextUpdater) = false := by
    refine List.any_eq_false.mpr fun c' _ h => ?_
    by_cases h' : c' = c
    · subst h'; rw [waitsOn_of_noLock hl] at h; cases h
    · obtain ⟨b', h⟩ := waitsOn_eq_true.mp (by rwa [hs.cores c' h'] at h)
      exact absurd (hi.locks c' b' _ h).1 (lt_irrefl _)
  have hcount := countP_range_update hc (p := lockHeld s b) (q := lockHeld s' b)
    fun c' h => lockHeld_starts hi hs h b
  have hold : lockHeld s b c = (b₀ == b) := by
    by_cases hb : b₀ = b
    · subst hb
      exact (lockHeld_eq_true.mpr ⟨id, by simp [hpc, CorePc.lockOn], hp⟩).trans (by simp)
    · refine (Bool.eq_false_iff.mpr fun h => hb ?_).trans (by simp [hb])
      obtain ⟨id', h, -⟩ := lockHeld_eq_true.mp h
      exact (by simpa [hpc, CorePc.lockOn] using h : b₀ = b ∧ _).1
  rw [lockHeld_of_noLock hl, hold] at hcount
  simp only [holders, ← List.countP_eq_length_filter, unlockPending_starts hs hw, hfree,
    List.length_append]
  by_cases hb : b₀ = b <;> simp [hb] at hcount ⊢ <;> omega

/-- When updater `u` fires, exactly `u` stops being pending. -/
theorem pending_fire {s : Sim} (hi : HoldInv cfg s) {i : Nat} {u : Updater}
    (hu : s.updaters[i]? = some u) (id : Nat) :
    (fireUpdater cfg s i u).pending id = (s.pending id && id != u.id) := by
  have hperm := perm_cons_eraseIdx hu
  have hnd := (hperm.map Updater.id).nodup_iff.mp hi.idsNodup
  rw [List.map_cons, List.nodup_cons, List.mem_map] at hnd
  refine Bool.eq_iff_iff.mpr ?_
  simp only [pending, fireUpdater, List.any_eq_true, beq_iff_eq, Bool.and_eq_true,
    bne_iff_ne, ne_eq]
  constructor
  · rintro ⟨x, hx, rfl⟩
    exact ⟨⟨x, List.eraseIdx_subset _ _ hx, rfl⟩, fun h => hnd.1 ⟨x, hx, h⟩⟩
  · rintro ⟨⟨x, hx, rfl⟩, hne⟩
    rcases List.mem_cons.mp (hperm.subset hx) with rfl | hx
    exacts [absurd rfl hne, ⟨x, hx, rfl⟩]

theorem lockOn_fire (s : Sim) (i : Nat) (u : Updater) (c b : Nat) :
    ((fireUpdater cfg s i u).cores c).pc.lockOn b = (s.cores c).pc.lockOn b :=
  wake_lockOn _ _ _

/-- A lock that is not on `u` keeps its holding when `u` fires. -/
theorem lockHeld_fire {s : Sim} (hi : HoldInv cfg s) {i : Nat} {u : Updater}
    (hu : s.updaters[i]? = some u) {b c : Nat} (hc : (s.cores c).pc.lockOn b ≠ some u.id) :
    lockHeld (fireUpdater cfg s i u) b c = lockHeld s b c :=
  Bool.eq_iff_iff.mpr <| by
    rw [lockHeld_eq_true, lockHeld_eq_true]
    refine exists_congr fun id => ?_
    rw [lockOn_fire, pending_fire hi hu]
    refine and_congr_right fun h => ?_
    have : id ≠ u.id := fun he => hc (he ▸ h)
    simp [this]

/-- When `u` fires, the pending unlocks of its bucket lose `u` if no worker waited on it. -/
theorem unlockPending_fire {s : Sim} {i : Nat} {u : Updater} (hu : s.updaters[i]? = some u)
    (b : Nat) :
    (unlockPending cfg s b).length = (unlockPending cfg (fireUpdater cfg s i u) b).length +
      if u.bucket = b ∧ ((List.range cfg.bal.disp.numQueues).any fun c =>
          waitsOn (s.cores c).pc u.id) = false then 1 else 0 := by
  have hw : ∀ c, waitsOn ((fireUpdater cfg s i u).cores c).pc = waitsOn (s.cores c).pc :=
    fun c => funext (waitsOn_congr (lockOn_fire s i u c))
  rw [unlockPending, ((perm_cons_eraseIdx hu).filter _).length_eq, List.filter_cons]
  simp only [unlockPending, hw]
  split <;> rename_i h <;> simp only [Bool.and_eq_true, beq_iff_eq, Bool.not_eq_true'] at h
  · simp [h, fireUpdater]
  · simpa [fireUpdater] using fun hb => by simpa using not_and.mp h hb

/-- **An increment flips the parity of its bucket's holders**: a lock increment adds the
worker waiting on it, an unlock increment removes itself. -/
theorem holders_fire {s : Sim} (hi : HoldInv cfg s) {i : Nat} {u : Updater}
    (hu : s.updaters[i]? = some u) (b : Nat) :
    holders cfg (fireUpdater cfg s i u) b % 2 =
      (holders cfg s b + if u.bucket = b then 1 else 0) % 2 := by
  have hmem : u ∈ s.updaters := List.getElem?_mem hu
  have hun := @unlockPending_fire cfg _ _ _ hu b
  simp only [holders, ← List.countP_eq_length_filter]
  cases hW : (List.range cfg.bal.disp.numQueues).any fun c => waitsOn (s.cores c).pc u.id
  · have hl : ∀ c ∈ List.range cfg.bal.disp.numQueues,
        lockHeld (fireUpdater cfg s i u) b c = true ↔ lockHeld s b c = true := fun c hc => by
      refine Bool.eq_iff_iff.mp (lockHeld_fire hi hu fun h => ?_)
      have : waitsOn (s.cores c).pc u.id = true := waitsOn_eq_true.mpr ⟨b, h⟩
      rw [List.any_eq_false] at hW
      exact hW c hc this
    rw [List.countP_congr hl]
    simp only [hW, and_true] at hun
    by_cases hb : u.bucket = b <;> simp [hb] at hun ⊢ <;> omega
  · obtain ⟨c₀, hc₀, hw₀⟩ := List.any_eq_true.mp hW
    obtain ⟨b₁, h₁⟩ := waitsOn_eq_true.mp hw₀
    have hb₁ : u.bucket = b₁ := (hi.locks c₀ b₁ u.id h₁).2 u hmem rfl
    subst hb₁
    have hcount := countP_range_update (List.mem_range.mp hc₀) (p := lockHeld s b)
      (q := lockHeld (fireUpdater cfg s i u) b) fun c h => lockHeld_fire hi hu fun h' =>
        h (hi.lockUnique c c₀ b u.bucket u.id h' h₁)
    obtain ⟨r, due, k, hpc⟩ := CorePc.lockOn_eq_some.mp h₁
    have hpend : s.pending u.id = true := List.any_eq_true.mpr ⟨u, hmem, beq_self_eq_true _⟩
    have hold : lockHeld s b c₀ = false := by
      simp [lockHeld, hpc, pending] at hpend ⊢
      exact fun _ => hpend
    have hnew : lockHeld (fireUpdater cfg s i u) b c₀ = (u.bucket == b) := by
      have : ((fireUpdater cfg s i u).cores c₀).pc = (s.cores c₀).pc := by
        rcases wake_pc u.bucket (s.cores c₀) with h | ⟨_, _, h, -⟩
        · exact h
        · rw [hpc] at h; cases h
      have hp := pending_fire hi hu u.id
      simp only [pending, bne_self_eq_false, Bool.and_false] at hp
      simp [lockHeld, this, hpc, hp]
    simp only [hW, Bool.true_eq_false, and_false, ↓reduceIte, Nat.add_zero] at hun
    rw [hold, hnew] at hcount
    by_cases hb : u.bucket = b <;> simp [hb] at hcount ⊢ <;> omega

/-! ## The invariant over runs -/

theorem holdInv_init : HoldInv cfg (init cfg) := by
  refine ⟨.nil, fun _ h => absurd h (List.not_mem_nil _), fun _ _ _ h => (by cases h),
    fun _ _ _ _ _ h => (by cases h), fun _ => ⟨fun _ h => (by cases h), fun _ _ _ h => (by cases h)⟩,
    fun b => ?_⟩
  have : (List.range cfg.bal.disp.numQueues).filter (lockHeld (init cfg) b) = [] :=
    List.filter_eq_nil_iff.mpr fun c _ => by
      rw [@lockHeld_of_noLock (init cfg) c (fun _ => rfl)]; simp
  simp only [holders, this]
  simp [unlockPending, init]

theorem PcFresh.of_versions {s s' : Sim} {pc : CorePc} (h : PcFresh cfg s pc)
    (hv : s'.versions = s.versions) : PcFresh cfg s' pc :=
  ⟨fun r h' => hv ▸ h.1 r h', h.2⟩

/-- Steps that move no worker's lock keep the invariant. -/
theorem HoldInv.of_pcs {s s' : Sim} (hi : HoldInv cfg s)
    (hc : ∀ c, (s'.cores c).pc = (s.cores c).pc) (hv : s'.versions = s.versions)
    (hu : s'.updaters = s.updaters) (hn : s'.nextUpdater = s.nextUpdater) : HoldInv cfg s' := by
  refine ⟨hu ▸ hi.idsNodup, hu ▸ hn ▸ hi.idsBelow, fun c b id h => ?_,
    fun c c' b b' id h h' => hi.lockUnique c c' b b' id (hc c ▸ h) (hc c' ▸ h'),
    fun c => (hc c ▸ hi.fresh c).of_versions hv, fun b => ?_⟩
  · rw [hu, hn]; exact hi.locks c b id (hc c ▸ h)
  · rw [hv, holders_congr hu fun c b => by rw [hc]]; exact hi.parity b

/-- A worker moves outside `do_write_process`. -/
theorem HoldInv.move {s s' : Sim} (hi : HoldInv cfg s) {c : Nat} (hf : IndexFrame c s s')
    (hl : NoLock (s.cores c).pc) (hl' : NoLock (s'.cores c).pc)
    (hfr : PcFresh cfg s (s'.cores c).pc) : HoldInv cfg s' := by
  have hlock : ∀ c' b, (s'.cores c').pc.lockOn b = (s.cores c').pc.lockOn b := fun c' b => by
    by_cases h : c' = c
    · subst h; rw [hl b, hl' b]
    · rw [hf.cores c' h]
  refine ⟨hf.updaters ▸ hi.idsNodup, hf.updaters ▸ hf.nextUpdater ▸ hi.idsBelow,
    fun c' b id h => ?_, fun c₁ c₂ b b' id h h' => ?_, fun c' => ?_, fun b => ?_⟩
  · rw [hf.updaters, hf.nextUpdater]; exact hi.locks c' b id (hlock c' b ▸ h)
  · exact hi.lockUnique c₁ c₂ b b' id (hlock c₁ b ▸ h) (hlock c₂ b' ▸ h')
  · by_cases h : c' = c
    · subst h; exact hfr.of_versions hf.versions
    · rw [hf.cores c' h]; exact (hi.fresh c').of_versions hf.versions
  · rw [hf.versions, holders_congr hf.updaters hlock]; exact hi.parity b

theorem HoldInv.ids_starts {s s' : Sim} (hi : HoldInv cfg s) {c b₀ : Nat} (hs : Starts c b₀ s s') :
    (s'.updaters.map Updater.id).Nodup ∧ ∀ u ∈ s'.updaters, u.id < s'.nextUpdater := by
  refine ⟨?_, fun u h => ?_⟩
  · rw [hs.updaters, List.map_append, List.nodup_append]
    refine ⟨hi.idsNodup, List.nodup_singleton _, fun x hx hy => ?_⟩
    obtain ⟨u, hu, rfl⟩ := List.mem_map.mp hx
    simp only [List.map_cons, List.map_nil, List.mem_singleton] at hy
    exact absurd hy (Nat.ne_of_lt (hi.idsBelow u hu))
  · rw [hs.updaters, List.mem_append, List.mem_singleton] at h
    rw [hs.nextUpdater]
    rcases h with h | rfl
    · exact Nat.lt_succ_of_lt (hi.idsBelow u h)
    · exact Nat.lt_succ_self _

/-- Under `Starts`, a lock already there keeps its bucket among the updaters. -/
theorem HoldInv.locks_starts {s s' : Sim} (hi : HoldInv cfg s) {c b₀ : Nat}
    (hs : Starts c b₀ s s') {c' b id : Nat} (h : (s.cores c').pc.lockOn b = some id) :
    id < s'.nextUpdater ∧ ∀ u ∈ s'.updaters, u.id = id → u.bucket = b := by
  obtain ⟨hlt, hb⟩ := hi.locks c' b id h
  refine ⟨hs.nextUpdater ▸ Nat.lt_succ_of_lt hlt, fun u hu hid => ?_⟩
  rw [hs.updaters, List.mem_append, List.mem_singleton] at hu
  rcases hu with hu | rfl
  · exact hb u hu hid
  · exact absurd hid (Nat.ne_of_gt hlt)

/-- A worker starts `do_write_process` on `b₀`. -/
theorem HoldInv.lockStart {s s' : Sim} (hi : HoldInv cfg s) {c b₀ : Nat}
    (hc : c < cfg.bal.disp.numQueues) (hs : Starts c b₀ s s') (hl : NoLock (s.cores c).pc)
    {r : RPCRequest} {due : Nat} {k : AfterWrite}
    (hpc : (s'.cores c).pc = .serve r due (.unlock s.nextUpdater b₀ k)) : HoldInv cfg s' := by
  have hown : ∀ {b id}, (s'.cores c).pc.lockOn b = some id → b = b₀ ∧ id = s.nextUpdater :=
    fun h => by simpa [hpc, CorePc.lockOn, eq_comm] using h
  obtain ⟨hnd, hbelow⟩ := hi.ids_starts hs
  refine ⟨hnd, hbelow, fun c' b id h => ?_, fun c₁ c₂ b b' id h h' => ?_, fun c' => ?_,
    fun b => ?_⟩
  · by_cases hc' : c' = c
    · subst hc'
      obtain ⟨rfl, rfl⟩ := hown h
      refine ⟨by rw [hs.nextUpdater]; exact Nat.lt_succ_self _, fun u hu hid => ?_⟩
      rw [hs.updaters, List.mem_append, List.mem_singleton] at hu
      rcases hu with hu | rfl
      · exact absurd hid (Nat.ne_of_lt (hi.idsBelow u hu))
      · rfl
    · exact hi.locks_starts hs (hs.cores c' hc' ▸ h)
  · have hlt : ∀ {c' b id}, c' ≠ c → (s'.cores c').pc.lockOn b = some id → id < s.nextUpdater :=
      fun hc' h => (hi.locks _ _ _ (hs.cores _ hc' ▸ h)).1
    by_cases h₁ : c₁ = c <;> by_cases h₂ : c₂ = c
    · rw [h₁, h₂]
    · subst h₁; exact absurd ((hown h).2 ▸ hlt h₂ h') (lt_irrefl _)
    · subst h₂; exact absurd ((hown h').2 ▸ hlt h₁ h) (lt_irrefl _)
    · exact hi.lockUnique c₁ c₂ b b' id (hs.cores c₁ h₁ ▸ h) (hs.cores c₂ h₂ ▸ h')
  · by_cases h : c' = c
    · subst h; rw [hpc]; exact ⟨nofun, nofun⟩
    · rw [hs.cores c' h]; exact (hi.fresh c').of_versions hs.versions
  · rw [hs.versions, holders_lockStart hi hc hs hl hpc]; exact hi.parity b

/-- A worker's lock increment has fired and its service time is over: it starts its unlock
increment. -/
theorem HoldInv.unlockStart {s s' : Sim} (hi : HoldInv cfg s) {c b₀ id : Nat}
    (hc : c < cfg.bal.disp.numQueues) {r : RPCRequest} {due : Nat} {k : AfterWrite}
    (hpc : (s.cores c).pc = .serve r due (.unlock id b₀ k)) (hp : s.pending id = false)
    (hs : Starts c b₀ s s') (hl : NoLock (s'.cores c).pc) (hfr : PcFresh cfg s (s'.cores c).pc) :
    HoldInv cfg s' := by
  obtain ⟨hnd, hbelow⟩ := hi.ids_starts hs
  have hlock : ∀ {c' b id'}, (s'.cores c').pc.lockOn b = some id' →
      (s.cores c').pc.lockOn b = some id' := fun {c'} b id' h => by
    by_cases hc' : c' = c
    · subst hc'; rw [hl b] at h; cases h
    · rwa [hs.cores c' hc'] at h
  refine ⟨hnd, hbelow, fun c' b id' h => hi.locks_starts hs (hlock h),
    fun c₁ c₂ b b' id' h h' => hi.lockUnique c₁ c₂ b b' id' (hlock h) (hlock h'), fun c' => ?_,
    fun b => ?_⟩
  · by_cases h : c' = c
    · subst h; exact hfr.of_versions hs.versions
    · rw [hs.cores c' h]; exact (hi.fresh c').of_versions hs.versions
  · rw [hs.versions, holders_unlockStart hi hc hpc hp hs hl]; exact hi.parity b

/-- **A worker step keeps the waiting invariant.** -/
theorem HoldInv.effect {s s' : Sim} (hi : HoldInv cfg s) {c : Nat}
    (hc : c < cfg.bal.disp.numQueues) (h : WorkerEffect cfg c s s') : HoldInv cfg s' := by
  cases h with
  | move hf hl hl' hfr => exact hi.move hf hl hl' hfr
  | lock hs hl hpc => exact hi.lockStart hc hs hl hpc
  | unlock hpc hp hs hl hfr => exact hi.unlockStart hc hpc hp hs hl hfr
  | raise hf hpc =>
    refine hi.of_pcs (fun c' => ?_) hf.versions hf.updaters hf.nextUpdater
    by_cases h : c' = c
    · subst h; exact hpc
    · rw [hf.cores c' h]
  | erewUnlock hpc => exact absurd hpc ((hi.fresh c).2 _ _ _)

/-- A worker woken on the bucket of an increment is no longer waiting. -/
theorem wake_spin_false {b : Nat} {k : Core} {r : RPCRequest} (h : (wake cfg b k).pc = .spin r false) :
    k.pc = .spin r false ∧ index cfg r ≠ b := by
  unfold wake at h
  split at h
  · rename_i hpc
    split at h
    · simp at h
    · rename_i hb
      rw [hpc] at h ⊢
      cases h
      exact ⟨rfl, hb⟩
  · rename_i hpc
    exact absurd h (hpc _ _)

/-- **An updater firing keeps the waiting invariant.** -/
theorem HoldInv.fire {s : Sim} (hi : HoldInv cfg s) {i : Nat} {u : Updater}
    (hu : s.updaters[i]? = some u) : HoldInv cfg (fireUpdater cfg s i u) := by
  have hsub : (fireUpdater cfg s i u).updaters ⊆ s.updaters := List.eraseIdx_subset _ _
  have hv : ∀ b, (fireUpdater cfg s i u).versions b = s.versions b + if u.bucket = b then 1 else 0 :=
    fun b => by
      by_cases h : u.bucket = b
      · subst h; simp [fireUpdater]
      · simp [fireUpdater, Function.update_noteq (Ne.symm h), h]
  refine ⟨hi.idsNodup.sublist ((List.eraseIdx_sublist _ _).map _),
    fun u' h => hi.idsBelow u' (hsub h), fun c b id h => ?_,
    fun c c' b b' id h h' => hi.lockUnique c c' b b' id (lockOn_fire s i u c b ▸ h)
      (lockOn_fire s i u c' b' ▸ h'), fun c => ⟨fun r h => ?_, fun r due b h => ?_⟩, fun b => ?_⟩
  · obtain ⟨hlt, hb⟩ := hi.locks c b id (lockOn_fire s i u c b ▸ h)
    exact ⟨hlt, fun u' hu' => hb u' (hsub hu')⟩
  · obtain ⟨hpc, hne⟩ := wake_spin_false h
    rw [hv, if_neg (Ne.symm hne), Nat.add_zero]
    exact (hi.fresh c).1 r hpc
  · rcases wake_pc u.bucket (s.cores c) with h' | ⟨_, _, _, h'⟩ <;>
      rw [show (fireUpdater cfg s i u).cores c = wake cfg u.bucket (s.cores c) from rfl, h'] at h
    · exact (hi.fresh c).2 r due b h
    · cases h
  · have := hi.parity b
    rw [hv, holders_fire hi hu]
    split <;> omega

/-- **The waiting invariant holds in every reachable state of a pipeline on the concurrent
path**, whatever its dispatch policy. -/
theorem holdInv_reachable (he : cfg.worker.erew = false) {s : Sim} (hs : Reachable cfg s) :
    HoldInv cfg s := by
  refine Reachable.induction cfg holdInv_init (fun _ hi h => ?_) hs
  rcases step_workers h with hw | ⟨i, u, hu, -, rfl⟩ | ⟨-, c, hc, h⟩
  · exact hi.of_pcs (fun c => by rw [hw.cores]) hw.versions hw.updaters hw.nextUpdater
  · exact hi.fire hu
  · exact hi.effect hc (coreStep_effect he h)

/-! ## The waitlists -/

variable (cfg) in
/-- `BucketedIndex.event_waitlist[b]`: the workers whose event for the next increment of `b`
has not been succeeded. -/
def waitlist (s : Sim) (b : Nat) : List Nat :=
  (List.range cfg.bal.disp.numQueues).filter fun c =>
    match (s.cores c).pc with
    | .spin r false => index cfg r == b
    | _ => false

theorem mem_waitlist {s : Sim} {b c : Nat} : c ∈ waitlist cfg s b ↔
    c < cfg.bal.disp.numQueues ∧ ∃ r, (s.cores c).pc = .spin r false ∧ index cfg r = b := by
  unfold waitlist
  rw [List.mem_filter, List.mem_range]
  split <;> simp_all

/-- On the concurrent path only an updater changes a version. -/
theorem WorkerEffect.versions {s s' : Sim} {c : Nat} (hi : HoldInv cfg s)
    (h : WorkerEffect cfg c s s') : s'.versions = s.versions := by
  cases h with
  | move hf => exact hf.versions
  | lock hs => exact hs.versions
  | unlock _ _ hs => exact hs.versions
  | raise hf => exact hf.versions
  | erewUnlock hpc => exact absurd hpc ((hi.fresh c).2 _ _ _)

/-- **One step of the concurrent path**: a waiting worker keeps waiting unless its bucket is
incremented, and is then woken; a bucket just incremented has no waiter left. -/
theorem HoldInv.step_waiters (he : cfg.worker.erew = false) {s s' : Sim} {a : SimAction}
    (hi : HoldInv cfg s) (h : step cfg a s = some s') :
    (∀ c r, (s.cores c).pc = .spin r false →
      (s'.cores c).pc = .spin r (s'.versions (index cfg r) != s.versions (index cfg r))) ∧
    ∀ b, s'.versions b ≠ s.versions b → waitlist cfg s' b = [] := by
  rcases step_workers h with hw | ⟨i, u, -, -, rfl⟩ | ⟨-, c', -, h⟩
  · exact ⟨fun c r hpc => by simp [hw.cores, hw.versions, hpc],
      fun b hb => absurd (by rw [hw.versions]) hb⟩
  · refine ⟨fun c r hpc => ?_, fun b hb => ?_⟩
    · by_cases hb : index cfg r = u.bucket
      · simp [fireUpdater, wake, hpc, hb]
      · simp [fireUpdater, wake, hpc, hb, Function.update_noteq]
    · obtain rfl : u.bucket = b := by
        by_contra hne; simp [fireUpdater, Function.update_noteq (Ne.symm hne)] at hb
      refine List.eq_nil_iff_forall_not_mem.mpr fun c hc => ?_
      obtain ⟨-, r, hpc, hr⟩ := mem_waitlist.mp hc
      exact (wake_spin_false hpc).2 hr
  · have hv := (coreStep_effect he h).versions hi
    refine ⟨fun c r hpc => ?_, fun b hb => absurd (congrFun hv b) hb⟩
    have hne : c ≠ c' := by rintro rfl; simp [coreStep, hpc] at h
    rw [(coreStep_effect he h).frame.2 c hne, hv, hpc, bne_self_eq_false]

/-- **Waiters wait on a held bucket and are woken once.** In every reachable state a worker in
the waitlist of `b` sees `b` odd, with a `do_write_process` of `b` between its two
increments; over any step a waiting worker stays waiting until the first increment of its
bucket, which wakes it, and leaves that bucket's waitlist empty. -/
theorem waiters_wait_on_held_bucket {s : Sim} (hs : Reachable cfg s) :
    (∀ b, ∀ c ∈ waitlist cfg s b, s.versions b % 2 = 1 ∧ 0 < holders cfg s b) ∧
    ∀ {a : SimAction} {s' : Sim}, step cfg a s = some s' →
      (∀ c r, (s.cores c).pc = .spin r false →
        (s'.cores c).pc = .spin r (s'.versions (index cfg r) != s.versions (index cfg r))) ∧
      ∀ b, s'.versions b ≠ s.versions b → waitlist cfg s' b = [] := by
  cases he : cfg.worker.erew
  · have hi := holdInv_reachable he hs
    refine ⟨fun b c hc => ?_, fun h => hi.step_waiters he h⟩
    obtain ⟨-, r, hpc, rfl⟩ := mem_waitlist.mp hc
    have hodd := (hi.fresh c).1 r hpc
    have := hi.parity (index cfg r)
    exact ⟨hodd, by omega⟩
  · -- the EREW path never spins
    have hspin : ∀ {s}, Reachable cfg s → ∀ c r, (s.cores c).pc ≠ .spin r false :=
      fun hs c r hpc => by simpa [hpc, ErewPc] using (erewPcs_reachable he hs).1 c
    have hnone : ∀ {s}, Reachable cfg s → ∀ b, waitlist cfg s b = [] := fun hs b =>
      List.eq_nil_iff_forall_not_mem.mpr fun c hc => by
        obtain ⟨-, r, hpc, -⟩ := mem_waitlist.mp hc
        exact hspin hs c r hpc
    refine ⟨fun b c hc => by simp [hnone hs b] at hc, fun h => ⟨fun c r hpc => ?_,
      fun b _ => hnone (Relation.ReflTransGen.tail hs ⟨_, h⟩) b⟩⟩
    exact absurd hpc (hspin hs c r)

/-- `twoCoreCrcw` with the second write sent 60 time units after the first, once the first
write's lock increment has been started. -/
def twoCoreCrcwSpaced : SimConfig := { twoCoreCrcw with gap := fun k => if k = 0 then 60 else 100000 }

/-- The second write reaches worker 1 after the first write's lock increment has fired: worker
1 waits on bucket 0, which worker 0's write holds. -/
theorem twoCoreCrcwSpaced_waits_on_held_bucket :
    ∃ s, Reachable twoCoreCrcwSpaced s ∧ waitlist twoCoreCrcwSpaced s 0 = [1] ∧
      s.versions 0 = 1 ∧
      ((∀ b, ∀ c ∈ waitlist twoCoreCrcwSpaced s b,
        s.versions b % 2 = 1 ∧ 0 < holders twoCoreCrcwSpaced s b) ∧
      ∀ {a : SimAction} {s' : Sim}, step twoCoreCrcwSpaced a s = some s' →
        (∀ c r, (s.cores c).pc = .spin r false →
          (s'.cores c).pc = .spin r (s'.versions (index twoCoreCrcwSpaced r) !=
            s.versions (index twoCoreCrcwSpaced r))) ∧
        ∀ b, s'.versions b ≠ s.versions b → waitlist twoCoreCrcwSpaced s' b = []) := by
  have h : (runActions twoCoreCrcwSpaced
      [.generate, .balancerRun, .tick 1, .deliverEvent, .balancerRun, .balancerRun, .tick 31,
        .deliverDispatch 0, .core 0, .tick 60, .generate, .tick 61, .deliverEvent, .balancerRun,
        .balancerRun, .tick 81, .fire 0, .tick 91, .deliverDispatch 1, .core 1]
      (init twoCoreCrcwSpaced)).map (fun s =>
      decide (waitlist twoCoreCrcwSpaced s 0 = [1] ∧ s.versions 0 = 1)) = some true := by
    decide
  obtain ⟨s, hs, hp⟩ := Option.map_eq_some'.mp h
  have hr := Reachable.runActions _ .refl hs
  obtain ⟨h₁, h₂⟩ := of_decide_eq_true hp
  exact ⟨s, hr, h₁, h₂, waiters_wait_on_held_bucket hr⟩

end Sim

end QueueFlex

