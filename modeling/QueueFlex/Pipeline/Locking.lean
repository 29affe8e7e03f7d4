import QueueFlex.Balancer.Ownership
import QueueFlex.Pipeline.Refinement
import QueueFlex.Pipeline.Versions

/-! # One writer per bucket under CREW and d-CREW

In the CREW systems of the driver the writes of a bucket in the workers' custody are all with
one worker (`Routed`). JBSCREW sends every write of bucket `b` to the worker `b % cores`; the
dynamic JBSCREW of d-CREW sends it to the worker its exclusive-bucket map names, and that map
counts exactly the writes outstanding on each worker while the depth limit is at most
`10^9` (`BalancerWorld.ownInv_reachable`). The refinement to the balancer's world carries
this to every request in a core's custody (`routed_reachable`).

A worker runs one `do_write_process` at a time, so the writes of a bucket go through its
protocol one after the other. `BucketPhase` says where bucket `b` is in that protocol: idle, a
worker's write waiting for its lock increment, a worker's write holding the bucket, or the
last unlock increment pending. The version is odd exactly in the last two.

The phase follows from the version check: a worker starts a `do_write_process` on `b` only
after it found the version even while no other worker held `b`, either just before or when
the write joined the batch that `respond_to_batched_writes` writes (`reservedOn`). A worker
suspended in such a batch keeps the bucket idle. No two workers hold one bucket (`holdsFor`).

`LockInv` collects the phases of all buckets with what each worker's suspension point
promises (`PcOk`) and the uniqueness of the updaters' identities, and holds in every
reachable state (`lockInv_reachable`). -/

namespace QueueFlex

/-- The lock increment a worker suspended in `do_write_process` on bucket `b` waits for. -/
def CorePc.lockOn : CorePc → Nat → Option Nat
  | .serve _ _ (.unlock id b' _), b => if b' = b then some id else none
  | _, _ => none

theorem CorePc.lockOn_eq_some {pc : CorePc} {b id : Nat} :
    pc.lockOn b = some id ↔ ∃ r due k, pc = .serve r due (.unlock id b k) := by
  constructor
  · intro h
    match pc, h with
    | .serve r due (.unlock id' b' k), h =>
      simp only [lockOn, Option.ite_none_right_eq_some, Option.some.injEq] at h
      obtain ⟨rfl, rfl⟩ := h
      exact ⟨r, due, k, rfl⟩
  · rintro ⟨r, due, k, rfl⟩
    simp [lockOn]

/-- How the CREW systems of the driver route writes over the index's buckets. -/
inductive SimConfig.WriteRouting (cfg : SimConfig) : Prop
  /-- CREW: JBSCREW, which sends the writes of bucket `b` to worker `b % cores`. -/
  | jbscrew (d : Nat) : cfg.bal.disp.policy = .jbscrew d cfg.bal.numBuckets → cfg.WriteRouting
  /-- d-CREW: dynamic JBSCREW behind a `DynamicEWLoadBalancer`, with `max_buckets_tracking`
  at least the depth limit per worker, as the driver sets it, and a depth limit of at most
  `10^9`. -/
  | dynJbscrew (d M : Nat) : cfg.bal.kind = .dynamicEW →
      cfg.bal.disp.policy = .dynJbscrew d cfg.bal.numBuckets M → d ≤ 1000000000 →
      cfg.bal.disp.numQueues * d ≤ M → cfg.WriteRouting

/-- The CREW systems of the driver: workers on the concurrent path, and JBSCREW or dynamic
JBSCREW routing the writes over the index's buckets. -/
structure SimConfig.IsCrew (cfg : SimConfig) : Prop where
  erew : cfg.worker.erew = false
  disregardConf : cfg.worker.disregardConf = false
  routing : cfg.WriteRouting

namespace Sim

variable (cfg : SimConfig)

/-- The worker that JBSCREW sends the writes of bucket `b` to. -/
def owner (b : Nat) : Nat := b % cfg.bal.disp.numQueues

/-- The pending updaters of bucket `b`. -/
def bucketUpdaters (s : Sim) (b : Nat) : List Updater := s.updaters.filter (·.bucket == b)

/-- Updater `id` has not fired. -/
def pending (s : Sim) (id : Nat) : Bool := s.updaters.any (·.id == id)

/-- The worker has found the version of bucket `b` even for a write that joined a batch, and
will write the batch's final write without checking again. -/
def reservedOn (pc : CorePc) (b : Nat) : Bool :=
  match pc with
  | .serve r _ (.followBatch _) => index cfg r == b
  | .completion _ _ (.batchNext _ _ final) => index cfg final == b
  | _ => false

/-- The worker holds bucket `b` for a write: it serves a `do_write_process` on `b`, or it has
reserved `b` for the final write of a batch. -/
def holdsFor (pc : CorePc) (b : Nat) : Bool := (pc.lockOn b).isSome || reservedOn cfg pc b

/-- Worker `c` may take bucket `b`: it is one of the queues' workers and no other worker holds
`b`. -/
def Free (s : Sim) (c b : Nat) : Prop :=
  c < cfg.bal.disp.numQueues ∧ ∀ c', c' ≠ c → holdsFor cfg (s.cores c').pc b = false

/-- What a worker's suspension point promises: a `do_write_process` serves a write and knows
its lock increment and its bucket; no EREW unlock on the concurrent path; an optimistic read
started from an even version; a write that joined a batch is its last; a batch's final write
is a write. -/
def PcOk (s : Sim) (k : Core) : Prop :=
  match k.pc with
  | .serve r _ (.unlock id b _) =>
    id < s.nextUpdater ∧ b = index cfg r ∧ r.isWrite = true ∧
      ∀ u ∈ s.updaters, u.id = id → u.bucket = b
  | .serve _ _ (.erewUnlock _) => False
  | .serve r _ (.recheck prev) => prev % 2 = 0 ∧ prev ≤ s.versions (index cfg r)
  | .serve r _ (.followBatch key) => r.isWrite ∧ ∃ l, k.batchMap.get? key = some (l ++ [r])
  | .completion _ _ (.batchNext _ _ final) => final.isWrite
  | _ => True

/-- **Where bucket `b` is in the protocol of `do_write_process`.** -/
inductive BucketPhase (s : Sim) (b : Nat) : Prop
  /-- No write holds the bucket. -/
  | idle : s.bucketUpdaters b = [] → s.versions b % 2 = 0 →
      (∀ c, (s.cores c).pc.lockOn b = none) → BucketPhase s b
  /-- Worker `c`'s write waits for its lock increment `u`. -/
  | locking (u : Updater) (c : Nat) : s.bucketUpdaters b = [u] → s.versions b % 2 = 0 →
      (s.cores c).pc.lockOn b = some u.id → BucketPhase s b
  /-- Worker `c`'s write holds the bucket. -/
  | locked (id c : Nat) : s.bucketUpdaters b = [] → s.versions b % 2 = 1 →
      (s.cores c).pc.lockOn b = some id → s.pending id = false → BucketPhase s b
  /-- The unlock increment `u` of the last write is pending. -/
  | unlocking (u : Updater) : s.bucketUpdaters b = [u] → s.versions b % 2 = 1 →
      (∀ c, (s.cores c).pc.lockOn b = none) → (∀ c, reservedOn cfg (s.cores c).pc b = false) →
      BucketPhase s b

/-- **The bucket-lock invariant.** -/
structure LockInv (s : Sim) : Prop where
  idsNodup : (s.updaters.map Updater.id).Nodup
  idsBelow : ∀ u ∈ s.updaters, u.id < s.nextUpdater
  cores : ∀ c, PcOk cfg s (s.cores c)
  phase : ∀ b, BucketPhase cfg s b
  /-- Only the queues' workers hold buckets. -/
  inRange : ∀ b c, holdsFor cfg (s.cores c).pc b = true → c < cfg.bal.disp.numQueues
  /-- No two workers hold one bucket. -/
  excl : ∀ b c c', holdsFor cfg (s.cores c).pc b = true →
    holdsFor cfg (s.cores c').pc b = true → c = c'

variable {cfg}

/-! ## Lemmas on the parts -/

theorem owner_lt (b : Nat) : owner cfg b < cfg.bal.disp.numQueues :=
  Nat.mod_lt _ cfg.bal.disp.numQueues_pos

theorem holdsFor_of_lockOn {pc : CorePc} {b id : Nat} (h : pc.lockOn b = some id) :
    holdsFor cfg pc b = true := by
  simp [holdsFor, h]

theorem holdsFor_of_reservedOn {pc : CorePc} {b : Nat} (h : reservedOn cfg pc b = true) :
    holdsFor cfg pc b = true := by
  simp [holdsFor, h]

/-- A worker other than one holding `b` does not lock `b`. -/
theorem LockInv.lockOn_of_ne {s : Sim} (hi : LockInv cfg s) {b c c' : Nat}
    (hc : holdsFor cfg (s.cores c).pc b = true) (h : c' ≠ c) : (s.cores c').pc.lockOn b = none := by
  cases h' : (s.cores c').pc.lockOn b with
  | none => rfl
  | some id => exact absurd (hi.excl b c' c (holdsFor_of_lockOn h') hc) h

/-- A worker other than one holding `b` has not reserved `b`. -/
theorem LockInv.reservedOn_of_ne {s : Sim} (hi : LockInv cfg s) {b c c' : Nat}
    (hc : holdsFor cfg (s.cores c).pc b = true) (h : c' ≠ c) :
    reservedOn cfg (s.cores c').pc b = false := by
  cases h' : reservedOn cfg (s.cores c').pc b with
  | false => rfl
  | true => exact absurd (hi.excl b c' c (holdsFor_of_reservedOn h') hc) h

/-- A worker that holds bucket `b` has a write of `b` in its custody. -/
theorem LockInv.holds_unacked {s : Sim} (hi : LockInv cfg s) {c b : Nat}
    (h : holdsFor cfg (s.cores c).pc b = true) :
    ∃ r ∈ s.unacked c, r.isWrite = true ∧ index cfg r = b := by
  have hok := hi.cores c
  simp only [holdsFor, Bool.or_eq_true, Option.isSome_iff_exists] at h
  rcases h with ⟨id, h⟩ | h
  · obtain ⟨r, due, k, hpc⟩ := CorePc.lockOn_eq_some.mp h
    rw [PcOk, hpc] at hok
    exact ⟨r, by simp [Sim.unacked, Core.unacked, hpc, CorePc.taken], hok.2.2.1, hok.2.1.symm⟩
  · unfold reservedOn at h
    split at h
    · rename_i r due key hpc
      rw [PcOk, hpc] at hok
      obtain ⟨hw, l, hget⟩ := hok
      refine ⟨r, ?_, hw, beq_iff_eq.mp h⟩
      have hm := OrderedDict.mem_of_get?_eq_some hget
      simp only [Sim.unacked, Core.unacked, hpc, CorePc.taken, CorePc.responding, batchesExcept,
        List.mem_append, List.mem_flatMap]
      exact .inl (.inl (.inr (.inr ⟨_, hm, by simp⟩)))
    · rename_i r due key rest final hpc
      rw [PcOk, hpc] at hok
      exact ⟨final, by simp [Sim.unacked, Core.unacked, hpc, CorePc.taken], hok,
        beq_iff_eq.mp h⟩
    · cases h

theorem perm_cons_eraseIdx {l : List Updater} {i : Nat} {u : Updater} (h : l[i]? = some u) :
    l.Perm (u :: l.eraseIdx i) := by
  obtain ⟨hi, rfl⟩ := List.getElem?_eq_some_iff.mp h
  have hl : l = l.take i ++ l[i] :: l.drop (i + 1) := by
    rw [← List.drop_eq_getElem_cons hi, List.take_append_drop]
  rw [List.eraseIdx_eq_take_drop_succ]
  exact (List.Perm.of_eq hl).trans List.perm_middle

theorem PcOk.mono {s s' : Sim} {k : Core} (h : PcOk cfg s k)
    (hv : ∀ b, s.versions b ≤ s'.versions b) (hn : s.nextUpdater ≤ s'.nextUpdater)
    (hu : ∀ u ∈ s'.updaters, u ∈ s.updaters ∨ s.nextUpdater ≤ u.id) : PcOk cfg s' k := by
  unfold PcOk at h ⊢
  split at h
  · refine ⟨lt_of_lt_of_le h.1 hn, h.2.1, h.2.2.1, fun u hu' hid => ?_⟩
    rcases hu u hu' with hu' | hge
    · exact h.2.2.2 u hu' hid
    · exact absurd (hid ▸ hge) (not_le.mpr h.1)
  · exact h
  · exact ⟨h.1, h.2.trans (hv _)⟩
  all_goals exact h

/-- A phase carries over when the bucket's updaters, its version and the workers' locks are
the same, and the workers reserve the bucket only where they did. -/
theorem BucketPhase.transfer {s s' : Sim} {b : Nat} (h : BucketPhase cfg s b)
    (hbu : (s'.bucketUpdaters b).Perm (s.bucketUpdaters b)) (hv : s'.versions b = s.versions b)
    (hl : ∀ c, (s'.cores c).pc.lockOn b = (s.cores c).pc.lockOn b)
    (hres : s.versions b % 2 = 1 → ∀ c, reservedOn cfg (s'.cores c).pc b = true →
      reservedOn cfg (s.cores c).pc b = true)
    (hp : ∀ c id, (s.cores c).pc.lockOn b = some id → s.pending id = false →
      s'.pending id = false) :
    BucketPhase cfg s' b := by
  rcases h with ⟨h₁, h₂, h₃⟩ | ⟨u, c, h₁, h₂, h₃⟩ | ⟨id, c, h₁, h₂, h₃, h₄⟩ | ⟨u, h₁, h₂, h₃, h₄⟩
  · exact .idle (h₁ ▸ hbu).eq_nil (hv ▸ h₂) fun c => (hl c).trans (h₃ c)
  · exact .locking u c (List.perm_singleton.mp (h₁ ▸ hbu)) (hv ▸ h₂) ((hl c).trans h₃)
  · exact .locked id c (h₁ ▸ hbu).eq_nil (hv ▸ h₂) ((hl c).trans h₃) (hp c id h₃ h₄)
  · refine .unlocking u (List.perm_singleton.mp (h₁ ▸ hbu)) (hv ▸ h₂)
      (fun c => (hl c).trans (h₃ c)) fun c => ?_
    cases h' : reservedOn cfg (s'.cores c).pc b
    · rfl
    · have := h₄ c
      rw [hres h₂ c h'] at this
      cases this

/-- **Holding carries over a step of worker `c`** that leaves the other workers' suspension
points alone, when every bucket `c` holds afterwards it held before or was free to take. -/
theorem LockInv.holds_step {s s' : Sim} (hi : LockInv cfg s) {c : Nat}
    (hc : ∀ c', c' ≠ c → s'.cores c' = s.cores c')
    (hhold : ∀ b, holdsFor cfg (s'.cores c).pc b = true →
      holdsFor cfg (s.cores c).pc b = true ∨ Free cfg s c b) :
    (∀ b c', holdsFor cfg (s'.cores c').pc b = true → c' < cfg.bal.disp.numQueues) ∧
      ∀ b c₁ c₂, holdsFor cfg (s'.cores c₁).pc b = true →
        holdsFor cfg (s'.cores c₂).pc b = true → c₁ = c₂ := by
  have side : ∀ b c', c' ≠ c → holdsFor cfg (s'.cores c).pc b = true →
      holdsFor cfg (s'.cores c').pc b = true → False := fun b c' h' h₁ h₂ => by
    rw [hc c' h'] at h₂
    rcases hhold b h₁ with h | ⟨-, h⟩
    · exact h' (hi.excl b c' c h₂ h)
    · rw [h c' h'] at h₂; cases h₂
  refine ⟨fun b c' h => ?_, fun b c₁ c₂ h₁ h₂ => ?_⟩
  · by_cases e : c' = c
    · rw [e] at h ⊢
      rcases hhold b h with h | ⟨hlt, -⟩
      exacts [hi.inRange b c h, hlt]
    · rw [hc c' e] at h
      exact hi.inRange b c' h
  · by_cases e₁ : c₁ = c <;> by_cases e₂ : c₂ = c
    · rw [e₁, e₂]
    · exact (side b c₂ e₂ (e₁ ▸ h₁) h₂).elim
    · exact (side b c₁ e₁ (e₂ ▸ h₂) h₁).elim
    · rw [hc c₁ e₁] at h₁
      rw [hc c₂ e₂] at h₂
      exact hi.excl b c₁ c₂ h₁ h₂

/-- The lock id of a write in `do_write_process` names no updater started after it. -/
theorem LockInv.lock_lt {s : Sim} (hi : LockInv cfg s) {c b id : Nat}
    (h : (s.cores c).pc.lockOn b = some id) : id < s.nextUpdater := by
  obtain ⟨r, due, k, hpc⟩ := CorePc.lockOn_eq_some.mp h
  have := hi.cores c
  rw [PcOk, hpc] at this
  exact this.1

/-- Starting updater `⟨s.nextUpdater, b₀, t⟩`. -/
theorem bucketUpdaters_append {s s' : Sim} {b₀ t : Nat}
    (hu : s'.updaters = s.updaters ++ [⟨s.nextUpdater, b₀, t⟩]) (b : Nat) :
    s'.bucketUpdaters b =
      s.bucketUpdaters b ++ if b₀ = b then [⟨s.nextUpdater, b₀, t⟩] else [] := by
  by_cases h : b₀ = b <;> simp [bucketUpdaters, hu, List.filter_append, h]

theorem pending_append {s s' : Sim} {b₀ t : Nat}
    (hu : s'.updaters = s.updaters ++ [⟨s.nextUpdater, b₀, t⟩]) {id : Nat}
    (hid : id < s.nextUpdater) : s'.pending id = s.pending id := by
  simp [pending, hu, Nat.ne_of_gt hid]

theorem ids_append {s s' : Sim} (hi : LockInv cfg s) {b₀ t : Nat}
    (hu : s'.updaters = s.updaters ++ [⟨s.nextUpdater, b₀, t⟩])
    (hn : s'.nextUpdater = s.nextUpdater + 1) :
    (s'.updaters.map Updater.id).Nodup ∧ ∀ u ∈ s'.updaters, u.id < s'.nextUpdater := by
  refine ⟨?_, fun u h => ?_⟩
  · rw [hu, List.map_append, List.nodup_append]
    refine ⟨hi.idsNodup, List.nodup_singleton _, ?_⟩
    intro x hx hy
    obtain ⟨u, hu, rfl⟩ := List.mem_map.mp hx
    simp only [List.map_cons, List.map_nil, List.mem_singleton] at hy
    have := hi.idsBelow u hu
    omega
  · rw [hu, List.mem_append, List.mem_singleton] at h
    rcases h with h | rfl
    · have := hi.idsBelow u h; omega
    · simp [hn]

theorem mono_append {s s' : Sim} {b₀ t : Nat}
    (hu : s'.updaters = s.updaters ++ [⟨s.nextUpdater, b₀, t⟩]) :
    ∀ u ∈ s'.updaters, u ∈ s.updaters ∨ s.nextUpdater ≤ u.id := fun u h => by
  rw [hu, List.mem_append, List.mem_singleton] at h
  rcases h with h | rfl
  exacts [.inl h, .inr le_rfl]

/-- Starting an updater of bucket `b₀` keeps the phase of every other bucket `b`, when worker
`c` keeps its lock on `b` and does not reserve it. -/
theorem LockInv.phase_append_of_ne {s s' : Sim} (hi : LockInv cfg s) {c b b₀ t : Nat}
    (hb : b₀ ≠ b) (hv : s'.versions = s.versions)
    (hu : s'.updaters = s.updaters ++ [⟨s.nextUpdater, b₀, t⟩])
    (hc : ∀ c', c' ≠ c → s'.cores c' = s.cores c')
    (hl : (s'.cores c).pc.lockOn b = (s.cores c).pc.lockOn b)
    (hr : reservedOn cfg (s'.cores c).pc b = false) : BucketPhase cfg s' b := by
  have hbu := bucketUpdaters_append hu b
  rw [if_neg hb, List.append_nil] at hbu
  refine (hi.phase b).transfer (.of_eq hbu) (by rw [hv]) (fun c' => ?_) (fun _ c' h' => ?_)
    (fun _ id h₃ h₄ => by rw [pending_append hu (hi.lock_lt h₃), h₄])
  · by_cases h : c' = c
    · rw [h, hl]
    · rw [hc c' h]
  · by_cases h : c' = c
    · rw [h, hr] at h'; cases h'
    · rwa [hc c' h] at h'

theorem lockInv_init : LockInv cfg (init cfg) where
  idsNodup := .nil
  idsBelow _ h := absurd h (List.not_mem_nil _)
  cores _ := trivial
  phase _ := .idle rfl rfl fun _ => rfl
  inRange _ _ h := by cases h
  excl _ _ _ h := by cases h

/-! ## The transitions of a bucket -/

/-- `s'` differs from `s` in the index fields only by worker `c`'s core. -/
structure IndexFrame (c : Nat) (s s' : Sim) : Prop where
  versions : s'.versions = s.versions
  updaters : s'.updaters = s.updaters
  nextUpdater : s'.nextUpdater = s.nextUpdater
  cores : ∀ c', c' ≠ c → s'.cores c' = s.cores c'

theorem IndexFrame.trans {c : Nat} {s₁ s₂ s₃ : Sim} (h₁ : IndexFrame c s₁ s₂)
    (h₂ : IndexFrame c s₂ s₃) : IndexFrame c s₁ s₃ :=
  ⟨h₂.versions.trans h₁.versions, h₂.updaters.trans h₁.updaters,
    h₂.nextUpdater.trans h₁.nextUpdater, fun c' h => (h₂.cores c' h).trans (h₁.cores c' h)⟩

theorem IndexFrame.refl (c : Nat) (s : Sim) : IndexFrame c s s := ⟨rfl, rfl, rfl, fun _ _ => rfl⟩

theorem IndexFrame.of_keeps {c : Nat} {s s' : Sim} (h : Keeps c s s')
    (hv : s'.versions = s.versions) (hu : s'.updaters = s.updaters)
    (hn : s'.nextUpdater = s.nextUpdater) : IndexFrame c s s' :=
  ⟨hv, hu, hn, h.cores⟩

/-- A worker moves between suspension points outside `do_write_process`; it reserves a
bucket only where it did or after finding its version even while the bucket was free. -/
theorem LockInv.move {s s' : Sim} (hi : LockInv cfg s) {c : Nat} (hf : IndexFrame c s s')
    (hl : ∀ b, (s.cores c).pc.lockOn b = none) (hl' : ∀ b, (s'.cores c).pc.lockOn b = none)
    (hres : ∀ b, reservedOn cfg (s'.cores c).pc b = true →
      reservedOn cfg (s.cores c).pc b = true ∨ s.versions b % 2 = 0 ∧ Free cfg s c b)
    (hok : PcOk cfg s' (s'.cores c)) : LockInv cfg s' := by
  obtain ⟨hv, hu, hn, hc⟩ := hf
  have hp : s'.pending = s.pending := by funext id; rw [pending, hu]; rfl
  obtain ⟨hrange, hexcl⟩ := hi.holds_step hc fun b h => by
    simp only [holdsFor, hl' b, Option.isSome_none, Bool.false_or] at h
    rcases hres b h with h' | ⟨-, h'⟩
    exacts [.inl (holdsFor_of_reservedOn h'), .inr h']
  refine ⟨hu ▸ hi.idsNodup, hu ▸ hn ▸ hi.idsBelow, fun c' => ?_, fun b => ?_, hrange, hexcl⟩
  · by_cases h : c' = c
    · exact h ▸ hok
    · rw [hc c' h]
      exact (hi.cores c').mono (fun b => by rw [hv]) hn.ge fun u hu' => .inl (hu ▸ hu')
  · refine (hi.phase b).transfer (by rw [bucketUpdaters, bucketUpdaters, hu]) (by rw [hv])
      (fun c' => ?_) (fun hodd c' h' => ?_) (fun _ id _ h => hp ▸ h)
    · by_cases h : c' = c
      · rw [h, hl, hl']
      · rw [hc c' h]
    · by_cases h : c' = c
      · rw [h] at h' ⊢
        exact (hres b h').resolve_right fun h => by omega
      · rwa [hc c' h] at h'

/-- **A worker starts `do_write_process` on bucket `b₀`**, which it was free to take, after
finding its version even or having reserved it: the bucket goes from idle to locking. -/
theorem LockInv.dwpStart {s s' : Sim} (hi : LockInv cfg s) {c : Nat} {r : RPCRequest}
    {due t : Nat} {k : AfterWrite} (hv : s'.versions = s.versions)
    (hu : s'.updaters = s.updaters ++ [⟨s.nextUpdater, index cfg r, t⟩])
    (hn : s'.nextUpdater = s.nextUpdater + 1) (hc : ∀ c', c' ≠ c → s'.cores c' = s.cores c')
    (hl : ∀ b, (s.cores c).pc.lockOn b = none)
    (hpc' : (s'.cores c).pc = .serve r due (.unlock s.nextUpdater (index cfg r) k))
    (hw : r.isWrite = true) (hfree : Free cfg s c (index cfg r))
    (hgo : s.versions (index cfg r) % 2 = 0 ∨ reservedOn cfg (s.cores c).pc (index cfg r) = true) :
    LockInv cfg s' := by
  have hnolock : ∀ c' id, (s.cores c').pc.lockOn (index cfg r) ≠ some id := fun c' id h => by
    by_cases e : c' = c
    · rw [e, hl] at h; cases h
    · have := hfree.2 c' e
      rw [holdsFor_of_lockOn h] at this
      cases this
  have hidle : s.bucketUpdaters (index cfg r) = [] ∧ s.versions (index cfg r) % 2 = 0 := by
    rcases hi.phase (index cfg r) with ⟨h₁, h₂, -⟩ | ⟨u, c', -, -, h₃⟩ | ⟨id, c', -, -, h₃, -⟩ |
      ⟨u, -, h₂, -, h₄⟩
    · exact ⟨h₁, h₂⟩
    · exact absurd h₃ (hnolock c' _)
    · exact absurd h₃ (hnolock c' _)
    · rcases hgo with h | h
      · omega
      · rw [h₄ c] at h; cases h
  have hl' : ∀ b, (s'.cores c).pc.lockOn b = if index cfg r = b then some s.nextUpdater else none :=
    fun b => by rw [hpc']; rfl
  have hr' : ∀ b, reservedOn cfg (s'.cores c).pc b = false := fun b => by rw [hpc']; rfl
  obtain ⟨hnd, hbelow⟩ := ids_append hi hu hn
  obtain ⟨hrange, hexcl⟩ := hi.holds_step hc fun b h => by
    simp only [holdsFor, hl', hr', Bool.or_false, Option.isSome_iff_ne_none, ne_eq,
      ite_eq_right_iff, reduceCtorEq, imp_false, not_not] at h
    exact .inr (h ▸ hfree)
  refine ⟨hnd, hbelow, fun c' => ?_, fun b => ?_, hrange, hexcl⟩
  · by_cases h : c' = c
    · subst h
      rw [PcOk, hpc']
      refine ⟨by omega, rfl, hw, fun u hu' hid => ?_⟩
      rw [hu, List.mem_append, List.mem_singleton] at hu'
      rcases hu' with hu' | rfl
      · have := hi.idsBelow u hu'; omega
      · rfl
    · rw [hc c' h]
      exact (hi.cores c').mono (fun b => by rw [hv]) (by omega) (mono_append hu)
  · by_cases hb : index cfg r = b
    · subst hb
      have hbu := bucketUpdaters_append hu (index cfg r)
      rw [if_pos rfl, hidle.1] at hbu
      exact .locking _ c hbu (hv ▸ hidle.2) (by rw [hl', if_pos rfl])
    · exact hi.phase_append_of_ne hb hv hu hc (by rw [hl', if_neg hb, hl]) (hr' b)

/-- **A write ends its service time with its lock increment fired** and starts its unlock
increment: the bucket goes from locked to unlocking. -/
theorem LockInv.unlockStart {s s' : Sim} (hi : LockInv cfg s) {c : Nat} {r : RPCRequest}
    {due id b₀ t : Nat} {k : AfterWrite}
    (hpc : (s.cores c).pc = .serve r due (.unlock id b₀ k)) (hp : s.pending id = false)
    (hv : s'.versions = s.versions) (hu : s'.updaters = s.updaters ++ [⟨s.nextUpdater, b₀, t⟩])
    (hn : s'.nextUpdater = s.nextUpdater + 1) (hc : ∀ c', c' ≠ c → s'.cores c' = s.cores c')
    (hl' : ∀ b, (s'.cores c).pc.lockOn b = none)
    (hr' : ∀ b, reservedOn cfg (s'.cores c).pc b = false) (hok : PcOk cfg s' (s'.cores c)) :
    LockInv cfg s' := by
  have hl : ∀ b, (s.cores c).pc.lockOn b = if b₀ = b then some id else none :=
    fun b => by rw [hpc]; rfl
  have hheld : holdsFor cfg (s.cores c).pc b₀ = true := holdsFor_of_lockOn (by rw [hl, if_pos rfl])
  obtain ⟨hnd, hbelow⟩ := ids_append hi hu hn
  obtain ⟨hrange, hexcl⟩ := hi.holds_step hc fun b h => by
    simp [holdsFor, hl', hr'] at h
  refine ⟨hnd, hbelow, fun c' => ?_, fun b => ?_, hrange, hexcl⟩
  · by_cases h : c' = c
    · exact h ▸ hok
    · rw [hc c' h]
      exact (hi.cores c').mono (fun b => by rw [hv]) (by omega) (mono_append hu)
  · by_cases hb : b₀ = b
    · subst hb
      have hbu := bucketUpdaters_append hu b₀
      rw [if_pos rfl] at hbu
      rcases hi.phase b₀ with ⟨-, -, h₃⟩ | ⟨u, c', h₁, -, h₃⟩ | ⟨id', c', h₁, h₂, -, -⟩ |
        ⟨u, -, -, h₃, -⟩
      · have := h₃ c
        rw [hl, if_pos rfl] at this
        cases this
      · have hcc := hi.excl b₀ c' c (holdsFor_of_lockOn h₃) hheld
        subst hcc
        rw [hl, if_pos rfl, Option.some.injEq] at h₃
        have hu' : u ∈ s.updaters := List.mem_of_mem_filter (h₁ ▸ List.mem_singleton_self u)
        rw [pending, List.any_eq_false] at hp
        exact absurd (by rw [h₃]; exact beq_self_eq_true _) (hp u hu')
      · rw [h₁] at hbu
        refine .unlocking _ hbu (hv ▸ h₂) (fun c' => ?_) fun c' => ?_
        · by_cases h : c' = c
          · rw [h]; exact hl' b₀
          · rw [hc c' h]; exact hi.lockOn_of_ne hheld h
        · by_cases h : c' = c
          · rw [h]; exact hr' b₀
          · rw [hc c' h]; exact hi.reservedOn_of_ne hheld h
      · have := h₃ c
        rw [hl, if_pos rfl] at this
        cases this
    · exact hi.phase_append_of_ne hb hv hu hc (by rw [hl', hl, if_neg hb]) (hr' b)

/-- An increment succeeds the events of the workers spinning on its bucket, and changes no
other suspension point. -/
theorem wake_pc (b : Nat) (k : Core) :
    (wake cfg b k).pc = k.pc ∨ ∃ r w, k.pc = .spin r w ∧ (wake cfg b k).pc = .spin r true := by
  unfold wake
  split
  · rename_i r w hpc
    split
    · exact .inr ⟨r, w, hpc, rfl⟩
    · exact .inl rfl
  · exact .inl rfl

theorem wake_lockOn (b' b : Nat) (k : Core) : (wake cfg b' k).pc.lockOn b = k.pc.lockOn b := by
  rcases wake_pc b' k with h | ⟨r, w, h, h'⟩
  · rw [h]
  · rw [h, h']; rfl

theorem wake_reservedOn (b' b : Nat) (k : Core) :
    reservedOn cfg (wake cfg b' k).pc b = reservedOn cfg k.pc b := by
  rcases wake_pc b' k with h | ⟨r, w, h, h'⟩
  · rw [h]
  · rw [h, h']; rfl

theorem wake_holdsFor (b' b : Nat) (k : Core) :
    holdsFor cfg (wake cfg b' k).pc b = holdsFor cfg k.pc b := by
  rw [holdsFor, holdsFor, wake_lockOn, wake_reservedOn]

theorem PcOk.wake {s : Sim} {k : Core} (b : Nat) (h : PcOk cfg s k) : PcOk cfg s (wake cfg b k) := by
  rcases wake_pc b k with hw | ⟨r, w, -, hw⟩
  · unfold PcOk at h ⊢
    rw [hw, (wake_unacked b k).2]
    exact h
  · unfold PcOk
    rw [hw]
    trivial

/-- **An updater of bucket `b` fires**: a lock increment takes `b` from locking to locked, an
unlock increment from unlocking to idle. -/
theorem LockInv.fire {s : Sim} (hi : LockInv cfg s) {i : Nat} {u : Updater}
    (hu : s.updaters[i]? = some u) : LockInv cfg (fireUpdater cfg s i u) := by
  have hperm : s.updaters.Perm (u :: (fireUpdater cfg s i u).updaters) := perm_cons_eraseIdx hu
  have hsub : (fireUpdater cfg s i u).updaters ⊆ s.updaters := List.eraseIdx_subset _ _
  have hfresh : (fireUpdater cfg s i u).pending u.id = false := by
    have hnd := (hperm.map Updater.id).nodup_iff.mp hi.idsNodup
    rw [List.map_cons, List.nodup_cons, List.mem_map] at hnd
    simpa [pending] using fun x hx h => hnd.1 ⟨x, hx, h⟩
  have hv : ∀ b, (fireUpdater cfg s i u).versions b =
      s.versions b + if u.bucket = b then 1 else 0 := fun b => by
    by_cases h : u.bucket = b
    · subst h; simp [fireUpdater]
    · simp [fireUpdater, Function.update_noteq (Ne.symm h), h]
  have hbu : ∀ b, (s.bucketUpdaters b).Perm
      ((if u.bucket = b then [u] else []) ++ (fireUpdater cfg s i u).bucketUpdaters b) :=
    fun b => by
      have := hperm.filter (·.bucket == b)
      by_cases h : u.bucket = b <;> simpa [List.filter_cons, h, bucketUpdaters] using this
  have hp : ∀ id, s.pending id = false → (fireUpdater cfg s i u).pending id = false :=
    fun id h => by
      simp only [pending, List.any_eq_false] at h ⊢
      exact fun x hx => h x (hsub hx)
  have hl : ∀ b c, ((fireUpdater cfg s i u).cores c).pc.lockOn b = (s.cores c).pc.lockOn b :=
    fun _ _ => wake_lockOn _ _ _
  have hh : ∀ b c, holdsFor cfg ((fireUpdater cfg s i u).cores c).pc b =
      holdsFor cfg (s.cores c).pc b := fun _ _ => wake_holdsFor _ _ _
  refine ⟨hi.idsNodup.sublist ((List.eraseIdx_sublist _ _).map _),
    fun u' h => hi.idsBelow u' (hsub h), fun c => ?_, fun b => ?_,
    fun b c h => hi.inRange b c (hh b c ▸ h), fun b c c' h h' => hi.excl b c c' (hh b c ▸ h)
      (hh b c' ▸ h')⟩
  · have h : PcOk cfg (fireUpdater cfg s i u) (s.cores c) :=
      (hi.cores c).mono (fun b => by rw [hv]; omega) le_rfl fun u' h => .inl (hsub h)
    exact h.wake _
  · by_cases hb : u.bucket = b
    · have hbu := hbu b
      rw [if_pos hb] at hbu
      rcases hi.phase b with ⟨h₁, -, -⟩ | ⟨u', c, h₁, h₂, h₃⟩ | ⟨id, c, h₁, -, -, -⟩ |
        ⟨u', h₁, h₂, h₃, -⟩
      · rw [h₁] at hbu; exact absurd hbu.length_eq (by simp)
      · rw [h₁] at hbu
        obtain ⟨rfl, hX⟩ : u = u' ∧ (fireUpdater cfg s i u).bucketUpdaters b = [] := by
          simpa using List.perm_singleton.mp hbu.symm
        exact .locked u.id c hX (by rw [hv, if_pos hb]; omega) ((hl b c).trans h₃) hfresh
      · rw [h₁] at hbu; exact absurd hbu.length_eq (by simp)
      · rw [h₁] at hbu
        obtain ⟨-, hX⟩ : u = u' ∧ (fireUpdater cfg s i u).bucketUpdaters b = [] := by
          simpa using List.perm_singleton.mp hbu.symm
        exact .idle hX (by rw [hv, if_pos hb]; omega) fun c => (hl b c).trans (h₃ c)
    · refine (hi.phase b).transfer (by simpa [hb] using (hbu b).symm) (by rw [hv, if_neg hb]; rfl)
        (hl b) (fun _ c h' => (wake_reservedOn _ _ _).symm.trans h') (fun _ id _ h => hp id h)

/-! ## The worker's steps -/

theorem PcOk.of_core {s : Sim} {k k' : Core} (h : PcOk cfg s k) (hpc : k'.pc = k.pc)
    (hb : k'.batchMap = k.batchMap) : PcOk cfg s k' := by
  unfold PcOk at h ⊢
  rw [hpc, hb]
  exact h

/-- The invariant reads only the index, the updaters and the workers' suspension points and
batches. -/
theorem LockInv.of_eq {s s' : Sim} (hi : LockInv cfg s) (hv : s'.versions = s.versions)
    (hu : s'.updaters = s.updaters) (hn : s'.nextUpdater = s.nextUpdater)
    (hc : ∀ c, (s'.cores c).pc = (s.cores c).pc ∧ (s'.cores c).batchMap = (s.cores c).batchMap) :
    LockInv cfg s' := by
  have hp : s'.pending = s.pending := by funext id; rw [pending, hu]; rfl
  refine ⟨hu ▸ hi.idsNodup, hu ▸ hn ▸ hi.idsBelow, fun c => ?_, fun b => ?_,
    fun b c h => hi.inRange b c ((hc c).1 ▸ h),
    fun b c c' h h' => hi.excl b c c' ((hc c).1 ▸ h) ((hc c').1 ▸ h')⟩
  · have h : PcOk cfg s' (s.cores c) :=
      (hi.cores c).mono (fun b => by rw [hv]) hn.ge fun u h => .inl (hu ▸ h)
    exact h.of_core (hc c).1 (hc c).2
  · refine (hi.phase b).transfer (by rw [bucketUpdaters, bucketUpdaters, hu]) (by rw [hv])
      (fun c => by rw [(hc c).1]) (fun _ c h => by rwa [(hc c).1] at h) (fun _ id _ h => hp ▸ h)

theorem LockInv.raise {s : Sim} (hi : LockInv cfg s) (c : Nat) (f : WorkerFault) :
    LockInv cfg (Sim.raise s c f) :=
  hi.of_eq rfl rfl rfl fun _ => ⟨rfl, rfl⟩

/-- A worker at the top of its loop or spinning runs the version check of the concurrent
path; a write goes on only if its bucket's version is even. -/
theorem LockInv.doWriteProcess {s : Sim} (hi : LockInv cfg s) {c : Nat} {r : RPCRequest}
    (k : AfterWrite) (hl : ∀ b, (s.cores c).pc.lockOn b = none) (hw : r.isWrite = true)
    (hfree : Free cfg s c (index cfg r))
    (hgo : s.versions (index cfg r) % 2 = 0 ∨ reservedOn cfg (s.cores c).pc (index cfg r) = true) :
    LockInv cfg (Sim.doWriteProcess cfg s c r (index cfg r) k) :=
  hi.dwpStart rfl rfl rfl (keeps_doWriteProcess s c r _ k).cores hl
    (by rw [doWriteProcess_cores_self]) hw hfree hgo

theorem LockInv.beginWrite {s : Sim} (hi : LockInv cfg s) {c : Nat} {r : RPCRequest}
    (hl : ∀ b, (s.cores c).pc.lockOn b = none) (hw : r.isWrite = true)
    (hfree : Free cfg s c (index cfg r)) (he : s.versions (index cfg r) % 2 = 0) :
    LockInv cfg (Sim.beginWrite cfg s c r) := by
  unfold Sim.beginWrite
  dsimp only
  split
  · split
    · rename_i l hget
      refine hi.move (.of_keeps ((keeps_stamp c s _ _).trans (keeps_setCore _ c _)) rfl rfl rfl)
        hl (fun _ => by simp [CorePc.lockOn]) (fun b h => .inr ?_) ?_
      · simp only [setCore_cores_self, reservedOn, beq_iff_eq] at h
        exact h ▸ ⟨he, hfree⟩
      · simp only [PcOk, setCore_cores_self, OrderedDict.get?_set, if_pos rfl]
        exact ⟨hw, l, rfl⟩
    · split
      · exact hi.move (.of_keeps ((keeps_stamp c s _ _).trans (keeps_setCore _ c _)) rfl rfl rfl)
          hl (fun _ => by simp [CorePc.lockOn]) (fun b h => by simp [reservedOn] at h)
          (by simp [PcOk])
      · exact hi.doWriteProcess _ hl hw hfree (.inl he)
  · exact hi.doWriteProcess _ hl hw hfree (.inl he)

theorem LockInv.checkVersion {s : Sim} (hi : LockInv cfg s) {c : Nat} {r : RPCRequest}
    (hl : ∀ b, (s.cores c).pc.lockOn b = none)
    (hfree : r.isWrite = true → Free cfg s c (index cfg r)) :
    LockInv cfg (Sim.checkVersion cfg s c r) := by
  unfold Sim.checkVersion
  dsimp only
  split
  · exact hi.move (.of_keeps ((keeps_stamp c s _ _).trans (keeps_setPc _ c _)) rfl rfl rfl) hl
      (fun _ => by simp [CorePc.lockOn]) (fun b h => by simp [reservedOn] at h) (by simp [PcOk])
  · rename_i hodd
    have he : s.versions (index cfg r) % 2 = 0 := by
      simp only [isOdd, beq_iff_eq] at hodd; omega
    split
    · exact hi.beginWrite hl ‹_› (hfree ‹_›) he
    · exact hi.move (.of_keeps (keeps_serveDrawn s c r _) rfl rfl rfl) hl
        (fun _ => by simp [CorePc.lockOn]) (fun b h => by simp [reservedOn] at h)
        (by simp only [PcOk, serveDrawn_cores_self]; exact ⟨he, le_rfl⟩)

/-- A worker returns to the top of its loop from outside `do_write_process`. -/
theorem LockInv.loopTop {s s₁ : Sim} (hi : LockInv cfg s) {c : Nat} (hf : IndexFrame c s s₁)
    (hl : ∀ b, (s.cores c).pc.lockOn b = none) : LockInv cfg (Sim.loopTop s₁ c) := by
  have hpc : ((Sim.loopTop s₁ c).cores c).pc = .stopped ∨
      ((Sim.loopTop s₁ c).cores c).pc = .getWait := by
    rw [loopTop_cores_self]; split <;> simp
  refine hi.move (hf.trans (.of_keeps (keeps_loopTop s₁ c) rfl rfl rfl)) hl ?_ ?_ ?_ <;>
    rcases hpc with h | h <;> simp only [h, CorePc.lockOn, reservedOn, PcOk] <;> simp

/-- A worker starts `req_completion_logic` of a request it does not hold a bucket for. -/
theorem LockInv.startCompletion {s s₁ : Sim} (hi : LockInv cfg s) {c : Nat}
    (hf : IndexFrame c s s₁) (hl : ∀ b, (s.cores c).pc.lockOn b = none) (r : RPCRequest)
    {next : AfterCompletion} (hn : next = .loop ∨ ∃ key, next = .batchEnd key) :
    LockInv cfg (Sim.startCompletion cfg s₁ c r next) := by
  refine hi.move (hf.trans (.of_keeps (keeps_startCompletion s₁ c r next) rfl rfl rfl)) hl ?_ ?_
    ?_ <;> rcases hn with rfl | ⟨key, rfl⟩ <;> simp [CorePc.lockOn, reservedOn, PcOk]

/-- The loop of `respond_to_batched_writes` on the batch whose final write `final` the worker
reserved: complete the next request, or write `final`. -/
theorem LockInv.batchNext {s s₁ : Sim} (hi : LockInv cfg s) {c key : Nat}
    {rest : List RPCRequest} {final : RPCRequest} (hf : IndexFrame c s s₁)
    (hl : ∀ b, (s.cores c).pc.lockOn b = none)
    (hres : reservedOn cfg (s.cores c).pc (index cfg final) = true)
    (hw : final.isWrite = true) : LockInv cfg (Sim.batchNext cfg s₁ c key rest final) := by
  have hheld := holdsFor_of_reservedOn hres
  cases rest with
  | cons r rest =>
    show LockInv cfg (Sim.startCompletion cfg s₁ c r (.batchNext key rest final))
    refine hi.move (hf.trans (.of_keeps (keeps_startCompletion s₁ c r _) rfl rfl rfl)) hl
      (fun _ => by simp [CorePc.lockOn]) (fun b h => .inl ?_) (by simpa [PcOk] using hw)
    simp only [startCompletion_cores_self, reservedOn, beq_iff_eq] at h
    exact h ▸ hres
  | nil =>
    show LockInv cfg (Sim.doWriteProcess cfg s₁ c final (index cfg final) (.batch key))
    have hfree : Free cfg s c (index cfg final) := ⟨hi.inRange _ c hheld, fun c' h =>
      Bool.eq_false_iff.mpr fun h' => h (hi.excl _ c' c h' hheld)⟩
    exact hi.dwpStart hf.versions (by rw [← hf.updaters, ← hf.nextUpdater]; rfl)
      (by rw [← hf.nextUpdater]; rfl)
      (fun c' h => ((keeps_doWriteProcess s₁ c final _ _).cores c' h).trans (hf.cores c' h)) hl
      (by rw [doWriteProcess_cores_self, hf.nextUpdater]) hw hfree (.inr hres)

/-- `respond_to_batched_writes` pops the write that joined the batch last, which reserved its
bucket. -/
theorem LockInv.respondToBatchedWrites {s : Sim} (hi : LockInv cfg s) {c key due : Nat}
    {r : RPCRequest} (hpc : (s.cores c).pc = .serve r due (.followBatch key)) :
    LockInv cfg (Sim.respondToBatchedWrites cfg s c key) := by
  have hok := hi.cores c
  rw [PcOk, hpc] at hok
  obtain ⟨hw, l, hget⟩ := hok
  unfold Sim.respondToBatchedWrites
  dsimp only
  rw [hget]
  simp only [List.getLast?_concat]
  exact hi.batchNext (.of_keeps (keeps_setCore s c _) rfl rfl rfl) (fun b => by rw [hpc]; rfl)
    (by rw [hpc]; simp [reservedOn]) hw

/-- A service or compaction timeout expires. -/
theorem LockInv.serveEnd {s : Sim} (hi : LockInv cfg s) {c due : Nat} {r : RPCRequest}
    {next : AfterServe} (hpc : (s.cores c).pc = .serve r due next) :
    LockInv cfg (Sim.serveEnd cfg s c r next) := by
  have hok := hi.cores c
  rw [PcOk, hpc] at hok
  have hl : (∀ id b k, next ≠ .unlock id b k) → ∀ b, (s.cores c).pc.lockOn b = none :=
    fun h b => by
      rw [hpc]
      cases next with
      | unlock id b' k => exact absurd rfl (h id b' k)
      | _ => rfl
  cases next with
  | complete => exact hi.startCompletion (.refl c s) (hl nofun) r (.inl rfl)
  | recheck prev =>
    simp only [Sim.serveEnd]
    split
    · exact hi.move (.of_keeps ((keeps_stamp c s _ _).trans (keeps_serveDrawn _ c r _)) rfl rfl rfl)
        (hl nofun) (fun _ => by simp [CorePc.lockOn]) (fun b h => by simp [reservedOn] at h)
        (by simp [PcOk])
    · exact hi.startCompletion (.refl c s) (hl nofun) r (.inl rfl)
  | unlock id b k =>
    simp only [Sim.serveEnd]
    split
    · exact hi.raise c _
    · rename_i hp
      cases k <;>
      exact hi.unlockStart hpc (by simpa [pending] using hp) rfl rfl rfl
        (fun c' h => (keeps_startCompletion _ c r _).cores c' h)
        (fun _ => by simp [afterWrite, CorePc.lockOn]) (fun _ => by simp [afterWrite, reservedOn])
        (by simp [afterWrite, PcOk])
  | erewUnlock b => exact hok.elim
  | followBatch key =>
    simp only [Sim.serveEnd]
    split
    · exact hi.raise c _
    · exact hi.respondToBatchedWrites hpc
    · exact hi.loopTop (.refl c s) (hl nofun)
  | newBatch => exact hi.loopTop (.refl c s) (hl nofun)

theorem completionEnd_index (s : Sim) (c : Nat) (r : RPCRequest) :
    IndexFrame c s (completionEnd cfg s c r) := by
  refine ⟨?_, ?_, ?_, (completionEnd_local s c r).cores⟩ <;>
    (unfold completionEnd; dsimp only; split <;> rfl)

theorem LockInv.completionEnd {s : Sim} (hi : LockInv cfg s) (c : Nat) (r : RPCRequest) :
    LockInv cfg (Sim.completionEnd cfg s c r) := by
  have hf := @completionEnd_index cfg s c r
  refine hi.of_eq hf.versions hf.updaters hf.nextUpdater fun c' => ?_
  by_cases h : c' = c
  · subst h; exact completionEnd_core s c' r
  · rw [hf.cores c' h]; exact ⟨rfl, rfl⟩

/-- `req_completion_logic` of a request ends, and its caller goes on. -/
theorem LockInv.afterCompletion {s : Sim} (hi : LockInv cfg s) {c due : Nat} {r : RPCRequest}
    {next : AfterCompletion} (hpc : (s.cores c).pc = .completion r due next) :
    LockInv cfg (Sim.afterCompletion cfg (Sim.completionEnd cfg s c r) c next) := by
  have hf := @completionEnd_index cfg s c r
  have hl : ∀ b, (s.cores c).pc.lockOn b = none := fun b => by rw [hpc]; rfl
  cases next with
  | loop => exact hi.loopTop hf hl
  | batchNext key rest final =>
    have hok := hi.cores c
    rw [PcOk, hpc] at hok
    exact hi.batchNext hf hl (by rw [hpc]; simp [reservedOn]) hok
  | batchEnd key =>
    simp only [Sim.afterCompletion]
    split
    · exact hi.loopTop (hf.trans (.of_keeps (keeps_setCore _ c _) rfl rfl rfl)) hl
    · exact (hi.completionEnd c r).raise c _

/-- A worker takes the next value of its store. Under CREW it checks the version of a request's
bucket. -/
theorem LockInv.takeRequest {s : Sim} (hi : LockInv cfg s) (hcrew : cfg.IsCrew) {c : Nat}
    {m : Msg} {rest : List Msg} (hpc : (s.cores c).pc = .getWait)
    (hfree : ∀ r, m = .req r → r.isWrite = true → Free cfg s c (index cfg r)) :
    LockInv cfg (Sim.takeRequest cfg { s with dispS := Function.update s.dispS c rest } c m) := by
  have hl : ∀ b, (s.cores c).pc.lockOn b = none := fun b => by rw [hpc]; rfl
  cases m with
  | endOfMeasurements =>
    exact hi.loopTop ⟨rfl, rfl, rfl, fun c' h => setCore_cores_ne _ _ h⟩ hl
  | req r =>
    simp only [Sim.takeRequest, Sim.startRequest, hcrew.erew, hcrew.disregardConf,
      Bool.false_eq_true, ↓reduceIte]
    refine LockInv.checkVersion ?_ hl (hfree r rfl)
    exact hi.of_eq rfl rfl rfl fun _ => ⟨rfl, rfl⟩

/-! ## The writes of a bucket are with one worker

Under JBSCREW the balancer puts a write on the queue `index % numQueues` of its bucket; under
dynamic JBSCREW on the queue its map names for the bucket, which is the only queue with
writes of the bucket outstanding. The refinement to the balancer's world carries this to
every request in a core's custody. -/

variable (cfg) in
/-- The writes in the workers' custody: they are with the queues' workers, and those of one
bucket are with one worker. -/
structure Routed (s : Sim) : Prop where
  lt : ∀ c r, r ∈ s.unacked c → r.isWrite = true → c < cfg.bal.disp.numQueues
  same : ∀ c c' r r', r ∈ s.unacked c → r' ∈ s.unacked c' → r.isWrite = true →
    r'.isWrite = true → index cfg r = index cfg r' → c = c'

theorem routed_reachable (hrt : cfg.WriteRouting) {s : Sim} (hs : Reachable cfg s)
    (hf : s.fault = none) : Routed cfg s := by
  obtain ⟨w, hw, hr⟩ := reachable_refines hs
  have hfl : ∀ c r, r ∈ s.unacked c → r ∈ w.inFlight c := fun c r h =>
    (hr.flight hf c).mem_iff.mpr h
  cases hrt with
  | jbscrew d hp =>
    have own : ∀ c r, r ∈ s.unacked c → r.isWrite = true → c = owner cfg (index cfg r) :=
      fun c r hm hwr => by
        obtain ⟨p, p', hsel⟩ := BalancerWorld.inFlightSelected_reachable hw c r (hfl c r hm)
        exact cfg.bal.disp.select_jbscrew_write hp hsel hwr
    exact ⟨fun c r hm hwr => own c r hm hwr ▸ owner_lt _,
      fun c c' r r' hm hm' hw₁ hw₂ hb => by rw [own c r hm hw₁, own c' r' hm' hw₂, hb]⟩
  | dynJbscrew d M hk hp hd hM =>
    obtain ⟨-, hi, -⟩ := BalancerWorld.ownInv_reachable hk hp hd hM hw
    have pos : ∀ c r, r ∈ s.unacked c → r.isWrite = true →
        0 < writesTo cfg.bal.numBuckets (index cfg r) (w.outstanding c) := fun c r hm hwr =>
      List.countP_pos_iff.mpr ⟨r, List.mem_append_right _ (hfl c r hm), by simp [hwr, index]⟩
    exact ⟨fun c r hm hwr => hi.lt_of_writes (pos c r hm hwr),
      fun c c' r r' hm hm' hw₁ hw₂ hb => hi.eq_of_writes (pos c r hm hw₁) (hb ▸ pos c' r' hm' hw₂)⟩

theorem mem_unacked_of_taken {s : Sim} {c : Nat} {r : RPCRequest}
    (h : r ∈ (s.cores c).pc.taken) : r ∈ s.unacked c := by
  simp [Sim.unacked, Core.unacked, h]

/-- A worker with write `r` in its custody is free to take `r`'s bucket. -/
theorem LockInv.free_of_unacked {s : Sim} (hi : LockInv cfg s) (hr : Routed cfg s) {c : Nat}
    {r : RPCRequest} (hm : r ∈ s.unacked c) (hw : r.isWrite = true) :
    Free cfg s c (index cfg r) := by
  refine ⟨hr.lt c r hm hw, fun c' h => Bool.eq_false_iff.mpr fun h' => h ?_⟩
  obtain ⟨r', hm', hw', hb⟩ := hi.holds_unacked h'
  exact hr.same c' c r' r hm' hm hw' hw hb

/-- **A worker step keeps the bucket protocol** when the writes of a bucket in custody are with
one worker. -/
theorem lockInv_coreStep (hcrew : cfg.IsCrew) {s s' : Sim} {c : Nat} (hi : LockInv cfg s)
    (hr : Routed cfg s) (h : coreStep cfg s c = some s') : LockInv cfg s' := by
  unfold coreStep at h
  split at h
  · rename_i hpc
    split at h
    · rename_i m rest hd
      cases h
      refine hi.takeRequest hcrew hpc fun r hm hw => hi.free_of_unacked hr ?_ hw
      simp [Sim.unacked, hd, hm, Msg.reqs]
    · cases h
  · rename_i r woken hpc
    split at h <;> cases h
    exact hi.checkVersion (fun b => by rw [hpc]; rfl)
      (hi.free_of_unacked hr (mem_unacked_of_taken (by simp [hpc, CorePc.taken])))
  · rename_i r due next hpc
    split at h <;> cases h
    exact hi.serveEnd hpc
  · rename_i r due next hpc
    split at h <;> cases h
    exact hi.afterCompletion hpc
  · cases h

/-- **Every step keeps the bucket protocol.** Only workers and updaters touch the index; the
processes that move messages leave it alone. -/
theorem lockInv_step (hcrew : cfg.IsCrew) {s s' : Sim} {a : SimAction} (hi : LockInv cfg s)
    (hr : s.fault = none → Routed cfg s) (h : step cfg a s = some s') : LockInv cfg s' := by
  have hsame : ∀ {s' : Sim}, s'.cores = s.cores → s'.versions = s.versions →
      s'.updaters = s.updaters → s'.nextUpdater = s.nextUpdater → LockInv cfg s' :=
    fun hc hv hu hn => hi.of_eq hv hu hn fun c => by rw [hc]; exact ⟨rfl, rfl⟩
  rcases step_cases h with ⟨-, hk⟩ | ⟨i, u, hu, -, rfl⟩ | ⟨hf, c, -, hc⟩ | ⟨-, -, -, -, -, rfl⟩ |
    ⟨-, -, -, -, -, rfl⟩ | ⟨-, o, -, rfl⟩
  · exact hsame hk.cores hk.versions hk.updaters hk.nextUpdater
  · exact hi.fire hu
  · exact lockInv_coreStep hcrew hi (hr hf) hc
  · exact hsame rfl rfl rfl rfl
  · exact hsame rfl rfl rfl rfl
  · rcases o with f | ⟨b, puts⟩
    · exact hsame rfl rfl rfl rfl
    · obtain ⟨dT, st, he, -⟩ := @dispatchPuts_eq cfg { s with bal := b } puts
      show LockInv cfg (dispatchPuts cfg { s with bal := b } puts)
      rw [he]
      exact hsame rfl rfl rfl rfl

/-- **The bucket protocol holds in every reachable state of a CREW or d-CREW pipeline.** -/
theorem lockInv_reachable (hcrew : cfg.IsCrew) {s : Sim} (hs : Reachable cfg s) :
    LockInv cfg s :=
  Reachable.induction cfg lockInv_init
    (fun hs hi h => lockInv_step hcrew hi (routed_reachable hcrew.routing hs) h) hs

end Sim

end QueueFlex
