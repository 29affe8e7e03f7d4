import QueueFlex.Pipeline.System

/-! # The requests in a worker's custody

A request dispatched to core `c` and not yet acknowledged in `pull_q` is, in this order: an
ack on the pull channel (`acksInTransit`), held by the worker (`Core.unacked`), in the core's
store, or on its channel (`inTransit`). `Sim.unacked s c` lists them.

A worker holds the requests its `run` loop and `respond_to_batched_writes` still have to
complete (`CorePc.taken`) and the batches of `batch_map`, except the batch being answered,
whose entries are then either acknowledged or listed by the loop.

`Local c s s'` says that `s'` differs from `s` only in what worker `c` may touch: its own
core and store, the index, the updaters, the stamps and the latency store, the generator's
interrupt flag, and acks of `c` appended to the pull channel. Every worker function is
`Local` (`coreStep_local`), and a worker step keeps `Sim.unacked s c` up to order
(`coreStep_unacked`). -/

namespace QueueFlex

/-- The requests among some messages, in order. -/
def reqsOf (l : List Msg) : List RPCRequest := l.flatMap Msg.reqs

@[simp] theorem reqsOf_nil : reqsOf [] = [] := rfl

@[simp] theorem reqsOf_cons (m : Msg) (l : List Msg) : reqsOf (m :: l) = m.reqs ++ reqsOf l :=
  rfl

@[simp] theorem reqsOf_append (l l' : List Msg) : reqsOf (l ++ l') = reqsOf l ++ reqsOf l' := by
  simp [reqsOf]

/-- The key of the batch `respond_to_batched_writes` is answering, if the worker is in it. -/
def CorePc.responding : CorePc → Option Nat
  | .serve _ _ (.unlock _ _ (.batch key)) => some key
  | .completion _ _ (.batchNext key _ _) => some key
  | .completion _ _ (.batchEnd key) => some key
  | _ => none

/-- The requests the worker's loop holds and has still to complete: the one it serves, or,
in `respond_to_batched_writes`, the one being completed, those left and the final write. A
write waiting out its compaction time is already in `batch_map`. -/
def CorePc.taken : CorePc → List RPCRequest
  | .getWait | .stopped => []
  | .spin r _ => [r]
  | .serve r _ next =>
    match next with
    | .followBatch _ | .newBatch => []
    | _ => [r]
  | .completion r _ next =>
    match next with
    | .batchNext _ rest final => r :: rest ++ [final]
    | _ => [r]

/-- The requests of the batches, or of the batches other than `key`. -/
def batchesExcept (d : OrderedDict (List RPCRequest)) : Option Nat → List RPCRequest
  | none => d.entries.flatMap Prod.snd
  | some key => (d.entries.filter fun e => e.1 != key).flatMap Prod.snd

/-! ## Batches -/

theorem batchesExcept_perm_of_get? {d : OrderedDict (List RPCRequest)} {k : Nat}
    {v : List RPCRequest} (h : d.get? k = some v) :
    (batchesExcept d none).Perm (v ++ batchesExcept d (some k)) :=
  OrderedDict.flatMap_perm_of_get? h

theorem batchesExcept_set (d : OrderedDict (List RPCRequest)) (k : Nat) (v : List RPCRequest) :
    batchesExcept (d.set k v) (some k) = batchesExcept d (some k) := by
  simp only [batchesExcept, OrderedDict.filter_set]

theorem batchesExcept_set_new {d : OrderedDict (List RPCRequest)} {k : Nat}
    (h : d.get? k = none) (v : List RPCRequest) :
    batchesExcept (d.set k v) none = batchesExcept d none ++ v := by
  unfold batchesExcept OrderedDict.set
  rw [dif_neg (OrderedDict.get?_eq_none_iff.mp h)]
  simp

theorem batchesExcept_erase (d : OrderedDict (List RPCRequest)) (k : Nat) :
    batchesExcept (d.erase k) none = batchesExcept d (some k) := by
  simp only [batchesExcept, OrderedDict.erase_entries]

theorem batchesExcept_nil {d : OrderedDict (List RPCRequest)} (h : d.entries = [])
    (k : Option Nat) : batchesExcept d k = [] := by
  cases k <;> simp [batchesExcept, h]

/-- The requests a worker holds and has not acknowledged. -/
def Core.unacked (k : Core) : List RPCRequest :=
  k.pc.taken ++ batchesExcept k.batchMap k.pc.responding

namespace Sim

/-- The requests on core `c`'s channel, oldest first. -/
def inTransit (s : Sim) (c : Nat) : List RPCRequest := reqsOf ((s.dispT c).map Prod.snd)

/-- The requests whose ack from core `c` is on the pull channel, oldest first. -/
def acksInTransit (s : Sim) (c : Nat) : List RPCRequest :=
  ((s.pullT.map Prod.snd).filter fun pr => pr.procId = c).map PullFeedbackRequest.reqCompleted

/-- The requests dispatched to core `c` whose ack has not reached `pull_q`. -/
def unacked (s : Sim) (c : Nat) : List RPCRequest :=
  s.acksInTransit c ++ (s.cores c).unacked ++ reqsOf (s.dispS c) ++ s.inTransit c

/-! ## What a worker step touches -/

/-- The fault after a step of worker `c`: the one before, or an assertion of worker `c`. -/
def RaisedBy (c : Nat) (o o' : Option SimFault) : Prop := o' = o ∨ ∃ f, o' = some (.worker c f)

theorem RaisedBy.trans {c : Nat} {o₁ o₂ o₃ : Option SimFault} (h₁ : RaisedBy c o₁ o₂)
    (h₂ : RaisedBy c o₂ o₃) : RaisedBy c o₁ o₃ := by
  rcases h₂ with rfl | h₂
  exacts [h₁, .inr h₂]

/-- `s'` differs from `s` only in what worker `c` may change. -/
structure Local (c : Nat) (s s' : Sim) : Prop where
  bal : s'.bal = s.bal
  evT : s'.evT = s.evT
  dispT : s'.dispT = s.dispT
  dispS : ∀ c', c' ≠ c → s'.dispS c' = s.dispS c'
  cores : ∀ c', c' ≠ c → s'.cores c' = s.cores c'
  now : s'.now = s.now
  pullT : ∃ l, s'.pullT = s.pullT ++ l ∧ ∀ p ∈ l, p.2.procId = c
  fault : RaisedBy c s.fault s'.fault
  versions : ∀ b, s.versions b ≤ s'.versions b

theorem Local.refl (c : Nat) (s : Sim) : Local c s s :=
  ⟨rfl, rfl, rfl, fun _ _ => rfl, fun _ _ => rfl, rfl, ⟨[], by simp, by simp⟩, .inl rfl,
    fun _ => le_rfl⟩

theorem Local.trans {c : Nat} {s₁ s₂ s₃ : Sim} (h₁ : Local c s₁ s₂) (h₂ : Local c s₂ s₃) :
    Local c s₁ s₃ := by
  obtain ⟨l₁, hp₁, hl₁⟩ := h₁.pullT
  obtain ⟨l₂, hp₂, hl₂⟩ := h₂.pullT
  refine ⟨h₂.bal.trans h₁.bal, h₂.evT.trans h₁.evT, h₂.dispT.trans h₁.dispT,
    fun c' h => (h₂.dispS c' h).trans (h₁.dispS c' h),
    fun c' h => (h₂.cores c' h).trans (h₁.cores c' h), h₂.now.trans h₁.now,
    ⟨l₁ ++ l₂, by rw [hp₂, hp₁, List.append_assoc], fun p hp => ?_⟩, h₁.fault.trans h₂.fault,
    fun b => (h₁.versions b).trans (h₂.versions b)⟩
  rcases List.mem_append.mp hp with hp | hp
  exacts [hl₁ p hp, hl₂ p hp]

theorem Local.unacked {c c' : Nat} {s s' : Sim} (h : Local c s s') (hc : c' ≠ c) :
    s'.unacked c' = s.unacked c' := by
  obtain ⟨l, hp, hl⟩ := h.pullT
  have ha : s'.acksInTransit c' = s.acksInTransit c' := by
    simp only [acksInTransit, hp, List.map_append, List.filter_append, List.append_right_eq_self]
    simp only [List.map_eq_nil_iff, List.filter_eq_nil_iff, List.mem_map, decide_eq_true_eq]
    rintro _ ⟨p, hp', rfl⟩ h'
    exact hc (h' ▸ hl p hp')
  simp only [Sim.unacked, ha, h.cores c' hc, h.dispS c' hc, inTransit, h.dispT]

variable {cfg : SimConfig}

/-! ## Steps that keep the channels -/

/-- `s'` differs from `s` only in worker `c` and in fields no other process reads: a worker
step other than an ack. -/
structure Keeps (c : Nat) (s s' : Sim) : Prop where
  bal : s'.bal = s.bal
  evT : s'.evT = s.evT
  dispT : s'.dispT = s.dispT
  dispS : s'.dispS = s.dispS
  cores : ∀ c', c' ≠ c → s'.cores c' = s.cores c'
  now : s'.now = s.now
  pullT : s'.pullT = s.pullT
  fault : RaisedBy c s.fault s'.fault
  versions : ∀ b, s.versions b ≤ s'.versions b

theorem Keeps.trans {c : Nat} {s₁ s₂ s₃ : Sim} (h₁ : Keeps c s₁ s₂) (h₂ : Keeps c s₂ s₃) :
    Keeps c s₁ s₃ :=
  ⟨h₂.bal.trans h₁.bal, h₂.evT.trans h₁.evT, h₂.dispT.trans h₁.dispT, h₂.dispS.trans h₁.dispS,
    fun c' h => (h₂.cores c' h).trans (h₁.cores c' h), h₂.now.trans h₁.now,
    h₂.pullT.trans h₁.pullT, h₁.fault.trans h₂.fault, fun b => (h₁.versions b).trans (h₂.versions b)⟩

theorem Keeps.toLocal {c : Nat} {s s' : Sim} (h : Keeps c s s') : Local c s s' :=
  ⟨h.bal, h.evT, h.dispT, fun _ _ => by rw [h.dispS], h.cores, h.now,
    ⟨[], by simp [h.pullT], by simp⟩, h.fault, h.versions⟩

/-- Under `Keeps`, only the worker's own holding changes in its custody. -/
theorem Keeps.unacked_self {c : Nat} {s s' : Sim} (h : Keeps c s s') :
    s'.unacked c = s.acksInTransit c ++ (s'.cores c).unacked ++ reqsOf (s.dispS c) ++
      s.inTransit c := by
  simp only [Sim.unacked, acksInTransit, inTransit, h.pullT, h.dispS, h.dispT]

theorem keeps_stamp (c : Nat) (s : Sim) (u : Nat) (f : Stamps → Stamps) : Keeps c s (s.stamp u f) :=
  ⟨rfl, rfl, rfl, rfl, fun _ _ => rfl, rfl, rfl, .inl rfl, fun _ => le_rfl⟩

theorem keeps_setCore (s : Sim) (c : Nat) (k : Core) : Keeps c s (s.setCore c k) :=
  ⟨rfl, rfl, rfl, rfl, fun _ h => setCore_cores_ne s k h, rfl, rfl, .inl rfl, fun _ => le_rfl⟩

theorem keeps_raise (s : Sim) (c : Nat) (f : WorkerFault) : Keeps c s (raise s c f) :=
  ⟨rfl, rfl, rfl, rfl, fun _ _ => rfl, rfl, rfl, .inr ⟨f, rfl⟩, fun _ => le_rfl⟩

theorem keeps_startUpdater (c : Nat) (s : Sim) (b : Nat) : Keeps c s (startUpdater s b) :=
  ⟨rfl, rfl, rfl, rfl, fun _ _ => rfl, rfl, rfl, .inl rfl, fun _ => le_rfl⟩

/-- The EREW increments only raise versions. -/
theorem keeps_versions (c : Nat) (s : Sim) (b : Nat) :
    Keeps c s { s with versions := Function.update s.versions b (s.versions b + 1) } :=
  ⟨rfl, rfl, rfl, rfl, fun _ _ => rfl, rfl, rfl, .inl rfl, fun b' => by
    by_cases h : b' = b
    · subst h; simp
    · simp [Function.update_noteq h]⟩

theorem keeps_setPc (s : Sim) (c : Nat) (p : CorePc) : Keeps c s (setPc s c p) :=
  keeps_setCore s c _

theorem keeps_serveDrawn (s : Sim) (c : Nat) (r : RPCRequest) (next : AfterServe) :
    Keeps c s (serveDrawn cfg s c r next) :=
  keeps_setCore s c _

theorem keeps_loopTop (s : Sim) (c : Nat) : Keeps c s (loopTop s c) := keeps_setPc s c _

theorem keeps_startCompletion (s : Sim) (c : Nat) (r : RPCRequest) (next : AfterCompletion) :
    Keeps c s (startCompletion cfg s c r next) :=
  (keeps_stamp c s _ _).trans (keeps_setPc _ c _)

theorem keeps_doWriteProcess (s : Sim) (c : Nat) (r : RPCRequest) (b : Nat) (k : AfterWrite) :
    Keeps c s (doWriteProcess cfg s c r b k) :=
  (keeps_startUpdater c s b).trans (keeps_serveDrawn _ c r _)

@[simp] theorem stamp_cores (s : Sim) (u : Nat) (f : Stamps → Stamps) :
    (s.stamp u f).cores = s.cores := rfl

@[simp] theorem startUpdater_cores (s : Sim) (b : Nat) : (startUpdater s b).cores = s.cores := rfl

@[simp] theorem raise_cores (s : Sim) (c : Nat) (f : WorkerFault) : (raise s c f).cores = s.cores :=
  rfl

@[simp] theorem setPc_cores_self (s : Sim) (c : Nat) (p : CorePc) :
    (setPc s c p).cores c = { s.cores c with pc := p } := by
  simp [setPc]

@[simp] theorem serveDrawn_cores_self (s : Sim) (c : Nat) (r : RPCRequest) (next : AfterServe) :
    (serveDrawn cfg s c r next).cores c = { s.cores c with
      pc := .serve r (s.now + cfg.servDraw c (s.cores c).draws) next
      draws := (s.cores c).draws + 1 } := by
  simp [serveDrawn]

@[simp] theorem loopTop_cores_self (s : Sim) (c : Nat) : (loopTop s c).cores c =
    { s.cores c with pc := if (s.cores c).killed then .stopped else .getWait } := by
  simp [loopTop]

theorem loopTop_unacked (s : Sim) (c : Nat) :
    ((loopTop s c).cores c).unacked = batchesExcept (s.cores c).batchMap none := by
  rw [loopTop_cores_self]
  cases (s.cores c).killed <;> rfl

@[simp] theorem startCompletion_cores_self (s : Sim) (c : Nat) (r : RPCRequest)
    (next : AfterCompletion) : (startCompletion cfg s c r next).cores c =
      { s.cores c with pc := .completion r (s.now + cfg.fixedOverhead) next } := by
  simp [startCompletion, stamp]

@[simp] theorem doWriteProcess_cores_self (s : Sim) (c : Nat) (r : RPCRequest) (b : Nat)
    (k : AfterWrite) : (doWriteProcess cfg s c r b k).cores c = { s.cores c with
      pc := .serve r (s.now + cfg.servDraw c (s.cores c).draws) (.unlock s.nextUpdater b k)
      draws := (s.cores c).draws + 1 } := by
  simp [doWriteProcess, startUpdater]

/-! ## A worker step -/

/-- A worker's holding changes from `l` to `l'` up to order; without compaction, from a
worker that holds no batch, exactly, and the worker holds no batch after. -/
def Reorders (cfg : SimConfig) (k k' : Core) (l l' : List RPCRequest) : Prop :=
  l'.Perm l ∧
    (cfg.worker.useCompaction = false → k.batchMap.entries = [] → l' = l ∧ k'.batchMap.entries = [])

theorem Reorders.of_eq {k k' : Core} {l : List RPCRequest} (hb : k'.batchMap = k.batchMap) :
    Reorders cfg k k' l l :=
  ⟨.refl _, fun _ he => ⟨rfl, hb ▸ he⟩⟩

theorem Reorders.of_eq' {k k' : Core} {l l' : List RPCRequest} (hb : k'.batchMap = k.batchMap)
    (hl : l' = l) : Reorders cfg k k' l l' :=
  hl ▸ Reorders.of_eq hb

theorem beginWrite_keeps (s : Sim) (c : Nat) (r : RPCRequest) : Keeps c s (beginWrite cfg s c r) := by
  unfold beginWrite
  dsimp only
  split
  · split
    · exact (keeps_stamp c s _ _).trans (keeps_setCore _ c _)
    · split
      · exact (keeps_stamp c s _ _).trans (keeps_setCore _ c _)
      · exact keeps_doWriteProcess s c r _ _
  · exact keeps_doWriteProcess s c r _ _

theorem beginWrite_unacked (s : Sim) (c : Nat) (r : RPCRequest) :
    Reorders cfg (s.cores c) ((beginWrite cfg s c r).cores c)
      (r :: batchesExcept (s.cores c).batchMap none) ((beginWrite cfg s c r).cores c).unacked := by
  unfold beginWrite
  dsimp only
  split
  · rename_i hcomp
    refine ⟨?_, fun h => absurd hcomp (by simp [h])⟩
    split
    · rename_i l hl
      have hg : ((s.cores c).batchMap.set r.key (l ++ [r])).get? r.key = some (l ++ [r]) := by
        rw [OrderedDict.get?_set, if_pos rfl]
      simp only [stamp, setCore, Function.update_same, Core.unacked, CorePc.taken,
        CorePc.responding, List.nil_append]
      refine (batchesExcept_perm_of_get? hg).trans ?_
      rw [batchesExcept_set]
      refine List.Perm.trans ?_ (((batchesExcept_perm_of_get? hl).symm).cons r)
      simp
    · split
      · rename_i hl _
        simp only [stamp, setCore, Function.update_same, Core.unacked, CorePc.taken,
          CorePc.responding, List.nil_append, batchesExcept_set_new hl]
        exact List.perm_append_singleton _ _
      · simp [Core.unacked, CorePc.taken, CorePc.responding]
  · simp only [doWriteProcess_cores_self]
    exact Reorders.of_eq rfl

theorem Reorders.perm_cons {k k' : Core} {l l' : List RPCRequest} (r : RPCRequest)
    (h : Reorders cfg k k' l l') : Reorders cfg k k' (r :: l) (r :: l') :=
  ⟨h.1.cons r, fun hc he => by rw [(h.2 hc he).1]; exact ⟨rfl, (h.2 hc he).2⟩⟩

theorem checkVersion_keeps (s : Sim) (c : Nat) (r : RPCRequest) :
    Keeps c s (checkVersion cfg s c r) := by
  unfold checkVersion
  dsimp only
  split
  · exact (keeps_stamp c s _ _).trans (keeps_setPc _ c _)
  · split
    · exact beginWrite_keeps s c r
    · exact keeps_serveDrawn s c r _

theorem checkVersion_unacked (s : Sim) (c : Nat) (r : RPCRequest) :
    Reorders cfg (s.cores c) ((checkVersion cfg s c r).cores c)
      (r :: batchesExcept (s.cores c).batchMap none) ((checkVersion cfg s c r).cores c).unacked := by
  unfold checkVersion
  dsimp only
  split
  · simp only [setPc, stamp, setCore, Function.update_same]
    exact Reorders.of_eq rfl
  · split
    · exact beginWrite_unacked s c r
    · simp only [serveDrawn_cores_self]
      exact Reorders.of_eq rfl

theorem startRequest_keeps (s : Sim) (c : Nat) (r : RPCRequest) :
    Keeps c s (startRequest cfg s c r) := by
  unfold startRequest
  split
  · split
    · exact keeps_raise _ c _
    · split
      · exact (keeps_versions c _ _).trans (keeps_serveDrawn _ c r _)
      · exact keeps_serveDrawn _ c r _
  · split
    · exact keeps_serveDrawn _ c r _
    · exact checkVersion_keeps _ c r

theorem startRequest_unacked {s : Sim} {c : Nat} {r : RPCRequest}
    (hf : (startRequest cfg s c r).fault = s.fault) (hs : s.fault = none) :
    Reorders cfg (s.cores c) ((startRequest cfg s c r).cores c)
      (r :: batchesExcept (s.cores c).batchMap none) ((startRequest cfg s c r).cores c).unacked := by
  unfold startRequest at hf ⊢
  split
  · rename_i he
    split
    · rename_i ho
      rw [if_pos he, if_pos ho] at hf
      simp [raise, hs] at hf
    · split
      · simp only [serveDrawn_cores_self]
        exact Reorders.of_eq rfl
      · simp only [serveDrawn_cores_self]
        exact Reorders.of_eq rfl
  · split
    · simp only [serveDrawn_cores_self]
      exact Reorders.of_eq rfl
    · exact checkVersion_unacked _ c r

theorem takeRequest_keeps (s : Sim) (c : Nat) (m : Msg) : Keeps c s (takeRequest cfg s c m) := by
  cases m with
  | endOfMeasurements =>
    exact (⟨rfl, rfl, rfl, rfl, fun _ h => setCore_cores_ne s _ h, rfl, rfl, .inl rfl, fun _ => le_rfl⟩ : Keeps c s
      { s.setCore c { s.cores c with killed := true } with
        gen := { s.gen with interrupted := true } }).trans (keeps_loopTop _ c)
  | req r => exact (keeps_stamp c s _ _).trans (startRequest_keeps _ c r)

theorem takeRequest_unacked {s : Sim} {c : Nat} {m : Msg}
    (hf : (takeRequest cfg s c m).fault = s.fault) (hs : s.fault = none) :
    Reorders cfg (s.cores c) ((takeRequest cfg s c m).cores c)
      (m.reqs ++ batchesExcept (s.cores c).batchMap none)
      ((takeRequest cfg s c m).cores c).unacked := by
  cases m with
  | endOfMeasurements =>
    simp only [takeRequest, loopTop_cores_self, setCore_cores_self]
    exact Reorders.of_eq rfl
  | req r => exact startRequest_unacked hf hs

theorem batchNext_keeps (s : Sim) (c key : Nat) (rest : List RPCRequest) (final : RPCRequest) :
    Keeps c s (batchNext cfg s c key rest final) := by
  cases rest with
  | nil => exact keeps_doWriteProcess s c final _ _
  | cons r rest => exact keeps_startCompletion s c r _

theorem batchNext_cores_self (s : Sim) (c key : Nat) (rest : List RPCRequest)
    (final : RPCRequest) :
    ((batchNext cfg s c key rest final).cores c).batchMap = (s.cores c).batchMap ∧
      ((batchNext cfg s c key rest final).cores c).unacked =
        rest ++ [final] ++ batchesExcept (s.cores c).batchMap (some key) := by
  cases rest with
  | nil => simp [batchNext, Core.unacked, CorePc.taken, CorePc.responding]
  | cons r rest => simp [batchNext, Core.unacked, CorePc.taken, CorePc.responding]

theorem batchMap_get?_of_nil {d : OrderedDict (List RPCRequest)} (h : d.entries = []) (k : Nat) :
    d.get? k = none := by
  simp [OrderedDict.get?, h]

theorem respondToBatchedWrites_keeps (s : Sim) (c key : Nat) :
    Keeps c s (respondToBatchedWrites cfg s c key) := by
  unfold respondToBatchedWrites
  dsimp only
  split
  · exact keeps_raise s c _
  · split
    · exact keeps_raise s c _
    · exact (keeps_setCore s c _).trans (batchNext_keeps _ c key _ _)

theorem respondToBatchedWrites_unacked {s : Sim} {c key : Nat}
    (hf : (respondToBatchedWrites cfg s c key).fault = none) :
    Reorders cfg (s.cores c) ((respondToBatchedWrites cfg s c key).cores c)
      (batchesExcept (s.cores c).batchMap none)
      ((respondToBatchedWrites cfg s c key).cores c).unacked := by
  unfold respondToBatchedWrites at hf ⊢
  dsimp only at hf ⊢
  rcases hl : (s.cores c).batchMap.get? key with _ | l
  · simp [hl, raise] at hf
  · rcases hlast : l.getLast? with _ | final
    · simp [hl, hlast, raise] at hf
    · simp only [hl, hlast]
      obtain ⟨ys, rfl⟩ := List.getLast?_eq_some_iff.1 hlast
      refine ⟨?_, fun _ he => absurd hl (by rw [batchMap_get?_of_nil he]; simp)⟩
      rw [(batchNext_cores_self _ c key _ final).2]
      simp only [setCore_cores_self, batchesExcept_set, List.dropLast_concat]
      exact (batchesExcept_perm_of_get? hl).symm

theorem serveEnd_keeps (s : Sim) (c : Nat) (r : RPCRequest) (next : AfterServe) :
    Keeps c s (serveEnd cfg s c r next) := by
  cases next with
  | complete => exact keeps_startCompletion s c r _
  | recheck prev =>
    simp only [serveEnd]
    split
    · exact (keeps_stamp c s _ _).trans (keeps_serveDrawn _ c r _)
    · exact keeps_startCompletion s c r _
  | unlock lockId b k =>
    simp only [serveEnd]
    split
    · exact keeps_raise s c _
    · refine (keeps_startUpdater c s b).trans ?_
      cases k <;> exact keeps_startCompletion _ c r _
  | erewUnlock b => exact (keeps_versions c s _).trans (keeps_startCompletion _ c r _)
  | followBatch key =>
    simp only [serveEnd]
    split
    · exact keeps_raise s c _
    · exact respondToBatchedWrites_keeps s c key
    · exact keeps_loopTop s c
  | newBatch => exact keeps_loopTop s c

theorem serveEnd_unacked {s : Sim} {c : Nat} {r : RPCRequest} {due : Nat} {next : AfterServe}
    (hpc : (s.cores c).pc = .serve r due next) (hf : (serveEnd cfg s c r next).fault = none) :
    Reorders cfg (s.cores c) ((serveEnd cfg s c r next).cores c) (s.cores c).unacked
      ((serveEnd cfg s c r next).cores c).unacked := by
  have hold : (s.cores c).unacked =
      (CorePc.serve r due next).taken ++ batchesExcept (s.cores c).batchMap
        (CorePc.serve r due next).responding := by
    rw [Core.unacked, hpc]
  rw [hold]
  cases next with
  | complete =>
    simp only [serveEnd, startCompletion_cores_self]
    exact Reorders.of_eq rfl
  | recheck prev =>
    simp only [serveEnd]
    split
    · simp only [serveDrawn_cores_self, stamp_cores]
      exact Reorders.of_eq rfl
    · simp only [startCompletion_cores_self]
      exact Reorders.of_eq rfl
  | unlock lockId b k =>
    simp only [serveEnd] at hf ⊢
    split
    · rename_i hp
      rw [if_pos hp] at hf
      simp [raise] at hf
    · cases k <;>
      · simp only [afterWrite, startCompletion_cores_self, startUpdater_cores]
        exact Reorders.of_eq rfl
  | erewUnlock b =>
    simp only [serveEnd, startCompletion_cores_self]
    exact Reorders.of_eq rfl
  | followBatch key =>
    simp only [serveEnd] at hf ⊢
    split
    · rename_i f hcl
      rw [hcl] at hf
      simp [raise] at hf
    · rename_i hcl
      rw [hcl] at hf
      exact respondToBatchedWrites_unacked hf
    · exact Reorders.of_eq' (by simp) (loopTop_unacked s c)
  | newBatch => exact Reorders.of_eq' (by simp [serveEnd]) (loopTop_unacked s c)

theorem completionEnd_pullT (s : Sim) (c : Nat) (r : RPCRequest) :
    (completionEnd cfg s c r).pullT = s.pullT ++ [(s.now + cfg.channelLat, ⟨c, r⟩)] := by
  unfold completionEnd
  dsimp only
  split <;> rfl

theorem completionEnd_local (s : Sim) (c : Nat) (r : RPCRequest) :
    Local c s (completionEnd cfg s c r) := by
  unfold completionEnd
  dsimp only
  split <;> exact ⟨rfl, rfl, rfl, fun _ _ => rfl,
    fun c' hc => by simp [setCore, stamp, Function.update_noteq hc], rfl, ⟨_, rfl, by simp⟩,
    .inl rfl, fun _ => le_rfl⟩

theorem completionEnd_fault (s : Sim) (c : Nat) (r : RPCRequest) :
    (completionEnd cfg s c r).fault = s.fault := by
  unfold completionEnd
  dsimp only
  split <;> rfl

theorem completionEnd_core (s : Sim) (c : Nat) (r : RPCRequest) :
    ((completionEnd cfg s c r).cores c).pc = (s.cores c).pc ∧
      ((completionEnd cfg s c r).cores c).batchMap = (s.cores c).batchMap := by
  unfold completionEnd
  dsimp only
  split <;> simp [setCore, stamp]

theorem completionEnd_acksInTransit (s : Sim) (c : Nat) (r : RPCRequest) :
    (completionEnd cfg s c r).acksInTransit c = s.acksInTransit c ++ [r] := by
  simp [acksInTransit, completionEnd_pullT]

theorem afterCompletion_keeps (s : Sim) (c : Nat) (next : AfterCompletion) :
    Keeps c s (afterCompletion cfg s c next) := by
  cases next with
  | loop => exact keeps_loopTop s c
  | batchNext key rest final => exact batchNext_keeps s c key rest final
  | batchEnd key =>
    simp only [afterCompletion]
    split
    · exact (keeps_setCore s c _).trans (keeps_loopTop _ c)
    · exact keeps_raise s c _

/-- `req_completion_logic` returning: the request completed leaves the worker's holding. -/
theorem afterCompletion_unacked {s : Sim} {c : Nat} {r : RPCRequest} {due : Nat}
    {next : AfterCompletion} (hpc : (s.cores c).pc = .completion r due next)
    (hf : (afterCompletion cfg s c next).fault = none) :
    (s.cores c).unacked = r :: ((afterCompletion cfg s c next).cores c).unacked ∧
      ((s.cores c).batchMap.entries = [] →
        ((afterCompletion cfg s c next).cores c).batchMap.entries = []) := by
  have hold : (s.cores c).unacked =
      (CorePc.completion r due next).taken ++ batchesExcept (s.cores c).batchMap
        (CorePc.completion r due next).responding := by
    rw [Core.unacked, hpc]
  rw [hold]
  cases next with
  | loop =>
    refine ⟨(loopTop_unacked s c).symm ▸ rfl, fun he => ?_⟩
    simpa [afterCompletion] using he
  | batchNext key rest final =>
    obtain ⟨hb, hu⟩ := @batchNext_cores_self cfg s c key rest final
    exact ⟨by simp only [afterCompletion, hu]; rfl, fun he => by simpa [afterCompletion, hb] using he⟩
  | batchEnd key =>
    simp only [afterCompletion] at hf ⊢
    split
    · refine ⟨?_, fun he => ?_⟩
      · rw [loopTop_unacked, setCore_cores_self, batchesExcept_erase]
        rfl
      · simp [loopTop_cores_self, OrderedDict.erase, he]
    · rename_i hk
      rw [if_neg hk] at hf
      simp [raise] at hf

theorem completionEnd_dispS (s : Sim) (c : Nat) (r : RPCRequest) :
    (completionEnd cfg s c r).dispS = s.dispS := by
  unfold completionEnd
  dsimp only
  split <;> rfl

theorem completionEnd_dispT (s : Sim) (c : Nat) (r : RPCRequest) :
    (completionEnd cfg s c r).dispT = s.dispT :=
  (completionEnd_local s c r).dispT

theorem Reorders.lift {k k' : Core} {l l' : List RPCRequest} (A S T : List RPCRequest)
    (h : Reorders cfg k k' l l') : Reorders cfg k k' (A ++ l ++ S ++ T) (A ++ l' ++ S ++ T) :=
  ⟨((h.1.append_left A).append_right S).append_right T,
    fun hc he => by rw [(h.2 hc he).1]; exact ⟨rfl, (h.2 hc he).2⟩⟩

/-- A worker step changes only what the worker may touch. -/
theorem coreStep_local {s s' : Sim} {c : Nat} (h : coreStep cfg s c = some s') : Local c s s' := by
  unfold coreStep at h
  split at h
  · split at h
    · rename_i m rest _
      cases h
      have hl : Local c s { s with dispS := Function.update s.dispS c rest } :=
        ⟨rfl, rfl, rfl, fun c' hc => Function.update_noteq hc _ _, fun _ _ => rfl, rfl,
          ⟨[], by simp, by simp⟩, .inl rfl, fun _ => le_rfl⟩
      exact hl.trans (takeRequest_keeps _ c m).toLocal
    · cases h
  all_goals (try split at h) <;> cases h
  · exact (checkVersion_keeps s c _).toLocal
  · exact (serveEnd_keeps s c _ _).toLocal
  · exact (completionEnd_local s c _).trans (afterCompletion_keeps _ c _).toLocal

/-- **A worker step keeps the requests in its custody**, up to order; without compaction,
exactly. -/
theorem coreStep_unacked {s s' : Sim} {c : Nat} (h : coreStep cfg s c = some s')
    (hs : s.fault = none) (hf : s'.fault = none) :
    Reorders cfg (s.cores c) (s'.cores c) (s.unacked c) (s'.unacked c) := by
  unfold coreStep at h
  split at h
  · rename_i hpc
    split at h
    · rename_i m rest hd
      cases h
      set s₁ : Sim := { s with dispS := Function.update s.dispS c rest }
      obtain ⟨hp, he⟩ := takeRequest_unacked (s := s₁) (c := c) (m := m) (hf.trans hs.symm) hs
      have hS : s₁.dispS c = rest := Function.update_same _ _ _
      have hsu : s.unacked c = s.acksInTransit c ++ batchesExcept (s.cores c).batchMap none ++
          (m.reqs ++ reqsOf rest) ++ s.inTransit c := by
        simp only [Sim.unacked, Core.unacked, hpc, hd, reqsOf_cons]; rfl
      rw [hsu, (@takeRequest_keeps cfg s₁ c m).unacked_self, hS]
      refine ⟨(((hp.append_left _).append_right _).append_right _).trans ?_, fun hc hb => ?_⟩
      · simp only [List.append_assoc]
        exact List.Perm.append_left _ (List.perm_append_comm_assoc _ _ _)
      · obtain ⟨hu, he'⟩ := he hc hb
        refine ⟨?_, he'⟩
        rw [hu]
        simp [batchesExcept_nil hb, s₁, acksInTransit, inTransit]
    · cases h
  all_goals (try split at h) <;> cases h
  · rename_i r _ hpc _
    have hU : (s.cores c).unacked = r :: batchesExcept (s.cores c).batchMap none := by
      rw [Core.unacked, hpc]; rfl
    rw [Sim.unacked, (@checkVersion_keeps cfg s c r).unacked_self, hU]
    exact (checkVersion_unacked s c r).lift _ _ _
  · rename_i r _ next hpc _
    rw [Sim.unacked, (@serveEnd_keeps cfg s c r next).unacked_self]
    exact (serveEnd_unacked hpc hf).lift _ _ _
  · rename_i r _ next hpc _
    have hk := @afterCompletion_keeps cfg (completionEnd cfg s c r) c next
    obtain ⟨hpc₁, hb₁⟩ := @completionEnd_core cfg s c r
    obtain ⟨hu, he⟩ := afterCompletion_unacked (hpc₁.trans hpc) hf
    have hU : ((completionEnd cfg s c r).cores c).unacked = (s.cores c).unacked := by
      rw [Core.unacked, Core.unacked, hpc₁, hb₁]
    refine ⟨?_, fun _ hb => ⟨?_, he (hb₁ ▸ hb)⟩⟩ <;>
      rw [hk.unacked_self, completionEnd_acksInTransit, completionEnd_dispS, Sim.unacked,
        ← hU, hu] <;> simp [inTransit, completionEnd_dispT]

end Sim

end QueueFlex
