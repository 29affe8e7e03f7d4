import Mathlib.Algebra.Order.Field.Rat
import Mathlib.Tactic.Linarith
import QueueFlex.Pipeline.Effect

/-! # Service times against `INDEX_UPDATE_DELAY`

`MICAIndexAccessor.__init__` picks a worker's service-time generator from its flags
(`src/components/datastore_rpc.py`, `src/components/serv_times`): under `use_exp` an
`ExpServTimeGenerator` of mean `serv_time`; under `use_bimod` a `BimodalServTimeGenerator`
returning `serv_time / 2` on 90% of its draws and `serv_time * 5.5` on the others; by default,
with `serv_time` first divided by `turbo_boost`, a `UniformServTimeGenerator` on
`[serv_time - 100, serv_time + 100)` below 200 and on `[serv_time - 200, serv_time + 200)` from
200 on. A generator is described by the values its `get` can return: numpy's
`uniform(low, high)` draws from `[low, high)`, `exponential(scale)` from `[0, ∞)` (it is
`-scale * log(1 - U)` for `U` in `[0, 1)`), and `rollHit(p)` compares `int(p * 100)` with a
draw of `randint(0, 10000)`.

`do_write_process` starts its lock increment, which fires `INDEX_UPDATE_DELAY` later, waits one
service time, and asserts that the increment has fired. Which configurations draw only service
times above the delay, and which can draw a negative one (a `simpy` timeout then raises), is
`serv_time_exceeds_update_delay_iff`. In the pipeline, whose times are whole units, a write that
draws less than the delay keeps its worker in its service time with the lock increment pending
on every run, and fails the assertion when the timeout expires
(`short_write_fails_assertion`). -/

namespace QueueFlex

/-- The service-time generators of `src/components/serv_times`. -/
inductive ServTimeGenerator where
  /-- `UniformServTimeGenerator(low, high)`. -/
  | uniform (low high : ℚ)
  /-- `ExpServTimeGenerator(mean_service_time)`. -/
  | exp (meanServiceTime : ℚ)
  /-- `BimodalServTimeGenerator(short_percentage, short_lat, long_lat)`. -/
  | bimodal (shortPercentage shortLat longLat : ℚ)
deriving DecidableEq, Repr

namespace ServTimeGenerator

/-- The values `get` can return. `rollHit(short_percentage)` is true on some draw when
`int(short_percentage * 100) > 0` and false on some draw when it is at most 10000. -/
def CanReturn : ServTimeGenerator → ℚ → Prop
  | .uniform low high, t => low ≤ t ∧ t < high
  | .exp _, t => 0 ≤ t
  | .bimodal shortPercentage shortLat longLat, t =>
    (1 ≤ shortPercentage * 100 ∧ t = shortLat) ∨ (shortPercentage * 100 < 10001 ∧ t = longLat)

instance (g : ServTimeGenerator) (t : ℚ) : Decidable (g.CanReturn t) :=
  match g with
  | .uniform low high => inferInstanceAs (Decidable (low ≤ t ∧ t < high))
  | .exp _ => inferInstanceAs (Decidable (0 ≤ t))
  | .bimodal p shortLat longLat =>
    inferInstanceAs (Decidable ((1 ≤ p * 100 ∧ t = shortLat) ∨ (p * 100 < 10001 ∧ t = longLat)))

theorem forall_uniform_iff {low high x : ℚ} (h : low < high) :
    (∀ t, (uniform low high).CanReturn t → x < t) ↔ x < low :=
  ⟨fun H => H low ⟨le_rfl, h⟩, fun hx _ ht => lt_of_lt_of_le hx ht.1⟩

theorem exists_uniform_iff {low high x : ℚ} (h : low < high) :
    (∃ t, (uniform low high).CanReturn t ∧ t < x) ↔ low < x :=
  ⟨fun ⟨_, ht, hx⟩ => lt_of_le_of_lt ht.1 hx, fun hx => ⟨low, ⟨le_rfl, h⟩, hx⟩⟩

/-- The accessor's bimodal generator returns both of its latencies. -/
theorem bimodal_canReturn_iff {shortLat longLat t : ℚ} :
    (bimodal 90 shortLat longLat).CanReturn t ↔ t = shortLat ∨ t = longLat := by
  simp only [CanReturn]
  norm_num

end ServTimeGenerator

/-- The arguments of `MICAIndexAccessor.__init__` that choose its service-time generator. -/
structure AccessorTiming where
  servTime : ℚ
  turboBoost : ℚ
  useExp : Bool
  useBimod : Bool
deriving DecidableEq, Repr

/-- `self.serv_time_generator` as `MICAIndexAccessor.__init__` sets it. -/
def AccessorTiming.servTimeGenerator (a : AccessorTiming) : ServTimeGenerator :=
  if a.useExp then .exp a.servTime
  else if a.useBimod then .bimodal 90 (a.servTime / 2) (a.servTime * 5.5)
  else
    let servTime := a.servTime / a.turboBoost
    if servTime < 200 then .uniform (servTime - 100) (servTime + 100)
    else .uniform (servTime - 200) (servTime + 200)

open ServTimeGenerator in
/-- **Which configurations outlast the lock increment.** For a positive `serv_time`, every
service time the accessor's generator can return exceeds `INDEX_UPDATE_DELAY` exactly when the
generator is not the exponential one, a bimodal one has `serv_time > 100`, and a uniform one is
centred, after `turbo_boost`, strictly between 150 and 200 or above 250; and the generator can
return a negative time exactly when it is the uniform one centred below 100. -/
theorem serv_time_exceeds_update_delay_iff (a : AccessorTiming) (hs : 0 < a.servTime) :
    ((∀ t, a.servTimeGenerator.CanReturn t → (indexUpdateDelay : ℚ) < t) ↔
      a.useExp = false ∧ (a.useBimod = true → 100 < a.servTime) ∧
        (a.useBimod = false → 150 < a.servTime / a.turboBoost ∧ a.servTime / a.turboBoost < 200 ∨
          250 < a.servTime / a.turboBoost)) ∧
    ((∃ t, a.servTimeGenerator.CanReturn t ∧ t < 0) ↔
      a.useExp = false ∧ a.useBimod = false ∧ a.servTime / a.turboBoost < 100) := by
  obtain ⟨s, turbo, useExp, useBimod⟩ := a
  simp only [AccessorTiming.servTimeGenerator, indexUpdateDelay, Nat.cast_ofNat] at hs ⊢
  cases useExp
  case true =>
    refine ⟨iff_of_false (fun H => absurd (H 0 le_rfl) (by norm_num)) (by simp),
      iff_of_false (fun ⟨t, ht, hlt⟩ => absurd ht (not_le.mpr hlt)) (by simp)⟩
  case false =>
  cases useBimod
  case true =>
    simp only [↓reduceIte, Bool.false_eq_true, bimodal_canReturn_iff, forall_eq_or_imp,
      forall_eq, exists_eq_or_imp, exists_eq_left, true_and, true_implies, false_and, iff_false,
      Bool.true_eq_false, false_implies, and_true]
    refine ⟨⟨fun h => by linarith [h.1], fun h => ⟨by linarith, by linarith⟩⟩, ?_⟩
    rintro (h | h) <;> linarith
  case false =>
  simp only [↓reduceIte, Bool.false_eq_true, true_and, false_implies, true_implies]
  split
  · rw [forall_uniform_iff (by linarith), exists_uniform_iff (by linarith)]
    constructor <;> constructor <;> intro h
    · exact .inl ⟨by linarith, ‹_›⟩
    · rcases h with ⟨h, -⟩ | h <;> linarith
    · linarith
    · linarith
  · rw [forall_uniform_iff (by linarith), exists_uniform_iff (by linarith)]
    constructor <;> constructor <;> intro h
    · exact .inr (by linarith)
    · rcases h with h | h
      · exact absurd h.2 ‹_›
      · linarith
    · linarith
    · linarith

/-- A positive `serv_time` of 100, with no turbo boost: the uniform draw on `[0, 200]` can
fall to `INDEX_UPDATE_DELAY` or below. The drivers default to 600 (`compaction_sim`,
`detailed_loadlat`, `compare_system_excess_tlat`) and 1000 (`mica_rlu_jbscrew`,
`mica_index_contention`). -/
theorem serv_time_exceeds_update_delay_default :
    (0 : ℚ) < 100 ∧ ¬∀ t, (AccessorTiming.servTimeGenerator ⟨100, 1, false, false⟩).CanReturn t →
      (indexUpdateDelay : ℚ) < t :=
  ⟨by norm_num, fun h => by
    have := ((serv_time_exceeds_update_delay_iff ⟨100, 1, false, false⟩ (by norm_num)).1.mp h).2.2
    norm_num at this⟩

namespace Sim

variable {cfg : SimConfig}

/-- Worker `c` serves write `r` in `do_write_process`, its timeout expiring at `due`, and its
lock increment `u` has not fired unless the simulation has stopped. -/
structure ShortWrite (c : Nat) (r : RPCRequest) (due : Nat) (u : Updater) (k : AfterWrite)
    (s : Sim) : Prop where
  pc : (s.cores c).pc = .serve r due (.unlock u.id u.bucket k)
  pending : s.fault = none → u ∈ s.updaters
  clock : s.now ≤ due

section
variable {c due : Nat} {r : RPCRequest} {u : Updater} {k : AfterWrite}

/-- When the timeout of a write whose lock increment is pending expires, the worker raises
"Writer ... async index update was not done!". -/
theorem ShortWrite.coreStep {s s' : Sim} (hw : ShortWrite c r due u k s) (hf : s.fault = none)
    (h : coreStep cfg s c = some s') : s' = raise s c .asyncUpdateNotDone := by
  have hany : s.updaters.any (·.id == u.id) = true :=
    List.any_eq_true.mpr ⟨u, hw.pending hf, beq_self_eq_true _⟩
  simp only [Sim.coreStep, hw.pc] at h
  split at h <;> cases h
  simp [serveEnd, hany]

/-- **The lock increment of a short write stays pending.** If the write's timeout expires
before its lock increment fires, every step keeps the worker in the write's service time, the
increment pending, and the clock at or before the timeout. -/
theorem ShortWrite.step (he : cfg.worker.erew = false) (hc : c < cfg.bal.disp.numQueues)
    (hlt : due < u.fireAt) {s s' : Sim} {a : SimAction} (hw : ShortWrite c r due u k s)
    (h : step cfg a s = some s') : ShortWrite c r due u k s' := by
  rcases step_clock h with hnow | ⟨hf, t, rfl, ht⟩
  · rcases step_cases h with ⟨hu, hk⟩ | ⟨i, u', hi, hle, rfl⟩ | ⟨hf, c', -, hc'⟩ |
      ⟨-, -, -, -, -, rfl⟩ | ⟨-, -, -, -, -, rfl⟩ | ⟨-, o, -, rfl⟩
    · exact ⟨hk.cores ▸ hw.pc, fun hf => hk.updaters ▸ hw.pending (hu.fault ▸ hf), hnow ▸ hw.clock⟩
    · refine ⟨?_, fun hf => ?_, hw.clock⟩
      · rcases wake_pc u'.bucket (s.cores c) with h' | ⟨_, _, h', -⟩
        · exact h'.trans hw.pc
        · rw [hw.pc] at h'; cases h'
      · have hne : u ≠ u' := by rintro rfl; have := hw.clock; omega
        rcases List.mem_cons.mp ((perm_cons_eraseIdx hi).subset (hw.pending hf)) with h' | h'
        exacts [absurd h' hne, h']
    · by_cases hcc : c' = c
      · subst hcc
        rw [ShortWrite.coreStep hw hf hc']
        exact ⟨hw.pc, fun h' => by simp [raise] at h', hw.clock⟩
      · obtain ⟨⟨l, hl⟩, hcs⟩ := (coreStep_effect he hc').frame
        exact ⟨(hcs c (Ne.symm hcc)).symm ▸ hw.pc,
          fun _ => hl ▸ List.mem_append_left l (hw.pending hf), hnow ▸ hw.clock⟩
    · exact ⟨hw.pc, hw.pending, hw.clock⟩
    · exact ⟨hw.pc, hw.pending, hw.clock⟩
    · rcases o with f | ⟨b, puts⟩
      · exact ⟨hw.pc, (fun h' => by cases h'), hw.clock⟩
      · obtain ⟨dT, st, he', -⟩ := @dispatchPuts_eq cfg { s with bal := b } puts
        show ShortWrite c r due u k (dispatchPuts cfg { s with bal := b } puts)
        rw [he']
        exact ⟨hw.pc, hw.pending, hw.clock⟩
  · exact ⟨hw.pc, fun _ => hw.pending hf, noEventBefore_due ht hc (by rw [hw.pc]; rfl)⟩

theorem ShortWrite.run (he : cfg.worker.erew = false) (hc : c < cfg.bal.disp.numQueues)
    (hlt : due < u.fireAt) {s s' : Sim} (hw : ShortWrite c r due u k s)
    (h : Relation.ReflTransGen (Next cfg) s s') : ShortWrite c r due u k s' := by
  induction h with
  | refl => exact hw
  | tail _ hst ih =>
    obtain ⟨a, ha⟩ := hst
    exact ih.step he hc hlt ha

end

/-- **A write shorter than `INDEX_UPDATE_DELAY` fails its assertion.** On the concurrent path,
once worker `c` has started `do_write_process` with a service draw below the delay, on every
run the step in which its timeout expires raises "Writer ... async index update was not
done!". -/
theorem short_write_fails_assertion (he : cfg.worker.erew = false) {s s₁ s₂ : Sim} {c : Nat}
    {r : RPCRequest} {b : Nat} {k : AfterWrite} (hc : c < cfg.bal.disp.numQueues)
    (hd : cfg.servDraw c (s.cores c).draws < indexUpdateDelay)
    (h₁ : Relation.ReflTransGen (Next cfg) (doWriteProcess cfg s c r b k) s₁)
    (hf : s₁.fault = none) (h₂ : coreStep cfg s₁ c = some s₂) :
    s₂ = raise s₁ c .asyncUpdateNotDone := by
  have h₀ : ShortWrite c r (s.now + cfg.servDraw c (s.cores c).draws)
      ⟨s.nextUpdater, b, s.now + indexUpdateDelay⟩ k (doWriteProcess cfg s c r b k) :=
    ⟨by rw [doWriteProcess_cores_self], fun _ => by simp [doWriteProcess, startUpdater,
      serveDrawn, setCore], Nat.le_add_right _ _⟩
  exact (h₀.run he hc (by dsimp only; omega) h₁).coreStep hf h₂

end Sim

end QueueFlex
