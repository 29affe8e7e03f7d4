import Mathlib.Algebra.Order.Field.Rat
import Mathlib.Data.Rat.Floor

/-! # The DRAM bandwidth profiler

`BWProfiler` of `src/components/dram_channel_model.py`. `InfiniteQueueDRAM.completeReq` hands
it the time and size of every completed memory request, and it sums the bytes per bucket of
`interval` cycles, the first starting at its construction. A completion after the end of the
current bucket closes it and opens the next interval, wherever the completion falls.

Bucket bounds are integers (`env.now` at construction and the integer `INTERVAL`), while
completion times are `env.now` values, floats once a load generator draws exponential
interarrival times; they are rationals here. A time `t` lies in interval `k` when it lies in
`(start + k * interval, start + (k + 1) * interval]`, the first interval also holding `start`
(`binOf`).

The profile is the histogram of the completions by interval as long as no completion skips an
interval: when the completion times do not decrease and each lies at most one interval past
the previous one (`NoSkip`), bucket `k` holds the bytes completed in interval `k`
(`completeAll_tracks`), and `getBucketBWs` reports them over the interval length
(`getBucketBWs_eq_binned`).

A completion more than one interval past the current bucket closes it and is counted in the
next interval, however far past that its time lies. A run whose times do not decrease is
profiled as its `clampRun`, in which each such completion is moved to the end of the interval
after the current bucket (`getBucketBWs_eq_binned_clampRun`). -/

namespace QueueFlex

/-- `BWBucket`: an interval of simulated time and the bytes completed in it. -/
structure BWBucket where
  startTime : Nat
  endTime : Nat
  bytesTransferred : Nat
deriving DecidableEq, Repr

namespace BWBucket

/-- `BWBucket.addReq`. -/
def addReq (b : BWBucket) (sz : Nat) : BWBucket :=
  { b with bytesTransferred := b.bytesTransferred + sz }

/-- `BWBucket.getIntervalBW`: the bytes over the interval's length, which Python rounds to a
float; an empty interval raises `ZeroDivisionError`. -/
def getIntervalBW (b : BWBucket) : Option ℚ :=
  if b.endTime - b.startTime = 0 then none
  else some ((b.bytesTransferred : ℚ) / (b.endTime - b.startTime : ℕ))

end BWBucket

/-- The state of a `BWProfiler`; its `env` only supplies the construction time, and its `nbanks`
is read by none of its methods. -/
structure BWProfiler where
  interval : Nat
  buckets : List BWBucket
  currentBucket : BWBucket
deriving DecidableEq, Repr

namespace BWProfiler

/-- `BWProfiler(e, nbanks, bucketInterval)` built at time `now`. -/
def init (now bucketInterval : Nat) : BWProfiler :=
  ⟨bucketInterval, [], ⟨now, now + bucketInterval, 0⟩⟩

/-- `BWProfiler.completeReq(t, sz)`. -/
def completeReq (p : BWProfiler) (t : ℚ) (sz : Nat) : BWProfiler :=
  let p :=
    if t > p.currentBucket.endTime then
      let nextStartTime := p.currentBucket.endTime
      { p with
        buckets := p.buckets ++ [p.currentBucket]
        currentBucket := ⟨nextStartTime, nextStartTime + p.interval, 0⟩ }
    else p
  { p with currentBucket := p.currentBucket.addReq sz }

theorem completeReq_of_le {p : BWProfiler} {t : ℚ} (h : t ≤ p.currentBucket.endTime)
    (sz : Nat) : p.completeReq t sz = { p with currentBucket := p.currentBucket.addReq sz } := by
  simp [completeReq, not_lt.mpr h]

theorem completeReq_of_gt {p : BWProfiler} {t : ℚ} (h : (p.currentBucket.endTime : ℚ) < t)
    (sz : Nat) :
    p.completeReq t sz =
      { p with
        buckets := p.buckets ++ [p.currentBucket]
        currentBucket := ⟨p.currentBucket.endTime, p.currentBucket.endTime + p.interval, sz⟩ } := by
  simp [completeReq, h, BWBucket.addReq]

/-- `BWProfiler.getBucketBWs()`: the current bucket joins `buckets` (a second call reports it
twice), then the bandwidth of every bucket. -/
def getBucketBWs (p : BWProfiler) : Option (List ℚ) × BWProfiler :=
  let p := { p with buckets := p.buckets ++ [p.currentBucket] }
  (p.buckets.mapM BWBucket.getIntervalBW, p)

/-- `completeReq` for each completion `(t, sz)` in turn. -/
def completeAll (p : BWProfiler) (l : List (ℚ × Nat)) : BWProfiler :=
  l.foldl (fun p c => p.completeReq c.1 c.2) p

theorem completeAll_cons (p : BWProfiler) (c : ℚ × Nat) (l : List (ℚ × Nat)) :
    p.completeAll (c :: l) = (p.completeReq c.1 c.2).completeAll l := rfl

/-- `completeReq` reads a completion's time only through its comparison with the end of the
current bucket. -/
theorem completeReq_congr {p : BWProfiler} {t t' : ℚ} (sz : Nat)
    (h : (p.currentBucket.endTime : ℚ) < t ↔ (p.currentBucket.endTime : ℚ) < t') :
    p.completeReq t sz = p.completeReq t' sz := by
  simp only [completeReq, gt_iff_lt, h]

end BWProfiler

/-! ## Completions binned by interval -/

section

variable (start interval : Nat)

/-- The interval a time at or after `start` lies in. -/
def binOf (t : ℚ) : Nat := (⌈t⌉₊ - start - 1) / interval

/-- The bytes completed in interval `k`. -/
def binnedBytes (k : Nat) : List (ℚ × Nat) → Nat
  | [] => 0
  | c :: l => (if binOf start interval c.1 = k then c.2 else 0) + binnedBytes k l

/-- Interval `k` with the bytes completed in it. -/
def window (l : List (ℚ × Nat)) (k : Nat) : BWBucket :=
  ⟨start + k * interval, start + (k + 1) * interval, binnedBytes start interval k l⟩

/-- No completion comes before the previous one, nor more than one interval after it; the
first is measured from `t`. -/
def NoSkipFrom (t : ℚ) : List (ℚ × Nat) → Prop
  | [] => True
  | c :: l =>
    (t ≤ c.1 ∧ binOf start interval c.1 ≤ binOf start interval t + 1) ∧ NoSkipFrom c.1 l

/-- `NoSkipFrom` the construction time. -/
def NoSkip (l : List (ℚ × Nat)) : Prop := NoSkipFrom start interval start l

instance decidableNoSkipFrom : (t : ℚ) → (l : List (ℚ × Nat)) →
    Decidable (NoSkipFrom start interval t l)
  | _, [] => isTrue trivial
  | t, c :: l =>
    haveI := decidableNoSkipFrom c.1 l
    inferInstanceAs
      (Decidable ((t ≤ c.1 ∧ binOf start interval c.1 ≤ binOf start interval t + 1) ∧
        NoSkipFrom start interval c.1 l))

instance (l : List (ℚ × Nat)) : Decidable (NoSkip start interval l) :=
  decidableNoSkipFrom start interval start l

end

/-! ## Intervals -/

section

variable {start interval : Nat}

theorem binOf_start : binOf start interval (start : ℚ) = 0 := by
  simp [binOf]

theorem binOf_mono {t t' : ℚ} (h : t ≤ t') : binOf start interval t ≤ binOf start interval t' :=
  Nat.div_le_div_right (Nat.sub_le_sub_right (Nat.sub_le_sub_right (Nat.ceil_mono h) _) _)

/-- A time in interval `K` or before lies at or before the end of interval `K`. -/
theorem le_end_of_binOf_le (hI : 0 < interval) {t : ℚ} {K : Nat}
    (h : binOf start interval t ≤ K) : t ≤ ((start + (K + 1) * interval : ℕ) : ℚ) := by
  have hlt : ⌈t⌉₊ - start - 1 < (K + 1) * interval :=
    (Nat.div_lt_iff_lt_mul hI).mp (Nat.lt_succ_of_le h)
  exact (Nat.le_ceil t).trans (Nat.cast_le.mpr (by omega))

/-- A time past interval `K` lies after the end of interval `K`. -/
theorem end_lt_of_lt_binOf (hI : 0 < interval) {t : ℚ} {K : Nat}
    (h : K + 1 ≤ binOf start interval t) : ((start + (K + 1) * interval : ℕ) : ℚ) < t := by
  have hle : (K + 1) * interval ≤ ⌈t⌉₊ - start - 1 := (Nat.le_div_iff_mul_le hI).mp h
  have hpos : 0 < (K + 1) * interval := Nat.mul_pos K.succ_pos hI
  exact Nat.lt_ceil.mp (by omega)

theorem binnedBytes_append_singleton (k : Nat) (l : List (ℚ × Nat)) (t : ℚ) (sz : Nat) :
    binnedBytes start interval k (l ++ [(t, sz)]) =
      binnedBytes start interval k l + if binOf start interval t = k then sz else 0 := by
  induction l with
  | nil => simp [binnedBytes]
  | cons c l ih => rw [List.cons_append, binnedBytes, binnedBytes, ih, Nat.add_assoc]

theorem binnedBytes_eq_zero {l : List (ℚ × Nat)} {K k : Nat}
    (hl : ∀ c ∈ l, binOf start interval c.1 ≤ K) (hk : K < k) :
    binnedBytes start interval k l = 0 := by
  induction l with
  | nil => rfl
  | cons c l ih =>
    have hc := hl c (List.mem_cons_self c l)
    simp only [binnedBytes, ih fun c' hc' => hl c' (List.mem_cons_of_mem c hc'),
      if_neg (show binOf start interval c.1 ≠ k by omega)]

/-- Adding a completion of another interval leaves interval `k` as it was. -/
theorem window_append_of_ne {l : List (ℚ × Nat)} {t : ℚ} {k : Nat} (sz : Nat)
    (h : binOf start interval t ≠ k) :
    window start interval (l ++ [(t, sz)]) k = window start interval l k := by
  simp [window, binnedBytes_append_singleton, h]

theorem getIntervalBW_window (hI : 0 < interval) (l : List (ℚ × Nat)) (k : Nat) :
    (window start interval l k).getIntervalBW =
      some ((binnedBytes start interval k l : ℚ) / interval) := by
  have hlen : start + (k + 1) * interval - (start + k * interval) = interval := by
    rw [Nat.succ_mul]; omega
  simp [BWBucket.getIntervalBW, window, hlen, hI.ne']

end

/-! ## The profile of a run -/

/-- The profiler has seen the completions `l`, the last in interval `K`: its buckets are
intervals `0` to `K - 1` with their bytes, and the current bucket is interval `K`. -/
structure Tracks (start interval : Nat) (l : List (ℚ × Nat)) (K : Nat) (p : BWProfiler) :
    Prop where
  interval_eq : p.interval = interval
  buckets_eq : p.buckets = (List.range K).map (window start interval l)
  current_eq : p.currentBucket = window start interval l K
  bins_le : ∀ c ∈ l, binOf start interval c.1 ≤ K

namespace Tracks

variable {start interval : Nat} {l : List (ℚ × Nat)} {K : Nat} {p : BWProfiler}

theorem init : Tracks start interval [] (binOf start interval (start : ℚ))
    (BWProfiler.init start interval) := by
  rw [binOf_start]
  exact ⟨rfl, rfl, by simp [BWProfiler.init, window, binnedBytes], by simp⟩

/-- **One completion**: in the current interval it adds to the current bucket; in the next
one it closes the current bucket and opens that interval. -/
theorem completeReq (hI : 0 < interval) (h : Tracks start interval l K p) {t : ℚ} (sz : Nat)
    (hK : K ≤ binOf start interval t) (hK' : binOf start interval t ≤ K + 1) :
    Tracks start interval (l ++ [(t, sz)]) (binOf start interval t) (p.completeReq t sz) := by
  have hend : p.currentBucket.endTime = start + (K + 1) * interval := by rw [h.current_eq]; rfl
  have hbins : ∀ c ∈ l ++ [(t, sz)], binOf start interval c.1 ≤ binOf start interval t := by
    simp only [List.mem_append, List.mem_singleton]
    rintro c (hc | rfl)
    · exact (h.bins_le c hc).trans hK
    · exact le_rfl
  have hold : ∀ n, binOf start interval t ≥ n →
      (List.range n).map (window start interval (l ++ [(t, sz)])) =
        (List.range n).map (window start interval l) := fun n hn =>
    List.map_congr_left fun k hk => window_append_of_ne sz (by simp at hk; omega)
  rcases Nat.eq_or_lt_of_le hK with hbin | hbin
  · -- the completion lies in the current interval
    rw [p.completeReq_of_le (by rw [hend]; exact le_end_of_binOf_le hI hbin.ge) sz, ← hbin]
    refine ⟨h.interval_eq, h.buckets_eq.trans (hold K hbin.le).symm, ?_, hbin ▸ hbins⟩
    simp [h.current_eq, BWBucket.addReq, window, binnedBytes_append_singleton, ← hbin]
  · -- the completion lies in the next interval
    have hnext : binOf start interval t = K + 1 := by omega
    rw [p.completeReq_of_gt (by rw [hend]; exact end_lt_of_lt_binOf hI hnext.ge) sz, hnext]
    refine ⟨h.interval_eq, ?_, ?_, hnext ▸ hbins⟩
    · show p.buckets ++ [p.currentBucket] = _
      rw [h.buckets_eq, h.current_eq, hold (K + 1) hnext.ge, List.range_succ, List.map_append,
        List.map_singleton]
    · simp only [hend, h.interval_eq, window, binnedBytes_append_singleton, hnext, if_true,
        binnedBytes_eq_zero h.bins_le (Nat.lt_succ_self K), Nat.zero_add, BWBucket.mk.injEq,
        true_and, and_true]
      rw [Nat.succ_mul (K + 1)]
      omega

/-- **A run without skips**: from a state that saw `l` up to time `t₀`, completions that
neither go back nor skip an interval keep the profile equal to the binned histogram. -/
theorem completeAll (hI : 0 < interval) {t₀ : ℚ} {l' : List (ℚ × Nat)}
    (h : Tracks start interval l (binOf start interval t₀) p)
    (hc : NoSkipFrom start interval t₀ l') :
    Tracks start interval (l ++ l') (binOf start interval ((l'.map Prod.fst).getLastD t₀))
      (p.completeAll l') := by
  induction l' generalizing l t₀ p with
  | nil => simpa [BWProfiler.completeAll] using h
  | cons c l' ih =>
    obtain ⟨⟨hle, hskip⟩, hc⟩ := hc
    have h₁ := h.completeReq hI c.2 (binOf_mono hle) hskip
    rw [List.map_cons, List.getLastD_cons, ← List.singleton_append, ← List.append_assoc]
    exact ih h₁ hc

end Tracks

/-- **The profile of a run without skips is the binned histogram**: after completions whose
times neither go back nor skip an interval, bucket `k` holds the bytes completed in interval
`k`, for every interval up to the last completion's. -/
theorem completeAll_tracks {start interval : Nat} (hI : 0 < interval) {l : List (ℚ × Nat)}
    (h : NoSkip start interval l) :
    Tracks start interval l (binOf start interval ((l.map Prod.fst).getLastD start))
      ((BWProfiler.init start interval).completeAll l) :=
  Tracks.init.completeAll hI h

theorem mapM_map_eq_some {α β γ : Type} {f : β → Option γ} {g : α → β} {k : α → γ}
    {l : List α} (h : ∀ a ∈ l, f (g a) = some (k a)) : (l.map g).mapM f = some (l.map k) := by
  induction l with
  | nil => rfl
  | cons a l ih =>
    simp only [List.map_cons, List.mapM_cons, h a (List.mem_cons_self a l),
      ih fun a' ha' => h a' (List.mem_cons_of_mem a ha')]
    rfl

/-- A profiler that tracks `l` up to interval `K` reports, for each interval up to `K`, the
bytes completed in it over the interval length. -/
theorem Tracks.getBucketBWs {start interval : Nat} (hI : 0 < interval) {l : List (ℚ × Nat)}
    {K : Nat} {p : BWProfiler} (h : Tracks start interval l K p) :
    p.getBucketBWs.1 =
      some ((List.range (K + 1)).map fun k => (binnedBytes start interval k l : ℚ) / interval) := by
  simp only [BWProfiler.getBucketBWs]
  rw [h.buckets_eq, h.current_eq, ← List.map_singleton (window start interval l),
    ← List.map_append, ← List.range_succ]
  exact mapM_map_eq_some fun k _ => getIntervalBW_window hI l k

/-- **The bandwidths the DRAM model reports**: after completions whose times neither go back
nor skip an interval, `getBucketBWs` returns, for each interval up to the last completion's,
the bytes completed in it over the interval length. -/
theorem getBucketBWs_eq_binned {start interval : Nat} (hI : 0 < interval) {l : List (ℚ × Nat)}
    (h : NoSkip start interval l) :
    ((BWProfiler.init start interval).completeAll l).getBucketBWs.1 =
      some ((List.range (binOf start interval ((l.map Prod.fst).getLastD start) + 1)).map
        fun k => (binnedBytes start interval k l : ℚ) / interval) :=
  (completeAll_tracks hI h).getBucketBWs hI

/-- Completions at 30, 10030 and 15000 with the model's interval of 10000 cycles: 64 bytes in
the first interval and 128 in the second. -/
theorem getBucketBWs_two_intervals :
    NoSkip 0 10000 [(30, 64), (10030, 64), (15000, 64)] ∧
      ((BWProfiler.init 0 10000).completeAll [(30, 64), (10030, 64), (15000, 64)]).getBucketBWs.1 =
        some [64 / 10000, 128 / 10000] := by
  refine ⟨by decide, ?_⟩
  rw [getBucketBWs_eq_binned (by decide) (by decide)]
  norm_num [binOf, binnedBytes, List.range_succ]

/-! ## Runs that skip intervals -/

section

variable (start interval : Nat)

/-- The completions as the profiler bins them, its current bucket being interval `K`: a
completion more than one interval past it is counted at the end of interval `K + 1`, the
bucket `completeReq` opens for it. -/
def clampFrom (K : Nat) : List (ℚ × Nat) → List (ℚ × Nat)
  | [] => []
  | c :: l =>
    if binOf start interval c.1 ≤ K + 1 then c :: clampFrom (binOf start interval c.1) l
    else (((start + (K + 2) * interval : ℕ) : ℚ), c.2) :: clampFrom (K + 1) l

/-- `clampFrom` the first interval. -/
def clampRun (l : List (ℚ × Nat)) : List (ℚ × Nat) := clampFrom start interval 0 l

end

section

variable {start interval : Nat}

/-- The end of interval `K` lies in interval `K`. -/
theorem binOf_end (hI : 0 < interval) (K : Nat) :
    binOf start interval ((start + (K + 1) * interval : ℕ) : ℚ) = K := by
  rw [binOf, Nat.ceil_natCast]
  apply Nat.div_eq_of_lt_le <;> rw [Nat.succ_mul] <;> omega

/-- **The profiler cannot tell a run from its clamped one**: from a bucket ending at interval
`K`, completions whose times do not decrease leave it where their clamped times leave it. -/
theorem completeAll_clampFrom (hI : 0 < interval) {K : Nat} {t₀ : ℚ} {p : BWProfiler}
    {l : List (ℚ × Nat)} (hp : p.interval = interval)
    (hend : p.currentBucket.endTime = start + (K + 1) * interval)
    (hK : K ≤ binOf start interval t₀) (hl : List.Chain (· ≤ ·) t₀ (l.map Prod.fst)) :
    p.completeAll (clampFrom start interval K l) = p.completeAll l := by
  induction l generalizing K t₀ p with
  | nil => rfl
  | cons c l ih =>
    rw [List.map_cons, List.chain_cons] at hl
    have hKc : K ≤ binOf start interval c.1 := hK.trans (binOf_mono hl.1)
    have hp' : (p.completeReq c.1 c.2).interval = interval := by
      rw [BWProfiler.completeReq]; split <;> exact hp
    rw [clampFrom, BWProfiler.completeAll_cons]
    split
    · -- the completion lies in the current interval or the next: the profiler follows it
      rename_i hc
      rw [BWProfiler.completeAll_cons]
      refine ih hp' ?_ le_rfl hl.2
      rcases Nat.eq_or_lt_of_le hKc with hbin | hbin
      · rw [BWProfiler.completeReq_of_le (by rw [hend]; exact le_end_of_binOf_le hI hbin.ge)]
        show p.currentBucket.endTime = _
        rw [hend, ← hbin]
      · rw [BWProfiler.completeReq_of_gt (by rw [hend]; exact end_lt_of_lt_binOf hI hbin)]
        show p.currentBucket.endTime + p.interval = _
        rw [hend, hp, show binOf start interval c.1 = K + 1 by omega, Nat.succ_mul (K + 1)]
        omega
    · -- the completion skips an interval: it opens interval `K + 1` as the clamped one does
      rename_i hc
      have hgt : ((start + (K + 1) * interval : ℕ) : ℚ) < c.1 :=
        end_lt_of_lt_binOf hI (by omega)
      have hgt' : ((start + (K + 1) * interval : ℕ) : ℚ) < ((start + (K + 2) * interval : ℕ) : ℚ) :=
        Nat.cast_lt.mpr (by rw [Nat.succ_mul (K + 1)]; omega)
      rw [BWProfiler.completeAll_cons, BWProfiler.completeReq_congr c.2
        (iff_of_true (by rw [hend]; exact hgt') (by rw [hend]; exact hgt))]
      refine ih hp' ?_ (by omega) hl.2
      rw [BWProfiler.completeReq_of_gt (by rw [hend]; exact hgt)]
      show p.currentBucket.endTime + p.interval = _
      rw [hend, hp, Nat.succ_mul (K + 1)]
      omega

/-- **A clamped run skips no interval.** -/
theorem noSkipFrom_clampFrom (hI : 0 < interval) {K : Nat} {τ t₀ : ℚ} {l : List (ℚ × Nat)}
    (hτ : binOf start interval τ = K) (hτt : τ ≤ t₀)
    (hl : List.Chain (· ≤ ·) t₀ (l.map Prod.fst)) :
    NoSkipFrom start interval τ (clampFrom start interval K l) := by
  induction l generalizing K τ t₀ with
  | nil => trivial
  | cons c l ih =>
    rw [List.map_cons, List.chain_cons] at hl
    rw [clampFrom]
    split
    · rename_i hc
      exact ⟨⟨hτt.trans hl.1, hτ ▸ hc⟩, ih rfl le_rfl hl.2⟩
    · -- the clamped time ends interval `K + 1`, after `τ` and before the completion
      rename_i hc
      have hend : binOf start interval ((start + (K + 2) * interval : ℕ) : ℚ) = K + 1 :=
        binOf_end hI (K + 1)
      refine ⟨⟨?_, by rw [hend, hτ]⟩, ih hend (end_lt_of_lt_binOf hI (by omega)).le hl.2⟩
      exact (le_end_of_binOf_le hI hτ.le).trans
        (Nat.cast_le.mpr (by rw [Nat.succ_mul (K + 1)]; omega))

/-- **The profile of a run that may skip intervals**: after completions whose times never go
back, bucket `k` holds the bytes that `clampRun` puts in interval `k`. A completion more than
one interval past the bucket of the one before it is counted in the interval right after that
bucket, however far past it lies, and the buckets lag behind the intervals from then on. -/
theorem getBucketBWs_eq_binned_clampRun (hI : 0 < interval) {l : List (ℚ × Nat)}
    (h : List.Chain (· ≤ ·) (start : ℚ) (l.map Prod.fst)) :
    ((BWProfiler.init start interval).completeAll l).getBucketBWs.1 =
      some ((List.range (binOf start interval
          (((clampRun start interval l).map Prod.fst).getLastD start) + 1)).map
        fun k => (binnedBytes start interval k (clampRun start interval l) : ℚ) / interval) := by
  rw [← @completeAll_clampFrom start interval hI 0 start (BWProfiler.init start interval) l rfl
    (by simp [BWProfiler.init]) (Nat.zero_le _) h]
  exact (completeAll_tracks hI (noSkipFrom_clampFrom hI binOf_start le_rfl h)).getBucketBWs hI

/-- The bytes completed at 25 land in the bucket of `(10, 20]`, as if they completed at 20. -/
example : clampRun 0 10 [(5, 64), (25, 64)] = [(5, 64), (20, 64)] ∧
    let p := (BWProfiler.init 0 10).completeAll [(5, 64), (25, 64)]
    p.buckets ++ [p.currentBucket] = [⟨0, 10, 64⟩, ⟨10, 20, 64⟩] := by
  decide

end

end QueueFlex
