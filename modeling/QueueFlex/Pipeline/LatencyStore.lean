import QueueFlex.Pipeline.Basic
import QueueFlex.Pipeline.Double

/-! # The latency stores and their percentiles

`src/components/latency_store.py`. A `LatencyStoreWithBreakdown` keeps, when `store_objects`
is set, the request objects it records in a dict keyed by request id, and
`get_req_at_percentile` sorts them by total service time and returns the one at ordinal
`floor(len(s) * (float(perc) / 100))`. `ExactLatStore.get_value_at_percentile` does the same
over a list of latencies. Both are `atPercentile` at a key. A store built with
`store_objects=False`, as the `mica_rlu_jbscrew` driver builds it, keeps nothing.

The ordinal is computed in Python floats (`pyOrdinal`): `float(perc) / 100` and the product
with the length each round to the nearest double. For a whole percentile below 100 and up to
`2^40` candidates the ordinal is `⌊n * perc / 100⌋`, or one less when `n * perc / 100` is a whole
number that the rounding undershoots (`pyOrdinal_bounds`): at `n = 100` and `perc = 29`,
`0.29` is stored below `29 / 100` and the ordinal is 28 (`pyOrdinal_hundred_twentyNine`).

The ordinal is then in range, and the returned object is an order statistic of what is
stored: at most `k` objects take strictly less time and more than `k` take at most as long,
for `k` the ordinal (`getReqAtPercentile_order_statistic`). At `perc = 100` the ordinal is the
length of the list and the index raises (`atPercentile_hundred`).

The HdrHistograms the store also feeds are left out: they answer the other percentile
queries, approximately. -/

namespace QueueFlex

/-- `s[i]` on a Python list: a negative index counts from the end, and an index out of range
raises `IndexError`. -/
def pyIndex {α : Type} (l : List α) (i : Int) : Except String α :=
  let j := if i < 0 then l.length + i else i
  match (if 0 ≤ j then l[j.toNat]? else none) with
  | some a => .ok a
  | none => .error "list index out of range"

theorem pyIndex_of_lt {α : Type} (l : List α) {i : Nat} (hi : i < l.length) :
    pyIndex l i = .ok l[i] := by
  have hneg : ¬(i : Int) < 0 := by omega
  simp only [pyIndex, hneg, if_false, Int.natCast_nonneg, if_true, Int.toNat_ofNat,
    List.getElem?_eq_getElem hi]

theorem pyIndex_of_le {α : Type} (l : List α) {i : Nat} (hi : l.length ≤ i) :
    pyIndex l i = .error "list index out of range" := by
  have hneg : ¬(i : Int) < 0 := by omega
  simp only [pyIndex, hneg, if_false, Int.natCast_nonneg, if_true, Int.toNat_ofNat,
    List.getElem?_eq_none hi]

/-- `d[k] = v` on a dict kept as its items in insertion order: an existing key keeps its
place and takes the new value. -/
def dictSet {κ α : Type} [DecidableEq κ] (d : List (κ × α)) (k : κ) (v : α) :
    List (κ × α) :=
  if d.any (·.1 == k) then d.map fun e => if e.1 = k then (k, v) else e else d ++ [(k, v)]

section Percentile

/-- `floor(len(s) * (float(perc) / 100))` in Python floats: `float(perc)`, the division, the
conversion of the length and the product each round to the nearest double. -/
def pyOrdinal (n : Nat) (perc : ℚ) : Int :=
  ⌊toDouble (toDouble n * toDouble (toDouble perc / 100))⌋

/-- The product of `pyOrdinal`, before the floor, is within `1/100` of `n * perc / 100`: the two
roundings err by at most `2^-53` of the value each, and the value is below `2^40`. -/
theorem abs_pyProduct_sub_lt {n perc : Nat} (hn : n ≤ 2 ^ 40) (hp : perc < 100) :
    |toDouble (toDouble n * toDouble (toDouble perc / 100)) - n * perc / 100| < 1 / 100 := by
  rw [toDouble_natCast (n := perc) (by omega), toDouble_natCast (n := n) (by omega)]
  set y := toDouble ((perc : ℚ) / 100)
  have hy := abs_toDouble_sub_le_rel ((perc : ℚ) / 100)
  rw [abs_of_nonneg (by positivity : (0 : ℚ) ≤ perc / 100)] at hy
  have hz : |n * y - n * perc / 100| ≤ n * perc / 100 / 2 ^ 53 + n / 2 ^ 1075 :=
    calc |n * y - n * perc / 100| = n * |y - perc / 100| := by
          rw [← mul_div_assoc', ← mul_sub, abs_mul, Nat.abs_cast]
      _ ≤ n * (perc / 100 / 2 ^ 53 + 1 / 2 ^ 1075) := mul_le_mul_of_nonneg_left hy n.cast_nonneg
      _ = n * perc / 100 / 2 ^ 53 + n / 2 ^ 1075 := by ring
  have hw := abs_toDouble_sub_le_rel (n * y)
  rw [abs_of_nonneg (mul_nonneg n.cast_nonneg (toDouble_nonneg (by positivity)))] at hw
  have hA : (n : ℚ) * perc ≤ 99 * 2 ^ 40 := by
    exact_mod_cast (Nat.mul_le_mul hn (Nat.lt_succ_iff.mp hp)).trans_eq (Nat.mul_comm _ _)
  have hn' : (n : ℚ) ≤ 2 ^ 40 := by exact_mod_cast hn
  rw [abs_le] at hz hw
  rw [abs_lt]
  constructor <;> linarith [(by positivity : (0 : ℚ) ≤ n * perc)]

/-- **The rounded ordinal.** For a whole percentile below 100 and at most `2^40` candidates the
ordinal is `⌊n * perc / 100⌋`, or one less when `100` divides `n * perc`. -/
theorem pyOrdinal_bounds {n perc : Nat} (hn : n ≤ 2 ^ 40) (hp : perc < 100) :
    0 ≤ pyOrdinal n perc ∧
      ((n * perc / 100 : Nat) : Int) - (if n * perc % 100 = 0 then 1 else 0) ≤ pyOrdinal n perc ∧
      pyOrdinal n perc ≤ (n * perc / 100 : Nat) := by
  obtain ⟨hlo, hhi⟩ := abs_lt.mp (abs_pyProduct_sub_lt hn hp)
  have hw0 : 0 ≤ toDouble (toDouble n * toDouble (toDouble perc / 100)) :=
    toDouble_nonneg (mul_nonneg (toDouble_nonneg n.cast_nonneg)
      (toDouble_nonneg (div_nonneg (toDouble_nonneg perc.cast_nonneg) (by norm_num))))
  rw [pyOrdinal]
  generalize toDouble (toDouble n * toDouble (toDouble perc / 100)) = w at hlo hhi hw0 ⊢
  -- `n * perc` is `100 * ⌊n * perc / 100⌋` plus a remainder below 100
  generalize hN : n * perc / 100 = N
  generalize hR : n * perc % 100 = R
  have hA : (n : ℚ) * perc = 100 * N + R := by
    rw [← hN, ← hR]; exact_mod_cast (Nat.div_add_mod (n * perc) 100).symm
  have hr : (R : ℚ) ≤ 99 := by
    rw [← hR]; exact_mod_cast Nat.lt_succ_iff.mp (Nat.mod_lt _ (by norm_num))
  refine ⟨Int.floor_nonneg.mpr hw0, Int.le_floor.mpr ?_, Int.lt_add_one_iff.mp
    (Int.floor_lt.mpr ?_)⟩
  · split
    · push_cast
      linarith
    · have : (1 : ℚ) ≤ R := by exact_mod_cast Nat.one_le_iff_ne_zero.mpr ‹_›
      push_cast
      linarith
  · push_cast
    linarith

/-- At 100 candidates and `perc = 29`, `0.29` is stored as a double below `29 / 100`, the
product `28.999999999999996` rounds below 29, and the ordinal is 28, not `⌊100 * 29 / 100⌋`. -/
theorem pyOrdinal_hundred_twentyNine : pyOrdinal 100 29 = 28 := by
  have h100 : toDouble ((100 : ℕ) : ℚ) = 100 := toDouble_natCast (by norm_num)
  have h29 : toDouble (29 : ℚ) = 29 := by exact_mod_cast toDouble_natCast (n := 29) (by norm_num)
  have hy : toDouble ((29 : ℚ) / 100) = 5224175567749775 * 2 ^ (-2 - 52 : ℤ) :=
    toDouble_eq_of_near (by norm_num) (by norm_num [le_abs]) (by norm_num [abs_lt])
      (by norm_num [abs_lt])
  have hw : toDouble (100 * (5224175567749775 * 2 ^ (-2 - 52 : ℤ))) =
      8162774324609023 * 2 ^ (4 - 52 : ℤ) :=
    toDouble_eq_of_near (by norm_num) (by norm_num [le_abs]) (by norm_num [abs_lt])
      (by norm_num [abs_lt])
  rw [pyOrdinal, h100, h29, hy, hw, Int.floor_eq_iff]
  norm_num

variable {α β : Type} [LinearOrder β] (key : α → β)

/-- The body shared by `get_req_at_percentile` and `ExactLatStore.get_value_at_percentile`:
`sorted(f, key=key)` (a stable sort, as `List.mergeSort` is), `None` when it is empty, and
otherwise the element at `floor(len(s) * (float(perc) / 100))`. -/
def atPercentile (f : List α) (perc : ℚ) : Except String (Option α) :=
  let s := f.mergeSort fun a b => key a ≤ key b
  if s.length = 0 then .ok none
  else some <$> pyIndex s (pyOrdinal s.length perc)

theorem pairwise_mergeSort_key (f : List α) :
    (f.mergeSort fun a b => key a ≤ key b).Pairwise fun a b => key a ≤ key b := by
  have : (f.mergeSort fun a b => key a ≤ key b).Pairwise fun a b => decide (key a ≤ key b) :=
    List.sorted_mergeSort
      (fun a b c hab hbc => by simp only [decide_eq_true_eq] at *; exact hab.trans hbc)
      (fun a b => by simpa using le_total (key a) (key b)) f
  simpa using this

/-- In a list sorted by `key`, the element at position `i` has at most `i` elements strictly
below it and more than `i` at or below it. -/
theorem countP_around_of_pairwise {s : List α} (hs : s.Pairwise fun a b => key a ≤ key b)
    {i : Nat} (hi : i < s.length) :
    s.countP (fun x => key x < key s[i]) ≤ i ∧ i < s.countP (fun x => key x ≤ key s[i]) := by
  obtain ⟨A, B, hAB, rfl⟩ : ∃ A B, s = A ++ s[i] :: B ∧ A.length = i :=
    ⟨_, _, by rw [← List.drop_eq_getElem_cons, List.take_append_drop],
      List.length_take_of_le hi.le⟩
  generalize s[A.length] = r at hAB ⊢
  subst hAB
  rw [List.pairwise_append, List.pairwise_cons] at hs
  obtain ⟨-, ⟨hrB, -⟩, hAr⟩ := hs
  constructor
  · have hB : (r :: B).countP (fun x => key x < key r) = 0 :=
      List.countP_eq_zero.2 fun b hb => by
        rcases List.mem_cons.1 hb with rfl | hb
        · simp
        · simpa using hrB b hb
    rw [List.countP_append, hB, Nat.add_zero]
    exact List.countP_le_length _
  · have hA : A.countP (fun x => key x ≤ key r) = A.length :=
      List.countP_eq_length.2 fun a ha => by simpa using hAr a ha r (List.mem_cons_self r B)
    rw [List.countP_append, hA, List.countP_cons_of_pos _ _ (by simp)]
    omega

/-- For a whole percentile below 100 and at most `2^40` elements the percentile never raises;
it is `None` exactly when `f` is empty, and otherwise an element of `f` whose key is the
`k`-th smallest, for `k` the rounded ordinal. -/
theorem atPercentile_order_statistic (f : List α) {perc : Nat} (hp : perc < 100)
    (hn : f.length ≤ 2 ^ 40) :
    ∃ res, atPercentile key f perc = .ok res ∧ (res = none ↔ f = []) ∧
      ∀ r, res = some r → r ∈ f ∧
        f.countP (fun x => key x < key r) ≤ (pyOrdinal f.length perc).toNat ∧
        (pyOrdinal f.length perc).toNat < f.countP (fun x => key x ≤ key r) := by
  have hperm := List.mergeSort_perm f fun a b => key a ≤ key b
  by_cases hf : f = []
  · subst hf
    exact ⟨none, by simp [atPercentile], by simp, by simp⟩
  have hn0 : 0 < f.length := List.length_pos.2 hf
  -- the ordinal is a natural below the length; the rounding plays no further part
  obtain ⟨h0, -, hle⟩ := pyOrdinal_bounds hn hp
  have hlt : f.length * perc / 100 < f.length :=
    Nat.div_lt_of_lt_mul (by rw [Nat.mul_comm 100]; exact Nat.mul_lt_mul_of_pos_left hp hn0)
  simp only [atPercentile, hperm.length_eq, hn0.ne', if_false]
  generalize pyOrdinal f.length perc = k at h0 hle ⊢
  lift k to Nat using h0
  have hk : k < (f.mergeSort fun a b => key a ≤ key b).length := by
    rw [hperm.length_eq]; omega
  refine ⟨some (f.mergeSort fun a b => key a ≤ key b)[k], ?_, by simpa using hf, fun r hr => ?_⟩
  · rw [pyIndex_of_lt _ hk]
    rfl
  · cases hr
    rw [Int.toNat_natCast, ← hperm.countP_eq, ← hperm.countP_eq]
    exact ⟨hperm.subset (List.getElem_mem _),
      countP_around_of_pairwise key (pairwise_mergeSort_key key f) hk⟩

/-- At `perc = 100` the ordinal is the length of the sorted list, and indexing raises. -/
theorem atPercentile_hundred {f : List α} (hf : f ≠ []) (hn : f.length < 2 ^ 53) :
    atPercentile key f 100 = .error "list index out of range" := by
  have hperm := List.mergeSort_perm f fun a b => key a ≤ key b
  have hn0 : 0 < (f.mergeSort fun a b => key a ≤ key b).length := by
    rw [hperm.length_eq]; exact List.length_pos.2 hf
  have hk : pyOrdinal (f.mergeSort fun a b => key a ≤ key b).length 100 =
      ((f.mergeSort fun a b => key a ≤ key b).length : Nat) := by
    have h100 : toDouble (100 : ℚ) = 100 := by
      exact_mod_cast toDouble_natCast (n := 100) (by norm_num)
    have h1 : toDouble (1 : ℚ) = 1 := by exact_mod_cast toDouble_natCast (n := 1) (by norm_num)
    rw [pyOrdinal, h100, div_self (by norm_num), h1, mul_one,
      toDouble_natCast (hperm.length_eq ▸ hn), toDouble_natCast (hperm.length_eq ▸ hn),
      Int.floor_natCast]
  simp only [atPercentile, hn0.ne', if_false, hk, pyIndex_of_le _ le_rfl]
  rfl

end Percentile

/-- `getTotalServiceTime`: `completion_time - generated_time` of the object's stamps. -/
def Stamps.getTotalServiceTime (st : Stamps) : Int := st.completionTime - st.generatedTime

/-- A `LatencyStoreWithBreakdown` without its histograms: `store_objects` and
`raw_req_objects`, the dict from request id to request object. -/
structure LatencyStoreWithBreakdown where
  storeObjects : Bool
  rawReqObjects : List (Int × RPCRequest)
deriving DecidableEq, Repr

namespace LatencyStoreWithBreakdown

/-- `LatencyStoreWithBreakdown(store_objects)`. -/
def init (storeObjects : Bool) : LatencyStoreWithBreakdown := ⟨storeObjects, []⟩

/-- `record_value(req, lat)`: the object is kept under its id when `store_objects` is set. -/
def recordValue (s : LatencyStoreWithBreakdown) (req : RPCRequest) : LatencyStoreWithBreakdown :=
  if s.storeObjects then { s with rawReqObjects := dictSet s.rawReqObjects req.num req } else s

/-- The objects `get_req_at_percentile` sorts: the dict's values, kept by their write flag
when `filter_reqs` is set. -/
def candidates (s : LatencyStoreWithBreakdown) (filterReqs isWrite : Bool) : List RPCRequest :=
  let vals := s.rawReqObjects.map Prod.snd
  if filterReqs then
    if isWrite then vals.filter fun x => x.isWrite else vals.filter fun x => !x.isWrite
  else vals

/-- `get_req_at_percentile(perc, filter_reqs, is_write)`, with the stamps of every request
object; the sort key is the object's `getTotalServiceTime()`. -/
def getReqAtPercentile (stamps : Nat → Stamps) (s : LatencyStoreWithBreakdown) (perc : ℚ)
    (filterReqs isWrite : Bool) : Except String (Option RPCRequest) :=
  if !s.storeObjects then .ok none
  else atPercentile (fun r => (stamps r.uid).getTotalServiceTime) (s.candidates filterReqs isWrite)
    perc

/-- `get_read_objects`: the reads, sorted by total service time. -/
def getReadObjects (stamps : Nat → Stamps) (s : LatencyStoreWithBreakdown) :
    Option (List RPCRequest) :=
  if !s.storeObjects then none
  else some ((s.candidates true false).mergeSort fun a b =>
    (stamps a.uid).getTotalServiceTime ≤ (stamps b.uid).getTotalServiceTime)

/-- `get_write_objects`: the writes, sorted by total service time. -/
def getWriteObjects (stamps : Nat → Stamps) (s : LatencyStoreWithBreakdown) :
    Option (List RPCRequest) :=
  if !s.storeObjects then none
  else some ((s.candidates true true).mergeSort fun a b =>
    (stamps a.uid).getTotalServiceTime ≤ (stamps b.uid).getTotalServiceTime)

/-- For a whole percentile `perc < 100` and at most `2^40` candidates, `get_req_at_percentile`
never raises. It returns `None` exactly when the store keeps no objects or none of the
requested kind, and otherwise one of the stored objects of that kind whose total service time
is the order statistic at the rounded ordinal `k`: at most `k` of the `n` candidates take
strictly less time, and more than `k` take at most as long. `k` is `⌊n * perc / 100⌋`, or one
less when `100` divides `n * perc`. -/
theorem getReqAtPercentile_order_statistic (stamps : Nat → Stamps) (s : LatencyStoreWithBreakdown)
    {perc : Nat} (hp : perc < 100) (filterReqs isWrite : Bool)
    (hn : (s.candidates filterReqs isWrite).length ≤ 2 ^ 40) :
    ∃ res, s.getReqAtPercentile stamps perc filterReqs isWrite = .ok res ∧
      (res = none ↔ s.storeObjects = false ∨ s.candidates filterReqs isWrite = []) ∧
      ∀ r, res = some r → r ∈ s.candidates filterReqs isWrite ∧
        (s.candidates filterReqs isWrite).countP (fun x =>
            (stamps x.uid).getTotalServiceTime < (stamps r.uid).getTotalServiceTime) ≤
          (pyOrdinal (s.candidates filterReqs isWrite).length perc).toNat ∧
        (pyOrdinal (s.candidates filterReqs isWrite).length perc).toNat <
          (s.candidates filterReqs isWrite).countP (fun x =>
            (stamps x.uid).getTotalServiceTime ≤ (stamps r.uid).getTotalServiceTime) ∧
        (s.candidates filterReqs isWrite).length * perc / 100 -
            (if (s.candidates filterReqs isWrite).length * perc % 100 = 0 then 1 else 0) ≤
          (pyOrdinal (s.candidates filterReqs isWrite).length perc).toNat ∧
        (pyOrdinal (s.candidates filterReqs isWrite).length perc).toNat ≤
          (s.candidates filterReqs isWrite).length * perc / 100 := by
  obtain ⟨h0, hlo, hhi⟩ := pyOrdinal_bounds hn hp
  have hk : (s.candidates filterReqs isWrite).length * perc / 100 -
        (if (s.candidates filterReqs isWrite).length * perc % 100 = 0 then 1 else 0) ≤
        (pyOrdinal (s.candidates filterReqs isWrite).length perc).toNat ∧
      (pyOrdinal (s.candidates filterReqs isWrite).length perc).toNat ≤
        (s.candidates filterReqs isWrite).length * perc / 100 := by
    split at hlo <;> simp only [if_pos, if_neg, *] <;> omega
  cases hs : s.storeObjects
  · exact ⟨none, by simp [getReqAtPercentile, hs], by simp, by simp⟩
  · obtain ⟨res, h, hnone, hsome⟩ := atPercentile_order_statistic
      (fun r => (stamps r.uid).getTotalServiceTime) (s.candidates filterReqs isWrite) hp hn
    refine ⟨res, by simpa [getReqAtPercentile, hs] using h, by simpa using hnone, fun r hr => ?_⟩
    obtain ⟨hm, hlt, hle⟩ := hsome r hr
    exact ⟨hm, hlt, hle, hk⟩

/-- Two reads, with ids 0 and 1, recorded by a store that keeps objects. -/
def twoReads : LatencyStoreWithBreakdown :=
  ((init true).recordValue ⟨0, 0, 0, false, 0⟩).recordValue ⟨1, 1, 1, false, 1⟩

/-- Object `u` is generated at 0 and completes at `10 * (u + 1)`. -/
def twoReadsStamps (u : Nat) : Stamps := { Stamps.init with completionTime := 10 * (u + 1) }

/-- Of two stored reads, the 99th percentile read is the slower one: the ordinal is
`⌊2 * 99 / 100⌋ = 1`, and `100` does not divide `198`. -/
theorem twoReads_p99_is_slower :
    99 < 100 ∧ (twoReads.candidates true false).length ≤ 2 ^ 40 ∧
      twoReads.getReqAtPercentile twoReadsStamps 99 true false =
        .ok (some ⟨1, 1, 1, false, 1⟩) := by
  have hc :
      twoReads.candidates true false = [⟨0, 0, 0, false, 0⟩, ⟨1, 1, 1, false, 1⟩] := by
    decide
  have hn : (twoReads.candidates true false).length ≤ 2 ^ 40 := by rw [hc]; decide
  obtain ⟨res, hres, hnone, hsome⟩ :=
    @getReqAtPercentile_order_statistic twoReadsStamps twoReads 99 (by norm_num) true false hn
  obtain ⟨r, rfl⟩ := Option.ne_none_iff_exists'.1 fun h => by
    rcases hnone.1 h with h | h
    · exact absurd h (by decide)
    · simp [hc] at h
  obtain ⟨hr, -, hle, hlo, -⟩ := hsome r rfl
  simp only [hc, List.length_cons, List.length_singleton] at hr hle hlo
  norm_num at hlo
  refine ⟨by norm_num, hn, hres.trans ?_⟩
  rcases List.mem_pair.1 hr with rfl | rfl
  · have : 1 < List.countP _ _ := lt_of_le_of_lt hlo hle
    simp [twoReadsStamps, Stamps.getTotalServiceTime] at this
  · rfl

end LatencyStoreWithBreakdown

/-- An `ExactLatStore`: the latencies recorded, in order. -/
structure ExactLatStore where
  latencies : List Int
deriving DecidableEq, Repr

namespace ExactLatStore

/-- `record_value(lat)`. -/
def recordValue (s : ExactLatStore) (lat : Int) : ExactLatStore := ⟨s.latencies ++ [lat]⟩

/-- `get_value_at_percentile(perc)`: the latency at the ordinal of the sorted list, `0` when
nothing was recorded. -/
def getValueAtPercentile (s : ExactLatStore) (perc : ℚ) : Except String Int :=
  (atPercentile id s.latencies perc).map fun v => v.getD 0

end ExactLatStore

end QueueFlex
