import Mathlib.Data.List.Range
import QueueFlex.Cache.DataCache

/-! # Remote snoops of the cache-locality model

With `model_cache_locality` on, `MICAIndexAccessor.run` looks the pair of each request it has
served up in its `PrivateDataCache`. On a miss it peeks the caches of the other workers
(`snoop_cache`) and records whether any of them held the key, and how many. The drivers give
every worker the list of all `C` workers (`set_remote_cores(cores)`, which copies it).

The other workers are found as `core_list_without_self = self.remote_cores` followed by
`del core_list_without_self[self.id]`. The name is bound to the worker's own list, not to a
copy, so every miss deletes one more entry of `remote_cores`. After `m` misses, worker `i`
holds the list without workers `i, ..., i + m - 1` (`remoteCoresAfter`); its next miss deletes
worker `i + m` and snoops the rest, or raises `IndexError` once `i + m ≥ C`
(`miss_deletes_from_remote_cores`). -/

namespace QueueFlex

/-- The cache-locality state of one `MICAIndexAccessor`: its private cache, its
`remote_cores` (the ids of the workers in it), and the counters of the locality block. -/
structure LocalityCore where
  cache : PrivateDataCache
  remoteCores : List Nat
  cacheAccesses : Nat
  accessesWLocality : Nat
  accessesWRemoteLocality : Nat
  remLocalityHistogram : Nat → Nat

/-- The misses counted so far. -/
def LocalityCore.misses (k : LocalityCore) : Nat := k.cacheAccesses - k.accessesWLocality

/-- A worker's list and access counters, which no snoop touches. -/
def LocalityCore.ledger (k : LocalityCore) : List Nat × Nat × Nat :=
  (k.remoteCores, k.cacheAccesses, k.accessesWLocality)

/-- The locality state of every worker, by id. -/
structure LocalityWorld where
  cores : Nat → LocalityCore

namespace LocalityWorld

/-- `numCores` workers built with `PrivateDataCache(cache_size)`, each given the list of all of
them by `set_remote_cores(cores)`. -/
def init (numCores : Nat) (cacheSize : Int) : LocalityWorld :=
  ⟨fun _ => ⟨.new cacheSize, List.range numCores, 0, 0, 0, fun _ => 0⟩⟩

/-- Worker `i` replaced by `k`. -/
def setCore (w : LocalityWorld) (i : Nat) (k : LocalityCore) : LocalityWorld :=
  ⟨Function.update w.cores i k⟩

/-- `list(map(lambda x: x.snoop_cache(kvpair), core_list))`: each listed worker's cache is
peeked in turn. -/
def snoopAll (w : LocalityWorld) (p : KVPair) : List Nat → List Bool × LocalityWorld
  | [] => ([], w)
  | x :: xs =>
    let w' := w.setCore x { w.cores x with cache := ((w.cores x).cache.peek p).2 }
    (((w.cores x).cache.peek p).1 :: (snoopAll w' p xs).1, (snoopAll w' p xs).2)

/-- `del l[i]`; `none` for `IndexError`. -/
def delAt (l : List Nat) (i : Nat) : Option (List Nat) :=
  if i < l.length then some (l.eraseIdx i) else none

/-- The remote snoop of a miss of worker `selfId` over `coreList`, and the counters it
updates: `accesses_w_remote_locality` when any snoop hit, and `rem_locality_histogram` at
the number of hits. -/
def remoteSnoop (w : LocalityWorld) (selfId : Nat) (p : KVPair) (coreList : List Nat) :
    LocalityWorld :=
  let (rcHits, w) := snoopAll w p coreList
  let k := w.cores selfId
  let numRcHits := rcHits.count true
  w.setCore selfId { k with
    accessesWRemoteLocality :=
      if rcHits.any id then k.accessesWRemoteLocality + 1 else k.accessesWRemoteLocality
    remLocalityHistogram :=
      Function.update k.remLocalityHistogram numRcHits (k.remLocalityHistogram numRcHits + 1) }

/-- The cache-locality block of `MICAIndexAccessor.run` on worker `selfId`, for the pair of the
request it served. `core_list_without_self` is `self.remote_cores` itself, so `del` shortens
the worker's own list. `none` for the `KeyError` of an eviction or the `IndexError` of `del`. -/
def cacheLocality (w : LocalityWorld) (selfId : Nat) (p : KVPair) : Option LocalityWorld := do
  let k := w.cores selfId
  let (hit, _, cache) ← k.cache.access p
  let k := { k with cache := cache, cacheAccesses := k.cacheAccesses + 1 }
  if hit then
    return w.setCore selfId { k with accessesWLocality := k.accessesWLocality + 1 }
  else
    let coreListWithoutSelf ← delAt k.remoteCores selfId
    return remoteSnoop (w.setCore selfId { k with remoteCores := coreListWithoutSelf }) selfId p
      coreListWithoutSelf

/-- The worlds the workers reach: each worker `i < numCores` runs the block for each request it
serves, in any interleaving. -/
inductive Reachable (numCores : Nat) (cacheSize : Int) : LocalityWorld → Prop
  | init : Reachable numCores cacheSize (init numCores cacheSize)
  | step {w w' : LocalityWorld} {i : Nat} {p : KVPair} : Reachable numCores cacheSize w →
      i < numCores → w.cacheLocality i p = some w' → Reachable numCores cacheSize w'

/-! ## What the snoops leave alone -/

@[simp] theorem setCore_cores_self (w : LocalityWorld) (i : Nat) (k : LocalityCore) :
    (w.setCore i k).cores i = k := Function.update_same _ _ _

theorem setCore_cores_ne (w : LocalityWorld) {i j : Nat} (k : LocalityCore) (h : j ≠ i) :
    (w.setCore i k).cores j = w.cores j := Function.update_noteq h _ _

theorem snoopAll_ledger (w : LocalityWorld) (p : KVPair) (l : List Nat) (j : Nat) :
    ((w.snoopAll p l).2.cores j).ledger = (w.cores j).ledger := by
  induction l generalizing w with
  | nil => rfl
  | cons x xs ih =>
    rw [snoopAll, ih]
    by_cases h : j = x
    · subst h; rw [setCore_cores_self]; rfl
    · rw [setCore_cores_ne _ _ h]

theorem remoteSnoop_ledger (w : LocalityWorld) (i : Nat) (p : KVPair) (l : List Nat) (j : Nat) :
    ((w.remoteSnoop i p l).cores j).ledger = (w.cores j).ledger := by
  have hs := snoopAll_ledger w p l j
  unfold remoteSnoop
  generalize w.snoopAll p l = r at hs
  obtain ⟨hits, w'⟩ := r
  by_cases h : j = i
  · subst h; rw [setCore_cores_self]; exact hs
  · rw [setCore_cores_ne _ _ h]; exact hs

theorem cacheLocality_of_hit {w : LocalityWorld} {i : Nat} {p : KVPair} {ev : List KVPair}
    {cache : PrivateDataCache} (h : (w.cores i).cache.access p = some (true, ev, cache)) :
    w.cacheLocality i p = some (w.setCore i { w.cores i with
      cache := cache, cacheAccesses := (w.cores i).cacheAccesses + 1,
      accessesWLocality := (w.cores i).accessesWLocality + 1 }) := by
  simp only [cacheLocality, h]; rfl

theorem cacheLocality_of_miss {w : LocalityWorld} {i : Nat} {p : KVPair} {ev : List KVPair}
    {cache : PrivateDataCache} (h : (w.cores i).cache.access p = some (false, ev, cache)) :
    w.cacheLocality i p = (delAt (w.cores i).remoteCores i).map fun l =>
      (w.setCore i { w.cores i with
        cache := cache, cacheAccesses := (w.cores i).cacheAccesses + 1, remoteCores := l }).remoteSnoop
        i p l := by
  simp only [cacheLocality, h]
  cases delAt (w.cores i).remoteCores i <;> rfl

end LocalityWorld

/-! ## The lists of a run -/

/-- The list of worker `i` of `numCores` after `m` misses: all workers but `i, ..., i + m - 1`,
in order. -/
def remoteCoresAfter (numCores i m : Nat) : List Nat :=
  List.range i ++ (List.range numCores).drop (i + m)

theorem mem_drop_range {n k j : Nat} : j ∈ (List.range n).drop k ↔ k ≤ j ∧ j < n := by
  rw [List.mem_drop_iff_getElem]
  simp only [List.getElem_range, List.length_range]
  constructor
  · rintro ⟨i, hi, rfl⟩; omega
  · rintro ⟨h₁, h₂⟩; exact ⟨j - k, by omega, by omega⟩

theorem mem_remoteCoresAfter {numCores i m j : Nat} :
    j ∈ remoteCoresAfter numCores i m ↔ j < i ∨ i + m ≤ j ∧ j < numCores := by
  rw [remoteCoresAfter, List.mem_append, List.mem_range, mem_drop_range]

/-- Each listed worker is listed once. -/
theorem nodup_remoteCoresAfter (numCores i m : Nat) : (remoteCoresAfter numCores i m).Nodup :=
  List.nodup_append.mpr ⟨List.nodup_range i, (List.nodup_range numCores).sublist (List.drop_sublist _ _),
    fun _ ha hb => by rw [List.mem_range] at ha; rw [mem_drop_range] at hb; omega⟩

theorem delAt_remoteCoresAfter (numCores i m : Nat) :
    LocalityWorld.delAt (remoteCoresAfter numCores i m) i =
      if i + m < numCores then some (remoteCoresAfter numCores i (m + 1)) else none := by
  have hlen : (remoteCoresAfter numCores i m).length = i + (numCores - (i + m)) := by
    simp [remoteCoresAfter]
  unfold LocalityWorld.delAt
  by_cases h : i + m < numCores
  · rw [if_pos (by omega), if_pos h, remoteCoresAfter, List.eraseIdx_append_of_length_le (by simp),
      List.length_range, Nat.sub_self, List.eraseIdx_zero, List.tail_drop]
    rfl
  · rw [if_neg (by omega), if_neg h]

/-- What worker `i` of `numCores` keeps of the locality block: the misses are counted, and the
list is the one of that many misses. -/
structure CoreInv (numCores i : Nat) (k : LocalityCore) : Prop where
  counted : k.accessesWLocality ≤ k.cacheAccesses
  bound : i + k.misses ≤ numCores
  remoteCores : k.remoteCores = remoteCoresAfter numCores i k.misses

theorem CoreInv.of_ledger {numCores i : Nat} {k k' : LocalityCore} (h : k'.ledger = k.ledger)
    (hk : CoreInv numCores i k) : CoreInv numCores i k' := by
  simp only [LocalityCore.ledger, Prod.mk.injEq] at h
  obtain ⟨h₁, h₂, h₃⟩ := h
  have hm : k'.misses = k.misses := by simp only [LocalityCore.misses, h₂, h₃]
  exact ⟨h₂ ▸ h₃ ▸ hk.counted, hm ▸ hk.bound, hm ▸ h₁ ▸ hk.remoteCores⟩

namespace LocalityWorld

theorem coreInv_init (numCores : Nat) (cacheSize : Int) {i : Nat} (hi : i < numCores) :
    CoreInv numCores i ((init numCores cacheSize).cores i) :=
  ⟨Nat.le_refl 0, show i + (0 - 0) ≤ numCores by omega, by
    show List.range numCores = List.range i ++ (List.range numCores).drop i
    conv_lhs => rw [← List.take_append_drop i (List.range numCores)]
    rw [List.take_range, Nat.min_eq_left hi.le]⟩

/-- **One run of the block keeps every worker's invariant.** -/
theorem coreInv_step {numCores : Nat} {w w' : LocalityWorld}
    (h : ∀ i < numCores, CoreInv numCores i (w.cores i)) {j : Nat} (hj : j < numCores)
    {p : KVPair} (hs : w.cacheLocality j p = some w') :
    ∀ i < numCores, CoreInv numCores i (w'.cores i) := by
  intro i hi
  have hk := h j hj
  have hframe : i ≠ j → ∀ k, CoreInv numCores i ((w.setCore j k).cores i) := fun hij k => by
    rw [setCore_cores_ne _ _ hij]; exact h i hi
  rcases hacc : (w.cores j).cache.access p with _ | ⟨_ | _, ev, cache⟩
  · simp [cacheLocality, hacc] at hs
  · rw [cacheLocality_of_miss hacc, hk.remoteCores, delAt_remoteCoresAfter] at hs
    split at hs
    · cases hs
      refine CoreInv.of_ledger (remoteSnoop_ledger _ _ _ _ _) ?_
      by_cases hij : i = j
      · subst hij
        rw [setCore_cores_self]
        have hm : (w.cores i).cacheAccesses + 1 - (w.cores i).accessesWLocality =
            (w.cores i).misses + 1 := by have := hk.counted; simp only [LocalityCore.misses]; omega
        exact ⟨by have := hk.counted; simp only; omega, by simp only [LocalityCore.misses, hm]; omega,
          by simp only [LocalityCore.misses, hm]⟩
      · exact hframe hij _
    · cases hs
  · rw [cacheLocality_of_hit hacc] at hs
    cases hs
    by_cases hij : i = j
    · subst hij
      rw [setCore_cores_self]
      have hm : (w.cores i).cacheAccesses + 1 - ((w.cores i).accessesWLocality + 1) =
          (w.cores i).misses := by simp only [LocalityCore.misses]; omega
      exact ⟨by have := hk.counted; simp only; omega, by simp only [LocalityCore.misses, hm]; exact hk.bound,
        by simp only [LocalityCore.misses, hm]; exact hk.remoteCores⟩
    · exact hframe hij _

theorem coreInv_reachable {numCores : Nat} {cacheSize : Int} {w : LocalityWorld}
    (hw : Reachable numCores cacheSize w) : ∀ i < numCores, CoreInv numCores i (w.cores i) := by
  induction hw with
  | init => exact fun i hi => coreInv_init numCores cacheSize hi
  | step _ hj hs ih => exact coreInv_step ih hj hs

/-- **Every miss deletes one more worker from `remote_cores`.** In every run of `numCores`
workers from `set_remote_cores(cores)`, worker `i` after `m` misses holds the list without
workers `i, ..., i + m - 1`, and `i + m ≤ numCores`. When `i + m < numCores`, its next miss
keeps the list without workers `i, ..., i + m` as its `remote_cores` and snoops exactly that
list; otherwise it raises `IndexError`. -/
theorem miss_deletes_from_remote_cores {numCores : Nat} {cacheSize : Int} {w : LocalityWorld}
    (hw : Reachable numCores cacheSize w) {i : Nat} (hi : i < numCores) :
    (w.cores i).remoteCores = remoteCoresAfter numCores i (w.cores i).misses ∧
    i + (w.cores i).misses ≤ numCores ∧
    ∀ {p : KVPair} {ev : List KVPair} {cache : PrivateDataCache},
      (w.cores i).cache.access p = some (false, ev, cache) →
      (i + (w.cores i).misses < numCores →
        w.cacheLocality i p = some ((w.setCore i { w.cores i with
          cache := cache, cacheAccesses := (w.cores i).cacheAccesses + 1,
          remoteCores := remoteCoresAfter numCores i ((w.cores i).misses + 1) }).remoteSnoop i p
          (remoteCoresAfter numCores i ((w.cores i).misses + 1)))) ∧
      (numCores ≤ i + (w.cores i).misses → w.cacheLocality i p = none) := by
  have hk := coreInv_reachable hw i hi
  refine ⟨hk.remoteCores, hk.bound, fun hacc => ⟨fun hlt => ?_, fun hge => ?_⟩⟩
  · rw [cacheLocality_of_miss hacc, hk.remoteCores, delAt_remoteCoresAfter, if_pos hlt]; rfl
  · rw [cacheLocality_of_miss hacc, hk.remoteCores, delAt_remoteCoresAfter, if_neg (by omega)]; rfl

/-- Worker 0 of three, with caches of 64 bytes, after a miss on key 5: it has snooped workers 1
and 2 and keeps them as its list, so its next miss snoops worker 2 only. -/
theorem threeWorkers_second_miss_skips_worker :
    ∃ w, Reachable 3 64 w ∧ (w.cores 0).misses = 1 ∧ (w.cores 0).remoteCores = [1, 2] ∧
      remoteCoresAfter 3 0 (1 + 1) = [2] ∧ 0 < 3 ∧
      ((w.cores 0).remoteCores = remoteCoresAfter 3 0 (w.cores 0).misses ∧
      0 + (w.cores 0).misses ≤ 3 ∧
      ∀ {p : KVPair} {ev : List KVPair} {cache : PrivateDataCache},
        (w.cores 0).cache.access p = some (false, ev, cache) →
        (0 + (w.cores 0).misses < 3 →
          w.cacheLocality 0 p = some ((w.setCore 0 { w.cores 0 with
            cache := cache, cacheAccesses := (w.cores 0).cacheAccesses + 1,
            remoteCores := remoteCoresAfter 3 0 ((w.cores 0).misses + 1) }).remoteSnoop 0 p
            (remoteCoresAfter 3 0 ((w.cores 0).misses + 1)))) ∧
        (3 ≤ 0 + (w.cores 0).misses → w.cacheLocality 0 p = none)) := by
  have h : ((init 3 64).cacheLocality 0 ⟨5, 1, 1⟩).map (fun w =>
      decide ((w.cores 0).misses = 1 ∧ (w.cores 0).remoteCores = [1, 2])) = some true := by
    decide
  obtain ⟨w, hs, hp⟩ := Option.map_eq_some'.mp h
  have hw : Reachable 3 64 w := .step .init (by decide) hs
  exact ⟨w, hw, (of_decide_eq_true hp).1, (of_decide_eq_true hp).2, by decide, by decide,
    miss_deletes_from_remote_cores hw (by decide)⟩

end LocalityWorld

end QueueFlex
