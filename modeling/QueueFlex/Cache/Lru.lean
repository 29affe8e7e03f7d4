import Mathlib.Algebra.BigOperators.Group.List
import Mathlib.Algebra.Ring.Int.Defs
import QueueFlex.Cache.DataCache

/-! # LRU replacement

What `PrivateDataCache` is for, stated without its dictionary: keys are ordered by most recent
use (`touch`), and the cache holds the longest suffix of that order whose total size fits in
`cache_size` (`fitSuffix`). An `access` uses its key; a `peek` uses its key only when the key
is cached, for it moves nothing otherwise (`lruCall`).

`Follows R c` relates the cache to a recency order `R`. Every call keeps it
(`Follows.call`), with the return values `lruCall` gives: that is where the eviction loop
is shown to stop before the dictionary is empty and to pop exactly the oldest keys that do not
fit. From `new`, a whole run follows the order of its calls (`private_data_cache_follows_lru`). -/

namespace QueueFlex

section Recency

variable (size : Nat → Int) (cap : Int)

/-- The total size of the keys `ks`. -/
def totalSize (ks : List Nat) : Int := (ks.map size).sum

/-- The longest suffix of `ks` whose total size is at most `cap`. -/
def fitSuffix : List Nat → List Nat
  | [] => []
  | k :: ks => if totalSize size (k :: ks) ≤ cap then k :: ks else fitSuffix ks

/-- `k` becomes the most recently used key. -/
def touch (R : List Nat) (k : Nat) : List Nat := R.erase k ++ [k]

/-- One call on the LRU order `R`: the hit and the keys evicted, and the order after it. A miss
of `access` evicts the keys of the cache, and then the new key, that its new contents lack,
oldest first. -/
def lruCall (R : List Nat) : CacheCall → (Bool × List Nat) × List Nat
  | .access p =>
    if p.key ∈ fitSuffix size cap R then ((true, []), touch R p.key)
    else ((false, (fitSuffix size cap R ++ [p.key]).filter fun k =>
      k ∉ fitSuffix size cap (touch R p.key)), touch R p.key)
  | .peek p =>
    if p.key ∈ fitSuffix size cap R then ((true, []), touch R p.key) else ((false, []), R)

/-- A sequence of calls on the LRU order. -/
def lruRun (R : List Nat) : List CacheCall → List (Bool × List Nat) × List Nat
  | [] => ([], R)
  | x :: xs => ((lruCall size cap R x).1 :: (lruRun (lruCall size cap R x).2 xs).1,
      (lruRun (lruCall size cap R x).2 xs).2)

variable {size cap}

@[simp] theorem totalSize_nil : totalSize size [] = 0 := rfl

@[simp] theorem totalSize_cons (k : Nat) (ks : List Nat) :
    totalSize size (k :: ks) = size k + totalSize size ks := List.sum_cons

theorem totalSize_append (ks ks' : List Nat) :
    totalSize size (ks ++ ks') = totalSize size ks + totalSize size ks' := by
  rw [totalSize, List.map_append, List.sum_append]; rfl

theorem totalSize_perm {ks ks' : List Nat} (h : ks.Perm ks') :
    totalSize size ks = totalSize size ks' := (h.map size).sum_eq

theorem fitSuffix_of_le {ks : List Nat} (h : totalSize size ks ≤ cap) :
    fitSuffix size cap ks = ks := by
  cases ks with
  | nil => rfl
  | cons k ks => exact if_pos h

theorem fitSuffix_suffix (ks : List Nat) : fitSuffix size cap ks <:+ ks := by
  induction ks with
  | nil => exact List.suffix_refl _
  | cons k ks ih =>
    unfold fitSuffix
    split
    · exact List.suffix_refl _
    · exact ih.trans (List.suffix_cons k ks)

theorem fitSuffix_le (hcap : 0 ≤ cap) (ks : List Nat) :
    totalSize size (fitSuffix size cap ks) ≤ cap := by
  induction ks with
  | nil => exact hcap
  | cons k ks ih =>
    unfold fitSuffix
    split
    · assumption
    · exact ih

/-- No longer suffix than `fitSuffix` fits. -/
theorem fitSuffix_longest {ks s : List Nat} (hs : s <:+ ks) (hfit : totalSize size s ≤ cap) :
    s.length ≤ (fitSuffix size cap ks).length := by
  induction ks with
  | nil => exact hs.length_le
  | cons k ks ih =>
    unfold fitSuffix
    split
    · exact hs.length_le
    · rename_i hk
      rcases List.suffix_cons_iff.mp hs with rfl | hs
      · exact absurd hfit hk
      · exact ih hs

section Nonneg

variable (hsize : ∀ k, 0 ≤ size k)
include hsize

theorem totalSize_nonneg (ks : List Nat) : 0 ≤ totalSize size ks := by
  induction ks with
  | nil => exact Int.le_refl 0
  | cons k ks ih => rw [totalSize_cons]; have := hsize k; omega

/-- A suffix that does not fit is never part of the fitting one. -/
theorem fitSuffix_append_of_lt (ks : List Nat) {ks' : List Nat} (h : cap < totalSize size ks') :
    fitSuffix size cap (ks ++ ks') = fitSuffix size cap ks' := by
  induction ks with
  | nil => rfl
  | cons k ks ih =>
    have := totalSize_nonneg hsize ks
    have := hsize k
    rw [List.cons_append, fitSuffix, if_neg (by rw [totalSize_cons, totalSize_append]; omega), ih]

/-- The fitting suffix stops right after a key that would not fit with it. -/
theorem fitSuffix_append_cons (ks : List Nat) {x : Nat} {ks' : List Nat}
    (hfit : totalSize size ks' ≤ cap) (hx : cap < totalSize size (x :: ks')) :
    fitSuffix size cap (ks ++ x :: ks') = ks' := by
  rw [fitSuffix_append_of_lt hsize ks hx, fitSuffix, if_neg (Int.not_le.mpr hx),
    fitSuffix_of_le hfit]

omit hsize in
/-- `ks` is a prefix followed by its fitting suffix, and the last key of the prefix does not
fit with it. -/
theorem fitSuffix_decomp (ks : List Nat) :
    ∃ pre, ks = pre ++ fitSuffix size cap ks ∧
      (pre = [] ∨ ∃ pre' x, pre = pre' ++ [x] ∧ cap < totalSize size (x :: fitSuffix size cap ks)) := by
  induction ks with
  | nil => exact ⟨[], rfl, .inl rfl⟩
  | cons k ks ih =>
    by_cases hk : totalSize size (k :: ks) ≤ cap
    · rw [fitSuffix_of_le hk]
      exact ⟨[], rfl, .inl rfl⟩
    · rw [fitSuffix, if_neg hk]
      obtain ⟨pre, hks, hpre⟩ := ih
      refine ⟨k :: pre, by rw [List.cons_append, ← hks], .inr ?_⟩
      rcases hpre with rfl | ⟨pre', x, rfl, hx⟩
      · rw [List.nil_append] at hks
        exact ⟨[], k, rfl, by rw [← hks]; exact Int.not_le.mp hk⟩
      · exact ⟨k :: pre', x, rfl, hx⟩

omit hsize in
private theorem erase_append_of_not_mem {A B : List Nat} {k : Nat} (h : k ∉ B) :
    (A ++ B).erase k = A.erase k ++ B := by
  rw [List.erase_append]
  split
  · rfl
  · rename_i hA; rw [List.erase_of_not_mem h, List.erase_of_not_mem hA]

/-- **A miss**: the fitting suffix with the new key appended, trimmed from its oldest end, is
the fitting suffix of the touched order. -/
theorem fitSuffix_touch_of_not_mem {R : List Nat} {k : Nat} (hk : k ∉ fitSuffix size cap R) :
    fitSuffix size cap (fitSuffix size cap R ++ [k]) = fitSuffix size cap (touch R k) := by
  obtain ⟨pre, hR, hpre⟩ := fitSuffix_decomp R
  generalize fitSuffix size cap R = F at hR hpre hk ⊢
  have htouch : touch R k = pre.erase k ++ (F ++ [k]) := by
    rw [touch, hR, erase_append_of_not_mem hk, List.append_assoc]
  rw [htouch]
  by_cases hfit : totalSize size (F ++ [k]) ≤ cap
  · rw [fitSuffix_of_le hfit]
    rcases hpre with rfl | ⟨pre', x, rfl, hx⟩
    · exact (fitSuffix_of_le hfit).symm
    · have hxk : x ≠ k := by
        rintro rfl
        rw [totalSize_append, totalSize_cons] at *
        simp only [totalSize_nil, totalSize_cons] at hfit
        omega
      have hx' : cap < totalSize size (x :: (F ++ [k])) := by
        have := hsize k
        rw [totalSize_cons, totalSize_append] at *
        simp only [totalSize_cons, totalSize_nil] at *
        omega
      rw [erase_append_of_not_mem (by simpa using Ne.symm hxk), List.append_assoc,
        List.singleton_append, fitSuffix_append_cons hsize _ hfit hx']
  · rw [fitSuffix_append_of_lt hsize _ (Int.not_le.mp hfit)]

/-- **A hit**: the cached key moved to the newest end gives the fitting suffix of the touched
order. -/
theorem fitSuffix_touch_of_mem (hcap : 0 ≤ cap) {R : List Nat} (hR : R.Nodup) {k : Nat}
    (hk : k ∈ fitSuffix size cap R) :
    (fitSuffix size cap R).erase k ++ [k] = fitSuffix size cap (touch R k) := by
  obtain ⟨pre, hRd, hpre⟩ := fitSuffix_decomp R
  have hfit : totalSize size (fitSuffix size cap R) ≤ cap := fitSuffix_le hcap R
  generalize fitSuffix size cap R = F at hRd hpre hk hfit ⊢
  subst hRd
  have hkpre : k ∉ pre := fun hp => List.disjoint_of_nodup_append hR hp hk
  have hperm : (F.erase k ++ [k]).Perm F :=
    (List.perm_append_singleton k _).trans (List.perm_cons_erase hk).symm
  have hW : totalSize size (F.erase k ++ [k]) = totalSize size F := totalSize_perm hperm
  rw [touch, List.erase_append_right _ hkpre, List.append_assoc]
  rcases hpre with rfl | ⟨pre', x, rfl, hx⟩
  · exact (fitSuffix_of_le (hW ▸ hfit)).symm
  · rw [List.append_assoc, List.singleton_append,
      fitSuffix_append_cons hsize _ (hW ▸ hfit) (by rw [totalSize_cons, hW]; rwa [totalSize_cons] at hx)]

omit hsize in
theorem nodup_touch {R : List Nat} (hR : R.Nodup) (k : Nat) : (touch R k).Nodup :=
  List.nodup_append.mpr ⟨hR.erase k, List.nodup_singleton k, List.disjoint_singleton.mpr hR.not_mem_erase⟩

omit hsize in
/-- The keys of `A ++ B` not in `B` are `A`, in order, when no key repeats. -/
theorem filter_not_mem_append {A B : List Nat} (h : (A ++ B).Nodup) :
    (A ++ B).filter (fun k => k ∉ B) = A := by
  have hA : A.filter (fun k => k ∉ B) = A :=
    List.filter_eq_self.mpr fun a ha => decide_eq_true (List.disjoint_of_nodup_append h ha)
  have hB : B.filter (fun k => k ∉ B) = [] := List.filter_eq_nil_iff.mpr fun b hb => by simpa using hb
  rw [List.filter_append, hA, hB, List.append_nil]

end Nonneg

end Recency

/-- What a return says of keys: the hit, and the keys of the evicted pairs. -/
def CacheReturn.keys : CacheReturn → Bool × List Nat
  | .access wasHit evList => (wasHit, evList.map KVPair.key)
  | .peek wasHit => (wasHit, [])

/-- The cache `c` holds what the LRU order `R` prescribes: capacity `cap`, the fitting suffix of
`R` as its keys, each pair under its own key with the size `size` gives it, and `cur_size` their
total. -/
structure Follows (size : Nat → Int) (cap : Int) (R : List Nat) (c : PrivateDataCache) : Prop where
  cacheSize : c.cacheSize = cap
  recency : R.Nodup
  keys : c.cache.keys = fitSuffix size cap R
  pairs : ∀ k p, (k, p) ∈ c.cache.entries → p.key = k ∧ p.totalSize = size k
  curSize : c.curSize = totalSize size c.cache.keys

theorem follows_new (size : Nat → Int) (cap : Int) : Follows size cap [] (PrivateDataCache.new cap) :=
  ⟨rfl, List.nodup_nil, rfl, fun _ _ h => absurd h (List.not_mem_nil _), rfl⟩

section Refinement

variable {size : Nat → Int} {cap : Int} (hcap : 0 ≤ cap) (hsize : ∀ k, 0 ≤ size k)
include hcap

/-- **The eviction loop** pops the oldest pairs until the rest fits, and never finds the
dictionary empty. -/
theorem evict_eq (d : OrderedDict KVPair)
    (hd : ∀ k p, (k, p) ∈ d.entries → p.key = k ∧ p.totalSize = size k) (evList : List KVPair) :
    ∃ d' popped, PrivateDataCache.evict cap d.entries d.nodup (totalSize size d.keys) evList =
        some (d', totalSize size d'.keys, evList ++ popped) ∧
      d'.keys = fitSuffix size cap d.keys ∧ popped.map KVPair.key ++ d'.keys = d.keys ∧
      ∀ e ∈ d'.entries, e ∈ d.entries := by
  obtain ⟨l, hnd⟩ := d
  induction l generalizing evList with
  | nil =>
    refine ⟨⟨[], hnd⟩, [], ?_, rfl, rfl, fun _ h => h⟩
    rw [PrivateDataCache.evict_of_le (show totalSize size (OrderedDict.keys ⟨[], hnd⟩) ≤ cap from hcap),
      List.append_nil]
  | cons e l ih =>
    obtain ⟨k, p⟩ := e
    by_cases hfit : totalSize size (OrderedDict.keys ⟨(k, p) :: l, hnd⟩) ≤ cap
    · refine ⟨⟨(k, p) :: l, hnd⟩, [], ?_, (fitSuffix_of_le hfit).symm, rfl, fun _ h => h⟩
      rw [PrivateDataCache.evict_of_le hfit, List.append_nil]
    · obtain ⟨hk, hp⟩ := hd k p (List.mem_cons_self _ _)
      obtain ⟨d', popped, hev, hkeys, hpop, hsub⟩ := ih (evList ++ [p])
        (List.nodup_cons.mp hnd).2 (fun k' p' h => hd k' p' (List.mem_cons_of_mem _ h))
      have hcur : totalSize size (OrderedDict.keys ⟨(k, p) :: l, hnd⟩) - p.totalSize =
          totalSize size (OrderedDict.keys ⟨l, (List.nodup_cons.mp hnd).2⟩) := by
        simp only [OrderedDict.keys, List.map_cons, totalSize_cons, hp]; omega
      refine ⟨d', p :: popped, ?_, ?_, ?_, fun e he => List.mem_cons_of_mem _ (hsub e he)⟩
      · rw [PrivateDataCache.evict_cons (Int.not_le.mp hfit), hcur, hev, List.append_assoc]; rfl
      · rw [hkeys]; exact (if_neg hfit).symm
      · rw [List.map_cons, hk, List.cons_append, hpop]; rfl

include hsize

/-- A hit moves the key to the newest end of the cache and of the order. -/
theorem Follows.moveToEnd {R : List Nat} {c : PrivateDataCache} (h : Follows size cap R c)
    {k : Nat} (hk : k ∈ c.cache.keys) :
    Follows size cap (touch R k) { c with cache := c.cache.moveToEnd k } where
  cacheSize := h.cacheSize
  recency := nodup_touch h.recency k
  keys := by
    rw [OrderedDict.keys_moveToEnd hk, h.keys]
    exact fitSuffix_touch_of_mem hsize hcap h.recency (h.keys ▸ hk)
  pairs k' p hp := h.pairs k' p (OrderedDict.mem_moveToEnd.mp hp)
  curSize := by
    rw [h.curSize, OrderedDict.keys_moveToEnd hk]
    exact (totalSize_perm ((List.perm_append_singleton k _).trans (List.perm_cons_erase hk).symm)).symm

/-- A miss inserts the pair and runs the eviction loop: the evicted keys are those of the cache
and the new key that the fitting suffix of the touched order lacks, oldest first. -/
theorem Follows.insert {R : List Nat} {c : PrivateDataCache} (h : Follows size cap R c)
    {p : KVPair} (hk : p.key ∉ c.cache.keys) (hp : p.totalSize = size p.key) :
    ∃ c' evList, c.access p = some (false, evList, c') ∧
      evList.map KVPair.key = (fitSuffix size cap R ++ [p.key]).filter
        (fun k => k ∉ fitSuffix size cap (touch R p.key)) ∧
      Follows size cap (touch R p.key) c' := by
  have hset := OrderedDict.keys_set_of_not_mem hk p
  have hcur : c.curSize + p.totalSize = totalSize size (c.cache.set p.key p).keys := by
    rw [hset, totalSize_append, h.curSize, hp]; simp
  have hd : ∀ k q, (k, q) ∈ (c.cache.set p.key p).entries → q.key = k ∧ q.totalSize = size k := by
    intro k q hq
    rw [OrderedDict.entries_set_of_not_mem hk, List.mem_append, List.mem_singleton] at hq
    rcases hq with hq | hq
    · exact h.pairs k q hq
    · cases hq; exact ⟨rfl, hp⟩
  obtain ⟨d', popped, hev, hkeys, hpop, hsub⟩ := evict_eq hcap _ hd []
  have hF : fitSuffix size cap (fitSuffix size cap R ++ [p.key]) =
      fitSuffix size cap (touch R p.key) := fitSuffix_touch_of_not_mem hsize (h.keys ▸ hk)
  rw [hset, h.keys, hF] at hkeys
  rw [hset, h.keys] at hpop
  refine ⟨{ c with cache := d', curSize := totalSize size d'.keys }, popped, ?_, ?_,
    ⟨h.cacheSize, nodup_touch h.recency _, hkeys, fun k q hq => hd k q (hsub _ hq), rfl⟩⟩
  · simp only [PrivateDataCache.access, PrivateDataCache.peek_of_not_mem hk, Bool.false_eq_true,
      if_false, h.cacheSize, hcur, hev, Option.map_some', List.nil_append]
  · have hnd : (fitSuffix size cap R ++ [p.key]).Nodup := by
      rw [← h.keys]
      exact List.nodup_append.mpr ⟨c.cache.keys_nodup, List.nodup_singleton _,
        List.disjoint_singleton.mpr hk⟩
    rw [← hpop] at hnd ⊢
    rw [← hkeys, filter_not_mem_append hnd]

/-- **One call keeps the cache on the LRU order**, and returns what the order prescribes. -/
theorem Follows.call {R : List Nat} {c : PrivateDataCache} (h : Follows size cap R c)
    {x : CacheCall} (hx : x.pair.totalSize = size x.pair.key) :
    ∃ r c', c.call x = some (r, c') ∧ r.keys = (lruCall size cap R x).1 ∧
      Follows size cap (lruCall size cap R x).2 c' := by
  cases x with
  | access p =>
    by_cases hk : p.key ∈ c.cache.keys
    · refine ⟨.access true [], { c with cache := c.cache.moveToEnd p.key }, ?_, ?_, ?_⟩
      · simp [PrivateDataCache.call, PrivateDataCache.access, PrivateDataCache.peek_of_mem hk]
      · rw [lruCall, if_pos (h.keys ▸ hk)]; rfl
      · rw [lruCall, if_pos (h.keys ▸ hk)]; exact h.moveToEnd hcap hsize hk
    · obtain ⟨c', evList, hacc, hev, hf⟩ := h.insert hcap hsize hk hx
      refine ⟨.access false evList, c', by simp [PrivateDataCache.call, hacc], ?_, ?_⟩
      · rw [lruCall, if_neg (h.keys ▸ hk), CacheReturn.keys, hev]
      · rw [lruCall, if_neg (h.keys ▸ hk)]; exact hf
  | peek p =>
    by_cases hk : p.key ∈ c.cache.keys
    · refine ⟨.peek true, { c with cache := c.cache.moveToEnd p.key },
        by simp [PrivateDataCache.call, PrivateDataCache.peek_of_mem hk], ?_, ?_⟩
      · rw [lruCall, if_pos (h.keys ▸ hk)]; rfl
      · rw [lruCall, if_pos (h.keys ▸ hk)]; exact h.moveToEnd hcap hsize hk
    · refine ⟨.peek false, c, by simp [PrivateDataCache.call, PrivateDataCache.peek_of_not_mem hk],
        ?_, ?_⟩
      · rw [lruCall, if_neg (h.keys ▸ hk)]; rfl
      · rw [lruCall, if_neg (h.keys ▸ hk)]; exact h

/-- A whole run keeps the cache on the LRU order of its calls. -/
theorem Follows.run {R : List Nat} {c : PrivateDataCache} (h : Follows size cap R c)
    {xs : List CacheCall} (hxs : ∀ x ∈ xs, x.pair.totalSize = size x.pair.key) :
    ∃ rs c', c.run xs = some (rs, c') ∧ rs.map CacheReturn.keys = (lruRun size cap R xs).1 ∧
      Follows size cap (lruRun size cap R xs).2 c' := by
  induction xs generalizing R c with
  | nil => exact ⟨[], c, rfl, rfl, h⟩
  | cons x xs ih =>
    obtain ⟨r, c₁, hc, hr, h₁⟩ := h.call hcap hsize (hxs x (List.mem_cons_self _ _))
    obtain ⟨rs, c', hrun, hrs, h'⟩ := ih h₁ fun y hy => hxs y (List.mem_cons_of_mem _ hy)
    exact ⟨r :: rs, c', by simp [PrivateDataCache.run, hc, hrun], by simp [lruRun, hr, hrs], h'⟩

end Refinement

/-- **`PrivateDataCache` is an LRU cache of capacity `cache_size`.** With `cache_size ≥ 0` and
each key's pairs of one non-negative total size, every sequence of `access` and `peek` calls on
`PrivateDataCache(cache_size)` runs without `KeyError`, so the eviction loop never pops from an
empty cache. It returns what the LRU order of its calls prescribes (`lruRun`: the hit, and the
keys evicted, oldest first). It leaves the cache holding the longest suffix of that order that
fits (`fitSuffix`), with `cur_size` their total size, at most `cache_size`. -/
theorem private_data_cache_follows_lru {cap : Int} (hcap : 0 ≤ cap) {size : Nat → Int}
    (hsize : ∀ k, 0 ≤ size k) {calls : List CacheCall}
    (hcalls : ∀ x ∈ calls, x.pair.totalSize = size x.pair.key) :
    ∃ rets c, (PrivateDataCache.new cap).run calls = some (rets, c) ∧
      rets.map CacheReturn.keys = (lruRun size cap [] calls).1 ∧
      c.cache.keys = fitSuffix size cap (lruRun size cap [] calls).2 ∧
      c.curSize = totalSize size c.cache.keys ∧ c.curSize ≤ cap := by
  obtain ⟨rets, c, hrun, hrets, h⟩ := (follows_new size cap).run hcap hsize hcalls
  refine ⟨rets, c, hrun, hrets, h.keys, h.curSize, ?_⟩
  rw [h.curSize, h.keys]
  exact fitSuffix_le hcap _

/-- Pairs of two bytes in a cache of four: keys 0 and 1 fill it, key 2 evicts key 0, a peek
of key 1 makes key 2 the oldest, and key 0 comes back in its place. -/
def lruTrace : List CacheCall :=
  [.access ⟨0, 1, 1⟩, .access ⟨1, 1, 1⟩, .access ⟨2, 1, 1⟩, .peek ⟨1, 1, 1⟩, .access ⟨0, 1, 1⟩]

/-- Two bytes for every key. -/
def twoBytes (_ : Nat) : Int := 2

theorem lruTrace_follows_lru :
    (0 : Int) ≤ 4 ∧ (∀ k, 0 ≤ twoBytes k) ∧ (∀ x ∈ lruTrace, x.pair.totalSize = twoBytes x.pair.key) ∧
    ∃ rets c, (PrivateDataCache.new 4).run lruTrace = some (rets, c) ∧
      rets.map CacheReturn.keys =
        [(false, []), (false, []), (false, [0]), (true, []), (false, [2])] ∧
      c.cache.keys = [1, 0] ∧ c.curSize = totalSize twoBytes c.cache.keys ∧ c.curSize ≤ 4 := by
  have hs : ∀ k, 0 ≤ twoBytes k := fun _ => show (0 : Int) ≤ 2 by decide
  have hx : ∀ x ∈ lruTrace, x.pair.totalSize = twoBytes x.pair.key := by decide
  obtain ⟨rets, c, hrun, hrets, hkeys, hcur, hle⟩ :=
    private_data_cache_follows_lru (show (0 : Int) ≤ 4 by decide) hs hx
  exact ⟨by decide, hs, hx, rets, c, hrun, hrets.trans (by decide), hkeys.trans (by decide), hcur,
    hle⟩

/-- A `peek` of a key that is not cached moves nothing: after `peek` of key 0, of two bytes, on
an empty cache of 128 bytes, the cache is still empty, although key 0 is then the most recently
peeked key and fits. -/
theorem peek_uncached_key_not_cached :
    ((PrivateDataCache.new 128).peek ⟨0, 1, 1⟩).1 = false ∧
    ((PrivateDataCache.new 128).peek ⟨0, 1, 1⟩).2.cache.keys = [] ∧
    fitSuffix twoBytes 128 (touch [] 0) = [0] := by
  decide

end QueueFlex
