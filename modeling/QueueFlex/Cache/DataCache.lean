import QueueFlex.Dispatch.Policy

/-! # The private data cache

`PrivateDataCache` of `src/components/cache_state.py`: key-value pairs in an `OrderedDict`,
oldest first, with LRU replacement. `peek` moves a cached key to the newest end; `access`
peeks, and on a miss inserts the pair and pops the oldest pairs while the total size exceeds
`cache_size`. Python integers are unbounded and signed: the sizes are `Int`. -/

namespace QueueFlex

namespace OrderedDict

variable {α : Type}

/-- `d.move_to_end(k)`: the entry of `k` becomes the newest. Python raises `KeyError` for a
key not in `d`; `peek` only moves a key it has found. -/
def moveToEnd (d : OrderedDict α) (k : Nat) : OrderedDict α :=
  ⟨d.entries.filter (fun e => e.1 != k) ++ d.entries.filter (fun e => e.1 == k), by
    have hp := List.perm_append_comm.trans (List.filter_append_perm (fun e : Nat × α => e.1 == k)
      d.entries)
    exact (hp.map Prod.fst).nodup_iff.mpr d.nodup⟩

theorem keys_nodup (d : OrderedDict α) : d.keys.Nodup := d.nodup

theorem mem_moveToEnd {d : OrderedDict α} {k : Nat} {e : Nat × α} :
    e ∈ (d.moveToEnd k).entries ↔ e ∈ d.entries := by
  simp only [moveToEnd, List.mem_append, List.mem_filter]
  by_cases h : e.1 = k <;> simp [h]

theorem keys_moveToEnd {d : OrderedDict α} {k : Nat} (hk : k ∈ d.keys) :
    (d.moveToEnd k).keys = d.keys.erase k ++ [k] := by
  have hfst : ∀ p : Nat → Bool, (d.entries.filter fun e => p e.1).map Prod.fst = d.keys.filter p :=
    fun p => by simp only [keys, List.filter_map]; rfl
  rw [moveToEnd, keys, List.map_append, hfst (· != k), hfst (· == k),
    ← d.keys_nodup.erase_eq_filter, List.filter_beq, List.count_eq_one_of_mem d.keys_nodup hk,
    List.replicate_one]

theorem entries_set_of_not_mem {d : OrderedDict α} {k : Nat} (hk : k ∉ d.keys) (v : α) :
    (d.set k v).entries = d.entries ++ [(k, v)] := by
  rw [set, dif_neg hk]

end OrderedDict

/-- `KVPair`, with the key and the sizes the cache reads. -/
structure KVPair where
  key : Nat
  keySize : Int
  valueSize : Int
deriving DecidableEq, Repr

/-- `total_size()`. -/
def KVPair.totalSize (p : KVPair) : Int := p.keySize + p.valueSize

/-- `PrivateDataCache`: the capacity, the pairs by key, oldest first, and their total size. -/
structure PrivateDataCache where
  cacheSize : Int
  cache : OrderedDict KVPair
  curSize : Int

namespace PrivateDataCache

/-- `PrivateDataCache(cache_size)`. -/
def new (cacheSize : Int) : PrivateDataCache := ⟨cacheSize, .empty, 0⟩

/-- `peek(kv_pair)`: whether the key is cached; a cached key becomes the newest. -/
def peek (c : PrivateDataCache) (p : KVPair) : Bool × PrivateDataCache :=
  if p.key ∈ c.cache.keys then (true, { c with cache := c.cache.moveToEnd p.key }) else (false, c)

/-- The loop `while self.cur_size > self.cache_size` of `access`, over the entries of the
dictionary and their distinct keys: `popitem(last=False)` pops the oldest pair, whose size is
taken off and which is appended to `ev_list`. `none` when `popitem` finds the dictionary
empty (`KeyError`). -/
def evict (cacheSize : Int) : (entries : List (Nat × KVPair)) → (entries.map Prod.fst).Nodup →
    Int → List KVPair → Option (OrderedDict KVPair × Int × List KVPair)
  | entries, hnd, curSize, evList =>
    if curSize > cacheSize then
      match entries, hnd with
      | [], _ => none
      | (_, evicted) :: rest, hnd =>
        evict cacheSize rest (List.nodup_cons.mp hnd).2 (curSize - evicted.totalSize)
          (evList ++ [evicted])
    else some (⟨entries, hnd⟩, curSize, evList)

/-- `access(kv_pair)`: hit or miss, and the pairs evicted, oldest first. -/
def access (c : PrivateDataCache) (p : KVPair) : Option (Bool × List KVPair × PrivateDataCache) :=
  let (wasHit, c) := c.peek p
  if wasHit then some (true, [], c)
  else
    let cache := c.cache.set p.key p
    (evict c.cacheSize cache.entries cache.nodup (c.curSize + p.totalSize) []).map
      fun (cache, curSize, evList) => (false, evList, { c with cache := cache, curSize := curSize })

theorem evict_of_le {cacheSize curSize : Int} (h : curSize ≤ cacheSize)
    (entries : List (Nat × KVPair)) (hnd : (entries.map Prod.fst).Nodup) (evList : List KVPair) :
    evict cacheSize entries hnd curSize evList = some (⟨entries, hnd⟩, curSize, evList) := by
  rw [evict.eq_def]; exact if_neg (Int.not_lt.mpr h)

theorem evict_cons {cacheSize curSize : Int} (h : cacheSize < curSize) {k : Nat} {p : KVPair}
    {l : List (Nat × KVPair)} (hnd : (((k, p) :: l).map Prod.fst).Nodup) (evList : List KVPair) :
    evict cacheSize ((k, p) :: l) hnd curSize evList =
      evict cacheSize l (List.nodup_cons.mp hnd).2 (curSize - p.totalSize) (evList ++ [p]) := by
  rw [evict.eq_def]; exact if_pos h

theorem peek_of_mem {c : PrivateDataCache} {p : KVPair} (h : p.key ∈ c.cache.keys) :
    c.peek p = (true, { c with cache := c.cache.moveToEnd p.key }) := if_pos h

theorem peek_of_not_mem {c : PrivateDataCache} {p : KVPair} (h : p.key ∉ c.cache.keys) :
    c.peek p = (false, c) := if_neg h

end PrivateDataCache

/-- The calls on a cache. -/
inductive CacheCall where
  | access (p : KVPair)
  | peek (p : KVPair)
deriving DecidableEq, Repr

/-- The pair a call is given. -/
def CacheCall.pair : CacheCall → KVPair
  | .access p | .peek p => p

/-- What a call returns: `access`'s hit and eviction list, or `peek`'s hit. -/
inductive CacheReturn where
  | access (wasHit : Bool) (evList : List KVPair)
  | peek (wasHit : Bool)
deriving DecidableEq, Repr

namespace PrivateDataCache

/-- One call; `none` for a `KeyError`. -/
def call (c : PrivateDataCache) : CacheCall → Option (CacheReturn × PrivateDataCache)
  | .access p => (c.access p).map fun (wasHit, evList, c) => (.access wasHit evList, c)
  | .peek p => some (.peek (c.peek p).1, (c.peek p).2)

/-- A sequence of calls: what each returns, and the cache after them. -/
def run (c : PrivateDataCache) : List CacheCall → Option (List CacheReturn × PrivateDataCache)
  | [] => some ([], c)
  | x :: xs => do
    let (r, c) ← c.call x
    let (rs, c) ← c.run xs
    return (r :: rs, c)

end PrivateDataCache

end QueueFlex
