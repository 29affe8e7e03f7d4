import Mathlib.Data.Finset.Card
import Mathlib.Data.Finset.Image

/-! # The function miss model

`FunctionMissModel` of `src/components/cache_state.py`: an L1 instruction cache whose
contents are the worksets of the functions around the current one. The functions dispatched
to the core wait in `incoming_funcs`, the executed ones are kept in `func_history`, both
`deque(maxlen=hist_length)`. `compute_cache_state` rebuilds the cache contents from the
incoming functions, newest first, and then, while the cache is not full, from the history;
`get_misses_for_function` counts the cache blocks of a workset missing from them.

An address takes 4 bytes (`container_to_cache_size`). `add_to_cache_state` either fills the
cache with the popped function's workset, address by address, up to `cache_size` bytes
(`card_fillCacheState_le`), or, when that workset leaves room, takes it whole and unites it
with the state built from the functions below it, with no check of the union against
`cache_size`. So only the addresses that do not come from a workset smaller than the cache
are bounded by `cache_size / 4` (`addPopped_spec`, `computeCacheState_spec`). -/

namespace QueueFlex

/-- `deque.append(x)` on a `deque(maxlen=m)`: a full deque drops its leftmost element. -/
def appendBounded (maxlen x : Nat) (d : List Nat) : List Nat :=
  let d := d ++ [x]
  d.drop (d.length - maxlen)

theorem length_appendBounded_le (maxlen x : Nat) (d : List Nat) :
    (appendBounded maxlen x d).length ≤ maxlen := by
  simp only [appendBounded, List.length_drop]
  omega

/-- `container_to_cache_size(container)` for a container of `n` entries: 4 bytes each. -/
def containerToCacheSize (n : Nat) : Int := n * 4

/-- The `while` loop of `add_to_cache_state`: adds `w[idx]` for `idx = 0, 1, ...` while
`size_left > 0`; an address not yet in the state takes 4 bytes of `size_left`. -/
def fillCacheState (sizeLeft : Int) (cacheState : Finset Nat) : List Nat → Finset Nat
  | [] => cacheState
  | a :: w =>
    if sizeLeft > 0 then
      fillCacheState (if a ∈ cacheState then sizeLeft else sizeLeft - 4) (insert a cacheState) w
    else cacheState

theorem subset_fillCacheState (sizeLeft : Int) (cacheState : Finset Nat) (w : List Nat) :
    cacheState ⊆ fillCacheState sizeLeft cacheState w := by
  induction w generalizing sizeLeft cacheState with
  | nil => exact subset_rfl
  | cons a w ih =>
    rw [fillCacheState]
    split
    · exact (Finset.subset_insert a cacheState).trans (ih _ _)
    · exact subset_rfl

/-- The fill loop adds no more addresses than `size_left` has room for. -/
theorem card_fillCacheState_le {sizeLeft : Int} (h4 : 4 ∣ sizeLeft) (cacheState : Finset Nat)
    (w : List Nat) :
    (fillCacheState sizeLeft cacheState w).card ≤ cacheState.card + (sizeLeft / 4).toNat := by
  induction w generalizing sizeLeft cacheState with
  | nil => exact Nat.le_add_right _ _
  | cons a w ih =>
    rw [fillCacheState]
    split
    · by_cases ha : a ∈ cacheState
      · simpa only [if_pos ha, Finset.insert_eq_of_mem ha] using ih h4 cacheState
      · have hnext := ih (Int.dvd_sub h4 (dvd_refl 4)) (insert a cacheState)
        rw [if_neg ha]
        rw [Finset.card_insert_of_not_mem ha] at hnext
        omega
    · exact Nat.le_add_right _ _

/-- The state of `FunctionMissModel`: `worksets` is the dictionary `{f_id : workset}`, where a
missing entry raises `KeyError`, and both deques stay within `hist_length`. -/
structure FunctionMissModel where
  cacheSize : Int
  worksets : Nat → Option (List Nat)
  histLength : Nat
  incomingFuncs : List Nat
  funcHistory : List Nat
  incoming_le : incomingFuncs.length ≤ histLength
  history_le : funcHistory.length ≤ histLength

namespace FunctionMissModel

variable (m : FunctionMissModel)

/-- `dispatch(func_id)`: `incoming_funcs.append(func_id)`; the `assert` on the length holds. -/
def dispatch (funcId : Nat) : FunctionMissModel :=
  { m with
    incomingFuncs := appendBounded m.histLength funcId m.incomingFuncs
    incoming_le := length_appendBounded_le .. }

/-- `func_history.append(func_id)`, then `popleft()` if the history is too long. -/
def pushHistory (funcId : Nat) : List Nat :=
  let h := appendBounded m.histLength funcId m.funcHistory
  if h.length > m.histLength then h.tail else h

theorem length_pushHistory_le (funcId : Nat) : (m.pushHistory funcId).length ≤ m.histLength := by
  have := length_appendBounded_le m.histLength funcId m.funcHistory
  dsimp only [pushHistory]
  split
  · rw [List.length_tail]
    omega
  · exact this

/-- `func_executed(func_id)`. -/
def funcExecuted (funcId : Nat) : FunctionMissModel :=
  { m with funcHistory := m.pushHistory funcId, history_le := m.length_pushHistory_le funcId }

/-- `incoming_funcs.popleft()`; an empty deque raises `IndexError`. -/
def popIncoming : Option (Nat × FunctionMissModel) :=
  m.incomingFuncs.head?.map fun f =>
    (f, { m with
      incomingFuncs := m.incomingFuncs.tail
      incoming_le := m.incomingFuncs.tail_sublist.length_le.trans m.incoming_le })

/-- `move_from_inc_to_history()`: the oldest incoming function joins the history. -/
def moveFromIncToHistory : Option FunctionMissModel :=
  m.popIncoming.map fun p => p.2.funcExecuted p.1

/-- `add_to_cache_state(cache_state, f_list)` with `f_list` in the order `f_list.pop()` takes
its functions, rightmost first. The union branch hands the same `cache_state` down. -/
def addPopped (cacheState : Finset Nat) : List Nat → Option (Finset Nat)
  | [] => some cacheState
  | fInc :: fList => do
    let w ← m.worksets fInc
    if containerToCacheSize cacheState.card + containerToCacheSize w.length ≥ m.cacheSize then
      some (fillCacheState (m.cacheSize - containerToCacheSize cacheState.card) cacheState w)
    else
      let rest ← addPopped cacheState fList
      some (w.toFinset ∪ rest)

/-- `add_to_cache_state(cache_state, f_list)`. -/
def addToCacheState (cacheState : Finset Nat) (fList : List Nat) : Option (Finset Nat) :=
  m.addPopped cacheState fList.reverse

/-- The `popleft` that `compute_cache_state` makes of a function being executed. -/
def popIfExecuted (isBeingExecuted : Bool) : Option FunctionMissModel :=
  if isBeingExecuted then m.popIncoming.map Prod.snd else some m

/-- The rest of `compute_cache_state`: the incoming functions, newest first, then the history
while the cache is not full. -/
def cacheStateOfQueues : Option (Finset Nat) := do
  let cacheState ← m.addToCacheState ∅ m.incomingFuncs
  if (cacheState.card * 4 : Int) < m.cacheSize then
    m.addToCacheState cacheState m.funcHistory
  else some cacheState

/-- `compute_cache_state(is_being_executed)`: the cache contents, and the model after the
`popleft` of a function being executed. -/
def computeCacheState (isBeingExecuted : Bool) : Option (Finset Nat × FunctionMissModel) := do
  let m' ← m.popIfExecuted isBeingExecuted
  let cacheState ← m'.cacheStateOfQueues
  some (cacheState, m')

/-- `get_misses_for_function(incoming_func_id, is_being_executed)`: the number of 64-byte cache
blocks holding an address of the workset missing from the cache state. -/
def getMissesForFunction (incomingFuncId : Nat) (isBeingExecuted : Bool) :
    Option (Nat × FunctionMissModel) := do
  let (cstate, m') ← m.computeCacheState isBeingExecuted
  let w ← m'.worksets incomingFuncId
  let worksetMissing := w.toFinset \ cstate
  some ((worksetMissing.image fun x => x >>> 6).card, m')

/-- **`add_to_cache_state` bounds only its fill.** What it returns is a set of at most
`max(len(cache_state), cache_size / 4)` addresses holding `cache_state`, and the worksets of
popped functions that left room in the cache, taken whole. -/
theorem addPopped_spec (h4 : 4 ∣ m.cacheSize) (cs : Finset Nat) {l : List Nat} {R : Finset Nat}
    (h : m.addPopped cs l = some R) :
    ∃ F : Finset Nat, cs ⊆ F ∧ F.card ≤ max cs.card (m.cacheSize / 4).toNat ∧
      ∀ a ∈ R, a ∈ F ∨ ∃ f ∈ l, ∃ w, m.worksets f = some w ∧
        containerToCacheSize cs.card + containerToCacheSize w.length < m.cacheSize ∧ a ∈ w := by
  induction l generalizing R with
  | nil =>
    obtain rfl : cs = R := Option.some.inj h
    exact ⟨cs, subset_rfl, le_max_left _ _, fun a ha => .inl ha⟩
  | cons f l ih =>
    rcases hw : m.worksets f with _ | w
    · simp [addPopped, hw] at h
    simp only [addPopped, hw, Option.bind_eq_bind, Option.some_bind] at h
    split_ifs at h with hfull
    · -- `f`'s workset fills the cache
      obtain rfl := Option.some.inj h
      have h4' : 4 ∣ m.cacheSize - containerToCacheSize cs.card := by
        unfold containerToCacheSize; omega
      have hcard := card_fillCacheState_le h4' cs w
      refine ⟨_, subset_fillCacheState _ cs w, ?_, fun a ha => .inl ha⟩
      unfold containerToCacheSize at hcard ⊢
      omega
    · -- `f`'s workset is taken whole
      obtain ⟨R', hR', hR⟩ := Option.bind_eq_some.mp h
      obtain rfl := Option.some.inj hR
      obtain ⟨F, hsub, hcard, hmem⟩ := ih hR'
      refine ⟨F, hsub, hcard, fun a ha => ?_⟩
      rcases Finset.mem_union.mp ha with ha | ha
      · exact .inr ⟨f, List.mem_cons_self f l, w, hw, not_le.mp hfull, List.mem_toFinset.mp ha⟩
      · exact (hmem a ha).imp_right fun ⟨g, hg, hw'⟩ => ⟨g, List.mem_cons_of_mem f hg, hw'⟩

theorem addPopped_isSome (cs : Finset Nat) {l : List Nat}
    (hl : ∀ f ∈ l, (m.worksets f).isSome = true) : (m.addPopped cs l).isSome = true := by
  induction l with
  | nil => rfl
  | cons f l ih =>
    obtain ⟨w, hw⟩ := Option.isSome_iff_exists.mp (hl f (List.mem_cons_self f l))
    simp only [addPopped, hw, Option.bind_eq_bind, Option.some_bind]
    split
    · rfl
    · obtain ⟨R, hR⟩ :=
        Option.isSome_iff_exists.mp (ih fun g hg => hl g (List.mem_cons_of_mem f hg))
      simp [hR]

/-- The `popleft` of a function being executed keeps the worksets, the cache size and the
history, and the incoming functions other than the oldest. -/
theorem popIfExecuted_spec {b : Bool} {m' : FunctionMissModel} (h : m.popIfExecuted b = some m') :
    m'.cacheSize = m.cacheSize ∧ m'.worksets = m.worksets ∧ m'.funcHistory = m.funcHistory ∧
      m'.incomingFuncs ⊆ m.incomingFuncs := by
  cases b
  · obtain rfl := Option.some.inj h
    exact ⟨rfl, rfl, rfl, List.Subset.refl _⟩
  · simp only [popIfExecuted, if_true, popIncoming, Option.map_map, Option.map_eq_some'] at h
    obtain ⟨_, -, rfl⟩ := h
    exact ⟨rfl, rfl, rfl, List.tail_subset _⟩

theorem cacheStateOfQueues_spec (h4 : 4 ∣ m.cacheSize) {R : Finset Nat}
    (h : m.cacheStateOfQueues = some R) :
    ∃ F : Finset Nat, F.card ≤ (m.cacheSize / 4).toNat ∧
      ∀ a ∈ R, a ∈ F ∨ ∃ f ∈ m.incomingFuncs ++ m.funcHistory, ∃ w, m.worksets f = some w ∧
        containerToCacheSize w.length < m.cacheSize ∧ a ∈ w := by
  unfold cacheStateOfQueues at h
  obtain ⟨R₁, h₁, h⟩ := Option.bind_eq_some.mp h
  have hwhole : ∀ {l : List Nat}, l ⊆ m.incomingFuncs ++ m.funcHistory → ∀ {n a : Nat},
      (∃ f ∈ l, ∃ w, m.worksets f = some w ∧
        containerToCacheSize n + containerToCacheSize w.length < m.cacheSize ∧ a ∈ w) →
      ∃ f ∈ m.incomingFuncs ++ m.funcHistory, ∃ w, m.worksets f = some w ∧
        containerToCacheSize w.length < m.cacheSize ∧ a ∈ w :=
    fun hl _ _ ⟨f, hf, w, hw, hlt, ha⟩ =>
      ⟨f, hl hf, w, hw, by unfold containerToCacheSize at *; omega, ha⟩
  obtain ⟨F₁, -, hF₁, hR₁⟩ := m.addPopped_spec h4 ∅ h₁
  rw [Finset.card_empty] at hF₁
  split_ifs at h with hroom
  · -- the cache is not full: the history is scanned on top of `R₁`
    obtain ⟨F₂, -, hF₂, hR₂⟩ := m.addPopped_spec h4 R₁ h
    exact ⟨F₂, by omega, fun a ha => (hR₂ a ha).imp_right
      (hwhole fun f hf => List.mem_append_right _ (List.mem_reverse.mp hf))⟩
  · obtain rfl := Option.some.inj h
    exact ⟨F₁, by omega, fun a ha => (hR₁ a ha).imp_right
      (hwhole fun f hf => List.mem_append_left _ (List.mem_reverse.mp hf))⟩

theorem cacheStateOfQueues_isSome
    (hws : ∀ f ∈ m.incomingFuncs ++ m.funcHistory, (m.worksets f).isSome = true) :
    m.cacheStateOfQueues.isSome = true := by
  obtain ⟨R₁, h₁⟩ := Option.isSome_iff_exists.mp (m.addPopped_isSome ∅ fun f hf =>
    hws f (List.mem_append_left _ (List.mem_reverse.mp hf)))
  simp only [cacheStateOfQueues, addToCacheState, h₁, Option.bind_eq_bind, Option.some_bind]
  split
  · exact m.addPopped_isSome R₁ fun f hf =>
      hws f (List.mem_append_right _ (List.mem_reverse.mp hf))
  · rfl

/-- `compute_cache_state` returns unless a queued function has no workset (`KeyError`) or the
function being executed is missing from `incoming_funcs` (`IndexError`). -/
theorem computeCacheState_isSome {b : Bool}
    (hws : ∀ f ∈ m.incomingFuncs ++ m.funcHistory, (m.worksets f).isSome = true)
    (hb : b = true → m.incomingFuncs ≠ []) : (m.computeCacheState b).isSome = true := by
  obtain ⟨m'', hpop⟩ : ∃ m'', m.popIfExecuted b = some m'' := by
    cases b
    · exact ⟨m, rfl⟩
    · obtain ⟨f, rest, hfr⟩ := List.exists_cons_of_ne_nil (hb rfl)
      simp [popIfExecuted, popIncoming, hfr]
  obtain ⟨-, hws', hhist, hinc⟩ := m.popIfExecuted_spec hpop
  obtain ⟨R, hR⟩ := Option.isSome_iff_exists.mp (m''.cacheStateOfQueues_isSome fun f hf => by
    rw [hws']
    rcases List.mem_append.mp hf with hf | hf
    · exact hws f (List.mem_append_left _ (hinc hf))
    · exact hws f (List.mem_append_right _ (hhist ▸ hf)))
  simp [computeCacheState, hpop, hR]

theorem computeCacheState_spec (h4 : 4 ∣ m.cacheSize) (b : Bool) {R : Finset Nat}
    {m' : FunctionMissModel} (h : m.computeCacheState b = some (R, m')) :
    ∃ F : Finset Nat, F.card ≤ (m.cacheSize / 4).toNat ∧
      ∀ a ∈ R, a ∈ F ∨ ∃ f ∈ m.incomingFuncs ++ m.funcHistory, ∃ w, m.worksets f = some w ∧
        containerToCacheSize w.length < m.cacheSize ∧ a ∈ w := by
  obtain ⟨m'', hpop, h⟩ := Option.bind_eq_some.mp h
  obtain ⟨R', hR', h⟩ := Option.bind_eq_some.mp h
  obtain rfl := congrArg Prod.fst (Option.some.inj h)
  obtain ⟨hsize, hws, hhist, hinc⟩ := m.popIfExecuted_spec hpop
  obtain ⟨F, hF, hmem⟩ := m''.cacheStateOfQueues_spec (hsize ▸ h4) hR'
  refine ⟨F, hsize ▸ hF, fun a ha => (hmem a ha).imp_right
    fun ⟨f, hf, w, hw, hlt, ha⟩ => ⟨f, ?_, w, hws ▸ hw, hsize ▸ hlt, ha⟩⟩
  rcases List.mem_append.mp hf with hf | hf
  · exact List.mem_append_left _ (hinc hf)
  · exact List.mem_append_right _ (hhist ▸ hf)

end FunctionMissModel

/-- **`compute_cache_state` bounds only the addresses of large worksets.** For a cache size that
is a multiple of 4, `compute_cache_state` returns unless a workset is missing or nothing is
there to `popleft`; and every address it returns is one of at most `cache_size / 4`, or belongs
to the workset, smaller than the cache, of an incoming or past function. -/
theorem computeCacheState_quarter_outside_small_worksets (m : FunctionMissModel) (b : Bool)
    (h4 : 4 ∣ m.cacheSize) :
    ((∀ f ∈ m.incomingFuncs ++ m.funcHistory, (m.worksets f).isSome = true) →
      (b = true → m.incomingFuncs ≠ []) → (m.computeCacheState b).isSome = true) ∧
    ∀ R m', m.computeCacheState b = some (R, m') →
      ∃ F : Finset Nat, F.card ≤ (m.cacheSize / 4).toNat ∧
        ∀ a ∈ R, a ∈ F ∨ ∃ f ∈ m.incomingFuncs ++ m.funcHistory, ∃ w, m.worksets f = some w ∧
          containerToCacheSize w.length < m.cacheSize ∧ a ∈ w :=
  ⟨fun hws hb => m.computeCacheState_isSome hws hb,
    fun _ _ h => m.computeCacheState_spec h4 b h⟩

/-- `FunctionMissModel(8, {0: [2, 3], 1: [1]}, hist_length=2)` after `dispatch(0)` and
`dispatch(1)`: a cache of two addresses. -/
def twoDispatched : FunctionMissModel where
  cacheSize := 8
  worksets f := if f = 0 then some [2, 3] else if f = 1 then some [1] else none
  histLength := 2
  incomingFuncs := [0, 1]
  funcHistory := []
  incoming_le := le_rfl
  history_le := Nat.zero_le _

/-- With function `1`'s single address taken whole and function `0`'s filling the two addresses
of the cache, `compute_cache_state` returns three addresses. -/
theorem twoDispatched_cache_state_overflows :
    (twoDispatched.computeCacheState false).map (fun r => r.1.card) = some 3 ∧
      (twoDispatched.cacheSize / 4).toNat = 2 ∧
      (twoDispatched.computeCacheState false).isSome = true ∧
      ∀ R m', twoDispatched.computeCacheState false = some (R, m') →
        ∃ F : Finset Nat, F.card ≤ (twoDispatched.cacheSize / 4).toNat ∧
          ∀ a ∈ R, a ∈ F ∨ ∃ f ∈ twoDispatched.incomingFuncs ++ twoDispatched.funcHistory, ∃ w,
            twoDispatched.worksets f = some w ∧
            containerToCacheSize w.length < twoDispatched.cacheSize ∧ a ∈ w := by
  obtain ⟨htot, hspec⟩ :=
    computeCacheState_quarter_outside_small_worksets twoDispatched false (by decide)
  exact ⟨by decide, by decide, htot (by decide) (by decide), hspec⟩

end QueueFlex
