import Mathlib.Data.List.Rotate
import Mathlib.Data.List.Range

/-! # `find_shortest_q`

`find_shortest_q` (`src/components/dispatch_policies/base_policies.py`) scans the queue
indices in the order `deque(range(len(qs))).rotate(starting_q)`, skips those in
`filter_list`, and keeps the first strictly shorter queue, starting from the pair
`(0, 1000000000)`. The queues are given here by their depths (`helper_get_q_depth`).

The scan's result is described once by `foldl_spec`; `findShortestQ_default_spec` is its
instance at the arguments every dispatch policy passes (no filter, no rotation). The
sentinel length `1000000000` is returned when no queue is shorter than it.
`foldl_first_shortest` adds that the scan keeps the first queue of least depth it meets, and
`findShortestQ_first_unfiltered` states the whole contract for any filter and rotation: the
result is a queue outside `filter_list`, of least depth among those, first of them in the
rotated order, and with no rotation the lowest such index. -/

namespace QueueFlex

/-- `deque(xs).rotate(k)`: the last `k` elements move to the front, and a negative `k` moves
the first `-k` to the back; `deque.rotate` takes `k` modulo the length. -/
def rotateRight (xs : List Nat) (k : Int) : List Nat :=
  xs.rotate (-k % xs.length).toNat

/-- One iteration of the scan of `find_shortest_q`. -/
def shortestStep (qs : List Nat) (acc : Nat × Nat) (qdx : Nat) : Nat × Nat :=
  if qs.getD qdx 0 < acc.2 then (qdx, qs.getD qdx 0) else acc

/-- `find_shortest_q(qs, filter_list, starting_q)`, with `qs` given by the queue depths. -/
def findShortestQ (qs : List Nat) (filterList : List Nat) (startingQ : Int) : Nat × Nat :=
  let allQRange := rotateRight (List.range qs.length) startingQ
  let indexesToCheck := allQRange.filter fun item => decide (item ∉ filterList)
  indexesToCheck.foldl (shortestStep qs) (0, 1000000000)

theorem rotateRight_zero (xs : List Nat) : rotateRight xs 0 = xs := by
  simp [rotateRight]

/-- The scan never grows the best length; the result is the start or a scanned index with
its depth, and its length is at most every scanned depth. -/
theorem foldl_spec (qs : List Nat) (l : List Nat) (acc : Nat × Nat) :
    let r := l.foldl (shortestStep qs) acc
    r.2 ≤ acc.2 ∧ (r = acc ∨ r.1 ∈ l ∧ r.2 = qs.getD r.1 0) ∧
      ∀ j ∈ l, r.2 ≤ qs.getD j 0 := by
  induction l generalizing acc with
  | nil => simp
  | cons x l ih =>
    simp only [List.foldl_cons, List.mem_cons, forall_eq_or_imp]
    by_cases hlt : qs.getD x 0 < acc.2
    · rw [show shortestStep qs acc x = (x, qs.getD x 0) from if_pos hlt]
      obtain ⟨hle, hres, hall⟩ := ih (x, qs.getD x 0)
      dsimp only at hle
      refine ⟨by omega, .inr ?_, hle, hall⟩
      rcases hres with h | h
      · rw [h]; exact ⟨.inl rfl, rfl⟩
      · exact ⟨.inr h.1, h.2⟩
    · rw [show shortestStep qs acc x = acc from if_neg hlt]
      obtain ⟨hle, hres, hall⟩ := ih acc
      refine ⟨hle, ?_, by omega, hall⟩
      rcases hres with h | h
      · exact .inl h
      · exact .inr ⟨.inr h.1, h.2⟩

/-- The call `find_shortest_q(qs)` of the dispatch policies: the result's length is at most
`1000000000` and at most every depth; below the sentinel it is the depth of the returned
index, which is always a queue index when there is a queue. -/
theorem findShortestQ_default_spec (qs : List Nat) :
    let r := findShortestQ qs [] 0
    r.2 ≤ 1000000000 ∧ (∀ j < qs.length, r.2 ≤ qs.getD j 0) ∧
      (r.2 < 1000000000 → r.1 < qs.length ∧ r.2 = qs.getD r.1 0) ∧
      (0 < qs.length → r.1 < qs.length) := by
  obtain ⟨hle, hres, hall⟩ := foldl_spec qs (List.range qs.length) (0, 1000000000)
  simp only [findShortestQ, rotateRight_zero, List.not_mem_nil, not_false_eq_true,
    decide_True, List.filter_true]
  refine ⟨hle, fun j hj => hall j (List.mem_range.mpr hj), fun hlt => ?_, fun hpos => ?_⟩
  · rcases hres with h | h
    · simp [h] at hlt
    · exact ⟨List.mem_range.mp h.1, h.2⟩
  · rcases hres with h | h
    · simp [h, hpos]
    · exact List.mem_range.mp h.1

@[simp] theorem mem_rotateRight {xs : List Nat} {k : Int} {i : Nat} :
    i ∈ rotateRight xs k ↔ i ∈ xs :=
  List.mem_rotate

/-- Over indices whose depths are below the sentinel, the scan ends on the first index of least
depth: every index scanned before it is strictly deeper. -/
theorem foldl_first_shortest (qs : List Nat) {l : List Nat} (hl : l ≠ [])
    (hcap : ∀ j ∈ l, qs.getD j 0 < 1000000000) :
    let r := l.foldl (shortestStep qs) (0, 1000000000)
    r.2 = qs.getD r.1 0 ∧
      ∃ pre post, l = pre ++ r.1 :: post ∧ ∀ j ∈ pre, r.2 < qs.getD j 0 := by
  induction l using List.reverseRecOn with
  | nil => exact absurd rfl hl
  | append_singleton l x ih =>
    simp only [List.foldl_append, List.foldl_cons, List.foldl_nil]
    have hx : qs.getD x 0 < 1000000000 := hcap x (by simp)
    by_cases hne : l = []
    · subst hne
      rw [List.foldl_nil, show shortestStep qs (0, 1000000000) x = (x, qs.getD x 0) from if_pos hx]
      exact ⟨rfl, [], [], rfl, by simp⟩
    obtain ⟨hval, pre, post, hsplit, hpre⟩ := ih hne fun j hj => hcap j (by simp [hj])
    have hmin := (foldl_spec qs l (0, 1000000000)).2.2
    by_cases hlt : qs.getD x 0 < (l.foldl (shortestStep qs) (0, 1000000000)).2
    · -- `x` is strictly shallower than every index before it
      rw [show shortestStep qs _ x = (x, qs.getD x 0) from if_pos hlt]
      exact ⟨rfl, l, [], rfl, fun j hj => lt_of_lt_of_le hlt (hmin j hj)⟩
    · rw [show shortestStep qs _ x = _ from if_neg hlt]
      exact ⟨hval, pre, post ++ [x], (congrArg (· ++ [x]) hsplit).trans (by simp), hpre⟩

/-- The indices `find_shortest_q` scans, in order. -/
theorem findShortestQ_eq (qs filterList : List Nat) (startingQ : Int) :
    findShortestQ qs filterList startingQ =
      ((rotateRight (List.range qs.length) startingQ).filter fun item =>
        decide (item ∉ filterList)).foldl (shortestStep qs) (0, 1000000000) :=
  rfl

/-- **Which queue `find_shortest_q` returns**: when some queue is not filtered out and every
depth is below the sentinel, a queue not in `filter_list`, with its depth, of least depth among
the queues not in `filter_list`. -/
theorem findShortestQ_unfiltered {qs filterList : List Nat} {startingQ : Int}
    (hcap : ∀ j < qs.length, qs.getD j 0 < 1000000000)
    (hex : ∃ j < qs.length, j ∉ filterList) :
    let r := findShortestQ qs filterList startingQ
    r.1 < qs.length ∧ r.1 ∉ filterList ∧ r.2 = qs.getD r.1 0 ∧
      (∀ j < qs.length, j ∉ filterList → r.2 ≤ qs.getD j 0) ∧
      ∃ pre post, (rotateRight (List.range qs.length) startingQ).filter
        (fun item => decide (item ∉ filterList)) = pre ++ r.1 :: post ∧
        ∀ j ∈ pre, r.2 < qs.getD j 0 := by
  rw [findShortestQ_eq]
  set order := (rotateRight (List.range qs.length) startingQ).filter fun item =>
    decide (item ∉ filterList)
  have hmem : ∀ j, j ∈ order ↔ j < qs.length ∧ j ∉ filterList := fun j => by simp [order]
  obtain ⟨j, hj, hf⟩ := hex
  obtain ⟨hval, pre, post, hsplit, hpre⟩ := foldl_first_shortest qs
    (List.ne_nil_of_mem ((hmem j).2 ⟨hj, hf⟩)) fun j hj => hcap j ((hmem j).1 hj).1
  have hmin := (foldl_spec qs order (0, 1000000000)).2.2
  generalize order.foldl (shortestStep qs) (0, 1000000000) = r at hval hsplit hpre hmin ⊢
  have hr := (hmem r.1).1 (by rw [hsplit]; simp)
  exact ⟨hr.1, hr.2, hval, fun j hj hf => hmin j ((hmem j).2 ⟨hj, hf⟩),
    pre, post, hsplit, hpre⟩

theorem getD_map_range {n q : Nat} (depth : Nat → Nat) (h : q < n) :
    ((List.range n).map depth).getD q 0 = depth q := by
  simp [h]

/-- `findShortestQ_unfiltered` for queues `0, ..., n - 1` given by their depths, the form in
which every policy calls `find_shortest_q`. -/
theorem findShortestQ_range_unfiltered {n : Nat} {depth : Nat → Nat} {filterList : List Nat}
    {startingQ : Int} (hcap : ∀ q < n, depth q < 1000000000) (hex : ∃ q < n, q ∉ filterList) :
    let r := findShortestQ ((List.range n).map depth) filterList startingQ
    r.1 < n ∧ r.1 ∉ filterList ∧ r.2 = depth r.1 ∧
      ∀ q < n, q ∉ filterList → r.2 ≤ depth q := by
  have hlen : ((List.range n).map depth).length = n := by simp
  obtain ⟨hlt, hnf, hval, hmin, -⟩ := @findShortestQ_unfiltered _ filterList startingQ
    (fun q hq => by rw [hlen] at hq; rw [getD_map_range depth hq]; exact hcap q hq)
    (by rwa [hlen])
  rw [hlen] at hlt hmin
  refine ⟨hlt, hnf, hval.trans (getD_map_range depth hlt), fun q hq hf => ?_⟩
  simpa only [getD_map_range depth hq] using hmin q hq hf

/-- In the scan from `starting_q = 0` the indices come in increasing order, so those before
`i` are all the unfiltered indices below `i`. -/
theorem mem_prefix_of_lt {n i j : Nat} {p : Nat → Bool} {pre post : List Nat}
    (hsplit : (List.range n).filter p = pre ++ i :: post) (hj : j < i) (hjn : j < n)
    (hp : p j = true) : j ∈ pre := by
  have hsorted := hsplit ▸ (List.pairwise_lt_range n).filter p
  have hmem : j ∈ pre ++ i :: post :=
    hsplit ▸ List.mem_filter.mpr ⟨List.mem_range.mpr hjn, hp⟩
  rcases List.mem_append.mp hmem with h | h
  · exact h
  · have hle : i ≤ j := by
      rcases List.mem_cons.mp h with rfl | h
      · exact le_rfl
      · exact le_of_lt ((List.pairwise_cons.mp (List.pairwise_append.mp hsorted).2.1).1 j h)
    omega

/-- **`find_shortest_q` returns the first shortest unfiltered queue.** When every depth is below
the sentinel and some queue is not in `filter_list`, the result is such a queue with its depth,
of least depth among them, and the scan `deque(range(len(qs))).rotate(starting_q)` reaches
only strictly deeper queues before it; from `starting_q = 0` it is the lowest such index. -/
theorem findShortestQ_first_unfiltered {qs filterList : List Nat} {startingQ : Int}
    (hcap : ∀ j < qs.length, qs.getD j 0 < 1000000000) (hex : ∃ j < qs.length, j ∉ filterList) :
    ∃ i, findShortestQ qs filterList startingQ = (i, qs.getD i 0) ∧ i < qs.length ∧
      i ∉ filterList ∧ (∀ j < qs.length, j ∉ filterList → qs.getD i 0 ≤ qs.getD j 0) ∧
      (∃ pre post, (rotateRight (List.range qs.length) startingQ).filter
        (fun item => decide (item ∉ filterList)) = pre ++ i :: post ∧
        ∀ j ∈ pre, qs.getD i 0 < qs.getD j 0) ∧
      (startingQ = 0 → ∀ j < i, j ∉ filterList → qs.getD i 0 < qs.getD j 0) := by
  obtain ⟨hlt, hnf, hval, hmin, pre, post, hsplit, hpre⟩ :=
    @findShortestQ_unfiltered qs filterList startingQ hcap hex
  generalize findShortestQ qs filterList startingQ = r at *
  obtain ⟨i, len⟩ := r
  dsimp only at hval
  subst hval
  refine ⟨i, rfl, hlt, hnf, hmin, ⟨pre, post, hsplit, hpre⟩, fun h0 j hj hf => hpre j ?_⟩
  subst h0
  rw [rotateRight_zero] at hsplit
  exact mem_prefix_of_lt hsplit hj (by omega) (by simpa using hf)

/-- Of the two shallowest queues of `[2, 1, 1]`, the scan from queue `0` keeps queue `1`, and
the only queue before it is deeper. -/
theorem findShortestQ_keeps_first_of_ties :
    findShortestQ [2, 1, 1] [] 0 = (1, 1) ∧ ∀ j < 1, j ∉ ([] : List Nat) → 1 < [2, 1, 1].getD j 0 := by
  obtain ⟨i, hr, -, -, -, -, hfirst⟩ :=
    @findShortestQ_first_unfiltered [2, 1, 1] [] 0 (by decide)
      ⟨0, by decide, List.not_mem_nil 0⟩
  have h : findShortestQ [2, 1, 1] [] 0 = (1, 1) := by decide
  obtain rfl : i = 1 := congrArg Prod.fst (hr.symm.trans h)
  exact ⟨h, hfirst rfl⟩

end QueueFlex
