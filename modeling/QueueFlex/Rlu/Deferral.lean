import Mathlib.Data.List.Basic

/-! # The deferral controller

`DeferralController` of `src/components/deferral_controller.py`: a global counter that tells
every `initial_value`-th writer to synchronize. Python integers are unbounded and signed: the
counter is an `Int`.

`check_defer` and `get_deferral_cost_multiplier` keep the counter in `[1, N]` and signal
every `N`-th call (`checkDefer_run_new`), and so does `reset_defer(v)` for an explicit
`v ≠ -1`. The branches of `reset_defer` are the other way round from its docstring ("reset
the deferral counter to the initial value, optional arg for explicit value"): called with its
default `-1`, it sets the counter to `-1`, from where `check_defer` never signals again and
the multiplier grows without bound (`reset_defer_default_leaves_range`). -/

namespace QueueFlex

/-- `DeferralController`: the counter and the value it restarts from. -/
structure DeferralController where
  deferralCounter : Int
  resetVal : Int
deriving DecidableEq, Repr

namespace DeferralController

/-- `DeferralController(initial_value)`. -/
def new (initialValue : Int) : DeferralController := ⟨initialValue, initialValue⟩

/-- `check_defer()`: whether the caller must synchronize. -/
def checkDefer (d : DeferralController) : Bool × DeferralController :=
  let d := { d with deferralCounter := d.deferralCounter - 1 }
  if d.deferralCounter = 0 then (true, { d with deferralCounter := d.resetVal }) else (false, d)

/-- `reset_defer(counter_value)`; the default argument is `-1`. -/
def resetDefer (d : DeferralController) (counterValue : Int) : DeferralController :=
  if counterValue ≠ -1 then { d with deferralCounter := d.resetVal }
  else { d with deferralCounter := counterValue }

/-- `get_deferral_cost_multiplier()`. -/
def getDeferralCostMultiplier (d : DeferralController) : Int := d.resetVal - d.deferralCounter

end DeferralController

/-- The calls on a controller. -/
inductive DeferralCall where
  | checkDefer
  | resetDefer (counterValue : Int)
  | getDeferralCostMultiplier
deriving DecidableEq, Repr

/-- What a call returns: `check_defer`'s flag, the multiplier, or `None`. -/
inductive DeferralReturn where
  | flag (b : Bool)
  | multiplier (m : Int)
  | none
deriving DecidableEq, Repr

namespace DeferralController

/-- One call. -/
def call (d : DeferralController) : DeferralCall → DeferralReturn × DeferralController
  | .checkDefer => ((d.checkDefer).1 |> .flag, (d.checkDefer).2)
  | .resetDefer v => (.none, d.resetDefer v)
  | .getDeferralCostMultiplier => (.multiplier d.getDeferralCostMultiplier, d)

/-- A sequence of calls: what each returns, and the controller after them. -/
def run (d : DeferralController) : List DeferralCall → List DeferralReturn × DeferralController
  | [] => ([], d)
  | c :: cs => ((d.call c).1 :: (run (d.call c).2 cs).1, (run (d.call c).2 cs).2)

theorem run_append (d : DeferralController) (cs cs' : List DeferralCall) :
    d.run (cs ++ cs') = ((d.run cs).1 ++ ((d.run cs).2.run cs').1, ((d.run cs).2.run cs').2) := by
  induction cs generalizing d with
  | nil => rfl
  | cons c cs ih => simp [run, ih]

theorem run_singleton (d : DeferralController) (c : DeferralCall) :
    d.run [c] = ([(d.call c).1], (d.call c).2) := rfl

/-! ## Counting down from `N` -/

/-- The controller's contract: it restarts from `N`, and its counter lies in `[1, N]`. -/
structure InRange (N : Int) (d : DeferralController) : Prop where
  resetVal : d.resetVal = N
  pos : 1 ≤ d.deferralCounter
  le : d.deferralCounter ≤ N

theorem InRange.new {N : Int} (hN : 1 ≤ N) : InRange N (new N) := ⟨rfl, hN, Int.le_refl N⟩

theorem checkDefer_eq (d : DeferralController) :
    d.checkDefer = if d.deferralCounter - 1 = 0 then (true, { d with deferralCounter := d.resetVal })
      else (false, { d with deferralCounter := d.deferralCounter - 1 }) := rfl

theorem InRange.checkDefer {N : Int} {d : DeferralController} (h : InRange N d) :
    InRange N d.checkDefer.2 := by
  have := h.pos; have := h.le; have := h.resetVal
  rw [checkDefer_eq]
  split
  · exact ⟨h.resetVal, by simp only; omega, by simp only; omega⟩
  · exact ⟨h.resetVal, by simp only; omega, by simp only; omega⟩

theorem InRange.resetDefer {N : Int} {d : DeferralController} (h : InRange N d) {v : Int}
    (hv : v ≠ -1) : InRange N (d.resetDefer v) := by
  have := h.pos; have := h.le; have := h.resetVal
  simp only [DeferralController.resetDefer, if_pos hv]
  exact ⟨h.resetVal, by simp only; omega, by simp only; omega⟩

/-- In range, the multiplier lies in `[0, N - 1]`. -/
theorem InRange.multiplier {N : Int} {d : DeferralController} (h : InRange N d) :
    0 ≤ d.getDeferralCostMultiplier ∧ d.getDeferralCostMultiplier ≤ N - 1 := by
  have := h.pos; have := h.le
  simp only [getDeferralCostMultiplier, h.resetVal]; omega

/-- **Calls without `reset_defer()` keep the controller in range.** -/
theorem InRange.run {N : Int} {d : DeferralController} (h : InRange N d)
    {cs : List DeferralCall} (hcs : ∀ v, .resetDefer v ∈ cs → v ≠ -1) : InRange N (d.run cs).2 := by
  induction cs generalizing d with
  | nil => exact h
  | cons c cs ih =>
    refine ih ?_ fun v hv => hcs v (List.mem_cons_of_mem _ hv)
    cases c with
    | checkDefer => exact h.checkDefer
    | resetDefer v => exact h.resetDefer (hcs v (List.mem_cons_self _ _))
    | getDeferralCostMultiplier => exact h

/-- One `check_defer` from `N - k % N` signals exactly when `k + 1` is a multiple of `N`. -/
theorem checkDefer_countdown {N : Nat} (hN : 0 < N) (k : Nat) :
    (⟨(N : Int) - (k % N : Nat), N⟩ : DeferralController).checkDefer =
      ((k + 1) % N == 0, ⟨(N : Int) - ((k + 1) % N : Nat), N⟩) := by
  have hlt := Nat.mod_lt k hN
  rw [← Nat.mod_add_mod]
  generalize k % N = m at hlt ⊢
  rw [checkDefer_eq]
  by_cases h : m + 1 = N
  · subst h
    rw [Nat.mod_self, if_pos (by simp only; omega)]
    simp
  · rw [Nat.mod_eq_of_lt (by omega), if_neg (by simp only; omega)]
    simp only [Prod.mk.injEq, mk.injEq, and_true]
    exact ⟨by simp, by omega⟩

/-- **`check_defer` signals every `N`-th call** since construction: the `i`-th call (from 0)
returns `True` exactly when `N` divides `i + 1`. -/
theorem checkDefer_run_new {N : Nat} (hN : 0 < N) (k : Nat) :
    (new N).run (List.replicate k .checkDefer) =
      ((List.range k).map fun i => .flag ((i + 1) % N == 0), ⟨(N : Int) - (k % N : Nat), N⟩) := by
  induction k with
  | zero => simp [run, new]
  | succ k ih =>
    rw [List.replicate_succ', run_append, ih, run_singleton, List.range_succ, List.map_append]
    simp only [call, checkDefer_countdown hN, List.map_cons, List.map_nil]

/-! ## `reset_defer()` -/

/-- `check_defer` from a counter at or below zero never signals, and counts down. -/
theorem checkDefer_of_nonpos {d : DeferralController} (h : d.deferralCounter ≤ 0) :
    d.checkDefer = (false, { d with deferralCounter := d.deferralCounter - 1 }) := by
  unfold DeferralController.checkDefer
  rw [if_neg (by simp only; omega)]

/-- **`reset_defer()` leaves the controller's range for good.** With its default argument it
sets the counter to `-1`, whatever `N`; after `k` more `check_defer` calls none has signalled,
the counter is `-1 - k` and the multiplier is `N + 1 + k`. -/
theorem reset_defer_default_leaves_range (d : DeferralController) (k : Nat) :
    (d.run (.resetDefer (-1) :: List.replicate k .checkDefer ++ [.getDeferralCostMultiplier])) =
      (.none :: List.replicate k (.flag false) ++ [.multiplier (d.resetVal + 1 + k)],
        { d with deferralCounter := -1 - k }) := by
  have hk : ∀ k : Nat, ({ d with deferralCounter := -1 } : DeferralController).run
      (List.replicate k .checkDefer) =
      (List.replicate k (.flag false), { d with deferralCounter := -1 - k }) := fun k => by
    induction k with
    | zero => simp [run]
    | succ k ih =>
      rw [List.replicate_succ', run_append, ih, run_singleton, List.replicate_succ']
      rw [call, @checkDefer_of_nonpos { d with deferralCounter := -1 - k } (by simp only; omega)]
      simp only [Prod.mk.injEq, mk.injEq, true_and, and_true]
      push_cast; omega
  rw [List.cons_append, run, run_append]
  simp only [call, resetDefer, show ¬((-1 : Int) ≠ -1) from not_not.mpr rfl, if_false, hk]
  simp only [run, call, getDeferralCostMultiplier, List.cons_append, Prod.mk.injEq,
    List.cons.injEq, List.append_cancel_left_eq, DeferralReturn.multiplier.injEq, true_and,
    and_true]
  omega

end DeferralController

end QueueFlex
