import QueueFlex.Pipeline.System

/-! # What the latency store records

`OpenPoissonLoadGen` puts the `EndOfMeasurements` marker after its `reqs_to_sim` requests and
keeps generating requests with id `-1`. The balancer sends the marker to worker 0 only, and
only worker 0 stops at it (`check_req_end_sim`); every other worker keeps serving and
recording what it is sent. A request generated after the marker and dispatched to another
worker is recorded in the `LatencyStoreWithBreakdown` like any other
(`post_marker_request_recorded`).

Worker 0 also ends the simulation when `isSimulationUnstable` holds after it records a service
time; what that test reads of the recorded times is given in
`unstable_iff_last_four_reach_threshold`. -/

namespace QueueFlex

namespace Sim

/-- Two workers behind a `LoadBalancer` with the CRCW policy, one request to measure (a read),
then the marker and a read with id `-1` one time unit later; every service time is 1000, the
overhead 300 and the channel latency 30. -/
def twoCoreMeasure : SimConfig where
  bal := ⟨.loadBalancer, ⟨.crcw, 2, trivial, by decide⟩, 1, by decide⟩
  worker := ⟨false, false, false, 200⟩
  reqsToSim := 1
  gap k := if k = 0 then 1 else 100000
  keyOf k := k
  writeOf _ := false
  hashOf := id
  servDraw _ _ := 1000
  servTime := 1000
  fixedOverhead := 300
  channelLat := 30

/-- The request with id 0 goes to worker 0, then the marker, and the request generated with
the marker goes to the shorter queue, worker 1's. Worker 0 stops at the marker and interrupts
the generator; worker 1 records the request with id `-1`. When the event queue is exhausted,
with no instability, the store holds both requests. -/
theorem post_marker_request_recorded :
    ∃ s, Reachable twoCoreMeasure s ∧ s.fault = none ∧ exhausted twoCoreMeasure s = true ∧
      s.unstable = false ∧ s.recorded = [genReq twoCoreMeasure 0, genReq twoCoreMeasure 1] ∧
      (genReq twoCoreMeasure 1).num = -1 := by
  have h : (runActions twoCoreMeasure
      [.generate, .balancerRun, .tick 1, .generate, .deliverEvent, .balancerRun, .balancerRun,
        .tick 2, .deliverEvent, .balancerRun, .balancerRun, .deliverEvent, .balancerRun,
        .balancerRun, .tick 31, .deliverDispatch 0, .core 0, .tick 32, .deliverDispatch 0,
        .deliverDispatch 1, .core 1, .tick 1031, .core 0, .tick 1032, .core 1, .tick 1331,
        .core 0, .core 0, .tick 1332, .core 1, .tick 1361, .deliverPull, .tick 1362,
        .deliverPull] (init twoCoreMeasure)).map (fun s =>
      decide (s.fault = none ∧ exhausted twoCoreMeasure s = true ∧ s.unstable = false ∧
        s.recorded = [genReq twoCoreMeasure 0, genReq twoCoreMeasure 1])) = some true := by
    decide
  obtain ⟨s, hs, hp⟩ := Option.map_eq_some'.mp h
  have ⟨h₁, h₂, h₃, h₄⟩ := of_decide_eq_true hp
  exact ⟨s, Reachable.runActions _ .refl hs, h₁, h₂, h₃, h₄, rfl⟩

/-! ## The instability check

`putSTime` appends a time and deletes the oldest once the list holds five, so
`lastFiveSTimes` holds the last four recorded times (`putSTime_window`).
`isSimulationUnstable` is `all` over that window: it holds as soon as every time recorded so
far reaches `kill_sim_threshold`, from the first one on, and looks back four times, not
five. -/

/-- One more time on a window of at most four keeps the last four. -/
theorem putSTime_of_length_le {l : List Nat} (hl : l.length ≤ 4) (t : Nat) :
    putSTime l t = (l ++ [t]).drop ((l ++ [t]).length - 4) := by
  have hlen : (l ++ [t]).length = l.length + 1 := List.length_append l [t]
  unfold putSTime
  split <;> rename_i h
  · rw [show (l ++ [t]).length - 4 = 1 by omega, List.drop_one]
  · rw [show (l ++ [t]).length - 4 = 0 by omega, List.drop_zero]

/-- The window after a history of recorded times holds its last four. -/
theorem putSTime_window (ts : List Nat) : ts.foldl putSTime [] = ts.drop (ts.length - 4) := by
  induction ts using List.reverseRecOn with
  | nil => rfl
  | append_singleton ts t ih =>
    have hw : (ts.drop (ts.length - 4)).length ≤ 4 := by rw [List.length_drop]; omega
    rw [List.foldl_append, List.foldl_cons, List.foldl_nil, ih, putSTime_of_length_le hw,
      List.drop_append_of_le_length (by simp), List.drop_append_of_le_length (by simp),
      List.drop_drop]
    simp only [List.length_append, List.length_drop, List.length_singleton]
    congr 2; omega

/-- **The instability test of a recorded history**: after `n` calls of `putSTime` the window
holds the last `min n 4` times, and `isSimulationUnstable` holds exactly when each of them
reaches `kill_sim_threshold`. -/
theorem unstable_iff_last_four_reach_threshold (ts : List Nat) :
    (ts.foldl putSTime []).length = min ts.length 4 ∧
    (isSimulationUnstable (ts.foldl putSTime []) = true ↔
      ∀ t ∈ ts.drop (ts.length - 4), 1000000 ≤ t) := by
  rw [putSTime_window]
  refine ⟨by rw [List.length_drop]; omega, ?_⟩
  simp only [isSimulationUnstable, List.all_eq_true, decide_eq_true_eq]

example : isSimulationUnstable ([1000000].foldl putSTime []) = true := by decide

end Sim

end QueueFlex
