import QueueFlex.Dispatch.Policy

/-! # The epoch tracker

`EpochTracker` of `src/components/epoch_tracker.py`, over the `GlobalSequencer` it reads the
current epoch from. The sequencer's source is not in the repository; it is modelled from
`src/tests/test_global_sequencer.py`: a counter from `initial_value` that
`increment_ts(amount)` raises by `amount`.

The tracker keeps two dictionaries: `epoch_to_reader_map`, from an epoch to the ids of the
readers registered in it, and `waiting_writer_events`, from an epoch to the events of the
writers waiting for its readers to drain. The SimPy events the tracker creates are numbered
in the order of their creation; `EventLog` records the order in which they are succeeded, and
`succeed` on an event already triggered raises, as SimPy's `Event.succeed` does.
`writer_synchronize_epoch` also returns `env.now`, which nothing here depends on: the model
returns the event only.

The callers (`TrackerWorld`) make any sequence of `register_reader`, `unregister_reader`,
`writer_synchronize_epoch` and `increment_ts` calls in which each `unregister_reader` names
an epoch and a reader id registered earlier and not yet unregistered. Over every such run the
dictionaries stay well formed, no assertion fails, and every writer's event is succeeded
exactly once, at the call the docstrings name (`epoch_tracker_wakes_each_writer_once`). -/

namespace QueueFlex

/-- Modelled from the spec: `GlobalSequencer`, the global timestamp. Its source is not in the
repository; the model follows `src/tests/test_global_sequencer.py`. -/
structure GlobalSequencer where
  ts : Nat
deriving DecidableEq, Repr

namespace GlobalSequencer

/-- `get_ts()`. -/
def getTs (g : GlobalSequencer) : Nat := g.ts

/-- `increment_ts(amount)`. -/
def incrementTs (g : GlobalSequencer) (amount : Nat) : GlobalSequencer := ⟨g.ts + amount⟩

end GlobalSequencer

/-- The errors of the tracker's calls: the two assertions of `unregister_reader`, and SimPy's
`RuntimeError` for an event succeeded twice. -/
inductive TrackerFault where
  | epochNotTracked (readerId epochNumber : Nat)
  | readerNotOnList (readerId : Nat) (readerList : List Nat)
  | alreadyTriggered (event : Nat)
deriving DecidableEq, Repr

/-- The events of the SimPy environment that the tracker creates, numbered from 0: how many
exist, and the ones succeeded, in the order of their `succeed()`. -/
structure EventLog where
  created : Nat
  succeeded : List Nat
deriving DecidableEq, Repr

namespace EventLog

/-- `simpy.Event(env)`. -/
def newEvent (env : EventLog) : Nat × EventLog :=
  (env.created, { env with created := env.created + 1 })

/-- `event.succeed()`. -/
def succeed (env : EventLog) (e : Nat) : Except TrackerFault EventLog :=
  if e ∈ env.succeeded then .error (.alreadyTriggered e)
  else .ok { env with succeeded := env.succeeded ++ [e] }

/-- `for e in events: e.succeed()`. -/
def succeedAll (env : EventLog) : List Nat → Except TrackerFault EventLog
  | [] => .ok env
  | e :: es => (env.succeed e).bind fun env => succeedAll env es

theorem succeed_ok {env : EventLog} {e : Nat} (h : e ∉ env.succeeded) :
    env.succeed e = .ok { env with succeeded := env.succeeded ++ [e] } := by
  simp [succeed, h]

theorem succeedAll_ok {env : EventLog} {es : List Nat} (h : (env.succeeded ++ es).Nodup) :
    env.succeedAll es = .ok { env with succeeded := env.succeeded ++ es } := by
  induction es generalizing env with
  | nil => simp [succeedAll]
  | cons e es ih =>
    have he : e ∉ env.succeeded := fun h' => (List.nodup_append.mp h).2.2 h' (List.mem_cons_self _ _)
    simp only [succeedAll, succeed_ok he, Except.bind]
    rw [ih (by simpa using h)]
    simp

end EventLog

/-- `EpochTracker`: the sequencer, the environment's events, and the two dictionaries. -/
structure EpochTracker where
  tsObject : GlobalSequencer
  env : EventLog
  epochToReaderMap : OrderedDict (List Nat)
  waitingWriterEvents : OrderedDict (List Nat)

namespace EpochTracker

/-- `EpochTracker(gs, env)`, before the tracker has created an event. -/
def new (gs : GlobalSequencer) : EpochTracker := ⟨gs, ⟨0, []⟩, .empty, .empty⟩

/-- `get_cur_epoch()`. -/
def getCurEpoch (t : EpochTracker) : Nat := t.tsObject.getTs

/-- `register_reader(reader_id)`: the current epoch, and the tracker with the reader on its
list. -/
def registerReader (t : EpochTracker) (readerId : Nat) : Nat × EpochTracker :=
  let curEpoch := t.tsObject.getTs
  match t.epochToReaderMap.get? curEpoch with
  | some readers =>
    (curEpoch, { t with epochToReaderMap := t.epochToReaderMap.set curEpoch (readers ++ [readerId]) })
  | none => (curEpoch, { t with epochToReaderMap := t.epochToReaderMap.set curEpoch [readerId] })

/-- `unregister_reader(epoch_number, reader_id)`. `reader_list.remove` drops the first
occurrence of the id. -/
def unregisterReader (t : EpochTracker) (epochNumber readerId : Nat) :
    Except TrackerFault EpochTracker :=
  match t.epochToReaderMap.get? epochNumber with
  | none => .error (.epochNotTracked readerId epochNumber)
  | some readerList =>
    if readerId ∉ readerList then .error (.readerNotOnList readerId readerList)
    else
      let readerList := readerList.erase readerId
      let t := { t with epochToReaderMap := t.epochToReaderMap.set epochNumber readerList }
      if readerList.length = 0 then
        let t := { t with epochToReaderMap := t.epochToReaderMap.erase epochNumber }
        match t.waitingWriterEvents.get? epochNumber with
        | some events => (t.env.succeedAll events).map fun env =>
            { t with env := env, waitingWriterEvents := t.waitingWriterEvents.erase epochNumber }
        | none => .ok t
      else .ok t

/-- `writer_synchronize_epoch(epoch_number)`: a new event, succeeded at once when no reader
is registered for the epoch, and otherwise waiting on it. -/
def writerSynchronizeEpoch (t : EpochTracker) (epochNumber : Nat) :
    Except TrackerFault (Nat × EpochTracker) :=
  let (qpEndingEvent, env) := t.env.newEvent
  let t := { t with env := env }
  match t.epochToReaderMap.get? epochNumber with
  | some _ =>
    match t.waitingWriterEvents.get? epochNumber with
    | some events => .ok (qpEndingEvent, { t with
        waitingWriterEvents := t.waitingWriterEvents.set epochNumber (events ++ [qpEndingEvent]) })
    | none => .ok (qpEndingEvent, { t with
        waitingWriterEvents := t.waitingWriterEvents.set epochNumber [qpEndingEvent] })
  | none => (t.env.succeed qpEndingEvent).map fun env => (qpEndingEvent, { t with env := env })

/-- `num_readers_registered(epoch_number)`. -/
def numReadersRegistered (t : EpochTracker) (epochNumber : Nat) : Nat :=
  match t.epochToReaderMap.get? epochNumber with
  | some readers => readers.length
  | none => 0

/-- The readers registered for `e`, `[]` for an epoch not tracked. -/
def readersOf (t : EpochTracker) (e : Nat) : List Nat := (t.epochToReaderMap.get? e).getD []

/-- The events of the writers waiting on `e`. -/
def waitingOn (t : EpochTracker) (e : Nat) : List Nat := (t.waitingWriterEvents.get? e).getD []

/-- The events of all waiting writers. -/
def waiting (t : EpochTracker) : List Nat := t.waitingWriterEvents.entries.flatMap Prod.snd

theorem numReadersRegistered_eq (t : EpochTracker) (e : Nat) :
    t.numReadersRegistered e = (t.readersOf e).length := by
  unfold numReadersRegistered readersOf; split <;> simp_all

/-! ## What each call does -/

theorem registerReader_fst (t : EpochTracker) (readerId : Nat) :
    (t.registerReader readerId).1 = t.tsObject.ts := by
  unfold registerReader; dsimp only; split <;> rfl

theorem registerReader_snd (t : EpochTracker) (readerId : Nat) :
    (t.registerReader readerId).2 = { t with
      epochToReaderMap := t.epochToReaderMap.set t.tsObject.ts
        (t.readersOf t.tsObject.ts ++ [readerId]) } := by
  unfold registerReader readersOf GlobalSequencer.getTs; dsimp only; split <;> simp_all

theorem writerSynchronizeEpoch_of_tracked {t : EpochTracker} {e : Nat}
    (h : t.epochToReaderMap.get? e ≠ none) :
    t.writerSynchronizeEpoch e = .ok (t.env.created, { t with
      env := ⟨t.env.created + 1, t.env.succeeded⟩
      waitingWriterEvents := t.waitingWriterEvents.set e (t.waitingOn e ++ [t.env.created]) }) := by
  obtain ⟨readers, hr⟩ := Option.ne_none_iff_exists'.mp h
  unfold writerSynchronizeEpoch waitingOn
  simp only [EventLog.newEvent, hr]
  split <;> simp_all

theorem writerSynchronizeEpoch_of_untracked {t : EpochTracker} {e : Nat}
    (h : t.epochToReaderMap.get? e = none) (hc : t.env.created ∉ t.env.succeeded) :
    t.writerSynchronizeEpoch e = .ok (t.env.created, { t with
      env := ⟨t.env.created + 1, t.env.succeeded ++ [t.env.created]⟩ }) := by
  simp [writerSynchronizeEpoch, EventLog.newEvent, h, EventLog.succeed, hc, Except.map]

theorem unregisterReader_of_others {t : EpochTracker} {e readerId : Nat} {readers : List Nat}
    (h : t.epochToReaderMap.get? e = some readers) (hm : readerId ∈ readers)
    (hl : readers.erase readerId ≠ []) :
    t.unregisterReader e readerId =
      .ok { t with epochToReaderMap := t.epochToReaderMap.set e (readers.erase readerId) } := by
  have hl' : ¬(readers.erase readerId).length = 0 := by simpa using hl
  unfold unregisterReader
  simp only [h]
  rw [if_neg (not_not.mpr hm), if_neg hl']

theorem unregisterReader_of_last {t : EpochTracker} {e readerId : Nat} {readers : List Nat}
    (h : t.epochToReaderMap.get? e = some readers) (hm : readerId ∈ readers)
    (hl : readers.erase readerId = []) (hnd : (t.env.succeeded ++ t.waitingOn e).Nodup) :
    ∃ t', t.unregisterReader e readerId = .ok t' ∧ t'.tsObject = t.tsObject ∧
      t'.env = ⟨t.env.created, t.env.succeeded ++ t.waitingOn e⟩ ∧
      (∀ e', t'.epochToReaderMap.get? e' = if e' = e then none else t.epochToReaderMap.get? e') ∧
      (∀ e', t'.waitingWriterEvents.get? e' = if e' = e then none else t.waitingWriterEvents.get? e') ∧
      t'.waiting = (t.waitingWriterEvents.entries.filter fun x => x.1 != e).flatMap Prod.snd := by
  have hmap : ∀ e', ((t.epochToReaderMap.set e []).erase e).get? e' =
      if e' = e then none else t.epochToReaderMap.get? e' := fun e' => by
    rw [OrderedDict.get?_erase, OrderedDict.get?_set]; split <;> rfl
  cases hw : t.waitingWriterEvents.get? e with
  | some events =>
    rw [waitingOn, hw, Option.getD_some] at hnd
    refine ⟨{ t with
      epochToReaderMap := (t.epochToReaderMap.set e []).erase e
      env := ⟨t.env.created, t.env.succeeded ++ events⟩
      waitingWriterEvents := t.waitingWriterEvents.erase e }, ?_, rfl, by simp [waitingOn, hw],
      hmap, fun e' => OrderedDict.get?_erase _ _ _, by rw [waiting, OrderedDict.erase_entries]⟩
    simp [unregisterReader, h, hm, hl, hw, EventLog.succeedAll_ok hnd, Except.map]
  | none =>
    refine ⟨{ t with epochToReaderMap := (t.epochToReaderMap.set e []).erase e }, ?_, rfl,
      by simp [waitingOn, hw], hmap, fun e' => ?_,
      by rw [OrderedDict.filter_ne_of_get?_eq_none hw]; rfl⟩
    · simp [unregisterReader, h, hm, hl, hw]
    · by_cases he : e' = e
      · simp [he, hw]
      · simp [he]

theorem readersOf_set (t : EpochTracker) (e e' : Nat) (readers : List Nat) :
    ({ t with epochToReaderMap := t.epochToReaderMap.set e readers } : EpochTracker).readersOf e' =
      if e' = e then readers else t.readersOf e' := by
  simp only [readersOf, OrderedDict.get?_set]; split <;> rfl

theorem waitingOn_set (t : EpochTracker) (e e' : Nat) (events : List Nat) :
    ({ t with waitingWriterEvents := t.waitingWriterEvents.set e events } : EpochTracker).waitingOn e' =
      if e' = e then events else t.waitingOn e' := by
  simp only [waitingOn, OrderedDict.get?_set]; split <;> rfl

/-- The events waiting on `e`, and those waiting on the other epochs. -/
theorem waitingOn_append_perm (t : EpochTracker) (e : Nat) :
    (t.waitingOn e ++ (t.waitingWriterEvents.entries.filter fun x => x.1 != e).flatMap Prod.snd).Perm
      t.waiting := by
  cases hw : t.waitingWriterEvents.get? e with
  | some events => simpa [waitingOn, hw] using (OrderedDict.flatMap_perm_of_get? hw).symm
  | none =>
    simp only [waitingOn, hw, Option.getD_none, List.nil_append, waiting,
      OrderedDict.filter_ne_of_get?_eq_none hw]
    rfl

/-- With no writer waiting on `e`, unregistering from `e` changes only the reader lists. -/
theorem unregisterReader_of_no_waiting {t t' : EpochTracker} {e r : Nat}
    (hw : t.waitingWriterEvents.get? e = none) (h : t.unregisterReader e r = .ok t') :
    t'.tsObject = t.tsObject ∧ t'.env = t.env ∧ t'.waitingWriterEvents = t.waitingWriterEvents := by
  unfold unregisterReader at h
  split at h
  · cases h
  · split at h
    · cases h
    · dsimp only at h
      split at h <;> simp only [hw, Except.ok.injEq] at h <;> (subst h; exact ⟨rfl, rfl, rfl⟩)

/-- Setting the events of `e` replaces them among all the waiting events. -/
theorem waiting_set_perm (t : EpochTracker) (e : Nat) (events : List Nat) :
    ({ t with waitingWriterEvents := t.waitingWriterEvents.set e events } : EpochTracker).waiting.Perm
      (events ++ (t.waitingWriterEvents.entries.filter fun x => x.1 != e).flatMap Prod.snd) := by
  have := OrderedDict.flatMap_perm_of_get? (d := t.waitingWriterEvents.set e events)
    (by rw [OrderedDict.get?_set, if_pos rfl])
  rwa [OrderedDict.filter_set] at this

end EpochTracker

/-! ## The tracker and its callers -/

/-- The calls of the readers and writers. -/
inductive TrackerCall where
  | registerReader (readerId : Nat)
  | unregisterReader (epochNumber readerId : Nat)
  | writerSynchronizeEpoch (epochNumber : Nat)
  | incrementTs (amount : Nat)
deriving DecidableEq, Repr

/-- The tracker, with the registrations its callers hold and have not unregistered (epoch and
reader id). -/
structure TrackerWorld where
  tracker : EpochTracker
  outstanding : List (Nat × Nat)

namespace TrackerWorld

/-- `EpochTracker(gs, env)` with no registration. -/
def init (gs : GlobalSequencer) : TrackerWorld := ⟨EpochTracker.new gs, []⟩

/-- One call. A reader keeps the epoch `register_reader` returns, and hands it back to
`unregister_reader`. -/
def apply (w : TrackerWorld) : TrackerCall → Except TrackerFault TrackerWorld
  | .registerReader readerId =>
    .ok ⟨(w.tracker.registerReader readerId).2,
      w.outstanding ++ [((w.tracker.registerReader readerId).1, readerId)]⟩
  | .unregisterReader e readerId =>
    (w.tracker.unregisterReader e readerId).map fun t => ⟨t, w.outstanding.erase (e, readerId)⟩
  | .writerSynchronizeEpoch e => (w.tracker.writerSynchronizeEpoch e).map fun r => ⟨r.2, w.outstanding⟩
  | .incrementTs amount =>
    .ok ⟨{ w.tracker with tsObject := w.tracker.tsObject.incrementTs amount }, w.outstanding⟩

/-- The callers' side: `unregister_reader` names a registration still outstanding. -/
def Allowed (w : TrackerWorld) : TrackerCall → Prop
  | .unregisterReader e readerId => (e, readerId) ∈ w.outstanding
  | _ => True

/-- The runs of the tracker with callers that keep their side. -/
inductive Reachable (gs : GlobalSequencer) : TrackerWorld → Prop
  | init : Reachable gs (init gs)
  | step {w w' : TrackerWorld} {c : TrackerCall} :
    Reachable gs w → w.Allowed c → w.apply c = .ok w' → Reachable gs w'

/-- The events a call succeeds, as the tracker's docstrings describe them: a writer's event
at once when no reader is registered for its epoch, and the events waiting on an epoch at the
`unregister_reader` that removes its last reader. -/
def wakes (w : TrackerWorld) : TrackerCall → List Nat
  | .writerSynchronizeEpoch e =>
    if w.tracker.numReadersRegistered e = 0 then [w.tracker.env.created] else []
  | .unregisterReader e _ =>
    if w.tracker.numReadersRegistered e = 1 then w.tracker.waitingOn e else []
  | _ => []

/-- The events waiting on each epoch after a call, as the docstrings describe them: a writer's
event waits on its epoch while readers are registered there, until the last of them leaves. -/
def parked (w : TrackerWorld) : TrackerCall → Nat → List Nat
  | .writerSynchronizeEpoch e, e' =>
    if e' = e ∧ w.tracker.numReadersRegistered e ≠ 0 then w.tracker.waitingOn e' ++ [w.tracker.env.created]
    else w.tracker.waitingOn e'
  | .unregisterReader e _, e' =>
    if e' = e ∧ w.tracker.numReadersRegistered e = 1 then [] else w.tracker.waitingOn e'
  | _, e' => w.tracker.waitingOn e'

/-- The invariant of the tracker's runs. -/
structure Inv (w : TrackerWorld) : Prop where
  nonempty : ∀ e readers, w.tracker.epochToReaderMap.get? e = some readers → readers ≠ []
  readers : ∀ e r, (w.tracker.readersOf e).count r = w.outstanding.count (e, r)
  tracked : ∀ e, w.tracker.waitingWriterEvents.get? e ≠ none → w.tracker.epochToReaderMap.get? e ≠ none
  events : (w.tracker.env.succeeded ++ w.tracker.waiting).Perm (List.range w.tracker.env.created)

theorem inv_init (gs : GlobalSequencer) : Inv (init gs) :=
  ⟨fun _ _ h => (by cases h), fun _ _ => rfl, fun _ h => absurd rfl h, .nil⟩

variable {w : TrackerWorld}

theorem Inv.nodup (hi : Inv w) : (w.tracker.env.succeeded ++ w.tracker.waiting).Nodup :=
  hi.events.nodup_iff.mpr (List.nodup_range _)

/-- A registration the callers hold is on its epoch's list. -/
theorem Inv.mem_of_allowed (hi : Inv w) {e r : Nat} (h : (e, r) ∈ w.outstanding) :
    ∃ readers, w.tracker.epochToReaderMap.get? e = some readers ∧ r ∈ readers := by
  have : 0 < (w.tracker.readersOf e).count r := by rw [hi.readers]; exact List.count_pos_iff.mpr h
  unfold EpochTracker.readersOf at this
  cases hg : w.tracker.epochToReaderMap.get? e with
  | none => simp [hg] at this
  | some readers => exact ⟨readers, rfl, List.count_pos_iff.mp (by simpa [hg] using this)⟩

theorem Inv.lt_created (hi : Inv w) {ev : Nat} (h : ev ∈ w.tracker.env.succeeded) :
    ev < w.tracker.env.created :=
  List.mem_range.mp (hi.events.subset (List.mem_append_left _ h))

/-! ## One call -/

theorem Inv.registerReader (hi : Inv w) (r : Nat) :
    Inv ⟨(w.tracker.registerReader r).2, w.outstanding ++ [((w.tracker.registerReader r).1, r)]⟩ := by
  rw [EpochTracker.registerReader_fst, EpochTracker.registerReader_snd]
  refine ⟨fun e l h => ?_, fun e r' => ?_, fun e h => ?_, hi.events⟩
  · rw [OrderedDict.get?_set] at h
    split at h
    · cases h; simp
    · exact hi.nonempty e l h
  · rw [EpochTracker.readersOf_set, List.count_append, List.count_singleton]
    split
    · subst e; rw [List.count_append, hi.readers, List.count_singleton]; simp
    · rw [hi.readers]; simp [Ne.symm ‹_›]
  · rw [OrderedDict.get?_set]
    split
    · exact Option.some_ne_none _
    · exact hi.tracked e h

theorem Inv.incrementTs (hi : Inv w) (amount : Nat) :
    Inv ⟨{ w.tracker with tsObject := w.tracker.tsObject.incrementTs amount }, w.outstanding⟩ :=
  ⟨hi.nonempty, hi.readers, hi.tracked, hi.events⟩

theorem Inv.writerSynchronizeEpoch_of_tracked (hi : Inv w) {e : Nat}
    (h : w.tracker.epochToReaderMap.get? e ≠ none) :
    Inv ⟨{ w.tracker with
      env := ⟨w.tracker.env.created + 1, w.tracker.env.succeeded⟩
      waitingWriterEvents := w.tracker.waitingWriterEvents.set e
        (w.tracker.waitingOn e ++ [w.tracker.env.created]) }, w.outstanding⟩ := by
  refine ⟨hi.nonempty, hi.readers, fun e' h' => ?_, ?_⟩
  · rw [OrderedDict.get?_set] at h'
    split at h'
    · subst e'; exact h
    · exact hi.tracked e' h'
  · rw [List.range_succ]
    -- the new event joins the events waiting on `e`
    exact ((w.tracker.waiting_set_perm e _).append_left _).trans
      ((List.perm_iff_count.mpr fun x => by simp only [List.count_append]; omega).trans
        ((((w.tracker.waitingOn_append_perm e).append_left _).append_right _).trans
          (hi.events.append_right _)))

theorem Inv.writerSynchronizeEpoch_of_untracked (hi : Inv w) :
    Inv ⟨{ w.tracker with
      env := ⟨w.tracker.env.created + 1, w.tracker.env.succeeded ++ [w.tracker.env.created]⟩ },
      w.outstanding⟩ := by
  refine ⟨hi.nonempty, hi.readers, hi.tracked, ?_⟩
  show List.Perm (w.tracker.env.succeeded ++ [w.tracker.env.created] ++ w.tracker.waiting) _
  rw [List.range_succ]
  exact (List.perm_iff_count.mpr fun x => by simp only [List.count_append]; omega).trans
    (hi.events.append_right _)

theorem Inv.unregisterReader_of_others (hi : Inv w) {e r : Nat} {readers : List Nat}
    (h : w.tracker.epochToReaderMap.get? e = some readers) (hl : readers.erase r ≠ []) :
    Inv ⟨{ w.tracker with epochToReaderMap := w.tracker.epochToReaderMap.set e (readers.erase r) },
      w.outstanding.erase (e, r)⟩ := by
  refine ⟨fun e' l h' => ?_, fun e' r' => ?_, fun e' h' => ?_, hi.events⟩
  · rw [OrderedDict.get?_set] at h'
    split at h'
    · cases h'; exact hl
    · exact hi.nonempty e' l h'
  · rw [EpochTracker.readersOf_set, List.count_erase]
    split
    · subst e'; rw [List.count_erase, ← hi.readers]; simp [EpochTracker.readersOf, h]
    · rw [← hi.readers]; simp [Ne.symm ‹_›]
  · rw [OrderedDict.get?_set]
    split
    · exact Option.some_ne_none _
    · exact hi.tracked e' h'

theorem Inv.unregisterReader_of_last (hi : Inv w) {e r : Nat} {readers : List Nat}
    (h : w.tracker.epochToReaderMap.get? e = some readers) (hl : readers.erase r = [])
    {t' : EpochTracker} (henv : t'.env = ⟨w.tracker.env.created, w.tracker.env.succeeded ++ w.tracker.waitingOn e⟩)
    (hmap : ∀ e', t'.epochToReaderMap.get? e' = if e' = e then none else w.tracker.epochToReaderMap.get? e')
    (hwait : ∀ e', t'.waitingWriterEvents.get? e' = if e' = e then none else w.tracker.waitingWriterEvents.get? e')
    (hw : t'.waiting = (w.tracker.waitingWriterEvents.entries.filter fun x => x.1 != e).flatMap Prod.snd) :
    Inv ⟨t', w.outstanding.erase (e, r)⟩ := by
  refine ⟨fun e' l h' => ?_, fun e' r' => ?_, fun e' h' => ?_, ?_⟩
  · rw [hmap] at h'
    split at h'
    · cases h'
    · exact hi.nonempty e' l h'
  · have hr := hi.readers e' r'
    simp only [EpochTracker.readersOf, hmap] at hr ⊢
    rw [List.count_erase, ← hr]
    split
    · subst e'
      have : ((e, r) == (e, r')) = (r == r') := by simp
      rw [this, ← List.count_erase, h, Option.getD_some, hl]
      rfl
    · simp [Ne.symm ‹_›]
  · rw [hwait] at h'
    rw [hmap]
    split
    · exact absurd (if_pos ‹_›) h'
    · rw [if_neg ‹_›] at h'; exact hi.tracked e' h'
  · rw [henv, hw, List.append_assoc]
    exact ((w.tracker.waitingOn_append_perm e).append_left _).trans hi.events

/-- **One call keeps the invariant**, raises nothing, succeeds exactly the events `wakes`
names and leaves waiting on each epoch the events `parked` names. -/
theorem Inv.apply (hi : Inv w) {c : TrackerCall} (ha : w.Allowed c) :
    ∃ w', w.apply c = .ok w' ∧ Inv w' ∧
      w'.tracker.env.succeeded = w.tracker.env.succeeded ++ w.wakes c ∧
      ∀ e, w'.tracker.waitingOn e = w.parked c e := by
  cases c with
  | registerReader r =>
    refine ⟨_, rfl, hi.registerReader r, ?_, fun e => ?_⟩ <;>
      simp [EpochTracker.registerReader_snd, wakes, parked, EpochTracker.waitingOn]
  | incrementTs amount => exact ⟨_, rfl, hi.incrementTs amount, by simp [wakes], fun _ => rfl⟩
  | writerSynchronizeEpoch e =>
    by_cases hm : w.tracker.epochToReaderMap.get? e = none
    · have hc : w.tracker.env.created ∉ w.tracker.env.succeeded :=
        fun h => lt_irrefl _ (hi.lt_created h)
      have hn : w.tracker.numReadersRegistered e = 0 := by simp [EpochTracker.numReadersRegistered, hm]
      refine ⟨_, ?_, hi.writerSynchronizeEpoch_of_untracked, by simp [wakes, hn],
        fun e' => by simp [parked, hn]; rfl⟩
      simp [TrackerWorld.apply, EpochTracker.writerSynchronizeEpoch_of_untracked hm hc, Except.map]
    · obtain ⟨readers, hr⟩ := Option.ne_none_iff_exists'.mp hm
      have hn : w.tracker.numReadersRegistered e ≠ 0 := by
        simpa [EpochTracker.numReadersRegistered, hr, List.length_eq_zero] using hi.nonempty e _ hr
      refine ⟨_, ?_, hi.writerSynchronizeEpoch_of_tracked hm, by simp [wakes, hn],
        fun e' => ?_⟩
      · simp [TrackerWorld.apply, EpochTracker.writerSynchronizeEpoch_of_tracked hm, Except.map]
      · simp only [EpochTracker.waitingOn, OrderedDict.get?_set]
        by_cases he : e' = e <;> simp [parked, he, hn, EpochTracker.waitingOn]
  | unregisterReader e r =>
    obtain ⟨readers, h, hm⟩ := hi.mem_of_allowed ha
    have hlen := List.length_erase_of_mem hm
    have hpos := List.length_pos_of_mem hm
    by_cases hl : readers.erase r = []
    · have hn : w.tracker.numReadersRegistered e = 1 := by
        rw [hl, List.length_nil] at hlen
        simp [EpochTracker.numReadersRegistered, h]; omega
      have hnd : (w.tracker.env.succeeded ++ w.tracker.waitingOn e).Nodup := by
        have := ((w.tracker.waitingOn_append_perm e).append_left _).nodup_iff.mpr hi.nodup
        exact this.sublist (by rw [← List.append_assoc]; exact List.sublist_append_left _ _)
      obtain ⟨t', ht, -, henv, hmap, hwait, hw⟩ :=
        EpochTracker.unregisterReader_of_last h hm hl hnd
      refine ⟨⟨t', _⟩, by simp [TrackerWorld.apply, ht, Except.map],
        hi.unregisterReader_of_last h hl henv hmap hwait hw, by simp [henv, wakes, hn],
        fun e' => ?_⟩
      simp only [EpochTracker.waitingOn, hwait, parked, hn, and_true]
      split <;> rfl
    · have hn : w.tracker.numReadersRegistered e ≠ 1 := by
        have : readers.length - 1 ≠ 0 := by rw [← hlen]; simpa using hl
        simp [EpochTracker.numReadersRegistered, h]; omega
      refine ⟨_, by simp [TrackerWorld.apply, EpochTracker.unregisterReader_of_others h hm hl,
        Except.map], hi.unregisterReader_of_others h hl, by simp [wakes, hn],
        fun e' => by simp [parked, hn]; rfl⟩

theorem inv_reachable {gs : GlobalSequencer} (hw : w.Reachable gs) : Inv w := by
  induction hw with
  | init => exact inv_init gs
  | step _ ha h hi =>
    obtain ⟨w', h', hi', -⟩ := hi.apply ha
    rw [h] at h'
    cases h'
    exact hi'

/-- With no registration outstanding, no epoch is tracked and no writer waits. -/
theorem Inv.waiting_eq_nil (hi : Inv w) (h : w.outstanding = []) : w.tracker.waiting = [] := by
  have huntracked : ∀ e, w.tracker.epochToReaderMap.get? e = none := fun e => by
    cases hg : w.tracker.epochToReaderMap.get? e with
    | none => rfl
    | some readers =>
      refine absurd (List.eq_nil_iff_forall_not_mem.mpr fun r hr => ?_) (hi.nonempty e _ hg)
      have := hi.readers e r
      rw [h, EpochTracker.readersOf, hg, Option.getD_some] at this
      exact absurd this (List.count_pos_iff.mpr hr).ne'
  have : w.tracker.waitingWriterEvents.entries = [] := List.eq_nil_iff_forall_not_mem.mpr
    fun x hx => hi.tracked x.1 (by rw [OrderedDict.get?_eq_some_of_mem hx]; exact Option.some_ne_none _)
      (huntracked x.1)
  simp [EpochTracker.waiting, this]

/-- **The epoch tracker wakes each writer once.** Over every run of callers that unregister
only what they registered: every reader list is non-empty, every epoch a writer waits on has
readers, no assertion of `unregister_reader` fails, each event is succeeded at most once, each
call succeeds exactly the events `wakes` names (a writer's own event when its epoch has no
reader, the epoch's waiting events when its last reader leaves) and leaves waiting the events
`parked` names, and once every registration is unregistered every event has been succeeded. -/
theorem epoch_tracker_wakes_each_writer_once {gs : GlobalSequencer} (hw : w.Reachable gs) :
    (∀ e readers, w.tracker.epochToReaderMap.get? e = some readers → readers ≠ []) ∧
    (∀ e ∈ w.tracker.waitingWriterEvents.keys, e ∈ w.tracker.epochToReaderMap.keys) ∧
    w.tracker.env.succeeded.Nodup ∧
    (∀ e, (w.tracker.writerSynchronizeEpoch e).map Prod.fst = .ok w.tracker.env.created) ∧
    (∀ c, w.Allowed c → ∃ w', w.apply c = .ok w' ∧
      w'.tracker.env.succeeded = w.tracker.env.succeeded ++ w.wakes c ∧
      ∀ e, w'.tracker.waitingOn e = w.parked c e) ∧
    (w.outstanding = [] → ∀ ev < w.tracker.env.created, ev ∈ w.tracker.env.succeeded) := by
  have hi := inv_reachable hw
  refine ⟨hi.nonempty, fun e he => ?_, hi.nodup.sublist (List.sublist_append_left _ _),
    fun e => ?_, fun c ha => ?_, fun h ev hev => ?_⟩
  · have := hi.tracked e (mt OrderedDict.get?_eq_none_iff.mp (not_not.mpr he))
    by_contra hn
    exact this (OrderedDict.get?_eq_none_iff.mpr hn)
  · by_cases hm : w.tracker.epochToReaderMap.get? e = none
    · rw [EpochTracker.writerSynchronizeEpoch_of_untracked hm
        fun h => lt_irrefl _ (hi.lt_created h)]; rfl
    · rw [EpochTracker.writerSynchronizeEpoch_of_tracked hm]; rfl
  · obtain ⟨w', h, -, hs, hp⟩ := hi.apply ha
    exact ⟨w', h, hs, hp⟩
  · have := hi.events
    rw [hi.waiting_eq_nil h, List.append_nil] at this
    exact this.mem_iff.mpr (List.mem_range.mpr hev)

/-- The driver's tracker, over `GlobalSequencer(initial_value=1)`, after reader 7 registers
in epoch 1 and a writer synchronizes on epoch 1: the writer's event 0 waits on the epoch, and
the reader's `unregister_reader` wakes it. -/
theorem rlu_tracker_reader_wakes_parked_writer :
    ∃ w, Reachable ⟨1⟩ w ∧ w.outstanding = [(1, 7)] ∧ w.tracker.waitingOn 1 = [0] ∧
      w.wakes (.unregisterReader 1 7) = [0] ∧
      ((∀ e readers, w.tracker.epochToReaderMap.get? e = some readers → readers ≠ []) ∧
      (∀ e ∈ w.tracker.waitingWriterEvents.keys, e ∈ w.tracker.epochToReaderMap.keys) ∧
      w.tracker.env.succeeded.Nodup ∧
      (∀ e, (w.tracker.writerSynchronizeEpoch e).map Prod.fst = .ok w.tracker.env.created) ∧
      (∀ c, w.Allowed c → ∃ w', w.apply c = .ok w' ∧
        w'.tracker.env.succeeded = w.tracker.env.succeeded ++ w.wakes c ∧
        ∀ e, w'.tracker.waitingOn e = w.parked c e) ∧
      (w.outstanding = [] → ∀ ev < w.tracker.env.created, ev ∈ w.tracker.env.succeeded)) := by
  have hw : Reachable ⟨1⟩ _ := .step (.step .init (c := .registerReader 7) trivial rfl)
    (c := .writerSynchronizeEpoch 1) trivial rfl
  exact ⟨_, hw, by decide, by decide, by decide, epoch_tracker_wakes_each_writer_once hw⟩

end TrackerWorld

end QueueFlex
