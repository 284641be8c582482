/-
  The events the strategies schedule, and the strategy objects their callbacks refer to.

  Most handles are kept in StrategyInfo, which cancels them when it is destroyed.  But
  `changeStrategy` leaves StrategyInfo alone if the new strategy is of the same type, it clears
  only the part of the name tree that the changed entry decides, and the probing module of ASF
  keeps no handle at all.
-/

import NdnMulticast.Lib.Scheduler
import NdnMulticast.Nfd.Daemon
import NdnMulticast.Nfd.Measurements
import NdnMulticast.Nfd.NameTree

namespace NdnMulticast.Nfd

open Lib Ndn State List Option Bool StrategyChoice Router
open Strategy (Action actAll)

/-! ## Events and handles -/

/-- Where StrategyInfo keeps the handle of an event. -/
inductive TimerSlot where
  /-- `PitInfo` of the access strategy. -/
  | rtoTimer (id : EntryId)
  /-- `PitEntryInfo` of NCC. -/
  | bestFaceTimeout (id : EntryId)
  | propagateTimer (id : EntryId)
  /-- `FaceInfo` of ASF, in the `NamespaceInfo` of a measurements entry. -/
  | timeoutEvent (entry : NameKey) (faceId : FaceId)
deriving DecidableEq, Repr

/-- What an event does. -/
inductive TimerTask where
  | afterRtoTimeout (id : EntryId) (inFaceId firstOutFaceId : FaceId)
  | timeoutOnBestFace (id : EntryId)
  | doPropagate (inFaceId : FaceId) (id : EntryId)
  | onTimeoutOrNack (interestName : Name) (faceId : FaceId)
  /-- The callback of `ProbingModule::scheduleProbe`. -/
  | setIsProbingDue (fibPrefix : NameKey)
deriving DecidableEq, Repr

/-- A task, and the strategy object it is a task of. -/
structure TimerCallback where
  strategy : Instance
  task : TimerTask
deriving DecidableEq, Repr

abbrev Timers := Scheduler TimerSlot TimerCallback

/-- What is stored with the strategies when an event happens, besides `Knowledge`. -/
structure StoredInfo where
  measurements : Measurements
  /-- `NamespaceInfo` of ASF. -/
  isFirstProbeScheduled : Bool
  /-- The best face in the measurements of NCC is the one the Data comes from. -/
  isBestFace : EntryId → Bool

namespace TimerSlot

/-- The PIT entry whose StrategyInfo the handle is in. -/
def pitEntry : TimerSlot → Option EntryId
  | .rtoTimer id | .bestFaceTimeout id | .propagateTimer id => some id
  | .timeoutEvent _ _ => none

/-- The name tree node of the PIT or measurements entry. -/
def node (pit : Pit) : TimerSlot → Option NameKey
  | .rtoTimer id | .bestFaceTimeout id | .propagateTimer id => (pit.get id).map Entry.node
  | .timeoutEvent entry _ => some entry

/-- The PIT entry has been erased, and its StrategyInfo with it. -/
def isErased (pit : Pit) (slot : TimerSlot) : Bool :=
  slot.pitEntry.any fun id => (pit.get id).isNone

end TimerSlot

/-! ## What the strategies do about their timers -/

namespace AccessStrategy

/-- `sendToLastNexthop` schedules the RTO timeout. -/
def setTimers (strategy : Instance) (t : Trigger) (timers : Timers) : Timers :=
  match decidePerPitEntry t.entry t.state.now t.known.suppresses, lastNexthopFace t with
  | .new, some face =>
    if t.wasSent face then
      timers.assignScoped (.rtoTimer t.id)
        ⟨strategy, .afterRtoTimeout t.id (t.state.faceTable.getId t.ingress)
          (t.state.faceTable.getId face)⟩
    else timers
  | _, _ => timers

end AccessStrategy

namespace NccStrategy

/-- `NccStrategy::afterReceiveInterest`.  The handles are not scoped. -/
def setTimers (strategy : Instance) (t : Trigger) (timers : Timers) : Timers :=
  let propagate := fun timers : Timers =>
    timers.assign (.propagateTimer t.id)
      ⟨strategy, .doPropagate (t.state.faceTable.getId t.ingress) t.id⟩
  if t.nextHops = [] ∨ t.entry.hasPendingOutRecords t.state.now = true then timers
  else
    match t.known.bestFace.filter fun face => t.hasNextHop face && t.canForward face with
    | some _ =>
      propagate (timers.assign (.bestFaceTimeout t.id) ⟨strategy, .timeoutOnBestFace t.id⟩)
    | none =>
      match t.nextHops.find? fun nh => t.canForward nh.face with
      | some _ => propagate timers
      | none => timers

/-- `doPropagate` goes on if it has found a next hop. -/
def isForwarded (t : Trigger) : Bool :=
  let first := ((t.known.previousFace.filter fun face => t.hasNextHop face && t.canForward face).map
    t.send).toList
  t.nextHops.any fun nh => (t.after first).canForward nh.face

/-- The timers stay if one of the two levels of measurements is out of the strategy's namespace. -/
def cancelTimers (a : MeasurementsAccessor) (isBestFace : Bool) (id : EntryId) (e : Entry)
    (timers : Timers) : Timers :=
  let key := e.name.key.take maxDepth
  if e.hasInRecords && a.governs key && key != [] && a.governs key.dropLast then
    let timers := timers.cancel (.propagateTimer id)
    if isBestFace then timers.cancel (.bestFaceTimeout id) else timers
  else timers

end NccStrategy

/-- The name is cut to the depth of the name tree, and encoded anew by that. -/
def MeasurementsAccessor.findLongestPrefixMatch (a : MeasurementsAccessor) (m : Measurements)
    (n : Name) : Option NameKey :=
  (m.table.findLongestPrefixMatch (Name.reencoded (n.take maxDepth)).key).bind fun x => a.filter x.1

namespace AsfStrategy

variable (strategy : Instance) (t : Trigger) (entry : NameKey)

def cancelTimeout (faceId : FaceId) (name : Name) (timers : Timers) : Timers :=
  match timers.callbackOf (.timeoutEvent entry faceId) with
  | some ⟨_, .onTimeoutOrNack lastInterestName _⟩ =>
    if lastInterestName.isPrefixOf name then timers.cancel (.timeoutEvent entry faceId)
    else timers
  | _ => timers

/-- The face's timer is cancelled where `getNamespaceInfo` finds it for `lookupName`. -/
def cancelFor (a : MeasurementsAccessor) (m : Measurements) (lookupName name : Name)
    (faceId : FaceId) (timers : Timers) : Timers :=
  match a.findLongestPrefixMatch m lookupName with
  | none => timers
  | some entry => cancelTimeout entry faceId name timers

def onTimeoutOrNack (a : MeasurementsAccessor) (m : Measurements) (interestName : Name)
    (faceId : FaceId) (timers : Timers) : Timers :=
  cancelFor a m interestName interestName faceId timers

def forwardInterest (face : FacePtr) (timers : Timers) : Timers :=
  let faceId := t.state.faceTable.getId face
  if (timers.callbackOf (.timeoutEvent entry faceId)).isSome then timers
  else
    timers.assignScoped (.timeoutEvent entry faceId)
      ⟨strategy, .onTimeoutOrNack t.interest.name faceId⟩

/-- `ProbingModule::scheduleProbe`: nothing keeps the handle. -/
def scheduleProbe (timers : Timers) : Timers :=
  timers.schedule ⟨strategy, .setIsProbingDue (t.fib.lookupFib t.entry.interest).key⟩

/-- `AsfStrategy::sendProbe`. -/
def setProbeTimers (isFirstProbeScheduled : Bool) (entry : NameKey) (faceUsed : FacePtr)
    (timers : Timers) : Timers :=
  let timers := if isFirstProbeScheduled then timers else scheduleProbe strategy t timers
  match getFaceToProbe t faceUsed with
  | some nh =>
    if t.known.isProbingDue then
      scheduleProbe strategy t (forwardInterest strategy t entry nh.face timers)
    else timers
  | none => timers

/-- `AsfStrategy::afterReceiveInterest`; `none` without a measurements entry for the timers. -/
def setTimers (choice : StrategyChoice) (info : StoredInfo) (t : Trigger) (timers : Timers) :
    Option Timers :=
  let entry := (AsfMeasurements.getOrCreateNamespaceInfo ⟨choice, strategy⟩ t.state.now
    info.measurements (t.fib.lookupFib t.entry.interest) t.interest).map Prod.fst
  match decidePerPitEntry t.entry t.state.now t.known.suppresses with
  | .suppress => some timers
  | .new =>
    match getBestFaceForForwarding t true with
    | some nh =>
      entry.map fun entry =>
        setProbeTimers strategy t info.isFirstProbeScheduled entry nh.face
          (forwardInterest strategy t entry nh.face timers)
    | none => some timers
  | .forward =>
    match getBestFaceForForwarding t false with
    | some nh => entry.map fun entry => forwardInterest strategy t entry nh.face timers
    | none => some timers

end AsfStrategy

/-- The timers after `afterReceiveInterest` of a strategy. -/
def Instance.setTimers (strategy : Instance) (choice : StrategyChoice) (info : StoredInfo)
    (t : Trigger) (timers : Timers) : Option Timers :=
  match strategy.instanceName.type with
  | .access => some (AccessStrategy.setTimers strategy t timers)
  | .ncc => some (NccStrategy.setTimers strategy t timers)
  | .asf => AsfStrategy.setTimers strategy choice info t timers
  | _ => some timers

/-- The timers after `beforeSatisfyInterest` of a strategy. -/
def Instance.cancelTimers (strategy : Instance) (choice : StrategyChoice) (info : StoredInfo)
    (inFaceId : FaceId) (d : Data) (id : EntryId) (e : Entry) (timers : Timers) : Timers :=
  match strategy.instanceName.type with
  | .access => timers.cancel (.rtoTimer id)
  | .ncc => NccStrategy.cancelTimers ⟨choice, strategy⟩ (info.isBestFace id) id e timers
  | .asf => AsfStrategy.cancelFor ⟨choice, strategy⟩ info.measurements e.name d.name inFaceId timers
  | _ => timers

/-! ## The machine -/

/-- The daemon and the scheduled events of its strategies. -/
structure TimedDaemon where
  daemon : Daemon
  timers : Timers

inductive TimedEvent where
  /-- Any event of the daemon but a timer. -/
  | daemon (ev : DaemonEvent) (info : StoredInfo)
  /-- The scheduled event at a position fires. -/
  | fire (position : Nat) (known : Knowledge) (info : StoredInfo)
  /-- A `FaceInfo` or a whole measurements entry expires. -/
  | eraseFaceInfo (entry : NameKey) (faceId : FaceId)
  | eraseMeasurements (entry : NameKey)

namespace Daemon

variable (env : Env) (D : Daemon)

/-- The strategy object that governs an entry. -/
def strategyOf (e : Entry) : Instance := D.choice.findEffectiveStrategy e.name.key

/-- What `interestActions` asks the strategy. -/
def interestTrigger (ingress : FacePtr) (i : Interest) (freshNonce : List UInt8)
    (known : Knowledge) : Option Trigger :=
  let accepted := acceptedInterest env i freshNonce
  let id := (D.state.pit.insert accepted).1
  let s := (D.state.beginEvent.onIncomingInterest env ingress i freshNonce []).state
  (s.pit.get id).map fun e => ⟨env, D.fib, known, s, id, e, ingress, accepted⟩

/-- What `onStrategyTimer` asks the strategy. -/
def timerTrigger (id : EntryId) (inFaceId : FaceId) (known : Knowledge) : Option Trigger :=
  (D.state.pit.get id).bind fun e =>
    (D.state.faceTable.get inFaceId).bind fun inFace =>
      (e.getInRecord inFace).map fun r =>
        ⟨env, D.fib, known, D.state.beginEvent, id, e, inFace, r.interest⟩

/-- The entries whose strategies learn of a Data: none if the segments cannot be prepared. -/
def satisfiedBy (ingress : FacePtr) (d : Data) (nonces : Nat → List UInt8) : List EntryId :=
  match D.dataMatches env ingress d with
  | [id] =>
    let prepared := (D.state.beginEvent.cacheData env d).prepareSegments env d nonces id
    if prepared.fault.isSome then [] else [id]
  | ids => ids

end Daemon

/-- The change of strategy an event makes. -/
def DaemonEvent.change (D : Daemon) : DaemonEvent → Option StrategyChoice.Change
  | .setStrategy pfx name => D.choice.changeOfInsert pfx name
  | .unsetStrategy pfx => D.choice.changeOfErase pfx
  | _ => none

/-- The timers of the strategies, which fire as scheduled events only. -/
def DaemonEvent.isTimer : DaemonEvent → Bool
  | .rtoTimeout _ _ _ _ | .propagate _ _ _ => true
  | _ => false

namespace TimedDaemon

/-- The daemon after start-up. -/
def init (now : Int) (garbage : Option FacePtr) (csLimit : Nat) (strategy : InstanceName) :
    TimedDaemon :=
  ⟨.init now garbage csLimit strategy, .empty⟩

variable (env : Env) (T : TimedDaemon) (known : Knowledge) (info : StoredInfo) (ingress : FacePtr)

/-- The timers after an Interest. -/
def onInterest (i : Interest) (freshNonce : List UInt8) (known : Knowledge) : Option Timers :=
  if T.daemon.state.beginEvent.reachesStrategy env ingress i freshNonce then
    match T.daemon.interestTrigger env ingress i freshNonce known with
    | some t => (T.daemon.strategyOf t.entry).setTimers T.daemon.choice info t T.timers
    | none => some T.timers
  else some T.timers

/-- What one satisfied entry does to the timers. -/
def satisfy (d : Data) (timers : Timers) (id : EntryId) : Timers :=
  match T.daemon.state.pit.get id with
  | some e =>
    (T.daemon.strategyOf e).cancelTimers T.daemon.choice info
      (T.daemon.state.faceTable.getId ingress) d id e timers
  | none => timers

/-- The timers after a Nack; only ASF does something about them. -/
def onNack (i : Interest) : Timers :=
  match (T.daemon.state.acceptedNack env ingress i).bind T.daemon.state.pit.get with
  | some e =>
    let strategy := T.daemon.strategyOf e
    if strategy.instanceName.type = .asf then
      AsfStrategy.onTimeoutOrNack ⟨T.daemon.choice, strategy⟩ info.measurements e.name
        (T.daemon.state.faceTable.getId ingress) T.timers
    else T.timers
  | none => T.timers

/-- `StrategyChoice::changeStrategy`: StrategyInfo is cleared unless the types are the same. -/
def changeStrategy (c : StrategyChoice.Change) : Timers :=
  if areSameType c.oldStrategy.instanceName c.newInstanceName then T.timers
  else
    T.timers.cancelWhere fun slot =>
      (slot.node T.daemon.state.pit).any (T.daemon.choice.isCovered c.key)

/-- The timers after an event of the daemon. -/
def timersAfter : DaemonEvent → Option Timers
  | .interest ingress frame freshNonce known =>
    match frame.decodeInterest env with
    | some i => T.onInterest env info ingress i freshNonce known
    | none => some T.timers
  | .data ingress frame nonces _ _ _ =>
    match frame.decodeData with
    | some d =>
      some ((T.daemon.satisfiedBy env ingress d nonces).foldl (T.satisfy info ingress d) T.timers)
    | none => some T.timers
  | .nack ingress frame _ =>
    match frame.decodeInterest env with
    | some i => some (T.onNack env info ingress i)
    | none => some T.timers
  | ev =>
    match ev.change T.daemon with
    | some c => some (T.changeStrategy c)
    | none => some T.timers

/-- What a fired event does to the daemon. -/
def perform : TimerTask → Option Daemon
  | .afterRtoTimeout id inFaceId firstOutFaceId =>
    T.daemon.step env (.rtoTimeout id inFaceId firstOutFaceId known)
  | .doPropagate inFaceId id => T.daemon.step env (.propagate id inFaceId known)
  | _ => some { T.daemon with state := T.daemon.state.beginEvent }

/-- What a fired event does to the others. -/
def timersAfterTask (c : TimerCallback) (timers : Timers) : Timers :=
  match c.task with
  | .doPropagate inFaceId id =>
    if (T.daemon.timerTrigger env id inFaceId known).any NccStrategy.isForwarded then
      timers.assign (.propagateTimer id) c
    else timers
  | .onTimeoutOrNack interestName faceId =>
    AsfStrategy.onTimeoutOrNack ⟨T.daemon.choice, c.strategy⟩ info.measurements interestName faceId
      timers
  | _ => timers

/-- PIT entries that are erased take their StrategyInfo along. -/
def settle (D : Daemon) (timers : Timers) : TimedDaemon :=
  ⟨D, timers.cancelWhere (·.isErased D.state.pit)⟩

/-- One event. -/
def step (T : TimedDaemon) : TimedEvent → Option TimedDaemon
  | .daemon ev info =>
    if ev.isTimer then none
    else
      (T.daemon.step env ev).bind fun D => (T.timersAfter env info ev).map fun timers =>
        settle D timers
  | .fire position known info =>
    T.timers.events[position]?.bind fun e =>
      (T.perform env known e.callback.task).map fun D =>
        settle D (T.timersAfterTask env known info e.callback (T.timers.remove position))
  | .eraseFaceInfo entry faceId =>
    some { T with timers := T.timers.cancel (.timeoutEvent entry faceId) }
  | .eraseMeasurements entry =>
    some { T with
      timers := T.timers.cancelWhere fun slot =>
        match slot with
        | .timeoutEvent entry' _ => entry' == entry
        | _ => false }

end TimedDaemon

/-! ## Whose events are scheduled -/

section

variable {P : TimerCallback → Prop} {strategy : Instance} {timers : Timers}

theorem AccessStrategy.all_setTimers (hP : ∀ task, P ⟨strategy, task⟩) (t : Trigger)
    (h : timers.All P) : (setTimers strategy t timers).All P := by
  unfold setTimers
  split
  · split
    · exact h.assignScoped (hP _)
    · exact h
  · exact h

theorem NccStrategy.all_setTimers (hP : ∀ task, P ⟨strategy, task⟩) (t : Trigger)
    (h : timers.All P) : (setTimers strategy t timers).All P := by
  unfold setTimers
  split
  · exact h
  · grind [Scheduler.All.assign]

theorem NccStrategy.all_cancelTimers (a : MeasurementsAccessor) (isBestFace : Bool) (id : EntryId)
    (e : Entry) (h : timers.All P) : (cancelTimers a isBestFace id e timers).All P := by
  unfold cancelTimers
  dsimp only
  split
  · split
    · exact (h.cancelWhere _).cancelWhere _
    · exact h.cancelWhere _
  · exact h

namespace AsfStrategy

theorem all_cancelFor (a : MeasurementsAccessor) (m : Measurements) (lookupName name : Name)
    (faceId : FaceId) (h : timers.All P) : (cancelFor a m lookupName name faceId timers).All P := by
  unfold cancelFor cancelTimeout
  split
  · exact h
  · split
    · split
      · exact h.cancelWhere _
      · exact h
    · exact h

variable (hP : ∀ task, P ⟨strategy, task⟩) (t : Trigger)
include hP

theorem all_forwardInterest (entry : NameKey) (face : FacePtr) (h : timers.All P) :
    (forwardInterest strategy t entry face timers).All P := by
  unfold forwardInterest
  dsimp only
  split
  · exact h
  · exact h.assignScoped (hP _)

theorem all_setProbeTimers (isFirstProbeScheduled : Bool) (entry : NameKey) (faceUsed : FacePtr)
    (h : timers.All P) :
    (setProbeTimers strategy t isFirstProbeScheduled entry faceUsed timers).All P := by
  have hfirst : (if isFirstProbeScheduled then timers else
      scheduleProbe strategy t timers).All P := by
    split
    · exact h
    · exact h.schedule (hP _)
  unfold setProbeTimers
  dsimp only
  split
  · split
    · exact (all_forwardInterest hP t _ _ hfirst).schedule (hP _)
    · exact hfirst
  · exact hfirst

theorem all_setTimers (choice : StrategyChoice) (info : StoredInfo) {timers' : Timers}
    (h : timers.All P) (hset : setTimers strategy choice info t timers = some timers') :
    timers'.All P := by
  simp only [setTimers] at hset
  split at hset
  · rwa [← some.inj hset]
  · split at hset
    · obtain ⟨entry, -, rfl⟩ := map_eq_some_iff.1 hset
      exact all_setProbeTimers hP t _ _ _ (all_forwardInterest hP t _ _ h)
    · rwa [← some.inj hset]
  · split at hset
    · obtain ⟨entry, -, rfl⟩ := map_eq_some_iff.1 hset
      exact all_forwardInterest hP t _ _ h
    · rwa [← some.inj hset]

end AsfStrategy

namespace Instance

theorem all_setTimers (hP : ∀ task, P ⟨strategy, task⟩) (choice : StrategyChoice)
    (info : StoredInfo) (t : Trigger) {timers' : Timers} (h : timers.All P)
    (hset : strategy.setTimers choice info t timers = some timers') : timers'.All P := by
  unfold setTimers at hset
  split at hset
  · rw [← some.inj hset]
    exact AccessStrategy.all_setTimers hP t h
  · rw [← some.inj hset]
    exact NccStrategy.all_setTimers hP t h
  · exact AsfStrategy.all_setTimers hP t choice info h hset
  · rwa [← some.inj hset]

theorem all_cancelTimers (strategy : Instance) (choice : StrategyChoice) (info : StoredInfo)
    (inFaceId : FaceId) (d : Data) (id : EntryId) (e : Entry) (h : timers.All P) :
    (strategy.cancelTimers choice info inFaceId d id e timers).All P := by
  unfold cancelTimers
  split
  · exact h.cancelWhere _
  · exact NccStrategy.all_cancelTimers _ _ id e h
  · exact AsfStrategy.all_cancelFor _ _ _ _ _ h
  · exact h

end Instance

end

namespace TimedDaemon

variable {env : Env} {T T' : TimedDaemon} {P : TimerCallback → Prop} {info : StoredInfo}
  {known : Knowledge} {timers : Timers}

theorem all_onInterest (hP : ∀ k task, P ⟨T.daemon.choice.findEffectiveStrategy k, task⟩)
    {ingress : FacePtr} {i : Interest} {freshNonce : List UInt8} (h : T.timers.All P)
    (hset : T.onInterest env info ingress i freshNonce known = some timers) : timers.All P := by
  unfold onInterest at hset
  split at hset
  · split at hset
    · exact Instance.all_setTimers (hP _) _ info _ h hset
    · rwa [← some.inj hset]
  · rwa [← some.inj hset]

theorem all_satisfy (info : StoredInfo) (ingress : FacePtr) (d : Data) (ids : List EntryId)
    (h : timers.All P) : (ids.foldl (T.satisfy info ingress d) timers).All P := by
  induction ids generalizing timers with
  | nil => exact h
  | cons id ids ih =>
    apply ih
    unfold satisfy
    split
    · exact Instance.all_cancelTimers _ _ info _ d id _ h
    · exact h

theorem all_onNack (info : StoredInfo) (ingress : FacePtr) (i : Interest) (h : T.timers.All P) :
    (T.onNack env info ingress i).All P := by
  unfold onNack
  split
  · dsimp only
    split
    · exact AsfStrategy.all_cancelFor _ _ _ _ _ h
    · exact h
  · exact h

theorem all_timersAfter {ev : DaemonEvent} (hchange : ev.change T.daemon = none)
    (hP : ∀ k task, P ⟨T.daemon.choice.findEffectiveStrategy k, task⟩) (h : T.timers.All P)
    (hafter : T.timersAfter env info ev = some timers) : timers.All P := by
  unfold timersAfter at hafter
  split at hafter
  · grind [all_onInterest]
  · grind [all_satisfy]
  · grind [all_onNack]
  · rw [hchange] at hafter
    rwa [← some.inj hafter]

theorem all_timersAfterTask {c : TimerCallback} (hc : P c) (h : timers.All P) :
    (T.timersAfterTask env known info c timers).All P := by
  unfold timersAfterTask
  split
  · split
    · exact h.assign hc
    · exact h
  · exact AsfStrategy.all_cancelFor _ _ _ _ _ h
  · exact h

/-! ## The condition -/

/-- StrategyInfo that the change destroys keeps the handle of the event. -/
def isReleased (T : TimedDaemon) (c : StrategyChoice.Change)
    (e : Scheduled TimerSlot TimerCallback) : Bool :=
  !areSameType c.oldStrategy.instanceName c.newInstanceName &&
    (e.handle.bind (TimerSlot.node T.daemon.state.pit)).any fun node =>
      (T.daemon.choice.findChoice node).1 == c.key

/-- No strategy object is destroyed while one of its events would stay scheduled. -/
def keepsTimers (T : TimedDaemon) : TimedEvent → Bool
  | .daemon ev _ =>
    (ev.change T.daemon).all fun c =>
      !c.destroysOld || T.timers.events.all fun e =>
        e.callback.strategy.ptr != c.oldStrategy.ptr || T.isReleased c e
  | _ => true

end TimedDaemon

variable {ev : DaemonEvent}

theorem DaemonEvent.mem_of_change {D : Daemon} {c : StrategyChoice.Change}
    (h : ev.change D = some c) (hdestroys : c.destroysOld = true) :
    (c.key, c.oldStrategy) ∈ D.choice.table.entries := by
  cases ev with
  | setStrategy pfx name => exact mem_of_changeOfInsert h hdestroys
  | unsetStrategy pfx => exact (of_changeOfErase h).2
  | _ => cases h

theorem DaemonEvent.isInstalled_choice {D : Daemon} {ptr : Nat}
    (h : D.choice.isInstalled ptr = true)
    (hkeeps : ∀ c, ev.change D = some c → c.destroysOld = true → c.oldStrategy.ptr ≠ ptr) :
    (ev.choice D).isInstalled ptr = true := by
  cases ev with
  | setStrategy pfx name => exact isInstalled_insert h hkeeps
  | unsetStrategy pfx =>
    exact isInstalled_erase h fun c hc =>
      hkeeps c hc (of_changeOfErase hc).1
  | _ => exact h

namespace TimedDaemon

variable {env : Env} {T T' : TimedDaemon} {ev : TimedEvent} {c : StrategyChoice.Change}
  {e : Scheduled TimerSlot TimerCallback}

theorem notMem_changeStrategy (hc : (c.key, c.oldStrategy) ∈ T.daemon.choice.table.entries)
    (hreleased : T.isReleased c e = true) : e ∉ (T.changeStrategy c).events := by
  simp only [isReleased, and_eq_true, not_eq_true', Option.any_eq_true,
    Option.bind_eq_some_iff, beq_iff_eq] at hreleased
  obtain ⟨htype, node, ⟨slot, hslot, hnode⟩, hkey⟩ := hreleased
  have hchoice : T.daemon.choice.findChoice node = (c.key, c.oldStrategy) :=
    PrefixMap.eq_of_key_eq (findChoice_mem node) hc hkey
  have hcovered := (isCovered_iff hc node).2 hchoice
  intro hmem
  rw [changeStrategy, htype] at hmem
  have hkept := (List.mem_filter.1 hmem).2
  simp [hslot, hnode, hcovered] at hkept

theorem mem_of_mem_changeStrategy (h : e ∈ (T.changeStrategy c).events) : e ∈ T.timers.events := by
  unfold changeStrategy at h
  split at h
  · exact h
  · exact (mem_filter.1 h).1

/-- The strategy object of every scheduled event is installed. -/
def Installed (T : TimedDaemon) : Prop :=
  T.timers.All fun c => T.daemon.choice.isInstalled c.strategy.ptr = true

theorem all_changeStrategy {ev : DaemonEvent} {info : StoredInfo}
    (hok : T.keepsTimers (.daemon ev info) = true) (hT : T.Installed)
    (hc : ev.change T.daemon = some c) :
    (T.changeStrategy c).All fun c => (ev.choice T.daemon).isInstalled c.strategy.ptr = true := by
  intro e he
  have hmem := mem_of_mem_changeStrategy he
  refine DaemonEvent.isInstalled_choice (hT e hmem) fun c' hc' hdestroys hptr => ?_
  obtain rfl : c = c' := mem_unique hc hc'
  simp only [keepsTimers, hc, all_some, hdestroys, Bool.not_true, Bool.false_or,
    List.all_eq_true, Bool.or_eq_true, bne_iff_ne] at hok
  rcases hok e hmem with hne | hreleased
  · exact hne hptr.symm
  · exact notMem_changeStrategy (DaemonEvent.mem_of_change hc hdestroys) hreleased he

theorem installed_settle {D : Daemon} {timers : Timers}
    (h : timers.All fun c => D.choice.isInstalled c.strategy.ptr = true) :
    (settle D timers).Installed :=
  h.cancelWhere _

theorem choice_perform {known : Knowledge} {task : TimerTask} {D : Daemon}
    (h : T.perform env known task = some D) : D.choice = T.daemon.choice := by
  unfold perform at h
  split at h
  · exact (Daemon.step_tables h).2
  · exact (Daemon.step_tables h).2
  · rw [← some.inj h]

theorem step_installed (hok : T.keepsTimers ev = true) (hT : T.Installed)
    (h : T.step env ev = some T') : T'.Installed := by
  cases ev with
  | daemon ev info =>
    obtain ⟨-, h⟩ := ite_none_left_eq_some.1 h
    obtain ⟨D, hD, htimers⟩ := bind_eq_some_iff.1 h
    obtain ⟨timers, hafter, rfl⟩ := map_eq_some_iff.1 htimers
    apply installed_settle
    rw [(Daemon.step_tables hD).2]
    cases hchange : ev.change T.daemon with
    | none =>
      -- the choices are what they were
      have hkeep : ∀ ptr, T.daemon.choice.isInstalled ptr = true →
          (ev.choice T.daemon).isInstalled ptr = true := fun ptr hptr =>
        DaemonEvent.isInstalled_choice hptr fun c hc => nomatch hchange.symm.trans hc
      refine all_timersAfter hchange (fun k task => ?_) (fun e he => hkeep _ (hT e he)) hafter
      exact hkeep _ (isInstalled_findEffectiveStrategy k)
    | some c =>
      have htimers : timers = T.changeStrategy c := by
        cases ev with
        | setStrategy | unsetStrategy =>
          simp only [timersAfter, hchange] at hafter
          exact (some.inj hafter).symm
        | _ => cases hchange
      rw [htimers]
      exact all_changeStrategy hok hT hchange
  | fire position known info =>
    obtain ⟨e, he, hfire⟩ := bind_eq_some_iff.1 h
    obtain ⟨D, hD, rfl⟩ := map_eq_some_iff.1 hfire
    apply installed_settle
    rw [choice_perform hD]
    exact all_timersAfterTask (hT e (mem_of_getElem? he)) (hT.remove position)
  | eraseFaceInfo | eraseMeasurements =>
    rw [← some.inj h]
    exact hT.cancelWhere _

end TimedDaemon

/-- **Timers.**  In every run from start-up in which no strategy object is destroyed while one of
    its events would stay scheduled, every event that may fire belongs to a strategy object that is
    installed. -/
theorem run_timers_installed {env : Env} {now : Int} {garbage : Option FacePtr} {csLimit : Nat}
    {strategy : InstanceName} {evs : List TimedEvent} {T : TimedDaemon}
    (hrun : Run (TimedDaemon.step env) (fun T ev => T.keepsTimers ev = true)
      (TimedDaemon.init now garbage csLimit strategy) evs T)
    {position : Nat} {e : Scheduled TimerSlot TimerCallback}
    (hfires : T.timers.events[position]? = some e) :
    T.daemon.choice.isInstalled e.callback.strategy.ptr = true := by
  have hT : T.Installed :=
    hrun.invariant (I := TimedDaemon.Installed)
      (fun _ _ _ hI hok hstep => TimedDaemon.step_installed hok hI hstep) Scheduler.all_empty
  exact hT e (mem_of_getElem? hfires)

namespace Router

/-- Nothing has been measured yet. -/
def noInfo : StoredInfo := ⟨.init, false, fun _ => false⟩

/-- The router with a route for all names and one strategy. -/
def timed (type : StrategyType) : TimedDaemon := ⟨daemon type, .empty⟩

def timedEvents (evs : List DaemonEvent) : List TimedEvent :=
  (addFaces [2, 5] ++ .addNextHop [] 5 10 :: evs).map fun ev => .daemon ev noInfo

/-- ASF with another probing interval. -/
def slowAsf : InstanceName := ⟨.asf, [ascii "probing-interval~5000"]⟩

/-- An Interest is forwarded by ASF, and ASF is given other parameters. -/
def replaceEvents : List TimedEvent := timedEvents [request 2 ["a"] 1, .setStrategy [] slowAsf]

def replacing : TimedDaemon :=
  (replaceEvents.foldlM (TimedDaemon.step env) (timed .asf)).get (by decide)

/-- An Interest is forwarded by ASF, and another strategy is chosen. -/
def switchEvents : List TimedEvent :=
  timedEvents [request 2 ["a"] 1, .setStrategy [] ⟨.bestRoute2, []⟩]

def switching : TimedDaemon :=
  (switchEvents.foldlM (TimedDaemon.step env) (timed .asf)).get (by decide)

/-- An Interest is forwarded by NCC as chosen for `/a`, which is erased in favour of NCC for all. -/
def unsetEvents : List TimedEvent :=
  timedEvents [.setStrategy (nameOf ["a"]) ⟨.ncc, []⟩, request 2 ["a"] 1,
    .unsetStrategy (nameOf ["a"])]

def unsetting : TimedDaemon :=
  (unsetEvents.foldlM (TimedDaemon.step env) (timed .ncc)).get (by decide)

/-- NCC is replaced by ASF while an Interest is pending, and another Interest comes. -/
def clearEvents : List TimedEvent :=
  timedEvents [request 2 ["a"] 1, .setStrategy [] ⟨.asf, []⟩, request 2 ["b"] 2]

def clearing : TimedDaemon :=
  (clearEvents.foldlM (TimedDaemon.step env) (timed .ncc)).get (by decide)

end Router

/-- Two events of ASF are scheduled, and none of NCC. -/
theorem run_timers_installed_clearing :
    Router.clearing.timers.events.map (fun e => e.callback.strategy.ptr) = [1, 1] ∧
      Router.clearing.daemon.choice.isInstalled 1 = true := by
  have hrun : Run (TimedDaemon.step env) (fun T ev => T.keepsTimers ev = true)
      (timed .ncc) clearEvents clearing := by
    refine .cons (by decide) rfl
      (.cons (by decide) rfl (.cons (by decide) rfl (.cons (by decide) rfl
      (.cons (by decide) rfl (.cons (by decide) ?_ (.nil _))))))
    exact (some_get _).symm
  have hfires : clearing.timers.events[0]? =
      some ⟨none, ⟨⟨1, ⟨.asf, []⟩⟩, .setIsProbingDue []⟩⟩ := by decide
  exact ⟨by decide, run_timers_installed hrun hfires⟩

/-- The timeout of a face fires after ASF was replaced by ASF, the probe timer also after it was
    replaced by another strategy, and the propagate timer of NCC after its choice was erased in
    favour of NCC. -/
theorem run_timers_installed_fails :
    (Run (TimedDaemon.step Router.env) (fun _ _ => True) (Router.timed .asf) Router.replaceEvents
        Router.replacing ∧
      Router.replacing.timers.events[1]? = some ⟨some (.timeoutEvent [] 257),
        ⟨⟨0, ⟨.asf, []⟩⟩, .onTimeoutOrNack (Router.nameOf ["a"]) 257⟩⟩ ∧
      (Router.replacing.step Router.env (.fire 1 Router.unlearned Router.noInfo)).isSome = true ∧
      Router.replacing.daemon.choice.isInstalled 0 = false) ∧
    (Run (TimedDaemon.step Router.env) (fun _ _ => True) (Router.timed .asf) Router.switchEvents
        Router.switching ∧
      Router.switching.timers.events[0]? = some ⟨none, ⟨⟨0, ⟨.asf, []⟩⟩, .setIsProbingDue []⟩⟩ ∧
      (Router.switching.step Router.env (.fire 0 Router.unlearned Router.noInfo)).isSome = true ∧
      Router.switching.daemon.choice.isInstalled 0 = false) ∧
    (Run (TimedDaemon.step Router.env) (fun _ _ => True) (Router.timed .ncc) Router.unsetEvents
        Router.unsetting ∧
      Router.unsetting.timers.events[0]? = some ⟨some (.propagateTimer 0),
        ⟨⟨1, ⟨.ncc, []⟩⟩, .doPropagate 256 0⟩⟩ ∧
      (Router.unsetting.step Router.env (.fire 0 Router.unlearned Router.noInfo)).isSome = true ∧
      Router.unsetting.daemon.choice.isInstalled 1 = false) :=
  ⟨⟨Run.of_foldlM (some_get _).symm, by decide, by decide, by decide⟩,
    ⟨Run.of_foldlM (some_get _).symm, by decide, by decide, by decide⟩,
    ⟨Run.of_foldlM (some_get _).symm, by decide, by decide, by decide⟩⟩

end NdnMulticast.Nfd
