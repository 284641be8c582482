/-
  The forwarder together with its FIB, its StrategyChoice table and the bundled strategies.

  The actions that the pipelines are given are computed by the strategy that governs the PIT
  entry, from the state in which the pipeline calls it, which is the one it reaches when the
  strategy does nothing.  The self-learning strategy takes Data over from the base class: Data
  that needs a prefix announcement waits until the RIB has found one (`Deferred`).
-/

import NdnMulticast.Nfd.Effects
import NdnMulticast.Nfd.Strategies

namespace NdnMulticast.Nfd

open Lib Ndn State Option
open Strategy (Action actAll sendDataToAll)

/-! ## The state at which a strategy is called -/

namespace State

variable (env : Env) (s : State)

/-- The Content Store has no Data for an Interest. -/
def missesContentStore (i : Interest) : Bool :=
  match s.cs.find env.sha256 i s.now with
  | .ok (none, _) => true
  | _ => false

/-- The strategy is asked about an Interest: it is not dropped, does not loop, the Content Store
    cannot answer it and there is no NextHopFaceId. -/
def reachesStrategy (ingress : FacePtr) (i : Interest) (freshNonce : List UInt8) : Bool :=
  let accepted := acceptedInterest env i freshNonce
  let (id, pit) := s.pit.insert accepted
  !isDropped env s ingress i freshNonce &&
    (((pit.get id).any fun e => !hasDuplicateNonceInPit env e (getNonce accepted) ingress &&
      (e.hasInRecords || s.missesContentStore env accepted)) &&
    accepted.nextHopFaceId.isNone)

/-- The entry whose out-record a Nack is about, if `Forwarder::onIncomingNack` accepts it. -/
def acceptedNack (ingress : FacePtr) (i : Interest) : Option EntryId :=
  if (env.face ingress).linkType ≠ .pointToPoint then none
  else
    (s.pit.find i).filter fun id =>
      ((s.pit.get id).bind (·.getOutRecord ingress)).any fun r => getNonce i == r.lastNonce

variable {env s} in
theorem acceptedNack_eq_some {ingress : FacePtr} {i : Interest} {id : EntryId} {e : Entry}
    (hid : s.acceptedNack env ingress i = some id) (he : s.pit.get id = some e) :
    (env.face ingress).linkType = .pointToPoint ∧ s.pit.find i = some id ∧
      ∃ r, e.getOutRecord ingress = some r ∧ getNonce i = r.lastNonce := by
  obtain ⟨hlink, hfilter⟩ := ite_none_left_eq_some.1 hid
  obtain ⟨hfind, hany⟩ := Option.filter_eq_some_iff.1 hfilter
  obtain ⟨r, hr, hnonce⟩ := (Option.any_eq_true _ _).1 hany
  rw [he, bind_some] at hr
  exact ⟨not_not.1 hlink, hfind, r, hr, beq_iff_eq.1 hnonce⟩

end State

/-! ## Self-learning and Data -/

namespace SelfLearningStrategy

/-- `defers`: the out-record was for no discovery Interest; a downstream needs an announcement. -/
def afterReceiveData (env : Env) (rate : FacePtr → Int) (s : State) (id : EntryId)
    (ingress : FacePtr) (d : Data) (defers : Bool) : Outcome :=
  match (s.pit.get id).bind (·.getOutRecord ingress) with
  | none => ⟨s, none⟩
  | some _ =>
    if defers then ⟨s.setExpiryTimer id 1000, none⟩ else sendDataToAll env rate s id ingress d

/-- The single-match branch of `Forwarder::onIncomingData` with this strategy. -/
def onSingleMatch (env : Env) (s : State) (ingress : FacePtr) (d : Data)
    (nonces : Nat → List UInt8) (rate : FacePtr → Int) (defers : Bool) (id : EntryId) : Outcome :=
  let prepared := s.prepareSegments env d nonces id
  if prepared.fault.isSome then prepared
  else
    let delivered := afterReceiveData env rate (prepared.state.setExpiryTimer id 0) id ingress d
      defers
    if delivered.fault.isSome then delivered
    else
      let s := delivered.state.satisfyEntry env id ingress d
      ⟨s.modifyEntry id (·.deleteOutRecord ingress), none⟩

end SelfLearningStrategy

/-- A Data that `asyncProcessData` has put off. -/
structure Deferred where
  id : EntryId
  inFaceId : FaceId
  data : Data

/-! ## The machine -/

structure Daemon where
  state : State
  fib : Fib
  choice : StrategyChoice
  deferred : List Deferred

inductive DaemonEvent where
  | interest (ingress : FacePtr) (frame : Frame) (freshNonce : List UInt8) (known : Knowledge)
  /-- `defers` is for self-learning; ASF extends the timers of the entries in `extended`. -/
  | data (ingress : FacePtr) (frame : Frame) (nonces : Nat → List UInt8) (rate : FacePtr → Int)
      (defers : Bool) (extended : EntryId → Bool)
  | nack (ingress : FacePtr) (frame : Frame) (reason : NackReason)
  /-- The RTO timer of the access strategy. -/
  | rtoTimeout (id : EntryId) (inFaceId firstOutFaceId : FaceId) (known : Knowledge)
  /-- The propagate timer of NCC. -/
  | propagate (id : EntryId) (inFaceId : FaceId) (known : Knowledge)
  /-- A prefix announcement for the Data put off at this position. -/
  | announced (position : Nat) (rate : FacePtr → Int)
  | face (op : FaceTable.Op)
  | addNextHop (pfx : Name) (face : FacePtr) (cost : Nat)
  | removeNextHop (pfx : Name) (face : FacePtr)
  | setStrategy (pfx : Name) (name : InstanceName)
  | unsetStrategy (pfx : Name)
  | expiry (id : EntryId)
  | markNonces
  | adjustNonces (down up : Nat)
  | tick (ns : Nat)

namespace Daemon

/-- The daemon after start-up, with a default strategy. -/
def init (now : Int) (garbage : Option FacePtr) (csLimit : Nat) (strategy : InstanceName) :
    Daemon :=
  ⟨State.init now garbage csLimit, .init, .init strategy, []⟩

variable (env : Env) (D : Daemon) (id : EntryId) (ingress : FacePtr) (i : Interest) (d : Data)

/-- The type of the strategy that governs an entry, by its Interest. -/
def typeOf : StrategyType :=
  (D.choice.findEffectiveStrategy i.name.key).instanceName.type

/-- What the strategy does about an Interest. -/
def interestActions (freshNonce : List UInt8) (known : Knowledge) : List Action :=
  let accepted := acceptedInterest env i freshNonce
  let id := (D.state.pit.insert accepted).1
  let s := (D.state.beginEvent.onIncomingInterest env ingress i freshNonce []).state
  match s.pit.get id with
  | none => []
  | some e =>
    (D.typeOf e.interest).afterReceiveInterest ⟨env, D.fib, known, s, id, e, ingress, accepted⟩

/-- What the strategy does about a Nack. -/
def nackActions (reason : NackReason) : List Action :=
  match D.state.pit.find i with
  | none => []
  | some id =>
    match (D.state.beginEvent.onIncomingNack env ingress i reason []).pit.get id with
    | none => []
    | some e => (D.typeOf e.interest).afterReceiveNack e reason

/-- A strategy's timer for an in-record; `gone` is for an entry or in-record that does not exist. -/
def onStrategyTimer (inFaceId : FaceId) (known : Knowledge) (gone : Option State)
    (actions : Trigger → List Action) : Option State :=
  match D.state.pit.get id with
  | none => gone
  | some e =>
    match D.state.faceTable.get inFaceId with
    | none => some D.state.beginEvent
    | some inFace =>
      match e.getInRecord inFace with
      | none => gone
      | some r =>
        some (actAll env D.state.beginEvent id
          (actions ⟨env, D.fib, known, D.state.beginEvent, id, e, inFace, r.interest⟩))

/-- The PIT entries a Data from a face satisfies. -/
def dataMatches : List EntryId :=
  if isViolatingLocalhost env ingress d.name then []
  else D.state.pit.findAllDataMatches env.sha256 d

/-- An entry of the table is governed by a strategy of this type. -/
def isGovernedBy (type : StrategyType) (id : EntryId) : Bool :=
  (D.state.pit.get id).any fun e => D.typeOf e.interest == type

/-- `AsfStrategy::beforeSatisfyInterest`: the timer is set again if the face has measurements. -/
def extendTimers (extended : EntryId → Bool) (s : State) : State :=
  ((D.dataMatches env ingress d).filter fun id => D.isGovernedBy .asf id && extended id).foldl
    (fun s id => s.setExpiryTimer id 50) s

/-- The Data pipeline with the strategies that inherit `afterReceiveData`. -/
def onDataForBase (nonces : Nat → List UInt8) (rate : FacePtr → Int) (extended : EntryId → Bool) :
    Outcome :=
  let o := D.state.beginEvent.onIncomingData env ingress d nonces rate
  if o.fault.isSome then o else { o with state := D.extendTimers env ingress d extended o.state }

/-- The Data pipeline with the strategy of the entry. -/
def onIncomingData (nonces : Nat → List UInt8) (rate : FacePtr → Int) (defers : Bool)
    (extended : EntryId → Bool) : Outcome :=
  match D.dataMatches env ingress d with
  | [id] =>
    if D.isGovernedBy .selfLearning id then
      SelfLearningStrategy.onSingleMatch env (D.state.beginEvent.cacheData env d) ingress d nonces
        rate defers id
    else D.onDataForBase env ingress d nonces rate extended
  | _ => D.onDataForBase env ingress d nonces rate extended

/-- What is put off when a Data arrives. -/
def deferredBy (defers : Bool) : List Deferred :=
  match D.dataMatches env ingress d with
  | [id] =>
    let hasOutRecord := ((D.state.pit.get id).bind (·.getOutRecord ingress)).isSome
    if D.isGovernedBy .selfLearning id && hasOutRecord && defers then
      [⟨id, D.state.faceTable.getId ingress, d⟩]
    else []
  | _ => []

/-- The continuation of `asyncProcessData`. -/
def onAnnounced (rate : FacePtr → Int) (x : Deferred) : Outcome :=
  match D.state.pit.get x.id, D.state.faceTable.get x.inFaceId with
  | some _, some inFace =>
    let o := sendDataToAll env rate D.state.beginEvent x.id inFace x.data
    { o with state := o.state.setExpiryTimer x.id 0 }
  | _, _ => ⟨D.state.beginEvent, none⟩

/-- One event. -/
def step (D : Daemon) : DaemonEvent → Option Daemon
  | .interest ingress frame freshNonce known =>
    if ingress ∈ D.state.faceTable.ptrs then
      (dropOr D.state.beginEvent (frame.decodeInterest env) fun i =>
        (D.state.beginEvent.onIncomingInterest env ingress i freshNonce
          (D.interestActions env ingress i freshNonce known)).survive).map fun s =>
        { D with state := s }
    else none
  | .data ingress frame nonces rate defers extended =>
    if ingress ∈ D.state.faceTable.ptrs then
      match frame.decodeData with
      | none => some { D with state := D.state.beginEvent }
      | some d =>
        let o := D.onIncomingData env ingress d nonces rate defers extended
        o.survive.map fun s =>
          { D with
            state := s
            deferred :=
              if o.fault.isSome then D.deferred
              else D.deferredBy env ingress d defers ++ D.deferred }
    else none
  | .nack ingress frame reason =>
    if ingress ∈ D.state.faceTable.ptrs then
      (dropOr D.state.beginEvent (frame.decodeInterest env) fun i =>
        some (D.state.beginEvent.onIncomingNack env ingress i reason
          (D.nackActions env ingress i reason))).map fun s => { D with state := s }
    else none
  | .rtoTimeout id inFaceId firstOutFaceId known =>
    -- the source asserts that the entry and the in-record exist
    (D.onStrategyTimer env id inFaceId known none fun t =>
      AccessStrategy.afterRtoTimeout t firstOutFaceId).map fun s => { D with state := s }
  | .propagate id inFaceId known =>
    (D.onStrategyTimer env id inFaceId known (some D.state.beginEvent)
      NccStrategy.doPropagate).map fun s => { D with state := s }
  | .announced position rate =>
    D.deferred[position]?.bind fun x =>
      (D.onAnnounced env rate x).survive.map fun s =>
        { D with state := s, deferred := D.deferred.eraseIdx position }
  | .face op =>
    (D.state.beginEvent.onFaceOp env op).map fun s =>
      { D with
        state := s
        fib := match op with
          | .closed p => D.fib.removeFace p
          | _ => D.fib }
  | .addNextHop pfx face cost =>
    if face ∈ D.state.faceTable.ptrs then
      some { D with
        state := D.state.beginEvent
        fib := D.fib.addOrUpdateNextHop pfx face cost }
    else none
  | .removeNextHop pfx face =>
    some { D with state := D.state.beginEvent, fib := D.fib.removeNextHop pfx face }
  | .setStrategy pfx name =>
    some { D with state := D.state.beginEvent, choice := D.choice.insert pfx name }
  | .unsetStrategy pfx =>
    some { D with state := D.state.beginEvent, choice := D.choice.erase pfx }
  | .expiry id => (Nfd.step env D.state (.expiry id)).map fun s => { D with state := s }
  | .markNonces => (Nfd.step env D.state .markNonces).map fun s => { D with state := s }
  | .adjustNonces down up =>
    (Nfd.step env D.state (.adjustNonces down up)).map fun s => { D with state := s }
  | .tick ns => (Nfd.step env D.state (.tick ns)).map fun s => { D with state := s }

/-! ## What an event can do -/

/-- The actions of a strategy's timer. -/
def timerActions (inFaceId : FaceId) (known : Knowledge) (actions : Trigger → List Action) :
    List Action :=
  match D.state.pit.get id, D.state.faceTable.get inFaceId with
  | some e, some inFace =>
    match e.getInRecord inFace with
    | none => []
    | some r => actions ⟨env, D.fib, known, D.state.beginEvent, id, e, inFace, r.interest⟩
  | _, _ => []

/-- The Interests an event may send, and the entries they are sent from. -/
def Permits (D : Daemon) : DaemonEvent → EntryId → FacePtr → Interest → Prop
  | .interest ingress frame freshNonce known, id, egress, j =>
    ∃ i, frame.decodeInterest env = some i ∧
      id = (D.state.pit.insert (acceptedInterest env i freshNonce)).1 ∧
      D.state.MissSends (acceptedInterest env i freshNonce)
        (D.interestActions env ingress i freshNonce known) egress j
  | .rtoTimeout id' inFaceId firstOutFaceId known, id, egress, j =>
    id = id' ∧ Sends (D.timerActions env id' inFaceId known fun t =>
      AccessStrategy.afterRtoTimeout t firstOutFaceId) egress j
  | .propagate id' inFaceId known, id, egress, j =>
    id = id' ∧ Sends (D.timerActions env id' inFaceId known NccStrategy.doPropagate) egress j
  | _, _, _, _ => False

/-- The Interests an event may create entries for. -/
def Creates : DaemonEvent → Interest → Prop
  | .interest _ frame freshNonce _, j =>
    ∃ i, frame.decodeInterest env = some i ∧ j = acceptedInterest env i freshNonce
  | .data _ _ _ _ _ _, j => j.name.WellFormed
  | _, _ => False

end Daemon

/-- The FIB after an event. -/
def DaemonEvent.fib (D : Daemon) : DaemonEvent → Fib
  | .face (.closed p) => D.fib.removeFace p
  | .addNextHop pfx p cost => D.fib.addOrUpdateNextHop pfx p cost
  | .removeNextHop pfx p => D.fib.removeNextHop pfx p
  | _ => D.fib

/-- The strategy choices after an event. -/
def DaemonEvent.choice (D : Daemon) : DaemonEvent → StrategyChoice
  | .setStrategy pfx name => D.choice.insert pfx name
  | .unsetStrategy pfx => D.choice.erase pfx
  | _ => D.choice

section

variable {env : Env} {N : Interest → Prop} {S : EntryId → FacePtr → Interest → Prop} {s : State}

theorem SelfLearningStrategy.moves_afterReceiveData (rate : FacePtr → Int) (id : EntryId)
    (ingress : FacePtr) (d : Data) (defers : Bool) :
    Moves N S anyHear (inScope env) s (afterReceiveData env rate s id ingress d defers).state := by
  unfold afterReceiveData
  split
  · exact .refl
  · split
    · exact moves_setExpiryTimer id 1000
    · exact moves_sendDataToAll (fun _ _ h => h) rate id ingress d

section

variable (hN : ∀ j : Interest, j.name.WellFormed → N j) {d : Data} (hd : d.name.WellFormed)
  (ingress : FacePtr) (nonces : Nat → List UInt8) (rate : FacePtr → Int)
include hN hd

theorem SelfLearningStrategy.moves_onSingleMatch (defers : Bool) (id : EntryId) :
    Moves N S anyHear (inScope env) s
      (onSingleMatch env s ingress d nonces rate defers id).state := by
  have hprepared : Moves N S anyHear (inScope env) s (s.prepareSegments env d nonces id).state :=
    moves_prepareSegments hN hd (fun _ _ _ _ _ _ _ => trivial) id
  unfold onSingleMatch
  dsimp only
  split
  · exact hprepared
  have hdelivered := (hprepared.trans (moves_setExpiryTimer id 0)).trans
    (moves_afterReceiveData rate id ingress d defers)
  split
  · exact hdelivered
  · exact hdelivered.trans
      (moves_satisfyEntry id ingress d (fun _ => .deleteOutRecord ingress) fun _ => rfl)

variable {D D' : Daemon}

theorem Daemon.moves_onDataForBase (extended : EntryId → Bool) :
    Moves N S anyHear (inScope env) D.state.beginEvent
      (D.onDataForBase env ingress d nonces rate extended).state := by
  have hbase : Moves N S anyHear (inScope env) D.state.beginEvent
      (D.state.beginEvent.onIncomingData env ingress d nonces rate).state :=
    moves_onIncomingData (fun _ _ h => h) hN ingress hd (fun _ _ _ _ _ _ _ => trivial) rate
  unfold onDataForBase
  dsimp only
  split
  · exact hbase
  · exact hbase.trans (Moves.foldl (fun s id _ => moves_setExpiryTimer id 50) _)

theorem Daemon.moves_onIncomingData (defers : Bool) (extended : EntryId → Bool) :
    Moves N S anyHear (inScope env) D.state.beginEvent
      (D.onIncomingData env ingress d nonces rate defers extended).state := by
  unfold onIncomingData
  split
  · split
    · exact (moves_cacheData d).trans
        (SelfLearningStrategy.moves_onSingleMatch hN hd ingress nonces rate defers _)
    · exact moves_onDataForBase hN hd ingress nonces rate extended
  · exact moves_onDataForBase hN hd ingress nonces rate extended

end

namespace Daemon

variable {D D' : Daemon} {known : Knowledge} {ingress : FacePtr} {frame : Frame}
    {reason : NackReason}
  {ev : DaemonEvent}

theorem moves_onStrategyTimer {id : EntryId} {inFaceId : FaceId} {gone : Option State}
    {actions : Trigger → List Action} {s : State}
    (hgone : ∀ u, gone = some u → u = D.state.beginEvent)
    (hS : ∀ egress j, Sends (D.timerActions env id inFaceId known actions) egress j →
      S id egress j) (h : D.onStrategyTimer env id inFaceId known gone actions = some s) :
    Moves N S anyHear (inScope env) D.state.beginEvent s := by
  simp only [onStrategyTimer, timerActions] at h hS
  split at h
  · rw [hgone s h]
  · grind [moves_actAll]

theorem moves_onAnnounced (rate : FacePtr → Int) (x : Deferred) :
    Moves N S anyHear (inScope env) D.state.beginEvent (D.onAnnounced env rate x).state := by
  unfold onAnnounced
  split
  · exact (moves_sendDataToAll (fun _ _ h => h) rate x.id _ x.data).trans
      (moves_setExpiryTimer x.id 0)
  · exact .refl

theorem step_interest {freshNonce : List UInt8}
    (h : D.step env (.interest ingress frame freshNonce known) = some D') :
    D' = { D with state := D.state.beginEvent } ∨ ∃ i, frame.decodeInterest env = some i ∧
      D' = { D with
        state := (D.state.beginEvent.onIncomingInterest env ingress i freshNonce
          (D.interestActions env ingress i freshNonce known)).state } := by
  simp only [step, dropOr] at h
  split at h
  · obtain ⟨s, hs, rfl⟩ := map_eq_some_iff.1 h
    split at hs
    · rw [← some.inj hs]
      exact Or.inl rfl
    · rename_i i hi
      rw [Outcome.survive_state hs]
      exact Or.inr ⟨i, hi, rfl⟩
  · cases h

theorem step_data {nonces : Nat → List UInt8} {rate : FacePtr → Int} {defers : Bool}
    {extended : EntryId → Bool}
    (h : D.step env (.data ingress frame nonces rate defers extended) = some D') :
    D' = { D with state := D.state.beginEvent } ∨ ∃ d deferred, frame.decodeData = some d ∧
      (deferred = D.deferred ∨ deferred = D.deferredBy env ingress d defers ++ D.deferred) ∧
      D' = { D with
        state := (D.onIncomingData env ingress d nonces rate defers extended).state
        deferred } := by
  obtain ⟨-, h⟩ := ite_none_right_eq_some.1 h
  split at h
  · rw [← some.inj h]
    exact Or.inl rfl
  · rename_i d hd
    obtain ⟨s, hs, rfl⟩ := map_eq_some_iff.1 h
    rw [Outcome.survive_state hs]
    refine Or.inr ⟨d, _, hd, ?_, rfl⟩
    split
    · exact Or.inl rfl
    · exact Or.inr rfl

theorem step_nack (h : D.step env (.nack ingress frame reason) = some D') :
    D' = { D with state := D.state.beginEvent } ∨ ∃ i, frame.decodeInterest env = some i ∧
      D' = { D with
        state := D.state.beginEvent.onIncomingNack env ingress i reason
          (D.nackActions env ingress i reason) } := by
  simp only [step, dropOr] at h
  split at h
  · grind
  · cases h

theorem step_tables (h : D.step env ev = some D') :
    D'.fib = ev.fib D ∧ D'.choice = ev.choice D := by
  cases ev with
  | interest ingress frame freshNonce known =>
    rcases step_interest h with rfl | ⟨i, -, rfl⟩
    · exact ⟨rfl, rfl⟩
    · exact ⟨rfl, rfl⟩
  | data ingress frame nonces rate defers extended =>
    rcases step_data h with rfl | ⟨d, deferred, -, -, rfl⟩
    · exact ⟨rfl, rfl⟩
    · exact ⟨rfl, rfl⟩
  | nack ingress frame reason =>
    rcases step_nack h with rfl | ⟨i, -, rfl⟩
    · exact ⟨rfl, rfl⟩
    · exact ⟨rfl, rfl⟩
  | announced position rate =>
    obtain ⟨x, -, hx⟩ := bind_eq_some_iff.1 h
    obtain ⟨s, -, rfl⟩ := map_eq_some_iff.1 hx
    exact ⟨rfl, rfl⟩
  | addNextHop pfx face cost =>
    obtain ⟨-, h⟩ := ite_none_right_eq_some.1 h
    rw [← some.inj h]
    exact ⟨rfl, rfl⟩
  | removeNextHop | setStrategy | unsetStrategy =>
    rw [← some.inj h]
    exact ⟨rfl, rfl⟩
  | face op =>
    obtain ⟨s, -, rfl⟩ := map_eq_some_iff.1 h
    cases op with
    | closed p => exact ⟨rfl, rfl⟩
    | add p => exact ⟨rfl, rfl⟩
    | addReserved p id => exact ⟨rfl, rfl⟩
  | _ =>
    simp only [step] at h
    obtain ⟨s, -, rfl⟩ := map_eq_some_iff.1 h
    exact ⟨rfl, rfl⟩

theorem nackActions_sends {i : Interest} {egress : FacePtr} {j : Interest} :
    ¬ Sends (D.nackActions env ingress i reason) egress j := by
  rintro ⟨j', hmem, -⟩
  unfold nackActions at hmem
  split at hmem
  · cases hmem
  · split at hmem
    · cases hmem
    · exact sendInterest_notMem_afterReceiveNack _ _ _ _ _ hmem

/-- **An event is a sequence of effects**, which sends and creates what it may. -/
theorem step_effects (h : D.step env ev = some D') :
    Effects env (Creates env ev) (D.Permits env ev) D.state.beginEvent D'.state := by
  cases ev with
  | interest ingress frame freshNonce known =>
    rcases step_interest h with rfl | ⟨i, hi, rfl⟩
    · exact .refl
    · exact (moves_onIncomingInterest (fun _ _ h => h) ⟨i, hi, rfl⟩ (fun _ _ _ => trivial)
        fun egress j hj => ⟨i, hi, rfl, hj⟩).effects env
  | data ingress frame nonces rate defers extended =>
    rcases step_data h with rfl | ⟨d, deferred, hd, -, rfl⟩
    · exact .refl
    · exact (moves_onIncomingData (fun _ hj => hj) (Frame.decodeData_wellFormed hd) ingress nonces
        rate defers extended).effects env
  | nack ingress frame reason =>
    grind [step_nack, moves_onIncomingNack, Moves.effects, nackActions_sends]
  | rtoTimeout id inFaceId firstOutFaceId known =>
    obtain ⟨s, hs, rfl⟩ := map_eq_some_iff.1 h
    have hgone : ∀ u : State, none = some u → u = D.state.beginEvent := fun _ hu => nomatch hu
    exact (moves_onStrategyTimer hgone (fun _ _ hj => ⟨rfl, hj⟩) hs).effects env
  | propagate id inFaceId known =>
    obtain ⟨s, hs, rfl⟩ := map_eq_some_iff.1 h
    exact (moves_onStrategyTimer (fun _ hu => (some.inj hu).symm)
      (fun _ _ hj => ⟨rfl, hj⟩) hs).effects env
  | announced position rate =>
    obtain ⟨x, -, hx⟩ := bind_eq_some_iff.1 h
    obtain ⟨s, hs, rfl⟩ := map_eq_some_iff.1 hx
    rw [Outcome.survive_state hs]
    exact (moves_onAnnounced rate x).effects env
  | face op =>
    obtain ⟨s, hs, rfl⟩ := map_eq_some_iff.1 h
    exact effects_onFaceOp hs
  | addNextHop pfx face cost =>
    obtain ⟨-, h⟩ := ite_none_right_eq_some.1 h
    rw [← some.inj h]
  | removeNextHop | setStrategy | unsetStrategy => rw [← some.inj h]
  | expiry id =>
    obtain ⟨s, hs, rfl⟩ := map_eq_some_iff.1 h
    rw [step_expiry hs]
    exact (moves_onInterestFinalize id).effects env
  | markNonces | adjustNonces | tick =>
    rw [← some.inj h]
    exact .quiet rfl rfl

end Daemon

end

namespace Router

/-- A strategy that has learned nothing. -/
def unlearned : Knowledge where
  suppresses := false
  suppressesUpstream := fun _ => false
  random := 0
  lastNexthop := none
  bestFace := none
  previousFace := none
  rank := fun _ => 0
  isMeasured := fun _ => false
  isProbingDue := false
  probeNonce := [0, 0, 0, 8]
  isNonDiscovery := false

/-- The router with one strategy for all names. -/
def daemon (type : StrategyType) : Daemon := Daemon.init 0 none 100 ⟨type, []⟩

def addFaces (faces : List FacePtr) : List DaemonEvent := faces.map fun p => .face (.add p)

def interestFrame (components : List String) (nonce : UInt8) : Frame :=
  frame (element Tlv.interest (name components ++ element Tlv.nonce [0, 0, 0, nonce]))

/-- An Interest for the daemon, with the given nonce octet. -/
def request (ingress : FacePtr) (components : List String) (nonce : UInt8) : DaemonEvent :=
  .interest ingress (interestFrame components nonce) [] unlearned

end Router

end NdnMulticast.Nfd
