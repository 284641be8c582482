/-
  `ndn::Face`: its operations post handlers to the io_service, and the handlers work on the
  pending Interest table, the Interest filters and the transport (`impl/face-impl.hpp`,
  `impl/pending-interest.hpp`, `face.cpp`).

  The application's callbacks return normally and do not touch the tables; what they post is
  an event of its own.  Handlers may run in any order, and a timeout may fire whenever its
  record exists.  An exception ends the handler where it is; `processEvents` then clears the
  tables (`unwind`), a plain `run` of the io_service, as in `push`, does not.
-/

import NdnMulticast.Ndn.Face.RecordContainer
import NdnMulticast.Ndn.Face.Transport
import NdnMulticast.Nfd.Pit

namespace NdnMulticast.Ndn.Face

open Nfd (NackReason)

/-! ## Records -/

structure Nack where
  interest : Interest
  reason : NackReason
deriving DecidableEq, Repr

/-- `to_underlying` of a reason. -/
def severity : NackReason → Nat
  | .none => 0
  | .congestion => 50
  | .duplicate => 100
  | .noRoute => 150

def isLessSevere (x y : NackReason) : Bool :=
  if x = .none then false
  else if y = .none then true
  else severity x < severity y

inductive PendingInterestOrigin where
  | app
  | forwarder
deriving DecidableEq, Repr

/-- Which callbacks of a call are not empty. -/
structure Callbacks where
  data : Bool
  nack : Bool
  timeout : Bool
deriving DecidableEq, Repr

structure PendingInterest where
  interest : Interest
  origin : PendingInterestOrigin
  callbacks : Callbacks
  /-- `m_nNotNacked`. -/
  nNotNacked : Int
  leastSevereNack : Option Nack
  /-- How often `recordForwarding` was called: a history variable, which nothing reads. -/
  nForwarded : Nat
deriving DecidableEq, Repr

namespace PendingInterest

/-- The record of an Interest from `Face::expressInterest`. -/
def ofApp (interest : Interest) (callbacks : Callbacks) : PendingInterest :=
  ⟨interest, .app, callbacks, 0, none, 0⟩

/-- The record of an Interest from the forwarder. -/
def ofForwarder (interest : Interest) : PendingInterest :=
  ⟨interest, .forwarder, ⟨false, false, false⟩, 0, none, 0⟩

def recordForwarding (r : PendingInterest) : PendingInterest :=
  { r with nNotNacked := r.nNotNacked + 1, nForwarded := r.nForwarded + 1 }

/-- `PendingInterest::recordNack`: the record as it leaves it, and what it returns. -/
def recordNack (r : PendingInterest) (nack : Nack) : PendingInterest × Option Nack :=
  let nNotNacked := r.nNotNacked - 1
  let leastSevereNack :=
    match r.leastSevereNack with
    | none => nack
    | some least => if isLessSevere nack.reason least.reason then nack else least
  ({ r with nNotNacked, leastSevereNack := some leastSevereNack },
    if 0 < nNotNacked then none else some leastSevereNack)

end PendingInterest

structure InterestFilter where
  namePrefix : Name
  /-- What the regular expression says about a name. -/
  regexFilter : Option (Name → Bool)
  allowsLoopback : Bool

def InterestFilter.doesMatch (f : InterestFilter) (n : Name) : Bool :=
  f.namePrefix.isPrefixOf n && f.regexFilter.all (· n)

structure InterestFilterRecord where
  filter : InterestFilter
  /-- The Interest callback is not empty. -/
  callback : Bool

def InterestFilterRecord.doesMatch (f : InterestFilterRecord) (entry : PendingInterest) : Bool :=
  (entry.origin == .forwarder || f.filter.allowsLoopback) && f.filter.doesMatch entry.interest.name

/-! ## State -/

/-- A handler that has been posted. -/
inductive Task where
  | ensureConnected
  | expressInterest (id : RecordId) (interest : Interest) (callbacks : Callbacks)
  | expressDumbInterest (id : RecordId) (interest : Interest) (callbacks : Callbacks)
  | removePendingInterest (id : RecordId)
  | removeAllPendingInterests
  | putData (d : Data)
  | putNack (nack : Nack)
  | setInterestFilter (id : RecordId) (filter : InterestFilterRecord)
  | unsetInterestFilter (id : RecordId)
  /-- `onEmptyPitOrNoRegisteredPrefixes`. -/
  | pauseIfUnused
  | shutdown

/-- What a Face does that is of interest outside. -/
inductive Action where
  | dataCallback (id : RecordId) (d : Data)
  | nackCallback (id : RecordId) (nack : Nack)
  | timeoutCallback (id : RecordId)
  | interestCallback (filterId : RecordId) (interest : Interest)
  /-- The assertion of `recordNack` is evaluated with this `m_nNotNacked`. -/
  | recordNack (id : RecordId) (nNotNacked : Int)
deriving DecidableEq, Repr

structure State where
  transport : Transport
  pendingInterestTable : RecordContainer PendingInterest
  interestFilterTable : RecordContainer InterestFilterRecord
  registeredPrefixTable : RecordContainer Unit
  posted : List Task
  /-- Oldest first. -/
  log : List Action

/-- What `finishEncoding` is given: the encoding with its link layer fields. -/
structure Encoding where
  interest : Interest → List UInt8
  data : Data → List UInt8
  nack : Nack → List UInt8

/-- `MAX_NDN_PACKET_SIZE`. -/
def maxNdnPacketSize : Nat := 8800

/-- `Face::Impl::finishEncoding`; `none` stands for `OversizedPacketError`. -/
def finishEncoding (wire : List UInt8) : Option (List UInt8) :=
  if maxNdnPacketSize < wire.length then none else some wire

namespace State

/-- After `Face::construct`. -/
def init : State := ⟨.init, .init, .init, .init, [.ensureConnected], []⟩

variable (s : State) (id : RecordId) (entry : PendingInterest)

@[simps] def post (task : Task) : State := { s with posted := s.posted ++ [task] }

def ensureConnected (s : State) (wantResume : Bool) : State :=
  { s with transport := s.transport.ensureConnected wantResume }

@[simps] def send (s : State) (wire : List UInt8) : State :=
  { s with transport := s.transport.send wire }

/-- The signal of a container, after an operation that raises it only if the container is empty. -/
def signalIfEmpty {α : Type} (c : RecordContainer α) (s : State) : State :=
  if c.empty then s.post .pauseIfUnused else s

@[simps] def setPending (table : RecordContainer PendingInterest) : State :=
  { s with pendingInterestTable := table }

/-- `RecordContainer::erase` of a pending Interest. -/
def erasePending : State :=
  let table := s.pendingInterestTable.erase id
  signalIfEmpty table (s.setPending table)

/-- `RecordContainer::clear` of the pending Interests. -/
def clearPending : State :=
  (s.setPending s.pendingInterestTable.clear).post .pauseIfUnused

def shutdown : State :=
  { s.clearPending with registeredPrefixTable := s.registeredPrefixTable.clear }.post .pauseIfUnused

/-- The two flags of `satisfyPendingInterests` and the callbacks it has invoked. -/
structure Matches where
  hasAppMatch : Bool
  hasForwarderMatch : Bool
  invoked : List Action

/-- The visitor of `satisfyPendingInterests`. -/
def satisfy (sha256 : List UInt8 → List UInt8) (d : Data) (m : Matches) (id : RecordId)
    (entry : PendingInterest) : Matches × Option PendingInterest :=
  if entry.interest.matchesData sha256 d then
    match entry.origin with
    | .app => ({ m with
        hasAppMatch := true
        invoked := m.invoked ++ if entry.callbacks.data then [.dataCallback id d] else [] }, none)
    | .forwarder => ({ m with hasForwarderMatch := true }, none)
  else (m, some entry)

/-- Whether the Data should be sent to the forwarder, and the state it leaves. -/
def satisfyPendingInterests (sha256 : List UInt8 → List UInt8) (s : State) (d : Data) :
    Bool × State :=
  let (m, table) := s.pendingInterestTable.removeIf (satisfy sha256 d) ⟨false, false, []⟩
  (m.hasForwarderMatch || !m.hasAppMatch,
    signalIfEmpty table { s.setPending table with log := s.log ++ m.invoked })

/-- `outNack` of `nackPendingInterests` and what its visits did. -/
structure Nacked where
  outNack : Option Nack
  done : List Action

/-- The visitor of `nackPendingInterests`. -/
def nackEntry (nack : Nack) (m : Nacked) (id : RecordId) (entry : PendingInterest) :
    Nacked × Option PendingInterest :=
  if nack.interest.matchesInterest entry.interest then
    let (entry', outNack1) := entry.recordNack nack
    let done := m.done ++ [.recordNack id entry'.nNotNacked]
    match outNack1 with
    | none => (⟨m.outNack, done⟩, some entry')
    | some out =>
      match entry.origin with
      | .app => (⟨m.outNack, done ++
          if entry.callbacks.nack then [.nackCallback id out] else []⟩, none)
      | .forwarder => (⟨some out, done⟩, none)
  else (m, some entry)

def nackPendingInterests (nack : Nack) : Option Nack × State :=
  let (m, table) := s.pendingInterestTable.removeIf (nackEntry nack) ⟨none, []⟩
  (m.outNack, signalIfEmpty table { s.setPending table with log := s.log ++ m.done })

/-- `recordForwarding` through the reference to a record of the table. -/
def recordForwarding (s : State) (id : RecordId) : State :=
  s.setPending (s.pendingInterestTable.modify id PendingInterest.recordForwarding)

/-- One visit of `dispatchInterest`. -/
def dispatchTo (s : State) (filter : RecordId × InterestFilterRecord) : State :=
  if filter.2.doesMatch entry then
    { s.recordForwarding id with
      log :=
        s.log ++ if filter.2.callback then [.interestCallback filter.1 entry.interest] else [] }
  else s

/-- `Face::Impl::dispatchInterest`; neither origin nor Interest of the record changes. -/
def dispatchInterest : State :=
  s.interestFilterTable.records.foldl (dispatchTo id entry) s

section

variable (enc : Encoding) (sha256 : List UInt8 → List UInt8) (s : State)

def expressInterest (id : RecordId) (interest : Interest) (callbacks : Callbacks) : State :=
  let entry := PendingInterest.ofApp interest callbacks
  let s := s.ensureConnected true
  let s := (s.setPending (s.pendingInterestTable.put id entry)).recordForwarding id
  match finishEncoding (enc.interest interest) with
  | none => s
  | some wire => (s.send wire).dispatchInterest id entry

def expressDumbInterest (id : RecordId) (interest : Interest) (callbacks : Callbacks) : State :=
  let entry := PendingInterest.ofApp interest callbacks
  let s := s.ensureConnected true
  let s := (s.setPending (s.pendingInterestTable.put id entry)).recordForwarding id
  s.dispatchInterest id entry

def processIncomingInterest (interest : Interest) : State :=
  let entry := PendingInterest.ofForwarder interest
  let id := s.pendingInterestTable.lastId + 1
  (s.setPending (s.pendingInterestTable.insert entry)).dispatchInterest id entry

/-- The end of `putData` and `putNack`. -/
def sendEncoded (wire : List UInt8) : State :=
  match finishEncoding wire with
  | none => s.ensureConnected true
  | some wire => (s.ensureConnected true).send wire

def putData (d : Data) : State :=
  match s.satisfyPendingInterests sha256 d with
  | (false, s) => s
  | (true, s) => s.sendEncoded (enc.data d)

def putNack (nack : Nack) : State :=
  match s.nackPendingInterests nack with
  | (none, s) => s
  | (some out, s) => s.sendEncoded (enc.nack out)

/-- The handler that `onEmptyPitOrNoRegisteredPrefixes` posts. -/
def pauseIfUnused : State :=
  if s.pendingInterestTable.empty && s.registeredPrefixTable.empty then
    { s with transport := s.transport.pause }
  else s

/-- A posted handler runs. -/
def runTask : Task → State
  | .ensureConnected => s.ensureConnected false
  | .expressInterest id interest callbacks => s.expressInterest enc id interest callbacks
  | .expressDumbInterest id interest callbacks => s.expressDumbInterest id interest callbacks
  | .removePendingInterest id => s.erasePending id
  | .removeAllPendingInterests => s.clearPending
  | .putData d => s.putData enc sha256 d
  | .putNack nack => s.putNack enc nack
  | .setInterestFilter id filter =>
    { s with interestFilterTable := s.interestFilterTable.put id filter }
  | .unsetInterestFilter id => { s with interestFilterTable := s.interestFilterTable.erase id }
  | .pauseIfUnused => s.pauseIfUnused
  | .shutdown =>
    let s := s.shutdown
    if s.transport.isConnected then { s with transport := s.transport.close } else s

end

end State

/-! ## Steps -/

/-- A TLV element read from the transport. -/
inductive Element where
  | interest (interest : Interest)
  | nack (nack : Nack)
  | data (d : Data)
  /-- A network packet of another type. -/
  | other
  /-- Decoding raises an exception. -/
  | malformed

inductive Event where
  -- operations of the application
  | expressInterest (interest : Interest) (callbacks : Callbacks)
  | expressDumbInterest (interest : Interest) (callbacks : Callbacks)
  | cancel (id : RecordId)
  | removeAllPendingInterests
  | put (d : Data)
  | push (d : Data)
  | putNack (nack : Nack)
  | setInterestFilter (filter : InterestFilterRecord)
  | unsetInterestFilter (id : RecordId)
  | shutdown
  -- the prefix registration protocol succeeds
  | prefixRegistered (filter : Option InterestFilterRecord)
  | prefixUnregistered (id : RecordId)
  -- the io_service
  | run (i : Nat)
  | timeout (id : RecordId)
  | connectHandler
  /-- A handler finds an error and closes the transport. -/
  | transportError
  | writeCompleted
  | handleAsyncWrite
  | receiveCompleted
  /-- One round of `processAllReceived`. -/
  | receive (element : Element)
  | receiveAgain
  /-- An exception leaves `Face::processEvents`. -/
  | unwind

namespace State

section

variable (enc : Encoding) (sha256 : List UInt8 → List UInt8)

def onReceiveElement (s : State) : Element → State
  | .interest interest => s.processIncomingInterest interest
  | .nack nack => (s.nackPendingInterests nack).2
  | .data d => (s.satisfyPendingInterests sha256 d).2
  | .other => s
  | .malformed => { s with transport := s.transport.receiveAborted }

def invokeTimeoutCallback (s : State) (id : RecordId) (entry : PendingInterest) : State :=
  let called : List Action := if entry.callbacks.timeout then [.timeoutCallback id] else []
  { s with log := s.log ++ called }.erasePending id

def allocateId (s : State) : State := s.setPending s.pendingInterestTable.allocateId

def setInterestFilter (s : State) (filter : InterestFilterRecord) : State :=
  { s with interestFilterTable := s.interestFilterTable.allocateId }.post
    (.setInterestFilter (s.interestFilterTable.lastId + 1) filter)

/-- One step; `none` for an event that cannot occur. -/
def step (s : State) : Event → Option State
  | .expressInterest interest callbacks => some (s.allocateId.post
      (.expressInterest (s.pendingInterestTable.lastId + 1) interest callbacks))
  | .expressDumbInterest interest callbacks => some (s.allocateId.post
      (.expressDumbInterest (s.pendingInterestTable.lastId + 1) interest callbacks))
  | .cancel id => some (s.post (.removePendingInterest id))
  | .removeAllPendingInterests => some (s.post .removeAllPendingInterests)
  | .put d => some (s.post (.putData d))
  | .push d => some (s.post (.putData d))
  | .putNack nack => some (s.post (.putNack nack))
  | .setInterestFilter filter => some (s.setInterestFilter filter)
  | .unsetInterestFilter id => some (s.post (.unsetInterestFilter id))
  | .shutdown => some (s.post .shutdown)
  | .prefixRegistered filter => some { s with
      interestFilterTable := filter.elim s.interestFilterTable s.interestFilterTable.insert
      registeredPrefixTable := s.registeredPrefixTable.insert () }
  | .prefixUnregistered id =>
    let table := s.registeredPrefixTable.erase id
    some (signalIfEmpty table { s with registeredPrefixTable := table })
  | .run i => s.posted[i]?.map fun task =>
    { s with posted := s.posted.eraseIdx i }.runTask enc sha256 task
  | .timeout id => (s.pendingInterestTable.get id).map (s.invokeTimeoutCallback id)
  | .connectHandler =>
    if s.transport.isConnecting then some { s with transport := s.transport.connectHandler }
    else none
  | .transportError =>
    if s.transport.isConnecting || s.transport.isConnected then
      some { s with transport := s.transport.close }
    else none
  | .writeCompleted =>
    if s.transport.write = .inProgress then
      some { s with transport := { s.transport with write := .completed } }
    else none
  | .handleAsyncWrite =>
    if s.transport.write = .completed then
      some { s with transport := s.transport.handleAsyncWrite }
    else none
  | .receiveCompleted =>
    if 0 < s.transport.waiting then some { s with transport := s.transport.receiveCompleted }
    else none
  | .receive element =>
    if 0 < s.transport.completed then some (s.onReceiveElement sha256 element) else none
  | .receiveAgain =>
    if 0 < s.transport.completed then some { s with transport := s.transport.receiveAgain }
    else none
  | .unwind => some s.shutdown

end

end State

/-! ## What the handlers do to the tables

One equation for each, so that the results about runs do not unfold the handlers. -/

open List PendingInterest

/-- `recordForwarding`, so many times. -/
def PendingInterest.forwarded (k : Nat) (r : PendingInterest) : PendingInterest :=
  { r with nNotNacked := r.nNotNacked + k, nForwarded := r.nForwarded + k }

/-- The record after a Data, `none` if the Data satisfies it. -/
def PendingInterest.afterData (sha256 : List UInt8 → List UInt8) (d : Data)
    (r : PendingInterest) : Option PendingInterest :=
  if r.interest.matchesData sha256 d then none else some r

/-- The callbacks that a Data invokes. -/
def dataCallbacks (sha256 : List UInt8 → List UInt8) (d : Data)
    (x : RecordId × PendingInterest) : List Action :=
  if x.2.interest.matchesData sha256 d && x.2.origin == .app && x.2.callbacks.data then
    [.dataCallback x.1 d]
  else []

/-- The record after a Nack, `none` if the Nack ends it. -/
def PendingInterest.afterNack (nack : Nack) (r : PendingInterest) : Option PendingInterest :=
  if nack.interest.matchesInterest r.interest then
    if 1 < r.nNotNacked then some (r.recordNack nack).1 else none
  else some r

/-- What a Nack leads to at one record. -/
def nackActions (nack : Nack) (x : RecordId × PendingInterest) : List Action :=
  if nack.interest.matchesInterest x.2.interest then
    .recordNack x.1 (x.2.nNotNacked - 1) ::
      match (x.2.recordNack nack).2 with
      | none => []
      | some out =>
        if x.2.origin == .app && x.2.callbacks.nack then [.nackCallback x.1 out] else []
  else []

namespace State

section

variable {s : State} {id : RecordId}

/-! ### Fields -/

variable {task : Task} {table : RecordContainer PendingInterest} {b : Bool} {wire : List UInt8}

section

variable {α : Type} {c : RecordContainer α}

@[simp] theorem signalIfEmpty_transport : (signalIfEmpty c s).transport = s.transport := by
  rw [signalIfEmpty]
  split <;> rfl

@[simp] theorem signalIfEmpty_pendingInterestTable :
    (signalIfEmpty c s).pendingInterestTable = s.pendingInterestTable := by
  rw [signalIfEmpty]
  split <;> rfl

@[simp] theorem signalIfEmpty_log : (signalIfEmpty c s).log = s.log := by
  rw [signalIfEmpty]
  split <;> rfl

end

/-! ### Dispatching -/

/-- The record is forwarded once to each filter that matches. -/
theorem dispatchInterest_eq (s : State) (id : RecordId) (entry : PendingInterest) :
    ∃ calls : List Action, (∀ a ∈ calls, ∃ f i, a = .interestCallback f i) ∧
      s.dispatchInterest id entry = { s with
        pendingInterestTable := s.pendingInterestTable.modify id
          (.forwarded (s.interestFilterTable.records.countP (·.2.doesMatch entry)))
        log := s.log ++ calls } := by
  rw [dispatchInterest]
  generalize s.interestFilterTable.records = filters
  induction filters generalizing s with
  | nil =>
    refine ⟨[], (fun a ha => nomatch ha), ?_⟩
    simp [RecordContainer.modify, PendingInterest.forwarded]
  | cons filter filters ih =>
    rw [foldl_cons]
    obtain ⟨calls, hcalls, heq⟩ := ih (dispatchTo id entry s filter)
    rw [heq, dispatchTo]
    split
    · rename_i hmatch
      refine ⟨(if filter.2.callback then
        [.interestCallback filter.1 entry.interest] else []) ++ calls, ?_, ?_⟩
      · grind
      have hmodify : ∀ k,
          (s.pendingInterestTable.modify id PendingInterest.recordForwarding).modify id
            (PendingInterest.forwarded k) =
          s.pendingInterestTable.modify id (PendingInterest.forwarded (k + 1)) := by
        intro k
        simp only [RecordContainer.modify, map_map, RecordContainer.mk.injEq, and_true]
        refine map_congr_left fun x _ => ?_
        by_cases hx : x.1 = id
        · have hcount : x.2.nNotNacked + 1 + (k : Int) =
              x.2.nNotNacked + ((k + 1 : Nat) : Int) := by
            omega
          simp only [Function.comp_apply, hx, if_true, PendingInterest.forwarded,
            PendingInterest.recordForwarding, hcount, Nat.add_right_comm _ 1 k, Nat.add_assoc]
        · simp [hx]
      simp only [countP_cons, hmatch, if_true, recordForwarding, setPending, hmodify, append_assoc]
    · rename_i hmatch
      exact ⟨calls, hcalls, by simp [hmatch]⟩

/-! ### The two walks -/

/-- A walk over the pending Interests: of every record it leaves `keep` and logs `acts`. -/
def Walked (keep : PendingInterest → Option PendingInterest)
    (acts : RecordId × PendingInterest → List Action) (s t : State) : Prop :=
  ∃ table : RecordContainer PendingInterest,
    table.records = s.pendingInterestTable.records.filterMap
      (fun x => (keep x.2).map (Prod.mk x.1)) ∧
    table.lastId = s.pendingInterestTable.lastId ∧
    t = signalIfEmpty table { s.setPending table with
      log := s.log ++ s.pendingInterestTable.records.flatMap acts }

variable {keep : PendingInterest → Option PendingInterest}
  {acts : RecordId × PendingInterest → List Action}

theorem Walked.mem_records {s t : State} (h : Walked keep acts s t)
    {x : RecordId × PendingInterest} (hx : x ∈ t.pendingInterestTable.records) :
    ∃ y ∈ s.pendingInterestTable.records, keep y.2 = some x.2 := by
  obtain ⟨table, htable, -, rfl⟩ := h
  rw [signalIfEmpty_pendingInterestTable] at hx
  have hx : x ∈ table.records := hx
  rw [htable] at hx
  obtain ⟨y, hy, hmap⟩ := mem_filterMap.1 hx
  obtain ⟨r, hr, rfl⟩ := Option.map_eq_some_iff.1 hmap
  exact ⟨y, hy, hr⟩

/-- A visitor that keeps what `keep` says and does what `acts` says. -/
theorem walked_removeIf {μ : Type}
    {visit : μ → RecordId → PendingInterest → μ × Option PendingInterest}
    {done : μ → List Action}
    (hvisit : visit = fun m id r => ((visit m id r).1, keep r))
    (hdone : ∀ m x, done (visit m x.1 x.2).1 = done m ++ acts x) (s : State) {m : μ}
    (hm : done m = []) :
    Walked keep acts s (signalIfEmpty (s.pendingInterestTable.removeIf visit m).2
      { s.setPending (s.pendingInterestTable.removeIf visit m).2 with
        log := s.log ++ done (s.pendingInterestTable.removeIf visit m).1 }) := by
  have hwalk := RecordContainer.removeIf_eq s.pendingInterestTable
    (fun m id r => (visit m id r).1) (fun _ r => keep r) m
  have hfold : ∀ (l : List (RecordId × PendingInterest)) (m : μ),
      done (l.foldl (fun m x => (visit m x.1 x.2).1) m) = done m ++ l.flatMap acts := by
    intro l
    induction l with
    | nil => simp
    | cons x l ih => exact fun m => by rw [foldl_cons, ih, hdone, flatMap_cons, append_assoc]
  rw [← hvisit] at hwalk
  refine ⟨_, hwalk.2, rfl, ?_⟩
  simp only [hwalk.1, hfold, hm, nil_append]

section

variable (sha256 : List UInt8 → List UInt8)

theorem satisfy_eq (d : Data) :
    satisfy sha256 d = fun m id r =>
      ((satisfy sha256 d m id r).1, r.afterData sha256 d) := by
  funext m id r
  rw [satisfy, afterData]
  split
  · split <;> rfl
  · rfl

theorem satisfy_invoked (d : Data) (m : Matches) (x : RecordId × PendingInterest) :
    (satisfy sha256 d m x.1 x.2).1.invoked = m.invoked ++ dataCallbacks sha256 d x := by
  rw [satisfy, dataCallbacks]
  by_cases hmatch : x.2.interest.matchesData sha256 d = true
  · grind
  · simp [hmatch]

theorem satisfyPendingInterests_walked (s : State) (d : Data) :
    Walked (·.afterData sha256 d) (dataCallbacks sha256 d) s
      (s.satisfyPendingInterests sha256 d).2 :=
  walked_removeIf (satisfy_eq sha256 d) (satisfy_invoked sha256 d) s rfl

end

theorem nackEntry_eq (nack : Nack) :
    nackEntry nack = fun m id r => ((nackEntry nack m id r).1, r.afterNack nack) := by
  funext m id r
  rw [nackEntry, afterNack]
  split
  · by_cases hpos : 1 < r.nNotNacked
    · simp [recordNack, hpos]
    · cases horigin : r.origin <;> simp [recordNack, hpos]
  · rfl

theorem nackEntry_done (nack : Nack) (m : Nacked) (x : RecordId × PendingInterest) :
    (nackEntry nack m x.1 x.2).1.done = m.done ++ nackActions nack x := by
  rw [nackEntry, nackActions]
  by_cases hmatch : nack.interest.matchesInterest x.2.interest = true
  · rw [if_pos hmatch, if_pos hmatch]
    by_cases hpos : 1 < x.2.nNotNacked
    · simp [recordNack, hpos]
    · cases horigin : x.2.origin <;> simp [recordNack, hpos]
  · simp [hmatch]

theorem nackPendingInterests_walked (s : State) (nack : Nack) :
    Walked (·.afterNack nack) (nackActions nack) s (s.nackPendingInterests nack).2 :=
  walked_removeIf (nackEntry_eq nack) (nackEntry_done nack) s rfl

end

end State

end NdnMulticast.Ndn.Face
