/-
  The incoming pipelines of `daemon/fw/forwarder.cpp` and the daemon as a state machine over
  the events it reacts to.

  The fork's addition is in the single-match branch of `onIncomingData`: a Data under `/File`
  carries the number of segments of the file as text, and a PIT entry `/Segment/<file>/<i>` is
  created for every segment and every face that asked for the file.

  The pipelines can end early, by an exception or by dereferencing a bad pointer.  The link
  layer catches `tlv::Error` around packet processing; any other exception ends the daemon.
-/

import NdnMulticast.Ndn.Uri
import NdnMulticast.Nfd.Strategy

namespace NdnMulticast.Nfd

open Lib Ndn Option

namespace State

/-! ## Interests -/

variable (env : Env) (s : State) (ingress : FacePtr) (id : EntryId) (i : Interest) (d : Data)

/-- `Forwarder::onInterestLoop`: the Nack does not go through the outgoing pipeline. -/
def onInterestLoop : State :=
  if (env.face ingress).linkType ≠ .pointToPoint then s
  else s.send (.nack ingress i .duplicate)

/-- Milliseconds until the last in-record of an entry expires. -/
def lastExpiryFromNow : Int :=
  match s.pit.get id with
  | none => 0
  | some e =>
    match e.inRecords with
    | [] => 0
    | r :: rs => ((rs.foldl (fun t r => max t r.expiry) r.expiry) - s.now).tdiv 1000000

/-- `Forwarder::onContentStoreMiss`; `actions` is what the strategy does. -/
def onContentStoreMiss (actions : List Strategy.Action) : State :=
  let s := s.count fun c => { c with nCsMisses := c.nCsMisses + 1 }
  let s := { s with pit := s.pit.insertOrUpdateInRecord id ingress i (getNonce i) s.now }
  let s := s.setExpiryTimer id (s.lastExpiryFromNow id)
  match i.nextHopFaceId with
  | some nextHop =>
    match s.faceTable.get nextHop with
    | some egress => s.onOutgoingInterest env id egress i
    | none => s
  | none => Strategy.actAll env s id actions

/-- `Forwarder::onContentStoreHit` with `Strategy::afterContentStoreHit`. -/
def onContentStoreHit : State :=
  let s := s.count fun c => { c with nCsHits := c.nCsHits + 1 }
  let s := s.modifyEntry id fun e =>
    { e with isSatisfied := true, dataFreshnessPeriod := d.getFreshnessPeriod }
  let s := s.setExpiryTimer id 0
  Strategy.sendData env s id d i.pitToken ingress

/-- A nonce seen on any record, but on a point-to-point link the same face may repeat its own. -/
def hasDuplicateNonceInPit (e : Entry) (nonce : List UInt8) (ingress : FacePtr) : Bool :=
  let inSame := e.inRecords.any fun r => r.lastNonce == nonce && r.face == ingress
  let inOther := e.inRecords.any fun r => r.lastNonce == nonce && r.face != ingress
  let out := e.outRecords.any fun r => r.lastNonce == nonce
  (inSame || inOther || out) && !((env.face ingress).linkType == .pointToPoint && inSame)

def isInProducerRegion (hint : List Delegation) : Bool :=
  env.networkRegions.any fun region => hint.any fun del => del.name.isPrefixOf region

/-- The forwarding hint is stripped once the producer region is reached. -/
def stripForwardingHint : Interest :=
  { i with
    forwardingHint := if isInProducerRegion env i.forwardingHint then [] else i.forwardingHint }

/-- The Interest as the incoming pipeline sees it after HopLimit and nonce. -/
def receiveInterest (freshNonce : List UInt8) : Interest :=
  { i with hopLimit := i.hopLimit.map (· - 1), nonce := some (i.nonce.getD freshNonce) }

/-- The Content Store lookup with its two continuations. -/
def lookupContentStore (actions : List Strategy.Action) : Outcome :=
  match s.cs.find env.sha256 i s.now with
  | .error fault => ⟨s, some fault⟩
  | .ok (some d, cs) => ⟨{ s with cs }.onContentStoreHit env ingress id i d, none⟩
  | .ok (none, cs) => ⟨{ s with cs }.onContentStoreMiss env ingress id i actions, none⟩

/-- `Forwarder::onIncomingInterest` from the PIT insertion on. -/
def processInterest (actions : List Strategy.Action) : Outcome :=
  let (id, pit) := s.pit.insert i
  let s := { s with pit }
  match pit.get id with
  | none => ⟨s, none⟩
  | some e =>
    if hasDuplicateNonceInPit env e (getNonce i) ingress then
      ⟨s.onInterestLoop env ingress i, none⟩
    else if e.hasInRecords then ⟨s.onContentStoreMiss env ingress id i actions, none⟩
    else s.lookupContentStore env ingress id i actions

/-- `Forwarder::onIncomingInterest`.  `freshNonce` is the nonce drawn for an
    Interest that has none. -/
def onIncomingInterest (freshNonce : List UInt8) (actions : List Strategy.Action) : Outcome :=
  let s := s.count fun c => { c with nInInterests := c.nInInterests + 1 }
  if i.hopLimit = some 0 then ⟨s, none⟩
  else
    let i := receiveInterest i freshNonce
    if isViolatingLocalhost env ingress i.name then ⟨s, none⟩
    else if s.deadNonceList.has env i.name (getNonce i) then ⟨s.onInterestLoop env ingress i, none⟩
    else s.processInterest env ingress (stripForwardingHint env i) actions

/-! ## The segment entries of a file -/

/-- The prefix `/File`. -/
def filePrefix : Name := [Component.ofString "File"]

/-- `std::stoi` on the content of a Data and on whatever follows it in the packet. -/
def segmentCount : Except Fault Int :=
  match d.content with
  | none => .error (.raised (.logicError "basic_string: construction from null is not valid"))
  | some content =>
    match stoi (content.value ++ content.after) with
    | .ok n => .ok n
    | .error .invalidArgument => .error (.raised (.invalidArgument "stoi"))
    | .error .outOfRange => .error (.raised (.outOfRange "stoi"))

/-- `fileName` of `onIncomingData`. -/
def fileName : List UInt8 := (d.name.getSubName 1 1).toUri env.altUri

/-- The name of a segment, built as text and parsed. -/
def segmentName (segment : Nat) : Raises Name :=
  Name.fromUri (ascii "/Segment" ++ fileName env d ++ ascii "/" ++ decimal segment)

/-- The Interest built for a segment; its nonce is drawn on first use. -/
def segmentInterest (name : Name) (nonce : List UInt8) : Interest :=
  { name, canBePrefix := false, mustBeFresh := false, forwardingHint := [], nonce := some nonce,
    interestLifetime := 200000, hopLimit := none, parameters := [], nextHopFaceId := none,
    pitToken := none }

/-- An entry, found or created, with an in-record for each face; its expiry timer is not set. -/
def createSegmentEntry (faces : List FacePtr) (i : Interest) : State :=
  let (id, pit) := s.pit.insert i
  let addRecord := fun (pit : Pit) face => pit.insertOrUpdateInRecord id face i (getNonce i) s.now
  { s with pit := faces.foldl addRecord pit }

/-- The loop over the segments. -/
def createSegmentEntries (env : Env) (d : Data) (nonces : Nat → List UInt8)
    (faces : List FacePtr) : List Nat → State → Outcome
  | [], s => ⟨s, none⟩
  | segment :: segments, s =>
    match segmentName env d segment with
    | .error exc => ⟨s, some (.raised exc)⟩
    | .ok name =>
      createSegmentEntries env d nonces faces segments
        (s.createSegmentEntry faces (segmentInterest name (nonces segment)))

/-- What the single-match branch does first: nothing unless the Data is under `/File`. -/
def prepareSegments (nonces : Nat → List UInt8) (id : EntryId) : Outcome :=
  if filePrefix.isPrefixOf d.name then
    match segmentCount d with
    | .error fault => ⟨s, some fault⟩
    | .ok count =>
      let faces := ((s.pit.get id).map Entry.inFaces).getD []
      createSegmentEntries env d nonces faces (List.range count.toNat) s
  else ⟨s, none⟩

/-! ## Data -/

/-- `UnsolicitedDataPolicy::decide`. -/
def admitsUnsolicited : Bool :=
  match env.unsolicitedDataPolicy, (env.face ingress).scope with
  | .dropAll, _ => false
  | .admitLocal, scope => scope == .isLocal
  | .admitNetwork, scope => scope == .nonLocal
  | .admitAll, _ => true

def onDataUnsolicited : State :=
  let s := if admitsUnsolicited env ingress then
      { s with cs := s.cs.insert env.sha256 d true s.now }
    else s
  s.count fun c => { c with nUnsolicitedData := c.nUnsolicitedData + 1 }

/-- Satisfied, dead nonces, out-record of the upstream. -/
def satisfyEntry (ingress : FacePtr) (d : Data) : State :=
  let s := s.modifyEntry id fun e =>
    { e with isSatisfied := true, dataFreshnessPeriod := d.getFreshnessPeriod }
  s.insertDeadNonceList env id (some ingress)

/-- The single-match branch. -/
def onSingleMatch (nonces : Nat → List UInt8) (rate : FacePtr → Int) (id : EntryId) : Outcome :=
  let prepared := s.prepareSegments env d nonces id
  if prepared.fault.isSome then prepared
  else
    let s := prepared.state.setExpiryTimer id 0
    let delivered := Strategy.sendDataToAll env rate s id ingress d
    if delivered.fault.isSome then delivered
    else
      let s := delivered.state.satisfyEntry env id ingress d
      ⟨s.modifyEntry id (·.deleteOutRecord ingress), none⟩

/-- One iteration of the multi-match branch. -/
def satisfyMatch (s : State) (id : EntryId) : State :=
  let s := s.setExpiryTimer id 0
  let s := s.satisfyEntry env id ingress d
  s.modifyEntry id fun e => e.clearInRecords.deleteOutRecord ingress

/-- `pendingDownstreams` of the multi-match branch. -/
def pendingOfMatches (ids : List EntryId) : List FacePtr :=
  ((ids.flatMap fun id =>
    match s.pit.get id with
    | none => []
    | some e => (e.inRecords.filter fun r => decide (s.now < r.expiry)).map InRecord.face).dedup
      ).insertionSort (· ≤ ·)

/-- The multi-match branch. -/
def onMultipleMatches (ids : List EntryId) : State :=
  let pending := s.pendingOfMatches ids
  let s := ids.foldl (satisfyMatch env ingress d) s
  let egresses := pending.filter fun p =>
    !(s.faceTable.getId p == s.faceTable.getId ingress && (env.face p).linkType != .adHoc)
  egresses.foldl (fun s p => s.onOutgoingData env d p none) s

/-- The state in which a solicited Data is processed: counted, and inserted into
    the Content Store. -/
@[simps!] def cacheData : State :=
  { s.count fun c => { c with nInData := c.nInData + 1 } with
    cs := s.cs.insert env.sha256 d false s.now }

def onIncomingData (nonces : Nat → List UInt8) (rate : FacePtr → Int) : Outcome :=
  if isViolatingLocalhost env ingress d.name then
    ⟨s.count fun c => { c with nInData := c.nInData + 1 }, none⟩
  else
    match s.pit.findAllDataMatches env.sha256 d with
    | [] =>
      ⟨(s.count fun c => { c with nInData := c.nInData + 1 }).onDataUnsolicited env ingress d, none⟩
    | [id] => (s.cacheData env d).onSingleMatch env ingress d nonces rate id
    | ids => ⟨(s.cacheData env d).onMultipleMatches env ingress d ids, none⟩

/-! ## Nacks and faces -/

def onIncomingNack (reason : NackReason) (actions : List Strategy.Action) : State :=
  let s := s.count fun c => { c with nInNacks := c.nInNacks + 1 }
  if (env.face ingress).linkType ≠ .pointToPoint then s
  else
    match s.pit.find i with
    | none => s
    | some id =>
      match (s.pit.get id).bind (·.getOutRecord ingress) with
      | none => s
      | some r =>
        if getNonce i ≠ r.lastNonce then s
        else
          let s := s.modifyEntry id (·.setIncomingNack ingress reason)
          let pending := ((s.pit.get id).map (·.hasPendingOutRecords s.now)).getD false
          let s := if pending then s else s.setExpiryTimer id 0
          Strategy.actAll env s id actions

/-- A face operation; a face about to be removed loses its PIT records first. -/
def onFaceOp (op : FaceTable.Op) : Option State :=
  match s.faceTable.step env.face op with
  | none => none
  | some faceTable =>
    match op with
    | .closed p => some { s with faceTable, pit := s.pit.deleteInOutRecords p }
    | _ => some { s with faceTable }

end State

/-! ## The daemon -/

/-- A network packet as the link service hands it over. -/
structure Frame where
  wire : List UInt8
  nextHopFaceId : Option Nat
  pitToken : Option (List UInt8)
  noCache : Bool
deriving DecidableEq, Repr

namespace Frame

/-- `Nfd::Nfd` has called `Interest::setAutoCheckParametersDigest(false)`. -/
def decodeInterest (env : Env) (f : Frame) : Option Interest :=
  match (Block.fromBuffer f.wire).bind (Interest.wireDecode false env.sha256) with
  | .ok i => some { i with nextHopFaceId := f.nextHopFaceId, pitToken := f.pitToken }
  | .error _ => none

def decodeData (f : Frame) : Option Data :=
  match (Block.fromBuffer f.wire).bind Data.wireDecode with
  | .ok d => some { d with noCache := f.noCache }
  | .error _ => none

theorem decodeInterest_wellFormed {env : Env} {f : Frame} {i : Interest}
    (h : f.decodeInterest env = some i) : i.name.WellFormed := by
  unfold decodeInterest at h
  split at h
  · rename_i i' hdecode
    obtain ⟨b, -, hdecode⟩ := bind_eq_ok_iff.1 hdecode
    have hname := Interest.wireDecode_wellFormed hdecode
    obtain rfl := some.inj h
    exact hname
  · cases h

theorem decodeData_wellFormed {f : Frame} {d : Data} (h : f.decodeData = some d) :
    d.name.WellFormed := by
  unfold decodeData at h
  split at h
  · rename_i d' hdecode
    obtain ⟨b, -, hdecode⟩ := bind_eq_ok_iff.1 hdecode
    have hname := Data.wireDecode_wellFormed hdecode
    obtain rfl := some.inj h
    exact hname
  · cases h

end Frame

inductive Event where
  | interest (ingress : FacePtr) (frame : Frame) (freshNonce : List UInt8)
      (actions : List Strategy.Action)
  | data (ingress : FacePtr) (frame : Frame) (nonces : Nat → List UInt8) (rate : FacePtr → Int)
  | nack (ingress : FacePtr) (frame : Frame) (reason : NackReason) (actions : List Strategy.Action)
  | face (op : FaceTable.Op)
  /-- The expiry timer of an entry fires. -/
  | expiry (id : EntryId)
  /-- A timer of the strategy fires for an entry. -/
  | strategy (id : EntryId) (actions : List Strategy.Action)
  | markNonces
  | adjustNonces (down up : Nat)
  | tick (ns : Nat)

/-- `tlv::Error` is caught around the processing of a packet, everything else ends the daemon. -/
def Outcome.survive (o : Outcome) : Option State :=
  match o.fault with
  | none => some o.state
  | some (.raised (.tlvError _)) => some o.state
  | some _ => none

/-- The state at the beginning of an event: nothing has been sent for it. -/
@[simps] def State.beginEvent (s : State) : State := { s with sent := [] }

/-- A packet that does not decode is dropped. -/
def dropOr {α : Type} (s : State) (packet : Option α) (process : α → Option State) : Option State :=
  match packet with
  | none => some s
  | some p => process p

/-- One event.  Packets come from faces in the table; a timer fires when it is due. -/
def step (env : Env) (s : State) (e : Event) : Option State :=
  let s := s.beginEvent
  match e with
  | .interest ingress frame freshNonce actions =>
    if ingress ∈ s.faceTable.ptrs then
      dropOr s (frame.decodeInterest env) fun i =>
        (s.onIncomingInterest env ingress i freshNonce actions).survive
    else none
  | .data ingress frame nonces rate =>
    if ingress ∈ s.faceTable.ptrs then
      dropOr s frame.decodeData fun d => (s.onIncomingData env ingress d nonces rate).survive
    else none
  | .nack ingress frame reason actions =>
    if ingress ∈ s.faceTable.ptrs then
      dropOr s (frame.decodeInterest env) fun i =>
        some (s.onIncomingNack env ingress i reason actions)
    else none
  | .face op => s.onFaceOp env op
  | .expiry id =>
    match (s.pit.get id).bind Entry.expiryTimer with
    | some due => if due ≤ s.now then some (s.onInterestFinalize env id) else none
    | none => none
  | .strategy id actions => some (Strategy.actAll env s id actions)
  | .markNonces => some { s with deadNonceList := s.deadNonceList.addMark }
  | .adjustNonces down up => some { s with deadNonceList := s.deadNonceList.adjustCapacity down up }
  | .tick ns => some { s with now := s.now + ns }

section

variable {env : Env} {s s' : State} {ingress : FacePtr} {frame : Frame}

theorem step_interest {freshNonce : List UInt8} {actions : List Strategy.Action}
    (h : step env s (.interest ingress frame freshNonce actions) = some s') :
    frame.decodeInterest env = none ∧ s' = s.beginEvent ∨ ∃ i, frame.decodeInterest env = some i ∧
      (s.beginEvent.onIncomingInterest env ingress i freshNonce actions).survive = some s' := by
  simp only [step, dropOr] at h
  split at h
  · grind
  · cases h

theorem step_data {nonces : Nat → List UInt8} {rate : FacePtr → Int}
    (h : step env s (.data ingress frame nonces rate) = some s') :
    frame.decodeData = none ∧ s' = s.beginEvent ∨ ∃ d, frame.decodeData = some d ∧
      (s.beginEvent.onIncomingData env ingress d nonces rate).survive = some s' := by
  simp only [step, dropOr] at h
  split at h
  · grind
  · cases h

theorem step_nack {reason : NackReason} {actions : List Strategy.Action}
    (h : step env s (.nack ingress frame reason actions) = some s') :
    s' = s.beginEvent ∨ ∃ i, frame.decodeInterest env = some i ∧
      s' = s.beginEvent.onIncomingNack env ingress i reason actions := by
  simp only [step, dropOr] at h
  split at h
  · grind
  · cases h

theorem step_expiry {id : EntryId} (h : step env s (.expiry id) = some s') :
    s' = s.beginEvent.onInterestFinalize env id := by
  simp only [step] at h
  split at h
  · split at h
    · exact (some.inj h).symm
    · cases h
  · cases h

end

theorem Outcome.survive_state {o : Outcome} {s : State} (h : o.survive = some s) : s = o.state := by
  unfold Outcome.survive at h
  split at h
  · exact (some.inj h).symm
  · exact (some.inj h).symm
  · cases h

/-! ## A router

A router of the testbed the fork is written for, on which the runs that break a
property are exhibited: an application (1), two consumers behind the wireless
interface (2 and 3), the multicast face of that interface (4) and two wired
upstreams (5 and 6). -/

namespace Router

def face : FacePtr → Face
  | 1 => ⟨.isLocal, .pointToPoint, "", "22"⟩
  | 2 => ⟨.nonLocal, .pointToPoint, wirelessHost, "02:00:00:00:00:02"⟩
  | 3 => ⟨.nonLocal, .pointToPoint, wirelessHost, "02:00:00:00:00:03"⟩
  | 4 => ⟨.nonLocal, .multiAccess, wirelessHost, multicastGroup⟩
  | 5 => ⟨.nonLocal, .pointToPoint, "eth0", "02:00:00:00:00:05"⟩
  | _ => ⟨.nonLocal, .pointToPoint, "eth0", "02:00:00:00:00:06"⟩

/-- Hash functions are stood for by constant-length and length-dependent ones. -/
def env : Env where
  face := face
  altUri := true
  sha256 := fun _ => List.replicate 32 0
  cityHash64WithSeed := fun bs seed => bs.length + seed + 1
  networkRegions := []
  unsolicitedDataPolicy := .dropAll

def start : State := State.init 0 none 100

/-- The events that add faces. -/
def boot (faces : List FacePtr) : List Event := faces.map fun p => .face (.add p)

def element (type : Nat) (value : List UInt8) : List UInt8 :=
  Tlv.writeVarNumber type ++ Tlv.writeVarNumber value.length ++ value

def frame (wire : List UInt8) : Frame := ⟨wire, none, none, false⟩

def name (components : List String) : List UInt8 :=
  element Tlv.name (components.flatMap fun c => element Tlv.genericNameComponent (ascii c))

/-- An Interest with the given nonce octet and other fields. -/
def interest (ingress : FacePtr) (components : List String) (nonce : UInt8)
    (actions : List Strategy.Action) : Event :=
  .interest ingress
    (frame (element Tlv.interest (name components ++ element Tlv.nonce [0, 0, 0, nonce])))
    [] actions

/-- The Interest `/a` with a nonce octet, as the strategy passes it on. -/
def pendingInterest (nonce : UInt8) : Interest :=
  { Interest.blank [Component.ofString "a"] with nonce := some [0, 0, 0, nonce] }

/-- A Data with the given elements after its name, and an empty signature. -/
def dataFrame (components : List String) (elements : List UInt8) : Frame :=
  frame (element Tlv.data (name components ++ elements ++
    element Tlv.signatureInfo (element Tlv.signatureType [0]) ++ element Tlv.signatureValue []))

def data (ingress : FacePtr) (components : List String) (elements : List UInt8) : Event :=
  .data ingress (dataFrame components elements) (fun _ => [0, 0, 0, 9]) (fun _ => 540)

def content (text : String) : List UInt8 := element Tlv.content (ascii text)

/-- The application has asked for `/File/a`. -/
def asked : List Event := boot [1, 5] ++ [interest 1 ["File", "a"] 1 []]

/-- The state in which the reply to that Interest is awaited. -/
def waiting : State := (asked.foldlM (step env) start).get (by decide)

theorem run_waiting : Run (step env) (fun _ _ => True) start asked waiting :=
  Run.of_foldlM (some_get _).symm

/-- Both consumers behind the wireless interface have asked for `/a`. -/
def shared : List Event :=
  boot [2, 3, 4, 5, 6] ++ [interest 2 ["a"] 1 [], interest 3 ["a"] 2 []]

/-- The state in which the reply to both Interests is awaited. -/
def sharing : State := (shared.foldlM (step env) start).get (by decide)

theorem run_sharing : Run (step env) (fun _ _ => True) start shared sharing :=
  Run.of_foldlM (some_get _).symm

end Router

end NdnMulticast.Nfd
