/-
  The state of the forwarder, the dead nonce list and the pipelines that end a packet's way
  through it: outgoing Interest, outgoing Data, outgoing Nack, the expiry timer and the dead
  nonce list insertion of `daemon/fw/forwarder.cpp`.

  Times are in nanoseconds of the steady clock, durations of the packet format in
  milliseconds.
-/

import NdnMulticast.Nfd.Cs

namespace NdnMulticast.Nfd

open Lib Ndn

inductive UnsolicitedDataPolicy where
  | dropAll
  | admitLocal
  | admitNetwork
  | admitAll
deriving DecidableEq, Repr

/-- What does not change as the daemon runs: faces, configuration, functions of other libraries. -/
structure Env where
  face : FacePtr → Face
  /-- The environment does not ask for canonical URIs. -/
  altUri : Bool
  sha256 : List UInt8 → List UInt8
  cityHash64WithSeed : List UInt8 → Nat → Nat
  networkRegions : List Name
  unsolicitedDataPolicy : UnsolicitedDataPolicy

/-! ## Dead nonce list -/

structure DeadNonceList where
  queue : List Nat
  capacity : Nat
  actualMarkCounts : List Nat

namespace DeadNonceList

def mark : Nat := 0
def expectedMarkCount : Nat := 5
def minCapacity : Nat := 2 ^ 3
def maxCapacity : Nat := 2 ^ 24
def evictLimit : Nat := 2 ^ 6

/-- `DEFAULT_LIFETIME`: six seconds, in nanoseconds. -/
def lifetime : Int := 6000000000

def init : DeadNonceList := ⟨List.replicate expectedMarkCount mark, 2 ^ 7, []⟩

variable (env : Env) (l : DeadNonceList) (n : Name) (nonce : List UInt8)

def evictEntries : DeadNonceList :=
  { l with queue := l.queue.drop (min (l.queue.length - l.capacity) evictLimit) }

/-- `DeadNonceList::makeEntry`.  The nonce is read as a little-endian number. -/
def makeEntry : Nat :=
  let value := n.wireValue
  env.cityHash64WithSeed
    (Tlv.writeVarNumber Tlv.name ++ Tlv.writeVarNumber value.length ++ value)
    (Tlv.bigEndian nonce.reverse)

def has : Bool :=
  l.queue.contains (makeEntry env n nonce)

def add : DeadNonceList :=
  evictEntries { l with queue := l.queue ++ [makeEntry env n nonce] }

/-- `DeadNonceList::mark`. -/
def addMark : DeadNonceList :=
  let queue := l.queue ++ [mark]
  { l with queue, actualMarkCounts := queue.count mark :: l.actualMarkCounts }

/-- The products with 0.9 and 1.2 are taken in floating point; `down` and `up` are their results. -/
def adjustCapacity (down up : Nat) : DeadNonceList :=
  let capacity :=
    if l.actualMarkCounts.all (expectedMarkCount < ·) then max minCapacity down
    else if l.actualMarkCounts.all (· < expectedMarkCount) then min maxCapacity up
    else l.capacity
  evictEntries { l with capacity, actualMarkCounts := [] }

end DeadNonceList

/-! ## State -/

structure Counters where
  nInInterests : Nat
  nInData : Nat
  nInNacks : Nat
  nOutInterests : Nat
  nOutData : Nat
  nOutNacks : Nat
  nCsHits : Nat
  nCsMisses : Nat
  nSatisfiedInterests : Nat
  nUnsatisfiedInterests : Nat
  nUnsolicitedData : Nat
deriving DecidableEq, Repr

def Counters.init : Counters := ⟨0, 0, 0, 0, 0, 0, 0, 0, 0, 0, 0⟩

/-- What leaves the daemon. -/
inductive Output where
  | interest (egress : FacePtr) (i : Interest)
  | data (egress : FacePtr) (d : Data) (pitToken : Option (List UInt8))
  | nack (egress : FacePtr) (i : Interest) (reason : NackReason)
  /-- `set_rate` on an interface, in tenths of a megabit per second. -/
  | setRate (host : String) (rate : Int)
deriving DecidableEq, Repr

structure State where
  now : Int
  faceTable : FaceTable
  pit : Pit
  cs : Cs
  deadNonceList : DeadNonceList
  counters : Counters
  sent : List Output

namespace State

/-- The daemon after start-up, at a given time. -/
def init (now : Int) (garbage : Option FacePtr) (csLimit : Nat) : State :=
  ⟨now, .init garbage, .init, .init csLimit, .init, .init, []⟩

variable (env : Env) (s : State) (id : EntryId) (egress : FacePtr)

/-- Applies an update to one PIT entry. -/
@[simps] def modifyEntry (f : Entry → Entry) : State :=
  { s with pit := s.pit.modify id f }

@[simps] def send (o : Output) : State := { s with sent := s.sent ++ [o] }

@[simps] def count (f : Counters → Counters) : State := { s with counters := f s.counters }

/-- The prefix `/localhost`. -/
def localhost : Name := [Component.ofString "localhost"]

def setExpiryTimer (duration : Int) : State :=
  s.modifyEntry id fun e => { e with expiryTimer := some (s.now + max duration 0 * 1000000) }

/-- Whether an entry's nonces must go to the dead nonce list. -/
def needDnl (e : Entry) : Bool :=
  !e.isSatisfied ||
    (e.interest.mustBeFresh &&
      decide (toNanoseconds e.dataFreshnessPeriod < DeadNonceList.lifetime))

/-- `Forwarder::insertDeadNonceList`; `none` stands for no particular upstream. -/
def insertDeadNonceList (upstream : Option FacePtr) : State :=
  match s.pit.get id with
  | none => s
  | some e =>
    if needDnl e then
      let records := match upstream with
        | none => e.outRecords
        | some face => (e.getOutRecord face).toList
      { s with
        deadNonceList := records.foldl (fun l r => l.add env e.name r.lastNonce) s.deadNonceList }
    else s

/-- `Interest::getNonce`; the incoming pipeline has drawn a nonce if there was none. -/
def getNonce (i : Interest) : List UInt8 := i.nonce.getD []

def onOutgoingInterest (i : Interest) : State :=
  if i.hopLimit = some 0 ∧ (env.face egress).scope = .nonLocal then s
  else
    let s := s.modifyEntry id fun e => e.insertOrUpdateOutRecord egress i (getNonce i) s.now
    let s := s.send (.interest egress i)
    s.count fun c => { c with nOutInterests := c.nOutInterests + 1 }

/-- `isViolatingLocalhost`: a name under `/localhost` on a non-local face. -/
def isViolatingLocalhost (face : FacePtr) (n : Name) : Bool :=
  (env.face face).scope == .nonLocal && localhost.isPrefixOf n

/-- The face is in the table, and a non-local face is not given Data under `/localhost`. -/
def canSendData (t : FaceTable) (d : Data) (egress : FacePtr) : Bool :=
  t.getId egress != invalidFaceId && !isViolatingLocalhost env egress d.name

def onOutgoingData (d : Data) (egress : FacePtr) (pitToken : Option (List UInt8)) : State :=
  if canSendData env s.faceTable d egress then
    let s := s.send (.data egress d pitToken)
    s.count fun c => { c with nOutData := c.nOutData + 1 }
  else s

/-- `Forwarder::onOutgoingNack`: the in-record is consumed. -/
def onOutgoingNack (reason : NackReason) : State :=
  match (s.pit.get id).bind (·.getInRecord egress) with
  | none => s
  | some r =>
    if s.faceTable.getId egress = invalidFaceId then s
    else if (env.face egress).linkType ≠ .pointToPoint then s
    else
      let s := s.modifyEntry id (·.deleteInRecord egress)
      let s := s.send (.nack egress r.interest reason)
      s.count fun c => { c with nOutNacks := c.nOutNacks + 1 }

def onInterestFinalize : State :=
  match s.pit.get id with
  | none => s
  | some e =>
    let s := s.insertDeadNonceList env id none
    let s := s.count fun c =>
      if e.isSatisfied then { c with nSatisfiedInterests := c.nSatisfiedInterests + 1 }
      else { c with nUnsatisfiedInterests := c.nUnsatisfiedInterests + 1 }
    { s with pit := s.pit.erase id }

end State

end NdnMulticast.Nfd
