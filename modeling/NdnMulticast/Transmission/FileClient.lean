/-
  The consumer, `transmission/FileClient.hpp` (and the same class for Python,
  `transmission/python-consumer/client.cxx`), on the part of `ndn::Face` it uses.

  A read hands over all its packets before posted handlers run, so Data that comes in one read
  with the reply to `/File` finds no Interest to satisfy.  Memory that was never written is
  part of the model: a cell of the buffer may be unknown, so may the size of the last segment,
  and before the first reply there is no buffer at all.
-/

import NdnMulticast.Transmission.FileServer

namespace NdnMulticast.Transmission

open Lib Ndn Nfd

/-- A name whose Interest can be sent, with the component of the file; its last one is no digest. -/
structure Request where
  name : Name
  file : Component
  underFile : State.filePrefix.isPrefixOf name = true
  file_eq : name[1]? = some file
  valid : Component.isValid file.type file.value = true
  noDigest : file.isImplicitSha256Digest = false
  noParameters : Interest.parametersDigestComponents name = []
  wellFormed : name.WellFormed

/-- The Data callback bound to an Interest; the buffer and the size cell bound too are those
    `onFile` has just set. -/
inductive Callback where
  | onFile (fileName : List UInt8)
  | onSegment (segment : Int)
  | onLastSegment (segment : Int)
deriving DecidableEq, Repr

structure PendingInterest where
  interest : Interest
  callback : Callback
deriving DecidableEq, Repr

/-- What `m_buffer` and `m_size` point to, and `m_segment`. -/
structure Memory where
  buffer : List (Option UInt8)
  lastSize : Option Int
  segment : Int
deriving DecidableEq, Repr

structure Client where
  /-- `m_pendingInterestTable`. -/
  pending : List PendingInterest
  /-- Interests whose handler has been posted and has not run. -/
  posted : List PendingInterest
  /-- `none` while the members have not been set. -/
  memory : Option Memory
deriving DecidableEq, Repr

/-- The Interests of the consumer; nothing here reads the nonce. -/
def expressed (name : Name) : Interest where
  name := name
  canBePrefix := false
  mustBeFresh := false
  forwardingHint := []
  nonce := none
  interestLifetime := 100000
  hopLimit := none
  parameters := []
  nextHopFaceId := none
  pitToken := none

/-- The content of a Data; an absent one is empty. -/
def contentOf (d : Data) : List UInt8 := (d.content.map Block.value).getD []

/-- An Interest for a segment, built from its name as text. -/
def expressSegment (fileName : List UInt8) (segment : Int) (callback : Callback) :
    Except Fault PendingInterest := do
  let name ← (Name.fromUri (segmentUri fileName (decimalInt segment))).mapError .raised
  return ⟨expressed name, callback⟩

/-- The loop `buffer[i+bias] = content[i]`, with `int` indices. -/
def store (buffer : List (Option UInt8)) (segment : Int) (content : List UInt8) :
    Except Fault (List (Option UInt8)) :=
  let bias := segment * maxSegmentSize
  if isInt bias = false then .error .undefinedBehavior
  else if content = [] then .ok buffer
  else if 0 ≤ bias ∧ bias + content.length ≤ buffer.length ∧ bias + content.length ≤ 2 ^ 31 then
    .ok (writeAt buffer bias.toNat (content.map some))
  else .error .undefinedBehavior

namespace Client

/-- `malloc` leaves the memory as it is; for a negative count it is asked for more than there is,
    and no cell may be used. -/
def onFile (c : Client) (fileName : List UInt8) (d : Data) : Except Fault Client := do
  let segmentNumber ← State.segmentCount d
  let segment := segmentNumber - 1
  if isInt segment = false then .error .undefinedBehavior
  else
    let others ← (List.range segment.toNat).mapM fun k : Nat =>
      expressSegment fileName k (.onSegment k)
    let last ← expressSegment fileName segment (.onLastSegment segment)
    return { c with
      posted := c.posted ++ (others ++ [last])
      memory := some ⟨List.replicate (segmentNumber * maxSegmentSize).toNat none, none, segment⟩ }

def onSegment (c : Client) (segment : Int) (d : Data) : Except Fault Client :=
  match c.memory with
  | none => .error .undefinedBehavior
  | some m => do
      let buffer ← store m.buffer segment (contentOf d)
      return { c with memory := some { m with buffer } }

def onLastSegment (c : Client) (segment : Int) (d : Data) : Except Fault Client :=
  match c.memory with
  | none => .error .undefinedBehavior
  | some m => do
      let buffer ← store m.buffer segment (contentOf d)
      return { c with
        memory := some { m with buffer, lastSize := some (toInt32 (contentOf d).length) } }

def invokeDataCallback (c : Client) (d : Data) : Callback → Except Fault Client
  | .onFile fileName => c.onFile fileName d
  | .onSegment segment => c.onSegment segment d
  | .onLastSegment segment => c.onLastSegment segment d

def satisfyPendingInterests (sha256 : List UInt8 → List UInt8) (c : Client) (d : Data) :
    Except Fault Client :=
  (c.pending.filter fun e => e.interest.matchesData sha256 d).foldlM
    (fun c e => c.invokeDataCallback d e.callback)
    { c with pending := c.pending.filter fun e => !e.interest.matchesData sha256 d }

end Client

/-- A packet from the forwarder.  A Nack carries the Interest it is about. -/
inductive Packet where
  | data (wire : List UInt8)
  | nack (interest : Interest)

inductive Event where
  /-- A read from the socket and the packets in it. -/
  | receive (packets : List Packet)
  /-- The lifetime of the Interest with this name ends. -/
  | timeout (name : Name)

namespace Client

/-- Each Interest has gone to one destination, so the first Nack removes it; `onNack` and
    `onTimeout` only print. -/
def onReceiveElement (sha256 : List UInt8 → List UInt8) (c : Client) : Packet → Except Fault Client
  | .data wire =>
    match (Block.fromBuffer wire).bind Data.wireDecode with
    | .error e => .error (.raised e)
    | .ok d => c.satisfyPendingInterests sha256 d
  | .nack i => .ok { c with pending := c.pending.filter fun e => !i.matchesInterest e.interest }

/-- The posted handlers run. -/
def runPosted (c : Client) : Client :=
  { c with pending := c.pending ++ c.posted, posted := [] }

def handle (sha256 : List UInt8 → List UInt8) (c : Client) : Event → Except Fault Client
  | .receive packets => do
      let c ← packets.foldlM (onReceiveElement sha256) c
      return c.runPosted
  | .timeout name =>
    .ok { c with pending := c.pending.eraseP fun e => e.interest.name.equals name }

/-- It returns once no Interest is pending; `none`: it is still waiting after the events. -/
def processEvents (sha256 : List UInt8 → List UInt8) :
    List Event → Client → Except Fault (Option Client)
  | [], c => .ok (if c.pending = [] then some c else none)
  | ev :: evs, c =>
    if c.pending = [] then .ok (some c)
    else do
      let c ← c.handle sha256 ev
      processEvents sha256 evs c

end Client

/-- What a call of `getFile` comes to. -/
inductive Result where
  | waiting
  | raised (e : Exception)
  | undefined
  | notOpened
  | wrote (cells : List (Option UInt8))
deriving DecidableEq, Repr

/-- `file.write(m_buffer, m_segment*MAX_SEGMENT_SIZE+*m_size)`. -/
def writeOut : Option Memory → Result
  | none => .undefined
  | some m =>
    match m.lastSize with
    | none => .undefined
    | some size =>
      let length := m.segment * maxSegmentSize + size
      if isInt (m.segment * maxSegmentSize) = true ∧ isInt length = true ∧ 0 ≤ length ∧
          length ≤ m.buffer.length then
        .wrote (m.buffer.take length.toNat)
      else .undefined

/-- `FileClient::getFile` on the events that happen, with the members an earlier call may have
    left.  `openable`: the output file can be opened. -/
def getFile (sha256 : List UInt8 → List UInt8) (altUri : Bool) (r : Request) (openable : Bool)
    (memory : Option Memory) (evs : List Event) : Result :=
  let fileName := (r.name.getSubName 1 1).toUri altUri
  match Client.processEvents sha256 evs ⟨[⟨expressed r.name, .onFile fileName⟩], [], memory⟩ with
  | .error (.raised e) => .raised e
  | .error .undefinedBehavior => .undefined
  | .ok none => .waiting
  | .ok (some c) => if openable then writeOut c.memory else .notOpened

/-! ## What reached the consumer -/

namespace Packet

def isData : Packet → Bool
  | .data _ => true
  | .nack _ => false

/-- The packet satisfies or nacks the Interest if it is pending. -/
def concerns (sha256 : List UInt8 → List UInt8) (i : Interest) : Packet → Bool
  | .data wire =>
    match (Block.fromBuffer wire).bind Data.wireDecode with
    | .ok d => i.matchesData sha256 d
    | .error _ => false
  | .nack n => n.matchesInterest i

end Packet

namespace Event

def packets : Event → List Packet
  | .receive packets => packets
  | .timeout _ => []

/-- The Interest is no longer pending after the event. -/
def concerns (sha256 : List UInt8 → List UInt8) (i : Interest) : Event → Bool
  | .receive packets => packets.any (Packet.concerns sha256 i)
  | .timeout name => i.name.equals name

/-- The event brings Data for the Interest, and no Nack before it. -/
def answers (sha256 : List UInt8 → List UInt8) (i : Interest) (ev : Event) : Bool :=
  (ev.packets.find? (Packet.concerns sha256 i)).any Packet.isData

end Event

/-- The events after the one that brings Data for an Interest; none if it is nacked or times out
    before, or nothing happens to it. -/
def answer (sha256 : List UInt8 → List UInt8) (i : Interest) : List Event → Option (List Event)
  | [] => none
  | ev :: evs =>
    if ev.concerns sha256 i then if ev.answers sha256 i then some evs else none
    else answer sha256 i evs

/-- The name of a segment of the requested file. -/
def Request.segmentName (r : Request) (altUri : Bool) (segment : Int) : Name :=
  [segmentPrefix, reparsed altUri r.file, numberComponent segment]

/-- The reply to `/File` arrives, and after it every segment that it announces. -/
def arrived (sha256 : List UInt8 → List UInt8) (altUri : Bool) (r : Request) (count : Int)
    (evs : List Event) : Bool :=
  (answer sha256 (expressed r.name) evs).any fun rest =>
    (List.range count.toNat).all fun k : Nat =>
      (answer sha256 (expressed (r.segmentName altUri k)) rest).isSome

namespace Result

/-- A cell that was never stored has some octet in it, and undefined behaviour excludes nothing. -/
def MayWrite : Result → List UInt8 → Prop
  | .undefined, _ => True
  | .wrote cells, bytes => List.Forall₂ (fun cell b => ∀ a ∈ cell, a = b) cells bytes
  | _, _ => False

/-- Whatever is written is the file. -/
def Faithful (file : List UInt8) (result : Result) : Prop :=
  ∀ bytes, result.MayWrite bytes → bytes = file

def WritesNothing (result : Result) : Prop := ∀ bytes, ¬ result.MayWrite bytes

end Result

end NdnMulticast.Transmission
