/-
  The part of `daemon/fw/strategy.cpp` that moves packets: `sendData`, `sendDataToAll` with the
  fork's substitution of the wireless multicast face, `sendNack`, `sendNacks` and
  `sendInterest`.

  What a strategy decides is a list of `Action`s.  `afterReceiveData` and
  `afterContentStoreHit` are those of the base class, which every bundled strategy but
  self-learning keeps.
-/

import Mathlib.Data.List.Sort
import NdnMulticast.Nfd.State

namespace NdnMulticast.Nfd

open Lib Ndn

/-- The state when processing ended, and why it ended early if it did. -/
structure Outcome where
  state : State
  fault : Option Fault

namespace Strategy

/-- The rate above any real one that `sendDataToAll` starts from, in tenths. -/
def initialRateThreshold : Int := 9990

/-- The loop over the pending downstreams: `wirelessCount` and `rateThreshold`.  `rate` is what
    `get_rate` answers. -/
def scanWireless (face : FacePtr → Face) (rate : FacePtr → Int) :
    List FacePtr → Int → Int → Int × Int
  | [], wirelessCount, rateThreshold => (wirelessCount, rateThreshold)
  | p :: ps, wirelessCount, rateThreshold =>
    if (face p).isWireless then
      let wirelessCount := wirelessCount + 1
      let rateThreshold := if rate p < rateThreshold then rate p else rateThreshold
      if (face p).remoteHost == multicastGroup || decide (0 < wirelessCount) then
        (wirelessCount + 1, rateThreshold)
      else scanWireless face rate ps wirelessCount rateThreshold
    else scanWireless face rate ps wirelessCount rateThreshold

/-- The branch that replaces unicast downstreams by the multicast face is taken. -/
def usesMulticast (face : FacePtr → Face) (pending : List FacePtr) : Bool :=
  decide (0 < (scanWireless face (fun _ => 0) pending (-1) initialRateThreshold).1)

variable (env : Env) (rate : FacePtr → Int) (s : State) (id : EntryId) (inFace : FacePtr) (d : Data)

/-- The in-record counts as a pending downstream of Data from `inFace`. -/
def isPending (r : InRecord) : Bool :=
  decide (s.now < r.expiry) &&
    !(s.faceTable.getId r.face == s.faceTable.getId inFace && (env.face r.face).linkType != .adHoc)

/-- `pendingDownstreams` of `sendDataToAll`, in the order of the `std::set`. -/
def pendingDownstreams : List FacePtr :=
  match s.pit.get id with
  | none => []
  | some e =>
    ((e.inRecords.filter (isPending env s inFace)).map InRecord.face).insertionSort (· ≤ ·)

/-- `Strategy::sendData`.  `ownToken` is the PIT token tag the Data carries. -/
def sendData (ownToken : Option (List UInt8)) (egress : FacePtr) : State :=
  let record := (s.pit.get id).bind (·.getInRecord egress)
  let token := (record.bind (·.interest.pitToken)).or ownToken
  (s.modifyEntry id (·.deleteInRecord egress)).onOutgoingData env d egress token

/-- The multicast face, if the recorded pointer may be dereferenced. -/
def derefMulticastFace (t : FaceTable) : Option FacePtr :=
  t.wirelessEtherMulticastFace.filter (· ∈ t.ptrs)

def sendDataToAll : Outcome :=
  let pending := pendingDownstreams env s id inFace
  let scan := scanWireless env.face rate pending (-1) initialRateThreshold
  if 0 < scan.1 then
    match derefMulticastFace s.faceTable with
    | none => ⟨s, some .undefinedBehavior⟩
    | some multicast =>
      let s := s.send (.setRate (env.face multicast).localHost scan.2)
      let s := sendData env s id d none multicast
      let others := pending.filter fun p => !(env.face p).isWireless
      ⟨others.foldl (fun s p => sendData env s id d none p) s, none⟩
  else ⟨pending.foldl (fun s p => sendData env s id d none p) s, none⟩

/-! ### Where `sendDataToAll` sends -/

theorem scanWireless_fst (face : FacePtr → Face) (rate rate' : FacePtr → Int) (ps : List FacePtr)
    (count thr thr' : Int) :
    (scanWireless face rate ps count thr).1 = (scanWireless face rate' ps count thr').1 := by
  induction ps generalizing count thr thr' with
  | nil => rfl
  | cons p ps ih =>
    simp only [scanWireless]
    split
    · split
      · rfl
      · exact ih _ _ _
    · exact ih _ _ _

/-- If the multicast face is to be used, it is there. -/
def canSendToAll (t : FaceTable) (pending : List FacePtr) : Bool :=
  !usesMulticast env.face pending || (derefMulticastFace t).isSome

/-- The faces a Data is sent to, in order. -/
def egressFaces (t : FaceTable) (pending : List FacePtr) : List FacePtr :=
  if usesMulticast env.face pending then
    match derefMulticastFace t with
    | none => []
    | some multicast => multicast :: pending.filter fun p => !(env.face p).isWireless
  else pending

/-- It stops at a bad pointer or sends to the egress faces one after the other, having set the rate
    if the multicast face is among them. -/
theorem sendDataToAll_cases :
    (canSendToAll env s.faceTable (pendingDownstreams env s id inFace) = false ∧
      sendDataToAll env rate s id inFace d = ⟨s, some .undefinedBehavior⟩) ∨
    (canSendToAll env s.faceTable (pendingDownstreams env s id inFace) = true ∧
      ∃ t, (t = s ∨ ∃ host r, t = s.send (.setRate host r)) ∧
        sendDataToAll env rate s id inFace d =
          ⟨(egressFaces env s.faceTable (pendingDownstreams env s id inFace)).foldl
            (fun s p => sendData env s id d none p) t, none⟩) := by
  have hscan := scanWireless_fst env.face rate (fun _ => 0)
    (pendingDownstreams env s id inFace) (-1) initialRateThreshold initialRateThreshold
  have hpos : 0 < (scanWireless env.face rate (pendingDownstreams env s id inFace) (-1)
      initialRateThreshold).1 ↔
        usesMulticast env.face (pendingDownstreams env s id inFace) = true := by
    rw [hscan]
    exact decide_eq_true_iff.symm
  by_cases hmulti : usesMulticast env.face (pendingDownstreams env s id inFace) = true
  · simp only [sendDataToAll, if_pos (hpos.2 hmulti), canSendToAll, egressFaces, hmulti]
    cases derefMulticastFace s.faceTable with
    | none => exact Or.inl ⟨rfl, rfl⟩
    | some multicast => exact Or.inr ⟨rfl, _, Or.inr ⟨_, _, rfl⟩, rfl⟩
  · simp only [sendDataToAll, if_neg (mt hpos.1 hmulti), canSendToAll, egressFaces, hmulti]
    exact Or.inr ⟨rfl, s, Or.inl rfl, rfl⟩

theorem sendDataToAll_fault_eq_none_iff :
    (sendDataToAll env rate s id inFace d).fault = none ↔
      canSendToAll env s.faceTable (pendingDownstreams env s id inFace) = true := by
  rcases sendDataToAll_cases env rate s id inFace d with ⟨hcan, h⟩ | ⟨hcan, t, -, h⟩
  · simp [h, hcan]
  · simp [h, hcan]

/-! ### Actions of a strategy -/

/-- What a strategy can do to a PIT entry when it is triggered. -/
inductive Action where
  | sendInterest (egress : FacePtr) (i : Interest)
  | sendNack (egress : FacePtr) (reason : NackReason)
  | sendNacks (reason : NackReason) (exceptFaces : List FacePtr)
  /-- `setExpiryTimer`; with zero it is `rejectPendingInterest`. -/
  | setExpiryTimer (duration : Int)
deriving DecidableEq, Repr

/-- `Strategy::sendInterest`: a PIT token is not passed on. -/
def sendInterest (egress : FacePtr) (i : Interest) : State :=
  s.onOutgoingInterest env id egress { i with pitToken := none }

/-- `Strategy::sendNacks`: to every downstream that is not excepted. -/
def sendNacks (reason : NackReason) (exceptFaces : List FacePtr) : State :=
  let downstreams := match s.pit.get id with
    | none => []
    | some e => e.inFaces.filter (· ∉ exceptFaces)
  downstreams.foldl (fun s p => s.onOutgoingNack env id p reason) s

def act (s : State) : Action → State
  | .sendInterest egress i => sendInterest env s id egress i
  | .sendNack egress reason => s.onOutgoingNack env id egress reason
  | .sendNacks reason exceptFaces => sendNacks env s id reason exceptFaces
  | .setExpiryTimer duration => s.setExpiryTimer id duration

def actAll (actions : List Action) : State :=
  actions.foldl (act env id) s

end Strategy

end NdnMulticast.Nfd
