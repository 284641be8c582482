/-
  The bundled strategies: what each does when an Interest or a Nack arrives and when one of
  its timers fires, after the `*-strategy.cpp` files of `daemon/fw`.

  What a strategy has learned (StrategyInfo, measurements) and the random numbers it draws are
  not modelled and enter as `Knowledge`, about which nothing is assumed.  Whether an interval
  of the retransmission suppression has passed is `suppresses`.
-/

import NdnMulticast.Nfd.StrategyChoice
import NdnMulticast.Nfd.Forwarder

namespace NdnMulticast.Nfd

open Lib Ndn

namespace State

/-- The prefix `/localhop`. -/
def localhop : Name := [Component.ofString "localhop"]

end State

open State

/-! ## What they share -/

section

variable (env : Env) (e : Entry)

def wouldViolateScope (inFace : FacePtr) (i : Interest) (outFace : FacePtr) : Bool :=
  if (env.face outFace).scope = .isLocal then false
  else if localhost.isPrefixOf i.name then true
  else if localhop.isPrefixOf i.name then (env.face inFace).scope != .isLocal
  else false

/-- An Interest under `/localhost` violates the scope of every non-local face. -/
theorem isViolatingLocalhost_of_wouldViolateScope {env : Env} {inFace outFace : FacePtr}
    {i : Interest} (h : wouldViolateScope env inFace i outFace = false) :
    isViolatingLocalhost env outFace i.name = false := by
  unfold wouldViolateScope at h
  split at h
  · rename_i hlocal
    simp [isViolatingLocalhost, hlocal]
  · split at h
    · cases h
    · rename_i hname
      simp [isViolatingLocalhost, hname]

def canForwardToLegacy (face : FacePtr) (now : Int) : Bool :=
  !(e.outRecords.any fun r => r.face == face && decide (now ≤ r.expiry)) &&
    e.inRecords.any fun r => r.face != face && decide (now ≤ r.expiry)

def isNextHopEligible (s : State) (e : Entry) (inFace : FacePtr) (i : Interest) (nextHop : NextHop)
    (wantUnused : Bool) : Bool :=
  let outFace := nextHop.face
  if s.faceTable.getId outFace = s.faceTable.getId inFace ∧ (env.face outFace).linkType ≠ .adHoc
  then false
  else if wouldViolateScope env inFace i outFace then false
  else !wantUnused || (e.getOutRecord outFace).all fun r => !decide (s.now < r.expiry)

theorem wouldViolateScope_of_isNextHopEligible {env : Env} {s : State} {e : Entry}
    {inFace : FacePtr} {i : Interest} {nextHop : NextHop} {wantUnused : Bool}
    (h : isNextHopEligible env s e inFace i nextHop wantUnused = true) :
    wouldViolateScope env inFace i nextHop.face = false := by
  simp only [isNextHopEligible] at h
  split at h
  · cases h
  · simp_all

/-- The source asserts that an eligible next hop has an out-record. -/
def earliestOutRecord (e : Entry) (isEligible : NextHop → Bool) :
    List NextHop → Option (NextHop × Int) → Option NextHop
  | [], found => found.map Prod.fst
  | nh :: nhs, found =>
    match if isEligible nh then e.getOutRecord nh.face else none with
    | none => earliestOutRecord e isEligible nhs found
    | some r =>
      if found.all fun x => decide (r.lastRenewed < x.2) then
        earliestOutRecord e isEligible nhs (some (nh, r.lastRenewed))
      else earliestOutRecord e isEligible nhs found

def findEligibleNextHopWithEarliestOutRecord (s : State) (e : Entry) (inFace : FacePtr)
    (i : Interest) (nextHops : List NextHop) : Option NextHop :=
  earliestOutRecord e (fun nh => isNextHopEligible env s e inFace i nh false) nextHops none

theorem earliestOutRecord_eq_some {e : Entry} {isEligible : NextHop → Bool}
    {nextHops : List NextHop} {found : Option (NextHop × Int)} {nh : NextHop}
    (h : earliestOutRecord e isEligible nextHops found = some nh) :
    (∃ t, found = some (nh, t)) ∨ (nh ∈ nextHops ∧ isEligible nh = true) := by
  induction nextHops generalizing found with
  | nil =>
    obtain ⟨⟨nh', t⟩, hfound, rfl⟩ := Option.map_eq_some_iff.1 h
    exact Or.inl ⟨t, hfound⟩
  | cons nh' nhs ih => grind [earliestOutRecord]

inductive RetxSuppressionResult where
  | new
  | forward
  | suppress
deriving DecidableEq, Repr

def decidePerPitEntry (now : Int) (suppresses : Bool) : RetxSuppressionResult :=
  if !e.hasPendingOutRecords now then .new
  else if suppresses then .suppress else .forward

def decidePerUpstream (outFace : FacePtr) (suppresses : Bool) : RetxSuppressionResult :=
  if (e.getOutRecord outFace).isNone then .new
  else if suppresses then .suppress else .forward

/-- The code of a Nack reason. -/
def NackReason.code : NackReason → Nat
  | .none => 0
  | .congestion => 50
  | .duplicate => 100
  | .noRoute => 150

def isLessSevere (x y : NackReason) : Bool :=
  if x = .none then false else if y = .none then true else decide (x.code < y.code)

/-- The least severe of the Nacks on the out-records. -/
def leastSevereReason : NackReason :=
  e.outRecords.foldl (fun least r =>
    match r.incomingNack with
    | some reason => if isLessSevere reason least then reason else least
    | none => least) .none

/-- Nothing to do while Nacks are missing, unless the only one missing is that of a downstream. -/
def processNack : List Strategy.Action :=
  match e.outRecords.filter (·.incomingNack.isNone) with
  | [] => [.sendNacks (leastSevereReason e) []]
  | [r] => if (e.getInRecord r.face).isSome then [.sendNack r.face (leastSevereReason e)] else []
  | _ => []

end

open List Option Bool
open Strategy (Action actAll)

/-- What a strategy knows when it is triggered. -/
structure Knowledge where
  /-- A retransmission comes before the suppression interval has passed. -/
  suppresses : Bool
  suppressesUpstream : FacePtr → Bool
  /-- A number drawn at random. -/
  random : Nat
  /-- The last working next hop in the measurements of the access strategy. -/
  lastNexthop : Option FaceId
  /-- The best and the previous face in the measurements of NCC. -/
  bestFace : Option FacePtr
  previousFace : Option FacePtr
  /-- How ASF ranks a face, whether it has measured the face at all, and whether a probe is due. -/
  rank : FacePtr → Int
  isMeasured : FacePtr → Bool
  isProbingDue : Bool
  probeNonce : List UInt8
  /-- The Interest carries the NonDiscovery tag. -/
  isNonDiscovery : Bool

/-- A strategy is asked about an Interest from `ingress`, for a PIT entry. -/
structure Trigger where
  env : Env
  fib : Fib
  known : Knowledge
  state : State
  id : EntryId
  entry : Entry
  ingress : FacePtr
  interest : Interest

namespace Trigger

variable (t : Trigger)

/-- The next hops `lookupFib` finds. -/
def nextHops : List NextHop := (t.fib.lookupFib t.entry.interest).nextHops

variable (face : FacePtr)

def hasNextHop : Bool := t.nextHops.any (·.face == face)

def violatesScope : Bool := wouldViolateScope t.env t.ingress t.interest face

def isEligible (wantUnused : Bool) (nh : NextHop) : Bool :=
  isNextHopEligible t.env t.state t.entry t.ingress t.interest nh wantUnused

/-- The check of the strategies that do not suppress retransmissions. -/
def canForward : Bool :=
  !t.violatesScope face && canForwardToLegacy t.entry face t.state.now

def send : Action := .sendInterest face t.interest

/-- `sendInterest` does not drop the Interest because of its HopLimit. -/
def wasSent : Bool :=
  !(t.interest.hopLimit == some 0 && (t.env.face face).scope == .nonLocal)

/-- `rejectPendingInterest`. -/
def reject : List Action := [.setExpiryTimer 0]

/-- A Nack to the downstream, and the Interest is rejected. -/
def noRoute : List Action := .sendNack t.ingress .noRoute :: reject

/-- The trigger as it stands when some actions have been taken. -/
def after (actions : List Action) : Trigger :=
  let state := actAll t.env t.state t.id actions
  { t with state, entry := (state.pit.get t.id).getD t.entry }

/-- A loop over next hops that sends to those selected at their turn. -/
def sendEach (select : Trigger → NextHop → Bool) : List NextHop → Trigger → List Action
  | [], _ => []
  | nh :: nhs, t =>
    if select t nh then t.send nh.face :: sendEach select nhs (t.after [t.send nh.face])
    else sendEach select nhs t

end Trigger

/-! ## Best route -/

def BestRouteStrategy.afterReceiveInterest (t : Trigger) : List Action :=
  if t.entry.hasPendingOutRecords t.state.now then []
  else
    match t.nextHops.find? fun nh => t.canForward nh.face with
    | some nh => [t.send nh.face]
    | none => Trigger.reject

def BestRouteStrategy2.afterReceiveInterest (t : Trigger) : List Action :=
  match decidePerPitEntry t.entry t.state.now t.known.suppresses with
  | .suppress => []
  | .new =>
    match t.nextHops.find? (t.isEligible false) with
    | some nh => [t.send nh.face]
    | none => t.noRoute
  | .forward =>
    match t.nextHops.find? (t.isEligible true) with
    | some nh => [t.send nh.face]
    | none =>
      match findEligibleNextHopWithEarliestOutRecord t.env t.state t.entry t.ingress t.interest
          t.nextHops with
      | some nh => [t.send nh.face]
      | none => []

/-! ## Multicast -/

namespace MulticastStrategy

/-- The checks on a next hop. -/
def selects (t : Trigger) (nh : NextHop) : Bool :=
  decidePerUpstream t.entry nh.face (t.known.suppressesUpstream nh.face) != .suppress &&
    t.isEligible false nh

def afterReceiveInterest (t : Trigger) : List Action :=
  let sends := Trigger.sendEach selects t.nextHops t
  if (t.after sends).entry.hasPendingOutRecords t.state.now then sends else sends ++ t.noRoute

end MulticastStrategy

/-! ## Random -/

def RandomStrategy.afterReceiveInterest (t : Trigger) : List Action :=
  let nhs := t.nextHops.filter (t.isEligible false)
  match nhs[t.known.random % nhs.length]? with
  | some nh => [t.send nh.face]
  | none => t.noRoute

/-! ## Access -/

namespace AccessStrategy

variable (t : Trigger)

/-- `AccessStrategy::multicast`; `exceptFace` is the FaceId of a face to leave out. -/
def multicast (exceptFace : FaceId) : List Action :=
  (t.nextHops.filter fun nh =>
    !(nh.face == t.ingress || t.state.faceTable.getId nh.face == exceptFace ||
      t.violatesScope nh.face)).map fun nh => t.send nh.face

/-- The face `sendToLastNexthop` sends to. -/
def lastNexthopFace : Option FacePtr :=
  t.known.lastNexthop.bind fun id =>
    if id = invalidFaceId ∨ id = t.state.faceTable.getId t.ingress then none
    else (t.state.faceTable.get id).filter fun face => t.hasNextHop face && !t.violatesScope face

/-- The end of `afterReceiveNewInterest`: to all next hops but the incoming face. -/
def multicastOrReject : List Action :=
  let sends := multicast t invalidFaceId
  if sends.any fun a => match a with
      | .sendInterest face _ => t.wasSent face
      | _ => false
  then sends
  else sends ++ Trigger.reject

def afterReceiveNewInterest : List Action :=
  match lastNexthopFace t with
  | some face =>
    if t.wasSent face then [t.send face] else t.send face :: multicastOrReject t
  | none => multicastOrReject t

def afterReceiveInterest : List Action :=
  match decidePerPitEntry t.entry t.state.now t.known.suppresses with
  | .new => afterReceiveNewInterest t
  | .forward => multicast t invalidFaceId
  | .suppress => []

/-- `AccessStrategy::afterRtoTimeout`, with the Interest of the in-record. -/
def afterRtoTimeout (firstOutFaceId : FaceId) : List Action :=
  multicast t firstOutFaceId

end AccessStrategy

/-! ## NCC -/

namespace NccStrategy

def afterReceiveInterest (t : Trigger) : List Action :=
  if t.nextHops = [] then Trigger.reject
  else if t.entry.hasPendingOutRecords t.state.now then []
  else
    match t.known.bestFace.filter fun face => t.hasNextHop face && t.canForward face with
    | some face => [t.send face]
    | none =>
      match t.nextHops.find? fun nh => t.canForward nh.face with
      | some nh => [t.send nh.face]
      | none => Trigger.reject

/-- To the previous best face, then to the first next hop that is still eligible. -/
def doPropagate (t : Trigger) : List Action :=
  let first := ((t.known.previousFace.filter fun face => t.hasNextHop face && t.canForward face).map
    t.send).toList
  first ++ ((t.nextHops.find? fun nh => (t.after first).canForward nh.face).map fun nh =>
    t.send nh.face).toList

end NccStrategy

/-! ## ASF -/

namespace AsfStrategy

variable (t : Trigger)

/-- The better one of two ranked faces. -/
def better (a b : NextHop) : NextHop :=
  let ra := t.known.rank a.face
  let rb := t.known.rank b.face
  if rb < ra ∨ (rb = ra ∧ b.cost < a.cost) then b else a

/-- `AsfStrategy::getBestFaceForForwarding`: the first of the best ranked faces. -/
def getBestFaceForForwarding (isInterestNew : Bool) : Option NextHop :=
  match t.nextHops.filter (t.isEligible !isInterestNew) with
  | [] => none
  | nh :: nhs => some (nhs.foldl (better t) nh)

/-- `ProbingModule::getFaceToProbe`: a face that was never measured, or one drawn by rank. -/
def getFaceToProbe (faceUsed : FacePtr) : Option NextHop :=
  let getId := t.state.faceTable.getId
  let hops := t.nextHops.filter fun nh =>
    !(getId nh.face == getId t.ingress || getId nh.face == getId faceUsed ||
      t.violatesScope nh.face)
  (hops.find? fun nh => !t.known.isMeasured nh.face).or hops[t.known.random % hops.length]?

/-- `AsfStrategy::sendProbe`: the Interest with a new nonce. -/
def sendProbe (faceUsed : FacePtr) : List Action :=
  if t.known.isProbingDue then
    ((getFaceToProbe t faceUsed).map fun nh =>
      .sendInterest nh.face { t.interest with nonce := some t.known.probeNonce }).toList
  else []

def afterReceiveInterest : List Action :=
  match decidePerPitEntry t.entry t.state.now t.known.suppresses with
  | .suppress => []
  | .new =>
    match getBestFaceForForwarding t true with
    | some nh => t.send nh.face :: sendProbe t nh.face
    | none => t.noRoute
  | .forward =>
    match getBestFaceForForwarding t false with
    | some nh => [t.send nh.face]
    | none =>
      match findEligibleNextHopWithEarliestOutRecord t.env t.state t.entry t.ingress t.interest
          t.nextHops with
      | some nh => [t.send nh.face]
      | none => []

end AsfStrategy

/-! ## Self-learning -/

namespace SelfLearningStrategy

def multicastInterest (t : Trigger) : List Action :=
  (t.nextHops.filter (t.isEligible false)).map fun nh => t.send nh.face

/-- To the non-local faces, the one with the highest FaceId first. -/
def broadcastInterest (t : Trigger) : List Action :=
  let table := t.state.faceTable
  let faces := (table.faces.insertionSort fun a b => b.1 ≤ a.1).map Prod.snd
  (faces.filter fun face =>
    !((table.getId face == table.getId t.ingress && (t.env.face face).linkType != .adHoc) ||
      t.violatesScope face || (t.env.face face).scope == .isLocal)).map t.send

def afterReceiveInterest (t : Trigger) : List Action :=
  if t.nextHops = [] then
    if t.known.isNonDiscovery then t.noRoute else broadcastInterest t
  else multicastInterest t

/-- The assertion of `SelfLearningStrategy::afterReceiveNack` for a Nack about an entry. -/
def nackAssertion (fib : Fib) (e : Entry) (reason : NackReason) : Bool :=
  reason != .noRoute || fib.hasNextHops e.interest

/-- `SelfLearningStrategy::afterReceiveNack`, with assertions compiled out. -/
def afterReceiveNack (reason : NackReason) : List Action :=
  if reason = .noRoute then [.sendNacks reason []] else []

end SelfLearningStrategy

/-! ## All of them -/

/-- `afterReceiveInterest` of the strategy of a type. -/
def StrategyType.afterReceiveInterest : StrategyType → Trigger → List Action
  | .bestRoute => BestRouteStrategy.afterReceiveInterest
  | .bestRoute2 => BestRouteStrategy2.afterReceiveInterest
  | .multicast => MulticastStrategy.afterReceiveInterest
  | .random => RandomStrategy.afterReceiveInterest
  | .access => AccessStrategy.afterReceiveInterest
  | .ncc => NccStrategy.afterReceiveInterest
  | .asf => AsfStrategy.afterReceiveInterest
  | .selfLearning => SelfLearningStrategy.afterReceiveInterest

/-- `afterReceiveNack`; ASF and the strategies that do not override it send nothing. -/
def StrategyType.afterReceiveNack (type : StrategyType) (e : Entry) (reason : NackReason) :
    List Action :=
  match type with
  | .bestRoute2 | .multicast | .random => processNack e
  | .selfLearning => SelfLearningStrategy.afterReceiveNack reason
  | .bestRoute | .access | .ncc | .asf => []

/-! ## Where they send -/

namespace Trigger

/-- An Interest is sent under the name of the received one, to a face whose scope permits it. -/
def InScope (t : Trigger) : Action → Prop
  | .sendInterest egress i =>
    i.name = t.interest.name ∧ wouldViolateScope t.env t.ingress t.interest egress = false
  | _ => True

/-- Besides, Interests are sent only if there are next hops. -/
def Allowed (t : Trigger) (actions : List Action) : Prop :=
  ∀ a ∈ actions, t.InScope a ∧ ((∃ egress i, a = .sendInterest egress i) → t.nextHops ≠ [])

namespace Allowed

variable {t : Trigger}

theorem nil : t.Allowed [] := fun _ h => nomatch h

variable {xs : List Action} {nh : NextHop} {p : NextHop → Bool}

theorem append {ys : List Action} (hxs : t.Allowed xs) (hys : t.Allowed ys) :
    t.Allowed (xs ++ ys) :=
  fun a ha => (mem_append.1 ha).elim (hxs a) (hys a)

theorem cons {a : Action} (ha : t.Allowed [a]) (hxs : t.Allowed xs) : t.Allowed (a :: xs) :=
  append ha hxs

theorem sendInterest {i : Interest} (hmem : nh ∈ t.nextHops) (hname : i.name = t.interest.name)
    (hscope : t.violatesScope nh.face = false) : t.Allowed [.sendInterest nh.face i] := by
  intro a ha
  rw [mem_singleton.1 ha]
  exact ⟨⟨hname, hscope⟩, fun _ => ne_nil_of_mem hmem⟩

theorem send (hmem : nh ∈ t.nextHops) (hscope : t.violatesScope nh.face = false) :
    t.Allowed [t.send nh.face] :=
  sendInterest hmem rfl hscope

theorem send_of_hasNextHop {face : FacePtr} (hmem : t.hasNextHop face = true)
    (hscope : t.violatesScope face = false) : t.Allowed [t.send face] := by
  obtain ⟨nh, hnh, hface⟩ := any_eq_true.1 hmem
  obtain rfl := eq_of_beq hface
  exact send hnh hscope

theorem send_of_isEligible {wantUnused : Bool} (hmem : nh ∈ t.nextHops)
    (h : t.isEligible wantUnused nh = true) : t.Allowed [t.send nh.face] :=
  send hmem (wouldViolateScope_of_isNextHopEligible h)

theorem send_of_find? (h : t.nextHops.find? p = some nh)
    (hp : p nh = true → t.violatesScope nh.face = false) : t.Allowed [t.send nh.face] :=
  send (mem_of_find?_eq_some h) (hp (find?_some h))

theorem map (hp : ∀ nh, p nh = true → t.violatesScope nh.face = false) :
    t.Allowed ((t.nextHops.filter p).map fun nh => t.send nh.face) := by
  intro a ha
  obtain ⟨nh, hnh, rfl⟩ := mem_map.1 ha
  obtain ⟨hmem, hpnh⟩ := mem_filter.1 hnh
  exact send hmem (hp nh hpnh) _ (.head _)

theorem reject : t.Allowed reject := by
  intro a ha
  rw [mem_singleton.1 ha]
  exact ⟨trivial, fun ⟨_, _, h⟩ => nomatch h⟩

theorem noRoute : t.Allowed t.noRoute := by
  refine cons ?_ reject
  intro a ha
  rw [mem_singleton.1 ha]
  exact ⟨trivial, fun ⟨_, _, h⟩ => nomatch h⟩

end Allowed

variable {t : Trigger}

theorem violatesScope_of_canForward {face : FacePtr} (h : t.canForward face = true) :
    t.violatesScope face = false := by
  simp only [canForward, and_eq_true, not_eq_true'] at h
  exact h.1

/-- The turns of a loop do not change what the scope depends on. -/
theorem sendEach_allowed {select : Trigger → NextHop → Bool}
    (hselect : ∀ u nh, select u nh = true → u.violatesScope nh.face = false) {nhs : List NextHop}
    (hnhs : ∀ nh ∈ nhs, nh ∈ t.nextHops) (u : Trigger) (henv : u.env = t.env)
    (hingress : u.ingress = t.ingress) (hinterest : u.interest = t.interest) :
    t.Allowed (sendEach select nhs u) := by
  induction nhs generalizing u with
  | nil => exact .nil
  | cons nh nhs ih =>
    have hrest := fun u => ih (fun nh hnh => hnhs nh (.tail _ hnh)) u
    unfold sendEach
    split
    · rename_i hsel
      have hscope : t.violatesScope nh.face = false := by
        have := hselect u nh hsel
        rwa [violatesScope, henv, hingress, hinterest] at this
      refine .cons ?_ (hrest _ henv hingress hinterest)
      exact .sendInterest (hnhs nh (.head _)) (by rw [hinterest]) hscope
    · exact hrest u henv hingress hinterest

end Trigger

open Trigger

section Allowed

variable (t : Trigger)

theorem BestRouteStrategy.allowed : t.Allowed (BestRouteStrategy.afterReceiveInterest t) := by
  unfold BestRouteStrategy.afterReceiveInterest
  split
  · exact .nil
  · split
    · rename_i hfind
      exact .send_of_find? hfind violatesScope_of_canForward
    · exact .reject

variable {nh : NextHop}

theorem findEligibleNextHopWithEarliestOutRecord_allowed {t : Trigger}
    (h : findEligibleNextHopWithEarliestOutRecord t.env t.state t.entry t.ingress t.interest
      t.nextHops = some nh) : t.Allowed [t.send nh.face] := by
  rcases earliestOutRecord_eq_some h with ⟨_, hnone⟩ | ⟨hmem, helig⟩
  · cases hnone
  · exact .send_of_isEligible hmem helig

theorem send_of_isEligible_find? {t : Trigger} {wantUnused : Bool}
    (h : t.nextHops.find? (t.isEligible wantUnused) = some nh) : t.Allowed [t.send nh.face] :=
  .send_of_find? h wouldViolateScope_of_isNextHopEligible

theorem BestRouteStrategy2.allowed : t.Allowed (BestRouteStrategy2.afterReceiveInterest t) := by
  unfold BestRouteStrategy2.afterReceiveInterest
  split
  · exact .nil
  · split
    · rename_i hfind
      exact send_of_isEligible_find? hfind
    · exact .noRoute
  · grind [send_of_isEligible_find?, findEligibleNextHopWithEarliestOutRecord_allowed, Allowed.nil]

theorem MulticastStrategy.allowed : t.Allowed (MulticastStrategy.afterReceiveInterest t) := by
  have hsends : t.Allowed (sendEach selects t.nextHops t) := by
    refine sendEach_allowed (fun u nh h => ?_) (fun _ h => h) t rfl rfl rfl
    rw [selects, and_eq_true] at h
    exact wouldViolateScope_of_isNextHopEligible h.2
  simp only [MulticastStrategy.afterReceiveInterest]
  split
  · exact hsends
  · exact hsends.append .noRoute

theorem RandomStrategy.allowed : t.Allowed (RandomStrategy.afterReceiveInterest t) := by
  simp only [RandomStrategy.afterReceiveInterest]
  split
  · rename_i nh hpick
    obtain ⟨hmem, helig⟩ := mem_filter.1 (mem_of_getElem? hpick)
    exact .send_of_isEligible hmem helig
  · exact .noRoute

namespace AccessStrategy

theorem multicast_allowed (exceptFace : FaceId) : t.Allowed (multicast t exceptFace) := by
  refine .map fun nh h => ?_
  simp only [not_eq_true', or_eq_false_iff] at h
  exact h.2

theorem multicastOrReject_allowed : t.Allowed (multicastOrReject t) := by
  simp only [multicastOrReject]
  split
  · exact multicast_allowed t _
  · exact (multicast_allowed t _).append .reject

theorem lastNexthopFace_allowed {t : Trigger} {face : FacePtr}
    (h : lastNexthopFace t = some face) : t.Allowed [t.send face] := by
  obtain ⟨id, -, h⟩ := bind_eq_some_iff.1 h
  split at h
  · cases h
  · simp_all [Allowed.send_of_hasNextHop]

theorem allowed : t.Allowed (AccessStrategy.afterReceiveInterest t) := by
  unfold AccessStrategy.afterReceiveInterest
  split
  · unfold afterReceiveNewInterest
    split
    · grind [Allowed.cons, lastNexthopFace_allowed, multicastOrReject_allowed]
    · exact multicastOrReject_allowed t
  · exact multicast_allowed t _
  · exact .nil

end AccessStrategy

namespace NccStrategy

/-- A face remembered in the measurements is used only if it still is a next hop. -/
theorem filter_allowed {t : Trigger} {remembered : Option FacePtr} {face : FacePtr}
    (h : remembered.filter (fun face => t.hasNextHop face && t.canForward face) = some face) :
    t.Allowed [t.send face] := by
  have htest := (filter_eq_some_iff.1 h).2
  rw [and_eq_true] at htest
  exact .send_of_hasNextHop htest.1 (violatesScope_of_canForward htest.2)

theorem allowed : t.Allowed (NccStrategy.afterReceiveInterest t) := by
  unfold NccStrategy.afterReceiveInterest
  split
  · exact .reject
  · split
    · exact .nil
    · grind [filter_allowed, Allowed.send_of_find?, violatesScope_of_canForward, Allowed.reject]

theorem doPropagate_allowed : t.Allowed (doPropagate t) := by
  refine .append ?_ ?_
  · intro a ha
    obtain ⟨face, hface, rfl⟩ := map_eq_some_iff.1 (mem_toList.1 ha)
    exact filter_allowed hface _ (.head _)
  · intro a ha
    obtain ⟨nh, hfind, rfl⟩ := map_eq_some_iff.1 (mem_toList.1 ha)
    -- the scope does not depend on what has been sent before
    refine Allowed.send_of_find? hfind (fun h => ?_) _ (.head _)
    exact (violatesScope_of_canForward h :)

end NccStrategy

namespace AsfStrategy

theorem foldl_better_mem (nhs : List NextHop) (nh : NextHop) :
    nhs.foldl (better t) nh ∈ nh :: nhs := by
  induction nhs generalizing nh with
  | nil => exact .head _
  | cons nh' nhs ih =>
    have hbetter : better t nh nh' = nh ∨ better t nh nh' = nh' := by
      unfold better
      dsimp only
      split
      · exact Or.inr rfl
      · exact Or.inl rfl
    rcases mem_cons.1 (ih (better t nh nh')) with h | h
    · grind
    · exact .tail _ (.tail _ h)

theorem getBestFaceForForwarding_allowed {t : Trigger} {isInterestNew : Bool} {nh : NextHop}
    (h : getBestFaceForForwarding t isInterestNew = some nh) : t.Allowed [t.send nh.face] := by
  unfold getBestFaceForForwarding at h
  split at h
  · cases h
  · grind [foldl_better_mem, Allowed.send_of_isEligible]

theorem sendProbe_allowed (faceUsed : FacePtr) : t.Allowed (sendProbe t faceUsed) := by
  unfold sendProbe
  split
  · intro a ha
    obtain ⟨nh, hprobe, rfl⟩ := map_eq_some_iff.1 (mem_toList.1 ha)
    have hmem : nh ∈ t.nextHops ∧ t.violatesScope nh.face = false := by
      simp only [getFaceToProbe, or_eq_some_iff] at hprobe
      have hhop := hprobe.elim mem_of_find?_eq_some fun h => mem_of_getElem? h.2
      have htest := (mem_filter.1 hhop).2
      simp only [not_eq_true', or_eq_false_iff] at htest
      exact ⟨(mem_filter.1 hhop).1, htest.2⟩
    have hsend : t.Allowed
        [.sendInterest nh.face { t.interest with nonce := some t.known.probeNonce }] :=
      .sendInterest hmem.1 rfl hmem.2
    exact hsend _ (.head _)
  · exact .nil

theorem allowed : t.Allowed (AsfStrategy.afterReceiveInterest t) := by
  unfold AsfStrategy.afterReceiveInterest
  split
  · exact .nil
  · split
    · rename_i nh hbest
      exact .cons (getBestFaceForForwarding_allowed hbest) (sendProbe_allowed t nh.face)
    · exact .noRoute
  · grind [getBestFaceForForwarding_allowed, findEligibleNextHopWithEarliestOutRecord_allowed,
      Allowed.nil]

end AsfStrategy

namespace SelfLearningStrategy

theorem broadcastInterest_inScope : ∀ a ∈ broadcastInterest t, t.InScope a := by
  intro a ha
  obtain ⟨face, hface, rfl⟩ := mem_map.1 ha
  have htest := (mem_filter.1 hface).2
  simp only [not_eq_true', or_eq_false_iff] at htest
  exact ⟨rfl, htest.1.2⟩

theorem allowed (h : t.nextHops ≠ [] ∨ t.known.isNonDiscovery = true) :
    t.Allowed (SelfLearningStrategy.afterReceiveInterest t) := by
  unfold SelfLearningStrategy.afterReceiveInterest
  split
  · simp_all [Allowed.noRoute]
  · exact .map fun nh => wouldViolateScope_of_isNextHopEligible

end SelfLearningStrategy

/-- The Interest is one that self-learning broadcasts. -/
def isBroadcast (type : StrategyType) (t : Trigger) : Bool :=
  type == .selfLearning && t.nextHops.isEmpty && !t.known.isNonDiscovery

variable (type : StrategyType)

/-- **Interests go to next hops**, within their scope, unless they are broadcast. -/
theorem afterReceiveInterest_allowed (h : isBroadcast type t = false) :
    t.Allowed (type.afterReceiveInterest t) := by
  cases type with
  | bestRoute => exact BestRouteStrategy.allowed t
  | bestRoute2 => exact BestRouteStrategy2.allowed t
  | multicast => exact MulticastStrategy.allowed t
  | random => exact RandomStrategy.allowed t
  | access => exact AccessStrategy.allowed t
  | ncc => exact NccStrategy.allowed t
  | asf => exact AsfStrategy.allowed t
  | selfLearning =>
    refine SelfLearningStrategy.allowed t ?_
    cases hnone : t.nextHops with
    | nil => exact Or.inr (by simpa [isBroadcast, hnone] using h)
    | cons nh nhs => exact Or.inl (cons_ne_nil _ _)

/-- **Every strategy respects the scope** of the faces. -/
theorem afterReceiveInterest_inScope : ∀ a ∈ type.afterReceiveInterest t, t.InScope a := by
  cases h : isBroadcast type t with
  | false => exact fun a ha => (afterReceiveInterest_allowed t type h a ha).1
  | true =>
    simp only [isBroadcast, and_eq_true, not_eq_true', List.isEmpty_iff, beq_iff_eq] at h
    obtain ⟨⟨rfl, hnone⟩, hdiscovery⟩ := h
    have hbroadcast : StrategyType.afterReceiveInterest .selfLearning t =
        SelfLearningStrategy.broadcastInterest t := by
      simp [StrategyType.afterReceiveInterest, SelfLearningStrategy.afterReceiveInterest, hnone,
        hdiscovery]
    rw [hbroadcast]
    exact SelfLearningStrategy.broadcastInterest_inScope t

theorem sendInterest_notMem_afterReceiveNack (e : Entry) (reason : NackReason) (egress : FacePtr)
    (i : Interest) : .sendInterest egress i ∉ type.afterReceiveNack e reason := by
  have hprocess : .sendInterest egress i ∉ processNack e := by
    unfold processNack
    split
    · simp
    · split
      · simp
      · simp
    · simp
  cases type with
  | bestRoute2 | multicast | random => exact hprocess
  | selfLearning =>
    unfold StrategyType.afterReceiveNack SelfLearningStrategy.afterReceiveNack
    dsimp only
    split
    · simp
    · simp
  | bestRoute | access | ncc | asf => exact List.not_mem_nil

end Allowed

end NdnMulticast.Nfd
