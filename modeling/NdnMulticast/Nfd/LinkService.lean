/-
  How a network packet is sent, after `daemon/face/generic-link-service.cpp`: it is
  fragmented, its fragments are numbered, and each is sent with Acks and possibly with a
  congestion mark.

  The clock, the length of the transport's queue and the square root in the marking interval
  are inputs; they can be different for each fragment.
-/

import NdnMulticast.Nfd.LpFragmenter
import NdnMulticast.Nfd.LpReliability
import NdnMulticast.Nfd.Piggyback

namespace NdnMulticast.Nfd.LinkService

open Lib Ndn Ndn.Lp Nfd.LpReliability List Option Packet Except Lp.Tlv Block Sample List.Perm
open Nfd.LpFragmenter (fragmentPacket HasRoom isCompact)

structure Options where
  allowFragmentation : Bool
  nMaxFragments : Nat
  /-- `reliabilityOptions.isEnabled`. -/
  isReliable : Bool
  allowCongestionMarking : Bool
  baseCongestionMarkingInterval : Int
  /-- The base interval divided by the square root of the number of marked packets plus one. -/
  markingInterval : Nat → Int
  defaultCongestionThreshold : Nat
  overrideMtu : Int
  /-- `getTransport()->getMtu()`. -/
  transportMtu : Int

/-- What a call finds: the length of the transport's send queue, and the time. -/
structure Env where
  sendQueueLength : Int
  now : Int

structure Congestion where
  /-- `none` for `TimePoint::max()`. -/
  nextMarkTime : Option Int
  nMarkedSinceInMarkingState : Nat

structure State where
  lastSeqNo : Nat
  sender : Sender
  ackQueue : List Nat
  congestion : Congestion
  nFragmentationErrors : Nat
  nOutOverMtu : Nat
  nCongestionMarked : Nat
  /-- What has been handed to the transport. -/
  sent : List Block

/-- `RESERVED_HEADER_SPACE`: a TxSequence. -/
def reservedHeaderSpace : Nat :=
  Ndn.Tlv.sizeOfVarNumber Lp.Tlv.txSequence + Ndn.Tlv.sizeOfVarNumber 8 + 8

/-- `CONGESTION_MARK_SIZE`. -/
def congestionMarkSize : Nat :=
  Ndn.Tlv.sizeOfVarNumber Lp.Tlv.congestionMark + Ndn.Tlv.sizeOfVarNumber 8 + 8

/-- `getEffectiveMtu`. -/
def Options.effectiveMtu (opts : Options) : Int := min opts.overrideMtu opts.transportMtu

/-- The MTU for fragmentation, with space for the feature fields. -/
def Options.reducedMtu (opts : Options) : Int :=
  let mtu := opts.effectiveMtu
  let mtu := if opts.isReliable && mtu != mtuUnlimited then mtu - reservedHeaderSpace else mtu
  if opts.allowCongestionMarking && mtu != mtuUnlimited then mtu - congestionMarkSize else mtu

/-- `checkCongestionLevel`: whether the packet is marked. -/
def checkCongestionLevel (opts : Options) (env : Env) (c : Congestion) : Bool × Congestion :=
  if env.sendQueueLength < 0 then (false, c)
  else if opts.defaultCongestionThreshold < env.sendQueueLength then
    match c.nextMarkTime with
    | none =>
      (false, { c with nextMarkTime := some (env.now + opts.baseCongestionMarkingInterval) })
    | some nextMarkTime =>
      if nextMarkTime ≤ env.now then
        let nMarked := c.nMarkedSinceInMarkingState + 1
        (true, ⟨some (nextMarkTime + opts.markingInterval nMarked), nMarked⟩)
      else (false, c)
  else
    match c.nextMarkTime with
    | some _ => (false, ⟨none, 0⟩)
    | none => (false, c)

def mark (opts : Options) (env : Env) (c : Congestion) : Bool × Congestion :=
  if opts.allowCongestionMarking then checkCongestionLevel opts env c else (false, c)

variable (mtu : Int) (frag : Packet)

/-- `static_cast<size_t>` of an MTU. -/
def toSize : Int := if mtu < 0 then mtu + 2 ^ 64 else mtu

def withAcks (opts : Options) (pkt : Packet) (ackQueue : List Nat) :
    Except Fault (Packet × List Nat) :=
  if opts.isReliable then piggyback opts.effectiveMtu pkt ackQueue else .ok (pkt, ackQueue)

def withMark (isMarked : Bool) (pkt : Packet) : Except Fault Packet :=
  if isMarked then (pkt.set congestionMarkField 1).mapError Fault.raised else .ok pkt

def sendLpPacket (opts : Options) (env : Env) (pkt : Packet) (s : State) : Except Fault State := do
  let mtu := opts.effectiveMtu
  let (pkt, ackQueue) ← withAcks opts pkt s.ackQueue
  let (isMarked, congestion) := mark opts env s.congestion
  let block ← withMark isMarked pkt >>= Packet.wireEncode
  let s := { s with
    ackQueue := ackQueue
    congestion := congestion
    nCongestionMarked := s.nCongestionMarked + if isMarked then 1 else 0 }
  if mtu ≠ mtuUnlimited ∧ toSize mtu < block.wire.length then
    return { s with nOutOverMtu := s.nOutOverMtu + 1 }
  else return { s with sent := s.sent ++ [block] }

def assignSequences (lastSeqNo : Nat) : List Packet → Raises (List Packet × Nat)
  | [] => .ok ([], lastSeqNo)
  | pkt :: pkts => do
      let lastSeqNo := (lastSeqNo + 1) % 2 ^ 64
      let pkt ← pkt.set sequenceField lastSeqNo
      let (pkts, lastSeqNo) ← assignSequences lastSeqNo pkts
      return (pkt :: pkts, lastSeqNo)

/-- The part of `sendNetPacket` that numbers the fragments. -/
def numberFrags (opts : Options) (isInterest : Bool) (frags : List Packet) (s : State) :
    Except Fault (State × List Packet) := do
  let (frags, lastSeqNo) ←
    if opts.isReliable || 1 < frags.length then
      (assignSequences s.lastSeqNo frags).mapError Fault.raised
    else .ok (frags, s.lastSeqNo)
  let s := { s with lastSeqNo := lastSeqNo }
  if opts.isReliable && frags.head?.any (Packet.has fragmentField) then
    let (sender, frags) ← s.sender.handleOutgoing frags isInterest
    return ({ s with sender := sender }, frags)
  else return (s, frags)

/-- The last loop of `sendNetPacket`. -/
def sendFrags (opts : Options) (env : Nat → Env) : Nat → List Packet → State → Except Fault State
  | _, [], s => .ok s
  | i, frag :: frags, s => do
      let s ← sendLpPacket opts (env i) frag s
      sendFrags opts env (i + 1) frags s

/-- `sendNetPacket`.  An assertion that fails is not survived. -/
def sendNetPacket (opts : Options) (env : Nat → Env) (pkt : Packet) (isInterest : Bool)
    (s : State) :
    Except Fault State := do
  let mtu := opts.reducedMtu
  if mtu ≠ mtuUnlimited ∧ mtu < 0 then .error .undefinedBehavior
  else
    let frags? ←
      if opts.allowFragmentation && mtu != mtuUnlimited then
        fragmentPacket opts.nMaxFragments pkt mtu.toNat
      else .ok (some [pkt])
    match frags? with
    | none => return { s with nFragmentationErrors := s.nFragmentationErrors + 1 }
    | some frags =>
      if frags.length == 1 &&
          frags.any (fun frag => frag.has fragIndexField || frag.has fragCountField) then
        .error .undefinedBehavior
      else
        let (s, frags) ← numberFrags opts isInterest frags s
        sendFrags opts env 0 frags s

/-! ## Sizes -/

/-- The fields of a fragment other than those of some types. -/
def sizeWithout (tlvTypes : List Nat) (frag : Packet) : Nat :=
  ((frag.elements.filter fun e => !tlvTypes.contains e.type).map Packet.fieldSize).sum

/-- The fields of a fragment with Sequence and TxSequence, and with a congestion mark too. -/
def numberedSize : Nat :=
  22 + sizeWithout [Lp.Tlv.sequence, Lp.Tlv.txSequence] frag

def markedSize : Nat :=
  27 + sizeWithout [Lp.Tlv.sequence, Lp.Tlv.txSequence, Lp.Tlv.congestionMark] frag

/-- A packet with fields of a size. -/
def encodedSize (valueSize : Nat) : Nat := 1 + Ndn.Tlv.sizeOfVarNumber valueSize + valueSize

def fragAckCount (queue : List Nat) : Nat :=
  ackCount queue (remainingSpace mtu (encodedSize (numberedSize frag)))

/-- No Ack is added, or `piggyback` leaves enough for the TLV-LENGTH and the congestion mark. -/
def fits (queue : List Nat) (isMarked : Bool) : Bool :=
  let n := fragAckCount mtu frag queue
  let before := numberedSize frag
  let after := if isMarked then markedSize frag else before
  n == 0 ||
    decide
      (((Ndn.Tlv.sizeOfVarNumber (ackSize * n + after) : Int) - Ndn.Tlv.sizeOfVarNumber before) +
        ((after : Int) - before) ≤
      reservedSpace (encodedSize before) + (remainingSpace mtu (encodedSize before) - ackSize * n))

/-- The fragments one after the other; the Acks of one are not there for the next. -/
def allFit (opts : Options) (env : Nat → Env) : Nat → List Packet → List Nat → Congestion → Bool
  | _, [], _, _ => true
  | i, frag :: frags, queue, c =>
    fits opts.effectiveMtu frag queue (mark opts (env i) c).1 &&
      allFit opts env (i + 1) frags (queue.drop (fragAckCount opts.effectiveMtu frag queue))
        (mark opts (env i) c).2

/-- The fields of a list of elements. -/
def weight (es : List Block) : Nat := (es.map Packet.fieldSize).sum

section

variable {frag p q : Packet} {seq txSeq : Nat}

theorem weight_perm {es es' : List Block} (h : es.Perm es') : weight es = weight es' :=
  (h.map _).sum_eq

theorem weight_append (es es' : List Block) : weight (es ++ es') = weight es + weight es' := by
  rw [weight, map_append, sum_append]
  rfl

theorem weight_acks (acks : List Nat) : weight (acks.map ackElement) = ackSize * acks.length := by
  induction acks with
  | nil => rfl
  | cons a acks ih => grind [weight, fieldSize_ack]

theorem sizeWithout_le (tlvTypes : List Nat) (frag : Packet) :
    sizeWithout tlvTypes frag ≤ frag.valueSize := by
  have hsub : ((frag.elements.filter fun e => !tlvTypes.contains e.type).map fieldSize).Sublist
      (frag.elements.map fieldSize) := filter_sublist.map _
  exact hsub.sum_le_sum fun _ _ => Nat.zero_le _

theorem fieldSize_txSequence (n : Nat) :
    fieldSize (make txSequence (Ndn.Tlv.toBigEndian 8 n)) = 12 := by
  show Ndn.Tlv.sizeOfVarNumber txSequence + Ndn.Tlv.sizeOfVarNumber
    (Ndn.Tlv.toBigEndian 8 n).length +
    (Ndn.Tlv.toBigEndian 8 n).length = _
  rfl

theorem fieldSize_congestionMark :
    fieldSize (make congestionMark (Ndn.Tlv.nonNegativeInteger 1)) = 5 := by
  decide

/-- A fragment and the packet it becomes when it is numbered. -/
structure Numbered (frag p : Packet) : Prop where
  wellFormed : p.WellFormed
  wire : p.wire = none
  perm : ∃ seq txSeq, p.elements.Perm
    (Block.make Lp.Tlv.txSequence (Ndn.Tlv.toBigEndian 8 txSeq) ::
      Block.make Lp.Tlv.sequence (Ndn.Tlv.toBigEndian 8 seq) ::
      frag.elements.filter fun e => !([Lp.Tlv.sequence, Lp.Tlv.txSequence].contains e.type))

theorem numbered_of_set (hfrag : frag.WellFormed) (hseq : frag.set sequenceField seq = .ok q)
    (htx : q.set txSequenceField txSeq = .ok p) : Numbered frag p := by
  obtain ⟨value₁, hvalue₁, -, hperm₁⟩ := set_perm hseq
  obtain rfl := ok.inj hvalue₁
  obtain ⟨value₂, hvalue₂, hwire, hperm₂⟩ := set_perm htx
  obtain rfl := ok.inj hvalue₂
  refine ⟨(hfrag.set hseq).set htx, hwire, seq, txSeq, hperm₂.trans (cons _ ?_)⟩
  have hfilter := hperm₁.filter (·.type != txSequenceField.decl.tlvType)
  rw [List.filter_cons_of_pos (by show (sequence != txSequence) = true; decide),
    List.filter_filter] at hfilter
  refine hfilter.trans (cons _ (of_eq ?_))
  refine List.filter_congr fun e _ => ?_
  show (e.type != txSequence && e.type != sequence) = !([sequence, txSequence].contains e.type)
  simp only [List.contains_cons, List.contains_nil, Bool.or_false, Bool.not_or]
  exact Bool.and_comm _ _

theorem Numbered.valueSize (h : Numbered frag p) : p.valueSize = numberedSize frag := by
  obtain ⟨seq, txSeq, hperm⟩ := h.perm
  have hseq := LpFragmenter.fieldSize_sequence seq
  have htx := fieldSize_txSequence txSeq
  have hweight := weight_perm hperm
  simp only [weight, map_cons, sum_cons] at hweight
  show (p.elements.map fieldSize).sum = _
  rw [hweight, numberedSize, sizeWithout]
  omega

theorem Numbered.valueSize_marked (h : Numbered frag p) {acks : List Nat} {pkt pkt' : Packet}
    (hpkt : pkt.elements.Perm (acks.map ackElement ++ p.elements))
    (hset : pkt.set congestionMarkField 1 = .ok pkt') :
    pkt'.valueSize = ackSize * acks.length + markedSize frag := by
  obtain ⟨seq, txSeq, hperm⟩ := h.perm
  have hseq := LpFragmenter.fieldSize_sequence seq
  have htx := fieldSize_txSequence txSeq
  have hvalue := valueSize_set hset rfl
  have hfilter := (hpkt.trans (hperm.append_left _)).filter (·.type != congestionMark)
  have hacks : (acks.map ackElement).filter (·.type != congestionMark) = acks.map ackElement := by
    rw [filter_eq_self]
    intro e he
    obtain ⟨a, -, rfl⟩ := mem_map.1 he
    rfl
  have hothers : (frag.elements.filter fun e =>
      !([sequence, txSequence].contains e.type)).filter (·.type != congestionMark) =
      frag.elements.filter fun e =>
        !([sequence, txSequence, congestionMark].contains e.type) := by
    rw [List.filter_filter]
    refine filter_congr fun e _ => ?_
    simp only [contains_cons, contains_nil, Bool.or_false, Bool.not_or]
    rw [Bool.and_comm, Bool.and_assoc]
    rfl
  rw [filter_append, hacks,
    filter_cons_of_pos (by show (txSequence != congestionMark) = true; decide),
    filter_cons_of_pos (by show (sequence != congestionMark) = true; decide),
    hothers] at hfilter
  have hweight := weight_perm hfilter
  rw [weight_append, weight_acks] at hweight
  simp only [weight, map_cons, sum_cons] at hweight
  change pkt'.valueSize = fieldSize (make congestionMark _) +
    ((pkt.elements.filter (·.type != congestionMark)).map fieldSize).sum at hvalue
  rw [hvalue, fieldSize_congestionMark, hweight, markedSize, sizeWithout]
  omega

end

/-! ## One fragment -/

theorem reducedMtu_cases {opts : Options} (h : 0 ≤ opts.reducedMtu) :
    0 ≤ opts.effectiveMtu ∧
      opts.reducedMtu + (if opts.isReliable then 12 else 0) +
        (if opts.allowCongestionMarking then 12 else 0) = opts.effectiveMtu := by
  have hspace : (reservedHeaderSpace : Int) = 12 := rfl
  have hmark : (congestionMarkSize : Int) = 12 := rfl
  unfold Options.reducedMtu at h ⊢
  dsimp only at h ⊢
  rw [hspace, hmark] at h ⊢
  generalize opts.effectiveMtu = mtu at h ⊢
  -- a reduced MTU that is not negative has not been taken for an unlimited one on the way
  have hone : (mtuUnlimited != mtuUnlimited) = false := by decide
  have hneg : ¬ 0 ≤ mtuUnlimited := by decide
  by_cases hmtu : mtu = mtuUnlimited
  · rw [hmtu, hone, Bool.and_false, if_neg Bool.false_ne_true, hone, Bool.and_false,
      if_neg Bool.false_ne_true] at h
    exact absurd h hneg
  · have hlimited : (mtu != mtuUnlimited) = true := bne_iff_ne.2 hmtu
    rw [hlimited, Bool.and_true] at h ⊢
    generalize hmtu' : (if opts.isReliable = true then mtu - 12 else mtu) = mtu' at h ⊢
    have hsum : mtu' + (if opts.isReliable then 12 else 0) = mtu := by
      rw [← hmtu']
      split <;> omega
    have hle : mtu' ≤ mtu := by
      rw [← hmtu']
      split <;> omega
    by_cases hlast : mtu' = mtuUnlimited
    · rw [hlast, hone, Bool.and_false, if_neg Bool.false_ne_true] at h
      exact absurd h hneg
    · grind

/-- What happened to a packet: it was handed to the transport, or dropped for its size. -/
def Sent (isHanded : Prop) (s s' : State) : Prop :=
  (isHanded ∧ (∃ block, s'.sent = s.sent ++ [block]) ∧ s'.nOutOverMtu = s.nOutOverMtu) ∨
    (¬ isHanded ∧ s'.sent = s.sent ∧ s'.nOutOverMtu = s.nOutOverMtu + 1)

section

variable {opts : Options} {frag p : Packet} {s : State} {block : Block} {mtu : Nat}

theorem sendLpPacket_of_piggyback {env : Env} (hmtu : 0 ≤ opts.effectiveMtu) {pkt pkt' : Packet}
    {ackQueue : List Nat} (hpiggyback : withAcks opts p s.ackQueue = .ok (pkt, ackQueue))
    (hmark : withMark (mark opts env s.congestion).1 pkt = .ok pkt')
    (hblock : pkt'.wireEncode = .ok block) :
    ∃ s', sendLpPacket opts env p s = .ok s' ∧ s'.ackQueue = ackQueue ∧
      s'.congestion = (mark opts env s.congestion).2 ∧
      Sent ((block.wire.length : Int) ≤ opts.effectiveMtu) s s' := by
  have hlimited : opts.effectiveMtu ≠ mtuUnlimited := by
    intro h
    rw [h, mtuUnlimited] at hmtu
    omega
  have hsize : toSize opts.effectiveMtu = opts.effectiveMtu := if_neg (by omega)
  unfold sendLpPacket
  rw [hpiggyback]
  simp only [bind, Except.bind, hmark, hblock]
  by_cases hle : (block.wire.length : Int) ≤ opts.effectiveMtu
  · have hfits : ¬ (opts.effectiveMtu ≠ mtuUnlimited ∧
        toSize opts.effectiveMtu < block.wire.length) := fun h => by omega
    rw [if_neg hfits]
    exact ⟨_, rfl, rfl, rfl, Or.inl ⟨hle, ⟨block, rfl⟩, rfl⟩⟩
  · have hover : opts.effectiveMtu ≠ mtuUnlimited ∧
        toSize opts.effectiveMtu < block.wire.length := ⟨hlimited, by omega⟩
    rw [if_pos hover]
    exact ⟨_, rfl, rfl, rfl, Or.inr ⟨hle, rfl, rfl⟩⟩

theorem exists_withMark (pkt : Packet) :
    ∃ pkt', pkt.set congestionMarkField 1 = .ok pkt' ∧ withMark true pkt = .ok pkt' ∧
      pkt'.wire = none ∧ pkt'.wireEncode = .ok pkt'.encode := by
  obtain ⟨pkt', hset⟩ := exists_set (p := pkt) (f := congestionMarkField) (v := 1) rfl
  obtain ⟨value, -, hwire, hperm⟩ := set_perm hset
  have hmark : make Lp.Tlv.congestionMark value ∈ pkt'.elements := hperm.mem_iff.2 (.head _)
  refine ⟨pkt', hset, ?_, hwire, wireEncode_of_not_isBare (isBare_eq_false hmark
    (show Lp.Tlv.congestionMark ≠ Lp.Tlv.fragment by decide))⟩
  rw [withMark, if_pos rfl, hset]
  rfl

theorem encodedSize_le (valueSize : Nat) : encodedSize valueSize ≤ 10 + valueSize := by
  have hle := Ndn.Tlv.sizeOfVarNumber_le valueSize
  rw [encodedSize]
  omega

theorem fits_iff (hroom : HasRoom mtu frag) {isMarked : Bool}
    (hmtu : (mtu : Int) + 12 + (if isMarked then 12 else 0) ≤ opts.effectiveMtu)
    (queue : List Nat) :
    fits opts.effectiveMtu frag queue isMarked = true ↔
      (encodedSize (ackSize * fragAckCount opts.effectiveMtu frag queue +
        if isMarked then markedSize frag else numberedSize frag) : Int) ≤ opts.effectiveMtu := by
  have hlimit : sizeLimit opts.effectiveMtu = opts.effectiveMtu := by
    refine if_neg ?_
    rw [mtuUnlimited]
    split at hmtu <;> omega
  have hvalue := hroom.room
  have hnumbered := sizeWithout_le [sequence, txSequence] frag
  have hmarked := sizeWithout_le [sequence, txSequence, congestionMark] frag
  unfold fits
  rw [Bool.or_eq_true, beq_iff_eq, decide_eq_true_eq]
  generalize fragAckCount opts.effectiveMtu frag queue = n
  generalize hafter : (if isMarked then markedSize frag else numberedSize frag) = after
  have hbound : (10 + after : Int) ≤ opts.effectiveMtu := by
    rw [← hafter]
    cases isMarked with
    | true =>
      simp only [if_true] at hmtu ⊢
      unfold markedSize
      omega
    | false =>
      simp only [Bool.false_eq_true, if_false] at hmtu ⊢
      unfold numberedSize
      omega
  rcases Nat.eq_zero_or_pos n with rfl | hpos
  · -- the space kept before fragmentation
    have hle := encodedSize_le (ackSize * 0 + after)
    exact ⟨fun _ => by omega, fun _ => Or.inl rfl⟩
  · grind [encodedSize, remainingSpace]

theorem sendLpPacket_reliable (env : Env) (hreliable : opts.isReliable = true)
    (hroom : HasRoom mtu frag)
    (hmtu : (mtu : Int) + 12 + (if opts.allowCongestionMarking then 12 else 0) = opts.effectiveMtu)
    (hp : Numbered frag p) :
    ∃ s', sendLpPacket opts env p s = .ok s' ∧
      s'.ackQueue = s.ackQueue.drop (fragAckCount opts.effectiveMtu frag s.ackQueue) ∧
      s'.congestion = (mark opts env s.congestion).2 ∧
      Sent (fits opts.effectiveMtu frag s.ackQueue (mark opts env s.congestion).1 = true) s s' := by
  have hnonneg : 0 ≤ opts.effectiveMtu := by
    split at hmtu <;> omega
  have hwhen : (mtu : Int) + 12 + (if (mark opts env s.congestion).1 then 12 else 0) ≤
      opts.effectiveMtu := by
    unfold mark
    cases hallow : opts.allowCongestionMarking with
    | true => grind
    | false => simp_all
  -- the packet before the Acks
  obtain ⟨seq, txSeq, hperm⟩ := hp.perm
  have htx : Block.make Lp.Tlv.txSequence (Ndn.Tlv.toBigEndian 8 txSeq) ∈ p.elements :=
    hperm.mem_iff.2 (.head _)
  have hne : (Block.make Lp.Tlv.txSequence (Ndn.Tlv.toBigEndian 8 txSeq)).type ≠
      Lp.Tlv.fragment := by
    show Lp.Tlv.txSequence ≠ Lp.Tlv.fragment
    decide
  have hencode := wireEncode_of_not_isBare (isBare_eq_false htx hne)
  have hsize : p.encode.wire.length = encodedSize (numberedSize frag) := by
    rw [size_encode hp.wire, hp.valueSize]
    rfl
  obtain ⟨pkt, hloop, -, hmoved, hvalue, hsame, hnone⟩ := piggybackLoop_eq hp.wellFormed s.ackQueue
    (remainingSpace opts.effectiveMtu p.encode.wire.length)
  have hpiggyback : withAcks opts p s.ackQueue = .ok (pkt, s.ackQueue.drop
      (ackCount s.ackQueue (remainingSpace opts.effectiveMtu p.encode.wire.length))) := by
    rw [withAcks, if_pos hreliable, piggyback, hencode]
    simp only [bind, Except.bind, hloop, Except.mapError]
  rw [hsize] at hpiggyback hmoved hvalue hsame hnone
  set n := fragAckCount opts.effectiveMtu frag s.ackQueue
  have hlen : (s.ackQueue.take n).length = n := by
    rw [length_take]
    exact Nat.min_eq_left (Nat.min_le_left _ _)
  have hpktPerm : pkt.elements.Perm ((s.ackQueue.take n).map ackElement ++ p.elements) :=
    hmoved.perm
  have hwire : pkt.wire = none := by
    rcases Nat.eq_zero_or_pos n with hzero | hpos
    · rw [hsame hzero]
      exact hp.wire
    · exact hnone hpos
  have hmemPkt : Block.make Lp.Tlv.txSequence (Ndn.Tlv.toBigEndian 8 txSeq) ∈ pkt.elements :=
    hpktPerm.mem_iff.2 (mem_append_right _ htx)
  -- the packet at the end
  obtain ⟨pkt', hmark, hblock, hend⟩ : ∃ pkt', withMark (mark opts env s.congestion).1 pkt =
    .ok pkt' ∧
      pkt'.wireEncode = .ok pkt'.encode ∧ pkt'.encode.wire.length =
        encodedSize (ackSize * n +
          if (mark opts env s.congestion).1 then markedSize frag else numberedSize frag) := by
    cases (mark opts env s.congestion).1 with
    | true =>
      obtain ⟨pkt', hset, hmark, hwire', hencode'⟩ := exists_withMark pkt
      refine ⟨pkt', hmark, hencode', ?_⟩
      rw [size_encode hwire', hp.valueSize_marked hpktPerm hset, hlen]
      rfl
    | false =>
      refine ⟨pkt, rfl, wireEncode_of_not_isBare (isBare_eq_false hmemPkt hne), ?_⟩
      rw [size_encode hwire, hvalue, hp.valueSize]
      rfl
  obtain ⟨s', hrun, hqueue, hcongestion, hsent⟩ :=
    sendLpPacket_of_piggyback hnonneg hpiggyback hmark hblock
  refine ⟨s', hrun, hqueue, hcongestion, ?_⟩
  rw [hend] at hsent
  rw [fits_iff hroom hwhen]
  exact hsent

theorem sendLpPacket_unreliable (env : Env) (hreliable : opts.isReliable = false)
    (hencode : p.wireEncode = .ok block) (hfits : block.wire.length ≤ mtu)
    (hroom : 10 + p.valueSize ≤ mtu)
    (hmtu : (mtu : Int) + (if opts.allowCongestionMarking then 12 else 0) = opts.effectiveMtu) :
    ∃ s', sendLpPacket opts env p s = .ok s' ∧ Sent True s s' := by
  have hnonneg : 0 ≤ opts.effectiveMtu := by
    split at hmtu <;> omega
  have hpiggyback : withAcks opts p s.ackQueue = .ok (p, s.ackQueue) := by
    rw [withAcks, hreliable]
    rfl
  obtain ⟨pkt', block', hmark, hblock, hle⟩ : ∃ pkt' block',
      withMark (mark opts env s.congestion).1 p = .ok pkt' ∧
      pkt'.wireEncode = .ok block' ∧ (block'.wire.length : Int) ≤ opts.effectiveMtu := by
    unfold mark
    cases hallow : opts.allowCongestionMarking with
    | false =>
      exact ⟨p, block, rfl, hencode, by omega⟩
    | true =>
      rw [hallow] at hmtu
      simp only [if_true] at hmtu ⊢
      cases (checkCongestionLevel opts env s.congestion).1 with
      | false => exact ⟨p, block, rfl, hencode, by omega⟩
      | true =>
        obtain ⟨pkt', hset, hmark, hwire', hencode'⟩ := exists_withMark p
        have hsize := size_encode_le hwire'
        have hvalue := valueSize_set_le hset rfl
        change pkt'.valueSize ≤ fieldSize (make congestionMark
          (Ndn.Tlv.nonNegativeInteger 1)) + _ at hvalue
        rw [fieldSize_congestionMark] at hvalue
        exact ⟨pkt', pkt'.encode, hmark, hencode', by omega⟩
  obtain ⟨s', hrun, -, -, hsent⟩ := sendLpPacket_of_piggyback hnonneg hpiggyback hmark hblock
  refine ⟨s', hrun, Or.inl ⟨trivial, ?_⟩⟩
  rcases hsent with ⟨-, hsent⟩ | ⟨hnot, -⟩
  · exact hsent
  · exact absurd hle hnot

end

/-! ## All fragments -/

/-- How many were handed over, and how many were not. -/
def SentAll (n : Nat) (isHanded : Prop) (s s' : State) : Prop :=
  ∃ blocks dropped, s'.sent = s.sent ++ blocks ∧ s'.nOutOverMtu = s.nOutOverMtu + dropped ∧
    blocks.length + dropped = n ∧ (dropped = 0 ↔ isHanded)

theorem SentAll.nil (s : State) : SentAll 0 True s s :=
  ⟨[], 0, (append_nil _).symm, rfl, rfl, fun _ => trivial, fun _ => rfl⟩

variable {areHanded : Prop} {frags : List Packet}

theorem SentAll.cons {n : Nat} {isHanded : Prop} {s s₁ s' : State} (h : Sent isHanded s s₁)
    (hrest : SentAll n areHanded s₁ s') : SentAll (n + 1) (isHanded ∧ areHanded) s s' := by
  obtain ⟨blocks, dropped, hsent, hover, hlen, hiff⟩ := hrest
  rcases h with ⟨hhanded, ⟨block, hblock⟩, hsame⟩ | ⟨hnot, hsame, hmore⟩
  · refine ⟨block :: blocks, dropped, ?_, by rw [hover, hsame], ?_, ?_⟩
    · rw [hsent, hblock, append_assoc, singleton_append]
    · rw [length_cons]
      omega
    · simp_all
  · refine ⟨blocks, dropped + 1, by rw [hsent, hsame], by omega, by omega, ?_⟩
    constructor
    · intro hzero
      exact absurd hzero (Nat.succ_ne_zero _)
    · intro hboth
      exact absurd hboth.1 hnot

section

variable {opts : Options} {mtu : Nat} {ps : List Packet}

theorem sendFrags_reliable (env : Nat → Env) (hreliable : opts.isReliable = true)
    (hmtu : (mtu : Int) + 12 + (if opts.allowCongestionMarking then 12 else 0) = opts.effectiveMtu)
    {frags : List Packet} (hroom : ∀ frag ∈ frags, HasRoom mtu frag)
    (hps : Forall₂ Numbered frags ps) (i : Nat) (s : State) :
    ∃ s', sendFrags opts env i ps s = .ok s' ∧
      SentAll frags.length (allFit opts env i frags s.ackQueue s.congestion = true) s s' := by
  induction hps generalizing i s with
  | nil => exact ⟨s, rfl, [], 0, (append_nil _).symm, rfl, rfl, fun _ => rfl, fun _ => rfl⟩
  | @cons frag p frags ps hp _ ih =>
    obtain ⟨s₁, hsend, hqueue, hcongestion, hsent⟩ := sendLpPacket_reliable (s := s) (env i)
      hreliable (hroom frag (.head _)) hmtu hp
    obtain ⟨s', hrest, hsentAll⟩ := ih (fun x hx => hroom x (mem_cons_of_mem frag hx)) (i + 1) s₁
    refine ⟨s', ?_, ?_⟩
    · rw [sendFrags, hsend]
      exact hrest
    · rw [hqueue, hcongestion] at hsentAll
      have hall := SentAll.cons hsent hsentAll
      rw [← Bool.and_eq_true] at hall
      exact hall

theorem sendFrags_unreliable (env : Nat → Env) (hreliable : opts.isReliable = false)
    (hmtu : (mtu : Int) + (if opts.allowCongestionMarking then 12 else 0) = opts.effectiveMtu)
    (hps : ∀ p ∈ ps, 10 + p.valueSize ≤ mtu ∧
      ∃ block, p.wireEncode = .ok block ∧ block.wire.length ≤ mtu) (i : Nat) (s : State) :
    ∃ s', sendFrags opts env i ps s = .ok s' ∧ SentAll ps.length True s s' := by
  induction ps generalizing i s with
  | nil => exact ⟨s, rfl, SentAll.nil s⟩
  | cons p ps ih =>
    obtain ⟨hvalue, block, hencode, hle⟩ := hps p (.head _)
    obtain ⟨s₁, hsend, hsent⟩ := sendLpPacket_unreliable (s := s) (env i)
      hreliable hencode hle hvalue hmtu
    obtain ⟨s', hrest, hsentAll⟩ := ih (fun x hx => hps x (mem_cons_of_mem p hx)) (i + 1) s₁
    refine ⟨s', ?_, ?_⟩
    · rw [sendFrags, hsend]
      exact hrest
    · have hall := SentAll.cons hsent hsentAll
      rwa [and_true] at hall

end

/-! ## Numbering -/

theorem assignSequences_eq (lastSeqNo : Nat) (frags : List Packet) :
    ∃ ps last, assignSequences lastSeqNo frags = .ok (ps, last) ∧
      Forall₂ (fun frag p => ∃ seq, frag.set sequenceField seq = .ok p) frags ps := by
  induction frags generalizing lastSeqNo with
  | nil => exact ⟨[], lastSeqNo, rfl, .nil⟩
  | cons frag frags ih =>
    obtain ⟨p, hset⟩ := exists_set (p := frag) (f := sequenceField)
      (v := (lastSeqNo + 1) % 2 ^ 64) rfl
    obtain ⟨ps, last, hrest, hps⟩ := ih ((lastSeqNo + 1) % 2 ^ 64)
    refine ⟨p :: ps, last, ?_, .cons ⟨_, hset⟩ hps⟩
    rw [assignSequences]
    simp only [hset, hrest, bind, bind]
    rfl

theorem getElem?_assignSequences {lastSeqNo last : Nat} {ps : List Packet}
    (h : assignSequences lastSeqNo frags = .ok (ps, last)) :
    ps.length = frags.length ∧ ∀ (i : Nat) (p : Packet), ps[i]? = some p →
      ∃ frag, frags[i]? = some frag ∧
        frag.set sequenceField ((lastSeqNo + 1 + i) % 2 ^ 64) = .ok p := by
  induction frags generalizing lastSeqNo ps with
  | nil =>
    obtain ⟨rfl, rfl⟩ := Prod.mk.inj (ok.inj h)
    exact ⟨rfl, fun i p hp => by cases hp⟩
  | cons frag frags ih =>
    obtain ⟨p, hset, h⟩ := bind_eq_ok_iff.1 h
    obtain ⟨⟨ps, last⟩, hrest, h⟩ := bind_eq_ok_iff.1 h
    obtain ⟨rfl, rfl⟩ := Prod.mk.inj (ok.inj h)
    obtain ⟨hlength, hnumbers⟩ := ih hrest
    refine ⟨congrArg Nat.succ hlength, fun i q hq => ?_⟩
    cases i with
    | zero =>
      obtain rfl := some.inj hq
      exact ⟨frag, rfl, hset⟩
    | succ i => grind

theorem assignTxSequence_set (s : Sender) (frag : Packet) :
    Ends IsRangeExceeded (fun r => ∃ txSeq, frag.set txSequenceField txSeq = .ok r.2)
      (s.assignTxSequence frag) := by
  obtain ⟨p, hset⟩ := exists_set (p := frag) (f := txSequenceField)
    (v := (s.lastTxSeqNo + 1) % 2 ^ 64) rfl
  rw [Sender.assignTxSequence, hset]
  split
  · rfl
  · exact ⟨_, hset⟩

theorem storeFrags_set (netPkt index : Nat) (frags : List Packet) (s : Sender) :
    Ends IsRangeExceeded (fun r =>
        Forall₂ (fun frag p => ∃ txSeq, frag.set txSequenceField txSeq = .ok p) frags r.2)
      (s.storeFrags netPkt index frags) := by
  induction frags generalizing index s with
  | nil => exact Forall₂.nil
  | cons frag frags ih =>
    have hstore : Ends IsRangeExceeded (fun r => ∃ txSeq, frag.set txSequenceField txSeq = .ok r.2)
        (s.storeFrag netPkt index frag) :=
      (assignTxSequence_set s frag).bind fun r hr => hr
    refine hstore.bind fun r hr => ?_
    refine (ih (index + 1) r.1).bind fun r' hr' => ?_
    exact Forall₂.cons hr hr'

/-! ## A network packet -/

/-- What `sendNetPacket` gets from the fragmenter. -/
structure Fragmented (mtu : Nat) (pkt : Packet) (frags : List Packet) : Prop where
  ne_nil : frags ≠ []
  hasRoom : ∀ frag ∈ frags, HasRoom mtu frag
  single : frags.length = 1 → frags = [pkt] ∧
    ∃ wire, pkt.wireEncode = .ok wire ∧ wire.wire.length ≤ mtu

theorem fragmented {pkt : Packet} (hbuilt : pkt.Built) {payload : List UInt8}
    (hpayload : pkt.get fragmentField = .ok payload) (hindex : pkt.has fragIndexField = false)
    (hcount : pkt.has fragCountField = false)
    (hnet : pkt.isBare = true → IsNetworkPacket payload) (hcompact : isCompact pkt = true)
    {nMaxFragments mtu : Nat} (hmax : nMaxFragments < 2 ^ 64)
    (hfrags : fragmentPacket nMaxFragments pkt mtu = .ok (some frags)) :
    Fragmented mtu pkt frags := by
  rcases LpFragmenter.fragmentPacket_cases hbuilt hpayload hindex hcount hnet hmax mtu with
    hnone | ⟨wire, hencode, hle, hone, hroom⟩ | ⟨frags', hsome, hspec, -, hroom, -, hseveral⟩
  · rw [hfrags] at hnone
    cases hnone
  · obtain rfl : frags = [pkt] := some.inj (ok.inj (hfrags.symm.trans hone))
    refine ⟨cons_ne_nil _ _, fun frag hfrag => ?_, fun _ => ⟨rfl, wire, hencode, by omega⟩⟩
    rw [mem_singleton.1 hfrag]
    exact hroom
  · obtain rfl : frags = frags' := some.inj (ok.inj (hfrags.symm.trans hsome))
    refine ⟨?_, fun frag hfrag => (hroom frag hfrag).1, fun hone => absurd hone (hseveral hcompact)⟩
    rintro rfl
    obtain ⟨frag, hhead, -⟩ := hspec.headers
    cases hhead

section

variable {opts : Options} {mtu : Nat} {pkt : Packet} {frags : List Packet}

theorem has_fragment_of_set {V : Type} {f : Lp.Field V} {v : V} {frag p : Packet}
    (hset : frag.set f v = .ok p) (hne : f.decl.tlvType ≠ Lp.Tlv.fragment)
    (h : ∃ e ∈ frag.elements, e.type = Lp.Tlv.fragment) : p.has fragmentField = true := by
  obtain ⟨e, he, htype⟩ := h
  obtain ⟨value, -, -, hperm⟩ := set_perm hset
  have hmem : e ∈ p.elements := by
    refine hperm.mem_iff.2 (.tail _ (mem_filter.2 ⟨he, ?_⟩))
    rw [htype]
    simpa using Ne.symm hne
  cases hhas : p.has fragmentField with
  | true => rfl
  | false => exact absurd htype (has_eq_false_iff.1 hhas e hmem)

theorem forall₂_numbered {ps qs : List Packet}
    (hps : Forall₂ (fun frag p => ∃ seq, frag.set sequenceField seq = .ok p) frags ps)
    (hqs : Forall₂ (fun p q => ∃ txSeq, set txSequenceField txSeq p = .ok q) ps qs)
    (hfrags : ∀ frag ∈ frags, frag.WellFormed) : Forall₂ Numbered frags qs := by
  induction hps generalizing qs with
  | nil =>
    cases hqs
    exact .nil
  | cons hp _ ih =>
    cases hqs with
    | cons hq hqs =>
      obtain ⟨seq, hseq⟩ := hp
      obtain ⟨txSeq, htx⟩ := hq
      exact .cons (numbered_of_set (hfrags _ (.head _)) hseq htx)
        (ih hqs fun frag hfrag => hfrags frag (.tail _ hfrag))

theorem numberFrags_reliable (hreliable : opts.isReliable = true) (h : Fragmented mtu pkt frags)
    (isInterest : Bool) (s : State) :
    Ends IsRangeExceeded (fun r => Forall₂ Numbered frags r.2 ∧ r.1.sent = s.sent ∧
        r.1.nOutOverMtu = s.nOutOverMtu ∧ r.1.ackQueue = s.ackQueue ∧ r.1.congestion = s.congestion)
      (numberFrags opts isInterest frags s) := by
  obtain ⟨ps, last, hassign, hps⟩ := assignSequences_eq s.lastSeqNo frags
  have hhead : ps.head?.any (has fragmentField) = true := by
    cases hps with
    | nil => exact absurd rfl h.ne_nil
    | cons hp _ =>
      obtain ⟨seq, hset⟩ := hp
      exact has_fragment_of_set hset (by decide) (h.hasRoom _ (.head _)).fragment
  unfold numberFrags
  rw [hreliable, Bool.true_or, if_pos rfl, hassign]
  simp only [Except.mapError, bind, Except.bind, Bool.true_and]
  rw [if_pos hhead]
  refine Ends.bind (storeFrags_set _ 0 ps _) fun r hr => ⟨?_, rfl, rfl, rfl, rfl⟩
  exact forall₂_numbered hps hr fun frag hfrag => (h.hasRoom frag hfrag).wellFormed

theorem numberFrags_unreliable (hreliable : opts.isReliable = false) (h : Fragmented mtu pkt frags)
    (isInterest : Bool) (s : State) :
    ∃ s' ps, numberFrags opts isInterest frags s = .ok (s', ps) ∧ ps.length = frags.length ∧
      s'.sent = s.sent ∧ s'.nOutOverMtu = s.nOutOverMtu ∧
      ∀ p ∈ ps, 10 + p.valueSize ≤ mtu ∧
        ∃ block, p.wireEncode = .ok block ∧ block.wire.length ≤ mtu := by
  unfold numberFrags
  rw [hreliable, Bool.false_or]
  by_cases hlen : 1 < frags.length
  · obtain ⟨ps, last, hassign, hps⟩ := assignSequences_eq s.lastSeqNo frags
    rw [if_pos (decide_eq_true hlen), hassign]
    refine ⟨_, ps, rfl, hps.length_eq.symm, rfl, rfl, fun p hp => ?_⟩
    obtain ⟨i, hi⟩ := getElem?_of_mem hp
    obtain ⟨frag, hfrag, seq, hset⟩ := LpFragmenter.exists_of_forall₂ hps hi
    have hroom := (h.hasRoom frag (mem_of_getElem? hfrag)).room
    have hvalue := valueSize_set_le hset rfl
    change p.valueSize ≤ fieldSize (Block.make Lp.Tlv.sequence (Ndn.Tlv.toBigEndian 8 seq)) +
      _ at hvalue
    rw [LpFragmenter.fieldSize_sequence] at hvalue
    obtain ⟨wire, hwire, hle⟩ := LpFragmenter.size_of_set_sequence hset
    exact ⟨by omega, wire, hwire, by omega⟩
  · have hone : frags.length = 1 := by
      have hpos := length_pos_iff.2 h.ne_nil
      omega
    obtain ⟨rfl, wire, hencode, hle⟩ := h.single hone
    refine ⟨s, [pkt], rfl, rfl, rfl, rfl, fun p hp => ?_⟩
    rw [mem_singleton.1 hp]
    have hroom := (h.hasRoom pkt (.head _)).room
    exact ⟨by omega, wire, hencode, hle⟩

end

theorem SentAll.handed_iff {n : Nat} {s s' : State} (h : SentAll n areHanded s s') :
    (∃ blocks, blocks.length = n ∧ s'.sent = s.sent ++ blocks ∧ s'.nOutOverMtu = s.nOutOverMtu) ↔
      areHanded := by
  obtain ⟨blocks, dropped, hsent, hover, hlen, hiff⟩ := h
  rw [← hiff]
  constructor
  · rintro ⟨-, -, -, hsame⟩
    omega
  · intro hzero
    exact ⟨blocks, by omega, hsent, by omega⟩

/-- **Sending.**  The fragments are all handed to the transport exactly if there is no reliability,
    or each of them fits with its Acks and its mark. -/
theorem sendNetPacket_hands_over_iff {opts : Options}
    (hfragmentation : opts.allowFragmentation = true)
    (hmax : opts.nMaxFragments < 2 ^ 64) (hmtu : 0 ≤ opts.reducedMtu) (env : Nat → Env)
    {pkt : Packet} (hbuilt : pkt.Built) {payload : List UInt8}
    (hpayload : pkt.get fragmentField = .ok payload)
    (hindex : pkt.has fragIndexField = false) (hcount : pkt.has fragCountField = false)
    (hnet : pkt.isBare = true → Packet.IsNetworkPacket payload) (hcompact : isCompact pkt = true)
    {frags : List Packet}
    (hfrags : fragmentPacket opts.nMaxFragments pkt opts.reducedMtu.toNat = .ok (some frags))
    (isInterest : Bool) (s : State) :
    Ends IsRangeExceeded (fun s' =>
        (∃ blocks, blocks.length = frags.length ∧ s'.sent = s.sent ++ blocks ∧
          s'.nOutOverMtu = s.nOutOverMtu) ↔
        (opts.isReliable = false ∨ allFit opts env 0 frags s.ackQueue s.congestion = true))
      (sendNetPacket opts env pkt isInterest s) := by
  have hspec := fragmented hbuilt hpayload hindex hcount hnet hcompact hmax hfrags
  obtain ⟨-, heffective⟩ := reducedMtu_cases hmtu
  have hnat : (opts.reducedMtu.toNat : Int) = opts.reducedMtu := Int.toNat_of_nonneg hmtu
  have hlimited : opts.reducedMtu ≠ mtuUnlimited := by
    rw [mtuUnlimited]
    omega
  have hassert : ¬ (frags.length == 1 &&
      frags.any fun frag => frag.has fragIndexField || frag.has fragCountField) = true := by
    rw [Bool.and_eq_true, beq_iff_eq]
    rintro ⟨hone, hany⟩
    obtain ⟨rfl, -⟩ := hspec.single hone
    rw [any_cons, hindex, hcount] at hany
    cases hany
  unfold sendNetPacket
  rw [if_neg (by omega), hfragmentation, Bool.true_and, if_pos (bne_iff_ne.2 hlimited), hfrags]
  simp only [bind, Except.bind]
  rw [if_neg hassert]
  cases hreliable : opts.isReliable with
  | true =>
    rw [hreliable, if_pos rfl, ← hnat] at heffective
    refine Ends.bind (numberFrags_reliable hreliable hspec isInterest s) ?_
    rintro ⟨s₁, ps⟩ ⟨hps, hsent, hover, hqueue, hcongestion⟩
    obtain ⟨s', hrun, hall⟩ := sendFrags_reliable env hreliable heffective hspec.hasRoom hps 0 s₁
    rw [hrun]
    have hiff := hall.handed_iff
    rw [hsent, hover, hqueue, hcongestion] at hiff
    show _ ↔ _
    rw [hiff]
    simp
  | false =>
    rw [hreliable, if_neg Bool.false_ne_true, ← hnat, Int.add_zero] at heffective
    obtain ⟨s₁, ps, hnumber, hlen, hsent, hover, hps⟩ :=
      numberFrags_unreliable hreliable hspec isInterest s
    obtain ⟨s', hrun, hall⟩ := sendFrags_unreliable env hreliable heffective hps 0 s₁
    rw [hnumber]
    dsimp only
    rw [hrun]
    have hiff := hall.handed_iff
    rw [hsent, hover, hlen] at hiff
    show _ ↔ _
    rw [hiff]
    simp

/-- Everything enabled, with an MTU of 97 octets. -/
def Sample.opts : Options :=
  ⟨true, 400, true, true, 100, fun _ => 50, 65536, 2 ^ 63 - 1, 97⟩

/-- An Interest of seven octets. -/
def Sample.interest : Packet := ⟨[Block.make Lp.Tlv.fragment [5, 5, 7, 3, 8, 1, 97]], none⟩

theorem Sample.built_interest : interest.Built :=
  .add (f := fragmentField) (v := [5, 5, 7, 3, 8, 1, 97]) .empty rfl

theorem Sample.isNetworkPacket : IsNetworkPacket [5, 5, 7, 3, 8, 1, 97] :=
  ⟨_, rfl, rfl, Or.inl rfl⟩

/-- A link in a congestion incident, with some Acks to be sent. -/
def Sample.state (ackQueue : List Nat) : State :=
  ⟨2 ^ 64 - 2, Sender.init, ackQueue, ⟨some 0, 0⟩, 0, 0, 0, []⟩

/-- Five Acks leave two octets of the MTU and two for the TLV-LENGTH; the mark takes five. -/
theorem sendNetPacket_drops_marked :
    fragmentPacket 400 Sample.interest Sample.opts.reducedMtu.toNat = .ok (some [Sample.interest]) ∧
      ∃ s', sendNetPacket Sample.opts (fun _ => ⟨70000, 1⟩) Sample.interest true
          (Sample.state [1, 2, 3, 4, 5]) = .ok s' ∧
        s'.sent.length = 0 ∧ s'.nOutOverMtu = 1 :=
  ⟨rfl, _, rfl, rfl, rfl⟩

theorem sendNetPacket_hands_over_marked :
    allFit Sample.opts (fun _ => ⟨70000, 1⟩) 0 [Sample.interest] [1, 2] ⟨some 0, 0⟩ = true ∧
      Ends IsRangeExceeded (fun s' =>
          (∃ blocks, blocks.length = [Sample.interest].length ∧
            s'.sent = (Sample.state [1, 2]).sent ++ blocks ∧
            s'.nOutOverMtu = (Sample.state [1, 2]).nOutOverMtu) ↔
          (Sample.opts.isReliable = false ∨
            allFit Sample.opts (fun _ => ⟨70000, 1⟩) 0 [Sample.interest] [1, 2] ⟨some 0, 0⟩ = true))
        (sendNetPacket Sample.opts (fun _ => ⟨70000, 1⟩) Sample.interest true
          (Sample.state [1, 2])) :=
  ⟨by decide, sendNetPacket_hands_over_iff rfl (by decide) (by decide) _
    Sample.built_interest rfl rfl rfl (fun _ => Sample.isNetworkPacket) rfl rfl true _⟩

/-! ## Small MTUs -/

/-- `MIN_MTU`. -/
def minMtu : Int := 64

def canOverrideMtuTo (transportMtu mtu : Int) : Bool :=
  transportMtu != mtuUnlimited && decide (minMtu ≤ mtu)

/-- What is reserved for the feature fields of a fragment. -/
def Options.featureSpace (opts : Options) : Nat :=
  (if opts.isReliable then reservedHeaderSpace else 0) +
    if opts.allowCongestionMarking then congestionMarkSize else 0

/-- **The reduced MTU of a limited link** is not negative exactly if the transport's MTU has room
    for the feature fields.  An override is never too small for them. -/
theorem reducedMtu_nonneg_iff {opts : Options} (htransport : 0 ≤ opts.transportMtu)
    (hoverride : canOverrideMtuTo opts.transportMtu opts.overrideMtu = true) :
    0 ≤ opts.reducedMtu ↔ opts.featureSpace ≤ opts.transportMtu := by
  have hmin : 64 ≤ opts.overrideMtu := of_decide_eq_true (Bool.and_eq_true_iff.1 hoverride).2
  have heffective : opts.effectiveMtu = opts.transportMtu ∨
      64 ≤ opts.effectiveMtu ∧ 64 ≤ opts.transportMtu := by
    rw [Options.effectiveMtu]
    omega
  have hreserved : reservedHeaderSpace = 12 := rfl
  have hmark : congestionMarkSize = 12 := rfl
  rw [Options.reducedMtu, Options.featureSpace, hreserved, hmark]
  cases opts.isReliable <;> cases opts.allowCongestionMarking <;> grind [mtuUnlimited]

theorem reducedMtu_nonneg_sample :
    canOverrideMtuTo Sample.opts.transportMtu Sample.opts.overrideMtu = true ∧
      (0 ≤ Sample.opts.reducedMtu ↔ Sample.opts.featureSpace ≤ Sample.opts.transportMtu) :=
  ⟨by decide, reducedMtu_nonneg_iff (by decide) (by decide)⟩

/-- With 11 octets the link is taken for unlimited, with 10 the assertion fails. -/
theorem reducedMtu_below_zero :
    canOverrideMtuTo 11 (2 ^ 63 - 1) = true ∧
      { Sample.opts with transportMtu := 11 }.reducedMtu = mtuUnlimited ∧
      ∀ env pkt isInterest s,
        sendNetPacket { Sample.opts with transportMtu := 10 } env pkt isInterest s =
          .error .undefinedBehavior :=
  ⟨by decide, by decide, fun _ _ _ _ => rfl⟩

/-! ## Idle packets -/

def requestIdlePacket (opts : Options) (env : Env) (s : State) : Except Fault State :=
  sendLpPacket opts env .empty s

/-- The handler of the idle Ack timer; `none` if its loop goes on after so many rounds. -/
def idleAckTimer (opts : Options) (env : Nat → Env) : Nat → State → Except Fault (Option State)
  | rounds, s =>
    if s.ackQueue.isEmpty then .ok (some s)
    else
      match rounds with
      | 0 => .ok none
      | rounds + 1 => do
          let s ← requestIdlePacket opts (env rounds) s
          idleAckTimer opts env rounds s

theorem remainingSpace_idle : remainingSpace mtu 2 = sizeLimit mtu - 4 := by
  have hreserved : reservedSpace 2 = 2 := rfl
  rw [remainingSpace, hreserved]
  omega

theorem ackSize_eq : (ackSize : Int) = 12 := rfl

section

variable {opts : Options} (hreliable : opts.isReliable = true)
include hreliable

/-- An idle packet takes the Acks that fit after its two octets. -/
theorem requestIdlePacket_spec (env : Env) (s : State) :
    ∃ s', requestIdlePacket opts env s = .ok s' ∧
      s'.ackQueue = s.ackQueue.drop (ackCount s.ackQueue (remainingSpace opts.effectiveMtu 2)) := by
  obtain ⟨pkt, hloop, -, hmoved, -⟩ := piggybackLoop_eq wellFormed_empty s.ackQueue
    (remainingSpace opts.effectiveMtu 2)
  have hacks : withAcks opts .empty s.ackQueue = .ok (pkt, s.ackQueue.drop
      (ackCount s.ackQueue (remainingSpace opts.effectiveMtu 2))) := by
    rw [withAcks, if_pos hreliable]
    exact congrArg (Except.mapError Fault.raised) hloop
  have hbare : pkt.isBare = false := by
    unfold isBare
    split
    · rename_i e helements
      have hmem := hmoved.perm.subset (helements ▸ mem_singleton_self e)
      obtain ⟨n, -, rfl⟩ := mem_map.1 ((mem_append.1 hmem).resolve_right not_mem_nil)
      rfl
    · rfl
  obtain ⟨pkt', hmark, hblock⟩ : ∃ pkt', withMark (mark opts env s.congestion).1 pkt = .ok pkt' ∧
      pkt'.wireEncode = .ok pkt'.encode := by
    cases (mark opts env s.congestion).1 with
    | true =>
      obtain ⟨pkt', -, hmark, -, hblock⟩ := exists_withMark pkt
      exact ⟨pkt', hmark, hblock⟩
    | false => exact ⟨pkt, rfl, wireEncode_of_not_isBare hbare⟩
  rw [requestIdlePacket, sendLpPacket, hacks]
  simp only [bind, Except.bind, hmark, hblock]
  split
  · exact ⟨_, rfl, rfl⟩
  · exact ⟨_, rfl, rfl⟩

variable {s : State} (env : Nat → Env) (rounds : Nat)

/-- Without room for an Ack the queue stays as it is. -/
theorem idleAckTimer_stuck (hroom : sizeLimit opts.effectiveMtu < 16) (hqueue : s.ackQueue ≠ []) :
    idleAckTimer opts env rounds s = .ok none := by
  induction rounds generalizing s with
  | zero => rw [idleAckTimer, if_neg (by simpa using hqueue)]
  | succ rounds ih =>
    obtain ⟨s', hs', hsame⟩ := requestIdlePacket_spec hreliable (env rounds) s
    rw [ackCount_of_lt (by rw [remainingSpace_idle, ackSize_eq]; omega), drop_zero] at hsame
    rw [idleAckTimer, if_neg (by simpa using hqueue), hs']
    exact ih (hsame ▸ hqueue)

/-- With room for one, each round takes some. -/
theorem idleAckTimer_ends (hroom : 16 ≤ sizeLimit opts.effectiveMtu)
    (hrounds : s.ackQueue.length ≤ rounds) :
    ∃ t, idleAckTimer opts env rounds s = .ok (some t) := by
  induction rounds generalizing s with
  | zero =>
    rw [idleAckTimer, List.length_eq_zero_iff.1 (Nat.le_zero.1 hrounds)]
    exact ⟨s, rfl⟩
  | succ rounds ih =>
    cases hqueue : s.ackQueue with
    | nil =>
      rw [idleAckTimer, hqueue]
      exact ⟨s, rfl⟩
    | cons ack queue =>
      obtain ⟨s', hs', hrest⟩ := requestIdlePacket_spec hreliable (env rounds) s
      rw [hqueue, ackCount_cons (by rw [remainingSpace_idle, ackSize_eq]; omega),
        drop_succ_cons] at hrest
      rw [idleAckTimer, hqueue, if_neg (by simp), hs']
      refine ih ?_
      rw [hqueue, length_cons] at hrounds
      rw [hrest, length_drop]
      omega

/-- **The idle Ack timer** ends, after at most as many rounds as there are Acks, exactly if there is
    none or one fits in a packet. -/
theorem idleAckTimer_ends_iff (env : Nat → Env) (s : State) :
    (∃ rounds ≤ s.ackQueue.length, ∃ t, idleAckTimer opts env rounds s = .ok (some t)) ↔
      s.ackQueue = [] ∨ 16 ≤ sizeLimit opts.effectiveMtu := by
  constructor
  · rintro ⟨rounds, -, t, hends⟩
    by_contra hnot
    obtain ⟨hqueue, hroom⟩ := not_or.1 hnot
    rw [idleAckTimer_stuck hreliable env rounds (by omega) hqueue] at hends
    cases hends
  · rintro (hqueue | hroom)
    · exact ⟨0, Nat.zero_le _, s, by rw [idleAckTimer, hqueue]; rfl⟩
    · exact ⟨_, Nat.le_refl _, idleAckTimer_ends hreliable env _ hroom (Nat.le_refl _)⟩

end

theorem idleAckTimer_ends_sample :
    ∃ rounds ≤ 2, ∃ t, idleAckTimer Sample.opts (fun _ => ⟨70000, 1⟩) rounds (Sample.state [1, 2]) =
      .ok (some t) :=
  (idleAckTimer_ends_iff rfl _ (Sample.state [1, 2])).2 (Or.inr (by decide))

/-- With an MTU of 15 octets one Ack keeps the handler busy for ever. -/
theorem idleAckTimer_forever :
    ¬ ∃ rounds t, idleAckTimer { Sample.opts with transportMtu := 15 } (fun _ => ⟨0, 1⟩) rounds
      (Sample.state [1]) = .ok (some t) := by
  rintro ⟨rounds, t, hends⟩
  rw [idleAckTimer_stuck rfl _ rounds (by decide) (by simp [Sample.state])] at hends
  cases hends

end NdnMulticast.Nfd.LinkService
