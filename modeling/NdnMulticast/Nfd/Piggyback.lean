/-
  Acks on outgoing packets, after `LpReliability::piggyback` in
  `daemon/face/lp-reliability.cpp`.
-/

import NdnMulticast.Ndn.LpEdit

namespace NdnMulticast.Nfd.LpReliability

open Lib Ndn Ndn.Lp List Packet Nat

/-- `MTU_UNLIMITED`. -/
def mtuUnlimited : Int := -1

/-- Ack TLV-TYPE, TLV-LENGTH and the number. -/
def ackSize : Nat := Ndn.Tlv.sizeOfVarNumber Lp.Tlv.ack + Ndn.Tlv.sizeOfVarNumber 8 + 8

variable (mtu : Int) (pkt : Packet) (pktSize : Nat)

/-- The size a packet may have. -/
def sizeLimit : Int := if mtu = mtuUnlimited then maxNdnPacketSize else mtu

/-- Octets reserved for a longer TLV-LENGTH. -/
def reservedSpace : Int :=
  (Ndn.Tlv.sizeOfVarNumber maxNdnPacketSize : Int) - Ndn.Tlv.sizeOfVarNumber pktSize

def remainingSpace : Int :=
  sizeLimit mtu - reservedSpace pktSize - pktSize

/-- The loop of `piggyback`: the packet and the queue after it. -/
def piggybackLoop : List Nat → Int → Packet → Raises (Packet × List Nat)
  | [], _, pkt => .ok (pkt, [])
  | ackTxSeq :: queue, remainingSpace, pkt =>
    if remainingSpace < ackSize then .ok (pkt, ackTxSeq :: queue)
    else do
      let pkt ← pkt.add ackField ackTxSeq
      piggybackLoop queue (remainingSpace - ackSize) pkt

def piggyback (ackQueue : List Nat) : Except Fault (Packet × List Nat) := do
  let wire ← pkt.wireEncode
  (piggybackLoop ackQueue (remainingSpace mtu wire.wire.length) pkt).mapError Fault.raised

/-! ## The loop -/

/-- How many Acks there is space for. -/
def ackCount (queue : List Nat) (remainingSpace : Int) : Nat :=
  min queue.length (remainingSpace / ackSize).toNat

/-- The Ack element for a number. -/
def ackElement (ackTxSeq : Nat) : Block :=
  Block.make Lp.Tlv.ack (Ndn.Tlv.toBigEndian 8 ackTxSeq)

/-- The first `n` Acks of the queue have been moved to the packet, after those that are there. -/
structure Piggybacked (n : Nat) (pkt : Packet) (queue : List Nat) (pkt' : Packet)
    (queue' : List Nat) : Prop where
  left : queue' = queue.drop n
  acks : pkt'.elements.filter (·.type == Lp.Tlv.ack) =
    pkt.elements.filter (·.type == Lp.Tlv.ack) ++ (queue.take n).map ackElement
  others : pkt'.elements.filter (·.type != Lp.Tlv.ack) = pkt.elements.filter (·.type != Lp.Tlv.ack)

theorem Piggybacked.perm {n : Nat} {pkt pkt' : Packet} {queue queue' : List Nat}
    (h : Piggybacked n pkt queue pkt' queue') :
    pkt'.elements.Perm ((queue.take n).map ackElement ++ pkt.elements) := by
  have hnew := (filter_append_perm (·.type == Lp.Tlv.ack) pkt'.elements).symm
  have hold := filter_append_perm (·.type == Lp.Tlv.ack) pkt.elements
  have hothers : pkt'.elements.filter (fun e => !(e.type == Lp.Tlv.ack)) =
      pkt.elements.filter fun e => !(e.type == Lp.Tlv.ack) := h.others
  rw [h.acks, hothers] at hnew
  refine hnew.trans (List.Perm.trans ?_ (hold.append_left _))
  rw [← append_assoc]
  exact perm_append_comm.append_right _

theorem fieldSize_ack (n : Nat) : fieldSize (ackElement n) = ackSize := by
  show Ndn.Tlv.sizeOfVarNumber Lp.Tlv.ack + Ndn.Tlv.sizeOfVarNumber
    (Ndn.Tlv.toBigEndian 8 n).length +
    (Ndn.Tlv.toBigEndian 8 n).length = _
  rfl

theorem ackCount_cons {ackTxSeq : Nat} {queue : List Nat} {remainingSpace : Int}
    (h : (ackSize : Int) ≤ remainingSpace) :
    ackCount (ackTxSeq :: queue) remainingSpace =
      ackCount queue (remainingSpace - ackSize) + 1 := by
  have hsize : (ackSize : Int) = 12 := rfl
  rw [ackCount, ackCount, length_cons, hsize]
  omega

theorem ackCount_of_lt {queue : List Nat} {remainingSpace : Int} (h : remainingSpace < ackSize) :
    ackCount queue remainingSpace = 0 := by
  have hsize : (ackSize : Int) = 12 := rfl
  rw [ackCount, hsize]
  omega

theorem exists_add_ack (n : Nat) : ∃ pkt', pkt.add ackField n = .ok pkt' :=
  ⟨_, rfl⟩

theorem piggybackLoop_eq {pkt : Packet} (h : pkt.WellFormed) (queue : List Nat) (room : Int) :
    ∃ pkt', piggybackLoop queue room pkt = .ok (pkt', queue.drop (ackCount queue room)) ∧
      pkt'.WellFormed ∧
        Piggybacked (ackCount queue room) pkt queue pkt' (queue.drop (ackCount queue room)) ∧
      pkt'.valueSize = ackSize * ackCount queue room + pkt.valueSize ∧
      (ackCount queue room = 0 → pkt' = pkt) ∧ (0 < ackCount queue room → pkt'.wire = none) := by
  induction queue generalizing pkt room with
  | nil =>
    have hzero : ackCount [] room = 0 := zero_min _
    rw [hzero]
    exact ⟨pkt, rfl, h, ⟨rfl, (append_nil _).symm, rfl⟩, by omega, fun _ => rfl,
      fun hpos => absurd hpos (lt_irrefl 0)⟩
  | cons ackTxSeq queue ih =>
    rw [piggybackLoop]
    by_cases hroom : room < ackSize
    · rw [if_pos hroom, ackCount_of_lt hroom]
      exact ⟨pkt, rfl, h, ⟨rfl, (append_nil _).symm, rfl⟩, by omega, fun _ => rfl,
        fun hpos => absurd hpos (lt_irrefl 0)⟩
    · rw [if_neg hroom, ackCount_cons (Int.not_lt.1 hroom)]
      obtain ⟨pkt₁, hadd⟩ := exists_add_ack pkt ackTxSeq
      obtain ⟨pkt', hloop, hpkt', hmoved, hsize, hsame, hwire⟩ := ih (h.add hadd) (room - ackSize)
      have hadded := valueSize_add hadd rfl
      have hfield := fieldSize_ack ackTxSeq
      refine ⟨pkt', ?_, hpkt', ⟨rfl, ?_, ?_⟩, ?_, fun hzero => absurd hzero (succ_ne_zero _),
        fun _ => ?_⟩
      · rw [hadd]
        exact hloop
      · have hself : pkt₁.elements.filter (·.type == Lp.Tlv.ack) =
            pkt.elements.filter (·.type == Lp.Tlv.ack) ++ [ackElement ackTxSeq] :=
          h.filter_add_self hadd rfl
        rw [hmoved.acks, hself, append_assoc]
        rfl
      · rw [hmoved.others]
        exact filter_add hadd fun value => rfl
      · change pkt₁.valueSize = fieldSize (ackElement ackTxSeq) + _ at hadded
        rw [hsize, hadded, hfield, mul_succ]
        omega
      · grind [add_perm]

/-! ## The size of the packet -/

/-- The octets of a packet that are not fields, but for TLV-TYPE: its TLV-LENGTH, and what an
    encoding that is not the shortest has more. -/
def lengthSize : Int := pktSize - 1 - pkt.valueSize

/-- The growth of the TLV-LENGTH is covered by the octets kept for it and those the Acks leave. -/
def hasSpaceFor (queue : List Nat) : Bool :=
  let n := ackCount queue (remainingSpace mtu pktSize)
  n == 0 ||
    decide (Ndn.Tlv.sizeOfVarNumber (ackSize * n + pkt.valueSize) - lengthSize pkt pktSize ≤
      reservedSpace pktSize + (remainingSpace mtu pktSize - ackSize * n))

/-- **Piggybacking.**  The Acks that are added are taken off the queue, in order.  The packet stays
    within the limit exactly if it was, and there is space for its TLV-LENGTH. -/
theorem piggyback_fits_iff {pkt : Packet} (hbuilt : pkt.Built) {wire : Block}
    (hwire : pkt.wireEncode = .ok wire) (mtu : Int) (queue : List Nat) :
    ∃ n pkt' queue' wire', piggyback mtu pkt queue = .ok (pkt', queue') ∧
      Piggybacked n pkt queue pkt' queue' ∧ pkt'.wireEncode = .ok wire' ∧
      ((wire'.wire.length : Int) ≤ sizeLimit mtu ↔
        (wire.wire.length : Int) ≤ sizeLimit mtu ∧
          hasSpaceFor mtu pkt wire.wire.length queue = true) := by
  obtain ⟨pkt', hloop, hpkt', hmoved, hsize, hsame, hnone⟩ :=
    piggybackLoop_eq hbuilt.wellFormed queue (remainingSpace mtu wire.wire.length)
  have hrun : piggyback mtu pkt queue =
      .ok (pkt', queue.drop (ackCount queue (remainingSpace mtu wire.wire.length))) := by
    rw [piggyback, hwire]
    simp only [bind, Except.bind, hloop, Except.mapError]
  have hack : (ackSize : Int) = 12 := rfl
  have hreserved : (-6 : Int) ≤ reservedSpace wire.wire.length := by
    have hle := Ndn.Tlv.sizeOfVarNumber_le wire.wire.length
    have hmax : Ndn.Tlv.sizeOfVarNumber maxNdnPacketSize = 3 := rfl
    unfold reservedSpace
    omega
  have hroom : remainingSpace mtu wire.wire.length =
    sizeLimit mtu - reservedSpace wire.wire.length - wire.wire.length := rfl
  generalize hn : ackCount queue (remainingSpace mtu wire.wire.length) = n at *
  rcases Nat.eq_zero_or_pos n with hzero | hpos
  · grind [hasSpaceFor]
  -- the Acks are there, so the packet is encoded anew
  have hmem : ∃ e ∈ pkt'.elements, e.type = Lp.Tlv.ack := by
    have hlen : n ≤ queue.length := hn ▸ min_le_left _ _
    obtain ⟨x, rest, hqueue⟩ : ∃ x rest, queue.take n = x :: rest :=
      exists_cons_of_ne_nil (ne_nil_of_length_pos (by
        rw [length_take]
        omega))
    have hfilter := hmoved.acks
    rw [hqueue, map_cons] at hfilter
    have hx : ackElement x ∈ pkt'.elements.filter (·.type == Lp.Tlv.ack) := by
      rw [hfilter]
      simp
    exact ⟨ackElement x, (mem_filter.1 hx).1, rfl⟩
  have hbare : pkt'.isBare = false := by
    obtain ⟨e, he, htype⟩ := hmem
    exact isBare_eq_false he (by rw [htype]; decide)
  refine ⟨n, pkt', _, pkt'.encode, hrun, hmoved, wireEncode_of_not_isBare hbare, ?_⟩
  have hencode := size_encode (hnone hpos)
  have hfits : (ackSize * n : Int) ≤ remainingSpace mtu wire.wire.length := by
    rw [ackCount, hack] at hn
    rw [hack]
    omega
  have hspace : hasSpaceFor mtu pkt wire.wire.length queue = true ↔
      n = 0 ∨ Ndn.Tlv.sizeOfVarNumber (ackSize * n + pkt.valueSize) - lengthSize pkt
        wire.wire.length ≤
        reservedSpace wire.wire.length + (remainingSpace mtu wire.wire.length - ackSize * n) := by
    rw [hasSpaceFor, hn, Bool.or_eq_true, beq_iff_eq, decide_eq_true_eq]
  rw [hspace, hencode, hsize, lengthSize]
  have h12 : ackSize * n = 12 * n := rfl
  omega

/-- A fragment with a sequence number. -/
def Sample.fragment (payload : List UInt8) : Packet :=
  ⟨[Block.make Lp.Tlv.sequence (Ndn.Tlv.toBigEndian 8 1), Block.make Lp.Tlv.fragment payload], none⟩

theorem Sample.built_fragment (payload : List UInt8) : (Sample.fragment payload).Built :=
  .add (f := sequenceField) (v := 1) (.add (f := fragmentField) (v := payload) .empty rfl) rfl

theorem Sample.valueSize_fragment {payload : List UInt8} (h : payload.length < 253) :
    (Sample.fragment payload).valueSize = 12 + payload.length := by
  have hsequence : fieldSize (Block.make Lp.Tlv.sequence (Ndn.Tlv.toBigEndian 8 1)) = 10 := by
    decide
  have hfragment : fieldSize (Block.make Lp.Tlv.fragment payload) = 2 + payload.length := by
    have hlength : Ndn.Tlv.sizeOfVarNumber payload.length = 1 := if_pos h
    rw [fieldSize_eq]
    show 1 + Ndn.Tlv.sizeOfVarNumber payload.length + payload.length = 2 + payload.length
    rw [hlength]
  show fieldSize _ + (fieldSize _ + 0) = 12 + payload.length
  omega

/-- A packet of 253 octets: nothing is reserved, as a number as large as its size takes three
    octets, but its TLV-LENGTH still takes one. -/
theorem piggyback_outgrows_mtu :
    ∃ payload wire pkt' wire', (Sample.fragment payload).Built ∧
      (Sample.fragment payload).wireEncode = .ok wire ∧ wire.type = Lp.Tlv.lpPacket ∧
      wire.wire.length = 253 ∧ piggyback 265 (Sample.fragment payload) [7] = .ok (pkt', []) ∧
      pkt'.wireEncode = .ok wire' ∧ wire'.wire.length = 267 := by
  generalize hpayload : List.replicate 239 (0 : UInt8) = payload
  have hlen : payload.length = 239 := by rw [← hpayload, length_replicate]
  have hvalue := Sample.valueSize_fragment (show payload.length < 253 by omega)
  have hsize := size_encode (p := Sample.fragment payload) rfl
  rw [hvalue, hlen] at hsize
  obtain ⟨pkt', hadd⟩ := exists_add_ack (Sample.fragment payload) 7
  have hvalue' := valueSize_add hadd rfl
  obtain ⟨-, -, hwire', -⟩ := add_perm hadd
  have hsize' := size_encode hwire'
  change pkt'.valueSize = fieldSize (ackElement 7) + _ at hvalue'
  rw [fieldSize_ack, hvalue, hlen] at hvalue'
  rw [hvalue'] at hsize'
  refine ⟨payload, (Sample.fragment payload).encode, pkt', pkt'.encode,
    Sample.built_fragment payload,
    rfl, rfl, hsize, ?_, ?_, hsize'⟩
  · show (piggybackLoop [7] (remainingSpace 265 (Sample.fragment payload).encode.wire.length)
      (Sample.fragment payload)).mapError Fault.raised = _
    have hroom : ¬ remainingSpace 265 (1 + Ndn.Tlv.sizeOfVarNumber (12 + 239) + (12 + 239)) <
        ackSize := by
      decide
    rw [hsize, piggybackLoop, if_neg hroom, hadd]
    rfl
  · obtain rfl := Except.ok.inj hadd
    rfl

theorem piggyback_fits_one_ack :
    ∃ wire, (Sample.fragment [5, 2, 7, 0]).wireEncode = .ok wire ∧
      ((wire.wire.length : Int) ≤ sizeLimit 64 ∧
        hasSpaceFor 64 (Sample.fragment [5, 2, 7, 0]) wire.wire.length [7] = true) ∧
      ∃ n pkt' queue' wire', piggyback 64 (Sample.fragment [5, 2, 7, 0]) [7] = .ok (pkt', queue') ∧
        Piggybacked n (Sample.fragment [5, 2, 7, 0]) [7] pkt' queue' ∧ pkt'.wireEncode = .ok wire' ∧
        ((wire'.wire.length : Int) ≤ sizeLimit 64 ↔
          (wire.wire.length : Int) ≤ sizeLimit 64 ∧
            hasSpaceFor 64 (Sample.fragment [5, 2, 7, 0]) wire.wire.length [7] = true) :=
  ⟨(Sample.fragment [5, 2, 7, 0]).encode, rfl, by decide,
    piggyback_fits_iff (Sample.built_fragment _) rfl 64 [7]⟩

end NdnMulticast.Nfd.LpReliability
