/-
  Fragmentation of network packets, after `daemon/face/lp-fragmenter.cpp`.

  The overhead of a single fragment is estimated as if the TLV-TYPE and TLV-LENGTH of the
  packet and of its Fragment took ten octets at most (`isCompact`).
-/

import NdnMulticast.Lib.Blocks
import NdnMulticast.Ndn.LpEdit

namespace NdnMulticast.Nfd.LpFragmenter

open Lib Ndn Ndn.Lp List Option Packet Nat

/-- LpPacket TLV-TYPE and TLV-LENGTH, Sequence TLV, Fragment TLV-TYPE and TLV-LENGTH. -/
def maxSingleFragOverhead : Nat := (1 + 9) + (1 + 1 + 8) + (1 + 9)

/-- `MAX_FRAG_OVERHEAD`: FragIndex TLV and FragCount TLV in addition. -/
def maxFragOverhead : Nat := (1 + 9) + (1 + 1 + 8) + (1 + 1 + 8) + (1 + 1 + 8) + (1 + 9)

/-- Those of a bare network packet have not been parsed. -/
def wireElements (packet : Packet) : List Block :=
  if packet.isBare then []
  else
    match packet.wire with
    | some _ => packet.elements
    | none => packet.elements.map Packet.reencode

/-- The size of the headers that go with the first fragment. -/
def firstHeaderSize (packet : Packet) (packetWire : Block) : Nat :=
  if packetWire.type = Lp.Tlv.lpPacket then
    (((wireElements packet).filter (·.type != Lp.Tlv.fragment)).map fun e => e.wire.length).sum
  else 0

/-- One round of the loop: a fragment is filled in. -/
def fill (frag : Packet) (fragIndex fragCount : Nat) (payload : List UInt8) : Raises Packet := do
  let frag ← frag.add fragIndexField fragIndex
  let frag ← frag.add fragCountField fragCount
  frag.set fragmentField payload

/-- The loop that populates the fragments; the first one is a copy of the packet. -/
def populate (packet : Packet) (fragCount payloadSize : Nat) :
    Nat → Nat → Nat → List UInt8 → Except Fault (List Packet)
  | 0, _, _, _ => .ok []
  | fuel + 1, fragIndex, fragSize, rest =>
    if rest = [] then .ok []
    else if fragCount ≤ fragIndex then .error .undefinedBehavior
    else do
      let frag ← (fill (if fragIndex = 0 then packet else Packet.empty) fragIndex fragCount
        (rest.take fragSize)).mapError Fault.raised
      let frags ← populate packet fragCount payloadSize fuel (fragIndex + 1) payloadSize
        (rest.drop fragSize)
      return frag :: frags

/-- `LpFragmenter::fragmentPacket`; `none` reports failure. -/
def fragmentPacket (nMaxFragments : Nat) (packet : Packet) (mtu : Nat) :
    Except Fault (Option (List Packet)) := do
  let packetWire ← packet.wireEncode
  if maxSingleFragOverhead + packetWire.wire.length ≤ mtu then return some [packet]
  else
    let netPkt ← (packet.get fragmentField).mapError Fault.raised
    let firstHeaderSize := firstHeaderSize packet packetWire
    if mtu < maxFragOverhead + firstHeaderSize + 1 then return none
    else
      let firstPayloadSize := min netPkt.length (mtu - firstHeaderSize - maxFragOverhead)
      let payloadSize := mtu - maxFragOverhead
      let fragCount := 1 + blockCount payloadSize (netPkt.length - firstPayloadSize)
      if nMaxFragments < fragCount then return none
      else
        let frags ← populate packet fragCount payloadSize netPkt.length 0 firstPayloadSize netPkt
        return some (frags ++ List.replicate (fragCount - frags.length) Packet.empty)

/-! ## One fragment -/

/-- Neither FragIndex, FragCount nor Fragment. -/
def isOtherHeader (tlvType : Nat) : Bool :=
  tlvType != Lp.Tlv.fragIndex && tlvType != Lp.Tlv.fragCount && tlvType != Lp.Tlv.fragment

/-- The fragment carries a piece of the payload, its index, the count, and the headers. -/
structure IsFragment (base : Packet) (fragIndex fragCount : Nat) (payload : List UInt8)
    (frag : Packet) : Prop where
  wellFormed : frag.WellFormed
  wire : frag.wire = none
  perm : frag.elements.Perm
    (Block.make Lp.Tlv.fragment payload ::
      Block.make Lp.Tlv.fragCount (Ndn.Tlv.nonNegativeInteger fragCount) ::
      Block.make Lp.Tlv.fragIndex (Ndn.Tlv.nonNegativeInteger fragIndex) ::
      base.elements.filter (·.type != Lp.Tlv.fragment))
  headers : frag.elements.filter (isOtherHeader ·.type) =
    base.elements.filter (isOtherHeader ·.type)

theorem exists_fill {base : Packet} (hbase : base.WellFormed)
    (hindex : base.has fragIndexField = false) (hcount : base.has fragCountField = false)
    (fragIndex fragCount : Nat) (payload : List UInt8) :
    ∃ frag, fill base fragIndex fragCount payload = .ok frag ∧
      IsFragment base fragIndex fragCount payload frag := by
  obtain ⟨p₁, h₁⟩ := exists_add (v := fragIndex) rfl hindex
  obtain ⟨value₁, hvalue₁, -, hperm₁⟩ := add_perm h₁
  obtain rfl := Except.ok.inj hvalue₁
  have hcount₁ : p₁.has fragCountField = false := by
    rw [has_eq_false_iff] at hcount ⊢
    intro e he
    rcases mem_cons.1 (hperm₁.mem_iff.1 he) with rfl | he
    · show Lp.Tlv.fragIndex ≠ Lp.Tlv.fragCount
      decide
    · exact hcount e he
  obtain ⟨p₂, h₂⟩ := exists_add (v := fragCount) rfl hcount₁
  obtain ⟨value₂, hvalue₂, -, hperm₂⟩ := add_perm h₂
  obtain rfl := Except.ok.inj hvalue₂
  obtain ⟨p₃, h₃⟩ := exists_set (p := p₂) (f := fragmentField) (v := payload) rfl
  obtain ⟨value₃, hvalue₃, hwire, hperm₃⟩ := set_perm h₃
  obtain rfl := Except.ok.inj hvalue₃
  refine ⟨p₃, ?_, ((hbase.add h₁).add h₂).set h₃, hwire, ?_, ?_⟩
  · simp only [fill, bind, Except.bind, h₁, h₂, h₃]
  · refine hperm₃.trans (Perm.cons _ ?_)
    have hall : p₂.elements.Perm
        (Block.make Lp.Tlv.fragCount (Ndn.Tlv.nonNegativeInteger fragCount) ::
          Block.make Lp.Tlv.fragIndex (Ndn.Tlv.nonNegativeInteger fragIndex) :: base.elements) :=
      hperm₂.trans (hperm₁.cons _)
    exact hall.filter _
  · rw [filter_set h₃, filter_add h₂, filter_add h₁]
    · intro value
      rfl
    · intro value
      rfl
    · intro e he
      rw [isOtherHeader, he]
      rfl

/-! ### What a fragment carries -/

section

variable {base frag : Packet} {fragIndex fragCount : Nat} {payload : List UInt8}

theorem get_nonNegativeInteger {f : Lp.Field Nat} {n : Nat}
    (hf : f.decode = Ndn.Tlv.readNonNegativeInteger)
    (hn : n < 2 ^ 64) : f.decode (Ndn.Tlv.nonNegativeInteger n) = .ok n := by
  have hlen : (Ndn.Tlv.nonNegativeInteger n).length = 1 ∨
    (Ndn.Tlv.nonNegativeInteger n).length = 2 ∨
      (Ndn.Tlv.nonNegativeInteger n).length = 4 ∨ (Ndn.Tlv.nonNegativeInteger n).length = 8 := by
    unfold Ndn.Tlv.nonNegativeInteger
    split_ifs <;> simp [Ndn.Tlv.length_toBigEndian]
  rw [hf, Ndn.Tlv.readNonNegativeInteger, if_pos hlen, Ndn.Tlv.bigEndian_nonNegativeInteger hn]

section

variable (h : IsFragment base fragIndex fragCount payload frag)
include h

theorem IsFragment.get_fragment (hpayload : payload ≠ []) :
    frag.get fragmentField = .ok payload := by
  rw [h.wellFormed.get_eq (f := fragmentField) rfl (h.perm.mem_iff.2 (.head _)) rfl]
  exact if_neg hpayload

theorem IsFragment.get_fragCount (hcount : fragCount < 2 ^ 64) :
    frag.get fragCountField = .ok fragCount := by
  have hmem : Block.make Lp.Tlv.fragCount (Ndn.Tlv.nonNegativeInteger fragCount) ∈ frag.elements :=
    h.perm.mem_iff.2 (by simp)
  rw [h.wellFormed.get_eq (f := fragCountField) rfl hmem rfl]
  exact get_nonNegativeInteger (f := fragCountField) rfl hcount

theorem IsFragment.get_fragIndex (hindex : fragIndex < 2 ^ 64) :
    frag.get fragIndexField = .ok fragIndex := by
  have hmem : Block.make Lp.Tlv.fragIndex (Ndn.Tlv.nonNegativeInteger fragIndex) ∈ frag.elements :=
    h.perm.mem_iff.2 (by simp)
  rw [h.wellFormed.get_eq (f := fragIndexField) rfl hmem rfl]
  exact get_nonNegativeInteger (f := fragIndexField) rfl hindex

end

/-! ### Sizes -/

/-- The headers of a packet in the shortest encoding. -/
def headerSize (packet : Packet) : Nat :=
  ((packet.elements.filter (·.type != Lp.Tlv.fragment)).map Packet.fieldSize).sum

theorem fieldSize_fragment_le (payload : List UInt8) :
    fieldSize (Block.make Lp.Tlv.fragment payload) ≤ 10 + payload.length := by
  have hle := Ndn.Tlv.sizeOfVarNumber_le payload.length
  have htype : Ndn.Tlv.sizeOfVarNumber Lp.Tlv.fragment = 1 := rfl
  rw [fieldSize_eq]
  show Ndn.Tlv.sizeOfVarNumber Lp.Tlv.fragment + Ndn.Tlv.sizeOfVarNumber payload.length +
    payload.length ≤ _
  omega

theorem fieldSize_nonNegativeInteger_le (tlvType : Nat) (htype : tlvType < 253) (n : Nat) :
    fieldSize (Block.make tlvType (Ndn.Tlv.nonNegativeInteger n)) ≤ 10 := by
  have hlen := Ndn.Tlv.length_nonNegativeInteger_le n
  have hone : Ndn.Tlv.sizeOfVarNumber (Ndn.Tlv.nonNegativeInteger n).length = 1 := by
    rw [Ndn.Tlv.sizeOfVarNumber, if_pos (by omega)]
  have htype' : Ndn.Tlv.sizeOfVarNumber tlvType = 1 := by
    rw [Ndn.Tlv.sizeOfVarNumber, if_pos htype]
  rw [fieldSize_eq]
  show Ndn.Tlv.sizeOfVarNumber tlvType + Ndn.Tlv.sizeOfVarNumber
    (Ndn.Tlv.nonNegativeInteger n).length +
    (Ndn.Tlv.nonNegativeInteger n).length ≤ _
  omega

theorem fieldSize_sequence (n : Nat) :
    fieldSize (Block.make Lp.Tlv.sequence (Ndn.Tlv.toBigEndian 8 n)) = 10 := by
  show Ndn.Tlv.sizeOfVarNumber Lp.Tlv.sequence + Ndn.Tlv.sizeOfVarNumber
    (Ndn.Tlv.toBigEndian 8 n).length +
    (Ndn.Tlv.toBigEndian 8 n).length = _
  rfl

theorem IsFragment.valueSize_le (h : IsFragment base fragIndex fragCount payload frag) :
    frag.valueSize ≤ 30 + headerSize base + payload.length := by
  have hfragment := fieldSize_fragment_le payload
  have hcount := fieldSize_nonNegativeInteger_le Lp.Tlv.fragCount (by decide) fragCount
  have hindex := fieldSize_nonNegativeInteger_le Lp.Tlv.fragIndex (by decide) fragIndex
  rw [valueSize, (h.perm.map fieldSize).sum_eq]
  show _ + (_ + (_ + headerSize base)) ≤ _
  omega

/-- A packet with a Sequence is encoded as an LpPacket, whatever the number. -/
theorem size_of_set_sequence {p p' : Packet} {seq : Nat}
    (hset : p.set sequenceField seq = .ok p') :
    ∃ wire, p'.wireEncode = .ok wire ∧ wire.wire.length ≤ 20 + p.valueSize := by
  obtain ⟨value, hvalue, hwire, hperm⟩ := set_perm hset
  have hsize := valueSize_set_le hset rfl
  have hbare : p'.isBare = false :=
    isBare_eq_false (hperm.mem_iff.2 (.head _)) (by show Lp.Tlv.sequence ≠ Lp.Tlv.fragment; decide)
  refine ⟨p'.encode, wireEncode_of_not_isBare hbare, ?_⟩
  have hle := size_encode_le hwire
  have hfield := fieldSize_sequence seq
  change p'.valueSize ≤ fieldSize (Block.make Lp.Tlv.sequence (Ndn.Tlv.toBigEndian 8 seq)) +
    _ at hsize
  omega

/-- There is room for a Sequence, even if the TLV-LENGTH of the packet takes nine octets. -/
structure HasRoom (mtu : Nat) (frag : Packet) : Prop where
  wellFormed : frag.WellFormed
  fragment : ∃ e ∈ frag.elements, e.type = Lp.Tlv.fragment
  room : 20 + frag.valueSize ≤ mtu

theorem HasRoom.fits {mtu : Nat} (h : HasRoom mtu frag) (seq : Nat) :
    ∃ frag', frag.set sequenceField seq = .ok frag' ∧
      ∃ wire, frag'.wireEncode = .ok wire ∧ wire.wire.length ≤ mtu := by
  obtain ⟨frag', hset⟩ := exists_set (p := frag) (f := sequenceField) (v := seq) rfl
  obtain ⟨wire, hencode, hle⟩ := LpFragmenter.size_of_set_sequence hset
  exact ⟨frag', hset, wire, hencode, le_trans hle h.room⟩

theorem IsFragment.hasRoom (h : IsFragment base fragIndex fragCount payload frag) {mtu : Nat}
    (hle : maxFragOverhead + headerSize base + payload.length ≤ mtu) : HasRoom mtu frag := by
  have hvalue := h.valueSize_le
  have hoverhead : maxFragOverhead = 50 := rfl
  exact ⟨h.wellFormed, ⟨_, h.perm.mem_iff.2 (.head _), rfl⟩, by omega⟩

end

/-! ## The loop -/

/-- The packet that a fragment starts from. -/
def baseOf (packet : Packet) (fragIndex : Nat) : Packet :=
  if fragIndex = 0 then packet else Packet.empty

variable {packet : Packet} {payload : List UInt8}

theorem populate_eq (hpacket : packet.WellFormed) (hindex : packet.has fragIndexField = false)
    (hcount : packet.has fragCountField = false) (fragCount payloadSize fuel : Nat)
    (fragIndex fragSize : Nat) (rest : List UInt8)
    (hfits : fragIndex + (cut fragSize payloadSize fuel rest).length ≤ fragCount) :
    ∃ frags, populate packet fragCount payloadSize fuel fragIndex fragSize rest = .ok frags ∧
      Forall₂ (fun (piece : List UInt8 × Nat) frag =>
        IsFragment (baseOf packet piece.2) piece.2 fragCount piece.1 frag)
        ((cut fragSize payloadSize fuel rest).zipIdx fragIndex) frags := by
  induction fuel generalizing fragIndex fragSize rest with
  | zero => exact ⟨[], rfl, .nil⟩
  | succ fuel ih =>
    rw [populate]
    by_cases hrest : rest = []
    · rw [if_pos hrest, cut, if_pos hrest]
      exact ⟨[], rfl, .nil⟩
    · rw [cut_of_ne_nil hrest] at hfits ⊢
      rw [length_cons] at hfits
      have hlt : ¬ fragCount ≤ fragIndex := by omega
      obtain ⟨frag, hfill, hfrag⟩ : ∃ frag,
          fill (baseOf packet fragIndex) fragIndex fragCount (rest.take fragSize) = .ok frag ∧
            IsFragment (baseOf packet fragIndex) fragIndex fragCount (rest.take fragSize) frag := by
        unfold baseOf
        split
        · exact exists_fill hpacket hindex hcount _ _ _
        · exact exists_fill wellFormed_empty rfl rfl _ _ _
      obtain ⟨frags, hfrags, hall⟩ := ih (fragIndex + 1) payloadSize (rest.drop fragSize) (by omega)
      refine ⟨frag :: frags, ?_, .cons hfrag hall⟩
      rw [if_neg hrest, if_neg hlt]
      change ((fill (baseOf packet fragIndex) fragIndex fragCount (rest.take fragSize)).mapError
        Fault.raised >>= _) = _
      rw [hfill]
      simp only [Except.mapError, bind, Except.bind, hfrags, pure, Except.pure]

/-! ## Packets to be fragmented -/

/-- The TLV-TYPE and TLV-LENGTH of the packet and of its Fragment take ten octets at most. -/
def isCompact (packet : Packet) : Bool :=
  match packet.wire with
  | none => true
  | some wire =>
    decide (wire.tl.length ≤ 10) &&
      packet.elements.all fun e => e.type != Lp.Tlv.fragment || decide (e.tl.length ≤ 10)

theorem exists_wireEncode (hpacket : packet.WellFormed)
    (hpayload : packet.get fragmentField = .ok payload)
    (hnet : packet.isBare = true → IsNetworkPacket payload) :
    ∃ packetWire, packet.wireEncode = .ok packetWire ∧
      packet.valueSize ≤ 10 + packetWire.wire.length ∧
      headerSize packet ≤ firstHeaderSize packet packetWire ∧
      (isCompact packet = true →
        packetWire.wire.length ≤ 20 + firstHeaderSize packet packetWire + payload.length) := by
  obtain ⟨e, he, htype, hdecode⟩ := exists_of_get hpayload
  have hvalue : e.value = payload := by
    change (if e.value = [] then _ else Except.ok e.value) = _ at hdecode
    split at hdecode
    · cases hdecode
    · exact Except.ok.inj hdecode
  have htype : e.type = Lp.Tlv.fragment := htype
  have hfield : fieldSize e ≤ 10 + payload.length := by
    have hle := fieldSize_fragment_le payload
    rw [← htype, ← hvalue] at hle
    rw [← hvalue]
    exact hle
  -- the Fragment and the headers
  have hperm := hpacket.perm_of_mem he (by rw [htype]; rfl)
  rw [htype] at hperm
  have hsum : ∀ w : Block → Nat, (packet.elements.map w).sum =
      w e + ((packet.elements.filter (·.type != Lp.Tlv.fragment)).map w).sum := by
    intro w
    rw [(hperm.map w).sum_eq, List.map_cons, List.sum_cons]
  have hsize : packet.valueSize = fieldSize e + headerSize packet := hsum fieldSize
  cases hbare : packet.isBare with
  | true =>
    have hone : packet.elements = [e] := by
      unfold isBare at hbare
      split at hbare
      · simp_all
      · cases hbare
    obtain ⟨b, hencode, hwire, hb, -⟩ := wireEncode_of_isBare hone htype (hvalue ▸ hnet hbare)
    have hheader : headerSize packet = 0 := by
      rw [headerSize, hone, List.filter_cons_of_neg (by simp [htype])]
      rfl
    refine ⟨b, hencode, ?_, ?_, fun _ => ?_⟩
    · rw [hwire, hvalue]
      omega
    · rw [hheader]
      exact zero_le _
    · rw [hwire, hvalue]
      omega
  | false =>
    have hencode := wireEncode_of_not_isBare hbare
    have helements : wireElements packet = match packet.wire with
        | some _ => packet.elements
        | none => packet.elements.map reencode := by
      rw [wireElements, hbare]
      rfl
    refine ⟨packet.encode, hencode, ?_⟩
    cases hwire : packet.wire with
    | none =>
      have hle := size_encode_le hwire
      have hheader : firstHeaderSize packet packet.encode = headerSize packet := by
        have hlp : packet.encode.type = Lp.Tlv.lpPacket := by
          rw [encode, hwire]
          rfl
        rw [firstHeaderSize, if_pos hlp, helements, hwire]
        rw [List.filter_map, List.map_map]
        rfl
      have hexact := size_encode hwire
      refine ⟨by omega, by omega, fun _ => ?_⟩
      omega
    | some b =>
      obtain ⟨hlp, hparse, -⟩ := hpacket.fromWire b hwire
      have hb : packet.encode = b := by rw [encode, hwire, Option.getD_some]
      have hheader : firstHeaderSize packet b =
          ((packet.elements.filter (·.type != Lp.Tlv.fragment)).map fun e =>
            e.wire.length).sum := by
        rw [firstHeaderSize, if_pos hlp, helements, hwire]
      have hwires : b.value.length = e.wire.length + firstHeaderSize packet b := by
        rw [hheader, ← hsum fun e => e.wire.length, ← Block.parse_wire hparse, List.length_flatMap]
      have hvalues := hpacket.valueSize_le_of_wire hwire
      rw [hb, Block.wire, List.length_append]
      refine ⟨by omega, ?_, fun hcompact => ?_⟩
      · rw [hheader, headerSize]
        refine List.sum_le_sum fun x hx => ?_
        exact fieldSize_le_of_encodes (Block.parse_encodes hparse x (List.mem_filter.1 hx).1)
      · simp only [isCompact, hwire, Bool.and_eq_true, decide_eq_true_eq,
          List.all_eq_true] at hcompact
        have hfragment := hcompact.2 e he
        simp only [htype, bne_self_eq_false, Bool.false_or, decide_eq_true_eq] at hfragment
        rw [Block.wire, List.length_append, hvalue] at hwires
        omega

/-! ## All fragments -/

/-- What fragmentation is for. -/
structure Fragments (packet : Packet) (payload : List UInt8) (mtu : Nat) (frags : List Packet) :
    Prop where
  payloads : ∃ pieces, frags.mapM (Packet.get fragmentField) = .ok pieces ∧ pieces.flatten = payload
  numbered : 1 < frags.length → ∀ (i : Nat) (frag : Packet), frags[i]? = some frag →
    frag.get fragIndexField = .ok i ∧ frag.get fragCountField = .ok frags.length
  headers : ∃ frag, frags.head? = some frag ∧
    frag.fields.filter (isOtherHeader ·.1) = packet.fields.filter (isOtherHeader ·.1)
  fits : ∀ frag ∈ frags, ∀ seq, ∃ frag', frag.set sequenceField seq = .ok frag' ∧
    ∃ wire, frag'.wireEncode = .ok wire ∧ wire.wire.length ≤ mtu

theorem filter_fields (packet : Packet) (keep : Nat → Bool) :
    packet.fields.filter (keep ·.1) =
      (packet.elements.filter (keep ·.type)).map fun e => (e.type, e.value) := by
  rw [fields, List.filter_map]
  rfl

theorem exists_of_forall₂ {α β : Type} {R : α → β → Prop} {as : List α} {bs : List β}
    (h : List.Forall₂ R as bs) {i : Nat} {b : β} (hb : bs[i]? = some b) :
    ∃ a, as[i]? = some a ∧ R a b := by
  induction h generalizing i with
  | nil => cases hb
  | cons hab _ ih => grind

section

variable {packet : Packet} {pieces : List (List UInt8)} {frags : List Packet}
    {start fragCount : Nat}

theorem mapM_get_fragment
    (h : Forall₂ (fun (piece : List UInt8 × Nat) frag =>
      IsFragment (baseOf packet piece.2) piece.2 fragCount piece.1 frag)
        (pieces.zipIdx start) frags)
    (hne : ∀ piece ∈ pieces, piece ≠ []) :
    frags.mapM (get fragmentField) = .ok pieces := by
  induction pieces generalizing start frags with
  | nil =>
    cases h
    rfl
  | cons piece pieces ih =>
    cases h with
    | cons hfrag hrest =>
      have hget := hfrag.get_fragment (hne piece (.head _))
      have htail := ih hrest fun x hx => hne x (mem_cons_of_mem piece hx)
      rw [mapM_cons, hget, htail]
      rfl

end

theorem pieces_fit {mtu firstSize : Nat} (hpayload : payload ≠ []) (hfirst : 0 < firstSize)
    (hmtu : maxFragOverhead + headerSize packet + firstSize ≤ mtu) {i : Nat} {piece : List UInt8}
    (hpiece : (cut firstSize (mtu - maxFragOverhead) payload.length payload)[i]? = some piece) :
    piece ≠ [] ∧ maxFragOverhead + headerSize (baseOf packet i) + piece.length ≤ mtu := by
  have hsize : 0 < mtu - maxFragOverhead := by omega
  have hpos : 0 < payload.length := length_pos_iff.2 hpayload
  obtain ⟨fuel, hfuel⟩ := exists_eq_succ_of_ne_zero (ne_of_gt hpos)
  rw [hfuel, cut_of_ne_nil hpayload] at hpiece
  cases i with
  | zero =>
    obtain rfl := some.inj hpiece
    have htake := length_take_le firstSize payload
    refine ⟨?_, ?_⟩
    · grind
    · show maxFragOverhead + headerSize packet + (payload.take firstSize).length ≤ mtu
      omega
  | succ i =>
    have hdrop : (payload.drop firstSize).length ≤ fuel := by
      rw [length_drop]
      omega
    obtain ⟨hne, hle⟩ := length_le_of_mem_cut hsize hdrop (mem_of_getElem? hpiece)
    refine ⟨hne, ?_⟩
    show maxFragOverhead + 0 + piece.length ≤ mtu
    omega

section

variable {packet : Packet} {payload : List UInt8} {mtu firstSize : Nat} {frags : List Packet}
  {frag : Packet} {i : Nat}
  (hfrags : Forall₂ (fun (piece : List UInt8 × Nat) frag =>
    IsFragment (baseOf packet piece.2) piece.2 frags.length piece.1 frag)
      ((cut firstSize (mtu - maxFragOverhead) payload.length payload).zipIdx 0) frags)
include hfrags

theorem exists_piece (hfrag : frags[i]? = some frag) :
    ∃ piece, (cut firstSize (mtu - maxFragOverhead) payload.length payload)[i]? = some piece ∧
      IsFragment (baseOf packet i) i frags.length piece frag := by
  obtain ⟨⟨piece, index⟩, hpiece, hi⟩ := exists_of_forall₂ hfrags hfrag
  obtain ⟨x, hx, hpair⟩ := map_eq_some_iff.1 ((getElem?_zipIdx ..).symm.trans hpiece)
  obtain ⟨rfl, hindex⟩ := Prod.mk.inj hpair
  rw [zero_add] at hindex
  subst hindex
  exact ⟨x, hx, hi⟩

theorem hasRoom_of_pieces (hpayload : payload ≠ []) (hfirst : 0 < firstSize)
    (hmtu : maxFragOverhead + headerSize packet + firstSize ≤ mtu) (hmem : frag ∈ frags) :
    HasRoom mtu frag ∧ frag.wire = none := by
  obtain ⟨i, hi⟩ := getElem?_of_mem hmem
  obtain ⟨piece, hpiece, hfrag⟩ := exists_piece hfrags hi
  exact ⟨hfrag.hasRoom (pieces_fit hpayload hfirst hmtu hpiece).2, hfrag.wire⟩

theorem numbered_of_pieces (hcount : frags.length < 2 ^ 64) (hi : frags[i]? = some frag) :
    frag.get fragIndexField = .ok i ∧ frag.get fragCountField = .ok frags.length := by
  obtain ⟨piece, -, hfrag⟩ := exists_piece hfrags hi
  have hlt := (List.getElem?_eq_some_iff.1 hi).1
  exact ⟨hfrag.get_fragIndex (by omega), hfrag.get_fragCount hcount⟩

theorem fragments_of_pieces (hpayload : payload ≠ []) (hfirst : 0 < firstSize)
    (hmtu : maxFragOverhead + headerSize packet + firstSize ≤ mtu)
    (hcount : frags.length < 2 ^ 64) : Fragments packet payload mtu frags := by
  have hsize : 0 < mtu - maxFragOverhead := by omega
  have hne : ∀ piece ∈ cut firstSize (mtu - maxFragOverhead) payload.length payload,
      piece ≠ [] := by
    intro piece hpiece
    obtain ⟨i, hi⟩ := List.getElem?_of_mem hpiece
    exact (pieces_fit hpayload hfirst hmtu hi).1
  refine ⟨⟨_, mapM_get_fragment hfrags hne, flatten_cut hfirst hsize (le_refl _)⟩, ?_, ?_, ?_⟩
  · intro _ i frag hi
    exact numbered_of_pieces hfrags hcount hi
  · have hpos : 0 < frags.length := by
      have hlen := hfrags.length_eq
      rw [length_zipIdx, length_cut hfirst hsize hpayload (le_refl _)] at hlen
      omega
    have hhead := List.getElem?_eq_getElem hpos
    obtain ⟨piece, -, hfrag⟩ := exists_piece hfrags hhead
    refine ⟨frags[0], by rw [List.head?_eq_getElem?, hhead], ?_⟩
    rw [filter_fields, filter_fields, hfrag.headers]
    rfl
  · intro frag hmem
    exact (hasRoom_of_pieces hfrags hpayload hfirst hmtu hmem).1.fits

end

theorem ne_nil_of_get (hpayload : packet.get fragmentField = .ok payload) : payload ≠ [] := by
  obtain ⟨e, -, -, hdecode⟩ := exists_of_get hpayload
  change (if e.value = [] then _ else Except.ok e.value) = _ at hdecode
  split at hdecode
  · cases hdecode
  · rename_i hne
    rw [← Except.ok.inj hdecode]
    exact hne

theorem fragmentPacket_pieces (nMaxFragments mtu : Nat) (hpacket : packet.WellFormed)
    (hpayload : packet.get fragmentField = .ok payload) (hindex : packet.has fragIndexField = false)
    (hcount : packet.has fragCountField = false) {packetWire : Block}
    (hencode : packet.wireEncode = .ok packetWire)
    (hheader : headerSize packet ≤ firstHeaderSize packet packetWire)
    (hmax : nMaxFragments < 2 ^ 64) (hslow : ¬ maxSingleFragOverhead + packetWire.wire.length ≤ mtu)
    (hroom : ¬ mtu < maxFragOverhead + firstHeaderSize packet packetWire + 1)
    (hlimit : ¬ nMaxFragments < 1 + blockCount (mtu - maxFragOverhead)
      (payload.length - min payload.length
        (mtu - firstHeaderSize packet packetWire - maxFragOverhead))) :
    ∃ frags, fragmentPacket nMaxFragments packet mtu = .ok (some frags) ∧
      frags.length = 1 + blockCount (mtu - maxFragOverhead) (payload.length - min payload.length
        (mtu - firstHeaderSize packet packetWire - maxFragOverhead)) ∧
      Fragments packet payload mtu frags ∧
      (∀ (i : Nat) (frag : Packet), frags[i]? = some frag →
        frag.get fragIndexField = .ok i ∧ frag.get fragCountField = .ok frags.length) ∧
      ∀ frag ∈ frags, HasRoom mtu frag ∧ frag.wire = none := by
  have hne := ne_nil_of_get hpayload
  have hpos : 0 < payload.length := length_pos_iff.2 hne
  unfold fragmentPacket
  rw [hencode]
  simp only [bind, Except.bind]
  rw [if_neg hslow, hpayload]
  simp only [Except.mapError]
  rw [if_neg hroom, if_neg hlimit]
  -- the pieces of the payload, one a round
  generalize firstHeaderSize packet packetWire = fh at *
  generalize hfs : min payload.length (mtu - fh - maxFragOverhead) = first at *
  have hfirst : 0 < first := by omega
  have hpieces : 0 < mtu - maxFragOverhead := by omega
  have hlen := length_cut hfirst hpieces hne (le_refl payload.length)
  obtain ⟨frags, hpopulate, hall⟩ := populate_eq hpacket hindex hcount
    (1 + blockCount (mtu - maxFragOverhead) (payload.length - first))
    (mtu - maxFragOverhead) payload.length 0 first payload (by omega)
  have hfrags : frags.length = 1 + blockCount (mtu - maxFragOverhead) (payload.length - first) := by
    rw [← hall.length_eq, length_zipIdx, hlen]
  rw [← hfrags] at hall hpopulate hlimit ⊢
  have hmtu : maxFragOverhead + headerSize packet + first ≤ mtu := by omega
  refine ⟨frags, ?_, rfl, fragments_of_pieces hall hne hfirst hmtu (by omega),
    fun i frag hi => numbered_of_pieces hall (by omega) hi,
    fun frag hmem => hasRoom_of_pieces hall hne hfirst hmtu hmem⟩
  rw [hpopulate]
  simp [pure, Except.pure]

/-- It fails, leaves the packet alone, or cuts it into pieces, of which there are several unless the
    packet is in a longer encoding than necessary. -/
theorem fragmentPacket_cases (hbuilt : packet.Built)
    (hpayload : packet.get fragmentField = .ok payload) (hindex : packet.has fragIndexField = false)
    (hcount : packet.has fragCountField = false)
    (hnet : packet.isBare = true → IsNetworkPacket payload) {nMaxFragments : Nat}
    (hmax : nMaxFragments < 2 ^ 64) (mtu : Nat) :
    fragmentPacket nMaxFragments packet mtu = .ok none ∨
      (∃ packetWire, packet.wireEncode = .ok packetWire ∧
        maxSingleFragOverhead + packetWire.wire.length ≤ mtu ∧
        fragmentPacket nMaxFragments packet mtu = .ok (some [packet]) ∧ HasRoom mtu packet) ∨
      ∃ frags, fragmentPacket nMaxFragments packet mtu = .ok (some frags) ∧
        Fragments packet payload mtu frags ∧
        (∀ (i : Nat) (frag : Packet), frags[i]? = some frag →
          frag.get fragIndexField = .ok i ∧ frag.get fragCountField = .ok frags.length) ∧
        (∀ frag ∈ frags, HasRoom mtu frag ∧ frag.wire = none) ∧
        frags.length ≤ nMaxFragments ∧ (isCompact packet = true → frags.length ≠ 1) := by
  have hpacket := hbuilt.wellFormed
  obtain ⟨packetWire, hencode, hvalue, hheader, hsize⟩ := exists_wireEncode hpacket hpayload hnet
  have hsingle : maxSingleFragOverhead = 30 := rfl
  have hoverhead : maxFragOverhead = 50 := rfl
  by_cases hslow : maxSingleFragOverhead + packetWire.wire.length ≤ mtu
  · right
    left
    obtain ⟨e, he, htype, -⟩ := exists_of_get hpayload
    refine ⟨packetWire, hencode, hslow, ?_, hpacket, ⟨e, he, htype⟩, by omega⟩
    rw [fragmentPacket, hencode]
    simp only [bind, Except.bind]
    rw [if_pos hslow]
    rfl
  · by_cases hroom : mtu < maxFragOverhead + firstHeaderSize packet packetWire + 1
    · left
      rw [fragmentPacket, hencode]
      simp only [bind, Except.bind]
      rw [if_neg hslow, hpayload]
      simp only [Except.mapError]
      rw [if_pos hroom]
      rfl
    · by_cases hlimit : nMaxFragments < 1 + blockCount (mtu - maxFragOverhead)
          (payload.length - min payload.length
            (mtu - firstHeaderSize packet packetWire - maxFragOverhead))
      · left
        rw [fragmentPacket, hencode]
        simp only [bind, Except.bind]
        rw [if_neg hslow, hpayload]
        simp only [Except.mapError]
        rw [if_neg hroom, if_pos hlimit]
        rfl
      · right
        right
        obtain ⟨frags, hfragment, hlength, hfrags, hnumbered, hall⟩ := fragmentPacket_pieces
          nMaxFragments mtu hpacket hpayload hindex hcount hencode hheader hmax hslow hroom hlimit
        refine ⟨frags, hfragment, hfrags, hnumbered, hall, by omega, fun hcompact hone => ?_⟩
        -- one piece would have been left alone
        have hsize := hsize hcompact
        generalize hfs : min payload.length
          (mtu - firstHeaderSize packet packetWire - maxFragOverhead) = first at *
        have hzero : payload.length - first = 0 := by
          by_contra hrest
          have hpos : 0 < blockCount (mtu - maxFragOverhead) (payload.length - first) :=
            blockCount_pos (pos_of_ne_zero hrest)
          omega
        omega

/-- **Fragmentation.**  A packet is reported as one that cannot be sent, or its fragments carry its
    payload, their numbers and its headers, and each has room for a Sequence.  A single fragment is
    not numbered. -/
theorem fragmentPacket_fragments {packet : Packet} (hbuilt : packet.Built) {payload : List UInt8}
    (hpayload : packet.get fragmentField = .ok payload)
    (hindex : packet.has fragIndexField = false) (hcount : packet.has fragCountField = false)
    (hnet : packet.isBare = true → Packet.IsNetworkPacket payload)
    (hcompact : isCompact packet = true) {nMaxFragments : Nat} (hmax : nMaxFragments < 2 ^ 64)
    (mtu : Nat) :
    fragmentPacket nMaxFragments packet mtu = .ok none ∨
      ∃ frags, fragmentPacket nMaxFragments packet mtu = .ok (some frags) ∧
        Fragments packet payload mtu frags ∧
        ∀ frag, frags = [frag] →
          frag.has fragIndexField = false ∧ frag.has fragCountField = false := by
  rcases fragmentPacket_cases hbuilt hpayload hindex hcount hnet hmax mtu with
    hnone | ⟨-, -, -, hone, hroom⟩ | ⟨frags, hsome, hfrags, -, -, -, hseveral⟩
  · exact Or.inl hnone
  · refine Or.inr ⟨[packet], hone, ⟨⟨[payload], ?_, ?_⟩, ?_, ⟨packet, rfl, rfl⟩, ?_⟩, ?_⟩
    · rw [mapM_cons, hpayload]
      rfl
    · simp
    · intro hlt
      exact absurd hlt (by simp)
    · simp_all [HasRoom.fits]
    · simp_all
  · grind

/-- An Interest with a CongestionMark; every TLV-TYPE and TLV-LENGTH outside of these is nine octets
    long. -/
def Sample.longEncoding : List UInt8 :=
  [255, 0, 0, 0, 0, 0, 0, 0, 100, 255, 0, 0, 0, 0, 0, 0, 0, 30,
    253, 3, 64, 1, 1,
    255, 0, 0, 0, 0, 0, 0, 0, 80, 255, 0, 0, 0, 0, 0, 0, 0, 7, 5, 5, 7, 3, 8, 1, 97]

/-- It is taken for a packet that does not fit, and then it does. -/
theorem fragmentPacket_one_fragment :
    ∃ wire packet, Block.fromBuffer Sample.longEncoding = .ok wire ∧
      Packet.wireDecode wire = .ok packet ∧ packet.Built ∧
      packet.get fragmentField = .ok [5, 5, 7, 3, 8, 1, 97] ∧
      packet.has fragIndexField = false ∧ packet.has fragCountField = false ∧
      ∃ frag, fragmentPacket 400 packet 70 = .ok (some [frag]) ∧
        frag.get fragIndexField = .ok 0 ∧ frag.get fragCountField = .ok 1 := by
  have hbuffer : Block.fromBuffer Sample.longEncoding = .ok _ := rfl
  exact ⟨_, _, hbuffer, rfl, .wireDecode hbuffer rfl, rfl, rfl, rfl, _, rfl, rfl, rfl⟩

/-- The same packet in the shortest encoding. -/
def Sample.marked : Raises Packet := do
  let packet ← Packet.empty.add fragmentField [5, 5, 7, 3, 8, 1, 97]
  packet.add congestionMarkField 1

theorem fragmentPacket_fragments_marked :
    ∃ packet, Sample.marked = .ok packet ∧
      (fragmentPacket 400 packet 57 = .ok none ∨
        ∃ frags, fragmentPacket 400 packet 57 = .ok (some frags) ∧
          Fragments packet [5, 5, 7, 3, 8, 1, 97] 57 frags ∧
          ∀ frag, frags = [frag] →
            frag.has fragIndexField = false ∧ frag.has fragCountField = false) := by
  refine ⟨_, rfl, ?_⟩
  have hbuilt : Built _ := .add (f := congestionMarkField) (v := 1)
    (.add (f := fragmentField) (v := [5, 5, 7, 3, 8, 1, 97]) .empty rfl) rfl
  exact fragmentPacket_fragments hbuilt rfl rfl rfl (fun hbare => by cases hbare) rfl (by decide) 57

end NdnMulticast.Nfd.LpFragmenter
