/-
  Reassembly of network packets, after `daemon/face/lp-reassembler.cpp`.

  The message a fragment belongs to is identified by the Sequence of its first fragment.  What
  a partial packet holds is determined by the set of the indices that have come in (`Filled`).
  The size of the reassembly buffer is summed up in 32 bits.
-/

import NdnMulticast.Nfd.LinkService

namespace NdnMulticast.Nfd.LpReassembler

open Lib Ndn Ndn.Lp List Option Packet LpFragmenter Nat

structure Options where
  nMaxFragments : Nat
  reassemblyTimeout : Int
deriving DecidableEq, Repr

structure PartialPacket where
  fragments : List Packet
  fragCount : Nat
  nReceivedFragments : Nat
  /-- When `dropTimer` fires. -/
  dropTime : Int

/-- The remote endpoint and the message identifier. -/
abbrev Key := Nat × Nat

/-- `m_partialPackets`. -/
abbrev State := List (Key × PartialPacket)

/-- The Sequence of the first fragment, in 64 bits. -/
def messageIdentifier (seq fragIndex : Nat) : Nat := ahead (2 ^ 64) fragIndex seq

def getOr (f : Lp.Field Nat) (default : Nat) (packet : Packet) : Raises Nat :=
  if packet.has f then packet.get f else .ok default

/-- FragIndex and FragCount, with their defaults. -/
def fragNumbers (packet : Packet) : Raises (Nat × Nat) := do
  let fragIndex ← getOr fragIndexField 0 packet
  let fragCount ← getOr fragCountField 1 packet
  return (fragIndex, fragCount)

def doReassembly (fragments : List Packet) : Except Fault Block := do
  let payloads ← (fragments.mapM (Packet.get fragmentField)).mapError Fault.raised
  -- `std::accumulate` starts from `0U` and keeps the sum in that type
  let payloadSize := payloads.foldl (fun sum payload => (sum + payload.length) % 2 ^ 32) 0
  if payloadSize < payloads.flatten.length then
    -- `std::copy` writes past the end of `fragBuffer`
    .error .undefinedBehavior
  else (Block.fromBuffer payloads.flatten).mapError Fault.raised

def State.put (s : State) (key : Key) (pp : PartialPacket) : State :=
  (key, pp) :: s.filter (·.1 != key)

/-- The fragment is stored in a partial packet, which stays if `doReassembly` throws. -/
def storeFragment (opts : Options) (now : Int) (key : Key) (fragIndex : Nat) (packet : Packet)
    (pp : PartialPacket) (s : State) : State × Except Fault (Option (Block × Packet)) :=
  match pp.fragments[fragIndex]? with
  | none => (s, .error .undefinedBehavior)
  | some old =>
    -- fragment already received
    if old.has sequenceField then (s, .ok none)
    else
      let pp := { pp with
        fragments := pp.fragments.set fragIndex packet
        nReceivedFragments := pp.nReceivedFragments + 1 }
      if pp.nReceivedFragments = pp.fragCount then
        match doReassembly pp.fragments with
        | .error fault => (s.put key pp, .error fault)
        | .ok reassembled =>
          (s.filter (·.1 != key), .ok (pp.fragments.head?.map fun first => (reassembled, first)))
      else (s.put key { pp with dropTime := now + opts.reassemblyTimeout }, .ok none)

/-- The partial packet under a key, a new one if there is none. -/
def State.getPartial (s : State) (key : Key) (fragCount : Nat) (now : Int) : PartialPacket :=
  (s.lookup key).getD ⟨List.replicate fragCount Packet.empty, fragCount, 0, now⟩

/-- The part of `receiveFragment` that adds to a partial packet. -/
def addFragment (opts : Options) (now : Int) (key : Key) (fragIndex fragCount : Nat)
    (packet : Packet) (s : State) : State × Except Fault (Option (Block × Packet)) :=
  let pp := s.getPartial key fragCount now
  -- FragCount changed
  if fragCount ≠ pp.fragCount then (s, .ok none)
  else storeFragment opts now key fragIndex packet pp s

/-- `LpReassembler::receiveFragment`; `none` for a packet that is not complete. -/
def receiveFragment (opts : Options) (now : Int) (remoteEndpoint : Nat) (packet : Packet)
    (s : State) : State × Except Fault (Option (Block × Packet)) :=
  match fragNumbers packet with
  | .error e => (s, .error (.raised e))
  | .ok (fragIndex, fragCount) =>
    if fragCount ≤ fragIndex then (s, .ok none)
    else if opts.nMaxFragments < fragCount then (s, .ok none)
    else if fragIndex = 0 ∧ fragCount = 1 then
      match packet.get fragmentField >>= Block.fromBuffer with
      | .error e => (s, .error (.raised e))
      | .ok netPkt => (s, .ok (some (netPkt, packet)))
    else if !packet.has sequenceField then (s, .ok none)
    else
      match packet.get sequenceField with
      | .error e => (s, .error (.raised e))
      | .ok seq =>
        addFragment opts now (remoteEndpoint, messageIdentifier seq fragIndex) fragIndex fragCount
          packet s

/-- `timeoutPartialPacket`, for every timer that is due. -/
def expire (now : Int) (s : State) : State := s.filter fun e => decide (now < e.2.dropTime)

/-! ## Runs -/

/-- What `receiveFragment` answers, with the endpoint it was called for. -/
structure Output where
  remoteEndpoint : Nat
  netPkt : Block
  firstPkt : Packet

/-- A fragment that arrives; its message and index are known to the sender only. -/
structure Delivery where
  now : Int
  remoteEndpoint : Nat
  packet : Packet
  message : Nat
  index : Nat

/-- Fragments are received one after another. -/
def receiveAll (opts : Options) : State → List Delivery → Except Fault (State × List Output)
  | s, [] => .ok (s, [])
  | s, d :: ds => do
      let (s, result) := receiveFragment opts d.now d.remoteEndpoint d.packet (expire d.now s)
      let output ← result
      let (s, outputs) ← receiveAll opts s ds
      return (s, (output.map fun r => ⟨d.remoteEndpoint, r.1, r.2⟩).toList ++ outputs)

/-! ## Messages -/

/-- A network packet and the fragments it is sent in. -/
structure Message where
  endpoint : Nat
  payload : List UInt8
  frags : List Packet
  firstSeqNo : Nat

namespace Message

/-- What identifies the message to the receiver. -/
def key (m : Message) : Key := (m.endpoint, m.firstSeqNo)

/-- The sequence numbers that the endpoint uses for the message. -/
def numbers (m : Message) : List (Nat × Nat) :=
  (List.range m.frags.length).map fun i => (m.endpoint, (m.firstSeqNo + i) % 2 ^ 64)

/-- The fields of a fragment. -/
def fieldsAt (m : Message) (i : Nat) : List (Nat × List UInt8) :=
  (m.frags[i]?.map Packet.fields).getD []

/-- The message comes from `fragmentPacket` and `assignSequences`, with an Interest or a Data. -/
structure Sent (opts : Options) (m : Message) : Prop where
  network : Packet.IsNetworkPacket m.payload
  limit : m.frags.length ≤ opts.nMaxFragments
  sent : ∃ (packet : Packet) (nMaxFragments mtu lastSeqNo : Nat) (frags : List Packet) (last : Nat),
    packet.Built ∧ packet.get fragmentField = .ok m.payload ∧
    packet.has fragIndexField = false ∧ packet.has fragCountField = false ∧
    nMaxFragments < 2 ^ 64 ∧
    LpFragmenter.fragmentPacket nMaxFragments packet mtu = .ok (some frags) ∧
    LinkService.assignSequences lastSeqNo frags = .ok (m.frags, last) ∧
    m.firstSeqNo = (lastSeqNo + 1) % 2 ^ 64

/-- What the receiver reads in the fragments. -/
structure Readable (m : Message) : Prop where
  pos : 0 < m.frags.length
  count_lt : m.frags.length < 2 ^ 64
  start_lt : m.firstSeqNo < 2 ^ 64
  fragNumbers : ∀ (i : Nat) (frag : Packet), m.frags[i]? = some frag →
    fragNumbers frag = .ok (i, m.frags.length)
  sequence : ∀ (i : Nat) (frag : Packet), m.frags[i]? = some frag →
    frag.get sequenceField = .ok ((m.firstSeqNo + i) % 2 ^ 64)
  payloads : ∃ pieces, m.frags.mapM (Packet.get fragmentField) = .ok pieces ∧
    pieces.flatten = m.payload

end Message

/-! ### What is sent can be read -/

theorem fragNumbers_of_has {packet : Packet} {fragIndex fragCount : Nat}
    (hindex : packet.get fragIndexField = .ok fragIndex)
    (hcount : packet.get fragCountField = .ok fragCount) :
    fragNumbers packet = .ok (fragIndex, fragCount) := by
  rw [fragNumbers, getOr, getOr, if_pos (has_of_get hindex), if_pos (has_of_get hcount),
    hindex, hcount]
  rfl

theorem fragNumbers_of_not_has {packet : Packet} (hindex : packet.has fragIndexField = false)
    (hcount : packet.has fragCountField = false) : fragNumbers packet = .ok (0, 1) := by
  rw [fragNumbers, getOr, getOr, hindex, hcount]
  rfl

theorem get_sequence {p p' : Packet} (hp : p.WellFormed) {seq : Nat} (hseq : seq < 2 ^ 64)
    (hset : p.set sequenceField seq = .ok p') : p'.get sequenceField = .ok seq := by
  rw [hp.get_set hset rfl rfl]
  simp only [sequenceField, sequenceNumberField, Ndn.Tlv.length_toBigEndian, if_true,
    Ndn.Tlv.bigEndian_toBigEndian]
  rw [mod_eq_of_lt (show seq < 256 ^ 8 by omega)]

theorem mapM_get_of_forall {f : Lp.Field (List UInt8)} {ps qs : List Packet}
    (hlength : ps.length = qs.length)
    (h : ∀ (i : Nat) (p : Packet), ps[i]? = some p → ∃ q, qs[i]? = some q ∧ p.get f = q.get f) :
    ps.mapM (get f) = qs.mapM (get f) := by
  induction ps generalizing qs with
  | nil => grind
  | cons p ps ih =>
    cases qs with
    | nil => cases hlength
    | cons q qs =>
      obtain ⟨q', hq', hget⟩ := h 0 p rfl
      obtain rfl := some.inj hq'
      have hrest := ih (succ.inj hlength) fun i p hp => h (i + 1) p hp
      rw [mapM_cons, mapM_cons, hget, hrest]

theorem readable_of_assignSequences {m : Message} {frags : List Packet} {lastSeqNo last : Nat}
    (hassign : LinkService.assignSequences lastSeqNo frags = .ok (m.frags, last))
    (hfirst : m.firstSeqNo = (lastSeqNo + 1) % 2 ^ 64)
    (hpos : 0 < frags.length) (hlt : frags.length < 2 ^ 64)
    (hwellFormed : ∀ frag ∈ frags, frag.WellFormed)
    (hnumbers : ∀ (i : Nat) (frag : Packet), frags[i]? = some frag →
      (frag.get fragIndexField = .ok i ∧ frag.get fragCountField = .ok frags.length) ∨
        (frag.has fragIndexField = false ∧ frag.has fragCountField = false ∧ i = 0 ∧
          frags.length = 1))
    (hpayloads : ∃ pieces, frags.mapM (get fragmentField) = .ok pieces ∧
      pieces.flatten = m.payload) : m.Readable := by
  obtain ⟨hlength, hset⟩ := LinkService.getElem?_assignSequences hassign
  refine ⟨by omega, by omega, by omega, fun i p hp => ?_, fun i p hp => ?_, ?_⟩
  · obtain ⟨frag, hfrag, hset⟩ := hset i p hp
    have hindex := get_set_of_ne (g := fragIndexField) hset (by decide)
    have hcount := get_set_of_ne (g := fragCountField) hset (by decide)
    rw [hlength]
    rcases hnumbers i frag hfrag with ⟨hi, hn⟩ | ⟨hi, hn, rfl, hone⟩
    · exact fragNumbers_of_has (hindex.trans hi) (hcount.trans hn)
    · rw [hone]
      exact fragNumbers_of_not_has
        ((has_set_of_ne (g := fragIndexField) hset (by decide)).trans hi)
        ((has_set_of_ne (g := fragCountField) hset (by decide)).trans hn)
  · obtain ⟨frag, hfrag, hset⟩ := hset i p hp
    have hget := get_sequence (hwellFormed frag (mem_of_getElem? hfrag)) (mod_lt _ (by decide)) hset
    have hnumber : (m.firstSeqNo + i) % 2 ^ 64 = (lastSeqNo + 1 + i) % 2 ^ 64 := by
      rw [hfirst, mod_add_mod]
    rw [hget, hnumber]
  · obtain ⟨pieces, hpieces, hflatten⟩ := hpayloads
    refine ⟨pieces, ?_, hflatten⟩
    rw [← hpieces]
    refine mapM_get_of_forall hlength fun i p hp => ?_
    obtain ⟨frag, hfrag, hset⟩ := hset i p hp
    exact ⟨frag, hfrag, get_set_of_ne (g := fragmentField) hset (by decide)⟩

theorem Message.Sent.readable {opts : Options} {m : Message} (h : m.Sent opts) : m.Readable := by
  obtain ⟨packet, nMaxFragments, mtu, lastSeqNo, frags, last, hbuilt, hpayload, hindex,
    hcount, hmax, hfragment, hassign, hfirst⟩ := h.sent
  rcases fragmentPacket_cases hbuilt hpayload hindex hcount (fun _ => h.network) hmax mtu
    with hnone | ⟨-, -, -, hone, hroom⟩ | ⟨frags', hsome, hspec, hnumbered, hroom, hle, -⟩
  · rw [hfragment] at hnone
    cases hnone
  · -- the packet itself, which has neither FragIndex nor FragCount
    obtain rfl : frags = [packet] := some.inj (Except.ok.inj (hfragment.symm.trans hone))
    refine readable_of_assignSequences hassign hfirst ?_ ?_ ?_ ?_ ?_
    · exact succ_pos 0
    · show 1 < 2 ^ 64
      decide
    · intro frag hfrag
      rw [mem_singleton.1 hfrag]
      exact hroom.wellFormed
    · grind
    · simp_all
  · obtain rfl : frags = frags' := some.inj (Except.ok.inj (hfragment.symm.trans hsome))
    have hpos : 0 < frags.length := by
      obtain ⟨frag, hhead, -⟩ := hspec.headers
      cases frags with
      | nil => cases hhead
      | cons frag frags => exact succ_pos _
    exact readable_of_assignSequences hassign hfirst hpos (by omega)
      (fun frag hfrag => (hroom frag hfrag).1.wellFormed)
      (fun i frag hfrag => Or.inl (hnumbered i frag hfrag)) hspec.payloads

/-! ## One partial packet -/

theorem foldl_add_mod (payloads : List (List UInt8)) (sum : Nat) (hsum : sum < 2 ^ 32) :
    payloads.foldl (fun sum payload => (sum + payload.length) % 2 ^ 32) sum =
      (sum + payloads.flatten.length) % 2 ^ 32 := by
  induction payloads generalizing sum with
  | nil => simpa using (mod_eq_of_lt hsum).symm
  | cons payload payloads ih => grind

theorem doReassembly_eq {fragments : List Packet} {payloads : List (List UInt8)}
    (h : fragments.mapM (get fragmentField) = .ok payloads) :
    doReassembly fragments =
      if payloads.flatten.length < 2 ^ 32 then
        (Block.fromBuffer payloads.flatten).mapError Fault.raised
      else .error .undefinedBehavior := by
  have hsize := foldl_add_mod payloads 0 (by decide)
  rw [zero_add] at hsize
  rw [doReassembly, h]
  simp only [Except.mapError, bind, Except.bind, hsize]
  by_cases hlt : payloads.flatten.length < 2 ^ 32
  · rw [if_pos hlt, if_neg (by rw [mod_eq_of_lt hlt]; omega)]
  · grind

/-- The partial packet holds the fragments with the indices in `got`. -/
structure Filled (m : Message) (got : Finset Nat) (pp : PartialPacket) : Prop where
  fragCount : pp.fragCount = m.frags.length
  nReceivedFragments : pp.nReceivedFragments = got.card
  fragments : pp.fragments.map Packet.fields = slots m.frags.length got m.fieldsAt []

section

variable {m : Message} {got : Finset Nat} {pp : PartialPacket} {i : Nat} {packet : Packet}

theorem filled_empty (m : Message) (now : Int) :
    Filled m ∅ ⟨replicate m.frags.length empty, m.frags.length, 0, now⟩ := by
  refine ⟨rfl, rfl, ?_⟩
  rw [slots_empty, map_replicate]
  rfl

theorem fieldsAt_eq {frag : Packet} (h : m.frags[i]? = some frag) : m.fieldsAt i = frag.fields := by
  rw [Message.fieldsAt, h]
  rfl

/-- A Sequence tells which fragments are there. -/
theorem Filled.getElem? (h : Filled m got pp) (hm : m.Readable) (hi : i < m.frags.length) :
    ∃ old, pp.fragments[i]? = some old ∧ old.has sequenceField = decide (i ∈ got) := by
  have hslot : (pp.fragments.map fields)[i]? = some (if i ∈ got then m.fieldsAt i else []) := by
    rw [h.fragments, getElem?_slots hi]
  rw [getElem?_map, map_eq_some_iff] at hslot
  obtain ⟨old, hold, hfields⟩ := hslot
  refine ⟨old, hold, ?_⟩
  by_cases hgot : i ∈ got
  · have hfrag := getElem?_eq_getElem hi
    rw [if_pos hgot, fieldsAt_eq hfrag] at hfields
    rw [has_congr hfields, has_of_get (hm.sequence i _ hfrag), decide_eq_true hgot]
  · rw [if_neg hgot] at hfields
    have hempty : old.fields = empty.fields := hfields
    rw [has_congr hempty, decide_eq_false hgot]
    rfl

theorem Filled.set (h : Filled m got pp) (hgot : i ∉ got) (hpacket : packet.fields = m.fieldsAt i)
    (dropTime : Int) :
    Filled m (insert i got)
      ⟨pp.fragments.set i packet, pp.fragCount, pp.nReceivedFragments + 1, dropTime⟩ := by
  refine ⟨h.fragCount, ?_, ?_⟩
  · grind [nReceivedFragments]
  · rw [map_set, h.fragments, hpacket, set_slots]

theorem Filled.eq_of_range (h : Filled m (Finset.range m.frags.length) pp) :
    pp.fragments.map fields = m.frags.map fields := by
  rw [h.fragments, slots_range]
  apply ext_getElem?
  intro i
  rcases lt_or_ge i m.frags.length with hi | hi
  · simp_all [fieldsAt_eq]
  · simp_all

theorem mapM_get_congr {ps qs : List Packet} (h : ps.map fields = qs.map fields)
    (f : Lp.Field (List UInt8)) : ps.mapM (get f) = qs.mapM (get f) := by
  have hlength := congrArg length h
  rw [length_map, length_map] at hlength
  refine mapM_get_of_forall hlength fun i p hp => ?_
  have hi := congrArg (·[i]?) h
  simp only [getElem?_map, hp, map_some] at hi
  obtain ⟨q, hq, hfields⟩ := map_eq_some_iff.1 hi.symm
  exact ⟨q, hq, get_congr hfields.symm⟩

variable (h : Filled m (Finset.range m.frags.length) pp)
include h

theorem Filled.doReassembly (hm : m.Readable) :
    doReassembly pp.fragments =
      if m.payload.length < 2 ^ 32 then (Block.fromBuffer m.payload).mapError Fault.raised
      else .error .undefinedBehavior := by
  obtain ⟨pieces, hpieces, hflatten⟩ := hm.payloads
  rw [← mapM_get_congr h.eq_of_range] at hpieces
  rw [doReassembly_eq hpieces, hflatten]

theorem Filled.head? (hm : m.Readable) :
    ∃ first, pp.fragments.head? = some first ∧ first.fields = m.fieldsAt 0 := by
  have hpos := hm.pos
  have hfrag := getElem?_eq_getElem hpos
  have hhead : (pp.fragments.map fields).head? = some m.frags[0].fields := by
    rw [h.eq_of_range, head?_eq_getElem?, getElem?_map, hfrag]
    rfl
  rw [head?_map, map_eq_some_iff] at hhead
  obtain ⟨first, hfirst, hfields⟩ := hhead
  exact ⟨first, hfirst, hfields.trans (fieldsAt_eq hfrag).symm⟩

end

/-! ### One fragment -/

section

variable (opts : Options) (now : Int) (s : State) {m : Message} {got : Finset Nat} {i : Nat}
  {packet : Packet} {pp : PartialPacket} (hm : m.Readable)
include hm

theorem storeFragment_repeated (hpp : Filled m got pp) (hi : i < m.frags.length) (hgot : i ∈ got) :
    storeFragment opts now m.key i packet pp s = (s, .ok none) := by
  obtain ⟨old, hold, hhas⟩ := hpp.getElem? hm hi
  rw [decide_eq_true hgot] at hhas
  rw [storeFragment, hold]
  exact if_pos hhas

theorem storeFragment_more (hpp : Filled m got pp) (hi : i < m.frags.length) (hgot : i ∉ got)
    (hpacket : packet.fields = m.fieldsAt i) (hcard : got.card + 1 < m.frags.length) :
    ∃ pp', storeFragment opts now m.key i packet pp s = (s.put m.key pp', .ok none) ∧
      Filled m (insert i got) pp' ∧ pp'.dropTime = now + opts.reassemblyTimeout := by
  obtain ⟨old, hold, hhas⟩ := hpp.getElem? hm hi
  rw [decide_eq_false hgot] at hhas
  have hmore : ¬ pp.nReceivedFragments + 1 = pp.fragCount := by
    rw [hpp.nReceivedFragments, hpp.fragCount]
    omega
  refine ⟨_, ?_, hpp.set hgot hpacket (now + opts.reassemblyTimeout), rfl⟩
  rw [storeFragment, hold]
  dsimp only
  rw [hhas, if_neg Bool.false_ne_true, if_neg hmore]

theorem storeFragment_last (hpp : Filled m got pp) (hi : i < m.frags.length) (hgot : i ∉ got)
    (hpacket : packet.fields = m.fieldsAt i) (hfull : insert i got = Finset.range m.frags.length) :
    ∃ pp' first, first.fields = m.fieldsAt 0 ∧
      storeFragment opts now m.key i packet pp s =
        match (if m.payload.length < 2 ^ 32 then (Block.fromBuffer m.payload).mapError Fault.raised
          else .error .undefinedBehavior) with
        | .error fault => (s.put m.key pp', .error fault)
        | .ok reassembled => (s.filter (·.1 != m.key), .ok (some (reassembled, first))) := by
  obtain ⟨old, hold, hhas⟩ := hpp.getElem? hm hi
  rw [decide_eq_false hgot] at hhas
  have hfilled := hpp.set hgot hpacket pp.dropTime
  rw [hfull] at hfilled
  obtain ⟨first, hfirst, hfields⟩ := hfilled.head? hm
  have hdo := hfilled.doReassembly hm
  have hlast : pp.nReceivedFragments + 1 = pp.fragCount := by
    have hcard := hfilled.nReceivedFragments
    rw [Finset.card_range] at hcard
    rw [hpp.fragCount]
    exact hcard
  refine ⟨⟨pp.fragments.set i packet, pp.fragCount, pp.nReceivedFragments + 1, pp.dropTime⟩, first,
    hfields, ?_⟩
  rw [storeFragment, hold]
  dsimp only at hdo hfirst ⊢
  rw [hhas, if_neg Bool.false_ne_true, if_pos hlast, hdo, hfirst]
  rfl

variable (hlimit : m.frags.length ≤ opts.nMaxFragments)
include hlimit

theorem receiveFragment_several (hseveral : 1 < m.frags.length) {frag : Packet}
    (hfrag : m.frags[i]? = some frag) (hpacket : packet.fields = frag.fields)
    (hpp : Filled m got (s.getPartial m.key m.frags.length now)) :
    receiveFragment opts now m.endpoint packet s =
      storeFragment opts now m.key i packet (s.getPartial m.key m.frags.length now) s := by
  have hi := (List.getElem?_eq_some_iff.1 hfrag).1
  have hnumbers : fragNumbers packet = .ok (i, m.frags.length) := by
    rw [← hm.fragNumbers i frag hfrag]
    simp only [fragNumbers, getOr, has_congr hpacket, get_congr hpacket]
  have hsequence := hm.sequence i frag hfrag
  rw [← get_congr hpacket] at hsequence
  have hmessage : messageIdentifier ((m.firstSeqNo + i) % 2 ^ 64) i = m.firstSeqNo :=
    ahead_add hm.start_lt (by have := hm.count_lt; omega)
  unfold receiveFragment
  rw [hnumbers]
  dsimp only
  rw [if_neg (by omega), if_neg (by omega), if_neg (by omega), has_of_get hsequence, hsequence]
  dsimp only
  rw [hmessage]
  exact if_neg (not_not.2 hpp.fragCount.symm)

theorem receiveFragment_single (hone : m.frags.length = 1) {frag : Packet}
    (hfrag : m.frags[i]? = some frag) (hpacket : packet.fields = frag.fields) {netPkt : Block}
    (hnetPkt : Block.fromBuffer m.payload = .ok netPkt) :
    i = 0 ∧ receiveFragment opts now m.endpoint packet s = (s, .ok (some (netPkt, packet))) := by
  have hi := (List.getElem?_eq_some_iff.1 hfrag).1
  obtain rfl : i = 0 := by omega
  have hnumbers : fragNumbers packet = .ok (0, 1) := by
    rw [← hone, ← hm.fragNumbers 0 frag hfrag]
    simp only [fragNumbers, getOr, has_congr hpacket, get_congr hpacket]
  have hget : packet.get fragmentField = .ok m.payload := by
    obtain ⟨pieces, hpieces, hflatten⟩ := hm.payloads
    obtain ⟨x, hx⟩ := length_eq_one_iff.1 hone
    obtain rfl : x = frag := by
      rw [hx] at hfrag
      exact some.inj hfrag
    rw [hx, mapM_cons] at hpieces
    obtain ⟨payload, hpayload, hpieces⟩ := bind_eq_ok_iff.1 hpieces
    obtain rfl : [payload] = pieces := Except.ok.inj hpieces
    rw [get_congr hpacket, hpayload, ← hflatten]
    simp
  refine ⟨rfl, ?_⟩
  unfold receiveFragment
  rw [hnumbers]
  dsimp only
  rw [if_neg (by decide), if_neg (by omega), if_pos ⟨rfl, rfl⟩, hget]
  show (match Block.fromBuffer m.payload with | .error e => _ | .ok netPkt => _) = _
  rw [hnetPkt]

end

/-! ## What arrives -/

/-- Which fragments of a message have arrived, and when the last new one did. -/
structure Progress where
  got : Finset Nat
  since : Int

def Progress.note (j : Nat) (p : Progress) (d : Delivery) : Progress :=
  if d.message = j ∧ d.index ∉ p.got then ⟨insert d.index p.got, d.now⟩ else p

def progress (before : List Delivery) (j : Nat) : Progress :=
  before.foldl (Progress.note j) ⟨∅, 0⟩

/-- A fragment that arrives is one of the messages' fragments, its message is not complete, and no
    message has been waiting for a fragment until its timer fires. -/
structure Arrives (opts : Options) (ms : List Message) (before : List Delivery) (d : Delivery) :
    Prop where
  isOf : ∃ m frag, ms[d.message]? = some m ∧ d.remoteEndpoint = m.endpoint ∧
    m.frags[d.index]? = some frag ∧ d.packet.fields = frag.fields
  incomplete : ∀ m, ms[d.message]? = some m → (progress before d.message).got.card < m.frags.length
  inTime : ∀ j m, ms[j]? = some m → (progress before j).got.Nonempty →
    (progress before j).got.card < m.frags.length →
    d.now < (progress before j).since + opts.reassemblyTimeout

def ArriveAll (opts : Options) (ms : List Message) : List Delivery → List Delivery → Prop
  | _, [] => True
  | before, d :: ds => Arrives opts ms before d ∧ ArriveAll opts ms (before ++ [d]) ds

section

variable {before : List Delivery} {d : Delivery} {j i : Nat}

theorem progress_concat (before : List Delivery) (d : Delivery) (j : Nat) :
    progress (before ++ [d]) j = (progress before j).note j d := by
  rw [progress, foldl_append]
  rfl

theorem progress_of_ne (hj : j ≠ d.message) : progress (before ++ [d]) j = progress before j := by
  rw [progress_concat, Progress.note, if_neg fun h => hj h.1.symm]

theorem progress_of_mem (hgot : d.index ∈ (progress before d.message).got) (j : Nat) :
    progress (before ++ [d]) j = progress before j := by
  rw [progress_concat, Progress.note, if_neg]
  rintro ⟨rfl, hnot⟩
  exact hnot hgot

theorem progress_of_notMem (hgot : d.index ∉ (progress before d.message).got) :
    progress (before ++ [d]) d.message =
      ⟨insert d.index (progress before d.message).got, d.now⟩ := by
  rw [progress_concat, Progress.note, if_pos ⟨rfl, hgot⟩]

theorem mem_progress : i ∈ (progress before j).got ↔ ∃ d ∈ before, d.message = j ∧ d.index = i := by
  induction before using reverseRecOn with
  | nil => simp [progress]
  | append_singleton before d ih => grind [Progress.note, progress_concat]

end

/-! ## The invariant -/

/-- The partial packets are those of which some fragments have arrived, and hold these. -/
structure Inv (opts : Options) (ms : List Message) (before : List Delivery) (s : State) : Prop where
  indices : ∀ j m, ms[j]? = some m → (progress before j).got ⊆ Finset.range m.frags.length
  entries : ∀ e ∈ s, ∃ j m, ms[j]? = some m ∧ e.1 = m.key ∧ Filled m (progress before j).got e.2 ∧
    e.2.dropTime = (progress before j).since + opts.reassemblyTimeout ∧
    (progress before j).got.Nonempty ∧ (progress before j).got.card < m.frags.length
  present : ∀ j m, ms[j]? = some m → (progress before j).got.Nonempty →
    (progress before j).got.card < m.frags.length → m.key ∈ s.map Prod.fst

/-- Different messages have different keys. -/
def DistinctKeys (ms : List Message) : Prop :=
  ∀ (j : Nat) (m : Message) (j' : Nat) (m' : Message), ms[j]? = some m → ms[j']? = some m' →
    m.key = m'.key → j = j'

theorem inv_nil (opts : Options) (ms : List Message) : Inv opts ms [] [] := by
  refine ⟨fun j m _ => ?_, fun e he => ?_, fun j m _ hne => ?_⟩
  · exact Finset.empty_subset _
  · cases he
  · exact absurd hne Finset.not_nonempty_empty

section

variable {opts : Options} {ms : List Message} {before : List Delivery} {d : Delivery} {s : State}
  {m : Message}

section

variable (h : Inv opts ms before s)
include h

theorem Inv.expire_eq (harrives : Arrives opts ms before d) : expire d.now s = s := by
  refine filter_eq_self.2 fun e he => ?_
  obtain ⟨j, m, hm, -, -, htime, hne, hcard⟩ := h.entries e he
  rw [decide_eq_true_eq, htime]
  exact harrives.inTime j m hm hne hcard

theorem Inv.filled (hkeys : DistinctKeys ms) {j : Nat} (hm : ms[j]? = some m)
    (hcard : (progress before j).got.card < m.frags.length) (now : Int) :
    Filled m (progress before j).got (s.getPartial m.key m.frags.length now) := by
  unfold State.getPartial
  cases hlookup : s.lookup m.key with
  | none =>
    have hempty : (progress before j).got = ∅ := by
      by_contra hne
      obtain ⟨e, he, hkey⟩ := mem_map.1 (h.present j m hm (Finset.nonempty_of_ne_empty hne) hcard)
      have hsome : (s.lookup m.key).isSome = true :=
        lookup_isSome_iff.2 ⟨e, he, beq_iff_eq.2 hkey.symm⟩
      rw [hlookup] at hsome
      cases hsome
    rw [hempty]
    exact filled_empty m now
  | some pp =>
    obtain ⟨l₁, l₂, hsplit, -⟩ := lookup_eq_some_iff.1 hlookup
    have hmem : (m.key, pp) ∈ s := by
      rw [hsplit]
      simp
    obtain ⟨j', m', hm', hkey, hfilled, -⟩ := h.entries _ hmem
    obtain rfl := hkeys j m j' m' hm hm' hkey
    obtain rfl := mem_unique hm hm'
    exact hfilled

/-- The entry of one message is replaced when a new fragment of it arrives. -/
theorem Inv.replace (hm : ms[d.message]? = some m) (hi : d.index < m.frags.length)
    (hgot : d.index ∉ (progress before d.message).got) {s' : State}
    (hentries : ∀ e ∈ s', (e ∈ s ∧ e.1 ≠ m.key) ∨ (e.1 = m.key ∧
      Filled m (insert d.index (progress before d.message).got) e.2 ∧
      e.2.dropTime = d.now + opts.reassemblyTimeout ∧
      (progress before d.message).got.card + 1 < m.frags.length))
    (hkept : ∀ e ∈ s, e.1 ≠ m.key → e ∈ s') (hkeys : DistinctKeys ms)
    (hnew : (progress before d.message).got.card + 1 < m.frags.length → m.key ∈ s'.map Prod.fst) :
    Inv opts ms (before ++ [d]) s' := by
  have hcard := Finset.card_insert_of_notMem hgot
  refine ⟨fun j mj hmj => ?_, fun e he => ?_, fun j mj hmj hne hlt => ?_⟩
  · by_cases hj : j = d.message
    · subst hj
      obtain rfl := mem_unique hm hmj
      rw [progress_of_notMem hgot]
      exact Finset.insert_subset (Finset.mem_range.2 hi) (h.indices _ _ hm)
    · rw [progress_of_ne hj]
      exact h.indices j mj hmj
  · rcases hentries e he with ⟨hold, hne⟩ | ⟨hkey, hfilled, htime, hlt⟩
    · obtain ⟨j, mj, hmj, hkey, hrest⟩ := h.entries e hold
      have hj : j ≠ d.message := by
        rintro rfl
        obtain rfl := mem_unique hm hmj
        exact hne hkey
      refine ⟨j, mj, hmj, hkey, ?_⟩
      rw [progress_of_ne hj]
      exact hrest
    · refine ⟨d.message, m, hm, hkey, ?_⟩
      rw [progress_of_notMem hgot]
      exact ⟨hfilled, htime, Finset.insert_nonempty _ _, hcard ▸ hlt⟩
  · by_cases hj : j = d.message
    · subst hj
      obtain rfl := mem_unique hm hmj
      rw [progress_of_notMem hgot] at hlt
      exact hnew (hcard ▸ hlt)
    · rw [progress_of_ne hj] at hne hlt
      obtain ⟨e, he, hkey⟩ := mem_map.1 (h.present j mj hmj hne hlt)
      have hdiff : e.1 ≠ m.key := by
        intro heq
        exact hj (hkeys j mj d.message m hmj hm (hkey.symm.trans heq))
      exact mem_map.2 ⟨e, hkept e he hdiff, hkey⟩

end

/-- Several fragments are put together in a buffer whose size is kept in 32 bits. -/
def fitsBuffer (m : Message) : Bool := decide (m.frags.length ≤ 1 ∨ m.payload.length < 2 ^ 32)

/-- **One fragment** is stored, or its message is answered, or does not fit the buffer. -/
theorem Inv.step (h : Inv opts ms before s) (harrives : Arrives opts ms before d)
    (hkeys : DistinctKeys ms) (hm : ms[d.message]? = some m) (hsent : m.Sent opts) :
    ∃ s' result, receiveFragment opts d.now d.remoteEndpoint d.packet (expire d.now s) =
        (s', result) ∧
      ((result = .ok none ∧ Inv opts ms (before ++ [d]) s' ∧
          (progress (before ++ [d]) d.message).got.card < m.frags.length) ∨
        (progress (before ++ [d]) d.message).got.card = m.frags.length ∧
          if fitsBuffer m then
            ∃ netPkt first, result = .ok (some (netPkt, first)) ∧ Inv opts ms (before ++ [d]) s' ∧
              d.remoteEndpoint = m.endpoint ∧ netPkt.wire = m.payload ∧ first.fields = m.fieldsAt 0
          else result = .error .undefinedBehavior) := by
  have hread := hsent.readable
  obtain ⟨m', frag, hm', hendpoint, hfrag, hpacket⟩ := harrives.isOf
  obtain rfl := mem_unique hm hm'
  have hi := (List.getElem?_eq_some_iff.1 hfrag).1
  have hincomplete := harrives.incomplete m hm
  have hfields : d.packet.fields = m.fieldsAt d.index := hpacket.trans (fieldsAt_eq hfrag).symm
  obtain ⟨netPkt, hnetPkt, hwire, -⟩ := hsent.network
  rw [h.expire_eq harrives, hendpoint]
  rcases lt_or_ge 1 m.frags.length with hseveral | hone
  · have hpp := h.filled hkeys hm hincomplete d.now
    rw [receiveFragment_several opts d.now s hread hsent.limit hseveral hfrag hpacket hpp]
    by_cases hgot : d.index ∈ (progress before d.message).got
    · -- repeated
      have hsame := progress_of_mem hgot
      refine ⟨s, _, storeFragment_repeated opts d.now s hread hpp hi hgot, Or.inl ⟨rfl, ?_, ?_⟩⟩
      · refine ⟨fun j => ?_, fun e he => ?_, fun j => ?_⟩
        · rw [hsame j]
          exact h.indices j
        · obtain ⟨j, hj⟩ := h.entries e he
          exact ⟨j, (hsame j).symm ▸ hj⟩
        · rw [hsame j]
          exact h.present j
      · rw [hsame]
        exact hincomplete
    · have hcard := Finset.card_insert_of_notMem hgot
      rcases lt_or_ge ((progress before d.message).got.card + 1) m.frags.length with hlt | hge
      · -- there are more to come
        obtain ⟨pp, hstore, hfilled, htime⟩ :=
          storeFragment_more opts d.now s hread hpp hi hgot hfields hlt
        refine ⟨_, _, hstore, Or.inl ⟨rfl, ?_, ?_⟩⟩
        · refine h.replace hm hi hgot (fun e he => ?_) (fun e he hne => ?_) hkeys fun _ => ?_
          · rcases mem_cons.1 he with rfl | he
            · exact Or.inr ⟨rfl, hfilled, htime, hlt⟩
            · simp_all
          · exact .tail _ (mem_filter.2 ⟨he, by simpa using hne⟩)
          · exact mem_map.2 ⟨_, (.head _), rfl⟩
        · rw [progress_of_notMem hgot]
          exact hcard ▸ hlt
      · -- the last one
        have hall : (insert d.index (progress before d.message).got).card = m.frags.length := by
          omega
        have hfull : insert d.index (progress before d.message).got =
            Finset.range m.frags.length := by
          apply Finset.eq_of_subset_of_card_le
          · exact Finset.insert_subset (Finset.mem_range.2 hi) (h.indices _ _ hm)
          · rw [Finset.card_range, hall]
        obtain ⟨pp, first, hfirst, hstore⟩ :=
          storeFragment_last opts d.now s hread hpp hi hgot hfields hfull
        rw [progress_of_notMem hgot]
        by_cases hsmall : m.payload.length < 2 ^ 32
        · have hfits : fitsBuffer m = true := decide_eq_true (Or.inr hsmall)
          rw [if_pos hsmall, hnetPkt] at hstore
          refine ⟨_, _, hstore, Or.inr ⟨hall, ?_⟩⟩
          rw [if_pos hfits]
          refine ⟨netPkt, first, rfl, ?_, rfl, hwire, hfirst⟩
          refine h.replace hm hi hgot (fun e he => ?_) (fun e he hne => ?_) hkeys fun hlt => ?_
          · simp_all
          · exact mem_filter.2 ⟨he, by simpa using hne⟩
          · omega
        · grind [fitsBuffer]
  · -- a single fragment
    have hone : m.frags.length = 1 := by omega
    obtain ⟨hzero, hreceive⟩ := receiveFragment_single opts d.now s hread
      hsent.limit hone hfrag hpacket hnetPkt
    have hempty : (progress before d.message).got = ∅ := Finset.card_eq_zero.1 (by omega)
    have hgot : d.index ∉ (progress before d.message).got := by
      rw [hempty]
      exact Finset.notMem_empty _
    have hfits : fitsBuffer m = true := decide_eq_true (Or.inl (le_of_eq hone))
    refine ⟨s, _, hreceive, Or.inr ⟨?_, ?_⟩⟩
    · rw [progress_of_notMem hgot, hempty, hone]
      rfl
    · rw [if_pos hfits]
      refine ⟨netPkt, d.packet, rfl, ?_, rfl, hwire, by rw [hfields, hzero]⟩
      refine h.replace hm hi hgot (fun e he => Or.inl ⟨he, ?_⟩) (fun e he _ => he) hkeys
        fun hlt => ?_
      · intro hkey
        obtain ⟨j, mj, hmj, hkey', -, -, hne, hlt⟩ := h.entries e he
        obtain rfl := hkeys _ _ _ _ hm hmj (hkey.symm.trans hkey')
        rw [hempty] at hne
        exact Finset.not_nonempty_empty hne
      · omega

end

/-! ## All fragments -/

/-- Where a network packet is from, its octets, and the fields of its first fragment. -/
def Output.observed (o : Output) : Nat × List UInt8 × List (Nat × List UInt8) :=
  (o.remoteEndpoint, o.netPkt.wire, o.firstPkt.fields)

def Message.observed (m : Message) : Nat × List UInt8 × List (Nat × List UInt8) :=
  (m.endpoint, m.payload, m.fieldsAt 0)

section

variable {opts : Options} {ms : List Message}

/-- The message with a number, as it is to be observed. -/
def observedAt (ms : List Message) (j : Nat) : Nat × List UInt8 × List (Nat × List UInt8) :=
  (ms[j]?.map Message.observed).getD (0, [], [])

/-- The messages all of whose fragments have arrived. -/
def completed (ms : List Message) (before : List Delivery) : List Nat :=
  (List.range ms.length).filter fun j =>
    ms[j]?.any fun m => (progress before j).got.card == m.frags.length

theorem mem_completed {before : List Delivery} {j : Nat} : j ∈ completed ms before ↔
    ∃ m, ms[j]? = some m ∧ (progress before j).got.card = m.frags.length := by
  simp only [completed, mem_filter, mem_range, Option.any_eq_true, beq_iff_eq]
  exact and_iff_right_of_imp fun ⟨m, hm, _⟩ => (List.getElem?_eq_some_iff.1 hm).1

/-- A fragment completes its own message or none. -/
theorem completed_concat {before : List Delivery} {d : Delivery} {m : Message}
    (hm : ms[d.message]? = some m)
    (hincomplete : (progress before d.message).got.card < m.frags.length) :
    (completed ms (before ++ [d])).Perm
      (if (progress (before ++ [d]) d.message).got.card = m.frags.length
        then d.message :: completed ms before else completed ms before) := by
  have hself : ∀ ds, d.message ∈ completed ms ds ↔
      (progress ds d.message).got.card = m.frags.length := by simp [mem_completed, hm]
  have hothers : ∀ j, j ≠ d.message →
      (j ∈ completed ms (before ++ [d]) ↔ j ∈ completed ms before) := by
    intro j hj
    rw [mem_completed, mem_completed, progress_of_ne hj]
  have hnot : d.message ∉ completed ms before := fun h => hincomplete.ne ((hself before).1 h)
  have hnodup : ∀ ds, (completed ms ds).Nodup := fun ds => nodup_range.filter _
  split
  · refine (perm_ext_iff_of_nodup (hnodup _) (nodup_cons.2 ⟨hnot, hnodup _⟩)).2 fun j => ?_
    by_cases hj : j = d.message
    · simp_all
    · simp [hj, hothers j hj]
  · refine (perm_ext_iff_of_nodup (hnodup _) (hnodup _)).2 fun j => ?_
    by_cases hj : j = d.message
    · simp_all
    · exact hothers j hj

/-- Each message is answered when its last fragment arrives. -/
theorem receiveAll_ends (hkeys : DistinctKeys ms) (hsent : ∀ m ∈ ms, m.Sent opts)
    (hfits : ∀ m ∈ ms, fitsBuffer m = true) {ds before : List Delivery}
    {s : State} (h : Inv opts ms before s) (harrive : ArriveAll opts ms before ds) :
    ∃ s' outs order, receiveAll opts s ds = .ok (s', outs) ∧ Inv opts ms (before ++ ds) s' ∧
      outs.map Output.observed = order.map (observedAt ms) ∧
      (order ++ completed ms before).Perm (completed ms (before ++ ds)) := by
  induction ds generalizing before s with
  | nil =>
    rw [append_nil]
    exact ⟨s, [], [], rfl, h, rfl, .refl _⟩
  | cons d ds ih =>
    obtain ⟨harrives, harrive⟩ := harrive
    obtain ⟨m, frag, hm, -, -, -⟩ := harrives.isOf
    have hmem := mem_of_getElem? hm
    have hcompleted := completed_concat hm (harrives.incomplete m hm)
    obtain ⟨s₁, result, hreceive, hcases⟩ := h.step harrives hkeys hm (hsent m hmem)
    rw [if_pos (hfits m hmem)] at hcases
    rw [receiveAll, hreceive, append_cons]
    rcases hcases with ⟨rfl, h₁, hlt⟩ | ⟨hcard, netPkt, first, rfl, h₁, hendpoint, hwire, hfirst⟩
    · obtain ⟨s', outs, order, hrun, h', houts, hperm⟩ := ih h₁ harrive
      rw [if_neg hlt.ne] at hcompleted
      refine ⟨s', outs, order, ?_, h', houts, (hcompleted.symm.append_left order).trans hperm⟩
      simp only [bind, Except.bind, hrun]
      rfl
    · obtain ⟨s', outs, order, hrun, h', houts, hperm⟩ := ih h₁ harrive
      rw [if_pos hcard] at hcompleted
      refine ⟨s', ⟨d.remoteEndpoint, netPkt, first⟩ :: outs, d.message :: order, ?_, h', ?_, ?_⟩
      · simp only [bind, Except.bind, hrun]
        rfl
      · rw [map_cons, map_cons, houts, observedAt, hm]
        simp only [Output.observed, Message.observed, hendpoint, hwire, hfirst, map_some, getD_some]
      · exact (perm_middle.symm.trans (hcompleted.symm.append_left order)).trans hperm

theorem distinctKeys_of_nodup (hpos : ∀ m ∈ ms, m.Readable)
    (hnumbers : (ms.flatMap Message.numbers).Nodup) : DistinctKeys ms := by
  intro j m j' m' hm hm' hkey
  have hkeyMem : ∀ m ∈ ms, m.key ∈ m.numbers := by
    intro m hm
    refine mem_map.2 ⟨0, mem_range.2 (hpos m hm).pos, ?_⟩
    rw [add_zero, mod_eq_of_lt (hpos m hm).start_lt]
    rfl
  have hdisjoint := (nodup_flatMap.1 hnumbers).2
  obtain ⟨hj, rfl⟩ := List.getElem?_eq_some_iff.1 hm
  obtain ⟨hj', rfl⟩ := List.getElem?_eq_some_iff.1 hm'
  rw [pairwise_iff_getElem] at hdisjoint
  have hfirst := hkeyMem _ (getElem_mem hj)
  have hsecond := hkeyMem _ (getElem_mem hj')
  rcases lt_trichotomy j j' with hlt | heq | hgt
  · exact (hdisjoint j j' hj hj' hlt hfirst (hkey ▸ hsecond)).elim
  · exact heq
  · exact (hdisjoint j' j hj' hj hgt hsecond (hkey ▸ hfirst)).elim

theorem map_observed_range (ms : List Message) :
    ms.map Message.observed = (range ms.length).map (observedAt ms) := by
  apply ext_getElem?
  intro j
  rcases lt_or_ge j ms.length with hj | hj
  · simp_all [observedAt]
  · simp_all

/-- **Reassembly.**  Messages of any number of endpoints, whose fragments arrive in any order, some
    of them several times, are answered once each, with their octets and the fields of their first
    fragments; nothing else is, and nothing remains. -/
theorem receiveAll_perm (hsent : ∀ m ∈ ms, m.Sent opts)
    (hfits : ∀ m ∈ ms, fitsBuffer m = true)
    (hnumbers : (ms.flatMap Message.numbers).Nodup) {ds : List Delivery}
    (harrive : ArriveAll opts ms [] ds)
    (hall : ∀ j m, ms[j]? = some m → ∀ i < m.frags.length, ∃ d ∈ ds, d.message = j ∧ d.index = i) :
    ∃ outs, receiveAll opts [] ds = .ok ([], outs) ∧
      (outs.map Output.observed).Perm (ms.map Message.observed) := by
  have hread : ∀ m ∈ ms, m.Readable := fun m hm => (hsent m hm).readable
  obtain ⟨s, outs, order, hrun, hinv, houts, hperm⟩ := receiveAll_ends
    (distinctKeys_of_nodup hread hnumbers) hsent hfits (inv_nil opts ms) harrive
  rw [nil_append] at hinv hperm
  -- every message is complete in the end, and none at the beginning
  have hfull : ∀ j m, ms[j]? = some m → (progress ds j).got.card = m.frags.length := by
    intro j m hm
    have hgot : (progress ds j).got = Finset.range m.frags.length := by
      refine (hinv.indices j m hm).antisymm fun i hi => ?_
      exact mem_progress.2 (hall j m hm i (Finset.mem_range.1 hi))
    rw [hgot, Finset.card_range]
  have hempty : s = [] := by
    apply eq_nil_iff_forall_not_mem.2
    intro e he
    obtain ⟨j, m, hm, -, -, -, -, hlt⟩ := hinv.entries e he
    exact hlt.ne (hfull j m hm)
  have hnone : completed ms [] = [] := by
    apply eq_nil_iff_forall_not_mem.2
    intro j hj
    obtain ⟨m, hm, hcard⟩ := mem_completed.1 hj
    exact (hread m (mem_of_getElem? hm)).pos.ne hcard
  have hend : completed ms ds = List.range ms.length := by
    refine filter_eq_self.2 fun j hj => ?_
    have hm := List.getElem?_eq_getElem (mem_range.1 hj)
    rw [hm]
    exact beq_iff_eq.2 (hfull j _ hm)
  rw [hnone, append_nil, hend] at hperm
  refine ⟨outs, hempty ▸ hrun, ?_⟩
  rw [houts, map_observed_range]
  exact hperm.map _

end

/-! ### Two endpoints -/

namespace Sample

/-- An Interest, its packet with a CongestionMark, and the two fragments it is sent in, numbered
    across the wrap-around. -/
def interest : List UInt8 := [5, 27, 7, 25, 8, 23] ++ List.replicate 23 97

def packet : Raises Packet := do
  let packet ← Packet.empty.add fragmentField interest
  packet.add congestionMarkField 1

def frags : List Packet :=
  [⟨[Block.make Lp.Tlv.sequence [255, 255, 255, 255, 255, 255, 255, 255],
      Block.make Lp.Tlv.fragIndex [0], Block.make Lp.Tlv.fragCount [2],
      Block.make Lp.Tlv.congestionMark [1],
      Block.make Lp.Tlv.fragment ([5, 27, 7, 25, 8, 23] ++ List.replicate 6 97)], none⟩,
    ⟨[Block.make Lp.Tlv.sequence [0, 0, 0, 0, 0, 0, 0, 0],
      Block.make Lp.Tlv.fragIndex [1], Block.make Lp.Tlv.fragCount [2],
      Block.make Lp.Tlv.fragment (List.replicate 17 97)], none⟩]

def message (endpoint : Nat) : Message := ⟨endpoint, interest, frags, 2 ^ 64 - 1⟩

def options : Options := ⟨400, 500⟩

def delivery (message index : Nat) : Delivery :=
  ⟨0, message + 1, (frags[index]?).getD Packet.empty, message, index⟩

theorem sent_message (endpoint : Nat) : (message endpoint).Sent options := by
  have hpacket : ∃ p, packet = .ok p ∧ p.Built ∧ p.get fragmentField = .ok interest ∧
      p.has fragIndexField = false ∧ p.has fragCountField = false ∧
      ∃ frags' last, fragmentPacket 400 p 67 = .ok (some frags') ∧
        LinkService.assignSequences (2 ^ 64 - 2) frags' = .ok (frags, last) := by
    refine ⟨_, rfl, ?_, rfl, rfl, rfl, _, _, rfl, rfl⟩
    exact .add (f := congestionMarkField) (v := 1)
      (.add (f := fragmentField) (v := interest) .empty rfl) rfl
  obtain ⟨p, -, hbuilt, hget, hindex, hcount, frags', last, hfragment, hassign⟩ := hpacket
  refine ⟨⟨_, rfl, rfl, Or.inl rfl⟩, show 2 ≤ 400 by decide, p, 400, 67, 2 ^ 64 - 2,
    frags', last, ?_⟩
  exact ⟨hbuilt, hget, hindex, hcount, by decide, hfragment, hassign, rfl⟩

/-- Fragments of both messages, one of them twice, all at the same time. -/
def deliveries : List Delivery :=
  [delivery 0 1, delivery 1 0, delivery 0 1, delivery 0 0, delivery 1 1]

end Sample

theorem receiveAll_perm_two_endpoints :
    ∃ outs, receiveAll Sample.options [] Sample.deliveries = .ok ([], outs) ∧
      (outs.map Output.observed).Perm
        ([Sample.message 1, Sample.message 2].map Message.observed) := by
  have hpair : ∀ (P : Nat → Message → Prop), P 0 (Sample.message 1) → P 1 (Sample.message 2) →
      ∀ j m, [Sample.message 1, Sample.message 2][j]? = some m → P j m := by
    intro P h₀ h₁ j m hm
    match j with
    | 0 => exact some.inj hm ▸ h₀
    | 1 => exact some.inj hm ▸ h₁
    | j + 2 => cases hm
  refine receiveAll_perm ?_ ?_ (by decide) ?_ ?_
  · simp [Sample.sent_message]
  · intro m hm
    rcases mem_pair.1 hm with rfl | rfl
    · rfl
    · rfl
  · refine ⟨⟨⟨_, _, rfl, rfl, rfl, rfl⟩, ?_, ?_⟩, ⟨⟨_, _, rfl, rfl, rfl, rfl⟩, ?_, ?_⟩,
      ⟨⟨_, _, rfl, rfl, rfl, rfl⟩, ?_, ?_⟩, ⟨⟨_, _, rfl, rfl, rfl, rfl⟩, ?_, ?_⟩,
      ⟨⟨_, _, rfl, rfl, rfl, rfl⟩, ?_, ?_⟩, trivial⟩
    all_goals first
      | exact fun m hm => some.inj hm ▸ by decide
      | exact hpair _ (by decide) (by decide)
  · exact hpair _ (by decide) (by decide)

/-! ### A large message -/

theorem firstHeaderSize_bare {packet : Packet} {e b : Block} (helements : packet.elements = [e])
    (htype : e.type = Lp.Tlv.fragment)
    (hb : b.type = Ndn.Tlv.interest ∨ b.type = Ndn.Tlv.data) :
    headerSize packet = 0 ∧ firstHeaderSize packet b = 0 := by
  refine ⟨?_, if_neg ?_⟩
  · rw [headerSize, helements, filter_cons_of_neg (by simp [htype])]
    rfl
  · rcases hb with hb | hb
    · rw [hb]
      decide
    · rw [hb]
      decide

/-- A network packet of `2 ^ 32` octets is sent in two fragments through an MTU of that size. -/
theorem exists_large_message (opts : Options) (hlimit : 2 ≤ opts.nMaxFragments) :
    ∃ m : Message, m.Sent opts ∧ m.frags.length = 2 ∧ m.payload.length = 2 ^ 32 := by
  obtain ⟨value, hvalue⟩ : ∃ value : List UInt8, value.length = 2 ^ 32 - 6 :=
    ⟨replicate _ 0, length_replicate⟩
  obtain ⟨payload, hnetwork, hlength⟩ : ∃ payload, IsNetworkPacket payload ∧
      payload.length = 2 ^ 32 := by
    refine ⟨(Block.make Ndn.Tlv.data value).wire,
      ⟨_, Block.fromBuffer_make (by decide) (by decide) (by omega), rfl, Or.inr rfl⟩, ?_⟩
    rw [Block.wire, Block.make, length_append, length_append,
      Ndn.Tlv.length_writeVarNumber, Ndn.Tlv.length_writeVarNumber, hvalue]
    rfl
  have hne : payload ≠ [] := by
    rintro rfl
    cases hlength
  obtain ⟨packet, hadd⟩ := exists_add (p := empty) (f := fragmentField) (v := payload) rfl rfl
  have hbuilt : packet.Built := .add .empty hadd
  have helements : packet.elements = [Block.make Lp.Tlv.fragment payload] := by
    obtain ⟨-, value', hvalue', rfl⟩ := add_eq_ok hadd
    obtain rfl := Except.ok.inj hvalue'
    rfl
  have hnone : ∀ {f : Lp.Field Nat}, f.decl.tlvType ≠ Lp.Tlv.fragment → packet.has f = false := by
    intro f hf
    rw [has_eq_false_iff, helements]
    intro e he
    rw [mem_singleton.1 he]
    exact hf.symm
  have hpayload : packet.get fragmentField = .ok payload := by
    rw [hbuilt.wellFormed.get_eq (f := fragmentField) rfl (helements ▸ mem_cons_self) rfl]
    exact if_neg hne
  obtain ⟨wire, hencode, hwire, htype, -⟩ := wireEncode_of_isBare helements rfl hnetwork
  obtain ⟨hheader, hfirst⟩ := firstHeaderSize_bare helements rfl htype
  have hwireLength : wire.wire.length = 2 ^ 32 := by
    rw [hwire]
    exact hlength
  -- fifty octets are left for the second fragment
  have hcount : 1 + blockCount (2 ^ 32 - maxFragOverhead)
      (2 ^ 32 - min (2 ^ 32) (2 ^ 32 - 0 - maxFragOverhead)) = 2 := by decide
  obtain ⟨frags, hfragment, hfrags, -⟩ := fragmentPacket_pieces 400 (2 ^ 32)
    hbuilt.wellFormed hpayload (hnone (by decide)) (hnone (by decide)) hencode
    (by rw [hheader]; exact zero_le _) (by decide) (by rw [hwireLength]; decide)
    (by rw [hfirst]; decide) (by rw [hfirst, hlength, hcount]; decide)
  rw [hfirst, hlength, hcount] at hfrags
  obtain ⟨ps, last, hassign, hps⟩ := LinkService.assignSequences_eq 0 frags
  have hlen : ps.length = 2 := hps.length_eq.symm.trans hfrags
  refine ⟨⟨1, payload, ps, 1⟩, ⟨hnetwork, ?_, ?_⟩, hlen, hlength⟩
  · show ps.length ≤ _
    omega
  · exact ⟨packet, 400, 2 ^ 32, 0, frags, last, hbuilt, hpayload, hnone (by decide),
      hnone (by decide),
      by decide, hfragment, hassign, rfl⟩

/-- Two fragments of a large message arrive, and the second makes the copy leave the buffer. -/
theorem receiveAll_overruns :
    ∃ (m : Message) (ds : List Delivery), m.Sent ⟨400, 500000000⟩ ∧ m.payload.length = 2 ^ 32 ∧
      m.numbers.Nodup ∧ ArriveAll ⟨400, 500000000⟩ [m] [] ds ∧
      (∀ i < m.frags.length, ∃ d ∈ ds, d.message = 0 ∧ d.index = i) ∧
      receiveAll ⟨400, 500000000⟩ [] ds = .error .undefinedBehavior := by
  obtain ⟨m, hsent, hcount, hlength⟩ := exists_large_message ⟨400, 500000000⟩ (by decide)
  obtain ⟨p₀, p₁, hfrags⟩ := length_eq_two.1 hcount
  have honly : ∀ (j : Nat) (m' : Message), [m][j]? = some m' → j = 0 ∧ m' = m := by
    intro j m' hm'
    match j with
    | 0 => exact ⟨rfl, (some.inj hm').symm⟩
    | j + 1 => cases hm'
  have hkeys : DistinctKeys [m] := fun j m₁ j' m₂ hj hj' _ =>
    (honly j m₁ hj).1.trans (honly j' m₂ hj').1.symm
  have harrives₀ : Arrives ⟨400, 500000000⟩ [m] [] ⟨0, m.endpoint, p₀, 0, 0⟩ := by
    refine ⟨⟨m, p₀, rfl, rfl, by rw [hfrags]; rfl, rfl⟩, fun m' hm' => ?_, fun j m' _ hne _ => ?_⟩
    · obtain rfl := (honly 0 m' hm').2
      rw [hcount]
      exact succ_pos 1
    · exact absurd hne Finset.not_nonempty_empty
  have harrives₁ : Arrives ⟨400, 500000000⟩ [m] [⟨0, m.endpoint, p₀, 0, 0⟩]
      ⟨0, m.endpoint, p₁, 0, 1⟩ := by
    refine ⟨⟨m, p₁, rfl, rfl, by rw [hfrags]; rfl, rfl⟩, fun m' hm' => ?_, fun j m' hm' _ _ => ?_⟩
    · obtain rfl := (honly 0 m' hm').2
      rw [hcount]
      exact lt_succ_self 1
    · obtain ⟨rfl, -⟩ := honly j m' hm'
      show (0 : Int) < 0 + 500000000
      decide
  refine ⟨m, [_, _], hsent, hlength, ?_, ⟨harrives₀, harrives₁, trivial⟩, fun i hi => ?_, ?_⟩
  · have hstart := hsent.readable.start_lt
    rw [Message.numbers, hcount]
    simp only [range_succ, range_zero, nil_append, map_cons, map_nil,
      cons_append, nodup_cons, mem_singleton, Prod.mk.injEq, true_and,
      not_mem_nil, not_false_eq_true, nodup_nil, and_true]
    omega
  · rw [hcount] at hi
    match i with
    | 0 => exact ⟨_, (.head _), rfl, rfl⟩
    | 1 => exact ⟨_, .tail _ (.head _), rfl, rfl⟩
  · obtain ⟨s₁, result₁, hreceive₁, ⟨rfl, hinv, -⟩ | ⟨hcard, -⟩⟩ :=
      (inv_nil ⟨400, 500000000⟩ [m]).step harrives₀ hkeys rfl hsent
    · obtain ⟨s₂, result₂, hreceive₂, ⟨-, -, hlt⟩ | ⟨-, hresult⟩⟩ :=
        hinv.step harrives₁ hkeys rfl hsent
      · rw [hcount] at hlt
        exact absurd hlt (lt_irrefl 2)
      · rw [if_neg (by simp [fitsBuffer, hcount, hlength])] at hresult
        rw [receiveAll, hreceive₁]
        simp only [bind, Except.bind]
        rw [receiveAll, hreceive₂, hresult]
        rfl
    · rw [hcount] at hcard
      cases hcard

end NdnMulticast.Nfd.LpReassembler
