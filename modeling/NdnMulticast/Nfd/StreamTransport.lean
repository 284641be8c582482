/-
  Receiving from a stream socket, after `daemon/face/stream-transport.hpp`.  The receive buffer
  has room for the largest packet.
-/

import NdnMulticast.Ndn.StreamTransport

namespace NdnMulticast.Nfd.StreamTransport

open Lib Ndn List Block

inductive TransportState where
  | up
  | failed
deriving DecidableEq, Repr

structure State where
  /-- The first `m_receiveBufferSize` octets of `m_receiveBuffer`. -/
  receiveBuffer : List UInt8
  /-- The elements passed to `receive`. -/
  received : List Block
  state : TransportState
  /-- The size of the buffer of the `async_receive` in progress. -/
  receiving : Option Nat
deriving DecidableEq

namespace State

def startReceive (s : State) : State :=
  { s with receiving := some (maxNdnPacketSize - s.receiveBuffer.length) }

/-- `StreamTransport::StreamTransport`. -/
def init : State := startReceive ⟨[], [], .up, none⟩

/-- `handleReceive`, when octets have been received. -/
def handleReceive (chunk : List UInt8) (s : State) : State :=
  let buffer := s.receiveBuffer ++ chunk
  let (elements, offset, isOk) := Block.readAll buffer
  let s := { s with
    receiveBuffer := buffer, received := s.received ++ elements, receiving := none }
  if !isOk && buffer.length == maxNdnPacketSize && offset == 0 then { s with state := .failed }
  else startReceive { s with receiveBuffer := Block.compact buffer offset }

end State

/-- A receive completes with no more octets than it has asked for. -/
def step (s : State) (chunk : List UInt8) : Option State :=
  match s.receiving with
  | none => none
  | some size => if chunk.length ≤ size then some (s.handleReceive chunk) else none

/-! ## The invariant -/

/-- Some packets have been passed on, the next is not complete, and a receive is in progress. -/
structure Inv (ps : List Block) (rest : List UInt8) (s : State) : Prop where
  state : s.state = .up
  receiving : s.receiving = some (maxNdnPacketSize - s.receiveBuffer.length)
  pending : ∃ todo, ps = s.received ++ todo ∧ Block.framing.Pending todo s.receiveBuffer rest

section

variable {ps : List Block} {rest : List UInt8} {s s' : State}

theorem inv_init (hps : ∀ p ∈ ps, p.IsPacket) (hrest : rest = ps.flatMap wire) :
    Inv ps rest State.init :=
  ⟨rfl, rfl, ps, rfl, Framing.pending_nil (fun p hp => sound_framing (hps p hp)) hrest⟩

theorem Inv.length_lt (h : Inv ps rest s) (hsize : ∀ p ∈ ps, p.wire.length ≤ maxNdnPacketSize) :
    s.receiveBuffer.length < maxNdnPacketSize := by
  obtain ⟨todo, hsplit, hpending⟩ := h.pending
  refine hpending.length_lt (by decide) fun p hp => hsize p ?_
  rw [hsplit]
  exact mem_append_right _ hp

variable (hps : ∀ p ∈ ps, p.IsPacket) (hsize : ∀ p ∈ ps, p.wire.length ≤ maxNdnPacketSize)
include hps hsize

theorem inv_receive {chunk : List UInt8} (h : Inv ps (chunk ++ rest) s) :
    Inv ps rest (s.handleReceive chunk) := by
  obtain ⟨todo, hsplit, hpending⟩ := h.pending
  have htodo : ∀ p ∈ todo, p ∈ ps := by
    intro p hp
    rw [hsplit]
    exact mem_append_right _ hp
  have hstream := hpending.stream
  rw [← append_assoc] at hstream
  obtain ⟨done, todo', offset, isOk, hread, hdone, hpending'⟩ :=
    readAll_pending (fun p hp => hps p (htodo p hp)) hstream
  have hps' : ps = s.received ++ done ++ todo' := by rw [hsplit, hdone, append_assoc]
  have hnext : ∀ p ∈ todo', p.wire.length ≤ maxNdnPacketSize := by
    intro p hp
    refine hsize p (htodo p ?_)
    rw [hdone]
    exact mem_append_right _ hp
  -- a full buffer that starts with no complete packet would be less than the largest packet
  have hroom : offset = 0 → (s.receiveBuffer ++ chunk).length ≠ maxNdnPacketSize := by
    rintro rfl
    have hlt := hpending'.length_lt (show 0 < maxNdnPacketSize by decide) hnext
    exact Nat.ne_of_lt hlt
  unfold State.handleReceive
  dsimp only
  rw [hread]
  rw [compact_eq, if_neg]
  · exact ⟨h.state, rfl, todo', hps', hpending'⟩
  · grind

theorem inv_step {chunk : List UInt8} (h : Inv ps (chunk ++ rest) s)
    (hstep : step s chunk = some s') : Inv ps rest s' := by
  unfold step at hstep
  split at hstep
  · cases hstep
  · grind [inv_receive]

theorem inv_run {chunks : List (List UInt8)} {t : State}
    (hrun : Run step (fun _ _ => True) s chunks t) (h : Inv ps (chunks.flatten ++ rest) s) :
    Inv ps rest t := by
  induction hrun with
  | nil s => exact h
  | @cons s s' t chunk chunks _ hstep _ ih => grind [inv_step]

end

/-- **Receiving.**  However a stream of packets is divided, the transport stays up, every receive
    has room for an octet, and the packets are passed on in order; when all of the stream has
    arrived, all of them have been. -/
theorem run_delivers {ps : List Block} (hps : ∀ p ∈ ps, p.IsPacket)
    (hsize : ∀ p ∈ ps, p.wire.length ≤ maxNdnPacketSize) {chunks : List (List UInt8)}
    {rest : List UInt8} (hstream : chunks.flatten ++ rest = ps.flatMap Block.wire) {t : State}
    (hrun : Run step (fun _ _ => True) State.init chunks t) :
    t.state = .up ∧ (∃ size, t.receiving = some size ∧ 0 < size) ∧
      (∃ todo, ps = t.received ++ todo) ∧ (rest = [] → t.received = ps) := by
  have hinv := inv_run hps hsize hrun (inv_init hps hstream)
  obtain ⟨todo, hsplit, hpending⟩ := hinv.pending
  refine ⟨hinv.state, ⟨_, hinv.receiving, ?_⟩, ⟨todo, hsplit⟩, ?_⟩
  · exact Nat.sub_pos_of_lt (hinv.length_lt hsize)
  · rintro rfl
    rw [hsplit, hpending.eq_nil.1, append_nil]

/-- Two packets, divided within a TLV-LENGTH and a TLV-TYPE of more than one octet. -/
theorem run_delivers_divided :
    ∃ t, Run step (fun _ _ => True) State.init [[6], [4, 7, 2, 8, 0, 253], [3, 32, 1], [97]] t ∧
      t.received = [Block.make Tlv.data [7, 2, 8, 0], Block.make 800 [97]] := by
  refine Run.exists_of_decide (fun _ => True) (by decide) fun t hrun _ => ?_
  have hpackets : ∀ p ∈ [make Tlv.data [7, 2, 8, 0], make 800 [97]],
      p.IsPacket ∧ p.wire.length ≤ maxNdnPacketSize := by
    intro p hp
    rcases mem_pair.1 hp with rfl | rfl
    · exact ⟨rfl, by decide⟩
    · exact ⟨rfl, by decide⟩
  exact (run_delivers (fun p hp => (hpackets p hp).1) (fun p hp => (hpackets p hp).2) rfl
    hrun).2.2.2 rfl

end NdnMulticast.Nfd.StreamTransport
