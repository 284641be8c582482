/-
  Receiving from a stream socket, after `transport/detail/stream-transport-impl.hpp`.

  `pause` keeps what is in the input buffer, but `resume` discards it.
-/

import NdnMulticast.Lib.Framing
import NdnMulticast.Lib.Run
import NdnMulticast.Ndn.Encode

namespace NdnMulticast.Ndn

open Lib List Block

/-! ## Packets in a stream -/

namespace Block

/-- `Block::fromBuffer` answers no exception but whether there is an element. -/
def framing : Framing UInt8 Block := ⟨fun buf => (fromBuffer buf).toOption, wire⟩

/-- The element is what its encoding says. -/
def IsPacket (b : Block) : Prop := fromBuffer b.wire = .ok b

theorem fromBuffer_split {buf : List UInt8} {b : Block} (h : fromBuffer buf = .ok b) :
    b.after = [] ∧ ∃ rest, buf = b.wire ++ rest := by
  obtain ⟨⟨type, length, rest⟩, hread, h⟩ := bind_eq_ok_iff.1 h
  dsimp only at h
  split at h
  · cases h
  · obtain rfl := Except.ok.inj h
    refine ⟨rfl, rest.drop length, ?_⟩
    show buf = upTo buf rest ++ rest.take length ++ rest.drop length
    rw [append_assoc, take_append_drop]
    exact (readTypeLength_split hread).1

theorem sound_framing {b : Block} (h : b.IsPacket) : framing.Sound b := by
  have hencodes := fromBuffer_encodes h
  have hafter := (fromBuffer_split h).1
  have hsame : { b with after := [] } = b := by
    cases b
    cases hafter
    rfl
  refine ⟨?_, fun rest => ?_, fun part rest hpart hne => ?_⟩
  · show b.tl ++ b.value ≠ []
    simp [hencodes.ne_nil]
  · show (fromBuffer (b.wire ++ rest)).toOption = some b
    rw [fromBuffer_append hencodes, hsame]
    rfl
  · show (fromBuffer part).toOption = none
    cases hread : fromBuffer part with
    | error e => rfl
    | ok c =>
      -- what is read from a part is read from the whole
      exfalso
      obtain ⟨-, more, hmore⟩ := fromBuffer_split hread
      have hwhole : fromBuffer b.wire = .ok { c with after := [] } := by
        have hpart' : b.wire = c.wire ++ (more ++ rest) := by
          rw [← append_assoc, ← hmore]
          exact hpart.symm
        rw [hpart']
        exact fromBuffer_append (fromBuffer_encodes hread) _
      have hwire : b.wire = c.wire := by
        rw [Except.ok.inj (h.symm.trans hwhole)]
        rfl
      have hlen := congrArg List.length hpart
      have hlen' := congrArg List.length hmore
      have hpos := length_pos_iff.2 hne
      change (part ++ rest).length = b.wire.length at hlen
      rw [length_append] at hlen hlen'
      rw [hwire] at hlen
      omega

/-- The elements of a receive buffer, the offset behind them, and whether nothing remains. -/
def readAll (buffer : List UInt8) : List Block × Nat × Bool :=
  framing.readAll buffer buffer.length 0

theorem readAll_pending {todo : List Block} (htodo : ∀ p ∈ todo, p.IsPacket)
    {buffer rest : List UInt8} (hstream : buffer ++ rest = todo.flatMap wire) :
    ∃ done todo' offset isOk, readAll buffer = (done, offset, isOk) ∧
      todo = done ++ todo' ∧ framing.Pending todo' (buffer.drop offset) rest := by
  obtain ⟨done, todo', offset, isOk, hread, hsplit, -, hpending⟩ := Framing.readAll_pending
    (fun p hp => sound_framing (htodo p hp)) (Nat.zero_le _)
    (Nat.le_of_eq (Nat.zero_add _).symm) (show buffer.drop 0 ++ rest = _ from hstream)
  exact ⟨done, todo', offset, isOk, hread, hsplit, hpending⟩

/-- What remains in a receive buffer is moved to its front. -/
def compact (buffer : List UInt8) (offset : Nat) : List UInt8 :=
  if 0 < offset then
    if offset ≠ buffer.length then buffer.drop offset else []
  else buffer

theorem compact_eq (buffer : List UInt8) (offset : Nat) :
    compact buffer offset = buffer.drop offset := by
  unfold compact
  split
  · simp_all
  · simp_all

end Block

namespace StreamTransportImpl

/-! ## The transport -/

structure State where
  /-- The first `m_inputBufferSize` octets of `m_inputBuffer`. -/
  inputBuffer : List UInt8
  isConnecting : Bool
  isReceiving : Bool
  /-- The size of the buffer of the `async_receive` in progress. -/
  receiving : Option Nat
  /-- The calls of `m_receiveCallback`. -/
  delivered : List Block
  /-- The `Transport::Error` that has been thrown. -/
  error : Option String
deriving DecidableEq

/-- After the connection has been established. -/
def State.init : State := ⟨[], false, false, none, [], none⟩

namespace State

def asyncReceive (s : State) : State :=
  { s with receiving := some (maxNdnPacketSize - s.inputBuffer.length) }

def close (s : State) : State :=
  { s with isConnecting := false, isReceiving := false, receiving := none }

/-- `pause`; the handler of the receive that is cancelled does nothing. -/
def pause (s : State) : State :=
  if s.isConnecting then s
  else if s.isReceiving then { s with isReceiving := false, receiving := none }
  else s

def resume (s : State) : State :=
  if s.isConnecting then s
  else if !s.isReceiving then
    asyncReceive { s with isReceiving := true, inputBuffer := [] }
  else s

def processAllReceived (buffer : List UInt8) : List Block × Nat × Bool := Block.readAll buffer

/-- `handleAsyncReceive`, when octets have been received. -/
def handleAsyncReceive (chunk : List UInt8) (s : State) : State :=
  let buffer := s.inputBuffer ++ chunk
  let (elements, offset, hasProcessedSome) := processAllReceived buffer
  let s := { s with
    inputBuffer := buffer, receiving := none, delivered := s.delivered ++ elements }
  if !hasProcessedSome && buffer.length == maxNdnPacketSize && offset == 0 then
    { s.close with error := some "input buffer full, but a valid TLV cannot be decoded" }
  else asyncReceive { s with inputBuffer := Block.compact buffer offset }

end State

inductive Event where
  | receive (chunk : List UInt8)
  | pause
  | resume
deriving DecidableEq, Repr

/-- A receive completes with at most the octets asked for, and nothing follows an exception. -/
def step (s : State) (e : Event) : Option State :=
  if s.error.isSome then none
  else
    match e with
    | .receive chunk =>
      match s.receiving with
      | none => none
      | some size => if chunk.length ≤ size then some (s.handleAsyncReceive chunk) else none
    | .pause => some s.pause
    | .resume => some s.resume

/-! ## Alignment -/

/-- The octets that have been received. -/
def received (es : List Event) : List UInt8 :=
  es.flatMap fun
    | .receive chunk => chunk
    | .pause => []
    | .resume => []

/-- A resume that takes effect finds the input buffer empty. -/
def keepsAligned (s : State) : Event → Bool
  | .receive _ => true
  | .pause => true
  | .resume => s.isConnecting || s.isReceiving || s.inputBuffer.isEmpty

/-- The packets of the stream have been delivered up to one that begins in the input buffer. -/
def Aligned (ps : List Block) (rest : List UInt8) (s : State) : Prop :=
  ∃ todo, ps = s.delivered ++ todo ∧
    (s.error = none → s.inputBuffer ++ rest = todo.flatMap Block.wire)

section

variable {ps : List Block} {rest : List UInt8} {s s' : State}

theorem aligned_receive (hps : ∀ p ∈ ps, p.IsPacket) {chunk : List UInt8}
    (h : Aligned ps (chunk ++ rest) s) (hopen : s.error = none) :
    Aligned ps rest (s.handleAsyncReceive chunk) := by
  obtain ⟨todo, hsplit, hstream⟩ := h
  have hstream := hstream hopen
  rw [← append_assoc] at hstream
  obtain ⟨done, todo', offset, isOk, hread, htodo, hpending⟩ :=
    readAll_pending (fun p hp => hps p (by rw [hsplit]; exact mem_append_right _ hp)) hstream
  have hps' : ps = s.delivered ++ done ++ todo' := by rw [hsplit, htodo, append_assoc]
  unfold State.handleAsyncReceive
  dsimp only
  rw [State.processAllReceived, hread]
  split
  · exact ⟨todo', hps', fun herror => by cases herror⟩
  · refine ⟨todo', hps', fun _ => ?_⟩
    rw [compact_eq]
    exact hpending.stream

theorem aligned_pause (h : Aligned ps rest s) : Aligned ps rest s.pause := by
  unfold State.pause
  split
  · exact h
  · split
    · exact h
    · exact h

theorem aligned_resume (h : Aligned ps rest s) (hok : keepsAligned s .resume = true) :
    Aligned ps rest s.resume := by
  unfold State.resume
  split
  · exact h
  rename_i hconnecting
  split
  · rename_i hreceiving
    -- nothing is discarded
    have hempty : s.inputBuffer = [] := by
      simp only [keepsAligned, Bool.or_eq_true, List.isEmpty_iff] at hok
      rcases hok with (hok | hok) | hok
      · exact absurd hok hconnecting
      · rw [hok] at hreceiving
        cases hreceiving
      · exact hok
    obtain ⟨todo, hsplit, hstream⟩ := h
    refine ⟨todo, hsplit, fun hopen => ?_⟩
    rw [← hstream hopen, hempty]
    rfl
  · exact h

theorem aligned_step (hps : ∀ p ∈ ps, p.IsPacket) {e : Event}
    (h : Aligned ps (received [e] ++ rest) s) (hok : keepsAligned s e = true)
    (hstep : step s e = some s') : Aligned ps rest s' := by
  obtain ⟨hopen, hstep⟩ := Option.ite_none_left_eq_some.1 hstep
  have hopen : s.error = none := by simpa using hopen
  cases e with
  | receive chunk =>
    have hchunk : received [.receive chunk] = chunk := append_nil chunk
    dsimp only at hstep
    split at hstep
    · cases hstep
    · grind [aligned_receive]
  | pause =>
    obtain rfl := Option.some.inj hstep
    exact aligned_pause h
  | resume =>
    obtain rfl := Option.some.inj hstep
    exact aligned_resume h hok

theorem aligned_run (hps : ∀ p ∈ ps, p.IsPacket) {es : List Event} {t : State}
    (hrun : Run step (fun s e => keepsAligned s e = true) s es t)
    (h : Aligned ps (received es ++ rest) s) : Aligned ps rest t := by
  induction hrun with
  | nil s => exact h
  | @cons s s' t e es hok hstep _ ih =>
    have hsplit : received (e :: es) ++ rest = received [e] ++ (received es ++ rest) := by
      rw [← append_assoc, received, received, received, ← flatMap_append]
      rfl
    rw [hsplit] at h
    exact ih (aligned_step hps h hok hstep)

end

/-- **Alignment.**  As long as the transport is resumed with an empty input buffer only, the packets
    of the stream are delivered one after another, and nothing else is. -/
theorem run_aligned {ps : List Block} (hps : ∀ p ∈ ps, p.IsPacket) {es : List Event}
    {rest : List UInt8} (hstream : received es ++ rest = ps.flatMap Block.wire) {t : State}
    (hrun : Run step (fun s e => keepsAligned s e = true) State.init es t) :
    ∃ todo, ps = t.delivered ++ todo ∧
      (t.error = none → t.inputBuffer ++ rest = todo.flatMap Block.wire) :=
  aligned_run hps hrun ⟨ps, rfl, fun _ => hstream⟩

namespace Sample

/-- A Data whose TLV-VALUE could be taken for a packet of its own. -/
def packet : Block := Block.make Tlv.data [7, 2, 8, 0]

end Sample

/-- The transport is paused between two packets. -/
theorem run_aligned_paused :
    ∃ t, Run step (fun s e => keepsAligned s e = true) State.init
        [.resume, .receive [6, 4, 7, 2], .receive [8, 0], .pause, .resume, .receive [6, 4]] t ∧
      ∃ todo, [Sample.packet, Sample.packet] = t.delivered ++ todo ∧
        (t.error = none → t.inputBuffer ++ [7, 2, 8, 0] = todo.flatMap Block.wire) := by
  refine Run.exists_of_decide (fun _ => True) (by decide) fun t hrun _ => ?_
  refine run_aligned (fun p hp => ?_) rfl hrun
  have hp : p = Sample.packet := by simpa using hp
  rw [hp]
  rfl

/-- The transport is paused in a packet.  What follows of the packet is then delivered. -/
theorem resume_loses_alignment :
    Sample.packet.IsPacket ∧ ∃ t, Run step (fun _ _ => True) State.init
        [.resume, .receive [6, 4], .pause, .resume, .receive [7, 2, 8, 0]] t ∧
      received [.resume, .receive [6, 4], .pause, .resume, .receive [7, 2, 8, 0]] =
        [Sample.packet].flatMap Block.wire ∧
      ∃ b ∈ t.delivered, b.wire = [7, 2, 8, 0] ∧ b ∉ [Sample.packet] := by
  exact ⟨rfl, Run.exists_of_decide _ (by decide) fun _ _ ht => ht⟩

end StreamTransportImpl

end NdnMulticast.Ndn
