/-
  Reliable sending of link-layer packets, after `daemon/face/lp-reliability.cpp`: the
  fragments that wait for an Ack, the network packets they belong to, and the counters.

  Which packet an increment and a transmission were for is recorded here; the source only
  counts.  The clock is left out: the RTO of a stored fragment can expire at any time.  Of
  what `processIncomingPacket` does with a fragment, the check for duplicates is modelled.
-/

import Mathlib.Data.List.Induction
import NdnMulticast.Lib.Assoc
import NdnMulticast.Lib.Cyclic
import NdnMulticast.Lib.Run
import NdnMulticast.Ndn.LpEdit

namespace NdnMulticast.Nfd.LpReliability

open Lib Ndn Ndn.Lp List Option Prod Nat

structure Options where
  maxRetx : Nat := 3
  seqNumLossThreshold : Nat := 3

structure UnackedFrag where
  pkt : Packet
  retxCount : Nat
  nGreaterSeqAcks : Nat
  netPkt : Nat
  /-- Which fragment of the network packet it is. -/
  index : Nat

structure NetPkt where
  /-- The TxSequence numbers of the fragments: the iterators of the source. -/
  unackedFrags : List Nat
  isInterest : Bool
  didRetx : Bool

inductive Counter where
  | nAcknowledged
  | nRetransmitted
  | nRetxExhausted
deriving DecidableEq, Repr

structure Transmission where
  netPkt : Nat
  index : Nat
  pkt : Packet

structure Sender where
  /-- By increasing TxSequence. -/
  unackedFrags : List (Nat × UnackedFrag)
  firstUnackedFrag : Option Nat
  lastTxSeqNo : Nat
  /-- Every network packet there has been. -/
  netPkts : List NetPkt
  counted : List (Nat × Counter)
  transmitted : List Transmission
  droppedInterests : List Nat

/-- The constructor: TxSequence numbers start at 0. -/
def Sender.init : Sender := ⟨[], none, 2 ^ 64 - 1, [], [], [], []⟩

namespace Sender

variable (txSeq : Nat) (s : Sender) (frag : UnackedFrag)

def keys : List Nat := s.unackedFrags.map Prod.fst

def assignTxSequence (frag : Packet) (s : Sender) : Except Fault (Sender × Packet) := do
  let txSeq := (s.lastTxSeqNo + 1) % 2 ^ 64
  let frag ← (frag.set txSequenceField txSeq).mapError Fault.raised
  if !s.unackedFrags.isEmpty && s.firstUnackedFrag == some txSeq then
    .error (.raised (.lengthError "TxSequence range exceeded"))
  else return ({ s with lastTxSeqNo := txSeq }, frag)

/-- `m_unackedFrags.emplace_hint`: an element that is there is left alone. -/
def emplace (frags : List (Nat × UnackedFrag)) : List (Nat × UnackedFrag) :=
  if (frags.map Prod.fst).contains txSeq then frags
  else frags.orderedInsert (fun a b => a.1 ≤ b.1) (txSeq, frag)

/-! ## Outgoing packets -/

/-- One round of the loop of `handleOutgoing`. -/
def storeFrag (netPkt index : Nat) (frag : Packet) (s : Sender) :
    Except Fault (Sender × Packet) := do
  let (s, frag) ← s.assignTxSequence frag
  let frags := emplace s.lastTxSeqNo ⟨frag, 0, 0, netPkt, index⟩ s.unackedFrags
  let netPkts := s.netPkts.modify netPkt fun np =>
    { np with unackedFrags := np.unackedFrags ++ [s.lastTxSeqNo] }
  let first := if frags.length = 1 then frags.head?.map Prod.fst else s.firstUnackedFrag
  return ({ s with unackedFrags := frags, firstUnackedFrag := first, netPkts := netPkts }, frag)

def storeFrags (netPkt : Nat) : Nat → List Packet → Sender → Except Fault (Sender × List Packet)
  | _, [], s => .ok (s, [])
  | index, frag :: frags, s => do
      let (s, frag) ← s.storeFrag netPkt index frag
      let (s, frags) ← storeFrags netPkt (index + 1) frags s
      return (s, frag :: frags)

def handleOutgoing (frags : List Packet) (isInterest : Bool) (s : Sender) :
    Except Fault (Sender × List Packet) :=
  storeFrags s.netPkts.length 0 frags { s with netPkts := s.netPkts ++ [⟨[], isInterest, false⟩] }

/-- The fragments are sent: the last loop of `GenericLinkService::sendNetPacket`. -/
def sendFrags (netPkt : Nat) (frags : List Packet) (s : Sender) : Sender :=
  { s with transmitted := s.transmitted ++ frags.mapIdx fun index pkt => ⟨netPkt, index, pkt⟩ }

/-! ## Acks and losses -/

def deleteUnackedFrag : Except Fault Sender :=
  if !s.keys.contains txSeq then .error .undefinedBehavior
  else
    let rest := s.unackedFrags.filter (·.1 != txSeq)
    .ok { s with
      unackedFrags := rest
      firstUnackedFrag :=
        if rest.isEmpty then none
        else if s.firstUnackedFrag == some txSeq then nextKey txSeq (rest.map Prod.fst)
        else s.firstUnackedFrag }

/-- The TxSequence numbers from the start of the window on. -/
def window : List Nat :=
  match s.firstUnackedFrag with
  | none => []
  | some first => s.keys.dropWhile (· != first) ++ s.keys.takeWhile (· != first)

def countGreaterSeqAck : UnackedFrag :=
  { frag with nGreaterSeqAcks := frag.nGreaterSeqAcks + 1 }

def findLostLpPackets (threshold ack : Nat) (s : Sender) : Sender × List Nat :=
  let before := s.window.takeWhile (· != ack)
  let frags := s.unackedFrags.map fun x =>
    (x.1, if before.contains x.1 then countGreaterSeqAck x.2 else x.2)
  ({ s with unackedFrags := frags }, before.filter fun txSeq =>
    (frags.lookup txSeq).any fun frag => decide (threshold ≤ frag.nGreaterSeqAcks))

/-- `std::find`, the last element in its place, `pop_back`. -/
def swapRemove (list : List Nat) : Option (List Nat) :=
  match list.getLast? with
  | none => none
  | some last =>
    if list.contains txSeq then some ((list.set (list.idxOf txSeq) last).dropLast) else none

def onLpPacketAcknowledged : Except Fault Sender :=
  match s.unackedFrags.lookup txSeq with
  | none => .error .undefinedBehavior
  | some frag =>
    match s.netPkts[frag.netPkt]? with
    | none => .error .undefinedBehavior
    | some netPkt =>
      match swapRemove txSeq netPkt.unackedFrags with
      | none => .error .undefinedBehavior
      | some left =>
        let counter := if netPkt.didRetx then Counter.nRetransmitted else .nAcknowledged
        deleteUnackedFrag txSeq { s with
          netPkts := s.netPkts.set frag.netPkt { netPkt with unackedFrags := left }
          counted := s.counted ++ if left.isEmpty then [(frag.netPkt, counter)] else [] }

/-- The fragment is given up with the others of its network packet. -/
def giveUp (netPkt : NetPkt) (s : Sender) : Except Fault (Sender × List Nat) := do
  let siblings := netPkt.unackedFrags.filter (· != txSeq)
  let s ← siblings.foldlM (fun s sibling => deleteUnackedFrag sibling s) s
  let s := { s with
    counted := s.counted ++ [(frag.netPkt, Counter.nRetxExhausted)]
    droppedInterests := s.droppedInterests ++ if netPkt.isInterest then [frag.netPkt] else [] }
  let s ← s.deleteUnackedFrag txSeq
  return (s, siblings ++ [txSeq])

/-- `onLpPacketLost`, another attempt: the fragment moves to a new TxSequence. -/
def retransmit (netPkt : NetPkt) (s : Sender) : Except Fault (Sender × List Nat) := do
  let (s, pkt) ← s.assignTxSequence frag.pkt
  if !netPkt.unackedFrags.contains txSeq then .error .undefinedBehavior
  else
    let newTxFrag : UnackedFrag := ⟨pkt, frag.retxCount + 1, 0, frag.netPkt, frag.index⟩
    let list := netPkt.unackedFrags.set (netPkt.unackedFrags.idxOf txSeq) s.lastTxSeqNo
    let s := { s with
      unackedFrags := emplace s.lastTxSeqNo newTxFrag s.unackedFrags
      netPkts := s.netPkts.set frag.netPkt { netPkt with unackedFrags := list, didRetx := true } }
    let s ← s.deleteUnackedFrag txSeq
    return ({ s with transmitted := s.transmitted ++ [⟨frag.netPkt, frag.index, pkt⟩] }, [txSeq])

def onLpPacketLost (opts : Options) (txSeq : Nat) (s : Sender) : Except Fault (Sender × List Nat) :=
  match s.unackedFrags.lookup txSeq with
  | none => .error .undefinedBehavior
  | some frag =>
    match s.netPkts[frag.netPkt]? with
    | none => .error .undefinedBehavior
    | some netPkt =>
      if opts.maxRetx ≤ frag.retxCount then s.giveUp txSeq frag netPkt
      else s.retransmit txSeq frag netPkt

/-- The loop over the fragments considered lost. -/
def resendLost (opts : Options) : List Nat → List Nat → Sender → Except Fault Sender
  | [], _, s => .ok s
  | txSeq :: lost, removed, s =>
    if removed.contains txSeq then resendLost opts lost removed s
    else do
      let (s, gone) ← s.onLpPacketLost opts txSeq
      resendLost opts lost (removed ++ gone) s

/-- One Ack of a received packet. -/
def processAck (opts : Options) (s : Sender) (ack : Nat) : Except Fault Sender :=
  if !s.keys.contains ack then .ok s
  else do
    let (s, lost) := s.findLostLpPackets opts.seqNumLossThreshold ack
    let s ← s.onLpPacketAcknowledged ack
    resendLost opts lost [] s

/-- As far as it concerns what has been sent.  A malformed Ack raises before any is looked at. -/
def processIncomingPacket (opts : Options) (pkt : Packet) (s : Sender) : Except Fault Sender :=
  match pkt.list ackField with
  | .error _ => .ok s
  | .ok acks => acks.foldlM (processAck opts) s

end Sender

/-! ## Runs -/

inductive Event where
  /-- `sendNetPacket`: `handleOutgoing`, and then the fragments are sent. -/
  | sendNetPacket (frags : List Packet) (isInterest : Bool)
  | processIncomingPacket (pkt : Packet)
  /-- The RTO timer of a fragment, which exists as long as the fragment is stored. -/
  | rtoExpired (txSeq : Nat)

/-- How many network packets an event begins with. -/
def Event.opens : Event → Nat
  | .sendNetPacket _ _ => 1
  | .processIncomingPacket _ => 0
  | .rtoExpired _ => 0

/-- What an event does; `none` if it cannot happen. -/
def step (opts : Options) (s : Sender) : Event → Option (Except Fault Sender)
  | .sendNetPacket frags isInterest =>
    if frags.isEmpty then none
    else some do
      let (s', frags) ← s.handleOutgoing frags isInterest
      return s'.sendFrags s.netPkts.length frags
  | .processIncomingPacket pkt => some (s.processIncomingPacket opts pkt)
  | .rtoExpired txSeq =>
    if s.keys.contains txSeq then some ((s.onLpPacketLost opts txSeq).map Prod.fst) else none

/-! ## The window of TxSequence numbers -/

/-- The stored fragments lie between the start of the window and the last number. -/
structure Windowed (frags : List (Nat × UnackedFrag)) (first : Option Nat) (last : Nat) : Prop where
  sorted : (frags.map Prod.fst).Pairwise (· < ·)
  last_lt : last < 2 ^ 64
  isEmpty : first = none → frags = []
  arc : ∀ k, first = some k → Arc (2 ^ 64) k last (frags.map Prod.fst)

section

variable {frags : List (Nat × UnackedFrag)} {first : Option Nat} {last : Nat}

theorem Windowed.nodup (h : Windowed frags first last) : (frags.map fst).Nodup :=
  h.sorted.imp ne_of_lt

variable {txSeq : Nat}

theorem perm_emplace (hnew : txSeq ∉ frags.map fst) (frag : UnackedFrag) :
    (Sender.emplace txSeq frag frags).Perm ((txSeq, frag) :: frags) := by
  rw [Sender.emplace, if_neg (by simpa using hnew)]
  exact perm_orderedInsert _ _ _

theorem sorted_emplace (hnew : txSeq ∉ frags.map fst) (frag : UnackedFrag)
    (h : (frags.map fst).Pairwise (· < ·)) :
    ((Sender.emplace txSeq frag frags).map fst).Pairwise (· < ·) := by
  have hperm := (perm_emplace hnew frag).map fst
  have hnodup : ((Sender.emplace txSeq frag frags).map fst).Nodup :=
    hperm.nodup_iff.2 (nodup_cons.2 ⟨hnew, h.imp ne_of_lt⟩)
  have hle : ((Sender.emplace txSeq frag frags).map fst).Pairwise (· ≤ ·) := by
    rw [Sender.emplace, if_neg (by simpa using hnew),
      map_orderedInsert _ (fun a b : Nat => a ≤ b) fst frags (txSeq, frag)
        (fun _ _ => Iff.rfl) fun _ _ => Iff.rfl]
    exact (h.imp le_of_lt).orderedInsert _ _
  exact (hle.and hnodup).imp fun hab => lt_of_le_of_ne hab.1 hab.2

theorem Windowed.assign (h : Windowed frags first last) (hne : first ≠ some ((last + 1) % 2 ^ 64)) :
    Windowed frags first ((last + 1) % 2 ^ 64) ∧ (last + 1) % 2 ^ 64 ∉ frags.map fst := by
  have hlt : (last + 1) % 2 ^ 64 < 2 ^ 64 := mod_lt _ (by decide)
  cases first with
  | none =>
    obtain rfl := h.isEmpty rfl
    exact ⟨⟨h.sorted, hlt, fun _ => rfl, fun _ hk => by cases hk⟩, by simp⟩
  | some k =>
    have hk : (last + 1) % 2 ^ 64 ≠ k := fun heq => hne (congrArg some heq.symm)
    refine ⟨⟨h.sorted, hlt, fun hnone => (by cases hnone), fun k' hk' => ?_⟩,
      (h.arc k rfl).succ_notMem hk⟩
    obtain rfl := some.inj hk'
    exact (h.arc _ rfl).extend hk

theorem Windowed.emplace (h : Windowed frags first last) (hnew : last ∉ frags.map fst)
    (frag : UnackedFrag) :
    Windowed (Sender.emplace last frag frags) (first.or (some last)) last := by
  have hperm := (perm_emplace hnew frag).map fst
  refine ⟨sorted_emplace hnew frag h.sorted, h.last_lt, ?_, fun k hk => ?_⟩
  · intro hnone
    cases first <;> cases hnone
  · cases first with
    | none =>
      obtain rfl := h.isEmpty rfl
      obtain rfl := some.inj hk
      exact (Arc.singleton h.last_lt).congr fun j => hperm.mem_iff
    | some k' =>
      obtain rfl := some.inj hk
      exact (h.arc _ rfl).cons_last.congr fun j => hperm.mem_iff

theorem map_fst_filter (frags : List (Nat × UnackedFrag)) (k : Nat) :
    (frags.filter (·.1 != k)).map fst = (frags.map fst).filter (· != k) := by
  rw [List.filter_map]
  rfl

end

namespace Sender

variable {s s' : Sender} {txSeq : Nat}

theorem deleteUnackedFrag_eq (h : Windowed s.unackedFrags s.firstUnackedFrag s.lastTxSeqNo)
    (hk : txSeq ∈ s.keys) :
    ∃ first, s.deleteUnackedFrag txSeq = .ok { s with
        unackedFrags := s.unackedFrags.filter (·.1 != txSeq), firstUnackedFrag := first } ∧
      Windowed (s.unackedFrags.filter (·.1 != txSeq)) first s.lastTxSeqNo := by
  have hcontains : ¬ (!s.keys.contains txSeq) = true := by simpa using hk
  have hkeys : s.keys.filter (· != txSeq) = [] →
      (s.unackedFrags.filter (·.1 != txSeq)).isEmpty = true := by
    rw [keys, ← map_fst_filter, map_eq_nil_iff]
    exact isEmpty_iff.2
  rw [deleteUnackedFrag, if_neg hcontains]
  refine ⟨_, rfl, ?_, h.last_lt, fun hnone => ?_, fun k hfirst => ?_⟩
  · rw [map_fst_filter]
    exact h.sorted.sublist filter_sublist
  · split at hnone
    · rename_i hempty
      exact isEmpty_iff.1 hempty
    · rename_i hrest
      exfalso
      split at hnone
      · rename_i hstart
        rw [beq_iff_eq] at hstart
        obtain ⟨n, hnext, -⟩ := (h.arc _ hstart).advance h.sorted (mt hkeys hrest)
        rw [map_fst_filter, hnext] at hnone
        cases hnone
      · rw [keys, h.isEmpty hnone] at hk
        cases hk
  · split at hfirst
    · cases hfirst
    rename_i hrest
    rw [map_fst_filter] at hfirst ⊢
    split at hfirst
    · rename_i hstart
      rw [beq_iff_eq] at hstart
      obtain ⟨n, hnext, harc⟩ := (h.arc _ hstart).advance h.sorted (mt hkeys hrest)
      rw [hnext] at hfirst
      obtain rfl := some.inj hfirst
      exact harc
    · rename_i hstart
      rw [beq_iff_eq] at hstart
      exact (h.arc k hfirst).filter fun heq => hstart (heq ▸ hfirst)

end Sender

/-! ## The books -/

/-- The fragments of a network packet that wait for an Ack. -/
def owned (frags : List (Nat × UnackedFrag)) (i : Nat) : List Nat :=
  (frags.filter (·.2.netPkt == i)).map Prod.fst

def countedFor (counted : List (Nat × Counter)) (i : Nat) : List (Nat × Counter) :=
  counted.filter (·.1 == i)

/-- A network packet is outstanding, with the list of its stored fragments, or was counted once. -/
def Book (frags : List (Nat × UnackedFrag)) (netPkts : List NetPkt) (counted : List (Nat × Counter))
    (i : Nat) : Prop :=
  match netPkts[i]? with
  | none => owned frags i = [] ∧ countedFor counted i = []
  | some netPkt =>
    (countedFor counted i = [] ∧ owned frags i ≠ [] ∧ netPkt.unackedFrags.Perm (owned frags i)) ∨
      (owned frags i = [] ∧ ∃ c, countedFor counted i = [(i, c)])

section

variable {frags frags' rest : List (Nat × UnackedFrag)} {netPkts : List NetPkt}
  {counted : List (Nat × Counter)} {netPkt : NetPkt} {frag frag' : UnackedFrag} {k k' i : Nat}

theorem book_some (h : netPkts[i]? = some netPkt) :
    Book frags netPkts counted i ↔
      (countedFor counted i = [] ∧ owned frags i ≠ [] ∧ netPkt.unackedFrags.Perm (owned frags i)) ∨
        (owned frags i = [] ∧ ∃ c, countedFor counted i = [(i, c)]) := by
  rw [Book, h]

theorem book_none (h : netPkts[i]? = none) :
    Book frags netPkts counted i ↔ owned frags i = [] ∧ countedFor counted i = [] := by
  rw [Book, h]

theorem owned_perm (h : frags.Perm frags') (i : Nat) : (owned frags i).Perm (owned frags' i) :=
  (h.filter _).map _

theorem owned_cons_self : owned ((k, frag) :: rest) frag.netPkt = k :: owned rest frag.netPkt := by
  simp [owned]

theorem owned_cons_ne (h : frag.netPkt ≠ i) : owned ((k, frag) :: rest) i = owned rest i := by
  simp [owned, h]

theorem owned_append (frags frags' : List (Nat × UnackedFrag)) (i : Nat) :
    owned (frags ++ frags') i = owned frags i ++ owned frags' i := by
  simp [owned]

theorem countedFor_append_self (c : Counter) :
    countedFor (counted ++ [(i, c)]) i = countedFor counted i ++ [(i, c)] := by
  simp [countedFor]

theorem countedFor_append_ne {j : Nat} (h : i ≠ j) (c : Counter) :
    countedFor (counted ++ [(i, c)]) j = countedFor counted j := by
  simp [countedFor, h]

/-- What a book depends on. -/
theorem Book.congr {netPkts' : List NetPkt} {counted' : List (Nat × Counter)}
    (h : Book frags netPkts counted i) (hfrags : (owned frags i).Perm (owned frags' i))
    (hnetPkts : netPkts'[i]? = netPkts[i]?)
    (hcounted : countedFor counted' i = countedFor counted i) : Book frags' netPkts'
      counted' i := by
  have hnil : owned frags i = [] ↔ owned frags' i = [] := by
    constructor
    · intro hnil
      exact perm_nil.1 (hnil ▸ hfrags.symm)
    · intro hnil
      exact perm_nil.1 (hnil ▸ hfrags)
  unfold Book at h ⊢
  rw [hnetPkts, hcounted]
  split
  · rename_i hnone
    rw [hnone] at h
    exact ⟨hnil.1 h.1, h.2⟩
  · grind

theorem Book.of_mem (h : Book frags netPkts counted frag.netPkt) (hmem : (k, frag) ∈ frags) :
    ∃ netPkt, netPkts[frag.netPkt]? = some netPkt ∧ countedFor counted frag.netPkt = [] ∧
      netPkt.unackedFrags.Perm (owned frags frag.netPkt) := by
  have howned : k ∈ owned frags frag.netPkt :=
    mem_map.2 ⟨(k, frag), mem_filter.2 ⟨hmem, by simp⟩, rfl⟩
  cases hnetPkt : netPkts[frag.netPkt]? with
  | none =>
    rw [((book_none hnetPkt).1 h).1] at howned
    cases howned
  | some netPkt => grind [book_some]

variable {left : List Nat}

section

variable (h : ∀ j, Book ((k, frag) :: rest) netPkts counted j)
  (hnetPkt : netPkts[frag.netPkt]? = some netPkt)
include h hnetPkt

variable (hleft : netPkt.unackedFrags.Perm (k :: left))
include hleft

/-- The Sequence is the only one to go from the list of its packet. -/
theorem Book.others : countedFor counted frag.netPkt = [] ∧ left.Perm (owned rest frag.netPkt) := by
  obtain ⟨netPkt', hnetPkt', hzero, hperm⟩ := (h frag.netPkt).of_mem (.head _)
  obtain rfl := mem_unique hnetPkt' hnetPkt
  rw [owned_cons_self] at hperm
  exact ⟨hzero, (hleft.symm.trans hperm).cons_inv⟩

theorem Book.acknowledge (c : Counter) (j : Nat) :
    Book rest (netPkts.set frag.netPkt { netPkt with unackedFrags := left })
      (counted ++ if left.isEmpty then [(frag.netPkt, c)] else []) j := by
  by_cases hj : frag.netPkt = j
  · subst hj
    obtain ⟨hzero, hleft'⟩ := Book.others h hnetPkt hleft
    have hlt := (List.getElem?_eq_some_iff.1 hnetPkt).1
    rw [book_some (getElem?_set_self hlt)]
    cases left with
    | nil => simp_all [countedFor_append_self]
    | cons x left =>
      left
      refine ⟨?_, fun hnil => ?_, hleft'⟩
      · simp_all
      · rw [hnil] at hleft'
        cases perm_nil.1 hleft'
  · have hcounted : countedFor (counted ++ if left.isEmpty then [(frag.netPkt, c)] else []) j =
        countedFor counted j := by
      split
      · exact countedFor_append_ne hj c
      · rw [append_nil]
    refine (h j).congr ?_ (getElem?_set_ne hj) hcounted
    rw [owned_cons_ne hj]

theorem Book.move (hfrag' : frag'.netPkt = frag.netPkt) {list : List Nat} {didRetx : Bool}
    (hlist : list.Perm (k' :: left)) (j : Nat) :
    Book ((k', frag') :: rest)
      (netPkts.set frag.netPkt { netPkt with unackedFrags := list, didRetx := didRetx })
      counted j := by
  by_cases hj : frag.netPkt = j
  · subst hj
    obtain ⟨hzero, hleft'⟩ := Book.others h hnetPkt hleft
    have hlt := (List.getElem?_eq_some_iff.1 hnetPkt).1
    have howned : owned ((k', frag') :: rest) frag.netPkt = k' :: owned rest frag.netPkt := by
      rw [← hfrag', owned_cons_self]
    rw [book_some (getElem?_set_self hlt), howned]
    exact Or.inl ⟨hzero, cons_ne_nil _ _, hlist.trans (hleft'.cons k')⟩
  · refine (h j).congr ?_ (getElem?_set_ne hj) rfl
    rw [owned_cons_ne hj, owned_cons_ne (hfrag' ▸ hj)]

end

variable (h : ∀ j, Book frags netPkts counted j)
include h

theorem Book.giveUp (hmem : (k, frag) ∈ frags) (c : Counter) (j : Nat) :
    Book (frags.filter (·.2.netPkt != frag.netPkt)) netPkts (counted ++ [(frag.netPkt, c)]) j := by
  by_cases hj : frag.netPkt = j
  · subst hj
    obtain ⟨netPkt, hnetPkt, hzero, -⟩ := (h frag.netPkt).of_mem hmem
    rw [book_some hnetPkt, countedFor_append_self, hzero]
    refine Or.inr ⟨?_, c, rfl⟩
    rw [owned, List.filter_filter, List.map_eq_nil_iff, List.filter_eq_nil_iff]
    simp
  · refine (h j).congr ?_ rfl (countedFor_append_ne hj c)
    have hsame : (frags.filter (·.2.netPkt != frag.netPkt)).filter (·.2.netPkt == j) =
        frags.filter (·.2.netPkt == j) := by
      rw [List.filter_filter]
      refine filter_congr fun x _ => ?_
      by_cases hx : x.2.netPkt = j
      · simp [hx, Ne.symm hj]
      · simp [hx]
    rw [owned, owned, hsame]

theorem Book.opened {new : List (Nat × UnackedFrag)} (hnew : ∀ x ∈ new, x.2.netPkt = netPkts.length)
    (hne : new ≠ []) (hlist : netPkt.unackedFrags = new.map fst) (j : Nat) :
    Book (new ++ frags) (netPkts ++ [netPkt]) counted j := by
  by_cases hj : j = netPkts.length
  · subst hj
    obtain ⟨hempty, hzero⟩ := (book_none (getElem?_eq_none (le_refl _))).1 (h netPkts.length)
    have howned : owned (new ++ frags) netPkts.length = new.map fst := by
      rw [owned_append, hempty, append_nil, owned, filter_eq_self.2]
      intro x hx
      simpa using hnew x hx
    rw [book_some getElem?_concat_length, howned, hlist]
    exact Or.inl ⟨hzero, by simpa using hne, Perm.refl _⟩
  · have hnone : owned new j = [] := by
      rw [owned, map_eq_nil_iff, filter_eq_nil_iff]
      intro x hx
      rw [hnew x hx]
      simpa using Ne.symm hj
    refine (h j).congr ?_ ?_ rfl
    · rw [owned_append, hnone, nil_append]
    · grind

end

/-! ## Transmissions -/

/-- How often a fragment has been transmitted. -/
def attempts (transmitted : List Transmission) (i j : Nat) : Nat :=
  transmitted.countP fun t => t.netPkt == i && t.index == j

/-- A stored fragment has been transmitted once more than it has been retransmitted. -/
structure Attempts (maxRetx : Nat) (frags : List (Nat × UnackedFrag))
    (transmitted : List Transmission) : Prop where
  distinct : (frags.map fun x => (x.2.netPkt, x.2.index)).Nodup
  retx : ∀ x ∈ frags, attempts transmitted x.2.netPkt x.2.index = x.2.retxCount + 1 ∧
    x.2.retxCount ≤ maxRetx
  bounded : ∀ i j, attempts transmitted i j ≤ maxRetx + 1

section

variable {maxRetx : Nat} {frags frags' rest : List (Nat × UnackedFrag)}
  {transmitted : List Transmission} {frag : UnackedFrag} {k k' : Nat}

theorem Attempts.perm (h : Attempts maxRetx frags transmitted) (hperm : frags.Perm frags') :
    Attempts maxRetx frags' transmitted :=
  ⟨(hperm.map _).nodup_iff.1 h.distinct, fun x hx => h.retx x (hperm.mem_iff.2 hx), h.bounded⟩

theorem Attempts.sublist (h : Attempts maxRetx frags transmitted) (hsub : frags'.Sublist frags) :
    Attempts maxRetx frags' transmitted :=
  ⟨h.distinct.sublist (hsub.map _), fun x hx => h.retx x (hsub.subset hx), h.bounded⟩

theorem attempts_append_self (i j : Nat) (pkt : Packet) :
    attempts (transmitted ++ [⟨i, j, pkt⟩]) i j = attempts transmitted i j + 1 := by
  simp [attempts]

theorem attempts_append_ne {i j i' j' : Nat} (h : (i', j') ≠ (i, j)) (pkt : Packet) :
    attempts (transmitted ++ [⟨i, j, pkt⟩]) i' j' = attempts transmitted i' j' := by
  have hnot : ¬ (i = i' ∧ j = j') := fun heq => h (by rw [heq.1, heq.2])
  simp [attempts, hnot]

theorem Attempts.retransmit (h : Attempts maxRetx ((k, frag) :: rest) transmitted)
    (hlt : frag.retxCount < maxRetx) (pkt : Packet) :
    Attempts maxRetx ((k', ⟨pkt, frag.retxCount + 1, 0, frag.netPkt, frag.index⟩) :: rest)
      (transmitted ++ [⟨frag.netPkt, frag.index, pkt⟩]) := by
  have hdistinct := nodup_cons.1 h.distinct
  have hfrag := h.retx _ (.head _)
  refine ⟨h.distinct, fun x hx => ?_, fun i j => ?_⟩
  · rcases mem_cons.1 hx with rfl | hx
    · grind [attempts_append_self]
    · have hne : (x.2.netPkt, x.2.index) ≠ (frag.netPkt, frag.index) := fun heq =>
        hdistinct.1 (mem_map.2 ⟨x, hx, heq⟩)
      rw [attempts_append_ne hne]
      exact h.retx x (.tail _ hx)
  · by_cases hij : (i, j) = (frag.netPkt, frag.index)
    · grind [attempts_append_self]
    · rw [attempts_append_ne hij]
      exact h.bounded i j

theorem attempts_append (transmitted transmitted' : List Transmission) (i j : Nat) :
    attempts (transmitted ++ transmitted') i j =
      attempts transmitted i j + attempts transmitted' i j := by
  rw [attempts, countP_append]
  rfl

theorem attempts_mapIdx (netPkt : Nat) (pkts : List Packet) (i j : Nat) :
    attempts (pkts.mapIdx fun index pkt => ⟨netPkt, index, pkt⟩) i j =
      if i = netPkt ∧ j < pkts.length then 1 else 0 := by
  induction pkts using reverseRecOn with
  | nil => simp [attempts]
  | append_singleton pkts pkt ih =>
    rw [mapIdx_concat, attempts_append, ih, length_append, length_singleton]
    simp only [attempts, countP_singleton, Bool.and_eq_true, beq_iff_eq]
    split_ifs <;> omega

theorem Attempts.opened (h : Attempts maxRetx frags transmitted) {netPkt : Nat}
    (hfrags : ∀ x ∈ frags, x.2.netPkt ≠ netPkt) (hnone : ∀ j, attempts transmitted netPkt j = 0)
    {new : List (Nat × UnackedFrag)} {pkts : List Packet}
    (hnew : new.map (fun x => (x.2.netPkt, x.2.index)) = (range pkts.length).map (netPkt, ·))
    (hretx : ∀ x ∈ new, x.2.retxCount = 0) :
    Attempts maxRetx (new ++ frags)
      (transmitted ++ pkts.mapIdx fun index pkt => ⟨netPkt, index, pkt⟩) := by
  have hident : ∀ x ∈ new, x.2.netPkt = netPkt ∧ x.2.index < pkts.length := fun x hx => by
    have hmem : (x.2.netPkt, x.2.index) ∈ (range pkts.length).map (netPkt, ·) :=
      hnew ▸ mem_map.2 ⟨x, hx, rfl⟩
    obtain ⟨j, hj, heq⟩ := mem_map.1 hmem
    obtain ⟨rfl, rfl⟩ := mk.inj heq
    exact ⟨rfl, mem_range.1 hj⟩
  refine ⟨?_, fun x hx => ?_, fun i j => ?_⟩
  · rw [map_append, nodup_append', hnew]
    refine ⟨nodup_range.map fun a b hab => (mk.inj hab).2, h.distinct, ?_⟩
    intro x hx hx'
    obtain ⟨j, -, rfl⟩ := mem_map.1 hx
    obtain ⟨y, hy, heq⟩ := mem_map.1 hx'
    exact hfrags y hy (mk.inj heq).1
  · rw [attempts_append, attempts_mapIdx]
    rcases mem_append.1 hx with hx | hx
    · grind
    · rw [if_neg fun hboth => hfrags x hx hboth.1]
      exact h.retx x hx
  · rw [attempts_append, attempts_mapIdx]
    split
    · rename_i hboth
      rw [hboth.1, hnone]
      omega
    · exact h.bounded i j

end

/-! ## The invariant -/

/-- What holds between two events. -/
structure Inv (opts : Options) (s : Sender) : Prop where
  windowed : Windowed s.unackedFrags s.firstUnackedFrag s.lastTxSeqNo
  books : ∀ i, Book s.unackedFrags s.netPkts s.counted i
  attempts : Attempts opts.maxRetx s.unackedFrags s.transmitted
  known : ∀ t ∈ s.transmitted, t.netPkt < s.netPkts.length

theorem inv_init (opts : Options) : Inv opts Sender.init :=
  ⟨⟨Pairwise.nil, by decide, fun _ => rfl, fun _ h => (by cases h)⟩, fun i => ⟨rfl, rfl⟩,
    ⟨nodup_nil, fun _ h => (by cases h), fun _ _ => zero_le _⟩, fun _ h => (by cases h)⟩

/-- The only way an event fails: there is no number left in the window. -/
def IsRangeExceeded (fault : Fault) : Prop :=
  fault = .raised (.lengthError "TxSequence range exceeded")

namespace Sender

variable {opts : Options} {s s' : Sender} {txSeq : Nat}

theorem assignTxSequence_ends (h : Windowed s.unackedFrags s.firstUnackedFrag s.lastTxSeqNo)
    (frag : Packet) :
    Ends IsRangeExceeded (fun r => ∃ last, r.1 = { s with lastTxSeqNo := last } ∧
        Windowed s.unackedFrags s.firstUnackedFrag last ∧ last ∉ s.keys)
      (s.assignTxSequence frag) := by
  obtain ⟨frag', hset⟩ := Packet.exists_set (p := frag) (f := txSequenceField)
    (v := (s.lastTxSeqNo + 1) % 2 ^ 64) rfl
  rw [assignTxSequence, hset]
  split
  · rfl
  rename_i hfirst
  refine ⟨_, rfl, h.assign ?_⟩
  intro hstart
  rw [Bool.and_eq_true, beq_iff_eq, Bool.not_eq_true', not_and] at hfirst
  refine hfirst ?_ hstart
  -- the start of the window is in use
  have hmem := (h.arc _ hstart).first_mem
  cases hfrags : s.unackedFrags with
  | nil =>
    rw [hfrags] at hmem
    cases hmem
  | cons x rest => rfl

theorem exists_swapRemove {list : List Nat} (h : txSeq ∈ list) :
    ∃ left, swapRemove txSeq list = some left ∧ list.Perm (txSeq :: left) := by
  cases hlast : list.getLast? with
  | none =>
    rw [getLast?_eq_none_iff.1 hlast] at h
    cases h
  | some last => simp_all [swapRemove, perm_swapRemove]

theorem Inv.lookup (h : Inv opts s) (hk : txSeq ∈ s.keys) :
    ∃ frag netPkt, s.unackedFrags.lookup txSeq = some frag ∧
      s.unackedFrags.Perm ((txSeq, frag) :: s.unackedFrags.filter (·.1 != txSeq)) ∧
      s.netPkts[frag.netPkt]? = some netPkt ∧
      netPkt.unackedFrags.Perm (owned s.unackedFrags frag.netPkt) ∧
        txSeq ∈ netPkt.unackedFrags := by
  obtain ⟨⟨_, frag⟩, hmem, rfl⟩ := mem_map.1 hk
  obtain ⟨netPkt, hnetPkt, -, hperm⟩ := (h.books frag.netPkt).of_mem hmem
  refine ⟨frag, netPkt, (lookup_eq_some_iff_mem h.windowed.nodup).2 hmem,
    perm_cons_filter_ne h.windowed.nodup hmem, hnetPkt, hperm, ?_⟩
  exact hperm.mem_iff.2 (mem_map.2 ⟨_, mem_filter.2 ⟨hmem, by simp⟩, rfl⟩)

theorem onLpPacketAcknowledged_inv (h : Inv opts s) (hk : txSeq ∈ s.keys) :
    ∃ s', s.onLpPacketAcknowledged txSeq = .ok s' ∧ Inv opts s' ∧
      s'.keys = s.keys.filter (· != txSeq) ∧ s'.netPkts.length = s.netPkts.length := by
  obtain ⟨frag, netPkt, hfrag, hperm, hnetPkt, -, hlist⟩ := Inv.lookup h hk
  obtain ⟨left, hleft, hleftPerm⟩ := exists_swapRemove hlist
  rw [onLpPacketAcknowledged, hfrag]
  dsimp only
  rw [hnetPkt]
  dsimp only
  rw [hleft]
  obtain ⟨first, hdelete, hwindowed⟩ := deleteUnackedFrag_eq (s := { s with
      netPkts := s.netPkts.set frag.netPkt { netPkt with unackedFrags := left }
      counted := s.counted ++ if left.isEmpty then
        [(frag.netPkt, if netPkt.didRetx then Counter.nRetransmitted else .nAcknowledged)] else
          [] })
    h.windowed hk
  refine ⟨_, hdelete, ⟨hwindowed, ?_, ?_, ?_⟩, map_fst_filter _ _, length_set⟩
  · exact Book.acknowledge (fun j => (h.books j).congr (owned_perm hperm j) rfl rfl) hnetPkt
      hleftPerm _
  · exact h.attempts.sublist filter_sublist
  · intro t ht
    rw [length_set]
    exact h.known t ht

theorem mem_owned_iff {frags : List (Nat × UnackedFrag)} (hnodup : (frags.map fst).Nodup)
    {x : Nat × UnackedFrag} (hx : x ∈ frags) (i : Nat) :
    x.1 ∈ owned frags i ↔ x.2.netPkt = i := by
  constructor
  · intro hmem
    obtain ⟨y, hy, hkey⟩ := mem_map.1 hmem
    obtain ⟨hy, hnetPkt⟩ := mem_filter.1 hy
    obtain rfl := inj_on_of_nodup_map hnodup hy hx hkey
    simpa using hnetPkt
  · intro hnetPkt
    exact mem_map.2 ⟨x, mem_filter.2 ⟨hx, by simpa using hnetPkt⟩, rfl⟩

/-- The loop over the siblings. -/
theorem deleteAll_eq {siblings : List Nat} (hnodup : siblings.Nodup)
    (h : Windowed s.unackedFrags s.firstUnackedFrag s.lastTxSeqNo)
    (hkeys : ∀ k ∈ siblings, k ∈ s.keys) :
    ∃ first, siblings.foldlM (fun s sibling => deleteUnackedFrag sibling s) s = .ok { s with
        unackedFrags := s.unackedFrags.filter fun x => !siblings.contains x.1
        firstUnackedFrag := first } ∧
      Windowed (s.unackedFrags.filter fun x => !siblings.contains x.1) first s.lastTxSeqNo := by
  induction siblings generalizing s with
  | nil =>
    have hall : s.unackedFrags.filter (fun x => !([] : List Nat).contains x.1) = s.unackedFrags :=
      filter_eq_self.2 fun x _ => rfl
    rw [hall]
    exact ⟨s.firstUnackedFrag, rfl, h⟩
  | cons k siblings ih =>
    obtain ⟨hk, hnodup⟩ := nodup_cons.1 hnodup
    obtain ⟨first, hdelete, hwindowed⟩ := deleteUnackedFrag_eq h (hkeys k (.head _))
    have hrest : ∀ j ∈ siblings, j ∈ (s.unackedFrags.filter (·.1 != k)).map fst := by
      intro j hj
      rw [map_fst_filter, mem_filter]
      refine ⟨hkeys j (mem_cons_of_mem k hj), ?_⟩
      simpa using fun heq : j = k => hk (heq ▸ hj)
    obtain ⟨first', hfold, hwindowed'⟩ := ih (s := { s with
      unackedFrags := s.unackedFrags.filter (·.1 != k), firstUnackedFrag := first })
      hnodup hwindowed hrest
    have hfilter : (s.unackedFrags.filter (·.1 != k)).filter (fun x => !siblings.contains x.1) =
        s.unackedFrags.filter fun x => !(k :: siblings).contains x.1 := by
      rw [List.filter_filter]
      refine filter_congr fun x _ => ?_
      rw [contains_cons, Bool.not_or, Bool.and_comm]
      rfl
    rw [foldlM_cons, hdelete, ← hfilter]
    exact ⟨first', hfold, hwindowed'⟩

variable {frag : UnackedFrag} {netPkt : NetPkt} {before : List NetPkt}

theorem giveUp_ends (h : Inv opts s) (hfrag : (txSeq, frag) ∈ s.unackedFrags)
    (hlist : netPkt.unackedFrags.Perm (owned s.unackedFrags frag.netPkt)) :
    Ends IsRangeExceeded (fun r => Inv opts r.1 ∧ (∀ k ∈ s.keys, k ∉ r.2 → k ∈ r.1.keys) ∧
      r.1.netPkts.length = s.netPkts.length) (s.giveUp txSeq frag netPkt) := by
  have hnodup := h.windowed.nodup
  have howned : ∀ x ∈ s.unackedFrags, x.1 ∈ netPkt.unackedFrags ↔ x.2.netPkt = frag.netPkt :=
    fun x hx => hlist.mem_iff.trans (mem_owned_iff hnodup hx _)
  have hmem : ∀ k ∈ netPkt.unackedFrags, k ∈ s.keys := fun k hk => by
    obtain ⟨x, hx, rfl⟩ := mem_map.1 (hlist.mem_iff.1 hk)
    exact mem_map.2 ⟨x, (mem_filter.1 hx).1, rfl⟩
  have hlistNodup : netPkt.unackedFrags.Nodup :=
    hlist.nodup_iff.2 (hnodup.sublist (filter_sublist.map _))
  generalize hsiblings : netPkt.unackedFrags.filter (· != txSeq) = siblings
  have hsub : ∀ k ∈ siblings, k ∈ netPkt.unackedFrags ∧ k ≠ txSeq := fun k hk => by
    rw [← hsiblings, mem_filter] at hk
    exact ⟨hk.1, by simpa using hk.2⟩
  obtain ⟨first, hfold, hwindowed⟩ := deleteAll_eq
    (show siblings.Nodup from hsiblings ▸ hlistNodup.filter _) h.windowed fun k hk =>
      hmem k (hsub k hk).1
  have htx : txSeq ∈ (s.unackedFrags.filter fun x => !siblings.contains x.1).map fst :=
    mem_map.2 ⟨_, mem_filter.2 ⟨hfrag, by
      simpa using fun hk => (hsub txSeq hk).2 rfl⟩, rfl⟩
  obtain ⟨first', hdelete, hwindowed'⟩ := deleteUnackedFrag_eq (s := { s with
    unackedFrags := s.unackedFrags.filter fun x => !siblings.contains x.1
    firstUnackedFrag := first
    counted := s.counted ++ [(frag.netPkt, Counter.nRetxExhausted)]
    droppedInterests := s.droppedInterests ++ if netPkt.isInterest then [frag.netPkt] else [] })
    hwindowed htx
  -- what is left belongs to other network packets
  have hleft : (s.unackedFrags.filter fun x => !siblings.contains x.1).filter (·.1 != txSeq) =
      s.unackedFrags.filter (·.2.netPkt != frag.netPkt) := by
    rw [List.filter_filter]
    refine filter_congr fun x hx => ?_
    rw [Bool.eq_iff_iff]
    simp only [Bool.and_eq_true, bne_iff_ne, ne_eq, Bool.not_eq_true', contains_eq_mem,
      decide_eq_false_iff_not]
    rw [← howned x hx, ← hsiblings, mem_filter, bne_iff_ne]
    constructor
    · rintro ⟨hne, hnot⟩ hmem
      exact hnot ⟨hmem, hne⟩
    · grind
  rw [hleft] at hwindowed' hdelete
  rw [giveUp, hsiblings, hfold]
  simp only [bind, Except.bind]
  rw [hdelete]
  refine ⟨⟨hwindowed', Book.giveUp h.books hfrag _, h.attempts.sublist filter_sublist, h.known⟩,
    fun k hk hnot => ?_, rfl⟩
  obtain ⟨x, hx, rfl⟩ := mem_map.1 hk
  refine mem_map.2 ⟨x, ?_, rfl⟩
  rw [← hleft]
  simp only [mem_append, mem_singleton, not_or] at hnot
  simpa [hx] using And.intro hnot.2 hnot.1

theorem retransmit_ends (h : Inv opts s) (hfrag : (txSeq, frag) ∈ s.unackedFrags)
    (hnetPkt : s.netPkts[frag.netPkt]? = some netPkt) (hlist : txSeq ∈ netPkt.unackedFrags)
    (hlt : frag.retxCount < opts.maxRetx) :
    Ends IsRangeExceeded (fun r => Inv opts r.1 ∧ (∀ k ∈ s.keys, k ∉ r.2 → k ∈ r.1.keys) ∧
      r.1.netPkts.length = s.netPkts.length) (s.retransmit txSeq frag netPkt) := by
  refine (assignTxSequence_ends h.windowed frag.pkt).bind ?_
  rintro ⟨s₁, pkt⟩ ⟨last, hs₁, hwindowed, hnew⟩
  subst hs₁
  have hcontains : ¬ (!netPkt.unackedFrags.contains txSeq) = true := by simpa using hlist
  have hmem : txSeq ∈ s.keys := mem_map.2 ⟨_, hfrag, rfl⟩
  have hne : last ≠ txSeq := fun heq => hnew (heq ▸ hmem)
  generalize hnewFrag : (⟨pkt, frag.retxCount + 1, 0, frag.netPkt, frag.index⟩ : UnackedFrag) =
    newFrag
  -- the old fragment, the new one, and the others
  have hold := perm_cons_filter_ne h.windowed.nodup hfrag
  have hemplace := perm_emplace hnew newFrag
  have hperm : ((Sender.emplace last newFrag s.unackedFrags).filter (·.1 != txSeq)).Perm
      ((last, newFrag) :: s.unackedFrags.filter (·.1 != txSeq)) := by
    have hfilter := hemplace.filter (·.1 != txSeq)
    rwa [filter_cons_of_pos (by simpa using hne)] at hfilter
  have hfirst : s.firstUnackedFrag.or (some last) = s.firstUnackedFrag := by
    cases hnone : s.firstUnackedFrag with
    | none =>
      rw [h.windowed.isEmpty hnone] at hfrag
      cases hfrag
    | some k => rfl
  have hwindowed' := hwindowed.emplace hnew newFrag
  rw [hfirst] at hwindowed'
  obtain ⟨first, hdelete, hdeleted⟩ := deleteUnackedFrag_eq (s := { s with
    lastTxSeqNo := last
    unackedFrags := emplace last newFrag s.unackedFrags
    netPkts := s.netPkts.set frag.netPkt { netPkt with
      unackedFrags := netPkt.unackedFrags.set (netPkt.unackedFrags.idxOf txSeq) last
      didRetx := true } }) hwindowed'
    ((hemplace.map fst).mem_iff.2 (.tail _ hmem))
  dsimp only
  rw [if_neg hcontains, hnewFrag, hdelete]
  refine ⟨⟨hdeleted, fun j => ?_, ?_, fun t ht => ?_⟩, fun k hk hnot => ?_, length_set⟩
  · have hidx := idxOf_lt_length_of_mem hlist
    have hget : netPkt.unackedFrags[netPkt.unackedFrags.idxOf txSeq] = txSeq := getElem_idxOf hidx
    have hleft := (getElem_cons_eraseIdx_perm hidx).symm
    rw [hget] at hleft
    refine Book.congr ?_ (owned_perm hperm.symm j) rfl rfl
    exact Book.move (fun i => (h.books i).congr (owned_perm hold i) rfl rfl) hnetPkt hleft
      (hnewFrag ▸ rfl) (set_perm_cons_eraseIdx hidx last) j
  · refine Attempts.perm ?_ hperm.symm
    rw [← hnewFrag]
    exact (h.attempts.perm hold).retransmit hlt pkt
  · show t.netPkt < (s.netPkts.set _ _).length
    rw [length_set]
    rcases mem_append.1 ht with ht | ht
    · exact h.known t ht
    · grind
  · refine (hperm.map fst).mem_iff.2 (mem_cons_of_mem _ ?_)
    rw [map_fst_filter, mem_filter]
    exact ⟨hk, by simpa using hnot⟩

theorem onLpPacketLost_ends (h : Inv opts s) (hk : txSeq ∈ s.keys) :
    Ends IsRangeExceeded (fun r => Inv opts r.1 ∧ (∀ k ∈ s.keys, k ∉ r.2 → k ∈ r.1.keys) ∧
      r.1.netPkts.length = s.netPkts.length) (s.onLpPacketLost opts txSeq) := by
  obtain ⟨frag, netPkt, hfrag, hperm, hnetPkt, hlist, hmem⟩ := Inv.lookup h hk
  have hstored : (txSeq, frag) ∈ s.unackedFrags := hperm.mem_iff.2 (.head _)
  rw [onLpPacketLost, hfrag]
  dsimp only
  rw [hnetPkt]
  dsimp only
  split
  · exact giveUp_ends h hstored hlist
  · rename_i hlt
    exact retransmit_ends h hstored hnetPkt hmem (Nat.lt_of_not_le hlt)

/-- Fragments considered lost are stored until they are removed. -/
theorem resendLost_ends {lost removed : List Nat} (h : Inv opts s)
    (hlost : ∀ k ∈ lost, k ∉ removed → k ∈ s.keys) :
    Ends IsRangeExceeded (fun s' => Inv opts s' ∧ s'.netPkts.length = s.netPkts.length)
      (resendLost opts lost removed s) := by
  induction lost generalizing removed s with
  | nil => exact ⟨h, rfl⟩
  | cons k lost ih => grind [resendLost, Ends.bind, onLpPacketLost_ends, Ends.mono]

theorem mem_keys_of_window {k : Nat} (h : k ∈ s.window) : k ∈ s.keys := by
  unfold window at h
  split at h
  · cases h
  · rcases mem_append.1 h with h | h
    · exact (dropWhile_sublist _).subset h
    · exact (takeWhile_sublist _).subset h

theorem findLostLpPackets_inv (h : Inv opts s) (threshold ack : Nat) :
    Inv opts (s.findLostLpPackets threshold ack).1 ∧
      (s.findLostLpPackets threshold ack).1.keys = s.keys ∧
      ∀ k ∈ (s.findLostLpPackets threshold ack).2, k ∈ s.keys ∧ k ≠ ack := by
  generalize hbefore : s.window.takeWhile (· != ack) = before
  generalize hmark : (fun x : Nat × UnackedFrag =>
    (x.1, if before.contains x.1 then countGreaterSeqAck x.2 else x.2)) = mark
  have hfst : ∀ x, (mark x).1 = x.1 := fun x => by rw [← hmark]
  have hsnd : ∀ x, (mark x).2.netPkt = x.2.netPkt ∧ (mark x).2.index = x.2.index ∧
      (mark x).2.retxCount = x.2.retxCount := fun x => by
    rw [← hmark]
    dsimp only
    split
    · exact ⟨rfl, rfl, rfl⟩
    · exact ⟨rfl, rfl, rfl⟩
  have hkeys : (s.unackedFrags.map mark).map fst = s.unackedFrags.map fst := by
    rw [List.map_map]
    exact List.map_congr_left fun x _ => hfst x
  have howned : ∀ i, owned (s.unackedFrags.map mark) i = owned s.unackedFrags i := fun i => by
    rw [owned, List.filter_map, List.map_map]
    have hsame : ((fun x : Nat × UnackedFrag => x.2.netPkt == i) ∘ mark) = fun x =>
        x.2.netPkt == i := by
      funext x
      exact congrArg (· == i) (hsnd x).1
    rw [hsame]
    exact List.map_congr_left fun x _ => hfst x
  unfold findLostLpPackets
  rw [hbefore]
  dsimp only
  rw [hmark]
  refine ⟨⟨?_, fun i => (h.books i).congr (by rw [howned]) rfl rfl, ?_, h.known⟩, hkeys, ?_⟩
  · refine ⟨hkeys ▸ h.windowed.sorted, h.windowed.last_lt, fun hnone => ?_, fun k hk => ?_⟩
    · show s.unackedFrags.map mark = []
      rw [h.windowed.isEmpty hnone]
      rfl
    · grind [Windowed.arc, Inv.windowed]
  · refine ⟨?_, fun x hx => ?_, h.attempts.bounded⟩
    · show ((s.unackedFrags.map mark).map _).Nodup
      rw [List.map_map]
      have hsame : ((fun x : Nat × UnackedFrag => (x.2.netPkt, x.2.index)) ∘ mark) =
          fun x => (x.2.netPkt, x.2.index) := by
        funext x
        exact Prod.ext (hsnd x).1 (hsnd x).2.1
      rw [hsame]
      exact h.attempts.distinct
    · obtain ⟨y, hy, rfl⟩ := List.mem_map.1 hx
      rw [(hsnd y).1, (hsnd y).2.1, (hsnd y).2.2]
      exact h.attempts.retx y hy
  · intro k hk
    have hmem := (List.mem_filter.1 hk).1
    rw [← hbefore] at hmem
    refine ⟨mem_keys_of_window ((List.takeWhile_sublist _).subset hmem), ?_⟩
    simpa using List.mem_takeWhile_imp hmem

theorem processAck_ends (h : Inv opts s) (ack : Nat) :
    Ends IsRangeExceeded (fun s' => Inv opts s' ∧ s'.netPkts.length = s.netPkts.length)
      (s.processAck opts ack) := by
  rw [processAck]
  split
  · exact ⟨h, rfl⟩
  rename_i hack
  have hack : ack ∈ s.keys := by simpa using hack
  obtain ⟨hinv, hkeys, hlost⟩ := findLostLpPackets_inv h opts.seqNumLossThreshold ack
  obtain ⟨s₁, heq, hinv₁, hkeys₁, hlen₁⟩ := onLpPacketAcknowledged_inv hinv (hkeys.symm ▸ hack)
  dsimp only
  rw [heq]
  refine (resendLost_ends hinv₁ fun k hk _ => ?_).mono fun s' hs' => ⟨hs'.1, hs'.2.trans hlen₁⟩
  rw [hkeys₁, hkeys, mem_filter]
  exact ⟨(hlost k hk).1, by simpa using (hlost k hk).2⟩

theorem processIncomingPacket_ends (h : Inv opts s) (pkt : Packet) :
    Ends IsRangeExceeded (fun s' => Inv opts s' ∧ s'.netPkts.length = s.netPkts.length)
      (s.processIncomingPacket opts pkt) := by
  unfold processIncomingPacket
  split
  · exact ⟨h, rfl⟩
  · rename_i acks hacks
    clear hacks
    induction acks generalizing s with
    | nil => exact ⟨h, rfl⟩
    | cons ack acks ih => grind [Ends.bind, processAck_ends, Ends.mono]

variable (h : Windowed s.unackedFrags s.firstUnackedFrag s.lastTxSeqNo)
include h

/-- A fragment of the last network packet is stored. -/
theorem storeFrag_ends (hnetPkts : s.netPkts = before ++ [netPkt]) (index : Nat) (frag : Packet) :
    Ends IsRangeExceeded (fun r => ∃ frags first last, frags.Perm
          ((last, ⟨r.2, 0, 0, before.length, index⟩) :: s.unackedFrags) ∧
        Windowed frags first last ∧
        r.1 = { s with
          unackedFrags := frags, firstUnackedFrag := first, lastTxSeqNo := last
          netPkts := before ++ [{ netPkt with unackedFrags := netPkt.unackedFrags ++ [last] }] })
      (s.storeFrag before.length index frag) := by
  refine (assignTxSequence_ends h frag).bind ?_
  rintro ⟨s₁, frag'⟩ ⟨last, hs₁, hwindowed, hnew⟩
  subst hs₁
  have hperm := perm_emplace hnew ⟨frag', 0, 0, before.length, index⟩
  have hlen := hperm.length_eq
  rw [length_cons] at hlen
  have hstored := hwindowed.emplace hnew ⟨frag', 0, 0, before.length, index⟩
  have hmodify : (before ++ [netPkt]).modify before.length
      (fun np => { np with unackedFrags := np.unackedFrags ++ [last] }) =
      before ++ [{ netPkt with unackedFrags := netPkt.unackedFrags ++ [last] }] := by
    rw [modify_eq_take_cons_drop (by simp)]
    simp
  refine ⟨_, s.firstUnackedFrag.or (some last), last, hperm, hstored, ?_⟩
  dsimp only
  rw [hnetPkts, hmodify]
  congr 1
  cases hfirst : s.firstUnackedFrag with
  | none =>
    rw [h.isEmpty hfirst] at hperm ⊢
    rfl
  | some k =>
    have hpos : 0 < s.unackedFrags.length := by
      have hmem := length_pos_of_mem (h.arc k hfirst).first_mem
      rwa [length_map] at hmem
    rw [if_neg (by omega)]
    rfl

theorem storeFrags_ends (hnetPkts : s.netPkts = before ++ [netPkt]) (index : Nat)
    (pkts : List Packet) :
    Ends IsRangeExceeded (fun r => ∃ new frags first last, frags.Perm (new ++ s.unackedFrags) ∧
        Windowed frags first last ∧
        new.map (fun x => (x.2.netPkt, x.2.index)) =
          (range' index pkts.length).map (before.length, ·) ∧
        (∀ x ∈ new, x.2.retxCount = 0) ∧ r.2.length = pkts.length ∧
        r.1 = { s with
          unackedFrags := frags, firstUnackedFrag := first, lastTxSeqNo := last
          netPkts := before ++
            [{ netPkt with unackedFrags := netPkt.unackedFrags ++ new.map fst }] })
      (s.storeFrags before.length index pkts) := by
  induction pkts generalizing s index netPkt with
  | nil =>
    refine ⟨[], s.unackedFrags, s.firstUnackedFrag, s.lastTxSeqNo, Perm.refl _, h, rfl,
      fun x hx => (by cases hx), rfl, ?_⟩
    rw [map_nil, append_nil, ← hnetPkts]
  | cons pkt pkts ih =>
    refine (storeFrag_ends h hnetPkts index pkt).bind ?_
    rintro ⟨s₁, pkt'⟩ ⟨frags, first, last, hperm, hwindowed, hs₁⟩
    subst hs₁
    refine Ends.bind (ih hwindowed rfl (index + 1)) ?_
    rintro ⟨s₂, pkts'⟩ ⟨new, frags', first', last', hperm', hwindowed', hidents, hretx, hlen, hs₂⟩
    refine ⟨(last, ⟨pkt', 0, 0, before.length, index⟩) :: new, frags', first', last', ?_,
      hwindowed',
      ?_, ?_, ?_, ?_⟩
    · exact hperm'.trans ((hperm.append_left new).trans perm_middle)
    · rw [map_cons, hidents, length_cons, range'_succ, map_cons]
    · grind
    · rw [length_cons, length_cons]
      exact congrArg (· + 1) hlen
    · dsimp only at hs₂ ⊢
      rw [hs₂, map_cons, append_assoc, singleton_append]

end Sender

/-! ## Every run -/

variable {opts : Options}

theorem step_ends {s : Sender} (h : Inv opts s) {e : Event} {r : Except Fault Sender}
    (hstep : step opts s e = some r) :
    Ends IsRangeExceeded (fun s' => Inv opts s' ∧
      s'.netPkts.length = s.netPkts.length + e.opens) r := by
  cases e with
  | sendNetPacket pkts isInterest =>
    obtain ⟨hne, hstep⟩ := ite_none_left_eq_some.1 hstep
    obtain rfl := some.inj hstep
    refine Ends.bind (Sender.storeFrags_ends (s := { s with
      netPkts := s.netPkts ++ [⟨[], isInterest, false⟩] }) h.windowed rfl 0 pkts) ?_
    rintro ⟨s', pkts'⟩ ⟨new, frags, first, last, hperm, hwindowed, hidents, hretx, hlen, hs'⟩
    subst hs'
    have hnew : ∀ x ∈ new, x.2.netPkt = s.netPkts.length := fun x hx => by
      have hmem : (x.2.netPkt, x.2.index) ∈ new.map fun x => (x.2.netPkt, x.2.index) :=
        mem_map.2 ⟨x, hx, rfl⟩
      rw [hidents] at hmem
      obtain ⟨j, -, heq⟩ := mem_map.1 hmem
      exact (mk.inj heq).1.symm
    have hnonempty : new ≠ [] := by
      intro hnil
      rw [hnil] at hidents
      have hzero := congrArg length hidents
      rw [map_nil, length_nil, length_map, length_range'] at hzero
      exact hne (isEmpty_iff.2 (eq_nil_of_length_eq_zero hzero.symm))
    -- nothing of the new network packet has been stored or sent before
    obtain ⟨hunowned, -⟩ := (book_none (getElem?_eq_none (le_refl _))).1 (h.books s.netPkts.length)
    have hothers : ∀ x ∈ s.unackedFrags, x.2.netPkt ≠ s.netPkts.length := fun x hx heq => by
      have hmem := (Sender.mem_owned_iff h.windowed.nodup hx _).2 heq
      rw [hunowned] at hmem
      cases hmem
    have hunsent : ∀ j, attempts s.transmitted s.netPkts.length j = 0 := fun j => by
      rw [attempts, countP_eq_zero]
      intro t ht
      have hlt := h.known t ht
      simp only [Bool.and_eq_true, beq_iff_eq, not_and]
      omega
    refine ⟨⟨hwindowed, fun i => ?_, ?_, fun t ht => ?_⟩, ?_⟩
    · exact (Book.opened h.books hnew hnonempty (nil_append _) i).congr
        (owned_perm hperm.symm i) rfl rfl
    · refine Attempts.perm (h.attempts.opened hothers hunsent ?_ hretx) hperm.symm
      rw [hidents, hlen, range_eq_range']
    · show t.netPkt < (s.netPkts ++ [_]).length
      rw [length_append, length_singleton]
      rcases mem_append.1 ht with ht | ht
      · exact lt_succ_of_lt (h.known t ht)
      · grind
    · show (s.netPkts ++ [_]).length = s.netPkts.length + 1
      rw [length_append, length_singleton]
  | processIncomingPacket pkt =>
    obtain rfl := some.inj hstep
    exact Sender.processIncomingPacket_ends h pkt
  | rtoExpired txSeq =>
    obtain ⟨hk, rfl⟩ := ite_some_none_eq_some.1 hstep
    have hends := Sender.onLpPacketLost_ends h (show txSeq ∈ s.keys by simpa using hk)
    cases hlost : s.onLpPacketLost opts txSeq with
    | error fault =>
      rw [hlost] at hends
      exact hends
    | ok r =>
      rw [hlost] at hends
      exact ⟨hends.1, hends.2.2⟩

/-- The events of a run; one that raises ends it. -/
def next (opts : Options) (s : Sender) (e : Event) : Option Sender :=
  match step opts s e with
  | some (.ok s') => some s'
  | _ => none

/-- A network packet some of whose fragments have not been acknowledged. -/
def Sender.isOutstanding (s : Sender) (i : Nat) : Bool := s.unackedFrags.any (·.2.netPkt == i)

theorem isOutstanding_iff (s : Sender) (i : Nat) :
    s.isOutstanding i = true ↔ owned s.unackedFrags i ≠ [] := by
  rw [Sender.isOutstanding, List.any_eq_true, owned, Ne, List.map_eq_nil_iff,
    List.filter_eq_nil_iff]
  simp

theorem run_inv {s t : Sender} {es : List Event} (hrun : Run (next opts) (fun _ _ => True) s es t)
    (h : Inv opts s) :
    Inv opts t ∧ t.netPkts.length = s.netPkts.length + (es.map Event.opens).sum := by
  induction hrun with
  | nil s => exact ⟨h, rfl⟩
  | @cons s s' t e es _ hnext _ ih =>
    unfold next at hnext
    split at hnext
    · rename_i s'' hstep
      obtain rfl := Option.some.inj hnext
      obtain ⟨hinv, hlen⟩ := step_ends h hstep
      obtain ⟨hinv', hlen'⟩ := ih hinv
      refine ⟨hinv', ?_⟩
      rw [hlen', hlen, List.map_cons, List.sum_cons, add_assoc]
    · cases hnext

/-- **Accounting.**  Every network packet given to `handleOutgoing` is either outstanding, and not
    counted, or has been counted, once; and none of its fragments has been transmitted more often
    than allowed.  An event fails only for want of TxSequence numbers. -/
theorem run_accounts (opts : Options) {es : List Event} {t : Sender}
    (hrun : Run (next opts) (fun _ _ => True) Sender.init es t) :
    t.netPkts.length = (es.map Event.opens).sum ∧
      (∀ i < t.netPkts.length,
        ((t.isOutstanding i = true ∧ countedFor t.counted i = []) ∨
          (t.isOutstanding i = false ∧ ∃ c, countedFor t.counted i = [(i, c)])) ∧
        ∀ j, attempts t.transmitted i j ≤ opts.maxRetx + 1) ∧
      ∀ e fault, step opts t e = some (.error fault) → IsRangeExceeded fault := by
  obtain ⟨hinv, hlen⟩ := run_inv hrun (inv_init opts)
  refine ⟨?_, fun i hi => ⟨?_, fun j => hinv.attempts.bounded i j⟩, fun e fault hstep => ?_⟩
  · rw [hlen]
    exact zero_add _
  · have houtstanding := isOutstanding_iff t i
    rcases (book_some (getElem?_eq_getElem hi)).1 (hinv.books i) with
      ⟨hzero, hne, -⟩ | ⟨hempty, hone⟩
    · exact Or.inl ⟨houtstanding.2 hne, hzero⟩
    · simp_all
  · exact step_ends hinv hstep

/-- Two network packets of two fragments.  The first fragment is given up after one retransmission,
    which takes its sibling along; the second packet is acknowledged. -/
def Sample.events : List Event :=
  let ack (n : Nat) : Packet := ⟨[Block.make Lp.Tlv.ack (Ndn.Tlv.toBigEndian 8 n)], none⟩
  [.sendNetPacket [Packet.empty, Packet.empty] true,
    .sendNetPacket [Packet.empty, Packet.empty] false,
    .rtoExpired 0, .processIncomingPacket (ack 2), .processIncomingPacket (ack 2), .rtoExpired 4,
    .processIncomingPacket (ack 3), .processIncomingPacket (ack 77)]

theorem run_accounts_two_packets :
    ∃ t, Run (next ⟨1, 3⟩) (fun _ _ => True) Sender.init Sample.events t ∧
      t.counted = [(0, .nRetxExhausted), (1, .nAcknowledged)] ∧
      (t.netPkts.length = (Sample.events.map Event.opens).sum ∧
        (∀ i < t.netPkts.length,
          ((t.isOutstanding i = true ∧ countedFor t.counted i = []) ∨
            (t.isOutstanding i = false ∧ ∃ c, countedFor t.counted i = [(i, c)])) ∧
          ∀ j, attempts t.transmitted i j ≤ 1 + 1) ∧
        ∀ e fault, step ⟨1, 3⟩ t e = some (.error fault) → IsRangeExceeded fault) := by
  exact Run.exists_of_decide _ (by decide) fun _ hrun ht => ⟨ht, run_accounts ⟨1, 3⟩ hrun⟩

/-- **The window.**  It has a start exactly while fragments are stored, which lie between the start,
    the oldest of them, and the last number, also across the wrap-around; and an outstanding network
    packet lists the fragments stored for it. -/
theorem run_windowed (opts : Options) {es : List Event} {t : Sender}
    (hrun : Run (next opts) (fun _ _ => True) Sender.init es t) :
    (t.firstUnackedFrag = none ↔ t.unackedFrags = []) ∧
      (∀ first, t.firstUnackedFrag = some first → Arc (2 ^ 64) first t.lastTxSeqNo t.keys) ∧
      ∀ i netPkt, t.netPkts[i]? = some netPkt → owned t.unackedFrags i ≠ [] →
        netPkt.unackedFrags.Perm (owned t.unackedFrags i) := by
  obtain ⟨⟨hwindow, hbooks, -, -⟩, -⟩ := run_inv hrun (inv_init opts)
  refine ⟨⟨hwindow.isEmpty, fun hempty => ?_⟩, hwindow.arc, fun i netPkt hnetPkt hne => ?_⟩
  · refine eq_none_iff_forall_ne_some.2 fun k hk => ?_
    have hmem := (hwindow.arc k hk).first_mem
    rw [hempty] at hmem
    cases hmem
  · rcases (book_some hnetPkt).1 (hbooks i) with ⟨-, -, hperm⟩ | ⟨hnil, -⟩
    · exact hperm
    · exact absurd hnil hne

/-- After a retransmission. -/
theorem run_windowed_retransmitted :
    ∃ t, Run (next ⟨1, 3⟩) (fun _ _ => True) Sender.init (Sample.events.take 3) t ∧
      Arc (2 ^ 64) 1 4 t.keys :=
  Run.exists_of_decide (fun t => t.firstUnackedFrag = some 1 ∧ t.lastTxSeqNo = 4) (by decide)
    fun _ hrun h => h.2 ▸ (run_windowed _ hrun).2.1 1 h.1

/-! ## Received Sequences -/

/-- `m_recentRecvSeqs` and `m_recentRecvSeqsQueue`. -/
structure Recent where
  seqs : Nat → Option Int
  queue : List Nat

namespace Recent

/-- The loop that removes what is older than the RTO.  `operator[]` inserts the clock's epoch for a
    Sequence that is in the queue only. -/
def purge (rto now : Int) : (Nat → Option Int) → List Nat → Recent
  | seqs, [] => ⟨seqs, []⟩
  | seqs, seq :: queue =>
    let time := (seqs seq).getD 0
    if now > time + rto then purge rto now (Function.update seqs seq none) queue
    else ⟨Function.update seqs seq (some time), seq :: queue⟩

/-- What `processIncomingPacket` does with the Sequence of a packet that has Fragment and
    TxSequence; the answer is `isDuplicate`. -/
def receive (rto now : Int) (pktSequence : Nat) (r : Recent) : Bool × Recent :=
  let isDuplicate := (r.seqs pktSequence).isSome
  let r := purge rto now r.seqs r.queue
  -- `emplace` keeps the time that is there
  let time := (r.seqs pktSequence).getD now
  (isDuplicate, ⟨Function.update r.seqs pktSequence (some time), r.queue ++ [pktSequence]⟩)

end Recent

/-- What is remembered, when each Sequence was last received, and the time of the last packet. -/
structure Reception extends Recent where
  last : Nat → Option Int
  clock : Int

namespace Reception

def init (start : Int) : Reception := ⟨⟨fun _ => none, []⟩, fun _ => none, start⟩

/-- A packet arrives, not before the one before it. -/
def step (rto : Int) (s : Reception) (e : Int × Nat) : Option Reception :=
  if s.clock ≤ e.1 then
    some ⟨(s.receive rto e.1 e.2).2, Function.update s.last e.2 (some e.1), e.1⟩
  else none

/-- Each other Sequence that has been remembered longer than the RTO was last received longer ago
    than that. -/
def forgetsOld (rto : Int) (s : Reception) (e : Int × Nat) : Bool :=
  s.queue.all fun seq => seq == e.2 || !(s.seqs seq).any (fun t => decide (e.1 > t + rto)) ||
    (s.last seq).all fun t => decide (e.1 > t + rto)

/-- What was received within the RTO is remembered, and what is remembered was received. -/
structure Inv (rto : Int) (s : Reception) : Prop where
  remembered : ∀ seq t, s.last seq = some t → (s.seqs seq).isSome ∨ s.clock > t + rto
  received : ∀ seq, (s.seqs seq).isSome ∨ seq ∈ s.queue → (s.last seq).isSome

end Reception

section

variable {rto now : Int} {seqs : Nat → Option Int} {queue : List Nat} {seq : Nat}

theorem Recent.seqs_purge {t : Int} (h : seqs seq = some t) :
    (purge rto now seqs queue).seqs seq = some t ∨ (seq ∈ queue ∧ now > t + rto) := by
  induction queue generalizing seqs with
  | nil => exact Or.inl h
  | cons first queue ih =>
    rw [purge]
    by_cases hseq : seq = first
    · subst hseq
      split
      · simp_all
      · exact Or.inl (by simp [h])
    · split
      · simpa [hseq] using ih ((Function.update_of_ne hseq ..).trans h)
      · exact Or.inl ((Function.update_of_ne hseq ..).trans h)

theorem Recent.of_purge (h : ((purge rto now seqs queue).seqs seq).isSome ∨
    seq ∈ (purge rto now seqs queue).queue) : (seqs seq).isSome ∨ seq ∈ queue := by
  induction queue generalizing seqs with
  | nil => exact h
  | cons first queue ih =>
    by_cases hseq : seq = first
    · exact Or.inr (hseq ▸ .head _)
    · rw [purge] at h
      split at h
      · simpa [hseq] using ih h
      · simpa [hseq] using h

theorem Reception.Inv.step {s s' : Reception} {e : Int × Nat} (h : s.Inv rto)
    (hok : s.forgetsOld rto e = true) (hstep : s.step rto e = some s') : s'.Inv rto := by
  obtain ⟨hclock, rfl⟩ := ite_some_none_eq_some.1 hstep
  refine ⟨fun seq t ht => ?_, fun seq hseq => ?_⟩
  · by_cases hsame : seq = e.2
    · exact Or.inl (by simp [Recent.receive, hsame])
    · simp only [Recent.receive, Function.update_of_ne hsame] at ht ⊢
      rcases h.remembered seq t ht with hsome | hold
      · obtain ⟨first, hfirst⟩ := isSome_iff_exists.1 hsome
        rcases Recent.seqs_purge hfirst with hkept | ⟨hmem, hold⟩
        · exact Or.inl (isSome_iff_exists.2 ⟨first, hkept⟩)
        · simpa [hsame, hfirst, ht, hold] using Or.inr (all_eq_true.1 hok seq hmem)
      · exact Or.inr (by omega)
  · by_cases hsame : seq = e.2
    · simp [hsame]
    · simp only [Recent.receive, Function.update_of_ne hsame, mem_append, mem_singleton, hsame,
        or_false] at hseq ⊢
      exact h.received seq (Recent.of_purge hseq)

/-- **Duplicates.**  A packet is flagged if its Sequence was received at most the RTO ago, and only
    if it was received before. -/
theorem run_duplicates {start : Int} {es : List (Int × Nat)} {s : Reception}
    (hrun : Run (Reception.step rto) (fun s e => s.forgetsOld rto e = true) (.init start) es s)
    (hnow : s.clock ≤ now) (seq : Nat) :
    (∀ t, s.last seq = some t → now ≤ t + rto → (s.receive rto now seq).1 = true) ∧
      ((s.receive rto now seq).1 = true → (s.last seq).isSome) := by
  have hinv : s.Inv rto := by
    refine hrun.invariant (fun _ _ _ hs hok hstep => hs.step hok hstep) ⟨fun _ _ ht => ?_,
      fun _ hseq => ?_⟩
    · cases ht
    · simp [Reception.init] at hseq
  refine ⟨fun t ht hle => ?_, fun hsome => hinv.received seq (Or.inl hsome)⟩
  exact (hinv.remembered seq t ht).resolve_right (by omega)

end

theorem run_duplicates_twice :
    ∃ s, Run (Reception.step 10) (fun s e => s.forgetsOld 10 e = true) (.init 0)
        [(0, 7), (10, 7)] s ∧ (s.receive 10 12 7).1 = true := by
  refine Run.exists_of_decide (fun s => s.clock ≤ 12 ∧ s.last 7 = some 10) (by decide) ?_
  exact fun s hrun hs => (run_duplicates hrun hs.1 7).1 10 hs.2 (by decide)

/-- The third packet makes the first arrival of Sequence 7 too old, and the second, which was a
    duplicate, is forgotten with it. -/
theorem run_duplicates_forgotten :
    ∃ s, Run (Reception.step 10) (fun _ _ => True) (.init 0) [(0, 7), (10, 7), (11, 8)] s ∧
      s.last 7 = some 10 ∧ (s.receive 10 12 7).1 = false := by
  exact Run.exists_of_decide _ (by decide) fun _ _ ht => ht

end NdnMulticast.Nfd.LpReliability
