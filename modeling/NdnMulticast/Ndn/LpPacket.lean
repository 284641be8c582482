/-
  Link-layer packets, after `lp/packet.cpp`, `lp/packet.hpp` and `lp/fields.hpp`.

  A packet is the list of its fields.  It keeps the encoding it was decoded from until it is
  modified.  Such an encoding need not be the shortest one; after a modification every field
  is encoded anew.
-/

import Mathlib.Data.List.Sort
import NdnMulticast.Ndn.Encode

namespace NdnMulticast.Ndn

open Lib List Option Block Except

namespace Tlv

def sizeOfVarNumber (n : Nat) : Nat :=
  if n < 253 then 1 else if n < 2 ^ 16 then 3 else if n < 2 ^ 32 then 5 else 9

theorem length_writeVarNumber (n : Nat) : (writeVarNumber n).length = sizeOfVarNumber n := by
  unfold writeVarNumber sizeOfVarNumber
  split
  · rfl
  · grind [length_toBigEndian]

end Tlv

namespace Lp

/-! ## Fields -/

namespace Tlv

def lpPacket : Nat := 100
def fragment : Nat := 80
def sequence : Nat := 81
def fragIndex : Nat := 82
def fragCount : Nat := 83
def pitToken : Nat := 98
def nack : Nat := 800
def nextHopFaceId : Nat := 816
def incomingFaceId : Nat := 817
def cachePolicy : Nat := 820
def congestionMark : Nat := 832
def ack : Nat := 836
def txSequence : Nat := 840
def nonDiscovery : Nat := 844
def prefixAnnouncement : Nat := 848
def header3Min : Nat := 800
def header3Max : Nat := 959

end Tlv

inductive FieldLocation where
  | header
  | fragment
deriving DecidableEq, Repr

/-- `getLocationSortOrder`. -/
def FieldLocation.sortOrder : FieldLocation → Nat
  | .header => 1
  | .fragment => 2

/-- The part of a field declaration that `FieldInfo` reads. -/
structure FieldDecl where
  location : FieldLocation
  tlvType : Nat
  isRepeatable : Bool
deriving DecidableEq, Repr

def fieldSet : List FieldDecl :=
  [⟨.fragment, Tlv.fragment, false⟩, ⟨.header, Tlv.sequence, false⟩,
    ⟨.header, Tlv.fragIndex, false⟩, ⟨.header, Tlv.fragCount, false⟩,
    ⟨.header, Tlv.pitToken, false⟩, ⟨.header, Tlv.nack, false⟩,
    ⟨.header, Tlv.nextHopFaceId, false⟩, ⟨.header, Tlv.incomingFaceId, false⟩,
    ⟨.header, Tlv.cachePolicy, false⟩, ⟨.header, Tlv.congestionMark, false⟩,
    ⟨.header, Tlv.ack, true⟩, ⟨.header, Tlv.txSequence, false⟩,
    ⟨.header, Tlv.nonDiscovery, false⟩, ⟨.header, Tlv.prefixAnnouncement, false⟩]

structure FieldInfo where
  tlvType : Nat
  isRecognized : Bool
  canIgnore : Bool
  isRepeatable : Bool
  locationSortOrder : Nat

def fieldInfo (tlvType : Nat) : FieldInfo :=
  match fieldSet.find? (·.tlvType == tlvType) with
  | some decl => ⟨tlvType, true, false, decl.isRepeatable, decl.location.sortOrder⟩
  | none =>
    ⟨tlvType, false,
      decide (Tlv.header3Min ≤ tlvType ∧ tlvType ≤ Tlv.header3Max) && tlvType % 4 == 0,
      false, FieldLocation.header.sortOrder⟩

def compareFieldSortOrder (first second : FieldInfo) : Bool :=
  decide (first.locationSortOrder < second.locationSortOrder) ||
    (first.locationSortOrder == second.locationSortOrder && decide (first.tlvType < second.tlvType))

/-- A field of `Packet`: its declaration, and how values are put into and read from a TLV-VALUE. -/
structure Field (V : Type) where
  decl : FieldDecl
  mem : decl ∈ fieldSet
  encode : V → Raises (List UInt8)
  decode : List UInt8 → Raises V

/-- `DecodeHelper` and `EncodeHelper` for `NonNegativeIntegerTag`. -/
def nonNegativeIntegerField (tlvType : Nat) (mem : ⟨.header, tlvType, false⟩ ∈ fieldSet) :
    Field Nat :=
  ⟨⟨.header, tlvType, false⟩, mem, fun n => .ok (Ndn.Tlv.nonNegativeInteger n),
    Ndn.Tlv.readNonNegativeInteger⟩

/-- `DecodeHelper` and `EncodeHelper` for `uint64_t`. -/
def sequenceNumberField (tlvType : Nat) (isRepeatable : Bool)
    (mem : ⟨.header, tlvType, isRepeatable⟩ ∈ fieldSet) : Field Nat :=
  ⟨⟨.header, tlvType, isRepeatable⟩, mem, fun n => .ok (Ndn.Tlv.toBigEndian 8 n), fun value =>
    if value.length = 8 then .ok (Ndn.Tlv.bigEndian value)
    else .error (.tlvError s!"NDNLP field of TLV-TYPE {tlvType} must contain a 64-bit integer")⟩

def sequenceField : Field Nat := sequenceNumberField Tlv.sequence false (by decide)
def fragIndexField : Field Nat := nonNegativeIntegerField Tlv.fragIndex (by decide)
def fragCountField : Field Nat := nonNegativeIntegerField Tlv.fragCount (by decide)
def congestionMarkField : Field Nat := nonNegativeIntegerField Tlv.congestionMark (by decide)
def ackField : Field Nat := sequenceNumberField Tlv.ack true (by decide)
def txSequenceField : Field Nat := sequenceNumberField Tlv.txSequence false (by decide)

def fragmentField : Field (List UInt8) :=
  ⟨⟨.fragment, Tlv.fragment, false⟩, by decide, fun octets => .ok octets, fun value =>
    if value = [] then
      .error (.tlvError s!"NDNLP field of TLV-TYPE {Tlv.fragment} cannot be empty")
    else .ok value⟩

/-! ## Packets -/

structure Packet where
  elements : List Block
  /-- The encoding, while there is one. -/
  wire : Option Block

namespace Packet

/-- `Packet::Packet()`. -/
def empty : Packet := ⟨[], none⟩

variable {V : Type}

def count (f : Field V) (p : Packet) : Nat := p.elements.countP (·.type == f.decl.tlvType)

def has (f : Field V) (p : Packet) : Bool := decide (0 < p.count f)

def list (f : Field V) (p : Packet) : Raises (List V) :=
  (p.elements.filter (·.type == f.decl.tlvType)).mapM fun e => f.decode e.value

def get (f : Field V) (p : Packet) : Raises V :=
  match p.elements.find? (·.type == f.decl.tlvType) with
  | some e => f.decode e.value
  | none => .error (.outOfRange "lp::Packet::get: index out of range")

def comparePos (first : Nat) (second : Block) : Bool :=
  compareFieldSortOrder (fieldInfo first) (fieldInfo second.type)

def add (f : Field V) (v : V) (p : Packet) : Raises Packet :=
  if !f.decl.isRepeatable && p.has f then
    .error (.invalidArgument "lp::Packet::add: field cannot be repeated")
  else do
    let value ← f.encode v
    -- `upper_bound`: before the first element that must come after the field
    return ⟨p.elements.orderedInsert (fun a b => comparePos a.type b = true)
      (Block.make f.decl.tlvType value), none⟩

def clear (f : Field V) (p : Packet) : Packet :=
  ⟨p.elements.filter (·.type != f.decl.tlvType), none⟩

def set (f : Field V) (v : V) (p : Packet) : Raises Packet := (p.clear f).add f v

/-- The loop of `Packet::remove`: the elements without the `index`-th of a type. -/
def removeLoop (tlvType : Nat) : Nat → List Block → Option (List Block)
  | _, [] => none
  | index, e :: es =>
    if e.type = tlvType then
      match index with
      | 0 => some es
      | index + 1 => (removeLoop tlvType index es).map (e :: ·)
    else (removeLoop tlvType index es).map (e :: ·)

def remove (f : Field V) (index : Nat) (p : Packet) : Raises Packet :=
  match removeLoop f.decl.tlvType index p.elements with
  | some elements => .ok ⟨elements, none⟩
  | none => .error (.outOfRange "lp::Packet::remove: index out of range")

/-- An element as `Block::encode` writes it: TLV-TYPE and TLV-LENGTH in the shortest form. -/
def reencode (e : Block) : Block := Block.make e.type e.value

/-- `m_wire.encode()`. -/
def encode (p : Packet) : Block :=
  p.wire.getD (Block.make Tlv.lpPacket ((p.elements.map reencode).flatMap Block.wire))

def wireEncode (p : Packet) : Except Fault Block :=
  match p.elements with
  | [e] =>
    if e.type = Tlv.fragment then
      -- a bare network packet: the first element of the fragment
      match e.parse with
      | .ok (b :: _) => .ok b
      | .ok [] => .error .undefinedBehavior
      | .error exc => .error (.raised exc)
    else .ok p.encode
  | _ => .ok p.encode

/-- The loop of `Packet::wireDecode`. -/
def checkFields : Option FieldInfo → List Block → Raises Unit
  | _, [] => .ok ()
  | prev, e :: es =>
    let info := fieldInfo e.type
    if !info.isRecognized && !info.canIgnore then
      .error (.tlvError s!"unrecognized field {e.type} cannot be ignored")
    else
      match prev with
      | none => checkFields (some info) es
      | some prev =>
        if info.tlvType == prev.tlvType && !info.isRepeatable then
          .error (.tlvError s!"non-repeatable field {e.type} cannot be repeated")
        else if info.tlvType != prev.tlvType && !compareFieldSortOrder prev info then
          .error (.tlvError "fields are not in correct sort order")
        else checkFields (some info) es

def wireDecode (wire : Block) : Raises Packet :=
  if wire.type = Ndn.Tlv.interest ∨ wire.type = Ndn.Tlv.data then add fragmentField wire.wire empty
  else if wire.type ≠ Tlv.lpPacket then .error (Ndn.Tlv.typeMismatch "LpPacket" wire.type)
  else do
    let elements ← wire.parse
    checkFields none elements
    return ⟨elements, some wire⟩

/-! ## The order of fields -/

/-- Header fields by increasing TLV-TYPE, the Fragment last, and only Acks repeated. -/
def MayPrecede (a b : Nat) : Prop :=
  (a = b ∧ a = Tlv.ack) ∨ (a ≠ Tlv.fragment ∧ (b = Tlv.fragment ∨ a < b))

instance : DecidableRel MayPrecede := fun a b =>
  inferInstanceAs
    (Decidable ((a = b ∧ a = Tlv.ack) ∨ (a ≠ Tlv.fragment ∧ (b = Tlv.fragment ∨ a < b))))

instance : Trans MayPrecede MayPrecede MayPrecede where
  trans {a b c} hab hbc := by
    unfold MayPrecede at *
    simp only [Tlv.ack, Tlv.fragment] at *
    omega

/-- The field is recognized, or it can be ignored. -/
def isKnown (tlvType : Nat) : Bool :=
  (fieldInfo tlvType).isRecognized || (fieldInfo tlvType).canIgnore

section

variable (tlvType : Nat)

/-- What `FieldInfo` finds, case by case. -/
theorem fieldInfo_cases :
    (∃ decl ∈ fieldSet, decl.tlvType = tlvType ∧
      fieldInfo tlvType = ⟨tlvType, true, false, decl.isRepeatable, decl.location.sortOrder⟩) ∨
    ((∀ decl ∈ fieldSet, decl.tlvType ≠ tlvType) ∧
      fieldInfo tlvType = ⟨tlvType, false,
        decide (Tlv.header3Min ≤ tlvType ∧ tlvType ≤ Tlv.header3Max) && tlvType % 4 == 0,
        false, FieldLocation.header.sortOrder⟩) := by
  unfold fieldInfo
  cases hfind : fieldSet.find? (·.tlvType == tlvType) with
  | some decl => grind
  | none => simp_all

theorem fieldInfo_tlvType : (fieldInfo tlvType).tlvType = tlvType := by
  rcases fieldInfo_cases tlvType with ⟨decl, -, -, hinfo⟩ | ⟨-, hinfo⟩
  · rw [hinfo]
  · rw [hinfo]

theorem fieldInfo_isRepeatable : (fieldInfo tlvType).isRepeatable = (tlvType == Tlv.ack) := by
  have hset : ∀ decl ∈ fieldSet, decl.isRepeatable = (decl.tlvType == Tlv.ack) := by decide
  rcases fieldInfo_cases tlvType with ⟨decl, hdecl, rfl, hinfo⟩ | ⟨hnone, hinfo⟩
  · rw [hinfo]
    exact hset decl hdecl
  · have hne := hnone ⟨.header, Tlv.ack, true⟩ (by decide)
    rw [hinfo]
    exact (beq_eq_false_iff_ne.2 (Ne.symm hne)).symm

theorem fieldInfo_locationSortOrder :
    (fieldInfo tlvType).locationSortOrder = if tlvType = Tlv.fragment then 2 else 1 := by
  have hset : ∀ decl ∈ fieldSet,
      decl.location.sortOrder = if decl.tlvType = Tlv.fragment then 2 else 1 := by decide
  rcases fieldInfo_cases tlvType with ⟨decl, hdecl, rfl, hinfo⟩ | ⟨hnone, hinfo⟩
  · rw [hinfo]
    exact hset decl hdecl
  · have hne := hnone ⟨.fragment, Tlv.fragment, false⟩ (by decide)
    rw [hinfo, if_neg (Ne.symm hne)]
    rfl

end

variable {tlvType index : Nat} {p p' : Packet} {elements es : List Block} {f : Field V} {v : V}

theorem isKnown_bounds (h : isKnown tlvType = true) : 0 < tlvType ∧ tlvType < 2 ^ 32 := by
  have hset : ∀ decl ∈ fieldSet, 0 < decl.tlvType ∧ decl.tlvType < 2 ^ 32 := by decide
  rw [isKnown] at h
  rcases fieldInfo_cases tlvType with ⟨decl, hdecl, rfl, -⟩ | ⟨-, hinfo⟩
  · exact hset decl hdecl
  · rw [hinfo] at h
    rw [Bool.false_or, Bool.and_eq_true] at h
    have hrange := of_decide_eq_true h.1
    simp only [Tlv.header3Min, Tlv.header3Max] at hrange
    omega

theorem isKnown_decl (f : Field V) : isKnown f.decl.tlvType = true := by
  have hset : ∀ decl ∈ fieldSet, isKnown decl.tlvType = true := by decide
  exact hset f.decl f.mem

theorem isRepeatable_decl (f : Field V) : f.decl.isRepeatable = (f.decl.tlvType == Tlv.ack) := by
  have hset : ∀ decl ∈ fieldSet, decl.isRepeatable = (decl.tlvType == Tlv.ack) := by decide
  exact hset f.decl f.mem

/-- The sort order is the order of NDNLPv2. -/
theorem compareFieldSortOrder_iff (a b : Nat) :
    compareFieldSortOrder (fieldInfo a) (fieldInfo b) = true ↔
      a ≠ Tlv.fragment ∧ (b = Tlv.fragment ∨ a < b) := by
  unfold compareFieldSortOrder
  rw [fieldInfo_locationSortOrder, fieldInfo_locationSortOrder, fieldInfo_tlvType,
    fieldInfo_tlvType]
  by_cases ha : a = Tlv.fragment
  · grind
  · grind

theorem mayPrecede_iff (a b : Nat) :
    MayPrecede a b ↔ ¬ (b == a && !(b == Tlv.ack)) = true ∧
      ¬ (b != a && !compareFieldSortOrder (fieldInfo a) (fieldInfo b)) = true := by
  have hcmp := compareFieldSortOrder_iff a b
  by_cases hab : b = a
  · -- not sorted before itself
    by_cases hack : a = Tlv.ack
    · simp [MayPrecede, hab, hack]
    · simp [MayPrecede, hab, hack]
  · have hne : ¬ a = b := fun h => hab h.symm
    simp only [MayPrecede, hne, false_and, false_or, ← hcmp]
    simp [hab]

theorem checkFields_eq_ok_iff (prev : Option Nat) (es : List Block) :
    checkFields (prev.map fieldInfo) es = .ok () ↔
      (∀ e ∈ es, isKnown e.type = true) ∧
        IsChain MayPrecede (prev.toList ++ es.map Block.type) := by
  induction es generalizing prev with
  | nil =>
    cases prev with
    | none => simp [checkFields]
    | some a => simp [checkFields]
  | cons e es ih =>
    unfold checkFields
    by_cases hknown : isKnown e.type = true
    · have hcond : ¬ (!(fieldInfo e.type).isRecognized && !(fieldInfo e.type).canIgnore) =
          true := by
        rw [isKnown] at hknown
        rw [← Bool.not_or, hknown]
        decide
      have hnext := ih (some e.type)
      rw [if_neg hcond]
      cases prev with
      | none => simp_all
      | some a =>
        simp only [map_some, toList_some, map_cons, cons_append,
          nil_append, isChain_cons_cons, forall_mem_cons, fieldInfo_tlvType,
          fieldInfo_isRepeatable, mayPrecede_iff] at hnext ⊢
        by_cases hsame : (e.type == a && !(e.type == Tlv.ack)) = true
        · simp [hsame]
        · grind
    · simp_all [isKnown]

theorem checkFields_none_iff (es : List Block) :
    checkFields none es = .ok () ↔
      (∀ e ∈ es, isKnown e.type = true) ∧ (es.map Block.type).Pairwise MayPrecede := by
  rw [← isChain_iff_pairwise]
  exact checkFields_eq_ok_iff none es

/-! ## Packets that are made -/

/-- The fields are in order, and so is the encoding the packet was decoded from. -/
structure WellFormed (p : Packet) : Prop where
  inOrder : (p.elements.map Block.type).Pairwise MayPrecede
  known : ∀ e ∈ p.elements, isKnown e.type = true
  encoded : ∀ e ∈ p.elements, e.value.length < 2 ^ 64 → Block.Encodes e.tl e.type e.value.length
  fromWire : ∀ b, p.wire = some b → b.type = Tlv.lpPacket ∧ b.parse = .ok p.elements ∧
    Block.Encodes b.tl b.type b.value.length

/-- The packets that can be made: empty, decoded, or by `add`, `set`, `remove` and `clear`. -/
inductive Built : Packet → Prop
  | empty : Built Packet.empty
  | wireDecode {buf : List UInt8} {wire : Block} {p : Packet} :
      Block.fromBuffer buf = .ok wire → Packet.wireDecode wire = .ok p → Built p
  | add {V : Type} {f : Field V} {v : V} {p p' : Packet} : Built p → p.add f v = .ok p' → Built p'
  | set {V : Type} {f : Field V} {v : V} {p p' : Packet} : Built p → p.set f v = .ok p' → Built p'
  | remove {V : Type} {f : Field V} {index : Nat} {p p' : Packet} :
      Built p → p.remove f index = .ok p' → Built p'
  | clear {V : Type} {f : Field V} {p : Packet} : Built p → Built (p.clear f)

theorem wellFormed_empty : WellFormed empty :=
  ⟨Pairwise.nil, by simp [empty], by simp [empty], by simp [empty]⟩

theorem WellFormed.sublist (h : p.WellFormed) (hsub : elements.Sublist p.elements) :
    WellFormed ⟨elements, none⟩ :=
  ⟨h.inOrder.sublist (hsub.map type), fun e he => h.known e (hsub.subset he),
    fun e he => h.encoded e (hsub.subset he), by simp⟩

theorem WellFormed.clear (h : p.WellFormed) (f : Field V) : (p.clear f).WellFormed :=
  h.sublist filter_sublist

theorem sublist_of_removeLoop {es' : List Block} (h : removeLoop tlvType index es = some es') :
    es'.Sublist es := by
  induction es generalizing index es' with
  | nil => cases h
  | cons e es ih =>
    have hkeep : ∀ {index : Nat}, (removeLoop tlvType index es).map (e :: ·) = some es' →
        es'.Sublist (e :: es) := by
      intro index h
      obtain ⟨rest, hrest, rfl⟩ := map_eq_some_iff.1 h
      exact (ih hrest).cons_cons e
    unfold removeLoop at h
    split at h
    · grind
    · exact hkeep h

theorem WellFormed.remove (h : p.WellFormed) (hremove : p.remove f index = .ok p') :
    p'.WellFormed := by
  unfold Packet.remove at hremove
  split at hremove
  · grind [sublist, sublist_of_removeLoop]
  · cases hremove

theorem add_eq_ok (h : p.add f v = .ok p') :
    (f.decl.tlvType ≠ Tlv.ack → ∀ e ∈ p.elements, e.type ≠ f.decl.tlvType) ∧
      ∃ value, f.encode v = .ok value ∧
        p' = ⟨p.elements.orderedInsert (fun a b => comparePos a.type b = true)
          (Block.make f.decl.tlvType value), none⟩ := by
  unfold Packet.add at h
  split at h
  · cases h
  rename_i hcond
  obtain ⟨value, hvalue, h⟩ := bind_eq_ok_iff.1 h
  refine ⟨fun hne e he heq => hcond ?_, value, hvalue, (Except.ok.inj h).symm⟩
  have hhas : p.has f = true := by
    rw [has, count, decide_eq_true_eq, countP_pos_iff]
    exact ⟨e, he, beq_iff_eq.2 heq⟩
  rw [isRepeatable_decl, beq_eq_false_iff_ne.2 hne, hhas]
  rfl

/-- Insertion before the first element that must come later. -/
theorem pairwise_orderedInsert {x : Block} (hes : (es.map Block.type).Pairwise MayPrecede)
    (hnew : x.type ≠ Tlv.ack → ∀ e ∈ es, e.type ≠ x.type) :
    ((es.orderedInsert (fun a b => comparePos a.type b = true) x).map Block.type).Pairwise
      MayPrecede := by
  have hpos : ∀ e : Block, comparePos x.type e = true ↔
      x.type ≠ Tlv.fragment ∧ (e.type = Tlv.fragment ∨ x.type < e.type) := fun e =>
    compareFieldSortOrder_iff x.type e.type
  induction es with
  | nil => exact pairwise_singleton _ _
  | cons e es ih =>
    rw [map_cons, pairwise_cons] at hes
    rw [orderedInsert_cons]
    by_cases hbefore : comparePos x.type e = true
    · rw [if_pos hbefore]
      have hxe : MayPrecede x.type e.type := Or.inr ((hpos e).1 hbefore)
      rw [map_cons, map_cons, pairwise_cons, pairwise_cons]
      refine ⟨fun t ht => ?_, hes⟩
      rcases mem_cons.1 ht with rfl | ht
      · exact hxe
      · exact Trans.trans hxe (hes.1 t ht)
    · rw [if_neg hbefore]
      -- neither before nor the same: the field comes later
      have hex : MayPrecede e.type x.type := by
        rw [hpos] at hbefore
        unfold MayPrecede
        by_cases hack : x.type = Tlv.ack
        · omega
        · have hdiff := hnew hack e (.head _)
          omega
      have hrest := ih hes.2 fun hack y hy => hnew hack y (mem_cons_of_mem e hy)
      rw [map_cons, pairwise_cons]
      refine ⟨fun t ht => ?_, hrest⟩
      obtain ⟨y, hy, rfl⟩ := mem_map.1 ht
      rcases mem_cons.1 ((perm_orderedInsert _ x es).mem_iff.1 hy) with rfl | hy
      · exact hex
      · exact hes.1 y.type (mem_map_of_mem hy)

theorem WellFormed.add (h : p.WellFormed) (hadd : p.add f v = .ok p') : p'.WellFormed := by
  obtain ⟨hnew, value, -, rfl⟩ := add_eq_ok hadd
  have hknown := isKnown_decl f
  have hbounds := isKnown_bounds hknown
  have hmem : ∀ e, e ∈ p.elements.orderedInsert (fun a b => comparePos a.type b = true)
      (make f.decl.tlvType value) → e = make f.decl.tlvType value ∨ e ∈ p.elements :=
    fun e he => mem_cons.1 ((perm_orderedInsert _ _ _).mem_iff.1 he)
  refine ⟨pairwise_orderedInsert h.inOrder hnew, fun e he => ?_, fun e he hlen => ?_, by simp⟩
  · rcases hmem e he with rfl | he
    · exact hknown
    · exact h.known e he
  · rcases hmem e he with rfl | he
    · exact make_encodes hbounds.1 hbounds.2 hlen
    · exact h.encoded e he hlen

theorem WellFormed.set (h : p.WellFormed) (hset : p.set f v = .ok p') : p'.WellFormed :=
  (h.clear f).add hset

theorem wellFormed_wireDecode {buf : List UInt8} {wire : Block}
    (hbuf : fromBuffer buf = .ok wire) (h : wireDecode wire = .ok p) : p.WellFormed := by
  unfold wireDecode at h
  split at h
  · exact wellFormed_empty.add h
  split at h
  · cases h
  rename_i htype
  obtain ⟨elements, hparse, h⟩ := bind_eq_ok_iff.1 h
  obtain ⟨_, hcheck, h⟩ := bind_eq_ok_iff.1 h
  obtain rfl := ok.inj h
  obtain ⟨hknown, horder⟩ := (checkFields_none_iff elements).1 hcheck
  refine ⟨horder, hknown, fun e he _ => parse_encodes hparse e he, ?_⟩
  rintro b hb
  obtain rfl := some.inj hb
  exact ⟨not_not.1 htype, hparse, fromBuffer_encodes hbuf⟩

/-- Every packet that can be made is in order. -/
theorem Built.wellFormed (h : Built p) : p.WellFormed := by
  induction h with
  | empty => exact wellFormed_empty
  | wireDecode hbuf hdecode => exact wellFormed_wireDecode hbuf hdecode
  | add _ hadd ih => exact ih.add hadd
  | set _ hset ih => exact ih.set hset
  | remove _ hremove ih => exact ih.remove hremove
  | clear _ ih => exact ih.clear _

/-! ## Encoding and decoding -/

/-- The fields as they are observed. -/
def fields (p : Packet) : List (Nat × List UInt8) := p.elements.map fun e => (e.type, e.value)

theorem list_eq (f : Field V) (p : Packet) :
    p.list f = (p.fields.filter (·.1 == f.decl.tlvType)).mapM fun x => f.decode x.2 := by
  rw [fields, List.filter_map, List.mapM_map]
  rfl

/-- The packet has no field but a Fragment. -/
def isBare (p : Packet) : Bool :=
  match p.elements with
  | [e] => e.type == Tlv.fragment
  | _ => false

/-- The octets are one complete Interest or Data. -/
def IsNetworkPacket (octets : List UInt8) : Prop :=
  ∃ b, Block.fromBuffer octets = .ok b ∧ b.wire = octets ∧
    (b.type = Ndn.Tlv.interest ∨ b.type = Ndn.Tlv.data)

theorem wireEncode_of_not_isBare (h : p.isBare = false) : p.wireEncode = .ok p.encode := by
  unfold isBare at h
  unfold wireEncode
  split
  · simp_all
  · rfl

theorem wireEncode_of_isBare {e : Block} (helements : p.elements = [e])
    (htype : e.type = Tlv.fragment) (h : IsNetworkPacket e.value) :
    ∃ b, p.wireEncode = .ok b ∧ b.wire = e.value ∧
      (b.type = Ndn.Tlv.interest ∨ b.type = Ndn.Tlv.data) ∧
      Block.Encodes b.tl b.type b.value.length := by
  obtain ⟨b, hbuf, hwire, hb⟩ := h
  have hencodes := fromBuffer_encodes hbuf
  have hparse : e.parse = .ok (Block.layout e.after [b]) := by
    refine parse_flatMap_wire (fun c hc => ?_) ?_
    · rw [mem_singleton.1 hc]
      exact hencodes
    · simp [hwire]
  refine ⟨{ b with after := [] ++ e.after }, ?_, hwire, hb, hencodes⟩
  unfold wireEncode
  rw [helements]
  dsimp only
  rw [if_pos htype, hparse]
  rfl

theorem wireDecode_of_parse {b : Block} (htype : b.type = Tlv.lpPacket)
    (hparse : b.parse = .ok elements) (hknown : ∀ e ∈ elements, isKnown e.type = true)
    (horder : (elements.map Block.type).Pairwise MayPrecede) :
    wireDecode b = .ok ⟨elements, some b⟩ := by
  have hcheck := (checkFields_none_iff elements).2 ⟨hknown, horder⟩
  have hnet : ¬ (b.type = Ndn.Tlv.interest ∨ b.type = Ndn.Tlv.data) := by
    rw [htype]
    decide
  rw [wireDecode, if_neg hnet, if_neg (not_not.2 htype), hparse]
  simp only [bind, Except.bind, hcheck, pure, Except.pure]

theorem wireDecode_layout (h : p.WellFormed) {b : Block}
    (hes : es.map (fun e => (e.type, e.value)) = p.fields)
    (hencodes : ∀ e ∈ es, Block.Encodes e.tl e.type e.value.length) (htype : b.type = Tlv.lpPacket)
    (hvalue : b.value = es.flatMap Block.wire) :
    ∃ p', wireDecode b = .ok p' ∧ p'.fields = p.fields := by
  have hparse := parse_flatMap_wire hencodes hvalue
  have hfields : (Block.layout b.after es).map (fun e => (e.type, e.value)) = p.fields :=
    (map_layout b.after es).trans hes
  have htypes : (Block.layout b.after es).map Block.type = p.elements.map Block.type := by
    have hfst := congrArg (map Prod.fst) hfields
    rw [fields, List.map_map, List.map_map] at hfst
    exact hfst
  have hknown : ∀ e ∈ Block.layout b.after es, isKnown e.type = true := by
    intro e he
    have hmem : e.type ∈ p.elements.map Block.type := htypes ▸ mem_map_of_mem he
    obtain ⟨x, hx, hxe⟩ := mem_map.1 hmem
    rw [← hxe]
    exact h.known x hx
  exact ⟨_, wireDecode_of_parse htype hparse hknown (htypes ▸ h.inOrder), hfields⟩

/-- Encoded anew, no field is longer than all of them together. -/
theorem length_value_le {e : Block} (he : e ∈ p.elements) :
    e.value.length ≤ ((p.elements.map reencode).flatMap Block.wire).length := by
  have hmem : reencode e ∈ p.elements.map reencode := mem_map_of_mem he
  obtain ⟨l₁, l₂, hsplit⟩ := append_of_mem hmem
  rw [hsplit, flatMap_append, flatMap_cons, length_append, length_append, Block.wire, length_append]
  show (reencode e).value.length ≤ _
  omega

theorem decode_encode (h : p.WellFormed)
    (hsize : ((p.elements.map reencode).flatMap Block.wire).length < 2 ^ 64) :
    ∃ b p', fromBuffer p.encode.wire = .ok b ∧ wireDecode b = .ok p' ∧ p'.fields = p.fields := by
  cases hwire : p.wire with
  | some b =>
    obtain ⟨htype, hparse, hencodes⟩ := h.fromWire b hwire
    have hencode : p.encode = b := by rw [encode, hwire, getD_some]
    obtain ⟨p', hdecode, hfields⟩ :=
      wireDecode_layout h rfl (parse_encodes hparse) (b := { b with after := [] }) htype
        (parse_wire hparse).symm
    rw [hencode]
    exact ⟨_, p', fromBuffer_wire hencodes, hdecode, hfields⟩
  | none =>
    have hencode : p.encode =
        Block.make Tlv.lpPacket ((p.elements.map reencode).flatMap Block.wire) := by
      rw [encode, hwire, getD_none]
    have hencodes : ∀ e ∈ p.elements.map reencode, Encodes e.tl e.type e.value.length := by
      intro e he
      obtain ⟨x, hx, rfl⟩ := mem_map.1 he
      have hbounds := isKnown_bounds (h.known x hx)
      exact make_encodes hbounds.1 hbounds.2 (Nat.lt_of_le_of_lt (length_value_le hx) hsize)
    have hmap : (p.elements.map reencode).map (fun e => (e.type, e.value)) = p.fields := by
      rw [List.map_map]
      rfl
    obtain ⟨p', hdecode, hfields⟩ := wireDecode_layout h hmap hencodes
      (b := Block.make Tlv.lpPacket ((p.elements.map reencode).flatMap Block.wire)) rfl rfl
    rw [hencode]
    exact ⟨_, p', fromBuffer_make (by decide) (by decide) hsize, hdecode, hfields⟩

theorem WellFormed.count_le_one (h : p.WellFormed)
    (hne : (fieldInfo tlvType).isRepeatable = false) :
    (p.elements.map Block.type).count tlvType ≤ 1 := by
  rw [fieldInfo_isRepeatable, beq_eq_false_iff_ne] at hne
  by_contra htwo
  have hsub : (replicate 2 tlvType).Sublist (p.elements.map Block.type) :=
    replicate_sublist_iff.2 (Nat.lt_of_not_le htwo)
  have hpair := (pairwise_cons.1 (h.inOrder.sublist hsub)).1 tlvType (by simp)
  rcases hpair with hack | ⟨hfragment, hfragment' | hlt⟩
  · exact hne hack.2
  · exact hfragment hfragment'
  · exact Nat.lt_irrefl _ hlt

/-- **Packets that are made can be encoded and decoded.**  The fields are in the order of NDNLPv2,
    and a packet that fits into memory comes back with the same fields; if it has nothing but a
    Fragment, that must be one Interest or Data. -/
theorem built_decode_encode {p : Packet} (h : Built p) :
    ((p.elements.map Block.type).Pairwise MayPrecede ∧
      ∀ tlvType, (fieldInfo tlvType).isRepeatable = false →
        (p.elements.map Block.type).count tlvType ≤ 1) ∧
    (((p.elements.map reencode).flatMap Block.wire).length < 2 ^ 64 →
      (p.isBare = true → ∀ e ∈ p.elements, IsNetworkPacket e.value) →
        ∃ wire b p', p.wireEncode = .ok wire ∧ Block.fromBuffer wire.wire = .ok b ∧
          wireDecode b = .ok p' ∧ p'.fields = p.fields ∧
          ∀ (V : Type) (f : Field V), p'.list f = p.list f) := by
  have hp := h.wellFormed
  refine ⟨⟨hp.inOrder, fun tlvType hne => hp.count_le_one hne⟩, fun hsize hnet => ?_⟩
  have hlist : ∀ {p' : Packet}, p'.fields = p.fields →
      ∀ (V : Type) (f : Field V), p'.list f = p.list f := by
    intro p' hfields V f
    rw [list_eq, list_eq, hfields]
  cases hbare : p.isBare with
  | false => grind [decode_encode, wireEncode_of_not_isBare]
  | true =>
    obtain ⟨e, helements, htype⟩ : ∃ e, p.elements = [e] ∧ e.type = Tlv.fragment := by
      unfold isBare at hbare
      split at hbare
      · simp_all
      · cases hbare
    obtain ⟨wire, hencode, hwire, hnetwork, hencodes⟩ :=
      wireEncode_of_isBare helements htype (hnet hbare e (by simp [helements]))
    have hdecode : wireDecode { wire with after := [] } =
        .ok ⟨[Block.make Tlv.fragment e.value], none⟩ := by
      rw [wireDecode, if_pos hnetwork, ← hwire]
      rfl
    have hfields : fields ⟨[Block.make Tlv.fragment e.value], none⟩ = p.fields := by
      rw [fields, fields, helements]
      simp [Block.make, htype]
    exact ⟨wire, _, _, hencode, fromBuffer_wire hencodes, hdecode, hfields, hlist hfields⟩

/-- An Interest with a sequence number and two Acks, added in another order. -/
def sample : Raises Packet := do
  let p ← empty.add fragmentField [5, 5, 7, 3, 8, 1, 97]
  let p ← p.add ackField 7
  let p ← p.add sequenceField 1
  p.add ackField 6

theorem built_sample : ∃ p, sample = .ok p ∧ Built p ∧
    p.fields.map Prod.fst = [Tlv.sequence, Tlv.ack, Tlv.ack, Tlv.fragment] := by
  refine ⟨_, rfl, ?_, rfl⟩
  exact .add (f := ackField) (v := 6)
    (.add (f := sequenceField) (v := 1) (.add (f := ackField) (v := 7)
    (.add (f := fragmentField) (v := [5, 5, 7, 3, 8, 1, 97]) .empty rfl) rfl) rfl) rfl

theorem built_decode_encode_sample :
    ∃ p, sample = .ok p ∧ ∃ wire b p', p.wireEncode = .ok wire ∧
      Block.fromBuffer wire.wire = .ok b ∧ wireDecode b = .ok p' ∧ p'.fields = p.fields ∧
      ∀ (V : Type) (f : Field V), p'.list f = p.list f := by
  obtain ⟨p, hp, hbuilt, htypes⟩ := built_sample
  obtain rfl := Except.ok.inj hp
  exact ⟨_, rfl, (built_decode_encode hbuilt).2 (by decide) fun hbare => by cases hbare⟩

end Packet

end Lp

end NdnMulticast.Ndn
