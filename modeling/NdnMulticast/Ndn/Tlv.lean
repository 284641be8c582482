/-
  NDN-TLV elements and the exceptions of the library, after `encoding/tlv.hpp` and
  `encoding/block.cpp`.

  A `Block` is a view into the buffer of the packet it was parsed from: it keeps the octets
  of TLV-TYPE and TLV-LENGTH as they stand on the wire (encodings need not be minimal) and
  those that follow it, which are what a read past its end finds.
-/

import NdnMulticast.Lib.Except
import NdnMulticast.Lib.Numeral

namespace NdnMulticast.Ndn

open Lib List Prod Nat

/-- `tlvError` stands for `tlv::Error` and the classes derived from it (`Block::Error`,
    `Component::Error`, ...); the next three are the standard library's. -/
inductive Exception where
  | tlvError (what : String)
  | invalidArgument (what : String)
  | outOfRange (what : String)
  | logicError (what : String)
  | lengthError (what : String)
  /-- `Face::OversizedPacketError`. -/
  | oversizedPacket (size : Nat)
deriving DecidableEq, Repr

/-- A call that returns a value or raises. -/
abbrev Raises (α : Type) := Except Exception α

/-- How the processing of an event ends early. -/
inductive Fault where
  | raised (e : Exception)
  /-- A null or dangling pointer is dereferenced, or a range is walked past its end. -/
  | undefinedBehavior
deriving DecidableEq, Repr

/-- `MAX_NDN_PACKET_SIZE`. -/
def maxNdnPacketSize : Nat := 8800

namespace Tlv

/-! ## TLV-TYPE numbers -/

def interest : Nat := 5
def data : Nat := 6
def name : Nat := 7
def genericNameComponent : Nat := 8
def implicitSha256DigestComponent : Nat := 1
def parametersSha256DigestComponent : Nat := 2
def canBePrefix : Nat := 33
def mustBeFresh : Nat := 18
def forwardingHint : Nat := 30
def nonce : Nat := 10
def interestLifetime : Nat := 12
def hopLimit : Nat := 34
def applicationParameters : Nat := 36
def metaInfo : Nat := 20
def content : Nat := 21
def signatureInfo : Nat := 22
def signatureValue : Nat := 23
def contentType : Nat := 24
def freshnessPeriod : Nat := 25
def finalBlockId : Nat := 26
def signatureType : Nat := 27
def keyLocator : Nat := 28
def keyDigest : Nat := 29
def signatureNonce : Nat := 38
def signatureTime : Nat := 40
def linkDelegation : Nat := 31
def linkPreference : Nat := 30
def nameComponentMin : Nat := 1
def nameComponentMax : Nat := 65535
def segmentNameComponent : Nat := 33
def byteOffsetNameComponent : Nat := 34
def versionNameComponent : Nat := 35
def timestampNameComponent : Nat := 36
def sequenceNumNameComponent : Nat := 37
def validityPeriod : Nat := 253

/-- Whether a decoder must reject an element of this type that it does not recognise. -/
def isCriticalType (type : Nat) : Bool := decide (type ≤ 31) || type % 2 == 1

/-! ## Numbers -/

/-- Value of a big-endian octet string. -/
def bigEndian (bs : List UInt8) : Nat := bs.foldl (fun n b => 256 * n + b.toNat) 0

/-- The `size` octets of a number, most significant first. -/
def toBigEndian : Nat → Nat → List UInt8
  | 0, _ => []
  | size + 1, n => UInt8.ofNat (n / 256 ^ size) :: toBigEndian size n

/-- `readVarNumber`: the number and the rest of the range. -/
def readVarNumber : List UInt8 → Raises (Nat × List UInt8)
  | [] => .error (.tlvError "Empty buffer during TLV parsing")
  | first :: rest =>
    if first.toNat < 253 then .ok (first.toNat, rest)
    else
      let size := if first.toNat = 253 then 2 else if first.toNat = 254 then 4 else 8
      if rest.length < size then .error (.tlvError "Insufficient data during TLV parsing")
      else .ok (bigEndian (rest.take size), rest.drop size)

/-- `readType`: a VAR-NUMBER that is neither zero nor wider than 32 bits. -/
def readType (bs : List UInt8) : Raises (Nat × List UInt8) := do
  let r ← readVarNumber bs
  if r.1 = 0 ∨ 2 ^ 32 ≤ r.1 then .error (.tlvError s!"Illegal TLV-TYPE {r.1}")
  else .ok r

/-- `writeVarNumber`, always in the shortest form. -/
def writeVarNumber (n : Nat) : List UInt8 :=
  if n < 253 then [UInt8.ofNat n]
  else if n < 2 ^ 16 then 253 :: toBigEndian 2 n
  else if n < 2 ^ 32 then 254 :: toBigEndian 4 n
  else 255 :: toBigEndian 8 n

/-- `readNonNegativeInteger` over the whole TLV-VALUE of an element. -/
def readNonNegativeInteger (value : List UInt8) : Raises Nat :=
  if value.length = 1 ∨ value.length = 2 ∨ value.length = 4 ∨ value.length = 8 then
    .ok (bigEndian value)
  else .error (.tlvError s!"Invalid length {value.length} for nonNegativeInteger")

/-- The TLV-VALUE written by `makeNonNegativeIntegerBlock`. -/
def nonNegativeInteger (n : Nat) : List UInt8 :=
  if n < 2 ^ 8 then toBigEndian 1 n
  else if n < 2 ^ 16 then toBigEndian 2 n
  else if n < 2 ^ 32 then toBigEndian 4 n
  else toBigEndian 8 n

theorem length_nonNegativeInteger_le (n : Nat) : (nonNegativeInteger n).length ≤ 8 := by
  unfold nonNegativeInteger
  split_ifs <;> simp [toBigEndian]

theorem bigEndian_lt (bs : List UInt8) : bigEndian bs < 256 ^ bs.length := by
  have hfold : ∀ (bs : List UInt8) (n k : Nat), n < 256 ^ k →
      bs.foldl (fun n b => 256 * n + b.toNat) n < 256 ^ (k + bs.length) := by
    intro bs
    induction bs with
    | nil => intro n k hn; simpa using hn
    | cons b bs ih =>
      intro n k hn
      have hb := b.toNat_lt
      have hstep : 256 * n + b.toNat < 256 ^ (k + 1) := by
        omega
      have := ih _ _ hstep
      rwa [foldl_cons, length_cons, add_comm bs.length, ← add_assoc]
  simpa [bigEndian] using hfold bs 0 0 (by decide)

theorem length_toBigEndian (size n : Nat) : (toBigEndian size n).length = size := by
  induction size with
  | zero => rfl
  | succ size ih => simp [toBigEndian, ih]

theorem bigEndian_cons (b : UInt8) (bs : List UInt8) :
    bigEndian (b :: bs) = b.toNat * 256 ^ bs.length + bigEndian bs := by
  have hfold : ∀ (bs : List UInt8) (n : Nat),
      bs.foldl (fun n b => 256 * n + b.toNat) n = n * 256 ^ bs.length + bigEndian bs := by
    intro bs
    induction bs with
    | nil => intro n; simp [bigEndian]
    | cons b bs ih =>
      intro n
      simp only [bigEndian, foldl_cons, length_cons] at ih ⊢
      rw [ih, ih (256 * 0 + b.toNat), pow_succ]
      ring
  simpa [bigEndian] using hfold bs b.toNat

theorem bigEndian_toBigEndian (size n : Nat) : bigEndian (toBigEndian size n) = n % 256 ^ size := by
  induction size with
  | zero => simp [toBigEndian, bigEndian, mod_one]
  | succ size ih =>
    rw [toBigEndian, bigEndian_cons, length_toBigEndian, ih]
    have hbyte : (UInt8.ofNat (n / 256 ^ size)).toNat = n / 256 ^ size % 256 := by simp
    rw [hbyte, pow_succ, mod_mul, add_comm, mul_comm]

variable {n : Nat} {bs rest : List UInt8}

theorem bigEndian_nonNegativeInteger (hn : n < 2 ^ 64) : bigEndian (nonNegativeInteger n) = n := by
  unfold nonNegativeInteger
  split
  · rw [bigEndian_toBigEndian]
    omega
  · grind [bigEndian_toBigEndian]

/-- The number of octets after the first octet of a wide VAR-NUMBER. -/
def wideSize (first : UInt8) : Nat :=
  if first.toNat = 253 then 2 else if first.toNat = 254 then 4 else 8

theorem readVarNumber_wide {first : UInt8} (hfirst : ¬ first.toNat < 253) {digits : List UInt8}
    (hlen : digits.length = wideSize first) (r : List UInt8) :
    readVarNumber (first :: (digits ++ r)) = .ok (bigEndian digits, r) := by
  have henough : ¬ (digits ++ r).length < wideSize first := by
    rw [length_append, hlen]
    omega
  simp only [wideSize] at hlen henough
  simp only [readVarNumber, if_neg hfirst, if_neg henough, take_left' hlen, drop_left' hlen]

/-- What is read is one octet, or the octets after the first one. -/
theorem readVarNumber_cases (h : readVarNumber bs = .ok (n, rest)) :
    (∃ first, first.toNat < 253 ∧ bs = first :: rest ∧ n = first.toNat) ∨
      ∃ first digits, ¬ first.toNat < 253 ∧ digits.length = wideSize first ∧
        bs = first :: (digits ++ rest) ∧ n = bigEndian digits := by
  cases bs with
  | nil => cases h
  | cons first bs =>
    by_cases hsmall : first.toNat < 253
    · simp only [readVarNumber, if_pos hsmall, Except.ok.injEq, mk.injEq] at h
      exact Or.inl ⟨first, hsmall, by rw [h.2], h.1.symm⟩
    by_cases hshort : bs.length < wideSize first
    · simp only [wideSize] at hshort
      simp only [readVarNumber, if_neg hsmall, if_pos hshort] at h
      cases h
    have hlen : (bs.take (wideSize first)).length = wideSize first := length_take_of_le (by omega)
    have hread := readVarNumber_wide hsmall hlen (bs.drop (wideSize first))
    rw [take_append_drop, h, Except.ok.injEq, mk.injEq] at hread
    refine Or.inr ⟨first, _, hsmall, hlen, ?_, hread.1⟩
    rw [hread.2, take_append_drop]

theorem readVarNumber_split (h : readVarNumber bs = .ok (n, rest)) :
    ∃ front, bs = front ++ rest ∧ front ≠ [] ∧ ∀ r, readVarNumber (front ++ r) = .ok (n, r) := by
  obtain ⟨first, hsmall, rfl, rfl⟩ | ⟨first, digits, hwide, hlen, rfl, rfl⟩ := readVarNumber_cases h
  · exact ⟨[first], rfl, by simp, fun r => by simp [readVarNumber, hsmall]⟩
  · exact ⟨first :: digits, rfl, by simp, readVarNumber_wide hwide hlen⟩

theorem wideSize_le (first : UInt8) : wideSize first ≤ 8 := by
  unfold wideSize
  split_ifs <;> omega

theorem readVarNumber_lt (h : readVarNumber bs = .ok (n, rest)) : n < 2 ^ 64 := by
  obtain ⟨first, hsmall, -, rfl⟩ | ⟨first, digits, -, hlen, -, rfl⟩ := readVarNumber_cases h
  · omega
  · calc bigEndian digits < 256 ^ digits.length := bigEndian_lt digits
      _ ≤ 256 ^ 8 := Nat.pow_le_pow_right (by decide) (hlen ▸ wideSize_le first)
      _ = 2 ^ 64 := by decide

theorem readVarNumber_writeVarNumber (hn : n < 2 ^ 64) (r : List UInt8) :
    readVarNumber (writeVarNumber n ++ r) = .ok (n, r) := by
  have hwide : ∀ first : UInt8, ¬ first.toNat < 253 → n < 256 ^ wideSize first →
      readVarNumber (first :: toBigEndian (wideSize first) n ++ r) = .ok (n, r) := by
    intro first hfirst hlt
    rw [cons_append, readVarNumber_wide hfirst (length_toBigEndian _ _),
      bigEndian_toBigEndian, mod_eq_of_lt hlt]
  unfold writeVarNumber
  by_cases h1 : n < 253
  · have hmod : n % 256 = n := mod_eq_of_lt (by omega)
    simp [h1, readVarNumber, hmod]
  rw [if_neg h1]
  by_cases h2 : n < 2 ^ 16
  · rw [if_pos h2]
    exact hwide 253 (by decide) (by simpa [wideSize] using h2)
  rw [if_neg h2]
  by_cases h4 : n < 2 ^ 32
  · rw [if_pos h4]
    exact hwide 254 (by decide) (by simpa [wideSize] using h4)
  · rw [if_neg h4]
    exact hwide 255 (by decide) (by simpa [wideSize] using hn)

/-- `tlv::Error(expectedType, actualType)`. -/
def typeMismatch (expectedType : String) (actualType : Nat) : Exception :=
  .tlvError s!"Expecting {expectedType} element, but TLV has type {actualType}"

end Tlv

/-! ## Elements -/

/-- A TLV element inside the buffer of a packet. -/
structure Block where
  type : Nat
  /-- TLV-TYPE and TLV-LENGTH as encoded. -/
  tl : List UInt8
  value : List UInt8
  /-- What follows the element in the buffer. -/
  after : List UInt8
deriving DecidableEq, Repr

namespace Block

/-- The encoding of the element. -/
def wire (b : Block) : List UInt8 := b.tl ++ b.value

/-- Reads TLV-TYPE and TLV-LENGTH: the type, the length and what follows. -/
def readTypeLength (bs : List UInt8) : Raises (Nat × Nat × List UInt8) := do
  let (type, rest) ← Tlv.readType bs
  let (length, rest) ← Tlv.readVarNumber rest
  return (type, length, rest)

/-- The octets of `bs` before its suffix `rest`. -/
def upTo (bs rest : List UInt8) : List UInt8 := bs.take (bs.length - rest.length)

/-- `Block::Block(const uint8_t* buf, size_t bufSize)`: the first element of a received buffer,
    copied. -/
def fromBuffer (buf : List UInt8) : Raises Block := do
  let (type, length, rest) ← readTypeLength buf
  if rest.length < length then
    .error (.tlvError "Not enough bytes in the buffer to fully parse TLV")
  else .ok ⟨type, upTo buf rest, rest.take length, []⟩

/-- The loop of `Block::parse`; an element takes at least two octets, so `fuel` suffices. -/
def parseLoop (after : List UInt8) : Nat → List UInt8 → Raises (List Block)
  | 0, _ => .ok []
  | fuel + 1, bs =>
    if bs = [] then .ok []
    else do
      let (type, length, rest) ← readTypeLength bs
      if rest.length < length then
        .error (.tlvError (s!"TLV-LENGTH of sub-element of type {type} " ++
          "exceeds TLV-VALUE boundary of parent block"))
      else do
        let elements ← parseLoop after fuel (rest.drop length)
        return ⟨type, upTo bs rest, rest.take length, rest.drop length ++ after⟩ :: elements

/-- `Block::parse`: the sub-elements of an element. -/
def parse (b : Block) : Raises (List Block) := parseLoop b.after b.value.length b.value

/-- `Block::blockFromValue`: the value read as exactly one element. -/
def blockFromValue (b : Block) : Raises Block := do
  let (type, length, rest) ← readTypeLength b.value
  if length = rest.length then .ok ⟨type, upTo b.value rest, rest, b.after⟩
  else .error (.tlvError "TLV-LENGTH does not match buffer size")

/-! ### Reading the front of an element -/

/-- `tl` is the TLV-TYPE and TLV-LENGTH of such an element, whatever follows. -/
def Encodes (tl : List UInt8) (type length : Nat) : Prop :=
  ∀ r, readTypeLength (tl ++ r) = .ok (type, length, r)

variable {bs rest tl after : List UInt8} {type length fuel : Nat} {b : Block}
  {elements : List Block}

theorem readTypeLength_split (h : readTypeLength bs = .ok (type, length, rest)) :
    bs = upTo bs rest ++ rest ∧ Encodes (upTo bs rest) type length := by
  obtain ⟨⟨t, r₁⟩, htype, h⟩ := bind_eq_ok_iff.1 h
  obtain ⟨⟨l, r₂⟩, hlen, h⟩ := bind_eq_ok_iff.1 h
  obtain ⟨⟨t', r₁'⟩, hvar, htype⟩ := bind_eq_ok_iff.1 htype
  obtain ⟨rfl, rfl, rfl⟩ : t = type ∧ l = length ∧ r₂ = rest := by
    simpa [pure, Except.pure] using h
  split at htype
  · cases htype
  rename_i hbad
  obtain ⟨rfl, rfl⟩ : t' = t ∧ r₁' = r₁ := by simpa using htype
  obtain ⟨front₁, rfl, -, hread₁⟩ := Tlv.readVarNumber_split hvar
  obtain ⟨front₂, rfl, -, hread₂⟩ := Tlv.readVarNumber_split hlen
  have hup : upTo (front₁ ++ (front₂ ++ r₂)) r₂ = front₁ ++ front₂ := by
    rw [upTo, ← append_assoc]
    refine take_left' ?_
    simp only [length_append]
    omega
  rw [hup]
  refine ⟨by simp, fun r => ?_⟩
  rw [append_assoc]
  simp only [readTypeLength, Tlv.readType, hread₁, hread₂, bind, Except.bind,
    if_neg hbad, pure, Except.pure]

theorem fromBuffer_encodes {buf : List UInt8} (h : fromBuffer buf = .ok b) :
    Encodes b.tl b.type b.value.length := by
  obtain ⟨⟨type, length, rest⟩, hread, h⟩ := bind_eq_ok_iff.1 h
  dsimp only at h
  split at h
  · cases h
  · grind [readTypeLength_split]

theorem encodes_writeVarNumber (hpos : 0 < type) (htype : type < 2 ^ 32)
    (hlength : length < 2 ^ 64) :
    Encodes (Tlv.writeVarNumber type ++ Tlv.writeVarNumber length) type length := by
  intro r
  have hread₁ := Tlv.readVarNumber_writeVarNumber (n := type) (by omega)
    (Tlv.writeVarNumber length ++ r)
  have hread₂ := Tlv.readVarNumber_writeVarNumber hlength r
  have hbad : ¬ (type = 0 ∨ 2 ^ 32 ≤ type) := by omega
  rw [append_assoc]
  simp only [readTypeLength, Tlv.readType, hread₁, hread₂, bind, Except.bind, if_neg hbad, pure,
    Except.pure]

theorem Encodes.length_lt (h : Encodes tl type length) : length < 2 ^ 64 := by
  obtain ⟨⟨t, r₁⟩, -, h⟩ := bind_eq_ok_iff.1 (h [])
  obtain ⟨⟨l, r₂⟩, hlen, h⟩ := bind_eq_ok_iff.1 h
  obtain ⟨-, rfl, -⟩ : t = type ∧ l = length ∧ r₂ = [] := by
    simpa [pure, Except.pure] using h
  exact Tlv.readVarNumber_lt hlen

theorem Encodes.length_pos (h : Encodes tl type length) : 0 < tl.length := by
  rw [length_pos_iff]
  rintro rfl
  cases h []

theorem Encodes.type_bounds (h : Encodes tl type length) : 0 < type ∧ type < 2 ^ 32 := by
  obtain ⟨⟨t, r₁⟩, htype, h⟩ := bind_eq_ok_iff.1 (h [])
  obtain ⟨⟨l, r₂⟩, -, h⟩ := bind_eq_ok_iff.1 h
  obtain ⟨rfl, -, -⟩ : t = type ∧ l = length ∧ r₂ = [] := by
    simpa [pure, Except.pure] using h
  obtain ⟨r, -, hr⟩ := bind_eq_ok_iff.1 htype
  split at hr
  · cases hr
  · rename_i hok
    obtain rfl := Except.ok.inj hr
    omega

/-- Two encodings of which one starts the other are of the same element. -/
theorem Encodes.eq_of_append_eq {tl' value value' : List UInt8} {type' : Nat}
    (h : Encodes tl type value.length) (h' : Encodes tl' type' value'.length)
    (heq : tl' ++ value' = tl ++ value ++ rest) : type' = type ∧ value' = value := by
  have h1 := h (value ++ rest)
  have h2 := h' value'
  rw [← append_assoc, ← heq, h2, Except.ok.injEq, Prod.mk.injEq, Prod.mk.injEq] at h1
  obtain ⟨htype, hlength, hvalue⟩ := h1
  refine ⟨htype, ?_⟩
  have hrest : rest = [] := by
    rw [hvalue, length_append] at hlength
    exact eq_nil_of_length_eq_zero (by omega)
  rw [hvalue, hrest, append_nil]

/-- One round of `parse`: nothing is left, or an element is a view of the octets that are next. -/
theorem parseLoop_cases (h : parseLoop after (fuel + 1) bs = .ok elements) :
    (bs = [] ∧ elements = []) ∨ ∃ e rest tail, elements = e :: tail ∧ bs = e.wire ++ rest ∧
      e.after = rest ++ after ∧ Encodes e.tl e.type e.value.length ∧
      parseLoop after fuel rest = .ok tail := by
  by_cases hbs : bs = []
  · exact .inl ⟨hbs, by simpa [parseLoop, hbs, eq_comm] using h⟩
  rw [parseLoop, if_neg hbs] at h
  obtain ⟨⟨type, length, rest⟩, hread, h⟩ := bind_eq_ok_iff.1 h
  dsimp only at h
  split at h
  · cases h
  obtain ⟨tail, htail, h⟩ := bind_eq_ok_iff.1 h
  obtain ⟨hsplit, hencodes⟩ := readTypeLength_split hread
  have hvalue : (rest.take length).length = length := length_take_of_le (by omega)
  refine .inr ⟨_, rest.drop length, tail, (Except.ok.inj h).symm, ?_, rfl, ?_, htail⟩
  · rw [wire, append_assoc, take_append_drop]
    exact hsplit
  · simpa only [hvalue] using hencodes

theorem parseLoop_encodes (h : parseLoop after fuel bs = .ok elements) :
    ∀ b ∈ elements, Encodes b.tl b.type b.value.length := by
  induction fuel generalizing bs elements with
  | zero =>
    obtain rfl : [] = elements := by simpa [parseLoop] using h
    simp
  | succ fuel ih =>
    obtain ⟨-, rfl⟩ | ⟨e, rest, tail, rfl, -, -, hencodes, htail⟩ := parseLoop_cases h
    · simp
    · exact forall_mem_cons.2 ⟨hencodes, ih htail⟩

theorem parseLoop_wire (h : parseLoop after fuel bs = .ok elements) (hfuel : bs.length ≤ fuel) :
    elements.flatMap Block.wire = bs := by
  induction fuel generalizing bs elements with
  | zero =>
    obtain rfl : [] = elements := by simpa [parseLoop] using h
    exact (eq_nil_of_length_eq_zero (le_zero.1 hfuel)).symm
  | succ fuel ih =>
    obtain ⟨rfl, rfl⟩ | ⟨e, rest, tail, rfl, rfl, -, hencodes, htail⟩ := parseLoop_cases h
    · rfl
    · -- an element takes at least one octet
      have hpos := hencodes.length_pos
      rw [length_append, wire, length_append] at hfuel
      rw [flatMap_cons, ih htail (by omega)]

theorem parse_wire (h : b.parse = .ok elements) : elements.flatMap Block.wire = b.value :=
  parseLoop_wire h (le_refl _)

theorem parse_encodes (h : b.parse = .ok elements) :
    ∀ e ∈ elements, Encodes e.tl e.type e.value.length :=
  parseLoop_encodes h

end Block

end NdnMulticast.Ndn
