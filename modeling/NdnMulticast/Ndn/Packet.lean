/-
  Interest and Data packets: `Interest::wireDecode` with its ForwardingHint,
  `Data::wireDecode` with its MetaInfo and SignatureInfo, and `Interest::matchesData`.
  SHA-256 comes from OpenSSL and is a parameter.
-/

import NdnMulticast.Ndn.Name

namespace NdnMulticast.Ndn

open Lib List Block Except Name

/-- Conversion of a `uint64_t` to the signed 64-bit count of a duration. -/
def toInt64 (n : Nat) : Int := Int.bmod n (2 ^ 64)

/-- `readNonNegativeIntegerAs` for a type with the given greatest value. -/
def readNonNegativeIntegerAs (max : Nat) (b : Block) : Raises Nat := do
  let n ← Tlv.readNonNegativeInteger b.value
  if max < n then .error (.tlvError s!"Value in TLV element of type {b.type} is too large")
  else .ok n

def Component.ofBlock (b : Block) : Component := ⟨b.type, b.value, b.tl⟩

/-- `Component::Component(const Block&)`. -/
def Component.fromBlock (b : Block) : Raises Component := do
  Component.ensureValid b.type b.value
  return .ofBlock b

/-- `Name::Name(const Block&)`: the components are not validated. -/
def Name.fromBlock (b : Block) : Raises Name := do
  let elements ← b.parse
  return elements.map .ofBlock

theorem Name.fromBlock_wellFormed {b : Block} {n : Name} (h : fromBlock b = .ok n) :
    n.WellFormed := by
  obtain ⟨elements, hparse, h⟩ := bind_eq_ok_iff.1 h
  obtain rfl : elements.map Component.ofBlock = n := by simpa [pure, Except.pure] using h
  intro c hc
  obtain ⟨e, he, rfl⟩ := mem_map.1 hc
  exact parse_encodes hparse e he

def Name.wireDecode (b : Block) : Raises Name :=
  if b.type ≠ Tlv.name then .error (Tlv.typeMismatch "Name" b.type) else Name.fromBlock b

/-! ## Data -/

structure MetaInfo where
  contentType : Nat
  /-- Milliseconds. -/
  freshnessPeriod : Int
  finalBlockId : Option Component
  appMetaInfo : List Block
deriving DecidableEq, Repr

namespace MetaInfo

/-- A default-constructed `MetaInfo`. -/
def default : MetaInfo := ⟨0, 0, none, []⟩

/-- Splits off the first element if it has the given type. -/
def takeElement (type : Nat) : List Block → Option Block × List Block
  | b :: bs => if b.type = type then (some b, bs) else (none, b :: bs)
  | [] => (none, [])

def wireDecode (wire : Block) : Raises MetaInfo := do
  let elements ← wire.parse
  let (ct, elements) := takeElement Tlv.contentType elements
  let contentType ← match ct with
    | some b => readNonNegativeIntegerAs (2 ^ 32 - 1) b
    | none => .ok 0
  let (fp, elements) := takeElement Tlv.freshnessPeriod elements
  let freshnessPeriod ← match fp with
    | some b => (Tlv.readNonNegativeInteger b.value).map toInt64
    | none => .ok 0
  let (fb, elements) := takeElement Tlv.finalBlockId elements
  let finalBlockId ← match fb with
    | some b => do
        let inner ← b.blockFromValue
        (Component.fromBlock inner).map some
    | none => .ok none
  return ⟨contentType, freshnessPeriod, finalBlockId, elements⟩

end MetaInfo

/-- What a KeyLocator holds. -/
inductive KeyLocator where
  | empty
  | name (name : Name)
  | keyDigest (digest : Block)
  | unsupported (type : Nat)
deriving DecidableEq, Repr

def KeyLocator.wireDecode (wire : Block) : Raises KeyLocator := do
  if wire.type ≠ Tlv.keyLocator then .error (Tlv.typeMismatch "KeyLocator" wire.type)
  else
    match ← wire.parse with
    | [] => return .empty
    | b :: _ =>
      if b.type = Tlv.name then return .name (← Name.fromBlock b)
      else if b.type = Tlv.keyDigest then return .keyDigest b
      else return .unsupported b.type

structure SignatureInfo where
  type : Option Nat
  keyLocator : Option KeyLocator
  otherTlvs : List Block
deriving DecidableEq, Repr

namespace SignatureInfo

/-- One iteration of the loop of `SignatureInfo::wireDecode`; the number is
    `lastCriticalElement`. -/
def decodeElement (acc : Nat × SignatureInfo) (b : Block) : Raises (Nat × SignatureInfo) :=
  let other := { acc.2 with otherTlvs := acc.2.otherTlvs ++ [b] }
  if b.type = Tlv.signatureType then
    if 0 < acc.1 then .error (.tlvError "SignatureType element is repeated or out-of-order")
    else do
      let type ← readNonNegativeIntegerAs (2 ^ 16 - 1) b
      return (1, { acc.2 with type := some type })
  else if b.type = Tlv.keyLocator then
    if 1 < acc.1 then .error (.tlvError "KeyLocator element is repeated or out-of-order")
    else do
      let keyLocator ← KeyLocator.wireDecode b
      return (2, { acc.2 with keyLocator := some keyLocator })
  else if b.type = Tlv.signatureNonce then
    if b.value = [] then .error (.tlvError "SignatureNonce element cannot be empty")
    else .ok (acc.1, other)
  else if b.type = Tlv.validityPeriod then .ok (acc.1, other)
  else if Tlv.isCriticalType b.type then
    .error (.tlvError s!"Unrecognized element of critical type {b.type}")
  else .ok (acc.1, other)

/-- `SignatureInfo::wireDecode` of the SignatureInfo element of a Data. -/
def wireDecode (wire : Block) : Raises SignatureInfo := do
  let elements ← wire.parse
  if wire.type ≠ Tlv.signatureInfo then .error (Tlv.typeMismatch "SignatureInfo" wire.type)
  else do
    let (_, info) ← elements.foldlM decodeElement (0, ⟨none, none, []⟩)
    if info.type = none then .error (.tlvError "Missing SignatureType in SignatureInfo")
    else return info

end SignatureInfo

structure Data where
  name : Name
  metaInfo : MetaInfo
  content : Option Block
  signatureInfo : Option SignatureInfo
  signatureValue : Option Block
  /-- The encoding of the whole packet. -/
  wire : List UInt8
  /-- The link layer attached a CachePolicy of `NO_CACHE`. -/
  noCache : Bool
deriving DecidableEq, Repr

namespace Data

/-- One iteration of the loop of `Data::wireDecode`; the number is `lastElement`. -/
def decodeElement (acc : Nat × Data) (b : Block) : Raises (Nat × Data) :=
  if b.type = Tlv.metaInfo then
    if 2 ≤ acc.1 then .error (.tlvError "MetaInfo element is out of order")
    else do
      let metaInfo ← MetaInfo.wireDecode b
      return (2, { acc.2 with metaInfo })
  else if b.type = Tlv.content then
    if 3 ≤ acc.1 then .error (.tlvError "Content element is out of order")
    else .ok (3, { acc.2 with content := some b })
  else if b.type = Tlv.signatureInfo then
    if 4 ≤ acc.1 then .error (.tlvError "SignatureInfo element is out of order")
    else do
      let signatureInfo ← SignatureInfo.wireDecode b
      return (4, { acc.2 with signatureInfo := some signatureInfo })
  else if b.type = Tlv.signatureValue then
    if 5 ≤ acc.1 then .error (.tlvError "SignatureValue element is out of order")
    else .ok (5, { acc.2 with signatureValue := some b })
  else if Tlv.isCriticalType b.type then
    .error (.tlvError s!"Unrecognized element of critical type {b.type}")
  else .ok acc

/-- `Data::wireDecode`.  The link layer's tag is not part of the packet. -/
def wireDecode (wire : Block) : Raises Data :=
  if wire.type ≠ Tlv.data then .error (Tlv.typeMismatch "Data" wire.type)
  else do
    match ← wire.parse with
    | [] => .error (.tlvError "Name element is missing or out of order")
    | first :: elements =>
      if first.type ≠ Tlv.name then .error (.tlvError "Name element is missing or out of order")
      else do
        let name ← Name.wireDecode first
        let blank : Data := ⟨name, .default, none, none, none, wire.wire, false⟩
        let (_, data) ← elements.foldlM decodeElement (1, blank)
        if data.signatureInfo = none then
          .error (.tlvError "SignatureInfo element is missing")
        else if data.signatureValue = none then
          .error (.tlvError "SignatureValue element is missing")
        else return data

/-- No element changes the name or lowers `lastElement`, and only MetaInfo changes the MetaInfo. -/
theorem decodeElement_keeps {acc acc' : Nat × Data} {b : Block}
    (h : decodeElement acc b = .ok acc') :
    acc'.2.name = acc.2.name ∧ acc.1 ≤ acc'.1 ∧
      (b.type ≠ Tlv.metaInfo → acc'.2.metaInfo = acc.2.metaInfo) := by
  unfold decodeElement at h
  by_cases h1 : b.type = Tlv.metaInfo
  · rw [if_pos h1] at h
    split_ifs at h
    obtain ⟨m, -, h⟩ := bind_eq_ok_iff.1 h
    obtain rfl := ok.inj h
    exact ⟨rfl, by omega, fun hne => absurd h1 hne⟩
  by_cases h2 : b.type = Tlv.content
  · grind
  by_cases h3 : b.type = Tlv.signatureInfo
  · rw [if_pos h3] at h
    split_ifs at h
    obtain ⟨si, -, h⟩ := bind_eq_ok_iff.1 h
    obtain rfl := ok.inj h
    exact ⟨rfl, by omega, fun _ => rfl⟩
  by_cases h4 : b.type = Tlv.signatureValue
  · grind
  split_ifs at h
  obtain rfl := Except.ok.inj h
  exact ⟨rfl, le_refl _, fun _ => rfl⟩

variable {wire : Block}

/-- An accepted Data is a Name element and what the loop made of the others. -/
theorem exists_fold_of_wireDecode {d : Data} (h : wireDecode wire = .ok d) :
    ∃ first elements last, wire.parse = .ok (first :: elements) ∧ first.type = Tlv.name ∧
      fromBlock first = .ok d.name ∧
      elements.foldlM decodeElement (1, ⟨d.name, .default, none, none, none, wire.wire, false⟩) =
        .ok (last, d) := by
  unfold wireDecode at h
  split_ifs at h
  obtain ⟨elements, hparse, h⟩ := bind_eq_ok_iff.1 h
  cases elements with
  | nil => cases h
  | cons first elements =>
    dsimp only at h
    split_ifs at h with htype
    obtain ⟨name, hname, h⟩ := bind_eq_ok_iff.1 h
    obtain ⟨⟨last, data⟩, hfold, h⟩ := bind_eq_ok_iff.1 h
    rw [Name.wireDecode, if_neg htype] at hname
    obtain rfl : data = d := by
      split_ifs at h
      exact Except.ok.inj h
    obtain rfl : data.name = name :=
      foldlM_invariant (fun acc : Nat × Data => acc.2.name = name)
        (fun acc b _ acc' hacc hb => (decodeElement_keeps hb).1.trans hacc) hfold rfl
    exact ⟨first, elements, last, hparse, Decidable.not_not.1 htype, hname, hfold⟩

theorem wireDecode_wellFormed {d : Data} (h : wireDecode wire = .ok d) : d.name.WellFormed := by
  obtain ⟨first, elements, last, -, -, hname, -⟩ := exists_fold_of_wireDecode h
  exact fromBlock_wellFormed hname

def getFullName (sha256 : List UInt8 → List UInt8) (d : Data) : Name :=
  d.name ++ [⟨Tlv.implicitSha256DigestComponent, sha256 d.wire,
    Component.encodeTypeLength Tlv.implicitSha256DigestComponent (sha256 d.wire).length⟩]

/-- `Data::getFreshnessPeriod`, in milliseconds. -/
def getFreshnessPeriod (d : Data) : Int := d.metaInfo.freshnessPeriod

end Data

/-! ## Interest -/

structure Delegation where
  preference : Nat
  name : Name
deriving DecidableEq, Repr

namespace Delegation

/-- `operator<`: by preference, then by name. -/
def lt (a b : Delegation) : Bool :=
  ((Ord.compare a.preference b.preference).then (a.name.compare b.name)) == .lt

/-- `DelegationList::insertImpl` into a sorted list: before the first greater element. -/
def insertImpl (del : Delegation) : List Delegation → List Delegation
  | [] => [del]
  | d :: ds => if del.lt d then del :: d :: ds else d :: insertImpl del ds

/-- One iteration of the loop of `DelegationList::wireDecode`. -/
def decodeElement (dels : List Delegation) (b : Block) : Raises (List Delegation) :=
  if b.type ≠ Tlv.linkDelegation then
    .error (.tlvError s!"Unexpected TLV-TYPE {b.type} while decoding Delegation")
  else do
    match ← b.parse with
    | [] => .error (.tlvError "Missing Preference field in Delegation")
    | p :: rest =>
      if p.type ≠ Tlv.linkPreference then
        .error (.tlvError "Missing Preference field in Delegation")
      else
        match Tlv.readNonNegativeInteger p.value with
        | .error _ => .error (.tlvError "Invalid Preference field in Delegation")
        | .ok preference =>
          match rest with
          | [] => .error (.tlvError "Missing Name field in Delegation")
          | n :: _ =>
            if n.type ≠ Tlv.name then
              .error (.tlvError "Missing Name field in Delegation")
            else
              match Name.wireDecode n with
              | .error _ => .error (.tlvError "Invalid Name field in Delegation")
              | .ok name => .ok (insertImpl ⟨preference, name⟩ dels)

/-- `DelegationList::wireDecode` of a ForwardingHint element. -/
def wireDecodeList (wire : Block) : Raises (List Delegation) := do
  let elements ← wire.parse
  let dels ← elements.foldlM decodeElement []
  if dels = [] then .error (.tlvError "Empty DelegationList") else .ok dels

end Delegation

structure Interest where
  name : Name
  canBePrefix : Bool
  mustBeFresh : Bool
  forwardingHint : List Delegation
  nonce : Option (List UInt8)
  /-- Milliseconds. -/
  interestLifetime : Int
  hopLimit : Option Nat
  parameters : List Block
  /-- NextHopFaceId attached by the link layer. -/
  nextHopFaceId : Option Nat
  /-- PIT token attached by the link layer. -/
  pitToken : Option (List UInt8)
deriving DecidableEq, Repr

namespace Interest

/-- `DEFAULT_INTEREST_LIFETIME`, in milliseconds. -/
def defaultInterestLifetime : Int := 4000

/-- The positions of the parameters digest components of a name. -/
def parametersDigestComponents (n : Name) : List Component :=
  n.filter Component.isParametersSha256Digest

/-- One iteration of the loop of `Interest::wireDecode`; the number is `lastElement`. -/
def decodeElement (acc : Nat × Interest) (b : Block) : Raises (Nat × Interest) :=
  if b.type = Tlv.canBePrefix then
    if 2 ≤ acc.1 then .error (.tlvError "CanBePrefix element is out of order")
    else if b.value ≠ [] then .error (.tlvError "CanBePrefix element has non-zero TLV-LENGTH")
    else .ok (2, { acc.2 with canBePrefix := true })
  else if b.type = Tlv.mustBeFresh then
    if 3 ≤ acc.1 then .error (.tlvError "MustBeFresh element is out of order")
    else if b.value ≠ [] then .error (.tlvError "MustBeFresh element has non-zero TLV-LENGTH")
    else .ok (3, { acc.2 with mustBeFresh := true })
  else if b.type = Tlv.forwardingHint then
    if 4 ≤ acc.1 then .error (.tlvError "ForwardingHint element is out of order")
    else do
      let forwardingHint ← Delegation.wireDecodeList b
      return (4, { acc.2 with forwardingHint })
  else if b.type = Tlv.nonce then
    if 5 ≤ acc.1 then .error (.tlvError "Nonce element is out of order")
    else if b.value.length ≠ 4 then .error (.tlvError "Nonce element is malformed")
    else .ok (5, { acc.2 with nonce := some b.value })
  else if b.type = Tlv.interestLifetime then
    if 6 ≤ acc.1 then .error (.tlvError "InterestLifetime element is out of order")
    else do
      let lifetime ← Tlv.readNonNegativeInteger b.value
      return (6, { acc.2 with interestLifetime := toInt64 lifetime })
  else if b.type = Tlv.hopLimit then
    if 7 ≤ acc.1 then .ok acc   -- non-critical: an out-of-order HopLimit is ignored
    else
      match b.value with
      | [limit] => .ok (7, { acc.2 with hopLimit := some limit.toNat })
      | _ => .error (.tlvError "HopLimit element is malformed")
  else if b.type = Tlv.applicationParameters then
    if 8 ≤ acc.1 then .ok acc
    else .ok (8, { acc.2 with parameters := acc.2.parameters ++ [b] })
  else if Tlv.isCriticalType b.type then
    .error (.tlvError s!"Unrecognized element of critical type {b.type}")
  else if acc.2.parameters = [] then .ok acc
  else .ok (acc.1, { acc.2 with parameters := acc.2.parameters ++ [b] })

/-- `Interest::isParametersDigestValid`, for a name with at most one parameters digest component. -/
def isParametersDigestValid (sha256 : List UInt8 → List UInt8) (i : Interest) : Bool :=
  match parametersDigestComponents i.name with
  | [] => i.parameters == []
  | c :: _ => i.parameters != [] && c.value == sha256 (i.parameters.flatMap Block.wire)

/-- `Interest::wireDecode`, with the static `s_autoCheckParametersDigest` as its first argument: on
    by default, and switched off by `Nfd::Nfd`.  The tags of the link layer are not part of it. -/
def wireDecode (autoCheckParametersDigest : Bool) (sha256 : List UInt8 → List UInt8)
    (wire : Block) : Raises Interest :=
  if wire.type ≠ Tlv.interest then .error (Tlv.typeMismatch "Interest" wire.type)
  else do
    match ← wire.parse with
    | [] => .error (.tlvError "Name element is missing or out of order")
    | first :: elements =>
      if first.type ≠ Tlv.name then .error (.tlvError "Name element is missing or out of order")
      else do
        let name ← Name.fromBlock first
        if name = [] then .error (.tlvError "Name has zero name components")
        else if 2 ≤ (parametersDigestComponents name).length then
          .error (.tlvError "Name has more than one ParametersSha256DigestComponent")
        else do
          let blank : Interest :=
            ⟨name, false, false, [], none, defaultInterestLifetime, none, [], none, none⟩
          let (_, interest) ← elements.foldlM decodeElement (1, blank)
          if autoCheckParametersDigest && !isParametersDigestValid sha256 interest then
            .error (.tlvError ("ParametersSha256DigestComponent does not match " ++
              "the SHA-256 of Interest parameters"))
          else return interest

theorem name_withLifetime (i : Interest) (ms : Int) :
    ({ i with interestLifetime := ms }).name = i.name := rfl

/-- No element changes the name read before it or lowers `lastElement`, and only InterestLifetime
    changes the lifetime. -/
theorem decodeElement_keeps {acc acc' : Nat × Interest} {b : Block}
    (h : decodeElement acc b = .ok acc') :
    acc'.2.name = acc.2.name ∧ acc.1 ≤ acc'.1 ∧
      (b.type ≠ Tlv.interestLifetime → acc'.2.interestLifetime = acc.2.interestLifetime) := by
  have hok : ∀ x : Nat × Interest, (.ok x : Raises (Nat × Interest)) = .ok acc' →
      x.2.name = acc.2.name → acc.1 ≤ x.1 → x.2.interestLifetime = acc.2.interestLifetime →
      acc'.2.name = acc.2.name ∧ acc.1 ≤ acc'.1 ∧
        (b.type ≠ Tlv.interestLifetime → acc'.2.interestLifetime = acc.2.interestLifetime) := by
    intro x hx hname hlast hlifetime
    obtain rfl := Except.ok.inj hx
    exact ⟨hname, hlast, fun _ => hlifetime⟩
  unfold decodeElement at h
  by_cases h1 : b.type = Tlv.canBePrefix
  · grind
  by_cases h2 : b.type = Tlv.mustBeFresh
  · grind
  by_cases h3 : b.type = Tlv.forwardingHint
  · rw [if_pos h3] at h
    split_ifs at h
    obtain ⟨hint, -, h⟩ := bind_eq_ok_iff.1 h
    exact hok _ h rfl (by omega) rfl
  by_cases h4 : b.type = Tlv.nonce
  · grind
  by_cases h5 : b.type = Tlv.interestLifetime
  · rw [if_pos h5] at h
    split_ifs at h
    obtain ⟨lifetime, -, h⟩ := bind_eq_ok_iff.1 h
    rw [← Except.ok.inj h]
    exact ⟨name_withLifetime _ _, by omega, fun hne => absurd h5 hne⟩
  by_cases h6 : b.type = Tlv.hopLimit
  · grind
  split_ifs at h
  · exact hok _ h rfl (le_refl _) rfl
  · exact hok _ h rfl (by omega) rfl
  · exact hok _ h rfl (le_refl _) rfl
  · exact hok _ h rfl (le_refl _) rfl

/-- The Interest before its elements after the name are read. -/
def blank (name : Name) : Interest :=
  ⟨name, false, false, [], none, defaultInterestLifetime, none, [], none, none⟩

variable {check : Bool} {sha256 : List UInt8 → List UInt8} {wire : Block} {i : Interest}

section

variable (h : wireDecode check sha256 wire = .ok i)
include h

/-- An accepted Interest is a Name element and what the loop made of the others. -/
theorem exists_fold_of_wireDecode :
    ∃ first elements last, wire.parse = .ok (first :: elements) ∧ first.type = Tlv.name ∧
      fromBlock first = .ok i.name ∧
      elements.foldlM decodeElement (1, blank i.name) = .ok (last, i) ∧
      (check = true → isParametersDigestValid sha256 i = true) ∧ i.name ≠ [] := by
  unfold wireDecode at h
  split_ifs at h
  obtain ⟨elements, hparse, h⟩ := bind_eq_ok_iff.1 h
  cases elements with
  | nil => cases h
  | cons first elements =>
    dsimp only at h
    split_ifs at h with htype
    obtain ⟨name, hname, h⟩ := bind_eq_ok_iff.1 h
    split_ifs at h with hne
    obtain ⟨⟨last, interest⟩, hfold, h⟩ := bind_eq_ok_iff.1 h
    split_ifs at h with hvalid
    obtain rfl := Except.ok.inj h
    obtain rfl : interest.name = name :=
      foldlM_invariant (fun acc : Nat × Interest => acc.2.name = name)
        (fun acc b _ acc' hacc hb => (decodeElement_keeps hb).1.trans hacc) hfold rfl
    exact ⟨first, elements, last, hparse, Decidable.not_not.1 htype, hname, hfold,
      by simpa using hvalid, hne⟩

theorem wireDecode_wellFormed : i.name.WellFormed := by
  obtain ⟨first, elements, last, -, -, hname, -⟩ := exists_fold_of_wireDecode h
  exact fromBlock_wellFormed hname

end

def matchesData (sha256 : List UInt8 → List UInt8) (i : Interest) (d : Data) : Bool :=
  let nameMatches :=
    if i.name.length = d.name.length + 1 then
      -- as long as the full name: only a digest can match
      i.name.getLast?.any Component.isImplicitSha256Digest && i.name.equals (d.getFullName sha256)
    else if i.canBePrefix then i.name.isPrefixOf d.name
    else i.name.equals d.name
  nameMatches && !(i.mustBeFresh && decide (d.getFreshnessPeriod ≤ 0))

def matchesInterest (i other : Interest) : Bool :=
  i.name.equals other.name && i.canBePrefix == other.canBePrefix &&
    i.mustBeFresh == other.mustBeFresh

end Interest

end NdnMulticast.Ndn
