/-
  Name components and names, after `name-component.cpp`, `impl/name-component-types.hpp` and
  `name.cpp`.

  Components are compared by their encodings, which may differ between equal components
  because a received TLV-TYPE or TLV-LENGTH need not be minimal.  Decoding a name does not
  validate its components; constructing a component does.
-/

import NdnMulticast.Ndn.Tlv

namespace NdnMulticast.Ndn

open Lib List Bool

/-- `std::memcmp` over the common length of two regions. -/
def memcmp : List UInt8 → List UInt8 → Ordering
  | a :: as, b :: bs => (compare a.toNat b.toNat).then (memcmp as bs)
  | _, _ => .eq

theorem memcmp_eq_cases {as bs : List UInt8} (h : memcmp as bs = .eq) :
    (∃ rest, as = bs ++ rest) ∨ (∃ rest, bs = as ++ rest) := by
  induction as generalizing bs with
  | nil => exact Or.inr ⟨bs, rfl⟩
  | cons a as ih =>
    cases bs with
    | nil => exact Or.inl ⟨a :: as, rfl⟩
    | cons b bs =>
      rw [memcmp, Ordering.then_eq_eq] at h
      have hab : a = b := UInt8.toNat_inj.1 (compare_eq_iff_eq.1 h.1)
      subst hab
      rcases ih h.2 with ⟨rest, rfl⟩ | ⟨rest, rfl⟩
      · exact Or.inl ⟨rest, rfl⟩
      · exact Or.inr ⟨rest, rfl⟩

theorem memcmp_self (as : List UInt8) : memcmp as as = .eq := by
  induction as with
  | nil => rfl
  | cons a as ih => simp [memcmp, ih]

structure Component where
  type : Nat
  value : List UInt8
  /-- TLV-TYPE and TLV-LENGTH as encoded. -/
  tl : List UInt8
deriving DecidableEq, Repr

abbrev Name := List Component

/-- The rules of a component type, `name::detail::ComponentType` and the classes derived from it. -/
inductive ComponentType where
  | base
  | generic
  | sha256 (type : Nat) (typeName : String) (uriPrefix : String)
  | decimal (type : Nat) (typeName : String) (uriPrefix : String)
deriving DecidableEq, Repr

namespace ComponentType

/-- `util::Sha256::DIGEST_SIZE`. -/
def digestSize : Nat := 32

/-- The entries of `ComponentTypeTable`, with their TLV-TYPE. -/
def table : List (Nat × ComponentType) :=
  [(Tlv.implicitSha256DigestComponent,
      .sha256 Tlv.implicitSha256DigestComponent "ImplicitSha256DigestComponent" "sha256digest"),
    (Tlv.parametersSha256DigestComponent,
      .sha256 Tlv.parametersSha256DigestComponent "ParametersSha256DigestComponent"
        "params-sha256"),
    (Tlv.genericNameComponent, .generic),
    (Tlv.segmentNameComponent, .decimal Tlv.segmentNameComponent "SegmentNameComponent" "seg"),
    (Tlv.byteOffsetNameComponent,
      .decimal Tlv.byteOffsetNameComponent "ByteOffsetNameComponent" "off"),
    (Tlv.versionNameComponent, .decimal Tlv.versionNameComponent "VersionNameComponent" "v"),
    (Tlv.timestampNameComponent, .decimal Tlv.timestampNameComponent "TimestampNameComponent" "t"),
    (Tlv.sequenceNumNameComponent,
      .decimal Tlv.sequenceNumNameComponent "SequenceNumNameComponent" "seq")]

def get (type : Nat) : ComponentType := (table.lookup type).getD .base

theorem get_eq_base_or_mem (type : Nat) : get type = .base ∨ (type, get type) ∈ table := by
  cases hlook : table.lookup type with
  | none => exact Or.inl (by rw [get, hlook]; rfl)
  | some ct =>
    obtain ⟨l₁, l₂, hsplit, -⟩ := lookup_eq_some_iff.1 hlook
    refine Or.inr ?_
    rw [get, hlook, hsplit]
    simp

/-- `ComponentType::check`: only digest types constrain their value. -/
def check (value : List UInt8) : ComponentType → Raises Unit
  | .sha256 _ typeName _ =>
    if value.length = digestSize then .ok ()
    else .error (.tlvError s!"{typeName} TLV-LENGTH must be {digestSize}")
  | _ => .ok ()

def getMinValue : ComponentType → List UInt8
  | .sha256 .. => List.replicate digestSize 0
  | _ => []

end ComponentType

namespace Component

variable (c : Component)

def wire : List UInt8 := c.tl ++ c.value

def ensureValid (type : Nat) (value : List UInt8) : Raises Unit :=
  if type < Tlv.nameComponentMin ∨ Tlv.nameComponentMax < type then
    .error (.tlvError s!"TLV-TYPE {type} is not a valid NameComponent")
  else (ComponentType.get type).check value

/-- The shortest encoding of a TLV-TYPE and TLV-LENGTH. -/
def encodeTypeLength (type length : Nat) : List UInt8 :=
  Tlv.writeVarNumber type ++ Tlv.writeVarNumber length

/-- The validating constructors `Component(type, value)` and `Component(Block)`. -/
def make (type : Nat) (value : List UInt8) : Raises Component := do
  ensureValid type value
  return ⟨type, value, encodeTypeLength type value.length⟩

/-- A generic component with the given text; always valid. -/
def ofString (s : String) : Component :=
  ⟨Tlv.genericNameComponent, ascii s, encodeTypeLength Tlv.genericNameComponent (ascii s).length⟩

/-- `Component::equals`: the encoding of TLV-TYPE and TLV-LENGTH does not matter. -/
def equals (a b : Component) : Bool := a.type == b.type && a.value == b.value

/-- `Component::compare` for components that have a wire encoding. -/
def compare (a b : Component) : Ordering := memcmp a.wire b.wire

def isImplicitSha256Digest : Bool :=
  c.type == Tlv.implicitSha256DigestComponent && c.value.length == ComponentType.digestSize

def isParametersSha256Digest : Bool :=
  c.type == Tlv.parametersSha256DigestComponent && c.value.length == ComponentType.digestSize

def isNumber : Bool :=
  c.value.length == 1 || c.value.length == 2 || c.value.length == 4 || c.value.length == 8

def fromNumber (number type : Nat) : Raises Component :=
  make type (Tlv.nonNegativeInteger number)

/-- The loop of `getSuccessorImpl`, over the reversed value: adds one; whether the carry ran out. -/
def increment : List UInt8 → Bool × List UInt8
  | [] => (true, [])
  | b :: bs =>
    if b + 1 = 0 then ((increment bs).1, 0 :: (increment bs).2)
    else (false, (b + 1) :: bs)

/-- The next value, one octet longer when the old one was all `0xFF`. -/
def getSuccessorImpl (value : List UInt8) : Bool × List UInt8 :=
  let r := increment value.reverse
  if r.1 then (true, r.2.reverse ++ [0]) else (false, r.2.reverse)

/-- A digest whose value would have to grow is followed by the least component of the next type. -/
def getSuccessor : Raises Component :=
  let next := getSuccessorImpl c.value
  match ComponentType.get c.type with
  | .sha256 .. =>
    if next.1 then make (c.type + 1) (ComponentType.get (c.type + 1)).getMinValue
    else make c.type next.2
  | _ => make c.type next.2

/-! ### When a component has a successor -/

theorem increment_fst (bs : List UInt8) : (increment bs).1 = bs.all (· == 255) := by
  induction bs with
  | nil => rfl
  | cons b bs ih =>
    have hb : b + 1 = 0 ↔ b = 255 := by
      rw [← UInt8.toNat_inj, ← UInt8.toNat_inj, UInt8.toNat_add]
      have := b.toNat_lt
      simp
      omega
    by_cases h : b + 1 = 0
    · simp [increment, ih, hb.1 h]
    · simp [increment, h, mt hb.2 h]

theorem length_increment (bs : List UInt8) : (increment bs).2.length = bs.length := by
  induction bs with
  | nil => rfl
  | cons b bs ih =>
    by_cases h : b + 1 = 0 <;> simp [increment, h, ih]

theorem getSuccessorImpl_fst (value : List UInt8) :
    (getSuccessorImpl value).1 = value.all (· == 255) := by
  have h := increment_fst value.reverse
  rw [all_reverse] at h
  rw [← h, getSuccessorImpl]
  cases (increment value.reverse).1 <;> rfl

variable {value : List UInt8} {type : Nat} {a b : Component}

theorem length_getSuccessorImpl (h : value.all (· == 255) = false) :
    (getSuccessorImpl value).2.length = value.length := by
  have hfst := increment_fst value.reverse
  rw [all_reverse, h] at hfst
  simp [getSuccessorImpl, hfst, length_increment]

/-- The TLV-TYPEs whose value must be a SHA-256 digest. -/
def isDigestType (type : Nat) : Bool :=
  type == Tlv.implicitSha256DigestComponent || type == Tlv.parametersSha256DigestComponent

/-- What `Component::ensureValid` accepts. -/
def isValid (type : Nat) (value : List UInt8) : Bool :=
  decide (Tlv.nameComponentMin ≤ type ∧ type ≤ Tlv.nameComponentMax) &&
    (!isDigestType type || value.length == ComponentType.digestSize)

theorem get_of_isDigestType (h : isDigestType type = true) :
    ∃ typeName uriPrefix, ComponentType.get type = .sha256 type typeName uriPrefix := by
  simp only [isDigestType, or_eq_true, beq_iff_eq] at h
  rcases h with rfl | rfl
  · exact ⟨_, _, rfl⟩
  · exact ⟨_, _, rfl⟩

/-- Every type outside the two digest types is treated alike by `check` and by `getSuccessor`. -/
theorem get_of_not_isDigestType (h : isDigestType type = false) :
    ∀ t typeName uriPrefix, ComponentType.get type ≠ .sha256 t typeName uriPrefix := by
  simp only [isDigestType, or_eq_false_iff, beq_eq_false_iff_ne] at h
  intro t typeName uriPrefix hget
  rcases ComponentType.get_eq_base_or_mem type with hbase | hmem
  · exact absurd (hbase.symm.trans hget) (by simp)
  · rw [hget] at hmem
    simp [ComponentType.table] at hmem
    omega

theorem ensureValid_eq_ok_iff (type : Nat) (value : List UInt8) :
    ensureValid type value = .ok () ↔ isValid type value = true := by
  unfold ensureValid
  by_cases hrange : type < Tlv.nameComponentMin ∨ Tlv.nameComponentMax < type
  · have hnot : ¬ (Tlv.nameComponentMin ≤ type ∧ type ≤ Tlv.nameComponentMax) := by omega
    simp [isValid, hrange, hnot]
  · have hin : Tlv.nameComponentMin ≤ type ∧ type ≤ Tlv.nameComponentMax := by omega
    rw [if_neg hrange]
    by_cases hdigest : isDigestType type = true
    · obtain ⟨typeName, uriPrefix, hget⟩ := get_of_isDigestType hdigest
      by_cases hlen : value.length = ComponentType.digestSize
      · simp [isValid, hin, hdigest, hget, ComponentType.check, hlen]
      · simp [isValid, hdigest, hget, ComponentType.check, hlen]
    · have hother := get_of_not_isDigestType (eq_false_iff.2 hdigest)
      cases hget : ComponentType.get type with
      | sha256 t n u => exact absurd hget (hother t n u)
      | base | generic | decimal => simp [isValid, hin, hdigest, ComponentType.check]

theorem make_eq_ok_iff (type : Nat) (value : List UInt8) (c : Component) :
    make type value = .ok c ↔
      isValid type value = true ∧ c = ⟨type, value, encodeTypeLength type value.length⟩ := by
  rw [← ensureValid_eq_ok_iff, make]
  cases ensureValid type value with
  | error e => simp [bind, Except.bind]
  | ok u => simp [bind, Except.bind, pure, Except.pure, eq_comm]

/-- `Component::getSuccessor` returns: the TLV-TYPE is one of a name component, and a digest-typed
    value has the length of a digest or is all `0xFF` (or empty), when the successor has another
    type. -/
def hasSuccessor : Bool :=
  decide (Tlv.nameComponentMin ≤ c.type ∧ c.type ≤ Tlv.nameComponentMax) &&
    (!isDigestType c.type || c.value.length == ComponentType.digestSize || c.value.all (· == 255))

theorem exists_getSuccessor_iff : (∃ d, c.getSuccessor = .ok d) ↔ c.hasSuccessor = true := by
  have hmake : ∀ type value, (∃ d, make type value = .ok d) ↔ isValid type value = true := by
    intro type value
    simp [make_eq_ok_iff]
  by_cases hdigest : isDigestType c.type = true
  · obtain ⟨typeName, uriPrefix, hget⟩ := get_of_isDigestType hdigest
    have htype : c.type = 1 ∨ c.type = 2 := by
      simpa [isDigestType, Tlv.implicitSha256DigestComponent,
        Tlv.parametersSha256DigestComponent] using hdigest
    by_cases hall : c.value.all (· == 255) = true
    · -- the carry leaves the value: the least component of the next type
      have hnext : c.getSuccessor
          = make (c.type + 1) (ComponentType.get (c.type + 1)).getMinValue := by
        simp [getSuccessor, hget, getSuccessorImpl_fst, hall]
      rw [hnext, hmake]
      have hvalid : isValid (c.type + 1) (ComponentType.get (c.type + 1)).getMinValue = true := by
        rcases htype with h | h <;> rw [h] <;> decide
      have hrange : Tlv.nameComponentMin ≤ c.type ∧ c.type ≤ Tlv.nameComponentMax := by
        rcases htype with h | h <;> rw [h] <;> decide
      simp [hvalid, hasSuccessor, hrange, hall]
    · rw [not_eq_true] at hall
      have hnext : c.getSuccessor = make c.type (getSuccessorImpl c.value).2 := by
        simp [getSuccessor, hget, getSuccessorImpl_fst, hall]
      rw [hnext, hmake]
      simp [isValid, hasSuccessor, hdigest, hall, length_getSuccessorImpl hall]
  · have hother := get_of_not_isDigestType (eq_false_iff.2 hdigest)
    have hnext : c.getSuccessor = make c.type (getSuccessorImpl c.value).2 := by
      cases hget : ComponentType.get c.type with
      | sha256 t n u => exact absurd hget (hother t n u)
      | base | generic | decimal => simp [getSuccessor, hget]
    rw [hnext, hmake]
    simp [isValid, hasSuccessor, hdigest]

/-- The component as encoding a name that has no encoding of its own writes it. -/
def reencoded : Component := ⟨c.type, c.value, encodeTypeLength c.type c.value.length⟩

/-! ### Well-formed components -/

/-- `tl` encodes the type and the length of the value, as in every decoded component. -/
def WellFormed : Prop := Block.Encodes c.tl c.type c.value.length

theorem wellFormed_encode (hpos : 0 < type) (htype : type < 2 ^ 32)
    (hvalue : value.length < 2 ^ 64) :
    WellFormed ⟨type, value, encodeTypeLength type value.length⟩ :=
  Block.encodes_writeVarNumber hpos htype hvalue

theorem equals_of_compare_eq (ha : a.WellFormed) (hb : b.WellFormed) (h : a.compare b = .eq) :
    a.equals b = true := by
  rcases memcmp_eq_cases h with ⟨rest, hrest⟩ | ⟨rest, hrest⟩
  · obtain ⟨htype, hvalue⟩ := Block.Encodes.eq_of_append_eq hb ha hrest
    simp [equals, htype, hvalue]
  · obtain ⟨htype, hvalue⟩ := Block.Encodes.eq_of_append_eq ha hb hrest
    simp [equals, htype, hvalue]

/-- No encoding starts another one, so components compare equal only with the same encoding. -/
theorem compare_eq_iff (ha : a.WellFormed) (hb : b.WellFormed) :
    a.compare b = .eq ↔ a.wire = b.wire := by
  -- the octets after an encoding that starts another one
  have hnil : ∀ {a b : Component} {rest : List UInt8}, a.WellFormed → b.WellFormed →
      a.wire = b.wire ++ rest → a.wire = b.wire := by
    intro a b rest ha hb heq
    have hvalue := (Block.Encodes.eq_of_append_eq hb ha heq).2
    have hread := ha a.value
    have hread' := hb (b.value ++ rest)
    rw [← append_assoc, ← show a.wire = b.tl ++ b.value ++ rest from heq] at hread'
    have hsame := Except.ok.inj (hread.symm.trans hread')
    have hrest : a.value = b.value ++ rest := (Prod.mk.inj (Prod.mk.inj hsame).2).2
    rw [hvalue, self_eq_append_right] at hrest
    rw [heq, hrest, append_nil]
  constructor
  · intro h
    rcases memcmp_eq_cases h with ⟨rest, hrest⟩ | ⟨rest, hrest⟩
    · exact hnil ha hb hrest
    · exact (hnil hb ha hrest).symm
  · intro h
    rw [compare, h]
    exact memcmp_self _

end Component

namespace Name

/-- `Name::compare`: component by component, a proper prefix first. -/
def compare : Name → Name → Ordering
  | [], [] => .eq
  | [], _ :: _ => .lt
  | _ :: _, [] => .gt
  | a :: as, b :: bs => (a.compare b).then (compare as bs)

def equals : Name → Name → Bool
  | [], [] => true
  | a :: as, b :: bs => a.equals b && equals as bs
  | _, _ => false

def isPrefixOf : Name → Name → Bool
  | [], _ => true
  | _ :: _, [] => false
  | a :: as, b :: bs => a.equals b && isPrefixOf as bs

def getSubName (n : Name) (iStartComponent nComponents : Nat) : Name :=
  (n.drop iStartComponent).take nComponents

/-- The successor of the empty name: the least possible component. -/
def leastName : Name :=
  [⟨Tlv.implicitSha256DigestComponent, List.replicate ComponentType.digestSize 0,
    Component.encodeTypeLength Tlv.implicitSha256DigestComponent ComponentType.digestSize⟩]

def getSuccessor (n : Name) : Raises Name :=
  match n.getLast? with
  | none => .ok leastName
  | some last => do
      let next ← last.getSuccessor
      return n.dropLast ++ [next]

/-- `Name.getSuccessor` returns. -/
def hasSuccessor (n : Name) : Bool := n.getLast?.all Component.hasSuccessor

theorem exists_getSuccessor_iff (n : Name) :
    (∃ m, n.getSuccessor = .ok m) ↔ n.hasSuccessor = true := by
  unfold getSuccessor hasSuccessor
  cases n.getLast? with
  | none => simp
  | some last =>
    rw [Option.all_some, ← Component.exists_getSuccessor_iff last]
    cases hsucc : last.getSuccessor with
    | error e => simp [hsucc, bind, Except.bind]
    | ok d => simp [hsucc, bind, Except.bind, pure, Except.pure]

/-- All components are well formed. -/
def WellFormed (n : Name) : Prop := ∀ c ∈ n, Component.WellFormed c

variable {m n : Name}

theorem equals_of_compare_eq (hm : m.WellFormed) (hn : n.WellFormed) (h : m.compare n = .eq) :
    m.equals n = true := by
  induction m generalizing n with
  | nil =>
    cases n with
    | nil => rfl
    | cons b n => cases h
  | cons a m ih =>
    cases n with
    | nil => cases h
    | cons b n =>
      rw [compare, Ordering.then_eq_eq] at h
      have hab := Component.equals_of_compare_eq (hm a (by simp)) (hn b (by simp)) h.1
      have hrest := ih (fun c hc => hm c (by simp [hc])) (fun c hc => hn c (by simp [hc])) h.2
      rw [equals, hab, hrest]
      rfl

theorem compare_eq_iff (hm : m.WellFormed) (hn : n.WellFormed) :
    m.compare n = .eq ↔ m.map Component.wire = n.map Component.wire := by
  induction m generalizing n with
  | nil => cases n <;> simp [compare]
  | cons a m ih =>
    cases n with
    | nil => simp [compare]
    | cons b n =>
      have ha : a.WellFormed := hm a (.head _)
      have hb : b.WellFormed := hn b (.head _)
      rw [compare, Ordering.then_eq_eq, Component.compare_eq_iff ha hb,
        ih (fun c hc => hm c (.tail _ hc)) (fun c hc => hn c (.tail _ hc)),
        map_cons, map_cons, List.cons.injEq]

theorem equals_iff :
    m.equals n = true ↔ m.map (fun c => (c.type, c.value)) = n.map fun c => (c.type, c.value) := by
  induction m generalizing n with
  | nil => cases n <;> simp [equals]
  | cons a m ih =>
    cases n with
    | nil => simp [equals]
    | cons b n => simp [equals, Component.equals, ih]

theorem equals_of_take_of_drop (k : Nat) (hfirst : equals (m.take k) (n.take k) = true)
    (hrest : equals (m.drop k) (n.drop k) = true) : m.equals n = true := by
  rw [equals_iff] at hfirst hrest ⊢
  rw [← take_append_drop k m, ← take_append_drop k n, map_append, map_append, hfirst, hrest]

/-- What `Name::wireEncode` makes of a name put together from components, such as by
    `Name::getPrefix`: each is encoded anew, in the shortest way. -/
def reencoded (n : Name) : Name := n.map Component.reencoded

/-- The octets of the components, which the name tree and the dead nonce list hash. -/
def wireValue (n : Name) : List UInt8 := n.flatMap Component.wire

end Name

end NdnMulticast.Ndn
