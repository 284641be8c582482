/-
  The URI representation of names: `escape`, `unescape` and the hex helpers of
  `util/string-helper.cpp`, `Component::toUri`, `Component::fromEscapedString` and
  `Name::Name(std::string)`.

  Whether names are written in the alternate format depends on the environment variable
  `NDN_NAME_ALT_URI`; it is the parameter `altUri`.
-/

import NdnMulticast.Ndn.Name

namespace NdnMulticast.Ndn

open Lib List Component Tlv Nat

/-! ## Escaping -/

variable (value : List UInt8) (wantUpperCase : Bool)

def toHexChar (n : Nat) : UInt8 :=
  (ascii (if wantUpperCase then "0123456789ABCDEF" else "0123456789abcdef")).getD (n % 16) 0

/-- `fromHexChar`, with `none` for -1. -/
def fromHexChar (c : UInt8) : Option Nat :=
  if 48 ≤ c.toNat ∧ c.toNat ≤ 57 then some (c.toNat - 48)
  else if 65 ≤ c.toNat ∧ c.toNat ≤ 70 then some (c.toNat - 55)
  else if 97 ≤ c.toNat ∧ c.toNat ≤ 102 then some (c.toNat - 87)
  else none

/-- Letters, digits and `-`, `.`, `_`, `~`. -/
def isUnreserved (c : UInt8) : Bool :=
  decide (97 ≤ c.toNat ∧ c.toNat ≤ 122 ∨ 65 ≤ c.toNat ∧ c.toNat ≤ 90 ∨
    48 ≤ c.toNat ∧ c.toNat ≤ 57) || c == 45 || c == 46 || c == 95 || c == 126

def hexPair (c : UInt8) : List UInt8 :=
  [toHexChar wantUpperCase (c.toNat / 16), toHexChar wantUpperCase c.toNat]

def escapeByte (c : UInt8) : List UInt8 :=
  if isUnreserved c then [c] else 37 :: hexPair true c

def escape (bs : List UInt8) : List UInt8 := bs.flatMap escapeByte

/-- A percent sign without two hex digits after it is copied through. -/
def unescape : List UInt8 → List UInt8
  | 37 :: h :: l :: rest =>
    match fromHexChar h, fromHexChar l with
    | some hi, some lo => UInt8.ofNat (16 * hi + lo) :: unescape rest
    | _, _ => 37 :: h :: l :: unescape rest
  | c :: rest => c :: unescape rest
  | [] => []

/-- `printHex` over a byte range, lower case. -/
def printHex (bs : List UInt8) : List UInt8 := bs.flatMap (hexPair false)

/-- `fromHex`: fails on odd input and on characters that are not hex digits. -/
def fromHex : List UInt8 → Option (List UInt8)
  | [] => some []
  | [_] => none
  | h :: l :: rest =>
    match fromHexChar h, fromHexChar l with
    | some hi, some lo => (fromHex rest).map (UInt8.ofNat (16 * hi + lo) :: ·)
    | _, _ => none

/-! ## Components -/

/-- `writeUriEscapedValue`: three periods are put before a value that consists of periods only. -/
def writeUriEscapedValue : List UInt8 :=
  (if value.all (· == 46) then [46, 46, 46] else []) ++ escape value

def parseUriEscapedValue (type : Nat) (input : List UInt8) : Raises Component :=
  let value := unescape input
  if value.all (· == 46) then
    if value.length < 3 then
      .error (.tlvError "Illegal URI (name component cannot be . or ..)")
    else Component.make type (value.take (value.length - 3))
  else Component.make type value

namespace ComponentType

/-- The plain syntax `<type-number>=<escaped-value>`. -/
def writeCanonicalUri (c : Component) : List UInt8 :=
  Lib.decimal c.type ++ 61 :: writeUriEscapedValue c.value

def writeUri (c : Component) : ComponentType → List UInt8
  | .base => writeCanonicalUri c
  | .generic => writeUriEscapedValue c.value
  | .sha256 _ _ uriPrefix => ascii uriPrefix ++ 61 :: printHex c.value
  | .decimal _ _ uriPrefix =>
    if c.isNumber then ascii uriPrefix ++ 61 :: Lib.decimal (Tlv.bigEndian c.value)
    else writeCanonicalUri c

def getAltUriPrefix : ComponentType → Option String
  | .sha256 _ _ uriPrefix => some uriPrefix
  | .decimal _ _ uriPrefix => some uriPrefix
  | _ => none

def findByUriPrefix (typePrefix : List UInt8) : Option ComponentType :=
  (table.map Prod.snd).find? fun ct => ct.getAltUriPrefix.any fun p => ascii p == typePrefix

/-- `ComponentType::parseAltUriValue`; only called for types that have an alternate prefix. -/
def parseAltUriValue (input : List UInt8) : ComponentType → Raises Component
  | .sha256 type typeName _ =>
    match fromHex input with
    | some value => Component.make type value
    | none => .error (.tlvError s!"Cannot convert to {typeName} (invalid hex encoding)")
  | .decimal type typeName _ =>
    match stoull input with
    | .error .invalidArgument =>
      .error (.tlvError s!"Cannot convert to {typeName} (invalid format)")
    | .error .outOfRange => .error (.tlvError s!"Cannot convert to {typeName} (out of range)")
    | .ok n =>
      if Lib.decimal n = input then Component.fromNumber n type
      else .error (.tlvError s!"Cannot convert to {typeName} (invalid format)")
  | .base => .error (.tlvError "unreachable")
  | .generic => .error (.tlvError "unreachable")

end ComponentType

namespace Component

/-- `Component::toUri` in the default format. -/
def toUri (altUri : Bool) (c : Component) : List UInt8 :=
  (if altUri then ComponentType.get c.type else .base).writeUri c

/-- `Component::fromEscapedString` for an input that contains an equal sign. -/
def fromTypedString (typePrefix value : List UInt8) : Raises Component :=
  let type := strtoul typePrefix
  if Tlv.nameComponentMin ≤ type ∧ type ≤ Tlv.nameComponentMax ∧ decimal type = typePrefix then
    parseUriEscapedValue type value
  else
    match ComponentType.findByUriPrefix typePrefix with
    | none => .error (.tlvError s!"Unknown TLV-TYPE '{ofAscii typePrefix}' in NameComponent URI")
    | some ct => ct.parseAltUriValue value

def fromEscapedString (input : List UInt8) : Raises Component :=
  match input.dropWhile (· != 61) with
  | [] => parseUriEscapedValue Tlv.genericNameComponent input
  | _ :: value => fromTypedString (input.takeWhile (· != 61)) value

end Component

/-! ## Names -/

/-- The text between slashes; nothing follows a final slash. -/
def uriSegments : List UInt8 → List (List UInt8)
  | [] => []
  | b :: bs =>
    if b = 47 then [] :: uriSegments bs
    else match uriSegments bs with
      | [] => [[b]]
      | c :: cs => (b :: c) :: cs

/-- Omits a leading protocol: a colon that comes before any slash. -/
def stripScheme (uri : List UInt8) : List UInt8 :=
  match uri.dropWhile (fun b => b != 58 && b != 47) with
  | 58 :: rest => rest
  | _ => uri

/-- Trims the leading slash and possibly the authority; `none` when there was
    only an authority. -/
def stripAuthority : List UInt8 → Option (List UInt8)
  | 47 :: 47 :: rest =>
    match rest.dropWhile (· != 47) with
    | [] => none
    | _ :: path => some path
  | 47 :: path => some path
  | path => some path

namespace Name

def toUri (altUri : Bool) (n : Name) : List UInt8 :=
  if n = [] then [47] else n.flatMap fun c => 47 :: c.toUri altUri

/-- `Name::Name(std::string uri)`. -/
def fromUri (uri : List UInt8) : Raises Name :=
  match stripAuthority (stripScheme uri) with
  | none => .ok []
  | some path => (uriSegments path).mapM Component.fromEscapedString

end Name

/-! ## Escaping round trips -/

theorem fromHexChar_toHexChar (n : Nat) :
    fromHexChar (toHexChar wantUpperCase n) = some (n % 16) := by
  have htable : ∀ up : Bool, ∀ m < 16, fromHexChar ((ascii
      (if up then "0123456789ABCDEF" else "0123456789abcdef")).getD m 0) = some m := by
    decide
  exact htable wantUpperCase (n % 16) (mod_lt n (by decide))

theorem ofNat_hexPair (c : UInt8) : UInt8.ofNat (16 * (c.toNat / 16 % 16) + c.toNat % 16) = c := by
  have hlt := c.toNat_lt
  have hc : 16 * (c.toNat / 16 % 16) + c.toNat % 16 = c.toNat := by omega
  rw [hc]
  exact UInt8.ofNat_toNat

theorem fromHex_printHex (bs : List UInt8) : fromHex (printHex bs) = some bs := by
  induction bs with
  | nil => rfl
  | cons b bs ih =>
    have hcons : printHex (b :: bs)
        = toHexChar false (b.toNat / 16) :: toHexChar false b.toNat :: printHex bs := rfl
    simp only [hcons, fromHex, fromHexChar_toHexChar, ih, Option.map_some, ofNat_hexPair]

variable {c : UInt8} {bs part last : List UInt8}

theorem unescape_cons_of_ne (hc : c ≠ 37) (rest : List UInt8) :
    unescape (c :: rest) = c :: unescape rest := by
  rw [unescape]
  intro h l rest' heq
  exact absurd heq hc

theorem escape_eq_self (h : ∀ b ∈ bs, isUnreserved b = true) : escape bs = bs := by
  induction bs with
  | nil => rfl
  | cons b bs ih => simp_all [escapeByte, escape]

theorem unescape_escape (bs : List UInt8) : unescape (escape bs) = bs := by
  induction bs with
  | nil => rfl
  | cons b bs ih =>
    by_cases hb : isUnreserved b = true
    · have hne : b ≠ 37 := by
        rintro rfl
        exact absurd hb (by decide)
      have hcons : escape (b :: bs) = b :: escape bs := by
        simp [escape, escapeByte, hb]
      rw [hcons, unescape_cons_of_ne hne, ih]
    · have hcons : escape (b :: bs)
          = 37 :: toHexChar true (b.toNat / 16) :: toHexChar true b.toNat :: escape bs := by
        simp [escape, escapeByte, hb, hexPair]
      simp only [hcons, unescape, fromHexChar_toHexChar, ih, ofNat_hexPair]

theorem mem_escape (hc : c ∈ escape bs) : isUnreserved c = true ∨ c = 37 := by
  have hhex : ∀ m < 16, isUnreserved ((ascii "0123456789ABCDEF").getD m 0) = true := by decide
  have hchar : ∀ n, isUnreserved (toHexChar true n) = true :=
    fun n => hhex (n % 16) (mod_lt n (by decide))
  obtain ⟨b, -, hb⟩ := mem_flatMap.1 hc
  by_cases hun : isUnreserved b = true
  · simp_all [escapeByte]
  · grind [hexPair, escapeByte]

theorem writeUriEscapedValue_eq_escape :
    writeUriEscapedValue value
      = escape ((if value.all (· == 46) then [46, 46, 46] else []) ++ value) := by
  have hdots : escape [46, 46, 46] = [46, 46, 46] := by decide
  rw [writeUriEscapedValue, escape, escape, flatMap_append]
  split
  · rw [← escape, ← escape, hdots]
  · rfl

theorem ne_of_mem_writeUriEscapedValue {value : List UInt8} (hc : c ∈ writeUriEscapedValue value) :
    c ≠ 47 ∧ c ≠ 61 := by
  rw [writeUriEscapedValue_eq_escape] at hc
  rcases mem_escape hc with h | rfl
  · refine ⟨?_, ?_⟩
    · rintro rfl
      exact absurd h (by decide)
    · rintro rfl
      exact absurd h (by decide)
  · decide

theorem parseUriEscapedValue_write (type : Nat) (value : List UInt8) :
    parseUriEscapedValue type (writeUriEscapedValue value) = make type value := by
  rw [parseUriEscapedValue, writeUriEscapedValue_eq_escape, unescape_escape]
  by_cases hall : value.all (· == 46) = true
  · -- all periods: three are added, and the last three are dropped again
    have hrep : value = replicate value.length 46 := eq_replicate_iff.2 ⟨rfl, by simpa using hall⟩
    have hdots : [46, 46, 46] ++ value = replicate (value.length + 3) 46 := by
      rw [hrep, length_replicate, add_comm]
      simp [replicate_succ, add_comm 3]
    have htake : (replicate (value.length + 3) (46 : UInt8)).take value.length = value := by
      rw [take_replicate, min_eq_left (by omega), ← hrep]
    rw [if_pos hall, hdots]
    simp [htake]
  · simp [hall]

/-! ## Component round trip -/

namespace Component

variable (n : Int) (type : Nat) (value : List UInt8)

theorem fromEscapedString_typed {typePrefix : List UInt8} (hplain : ∀ c ∈ typePrefix, c ≠ 61) :
    fromEscapedString (typePrefix ++ 61 :: value) = fromTypedString typePrefix value := by
  have hbne : ∀ c ∈ typePrefix, (c != 61) = true := by simpa using hplain
  have hdrop : (typePrefix ++ 61 :: value).dropWhile (· != 61) = 61 :: value := by
    rw [dropWhile_append_of_pos hbne]
    rfl
  have htake : (typePrefix ++ 61 :: value).takeWhile (· != 61) = typePrefix := by
    rw [takeWhile_append_of_pos hbne]
    simp
  simp only [fromEscapedString, hdrop, htake]

theorem fromEscapedString_untyped {input : List UInt8} (hinput : ∀ c ∈ input, c ≠ 61) :
    fromEscapedString input = parseUriEscapedValue genericNameComponent input := by
  have hdrop : input.dropWhile (· != 61) = [] := by
    simpa using hinput
  simp only [fromEscapedString, hdrop]

theorem ne_of_isDigit {c : UInt8} (hc : isDigit c = true) : c ≠ 47 ∧ c ≠ 61 := by
  refine ⟨?_, ?_⟩
  · rintro rfl
    exact absurd hc (by decide)
  · rintro rfl
    exact absurd hc (by decide)

theorem findByUriPrefix_decimal (n : Nat) : ComponentType.findByUriPrefix (decimal n) = none := by
  obtain ⟨b, bs, hdec⟩ := exists_cons_of_ne_nil (decimal_ne_nil n)
  have hb : isDigit b = true := isDigit_of_mem_decimal n b (by simp [hdec])
  have hletter : ∀ c ∈ ascii "spovt", b ≠ c := by
    rintro c hc rfl
    have hnot : (ascii "spovt").all (fun c => !isDigit c) = true := by decide
    have hcb := all_eq_true.1 hnot _ hc
    simp [hb] at hcb
  rw [hdec, ComponentType.findByUriPrefix, find?_eq_none]
  simp [ComponentType.table, ComponentType.getAltUriPrefix, ascii] at hletter ⊢
  grind

/-- The plain syntax round-trips for every valid component, and raises for the others. -/
theorem fromTypedString_decimal (d : Component) :
    fromTypedString (decimal type) (writeUriEscapedValue value) = .ok d ↔
      make type value = .ok d := by
  by_cases hrange : nameComponentMin ≤ type ∧ type ≤ nameComponentMax
  · have hlt : type < 2 ^ 64 := by
      have := hrange.2
      simp only [nameComponentMax] at this
      omega
    simp only [fromTypedString, strtoul_decimal hlt, hrange, and_self, if_true,
      parseUriEscapedValue_write]
  · have hcond : ¬ (nameComponentMin ≤ strtoul (decimal type) ∧
        strtoul (decimal type) ≤ nameComponentMax ∧
        decimal (strtoul (decimal type)) = decimal type) := by
      rintro ⟨hmin, hmax, heq⟩
      rw [decimal_injective heq] at hmin hmax
      exact hrange ⟨hmin, hmax⟩
    have hinvalid : isValid type value = false := by simp [isValid, hrange]
    rw [fromTypedString, if_neg hcond, findByUriPrefix_decimal, make_eq_ok_iff, hinvalid]
    simp

/-- The alternate prefixes are found again, are no numbers, and have no slash and no equal sign. -/
theorem altUriPrefix_spec : ∀ entry ∈ ComponentType.table, ∀ p ∈ entry.2.getAltUriPrefix,
    ComponentType.findByUriPrefix (ascii p) = some entry.2 ∧ strtoul (ascii p) = 0 ∧
      ∀ c ∈ ascii p, c ≠ 47 ∧ c ≠ 61 := by
  decide +kernel

theorem fromEscapedString_alt {p : String} (hp : p ∈ (ComponentType.get type).getAltUriPrefix) :
    fromEscapedString (ascii p ++ 61 :: value)
      = (ComponentType.get type).parseAltUriValue value := by
  rcases ComponentType.get_eq_base_or_mem type with hbase | hmem
  · rw [hbase] at hp
    exact absurd hp (by simp [ComponentType.getAltUriPrefix])
  · obtain ⟨hfind, hstrtoul, hchars⟩ := altUriPrefix_spec _ hmem p hp
    rw [fromEscapedString_typed value fun c hc => (hchars c hc).2]
    simp [fromTypedString, hstrtoul, hfind, nameComponentMin]

theorem type_of_get : (∀ t n u, ComponentType.get type = .sha256 t n u → t = type) ∧
    (∀ t n u, ComponentType.get type = .decimal t n u → t = type) ∧
    (ComponentType.get type = .generic → type = genericNameComponent) := by
  have htable : ∀ entry ∈ ComponentType.table, match entry.2 with
      | .sha256 t _ _ => t = entry.1
      | .decimal t _ _ => t = entry.1
      | .generic => entry.1 = genericNameComponent
      | .base => True := by
    simp [ComponentType.table]
  rcases ComponentType.get_eq_base_or_mem type with hbase | hmem
  · simp [hbase]
  · grind

/-- The value after the URI has been parsed: a number in the alternate format comes back in its
    shortest encoding. -/
def uriValue (altUri : Bool) (c : Component) : List UInt8 :=
  match (if altUri then ComponentType.get c.type else .base) with
  | .decimal .. => if c.isNumber then Tlv.nonNegativeInteger (Tlv.bigEndian c.value) else c.value
  | _ => c.value

variable {c : Component} {b : UInt8}

theorem bigEndian_lt_of_isNumber (hc : c.isNumber = true) : bigEndian c.value < 2 ^ 64 := by
  have hlt := bigEndian_lt c.value
  have hlen : c.value.length ≤ 8 := by
    simp [isNumber] at hc
    omega
  calc bigEndian c.value < 256 ^ c.value.length := hlt
    _ ≤ 256 ^ 8 := Nat.pow_le_pow_right (by decide) hlen
    _ = 2 ^ 64 := by decide

/-- **Component round trip.**  Parsing the URI of a component is constructing the component anew. -/
theorem fromEscapedString_toUri (altUri : Bool) (c d : Component) :
    fromEscapedString (c.toUri altUri) = .ok d ↔ make c.type (c.uriValue altUri) = .ok d := by
  have hcanonical : fromEscapedString (ComponentType.writeCanonicalUri c) = .ok d ↔
      make c.type c.value = .ok d := by
    rw [ComponentType.writeCanonicalUri, fromEscapedString_typed, fromTypedString_decimal]
    exact fun b hb => (ne_of_isDigit (isDigit_of_mem_decimal _ b hb)).2
  cases altUri with
  | false => exact hcanonical
  | true =>
    obtain ⟨hsha, hdec, hgen⟩ := type_of_get c.type
    have hdef : c.toUri true = (ComponentType.get c.type).writeUri c := rfl
    have hval : c.uriValue true = match ComponentType.get c.type with
      | .decimal .. =>
        if c.isNumber then nonNegativeInteger (bigEndian c.value) else c.value
      | _ => c.value := rfl
    rw [hdef, hval]
    cases hget : ComponentType.get c.type with
    | base => exact hcanonical
    | generic =>
      simp only [ComponentType.writeUri]
      rw [fromEscapedString_untyped fun b hb => (ne_of_mem_writeUriEscapedValue hb).2,
        parseUriEscapedValue_write, hgen hget]
    | sha256 t n u =>
      simp only [ComponentType.writeUri]
      rw [fromEscapedString_alt c.type _ (by rw [hget]; rfl), hget, hsha t n u hget]
      simp only [ComponentType.parseAltUriValue, fromHex_printHex]
    | decimal t n u =>
      by_cases hnum : c.isNumber = true
      · simp only [ComponentType.writeUri, hnum, if_true]
        rw [fromEscapedString_alt c.type _ (by rw [hget]; rfl), hget, hdec t n u hget]
        simp only [ComponentType.parseAltUriValue,
          stoull_decimal (bigEndian_lt_of_isNumber hnum), if_true, fromNumber]
      · simp only [ComponentType.writeUri, hnum]
        exact hcanonical

theorem isValid_uriValue (altUri : Bool) (c : Component) :
    isValid c.type (c.uriValue altUri) = isValid c.type c.value := by
  by_cases hdigest : isDigestType c.type = true
  · obtain ⟨typeName, uriPrefix, hget⟩ := get_of_isDigestType hdigest
    cases altUri <;> simp [uriValue, hget]
  · simp [isValid, hdigest]

theorem length_uriValue_lt (hc : c.WellFormed) (altUri : Bool) :
    (c.uriValue altUri).length < 2 ^ 64 := by
  have hvalue := Block.Encodes.length_lt hc
  unfold uriValue
  split
  · grind [length_nonNegativeInteger_le]
  · exact hvalue

/-- Text that needs no escaping is parsed as a generic component, unless it is periods only. -/
theorem fromEscapedString_of_unreserved {text : List UInt8}
    (htext : ∀ b ∈ text, isUnreserved b = true) (hdots : text.all (· == 46) = false) :
    fromEscapedString text = .ok ⟨genericNameComponent, text,
      encodeTypeLength genericNameComponent text.length⟩ := by
  have hwrite : writeUriEscapedValue text = text := by
    simp [writeUriEscapedValue, hdots, escape_eq_self htext]
  have hequals : ∀ b ∈ text, b ≠ 61 := by
    rintro b hb rfl
    exact absurd (htext 61 hb) (by decide)
  have hparse := parseUriEscapedValue_write genericNameComponent text
  rw [hwrite] at hparse
  rw [fromEscapedString_untyped hequals, hparse, make_eq_ok_iff]
  exact ⟨rfl, rfl⟩

theorem isUnreserved_of_isDigit (hb : isDigit b = true) : isUnreserved b = true := by
  have hrange : 48 ≤ b.toNat ∧ b.toNat ≤ 57 := by simpa [isDigit] using hb
  simp [isUnreserved, hrange]

theorem isUnreserved_of_mem_decimalInt : ∀ b ∈ decimalInt n, isUnreserved b = true := by
  intro b hb
  unfold decimalInt at hb
  split at hb
  · exact isUnreserved_of_isDigit (isDigit_of_mem_decimal _ b hb)
  · rcases mem_cons.1 hb with rfl | hb
    · decide
    · exact isUnreserved_of_isDigit (isDigit_of_mem_decimal _ b hb)

theorem decimalInt_ne_dots : (decimalInt n).all (· == 46) = false := by
  have hdecimal : ∀ m, (decimal m).all (· == 46) = false := by
    intro m
    obtain ⟨b, bs, hdec⟩ := exists_cons_of_ne_nil (decimal_ne_nil m)
    have hb : b ≠ 46 := by
      rintro rfl
      exact absurd (isDigit_of_mem_decimal m 46 (by simp [hdec])) (by decide)
    simp [hdec, hb]
  unfold decimalInt
  split
  · exact hdecimal _
  · simp

theorem fromEscapedString_decimalInt :
    fromEscapedString (decimalInt n) = .ok ⟨genericNameComponent, decimalInt n,
      encodeTypeLength genericNameComponent (decimalInt n).length⟩ :=
  fromEscapedString_of_unreserved (isUnreserved_of_mem_decimalInt n) (decimalInt_ne_dots n)

theorem ne_slash_of_mem_printHex {value : List UInt8} (hb : b ∈ printHex value) : b ≠ 47 := by
  have hhex : ∀ m < 16, (ascii "0123456789abcdef").getD m 0 ≠ 47 := by decide
  obtain ⟨c, -, hc⟩ := mem_flatMap.1 hb
  simp only [hexPair, mem_cons, not_mem_nil, or_false] at hc
  rcases hc with rfl | rfl <;> exact hhex _ (mod_lt _ (by decide))

theorem ne_slash_of_mem_toUri {altUri : Bool} (hb : b ∈ c.toUri altUri) : b ≠ 47 := by
  have hdecimal : ∀ n, b ∈ decimal n → b ≠ 47 :=
    fun n hn => (ne_of_isDigit (isDigit_of_mem_decimal n b hn)).1
  have hcanonical : b ∈ ComponentType.writeCanonicalUri c → b ≠ 47 := by
    intro hc
    rw [ComponentType.writeCanonicalUri, mem_append, mem_cons] at hc
    rcases hc with hc | rfl | hc
    · exact hdecimal _ hc
    · decide
    · exact (ne_of_mem_writeUriEscapedValue hc).1
  have halt : ∀ p ∈ (ComponentType.get c.type).getAltUriPrefix, b ∈ ascii p → b ≠ 47 := by
    intro p hp hc
    rcases ComponentType.get_eq_base_or_mem c.type with hbase | hmem
    · rw [hbase] at hp
      exact absurd hp (by simp [ComponentType.getAltUriPrefix])
    · exact ((altUriPrefix_spec _ hmem p hp).2.2 b hc).1
  cases altUri with
  | false => exact hcanonical hb
  | true =>
    have hdef : c.toUri true = (ComponentType.get c.type).writeUri c := rfl
    rw [hdef] at hb
    cases hget : ComponentType.get c.type with
    | base => exact hcanonical (by rwa [hget] at hb)
    | generic =>
      rw [hget] at hb
      exact (ne_of_mem_writeUriEscapedValue hb).1
    | sha256 t n u =>
      rw [hget, ComponentType.writeUri, mem_append, mem_cons] at hb
      rcases hb with hb | rfl | hb
      · exact halt u (by rw [hget]; rfl) hb
      · decide
      · exact ne_slash_of_mem_printHex hb
    | decimal t n u =>
      rw [hget, ComponentType.writeUri] at hb
      by_cases hnum : c.isNumber = true
      · rw [if_pos hnum, mem_append, mem_cons] at hb
        rcases hb with hb | rfl | hb
        · exact halt u (by rw [hget]; rfl) hb
        · decide
        · exact hdecimal _ hb
      · exact hcanonical (by rwa [if_neg hnum] at hb)

end Component

/-! ## Paths -/

theorem uriSegments_append_slash (hpart : ∀ b ∈ part, b ≠ 47) (rest : List UInt8) :
    uriSegments (part ++ 47 :: rest) = part :: uriSegments rest := by
  induction part with
  | nil => simp [uriSegments]
  | cons b part ih => simp_all [uriSegments]

theorem uriSegments_of_ne_nil (hne : part ≠ []) (hpart : ∀ b ∈ part, b ≠ 47) :
    uriSegments part = [part] := by
  induction part with
  | nil => exact absurd rfl hne
  | cons b part ih =>
    have hb : b ≠ 47 := hpart b (by simp)
    cases part with
    | nil => simp [uriSegments, hb]
    | cons c cs => simp_all [uriSegments]

theorem uriSegments_join (part : List UInt8) (parts : List (List UInt8))
    (hlast : (part :: parts).getLast? ≠ some [])
    (hpart : ∀ p ∈ part :: parts, ∀ b ∈ p, b ≠ 47) :
    uriSegments (part ++ parts.flatMap (47 :: ·)) = part :: parts := by
  induction parts generalizing part with
  | nil => simpa using uriSegments_of_ne_nil (by simpa using hlast) (hpart part (by simp))
  | cons q qs ih =>
    have htail := ih q hlast fun p hmem => hpart p (.tail _ hmem)
    rw [flatMap_cons, cons_append, uriSegments_append_slash (hpart part (by simp)), htail]

/-- An absolute path whose first and last parts are not empty is split at its slashes. -/
theorem Name.fromUri_path {parts : List (List UInt8)} (hfirst : part ≠ [])
    (hlast : (part :: parts).getLast? ≠ some [])
    (hpart : ∀ p ∈ part :: parts, ∀ b ∈ p, b ≠ 47) :
    Name.fromUri (47 :: (part ++ parts.flatMap (47 :: ·)))
      = (part :: parts).mapM fromEscapedString := by
  obtain ⟨b, bs, rfl⟩ := exists_cons_of_ne_nil hfirst
  have hb : b ≠ 47 := hpart (b :: bs) (by simp) b (by simp)
  have hscheme : ∀ rest, stripScheme (47 :: rest) = 47 :: rest := fun rest => by
    simp [stripScheme]
  have hauth : ∀ rest, stripAuthority (47 :: b :: rest) = some (b :: rest) := fun rest => by
    simp [stripAuthority, hb]
  have hsegments := uriSegments_join (b :: bs) parts hlast hpart
  rw [fromUri, hscheme]
  simp only [cons_append] at hsegments ⊢
  simp only [hauth, hsegments]

/-! ## Name round trip -/

/-- The component that parsing the URI of `f` gives. -/
def reparsed (altUri : Bool) (f : Component) : Component :=
  ⟨f.type, f.uriValue altUri, Component.encodeTypeLength f.type (f.uriValue altUri).length⟩

/-- The alternate format writes the value as a number and it is in its shortest encoding, or it
    writes the octets. -/
def Component.keepsNumber (c : Component) : Bool :=
  match ComponentType.get c.type with
  | .decimal .. => !c.isNumber || c.value == Tlv.nonNegativeInteger (Tlv.bigEndian c.value)
  | _ => true

theorem Component.uriValue_eq_iff (altUri : Bool) (c : Component) :
    c.uriValue altUri = c.value ↔ altUri = false ∨ c.keepsNumber = true := by
  cases altUri with
  | false => simp [uriValue]
  | true =>
    unfold uriValue keepsNumber
    rw [if_pos rfl]
    split
    · by_cases hnum : c.isNumber = true
      · simp [hnum, eq_comm (a := c.value)]
      · simp [hnum]
    · simp

theorem Component.fromEscapedString_toUri_of_isValid {c : Component}
    (hc : isValid c.type c.value = true) (altUri : Bool) :
    fromEscapedString (c.toUri altUri) = .ok (reparsed altUri c) := by
  rw [fromEscapedString_toUri, make_eq_ok_iff, isValid_uriValue]
  exact ⟨hc, rfl⟩

theorem Name.fromUri_toUri {n : Name} (hn : ∀ c ∈ n, isValid c.type c.value = true)
    (altUri : Bool) : fromUri (n.toUri altUri) = .ok (n.map (reparsed altUri)) := by
  have hne : ∀ c ∈ n, c.toUri altUri ≠ [] := by
    intro c hc hnil
    have hparse := fromEscapedString_toUri_of_isValid (hn c hc) altUri
    rw [hnil] at hparse
    cases hparse
  have hparse : (n.map (Component.toUri altUri)).mapM Component.fromEscapedString =
      .ok (n.map (reparsed altUri)) := by
    clear hne
    induction n with
    | nil => rfl
    | cons c n ih =>
      obtain ⟨hc, hn⟩ := forall_mem_cons.1 hn
      rw [map_cons, mapM_cons, fromEscapedString_toUri_of_isValid hc, ih hn]
      rfl
  cases n with
  | nil => rfl
  | cons c n =>
    have hpath := @fromUri_path (c.toUri altUri) (n.map (Component.toUri altUri)) (hne c (.head _))
      ?_ ?_
    · rw [← map_cons, hparse, flatMap_map] at hpath
      exact hpath
    · rw [← map_cons, getLast?_map]
      intro hlast
      obtain ⟨c', hc', hnil⟩ := Option.map_eq_some_iff.1 hlast
      exact hne c' (mem_of_getLast? hc') hnil
    · rw [← map_cons]
      intro p hp b hb
      obtain ⟨c', -, rfl⟩ := mem_map.1 hp
      exact ne_slash_of_mem_toUri hb

/-- **Name round trip.**  Parsing the URI of a name with valid components gives an equal name
    exactly if the format is the canonical one or no number is in a longer encoding. -/
theorem Name.fromUri_toUri_iff {n : Name}
    (hn : ∀ c ∈ n, Component.isValid c.type c.value = true) (altUri : Bool) :
    (∃ m, fromUri (n.toUri altUri) = .ok m ∧ m.equals n = true) ↔
      altUri = false ∨ ∀ c ∈ n, c.keepsNumber = true := by
  rw [fromUri_toUri hn]
  simp only [Except.ok.injEq, exists_eq_left', equals_iff, map_map, map_inj_left,
    Function.comp_apply, reparsed, Prod.mk.injEq, true_and, uriValue_eq_iff]
  cases altUri <;> simp

/-- An empty component, and the sequence number 261 in its two octets. -/
theorem Name.fromUri_toUri_short : ∃ m,
    fromUri (toUri true [Component.ofString "", ⟨37, [1, 5], [37, 2]⟩]) = .ok m ∧
      m.equals [Component.ofString "", ⟨37, [1, 5], [37, 2]⟩] = true :=
  (fromUri_toUri_iff (by decide) true).2 (.inr (by decide))

/-- The segment number 5 in two octets is printed as `seg=5` and comes back in one. -/
theorem Name.fromUri_toUri_differs :
    fromUri (toUri true [⟨33, [0, 5], [33, 2]⟩]) = .ok [⟨33, [5], [33, 1]⟩] ∧
      Name.equals [⟨33, [5], [33, 1]⟩] [⟨33, [0, 5], [33, 2]⟩] = false := by
  decide

end NdnMulticast.Ndn
