/-
  The names of the segments of a file.  Forwarder, producer and consumer each put them
  together as text, `"/Segment" + fileName + "/" + number` with `fileName` the URI of the
  second component of another name, and parse it.
-/

import NdnMulticast.Ndn.Uri

namespace NdnMulticast.Ndn

open Lib List Component Except Tlv

/-- The component an `int` is written as. -/
def numberComponent (number : Int) : Component :=
  ⟨Tlv.genericNameComponent, decimalInt number,
    Component.encodeTypeLength Tlv.genericNameComponent (decimalInt number).length⟩

/-- The component a segment number is written as. -/
def segmentNumber (segment : Nat) : Component :=
  ⟨Tlv.genericNameComponent, decimal segment,
    Component.encodeTypeLength Tlv.genericNameComponent (decimal segment).length⟩

theorem numberComponent_natCast (segment : Nat) :
    numberComponent segment = segmentNumber segment := by
  simp [numberComponent, segmentNumber]

def segmentPrefix : Component := Component.ofString "Segment"

/-- `/Segment/<f>/<i>`. -/
def segmentPath (f : Component) (segment : Nat) : Name := [segmentPrefix, f, segmentNumber segment]

/-- The text of a segment name. -/
def segmentUri (fileName number : List UInt8) : List UInt8 :=
  ascii "/Segment" ++ fileName ++ ascii "/" ++ number

theorem mapM_three {g : List UInt8 → Raises Component} {x y z : List UInt8} {n : Name} :
    [x, y, z].mapM g = .ok n ↔ ∃ a b c, g x = .ok a ∧ g y = .ok b ∧ g z = .ok c ∧
      n = [a, b, c] := by
  simp only [mapM_cons, mapM_nil, bind_eq_ok_iff, pure, Except.pure, Except.ok.injEq]
  constructor
  · rintro ⟨a, ha, -, ⟨b, hb, -, ⟨c, hc, -, rfl, rfl⟩, rfl⟩, rfl⟩
    exact ⟨a, b, c, ha, hb, hc, rfl⟩
  · rintro ⟨a, b, c, ha, hb, hc, rfl⟩
    exact ⟨a, ha, [b, c], ⟨b, hb, [c], ⟨c, hc, [], rfl, rfl⟩, rfl⟩, rfl⟩

theorem decimalInt_ne_nil (number : Int) : decimalInt number ≠ [] := by
  unfold decimalInt
  split
  · exact decimal_ne_nil _
  · simp

theorem fromUri_segmentUri {part : List UInt8} (hpart : ∀ b ∈ part, b ≠ 47) (number : Int)
    (n : Name) :
    Name.fromUri (segmentUri (47 :: part) (decimalInt number)) = .ok n ↔
      ∃ f, fromEscapedString part = .ok f ∧ n = [segmentPrefix, f, numberComponent number] := by
  have hsegment : ∀ b ∈ ascii "Segment", b ≠ 47 := by
    have hall : (ascii "Segment").all (· != 47) = true := by decide
    exact fun b hb => bne_iff_ne.1 (all_eq_true.1 hall b hb)
  have hdigits : ∀ b ∈ decimalInt number, b ≠ 47 := by
    rintro b hb rfl
    exact absurd (isUnreserved_of_mem_decimalInt number 47 hb) (by decide)
  have htext : segmentUri (47 :: part) (decimalInt number)
      = 47 :: (ascii "Segment" ++ [part, decimalInt number].flatMap (47 :: ·)) := by
    have hslash : ascii "/Segment" = 47 :: ascii "Segment" := by decide
    have hsep : ascii "/" = [47] := by decide
    rw [segmentUri, hslash, hsep]
    simp
  have hparts : ∀ p ∈ [ascii "Segment", part, decimalInt number], ∀ b ∈ p, b ≠ 47 := by
    simp only [forall_mem_cons]
    exact ⟨hsegment, hpart, hdigits, by simp⟩
  have hfirst : fromEscapedString (ascii "Segment") = .ok segmentPrefix := by decide
  rw [htext, Name.fromUri_path (by decide) (by simp [decimalInt_ne_nil]) hparts, mapM_three, hfirst,
    fromEscapedString_decimalInt]
  constructor
  · rintro ⟨a, f, c, ha, hf, hc, rfl⟩
    exact ⟨f, hf, by rw [← ok.inj ha, ← ok.inj hc]; rfl⟩
  · rintro ⟨f, hf, rfl⟩
    exact ⟨_, f, _, rfl, hf, rfl, rfl⟩

variable {f : Component} {altUri : Bool}

theorem toUri_getSubName (altUri : Bool) {m : Name} (hf : m[1]? = some f) :
    (m.getSubName 1 1).toUri altUri = 47 :: f.toUri altUri := by
  have hsub : m.getSubName 1 1 = [f] := by
    obtain ⟨hlt, hget⟩ := List.getElem?_eq_some_iff.1 hf
    rw [Name.getSubName, drop_eq_getElem_cons hlt, hget]
    rfl
  rw [hsub]
  simp [Name.toUri]

/-- **The name of a segment** parses exactly when that of its file has a valid second component. -/
theorem fromUri_segmentUri_subName (altUri : Bool) (m : Name) (number : Int) (n : Name) :
    Name.fromUri (segmentUri ((m.getSubName 1 1).toUri altUri) (decimalInt number)) = .ok n ↔
      ∃ f, m[1]? = some f ∧ isValid f.type f.value = true ∧
        n = [segmentPrefix, reparsed altUri f, numberComponent number] := by
  cases hfile : m[1]? with
  | none =>
    -- the text of the empty name is a slash, so the path has an empty part
    have hlen : m.length ≤ 1 := by simpa using hfile
    have hempty : m.getSubName 1 1 = [] := by
      simp [Name.getSubName, drop_eq_nil_of_le hlen]
    have huri : (m.getSubName 1 1).toUri altUri = 47 :: [] := by
      rw [hempty]
      rfl
    rw [huri, fromUri_segmentUri (by simp)]
    have hraise : ∀ f, fromEscapedString [] ≠ .ok f := by
      intro f h
      cases h
    simp [hraise]
  | some f =>
    rw [toUri_getSubName altUri hfile, fromUri_segmentUri fun b hb => ne_slash_of_mem_toUri hb]
    simp only [fromEscapedString_toUri, make_eq_ok_iff,
      isValid_uriValue, Option.some.injEq, exists_eq_left']
    constructor
    · rintro ⟨g, ⟨hvalid, rfl⟩, rfl⟩
      exact ⟨hvalid, rfl⟩
    · rintro ⟨hvalid, rfl⟩
      exact ⟨_, ⟨hvalid, rfl⟩, rfl⟩

theorem isNumber_nonNegativeInteger (type n : Nat) (tl : List UInt8) :
    isNumber ⟨type, nonNegativeInteger n, tl⟩ = true := by
  unfold isNumber nonNegativeInteger
  split
  · simp [length_toBigEndian]
  · grind [length_toBigEndian]

/-- Reading a URI back changes the component once: its URI stays the same. -/
theorem toUri_reparsed (altUri : Bool) (f : Component) :
    (reparsed altUri f).toUri altUri = f.toUri altUri := by
  cases altUri with
  | false => rfl
  | true =>
    simp only [toUri, reparsed, uriValue, if_true]
    cases hget : ComponentType.get f.type with
    | base => rfl
    | generic => rfl
    | sha256 t n u => rfl
    | decimal t n u =>
      cases hnumber : f.isNumber with
      | false => rfl
      | true =>
        simp only [if_true, ComponentType.writeUri, hnumber, isNumber_nonNegativeInteger,
          bigEndian_nonNegativeInteger (bigEndian_lt_of_isNumber hnumber)]

theorem Component.toUri_congr {a b : Component} (h : a.equals b = true) (altUri : Bool) :
    a.toUri altUri = b.toUri altUri := by
  obtain ⟨tb, vb, tlb⟩ := b
  simp only [equals, Bool.and_eq_true, beq_iff_eq] at h
  obtain ⟨rfl, rfl⟩ := h
  rfl

/-- Equal segment names belong to one file and one number. -/
theorem segmentName_equals {g : Component} {j k : Int}
    (h : Name.equals [segmentPrefix, reparsed altUri f, numberComponent j]
      [segmentPrefix, reparsed altUri g, numberComponent k] = true) :
    f.toUri altUri = g.toUri altUri ∧ j = k := by
  simp only [Name.equals, Bool.and_eq_true] at h
  obtain ⟨-, hfile, hnumber, -⟩ := h
  have huri := toUri_congr hfile altUri
  rw [toUri_reparsed, toUri_reparsed] at huri
  simp only [equals, Bool.and_eq_true, beq_iff_eq] at hnumber
  exact ⟨huri, decimalInt_injective hnumber.2⟩

theorem toUri_numberComponent (altUri : Bool) (i : Int) :
    (numberComponent i).toUri altUri = (if altUri then [] else ascii "8=") ++ decimalInt i := by
  have htext : writeUriEscapedValue (decimalInt i) = decimalInt i := by
    rw [writeUriEscapedValue, decimalInt_ne_dots, escape_eq_self (isUnreserved_of_mem_decimalInt i)]
    rfl
  cases altUri with
  | false =>
    show decimal 8 ++ 61 :: writeUriEscapedValue (decimalInt i) = _
    rw [htext]
    rfl
  | true => exact htext

/-- What the producer reads from the number of a segment: in the canonical format the type. -/
theorem stoi_numberComponent (altUri : Bool) {i : Int} (hi : 0 ≤ i ∧ i < 2 ^ 31) :
    stoi ((numberComponent i).toUri altUri) = .ok (if altUri then i else 8) := by
  rw [toUri_numberComponent]
  cases altUri with
  | false => exact stoi_decimalInt_append (n := 8) (by decide) rfl
  | true =>
    have hread := stoi_decimalInt_append (show -2 ^ 31 ≤ i ∧ i < 2 ^ 31 by omega) takeWhile_nil
    rwa [append_nil] at hread

/-- **The name of a segment** is the same three components for all who put it together, and its
    number is read back, exactly if the component of the file survives its URI and the producer's
    URIs are not canonical. -/
theorem segmentName_iff (altUri altUri' : Bool) {m : Name} {c : Component}
    (hc : m[1]? = some c) {i : Int} (hi : 0 ≤ i ∧ i < 2 ^ 31) :
    (∃ n, Name.fromUri (segmentUri ((m.getSubName 1 1).toUri altUri) (decimalInt i)) = .ok n ∧
      n.equals [segmentPrefix, c, numberComponent i] = true ∧
      stoi (((n.getSubName 2 1).toUri altUri').drop 1) = .ok i) ↔
    Component.isValid c.type c.value = true ∧ (altUri = false ∨ c.keepsNumber = true) ∧
      (altUri' = true ∨ i = 8) := by
  have hequals : Name.equals [segmentPrefix, reparsed altUri c, numberComponent i]
      [segmentPrefix, c, numberComponent i] = true ↔ altUri = false ∨ c.keepsNumber = true := by
    rw [Name.equals_iff, ← uriValue_eq_iff]
    simp [reparsed]
  have hstoi : stoi (((Name.getSubName [segmentPrefix, reparsed altUri c, numberComponent i] 2 1
      ).toUri altUri').drop 1) = .ok i ↔ altUri' = true ∨ i = 8 := by
    have huri : ((Name.getSubName [segmentPrefix, reparsed altUri c, numberComponent i] 2 1
        ).toUri altUri').drop 1 = (numberComponent i).toUri altUri' := by
      simp [Name.getSubName, Name.toUri]
    rw [huri, stoi_numberComponent altUri' hi]
    cases altUri' <;> simp [eq_comm]
  simp only [fromUri_segmentUri_subName, hc, Option.some.injEq, exists_eq_left']
  constructor
  · rintro ⟨n, ⟨hvalid, rfl⟩, hname, hread⟩
    exact ⟨hvalid, hequals.1 hname, hstoi.1 hread⟩
  · rintro ⟨hvalid, hkeeps, hformat⟩
    exact ⟨_, ⟨hvalid, rfl⟩, hequals.2 hkeeps, hstoi.2 hformat⟩

theorem segmentName_letter : ∃ n,
    Name.fromUri (segmentUri (ascii "/a") (decimalInt 7)) = .ok n ∧
      n.equals [segmentPrefix, Component.ofString "a", numberComponent 7] = true ∧
      stoi (((n.getSubName 2 1).toUri true).drop 1) = .ok 7 :=
  (segmentName_iff true true (m := [segmentPrefix, ofString "a"]) rfl (by decide)).2 (by decide)

/-- A version in two octets comes back in one. -/
theorem segmentName_differs :
    Name.fromUri (segmentUri (Name.toUri true [⟨35, [0, 5], [35, 2]⟩]) (decimalInt 7)) =
        .ok [segmentPrefix, ⟨35, [5], [35, 1]⟩, numberComponent 7] ∧
      Component.equals ⟨35, [5], [35, 1]⟩ ⟨35, [0, 5], [35, 2]⟩ = false := by
  decide

theorem segmentPrefix_wellFormed : segmentPrefix.WellFormed :=
  wellFormed_encode (by decide) (by decide) (by decide)

theorem segmentName_wellFormed (hvalid : isValid f.type f.value = true) {number : Int}
    (hfile : (f.uriValue altUri).length < 2 ^ 64) (hnumber : (decimalInt number).length < 2 ^ 64) :
    Name.WellFormed [segmentPrefix, reparsed altUri f, numberComponent number] := by
  have htype : 0 < f.type ∧ f.type < 2 ^ 32 := by
    have hrange := of_decide_eq_true (Bool.and_eq_true_iff.1 hvalid).1
    simp only [nameComponentMin, nameComponentMax] at hrange
    omega
  intro c hc
  simp only [mem_cons, not_mem_nil, or_false] at hc
  rcases hc with rfl | rfl | rfl
  · exact segmentPrefix_wellFormed
  · exact wellFormed_encode htype.1 htype.2 hfile
  · exact wellFormed_encode (by decide) (by decide) hnumber

theorem segmentPath_wellFormed (hf : f.WellFormed)
    (hvalid : isValid f.type f.value = true) (altUri : Bool) {segment : Nat}
    (hsegment : segment < 2 ^ 31) : (segmentPath (reparsed altUri f) segment).WellFormed := by
  have hdigits : (decimalInt segment).length < 2 ^ 64 := by
    have hlen := length_decimal_le (n := segment) (k := 10) (by omega) (by omega)
    rw [decimalInt_natCast]
    omega
  have hwell := segmentName_wellFormed hvalid (length_uriValue_lt hf altUri) hdigits
  rwa [numberComponent_natCast] at hwell

end NdnMulticast.Ndn
