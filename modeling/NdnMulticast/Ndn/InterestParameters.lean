/-
  Signed Interests: the key and the errors of a validation, after `security/validation-policy.cpp`,
  and what the digest and the signature cover: `isParametersDigestValid` and
  `extractSignedRanges` of `interest.cpp`, for an Interest that was decoded.

  Decoding collects the parameters element by element.  It passes over a HopLimit or a
  second ApplicationParameters, and takes the elements of the signature in whatever order
  they come.
-/

import Mathlib.Data.List.Flatten
import NdnMulticast.Ndn.Packet

namespace NdnMulticast.Ndn

open Lib List

namespace Tlv

def interestSignatureInfo : Nat := 44

def interestSignatureValue : Nat := 46

/-- The SignatureType of a packet that only carries a digest. -/
def digestSha256 : Nat := 0

end Tlv

/-- `time::fromUnixTimestamp` of milliseconds: nanoseconds, in an `int64_t`. -/
def fromUnixTimestamp (milliseconds : Nat) : Int :=
  Int.bmod (toInt64 milliseconds * 1000000) (2 ^ 64)

namespace SignatureInfo

def findOtherTlv (si : SignatureInfo) (type : Nat) : Option Block :=
  si.otherTlvs.find? (·.type == type)

def getTime (si : SignatureInfo) : Raises (Option Int) :=
  match si.findOtherTlv Tlv.signatureTime with
  | none => .ok none
  | some b => (Tlv.readNonNegativeInteger b.value).map (some ∘ fromUnixTimestamp)

end SignatureInfo

/-- The element is found by the type that `SignatureInfo::wireDecode` expects of it. -/
def Interest.getSignatureInfo (i : Interest) : Raises (Option SignatureInfo) :=
  match i.parameters.find? (·.type == Tlv.interestSignatureInfo) with
  | none => .ok none
  | some b => (SignatureInfo.wireDecode { b with type := Tlv.signatureInfo }).map some

/-! ## Errors of a validation -/

/-- `ValidationError::Code`. -/
inductive ErrorCode where
  | invalidSignature
  | expiredCert
  | loopDetected
  | exceededDepthLimit
  | invalidKeyLocator
  | policyError
  | implementationError
deriving DecidableEq, Repr

/-- A piece of a message: a text, or a name written as a URI. -/
inductive Piece where
  | text (s : String)
  | uri (n : Name)
deriving DecidableEq, Repr

structure ValidationError where
  code : ErrorCode
  info : List Piece
deriving DecidableEq, Repr

/-- Why a check ends early: an exception passes through it, or it fails the
    validation and returns. -/
inductive Stop where
  | raised (e : Exception)
  | failed (err : ValidationError)
deriving DecidableEq, Repr

abbrev Checks (α : Type) := Except Stop α

def Raises.checks {α : Type} (x : Raises α) : Checks α := x.mapError .raised

/-! ## The key of a packet -/

/-- `SigningInfo::getDigestSha256Identity`. -/
def digestSha256Identity : Name := ["localhost", "identity", "digest-sha256"].map Component.ofString

/-- `getKeyLocatorName` of a SignatureInfo. -/
def SignatureInfo.getKeyLocatorName (si : SignatureInfo) : Checks Name :=
  if si.type = some Tlv.digestSha256 then .ok digestSha256Identity
  else
    match si.keyLocator with
    | none => .error (.failed ⟨.invalidKeyLocator, [.text "KeyLocator is missing"]⟩)
    | some (.name n) => .ok n
    | some _ => .error (.failed ⟨.invalidKeyLocator, [.text "KeyLocator type is not Name"]⟩)

namespace Interest

/-- `signed_interest::MIN_SIZE`. -/
def signedMinSize : Nat := 2

/-- `name.at(-i)`: the `i`-th component from the end. -/
def fromEnd (n : Name) (i : Nat) : Option Component := n[n.length - i]?

/-- Format 0.3 with a SignatureInfo, else format 0.2, with it in the last but one component. -/
def getKeyLocatorName (i : Interest) : Checks Name := do
  match ← i.getSignatureInfo.checks with
  | some si => si.getKeyLocatorName
  | none =>
    match decide (i.name.length < signedMinSize), fromEnd i.name 2 with
    | false, some c =>
      let block : Block := ⟨c.type, c.tl, c.value, []⟩
      match block.blockFromValue.bind SignatureInfo.wireDecode with
      | .ok si => si.getKeyLocatorName
      | .error (.tlvError what) =>
        .error (.failed ⟨.invalidKeyLocator, [.text ("Invalid signed Interest: " ++ what)]⟩)
      | .error e => .error (.raised e)
    | _, _ =>
      .error (.failed ⟨.invalidKeyLocator, [.text "Invalid signed Interest: name too short"]⟩)

/-! ## The parameters -/

/-- The elements from the first ApplicationParameters on. -/
def fromParameters (elements : List Block) : List Block :=
  elements.dropWhile (·.type != Tlv.applicationParameters)

/-- After ApplicationParameters, these elements are passed over. -/
def isIgnored (b : Block) : Bool :=
  b.type == Tlv.applicationParameters || b.type == Tlv.hopLimit

/-- The parameters that decoding collects. -/
def parametersOf (elements : List Block) : List Block :=
  match fromParameters elements with
  | [] => []
  | first :: rest => first :: rest.filter (!isIgnored ·)

variable {acc acc' : Nat × Interest} {b first wire : Block} {elements : List Block} {i : Interest}

theorem parameters_withLifetime (i : Interest) (ms : Int) :
    ({ i with interestLifetime := ms }).parameters = i.parameters := rfl

theorem decodeElement_before (h : decodeElement acc b = .ok acc') (hlast : acc.1 < 8)
    (hnone : acc.2.parameters = []) :
    if b.type = Tlv.applicationParameters then acc'.1 = 8 ∧ acc'.2.parameters = [b]
    else acc'.1 < 8 ∧ acc'.2.parameters = [] := by
  unfold decodeElement at h
  by_cases h1 : b.type = Tlv.canBePrefix
  · rw [if_neg (by rw [h1]; decide)]
    grind
  by_cases h2 : b.type = Tlv.mustBeFresh
  · rw [if_neg (by rw [h2]; decide)]
    grind
  by_cases h3 : b.type = Tlv.forwardingHint
  · rw [if_pos h3] at h
    split_ifs at h
    obtain ⟨hint, -, h⟩ := bind_eq_ok_iff.1 h
    rw [if_neg (by rw [h3]; decide), ← Except.ok.inj h]
    exact ⟨by simp, hnone⟩
  by_cases h4 : b.type = Tlv.nonce
  · rw [if_neg (by rw [h4]; decide)]
    grind
  by_cases h5 : b.type = Tlv.interestLifetime
  · rw [if_pos h5] at h
    split_ifs at h
    obtain ⟨n, -, h⟩ := bind_eq_ok_iff.1 h
    rw [if_neg (by rw [h5]; decide), ← Except.ok.inj h]
    exact ⟨by simp, (parameters_withLifetime _ _).trans hnone⟩
  by_cases h6 : b.type = Tlv.hopLimit
  · rw [if_neg (by rw [h6]; decide)]
    grind
  grind

theorem decodeElement_after (h : decodeElement acc b = .ok acc') (hlast : acc.1 = 8)
    (hsome : acc.2.parameters ≠ []) :
    acc'.1 = 8 ∧ acc'.2.parameters = acc.2.parameters ++ if isIgnored b then [] else [b] := by
  unfold decodeElement at h
  split_ifs at h <;> first | omega | cases h
  all_goals simp_all [isIgnored, Tlv.hopLimit, Tlv.applicationParameters]

theorem parameters_of_fold_after (h : elements.foldlM decodeElement acc = .ok acc')
    (hlast : acc.1 = 8)
    (hsome : acc.2.parameters ≠ []) :
    acc'.2.parameters = acc.2.parameters ++ elements.filter (!isIgnored ·) := by
  induction elements generalizing acc with
  | nil => cases h; simp
  | cons b elements ih =>
    obtain ⟨mid, hmid, h⟩ := bind_eq_ok_iff.1 h
    obtain ⟨hlast', hmid'⟩ := decodeElement_after hmid hlast hsome
    rw [ih h hlast' (by simp [hmid', hsome]), hmid', append_assoc]
    cases hb : isIgnored b <;> simp [hb]

theorem parameters_of_fold (h : elements.foldlM decodeElement acc = .ok acc') (hlast : acc.1 < 8)
    (hnone : acc.2.parameters = []) : acc'.2.parameters = parametersOf elements := by
  induction elements generalizing acc with
  | nil => cases h; exact hnone
  | cons b elements ih =>
    obtain ⟨mid, hmid, h⟩ := bind_eq_ok_iff.1 h
    have hstep := decodeElement_before hmid hlast hnone
    split at hstep
    · rename_i htype
      rw [parameters_of_fold_after h hstep.1 (by simp [hstep.2]), hstep.2]
      simp [parametersOf, fromParameters, htype]
    · rename_i htype
      rw [ih h hstep.1 hstep.2]
      simp [parametersOf, fromParameters, htype]

theorem parameters_of_wireDecode {check : Bool} {sha256 : List UInt8 → List UInt8}
    (h : wireDecode check sha256 wire = .ok i) (hparse : wire.parse = .ok elements) :
    i.parameters = parametersOf elements ∧
      (check = true → isParametersDigestValid sha256 i = true) := by
  obtain ⟨first, rest, last, hparse', htype, -, hfold, hvalid, -⟩ := exists_fold_of_wireDecode h
  obtain rfl : first :: rest = elements := Except.ok.inj (hparse'.symm.trans hparse)
  refine ⟨(parameters_of_fold hfold (by simp) rfl).trans ?_, hvalid⟩
  simp [parametersOf, fromParameters, htype, Tlv.name, Tlv.applicationParameters]

theorem length_wire_pos (hparse : wire.parse = .ok elements) (hb : b ∈ elements) :
    0 < b.wire.length := by
  have := (Block.parse_encodes hparse b hb).length_pos
  rw [Block.wire, length_append]
  omega

/-! ## The digest -/

theorem flatMap_filter_eq_iff {p : Block → Bool} (hpos : ∀ b ∈ elements, 0 < b.wire.length) :
    (elements.filter p).flatMap Block.wire = elements.flatMap Block.wire ↔
      ∀ b ∈ elements, p b = true := by
  constructor
  · intro h
    have hlen := congrArg length h
    clear h
    induction elements with
    | nil => simp
    | cons b elements ih =>
      rw [forall_mem_cons] at hpos ⊢
      have hle : ((elements.filter p).flatMap Block.wire).length ≤
          (elements.flatMap Block.wire).length :=
        (filter_sublist.flatMap _).length_le
      cases hb : p b with
      | true =>
        simp only [hb, filter_cons_of_pos, flatMap_cons, length_append] at hlen
        exact ⟨rfl, ih hpos.2 (by omega)⟩
      | false =>
        simp only [hb, filter_cons_of_neg, flatMap_cons, length_append,
          Bool.false_eq_true, not_false_eq_true] at hlen
        omega
  · intro h
    rw [filter_eq_self.2 h]

/-- The digest is that of all octets from the first ApplicationParameters on exactly if nothing
    after it is passed over. -/
theorem digest_covers_iff {sha256 : List UInt8 → List UInt8}
    (h : wireDecode true sha256 wire = .ok i) (hparse : wire.parse = .ok elements)
    (hsome : i.parameters ≠ [])
    (hcollision : sha256 (i.parameters.flatMap Block.wire) =
      sha256 ((fromParameters elements).flatMap Block.wire) →
      i.parameters.flatMap Block.wire = (fromParameters elements).flatMap Block.wire) :
    (∃ c, (parametersDigestComponents i.name).head? = some c ∧
      c.value = sha256 ((fromParameters elements).flatMap Block.wire)) ↔
      ((fromParameters elements).drop 1).any isIgnored = false := by
  obtain ⟨hparams, hvalid⟩ := parameters_of_wireDecode h hparse
  replace hvalid := hvalid rfl
  unfold parametersOf at hparams
  cases hfrom : fromParameters elements with
  | nil =>
    rw [hfrom] at hparams
    exact absurd hparams hsome
  | cons first rest =>
    rw [hfrom] at hparams
    have hrest : ∀ b ∈ rest, 0 < b.wire.length := fun b hb => length_wire_pos hparse
      ((dropWhile_sublist _).subset (hfrom ▸ mem_cons_of_mem first hb))
    unfold isParametersDigestValid at hvalid
    cases hdigest : parametersDigestComponents i.name with
    | nil =>
      rw [hdigest] at hvalid
      exact absurd (by simpa using hvalid) hsome
    | cons c _ =>
      simp only [hdigest, Bool.and_eq_true, beq_iff_eq] at hvalid
      rw [hfrom] at hcollision
      simp only [head?_cons, Option.some.injEq, exists_eq_left', hvalid.2]
      rw [show _ ↔ _ from ⟨hcollision, congrArg sha256⟩, hparams, flatMap_cons,
        flatMap_cons, append_cancel_left_eq, flatMap_filter_eq_iff hrest]
      simp [any_eq_false]

namespace Sample

def countOctets (bs : List UInt8) : List UInt8 := List.replicate 31 0 ++ [UInt8.ofNat bs.length]

/-- An Interest with these elements after the name, which ends with the digest of `bs`. -/
def interest (bs elements : List UInt8) : Block :=
  ⟨Tlv.interest, [5, 39 + UInt8.ofNat elements.length],
    [7, 37, 8, 1, 97, 2, 32] ++ countOctets bs ++ elements, []⟩

def digested (elements : List UInt8) : Block := interest elements elements

end Sample

/-- An unknown element is part of what is digested. -/
theorem digest_covers_unknown : ∃ i elements,
    wireDecode true Sample.countOctets (Sample.digested [36, 0, 250, 0]) = .ok i ∧
    (Sample.digested [36, 0, 250, 0]).parse = .ok elements ∧
    ∃ c, (parametersDigestComponents i.name).head? = some c ∧
      c.value = Sample.countOctets ((fromParameters elements).flatMap Block.wire) := by
  have hdecode : wireDecode true Sample.countOctets (Sample.digested [36, 0, 250, 0]) = .ok _ := rfl
  have hparse : (Sample.digested [36, 0, 250, 0]).parse = .ok _ := rfl
  exact ⟨_, _, hdecode, hparse,
    (digest_covers_iff hdecode hparse (by decide) (fun _ => by decide)).2 (by decide)⟩

/-- A HopLimit after empty ApplicationParameters is not part of what is digested. -/
theorem hopLimit_not_digested : ∃ i elements,
    wireDecode true Sample.countOctets (Sample.interest [36, 0] [36, 0, 34, 1, 5]) = .ok i ∧
    (Sample.interest [36, 0] [36, 0, 34, 1, 5]).parse = .ok elements ∧
    i.parameters ≠ [] ∧ ¬ ∃ c, (parametersDigestComponents i.name).head? = some c ∧
      c.value = Sample.countOctets ((fromParameters elements).flatMap Block.wire) := by
  refine ⟨_, _, rfl, rfl, by decide, ?_⟩
  rintro ⟨c, hc, hvalue⟩
  cases hc
  revert hvalue
  decide

/-! ## The signature -/

def isSigned (i : Interest) : Raises Bool :=
  if i.parameters.length < 3 then .ok false
  else do
    let info ← i.getSignatureInfo
    return info.isSome && i.parameters.any (·.type == Tlv.interestSignatureValue) &&
      i.name.getLast?.any (·.type == Tlv.parametersSha256DigestComponent)

/-- The parameters before the first InterestSignatureValue. -/
def beforeSignatureValue (i : Interest) : List Block :=
  i.parameters.takeWhile (·.type != Tlv.interestSignatureValue)

/-- The second range is a part of the packet's buffer, from the first parameter to the end of the
    last one before InterestSignatureValue. -/
def extractSignedRanges (i : Interest) : Raises (List UInt8 × List UInt8) :=
  if i.name.getLast?.all (·.type != Tlv.parametersSha256DigestComponent) then
    .error (.tlvError "Interest Name must end with a ParametersSha256DigestComponent")
  else if i.parameters.all (·.type != Tlv.interestSignatureInfo) then
    .error (.tlvError "Interest missing InterestSignatureInfo")
  else
    match i.parameters with
    | [] => .error (.tlvError "Interest missing InterestSignatureInfo")
    | first :: _ =>
      let buffer := first.wire ++ first.after
      let last := i.beforeSignatureValue.getLastD first
      .ok (i.name.dropLast.flatMap Component.wire, buffer.take (buffer.length - last.after.length))

/-- The element lies, at its place in the buffer, in a range that begins with `first`. -/
def InRange (range : List UInt8) (first b : Block) : Prop :=
  ∃ before after, first.wire ++ first.after = before ++ b.wire ++ b.after ∧
    range = before ++ b.wire ++ after

/-- The name up to the digest, ApplicationParameters and InterestSignatureInfo. -/
def SignatureCovers (i : Interest) : Prop :=
  ∃ name range first info, i.extractSignedRanges = .ok (name, range) ∧
    name = i.name.dropLast.flatMap Component.wire ∧
    i.parameters.head? = some first ∧ InRange range first first ∧
    i.parameters.find? (·.type == Tlv.interestSignatureInfo) = some info ∧ InRange range first info

/-- The one element comes after the other in the buffer. -/
def ComesAfter (e f : Block) : Prop := ∃ between, e.after = between ++ f.wire ++ f.after

theorem parseLoop_comesAfter {after bs : List UInt8} {fuel : Nat}
    (h : Block.parseLoop after fuel bs = .ok elements) :
    (∀ f ∈ elements, ∃ before, bs ++ after = before ++ f.wire ++ f.after) ∧
      elements.Pairwise ComesAfter := by
  induction fuel generalizing bs elements with
  | zero =>
    obtain rfl : [] = elements := by simpa [Block.parseLoop] using h
    simp
  | succ fuel ih =>
    obtain ⟨-, rfl⟩ | ⟨e, rest, tail, rfl, rfl, hafter, -, htail⟩ := Block.parseLoop_cases h
    · simp
    obtain ⟨hin, hpair⟩ := ih htail
    rw [forall_mem_cons, pairwise_cons]
    refine ⟨⟨⟨[], by rw [hafter, nil_append, append_assoc]⟩, fun f hf => ?_⟩, ?_, hpair⟩
    · obtain ⟨before, hbefore⟩ := hin f hf
      exact ⟨e.wire ++ before, by rw [append_assoc, hbefore]; simp⟩
    · intro f hf
      obtain ⟨before, hbefore⟩ := hin f hf
      exact ⟨before, hafter.trans hbefore⟩

theorem parametersOf_sublist : (parametersOf elements).Sublist elements := by
  have hfrom : (fromParameters elements).Sublist elements := dropWhile_sublist _
  unfold parametersOf
  split
  · exact nil_sublist _
  · rename_i first rest heq
    exact (Sublist.cons_cons first filter_sublist).trans (heq ▸ hfrom)

theorem inRange_take_iff {n : Nat} (hn : n ≤ (first.wire ++ first.after).length)
    (hb : ∃ before, first.wire ++ first.after = before ++ b.wire ++ b.after) :
    InRange ((first.wire ++ first.after).take ((first.wire ++ first.after).length - n)) first b ↔
      n ≤ b.after.length := by
  constructor
  · rintro ⟨before, after, hbuffer, hrange⟩
    have hlen := congrArg length hrange
    rw [length_take, hbuffer] at hlen
    rw [hbuffer] at hn
    simp only [length_append] at hlen hn
    omega
  · intro hle
    obtain ⟨before, hbuffer⟩ := hb
    refine ⟨before, b.after.take (b.after.length - n), hbuffer, ?_⟩
    rw [hbuffer, take_append, take_of_length_le]
    · congr 2
      simp only [length_append]
      omega
    · simp only [length_append]
      omega

theorem last_after_le_iff {before rest : List Block} {last : Block}
    (hpair : (before ++ [last] ++ rest).Pairwise ComesAfter)
    (hpos : ∀ b ∈ before ++ [last] ++ rest, 0 < b.wire.length) (hb : b ∈ before ++ [last] ++ rest) :
    last.after.length ≤ b.after.length ↔ b ∈ before ++ [last] := by
  rw [pairwise_append, pairwise_append] at hpair
  obtain ⟨⟨-, -, hlast⟩, -, hrest⟩ := hpair
  have hmem : last ∈ before ++ [last] := by simp
  constructor
  · intro hle
    refine (mem_append.1 hb).resolve_right fun hb' => ?_
    obtain ⟨between, hafter⟩ := hrest last hmem b hb'
    have hwire := hpos b hb
    have hlen := congrArg length hafter
    simp only [length_append] at hlen
    omega
  · intro hb'
    obtain hb' | hb' := mem_append.1 hb'
    · obtain ⟨between, hafter⟩ := hlast b hb' last (by simp)
      have hlen := congrArg length hafter
      simp only [length_append] at hlen
      omega
    · rw [mem_singleton.1 hb']

theorem type_of_parametersOf {rest : List Block} (h : parametersOf elements = first :: rest) :
    first.type = Tlv.applicationParameters := by
  unfold parametersOf at h
  split at h
  · cases h
  · rename_i heq
    injection h with hfirst _
    have hhead :=
      head?_dropWhile_not (fun b : Block => b.type != Tlv.applicationParameters) elements
    rw [show elements.dropWhile _ = _ from heq] at hhead
    simpa [hfirst] using hhead

theorem exists_info_of_isSigned (hsigned : i.isSigned = .ok true) :
    (∃ info, i.parameters.find? (·.type == Tlv.interestSignatureInfo) = some info) ∧
      i.name.getLast?.any (·.type == Tlv.parametersSha256DigestComponent) = true := by
  unfold isSigned at hsigned
  split at hsigned
  · cases hsigned
  obtain ⟨info, hinfo, hsigned⟩ := bind_eq_ok_iff.1 hsigned
  simp only [pure, Except.pure, Except.ok.injEq, Bool.and_eq_true] at hsigned
  refine ⟨?_, hsigned.2⟩
  unfold getSignatureInfo at hinfo
  split at hinfo
  · cases hinfo
    cases hsigned.1.1
  · exact ⟨_, ‹_›⟩

/-- The signature covers this exactly if an InterestSignatureInfo comes before the first
    InterestSignatureValue. -/
theorem signatureCovers_iff {check : Bool} {sha256 : List UInt8 → List UInt8}
    (h : wireDecode check sha256 wire = .ok i)
    (hsigned : i.isSigned = .ok true) :
    i.SignatureCovers ↔
      i.beforeSignatureValue.any (·.type == Tlv.interestSignatureInfo) = true := by
  obtain ⟨_, _, _, hparse, -⟩ := exists_fold_of_wireDecode h
  have hparams := (parameters_of_wireDecode h hparse).1
  have hpair : i.parameters.Pairwise ComesAfter :=
    hparams ▸ (parseLoop_comesAfter hparse).2.sublist parametersOf_sublist
  have hpos : ∀ b ∈ i.parameters, 0 < b.wire.length := fun b hb =>
    length_wire_pos hparse (parametersOf_sublist.subset (hparams ▸ hb))
  obtain ⟨⟨info, hinfo⟩, hname⟩ := exists_info_of_isSigned hsigned
  have hmem := mem_of_find?_eq_some hinfo
  have htype : (info.type == Tlv.interestSignatureInfo) = true := by
    simpa using find?_some hinfo
  obtain ⟨first, ps, hps⟩ := exists_cons_of_ne_nil (ne_nil_of_mem hmem)
  have hfirst := type_of_parametersOf (hparams.symm.trans hps)
  -- the parameters: up to the last one that is covered, and the others
  obtain ⟨init, last, hbefore⟩ : ∃ init last, i.beforeSignatureValue = init ++ [last] := by
    have hne : i.beforeSignatureValue ≠ [] := by
      simp [beforeSignatureValue, hps, hfirst, Tlv.applicationParameters,
        Tlv.interestSignatureValue]
    exact ⟨_, _, (dropLast_concat_getLast hne).symm⟩
  obtain ⟨rest, hrest⟩ : ∃ rest, i.parameters = init ++ [last] ++ rest :=
    ⟨i.parameters.dropWhile (·.type != Tlv.interestSignatureValue), by
      rw [← hbefore]
      exact takeWhile_append_dropWhile.symm⟩
  have hin : ∀ b ∈ i.parameters,
      ∃ before, first.wire ++ first.after = before ++ b.wire ++ b.after := by
    intro b hb
    rw [hps] at hb hpair
    obtain rfl | hb := mem_cons.1 hb
    · exact ⟨[], by simp⟩
    · obtain ⟨between, hbetween⟩ := (pairwise_cons.1 hpair).1 b hb
      exact ⟨first.wire ++ between, by rw [hbetween]; simp⟩
  have hcovered : ∀ b ∈ i.parameters, InRange ((first.wire ++ first.after).take
      ((first.wire ++ first.after).length - last.after.length)) first b ↔ b ∈ init ++ [last] := by
    intro b hb
    have hlast : last ∈ i.parameters := by simp [hrest]
    obtain ⟨before, hbuffer⟩ := hin last hlast
    rw [inRange_take_iff (by rw [hbuffer]; simp; omega) (hin b hb),
      last_after_le_iff (hrest ▸ hpair) (hrest ▸ hpos) (hrest ▸ hb)]
  have hranges : i.extractSignedRanges = .ok (i.name.dropLast.flatMap Component.wire,
      (first.wire ++ first.after).take
        ((first.wire ++ first.after).length - last.after.length)) := by
    unfold extractSignedRanges
    have hlast : ¬ i.name.getLast?.all (·.type != Tlv.parametersSha256DigestComponent) = true := by
      obtain ⟨c, hc, hc'⟩ := (Option.any_eq_true _ _).1 hname
      simp [hc, beq_iff_eq.1 hc']
    rw [if_neg hlast, if_neg]
    · split
      · rename_i hnil
        cases hnil.symm.trans hps
      · rename_i heq
        injection heq.symm.trans hps with hhead _
        rw [hbefore, getLastD_concat, hhead]
    · simp only [all_eq_true, bne_iff_ne, not_forall, not_not]
      exact ⟨info, hmem, beq_iff_eq.1 htype⟩
  rw [SignatureCovers, hranges, hinfo, hps, hbefore, any_eq_true]
  constructor
  · rintro ⟨name, range, first', info', hr, -, hhead, -, hinfo', hrange⟩
    cases hr
    cases hhead
    cases hinfo'
    exact ⟨info, (hcovered info hmem).1 hrange, htype⟩
  · rintro ⟨b, hb, hb'⟩
    have hinfo' : info ∈ init ++ [last] := by
      rw [hrest, find?_append] at hinfo
      cases hfind : (init ++ [last]).find? (·.type == Tlv.interestSignatureInfo) with
      | none => exact absurd hb' (by simpa using find?_eq_none.1 hfind b hb)
      | some c =>
        rw [hfind] at hinfo
        cases hinfo
        exact mem_of_find?_eq_some hfind
    have hfirst' : first ∈ init ++ [last] := by
      rw [← hbefore, beforeSignatureValue, hps]
      simp [hfirst, Tlv.applicationParameters, Tlv.interestSignatureValue]
    exact ⟨_, _, first, info, rfl, rfl, rfl, (hcovered first (by simp [hps])).2 hfirst', rfl,
      (hcovered info hmem).2 hinfo'⟩

namespace Sample

def signatureInfo : List UInt8 := [44, 3, 27, 1, 0]

end Sample

theorem signatureCovers_in_order : ∃ i,
    wireDecode true Sample.countOctets
      (Sample.digested ([36, 0] ++ Sample.signatureInfo ++ [46, 0])) =
      .ok i ∧ i.SignatureCovers := by
  have hdecode : wireDecode true Sample.countOctets
      (Sample.digested ([36, 0] ++ Sample.signatureInfo ++ [46, 0])) = .ok _ := rfl
  exact ⟨_, hdecode, (signatureCovers_iff hdecode rfl).2 (by decide)⟩

/-- With its value first, a signature does not cover InterestSignatureInfo. -/
theorem signatureInfo_not_covered : ∃ i,
    wireDecode true Sample.countOctets (Sample.digested ([36, 0, 46, 0] ++ Sample.signatureInfo)) =
      .ok i ∧ i.isSigned = .ok true ∧ ¬ i.SignatureCovers := by
  refine ⟨_, rfl, rfl, ?_⟩
  rintro ⟨name, range, first, info, hranges, -, hfirst, -, hinfo, before, after, -, hrange⟩
  cases hranges
  cases hfirst
  cases hinfo
  -- the range is no longer than ApplicationParameters
  have hlen : 2 = (before ++ Sample.signatureInfo ++ after).length := congrArg length hrange
  simp only [length_append, Sample.signatureInfo, length_cons, length_nil] at hlen
  omega

end Interest

end NdnMulticast.Ndn
