/-
  Encoding of Data packets, `Data::wireEncode`, and its inverse.

  The encoder writes the shortest forms and the decoder accepts longer ones too, so decoding inverts
  encoding and not the other way round.
-/

import NdnMulticast.Ndn.Packet

namespace NdnMulticast.Ndn

open Lib List Block Component Name

namespace Block

/-- An element as `Block` encodes it. -/
def make (type : Nat) (value : List UInt8) : Block :=
  ⟨type, Tlv.writeVarNumber type ++ Tlv.writeVarNumber value.length, value, []⟩

/-- The elements as views of one buffer in which `after` follows the last one. -/
def layout (after : List UInt8) : List Block → List Block
  | [] => []
  | b :: bs => { b with after := bs.flatMap wire ++ after } :: layout after bs

variable {tl value : List UInt8} {type : Nat} {bs : List Block} {b : Block}

theorem Encodes.ne_nil {length : Nat} (h : Encodes tl type length) : tl ≠ [] := by
  rintro rfl
  have hread := h []
  cases hread

theorem upTo_append (front rest : List UInt8) : upTo (front ++ rest) rest = front := by
  rw [upTo, length_append, Nat.add_sub_cancel]
  exact take_left

theorem parseLoop_append (h : Encodes tl type value.length) (after rest : List UInt8) (fuel : Nat) :
    parseLoop after (fuel + 1) (tl ++ value ++ rest) = (do
      let elements ← parseLoop after fuel rest
      return ⟨type, tl, value, rest ++ after⟩ :: elements) := by
  have hne : tl ++ value ++ rest ≠ [] := by simp [h.ne_nil]
  have hread : readTypeLength (tl ++ value ++ rest) = .ok (type, value.length, value ++ rest) := by
    rw [append_assoc]
    exact h (value ++ rest)
  have hfits : ¬ (value ++ rest).length < value.length := by
    rw [length_append]
    omega
  have hfront : upTo (tl ++ value ++ rest) (value ++ rest) = tl := by
    rw [append_assoc]
    exact upTo_append tl (value ++ rest)
  have htake : (value ++ rest).take value.length = value := take_left
  have hdrop : (value ++ rest).drop value.length = rest := drop_left
  rw [parseLoop, if_neg hne, hread]
  simp only [bind, Except.bind, if_neg hfits, hfront, htake, hdrop]

section

variable (hbs : ∀ b ∈ bs, Encodes b.tl b.type b.value.length)
include hbs

theorem parseLoop_flatMap_wire (after : List UInt8) {fuel : Nat} (hfuel : bs.length ≤ fuel) :
    parseLoop after fuel (bs.flatMap wire) = .ok (layout after bs) := by
  induction bs generalizing fuel with
  | nil =>
    cases fuel with
    | zero => rfl
    | succ fuel => simp [parseLoop, layout]
  | cons b bs ih =>
    cases fuel with
    | zero => simp at hfuel
    | succ fuel =>
      have htail := ih (fun c hc => hbs c (.tail _ hc)) (Nat.le_of_succ_le_succ hfuel)
      rw [flatMap_cons, wire, parseLoop_append (hbs b (.head _)), htail]
      rfl

theorem length_le_length_flatMap_wire : bs.length ≤ (bs.flatMap wire).length := by
  induction bs with
  | nil => simp
  | cons b bs ih =>
    have htail := ih fun c hc => hbs c (.tail _ hc)
    have hhead := length_pos_iff.2 (hbs b (.head _)).ne_nil
    simp only [flatMap_cons, wire, length_append, length_cons]
    omega

/-- **Parsing inverts laying out.** -/
theorem parse_flatMap_wire (hb : b.value = bs.flatMap wire) :
    b.parse = .ok (layout b.after bs) := by
  rw [parse, hb]
  exact parseLoop_flatMap_wire hbs b.after (length_le_length_flatMap_wire hbs)

end

theorem make_encodes (hpos : 0 < type) (htype : type < 2 ^ 32) (hvalue : value.length < 2 ^ 64) :
    Encodes (make type value).tl (make type value).type (make type value).value.length :=
  encodes_writeVarNumber hpos htype hvalue

/-- **Reading inverts writing**, for one element and whatever follows it. -/
theorem fromBuffer_append (h : Encodes b.tl b.type b.value.length) (rest : List UInt8) :
    fromBuffer (b.wire ++ rest) = .ok { b with after := [] } := by
  have hread := h (b.value ++ rest)
  have hfront := upTo_append b.tl (b.value ++ rest)
  have hfits : ¬ (b.value ++ rest).length < b.value.length := by
    rw [length_append]
    omega
  have htake : (b.value ++ rest).take b.value.length = b.value := take_left
  rw [fromBuffer, wire, append_assoc, hread]
  simp only [bind, Except.bind, if_neg hfits, hfront, htake]

theorem fromBuffer_wire (h : Encodes b.tl b.type b.value.length) :
    fromBuffer b.wire = .ok { b with after := [] } := by
  have hread := fromBuffer_append h []
  rwa [append_nil] at hread

theorem fromBuffer_make (hpos : 0 < type) (htype : type < 2 ^ 32) (hvalue : value.length < 2 ^ 64) :
    fromBuffer (make type value).wire = .ok (make type value) :=
  fromBuffer_wire (make_encodes hpos htype hvalue)

theorem map_layout (after : List UInt8) (bs : List Block) :
    (layout after bs).map (fun b => (b.type, b.value)) = bs.map fun b => (b.type, b.value) := by
  induction bs with
  | nil => rfl
  | cons b bs ih => rw [layout, map_cons, map_cons, ih]

end Block

/-- The elements of a name. -/
def Name.blocks (n : Name) : List Block := n.map fun c => ⟨c.type, c.tl, c.value, []⟩

theorem Name.flatMap_wire_blocks (n : Name) : n.blocks.flatMap Block.wire = n.wireValue := by
  simp only [blocks, wireValue, flatMap_map]
  rfl

theorem Name.length_value_le {n : Name} {c : Component} (hc : c ∈ n) :
    c.value.length ≤ n.wireValue.length := by
  induction n with
  | nil => cases hc
  | cons b n ih => grind [wireValue, Component.wire]

theorem Name.map_ofBlock_layout (n : Name) (after : List UInt8) :
    (layout after n.blocks).map ofBlock = n := by
  induction n with
  | nil => rfl
  | cons c n ih =>
    change c :: (layout after (blocks n)).map ofBlock = c :: n
    rw [ih]

theorem Name.wireDecode_wireValue {n : Name} (hn : n.WellFormed) {b : Block}
    (htype : b.type = Tlv.name) (hvalue : b.value = n.wireValue) : wireDecode b = .ok n := by
  have hblocks : ∀ c ∈ n.blocks, Encodes c.tl c.type c.value.length := by
    intro b hb
    obtain ⟨c, hc, rfl⟩ := mem_map.1 hb
    exact hn c hc
  have hparse := parse_flatMap_wire hblocks (b := b) (hvalue.trans (flatMap_wire_blocks n).symm)
  rw [wireDecode, if_neg (by simp [htype]), fromBlock, hparse]
  simp only [bind, Except.bind, pure, Except.pure, map_ofBlock_layout]

/-! ## Data -/

/-- What signing adds to a Data: a SignatureInfo that decodes, and a value. -/
structure Signature where
  info : List UInt8
  value : List UInt8
  decodes : ∀ after, ∃ i,
    SignatureInfo.wireDecode { Block.make Tlv.signatureInfo info with after } = .ok i

namespace Data

/-- The octets of the signature elements; they follow the content in the packet. -/
def signatureWire (sig : Signature) : List UInt8 :=
  [Block.make Tlv.signatureInfo sig.info, Block.make Tlv.signatureValue sig.value].flatMap
    Block.wire

/-- The elements of a Data whose MetaInfo is empty. -/
def blocks (name : Name) (content : List UInt8) (sig : Signature) : List Block :=
  [Block.make Tlv.name name.wireValue, Block.make Tlv.metaInfo [], Block.make Tlv.content content,
    Block.make Tlv.signatureInfo sig.info, Block.make Tlv.signatureValue sig.value]

def wireEncode (name : Name) (content : List UInt8) (sig : Signature) : List UInt8 :=
  (Block.make Tlv.data ((blocks name content sig).flatMap Block.wire)).wire

theorem length_wireValue_le (name : Name) (content : List UInt8) (sig : Signature) :
    name.wireValue.length ≤ (wireEncode name content sig).length := by
  simp only [wireEncode, blocks, Block.make, Block.wire, flatMap_cons, length_append]
  omega

theorem length_make_le (type : Nat) (value : List UInt8) :
    (Block.make type value).wire.length ≤ value.length + 18 := by
  have hsize : ∀ n, (Tlv.writeVarNumber n).length ≤ 9 := fun n => by
    unfold Tlv.writeVarNumber
    split_ifs <;> simp [Tlv.length_toBigEndian]
  have htype := hsize type
  have hlength := hsize value.length
  simp only [Block.make, Block.wire, length_append]
  omega

/-- No type and length takes more than 18 octets. -/
theorem length_wireEncode_le (name : Name) (content : List UInt8) (sig : Signature) :
    (wireEncode name content sig).length ≤
      name.wireValue.length + content.length + sig.info.length + sig.value.length + 108 := by
  have hname := length_make_le Tlv.name name.wireValue
  have hmeta := length_make_le Tlv.metaInfo []
  have hcontent := length_make_le Tlv.content content
  have hinfo := length_make_le Tlv.signatureInfo sig.info
  have hvalue := length_make_le Tlv.signatureValue sig.value
  refine (length_make_le _ _).trans ?_
  simp only [blocks, flatMap_cons, flatMap_nil, length_append, length_nil] at hmeta ⊢
  omega

variable {name : Name} {content : List UInt8} {sig : Signature}

theorem blocks_encodes (hsize : (wireEncode name content sig).length < 2 ^ 64) :
    ∀ b ∈ blocks name content sig, Block.Encodes b.tl b.type b.value.length := by
  have hlengths : name.wireValue.length < 2 ^ 64 ∧ content.length < 2 ^ 64 ∧
      sig.info.length < 2 ^ 64 ∧ sig.value.length < 2 ^ 64 := by
    simp only [wireEncode, blocks, Block.make, Block.wire, flatMap_cons, flatMap_nil,
      length_append] at hsize
    omega
  obtain ⟨hname, hcontent, hinfo, hvalue⟩ := hlengths
  intro b hb
  simp only [blocks, mem_cons, not_mem_nil, or_false] at hb
  rcases hb with rfl | rfl | rfl | rfl | rfl
  · exact make_encodes (by decide) (by decide) hname
  · exact make_encodes (by decide) (by decide) (by decide)
  · exact make_encodes (by decide) (by decide) hcontent
  · exact make_encodes (by decide) (by decide) hinfo
  · exact make_encodes (by decide) (by decide) hvalue

theorem fromBuffer_wireEncode (hsize : (wireEncode name content sig).length < 2 ^ 64) :
    Block.fromBuffer (wireEncode name content sig) =
      .ok (Block.make Tlv.data ((blocks name content sig).flatMap Block.wire)) := by
  refine fromBuffer_make (by decide) (by decide) ?_
  simp only [wireEncode, Block.wire, Block.make, length_append] at hsize
  omega

section

variable {d : Data} {b : Block}

theorem decodeElement_signatureInfo (htype : b.type = Tlv.signatureInfo) {i : SignatureInfo}
    (hdecode : SignatureInfo.wireDecode b = .ok i) :
    decodeElement (3, d) b = .ok (4, { d with signatureInfo := some i }) := by
  simp only [decodeElement, htype, hdecode]
  rfl

end

/-- **Decoding inverts encoding**: the packet has the name, content and signature it was made of. -/
theorem decode_wireEncode (hname : name.WellFormed)
    (hsize : (wireEncode name content sig).length < 2 ^ 64) :
    ∃ d, (Block.fromBuffer (wireEncode name content sig)).bind wireDecode = .ok d ∧
      d.name = name ∧ d.metaInfo = .default ∧
      d.content = some { Block.make Tlv.content content with after := signatureWire sig } := by
  have hparse := parse_flatMap_wire (blocks_encodes hsize)
    (b := Block.make Tlv.data ((blocks name content sig).flatMap Block.wire)) rfl
  obtain ⟨i, hinfo⟩ := sig.decodes (Block.make Tlv.signatureValue sig.value).wire
  have hdecode : ∀ after, Name.wireDecode { Block.make Tlv.name name.wireValue with after }
      = .ok name := fun after => Name.wireDecode_wireValue hname rfl rfl
  -- the elements one after the other, as `decodeElement` sees them
  have hlayout : Block.layout [] (blocks name content sig) =
      [{ Block.make Tlv.name name.wireValue with
          after := (blocks name content sig).tail.flatMap Block.wire },
        { Block.make Tlv.metaInfo [] with
          after := (Block.make Tlv.content content).wire ++ signatureWire sig },
        { Block.make Tlv.content content with after := signatureWire sig },
        { Block.make Tlv.signatureInfo sig.info with
          after := (Block.make Tlv.signatureValue sig.value).wire },
        Block.make Tlv.signatureValue sig.value] := by
    simp [Block.layout, blocks, signatureWire, Block.make]
  rw [fromBuffer_wireEncode hsize]
  refine ⟨⟨name, .default, some { Block.make Tlv.content content with after := signatureWire sig },
    some i, some (Block.make Tlv.signatureValue sig.value), wireEncode name content sig, false⟩,
    ?_, rfl, rfl, rfl⟩
  have hafter : (Block.make Tlv.data ((blocks name content sig).flatMap Block.wire)).after = [] :=
    rfl
  rw [hafter, hlayout] at hparse
  change wireDecode _ = _
  rw [wireDecode, if_neg (by simp [Block.make]), hparse]
  simp only [bind, Except.bind, hdecode]
  change Except.bind (List.foldlM decodeElement (3, _) _) _ = _
  rw [foldlM_cons, decodeElement_signatureInfo rfl hinfo]
  rfl

end Data

/-! ## `Block::parse` on a block as an object

It keeps the elements that were appended before it raised. -/

namespace Block

/-- The loop of `Block::parse`: how it ends, and the elements it leaves.  Only a TLV-LENGTH that is
    out of bounds clears them. -/
def parseInto (after : List UInt8) : Nat → List UInt8 → List Block → Raises Unit × List Block
  | 0, _, elements => (.ok (), elements)
  | fuel + 1, bs, elements =>
    if bs = [] then (.ok (), elements)
    else
      match readTypeLength bs with
      | .error e => (.error e, elements)
      | .ok (type, length, rest) =>
        if rest.length < length then
          (.error (.tlvError (s!"TLV-LENGTH of sub-element of type {type} " ++
            "exceeds TLV-VALUE boundary of parent block")), [])
        else
          parseInto after fuel (rest.drop length)
            (elements ++ [⟨type, upTo bs rest, rest.take length, rest.drop length ++ after⟩])

/-- `Block::parse` of a block that has these elements: how it ends, and its elements then. -/
def parseObject (b : Block) (elements : List Block) : Raises Unit × List Block :=
  if elements ≠ [] ∨ b.value = [] then (.ok (), elements)
  else parseInto b.after b.value.length b.value []

/-- Complete elements with legal types. -/
def AreElements (es : List Block) : Prop := ∀ e ∈ es, Encodes e.tl e.type e.value.length

/-- After an element, the TLV-TYPE or TLV-LENGTH of the next one cannot be read. -/
def BreaksLate (value : List UInt8) : Prop :=
  ∃ es rest e, AreElements es ∧ es ≠ [] ∧ value = es.flatMap wire ++ rest ∧ rest ≠ [] ∧
    readTypeLength rest = .error e

variable {bs rest : List UInt8} {fuel : Nat} {es : List Block}

/-- The loop ends as the one that gives the elements does. -/
theorem parseInto_eq (after bs : List UInt8) (fuel : Nat) (acc : List Block) :
    ∃ left, parseInto after fuel bs acc = match parseLoop after fuel bs with
      | .ok es => (.ok (), acc ++ es)
      | .error e => (.error e, left) := by
  induction fuel generalizing bs acc with
  | zero => exact ⟨[], by simp [parseInto, parseLoop]⟩
  | succ fuel ih =>
    rw [parseInto, parseLoop]
    by_cases hbs : bs = []
    · exact ⟨[], by simp [hbs]⟩
    rw [if_neg hbs, if_neg hbs]
    cases readTypeLength bs with
    | error e => exact ⟨acc, rfl⟩
    | ok r =>
      simp only [bind, Except.bind]
      split
      · exact ⟨[], rfl⟩
      · obtain ⟨left, hleft⟩ := ih (r.2.2.drop r.2.1) (acc ++
          [⟨r.1, upTo bs r.2.2, r.2.2.take r.2.1, r.2.2.drop r.2.1 ++ after⟩])
        refine ⟨left, hleft.trans ?_⟩
        cases parseLoop after fuel (r.2.2.drop r.2.1) <;> simp [pure, Except.pure]

theorem readTypeLength_elements {x : Block} (hes : AreElements (x :: es))
    (hbs : bs = (x :: es).flatMap wire ++ rest) :
    readTypeLength bs = .ok (x.type, x.value.length, x.value ++ (es.flatMap wire ++ rest)) := by
  rw [hbs, flatMap_cons, wire, append_assoc, append_assoc]
  exact hes x (.head _) _

/-- What raises leaves elements exactly if there are some before a TLV-TYPE or TLV-LENGTH that
    cannot be read. -/
theorem parseInto_leaves_iff (after : List UInt8) (acc : List Block) (hfuel : bs.length ≤ fuel) :
    (∃ e, (parseInto after fuel bs acc).1 = .error e) ∧ (parseInto after fuel bs acc).2 ≠ [] ↔
      ∃ es rest e, AreElements es ∧ acc ++ es ≠ [] ∧ bs = es.flatMap wire ++ rest ∧ rest ≠ [] ∧
        readTypeLength rest = .error e := by
  induction fuel generalizing bs acc with
  | zero =>
    obtain rfl := eq_nil_of_length_eq_zero (Nat.le_zero.1 hfuel)
    simp +contextual [parseInto]
  | succ fuel ih =>
    by_cases hbs : bs = []
    · simp +contextual [parseInto, hbs]
    rw [parseInto, if_neg hbs]
    constructor
    · cases hread : readTypeLength bs with
      | error e =>
        rintro ⟨-, hne⟩
        exact ⟨[], bs, e, by simp [AreElements], by simpa using hne, rfl, hbs, hread⟩
      | ok r =>
        obtain ⟨type, length, r⟩ := r
        dsimp only
        split
        · rintro ⟨-, hne⟩
          exact absurd rfl hne
        · rename_i hfits
          obtain ⟨hsplit, hencodes⟩ := readTypeLength_split hread
          have hlen := congrArg List.length hsplit
          rw [length_append] at hlen
          have hpos := hencodes.length_pos
          rw [ih _ (by rw [length_drop]; omega)]
          rintro ⟨es, rest, e, hes, -, hrest, hbreak⟩
          refine ⟨⟨type, upTo bs r, r.take length, []⟩ :: es, rest, e,
            forall_mem_cons.2 ⟨?_, hes⟩, by simp, ?_, hbreak⟩
          · rwa [length_take_of_le (Nat.le_of_not_lt hfits)]
          · rw [flatMap_cons, wire, append_assoc, ← hrest, append_assoc, take_append_drop]
            exact hsplit
    · rintro ⟨_ | ⟨x, es⟩, rest, e, hes, hne, hsplit, hrest, hbreak⟩
      · obtain rfl : bs = rest := hsplit
        rw [hbreak]
        exact ⟨⟨e, rfl⟩, by simpa using hne⟩
      · rw [readTypeLength_elements hes hsplit]
        have hpos := (hes x (.head _)).length_pos
        simp only [hsplit, flatMap_cons, wire, length_append] at hfuel
        simp only [length_append, drop_left]
        rw [if_neg (by omega), ih _ (by rw [length_append]; omega)]
        exact ⟨es, rest, e, (forall_mem_cons.1 hes).2, by simp, rfl, hrest, hbreak⟩

theorem parseObject_nil (b : Block) :
    parseObject b [] = parseInto b.after b.value.length b.value [] := by
  by_cases hvalue : b.value = [] <;> simp [parseObject, hvalue, parseInto]

/-- **Parsing** succeeds exactly for sequences of elements, with these elements; and one that raises
    leaves the block as it was, so that it raises again, exactly if it does not break after an
    element. -/
theorem parseObject_iff (b : Block) :
    ((parseObject b []).1 = .ok () ↔ ∃ es, AreElements es ∧ b.value = es.flatMap wire) ∧
      (∀ es, AreElements es → b.value = es.flatMap wire →
        (parseObject b []).2 = layout b.after es) ∧
      ((∀ e, (parseObject b []).1 = .error e → (parseObject b []).2 = [] ∧
          (parseObject b (parseObject b []).2).1 = .error e) ↔ ¬ BreaksLate b.value) := by
  have hleaves := parseInto_leaves_iff b.after [] (Nat.le_refl b.value.length)
  obtain ⟨left, heval⟩ := parseInto_eq b.after b.value b.value.length []
  rw [← parseObject_nil] at hleaves heval
  change _ = match b.parse with | .ok es => _ | .error e => _ at heval
  refine ⟨⟨fun hok => ?_, ?_⟩, fun es hes hvalue => ?_, fun hkept hlate => ?_,
    fun hlate e hraise => ?_⟩
  · cases hparse : b.parse with
    | error e =>
      rw [heval, hparse] at hok
      cases hok
    | ok es => exact ⟨es, parse_encodes hparse, (parse_wire hparse).symm⟩
  · rintro ⟨es, hes, hvalue⟩
    rw [heval, parse_flatMap_wire hes hvalue]
  · rw [heval, parse_flatMap_wire hes hvalue]
    rfl
  · obtain ⟨⟨e, hraise⟩, hne⟩ := hleaves.2 hlate
    exact hne (hkept e hraise).1
  · have hnil : (parseObject b []).2 = [] := by
      by_contra hne
      exact hlate (hleaves.1 ⟨⟨e, hraise⟩, hne⟩)
    exact ⟨hnil, by rw [hnil, hraise]⟩

/-- An element of type 8 and then the type 0: the first call raises, the second one does not and
    exposes the element. -/
theorem parse_exposes_element :
    let b : Block := ⟨7, [7, 4], [8, 0, 0, 0], []⟩
    parseObject b [] = (.error (.tlvError "Illegal TLV-TYPE 0"), [⟨8, [8, 0], [], [0, 0]⟩]) ∧
      parseObject b (parseObject b []).2 = (.ok (), [⟨8, [8, 0], [], [0, 0]⟩]) := by
  decide

end Block

end NdnMulticast.Ndn
