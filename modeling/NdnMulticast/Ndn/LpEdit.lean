/-
  What modifying a link-layer packet does to its fields, up to their order, and to its size.

  `add` and `set` are described by what they do to the elements of one type and to all others, so
  that the fragmenter and the reliability layer can speak of the fields they leave alone.
-/

import Mathlib.Algebra.Order.BigOperators.Group.List
import NdnMulticast.Ndn.LpPacket

namespace NdnMulticast.Ndn

open Lib List Tlv Except Block Nat

namespace Tlv

theorem sizeOfVarNumber_le (n : Nat) : sizeOfVarNumber n ≤ 9 := by
  unfold sizeOfVarNumber
  split_ifs <;> omega

/-- No encoding of a number is shorter than the one that is written. -/
theorem sizeOfVarNumber_le_length {front : List UInt8} {n : Nat} (hne : front ≠ [])
    (h : ∀ r, readVarNumber (front ++ r) = .ok (n, r)) : sizeOfVarNumber n ≤ front.length := by
  cases front with
  | nil => exact absurd rfl hne
  | cons first digits =>
    have hread := h []
    rw [append_nil] at hread
    by_cases hsmall : first.toNat < 253
    · simp only [readVarNumber, if_pos hsmall, ok.injEq, Prod.mk.injEq] at hread
      rw [← hread.1, sizeOfVarNumber, if_pos hsmall, length_cons]
      omega
    · by_cases hshort : digits.length < wideSize first
      · simp only [wideSize] at hshort
        simp only [readVarNumber, if_neg hsmall, if_pos hshort] at hread
        cases hread
      · -- the number has as many octets as the first one says
        have hlen : (digits.take (wideSize first)).length = wideSize first :=
          length_take_of_le (by omega)
        have hwide := readVarNumber_wide hsmall hlen (digits.drop (wideSize first))
        rw [take_append_drop, hread, ok.injEq, Prod.mk.injEq] at hwide
        have hlt := bigEndian_lt (digits.take (wideSize first))
        rw [hlen, ← hwide.1] at hlt
        rw [length_cons]
        have hsize : sizeOfVarNumber n ≤ wideSize first + 1 := by
          unfold wideSize at hlt ⊢
          unfold sizeOfVarNumber
          split at hlt
          · split_ifs <;> omega
          · grind
        omega

end Tlv

/-- TLV-TYPE and TLV-LENGTH take at least as many octets as in the shortest encoding. -/
theorem Block.Encodes.size_le {tl : List UInt8} {type length : Nat}
    (h : Encodes tl type length) :
    sizeOfVarNumber type + sizeOfVarNumber length ≤ tl.length := by
  obtain ⟨⟨t, r₁⟩, htype, h⟩ := bind_eq_ok_iff.1 (h [])
  obtain ⟨⟨l, r₂⟩, hlen, h⟩ := bind_eq_ok_iff.1 h
  obtain ⟨rfl, rfl, rfl⟩ : t = type ∧ l = length ∧ r₂ = [] := by
    simpa [pure, Except.pure] using h
  obtain ⟨r, hvar, hr⟩ := bind_eq_ok_iff.1 htype
  split at hr
  · cases hr
  obtain rfl := ok.inj hr
  obtain ⟨front₁, heq, hne₁, hread₁⟩ := readVarNumber_split hvar
  obtain ⟨front₂, rfl, hne₂, hread₂⟩ := readVarNumber_split hlen
  have hlength := congrArg length heq
  have hsize₁ := sizeOfVarNumber_le_length hne₁ hread₁
  have hsize₂ := sizeOfVarNumber_le_length hne₂ hread₂
  simp only [length_append, length_nil, add_zero] at hlength
  omega

namespace Lp.Packet

variable {V : Type} {f : Field V} {v : V} {p p' : Packet}

/-! ## Fields -/

theorem add_perm (h : p.add f v = .ok p') :
    ∃ value, f.encode v = .ok value ∧ p'.wire = none ∧
      p'.elements.Perm (make f.decl.tlvType value :: p.elements) := by
  obtain ⟨-, value, hvalue, rfl⟩ := add_eq_ok h
  exact ⟨value, hvalue, rfl, perm_orderedInsert _ _ _⟩

/-- `set` takes out the elements of the type and puts in one. -/
theorem set_perm (h : p.set f v = .ok p') :
    ∃ value, f.encode v = .ok value ∧ p'.wire = none ∧
      p'.elements.Perm (make f.decl.tlvType value ::
        p.elements.filter (·.type != f.decl.tlvType)) :=
  add_perm h

variable {keep : Block → Bool} {value : List UInt8} {e : Block} {q : Packet}

/-- Elements of other types stay as they are, and in their order. -/
theorem filter_add (h : p.add f v = .ok p')
    (hkeep : ∀ value, keep (make f.decl.tlvType value) = false) :
    p'.elements.filter keep = p.elements.filter keep := by
  obtain ⟨-, value, -, rfl⟩ := add_eq_ok h
  rw [orderedInsert_eq_take_drop, filter_append,
    filter_cons_of_neg (by simp [hkeep]), ← filter_append, takeWhile_append_dropWhile]

theorem filter_set (h : p.set f v = .ok p')
    (hkeep : ∀ e, e.type = f.decl.tlvType → keep e = false) :
    p'.elements.filter keep = p.elements.filter keep := by
  have hadd : p'.elements.filter keep = (p.clear f).elements.filter keep :=
    filter_add h fun value => hkeep _ rfl
  rw [hadd, clear, filter_filter]
  refine filter_congr fun e _ => ?_
  by_cases htype : e.type = f.decl.tlvType
  · simp [hkeep e htype]
  · simp [htype]

/-- The new element is the last of its type. -/
theorem WellFormed.filter_add_self (hp : p.WellFormed) (h : p.add f v = .ok p')
    (hvalue : f.encode v = .ok value) :
    p'.elements.filter (·.type == f.decl.tlvType) =
      p.elements.filter (·.type == f.decl.tlvType) ++ [make f.decl.tlvType value] := by
  obtain ⟨-, value', hvalue', rfl⟩ := add_eq_ok h
  obtain rfl := ok.inj (hvalue'.symm.trans hvalue)
  have horder := hp.inOrder
  generalize p.elements = es at horder ⊢
  induction es with
  | nil => simp [make]
  | cons e es ih =>
    rw [map_cons, pairwise_cons] at horder
    rw [orderedInsert_cons]
    split
    · -- what must come after the field is not of its type, nor is anything behind it
      rename_i hbefore
      have hpos := (compareFieldSortOrder_iff _ e.type).1 hbefore
      have hpos : f.decl.tlvType ≠ Tlv.fragment ∧
        (e.type = Tlv.fragment ∨ f.decl.tlvType < e.type) := hpos
      have hnone : (e :: es).filter (·.type == f.decl.tlvType) = [] := by
        rw [filter_eq_nil_iff]
        intro x hx
        rw [beq_iff_eq]
        rcases mem_cons.1 hx with rfl | hx
        · omega
        · have hlater := horder.1 x.type (mem_map_of_mem hx)
          unfold MayPrecede at hlater
          omega
      rw [filter_cons, hnone]
      simp [make]
    · grind

theorem has_eq_false_iff : p.has f = false ↔ ∀ e ∈ p.elements, e.type ≠ f.decl.tlvType := by
  rw [has, decide_eq_false_iff_not, pos_iff_ne_zero, not_not, count, countP_eq_zero]
  simp

theorem exists_add (hvalue : f.encode v = .ok value) (hnew : p.has f = false) :
    ∃ p', p.add f v = .ok p' := by
  rw [add, hnew, Bool.and_false, if_neg Bool.false_ne_true, hvalue]
  exact ⟨_, rfl⟩

theorem exists_set (hvalue : f.encode v = .ok value) : ∃ p', p.set f v = .ok p' := by
  refine exists_add hvalue (has_eq_false_iff.2 fun e he => ?_)
  have hkeep := (mem_filter.1 he).2
  simpa using hkeep

/-- A field that is not repeatable is there once. -/
theorem WellFormed.filter_type (h : p.WellFormed) (he : e ∈ p.elements)
    (hne : (fieldInfo e.type).isRepeatable = false) :
    p.elements.filter (·.type == e.type) = [e] := by
  have hone : (p.elements.filter (·.type == e.type)).length ≤ 1 := by
    have hcount := h.count_le_one hne
    rw [List.count, countP_map, countP_eq_length_filter] at hcount
    exact hcount
  have hmem : e ∈ p.elements.filter (·.type == e.type) := mem_filter.2 ⟨he, beq_self_eq_true _⟩
  cases hl : p.elements.filter (·.type == e.type) with
  | nil =>
    rw [hl] at hmem
    cases hmem
  | cons x rest => simp_all

theorem WellFormed.perm_of_mem (h : p.WellFormed) (he : e ∈ p.elements)
    (hne : (fieldInfo e.type).isRepeatable = false) :
    p.elements.Perm (e :: p.elements.filter (·.type != e.type)) := by
  have hperm := (filter_append_perm (·.type == e.type) p.elements).symm
  rw [h.filter_type he hne] at hperm
  exact hperm

theorem WellFormed.get_eq (h : p.WellFormed) (hf : f.decl.isRepeatable = false)
    (he : e ∈ p.elements) (htype : e.type = f.decl.tlvType) : p.get f = f.decode e.value := by
  have hne : (fieldInfo e.type).isRepeatable = false := by
    rw [fieldInfo_isRepeatable, htype, ← isRepeatable_decl f, hf]
  unfold get
  cases hfind : p.elements.find? (·.type == f.decl.tlvType) with
  | none => exact absurd (beq_iff_eq.2 htype) (find?_eq_none.1 hfind e he)
  | some e' =>
    have htest := find?_some hfind
    have htype' : e'.type = e.type := (beq_iff_eq.1 htest).trans htype.symm
    have hmem : e' ∈ p.elements.filter (·.type == e.type) :=
      mem_filter.2 ⟨mem_of_find?_eq_some hfind, beq_iff_eq.2 htype'⟩
    rw [h.filter_type he hne] at hmem
    rw [mem_singleton.1 hmem]

theorem exists_of_get (h : p.get f = .ok v) :
    ∃ e ∈ p.elements, e.type = f.decl.tlvType ∧ f.decode e.value = .ok v := by
  unfold get at h
  split at h
  · grind
  · cases h

theorem has_of_get (h : p.get f = .ok v) : p.has f = true := by
  obtain ⟨e, he, htype, -⟩ := exists_of_get h
  by_contra hnot
  exact has_eq_false_iff.1 (Bool.not_eq_true _ ▸ hnot) e he htype

/-! ### What `get` and `has` depend on -/

section

variable (h : (p.elements.filter (·.type == f.decl.tlvType)).map Block.value =
  (q.elements.filter (·.type == f.decl.tlvType)).map Block.value)
include h

/-- A field is read from the elements of its type. -/
theorem get_eq_of_filter : p.get f = q.get f := by
  have hhead : (p.elements.find? (·.type == f.decl.tlvType)).map value =
      (q.elements.find? (·.type == f.decl.tlvType)).map value := by
    rw [← head?_filter, ← head?_filter, ← head?_map, ← head?_map, h]
  unfold get
  generalize p.elements.find? (·.type == f.decl.tlvType) = x at hhead ⊢
  generalize q.elements.find? (·.type == f.decl.tlvType) = y at hhead ⊢
  cases x with
  | none =>
    cases y with
    | none => rfl
    | some e => cases hhead
  | some e => grind

theorem has_eq_of_filter : p.has f = q.has f := by
  have hlength := congrArg length h
  rw [length_map, length_map] at hlength
  rw [has, has, count, count, countP_eq_length_filter, countP_eq_length_filter, hlength]

end

theorem filter_eq_of_fields (h : p.fields = q.fields) (tlvType : Nat) :
    (p.elements.filter (·.type == tlvType)).map Block.value =
      (q.elements.filter (·.type == tlvType)).map Block.value := by
  have hfields := congrArg (fun l => (l.filter (·.1 == tlvType)).map Prod.snd) h
  simp only [fields, filter_map, map_map] at hfields
  exact hfields

theorem get_congr (h : p.fields = q.fields) : p.get f = q.get f :=
  get_eq_of_filter (filter_eq_of_fields h _)

theorem has_congr (h : p.fields = q.fields) : p.has f = q.has f :=
  has_eq_of_filter (filter_eq_of_fields h _)

section

variable {W : Type} {g : Field W}

theorem filter_set_of_ne (h : p.set f v = .ok p') (hne : g.decl.tlvType ≠ f.decl.tlvType) :
    p'.elements.filter (·.type == g.decl.tlvType) =
      p.elements.filter (·.type == g.decl.tlvType) := by
  refine filter_set h fun e he => ?_
  rw [he]
  exact beq_eq_false_iff_ne.2 hne.symm

theorem get_set_of_ne (h : p.set f v = .ok p') (hne : g.decl.tlvType ≠ f.decl.tlvType) :
    p'.get g = p.get g :=
  get_eq_of_filter (congrArg _ (filter_set_of_ne h hne))

theorem has_set_of_ne (h : p.set f v = .ok p') (hne : g.decl.tlvType ≠ f.decl.tlvType) :
    p'.has g = p.has g :=
  has_eq_of_filter (congrArg _ (filter_set_of_ne h hne))

/-- What has been set is what is read. -/
theorem WellFormed.get_set (hp : p.WellFormed) (h : p.set f v = .ok p')
    (hf : f.decl.isRepeatable = false) {value : List UInt8} (hvalue : f.encode v = .ok value) :
    p'.get f = f.decode value := by
  obtain ⟨value', hvalue', -, hperm⟩ := set_perm h
  obtain rfl := Except.ok.inj (hvalue'.symm.trans hvalue)
  exact (hp.set h).get_eq hf (hperm.mem_iff.2 (.head _)) rfl

end

/-! ## Sizes -/

/-- The octets of an element in the shortest encoding. -/
def fieldSize (e : Block) : Nat := (reencode e).wire.length

theorem fieldSize_eq (e : Block) :
    fieldSize e = sizeOfVarNumber e.type + sizeOfVarNumber e.value.length + e.value.length := by
  rw [fieldSize, reencode, Block.make, Block.wire, length_append, length_append,
    Ndn.Tlv.length_writeVarNumber, Ndn.Tlv.length_writeVarNumber]

/-- The octets of all fields in the shortest encoding. -/
def valueSize (p : Packet) : Nat := (p.elements.map fieldSize).sum

theorem length_flatMap_reencode (es : List Block) :
    ((es.map reencode).flatMap Block.wire).length = (es.map fieldSize).sum := by
  rw [length_flatMap, map_map]
  rfl

/-- The size of a packet that is encoded anew, by its fields. -/
theorem size_encode (h : p.wire = none) :
    p.encode.wire.length = 1 + sizeOfVarNumber p.valueSize + p.valueSize := by
  rw [encode, h, Option.getD_none, Block.make, Block.wire, length_append, length_append,
    Ndn.Tlv.length_writeVarNumber, Ndn.Tlv.length_writeVarNumber, length_flatMap_reencode]
  rfl

theorem size_encode_le (h : p.wire = none) : p.encode.wire.length ≤ 10 + p.valueSize := by
  have hle := sizeOfVarNumber_le p.valueSize
  rw [size_encode h]
  omega

theorem isBare_eq_false (he : e ∈ p.elements) (hne : e.type ≠ Tlv.fragment) : p.isBare = false := by
  unfold isBare
  split
  · simp_all
  · rfl

theorem fieldSize_le_of_encodes (h : Block.Encodes e.tl e.type e.value.length) :
    fieldSize e ≤ e.wire.length := by
  have hle := h.size_le
  rw [fieldSize_eq, Block.wire, length_append]
  omega

/-- A packet as received may take more octets than its fields need. -/
theorem WellFormed.valueSize_le_of_wire (h : p.WellFormed) {b : Block} (hb : p.wire = some b) :
    p.valueSize ≤ b.value.length := by
  obtain ⟨-, hparse, -⟩ := h.fromWire b hb
  rw [← parse_wire hparse, length_flatMap, valueSize]
  exact sum_le_sum fun e he => fieldSize_le_of_encodes (parse_encodes hparse e he)

/-- `add` costs the size of the new field. -/
theorem valueSize_add (h : p.add f v = .ok p') (hvalue : f.encode v = .ok value) :
    p'.valueSize = fieldSize (make f.decl.tlvType value) + p.valueSize := by
  obtain ⟨value', hvalue', -, hperm⟩ := add_perm h
  obtain rfl := ok.inj (hvalue'.symm.trans hvalue)
  rw [valueSize, (hperm.map fieldSize).sum_eq, map_cons, sum_cons]
  rfl

theorem valueSize_set (h : p.set f v = .ok p') (hvalue : f.encode v = .ok value) :
    p'.valueSize = fieldSize (make f.decl.tlvType value) +
      ((p.elements.filter (·.type != f.decl.tlvType)).map fieldSize).sum :=
  valueSize_add h hvalue

theorem valueSize_set_le (h : p.set f v = .ok p') (hvalue : f.encode v = .ok value) :
    p'.valueSize ≤ fieldSize (make f.decl.tlvType value) + p.valueSize := by
  have hsub : ((p.elements.filter (·.type != f.decl.tlvType)).map fieldSize).Sublist
      (p.elements.map fieldSize) := filter_sublist.map fieldSize
  rw [valueSize_set h hvalue]
  exact Nat.add_le_add_left (hsub.sum_le_sum fun _ _ => Nat.zero_le _) _

end Lp.Packet

end NdnMulticast.Ndn
