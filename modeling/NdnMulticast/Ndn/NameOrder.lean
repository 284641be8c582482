/-
  The two orders of names: `Name::compare`, which compares the encodings of components octet
  by octet, and the canonical order, which goes by TLV-TYPE, TLV-LENGTH and TLV-VALUE.
-/

import NdnMulticast.Ndn.Name

namespace NdnMulticast.Ndn

open List Bool Tlv Ordering Nat

/-! ## Octets -/

def octets (bs : List UInt8) : List Nat := bs.map UInt8.toNat

variable {as bs : List UInt8}

section

variable (hlen : as.length = bs.length)
include hlen

theorem memcmp_append (x y : List UInt8) :
    memcmp (as ++ x) (bs ++ y) = (memcmp as bs).then (memcmp x y) := by
  induction as generalizing bs with
  | nil =>
    obtain rfl := eq_nil_of_length_eq_zero hlen.symm
    rfl
  | cons a as ih =>
    cases bs with
    | nil => cases hlen
    | cons b bs => grind [memcmp]

theorem memcmp_eq_compare_bigEndian :
    memcmp as bs = compare (Tlv.bigEndian as) (Tlv.bigEndian bs) := by
  induction as generalizing bs with
  | nil =>
    obtain rfl := eq_nil_of_length_eq_zero hlen.symm
    rfl
  | cons a as ih =>
    cases bs with
    | nil => cases hlen
    | cons b bs =>
      have hlen' : as.length = bs.length := succ.inj hlen
      have hltA := bigEndian_lt as
      have hltB := bigEndian_lt bs
      rw [memcmp, bigEndian_cons, bigEndian_cons, hlen', ih hlen']
      rw [hlen'] at hltA
      rcases lt_trichotomy a.toNat b.toNat with hlt | heq | hgt
      · have hmul : (a.toNat + 1) * 256 ^ bs.length ≤ b.toNat * 256 ^ bs.length :=
          mul_le_mul_right _ hlt
        rw [add_mul, one_mul] at hmul
        have hsum : a.toNat * 256 ^ bs.length + Tlv.bigEndian as
            < b.toNat * 256 ^ bs.length + Tlv.bigEndian bs := by omega
        rw [compare_lt_iff_lt.2 hsum, compare_lt_iff_lt.2 hlt]
        rfl
      · rw [heq, compare_eq_iff_eq.2 rfl, compare_eq_ite_lt, compare_eq_ite_lt]
        simp only [Ordering.then, add_lt_add_iff_left]
      · have hmul : (b.toNat + 1) * 256 ^ bs.length ≤ a.toNat * 256 ^ bs.length :=
          mul_le_mul_right _ hgt
        rw [add_mul, one_mul] at hmul
        have hsum : b.toNat * 256 ^ bs.length + Tlv.bigEndian bs
            < a.toNat * 256 ^ bs.length + Tlv.bigEndian as := by omega
        rw [compare_gt_iff_gt.2 hsum, compare_gt_iff_gt.2 hgt]
        rfl

/-- Of two regions of one length neither goes on after the other. -/
theorem memcmp_eq_iff : memcmp as bs = .eq ↔ as = bs := by
  constructor
  · intro h
    rcases memcmp_eq_cases h with ⟨rest, h⟩ | ⟨rest, h⟩
    · simp_all
    · simp_all
  · rintro rfl
    exact memcmp_self _

end

/-- Regions that differ somewhere compare as their octets do. -/
theorem compare_octets_of_memcmp_ne (h : memcmp as bs ≠ .eq) :
    compare (octets as) (octets bs) = memcmp as bs := by
  induction as generalizing bs with
  | nil => exact absurd rfl h
  | cons a as ih =>
    cases bs with
    | nil => exact absurd rfl h
    | cons b bs =>
      show List.compareLex compare (a.toNat :: octets as) (b.toNat :: octets bs) = _
      rw [List.compareLex_cons_cons, memcmp]
      rw [memcmp] at h
      cases hab : compare a.toNat b.toNat with
      | lt => rfl
      | gt => rfl
      | eq =>
        rw [hab] at h
        exact ih h

theorem memcmp_writeVarNumber_lt {m n : Nat} (hn : n < 2 ^ 64) (hlt : m < n) (x y : List UInt8) :
    memcmp (Tlv.writeVarNumber m ++ x) (Tlv.writeVarNumber n ++ y) = .lt := by
  -- one octet of the same value, then as many octets of each number
  have hsame : ∀ (first : UInt8) (size : Nat), m < 256 ^ size → n < 256 ^ size →
      memcmp (first :: Tlv.toBigEndian size m ++ x) (first :: Tlv.toBigEndian size n ++
        y) = .lt := by
    intro first size hm hn
    have hlen : (Tlv.toBigEndian size m).length = (Tlv.toBigEndian size n).length := by
      rw [length_toBigEndian, length_toBigEndian]
    rw [cons_append, cons_append, memcmp, compare_eq_iff_eq.2 rfl, memcmp_append hlen,
      memcmp_eq_compare_bigEndian hlen, bigEndian_toBigEndian, bigEndian_toBigEndian,
      mod_eq_of_lt hm, mod_eq_of_lt hn, compare_lt_iff_lt.2 hlt]
    rfl
  have hfirst : ∀ (a b : UInt8) (as bs : List UInt8), a.toNat < b.toNat →
      memcmp (a :: as ++ x) (b :: bs ++ y) = .lt := by
    intro a b as bs h
    rw [cons_append, cons_append, memcmp, compare_lt_iff_lt.2 h]
    rfl
  have hbyte : ∀ k < 253, (UInt8.ofNat k).toNat = k := by
    intro k hk
    exact mod_eq_of_lt (by omega)
  unfold Tlv.writeVarNumber
  by_cases hm1 : m < 253
  · grind
  · grind

theorem memcmp_swap (as bs : List UInt8) : (memcmp as bs).swap = memcmp bs as := by
  induction as generalizing bs with
  | nil => cases bs <;> rfl
  | cons a as ih =>
    cases bs with
    | nil => rfl
    | cons b bs =>
      rw [memcmp, memcmp, swap_then, ih, ← Std.OrientedOrd.eq_swap]

theorem memcmp_writeVarNumber {m n : Nat} (hm : m < 2 ^ 64) (hn : n < 2 ^ 64) (x y : List UInt8) :
    memcmp (Tlv.writeVarNumber m ++ x) (Tlv.writeVarNumber n ++ y)
      = (compare m n).then (memcmp x y) := by
  rcases lt_trichotomy m n with hlt | rfl | hgt
  · rw [memcmp_writeVarNumber_lt hn hlt, compare_lt_iff_lt.2 hlt]
    rfl
  · rw [memcmp_append rfl, memcmp_self, compare_eq_iff_eq.2 rfl]
  · rw [← memcmp_swap, memcmp_writeVarNumber_lt hm hgt, compare_gt_iff_gt.2 hgt]
    rfl

/-! ## Components -/

namespace Component

/-- The canonical order: TLV-TYPE, TLV-LENGTH, TLV-VALUE. -/
def canonicalCompare (a b : Component) : Ordering :=
  (Ord.compare a.type b.type).then
    ((Ord.compare a.value.length b.value.length).then (memcmp a.value b.value))

/-- TLV-TYPE and TLV-LENGTH are in the shortest encoding. -/
def isShortest (c : Component) : Bool := c.tl == encodeTypeLength c.type c.value.length

variable {a b c d : Component}

/-- The comment in `Component::compare`, for the shortest encodings. -/
theorem compare_eq_canonicalCompare (ha : a.WellFormed) (hb : b.WellFormed)
    (hsa : a.isShortest = true) (hsb : b.isShortest = true) :
    a.compare b = a.canonicalCompare b := by
  have hta := ha.type_bounds
  have htb := hb.type_bounds
  rw [compare, wire, wire, beq_iff_eq.1 hsa, beq_iff_eq.1 hsb, encodeTypeLength, encodeTypeLength,
    append_assoc, append_assoc, memcmp_writeVarNumber (by omega) (by omega),
    memcmp_writeVarNumber ha.length_lt hb.length_lt]
  rfl

theorem canonicalCompare_swap (a b : Component) :
    (a.canonicalCompare b).swap = b.canonicalCompare a := by
  rw [canonicalCompare, canonicalCompare, swap_then, swap_then, memcmp_swap,
    ← Std.OrientedOrd.eq_swap, ← Std.OrientedOrd.eq_swap]

theorem canonicalCompare_gt_iff (a b : Component) :
    a.canonicalCompare b = .gt ↔ b.canonicalCompare a = .lt := by
  rw [← canonicalCompare_swap]
  cases b.canonicalCompare a <;> simp

theorem compare_eq_octets (ha : a.WellFormed) (hb : b.WellFormed) :
    a.compare b = Ord.compare (octets a.wire) (octets b.wire) := by
  cases h : a.compare b with
  | eq =>
    rw [(compare_eq_iff ha hb).1 h]
    exact Std.ReflCmp.compare_self.symm
  | lt | gt => exact ((compare_octets_of_memcmp_ne (by rw [← compare, h]; decide)).trans h).symm

/-! ### Components without an encoding -/

theorem canonicalCompare_eq_iff (a b : Component) :
    a.canonicalCompare b = .eq ↔ a.equals b = true := by
  have hvalue : a.value.length = b.value.length ∧ memcmp a.value b.value = .eq ↔
      a.value = b.value := by
    constructor
    · rintro ⟨hlen, heq⟩
      exact (memcmp_eq_iff hlen).1 heq
    · intro h
      exact ⟨congrArg length h, by rw [h, memcmp_self]⟩
  rw [canonicalCompare, then_eq_eq, then_eq_eq, compare_eq_iff_eq,
    compare_eq_iff_eq, hvalue, equals, and_eq_true, beq_iff_eq, beq_iff_eq]

theorem canonicalCompare_lt_iff (a b : Component) :
    a.canonicalCompare b = .lt ↔ a.type < b.type ∨ a.type = b.type ∧
      (a.value.length < b.value.length ∨ a.value.length = b.value.length ∧
        Tlv.bigEndian a.value < Tlv.bigEndian b.value) := by
  have hvalue : a.value.length = b.value.length →
      (memcmp a.value b.value = .lt ↔ Tlv.bigEndian a.value < Tlv.bigEndian b.value) := by
    intro hlen
    rw [memcmp_eq_compare_bigEndian hlen, compare_lt_iff_lt]
  rw [canonicalCompare, then_eq_lt, then_eq_lt, compare_lt_iff_lt,
    compare_lt_iff_lt, compare_eq_iff_eq, compare_eq_iff_eq, and_congr_right hvalue]

/-- The sign of the unsigned difference `x - y`, stored in an `int`. -/
def narrow (x y : Nat) : Ordering := Ord.compare (((x : Int) - y).bmod (2 ^ 32)) 0

/-- A component, and whether the block has its encoding. -/
structure Object extends Component where
  hasWire : Bool

namespace Object

/-- `cmpType`, or `cmpSize` if that is zero. -/
def difference (a b : Object) : Ordering :=
  (narrow a.type b.type).then (narrow a.value.length b.value.length)

/-- `Component::compare`, or `none` when `memcmp` would read beyond the value of `b`. -/
def compare (a b : Object) : Option Ordering :=
  if a.hasWire && b.hasWire then some (a.toComponent.compare b.toComponent)
  else
    match a.difference b with
    | .eq => if b.value.length < a.value.length then none else some (memcmp a.value b.value)
    | sign => some sign

/-- The number keeps its sign when it is stored in an `int`. -/
def KeepsSign (d : Int) : Prop := (d.bmod (2 ^ 32)).sign = d.sign

/-- The difference of the types keeps its sign in an `int`, and if it is zero that of the lengths
    does. -/
def Fits (a b : Object) : Prop :=
  KeepsSign ((a.type : Int) - b.type) ∧
    (a.type = b.type → KeepsSign ((a.value.length : Int) - b.value.length))

theorem narrow_self (x : Nat) : narrow x x = .eq := by
  rw [narrow, Int.sub_self]
  rfl

theorem narrow_eq_compare_iff (x y : Nat) :
    narrow x y = Ord.compare x y ↔ KeepsSign ((x : Int) - y) := by
  have hsign : ∀ d : Int, d.sign = match Ord.compare d 0 with
      | .lt => -1
      | .eq => 0
      | .gt => 1 := by
    intro d
    rcases lt_trichotomy d 0 with hneg | rfl | hpos
    · rw [compare_lt_iff_lt.2 hneg, Int.sign_eq_neg_one_of_neg hneg]
    · rfl
    · rw [compare_gt_iff_gt.2 hpos, Int.sign_eq_one_of_pos hpos]
  have hcompare : Ord.compare x y = Ord.compare ((x : Int) - y) 0 := by
    rcases lt_trichotomy x y with hlt | rfl | hgt
    · rw [compare_lt_iff_lt.2 hlt, compare_lt_iff_lt.2 (by omega)]
    · rw [Int.sub_self, compare_eq_iff_eq.2 rfl, compare_eq_iff_eq.2 rfl]
    · rw [compare_gt_iff_gt.2 hgt, compare_gt_iff_gt.2 (by omega)]
  rw [KeepsSign, narrow, hcompare, hsign, hsign]
  cases Ord.compare (((x : Int) - y).bmod (2 ^ 32)) 0 <;>
    cases Ord.compare ((x : Int) - y) 0 <;> decide

theorem narrow_eq_iff {x y : Nat} : narrow x y = .eq ↔ (2 ^ 32 : Int) ∣ x - y := by
  rw [narrow, compare_eq_iff_eq]
  exact ⟨Int.dvd_of_bmod_eq_zero, Int.bmod_eq_zero_of_dvd⟩

variable {a b : Object}

theorem difference_of_fits (h : a.Fits b) : a.difference b =
    (Ord.compare a.type b.type).then (Ord.compare a.value.length b.value.length) := by
  rw [difference, (narrow_eq_compare_iff _ _).2 h.1]
  by_cases htype : a.type = b.type
  · rw [(narrow_eq_compare_iff _ _).2 (h.2 htype)]
  · cases heq : Ord.compare a.type b.type with
    | lt => rfl
    | gt => rfl
    | eq => exact absurd (compare_eq_iff_eq.1 heq) htype

theorem fits_of_difference (ha : a.WellFormed) (hb : b.WellFormed) (h : a.difference b =
    (Ord.compare a.type b.type).then (Ord.compare a.value.length b.value.length)) : a.Fits b := by
  rw [Fits, ← narrow_eq_compare_iff, ← narrow_eq_compare_iff]
  by_cases htype : a.type = b.type
  · rw [difference, htype, narrow_self, compare_eq_iff_eq.2 rfl] at h
    rw [htype, narrow_self, compare_eq_iff_eq.2 rfl]
    exact ⟨rfl, fun _ => h⟩
  · -- two types are less than `2 ^ 32` apart, so only equal ones have the difference zero
    refine ⟨?_, fun h => absurd h htype⟩
    have hta := ha.type_bounds.2
    have htb := hb.type_bounds.2
    have hnarrow : narrow a.type b.type ≠ .eq := by
      rw [ne_eq, narrow_eq_iff]
      omega
    have hcompare : Ord.compare a.type b.type ≠ .eq := by rwa [ne_eq, compare_eq_iff_eq]
    rw [difference] at h
    revert h hnarrow hcompare
    cases narrow a.type b.type <;> cases Ord.compare a.type b.type <;> simp [Ordering.then]

theorem canonicalCompare_eq_then (a b : Object) : a.canonicalCompare b.toComponent =
    ((Ord.compare a.type b.type).then (Ord.compare a.value.length b.value.length)).then
      (memcmp a.value b.value) :=
  (then_assoc _ _ _).symm

section

variable (hwire : (a.hasWire && b.hasWire) = false)
include hwire

theorem compare_of_fits (h : a.Fits b) : a.compare b = some (a.canonicalCompare b.toComponent) := by
  rw [compare, if_neg (by simp [hwire]), difference_of_fits h, canonicalCompare_eq_then]
  cases heq : (Ord.compare a.type b.type).then (Ord.compare a.value.length b.value.length) with
  | lt => rfl
  | gt => rfl
  | eq =>
    have hlen := compare_eq_iff_eq.1 (then_eq_eq.1 heq).2
    exact if_neg (by omega)

/-- The other direction, for both orders of the operands. -/
theorem fits_of_compare (ha : a.WellFormed) (hb : b.WellFormed)
    (hab : a.compare b = some (a.canonicalCompare b.toComponent))
    (hba : b.compare a = some (b.canonicalCompare a.toComponent)) : a.Fits b := by
  rw [compare, if_neg (by simp [hwire]), canonicalCompare_eq_then] at hab
  rw [compare, if_neg (by rw [Bool.and_comm, hwire]; decide)] at hba
  refine fits_of_difference ha hb ?_
  cases hdiff : a.difference b with
  | lt | gt =>
    -- the sign is not that of the values, which are not reached
    rw [hdiff] at hab
    generalize heq : (Ord.compare a.type b.type).then _ = canonical at hab
    cases canonical with
    | eq =>
      obtain ⟨htype, hlen⟩ := then_eq_eq.1 heq
      rw [difference, compare_eq_iff_eq.1 htype, compare_eq_iff_eq.1 hlen, narrow_self,
        narrow_self] at hdiff
      cases hdiff
    | lt | gt => first | rfl | cases hab
  | eq =>
    -- the longer of the two values would be read beyond the end of the other
    obtain ⟨htype, hlen⟩ := then_eq_eq.1 hdiff
    have hdiff' : b.difference a = .eq := by
      rw [difference, then_eq_eq, narrow_eq_iff, narrow_eq_iff]
      rw [narrow_eq_iff] at htype hlen
      omega
    rw [hdiff] at hab
    rw [hdiff'] at hba
    have hta := ha.type_bounds.2
    have htb := hb.type_bounds.2
    rw [narrow_eq_iff] at htype
    refine (then_eq_eq.2 ⟨compare_eq_iff_eq.2 (by omega), compare_eq_iff_eq.2 ?_⟩).symm
    by_contra hne
    rcases lt_or_gt_of_ne hne with hlt | hgt
    · rw [if_pos hlt] at hba
      cases hba
    · rw [if_pos hgt] at hab
      cases hab

end

end Object

/-- **Comparing components.** `Component::compare` is the canonical order, which is total and
    consistent with `Component::equals`, if all encodings are the shortest and no difference
    overflows. -/
theorem compare_iff (K : Object → Prop) (hK : ∀ a, K a → a.WellFormed)
    (hmade : ∀ a, K a → K ⟨a.reencoded, true⟩) :
    ((∀ a b, K a → K b → a.compare b = some (a.canonicalCompare b.toComponent)) ↔
      (∀ a, K a → a.hasWire = true → a.isShortest = true) ∧
        ∀ a b, K a → K b → (a.hasWire && b.hasWire) = false → a.Fits b) ∧
    (∀ a b, canonicalCompare a b = .eq ↔ a.equals b = true) ∧
    (∀ a b, canonicalCompare a b = .gt ↔ canonicalCompare b a = .lt) ∧
    ∀ a b c, canonicalCompare a b = .lt → canonicalCompare b c = .lt →
      canonicalCompare a c = .lt := by
  refine ⟨⟨fun h => ⟨?_, ?_⟩, ?_⟩, canonicalCompare_eq_iff, canonicalCompare_gt_iff, ?_⟩
  · intro a ha hwire
    have hcmp := h a _ ha (hmade a ha)
    rw [Object.compare, hwire] at hcmp
    have hequals : a.toComponent.equals a.reencoded = true := by simp [equals, reencoded]
    rw [(canonicalCompare_eq_iff _ _).2 hequals] at hcmp
    have hwires := (compare_eq_iff (hK a ha) (hK _ (hmade a ha))).1 (Option.some.inj hcmp)
    rw [isShortest, beq_iff_eq]
    exact append_cancel_right hwires
  · intro a b ha hb hwire
    exact Object.fits_of_compare hwire (hK a ha) (hK b hb) (h a b ha hb) (h b a hb ha)
  · rintro ⟨hshort, hfits⟩ a b ha hb
    cases hwire : a.hasWire && b.hasWire with
    | false => exact Object.compare_of_fits hwire (hfits a b ha hb hwire)
    | true =>
      have hboth := and_eq_true_iff.1 hwire
      rw [Object.compare, if_pos hwire, compare_eq_canonicalCompare (hK a ha) (hK b hb)
        (hshort a ha hboth.1) (hshort b hb hboth.2)]
  · intro a b c hab hbc
    rw [canonicalCompare_lt_iff] at hab hbc ⊢
    omega

theorem wellFormed_ofString_short : (ofString "a").WellFormed ∧ (ofString "bc").WellFormed :=
  ⟨wellFormed_encode (by decide) (by decide) (by decide),
    wellFormed_encode (by decide) (by decide) (by decide)⟩

theorem compare_iff_letter : Object.compare ⟨ofString "a", true⟩ ⟨ofString "bc", false⟩ =
    some (canonicalCompare (ofString "a") (ofString "bc")) := by
  refine (compare_iff (fun a => a.toComponent = ofString "a" ∨ a.toComponent = ofString "bc")
    ?_ ?_).1.2 ⟨?_, ?_⟩ _ _ (.inl rfl) (.inr rfl)
  · rintro a (ha | ha)
    · exact ha ▸ wellFormed_ofString_short.1
    · exact ha ▸ wellFormed_ofString_short.2
  · rintro a (ha | ha)
    · refine .inl ?_
      rw [ha]
      rfl
    · refine .inr ?_
      rw [ha]
      rfl
  · rintro a (ha | ha) _
    · exact ha ▸ (by decide : (ofString "a").isShortest = true)
    · exact ha ▸ (by decide : (ofString "bc").isShortest = true)
  · rintro a b (ha | ha) (hb | hb) _ <;>
    · rw [Object.Fits, Object.KeepsSign, Object.KeepsSign, ha, hb]
      decide

/-- A TLV-LENGTH in three octets is accepted. -/
def longLetter : Component := ⟨Tlv.genericNameComponent, [97], [8, 253, 0, 1]⟩

/-- Two equal components, of which one has a longer TLV-LENGTH: with their encodings they compare as
    different, without one of them as equal. -/
theorem compare_longLetter : isValid longLetter.type longLetter.value = true ∧
    longLetter.WellFormed ∧ (ofString "a").equals longLetter = true ∧
    Object.compare ⟨ofString "a", true⟩ ⟨longLetter, true⟩ = some .lt ∧
    Object.compare ⟨ofString "a", false⟩ ⟨longLetter, true⟩ = some .eq := by
  exact ⟨by decide, fun r => rfl, by decide, by decide, by decide⟩

end Component

/-! ## Names -/

namespace Name

/-- The encodings of the components. -/
def wires (n : Name) : List (List Nat) := n.map fun c => octets c.wire

theorem compare_swap (m n : Name) : (m.compare n).swap = n.compare m := by
  induction m generalizing n with
  | nil => cases n <;> rfl
  | cons a m ih =>
    cases n with
    | nil => rfl
    | cons b n =>
      rw [compare, compare, swap_then, ih, Component.compare, memcmp_swap]
      rfl

variable {c : Component} {n m : Name}

theorem WellFormed.tail (h : WellFormed (c :: n)) : WellFormed n :=
  fun d hd => h d (mem_cons_of_mem c hd)

theorem compare_eq_wires (hm : m.WellFormed) (hn : n.WellFormed) :
    m.compare n = Ord.compare m.wires n.wires := by
  induction m generalizing n with
  | nil => cases n <;> rfl
  | cons a m ih =>
    cases n with
    | nil => rfl
    | cons b n =>
      show _ = List.compareLex Ord.compare (octets a.wire :: wires m) (octets b.wire :: wires n)
      rw [compare, List.compareLex_cons_cons,
        Component.compare_eq_octets (hm a (.head _)) (hn b (.head _)),
        ih hm.tail hn.tail]
      rfl

theorem isPrefixOf_of_equals (h : m.equals n = true) : m.isPrefixOf n = true := by
  induction m generalizing n with
  | nil => rfl
  | cons a m ih =>
    cases n with
    | nil => cases h
    | cons b n =>
      rw [equals, and_eq_true] at h
      rw [isPrefixOf, h.1, ih h.2]
      rfl

end Name

end NdnMulticast.Ndn
