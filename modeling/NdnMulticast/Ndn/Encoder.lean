/-
  The buffer that packets are encoded into, after `encoding/encoder.cpp`, and the sizes, after
  `encoding/estimator.cpp`.  The buffer grows at the end that an array of octets is added at; the
  other functions of the encoder add several.

  Every call is said by the octets of what it is given (`octetsOf`) and by the length it returns
  (`estimate`); a sequence of calls follows by induction.
-/

import NdnMulticast.Lib.Blocks
import NdnMulticast.Ndn.LpPacket

namespace NdnMulticast.Ndn

open Lib List Tlv

/-! ## Reading numbers -/

namespace Tlv

/-- `ReadNumberFast`, of a contiguous buffer. -/
def readNumberFast (size : Nat) (bs : List UInt8) : Option (Nat × List UInt8) :=
  if bs.length < size then none else some (bigEndian (bs.take size), bs.drop size)

/-- `ReadNumberSlow`, octet by octet. -/
def readNumberSlow : Nat → Nat → List UInt8 → Option (Nat × List UInt8)
  | 0, number, bs => some (number, bs)
  | _ + 1, _, [] => none
  | size + 1, number, b :: bs => readNumberSlow size (number <<< 8 % 2 ^ 64 ||| b.toNat) bs

/-- `readVarNumber` of a generic iterator. -/
def readVarNumberSlow : List UInt8 → Raises (Nat × List UInt8)
  | [] => .error (.tlvError "Empty buffer during TLV parsing")
  | first :: rest =>
    if first.toNat < 253 then .ok (first.toNat, rest)
    else
      match readNumberSlow (wideSize first) 0 rest with
      | none => .error (.tlvError "Insufficient data during TLV parsing")
      | some r => .ok r

theorem readNumberSlow_eq (size number : Nat) (bs : List UInt8)
    (h : (number + 1) * 256 ^ size ≤ 2 ^ 64) : readNumberSlow size number bs =
      if bs.length < size then none
      else some ((bs.take size).foldl (fun n b => 256 * n + b.toNat) number, bs.drop size) := by
  induction size generalizing number bs with
  | zero => simp [readNumberSlow]
  | succ size ih =>
    cases bs with
    | nil => simp [readNumberSlow]
    | cons b bs =>
      have hb := b.toNat_lt
      have hroom : (256 * number + b.toNat + 1) * 256 ^ size ≤ 2 ^ 64 := by
        refine (Nat.mul_le_mul_right _ (show _ ≤ (number + 1) * 256 by omega)).trans ?_
        rwa [Nat.mul_assoc, ← Nat.pow_succ']
      have hstep : number <<< 8 % 2 ^ 64 ||| b.toNat = 256 * number + b.toNat := by
        have hpos : 0 < 256 ^ size := Nat.pow_pos (by decide)
        have hle := Nat.le_mul_of_pos_right (256 * number + b.toNat + 1) hpos
        have hlt : number <<< 8 < 2 ^ 64 := by
          rw [Nat.shiftLeft_eq]
          omega
        rw [Nat.mod_eq_of_lt hlt, ← Nat.shiftLeft_add_eq_or_of_lt hb, Nat.shiftLeft_eq,
          Nat.mul_comm]
      rw [readNumberSlow, hstep, ih _ _ hroom]
      simp

theorem readNumberSlow_eq_readNumberFast {size : Nat} (hsize : size ≤ 8) (bs : List UInt8) :
    readNumberSlow size 0 bs = readNumberFast size bs := by
  refine readNumberSlow_eq size 0 bs ?_
  rw [Nat.zero_add, Nat.one_mul]
  exact Nat.pow_le_pow_right (by decide) hsize

theorem readVarNumberSlow_eq (bs : List UInt8) : readVarNumberSlow bs = readVarNumber bs := by
  cases bs with
  | nil => rfl
  | cons first rest =>
    have hsize : wideSize first ≤ 8 := by
      unfold wideSize
      split_ifs <;> decide
    rw [readVarNumberSlow, readNumberSlow_eq_readNumberFast hsize, readNumberFast]
    by_cases hshort : rest.length < wideSize first
    · rw [if_pos hshort]
      unfold wideSize at hshort
      simp [readVarNumber, hshort]
    · rw [if_neg hshort]
      unfold wideSize at hshort ⊢
      simp [readVarNumber, hshort]

end Tlv

/-- `m_begin` is a position in the buffer, and `m_end` is `size` octets behind it. -/
structure Encoder where
  buffer : List UInt8
  beginPos : Nat
  size : Nat
  end_le : beginPos + size ≤ buffer.length

namespace Encoder

def init (totalReserve reserveFromBack : Nat) : Encoder where
  buffer := replicate totalReserve 0
  beginPos := totalReserve - if reserveFromBack < totalReserve then reserveFromBack else 0
  size := 0
  end_le := by simp

variable (e : Encoder)

/-- The octets from `begin()` to `end()`. -/
def contents : List UInt8 := (e.buffer.drop e.beginPos).take e.size

variable (array : List UInt8) (size : Nat)

/-- A new buffer, with the octets of the old one at its back or at its front. -/
def reserve (addInFront : Bool) : Encoder :=
  let more := replicate (max size e.buffer.length - e.buffer.length) 0
  have hend := e.end_le
  if addInFront then ⟨more ++ e.buffer, more.length + e.beginPos, e.size, by simp; omega⟩
  else ⟨e.buffer ++ more, e.beginPos, e.size, by simp; omega⟩

def reserveFront : Encoder :=
  if e.beginPos < size then e.reserve (e.buffer.length * 2 + size) true else e

def reserveBack : Encoder :=
  if e.buffer.length < e.beginPos + e.size + size then
    e.reserve (e.buffer.length * 2 + size) false
  else e

theorem contents_reserve (addInFront : Bool) :
    (e.reserve size addInFront).contents = e.contents := by
  have hend := e.end_le
  unfold reserve contents
  cases addInFront with
  | true => simp [drop_append]
  | false =>
    have hle : e.size ≤ (e.buffer.drop e.beginPos).length := by
      rw [length_drop]
      omega
    simp [drop_append_of_le_length (show e.beginPos ≤ e.buffer.length by omega),
      take_append_of_le_length hle]

theorem reserveFront_spec : size ≤ (e.reserveFront size).beginPos ∧
    (e.reserveFront size).contents = e.contents := by
  unfold reserveFront
  split_ifs with h
  · refine ⟨?_, e.contents_reserve _ _⟩
    simp [reserve]
    omega
  · exact ⟨Nat.le_of_not_lt h, rfl⟩

theorem reserveBack_spec :
    (e.reserveBack size).beginPos + ((e.reserveBack size).size + size) ≤
      (e.reserveBack size).buffer.length ∧ (e.reserveBack size).contents = e.contents := by
  have hend := e.end_le
  unfold reserveBack
  split_ifs with h
  · refine ⟨?_, e.contents_reserve _ _⟩
    simp [reserve]
    omega
  · exact ⟨by omega, rfl⟩

def prependByteArray : Encoder :=
  let r := e.reserveFront array.length
  ⟨writeAt r.buffer (r.beginPos - array.length) array, r.beginPos - array.length,
    r.size + array.length, by
      have hroom : array.length ≤ r.beginPos := (e.reserveFront_spec array.length).1
      have hend := r.end_le
      rw [length_writeAt]
      omega⟩

def appendByteArray : Encoder :=
  let r := e.reserveBack array.length
  ⟨writeAt r.buffer (r.beginPos + r.size) array, r.beginPos, r.size + array.length,
    by simpa using (e.reserveBack_spec array.length).1⟩

theorem contents_prependByteArray : (e.prependByteArray array).contents = array ++ e.contents := by
  obtain ⟨hroom, hcontents⟩ := e.reserveFront_spec array.length
  have hend := (e.reserveFront array.length).end_le
  rw [← hcontents, contents, prependByteArray]
  dsimp only
  rw [writeAt_eq (by omega), Nat.sub_add_cancel hroom, drop_left' (length_take_of_le (by omega)),
    Nat.add_comm, take_length_add_append]
  rfl

theorem contents_appendByteArray : (e.appendByteArray array).contents = e.contents ++ array := by
  obtain ⟨hroom, hcontents⟩ := e.reserveBack_spec array.length
  rw [← hcontents, contents, appendByteArray]
  dsimp only
  rw [writeAt_eq (by omega), drop_append_of_le_length (by rw [length_take]; omega), drop_take,
    Nat.add_sub_cancel_left, ← append_assoc,
    take_left' (by rw [length_append, length_take, length_drop]; omega)]
  rfl

/-- The octets are prepended or appended. -/
structure Call where
  atFront : Bool
  octets : List UInt8

def call (c : Call) : Encoder :=
  if c.atFront then e.prependByteArray c.octets else e.appendByteArray c.octets

theorem contents_call (c : Call) : (e.call c).contents =
    if c.atFront then c.octets ++ e.contents else e.contents ++ c.octets := by
  rw [call]
  split_ifs
  · exact e.contents_prependByteArray c.octets
  · exact e.contents_appendByteArray c.octets

/-! ## Numbers and elements -/

/-- What an encoder is given; an element may have an encoding. -/
inductive Item where
  | byte (value : UInt8)
  /-- An array, or what `prependRange` and `appendRange` copy. -/
  | byteArray (array : List UInt8)
  | varNumber (n : Nat)
  | nonNegativeInteger (n : Nat)
  | byteArrayBlock (type : Nat) (array : List UInt8)
  | block (wire : Option (List UInt8)) (type : Nat) (value : List UInt8)

variable (atFront : Bool)

/-- `prependVarNumber` or `appendVarNumber`; an encoder goes backwards at its front. -/
def varNumber (n : Nat) : Nat × Encoder :=
  let wide (first : UInt8) (digits : List UInt8) :=
    if atFront then (e.prependByteArray digits).prependByteArray [first]
    else (e.appendByteArray [first]).appendByteArray digits
  if n < 253 then (1, e.call ⟨atFront, [UInt8.ofNat n]⟩)
  else if n < 2 ^ 16 then (3, wide 253 (toBigEndian 2 n))
  else if n < 2 ^ 32 then (5, wide 254 (toBigEndian 4 n))
  else (9, wide 255 (toBigEndian 8 n))

def byteArrayBlock (type : Nat) : Nat × Encoder :=
  if atFront then
    let l := e.prependByteArray array |>.varNumber true array.length
    let t := l.2.varNumber true type
    (array.length + l.1 + t.1, t.2)
  else
    let t := e.varNumber false type
    let l := t.2.varNumber false array.length
    (t.1 + l.1 + array.length, l.2.appendByteArray array)

/-- The length that a call returns, and the encoder after it. -/
def put : Item → Nat × Encoder
  | .byte value => (1, e.call ⟨atFront, [value]⟩)
  | .byteArray array => (array.length, e.call ⟨atFront, array⟩)
  | .varNumber n => e.varNumber atFront n
  | .nonNegativeInteger n =>
    ((nonNegativeInteger n).length, e.call ⟨atFront, nonNegativeInteger n⟩)
  | .byteArrayBlock type array => e.byteArrayBlock array atFront type
  | .block (some wire) _ _ => (wire.length, e.call ⟨atFront, wire⟩)
  | .block none type value => e.byteArrayBlock value atFront type

/-- The lengths that a sequence of calls returns, each at its end. -/
def lengths : Encoder → List (Bool × Item) → List Nat
  | _, [] => []
  | e, (atFront, item) :: calls =>
    let r := e.put atFront item
    r.1 :: lengths r.2 calls

/-- The `Estimator`, at either end. -/
def estimate : Item → Nat
  | .byte _ => 1
  | .byteArray array => array.length
  | .varNumber n => sizeOfVarNumber n
  | .nonNegativeInteger n =>
    if n < 2 ^ 8 then 1 else if n < 2 ^ 16 then 2 else if n < 2 ^ 32 then 4 else 8
  | .byteArrayBlock type array => array.length + sizeOfVarNumber array.length + sizeOfVarNumber type
  | .block (some wire) _ _ => wire.length
  | .block none type value => value.length + sizeOfVarNumber value.length + sizeOfVarNumber type

variable (n : Nat)

theorem varNumber_fst : (e.varNumber atFront n).1 = sizeOfVarNumber n := by
  unfold varNumber sizeOfVarNumber
  split_ifs <;> rfl

theorem contents_varNumber : (e.varNumber atFront n).2.contents =
    if atFront then writeVarNumber n ++ e.contents else e.contents ++ writeVarNumber n := by
  unfold varNumber writeVarNumber
  cases atFront with
  | true => split_ifs <;> simp_all [contents_call, contents_prependByteArray]
  | false => split_ifs <;> simp_all [contents_call, contents_appendByteArray]

/-- The octets of an element: its type, its length and its value. -/
def octetsOfBlock (type : Nat) (value : List UInt8) : List UInt8 :=
  writeVarNumber type ++ writeVarNumber value.length ++ value

def octetsOf : Item → List UInt8
  | .byte value => [value]
  | .byteArray array => array
  | .varNumber n => writeVarNumber n
  | .nonNegativeInteger n => nonNegativeInteger n
  | .byteArrayBlock type array => octetsOfBlock type array
  | .block (some wire) _ _ => wire
  | .block none type value => octetsOfBlock type value

theorem contents_byteArrayBlock (type : Nat) : (e.byteArrayBlock array atFront type).2.contents =
    if atFront then octetsOfBlock type array ++ e.contents
    else e.contents ++ octetsOfBlock type array := by
  -- the value is written first at the front, the type first at the back
  cases atFront with
  | true => simp [byteArrayBlock, contents_varNumber, contents_prependByteArray, octetsOfBlock]
  | false => simp [byteArrayBlock, contents_varNumber, contents_appendByteArray, octetsOfBlock]

/-- A call adds the octets of its item at its end. -/
theorem contents_put (item : Item) : (e.put atFront item).2.contents =
    if atFront then octetsOf item ++ e.contents else e.contents ++ octetsOf item := by
  cases item with
  | varNumber n => exact e.contents_varNumber atFront n
  | byteArrayBlock type array => exact e.contents_byteArrayBlock array atFront type
  | block wire type value =>
    cases wire with
    | none => exact e.contents_byteArrayBlock value atFront type
    | some wire => exact e.contents_call _
  | _ => exact e.contents_call _

/-- **What is encoded** is what was prepended, the last call first, and what was appended, in the
    order of the calls, wherever and however often the buffer has grown. -/
theorem contents_calls (totalReserve reserveFromBack : Nat) (calls : List (Bool × Item)) :
    (calls.foldl (fun e c => (e.put c.1 c.2).2) (init totalReserve reserveFromBack)).contents =
      (calls.reverse.filter (·.1)).flatMap (octetsOf ·.2) ++
        (calls.filter (!·.1)).flatMap (octetsOf ·.2) := by
  have hcalls : ∀ e : Encoder, (calls.foldl (fun e c => (e.put c.1 c.2).2) e).contents =
      (calls.reverse.filter (·.1)).flatMap (octetsOf ·.2) ++ e.contents ++
        (calls.filter (!·.1)).flatMap (octetsOf ·.2) := by
    induction calls with
    | nil => simp
    | cons c calls ih =>
      intro e
      rw [foldl_cons, ih, contents_put]
      cases hfront : c.1 with
      | true => simp [hfront]
      | false => simp [hfront]
  rw [hcalls]
  simp [contents, init]

theorem put_fst (item : Item) : (e.put atFront item).1 = estimate item := by
  have hblock : ∀ type array, (e.byteArrayBlock array atFront type).1 =
      array.length + sizeOfVarNumber array.length + sizeOfVarNumber type := by
    intro type array
    cases atFront <;> grind [byteArrayBlock, varNumber_fst]
  cases item with
  | varNumber n => exact e.varNumber_fst atFront n
  | nonNegativeInteger n =>
    simp only [put, estimate, nonNegativeInteger]
    split_ifs <;> simp [length_toBigEndian]
  | byteArrayBlock type array => exact hblock type array
  | block wire type value =>
    cases wire with
    | none => exact hblock type value
    | some wire => rfl
  | _ => rfl

/-- **Encoding and estimating agree.**  A VAR-NUMBER is read back by either reader, in whatever way
    it was written, and each call returns the length that is estimated for it. -/
theorem varNumber_agrees :
    (∀ (n : UInt64) (rest : List UInt8),
      readVarNumber (writeVarNumber n.toNat ++ rest) = .ok (n.toNat, rest) ∧
        (writeVarNumber n.toNat).length = sizeOfVarNumber n.toNat) ∧
      (∀ (n : UInt64) (e : Encoder),
        (e.varNumber true n.toNat).2.contents = writeVarNumber n.toNat ++ e.contents ∧
          (e.varNumber false n.toNat).2.contents = e.contents ++ writeVarNumber n.toNat) ∧
      (∀ (size : Fin 9) (bs : List UInt8), readNumberSlow size 0 bs = readNumberFast size bs) ∧
      (∀ bs, readVarNumberSlow bs = readVarNumber bs) ∧
      ∀ (calls : List (Bool × Item)) (e : Encoder), e.lengths calls = calls.map (estimate ·.2) := by
  refine ⟨fun n rest => ⟨readVarNumber_writeVarNumber n.toNat_lt rest, length_writeVarNumber _⟩,
    fun n e => ⟨e.contents_varNumber true _, e.contents_varNumber false _⟩,
    fun size => readNumberSlow_eq_readNumberFast (Nat.le_of_lt_succ size.2),
      readVarNumberSlow_eq, ?_⟩
  intro calls
  induction calls with
  | nil => exact fun _ => rfl
  | cons call calls ih =>
    intro e
    rw [lengths, put_fst, ih, map_cons]

end Encoder

end NdnMulticast.Ndn
