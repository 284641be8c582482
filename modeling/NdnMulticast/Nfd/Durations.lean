/-
  The durations that packets carry and what the tables derive from them.

  InterestLifetime and FreshnessPeriod are unsigned 64-bit numbers on the wire and signed
  millisecond counts in memory, which are converted to nanoseconds and added to the clock.
-/

import NdnMulticast.Nfd.Forwarder

namespace NdnMulticast.Ndn

open Lib Except Tlv

/-! ## The numbers on the wire -/

/-- The number in an element; no packet is accepted with an ill-formed one. -/
def Block.number (b : Block) : Nat :=
  match Tlv.readNonNegativeInteger b.value with
  | .ok n => n
  | .error _ => 0

variable {b wire : Block} {acc acc' : Nat × Interest} {elements : List Block}

theorem Block.number_eq {n : Nat} (h : readNonNegativeInteger b.value = .ok n) : b.number = n := by
  simp [number, h]

theorem Block.number_lt (b : Block) : b.number < 2 ^ 64 := by
  unfold number readNonNegativeInteger
  have hlt := bigEndian_lt b.value
  by_cases hlen : b.value.length = 1 ∨ b.value.length = 2 ∨ b.value.length = 4 ∨ b.value.length = 8
  · grind
  · rw [if_neg hlen]
    show 0 < 2 ^ 64
    decide

/-- The InterestLifetime of an Interest packet, or the default, in milliseconds. -/
def Interest.carriedLifetime (wire : Block) : Nat :=
  match wire.parse with
  | .ok elements =>
    ((elements.find? (·.type == Tlv.interestLifetime)).map Block.number).getD 4000
  | .error _ => 4000

/-- The FreshnessPeriod of a MetaInfo element, or the default. -/
def MetaInfo.carriedFreshness (wire : Block) : Nat :=
  match wire.parse with
  | .ok elements =>
    let rest := (takeElement Tlv.contentType elements).2
    ((takeElement Tlv.freshnessPeriod rest).1.map Block.number).getD 0
  | .error _ => 0

/-- The FreshnessPeriod of a Data packet, or the default, in milliseconds. -/
def Data.carriedFreshness (wire : Block) : Nat :=
  match wire.parse with
  | .ok elements =>
    ((elements.find? (·.type == Tlv.metaInfo)).map MetaInfo.carriedFreshness).getD 0
  | .error _ => 0

/-! ## What decoding makes of them -/

theorem toInt64_of_lt {n : Nat} (h : n < 2 ^ 63) : toInt64 n = n := bmod_natCast_of_lt h

theorem Interest.decodeElement_lifetime (h : decodeElement acc b = .ok acc')
    (htype : b.type = Tlv.interestLifetime) :
    acc.1 < 6 ∧ acc'.1 = 6 ∧ acc'.2.interestLifetime = toInt64 b.number := by
  have h1 : b.type ≠ Tlv.canBePrefix := by rw [htype]; decide
  have h2 : b.type ≠ Tlv.mustBeFresh := by rw [htype]; decide
  have h3 : b.type ≠ Tlv.forwardingHint := by rw [htype]; decide
  have h4 : b.type ≠ Tlv.nonce := by rw [htype]; decide
  rw [decodeElement, if_neg h1, if_neg h2, if_neg h3, if_neg h4, if_pos htype] at h
  split_ifs at h
  obtain ⟨n, hn, h⟩ := bind_eq_ok_iff.1 h
  rw [Block.number_eq hn]
  generalize toInt64 n = ms at h ⊢
  rw [← Except.ok.inj h]
  exact ⟨by omega, rfl, rfl⟩

/-- At most one InterestLifetime is accepted: `lastElement` is 6 after it. -/
theorem Interest.interestLifetime_of_foldlM (h : elements.foldlM decodeElement acc = .ok acc') :
    acc'.2.interestLifetime =
      ((elements.find? (·.type == Tlv.interestLifetime)).map fun b => toInt64 b.number).getD
        acc.2.interestLifetime := by
  refine (foldlM_find? (fun b : Block => b.type == Tlv.interestLifetime)
    (fun acc : Nat × Interest => acc.2.interestLifetime) (fun b => toInt64 b.number)
    (fun acc => 6 ≤ acc.1) ?_ ?_ h).2
  · intro acc b acc' hb htype
    obtain ⟨hlt, heq, hvalue⟩ := decodeElement_lifetime hb (by simpa using htype)
    exact ⟨by omega, by omega, hvalue⟩
  · intro acc b acc' hb htype
    obtain ⟨-, hle, hsame⟩ := decodeElement_keeps hb
    exact ⟨fun h6 => by omega, hsame (by simpa using htype)⟩

theorem Interest.interestLifetime_of_wireDecode {check : Bool} {sha256 : List UInt8 → List UInt8}
    {i : Interest} (h : wireDecode check sha256 wire = .ok i) :
    i.interestLifetime = toInt64 (carriedLifetime wire) := by
  obtain ⟨first, elements, last, hparse, htype, -, hfold, -⟩ := exists_fold_of_wireDecode h
  have hfirst : (first.type == Tlv.interestLifetime) = false := by
    rw [htype]
    decide
  rw [interestLifetime_of_foldlM hfold]
  simp only [carriedLifetime, hparse, List.find?_cons, hfirst]
  cases elements.find? fun b => b.type == Tlv.interestLifetime with
  | none => exact (toInt64_of_lt (by decide)).symm
  | some b => rw [Option.map_some, Option.getD_some, Option.map_some, Option.getD_some]

namespace MetaInfo

def readContentType : Option Block → Raises Nat
  | some b => readNonNegativeIntegerAs (2 ^ 32 - 1) b
  | none => .ok 0

def readFreshnessPeriod : Option Block → Raises Int
  | some b => (Tlv.readNonNegativeInteger b.value).map toInt64
  | none => .ok 0

def readFinalBlockId : Option Block → Raises (Option Component)
  | some b => do
      let inner ← b.blockFromValue
      (Component.fromBlock inner).map some
  | none => .ok none

theorem wireDecode_eq (wire : Block) : wireDecode wire = (do
    let elements ← wire.parse
    let ct := takeElement Tlv.contentType elements
    let fp := takeElement Tlv.freshnessPeriod ct.2
    let fb := takeElement Tlv.finalBlockId fp.2
    let contentType ← readContentType ct.1
    let freshnessPeriod ← readFreshnessPeriod fp.1
    let finalBlockId ← readFinalBlockId fb.1
    return ⟨contentType, freshnessPeriod, finalBlockId, fb.2⟩) := by
  unfold wireDecode
  congr 1
  funext elements
  rcases takeElement Tlv.contentType elements with ⟨ct, rest⟩
  rcases hperiod : takeElement Tlv.freshnessPeriod rest with ⟨fp, rest'⟩
  rcases hfinal : takeElement Tlv.finalBlockId rest' with ⟨fb, rest''⟩
  simp only [hperiod, hfinal]
  cases ct <;> cases fp <;> cases fb <;> simp only [readContentType, readFreshnessPeriod,
    readFinalBlockId, bind_assoc]

theorem readFreshnessPeriod_eq_ok {fp : Option Block} {freshness : Int}
    (h : readFreshnessPeriod fp = .ok freshness) :
    freshness = toInt64 ((fp.map Block.number).getD 0) := by
  cases fp with
  | none => exact (Except.ok.inj h).symm.trans (toInt64_of_lt (by decide)).symm
  | some b =>
    cases hread : Tlv.readNonNegativeInteger b.value with
    | error e =>
      rw [readFreshnessPeriod, hread] at h
      cases h
    | ok n =>
      rw [readFreshnessPeriod, hread] at h
      rw [Option.map_some, Option.getD_some, Block.number_eq hread]
      exact (Except.ok.inj h).symm

theorem freshnessPeriod_of_wireDecode {wire : Block} {m : MetaInfo}
    (h : wireDecode wire = .ok m) : m.freshnessPeriod = toInt64 (carriedFreshness wire) := by
  rw [wireDecode_eq] at h
  obtain ⟨elements, hparse, h⟩ := bind_eq_ok_iff.1 h
  obtain ⟨contentType, -, h⟩ := bind_eq_ok_iff.1 h
  obtain ⟨freshness, hfreshness, h⟩ := bind_eq_ok_iff.1 h
  obtain ⟨finalBlockId, -, h⟩ := bind_eq_ok_iff.1 h
  have hm : m.freshnessPeriod = freshness := by rw [← Except.ok.inj h]
  rw [hm, readFreshnessPeriod_eq_ok hfreshness]
  simp only [carriedFreshness, hparse]

end MetaInfo

theorem Data.decodeElement_freshness {acc acc' : Nat × Data} (h : decodeElement acc b = .ok acc')
    (htype : b.type = Tlv.metaInfo) :
    acc.1 < 2 ∧ acc'.1 = 2 ∧ acc'.2.getFreshnessPeriod = toInt64 (MetaInfo.carriedFreshness b) := by
  rw [decodeElement, if_pos htype] at h
  split_ifs at h
  obtain ⟨m, hm, h⟩ := bind_eq_ok_iff.1 h
  rw [← ok.inj h]
  exact ⟨by omega, rfl, MetaInfo.freshnessPeriod_of_wireDecode hm⟩

/-- At most one MetaInfo is accepted: `lastElement` is 2 after it. -/
theorem Data.getFreshnessPeriod_of_foldlM {acc acc' : Nat × Data}
    (h : elements.foldlM decodeElement acc = .ok acc') :
    acc'.2.getFreshnessPeriod =
      ((elements.find? (·.type == Tlv.metaInfo)).map fun b =>
        toInt64 (MetaInfo.carriedFreshness b)).getD acc.2.getFreshnessPeriod := by
  refine (foldlM_find? (fun b : Block => b.type == Tlv.metaInfo)
    (fun acc : Nat × Data => acc.2.getFreshnessPeriod)
    (fun b => toInt64 (MetaInfo.carriedFreshness b)) (fun acc => 2 ≤ acc.1) ?_ ?_ h).2
  · intro acc b acc' hb htype
    obtain ⟨hlt, heq, hvalue⟩ := decodeElement_freshness hb (by simpa using htype)
    exact ⟨by omega, by omega, hvalue⟩
  · intro acc b acc' hb htype
    obtain ⟨-, hle, hsame⟩ := decodeElement_keeps hb
    have hmeta := hsame (by simpa using htype)
    exact ⟨fun h2 => by omega, congrArg MetaInfo.freshnessPeriod hmeta⟩

theorem Data.getFreshnessPeriod_of_wireDecode {d : Data} (h : wireDecode wire = .ok d) :
    d.getFreshnessPeriod = toInt64 (carriedFreshness wire) := by
  obtain ⟨first, elements, last, hparse, htype, -, hfold⟩ := exists_fold_of_wireDecode h
  have hfirst : (first.type == Tlv.metaInfo) = false := by
    rw [htype]
    decide
  rw [getFreshnessPeriod_of_foldlM hfold]
  simp only [carriedFreshness, hparse, List.find?_cons, hfirst]
  cases elements.find? fun b => b.type == Tlv.metaInfo with
  | none => exact (toInt64_of_lt (by decide)).symm
  | some b => rw [Option.map_some, Option.getD_some, Option.map_some, Option.getD_some]

/-! The numbers have at most 64 bits. -/

theorem Interest.carriedLifetime_lt (wire : Block) : carriedLifetime wire < 2 ^ 64 := by
  unfold carriedLifetime
  split
  · rename_i elements hparse
    cases elements.find? fun b => b.type == Tlv.interestLifetime with
    | none => decide
    | some b => exact b.number_lt
  · decide

theorem MetaInfo.carriedFreshness_lt (wire : Block) : carriedFreshness wire < 2 ^ 64 := by
  unfold carriedFreshness
  split
  · rename_i elements hparse
    dsimp only
    cases (takeElement Tlv.freshnessPeriod (takeElement Tlv.contentType elements).2).1 with
    | none => decide
    | some b => exact b.number_lt
  · decide

theorem Data.carriedFreshness_lt (wire : Block) : carriedFreshness wire < 2 ^ 64 := by
  unfold carriedFreshness
  split
  · rename_i elements hparse
    cases elements.find? fun b => b.type == Tlv.metaInfo with
    | none => decide
    | some b => exact MetaInfo.carriedFreshness_lt b
  · decide

end NdnMulticast.Ndn

namespace NdnMulticast.Nfd

open Lib Ndn

/-! ## What the tables derive from them -/

theorem toNanoseconds_eq_iff {ms : Int} :
    toNanoseconds ms = ms * 1000000 ↔ FitsInt64 (ms * 1000000) :=
  bmod_eq_self_iff

/-- The assertion in `Forwarder::insertDeadNonceList`. -/
def freshnessAsserted (e : Entry) : Bool :=
  !e.isSatisfied || decide (0 ≤ e.dataFreshnessPeriod)

/-- The Interest is recorded with a lifetime, without overflow, and not as already expired. -/
structure RecordedSoundly (i : Interest) (now : Int) : Prop where
  lifetime_nonneg : 0 ≤ i.interestLifetime
  conversion : FitsInt64 (min i.interestLifetime maxLifetime * 1000000)
  addition : FitsInt64 (now + min i.interestLifetime maxLifetime * 1000000)
  inRecord : ∀ (e : Entry) (face : FacePtr) (nonce : List UInt8) (serial : Nat),
    ∀ r ∈ (e.insertOrUpdateInRecord face i nonce now serial).inRecords,
      r.face = face → r.lastRenewed ≤ r.expiry
  outRecord : ∀ (e : Entry) (face : FacePtr) (nonce : List UInt8),
    ∀ r ∈ (e.insertOrUpdateOutRecord face i nonce now).outRecords,
      r.face = face → r.lastRenewed ≤ r.expiry

/-- The Data is stored with a freshness period that is not negative, without overflow, not as stale
    before its time, and the entries it satisfies pass the assertion of the dead nonce list. -/
structure StoredSoundly (d : Data) (now : Int) : Prop where
  freshness_nonneg : 0 ≤ d.getFreshnessPeriod
  conversion : FitsInt64 (d.getFreshnessPeriod * 1000000)
  addition : FitsInt64 (now + d.getFreshnessPeriod * 1000000)
  freshUntil : now ≤ Cs.freshUntil d now
  asserted : ∀ e : Entry, freshnessAsserted
    { e with isSatisfied := true, dataFreshnessPeriod := d.getFreshnessPeriod } = true

/-- The top bit of the lifetime is clear, and the clock has room for the bounded lifetime. -/
def lifetimeFits (lifetime : Nat) (now : Int) : Bool :=
  decide (lifetime < 2 ^ 63) && decide (now + min (lifetime : Int) maxLifetime * 1000000 < 2 ^ 63)

/-- The freshness period fits as a number of nanoseconds, and the clock has room for it. -/
def freshnessFits (freshness : Nat) (now : Int) : Bool :=
  decide (freshness * 1000000 < 2 ^ 63) && decide (now + (freshness : Int) * 1000000 < 2 ^ 63)

theorem recordedSoundly_iff {i : Interest} {now : Int} (hnow : FitsInt64 now) :
    RecordedSoundly i now ↔ 0 ≤ i.interestLifetime ∧
      now + min i.interestLifetime maxLifetime * 1000000 < 2 ^ 63 := by
  constructor
  · intro h
    exact ⟨h.lifetime_nonneg, h.addition.2⟩
  · rintro ⟨hpos, hroom⟩
    have hmax : maxLifetime = 864000000 := by decide
    have hconversion : FitsInt64 (min i.interestLifetime maxLifetime * 1000000) := by
      exact ⟨by omega, by omega⟩
    have hexpiry : now ≤ recordExpiry i now := by
      rw [recordExpiry, toNanoseconds_eq_iff.2 hconversion]
      omega
    refine ⟨hpos, hconversion, ⟨?_, hroom⟩, ?_, ?_⟩
    · have := hnow.1
      omega
    · intro e face nonce serial r hr hface
      rcases Entry.of_mem_insertOrUpdateInRecord hr with ⟨-, hne⟩ | ⟨-, -, hrenewed, hexp⟩
      · exact absurd hface hne
      · rw [hrenewed, hexp]
        exact hexpiry
    · intro e face nonce r hr hface
      rcases Entry.of_mem_insertOrUpdateOutRecord hr with ⟨-, hne⟩ | ⟨-, -, hrenewed, hexp⟩
      · exact absurd hface hne
      · rw [hrenewed, hexp]
        exact hexpiry

theorem storedSoundly_iff {d : Data} {now : Int} (hnow : FitsInt64 now) :
    StoredSoundly d now ↔ 0 ≤ d.getFreshnessPeriod ∧ d.getFreshnessPeriod * 1000000 < 2 ^ 63 ∧
      now + d.getFreshnessPeriod * 1000000 < 2 ^ 63 := by
  constructor
  · intro h
    exact ⟨h.freshness_nonneg, h.conversion.2, h.addition.2⟩
  · rintro ⟨hpos, hfits, hroom⟩
    have hconversion : FitsInt64 (d.getFreshnessPeriod * 1000000) := ⟨by omega, hfits⟩
    refine ⟨hpos, hconversion, ⟨?_, hroom⟩, ?_, ?_⟩
    · have := hnow.1
      omega
    · rw [Cs.freshUntil, toNanoseconds_eq_iff.2 hconversion]
      omega
    · intro e
      simp [freshnessAsserted, hpos]

/-- **Durations of accepted packets.**  An Interest is recorded soundly exactly when the top bit of
    its InterestLifetime is clear and the clock has room for the bounded lifetime; a Data is stored
    soundly exactly when its FreshnessPeriod, in nanoseconds, fits and the clock has room for it. -/
theorem durations_sound_iff (check : Bool) (sha256 : List UInt8 → List UInt8) (wire : Block)
    {now : Int} (hnow : FitsInt64 now) :
    (∀ i, Interest.wireDecode check sha256 wire = .ok i →
      (RecordedSoundly i now ↔ lifetimeFits (Interest.carriedLifetime wire) now = true)) ∧
    (∀ d, Data.wireDecode wire = .ok d →
      (StoredSoundly d now ↔ freshnessFits (Data.carriedFreshness wire) now = true)) := by
  constructor
  · intro i hi
    rw [recordedSoundly_iff hnow, Interest.interestLifetime_of_wireDecode hi, lifetimeFits,
      Bool.and_eq_true, decide_eq_true_eq, decide_eq_true_eq]
    have hsign := bmod_natCast_nonneg_iff (Interest.carriedLifetime_lt wire)
    constructor
    · rintro ⟨hpos, hroom⟩
      have hlt := hsign.1 hpos
      exact ⟨hlt, by rwa [toInt64_of_lt hlt] at hroom⟩
    · simp_all [toInt64_of_lt]
  · intro d hd
    rw [storedSoundly_iff hnow, Data.getFreshnessPeriod_of_wireDecode hd, freshnessFits,
      Bool.and_eq_true, decide_eq_true_eq, decide_eq_true_eq]
    have hsign := bmod_natCast_nonneg_iff (Data.carriedFreshness_lt wire)
    constructor
    · rintro ⟨hpos, hfits, hroom⟩
      have hlt := hsign.1 hpos
      rw [toInt64_of_lt hlt] at hfits hroom
      exact ⟨by omega, hroom⟩
    · grind [toInt64_of_lt]

namespace Router

/-- The elements of an Interest `/a` with the given octets as InterestLifetime. -/
def lastingInterest (octets : List UInt8) : List UInt8 :=
  name ["a"] ++ element Tlv.interestLifetime octets

/-- A Data `/a` with the given octets as FreshnessPeriod. -/
def lastingData (octets : List UInt8) : Frame :=
  dataFrame ["a"] (element Tlv.metaInfo (element Tlv.freshnessPeriod octets))

/-- An Interest packet that asks for an hour. -/
def hourInterest : Block := ⟨Tlv.interest, [], lastingInterest (Tlv.nonNegativeInteger 3600000), []⟩

/-- The largest InterestLifetime, answered by the largest FreshnessPeriod. -/
def endless : List Event :=
  boot [1, 5] ++
    [.interest 1 (frame (element Tlv.interest (lastingInterest (List.replicate 8 255)))) [] [],
      .data 5 (lastingData (List.replicate 8 255)) (fun _ => []) (fun _ => 0)]

end Router

/-- An Interest that asks for an hour is recorded soundly. -/
theorem durations_sound_hour :
    ∃ i, Interest.wireDecode false Router.env.sha256 Router.hourInterest = .ok i ∧
      RecordedSoundly i 0 := by
  have hok : (Interest.wireDecode false Router.env.sha256 Router.hourInterest).isOk = true := by
    decide
  obtain ⟨i, hi⟩ := exists_eq_ok_of_isOk hok
  have hnow : FitsInt64 0 := by decide
  have hiff := (durations_sound_iff false Router.env.sha256 Router.hourInterest hnow).1 i hi
  exact ⟨i, hi, hiff.2 (by decide)⟩

/-- Both are read as minus one millisecond: the in-record has expired when it is made, so that the
    Data is not delivered, the Data is stale when it is stored, and the entry it satisfies fails the
    assertion. -/
theorem run_negative_durations :
    ∃ t, Run (step Router.env) (fun _ _ => True) Router.start Router.endless t ∧
      (∃ x ∈ t.pit.entries, (∃ r ∈ x.2.inRecords, r.expiry < r.lastRenewed) ∧
        freshnessAsserted x.2 = false) ∧
      (∃ c ∈ t.cs.table, c.freshUntil < t.now) ∧ t.sent = [] := by
  exact Run.exists_of_decide _ (by decide) fun _ _ ht => ht

end NdnMulticast.Nfd
