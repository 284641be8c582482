/-
  The producer, `transmission/FileServer.cpp`.

  `FileServer` answers an Interest under `/File` with the number of segments of a file, and one
  under `/Segment` with a segment; `FilePusher` sends segments nobody asked for.
-/

import NdnMulticast.Lib.Blocks
import NdnMulticast.Ndn.Encode
import NdnMulticast.Nfd.Segments

namespace NdnMulticast.Transmission

open Lib Ndn Nfd Option Int Data

/-- `MAX_SEGMENT_SIZE`. -/
def maxSegmentSize : Nat := 8000

/-- `MAX_NDN_PACKET_SIZE`. -/
def maxNdnPacketSize : Nat := 8800

/-- Conversion of a 64-bit number to `int`. -/
def toInt32 (n : Nat) : Int := Int.bmod n (2 ^ 32)

/-- The number is an `int`; arithmetic that leaves the range is undefined. -/
def isInt (n : Int) : Bool := decide (-2 ^ 31 ≤ n ∧ n < 2 ^ 31)

theorem toInt32_of_lt {n : Nat} (hn : n < 2 ^ 31) : toInt32 n = n := by
  unfold toInt32
  rw [bmod_def]
  omega

/-- The exception `std::stoi` raises. -/
def stoiException : StoiFailure → Exception
  | .invalidArgument => .invalidArgument "stoi"
  | .outOfRange => .outOfRange "stoi"

structure Producer where
  /-- The environment does not ask for canonical URIs. -/
  altUri : Bool
  /-- The files that can be opened, by what their path has after `./producer-files`. -/
  files : List UInt8 → Option (List UInt8)

/-- What `Face::put` and `Face::push` hand to the forwarder for a signed Data. -/
def send (name : Name) (content : List UInt8) (sig : Signature) : Raises (List UInt8) :=
  let wire := Data.wireEncode name content sig
  if maxNdnPacketSize < wire.length then .error (.oversizedPacket wire.length) else .ok wire

/-- `seekg`, `read`, `gcount`.  The position is an `int`; at a negative one nothing is read. -/
def readSegment (file : List UInt8) (segment : Int) : Except Fault (List UInt8) :=
  if isInt (segment * maxSegmentSize) = false then .error .undefinedBehavior
  else if segment < 0 then .ok []
  else .ok (block maxSegmentSize segment.toNat file)

theorem readSegment_eq_ok_iff {file : List UInt8} {segment : Int} {bytes : List UInt8} :
    readSegment file segment = .ok bytes ↔ isInt (segment * maxSegmentSize) = true ∧
      bytes = if segment < 0 then [] else block maxSegmentSize segment.toNat file := by
  unfold readSegment
  cases isInt (segment * maxSegmentSize) with
  | false => simp
  | true => grind

namespace Producer

/-- `fileName`: the URI of the second component. -/
def fileName (P : Producer) (n : Name) : List UInt8 := (n.getSubName 1 1).toUri P.altUri

def getFileSize (P : Producer) (fileName : List UInt8) : Int :=
  match P.files fileName with
  | some file => toInt32 file.length
  | none => -1

/-- `segmentCount` of `onFileInterest`. -/
def segmentCount (P : Producer) (fileName : List UInt8) : Int :=
  let fileSize := P.getFileSize fileName
  let segmentCount := fileSize.tdiv maxSegmentSize
  if fileSize.tmod maxSegmentSize ≠ 0 then segmentCount + 1 else segmentCount

/-- The Data of `FileServer::onFileInterest`. -/
def onFileInterest (P : Producer) (n : Name) (sig : Signature) : Raises (List UInt8) :=
  send n (decimalInt (P.segmentCount (P.fileName n))) sig

/-- The Data with one segment of a file; nothing if the file cannot be opened. -/
def segmentData (P : Producer) (fileName : List UInt8) (segment : Int) (sig : Signature) :
    Except Fault (Option (List UInt8)) :=
  match P.files fileName with
  | none => .ok none
  | some file => do
      let content ← readSegment file segment
      let name ← (Name.fromUri (segmentUri fileName (decimalInt segment))).mapError .raised
      let wire ← (send name content sig).mapError .raised
      return some wire

def onSegmentInterest (P : Producer) (n : Name) (sig : Signature) :
    Except Fault (Option (List UInt8)) :=
  match stoi (((n.getSubName 2 1).toUri P.altUri).drop 1) with
  | .error e => .error (.raised (stoiException e))
  | .ok segmentNumber => P.segmentData (P.fileName n) segmentNumber sig

def pushData (P : Producer) (fileName : List UInt8) (segment : Int) (sig : Signature) :
    Except Fault (Option (List UInt8)) :=
  P.segmentData fileName segment sig

/-- A packet that the producer sends: on an Interest that one of its filters lets through, or of its
    own accord for a file that a name it was asked for led to. -/
inductive Sends (P : Producer) : List UInt8 → Prop where
  | file {n : Name} {sig : Signature} {wire : List UInt8} (hn : n.WellFormed)
      (hfilter : State.filePrefix.isPrefixOf n = true) (hsend : P.onFileInterest n sig = .ok wire) :
      Sends P wire
  | segment {n : Name} {sig : Signature} {wire : List UInt8}
      (hfilter : Name.isPrefixOf [segmentPrefix] n = true)
      (hsend : P.onSegmentInterest n sig = .ok (some wire)) : Sends P wire
  | push {n : Name} {segment : Int} {sig : Signature} {wire : List UInt8}
      (hsend : P.pushData (P.fileName n) segment sig = .ok (some wire)) : Sends P wire

/-! ## The number of segments -/

section

variable {P : Producer} {fileName file : List UInt8}

theorem segmentCount_eq_blockCount (hfile : P.files fileName = some file)
    (hsize : file.length < 2 ^ 31) :
    P.segmentCount fileName = blockCount maxSegmentSize file.length := by
  have hfit : P.getFileSize fileName = file.length := by
    rw [getFileSize, hfile]
    exact toInt32_of_lt hsize
  rw [segmentCount, hfit, ← ofNat_tdiv, ← ofNat_tmod, blockCount]
  by_cases hmod : file.length % maxSegmentSize = 0
  · simp [hmod]
  · grind

/-- Division truncates towards zero, whatever the sign of the size. -/
theorem segmentCount_spec (P : Producer) (fileName : List UInt8) :
    ∃ q r : Int, P.getFileSize fileName = 8000 * q + r ∧ -8000 < r ∧ r < 8000 ∧
      P.segmentCount fileName = if r ≠ 0 then q + 1 else q :=
  ⟨(P.getFileSize fileName).tdiv maxSegmentSize, (P.getFileSize fileName).tmod maxSegmentSize,
    (mul_tdiv_add_tmod _ _).symm, lt_tmod_of_pos _ (by decide),
    tmod_lt_of_pos _ (by decide), rfl⟩

/-- The number of segments of a file whose size is not an `int` is too small. -/
theorem segmentCount_mul_lt (hfile : P.files fileName = some file)
    (hsize : 2 ^ 31 ≤ file.length) :
    P.segmentCount fileName * maxSegmentSize < file.length := by
  have hwrap : P.getFileSize fileName + 2 ^ 32 ≤ file.length := by
    rw [getFileSize, hfile]
    change bmod _ _ + _ ≤ _
    rw [bmod_def]
    omega
  obtain ⟨q, r, hsplit, hlow, -, hcount⟩ := P.segmentCount_spec fileName
  rw [hcount, maxSegmentSize]
  split
  · omega
  · omega

/-- The announced count is `⌈n/8000⌉`, every segment below it is read at its own offset, and there
    is none of a file that cannot be opened. -/
def AnnouncesSegments (P : Producer) (fileName : List UInt8) : Prop :=
  match P.files fileName with
  | none => P.segmentCount fileName ≤ 0
  | some file => P.segmentCount fileName = ((file.length + 7999) / 8000 : Nat) ∧
      ∀ i : Nat, i < P.segmentCount fileName →
        readSegment file i = .ok (block maxSegmentSize i file)

/-- **The count is right** exactly for a file that can be opened and whose size is an `int`. -/
theorem announcesSegments_iff (P : Producer) (fileName : List UInt8) :
    P.AnnouncesSegments fileName ↔ ∃ file ∈ P.files fileName, file.length < 2 ^ 31 := by
  unfold AnnouncesSegments
  cases hfile : P.files fileName with
  | none =>
    have hone : P.segmentCount fileName = 1 := by
      rw [segmentCount, getFileSize, hfile]
      rfl
    simp [hone]
  | some file =>
    simp only [mem_def, some.injEq, exists_eq_left']
    constructor
    · rintro ⟨hcount, -⟩
      by_contra hsize
      have hlt := segmentCount_mul_lt hfile (not_lt.1 hsize)
      rw [hcount, maxSegmentSize] at hlt
      omega
    · intro hsize
      have hcount : P.segmentCount fileName = ((file.length + 7999) / 8000 : Nat) := by
        rw [segmentCount_eq_blockCount hfile hsize, blockCount, maxSegmentSize]
        split <;> omega
      refine ⟨hcount, fun i hi => readSegment_eq_ok_iff.2 ⟨decide_eq_true ?_, ?_⟩⟩
      · rw [maxSegmentSize]
        omega
      · rw [if_neg (by omega), toNat_natCast]

/-- A file that is not there has one segment. -/
theorem segmentCount_missing : ¬ AnnouncesSegments ⟨true, fun _ => none⟩ (ascii "/a") := by
  show ¬ Producer.segmentCount _ _ ≤ 0
  decide

theorem segmentCount_range (P : Producer) (fileName : List UInt8) :
    -2 ^ 20 < P.segmentCount fileName ∧ P.segmentCount fileName < 2 ^ 20 := by
  have hint : -2 ^ 31 ≤ P.getFileSize fileName ∧ P.getFileSize fileName < 2 ^ 31 := by
    unfold getFileSize
    split
    · unfold toInt32
      rw [bmod_def]
      omega
    · decide
  obtain ⟨q, r, hsplit, hlow, hhigh, hcount⟩ := P.segmentCount_spec fileName
  rw [hcount]
  split
  · omega
  · omega

end

/-! ## What the packets contain -/

/-- What a Data that decodes from a packet of the producer is. -/
inductive Origin (P : Producer) (d : Data) : Prop where
  | file (n : Name) (sig : Signature) (hfilter : State.filePrefix.isPrefixOf n = true)
      (hname : d.name = n)
      (hcontent : d.content =
        some { Block.make Tlv.content (decimalInt (P.segmentCount (P.fileName n))) with
          after := Data.signatureWire sig })
  | segment (n : Name) (f : Component) (segment : Int) (file bytes : List UInt8) (sig : Signature)
      (hf : n[1]? = some f) (hfile : P.files (P.fileName n) = some file)
      (hbytes : readSegment file segment = .ok bytes)
      (hname : d.name = [segmentPrefix, reparsed P.altUri f, numberComponent segment])
      (hcontent : d.content =
        some { Block.make Tlv.content bytes with after := Data.signatureWire sig })

variable {sig : Signature} {wire : List UInt8} {P : Producer} {segment : Int}

theorem send_eq_ok_iff {name : Name} {content : List UInt8} :
    send name content sig = .ok wire ↔
      wire = wireEncode name content sig ∧ wire.length ≤ maxNdnPacketSize := by
  simp only [send]
  split
  · simp_all
  · grind

theorem segmentData_eq_ok_iff {fileName : List UInt8} :
    P.segmentData fileName segment sig = .ok (some wire) ↔
      ∃ file bytes name, P.files fileName = some file ∧ readSegment file segment = .ok bytes ∧
        Name.fromUri (segmentUri fileName (decimalInt segment)) = .ok name ∧
        send name bytes sig = .ok wire := by
  unfold segmentData
  cases P.files fileName with
  | none => simp
  | some file =>
    simp only [bind_eq_ok_iff, mapError_eq_ok_iff, some.injEq, pure, Except.pure, Except.ok.injEq]
    constructor
    · simp
    · simp

theorem decode_segmentData {n : Name}
    (h : P.segmentData (P.fileName n) segment sig = .ok (some wire)) :
    ∃ d, (Block.fromBuffer wire).bind wireDecode = .ok d ∧
      Name.fromUri (segmentUri (P.fileName n) (decimalInt segment)) = .ok d.name ∧ Origin P d := by
  obtain ⟨file, bytes, name, hfile, hbytes, hname, hsend⟩ := segmentData_eq_ok_iff.1 h
  obtain ⟨f, hf, hvalid, rfl⟩ := (fromUri_segmentUri_subName P.altUri n segment name).1 hname
  obtain ⟨rfl, hsize⟩ := send_eq_ok_iff.1 hsend
  -- the packet is short, so every length in it can be encoded
  have hshort : ∀ c ∈ [segmentPrefix, reparsed P.altUri f, numberComponent segment],
      c.value.length < 2 ^ 64 := by
    intro c hc
    have hvalue := Name.length_value_le hc
    have hwire := length_wireValue_le
      [segmentPrefix, reparsed P.altUri f, numberComponent segment] bytes sig
    simp only [maxNdnPacketSize] at hsize
    omega
  have hwell := segmentName_wellFormed hvalid (hshort (reparsed P.altUri f) (by simp))
    (hshort (numberComponent segment) (by simp))
  obtain ⟨d, hdecode, hdname, -, hcontent⟩ := decode_wireEncode hwell
    (Nat.lt_of_le_of_lt hsize (by decide))
  refine ⟨d, hdecode, ?_, .segment n f segment file bytes sig hf hfile hbytes hdname hcontent⟩
  rw [hname, hdname]

/-- **Every packet of the producer decodes**, to the count for a name or a segment of the file. -/
theorem Sends.decode (h : P.Sends wire) :
    ∃ d, (Block.fromBuffer wire).bind wireDecode = .ok d ∧ Origin P d := by
  cases h with
  | @file n sig _ hn hfilter hsend =>
    obtain ⟨rfl, hsize⟩ := send_eq_ok_iff.1 hsend
    obtain ⟨d, hdecode, hdname, -, hcontent⟩ := decode_wireEncode hn
      (Nat.lt_of_le_of_lt hsize (by decide))
    exact ⟨d, hdecode, .file n sig hfilter hdname hcontent⟩
  | segment hfilter hsend =>
    unfold onSegmentInterest at hsend
    split at hsend
    · cases hsend
    · grind [decode_segmentData]
  | push hsend =>
    obtain ⟨d, hdecode, -, ho⟩ := decode_segmentData hsend
    exact ⟨d, hdecode, ho⟩

end Producer

end NdnMulticast.Transmission
