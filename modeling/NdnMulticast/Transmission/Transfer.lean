/-
  A file goes from the producer to the consumer.

  The packets of the producer are honest (`Reception`), so what `getFile` writes depends only on
  which of them come after the reply: with all segments it is the file.  A reply from elsewhere can
  make the callbacks write outside the buffer.
-/

import NdnMulticast.Transmission.Reception

namespace NdnMulticast.Transmission

open Lib Ndn Nfd List Option Name Component State Packet Int Data

/-! ## The packets of the producer are honest -/

variable {n : Name} {sha256 : List UInt8 → List UInt8}

theorem equals_getElem? {m : Name} (h : m.equals n = true) {i : Nat} {a : Component}
    (ha : m[i]? = some a) : ∃ b, n[i]? = some b ∧ a.equals b = true := by
  rw [equals_iff] at h
  have hget := congrArg (fun l => l[i]?) h
  simp only [getElem?_map, ha, map_some] at hget
  obtain ⟨b, hb, heq⟩ := map_eq_some_iff.1 hget.symm
  obtain ⟨htype, hvalue⟩ := Prod.mk.inj heq
  exact ⟨b, hb, by simp [Component.equals, htype, hvalue]⟩

/-- An Interest of the consumer matches Data with its name, or its name up to the last digest. -/
theorem equals_take_of_matchesData {d : Data} (h : (expressed n).matchesData sha256 d = true) :
    Name.equals (n.take d.name.length) d.name = true ∧
      (n.length = d.name.length ∨ (n.length = d.name.length + 1 ∧
        n.getLast?.any isImplicitSha256Digest = true)) := by
  rw [Interest.matchesData, Bool.and_eq_true] at h
  have hname := h.1
  split at hname
  · rename_i hlen
    rw [Bool.and_eq_true] at hname
    obtain ⟨hlast, hfull⟩ := hname
    rw [equals_iff, getFullName, map_append] at hfull
    refine ⟨?_, Or.inr ⟨hlen, hlast⟩⟩
    rw [equals_iff, map_take]
    have htake := congrArg (take d.name.length) hfull
    rwa [take_left' (length_map _)] at htake
  · have hequals : n.equals d.name = true := hname
    have hlen : n.length = d.name.length := by
      have := congrArg length (equals_iff.1 hequals)
      simpa using this
    rw [← hlen, take_length]
    exact ⟨hequals, Or.inl rfl⟩

theorem matchesData_of_name {d : Data} (h : d.name = n) :
    (expressed n).matchesData sha256 d = true := by
  subst h
  have hne : ¬ (expressed d.name).name.length = d.name.length + 1 :=
    Nat.ne_of_lt (Nat.lt_succ_self _)
  rw [Interest.matchesData, if_neg hne]
  show (d.name.equals d.name && true) = true
  rw [equals_iff.2 rfl]
  rfl

/-- A name under `/File` does not start with `Segment`. -/
theorem not_equals_segmentPrefix (hn : filePrefix.isPrefixOf n = true) :
    ∃ c, n[0]? = some c ∧ c.equals segmentPrefix = false := by
  cases n with
  | nil => cases hn
  | cons c n =>
    refine ⟨c, rfl, ?_⟩
    simp only [filePrefix, Name.isPrefixOf, Bool.and_true, Component.equals,
      Bool.and_eq_true, beq_iff_eq] at hn
    rw [Component.equals, ← hn.1, ← hn.2]
    decide

namespace Producer

variable {P : Producer} {sha256 : List UInt8 → List UInt8} {r : Request} {d : Data}
  {file : List UInt8}

theorem fileName_eq (P : Producer) {n : Name} {f : Component} (hf : n[1]? = some f) :
    P.fileName n = 47 :: f.toUri P.altUri := toUri_getSubName P.altUri hf

/-- A reply that satisfies the `/File` Interest was made for the same file. -/
theorem fileName_of_matchesData {n : Name} (hn : filePrefix.isPrefixOf n = true)
    (hname : d.name = n) (hmatch : (expressed r.name).matchesData sha256 d = true) :
    P.fileName n = P.fileName r.name := by
  subst hname
  obtain ⟨htake, hlen⟩ := equals_take_of_matchesData hmatch
  by_cases hlong : 1 < d.name.length
  · have hget : (r.name.take d.name.length)[1]? = some r.file := by
      rw [getElem?_take_of_lt hlong, r.file_eq]
    obtain ⟨f, hf, hequals⟩ := equals_getElem? htake hget
    rw [P.fileName_eq hf, P.fileName_eq r.file_eq, toUri_congr hequals]
  · -- the reply would be named `/File` alone, and the file of the request be a digest
    exfalso
    obtain ⟨hlt, hget⟩ := List.getElem?_eq_some_iff.1 r.file_eq
    obtain ⟨htwo, hlast⟩ := hlen.resolve_left (by omega)
    have hfile : r.name.getLast? = some r.file := by
      rw [getLast?_eq_getElem?, show r.name.length - 1 = 1 by omega, r.file_eq]
    rw [hfile, any_some, r.noDigest] at hlast
    cases hlast

/-- **What the producer sends is honest.** -/
theorem Origin.honest (ho : P.Origin d) (hfile : P.files (P.fileName r.name) = some file) :
    Honest sha256 P.altUri r (P.segmentCount (P.fileName r.name)) file d := by
  refine ⟨fun hmatch => ?_, fun k hmatch => ?_⟩
  · cases ho with
    | file n sig hfilter hname hcontent =>
      have hrange := P.segmentCount_range (P.fileName r.name)
      rw [fileName_of_matchesData hfilter hname hmatch] at hcontent
      have hread : stoi (decimalInt (P.segmentCount (P.fileName r.name)) ++
          Data.signatureWire sig) = .ok (P.segmentCount (P.fileName r.name)) :=
        -- the signature starts with an octet that is no digit
        stoi_decimalInt_append (by omega) rfl
      simp only [State.segmentCount, hcontent, Block.make, hread]
    | segment n f segment file' bytes sig hf hfile' hbytes hname hcontent =>
      -- the first component of the request is `File`
      obtain ⟨c, hc, hne⟩ := not_equals_segmentPrefix r.underFile
      have htake := (equals_take_of_matchesData hmatch).1
      rw [hname] at htake
      obtain ⟨b, hb, hequals⟩ := equals_getElem? htake
        ((getElem?_take_of_lt (Nat.succ_pos _)).trans hc)
      obtain rfl : segmentPrefix = b := some.inj hb
      rw [hne] at hequals
      cases hequals
  · obtain ⟨htake, hlen⟩ := equals_take_of_matchesData hmatch
    cases ho with
    | file n sig hfilter hname hcontent =>
      obtain ⟨c, hc, hne⟩ := not_equals_segmentPrefix hfilter
      rw [hname] at htake
      obtain ⟨b, hb, hequals⟩ := equals_getElem? htake (a := segmentPrefix)
        (List.getElem?_take_of_lt (List.getElem?_eq_some_iff.1 hc).1)
      obtain rfl := mem_unique hc hb
      simp only [Component.equals, Bool.and_eq_true, beq_iff_eq] at hequals
      simp [Component.equals, hequals] at hne
    | segment n f segment file' bytes sig hf hfile' hbytes hname hcontent =>
      rw [hname] at htake
      obtain ⟨huri, rfl⟩ := segmentName_equals htake
      have hsame : P.fileName r.name = P.fileName n := by
        rw [P.fileName_eq r.file_eq, P.fileName_eq hf, huri]
      rw [hsame, hfile'] at hfile
      obtain rfl : file' = file := some.inj hfile
      rw [hbytes, contentOf, hcontent]
      rfl

theorem Sends.honest {wire : List UInt8} (h : P.Sends wire)
    (hfile : P.files (P.fileName r.name) = some file) :
    Packet.Honest sha256 P.altUri r (P.segmentCount (P.fileName r.name)) file (.data wire) := by
  obtain ⟨d, hdecode, ho⟩ := h.decode
  exact ⟨d, hdecode, ho.honest hfile⟩

end Producer

/-! ## The end of a run -/

section

variable {sha256 : List UInt8 → List UInt8} {altUri : Bool} {r : Request} {count : Int}
  {file : List UInt8}

theorem mem_segmentEntries {e : PendingInterest} (he : e ∈ r.segmentEntries altUri count) :
    ∃ k : Int, k < count ∧ (0 ≤ k ∨ k = count - 1) ∧ e = r.segmentEntry altUri count k := by
  rcases mem_append.1 he with he | he
  · grind
  · grind

theorem segmentEntry_mem {i : Nat} (hi : (i : Int) < count) :
    r.segmentEntry altUri count i ∈ r.segmentEntries altUri count := by
  by_cases hlast : (i : Int) = count - 1
  · rw [hlast]
    exact mem_append_right _ (.head _)
  · refine mem_append_left _ (mem_map.2 ⟨i, mem_range.2 ?_, rfl⟩)
    omega

theorem receiving_start :
    Receiving altUri r count file
      ⟨r.segmentEntries altUri count, [], some (freshMemory count)⟩ where
  posted := rfl
  memory := ⟨_, rfl, rfl, length_replicate, fun _ h => nomatch h⟩
  entries _ he := mem_segmentEntries he

variable {m : Memory}

theorem writeOut_eq {size : Int} (hsize : m.lastSize = some size) {n : Nat}
    (htotal : m.segment * maxSegmentSize + size = n) (hn : n < 2 ^ 31)
    (hsegment : isInt (m.segment * maxSegmentSize) = true) (hroom : n ≤ m.buffer.length) :
    writeOut (some m) = .wrote (m.buffer.take n) := by
  have hint : isInt (n : Int) = true := decide_eq_true (by omega)
  rw [writeOut, hsize]
  dsimp only
  rw [htotal, if_pos ⟨hsegment, hint, by omega, by omega⟩, toNat_natCast]

theorem writeOut_file (hgood : m.Good count file) (hne : 0 < file.length)
    (hsize : file.length < 2 ^ 31) (hcount : count = blockCount maxSegmentSize file.length)
    (hall : ∀ i : Nat, (i : Int) < count → m.Stored count file i) :
    writeOut (some m) = .wrote (file.map some) := by
  have hsegmentSize : 0 < maxSegmentSize := by decide
  have hlast := pred_blockCount_mul_lt hsegmentSize hne
  have htotal := pred_blockCount_mul_add_length hsegmentSize (length_pos_iff.1 hne)
  have hroom := le_blockCount_mul (n := file.length) hsegmentSize
  have hpos : 0 < blockCount maxSegmentSize file.length := blockCount_pos hne
  generalize hq : blockCount maxSegmentSize file.length - 1 = q at hlast htotal
  have hqcount : (q : Int) = count - 1 := by omega
  have hlength : m.buffer.length = blockCount maxSegmentSize file.length * maxSegmentSize := by
    rw [hgood.length, hcount, ← natCast_mul, toNat_natCast]
  have hsegment : isInt (m.segment * maxSegmentSize) = true := by
    rw [hgood.segment, ← hqcount, ← natCast_mul]
    exact decide_eq_true (by omega)
  have hcells : ∀ j < file.length, Holds m.buffer file j := by
    intro j hj
    have hblock : j / maxSegmentSize < blockCount maxSegmentSize file.length := div_lt_blockCount hj
    exact (hall (j / maxSegmentSize) (by omega)).cells j hj rfl
  rw [writeOut_eq ((hall q (by omega)).size hqcount) (n := file.length) ?_ hsize hsegment
    (by rw [hlength]; exact hroom), take_eq_of_holds hcells]
  rw [hgood.segment, ← hqcount]
  exact_mod_cast htotal

/-- At most as many octets are written as the announced segments have. -/
theorem writeOut_length (hgood : m.Good count file) :
    writeOut (some m) = .undefined ∨ ∃ cells, writeOut (some m) = .wrote cells ∧ 1 ≤ count ∧
      (cells.length : Int) ≤ count * maxSegmentSize := by
  unfold writeOut
  dsimp only
  cases hlast : m.lastSize with
  | none => exact Or.inl rfl
  | some size =>
    obtain ⟨bytes, hbytes, rfl⟩ := hgood.lastSize size hlast
    dsimp only
    split
    · grind [maxSegmentSize, length_le_of_readSegment, readSegment_eq_ok_iff, Memory.Good.segment]
    · exact Or.inl rfl

end

/-! ## Results -/

namespace Result

/-- Unknown cells hold something. -/
theorem exists_mayWrite (cells : List (Option UInt8)) :
    ∃ bytes, (Result.wrote cells).MayWrite bytes := by
  refine ⟨cells.map (·.getD 0), ?_⟩
  change Forall₂ _ cells (cells.map _)
  rw [forall₂_map_right_iff, forall₂_same]
  rintro cell - a rfl
  rfl

theorem faithful_wrote (file : List UInt8) : (Result.wrote (file.map some)).Faithful file := by
  intro bytes h
  change Forall₂ _ (file.map some) bytes at h
  rw [forall₂_map_left_iff] at h
  have heq : Forall₂ (· = ·) file bytes := h.imp fun a b hab => hab a rfl
  exact (forall₂_eq_eq_eq ▸ heq : file = bytes).symm

/-- Undefined behaviour may write something else than the file. -/
theorem not_faithful_undefined (file : List UInt8) : ¬ Result.undefined.Faithful file := by
  intro h
  have := h (0 :: file) trivial
  simp at this

theorem length_of_faithful {cells : List (Option UInt8)} {file : List UInt8}
    (h : (Result.wrote cells).Faithful file) : cells.length = file.length := by
  obtain ⟨bytes, hbytes⟩ := exists_mayWrite cells
  rw [← h bytes hbytes]
  exact Forall₂.length_eq hbytes

theorem not_writesNothing_writeOut (memory : Option Memory) :
    ¬ (writeOut memory).WritesNothing := by
  have hcases : writeOut memory = .undefined ∨ ∃ cells, writeOut memory = .wrote cells := by
    unfold writeOut
    split
    · exact Or.inl rfl
    · grind
  intro h
  rcases hcases with hres | ⟨cells, hres⟩
  · rw [hres] at h
    exact h [] trivial
  · rw [hres] at h
    obtain ⟨bytes, hbytes⟩ := exists_mayWrite cells
    exact h bytes hbytes

end Result

theorem mem_of_answer {i : Interest} {evs rest : List Event} (h : answer sha256 i evs = some rest) :
    ∀ ev ∈ rest, ev ∈ evs := by
  induction evs with
  | nil => cases h
  | cons e evs ih => grind [answer]

section

variable {P : Producer} {sha256 : List UInt8 → List UInt8} {r : Request} {file : List UInt8}
  {evs : List Event}

theorem honest_of_sends (hfile : P.files (P.fileName r.name) = some file)
    (hsent : ∀ ev ∈ evs, ∀ wire, Packet.data wire ∈ ev.packets → P.Sends wire) :
    ∀ ev ∈ evs, ∀ p ∈ ev.packets,
      p.Honest sha256 P.altUri r (P.segmentCount (P.fileName r.name)) file := by
  intro ev hev p hp
  cases p with
  | data wire => exact (hsent ev hev wire hp).honest hfile
  | nack i => trivial

theorem isInt_segmentCount_pred (P : Producer) (fileName : List UInt8) :
    isInt (P.segmentCount fileName - 1) = true := by
  have hrange := P.segmentCount_range fileName
  exact decide_eq_true (by omega)

/-- A run of `getFile` has two parts, before and after the reply. -/
theorem getFile_cases (sha256 : List UInt8 → List UInt8)
    (hfile : P.files (P.fileName r.name) = some file)
    (hsent : ∀ ev ∈ evs, ∀ wire, data wire ∈ ev.packets → P.Sends wire) (openable : Bool)
    (memory : Option Memory) :
    (answer sha256 (expressed r.name) evs = none ∧
      (getFile sha256 P.altUri r openable memory evs = .waiting ∨
        getFile sha256 P.altUri r openable memory evs =
          if openable then writeOut memory else .notOpened)) ∨
    ∃ rest, answer sha256 (expressed r.name) evs = some rest ∧
      (∀ ev ∈ rest, ∀ p ∈ ev.packets,
        p.Honest sha256 P.altUri r (P.segmentCount (P.fileName r.name)) file) ∧
      getFile sha256 P.altUri r openable memory evs =
        match Client.processEvents sha256 rest
          ⟨r.segmentEntries P.altUri (P.segmentCount (P.fileName r.name)), [],
            some (freshMemory (P.segmentCount (P.fileName r.name)))⟩ with
        | .error (.raised e) => .raised e
        | .error .undefinedBehavior => .undefined
        | .ok none => .waiting
        | .ok (some c) => if openable then writeOut c.memory else .notOpened := by
  have hhonest : ∀ ev ∈ evs, ∀ p ∈ ev.packets,
      p.Honest sha256 P.altUri r (P.segmentCount (P.fileName r.name)) file :=
    honest_of_sends hfile hsent
  have hcount := isInt_segmentCount_pred P (P.fileName r.name)
  have hstart : (⟨[⟨expressed r.name, .onFile ((r.name.getSubName 1 1).toUri P.altUri)⟩], [],
      memory⟩ : Client) = ⟨[r.fileEntry P.altUri], [], memory⟩ := rfl
  rw [getFile, hstart]
  rcases processEvents_file hhonest hcount memory with ⟨rest, hrest, hrun⟩ | ⟨hnone, hrun⟩
  · grind [mem_of_answer]
  · grind

theorem getFile_of_arrived (hfile : P.files (P.fileName r.name) = some file) (hne : 0 < file.length)
    (hsize : file.length < 2 ^ 31)
    (hsent : ∀ ev ∈ evs, ∀ wire, data wire ∈ ev.packets → P.Sends wire)
    (harrived : arrived sha256 P.altUri r (P.segmentCount (P.fileName r.name)) evs = true)
    (memory : Option Memory) :
    getFile sha256 P.altUri r true memory evs = .wrote (file.map some) := by
  have hcount := Producer.segmentCount_eq_blockCount hfile hsize
  have hpos : 0 < blockCount maxSegmentSize file.length := blockCount_pos hne
  have hcases := getFile_cases sha256 hfile hsent true memory
  generalize P.segmentCount (P.fileName r.name) = count at hcount harrived hcases
  rcases hcases with ⟨hnone, -⟩ | ⟨rest, hrest, hhonest, hrun⟩
  · rw [arrived, hnone] at harrived
    cases harrived
  · rw [arrived, hrest, Option.any_some, List.all_eq_true] at harrived
    -- every Interest is for one of the announced segments
    have hpending : ∀ e ∈ r.segmentEntries P.altUri count,
        (answer sha256 e.interest rest).isSome = true := by
      intro e he
      obtain ⟨k, hk, hnonneg, rfl⟩ := mem_segmentEntries he
      obtain ⟨n, rfl⟩ := eq_ofNat_of_zero_le (a := k) (by omega)
      exact harrived n (mem_range.2 (by omega))
    have hends := processEvents_answered (c := ⟨r.segmentEntries P.altUri count, [],
      some (freshMemory count)⟩) hhonest receiving_start hpending
      fun i hi => Or.inr (segmentEntry_mem hi)
    obtain ⟨o, ho, c, rfl, hc, hhas⟩ := hends.exists_ok fun f hf => by
      have := hf.2
      omega
    obtain ⟨m, hm, hgood⟩ := hc.memory
    rw [hrun, ho]
    dsimp only
    rw [if_pos rfl, hm]
    refine writeOut_file hgood hne hsize hcount fun i hi => ?_
    obtain ⟨m', hm', hstored⟩ := hhas i hi
    rw [hm] at hm'
    exact some.inj hm' ▸ hstored

end

/-! ### A file of one octet, `/a`, and a consumer that asks for it -/

namespace OneOctet

def signature : Signature := ⟨[27, 1, 0], [], fun _ => ⟨_, rfl⟩⟩

def producer : Producer := ⟨true, fun fileName => if fileName = ascii "/a" then some [7] else none⟩

def request : Request where
  name := [Component.ofString "File", Component.ofString "a"]
  file := Component.ofString "a"
  underFile := by decide
  file_eq := rfl
  valid := by decide
  noDigest := by decide
  noParameters := by decide
  wellFormed := by
    intro c hc
    simp only [List.mem_cons, List.not_mem_nil, or_false] at hc
    rcases hc with rfl | rfl <;>
      exact Component.wellFormed_encode (by decide) (by decide) (by decide)

def reply : List UInt8 := Data.wireEncode request.name (ascii "1") signature

def segment : List UInt8 := Data.wireEncode (request.segmentName true 0) [7] signature

theorem onFileInterest_reply : producer.onFileInterest request.name signature = .ok reply :=
  Producer.send_eq_ok_iff.2 ⟨by decide, by decide⟩

theorem pushData_segment :
    producer.pushData (producer.fileName request.name) 0 signature = .ok (some segment) :=
  Producer.segmentData_eq_ok_iff.2 ⟨[7], [7], request.segmentName true 0, by decide, by decide,
    (fromUri_segmentUri_subName true request.name 0 _).2 ⟨_, rfl, request.valid, rfl⟩,
    Producer.send_eq_ok_iff.2 ⟨rfl, by decide⟩⟩

theorem sends_reply : producer.Sends reply :=
  .file request.wellFormed request.underFile onFileInterest_reply

theorem sends_segment : producer.Sends segment := .push pushData_segment

theorem files_eq : producer.files (producer.fileName request.name) = some [7] := by decide

end OneOctet

/-! ## All segments arrive -/

/-- A read that brings nothing but Data. -/
def receiveData (wires : List (List UInt8)) : Event := .receive (wires.map .data)

/-- The packet has a segment of a file in it, pushed or asked for. -/
def Producer.SegmentPacket (P : Producer) (fileName : List UInt8) (segment : Int)
    (wire : List UInt8) : Prop :=
  (∃ sig, P.pushData fileName segment sig = .ok (some wire)) ∨
    ∃ n sig, P.fileName n = fileName ∧
      stoi (((n.getSubName 2 1).toUri P.altUri).drop 1) = .ok segment ∧
      P.onSegmentInterest n sig = .ok (some wire)

section

variable {P : Producer} {sha256 : List UInt8 → List UInt8} {r : Request} {wire : List UInt8}
  {i : Interest} {wires : List (List UInt8)}

theorem concerns_reply {sig : Signature} (h : P.onFileInterest r.name sig = .ok wire) :
    concerns sha256 (expressed r.name) (.data wire) = true := by
  obtain ⟨rfl, hsize⟩ := Producer.send_eq_ok_iff.1 h
  obtain ⟨d, hdecode, hname, -⟩ := decode_wireEncode r.wellFormed
    (Nat.lt_of_le_of_lt hsize (by decide))
  rw [concerns, hdecode]
  exact matchesData_of_name hname

theorem concerns_segment {segment : Int} (h : P.SegmentPacket (P.fileName r.name) segment wire) :
    concerns sha256 (expressed (r.segmentName P.altUri segment)) (.data wire) = true := by
  have hdata : ∃ sig, P.segmentData (P.fileName r.name) segment sig = .ok (some wire) := by
    rcases h with ⟨sig, h⟩ | ⟨n, sig, hn, hnumber, h⟩
    · exact ⟨sig, h⟩
    · refine ⟨sig, ?_⟩
      rw [Producer.onSegmentInterest, hnumber, hn] at h
      exact h
  obtain ⟨sig, hdata⟩ := hdata
  obtain ⟨d, hdecode, hname, -⟩ := Producer.decode_segmentData hdata
  obtain ⟨f, hf, -, hdname⟩ := (fromUri_segmentUri_subName P.altUri r.name segment d.name).1 hname
  obtain rfl : r.file = f := mem_unique r.file_eq hf
  rw [concerns, hdecode]
  exact matchesData_of_name hdname

theorem concerns_receiveData :
    (receiveData wires).concerns sha256 i = true ↔
      ∃ wire ∈ wires, concerns sha256 i (.data wire) = true := by
  rw [receiveData, Event.concerns, List.any_map, List.any_eq_true]
  rfl

/-- Without Nacks, what concerns an Interest answers it. -/
theorem answers_receiveData (h : (receiveData wires).concerns sha256 i = true) :
    (receiveData wires).answers sha256 i = true := by
  obtain ⟨p, hp, hconcerns⟩ := List.any_eq_true.1 h
  rw [Event.answers]
  cases hfind : (receiveData wires).packets.find? (concerns sha256 i) with
  | none => exact absurd hconcerns (List.find?_eq_none.1 hfind p hp)
  | some q =>
    obtain ⟨wire, -, rfl⟩ := List.mem_map.1 (List.mem_of_find?_eq_some hfind)
    rfl

theorem answer_reads (before after : List (List (List UInt8))) {first : List (List UInt8)}
    (hfirst : (receiveData first).concerns sha256 i = true) :
    ∃ between, answer sha256 i ((before ++ first :: after).map receiveData) =
      some ((between ++ after).map receiveData) := by
  induction before with
  | nil => simp_all [answer, answers_receiveData]
  | cons read before ih =>
    rw [cons_append, map_cons, answer]
    cases hread : (receiveData read).concerns sha256 i with
    | true =>
      refine ⟨before ++ [first], ?_⟩
      rw [if_pos rfl, if_pos (answers_receiveData hread), append_assoc]
      rfl
    | false =>
      exact ih

/-- **The file is what the consumer writes.**  The reply comes in some read and every segment in a
    later one, in any order, among whatever else the producer sends. -/
theorem getFile_wrote (P : Producer) (sha256 : List UInt8 → List UInt8) (r : Request)
    {file : List UInt8} (hfile : P.files (P.fileName r.name) = some file) (hpos : 1 ≤ file.length)
    (hsize : file.length < 2 ^ 31) {before after : List (List (List UInt8))}
    {first : List (List UInt8)}
    (hsent : ∀ read ∈ before ++ first :: after, ∀ wire ∈ read, P.Sends wire)
    (hreply : ∃ wire ∈ first, ∃ sig, P.onFileInterest r.name sig = .ok wire)
    (hsegments : ∀ k : Nat, (k : Int) < P.segmentCount (P.fileName r.name) →
      ∃ read ∈ after, ∃ wire ∈ read, P.SegmentPacket (P.fileName r.name) k wire)
    (memory : Option Memory) :
    getFile sha256 P.altUri r true memory ((before ++ first :: after).map receiveData) =
      .wrote (file.map some) := by
  refine getFile_of_arrived hfile hpos hsize ?_ ?_ memory
  · intro ev hev wire hwire
    obtain ⟨read, hread, rfl⟩ := mem_map.1 hev
    obtain ⟨wire', hmem, heq⟩ := mem_map.1 hwire
    obtain rfl : wire' = wire := data.inj heq
    exact hsent read hread wire' hmem
  · obtain ⟨wire, hwire, sig, hreply⟩ := hreply
    obtain ⟨between, hanswer⟩ := answer_reads before after
      (concerns_receiveData.2 ⟨wire, hwire, concerns_reply hreply⟩)
    rw [arrived, hanswer, Option.any_some, List.all_eq_true]
    intro k hk
    obtain ⟨read, hread, wire, hwire, hpacket⟩ := hsegments k (by
      have := mem_range.1 hk
      omega)
    obtain ⟨early, late, rfl⟩ := append_of_mem hread
    obtain ⟨rest, hsegment⟩ := answer_reads (between ++ early) late
      (concerns_receiveData.2 ⟨wire, hwire, concerns_segment hpacket⟩)
    rw [← append_assoc, hsegment]
    rfl

/-! ### A file of a full segment and one octet -/

namespace TwoSegments

open OneOctet

def file : List UInt8 := replicate maxSegmentSize 7 ++ [8]

def producer : Producer := ⟨true, fun fileName => if fileName = ascii "/a" then some file else none⟩

def reply : List UInt8 := Data.wireEncode request.name (ascii "2") signature

def segment (k : Fin 2) : List UInt8 :=
  Data.wireEncode (request.segmentName true k) (block maxSegmentSize k file) signature

theorem files_eq : producer.files (producer.fileName request.name) = some file := by
  rw [show producer.fileName request.name = ascii "/a" by decide]
  rfl

theorem length_file : file.length = 8001 := by
  rw [file, length_append, length_replicate]
  rfl

theorem segmentCount_eq : producer.segmentCount (producer.fileName request.name) = 2 := by
  rw [Producer.segmentCount_eq_blockCount files_eq (by rw [length_file]; decide), length_file]
  rfl

theorem onFileInterest_reply : producer.onFileInterest request.name signature = .ok reply := by
  refine Producer.send_eq_ok_iff.2 ⟨?_, by decide⟩
  rw [segmentCount_eq]
  rfl

theorem length_segment_le (k : Fin 2) : (segment k).length ≤ maxNdnPacketSize := by
  have hname : ∀ k : Fin 2, (request.segmentName true k).wireValue.length ≤ 20 := by decide
  have hblock : (block maxSegmentSize k file).length ≤ maxSegmentSize := length_take_le _ _
  refine (length_wireEncode_le _ _ _).trans ?_
  have hk := hname k
  simp only [signature, maxSegmentSize, maxNdnPacketSize, length_cons, length_nil] at hblock ⊢
  omega

theorem pushData_segment (k : Fin 2) :
    producer.pushData (producer.fileName request.name) k signature = .ok (some (segment k)) := by
  have hint : ∀ k : Fin 2, isInt ((k : Nat) * maxSegmentSize) = true := by decide
  refine Producer.segmentData_eq_ok_iff.2 ⟨file, _, request.segmentName true k, files_eq,
    readSegment_eq_ok_iff.2 ⟨hint k, rfl⟩, ?_, Producer.send_eq_ok_iff.2 ⟨?_, length_segment_le k⟩⟩
  · exact (fromUri_segmentUri_subName true request.name k _).2 ⟨_, rfl, request.valid, rfl⟩
  · rw [if_neg (by omega)]
    rfl

end TwoSegments

/-- The second segment comes before the first. -/
theorem getFile_wrote_two_segments :
    getFile (fun _ => []) true OneOctet.request true none
      [receiveData [TwoSegments.reply], receiveData [TwoSegments.segment 1],
        receiveData [TwoSegments.segment 0]] = .wrote (TwoSegments.file.map some) := by
  have hsent : ∀ read ∈ [] ++ [TwoSegments.reply] :: [[TwoSegments.segment 1],
      [TwoSegments.segment 0]], ∀ wire ∈ read, TwoSegments.producer.Sends wire := by
    simp only [nil_append, forall_mem_cons, not_mem_nil, IsEmpty.forall_iff, implies_true, and_true]
    exact ⟨.file OneOctet.request.wellFormed OneOctet.request.underFile
      TwoSegments.onFileInterest_reply, .push (TwoSegments.pushData_segment 1),
      .push (TwoSegments.pushData_segment 0)⟩
  have hsize := TwoSegments.length_file
  refine getFile_wrote TwoSegments.producer (fun _ => []) OneOctet.request TwoSegments.files_eq
    (by omega) (by omega) hsent ⟨_, (.head _), _, TwoSegments.onFileInterest_reply⟩ ?_ none
  intro k hk
  rw [TwoSegments.segmentCount_eq] at hk
  obtain rfl | rfl : k = 0 ∨ k = 1 := by omega
  · exact ⟨_, .tail _ (.head _), _, .head _, Or.inl ⟨_, TwoSegments.pushData_segment 0⟩⟩
  · exact ⟨_, .head _, _, .head _, Or.inl ⟨_, TwoSegments.pushData_segment 1⟩⟩

/-- A segment in the same read as the reply comes before its Interest is pending, and is lost. -/
theorem getFile_waits_for_early_segment :
    OneOctet.producer.onFileInterest OneOctet.request.name OneOctet.signature =
        .ok OneOctet.reply ∧
      OneOctet.producer.SegmentPacket (OneOctet.producer.fileName OneOctet.request.name) 0
        OneOctet.segment ∧
      OneOctet.producer.segmentCount (OneOctet.producer.fileName OneOctet.request.name) = 1 ∧
      getFile (fun _ => []) true OneOctet.request true none
        [receiveData [OneOctet.reply, OneOctet.segment]] = .waiting :=
  ⟨OneOctet.onFileInterest_reply, Or.inl ⟨_, OneOctet.pushData_segment⟩, by decide, by decide⟩

end

/-! ## Not all segments arrive -/

section

variable {P : Producer} {sha256 : List UInt8 → List UInt8} {r : Request} {file : List UInt8}
  {evs : List Event} (hfile : P.files (P.fileName r.name) = some file)
include hfile

theorem getFile_notOpened (hsize : file.length < 2 ^ 31)
    (hsent : ∀ ev ∈ evs, ∀ wire, data wire ∈ ev.packets → P.Sends wire)
    (memory : Option Memory) (hreturns : getFile sha256 P.altUri r false memory evs ≠ .waiting) :
    getFile sha256 P.altUri r false memory evs = .notOpened := by
  rcases getFile_cases sha256 hfile hsent false memory with ⟨-, hrun⟩ | ⟨rest, -, hhonest, hrun⟩
  · exact hrun.resolve_left hreturns
  obtain ⟨o, ho, -⟩ := (processEvents_receiving hhonest receiving_start).exists_ok fun f hf => by
    have := hf.2
    omega
  rw [ho] at hrun
  cases o with
  | none => exact absurd hrun hreturns
  | some c => exact hrun

variable (hsent : ∀ ev ∈ evs, ∀ wire, Packet.data wire ∈ ev.packets → P.Sends wire)
include hsent

variable (memory : Option Memory)

section

variable (hreturns : getFile sha256 P.altUri r true memory evs ≠ .waiting)
include hreturns

theorem getFile_opened :
    (answer sha256 (expressed r.name) evs = none ∧
      getFile sha256 P.altUri r true memory evs = writeOut memory) ∨
    getFile sha256 P.altUri r true memory evs = .undefined ∨
    ∃ m : Memory, m.Good (P.segmentCount (P.fileName r.name)) file ∧
      getFile sha256 P.altUri r true memory evs = writeOut (some m) := by
  rcases getFile_cases sha256 hfile hsent true memory with
    ⟨hnone, hrun⟩ | ⟨rest, -, hhonest, hrun⟩
  · exact Or.inl ⟨hnone, hrun.resolve_left hreturns⟩
  refine Or.inr ?_
  have hends := processEvents_receiving hhonest receiving_start
  cases ho : Client.processEvents sha256 rest
      ⟨r.segmentEntries P.altUri (P.segmentCount (P.fileName r.name)), [],
        some (freshMemory (P.segmentCount (P.fileName r.name)))⟩ with
  | error f =>
    rw [ho] at hends hrun
    obtain ⟨rfl, -⟩ := hends
    exact Or.inl hrun
  | ok o =>
    rw [ho] at hends hrun
    cases o with
    | none => exact absurd hrun hreturns
    | some c =>
      obtain ⟨m, hm, hgood⟩ := (hends c rfl).memory
      refine Or.inr ⟨m, hgood, ?_⟩
      rw [hrun, ← hm]
      rfl

theorem not_writesNothing_getFile :
    ¬ (getFile sha256 P.altUri r true memory evs).WritesNothing := by
  rcases getFile_opened hfile hsent memory hreturns with ⟨-, hrun⟩ | hrun | ⟨m, -, hrun⟩
  · rw [hrun]
    exact Result.not_writesNothing_writeOut memory
  · rw [hrun]
    exact fun h => h [] trivial
  · rw [hrun]
    exact Result.not_writesNothing_writeOut (some m)

end

/-- Even with all segments, a file is written as it is only if its size is a positive `int`: an
    empty file has no last segment, and of a longer one only a part is announced. -/
theorem size_of_faithful
    (harrived : arrived sha256 P.altUri r (P.segmentCount (P.fileName r.name)) evs = true)
    (hreturns : getFile sha256 P.altUri r true memory evs ≠ .waiting)
    (hfaithful : (getFile sha256 P.altUri r true memory evs).Faithful file) :
    0 < file.length ∧ file.length < 2 ^ 31 := by
  have hopened := getFile_opened hfile hsent memory hreturns
  rcases hopened with ⟨hnone, -⟩ | hrun | ⟨m, hgood, hrun⟩
  · rw [arrived, hnone] at harrived
    cases harrived
  · rw [hrun] at hfaithful
    exact absurd hfaithful (Result.not_faithful_undefined file)
  · rw [hrun] at hfaithful
    rcases writeOut_length hgood with hout | ⟨cells, hout, hcount, hle⟩
    · rw [hout] at hfaithful
      exact absurd hfaithful (Result.not_faithful_undefined file)
    · rw [hout] at hfaithful
      rw [Result.length_of_faithful hfaithful] at hle
      by_cases hsize : file.length < 2 ^ 31
      · refine ⟨?_, hsize⟩
        rw [Producer.segmentCount_eq_blockCount hfile hsize] at hcount
        by_contra hzero
        rw [show file.length = 0 by omega] at hcount
        exact absurd hcount (by decide)
      · exact absurd (Producer.segmentCount_mul_lt hfile (Nat.not_lt.1 hsize)) (by omega)

end

/-- **The consumer writes the file or nothing only if everything arrives**: exactly when the output
    file cannot be opened, or the reply and all segments arrive and the size of the file is a
    positive `int`. -/
theorem getFile_faithful_iff (P : Producer) (sha256 : List UInt8 → List UInt8) (r : Request)
    {file : List UInt8} (hfile : P.files (P.fileName r.name) = some file) (openable : Bool)
    (hopen : openable = true ∨ file.length < 2 ^ 31) (memory : Option Memory) {evs : List Event}
    (hsent : ∀ ev ∈ evs, ∀ wire, Packet.data wire ∈ ev.packets → P.Sends wire)
    (hreturns : getFile sha256 P.altUri r openable memory evs ≠ .waiting) :
    ((getFile sha256 P.altUri r openable memory evs).Faithful file ∧
      (arrived sha256 P.altUri r (P.segmentCount (P.fileName r.name)) evs = false →
        (getFile sha256 P.altUri r openable memory evs).WritesNothing)) ↔
    (openable = false ∨ (0 < file.length ∧ file.length < 2 ^ 31 ∧
      arrived sha256 P.altUri r (P.segmentCount (P.fileName r.name)) evs = true)) := by
  cases openable with
  | false =>
    refine ⟨fun _ => Or.inl rfl, fun h => ?_⟩
    have hsize : file.length < 2 ^ 31 := hopen.resolve_left Bool.false_ne_true
    rw [getFile_notOpened hfile hsize hsent memory hreturns]
    exact ⟨fun _ h => absurd h id, fun _ _ h => h⟩
  | true =>
    constructor
    · grind [not_writesNothing_getFile, size_of_faithful]
    rintro (hclosed | ⟨hpos, hsize, harrived⟩)
    · cases hclosed
    · rw [getFile_of_arrived hfile hpos hsize hsent harrived memory]
      refine ⟨Result.faithful_wrote file, fun h => ?_⟩
      rw [harrived] at h
      cases h

/-- When the only segment is lost the size of the last one is never set, and when the reply is lost
    not even the pointers are. -/
theorem getFile_undefined_when_lost :
    OneOctet.producer.Sends OneOctet.reply ∧
    getFile (fun _ => []) true OneOctet.request true none
      [receiveData [OneOctet.reply], .timeout (OneOctet.request.segmentName true 0)] = .undefined ∧
    getFile (fun _ => []) true OneOctet.request true none [.timeout OneOctet.request.name] =
      .undefined ∧
    ¬ Result.undefined.Faithful [7] ∧ ¬ Result.undefined.WritesNothing :=
  ⟨OneOctet.sends_reply, by decide, by decide, Result.not_faithful_undefined [7],
    fun h => h [] trivial⟩

theorem getFile_faithful_one_octet :
    (getFile (fun _ => []) true OneOctet.request true none
      [receiveData [OneOctet.reply], receiveData [OneOctet.segment]]).Faithful [7] := by
  have hsent : ∀ ev ∈ [receiveData [OneOctet.reply], receiveData [OneOctet.segment]], ∀ wire,
      data wire ∈ ev.packets → OneOctet.producer.Sends wire := by
    intro ev hev wire hwire
    rcases mem_cons.1 hev with rfl | hev
    · rw [data.inj (mem_singleton.1 hwire)]
      exact OneOctet.sends_reply
    · rw [mem_singleton.1 hev] at hwire
      rw [data.inj (mem_singleton.1 hwire)]
      exact OneOctet.sends_segment
  have harrived : arrived (fun _ => []) true OneOctet.request
      (OneOctet.producer.segmentCount (OneOctet.producer.fileName OneOctet.request.name))
      [receiveData [OneOctet.reply], receiveData [OneOctet.segment]] = true := by decide
  have hwrote := getFile_of_arrived OneOctet.files_eq (by decide) (by decide) hsent harrived none
  refine ((getFile_faithful_iff OneOctet.producer (fun _ => []) OneOctet.request OneOctet.files_eq
    true (Or.inl rfl) none hsent ?_).2 (Or.inr ⟨by decide, by decide, harrived⟩)).1
  rw [hwrote]
  exact fun h => nomatch h

/-! ## The buffer of the consumer -/

/-- The offset of a segment is an `int` and what there is to store ends below `2^31`; in the last
    segment, which must be there, it is not longer than a segment. -/
def fits (count k : Int) (content : List UInt8) : Bool :=
  isInt (k * maxSegmentSize) && (content.isEmpty || decide (0 ≤ k ∧
    (k = count - 1 → content.length ≤ maxSegmentSize) ∧
    k * maxSegmentSize + content.length ≤ 2 ^ 31))

section

variable {count k : Int} (hk : k < count ∧ (0 ≤ k ∨ k = count - 1))
include hk

theorem store_of_fits {buffer : List (Option UInt8)} {content : List UInt8}
    (hlength : buffer.length = (count * maxSegmentSize).toNat)
    (hcontent : content.length ≤ maxNdnPacketSize) :
    ∃ buffer', buffer'.length = buffer.length ∧ store buffer k content =
      if fits count k content then .ok buffer' else .error .undefinedBehavior := by
  cases hint : isInt (k * maxSegmentSize) with
  | false => exact ⟨buffer, rfl, by simp [fits, store, hint]⟩
  | true =>
    by_cases hempty : content = []
    · exact ⟨buffer, rfl, by simp [fits, store, hint, hempty]⟩
    refine ⟨writeAt buffer (k * maxSegmentSize).toNat (content.map some), length_writeAt _ _ _, ?_⟩
    have hinside : 0 ≤ k * maxSegmentSize ∧ k * maxSegmentSize + content.length ≤ buffer.length ∧
        k * maxSegmentSize + content.length ≤ 2 ^ 31 ↔
        0 ≤ k ∧ (k = count - 1 → content.length ≤ maxSegmentSize) ∧
          k * maxSegmentSize + content.length ≤ 2 ^ 31 := by
      simp only [maxSegmentSize, maxNdnPacketSize] at *
      omega
    simp only [fits, store, hint, Bool.true_eq_false, if_false, if_neg hempty, hinside,
      isEmpty_eq_false_iff.2 hempty, Bool.true_and, Bool.false_or, decide_eq_true_eq]

theorem invokeDataCallback_of_fits (altUri : Bool) (r : Request) {c : Client} {m : Memory}
    {d : Data} (hm : c.memory = some m)
    (hlength : m.buffer.length = (count * maxSegmentSize).toNat)
    (hcontent : (contentOf d).length ≤ maxNdnPacketSize) :
    ∃ c' m', c'.memory = some m' ∧ m'.buffer.length = (count * maxSegmentSize).toNat ∧
      c.invokeDataCallback d (r.segmentEntry altUri count k).callback =
        if fits count k (contentOf d) then .ok c' else .error .undefinedBehavior := by
  obtain ⟨buffer, hbuffer, hstore⟩ := store_of_fits hk hlength hcontent
  rw [← hlength, ← hbuffer]
  unfold Request.segmentEntry
  by_cases hlast : k = count - 1
  · refine ⟨{ c with
        memory := some { m with buffer, lastSize := some (toInt32 (contentOf d).length) } },
      _, rfl, rfl, ?_⟩
    rw [if_pos hlast, Client.invokeDataCallback, Client.onLastSegment, hm]
    simp only [hstore]
    split <;> rfl
  · refine ⟨{ c with memory := some { m with buffer } }, _, rfl, rfl, ?_⟩
    rw [if_neg hlast, Client.invokeDataCallback, Client.onSegment, hm]
    simp only [hstore]
    split <;> rfl

end

/-- Data arrive for segments that a reply announced. -/
def deliver (altUri : Bool) (r : Request) (count : Int) (deliveries : List (Int × Data))
    (c : Client) : Except Fault Client :=
  deliveries.foldlM (fun c x =>
    Client.invokeDataCallback c x.2 (r.segmentEntry altUri count x.1).callback) c

/-- **The buffer.**  After any reply, storing Data for the segments it announces stays inside the
    buffer exactly if each fits. -/
theorem onFile_stores_iff {altUri : Bool} {r : Request} {d : Data} {count : Int}
    (hd : State.segmentCount d = .ok count) (hcount : isInt (count - 1) = true) (c : Client)
    (deliveries : List (Int × Data))
    (hdeliveries : ∀ x ∈ deliveries, (x.1 < count ∧ (0 ≤ x.1 ∨ x.1 = count - 1)) ∧
      (contentOf x.2).length ≤ maxNdnPacketSize) :
    (∃ c', (c.onFile ((r.name.getSubName 1 1).toUri altUri) d).bind
        (deliver altUri r count deliveries) = .ok c') ↔
      ∀ x ∈ deliveries, fits count x.1 (contentOf x.2) = true := by
  have hrun : ∀ (c : Client) (m : Memory), c.memory = some m →
      m.buffer.length = (count * maxSegmentSize).toNat →
      ((∃ c', deliver altUri r count deliveries c = .ok c') ↔
        ∀ x ∈ deliveries, fits count x.1 (contentOf x.2) = true) := by
    induction deliveries with
    | nil => exact fun c _ _ _ => by simp [deliver, pure, Except.pure]
    | cons x xs ih =>
      intro c m hm hlength
      obtain ⟨⟨hk, hcontent⟩, hxs⟩ := forall_mem_cons.1 hdeliveries
      obtain ⟨c', m', hm', hlength', hstep⟩ :=
        invokeDataCallback_of_fits hk altUri r hm hlength hcontent
      rw [deliver, foldlM_cons, forall_mem_cons, hstep]
      cases fits count x.1 (contentOf x.2) with
      | false => simp [bind, Except.bind]
      | true =>
        rw [← ih hxs c' m' hm' hlength']
        simp [bind, Except.bind, deliver]
  rw [onFile_eq hd hcount]
  exact hrun _ (freshMemory count) rfl (by simp [freshMemory])

theorem onFile_stores_octet : ∃ d, (Block.fromBuffer OneOctet.reply).bind Data.wireDecode = .ok d ∧
    ∃ c', (Client.onFile ⟨[], [], none⟩ ((OneOctet.request.name.getSubName 1 1).toUri true) d).bind
      (deliver true OneOctet.request 1 [(0, d)]) = .ok c' :=
  ⟨_, rfl, (onFile_stores_iff rfl (by decide) _ _ (by decide)).2 (by decide)⟩

theorem onFile_stores_outside {altUri : Bool} {r : Request} {d : Data} {count k : Int} {x : Data}
    (hd : State.segmentCount d = .ok count) (hcount : isInt (count - 1) = true) (c : Client)
    (hk : k < count ∧ (0 ≤ k ∨ k = count - 1)) (hcontent : (contentOf x).length ≤ maxNdnPacketSize)
    (hfits : fits count k (contentOf x) = false) :
    (c.onFile ((r.name.getSubName 1 1).toUri altUri) d).bind (deliver altUri r count [(k, x)]) =
      .error .undefinedBehavior := by
  rw [onFile_eq hd hcount]
  obtain ⟨c', m', -, -, hstep⟩ := invokeDataCallback_of_fits hk altUri r
    (c := { c with posted := c.posted ++ r.segmentEntries altUri count,
                   memory := some (freshMemory count) })
    rfl (by simp [freshMemory]) hcontent
  rw [hfits] at hstep
  simp [Except.bind, deliver, hstep, bind]

/-- A Data with 8001 octets of content. -/
def longSegment : List UInt8 :=
  Data.wireEncode OneOctet.request.name TwoSegments.file OneOctet.signature

theorem length_longSegment_le : longSegment.length ≤ maxNdnPacketSize := by
  have hname : OneOctet.request.name.wireValue.length ≤ 20 := by decide
  have hroom : ∀ n ≤ 20, n + 8001 + 3 + 0 + 108 ≤ maxNdnPacketSize := by
    simp only [maxNdnPacketSize]
    omega
  refine (length_wireEncode_le _ _ _).trans ?_
  rw [TwoSegments.length_file]
  exact hroom _ hname

/-- The reply says 1 and the last segment has 8001 octets, in a packet below the size limit; or the
    reply says 0, and an octet comes for the segment before the first. -/
theorem store_outside :
    longSegment.length ≤ maxNdnPacketSize ∧
    (∃ reply d, (Block.fromBuffer OneOctet.reply).bind Data.wireDecode = .ok reply ∧
      (Block.fromBuffer longSegment).bind Data.wireDecode = .ok d ∧
      (Client.onFile ⟨[], [], none⟩ ((OneOctet.request.name.getSubName 1 1).toUri true) reply).bind
        (deliver true OneOctet.request 1 [(0, d)]) = .error .undefinedBehavior) ∧
    ∃ reply d, (Block.fromBuffer (Data.wireEncode OneOctet.request.name (ascii "0")
        OneOctet.signature)).bind Data.wireDecode = .ok reply ∧
      (Block.fromBuffer OneOctet.segment).bind Data.wireDecode = .ok d ∧
      (Client.onFile ⟨[], [], none⟩ ((OneOctet.request.name.getSubName 1 1).toUri true) reply).bind
        (deliver true OneOctet.request 0 [(-1, d)]) = .error .undefinedBehavior := by
  refine ⟨length_longSegment_le, ?_, _, _, rfl, rfl,
    onFile_stores_outside rfl (by decide) _ (by decide) (by decide) (by decide)⟩
  have hsize : longSegment.length < 2 ^ 64 := length_longSegment_le.trans_lt (by decide)
  obtain ⟨d, hdecode, -, -, hcontent⟩ := decode_wireEncode OneOctet.request.wellFormed hsize
  have hlength : (contentOf d).length = 8001 := by
    rw [contentOf, hcontent]
    exact TwoSegments.length_file
  have hne : (contentOf d).isEmpty = false := by
    rw [isEmpty_eq_false_iff, ← length_pos_iff]
    omega
  refine ⟨_, d, rfl, hdecode,
    onFile_stores_outside rfl (by decide) _ (by decide) (by rw [hlength]; decide) ?_⟩
  simp [fits, hne, hlength, maxSegmentSize]

end NdnMulticast.Transmission
