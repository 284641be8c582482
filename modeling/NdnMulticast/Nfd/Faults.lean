/-
  When the incoming pipelines end early.

  `onIncomingInterest` has inserted the PIT entry by then.  The number of segments that
  `onIncomingData` needs is read by `std::stoi` from the content and whatever follows it in
  the packet.
-/

import NdnMulticast.Nfd.PitChanges

namespace NdnMulticast.Nfd.State

open Lib Ndn List Strategy Router

/-! ## Interests -/

variable (env : Env) (s : State) (ingress : FacePtr) (d : Data)

/-- The Interest is not dropped, its nonce is no duplicate, and no other downstream is waiting. -/
def reachesLookup (i : Interest) (freshNonce : List UInt8) : Bool :=
  !isDropped env s ingress i freshNonce &&
    match (s.pit.find i).bind s.pit.get with
    | none => true
    | some e => !hasDuplicateNonceInPit env e (i.nonce.getD freshNonce) ingress && !e.hasInRecords

theorem processInterest_fault_eq_none_iff (i : Interest) (actions : List Action) :
    (s.processInterest env ingress i actions).fault = none ↔
      (∃ e ∈ (s.pit.find i).bind s.pit.get,
        hasDuplicateNonceInPit env e (getNonce i) ingress = true ∨ e.hasInRecords = true) ∨
      s.cs.isServing = false ∨ Cs.hasRange env.sha256 s.cs.table i.name = true := by
  rcases s.processInterest_cases env ingress i actions with
    ⟨id, e, hfind, he, hprocess⟩ | ⟨hfind, hprocess⟩
  · grind [lookupContentStore_fault_eq_none_iff]
  · simp_all [lookupContentStore_fault_eq_none_iff]

/-- **An Interest is processed to its end** exactly when it does not get as far as a lookup, or the
    store is not serving, or the range of its name can be walked. -/
theorem onIncomingInterest_completes_iff (env : Env) (s : State) (ingress : FacePtr)
    (i : Interest) (freshNonce : List UInt8) (actions : List Strategy.Action) :
    (s.onIncomingInterest env ingress i freshNonce actions).fault = none ↔
      reachesLookup env s ingress i freshNonce = false ∨ s.cs.isServing = false ∨
        Cs.hasRange env.sha256 s.cs.table i.name = true := by
  rcases s.onIncomingInterest_cases env ingress i freshNonce actions with
    ⟨hdropped, hfault, -⟩ | ⟨hdropped, heq⟩
  · simp [hfault, reachesLookup, hdropped]
  -- name, selectors and nonce of the accepted Interest are those received
  have hfind : s.pit.find (acceptedInterest env i freshNonce) = s.pit.find i := rfl
  have hnonce : getNonce (acceptedInterest env i freshNonce) = i.nonce.getD freshNonce := rfl
  have hname : (acceptedInterest env i freshNonce).name = i.name := rfl
  rw [heq, processInterest_fault_eq_none_iff]
  simp only [count_pit, count_cs, hfind, hnonce, hname, reachesLookup, hdropped]
  cases (s.pit.find i).bind s.pit.get with
  | none => simp
  | some e => grind

/-- A name of one ImplicitSha256DigestComponent of three octets decodes; the lookup raises, and the
    entry it was given stays. -/
theorem onIncomingInterest_raises_on_short_digest :
    ∃ i, (Block.fromBuffer [5, 13, 7, 5, 1, 3, 97, 98, 99, 10, 4, 1, 2, 3, 4]).bind
        (Interest.wireDecode false Router.env.sha256) = .ok i ∧
      (Router.start.onIncomingInterest Router.env 5 i [] []).fault
        = some (.raised (.tlvError "ImplicitSha256DigestComponent TLV-LENGTH must be 32")) ∧
      Router.start.pit.entries.length = 0 ∧
      (Router.start.onIncomingInterest Router.env 5 i [] []).state.pit.entries.length = 1 :=
  ⟨_, rfl, by decide, by decide, by decide⟩

/-! ## Data -/

theorem onSingleMatch_fault_eq_none_iff (nonces : Nat → List UInt8) (rate : FacePtr → Int)
    {s : State} {d : Data} {id : EntryId} {e : Entry} (he : s.pit.get id = some e)
    (hwf : e.name.WellFormed) (hmatch : e.interest.matchesData env.sha256 d = true) :
    (s.onSingleMatch env ingress d nonces rate id).fault = none ↔
      preparesSegments d = true ∧
        canSendToAll env s.faceTable (pendingDownstreams env s id ingress) = true := by
  have hpending := pendingDownstreams_prepared env nonces he hwf hmatch ingress
  have hsend := sendDataToAll_fault_eq_none_iff env rate
    ((s.prepareSegments env d nonces id).state.setExpiryTimer id 0) id ingress d
  obtain ⟨pit, hframe⟩ := s.prepareSegments_frame env d nonces id
  have htable : ((s.prepareSegments env d nonces id).state.setExpiryTimer id 0).faceTable
      = s.faceTable := by
    rw [hframe]
    rfl
  rw [hpending, htable] at hsend
  rw [← hsend, ← prepareSegments_fault_eq_none_iff env s d nonces id]
  unfold onSingleMatch
  dsimp only
  cases hprep : (s.prepareSegments env d nonces id).fault with
  | some fault => simp [hprep]
  | none =>
    simp only [Option.isSome_none, Bool.false_eq_true, if_false, true_and]
    split
    · rfl
    · rename_i hnone
      simpa using hnone

/-- What the content of a Data by itself says the number of segments is. -/
def ownCount : Except Fault Int :=
  segmentCount { d with content := d.content.map fun content => { content with after := [] } }

/-- The segment count is read, from the content alone: the content starts with an `int`, whose
    numeral ends in the content or is followed by no digit (or all digits are zeros), and segment
    names can be made if there are segments. -/
def CountsSegments : Prop :=
  ∃ content n, d.content = some content ∧ stoi content.value = .ok n ∧
    (endsInNumeral content.value = false ∨ content.after.takeWhile isDigit = [] ∨
      n = 0 ∧ digitsValue (content.after.takeWhile isDigit) = 0) ∧
    (n ≤ 0 ∨ hasSegmentNames d = true)

theorem segmentCount_eq_ok_iff {d : Data} {n : Int} :
    segmentCount d = .ok n ↔
      ∃ content, d.content = some content ∧ stoi (content.value ++ content.after) = .ok n := by
  unfold segmentCount
  cases d.content with
  | none => simp
  | some content => grind

theorem ownCount_eq_ok_iff {d : Data} {n : Int} :
    ownCount d = .ok n ↔ ∃ content, d.content = some content ∧ stoi content.value = .ok n := by
  rw [ownCount, segmentCount_eq_ok_iff]
  cases d.content with
  | none => simp
  | some content => simp

theorem countsSegments_iff {d : Data} :
    ((∃ count, segmentCount d = .ok count ∧ (count ≤ 0 ∨ hasSegmentNames d = true)) ∧
      segmentCount d = ownCount d) ↔ CountsSegments d := by
  constructor
  · rintro ⟨⟨n, hcount, hnames⟩, hown⟩
    obtain ⟨content, hcontent, happ⟩ := segmentCount_eq_ok_iff.1 hcount
    obtain ⟨content', hcontent', halone⟩ := ownCount_eq_ok_iff.1 (hown.symm.trans hcount)
    obtain rfl := Option.mem_unique hcontent hcontent'
    exact ⟨content, n, hcontent, halone, (stoi_append_eq_iff _ halone).1 happ, hnames⟩
  · rintro ⟨content, n, hcontent, halone, hdigits, hnames⟩
    have happ := (stoi_append_eq_iff content.after halone).2 hdigits
    have hcount := segmentCount_eq_ok_iff.2 ⟨content, hcontent, happ⟩
    have hown := ownCount_eq_ok_iff.2 ⟨content, hcontent, halone⟩
    exact ⟨⟨n, hcount, hnames⟩, hcount.trans hown.symm⟩

/-- The Data is processed for one entry, and its name makes it the announcement of a file. -/
def announcesFile : Prop :=
  isViolatingLocalhost env ingress d.name = false ∧
    (s.pit.findAllDataMatches env.sha256 d).length = 1 ∧ filePrefix.isPrefixOf d.name = true

end NdnMulticast.Nfd.State
