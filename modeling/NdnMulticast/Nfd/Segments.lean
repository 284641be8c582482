/-
  The segment entries that the forwarder creates for a Data under `/File`.

  The name of a segment parses or raises whatever its number is
  (`segmentName_eq_ok_iff`), so the loop over the segments either creates all of
  them or raises before it has created any.
-/

import NdnMulticast.Ndn.SegmentName
import NdnMulticast.Nfd.Forwarder

namespace NdnMulticast.Nfd.State

open Lib Ndn List Pit Component Strategy

/-! ## Names of segments -/

/-- The file named by a Data: its second component. -/
def fileComponent (d : Data) : Option Component := d.name[1]?

variable (env : Env) (nonces : Nat → List UInt8)

/-- The name of a segment parses exactly when the Data name has a valid second component. -/
theorem segmentName_eq_ok_iff (d : Data) (segment : Nat) (n : Name) :
    segmentName env d segment = .ok n ↔
      ∃ f, fileComponent d = some f ∧ isValid f.type f.value = true ∧
        n = segmentPath (reparsed env.altUri f) segment :=
  fromUri_segmentUri_subName env.altUri d.name segment n

/-! ## The loop over the segments -/

/-- The Data name has a second component from which segment names can be made. -/
def hasSegmentNames (d : Data) : Bool :=
  (fileComponent d).any fun f => Component.isValid f.type f.value

variable {d : Data} {s : State} {id : EntryId} {e : Entry} {i : Interest}
  {sha256 : List UInt8 → List UInt8}

theorem hasSegmentNames_iff : hasSegmentNames d = true ↔
    ∃ f, fileComponent d = some f ∧ isValid f.type f.value = true := by
  unfold hasSegmentNames
  cases fileComponent d with
  | none => simp
  | some f => simp

theorem segmentName_cases (d : Data) (segment : Nat) :
    (∃ name, segmentName env d segment = .ok name ∧ hasSegmentNames d = true) ∨
      (∃ exc, segmentName env d segment = .error exc ∧ hasSegmentNames d = false) := by
  cases hname : segmentName env d segment with
  | ok name => grind [segmentName_eq_ok_iff, hasSegmentNames_iff]
  | error exc =>
    refine Or.inr ⟨exc, rfl, ?_⟩
    rw [Bool.eq_false_iff]
    intro hhas
    obtain ⟨f, hf, hvalid⟩ := hasSegmentNames_iff.1 hhas
    have hok := (segmentName_eq_ok_iff env d segment _).2 ⟨f, hf, hvalid, rfl⟩
    rw [hname] at hok
    cases hok

theorem createSegmentEntries_fault_eq_none_iff (d : Data) (nonces : Nat → List UInt8)
    (faces : List FacePtr) (segments : List Nat) (s : State) :
    (createSegmentEntries env d nonces faces segments s).fault = none ↔
      segments = [] ∨ hasSegmentNames d = true := by
  induction segments generalizing s with
  | nil => simp [createSegmentEntries]
  | cons segment segments ih =>
    rcases segmentName_cases env d segment with ⟨name, hname, hhas⟩ | ⟨exc, hname, hhas⟩
    · simp only [createSegmentEntries, hname, ih, hhas, or_true]
    · simp [createSegmentEntries, hname, hhas]

/-- The Data is not under `/File`, or its segment count is read and its segments can be named. -/
def preparesSegments (d : Data) : Bool :=
  !filePrefix.isPrefixOf d.name ||
    match segmentCount d with
    | .ok count => decide (count ≤ 0) || hasSegmentNames d
    | .error _ => false

theorem preparesSegments_iff (hfile : filePrefix.isPrefixOf d.name = true) :
    preparesSegments d = true ↔
      ∃ count, segmentCount d = .ok count ∧ (count ≤ 0 ∨ hasSegmentNames d = true) := by
  unfold preparesSegments
  cases segmentCount d with
  | error fault => simp [hfile]
  | ok count => simp [hfile]

theorem prepareSegments_fault_eq_none_iff (s : State) (d : Data) (nonces : Nat → List UInt8)
    (id : EntryId) :
    (s.prepareSegments env d nonces id).fault = none ↔ preparesSegments d = true := by
  unfold prepareSegments
  cases hfile : filePrefix.isPrefixOf d.name with
  | false => simp [preparesSegments, hfile]
  | true =>
    rw [preparesSegments_iff hfile]
    cases hcount : segmentCount d with
    | error fault => simp
    | ok count =>
      have hrange : List.range count.toNat = [] ↔ count ≤ 0 := by
        rw [range_eq_nil]
        omega
      simp [createSegmentEntries_fault_eq_none_iff, hrange]

theorem createSegmentEntries_frame (d : Data) (nonces : Nat → List UInt8) (faces : List FacePtr)
    (segments : List Nat) (s : State) :
    ∃ pit, (createSegmentEntries env d nonces faces segments s).state = { s with pit } := by
  induction segments generalizing s with
  | nil => exact ⟨s.pit, rfl⟩
  | cons segment segments ih =>
    unfold createSegmentEntries
    split
    · exact ⟨s.pit, rfl⟩
    · obtain ⟨pit, hpit⟩ := ih (s.createSegmentEntry faces (segmentInterest _ (nonces segment)))
      exact ⟨pit, hpit⟩

theorem prepareSegments_frame (s : State) (d : Data) (nonces : Nat → List UInt8) (id : EntryId) :
    ∃ pit, (s.prepareSegments env d nonces id).state = { s with pit } := by
  unfold prepareSegments
  split
  · split
    · exact ⟨s.pit, rfl⟩
    · exact createSegmentEntries_frame env d nonces _ _ s
  · exact ⟨s.pit, rfl⟩

/-! ## The matched entry is not a segment entry -/

theorem createSegmentEntry_get (he : s.pit.get id = some e) (faces : List FacePtr)
    (hother : e.attachedAt i.name (nteDepth i.name) = false) :
    (s.createSegmentEntry faces i).pit.get id = some e := by
  have hfold : ∀ (k : EntryId) (pit : Pit), id ≠ k → pit.get id = some e →
      (faces.foldl (fun (pit : Pit) face =>
        pit.insertOrUpdateInRecord k face i (getNonce i) s.now) pit).get id = some e := by
    intro k pit hk hget
    induction faces generalizing pit with
    | nil => exact hget
    | cons face faces ih =>
      refine ih _ ?_
      simp [get_insertOrUpdateInRecord, hk, hget]
  unfold createSegmentEntry
  rcases s.pit.insert_cases i with ⟨k, e', hfind, -, hins⟩ | ⟨-, hins⟩
  · rw [hins]
    refine hfold k s.pit ?_ he
    rintro rfl
    -- the entry found is attached to the node of the name, `e` is not
    obtain ⟨e'', he'', hattached, -⟩ := find_eq_some hfind
    rw [he] at he''
    obtain rfl := Option.some.inj he''
    rw [hother] at hattached
    cases hattached
  · rw [hins]
    have hne : id ≠ s.pit.nextId := by
      rintro rfl
      exact s.pit.nextId_notMem (mem_map_of_mem (get_eq_some_iff.1 he))
    refine hfold s.pit.nextId _ hne ?_
    rw [get_insertNew, if_neg hne]
    exact he

/-- The name is empty or starts with `File`. -/
def startsWithFile : Name → Bool
  | [] => true
  | c :: _ => c.equals (Component.ofString "File")

theorem startsWithFile_of_matchesData (hfile : filePrefix.isPrefixOf d.name = true)
    (hmatch : i.matchesData sha256 d = true) : startsWithFile i.name = true := by
  have hequals : ∀ {a b c : Component}, a.equals b = true → c.equals b = true →
      a.equals c = true := by
    intro a b c hab hcb
    simp only [equals, Bool.and_eq_true, beq_iff_eq] at hab hcb ⊢
    exact ⟨hab.1.trans hcb.1.symm, hab.2.trans hcb.2.symm⟩
  cases hname : i.name with
  | nil => rfl
  | cons c cs =>
    cases hdata : d.name with
    | nil =>
      rw [hdata] at hfile
      cases hfile
    | cons c' cs' =>
      have hfirst : (ofString "File").equals c' = true := by
        rw [hdata] at hfile
        simpa [filePrefix, Name.isPrefixOf] using hfile
      refine hequals (b := c') ?_ hfirst
      -- in each of the three ways to match, the first components are compared
      rw [Interest.matchesData, Bool.and_eq_true, hname, hdata] at hmatch
      have hm := hmatch.1
      split at hm
      · simp_all [Name.equals, Data.getFullName]
      · split at hm
        · rw [Name.isPrefixOf, Bool.and_eq_true] at hm
          exact hm.1
        · rw [Name.equals, Bool.and_eq_true] at hm
          exact hm.1

theorem not_attachedAt_segmentPath (hwf : e.name.WellFormed) (hfile : startsWithFile e.name = true)
    (f : Component) (segment : Nat) :
    e.attachedAt (segmentPath f segment) (nteDepth (segmentPath f segment)) = false := by
  change e.attachedAt _ 3 = false
  rw [Entry.attachedAt, Bool.and_eq_false_iff]
  refine Or.inr ?_
  cases hname : e.name with
  | nil => rfl
  | cons c cs =>
    rw [beq_eq_false_iff_ne]
    intro hcompare
    rw [take_succ_cons, segmentPath, take_succ_cons, Name.compare, Ordering.then_eq_eq] at hcompare
    -- equal encodings mean equal values, but `c` is `File`
    have hseg := equals_of_compare_eq (hwf c (by simp [hname])) segmentPrefix_wellFormed hcompare.1
    rw [hname, startsWithFile] at hfile
    simp only [equals, Bool.and_eq_true, beq_iff_eq] at hseg hfile
    have hvalues : ascii "File" = ascii "Segment" := hfile.2.symm.trans hseg.2
    exact absurd hvalues (by decide)

theorem createSegmentEntries_get (d : Data) (nonces : Nat → List UInt8) (faces : List FacePtr)
    (segments : List Nat) (he : s.pit.get id = some e) (hwf : e.name.WellFormed)
    (hfile : startsWithFile e.name = true) :
    (createSegmentEntries env d nonces faces segments s).state.pit.get id = some e := by
  induction segments generalizing s with
  | nil => exact he
  | cons segment segments ih =>
    unfold createSegmentEntries
    split
    · exact he
    · rename_i name hname
      obtain ⟨f, -, -, rfl⟩ := (segmentName_eq_ok_iff env d segment name).1 hname
      exact ih (createSegmentEntry_get he faces (not_attachedAt_segmentPath hwf hfile _ _))

/-- Creating the segment entries leaves a matched entry as it was. -/
theorem prepareSegments_get (id : EntryId) {j : EntryId} (he : s.pit.get j = some e)
    (hwf : e.name.WellFormed) (hmatch : e.interest.matchesData env.sha256 d = true) :
    (s.prepareSegments env d nonces id).state.pit.get j = some e := by
  unfold prepareSegments
  split
  · rename_i hfile
    split
    · exact he
    · exact createSegmentEntries_get env d nonces _ _ he hwf
        (startsWithFile_of_matchesData hfile hmatch)
  · exact he

/-! ## The pending downstreams of a matched entry -/

theorem mem_findAllDataMatches {p : Pit} (h : id ∈ p.findAllDataMatches sha256 d) :
    ∃ e, p.get id = some e ∧ e.interest.matchesData sha256 d = true := by
  obtain ⟨x, hx, rfl⟩ := mem_map.1 h
  obtain ⟨hmem, hpred⟩ := mem_filter.1 hx
  exact ⟨x.2, get_eq_some_iff.2 hmem, (Bool.and_eq_true_iff.1 hpred).2⟩

/-- Who waits for a Data is the same after creating its segment entries and resetting the timer. -/
theorem pendingDownstreams_prepared (he : s.pit.get id = some e) (hwf : e.name.WellFormed)
    (hmatch : e.interest.matchesData env.sha256 d = true) (inFace : FacePtr) :
    pendingDownstreams env ((s.prepareSegments env d nonces id).state.setExpiryTimer id 0)
      id inFace = pendingDownstreams env s id inFace := by
  have hget := prepareSegments_get env nonces id he hwf hmatch
  obtain ⟨pit, hframe⟩ := s.prepareSegments_frame env d nonces id
  rw [hframe] at hget ⊢
  simp only [pendingDownstreams, setExpiryTimer, modifyEntry_pit, get_modify_self,
    hget, he, Option.map_some]
  rfl

end NdnMulticast.Nfd.State
