/-
  The segment entries a consumer relies on.

  A consumer that receives the reply to `/File/<f>` does not send Interests for the segments.
  A reply is transmitted after a single match, after several matches, and from the Content
  Store; only the first creates entries.
-/

import NdnMulticast.Nfd.Faults
import NdnMulticast.Nfd.InRecords

namespace NdnMulticast.Nfd

open Lib Ndn List Option Bool Name Entry Component

namespace Pit

/-! ## Waiting for a name -/

/-- There is an entry for exactly this name with an in-record for the face. -/
def Awaits (p : Pit) (n : Name) (face : FacePtr) : Prop :=
  ∃ x ∈ p.entries, x.2.name.equals n = true ∧ x.2.interest.canBePrefix = false ∧ face ∈ x.2.inFaces

instance (p : Pit) (n : Name) (face : FacePtr) : Decidable (p.Awaits n face) :=
  inferInstanceAs (Decidable (∃ x ∈ p.entries, _))

variable {p q : Pit} {n : Name} {face : FacePtr}

theorem awaits_iff_get : p.Awaits n face ↔ ∃ j e, p.get j = some e ∧ e.name.equals n = true ∧
    e.interest.canBePrefix = false ∧ face ∈ e.inFaces := by
  constructor
  · rintro ⟨x, hx, h⟩
    exact ⟨x.1, x.2, get_eq_some_iff.2 hx, h⟩
  · rintro ⟨j, e, he, h⟩
    exact ⟨(j, e), get_eq_some_iff.1 he, h⟩

/-- The entry, if it is there, has another name. -/
def NamedOther (p : Pit) (j : EntryId) (n : Name) : Prop :=
  ∀ e, p.get j = some e → e.name.equals n = false

theorem awaits_congr (h : ∀ j, q.get j = p.get j ∨ p.NamedOther j n ∧ q.NamedOther j n) :
    q.Awaits n face ↔ p.Awaits n face := by
  have himp : ∀ {a b : Pit}, (∀ j, b.get j = a.get j ∨ a.NamedOther j n) → a.Awaits n face →
      b.Awaits n face := by
    intro a b hab ha
    obtain ⟨j, e, he, hname, hrest⟩ := awaits_iff_get.1 ha
    rcases hab j with hsame | hother
    · exact awaits_iff_get.2 ⟨j, e, hsame.trans he, hname, hrest⟩
    · rw [hother e he] at hname
      cases hname
  constructor
  · exact himp fun j => (h j).imp Eq.symm And.right
  · exact himp fun j => (h j).imp id And.left

theorem NamedOther.changes {j : EntryId} (h : p.NamedOther j n) (hchanges : Changes noEntry p q) :
    q.NamedOther j n := by
  have hall : q.All fun k e => k = j → e.name.equals n = false := by
    refine hchanges.invariant (fun a b ha hchange => ?_) ?_
    · refine All.change (fun k e e' hi _ he hk => ?_) (fun _ _ hi => hi.elim) ha hchange
      rw [name, hi]
      exact he hk
    · rintro x hx rfl
      exact h x.2 (get_eq_some_iff.2 hx)
  exact fun e he => hall.get he rfl

theorem get_nextId (p : Pit) : p.get p.nextId = none := by
  cases hget : p.get p.nextId with
  | none => rfl
  | some e => exact absurd (mem_map_of_mem (get_eq_some_iff.1 hget)) p.nextId_notMem

theorem awaits_insertNew (i : Interest) : (p.insertNew i).Awaits n face ↔ p.Awaits n face := by
  simp only [awaits_iff_get, get_insertNew]
  constructor
  · rintro ⟨j, e, he, hname, hexact, hface⟩
    split at he
    · obtain rfl := some.inj he
      cases hface
    · exact ⟨j, e, he, hname, hexact, hface⟩
  · grind [get_nextId]

theorem insert_spec (hp : p.WellFormed) {i : Interest} (hi : i.name.WellFormed) :
    ∃ e, (p.insert i).2.get (p.insert i).1 = some e ∧ e.name.equals i.name = true ∧
      e.interest.canBePrefix = i.canBePrefix := by
  rcases p.insert_cases i with ⟨id, e, hfind, -, hins⟩ | ⟨-, hins⟩
  · obtain ⟨e, he, hattached, hmatch⟩ := find_eq_some hfind
    refine ⟨e, by rw [hins]; exact he, ?_, ?_⟩
    · -- the name tree compares the first components, `canMatch` the others
      rw [attachedAt, and_eq_true, beq_iff_eq, beq_iff_eq] at hattached
      rw [canMatch, and_eq_true, and_eq_true, beq_iff_eq] at hmatch
      apply equals_of_take_of_drop (nteDepth i.name)
      · exact equals_of_compare_eq (fun c hc => hp.get he c (mem_of_mem_take hc))
          (fun c hc => hi c (mem_of_mem_take hc)) hattached.2
      · exact equals_of_compare_eq (fun c hc => hp.get he c (mem_of_mem_drop hc))
          (fun c hc => hi c (mem_of_mem_drop hc)) hmatch.1.1
    · simp_all [canMatch]
  · refine ⟨ofInterest i, by rw [hins]; simp [get_insertNew], ?_, rfl⟩
    rw [equals_iff]
    rfl

theorem awaits_insert (i : Interest) : (p.insert i).2.Awaits n face ↔ p.Awaits n face := by
  rcases p.insert_cases i with ⟨id, e, -, -, hins⟩ | ⟨-, hins⟩
  · rw [hins]
  · rw [hins]
    exact awaits_insertNew i

theorem mem_inFaces_insertOrUpdateInRecord (e : Entry) (g : FacePtr) (i : Interest)
    (nonce : List UInt8) (now : Int) (serial : Nat) :
    face ∈ (e.insertOrUpdateInRecord g i nonce now serial).inFaces ↔
      face ∈ e.inFaces ∨ face = g := by
  unfold Entry.insertOrUpdateInRecord
  split
  · rename_i hg
    have hfaces : ∀ r : InRecord,
        (if r.face = g then r.update i nonce now else r).face = r.face := by
      intro r
      split
      · rfl
      · rfl
    simp only [inFaces, List.map_map, Function.comp_def, hfaces]
    constructor
    · exact Or.inl
    · rintro (h | rfl)
      · exact h
      · exact hg
  · simp only [inFaces, List.map_cons, List.mem_cons]
    exact or_comm

theorem awaits_insertOrUpdateInRecord {id : EntryId} {e : Entry} (he : p.get id = some e)
    (g : FacePtr) (i : Interest) (nonce : List UInt8) (now : Int) :
    (p.insertOrUpdateInRecord id g i nonce now).Awaits n face ↔
      p.Awaits n face ∨ (e.name.equals n = true ∧ e.interest.canBePrefix = false ∧ face = g) := by
  simp only [awaits_iff_get, get_insertOrUpdateInRecord, map_eq_some_iff]
  constructor
  · grind [name, mem_inFaces_insertOrUpdateInRecord, insertOrUpdateInRecord_interest]
  · rintro (⟨j, e₀, he₀, hname, hexact, hface⟩ | ⟨hname, hexact, rfl⟩) <;>
      grind [name, insertOrUpdateInRecord_interest, mem_inFaces_insertOrUpdateInRecord]

theorem awaits_foldl_insertOrUpdateInRecord (faces : List FacePtr) (i : Interest)
    (nonce : List UInt8) (now : Int) {id : EntryId} {e : Entry} (he : p.get id = some e)
    (hexact : e.interest.canBePrefix = false) :
    (faces.foldl (fun (p : Pit) g => p.insertOrUpdateInRecord id g i nonce now) p).Awaits n face ↔
      p.Awaits n face ∨ (e.name.equals n = true ∧ face ∈ faces) := by
  induction faces generalizing p e with
  | nil => simp
  | cons g faces ih =>
    have hget : (p.insertOrUpdateInRecord id g i nonce now).get id
        = some (e.insertOrUpdateInRecord g i nonce now p.nextSerial) := by
      simp [get_insertOrUpdateInRecord, he]
    have hsame := insertOrUpdateInRecord_interest e g i nonce now p.nextSerial
    have hname : (e.insertOrUpdateInRecord g i nonce now p.nextSerial).name = e.name :=
      congrArg Interest.name hsame
    rw [foldl_cons, ih hget (by rw [hsame, hexact]), awaits_insertOrUpdateInRecord he, hname,
      mem_cons]
    constructor
    · grind
    · grind

end Pit

namespace State

/-! ## What the loop over the segments adds -/

section

variable {env : Env} {s : State} {d : Data} {n : Name} {face : FacePtr}

theorem awaits_createSegmentEntry (hs : s.pit.WellFormed) (faces : List FacePtr) {i : Interest}
    (hi : i.name.WellFormed) (hexact : i.canBePrefix = false) :
    (s.createSegmentEntry faces i).pit.Awaits n face ↔
      s.pit.Awaits n face ∨ (i.name.equals n = true ∧ face ∈ faces) := by
  obtain ⟨e, he, hname, hsame⟩ := Pit.insert_spec hs hi
  refine (Pit.awaits_foldl_insertOrUpdateInRecord faces i (getNonce i) s.now he
    (hsame.trans hexact)).trans ?_
  rw [Pit.awaits_insert]
  simp only [equals_iff] at hname ⊢
  rw [hname]

theorem awaits_createSegmentEntries {f : Component} (hfile : fileComponent d = some f)
    (hvalid : isValid f.type f.value = true) (hf : f.WellFormed)
    (nonces : Nat → List UInt8) (faces : List FacePtr) {segments : List Nat}
    (hsegments : ∀ k ∈ segments, k < 2 ^ 31) (hs : s.pit.WellFormed) :
    (createSegmentEntries env d nonces faces segments s).state.pit.Awaits n face ↔
      s.pit.Awaits n face ∨
        (face ∈ faces ∧
          ∃ k ∈ segments, (segmentPath (reparsed env.altUri f) k).equals n = true) := by
  induction segments generalizing s with
  | nil => simp [createSegmentEntries]
  | cons k segments ih =>
    have hname := (segmentName_eq_ok_iff env d k _).2 ⟨f, hfile, hvalid, rfl⟩
    have hpath : (segmentPath (reparsed env.altUri f) k).WellFormed :=
      segmentPath_wellFormed hf hvalid env.altUri (hsegments k (by simp))
    have hcreate := changes_createSegmentEntry (N := fun i => i.name.WellFormed) env s faces
      (segmentInterest (segmentPath (reparsed env.altUri f) k) (nonces k)) hpath
    rw [createSegmentEntries, hname]
    rw [ih (fun j hj => hsegments j (.tail _ hj)) (hs.changes hcreate),
      awaits_createSegmentEntry hs faces
        (i := segmentInterest (segmentPath (reparsed env.altUri f) k) (nonces k)) hpath rfl]
    constructor
    · rintro ((h | ⟨heq, hface⟩) | ⟨hface, j, hj, heq⟩)
      · exact Or.inl h
      · exact Or.inr ⟨hface, k, by simp, heq⟩
      · exact Or.inr ⟨hface, j, .tail _ hj, heq⟩
    · rintro (h | ⟨hface, j, hj, heq⟩)
      · exact Or.inl (Or.inl h)
      · rcases mem_cons.1 hj with rfl | hj
        · exact Or.inl (Or.inr ⟨heq, hface⟩)
        · exact Or.inr ⟨hface, j, hj, heq⟩

end

/-! ## Replies to a request for a file -/

/-- What a Data `/File/<f>` announces, if its content is a number as `std::to_string` prints it. -/
def fileReply (d : Data) : Option (Component × Nat) :=
  match d.name, d.content with
  | [c, f], some content =>
    if c.equals (Component.ofString "File") &&
        content.value == decimal (digitsValue content.value) then
      some (f, digitsValue content.value)
    else none
  | _, _ => none

theorem fileReply_eq_some_iff {d : Data} {f : Component} {n : Nat} :
    fileReply d = some (f, n) ↔
      (∃ c, d.name = [c, f] ∧ c.equals (ofString "File") = true) ∧
        ∃ content, d.content = some content ∧ content.value = decimal n := by
  unfold fileReply
  constructor
  · intro h
    split at h
    · rename_i c f' content hname hcontent
      obtain ⟨hcond, h⟩ := ite_none_right_eq_some.1 h
      rw [and_eq_true, beq_iff_eq] at hcond
      obtain ⟨rfl, rfl⟩ := Prod.mk.inj (some.inj h)
      exact ⟨⟨c, hname, hcond.1⟩, content, hcontent, hcond.2⟩
    · cases h
  · rintro ⟨⟨c, hname, hc⟩, content, hcontent, hvalue⟩
    simp [hname, hcontent, hc, hvalue, digitsValue_decimal]

/-- Every segment of a file is awaited from the face. -/
def SegmentsAwaited (p : Pit) (f : Component) (n : Nat) (face : FacePtr) : Prop :=
  ∀ i < n, p.Awaits (segmentPath f i) face

instance (p : Pit) (f : Component) (n : Nat) (face : FacePtr) :
    Decidable (SegmentsAwaited p f n face) :=
  inferInstanceAs (Decidable (∀ i < n, p.Awaits (segmentPath f i) face))

section

variable {env : Env} {s : State} {d : Data} {f : Component} {n : Nat} {face : FacePtr}

theorem isPrefixOf_of_fileReply (h : fileReply d = some (f, n)) :
    filePrefix.isPrefixOf d.name = true := by
  obtain ⟨⟨c, hname, hc⟩, -⟩ := fileReply_eq_some_iff.1 h
  simp only [Component.equals, and_eq_true, beq_iff_eq] at hc
  simp [hname, filePrefix, Name.isPrefixOf, Component.equals, hc]

theorem not_equals_segmentPath {m : Name} (hfile : startsWithFile m = true) (f : Component)
    (segment : Nat) : m.equals (segmentPath f segment) = false := by
  cases m with
  | nil => rfl
  | cons c cs =>
    simp only [startsWithFile, Component.equals, and_eq_true, beq_iff_eq] at hfile
    have hvalues : c.value ≠ segmentPrefix.value := by
      rw [hfile.2]
      decide
    simp [segmentPath, Name.equals, Component.equals, hvalues]

theorem segmentPath_reparsed_equals {altUri : Bool} {k i : Nat} :
    (segmentPath (reparsed altUri f) k).equals (segmentPath f i) = true ↔
      f.uriValue altUri = f.value ∧ decimal k = decimal i := by
  simp [equals_iff, segmentPath, reparsed, segmentNumber]

/-- The in-records of the matched entry are added to the entries of all segments, unless the file
    name reads back from its URI as another one. -/
theorem awaits_prepareSegments (hs : s.pit.WellFormed) (hd : d.name.WellFormed)
    (hreply : fileReply d = some (f, n)) (hprep : preparesSegments d = true)
    (nonces : Nat → List UInt8) {id : EntryId} {e : Entry} (he : s.pit.get id = some e) {i : Nat}
    (hi : i < n) :
    (s.prepareSegments env d nonces id).state.pit.Awaits (segmentPath f i) face ↔
      s.pit.Awaits (segmentPath f i) face ∨
        (f.uriValue env.altUri = f.value ∧ face ∈ e.inFaces) := by
  have hfile := isPrefixOf_of_fileReply hreply
  obtain ⟨⟨c, hname, -⟩, content, hcontent, hvalue⟩ := fileReply_eq_some_iff.1 hreply
  have hcomponent : fileComponent d = some f := by simp [fileComponent, hname]
  obtain ⟨count, hcount, hnames⟩ := (preparesSegments_iff hfile).1 hprep
  -- digits that follow the content in the packet only make the count larger
  have hle : (n : Int) ≤ count := by
    simp only [segmentCount, hcontent, hvalue] at hcount
    split at hcount
    · rename_i m hstoi
      rw [← Except.ok.inj hcount]
      exact le_of_stoi_decimal_append hstoi
    · cases hcount
    · cases hcount
  have hvalid : isValid f.type f.value = true := by
    obtain ⟨f', hf', hvalid⟩ := hasSegmentNames_iff.1 (hnames.resolve_left (by omega))
    obtain rfl : f = f' := mem_unique hcomponent hf'
    exact hvalid
  have hrange : ∀ k ∈ range count.toNat, k < 2 ^ 31 := by
    intro k hk
    have hlt := segmentCount_lt hcount
    have := mem_range.1 hk
    omega
  rw [prepareSegments, if_pos hfile, hcount, he]
  refine (awaits_createSegmentEntries hcomponent hvalid (hd f (by simp [hname])) nonces e.inFaces
    hrange hs).trans (or_congr_right ?_)
  simp only [segmentPath_reparsed_equals]
  constructor
  · rintro ⟨hface, k, -, huri, -⟩
    exact ⟨huri, hface⟩
  · grind

end

end State

open State Pit Strategy Router

namespace State

/-! ## Replies that were sent -/

/-- Each face sent a reply to a request for a file has in-records in the entries of the segments. -/
def ServesSegments (s : State) : Prop :=
  ∀ p d f n, s.Transmits p d → fileReply d = some (f, n) → SegmentsAwaited s.pit f n p

/-- If one Data was sent to some faces, those are the faces that matter. -/
theorem servesSegments_iff {t : State} (d : Data) (faces : List FacePtr) (can : FacePtr → Bool)
    (h : ∀ p d', t.Transmits p d' ↔ d' = d ∧ p ∈ faces ∧ can p = true) :
    t.ServesSegments ↔ ∀ x ∈ fileReply d, ∀ p ∈ faces, can p = true →
      SegmentsAwaited t.pit x.1 x.2 p := by
  constructor
  · rintro hserves ⟨f, n⟩ hreply p hp hcan
    exact hserves p d f n ((h p d).2 ⟨rfl, hp, hcan⟩) hreply
  · intro hall p d' f n hsent hreply
    obtain ⟨rfl, hp, hcan⟩ := (h p d').1 hsent
    exact hall (f, n) hreply p hp hcan

theorem servesSegments_of_not_transmits {t : State} (h : ∀ p d, ¬ t.Transmits p d) :
    t.ServesSegments :=
  fun p d _ _ hsent => absurd hsent (h p d)

/-! ## A reply that comes in -/

section

variable {s : State} {d : Data} {f : Component} {n : Nat} {face : FacePtr} (env : Env)
  (ingress : FacePtr) {id : EntryId} {e : Entry} {ids : List EntryId}

theorem awaits_onSingleMatch (nonces : Nat → List UInt8) (rate : FacePtr → Int)
    (he : s.pit.get id = some e) (hwf : e.name.WellFormed)
    (hmatch : e.interest.matchesData env.sha256 d = true)
    (hcomplete : completesSingleMatch env ingress s d id = true)
    (hfile : filePrefix.isPrefixOf d.name = true) (i : Nat) :
    (s.onSingleMatch env ingress d nonces rate id).state.pit.Awaits (segmentPath f i) face ↔
      (s.prepareSegments env d nonces id).state.pit.Awaits (segmentPath f i) face := by
  obtain ⟨-, -, hothers⟩ := onSingleMatch_spec nonces rate he hwf hmatch hcomplete
  refine awaits_congr fun j => ?_
  by_cases hj : j = id
  · -- the matched entry is not the entry of a segment
    subst hj
    have hbefore : (s.prepareSegments env d nonces j).state.pit.NamedOther j (segmentPath f i) := by
      intro e' he'
      rw [prepareSegments_get env nonces j he hwf hmatch] at he'
      obtain rfl := some.inj he'
      exact not_equals_segmentPath (startsWithFile_of_matchesData hfile hmatch) f i
    exact Or.inr ⟨hbefore, hbefore.changes (changes_afterPrepare env s ingress d nonces rate j)⟩
  · exact Or.inl (hothers j hj)

theorem awaits_onMultipleMatches
    (hids : ∀ j ∈ ids, ∃ e, s.pit.get j = some e ∧ e.interest.matchesData env.sha256 d = true)
    (hfile : filePrefix.isPrefixOf d.name = true) (i : Nat) :
    (s.onMultipleMatches env ingress d ids).pit.Awaits (segmentPath f i) face ↔
      s.pit.Awaits (segmentPath f i) face := by
  obtain ⟨-, -, hothers⟩ := onMultipleMatches_spec env ingress d ids s
  refine awaits_congr fun j => ?_
  by_cases hj : j ∈ ids
  · have hbefore : s.pit.NamedOther j (segmentPath f i) := by
      obtain ⟨e, he, hmatch⟩ := hids j hj
      intro e' he'
      obtain rfl := mem_unique he he'
      exact not_equals_segmentPath (startsWithFile_of_matchesData hfile hmatch) f i
    exact Or.inr ⟨hbefore, hbefore.changes (changes_onMultipleMatches env s ingress d ids)⟩
  · exact Or.inl (hothers j hj)

/-- The entry has an in-record for the face. -/
def hasInRecordFor (s : State) (id : EntryId) (p : FacePtr) : Bool :=
  (s.pit.get id).any fun e => decide (p ∈ e.inFaces)

/-- The faces that are sent a reply for `n` segments of `f` are provided for: after a single match,
    the file name survives its URI and the face has an in-record in the matched entry, or the
    segments are awaited from it already; after several matches, the latter. -/
def providesSegments (s : State) (d : Data) (f : Component) (n : Nat) : Bool :=
  match s.pit.findAllDataMatches env.sha256 d with
  | [id] =>
    !completesSingleMatch env ingress s d id ||
      (singleMatchFaces env ingress s id).all fun p =>
        !canSendData env s.faceTable d p ||
          (decide (f.uriValue env.altUri = f.value) && hasInRecordFor s id p ||
            decide (SegmentsAwaited s.pit f n p))
  | ids =>
    (multiMatchFaces env ingress s ids).all fun p =>
      !canSendData env s.faceTable d p || decide (SegmentsAwaited s.pit f n p)

/-- The condition on an incoming Data. -/
def keepsSegmentsData (s : State) (d : Data) : Bool :=
  isViolatingLocalhost env ingress d.name ||
    (fileReply d).all fun x => providesSegments env ingress s d x.1 x.2

variable {env ingress}

theorem segmentsAwaited_onSingleMatch (hs : s.pit.WellFormed) (hd : d.name.WellFormed)
    (hreply : fileReply d = some (f, n)) (nonces : Nat → List UInt8) (rate : FacePtr → Int)
    (he : s.pit.get id = some e) (hmatch : e.interest.matchesData env.sha256 d = true)
    (hcomplete : completesSingleMatch env ingress s d id = true) (p : FacePtr) :
    SegmentsAwaited (s.onSingleMatch env ingress d nonces rate id).state.pit f n p ↔
      (f.uriValue env.altUri = f.value ∧ hasInRecordFor s id p = true) ∨
        SegmentsAwaited s.pit f n p := by
  have hfile := isPrefixOf_of_fileReply hreply
  have hprep : preparesSegments d = true := (Bool.and_eq_true_iff.1 hcomplete).1
  have hrecord : hasInRecordFor s id p = true ↔ p ∈ e.inFaces := by simp [hasInRecordFor, he]
  have hafter : ∀ i, i < n →
      ((s.onSingleMatch env ingress d nonces rate id).state.pit.Awaits (segmentPath f i) p ↔
        s.pit.Awaits (segmentPath f i) p ∨
          (f.uriValue env.altUri = f.value ∧ p ∈ e.inFaces)) := fun i hi =>
    (awaits_onSingleMatch env ingress nonces rate he (hs.get he) hmatch hcomplete hfile i).trans
      (awaits_prepareSegments hs hd hreply hprep nonces he hi)
  rw [hrecord]
  constructor
  · intro hall
    by_cases hnew : f.uriValue env.altUri = f.value ∧ p ∈ e.inFaces
    · exact Or.inl hnew
    · exact Or.inr fun i hi => ((hafter i hi).1 (hall i hi)).resolve_right hnew
  · rintro (hnew | hold) i hi
    · exact (hafter i hi).2 (Or.inr hnew)
    · exact (hafter i hi).2 (Or.inl (hold i hi))

theorem servesSegments_of_sent_eq_nil {t : State} (ht : t.sent = []) : t.ServesSegments :=
  servesSegments_of_not_transmits fun p d => not_transmits_of_sent_eq_nil ht p d

theorem onSingleMatch_servesSegments_iff (hs : s.pit.WellFormed) (hd : d.name.WellFormed)
    (hsent : s.sent = []) (nonces : Nat → List UInt8) (rate : FacePtr → Int)
    (he : s.pit.get id = some e) (hmatch : e.interest.matchesData env.sha256 d = true) :
    (s.onSingleMatch env ingress d nonces rate id).state.ServesSegments ↔
      ∀ x ∈ fileReply d, completesSingleMatch env ingress s d id = true →
        ∀ p ∈ singleMatchFaces env ingress s id, canSendData env s.faceTable d p = true →
          ((x.1.uriValue env.altUri = x.1.value ∧ hasInRecordFor s id p = true) ∨
            SegmentsAwaited s.pit x.1 x.2 p) := by
  cases hcomplete : completesSingleMatch env ingress s d id with
  | false =>
    have hnone := onSingleMatch_incomplete nonces rate he (hs.get he) hmatch hcomplete
    exact iff_of_true (servesSegments_of_sent_eq_nil (hnone.trans hsent)) fun _ _ h => by cases h
  | true =>
    obtain ⟨hsends, -, -⟩ := onSingleMatch_spec nonces rate he (hs.get he) hmatch hcomplete
    have hstart := not_transmits_of_sent_eq_nil hsent
    have hawaited := fun (f : Component) (n : Nat) (hreply : fileReply d = some (f, n)) =>
      segmentsAwaited_onSingleMatch hs hd hreply nonces rate he hmatch hcomplete
    rw [servesSegments_iff d (singleMatchFaces env ingress s id) (canSendData env s.faceTable d)
      fun p d' => by simp [hsends, hstart]]
    constructor
    · rintro hall ⟨f, n⟩ hreply - p hp hcan
      exact (hawaited f n hreply p).1 (hall (f, n) hreply p hp hcan)
    · simp_all

theorem onMultipleMatches_servesSegments_iff (hsent : s.sent = [])
    (hids : ∀ j ∈ ids, ∃ e, s.pit.get j = some e ∧ e.interest.matchesData env.sha256 d = true) :
    (s.onMultipleMatches env ingress d ids).ServesSegments ↔
      ∀ x ∈ fileReply d, ∀ p ∈ multiMatchFaces env ingress s ids,
        canSendData env s.faceTable d p = true → SegmentsAwaited s.pit x.1 x.2 p := by
  obtain ⟨hsends, -, -⟩ := onMultipleMatches_spec env ingress d ids s
  have hstart := not_transmits_of_sent_eq_nil hsent
  have hsame : ∀ x ∈ fileReply d, ∀ p,
      (SegmentsAwaited (s.onMultipleMatches env ingress d ids).pit x.1 x.2 p ↔
        SegmentsAwaited s.pit x.1 x.2 p) := by
    rintro ⟨f, n⟩ hreply p
    refine forall₂_congr fun i _ => ?_
    exact awaits_onMultipleMatches env ingress hids (isPrefixOf_of_fileReply hreply) i
  rw [servesSegments_iff d (multiMatchFaces env ingress s ids) (canSendData env s.faceTable d)
    fun p d' => by simp [hsends, hstart]]
  constructor
  · intro hall x hx p hp hcan
    exact (hsame x hx p).1 (hall x hx p hp hcan)
  · intro hall x hx p hp hcan
    exact (hsame x hx p).2 (hall x hx p hp hcan)

section

variable (hscope : isViolatingLocalhost env ingress d.name = false)
include hscope

theorem keepsSegmentsData_iff_of_single (hmatches : s.pit.findAllDataMatches env.sha256 d = [id]) :
    keepsSegmentsData env ingress s d = true ↔
      ∀ x ∈ fileReply d, completesSingleMatch env ingress s d id = true →
        ∀ p ∈ singleMatchFaces env ingress s id, canSendData env s.faceTable d p = true →
          ((x.1.uriValue env.altUri = x.1.value ∧ hasInRecordFor s id p = true) ∨
            SegmentsAwaited s.pit x.1 x.2 p) := by
  simp only [keepsSegmentsData, hscope, Bool.false_or, Option.all_eq_true, providesSegments,
    hmatches, Bool.or_eq_true, Bool.not_eq_true', List.all_eq_true, Bool.and_eq_true,
    decide_eq_true_eq, ← imp_iff_not_or, ← Bool.not_eq_true]
  exact Iff.rfl

theorem keepsSegmentsData_iff_of_multiple
    (hmany : 2 ≤ (s.pit.findAllDataMatches env.sha256 d).length) :
    keepsSegmentsData env ingress s d = true ↔
      ∀ x ∈ fileReply d,
        ∀ p ∈ multiMatchFaces env ingress s (s.pit.findAllDataMatches env.sha256 d),
          canSendData env s.faceTable d p = true → SegmentsAwaited s.pit x.1 x.2 p := by
  cases hlist : s.pit.findAllDataMatches env.sha256 d with
  | nil => simp [hlist] at hmany
  | cons a as =>
    cases as with
    | nil => simp [hlist] at hmany
    | cons b bs =>
      simp only [keepsSegmentsData, hscope, Bool.false_or, Option.all_eq_true,
        providesSegments, hlist, Bool.or_eq_true, Bool.not_eq_true', List.all_eq_true,
        decide_eq_true_eq, ← imp_iff_not_or, ← Bool.not_eq_true]
      exact Iff.rfl

end

/-- **A reply that comes in** leaves each face it is sent to provided for iff the condition holds.
    -/
theorem onIncomingData_servesSegments_iff (hs : s.pit.WellFormed) (hd : d.name.WellFormed)
    (hsent : s.sent = []) (nonces : Nat → List UInt8) (rate : FacePtr → Int) :
    (s.onIncomingData env ingress d nonces rate).state.ServesSegments ↔
      keepsSegmentsData env ingress s d = true := by
  rcases s.onIncomingData_cases env ingress d nonces rate with
    ⟨t, heq, -, hnone, hdropped⟩ | ⟨hscope, id, hmatches, heq⟩ | ⟨hscope, hmany, heq⟩
  · rw [heq]
    refine iff_of_true (servesSegments_of_sent_eq_nil (hnone.trans hsent)) ?_
    rcases hdropped with hscope | hmatches
    · simp [keepsSegmentsData, hscope]
    · have hnobody : multiMatchFaces env ingress s [] = [] := rfl
      simp [keepsSegmentsData, providesSegments, hmatches, hnobody]
  · obtain ⟨e, he, hmatch⟩ := mem_findAllDataMatches (hmatches ▸ mem_singleton_self id)
    rw [heq, keepsSegmentsData_iff_of_single hscope hmatches]
    exact onSingleMatch_servesSegments_iff (s := s.cacheData env d) hs hd hsent nonces
      rate he hmatch
  · rw [heq, keepsSegmentsData_iff_of_multiple hscope hmany]
    exact onMultipleMatches_servesSegments_iff (s := s.cacheData env d) hsent
      fun j hj => mem_findAllDataMatches hj

end

/-! ## Pipelines that transmit no Data -/

section

variable (env : Env) (s : State) (p : FacePtr) (d : Data)

theorem transmits_send {o : Output} (ho : ∀ token, o ≠ .data p d token) :
    (s.send o).Transmits p d ↔ s.Transmits p d := by
  simp only [Transmits, send_sent, mem_append, mem_singleton]
  refine exists_congr fun token => or_iff_left ?_
  exact fun h => ho token h.symm

theorem Moves.transmits_iff {s t : State}
    (h : Moves (fun _ => True) anySend anyHear (fun _ _ => False) s t) :
    t.Transmits p d ↔ s.Transmits p d := by
  induction h with
  | refl => rfl
  | @tail t _ _ hmove ih =>
    rw [← ih]
    cases hmove with
    | quiet _ _ hsent => rw [Transmits, hsent, Transmits]
    | interest j egress i _ => exact transmits_send (t.modifyEntry j _) p d (by simp)
    | data _ _ _ hd => exact hd.elim
    | nack | setRate => exact transmits_send t p d (by simp)
    | _ => rfl

theorem transmits_onInterestLoop (ingress : FacePtr) (i : Interest) :
    (s.onInterestLoop env ingress i).Transmits p d ↔ s.Transmits p d :=
  (moves_onInterestLoop ingress i).transmits_iff p d

theorem transmits_onContentStoreMiss (ingress : FacePtr) (id : EntryId) (i : Interest)
    (actions : List Action) :
    (s.onContentStoreMiss env ingress id i actions).Transmits p d ↔ s.Transmits p d :=
  (moves_onContentStoreMiss trivial fun _ _ _ => trivial).transmits_iff p d

end

/-! ## A reply from the Content Store -/

section

variable {env : Env} {s : State} {ingress : FacePtr}

/-- The Data a lookup finds. -/
def csHit (env : Env) (s : State) (i : Interest) : Option Data :=
  match s.cs.find env.sha256 i s.now with
  | .ok (some d, _) => some d
  | _ => none

/-- The Data an incoming Interest is answered with from the Content Store. -/
def csAnswer (env : Env) (s : State) (ingress : FacePtr) (i : Interest)
    (freshNonce : List UInt8) : Option Data :=
  if reachesLookup env s ingress i freshNonce then csHit env s (acceptedInterest env i freshNonce)
  else none

variable {i : Interest} {id : EntryId} {freshNonce : List UInt8}

theorem matchesData_of_csHit {d : Data} (h : csHit env s i = some d) :
    i.matchesData env.sha256 d = true := by
  unfold csHit at h
  split at h
  · rename_i d' cs hfind
    obtain rfl := some.inj h
    unfold Cs.find at hfind
    split at hfind
    · cases hfind
    obtain ⟨found, hmatch, hfind⟩ := bind_eq_ok_iff.1 hfind
    cases found with
    | none => cases hfind
    | some e =>
      have hsatisfies := (Cs.findMatch_eq_some env.sha256 hmatch).2
      have hdata : e.data = d' := some.inj (Prod.mk.inj (Except.ok.inj hfind)).1
      rw [← hdata]
      exact (Bool.and_eq_true_iff.1 hsatisfies).1
  · cases h

theorem transmits_onContentStoreHit (id : EntryId) (i : Interest) (d : Data) (p : FacePtr)
    (d' : Data) : (s.onContentStoreHit env ingress id i d).Transmits p d' ↔
      s.Transmits p d' ∨ d' = d ∧ p = ingress ∧ canSendData env s.faceTable d ingress = true := by
  rw [onContentStoreHit, transmits_sendData]
  exact Iff.rfl

theorem awaits_onContentStoreHit {n : Name} (hother : s.pit.NamedOther id n) (i : Interest)
    (d : Data) (face : FacePtr) :
    (s.onContentStoreHit env ingress id i d).pit.Awaits n face ↔ s.pit.Awaits n face := by
  refine awaits_congr fun j => ?_
  by_cases hj : j = id
  · subst hj
    exact Or.inr ⟨hother, hother.changes (onContentStoreHit_setsTimer env s ingress j i d).changes⟩
  · left
    simp [onContentStoreHit, setExpiryTimer, get_modify_of_ne hj]

theorem startsWithFile_of_equals {m n : Name} (h : m.equals n = true)
    (hn : startsWithFile n = true) : startsWithFile m = true := by
  cases m with
  | nil => rfl
  | cons a m =>
    cases n with
    | nil => cases h
    | cons b n =>
      simp only [Name.equals, startsWithFile, Component.equals, Bool.and_eq_true,
        beq_iff_eq] at h hn ⊢
      exact ⟨h.1.1.trans hn.1, h.1.2.trans hn.2⟩

theorem lookupContentStore_servesSegments_iff (hsent : s.sent = []) {e : Entry}
    (he : s.pit.get id = some e) (hname : e.name.equals i.name = true)
    (actions : List Action) :
    (s.lookupContentStore env ingress id i actions).state.ServesSegments ↔
      ∀ d ∈ csHit env s i, ∀ x ∈ fileReply d, canSendData env s.faceTable d ingress = true →
        SegmentsAwaited s.pit x.1 x.2 ingress := by
  have hstart := not_transmits_of_sent_eq_nil hsent
  have hmatches : ∀ d, csHit env s i = some d → i.matchesData env.sha256 d = true :=
    fun d => matchesData_of_csHit
  unfold csHit at hmatches ⊢
  unfold lookupContentStore
  cases hfind : s.cs.find env.sha256 i s.now with
  | error exc =>
    refine iff_of_true (servesSegments_of_not_transmits hstart) ?_
    rintro d ⟨⟩
  | ok r =>
    obtain ⟨hit, cs⟩ := r
    cases hit with
    | none =>
      refine iff_of_true (servesSegments_of_not_transmits fun p d => ?_) ?_
      · rw [transmits_onContentStoreMiss env { s with cs } p d]
        exact hstart p d
      · rintro d ⟨⟩
    | some d =>
      rw [hfind] at hmatches
      simp only [mem_some_iff, forall_eq']
      rw [servesSegments_iff d [ingress] (canSendData env s.faceTable d) fun p d' => by
        rw [transmits_onContentStoreHit]
        simp only [mem_singleton]
        constructor
        · rintro (h | ⟨hd, rfl, hcan⟩)
          · exact absurd h (hstart p d')
          · exact ⟨hd, rfl, hcan⟩
        · rintro ⟨hd, rfl, hcan⟩
          exact Or.inr ⟨hd, rfl, hcan⟩]
      simp only [mem_singleton, forall_eq]
      refine forall₂_congr fun x hx => forall_congr' fun _ => forall₂_congr fun k _ => ?_
      -- the Interest is for a file, so its entry is not the entry of a segment
      have hfile := startsWithFile_of_matchesData (isPrefixOf_of_fileReply hx) (hmatches d rfl)
      have hother : ({ s with cs } : State).pit.NamedOther id (segmentPath x.1 k) := by
        intro e' he'
        obtain rfl := mem_unique he he'
        exact not_equals_segmentPath (startsWithFile_of_equals hname hfile) x.1 k
      exact awaits_onContentStoreHit hother i d ingress

/-- The face an Interest comes from has its in-records for the segments already, if the Content
    Store answers with a reply to a request for a file. -/
def keepsSegmentsInterest (env : Env) (s : State) (ingress : FacePtr) (i : Interest)
    (freshNonce : List UInt8) : Bool :=
  (csAnswer env s ingress i freshNonce).all fun d =>
    (fileReply d).all fun x =>
      !canSendData env s.faceTable d ingress || decide (SegmentsAwaited s.pit x.1 x.2 ingress)

theorem keepsSegmentsInterest_iff :
    keepsSegmentsInterest env s ingress i freshNonce = true ↔
      ∀ d ∈ csAnswer env s ingress i freshNonce, ∀ x ∈ fileReply d,
        canSendData env s.faceTable d ingress = true → SegmentsAwaited s.pit x.1 x.2 ingress := by
  simp only [keepsSegmentsInterest, Option.all_eq_true, Bool.or_eq_true, Bool.not_eq_true',
    decide_eq_true_eq, ← imp_iff_not_or, ← Bool.not_eq_true]
  exact Iff.rfl

theorem not_transmits_of_isDropped (hsent : s.sent = [])
    (hdropped : isDropped env s ingress i freshNonce = true) (actions : List Action)
    (p : FacePtr) (d : Data) :
    ¬ (s.onIncomingInterest env ingress i freshNonce actions).state.Transmits p d := by
  have hstart := not_transmits_of_sent_eq_nil hsent p d
  unfold onIncomingInterest
  dsimp only
  split
  · exact hstart
  split
  · exact hstart
  split
  · rw [transmits_onInterestLoop]
    exact hstart
  · rename_i hhop hscope hdnl
    exfalso
    simp only [isDropped, Bool.or_eq_true, beq_iff_eq] at hdropped
    rcases hdropped with (h | h) | h
    · exact hhop h
    · exact hscope h
    · exact hdnl h

/-- **A reply from the Content Store** leaves its face provided for exactly under the condition. -/
theorem onIncomingInterest_servesSegments_iff (hs : s.pit.WellFormed) (hsent : s.sent = [])
    (hi : i.name.WellFormed) (freshNonce : List UInt8) (actions : List Action) :
    (s.onIncomingInterest env ingress i freshNonce actions).state.ServesSegments ↔
      keepsSegmentsInterest env s ingress i freshNonce = true := by
  have hstart := not_transmits_of_sent_eq_nil hsent
  rw [keepsSegmentsInterest_iff, csAnswer]
  have hnothing : reachesLookup env s ingress i freshNonce = false →
      (∀ p d, ¬ (s.onIncomingInterest env ingress i freshNonce actions).state.Transmits p d) →
      ((s.onIncomingInterest env ingress i freshNonce actions).state.ServesSegments ↔
        ∀ d ∈ (if reachesLookup env s ingress i freshNonce then
            csHit env s (acceptedInterest env i freshNonce) else none), ∀ x ∈ fileReply d,
          canSendData env s.faceTable d ingress = true →
            SegmentsAwaited s.pit x.1 x.2 ingress) := by
    intro hreach hnone
    refine iff_of_true (servesSegments_of_not_transmits hnone) ?_
    rw [hreach]
    rintro d ⟨⟩
  rcases s.onIncomingInterest_cases env ingress i freshNonce actions with
    ⟨hdropped, -, -⟩ | ⟨hdropped, heq⟩
  · exact hnothing (by simp [reachesLookup, hdropped])
      (not_transmits_of_isDropped hsent hdropped actions)
  · obtain ⟨e, he, hname, -⟩ := insert_spec hs (i := acceptedInterest env i freshNonce) hi
    have hfind : s.pit.find (acceptedInterest env i freshNonce) = s.pit.find i := rfl
    have hnonce : getNonce (acceptedInterest env i freshNonce) = i.nonce.getD freshNonce := rfl
    rcases processInterest_cases env (s.count fun c =>
      { c with nInInterests := c.nInInterests + 1 })
        ingress (acceptedInterest env i freshNonce) actions with
      ⟨id, e', hid, he', hprocess⟩ | ⟨hid, hprocess⟩
    · rw [count_pit, hfind] at hid
      simp only [Pit.insert, hfind, hid] at he
      obtain rfl := mem_unique he he'
      have hreach : reachesLookup env s ingress i freshNonce =
          (!hasDuplicateNonceInPit env e (i.nonce.getD freshNonce) ingress && !e.hasInRecords) := by
        simp [reachesLookup, hdropped, hid, he]
      rw [hnonce] at hprocess
      cases hdup : hasDuplicateNonceInPit env e (i.nonce.getD freshNonce) ingress with
      | true =>
        refine hnothing (by simp [hreach, hdup]) fun p d => ?_
        rw [heq, hprocess, if_pos hdup, transmits_onInterestLoop]
        exact hstart p d
      | false =>
        cases hrecords : e.hasInRecords with
        | true =>
          refine hnothing (by simp [hreach, hrecords]) fun p d => ?_
          rw [heq, hprocess, if_neg (by simp [hdup]), if_pos hrecords, transmits_onContentStoreMiss]
          exact hstart p d
        | false =>
          rw [heq, hprocess, if_neg (by simp [hdup]), if_neg (by simp [hrecords]), hreach, hdup,
            hrecords]
          exact lookupContentStore_servesSegments_iff (s := s.count _) hsent he hname actions
    · rw [count_pit, hfind] at hid
      simp only [Pit.insert, hfind, hid] at he
      have hreach : reachesLookup env s ingress i freshNonce = true := by
        simp [reachesLookup, hdropped, hid]
      rw [heq, hprocess, hreach, if_pos rfl]
      refine (lookupContentStore_servesSegments_iff (s := { s.count _ with pit := _ })
        hsent he hname
        actions).trans ?_
      refine forall₂_congr fun d _ => forall₂_congr fun x _ => forall_congr' fun _ => ?_
      exact forall₂_congr fun k _ => awaits_insertNew _

end

end State

/-! ## Runs -/

/-- The condition on an event. -/
def keepsSegments (env : Env) (s : State) : Event → Bool
  | .interest ingress frame freshNonce _ =>
    (frame.decodeInterest env).all fun i => State.keepsSegmentsInterest env s ingress i freshNonce
  | .data ingress frame _ _ => frame.decodeData.all (State.keepsSegmentsData env ingress s)
  | _ => true

theorem step_servesSegments_iff {env : Env} {s s' : State} {e : Event} (hs : s.pit.WellFormed)
    (h : step env s e = some s') : s'.ServesSegments ↔ keepsSegments env s e = true := by
  have hidle : s.beginEvent.ServesSegments := servesSegments_of_sent_eq_nil rfl
  have hstart := not_transmits_of_sent_eq_nil (t := s.beginEvent) rfl
  cases e with
  | interest ingress frame freshNonce actions =>
    rcases step_interest h with ⟨hdecode, rfl⟩ | ⟨i, hdecode, hresult⟩
    · simp [keepsSegments, hdecode, hidle]
    · rw [Outcome.survive_state hresult, keepsSegments, hdecode, all_some]
      exact onIncomingInterest_servesSegments_iff (s := s.beginEvent) hs rfl
        (Frame.decodeInterest_wellFormed hdecode) freshNonce actions
  | data ingress frame nonces rate =>
    rcases step_data h with ⟨hdecode, rfl⟩ | ⟨d, hdecode, hresult⟩
    · simp [keepsSegments, hdecode, hidle]
    · rw [Outcome.survive_state hresult, keepsSegments, hdecode, all_some]
      exact onIncomingData_servesSegments_iff (s := s.beginEvent) hs
        (Frame.decodeData_wellFormed hdecode) rfl nonces rate
  | nack ingress frame reason actions =>
    refine iff_of_true ?_ rfl
    rcases step_nack h with rfl | ⟨i, -, rfl⟩
    · exact hidle
    · refine servesSegments_of_not_transmits fun p d => ?_
      rw [(moves_onIncomingNack fun _ _ _ _ _ => trivial).transmits_iff]
      exact hstart p d
  | face op =>
    refine iff_of_true (servesSegments_of_sent_eq_nil ?_) rfl
    simp only [step, onFaceOp] at h
    split at h
    · cases h
    · split at h
      · rw [← some.inj h]
        rfl
      · rw [← some.inj h]
        rfl
  | expiry id =>
    refine iff_of_true (servesSegments_of_not_transmits fun p d => ?_) rfl
    rw [step_expiry h, (moves_onInterestFinalize id).transmits_iff]
    exact hstart p d
  | strategy id actions =>
    refine iff_of_true (servesSegments_of_not_transmits fun p d => ?_) rfl
    rw [← some.inj h, (moves_actAll fun _ _ _ => trivial).transmits_iff]
    exact hstart p d
  | markNonces | adjustNonces | tick =>
    rw [← some.inj h]
    exact iff_of_true (servesSegments_of_sent_eq_nil rfl) rfl

/-- A state serves the segments of every reply it has sent. -/
def servesOutput (p : Pit) : Output → Bool
  | .data q d _ => (State.fileReply d).all fun x => decide (State.SegmentsAwaited p x.1 x.2 q)
  | _ => true

theorem State.servesOutput_of_servesSegments {s : State} (h : s.ServesSegments) :
    s.sent.all (servesOutput s.pit) = true := by
  rw [List.all_eq_true]
  intro o ho
  cases o with
  | data q d token =>
    rw [servesOutput, Option.all_eq_true]
    exact fun x hx => decide_eq_true (h q d x.1 x.2 ⟨token, ho⟩ hx)
  | _ => rfl

/-- A consumer whose request is answered from the Content Store. -/
def Router.cached : List Event :=
  boot [1, 2, 5] ++ [interest 1 ["File", "a"] 1 [], data 5 ["File", "a"] (content "2"),
    interest 2 ["File", "a"] 2 []]

/-- Two consumers whose Interests are two entries: one accepts longer names. -/
def Router.matchedTwice : List Event :=
  boot [1, 2, 5] ++ [interest 1 ["File", "a"] 1 [],
    .interest 2 (frame (element Tlv.interest (name ["File", "a"] ++ element Tlv.canBePrefix [] ++
      element Tlv.nonce [0, 0, 0, 2]))) [] [], data 5 ["File", "a"] (content "2")]

end NdnMulticast.Nfd
