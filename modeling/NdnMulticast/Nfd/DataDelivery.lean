/-
  To which faces an incoming Data goes, and what becomes of the in-records.

  In `sendDataToAll` the check against the ingress is made before the multicast face is
  substituted, and only the in-record of the multicast face is deleted after it.
-/

import NdnMulticast.Nfd.PitChanges

namespace NdnMulticast.Nfd.State

open Lib Ndn List Option Pit Strategy Router

/-! ## Transmissions -/

/-- The Data went out on a face while the event was processed. -/
def Transmits (s : State) (p : FacePtr) (d : Data) : Prop := ∃ token, Output.data p d token ∈ s.sent

def isDataOn (p : FacePtr) (d : Data) : Output → Bool
  | .data q d' _ => q == p && d' == d
  | _ => false

instance (s : State) (p : FacePtr) (d : Data) : Decidable (s.Transmits p d) :=
  decidable_of_iff (s.sent.any (isDataOn p d) = true) <| by
    rw [List.any_eq_true]
    constructor
    · rintro ⟨o, ho, hdata⟩
      cases o with
      | data q d' token =>
        rw [isDataOn, Bool.and_eq_true, beq_iff_eq, beq_iff_eq] at hdata
        exact ⟨token, hdata.1 ▸ hdata.2 ▸ ho⟩
      | interest egress i => cases hdata
      | nack egress i reason => cases hdata
      | setRate host rate => cases hdata
    · rintro ⟨token, ho⟩
      exact ⟨_, ho, by simp [isDataOn]⟩

section

variable (env : Env) (s : State) (id : EntryId) (d : Data)

theorem transmits_onOutgoingData (egress : FacePtr) (token : Option (List UInt8)) (p : FacePtr)
    (d' : Data) :
    (s.onOutgoingData env d egress token).Transmits p d' ↔
      s.Transmits p d' ∨ d' = d ∧ p = egress ∧ canSendData env s.faceTable d egress = true := by
  unfold onOutgoingData Transmits
  split
  · rename_i hcan
    simp only [count_sent, send_sent, mem_append, mem_singleton, Output.data.injEq, hcan, and_true]
    constructor
    · grind
    · grind
  · rename_i hcan
    simp [hcan]

@[simp] theorem onOutgoingData_faceTable (egress : FacePtr) (token : Option (List UInt8)) :
    (s.onOutgoingData env d egress token).faceTable = s.faceTable := by
  unfold onOutgoingData
  split
  · rfl
  · rfl

section

variable (token : Option (List UInt8)) (egress : FacePtr)

@[simp] theorem sendData_faceTable :
    (sendData env s id d token egress).faceTable = s.faceTable := by
  simp [sendData]

@[simp] theorem sendData_pit :
    (sendData env s id d token egress).pit = s.pit.modify id (·.deleteInRecord egress) := by
  simp [sendData]

theorem transmits_sendData (p : FacePtr) (d' : Data) :
    (sendData env s id d token egress).Transmits p d' ↔
      s.Transmits p d' ∨ d' = d ∧ p = egress ∧ canSendData env s.faceTable d egress = true := by
  rw [sendData, transmits_onOutgoingData]
  rfl

end

/-- Sending a Data to a list of faces: what goes out, and the in-records that are
    left in the entry. -/
theorem foldl_sendData_spec (ps : List FacePtr) :
    (∀ p d', (ps.foldl (fun s p => sendData env s id d none p) s).Transmits p d' ↔
      s.Transmits p d' ∨ d' = d ∧ p ∈ ps ∧ canSendData env s.faceTable d p = true) ∧
    (∀ e, s.pit.get id = some e →
      ∃ e', (ps.foldl (fun s p => sendData env s id d none p) s).pit.get id = some e' ∧
        e'.inRecords = e.inRecords.filter fun r => decide (r.face ∉ ps)) ∧
    ∀ j, j ≠ id → (ps.foldl (fun s p => sendData env s id d none p) s).pit.get j = s.pit.get j := by
  induction ps generalizing s with
  | nil => simp_all
  | cons q ps ih =>
    obtain ⟨hsent, hself, hother⟩ := ih (sendData env s id d none q)
    rw [foldl_cons]
    refine ⟨fun p d' => ?_, fun e he => ?_, fun j hj => ?_⟩
    · rw [hsent, transmits_sendData, sendData_faceTable, mem_cons]
      constructor
      · grind
      · grind
    · have hget : (sendData env s id d none q).pit.get id = some (e.deleteInRecord q) := by
        rw [sendData_pit, get_modify_self, he]
        rfl
      obtain ⟨e', he', hrecords⟩ := hself _ hget
      refine ⟨e', he', ?_⟩
      rw [hrecords, Entry.deleteInRecord, List.filter_filter]
      refine filter_congr fun r _ => ?_
      by_cases hq : r.face = q
      · simp [hq]
      · simp [hq]
    · rw [hother j hj, sendData_pit, get_modify_of_ne hj]

end

/-! ## One match -/

section

variable (env : Env) (ingress : FacePtr)

@[simp] theorem insertDeadNonceList_sent (s : State) (id : EntryId) (upstream : Option FacePtr) :
    (s.insertDeadNonceList env id upstream).sent = s.sent := by
  unfold insertDeadNonceList
  split
  · rfl
  · split
    · rfl
    · rfl

@[simp] theorem insertDeadNonceList_faceTable (s : State) (id : EntryId)
    (upstream : Option FacePtr) :
    (s.insertDeadNonceList env id upstream).faceTable = s.faceTable := by
  unfold insertDeadNonceList
  split
  · rfl
  · split
    · rfl
    · rfl

theorem setExpiryTimer_sent (s : State) (id : EntryId) (duration : Int) :
    (s.setExpiryTimer id duration).sent = s.sent := rfl

theorem setExpiryTimer_faceTable (s : State) (id : EntryId) (duration : Int) :
    (s.setExpiryTimer id duration).faceTable = s.faceTable := rfl

theorem modifyEntry_get {s : State} {id : EntryId} {e : Entry} (he : s.pit.get id = some e)
    {f : Entry → Entry} (hf : ∀ e, (f e).inRecords = e.inRecords) :
    ∃ e', (s.modifyEntry id f).pit.get id = some e' ∧ e'.inRecords = e.inRecords := by
  refine ⟨f e, ?_, hf e⟩
  rw [modifyEntry_pit, get_modify_self, he]
  rfl

theorem satisfyEntry_get {s : State} {id : EntryId} {e : Entry} (he : s.pit.get id = some e)
    (d : Data) :
    ∃ e', (s.satisfyEntry env id ingress d).pit.get id = some e' ∧ e'.inRecords = e.inRecords := by
  rw [satisfyEntry, insertDeadNonceList_pit]
  exact modifyEntry_get he fun _ => rfl

/-- The faces a Data that matches one entry is sent to. -/
def singleMatchFaces (s : State) (id : EntryId) : List FacePtr :=
  Strategy.egressFaces env s.faceTable (Strategy.pendingDownstreams env s id ingress)

/-- The single-match branch is processed to the end. -/
def completesSingleMatch (s : State) (d : Data) (id : EntryId) : Bool :=
  preparesSegments d &&
    Strategy.canSendToAll env s.faceTable (Strategy.pendingDownstreams env s id ingress)

variable {env ingress} {s : State} {d : Data} {id : EntryId} {e : Entry} (nonces : Nat → List UInt8)

/-- The single-match branch, processed to the end: the Data goes to the egress faces, their
    in-records are deleted, and every other entry is as the segments left it. -/
theorem onSingleMatch_spec (rate : FacePtr → Int) (he : s.pit.get id = some e)
    (hwf : e.name.WellFormed) (hmatch : e.interest.matchesData env.sha256 d = true)
    (hcomplete : completesSingleMatch env ingress s d id = true) :
    (∀ p d', (s.onSingleMatch env ingress d nonces rate id).state.Transmits p d' ↔
      s.Transmits p d' ∨ d' = d ∧ p ∈ singleMatchFaces env ingress s id ∧
        canSendData env s.faceTable d p = true) ∧
    (∃ e', (s.onSingleMatch env ingress d nonces rate id).state.pit.get id = some e' ∧
      e'.inRecords = e.inRecords.filter fun r =>
        decide (r.face ∉ singleMatchFaces env ingress s id)) ∧
    ∀ j, j ≠ id → (s.onSingleMatch env ingress d nonces rate id).state.pit.get j
      = (s.prepareSegments env d nonces id).state.pit.get j := by
  obtain ⟨hprep, hcan⟩ := Bool.and_eq_true_iff.1 hcomplete
  have hpending := pendingDownstreams_prepared env nonces he hwf hmatch ingress
  have hget := prepareSegments_get env nonces id he hwf hmatch
  obtain ⟨pit, hframe⟩ := s.prepareSegments_frame env d nonces id
  have hnofault := (prepareSegments_fault_eq_none_iff env s d nonces id).2 hprep
  -- the state in which `sendDataToAll` is called
  generalize hready : (s.prepareSegments env d nonces id).state.setExpiryTimer id 0 = ready
    at hpending
  have htable : ready.faceTable = s.faceTable := by
    rw [← hready, setExpiryTimer_faceTable, hframe]
  have hsent : ready.sent = s.sent := by
    rw [← hready, setExpiryTimer_sent, hframe]
  have hentry : ∃ e₀, ready.pit.get id = some e₀ ∧ e₀.inRecords = e.inRecords := by
    rw [← hready]
    exact modifyEntry_get hget fun _ => rfl
  have hothers : ∀ j, j ≠ id → ready.pit.get j
      = (s.prepareSegments env d nonces id).state.pit.get j := by
    intro j hj
    rw [← hready, setExpiryTimer, modifyEntry_pit, get_modify_of_ne hj]
  rcases sendDataToAll_cases env rate ready id ingress d with
    ⟨hcannot, -⟩ | ⟨-, t, ht, hsend⟩
  · rw [htable, hpending, hcan] at hcannot
    cases hcannot
  rw [htable, hpending] at hsend
  have htpit : t.pit = ready.pit := by
    rcases ht with rfl | ⟨host, r, rfl⟩
    · rfl
    · rfl
  have httable : t.faceTable = s.faceTable := by
    rcases ht with rfl | ⟨host, r, rfl⟩
    · exact htable
    · exact htable
  have htsent : ∀ p d', t.Transmits p d' ↔ s.Transmits p d' := by
    intro p d'
    rcases ht with rfl | ⟨host, r, rfl⟩
    · rw [Transmits, hsent]
      rfl
    · simp [Transmits, hsent]
  obtain ⟨hsends, hself, hother⟩ :=
    foldl_sendData_spec env t id d (singleMatchFaces env ingress s id)
  -- what follows the transmissions changes neither them nor the in-records
  have hresult : s.onSingleMatch env ingress d nonces rate id =
      ⟨(((singleMatchFaces env ingress s id).foldl
        (fun s p => sendData env s id d none p) t).satisfyEntry env id ingress d).modifyEntry
          id (·.deleteOutRecord ingress), none⟩ := by
    unfold onSingleMatch
    simp only [hnofault, hready, hsend, isSome_none, Bool.false_eq_true, if_false]
    rfl
  rw [hresult]
  refine ⟨fun p d' => ?_, ?_, fun j hj => ?_⟩
  · rw [← htsent p d', ← httable, ← hsends p d']
    simp [Transmits, satisfyEntry]
  · obtain ⟨e₀, he₀, hsame⟩ := hentry
    obtain ⟨e', he', hrecords⟩ := hself e₀ (htpit ▸ he₀)
    rw [hsame] at hrecords
    obtain ⟨e₁, he₁, h₁⟩ := satisfyEntry_get env ingress he' d
    obtain ⟨e₂, he₂, h₂⟩ := modifyEntry_get he₁ (f := (·.deleteOutRecord ingress)) fun _ => rfl
    exact ⟨e₂, he₂, h₂.trans (h₁.trans hrecords)⟩
  · simp only [modifyEntry_pit, satisfyEntry, insertDeadNonceList_pit, get_modify_of_ne hj]
    rw [hother j hj, htpit, hothers j hj]

theorem onSingleMatch_incomplete (rate : FacePtr → Int) (he : s.pit.get id = some e)
    (hwf : e.name.WellFormed) (hmatch : e.interest.matchesData env.sha256 d = true)
    (hcomplete : completesSingleMatch env ingress s d id = false) :
    (s.onSingleMatch env ingress d nonces rate id).state.sent = s.sent := by
  have hpending := pendingDownstreams_prepared env nonces he hwf hmatch ingress
  obtain ⟨pit, hframe⟩ := s.prepareSegments_frame env d nonces id
  have hnofault := prepareSegments_fault_eq_none_iff env s d nonces id
  unfold onSingleMatch
  dsimp only
  split
  · rw [hframe]
  rename_i hnone
  have hprep : preparesSegments d = true := hnofault.1 (by simpa using hnone)
  rcases sendDataToAll_cases env rate
      ((s.prepareSegments env d nonces id).state.setExpiryTimer id 0) id ingress d with
    ⟨-, hsend⟩ | ⟨hcan, -⟩
  · simp only [hsend, isSome_some, if_true, setExpiryTimer_sent]
    rw [hframe]
  · rw [hpending, setExpiryTimer_faceTable, hframe] at hcan
    simp [completesSingleMatch, hprep, hcan] at hcomplete

end

/-! ## Several matches -/

section

variable (env : Env) (ingress : FacePtr) (d : Data) (ids : List EntryId) (s : State)

/-- The faces a Data that matches several entries is sent to. -/
def multiMatchFaces (ids : List EntryId) : List FacePtr :=
  (s.pendingOfMatches ids).filter fun p =>
    !(s.faceTable.getId p == s.faceTable.getId ingress && (env.face p).linkType != .adHoc)

theorem satisfyMatch_get_of_ne {id j : EntryId} (hj : j ≠ id) :
    (satisfyMatch env ingress d s id).pit.get j = s.pit.get j := by
  simp [satisfyMatch, satisfyEntry, setExpiryTimer, get_modify_of_ne hj]

theorem satisfyMatch_get_self (id : EntryId) {e : Entry}
    (he : (satisfyMatch env ingress d s id).pit.get id = some e) : e.inRecords = [] := by
  simp only [satisfyMatch, modifyEntry_pit, get_modify_self] at he
  obtain ⟨e₀, -, rfl⟩ := map_eq_some_iff.1 he
  rfl

/-- Nothing goes out, the matched entries lose their in-records, and the others are as they were. -/
theorem foldl_satisfyMatch_spec :
    (ids.foldl (satisfyMatch env ingress d) s).sent = s.sent ∧
    (ids.foldl (satisfyMatch env ingress d) s).faceTable = s.faceTable ∧
    (∀ id e, id ∈ ids ∨ (∀ e₀, s.pit.get id = some e₀ → e₀.inRecords = []) →
      (ids.foldl (satisfyMatch env ingress d) s).pit.get id = some e → e.inRecords = []) ∧
    ∀ j, j ∉ ids → (ids.foldl (satisfyMatch env ingress d) s).pit.get j = s.pit.get j := by
  induction ids generalizing s with
  | nil => simp_all
  | cons id ids ih =>
    obtain ⟨hsent, htable, hcleared, hother⟩ := ih (satisfyMatch env ingress d s id)
    have hframe : (satisfyMatch env ingress d s id).sent = s.sent ∧
        (satisfyMatch env ingress d s id).faceTable = s.faceTable := by
      simp [satisfyMatch, satisfyEntry, setExpiryTimer]
    refine ⟨hsent.trans hframe.1, htable.trans hframe.2, fun k e h he => ?_, fun j hj => ?_⟩
    · grind [satisfyMatch_get_self, satisfyMatch_get_of_ne]
    · simp_all [satisfyMatch_get_of_ne]

theorem foldl_onOutgoingData_spec (ps : List FacePtr) (s : State) :
    (∀ p d', (ps.foldl (fun s p => s.onOutgoingData env d p none) s).Transmits p d' ↔
      s.Transmits p d' ∨ d' = d ∧ p ∈ ps ∧ canSendData env s.faceTable d p = true) ∧
    (ps.foldl (fun s p => s.onOutgoingData env d p none) s).pit = s.pit := by
  induction ps generalizing s with
  | nil => exact ⟨by simp, rfl⟩
  | cons q ps ih =>
    obtain ⟨hsent, hpit⟩ := ih (s.onOutgoingData env d q none)
    rw [foldl_cons]
    refine ⟨fun p d' => ?_, hpit.trans (onOutgoingData_pit env s d q none)⟩
    rw [hsent, transmits_onOutgoingData, onOutgoingData_faceTable, mem_cons]
    constructor
    · grind
    · grind

/-- The Data goes to every pending downstream but the ingress, the matched entries lose their
    in-records, and the others are as they were. -/
theorem onMultipleMatches_spec :
    (∀ p d', (s.onMultipleMatches env ingress d ids).Transmits p d' ↔
      s.Transmits p d' ∨ d' = d ∧ p ∈ multiMatchFaces env ingress s ids ∧
        canSendData env s.faceTable d p = true) ∧
    (∀ id ∈ ids, ∀ e, (s.onMultipleMatches env ingress d ids).pit.get id = some e →
      e.inRecords = []) ∧
    ∀ j, j ∉ ids → (s.onMultipleMatches env ingress d ids).pit.get j = s.pit.get j := by
  obtain ⟨hsent, htable, hcleared, hother⟩ := foldl_satisfyMatch_spec env ingress d ids s
  have hfaces : ∀ t : State, t.faceTable = s.faceTable →
      ((s.pendingOfMatches ids).filter fun p =>
        !(t.faceTable.getId p == t.faceTable.getId ingress && (env.face p).linkType != .adHoc))
        = multiMatchFaces env ingress s ids := by
    intro t ht
    rw [ht]
    rfl
  unfold onMultipleMatches
  dsimp only
  rw [hfaces _ htable]
  obtain ⟨hsends, hpit⟩ := foldl_onOutgoingData_spec env d (multiMatchFaces env ingress s ids)
    (ids.foldl (satisfyMatch env ingress d) s)
  refine ⟨fun p d' => ?_, fun id hid e he => ?_, fun j hj => ?_⟩
  · rw [hsends, htable, Transmits, hsent]
    rfl
  · rw [hpit] at he
    exact hcleared id e (Or.inl hid) he
  · rw [hpit]
    exact hother j hj

end

/-! ## The face a Data came from -/

section

variable {env : Env} {s : State} (ingress : FacePtr) {id : EntryId} {e : Entry}

section

variable (he : s.pit.get id = some e)
include he

theorem mem_pendingDownstreams {p : FacePtr} :
    p ∈ pendingDownstreams env s id ingress ↔
      ∃ r ∈ e.inRecords, isPending env s ingress r = true ∧ r.face = p := by
  simp only [pendingDownstreams, he, List.mem_insertionSort, List.mem_map, List.mem_filter]
  constructor
  · grind
  · grind

variable (hlink : (env.face ingress).linkType ≠ .adHoc)
include hlink

theorem ingress_notMem_pendingDownstreams : ingress ∉ pendingDownstreams env s id ingress := by
  rw [mem_pendingDownstreams ingress he]
  rintro ⟨r, -, hpending, hface⟩
  simp [isPending, hface, hlink] at hpending

/-- The ingress is among the egress faces only as the multicast face. -/
theorem ingress_mem_singleMatchFaces :
    ingress ∈ singleMatchFaces env ingress s id ↔
      usesMulticast env.face (pendingDownstreams env s id ingress) = true ∧
        derefMulticastFace s.faceTable = some ingress := by
  have hnot := ingress_notMem_pendingDownstreams ingress he hlink
  unfold singleMatchFaces egressFaces
  split
  · grind
  · rename_i hmulti
    simp [hmulti, hnot]

end

theorem ingress_notMem_multiMatchFaces (ids : List EntryId)
    (hlink : (env.face ingress).linkType ≠ .adHoc) :
    ingress ∉ multiMatchFaces env ingress s ids := by
  simp [multiMatchFaces, hlink]

end

/-- The Data goes back on the multicast face: it matches one entry, whose segment entries are made
    without an exception, and the multicast face, substituted for downstreams, is the ingress. -/
def returnsOnMulticast (env : Env) (s : State) (ingress : FacePtr) (d : Data) : Bool :=
  !isViolatingLocalhost env ingress d.name && (env.face ingress).linkType != .adHoc &&
    preparesSegments d && canSendData env s.faceTable d ingress &&
    Strategy.derefMulticastFace s.faceTable == some ingress &&
    match s.pit.findAllDataMatches env.sha256 d with
    | [id] => Strategy.usesMulticast env.face (Strategy.pendingDownstreams env s id ingress)
    | _ => false

/-- **A Data is not sent back to a face that is not ad hoc** exactly when it is not returned through
    the multicast face. -/
theorem onIncomingData_not_returned_iff (env : Env) (s : State) (ingress : FacePtr) (d : Data)
    (nonces : Nat → List UInt8) (rate : FacePtr → Int) (hs : s.pit.WellFormed) :
    ((s.beginEvent.onIncomingData env ingress d nonces rate).state.Transmits ingress d →
      (env.face ingress).linkType = .adHoc) ↔ returnsOnMulticast env s ingress d = false := by
  by_cases hlink : (env.face ingress).linkType = .adHoc
  · simp [returnsOnMulticast, hlink]
  have hquiet : ∀ t : State, t.sent = [] → ¬ t.Transmits ingress d := by
    rintro t ht ⟨token, htoken⟩
    rw [ht] at htoken
    cases htoken
  rcases s.beginEvent.onIncomingData_cases env ingress d nonces rate with
    ⟨t, heq, -, hsent, hdropped⟩ | ⟨hscope, id, hmatches, heq⟩ | ⟨hscope, hmany, heq⟩
  · rw [heq]
    have hnot := hquiet t hsent
    rcases hdropped with hscope | hnone
    · simp [returnsOnMulticast, hscope, hnot]
    · rw [beginEvent_pit] at hnone
      simp [returnsOnMulticast, hnone, hnot]
  · rw [heq]
    rw [beginEvent_pit] at hmatches
    obtain ⟨e, he, hmatch⟩ := mem_findAllDataMatches (hmatches ▸ mem_singleton_self id)
    have hstart := hquiet (s.beginEvent.cacheData env d) rfl
    have hfaces : singleMatchFaces env ingress (s.beginEvent.cacheData env d) id
        = singleMatchFaces env ingress s id := rfl
    have hmem := ingress_mem_singleMatchFaces ingress he hlink
    cases hcomplete : completesSingleMatch env ingress (s.beginEvent.cacheData env d) d id with
    | false =>
      -- nothing is sent, because of the segments or because of the pointer
      have hnot := hquiet _ (onSingleMatch_incomplete nonces rate
        (s := s.beginEvent.cacheData env d) he (hs.get he) hmatch hcomplete)
      simp only [hnot, false_implies, true_iff]
      rw [returnsOnMulticast, hmatches]
      by_contra hreturns
      simp only [Bool.not_eq_false, Bool.and_eq_true, beq_iff_eq] at hreturns
      obtain ⟨⟨⟨⟨-, hprep⟩, -⟩, hderef⟩, -⟩ := hreturns
      have hcan : canSendToAll env s.faceTable (pendingDownstreams env s id ingress) = true := by
        simp [canSendToAll, hderef]
      rw [completesSingleMatch, hprep] at hcomplete
      exact absurd (hcan.symm.trans hcomplete) (by simp)
    | true =>
      obtain ⟨hsends, -, -⟩ := onSingleMatch_spec nonces rate
        (s := s.beginEvent.cacheData env d) he (hs.get he) hmatch hcomplete
      have hprep : preparesSegments d = true := (Bool.and_eq_true_iff.1 hcomplete).1
      rw [hsends, hfaces, hmem]
      simp only [hstart, false_or, true_and, cacheData_faceTable, beginEvent_faceTable, hlink,
        imp_false, returnsOnMulticast, hscope, hprep, hmatches]
      constructor
      · grind
      · grind
  · rw [heq]
    rw [beginEvent_pit] at hmany
    obtain ⟨hsends, -, -⟩ := onMultipleMatches_spec env ingress d
      (s.beginEvent.pit.findAllDataMatches env.sha256 d) (s.beginEvent.cacheData env d)
    have hnot := ingress_notMem_multiMatchFaces (s := s.beginEvent.cacheData env d) ingress
      (s.beginEvent.pit.findAllDataMatches env.sha256 d) hlink
    have hstart := hquiet (s.beginEvent.cacheData env d) rfl
    rw [hsends]
    have hshape : returnsOnMulticast env s ingress d = false := by
      rw [returnsOnMulticast]
      cases hlist : s.pit.findAllDataMatches env.sha256 d with
      | nil => simp
      | cons a as => grind
    refine ⟨fun _ => hshape, ?_⟩
    rintro - (h | ⟨-, h, -⟩)
    · exact absurd h hstart
    · exact absurd h hnot

/-- The reply to two wireless consumers that comes from a wired upstream is not sent back there. -/
theorem onIncomingData_not_returned_router :
    Router.sharing.pit.WellFormed ∧
      ∃ d, (Router.dataFrame ["a"] []).decodeData = some d ∧
        ((Router.sharing.beginEvent.onIncomingData Router.env 5 d (fun _ => []) (fun _ => 540)
          ).state.Transmits 5 d → (Router.env.face 5).linkType = .adHoc) := by
  have hwf := run_wellFormed run_sharing (init_wellFormed 0 none 100)
  exact ⟨hwf, _, rfl, (onIncomingData_not_returned_iff env sharing 5 _ _ _ hwf).2 (by decide)⟩

/-- When that reply arrives on the multicast face, it is sent out of it again. -/
theorem onIncomingData_returned_on_multicast :
    ∃ d, (Router.dataFrame ["a"] []).decodeData = some d ∧
      (Router.sharing.beginEvent.onIncomingData Router.env 4 d (fun _ => []) (fun _ => 540)
        ).state.Transmits 4 d ∧ (Router.env.face 4).linkType ≠ .adHoc :=
  ⟨_, rfl, ⟨none, by decide⟩, by decide⟩

end NdnMulticast.Nfd.State
