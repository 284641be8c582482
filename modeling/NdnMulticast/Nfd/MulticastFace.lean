/-
  The pointer to the wireless Ethernet multicast face that `FaceTable` keeps next to its map,
  and its use in `Strategy::sendDataToAll`.

  Nothing clears the pointer when the face goes and nothing checks it, so whether it may be
  dereferenced is a question about whole runs of the table.
-/

import NdnMulticast.Nfd.DataDelivery

namespace NdnMulticast.Nfd

open Lib Ndn Option Router

/-! ## The table and its reader -/

/-- An operation on the face table, or `sendDataToAll` for the given pending downstreams. -/
inductive TableEvent where
  | op (o : FaceTable.Op)
  | sendDataToAll (pending : List FacePtr)
deriving DecidableEq, Repr

/-- Pending downstreams are in the table, for the records of a face go with the face. -/
def tableStep (face : FacePtr → Face) (t : FaceTable) : TableEvent → Option FaceTable
  | .op o => t.step face o
  | .sendDataToAll pending => if ∀ p ∈ pending, p ∈ t.ptrs then some t else none

namespace FaceTable

/-- `getWirelessEtherMulticastFace()` is null or a face in the table. -/
def PointerOk (t : FaceTable) : Prop := ∀ m ∈ t.wirelessEtherMulticastFace, m ∈ t.ptrs

/-- If `sendDataToAll` dereferences the pointer, it is not null. -/
def DerefOk (face : FacePtr → Face) (t : FaceTable) : TableEvent → Prop
  | .op _ => True
  | .sendDataToAll pending =>
    Strategy.usesMulticast face pending = true → t.wirelessEtherMulticastFace ≠ none

/-- A closed face is not the recorded one, and the multicast branch is taken only with a wireless
    multicast face in the table. -/
def keepsMulticastFace (face : FacePtr → Face) (t : FaceTable) : TableEvent → Bool
  | .op (.closed p) => t.wirelessEtherMulticastFace != some p
  | .op _ => true
  | .sendDataToAll pending =>
    !Strategy.usesMulticast face pending || t.ptrs.any fun p => (face p).isWirelessMulticast

/-- Until the recorded face is closed, the pointer and the wireless multicast faces agree. -/
structure MulticastRecorded (face : FacePtr → Face) (t : FaceTable) : Prop where
  mem : ∀ m ∈ t.wirelessEtherMulticastFace, m ∈ t.ptrs ∧ (face m).isWirelessMulticast = true
  ne_none : ∀ p ∈ t.ptrs, (face p).isWirelessMulticast = true → t.wirelessEtherMulticastFace ≠ none

variable {face : FacePtr → Face} {t t' : FaceTable}

theorem MulticastRecorded.pointerOk (h : MulticastRecorded face t) : t.PointerOk :=
  fun m hm => (h.mem m hm).1

theorem MulticastRecorded.ne_none_iff (h : MulticastRecorded face t) :
    t.wirelessEtherMulticastFace ≠ none ↔
      (t.ptrs.any fun p => (face p).isWirelessMulticast) = true := by
  rw [List.any_eq_true]
  constructor
  · intro hne
    obtain ⟨m, hm⟩ := ne_none_iff_exists'.1 hne
    exact ⟨m, h.mem m hm⟩
  · rintro ⟨p, hp, hmulti⟩
    exact h.ne_none p hp hmulti

theorem multicastRecorded_init (face : FacePtr → Face) : MulticastRecorded face (.init none) where
  mem := by simp [init]
  ne_none := by simp [init, ptrs]

variable (h : MulticastRecorded face t)
include h

theorem MulticastRecorded.added {p : FacePtr} (hadd : Added face t t' p) :
    MulticastRecorded face t' := by
  obtain ⟨hptrs, hrec⟩ := hadd
  by_cases hmulti : (face p).isWirelessMulticast = true
  · -- the new face is the recorded one
    have hnew : t'.wirelessEtherMulticastFace = some p := by simp [hrec, recordFace, hmulti]
    refine ⟨?_, fun _ _ _ => by simp [hnew]⟩
    intro m hm
    obtain rfl : p = m := mem_unique hnew hm
    exact ⟨(hptrs p).2 (Or.inl rfl), hmulti⟩
  · have hsame : t'.wirelessEtherMulticastFace = t.wirelessEtherMulticastFace := by
      simp [hrec, recordFace, hmulti]
    constructor
    · intro m hm
      obtain ⟨hmem, hm'⟩ := h.mem m (hsame ▸ hm)
      exact ⟨(hptrs m).2 (Or.inr hmem), hm'⟩
    · intro q hq hqmulti
      rw [hsame]
      rcases (hptrs q).1 hq with rfl | hq
      · exact absurd hqmulti hmulti
      · exact h.ne_none q hq hqmulti

theorem MulticastRecorded.pointerOk_closed_iff {p : FacePtr}
    (hptrs : ∀ q, q ∈ t'.ptrs ↔ q ∈ t.ptrs ∧ q ≠ p)
    (hrec : t'.wirelessEtherMulticastFace = t.wirelessEtherMulticastFace) :
    t'.PointerOk ↔ t.wirelessEtherMulticastFace ≠ some p := by
  constructor
  · intro hok hp
    exact ((hptrs p).1 (hok p (hrec.trans hp))).2 rfl
  · intro hne m hm
    have hm : t.wirelessEtherMulticastFace = some m := hrec.symm.trans hm
    refine (hptrs m).2 ⟨(h.mem m hm).1, ?_⟩
    rintro rfl
    exact hne hm

theorem MulticastRecorded.closed {p : FacePtr} (hptrs : ∀ q, q ∈ t'.ptrs ↔ q ∈ t.ptrs ∧ q ≠ p)
    (hrec : t'.wirelessEtherMulticastFace = t.wirelessEtherMulticastFace)
    (hne : t.wirelessEtherMulticastFace ≠ some p) : MulticastRecorded face t' where
  mem := fun m hm =>
    ⟨(h.pointerOk_closed_iff hptrs hrec).2 hne m hm, (h.mem m (hrec.symm.trans hm)).2⟩
  ne_none := fun q hq hmulti => hrec ▸ h.ne_none q ((hptrs q).1 hq).1 hmulti

end FaceTable

open FaceTable

section

variable {face : FacePtr → Face} {t t' : FaceTable} {e : TableEvent}

theorem tableStep_send {pending : List FacePtr}
    (h : tableStep face t (.sendDataToAll pending) = some t') : t' = t := by
  obtain ⟨-, h⟩ := ite_none_right_eq_some.1 h
  exact (some.inj h).symm

theorem keepsMulticastFace_of_not_closed {o : FaceTable.Op} (h : ∀ p, o ≠ .closed p) :
    keepsMulticastFace face t (.op o) = true := by
  cases o with
  | closed p => exact absurd rfl (h p)
  | _ => rfl

theorem tableStep_recorded (hinv : MulticastRecorded face t)
    (hok : keepsMulticastFace face t e = true) (h : tableStep face t e = some t') :
    MulticastRecorded face t' := by
  cases e with
  | sendDataToAll pending => exact tableStep_send h ▸ hinv
  | op o =>
    rcases step_cases h with ⟨-, rfl | ⟨p, hadd⟩⟩ | ⟨p, rfl, -, hptrs, hrec⟩
    · exact hinv
    · exact hinv.added hadd
    · exact hinv.closed hptrs hrec (by simpa [keepsMulticastFace] using hok)

/-- The condition says of one step that it dereferences no null pointer and
    leaves none dangling. -/
theorem keepsMulticastFace_iff (hinv : MulticastRecorded face t)
    (h : tableStep face t e = some t') :
    keepsMulticastFace face t e = true ↔ DerefOk face t e ∧ t'.PointerOk := by
  cases e with
  | sendDataToAll pending =>
    have hptr : t'.PointerOk := tableStep_send h ▸ hinv.pointerOk
    simp only [keepsMulticastFace, DerefOk, Bool.or_eq_true, Bool.not_eq_true', hptr, and_true,
      ← hinv.ne_none_iff]
    cases Strategy.usesMulticast face pending <;> simp
  | op o =>
    rcases step_cases h with ⟨hopen, hcases⟩ | ⟨p, rfl, -, hptrs, hrec⟩
    · have hptr : t'.PointerOk := by
        rcases hcases with rfl | ⟨p, hadd⟩
        · exact hinv.pointerOk
        · exact (hinv.added hadd).pointerOk
      exact iff_of_true (keepsMulticastFace_of_not_closed hopen) ⟨trivial, hptr⟩
    · simp [keepsMulticastFace, DerefOk, hinv.pointerOk_closed_iff hptrs hrec]

end

/-- A pointer that is not null to begin with names a face that is not there. -/
theorem pointerOk_init_iff (garbage : Option FacePtr) :
    (FaceTable.init garbage).PointerOk ↔ garbage = none := by
  cases garbage <;> simp [PointerOk, init, ptrs]

/-- `DerefOk` is what keeps `sendDataToAll` from undefined behaviour. -/
theorem Strategy.sendDataToAll_fault_eq_none_iff_derefOk (env : Env) (rate : FacePtr → Int)
    {s : State} (hptr : s.faceTable.PointerOk) (id : EntryId) (inFace : FacePtr) (d : Data) :
    (sendDataToAll env rate s id inFace d).fault = none ↔
      DerefOk env.face s.faceTable (.sendDataToAll (pendingDownstreams env s id inFace)) := by
  have hderef : derefMulticastFace s.faceTable = s.faceTable.wirelessEtherMulticastFace := by
    unfold derefMulticastFace
    cases hm : s.faceTable.wirelessEtherMulticastFace with
    | none => rfl
    | some m => simp [Option.filter, hptr m hm]
  rw [sendDataToAll_fault_eq_none_iff, canSendToAll, hderef, DerefOk, Bool.or_eq_true,
    Bool.not_eq_true', isSome_iff_ne_none]
  cases usesMulticast env.face (pendingDownstreams env s id inFace) <;> simp

/-- **The multicast pointer.**  Along a run from the constructor the pointer is always null or a
    face in the table, and is not null where `sendDataToAll` dereferences it, exactly if the
    constructor happened to find null, the recorded face is never closed, and the multicast branch
    is never taken without a wireless multicast face in the table.  In a daemon that has come to
    such a table, that decides whether `sendDataToAll` completes. -/
theorem run_multicastFace_iff (face : FacePtr → Face) (garbage : Option FacePtr)
    (es : List TableEvent) (t : FaceTable) :
    ((Run (tableStep face) (fun t e => t.PointerOk ∧ DerefOk face t e) (.init garbage) es t ∧
      t.PointerOk) ↔
    (garbage = none ∧
      Run (tableStep face) (fun t e => keepsMulticastFace face t e = true) (.init garbage) es t)) ∧
    ∀ (env : Env) (s : State), env.face = face → s.faceTable = t → t.PointerOk →
      ∀ rate id inFace d, (Strategy.sendDataToAll env rate s id inFace d).fault = none ↔
        DerefOk face t (.sendDataToAll (Strategy.pendingDownstreams env s id inFace)) := by
  refine ⟨(and_iff_right_of_imp ?_).symm.trans (and_congr_right ?_), ?_⟩
  · rintro ⟨hrun, ht⟩
    rw [← pointerOk_init_iff]
    cases hrun with
    | nil => exact ht
    | cons h _ _ => exact h.1
  · rintro rfl
    exact Run.forall_iff_of_step (J := MulticastRecorded face) (fun _ hinv => hinv.pointerOk)
      (fun _ _ _ hinv h => keepsMulticastFace_iff hinv h)
      (fun _ _ _ hinv hok h => tableStep_recorded hinv hok h) (multicastRecorded_init face)
  · rintro env s rfl rfl hptr rate id inFace d
    exact Strategy.sendDataToAll_fault_eq_none_iff_derefOk env rate hptr id inFace d

instance (t : FaceTable) : Decidable t.PointerOk :=
  decidable_of_iff (∀ m, t.wirelessEtherMulticastFace = some m → m ∈ t.ptrs) Iff.rfl

instance (face : FacePtr → Face) (t : FaceTable) (e : TableEvent) : Decidable (DerefOk face t e) :=
  match e with
  | .op _ => .isTrue trivial
  | .sendDataToAll pending =>
    inferInstanceAs (Decidable (Strategy.usesMulticast face pending = true →
      t.wirelessEtherMulticastFace ≠ none))

/-- The pointer is unsound from the start if the memory was not zero; it dangles once the multicast
    face is closed; and without a multicast face two wireless consumers of one name make
    `sendDataToAll` dereference null. -/
theorem multicastFace_unsound :
    ¬ (FaceTable.init (some 7)).PointerOk ∧
    (∃ t, Run (tableStep Router.face) (fun _ _ => True) (.init none)
      [.op (.add 4), .op (.closed 4)] t ∧ ¬ t.PointerOk) ∧
    ∃ t, Run (tableStep Router.face) (fun _ _ => True) (.init none)
      [.op (.add 2), .op (.add 3), .sendDataToAll [2, 3]] t ∧
        ¬ DerefOk Router.face t (.sendDataToAll [2, 3]) := by
  refine ⟨by decide, ?_, ?_⟩ <;> exact Run.exists_of_decide _ (by decide) fun _ _ ht => ht

/-! ## Which downstreams it serves, and at which rate -/

namespace Strategy

variable (face : FacePtr → Face) (rate : FacePtr → Int) (pending : List FacePtr)

def wirelessFaces : List FacePtr :=
  pending.filter fun p => (face p).isWireless

/-- The wireless downstreams whose rate is asked for before the loop is left. -/
def scanned : List FacePtr :=
  match wirelessFaces face pending with
  | p :: q :: _ => if (face p).remoteHost == multicastGroup then [p] else [p, q]
  | ps => ps

theorem scanWireless_wirelessFaces (ps : List FacePtr) (count thr : Int) :
    scanWireless face rate ps count thr =
      scanWireless face rate (wirelessFaces face ps) count thr := by
  induction ps generalizing count thr with
  | nil => rfl
  | cons p ps ih =>
    simp only [wirelessFaces, List.filter_cons, scanWireless]
    split
    · rename_i hp
      simp only [scanWireless, if_pos hp]
      split
      · rfl
      · exact ih _ _
    · exact ih _ _

/-- The loop is left at the first wireless face if it is the multicast one, else at the second. -/
theorem scanWireless_spec :
    (0 < (scanWireless face rate pending (-1) initialRateThreshold).1 ↔
      2 ≤ (wirelessFaces face pending).length ∨
        ∃ p ∈ pending, (face p).isWirelessMulticast = true) ∧
    ∀ x, (scanWireless face rate pending (-1) initialRateThreshold).2 ≤ x ↔
      initialRateThreshold ≤ x ∨ ∃ q ∈ scanned face pending, rate q ≤ x := by
  have hmem : (∃ p ∈ pending, (face p).isWirelessMulticast = true) ↔
      ∃ p ∈ wirelessFaces face pending, (face p).remoteHost = multicastGroup := by
    simp [wirelessFaces, Face.isWirelessMulticast, and_assoc]
  have hall : ∀ p ∈ wirelessFaces face pending, (face p).isWireless = true :=
    fun p hp => (List.mem_filter.1 hp).2
  rw [hmem, scanWireless_wirelessFaces, scanned]
  match wirelessFaces face pending, hall with
  | [], _ => simp [scanWireless]
  | [p], hall =>
    have hp := hall p (.head _)
    by_cases hm : (face p).remoteHost = multicastGroup
    · simp [scanWireless, hp, hm]
      grind
    · simp [scanWireless, hp, hm]
      grind
  | p :: q :: ps, hall =>
    have hp := hall p (.head _)
    have hq := hall q (.tail _ (.head _))
    by_cases hm : (face p).remoteHost = multicastGroup
    · simp [scanWireless, hp, hm]
      grind
    · simp [scanWireless, hp, hq, hm]
      grind

/-- The minimum is over the downstreams the loop comes to. -/
theorem rateThreshold_le_iff (pending : List FacePtr) :
    (∀ p ∈ wirelessFaces face pending,
        (scanWireless face rate pending (-1) initialRateThreshold).2 ≤ rate p) ↔
      ∀ p ∈ wirelessFaces face pending, p ∉ scanned face pending →
        initialRateThreshold ≤ rate p ∨ ∃ q ∈ scanned face pending, rate q ≤ rate p := by
  simp only [(scanWireless_spec face rate pending).2]
  constructor
  · intro h p hp _
    exact h p hp
  · intro h p hp
    by_cases hscan : p ∈ scanned face pending
    · exact Or.inr ⟨p, hscan, le_rfl⟩
    · exact h p hp hscan

/-- **The rate that is set** is at most that of each downstream which the multicast face replaces,
    unless one that the loop does not come to is slower than all it looks at. -/
theorem sendDataToAll_rate_le_iff {env : Env} {s : State} {id : EntryId} {inFace : FacePtr}
    {pending : List FacePtr} (hpending : pendingDownstreams env s id inFace = pending)
    (huses : usesMulticast env.face pending = true) {multicast : FacePtr}
    (hderef : derefMulticastFace s.faceTable = some multicast) (d : Data) :
    ∃ r, sendDataToAll env rate s id inFace d =
        ⟨(multicast :: pending.filter fun p => !(env.face p).isWireless).foldl
          (fun s p => sendData env s id d none p)
          (s.send (.setRate (env.face multicast).localHost r)), none⟩ ∧
      ((∀ p ∈ wirelessFaces env.face pending, r ≤ rate p) ↔
        ∀ p ∈ wirelessFaces env.face pending, p ∉ scanned env.face pending →
          initialRateThreshold ≤ rate p ∨ ∃ q ∈ scanned env.face pending, rate q ≤ rate p) := by
  refine ⟨_, ?_, rateThreshold_le_iff env.face rate pending⟩
  have hcount : 0 < (scanWireless env.face rate pending (-1) initialRateThreshold).1 := by
    rw [scanWireless_fst env.face rate (fun _ => 0) pending (-1) _ initialRateThreshold]
    exact of_decide_eq_true huses
  rw [sendDataToAll, hpending, if_pos hcount, hderef]
  rfl

/-- The slower of two consumers is the second. -/
theorem sendDataToAll_rate_router :
    pendingDownstreams Router.env Router.sharing 0 5 = [2, 3] ∧
      ∃ d ∈ (Router.dataFrame ["a"] []).decodeData, ∃ r t,
        sendDataToAll Router.env (fun p => if p = 3 then 60 else 540) Router.sharing 0 5 d =
          ⟨[4].foldl (fun s p => sendData Router.env s 0 d none p) t, none⟩ ∧
        t = Router.sharing.send (.setRate wirelessHost r) ∧ r ≤ 60 := by
  have hpending : pendingDownstreams Router.env Router.sharing 0 5 = [2, 3] := by decide
  obtain ⟨r, hsend, hrate⟩ := sendDataToAll_rate_le_iff (fun p => if p = 3 then 60 else 540)
    hpending (by decide) (show derefMulticastFace Router.sharing.faceTable = some 4 by decide)
    ((Router.dataFrame ["a"] []).decodeData.get (by decide))
  exact ⟨hpending, _, Option.get_mem _, r, _, hsend, rfl, hrate.2 (by decide) 3 (by decide)⟩

/-- The router with a third consumer behind the wireless interface in place of face 6. -/
def crowded : Env :=
  { Router.env with face := fun p => if p = 6 then
      ⟨.nonLocal, .pointToPoint, wirelessHost, "02:00:00:00:00:06"⟩ else Router.face p }

/-- The third has the lowest rate, and is not asked about. -/
theorem sendDataToAll_rate_above :
    ∃ s, Run (step crowded) (fun _ _ => True) Router.start
        (Router.shared ++ [Router.interest 6 ["a"] 3 []]) s ∧
      6 ∈ pendingDownstreams crowded s 0 5 ∧
      ∃ d ∈ (Router.dataFrame ["a"] []).decodeData, .setRate wirelessHost 540 ∈
        (sendDataToAll crowded (fun p => if p = 6 then 60 else 540) s 0 5 d).state.sent := by
  exact Run.exists_of_decide _ (by decide) fun _ _ ht => ht

/-- What is sent serves the pending downstreams once each: the wired ones on their own faces, the
    wireless ones all by the multicast face, or at most one by itself. -/
structure Serves (face : FacePtr → Face) (multicast : FacePtr) (pending sent : List FacePtr) :
    Prop where
  nodup : sent.Nodup
  wired : sent.filter (fun p => !(face p).isWireless) = pending.filter fun p => !(face p).isWireless
  wireless : usesMulticast face pending = true ∧ wirelessFaces face sent = [multicast] ∨
    usesMulticast face pending = false ∧ wirelessFaces face sent = wirelessFaces face pending ∧
      (wirelessFaces face pending).length ≤ 1

theorem pendingDownstreams_nodup (env : Env) (s : State) (id : EntryId) (inFace : FacePtr) :
    (pendingDownstreams env s id inFace).Nodup := by
  unfold pendingDownstreams
  split
  · exact List.nodup_nil
  · next e _ =>
    rw [(List.perm_insertionSort _ _).nodup_iff]
    exact e.inFaces_nodup.sublist (List.filter_sublist.map _)

/-- **Every pending downstream is served once**, and the multicast face is used iff two of them are
    wireless or a multicast face is one of them. -/
theorem sendDataToAll_serves {env : Env} {s : State} {id : EntryId} {e : Entry}
    (he : s.pit.get id = some e) {inFace : FacePtr} {pending : List FacePtr}
    (hpending : pendingDownstreams env s id inFace = pending) (d : Data) {multicast : FacePtr}
    (hderef : derefMulticastFace s.faceTable = some multicast)
    (hmulti : (env.face multicast).isWirelessMulticast = true) :
    (∀ p, p ∈ pending ↔ ∃ r ∈ e.inRecords, isPending env s inFace r = true ∧ r.face = p) ∧
      (∃ t sent, (t = s ∨ ∃ host r, t = s.send (.setRate host r)) ∧
        sendDataToAll env rate s id inFace d =
          ⟨sent.foldl (fun s p => sendData env s id d none p) t, none⟩ ∧
        Serves env.face multicast pending sent) ∧
      (usesMulticast env.face pending = true ↔
        2 ≤ (wirelessFaces env.face pending).length ∨
          ∃ p ∈ pending, (env.face p).isWirelessMulticast = true) := by
  subst hpending
  have hnodup := pendingDownstreams_nodup env s id inFace
  have huses := decide_eq_true_iff.trans
    (scanWireless_spec env.face (fun _ => 0) (pendingDownstreams env s id inFace)).1
  refine ⟨fun p => State.mem_pendingDownstreams inFace he, ?_, huses⟩
  obtain ⟨hnot, -⟩ | ⟨-, t, ht, hsend⟩ := sendDataToAll_cases env rate s id inFace d
  · simp [canSendToAll, hderef] at hnot
  refine ⟨t, _, ht, hsend, ?_⟩
  have hwireless : (env.face multicast).isWireless = true := (Bool.and_eq_true_iff.1 hmulti).1
  unfold egressFaces
  split
  · rename_i hyes
    rw [hderef]
    refine ⟨List.nodup_cons.2 ⟨by simp [hwireless], hnodup.filter _⟩, ?_, Or.inl ⟨hyes, ?_⟩⟩
    · simp [hwireless]
    · simp [wirelessFaces, hwireless]
  · rename_i hno
    refine ⟨hnodup, rfl, Or.inr ⟨Bool.not_eq_true _ ▸ hno, rfl, ?_⟩⟩
    have hfew := mt huses.2 hno
    omega

theorem sendDataToAll_serves_router :
    derefMulticastFace Router.sharing.faceTable = some 4 ∧
      ∃ d ∈ (Router.dataFrame ["a"] []).decodeData, ∃ t sent,
        sendDataToAll Router.env (fun _ => 540) Router.sharing 0 5 d =
          ⟨sent.foldl (fun s p => sendData Router.env s 0 d none p) t, none⟩ ∧
        Serves Router.face 4 [2, 3] sent := by
  obtain ⟨-, ⟨t, sent, -, hsend, hserves⟩, -⟩ := sendDataToAll_serves (fun _ => 540)
    (some_get (x := Router.sharing.pit.get 0) (by decide)).symm
    (show pendingDownstreams Router.env Router.sharing 0 5 = [2, 3] by decide)
    ((Router.dataFrame ["a"] []).decodeData.get (by decide))
    (show derefMulticastFace Router.sharing.faceTable = some 4 by decide) (by decide)
  exact ⟨by decide, _, Option.get_mem _, t, sent, hsend, hserves⟩

end Strategy

end NdnMulticast.Nfd
