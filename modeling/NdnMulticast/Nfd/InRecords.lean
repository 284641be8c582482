/-
  An in-record is served by one Data at most.  It is identified by its entry and its serial
  number, which is not reused.

  The multicast branch of `sendDataToAll` deletes the in-record of the multicast face in place of
  those it serves, so this fails for wireless downstreams.
-/

import NdnMulticast.Nfd.DataDelivery

namespace NdnMulticast.Nfd

open Lib Ndn List Option Strategy State

namespace Pit

variable {N : Interest → Prop} {p q : Pit}

/-! ## Serial numbers -/

/-- The entry has an in-record with the serial number. -/
def HasRecord (p : Pit) (id : EntryId) (serial : Nat) : Prop :=
  ∃ e, p.get id = some e ∧ ∃ r ∈ e.inRecords, r.serial = serial

/-- Within an entry serial numbers are distinct, and all are below the next one. -/
def SerialsUnique (p : Pit) : Prop :=
  p.All fun _ e => (e.inRecords.map InRecord.serial).Nodup ∧
    ∀ r ∈ e.inRecords, r.serial < p.nextSerial

/-- The in-record has existed and is not in the entry any more. -/
def Gone (id : EntryId) (serial : Nat) (p : Pit) : Prop :=
  serial < p.nextSerial ∧ ¬ p.HasRecord id serial

theorem insertOrUpdateInRecord_serials (e : Entry) (face : FacePtr) (i : Interest)
    (nonce : List UInt8) (now : Int) (serial : Nat) :
    (e.insertOrUpdateInRecord face i nonce now serial).inRecords.map InRecord.serial
      = e.inRecords.map InRecord.serial ∨
    (e.insertOrUpdateInRecord face i nonce now serial).inRecords.map InRecord.serial
      = serial :: e.inRecords.map InRecord.serial := by
  unfold Entry.insertOrUpdateInRecord
  split
  · left
    rw [List.map_map]
    refine map_congr_left fun r _ => ?_
    simp only [Function.comp]
    split
    · rfl
    · rfl
  · right
    rfl

theorem Change.serials (h : Change N p q) :
    p.nextSerial ≤ q.nextSerial ∧ ∀ id e', q.get id = some e' → ∀ r' ∈ e'.inRecords,
      p.HasRecord id r'.serial ∨ p.nextSerial ≤ r'.serial := by
  have hkept : ∀ (id : EntryId) (e e' : Entry), p.get id = some e →
      e'.inRecords ⊆ e.inRecords → ∀ r' ∈ e'.inRecords, p.HasRecord id r'.serial ∨
        p.nextSerial ≤ r'.serial :=
    fun id e e' he hsub r' hr' => Or.inl ⟨e, he, r', hsub hr', rfl⟩
  cases h with
  | modify id f hf =>
    refine ⟨Nat.le_refl _, fun j e' he' => ?_⟩
    rw [get_modify] at he'
    obtain ⟨e, he, rfl⟩ := map_eq_some_iff.1 he'
    refine hkept j e _ he ?_
    split
    · exact (hf e).inRecords.subset
    · exact fun _ hr => hr
  | inRecord id face i nonce now =>
    refine ⟨Nat.le_succ _, fun j e' he' r' hr' => ?_⟩
    rw [get_insertOrUpdateInRecord] at he'
    obtain ⟨e, he, rfl⟩ := map_eq_some_iff.1 he'
    split at hr'
    · -- the entry the record is added to
      have hserial := mem_map_of_mem (f := InRecord.serial) hr'
      rcases insertOrUpdateInRecord_serials e face i nonce now p.nextSerial with h | h
      · grind
      · grind
    · exact Or.inl ⟨e, he, r', hr', rfl⟩
  | insertNew i hi =>
    refine ⟨Nat.le_refl _, fun j e' he' r' hr' => ?_⟩
    rw [get_insertNew] at he'
    split at he'
    · obtain rfl := some.inj he'
      cases hr'
    · exact Or.inl ⟨e', he', r', hr', rfl⟩
  | erase id =>
    refine ⟨Nat.le_refl _, fun j e' he' r' hr' => ?_⟩
    rw [get_erase] at he'
    split at he'
    · cases he'
    · exact Or.inl ⟨e', he', r', hr', rfl⟩
  | deleteInOutRecords face =>
    refine ⟨Nat.le_refl _, fun j e' he' => ?_⟩
    rw [get_deleteInOutRecords] at he'
    obtain ⟨e, he, rfl⟩ := map_eq_some_iff.1 he'
    exact hkept j e _ he fun r hr => (mem_filter.1 hr).1

variable {id : EntryId}

theorem Gone.changes {serial : Nat} (h : p.Gone id serial) (hchanges : Changes N p q) :
    q.Gone id serial := by
  refine hchanges.invariant (I := Gone id serial) (fun p q hp hchange => ?_) h
  obtain ⟨hnext, hrecords⟩ := hchange.serials
  refine ⟨Nat.lt_of_lt_of_le hp.1 hnext, ?_⟩
  rintro ⟨e', he', r', hr', rfl⟩
  rcases hrecords id e' he' r' hr' with hold | hnew
  · exact hp.2 hold
  · exact absurd hp.1 (Nat.not_lt.2 hnew)

theorem nextSerial_le (hchanges : Changes N p q) : p.nextSerial ≤ q.nextSerial :=
  hchanges.invariant (I := fun q => p.nextSerial ≤ q.nextSerial)
    (fun _ _ hle hchange => Nat.le_trans hle hchange.serials.1) (Nat.le_refl _)

variable (h : p.SerialsUnique)
include h

theorem SerialsUnique.change (hchange : Change N p q) : q.SerialsUnique := by
  have hsub : ∀ {e e' : Entry}, e'.inRecords.Sublist e.inRecords →
      ((e.inRecords.map InRecord.serial).Nodup ∧ ∀ r ∈ e.inRecords, r.serial < p.nextSerial) →
      (e'.inRecords.map InRecord.serial).Nodup ∧ ∀ r ∈ e'.inRecords, r.serial < p.nextSerial :=
    fun hs he => ⟨he.1.sublist (hs.map _), fun r hr => he.2 r (hs.subset hr)⟩
  cases hchange with
  | modify id f hf =>
    exact All.modify h id (fun e he => hsub (hf e).inRecords he) fun _ _ _ he => he
  | inRecord id face i nonce now =>
    have hrecord : (p.modify id fun e =>
        e.insertOrUpdateInRecord face i nonce now p.nextSerial).All fun _ e =>
          (e.inRecords.map InRecord.serial).Nodup ∧
            ∀ r ∈ e.inRecords, r.serial < p.nextSerial + 1 := by
      refine All.modify h id (fun e he => ?_)
        fun _ _ _ he => ⟨he.1, fun r hr => Nat.lt_succ_of_lt (he.2 r hr)⟩
      have hlt : ∀ n ∈ e.inRecords.map InRecord.serial, n < p.nextSerial := by
        intro n hn
        obtain ⟨r, hr, rfl⟩ := mem_map.1 hn
        exact he.2 r hr
      rcases insertOrUpdateInRecord_serials e face i nonce now p.nextSerial with hs | hs
      · grind
      -- the new serial number is above all others
      refine ⟨?_, fun r hr => ?_⟩
      · grind
      · have hmem := mem_map_of_mem (f := InRecord.serial) hr
        rw [hs, mem_cons] at hmem
        rcases hmem with heq | hmem
        · exact heq ▸ Nat.lt_succ_self _
        · exact Nat.lt_succ_of_lt (hlt _ hmem)
    exact hrecord
  | insertNew i hi => exact All.insertNew h ⟨nodup_nil, fun r hr => by cases hr⟩
  | erase id => exact All.erase h id
  | deleteInOutRecords face =>
    intro x hx
    obtain ⟨y, hy, rfl⟩ := mem_map.1 hx
    exact hsub filter_sublist (h y hy)

theorem SerialsUnique.changes (hchanges : Changes N p q) : q.SerialsUnique :=
  hchanges.invariant (fun _ _ hp hchange => hp.change hchange) h

theorem SerialsUnique.eq {e : Entry} (he : p.get id = some e) {r r' : InRecord}
    (hr : r ∈ e.inRecords) (hr' : r' ∈ e.inRecords) (hserial : r.serial = r'.serial) : r = r' :=
  inj_on_of_nodup_map (h.get he).1 hr hr' hserial

end Pit

/-! ## Serving an in-record -/

/-- The Data went out for the downstream of an in-record: on its face, or on the multicast face. -/
def Carried (env : Env) (s s' : State) (ingress : FacePtr) (d : Data) (id : EntryId)
    (r : InRecord) : Prop :=
  s'.Transmits r.face d ∨
    (s.pit.findAllDataMatches env.sha256 d = [id] ∧
      Strategy.isPending env s ingress r = true ∧ (env.face r.face).isWireless = true ∧
      Strategy.usesMulticast env.face (Strategy.pendingDownstreams env s id ingress) = true ∧
      ∃ multicast ∈ s.faceTable.wirelessEtherMulticastFace, s'.Transmits multicast d)

instance (env : Env) (s s' : State) (ingress : FacePtr) (d : Data) (id : EntryId) (r : InRecord) :
    Decidable (Carried env s s' ingress d id r) :=
  inferInstanceAs (Decidable (_ ∨ _ ∧ _))

/-- An event from `s` to `s'` serves the in-record of an entry with the serial number. -/
def Served (env : Env) (s s' : State) : Event → EntryId → Nat → Prop
  | .data ingress frame _ _, id, serial =>
    ∃ d ∈ frame.decodeData, id ∈ s.pit.findAllDataMatches env.sha256 d ∧
      ∃ e ∈ s.pit.get id, ∃ r ∈ e.inRecords, r.serial = serial ∧ Carried env s s' ingress d id r
  | _, _, _ => False

instance (env : Env) (s s' : State) (ev : Event) (id : EntryId) (serial : Nat) :
    Decidable (Served env s s' ev id serial) :=
  match ev with
  | .data _ frame _ _ => inferInstanceAs (Decidable (∃ d ∈ frame.decodeData, _))
  | .interest .. | .nack .. | .face _ | .expiry _ | .strategy .. | .markNonces
  | .adjustNonces .. | .tick _ => isFalse fun h => h

variable {env : Env} {s : State} {id : EntryId} {serial : Nat} {ok : State → Event → Prop}
  {es : List Event}

theorem Served.hasRecord {s' : State} {ev : Event} (h : Served env s s' ev id serial) :
    s.pit.HasRecord id serial := by
  cases ev with
  | data ingress frame nonces rate =>
    obtain ⟨d, -, -, e, he, r, hr, hserial, -⟩ := h
    exact ⟨e, he, r, hr, hserial⟩
  | _ => cases h

/-- The Data does not go out on the multicast face in place of another face. -/
def consumesServedData (env : Env) (s : State) (ingress : FacePtr) (d : Data) : Bool :=
  State.isViolatingLocalhost env ingress d.name || !State.preparesSegments d ||
    match s.pit.findAllDataMatches env.sha256 d with
    | [id] =>
      let pending := Strategy.pendingDownstreams env s id ingress
      !Strategy.usesMulticast env.face pending ||
        (Strategy.derefMulticastFace s.faceTable).all fun multicast =>
          !State.canSendData env s.faceTable d multicast ||
            pending.all fun p => !(env.face p).isWireless || p == multicast
    | _ => true

def consumesServed (env : Env) (s : State) : Event → Bool
  | .data ingress frame _ _ => frame.decodeData.all (consumesServedData env s ingress)
  | _ => true

namespace State

variable {env : Env} {s : State} {ingress : FacePtr} {d : Data} {id : EntryId} {e : Entry}
  {r : InRecord}

theorem not_transmits_of_sent_eq_nil {t : State} (ht : t.sent = []) (p : FacePtr) (d : Data) :
    ¬ t.Transmits p d := by
  rintro ⟨token, htoken⟩
  rw [ht] at htoken
  cases htoken

theorem not_carried_of_sent_eq_nil {t : State} (ht : t.sent = []) :
    ¬ Carried env s t ingress d id r := by
  rintro (h | ⟨-, -, -, -, multicast, -, h⟩) <;> exact not_transmits_of_sent_eq_nil ht _ _ h

/-- After a single match the face of a served in-record is an egress face, if the multicast face
    stands in for no other. -/
theorem face_mem_of_carried {s' : State} (hscope : isViolatingLocalhost env ingress d.name = false)
    (hmatches : s.pit.findAllDataMatches env.sha256 d = [id]) (he : s.pit.get id = some e)
    (hr : r ∈ e.inRecords) (hcomplete : completesSingleMatch env ingress s d id = true)
    (hsends : ∀ p, s'.Transmits p d ↔
      p ∈ singleMatchFaces env ingress s id ∧ canSendData env s.faceTable d p = true)
    (hok : consumesServedData env s ingress d = true)
    (hcarried : Carried env s s' ingress d id r) : r.face ∈ singleMatchFaces env ingress s id := by
  rcases hcarried with hown | ⟨-, hpending, hwireless, hmulti, multicast, hface, hsent⟩
  · exact ((hsends r.face).1 hown).1
  obtain ⟨hprep, hcan⟩ := Bool.and_eq_true_iff.1 hcomplete
  obtain ⟨hmem, hcansend⟩ := (hsends multicast).1 hsent
  -- the pointer is good, otherwise the branch would not have completed
  have hderef : derefMulticastFace s.faceTable = some multicast := by
    have hsome : (derefMulticastFace s.faceTable).isSome = true := by
      simpa [canSendToAll, hmulti] using hcan
    obtain ⟨m, hm⟩ := isSome_iff_exists.1 hsome
    have hptr := (filter_eq_some_iff.1 hm).1
    rw [hface] at hptr
    rw [hm, hptr]
  have hwaiting : r.face ∈ pendingDownstreams env s id ingress :=
    (mem_pendingDownstreams ingress he).2 ⟨r, hr, hpending, rfl⟩
  simp only [consumesServedData, hscope, hprep, hmatches, hmulti, hderef, hcansend,
    all_some, Bool.not_true, Bool.false_or, List.all_eq_true] at hok
  have hsame := hok r.face hwaiting
  rw [hwireless, Bool.not_true, Bool.false_or, beq_iff_eq] at hsame
  exact hsame ▸ hmem

theorem onIncomingData_served_gone (nonces : Nat → List UInt8) (rate : FacePtr → Int)
    (hs : s.pit.WellFormed) (hserials : s.pit.SerialsUnique) (hsent : s.sent = [])
    (hid : id ∈ s.pit.findAllDataMatches env.sha256 d) (he : s.pit.get id = some e)
    (hr : r ∈ e.inRecords) (hok : consumesServedData env s ingress d = true)
    (hcarried : Carried env s (s.onIncomingData env ingress d nonces rate).state ingress d id r) :
    ¬ (s.onIncomingData env ingress d nonces rate).state.pit.HasRecord id r.serial := by
  rcases s.onIncomingData_cases env ingress d nonces rate with
    ⟨t, heq, -, hquiet, -⟩ | ⟨hscope, id', hmatches, heq⟩ | ⟨-, -, heq⟩
  · rw [heq] at hcarried
    exact absurd hcarried (not_carried_of_sent_eq_nil (hquiet.trans hsent))
  · obtain rfl : id = id' := by
      rw [hmatches] at hid
      exact mem_singleton.1 hid
    obtain ⟨e', he', hmatch⟩ := mem_findAllDataMatches hid
    obtain rfl : e' = e := mem_unique he' he
    rw [heq] at hcarried ⊢
    cases hcomplete : completesSingleMatch env ingress s d id with
    | false =>
      have hnone := onSingleMatch_incomplete nonces rate (s := s.cacheData env d) he
        (hs.get he) hmatch hcomplete
      exact absurd hcarried (not_carried_of_sent_eq_nil (hnone.trans hsent))
    | true =>
      obtain ⟨hsends, ⟨e'', he'', hrecords⟩, -⟩ := onSingleMatch_spec nonces rate
        (s := s.cacheData env d) he (hs.get he) hmatch hcomplete
      have hfaces : singleMatchFaces env ingress (s.cacheData env d) id
          = singleMatchFaces env ingress s id := rfl
      have hstart := not_transmits_of_sent_eq_nil (t := s.cacheData env d) hsent
      have hmem := face_mem_of_carried hscope hmatches he hr hcomplete
        (fun p => by rw [hsends, hfaces]; simp [hstart]) hok hcarried
      rintro ⟨e₁, he₁, r₁, hr₁, hserial⟩
      obtain rfl := mem_unique he'' he₁
      rw [hrecords, hfaces] at hr₁
      obtain ⟨hold, hkept⟩ := mem_filter.1 hr₁
      -- a record with this serial number is `r`, and `r` was deleted
      obtain rfl := hserials.eq he hold hr hserial
      exact absurd hmem (by simpa using hkept)
  · rw [heq]
    obtain ⟨-, hcleared, -⟩ := onMultipleMatches_spec env ingress d
      (s.pit.findAllDataMatches env.sha256 d) (s.cacheData env d)
    rintro ⟨e₁, he₁, r₁, hr₁, -⟩
    rw [hcleared id hid e₁ he₁] at hr₁
    cases hr₁

end State

theorem step_served_gone {s' : State} {ev : Event} (hs : s.pit.WellFormed)
    (hserials : s.pit.SerialsUnique) (hok : consumesServed env s ev = true)
    (hstep : step env s ev = some s') (hserved : Served env s s' ev id serial) :
    s'.pit.Gone id serial := by
  have hchanges := step_changes hstep
  cases ev with
  | data ingress frame nonces rate =>
    obtain ⟨d, hd, hid, e, he, r, hr, rfl, hcarried⟩ := hserved
    refine ⟨Nat.lt_of_lt_of_le ((hserials.get he).2 r hr) (Pit.nextSerial_le hchanges), ?_⟩
    rw [consumesServed, mem_def.1 hd] at hok
    rcases step_data hstep with ⟨-, rfl⟩ | ⟨d', hd', hsurvive⟩
    · exact absurd hcarried (not_carried_of_sent_eq_nil rfl)
    · obtain rfl : d = d' := some.inj ((mem_def.1 hd).symm.trans hd')
      rw [Outcome.survive_state hsurvive] at hcarried ⊢
      exact onIncomingData_served_gone (s := s.beginEvent) nonces rate hs hserials rfl hid
        he hr hok hcarried
  | _ => cases hserved

theorem run_serialsUnique {t : State} (hrun : Run (step env) ok s es t) (hs : s.pit.SerialsUnique) :
    t.pit.SerialsUnique :=
  hrun.invariant (I := fun s => s.pit.SerialsUnique)
    (fun _ _ _ hI _ hstep => hI.changes (step_changes hstep)) hs

theorem run_gone {t : State} (hrun : Run (step env) ok s es t) (hs : s.pit.Gone id serial) :
    t.pit.Gone id serial :=
  hrun.invariant (I := fun s => s.pit.Gone id serial)
    (fun _ _ _ hI _ hstep => hI.changes (step_changes hstep)) hs

/-- **An in-record is served once.**  If an event of a run serves an in-record and the multicast
    face does not stand in for another face there, the in-record is gone after the event and from
    every later state, and no later event serves it. -/
theorem run_served_once {env : Env} {now : Int} {garbage : Option FacePtr} {csLimit : Nat}
    {es es' : List Event} {s s' t : State} {ev : Event} {id : EntryId} {serial : Nat}
    (hrun : Run (step env) (fun _ _ => True) (State.init now garbage csLimit) es s)
    (hok : consumesServed env s ev = true) (hstep : step env s ev = some s')
    (hserved : Served env s s' ev id serial)
    (hlater : Run (step env) (fun _ _ => True) s' es' t) :
    ¬ t.pit.HasRecord id serial ∧
      ∀ ev' t', step env t ev' = some t' → ¬ Served env t t' ev' id serial := by
  have hwf := run_wellFormed hrun (init_wellFormed now garbage csLimit)
  have hinit : (init now garbage csLimit).pit.SerialsUnique := by
    intro x hx
    cases hx
  have hserials := run_serialsUnique hrun hinit
  have hgone := run_gone hlater (step_served_gone hwf hserials hok hstep hserved)
  refine ⟨hgone.2, fun ev' t' _ hagain => ?_⟩
  exact hgone.2 hagain.hasRecord

def Router.reply : Event := Router.data 5 ["File", "a"] (Router.content "2")

/-- The state after the reply to the application. -/
def Router.answered : State := (step Router.env Router.waiting Router.reply).get (by decide)

/-- The reply serves the in-record of the application, which is gone when the same Data comes
    again. -/
theorem run_served_once_router :
    step Router.env Router.waiting Router.reply = some Router.answered ∧
      Served Router.env Router.waiting Router.answered Router.reply 0 0 ∧
      ∃ t, step Router.env Router.answered Router.reply = some t ∧
        ¬ Served Router.env Router.answered t Router.reply 0 0 ∧ ¬ t.pit.HasRecord 0 0 := by
  have hstep : step Router.env Router.waiting Router.reply = some Router.answered :=
    (some_get _).symm
  have hserved : Served Router.env Router.waiting Router.answered Router.reply 0 0 := by decide
  have hagain : (step Router.env Router.answered Router.reply).isSome = true := by decide
  obtain ⟨t, ht⟩ := isSome_iff_exists.1 hagain
  have hok : consumesServed Router.env Router.waiting Router.reply = true := by decide
  exact ⟨hstep, hserved, t, ht,
    (run_served_once Router.run_waiting hok hstep hserved (.nil _)).2 _ t ht,
    (run_served_once Router.run_waiting hok hstep hserved (.cons trivial ht (.nil _))).1⟩

/-- The state after a first reply to the two wireless consumers. -/
def Router.replied : State :=
  (step Router.env Router.sharing (Router.data 5 ["a"] [])).get (by decide)

/-- Two wireless consumers are served over the multicast face; their in-records stay, and a second
    reply is sent for them again. -/
theorem served_twice_over_multicast :
    step Router.env Router.sharing (Router.data 5 ["a"] []) = some Router.replied ∧
      Served Router.env Router.sharing Router.replied (Router.data 5 ["a"] []) 0 0 ∧
      Router.replied.pit.HasRecord 0 0 ∧
      ∃ s', step Router.env Router.replied (Router.data 6 ["a"] []) = some s' ∧
        Served Router.env Router.replied s' (Router.data 6 ["a"] []) 0 0 := by
  have hserved : Served Router.env Router.sharing Router.replied (Router.data 5 ["a"] []) 0 0 := by
    decide
  have hagain : Served Router.env Router.replied
      ((step Router.env Router.replied (Router.data 6 ["a"] [])).get (by decide))
      (Router.data 6 ["a"] []) 0 0 := by decide
  exact ⟨(some_get _).symm, hserved, hagain.hasRecord, _, (some_get _).symm, hagain⟩

end NdnMulticast.Nfd
