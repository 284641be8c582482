/-
  What the pipelines can do, said once.

  Every pipeline is a sequence of small effects (`State.Effect`).  Which Interests may be sent
  from which entry, and for which Interests entries may be created, are parameters.
-/

import NdnMulticast.Nfd.Segments

namespace NdnMulticast.Nfd

open Lib Ndn List Option Pit Strategy Entry

/-- The updates of an entry that make no record. -/
inductive Entry.Update (e : Entry) : Entry → Prop where
  | timer (due : Int) : Update e { e with expiryTimer := some due }
  | satisfied (period : Int) :
      Update e { e with isSatisfied := true, dataFreshnessPeriod := period }
  | nacked (face : FacePtr) (reason : NackReason) : Update e (e.setIncomingNack face reason)
  | deleteInRecord (face : FacePtr) : Update e (e.deleteInRecord face)
  | deleteOutRecord (face : FacePtr) : Update e (e.deleteOutRecord face)
  | cleared (face : FacePtr) : Update e (e.clearInRecords.deleteOutRecord face)

theorem Entry.Update.fields {e e' : Entry} (h : e.Update e') :
    e'.interest = e.interest ∧ (e'.outRecords ≠ [] → e.outRecords ≠ []) := by
  cases h with
  | timer | satisfied | deleteInRecord => exact ⟨rfl, fun h => h⟩
  | nacked face reason => exact ⟨rfl, fun h hnil => h (by simp [setIncomingNack, hnil])⟩
  | deleteOutRecord face => exact ⟨rfl, fun h hnil => h (by simp [Entry.deleteOutRecord, hnil])⟩
  | cleared face =>
    exact ⟨rfl, fun h hnil =>
      h (by simp [Entry.deleteOutRecord, Entry.clearInRecords, hnil])⟩

/-- The updates of an entry that leave its out-records to it. -/
inductive Entry.Keeps (e : Entry) : Entry → Prop where
  | timer (due : Int) : Keeps e { e with expiryTimer := some due }
  | satisfied (period : Int) : Keeps e { e with isSatisfied := true, dataFreshnessPeriod := period }
  | nacked (face : FacePtr) (reason : NackReason) : Keeps e (e.setIncomingNack face reason)
  | deleteInRecord (face : FacePtr) : Keeps e (e.deleteInRecord face)

theorem Entry.Keeps.update {e e' : Entry} (h : e.Keeps e') : e.Update e' := by
  cases h with
  | timer due => exact .timer due
  | satisfied period => exact .satisfied period
  | nacked face reason => exact .nacked face reason
  | deleteInRecord face => exact .deleteInRecord face

namespace State

/-- One effect.  Entries are created for Interests in `N`, and Interests sent as `S` permits. -/
inductive Effect (env : Env) (N : Interest → Prop) (S : EntryId → FacePtr → Interest → Prop)
    (s : State) : State → Prop where
  | quiet (t : State) (hpit : t.pit = s.pit) (hsent : t.sent = s.sent) : Effect env N S s t
  | update (id : EntryId) (f : Entry → Entry) (hf : ∀ e : Entry, e.Update (f e)) :
      Effect env N S s (s.modifyEntry id f)
  | inRecord (id : EntryId) (face : FacePtr) (i : Interest) (nonce : List UInt8) :
      Effect env N S s { s with pit := s.pit.insertOrUpdateInRecord id face i nonce s.now }
  | interest (id : EntryId) (egress : FacePtr) (i : Interest) (hi : S id egress i) :
      Effect env N S s
        ((s.modifyEntry id fun e => e.insertOrUpdateOutRecord egress i (getNonce i) s.now).send
          (.interest egress i))
  | data (egress : FacePtr) (d : Data) (token : Option (List UInt8))
      (hd : isViolatingLocalhost env egress d.name = false) :
      Effect env N S s (s.send (.data egress d token))
  | nack (egress : FacePtr) (i : Interest) (reason : NackReason) :
      Effect env N S s (s.send (.nack egress i reason))
  | setRate (host : String) (rate : Int) : Effect env N S s (s.send (.setRate host rate))
  | insertNew (i : Interest) (hi : N i) : Effect env N S s { s with pit := s.pit.insertNew i }
  | erase (id : EntryId) : Effect env N S s { s with pit := s.pit.erase id }
  | deleteInOutRecords (face : FacePtr) :
      Effect env N S s { s with pit := s.pit.deleteInOutRecords face }

/-- Any number of effects. -/
abbrev Effects (env : Env) (N : Interest → Prop) (S : EntryId → FacePtr → Interest → Prop) :
    State → State → Prop :=
  Relation.ReflTransGen (Effect env N S)

variable {env : Env} {N : Interest → Prop} {S : EntryId → FacePtr → Interest → Prop} {s t u : State}

namespace Effects

theorem quiet (hpit : t.pit = s.pit) (hsent : t.sent = s.sent) : Effects env N S s t :=
  .single (.quiet t hpit hsent)

theorem invariant {I : State → Prop} (heffect : ∀ s t, I s → Effect env N S s t → I t)
    (h : Effects env N S s t) (hs : I s) : I t := by
  induction h with
  | refl => exact hs
  | tail _ hlast ih => exact heffect _ _ ih hlast

end Effects

/-! ## Moves -/

/-- An effect of a pipeline, seen more closely.  Only nonces in `R` are recorded as heard, only Data
    in `D` are sent, and out-records are deleted from satisfied entries only. -/
inductive Move (N : Interest → Prop) (S : EntryId → FacePtr → Interest → Prop)
    (R : EntryId → FacePtr → List UInt8 → Prop) (D : FacePtr → Data → Prop) (s : State) :
    State → Prop where
  | quiet (t : State) (hpit : t.pit = s.pit) (hsent : t.sent = s.sent) : Move N S R D s t
  | update (id : EntryId) (f : Entry → Entry) (hf : ∀ e : Entry, e.Keeps (f e)) :
      Move N S R D s (s.modifyEntry id f)
  | finish (id : EntryId) (f : Entry → Entry) (hf : ∀ e : Entry, e.Update (f e))
      (hsatisfied : ∀ e, s.pit.get id = some e → (f e).isSatisfied = true) :
      Move N S R D s (s.modifyEntry id f)
  | inRecord (id : EntryId) (face : FacePtr) (i : Interest) (nonce : List UInt8)
      (hi : R id face nonce) :
      Move N S R D s { s with pit := s.pit.insertOrUpdateInRecord id face i nonce s.now }
  | interest (id : EntryId) (egress : FacePtr) (i : Interest) (hi : S id egress i) :
      Move N S R D s
        ((s.modifyEntry id fun e => e.insertOrUpdateOutRecord egress i (getNonce i) s.now).send
          (.interest egress i))
  | data (egress : FacePtr) (d : Data) (token : Option (List UInt8)) (hd : D egress d) :
      Move N S R D s (s.send (.data egress d token))
  | nack (egress : FacePtr) (i : Interest) (reason : NackReason) :
      Move N S R D s (s.send (.nack egress i reason))
  | setRate (host : String) (rate : Int) : Move N S R D s (s.send (.setRate host rate))
  | insertNew (i : Interest) (hi : N i) : Move N S R D s { s with pit := s.pit.insertNew i }
  | erase (id : EntryId) : Move N S R D s { s with pit := s.pit.erase id }

abbrev Moves (N : Interest → Prop) (S : EntryId → FacePtr → Interest → Prop)
    (R : EntryId → FacePtr → List UInt8 → Prop) (D : FacePtr → Data → Prop) :
    State → State → Prop :=
  Relation.ReflTransGen (Move N S R D)

/-- Any nonce may be recorded as heard. -/
abbrev anyHear : EntryId → FacePtr → List UInt8 → Prop := fun _ _ _ => True

abbrev inScope (env : Env) (egress : FacePtr) (d : Data) : Prop :=
  isViolatingLocalhost env egress d.name = false

variable {R : EntryId → FacePtr → List UInt8 → Prop} {D : FacePtr → Data → Prop}

namespace Moves

theorem effects (env : Env) (h : Moves N S anyHear (inScope env) s t) : Effects env N S s t := by
  refine Relation.ReflTransGen.mono (fun s t hmove => ?_) _ _ h
  cases hmove with
  | quiet t hpit hsent => exact .quiet t hpit hsent
  | update id f hf => exact .update id f fun e => (hf e).update
  | finish id f hf _ => exact .update id f hf
  | inRecord id face i nonce _ => exact .inRecord id face i nonce
  | interest id egress i hi => exact .interest id egress i hi
  | data egress d token hd => exact .data egress d token hd
  | nack egress i reason => exact .nack egress i reason
  | setRate host rate => exact .setRate host rate
  | insertNew i hi => exact .insertNew i hi
  | erase id => exact .erase id

theorem quiet (hpit : t.pit = s.pit) (hsent : t.sent = s.sent) : Moves N S R D s t :=
  .single (.quiet t hpit hsent)

theorem update (id : EntryId) {f : Entry → Entry} (hf : ∀ e : Entry, e.Keeps (f e)) :
    Moves N S R D s (s.modifyEntry id f) :=
  .single (.update id f hf)

theorem foldl {ι : Type} {f : State → ι → State} {xs : List ι}
    (hf : ∀ s, ∀ x ∈ xs, Moves N S R D s (f s x)) (s : State) :
    Moves N S R D s (xs.foldl f s) := by
  induction xs generalizing s with
  | nil => exact .refl
  | cons x xs ih =>
    have hhead := hf s x (.head _)
    exact hhead.trans (ih (fun s y hy => hf s y (.tail _ hy)) (f s x))

end Moves

/-! ## Pipelines that send no Data -/

theorem moves_count (f : Counters → Counters) : Moves N S R D s (s.count f) := .quiet rfl rfl

theorem moves_setExpiryTimer (id : EntryId) (duration : Int) :
    Moves N S R D s (s.setExpiryTimer id duration) :=
  .update id fun _ => .timer _

theorem moves_insertDeadNonceList (id : EntryId) (upstream : Option FacePtr) :
    Moves N S R D s (s.insertDeadNonceList env id upstream) := by
  unfold insertDeadNonceList
  split
  · exact .refl
  · split
    · exact .quiet rfl rfl
    · exact .refl

variable {id : EntryId} {i : Interest} {actions : List Strategy.Action} {ingress : FacePtr}
  {d : Data} {e' : Entry} {nonces : Nat → List UInt8} {faces : List FacePtr}

theorem moves_onOutgoingInterest {egress : FacePtr} (hi : S id egress i) :
    Moves N S R D s (s.onOutgoingInterest env id egress i) := by
  unfold onOutgoingInterest
  split
  · exact .refl
  · exact .tail (.single (.interest id egress i hi)) (.quiet _ rfl rfl)

theorem moves_onOutgoingNack (id : EntryId) (egress : FacePtr) (reason : NackReason) :
    Moves N S R D s (s.onOutgoingNack env id egress reason) := by
  unfold onOutgoingNack
  split
  · exact .refl
  split
  · exact .refl
  · split
    · exact .refl
    · have hdelete : Moves N S R D s (s.modifyEntry id (·.deleteInRecord egress)) :=
        .update id fun _ => .deleteInRecord egress
      exact (hdelete.tail (.nack egress _ reason)).trans (moves_count _)

theorem moves_onInterestFinalize (id : EntryId) :
    Moves N S R D s (s.onInterestFinalize env id) := by
  unfold onInterestFinalize
  split
  · exact .refl
  · exact ((moves_insertDeadNonceList id none).trans (moves_count _)).tail (.erase id)

/-- The Interests a list of actions sends, as they leave. -/
def Sends (actions : List Strategy.Action) (egress : FacePtr) (i : Interest) : Prop :=
  ∃ i', .sendInterest egress i' ∈ actions ∧ i = { i' with pitToken := none }

theorem moves_act {a : Action}
    (ha : ∀ egress i, a = .sendInterest egress i → S id egress { i with pitToken := none }) :
    Moves N S R D s (act env id s a) := by
  cases a with
  | sendInterest egress i => exact moves_onOutgoingInterest (ha egress i rfl)
  | sendNack egress reason => exact moves_onOutgoingNack id egress reason
  | sendNacks reason exceptFaces => exact .foldl (fun s p _ => moves_onOutgoingNack id p reason) s
  | setExpiryTimer duration => exact moves_setExpiryTimer id duration

theorem moves_actAll (hS : ∀ egress i, Sends actions egress i → S id egress i) :
    Moves N S R D s (actAll env s id actions) := by
  refine .foldl (fun s a ha => moves_act fun egress i hai => ?_) s
  exact hS egress _ ⟨i, hai ▸ ha, rfl⟩

theorem moves_onInterestLoop (ingress : FacePtr) (i : Interest) :
    Moves N S R D s (s.onInterestLoop env ingress i) := by
  unfold onInterestLoop
  split
  · exact .refl
  · exact .single (.nack ingress i .duplicate)

/-- The face an explicit NextHopFaceId names. -/
def steered (s : State) (i : Interest) : Option FacePtr := i.nextHopFaceId.bind s.faceTable.get

/-- The Interests the miss pipeline sends: NextHopFaceId takes the strategy's place. -/
def MissSends (s : State) (i : Interest) (actions : List Strategy.Action) (egress : FacePtr)
    (j : Interest) : Prop :=
  (s.steered i = some egress ∧ j = i) ∨ (i.nextHopFaceId = none ∧ Sends actions egress j)

theorem moves_onContentStoreMiss (hR : R id ingress (getNonce i))
    (hS : ∀ egress j, s.MissSends i actions egress j → S id egress j) :
    Moves N S R D s (s.onContentStoreMiss env ingress id i actions) := by
  have hcount : Moves N S R D s (s.count fun c => { c with nCsMisses := c.nCsMisses + 1 }) :=
    moves_count _
  have hrecord := hcount.tail (.inRecord id ingress i (getNonce i) hR)
  unfold onContentStoreMiss
  dsimp only
  split
  · rename_i nextHop hhop
    split
    · rename_i egress hegress
      have hsteered : s.steered i = some egress := by
        rw [steered, hhop]
        exact hegress
      exact (hrecord.trans (moves_setExpiryTimer id _)).trans
        (moves_onOutgoingInterest (hS egress i (Or.inl ⟨hsteered, rfl⟩)))
    · exact hrecord.trans (moves_setExpiryTimer id _)
  · rename_i hhop
    exact (hrecord.trans (moves_setExpiryTimer id _)).trans
      (moves_actAll fun egress j hj => hS egress j (Or.inr ⟨hhop, hj⟩))

theorem moves_onIncomingNack {reason : NackReason}
    (hS : ∀ id, s.pit.find i = some id → ∀ egress j, Sends actions egress j → S id egress j) :
    Moves N S R D s (s.onIncomingNack env ingress i reason actions) := by
  have hcount : Moves N S R D s (s.count fun c => { c with nInNacks := c.nInNacks + 1 }) :=
    moves_count _
  unfold onIncomingNack
  dsimp only
  split
  · exact hcount
  split
  · exact hcount
  rename_i id hfind
  split
  · exact hcount
  split
  · exact hcount
  have hnacked := hcount.tail
    (.update id (·.setIncomingNack ingress reason) fun _ => .nacked ingress reason)
  refine Relation.ReflTransGen.trans ?_ (moves_actAll (hS id hfind))
  split
  · exact hnacked
  · exact hnacked.trans (moves_setExpiryTimer id 0)

theorem moves_pitInsert (i : Interest) (hi : N i) :
    Moves N S R D s { s with pit := (s.pit.insert i).2 } := by
  rcases s.pit.insert_cases i with ⟨id, e, -, -, h⟩ | ⟨-, h⟩
  · rw [h]
  · rw [h]
    exact .single (.insertNew i hi)

theorem moves_createSegmentEntry (hi : N i) (hR : ∀ id, ∀ face ∈ faces, R id face (getNonce i)) :
    Moves N S R D s (s.createSegmentEntry faces i) := by
  have hrecords : ∀ (fs : List FacePtr) (p : Pit), fs ⊆ faces → Moves N S R D { s with pit := p }
      { s with
        pit := fs.foldl (fun p face =>
          p.insertOrUpdateInRecord (s.pit.insert i).1 face i (getNonce i) s.now) p } := by
    intro fs
    induction fs with
    | nil => exact fun p _ => .refl
    | cons f fs ih =>
      intro p hfs
      obtain ⟨hf, hfs⟩ := cons_subset.1 hfs
      exact .head (.inRecord _ f i (getNonce i) (hR _ f hf)) (ih _ hfs)
  exact (moves_pitInsert i hi).trans (hrecords faces _ fun _ h => h)

theorem moves_createSegmentEntries {segments : List Nat}
    (hN : ∀ segment ∈ segments, ∀ name, segmentName env d segment = .ok name →
      N (segmentInterest name (nonces segment)))
    (hR : ∀ segment ∈ segments, ∀ id face, R id face (nonces segment)) (s : State) :
    Moves N S R D s (createSegmentEntries env d nonces faces segments s).state := by
  induction segments generalizing s with
  | nil => exact .refl
  | cons segment segments ih =>
    rw [forall_mem_cons] at hN hR
    unfold createSegmentEntries
    split
    · exact .refl
    · rename_i name hname
      have hfirst : Moves N S R D s
          (s.createSegmentEntry faces (segmentInterest name (nonces segment))) :=
        moves_createSegmentEntry (hN.1 name hname) fun id face _ => hR.1 id face
      exact hfirst.trans (ih hN.2 hR.2 _)

theorem segmentCount_lt {count : Int} (h : segmentCount d = .ok count) : count < 2 ^ 31 := by
  unfold segmentCount at h
  split at h
  · cases h
  rename_i content _
  cases hstoi : stoi (content.value ++ content.after) with
  | error failure =>
    rw [hstoi] at h
    cases failure <;> cases h
  | ok n =>
    rw [hstoi] at h
    obtain rfl := Except.ok.inj h
    exact stoi_lt hstoi

/-- The nonces of the segments a reply announces may be recorded as heard. -/
def SegmentsHeard (R : EntryId → FacePtr → List UInt8 → Prop) (d : Data)
    (nonces : Nat → List UInt8) : Prop :=
  filePrefix.isPrefixOf d.name = true → ∀ count, segmentCount d = .ok count →
    ∀ n < count.toNat, ∀ id face, R id face (nonces n)

theorem moves_prepareSegments (hN : ∀ j : Interest, j.name.WellFormed → N j)
    (hd : d.name.WellFormed) (hR : SegmentsHeard R d nonces) (id : EntryId) :
    Moves N S R D s (s.prepareSegments env d nonces id).state := by
  unfold prepareSegments
  split
  · rename_i hfile
    split
    · exact .refl
    rename_i count hcount
    refine moves_createSegmentEntries (fun segment hsegment name hname => ?_)
      (fun n hn => hR hfile count hcount n (mem_range.1 hn)) s
    obtain ⟨f, hf, hvalid, rfl⟩ := (segmentName_eq_ok_iff env d segment name).1 hname
    have hlt := segmentCount_lt hcount
    have hrange : segment < count.toNat := mem_range.1 hsegment
    refine hN _ (segmentPath_wellFormed (hd f (mem_of_getElem? hf)) hvalid env.altUri ?_)
    omega
  · exact .refl

@[simp] theorem insertDeadNonceList_pit (env : Env) (s : State) (id : EntryId)
    (upstream : Option FacePtr) :
    (s.insertDeadNonceList env id upstream).pit = s.pit := by
  unfold insertDeadNonceList
  split
  · rfl
  · split
    · rfl
    · rfl

/-- The entry is satisfied, and its out-record deleted. -/
theorem moves_satisfyEntry (id : EntryId) (ingress : FacePtr) (d : Data) {f : Entry → Entry}
    (hf : ∀ e : Entry, e.Update (f e)) (hsatisfied : ∀ e, (f e).isSatisfied = e.isSatisfied) :
    Moves N S R D s ((s.satisfyEntry env id ingress d).modifyEntry id f) := by
  have hfirst : Moves N S R D s (s.modifyEntry id fun e =>
      { e with isSatisfied := true, dataFreshnessPeriod := d.getFreshnessPeriod }) :=
    .update id fun _ => .satisfied _
  refine (hfirst.trans (moves_insertDeadNonceList id (some ingress))).tail (.finish id f hf ?_)
  intro e he
  rw [insertDeadNonceList_pit, modifyEntry_pit, get_modify] at he
  obtain ⟨e₀, -, rfl⟩ := map_eq_some_iff.1 he
  rw [hsatisfied, if_pos rfl]

theorem moves_onDataUnsolicited (ingress : FacePtr) (d : Data) :
    Moves N S R D s (s.onDataUnsolicited env ingress d) := by
  unfold onDataUnsolicited
  split
  · exact .quiet rfl rfl
  · exact .quiet rfl rfl

theorem moves_cacheData (d : Data) : Moves N S R D s (s.cacheData env d) := .quiet rfl rfl

/-! ## Pipelines that send Data -/

/-- The Interest that goes into the PIT. -/
def acceptedInterest (env : Env) (i : Interest) (freshNonce : List UInt8) : Interest :=
  stripForwardingHint env (receiveInterest i freshNonce)

/-- HopLimit zero, `/localhost` on a non-local face, or a nonce on the dead nonce list. -/
def isDropped (env : Env) (s : State) (ingress : FacePtr) (i : Interest)
    (freshNonce : List UInt8) : Bool :=
  i.hopLimit == some 0 || isViolatingLocalhost env ingress i.name ||
    s.deadNonceList.has env i.name (i.nonce.getD freshNonce)

/-- The nonce may be recorded as heard on the entry of the Interest, unless it is a duplicate. -/
def Hears (R : EntryId → FacePtr → List UInt8 → Prop) (env : Env) (s : State) (ingress : FacePtr)
    (i : Interest) : Prop :=
  ∀ e, (s.pit.insert i).2.get (s.pit.insert i).1 = some e →
    hasDuplicateNonceInPit env e (getNonce i) ingress = false →
    R (s.pit.insert i).1 ingress (getNonce i)

section

variable (hD : ∀ egress d, inScope env egress d → D egress d)
include hD

theorem moves_onOutgoingData (d : Data) (egress : FacePtr) (token : Option (List UInt8)) :
    Moves N S R D s (s.onOutgoingData env d egress token) := by
  unfold onOutgoingData
  split
  · rename_i hcan
    rw [canSendData, Bool.and_eq_true, Bool.not_eq_true'] at hcan
    exact .tail (.single (.data egress d token (hD egress d hcan.2))) (.quiet _ rfl rfl)
  · exact .refl

theorem moves_sendData (id : EntryId) (d : Data) (token : Option (List UInt8))
    (egress : FacePtr) : Moves N S R D s (sendData env s id d token egress) := by
  have hdelete : Moves N S R D s (s.modifyEntry id (·.deleteInRecord egress)) :=
    .update id fun _ => .deleteInRecord egress
  exact hdelete.trans (moves_onOutgoingData hD d egress _)

theorem moves_sendDataToAll (rate : FacePtr → Int) (id : EntryId) (inFace : FacePtr) (d : Data) :
    Moves N S R D s (sendDataToAll env rate s id inFace d).state := by
  have hsend : ∀ (ps : List FacePtr) (s : State),
      Moves N S R D s (ps.foldl (fun s p => sendData env s id d none p) s) :=
    fun ps s => .foldl (fun s p _ => moves_sendData hD id d none p) s
  rcases sendDataToAll_cases env rate s id inFace d with
    ⟨-, heq⟩ | ⟨-, t, rfl | ⟨host, r, rfl⟩, heq⟩
  · rw [heq]
  · rw [heq]
    exact hsend _ _
  · rw [heq]
    exact .head (.setRate host r) (hsend _ _)

theorem moves_onContentStoreHit (ingress : FacePtr) (id : EntryId) (i : Interest) (d : Data) :
    Moves N S R D s (s.onContentStoreHit env ingress id i d) := by
  have hcount : Moves N S R D s (s.count fun c => { c with nCsHits := c.nCsHits + 1 }) :=
    moves_count _
  have hsatisfied := hcount.tail (.update id _ fun _ => .satisfied d.getFreshnessPeriod)
  exact (hsatisfied.trans (moves_setExpiryTimer id 0)).trans
    (moves_sendData hD id d i.pitToken ingress)

theorem moves_lookupContentStore (hR : R id ingress (getNonce i))
    (hS : ∀ egress j, s.MissSends i actions egress j → S id egress j) :
    Moves N S R D s (s.lookupContentStore env ingress id i actions).state := by
  unfold lookupContentStore
  split
  · exact .refl
  · rename_i d cs _
    have hcs : Moves N S R D s { s with cs } := .quiet rfl rfl
    exact hcs.trans (moves_onContentStoreHit hD ingress id i d)
  · rename_i cs _
    have hcs : Moves N S R D s { s with cs } := .quiet rfl rfl
    exact hcs.trans (moves_onContentStoreMiss hR hS)

theorem moves_processInterest (hi : N i) (hR : Hears R env s ingress i)
    (hS : ∀ egress j, s.MissSends i actions egress j → S (s.pit.insert i).1 egress j) :
    Moves N S R D s (s.processInterest env ingress i actions).state := by
  refine (moves_pitInsert i hi).trans ?_
  unfold processInterest
  dsimp only
  split
  · exact .refl
  rename_i e he
  split
  · exact moves_onInterestLoop ingress i
  · rename_i hdup
    have hheard := hR e he (Bool.eq_false_iff.2 hdup)
    split
    · exact moves_onContentStoreMiss hheard hS
    · exact moves_lookupContentStore hD hheard hS

theorem moves_onIncomingInterest {freshNonce : List UInt8}
    (hi : N (acceptedInterest env i freshNonce))
    (hR : Hears R env s ingress (acceptedInterest env i freshNonce))
    (hS : ∀ egress j, s.MissSends (acceptedInterest env i freshNonce) actions egress j →
      S (s.pit.insert (acceptedInterest env i freshNonce)).1 egress j) :
    Moves N S R D s (s.onIncomingInterest env ingress i freshNonce actions).state := by
  have hcount : Moves N S R D s
      (s.count fun c => { c with nInInterests := c.nInInterests + 1 }) := moves_count _
  unfold onIncomingInterest
  dsimp only
  split
  · exact hcount
  · split
    · exact hcount
    · split
      · exact hcount.trans (moves_onInterestLoop ingress _)
      · exact hcount.trans (moves_processInterest hD hi hR hS)

theorem moves_afterPrepare (ingress : FacePtr) (d : Data) (nonces : Nat → List UInt8)
    (rate : FacePtr → Int) (id : EntryId) :
    Moves N S R D (s.prepareSegments env d nonces id).state
      (s.onSingleMatch env ingress d nonces rate id).state := by
  unfold onSingleMatch
  dsimp only
  split
  · exact .refl
  refine (moves_setExpiryTimer id 0).trans ?_
  have hsend : Moves N S R D ((s.prepareSegments env d nonces id).state.setExpiryTimer id 0)
      (sendDataToAll env rate
        ((s.prepareSegments env d nonces id).state.setExpiryTimer id 0) id ingress d).state :=
    moves_sendDataToAll hD rate id ingress d
  split
  · exact hsend
  · exact hsend.trans
      (moves_satisfyEntry id ingress d (fun _ => .deleteOutRecord ingress) fun _ => rfl)

theorem moves_onMultipleMatches (ingress : FacePtr) (d : Data) (ids : List EntryId) :
    Moves N S R D s (s.onMultipleMatches env ingress d ids) := by
  have hmatches : Moves N S R D s (ids.foldl (satisfyMatch env ingress d) s) := by
    refine .foldl (fun s id _ => ?_) s
    exact (moves_setExpiryTimer id 0).trans
      (moves_satisfyEntry id ingress d (fun _ => .cleared ingress) fun _ => rfl)
  exact hmatches.trans (Moves.foldl (fun s p _ => moves_onOutgoingData hD d p none) _)

theorem moves_onIncomingData (hN : ∀ j : Interest, j.name.WellFormed → N j) (ingress : FacePtr)
    (hd : d.name.WellFormed) (hR : SegmentsHeard R d nonces) (rate : FacePtr → Int) :
    Moves N S R D s (s.onIncomingData env ingress d nonces rate).state := by
  have hcount : Moves N S R D s (s.count fun c => { c with nInData := c.nInData + 1 }) :=
    moves_count _
  unfold onIncomingData
  split
  · exact hcount
  split
  · exact hcount.trans (moves_onDataUnsolicited ingress d)
  · rename_i id _
    exact ((moves_cacheData d).trans (moves_prepareSegments hN hd hR id)).trans
      (moves_afterPrepare hD ingress d nonces rate id)
  · exact (moves_cacheData d).trans (moves_onMultipleMatches hD ingress d _)

end

/-! ## Faces -/

theorem effects_onFaceOp {op : FaceTable.Op} (h : s.onFaceOp env op = some t) :
    Effects env N S s t := by
  unfold onFaceOp at h
  split at h
  · cases h
  rename_i faceTable _
  split at h
  · rename_i p _
    obtain rfl := some.inj h
    have htable : Effects env N S s { s with faceTable } := .quiet rfl rfl
    exact htable.tail (.deleteInOutRecords p)
  · obtain rfl := some.inj h
    exact .quiet rfl rfl

/-! ## What leaves the daemon -/

/-- What may leave: Interests the entries permit, Data within its scope. -/
def MayLeave (env : Env) (S : EntryId → FacePtr → Interest → Prop) : Output → Prop
  | .interest egress i => ∃ id, S id egress i
  | .data egress d _ => isViolatingLocalhost env egress d.name = false
  | .nack _ _ _ => True
  | .setRate _ _ => True

/-- **Outputs.**  Whatever the effects send may leave the daemon. -/
theorem Effects.sent (h : Effects env N S s t) (hs : ∀ o ∈ s.sent, MayLeave env S o) :
    ∀ o ∈ t.sent, MayLeave env S o := by
  refine h.invariant (I := fun s => ∀ o ∈ s.sent, MayLeave env S o) (fun s t hs heffect => ?_) hs
  have hsend : ∀ {u : State} {o : Output}, u.sent = s.sent → MayLeave env S o →
      ∀ o' ∈ (u.send o).sent, MayLeave env S o' := by
    intro u o hu ho o' ho'
    rw [send_sent, hu] at ho'
    rcases mem_append.1 ho' with ho' | ho'
    · exact hs o' ho'
    · rwa [mem_singleton.1 ho']
  cases heffect with
  | quiet _ _ hsent => rwa [hsent]
  | update | inRecord | insertNew | erase | deleteInOutRecords => exact hs
  | interest id egress i hi => exact hsend rfl ⟨id, hi⟩
  | data egress d token hd => exact hsend rfl hd
  | nack | setRate => exact hsend rfl trivial

/-! ## Where entries and out-records come from -/

/-- An entry that was there: the same Interest, new out-records only if it may have been sent. -/
def WasIn (S : EntryId → FacePtr → Interest → Prop) (s : State) (id : EntryId) (e' : Entry) :
    Prop :=
  ∃ e, s.pit.get id = some e ∧ e'.interest = e.interest ∧
    (e'.outRecords ≠ [] → e.outRecords ≠ [] ∨ ∃ egress i, S id egress i)

/-- An entry created since: for a permitted Interest, with out-records only if something may have
    been sent from it. -/
def IsNew (N : Interest → Prop) (S : EntryId → FacePtr → Interest → Prop) (s : State)
    (id : EntryId) (e' : Entry) : Prop :=
  s.pit.nextId ≤ id ∧ N e'.interest ∧ (e'.outRecords ≠ [] → ∃ egress i, S id egress i)

theorem WasIn.of_get {e : Entry} (he : s.pit.get id = some e) (hinterest : e'.interest = e.interest)
    (hout : e'.outRecords ≠ [] → e.outRecords ≠ []) : s.WasIn S id e' :=
  ⟨e, he, hinterest, fun h => Or.inl (hout h)⟩

theorem WasIn.of_modify {j : EntryId} {f : Entry → Entry}
    (he' : (s.pit.modify id f).get j = some e') (hf : ∀ e : Entry, (f e).interest = e.interest ∧
      ((f e).outRecords ≠ [] → e.outRecords ≠ [] ∨ ∃ egress i, S id egress i)) :
    s.WasIn S j e' := by
  rw [get_modify] at he'
  obtain ⟨e, he, rfl⟩ := map_eq_some_iff.1 he'
  split
  · rename_i hj
    subst hj
    exact ⟨e, he, (hf e).1, (hf e).2⟩
  · exact .of_get he rfl fun h => h

theorem Effect.origin (h : Effect env N S s t) (he' : t.pit.get id = some e') :
    s.WasIn S id e' ∨ s.IsNew N S id e' := by
  cases h with
  | quiet _ hpit _ => exact Or.inl (.of_get (hpit ▸ he') rfl fun h => h)
  | update j f hf =>
    exact Or.inl (.of_modify he' fun e => ⟨(hf e).fields.1, fun h => Or.inl ((hf e).fields.2 h)⟩)
  | inRecord j face i nonce =>
    have hmodify : (s.pit.modify j fun e =>
        e.insertOrUpdateInRecord face i nonce s.now s.pit.nextSerial).get id = some e' := he'
    refine Or.inl (.of_modify hmodify fun e => ?_)
    rw [insertOrUpdateInRecord_outRecords]
    exact ⟨insertOrUpdateInRecord_interest .., Or.inl⟩
  | interest j egress i hi =>
    refine Or.inl (.of_modify he' fun e => ?_)
    exact ⟨e.insertOrUpdateOutRecord_interest egress i _ _, fun _ => Or.inr ⟨egress, i, hi⟩⟩
  | data | nack | setRate => exact Or.inl (.of_get he' rfl fun h => h)
  | insertNew i hi =>
    rw [get_insertNew] at he'
    split at he'
    · rename_i hid
      obtain rfl := some.inj he'
      exact Or.inr ⟨hid.ge, hi, fun h => absurd rfl h⟩
    · exact Or.inl (.of_get he' rfl fun h => h)
  | erase j => simp_all [WasIn.of_get, get_erase]
  | deleteInOutRecords face =>
    rw [get_deleteInOutRecords] at he'
    obtain ⟨e, he, rfl⟩ := map_eq_some_iff.1 he'
    refine Or.inl (.of_get he rfl fun h hnil => h ?_)
    simp [deleteOutRecord, deleteInRecord, hnil]

theorem Effect.nextId_le (h : Effect env N S s t) : s.pit.nextId ≤ t.pit.nextId := by
  cases h with
  | quiet _ hpit _ => rw [hpit]
  | insertNew i hi => exact Nat.le_succ _
  | _ => exact Nat.le_refl _

theorem Effects.nextId_le (h : Effects env N S s t) : s.pit.nextId ≤ t.pit.nextId :=
  h.invariant (I := fun u => s.pit.nextId ≤ u.pit.nextId)
    (fun _ _ hI heffect => hI.trans heffect.nextId_le) (Nat.le_refl _)

/-- **Origin of the entries.**  After some effects an entry is one that was there before or one
    created for a permitted Interest, and its out-records are old or stem from an Interest sent from
    it. -/
theorem Effects.origin (h : Effects env N S s t) (he' : t.pit.get id = some e') :
    s.WasIn S id e' ∨ s.IsNew N S id e' := by
  induction h generalizing e' with
  | refl => exact Or.inl (.of_get he' rfl fun h => h)
  | @tail t u hst htu ih =>
    rcases htu.origin he' with ⟨e, he, hinterest, hout⟩ | ⟨hid, hN, hout⟩
    · rcases ih he with ⟨e₀, he₀, hinterest₀, hout₀⟩ | ⟨hid, hN, hout₀⟩
      · exact Or.inl ⟨e₀, he₀, hinterest.trans hinterest₀, fun h => (hout h).elim hout₀ Or.inr⟩
      · exact Or.inr ⟨hid, hinterest ▸ hN, fun h => (hout h).elim hout₀ fun hS => hS⟩
    · exact Or.inr ⟨(Effects.nextId_le hst).trans hid, hN, hout⟩

end State

end NdnMulticast.Nfd
