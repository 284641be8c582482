/-
  What an event can do to the PIT, said once: it is a sequence of changes of five kinds
  (`Pit.Change`).
-/

import NdnMulticast.Nfd.Effects

namespace NdnMulticast.Nfd

open Lib Ndn List Option Entry Strategy Pit

/-! ## Changes -/

/-- The Interest stays, a timer that is set is kept and no in-record is added. -/
structure Entry.Evolves (e e' : Entry) : Prop where
  interest_eq : e'.interest = e.interest
  timer : e.expiryTimer.isSome = true → e'.expiryTimer.isSome = true
  inRecords : e'.inRecords.Sublist e.inRecords

/-- One change to the table; entries are created only for Interests in `N`. -/
inductive Pit.Change (N : Interest → Prop) (p : Pit) : Pit → Prop where
  | modify (id : EntryId) (f : Entry → Entry) (hf : ∀ e : Entry, e.Evolves (f e)) :
      Change N p (p.modify id f)
  | inRecord (id : EntryId) (face : FacePtr) (i : Interest) (nonce : List UInt8) (now : Int) :
      Change N p (p.insertOrUpdateInRecord id face i nonce now)
  | insertNew (i : Interest) (hi : N i) : Change N p (p.insertNew i)
  | erase (id : EntryId) : Change N p (p.erase id)
  | deleteInOutRecords (face : FacePtr) : Change N p (p.deleteInOutRecords face)

/-- Any number of changes. -/
abbrev Pit.Changes (N : Interest → Prop) : Pit → Pit → Prop :=
  Relation.ReflTransGen (Pit.Change N)

/-- No entry is created. -/
def noEntry : Interest → Prop := fun _ => False

namespace Pit

variable {N : Interest → Prop} {p q : Pit}

theorem Changes.invariant {I : Pit → Prop} (hchange : ∀ p q, I p → Change N p q → I q)
    (h : Changes N p q) (hp : I p) : I q := by
  induction h with
  | refl => exact hp
  | tail _ hlast ih => exact hchange _ _ ih hlast

end Pit

/-! ## Effects as changes -/

namespace State

theorem insertOrUpdateOutRecord_evolves (e : Entry) (face : FacePtr) (i : Interest)
    (nonce : List UInt8) (now : Int) : e.Evolves (e.insertOrUpdateOutRecord face i nonce now) := by
  refine ⟨insertOrUpdateOutRecord_interest .., ?_, ?_⟩
  · rw [insertOrUpdateOutRecord_expiryTimer]
    exact id
  · rw [insertOrUpdateOutRecord_inRecords]

theorem update_evolves {e e' : Entry} (h : e.Update e') : e.Evolves e' := by
  cases h with
  | timer due => exact ⟨rfl, fun _ => rfl, .refl _⟩
  | satisfied | nacked | deleteOutRecord => exact ⟨rfl, id, .refl _⟩
  | deleteInRecord face => exact ⟨rfl, id, filter_sublist⟩
  | cleared face => exact ⟨rfl, id, nil_sublist _⟩

theorem Effects.changes {env : Env} {N : Interest → Prop} {S : EntryId → FacePtr → Interest → Prop}
    {s t : State} (h : Effects env N S s t) : Changes N s.pit t.pit := by
  induction h with
  | refl => exact .refl
  | tail _ heffect ih =>
    refine ih.trans ?_
    cases heffect with
    | quiet _ hpit _ => rw [hpit]
    | update id f hf => exact .single (.modify id f fun e => update_evolves (hf e))
    | inRecord id face i nonce => exact .single (.inRecord id face i nonce _)
    | interest id egress i _ =>
      exact .single (.modify id _ fun e => insertOrUpdateOutRecord_evolves e egress i _ _)
    | data | nack | setRate => exact .refl
    | insertNew i hi => exact .single (.insertNew i hi)
    | erase id => exact .single (.erase id)
    | deleteInOutRecords face => exact .single (.deleteInOutRecords face)

/-- Any Interest may be sent. -/
abbrev anySend : EntryId → FacePtr → Interest → Prop := fun _ _ _ => True

variable {N : Interest → Prop} (env : Env) (s : State)

@[simp] theorem onOutgoingData_pit (d : Data) (egress : FacePtr) (token : Option (List UInt8)) :
    (s.onOutgoingData env d egress token).pit = s.pit := by
  unfold onOutgoingData
  split
  · rfl
  · rfl

theorem onInterestFinalize_get (id : EntryId) :
    (s.onInterestFinalize env id).pit.get id = none := by
  unfold onInterestFinalize
  split
  · rename_i hnone
    exact hnone
  · simp [get_erase]

theorem changes_actAll (id : EntryId) (actions : List Action) :
    Changes N s.pit (actAll env s id actions).pit :=
  ((moves_actAll (S := anySend) fun _ _ _ => trivial).effects env).changes

@[simp] theorem onInterestLoop_pit (ingress : FacePtr) (i : Interest) :
    (s.onInterestLoop env ingress i).pit = s.pit := by
  unfold onInterestLoop
  split
  · rfl
  · rfl

theorem changes_onMultipleMatches (ingress : FacePtr) (d : Data) (ids : List EntryId) :
    Changes N s.pit (s.onMultipleMatches env ingress d ids).pit :=
  ((moves_onMultipleMatches (S := anySend) (fun _ _ h => h) ingress d ids).effects env).changes

/-! ## Interests -/

/-- On the way from `p` to `q` no entry is created and the timer of one is set. -/
def SetsTimer (id : EntryId) (p q : Pit) : Prop :=
  ∃ p' due, Pit.Changes noEntry p p' ∧
    Pit.Changes noEntry (p'.modify id fun e => { e with expiryTimer := some due }) q

theorem SetsTimer.changes {id : EntryId} {p q : Pit} (h : SetsTimer id p q) :
    Changes noEntry p q := by
  obtain ⟨p', due, hbefore, hafter⟩ := h
  refine (hbefore.tail ?_).trans hafter
  exact .modify id _ fun _ => ⟨rfl, fun _ => rfl, .refl _⟩

theorem SetsTimer.intro {p q : Pit} (t : State) (id : EntryId) (duration : Int)
    (hbefore : Changes noEntry p t.pit)
    (hafter : Changes noEntry (t.setExpiryTimer id duration).pit q) : SetsTimer id p q :=
  ⟨t.pit, _, hbefore, hafter⟩

section

variable (ingress : FacePtr) (id : EntryId) (i : Interest)

theorem onContentStoreMiss_setsTimer (actions : List Action) :
    SetsTimer id s.pit (s.onContentStoreMiss env ingress id i actions).pit := by
  have hrecord : Changes noEntry s.pit
      (s.pit.insertOrUpdateInRecord id ingress i (getNonce i) s.now) :=
    .single (.inRecord id ingress i _ _)
  unfold onContentStoreMiss
  dsimp only
  split
  · split
    · exact SetsTimer.intro _ id _ hrecord
        ((moves_onOutgoingInterest (S := anySend) trivial).effects env).changes
    · exact SetsTimer.intro _ id _ hrecord .refl
  · exact SetsTimer.intro _ id _ hrecord (changes_actAll env _ id actions)

theorem onContentStoreHit_setsTimer (d : Data) :
    SetsTimer id s.pit (s.onContentStoreHit env ingress id i d).pit := by
  refine SetsTimer.intro ((s.count _).modifyEntry id _) id 0 ?_
    ((moves_sendData (S := anySend) (fun _ _ h => h) id d i.pitToken ingress).effects env).changes
  exact .single (.modify id _ fun _ => update_evolves (.satisfied d.getFreshnessPeriod))

/-- The lookup fails exactly when the range of the name is needed and cannot be walked. -/
theorem lookupContentStore_fault_eq_none_iff (actions : List Action) :
    (s.lookupContentStore env ingress id i actions).fault = none ↔
      s.cs.isServing = false ∨ Cs.hasRange env.sha256 s.cs.table i.name = true := by
  rw [← Cs.exists_find_iff env.sha256 s.cs i s.now, lookupContentStore]
  cases s.cs.find env.sha256 i s.now with
  | error fault => simp
  | ok r => grind

theorem lookupContentStore_cases (actions : List Action) :
    ((s.lookupContentStore env ingress id i actions).fault = none ∧
        SetsTimer id s.pit (s.lookupContentStore env ingress id i actions).state.pit) ∨
      ((s.lookupContentStore env ingress id i actions).fault ≠ none ∧
        (s.lookupContentStore env ingress id i actions).state.pit = s.pit) := by
  unfold lookupContentStore
  split
  · exact Or.inr ⟨by simp, rfl⟩
  · rename_i d cs _
    exact Or.inl ⟨rfl, onContentStoreHit_setsTimer env { s with cs } ingress id i d⟩
  · rename_i cs _
    exact Or.inl ⟨rfl, onContentStoreMiss_setsTimer env { s with cs } ingress id i actions⟩

end

/-- For an entry that was there, a Nack for a duplicate nonce, the miss pipeline if it has
    in-records, and a lookup otherwise; for a new entry, a lookup. -/
theorem processInterest_cases (ingress : FacePtr) (i : Interest)
    (actions : List Action) :
    (∃ id e, s.pit.find i = some id ∧ s.pit.get id = some e ∧
      s.processInterest env ingress i actions =
        if hasDuplicateNonceInPit env e (getNonce i) ingress then
          ⟨s.onInterestLoop env ingress i, none⟩
        else if e.hasInRecords then ⟨s.onContentStoreMiss env ingress id i actions, none⟩
        else s.lookupContentStore env ingress id i actions) ∨
    (s.pit.find i = none ∧
      s.processInterest env ingress i actions =
        { s with pit := s.pit.insertNew i }.lookupContentStore env ingress s.pit.nextId i
          actions) := by
  rcases s.pit.insert_cases i with ⟨id, e, hfind, he, hins⟩ | ⟨hfind, hins⟩
  · exact Or.inl ⟨id, e, hfind, he, by simp only [processInterest, hins, he]⟩
  -- a new entry has no records
  have hnew : (s.pit.insertNew i).get s.pit.nextId = some (ofInterest i) := by
    simp [get_insertNew]
  refine Or.inr ⟨hfind, ?_⟩
  simp only [processInterest, hins, hnew]
  rfl

theorem onIncomingInterest_cases (ingress : FacePtr) (i : Interest) (freshNonce : List UInt8)
    (actions : List Action) :
    (isDropped env s ingress i freshNonce = true ∧
      (s.onIncomingInterest env ingress i freshNonce actions).fault = none ∧
      (s.onIncomingInterest env ingress i freshNonce actions).state.pit = s.pit) ∨
    (isDropped env s ingress i freshNonce = false ∧
      s.onIncomingInterest env ingress i freshNonce actions =
        (s.count fun c => { c with nInInterests := c.nInInterests + 1 }).processInterest env
          ingress (acceptedInterest env i freshNonce) actions) := by
  have hnonce : getNonce (receiveInterest i freshNonce) = i.nonce.getD freshNonce := rfl
  have hname : (receiveInterest i freshNonce).name = i.name := rfl
  simp only [onIncomingInterest, isDropped, hnonce, hname, count_deadNonceList]
  by_cases hhop : i.hopLimit = some 0
  · simp [hhop]
  cases hscope : isViolatingLocalhost env ingress i.name with
  | true => simp [hhop]
  | false =>
    cases hdnl : s.deadNonceList.has env i.name (i.nonce.getD freshNonce) with
    | true => simp [hhop]
    | false => simp [hhop, acceptedInterest]

/-! ## Data -/

include env in
theorem changes_createSegmentEntry (faces : List FacePtr) (i : Interest) (hi : N i) :
    Changes N s.pit (s.createSegmentEntry faces i).pit :=
  have h : Moves N anySend anyHear (inScope env) s (s.createSegmentEntry faces i) :=
    moves_createSegmentEntry hi fun _ _ _ => trivial
  (h.effects env).changes

variable (ingress : FacePtr) (d : Data)

theorem changes_afterPrepare (nonces : Nat → List UInt8) (rate : FacePtr → Int) (id : EntryId) :
    Changes N (s.prepareSegments env d nonces id).state.pit
      (s.onSingleMatch env ingress d nonces rate id).state.pit :=
  ((moves_afterPrepare (S := anySend) (fun _ _ h => h) ingress d nonces rate id).effects
    env).changes

@[simp] theorem onDataUnsolicited_pit : (s.onDataUnsolicited env ingress d).pit = s.pit := by
  unfold onDataUnsolicited
  split
  · rfl
  · rfl

@[simp] theorem onDataUnsolicited_sent : (s.onDataUnsolicited env ingress d).sent = s.sent := by
  unfold onDataUnsolicited
  split
  · rfl
  · rfl

theorem onIncomingData_cases (nonces : Nat → List UInt8) (rate : FacePtr → Int) :
    (∃ t, s.onIncomingData env ingress d nonces rate = ⟨t, none⟩ ∧ t.pit = s.pit ∧
      t.sent = s.sent ∧ (isViolatingLocalhost env ingress d.name = true ∨
        s.pit.findAllDataMatches env.sha256 d = [])) ∨
    (isViolatingLocalhost env ingress d.name = false ∧
      ∃ id, s.pit.findAllDataMatches env.sha256 d = [id] ∧
        s.onIncomingData env ingress d nonces rate =
          (s.cacheData env d).onSingleMatch env ingress d nonces rate id) ∨
    (isViolatingLocalhost env ingress d.name = false ∧
      2 ≤ (s.pit.findAllDataMatches env.sha256 d).length ∧
      s.onIncomingData env ingress d nonces rate =
        ⟨(s.cacheData env d).onMultipleMatches env ingress d
          (s.pit.findAllDataMatches env.sha256 d), none⟩) := by
  unfold onIncomingData
  cases hscope : isViolatingLocalhost env ingress d.name with
  | true => exact Or.inl ⟨_, rfl, rfl, rfl, Or.inl rfl⟩
  | false =>
    cases hmatches : s.pit.findAllDataMatches env.sha256 d with
    | nil => simp
    | cons id ids =>
      cases ids with
      | nil => exact Or.inr (Or.inl ⟨rfl, id, rfl, rfl⟩)
      | cons id' ids => exact Or.inr (Or.inr ⟨rfl, by simp, rfl⟩)

end State

/-! ## Events -/

open State

theorem step_effects {env : Env} {s s' : State} {e : Event} (h : step env s e = some s') :
    Effects env (fun i => i.name.WellFormed) anySend s.beginEvent s' := by
  cases e with
  | interest ingress frame freshNonce actions =>
    rcases step_interest h with ⟨-, rfl⟩ | ⟨i, hi, h⟩
    · exact .refl
    · rw [Outcome.survive_state h]
      have hname : (acceptedInterest env i freshNonce).name.WellFormed :=
        (Frame.decodeInterest_wellFormed hi :)
      exact (moves_onIncomingInterest (fun _ _ h => h) hname (fun _ _ _ => trivial)
        fun _ _ _ => trivial).effects env
  | data ingress frame nonces rate =>
    rcases step_data h with ⟨-, rfl⟩ | ⟨d, hd, h⟩
    · exact .refl
    · rw [Outcome.survive_state h]
      exact (moves_onIncomingData (fun _ _ h => h) (fun _ hj => hj) ingress
        (Frame.decodeData_wellFormed hd) (fun _ _ _ _ _ _ _ => trivial) rate).effects env
  | nack ingress frame reason actions =>
    rcases step_nack h with rfl | ⟨i, -, rfl⟩
    · exact .refl
    · exact (moves_onIncomingNack fun _ _ _ _ _ => trivial).effects env
  | face op => exact effects_onFaceOp h
  | expiry id =>
    rw [step_expiry h]
    exact (moves_onInterestFinalize id).effects env
  | strategy id actions =>
    obtain rfl := some.inj h
    exact (moves_actAll fun _ _ _ => trivial).effects env
  | markNonces | adjustNonces | tick =>
    obtain rfl := some.inj h
    exact .quiet rfl rfl

/-- **An event is a sequence of changes to the PIT**; new entries have well-formed names. -/
theorem step_changes {env : Env} {s s' : State} {e : Event} (h : step env s e = some s') :
    Changes (fun i => i.name.WellFormed) s.pit s'.pit :=
  (step_effects h).changes

/-! ## Properties of all entries -/

/-- A property of every entry, which may depend on its identity. -/
def Pit.All (P : EntryId → Entry → Prop) (p : Pit) : Prop := ∀ x ∈ p.entries, P x.1 x.2

/-- Every entry has a well-formed name. -/
def Pit.WellFormed (p : Pit) : Prop := p.All fun _ e => e.name.WellFormed

namespace Pit

variable {P Q : EntryId → Entry → Prop} {p q : Pit}

theorem All.get (h : p.All P) {id : EntryId} {e : Entry} (he : p.get id = some e) : P id e :=
  h (id, e) (get_eq_some_iff.1 he)

theorem All.modify (h : p.All P) (id : EntryId) {f : Entry → Entry}
    (hf : ∀ e, P id e → Q id (f e)) (hother : ∀ j e, j ≠ id → P j e → Q j e) :
    (p.modify id f).All Q := by
  intro x hx
  obtain ⟨⟨j, e⟩, hy, rfl⟩ := mem_map.1 hx
  split
  · rename_i hj
    subst hj
    exact hf e (h _ hy)
  · rename_i hj
    exact hother j e hj (h _ hy)

theorem All.insertNew (h : p.All P) {i : Interest} (hi : P p.nextId (ofInterest i)) :
    (p.insertNew i).All P := by
  intro x hx
  rcases mem_append.1 hx with hx | hx
  · exact h x hx
  · rw [mem_singleton.1 hx]
    exact hi

theorem All.erase (h : p.All P) (id : EntryId) : (p.erase id).All P :=
  fun x hx => h x (mem_filter.1 hx).1

/-- A property of the Interest and of the presence of a timer is kept by every change that creates
    no entry without it. -/
theorem All.change {N : Interest → Prop}
    (hP : ∀ j (e e' : Entry), e'.interest = e.interest →
      (e.expiryTimer.isSome = true → e'.expiryTimer.isSome = true) → P j e → P j e')
    (hN : ∀ j i, N i → P j (ofInterest i)) (h : p.All P) (hchange : Change N p q) :
    q.All P := by
  cases hchange with
  | modify id f hf =>
    exact h.modify id (fun e he => hP id e (f e) (hf e).interest_eq (hf e).timer he)
      fun _ _ _ he => he
  | inRecord id face i nonce now =>
    have hrecord : (p.modify id fun e =>
        e.insertOrUpdateInRecord face i nonce now p.nextSerial).All P := by
      refine h.modify id (fun e he => hP id e _ ?_ ?_ he) fun _ _ _ he => he
      · rw [insertOrUpdateInRecord_interest]
      · simp
    exact hrecord
  | insertNew i hi => exact h.insertNew (hN p.nextId i hi)
  | erase id => exact h.erase id
  | deleteInOutRecords face =>
    intro x hx
    obtain ⟨y, hy, rfl⟩ := mem_map.1 hx
    exact hP y.1 y.2 _ rfl (fun ht => ht) (h y hy)

theorem WellFormed.changes (h : p.WellFormed)
    (hchanges : Changes (fun i => i.name.WellFormed) p q) : q.WellFormed := by
  refine hchanges.invariant (fun p q hp hchange => ?_) h
  refine All.change (fun j e e' hi _ he => ?_) (fun j i hi => hi) hp hchange
  rw [name, hi]
  exact he

end Pit

theorem run_wellFormed {env : Env} {ok : State → Event → Prop} {s t : State} {es : List Event}
    (hrun : Run (step env) ok s es t) (hs : s.pit.WellFormed) : t.pit.WellFormed :=
  hrun.invariant (I := fun s => s.pit.WellFormed)
    (fun _ _ _ hI _ hstep => hI.changes (step_changes hstep)) hs

theorem init_wellFormed (now : Int) (garbage : Option FacePtr) (csLimit : Nat) :
    (State.init now garbage csLimit).pit.WellFormed := by
  intro x hx
  cases hx

end NdnMulticast.Nfd
