/-
  Loop detection by nonces.  A record remembers only the last nonce, and a nonce goes to the
  dead nonce list only when its record is removed.  What the pipelines do to one entry is said
  for any property that holds when the entry is satisfied and that their operations keep.
-/

import NdnMulticast.Nfd.PitChanges

namespace NdnMulticast.Nfd

open Lib Ndn State List Option Entry Pit Router

/-! ## Properties of one entry -/

/-- A property that holds once the entry is satisfied and that the operations of the pipelines keep,
    if what is recorded as sent and as heard is admissible. -/
structure Entry.Closed (J : Entry → Prop) (sends hears : FacePtr → List UInt8 → Prop) : Prop where
  of_satisfied : ∀ e : Entry, e.isSatisfied = true → J e
  timer : ∀ (e : Entry) (due : Option Int), J e → J { e with expiryTimer := due }
  nacked : ∀ (e : Entry) (face : FacePtr) (reason : NackReason),
    J e → J (e.setIncomingNack face reason)
  deleteInRecord : ∀ (e : Entry) (face : FacePtr), J e → J (e.deleteInRecord face)
  outRecord : ∀ (e : Entry) (face : FacePtr) (i : Interest) (nonce : List UInt8) (now : Int),
    sends face nonce → J e → J (e.insertOrUpdateOutRecord face i nonce now)
  inRecord : ∀ (e : Entry) (face : FacePtr) (i : Interest) (nonce : List UInt8) (now : Int)
    (serial : Nat), hears face nonce → J e → J (e.insertOrUpdateInRecord face i nonce now serial)

theorem Entry.Closed.keeps {J : Entry → Prop} {sends hears : FacePtr → List UInt8 → Prop}
    (hJ : Closed J sends hears) {e e' : Entry} (h : e.Keeps e') (he : J e) : J e' := by
  cases h with
  | timer due => exact hJ.timer e _ he
  | satisfied period => exact hJ.of_satisfied _ rfl
  | nacked face reason => exact hJ.nacked e face reason he
  | deleteInRecord face => exact hJ.deleteInRecord e face he

/-- The entry has been created, and has the property for as long as it is in the table. -/
def Pit.Kept (id : EntryId) (J : Entry → Prop) (p : Pit) : Prop :=
  id < p.nextId ∧ ∀ e, p.get id = some e → J e

namespace Pit.Kept

variable {id : EntryId} {J : Entry → Prop} {p : Pit} (h : p.Kept id J)
include h

theorem mono {J' : Entry → Prop} (hJ : ∀ e, J e → J' e) : p.Kept id J' :=
  ⟨h.1, fun e he => hJ e (h.2 e he)⟩

theorem modify {j : EntryId} {f : Entry → Entry}
    (hf : j = id → ∀ e, p.get id = some e → J e → J (f e)) : (p.modify j f).Kept id J := by
  refine ⟨h.1, fun e he => ?_⟩
  rw [get_modify] at he
  obtain ⟨e', he', rfl⟩ := map_eq_some_iff.1 he
  split
  · rename_i hj
    exact hf hj.symm e' he' (h.2 e' he')
  · exact h.2 e' he'

theorem insertNew (i : Interest) : (p.insertNew i).Kept id J := by
  refine ⟨Nat.lt_succ_of_lt h.1, fun e he => ?_⟩
  rw [get_insertNew, if_neg (Nat.ne_of_lt h.1)] at he
  exact h.2 e he

theorem erase (j : EntryId) : (p.erase j).Kept id J := by
  refine ⟨h.1, fun e he => ?_⟩
  rw [get_erase] at he
  split at he
  · cases he
  · exact h.2 e he

end Pit.Kept

/-! ## What the pipelines do to it -/

namespace State

variable {id : EntryId} {J : Entry → Prop} {sends hears : FacePtr → List UInt8 → Prop}

/-- Moves keep the property if what they record on the entry is admissible. -/
theorem Moves.kept (hJ : Closed J sends hears) {s t : State}
    (h : Moves (fun _ => True) (fun j egress i => j = id → sends egress (getNonce i))
      (fun j face nonce => j = id → hears face nonce) (fun _ _ => True) s t)
    (hs : s.pit.Kept id J) : t.pit.Kept id J := by
  induction h with
  | refl => exact hs
  | @tail t _ _ hmove ih =>
    cases hmove with
    | quiet _ hpit _ => rwa [hpit]
    | update j f hf => exact ih.modify fun _ e _ he => hJ.keeps (hf e) he
    | finish j f _ hsatisfied =>
      exact ih.modify fun hj e he _ => hJ.of_satisfied _ (hsatisfied e (hj ▸ he))
    | inRecord j face i nonce hi =>
      have hrecord :=
        ih.modify (f := (·.insertOrUpdateInRecord face i nonce t.now t.pit.nextSerial))
        fun hj e _ he => hJ.inRecord e face i nonce _ _ (hi hj) he
      exact hrecord
    | interest j egress i hi =>
      exact ih.modify fun hj e _ he => hJ.outRecord e egress i _ _ (hi hj) he
    | data | nack | setRate => exact ih
    | insertNew i _ => exact ih.insertNew i
    | erase j => exact ih.erase j

/-! ## What an event does to it -/

/-- The faces and nonces of the Interests a list of actions sends. -/
def sentBy (actions : List Strategy.Action) : List (FacePtr × List UInt8) :=
  actions.filterMap fun
    | .sendInterest egress i => some (egress, getNonce i)
    | _ => none

/-- The same for the miss pipeline, where NextHopFaceId takes the strategy's place. -/
def sentFor (s : State) (i : Interest) (actions : List Strategy.Action) :
    List (FacePtr × List UInt8) :=
  match i.nextHopFaceId with
  | some nextHop => ((s.faceTable.get nextHop).map fun egress => (egress, getNonce i)).toList
  | none => sentBy actions

theorem mem_sentBy {actions : List Strategy.Action} {egress : FacePtr} {i : Interest}
    (h : Sends actions egress i) : (egress, getNonce i) ∈ sentBy actions := by
  obtain ⟨i', hmem, rfl⟩ := h
  exact List.mem_filterMap.2 ⟨_, hmem, rfl⟩

theorem mem_sentFor {s : State} {actions : List Strategy.Action} {egress : FacePtr}
    {i j : Interest} (h : s.MissSends i actions egress j) :
    (egress, getNonce j) ∈ sentFor s i actions := by
  obtain ⟨hsteered, rfl⟩ | ⟨hhop, hsends⟩ := h
  · obtain ⟨nextHop, hhop, hegress⟩ := bind_eq_some_iff.1 hsteered
    simp [sentFor, hhop, hegress]
  · rw [sentFor, hhop]
    exact mem_sentBy hsends

/-- An Interest that does not get a new entry has found one. -/
theorem find_of_insert {p : Pit} {i : Interest} (h : (p.insert i).1 < p.nextId) :
    p.find i = some (p.insert i).1 ∧ (p.insert i).2 = p := by
  rcases p.insert_cases i with ⟨j, e, hfind, -, hins⟩ | ⟨-, hins⟩
  · rw [hins]
    exact ⟨hfind, rfl⟩
  · rw [hins] at h
    exact absurd h (Nat.lt_irrefl _)

/-- What the event records on the entry is admissible. -/
def Admissible (env : Env) (s : State) (id : EntryId) (J : Entry → Prop)
    (sends hears : FacePtr → List UInt8 → Prop) : Event → Prop
  | .interest ingress frame freshNonce actions =>
    ∀ i, frame.decodeInterest env = some i →
      s.pit.find (acceptedInterest env i freshNonce) = some id →
      (∀ e, s.pit.get id = some e →
        hasDuplicateNonceInPit env e (getNonce (acceptedInterest env i freshNonce)) ingress
          = false → hears ingress (getNonce (acceptedInterest env i freshNonce))) ∧
      ∀ x ∈ sentFor s (acceptedInterest env i freshNonce) actions, sends x.1 x.2
  | .data _ frame nonces _ =>
    ∀ d, frame.decodeData = some d → filePrefix.isPrefixOf d.name = true →
      ∀ count, segmentCount d = .ok count → ∀ n < count.toNat, ∀ face, hears face (nonces n)
  | .nack _ frame _ actions =>
    ∀ i, frame.decodeInterest env = some i → s.pit.find i = some id →
      ∀ x ∈ sentBy actions, sends x.1 x.2
  | .face (.closed p) =>
    ∀ e, s.pit.get id = some e → J e → J ((e.deleteInRecord p).deleteOutRecord p)
  | .strategy j actions => j = id → ∀ x ∈ sentBy actions, sends x.1 x.2
  | _ => True

end State

open State

theorem step_kept {id : EntryId} {J : Entry → Prop} {sends hears : FacePtr → List UInt8 → Prop}
    (hJ : Closed J sends hears) {env : Env} {s s' : State} {ev : Event}
    (hadm : Admissible env s id J sends hears ev) (h : s.pit.Kept id J)
    (hstep : step env s ev = some s') : s'.pit.Kept id J := by
  have hbegin : s.beginEvent.pit.Kept id J := h
  cases ev with
  | interest ingress frame freshNonce actions =>
    rcases step_interest hstep with ⟨-, rfl⟩ | ⟨i, hi, hstep⟩
    · exact h
    rw [Outcome.survive_state hstep]
    -- what is recorded on the entry is about an Interest that has found it
    have hfound : (s.pit.insert (acceptedInterest env i freshNonce)).1 = id →
        s.pit.find (acceptedInterest env i freshNonce) = some id ∧
          (s.pit.insert (acceptedInterest env i freshNonce)).2 = s.pit := by
      rintro rfl
      exact find_of_insert h.1
    refine Moves.kept hJ (moves_onIncomingInterest (fun _ _ _ => trivial) trivial ?_ ?_) hbegin
    · intro e he hdup hj
      obtain ⟨hfind, hpit⟩ := hfound hj
      have he : (s.pit.insert (acceptedInterest env i freshNonce)).2.get
          (s.pit.insert (acceptedInterest env i freshNonce)).1 = some e := he
      rw [hpit, show (s.pit.insert _).1 = id from hj] at he
      exact (hadm i hi hfind).1 e he hdup
    · exact fun egress j hj hid => (hadm i hi (hfound hid).1).2 _ (mem_sentFor hj)
  | data ingress frame nonces rate =>
    rcases step_data hstep with ⟨-, rfl⟩ | ⟨d, hd, hstep⟩
    · exact h
    · rw [Outcome.survive_state hstep]
      refine Moves.kept hJ (moves_onIncomingData (fun _ _ _ => trivial) (fun _ _ => trivial) ingress
        (Frame.decodeData_wellFormed hd) ?_ rate) hbegin
      exact fun hfile count hcount n hn _ face _ => hadm d hd hfile count hcount n hn face
  | nack ingress frame reason actions =>
    rcases step_nack hstep with rfl | ⟨i, hi, rfl⟩
    · exact h
    · refine Moves.kept hJ (moves_onIncomingNack fun j hfind egress i' hsends hj => ?_) hbegin
      exact hadm i hi (hj ▸ hfind) _ (mem_sentBy hsends)
  | face op =>
    simp only [step, onFaceOp] at hstep
    split at hstep
    · cases hstep
    split at hstep
    · rename_i p
      rw [← some.inj hstep]
      refine ⟨h.1, fun e he => ?_⟩
      obtain ⟨e', he', rfl⟩ := map_eq_some_iff.1 (Pit.get_deleteInOutRecords ▸ he)
      exact hadm e' he' (h.2 e' he')
    · rw [← some.inj hstep]
      exact h
  | expiry j =>
    rw [step_expiry hstep]
    exact Moves.kept hJ (moves_onInterestFinalize j) hbegin
  | strategy j actions =>
    rw [← some.inj hstep]
    refine Moves.kept hJ (moves_actAll fun egress i hsends hj => ?_) hbegin
    exact hadm hj _ (mem_sentBy hsends)
  | markNonces | adjustNonces | tick =>
    rw [← some.inj hstep]
    exact h

/-! ## Remembering a nonce -/

namespace Entry

/-- The last Interest sent to a face had this nonce. -/
def sentTo (e : Entry) (nonce : List UInt8) (egress : FacePtr) : Bool :=
  e.outRecords.any fun r => r.lastNonce == nonce && r.face == egress

/-- The last Interest that came from a face had this nonce. -/
def heardOn (e : Entry) (nonce : List UInt8) (ingress : FacePtr) : Bool :=
  e.inRecords.any fun r => r.lastNonce == nonce && r.face == ingress

variable {e : Entry} {face : FacePtr} {n : List UInt8}

theorem sentTo_iff {nonce : List UInt8} {egress : FacePtr} :
    e.sentTo nonce egress = true ↔ ∃ r ∈ e.outRecords, r.face = egress ∧ r.lastNonce = nonce := by
  simp [sentTo, and_comm]

theorem heardOn_eq_false_iff {nonce : List UInt8} {ingress : FacePtr} :
    e.heardOn nonce ingress = false ↔
      ∀ r ∈ e.inRecords, r.face = ingress → r.lastNonce ≠ nonce := by
  simp only [heardOn, List.any_eq_false, Bool.and_eq_true, beq_iff_eq, not_and]
  exact forall₂_congr fun r _ => ⟨fun h hface hnonce => h hnonce hface, fun h hnonce hface =>
    h hface hnonce⟩

/-- The entry is satisfied, or remembers the nonce: sent to `egress`, and not from `ingress`. -/
def Remembers (nonce : List UInt8) (egress ingress : FacePtr) (e : Entry) : Prop :=
  e.isSatisfied = true ∨ (e.sentTo nonce egress = true ∧ e.heardOn nonce ingress = false)

variable {nonce : List UInt8} {egress ingress : FacePtr}

theorem closed_isSatisfied :
    Closed (fun e => e.isSatisfied = true) (fun _ _ => True) (fun _ _ => True) where
  of_satisfied := fun _ he => he
  timer := fun _ _ he => he
  nacked := fun _ _ _ he => he
  deleteInRecord := fun _ _ he => he
  outRecord := fun e face i n now _ he =>
    (insertOrUpdateOutRecord_isSatisfied e face i n now).trans he
  inRecord := fun e face i n now serial _ he =>
    (insertOrUpdateInRecord_isSatisfied e face i n now serial).trans he

/-- A renewed out-record keeps the nonce if it is renewed with that nonce. -/
theorem sentTo_insertOrUpdateOutRecord (i : Interest) (now : Int) (hn : face = egress → n = nonce)
    (h : e.sentTo nonce egress = true) :
    (e.insertOrUpdateOutRecord face i n now).sentTo nonce egress = true := by
  rw [sentTo_iff] at h ⊢
  obtain ⟨r, hr, hface, hnonce⟩ := h
  unfold insertOrUpdateOutRecord
  split
  · refine ⟨_, mem_map.2 ⟨r, hr, rfl⟩, ?_⟩
    split
    · rename_i hsame
      exact ⟨hface, hn (hsame.symm.trans hface)⟩
    · exact ⟨hface, hnonce⟩
  · exact ⟨r, .tail _ hr, hface, hnonce⟩

/-- An in-record made or renewed with another nonce does not hold this one. -/
theorem heardOn_insertOrUpdateInRecord (i : Interest) (now : Int) (serial : Nat)
    (hn : face = ingress → n ≠ nonce) (h : e.heardOn nonce ingress = false) :
    (e.insertOrUpdateInRecord face i n now serial).heardOn nonce ingress = false := by
  rw [heardOn_eq_false_iff] at h ⊢
  intro r hr hface
  rcases of_mem_insertOrUpdateInRecord hr with ⟨hmem, -⟩ | ⟨hsame, hnonce, -⟩
  · exact h r hmem hface
  · rw [hnonce]
    exact hn (hsame.symm.trans hface)

theorem closed_remembers : Closed (Remembers nonce egress ingress)
    (fun face n => face = egress → n = nonce) (fun face n => face = ingress → n ≠ nonce) where
  of_satisfied := fun _ he => Or.inl he
  timer := fun _ _ he => he
  nacked := by
    intro e face reason he
    refine he.imp id (And.imp_left fun hsent => ?_)
    rw [sentTo_iff] at hsent ⊢
    obtain ⟨r, hr, hface, hnonce⟩ := hsent
    refine ⟨_, mem_map.2 ⟨r, hr, rfl⟩, ?_⟩
    split
    · exact ⟨hface, hnonce⟩
    · exact ⟨hface, hnonce⟩
  deleteInRecord := by
    intro e face he
    refine he.imp id (And.imp_right fun hheard => ?_)
    rw [heardOn_eq_false_iff] at hheard ⊢
    exact fun r hr => hheard r (mem_filter.1 hr).1
  outRecord := by
    intro e face i n now hn he
    rw [Remembers, insertOrUpdateOutRecord_isSatisfied, heardOn, insertOrUpdateOutRecord_inRecords]
    exact he.imp_right (And.imp_left (sentTo_insertOrUpdateOutRecord i now hn))
  inRecord := by
    intro e face i n now serial hn he
    rw [Remembers, insertOrUpdateInRecord_isSatisfied, sentTo, insertOrUpdateInRecord_outRecords]
    exact he.imp_right (And.imp_right (heardOn_insertOrUpdateInRecord i now serial hn))

end Entry

/-! ## Events that keep the nonces -/

namespace State

/-- One of the Interests sent puts another nonce on an out-record of the entry. -/
def overwrites (e : Entry) (sent : List (FacePtr × List UInt8)) : Bool :=
  sent.any fun x => e.outRecords.any fun r => r.face == x.1 && r.lastNonce != x.2

/-- None of the nonces drawn for the segments of a file is on an out-record. -/
def drawsUnused (s : State) (d : Data) (nonces : Nat → List UInt8) : Bool :=
  !filePrefix.isPrefixOf d.name ||
    match segmentCount d with
    | .ok count => (List.range count.toNat).all fun n =>
      s.pit.entries.all fun x => x.2.outRecords.all fun r => r.lastNonce != nonces n
    | .error _ => true

/-- No entry forgets a nonce that it has sent: an Interest finds no satisfied entry, an upstream is
    not sent another nonce, an upstream's face does not go away. -/
def keepsNonces (env : Env) (s : State) : Event → Bool
  | .interest _ frame freshNonce actions =>
    (frame.decodeInterest env).all fun i =>
      let i := acceptedInterest env i freshNonce
      ((s.pit.find i).bind s.pit.get).all fun e =>
        !e.isSatisfied && !overwrites e (sentFor s i actions)
  | .data _ frame nonces _ => frame.decodeData.all fun d => s.drawsUnused d nonces
  | .nack _ frame _ actions =>
    (frame.decodeInterest env).all fun i =>
      ((s.pit.find i).bind s.pit.get).all fun e => e.isSatisfied || !overwrites e (sentBy actions)
  | .face (.closed p) =>
    s.pit.entries.all fun x => x.2.isSatisfied || x.2.outRecords.all (·.face != p)
  | .strategy id actions =>
    (s.pit.get id).all fun e => e.isSatisfied || !overwrites e (sentBy actions)
  | _ => true

variable {nonce : List UInt8} {egress ingress : FacePtr} {e : Entry}

/-- A nonce that was sent and did not come from the face is a loop on that face. -/
theorem hasDuplicateNonceInPit_of_remembers (env : Env) (hsent : e.sentTo nonce egress = true)
    (hheard : e.heardOn nonce ingress = false) :
    hasDuplicateNonceInPit env e nonce ingress = true := by
  have hout : (e.outRecords.any fun r => r.lastNonce == nonce) = true := by
    obtain ⟨r, hr, -, hnonce⟩ := sentTo_iff.1 hsent
    exact any_eq_true.2 ⟨r, hr, by simpa using hnonce⟩
  have hsame : (e.inRecords.any fun r => r.lastNonce == nonce && r.face == ingress) = false :=
    hheard
  simp [hasDuplicateNonceInPit, hout, hsame]

theorem sends_of_not_overwrites {sent : List (FacePtr × List UInt8)}
    (h : overwrites e sent = false) (hsent : e.sentTo nonce egress = true) :
    ∀ x ∈ sent, x.1 = egress → x.2 = nonce := by
  obtain ⟨r, hr, hface, hnonce⟩ := sentTo_iff.1 hsent
  intro x hx hegress
  have hx := any_eq_false.1 h x hx
  have hr := any_eq_false.1 (Bool.eq_false_iff.2 hx) r hr
  rw [hface, hnonce, hegress] at hr
  have heq : nonce = x.2 := by simpa using hr
  exact heq.symm

theorem admissible_isSatisfied (env : Env) (s : State) (id : EntryId) (ev : Event) :
    Admissible env s id (fun e => e.isSatisfied = true) (fun _ _ => True) (fun _ _ => True) ev := by
  cases ev with
  | interest ingress frame freshNonce actions =>
    exact fun _ _ _ => ⟨fun _ _ _ => trivial, fun _ _ => trivial⟩
  | data ingress frame nonces rate => exact fun _ _ _ _ _ _ _ _ => trivial
  | nack ingress frame reason actions => exact fun _ _ _ _ _ => trivial
  | face op =>
    cases op with
    | closed p => exact fun _ _ he => he
    | _ => trivial
  | strategy j actions => exact fun _ _ _ => trivial
  | _ => trivial

theorem admissible_of_keepsNonces {env : Env} {s : State} {id : EntryId} {ev : Event}
    (hok : keepsNonces env s ev = true) (he : s.pit.get id = some e)
    (hwait : e.isSatisfied = false) (hsent : e.sentTo nonce egress = true)
    (hheard : e.heardOn nonce ingress = false) :
    Admissible env s id (Remembers nonce egress ingress)
      (fun face n => face = egress → n = nonce) (fun face n => face = ingress → n ≠ nonce) ev := by
  cases ev with
  | interest face frame freshNonce actions =>
    intro i hi hfind
    simp only [keepsNonces, hi, hfind, he, all_some, bind_some, hwait,
      Bool.not_false, Bool.true_and, Bool.not_eq_true'] at hok
    refine ⟨?_, sends_of_not_overwrites hok hsent⟩
    intro e' he' hdup hface hnonce
    obtain rfl : e = e' := mem_unique he he'
    rw [hnonce, hface, hasDuplicateNonceInPit_of_remembers env hsent hheard] at hdup
    cases hdup
  | data face frame nonces rate =>
    intro d hd hfile count hcount n hn face _
    simp only [keepsNonces, hd, all_some, drawsUnused, hfile, hcount, Bool.not_true,
      Bool.false_or] at hok
    obtain ⟨r, hr, -, hnonce⟩ := sentTo_iff.1 hsent
    have hunused := all_eq_true.1 hok n (mem_range.2 hn)
    have hentry := all_eq_true.1 hunused (id, e) (get_eq_some_iff.1 he)
    have hrecord := all_eq_true.1 hentry r hr
    rw [hnonce] at hrecord
    exact fun h => (bne_iff_ne.1 hrecord) h.symm
  | nack face frame reason actions =>
    intro i hi hfind
    simp only [keepsNonces, hi, hfind, he, all_some, bind_some, hwait,
      Bool.false_or, Bool.not_eq_true'] at hok
    exact sends_of_not_overwrites hok hsent
  | face op =>
    cases op with
    | closed p =>
      intro e' he' hJ
      obtain rfl : e = e' := mem_unique he he'
      have hentry := all_eq_true.1 hok (id, e) (get_eq_some_iff.1 he)
      simp only [hwait, Bool.false_or] at hentry
      refine Or.inr ⟨?_, ?_⟩
      · obtain ⟨r, hr, hface, hnonce⟩ := sentTo_iff.1 hsent
        have hother := all_eq_true.1 hentry r hr
        exact sentTo_iff.2 ⟨r, mem_filter.2 ⟨hr, hother⟩, hface, hnonce⟩
      · rw [heardOn_eq_false_iff] at hheard ⊢
        exact fun r hr => hheard r (mem_filter.1 hr).1
    | _ => trivial
  | strategy j actions =>
    rintro rfl
    simp only [keepsNonces, he, all_some, hwait, Bool.false_or, Bool.not_eq_true'] at hok
    exact sends_of_not_overwrites hok hsent
  | _ => trivial

end State

variable {id : EntryId} {nonce : List UInt8} {egress ingress : FacePtr}

/-- An event that keeps the nonces leaves an entry that remembers one as it is, or satisfied. -/
theorem step_remembers {env : Env} {s s' : State} {ev : Event} (hok : keepsNonces env s ev = true)
    (h : s.pit.Kept id (Remembers nonce egress ingress)) (hstep : step env s ev = some s') :
    s'.pit.Kept id (Remembers nonce egress ingress) := by
  by_cases hsat : ∀ e, s.pit.get id = some e → e.isSatisfied = true
  · -- satisfied, or gone: it stays so whatever happens
    have hkept : s.pit.Kept id fun e => e.isSatisfied = true := ⟨h.1, hsat⟩
    refine (step_kept closed_isSatisfied ?_ hkept hstep).mono fun e he => Or.inl he
    exact admissible_isSatisfied env s id ev
  · simp only [not_forall] at hsat
    obtain ⟨e, he, hwait⟩ := hsat
    have hwait : e.isSatisfied = false := by simpa using hwait
    rcases h.2 e he with hsat | ⟨hsent, hheard⟩
    · rw [hwait] at hsat
      cases hsat
    · exact step_kept closed_remembers (admissible_of_keepsNonces hok he hwait hsent hheard) h hstep

theorem run_remembers {env : Env} {s t : State} {es : List Event}
    (hrun : Run (step env) (fun s ev => keepsNonces env s ev = true) s es t)
    (h : s.pit.Kept id (Remembers nonce egress ingress)) :
    t.pit.Kept id (Remembers nonce egress ingress) :=
  hrun.invariant (I := fun s => s.pit.Kept id (Remembers nonce egress ingress))
    (fun _ _ _ hI hok hstep => step_remembers hok hI hstep) h

/-! ## Loops -/

namespace State

variable {id : EntryId}

theorem onIncomingInterest_of_duplicate {env : Env} {s : State} {ingress : FacePtr} {i : Interest}
    {freshNonce : List UInt8} (actions : List Strategy.Action) {e : Entry}
    (hfind : s.pit.find (acceptedInterest env i freshNonce) = some id) (he : s.pit.get id = some e)
    (hdup : hasDuplicateNonceInPit env e (getNonce (acceptedInterest env i freshNonce)) ingress
      = true) :
    (s.onIncomingInterest env ingress i freshNonce actions).state.pit = s.pit ∧
      ∀ egress j, .interest egress j ∈
        (s.onIncomingInterest env ingress i freshNonce actions).state.sent →
          .interest egress j ∈ s.sent := by
  have hloop : ∀ (t : State) (j : Interest), t.pit = s.pit → t.sent = s.sent →
      (t.onInterestLoop env ingress j).pit = s.pit ∧
        ∀ egress k, .interest egress k ∈ (t.onInterestLoop env ingress j).sent →
          .interest egress k ∈ s.sent := by
    intro t j hpit hsent
    refine ⟨by rw [onInterestLoop_pit, hpit], fun egress k hk => ?_⟩
    unfold onInterestLoop at hk
    split at hk
    · rwa [hsent] at hk
    · simpa [hsent] using hk
  have hinsert : s.pit.insert (acceptedInterest env i freshNonce) = (id, s.pit) := by
    simp [Pit.insert, hfind]
  have hprocess : (s.count fun c => { c with nInInterests := c.nInInterests + 1 }).processInterest
      env ingress (acceptedInterest env i freshNonce) actions =
        ⟨(s.count fun c => { c with nInInterests := c.nInInterests + 1 }).onInterestLoop env ingress
          (acceptedInterest env i freshNonce), none⟩ := by
    simp only [processInterest, count_pit, hinsert, he, hdup, if_true]
    rfl
  unfold onIncomingInterest
  dsimp only
  split
  · exact ⟨rfl, fun _ _ h => h⟩
  split
  · exact ⟨rfl, fun _ _ h => h⟩
  split
  · exact hloop _ _ rfl rfl
  · have heq : stripForwardingHint env (receiveInterest i freshNonce) =
        acceptedInterest env i freshNonce := rfl
    rw [heq, hprocess]
    exact hloop _ _ rfl rfl

/-- The event that led to the state sent an Interest with the nonce from the entry to a face. -/
def Forwarded (s : State) (id : EntryId) (nonce : List UInt8) (egress : FacePtr) : Prop :=
  (∃ i, .interest egress i ∈ s.sent ∧ getNonce i = nonce) ∧
    ∃ e, s.pit.get id = some e ∧ e.sentTo nonce egress = true

/-- An Interest with the nonce is among the packets sent to a face. -/
def sendsNonce (sent : List Output) (nonce : List UInt8) (egress : FacePtr) : Bool :=
  sent.any fun
    | .interest p i => p == egress && getNonce i == nonce
    | _ => false

theorem forwarded_iff {s : State} {nonce : List UInt8} {egress : FacePtr} :
    s.Forwarded id nonce egress ↔
      sendsNonce s.sent nonce egress = true ∧
        (s.pit.get id).any (·.sentTo nonce egress) = true := by
  refine and_congr ?_ ?_
  · grind [sendsNonce]
  · cases s.pit.get id <;> simp

instance (s : State) (id : EntryId) (nonce : List UInt8) (egress : FacePtr) :
    Decidable (s.Forwarded id nonce egress) :=
  decidable_of_iff _ forwarded_iff.symm

end State

/-- **Loops are recognised.**  An Interest was forwarded from an entry, and its nonce is not that of
    the last one from `ingress`.  If the events since then keep the nonces and no Data has come, an
    Interest of the entry with that nonce that arrives on `ingress` is a loop, whatever the strategy
    would do about it: nothing is forwarded and the PIT is unchanged. -/
theorem run_recognises_loop {env : Env} {s t t' : State} {es : List Event} {id : EntryId}
    {nonce : List UInt8} {egress ingress : FacePtr} {frame : Frame} {freshNonce : List UInt8}
    {actions : List Strategy.Action} {i : Interest}
    (hforwarded : s.Forwarded id nonce egress)
    (hother : ∀ e, s.pit.get id = some e → e.heardOn nonce ingress = false)
    (hrun : Run (step env) (fun s ev => keepsNonces env s ev = true) s es t)
    (hwait : ∀ e, t.pit.get id = some e → e.isSatisfied = false)
    (hi : frame.decodeInterest env = some i)
    (hfind : t.pit.find (acceptedInterest env i freshNonce) = some id)
    (hnonce : getNonce (acceptedInterest env i freshNonce) = nonce)
    (hstep : step env t (.interest ingress frame freshNonce actions) = some t') :
    (∃ e, t.pit.get id = some e ∧ hasDuplicateNonceInPit env e nonce ingress = true) ∧
      t'.pit = t.pit ∧ ∀ egress' j, .interest egress' j ∉ t'.sent := by
  obtain ⟨-, e₀, he₀, hsent₀⟩ := hforwarded
  have hcreated : id < s.pit.nextId := s.pit.id_lt (id, e₀) (get_eq_some_iff.1 he₀)
  have hstart : s.pit.Kept id (Remembers nonce egress ingress) := by
    refine ⟨hcreated, fun e he => Or.inr ⟨?_, hother e he⟩⟩
    obtain rfl : e₀ = e := mem_unique he₀ he
    exact hsent₀
  obtain ⟨e, he, -, -⟩ := find_eq_some hfind
  have hdup : hasDuplicateNonceInPit env e nonce ingress = true := by
    rcases (run_remembers hrun hstart).2 e he with hsat | ⟨hsent, hheard⟩
    · rw [hwait e he] at hsat
      cases hsat
    · exact hasDuplicateNonceInPit_of_remembers env hsent hheard
  refine ⟨⟨e, he, hdup⟩, ?_⟩
  rcases step_interest hstep with ⟨-, rfl⟩ | ⟨i', hi', hstep⟩
  · exact ⟨rfl, fun _ _ h => by cases h⟩
  · obtain rfl : i = i' := mem_unique hi hi'
    rw [Outcome.survive_state hstep]
    obtain ⟨hpit, hsent⟩ := onIncomingInterest_of_duplicate (s := t.beginEvent) actions hfind he
      (hnonce.symm ▸ hdup)
    exact ⟨hpit, fun egress' j h => by cases hsent egress' j h⟩

namespace Router

/-- An Interest `/a` arrives and is sent to the wired upstream. -/
def forwardA (ingress : FacePtr) (nonce : UInt8) : Event :=
  interest ingress ["a"] nonce [.sendInterest 5 (pendingInterest nonce)]

/-- The application's Interest with nonce 1 has been forwarded. -/
def forwarded : State :=
  ((boot [1, 2, 5, 6] ++ [forwardA 1 1]).foldlM (step env) start).get (by decide)

/-- A consumer has sent an Interest of its own, which was aggregated. -/
def aggregated : State := (step env forwarded (interest 2 ["a"] 2 [])).get (by decide)

end Router

/-- The forwarded Interest comes back from another upstream. -/
theorem run_recognises_loop_echo :
    ∃ t', step Router.env Router.aggregated (Router.forwardA 6 1) = some t' ∧
      ∀ egress j, .interest egress j ∉ t'.sent := by
  have hforwarded : forwarded.Forwarded 0 [0, 0, 0, 1] 5 := by decide
  have hother : ∀ e, forwarded.pit.get 0 = some e → e.heardOn [0, 0, 0, 1] 6 = false := by
    have htest : (forwarded.pit.get 0).all (fun e => !e.heardOn [0, 0, 0, 1] 6) = true := by
      decide
    intro e he
    simpa [he] using htest
  have hrun : Run (step env) (fun s ev => keepsNonces env s ev = true)
      forwarded [interest 2 ["a"] 2 []] aggregated :=
    .cons (by decide) (some_get _).symm (.nil _)
  have hwait : ∀ e, aggregated.pit.get 0 = some e → e.isSatisfied = false := by
    have htest : (aggregated.pit.get 0).all (fun e => !e.isSatisfied) = true := by
      decide
    intro e he
    simpa [he] using htest
  have hi : (frame (element Tlv.interest
      (name ["a"] ++ element Tlv.nonce [0, 0, 0, 1]))).decodeInterest env
        = some (pendingInterest 1) := by decide
  have hsome : (step env aggregated (forwardA 6 1)).isSome = true := by decide
  have hstep := (some_get hsome).symm
  exact ⟨_, hstep, (run_recognises_loop hforwarded hother hrun hwait hi (by decide) rfl hstep).2.2⟩

/-- The application repeats its Interest with a new nonce, which replaces the first on both records;
    the first one, coming back on another face, is forwarded again. -/
theorem run_forwards_loop :
    Run (step Router.env) (fun _ _ => True) Router.start
        (Router.boot [1, 2, 5, 6] ++ [Router.forwardA 1 1]) Router.forwarded ∧
      Router.forwarded.Forwarded 0 [0, 0, 0, 1] 5 ∧
      ∃ t, Run (step Router.env) (fun _ _ => True) Router.forwarded
          [.tick 20000000, Router.forwardA 1 2, .tick 40000000, Router.forwardA 2 1] t ∧
        t.Forwarded 0 [0, 0, 0, 1] 5 := by
  refine ⟨Run.of_foldlM (some_get _).symm, by decide, ?_⟩
  exact Run.exists_of_decide _ (by decide) fun _ _ ht => ht

end NdnMulticast.Nfd
