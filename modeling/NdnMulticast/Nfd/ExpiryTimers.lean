/-
  Which events leave a PIT entry without an expiry timer.

  The incoming Interest pipeline sets the timer right after the lookup, unless the lookup
  raises; the segment entries made for a file get none at all.
-/

import NdnMulticast.Nfd.PitChanges

namespace NdnMulticast.Nfd

open Lib Ndn State Entry

namespace Pit

variable {p q : Pit}

/-- Every entry has an expiry timer. -/
def AllTimed (p : Pit) : Prop := p.All fun _ e => e.expiryTimer.isSome = true

instance (p : Pit) : Decidable p.AllTimed :=
  inferInstanceAs (Decidable (∀ x ∈ p.entries, x.2.expiryTimer.isSome = true))

/-- Every entry but possibly one has an expiry timer. -/
def TimedExcept (id : EntryId) (p : Pit) : Prop :=
  p.All fun j e => j ≠ id → e.expiryTimer.isSome = true

theorem AllTimed.changes (h : p.AllTimed) (hchanges : Changes noEntry p q) : q.AllTimed :=
  hchanges.invariant (fun _ _ hp hchange =>
    All.change (fun _ _ _ _ htimer he => htimer he) (fun _ _ hi => hi.elim) hp hchange) h

theorem TimedExcept.changes {id : EntryId} (h : p.TimedExcept id)
    (hchanges : Changes noEntry p q) : q.TimedExcept id :=
  hchanges.invariant (fun _ _ hp hchange =>
    All.change (fun _ _ _ _ htimer he hj => htimer (he hj)) (fun _ _ hi => hi.elim) hp hchange) h

theorem AllTimed.insertNew (h : p.AllTimed) (i : Interest) :
    (p.insertNew i).TimedExcept p.nextId := by
  have hexcept : p.TimedExcept p.nextId := fun x hx _ => h x hx
  exact All.insertNew hexcept fun hne => absurd rfl hne

theorem TimedExcept.setsTimer {id : EntryId} (h : p.TimedExcept id)
    (hset : SetsTimer id p q) : q.AllTimed := by
  obtain ⟨p', due, hbefore, hafter⟩ := hset
  have hmid : (p'.modify id fun e => { e with expiryTimer := some due }).AllTimed :=
    (h.changes hbefore).modify id (fun _ _ => rfl) fun j e hj he => he hj
  exact hmid.changes hafter

/-! ## Lookups do not depend on records -/

theorem find_modify {id : EntryId} {f : Entry → Entry} (hf : ∀ e, (f e).interest = e.interest)
    (i : Interest) : (p.modify id f).find i = p.find i := by
  have hentry : ∀ (j : EntryId) (e : Entry), (if j = id then f e else e).interest = e.interest := by
    intro j e
    split
    · exact hf e
    · rfl
  have hpred : (fun x : EntryId × Entry => x.2.attachedAt i.name (nteDepth i.name) &&
        x.2.canMatch i (nteDepth i.name)) ∘
        (fun x : EntryId × Entry => (x.1, if x.1 = id then f x.2 else x.2))
      = fun x => x.2.attachedAt i.name (nteDepth i.name) && x.2.canMatch i (nteDepth i.name) := by
    funext x
    simp only [Function.comp, attachedAt, canMatch, name, hentry]
  simp only [find, modify, List.find?_map, hpred, Option.map_map]
  rfl

theorem find_insertOrUpdateInRecord (id : EntryId) (face : FacePtr) (j i : Interest)
    (nonce : List UInt8) (now : Int) :
    (p.insertOrUpdateInRecord id face j nonce now).find i = p.find i :=
  find_modify (fun e => insertOrUpdateInRecord_interest e face j nonce now p.nextSerial) i

end Pit

namespace State

/-! ## The segment entries of a file whose entries are all there -/

/-- There is an entry for a segment already. -/
def hasSegmentEntry (env : Env) (p : Pit) (d : Data) (segment : Nat) : Bool :=
  match segmentName env d segment with
  | .ok name => (p.find (segmentInterest name [])).isSome
  | .error _ => true

theorem createSegmentEntry_of_found {s : State} {i : Interest} (faces : List FacePtr)
    (h : (s.pit.find i).isSome = true) :
    Pit.Changes noEntry s.pit (s.createSegmentEntry faces i).pit ∧
      ∀ j, (s.createSegmentEntry faces i).pit.find j = s.pit.find j := by
  obtain ⟨id, hid⟩ := Option.isSome_iff_exists.1 h
  have hins : s.pit.insert i = (id, s.pit) := by simp [Pit.insert, hid]
  unfold createSegmentEntry
  rw [hins]
  generalize s.pit = p
  induction faces generalizing p with
  | nil => exact ⟨.refl, fun _ => rfl⟩
  | cons face faces ih =>
    obtain ⟨hchanges, hfind⟩ := ih (p.insertOrUpdateInRecord id face i (getNonce i) s.now)
    refine ⟨Relation.ReflTransGen.head (.inRecord id face i _ _) hchanges, fun j => ?_⟩
    exact (hfind j).trans (Pit.find_insertOrUpdateInRecord id face i j _ _)

theorem createSegmentEntries_of_found (env : Env) (d : Data) (nonces : Nat → List UInt8)
    (faces : List FacePtr) (segments : List Nat) (s : State)
    (h : ∀ segment ∈ segments, hasSegmentEntry env s.pit d segment = true) :
    Pit.Changes noEntry s.pit (createSegmentEntries env d nonces faces segments s).state.pit := by
  induction segments generalizing s with
  | nil => exact .refl
  | cons segment segments ih =>
    unfold createSegmentEntries
    split
    · exact .refl
    rename_i name hname
    have hthere := h segment (by simp)
    rw [hasSegmentEntry, hname] at hthere
    obtain ⟨hchanges, hfind⟩ :=
      createSegmentEntry_of_found (i := segmentInterest name (nonces segment)) faces hthere
    refine hchanges.trans (ih _ fun k hk => ?_)
    -- the entries of the other segments are still found
    have hk' := h k (by simp [hk])
    unfold hasSegmentEntry at hk' ⊢
    split
    · simp_all
    · rfl

end State

/-! ## Events that keep the timers -/

variable (env : Env) (s : State)

/-- No entry stays without a timer: the Interest is dropped, has an entry, or its lookup works. -/
def keepsTimersInterest (ingress : FacePtr) (freshNonce : List UInt8) (i : Interest) : Bool :=
  State.isDropped env s ingress i freshNonce || (s.pit.find i).isSome ||
    !s.cs.isServing || Cs.hasRange env.sha256 s.cs.table i.name

/-- No entry is left without a timer: the Data is dropped, matches no or several entries, is not
    under `/File`, raises, or announces a file whose segment entries are all there. -/
def keepsTimersData (ingress : FacePtr) (d : Data) : Bool :=
  State.isViolatingLocalhost env ingress d.name ||
    (s.pit.findAllDataMatches env.sha256 d).length != 1 ||
    !State.filePrefix.isPrefixOf d.name ||
    match State.segmentCount d with
    | .error _ => true
    | .ok count => (List.range count.toNat).all (State.hasSegmentEntry env s.pit d)

def keepsTimers : Event → Bool
  | .interest ingress frame freshNonce _ =>
    (frame.decodeInterest env).all (keepsTimersInterest env s ingress freshNonce)
  | .data ingress frame _ _ => frame.decodeData.all (keepsTimersData env s ingress)
  | _ => true

namespace State

variable {env : Env} {s : State}

theorem processInterest_timed (ingress : FacePtr) (i : Interest) (actions : List Strategy.Action)
    (hs : s.pit.AllTimed)
    (hok : (s.pit.find i).isSome = true ∨ s.cs.isServing = false ∨
      Cs.hasRange env.sha256 s.cs.table i.name = true) :
    (s.processInterest env ingress i actions).state.pit.AllTimed := by
  rcases s.processInterest_cases env ingress i actions with
    ⟨id, e, -, -, hprocess⟩ | ⟨hnone, hprocess⟩
  · -- the entry was there, and no other is created
    rw [hprocess]
    split
    · rw [onInterestLoop_pit]
      exact hs
    · grind [lookupContentStore_cases, Pit.AllTimed.changes, SetsTimer.changes,
        onContentStoreMiss_setsTimer]
  · -- the timer of the new entry is set, because the lookup does not fail
    have hlookup : s.cs.isServing = false ∨ Cs.hasRange env.sha256 s.cs.table i.name = true := by
      rcases hok with hsome | h
      · rw [hnone] at hsome
        cases hsome
      · exact h
    rw [hprocess]
    rcases lookupContentStore_cases env { s with pit := s.pit.insertNew i } ingress s.pit.nextId i
      actions with ⟨-, h⟩ | ⟨hfault, -⟩
    · exact (hs.insertNew i).setsTimer h
    · simp_all [lookupContentStore_fault_eq_none_iff]

theorem onIncomingInterest_timed {ingress : FacePtr} {i : Interest}
    {freshNonce : List UInt8} (actions : List Strategy.Action) (hs : s.pit.AllTimed)
    (hok : keepsTimersInterest env s ingress freshNonce i = true) :
    (s.onIncomingInterest env ingress i freshNonce actions).state.pit.AllTimed := by
  rcases s.onIncomingInterest_cases env ingress i freshNonce actions with
    ⟨-, -, hpit⟩ | ⟨hdropped, heq⟩
  · rw [hpit]
    exact hs
  · rw [heq]
    refine processInterest_timed (s := s.count _) ingress _ actions hs ?_
    have hfind : s.pit.find (acceptedInterest env i freshNonce) = s.pit.find i := rfl
    have hname : (acceptedInterest env i freshNonce).name = i.name := rfl
    rw [count_pit, count_cs, hfind, hname]
    simpa [keepsTimersInterest, hdropped, or_assoc] using hok

theorem onIncomingData_timed {ingress : FacePtr} {d : Data} (nonces : Nat → List UInt8)
    (rate : FacePtr → Int) (hs : s.pit.AllTimed)
    (hok : keepsTimersData env s ingress d = true) :
    (s.onIncomingData env ingress d nonces rate).state.pit.AllTimed := by
  rcases s.onIncomingData_cases env ingress d nonces rate with
    ⟨t, heq, hpit, -⟩ | ⟨hscope, id, hmatches, heq⟩ | ⟨-, -, heq⟩
  · rw [heq, hpit]
    exact hs
  · rw [heq]
    have hprepare : Pit.Changes noEntry s.pit
        ((s.cacheData env d).prepareSegments env d nonces id).state.pit := by
      unfold prepareSegments
      split
      · rename_i hfile
        split
        · exact .refl
        · rename_i count hcount
          refine createSegmentEntries_of_found env d nonces _ _ (s.cacheData env d) ?_
          simp only [keepsTimersData, hscope, hmatches, hfile, hcount] at hok
          simpa using hok
      · exact .refl
    exact hs.changes (hprepare.trans
      ((s.cacheData env d).changes_afterPrepare env ingress d nonces rate id))
  · rw [heq]
    exact hs.changes (changes_onMultipleMatches env (s.cacheData env d) ingress d _)

end State

theorem step_timed {env : Env} {s s' : State} {e : Event} (hs : s.pit.AllTimed)
    (hok : keepsTimers env s e = true) (h : step env s e = some s') : s'.pit.AllTimed := by
  have hbegin : s.beginEvent.pit.AllTimed := hs
  cases e with
  | interest ingress frame freshNonce actions =>
    rcases step_interest h with ⟨-, rfl⟩ | ⟨i, hi, h⟩
    · exact hs
    · rw [Outcome.survive_state h]
      rw [keepsTimers, hi] at hok
      exact onIncomingInterest_timed actions hbegin hok
  | data ingress frame nonces rate =>
    rcases step_data h with ⟨-, rfl⟩ | ⟨d, hd, h⟩
    · exact hs
    · rw [Outcome.survive_state h]
      rw [keepsTimers, hd] at hok
      exact onIncomingData_timed nonces rate hbegin hok
  | nack ingress frame reason actions =>
    rcases step_nack h with rfl | ⟨i, -, rfl⟩
    · exact hs
    · exact hbegin.changes
        ((moves_onIncomingNack (S := anySend) fun _ _ _ _ _ => trivial).effects env).changes
  | face op => exact hbegin.changes (effects_onFaceOp (S := anySend) h).changes
  | expiry id =>
    rw [step_expiry h]
    exact hbegin.changes ((moves_onInterestFinalize (S := anySend) id).effects env).changes
  | strategy id actions =>
    obtain rfl := Option.some.inj h
    exact hbegin.changes (s.beginEvent.changes_actAll env id actions)
  | markNonces | adjustNonces | tick =>
    obtain rfl := Option.some.inj h
    exact hs

theorem expires_of_timed {s : State} {id : EntryId} {e : Entry} {due : Int}
    (he : s.pit.get id = some e) (hdue : e.expiryTimer = some due) :
    ∃ ns t, Run (step env) (fun s e => keepsTimers env s e = true) s [.tick ns, .expiry id] t ∧
      t.pit.get id = none := by
  let later : State := { s.beginEvent with now := s.now + ((due - s.now).toNat : Int) }
  have hdue' : due ≤ later.now := by
    show due ≤ s.now + ((due - s.now).toNat : Int)
    omega
  have htimer : (later.beginEvent.pit.get id).bind expiryTimer = some due := by
    show (s.pit.get id).bind expiryTimer = some due
    rw [he, Option.bind_some, hdue]
  have hexpiry : step env later (.expiry id)
      = some (later.beginEvent.onInterestFinalize env id) := by
    simp only [step, htimer]
    exact if_pos hdue'
  have htick : step env s (.tick (due - s.now).toNat) = some later := rfl
  exact ⟨_, _, .cons rfl htick (.cons rfl hexpiry (.nil _)),
    later.beginEvent.onInterestFinalize_get env id⟩

/-- **In every run without those two kinds of event every PIT entry has an expiry timer**, and no
    entry is there for good: with time, its timer fires and it is removed. -/
theorem run_timed {env : Env} {now : Int} {garbage : Option FacePtr} {csLimit : Nat}
    {es : List Event} {t : State}
    (hrun : Run (step env) (fun s e => keepsTimers env s e = true)
      (State.init now garbage csLimit) es t) :
    t.pit.AllTimed ∧ ∀ id e, t.pit.get id = some e →
      ∃ ns t', Run (step env) (fun s e => keepsTimers env s e = true) t [.tick ns, .expiry id] t' ∧
        t'.pit.get id = none := by
  have hinit : (init now garbage csLimit).pit.AllTimed := by
    intro x hx
    cases hx
  have htimed : t.pit.AllTimed := hrun.invariant (I := fun s => s.pit.AllTimed)
    (fun _ _ _ hs hok hstep => step_timed hs hok hstep) hinit
  refine ⟨htimed, fun id e he => ?_⟩
  obtain ⟨due, hdue⟩ := Option.isSome_iff_exists.1 (htimed.get he)
  exact expires_of_timed env he hdue

/-- An Interest and a Data that announces no file: the condition is met, and one entry is left. -/
theorem run_timed_router :
    ∃ t, Run (step Router.env) (fun s e => keepsTimers Router.env s e = true)
        (State.init 0 none 100) (Router.asked ++ [Router.data 5 ["a"] []]) t ∧
      t.pit.entries.length = 1 ∧ t.pit.AllTimed := by
  exact Run.exists_of_decide _ (by decide) fun _ hrun ht => ⟨ht, (run_timed hrun).1⟩

/-- The reply to `/File/a` with two segments creates two entries without a timer; so does an
    Interest whose only component is a short digest. -/
theorem run_leaves_untimed :
    (∃ t, Run (step Router.env) (fun _ _ => True) Router.start
        (Router.asked ++ [Router.data 5 ["File", "a"] (Router.content "2")]) t ∧
      ¬ t.pit.AllTimed) ∧
    ∃ t, Run (step Router.env) (fun _ _ => True) Router.start
        (Router.boot [5] ++ [.interest 5
          (Router.frame [5, 13, 7, 5, 1, 3, 97, 98, 99, 10, 4, 1, 2, 3, 4]) [] []]) t ∧
      ¬ t.pit.AllTimed := by
  constructor <;> exact Run.exists_of_decide _ (by decide) fun _ _ ht => ht

end NdnMulticast.Nfd
