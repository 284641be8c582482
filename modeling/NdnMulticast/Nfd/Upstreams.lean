/-
  Which upstream `findEligibleNextHopWithEarliestOutRecord` picks when none is unused, and whom
  `processNack` tells that the upstreams have sent Nacks.

  `onIncomingNack` and `processNack` decide whether all upstreams have answered by different tests:
  an out-record that has expired without a Nack is no longer pending for the first, and one more
  to wait for in the second.
-/

import Mathlib.Data.Int.ConditionallyCompleteOrder
import Mathlib.Data.List.MinMax
import NdnMulticast.Nfd.Daemon

namespace NdnMulticast.Nfd

open Lib Ndn State List Option Router
open Strategy (actAll)

/-- When the out-record of a next hop, if it has one, was renewed last. -/
def lastRenewed (e : Entry) (nh : NextHop) : Int :=
  ((e.getOutRecord nh.face).map OutRecord.lastRenewed).getD 0

theorem earliestOutRecord_eq_argmin {e : Entry} {isEligible : NextHop → Bool}
    {nextHops : List NextHop} (hrecord : ∀ nh ∈ nextHops, isEligible nh = true →
      (e.getOutRecord nh.face).isSome) :
    earliestOutRecord e isEligible nextHops none =
      (nextHops.filter isEligible).argmin (lastRenewed e) := by
  suffices h : ∀ found : Option NextHop,
      earliestOutRecord e isEligible nextHops (found.map fun nh => (nh, lastRenewed e nh)) =
        (nextHops.filter isEligible).foldl (argAux fun b c => lastRenewed e b < lastRenewed e c)
          found from h none
  induction nextHops with
  | nil =>
    intro found
    simp [earliestOutRecord, Function.comp_def]
  | cons nh nhs ih =>
    intro found
    have ih := ih fun nh' hnh' => hrecord nh' (.tail _ hnh')
    by_cases helig : isEligible nh = true
    · obtain ⟨r, hr⟩ := isSome_iff_exists.1 (hrecord nh (.head _) helig)
      have hrenewed : r.lastRenewed = lastRenewed e nh := by simp [lastRenewed, hr]
      rw [earliestOutRecord, if_pos helig, hr, filter_cons_of_pos helig, foldl_cons, ← ih]
      cases found with
      | none => simp [argAux, hrenewed]
      | some x =>
        by_cases hlt : lastRenewed e nh < lastRenewed e x
        · simp [argAux, hrenewed, hlt]
        · simp [argAux, hrenewed, hlt]
    · rw [earliestOutRecord, if_neg helig, filter_cons_of_neg helig]
      exact ih found

/-- Where the search is made no next hop is both eligible and unused, so each eligible one has an
    out-record, and one whose record is the oldest is found if there is one. -/
theorem findEligibleNextHopWithEarliestOutRecord_earliest {t : Trigger}
    (h : t.nextHops.find? (t.isEligible true) = none ∨
      AsfStrategy.getBestFaceForForwarding t false = none) :
    (∀ nh ∈ t.nextHops, t.isEligible false nh = true → (t.entry.getOutRecord nh.face).isSome) ∧
      match findEligibleNextHopWithEarliestOutRecord t.env t.state t.entry t.ingress t.interest
        t.nextHops with
      | none => ∀ nh ∈ t.nextHops, t.isEligible false nh = false
      | some nh => nh ∈ t.nextHops ∧ t.isEligible false nh = true ∧
          ∀ nh' ∈ t.nextHops, t.isEligible false nh' = true →
            lastRenewed t.entry nh ≤ lastRenewed t.entry nh' := by
  have hused : ∀ nh ∈ t.nextHops, t.isEligible true nh = false := by
    rcases h with h | h
    · simpa using h
    · unfold AsfStrategy.getBestFaceForForwarding at h
      split at h
      · rename_i hnone
        simpa using hnone
      · cases h
  have hrecord : ∀ nh ∈ t.nextHops, t.isEligible false nh = true →
      (t.entry.getOutRecord nh.face).isSome := by
    intro nh hnh helig
    have hunused := hused nh hnh
    cases hget : t.entry.getOutRecord nh.face with
    | none => simp_all [Trigger.isEligible, isNextHopEligible]
    | some r => rfl
  have hsearch : findEligibleNextHopWithEarliestOutRecord t.env t.state t.entry t.ingress t.interest
      t.nextHops = argmin (lastRenewed t.entry) (t.nextHops.filter (t.isEligible false)) :=
    earliestOutRecord_eq_argmin hrecord
  refine ⟨hrecord, ?_⟩
  rw [hsearch]
  cases hmin : argmin (lastRenewed t.entry) (t.nextHops.filter (t.isEligible false)) with
  | none => simpa using hmin
  | some nh =>
    obtain ⟨hnh, helig⟩ := mem_filter.1 (argmin_mem hmin)
    exact ⟨hnh, helig, fun nh' hnh' helig' =>
      le_of_mem_argmin (mem_filter.2 ⟨hnh', helig'⟩) hmin⟩

/-- Both upstreams have been used, the cheaper one later: the other is used again. -/
theorem findEligibleNextHopWithEarliestOutRecord_router :
    ∃ t : Trigger, t.nextHops.find? (t.isEligible true) = none ∧
      findEligibleNextHopWithEarliestOutRecord t.env t.state t.entry t.ingress t.interest
        t.nextHops = some ⟨6, 1⟩ ∧
      lastRenewed t.entry ⟨5, 0⟩ = 3 ∧
      ∀ nh ∈ t.nextHops, t.isEligible false nh = true →
        lastRenewed t.entry ⟨6, 1⟩ ≤ lastRenewed t.entry nh := by
  let i := pendingInterest 1
  let t : Trigger :=
    ⟨env, (Fib.init.addOrUpdateNextHop [] 5 0).addOrUpdateNextHop [] 6 1, unlearned,
    sharing, 0, ((Entry.ofInterest i).insertOrUpdateOutRecord 6 i [] 0).insertOrUpdateOutRecord 5 i
      [] 3, 2, i⟩
  have hnone : t.nextHops.find? (t.isEligible true) = none := by decide
  have hfound : findEligibleNextHopWithEarliestOutRecord t.env t.state t.entry t.ingress t.interest
      t.nextHops = some ⟨6, 1⟩ := by decide
  have hearliest := (findEligibleNextHopWithEarliestOutRecord_earliest (Or.inl hnone)).2
  rw [hfound] at hearliest
  exact ⟨t, hnone, hfound, by decide, hearliest.2.2⟩

/-! ## Whom a Nack reaches -/

section

variable (env : Env) {s : State} {id : EntryId} {e : Entry}

/-- `onOutgoingNack` does not drop a Nack to the downstream. -/
def nackable (t : FaceTable) (r : InRecord) : Bool :=
  t.getId r.face != invalidFaceId && (env.face r.face).linkType == .pointToPoint

theorem onOutgoingNack_cases (he : s.pit.get id = some e) (q : FacePtr) (reason : NackReason) :
    (s.onOutgoingNack env id q reason = s ∧
      ∀ r ∈ e.getInRecord q, nackable env s.faceTable r = false) ∨
    ∃ r f, e.getInRecord q = some r ∧ s.onOutgoingNack env id q reason =
      ((s.modifyEntry id (·.deleteInRecord q)).send (.nack q r.interest reason)).count f := by
  rw [onOutgoingNack, he, bind_some]
  cases hr : e.getInRecord q with
  | none => simp
  | some r =>
    have hface : r.face = q := by simpa using find?_some hr
    simp only [mem_def, some.injEq, forall_eq', nackable, hface]
    split
    · simp_all
    split
    · simp_all
    · exact Or.inr ⟨r, _, rfl, rfl⟩

/-- Of Nacks for the faces of a list, one reaches a downstream if its face is in the list. -/
theorem mem_sent_foldl_onOutgoingNack {r : InRecord} {p : FacePtr} (reason : NackReason)
    (ps : List FacePtr) (he : s.pit.get id = some e) (hr : e.getInRecord p = some r)
    (hnack : nackable env s.faceTable r = true) :
    .nack p r.interest reason ∈ (ps.foldl (fun s q => s.onOutgoingNack env id q reason) s).sent ↔
      .nack p r.interest reason ∈ s.sent ∨ p ∈ ps := by
  have hkeeps : ∀ (ps : List FacePtr) (s : State) (o : Output), o ∈ s.sent →
      o ∈ (ps.foldl (fun s q => s.onOutgoingNack env id q reason) s).sent := by
    intro ps s o ho
    refine foldlRecOn (motive := fun t : State => o ∈ t.sent) ps _ ho fun s hs q _ => ?_
    unfold onOutgoingNack
    grind [send_sent, count_sent, modifyEntry_sent]
  induction ps generalizing s e with
  | nil => simp
  | cons q ps ih =>
    rw [foldl_cons]
    rcases onOutgoingNack_cases env he q reason with ⟨hsame, hnot⟩ | ⟨r', f, hr', hsend⟩
    · have hne : p ≠ q := by
        rintro rfl
        rw [hnot r hr] at hnack
        cases hnack
      rw [hsame]
      refine (ih he hr hnack).trans ?_
      simp [hne]
    · by_cases hq : p = q
      · obtain rfl := hq
        obtain rfl := some.inj (hr.symm.trans hr')
        simp only [mem_cons, true_or, or_true, iff_true]
        exact hkeeps _ _ _ (by simp [hsend])
      · rw [hsend]
        refine (ih (e := e.deleteInRecord q) ?_ ?_ ?_).trans ?_
        · show (s.pit.modify _ _).get id = _
          rw [Pit.get_modify_self, he]
          rfl
        · rw [← hr, Entry.getInRecord, Entry.deleteInRecord, find?_filter]
          grind [Entry.getInRecord]
        · exact hnack
        · simp [hq]

/-- The reasons of the Nacks on the out-records. -/
def reasons (e : Entry) : List NackReason := e.outRecords.filterMap OutRecord.incomingNack

/-- No reason is more severe than any. -/
def severity (x : NackReason) : Nat := if x = .none then 200 else x.code

theorem isLessSevere_eq (x y : NackReason) :
    isLessSevere x y = decide (severity x < severity y) := by
  cases x <;> cases y <;> rfl

theorem argmin_severity (e : Entry) :
    argmin severity (.none :: reasons e) = some (leastSevereReason e) := by
  have hfold : ∀ (f : NackReason → OutRecord → NackReason), (∀ least r, f least r =
        r.incomingNack.elim least fun x => if isLessSevere x least then x else least) →
      ∀ (rs : List OutRecord) (start : NackReason),
        (rs.filterMap OutRecord.incomingNack).foldl (argAux fun b c => severity b < severity c)
          (some start) = some (rs.foldl f start) := by
    intro f hf rs
    induction rs with
    | nil => exact fun _ => rfl
    | cons r rs ih =>
      intro start
      rw [foldl_cons, filterMap_cons, hf]
      cases r.incomingNack with
      | none => exact ih start
      | some x =>
        rw [← ih, foldl_cons, argAux]
        by_cases hlt : severity x < severity start
        · simp [hlt, isLessSevere_eq]
        · simp [hlt, isLessSevere_eq]
  refine hfold _ (fun least r => ?_) e.outRecords .none
  cases r.incomingNack <;> rfl

/-- The reason is that of a Nack on an out-record, and none of them is less severe: it depends on
    which Nacks there are and not on their order. -/
theorem leastSevereReason_eq_iff (h : reasons e ≠ []) {reason : NackReason} :
    leastSevereReason e = reason ↔
      reason ∈ reasons e ∧ ∀ x ∈ reasons e, isLessSevere x reason = false := by
  have hmin : leastSevereReason e ∈ argmin severity (.none :: reasons e) := argmin_severity e
  have hle : ∀ x ∈ reasons e, severity (leastSevereReason e) ≤ severity x :=
    fun x hx => le_of_mem_argmin (.tail _ hx) hmin
  have heq : ∀ x y, severity x ≤ severity y → severity y ≤ severity x → x = y := by
    intro x y
    cases x <;> cases y <;> decide
  have hmem : leastSevereReason e ∈ reasons e := by
    rcases mem_cons.1 (argmin_mem hmin) with hnone | hmem
    · obtain ⟨x, hx⟩ := exists_mem_of_ne_nil _ h
      have hsevere := hle x hx
      rw [hnone] at hsevere ⊢
      rwa [heq .none x hsevere (by cases x <;> decide)]
    · exact hmem
  simp only [isLessSevere_eq, decide_eq_false_iff_not, not_lt]
  constructor
  · rintro rfl
    exact ⟨hmem, hle⟩
  · rintro ⟨hreason, hleast⟩
    exact heq _ _ (hle _ hreason) (hleast _ hmem)

/-- In the state in which the strategy is told of a Nack: every downstream that can be nacked is,
    exactly if no out-record lacks a Nack but its own. -/
theorem processNack_nacks_iff (he : s.pit.get id = some e) (hsent : s.sent = [])
    (hreasons : reasons e ≠ []) :
    ((∀ r ∈ e.inRecords, nackable env s.faceTable r = true →
      .nack r.face r.interest (leastSevereReason e) ∈ (actAll env s id (processNack e)).sent) ↔
      ∀ r ∈ e.inRecords, nackable env s.faceTable r = true →
        ∀ o ∈ e.outRecords, o.incomingNack = none → o.face = r.face) ∧
    ∀ x, leastSevereReason e = x ↔ x ∈ reasons e ∧ ∀ y ∈ reasons e, isLessSevere y x = false := by
  refine ⟨forall₃_congr fun r hr hnack => ?_, fun x => leastSevereReason_eq_iff hreasons⟩
  have hget : e.getInRecord r.face = some r := by
    obtain ⟨r', hr'⟩ := isSome_iff_exists.1
      (find?_isSome (p := (·.face == r.face)).2 ⟨r, hr, beq_self_eq_true r.face⟩)
    rw [Entry.getInRecord, hr', inj_on_of_nodup_map e.inFaces_nodup (mem_of_find?_eq_some hr') hr
      (by simpa using find?_some hr')]
  have hmem := fun ps => mem_sent_foldl_onOutgoingNack env (leastSevereReason e) ps he hget hnack
  simp only [hsent, not_mem_nil, false_or] at hmem
  have hfilter : ∀ o, o ∈ e.outRecords.filter (·.incomingNack.isNone) ↔
      o ∈ e.outRecords ∧ o.incomingNack = none := by simp
  have hnodup : ((e.outRecords.filter (·.incomingNack.isNone)).map OutRecord.face).Nodup :=
    e.outFaces_nodup.sublist (filter_sublist.map _)
  have hquiet : .nack r.face r.interest (leastSevereReason e) ∈ (actAll env s id []).sent ↔
      False := by simp [actAll, hsent]
  unfold processNack
  split
  · rename_i hnone
    have hface : r.face ∈ e.inFaces.filter (· ∉ []) := by simpa [Entry.inFaces] using ⟨r, hr, rfl⟩
    have hall := (hmem _).2 hface
    simp only [hnone, not_mem_nil, false_iff, not_and] at hfilter
    simp only [actAll, foldl_cons, foldl_nil, Strategy.act, Strategy.sendNacks, he, hall, true_iff]
    exact fun o ho hnot => absurd hnot (hfilter o ho)
  · rename_i o hone
    have hown : (∀ o' ∈ e.outRecords, o'.incomingNack = none → o'.face = r.face) ↔
        o.face = r.face := by grind
    rw [hown]
    split
    · exact (hmem [o.face]).trans (by simp [eq_comm])
    · rename_i hin
      rw [hquiet, false_iff]
      intro hface
      rw [hface, hget] at hin
      exact hin rfl
  · rw [hquiet, false_iff]
    intro hown
    rcases hunnacked : e.outRecords.filter (·.incomingNack.isNone) with _ | ⟨o, _ | ⟨o', os⟩⟩
    · simp_all
    · simp_all
    · simp only [hunnacked] at hfilter hnodup
      have ho := (hfilter o).1 (by simp)
      have ho' := (hfilter o').1 (by simp)
      simp [hown o ho.1 ho.2, hown o' ho'.1 ho'.2] at hnodup

/-- The state in which the strategy is told of a Nack after which no out-record is pending. -/
def nackRecorded (s : State) (id : EntryId) (ingress : FacePtr) (reason : NackReason) : State :=
  ((s.count fun c => { c with nInNacks := c.nInNacks + 1 }).modifyEntry id
    (·.setIncomingNack ingress reason)).setExpiryTimer id 0

theorem get_nackRecorded (he : s.pit.get id = some e) (ingress : FacePtr) (reason : NackReason) :
    (nackRecorded s id ingress reason).pit.get id =
      some { e.setIncomingNack ingress reason with expiryTimer := some s.now } := by
  rw [nackRecorded, setExpiryTimer, modifyEntry_pit, modifyEntry_pit, count_pit]
  rw [Pit.get_modify_self, Pit.get_modify_self, he]
  simp

theorem onIncomingNack_accepted {ingress : FacePtr} {i : Interest} {reason : NackReason}
    (actions : List Strategy.Action) (hid : s.acceptedNack env ingress i = some id)
    (he : s.pit.get id = some e)
    (hpending : (e.setIncomingNack ingress reason).hasPendingOutRecords s.now = false) :
    s.onIncomingNack env ingress i reason actions =
      actAll env (nackRecorded s id ingress reason) id actions := by
  obtain ⟨hlink, hfind, r, hr, hnonce⟩ := acceptedNack_eq_some hid he
  have hafter : (s.pit.modify id (·.setIncomingNack ingress reason)).get id =
      some (e.setIncomingNack ingress reason) := by
    rw [Pit.get_modify_self, he]
    rfl
  simp [onIncomingNack, hlink, hfind, he, hr, hnonce, hafter, hpending, nackRecorded]

/-- A Nack after which `onIncomingNack` schedules the removal of its entry, under a strategy that
    uses `processNack`: every downstream that can be nacked is, exactly if no out-record lacks a
    Nack but its own. An out-record that has expired without one is no longer pending for the
    forwarder, and still waited for by the strategy. -/
theorem onIncomingNack_nacks_iff {D : Daemon} {ingress : FacePtr} {i : Interest}
    {reason : NackReason} (hid : D.state.acceptedNack env ingress i = some id)
    (he : D.state.pit.get id = some e)
    (htype : D.typeOf e.interest ∈ [.bestRoute2, .multicast, .random])
    (hpending : (e.setIncomingNack ingress reason).hasPendingOutRecords D.state.now = false) :
    let nacked := e.setIncomingNack ingress reason
    let s := D.state.beginEvent.onIncomingNack env ingress i reason
      (D.nackActions env ingress i reason)
    ((∀ r ∈ e.inRecords, nackable env D.state.faceTable r = true →
      .nack r.face r.interest (leastSevereReason nacked) ∈ s.sent) ↔
      ∀ r ∈ e.inRecords, nackable env D.state.faceTable r = true →
        ∀ o ∈ nacked.outRecords, o.incomingNack = none → o.face = r.face) ∧
    ∀ x, leastSevereReason nacked = x ↔
      x ∈ reasons nacked ∧ ∀ y ∈ reasons nacked, isLessSevere y x = false := by
  intro nacked s
  obtain ⟨-, hfind, r, hr, -⟩ := acceptedNack_eq_some hid he
  have hreasons : reasons nacked ≠ [] := by
    refine ne_nil_of_mem (mem_filterMap.2 ⟨{ r with incomingNack := some reason }, ?_, rfl⟩)
    have hface : r.face = ingress := by simpa using find?_some hr
    exact mem_map.2 ⟨r, mem_of_find?_eq_some hr, by rw [if_pos hface]⟩
  have haccepted := fun actions => onIncomingNack_accepted env (s := D.state.beginEvent) actions
    hid he hpending
  have htold := get_nackRecorded (s := D.state.beginEvent) he ingress reason
  have hactions : D.nackActions env ingress i reason =
      processNack { nacked with expiryTimer := some D.state.now } := by
    unfold Daemon.nackActions
    simp only [hfind, haccepted, actAll, foldl_nil, htold]
    revert htype
    show D.typeOf e.interest ∈ _ → (D.typeOf e.interest).afterReceiveNack _ _ = _
    cases D.typeOf e.interest <;> simp [StrategyType.afterReceiveNack, nacked]
  have hs : s = actAll env (nackRecorded D.state.beginEvent id ingress reason) id
      (processNack { nacked with expiryTimer := some D.state.now }) := by
    rw [← hactions]
    exact haccepted _
  rw [hs]
  exact processNack_nacks_iff env htold rfl hreasons

end

/-- Two consumers have asked, and the second of two upstreams has sent a Nack. -/
def nacking : Daemon :=
  ((addFaces [2, 3, 5, 6] ++ [.addNextHop [] 5 0, .addNextHop [] 6 1, request 2 ["a"] 1,
    request 3 ["a"] 2, .nack 6 (interestFrame ["a"] 2) .noRoute]).foldlM (Daemon.step env)
      (daemon .multicast)).get (by decide)

def nackingEntry : Entry := (nacking.state.pit.get 0).get (by decide)

/-- With the Nack of the first upstream both consumers are told, of the less severe reason. -/
theorem onIncomingNack_nacks_router :
    nacking.state.acceptedNack env 5 (pendingInterest 2) = some 0 ∧
      nackingEntry.inFaces = [3, 2] ∧ reasons nackingEntry = [.noRoute] ∧
      leastSevereReason (nackingEntry.setIncomingNack 5 .congestion) = .congestion ∧
      ∀ r ∈ nackingEntry.inRecords, nackable env nacking.state.faceTable r = true →
        .nack r.face r.interest (leastSevereReason (nackingEntry.setIncomingNack 5 .congestion)) ∈
          (nacking.state.beginEvent.onIncomingNack env 5 (pendingInterest 2) .congestion
            (nacking.nackActions env 5 (pendingInterest 2) .congestion)).sent := by
  have hid : nacking.state.acceptedNack env 5 (pendingInterest 2) = some 0 := by decide
  have he : nacking.state.pit.get 0 = some nackingEntry := (some_get _).symm
  exact ⟨hid, by decide, by decide, by decide,
    (onIncomingNack_nacks_iff env hid he (by decide) (by decide)).1.2 (by decide)⟩

/-- The consumer asks again, so the second upstream is tried; when it sends a Nack the record of the
    first has expired, the entry is finalized, and the consumer is not told. -/
theorem processNack_silent :
    ∃ D, Run (Daemon.step env) (fun _ _ => True) (daemon .bestRoute2)
        (addFaces [2, 5, 6] ++ [.addNextHop [] 5 0, .addNextHop [] 6 1,
          request 2 ["a"] 1, .tick 3000000000, request 2 ["a"] 2, .tick 2000000000,
          .nack 6 (interestFrame ["a"] 2) .noRoute]) D ∧
      D.state.sent = [] ∧ ∃ e ∈ D.state.pit.get 0, e.inFaces = [2] ∧
        e.expiryTimer = some D.state.now ∧ reasons e = [.noRoute] := by
  exact Run.exists_of_decide _ (by decide) fun _ _ hD => hD

end NdnMulticast.Nfd
