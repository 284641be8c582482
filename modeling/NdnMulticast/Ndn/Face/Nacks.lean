/-
  The counter of destinations that have not answered with a Nack, of which `recordNack`
  asserts that it stays at zero or above.

  A record at zero has never been forwarded: an Interest of the application always is, so it is one
  from the forwarder that no filter matched when it came.  A Nack that finds such a record brings
  the counter below zero, and no other does.
-/

import NdnMulticast.Ndn.Face.Receiving

namespace NdnMulticast.Ndn.Face

open Lib List Option RecordContainer State PendingInterest

namespace State

/-- No record has a negative counter, and no assertion has seen one. -/
structure NotNegative (s : State) : Prop where
  records : ∀ x ∈ s.pendingInterestTable.records, 0 ≤ x.2.nNotNacked
  asserted : ∀ id n, Action.recordNack id n ∈ s.log → 0 ≤ n

/-- The Nack that an event passes to `nackPendingInterests`. -/
def nackOf (s : State) : Event → Option Nack
  | .run i =>
    match s.posted[i]? with
    | some (.putNack nack) => some nack
    | _ => none
  | .receive (.nack nack) => some nack
  | _ => none

/-- The Interest came from the forwarder and was passed to no filter. -/
def isUnclaimed (r : PendingInterest) : Bool := r.origin == .forwarder && r.nForwarded == 0

/-- The Nack matches no pending Interest from the forwarder that no filter matched. -/
def hasDestinations (s : State) (nack : Nack) : Bool :=
  s.pendingInterestTable.records.all fun x =>
    !nack.interest.matchesInterest x.2.interest || !isUnclaimed x.2

/-- The event's Nack, if any, matches only Interests with a destination. -/
def destined (s : State) (e : Event) : Bool := (s.nackOf e).all s.hasDestinations

/-- Exactly the records that were never forwarded are at zero, and they are the forwarder's. -/
structure Counts (r : PendingInterest) : Prop where
  nonneg : 0 ≤ r.nNotNacked
  zero_iff : r.nNotNacked = 0 ↔ r.nForwarded = 0
  origin : r.nForwarded = 0 → r.origin = .forwarder

/-- What the runs keep. -/
structure Counted (s : State) : Prop where
  records : ∀ x ∈ s.pendingInterestTable.records, Counts x.2
  asserted : ∀ id n, Action.recordNack id n ∈ s.log → 0 ≤ n

section

variable {enc : Encoding} {sha256 : List UInt8 → List UInt8} {s s' : State} {id : RecordId}

theorem counted_init : Counted init := ⟨(fun _ hx => nomatch hx), (fun _ _ h => nomatch h)⟩

theorem Counted.notNegative (h : Counted s) : NotNegative s :=
  ⟨fun x hx => (h.records x hx).nonneg, h.asserted⟩

theorem Counted.of_records (h : Counted s)
    (hrecords : ∀ x ∈ s'.pendingInterestTable.records, Counts x.2)
    (hlog : ∀ id n, Action.recordNack id n ∈ s'.log → Action.recordNack id n ∈ s.log) :
    Counted s' :=
  ⟨hrecords, fun id n hmem => h.asserted id n (hlog id n hmem)⟩

theorem Counted.of_eq (h : Counted s)
    (htable : s'.pendingInterestTable = s.pendingInterestTable) (hlog : s'.log = s.log) :
    Counted s' :=
  h.of_records (by rw [htable]; exact h.records) (fun _ _ hmem => hlog ▸ hmem)

theorem Counts.forwarded {r : PendingInterest} (h : Counts r) (k : Nat) :
    Counts (r.forwarded k) := by
  obtain ⟨hnonneg, hzero, horigin⟩ := h
  refine ⟨?_, ?_, fun hnone => horigin ?_⟩ <;> simp only [PendingInterest.forwarded] at * <;> omega

/-- **A record at zero** is one from the forwarder that no filter matched. -/
theorem Counts.isUnclaimed_iff {r : PendingInterest} (h : Counts r) :
    isUnclaimed r = true ↔ r.nNotNacked = 0 := by
  rw [isUnclaimed, Bool.and_eq_true, beq_iff_eq, beq_iff_eq, h.zero_iff, and_iff_right_iff_imp]
  exact h.origin

/-- An Interest from the forwarder is unclaimed exactly if no filter matches it when it comes. -/
theorem isUnclaimed_processIncomingInterest {interest : Interest} {r : PendingInterest}
    (hx : (s.pendingInterestTable.lastId + 1, r) ∈
      (s.processIncomingInterest interest).pendingInterestTable.records)
    (hfresh : s.pendingInterestTable.lastId + 1 ∉ s.pendingInterestTable.ids) :
    isUnclaimed r = true ↔ ∀ f ∈ s.interestFilterTable.records,
      ¬ f.2.doesMatch (.ofForwarder interest) = true := by
  obtain ⟨calls, -, heq⟩ := dispatchInterest_eq
    (s.setPending (s.pendingInterestTable.insert (.ofForwarder interest)))
    (s.pendingInterestTable.lastId + 1) (.ofForwarder interest)
  rw [State.processIncomingInterest, heq] at hx
  obtain ⟨y, hy, hr⟩ := mem_map.1 hx
  rcases mem_emplace hy with rfl | hy
  · rw [if_pos rfl] at hr
    obtain ⟨-, rfl⟩ := Prod.mk.inj hr
    rw [← countP_eq_zero]
    simp [isUnclaimed, ofForwarder, PendingInterest.forwarded, setPending]
  · exact absurd (List.mem_map.2 ⟨y, hy, (Prod.mk.inj hr).1⟩) hfresh

/-! ## Nacks -/

theorem Counted.hasDestinations_iff (h : Counted s) (nack : Nack) :
    s.hasDestinations nack = true ↔ ∀ x ∈ s.pendingInterestTable.records,
      nack.interest.matchesInterest x.2.interest = true → x.2.nNotNacked ≠ 0 := by
  rw [hasDestinations, List.all_eq_true]
  refine forall₂_congr fun x hx => ?_
  simp [← (h.records x hx).isUnclaimed_iff, imp_iff_not_or]

/-- The assertion fails for a record at zero. -/
theorem hasDestinations_of_notNegative (h : Counted s) {nack : Nack}
    (hafter : NotNegative (s.nackPendingInterests nack).2) : s.hasDestinations nack = true := by
  obtain ⟨table, -, -, heq⟩ := nackPendingInterests_walked s nack
  rw [h.hasDestinations_iff]
  intro x hx hmatch hzero
  have hasserted : Action.recordNack x.1 (x.2.nNotNacked - 1) ∈
      s.pendingInterestTable.records.flatMap (nackActions nack) := by
    refine mem_flatMap.2 ⟨x, hx, ?_⟩
    rw [nackActions, if_pos hmatch]
    exact .head _
  rw [heq] at hafter
  have hnonneg := hafter.asserted x.1 (x.2.nNotNacked - 1)
    (by simpa using Or.inr (mem_flatMap.1 hasserted))
  omega

theorem Counted.nackPendingInterests (h : Counted s) {nack : Nack}
    (hok : s.hasDestinations nack = true) : Counted (s.nackPendingInterests nack).2 := by
  have hwalk := nackPendingInterests_walked s nack
  have hne := (h.hasDestinations_iff nack).1 hok
  refine ⟨fun x hx => ?_, fun id n hmem => ?_⟩
  · -- a record that stays has been left above zero, or was not matched
    obtain ⟨y, hy, hr⟩ := hwalk.mem_records hx
    have hold := h.records y hy
    rw [afterNack] at hr
    split at hr
    · obtain ⟨hpos, hr⟩ := ite_none_right_eq_some.1 hr
      rw [← some.inj hr]
      obtain ⟨hnonneg, hzero, horigin⟩ := hold
      refine ⟨?_, ?_, horigin⟩ <;> simp only [recordNack] <;> omega
    · rwa [← some.inj hr]
  · obtain ⟨table, -, -, heq⟩ := hwalk
    rw [heq, signalIfEmpty_log] at hmem
    rcases mem_append.1 hmem with hmem | hmem
    · exact h.asserted id n hmem
    obtain ⟨x, hx, hmem⟩ := mem_flatMap.1 hmem
    have hold := (h.records x hx).nonneg
    rw [nackActions] at hmem
    split at hmem
    · grind
    · cases hmem

theorem notNegative_sendEncoded {wire : List UInt8} (h : NotNegative (s.sendEncoded wire)) :
    NotNegative s := by
  rw [sendEncoded] at h
  split at h <;> exact ⟨h.records, h.asserted⟩

theorem Counted.send (h : Counted s) (wire : List UInt8) : Counted (s.send wire) :=
  h.of_eq rfl rfl

theorem Counted.sendEncoded (h : Counted s) (wire : List UInt8) : Counted (s.sendEncoded wire) := by
  rw [State.sendEncoded]
  split <;> exact h.of_eq rfl rfl

theorem hasDestinations_of_putNack (h : Counted s) {nack : Nack}
    (hafter : NotNegative (s.putNack enc nack)) : s.hasDestinations nack = true := by
  refine hasDestinations_of_notNegative h ?_
  rw [putNack] at hafter
  split at hafter <;> rename_i heq <;> rw [heq]
  · exact hafter
  · exact notNegative_sendEncoded hafter

theorem Counted.putNack (h : Counted s) {nack : Nack} (hok : s.hasDestinations nack = true) :
    Counted (s.putNack enc nack) := by
  have hafter := h.nackPendingInterests hok
  rw [State.putNack]
  split <;> rename_i heq <;> rw [heq] at hafter
  · exact hafter
  · exact hafter.sendEncoded _

/-! ## Everything else -/

section

variable (h : Counted s)
include h

theorem Counted.dispatchInterest (id : RecordId) (entry : PendingInterest) :
    Counted (s.dispatchInterest id entry) := by
  obtain ⟨calls, hcalls, heq⟩ := dispatchInterest_eq s id entry
  rw [heq]
  refine h.of_records (fun x hx => ?_) (fun id n hmem => ?_)
  · obtain ⟨y, hy, rfl⟩ := mem_map.1 hx
    have hold := h.records y hy
    split
    · exact hold.forwarded _
    · exact hold
  · grind

theorem Counted.satisfyPendingInterests (d : Data) :
    Counted (s.satisfyPendingInterests sha256 d).2 := by
  have hwalk := satisfyPendingInterests_walked sha256 s d
  refine h.of_records (fun x hx => ?_) (fun id n hmem => ?_)
  · obtain ⟨y, hy, hr⟩ := hwalk.mem_records hx
    obtain ⟨-, hr⟩ := ite_none_left_eq_some.1 hr
    rw [← some.inj hr]
    exact h.records y hy
  · obtain ⟨table, -, -, heq⟩ := hwalk
    simp_all [dataCallbacks, signalIfEmpty_log]

theorem Counted.erasePending (id : RecordId) : Counted (s.erasePending id) := by
  refine h.of_records (fun x hx => ?_) (fun _ _ hmem => by simpa [State.erasePending] using hmem)
  have hx : x ∈ (s.pendingInterestTable.erase id).records := by
    simpa [State.erasePending] using hx
  exact h.records x (mem_filter.1 hx).1

theorem Counted.clearPending : Counted s.clearPending :=
  h.of_records (fun _ hx => nomatch hx) (fun _ _ hmem => hmem)

/-- An Interest of the application is forwarded at once. -/
theorem Counted.putApp (id : RecordId) (interest : Interest) (callbacks : Callbacks) :
    Counted (((s.ensureConnected true).setPending
      (s.pendingInterestTable.put id (.ofApp interest callbacks))).recordForwarding id) := by
  refine h.of_records (fun x hx => ?_) (fun _ _ hmem => hmem)
  obtain ⟨y, hy, rfl⟩ := mem_map.1 hx
  rcases mem_emplace hy with rfl | hy
  · rw [if_pos rfl]
    constructor <;> simp [ofApp, PendingInterest.recordForwarding]
  · have hold := h.records y hy
    split
    · exact hold.forwarded 1
    · exact hold

theorem Counted.expressInterest (id : RecordId) (interest : Interest) (callbacks : Callbacks) :
    Counted (s.expressInterest enc id interest callbacks) := by
  have hput := h.putApp id interest callbacks
  rw [State.expressInterest]
  split
  · exact hput
  · rename_i wire _
    exact (hput.send wire).dispatchInterest id _

theorem Counted.expressDumbInterest (id : RecordId) (interest : Interest)
    (callbacks : Callbacks) : Counted (s.expressDumbInterest id interest callbacks) :=
  (h.putApp id interest callbacks).dispatchInterest id _

theorem Counted.processIncomingInterest (interest : Interest) :
    Counted (s.processIncomingInterest interest) := by
  refine Counted.dispatchInterest ?_ _ _
  refine h.of_records (fun x hx => ?_) (fun _ _ hmem => hmem)
  rcases mem_emplace hx with rfl | hx
  · exact ⟨Int.le_refl 0, iff_of_true rfl rfl, fun _ => rfl⟩
  · exact h.records x hx

theorem Counted.putData (d : Data) : Counted (s.putData enc sha256 d) := by
  have hsatisfied : Counted (s.satisfyPendingInterests sha256 d).2 :=
    h.satisfyPendingInterests d
  rw [State.putData]
  split <;> rename_i heq <;> rw [heq] at hsatisfied
  · exact hsatisfied
  · exact hsatisfied.sendEncoded _

theorem Counted.runTask {task : Task} (htask : ∀ nack, task ≠ .putNack nack) :
    Counted (s.runTask enc sha256 task) := by
  cases task with
  | putNack nack => exact absurd rfl (htask nack)
  | ensureConnected | setInterestFilter | unsetInterestFilter => exact h.of_eq rfl rfl
  | expressInterest id interest callbacks => exact h.expressInterest id interest callbacks
  | expressDumbInterest id interest callbacks => exact h.expressDumbInterest id interest callbacks
  | removePendingInterest id => exact h.erasePending id
  | removeAllPendingInterests => exact h.clearPending
  | putData d => exact h.putData d
  | pauseIfUnused =>
    rw [State.runTask, State.pauseIfUnused]
    split
    · exact h.of_eq rfl rfl
    · exact h
  | shutdown =>
    rw [State.runTask]
    split <;> exact h.clearPending.of_eq rfl rfl

theorem Counted.step_iff {e : Event} (hstep : s.step enc sha256 e = some s') :
    (s.destined e = true ↔ NotNegative s') ∧ (s.destined e = true → Counted s') := by
  -- every event but two leaves the counters alone
  suffices hnack : (∀ nack, s.nackOf e = some nack →
      (NotNegative s' → s.hasDestinations nack = true) ∧
        (s.hasDestinations nack = true → Counted s')) ∧ (s.nackOf e = none → Counted s') by
    rw [destined]
    cases hof : s.nackOf e with
    | none => exact ⟨⟨fun _ => (hnack.2 hof).notNegative, fun _ => rfl⟩, fun _ => hnack.2 hof⟩
    | some nack =>
      obtain ⟨hneeds, hkeeps⟩ := hnack.1 nack hof
      exact ⟨⟨fun hok => (hkeeps hok).notNegative, hneeds⟩, hkeeps⟩
  cases e with
  | run i =>
    obtain ⟨task, htask, rfl⟩ := map_eq_some_iff.1 hstep
    have hrest : Counted { s with posted := s.posted.eraseIdx i } := h.of_eq rfl rfl
    constructor
    · intro nack hof
      obtain rfl : task = .putNack nack := by
        rw [nackOf, htask] at hof
        split at hof
        · simp_all
        · cases hof
      exact ⟨hasDestinations_of_putNack hrest, hrest.putNack⟩
    · grind [nackOf, runTask]
  | receive element =>
    obtain ⟨-, rfl⟩ := ite_some_none_eq_some.1 hstep
    cases element with
    | nack nack =>
      refine ⟨fun nack' hof => ?_, fun hof => nomatch hof⟩
      obtain rfl := some.inj hof
      exact ⟨hasDestinations_of_notNegative h, h.nackPendingInterests⟩
    | interest interest =>
      exact ⟨(fun _ hof => nomatch hof), fun _ => h.processIncomingInterest interest⟩
    | data d => exact ⟨(fun _ hof => nomatch hof), fun _ => h.satisfyPendingInterests d⟩
    | other => exact ⟨(fun _ hof => nomatch hof), fun _ => h⟩
    | malformed => exact ⟨(fun _ hof => nomatch hof), fun _ => h.of_eq rfl rfl⟩
  | timeout id =>
    obtain ⟨entry, -, rfl⟩ := map_eq_some_iff.1 hstep
    have hcalled : Counted { s with
        log := s.log ++ if entry.callbacks.timeout then [.timeoutCallback id] else [] } := by
      refine h.of_records h.records fun j n hmem => ?_
      refine (mem_append.1 hmem).resolve_right fun hcall => ?_
      split at hcall
      · cases mem_singleton.1 hcall
      · cases hcall
    exact ⟨(fun _ hof => nomatch hof), fun _ => hcalled.erasePending id⟩
  | prefixUnregistered id =>
    exact ⟨(fun _ hof => nomatch hof), fun _ => some.inj hstep ▸ h.of_eq (by simp) (by simp)⟩
  | unwind =>
    exact ⟨(fun _ hof => nomatch hof), fun _ => some.inj hstep ▸ h.clearPending.of_eq rfl rfl⟩
  | connectHandler | transportError | writeCompleted | handleAsyncWrite | receiveCompleted
  | receiveAgain =>
    obtain ⟨-, rfl⟩ := ite_some_none_eq_some.1 hstep
    exact ⟨(fun _ hof => nomatch hof), fun _ => h.of_eq rfl rfl⟩
  | expressInterest | expressDumbInterest =>
    exact ⟨(fun _ hof => nomatch hof), fun _ =>
      some.inj hstep ▸ h.of_records h.records (fun _ _ hmem => hmem)⟩
  | _ => exact ⟨(fun _ hof => nomatch hof), fun _ => some.inj hstep ▸ h.of_eq rfl rfl⟩

end

/-- **The counter stays at zero or above** iff no Nack of the run matches an Interest from the
    forwarder that no filter matched when it came. -/
theorem run_notNegative_iff {es : List Event} {t : State} :
    (Run (State.step enc sha256) (fun s _ => NotNegative s) init es t ∧ NotNegative t) ↔
      Run (State.step enc sha256) (fun s e => destined s e = true) init es t :=
  Run.forall_state_iff_of_step (fun _ h => Counted.notNegative h)
    (fun _ _ _ h hstep => (h.step_iff hstep).1) (fun _ _ _ h hok hstep => (h.step_iff hstep).2 hok)
    counted_init

end

end State

/-- The forwarder sends an Interest that the application has expressed as well and no filter
    matches, and then nacks it. -/
def nackedTwice : List Event :=
  [.run 0, .expressInterest (interestOf "a") allCallbacks, .run 0, .connectHandler,
    .receiveCompleted, .receive (.interest (interestOf "a")),
    .receive (.nack ⟨interestOf "a", .noRoute⟩)]

/-- The Nack takes the counter of the forwarder's Interest below zero. -/
theorem run_nacks_below_zero : ∃ t,
    Run (State.step shortEncoding (fun _ => [])) (fun _ _ => True) .init nackedTwice t ∧
      .recordNack 2 (-1) ∈ t.log := by
  exact Run.exists_of_decide _ (by decide) fun _ _ ht => ht

end NdnMulticast.Ndn.Face
