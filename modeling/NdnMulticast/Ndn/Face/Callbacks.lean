/-
  Each call of `expressInterest` or `expressDumbInterest` leads to at most one of its three
  callbacks.

  A call draws an id, which is first in a posted handler, then in the pending table, and
  leaves the table when a callback is invoked.
-/

import NdnMulticast.Ndn.Face.Receiving
import Mathlib.Data.List.Perm.Basic

namespace NdnMulticast.Ndn.Face

open Lib List Option Bool RecordContainer State PendingInterest

/-- A callback of the call with the given id. -/
def Action.answers (id : RecordId) : Action → Bool
  | .dataCallback j _ => j == id
  | .nackCallback j _ => j == id
  | .timeoutCallback j => j == id
  | _ => false

/-- The handler of the call with the given id. -/
def Task.expresses (id : RecordId) : Task → Bool
  | .expressInterest j _ _ => j == id
  | .expressDumbInterest j _ _ => j == id
  | _ => false

namespace State

/-- Where an id is: callbacks invoked for it, its pending record, its posted handler. -/
def uses (s : State) (id : RecordId) : Nat :=
  s.log.countP (Action.answers id) + s.pendingInterestTable.ids.count id +
    s.posted.countP (Task.expresses id)

def lastId (s : State) : RecordId := s.pendingInterestTable.lastId

/-- Ids that have been drawn are used no more than before, and new ones at most once. -/
structure Grows (s s' : State) : Prop where
  lastId : s.lastId ≤ s'.lastId
  uses : ∀ id, s'.uses id ≤ s.uses id + if s.lastId < id ∧ id ≤ s'.lastId then 1 else 0

/-- An id is used at most once, and not at all before it has been drawn. -/
structure UsesOnce (s : State) : Prop where
  once : ∀ id, s.uses id ≤ 1
  fresh : ∀ id, s.lastId < id → s.uses id = 0

section

variable {enc : Encoding} {sha256 : List UInt8 → List UInt8} {s s' : State} {id : RecordId}

theorem usesOnce_init : UsesOnce init := ⟨fun _ => Nat.zero_le 1, fun _ _ => rfl⟩

theorem UsesOnce.of_grows (h : UsesOnce s) (hgrows : Grows s s') : UsesOnce s' := by
  refine ⟨fun id => ?_, fun id hid => ?_⟩
  · have huses := hgrows.uses id
    have honce := h.once id
    split at huses
    · rename_i hnew
      rw [h.fresh id hnew.1] at huses
      exact huses
    · exact Nat.le_trans huses honce
  · have huses := hgrows.uses id
    have hold : s.lastId < id := Nat.lt_of_le_of_lt hgrows.lastId hid
    rw [h.fresh id hold, if_neg (fun hnew => absurd hnew.2 (Nat.not_le.2 hid))] at huses
    exact Nat.le_zero.1 huses

theorem grows_of_uses_le (hlast : s'.lastId = s.lastId) (huses : ∀ id, s'.uses id ≤ s.uses id) :
    Grows s s' :=
  ⟨Nat.le_of_eq hlast.symm, fun id => Nat.le_add_right_of_le (huses id)⟩

/-! ## Counting -/

theorem uses_post (task : Task) :
    (s.post task).uses id = s.uses id + if task.expresses id then 1 else 0 := by
  simp only [uses, post_log, post_pendingInterestTable, post_posted, countP_append,
    countP_singleton]
  omega

@[simp] theorem uses_signalIfEmpty {α : Type} {c : RecordContainer α} :
    (signalIfEmpty c s).uses id = s.uses id := by
  rw [signalIfEmpty]
  split
  · exact uses_post .pauseIfUnused
  · rfl

section

variable (j : RecordId)

section

variable (entry : PendingInterest)

theorem uses_dispatchInterest : (s.dispatchInterest j entry).uses id = s.uses id := by
  obtain ⟨calls, hcalls, heq⟩ := dispatchInterest_eq s j entry
  have hnone : calls.countP (Action.answers id) = 0 := by
    rw [countP_eq_zero]
    intro a ha
    obtain ⟨f, i, rfl⟩ := hcalls a ha
    exact false_ne_true
  simp only [heq, uses, ids_modify, countP_append, hnone, Nat.add_zero]

theorem lastId_dispatchInterest : (s.dispatchInterest j entry).lastId = s.lastId := by
  obtain ⟨calls, -, heq⟩ := dispatchInterest_eq s j entry
  rw [heq]
  rfl

theorem uses_put :
    (s.setPending (s.pendingInterestTable.put j entry)).uses id ≤
      s.uses id + if j = id then 1 else 0 := by
  have hcount := s.pendingInterestTable.count_ids_put id j entry
  simp only [uses, setPending_log, setPending_pendingInterestTable, setPending_posted]
  omega

end

theorem uses_recordForwarding : (s.recordForwarding j).uses id = s.uses id := by
  simp only [uses, recordForwarding, setPending_log, setPending_pendingInterestTable,
    setPending_posted, ids_modify]

theorem uses_erasePending : (s.erasePending j).uses id ≤ s.uses id := by
  have hcount := s.pendingInterestTable.count_ids_erase id j
  rw [erasePending, uses_signalIfEmpty]
  simp only [uses, setPending_log, setPending_pendingInterestTable, setPending_posted]
  omega

end

theorem uses_clearPending : s.clearPending.uses id ≤ s.uses id := by
  rw [clearPending, uses_post]
  simp only [uses, setPending_log, setPending_pendingInterestTable, setPending_posted,
    ids_clear, count_nil, Task.expresses, false_eq_true, if_false]
  omega

theorem uses_shutdown : s.shutdown.uses id ≤ s.uses id := by
  have hcleared : s.clearPending.uses id ≤ s.uses id := uses_clearPending
  rw [shutdown, uses_post]
  exact hcleared

variable {keep : PendingInterest → Option PendingInterest}
  {acts : RecordId × PendingInterest → List Action} {task : Task} {entry : PendingInterest}

/-- A walk calls back for a record once at most, and only if it removes it. -/
def AnswersOnce (keep : PendingInterest → Option PendingInterest)
    (acts : RecordId × PendingInterest → List Action) : Prop :=
  ∀ x id, (acts x).countP (Action.answers id) ≤ if x.1 = id ∧ keep x.2 = none then 1 else 0

theorem countP_walk (hacts : AnswersOnce keep acts) (l : List (RecordId × PendingInterest))
    (id : RecordId) :
    (l.flatMap acts).countP (Action.answers id) +
        ((l.filterMap fun x => (keep x.2).map (Prod.mk x.1)).map Prod.fst).count id ≤
      (l.map Prod.fst).count id := by
  induction l with
  | nil => simp
  | cons x l ih =>
    have hthis := hacts x id
    cases hkeep : keep x.2 with
    | none => grind
    | some r => grind

theorem uses_walk (hacts : AnswersOnce keep acts) {table : RecordContainer PendingInterest}
    (htable : table.records = s.pendingInterestTable.records.filterMap
      fun x => (keep x.2).map (Prod.mk x.1)) (id : RecordId) :
    ({ s.setPending table with
        log := s.log ++ s.pendingInterestTable.records.flatMap acts } : State).uses id ≤
      s.uses id := by
  have hwalk := countP_walk hacts s.pendingInterestTable.records id
  rw [← htable] at hwalk
  simp only [uses, countP_append, setPending_posted, setPending_pendingInterestTable,
    RecordContainer.ids]
  omega

theorem answersOnce_dataCallbacks (d : Data) :
    AnswersOnce (·.afterData sha256 d) (dataCallbacks sha256 d) := by
  intro x id
  simp only [dataCallbacks, PendingInterest.afterData]
  split
  · rename_i hcalled
    simp only [and_eq_true] at hcalled
    by_cases hid : x.1 = id
    · simp [hid, hcalled.1.1, Action.answers]
    · simp [hid, Action.answers]
  · exact Nat.zero_le _

theorem answersOnce_nackActions (nack : Nack) :
    AnswersOnce (·.afterNack nack) (nackActions nack) := by
  intro x id
  simp only [nackActions, afterNack]
  split
  · by_cases hpos : 1 < x.2.nNotNacked
    · have hout : (x.2.recordNack nack).2 = none := by simp [recordNack, hpos]
      simp [hout, Action.answers]
    · obtain ⟨out, hout⟩ : ∃ out, (x.2.recordNack nack).2 = some out :=
        ⟨_, by simp only [recordNack]; rw [if_neg (by omega)]⟩
      by_cases hid : x.1 = id
      · rw [if_neg hpos, if_pos ⟨hid, rfl⟩, hout]
        dsimp only
        split <;> simp [Action.answers, hid]
      · rw [hout]
        dsimp only
        split <;> simp [Action.answers, hid]
  · exact Nat.zero_le _

/-! ## Handlers -/

/-- A handler uses what it expresses and no other id. -/
structure Handles (s s' : State) (task : Task) : Prop where
  lastId : s'.lastId = s.lastId
  uses : ∀ id, s'.uses id ≤ s.uses id + if task.expresses id then 1 else 0

theorem Handles.of_uses_le (hlast : s'.lastId = s.lastId) (huses : ∀ id, s'.uses id ≤ s.uses id) :
    Handles s s' task :=
  ⟨hlast, fun id => Nat.le_add_right_of_le (huses id)⟩

theorem Handles.dispatchInterest (h : Handles s s' task) (j : RecordId) (entry : PendingInterest) :
    Handles s (s'.dispatchInterest j entry) task := by
  refine ⟨(lastId_dispatchInterest j entry).trans h.lastId, fun id => ?_⟩
  rw [uses_dispatchInterest]
  exact h.uses id

theorem Handles.send (h : Handles s s' task) (wire : List UInt8) : Handles s (s'.send wire) task :=
  ⟨h.lastId, h.uses⟩

theorem Handles.sendEncoded (h : Handles s s' task) (wire : List UInt8) :
    Handles s (s'.sendEncoded wire) task := by
  have hconnected : Handles s (s'.ensureConnected true) task := ⟨h.lastId, h.uses⟩
  rw [State.sendEncoded]
  split
  · exact hconnected
  · exact hconnected.send _

theorem handles_walked (hacts : AnswersOnce keep acts) (hwalk : Walked keep acts s s')
    (task : Task) :
    Handles s s' task := by
  obtain ⟨table, htable, hlast, rfl⟩ := hwalk
  refine .of_uses_le (by simpa [lastId] using hlast) fun id => ?_
  rw [uses_signalIfEmpty]
  exact uses_walk hacts htable id

theorem handles_satisfyPendingInterests (d : Data) (task : Task) :
    Handles s (s.satisfyPendingInterests sha256 d).2 task :=
  handles_walked (answersOnce_dataCallbacks d) (satisfyPendingInterests_walked sha256 s d) task

theorem handles_nackPendingInterests (nack : Nack) (task : Task) :
    Handles s (s.nackPendingInterests nack).2 task :=
  handles_walked (answersOnce_nackActions nack) (nackPendingInterests_walked s nack) task

theorem handles_putApp {j : RecordId} (htask : task.expresses j = true) (interest : Interest)
    (callbacks : Callbacks) :
    Handles s (((s.ensureConnected true).setPending (s.pendingInterestTable.put j
      (.ofApp interest callbacks))).recordForwarding j) task := by
  refine ⟨rfl, fun id => ?_⟩
  rw [uses_recordForwarding]
  refine Nat.le_trans (uses_put (s := s.ensureConnected true) j _) (Nat.add_le_add_left ?_ _)
  split
  · rename_i hj
    rw [← hj, htask, if_pos rfl]
  · exact Nat.zero_le _

theorem handles_expressInterest (j : RecordId) (interest : Interest) (callbacks : Callbacks) :
    Handles s (s.expressInterest enc j interest callbacks)
      (.expressInterest j interest callbacks) := by
  have hself : (Task.expressInterest j interest callbacks).expresses j = true := beq_self_eq_true j
  have hput := handles_putApp (s := s) hself interest callbacks
  rw [expressInterest]
  split
  · exact hput
  · exact (hput.send _).dispatchInterest j _

theorem handles_expressDumbInterest (j : RecordId) (interest : Interest) (callbacks : Callbacks) :
    Handles s (s.expressDumbInterest j interest callbacks)
      (.expressDumbInterest j interest callbacks) := by
  have hself : (Task.expressDumbInterest j interest callbacks).expresses j = true :=
    beq_self_eq_true j
  exact (handles_putApp hself interest callbacks).dispatchInterest j _

theorem handles_runTask (task : Task) : Handles s (s.runTask enc sha256 task) task := by
  cases task with
  | ensureConnected | setInterestFilter | unsetInterestFilter =>
    exact .of_uses_le rfl fun _ => Nat.le_refl _
  | expressInterest j interest callbacks => exact handles_expressInterest j interest callbacks
  | expressDumbInterest j interest callbacks =>
    exact handles_expressDumbInterest j interest callbacks
  | removePendingInterest j =>
    exact .of_uses_le (by simp [runTask, erasePending, lastId, RecordContainer.erase])
      fun _ => uses_erasePending j
  | removeAllPendingInterests => exact .of_uses_le rfl fun _ => uses_clearPending
  | putData d => grind [handles_satisfyPendingInterests, putData, runTask.eq_6, Handles.sendEncoded]
  | putNack nack => grind [handles_nackPendingInterests, putNack, runTask.eq_7, Handles.sendEncoded]
  | pauseIfUnused =>
    rw [runTask, pauseIfUnused]
    split <;> exact .of_uses_le rfl fun _ => Nat.le_refl _
  | shutdown =>
    rw [runTask]
    split
    · refine .of_uses_le rfl fun id => ?_
      show s.shutdown.uses id ≤ s.uses id
      exact uses_shutdown
    · exact .of_uses_le rfl fun _ => uses_shutdown

/-! ## Steps -/

theorem uses_eraseIdx {i : Nat} (h : s.posted[i]? = some task) :
    ({ s with posted := s.posted.eraseIdx i } : State).uses id +
      (if task.expresses id then 1 else 0) = s.uses id := by
  obtain ⟨hi, rfl⟩ := List.getElem?_eq_some_iff.1 h
  have hperm := (getElem_cons_eraseIdx_perm hi).countP_eq (Task.expresses id)
  rw [countP_cons] at hperm
  simp only [uses]
  omega

theorem uses_timeout (h : s.pendingInterestTable.get id = some entry) (j : RecordId) :
    (s.invokeTimeoutCallback id entry).uses j ≤ s.uses j := by
  have hmem : id ∈ s.pendingInterestTable.ids := mem_ids_iff.2 ⟨entry, get_eq_some_iff.1 h⟩
  have herased := s.pendingInterestTable.count_ids_erase j id
  rw [invokeTimeoutCallback, erasePending, uses_signalIfEmpty]
  simp only [uses, setPending_log, setPending_pendingInterestTable, setPending_posted,
    countP_append]
  by_cases hj : id = j
  · grind [count_ids_erase_self]
  · have hnone : List.countP (Action.answers j)
        (if entry.callbacks.timeout = true then [Action.timeoutCallback id] else []) = 0 := by
      split <;> simp [Action.answers, hj]
    omega

theorem Handles.grows (h : Handles s s' task) (hnone : ∀ id, task.expresses id = false) :
    Grows s s' := by
  refine grows_of_uses_le h.lastId fun id => ?_
  have huses := h.uses id
  rw [hnone id] at huses
  exact huses

theorem grows_call (h : ∀ id, task.expresses id = true → id = s.lastId + 1) :
    Grows s (s.allocateId.post task) := by
  refine ⟨Nat.le_succ _, fun id => ?_⟩
  rw [uses_post]
  refine Nat.add_le_add_left ?_ _
  split
  · rename_i htask
    rw [if_pos ⟨by rw [h id htask]; exact Nat.lt_succ_self _, Nat.le_of_eq (h id htask)⟩]
  · exact Nat.zero_le _

theorem grows_processIncomingInterest (interest : Interest) :
    Grows s (s.processIncomingInterest interest) := by
  rw [processIncomingInterest]
  refine ⟨?_, fun id => ?_⟩
  · rw [lastId_dispatchInterest]
    exact Nat.le_succ _
  · rw [uses_dispatchInterest, lastId_dispatchInterest]
    refine Nat.le_trans (uses_put (s := s.allocateId) _ _) (Nat.add_le_add_left ?_ _)
    split
    · rename_i hid
      rw [← hid, if_pos ⟨Nat.lt_succ_self _, Nat.le_refl _⟩]
    · exact Nat.zero_le _

theorem grows_post (h : ∀ id, task.expresses id = false) : Grows s (s.post task) := by
  refine grows_of_uses_le rfl fun id => ?_
  rw [uses_post, h id]
  exact Nat.le_refl _

theorem grows_step {e : Event} (hstep : s.step enc sha256 e = some s') : Grows s s' := by
  cases e with
  | expressInterest | expressDumbInterest =>
    exact some.inj hstep ▸ grows_call fun id h => (beq_iff_eq.1 h).symm
  | run i =>
    obtain ⟨task, htask, rfl⟩ := map_eq_some_iff.1 hstep
    have hhandles := @handles_runTask enc sha256 { s with posted := s.posted.eraseIdx i } task
    refine grows_of_uses_le hhandles.lastId fun id => ?_
    -- what leaves the queue enters the table
    rw [← uses_eraseIdx htask]
    exact hhandles.uses id
  | timeout id =>
    obtain ⟨entry, hentry, rfl⟩ := map_eq_some_iff.1 hstep
    refine grows_of_uses_le ?_ (uses_timeout hentry)
    simp [invokeTimeoutCallback, erasePending, lastId, RecordContainer.erase]
  | receive element =>
    obtain ⟨-, rfl⟩ := ite_some_none_eq_some.1 hstep
    cases element with
    | interest interest => exact grows_processIncomingInterest interest
    | nack nack => exact (handles_nackPendingInterests nack .shutdown).grows fun _ => rfl
    | data d => exact (handles_satisfyPendingInterests d .shutdown).grows fun _ => rfl
    | other | malformed => exact grows_of_uses_le rfl fun _ => Nat.le_refl _
  | unwind => exact some.inj hstep ▸ grows_of_uses_le rfl fun _ => uses_shutdown
  | prefixUnregistered id =>
    exact some.inj hstep ▸ grows_of_uses_le (by simp [lastId]) fun id => by
      rw [uses_signalIfEmpty]
      exact Nat.le_refl _
  | prefixRegistered filter =>
    exact some.inj hstep ▸ grows_of_uses_le rfl fun _ => Nat.le_refl _
  | setInterestFilter filter =>
    obtain rfl := some.inj hstep
    refine grows_of_uses_le rfl fun id => ?_
    rw [setInterestFilter, uses_post]
    exact Nat.le_refl _
  | connectHandler | transportError | writeCompleted | handleAsyncWrite | receiveCompleted
  | receiveAgain =>
    obtain ⟨-, rfl⟩ := ite_some_none_eq_some.1 hstep
    exact grows_of_uses_le rfl fun _ => Nat.le_refl _
  | _ => exact some.inj hstep ▸ grows_post fun _ => rfl

/-! ## What Data does -/

theorem count_dataCallbacks {d : Data} (hget : s.pendingInterestTable.get id = some entry)
    (happ : entry.origin = .app) (hmatch : entry.interest.matchesData sha256 d = true)
    (hcallback : entry.callbacks.data = true) :
    (s.pendingInterestTable.records.flatMap (dataCallbacks sha256 d)).count (.dataCallback id d) =
      1 := by
  have hmem := get_eq_some_iff.1 hget
  have hnodup := s.pendingInterestTable.nodup_ids
  rw [RecordContainer.ids] at hnodup
  generalize s.pendingInterestTable.records = l at *
  have hself : ∀ x : RecordId × PendingInterest,
      .dataCallback id d ∈ dataCallbacks sha256 d x → x.1 = id := by
    intro x hx
    rw [dataCallbacks] at hx
    split at hx
    · exact (Action.dataCallback.inj (mem_singleton.1 hx)).1.symm
    · cases hx
  induction l with
  | nil => cases hmem
  | cons x l ih =>
    rw [map_cons, nodup_cons] at hnodup
    rw [flatMap_cons, count_append]
    rcases mem_cons.1 hmem with rfl | hmem
    · -- no later record has this id
      have hrest : (l.flatMap (dataCallbacks sha256 d)).count (.dataCallback id d) = 0 := by
        refine count_eq_zero.2 fun hcall => ?_
        obtain ⟨y, hy, hcall⟩ := mem_flatMap.1 hcall
        exact hnodup.1 (mem_map.2 ⟨y, hy, hself y hcall⟩)
      rw [hrest]
      simp [dataCallbacks, happ, hmatch, hcallback]
    · grind

/-- **At most one callback, and no Data lost**: each call has at most one of its callbacks invoked,
    and a Data that comes next invokes that of every pending Interest it matches exactly once. -/
theorem run_callbacks_once {es : List Event} {t : State}
    (hrun : Run (State.step enc sha256) (fun _ _ => True) init es t) :
    (∀ id, t.log.countP (Action.answers id) ≤ 1) ∧
      ∀ d t', t.step enc sha256 (.receive (.data d)) = some t' →
        ∃ new, t'.log = t.log ++ new ∧ ∀ id entry, t.pendingInterestTable.get id = some entry →
          entry.origin = .app → entry.interest.matchesData sha256 d = true →
          entry.callbacks.data = true → new.count (.dataCallback id d) = 1 := by
  have honce : UsesOnce t :=
    hrun.invariant (fun _ _ _ h _ hstep => h.of_grows (grows_step hstep)) usesOnce_init
  refine ⟨fun id => ?_, fun d t' hstep => ?_⟩
  · have huses := honce.once id
    rw [uses] at huses
    omega
  · obtain ⟨-, rfl⟩ := ite_some_none_eq_some.1 hstep
    obtain ⟨table, -, -, hwalk⟩ := satisfyPendingInterests_walked sha256 t d
    refine ⟨t.pendingInterestTable.records.flatMap (dataCallbacks sha256 d), ?_, ?_⟩
    · rw [onReceiveElement, hwalk, signalIfEmpty_log]
    · simp_all [count_dataCallbacks]

end

end State

def dataOf (name : String) : Data :=
  ⟨[Component.ofString name], .default, none, none, none, [], false⟩

/-- An Interest is sent, and the first octets of an answer are there. -/
def answered : List Event :=
  [.run 0, .expressInterest (interestOf "a") allCallbacks, .run 0, .connectHandler,
    .receiveCompleted]

theorem run_callbacks_once_answered : ∃ t t',
    Run (State.step shortEncoding (fun _ => [])) (fun _ _ => True) .init answered t ∧
      (∀ id, t.log.countP (Action.answers id) ≤ 1) ∧
      t.step shortEncoding (fun _ => []) (.receive (.data (dataOf "a"))) = some t' ∧
      ∃ new, t'.log = t.log ++ new ∧ new.count (.dataCallback 1 (dataOf "a")) = 1 := by
  obtain ⟨t, hrun, hcompleted, hrecord⟩ : ∃ t, Run (step shortEncoding (fun _ => []))
      (fun _ _ => True) .init answered t ∧ 0 < t.transport.completed ∧
      t.pendingInterestTable.get 1 = some (ofApp (interestOf "a") allCallbacks).recordForwarding :=
    Run.exists_of_decide _ (by decide) fun _ _ ht => ht
  have hstep : t.step shortEncoding (fun _ => []) (.receive (.data (dataOf "a"))) =
      some (t.onReceiveElement (fun _ => []) (.data (dataOf "a"))) := if_pos hcompleted
  obtain ⟨honce, hdata⟩ := run_callbacks_once hrun
  obtain ⟨new, hlog, hnew⟩ := hdata (dataOf "a") _ hstep
  exact ⟨t, _, hrun, honce, hstep, new, hlog, hnew 1 _ hrecord rfl (by decide) rfl⟩

end NdnMulticast.Ndn.Face
