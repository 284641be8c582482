/-
  A Face with an Interest of the application pending reads from its transport.

  `resume` does nothing while the transport connects, and `connectHandler` makes up for it
  only if something waits to be sent.
-/

import NdnMulticast.Ndn.Face.Impl

namespace NdnMulticast.Ndn.Face

open Lib Option Bool Transport State PendingInterest

namespace State

/-- An Interest of the application is pending. -/
def hasAppInterest (s : State) : Bool :=
  s.pendingInterestTable.records.any fun x => x.2.origin == .app

/-- While an Interest of the application is pending on a connection, a receive is outstanding. -/
def Receives (s : State) : Prop :=
  s.hasAppInterest = true → s.transport.isConnected = true →
    s.transport.isReceiving = true ∧ 0 < s.transport.waiting + s.transport.completed

/-- The connection is not established while an Interest is pending and nothing waits to be sent, and
    what is received can be decoded. -/
def keepsReceiving (s : State) : Event → Bool
  | .connectHandler => !s.hasAppInterest || !s.transport.transmissionQueue.isEmpty
  | .receive .malformed => false
  | _ => true

/-- The transport is in order and has been resumed for the Interests pending. -/
structure Resumed (s : State) : Prop where
  sound : s.transport.Sound
  receiving : s.hasAppInterest = true → s.transport.isConnected = true →
    s.transport.isReceiving = true

section

variable {enc : Encoding} {sha256 : List UInt8 → List UInt8} {s s' : State} {id : RecordId}

theorem Resumed.receives (h : Resumed s) : s.Receives := fun happ hconn =>
  ⟨h.receiving happ hconn, h.sound.outstanding (h.receiving happ hconn)⟩

theorem resumed_init : Resumed init := ⟨sound_init, by decide⟩

theorem hasAppInterest_iff :
    s.hasAppInterest = true ↔ ∃ x ∈ s.pendingInterestTable.records, x.2.origin = .app := by
  simp [hasAppInterest]

/-- No Interest of the application has come to the table. -/
def NoNewApp (s s' : State) : Prop := s'.hasAppInterest = true → s.hasAppInterest = true

theorem noNewApp_of_origin
    (h : ∀ x ∈ s'.pendingInterestTable.records, ∃ y ∈ s.pendingInterestTable.records,
      x.2.origin = y.2.origin) : NoNewApp s s' := by
  intro happ
  obtain ⟨x, hx, horigin⟩ := hasAppInterest_iff.1 happ
  obtain ⟨y, hy, heq⟩ := h x hx
  exact hasAppInterest_iff.2 ⟨y, hy, heq ▸ horigin⟩

theorem noNewApp_of_table (h : s'.pendingInterestTable = s.pendingInterestTable) :
    NoNewApp s s' := by
  intro happ
  rw [hasAppInterest, h] at happ
  exact happ

theorem Resumed.of_transport_eq (h : Resumed s) (htransport : s'.transport = s.transport)
    (hnew : NoNewApp s s') : Resumed s' := by
  refine ⟨htransport ▸ h.sound, fun happ hconn => ?_⟩
  rw [htransport] at hconn ⊢
  exact h.receiving (hnew happ) hconn

/-! ## Operations on the table -/

section

variable (h : Resumed s)
include h

theorem Resumed.walked {keep : PendingInterest → Option PendingInterest}
    {acts : RecordId × PendingInterest → List Action} (hwalk : Walked keep acts s s')
    (hkeep : ∀ r r', keep r = some r' → r'.origin = r.origin) : Resumed s' := by
  have hnew : NoNewApp s s' := by
    apply noNewApp_of_origin
    intro x hx
    obtain ⟨y, hy, hr⟩ := hwalk.mem_records hx
    exact ⟨y, hy, hkeep _ _ hr⟩
  obtain ⟨table, -, -, rfl⟩ := hwalk
  exact h.of_transport_eq (by simp) hnew

theorem Resumed.satisfyPendingInterests (d : Data) :
    Resumed (s.satisfyPendingInterests sha256 d).2 := by
  refine h.walked (satisfyPendingInterests_walked sha256 s d) fun r r' hr => ?_
  obtain ⟨-, hr⟩ := ite_none_left_eq_some.1 hr
  rw [some.inj hr]

theorem Resumed.nackPendingInterests (nack : Nack) : Resumed (s.nackPendingInterests nack).2 := by
  refine h.walked (nackPendingInterests_walked s nack) fun r r' hr => ?_
  rw [afterNack] at hr
  split at hr
  · split at hr
    · rw [← some.inj hr]
      rfl
    · cases hr
  · rw [some.inj hr]

theorem Resumed.erasePending (id : RecordId) : Resumed (s.erasePending id) := by
  refine h.of_transport_eq (by simp [State.erasePending]) (noNewApp_of_origin fun x hx => ?_)
  have hx : x ∈ (s.pendingInterestTable.erase id).records := by
    simpa [State.erasePending] using hx
  exact ⟨x, (List.mem_filter.1 hx).1, rfl⟩

theorem Resumed.clearPending : Resumed s.clearPending :=
  h.of_transport_eq rfl (noNewApp_of_origin fun _ hx => nomatch hx)

theorem Resumed.shutdown : Resumed s.shutdown :=
  h.of_transport_eq rfl (noNewApp_of_origin fun _ hx => nomatch hx)

theorem Resumed.dispatchInterest (id : RecordId) (entry : PendingInterest) :
    Resumed (s.dispatchInterest id entry) := by
  obtain ⟨calls, -, heq⟩ := dispatchInterest_eq s id entry
  rw [heq]
  refine h.of_transport_eq rfl (noNewApp_of_origin fun x hx => ?_)
  obtain ⟨y, hy, rfl⟩ := List.mem_map.1 hx
  refine ⟨y, hy, ?_⟩
  split <;> rfl

theorem Resumed.processIncomingInterest (interest : Interest) :
    Resumed (s.processIncomingInterest interest) := by
  apply Resumed.dispatchInterest
  refine h.of_transport_eq rfl fun happ => ?_
  -- the new record is the forwarder's
  obtain ⟨x, hx, horigin⟩ := hasAppInterest_iff.1 happ
  rcases RecordContainer.mem_emplace hx with rfl | hx
  · cases horigin
  · exact hasAppInterest_iff.2 ⟨x, hx, horigin⟩

end

/-! ## Operations on the transport -/

section

variable (h : Resumed s)
include h

/-- After `ensureConnected(true)` any record may be put. -/
theorem Resumed.express (table : RecordContainer PendingInterest) :
    Resumed ((s.ensureConnected true).setPending table) :=
  ⟨h.sound.ensureConnected true, fun _ hconn => ensureConnected_receiving hconn h.sound⟩

theorem Resumed.send (wire : List UInt8) : Resumed (s.send wire) := by
  refine ⟨h.sound.send wire, fun happ hconn => ?_⟩
  have hconn : s.transport.isConnected = true := by
    rw [send_transport, send_isConnected] at hconn
    exact hconn
  rw [send_transport, send_isReceiving]
  exact h.receiving happ hconn

theorem Resumed.sendEncoded (wire : List UInt8) : Resumed (s.sendEncoded wire) := by
  have hconnected : Resumed (s.ensureConnected true) := h.express s.pendingInterestTable
  rw [State.sendEncoded]
  split
  · exact hconnected
  · exact hconnected.send _

theorem Resumed.expressDumbInterest (id : RecordId) (interest : Interest) (callbacks : Callbacks) :
    Resumed (s.expressDumbInterest id interest callbacks) :=
  (h.express _).dispatchInterest id _

theorem Resumed.expressInterest (id : RecordId) (interest : Interest) (callbacks : Callbacks) :
    Resumed (s.expressInterest enc id interest callbacks) := by
  rw [State.expressInterest]
  split
  · exact h.express _
  · exact ((h.express _).send _).dispatchInterest id _

theorem Resumed.putData (d : Data) : Resumed (s.putData enc sha256 d) := by
  have hsatisfied : Resumed (s.satisfyPendingInterests sha256 d).2 := h.satisfyPendingInterests d
  rw [State.putData]
  split <;> rename_i heq <;> rw [heq] at hsatisfied
  · exact hsatisfied
  · exact hsatisfied.sendEncoded _

theorem Resumed.putNack (nack : Nack) : Resumed (s.putNack enc nack) := by
  have hnacked : Resumed (s.nackPendingInterests nack).2 := h.nackPendingInterests nack
  rw [State.putNack]
  split <;> rename_i heq <;> rw [heq] at hnacked
  · exact hnacked
  · exact hnacked.sendEncoded _

theorem Resumed.pauseIfUnused : Resumed s.pauseIfUnused := by
  rw [State.pauseIfUnused]
  split
  · rename_i hunused
    have hempty : s.pendingInterestTable.records = [] := by
      simpa [RecordContainer.empty] using (and_eq_true_iff.1 hunused).1
    refine ⟨h.sound.pause, fun happ _ => ?_⟩
    simp [hasAppInterest, hempty] at happ
  · exact h

theorem Resumed.runTask (task : Task) : Resumed (s.runTask enc sha256 task) := by
  cases task with
  | ensureConnected =>
    refine ⟨h.sound.ensureConnected false, fun happ hconn => ?_⟩
    have hconn : (s.transport.ensureConnected false).isConnected = true := hconn
    show (s.transport.ensureConnected false).isReceiving = true
    rw [Transport.ensureConnected] at hconn ⊢
    -- connecting does not set the flag
    split at hconn <;> rename_i hwas
    · rw [if_pos hwas]
      exact h.receiving happ hwas
    · rw [Transport.connect] at hconn
      split at hconn <;> exact absurd hconn hwas
  | expressInterest id interest callbacks => exact h.expressInterest id interest callbacks
  | expressDumbInterest id interest callbacks => exact h.expressDumbInterest id interest callbacks
  | removePendingInterest id => exact h.erasePending id
  | removeAllPendingInterests => exact h.clearPending
  | putData d => exact h.putData d
  | putNack nack => exact h.putNack nack
  | setInterestFilter | unsetInterestFilter => exact h.of_transport_eq rfl (noNewApp_of_table rfl)
  | pauseIfUnused => exact h.pauseIfUnused
  | shutdown =>
    rw [State.runTask]
    split
    · exact ⟨sound_init, fun _ hconn => Bool.noConfusion hconn⟩
    · exact h.shutdown

theorem Resumed.onReceiveElement {element : Element}
    (hok : keepsReceiving s (.receive element) = true) :
    Resumed (s.onReceiveElement sha256 element) := by
  cases element with
  | interest interest => exact h.processIncomingInterest interest
  | nack nack => exact h.nackPendingInterests nack
  | data d => exact h.satisfyPendingInterests d
  | other => exact h
  | malformed => cases hok

theorem Resumed.connectHandler (hok : keepsReceiving s .connectHandler = true) :
    Resumed { s with transport := s.transport.connectHandler } := by
  refine ⟨h.sound.connectHandler, fun happ _ => connectHandler_receiving ?_⟩
  have happ : s.hasAppInterest = true := happ
  simpa [keepsReceiving, happ] using hok

theorem Resumed.step {e : Event} (hok : keepsReceiving s e = true)
    (hstep : s.step enc sha256 e = some s') : Resumed s' := by
  -- operations of the application only post
  have hposted : ∀ task : Task, Resumed (s.post task) := fun _ =>
    h.of_transport_eq rfl (noNewApp_of_table rfl)
  cases e with
  | expressInterest | expressDumbInterest =>
    exact some.inj hstep ▸ h.of_transport_eq rfl (noNewApp_of_origin fun x hx => ⟨x, hx, rfl⟩)
  | cancel | removeAllPendingInterests | put | push | putNack | unsetInterestFilter | shutdown =>
    exact some.inj hstep ▸ hposted _
  | setInterestFilter | prefixRegistered =>
    exact some.inj hstep ▸ h.of_transport_eq rfl (noNewApp_of_table rfl)
  | prefixUnregistered id =>
    exact some.inj hstep ▸ h.of_transport_eq (by simp) (noNewApp_of_table (by simp))
  | run i =>
    obtain ⟨task, -, rfl⟩ := map_eq_some_iff.1 hstep
    have hrest : Resumed { s with posted := s.posted.eraseIdx i } :=
      h.of_transport_eq rfl (noNewApp_of_table rfl)
    exact hrest.runTask task
  | timeout id =>
    obtain ⟨entry, -, rfl⟩ := map_eq_some_iff.1 hstep
    have hcalled : Resumed { s with
        log := s.log ++ if entry.callbacks.timeout then [.timeoutCallback id] else [] } :=
      h.of_transport_eq rfl (noNewApp_of_table rfl)
    exact hcalled.erasePending id
  | connectHandler =>
    obtain ⟨-, rfl⟩ := ite_some_none_eq_some.1 hstep
    exact h.connectHandler hok
  | transportError =>
    obtain ⟨-, rfl⟩ := ite_some_none_eq_some.1 hstep
    exact ⟨sound_init, fun _ hconn => nomatch hconn⟩
  | writeCompleted =>
    obtain ⟨-, rfl⟩ := ite_some_none_eq_some.1 hstep
    exact ⟨⟨h.sound.notBoth, h.sound.connected, h.sound.outstanding⟩, h.receiving⟩
  | handleAsyncWrite =>
    obtain ⟨-, rfl⟩ := ite_some_none_eq_some.1 hstep
    refine ⟨h.sound.handleAsyncWrite, fun happ hconn => ?_⟩
    rw [handleAsyncWrite_isConnected] at hconn
    rw [handleAsyncWrite_isReceiving]
    exact h.receiving happ hconn
  | receiveCompleted =>
    obtain ⟨-, rfl⟩ := ite_some_none_eq_some.1 hstep
    exact ⟨h.sound.receiveCompleted, h.receiving⟩
  | receive element =>
    obtain ⟨-, rfl⟩ := ite_some_none_eq_some.1 hstep
    exact h.onReceiveElement hok
  | receiveAgain =>
    obtain ⟨-, rfl⟩ := ite_some_none_eq_some.1 hstep
    exact ⟨h.sound.receiveAgain, h.receiving⟩
  | unwind => exact some.inj hstep ▸ h.shutdown

end

/-- **A pending Interest is listened for**, in every run in which no connection is established for
    Interests without anything to send. -/
theorem run_receives {es : List Event} {t : State}
    (hrun : Run (State.step enc sha256) (fun s e => keepsReceiving s e = true) init es t) :
    t.Receives :=
  (hrun.invariant (fun _ _ _ h hok hstep => h.step hok hstep) resumed_init).receives

end

end State

/-! ## A dumb Interest on a new Face -/

def interestOf (name : String) : Interest :=
  ⟨[Component.ofString name], false, false, [], none, Interest.defaultInterestLifetime, none, [],
    none, none⟩

/-- Packets of one octet. -/
def shortEncoding : Encoding := ⟨fun _ => [5], fun _ => [6], fun _ => [100]⟩

def allCallbacks : Callbacks := ⟨true, true, true⟩

/-- An Interest is sent, and once the connection is there a dumb one is expressed. -/
def dumbAfterSent : List Event :=
  [.run 0, .expressInterest (interestOf "a") allCallbacks, .run 0, .connectHandler,
    .expressDumbInterest (interestOf "b") allCallbacks, .run 0]

theorem run_receives_dumbAfterSent : ∃ t,
    Run (State.step shortEncoding (fun _ => [])) (fun s e => s.keepsReceiving e = true) .init
      dumbAfterSent t ∧
      (t.hasAppInterest = true ∧ t.transport.isConnected = true) ∧ t.Receives := by
  exact Run.exists_of_decide _ (by decide) fun _ hrun ht => ⟨ht, run_receives hrun⟩

/-- The same the other way round: the dumb Interest comes before the connection. -/
def dumbFirst : List Event :=
  [.run 0, .expressDumbInterest (interestOf "b") allCallbacks, .run 0, .connectHandler]

/-- **A dumb Interest that nobody listens for**: connected, no handler left, no octet will be read.
    -/
theorem run_dumb_unreceived : ∃ t,
    Run (State.step shortEncoding (fun _ => [])) (fun _ _ => True) .init dumbFirst t ∧
      t.posted.isEmpty = true ∧ t.hasAppInterest = true ∧ t.transport.isConnected = true ∧
      t.transport.isReceiving = false ∧ ¬ t.Receives := by
  refine Run.exists_of_decide (fun t => t.posted.isEmpty = true ∧ t.hasAppInterest = true ∧
    t.transport.isConnected = true ∧ t.transport.isReceiving = false) (by decide) ?_
  rintro t - ⟨hposted, happ, hconn, hreceiving⟩
  refine ⟨hposted, happ, hconn, hreceiving, fun h => ?_⟩
  have hflag := (h happ hconn).1
  simp [hreceiving] at hflag

end NdnMulticast.Ndn.Face
