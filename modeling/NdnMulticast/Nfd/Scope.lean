/-
  The scope of `/localhost`.  Interests respect it because every strategy checks before it
  calls `sendInterest`; one that carries NextHopFaceId goes past the strategies.
-/

import NdnMulticast.Nfd.Daemon

namespace NdnMulticast.Nfd

open Lib Ndn State
open Strategy (Action)

namespace DaemonEvent

/-- A packet under `/localhost` arrives on a non-local face. -/
def violatesLocalhost (env : Env) : DaemonEvent → Bool
  | .interest ingress frame _ _ =>
    (frame.decodeInterest env).any fun i => isViolatingLocalhost env ingress i.name
  | .data ingress frame _ _ _ _ =>
    frame.decodeData.any fun d => isViolatingLocalhost env ingress d.name
  | _ => false

/-- The face that an Interest with NextHopFaceId is steered to. -/
def steersTo (D : Daemon) : DaemonEvent → Option FacePtr
  | .interest _ frame _ _ => frame.nextHopFaceId.bind D.state.faceTable.get
  | _ => none

end DaemonEvent

namespace Daemon

variable {env : Env} {D D' : Daemon} {ev : DaemonEvent}

/-- An event that takes `D` to `D'` respects the scope of `/localhost`. -/
structure RespectsLocalhost (env : Env) (D : Daemon) (ev : DaemonEvent) (D' : Daemon) : Prop where
  /-- A packet that violates the scope is counted; nothing is stored and nothing sent. -/
  dropped : ev.violatesLocalhost env = true →
    ∃ counters, D' = { D with state := { D.state with counters, sent := [] } }
  interests : ∀ egress i, .interest egress i ∈ D'.state.sent →
    isViolatingLocalhost env egress i.name = false ∨ ev.steersTo D = some egress
  data : ∀ egress d token, .data egress d token ∈ D'.state.sent →
    isViolatingLocalhost env egress d.name = false

/-! ## Packets from outside -/

variable {ingress egress : FacePtr} {i j : Interest} {known : Knowledge} {id : EntryId}

theorem onIncomingInterest_of_violating {s : State}
    (h : isViolatingLocalhost env ingress i.name = true) (freshNonce : List UInt8)
    (actions : List Action) :
    (s.onIncomingInterest env ingress i freshNonce actions).state =
      s.count fun c => { c with nInInterests := c.nInInterests + 1 } := by
  have hname : (receiveInterest i freshNonce).name = i.name := rfl
  simp only [onIncomingInterest, hname, h, if_true]
  split
  · rfl
  · rfl

theorem onIncomingData_of_violating {d : Data} (h : isViolatingLocalhost env ingress d.name = true)
    (nonces : Nat → List UInt8) (rate : FacePtr → Int) (defers : Bool) (extended : EntryId → Bool) :
    (D.onIncomingData env ingress d nonces rate defers extended).state =
      D.state.beginEvent.count fun c => { c with nInData := c.nInData + 1 } := by
  have hmatches : D.dataMatches env ingress d = [] := by
    rw [dataMatches, if_pos h]
  simp [onIncomingData, hmatches, onDataForBase, extendTimers, State.onIncomingData, h]

theorem dropped_of_step (h : D.step env ev = some D')
    (hviolates : ev.violatesLocalhost env = true) :
    ∃ counters, D' = { D with state := { D.state with counters, sent := [] } } := by
  cases ev with
  | interest ingress frame freshNonce known =>
    rcases step_interest h with rfl | ⟨i, hi, rfl⟩
    · exact ⟨D.state.counters, rfl⟩
    · rw [DaemonEvent.violatesLocalhost, hi] at hviolates
      rw [onIncomingInterest_of_violating hviolates]
      exact ⟨_, rfl⟩
  | data ingress frame nonces rate defers extended =>
    rcases step_data h with rfl | ⟨d, deferred, hd, hdeferred, rfl⟩
    · exact ⟨D.state.counters, rfl⟩
    rw [DaemonEvent.violatesLocalhost, hd] at hviolates
    have hnone : D.deferredBy env ingress d defers = [] := by
      have hviolating : isViolatingLocalhost env ingress d.name = true := hviolates
      simp [deferredBy, dataMatches, hviolating]
    rw [hnone, List.nil_append, or_self] at hdeferred
    rw [onIncomingData_of_violating hviolates, hdeferred]
    exact ⟨_, rfl⟩
  | _ => cases hviolates

/-! ## Packets to the outside -/

theorem isViolatingLocalhost_of_sends {t : Trigger} {actions : List Action}
    (hscope : ∀ a ∈ actions, t.InScope a) (h : Sends actions egress j) :
    isViolatingLocalhost t.env egress j.name = false := by
  obtain ⟨j', hmem, rfl⟩ := h
  obtain ⟨hname, hallowed⟩ := hscope _ hmem
  have := isViolatingLocalhost_of_wouldViolateScope hallowed
  rwa [← hname] at this

theorem isViolatingLocalhost_of_interestActions {freshNonce : List UInt8}
    (h : Sends (D.interestActions env ingress i freshNonce known) egress j) :
    isViolatingLocalhost env egress j.name = false := by
  simp only [interestActions] at h
  split at h
  · obtain ⟨_, hmem, -⟩ := h
    cases hmem
  · exact (isViolatingLocalhost_of_sends (afterReceiveInterest_inScope _ _) h :)

theorem isViolatingLocalhost_of_timerActions {inFaceId : FaceId} {actions : Trigger → List Action}
    (hactions : ∀ t : Trigger, t.Allowed (actions t))
    (h : Sends (D.timerActions env id inFaceId known actions) egress j) :
    isViolatingLocalhost env egress j.name = false := by
  have hnone : ¬ Sends [] egress j := fun ⟨_, hmem, _⟩ => nomatch hmem
  simp only [timerActions] at h
  split at h
  · split at h
    · exact absurd h hnone
    · exact (isViolatingLocalhost_of_sends (fun a ha => (hactions _ a ha).1) h :)
  · exact absurd h hnone

theorem decodeInterest_nextHopFaceId {frame : Frame} (h : frame.decodeInterest env = some i) :
    i.nextHopFaceId = frame.nextHopFaceId := by
  unfold Frame.decodeInterest at h
  split at h
  · rw [← Option.some.inj h]
  · cases h

theorem isViolatingLocalhost_of_permits (h : D.Permits env ev id egress j) :
    isViolatingLocalhost env egress j.name = false ∨ ev.steersTo D = some egress := by
  cases ev with
  | interest ingress frame freshNonce known =>
    obtain ⟨i, hi, -, ⟨hsteered, -⟩ | ⟨-, hsends⟩⟩ := h
    · right
      rw [DaemonEvent.steersTo, ← decodeInterest_nextHopFaceId hi]
      exact hsteered
    · exact Or.inl (isViolatingLocalhost_of_interestActions hsends)
  | rtoTimeout id' inFaceId firstOutFaceId known =>
    exact Or.inl (isViolatingLocalhost_of_timerActions
      (fun t => AccessStrategy.multicast_allowed t firstOutFaceId) h.2)
  | propagate id' inFaceId known =>
    exact Or.inl (isViolatingLocalhost_of_timerActions NccStrategy.doPropagate_allowed h.2)
  | _ => exact h.elim

theorem step_respectsLocalhost (h : D.step env ev = some D') : RespectsLocalhost env D ev D' := by
  have hsent := (step_effects h).sent fun o ho => nomatch ho
  refine ⟨dropped_of_step h, fun egress i hi => ?_, fun egress d token hd => hsent _ hd⟩
  obtain ⟨id, hpermits⟩ := hsent _ hi
  exact isViolatingLocalhost_of_permits hpermits

end Daemon

/-- **The scope of `/localhost`.**  In every run of the daemon with the bundled strategies, each
    step respects the scope. -/
theorem run_respectsLocalhost {env : Env} {D D' : Daemon} {evs : List DaemonEvent}
    (hrun : Run (Daemon.step env) (fun _ _ => True) D evs D') :
    Run (Daemon.step env)
      (fun D ev => ∀ D', D.step env ev = some D' → D.RespectsLocalhost env ev D') D evs D' :=
  hrun.mono fun _ _ _ _ hstep => Daemon.step_respectsLocalhost hstep

namespace Router

/-- With a default route to an upstream, a neighbour and then the application ask for
    `/localhost/x`. -/
def localhostEvents : List DaemonEvent :=
  addFaces [1, 2, 5] ++
    [.addNextHop [] 5 10, request 2 ["localhost", "x"] 1, request 1 ["localhost", "x"] 2]

def localhostEnd : Daemon :=
  (localhostEvents.foldlM (Daemon.step env) (daemon .bestRoute2)).get (by decide)

end Router

theorem run_respectsLocalhost_router :
    Run (Daemon.step Router.env)
        (fun D ev => ∀ D', D.step Router.env ev = some D' → D.RespectsLocalhost Router.env ev D')
        (Router.daemon .bestRoute2) Router.localhostEvents Router.localhostEnd ∧
      Router.localhostEnd.state.pit.entries.length = 1 :=
  ⟨run_respectsLocalhost (Run.of_foldlM (Option.some_get _).symm), by decide⟩

end NdnMulticast.Nfd
