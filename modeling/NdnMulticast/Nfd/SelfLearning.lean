/-
  The assertion of the self-learning strategy that a Nack with reason NoRoute finds the PIT
  entry with next hops in the FIB.

  An Interest that is broadcast has none, so the events must keep a route for each entry under the
  strategy that has an out-record.
-/

import NdnMulticast.Nfd.Daemon

namespace NdnMulticast.Nfd

open Lib Ndn State Option Entry
open Strategy (Action actAll)

namespace State

variable {i : Interest}

theorem outRecords_ne_nil_of_acceptedNack {env : Env} {s : State} {ingress : FacePtr} {id : EntryId}
    {e : Entry} (h : s.acceptedNack env ingress i = some id) (he : s.pit.get id = some e) :
    e.outRecords ≠ [] := by
  obtain ⟨-, -, r, hr, -⟩ := acceptedNack_eq_some h he
  exact List.ne_nil_of_mem (List.mem_of_find?_eq_some hr)

/-- The Interest of the entry an Interest finds or gets. -/
def pendingInterest (s : State) (i : Interest) : Interest :=
  (((s.pit.find i).bind s.pit.get).map Entry.interest).getD i

theorem interest_eq_pendingInterest {env : Env} {S : EntryId → FacePtr → Interest → Prop}
    {s t : State} (h : Effects env (· = i) S s t) {e : Entry}
    (he : t.pit.get (s.pit.insert i).1 = some e) : e.interest = s.pendingInterest i := by
  rcases s.pit.insert_cases i with ⟨id, e₀, hfind, he₀, hins⟩ | ⟨hfind, hins⟩
  · rw [hins] at he
    have hpending : s.pendingInterest i = e₀.interest := by simp [pendingInterest, hfind, he₀]
    rcases h.origin he with ⟨e₁, he₁, hinterest, -⟩ | ⟨hnew, -, -⟩
    · simp_all
    · exact absurd (s.pit.id_lt (id, e₀) (Pit.get_eq_some_iff.1 he₀)) (Nat.not_lt.2 hnew)
  · rw [hins] at he
    have hpending : s.pendingInterest i = i := by simp [pendingInterest, hfind]
    rcases h.origin he with ⟨e₁, he₁, -, -⟩ | ⟨-, hinterest, -⟩
    · exact absurd (s.pit.id_lt _ (Pit.get_eq_some_iff.1 he₁)) (lt_irrefl _)
    · rw [hpending, hinterest]

end State

namespace Daemon

variable {env : Env} {D D' : Daemon} {ev : DaemonEvent}

/-- Every entry under the self-learning strategy that has out-records has a route. -/
def routed (fib : Fib) (choice : StrategyChoice) (pit : Pit) : Bool :=
  pit.entries.all fun x =>
    x.2.outRecords.isEmpty ||
      (choice.findEffectiveStrategy x.2.name.key).instanceName.type != .selfLearning ||
      fib.hasNextHops x.2.interest

/-- The event takes no route from a pending Interest of the strategy, and gives the strategy no
    Interest to send that has none. -/
def keepsRoutes (env : Env) (D : Daemon) : DaemonEvent → Bool
  | .interest _ frame freshNonce known =>
    (frame.decodeInterest env).all fun i =>
      let pending := D.state.pendingInterest (acceptedInterest env i freshNonce)
      D.typeOf pending != .selfLearning || D.fib.hasNextHops pending ||
        (known.isNonDiscovery && i.nextHopFaceId.isNone)
  | .face (.closed p) => routed (D.fib.removeFace p) D.choice (D.state.pit.deleteInOutRecords p)
  | .removeNextHop pfx face => routed (D.fib.removeNextHop pfx face) D.choice D.state.pit
  | .setStrategy pfx name => routed D.fib (D.choice.insert pfx name) D.state.pit
  | .unsetStrategy pfx => routed D.fib (D.choice.erase pfx) D.state.pit
  | _ => true

variable {choice : StrategyChoice} {N : Interest → Prop} {S : EntryId → FacePtr → Interest → Prop}
  {known : Knowledge} {id : EntryId} {egress : FacePtr} {j : Interest} {inFaceId : FaceId}
  {actions : Trigger → List Action}

theorem routed_iff {fib : Fib} {pit : Pit} :
    routed fib choice pit = true ↔ ∀ id e, pit.get id = some e → e.outRecords ≠ [] →
      (choice.findEffectiveStrategy e.name.key).instanceName.type = .selfLearning →
      fib.hasNextHops e.interest = true := by
  simp only [routed, List.all_eq_true, Pit.get_eq_some_iff, Prod.forall, Bool.or_eq_true,
    List.isEmpty_iff, bne_iff_ne, ne_eq]
  refine forall₃_congr fun id e _ => ?_
  tauto

theorem routed_of_effects {s t : State} {fib : Fib} (heffects : Effects env N S s t)
    (hs : routed fib choice s.pit = true)
    (hS : ∀ id e, t.pit.get id = some e → (∃ egress j, S id egress j) →
      (choice.findEffectiveStrategy e.name.key).instanceName.type = .selfLearning →
      fib.hasNextHops e.interest = true) : routed fib choice t.pit = true := by
  rw [routed_iff] at hs ⊢
  intro id e' he' hout htype
  rcases heffects.origin he' with ⟨e, he, hinterest, horigin⟩ | ⟨-, -, horigin⟩
  · grind [name]
  · exact hS id e' he' (horigin hout) htype

/-- An Interest leaves an entry under the strategy only if the entry has a route. -/
theorem hasNextHops_of_interest {ingress : FacePtr} {frame : Frame} {freshNonce : List UInt8}
    (hok : keepsRoutes env D (.interest ingress frame freshNonce known) = true)
    (hpermits : D.Permits env (.interest ingress frame freshNonce known) id egress j) {i : Interest}
    (hi : frame.decodeInterest env = some i)
    (htype : D.typeOf (D.state.pendingInterest (acceptedInterest env i freshNonce)) =
      .selfLearning) :
    D.fib.hasNextHops (D.state.pendingInterest (acceptedInterest env i freshNonce)) = true := by
  obtain ⟨i', hi', rfl, hsends⟩ := hpermits
  obtain rfl : i = i' := mem_unique hi hi'
  simp only [keepsRoutes, hi, all_some, htype, bne_self_eq_false, Bool.false_or,
    Bool.or_eq_true, Bool.and_eq_true, isNone_iff_eq_none] at hok
  rcases hok with hroute | ⟨hdiscovery, hhop⟩
  · exact hroute
  rcases hsends with ⟨hsteered, -⟩ | ⟨-, j', hmem, -⟩
  · have hnone : (acceptedInterest env i freshNonce).nextHopFaceId = none := hhop
    rw [steered, hnone] at hsteered
    cases hsteered
  · -- a non-discovery Interest is sent to next hops only
    simp only [interestActions] at hmem
    split at hmem
    · cases hmem
    rename_i e he
    have hpending : e.interest = D.state.pendingInterest (acceptedInterest env i freshNonce) :=
      interest_eq_pendingInterest (s := D.state.beginEvent)
        (Moves.effects env (moves_onIncomingInterest (S := fun _ _ _ => True) (fun _ _ h => h) rfl
          (fun _ _ _ => trivial) fun _ _ _ => trivial)) he
    rw [hpending, htype] at hmem
    have hallowed :=
      afterReceiveInterest_allowed _ .selfLearning (by simp [isBroadcast, hdiscovery])
      _ hmem
    have hne := hallowed.2 ⟨egress, j', rfl⟩
    rw [Fib.hasNextHops, bne_iff_ne, ← hpending]
    exact hne

theorem hasNextHops_of_timerActions (hactions : ∀ t : Trigger, t.Allowed (actions t))
    (h : Sends (D.timerActions env id inFaceId known actions) egress j) {e : Entry}
    (he : D.state.pit.get id = some e) : D.fib.hasNextHops e.interest = true := by
  have hnone : ¬ Sends [] egress j := fun ⟨_, hmem, _⟩ => nomatch hmem
  simp only [timerActions, he] at h
  split at h
  · rename_i e' inFace hsome _
    obtain rfl := some.inj hsome
    split at h
    · exact absurd h hnone
    · obtain ⟨j', hmem, -⟩ := h
      have hne := (hactions _ _ hmem).2 ⟨egress, j', rfl⟩
      rw [Fib.hasNextHops, bne_iff_ne]
      exact hne
  · exact absurd h hnone

theorem routed_of_timer (hactions : ∀ t : Trigger, t.Allowed (actions t)) {s : State}
    (heffects : Effects env N S D.state.beginEvent s) (hN : ∀ i, ¬ N i)
    (hS : ∀ j egress i, S j egress i →
      j = id ∧ Sends (D.timerActions env id inFaceId known actions) egress i)
    (hD : routed D.fib D.choice D.state.pit = true) : routed D.fib D.choice s.pit = true := by
  refine routed_of_effects heffects hD fun j e' he' ⟨egress, i, hi⟩ _ => ?_
  obtain ⟨rfl, hsends⟩ := hS j egress i hi
  rcases heffects.origin he' with ⟨e, he, hinterest, -⟩ | ⟨-, hnew, -⟩
  · rw [hinterest]
    exact hasNextHops_of_timerActions hactions hsends he
  · exact absurd hnew (hN _)

theorem step_routed (hok : keepsRoutes env D ev = true)
    (hD : routed D.fib D.choice D.state.pit = true) (h : D.step env ev = some D') :
    routed D'.fib D'.choice D'.state.pit = true := by
  have heffects := step_effects h
  obtain ⟨hfib, hchoice⟩ := step_tables h
  rw [hfib, hchoice]
  -- events that send no Interest and leave the tables alone
  have hquiet : (∀ id egress j, ¬ D.Permits env ev id egress j) →
      routed D.fib D.choice D'.state.pit = true := fun hnone =>
    routed_of_effects heffects hD fun id _ _ ⟨egress, j, hj⟩ => (hnone id egress j hj).elim
  cases ev with
  | interest ingress frame freshNonce known =>
    refine routed_of_effects heffects hD fun id e he ⟨egress, j, hpermits⟩ htype => ?_
    have hsent := hpermits
    obtain ⟨i, hi, hid, -⟩ := hsent
    have hcreates : Creates env (.interest ingress frame freshNonce known) =
        (· = acceptedInterest env i freshNonce) := by
      funext j
      simp [Creates, hi]
    rw [hcreates] at heffects
    have hpending : e.interest = D.state.pendingInterest (acceptedInterest env i freshNonce) :=
      interest_eq_pendingInterest heffects (hid ▸ he)
    rw [hpending]
    refine hasNextHops_of_interest hok hpermits hi ?_
    rwa [name, hpending] at htype
  | rtoTimeout id inFaceId firstOutFaceId known =>
    exact routed_of_timer (fun t => AccessStrategy.multicast_allowed t firstOutFaceId) heffects
      (fun _ hN => hN) (fun _ _ _ hj => hj) hD
  | propagate id inFaceId known =>
    exact routed_of_timer NccStrategy.doPropagate_allowed heffects (fun _ hN => hN)
      (fun _ _ _ hj => hj) hD
  | face op =>
    cases op with
    | closed p =>
      obtain ⟨s, hs, rfl⟩ := map_eq_some_iff.1 h
      simp only [onFaceOp] at hs
      split at hs
      · cases hs
      · rw [← some.inj hs]
        exact hok
    | add | addReserved => exact hquiet fun _ _ _ hj => hj
  | addNextHop pfx face cost =>
    have hpit := routed_iff.1 (hquiet fun _ _ _ hj => hj)
    refine routed_iff.2 fun id e he hout htype => ?_
    exact Fib.hasNextHops_addOrUpdateNextHop (hpit id e he hout htype) pfx face cost
  | removeNextHop | setStrategy | unsetStrategy =>
    rw [← some.inj h]
    exact hok
  | _ => exact hquiet fun _ _ _ hj => hj

theorem run_routed {evs : List DaemonEvent}
    (hrun : Run (Daemon.step env) (fun D ev => keepsRoutes env D ev = true) D evs D')
    (hD : routed D.fib D.choice D.state.pit = true) :
    routed D'.fib D'.choice D'.state.pit = true :=
  hrun.invariant (I := fun D => routed D.fib D.choice D.state.pit = true)
    (fun _ _ _ hI hok hstep => step_routed hok hI hstep) hD

end Daemon

/-- **The assertion of self-learning** holds, in every run from start-up whose events keep the
    routes, whenever the Nack pipeline accepts a Nack for an entry under the strategy. -/
theorem run_nackAssertion {env : Env} {now : Int} {garbage : Option FacePtr} {csLimit : Nat}
    {strategy : InstanceName} {evs : List DaemonEvent} {D : Daemon}
    (hrun : Run (Daemon.step env) (fun D ev => Daemon.keepsRoutes env D ev = true)
      (Daemon.init now garbage csLimit strategy) evs D)
    {ingress : FacePtr} {i : Interest} {reason : NackReason} {id : EntryId} {e : Entry}
    (hnack : D.state.acceptedNack env ingress i = some id) (he : D.state.pit.get id = some e)
    (htype : D.typeOf e.interest = .selfLearning) :
    SelfLearningStrategy.nackAssertion D.fib e reason = true := by
  have hrouted := Daemon.routed_iff.1 (Daemon.run_routed hrun rfl) id e he
    (outRecords_ne_nil_of_acceptedNack hnack he) htype
  rw [SelfLearningStrategy.nackAssertion, hrouted, Bool.or_true]

namespace Router

/-- Self-learning broadcasts an Interest for `/a`, for which there is no route. -/
def broadcastEvents : List DaemonEvent := addFaces [2, 5] ++ [request 2 ["a"] 1]

def broadcasting : Daemon :=
  (broadcastEvents.foldlM (Daemon.step env) (daemon .selfLearning)).get (by decide)

/-- With a route the same Interest is sent to the next hop. -/
def routedEvents : List DaemonEvent :=
  addFaces [2, 5] ++ [.addNextHop [] 5 10, request 2 ["a"] 1]

def routing : Daemon :=
  (routedEvents.foldlM (Daemon.step env) (daemon .selfLearning)).get (by decide)

def routingEntry : Entry := (routing.state.pit.get 0).get (by decide)

def broadcastingEntry : Entry := (broadcasting.state.pit.get 0).get (by decide)

end Router

theorem run_nackAssertion_routing :
    Router.routing.state.acceptedNack Router.env 5 (Router.pendingInterest 1) = some 0 ∧
      SelfLearningStrategy.nackAssertion Router.routing.fib Router.routingEntry
        .noRoute = true := by
  have hnack : Router.routing.state.acceptedNack Router.env 5 (Router.pendingInterest 1) = some 0 :=
    by decide
  have hrun : Run (Daemon.step Router.env) (fun D ev => Daemon.keepsRoutes Router.env D ev = true)
      (Router.daemon .selfLearning) Router.routedEvents Router.routing := by
    refine .cons (by decide) rfl (.cons (by decide) rfl (.cons (by decide) rfl
      (.cons (by decide) ?_ (.nil _))))
    exact (some_get _).symm
  exact ⟨hnack, run_nackAssertion hrun hnack (some_get _).symm (by decide)⟩

/-- The neighbour that received the broadcast Interest has no route either and says so. -/
theorem run_nackAssertion_fails :
    Run (Daemon.step Router.env) (fun _ _ => True) (Router.daemon .selfLearning)
        Router.broadcastEvents Router.broadcasting ∧
      (Router.interestFrame ["a"] 1).decodeInterest Router.env = some (Router.pendingInterest 1) ∧
      Router.broadcasting.state.acceptedNack Router.env 5 (Router.pendingInterest 1) = some 0 ∧
      Router.broadcasting.state.pit.get 0 = some Router.broadcastingEntry ∧
      Router.broadcasting.typeOf Router.broadcastingEntry.interest = .selfLearning ∧
      SelfLearningStrategy.nackAssertion Router.broadcasting.fib Router.broadcastingEntry .noRoute =
        false :=
  ⟨Run.of_foldlM (some_get _).symm, by decide, by decide, (some_get _).symm, by decide, by decide⟩

end NdnMulticast.Nfd
