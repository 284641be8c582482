/-
  The expiration events of RIB routes, after `mgmt/rib-manager.cpp`, `rib/rib.cpp` and
  `rib/rib-entry.cpp`.

  A registration schedules its event when it begins and carries the handle through the update
  queue.  An unregistration cancels the event of the RIB's route as soon as its FIB updates are
  computed.  A route is known by prefix, face and origin together (`κ`).

  The state is the RIB, the scheduled events and the updates that have begun; a run is any sequence
  of commands, answers of the FIB, events that run and passing of time.  `Inv` says what one step
  keeps, and `run_expirations` reads the property of whole runs off it.
-/

import Mathlib.Logic.Function.Basic
import NdnMulticast.Lib.Run

namespace NdnMulticast.Nfd.RouteExpiry

open Lib List Option Function

/-- What one registration brings.  Its event, if it has one, is due at `expires`. -/
structure Route (κ : Type) where
  key : κ
  expires : Option Int
  /-- Tells registrations apart. -/
  serial : Nat
deriving DecidableEq

inductive Update (κ : Type) where
  | register (route : Route κ)
  /-- `requested` by a command, or begun by an expiration event; `RibManager` does not record it. -/
  | unregister (key : κ) (requested : Bool)
deriving DecidableEq

structure State (κ : Type) where
  now : Int
  rib : κ → Option (Route κ)
  /-- The routes whose expiration event is scheduled. -/
  pending : List (Route κ)
  /-- The update being sent to the FIB. -/
  inProgress : Option (Update κ)
  /-- `m_updateBatches`. -/
  queue : List (Update κ)
  nextSerial : Nat

inductive Event (κ : Type) where
  /-- `beginAddRoute`, with the period of the command, or the time in the route. -/
  | addRoute (key : κ) (period routeExpires : Option Int)
  | removeRoute (key : κ)
  | fibSuccess
  | fibFailure
  /-- An expiration event runs, when it is due or later. -/
  | expire (route : Route κ)
  | tick (nanoseconds : Nat)

variable {κ : Type} [DecidableEq κ]

namespace State

def init (now : Int) : State κ := ⟨now, fun _ => none, [], none, [], 0⟩

/-- `cancelExpirationEvent` of the route the RIB has, if any. -/
def cancelled (s : State κ) (key : κ) : List (Route κ) :=
  s.pending.filter fun x => s.rib key != some x

/-- `sendBatchFromQueue`, with the erasure from the copy of the entry. -/
def sendBatchFromQueue (s : State κ) : State κ :=
  match s.inProgress, s.queue with
  | none, .register r :: queue => { s with inProgress := some (.register r), queue }
  | none, .unregister key requested :: queue =>
    { s with inProgress := some (.unregister key requested), queue, pending := s.cancelled key }
  | _, _ => s

def beginApplyUpdate (s : State κ) (u : Update κ) : State κ :=
  { s with queue := s.queue ++ [u] }.sendBatchFromQueue

def beginAddRoute (s : State κ) (key : κ) (period routeExpires : Option Int) : State κ :=
  let expires := (period.map (s.now + ·)).or routeExpires
  if expires.any (· ≤ s.now) then s.beginApplyUpdate (.unregister key true)
  else
    let r : Route κ := ⟨key, expires, s.nextSerial⟩
    { s with
      pending := if expires.isSome then s.pending ++ [r] else s.pending
      nextSerial := s.nextSerial + 1 }.beginApplyUpdate (.register r)

/-- `Rib::insert` and `Rib::erase`, of the update that the FIB accepted. -/
def applyUpdate (s : State κ) : Update κ → State κ
  | .register r =>
    { s with rib := Function.update s.rib r.key (some r), pending := s.cancelled r.key }
  | .unregister key _ =>
    { s with rib := Function.update s.rib key none, pending := s.cancelled key }

def step (s : State κ) : Event κ → Option (State κ)
  | .addRoute key period routeExpires => some (s.beginAddRoute key period routeExpires)
  | .removeRoute key => some (s.beginApplyUpdate (.unregister key true))
  | .fibSuccess =>
    s.inProgress.map fun u => ({ s.applyUpdate u with inProgress := none }).sendBatchFromQueue
  | .fibFailure =>
    s.inProgress.map fun _ => { s with inProgress := none }.sendBatchFromQueue
  | .expire r =>
    if r ∈ s.pending ∧ r.expires.any (· ≤ s.now) = true then
      some ({ s with pending := s.pending.filter (· != r) }.beginApplyUpdate
        (.unregister r.key false))
    else none
  | .tick nanoseconds => some { s with now := s.now + nanoseconds }

/-! ## Events and routes -/

/-- The updates that have begun and not ended. -/
def underway (s : State κ) : List (Update κ) := s.inProgress.toList ++ s.queue

/-- A route with an expiration has its event, or is being unregistered because a command asked for
    it or because it is due; and no event comes before the expiration of the route it would remove,
    unless its registration has not ended. -/
structure Timed (s : State κ) : Prop where
  event : ∀ key r t, s.rib key = some r → r.expires = some t →
    (∃ x ∈ s.pending, x.key = key ∧ x.expires = some t) ∨
      .unregister key true ∈ s.underway ∨ .unregister key false ∈ s.underway ∧ t ≤ s.now
  current : ∀ x ∈ s.pending, ∀ r, s.rib x.key = some r →
    (∃ t ∈ r.expires, ∃ due ∈ x.expires, t ≤ due) ∨ .register x ∈ s.underway

def registers (key : κ) : Update κ → Bool
  | .register r => r.key == key
  | .unregister .. => false

/-- The FIB rejects no registration with an expiration and no unregistration of a route with one,
    and no event runs while a registration of its route is under way. -/
def harmless (s : State κ) : Event κ → Bool
  | .fibFailure =>
    match s.inProgress with
    | some (.register r) => r.expires.isNone
    | some (.unregister key _) => (s.rib key).all (·.expires.isNone)
    | none => true
  | .expire r => !s.underway.any (registers r.key)
  | _ => true

/-- What runs keep, of the RIB, the scheduled events and the updates under way. -/
structure Inv (rib : κ → Option (Route κ)) (pending : List (Route κ)) (us : List (Update κ))
    (now : Int) (nextSerial : Nat) : Prop where
  keyed : ∀ key r, rib key = some r → r.key = key
  event : ∀ key r, rib key = some r → r.expires.isSome →
    r ∈ pending ∨ .unregister key true ∈ us ∨ .unregister key false ∈ us
  /-- What an event has begun to remove is due. -/
  due : ∀ key, .unregister key false ∈ us → ∀ r, rib key = some r → ∀ t ∈ r.expires, t ≤ now
  owner : ∀ x ∈ pending, x.expires.isSome ∧ (rib x.key = some x ∨ .register x ∈ us)
  covered : ∀ r, .register r ∈ us → r.expires.isSome → r ∈ pending
  /-- The registrations under way are different ones, and no event removes what they bring. -/
  apart : us.Pairwise fun u v => ∀ r, u = .register r → v ≠ .register r ∧
    v ≠ .unregister r.key false
  /-- None of them is in the RIB yet. -/
  notYet : ∀ r, .register r ∈ us → rib r.key ≠ some r
  fresh : ∀ r, rib r.key = some r ∨ .register r ∈ us → r.serial < nextSerial

variable {rib : κ → Option (Route κ)} {pending : List (Route κ)} {us : List (Update κ)}
  {now : Int} {n : Nat} {key : κ} {r : Route κ} {requested : Bool}

section

variable (h : Inv rib pending us now n)
include h

/-- The event of a route that is being unregistered is cancelled. -/
theorem Inv.cancel (hkey : .unregister key requested ∈ us) :
    Inv rib (pending.filter fun x => rib key != some x) us now n := by
  obtain ⟨hkeyed, hevent, hdue, howner, hcovered, hapart, hnotYet, hfresh⟩ := h
  refine ⟨hkeyed, ?_, hdue, by grind, by grind, hapart, hnotYet, hfresh⟩
  cases requested <;> grind

omit [DecidableEq κ] in
theorem Inv.unregister : Inv rib pending (us ++ [.unregister key true]) now n := by
  obtain ⟨hkeyed, hevent, hdue, howner, hcovered, hapart, hnotYet, hfresh⟩ := h
  refine ⟨hkeyed, by grind, by grind, by grind, by grind, ?_, by grind, by grind⟩
  exact pairwise_append.2 ⟨hapart, pairwise_singleton _ _, by simp⟩

/-- The event that ran was the one of the route in the RIB. -/
theorem Inv.expired (hr : r ∈ pending) (hdue : ∀ t ∈ r.expires, t ≤ now)
    (hnone : ∀ x, .register x ∈ us → x.key ≠ r.key) :
    Inv rib (pending.filter (· != r)) (us ++ [.unregister r.key false]) now n := by
  have hrib : rib r.key = some r := (h.owner r hr).2.resolve_right fun hmem => hnone r hmem rfl
  obtain ⟨hkeyed, hevent, hdue', howner, hcovered, hapart, hnotYet, hfresh⟩ := h
  refine ⟨hkeyed, by grind, by grind, by grind, by grind, ?_, by grind, by grind⟩
  refine pairwise_append.2 ⟨hapart, pairwise_singleton _ _, ?_⟩
  rintro u hu v hv x rfl
  rw [mem_singleton.1 hv]
  exact ⟨by simp, fun heq => hnone x hu (Update.unregister.inj heq).1.symm⟩

omit [DecidableEq κ] in
theorem Inv.register (hkey : r.serial = n) :
    Inv rib (if r.expires.isSome then pending ++ [r] else pending) (us ++ [.register r]) now
      (n + 1) := by
  obtain ⟨hkeyed, hevent, hdue, howner, hcovered, hapart, hnotYet, hfresh⟩ := h
  refine ⟨hkeyed, by grind, by grind, by grind, by grind, ?_, by grind, by grind⟩
  refine pairwise_append.2 ⟨hapart, pairwise_singleton _ _, ?_⟩
  rintro u hu v hv r' rfl
  rw [mem_singleton.1 hv]
  refine ⟨fun heq => ?_, by simp⟩
  have hlt := hfresh r' (Or.inr hu)
  rw [← Update.register.inj heq, hkey] at hlt
  exact Nat.lt_irrefl n hlt

omit [DecidableEq κ] in
theorem Inv.tick (later : Nat) : Inv rib pending us (now + later) n := by
  obtain ⟨hkeyed, hevent, hdue, howner, hcovered, hapart, hnotYet, hfresh⟩ := h
  refine ⟨hkeyed, hevent, fun key hkey r hr t ht => ?_, howner, hcovered, hapart, hnotYet, hfresh⟩
  have hle := hdue key hkey r hr t ht
  omega

end

/-- A registration that the FIB has accepted. -/
theorem Inv.registered (h : Inv rib pending (.register r :: us) now n) :
    Inv (update rib r.key (some r)) (pending.filter fun x => rib r.key != some x) us now n := by
  obtain ⟨hkeyed, hevent, hdue, howner, hcovered, hapart, hnotYet, hfresh⟩ := h
  rw [pairwise_cons] at hapart
  refine ⟨?_, ?_, ?_, ?_, by grind, hapart.2, ?_, ?_⟩ <;> simp only [update_apply] <;> grind

theorem Inv.unregistered (h : Inv rib pending (.unregister key requested :: us) now n) :
    Inv (update rib key none) (pending.filter fun x => rib key != some x) us now n := by
  obtain ⟨hkeyed, hevent, hdue, howner, hcovered, hapart, hnotYet, hfresh⟩ := h
  rw [pairwise_cons] at hapart
  refine ⟨?_, ?_, ?_, ?_, by grind, hapart.2, ?_, ?_⟩ <;> simp only [update_apply] <;> grind

/-! ## Runs -/

/-- The invariant of a state. -/
def Kept (s : State κ) : Prop := Inv s.rib s.pending s.underway s.now s.nextSerial

variable {s s' : State κ} {u : Update κ} {e : Event κ}

theorem kept_sendBatchFromQueue (h : s.Kept) : s.sendBatchFromQueue.Kept := by
  unfold sendBatchFromQueue
  split
  · simp_all [Kept, underway]
  · rename_i key requested queue hidle hqueue
    have hus : s.underway = .unregister key requested :: queue := by
      simp [underway, hidle, hqueue]
    have hcancel := h.cancel (hus ▸ mem_cons_self)
    rw [hus] at hcancel
    exact hcancel
  · exact h

theorem kept_beginApplyUpdate (h : Inv s.rib s.pending (s.underway ++ [u]) s.now s.nextSerial) :
    (s.beginApplyUpdate u).Kept := by
  apply kept_sendBatchFromQueue
  show Inv s.rib s.pending (s.inProgress.toList ++ (s.queue ++ [u])) s.now s.nextSerial
  rw [← append_assoc]
  exact h

theorem kept_beginAddRoute (h : s.Kept) (key : κ) (period routeExpires : Option Int) :
    (s.beginAddRoute key period routeExpires).Kept := by
  unfold beginAddRoute
  extract_lets expires r
  split
  · exact kept_beginApplyUpdate h.unregister
  · exact kept_beginApplyUpdate (h.register (r := r) rfl)

omit [DecidableEq κ] in
theorem underway_of_inProgress (hu : s.inProgress = some u) : s.underway = u :: s.queue := by
  simp [underway, hu]

theorem kept_applyUpdate (h : s.Kept) (hu : s.inProgress = some u) :
    ({ s.applyUpdate u with inProgress := none } : State κ).Kept := by
  rw [Kept, underway_of_inProgress hu] at h
  cases u with
  | register r => exact h.registered
  | unregister key requested => exact h.unregistered

/-- An update that the FIB rejects is dropped, with the event it came with left behind. -/
theorem kept_fibFailure (h : s.Kept) (hu : s.inProgress = some u)
    (hok : s.harmless .fibFailure = true) : ({ s with inProgress := none } : State κ).Kept := by
  rw [Kept, underway_of_inProgress hu] at h
  obtain ⟨hkeyed, hevent, hdue, howner, hcovered, hapart, hnotYet, hfresh⟩ := h
  rw [List.pairwise_cons] at hapart
  show Inv s.rib s.pending s.queue s.now s.nextSerial
  refine ⟨hkeyed, ?_, by grind, ?_, by grind, hapart.2, by grind, by grind⟩ <;> cases u <;>
    simp only [harmless, hu, Option.all_eq_true, Option.isNone_iff_eq_none] at hok <;> grind

theorem kept_step (h : s.Kept) (hok : s.harmless e = true) (hstep : s.step e = some s') :
    s'.Kept := by
  cases e with
  | addRoute key period routeExpires => cases hstep; exact kept_beginAddRoute h ..
  | removeRoute key => cases hstep; exact kept_beginApplyUpdate h.unregister
  | fibSuccess =>
    obtain ⟨u, hu, rfl⟩ := Option.map_eq_some_iff.1 hstep
    exact kept_sendBatchFromQueue (kept_applyUpdate h hu)
  | fibFailure =>
    obtain ⟨u, hu, rfl⟩ := Option.map_eq_some_iff.1 hstep
    exact kept_sendBatchFromQueue (kept_fibFailure h hu hok)
  | expire r =>
    rw [step] at hstep
    split at hstep
    · rename_i hpending
      cases hstep
      refine kept_beginApplyUpdate (h.expired hpending.1 (fun t ht => ?_) fun x hx hkey => ?_)
      · simpa [mem_def.1 ht] using hpending.2
      simp only [harmless, Bool.not_eq_true', List.any_eq_false] at hok
      exact hok _ hx (beq_iff_eq.2 hkey)
    · contradiction
  | tick nanoseconds => cases hstep; exact h.tick nanoseconds

omit [DecidableEq κ] in
theorem Kept.timed (h : s.Kept) : s.Timed where
  event key r t hr ht := by
    have hkey := h.keyed key r hr
    have hevent := h.event key r hr (by simp [ht])
    exact hevent.imp (fun hmem => ⟨r, hmem, hkey, ht⟩)
      (Or.imp_right fun hmem => ⟨hmem, h.due key hmem r hr t ht⟩)
  current x hx r hr := by
    obtain ⟨hsome, hown⟩ := h.owner x hx
    refine hown.imp_left fun hrib => ?_
    -- The event is the one of the route in the RIB.
    obtain rfl : r = x := some_inj.1 (hr.symm.trans hrib)
    obtain ⟨t, ht⟩ := isSome_iff_exists.1 hsome
    exact ⟨t, ht, t, ht, Int.le_refl t⟩

/-- **Expirations.**  In every run in which the FIB rejects nothing that has an expiration and no
    event runs while a registration of its route is under way, every route with an expiration has
    its event or is rightly being removed, and no event would remove a route before its time. -/
theorem run_expirations (now : Int) (es : List (Event κ)) (t : State κ)
    (hrun : Run step (fun s e => s.harmless e = true) (init now) es t) : t.Timed := by
  have hinit : (init now : State κ).Kept :=
    ⟨by simp [init], by simp [init], by simp [init], by simp [init], by simp [init, underway], .nil,
      by simp [init, underway], by simp [init, underway]⟩
  exact (hrun.invariant (I := Kept) (fun _ _ _ => kept_step) hinit).timed

/-- A route outlives its expiration once the FIB has rejected its unregistration; a rejected
    registration leaves an event that removes a permanent route; and an event that runs while its
    route is being renewed removes the renewed route. -/
theorem expiration_lost_and_left_behind :
    (∃ t, Run step (fun _ _ => True) (init 0 : State Bool)
        [.addRoute true (some 10) none, .fibSuccess, .removeRoute true, .fibFailure] t ∧
      (decide (t.rib true = some ⟨true, some 10, 0⟩) && t.pending.isEmpty && t.underway.isEmpty)) ∧
    (∃ t, Run step (fun _ _ => True) (init 0 : State Bool)
        [.addRoute true (some 10) none, .fibFailure, .addRoute true none none, .fibSuccess] t ∧
      (decide (t.rib true = some ⟨true, none, 1⟩) && decide (t.pending = [⟨true, some 10, 0⟩]) &&
        t.underway.isEmpty)) ∧
    ∃ t, Run step (fun _ _ => True) (init 0 : State Bool)
        [.addRoute true (some 10) none, .fibSuccess, .tick 10, .addRoute true (some 10) none,
          .expire ⟨true, some 10, 0⟩, .fibSuccess] t ∧
      (decide (t.now = 10) && decide (t.rib true = some ⟨true, some 20, 1⟩) && t.pending.isEmpty &&
        decide (t.underway = [.unregister true false])) :=
  ⟨Run.exists_of_decide _ (by decide) fun _ _ ht => ht,
    Run.exists_of_decide _ (by decide) fun _ _ ht => ht,
    Run.exists_of_decide _ (by decide) fun _ _ ht => ht⟩

/-- A renewal before the first expiration: the second event is the one that stays. -/
theorem run_expirations_renewed :
    ∃ t, Run step (fun s e => s.harmless e = true) (init 0 : State Bool)
        [.addRoute true (some 10) none, .fibSuccess, .tick 5, .addRoute true (some 10) none,
          .fibSuccess, .addRoute false none none, .fibFailure] t ∧
      t.Timed ∧ decide (t.pending = [⟨true, some 15, 1⟩]) = true := by
  exact Run.exists_of_decide _ (by decide) fun t hrun ht => ⟨run_expirations 0 _ t hrun, ht⟩

end State

end NdnMulticast.Nfd.RouteExpiry
