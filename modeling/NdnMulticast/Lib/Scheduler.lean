/-
  Scheduled events and the handles they are cancelled through.

  A handle refers to one event at most.  When it is made to refer to another event, the
  earlier one is cancelled (`assignScoped`) or stays scheduled without a handle (`assign`).
-/

import Mathlib.Data.List.Nodup

namespace NdnMulticast.Lib

open List

structure Scheduled (η γ : Type) where
  handle : Option η
  callback : γ
deriving DecidableEq, Repr

/-- The events that are scheduled. -/
structure Scheduler (η γ : Type) where
  events : List (Scheduled η γ)
  handles_nodup : (events.filterMap Scheduled.handle).Nodup

namespace Scheduler

section

variable {η γ : Type} (s : Scheduler η γ)

def empty : Scheduler η γ := ⟨[], List.nodup_nil⟩

/-- An event without a handle. -/
def schedule (c : γ) : Scheduler η γ where
  events := ⟨none, c⟩ :: s.events
  handles_nodup := s.handles_nodup

/-- Cancels the events of the handles that satisfy `p`. -/
def cancelWhere (p : η → Bool) : Scheduler η γ where
  events := s.events.filter fun e => !e.handle.any p
  handles_nodup := s.handles_nodup.sublist (List.filter_sublist.filterMap _)

/-- The event at a position is removed: it fires. -/
def remove (n : Nat) : Scheduler η γ where
  events := s.events.eraseIdx n
  handles_nodup := s.handles_nodup.sublist ((List.eraseIdx_sublist _ _).filterMap _)

/-- Every callback has a property. -/
def All (P : γ → Prop) : Prop := ∀ e ∈ s.events, P e.callback

variable {s} {P : γ → Prop}

theorem all_empty : (empty : Scheduler η γ).All P := fun _ he => nomatch he

theorem All.schedule (hs : s.All P) {c : γ} (hc : P c) : (s.schedule c).All P :=
  forall_mem_cons.2 ⟨hc, hs⟩

theorem All.cancelWhere (hs : s.All P) (p : η → Bool) : (s.cancelWhere p).All P :=
  fun e he => hs e (mem_filter.1 he).1

theorem All.remove (hs : s.All P) (n : Nat) : (s.remove n).All P :=
  fun e he => hs e (mem_of_mem_eraseIdx he)

end

section

variable {η γ : Type} [DecidableEq η] (s : Scheduler η γ) (h : η) (c : γ)

/-- The callback of the event a handle refers to. -/
def callbackOf : Option γ := (s.events.find? fun e => e.handle == some h).map Scheduled.callback

def cancel : Scheduler η γ := s.cancelWhere (· == h)

/-- A handle forgets its event, which stays scheduled. -/
def release : Scheduler η γ where
  events := s.events.map fun e => { e with handle := e.handle.filter (· != h) }
  handles_nodup := by
    have hfilter : (s.events.map fun e => { e with handle := e.handle.filter (· != h) }).filterMap
        Scheduled.handle = (s.events.filterMap Scheduled.handle).filter (· != h) := by
      rw [List.filterMap_map, List.filter_filterMap]
      rfl
    rw [hfilter]
    exact s.handles_nodup.filter _

theorem notMem_handles_cancel : h ∉ (s.cancel h).events.filterMap Scheduled.handle := by
  rw [mem_filterMap]
  rintro ⟨e, he, heq⟩
  have hkept := (mem_filter.1 he).2
  simp [heq] at hkept

theorem notMem_handles_release : h ∉ (s.release h).events.filterMap Scheduled.handle := by
  rw [mem_filterMap]
  rintro ⟨e, he, heq⟩
  obtain ⟨e', -, rfl⟩ := mem_map.1 he
  simp [Option.filter_eq_some_iff] at heq

/-- A handle that does not cancel the event it referred to. -/
def assign : Scheduler η γ where
  events := ⟨some h, c⟩ :: (s.release h).events
  handles_nodup := List.nodup_cons.2 ⟨s.notMem_handles_release h, (s.release h).handles_nodup⟩

/-- A handle that cancels the event it referred to. -/
def assignScoped : Scheduler η γ where
  events := ⟨some h, c⟩ :: (s.cancel h).events
  handles_nodup := List.nodup_cons.2 ⟨s.notMem_handles_cancel h, (s.cancel h).handles_nodup⟩

variable {s h c} {P : γ → Prop}

theorem All.assign (hs : s.All P) (hc : P c) : (s.assign h c).All P := by
  refine forall_mem_cons.2 ⟨hc, fun e he => ?_⟩
  obtain ⟨e', he', rfl⟩ := mem_map.1 he
  exact hs e' he'

theorem All.assignScoped (hs : s.All P) (hc : P c) : (s.assignScoped h c).All P :=
  forall_mem_cons.2 ⟨hc, hs.cancelWhere _⟩

end

end Scheduler

end NdnMulticast.Lib
