/-
  What the dead nonce list remembers, after `daemon/table/dead-nonce-list.cpp`.  Entries and
  marks share one queue.
-/

import NdnMulticast.Lib.Eviction
import NdnMulticast.Nfd.Forwarder

namespace NdnMulticast.Nfd.DeadNonceList

open Lib Ndn List Nat

/-! ## Events -/

inductive Event where
  | add (name : Name) (nonce : List UInt8)
  | mark
  /-- The results of scaling the capacity down and up. -/
  | adjustCapacity (down up : Nat)

/-- A scaled capacity in its bounds. -/
def clamp (scaled : Nat) : Nat := max minCapacity (min maxCapacity scaled)

variable (env : Env)

def step (l : DeadNonceList) : Event → DeadNonceList
  | .add name nonce => l.add env name nonce
  | .mark => l.addMark
  | .adjustCapacity down up => l.adjustCapacity (clamp down) (clamp up)

/-- What an event pushes. -/
def Event.pushes : Event → List Nat
  | .add name nonce => [makeEntry env name nonce]
  | .mark => [DeadNonceList.mark]
  | .adjustCapacity _ _ => []

/-- The list when an event calls `evictEntries`; a mark does not. -/
def evictsFrom (l : DeadNonceList) : Event → Option DeadNonceList
  | .add name nonce => some { l with queue := l.queue ++ [makeEntry env name nonce] }
  | .mark => none
  | .adjustCapacity down up =>
    some
      { l with
        capacity :=
          if l.actualMarkCounts.all (expectedMarkCount < ·) then max minCapacity (clamp down)
          else if l.actualMarkCounts.all (· < expectedMarkCount) then
            min maxCapacity (clamp up)
          else l.capacity
        actualMarkCounts := [] }

variable (es : List Event)

/-- Everything pushed so far, the marks of the constructor first. -/
def history : List Nat := init.queue ++ es.flatMap (Event.pushes env)

def run : DeadNonceList := es.foldl (step env) init

/-! ## One event -/

variable {l : DeadNonceList} {pushed : List Nat}

/-- An event that evicts is the rest of its body, and then `evictEntries`. -/
theorem step_eq_evictEntries {e : Event} {mid : DeadNonceList}
    (h : l.evictsFrom env e = some mid) : l.step env e = mid.evictEntries := by
  cases e with
  | add name nonce =>
    cases h
    rfl
  | mark => cases h
  | adjustCapacity down up =>
    cases h
    rfl

/-- The assertion in `evictEntries`: a list over its capacity is not left below it. -/
theorem capacity_le_evictEntries (h : l.capacity < l.queue.length) :
    l.capacity ≤ l.evictEntries.queue.length := by
  rw [evictEntries, length_drop]
  omega

theorem window_evictEntries (h : Window minCapacity pushed l.queue)
    (hcapacity : minCapacity ≤ l.capacity) : Window minCapacity pushed l.evictEntries.queue := by
  refine h.drop fun hpos => ?_
  have hover : l.capacity < l.queue.length := by
    omega
  exact le_trans hcapacity (capacity_le_evictEntries hover)

theorem clamp_bounds (scaled : Nat) : minCapacity ≤ clamp scaled ∧ clamp scaled ≤ maxCapacity := by
  refine ⟨Nat.le_max_left _ _, Nat.max_le.2 ⟨by decide, Nat.min_le_left _ _⟩⟩

theorem capacity_step (h : minCapacity ≤ l.capacity ∧ l.capacity ≤ maxCapacity) (e : Event) :
    minCapacity ≤ (l.step env e).capacity ∧ (l.step env e).capacity ≤ maxCapacity := by
  cases e with
  | add name nonce => exact h
  | mark => exact h
  | adjustCapacity down up =>
    obtain ⟨hdown, hdown'⟩ := clamp_bounds down
    obtain ⟨hup, hup'⟩ := clamp_bounds up
    show minCapacity ≤ (if _ then _ else if _ then _ else _) ∧
      (if _ then _ else if _ then _ else _) ≤ maxCapacity
    split
    · simp_all
    · grind

theorem exists_queue_step (l : DeadNonceList) (e : Event) :
    ∃ n, (l.step env e).queue = (l.queue ++ e.pushes env).drop n := by
  cases e with
  | add name nonce => exact ⟨_, rfl⟩
  | mark => exact ⟨0, rfl⟩
  | adjustCapacity down up =>
    rw [Event.pushes, append_nil]
    exact ⟨_, rfl⟩

theorem window_step (h : Window minCapacity pushed l.queue)
    (hcapacity : minCapacity ≤ l.capacity ∧ l.capacity ≤ maxCapacity) (e : Event) :
    Window minCapacity (pushed ++ e.pushes env) (l.step env e).queue := by
  have hafter := capacity_step env hcapacity e
  cases e with
  | add name nonce => exact window_evictEntries (h.push _) hafter.1
  | mark => exact h.push _
  | adjustCapacity down up =>
    rw [Event.pushes, append_nil]
    exact window_evictEntries h hafter.1

/-! ## Runs -/

theorem run_concat (e : Event) : run env (es ++ [e]) = (run env es).step env e :=
  foldl_concat ..

theorem run_window :
    Window minCapacity (history env es) (run env es).queue ∧
      minCapacity ≤ (run env es).capacity ∧ (run env es).capacity ≤ maxCapacity := by
  induction es using List.reverseRecOn with
  | nil =>
    have hcapacity : minCapacity ≤ init.capacity ∧ init.capacity ≤ maxCapacity := by decide
    refine ⟨?_, hcapacity⟩
    exact Window.refl _ _
  | append_singleton es e ih =>
    have hhistory : history env (es ++ [e]) = history env es ++ e.pushes env := by
      simp [history]
    rw [run_concat, hhistory]
    exact ⟨window_step env ih.1 ih.2 e, capacity_step env ih.2 e⟩

/-- **What the list remembers.**  A pair is found until `minCapacity` entries or marks have been
    pushed after it; an event only forgets the oldest; and no call of `evictEntries` violates its
    assertion. -/
theorem run_remembers_nonces (es : List Event) :
    (∀ es₁ name nonce es₂, es = es₁ ++ .add name nonce :: es₂ →
      (es₂.flatMap (Event.pushes env)).length < minCapacity →
        (run env es).has env name nonce = true) ∧
    (run env es).queue <:+ history env es ∧
    (∀ e, ∃ n, ((run env es).step env e).queue = ((run env es).queue ++ e.pushes env).drop n) ∧
    ∀ e l, (run env es).evictsFrom env e = some l →
      (run env es).step env e = l.evictEntries ∧
        (l.capacity < l.queue.length → l.capacity ≤ l.evictEntries.queue.length) := by
  refine ⟨?_, (run_window env es).1.suffix, exists_queue_step env _,
    fun e l hmid => ⟨step_eq_evictEntries env hmid, capacity_le_evictEntries⟩⟩
  rintro es₁ name nonce es₂ rfl hfew
  have hwindow := (run_window env (es₁ ++ .add name nonce :: es₂)).1
  have hhistory : history env (es₁ ++ .add name nonce :: es₂) =
      history env es₁ ++ makeEntry env name nonce :: es₂.flatMap (Event.pushes env) := by
    simp [history, Event.pushes]
  rw [hhistory] at hwindow
  exact contains_iff_mem.2 (hwindow.mem hfew)

/-- Seven marks after the nonce, at the least capacity. -/
theorem run_remembers_nonce_seven :
    (run Router.env (.adjustCapacity 0 0 :: .add [] [1, 2, 3, 4] :: List.replicate 7 .mark)).has
      Router.env [] [1, 2, 3, 4] = true :=
  (run_remembers_nonces Router.env
    (.adjustCapacity 0 0 :: .add [] [1, 2, 3, 4] :: List.replicate 7 .mark)).1
    [.adjustCapacity 0 0] [] [1, 2, 3, 4] (List.replicate 7 .mark) rfl (by decide)

end NdnMulticast.Nfd.DeadNonceList
