/-
  `Readvertise`: prefixes that RIB routes give rise to are advertised to a destination and
  withdrawn from it.  After `rib/readvertise/readvertise.cpp`.

  The responses to commands and the retry timers call back with an iterator into `m_rrs`, here
  the address of an element on a heap.  The destination answers each command once, at any time
  or never, and a timer fires at any time; the policy is an input of each addition.
-/

import Mathlib.Data.List.Perm.Basic
import NdnMulticast.Lib.Assoc
import NdnMulticast.Lib.Run

namespace NdnMulticast.Nfd.Readvertise

open Lib List Option Heap Nat

inductive Command where
  | advertise
  | withdraw
deriving DecidableEq, Repr

structure ReadvertisedRoute (π : Type) where
  pfx : π
  nRibRoutes : Nat
  /-- What the scheduled event will call. -/
  retryEvt : Option Command

/-- What must not happen.  The machine stops there. -/
inductive Violation where
  /-- An element with RIB routes is erased. -/
  | erasedInUse
  /-- A callback or the route index uses an element that has been erased. -/
  | danglingIterator
  /-- `BOOST_ASSERT(rrIt->nRibRoutes > 0)` of `advertise`. -/
  | assertAdvertise
  /-- `BOOST_ASSERT(rrIt->nRibRoutes == 0)` of `withdraw`. -/
  | assertWithdraw
deriving DecidableEq, Repr

structure State (ρ π : Type) where
  /-- Whether the destination is available. -/
  isAvailable : Bool
  rrs : Heap (ReadvertisedRoute π)
  routeToRr : List (ρ × Nat)
  /-- The commands that have not been answered. -/
  responses : List (Command × Nat)
  violation : Option Violation

inductive Event (ρ π : Type) where
  /-- A route is added to the RIB; the policy says what to readvertise it as. -/
  | addRoute (ribRoute : ρ) (action : Option π)
  | removeRoute (ribRoute : ρ)
  | setAvailability (isAvailable : Bool)
  /-- The `n`-th unanswered command is answered. -/
  | respond (n : Nat) (success : Bool)
  /-- The timer of an element fires. -/
  | fire (it : Nat)

variable {ρ π : Type} [DecidableEq ρ] [DecidableEq π]

namespace State

omit [DecidableEq ρ] [DecidableEq π]

def init (isAvailable : Bool) : State ρ π := ⟨isAvailable, .empty, [], [], none⟩

variable (s : State ρ π) (it : Nat)

def violate (v : Violation) : State ρ π := { s with violation := some v }

/-- `m_rrs.erase`. -/
def erase (rr : ReadvertisedRoute π) : State ρ π :=
  if 0 < rr.nRibRoutes then s.violate .erasedInUse else { s with rrs := s.rrs.free it }

def advertise (s : State ρ π) (it : Nat) : State ρ π :=
  match s.rrs.get it with
  | none => s.violate .danglingIterator
  | some rr =>
    if rr.nRibRoutes = 0 then s.violate .assertAdvertise
    else if s.isAvailable then { s with responses := s.responses ++ [(.advertise, it)] }
    else s

def withdraw (s : State ρ π) (it : Nat) : State ρ π :=
  match s.rrs.get it with
  | none => s.violate .danglingIterator
  | some rr =>
    if rr.nRibRoutes ≠ 0 then s.violate .assertWithdraw
    else if s.isAvailable then { s with responses := s.responses ++ [(.withdraw, it)] }
    else s.erase it rr

/-- `retryEvt` is cancelled, or has run. -/
def clearTimer : State ρ π :=
  { s with rrs := s.rrs.modify it fun rr => { rr with retryEvt := none } }

/-- What a timer calls. -/
def call : Command → State ρ π
  | .advertise => s.advertise it
  | .withdraw => s.withdraw it

/-- The callbacks of both commands. -/
def afterResponse (command : Command) (success : Bool) : State ρ π :=
  match s.rrs.get it with
  | none => s.violate .danglingIterator
  | some rr =>
    if command = .withdraw ∧ success = true then s.erase it rr
    else { s with rrs := s.rrs.modify it fun rr => { rr with retryEvt := some command } }

def afterDestinationAvailable : State ρ π :=
  (s.rrs.cells.map Prod.fst).foldl advertise s

def afterDestinationUnavailable : State ρ π :=
  { s with rrs := s.rrs.filterMap fun rr =>
      if 0 < rr.nRibRoutes then some { rr with retryEvt := none } else none }

end State

/-- `m_rrs.emplace`: the element of the prefix, and where it is. -/
def emplace (rrs : Heap (ReadvertisedRoute π)) (pfx : π) : Heap (ReadvertisedRoute π) × Nat :=
  match rrs.cells.find? (·.2.pfx = pfx) with
  | some x => (rrs, x.1)
  | none => (rrs.alloc ⟨pfx, 0, none⟩, rrs.next)

/-- Whether RIB routes stand behind an element. -/
def inUse (rrs : Heap (ReadvertisedRoute π)) (it : Nat) (routes : Nat) : Bool :=
  (rrs.get it).any (routes < ·.nRibRoutes)

namespace State

/-- A route is counted at an element. -/
def countIn (s : State ρ π) (rrs : Heap (ReadvertisedRoute π)) (ribRoute : ρ) (it : Nat) :
    State ρ π :=
  { s with
    rrs := rrs.modify it fun rr => { rr with nRibRoutes := rr.nRibRoutes + 1 }
    routeToRr := s.routeToRr ++ [(ribRoute, it)] }

def countOut (s : State ρ π) (ribRoute : ρ) (it : Nat) : State ρ π :=
  { s with
    rrs := s.rrs.modify it fun rr => { rr with nRibRoutes := rr.nRibRoutes - 1 }
    routeToRr := s.routeToRr.filter (·.1 != ribRoute) }

/-- `afterAddRoute`, when the policy readvertises the route. -/
def afterAddRoute (s : State ρ π) (ribRoute : ρ) (pfx : π) : State ρ π :=
  let (rrs, it) := emplace s.rrs pfx
  if inUse rrs it 0 then s.countIn rrs ribRoute it
  else (s.countIn rrs ribRoute it).advertise it

def beforeRemoveRoute (s : State ρ π) (ribRoute : ρ) : State ρ π :=
  match s.routeToRr.lookup ribRoute with
  | none => s
  | some it =>
    if (s.rrs.get it).isNone then s.violate .danglingIterator
    else if inUse s.rrs it 1 then s.countOut ribRoute it
    else (s.countOut ribRoute it).withdraw it

/-- The RIB adds no route that it has, and availability changes are changes. -/
def step (s : State ρ π) (e : Event ρ π) : Option (State ρ π) :=
  if s.violation.isSome then none
  else
    match e with
    | .addRoute _ none => some s
    | .addRoute ribRoute (some pfx) =>
      if ribRoute ∈ s.routeToRr.map Prod.fst then none else some (s.afterAddRoute ribRoute pfx)
    | .removeRoute ribRoute => some (s.beforeRemoveRoute ribRoute)
    | .setAvailability isAvailable =>
      if isAvailable = s.isAvailable then none
      else if isAvailable then some { s with isAvailable }.afterDestinationAvailable
      else some { s with isAvailable }.afterDestinationUnavailable
    | .respond n success =>
      match s.responses[n]? with
      | none => none
      | some (command, it) =>
        some ({ s with responses := s.responses.eraseIdx n }.afterResponse it command success)
    | .fire it =>
      match (s.rrs.get it).bind (·.retryEvt) with
      | none => none
      | some command => some ((s.clearTimer it).call it command)

/-! ## What holds in every state -/

def routesTo (routeToRr : List (ρ × Nat)) (it : Nat) : Nat := routeToRr.countP (·.2 == it)

/-- The commands about an element that have not been answered. -/
def unanswered (responses : List (Command × Nat)) (it : Nat) : List Command :=
  (responses.filter (·.2 == it)).map Prod.fst

/-- Nothing forbidden has happened, and each route points to an element that counts its routes. -/
structure Sound (s : State ρ π) : Prop where
  violation : s.violation = none
  counted : ∀ x ∈ s.routeToRr, ∃ rr, s.rrs.get x.2 = some rr ∧
    rr.nRibRoutes = routesTo s.routeToRr x.2

/-- Commands about an element are answered before its timer fires, its last route is removed, a
    route is added to it while it is withdrawn, or it is given up because the destination has gone.
    -/
def isQuiet (s : State ρ π) : Event ρ π → Bool
  | .addRoute _ none => true
  | .addRoute _ (some pfx) =>
    let (rrs, it) := emplace s.rrs pfx
    inUse rrs it 0 || unanswered s.responses it == []
  | .removeRoute ribRoute =>
    match s.routeToRr.lookup ribRoute with
    | none => true
    | some it => inUse s.rrs it 1 || unanswered s.responses it == []
  | .setAvailability isAvailable =>
    isAvailable || s.rrs.cells.all fun x => inUse s.rrs x.1 0 || unanswered s.responses x.1 == []
  | .respond .. => true
  | .fire it => unanswered s.responses it == []

/-- An element, the number of routes to it and its unanswered commands fit together.  While a
    command is unanswered the timer may be the one of before. -/
def CellOk (isAvailable : Bool) (routes : Nat) (commands : List Command) :
    Option (ReadvertisedRoute π) → Prop
  | none => routes = 0 ∧ commands = []
  | some rr => rr.nRibRoutes = routes ∧
      (routes = 0 → isAvailable = true ∧ (commands = [] ∨ commands = [.withdraw])) ∧
      (routes ≠ 0 → ∀ c ∈ commands, c = .advertise) ∧
      (commands = [] → ∀ c, rr.retryEvt = some c → (c = .withdraw ↔ routes = 0))

structure Inv (s : State ρ π) : Prop where
  violation : s.violation = none
  routes : (s.routeToRr.map Prod.fst).Nodup
  cell : ∀ it, CellOk s.isAvailable (routesTo s.routeToRr it) (unanswered s.responses it)
    (s.rrs.get it)

section

omit [DecidableEq ρ] [DecidableEq π]

variable {s s' : State ρ π} {it : Nat} {rr : ReadvertisedRoute π}

theorem Inv.sound (h : Inv s) : s.Sound := by
  refine ⟨h.violation, fun x hx => ?_⟩
  have hcell := h.cell x.2
  have hpos : routesTo s.routeToRr x.2 ≠ 0 :=
    Nat.pos_iff_ne_zero.1 (countP_pos_iff.2 ⟨x, hx, by simp⟩)
  cases hget : s.rrs.get x.2 with
  | none =>
    rw [hget] at hcell
    exact absurd hcell.1 hpos
  | some rr =>
    rw [hget] at hcell
    exact ⟨rr, rfl, hcell.1⟩

theorem CellOk.perm {isAvailable : Bool} {routes : Nat} {commands commands' : List Command}
    {cell : Option (ReadvertisedRoute π)} (h : CellOk isAvailable routes commands cell)
    (hperm : commands.Perm commands') : CellOk isAvailable routes commands' cell := by
  have hnil : commands = [] ↔ commands' = [] := ⟨fun h => (h ▸ hperm).nil_eq.symm,
    fun h => (h ▸ hperm).eq_nil⟩
  have hone : commands = [.withdraw] → commands' = [.withdraw] :=
    fun h => perm_singleton.1 (h ▸ hperm).symm
  cases cell <;> grind [CellOk]

/-- The elements and the index, changed at one element. -/
structure Changed (s : State ρ π) (it : Nat) (rrs : Heap (ReadvertisedRoute π))
    (routeToRr : List (ρ × Nat)) : Prop where
  nodup : (routeToRr.map Prod.fst).Nodup
  get : ∀ a, a ≠ it → rrs.get a = s.rrs.get a
  count : ∀ a, a ≠ it → routesTo routeToRr a = routesTo s.routeToRr a

variable {rrs : Heap (ReadvertisedRoute π)} {routeToRr : List (ρ × Nat)}
  {responses : List (Command × Nat)} {command : Command}

theorem Inv.at (h : Inv s) (hc : Changed s it rrs routeToRr)
    (hother : ∀ a, a ≠ it → (unanswered s.responses a).Perm (unanswered responses a))
    (hit : CellOk s.isAvailable (routesTo routeToRr it) (unanswered responses it) (rrs.get it)) :
    Inv { s with rrs, routeToRr, responses } := by
  refine ⟨h.violation, hc.nodup, fun a => ?_⟩
  by_cases ha : a = it
  · exact ha ▸ hit
  · show CellOk s.isAvailable (routesTo routeToRr a) (unanswered responses a) (rrs.get a)
    rw [hc.get a ha, hc.count a ha]
    exact (h.cell a).perm (hother a ha)

theorem unanswered_append (b a : Nat) : unanswered (responses ++ [(command, b)]) a =
      if a = b then unanswered responses a ++ [command] else unanswered responses a := by
  by_cases hab : a = b <;> simp [unanswered, filter_append, hab, eq_comm (a := b)]

theorem unanswered_eraseIdx {n : Nat} (hn : responses[n]? = some (command, it)) (a : Nat) :
    (unanswered responses a).Perm
      ((if a = it then [command] else []) ++ unanswered (responses.eraseIdx n) a) := by
  obtain ⟨hlt, hget⟩ := List.getElem?_eq_some_iff.1 hn
  have hperm := ((getElem_cons_eraseIdx_perm hlt).symm.filter (·.2 == a)).map Prod.fst
  rw [hget, filter_cons] at hperm
  by_cases ha : a = it <;> simpa [unanswered, ha, eq_comm (a := it)] using hperm

theorem routesTo_append (ribRoute : ρ) (a : Nat) : routesTo (routeToRr ++ [(ribRoute, it)]) a =
    routesTo routeToRr a + if a = it then 1 else 0 := by
  by_cases ha : a = it <;> simp [routesTo, countP_append, ha, eq_comm (a := it)]

/-- An answer: the element is there, and it is erased only when no route is left. -/
theorem Inv.afterResponse (h : Inv s) {n : Nat} (hn : s.responses[n]? = some (command, it))
    (success : Bool) :
    Inv ({ s with responses := s.responses.eraseIdx n }.afterResponse it command success) := by
  have hother : ∀ a, a ≠ it →
      (unanswered s.responses a).Perm (unanswered (s.responses.eraseIdx n) a) := by
    intro a ha
    simpa [ha] using unanswered_eraseIdx hn a
  have hcell := (h.cell it).perm (unanswered_eraseIdx hn it)
  rw [if_pos rfl, singleton_append] at hcell
  cases hget : s.rrs.get it with
  | none =>
    rw [hget] at hcell
    cases hcell.2
  | some rr =>
    rw [hget] at hcell
    obtain ⟨hcount, hzero, hpos, -⟩ := hcell
    simp only [reduceCtorEq, false_or, List.cons.injEq] at hzero
    rw [forall_mem_cons] at hpos
    simp only [State.afterResponse, hget]
    split
    · -- a withdrawal is unanswered only while no route is left
      have h0 : routesTo s.routeToRr it = 0 := by grind
      rw [State.erase, if_neg (by omega)]
      refine h.at ⟨h.routes, fun a ha => ?_, fun _ _ => rfl⟩ hother ?_ <;> rw [get_free]
      exacts [if_neg ha, if_pos rfl ▸ ⟨h0, (hzero h0).2.2⟩]
    · -- the timer is now that of the command that was answered
      refine h.at ⟨h.routes, fun a ha => ?_, fun _ _ => rfl⟩ hother ?_ <;> rw [get_modify]
      · simp [ha]
      · rw [hget]
        cases command <;> grind [CellOk]

theorem Inv.advertise (h : Inv s) (hc : Changed s it rrs routeToRr)
    (hget : rrs.get it = some rr) (hcount : rr.nRibRoutes = routesTo routeToRr it)
    (hpos : rr.nRibRoutes ≠ 0) (hcommands : ∀ c ∈ unanswered s.responses it, c = .advertise)
    (htimer : ¬ s.isAvailable = true → rr.retryEvt ≠ some .withdraw) :
    Inv (({ s with rrs, routeToRr } : State ρ π).advertise it) := by
  simp only [State.advertise, hget, if_neg hpos]
  split
  · refine h.at hc (fun a ha => by rw [unanswered_append, if_neg ha]) ?_
    have hne : unanswered s.responses it ++ [.advertise] ≠ [] := by simp
    rw [hget, unanswered_append, if_pos rfl]
    grind [CellOk]
  · refine h.at hc (fun _ _ => .refl _) ?_
    grind [CellOk]

/-- An element without routes is withdrawn, or erased when the destination is gone. -/
theorem Inv.withdraw (h : Inv s) (hc : Changed s it rrs routeToRr)
    (hget : rrs.get it = some rr) (hcount : rr.nRibRoutes = routesTo routeToRr it)
    (hzero : rr.nRibRoutes = 0) (hcommands : unanswered s.responses it = []) :
    Inv (({ s with rrs, routeToRr } : State ρ π).withdraw it) := by
  simp only [State.withdraw, hget, hzero, ne_eq, not_true, if_false, State.erase, Nat.lt_irrefl]
  split
  · refine h.at hc (fun a ha => by rw [unanswered_append, if_neg ha]) ?_
    rw [hget, unanswered_append, if_pos rfl]
    grind [CellOk]
  · refine h.at ⟨hc.nodup, fun a ha => ?_, hc.count⟩ (fun _ _ => .refl _) ?_ <;> rw [get_free]
    exacts [(if_neg ha).trans (hc.get a ha), if_pos rfl ▸ ⟨hcount.symm.trans hzero, hcommands⟩]

theorem Inv.fire (h : Inv s) (hget : s.rrs.get it = some rr)
    (htimer : rr.retryEvt = some command) (hquiet : unanswered s.responses it = []) :
    Inv ((s.clearTimer it).call it command) := by
  have hcell := h.cell it
  rw [hget, hquiet] at hcell
  obtain ⟨hcount, -, -, hkind⟩ := hcell
  have hkind := hkind rfl command htimer
  have hc : Changed s it (s.clearTimer it).rrs s.routeToRr :=
    ⟨h.routes, fun a ha => by simp [clearTimer, get_modify, ha], fun _ _ => rfl⟩
  have hfired : (s.clearTimer it).rrs.get it = some { rr with retryEvt := none } := by
    simp [clearTimer, get_modify, hget]
  cases command with
  | advertise =>
    exact h.advertise hc hfired hcount
      (fun h0 => by cases hkind.2 (hcount.symm.trans h0)) (by simp [hquiet]) (by simp)
  | withdraw =>
    exact h.withdraw hc hfired hcount (hcount.trans (hkind.1 rfl)) hquiet

end

variable {s s' : State ρ π} {ribRoute : ρ}

theorem Inv.beforeRemoveRoute (h : Inv s) (hquiet : s.isQuiet (.removeRoute ribRoute) = true) :
    Inv (s.beforeRemoveRoute ribRoute) := by
  simp only [State.isQuiet] at hquiet
  unfold State.beforeRemoveRoute
  cases hlookup : s.routeToRr.lookup ribRoute with
  | none => exact h
  | some it =>
    have hperm := perm_cons_filter_ne h.routes ((lookup_eq_some_iff_mem h.routes).1 hlookup)
    have hroutes : ∀ a, routesTo s.routeToRr a =
        routesTo (s.routeToRr.filter (·.1 != ribRoute)) a + if a = it then 1 else 0 := by
      intro a
      have hcount := hperm.countP_eq (·.2 == a)
      by_cases ha : a = it <;> simp_all [routesTo, eq_comm (a := it)]
    have hc : Changed s it (s.countOut ribRoute it).rrs (s.countOut ribRoute it).routeToRr :=
      ⟨h.routes.sublist (filter_sublist.map Prod.fst),
        fun a ha => by simp [countOut, get_modify, ha],
        fun a ha => by simp [countOut, hroutes a, ha]⟩
    have hcell := h.cell it
    have hself := hroutes it
    rw [if_pos rfl] at hself
    cases hget : s.rrs.get it with
    | none =>
      rw [hget] at hcell
      exact absurd hcell.1 (by omega)
    | some rr =>
      rw [hget] at hcell
      have hcount := hcell.1
      have hnow : (s.countOut ribRoute it).rrs.get it =
          some { rr with nRibRoutes := rr.nRibRoutes - 1 } := by
        simp [countOut, get_modify, hget]
      simp only [hlookup, inUse, hget, any_some, Bool.or_eq_true, decide_eq_true_eq,
        beq_iff_eq] at hquiet
      simp only [inUse, hget, any_some, isNone_some, Bool.false_eq_true, if_false,
        decide_eq_true_eq]
      split
      · refine h.at hc (fun _ _ => .refl _) ?_
        rw [show (s.rrs.modify it _).get it = _ from hnow]
        grind [CellOk]
      · -- the last route: nothing about the element is unanswered
        exact h.withdraw hc hnow
          (show rr.nRibRoutes - 1 = routesTo (s.routeToRr.filter _) it by omega)
          (show rr.nRibRoutes - 1 = 0 by omega) (hquiet.resolve_left ‹_›)

theorem emplace_spec (rrs : Heap (ReadvertisedRoute π)) (pfx : π) :
    ∃ rr, (emplace rrs pfx).1.get (emplace rrs pfx).2 = some rr ∧
      (rrs.get (emplace rrs pfx).2 = some rr ∨
        rrs.get (emplace rrs pfx).2 = none ∧ rr.nRibRoutes = 0 ∧ rr.retryEvt = none) ∧
      ∀ a, a ≠ (emplace rrs pfx).2 → (emplace rrs pfx).1.get a = rrs.get a := by
  unfold emplace
  cases hfind : rrs.cells.find? (·.2.pfx = pfx) with
  | some x =>
    have hget : rrs.get x.1 = some x.2 := get_eq_some_iff.2 (mem_of_find?_eq_some hfind)
    exact ⟨x.2, hget, .inl hget, fun _ _ => rfl⟩
  | none =>
    refine ⟨⟨pfx, 0, none⟩, ?_, .inr ⟨get_next, rfl, rfl⟩, fun a ha => ?_⟩
    · rw [get_alloc, if_pos rfl]
    · rw [get_alloc, if_neg ha]

theorem Inv.afterAddRoute (h : Inv s) {pfx : π} (hnew : ribRoute ∉ s.routeToRr.map Prod.fst)
    (hquiet : s.isQuiet (.addRoute ribRoute (some pfx)) = true) :
    Inv (s.afterAddRoute ribRoute pfx) := by
  obtain ⟨rr, hget, hold, hsame⟩ := emplace_spec s.rrs pfx
  simp only [State.isQuiet] at hquiet
  unfold State.afterAddRoute
  generalize emplace s.rrs pfx = placed at hget hold hsame hquiet ⊢
  obtain ⟨rrs, it⟩ := placed
  have hnow : (s.countIn rrs ribRoute it).rrs.get it =
      some { rr with nRibRoutes := rr.nRibRoutes + 1 } := by
    simp [countIn, get_modify, hget]
  have hc : Changed s it (s.countIn rrs ribRoute it).rrs (s.countIn rrs ribRoute it).routeToRr := by
    refine ⟨?_, fun a ha => by simp [countIn, get_modify, ha, hsame],
      fun a ha => by simp [countIn, routesTo_append, ha]⟩
    rw [countIn, map_append]
    exact h.routes.append (nodup_singleton _) (by simpa using hnew)
  have hself : routesTo (s.routeToRr ++ [(ribRoute, it)]) it = routesTo s.routeToRr it + 1 := by
    rw [routesTo_append, if_pos rfl]
  have hcell := h.cell it
  have hcount : rr.nRibRoutes = routesTo s.routeToRr it := by
    rcases hold with hold | ⟨hold, h0, -⟩ <;> rw [hold] at hcell
    exacts [hcell.1, h0.trans hcell.1.symm]
  simp only [inUse, hget, any_some, Bool.or_eq_true, decide_eq_true_eq, beq_iff_eq] at hquiet ⊢
  split
  · refine h.at hc (fun _ _ => .refl _) ?_
    rw [show (rrs.modify it _).get it = _ from hnow]
    grind [CellOk]
  · -- the element is new, or being withdrawn with nothing unanswered
    have hnil := hquiet.resolve_left ‹_›
    exact h.advertise hc hnow ((congrArg (· + 1) hcount).trans hself.symm) (succ_ne_zero _)
      (by simp [hnil]) (by grind [CellOk])

omit [DecidableEq ρ] [DecidableEq π] in
/-- The loop over all elements when the destination comes back: each is in use. -/
theorem Inv.advertiseAll {its : List Nat} (h : Inv s) (havailable : s.isAvailable = true)
    (hits : ∀ it ∈ its, inUse s.rrs it 0 = true) : Inv (its.foldl State.advertise s) := by
  induction its generalizing s with
  | nil => exact h
  | cons it its ih =>
    obtain ⟨hit, hits⟩ := forall_mem_cons.1 hits
    obtain ⟨rr, hget, hpos⟩ := (any_eq_true _ _).1 hit
    have hpos : rr.nRibRoutes ≠ 0 := Nat.ne_of_gt (of_decide_eq_true hpos)
    have hcell := h.cell it
    rw [hget] at hcell
    have hnext : Inv (s.advertise it) := h.advertise
      ⟨h.routes, fun _ _ => rfl, fun _ _ => rfl⟩ hget hcell.1 hpos (hcell.2.2.1 (hcell.1 ▸ hpos))
        fun hav => absurd havailable hav
    rw [foldl_cons]
    simp only [State.advertise, hget, if_neg hpos, havailable, if_true] at hnext ⊢
    exact ih hnext rfl hits

omit [DecidableEq ρ] [DecidableEq π] in
/-- Elements not in use are given up when the destination goes; all are in use when it is back. -/
theorem Inv.setAvailability (h : Inv s) (hcells : s.isAvailable = true →
      ∀ x ∈ s.rrs.cells, inUse s.rrs x.1 0 = true ∨ unanswered s.responses x.1 = []) :
    Inv (if s.isAvailable then { s with isAvailable := false }.afterDestinationUnavailable
      else { s with isAvailable := true }.afterDestinationAvailable) := by
  split
  · rename_i hav
    refine ⟨h.violation, h.routes, fun a => ?_⟩
    have hcell := h.cell a
    show CellOk false (routesTo s.routeToRr a) (unanswered s.responses a)
      ((s.rrs.filterMap _).get a)
    rw [get_filterMap]
    cases hget : s.rrs.get a with
    | none =>
      rw [hget] at hcell
      exact hcell
    | some rr =>
      have hquiet := hcells hav (a, rr) (get_eq_some_iff.1 hget)
      simp only [inUse, hget, any_some, decide_eq_true_eq] at hquiet
      rw [bind_some]
      split <;> grind [CellOk]
  · rename_i hav
    refine Inv.advertiseAll (s := { s with isAvailable := true }) ?_ rfl ?_
    · refine ⟨h.violation, h.routes, fun a => ?_⟩
      have hcell := h.cell a
      cases hget : s.rrs.get a <;> grind [CellOk]
    · intro it hit
      obtain ⟨x, hx, rfl⟩ := mem_map.1 hit
      have hcell := h.cell x.1
      have hget := get_eq_some_iff.2 hx
      grind [CellOk, inUse]

theorem Inv.step {e : Event ρ π} (h : Inv s) (hquiet : s.isQuiet e = true)
    (hstep : s.step e = some s') : Inv s' := by
  unfold State.step at hstep
  rw [if_neg (by simp [h.violation])] at hstep
  cases e with
  | addRoute ribRoute action =>
    cases action with
    | none => exact some.inj hstep ▸ h
    | some pfx =>
      obtain ⟨hnew, hstep⟩ := ite_none_left_eq_some.1 hstep
      exact some.inj hstep ▸ h.afterAddRoute hnew hquiet
  | removeRoute ribRoute => exact some.inj hstep ▸ h.beforeRemoveRoute hquiet
  | setAvailability isAvailable =>
    have hset := h.setAvailability
    cases hav : s.isAvailable <;> cases isAvailable <;> simp_all [State.isQuiet]
    exact hset hquiet
  | respond n success =>
    simp only at hstep
    split at hstep
    · cases hstep
    · rename_i hn
      exact some.inj hstep ▸ h.afterResponse hn success
  | fire it =>
    simp only at hstep
    split at hstep
    · cases hstep
    · rename_i htimer
      obtain ⟨rr, hget, htimer⟩ := bind_eq_some_iff.1 htimer
      exact some.inj hstep ▸ h.fire hget htimer (by simpa [State.isQuiet] using hquiet)

/-- **Every state reached**, while commands are answered before the next change of their element. -/
theorem run_readvertise (isAvailable : Bool) {es : List (Event ρ π)} {t : State ρ π}
    (hrun : Run step (fun s e => s.isQuiet e = true) (init isAvailable) es t) : t.Sound := by
  have hinit : Inv (init isAvailable : State ρ π) := ⟨rfl, nodup_nil, fun _ => ⟨rfl, rfl⟩⟩
  exact (hrun.invariant (fun s e s' h hquiet hstep => h.step hquiet hstep) hinit).sound

/-- A route comes back before its withdrawal is answered; the answer erases its element. -/
theorem readded_route_erased : ∃ t : State Nat Nat,
    Run step (fun _ _ => True) (init true)
      [.addRoute 0 (some 0), .respond 0 true, .removeRoute 0, .addRoute 0 (some 0), .respond 0 true]
      t ∧ t.violation = some .erasedInUse ∧ ¬ t.Sound := by
  refine Run.exists_of_decide (·.violation = some .erasedInUse) (by decide) fun t _ ht => ?_
  exact ⟨ht, fun h => by cases ht.symm.trans h.violation⟩

/-- The same with the withdrawal answered first. -/
theorem run_readvertise_readded : ∃ t : State Nat Nat,
    Run step (fun s e => s.isQuiet e = true) (init true)
      [.addRoute 0 (some 0), .respond 0 true, .removeRoute 0, .respond 0 true, .addRoute 0 (some 0)]
      t ∧ t.routeToRr = [(0, 1)] ∧ t.Sound := by
  exact Run.exists_of_decide _ (by decide) fun _ hrun ht => ⟨ht, run_readvertise true hrun⟩

end State

end NdnMulticast.Nfd.Readvertise
