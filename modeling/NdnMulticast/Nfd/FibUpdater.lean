/-
  What a registration changes, after `daemon/rib/fib-updater.cpp`, and how it is applied, after
  `Rib::onFibUpdateSuccess` of `daemon/rib/rib.cpp`.

  The updater collects commands to the FIB, those for the face of the batch and the others in
  lists of their own, and records of the routes that entries inherit or no longer inherit.  Of
  the FIB only the costs of next hops matter.
-/

import NdnMulticast.Lib.Assoc
import NdnMulticast.Ndn.Tlv
import NdnMulticast.Nfd.Rib

namespace NdnMulticast.Nfd.Routing

open Lib Ndn List Option Rib Function RibEntry

variable {κ : Type} [LinearOrder κ]

/-! ## Updates -/

/-- The cost of the next hop on a face, by name and face. -/
abbrev Fib (κ : Type) := List κ × Nat → Option Nat

inductive FibUpdate.Action where
  | addNexthop
  | removeNexthop
deriving DecidableEq, Repr

structure FibUpdate (κ : Type) where
  name : List κ
  faceId : Nat
  cost : Nat
  action : FibUpdate.Action
deriving DecidableEq, Repr

namespace FibUpdate

def createAddUpdate (name : List κ) (faceId cost : Nat) : FibUpdate κ :=
  ⟨name, faceId, cost, .addNexthop⟩

def createRemoveUpdate (name : List κ) (faceId : Nat) : FibUpdate κ :=
  ⟨name, faceId, 0, .removeNexthop⟩

def key (u : FibUpdate κ) : List κ × Nat := (u.name, u.faceId)

/-- The next hop that the command leaves. -/
def nextHop (u : FibUpdate κ) : Option Nat :=
  match u.action with
  | .addNexthop => some u.cost
  | .removeNexthop => none

end FibUpdate

inductive RibUpdate.Action where
  | register
  | unregister
  | removeFace
deriving DecidableEq, Repr

structure RibUpdate (κ : Type) where
  action : RibUpdate.Action
  name : List κ
  route : Route
deriving DecidableEq, Repr

/-- Both lists have at most one command for each name and face. -/
structure FibUpdater (κ : Type) where
  batchFaceId : Nat
  updatesForBatchFaceId : List (FibUpdate κ)
  updatesForNonBatchFaceId : List (FibUpdate κ)
  inheritedRoutes : List (RibUpdate κ)
  batch_nodup : (updatesForBatchFaceId.map FibUpdate.key).Nodup
  nonBatch_nodup : (updatesForNonBatchFaceId.map FibUpdate.key).Nodup
  nonBatch_ne : ∀ u ∈ updatesForNonBatchFaceId, u.faceId ≠ batchFaceId

namespace FibUpdater

/-- The updater when a batch is started. -/
def new (batchFaceId : Nat) : FibUpdater κ where
  batchFaceId := batchFaceId
  updatesForBatchFaceId := []
  updatesForNonBatchFaceId := []
  inheritedRoutes := []
  batch_nodup := List.nodup_nil
  nonBatch_nodup := List.nodup_nil
  nonBatch_ne := fun _ h => (List.not_mem_nil h).elim

variable (rib : Rib κ) (t : FibUpdater κ) (name : List κ) (entry : RibEntry κ)
  (route existingRoute : Route)

/-- The update takes the place of one with the same name and face. -/
def addFibUpdate (u : FibUpdate κ) : FibUpdater κ :=
  if h : u.faceId = t.batchFaceId then
    { t with
      updatesForBatchFaceId := overwrite FibUpdate.key u t.updatesForBatchFaceId
      batch_nodup := nodup_overwrite t.batch_nodup }
  else
    { t with
      updatesForNonBatchFaceId := overwrite FibUpdate.key u t.updatesForNonBatchFaceId
      nonBatch_nodup := nodup_overwrite t.nonBatch_nodup
      nonBatch_ne := fun x hx => (mem_overwrite hx).elim (fun heq => heq ▸ h) (t.nonBatch_ne x) }

def addInheritedRoute : FibUpdater κ :=
  { t with inheritedRoutes := t.inheritedRoutes ++ [⟨.register, name, route⟩] }

def removeInheritedRoute : FibUpdater κ :=
  { t with inheritedRoutes := t.inheritedRoutes ++ [⟨.unregister, name, route⟩] }

/-- A route is inherited: the record, and the command. -/
def inherit : FibUpdater κ :=
  (t.addInheritedRoute name route).addFibUpdate (.createAddUpdate name route.faceId route.cost)

/-- A route is no longer inherited. -/
def disinherit : FibUpdater κ :=
  (t.removeInheritedRoute name route).addFibUpdate (.createRemoveUpdate name route.faceId)

/-- `addInheritedRoutes(const RibEntry&, const Rib::RouteSet&)`. -/
def addInheritedRoutes (routesToAdd : RouteSet) : FibUpdater κ :=
  routesToAdd.routes.foldl
    (fun t r => if !entry.hasFaceId r.faceId then t.inherit entry.name r else t) t

/-- `addInheritedRoutes(const Name&, const Rib::RouteSet&, const Route&)`. -/
def addInheritedRoutesIgnoring (routesToAdd : RouteSet) (ignore : Route) : FibUpdater κ :=
  routesToAdd.routes.foldl (fun t r => if r.faceId != ignore.faceId then t.inherit name r else t) t

def removeInheritedRoutes (routesToRemove : RouteSet) : FibUpdater κ :=
  routesToRemove.routes.foldl
    (fun t r => if entry.hasInheritedRoute r then t.disinherit entry.name r else t) t

/-! ## The subtree -/

/-- What the entry does not pass on. -/
def passedOn (routes : RouteSet) : RouteSet :=
  routes.filter fun r => !entry.hasChildInheritOnFaceId r.faceId

/-- The two loops of `traverseSubTree`, which erase what the entry does not pass on. -/
def visitEntry (routesToAdd routesToRemove : RouteSet) : FibUpdater κ :=
  (t.removeInheritedRoutes entry (passedOn entry routesToRemove)).addInheritedRoutes entry
    (passedOn entry routesToAdd)

def childrenOf : List (RibEntry κ) :=
  entry.children.filterMap rib.find

/-- `traverseSubTree` and `modifyChildrensInheritedRoutes`, which call each other.  Children have
    longer names, so `fuel` beyond the longest suffices. -/
def traverseSubTree (rib : Rib κ) :
    Nat → RouteSet → RouteSet → FibUpdater κ → RibEntry κ → FibUpdater κ
  | 0, _, _, t, _ => t
  | fuel + 1, routesToAdd, routesToRemove, t, entry =>
    if entry.hasCapture then t
    else
      (childrenOf rib entry).foldl
        (traverseSubTree rib fuel (passedOn entry routesToAdd) (passedOn entry routesToRemove))
        (t.visitEntry entry routesToAdd routesToRemove)

/-- A bound of the lengths of names. -/
def depth : Nat := (rib.table.map fun e => e.name.length).foldr max 0

def modifyChildrensInheritedRoutes (children : List (RibEntry κ))
    (routesToAdd routesToRemove : RouteSet) : FibUpdater κ :=
  children.foldl (traverseSubTree rib (depth rib + 1) routesToAdd routesToRemove) t

/-! ## A registration -/

def createFibUpdatesForNewRibEntry (children : List (RibEntry κ)) : FibUpdater κ :=
  let t := t.addFibUpdate (.createAddUpdate name route.faceId route.cost)
  if !route.isChildInherit && !route.isRibCapture then
    t.addInheritedRoutesIgnoring name (rib.getAncestorRoutes name) route
  else if route.isChildInherit && route.isRibCapture then
    t.modifyChildrensInheritedRoutes rib children (RouteSet.empty.insert route)
      (rib.getAncestorRoutes name)
  else if route.isChildInherit then
    let ancestorRoutes := rib.getAncestorRoutes name
    let t := t.addInheritedRoutesIgnoring name ancestorRoutes route
    -- an ancestor route on the face is replaced by the new route
    t.modifyChildrensInheritedRoutes rib children
      ((ancestorRoutes.erase route.faceId).insert route) .empty
  else
    t.modifyChildrensInheritedRoutes rib children .empty (rib.getAncestorRoutes name)

def createFibUpdatesForNewRoute (captureWasTurnedOn : Bool) : FibUpdater κ :=
  let prevRoute := entry.getRouteWithLowestCostAndChildInheritByFaceId route.faceId
  let routesToAdd :=
    if route.isChildInherit && prevRoute.all (route.cost ≤ ·.cost) then RouteSet.empty.insert route
    else .empty
  let routesToRemove := if captureWasTurnedOn then rib.getAncestorRoutesOf entry else .empty
  let t := if captureWasTurnedOn then t.removeInheritedRoutes entry routesToRemove else t
  let t := t.modifyChildrensInheritedRoutes rib (childrenOf rib entry) routesToAdd routesToRemove
  -- last, so that it replaces a removal
  if (entry.getRouteWithLowestCostByFaceId route.faceId).all (route.cost ≤ ·.cost) then
    t.addFibUpdate (.createAddUpdate entry.name route.faceId route.cost)
  else t

/-- The part for the next hop of the entry itself.  There may be no route for `prevRoute`. -/
def updateNextHop (prevRoute : Option Route) : Except Fault (FibUpdater κ) :=
  match entry.getRouteWithLowestCostByFaceId route.faceId with
  | none => .error .undefinedBehavior
  | some lowest =>
    if route.cost ≤ lowest.cost then
      .ok (t.addFibUpdate (.createAddUpdate entry.name route.faceId route.cost))
    else if existingRoute.cost < lowest.cost then
      match prevRoute with
      | none => .error .undefinedBehavior
      | some prev => .ok (t.addFibUpdate (.createAddUpdate entry.name prev.faceId prev.cost))
    else .ok t

/-- The part for ChildInherit turned on or off. -/
def updateChildInherit (prevRoute : Option Route) : FibUpdater κ :=
  if !existingRoute.isChildInherit && route.isChildInherit then
    if prevRoute.all (route.cost ≤ ·.cost) then
      t.modifyChildrensInheritedRoutes rib (childrenOf rib entry)
        (RouteSet.empty.insert route) .empty
    else t
  else if existingRoute.isChildInherit && !route.isChildInherit then
    -- another route of the entry, or one of an ancestor that was blocked
    let next := prevRoute.or ((rib.getAncestorRoutesOf entry).find route.faceId)
    t.modifyChildrensInheritedRoutes rib (childrenOf rib entry)
      ((next.map RouteSet.empty.insert).getD .empty) (RouteSet.empty.insert route)
  else t

/-- The part for Capture turned on or off. -/
def updateCapture : FibUpdater κ :=
  if !existingRoute.isRibCapture && route.isRibCapture then
    let ancestorRoutes := rib.getAncestorRoutesOf entry
    (t.removeInheritedRoutes entry ancestorRoutes).modifyChildrensInheritedRoutes rib
      (childrenOf rib entry) .empty ancestorRoutes
  else if existingRoute.isRibCapture && !route.isRibCapture then
    let ancestorRoutes := rib.getAncestorRoutesOf entry
    (t.addInheritedRoutes entry ancestorRoutes).modifyChildrensInheritedRoutes rib
      (childrenOf rib entry) ancestorRoutes .empty
  else t

/-- `entry` has the updated route already. -/
def createFibUpdatesForUpdatedRoute : Except Fault (FibUpdater κ) :=
  let costDidChange := route.cost != existingRoute.cost
  let prevRoute := entry.getRouteWithLowestCostAndChildInheritByFaceId route.faceId
  if route.flags == existingRoute.flags && !costDidChange then .ok t
  else
    (if costDidChange then t.updateNextHop entry route existingRoute prevRoute else
      .ok t).map fun t =>
      if costDidChange && prevRoute.all (route.cost ≤ ·.cost) &&
        route.flags == existingRoute.flags &&
          route.isChildInherit then
        t.modifyChildrensInheritedRoutes rib (childrenOf rib entry)
          (RouteSet.empty.insert route) .empty
      else
        (t.updateChildInherit rib entry route existingRoute prevRoute).updateCapture rib entry route
          existingRoute

def computeUpdatesForRegistration : Except Fault (FibUpdater κ) :=
  match rib.find name with
  | some entry =>
    match entry.findRoute route with
    | none =>
      .ok (t.createFibUpdatesForNewRoute rib entry route (!entry.hasCapture && route.isRibCapture))
    | some existingRoute =>
      let entryCopy := entry.replaceRoute route fun x =>
        { x with flags := route.flags, cost := route.cost }
      t.createFibUpdatesForUpdatedRoute rib entryCopy route existingRoute
  | none =>
    let parent := (rib.findParent name).map RibEntry.name
    let children := (rib.findDescendantsForNonInsertedName name).filter (·.parent == parent)
    .ok (t.createFibUpdatesForNewRibEntry rib name route children)

/-! ## Applying the updates -/

def sendUpdates (updates : List (FibUpdate κ)) (fib : Fib κ) : Fib κ :=
  commit FibUpdate.key FibUpdate.nextHop updates fib

/-- The commands for the face of the batch are carried out first. -/
def send (fib : Fib κ) : Fib κ :=
  sendUpdates t.updatesForNonBatchFaceId (sendUpdates t.updatesForBatchFaceId fib)

end FibUpdater

/-- What a record does to the list of inherited routes. -/
def RibUpdate.applyTo (u : RibUpdate κ) (inherited : List Route) : List Route :=
  match u.action with
  | .register => inherited ++ [u.route]
  | .unregister => inherited.filter (·.faceId != u.route.faceId)
  | .removeFace => inherited

namespace Rib

/-- One round of `modifyInheritedRoutes`, which needs the entry to be there. -/
def modifyInherited (rib : Rib κ) (u : RibUpdate κ) : Except Fault (Rib κ) :=
  match rib.find u.name with
  | none => .error .undefinedBehavior
  | some _ =>
    .ok (match u.action with
      | .register => rib.modify u.name (·.addInheritedRoute u.route)
      | .unregister => rib.modify u.name (·.removeInheritedRoute u.route)
      | .removeFace => rib)

def modifyInheritedRoutes (rib : Rib κ) (updates : List (RibUpdate κ)) : Except Fault (Rib κ) :=
  updates.foldlM modifyInherited rib

theorem WellFormed.modifyInheritedRoutes {rib rib' : Rib κ} {updates : List (RibUpdate κ)}
    (h : rib.WellFormed) (hupdates : rib.modifyInheritedRoutes updates = .ok rib') :
    rib'.WellFormed := by
  refine foldlM_invariant Rib.WellFormed (fun rib u _ rib' hwf hstep => ?_) hupdates h
  unfold modifyInherited at hstep
  split at hstep
  · cases hstep
  · rw [← Except.ok.inj hstep]
    split
    · exact hwf.modify (fun _ => ⟨rfl, rfl, rfl⟩) fun _ hcounted => hcounted
    · exact hwf.modify (fun _ => ⟨rfl, rfl, rfl⟩) fun _ hcounted => hcounted
    · exact hwf

end Rib

/-! ## The tables -/

structure State (κ : Type) where
  rib : Rib κ
  fib : Fib κ

/-- A `REGISTER` whose commands to the FIB all succeed. -/
def State.register (s : State κ) (name : List κ) (route : Route) : Except Fault (State κ) := do
  let t ← (FibUpdater.new route.faceId).computeUpdatesForRegistration s.rib name route
  let rib ← (s.rib.insert name route).modifyInheritedRoutes t.inheritedRoutes
  return { rib, fib := t.send s.fib }

/-! ## One name and face -/

/-- The costs that a list of routes has on a face. -/
def costs (f : Nat) (routes : List Route) : Set Nat := {c | ∃ r ∈ routes, r.faceId = f ∧ r.cost = c}

theorem costs_append (f : Nat) (routes : List Route) (r : Route) :
    costs f (routes ++ [r]) =
      if r.faceId = f then insert r.cost (costs f routes) else costs f routes := by
  ext c
  split
  · rename_i hf
    simp only [costs, mem_append, mem_singleton, Set.mem_ofPred_eq, Set.mem_insert_iff]
    constructor
    · grind
    · grind
  · rename_i hf
    simp only [costs, mem_append, mem_singleton, Set.mem_ofPred_eq]
    constructor
    · simp_all
    · simp_all

theorem costs_filter (f g : Nat) (routes : List Route) :
    costs f (routes.filter (·.faceId != g)) = if g = f then ∅ else costs f routes := by
  ext c
  simp only [costs, mem_filter, bne_iff_ne, Set.mem_ofPred_eq]
  split
  · simp_all
  · grind

/-- The list of inherited routes of a name after some records. -/
def recorded (us : List (RibUpdate κ)) (p : List κ) (inherited : List Route) : List Route :=
  us.foldl (fun inherited u => if u.name = p then u.applyTo inherited else inherited) inherited

/-- The next hop and the costs of inherited routes, of a name on a face. -/
abbrev Cell := Option Nat × Set Nat

namespace Cell

/-- A route is inherited, if there is one. -/
def gain (cost : Option Nat) (x : Cell) : Cell :=
  match cost with
  | none => x
  | some c => (some c, insert c x.2)

/-- What is inherited is lost. -/
def lose (removed : Bool) (x : Cell) : Cell := if removed then (none, ∅) else x

theorem gain_lose_idem (cost : Option Nat) (removed : Bool) (x : Cell) :
    gain cost (lose removed (gain cost (lose removed x))) = gain cost (lose removed x) := by
  cases removed with
  | true => rfl
  | false =>
    cases cost with
    | none => rfl
    | some c => exact Prod.ext rfl (Set.insert_eq_of_mem (Set.mem_insert c _))

end Cell

namespace FibUpdater

/-- A cell after the updates, given the FIB and the inherited routes before. -/
def cell (fib : Fib κ) (inherited : List κ → List Route) (p : List κ) (f : Nat) (t : FibUpdater κ) :
    Cell :=
  (t.send fib (p, f), costs f (recorded t.inheritedRoutes p (inherited p)))

section

variable {fib : Fib κ} {inherited : List κ → List Route} {p n : List κ} {f : Nat} (t : FibUpdater κ)
  (e : RibEntry κ) (u : FibUpdate κ) (set : RouteSet)

/-- **The FIB ends up as if each command were carried out when it is added.** -/
theorem send_addFibUpdate (fib : Fib κ) :
    (t.addFibUpdate u).send fib = update (t.send fib) u.key u.nextHop := by
  unfold addFibUpdate
  split
  · rename_i hface
    have hother : u.key ∉ t.updatesForNonBatchFaceId.map FibUpdate.key := by
      intro hmem
      obtain ⟨x, hx, hkey⟩ := mem_map.1 hmem
      exact t.nonBatch_ne x hx ((congrArg Prod.snd hkey).trans hface)
    show commit _ _ t.updatesForNonBatchFaceId (commit _ _ (overwrite _ u _) fib) = _
    rw [commit_overwrite t.batch_nodup, commit_update hother]
    rfl
  · exact commit_overwrite t.nonBatch_nodup _

theorem inheritedRoutes_addFibUpdate : (t.addFibUpdate u).inheritedRoutes = t.inheritedRoutes := by
  unfold addFibUpdate
  split
  · rfl
  · rfl

theorem cell_addFibUpdate :
    (t.addFibUpdate u).cell fib inherited p f =
      if p = u.name ∧ f = u.faceId then (u.nextHop, (t.cell fib inherited p f).2)
      else t.cell fib inherited p f := by
  rw [cell, send_addFibUpdate, inheritedRoutes_addFibUpdate]
  by_cases hkey : p = u.name ∧ f = u.faceId
  · obtain ⟨rfl, rfl⟩ := hkey
    rw [if_pos ⟨rfl, rfl⟩]
    exact Prod.ext (update_self (u.name, u.faceId) _ _) rfl
  · have hne : (p, f) ≠ u.key := fun heq => hkey (Prod.mk.inj heq)
    rw [if_neg hkey, update_of_ne hne]
    rfl

theorem recorded_append (us : List (RibUpdate κ)) (u : RibUpdate κ) (p : List κ) (l : List Route) :
    recorded (us ++ [u]) p l =
      if u.name = p then u.applyTo (recorded us p l) else recorded us p l := by
  rw [recorded, foldl_append]
  rfl

/-- A record and the command that goes with it. -/
theorem cell_record (v : RibUpdate κ) {u : FibUpdate κ} (hname : v.name = u.name)
    (act : Set Nat → Set Nat) (hcosts : ∀ routes,
      costs f (v.applyTo routes) = if u.faceId = f then act (costs f routes) else costs f routes) :
    ({ t with inheritedRoutes := t.inheritedRoutes ++ [v] }.addFibUpdate u).cell fib inherited p f =
      if p = u.name ∧ u.faceId = f then (u.nextHop, act (t.cell fib inherited p f).2)
      else t.cell fib inherited p f := by
  rw [cell_addFibUpdate]
  simp only [cell, recorded_append, hname, eq_comm (a := f)]
  by_cases hp : p = u.name
  · simp only [hp, true_and, if_true, hcosts]
    split
    · rfl
    · rfl
  · simp only [hp, Ne.symm hp, false_and, if_false]
    rfl

theorem cell_inherit (r : Route) :
    (t.inherit n r).cell fib inherited p f =
      if p = n ∧ r.faceId = f then Cell.gain (some r.cost) (t.cell fib inherited p f)
      else t.cell fib inherited p f :=
  cell_record t ⟨.register, n, r⟩ rfl (insert r.cost) fun routes => costs_append f routes r

theorem cell_disinherit (r : Route) :
    (t.disinherit n r).cell fib inherited p f =
      if p = n ∧ r.faceId = f then Cell.lose true (t.cell fib inherited p f)
      else t.cell fib inherited p f :=
  cell_record t ⟨.unregister, n, r⟩ rfl (fun _ => ∅) fun routes => costs_filter f r.faceId routes

theorem pairwise_face (p n : List κ) (f : Nat) :
    set.routes.Pairwise fun r r' => ¬ (decide (p = n ∧ r.faceId = f) = true ∧
      decide (p = n ∧ r'.faceId = f) = true) := by
  refine Pairwise.imp (fun {r r'} hlt h => ?_) set.sorted
  rw [decide_eq_true_eq, decide_eq_true_eq] at h
  omega

theorem cell_foldl_set {op : FibUpdater κ → Route → FibUpdater κ} (act : Route → Cell → Cell)
    (hop : ∀ t r, (op t r).cell fib inherited p f =
      if p = n ∧ r.faceId = f then act r (t.cell fib inherited p f) else t.cell fib inherited p f)
    (onto : Nat → Bool) (set : RouteSet) (t : FibUpdater κ) :
    (set.routes.foldl (fun t r => if onto r.faceId then op t r else t) t).cell fib inherited p f =
      if p = n ∧ onto f = true then
        ((set.find f).map fun r => act r (t.cell fib inherited p f)).getD (t.cell fib inherited p f)
      else t.cell fib inherited p f := by
  rw [foldl_cell_find? (cell fib inherited p f) _ (fun r => decide (p = n ∧ r.faceId = f))
    (fun r x => if onto r.faceId then act r x else x) ?_ ?_ (pairwise_face set p n f) t]
  · by_cases hp : p = n
    · have hfind : set.routes.find? (fun r => decide (p = n ∧ r.faceId = f)) = set.find f := by
        refine congrArg (fun q => set.routes.find? q) (funext fun r => ?_)
        rw [Bool.eq_iff_iff, decide_eq_true_eq, beq_iff_eq, and_iff_right hp]
      rw [hfind]
      cases hset : set.find f with
      | none => exact (ite_self _).symm
      | some r => grind
    · have hfind : set.routes.find? (fun r => decide (p = n ∧ r.faceId = f)) = none := by
        rw [find?_eq_none]
        intro r _ h
        exact hp (of_decide_eq_true h).1
      rw [hfind, if_neg fun h => hp h.1]
      rfl
  · grind
  · grind

theorem cell_addInheritedRoutes :
    (t.addInheritedRoutes e set).cell fib inherited p f =
      if p = e.name ∧ (!e.hasFaceId f) = true then
        Cell.gain ((set.find f).map Route.cost) (t.cell fib inherited p f)
      else t.cell fib inherited p f := by
  refine (cell_foldl_set (fun r => Cell.gain (some r.cost)) cell_inherit
    (fun f => !e.hasFaceId f) set t).trans ?_
  cases set.find f with
  | none => rfl
  | some r => rfl

theorem cell_addInheritedRoutesIgnoring (ignore : Route) :
    (t.addInheritedRoutesIgnoring n set ignore).cell fib inherited p f =
      if p = n ∧ (f != ignore.faceId) = true then
        Cell.gain ((set.find f).map Route.cost) (t.cell fib inherited p f)
      else t.cell fib inherited p f := by
  refine (cell_foldl_set (fun r => Cell.gain (some r.cost)) cell_inherit
    (fun f => f != ignore.faceId) set t).trans ?_
  cases set.find f with
  | none => rfl
  | some r => rfl

theorem cell_removeInheritedRoutes :
    (t.removeInheritedRoutes e set).cell fib inherited p f =
      if p = e.name ∧ e.inheritedRoutes.any (·.faceId == f) = true then
        Cell.lose (set.find f).isSome (t.cell fib inherited p f)
      else t.cell fib inherited p f := by
  refine (cell_foldl_set (fun _ => Cell.lose true) cell_disinherit
    (fun f => e.inheritedRoutes.any (·.faceId == f)) set t).trans ?_
  cases set.find f with
  | none => rfl
  | some r => rfl

omit [LinearOrder κ] in
theorem find_passedOn (f : Nat) :
    (passedOn e set).find f = if !e.hasChildInheritOnFaceId f then set.find f else none :=
  RouteSet.find_filter (p := fun f => !e.hasChildInheritOnFaceId f) set f

/-- What a visit gives, on a face. -/
def visitGain (e : RibEntry κ) (f : Nat) (add : RouteSet) : Option Nat :=
  if e.hasFaceId f then none else (add.find f).map Route.cost

/-- What it takes away. -/
def visitLose (e : RibEntry κ) (f : Nat) (remove : RouteSet) : Bool :=
  !e.hasChildInheritOnFaceId f && e.inheritedRoutes.any (·.faceId == f) && (remove.find f).isSome

omit [LinearOrder κ] in
theorem not_childInherit_of_face {e : RibEntry κ} (h : e.hasFaceId f = false) :
    e.hasChildInheritOnFaceId f = false := by
  rw [hasFaceId, List.any_eq_false] at h
  rw [hasChildInheritOnFaceId, List.any_eq_false]
  intro r hr hchild
  exact h r hr (Bool.and_eq_true_iff.1 hchild).1

theorem cell_visitEntry (add remove : RouteSet) :
    (t.visitEntry e add remove).cell fib inherited p f =
      if p = e.name then
        Cell.gain (visitGain e f add) (Cell.lose (visitLose e f remove) (t.cell fib inherited p f))
      else t.cell fib inherited p f := by
  have hlose : (t.removeInheritedRoutes e (passedOn e remove)).cell fib inherited p f =
      if p = e.name then Cell.lose (visitLose e f remove) (t.cell fib inherited p f)
      else t.cell fib inherited p f := by
    rw [cell_removeInheritedRoutes, find_passedOn, visitLose]
    by_cases hp : p = e.name
    · simp only [hp, true_and, if_true]
      cases e.hasChildInheritOnFaceId f with
      | true => exact ite_self _
      | false =>
        cases e.inheritedRoutes.any (·.faceId == f) with
        | true => rfl
        | false => rfl
    · rw [if_neg hp, if_neg fun h => hp h.1]
  rw [visitEntry, cell_addInheritedRoutes, find_passedOn, hlose, visitGain]
  by_cases hp : p = e.name
  · simp only [hp, true_and, if_true]
    cases hown : e.hasFaceId f with
    | true => rfl
    | false =>
      rw [not_childInherit_of_face hown]
      rfl
  · rw [if_neg hp, if_neg fun h => hp h.1, if_neg hp]

end

/-! ## The traversal as a walk -/

def childNames (rib : Rib κ) (k : List κ) : List (List κ) :=
  ((rib.find k).map RibEntry.children).getD []

theorem childNames_of_find {rib : Rib κ} {k : List κ} {e : RibEntry κ} (he : rib.find k = some e) :
    childNames rib k = e.children := by
  rw [childNames, he]
  rfl

/-- An entry that captures is not entered. -/
def enters (rib : Rib κ) (k : List κ) : Bool := (rib.find k).any fun e => !e.hasCapture

/-- The sets that are passed on, to be added and to be removed. -/
def passOn (rib : Rib κ) (k : List κ) (sets : RouteSet × RouteSet) : RouteSet × RouteSet :=
  ((rib.find k).map fun e => (passedOn e sets.1, passedOn e sets.2)).getD sets

def visit (rib : Rib κ) (t : FibUpdater κ) (x : List κ × RouteSet × RouteSet) : FibUpdater κ :=
  ((rib.find x.1).map fun e => t.visitEntry e x.2.1 x.2.2).getD t

variable (rib : Rib κ)

theorem traverseSubTree_eq (fuel : Nat) (add remove : RouteSet) (t : FibUpdater κ) {e : RibEntry κ}
    (he : rib.find e.name = some e) :
    traverseSubTree rib fuel add remove t e =
      (walk (childNames rib) (enters rib) (passOn rib) fuel (add, remove) e.name).foldl
        (visit rib) t := by
  induction fuel generalizing add remove t e with
  | zero => rfl
  | succ fuel ih =>
    have henters : enters rib e.name = !e.hasCapture := by
      rw [enters, he]
      rfl
    rw [traverseSubTree, walk, henters]
    cases e.hasCapture with
    | true => rfl
    | false =>
      have hnames := childNames_of_find he
      have hnext : passOn rib e.name (add, remove) = (passedOn e add, passedOn e remove) := by
        rw [passOn, he]
        rfl
      have hvisit : visit rib t (e.name, add, remove) = t.visitEntry e add remove := by
        rw [visit, he]
        rfl
      rw [if_neg Bool.false_ne_true, Bool.not_false, if_pos rfl, foldl_cons, hvisit, hnames, hnext,
        childrenOf]
      generalize t.visitEntry e add remove = t
      -- by induction on the children; what is not in the table is not entered
      induction e.children generalizing t with
      | nil => rfl
      | cons c cs ihcs =>
        rw [flatMap_cons, foldl_append, filterMap_cons]
        cases hc : rib.find c with
        | none =>
          have hempty : walk (childNames rib) (enters rib) (passOn rib) fuel
              (passedOn e add, passedOn e remove) c = [] := by
            cases fuel with
            | zero => rfl
            | succ fuel => rw [walk, enters, hc]; rfl
          rw [hempty]
          exact ihcs t
        | some e' =>
          have hname := name_of_find hc
          subst hname
          rw [foldl_cons, ih _ _ _ hc]
          exact ihcs _

theorem modifyChildrens_eq (t : FibUpdater κ) {children : List (RibEntry κ)}
    (hchildren : ∀ e ∈ children, rib.find e.name = some e) (add remove : RouteSet) :
    t.modifyChildrensInheritedRoutes rib children add remove =
      ((children.map name).flatMap
        (walk (childNames rib) (enters rib) (passOn rib) (depth rib + 1) (add, remove))).foldl
          (visit rib) t := by
  rw [modifyChildrensInheritedRoutes, foldl_flatMap, foldl_map]
  refine foldl_ext _ _ _ fun t e he => ?_
  exact traverseSubTree_eq rib _ add remove t (hchildren e he)

theorem length_le_depth {rib : Rib κ} {k : List κ} (hk : (rib.find k).isSome = true) :
    k.length ≤ depth rib := by
  obtain ⟨e, he⟩ := isSome_iff_exists.1 hk
  have hname := name_of_find he
  have hmem := mem_of_find he
  unfold depth
  generalize rib.table = table at hmem
  induction table with
  | nil => cases hmem
  | cons x table ih => grind

theorem isChildren {rib : Rib κ} (h : rib.WellFormed) : IsChildren rib.find (childNames rib) := by
  intro k hk x
  obtain ⟨e, he⟩ := isSome_iff_exists.1 hk
  have hname := name_of_find he
  subst hname
  rw [childNames_of_find he, h.children e (mem_of_find he)]
  constructor
  · rintro ⟨e', he', rfl, hparent⟩
    rw [h.find_of_mem he', ← h.parent e' he']
    exact ⟨rfl, hparent⟩
  · rintro ⟨hx, hparent⟩
    obtain ⟨e', he'⟩ := isSome_iff_exists.1 hx
    have hname' := name_of_find he'
    have hmem' := mem_of_find he'
    subst hname'
    exact ⟨e', hmem', rfl, (h.parent e' hmem').trans hparent⟩

/-- The entry is below the name, and neither it nor one between captures. -/
def Visits (rib : Rib κ) (q p : List κ) : Prop :=
  q <+: p ∧ q.length < p.length ∧ enters rib p = true ∧ ∀ x ∈ between rib.find q p,
    enters rib x.1 = true

/-- No route of an entry between is for children on the face. -/
def passes (rib : Rib κ) (q p : List κ) (f : Nat) : Bool :=
  (between rib.find q p).all fun x => !x.2.hasChildInheritOnFaceId f

theorem find_foldr_passOn (sets : RouteSet × RouteSet) (q p : List κ) (f : Nat) :
    (((between rib.find q p).foldr (fun x sets => passOn rib x.1 sets) sets).1.find f =
      if passes rib q p f then sets.1.find f else none) ∧
    (((between rib.find q p).foldr (fun x sets => passOn rib x.1 sets) sets).2.find f =
      if passes rib q p f then sets.2.find f else none) := by
  have hfind : ∀ x ∈ between rib.find q p, rib.find x.1 = some x.2 :=
    fun x hx => (mem_between hx).2.2.2
  unfold passes
  generalize between rib.find q p = l at hfind
  induction l with
  | nil => exact ⟨rfl, rfl⟩
  | cons x l ih => grind [passOn, find_passedOn]

section

variable {rib : Rib κ} {q p : List κ} {e : RibEntry κ} {children : List (RibEntry κ)} {f : Nat}
  {fib : Fib κ} {inherited : List κ → List Route}

/-- The entries right below the name, with nothing between. -/
def IsRoots (rib : Rib κ) (q : List κ) (children : List (RibEntry κ)) : Prop :=
  (∀ e ∈ children, rib.find e.name = some e) ∧ ∀ x, x ∈ children.map RibEntry.name ↔
    (rib.find x).isSome = true ∧ q <+: x ∧ q.length < x.length ∧ between rib.find q x = []

theorem mem_walk_roots (h : rib.WellFormed) (hroots : IsRoots rib q children)
    (sets : RouteSet × RouteSet)
    (x : List κ × RouteSet × RouteSet) :
    x ∈ (children.map name).flatMap
        (walk (childNames rib) (enters rib) (passOn rib) (depth rib + 1) sets) ↔
      Visits rib q x.1 ∧
        x.2 = (between rib.find q x.1).foldr (fun x sets => passOn rib x.1 sets) sets := by
  have henters : ∀ k, enters rib k = true → (rib.find k).isSome = true := by
    intro k hk
    rw [enters] at hk
    cases hfind : rib.find k with
    | none => rw [hfind] at hk; cases hk
    | some e => rfl
  rw [mem_walk_iff (isChildren h) henters (fun k hk => length_le_depth hk) (Nat.lt_succ_self _)
    hroots.2, Visits]
  simp only [and_assoc]

theorem cell_visit (he : rib.find p = some e) (t : FibUpdater κ) (sets : RouteSet × RouteSet) :
    (visit rib t (p, sets)).cell fib inherited p f =
      Cell.gain (visitGain e f sets.1)
        (Cell.lose (visitLose e f sets.2) (t.cell fib inherited p f)) := by
  have hname := name_of_find he
  rw [visit, he]
  show (t.visitEntry e sets.1 sets.2).cell fib inherited p f = _
  rw [cell_visitEntry, if_pos hname.symm]

theorem cell_visit_of_ne {x : List κ × RouteSet × RouteSet} (hx : x.1 ≠ p) (t : FibUpdater κ) :
    (visit rib t x).cell fib inherited p f = t.cell fib inherited p f := by
  rw [visit]
  cases hfind : rib.find x.1 with
  | none => rfl
  | some e => grind [name_of_find, cell_visitEntry]

variable (h : rib.WellFormed)
include h

/-- **A traversal changes the entries it visits**, each by what comes to it. -/
theorem cell_modifyChildrens (hroots : IsRoots rib q children) (he : rib.find p = some e)
    (hvisits : Visits rib q p) (t : FibUpdater κ) (add remove : RouteSet) :
    (t.modifyChildrensInheritedRoutes rib children add remove).cell fib inherited p f =
      Cell.gain (if passes rib q p f then visitGain e f add else none)
        (Cell.lose (passes rib q p f && visitLose e f remove) (t.cell fib inherited p f)) := by
  have hwalk := mem_walk_roots h hroots (add, remove)
  obtain ⟨hadd, hremove⟩ := find_foldr_passOn rib (add, remove) q p f
  rw [modifyChildrens_eq rib t hroots.1]
  generalize (children.map name).flatMap _ = l at hwalk
  generalize hsets : (between rib.find q p).foldr (fun x sets => passOn rib x.1 sets)
    (add, remove) =
    sets at hadd hremove
  have hon : ∀ x ∈ l, decide (x.1 = p) = true → ∀ t, (visit rib t x).cell fib inherited p f =
      Cell.gain (visitGain e f sets.1)
        (Cell.lose (visitLose e f sets.2) (t.cell fib inherited p f)) := by
    rintro ⟨k, sets'⟩ hx hk t
    have hk : k = p := of_decide_eq_true hk
    subst hk
    have hsame : sets' = sets := ((hwalk _).1 hx).2.trans hsets
    subst hsame
    exact cell_visit he t sets'
  have hoff : ∀ t x, decide (x.1 = p) = false → (visit rib t x).cell fib inherited p f =
      t.cell fib inherited p f := fun t x hx => cell_visit_of_ne (of_decide_eq_false hx) t
  have hany : l.any (fun x => decide (x.1 = p)) = true := by
    rw [List.any_eq_true]
    exact ⟨(p, sets), (hwalk _).2 ⟨hvisits, hsets.symm⟩, decide_eq_true rfl⟩
  rw [foldl_cell_idem (cell fib inherited p f) (visit rib) _
      (fun x => Cell.gain (visitGain e f sets.1) (Cell.lose (visitLose e f sets.2) x))
      (Cell.gain_lose_idem _ _) hon hoff t,
    if_pos hany, visitGain, visitLose, visitGain, visitLose, hadd, hremove]
  cases passes rib q p f with
  | true => rfl
  | false => simp

theorem cell_modifyChildrens_of_not (hroots : IsRoots rib q children) (hvisits : ¬ Visits rib q p)
    (t : FibUpdater κ) (add remove : RouteSet) :
    (t.modifyChildrensInheritedRoutes rib children add remove).cell fib inherited p f =
      t.cell fib inherited p f := by
  have hwalk := mem_walk_roots h hroots (add, remove)
  rw [modifyChildrens_eq rib t hroots.1]
  generalize (children.map name).flatMap _ = l at hwalk
  have hne : ∀ x ∈ l, x.1 ≠ p := fun x hx heq => hvisits (heq ▸ ((hwalk x).1 hx).1)
  clear hwalk
  induction l generalizing t with
  | nil => rfl
  | cons x l ih => simp_all [cell_visit_of_ne]

theorem isRoots_childrenOf (he : rib.find q = some e) : IsRoots rib q (childrenOf rib e) := by
  have hname := name_of_find he
  subst hname
  constructor
  · intro c hc
    obtain ⟨n, -, hn⟩ := mem_filterMap.1 hc
    rw [name_of_find hn]
    exact hn
  · intro x
    have hnearest := between_eq_nil_iff rib.find (q := e.name) (k := x)
    rw [he] at hnearest
    have hchild := isChildren h e.name (by rw [he]; rfl) x
    rw [childNames_of_find he] at hchild
    constructor
    · intro hx
      obtain ⟨c, hc, rfl⟩ := mem_map.1 hx
      obtain ⟨n, hn, hfind⟩ := mem_filterMap.1 hc
      have hcn := name_of_find hfind
      subst hcn
      obtain ⟨hisSome, hparent⟩ := hchild.1 hn
      obtain ⟨hpre, hlt, -⟩ := length_lt_of_parent hparent
      exact ⟨hisSome, hpre, hlt, (hnearest hpre hlt).1 hparent⟩
    · rintro ⟨hisSome, hpre, hlt, hnil⟩
      have hx := hchild.2 ⟨hisSome, (hnearest hpre hlt).2 hnil⟩
      obtain ⟨c, hc⟩ := isSome_iff_exists.1 hisSome
      exact mem_map.2 ⟨c, mem_filterMap.2 ⟨x, hx, hc⟩, name_of_find hc⟩

theorem isRoots_descendants (hq : rib.find q = none) :
    IsRoots rib q ((rib.findDescendantsForNonInsertedName q).filter
      (·.parent == (rib.findParent q).map name)) := by
  have hparent : (rib.findParent q).map name = (above rib.find q).head?.map Prod.fst := by
    rw [findParent_eq]
    cases hhead : (above rib.find q).head? with
    | none => rfl
    | some x => exact congrArg some (name_of_find (mem_above.1 (mem_of_mem_head? hhead)).2.2)
  have hbetween := fun x => between_eq_nil_iff rib.find (q := q) (k := x)
  rw [hq] at hbetween
  constructor
  · intro e he
    exact h.find_of_mem (mem_filter.1 (mem_filter.1 he).1).1
  · intro x
    rw [List.mem_map]
    constructor
    · rintro ⟨e, he, rfl⟩
      obtain ⟨hdesc, hpe⟩ := mem_filter.1 he
      obtain ⟨hmem, hpre⟩ := mem_filter.1 hdesc
      replace hpre : q <+: e.name := isPrefixOf_iff_prefix.1 hpre
      have hfind := h.find_of_mem hmem
      have hne : q ≠ e.name := by
        rintro rfl
        rw [hq] at hfind
        cases hfind
      have hlt : q.length < e.name.length :=
        Nat.lt_of_le_of_ne hpre.length_le fun heq => hne (hpre.eq_of_length heq)
      rw [beq_iff_eq, hparent, h.parent e hmem] at hpe
      exact ⟨by rw [hfind]; rfl, hpre, hlt, (hbetween _ hpre hlt).1 hpe⟩
    · rintro ⟨hx, hpre, hlt, hnil⟩
      obtain ⟨e, he⟩ := isSome_iff_exists.1 hx
      have hname := name_of_find he
      have hmem := mem_of_find he
      subst hname
      refine ⟨e, mem_filter.2 ⟨mem_filter.2 ⟨hmem, ?_⟩, ?_⟩, rfl⟩
      · exact isPrefixOf_iff_prefix.2 hpre
      · rw [beq_iff_eq, hparent, h.parent e hmem]
        exact (hbetween _ hpre hlt).2 hnil

end

/-! ## Names of records -/

/-- All records are for names that meet a condition. -/
def RecordsIn (ok : List κ → Prop) (t : FibUpdater κ) : Prop := ∀ u ∈ t.inheritedRoutes, ok u.name

section

variable {ok : List κ → Prop} {t : FibUpdater κ} (h : RecordsIn ok t)
include h

theorem RecordsIn.addFibUpdate (u : FibUpdate κ) : RecordsIn ok (t.addFibUpdate u) := by
  rw [RecordsIn, inheritedRoutes_addFibUpdate]
  exact h

omit [LinearOrder κ] in
theorem RecordsIn.append {u : RibUpdate κ} (hu : ok u.name) :
    RecordsIn ok { t with inheritedRoutes := t.inheritedRoutes ++ [u] } := by
  intro x hx
  rcases mem_append.1 hx with hx | hx
  · exact h x hx
  · rw [mem_singleton.1 hx]
    exact hu

theorem RecordsIn.addInheritedRoutesIgnoring {n : List κ} (hn : ok n) (set : RouteSet)
    (ignore : Route) : RecordsIn ok (t.addInheritedRoutesIgnoring n set ignore) := by
  refine foldlRecOn _ _ h fun t ht r _ => ?_
  split
  · exact (ht.append hn).addFibUpdate _
  · exact ht

theorem RecordsIn.addInheritedRoutes {e : RibEntry κ} (he : ok e.name) (set : RouteSet) :
    RecordsIn ok (t.addInheritedRoutes e set) := by
  refine foldlRecOn _ _ h fun t ht r _ => ?_
  split
  · exact (ht.append he).addFibUpdate _
  · exact ht

theorem RecordsIn.removeInheritedRoutes {e : RibEntry κ} (he : ok e.name) (set : RouteSet) :
    RecordsIn ok (t.removeInheritedRoutes e set) := by
  refine foldlRecOn _ _ h fun t ht r _ => ?_
  split
  · exact (ht.append he).addFibUpdate _
  · exact ht

theorem RecordsIn.modifyChildrens {rib : Rib κ} (hrib : ∀ p, (rib.find p).isSome = true → ok p)
    {children : List (RibEntry κ)} (hchildren : ∀ e ∈ children, rib.find e.name = some e)
    (add remove : RouteSet) :
    RecordsIn ok (t.modifyChildrensInheritedRoutes rib children add remove) := by
  rw [modifyChildrens_eq rib t hchildren]
  refine foldlRecOn _ _ h fun t ht x _ => ?_
  rw [visit]
  cases hfind : rib.find x.1 with
  | none => exact ht
  | some e =>
    have he : ok e.name := hrib _ (by rw [name_of_find hfind, hfind]; rfl)
    exact (ht.removeInheritedRoutes he _).addInheritedRoutes he _

end

end FibUpdater

namespace Rib

theorem contentAt_modifyInherited {rib : Rib κ} {u : RibUpdate κ}
    (hu : (rib.find u.name).isSome = true) :
    ∃ rib', rib.modifyInherited u = .ok rib' ∧ ∀ p, rib'.contentAt p =
      (rib.contentAt p).map fun x => (x.1, if u.name = p then u.applyTo x.2 else x.2) := by
  obtain ⟨e, he⟩ := isSome_iff_exists.1 hu
  obtain ⟨action, n, r⟩ := u
  rw [modifyInherited, he]
  refine ⟨_, rfl, fun p => ?_⟩
  cases action with
  | register =>
    exact contentAt_modify (f := (·.addInheritedRoute r)) (g := (· ++ [r])) (fun _ => rfl)
      (fun _ => rfl) (fun _ => rfl) rib n p
  | unregister =>
    exact contentAt_modify (f := (·.removeInheritedRoute r))
      (g := (·.filter (·.faceId != r.faceId)))
      (fun _ => rfl) (fun _ => rfl) (fun _ => rfl) rib n p
  | removeFace =>
    show rib.contentAt p = (rib.contentAt p).map fun x => (x.1, if n = p then x.2 else x.2)
    simp only [ite_self]
    exact (Option.map_id').symm

/-- **The records are applied**, if their entries are there. -/
theorem contentAt_modifyInheritedRoutes {rib : Rib κ} {us : List (RibUpdate κ)}
    (hus : ∀ u ∈ us, (rib.find u.name).isSome = true) :
    ∃ rib', rib.modifyInheritedRoutes us = .ok rib' ∧ ∀ p, rib'.contentAt p =
      (rib.contentAt p).map fun x => (x.1, recorded us p x.2) := by
  induction us generalizing rib with
  | nil => exact ⟨rib, rfl, fun p => map_id'.symm⟩
  | cons u us ih =>
    rw [forall_mem_cons] at hus
    obtain ⟨rib₁, hstep, hcontent⟩ := contentAt_modifyInherited hus.1
    have hfind : ∀ p, (rib₁.find p).isSome = (rib.find p).isSome := by
      intro p
      have hp := congrArg isSome (hcontent p)
      rw [contentAt, contentAt, isSome_map, isSome_map, isSome_map] at hp
      exact hp
    obtain ⟨rib₂, hrest, hcontent'⟩ := ih fun u hu => (hfind u.name).trans (hus.2 u hu)
    refine ⟨rib₂, ?_, fun p => ?_⟩
    · show (rib.modifyInherited u >>= fun rib => us.foldlM modifyInherited rib) = _
      rw [hstep]
      exact hrest
    · rw [hcontent', hcontent, Option.map_map]
      rfl

end Rib

end NdnMulticast.Nfd.Routing
