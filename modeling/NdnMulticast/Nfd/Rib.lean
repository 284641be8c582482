/-
  The Routing Information Base, after `daemon/rib/rib.cpp`, `daemon/rib/rib-entry.cpp` and
  `daemon/rib/route.hpp`.

  Entries are found by their names, so a reference is a name here.  The table is in the order
  of the names; of the components of names nothing matters but that they are ordered.
-/

import Mathlib.Data.List.Lex
import NdnMulticast.Lib.Hierarchy
import NdnMulticast.Lib.Sorted

namespace NdnMulticast.Nfd.Routing

open Lib List Option Function Prod

/-! ## Routes -/

structure Route where
  faceId : Nat
  origin : Nat
  cost : Nat
  flags : Nat
deriving DecidableEq, Repr

namespace Route

/-- `ROUTE_FLAG_CHILD_INHERIT` is set. -/
def isChildInherit (r : Route) : Bool := r.flags &&& 1 != 0

/-- `ROUTE_FLAG_CAPTURE` is set. -/
def isRibCapture (r : Route) : Bool := r.flags &&& 2 != 0

def compareFaceIdAndOrigin (lhs rhs : Route) : Bool :=
  lhs.faceId == rhs.faceId && lhs.origin == rhs.origin

end Route

/-- A `std::set` of routes that are compared by `sortRoutes`. -/
structure RouteSet where
  routes : List Route
  sorted : Increasing Route.faceId routes

namespace RouteSet

def empty : RouteSet := ⟨[], List.Pairwise.nil⟩

variable (set : RouteSet) (r : Route) (f : Nat)

/-- `insert`: a route on a face that has one already is not inserted. -/
def insert : RouteSet :=
  ⟨insertByKey Route.faceId r set.routes, set.sorted.insertByKey⟩

def find (set : RouteSet) (faceId : Nat) : Option Route := set.routes.find? (·.faceId == faceId)

/-- What is left when some routes are erased. -/
def filter (p : Route → Bool) (set : RouteSet) : RouteSet :=
  ⟨set.routes.filter p, List.Pairwise.filter p set.sorted⟩

/-- `erase`, of the route on a face. -/
def erase (faceId : Nat) : RouteSet := set.filter (·.faceId != faceId)

theorem find_empty : empty.find f = none := rfl

theorem find_insert :
    (set.insert r).find f = (set.find f).or (if r.faceId == f then some r else none) :=
  find?_insertByKey (k := f) set.sorted fun _ => beq_iff_eq

theorem find_empty_insert : (empty.insert r).find f = if r.faceId == f then some r else none := by
  rw [find_insert, find_empty, none_or]

theorem find_filter {p : Nat → Bool} (set : RouteSet) (f : Nat) :
    (set.filter fun r => p r.faceId).find f = if p f then set.find f else none := by
  show (set.routes.filter _).find? _ = if p f then set.routes.find? _ else none
  cases hp : p f with
  | true => grind
  | false => grind

end RouteSet

/-! ## Entries -/

variable {κ : Type} [LinearOrder κ]

structure RibEntry (κ : Type) where
  name : List κ
  parent : Option (List κ)
  children : List (List κ)
  routes : List Route
  inheritedRoutes : List Route
  nRoutesWithCaptureSet : Nat
deriving DecidableEq, Repr

namespace RibEntry

/-- A new entry, after `setName`. -/
def new (name : List κ) : RibEntry κ := ⟨name, none, [], [], [], 0⟩

variable (e : RibEntry κ) (faceId : Nat) (r : Route)

/-- An entry without its links. -/
def unlinked : RibEntry κ := { e with parent := none, children := [] }

def findRoute : Option Route :=
  e.routes.find? (·.compareFaceIdAndOrigin r)

/-- `insertRoute`, of a route that is new. -/
def pushRoute : RibEntry κ :=
  { e with
    routes := e.routes ++ [r]
    nRoutesWithCaptureSet := e.nRoutesWithCaptureSet + if r.isRibCapture then 1 else 0 }

/-- The route that `findRoute` finds is replaced; the number of captures stays what it was. -/
def replaceRoute (f : Route → Route) : RibEntry κ :=
  let rec replace : List Route → List Route
    | [] => []
    | x :: xs => if x.compareFaceIdAndOrigin r then f x :: xs else x :: replace xs
  { e with routes := replace e.routes }

def hasFaceId : Bool := e.routes.any (·.faceId == faceId)

def hasCapture : Bool := decide (0 < e.nRoutesWithCaptureSet)

def hasChildInheritOnFaceId : Bool :=
  e.routes.any fun r => r.faceId == faceId && r.isChildInherit

def addInheritedRoute : RibEntry κ :=
  { e with inheritedRoutes := e.inheritedRoutes ++ [r] }

def removeInheritedRoute : RibEntry κ :=
  { e with inheritedRoutes := e.inheritedRoutes.filter (·.faceId != r.faceId) }

def hasInheritedRoute : Bool :=
  e.inheritedRoutes.any (·.faceId == r.faceId)

/-- The first one of the cheapest routes. -/
def cheapest (routes : List Route) : Option Route :=
  routes.foldl (fun candidate r =>
    match candidate with
    | none => some r
    | some c => if r.cost < c.cost then some r else some c) none

def getRouteWithLowestCostByFaceId : Option Route :=
  cheapest (e.routes.filter (·.faceId == faceId))

def getRouteWithLowestCostAndChildInheritByFaceId : Option Route :=
  cheapest (e.routes.filter fun r => r.faceId == faceId && r.isChildInherit)

end RibEntry

/-! ## The table -/

structure Rib (κ : Type) where
  /-- By increasing names. -/
  table : List (RibEntry κ)
  nItems : Nat
  faceEntries : List (Nat × List κ)
deriving DecidableEq, Repr

namespace Rib

def find (rib : Rib κ) (name : List κ) : Option (RibEntry κ) := rib.table.find? (·.name == name)

variable (faceId : Nat) (routes : List Route) (rib : Rib κ) (name : List κ) (route : Route)

/-- The entry of a name is changed. -/
def modify (f : RibEntry κ → RibEntry κ) : Rib κ :=
  { rib with table := rib.table.map fun e => if e.name == name then f e else e }

/-- The loop of `findParent`, over the prefixes that are shorter than `i`. -/
def findParentFrom (rib : Rib κ) (name : List κ) : Nat → Option (RibEntry κ)
  | 0 => none
  | i + 1 =>
    match rib.find (name.take i) with
    | some e => some e
    | none => rib.findParentFrom name i

def findParent : Option (RibEntry κ) :=
  rib.findParentFrom name name.length

/-- What follows the entry of the name in the table, as long as it is below the name. -/
def findDescendants : List (RibEntry κ) :=
  ((rib.table.dropWhile (·.name != name)).drop 1).takeWhile (name.isPrefixOf ·.name)

def findDescendantsForNonInsertedName : List (RibEntry κ) :=
  rib.table.filter (name.isPrefixOf ·.name)

def addChild (parent child : List κ) : Rib κ :=
  (rib.modify child fun e => { e with parent := some parent }).modify parent
    fun e => { e with children := e.children ++ [child] }

def removeChild (parent child : List κ) : Rib κ :=
  (rib.modify child fun e => { e with parent := none }).modify parent
    fun e => { e with children := e.children.filter (· != child) }

/-- A descendant of a new entry that has the same parent becomes its child. -/
def adopt (parent : Option (List κ)) (name : List κ) (rib : Rib κ) (child : List κ) : Rib κ :=
  if (rib.find child).any (·.parent == parent) then
    ((parent.map fun p => rib.removeChild p child).getD rib).addChild name child
  else rib

/-- The part of `insert` for a new name. -/
def insertEntry : Rib κ :=
  let rib := { rib with
    table := insertByKey RibEntry.name ((RibEntry.new name).pushRoute route) rib.table
    nItems := rib.nItems + 1 }
  let parent := (rib.findParent name).map RibEntry.name
  let rib := (parent.map fun p => rib.addChild p name).getD rib
  let rib := ((rib.findDescendants name).map RibEntry.name).foldl (adopt parent name) rib
  { rib with faceEntries := rib.faceEntries ++ [(route.faceId, name)] }

def insert : Rib κ :=
  match rib.find name with
  | none => rib.insertEntry name route
  | some entry =>
    match entry.findRoute route with
    | none =>
      let rib := rib.modify name (·.pushRoute route)
      { rib with
        nItems := rib.nItems + 1
        faceEntries := rib.faceEntries ++ [(route.faceId, name)] }
    | some _ => rib.modify name (·.replaceRoute route fun _ => route)

/-- The loop of `getAncestorRoutes`; a parent has a shorter name, so `fuel` suffices. -/
def ancestorLoop (rib : Rib κ) : Nat → Option (RibEntry κ) → RouteSet → RouteSet
  | 0, _, routes => routes
  | _, none, routes => routes
  | fuel + 1, some parent, routes =>
    let routes := parent.routes.foldl
      (fun routes r => if r.isChildInherit then routes.insert r else routes) routes
    if parent.hasCapture then routes
    else rib.ancestorLoop fuel (parent.parent.bind rib.find) routes

/-- `getAncestorRoutes(const RibEntry&)`. -/
def getAncestorRoutesOf (entry : RibEntry κ) : RouteSet :=
  rib.ancestorLoop entry.name.length (entry.parent.bind rib.find) .empty

/-- `getAncestorRoutes(const Name&)`. -/
def getAncestorRoutes : RouteSet :=
  rib.ancestorLoop name.length (rib.findParent name) .empty

/-! ## References -/

/-- The names are in order, and an entry refers to the nearest entry above it and to those that
    refer to it. -/
structure Linked (rib : Rib κ) : Prop where
  sorted : Increasing RibEntry.name rib.table
  parent : ∀ e ∈ rib.table, e.parent = (above rib.find e.name).head?.map Prod.fst
  children : ∀ e ∈ rib.table, ∀ x, x ∈ e.children ↔
    ∃ e' ∈ rib.table, e'.name = x ∧ e'.parent = some e.name

/-- `m_nRoutesWithCaptureSet` is right.  The branch of `insert` for a route that is there leaves it
    as it is, so it is not after an update that changes the Capture flag. -/
def CountsCaptures (rib : Rib κ) : Prop :=
  ∀ e ∈ rib.table, e.nRoutesWithCaptureSet = e.routes.countP Route.isRibCapture

structure WellFormed (rib : Rib κ) : Prop extends Linked rib where
  counted : rib.CountsCaptures

section

variable {rib : Rib κ} {n : List κ} {e : RibEntry κ}

theorem name_of_find (h : rib.find n = some e) : e.name = n := by
  have htest := find?_some h
  exact beq_iff_eq.1 htest

theorem mem_of_find (h : rib.find n = some e) : e ∈ rib.table := mem_of_find?_eq_some h

theorem WellFormed.find_of_mem (h : rib.WellFormed) (he : e ∈ rib.table) :
    rib.find e.name = some e :=
  find?_of_mem (k := e.name) h.sorted (fun _ => beq_iff_eq) he rfl

theorem WellFormed.parent_bind_find (h : rib.WellFormed) (he : e ∈ rib.table) :
    e.parent.bind rib.find = (above rib.find e.name).head?.map snd := by
  rw [h.parent e he]
  cases hhead : (above rib.find e.name).head? with
  | none => rfl
  | some x => exact (mem_above.1 (mem_of_mem_head? hhead)).2.2

theorem findParent_eq (rib : Rib κ) (n : List κ) :
    rib.findParent n = (above rib.find n).head?.map snd := by
  have hall : ∀ i, rib.findParentFrom n i = (aboveFrom rib.find n i).head?.map snd := by
    intro i
    induction i with
    | zero => rfl
    | succ i ih => grind [findParentFrom, aboveFrom]
  exact hall n.length

theorem find_modify {f : RibEntry κ → RibEntry κ} (hf : ∀ e, (f e).name = e.name) (rib : Rib κ)
    (n p : List κ) :
    (rib.modify n f).find p = (rib.find p).map fun e => if p = n then f e else e := by
  show (rib.table.map _).find? _ = (rib.table.find? _).map _
  rw [find?_map]
  have hname : ∀ e : RibEntry κ, (if e.name == n then f e else e).name = e.name := by
    intro e
    split
    · exact hf e
    · rfl
  have htest : ((fun e : RibEntry κ => e.name == p) ∘ fun e => if e.name == n then f e else e) =
      fun e => e.name == p := by
    funext e
    show ((if e.name == n then f e else e).name == p) = _
    rw [hname]
  rw [htest]
  cases hfind : rib.table.find? (·.name == p) with
  | none => rfl
  | some e => grind

/-- An entry may change whatever it says beside its name and its links. -/
theorem WellFormed.modify {f : RibEntry κ → RibEntry κ} (h : rib.WellFormed)
    (hlinks : ∀ e, (f e).name = e.name ∧ (f e).parent = e.parent ∧ (f e).children = e.children)
    (hcounted : ∀ e, e.nRoutesWithCaptureSet = e.routes.countP Route.isRibCapture →
      (f e).nRoutesWithCaptureSet = (f e).routes.countP Route.isRibCapture) :
    (rib.modify n f).WellFormed := by
  have hsame : ∀ e : RibEntry κ, (if e.name == n then f e else e).name = e.name ∧
      (if e.name == n then f e else e).parent = e.parent ∧
      (if e.name == n then f e else e).children = e.children := by
    intro e
    split
    · exact hlinks e
    · exact ⟨rfl, rfl, rfl⟩
  have hnames : ∀ p, ((rib.modify n f).find p).map (fun _ => ()) =
      (rib.find p).map fun _ => () := by
    intro p
    rw [find_modify fun e => (hlinks e).1, Option.map_map]
  have habove : ∀ p, (above (rib.modify n f).find p).head?.map Prod.fst =
      (above rib.find p).head?.map Prod.fst := by
    intro p
    have hunit := congrArg (fun value => (above value p).head?.map Prod.fst) (funext hnames)
    simpa [above_map, Function.comp_def] using hunit
  refine ⟨⟨?_, ?_, ?_⟩, ?_⟩
  · exact pairwise_map.2 (h.sorted.imp fun hlt => by rwa [(hsame _).1, (hsame _).1])
  · rintro _ hmem
    obtain ⟨e, he, rfl⟩ := mem_map.1 hmem
    rw [(hsame e).1, (hsame e).2.1, habove, h.parent e he]
  · rintro _ hmem x
    obtain ⟨e, he, rfl⟩ := mem_map.1 hmem
    rw [(hsame e).1, (hsame e).2.2, h.children e he]
    show _ ↔ ∃ e' ∈ rib.table.map _, _
    simp only [List.mem_map, exists_exists_and_eq_and, fun e => (hsame e).1, fun e => (hsame e).2.1]
  · rintro _ hmem
    obtain ⟨e, he, rfl⟩ := mem_map.1 hmem
    split
    · exact hcounted e (h.counted e he)
    · exact h.counted e he

end

/-! ## Inherited routes -/

/-- A route on the face is for children. -/
def inheritsOn : Bool :=
  routes.any fun r => r.faceId == faceId && r.isChildInherit

def captures : Bool := routes.any Route.isRibCapture

/-- The first route on the face that is for children. -/
def firstInherited : Option Route :=
  routes.find? fun r => r.faceId == faceId && r.isChildInherit

def routesAt : Option (List Route) :=
  (rib.find name).map RibEntry.routes

/-- The routes of the entries above a name, the nearest first. -/
def ancestors : List (List Route) :=
  (above rib.routesAt name).map Prod.snd

/-- The routes a face is inherited from: the nearest for children on it, up to one that captures. -/
def source (chain : List (List Route)) : Option (List Route) :=
  searchUp (inheritsOn faceId) captures chain

section

variable {rib : Rib κ} {n : List κ} {e : RibEntry κ}

theorem ancestors_eq (rib : Rib κ) (n : List κ) :
    rib.ancestors n = (above rib.find n).map fun x => x.2.routes := by
  show (above (fun n => (rib.find n).map RibEntry.routes) n).map snd = _
  rw [above_map, List.map_map]
  rfl

theorem WellFormed.hasCapture (h : rib.WellFormed) (he : e ∈ rib.table) :
    e.hasCapture = captures e.routes := by
  rw [RibEntry.hasCapture, h.counted e he, Bool.eq_iff_iff, decide_eq_true_eq, List.countP_pos_iff,
    captures, List.any_eq_true]

theorem find_foldl_insert (routes : List Route) (set : RouteSet) (f : Nat) :
    (routes.foldl (fun set r => if r.isChildInherit then set.insert r else set) set).find f =
      (set.find f).or (firstInherited f routes) := by
  induction routes generalizing set with
  | nil => exact (or_none).symm
  | cons r routes ih =>
    rw [List.foldl_cons, ih, firstInherited, firstInherited, List.find?_cons]
    cases hchild : r.isChildInherit with
    | false => rw [if_neg (by decide), Bool.and_false]
    | true => grind [RouteSet.find_insert]

theorem firstInherited_isSome (f : Nat) (routes : List Route) :
    (firstInherited f routes).isSome = inheritsOn f routes := by
  rw [Bool.eq_iff_iff, firstInherited, List.find?_isSome, inheritsOn, List.any_eq_true]

/-- The loop adds the first route of what the face is inherited from. -/
theorem find_ancestorLoop (h : rib.WellFormed) {fuel : Nat} (f : Nat) {set : RouteSet}
    (hfuel : (above rib.find n).length ≤ fuel) :
    (rib.ancestorLoop fuel ((above rib.find n).head?.map snd) set).find f =
      (set.find f).or ((source f (rib.ancestors n)).bind (firstInherited f)) := by
  rw [ancestors_eq]
  generalize hchain : above rib.find n = chain at hfuel ⊢
  induction chain generalizing n fuel set with
  | nil =>
    have hend : rib.ancestorLoop fuel none set = set := by
      cases fuel with
      | zero => rfl
      | succ fuel => rfl
    show (rib.ancestorLoop fuel none set).find f = (set.find f).or none
    rw [hend, or_none]
  | cons x chain ih =>
    obtain ⟨k, e⟩ := x
    obtain ⟨fuel, rfl⟩ := Nat.exists_eq_succ_of_ne_zero (n := fuel) (by
      rw [length_cons] at hfuel
      omega)
    have hrest := above_cons hchain
    have hfind : rib.find k = some e :=
      (mem_above.1 (hchain ▸ (.head _) : (k, e) ∈ above rib.find n)).2.2
    have hmem := mem_of_find hfind
    have hparent : e.parent.bind rib.find = chain.head?.map snd := by
      rw [h.parent_bind_find hmem, name_of_find hfind, hrest]
    have hfirst := firstInherited_isSome f e.routes
    have hset := find_foldl_insert e.routes set f
    show (rib.ancestorLoop (fuel + 1) (some e) set).find f =
      (set.find f).or ((source f (e.routes :: chain.map fun x => x.2.routes)).bind _)
    rw [ancestorLoop, source, searchUp, apply_ite (fun set : RouteSet => set.find f), hparent,
      ih hrest.symm (Nat.le_of_succ_le_succ hfuel), hset, h.hasCapture hmem]
    cases hin : inheritsOn f e.routes with
    | true =>
      rw [hin] at hfirst
      obtain ⟨r, hr⟩ := isSome_iff_exists.1 hfirst
      rw [if_pos rfl, Option.bind_some, hr, Option.or_assoc, Option.some_or, ite_self]
    | false =>
      rw [hin, isSome_eq_false_iff, isNone_iff_eq_none] at hfirst
      rw [hfirst, or_none, if_neg Bool.false_ne_true]
      cases captures e.routes with
      | true => exact (or_none).symm
      | false => rfl

/-- **The routes that a name inherits.** -/
theorem find_getAncestorRoutes (h : rib.WellFormed) (n : List κ) (f : Nat) :
    (rib.getAncestorRoutes n).find f = (source f (rib.ancestors n)).bind (firstInherited f) := by
  rw [getAncestorRoutes, findParent_eq, find_ancestorLoop h f (length_above_le _ _)]
  rfl

theorem find_getAncestorRoutesOf (h : rib.WellFormed) (he : e ∈ rib.table) (f : Nat) :
    (rib.getAncestorRoutesOf e).find f =
      (source f (rib.ancestors e.name)).bind (firstInherited f) := by
  rw [getAncestorRoutesOf, h.parent_bind_find he, find_ancestorLoop h f (length_above_le _ _)]
  rfl

end

/-! ## Insertion -/

/-- The routes at a name, its own and the inherited ones. -/
def contentAt : Option (List Route × List Route) :=
  (rib.find name).map fun e => (e.routes, e.inheritedRoutes)

/-- The entries without their links, and the face lookup table. -/
def unlinked (rib : Rib κ) : (List κ → Option (RibEntry κ)) × List (Nat × List κ) :=
  (fun name => (rib.find name).map RibEntry.unlinked, rib.faceEntries)

section

variable {rib : Rib κ} {q : List κ} {f : RibEntry κ → RibEntry κ}

theorem contentAt_modify {g : List Route → List Route} (hname : ∀ e, (f e).name = e.name)
    (hroutes : ∀ e, (f e).routes = e.routes)
    (hinherited : ∀ e, (f e).inheritedRoutes = g e.inheritedRoutes) (rib : Rib κ) (n p : List κ) :
    (rib.modify n f).contentAt p =
      (rib.contentAt p).map fun x => (x.1, if n = p then g x.2 else x.2) := by
  rw [contentAt, contentAt, find_modify hname, Option.map_map, Option.map_map]
  refine congrArg (fun g => (rib.find p).map g) (funext fun e => ?_)
  show ((if p = n then f e else e).routes, (if p = n then f e else e).inheritedRoutes) =
    (e.routes, if n = p then g e.inheritedRoutes else e.inheritedRoutes)
  by_cases hp : p = n
  · rw [if_pos hp, if_pos hp.symm, hroutes, hinherited]
  · rw [if_neg hp, if_neg (Ne.symm hp)]

theorem contentAt_modify_routes {e : RibEntry κ} {routes : List Route} (he : rib.find q = some e)
    (hname : ∀ e, (f e).name = e.name) (hroutes : (f e).routes = routes)
    (hinherited : (f e).inheritedRoutes = e.inheritedRoutes) :
    (rib.modify q f).contentAt = update rib.contentAt q (some (routes, e.inheritedRoutes)) := by
  funext p
  rw [contentAt, find_modify hname]
  by_cases hp : p = q
  · simp_all
  · simp_all [contentAt]

theorem unlinked_modify_links (hname : ∀ e, (f e).name = e.name)
    (hf : ∀ e, (f e).unlinked = e.unlinked) (rib : Rib κ) (n : List κ) :
    (rib.modify n f).unlinked = rib.unlinked := by
  refine congrArg (·, rib.faceEntries) (funext fun p => ?_)
  rw [find_modify hname, Option.map_map]
  refine congrArg (fun g => (rib.find p).map g) (funext fun e => ?_)
  rw [comp_apply, apply_ite RibEntry.unlinked, hf, ite_self]

theorem unlinked_addChild (rib : Rib κ) (parent child : List κ) :
    (rib.addChild parent child).unlinked = rib.unlinked := by
  rw [addChild, unlinked_modify_links, unlinked_modify_links]
  all_goals exact fun _ => rfl

theorem unlinked_removeChild (rib : Rib κ) (parent child : List κ) :
    (rib.removeChild parent child).unlinked = rib.unlinked := by
  rw [removeChild, unlinked_modify_links, unlinked_modify_links]
  all_goals exact fun _ => rfl

theorem unlinked_adopt (parent : Option (List κ)) (name : List κ) (rib : Rib κ) (child : List κ) :
    (adopt parent name rib child).unlinked = rib.unlinked := by
  rw [adopt]
  split
  · rw [unlinked_addChild]
    cases parent with
    | none => rfl
    | some p => exact unlinked_removeChild rib p child
  · rfl

theorem unlinked_foldl {g : Rib κ → List κ → Rib κ}
    (hg : ∀ rib n, (g rib n).unlinked = rib.unlinked)
    (ns : List (List κ)) (rib : Rib κ) : (ns.foldl g rib).unlinked = rib.unlinked := by
  induction ns generalizing rib with
  | nil => rfl
  | cons n ns ih => exact (ih _).trans (hg rib n)

theorem unlinked_insertEntry (hnew : rib.find q = none) (r : Route) :
    (rib.insertEntry q r).unlinked =
      (update rib.unlinked.1 q (some ((RibEntry.new q).pushRoute r)),
        rib.faceEntries ++ [(r.faceId, q)]) := by
  have hparent : ∀ (parent : Option (List κ)) (rib : Rib κ),
      ((parent.map fun p => rib.addChild p q).getD rib).unlinked = rib.unlinked := by
    intro parent rib
    cases parent with
    | none => rfl
    | some p => exact unlinked_addChild rib p q
  refine (congrArg (fun x => (x.1, x.2 ++ [(r.faceId, q)])) ((unlinked_foldl
    (unlinked_adopt _ q) _ _).trans (hparent _ _))).trans ?_
  refine congrArg (·, rib.faceEntries ++ [(r.faceId, q)]) (funext fun p => ?_)
  show ((insertByKey _ _ rib.table).find? _).map _ = _
  rw [find?_insertByKey_new, update_apply]
  · show Option.map _ (if q == p then _ else rib.find p) = _
    by_cases hp : p = q
    · simp [hp]
      rfl
    · rw [if_neg hp, if_neg fun h => hp (beq_iff_eq.1 h).symm]
      rfl
  · intro e he heq
    exact find?_eq_none.1 hnew e he (beq_iff_eq.2 heq)
  · intro e he hq
    exact (beq_iff_eq.1 he).trans (beq_iff_eq.1 hq).symm

theorem contentAt_insertEntry (hnew : rib.find q = none) (r : Route) :
    (rib.insertEntry q r).contentAt = update rib.contentAt q (some ([r], [])) := by
  funext p
  have hview := congrArg (fun x => (x.1 p).map fun e => (e.routes, e.inheritedRoutes))
    (unlinked_insertEntry hnew r)
  dsimp only [unlinked] at hview
  rw [Option.map_map, update_apply, apply_ite (Option.map _), Option.map_map] at hview
  rw [update_apply]
  exact hview

end

/-! ## The longest prefix with a route -/

/-- `find(const Name&, const Route&)`. -/
def findRoute (rib : Rib κ) (name : List κ) (route : Route) : Option Route :=
  (rib.find name).bind (·.findRoute route)

def findLongestPrefix : Option Route :=
  match rib.findRoute name route with
  | some existingRoute => some existingRoute
  | none =>
    match rib.findParent name with
    | some parent => rib.findRoute parent.name route
    | none => none

section

variable {rib : Rib κ} {n p : List κ} {e : RibEntry κ} {r x : Route}

theorem findParent_nearest (h : rib.findParent n = some e) :
    e.name <+: n ∧ ∀ p, p <+: n → p ≠ n → (rib.find p).isSome = true →
      p.length ≤ e.name.length := by
  rw [findParent_eq] at h
  obtain ⟨⟨k, e'⟩, hhead, rfl⟩ := map_eq_some_iff.1 h
  obtain ⟨hk, -, hfind⟩ := mem_above.1 (mem_of_mem_head? hhead)
  obtain ⟨rest, hrest⟩ := head?_eq_some_iff.1 hhead
  rw [name_of_find hfind]
  refine ⟨hk, fun p hp hne hsome => ?_⟩
  have hlt : p.length < n.length :=
    Nat.lt_of_le_of_ne hp.length_le fun heq => hne (hp.eq_of_length heq)
  obtain ⟨b, hb⟩ := isSome_iff_exists.1 hsome
  have hmem : (p, b) ∈ above rib.find n := mem_above.2 ⟨hp, hlt, hb⟩
  rw [hrest] at hmem
  rcases mem_cons.1 hmem with heq | hmem
  · rw [(Prod.mk.inj heq).1]
  · rw [above_cons hrest] at hmem
    exact Nat.le_of_lt (mem_above.1 hmem).2.1

theorem effective_of_findLongestPrefix (h : rib.findLongestPrefix n r = some x) :
    Effective (rib.findRoute · r) n x := by
  unfold findLongestPrefix at h
  cases hown : rib.findRoute n r with
  | some y =>
    rw [hown] at h
    exact effective_self (hown.trans h)
  | none =>
    rw [hown] at h
    cases hparent : rib.findParent n with
    | none =>
      rw [hparent] at h
      cases h
    | some e =>
      rw [hparent] at h
      obtain ⟨hpre, hnearest⟩ := findParent_nearest hparent
      refine ⟨e.name, h, hpre, fun p hp hsome => hnearest p hp ?_ ?_⟩
      · rintro rfl
        exact ne_none_iff_isSome.2 hsome hown
      · exact isSome_of_isSome_bind hsome

theorem findLongestPrefix_isSome_iff (rib : Rib κ) (n : List κ) (r : Route) :
    (rib.findLongestPrefix n r).isSome = true ↔ (rib.findRoute n r).isSome = true ∨
      ∃ e, rib.findParent n = some e ∧ (rib.findRoute e.name r).isSome = true := by
  unfold findLongestPrefix
  cases rib.findRoute n r with
  | some y => simp
  | none => grind

end

end Rib

end NdnMulticast.Nfd.Routing
