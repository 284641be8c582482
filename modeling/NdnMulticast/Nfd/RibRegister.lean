/-
  Registrations: whether the FIB and the lists of inherited routes are right again after the
  updates that are computed for them.

  They are not in all cases, and for each kind of registration a condition says exactly when.
  The effects of the updater's steps compose, one name and face at a time.
-/

import NdnMulticast.Nfd.RibConsistency

namespace NdnMulticast.Nfd.Routing

open Lib Ndn List Option Rib Cell FibUpdater

variable {κ : Type} [LinearOrder κ]

section

open Function

/-! ## What is offered -/

/-- The cost of the first route for children, where `offered` has that of the cheapest. -/
def firstOffered (f : Nat) (chain : List (List Route)) : Option Nat :=
  ((Rib.source f chain).bind (Rib.firstInherited f)).map Route.cost

section

variable {f : Nat} {chain : List (List Route)} {routes : List Route}

theorem lowestInherited_isSome (f : Nat) (routes : List Route) :
    (lowestInherited f routes).isSome = inheritsOn f routes := by
  rw [Bool.eq_iff_iff, ← ne_none_iff_isSome, Ne, lowestInherited, lowest_eq_none_iff,
    Bool.not_eq_false]
  rfl

theorem offered_isSome (f : Nat) (chain : List (List Route)) :
    (offered f chain).isSome = (source f chain).isSome := by
  rw [offered]
  cases hsource : source f chain with
  | none => rfl
  | some routes => exact (lowestInherited_isSome f routes).trans (found_of_searchUp hsource)

theorem firstOffered_isSome (f : Nat) (chain : List (List Route)) :
    (firstOffered f chain).isSome = (offered f chain).isSome := by
  rw [offered_isSome, firstOffered, isSome_map]
  cases hsource : source f chain with
  | none => rfl
  | some routes => exact (firstInherited_isSome f routes).trans (found_of_searchUp hsource)

theorem firstOffered_eq_none_iff (f : Nat) (chain : List (List Route)) :
    firstOffered f chain = none ↔ offered f chain = none := by
  rw [← isNone_iff_eq_none, ← isNone_iff_eq_none, ← not_isSome, ← not_isSome, firstOffered_isSome]

theorem offered_cons (f : Nat) (routes : List Route) (chain : List (List Route)) :
    offered f (routes :: chain) =
      if inheritsOn f routes then lowestInherited f routes
      else if captures routes then none else offered f chain := by
  rw [offered, source, searchUp]
  cases inheritsOn f routes with
  | true => rfl
  | false =>
    cases captures routes with
    | true => rfl
    | false => rfl

theorem cost_find_getAncestorRoutes {rib : Rib κ} (h : rib.WellFormed) (q : List κ) (f : Nat) :
    ((rib.getAncestorRoutes q).find f).map Route.cost = firstOffered f (rib.ancestors q) := by
  rw [find_getAncestorRoutes h]
  rfl

/-- A face that no route is on is not offered. -/
theorem offered_of_face {f : Nat} {routes : List Route} (h : routes.any (·.faceId == f) = false)
    (chain : List (List Route)) :
    offered f (routes :: chain) = if captures routes then none else offered f chain := by
  have hnone : inheritsOn f routes = false := by
    rw [List.any_eq_false] at h
    rw [inheritsOn, List.any_eq_false]
    exact fun r hr hchild => h r hr (Bool.and_eq_true_iff.1 hchild).1
  rw [offered_cons, hnone]
  rfl

end

/-! ## In terms of costs -/

section

variable {p : Route → Bool} {f : Nat} {routes routes' : List Route}

theorem lowest_cons (p : Route → Bool) (r : Route) (routes : List Route) :
    lowest p (r :: routes) =
      if p r then some ((lowest p routes).elim r.cost (min r.cost)) else lowest p routes := by
  rw [lowest, filter_cons]
  cases p r with
  | true => rw [if_pos rfl, if_pos rfl, map_cons, List.min?_cons]; rfl
  | false => rfl

theorem lowestCost_cons (f : Nat) (r : Route) (routes : List Route) :
    lowestCost f (r :: routes) = if r.faceId == f then
      some ((lowestCost f routes).elim r.cost (min r.cost)) else lowestCost f routes :=
        lowest_cons _ _ _

theorem lowestInherited_cons (f : Nat) (r : Route) (routes : List Route) :
    lowestInherited f (r :: routes) = if r.faceId == f && r.isChildInherit then
      some ((lowestInherited f routes).elim r.cost (min r.cost)) else lowestInherited f routes :=
  lowest_cons _ _ _

theorem captures_cons (r : Route) (routes : List Route) :
    captures (r :: routes) = (r.isRibCapture || captures routes) := by
  rw [captures, any_cons, captures]

theorem lowestCost_isSome (f : Nat) (routes : List Route) :
    (lowestCost f routes).isSome = routes.any (·.faceId == f) := by
  rw [Bool.eq_iff_iff, ← ne_none_iff_isSome, Ne, lowestCost_eq_none_iff, Bool.not_eq_false]

theorem offered_eq (f : Nat) (routes : List Route) (chain : List (List Route)) :
    offered f (routes :: chain) =
      (lowestInherited f routes).or (if captures routes then none else offered f chain) := by
  rw [offered_cons, ← lowestInherited_isSome]
  cases lowestInherited f routes with
  | none => rfl
  | some c => rfl

theorem target_eq (f : Nat) (routes : List Route) (chain : List (List Route)) :
    target f routes chain = (lowestCost f routes).elim
      (inheriting (if captures routes then none else offered f chain)) fun c => (some c, ∅) := by
  have hown := lowestCost_isSome f routes
  cases hlowest : lowestCost f routes with
  | none =>
    rw [hlowest] at hown
    exact target_of_not_own hown.symm chain
  | some c =>
    rw [hlowest] at hown
    rw [target_of_own hown.symm, hlowest]
    rfl

/-! A route is compared with the cheapest one. -/

omit [LinearOrder κ] in
theorem all_lowestByFace (e : RibEntry κ) (f c : Nat) :
    (e.getRouteWithLowestCostByFaceId f).all (c ≤ ·.cost) =
      (lowestCost f e.routes).all (c ≤ ·) := by
  rw [lowestCost, lowest, ← cost_cheapest, Option.all_map]
  rfl

omit [LinearOrder κ] in
theorem all_lowestInheritedByFace (e : RibEntry κ) (f c : Nat) :
    (e.getRouteWithLowestCostAndChildInheritByFaceId f).all (c ≤ ·.cost) =
      (lowestInherited f e.routes).all (c ≤ ·) := by
  rw [lowestInherited, lowest, ← cost_cheapest, Option.all_map]
  rfl

/-! The order of the routes does not matter. -/

variable (h : routes.Perm routes')
include h

theorem lowest_perm : lowest p routes = lowest p routes' := by
  refine ext fun c => ?_
  rw [lowest_eq_some_iff, lowest_eq_some_iff]
  simp only [h.mem_iff]

variable (chain : List (List Route))

theorem offered_perm : offered f (routes :: chain) = offered f (routes' :: chain) := by
  rw [offered_eq, offered_eq, lowestInherited, lowest_perm h, captures, h.any_eq]
  rfl

theorem target_perm : target f routes chain = target f routes' chain := by
  rw [target_eq, target_eq, lowestCost, lowest_perm h, captures, h.any_eq]
  rfl

end

/-! ## Carrying a registration out -/

theorem register_eq_ok {s : State κ} {q : List κ} {r : Route} {t : FibUpdater κ}
    (hcompute : (new r.faceId).computeUpdatesForRegistration s.rib q r = .ok t)
    (hnames : t.RecordsIn fun n => ((s.rib.insert q r).find n).isSome = true) :
    ∃ s', s.register q r = .ok s' ∧ s'.fib = t.send s.fib ∧ ∀ p, s'.rib.contentAt p =
      ((s.rib.insert q r).contentAt p).map fun x => (x.1, recorded t.inheritedRoutes p x.2) := by
  obtain ⟨rib', hmodify, hcontent⟩ := contentAt_modifyInheritedRoutes hnames
  refine ⟨⟨rib', t.send s.fib⟩, ?_, rfl, hcontent⟩
  rw [State.register, hcompute]
  show ((s.rib.insert q r).modifyInheritedRoutes t.inheritedRoutes >>= _) = _
  rw [hmodify]
  rfl

/-! ## Effects -/

/-- What a step does to the cells of `q` and to those of its heirs, and that it does nothing
    else. -/
structure Effect (s : State κ) (q : List κ) (T : FibUpdater κ → FibUpdater κ)
    (own below : Nat → Cell → Cell) : Prop where
  self : ∀ t f, (T t).cell s.fib s.inherited q f = own f (t.cell s.fib s.inherited q f)
  heirs : ∀ t p e, s.rib.find p = some e → q <+: p → q.length < p.length → ∀ f,
    (T t).cell s.fib s.inherited p f =
      if s.rib.heir q f e then below f (t.cell s.fib s.inherited p f) else
        t.cell s.fib s.inherited p f
  others : ∀ t p, p ≠ q → ¬ q <+: p → ∀ f,
    (T t).cell s.fib s.inherited p f = t.cell s.fib s.inherited p f
  records : ∀ (ok : List κ → Prop) t, ok q → (∀ p, (s.rib.find p).isSome = true → ok p) →
    t.RecordsIn ok → (T t).RecordsIn ok

namespace Effect

variable {s : State κ} {q : List κ} {T T' : FibUpdater κ → FibUpdater κ}
  {own below own' below' : Nat → Cell → Cell}

theorem congr (h : Effect s q T own below) (hown : ∀ f x, own f x = own' f x)
    (hbelow : ∀ f x, below f x = below' f x) : Effect s q T own' below' := by
  have hown : own = own' := funext fun f => funext (hown f)
  have hbelow : below = below' := funext fun f => funext (hbelow f)
  rw [← hown, ← hbelow]
  exact h

theorem comp (h : Effect s q T own below) (h' : Effect s q T' own' below') :
    Effect s q (fun t => T' (T t)) (fun f x => own' f (own f x)) fun f x =>
      below' f (below f x) where
  self t f := by rw [h'.self, h.self]
  heirs t p e he hq hlt f := by
    rw [h'.heirs _ p e he hq hlt, h.heirs _ p e he hq hlt]
    cases s.rib.heir q f e with
    | true => rfl
    | false => rfl
  others t p hp hq f := by rw [h'.others _ p hp hq, h.others _ p hp hq]
  records ok t hq hok ht := h'.records ok _ hq hok (h.records ok t hq hok ht)

theorem refl : Effect s q (fun t => t) (fun _ x => x) fun _ x => x where
  self _ _ := rfl
  heirs _ _ _ _ _ _ _ := (ite_self _).symm
  others _ _ _ _ _ := rfl
  records _ _ _ _ ht := ht

theorem ite (h : Effect s q T own below) (b : Bool) :
    Effect s q (fun t => if b then T t else t) (fun f x => if b then own f x else x)
      fun f x => if b then below f x else x := by
  cases b with
  | true => exact h
  | false => exact refl

theorem of_self
    (hself : ∀ t f, (T t).cell s.fib s.inherited q f = own f (t.cell s.fib s.inherited q f))
    (hne : ∀ t p, p ≠ q → ∀ f, (T t).cell s.fib s.inherited p f = t.cell s.fib s.inherited p f)
    (hrecords : ∀ (ok : List κ → Prop) t, ok q → t.RecordsIn ok → (T t).RecordsIn ok) :
    Effect s q T own fun _ x => x where
  self := hself
  heirs t p e _ _ hlt f := by
    rw [hne t p (fun heq => Nat.lt_irrefl _ (heq ▸ hlt)), ite_self]
  others t p hp _ f := hne t p hp f
  records ok t hq _ ht := hrecords ok t hq ht

section

variable (s : State κ)

theorem addFibUpdate (u : FibUpdate κ) :
    Effect s u.name (·.addFibUpdate u) (fun f x => if f = u.faceId then (u.nextHop, x.2) else x)
      fun _ x => x := by
  refine of_self (fun t f => ?_) (fun t p hp f => ?_) fun ok t _ ht => ht.addFibUpdate u
  · rw [cell_addFibUpdate]
    simp only [true_and]
  · rw [cell_addFibUpdate, if_neg fun h => hp h.1]

theorem addInheritedRoutesIgnoring (q : List κ) (set : RouteSet) (ignore : Route) :
    Effect s q (·.addInheritedRoutesIgnoring q set ignore)
      (fun f x => if f = ignore.faceId then x else gain ((set.find f).map Route.cost) x)
      fun _ x => x := by
  refine of_self (fun t f => ?_) (fun t p hp f => ?_) fun ok t hq ht =>
    ht.addInheritedRoutesIgnoring hq set ignore
  · simp [cell_addInheritedRoutesIgnoring]
  · rw [cell_addInheritedRoutesIgnoring, if_neg fun h => hp h.1]

theorem removeInheritedRoutes (e : RibEntry κ) (set : RouteSet) :
    Effect s e.name (·.removeInheritedRoutes e set)
      (fun f x => if e.inheritedRoutes.any (·.faceId == f) then lose (set.find f).isSome x else x)
      fun _ x => x := by
  refine of_self (fun t f => ?_) (fun t p hp f => ?_) fun ok t hq ht =>
    ht.removeInheritedRoutes hq set
  · rw [cell_removeInheritedRoutes]
    simp only [true_and]
  · rw [cell_removeInheritedRoutes, if_neg fun h => hp h.1]

end

theorem modifyChildrens {children : List (RibEntry κ)} (hwf : s.rib.WellFormed) (hc : s.Consistent)
    (hroots : IsRoots s.rib q children) (add remove : RouteSet) :
    Effect s q (·.modifyChildrensInheritedRoutes s.rib children add remove) (fun _ x => x)
      fun f x => gain ((add.find f).map Route.cost)
        (lose ((offered f (s.rib.chainAt q)).isSome && (remove.find f).isSome) x) where
  self t _ := cell_modifyChildrens_of_not hwf hroots (fun h => Nat.lt_irrefl _ h.2.1) t _ _
  heirs t _ _ he hq hlt f := cell_heir hwf hc hroots he hq hlt t add remove f
  others t _ _ hq _ := cell_modifyChildrens_of_not hwf hroots (fun h => hq h.1) t _ _
  records _ _ _ hok ht := ht.modifyChildrens hok hroots.1 add remove

/-- **After a sequence of steps** the tables are consistent iff the cells of `q` and heirs are
    right. -/
theorem consistent_iff {s' : State κ} {content : Option (List Route × List Route)} {g : Nat}
    (h : Effect s q T own below) (hwf : s.rib.WellFormed) (hc : s.Consistent)
    (hfib : s'.fib = (T (.new g)).send s.fib)
    (hrib : ∀ p, s'.rib.contentAt p = (update s.rib.contentAt q content p).map
      fun x => (x.1, recorded (T (.new g)).inheritedRoutes p x.2))
    (hcontent : ∀ x, content = some x → x.2 = s.inherited q) :
    s'.Consistent ↔
      (∀ x, content = some x → ∀ f, own f (s.cell q f) = target f x.1 (s.rib.ancestors q)) ∧
      ∀ f, s.rib.heirs q f ≠ [] → below f (inheriting (offered f (s.rib.chainAt q))) =
        inheriting (offered f ((content.map Prod.fst).toList ++ s.rib.ancestors q)) := by
  rw [Routing.consistent_iff below hwf hc hfib hrib hcontent]
  · have hself : ∀ f, (T (.new g)).cell s.fib s.inherited q f = own f (s.cell q f) := fun f =>
      h.self (.new g) f
    simp only [hself]
  · exact fun p hp hq f => h.others (.new g) p hp hq f
  · exact fun p e he hq hlt f => h.heirs (.new g) p e he hq hlt f

end Effect

/-! ## Entries that are there -/

section

variable {s : State κ} {q : List κ} {e : RibEntry κ}

theorem chainAt_of_find {rib : Rib κ} (he : rib.find q = some e) :
    rib.chainAt q = e.routes :: rib.ancestors q := by
  rw [chainAt, routesAt, he]
  rfl

theorem register_of_effect {r : Route} {routes : List Route} {T : FibUpdater κ → FibUpdater κ}
    {own below : Nat → Cell → Cell} (hwf : s.rib.WellFormed) (hc : s.Consistent)
    (he : s.rib.find q = some e) (h : Effect s q T own below)
    (hcompute : (new r.faceId).computeUpdatesForRegistration s.rib q r = .ok (T (.new r.faceId)))
    (hinsert : (s.rib.insert q r).contentAt =
      update s.rib.contentAt q (some (routes, e.inheritedRoutes))) :
    ∃ s', s.register q r = .ok s' ∧ (s'.Consistent ↔
      (∀ f, own f (target f e.routes (s.rib.ancestors q)) = target f routes (s.rib.ancestors q)) ∧
      ∀ f, s.rib.heirs q f ≠ [] →
        below f (inheriting (offered f (e.routes :: s.rib.ancestors q))) =
          inheriting (offered f (routes :: s.rib.ancestors q))) := by
  have hfound : ∀ p, (s.rib.find p).isSome = true → ((s.rib.insert q r).find p).isSome = true := by
    intro p hp
    have hisSome : ((s.rib.insert q r).contentAt p).isSome = ((s.rib.insert q r).find p).isSome :=
      isSome_map
    rw [← hisSome, hinsert]
    by_cases hpq : p = q
    · rw [hpq, update_self]
      rfl
    · rw [update_of_ne hpq, contentAt, isSome_map]
      exact hp
  have hnames := h.records (fun n => ((s.rib.insert q r).find n).isSome = true) (.new r.faceId)
    (hfound q (by rw [he]; rfl)) hfound fun _ hu => (not_mem_nil hu).elim
  obtain ⟨s', hs', hfib, hrib⟩ := register_eq_ok hcompute hnames
  refine ⟨s', hs', ?_⟩
  rw [hinsert] at hrib
  rw [h.consistent_iff hwf hc hfib hrib]
  · simp only [some.injEq, forall_eq', hc.cell_eq he, chainAt_of_find he]
    rfl
  · rintro x hx
    rw [← some.inj hx, inherited_of_find he]

end

/-! The steps at an entry that is there, or at a copy of it with other routes. -/

section

variable {s : State κ} {q : List κ} {e : RibEntry κ} (hwf : s.rib.WellFormed) (hc : s.Consistent)
  (he : s.rib.find q = some e)
include hwf he

theorem cost_find_getAncestorRoutesOf (f : Nat) :
    ((s.rib.getAncestorRoutesOf e).find f).map Route.cost = firstOffered f (s.rib.ancestors q) := by
  rw [find_getAncestorRoutesOf hwf (mem_of_find he), name_of_find he]
  rfl

theorem find_getAncestorRoutesOf_isSome (f : Nat) :
    ((s.rib.getAncestorRoutesOf e).find f).isSome = (offered f (s.rib.ancestors q)).isSome := by
  rw [← firstOffered_isSome, ← cost_find_getAncestorRoutesOf hwf he, isSome_map]

include hc

theorem Effect.captured (routes : List Route) (n : Nat) :
    Effect s q (·.removeInheritedRoutes { e with routes := routes, nRoutesWithCaptureSet := n }
        (s.rib.getAncestorRoutesOf e))
      (fun f x => if (inheritedCost f e.routes (s.rib.ancestors q)).isSome then
        lose (offered f (s.rib.ancestors q)).isSome x else x) fun _ x => x := by
  obtain rfl := name_of_find he
  have h := Effect.removeInheritedRoutes s { e with routes := routes, nRoutesWithCaptureSet := n }
    (s.rib.getAncestorRoutesOf e)
  refine h.congr (fun f x => ?_) fun _ _ => rfl
  rw [find_getAncestorRoutesOf_isSome hwf he, any_inherited hc he]

theorem Effect.children (add remove : RouteSet) :
    Effect s q (·.modifyChildrensInheritedRoutes s.rib (childrenOf s.rib e) add remove)
      (fun _ x => x) fun f x => gain ((add.find f).map Route.cost)
        (lose ((offered f (e.routes :: s.rib.ancestors q)).isSome &&
          (remove.find f).isSome) x) := by
  have h := Effect.modifyChildrens hwf hc (isRoots_childrenOf hwf he) add remove
  rw [chainAt_of_find he] at h
  exact h

end

end

/-! ## A new prefix -/

open State

section

variable {s : State κ} {q p : List κ} {e : RibEntry κ} {r : Route} {f : Nat}
    {children : List (RibEntry κ)}

/-- The routes of an ancestor on the face of the new route are replaced by it. -/
theorem cost_find_replaced (hwf : s.rib.WellFormed) (q : List κ) (r : Route) (f : Nat) :
    ((((s.rib.getAncestorRoutes q).erase r.faceId).insert r).find f).map Route.cost =
      if f = r.faceId then some r.cost else firstOffered f (s.rib.ancestors q) := by
  have herase : ((s.rib.getAncestorRoutes q).erase r.faceId).find f =
      if f != r.faceId then (s.rib.getAncestorRoutes q).find f else none :=
    RouteSet.find_filter (p := fun f => f != r.faceId) _ _
  rw [RouteSet.find_insert, herase, ← cost_find_getAncestorRoutes hwf]
  by_cases hf : f = r.faceId
  · simp [hf]
  · simp [hf, Ne.symm hf]

theorem cost_find_singleton (r : Route) (f : Nat) :
    ((RouteSet.empty.insert r).find f).map Route.cost =
      if f = r.faceId then some r.cost else none := by
  rw [RouteSet.find_empty_insert]
  by_cases hf : f = r.faceId
  · simp [hf]
  · simp [hf, Ne.symm hf]

/-- What the entries below a new one are given. -/
def givenByNewPrefix (s : State κ) (q : List κ) (r : Route) (f : Nat) : Option Nat :=
  if r.isChildInherit then
    if f = r.faceId then some r.cost
    else if r.isRibCapture then none else firstOffered f (s.rib.ancestors q)
  else none

theorem Effect.createAddUpdate (s : State κ) (q : List κ) (r : Route) :
    Effect s q (·.addFibUpdate (.createAddUpdate q r.faceId r.cost))
      (fun f x => if f = r.faceId then (some r.cost, x.2) else x) fun _ x => x :=
  Effect.addFibUpdate s (.createAddUpdate q r.faceId r.cost)

theorem effect_newPrefix (hwf : s.rib.WellFormed) (hc : s.Consistent) (r : Route)
    (hroots : IsRoots s.rib q children) :
    Effect s q (·.createFibUpdatesForNewRibEntry s.rib q r children)
      (fun f x => if f = r.faceId then (some r.cost, x.2)
        else gain (if r.isRibCapture then none else firstOffered f (s.rib.ancestors q)) x)
      (fun f x => gain (givenByNewPrefix s q r f)
        (lose ((offered f (s.rib.chainAt q)).isSome &&
          (r.isRibCapture && (offered f (s.rib.ancestors q)).isSome)) x)) := by
  have hadd := Effect.createAddUpdate s q r
  have hinherit := hadd.comp (Effect.addInheritedRoutesIgnoring s q (s.rib.getAncestorRoutes q) r)
  have hchildren := fun add remove => Effect.modifyChildrens hwf hc hroots add remove
  have hcost := cost_find_getAncestorRoutes hwf q
  have hisSome : ∀ f, ((s.rib.getAncestorRoutes q).find f).isSome =
      (offered f (s.rib.ancestors q)).isSome := by
    intro f
    rw [← firstOffered_isSome, ← hcost, isSome_map]
  have hself : ∀ f (x : Cell),
      (if f = r.faceId then (if f = r.faceId then (some r.cost, x.2) else x)
        else gain (((s.rib.getAncestorRoutes q).find f).map Route.cost)
          (if f = r.faceId then (some r.cost, x.2) else x)) =
        if f = r.faceId then (some r.cost, x.2)
        else gain (firstOffered f (s.rib.ancestors q)) x := by
    intro f x
    rw [hcost]
    split
    · rfl
    · rfl
  unfold createFibUpdatesForNewRibEntry givenByNewPrefix
  cases r.isChildInherit with
  | false =>
    cases r.isRibCapture with
    | false => simp_all
    | true =>
      refine (hadd.comp (hchildren .empty (s.rib.getAncestorRoutes q))).congr (fun f x => rfl)
        fun f x => ?_
      rw [hisSome]
      rfl
  | true =>
    cases r.isRibCapture with
    | false =>
      refine (hinherit.comp (hchildren _ .empty)).congr hself fun f x => ?_
      rw [cost_find_replaced hwf, RouteSet.find_empty]
      rfl
    | true =>
      refine (hadd.comp (hchildren _ (s.rib.getAncestorRoutes q))).congr (fun f x => rfl)
        fun f x => ?_
      rw [cost_find_singleton, hisSome]
      rfl

/-- When the tables are consistent after a prefix is registered that was not in the RIB.  The FIB
    has no next hop left at the prefix on a face on which it is to have none.  For the other faces
    it inherits, the first of the routes is a cheapest one.  And no entry below takes the new route
    in place of one of another cost, which would stay recorded. -/
structure State.PermitsNewPrefix (s : State κ) (q : List κ) (r : Route) : Prop where
  clean : ∀ f, f ≠ r.faceId → (r.isRibCapture = true ∨ offered f (s.rib.ancestors q) = none) →
    s.fib (q, f) = none
  cheapest : r.isRibCapture = false → ∀ f, f ≠ r.faceId →
    firstOffered f (s.rib.ancestors q) = offered f (s.rib.ancestors q)
  fresh : r.isChildInherit = true → r.isRibCapture = false → s.rib.heirs q r.faceId ≠ [] →
    ∀ c, offered r.faceId (s.rib.ancestors q) = some c → c = r.cost

theorem newEntry_right_iff (hq : s.rib.find q = none) (r : Route) (f : Nat) :
    (if f = r.faceId then (some r.cost, (s.cell q f).2)
        else gain (if r.isRibCapture then none else firstOffered f (s.rib.ancestors q))
          (s.cell q f)) =
        target f [r] (s.rib.ancestors q) ↔
      (f ≠ r.faceId → (r.isRibCapture = true ∨ offered f (s.rib.ancestors q) = none) →
        s.fib (q, f) = none) ∧
      (r.isRibCapture = false → f ≠ r.faceId →
        firstOffered f (s.rib.ancestors q) = offered f (s.rib.ancestors q)) := by
  have hcell : s.cell q f = (s.fib (q, f), ∅) := by
    have hnone : s.inherited q = [] := by
      rw [inherited, contentAt, hq]
      rfl
    rw [State.cell, hnone]
    refine Prod.ext rfl (Set.eq_empty_of_forall_notMem ?_)
    rintro c ⟨_, h, _⟩
    exact not_mem_nil h
  have hnone := firstOffered_eq_none_iff f (s.rib.ancestors q)
  have hlowest : lowestCost f [] = none := rfl
  have hcaptures : captures [] = false := rfl
  rw [hcell, target_eq, lowestCost_cons, captures_cons, hlowest, hcaptures]
  by_cases hf : f = r.faceId
  · simp [hf]
  -- the record of what is inherited is the only one
  cases hfirst : firstOffered f (s.rib.ancestors q) with
  | none =>
    rw [hnone.1 hfirst]
    cases r.isRibCapture <;> simp [hf, Ne.symm hf, pair_empty_eq_inheriting_iff]
  | some c =>
    have hsome : offered f (s.rib.ancestors q) ≠ none := by simp [← hnone, hfirst]
    cases r.isRibCapture <;>
      simp [hf, Ne.symm hf, hsome, pair_empty_eq_inheriting_iff, gain_some_iff,
        eq_comm (a := some c)]

/-- What is done to heirs is right, unless the new route takes the place of another one or the
    routes above are not offered at their lowest costs. -/
theorem heir_right_iff (q : List κ) (r : Route) (f : Nat) :
    gain (givenByNewPrefix s q r f)
        (lose ((offered f (s.rib.ancestors q)).isSome &&
            (r.isRibCapture && (offered f (s.rib.ancestors q)).isSome))
          (inheriting (offered f (s.rib.ancestors q)))) =
        inheriting (offered f ([r] :: s.rib.ancestors q)) ↔
      (r.isChildInherit = true → r.isRibCapture = false →
        (f = r.faceId → ∀ c, offered f (s.rib.ancestors q) = some c → c = r.cost) ∧
        (f ≠ r.faceId → firstOffered f (s.rib.ancestors q) = offered f (s.rib.ancestors q))) := by
  have hnone := firstOffered_eq_none_iff f (s.rib.ancestors q)
  have hlowest : lowestInherited f [] = none := rfl
  rw [offered_eq, lowestInherited_cons, captures_cons, givenByNewPrefix, hlowest]
  generalize offered f (s.rib.ancestors q) = o at hnone ⊢
  by_cases hf : f = r.faceId
  · cases o <;> cases r.isRibCapture <;> cases r.isChildInherit <;>
      simp [hf, gain_some_iff, captures]
  · cases hfirst : firstOffered f (s.rib.ancestors q) with
    | none =>
      rw [hnone.1 hfirst]
      cases r.isRibCapture <;> cases r.isChildInherit <;> simp [hf, Ne.symm hf, captures]
    | some c =>
      cases o <;> cases r.isRibCapture <;> cases r.isChildInherit <;>
        simp [hf, Ne.symm hf, gain_some_iff, eq_comm (a := c), hfirst, captures] at hnone ⊢

end

/-- An entry with one route to inherit, whose records hold that route. -/
theorem parentChild_consistent_singleton {above below : List Route} {r : Route}
    (hown : below.any (·.faceId == r.faceId) = false) (hcap : captures below = false)
    (habove : above.all (·.faceId == r.faceId) = true) (hcost : offered r.faceId [above] =
      some r.cost) :
    (parentChild above below [r]).Consistent := by
  refine parentChild_consistent fun f c => ?_
  rw [inheritedCost, hcap, Bool.or_false]
  by_cases hf : f = r.faceId
  · subst hf
    rw [hown, if_neg Bool.false_ne_true, hcost]
    simp
  · have hnone : above.any (·.faceId == f) = false := by
      rw [List.any_eq_false]
      intro x hx hxf
      exact hf ((beq_iff_eq.1 hxf).symm.trans (beq_iff_eq.1 (all_eq_true.1 habove x hx)))
    have hoffered : offered f [above] = none := by
      rw [offered_of_face hnone]
      exact ite_self none
    rw [hoffered, ite_self]
    simp [Ne.symm hf]

section

variable {s : State κ} {q : List κ} {e : RibEntry κ} {r : Route}

/-- The route is for children, and not more expensive than any of these routes for them. -/
def undercutsForChildren (routes : List Route) (r : Route) : Bool :=
  r.isChildInherit && (lowestInherited r.faceId routes).all (r.cost ≤ ·)

theorem effect_newRoute (hwf : s.rib.WellFormed) (hc : s.Consistent) (he : s.rib.find q = some e)
    (r : Route) (on : Bool) :
    Effect s q (·.createFibUpdatesForNewRoute s.rib e r on)
      (fun f x =>
        let x := if on then (if (inheritedCost f e.routes (s.rib.ancestors q)).isSome then
            lose (offered f (s.rib.ancestors q)).isSome x else x) else x
        if (lowestCost r.faceId e.routes).all (r.cost ≤ ·) then
          (if f = r.faceId then (some r.cost, x.2) else x) else x)
      (fun f x => gain (if undercutsForChildren e.routes r && f == r.faceId then
        some r.cost else none)
        (lose ((offered f (e.routes :: s.rib.ancestors q)).isSome &&
          (on && (offered f (s.rib.ancestors q)).isSome)) x)) := by
  have hadd := Effect.createAddUpdate s q r
  have hremove : Effect s q (·.removeInheritedRoutes e (s.rib.getAncestorRoutesOf e)) _ _ :=
    Effect.captured hwf hc he e.routes e.nRoutesWithCaptureSet
  have hall := fun remove => ((hremove.ite on).comp (Effect.children hwf hc he
    (if undercutsForChildren e.routes r then RouteSet.empty.insert r else .empty) remove)).comp
    (hadd.ite ((lowestCost r.faceId e.routes).all (r.cost ≤ ·)))
  unfold createFibUpdatesForNewRoute
  simp only [all_lowestByFace, all_lowestInheritedByFace, name_of_find he]
  cases on with
  | true =>
    refine (hall (s.rib.getAncestorRoutesOf e)).congr (fun _ _ => rfl) fun f x => ?_
    rw [find_getAncestorRoutesOf_isSome hwf he]
    cases undercutsForChildren e.routes r <;> simp [cost_find_singleton, RouteSet.find_empty]
  | false =>
    refine (hall .empty).congr (fun _ _ => rfl) fun f x => ?_
    cases undercutsForChildren e.routes r <;> simp [cost_find_singleton, RouteSet.find_empty]

/-- When the tables are consistent after a route is registered that is new at its prefix.  The list
    of inherited routes keeps the record of a route on the face, so there is none, or Capture is
    turned on and it is removed.  Entries below that take the new route keep the record of another
    one.  And when Capture is turned on, entries below lose all faces offered above, also those that
    this entry offers. -/
structure State.PermitsNewRoute (s : State κ) (e : RibEntry κ) (r : Route) : Prop where
  own : r.isRibCapture = false → inheritedCost r.faceId e.routes (s.rib.ancestors e.name) = none
  fresh : undercutsForChildren e.routes r = true → s.rib.heirs e.name r.faceId ≠ [] →
    (∀ c, offered r.faceId (e.routes :: s.rib.ancestors e.name) = some c → c = r.cost) ∨
      (Rib.captures e.routes = false ∧ r.isRibCapture = true ∧
        (offered r.faceId (s.rib.ancestors e.name)).isSome = true)
  kept : Rib.captures e.routes = false → r.isRibCapture = true → ∀ f, s.rib.heirs e.name f ≠ [] →
    Rib.inheritsOn f e.routes = true → (offered f (s.rib.ancestors e.name)).isSome = true →
      undercutsForChildren e.routes r = true ∧ f = r.faceId

theorem newRoute_self_iff (routes : List Route) (r : Route) (chain : List (List Route)) (f : Nat) :
    (let x := if !captures routes && r.isRibCapture then
          (if (inheritedCost f routes chain).isSome then
            lose (offered f chain).isSome (target f routes chain) else target f routes chain)
        else target f routes chain
      if (lowestCost r.faceId routes).all (r.cost ≤ ·) then
        (if f = r.faceId then ((some r.cost, x.2) : Cell) else x) else x) =
          target f (r :: routes) chain ↔
      (f = r.faceId → r.isRibCapture = false → inheritedCost r.faceId routes chain = none) := by
  simp only [target_eq, captures_cons, lowestCost_cons, inheritedCost, ← lowestCost_isSome]
  by_cases hf : f = r.faceId
  · subst hf
    cases lowestCost r.faceId routes with
    | none =>
      cases offered r.faceId chain <;> cases captures routes <;> cases r.isRibCapture <;>
        simp [inheriting_none, inheriting_some]
    | some l => grind
  · cases lowestCost f routes <;> cases offered f chain <;> cases captures routes <;>
      cases r.isRibCapture <;> simp [inheriting_none, inheriting_some, hf, Ne.symm hf]

theorem newRoute_heir_iff (routes : List Route) (r : Route) (chain : List (List Route)) (f : Nat) :
    gain (if undercutsForChildren routes r && f == r.faceId then some r.cost else none)
        (lose ((offered f (routes :: chain)).isSome &&
          ((!captures routes && r.isRibCapture) && (offered f chain).isSome))
          (inheriting (offered f (routes :: chain)))) =
        inheriting (offered f ((r :: routes) :: chain)) ↔
      (undercutsForChildren routes r = true → f = r.faceId →
        (∀ c, offered r.faceId (routes :: chain) = some c → c = r.cost) ∨
          (captures routes = false ∧ r.isRibCapture = true ∧
            (offered r.faceId chain).isSome = true)) ∧
      (captures routes = false → r.isRibCapture = true → inheritsOn f routes = true →
        (offered f chain).isSome = true → undercutsForChildren routes r = true ∧ f = r.faceId) := by
  unfold undercutsForChildren
  simp only [offered_eq, captures_cons, lowestInherited_cons, ← lowestInherited_isSome]
  by_cases hf : f = r.faceId
  · subst hf
    cases lowestInherited r.faceId routes with
    | none =>
      cases offered r.faceId chain <;> cases captures routes <;> cases r.isRibCapture <;>
        cases r.isChildInherit <;> simp [gain_some_iff]
    | some l =>
      rcases Nat.lt_or_ge l r.cost with hlt | hle
      · cases offered r.faceId chain <;> cases captures routes <;> cases r.isRibCapture <;>
          cases r.isChildInherit <;> simp [Nat.not_le.2 hlt, Nat.le_of_lt hlt]
      · cases offered r.faceId chain <;> cases captures routes <;> cases r.isRibCapture <;>
          cases r.isChildInherit <;> simp [hle, gain_some_iff]
  · cases lowestInherited f routes <;> cases offered f chain <;> cases captures routes <;>
      cases r.isRibCapture <;> simp [hf, Ne.symm hf]

/-- Registering a route that is new at a prefix of the RIB leaves the RIB well formed. -/
theorem register_wellFormed {s' : State κ} (hwf : s.rib.WellFormed)
    (he : s.rib.find q = some e) (hr : e.findRoute r = none) (hs' : s.register q r = .ok s') :
    s'.rib.WellFormed := by
  have hinsert : (s.rib.insert q r).WellFormed := by
    have hpush : (s.rib.modify q (·.pushRoute r)).WellFormed := by
      refine hwf.modify (fun _ => ⟨rfl, rfl, rfl⟩) fun e hcounted => ?_
      simp [RibEntry.pushRoute, hcounted, countP_append, countP_singleton]
    rw [Rib.insert, he]
    dsimp only
    rw [hr]
    exact ⟨⟨hpush.sorted, hpush.parent, hpush.children⟩, hpush.counted⟩
  obtain ⟨t, -, hs'⟩ := bind_eq_ok_iff.1 hs'
  obtain ⟨rib, hupdates, hs'⟩ := bind_eq_ok_iff.1 hs'
  rw [← Except.ok.inj hs']
  exact hinsert.modifyInheritedRoutes hupdates

end

end NdnMulticast.Nfd.Routing
