/-
  What the FIB should hold for a RIB, and what a change at one name has to do for that.

  When the routes at `q` change, the entries that are affected are `q` itself and its heirs:
  the entries below that have no route of their own on the face and between which and `q`
  nothing stops inheritance (`heir`).  All heirs inherit the same, and an update does the same
  to all of them.
-/

import NdnMulticast.Nfd.FibUpdater

namespace NdnMulticast.Nfd.Routing

open Lib Ndn List Option Rib FibUpdater Function State Cell Prod RibEntry Nat

variable {κ : Type} [LinearOrder κ]

/-! ## What the tables should hold -/

/-- The cost of the cheapest route of a kind. -/
def lowest (p : Route → Bool) (routes : List Route) : Option Nat :=
  ((routes.filter p).map Route.cost).min?

variable (s : State κ) (f : Nat)

/-- The cost of the cheapest route on a face. -/
def lowestCost (routes : List Route) : Option Nat := lowest (·.faceId == f) routes

/-- The cost of the cheapest route for children on a face. -/
def lowestInherited (routes : List Route) : Option Nat :=
  lowest (fun r => r.faceId == f && r.isChildInherit) routes

/-- The cost at which the entries of a chain offer a face. -/
def offered (chain : List (List Route)) : Option Nat :=
  (Rib.source f chain).bind (lowestInherited f)

/-- The cost at which a face is inherited, by an entry with some routes below a chain. -/
def inheritedCost (routes : List Route) (chain : List (List Route)) : Option Nat :=
  if routes.any (·.faceId == f) || Rib.captures routes then none else offered f chain

/-- The cost of the next hop on a face. -/
def nextHop (routes : List Route) (chain : List (List Route)) : Option Nat :=
  (lowestCost f routes).or (inheritedCost f routes chain)

def State.Consistent : Prop :=
  ∀ p e, s.rib.find p = some e → ∀ f,
    s.fib (p, f) = nextHop f e.routes (s.rib.ancestors p) ∧
      ∀ c, (∃ r ∈ e.inheritedRoutes, r.faceId = f ∧ r.cost = c) ↔
        inheritedCost f e.routes (s.rib.ancestors p) = some c

namespace Cell

/-- What is inherited at a cost, if at all. -/
def inheriting (cost : Option Nat) : Cell := (cost, {c | cost = some c})

section

variable {o o' x : Option Nat} {c : Nat}

@[simp] theorem inheriting_inj : inheriting o = inheriting o' ↔ o = o' :=
  ⟨fun h => congrArg fst h, fun h => congrArg inheriting h⟩

theorem inheriting_none : inheriting none = (none, ∅) :=
  Prod.ext rfl (Set.eq_empty_of_forall_notMem fun _ h => some_ne_none _ h.symm)

theorem inheriting_some (c : Nat) : inheriting (some c) = (some c, {c}) :=
  Prod.ext rfl (Set.ext fun _ => some_inj.trans eq_comm)

@[simp] theorem gain_none (y : Cell) : gain none y = y := rfl

@[simp] theorem lose_false (y : Cell) : lose false y = y := rfl

@[simp] theorem lose_true (y : Cell) : lose true y = inheriting none := inheriting_none.symm

/-- A next hop that is not inherited is not in its place where something is. -/
theorem pair_empty_eq_inheriting_iff : ((x, ∅) : Cell) = inheriting o ↔ x = none ∧ o = none := by
  cases o with
  | none => simp [inheriting_none]
  | some c => simp [inheriting_some]

@[simp] theorem mem_inheriting : c ∈ (inheriting o).2 ↔ o = some c := Iff.rfl

/-- What was recorded before is still recorded. -/
theorem gain_some_iff {y : Cell} :
    gain (some c) y = inheriting o ↔ o = some c ∧ ∀ c' ∈ y.2, c' = c := by
  constructor
  · intro h
    have hcost : o = some c := (congrArg Prod.fst h).symm
    refine ⟨hcost, fun c' hc' => ?_⟩
    have hmem : c' ∈ (gain (some c) y).2 := Or.inr hc'
    rw [h, hcost] at hmem
    exact (some.inj hmem).symm
  · rintro ⟨rfl, hsame⟩
    rw [inheriting_some]
    refine Prod.ext rfl (Set.eq_singleton_iff_unique_mem.2 ⟨Or.inl rfl, fun c' hc' => ?_⟩)
    exact hc'.elim id (hsame c')

end

end Cell

/-- The cell of an entry. -/
def target (routes : List Route) (chain : List (List Route)) : Cell :=
  (nextHop f routes chain, {c | inheritedCost f routes chain = some c})

section

variable {p : Route → Bool} {routes : List Route} {r : Route} {c : Nat}

theorem lowest_eq_none_iff : lowest p routes = none ↔ routes.any p = false := by
  rw [lowest, List.min?_eq_none_iff, List.map_eq_nil_iff, List.filter_eq_nil_iff, List.any_eq_false]

theorem lowest_eq_some_iff :
    lowest p routes = some c ↔
      (∃ r ∈ routes, p r = true ∧ r.cost = c) ∧ ∀ r ∈ routes, p r = true → c ≤ r.cost := by
  rw [lowest, List.min?_eq_some_iff]
  simp only [List.mem_map, List.mem_filter, and_assoc, forall_exists_index, and_imp]
  refine and_congr_right fun _ => ⟨fun h r hr hp => h r.cost r hr hp rfl, ?_⟩
  rintro h _ r hr hp rfl
  exact h r hr hp

end

theorem lowestCost_eq_none_iff (routes : List Route) :
    lowestCost f routes = none ↔ routes.any (·.faceId == f) = false := lowest_eq_none_iff

theorem cost_cheapest (routes : List Route) :
    (cheapest routes).map Route.cost = (routes.map Route.cost).min? := by
  have hfold : ∀ (routes : List Route) (c : Route), (cheapest (c :: routes)).map Route.cost =
      some ((routes.map Route.cost).foldl min c.cost) := by
    intro routes
    induction routes with
    | nil => exact fun c => rfl
    | cons r routes ih => grind [cheapest]
  cases routes with
  | nil => rfl
  | cons r routes => exact hfold routes r

variable {routes : List Route}

theorem target_of_own {f : Nat} (h : routes.any (·.faceId == f) = true)
    (chain : List (List Route)) :
    target f routes chain = (lowestCost f routes, ∅) := by
  have hnone : inheritedCost f routes chain = none := by
    rw [inheritedCost, h, Bool.true_or, if_pos rfl]
  rw [target, nextHop, hnone, or_none]
  refine Prod.ext rfl (Set.eq_empty_of_forall_notMem fun c hc => ?_)
  cases hc

theorem target_of_not_own {f : Nat} (h : routes.any (·.faceId == f) = false)
    (chain : List (List Route)) :
    target f routes chain =
      Cell.inheriting (if Rib.captures routes then none else offered f chain) := by
  have hcost : inheritedCost f routes chain =
      if Rib.captures routes then none else offered f chain := by
    rw [inheritedCost, h, Bool.false_or]
  rw [target, nextHop, hcost, (lowestCost_eq_none_iff f routes).2 h, none_or]
  rfl

/-! ## Heirs -/

namespace Rib

variable (rib : Rib κ) (q : List κ)

/-- The entry inherits on the face what `q` and the entries above it offer. -/
def heir (f : Nat) (e : RibEntry κ) : Bool :=
  (q.isPrefixOf e.name && q != e.name) && (!e.routes.any (·.faceId == f) && !captures e.routes) &&
    (between rib.routesAt q e.name).all fun x => !captures x.2 && !inheritsOn f x.2

def heirs (f : Nat) : List (RibEntry κ) := rib.table.filter (rib.heir q f)

/-- The routes of a name, if it has an entry, and of the entries above it. -/
def chainAt : List (List Route) := (rib.routesAt q).toList ++ rib.ancestors q

end Rib

section

variable {rib : Rib κ} {q : List κ} {f : Nat} {e : RibEntry κ}

theorem heir_iff (rib : Rib κ) (f : Nat) (hq : q <+: e.name) (hlt : q.length < e.name.length) :
    rib.heir q f e = true ↔ e.routes.any (·.faceId == f) = false ∧ captures e.routes = false ∧
      ∀ x ∈ between rib.routesAt q e.name, captures x.2 = false ∧ inheritsOn f x.2 = false := by
  have hpre : q.isPrefixOf e.name = true := List.isPrefixOf_iff_prefix.2 hq
  have hne : (q != e.name) = true := by
    rw [bne_iff_ne]
    intro heq
    rw [← heq] at hlt
    exact lt_irrefl _ hlt
  rw [heir, hpre, hne]
  simp only [Bool.true_and, Bool.and_eq_true, Bool.not_eq_true', List.all_eq_true, and_assoc]

theorem inheritedCost_of_heir (h : rib.heir q f e = true) (hq : q <+: e.name)
    (hlt : q.length < e.name.length) (chain : List (List Route)) :
    inheritedCost f e.routes ((between rib.routesAt q e.name).map snd ++ chain) =
      offered f chain := by
  obtain ⟨hown, hcap, hall⟩ := (heir_iff rib f hq hlt).1 h
  rw [inheritedCost, hown, hcap, Bool.false_or, if_neg Bool.false_ne_true, offered, source,
    searchUp_append]
  · rfl
  · grind
  · grind

/-- **All heirs inherit the same**, and what is above does not matter for others. -/
theorem target_below (hq : q <+: e.name) (hlt : q.length < e.name.length)
    (chain : List (List Route)) :
    target f e.routes ((between rib.routesAt q e.name).map snd ++ chain) =
      if rib.heir q f e then inheriting (offered f chain)
      else target f e.routes ((between rib.routesAt q e.name).map snd) := by
  cases hheir : rib.heir q f e with
  | true =>
    have hown := ((heir_iff rib f hq hlt).1 hheir).1
    rw [if_pos rfl, target, nextHop, inheritedCost_of_heir hheir hq hlt,
      (lowestCost_eq_none_iff f e.routes).2 hown, none_or]
    rfl
  | false =>
    rw [if_neg Bool.false_ne_true]
    -- something of the entry or between stops inheritance
    have hnot : ¬ (e.routes.any (·.faceId == f) = false ∧ captures e.routes = false ∧
        ∀ x ∈ between rib.routesAt q e.name, captures x.2 = false ∧ inheritsOn f x.2 = false) := by
      rw [← heir_iff rib f hq hlt, hheir]
      exact Bool.false_ne_true
    cases hown : e.routes.any (·.faceId == f) with
    | true => rw [target_of_own hown, target_of_own hown]
    | false =>
      rw [target_of_not_own hown, target_of_not_own hown]
      cases hcap : captures e.routes with
      | true => rfl
      | false =>
        have hall : ¬ ∀ x ∈ between rib.routesAt q e.name,
            captures x.2 = false ∧ inheritsOn f x.2 = false := fun hall =>
          hnot ⟨hown, hcap, hall⟩
        obtain ⟨x, hx, hstop⟩ := not_forall₂.1 hall
        have hmem : x.2 ∈ (between rib.routesAt q e.name).map snd := mem_map_of_mem hx
        have hsource : source f ((between rib.routesAt q e.name).map snd ++ chain) =
            source f ((between rib.routesAt q e.name).map snd) := by
          cases hcaptures : captures x.2 with
          | true => exact searchUp_append_of_stops ⟨x.2, hmem, hcaptures⟩
          | false =>
            refine searchUp_append_of_found ⟨x.2, hmem, ?_⟩
            rw [← Bool.not_eq_false]
            exact fun hfound => hstop ⟨hcaptures, hfound⟩
        rw [offered, offered, hsource]

end

/-! ## A change at one name -/

/-- The lists of inherited routes. -/
def State.inherited (p : List κ) : List Route :=
  ((s.rib.contentAt p).map Prod.snd).getD []

def State.cell (p : List κ) (f : Nat) : Cell := (s.fib (p, f), costs f (s.inherited p))

section

variable {s : State κ} {q p : List κ} {e : RibEntry κ} {f : Nat}

theorem Cell.eq_target_iff {o : Option Nat} {l : List Route} {routes : List Route}
    {chain : List (List Route)} :
    ((o, costs f l) : Cell) = target f routes chain ↔
      o = nextHop f routes chain ∧ ∀ c, (∃ r ∈ l, r.faceId = f ∧ r.cost = c) ↔
        inheritedCost f routes chain = some c := by
  rw [target, Prod.mk.injEq]
  exact and_congr_right fun _ => Set.ext_iff

theorem inherited_of_find (h : s.rib.find p = some e) : s.inherited p = e.inheritedRoutes := by
  rw [State.inherited, Rib.contentAt, h]
  rfl

theorem State.Consistent.cell_eq (hc : s.Consistent) (he : s.rib.find p = some e) (f : Nat) :
    s.cell p f = target f e.routes (s.rib.ancestors p) := by
  rw [cell, inherited_of_find he]
  exact eq_target_iff.2 (hc p e he f)

theorem ancestors_below (rib : Rib κ) (hq : q <+: p) (hlt : q.length < p.length) :
    rib.ancestors p = (between rib.routesAt q p).map snd ++ rib.chainAt q := by
  rw [ancestors, above_split _ hq hlt, map_append, map_append, append_assoc, chainAt, ancestors]
  cases rib.routesAt q with
  | none => rfl
  | some routes => rfl

variable {rib' rib : Rib κ} {routes : Option (List Route)} {s' : State κ} {t : FibUpdater κ}

theorem ancestors_update (rib : Rib κ)
    (hroutes : rib'.routesAt = update rib.routesAt q routes) (hq : q <+: p)
    (hlt : q.length < p.length) :
    rib'.ancestors p =
      (between rib.routesAt q p).map snd ++ (routes.toList ++ rib.ancestors q) := by
  rw [ancestors, hroutes, above_update hq hlt, map_append, map_append, append_assoc, ancestors]
  cases routes with
  | none => rfl
  | some routes => rfl

theorem ancestors_update_of_not (rib : Rib κ)
    (hroutes : rib'.routesAt = update rib.routesAt q routes)
    (h : ¬ (q <+: p ∧ q.length < p.length)) : rib'.ancestors p = rib.ancestors p := by
  rw [ancestors, hroutes, above_update_of_not h, ancestors]

theorem Rib.contentAt_of_find (h : rib.find p = some e) :
    rib.contentAt p = some (e.routes, e.inheritedRoutes) := by
  rw [contentAt, h]
  rfl

theorem Rib.routesAt_eq (rib : Rib κ) : rib.routesAt = fun p => (rib.contentAt p).map fst := by
  funext p
  rw [routesAt, contentAt, Option.map_map]
  rfl

theorem heirs_ne_nil_iff (h : rib.WellFormed) :
    rib.heirs q f ≠ [] ↔ ∃ e, rib.find e.name = some e ∧ rib.heir q f e = true := by
  rw [Ne, eq_nil_iff_forall_not_mem, not_forall]
  refine exists_congr fun e => ?_
  rw [not_not, heirs, mem_filter]
  exact and_congr_left fun _ => ⟨h.find_of_mem, mem_of_find⟩

theorem below_of_heir (h : rib.heir q f e = true) : q <+: e.name ∧ q.length < e.name.length := by
  rw [heir, Bool.and_eq_true, Bool.and_eq_true, Bool.and_eq_true, isPrefixOf_iff_prefix,
    bne_iff_ne] at h
  obtain ⟨⟨⟨hpre, hne⟩, -⟩, -⟩ := h
  exact ⟨hpre, lt_of_le_of_ne hpre.length_le fun heq => hne (hpre.eq_of_length heq)⟩

theorem consistent_iff_cells {content : List κ → Option (List Route × List Route)}
    (hfib : s'.fib = t.send s.fib) (hrib : ∀ p, s'.rib.contentAt p =
      (content p).map fun x => (x.1, recorded t.inheritedRoutes p x.2))
    (hcontent : ∀ p x, content p = some x → x.2 = s.inherited p) :
    s'.Consistent ↔ ∀ p x, content p = some x → ∀ f,
      t.cell s.fib s.inherited p f = target f x.1 (s'.rib.ancestors p) := by
  have hcell : ∀ p x, content p = some x → ∀ f, t.cell s.fib s.inherited p f =
      (s'.fib (p, f), costs f (recorded t.inheritedRoutes p x.2)) := by
    intro p x hx f
    rw [hcontent p x hx, hfib]
    rfl
  constructor
  · intro h p x hx f
    have hp := hrib p
    rw [hx] at hp
    obtain ⟨e, he, heq⟩ := map_eq_some_iff.1 hp
    obtain ⟨hroutes, hinherited⟩ := mk.inj heq
    rw [hcell p x hx, ← hroutes, ← hinherited]
    exact eq_target_iff.2 (h p e he f)
  · intro h p e he f
    have hp := hrib p
    rw [contentAt_of_find he] at hp
    obtain ⟨x, hx, heq⟩ := map_eq_some_iff.1 hp.symm
    obtain ⟨hroutes, hinherited⟩ := mk.inj heq
    have hx' := h p x hx f
    rw [hcell p x hx, hroutes, hinherited] at hx'
    exact eq_target_iff.1 hx'

/-- **A change at one name** changes the cells of `q` and, in the same way, those of its heirs.  The
    tables are consistent again if these are right. -/
theorem consistent_iff {content : Option (List Route × List Route)} (act : Nat → Cell → Cell)
    (hwf : s.rib.WellFormed) (hc : s.Consistent) (hfib : s'.fib = t.send s.fib)
    (hrib : ∀ p, s'.rib.contentAt p = (update s.rib.contentAt q content p).map
      fun x => (x.1, recorded t.inheritedRoutes p x.2))
    (hcontent : ∀ x, content = some x → x.2 = s.inherited q)
    (helse : ∀ p, p ≠ q → ¬ q <+: p → ∀ f, t.cell s.fib s.inherited p f = s.cell p f)
    (hbelow : ∀ p e, s.rib.find p = some e → q <+: p → q.length < p.length → ∀ f,
      t.cell s.fib s.inherited p f = if s.rib.heir q f e then act f (s.cell p f) else s.cell p f) :
    s'.Consistent ↔
      (∀ x, content = some x → ∀ f,
        t.cell s.fib s.inherited q f = target f x.1 (s.rib.ancestors q)) ∧
      ∀ f, s.rib.heirs q f ≠ [] → act f (inheriting (offered f (s.rib.chainAt q))) =
        inheriting (offered f ((content.map fst).toList ++ s.rib.ancestors q)) := by
  have hroutes : s'.rib.routesAt = update s.rib.routesAt q (content.map fst) := by
    rw [routesAt_eq, routesAt_eq]
    funext p
    rw [hrib, Option.map_map]
    by_cases hp : p = q
    · rw [hp, update_self, update_self]
      rfl
    · rw [update_of_ne hp, update_of_ne hp]
      rfl
  have hsnd : ∀ p x, update s.rib.contentAt q content p = some x → x.2 = s.inherited p := by
    intro p x hx
    by_cases hp : p = q
    · grind
    · rw [update_of_ne hp] at hx
      rw [inherited, hx]
      rfl
  have hself : s'.rib.ancestors q = s.rib.ancestors q :=
    ancestors_update_of_not s.rib hroutes fun h => lt_irrefl _ h.2
  -- below `q`, only heirs can go wrong
  have hheir : ∀ p e, s.rib.find p = some e → q <+: p → q.length < p.length → ∀ f,
      (t.cell s.fib s.inherited p f = target f e.routes (s'.rib.ancestors p) ↔
        (s.rib.heir q f e = true → act f (inheriting (offered f (s.rib.chainAt q))) =
          inheriting (offered f ((content.map fst).toList ++ s.rib.ancestors q)))) := by
    intro p e he hq hlt f
    have hname := name_of_find he
    subst hname
    rw [hbelow _ e he hq hlt, hc.cell_eq he, ancestors_below s.rib hq hlt,
      ancestors_update s.rib hroutes hq hlt, target_below hq hlt, target_below hq hlt]
    cases s.rib.heir q f e with
    | true => exact ⟨fun h _ => h, fun h => h rfl⟩
    | false => simp
  rw [consistent_iff_cells hfib hrib hsnd]
  constructor
  · intro h
    constructor
    · intro x hx f
      rw [← hself]
      exact h q x (by rw [update_self]; exact hx) f
    · intro f hf
      obtain ⟨e, he, hef⟩ := (heirs_ne_nil_iff hwf).1 hf
      obtain ⟨hq, hlt⟩ := below_of_heir hef
      have hne : e.name ≠ q := by
        intro heq
        rw [heq] at hlt
        exact lt_irrefl _ hlt
      refine (hheir _ e he hq hlt f).1 (h _ (e.routes, e.inheritedRoutes) ?_ f) hef
      rw [update_of_ne hne]
      exact contentAt_of_find he
  · rintro ⟨hq, hheirs⟩ p x hx f
    by_cases hp : p = q
    · subst hp
      rw [update_self] at hx
      rw [hself]
      exact hq x hx f
    · rw [update_of_ne hp] at hx
      obtain ⟨e, he, rfl⟩ := map_eq_some_iff.1 hx
      by_cases hpre : q <+: p
      · have hlt : q.length < p.length :=
          lt_of_le_of_ne hpre.length_le fun heq => hp (hpre.eq_of_length heq).symm
        refine (hheir p e he hpre hlt f).2 fun hef => hheirs f ?_
        have hname := name_of_find he
        exact (heirs_ne_nil_iff hwf).2 ⟨e, by rw [hname]; exact he, hef⟩
      · rw [helse p hp hpre, hc.cell_eq he, ancestors_update_of_not s.rib hroutes fun h => hpre h.1]

/-! ## What a traversal does to heirs -/

section

variable {children : List (RibEntry κ)}

theorem any_face_iff (f : Nat) (routes : List Route) :
    routes.any (·.faceId == f) = true ↔ ∃ c, ∃ r ∈ routes, r.faceId = f ∧ r.cost = c := by
  constructor
  · simp
  · simp

theorem any_inherited (hc : s.Consistent) (he : s.rib.find p = some e) (f : Nat) :
    e.inheritedRoutes.any (·.faceId == f) =
      (inheritedCost f e.routes (s.rib.ancestors p)).isSome := by
  rw [Bool.eq_iff_iff, any_face_iff, isSome_iff_exists]
  exact exists_congr fun c => (hc p e he f).2 c

variable {rib : Rib κ}

theorem enters_of_find (hwf : rib.WellFormed) (he : rib.find p = some e) :
    enters rib p = !captures e.routes := by
  rw [enters, he, ← hwf.hasCapture (mem_of_find he)]
  rfl

/-- Heirs are what a traversal visits with routes on the face, unless they have their own. -/
theorem heir_iff_visits (hwf : rib.WellFormed) (he : rib.find p = some e) (hq : q <+: p)
    (hlt : q.length < p.length) :
    rib.heir q f e = true ↔ Visits rib q p ∧ passes rib q p f = true ∧ e.hasFaceId f = false := by
  have hname := name_of_find he
  subst hname
  have hfind : ∀ x ∈ between rib.find q e.name, rib.find x.1 = some x.2 := fun x hx =>
    (mem_between hx).2.2.2
  have hbetween : between rib.routesAt q e.name =
      (between rib.find q e.name).map fun x => (x.1, x.2.routes) := between_map rib.find routes _ _
  rw [heir_iff rib f hq hlt, hbetween, Visits, enters_of_find hwf he, passes,
    List.all_eq_true, hasFaceId]
  constructor
  · rintro ⟨hown, hcap, hall⟩
    refine ⟨⟨hq, hlt, by rw [hcap]; rfl, fun x hx => ?_⟩, fun x hx => ?_, hown⟩
    · rw [enters_of_find hwf (hfind x hx), (hall _ (List.mem_map_of_mem hx)).1]
      rfl
    · rw [Bool.not_eq_true']
      exact (hall _ (List.mem_map_of_mem hx)).2
  · rintro ⟨⟨-, -, hcap, henters⟩, hpasses, hown⟩
    refine ⟨hown, by simpa using hcap, fun y hy => ?_⟩
    obtain ⟨x, hx, rfl⟩ := List.mem_map.1 hy
    have hx' := henters x hx
    have hpx := hpasses x hx
    rw [enters_of_find hwf (hfind x hx), Bool.not_eq_true'] at hx'
    rw [Bool.not_eq_true'] at hpx
    exact ⟨hx', hpx⟩

theorem cell_heir (hwf : s.rib.WellFormed) (hc : s.Consistent)
    (hroots : IsRoots s.rib q children) (he : s.rib.find p = some e) (hq : q <+: p)
    (hlt : q.length < p.length) (t : FibUpdater κ) (add remove : RouteSet) (f : Nat) :
    (t.modifyChildrensInheritedRoutes s.rib children add remove).cell s.fib s.inherited p f =
      if s.rib.heir q f e then
        gain ((add.find f).map Route.cost)
          (lose ((offered f (s.rib.chainAt q)).isSome && (remove.find f).isSome)
            (t.cell s.fib s.inherited p f))
      else t.cell s.fib s.inherited p f := by
  have hheir := heir_iff_visits (f := f) hwf he hq hlt
  by_cases hvisits : Visits s.rib q p
  · rw [cell_modifyChildrens hwf hroots he hvisits, visitGain, visitLose, any_inherited hc he]
    cases hpasses : passes s.rib q p f with
    | false => simp_all
    | true =>
      cases hown : e.hasFaceId f with
      | true =>
        have hnot : ¬ s.rib.heir q f e = true := fun h => by
          rw [hheir, hown] at h
          exact Bool.false_ne_true h.2.2.symm
        have hnone : inheritedCost f e.routes (s.rib.ancestors p) = none := by
          rw [inheritedCost, show e.routes.any (·.faceId == f) = true from hown, Bool.true_or,
            if_pos rfl]
        rw [if_neg hnot, hnone, isSome_none, Bool.and_false]
        rfl
      | false =>
        have hyes : s.rib.heir q f e = true := hheir.2 ⟨hvisits, hpasses, hown⟩
        have hchild : e.hasChildInheritOnFaceId f = false := not_childInherit_of_face hown
        have hname := name_of_find he
        subst hname
        have hcost : inheritedCost f e.routes (s.rib.ancestors e.name) =
            offered f (s.rib.chainAt q) := by
          rw [ancestors_below s.rib hq hlt]
          exact inheritedCost_of_heir hyes hq hlt _
        rw [if_pos hyes, hchild, hcost]
        rfl
  · rw [cell_modifyChildrens_of_not hwf hroots hvisits, if_neg fun h => hvisits (hheir.1 h).1]

end

end

/-! ## Two entries -/

/-- Routes at the empty name and at one component, the records of the latter, and the FIB. -/
def parentChild (above below records : List Route) : State Nat where
  rib :=
    { table :=
        [⟨[], none, [[0]], above, [], above.countP Route.isRibCapture⟩,
          ⟨[0], some [], [], below, records, below.countP Route.isRibCapture⟩]
      nItems := above.length + below.length
      faceEntries := above.map (fun r => (r.faceId, [])) ++ below.map fun r => (r.faceId, [0]) }
  fib := fun x =>
    if x.1 = [] then nextHop x.2 above [] else if x.1 = [0] then nextHop x.2 below [above] else none

section

variable {above below records : List Route}

theorem parentChild_wellFormed (above below records : List Route) :
    (parentChild above below records).rib.WellFormed where
  sorted := pairwise_pair.2 (by decide : ([] : List Nat) < [0])
  parent := by
    intro e he
    rcases mem_pair.1 he with rfl | rfl
    · rfl
    · rfl
  children := by
    intro e he x
    rcases mem_pair.1 he with rfl | rfl
    · simp [parentChild, eq_comm]
    · simp [parentChild]
  counted := by
    intro e he
    rcases mem_pair.1 he with rfl | rfl
    · rfl
    · rfl

theorem parentChild_consistent
    (h : ∀ f c, (∃ r ∈ records, r.faceId = f ∧ r.cost = c) ↔
      inheritedCost f below [above] = some c) :
    (parentChild above below records).Consistent := by
  intro p e he f
  have hname := name_of_find he
  rcases mem_pair.1 (mem_of_find he) with rfl | rfl
  · subst hname
    refine ⟨rfl, fun c => ?_⟩
    have hnone : inheritedCost f above [] = none := ite_self none
    show (∃ r ∈ [], _) ↔ inheritedCost f above [] = some c
    rw [hnone]
    simp
  · subst hname
    exact ⟨rfl, h f⟩

end

end NdnMulticast.Nfd.Routing
