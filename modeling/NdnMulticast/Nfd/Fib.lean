/-
  The Forwarding Information Base, after `daemon/table/fib.cpp` and `fib-entry.cpp`, and
  `Strategy::lookupFib`.  Entries are made with a next hop and go with their last one, so only
  the unattached empty entry has none.
-/

import NdnMulticast.Lib.PrefixMap
import NdnMulticast.Lib.Sorted
import NdnMulticast.Nfd.FaceTable
import NdnMulticast.Ndn.Packet

namespace NdnMulticast.Ndn

/-- What the name tree distinguishes names by: the encodings of the components. -/
abbrev NameKey := List (List UInt8)

def Name.key (n : Name) : NameKey := n.map Component.wire

end NdnMulticast.Ndn

namespace NdnMulticast.Nfd

open Lib Ndn PrefixMap

/-- `NameTree::getMaxDepth`. -/
def maxDepth : Nat := 32

structure NextHop where
  face : FacePtr
  cost : Nat
deriving DecidableEq, Repr

/-- A FIB entry: the key of its prefix and its next hops, the cheapest first. -/
structure FibEntry where
  key : NameKey
  nextHops : List NextHop
deriving DecidableEq, Repr

structure Fib where
  table : PrefixMap maxDepth (List UInt8) (List NextHop)
  nextHops_ne_nil : ∀ x ∈ table.entries, x.2 ≠ []

namespace Fib

def init : Fib := ⟨.empty, by simp [PrefixMap.empty]⟩

/-- `Fib::s_emptyEntry`. -/
def emptyEntry : FibEntry := ⟨[], []⟩

def findLongestPrefixMatch (fib : Fib) (n : Name) : FibEntry :=
  match fib.table.findLongestPrefixMatch n.key with
  | some x => ⟨x.1, x.2⟩
  | none => emptyEntry

variable (i : Interest) (nextHops : List NextHop) (face : FacePtr) (cost : Nat)

/-- `Entry::addOrUpdateNextHop`: the list stays sorted by cost. -/
def addNextHop : List NextHop :=
  let updated :=
    if nextHops.any (·.face == face) then
      nextHops.map fun nh => if nh.face = face then { nh with cost } else nh
    else nextHops ++ [⟨face, cost⟩]
  updated.insertionSort fun a b => a.cost ≤ b.cost

theorem addNextHop_ne_nil : addNextHop nextHops face cost ≠ [] := by
  intro h
  have hlen := congrArg List.length h
  rw [addNextHop, List.length_insertionSort] at hlen
  split at hlen
  · simp_all
  · simp at hlen

/-- `Fib::insert` and `Fib::addOrUpdateNextHop`, as the manager calls them. -/
def addOrUpdateNextHop (fib : Fib) (pfx : Name) (face : FacePtr) (cost : Nat) : Fib :=
  if h : pfx.key.length ≤ maxDepth then
    { table := fib.table.insert pfx.key (addNextHop ((fib.table.get pfx.key).getD []) face cost) h
      nextHops_ne_nil := by
        intro x hx
        rcases PrefixMap.mem_insert.1 hx with rfl | ⟨hx, -⟩
        · exact addNextHop_ne_nil _ _ _
        · exact fib.nextHops_ne_nil x hx }
  else fib

/-- The next hops without a face; an entry without next hops goes. -/
def dropFace (nextHops : List NextHop) : Option (List NextHop) :=
  let rest := nextHops.filter (·.face != face)
  if rest = [] then none else some rest

/-- `Fib::removeNextHop` on the entries with the selected keys. -/
def removeNextHops (fib : Fib) (selected : NameKey → Bool) (face : FacePtr) : Fib where
  table := fib.table.filterMap fun k nextHops =>
    if selected k then dropFace face nextHops else some nextHops
  nextHops_ne_nil := by
    intro x hx
    obtain ⟨nextHops, hmem, hf⟩ := PrefixMap.mem_filterMap.1 hx
    split at hf
    · simp only [dropFace] at hf
      split at hf
      · cases hf
      · grind
    · rw [← Option.some.inj hf]
      exact fib.nextHops_ne_nil _ hmem

def removeNextHop (fib : Fib) (pfx : Name) (face : FacePtr) : Fib :=
  fib.removeNextHops (· == pfx.key) face

/-- The FIB part of `cleanupOnFaceRemoval`. -/
def removeFace (fib : Fib) (face : FacePtr) : Fib := fib.removeNextHops (fun _ => true) face

/-- By name, or by the first delegation of the forwarding hint that has a route. -/
def lookupFib (fib : Fib) (i : Interest) : FibEntry :=
  if i.forwardingHint = [] then fib.findLongestPrefixMatch i.name
  else
    (i.forwardingHint.findSome? fun del =>
      let fibEntry := fib.findLongestPrefixMatch del.name
      if fibEntry.nextHops = [] then none else some fibEntry).getD emptyEntry

/-- `Entry::hasNextHops` of the entry that is found for an Interest. -/
def hasNextHops (fib : Fib) (i : Interest) : Bool := (fib.lookupFib i).nextHops != []

variable {fib : Fib}

theorem nextHops_findLongestPrefixMatch_ne_nil_iff (n : Name) :
    (fib.findLongestPrefixMatch n).nextHops ≠ [] ↔ ∃ x ∈ fib.table.entries, x.1 <+: n.key := by
  unfold findLongestPrefixMatch
  split
  · grind [findLongestPrefixMatch_eq_some_iff, nextHops_ne_nil]
  rename_i hnone
  constructor
  · intro h
    exact absurd rfl h
  · rintro ⟨x, hmem, hpre⟩
    obtain ⟨y, hy⟩ := exists_findLongestPrefixMatch hmem hpre
    rw [hnone] at hy
    cases hy

/-- The names the FIB is searched for. -/
def lookupNames : List Name :=
  if i.forwardingHint = [] then [i.name] else i.forwardingHint.map Delegation.name

/-- **Routes.**  A lookup finds next hops iff there is an entry for a prefix of one of the names. -/
theorem hasNextHops_iff :
    fib.hasNextHops i = true ↔ ∃ n ∈ lookupNames i, ∃ x ∈ fib.table.entries, x.1 <+: n.key := by
  simp only [← nextHops_findLongestPrefixMatch_ne_nil_iff]
  unfold hasNextHops lookupFib lookupNames
  rw [bne_iff_ne]
  split
  · simp
  cases hfind : i.forwardingHint.findSome? fun del =>
      if (fib.findLongestPrefixMatch del.name).nextHops = [] then none
      else some (fib.findLongestPrefixMatch del.name) with
  | none =>
    constructor
    · intro h
      exact absurd rfl h
    · simp_all
  | some fibEntry =>
    obtain ⟨del, hdel, hsome⟩ := List.exists_of_findSome?_eq_some hfind
    split at hsome
    · cases hsome
    · grind

theorem hasNextHops_addOrUpdateNextHop {i : Interest} (h : fib.hasNextHops i = true) (pfx : Name)
    (face : FacePtr) (cost : Nat) :
    (fib.addOrUpdateNextHop pfx face cost).hasNextHops i = true := by
  rw [hasNextHops_iff] at h ⊢
  obtain ⟨n, hn, x, hx, hpre⟩ := h
  refine ⟨n, hn, ?_⟩
  unfold addOrUpdateNextHop
  split
  · grind [mem_insert_self, mem_insert_of_ne]
  · exact ⟨x, hx, hpre⟩

end Fib

/-! ## The next hops of an entry

`Fib::addOrUpdateNextHop` sorts the list in place after it has taken an iterator.  `std::sort` may
order next hops of equal cost either way, so the sort is a parameter. -/

namespace NextHops

open List

/-- The order the next hops are kept in, and that no face has two. -/
structure Valid (hops : List NextHop) : Prop where
  sorted : hops.Pairwise fun a b => a.cost ≤ b.cost
  faces_nodup : (hops.map NextHop.face).Nodup

theorem valid_nil : Valid [] := ⟨.nil, nodup_nil⟩

/-- The place of the next hop of a face; the end of the list if there is none. -/
def findNextHop (hops : List NextHop) (face : FacePtr) : Nat := hops.findIdx (·.face == face)

/-- The list before it is sorted. -/
def setCost (hops : List NextHop) (face : FacePtr) (cost : Nat) : List NextHop :=
  let it := findNextHop hops face
  (if it == hops.length then hops ++ [⟨face, 0⟩] else hops).modify it fun nh => { nh with cost }

/-- What `Entry::addOrUpdateNextHop` leaves and returns. -/
structure AddResult where
  nextHops : List NextHop
  /-- The place the iterator denotes. -/
  it : Nat
  isNew : Bool
deriving DecidableEq, Repr

def addOrUpdateNextHop (sort : List NextHop → List NextHop) (hops : List NextHop) (face : FacePtr)
    (cost : Nat) : AddResult :=
  let it := findNextHop hops face
  ⟨sort (setCost hops face cost), it, it == hops.length⟩

/-- The next hop that is returned. -/
def AddResult.nextHop (r : AddResult) : Option NextHop := r.nextHops[r.it]?

/-- What `Fib::addOrUpdateNextHop` passes to the signal `afterNewNextHop`. -/
def AddResult.afterNewNextHop (r : AddResult) : Option NextHop :=
  if r.isNew then r.nextHop else none

def removeNextHop (hops : List NextHop) (face : FacePtr) : List NextHop :=
  hops.eraseP (·.face == face)

variable {hops : List NextHop} {face : FacePtr} {cost : Nat}

/-- The next hops of the other faces. -/
def others (hops : List NextHop) (face : FacePtr) : List NextHop := hops.filter (·.face != face)

theorem setCost_cons (nh : NextHop) :
    setCost (nh :: hops) face cost =
      if nh.face = face then { nh with cost } :: hops else nh :: setCost hops face cost := by
  unfold setCost findNextHop
  by_cases hface : nh.face = face
  · simp [findIdx_cons, hface]
  · grind

theorem others_eq_self (h : face ∉ hops.map NextHop.face) : others hops face = hops := by
  refine filter_eq_self.2 fun nh hnh => ?_
  have hne : nh.face ≠ face := fun heq => h (heq ▸ mem_map.2 ⟨nh, hnh, rfl⟩)
  simpa using hne

theorem perm_setCost (h : (hops.map NextHop.face).Nodup) :
    (setCost hops face cost).Perm (⟨face, cost⟩ :: others hops face) := by
  induction hops with
  | nil => exact .refl _
  | cons nh hops ih => grind [others, setCost_cons, others_eq_self]

theorem face_notMem_others : face ∉ (others hops face).map NextHop.face := by
  intro hmem
  obtain ⟨nh, hnh, rfl⟩ := mem_map.1 hmem
  simpa using (mem_filter.1 hnh).2

theorem faces_nodup_setCost (h : (hops.map NextHop.face).Nodup) :
    ((setCost hops face cost).map NextHop.face).Nodup := by
  rw [((perm_setCost h).map NextHop.face).nodup_iff, map_cons, nodup_cons]
  exact ⟨face_notMem_others, h.sublist (filter_sublist.map _)⟩

theorem Valid.addOrUpdateNextHop {sort : List NextHop → List NextHop}
    (hsort : SortsBy NextHop.cost sort) (h : Valid hops) (face : FacePtr) (cost : Nat) :
    Valid (addOrUpdateNextHop sort hops face cost).nextHops where
  sorted := hsort.sorted _
  faces_nodup := by
    show ((sort (setCost hops face cost)).map NextHop.face).Nodup
    rw [((hsort.perm _).map NextHop.face).nodup_iff]
    exact faces_nodup_setCost h.faces_nodup

theorem Valid.removeNextHop (h : Valid hops) (face : FacePtr) :
    Valid (removeNextHop hops face) where
  sorted := h.sorted.sublist eraseP_sublist
  faces_nodup := h.faces_nodup.sublist (eraseP_sublist.map _)

theorem removeNextHop_eq_others (h : (hops.map NextHop.face).Nodup) :
    removeNextHop hops face = others hops face := by
  induction hops with
  | nil => rfl
  | cons nh hops ih =>
    by_cases hface : nh.face = face
    · grind [removeNextHop, others, others_eq_self]
    · simp_all [removeNextHop, others]

theorem addNextHop_eq (h : (hops.map NextHop.face).Nodup) :
    Fib.addNextHop hops face cost = (addOrUpdateNextHop
      (insertionSort fun a b => a.cost ≤ b.cost) hops face cost).nextHops := by
  have hset : setCost hops face cost = if hops.any (·.face == face) then
      hops.map (fun nh => if nh.face = face then { nh with cost } else nh)
      else hops ++ [⟨face, cost⟩] := by
    induction hops with
    | nil => rfl
    | cons nh hops ih =>
      rw [map_cons, nodup_cons] at h
      rw [setCost_cons]
      by_cases hface : nh.face = face
      · have hrest : hops.map (fun nh => if nh.face = face then { nh with cost } else nh) =
            hops := by
          conv_rhs => rw [← map_id hops]
          refine map_congr_left fun x hx => if_neg fun heq => h.1 ?_
          rw [hface, ← heq]
          exact mem_map.2 ⟨x, hx, rfl⟩
        simp [hface, hrest]
      · grind
  show insertionSort _ _ = insertionSort _ (setCost hops face cost)
  rw [hset]

/-! ## The next hop that is returned -/

/-- As many others are cheaper as come before the face, and none costs the same. -/
def staysInPlace (hops : List NextHop) (face : FacePtr) (cost : Nat) : Bool :=
  (others hops face).countP (·.cost < cost) == findNextHop hops face &&
    (others hops face).countP (·.cost ≤ cost) == findNextHop hops face

theorem returns_iff (h : (hops.map NextHop.face).Nodup) :
    (∀ sort, SortsBy NextHop.cost sort →
        (addOrUpdateNextHop sort hops face cost).nextHop = some ⟨face, cost⟩) ↔
      staysInPlace hops face cost = true := by
  have hnew : (⟨face, cost⟩ : NextHop) ∉ others hops face :=
    fun hmem => face_notMem_others (mem_map.2 ⟨_, hmem, rfl⟩)
  rw [staysInPlace, Bool.and_eq_true, beq_iff_eq, beq_iff_eq]
  show (∀ sort, SortsBy NextHop.cost sort →
    (sort (setCost hops face cost))[findNextHop hops face]? = some ⟨face, cost⟩) ↔ _
  exact forall_sort_getElem?_iff (perm_setCost h) hnew

inductive Event where
  | addOrUpdateNextHop (face : FacePtr) (cost : Nat)
  | removeNextHop (face : FacePtr)
deriving DecidableEq, Repr

def step (sort : List NextHop → List NextHop) (hops : List NextHop) : Event → Option (List NextHop)
  | .addOrUpdateNextHop face cost => some (addOrUpdateNextHop sort hops face cost).nextHops
  | .removeNextHop face => some (removeNextHop hops face)

theorem run_valid {sort : List NextHop → List NextHop} (hsort : SortsBy NextHop.cost sort)
    {es : List Event} (hrun : Run (step sort) (fun _ _ => True) [] es hops) : Valid hops := by
  refine hrun.invariant (I := Valid) ?_ valid_nil
  intro hops e hops' hvalid _ hstep
  cases e with
  | addOrUpdateNextHop face cost =>
    obtain rfl := Option.some.inj hstep
    exact hvalid.addOrUpdateNextHop hsort face cost
  | removeNextHop face =>
    obtain rfl := Option.some.inj hstep
    exact hvalid.removeNextHop face

/-- **Next hops.**  In every run the list is in order.  The next hop that is returned and signalled
    is that of the face, however ties are sorted, iff the place of the face is where the new cost
    belongs. -/
theorem run_nextHops_returns_iff {sort : List NextHop → List NextHop}
    (hsort : SortsBy NextHop.cost sort) {es : List Event}
    (hrun : Run (step sort) (fun _ _ => True) [] es hops) :
    hops.Pairwise (fun a b => a.cost ≤ b.cost) ∧ (hops.map NextHop.face).Nodup ∧
      ∀ face cost,
        (∀ sort, SortsBy NextHop.cost sort →
          (addOrUpdateNextHop sort hops face cost).nextHop = some ⟨face, cost⟩ ∧
          (addOrUpdateNextHop sort hops face cost).afterNewNextHop =
            if (addOrUpdateNextHop sort hops face cost).isNew then some ⟨face, cost⟩ else none) ↔
        staysInPlace hops face cost = true := by
  have hvalid := run_valid hsort hrun
  refine ⟨hvalid.sorted, hvalid.faces_nodup, fun face cost => ?_⟩
  rw [← returns_iff hvalid.faces_nodup]
  constructor
  · intro hall sort hsort
    exact (hall sort hsort).1
  · simp_all [AddResult.afterNewNextHop]

/-- A second face that costs more stays in place. -/
theorem run_nextHops_returns_dearer :
    Run (step (List.insertionSort fun a b => a.cost ≤ b.cost)) (fun _ _ => True) []
        [.addOrUpdateNextHop 1 10] [⟨1, 10⟩] ∧
      staysInPlace [⟨1, 10⟩] 2 20 = true ∧
      ∀ sort, SortsBy NextHop.cost sort →
        (addOrUpdateNextHop sort [⟨1, 10⟩] 2 20).nextHop = some ⟨2, 20⟩ := by
  have hrun : Run (step (insertionSort fun a b => a.cost ≤ b.cost)) (fun _ _ => True) []
      [.addOrUpdateNextHop 1 10] [⟨1, 10⟩] := .cons trivial rfl (.nil _)
  refine ⟨hrun, by decide, fun sort hsort => ?_⟩
  have hiff := (run_nextHops_returns_iff (sortsBy_insertionSort NextHop.cost) hrun).2.2 2 20
  exact (hiff.2 (by decide) sort hsort).1

/-- A second face that costs less: the first one is returned and signalled. -/
theorem addOrUpdateNextHop_returns_other :
    SortsBy NextHop.cost (List.insertionSort fun a b => a.cost ≤ b.cost) ∧
      Run (step (List.insertionSort fun a b => a.cost ≤ b.cost)) (fun _ _ => True) []
        [.addOrUpdateNextHop 1 10] [⟨1, 10⟩] ∧
      (addOrUpdateNextHop (List.insertionSort fun a b => a.cost ≤ b.cost) [⟨1, 10⟩] 2 5).isNew =
        true ∧
      (addOrUpdateNextHop (List.insertionSort fun a b => a.cost ≤ b.cost) [⟨1, 10⟩] 2 5).nextHop =
        some ⟨1, 10⟩ ∧
      (addOrUpdateNextHop (List.insertionSort fun a b => a.cost ≤ b.cost)
        [⟨1, 10⟩] 2 5).afterNewNextHop = some ⟨1, 10⟩ :=
  ⟨sortsBy_insertionSort NextHop.cost, .cons trivial rfl (.nil _), by decide, by decide, by decide⟩

end NextHops

end NdnMulticast.Nfd
