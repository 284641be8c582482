/-
  The name tree, after `daemon/table/name-tree.cpp`, `name-tree-entry.cpp` and
  `name-tree-hashtable.cpp`: a tree of prefixes whose nodes carry the entries of the FIB, the
  PIT, the measurements and the StrategyChoice table.

  Nodes are found by the encoding of a name (`Name.key`).  A PIT entry hangs from the node of
  the first `nteDepth` components of its name, one level above the name if that ends with an
  implicit digest.
-/

import NdnMulticast.Lib.PrefixTree.Search
import NdnMulticast.Nfd.Pit
import NdnMulticast.Nfd.StrategyChoice

namespace NdnMulticast.Nfd

open Lib Ndn List Option PrefixTree Name

/-- `NameTree::getEntry` of a PIT entry: the name of the node it hangs from. -/
def Entry.node (e : Entry) : NameKey := e.name.key.take (nteDepth e.name)

/-! ## What a node carries -/

/-- An item that a strategy has placed on an entry or a record. -/
structure StrategyInfo where
  typeId : Nat
  /-- Identity of the object. -/
  serial : Nat
deriving DecidableEq, Repr

/-- `StrategyInfoHost::m_items`. -/
abbrev StrategyInfoHost := List StrategyInfo

/-- A PIT entry as an object, with the items on it and on its records. -/
structure PitEntry where
  id : EntryId
  entry : Entry
  info : StrategyInfoHost
  inInfo : FacePtr → StrategyInfoHost
  outInfo : FacePtr → StrategyInfoHost

structure MeasurementsEntry where
  expiry : Int
  info : StrategyInfoHost
deriving DecidableEq, Repr

/-- The table entries that are attached to a node. -/
structure TableEntries where
  /-- The next hops of the FIB entry. -/
  fibEntry : Option (List NextHop)
  pitEntries : List PitEntry
  measurementsEntry : Option MeasurementsEntry
  strategyChoiceEntry : Option Instance

namespace TableEntries

def none : TableEntries := ⟨.none, [], .none, .none⟩

def hasTableEntries (v : TableEntries) : Bool :=
  v.fibEntry.isSome || !v.pitEntries.isEmpty || v.measurementsEntry.isSome ||
    v.strategyChoiceEntry.isSome

theorem eq_none_of_hasTableEntries {v : TableEntries} (h : v.hasTableEntries = false) :
    v = none := by
  obtain ⟨fib, pit, measurements, choice⟩ := v
  simp only [hasTableEntries, Bool.or_eq_false_iff, Option.isSome_eq_false_iff,
    Option.isNone_iff_eq_none, Bool.not_eq_false', List.isEmpty_iff] at h
  obtain ⟨⟨⟨rfl, rfl⟩, rfl⟩, rfl⟩ := h
  rfl

end TableEntries

abbrev NameTree := PrefixTree (List UInt8) TableEntries

/-- The hash function of the platform and the sizes of the hash table. -/
structure NameTreeEnv where
  hashFunc : List UInt8 → Nat
  options : HashtableOptions

namespace NameTree

variable (env : NameTreeEnv)

def computeHash (k : NameKey) : Nat := k.foldl (fun h c => h ^^^ env.hashFunc c) 0

def config : PrefixTree.Config (List UInt8) TableEntries where
  options := env.options
  hash := computeHash env
  vacant := .none
  hasEntries := TableEntries.hasTableEntries
  hasEntries_vacant := rfl

variable (t : NameTree) (selected : TreeNode (List UInt8) TableEntries → Bool)

/-- `NameTree::lookup` of the first `prefixLen` components; `none` if an assertion fails. -/
def lookup (n : Name) (prefixLen : Nat) : Option (Nat × NameTree) :=
  if prefixLen ≤ n.length ∧ prefixLen ≤ maxDepth then
    some (PrefixTree.lookup (config env) t (n.key.take prefixLen))
  else none

def findExactMatch (n : Name) (prefixLen : Nat) : Option Nat :=
  if min n.length prefixLen ≤ maxDepth then t.find (config env) (n.key.take prefixLen) else none

/-- `NameTree::findLongestPrefixMatch` by name. -/
def findLongestPrefixMatch (n : Name) : Option Nat :=
  PrefixTree.findLongestPrefixMatch (config env) t selected maxDepth n.key

/-- The loop by PIT entry that goes deeper: at most `count` nodes, from `i` components on. -/
def deepen (n : Name) : Nat → Nat → Nat → Nat
  | 0, _, nte => nte
  | count + 1, i, nte =>
    match findExactMatch env t n i with
    | some exact => deepen n count (i + 1) exact
    | none => nte

/-- `NameTree::findLongestPrefixMatch` by PIT entry: its node and its name. -/
def findLongestPrefixMatchOfPit (nte : Nat) (n : Name) : Option Nat :=
  let len := ((t.get nte).map (·.name.length)).getD 0
  let nte :=
    if len < n.length then deepen env t n (min n.length maxDepth - len) (len + 1) nte else nte
  t.findUp selected nte

def findAllMatches (n : Name) : List Nat :=
  match findLongestPrefixMatch env t selected n with
  | some nte => t.filterUp selected nte
  | none => []

/-- `NameTree::fullEnumerate` over all nodes: bucket by bucket. -/
def fullEnumerate : List Nat := t.ht.toList.map Prod.snd

def partialEnumerate (pfx : Name)
    (wanted : Nat → TreeNode (List UInt8) TableEntries → Bool × Bool) :
    List Nat :=
  match findExactMatch env t pfx pfx.length with
  | some nte => t.enumerateFrom wanted (maxDepth + 1) nte
  | none => []

/-- The links fit, and no name is deeper than the limit. -/
structure Sound : Prop where
  linked : t.Linked (config env)
  depth : ∀ a n, t.get a = some n → n.name.length ≤ maxDepth

variable {env t selected} {a nte : Nat} {n : Name} {node : TreeNode (List UInt8) TableEntries}

namespace Sound

theorem init : Sound env (init (config env)) where
  linked := linked_init
  depth := by
    intro a n hn
    cases hn

variable (hs : Sound env t)
include hs

theorem modify (nte : Nat) (f : TableEntries → TableEntries) : Sound env (t.modify nte f) where
  linked := hs.linked.modify nte f
  depth := by
    intro a n hn
    obtain ⟨m, hm, hname, -⟩ := links_of_get_modify hn
    exact hname ▸ hs.depth a m hm

theorem lookup {prefixLen : Nat} {t' : NameTree}
    (h : NameTree.lookup env t n prefixLen = some (nte, t')) :
    Sound env t' ∧ Grows (config env) t t' (n.key.take prefixLen) ∧
      ∃ node, t'.get nte = some node ∧ node.name = n.key.take prefixLen := by
  obtain ⟨hlen, h⟩ := ite_none_right_eq_some.1 h
  obtain ⟨hlinked, hgrows, hfound⟩ := hs.linked.lookup (n.key.take prefixLen)
  rw [some.inj h] at hlinked hgrows hfound
  refine ⟨⟨hlinked, fun a m hm => ?_⟩, hgrows, hfound⟩
  cases hold : t.get a with
  | some m₀ => grind [Grows.old, depth]
  | none =>
    have hle := (hgrows.new hm hold).2.length_le
    rw [length_take] at hle
    omega

theorem shrinks {t' : NameTree} {k : NameKey} (hl : t'.Linked (config env))
    (h : Shrinks (config env) t t' k) : Sound env t' where
  linked := hl
  depth := by
    intro a m' hm'
    obtain ⟨m, hm, hname, -⟩ := h.kept hm'
    exact hname ▸ hs.depth a m hm

theorem eraseIfEmpty (hnode : t.get nte = some node) (canEraseAncestors : Bool) :
    ∃ t', t.eraseIfEmpty (config env) nte canEraseAncestors = some t' ∧ Sound env t' ∧
      Shrinks (config env) t t' node.name := by
  cases canEraseAncestors with
  | true =>
    obtain ⟨t', ht', hl, hshrinks, -⟩ := hs.linked.eraseIfEmpty hnode
    exact ⟨t', ht', hs.shrinks hl hshrinks, hshrinks⟩
  | false =>
    refine ⟨_, eraseIfEmpty_false hnode, ?_⟩
    split
    · rename_i hempty
      have hshrinks := Shrinks.eraseNode hnode hempty
      have hl := hs.linked.eraseNode hnode (children_eq_nil_of_isEmpty hempty)
      exact ⟨hs.shrinks hl hshrinks, hshrinks⟩
    · exact ⟨hs, .refl t _⟩

end Sound

variable (hs : Sound env t)
include hs

theorem findExactMatch_eq_some_iff {prefixLen : Nat} :
    findExactMatch env t n prefixLen = some a ↔
      ∃ node, t.get a = some node ∧ node.name = n.key.take prefixLen := by
  unfold findExactMatch
  split
  · exact hs.linked.find_eq_some_iff
  · grind [key, Sound.depth]

theorem findExactMatch_eq_none_iff {prefixLen : Nat} :
    findExactMatch env t n prefixLen = none ↔
      ∀ a node, t.get a = some node → node.name ≠ n.key.take prefixLen := by
  constructor
  · intro h a node hnode hname
    rw [(findExactMatch_eq_some_iff hs).2 ⟨node, hnode, hname⟩] at h
    cases h
  · intro h
    cases hfind : findExactMatch env t n prefixLen with
    | none => rfl
    | some a => grind [findExactMatch_eq_some_iff]

theorem findLongestPrefixMatch_eq_some_iff :
    findLongestPrefixMatch env t selected n = some a ↔ t.IsLongest selected n.key a :=
  hs.linked.findLongestPrefixMatch_eq_some_iff hs.depth

/-- **All matches** are the nodes of the prefixes that meet the condition. -/
theorem mem_findAllMatches_iff :
    a ∈ findAllMatches env t selected n ↔
      ∃ node, t.get a = some node ∧ selected node = true ∧ node.name <+: n.key := by
  unfold findAllMatches
  cases hfind : findLongestPrefixMatch env t selected n with
  | none =>
    refine ⟨fun hmem => absurd hmem not_mem_nil, ?_⟩
    rintro ⟨node, hnode, hsel, hpre⟩
    exact absurd hpre (hs.linked.findLongestPrefixMatch_eq_none hs.depth hfind hnode hsel)
  | some top =>
    obtain ⟨longest, htop, -, htopPre, hmax⟩ := (findLongestPrefixMatch_eq_some_iff hs).1 hfind
    show a ∈ t.filterUp selected top ↔ _
    rw [filterUp, mem_filter, hs.linked.mem_path_iff htop]
    constructor
    · grind
    · rintro ⟨node, hnode, hsel, hpre⟩
      -- the longest match is at least as long, and both are prefixes of the name
      have hup := prefix_of_prefix_length_le hpre htopPre (hmax a node hnode hsel hpre)
      exact ⟨⟨node, hnode, hup⟩, by rw [hnode, any_some, hsel]⟩

theorem nodup_findAllMatches : (findAllMatches env t selected n).Nodup := by
  unfold findAllMatches
  cases hfind : findLongestPrefixMatch env t selected n with
  | none => exact nodup_nil
  | some top =>
    obtain ⟨longest, htop, -⟩ := (findLongestPrefixMatch_eq_some_iff hs).1 hfind
    exact (hs.linked.path_nodup htop).filter _

theorem deepen_spec {count i : Nat} (hnode : t.get nte = some node)
    (hname : node.name = n.key.take i) (hle : i + count ≤ n.length)
    (hcount : min n.length maxDepth ≤ i + count) :
    ∃ deepest, t.get (deepen env t n count (i + 1) nte) = some deepest ∧ deepest.name <+: n.key ∧
      ∀ b m, t.get b = some m → m.name <+: n.key → m.name <+: deepest.name := by
  induction count generalizing nte node i with
  | zero =>
    refine ⟨node, hnode, hname ▸ take_prefix _ _, fun b m hm hpre => ?_⟩
    have hlen := hs.depth b m hm
    have hle := hpre.length_le
    rw [key, length_map] at hle
    rw [hname]
    exact prefix_take_iff.2 ⟨hpre, by omega⟩
  | succ count ih =>
    rw [deepen]
    cases hfind : findExactMatch env t n (i + 1) with
    | some exact => grind [findExactMatch_eq_some_iff]
    | none =>
      refine ⟨node, hnode, hname ▸ take_prefix _ _, fun b m hm hpre => ?_⟩
      rw [hname]
      refine prefix_take_iff.2 ⟨hpre, ?_⟩
      by_contra hlong
      -- a longer name would have an ancestor of length `i + 1`
      have htake : n.key.take (i + 1) <+: n.key := take_prefix _ _
      have hanc : n.key.take (i + 1) <+: m.name :=
        prefix_of_prefix_length_le htake hpre (by rw [length_take]; omega)
      obtain ⟨c, x, hx, hxname⟩ := hs.linked.exists_of_prefix hm hanc
      exact (findExactMatch_eq_none_iff hs).1 hfind c x hx hxname

/-- **The longest prefix match of a PIT entry** is that of its name, though it may hang above it. -/
theorem findLongestPrefixMatchOfPit_eq_some_iff {depth : Nat} (hnode : t.get nte = some node)
    (hname : node.name = n.key.take depth) (hdepth : depth ≤ n.length) :
    findLongestPrefixMatchOfPit env t selected nte n = some a ↔ t.IsLongest selected n.key a := by
  have hlen : node.name.length = depth := by
    rw [hname, length_take, key, length_map]
    omega
  have hdeepest : ∃ deepest, t.get (if depth < n.length then
        deepen env t n (min n.length maxDepth - depth) (depth + 1) nte else nte) = some deepest ∧
      deepest.name <+: n.key ∧
      ∀ b m, t.get b = some m → m.name <+: n.key → m.name <+: deepest.name := by
    split
    · exact deepen_spec hs hnode hname (by omega) (by omega)
    · -- the entry hangs from the node of its whole name
      have hwhole : node.name = n.key := by
        rw [hname, take_of_length_le (by rw [key, length_map]; omega)]
      exact ⟨node, hnode, hwhole ▸ prefix_rfl, fun b m _ hpre => hwhole ▸ hpre⟩
  obtain ⟨deepest, hget, hpre, hall⟩ := hdeepest
  rw [findLongestPrefixMatchOfPit, hnode, map_some, getD_some, hlen,
    hs.linked.findUp_eq_some_iff hget]
  constructor
  · rintro ⟨m, hm, hsel, hmpre, hlongest⟩
    exact ⟨m, hm, hsel, hmpre.trans hpre, fun b x hx hxsel hxpre =>
      hlongest b x hx hxsel (hall b x hx hxpre)⟩
  · rintro ⟨m, hm, hsel, hmpre, hlongest⟩
    exact ⟨m, hm, hsel, hall a m hm hmpre, fun b x hx hxsel hxpre =>
      hlongest b x hx hxsel (hxpre.trans hpre)⟩

end NameTree

end NdnMulticast.Nfd
