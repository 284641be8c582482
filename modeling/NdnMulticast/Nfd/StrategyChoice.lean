/-
  The StrategyChoice table, after `daemon/table/strategy-choice.cpp`.

  Each entry owns a strategy object; `ptr` is its identity, and no object is made twice.
  Choices have at most `maxDepth` components.
-/

import NdnMulticast.Nfd.Fib

namespace NdnMulticast.Nfd

open Lib Ndn List PrefixMap

/-- The registered strategies. -/
inductive StrategyType where
  | bestRoute
  | bestRoute2
  | multicast
  | random
  | access
  | ncc
  | asf
  | selfLearning
deriving DecidableEq, Repr

/-- What an instance name stands for: a registered strategy and the parameters. -/
structure InstanceName where
  type : StrategyType
  parameters : List (List UInt8)
deriving DecidableEq, Repr

/-- A strategy object. -/
structure Instance where
  ptr : Nat
  instanceName : InstanceName
deriving DecidableEq, Repr

def areSameType (a b : InstanceName) : Bool := a.type == b.type

structure StrategyChoice where
  table : PrefixMap maxDepth (List UInt8) Instance
  nextPtr : Nat
  hasRoot : ∃ inst, ([], inst) ∈ table.entries
  ptr_lt : ∀ x ∈ table.entries, x.2.ptr < nextPtr
  ptrs_nodup : (table.entries.map fun x => x.2.ptr).Nodup

namespace StrategyChoice

/-- `StrategyChoice::setDefaultStrategy`. -/
def init (name : InstanceName) : StrategyChoice where
  table := PrefixMap.empty.insert [] ⟨0, name⟩ (by decide)
  nextPtr := 1
  hasRoot := ⟨_, PrefixMap.mem_insert.2 (Or.inl rfl)⟩
  ptr_lt := by simp [PrefixMap.insert, PrefixMap.erase, PrefixMap.empty]
  ptrs_nodup := by simp [PrefixMap.insert, PrefixMap.erase, PrefixMap.empty]

variable (sc : StrategyChoice)

theorem findLongestPrefixMatch_isSome (k : NameKey) :
    (sc.table.findLongestPrefixMatch k).isSome = true := by
  obtain ⟨inst, hroot⟩ := sc.hasRoot
  have hbelow : [] <+: k := nil_prefix
  obtain ⟨x, hx⟩ := exists_findLongestPrefixMatch hroot hbelow
  rw [hx]
  rfl

/-- The choice that governs a name: its key and the strategy object. -/
def findChoice (k : NameKey) : NameKey × Instance :=
  (sc.table.findLongestPrefixMatch k).get (sc.findLongestPrefixMatch_isSome k)

def findEffectiveStrategy (k : NameKey) : Instance := (sc.findChoice k).2

/-- Nothing changes if the prefix is too long or the entry has that instance name already. -/
def insert (pfx : Name) (name : InstanceName) : StrategyChoice :=
  if h : pfx.key.length ≤ maxDepth ∧
      (sc.table.get pfx.key).all (·.instanceName != name) = true then
    { table := sc.table.insert pfx.key ⟨sc.nextPtr, name⟩ h.1
      nextPtr := sc.nextPtr + 1
      hasRoot := by
        obtain ⟨inst, hroot⟩ := sc.hasRoot
        by_cases hkey : pfx.key = []
        · exact ⟨_, PrefixMap.mem_insert.2 (Or.inl (by rw [hkey]))⟩
        · exact ⟨inst, PrefixMap.mem_insert.2 (Or.inr ⟨hroot, fun h => hkey h.symm⟩)⟩
      ptr_lt := by
        intro x hx
        rcases PrefixMap.mem_insert.1 hx with rfl | ⟨hx, -⟩
        · exact Nat.lt_succ_self _
        · exact Nat.lt_succ_of_lt (sc.ptr_lt x hx)
      ptrs_nodup := by
        simp only [PrefixMap.insert, List.map_cons, List.nodup_cons]
        constructor
        · intro hmem
          obtain ⟨x, hx, hptr⟩ := List.mem_map.1 hmem
          exact absurd (sc.ptr_lt x (PrefixMap.mem_erase.1 hx).1) (by rw [hptr]; exact lt_irrefl _)
        · exact sc.ptrs_nodup.sublist (List.filter_sublist.map _) }
  else sc

/-- `StrategyChoice::erase`.  The source asserts that the prefix is not empty. -/
def erase (pfx : Name) : StrategyChoice :=
  if h : pfx.key = [] then sc
  else
    { table := sc.table.erase pfx.key
      nextPtr := sc.nextPtr
      hasRoot := by
        obtain ⟨inst, hroot⟩ := sc.hasRoot
        exact ⟨inst, PrefixMap.mem_erase.2 ⟨hroot, fun hkey => h hkey.symm⟩⟩
      ptr_lt := fun x hx => sc.ptr_lt x (PrefixMap.mem_erase.1 hx).1
      ptrs_nodup := sc.ptrs_nodup.sublist (List.filter_sublist.map _) }

variable {sc} {k k' : NameKey} {x : NameKey × Instance} {ptr : Nat} {pfx : Name}
  {name : InstanceName}

/-- **The effective strategy** is that of the longest prefix for which one is chosen. -/
theorem findChoice_eq_iff :
    sc.findChoice k = x ↔ x ∈ sc.table.entries ∧ x.1 <+: k ∧
      ∀ y ∈ sc.table.entries, y.1 <+: k → y.1.length ≤ x.1.length := by
  rw [← findLongestPrefixMatch_eq_some_iff, findChoice]
  constructor
  · rintro rfl
    exact (Option.some_get _).symm
  · intro h
    simp [h]

/-- A choice is as long as the name tree is deep at most, so the components beyond
    that do not matter. -/
theorem findChoice_take (k : NameKey) : sc.findChoice (k.take maxDepth) = sc.findChoice k := by
  rw [findChoice_eq_iff]
  obtain ⟨hmem, hpre, hmax⟩ := findChoice_eq_iff.1 (rfl : sc.findChoice k = sc.findChoice k)
  have htake : k.take maxDepth <+: k := take_prefix _ _
  refine ⟨hmem, ?_, fun y hy hypre => hmax y hy (hypre.trans htake)⟩
  exact prefix_take_iff.2 ⟨hpre, sc.table.length_le _ hmem⟩

theorem findChoice_mem (k : NameKey) : sc.findChoice k ∈ sc.table.entries :=
  (findChoice_eq_iff.1 rfl).1

theorem findEffectiveStrategy_ptr_eq_iff :
    (sc.findEffectiveStrategy k).ptr = (sc.findEffectiveStrategy k').ptr ↔
      sc.findChoice k = sc.findChoice k' := by
  constructor
  · intro h
    exact inj_on_of_nodup_map sc.ptrs_nodup (findChoice_mem k) (findChoice_mem k') h
  · intro h
    exact congrArg (fun x : NameKey × Instance => x.2.ptr) h

/-! ## Changes -/

/-- What `changeStrategy` is called with. -/
structure Change where
  key : NameKey
  oldStrategy : Instance
  newInstanceName : InstanceName
  /-- The old strategy is that of the entry itself, and is destroyed. -/
  destroysOld : Bool

variable (sc)

/-- The change `insert` makes: for a new entry from the strategy that was effective. -/
def changeOfInsert (pfx : Name) (name : InstanceName) : Option Change :=
  match sc.table.get pfx.key with
  | some old => if old.instanceName = name then none else some ⟨pfx.key, old, name, true⟩
  | none =>
    if pfx.key.length ≤ maxDepth then
      some ⟨pfx.key, sc.findEffectiveStrategy pfx.key, name, false⟩
    else none

/-- To the strategy of the parent, which is looked up by a name that is encoded anew. -/
def changeOfErase (pfx : Name) : Option Change :=
  if pfx.key = [] then none
  else
    (sc.table.get pfx.key).map fun old =>
      ⟨pfx.key, old,
        (sc.findEffectiveStrategy (Name.reencoded pfx.dropLast).key).instanceName, true⟩

/-- The nodes `changeStrategy` enumerates: below the entry's own, not below that of another. -/
def isCovered (key node : NameKey) : Bool :=
  key.isPrefixOf node &&
    sc.table.entries.all fun x => !(x.1.isPrefixOf node && decide (key.length < x.1.length))

/-- A strategy object belongs to an entry of the table. -/
def isInstalled (ptr : Nat) : Bool := sc.table.entries.any fun x => x.2.ptr == ptr

variable {sc}

theorem isCovered_iff (hx : x ∈ sc.table.entries) (node : NameKey) :
    sc.isCovered x.1 node = true ↔ sc.findChoice node = x := by
  simp only [isCovered, findChoice_eq_iff, hx, true_and, Bool.and_eq_true, isPrefixOf_iff_prefix,
    all_eq_true, Bool.not_eq_true', Bool.and_eq_false_imp, decide_eq_false_iff_not, not_lt]

theorem isInstalled_iff : sc.isInstalled ptr = true ↔ ∃ x ∈ sc.table.entries, x.2.ptr = ptr := by
  simp [isInstalled]

theorem isInstalled_findEffectiveStrategy (k : NameKey) :
    sc.isInstalled (sc.findEffectiveStrategy k).ptr = true :=
  isInstalled_iff.2 ⟨_, findChoice_mem k, rfl⟩

theorem mem_of_changeOfInsert {c : Change} (h : sc.changeOfInsert pfx name = some c)
    (hdestroys : c.destroysOld = true) : (c.key, c.oldStrategy) ∈ sc.table.entries := by
  unfold changeOfInsert at h
  split at h
  · grind [get_eq_some_iff]
  · grind

theorem of_changeOfErase {c : Change} (h : sc.changeOfErase pfx = some c) :
    c.destroysOld = true ∧ (c.key, c.oldStrategy) ∈ sc.table.entries := by
  obtain ⟨-, h⟩ := Option.ite_none_left_eq_some.1 h
  obtain ⟨old, hold, rfl⟩ := Option.map_eq_some_iff.1 h
  exact ⟨rfl, get_eq_some_iff.1 hold⟩

/-- All other objects stay installed. -/
theorem isInstalled_insert (h : sc.isInstalled ptr = true)
    (hkeeps : ∀ c, sc.changeOfInsert pfx name = some c → c.destroysOld = true →
      c.oldStrategy.ptr ≠ ptr) : (sc.insert pfx name).isInstalled ptr = true := by
  obtain ⟨x, hx, rfl⟩ := isInstalled_iff.1 h
  unfold insert
  split
  · rename_i hnew
    refine isInstalled_iff.2 ⟨x, mem_insert_of_ne hnew.1 hx ?_, rfl⟩
    intro hpfx
    have hget : sc.table.get pfx.key = some x.2 := get_eq_some_iff.2 (hpfx ▸ hx)
    have hname : x.2.instanceName ≠ name := by simpa [hget] using hnew.2
    exact hkeeps ⟨pfx.key, x.2, name, true⟩ (by simp [changeOfInsert, hget, hname]) rfl rfl
  · exact h

theorem isInstalled_erase (h : sc.isInstalled ptr = true)
    (hkeeps : ∀ c, sc.changeOfErase pfx = some c → c.oldStrategy.ptr ≠ ptr) :
    (sc.erase pfx).isInstalled ptr = true := by
  obtain ⟨x, hx, rfl⟩ := isInstalled_iff.1 h
  unfold erase
  split
  · exact h
  · rename_i hkey
    refine isInstalled_iff.2 ⟨x, mem_erase.2 ⟨hx, ?_⟩, rfl⟩
    intro hpfx
    have hget : sc.table.get pfx.key = some x.2 := get_eq_some_iff.2 (hpfx ▸ hx)
    exact hkeeps _ (by rw [changeOfErase, if_neg hkey, hget]; rfl) rfl

end StrategyChoice

end NdnMulticast.Nfd
