/-
  The measurements table behind the accessor that each strategy object is given, after
  `daemon/table/measurements.cpp` and `measurements-accessor.cpp`, and the two places where a
  strategy asserts that it gets an entry: `addPrefixMeasurements` of the access strategy and
  `getOrCreateNamespaceInfo` of ASF.
-/

import NdnMulticast.Nfd.StrategyChoice
import NdnMulticast.Nfd.Forwarder

namespace NdnMulticast.Nfd

open Lib Ndn Option StrategyChoice

/-- The entries and when they expire. -/
structure Measurements where
  table : PrefixMap maxDepth (List UInt8) Int

namespace Measurements

def init : Measurements := ⟨.empty⟩

/-- `Measurements::getInitialLifetime`, in nanoseconds. -/
def initialLifetime : Int := 4000000000

/-- `Measurements::get`: finds or inserts the entry of a name, cut to the depth of the name tree. -/
def get (m : Measurements) (now : Int) (n : NameKey) : NameKey × Measurements :=
  let k := n.take maxDepth
  match m.table.get k with
  | some _ => (k, m)
  | none => (k, ⟨m.table.insert k (now + initialLifetime) (List.length_take_le _ _)⟩)

/-- `Measurements::extendLifetime`; the entry is one that `get` has returned. -/
def extendLifetime (m : Measurements) (now : Int) (k : NameKey) (lifetime : Int) : Measurements :=
  ⟨m.table.filterMap fun k' expiry =>
    some (if k' = k then max expiry (now + lifetime) else expiry)⟩

theorem get_fst (m : Measurements) (now : Int) (n : NameKey) :
    (m.get now n).1 = n.take maxDepth := by
  dsimp only [get]
  split <;> rfl

end Measurements

/-- What a strategy object reaches the measurements through. -/
structure MeasurementsAccessor where
  strategyChoice : StrategyChoice
  strategy : Instance

namespace MeasurementsAccessor

variable (a : MeasurementsAccessor) (m : Measurements) (now : Int) (n : NameKey)

def filter (k : NameKey) : Option NameKey :=
  if (a.strategyChoice.findEffectiveStrategy k).ptr = a.strategy.ptr then some k else none

def get : Option NameKey × Measurements :=
  let (k, m) := m.get now n
  (a.filter k, m)

/-- A name is in the namespace of the strategy object. -/
def governs : Bool := decide ((a.strategyChoice.findEffectiveStrategy n).ptr = a.strategy.ptr)

variable {a m now n}

theorem governs_iff {k : NameKey} (ha : a.strategy = a.strategyChoice.findEffectiveStrategy k) :
    a.governs n = true ↔ a.strategyChoice.findChoice n = a.strategyChoice.findChoice k := by
  rw [governs, ha, decide_eq_true_iff, findEffectiveStrategy_ptr_eq_iff]

/-- **Access.**  An entry is given out iff the name is in the namespace of the strategy object. -/
theorem isSome_get : (a.get m now n).1.isSome = a.governs n := by
  simp only [get, filter, governs, Measurements.get_fst, findEffectiveStrategy, findChoice_take]
  split <;> simp [*]

end MeasurementsAccessor

/-! ## The access strategy -/

namespace AccessStrategy

variable (a : MeasurementsAccessor) (m : Measurements) (now : Int)

/-- `AccessStrategy::addPrefixMeasurements`: the entry updated; `none` if the assertion fails. -/
def addPrefixMeasurements (d : Data) : Option (NameKey × Measurements) :=
  let parent := if d.name = [] then (none, m) else a.get m now (Name.reencoded d.name.dropLast).key
  let found := if parent.1.isSome then parent else a.get parent.2 now d.name.key
  found.1.map fun me => (me, found.2.extendLifetime now me 8000000000)

/-- `AccessStrategy::beforeSatisfyInterest`, as far as measurements go. -/
def beforeSatisfyInterest (e : Entry) (ingress : FacePtr) (d : Data) : Option Measurements :=
  if e.hasInRecords && (e.getOutRecord ingress).isSome then
    (addPrefixMeasurements a m now d).map Prod.snd
  else some m

variable {a m now}

theorem isSome_addPrefixMeasurements (d : Data) :
    (addPrefixMeasurements a m now d).isSome = true ↔
      d.name ≠ [] ∧ a.governs (Name.reencoded d.name.dropLast).key = true ∨
        a.governs d.name.key = true := by
  simp only [addPrefixMeasurements, isSome_map]
  by_cases hname : d.name = []
  · simp [hname, MeasurementsAccessor.isSome_get]
  · grind [MeasurementsAccessor.isSome_get]

end AccessStrategy

namespace StrategyChoice

/-- The choice that governs `entry` is for a prefix of `k`, and there is none for a longer one. -/
def Covers (sc : StrategyChoice) (entry k : NameKey) : Prop :=
  (sc.findChoice entry).1 <+: k ∧
    ∀ x ∈ sc.table.entries, x.1 <+: k → x.1.length ≤ (sc.findChoice entry).1.length

instance (sc : StrategyChoice) (entry k : NameKey) : Decidable (sc.Covers entry k) :=
  inferInstanceAs (Decidable (_ ∧ _))

theorem covers_iff {sc : StrategyChoice} {entry k : NameKey} :
    sc.Covers entry k ↔ sc.findChoice k = sc.findChoice entry := by
  rw [findChoice_eq_iff]
  exact (and_iff_right (findChoice_mem entry)).symm

/-- The choice that governs `entry` covers the parent of `data`, encoded anew, or `data` itself. -/
def CoversParent (sc : StrategyChoice) (entry : NameKey) (data : Name) : Prop :=
  data ≠ [] ∧ sc.Covers entry (Name.reencoded data.dropLast).key ∨ sc.Covers entry data.key

instance (sc : StrategyChoice) (entry : NameKey) (data : Name) :
    Decidable (sc.CoversParent entry data) :=
  inferInstanceAs (Decidable (_ ∨ _))

end StrategyChoice

/-- **Measurements of the access strategy.**  For a PIT entry under the strategy and a Data, an
    entry of the table is available iff the choice for the PIT entry also governs the parent of the
    Data name or the Data name. -/
theorem addPrefixMeasurements_isSome_iff (sc : StrategyChoice) (m : Measurements) (now : Int)
    (e : Entry) (d : Data) :
    (AccessStrategy.addPrefixMeasurements ⟨sc, sc.findEffectiveStrategy e.name.key⟩ m now d).isSome
        = true ↔ sc.CoversParent e.name.key d.name := by
  rw [AccessStrategy.isSome_addPrefixMeasurements, MeasurementsAccessor.governs_iff rfl,
    MeasurementsAccessor.governs_iff rfl, CoversParent, covers_iff,
    covers_iff]

namespace Router

/-- The name with the given generic components. -/
def nameOf (components : List String) : Name := components.map Component.ofString

/-- The access strategy everywhere but under `/a/b`. -/
def accessChoice : StrategyChoice :=
  (StrategyChoice.init ⟨.access, []⟩).insert (nameOf ["a", "b"]) ⟨.bestRoute2, []⟩

/-- A consumer asks for anything under `/a`. -/
def askPrefix : Event :=
  .interest 2
    (frame (element Tlv.interest
      (name ["a"] ++ element Tlv.canBePrefix [] ++ element Tlv.nonce [0, 0, 0, 1])))
    [] [.sendInterest 5 { pendingInterest 1 with canBePrefix := true }]

def prefixed : State := ((boot [2, 5] ++ [askPrefix]).foldlM (step env) start).get (by decide)

def prefixedEntry : Entry := (prefixed.pit.get 0).get (by decide)

/-- The answer `/a/b/c`. -/
def deepData : Data := ((dataFrame ["a", "b", "c"] []).decodeData).get (by decide)

end Router

/-- `/a/b/c` satisfies an entry `/a` under the access strategy, but another is chosen for `/a/b`. -/
theorem addPrefixMeasurements_fails :
    Run (step Router.env) (fun _ _ => True) Router.start (Router.boot [2, 5] ++ [Router.askPrefix])
        Router.prefixed ∧
      Router.prefixed.pit.findAllDataMatches Router.env.sha256 Router.deepData = [0] ∧
      Router.prefixed.pit.get 0 = some Router.prefixedEntry ∧
      ∃ strategy,
        strategy = Router.accessChoice.findEffectiveStrategy Router.prefixedEntry.name.key ∧
        strategy.instanceName.type = .access ∧
        AccessStrategy.beforeSatisfyInterest ⟨Router.accessChoice, strategy⟩ .init
          Router.prefixed.now Router.prefixedEntry 5 Router.deepData = none := by
  refine ⟨Run.of_foldlM (some_get _).symm, by decide, (some_get _).symm, ?_⟩
  exact ⟨_, rfl, by decide, by decide⟩

/-! ## ASF -/

namespace AsfMeasurements

variable (a : MeasurementsAccessor) (now : Int)

/-- The loop of `getOrCreateNamespaceInfo`, over `count` prefixes from length `prefixLen` on. -/
def getFrom (n : Name) : Nat → Nat → Measurements → Option NameKey × Measurements
  | _, 0, m => (none, m)
  | prefixLen, count + 1, m =>
    let found := a.get m now (Name.reencoded (n.take prefixLen)).key
    if found.1.isSome then found else getFrom n (prefixLen + 1) count found.2

/-- `MEASUREMENTS_LIFETIME`: five minutes. -/
def lifetime : Int := 300000000000

/-- The entry that is used; `none` if the assertion fails. -/
def getOrCreateNamespaceInfo (m : Measurements) (fibEntry : FibEntry) (i : Interest) :
    Option (NameKey × Measurements) :=
  let ofFib := a.get m now fibEntry.key
  let found :=
    if ofFib.1.isSome then ofFib
    else getFrom a now i.name (fibEntry.key.length + 1)
      (i.name.length - fibEntry.key.length) ofFib.2
  found.1.map fun me => (me, found.2.extendLifetime now me lifetime)

variable {a now}

theorem isSome_getFrom (n : Name) (prefixLen count : Nat) (m : Measurements) :
    (getFrom a now n prefixLen count m).1.isSome = true ↔
      ∃ len, prefixLen ≤ len ∧ len < prefixLen + count ∧
        a.governs (Name.reencoded (n.take len)).key = true := by
  induction count generalizing prefixLen m with
  | zero =>
    constructor
    · intro h
      cases h
    · rintro ⟨len, hle, hlt, -⟩
      omega
  | succ count ih =>
    simp only [getFrom, MeasurementsAccessor.isSome_get]
    split
    · grind [MeasurementsAccessor.isSome_get]
    · grind

/-- The assertion holds if the FIB prefix is in the namespace or the loop comes to one that is. -/
theorem isSome_getOrCreateNamespaceInfo (m : Measurements) (fibEntry : FibEntry) (i : Interest) :
    (getOrCreateNamespaceInfo a now m fibEntry i).isSome = true ↔
      a.governs fibEntry.key = true ∨ ∃ len, fibEntry.key.length < len ∧ len ≤ i.name.length ∧
        a.governs (Name.reencoded (i.name.take len)).key = true := by
  simp only [getOrCreateNamespaceInfo, isSome_map, MeasurementsAccessor.isSome_get]
  split
  · rename_i hgoverns
    simp [MeasurementsAccessor.isSome_get, hgoverns]
  · grind [isSome_getFrom]

end AsfMeasurements

/-- **Measurements of ASF.**  For an Interest of a PIT entry under ASF, an entry of the table is
    available iff the FIB prefix that was looked up, or a longer prefix of the Interest name,
    encoded anew, has the same strategy as the PIT entry. -/
theorem getOrCreateNamespaceInfo_isSome_iff (fib : Fib) (sc : StrategyChoice) (m : Measurements)
    (now : Int) (e : Entry) (i : Interest) :
    (AsfMeasurements.getOrCreateNamespaceInfo ⟨sc, sc.findEffectiveStrategy e.name.key⟩ now m
        (fib.lookupFib e.interest) i).isSome = true ↔
      sc.findChoice (fib.lookupFib e.interest).key = sc.findChoice e.name.key ∨
        ∃ len, (fib.lookupFib e.interest).key.length < len ∧ len ≤ i.name.length ∧
          sc.findChoice (Name.reencoded (i.name.take len)).key = sc.findChoice e.name.key := by
  have hgoverns : ∀ k, MeasurementsAccessor.governs ⟨sc, sc.findEffectiveStrategy e.name.key⟩
    k = true ↔
      sc.findChoice k = sc.findChoice e.name.key := fun k => MeasurementsAccessor.governs_iff rfl
  simp only [AsfMeasurements.isSome_getOrCreateNamespaceInfo, hgoverns]

namespace Router

/-- ASF for names under `/a` only. -/
def asfChoice : StrategyChoice :=
  (StrategyChoice.init ⟨.bestRoute2, []⟩).insert (nameOf ["a"]) ⟨.asf, []⟩

/-- A route for `/telia/x`. -/
def teliaFib : Fib := Fib.init.addOrUpdateNextHop (nameOf ["telia", "x"]) 5 10

/-- A consumer asks for `/a`, which is to be reached through `/telia/x`. -/
def askHinted : Event :=
  .interest 2
    (frame (element Tlv.interest
      (name ["a"] ++
        element Tlv.forwardingHint
          (element Tlv.linkDelegation (element Tlv.linkPreference [1] ++ name ["telia", "x"])) ++
        element Tlv.nonce [0, 0, 0, 1])))
    [] []

def hinted : State := ((boot [2, 5] ++ [askHinted]).foldlM (step env) start).get (by decide)

def hintedEntry : Entry := (hinted.pit.get 0).get (by decide)

end Router

/-- `/a` is processed by ASF and routed by `/telia/x`, which is as long as the loop would go and not
    in the namespace of ASF. -/
theorem getOrCreateNamespaceInfo_fails :
    Run (step Router.env) (fun _ _ => True) Router.start (Router.boot [2, 5] ++ [Router.askHinted])
        Router.hinted ∧
      Router.hinted.pit.get 0 = some Router.hintedEntry ∧
      (Router.teliaFib.lookupFib Router.hintedEntry.interest).nextHops ≠ [] ∧
      ∃ strategy,
        strategy = Router.asfChoice.findEffectiveStrategy Router.hintedEntry.name.key ∧
        strategy.instanceName.type = .asf ∧
        AsfMeasurements.getOrCreateNamespaceInfo ⟨Router.asfChoice, strategy⟩ Router.hinted.now
          .init (Router.teliaFib.lookupFib Router.hintedEntry.interest)
          Router.hintedEntry.interest = none := by
  refine ⟨Run.of_foldlM (some_get _).symm, (some_get _).symm, by decide, ?_⟩
  exact ⟨_, rfl, by decide, by decide⟩

end NdnMulticast.Nfd
