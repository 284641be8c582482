/-
  The tables of the forwarder as they hang from one name tree, after `fib.cpp`, `pit.cpp`,
  `measurements.cpp`, `strategy-choice.cpp` and `cleanup.cpp` of `daemon/table`, and the FIB
  commands of `daemon/mgmt/fib-manager.cpp`.

  An operation is a partial function on the state; `none` means that an assertion of the
  source fails or that an entry is not in its table.
-/

import NdnMulticast.Nfd.Measurements
import NdnMulticast.Nfd.NameTree

namespace NdnMulticast.Nfd

open Lib Ndn

/-! ## Entries -/

/-- `StrategyInfoHost::insertStrategyInfo`: an item of the same type stays. -/
def StrategyInfoHost.insertStrategyInfo (host : StrategyInfoHost) (x : StrategyInfo) :
    StrategyInfoHost :=
  if host.any (·.typeId == x.typeId) then host else host ++ [x]

/-- A change of the records of a PIT entry. -/
inductive RecordUpdate where
  | insertOrUpdateInRecord (face : FacePtr) (i : Interest) (nonce : List UInt8) (now : Int)
  | deleteInRecord (face : FacePtr)
  | clearInRecords
  | insertOrUpdateOutRecord (face : FacePtr) (i : Interest) (nonce : List UInt8) (now : Int)
  | deleteOutRecord (face : FacePtr)
  | setIncomingNack (face : FacePtr) (reason : NackReason)

/-- The part of a PIT entry that an item is placed on. -/
inductive PitPart where
  | entry
  | inRecord (face : FacePtr)
  | outRecord (face : FacePtr)
deriving DecidableEq, Repr

namespace PitEntry

variable (x : PitEntry)

def ofInterest (id : EntryId) (i : Interest) : PitEntry :=
  ⟨id, .ofInterest i, [], fun _ => [], fun _ => []⟩

/-- A change of the records.  A new record carries no items. -/
def update (serial : Nat) : RecordUpdate → PitEntry
  | .insertOrUpdateInRecord face i nonce now =>
    { x with
      entry := x.entry.insertOrUpdateInRecord face i nonce now serial
      inInfo := if (x.entry.getInRecord face).isSome then x.inInfo
        else Function.update x.inInfo face [] }
  | .deleteInRecord face => { x with entry := x.entry.deleteInRecord face }
  | .clearInRecords => { x with entry := x.entry.clearInRecords }
  | .insertOrUpdateOutRecord face i nonce now =>
    { x with
      entry := x.entry.insertOrUpdateOutRecord face i nonce now
      outInfo := if (x.entry.getOutRecord face).isSome then x.outInfo
        else Function.update x.outInfo face [] }
  | .deleteOutRecord face => { x with entry := x.entry.deleteOutRecord face }
  | .setIncomingNack face reason => { x with entry := x.entry.setIncomingNack face reason }

def insertStrategyInfo (part : PitPart) (item : StrategyInfo) : PitEntry :=
  match part with
  | .entry => { x with info := x.info.insertStrategyInfo item }
  | .inRecord face =>
    { x with inInfo := Function.update x.inInfo face ((x.inInfo face).insertStrategyInfo item) }
  | .outRecord face =>
    { x with outInfo := Function.update x.outInfo face ((x.outInfo face).insertStrategyInfo item) }

/-- What `clearStrategyInfo` of a node does to each PIT entry. -/
def clearStrategyInfo : PitEntry :=
  { x with info := [], inInfo := fun _ => [], outInfo := fun _ => [] }

def deleteInOutRecords (face : FacePtr) : PitEntry :=
  { x with entry := (x.entry.deleteInRecord face).deleteOutRecord face }

end PitEntry

namespace TableEntries

variable (v : TableEntries)

def setFibEntry (fibEntry : Option (List NextHop)) : TableEntries := { v with fibEntry }

def setMeasurementsEntry (measurementsEntry : Option MeasurementsEntry) : TableEntries :=
  { v with measurementsEntry }

def setStrategyChoiceEntry (strategyChoiceEntry : Option Instance) : TableEntries :=
  { v with strategyChoiceEntry }

def insertPitEntry (x : PitEntry) : TableEntries := { v with pitEntries := v.pitEntries ++ [x] }

/-- A change of the PIT entries in place. -/
def mapPitEntries (f : PitEntry → PitEntry) : TableEntries :=
  { v with pitEntries := v.pitEntries.map f }

/-- `Entry::erasePitEntry`: the last one takes its place. -/
def erasePitEntry (id : EntryId) : TableEntries :=
  match v.pitEntries.getLast? with
  | some last =>
    { v with pitEntries := (v.pitEntries.set (v.pitEntries.findIdx (·.id == id)) last).dropLast }
  | .none => v

/-- The static function `clearStrategyInfo` of the StrategyChoice table. -/
def clearStrategyInfo : TableEntries :=
  (v.mapPitEntries PitEntry.clearStrategyInfo).setMeasurementsEntry
    (v.measurementsEntry.map fun m => { m with info := [] })

end TableEntries

/-! ## The tables -/

structure Tables where
  nameTree : NameTree
  /-- The counters `m_nItems` of the tables. -/
  nFib : UInt64
  nPit : UInt64
  nMeasurements : UInt64
  nStrategyChoice : UInt64
  nextEntryId : EntryId
  nextSerial : Nat
  nextPtr : Nat

namespace Tables

variable (env : NameTreeEnv) (t : Tables)

/-- What is attached to a node. -/
def get (nte : Nat) : Option TableEntries := (t.nameTree.get nte).map TreeNode.value

@[simps] def modify (nte : Nat) (f : TableEntries → TableEntries) : Tables :=
  { t with nameTree := t.nameTree.modify nte f }

def lookup (n : Name) (prefixLen : Nat) : Option (Nat × Tables) :=
  (NameTree.lookup env t.nameTree n prefixLen).map fun (nte, nameTree) => (nte, { t with nameTree })

def eraseIfEmpty (nte : Nat) (canEraseAncestors : Bool) : Option Tables :=
  (t.nameTree.eraseIfEmpty (NameTree.config env) nte canEraseAncestors).map fun nameTree =>
    { t with nameTree }

/-- The node a PIT entry is attached to. -/
def nodeOf (id : EntryId) : Option Nat :=
  (t.nameTree.nodes.cells.find? fun cell => cell.2.value.pitEntries.any (·.id == id)).map Prod.fst

namespace Fib

def insert (pfx : Name) : Option (Nat × Tables) := do
  let (nte, t) ← t.lookup env pfx pfx.length
  let v ← t.get nte
  if v.fibEntry.isSome then some (nte, t)
  else
    some (nte, { t.modify nte (·.setFibEntry (some [])) with nFib := t.nFib + 1 })

/-- `Fib::erase` of the entry at a node. -/
def eraseAt (nte : Nat) (canDeleteNte : Bool) : Option Tables := do
  let t := t.modify nte (·.setFibEntry none)
  let t ← if canDeleteNte then t.eraseIfEmpty env nte true else some t
  some { t with nFib := t.nFib - 1 }

/-- `Fib::erase` by name. -/
def erase (pfx : Name) : Option Tables :=
  match NameTree.findExactMatch env t.nameTree pfx pfx.length with
  | some nte => eraseAt env t nte true
  | none => some t

/-- The next hops of the FIB entry at a node. -/
def nextHops (nte : Nat) : Option (List NextHop) := (t.get nte).bind TableEntries.fibEntry

/-- `Fib::erase` by entry; the empty entry is attached to no node. -/
def eraseEntry : Option Nat → Option Tables
  | none => some t
  | some nte => do
      let _ ← nextHops t nte
      eraseAt env t nte true

def addOrUpdateNextHop (nte : Nat) (face : FacePtr) (cost : Nat) : Option Tables := do
  let hops ← nextHops t nte
  some (t.modify nte (·.setFibEntry (some (Nfd.Fib.addNextHop hops face cost))))

/-- `Fib::removeNextHop`: an entry without next hops goes, but its node stays. -/
def removeNextHop (nte : Nat) (face : FacePtr) : Option Tables := do
  let hops ← nextHops t nte
  if hops.any (·.face == face) then
    let rest := NextHops.removeNextHop hops face
    let t := t.modify nte (·.setFibEntry (some rest))
    if rest = [] then eraseAt env t nte false else some t
  else some t

def findExactMatch (pfx : Name) : Option Nat :=
  (NameTree.findExactMatch env t.nameTree pfx pfx.length).filter fun nte => (nextHops t nte).isSome

end Fib

structure ControlResponse where
  code : Nat
  text : String
deriving DecidableEq, Repr

namespace FibManager

/-- `FibManager::addNextHop`.  `face` is what the face table has for the face id. -/
def addNextHop (pfx : Name) (face : Option FacePtr) (cost : Nat) :
    Option (ControlResponse × Tables) :=
  if maxDepth < pfx.length then
    some (⟨414, "FIB entry prefix cannot exceed 32 components"⟩, t)
  else
    match face with
    | none => some (⟨410, "Face not found"⟩, t)
    | some face => do
        let (nte, t) ← Fib.insert env t pfx
        let t ← Fib.addOrUpdateNextHop t nte face cost
        some (⟨200, "Success"⟩, t)

/-- `FibManager::removeNextHop`, which answers before it acts. -/
def removeNextHop (pfx : Name) (face : Option FacePtr) : Option (ControlResponse × Tables) := do
  let t ← match face, Fib.findExactMatch env t pfx with
    | some face, some nte => Fib.removeNextHop env t nte face
    | _, _ => some t
  some (⟨200, "Success"⟩, t)

end FibManager

namespace Pit

/-- The PIT entry of a node that `findOrInsert` takes. -/
def matching (v : TableEntries) (i : Interest) : Option PitEntry :=
  v.pitEntries.find? fun x => x.entry.canMatch i (nteDepth i.name)

/-- `Pit::insert`: the entry, and whether it is new. -/
def insert (i : Interest) : Option (EntryId × Bool × Tables) := do
  let (nte, t) ← t.lookup env i.name (nteDepth i.name)
  let v ← t.get nte
  match matching v i with
  | some x => some (x.id, false, t)
  | none =>
    let x := PitEntry.ofInterest t.nextEntryId i
    some (x.id, true,
      { t.modify nte (·.insertPitEntry x) with
        nPit := t.nPit + 1
        nextEntryId := t.nextEntryId + 1 })

/-- `Pit::find`; `none` if the assertion fails that a node is not empty. -/
def find (i : Interest) : Option (Option EntryId) :=
  match NameTree.findExactMatch env t.nameTree i.name (nteDepth i.name) with
  | none => some none
  | some nte => do
      let node ← t.nameTree.get nte
      match matching node.value i with
      | some x => some (some x.id)
      | none => if PrefixTree.isEmpty (NameTree.config env) node then none else some none

def erase (id : EntryId) : Option Tables := do
  let nte ← t.nodeOf id
  let t ← (t.modify nte (·.erasePitEntry id)).eraseIfEmpty env nte true
  some { t with nPit := t.nPit - 1 }

/-- Changes one PIT entry, which is attached to a node. -/
def modify (id : EntryId) (f : PitEntry → PitEntry) : Option Tables := do
  let nte ← t.nodeOf id
  some (t.modify nte (·.mapPitEntries fun x => if x.id = id then f x else x))

/-- The operations on in-records and out-records. -/
def updateRecords (id : EntryId) (u : RecordUpdate) : Option Tables := do
  let t' ← modify t id (·.update t.nextSerial u)
  some { t' with nextSerial := t.nextSerial + 1 }

def findAllDataMatches (sha256 : List UInt8 → List UInt8) (d : Data) : List PitEntry :=
  (NameTree.findAllMatches env t.nameTree (fun node => !node.value.pitEntries.isEmpty)
    d.name).flatMap
    fun nte => ((t.get nte).elim [] TableEntries.pitEntries).filter fun x =>
      x.entry.interest.matchesData sha256 d

end Pit

namespace Measurements

variable (nte : Nat) (now : Int)

/-- `Measurements::get` at a node. -/
def getAt : Option Tables := do
  let v ← t.get nte
  if v.measurementsEntry.isSome then some t
  else
    let m : MeasurementsEntry := ⟨now + Nfd.Measurements.initialLifetime, []⟩
    some { t.modify nte (·.setMeasurementsEntry (some m)) with
      nMeasurements := t.nMeasurements + 1 }

/-- `Measurements::get` by name, cut to the depth of the tree. -/
def get (n : Name) (now : Int) : Option Tables := do
  let (nte, t) ← t.lookup env n (min n.length maxDepth)
  getAt t nte now

/-- `Measurements::get` by FIB entry; the empty entry has the empty prefix. -/
def getOfFib (nte : Option Nat) (now : Int) : Option Tables :=
  match nte with
  | none => get env t [] now
  | some nte => do
      let _ ← Fib.nextHops t nte
      getAt t nte now

/-- By `NameTree::lookup`: an entry whose name ends with a digest has measurements below its node.
    -/
def getOfPit (id : EntryId) (now : Int) : Option Tables := do
  let nte ← t.nodeOf id
  let v ← t.get nte
  let x ← v.pitEntries.find? (·.id == id)
  let n := x.entry.name
  if n.getLast?.any Component.isImplicitSha256Digest && decide (n.length ≤ maxDepth) then
    get env t n now
  else getAt t nte now

def getParent : Option Tables := do
  let node ← t.nameTree.get nte
  let _ ← node.value.measurementsEntry
  if node.name = [] then some t
  else
    let parent ← node.parent
    getAt t parent now

def extendLifetime (lifetime : Int) : Option Tables := do
  let v ← t.get nte
  let m ← v.measurementsEntry
  some (t.modify nte
    (·.setMeasurementsEntry (some { m with expiry := max m.expiry (now + lifetime) })))

def cleanup : Option Tables := do
  let v ← t.get nte
  let _ ← v.measurementsEntry
  let t ← (t.modify nte (·.setMeasurementsEntry none)).eraseIfEmpty env nte true
  some { t with nMeasurements := t.nMeasurements - 1 }

end Measurements

namespace StrategyChoice

variable (pfx : Name) (nte : Nat)

/-- The strategy object of the choice at a node. -/
def strategyAt : Option Instance := (t.get nte).bind TableEntries.strategyChoiceEntry

/-- `nteHasStrategyChoiceEntry`. -/
def hasChoice (node : TreeNode (List UInt8) TableEntries) : Bool :=
  node.value.strategyChoiceEntry.isSome

/-- `StrategyChoice::findEffectiveStrategy` by name. -/
def findEffectiveStrategy (n : Name) : Option Instance :=
  (NameTree.findLongestPrefixMatch env t.nameTree hasChoice n).bind (strategyAt t)

/-- `StrategyChoice::findEffectiveStrategy` by PIT entry. -/
def findEffectiveStrategyOfPit (x : PitEntry) : Option Instance :=
  (NameTree.findLongestPrefixMatchOfPit env t.nameTree hasChoice nte x.entry.name).bind
    (strategyAt t)

/-- `StrategyChoice::findEffectiveStrategy` by measurements entry. -/
def findEffectiveStrategyOfMeasurements : Option Instance :=
  (t.nameTree.findUp hasChoice nte).bind (strategyAt t)

/-- The nodes that `changeStrategy` visits, and those it goes below. -/
def changes (root : Nat) (nte : Nat) (node : TreeNode (List UInt8) TableEntries) : Bool × Bool :=
  if nte = root then (true, true)
  else if hasChoice node then (false, false)
  else (true, true)

/-- `StrategyChoice::changeStrategy` for the choice at node `root`, whose prefix is `pfx`. -/
def changeStrategy (root : Nat) (pfx : Name) (oldStrategy newStrategy : InstanceName) : Tables :=
  if areSameType oldStrategy newStrategy then t
  else
    (NameTree.partialEnumerate env t.nameTree pfx (changes root)).foldl
      (fun t nte => t.modify nte TableEntries.clearStrategyInfo) t

def setDefaultStrategy (name : InstanceName) : Option Tables := do
  let (nte, t) ← t.lookup env [] 0
  some { t.modify nte (·.setStrategyChoiceEntry (some ⟨t.nextPtr, name⟩)) with
    nStrategyChoice := t.nStrategyChoice + 1
    nextPtr := t.nextPtr + 1 }

/-- `StrategyChoice::insert` of a registered strategy. -/
def insert (name : InstanceName) : Option Tables :=
  if maxDepth < pfx.length then some t
  else do
    let (nte, t) ← t.lookup env pfx pfx.length
    let v ← t.get nte
    let new : Instance := ⟨t.nextPtr, name⟩
    match v.strategyChoiceEntry with
    | some old =>
      if old.instanceName = name then some t
      else
        let t := changeStrategy env t nte pfx old.instanceName name
        some { t.modify nte (·.setStrategyChoiceEntry (some new)) with
          nextPtr := t.nextPtr + 1 }
    | none =>
      let old ← findEffectiveStrategy env t pfx
      let t := { t.modify nte (·.setStrategyChoiceEntry (some new)) with
        nStrategyChoice := t.nStrategyChoice + 1
        nextPtr := t.nextPtr + 1 }
      some (changeStrategy env t nte pfx old.instanceName name)

/-- `StrategyChoice::erase`.  The strategy of the parent is looked up by a name encoded anew. -/
def erase : Option Tables :=
  if pfx = [] then none
  else
    match NameTree.findExactMatch env t.nameTree pfx pfx.length with
    | none => some t
    | some nte =>
      match strategyAt t nte with
      | none => some t
      | some old => do
          let parent ← findEffectiveStrategy env t (Name.reencoded pfx.dropLast)
          let t := changeStrategy env t nte pfx old.instanceName parent.instanceName
          let t ← (t.modify nte (·.setStrategyChoiceEntry none)).eraseIfEmpty env nte true
          some { t with nStrategyChoice := t.nStrategyChoice - 1 }

end StrategyChoice

/-! ## Face removal -/

/-- The FIB entry and the PIT entries of one node, as `cleanupOnFaceRemoval` visits it. -/
def removeFaceAt (face : FacePtr) (nte : Nat) : Option Tables :=
  (if (Fib.nextHops t nte).isSome then Fib.removeNextHop env t nte face else some t).map fun t =>
    t.modify nte (·.mapPitEntries (·.deleteInOutRecords face))

/-- What a node without entries puts into the multimap `maybeEmptyNtes`. -/
def maybeEmptyNte (nte : Nat) : Option (Nat × Nat) := do
  let node ← t.nameTree.get nte
  if node.value.hasTableEntries then none else some (node.name.length, nte)

/-- The multimap from its end: the longest names first, the last put in first. -/
def maybeEmptyNtes (ntes : List Nat) : List (Nat × Nat) :=
  ((ntes.filterMap t.maybeEmptyNte).insertionSort fun a b => a.1 ≤ b.1).reverse

/-- A visit changes the entries of one node only, so bare nodes can be found after all visits. -/
def cleanupOnFaceRemoval (face : FacePtr) : Option Tables := do
  let ntes := NameTree.fullEnumerate t.nameTree
  let t ← ntes.foldlM (fun t nte => t.removeFaceAt env face nte) t
  (t.maybeEmptyNtes ntes).foldlM (fun t x => t.eraseIfEmpty env x.2 false) t

/-! ## The operations as events -/

inductive Event where
  | fibInsert (pfx : Name)
  | addOrUpdateNextHop (nte : Nat) (face : FacePtr) (cost : Nat)
  | removeNextHop (nte : Nat) (face : FacePtr)
  | fibErase (pfx : Name)
  | fibEraseEntry (nte : Option Nat)
  | mgmtAddNextHop (pfx : Name) (face : Option FacePtr) (cost : Nat)
  | mgmtRemoveNextHop (pfx : Name) (face : Option FacePtr)
  | pitInsert (i : Interest)
  | pitFind (i : Interest)
  | pitErase (id : EntryId)
  | updateRecords (id : EntryId) (u : RecordUpdate)
  | insertPitInfo (id : EntryId) (part : PitPart) (item : StrategyInfo)
  | getMeasurements (n : Name) (now : Int)
  | getMeasurementsOfFib (nte : Option Nat) (now : Int)
  | getMeasurementsOfPit (id : EntryId) (now : Int)
  | getParent (nte : Nat) (now : Int)
  | insertMeasurementsInfo (nte : Nat) (item : StrategyInfo)
  | extendLifetime (nte : Nat) (now lifetime : Int)
  | cleanup (nte : Nat)
  | chooseStrategy (pfx : Name) (name : InstanceName)
  | unsetStrategy (pfx : Name)
  | removeFace (face : FacePtr)

def empty : Tables := ⟨PrefixTree.init (NameTree.config env), 0, 0, 0, 0, 0, 0, 0⟩

/-- The tables at start-up. -/
def init (default : InstanceName) : Option Tables :=
  StrategyChoice.setDefaultStrategy env (empty env) default

def step (t : Tables) : Event → Option Tables
  | .fibInsert pfx => (Fib.insert env t pfx).map Prod.snd
  | .addOrUpdateNextHop nte face cost => Fib.addOrUpdateNextHop t nte face cost
  | .removeNextHop nte face => Fib.removeNextHop env t nte face
  | .fibErase pfx => Fib.erase env t pfx
  | .fibEraseEntry nte => Fib.eraseEntry env t nte
  | .mgmtAddNextHop pfx face cost => (FibManager.addNextHop env t pfx face cost).map Prod.snd
  | .mgmtRemoveNextHop pfx face => (FibManager.removeNextHop env t pfx face).map Prod.snd
  | .pitInsert i => (Pit.insert env t i).map fun r => r.2.2
  | .pitFind i => (Pit.find env t i).map fun _ => t
  | .pitErase id => Pit.erase env t id
  | .updateRecords id u => Pit.updateRecords t id u
  | .insertPitInfo id part item => Pit.modify t id (·.insertStrategyInfo part item)
  | .getMeasurements n now => Measurements.get env t n now
  | .getMeasurementsOfFib nte now => Measurements.getOfFib env t nte now
  | .getMeasurementsOfPit id now => Measurements.getOfPit env t id now
  | .getParent nte now => Measurements.getParent t nte now
  | .insertMeasurementsInfo nte item => do
      let v ← t.get nte
      let m ← v.measurementsEntry
      some (t.modify nte
        (·.setMeasurementsEntry (some { m with info := m.info.insertStrategyInfo item })))
  | .extendLifetime nte now lifetime => Measurements.extendLifetime t nte now lifetime
  | .cleanup nte => Measurements.cleanup env t nte
  | .chooseStrategy pfx name => StrategyChoice.insert env t pfx name
  | .unsetStrategy pfx => StrategyChoice.erase env t pfx
  | .removeFace face => t.cleanupOnFaceRemoval env face

end Tables

end NdnMulticast.Nfd
