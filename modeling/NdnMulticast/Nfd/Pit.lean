/-
  The Pending Interest Table, after `daemon/table/pit.cpp` and `daemon/table/pit-entry.cpp`.

  An entry is stored under an identity of its own (`EntryId`), never reused, and `serial` is
  the identity of an in-record.  An entry hangs from the name tree node of the first `nteDepth`
  components of its name; it is looked up only among those of one node.
-/

import NdnMulticast.Lib.Assoc
import NdnMulticast.Ndn.Packet
import NdnMulticast.Nfd.FaceTable

namespace NdnMulticast.Nfd

open Lib Ndn

abbrev EntryId := Nat

/-- Nanoseconds in a duration given in milliseconds, in 64-bit arithmetic. -/
def toNanoseconds (ms : Int) : Int := Int.bmod (ms * 1000000) (2 ^ 64)

inductive NackReason where
  | none
  | congestion
  | duplicate
  | noRoute
deriving DecidableEq, Repr

structure InRecord where
  serial : Nat
  face : FacePtr
  lastNonce : List UInt8
  lastRenewed : Int
  expiry : Int
  interest : Interest
deriving DecidableEq, Repr

structure OutRecord where
  face : FacePtr
  lastNonce : List UInt8
  lastRenewed : Int
  expiry : Int
  incomingNack : Option NackReason
deriving DecidableEq, Repr

/-- `MAX_LIFETIME` of a face record: ten days, in milliseconds. -/
def maxLifetime : Int := 10 * 24 * 3600 * 1000

/-- `m_expiry` as set by `FaceRecord::update`, on an unbounded clock. -/
def recordExpiry (i : Interest) (now : Int) : Int :=
  now + toNanoseconds (min i.interestLifetime maxLifetime)

/-- `InRecord::update`.  `nonce` is what `getNonce` returned. -/
def InRecord.update (r : InRecord) (i : Interest) (nonce : List UInt8) (now : Int) : InRecord :=
  { r with lastNonce := nonce, lastRenewed := now, expiry := recordExpiry i now, interest := i }

/-- `FaceRecord::update` of an out-record.  A Nack received earlier stays. -/
def OutRecord.update (r : OutRecord) (i : Interest) (nonce : List UInt8) (now : Int) : OutRecord :=
  { r with lastNonce := nonce, lastRenewed := now, expiry := recordExpiry i now }

structure Entry where
  interest : Interest
  inRecords : List InRecord
  outRecords : List OutRecord
  /-- When the scheduled `onInterestFinalize` is due, if one is scheduled. -/
  expiryTimer : Option Int
  isSatisfied : Bool
  /-- Milliseconds. -/
  dataFreshnessPeriod : Int
  inFaces_nodup : (inRecords.map InRecord.face).Nodup
  outFaces_nodup : (outRecords.map OutRecord.face).Nodup

/-- The depth of the name tree node an entry with this name hangs from. -/
def nteDepth (n : Name) : Nat :=
  min (n.length - if n.getLast?.any Component.isImplicitSha256Digest then 1 else 0) 32

namespace Entry

variable (e : Entry) (face : FacePtr) (i : Interest)

/-- A new entry has no records and no timer. -/
def ofInterest : Entry := ⟨i, [], [], none, false, 0, List.nodup_nil, List.nodup_nil⟩

def name (e : Entry) : Name := e.interest.name

/-- The entry hangs from the node of the first `depth` components of `n`. -/
def attachedAt (n : Name) (depth : Nat) : Bool :=
  nteDepth e.name == depth && Name.compare (e.name.take depth) (n.take depth) == .eq

def canMatch (nEqualNameComps : Nat) : Bool :=
  Name.compare (e.name.drop nEqualNameComps) (i.name.drop nEqualNameComps) == .eq &&
    e.interest.canBePrefix == i.canBePrefix && e.interest.mustBeFresh == i.mustBeFresh

def hasInRecords : Bool := !e.inRecords.isEmpty

def getInRecord : Option InRecord :=
  e.inRecords.find? (·.face == face)

def getOutRecord : Option OutRecord :=
  e.outRecords.find? (·.face == face)

/-- The faces that have an in-record. -/
def inFaces : List FacePtr := e.inRecords.map InRecord.face

/-- `Entry::insertOrUpdateInRecord`: a new record goes to the front. -/
def insertOrUpdateInRecord (nonce : List UInt8) (now : Int) (serial : Nat) : Entry :=
  if h : face ∈ e.inRecords.map InRecord.face then
    { e with
      inRecords := e.inRecords.map fun r => if r.face = face then r.update i nonce now else r
      inFaces_nodup := by
        have hfaces : ∀ r : InRecord,
            (if r.face = face then r.update i nonce now else r).face = r.face := by
          intro r
          split <;> rfl
        simpa [List.map_map, Function.comp_def, hfaces] using e.inFaces_nodup }
  else
    { e with
      inRecords := ⟨serial, face, nonce, now, recordExpiry i now, i⟩ :: e.inRecords
      inFaces_nodup := List.nodup_cons.2 ⟨h, e.inFaces_nodup⟩ }

def deleteInRecord : Entry :=
  { e with
    inRecords := e.inRecords.filter (·.face != face)
    inFaces_nodup := e.inFaces_nodup.sublist (List.filter_sublist.map _) }

def clearInRecords : Entry :=
  { e with inRecords := [], inFaces_nodup := List.nodup_nil }

def insertOrUpdateOutRecord (nonce : List UInt8) (now : Int) : Entry :=
  if h : face ∈ e.outRecords.map OutRecord.face then
    { e with
      outRecords := e.outRecords.map fun r => if r.face = face then r.update i nonce now else r
      outFaces_nodup := by
        have hfaces : ∀ r : OutRecord,
            (if r.face = face then r.update i nonce now else r).face = r.face := by
          intro r
          split <;> rfl
        simpa [List.map_map, Function.comp_def, hfaces] using e.outFaces_nodup }
  else
    { e with
      outRecords := ⟨face, nonce, now, recordExpiry i now, none⟩ :: e.outRecords
      outFaces_nodup := List.nodup_cons.2 ⟨h, e.outFaces_nodup⟩ }

def deleteOutRecord : Entry :=
  { e with
    outRecords := e.outRecords.filter (·.face != face)
    outFaces_nodup := e.outFaces_nodup.sublist (List.filter_sublist.map _) }

/-- `OutRecord::setIncomingNack` on the out-record of a face. -/
def setIncomingNack (reason : NackReason) : Entry :=
  { e with
    outRecords := e.outRecords.map fun r =>
      if r.face = face then { r with incomingNack := some reason } else r
    outFaces_nodup := by
      have hfaces : ∀ r : OutRecord,
          (if r.face = face then { r with incomingNack := some reason } else r).face = r.face := by
        intro r
        split <;> rfl
      simpa [List.map_map, Function.comp_def, hfaces] using e.outFaces_nodup }

def hasPendingOutRecords (now : Int) : Bool :=
  e.outRecords.any fun r => decide (now ≤ r.expiry) && r.incomingNack.isNone

section

variable (e : Entry) (face : FacePtr) (i : Interest) (nonce : List UInt8) (now : Int) (serial : Nat)

@[simp] theorem insertOrUpdateInRecord_interest :
    (e.insertOrUpdateInRecord face i nonce now serial).interest = e.interest := by
  unfold insertOrUpdateInRecord
  split <;> rfl

@[simp] theorem insertOrUpdateInRecord_outRecords :
    (e.insertOrUpdateInRecord face i nonce now serial).outRecords = e.outRecords := by
  unfold insertOrUpdateInRecord
  split <;> rfl

@[simp] theorem insertOrUpdateInRecord_expiryTimer :
    (e.insertOrUpdateInRecord face i nonce now serial).expiryTimer = e.expiryTimer := by
  unfold insertOrUpdateInRecord
  split <;> rfl

@[simp] theorem insertOrUpdateInRecord_isSatisfied :
    (e.insertOrUpdateInRecord face i nonce now serial).isSatisfied = e.isSatisfied := by
  unfold insertOrUpdateInRecord
  split <;> rfl

@[simp] theorem insertOrUpdateOutRecord_interest :
    (e.insertOrUpdateOutRecord face i nonce now).interest = e.interest := by
  unfold insertOrUpdateOutRecord
  split <;> rfl

@[simp] theorem insertOrUpdateOutRecord_inRecords :
    (e.insertOrUpdateOutRecord face i nonce now).inRecords = e.inRecords := by
  unfold insertOrUpdateOutRecord
  split <;> rfl

@[simp] theorem insertOrUpdateOutRecord_expiryTimer :
    (e.insertOrUpdateOutRecord face i nonce now).expiryTimer = e.expiryTimer := by
  unfold insertOrUpdateOutRecord
  split <;> rfl

@[simp] theorem insertOrUpdateOutRecord_isSatisfied :
    (e.insertOrUpdateOutRecord face i nonce now).isSatisfied = e.isSatisfied := by
  unfold insertOrUpdateOutRecord
  split <;> rfl

theorem insertOrUpdateInRecord_inRecords :
    (e.insertOrUpdateInRecord face i nonce now serial).inRecords =
      if face ∈ e.inRecords.map InRecord.face then
        e.inRecords.map fun r => if r.face = face then r.update i nonce now else r
      else ⟨serial, face, nonce, now, recordExpiry i now, i⟩ :: e.inRecords := by
  unfold insertOrUpdateInRecord
  split <;> rfl

theorem insertOrUpdateOutRecord_outRecords :
    (e.insertOrUpdateOutRecord face i nonce now).outRecords =
      if face ∈ e.outRecords.map OutRecord.face then
        e.outRecords.map fun r => if r.face = face then r.update i nonce now else r
      else ⟨face, nonce, now, recordExpiry i now, none⟩ :: e.outRecords := by
  unfold insertOrUpdateOutRecord
  split <;> rfl

variable {e face i nonce now serial}

theorem of_mem_insertOrUpdateInRecord {r : InRecord}
    (hr : r ∈ (e.insertOrUpdateInRecord face i nonce now serial).inRecords) :
    (r ∈ e.inRecords ∧ r.face ≠ face) ∨
      (r.face = face ∧ r.lastNonce = nonce ∧ r.lastRenewed = now ∧
        r.expiry = recordExpiry i now) := by
  rw [insertOrUpdateInRecord_inRecords] at hr
  rcases mem_upsert hr with hother | ⟨r', -, hface, rfl⟩ | rfl
  · exact Or.inl hother
  · exact Or.inr ⟨hface, rfl, rfl, rfl⟩
  · exact Or.inr ⟨rfl, rfl, rfl, rfl⟩

theorem of_mem_insertOrUpdateOutRecord {r : OutRecord}
    (hr : r ∈ (e.insertOrUpdateOutRecord face i nonce now).outRecords) :
    (r ∈ e.outRecords ∧ r.face ≠ face) ∨
      (r.face = face ∧ r.lastNonce = nonce ∧ r.lastRenewed = now ∧
        r.expiry = recordExpiry i now) := by
  rw [insertOrUpdateOutRecord_outRecords] at hr
  rcases mem_upsert hr with hother | ⟨r', -, hface, rfl⟩ | rfl
  · exact Or.inl hother
  · exact Or.inr ⟨hface, rfl, rfl, rfl⟩
  · exact Or.inr ⟨rfl, rfl, rfl, rfl⟩

end

end Entry

structure Pit where
  entries : List (EntryId × Entry)
  nextId : EntryId
  nextSerial : Nat
  ids_nodup : (entries.map Prod.fst).Nodup
  id_lt : ∀ x ∈ entries, x.1 < nextId

namespace Pit

def init : Pit := ⟨[], 0, 0, List.nodup_nil, by simp⟩

/-- The entry a pointer refers to, as long as it is in the table. -/
def get (p : Pit) (id : EntryId) : Option Entry := p.entries.lookup id

/-- Applies an update to one entry. -/
def modify (p : Pit) (id : EntryId) (f : Entry → Entry) : Pit :=
  { p with
    entries := p.entries.map fun x => (x.1, if x.1 = id then f x.2 else x.2)
    ids_nodup := by simpa [List.map_map, Function.comp_def] using p.ids_nodup
    id_lt := by
      intro x hx
      obtain ⟨y, hy, rfl⟩ := List.mem_map.1 hx
      exact p.id_lt y hy }

def find (p : Pit) (i : Interest) : Option EntryId :=
  let depth := nteDepth i.name
  (p.entries.find? fun x => x.2.attachedAt i.name depth && x.2.canMatch i depth).map Prod.fst

/-- Adds a new entry for an Interest. -/
def insertNew (p : Pit) (i : Interest) : Pit where
  entries := p.entries ++ [(p.nextId, Entry.ofInterest i)]
  nextId := p.nextId + 1
  nextSerial := p.nextSerial
  ids_nodup := by
    rw [List.map_append, List.nodup_append]
    refine ⟨p.ids_nodup, by simp, ?_⟩
    intro a ha b hb hab
    obtain ⟨x, hx, rfl⟩ := List.mem_map.1 ha
    simp only [List.map_cons, List.map_nil, List.mem_singleton] at hb
    exact absurd (p.id_lt x hx) (by rw [hab, hb]; exact Nat.lt_irrefl _)
  id_lt := by
    intro x hx
    rcases List.mem_append.1 hx with hx | hx
    · exact Nat.lt_succ_of_lt (p.id_lt x hx)
    · rw [List.mem_singleton.1 hx]
      exact Nat.lt_succ_self _

/-- `Pit::insert`: the entry for an Interest, found or created. -/
def insert (p : Pit) (i : Interest) : EntryId × Pit :=
  match p.find i with
  | some id => (id, p)
  | none => (p.nextId, p.insertNew i)

def erase (p : Pit) (id : EntryId) : Pit :=
  { p with
    entries := p.entries.filter (·.1 != id)
    ids_nodup := p.ids_nodup.sublist (List.filter_sublist.map _)
    id_lt := fun x hx => p.id_lt x (List.mem_filter.1 hx).1 }

/-- `Entry::insertOrUpdateInRecord` on an entry of the table. -/
def insertOrUpdateInRecord (p : Pit) (id : EntryId) (face : FacePtr) (i : Interest)
    (nonce : List UInt8) (now : Int) : Pit :=
  { p.modify id fun e => e.insertOrUpdateInRecord face i nonce now p.nextSerial with
    nextSerial := p.nextSerial + 1 }

/-- The entries on the path of the Data name in the name tree whose Interest the Data matches.  The
    source visits longer prefixes first; only the order of insertions into the dead nonce list
    depends on it. -/
def findAllDataMatches (sha256 : List UInt8 → List UInt8) (p : Pit) (d : Data) : List EntryId :=
  (p.entries.filter fun x =>
    decide (nteDepth x.2.name ≤ d.name.length) && x.2.attachedAt d.name (nteDepth x.2.name) &&
      x.2.interest.matchesData sha256 d).map Prod.fst

/-- The PIT part of `cleanupOnFaceRemoval`: `deleteInOutRecords` for every entry. -/
def deleteInOutRecords (p : Pit) (face : FacePtr) : Pit :=
  { p with
    entries := p.entries.map fun x => (x.1, (x.2.deleteInRecord face).deleteOutRecord face)
    ids_nodup := by simpa [List.map_map, Function.comp_def] using p.ids_nodup
    id_lt := by
      intro x hx
      obtain ⟨y, hy, rfl⟩ := List.mem_map.1 hx
      exact p.id_lt y hy }

/-! ## Looking entries up -/

variable {p : Pit} {id j : EntryId} {e : Entry} {f : Entry → Entry} {i : Interest}

theorem get_eq_some_iff : p.get id = some e ↔ (id, e) ∈ p.entries :=
  lookup_eq_some_iff_mem p.ids_nodup

theorem get_modify : (p.modify id f).get j = (p.get j).map fun e => if j = id then f e else e :=
  lookup_mapValues (fun k e => if k = id then f e else e) p.entries j

theorem get_modify_self : (p.modify id f).get id = (p.get id).map f := by
  simp [get_modify]

theorem get_modify_of_ne (h : j ≠ id) : (p.modify id f).get j = p.get j := by
  simp [get_modify, h]

theorem get_insertOrUpdateInRecord {face : FacePtr} {nonce : List UInt8} {now : Int} :
    (p.insertOrUpdateInRecord id face i nonce now).get j = (p.get j).map fun e =>
      if j = id then e.insertOrUpdateInRecord face i nonce now p.nextSerial else e :=
  lookup_mapValues (fun (k : EntryId) (e : Entry) =>
    if k = id then e.insertOrUpdateInRecord face i nonce now p.nextSerial else e) p.entries j

theorem nextId_notMem (p : Pit) : p.nextId ∉ p.entries.map Prod.fst := by
  intro h
  obtain ⟨x, hx, hid⟩ := List.mem_map.1 h
  exact absurd (hid ▸ p.id_lt x hx) (Nat.lt_irrefl _)

theorem get_insertNew :
    (p.insertNew i).get j = if j = p.nextId then some (Entry.ofInterest i) else p.get j := by
  have h := lookup_append_new p.nextId_notMem (Entry.ofInterest i) j
  simpa [get, insertNew] using h

theorem get_erase : (p.erase id).get j = if j = id then none else p.get j := by
  simpa [get, erase] using lookup_filter_ne p.entries id j

theorem get_deleteInOutRecords {face : FacePtr} : (p.deleteInOutRecords face).get j =
    (p.get j).map fun e => (e.deleteInRecord face).deleteOutRecord face :=
  lookup_mapValues (fun (_ : EntryId) (e : Entry) => (e.deleteInRecord face).deleteOutRecord face)
    p.entries j

theorem find_eq_some (h : p.find i = some id) :
    ∃ e, p.get id = some e ∧ e.attachedAt i.name (nteDepth i.name) = true ∧
      e.canMatch i (nteDepth i.name) = true := by
  obtain ⟨x, hx, rfl⟩ := Option.map_eq_some_iff.1 h
  have hmem := List.mem_of_find?_eq_some hx
  have hpred := List.find?_some hx
  rw [Bool.and_eq_true] at hpred
  exact ⟨x.2, get_eq_some_iff.2 hmem, hpred.1, hpred.2⟩

/-- An entry that was there, with the table unchanged, or a new one. -/
theorem insert_cases (p : Pit) (i : Interest) :
    (∃ id e, p.find i = some id ∧ p.get id = some e ∧ p.insert i = (id, p)) ∨
      (p.find i = none ∧ p.insert i = (p.nextId, p.insertNew i)) := by
  cases hfind : p.find i with
  | none => exact Or.inr ⟨rfl, by simp [insert, hfind]⟩
  | some id =>
    obtain ⟨e, he, -, -⟩ := find_eq_some hfind
    exact Or.inl ⟨id, e, rfl, he, by simp [insert, hfind]⟩

end Pit

end NdnMulticast.Nfd
