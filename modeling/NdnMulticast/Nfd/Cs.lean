/-
  The Content Store with its default LRU policy, after `daemon/table/cs.cpp`, `cs-entry.cpp`
  and `cs-policy-lru.cpp`.  The table is ordered by full name; a lookup walks the range
  between the Interest name and its successor.
-/

import NdnMulticast.Nfd.Pit

namespace NdnMulticast.Nfd

open Lib Ndn Except

structure CsEntry where
  /-- Identity of the table node; the policy queue refers to nodes. -/
  id : Nat
  data : Data
  isUnsolicited : Bool
  freshUntil : Int
deriving DecidableEq, Repr

structure Cs where
  table : List CsEntry
  /-- Least recently used first. -/
  queue : List Nat
  nextId : Nat
  limit : Nat
  shouldAdmit : Bool
  shouldServe : Bool

namespace Cs

variable (sha256 : List UInt8 → List UInt8)

/-- An empty store with the given limit. -/
def init (limit : Nat) : Cs := ⟨[], [], 0, limit, true, true⟩

/-- Order of two digest components that have no wire encoding. -/
def compareDigest (a b : List UInt8) : Ordering :=
  (compare a.length b.length).then (memcmp a b)

def compareQueryWithData (query : Name) (d : Data) : Ordering :=
  match query.getLast? with
  | none => Name.compare query d.name |>.then .lt
  | some last =>
    if last.isImplicitSha256Digest then
      (Name.compare query.dropLast d.name).then (compareDigest last.value (sha256 d.wire))
    else (Name.compare query d.name).then .lt

def compareDataWithData (a b : Data) : Ordering :=
  (Name.compare a.name b.name).then (compareDigest (sha256 a.wire) (sha256 b.wire))

variable (e : CsEntry) (cs : Cs) (d : Data) (i : Interest) (now : Int)

/-- The entry precedes every Data a query name can stand for. -/
def isBefore (query : Name) : Bool := compareQueryWithData sha256 query e.data == .gt

/-- `Entry::updateFreshUntil`.  The clock is unbounded: the conversion wraps, the sum does not. -/
def freshUntil : Int := now + toNanoseconds d.getFreshnessPeriod

def canSatisfy : Bool :=
  i.matchesData sha256 e.data && (!i.mustBeFresh || decide (now ≤ e.freshUntil))

/-- `LruPolicy::insertToQueue` for an entry that may be in the queue. -/
def relocate (queue : List Nat) (id : Nat) : List Nat := queue.filter (· != id) ++ [id]

/-- `LruPolicy::evictEntries`: the front of the queue goes while the table is over its limit. -/
def evictEntries (limit : Nat) : List Nat → List CsEntry → List Nat × List CsEntry
  | [], table => ([], table)
  | id :: queue, table =>
    if limit < table.length then evictEntries limit queue (table.filter (·.id != id))
    else (id :: queue, table)

/-- Insertion at the place the order gives. -/
def insertSorted (e : CsEntry) : List CsEntry → List CsEntry
  | [] => [e]
  | x :: xs =>
    if compareDataWithData sha256 e.data x.data == .lt then e :: x :: xs
    else x :: insertSorted e xs

theorem perm_insertSorted (table : List CsEntry) :
    (insertSorted sha256 e table).Perm (e :: table) := by
  induction table with
  | nil => exact .refl _
  | cons x xs ih => grind [insertSorted]

def insert (isUnsolicited : Bool) (now : Int) : Cs :=
  if !cs.shouldAdmit || cs.limit == 0 || d.noCache then cs
  else
    match cs.table.find? fun e => compareDataWithData sha256 d e.data == .eq with
    | some old =>
      { cs with
        table := cs.table.map fun e =>
          if e.id = old.id then
            { e with
              isUnsolicited := e.isUnsolicited && isUnsolicited
              freshUntil := freshUntil e.data now }
          else e
        queue := relocate cs.queue old.id }
    | none =>
      let table := insertSorted sha256 ⟨cs.nextId, d, isUnsolicited, freshUntil d now⟩ cs.table
      let evicted := evictEntries cs.limit (relocate cs.queue cs.nextId) table
      { cs with table := evicted.2, queue := evicted.1, nextId := cs.nextId + 1 }

/-- `m_table.lower_bound`: the position of the first entry that is not before the query. -/
def lowerBound (table : List CsEntry) (query : Name) : Nat :=
  (table.takeWhile (isBefore sha256 · query)).length

/-- `Cs::findPrefixRange`: the positions where the range begins and where it ends. -/
def findPrefixRange (table : List CsEntry) (query : Name) : Raises (Nat × Nat) :=
  let first := lowerBound sha256 table query
  if query = [] then .ok (first, table.length)
  else do
    let successor ← query.getSuccessor
    return (first, lowerBound sha256 table successor)

/-- The entry `Cs::findImpl` finds, if any. -/
def findMatch (table : List CsEntry) (i : Interest) (now : Int) : Except Fault (Option CsEntry) :=
  match findPrefixRange sha256 table i.name with
  | .error e => .error (.raised e)
  | .ok (first, last) =>
    -- `std::find_if` never meets an end that lies before its beginning
    if last < first then .error .undefinedBehavior
    else .ok (((table.take last).drop first).find? (canSatisfy sha256 · i now))

/-- `Cs::findImpl`: the Data found, if any, and the store after the policy has been told. -/
def find : Except Fault (Option Data × Cs) :=
  if !cs.shouldServe || cs.limit == 0 then .ok (none, cs)
  else do
    match ← findMatch sha256 cs.table i now with
    | none => return (none, cs)
    | some e => return (some e.data, { cs with queue := relocate cs.queue e.id })

/-! ## Lookups that return -/

/-- Lookups are answered from the table; otherwise every lookup is a miss. -/
def isServing : Bool := cs.shouldServe && cs.limit != 0

/-- The successor of the query is before the query in the table. -/
def isInverted (table : List CsEntry) (query : Name) : Bool :=
  match query.getSuccessor with
  | .ok successor =>
    query != [] && decide (lowerBound sha256 table successor < lowerBound sha256 table query)
  | .error _ => false

/-- The range of the query can be walked. -/
def hasRange (table : List CsEntry) (query : Name) : Bool :=
  query.hasSuccessor && !isInverted sha256 table query

theorem lowerBound_le_length (table : List CsEntry) (query : Name) :
    lowerBound sha256 table query ≤ table.length :=
  (List.takeWhile_prefix _).length_le

variable {table : List CsEntry} {query : Name}

theorem findPrefixRange_eq_ok {first last : Nat}
    (h : findPrefixRange sha256 table query = .ok (first, last)) :
    first = lowerBound sha256 table query ∧ last ≤ table.length ∧
      (isInverted sha256 table query = true ↔ last < first) := by
  have hle := lowerBound_le_length sha256 table query
  unfold findPrefixRange at h
  by_cases hquery : query = []
  · rw [if_pos hquery] at h
    obtain ⟨rfl, rfl⟩ := Prod.mk.inj (ok.inj h)
    refine ⟨rfl, Nat.le_refl _, iff_of_false ?_ (Nat.not_lt.2 hle)⟩
    simp [isInverted, hquery, Name.getSuccessor]
  · rw [if_neg hquery] at h
    obtain ⟨successor, hsuccessor, h⟩ := bind_eq_ok_iff.1 h
    obtain ⟨rfl, rfl⟩ := Prod.mk.inj (ok.inj h)
    refine ⟨rfl, lowerBound_le_length sha256 table successor, ?_⟩
    simp [isInverted, hsuccessor, hquery]

theorem findPrefixRange_eq_error {e : Exception}
    (h : findPrefixRange sha256 table query = .error e) :
    query.hasSuccessor = false ∧ isInverted sha256 table query = false := by
  unfold findPrefixRange at h
  by_cases hquery : query = []
  · rw [if_pos hquery] at h
    cases h
  · rw [if_neg hquery] at h
    have herror : ∃ e, query.getSuccessor = .error e := by
      cases hsuccessor : query.getSuccessor with
      | error e => exact ⟨e, rfl⟩
      | ok successor =>
        rw [hsuccessor] at h
        cases h
    obtain ⟨e', herror⟩ := herror
    refine ⟨?_, by rw [isInverted, herror]⟩
    rw [← Bool.not_eq_true, ← Name.exists_getSuccessor_iff, herror]
    simp

theorem hasSuccessor_of_findPrefixRange {range : Nat × Nat}
    (h : findPrefixRange sha256 table query = .ok range) : query.hasSuccessor = true := by
  unfold findPrefixRange at h
  by_cases hquery : query = []
  · rw [hquery]
    rfl
  · grind [bind_eq_ok_iff, Name.exists_getSuccessor_iff]

theorem exists_findMatch_iff (table : List CsEntry) (i : Interest) (now : Int) :
    (∃ found, findMatch sha256 table i now = .ok found) ↔ hasRange sha256 table i.name = true := by
  unfold findMatch hasRange
  cases hrange : findPrefixRange sha256 table i.name with
  | error e => simp [(findPrefixRange_eq_error sha256 hrange).1]
  | ok range =>
    obtain ⟨first, last⟩ := range
    obtain ⟨-, -, hinverted⟩ := findPrefixRange_eq_ok sha256 hrange
    rw [hasSuccessor_of_findPrefixRange sha256 hrange, Bool.true_and, Bool.not_eq_true',
      ← Bool.not_eq_true, hinverted]
    by_cases hlt : last < first
    · simp [hlt]
    · simp [hlt]

theorem findMatch_eq_some {i : Interest} {now : Int} {e : CsEntry}
    (h : findMatch sha256 table i now = .ok (some e)) :
    e ∈ table ∧ canSatisfy sha256 e i now = true := by
  unfold findMatch at h
  split at h
  · cases h
  · grind

/-- **A lookup returns** unless the store is serving and the range of the name cannot be walked. -/
theorem exists_find_iff :
    (∃ r, cs.find sha256 i now = .ok r) ↔
      cs.isServing = false ∨ hasRange sha256 cs.table i.name = true := by
  by_cases hserve : cs.isServing = true
  · have hcond : (!cs.shouldServe || cs.limit == 0) = false := by
      simpa [isServing] using hserve
    rw [← exists_findMatch_iff sha256 cs.table i now]
    simp only [find, hcond, hserve, Bool.true_eq_false, false_or]
    cases findMatch sha256 cs.table i now with
    | error f => simp [bind, Except.bind]
    | ok found =>
      cases found with
      | none => simp [bind, Except.bind, pure, Except.pure]
      | some e => simp [bind, Except.bind, pure, Except.pure]
  · have hcond : (!cs.shouldServe || cs.limit == 0) = true := by
      cases hs : cs.shouldServe with
      | false => rfl
      | true => simpa [isServing, hs] using hserve
    simp [find, hcond, hserve]

end Cs

end NdnMulticast.Nfd
