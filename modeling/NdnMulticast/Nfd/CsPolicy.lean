/-
  The Content Store over any replacement policy, after `daemon/table/cs.cpp` and
  `cs-policy.cpp`.

  The store tells the policy what it does to the table; when the policy evicts, it tells the
  store.  A `CsPolicy` is a policy whose own record of the entries follows what it is told:
  `order` lists the entries it knows, the one it would evict next first.
-/

import NdnMulticast.Lib.Eviction
import NdnMulticast.Nfd.Cs

namespace NdnMulticast.Nfd

open Lib Ndn List Option Except Nat

/-- A replacement policy with state `σ`.  Entries are referred to by their identity. -/
structure CsPolicy (σ : Type) where
  /-- `doAfterInsert` up to the eviction. -/
  attach : σ → CsEntry → Int → σ
  afterRefresh : σ → CsEntry → Int → σ
  beforeErase : σ → Nat → σ
  beforeUse : σ → Nat → σ
  /-- The entry to evict, and the policy when it has let go of it. -/
  evictOne : σ → Option (Nat × σ)
  /-- The entries the policy knows, in the order in which it would evict them. -/
  order : σ → List Nat
  Valid : σ → Prop
  nodup_order {q : σ} : Valid q → (order q).Nodup
  attach_spec {q : σ} {e : CsEntry} (now : Int) : Valid q → e.id ∉ order q →
    Valid (attach q e now) ∧ (order (attach q e now)).Perm (e.id :: order q)
  afterRefresh_spec {q : σ} {e : CsEntry} (now : Int) : Valid q → e.id ∈ order q →
    Valid (afterRefresh q e now) ∧ (order (afterRefresh q e now)).Perm (order q)
  beforeUse_spec {q : σ} {id : Nat} : Valid q → id ∈ order q →
    Valid (beforeUse q id) ∧ (order (beforeUse q id)).Perm (order q)
  beforeErase_spec {q : σ} {id : Nat} : Valid q → id ∈ order q →
    Valid (beforeErase q id) ∧ order (beforeErase q id) = (order q).filter (· != id)
  evictOne_eq {q : σ} : Valid q → evictOne q = (order q).head?.map fun id => (id, beforeErase q id)

/-- The Content Store with a policy in state `policy`. -/
structure Store (σ : Type) where
  table : List CsEntry
  policy : σ
  nextId : Nat
  limit : Nat
  shouldAdmit : Bool
  shouldServe : Bool

/-- What is asked of the Content Store. -/
inductive CsOp where
  | insert (d : Data) (isUnsolicited : Bool)
  | find (i : Interest)
  | erase (name : Name) (limit : Nat)
  | setLimit (limit : Nat)

namespace Store

variable {σ : Type} (sha256 : List UInt8 → List UInt8) (p : CsPolicy σ)

/-! ## The operations -/

/-- An empty store. -/
def init (policy : σ) (limit : Nat) (shouldAdmit shouldServe : Bool) : Store σ :=
  ⟨[], policy, 0, limit, shouldAdmit, shouldServe⟩

/-- The loop of `evictEntries`.  `order` has an entry for every round. -/
def evictLoop (limit : Nat) : Nat → σ → List CsEntry → σ × List CsEntry
  | 0, q, table => (q, table)
  | n + 1, q, table =>
    if limit < table.length then
      match p.evictOne q with
      | none => (q, table)
      | some (id, q) => evictLoop limit n q (table.filter (·.id != id))
    else (q, table)

def evictEntries (s : Store σ) : Store σ :=
  let evicted := evictLoop p s.limit (p.order s.policy).length s.policy s.table
  { s with policy := evicted.1, table := evicted.2 }

def setLimit (s : Store σ) (limit : Nat) : Store σ := evictEntries p { s with limit }

/-- The Data gets into the table. -/
def admits (s : Store σ) (d : Data) : Bool := s.shouldAdmit && s.limit != 0 && !d.noCache

/-- The entry of the table that is equivalent to one for the Data. -/
def stored (s : Store σ) (d : Data) : Option CsEntry :=
  s.table.find? fun e => Cs.compareDataWithData sha256 d e.data == .eq

/-- The entry `Cs::insert` makes. -/
def newEntry (s : Store σ) (d : Data) (isUnsolicited : Bool) (now : Int) : CsEntry :=
  ⟨s.nextId, d, isUnsolicited, Cs.freshUntil d now⟩

/-- `Cs::insert` when the Data is new, up to the eviction. -/
def emplace (s : Store σ) (d : Data) (isUnsolicited : Bool) (now : Int) : Store σ :=
  let e := s.newEntry d isUnsolicited now
  { s with
    table := Cs.insertSorted sha256 e s.table
    policy := p.attach s.policy e now
    nextId := s.nextId + 1 }

/-- An entry when its Data is inserted again. -/
def refreshed (isUnsolicited : Bool) (now : Int) (e : CsEntry) : CsEntry :=
  { e with
    isUnsolicited := e.isUnsolicited && isUnsolicited
    freshUntil := Cs.freshUntil e.data now }

/-- `Cs::insert` when there is an entry for the Data. -/
def refresh (s : Store σ) (old : CsEntry) (isUnsolicited : Bool) (now : Int) : Store σ :=
  { s with
    table := s.table.map fun e => if e.id = old.id then refreshed isUnsolicited now e else e
    policy := p.afterRefresh s.policy (refreshed isUnsolicited now old) now }

def insert (s : Store σ) (d : Data) (isUnsolicited : Bool) (now : Int) : Store σ :=
  if s.admits d then
    match s.stored sha256 d with
    | some old => s.refresh p old isUnsolicited now
    | none => (s.emplace sha256 p d isUnsolicited now).evictEntries p
  else s

/-- `Cs::findImpl`. -/
def find (s : Store σ) (i : Interest) (now : Int) : Except Fault (Option Data × Store σ) :=
  if !s.shouldServe || s.limit == 0 then .ok (none, s)
  else do
    match ← Cs.findMatch sha256 s.table i now with
    | none => return (none, s)
    | some e => return (some e.data, { s with policy := p.beforeUse s.policy e.id })

/-- The loop of `Cs::eraseImpl` at position `i`: the number of entries erased, those left of the
    rest, and the policy. -/
def eraseLoop (last limit : Nat) :
    List CsEntry → Nat → Nat → σ → Except Fault (Nat × List CsEntry × σ)
  | [], i, nErased, q =>
    -- the end of the table is passed without meeting `last`
    if i = last ∨ limit ≤ nErased then .ok (nErased, [], q) else .error .undefinedBehavior
  | e :: rest, i, nErased, q =>
    if i = last ∨ limit ≤ nErased then .ok (nErased, e :: rest, q)
    else eraseLoop last limit rest (i + 1) (nErased + 1) (p.beforeErase q e.id)

/-- `Cs::eraseImpl`: the number of entries erased, and the store. -/
def erase (s : Store σ) (name : Name) (limit : Nat) : Except Fault (Nat × Store σ) :=
  match Cs.findPrefixRange sha256 s.table name with
  | .error e => .error (.raised e)
  | .ok (first, last) => do
      let (nErased, rest, policy) ← eraseLoop p last limit (s.table.drop first) first 0 s.policy
      return (nErased, { s with table := s.table.take first ++ rest, policy })

/-- An operation that raises does so before any change; one that is undefined has no result. -/
def settle {α : Type} (s : Store σ) : Except Fault (α × Store σ) → Option (Store σ)
  | .ok r => some r.2
  | .error (.raised _) => some s
  | .error .undefinedBehavior => none

def step (now : Int) (s : Store σ) : CsOp → Option (Store σ)
  | .insert d isUnsolicited => some (s.insert sha256 p d isUnsolicited now)
  | .find i => s.settle (s.find sha256 p i now)
  | .erase name limit => s.settle (s.erase sha256 p name limit)
  | .setLimit limit => some (s.setLimit p limit)

/-! ## What an operation is about -/

/-- The entry the Data of an `insert` is in afterwards, if it gets there. -/
def insertedAs (s : Store σ) (d : Data) : Option Nat :=
  if s.admits d then some ((s.stored sha256 d).elim s.nextId CsEntry.id) else none

/-- The entry a lookup finds. -/
def found (s : Store σ) (i : Interest) (now : Int) : Option CsEntry :=
  if !s.shouldServe || s.limit == 0 then none
  else (Cs.findMatch sha256 s.table i now).toOption.join

/-- The store `evictEntries` is called on, if it is called. -/
def evictsFrom (s : Store σ) (now : Int) : CsOp → Option (Store σ)
  | .insert d isUnsolicited =>
    if s.admits d && (s.stored sha256 d).isNone then
      some (s.emplace sha256 p d isUnsolicited now)
    else none
  | .setLimit limit => some { s with limit }
  | _ => none

/-- The operation walks past the end of the table: its range ends before it begins, and, for
    `eraseImpl`, fewer entries are left than it may erase. -/
def runsPast (s : Store σ) : CsOp → Bool
  | .find i => s.shouldServe && s.limit != 0 && Cs.isInverted sha256 s.table i.name
  | .erase name limit =>
    Cs.isInverted sha256 s.table name &&
      decide (s.table.length < Cs.lowerBound sha256 s.table name + limit)
  | _ => false

/-! ## Entries that leave -/

/-- The store without the given entries, which the policy lets go of one by one. -/
def drop (s : Store σ) (ids : List Nat) : Store σ :=
  { s with
    table := s.table.filter fun e => !ids.contains e.id
    policy := ids.foldl p.beforeErase s.policy }

section

variable (s : Store σ)

theorem drop_nil : s.drop p [] = s := by
  simp [drop]

theorem drop_cons (id : Nat) (ids : List Nat) :
    s.drop p (id :: ids) = (s.drop p [id]).drop p ids := by
  simp [drop, List.filter_filter, Bool.and_comm]

theorem table_drop_one (id : Nat) : (s.drop p [id]).table = s.table.filter (·.id != id) := by
  refine filter_congr fun e _ => ?_
  rw [contains_cons, contains_nil, Bool.or_false]
  rfl

theorem map_id_refresh (old : CsEntry) (isUnsolicited : Bool) (now : Int) :
    (s.refresh p old isUnsolicited now).table.map (·.id) = s.table.map (·.id) := by
  show (s.table.map _).map _ = _
  rw [List.map_map]
  refine List.map_congr_left fun e _ => ?_
  show (if e.id = old.id then refreshed isUnsolicited now e else e).id = e.id
  split <;> rfl

end

/-- Different entries that the policy knows. -/
structure Known (s : Store σ) (ids : List Nat) : Prop where
  nodup : ids.Nodup
  mem_order : ∀ id ∈ ids, id ∈ p.order s.policy

/-- Table and policy know the same entries. -/
structure Mirrored (s : Store σ) : Prop where
  valid : p.Valid s.policy
  mirrors : (p.order s.policy).Perm (s.table.map (·.id))
  /-- Identities are not given twice. -/
  older : ∀ e ∈ s.table, e.id < s.nextId

namespace Mirrored

variable {sha256 p} {s : Store σ}

theorem nodup (hs : s.Mirrored p) : (s.table.map (·.id)).Nodup :=
  hs.mirrors.nodup_iff.1 (p.nodup_order hs.valid)

theorem mem_order_iff (hs : s.Mirrored p) {id : Nat} :
    id ∈ p.order s.policy ↔ ∃ e ∈ s.table, e.id = id := by
  rw [hs.mirrors.mem_iff, List.mem_map]

theorem notMem_order_nextId (hs : s.Mirrored p) : s.nextId ∉ p.order s.policy := by
  rw [hs.mem_order_iff]
  rintro ⟨e, he, heq⟩
  exact absurd heq (Nat.ne_of_lt (hs.older e he))

variable {e : CsEntry} {ids : List Nat}

theorem eq_of_id (hs : s.Mirrored p) {e' : CsEntry} (he : e ∈ s.table) (he' : e' ∈ s.table)
    (hid : e.id = e'.id) : e = e' :=
  inj_on_of_nodup_map hs.nodup he he' hid

theorem drop_one (hs : s.Mirrored p) {id : Nat} (hid : id ∈ p.order s.policy) :
    (s.drop p [id]).Mirrored p ∧
      p.order (s.drop p [id]).policy = (p.order s.policy).filter (· != id) := by
  obtain ⟨hvalid, horder⟩ := p.beforeErase_spec hs.valid hid
  refine ⟨⟨hvalid, ?_, ?_⟩, horder⟩
  · show (p.order (p.beforeErase s.policy id)).Perm _
    have htable : (s.drop p [id]).table.map (·.id) = (s.table.map (·.id)).filter (· != id) := by
      rw [table_drop_one, List.filter_map]
      rfl
    rw [horder, htable]
    exact hs.mirrors.filter _
  · intro e he
    exact hs.older e (mem_filter.1 he).1

/-- **Dropping, one by one.**  What dropping one entry keeps, dropping several keeps. -/
theorem drop_induction {P : Store σ → Prop}
    (hone : ∀ s id, s.Mirrored p → id ∈ p.order s.policy → P s → P (s.drop p [id])) {s : Store σ}
    (hs : s.Mirrored p) (hknown : s.Known p ids) (h : P s) :
    (s.drop p ids).Mirrored p ∧ P (s.drop p ids) := by
  induction ids generalizing s with
  | nil =>
    rw [drop_nil]
    exact ⟨hs, h⟩
  | cons id ids ih =>
    have hnodup := nodup_cons.1 hknown.nodup
    have hids := forall_mem_cons.1 hknown.mem_order
    obtain ⟨hs₁, horder⟩ := hs.drop_one hids.1
    have hothers : ∀ j ∈ ids, j ∈ p.order (s.drop p [id]).policy := by
      intro j hj
      have hne : j ≠ id := fun heq => hnodup.1 (heq ▸ hj)
      rw [horder]
      exact mem_filter.2 ⟨hids.2 j hj, by simpa using hne⟩
    rw [drop_cons]
    exact ih hs₁ ⟨hnodup.2, hothers⟩ (hone s id hs hids.1 h)

theorem drop (hs : s.Mirrored p) (hknown : s.Known p ids) : (s.drop p ids).Mirrored p :=
  (hs.drop_induction (P := fun _ => True) (fun _ _ _ _ h => h) hknown trivial).1

/-- The loop drops the first entries in the order of the policy, one at a time. -/
theorem evictLoop_spec (hs : s.Mirrored p) :
    ∃ ids rest, p.order s.policy = ids ++ rest ∧
      evictLoop p s.limit (p.order s.policy).length s.policy s.table
        = ((s.drop p ids).policy, (s.drop p ids).table) ∧
      ∀ R : Nat → Nat → Prop, (p.order s.policy).Pairwise R →
        Evicts s.limit (fun a b => R a.id b.id) s.table (s.drop p ids).table := by
  -- on the number of entries; one round leaves the store without the first of them
  induction horder : p.order s.policy generalizing s with
  | nil =>
    have hempty : s.table = [] := by
      have hlen := hs.mirrors.length_eq
      rw [horder, length_map] at hlen
      exact eq_nil_of_length_eq_zero hlen.symm
    refine ⟨[], [], rfl, ?_, fun R _ => ?_⟩
    · rw [drop_nil]
      rfl
    · rw [drop_nil]
      exact .fits (by simp [hempty])
  | cons id rest ih =>
    by_cases hfull : s.limit < s.table.length
    · have hid : id ∈ p.order s.policy := by simp [horder]
      obtain ⟨hs₁, horder₁⟩ := hs.drop_one hid
      have hnodup := p.nodup_order hs.valid
      rw [horder, nodup_cons] at hnodup
      have hrest : (id :: rest).filter (· != id) = rest := by
        rw [filter_cons_of_neg (by simp)]
        exact filter_eq_self.2 fun j hj => by
          simpa using fun heq : j = id => hnodup.1 (heq ▸ hj)
      rw [horder, hrest] at horder₁
      obtain ⟨ids, rest', hids, hloop, hevicts⟩ := ih hs₁ horder₁
      have htable := s.table_drop_one p id
      refine ⟨id :: ids, rest', by rw [hids]; rfl, ?_, fun R hR => ?_⟩
      · have hone : p.evictOne s.policy = some (id, p.beforeErase s.policy id) := by
          rw [p.evictOne_eq hs.valid, horder]
          rfl
        rw [length_cons, evictLoop, if_pos hfull, hone, drop_cons, ← hloop, htable]
        rfl
      · rw [pairwise_cons] at hR
        obtain ⟨l₁, x, l₂, hl, rfl, hfilter⟩ :=
          exists_split_of_key hs.nodup (hs.mirrors.mem_iff.1 hid)
        have htail := hevicts R hR.2
        rw [htable, hfilter] at htail
        rw [drop_cons]
        rw [hl] at hfull ⊢
        refine .evict hfull (fun y hy => hR.1 y.id ?_) htail
        -- the others are in the rest of the order
        rw [← horder₁, hs₁.mem_order_iff]
        exact ⟨y, by rw [htable, hfilter]; exact hy, rfl⟩
    · refine ⟨[], id :: rest, rfl, ?_, fun R _ => ?_⟩
      · rw [drop_nil, length_cons, evictLoop, if_neg hfull]
      · rw [drop_nil]
        exact .fits (not_lt.1 hfull)

/-! ## One operation on a mirrored store -/

variable (hs : s.Mirrored p)
include hs

theorem emplace (d : Data) (isUnsolicited : Bool) (now : Int) :
    (s.emplace sha256 p d isUnsolicited now).Mirrored p := by
  obtain ⟨hvalid, hperm⟩ :=
    p.attach_spec (e := s.newEntry d isUnsolicited now) now hs.valid hs.notMem_order_nextId
  have htable := Cs.perm_insertSorted sha256 (s.newEntry d isUnsolicited now) s.table
  refine ⟨hvalid, ?_, ?_⟩
  · have hmap : ((s.emplace sha256 p d isUnsolicited now).table.map (·.id)).Perm
        (s.nextId :: s.table.map (·.id)) := htable.map (·.id)
    exact hperm.trans ((hs.mirrors.cons s.nextId).trans hmap.symm)
  · intro e he
    rcases mem_cons.1 (htable.mem_iff.1 he) with rfl | he
    · exact lt_succ_self _
    · exact lt_succ_of_lt (hs.older e he)

theorem refresh {old : CsEntry} (hold : old ∈ s.table) (isUnsolicited : Bool) (now : Int) :
    (s.refresh p old isUnsolicited now).Mirrored p := by
  have hmem : (refreshed isUnsolicited now old).id ∈ p.order s.policy :=
    hs.mem_order_iff.2 ⟨old, hold, rfl⟩
  obtain ⟨hvalid, hperm⟩ := p.afterRefresh_spec now hs.valid hmem
  refine ⟨hvalid, ?_, ?_⟩
  · rw [map_id_refresh]
    exact hperm.trans hs.mirrors
  · intro e he
    have hid : e.id ∈ s.table.map (·.id) := by
      rw [← s.map_id_refresh p old isUnsolicited now]
      exact mem_map_of_mem he
    obtain ⟨e', he', heq⟩ := mem_map.1 hid
    rw [← heq]
    exact hs.older e' he'

theorem use (he : e ∈ s.table) :
    ({ s with policy := p.beforeUse s.policy e.id } : Store σ).Mirrored p := by
  obtain ⟨hvalid, hperm⟩ := p.beforeUse_spec hs.valid (hs.mem_order_iff.2 ⟨e, he, rfl⟩)
  exact ⟨hvalid, hperm.trans hs.mirrors, hs.older⟩

theorem setLimit (limit : Nat) : ({ s with limit } : Store σ).Mirrored p :=
  ⟨hs.valid, hs.mirrors, hs.older⟩

end Mirrored

/-- What an operation does to a store; which entries go is said for `evictEntries` only. -/
inductive Effect (now : Int) (s : Store σ) : CsOp → Store σ → Prop
  | reject {d : Data} {isUnsolicited : Bool} : s.admits d = false →
      Effect now s (.insert d isUnsolicited) s
  | refresh {d : Data} {isUnsolicited : Bool} {old : CsEntry} : s.admits d = true →
      s.stored sha256 d = some old →
      Effect now s (.insert d isUnsolicited) (s.refresh p old isUnsolicited now)
  | emplace {d : Data} {isUnsolicited : Bool} {ids : List Nat} : s.admits d = true →
      s.stored sha256 d = none → (s.emplace sha256 p d isUnsolicited now).Known p ids →
      (∀ R : Nat → Nat → Prop,
        (p.order (s.emplace sha256 p d isUnsolicited now).policy).Pairwise R →
        Evicts s.limit (fun a b => R a.id b.id) (s.emplace sha256 p d isUnsolicited now).table
          ((s.emplace sha256 p d isUnsolicited now).drop p ids).table) →
      Effect now s (.insert d isUnsolicited) ((s.emplace sha256 p d isUnsolicited now).drop p ids)
  | miss {i : Interest} : s.found sha256 i now = none → Effect now s (.find i) s
  | use {i : Interest} {e : CsEntry} : s.found sha256 i now = some e →
      Effect now s (.find i) { s with policy := p.beforeUse s.policy e.id }
  | erase {name : Name} {limit : Nat} {ids : List Nat} : s.Known p ids →
      Effect now s (.erase name limit) (s.drop p ids)
  | setLimit {limit : Nat} {ids : List Nat} : s.Known p ids →
      (∀ R : Nat → Nat → Prop, (p.order s.policy).Pairwise R →
        Evicts limit (fun a b => R a.id b.id) s.table (s.drop p ids).table) →
      Effect now s (.setLimit limit) (drop p { s with limit } ids)

variable {sha256 p} {s s' : Store σ} {now : Int} {op : CsOp}

theorem mem_of_stored {d : Data} {old : CsEntry} (h : s.stored sha256 d = some old) :
    old ∈ s.table :=
  mem_of_find?_eq_some h

variable {i : Interest} {limit nErased : Nat} {rest : List CsEntry}

theorem mem_of_found {e : CsEntry} (h : s.found sha256 i now = some e) : e ∈ s.table := by
  unfold found at h
  split at h
  · cases h
  cases hfind : Cs.findMatch sha256 s.table i now with
  | error f =>
    rw [hfind] at h
    cases h
  | ok r =>
    rw [hfind] at h
    obtain rfl : r = some e := h
    exact (Cs.findMatch_eq_some sha256 hfind).1

theorem evictEntries_spec (hs : s.Mirrored p) :
    ∃ ids, s.Known p ids ∧ s.evictEntries p = s.drop p ids ∧
      ∀ R : Nat → Nat → Prop, (p.order s.policy).Pairwise R →
        Evicts s.limit (fun a b => R a.id b.id) s.table (s.drop p ids).table := by
  obtain ⟨ids, rest, hids, hloop, hevicts⟩ := hs.evictLoop_spec
  have hknown : s.Known p ids := by
    have hnodup := p.nodup_order hs.valid
    rw [hids] at hnodup
    exact ⟨hnodup.of_append_left, fun id hid => by simp [hids, hid]⟩
  refine ⟨ids, hknown, ?_, hevicts⟩
  unfold evictEntries
  rw [hloop]
  rfl

theorem eraseLoop_eq_ok {last : Nat} {i : Nat} {q : σ} {r : Nat × List CsEntry × σ}
    (h : eraseLoop p last limit rest i nErased q = .ok r) :
    ∃ erased, rest = erased ++ r.2.1 ∧ r.2.2 = (erased.map (·.id)).foldl p.beforeErase q := by
  induction rest generalizing i nErased q with
  | nil =>
    rw [eraseLoop] at h
    split at h
    · obtain rfl := ok.inj h
      exact ⟨[], rfl, rfl⟩
    · cases h
  | cons e rest ih =>
    rw [eraseLoop] at h
    split at h
    · obtain rfl := ok.inj h
      exact ⟨[], rfl, rfl⟩
    · grind

theorem erase_effect (hs : s.Mirrored p) {name : Name} {r : Nat × Store σ}
    (h : s.erase sha256 p name limit = .ok r) : Effect sha256 p now s (.erase name limit) r.2 := by
  unfold erase at h
  split at h
  · cases h
  rename_i first last _
  obtain ⟨⟨nErased, rest, policy⟩, hloop, hr⟩ := bind_eq_ok_iff.1 h
  obtain rfl := ok.inj hr
  obtain ⟨erased, hrest, hpolicy⟩ := eraseLoop_eq_ok hloop
  have htable : s.table = s.table.take first ++ erased ++ rest := by
    rw [append_assoc, ← hrest, take_append_drop]
  have hnodup := hs.nodup
  rw [htable] at hnodup
  have hdrop : s.drop p (erased.map (·.id)) =
      { s with table := s.table.take first ++ rest, policy } := by
    rw [drop, ← hpolicy]
    conv_lhs => rw [htable]
    rw [filter_keys_middle hnodup]
  rw [← hdrop]
  rw [map_append, map_append] at hnodup
  refine .erase ⟨hnodup.of_append_left.of_append_right, fun id hid => ?_⟩
  obtain ⟨e, he, rfl⟩ := mem_map.1 hid
  refine hs.mem_order_iff.2 ⟨e, ?_, rfl⟩
  rw [htable]
  simp [he]

theorem find_effect (h : s.settle (s.find sha256 p i now) = some s') :
    Effect sha256 p now s (.find i) s' := by
  by_cases hoff : (!s.shouldServe || s.limit == 0) = true
  · simp only [find, hoff, if_true] at h
    obtain rfl := some.inj h
    exact .miss (by simp only [found, hoff, if_true])
  · simp only [find, hoff] at h
    cases hmatch : Cs.findMatch sha256 s.table i now with
    | error f =>
      rw [hmatch] at h
      have hnone : s.found sha256 i now = none := by
        simp only [found, hoff, hmatch]
        rfl
      cases f with
      | raised e =>
        obtain rfl := some.inj h
        exact .miss hnone
      | undefinedBehavior => cases h
    | ok r =>
      rw [hmatch] at h
      have hfound : s.found sha256 i now = r := by
        simp only [found, hoff, hmatch]
        rfl
      cases r with
      | none =>
        obtain rfl := some.inj h
        exact .miss hfound
      | some e =>
        obtain rfl := some.inj h
        exact .use hfound

/-- **One operation** on a store whose policy mirrors the table. -/
theorem step_effect (hs : s.Mirrored p) (h : s.step sha256 p now op = some s') :
    Effect sha256 p now s op s' := by
  cases op with
  | insert d isUnsolicited =>
    obtain rfl := some.inj h
    unfold insert
    split
    · rename_i hadmits
      split
      · rename_i old hstored
        exact .refresh hadmits hstored
      · rename_i hstored
        have hmid : (s.emplace sha256 p d isUnsolicited now).Mirrored p :=
          hs.emplace d isUnsolicited now
        obtain ⟨ids, hknown, hdrop, hevicts⟩ := evictEntries_spec hmid
        rw [hdrop]
        exact .emplace hadmits hstored hknown hevicts
    · rename_i hadmits
      exact .reject (by simpa using hadmits)
  | find i => exact find_effect h
  | erase name limit =>
    rw [step] at h
    cases herase : s.erase sha256 p name limit with
    | ok r =>
      rw [herase] at h
      obtain rfl := some.inj h
      exact erase_effect hs herase
    | error f =>
      rw [herase] at h
      cases f with
      | raised e =>
        obtain rfl := some.inj h
        have hnone : Effect sha256 p now s (.erase name limit) (s.drop p []) :=
          .erase ⟨nodup_nil, by simp⟩
        rwa [drop_nil] at hnone
      | undefinedBehavior => cases h
  | setLimit limit =>
    obtain rfl := some.inj h
    obtain ⟨ids, hknown, hdrop, hevicts⟩ := evictEntries_spec (hs.setLimit limit)
    rw [Store.setLimit, hdrop]
    exact .setLimit ⟨hknown.nodup, hknown.mem_order⟩ hevicts

theorem Mirrored.effect (hs : s.Mirrored p) (h : Effect sha256 p now s op s') : s'.Mirrored p := by
  cases h with
  | reject => exact hs
  | refresh _ hold => exact hs.refresh (mem_of_stored hold) _ now
  | emplace _ _ hknown _ => exact (hs.emplace _ _ now).drop hknown
  | miss => exact hs
  | use hfound => exact hs.use (mem_of_found hfound)
  | erase hknown => exact hs.drop hknown
  | @setLimit limit ids hknown _ =>
    exact (hs.setLimit limit).drop ⟨hknown.nodup, hknown.mem_order⟩

theorem Effect.length_le (h : Effect sha256 p now s op s') (hs : s.table.length ≤ s.limit) :
    s'.table.length ≤ s'.limit := by
  have hany : ∀ l : List Nat, l.Pairwise fun _ _ => True := fun l => pairwise_of_forall (by simp)
  cases h with
  | reject | miss | use => exact hs
  | refresh =>
    show (s.table.map _).length ≤ s.limit
    rwa [length_map]
  | emplace _ _ _ hevicts | setLimit _ hevicts => exact (hevicts _ (hany _)).length_le
  | erase => exact (length_filter_le _ _).trans hs

theorem Effect.map_id (h : Effect sha256 p now s op s')
    (hnone : s.evictsFrom sha256 p now op = none)
    (herase : ∀ name limit, op ≠ .erase name limit) :
    s'.table.map (·.id) = s.table.map (·.id) := by
  cases h with
  | reject => rfl
  | refresh => exact s.map_id_refresh p _ _ now
  | emplace hadmits hstored => simp [evictsFrom, hadmits, hstored] at hnone
  | miss => rfl
  | use => rfl
  | erase => exact absurd rfl (herase _ _)
  | setLimit => cases hnone

/-! ## Operations without a result -/

theorem eraseLoop_eq_error_iff (last limit : Nat) (rest : List CsEntry) (i nErased : Nat) (q : σ) :
    eraseLoop p last limit rest i nErased q = .error .undefinedBehavior ↔
      (last < i ∨ i + rest.length < last) ∧ nErased + rest.length < limit := by
  induction rest generalizing i nErased q with
  | nil => grind [eraseLoop]
  | cons e rest ih => grind [eraseLoop]

theorem eraseLoop_ne_raised {last : Nat} {i : Nat} {q : σ} (e : Exception) :
    eraseLoop p last limit rest i nErased q ≠ .error (.raised e) := by
  induction rest generalizing i nErased q with
  | nil =>
    rw [eraseLoop]
    split <;> simp
  | cons e rest ih =>
    rw [eraseLoop]
    split
    · simp
    · exact ih

/-- **Every operation has a result** unless it walks past the end of the table. -/
theorem step_eq_none_iff : s.step sha256 p now op = none ↔ s.runsPast sha256 op = true := by
  cases op with
  | insert | setLimit => simp [step, runsPast]
  | find i =>
    rw [step, runsPast]
    by_cases hoff : (!s.shouldServe || s.limit == 0) = true
    · have hon : (s.shouldServe && s.limit != 0) = false := by
        cases hserve : s.shouldServe with
        | false => rfl
        | true => simpa [hserve] using hoff
      simp [find, hoff, hon, settle]
    · have hon : (s.shouldServe && s.limit != 0) = true := by
        simpa using hoff
      simp only [find, hoff, hon, Bool.true_and]
      unfold Cs.findMatch
      cases hrange : Cs.findPrefixRange sha256 s.table i.name with
      | error e => simp [bind, Except.bind, settle, (Cs.findPrefixRange_eq_error sha256 hrange).2]
      | ok range =>
        obtain ⟨first, last⟩ := range
        obtain ⟨-, -, hinverted⟩ := Cs.findPrefixRange_eq_ok sha256 hrange
        rw [hinverted]
        by_cases hlt : last < first
        · simp [hlt, bind, Except.bind, settle]
        · simp only [hlt, if_false, bind, Except.bind, iff_false]
          cases ((s.table.take last).drop first).find? (Cs.canSatisfy sha256 · i now) with
          | none => simp [settle, pure, Except.pure]
          | some e => simp [settle, pure, Except.pure]
  | erase name limit =>
    rw [step, runsPast, Bool.and_eq_true_iff, decide_eq_true_iff]
    unfold erase
    cases hrange : Cs.findPrefixRange sha256 s.table name with
    | error e => simp [settle, (Cs.findPrefixRange_eq_error sha256 hrange).2]
    | ok range =>
      obtain ⟨first, last⟩ := range
      obtain ⟨rfl, hlast, hinverted⟩ := Cs.findPrefixRange_eq_ok sha256 hrange
      have hfirst := Cs.lowerBound_le_length sha256 s.table name
      generalize Cs.lowerBound sha256 s.table name = first at *
      have hloop := eraseLoop_eq_error_iff (p := p) last limit (s.table.drop first) first 0 s.policy
      rw [length_drop] at hloop
      rw [hinverted]
      cases hresult : eraseLoop p last limit (s.table.drop first) first 0 s.policy with
      | ok r =>
        rw [hresult] at hloop
        simp only [reduceCtorEq, false_iff] at hloop
        simp only [hresult, bind, Except.bind, pure, Except.pure, settle, reduceCtorEq, false_iff]
        omega
      | error f =>
        cases f with
        | raised e => exact absurd hresult (eraseLoop_ne_raised e)
        | undefinedBehavior =>
          rw [hresult] at hloop
          simp only [hresult, bind, Except.bind, settle, true_iff]
          have := hloop.1 rfl
          omega

variable (sha256 p now) in
theorem exists_step (h : s.runsPast sha256 op = false) :
    ∃ s', s.step sha256 p now op = some s' := by
  rw [← ne_none_iff_exists', Ne, step_eq_none_iff, h]
  decide

end Store

/-! ## Some packets -/

namespace Sample

def sha256 (_ : List UInt8) : List UInt8 := List.replicate ComponentType.digestSize 0

/-- A Data packet whose name is one component of one octet and that is fresh for a millisecond. -/
def dataBlock (octet : UInt8) : Block :=
  ⟨Tlv.data, [6, 17], [7, 3, 8, 1, octet, 20, 3, 25, 1, 1, 22, 3, 27, 1, 0, 23, 0], []⟩

def data (octet : UInt8) : Data :=
  (Data.wireDecode (dataBlock octet)).toOption.getD ⟨[], .default, none, none, none, [], false⟩

def interest (octet : UInt8) : Interest := .blank [⟨Tlv.genericNameComponent, [octet], [8, 1]⟩]

/-- An Interest for `/a` with the length of the component in three octets. -/
def longForm : Interest := .blank [⟨Tlv.genericNameComponent, [97], [8, 253, 0, 1]⟩]

end Sample

end NdnMulticast.Nfd
