/-
  The capacity of `InMemoryStorage` (`ndn-cxx/ims`) and its replacement policies.

  Packets have full names of an arbitrary type.  Which entry a lookup finds and which ones
  an erasure comes to is left open; here it only matters that they are stored.
-/

import Mathlib.Algebra.Group.Nat.Defs
import Mathlib.Data.List.Perm.Basic
import NdnMulticast.Lib.Run

namespace NdnMulticast.Ndn

open Lib List Option

/-! ## Replacement policies -/

/-- A policy keeps the stored entries in the order in which it evicts them. -/
structure ImsPolicy (κ σ : Type) [DecidableEq κ] where
  entries : σ → List κ
  empty : σ
  afterInsert : κ → σ → σ
  afterAccess : κ → σ → σ
  beforeErase : κ → σ → σ
  entries_empty : entries empty = []
  perm_afterInsert {k s} : k ∉ entries s → (entries (afterInsert k s)).Perm (k :: entries s)
  perm_afterAccess {k s} : k ∈ entries s → (entries (afterAccess k s)).Perm (entries s)
  perm_beforeErase {k s} : (entries (beforeErase k s)).Perm ((entries s).erase k)

namespace ImsPolicy

variable {κ : Type}

def insertByFrequency (x : κ × Nat) (q : List (κ × Nat)) : List (κ × Nat) :=
  q.takeWhile (·.2 ≤ x.2) ++ x :: q.dropWhile (·.2 ≤ x.2)

theorem perm_insertByFrequency (x : κ × Nat) (q : List (κ × Nat)) :
    (insertByFrequency x q).Perm (x :: q) := by
  refine perm_middle.trans ?_
  rw [takeWhile_append_dropWhile]

variable [DecidableEq κ]

/-- `InMemoryStorageFifo`. -/
def fifo : ImsPolicy κ (List κ) where
  entries q := q
  empty := []
  -- the index refuses an entry it has
  afterInsert k q := if k ∈ q then q else q ++ [k]
  afterAccess _ q := q
  beforeErase k q := q.erase k
  entries_empty := rfl
  perm_afterInsert hk := by
    rw [if_neg hk]
    exact List.perm_append_singleton _ _
  perm_afterAccess _ := .rfl
  perm_beforeErase := .rfl

/-- `InMemoryStorageLru`. -/
def lru : ImsPolicy κ (List κ) :=
  { fifo with
    afterAccess := fun k q => q.erase k ++ [k]
    perm_afterAccess := fun hk =>
      (List.perm_append_singleton _ _).trans (List.perm_cons_erase hk).symm }

/-- `modify` with `incrementFrequency`: the entry keeps its place if it can. -/
def incrementFrequency (k : κ) (q : List (κ × Nat)) : List (κ × Nat) :=
  let before := q.takeWhile (·.1 ≠ k)
  match q.dropWhile (·.1 ≠ k) with
  | [] => q
  | x :: after =>
    let x' := (x.1, (x.2 + 1) % 2 ^ 64)
    if before.getLast?.all (·.2 ≤ x'.2) && after.head?.all (x'.2 ≤ ·.2) then before ++ x' :: after
    else insertByFrequency x' (before ++ after)

theorem perm_incrementFrequency (k : κ) (q : List (κ × Nat)) :
    ((incrementFrequency k q).map Prod.fst).Perm (q.map Prod.fst) := by
  unfold incrementFrequency
  split
  · exact .rfl
  rename_i x after hafter
  have hq : q = q.takeWhile (·.1 ≠ k) ++ x :: after := by
    rw [← hafter, takeWhile_append_dropWhile]
  conv_rhs => rw [hq]
  dsimp only
  split
  · simp
  · refine ((perm_insertByFrequency _ _).map Prod.fst).trans ?_
    simpa using perm_middle.symm

/-- `InMemoryStorageLfu`. -/
def lfu : ImsPolicy κ (List (κ × Nat)) where
  entries q := q.map Prod.fst
  empty := []
  afterInsert k q := if k ∈ q.map Prod.fst then q else insertByFrequency (k, 0) q
  afterAccess := incrementFrequency
  beforeErase k q := q.eraseP (·.1 == k)
  entries_empty := rfl
  perm_afterInsert hk := by
    rw [if_neg hk]
    exact (perm_insertByFrequency _ _).map Prod.fst
  perm_afterAccess _ := perm_incrementFrequency _ _
  perm_beforeErase {k q} := by
    rw [List.erase_eq_eraseP, List.eraseP_map]
    exact .of_eq (by congr 2; funext x; simp [Function.comp, eq_comm])

end ImsPolicy

/-! ## The storage -/

/-- `m_initCapacity`. -/
def imsInitCapacity : Nat := 16

structure InMemoryStorage (κ σ : Type) where
  limit : Nat
  capacity : Nat
  nPackets : Nat
  /-- How many entries there are in the memory pool. -/
  freeEntries : Nat
  cache : List κ
  cleanupIndex : σ

namespace InMemoryStorage

variable {κ σ : Type} [DecidableEq κ] (p : ImsPolicy κ σ)

def init (limit : Nat) : InMemoryStorage κ σ :=
  let capacity := if limit ≠ 2 ^ 64 - 1 ∧ limit < imsInitCapacity then limit else imsInitCapacity
  ⟨limit, capacity, 0, capacity, [], p.empty⟩

def isFull (s : InMemoryStorage κ σ) : Bool := decide (s.capacity ≤ s.nPackets)

def eraseImpl (k : κ) (s : InMemoryStorage κ σ) : InMemoryStorage κ σ :=
  if k ∈ s.cache then
    { s with
      freeEntries := s.freeEntries + 1
      nPackets := s.nPackets - 1
      cache := s.cache.erase k }
  else s

def eraseEntry (s : InMemoryStorage κ σ) (k : κ) : InMemoryStorage κ σ :=
  { s.eraseImpl k with cleanupIndex := p.beforeErase k s.cleanupIndex }

/-- `evictItem`; `none` if there is nothing to evict. -/
def evictItem (s : InMemoryStorage κ σ) : Option (InMemoryStorage κ σ) :=
  match p.entries s.cleanupIndex with
  | [] => none
  | k :: _ => some (s.eraseEntry p k)

/-- The eviction loop of `setCapacity`, which raises if it cannot evict. -/
def evictLoop : Nat → InMemoryStorage κ σ → Option (InMemoryStorage κ σ)
  | 0, s => some s
  | n + 1, s => if s.capacity < s.nPackets then (s.evictItem p).bind (evictLoop n) else some s

/-- The end of `setCapacity`: the memory pool grows or shrinks; `none` if it runs out. -/
def resizePool (oldCapacity : Nat) (s : InMemoryStorage κ σ) : Option (InMemoryStorage κ σ) :=
  if oldCapacity ≤ s.capacity then
    some { s with freeEntries := s.freeEntries + (s.capacity - oldCapacity) }
  else if s.freeEntries < oldCapacity - s.capacity then none
  else some { s with freeEntries := s.freeEntries - (oldCapacity - s.capacity) }

def setCapacity (capacity : Nat) (s : InMemoryStorage κ σ) : Option (InMemoryStorage κ σ) :=
  (evictLoop p s.nPackets { s with capacity := max capacity imsInitCapacity }).bind
    (resizePool s.capacity)

/-- In `insert`, if the storage is full and not at its limit. -/
def grow (s : InMemoryStorage κ σ) : Option (InMemoryStorage κ σ) :=
  if s.isFull && s.limit != s.capacity then
    s.setCapacity p (min (2 * s.capacity % 2 ^ 64) s.limit)
  else some s

/-- In `insert`, with a free entry; `none` if the assertion that there is one fails. -/
def store (k : κ) (s : InMemoryStorage κ σ) : Option (InMemoryStorage κ σ) :=
  if s.freeEntries = 0 then none
  else some { s with
    freeEntries := s.freeEntries - 1
    nPackets := s.nPackets + 1
    cache := s.cache ++ [k]
    cleanupIndex := p.afterInsert k s.cleanupIndex }

def insert (k : κ) (s : InMemoryStorage κ σ) : Option (InMemoryStorage κ σ) :=
  if k ∈ s.cache then some s
  else
    let doesReachLimit := s.limit == s.capacity
    (s.grow p).bind fun s =>
      (if s.isFull && doesReachLimit then (s.evictItem p).getD s else s).store p k

/-- The end of `erase`. -/
def shrink (s : InMemoryStorage κ σ) : Option (InMemoryStorage κ σ) :=
  if 2 * s.nPackets % 2 ^ 64 < s.freeEntries then s.setCapacity p (s.capacity / 2) else some s

inductive Event (κ : Type) where
  | insert (k : κ)
  /-- A lookup that tells the policy about the entry it finds. -/
  | find (k : κ)
  /-- `erase` of a full name. -/
  | erase (k : κ)
  /-- `erase` of a prefix, of the entries it comes to. -/
  | erasePrefix (isUnder : κ → Bool)

/-- `none` if an assertion fails or a call raises. -/
def step (s : InMemoryStorage κ σ) : Event κ → Option (InMemoryStorage κ σ)
  | .insert k => s.insert p k
  | .find k =>
    some (if k ∈ s.cache then { s with cleanupIndex := p.afterAccess k s.cleanupIndex } else s)
  | .erase k => if k ∈ s.cache then (s.eraseEntry p k).shrink p else some s
  | .erasePrefix isUnder => ((s.cache.filter isUnder).foldl (eraseEntry p) s).shrink p

/-! ## Invariants -/

/-- The policy knows the stored entries, which have different full names. -/
structure Mirrors (s : InMemoryStorage κ σ) : Prop where
  perm : (p.entries s.cleanupIndex).Perm s.cache
  nodup : s.cache.Nodup
  nPackets : s.nPackets = s.cache.length

/-- Entries went back to the memory pool. -/
structure Freed (s s' : InMemoryStorage κ σ) : Prop where
  limit : s'.limit = s.limit
  capacity : s'.capacity = s.capacity
  total : s'.nPackets + s'.freeEntries = s.nPackets + s.freeEntries
  sublist : s'.cache.Sublist s.cache

omit [DecidableEq κ] in
theorem Freed.trans {s s' s'' : InMemoryStorage κ σ} (h : Freed s s') (h' : Freed s' s'') :
    Freed s s'' :=
  ⟨h'.limit.trans h.limit, h'.capacity.trans h.capacity, h'.total.trans h.total,
    h'.sublist.trans h.sublist⟩

variable {p} {s : InMemoryStorage κ σ} {k : κ}

theorem Mirrors.eraseEntry (h : Mirrors p s) (hk : k ∈ s.cache) :
    Mirrors p (s.eraseEntry p k) ∧ Freed s (s.eraseEntry p k) ∧
      (s.eraseEntry p k).cache = s.cache.erase k ∧ (s.eraseEntry p k).nPackets < s.nPackets := by
  have hpos : 0 < s.cache.length := length_pos_of_mem hk
  have hn := h.nPackets
  unfold InMemoryStorage.eraseEntry InMemoryStorage.eraseImpl
  rw [if_pos hk]
  refine ⟨⟨p.perm_beforeErase.trans (h.perm.erase k), h.nodup.erase k, ?_⟩,
    ⟨rfl, rfl, ?_, erase_sublist⟩, rfl, ?_⟩
  · show s.nPackets - 1 = (s.cache.erase k).length
    rw [length_erase_of_mem hk, hn]
  · show s.nPackets - 1 + (s.freeEntries + 1) = _
    omega
  · show s.nPackets - 1 < s.nPackets
    omega

theorem Mirrors.evictItem (h : Mirrors p s) (hpos : 0 < s.nPackets) :
    ∃ s', s.evictItem p = some s' ∧ Mirrors p s' ∧ Freed s s' ∧ s'.nPackets < s.nPackets := by
  unfold InMemoryStorage.evictItem
  cases hentries : p.entries s.cleanupIndex with
  | nil =>
    have hlen := h.perm.length_eq
    rw [hentries, ← h.nPackets, length_nil] at hlen
    omega
  | cons k rest =>
    obtain ⟨hmirrors, hfreed, -, hlt⟩ := h.eraseEntry (h.perm.mem_iff.1 (hentries ▸ mem_cons_self))
    exact ⟨_, rfl, hmirrors, hfreed, hlt⟩

theorem Mirrors.evictLoop {n : Nat} (h : Mirrors p s) (hn : s.nPackets ≤ n) :
    ∃ s', evictLoop p n s = some s' ∧ Mirrors p s' ∧ Freed s s' ∧ s'.nPackets ≤ s'.capacity := by
  induction n generalizing s with
  | zero => exact ⟨s, rfl, h, ⟨rfl, rfl, rfl, .refl _⟩, by omega⟩
  | succ n ih =>
    unfold InMemoryStorage.evictLoop
    by_cases hlt : s.capacity < s.nPackets
    · obtain ⟨mid, hmid, hmirrors, hfreed, hless⟩ := h.evictItem (by omega)
      obtain ⟨s', hs', hmirrors', hfreed', hle⟩ := ih hmirrors (by omega)
      rw [if_pos hlt, hmid]
      exact ⟨s', hs', hmirrors', hfreed.trans hfreed', hle⟩
    · rw [if_neg hlt]
      exact ⟨s, rfl, h, ⟨rfl, rfl, rfl, .refl _⟩, by omega⟩

theorem Mirrors.setCapacity (h : Mirrors p s) (htotal : s.nPackets + s.freeEntries = s.capacity)
    (capacity : Nat) :
    ∃ s', s.setCapacity p capacity = some s' ∧ Mirrors p s' ∧ s'.limit = s.limit ∧
      s'.capacity = max capacity imsInitCapacity ∧ s'.nPackets + s'.freeEntries = s'.capacity ∧
      s'.cache.Sublist s.cache := by
  have hstart : Mirrors p { s with capacity := max capacity imsInitCapacity } :=
    ⟨h.perm, h.nodup, h.nPackets⟩
  obtain ⟨s', hs', hmirrors, hfreed, hle⟩ := hstart.evictLoop (Nat.le_refl _)
  have htotal' := hfreed.total.trans htotal
  have hcapacity := hfreed.capacity
  unfold InMemoryStorage.setCapacity
  rw [hs', bind_some, resizePool]
  split
  · refine ⟨_, rfl, ⟨hmirrors.perm, hmirrors.nodup, hmirrors.nPackets⟩, hfreed.limit, hcapacity, ?_,
      hfreed.sublist⟩
    dsimp only
    omega
  · rw [if_neg (by omega)]
    refine ⟨_, rfl, ⟨hmirrors.perm, hmirrors.nodup, hmirrors.nPackets⟩, hfreed.limit, hcapacity, ?_,
      hfreed.sublist⟩
    dsimp only
    omega

/-- A limit below the initial capacity is the capacity. -/
structure Inv (p : ImsPolicy κ σ) (s : InMemoryStorage κ σ) : Prop extends Mirrors p s where
  total : s.nPackets + s.freeEntries = s.capacity
  capacity_le : s.capacity ≤ s.limit
  le_capacity : imsInitCapacity ≤ s.capacity ∨ s.capacity = s.limit
  limit_pos : 0 < s.limit

/-- Packets can be counted with doubling in 64 bits, and with a limit below the initial capacity no
    erasure makes the storage shrink. -/
def Permits (s : InMemoryStorage κ σ) : Event κ → Prop
  | .insert _ => s.nPackets < 2 ^ 63
  | .find _ => True
  | .erase k => k ∈ s.cache → imsInitCapacity ≤ s.limit ∨ s.capacity ≤ 3 * (s.nPackets - 1)
  | .erasePrefix isUnder =>
    imsInitCapacity ≤ s.limit ∨ s.capacity ≤ 3 * (s.nPackets - (s.cache.filter isUnder).length)

theorem capacity_init (limit : Nat) : (init p limit).capacity = min limit imsInitCapacity := by
  show (if limit ≠ 2 ^ 64 - 1 ∧ limit < imsInitCapacity then limit else imsInitCapacity) = _
  unfold imsInitCapacity
  by_cases hlt : limit < 16
  · rw [if_pos ⟨by omega, hlt⟩]
    omega
  · rw [if_neg fun h => hlt h.2]
    omega

theorem Inv.init (p : ImsPolicy κ σ) {limit : Nat} (hlimit : 0 < limit) :
    Inv p (InMemoryStorage.init p limit) := by
  have hcapacity := capacity_init (p := p) limit
  refine ⟨⟨?_, nodup_nil, rfl⟩, Nat.zero_add _, ?_, ?_, hlimit⟩
  · show (p.entries p.empty).Perm []
    rw [p.entries_empty]
  · show _ ≤ limit
    omega
  · show _ ∨ _ = limit
    omega

section

variable (h : Inv p s)
include h

theorem Inv.store (hk : k ∉ s.cache) (hfree : 0 < s.freeEntries) :
    ∃ s', s.store p k = some s' ∧ Inv p s' ∧ s'.limit = s.limit := by
  have htotal := h.total
  unfold InMemoryStorage.store
  rw [if_neg (by omega)]
  refine ⟨_, rfl, ⟨⟨?_, ?_, ?_⟩, ?_, h.capacity_le, h.le_capacity, h.limit_pos⟩, rfl⟩
  · have hk' : k ∉ p.entries s.cleanupIndex := fun hmem => hk (h.perm.mem_iff.1 hmem)
    exact (p.perm_afterInsert hk').trans ((h.perm.cons k).trans (perm_append_singleton _ _).symm)
  · exact (perm_append_singleton k s.cache).nodup_iff.2 (nodup_cons.2 ⟨hk, h.nodup⟩)
  · simp [h.nPackets]
  · dsimp only
    omega

theorem Inv.setCapacity {capacity : Nat} (hle : capacity ≤ s.limit)
    (hlimit : imsInitCapacity ≤ s.limit) :
    ∃ s', s.setCapacity p capacity = some s' ∧ Inv p s' ∧ s'.limit = s.limit ∧
      s'.capacity = max capacity imsInitCapacity ∧ s'.cache.Sublist s.cache := by
  obtain ⟨s', hs', hmirrors, hlimit', hcapacity, htotal, hsub⟩ :=
    h.toMirrors.setCapacity h.total capacity
  have hpos := h.limit_pos
  exact ⟨s', hs', ⟨hmirrors, htotal, by omega, by omega, by omega⟩, hlimit', hcapacity, hsub⟩

/-- Below the limit a full storage grows. -/
theorem Inv.grow (hlt : s.nPackets < 2 ^ 63) :
    ∃ s', s.grow p = some s' ∧ Inv p s' ∧ s'.limit = s.limit ∧ s'.cache.Sublist s.cache ∧
      (s'.isFull = true → s.limit = s.capacity) := by
  have htotal := h.total
  have hle := h.capacity_le
  unfold InMemoryStorage.grow
  by_cases hfull : (s.isFull && s.limit != s.capacity) = true
  · rw [if_pos hfull]
    rw [isFull, Bool.and_eq_true, decide_eq_true_eq, bne_iff_ne] at hfull
    have hge : imsInitCapacity ≤ s.capacity :=
      h.le_capacity.resolve_right fun heq => hfull.2 heq.symm
    obtain ⟨s', hs', hinv, hlimit, hcapacity, hsub⟩ :=
      h.setCapacity (Nat.min_le_right (2 * s.capacity % 2 ^ 64) s.limit) (by omega)
    refine ⟨s', hs', hinv, hlimit, hsub, fun hfull' => ?_⟩
    rw [isFull, decide_eq_true_eq] at hfull'
    have hlen := hsub.length_le
    have hn := h.nPackets
    have hn' := hinv.nPackets
    unfold imsInitCapacity at hge
    omega
  · rw [if_neg hfull]
    refine ⟨s, rfl, h, rfl, .refl _, fun hfull' => ?_⟩
    simpa [hfull'] using hfull

theorem Inv.freed {s' : InMemoryStorage κ σ} (hmirrors : Mirrors p s') (hfreed : Freed s s') :
    Inv p s' := by
  have htotal := h.total
  have hle := h.capacity_le
  have hge := h.le_capacity
  have hpos := h.limit_pos
  obtain ⟨hlimit, hcapacity, htotal', -⟩ := hfreed
  exact ⟨hmirrors, by omega, by omega, by omega, by omega⟩

theorem Inv.insert (hlt : s.nPackets < 2 ^ 63) (k : κ) :
    ∃ s', s.insert p k = some s' ∧ Inv p s' ∧ s'.limit = s.limit := by
  unfold InMemoryStorage.insert
  by_cases hk : k ∈ s.cache
  · exact ⟨s, if_pos hk, h, rfl⟩
  obtain ⟨mid, hmid, hinv, hlimit, hsub, hreached⟩ := h.grow hlt
  have hk' : k ∉ mid.cache := fun hmem => hk (hsub.subset hmem)
  have htotal := hinv.total
  rw [if_neg hk, hmid, bind_some]
  by_cases hfull : mid.isFull = true
  · have hpos := hinv.limit_pos
    have hge := hinv.le_capacity
    have hfull' : mid.capacity ≤ mid.nPackets := of_decide_eq_true hfull
    unfold imsInitCapacity at hge
    obtain ⟨s', hs', hmirrors, hfreed, hless⟩ := hinv.evictItem (by omega)
    have htotal' := hfreed.total
    obtain ⟨s'', hs'', hinv', hlimit'⟩ := (hinv.freed hmirrors hfreed).store
      (fun hmem => hk' (hfreed.sublist.subset hmem)) (by omega)
    rw [if_pos (by simp [hfull, hreached hfull]), hs', getD_some]
    exact ⟨s'', hs'', hinv', hlimit'.trans (hfreed.limit.trans hlimit)⟩
  · rw [Bool.not_eq_true] at hfull
    have hroom : ¬ mid.capacity ≤ mid.nPackets := of_decide_eq_false hfull
    obtain ⟨s', hs', hinv', hlimit'⟩ := hinv.store hk' (by omega)
    rw [if_neg (by simp [hfull])]
    exact ⟨s', hs', hinv', hlimit'.trans hlimit⟩

theorem Inv.shrink (hok : imsInitCapacity ≤ s.limit ∨ s.capacity ≤ 3 * s.nPackets) :
    ∃ s', s.shrink p = some s' ∧ Inv p s' ∧ s'.limit = s.limit := by
  have htotal := h.total
  have hle := h.capacity_le
  by_cases hfree : 2 * s.nPackets % 2 ^ 64 < s.freeEntries
  · by_cases hlimit : imsInitCapacity ≤ s.limit
    · obtain ⟨s', hs', hinv, hlimit', -⟩ :=
        h.setCapacity (Nat.le_trans (Nat.div_le_self s.capacity 2) hle) hlimit
      exact ⟨s', (if_pos hfree).trans hs', hinv, hlimit'⟩
    · -- a small storage has at most two free entries for each packet
      have hthree := hok.resolve_left hlimit
      unfold imsInitCapacity at hlimit
      rw [Nat.mod_eq_of_lt (by omega)] at hfree
      omega
  · exact ⟨s, if_neg hfree, h, rfl⟩

end

theorem Mirrors.eraseAll {ks : List κ} (h : Mirrors p s) (hks : ks.Nodup)
    (hmem : ∀ k ∈ ks, k ∈ s.cache) :
    Mirrors p (ks.foldl (InMemoryStorage.eraseEntry p) s) ∧
      Freed s (ks.foldl (InMemoryStorage.eraseEntry p) s) ∧
      (ks.foldl (InMemoryStorage.eraseEntry p) s).nPackets = s.nPackets - ks.length := by
  induction ks generalizing s with
  | nil => exact ⟨h, ⟨rfl, rfl, rfl, .refl _⟩, rfl⟩
  | cons k ks ih =>
    rw [nodup_cons] at hks
    rw [forall_mem_cons] at hmem
    obtain ⟨hmirrors, hfreed, hcache, hless⟩ := h.eraseEntry hmem.1
    have hmem' : ∀ j ∈ ks, j ∈ (s.eraseEntry p k).cache := by
      intro j hj
      have hne : j ≠ k := fun heq => hks.1 (heq ▸ hj)
      rw [hcache]
      exact (mem_erase_of_ne hne).2 (hmem.2 j hj)
    obtain ⟨hmirrors', hfreed', hn⟩ := ih hmirrors hks.2 hmem'
    refine ⟨hmirrors', hfreed.trans hfreed', hn.trans ?_⟩
    have hlen : (s.eraseEntry p k).nPackets = s.nPackets - 1 := by
      rw [hmirrors.nPackets, hcache, length_erase_of_mem hmem.1, h.nPackets]
    rw [hlen, length_cons]
    omega

theorem Inv.step (h : Inv p s) {e : Event κ} (hok : s.Permits e) :
    ∃ s', s.step p e = some s' ∧ Inv p s' ∧ s'.limit = s.limit := by
  cases e with
  | insert k => exact h.insert hok k
  | find k =>
    refine ⟨_, rfl, ?_⟩
    by_cases hk : k ∈ s.cache
    · rw [if_pos hk]
      refine ⟨⟨⟨?_, h.nodup, h.nPackets⟩, h.total, h.capacity_le, h.le_capacity, h.limit_pos⟩, rfl⟩
      exact (p.perm_afterAccess (h.perm.mem_iff.2 hk)).trans h.perm
    · rw [if_neg hk]
      exact ⟨h, rfl⟩
  | erase k =>
    by_cases hk : k ∈ s.cache
    · have hmem : ∀ j ∈ [k], j ∈ s.cache := by simpa using hk
      obtain ⟨hmirrors, hfreed, hn⟩ := h.toMirrors.eraseAll (by simp) hmem
      obtain ⟨s', hs', hinv, hlimit⟩ := (h.freed hmirrors hfreed).shrink (by
        rw [hn, hfreed.limit, hfreed.capacity]
        exact hok hk)
      exact ⟨s', (if_pos hk).trans hs', hinv, hlimit.trans hfreed.limit⟩
    · exact ⟨s, if_neg hk, h, rfl⟩
  | erasePrefix isUnder =>
    obtain ⟨hmirrors, hfreed, hn⟩ := h.toMirrors.eraseAll (h.nodup.filter isUnder)
      fun k hk => (mem_filter.1 hk).1
    obtain ⟨s', hs', hinv, hlimit⟩ := (h.freed hmirrors hfreed).shrink (by
      rw [hn, hfreed.limit, hfreed.capacity]
      exact hok)
    exact ⟨s', hs', hinv, hlimit.trans hfreed.limit⟩

/-- Under the condition the storage keeps its limit and its books, and no operation fails. -/
theorem run_bounded {limit : Nat} {es : List (Event κ)} (hlimit : 0 < limit)
    (hrun : Run (step p) Permits (init p limit) es s) :
    s.cache.length ≤ limit ∧ s.nPackets = s.cache.length ∧
      s.nPackets + s.freeEntries = s.capacity ∧ ∀ e, s.Permits e → (s.step p e).isSome := by
  have hinv : Inv p s ∧ s.limit = limit := by
    refine hrun.invariant (I := fun s => Inv p s ∧ s.limit = limit) ?_ ⟨.init p hlimit, rfl⟩
    intro s e s' hs hok hstep
    obtain ⟨s'', hs'', hinv, hlimit'⟩ := hs.1.step hok
    obtain rfl : s'' = s' := mem_unique hs'' hstep
    exact ⟨hinv, hlimit'.trans hs.2⟩
  obtain ⟨h, hlimit'⟩ := hinv
  have htotal := h.total
  have hle := h.capacity_le
  have hn := h.nPackets
  refine ⟨by omega, hn, htotal, fun e hok => ?_⟩
  obtain ⟨s', hs', -⟩ := h.step hok
  rw [hs']
  rfl

theorem run_bounded_insert_twice :
    ∃ s, Run (step (ImsPolicy.fifo (κ := Nat))) Permits (init ImsPolicy.fifo 1)
      [.insert 0, .insert 1] s ∧ s.cache.length ≤ 1 := by
  have hrun : Run (step (ImsPolicy.fifo (κ := Nat))) Permits (init ImsPolicy.fifo 1)
      [.insert 0, .insert 1] ⟨1, 1, 1, 0, [1], [1]⟩ :=
    .cons (show 0 < 2 ^ 63 by decide) rfl (.cons (show 1 < 2 ^ 63 by decide) rfl (.nil _))
  exact ⟨_, hrun, (run_bounded (by decide) hrun).1⟩

/-- An erasure lets a storage for one packet take sixteen, and then no further one. -/
theorem capacity_above_limit :
    ∃ s, Run (step (ImsPolicy.fifo (κ := Nat))) (fun _ _ => True) (init ImsPolicy.fifo 1)
      ([.insert 0, .erase 0] ++ (List.range 16).map .insert) s ∧
      ¬ s.cache.length ≤ 1 ∧ s.step ImsPolicy.fifo (.insert 16) = none := by
  refine Run.exists_of_decide (fun s => ¬ s.cache.length ≤ 1 ∧
    (s.step ImsPolicy.fifo (.insert 16)).isNone = true) (by decide) fun s _ hs => ?_
  exact ⟨hs.1, isNone_iff_eq_none.1 hs.2⟩

end InMemoryStorage

end NdnMulticast.Ndn
