/-
  Tables keyed by sequences and searched by longest prefix.  Keys are at most `depth` long,
  so longer prefixes need not be tried.
-/

import NdnMulticast.Lib.Assoc

namespace NdnMulticast.Lib

open List

/-- Values under distinct keys of bounded length. -/
structure PrefixMap (depth : Nat) (κ β : Type) where
  entries : List (List κ × β)
  keys_nodup : (entries.map Prod.fst).Nodup
  length_le : ∀ x ∈ entries, x.1.length ≤ depth

namespace PrefixMap

variable {depth : Nat} {κ β : Type} [DecidableEq κ]

def empty : PrefixMap depth κ β := ⟨[], List.nodup_nil, by simp⟩

def get (m : PrefixMap depth κ β) (k : List κ) : Option β := m.entries.lookup k

def erase (m : PrefixMap depth κ β) (k : List κ) : PrefixMap depth κ β where
  entries := m.entries.filter (·.1 != k)
  keys_nodup := m.keys_nodup.sublist (List.filter_sublist.map _)
  length_le := fun x hx => m.length_le x (List.mem_filter.1 hx).1

/-- Stores a value under a key, in the place of the one there. -/
def insert (m : PrefixMap depth κ β) (k : List κ) (b : β) (hk : k.length ≤ depth) :
    PrefixMap depth κ β where
  entries := (k, b) :: (m.erase k).entries
  keys_nodup := by
    rw [List.map_cons, List.nodup_cons]
    refine ⟨?_, (m.erase k).keys_nodup⟩
    intro hmem
    obtain ⟨x, hx, hkey⟩ := List.mem_map.1 hmem
    have hne := (List.mem_filter.1 hx).2
    simp [hkey] at hne
  length_le := by
    intro x hx
    rcases List.mem_cons.1 hx with rfl | hx
    · exact hk
    · exact (m.erase k).length_le x hx

/-- Updates every value, or drops its entry. -/
def filterMap (m : PrefixMap depth κ β) (f : List κ → β → Option β) : PrefixMap depth κ β where
  entries := m.entries.filterMap fun x => (f x.1 x.2).map (Prod.mk x.1)
  keys_nodup := by
    refine m.keys_nodup.sublist ?_
    induction m.entries with
    | nil => exact .slnil
    | cons x xs ih =>
      cases hx : f x.1 x.2 with
      | none => simpa [hx] using ih.cons x.1
      | some b => simpa [hx] using ih.cons_cons x.1
  length_le := by
    intro x hx
    obtain ⟨y, hy, hxy⟩ := List.mem_filterMap.1 hx
    obtain ⟨b, -, rfl⟩ := Option.map_eq_some_iff.1 hxy
    exact m.length_le y hy

/-- The prefixes of `n` of length `i` and less, the longest first. -/
def findFrom (m : PrefixMap depth κ β) (n : List κ) (i : Nat) : Option (List κ × β) :=
  match m.entries.find? (·.1 == n.take i) with
  | some x => some x
  | none =>
    match i with
    | 0 => none
    | i + 1 => m.findFrom n i

def findLongestPrefixMatch (m : PrefixMap depth κ β) (n : List κ) : Option (List κ × β) :=
  m.findFrom n (min n.length depth)

variable {m : PrefixMap depth κ β} {n n' k : List κ} {x y : List κ × β} {b : β} {i : Nat}

theorem get_eq_some_iff : m.get k = some b ↔ (k, b) ∈ m.entries :=
  lookup_eq_some_iff_mem m.keys_nodup

theorem mem_erase : x ∈ (m.erase k).entries ↔ x ∈ m.entries ∧ x.1 ≠ k := by
  simp [erase]

theorem mem_insert {hk : k.length ≤ depth} :
    x ∈ (m.insert k b hk).entries ↔ x = (k, b) ∨ (x ∈ m.entries ∧ x.1 ≠ k) := by
  simp [insert, mem_erase]

theorem mem_insert_self (hk : k.length ≤ depth) : (k, b) ∈ (m.insert k b hk).entries :=
  mem_insert.2 (Or.inl rfl)

theorem mem_insert_of_ne (hk : k.length ≤ depth) (hx : x ∈ m.entries) (hne : x.1 ≠ k) :
    x ∈ (m.insert k b hk).entries :=
  mem_insert.2 (Or.inr ⟨hx, hne⟩)

omit [DecidableEq κ] in
theorem mem_filterMap {f : List κ → β → Option β} :
    x ∈ (m.filterMap f).entries ↔ ∃ b, (x.1, b) ∈ m.entries ∧ f x.1 b = some x.2 := by
  simp only [filterMap, List.mem_filterMap, Option.map_eq_some_iff]
  constructor
  · rintro ⟨y, hy, b, hb, rfl⟩
    exact ⟨y.2, hy, hb⟩
  · rintro ⟨b, hb, hf⟩
    exact ⟨_, hb, x.2, hf, rfl⟩

omit [DecidableEq κ] in
theorem eq_of_key_eq (hx : x ∈ m.entries) (hy : y ∈ m.entries) (h : x.1 = y.1) : x = y :=
  List.inj_on_of_nodup_map m.keys_nodup hx hy h

section

variable (hi : i ≤ n.length)
include hi

theorem find?_take_eq_some_iff :
    m.entries.find? (·.1 == n.take i) = some x ↔ x ∈ m.entries ∧ x.1 <+: n ∧ x.1.length = i := by
  have hkey : ∀ y : List κ × β, y.1 = n.take i ↔ y.1 <+: n ∧ y.1.length = i := by
    intro y
    constructor
    · grind
    · rintro ⟨hpre, rfl⟩
      exact prefix_iff_eq_take.1 hpre
  rw [← hkey]
  constructor
  · grind
  · rintro ⟨hx, hxkey⟩
    cases hfind : m.entries.find? (·.1 == n.take i) with
    | none => simpa [hxkey] using List.find?_eq_none.1 hfind x hx
    | some z => grind [eq_of_key_eq]

theorem find?_take_eq_none (h : m.entries.find? (·.1 == n.take i) = none) :
    ∀ y ∈ m.entries, y.1 <+: n → y.1.length ≠ i := by
  intro y hy hpre hlen
  have hfind := (find?_take_eq_some_iff hi).2 ⟨hy, hpre, hlen⟩
  rw [h] at hfind
  cases hfind

theorem findFrom_eq_some (h : m.findFrom n i = some x) :
    x ∈ m.entries ∧ x.1 <+: n ∧
      ∀ y ∈ m.entries, y.1 <+: n → y.1.length ≤ i → y.1.length ≤ x.1.length := by
  induction i with
  | zero => grind [findFrom, find?_take_eq_some_iff]
  | succ i ih =>
    unfold findFrom at h
    cases hfind : m.entries.find? (·.1 == n.take (i + 1)) with
    | none =>
      rw [hfind] at h
      obtain ⟨hx, hpre, hmax⟩ := ih (by omega) h
      refine ⟨hx, hpre, fun y hy hypre hylen => hmax y hy hypre ?_⟩
      have := find?_take_eq_none hi hfind y hy hypre
      omega
    | some z => grind

theorem findFrom_eq_none (h : m.findFrom n i = none) :
    ∀ y ∈ m.entries, y.1 <+: n → i < y.1.length := by
  induction i with
  | zero => grind [find?_take_eq_none, findFrom]
  | succ i ih =>
    unfold findFrom at h
    cases hfind : m.entries.find? (·.1 == n.take (i + 1)) with
    | none =>
      rw [hfind] at h
      intro y hy hpre
      have hne := find?_take_eq_none hi hfind y hy hpre
      have hlt := ih (by omega) h y hy hpre
      omega
    | some z =>
      rw [hfind] at h
      cases h

end

omit [DecidableEq κ] in
theorem length_le_min (hy : y ∈ m.entries) (hpre : y.1 <+: n) :
    y.1.length ≤ min n.length depth := by
  have h1 := hpre.length_le
  have h2 := m.length_le y hy
  omega

theorem exists_findLongestPrefixMatch (hy : y ∈ m.entries) (hpre : y.1 <+: n) :
    ∃ x, m.findLongestPrefixMatch n = some x := by
  cases h : m.findLongestPrefixMatch n with
  | none =>
    have hlt := findFrom_eq_none (by omega) h y hy hpre
    have hle := length_le_min hy hpre
    omega
  | some x => exact ⟨x, rfl⟩

/-- **Longest prefix match.** -/
theorem findLongestPrefixMatch_eq_some_iff :
    m.findLongestPrefixMatch n = some x ↔ x ∈ m.entries ∧ x.1 <+: n ∧
      ∀ y ∈ m.entries, y.1 <+: n → y.1.length ≤ x.1.length := by
  constructor
  · intro h
    obtain ⟨hx, hpre, hmax⟩ := findFrom_eq_some (by omega) h
    exact ⟨hx, hpre, fun y hy hypre => hmax y hy hypre (length_le_min hy hypre)⟩
  · rintro ⟨hx, hpre, hmax⟩
    obtain ⟨z, hz⟩ := exists_findLongestPrefixMatch hx hpre
    obtain ⟨hzmem, hzpre, hzmax⟩ := findFrom_eq_some (by omega) hz
    have hlen : x.1.length = z.1.length :=
      Nat.le_antisymm (hzmax x hx hpre (length_le_min hx hpre)) (hmax z hzmem hzpre)
    have hkey : x.1 = z.1 := by
      rw [prefix_iff_eq_take.1 hpre, prefix_iff_eq_take.1 hzpre, hlen]
    rw [hz, eq_of_key_eq hx hzmem hkey]

end PrefixMap

end NdnMulticast.Lib
