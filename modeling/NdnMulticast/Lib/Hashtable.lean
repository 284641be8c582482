/-
  A chained hash table of references that resizes itself.  Neither the buckets nor the
  resizing shows in what the table holds (`toList`).
-/

import Mathlib.Data.List.Perm.Basic

namespace NdnMulticast.Lib

open List

/-- When and to what number of buckets a table resizes, by load factors. -/
structure HashtableOptions where
  minSize : Nat
  expandThreshold : Nat → Nat
  shrinkThreshold : Nat → Nat
  expand : Nat → Nat
  shrink : Nat → Nat
  minSize_pos : 0 < minSize
  expand_pos : ∀ n, 0 < n → 0 < expand n

/-! ## Lists of chains -/

section

variable {α : Type} {l : List (List α)} {i : Nat} {x : α}

theorem flatten_modify_cons (hi : i < l.length) :
    (l.modify i (x :: ·)).flatten.Perm (x :: l.flatten) := by
  induction l generalizing i with
  | nil => exact absurd hi (Nat.not_lt_zero i)
  | cons c l ih =>
    cases i with
    | zero => exact Perm.refl _
    | succ i =>
      exact ((ih (Nat.lt_of_succ_lt_succ hi)).append_left c).trans perm_middle

theorem flatten_modify_erase [BEq α] [LawfulBEq α] {c : List α} (hc : l[i]? = some c) (hx : x ∈ c) :
    l.flatten.Perm (x :: (l.modify i (·.erase x)).flatten) := by
  induction l generalizing i with
  | nil => cases hc
  | cons d l ih => grind

end

structure Hashtable (ι : Type) where
  buckets : List (List (Nat × ι))
  nBuckets_pos : 0 < buckets.length
  placed : ∀ i chain, buckets[i]? = some chain → ∀ x ∈ chain, x.1 % buckets.length = i

namespace Hashtable

variable {ι : Type}

/-- An empty table with the given number of buckets. -/
def init (n : Nat) (hn : 0 < n) : Hashtable ι where
  buckets := List.replicate n []
  nBuckets_pos := by simpa using hn
  placed := by
    intro i chain hchain x hx
    rw [List.getElem?_replicate] at hchain
    split at hchain
    · rw [← Option.some.inj hchain] at hx
      cases hx
    · cases hchain

def nBuckets (t : Hashtable ι) : Nat := t.buckets.length

/-- The references in the order of an enumeration. -/
def toList (t : Hashtable ι) : List (Nat × ι) := t.buckets.flatten

/-- A new reference goes to the front of its chain. -/
def attach (t : Hashtable ι) (x : Nat × ι) : Hashtable ι where
  buckets := t.buckets.modify (x.1 % t.nBuckets) (x :: ·)
  nBuckets_pos := by simpa using t.nBuckets_pos
  placed := by
    intro i chain hchain y hy
    rw [List.length_modify]
    rw [List.getElem?_modify] at hchain
    obtain ⟨old, hold, rfl⟩ := Option.map_eq_some_iff.1 hchain
    by_cases hi : x.1 % t.nBuckets = i
    · rw [if_pos hi] at hy
      rcases List.mem_cons.1 hy with rfl | hy
      · exact hi
      · exact t.placed i old hold y hy
    · rw [if_neg hi] at hy
      exact t.placed i old hold y hy

def detach [DecidableEq ι] (t : Hashtable ι) (x : Nat × ι) : Hashtable ι where
  buckets := t.buckets.modify (x.1 % t.nBuckets) (·.erase x)
  nBuckets_pos := by simpa using t.nBuckets_pos
  placed := by
    intro i chain hchain y hy
    rw [List.length_modify]
    rw [List.getElem?_modify] at hchain
    obtain ⟨old, hold, rfl⟩ := Option.map_eq_some_iff.1 hchain
    by_cases hi : x.1 % t.nBuckets = i
    · grind [placed]
    · rw [if_neg hi] at hy
      exact t.placed i old hold y hy

/-- The references are attached again, one by one. -/
def resize (t : Hashtable ι) (n : Nat) (hn : 0 < n) : Hashtable ι :=
  if t.nBuckets = n then t else t.toList.foldl attach (init n hn)

def insert (opts : HashtableOptions) (t : Hashtable ι) (hash : Nat) (i : ι) : Hashtable ι :=
  let t' := t.attach (hash, i)
  if opts.expandThreshold t.nBuckets < t'.toList.length then
    t'.resize (opts.expand t.nBuckets) (opts.expand_pos _ t.nBuckets_pos)
  else t'

def erase [DecidableEq ι] (opts : HashtableOptions) (t : Hashtable ι) (hash : Nat) (i : ι) :
    Hashtable ι :=
  let t' := t.detach (hash, i)
  if t'.toList.length < opts.shrinkThreshold t.nBuckets then
    t'.resize (max opts.minSize (opts.shrink t.nBuckets))
      (Nat.lt_of_lt_of_le opts.minSize_pos (Nat.le_max_left _ _))
  else t'

/-- The first reference in the bucket of a hash value that has it and meets `p`. -/
def find (t : Hashtable ι) (hash : Nat) (p : ι → Bool) : Option ι :=
  ((t.buckets.getD (hash % t.nBuckets) []).find? fun x => x.1 == hash && p x.2).map Prod.snd

variable {t : Hashtable ι} {hash : Nat} {i : ι} {p : ι → Bool}

theorem bucket_lt (t : Hashtable ι) (hash : Nat) : hash % t.nBuckets < t.buckets.length :=
  Nat.mod_lt _ t.nBuckets_pos

theorem toList_attach (t : Hashtable ι) (x : Nat × ι) : (t.attach x).toList.Perm (x :: t.toList) :=
  flatten_modify_cons (t.bucket_lt x.1)

theorem toList_init {n : Nat} (hn : 0 < n) : (init n hn : Hashtable ι).toList = [] := by
  simp [init, toList]

theorem toList_foldl_attach (l : List (Nat × ι)) (t : Hashtable ι) :
    (l.foldl attach t).toList.Perm (l ++ t.toList) := by
  induction l generalizing t with
  | nil => exact Perm.refl _
  | cons x l ih =>
    exact (ih (t.attach x)).trans (((t.toList_attach x).append_left l).trans perm_middle)

theorem toList_resize (t : Hashtable ι) {n : Nat} (hn : 0 < n) :
    (t.resize n hn).toList.Perm t.toList := by
  unfold resize
  split
  · exact Perm.refl _
  · have h := toList_foldl_attach t.toList (init n hn)
    rwa [toList_init, append_nil] at h

theorem mem_toList_iff (x : Nat × ι) : x ∈ t.toList ↔ x ∈ t.buckets.getD (x.1 % t.nBuckets) [] := by
  rw [toList, mem_flatten]
  constructor
  · rintro ⟨chain, hchain, hx⟩
    obtain ⟨b, hb⟩ := getElem?_of_mem hchain
    have hplaced : x.1 % t.nBuckets = b := t.placed b chain hb x hx
    rw [hplaced, getD_eq_getElem?_getD, hb]
    exact hx
  · grind

theorem toList_insert (opts : HashtableOptions) (t : Hashtable ι) (hash : Nat) (i : ι) :
    (t.insert opts hash i).toList.Perm ((hash, i) :: t.toList) := by
  simp only [insert]
  split
  · exact (toList_resize _ _).trans (t.toList_attach _)
  · exact t.toList_attach _

theorem toList_detach [DecidableEq ι] {x : Nat × ι} (hx : x ∈ t.toList) :
    t.toList.Perm (x :: (t.detach x).toList) := by
  have hb := t.bucket_lt x.1
  rw [mem_toList_iff, getD_eq_getElem?_getD, getElem?_eq_getElem hb] at hx
  exact flatten_modify_erase (getElem?_eq_getElem hb) hx

theorem toList_erase [DecidableEq ι] (opts : HashtableOptions) (h : (hash, i) ∈ t.toList) :
    t.toList.Perm ((hash, i) :: (t.erase opts hash i).toList) := by
  refine (toList_detach h).trans (Perm.cons _ ?_)
  simp only [erase]
  split
  · exact (toList_resize _ _).symm
  · exact Perm.refl _

theorem find_eq_some (h : t.find hash p = some i) : (hash, i) ∈ t.toList ∧ p i = true := by
  obtain ⟨x, hx, rfl⟩ := Option.map_eq_some_iff.1 h
  have hpred := find?_some hx
  rw [Bool.and_eq_true, beq_iff_eq] at hpred
  obtain ⟨rfl, hp⟩ := hpred
  exact ⟨(mem_toList_iff x).2 (mem_of_find?_eq_some hx), hp⟩

theorem find_eq_none (h : t.find hash p = none) (hi : (hash, i) ∈ t.toList) : p i = false := by
  rw [find, Option.map_eq_none_iff] at h
  have hnot := find?_eq_none.1 h (hash, i) ((mem_toList_iff (hash, i)).1 hi)
  simpa using hnot

end Hashtable

end NdnMulticast.Lib
