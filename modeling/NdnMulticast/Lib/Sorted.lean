/-
  Sorted lists: records by increasing keys, as in an ordered set or map, with at most one for each
  key; the first element of a sorted list that satisfies a predicate; and sorting by a key that
  several elements may have.
-/

import Mathlib.Data.List.Sort
import Mathlib.Data.List.TakeWhile

namespace NdnMulticast.Lib

open List

/-! ## Ordered sets -/

section

variable {ρ ν : Type _} [LinearOrder ν] {key : ρ → ν} {r x y : ρ} {l : List ρ} {k : ν}

def Increasing (key : ρ → ν) (l : List ρ) : Prop := l.Pairwise fun a b => key a < key b

def insertByKey (key : ρ → ν) (r : ρ) : List ρ → List ρ
  | [] => [r]
  | x :: xs =>
    if key r < key x then r :: x :: xs
    else if key x < key r then x :: insertByKey key r xs
    else x :: xs

theorem mem_of_mem_insertByKey (h : y ∈ insertByKey key r l) : y = r ∨ y ∈ l := by
  induction l with
  | nil => exact Or.inl (mem_singleton.1 h)
  | cons x l ih => grind [insertByKey]

theorem find?_insertByKey_new {p : ρ → Bool} (hnew : ∀ x ∈ l, key x ≠ key r)
    (hp : ∀ x, p x = true → p r = true → key x = key r) :
    (insertByKey key r l).find? p = if p r then some r else l.find? p := by
  induction l with
  | nil => simp [insertByKey]
  | cons x l ih =>
    obtain ⟨hx, hnew⟩ := forall_mem_cons.1 hnew
    rw [insertByKey]
    split_ifs <;> grind

variable (h : Increasing key l)
include h

theorem Increasing.insertByKey : Increasing key (insertByKey key r l) := by
  induction l with
  | nil => exact pairwise_singleton _ _
  | cons x l ih =>
    rw [Lib.insertByKey]
    split_ifs with hlt hgt
    · refine pairwise_cons.2 ⟨fun y hy => ?_, h⟩
      rcases mem_cons.1 hy with rfl | hy
      · exact hlt
      · exact lt_trans hlt ((pairwise_cons.1 h).1 y hy)
    · obtain ⟨hx, h⟩ := pairwise_cons.1 h
      refine pairwise_cons.2 ⟨fun y hy => ?_, ih h⟩
      rcases mem_of_mem_insertByKey hy with rfl | hy
      · exact hgt
      · exact hx y hy
    · exact h

theorem find?_insertByKey {p : ρ → Bool} (hp : ∀ x, p x = true ↔ key x = k) :
    (insertByKey key r l).find? p = (l.find? p).or (if p r then some r else none) := by
  induction l with
  | nil => simp [insertByKey]
  | cons x l ih =>
    obtain ⟨hx, h⟩ := pairwise_cons.1 h
    rw [insertByKey]
    by_cases hlt : key r < key x
    · rw [if_pos hlt]
      cases hr : p r with
      | false => simp_all
      | true =>
        -- the keys that follow are larger
        have hnone : (x :: l).find? p = none := by
          rw [find?_eq_none]
          intro y hy hpy
          have heq : key y = key r := ((hp y).1 hpy).trans ((hp r).1 hr).symm
          rcases mem_cons.1 hy with rfl | hy
          · exact ne_of_gt hlt heq
          · exact ne_of_gt (lt_trans hlt (hx y hy)) heq
        rw [hnone, find?_cons_of_pos hr]
        rfl
    · rw [if_neg hlt]
      by_cases hpx : p x = true
      · grind
      rw [find?_cons_of_neg hpx]
      by_cases hgt : key x < key r
      · rw [if_pos hgt, find?_cons_of_neg hpx, ih h]
      · -- the keys are equal, and not the one sought
        have hsame : key r = key x := le_antisymm (not_lt.1 hgt) (not_lt.1 hlt)
        have hpr : ¬ p r = true := fun hr => hpx ((hp x).2 (hsame.symm.trans ((hp r).1 hr)))
        rw [if_neg hgt, find?_cons_of_neg hpx, if_neg hpr, Option.or_none]

theorem find?_of_mem {p : ρ → Bool} (hp : ∀ x, p x = true ↔ key x = k) (hr : r ∈ l)
    (hk : key r = k) :
    l.find? p = some r := by
  induction l with
  | nil => cases hr
  | cons x l ih =>
    obtain ⟨hx, h⟩ := pairwise_cons.1 h
    rcases mem_cons.1 hr with rfl | hr
    · exact find?_cons_of_pos ((hp r).2 hk)
    · have hne : ¬ p x = true := fun hpx => ne_of_lt (hx r hr) (((hp x).1 hpx).trans hk.symm)
      rw [find?_cons_of_neg hne]
      exact ih h hr

end

/-! ## The first element -/

theorem find?_eq_some_iff_of_pairwise {α : Type _} {R : α → α → Prop} {l : List α} {p : α → Bool}
    (hl : l.Pairwise R) (hasymm : ∀ a b, R a b → ¬ R b a) {x : α} :
    l.find? p = some x ↔ x ∈ l ∧ p x = true ∧ ∀ y ∈ l, p y = true → y = x ∨ R x y := by
  induction l with
  | nil => simp
  | cons a l ih =>
    have hrest := pairwise_cons.1 hl
    cases ha : p a with
    | true => grind
    | false => grind

/-! ## Sorting -/

variable {α : Type}

/-- What a sort by a key promises. -/
structure SortsBy (key : α → Nat) (sort : List α → List α) : Prop where
  perm : ∀ l, (sort l).Perm l
  sorted : ∀ l, (sort l).Pairwise fun a b => key a ≤ key b

theorem sortsBy_insertionSort (key : α → Nat) :
    SortsBy key (insertionSort fun a b => key a ≤ key b) where
  perm := perm_insertionSort _
  sorted := by
    exact pairwise_insertionSort _

variable {key : α → Nat} {l rest : List α} {x : α} {i : Nat}

theorem SortsBy.coarsen {fine : α → Nat} {sort : List α → List α} (h : SortsBy fine sort)
    (hkey : ∀ a b, fine a ≤ fine b → key a ≤ key b) : SortsBy key sort where
  perm := h.perm
  sorted := fun l => (h.sorted l).imp fun hab => hkey _ _ hab

/-- An element of a sorted list is after the smaller ones, among those not larger. -/
theorem index_bounds (hl : l.Pairwise fun a b => key a ≤ key b) (hi : l[i]? = some x) :
    l.countP (fun a => key a < key x) ≤ i ∧ i < l.countP fun a => key a ≤ key x := by
  obtain ⟨hlt, hget⟩ := List.getElem?_eq_some_iff.1 hi
  have hsplit : l = l.take i ++ x :: l.drop (i + 1) := by
    rw [← hget, getElem_cons_drop, take_append_drop]
  have hlen : (l.take i).length = i := length_take_of_le (Nat.le_of_lt hlt)
  generalize l.take i = before at hsplit hlen
  generalize l.drop (i + 1) = after at hsplit
  rw [hsplit, pairwise_append, pairwise_cons] at hl
  obtain ⟨-, ⟨hafter, -⟩, hbefore⟩ := hl
  rw [hsplit, countP_append, countP_append, countP_cons, countP_cons]
  constructor
  · -- nothing after it is smaller
    have hzero : after.countP (fun a => key a < key x) = 0 := by
      rw [countP_eq_zero]
      intro a ha
      have := hafter a ha
      simpa using this
    have hle := countP_le_length (p := fun a => decide (key a < key x)) (l := before)
    simp only [hzero, lt_irrefl, decide_false, Bool.false_eq_true, if_false]
    omega
  · -- nothing before it is larger
    have hall : before.countP (fun a => key a ≤ key x) = before.length := by
      rw [countP_eq_length]
      intro a ha
      simpa using hbefore a ha x (.head _)
    simp only [hall, le_refl, decide_true, if_true]
    omega

/-- **Where a sort puts an element**: every sort, at place `i`, iff `i` others are smaller and no
    other has its key. -/
theorem forall_sort_getElem?_iff (hl : l.Perm (x :: rest)) (hx : x ∉ rest) :
    (∀ sort, SortsBy key sort → (sort l)[i]? = some x) ↔
      rest.countP (fun a => key a < key x) = i ∧ rest.countP (fun a => key a ≤ key x) = i := by
  classical
  have hcount : ∀ (p : α → Bool) {sort : List α → List α}, SortsBy key sort →
      (sort l).countP p = rest.countP p + if p x then 1 else 0 := by
    intro p sort hsort
    rw [((hsort.perm l).trans hl).countP_eq, countP_cons]
  constructor
  · intro hall
    -- once the element goes before those with an equal key, once after them
    let first : α → Nat := fun a => 2 * key a + if a = x then 0 else 1
    let last : α → Nat := fun a => 2 * key a + if a = x then 1 else 0
    have hfirst : SortsBy key (insertionSort fun a b => first a ≤ first b) := by
      refine (sortsBy_insertionSort first).coarsen fun a b hab => ?_
      simp only [first] at hab
      split at hab <;> split at hab <;> omega
    have hlast : SortsBy key (insertionSort fun a b => last a ≤ last b) := by
      refine (sortsBy_insertionSort last).coarsen fun a b hab => ?_
      simp only [last] at hab
      split at hab <;> split at hab <;> omega
    have hne : ∀ a ∈ rest, a ≠ x := fun a ha heq => hx (heq ▸ ha)
    have hbefore : rest.countP (fun a => first a ≤ first x) =
        rest.countP fun a => key a < key x := by
      refine countP_congr fun a ha => ?_
      simp only [first, if_neg (hne a ha), if_pos, decide_eq_true_eq]
      omega
    have hafter : rest.countP (fun a => last a < last x) = rest.countP fun a => key a ≤ key x := by
      refine countP_congr fun a ha => ?_
      simp only [last, if_neg (hne a ha), if_pos, decide_eq_true_eq]
      omega
    have hfirstPlace := index_bounds ((sortsBy_insertionSort first).sorted l) (hall _ hfirst)
    have hlastPlace := index_bounds ((sortsBy_insertionSort last).sorted l) (hall _ hlast)
    have hfirstKey := index_bounds (hfirst.sorted l) (hall _ hfirst)
    have hlastKey := index_bounds (hlast.sorted l) (hall _ hlast)
    simp only [hcount _ hfirst, hcount _ hlast, hbefore, hafter, lt_irrefl, le_refl, decide_true,
      decide_false, Bool.false_eq_true, if_true, if_false]
      at hfirstPlace hlastPlace hfirstKey hlastKey
    omega
  · rintro ⟨hlt, hle⟩ sort hsort
    have hmem : x ∈ sort l := ((hsort.perm l).trans hl).mem_iff.2 (.head _)
    obtain ⟨p, hp⟩ := getElem?_of_mem hmem
    have hbounds := index_bounds (hsort.sorted l) hp
    rw [hcount _ hsort, hcount _ hsort, hlt, hle] at hbounds
    simp only [lt_irrefl, decide_false, Bool.false_eq_true, if_false, le_refl, decide_true,
      if_true] at hbounds
    obtain rfl : p = i := by omega
    exact hp

end NdnMulticast.Lib
