/-
  Numbers that wrap around: how far one is ahead of another, and windows of them, possibly
  across the wrap-around.
-/

import NdnMulticast.Lib.Sorted

namespace NdnMulticast.Lib

open List Nat

/-- How far `k` is ahead of `first`, counting up modulo `m`. -/
def ahead (m first k : Nat) : Nat := (k + (m - first)) % m

section

variable {m first k j : Nat}

theorem ahead_of_le (hle : first ≤ k) (hk : k < m) : ahead m first k = k - first := by
  have hsum : k + (m - first) = (k - first) + m := by omega
  rw [ahead, hsum, add_mod_right, mod_eq_of_lt (by omega)]

theorem ahead_of_lt (hlt : k < first) (hfirst : first < m) : ahead m first k = k + (m - first) := by
  rw [ahead, mod_eq_of_lt (by omega)]

theorem ahead_add {start i : Nat} (hstart : start < m) (hi : i ≤ m) :
    ahead m i ((start + i) % m) = start := by
  have hsum : start + i + (m - i) = start + m := by omega
  rw [ahead, mod_add_mod, hsum, add_mod_right, mod_eq_of_lt hstart]

theorem succ_mod_cases (hk : k < m) :
    (k + 1) % m = 0 ∧ k + 1 = m ∨ (k + 1) % m = k + 1 ∧ k + 1 < m := by
  rcases lt_or_eq_of_le (succ_le_of_lt hk) with hlt | heq
  · exact Or.inr ⟨mod_eq_of_lt hlt, hlt⟩
  · simp_all

theorem ahead_succ (hfirst : first < m) (hk : k < m) (hne : (k + 1) % m ≠ first) :
    ahead m first ((k + 1) % m) = ahead m first k + 1 := by
  rcases lt_or_ge k first with hlt | hle
  · have hsucc : (k + 1) % m = k + 1 := mod_eq_of_lt (by omega)
    rw [ahead_of_lt hlt hfirst, ahead_of_lt (by omega) hfirst]
    omega
  · rw [ahead_of_le hle hk]
    rcases succ_mod_cases hk with ⟨hzero, hm⟩ | ⟨hsucc, hm⟩
    · rw [hzero] at hne ⊢
      rw [ahead_of_lt (by omega) hfirst]
      omega
    · rw [hsucc, ahead_of_le (by omega) hm]
      omega

theorem ahead_sub (hfirst : first < m) (hj : j < m) (hk : k < m)
    (hle : ahead m first j ≤ ahead m first k) :
    ahead m j k = ahead m first k - ahead m first j := by
  rcases lt_or_ge j first with hj' | hj'
  · grind [ahead_of_lt, ahead_of_le]
  · grind [ahead_of_le, ahead_of_lt]

end

/-- The number in use after `k`, and the first one when there is none. -/
def nextKey (k : Nat) (keys : List Nat) : Option Nat := (keys.find? (k < ·)).or keys.head?

theorem exists_nextKey {m k : Nat} {keys : List Nat} (hm : k < m) (hlt : ∀ j ∈ keys, j < m)
    (hsorted : keys.Pairwise (· < ·)) (hne : keys ≠ []) (hk : k ∉ keys) :
    ∃ n ∈ keys, nextKey k keys = some n ∧ ∀ j ∈ keys, ahead m k n ≤ ahead m k j := by
  cases hfind : keys.find? (k < ·) with
  | some n => grind [nextKey, find?_eq_some_iff_of_pairwise, ahead_of_le, ahead_of_lt]
  | none =>
    obtain ⟨n, rest, rfl⟩ := exists_cons_of_ne_nil hne
    have hbelow : ∀ j ∈ n :: rest, j < k := fun j hj => by
      have hnot : ¬ k < j := by simpa using List.find?_eq_none.1 hfind j hj
      have hjk : j ≠ k := fun h => hk (h ▸ hj)
      omega
    refine ⟨n, (.head _), by rw [nextKey, hfind]; rfl, fun j hj => ?_⟩
    rw [ahead_of_lt (hbelow n (.head _)) hm, ahead_of_lt (hbelow j hj) hm]
    rcases mem_cons.1 hj with rfl | hj
    · exact le_refl _
    · have := (pairwise_cons.1 hsorted).1 j hj
      omega

/-- The numbers in use lie between the start and the end of the window. -/
structure Arc (m first last : Nat) (keys : List Nat) : Prop where
  last_lt : last < m
  first_mem : first ∈ keys
  lt : ∀ k ∈ keys, k < m
  le : ∀ k ∈ keys, ahead m first k ≤ ahead m first last

namespace Arc

variable {m first last : Nat} {keys keys' : List Nat}

theorem singleton {k : Nat} (hk : k < m) : Arc m k k [k] :=
  ⟨hk, mem_singleton.2 rfl, fun _ hj => mem_singleton.1 hj ▸ hk,
    fun _ hj => mem_singleton.1 hj ▸ le_refl _⟩

variable (h : Arc m first last keys)
include h

theorem first_lt : first < m := h.lt first h.first_mem

theorem succ_notMem (hne : (last + 1) % m ≠ first) : (last + 1) % m ∉ keys := by
  intro hmem
  have hle := h.le _ hmem
  rw [ahead_succ h.first_lt h.last_lt hne] at hle
  omega

theorem congr (hmem : ∀ k, k ∈ keys' ↔ k ∈ keys) : Arc m first last keys' :=
  ⟨h.last_lt, (hmem first).2 h.first_mem, fun k hk => h.lt k ((hmem k).1 hk),
    fun k hk => h.le k ((hmem k).1 hk)⟩

theorem extend (hne : (last + 1) % m ≠ first) : Arc m first ((last + 1) % m) keys := by
  have hlt : (last + 1) % m < m := mod_lt _ (lt_of_le_of_lt (zero_le _) h.last_lt)
  refine ⟨hlt, h.first_mem, h.lt, fun k hk => ?_⟩
  rw [ahead_succ h.first_lt h.last_lt hne]
  exact le_succ_of_le (h.le k hk)

theorem cons_last : Arc m first last (last :: keys) :=
  ⟨h.last_lt, .tail _ h.first_mem,
    fun _ hk => (mem_cons.1 hk).elim (fun heq => heq ▸ h.last_lt) (h.lt _),
    fun _ hk => (mem_cons.1 hk).elim (fun heq => heq ▸ le_refl _) (h.le _)⟩

theorem filter {k : Nat} (hk : k ≠ first) : Arc m first last (keys.filter (· != k)) :=
  ⟨h.last_lt, mem_filter.2 ⟨h.first_mem, by simpa using Ne.symm hk⟩,
    fun j hj => h.lt j (mem_filter.1 hj).1, fun j hj => h.le j (mem_filter.1 hj).1⟩

theorem advance (hsorted : keys.Pairwise (· < ·)) (hne : keys.filter (· != first) ≠ []) :
    ∃ n, nextKey first (keys.filter (· != first)) = some n ∧
      Arc m n last (keys.filter (· != first)) := by
  have hmem : ∀ j ∈ keys.filter (· != first), j ∈ keys := fun j hj => (mem_filter.1 hj).1
  obtain ⟨n, hn, hnext, hleast⟩ := exists_nextKey h.first_lt (fun j hj => h.lt j (hmem j hj))
    (hsorted.sublist filter_sublist) hne (by simp)
  have hnm := h.lt n (hmem n hn)
  refine ⟨n, hnext, h.last_lt, hn, fun j hj => h.lt j (hmem j hj), fun j hj => ?_⟩
  have hle := h.le j (hmem j hj)
  rw [ahead_sub h.first_lt hnm (h.lt j (hmem j hj)) (hleast j hj),
    ahead_sub h.first_lt hnm h.last_lt (h.le n (hmem n hn))]
  omega

end Arc

end NdnMulticast.Lib
