/-
  A search that cuts a sequence in two, the longest first part first, and the
  language of the sequences it succeeds on.
-/

import Mathlib.Algebra.Order.Monoid.Unbundled.Pow
import Mathlib.Computability.Language
import Mathlib.Data.List.MinMax
import Mathlib.Order.CompletePartialOrder
import Mathlib.Order.Nat

namespace NdnMulticast.Lib

variable {α : Type}

/-- The cuts of a sequence, by the length of the first part, in the order they are tried. -/
def cuts (s : List α) : List Nat := (List.range (s.length + 1)).reverse

def anyCut (p q : List α → Bool) (s : List α) : Bool :=
  (cuts s).any fun t => p (s.take t) && q (s.drop t)

variable {s : List α} {p q : List α → Bool} {L M : Language α} {k : Nat} {ok : Nat → Bool}
  {ts : List Nat}

theorem mem_cuts {t : Nat} : t ∈ cuts s ↔ t ≤ s.length := by
  rw [cuts, List.mem_reverse, List.mem_range, Nat.lt_succ_iff]

theorem anyCut_iff : anyCut p q s = true ↔ ∃ a b, a ++ b = s ∧ p a = true ∧ q b = true := by
  simp only [anyCut, List.any_eq_true, Bool.and_eq_true, mem_cuts]
  constructor
  · rintro ⟨t, -, hp, hq⟩
    exact ⟨_, _, List.take_append_drop t s, hp, hq⟩
  · rintro ⟨a, b, rfl, hp, hq⟩
    refine ⟨a.length, by simp, ?_⟩
    rw [List.take_left, List.drop_left]
    exact ⟨hp, hq⟩

theorem anyCut_iff_mem_mul (hp : ∀ a, p a = true ↔ a ∈ L) (hq : ∀ b, q b = true ↔ b ∈ M) :
    anyCut p q s = true ↔ s ∈ L * M := by
  rw [anyCut_iff, Language.mem_mul]
  simp only [hp, hq]
  exact ⟨fun ⟨a, b, hs, ha, hb⟩ => ⟨a, ha, b, hb, hs⟩, fun ⟨a, ha, b, hb, hs⟩ => ⟨a, b, hs, ha, hb⟩⟩

/-! ## Powers of a language -/

theorem nil_mem_pow (h : [] ∈ L) (k : Nat) : [] ∈ L ^ k := by
  refine Language.mem_pow.2 ⟨List.replicate k [], by simp, by simp, ?_⟩
  intro y hy
  rwa [List.eq_of_mem_replicate hy]

theorem nil_mem_of_pow (hk : k ≠ 0) (h : [] ∈ L ^ k) : [] ∈ L := by
  obtain ⟨pieces, hnil, rfl, hpieces⟩ := Language.mem_pow.1 h
  obtain ⟨piece, hmem⟩ := List.exists_mem_of_length_pos (Nat.pos_of_ne_zero hk)
  have hempty : piece = [] := List.flatten_eq_nil_iff.1 hnil.symm piece hmem
  exact hempty ▸ hpieces piece hmem

theorem mem_pow_succ_iff : s ∈ L ^ (k + 1) ↔ ∃ a b, a ++ b = s ∧ a ∈ L ∧ b ∈ L ^ k := by
  rw [pow_succ', Language.mem_mul]
  exact ⟨fun ⟨a, ha, b, hb, hs⟩ => ⟨a, b, hs, ha, hb⟩, fun ⟨a, b, hs, ha, hb⟩ => ⟨a, ha, b, hb, hs⟩⟩

/-- Pieces that are not empty: there are not more of them than elements. -/
theorem exists_mem_pow_of_mem_kstar (h : s ∈ KStar.kstar L) : ∃ k ≤ s.length, s ∈ L ^ k := by
  obtain ⟨pieces, rfl, hpieces⟩ := Language.mem_kstar_iff_exists_nonempty.1 h
  refine ⟨pieces.length, ?_, Language.mem_pow.2 ⟨pieces, rfl, rfl, fun y hy => (hpieces y hy).1⟩⟩
  clear h
  induction pieces with
  | nil => simp
  | cons p pieces ih =>
    have hp := List.length_pos_of_ne_nil (hpieces p (.head _)).2
    have hrest := ih fun y hy => hpieces y (List.mem_cons_of_mem p hy)
    rw [List.flatten_cons, List.length_append, List.length_cons]
    omega

theorem exists_first_of_mem_kstar (h : s ∈ KStar.kstar L) (hs : s ≠ []) :
    ∃ a b, a ++ b = s ∧ a ≠ [] ∧ a ∈ L ∧ b ∈ KStar.kstar L := by
  obtain ⟨pieces, rfl, hpieces⟩ := Language.mem_kstar_iff_exists_nonempty.1 h
  cases pieces with
  | nil => exact absurd rfl hs
  | cons p pieces =>
    have hp := hpieces p (.head _)
    exact ⟨p, pieces.flatten, rfl, hp.2, hp.1, pieces, rfl,
      fun y hy => (hpieces y (List.mem_cons_of_mem p hy)).1⟩

/-! ## What a search looks at -/

/-- The candidates up to the first one that succeeds. -/
def visited (ok : Nat → Bool) : List Nat → List Nat
  | [] => []
  | t :: ts => if ok t then [t] else t :: visited ok ts

theorem visited_eq_self (h : ∀ t ∈ ts, ok t = false) : visited ok ts = ts := by
  induction ts with
  | nil => rfl
  | cons t ts ih =>
    rw [List.forall_mem_cons] at h
    rw [visited, h.1, ih h.2]
    rfl

theorem of_mem_visited (hsorted : ts.Pairwise (· > ·)) {t : Nat} (h : t ∈ visited ok ts) :
    t ∈ ts ∧ ∀ u ∈ ts, t < u → ok u = false := by
  induction ts with
  | nil => cases h
  | cons v ts ih =>
    rw [List.pairwise_cons] at hsorted
    grind [visited]

theorem pairwise_cuts (s : List α) : (cuts s).Pairwise (· > ·) :=
  List.pairwise_reverse.2 List.pairwise_lt_range

end NdnMulticast.Lib
