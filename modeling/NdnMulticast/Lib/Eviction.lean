/-
  Bounded collections that make room by letting elements go, and queues that are kept in the
  order in which they do.
-/

import Mathlib.Data.List.Infix
import Mathlib.Data.List.Pairwise

namespace NdnMulticast.Lib

open List Function

/-! ## Removals down to a limit -/

section

variable {α : Type _} {limit : Nat} {before : α → α → Prop}

/-- Elements are removed while there are more than `limit`, each the first that is left. -/
inductive Evicts (limit : Nat) (before : α → α → Prop) : List α → List α → Prop
  | fits {l : List α} : l.length ≤ limit → Evicts limit before l l
  | evict {l₁ l₂ l' : List α} {x : α} :
      limit < (l₁ ++ x :: l₂).length → (∀ y ∈ l₁ ++ l₂, before x y) →
      Evicts limit before (l₁ ++ l₂) l' → Evicts limit before (l₁ ++ x :: l₂) l'

theorem Evicts.length_le {l l' : List α} (h : Evicts limit before l l') : l'.length ≤ limit := by
  induction h with
  | fits hle => exact hle
  | evict _ _ _ ih => exact ih

end

/-! ## Queues in the order of stamps -/

section

variable {ι : Type _} {stamp : ι → Nat} {now : Nat} {queue : List ι}

/-- The queue goes from the least to the greatest stamp, and all stamps were given before `now`. -/
structure Stamped (stamp : ι → Nat) (now : Nat) (queue : List ι) : Prop where
  inOrder : queue.Pairwise (stamp · < stamp ·)
  past : ∀ x ∈ queue, stamp x < now

namespace Stamped

section

variable (h : Stamped stamp now queue)
include h

theorem sublist {q : List ι} (hq : q.Sublist queue) : Stamped stamp now q :=
  ⟨h.inOrder.sublist hq, fun x hx => h.past x (hq.subset hx)⟩

theorem later : Stamped stamp (now + 1) queue :=
  ⟨h.inOrder, fun x hx => Nat.lt_succ_of_lt (h.past x hx)⟩

theorem congr {stamp' : ι → Nat} (heq : ∀ x ∈ queue, stamp' x = stamp x) :
    Stamped stamp' now queue := by
  refine ⟨h.inOrder.imp_of_mem fun {a b} ha hb hlt => ?_, fun x hx => ?_⟩
  · rw [heq a ha, heq b hb]
    exact hlt
  · rw [heq x hx]
    exact h.past x hx

end

variable [DecidableEq ι] (h : Stamped stamp now queue)
include h

theorem update_of_notMem {x : ι} (hx : x ∉ queue) : Stamped (update stamp x now) now queue := by
  refine h.congr fun y hy => ?_
  have hne : y ≠ x := fun heq => hx (heq ▸ hy)
  exact update_of_ne hne now stamp

theorem pushBack {x : ι} (hx : x ∉ queue) :
    Stamped (update stamp x now) (now + 1) (queue ++ [x]) := by
  have hqueue := h.update_of_notMem hx
  refine ⟨pairwise_append.2 ⟨hqueue.inOrder, pairwise_singleton _ _, ?_⟩, ?_⟩
  · intro y hy z hz
    obtain rfl := mem_singleton.1 hz
    rw [update_self]
    exact hqueue.past y hy
  · intro y hy
    rcases mem_append.1 hy with hy | hy
    · exact Nat.lt_succ_of_lt (hqueue.past y hy)
    · simp_all

theorem moveToBack (x : ι) :
    Stamped (update stamp x now) (now + 1) (queue.filter (· != x) ++ [x]) :=
  (h.sublist filter_sublist).pushBack (by simp)

end Stamped

end

/-! ## Queues that forget -/

variable {α : Type _} {least : Nat} {history queue : List α}

/-- The queue is the end of the history, and all of it unless it holds `least` elements. -/
structure Window (least : Nat) (history queue : List α) : Prop where
  suffix : queue <:+ history
  full : least ≤ queue.length ∨ queue = history

namespace Window

theorem refl (least : Nat) (history : List α) : Window least history history :=
  ⟨suffix_rfl, Or.inr rfl⟩

theorem push (h : Window least history queue) (x : α) :
    Window least (history ++ [x]) (queue ++ [x]) := by
  refine ⟨?_, ?_⟩
  · obtain ⟨gone, hgone⟩ := h.suffix
    exact ⟨gone, by rw [← hgone, append_assoc]⟩
  · rcases h.full with hfull | hall
    · left
      rw [length_append]
      omega
    · right
      rw [hall]

theorem drop (h : Window least history queue) {n : Nat}
    (hleft : 0 < n → least ≤ (queue.drop n).length) : Window least history (queue.drop n) := by
  rcases Nat.eq_zero_or_pos n with rfl | hpos
  · exact h
  · exact ⟨(drop_suffix n queue).trans h.suffix, Or.inl (hleft hpos)⟩

theorem mem {before after : List α} {x : α} (h : Window least (before ++ x :: after) queue)
    (hafter : after.length < least) : x ∈ queue := by
  rcases h.full with hfull | hall
  · have hlen : (x :: after).length ≤ queue.length := by
      rw [length_cons]
      omega
    have hend : (x :: after) <:+ queue :=
      suffix_of_suffix_length_le (suffix_append before _) h.suffix hlen
    exact hend.subset (.head _)
  · rw [hall]
    simp

end Window

end NdnMulticast.Lib
