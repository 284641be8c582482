/-
  Values that are written one after another to a stream, which arrives in pieces.
-/

import Mathlib.Data.List.Basic

namespace NdnMulticast.Lib

open List

variable {α β : Type _}

/-- How values are written, and how the one at the front of a buffer is read. -/
structure Framing (α β : Type _) where
  read : List α → Option β
  write : β → List α

namespace Framing

variable (F : Framing α β)

/-- The value is read from its encoding, whatever follows, and from no part of it. -/
structure Sound (b : β) : Prop where
  ne_nil : F.write b ≠ []
  read_append : ∀ rest, F.read (F.write b ++ rest) = some b
  read_part : ∀ part rest, part ++ rest = F.write b → rest ≠ [] → F.read part = none

/-- Reads values from an offset on: the values, the offset behind them, whether that is the end. -/
def readAll (buf : List α) : Nat → Nat → List β × Nat × Bool
  | 0, offset => ([], offset, true)
  | fuel + 1, offset =>
    if offset < buf.length then
      match F.read (buf.drop offset) with
      | none => ([], offset, false)
      | some b =>
        let (bs, offset, isOk) := readAll buf fuel (offset + (F.write b).length)
        (b :: bs, offset, isOk)
    else ([], offset, true)

/-- Of the values to be read, `left` has been received and `rest` not; `left` is less than one. -/
structure Pending (todo : List β) (left rest : List α) : Prop where
  stream : left ++ rest = todo.flatMap F.write
  short : ∀ b, todo.head? = some b → left.length < (F.write b).length

variable {F} {todo : List β} {buf left rest : List α} {offset fuel : Nat}

theorem Pending.length_lt (h : F.Pending todo left rest) {limit : Nat} (hlimit : 0 < limit)
    (htodo : ∀ b ∈ todo, (F.write b).length ≤ limit) : left.length < limit := by
  cases todo with
  | nil =>
    have hnil : left = [] := append_eq_nil_iff.1 h.stream |>.1
    rw [hnil]
    exact hlimit
  | cons b todo =>
    have hshort := h.short b rfl
    have hle := htodo b (.head _)
    omega

theorem Pending.eq_nil (h : F.Pending todo left []) : todo = [] ∧ left = [] := by
  have hstream := h.stream
  cases todo with
  | nil =>
    rw [append_nil] at hstream
    exact ⟨rfl, hstream⟩
  | cons b todo =>
    have hshort := h.short b rfl
    rw [append_nil, flatMap_cons] at hstream
    rw [hstream, length_append] at hshort
    omega

theorem pending_nil (hsound : ∀ b ∈ todo, F.Sound b) (hstream : rest = todo.flatMap F.write) :
    F.Pending todo [] rest := by
  refine ⟨hstream, fun b hb => ?_⟩
  exact length_pos_iff.2 (hsound b (mem_of_mem_head? hb)).ne_nil

/-- **Reading.**  The values whose encodings are complete are read. -/
theorem readAll_pending (hsound : ∀ b ∈ todo, F.Sound b) (hle : offset ≤ buf.length)
    (hfuel : buf.length ≤ offset + fuel)
    (hstream : buf.drop offset ++ rest = todo.flatMap F.write) :
    ∃ done todo' offset' isOk, F.readAll buf fuel offset = (done, offset', isOk) ∧
      todo = done ++ todo' ∧ offset' ≤ buf.length ∧ F.Pending todo' (buf.drop offset') rest := by
  induction fuel generalizing offset todo with
  | zero =>
    have hdrop : buf.drop offset = [] := drop_eq_nil_of_le hfuel
    refine ⟨[], todo, offset, true, rfl, rfl, hle, ?_⟩
    rw [hdrop] at hstream ⊢
    exact pending_nil hsound hstream
  | succ fuel ih =>
    rw [readAll]
    by_cases hlt : offset < buf.length
    · rw [if_pos hlt]
      cases todo with
      | nil =>
        have hnil : buf.drop offset = [] := (append_eq_nil_iff.1 hstream).1
        have hlen := congrArg List.length hnil
        rw [length_drop, length_nil] at hlen
        omega
      | cons b todo =>
        have hb := hsound b (.head _)
        have hpos := length_pos_iff.2 hb.ne_nil
        have hfront : F.write b <+: buf.drop offset ++ rest := ⟨todo.flatMap F.write, hstream.symm⟩
        have hbuf : buf.drop offset <+: buf.drop offset ++ rest := prefix_append _ _
        rcases Nat.lt_or_ge (buf.drop offset).length (F.write b).length with hshort | hlong
        · -- the value is not complete
          obtain ⟨more, hmore⟩ := prefix_of_prefix_length_le hbuf hfront (Nat.le_of_lt hshort)
          have hne : more ≠ [] := by
            rintro rfl
            rw [← hmore, append_nil] at hshort
            exact Nat.lt_irrefl _ hshort
          rw [hb.read_part _ more hmore hne]
          refine ⟨[], b :: todo, offset, false, rfl, rfl, hle, ?_, fun b' hb' => ?_⟩
          · rw [flatMap_cons]
            exact hstream
          · obtain rfl := Option.some.inj hb'
            exact hshort
        · obtain ⟨more, hmore⟩ := prefix_of_prefix_length_le hfront hbuf hlong
          have hdrop : buf.drop (offset + (F.write b).length) = more := by
            rw [← drop_drop, ← hmore, drop_left]
          have hlen := congrArg List.length hmore
          rw [length_append, length_drop] at hlen
          have hnext : buf.drop (offset + (F.write b).length) ++ rest = todo.flatMap F.write := by
            rw [hdrop]
            rw [← hmore, append_assoc] at hstream
            exact append_cancel_left hstream
          obtain ⟨done, todo', offset', isOk, hread, htodo, hle', hpending⟩ :=
            ih (fun c hc => hsound c (mem_cons_of_mem b hc)) (by omega) (by omega) hnext
          refine ⟨b :: done, todo', offset', isOk, ?_, by rw [htodo]; rfl, hle', hpending⟩
          rw [← hmore, hb.read_append]
          dsimp only
          rw [hread]
    · rw [if_neg hlt]
      have hdrop : buf.drop offset = [] := drop_eq_nil_of_le (by omega)
      refine ⟨[], todo, offset, true, rfl, rfl, hle, ?_⟩
      rw [hdrop] at hstream ⊢
      exact pending_nil hsound hstream

end Framing

end NdnMulticast.Lib
