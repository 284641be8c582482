/-
  A list cut into blocks of one size, and a buffer the blocks are written back to.

  The buffer starts with unknown cells (`none`).  `slots` is the coarser view, with one cell
  for a whole block.
-/

import Mathlib.Data.Finset.Card

namespace NdnMulticast.Lib

open List Nat

variable {α : Type _}

/-- The `k`-th block of a list. -/
def block (size k : Nat) (xs : List α) : List α := (xs.drop (k * size)).take size

/-- How many blocks a list of length `n` has; the last one may be shorter. -/
def blockCount (size n : Nat) : Nat := n / size + if n % size ≠ 0 then 1 else 0

/-- Consecutive stores from a position on. -/
def writeAt (buf : List α) (position : Nat) : List α → List α
  | [] => buf
  | y :: ys => writeAt (buf.set position y) (position + 1) ys

/-! ## Blocks -/

theorem length_block (size k : Nat) (xs : List α) :
    (block size k xs).length = min size (xs.length - k * size) := by
  rw [block, length_take, length_drop]

variable {size position : Nat} {xs ys : List α} {buf : List (Option α)}

theorem getElem?_block {k i : Nat} (hi : i < size) (xs : List α) :
    (block size k xs)[i]? = xs[k * size + i]? := by
  rw [block, getElem?_take_of_lt hi, getElem?_drop]

section

variable {size n : Nat}

theorem blockCount_pos (hn : 0 < n) : 0 < blockCount size n := by
  unfold blockCount
  split
  · exact succ_pos _
  rename_i hmod
  have hdiv := div_add_mod n size
  have hpos : 0 < n / size := by
    rcases Nat.eq_zero_or_pos (n / size) with hzero | hpos
    · rw [hzero] at hdiv
      omega
    · exact hpos
  omega

theorem div_lt_blockCount {j : Nat} (hj : j < n) : j / size < blockCount size n := by
  have hle : j / size ≤ n / size := Nat.div_le_div_right (Nat.le_of_lt hj)
  unfold blockCount
  split
  · omega
  · -- the length is a multiple, so `j` is below the last block boundary
    have hdiv := div_add_mod n size
    have hlt : j < size * (n / size) := by omega
    have := Nat.div_lt_of_lt_mul hlt
    omega

theorem le_blockCount_mul (hsize : 0 < size) : n ≤ blockCount size n * size := by
  have hdiv := div_add_mod n size
  have hlt := mod_lt n hsize
  have hcomm : n / size * size = size * (n / size) := Nat.mul_comm _ _
  unfold blockCount
  split
  · rw [Nat.add_mul, Nat.one_mul]
    omega
  · rw [Nat.add_zero]
    omega

theorem pred_blockCount_mul_lt (hsize : 0 < size) (hn : 0 < n) :
    (blockCount size n - 1) * size < n := by
  have hdiv := div_add_mod n size
  have hcomm : n / size * size = size * (n / size) := Nat.mul_comm _ _
  have hpos : 0 < blockCount size n := blockCount_pos hn
  unfold blockCount at hpos ⊢
  split at hpos
  · rename_i hmod
    rw [if_pos hmod, Nat.add_sub_cancel]
    omega
  · rename_i hmod
    rw [if_neg hmod, Nat.add_zero, Nat.sub_mul, Nat.one_mul]
    omega

end

theorem pred_blockCount_mul_add_length (hsize : 0 < size) (hxs : xs ≠ []) :
    (blockCount size xs.length - 1) * size
      + (block size (blockCount size xs.length - 1) xs).length = xs.length := by
  have hpos : 0 < xs.length := length_pos_iff.2 hxs
  have hlt := pred_blockCount_mul_lt hsize hpos
  have hle := le_blockCount_mul (n := xs.length) hsize
  have hcount : 0 < blockCount size xs.length := blockCount_pos hpos
  have hsplit : blockCount size xs.length * size
      = (blockCount size xs.length - 1) * size + size := by
    conv_lhs => rw [← Nat.sub_add_cancel hcount]
    rw [Nat.add_mul, Nat.one_mul]
  rw [length_block]
  omega

/-! ## Pieces -/

/-- A list cut into pieces, the first of another size; `fuel` is the length of the list. -/
def cut (first size : Nat) : Nat → List α → List (List α)
  | 0, _ => []
  | fuel + 1, xs => if xs = [] then [] else xs.take first :: cut size size fuel (xs.drop first)

section

variable {first size fuel n : Nat} {xs : List α}

theorem cut_of_ne_nil (hxs : xs ≠ []) :
    cut first size (fuel + 1) xs = xs.take first :: cut size size fuel (xs.drop first) := by
  rw [cut, if_neg hxs]

theorem length_drop_le (hfirst : 0 < first) (hfuel : xs.length ≤ fuel + 1) :
    (xs.drop first).length ≤ fuel := by
  rw [length_drop]
  omega

theorem flatten_cut (hfirst : 0 < first) (hsize : 0 < size) (hfuel : xs.length ≤ fuel) :
    (cut first size fuel xs).flatten = xs := by
  induction fuel generalizing first xs with
  | zero => exact (eq_nil_of_length_eq_zero (le_zero.1 hfuel)).symm
  | succ fuel ih =>
    by_cases hxs : xs = []
    · rw [cut, if_pos hxs, hxs]
      rfl
    · rw [cut_of_ne_nil hxs, flatten_cons, ih hsize (length_drop_le hfirst hfuel), take_append_drop]

theorem blockCount_of_le (hpos : 0 < n) (hn : n ≤ size) : blockCount size n = 1 := by
  rcases lt_or_eq_of_le hn with hlt | rfl
  · rw [blockCount, div_eq_of_lt hlt, mod_eq_of_lt hlt, if_pos (by omega)]
  · rw [blockCount, Nat.div_self hpos, Nat.mod_self, if_neg (by omega)]

theorem blockCount_zero (size : Nat) : blockCount size 0 = 0 := by simp [blockCount]

theorem blockCount_add (hsize : 0 < size) (n : Nat) :
    blockCount size (n + size) = blockCount size n + 1 := by
  rw [blockCount, blockCount, add_div_right n hsize, add_mod_right]
  omega

theorem length_cut (hfirst : 0 < first) (hsize : 0 < size) (hxs : xs ≠ [])
    (hfuel : xs.length ≤ fuel) :
    (cut first size fuel xs).length = 1 + blockCount size (xs.length - first) := by
  induction fuel generalizing first xs with
  | zero => simp_all
  | succ fuel ih =>
    rw [cut_of_ne_nil hxs, length_cons]
    by_cases hrest : xs.drop first = []
    · have hle : xs.length - first = 0 := by
        have hlen := congrArg length hrest
        rw [length_drop] at hlen
        exact hlen
      rw [hrest, hle, blockCount_zero]
      cases fuel with
      | zero => rfl
      | succ fuel => rfl
    · rw [ih hsize hrest (length_drop_le hfirst hfuel), length_drop]
      have hpos : 0 < xs.length - first := by
        have hlen := length_pos_iff.2 hrest
        rwa [length_drop] at hlen
      rcases lt_or_ge size (xs.length - first) with hlt | hle
      · have hsplit : xs.length - first = xs.length - first - size + size := by omega
        rw [hsplit, blockCount_add hsize, Nat.add_sub_cancel]
        omega
      · rw [Nat.sub_eq_zero_of_le hle, blockCount_zero, blockCount_of_le hpos hle]

theorem length_le_of_mem_cut (hsize : 0 < size) (hfuel : xs.length ≤ fuel) {piece : List α}
    (h : piece ∈ cut size size fuel xs) : piece ≠ [] ∧ piece.length ≤ size := by
  induction fuel generalizing xs with
  | zero => cases h
  | succ fuel ih => grind [cut, cut_of_ne_nil, length_drop_le]

end

/-! ## Writing -/

@[simp] theorem length_writeAt (buf : List α) (position : Nat) (ys : List α) :
    (writeAt buf position ys).length = buf.length := by
  induction ys generalizing buf position with
  | nil => rfl
  | cons y ys ih => rw [writeAt, ih, length_set]

theorem getElem?_writeAt_of_outside {buf : List α} {j : Nat}
    (hj : j < position ∨ position + ys.length ≤ j) : (writeAt buf position ys)[j]? = buf[j]? := by
  induction ys generalizing buf position with
  | nil => rfl
  | cons y ys ih => grind [writeAt]

theorem writeAt_eq {buf : List α} (h : position + ys.length ≤ buf.length) :
    writeAt buf position ys = buf.take position ++ (ys ++ buf.drop (position + ys.length)) := by
  induction ys generalizing buf position with
  | nil => simp [writeAt]
  | cons y ys ih =>
    rw [length_cons] at h
    have hset : (buf.set position y).take (position + 1) = buf.take position ++ [y] := by
      rw [take_add_one, take_set_of_le le_rfl]
      grind
    rw [writeAt, ih (by rw [length_set]; omega), hset, drop_set_of_lt (by omega), length_cons]
    simp [Nat.add_assoc, Nat.add_comm 1]

theorem getElem?_writeAt_of_inside {buf : List α} {i : Nat}
    (hroom : position + ys.length ≤ buf.length) (hi : i < ys.length) :
    (writeAt buf position ys)[position + i]? = ys[i]? := by
  have hlen : (buf.take position).length = position := length_take_of_le (by omega)
  rw [writeAt_eq hroom, getElem?_append_right (by omega), hlen, Nat.add_sub_cancel_left,
    getElem?_append_left hi]

/-- Cell `j` of the buffer has the value of element `j`. -/
def Holds (buf : List (Option α)) (xs : List α) (j : Nat) : Prop := buf[j]? = some xs[j]?

theorem holds_writeAt_block {k : Nat} (hroom : k * size + (block size k xs).length ≤ buf.length)
    {j : Nat} (hj : Holds buf xs j ∨ (k * size ≤ j ∧ j < k * size + (block size k xs).length)) :
    Holds (writeAt buf (k * size) ((block size k xs).map some)) xs j := by
  by_cases hin : k * size ≤ j ∧ j < k * size + (block size k xs).length
  · -- the cell is one of those written
    obtain ⟨i, rfl⟩ := Nat.exists_eq_add_of_le hin.1
    have hi : i < (block size k xs).length := by omega
    have hsize : i < size := by
      rw [length_block] at hi
      omega
    rw [Holds, getElem?_writeAt_of_inside (by simpa using hroom) (by simpa using hi),
      getElem?_map, ← getElem?_block hsize]
    cases hget : (block size k xs)[i]? with
    | none => exact absurd (getElem?_eq_none_iff.1 hget) (by omega)
    | some x => rfl
  · grind [Holds, getElem?_writeAt_of_outside]

theorem take_eq_of_holds (h : ∀ j < xs.length, Holds buf xs j) :
    buf.take xs.length = xs.map some := by
  apply ext_getElem?
  intro j
  by_cases hj : j < xs.length
  · rw [getElem?_take_of_lt hj, h j hj, getElem?_map, getElem?_eq_getElem hj]
    rfl
  · simp_all

/-! ## Slots -/

/-- `n` cells, of which those in `got` are filled. -/
def slots (n : Nat) (got : Finset Nat) (value : Nat → α) (vacant : α) : List α :=
  (List.range n).map fun i => if i ∈ got then value i else vacant

section

variable {n i : Nat} {got : Finset Nat} {value : Nat → α} {vacant : α}

@[simp] theorem length_slots : (slots n got value vacant).length = n := by simp [slots]

theorem getElem?_slots (hi : i < n) :
    (slots n got value vacant)[i]? = some (if i ∈ got then value i else vacant) := by
  rw [slots, getElem?_map, getElem?_range hi]
  rfl

theorem slots_empty : slots n ∅ value vacant = replicate n vacant := by
  simp [slots, map_const']

theorem set_slots : (slots n got value vacant).set i (value i) =
    slots n (insert i got) value vacant := by
  apply ext_getElem?
  intro j
  rcases lt_or_ge j n with hj | hj
  · grind [getElem?_slots, length_slots]
  · simp_all

theorem slots_range : slots n (Finset.range n) value vacant = (range n).map value := by
  refine map_congr_left fun i hi => ?_
  rw [if_pos (Finset.mem_range.2 (mem_range.1 hi))]

end

end NdnMulticast.Lib
