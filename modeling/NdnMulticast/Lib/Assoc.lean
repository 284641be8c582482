/-
  Association lists with unique keys: objects stored under their identities, and writes to
  cells, carried out later.
-/

import Mathlib.Data.List.Nodup

namespace NdnMulticast.Lib

open List

/-! ## Pending writes -/

section

open Function

variable {ω α β σ ι : Type _}

section

variable [DecidableEq α] {key : ω → α} {value : ω → β} {w x : ω} {ws : List ω}

def overwrite (key : ω → α) (w : ω) : List ω → List ω
  | [] => [w]
  | x :: xs => if key x = key w then w :: xs else x :: overwrite key w xs

def commit (key : ω → α) (value : ω → β) (ws : List ω) (m : α → β) : α → β :=
  ws.foldl (fun m w => Function.update m (key w) (value w)) m

theorem mem_overwrite (h : x ∈ overwrite key w ws) : x = w ∨ x ∈ ws := by
  induction ws with
  | nil => exact Or.inl (mem_singleton.1 h)
  | cons y ws ih => grind [overwrite]

theorem nodup_overwrite (h : (ws.map key).Nodup) : ((overwrite key w ws).map key).Nodup := by
  induction ws with
  | nil => exact nodup_singleton _
  | cons y ws ih => grind [overwrite, mem_overwrite]

theorem commit_update {a : α} (h : a ∉ ws.map key) (b : β) (m : α → β) :
    commit key value ws (update m a b) = update (commit key value ws m) a b := by
  induction ws generalizing m with
  | nil => rfl
  | cons x ws ih =>
    rw [map_cons, mem_cons, not_or] at h
    show commit key value ws (update (update m a b) (key x) (value x)) = _
    rw [update_comm h.1, ih h.2]
    rfl

/-- A write that is collected counts as if it were carried out last. -/
theorem commit_overwrite (h : (ws.map key).Nodup) (m : α → β) :
    commit key value (overwrite key w ws) m = update (commit key value ws m) (key w) (value w) := by
  induction ws generalizing m with
  | nil => rfl
  | cons x ws ih =>
    rw [map_cons, nodup_cons] at h
    rw [overwrite]
    split
    · rename_i heq
      show commit key value ws (update m (key w) (value w)) =
        update (commit key value ws (update m (key x) (value x))) _ _
      rw [heq] at h
      rw [← commit_update h.1, heq, update_idem]
    · exact ih h.2 _

end

/-! ## One cell of a loop -/

section

variable (cell : σ → α) (step : σ → ι → σ) (p : ι → Bool) {l : List ι}

/-- At most one step is for the cell. -/
theorem foldl_cell_find? (act : ι → α → α)
    (hon : ∀ s i, p i = true → cell (step s i) = act i (cell s))
    (hoff : ∀ s i, p i = false → cell (step s i) = cell s)
    (hl : l.Pairwise fun i j => ¬ (p i = true ∧ p j = true)) (s : σ) :
    cell (l.foldl step s) = ((l.find? p).map fun i => act i (cell s)).getD (cell s) := by
  induction l generalizing s with
  | nil => rfl
  | cons i l ih =>
    rw [pairwise_cons] at hl
    rw [foldl_cons, ih hl.2]
    cases hi : p i with
    | true =>
      have hnone : l.find? p = none := by
        rw [List.find?_eq_none]
        exact fun j hj hpj => hl.1 j hj ⟨hi, hpj⟩
      rw [hnone, List.find?_cons_of_pos hi]
      exact hon s i hi
    | false => rw [hoff s i hi, List.find?_cons_of_neg (by rw [hi]; decide)]

/-- All the steps for the cell do the same, and doing it once is enough. -/
theorem foldl_cell_idem (act : α → α) (hidem : ∀ a, act (act a) = act a)
    (hon : ∀ i ∈ l, p i = true → ∀ s, cell (step s i) = act (cell s))
    (hoff : ∀ s i, p i = false → cell (step s i) = cell s) (s : σ) :
    cell (l.foldl step s) = if l.any p then act (cell s) else cell s := by
  induction l generalizing s with
  | nil => rfl
  | cons i l ih =>
    rw [forall_mem_cons] at hon
    rw [foldl_cons, ih hon.2, any_cons]
    cases hi : p i with
    | true =>
      rw [hon.1 hi, Bool.true_or, if_pos rfl, hidem, ite_self]
    | false => rw [hoff s i hi, Bool.false_or]

end

end

/-! ## Association lists -/

variable {κ α : Type _} [BEq κ] [LawfulBEq κ] {l : List (κ × α)} {k : κ} {ρ φ : Type _}

theorem lookup_eq_some_iff_mem (hl : (l.map Prod.fst).Nodup) {a : α} :
    l.lookup k = some a ↔ (k, a) ∈ l := by
  induction l with
  | nil => simp
  | cons x l ih => grind

theorem lookup_mapValues (f : κ → α → α) (l : List (κ × α)) (k : κ) :
    (l.map fun x => (x.1, f x.1 x.2)).lookup k = (l.lookup k).map (f k) := by
  induction l with
  | nil => rfl
  | cons x l ih => grind

theorem lookup_append_new (hk : k ∉ l.map Prod.fst) (a : α) (j : κ) :
    (l ++ [(k, a)]).lookup j = if j == k then some a else l.lookup j := by
  induction l with
  | nil => by_cases hjk : j = k <;> simp [hjk]
  | cons x l ih => grind

theorem lookup_filter_ne (l : List (κ × α)) (k j : κ) :
    (l.filter (·.1 != k)).lookup j = if j == k then none else l.lookup j := by
  induction l with
  | nil => simp
  | cons x l ih =>
    obtain ⟨k', a'⟩ := x
    by_cases hk : k' = k
    · grind
    · rw [filter_cons_of_pos (by simpa using hk), lookup_cons, lookup_cons, ih]
      by_cases hj : j = k'
      · simp_all
      · grind

theorem perm_cons_filter_ne (hl : (l.map Prod.fst).Nodup) {a : α} (h : (k, a) ∈ l) :
    l.Perm ((k, a) :: l.filter (·.1 != k)) := by
  induction l with
  | nil => cases h
  | cons x l ih =>
    rw [map_cons, nodup_cons] at hl
    rcases mem_cons.1 h with rfl | h
    · have hrest : l.filter (·.1 != k) = l := by
        apply filter_eq_self.2
        intro y hy
        simpa using fun heq : y.1 = k => hl.1 (heq ▸ mem_map.2 ⟨y, hy, rfl⟩)
      rw [filter_cons_of_neg (by simp), hrest]
    · have hne : x.1 ≠ k := fun heq => hl.1 (heq ▸ mem_map.2 ⟨_, h, rfl⟩)
      rw [filter_cons_of_pos (by simpa using hne)]
      exact ((ih hl.2 h).cons x).trans (Perm.swap _ _ _)

/-- Where a record comes from when those with a key are replaced, or a new one is added. -/
theorem mem_upsert [DecidableEq φ] {key : ρ → φ} {k : φ} {f : ρ → ρ} {new r : ρ} {l : List ρ}
    (hr : r ∈ if k ∈ l.map key then l.map (fun r => if key r = k then f r else r) else new :: l) :
    (r ∈ l ∧ key r ≠ k) ∨ (∃ r' ∈ l, key r' = k ∧ r = f r') ∨ r = new := by
  split at hr
  · grind
  · grind

theorem filter_keys_middle [BEq φ] [LawfulBEq φ] {key : ρ → φ} {l₁ l l₂ : List ρ}
    (h : ((l₁ ++ l ++ l₂).map key).Nodup) :
    (l₁ ++ l ++ l₂).filter (fun r => !(l.map key).contains (key r)) = l₁ ++ l₂ := by
  rw [append_assoc, map_append, map_append, nodup_append'] at h
  obtain ⟨-, hright, hleft⟩ := h
  have hkept : ∀ r ∈ l₁ ++ l₂, (!(l.map key).contains (key r)) = true := by
    intro r hr
    rw [Bool.not_eq_true', ← Bool.not_eq_true, contains_iff_mem]
    intro hmem
    rcases mem_append.1 hr with hr | hr
    · exact hleft (mem_map_of_mem hr) (mem_append_left _ hmem)
    · grind
  have hgone : l.filter (fun r => !(l.map key).contains (key r)) = [] := by
    refine filter_eq_nil_iff.2 fun r hr => ?_
    have hmem : key r ∈ l.map key := mem_map_of_mem hr
    simpa using mem_map.1 hmem
  rw [filter_append, filter_append, hgone, append_nil, ← filter_append]
  exact filter_eq_self.2 hkept

theorem exists_split_of_key [BEq φ] [LawfulBEq φ] {key : ρ → φ} {k : φ} {l : List ρ}
    (hl : (l.map key).Nodup) (hk : k ∈ l.map key) :
    ∃ l₁ x l₂, l = l₁ ++ x :: l₂ ∧ key x = k ∧ l.filter (key · != k) = l₁ ++ l₂ := by
  obtain ⟨x, hx, rfl⟩ := mem_map.1 hk
  obtain ⟨l₁, l₂, rfl⟩ := append_of_mem hx
  rw [← singleton_append, ← append_assoc] at hl
  have hfilter := filter_keys_middle hl
  refine ⟨l₁, x, l₂, rfl, rfl, ?_⟩
  rw [← hfilter, append_assoc, singleton_append]
  refine filter_congr fun y _ => ?_
  rw [map_singleton, contains_cons, contains_nil, Bool.or_false]
  rfl

/-- Removing an element by moving the last one into its place. -/
theorem perm_swapRemove {l : List α} {i : Nat} {x last : α} (hx : l[i]? = some x)
    (hlast : l.getLast? = some last) : l.Perm (x :: (l.set i last).dropLast) := by
  obtain ⟨hi, hget⟩ := List.getElem?_eq_some_iff.1 hx
  have hsplit : l = l.take i ++ x :: l.drop (i + 1) := by
    rw [← hget, getElem_cons_drop, take_append_drop]
  have hset : l.set i last = l.take i ++ last :: l.drop (i + 1) := set_eq_take_cons_drop _ hi
  rw [hset]
  rcases eq_nil_or_concat (l.drop (i + 1)) with hdrop | ⟨mid, z, hdrop⟩
  · -- it is the last one itself
    rw [hdrop] at hsplit ⊢
    rw [dropLast_concat]
    conv_lhs => rw [hsplit]
    exact perm_append_singleton _ _
  · rw [hdrop, concat_eq_append] at hsplit ⊢
    obtain rfl : z = last := by
      rw [hsplit, ← cons_append, ← append_assoc, getLast?_concat] at hlast
      exact Option.some.inj hlast
    rw [← cons_append, ← append_assoc, dropLast_concat]
    conv_lhs => rw [hsplit]
    refine perm_middle.trans (Perm.cons x ?_)
    rw [← append_assoc]
    exact (perm_append_singleton _ _).trans perm_middle.symm

/-! ## Objects under addresses -/

structure Heap (α : Type) where
  cells : List (Nat × α)
  /-- The address of the next object. -/
  next : Nat
  addrs_nodup : (cells.map Prod.fst).Nodup
  addr_lt : ∀ x ∈ cells, x.1 < next

namespace Heap

variable {α : Type}

def empty : Heap α := ⟨[], 0, List.nodup_nil, by simp⟩

def get (h : Heap α) (a : Nat) : Option α := h.cells.lookup a

theorem next_notMem (h : Heap α) : h.next ∉ h.cells.map Prod.fst := by
  intro hmem
  obtain ⟨x, hx, haddr⟩ := mem_map.1 hmem
  exact absurd (haddr ▸ h.addr_lt x hx) (Nat.lt_irrefl _)

/-- A new object, at the address `next`. -/
def alloc (h : Heap α) (x : α) : Heap α where
  cells := h.cells ++ [(h.next, x)]
  next := h.next + 1
  addrs_nodup := by
    rw [List.map_append]
    refine List.Nodup.append h.addrs_nodup (List.nodup_singleton _) ?_
    intro a ha hnew
    obtain rfl : a = h.next := by simpa using hnew
    exact h.next_notMem ha
  addr_lt := by
    intro y hy
    rcases List.mem_append.1 hy with hy | hy
    · exact Nat.lt_succ_of_lt (h.addr_lt y hy)
    · rw [List.mem_singleton.1 hy]
      exact Nat.lt_succ_self _

def modify (h : Heap α) (a : Nat) (f : α → α) : Heap α where
  cells := h.cells.map fun x => (x.1, if x.1 = a then f x.2 else x.2)
  next := h.next
  addrs_nodup := by simpa [List.map_map, Function.comp_def] using h.addrs_nodup
  addr_lt := by
    intro x hx
    obtain ⟨y, hy, rfl⟩ := List.mem_map.1 hx
    exact h.addr_lt y hy

def free (h : Heap α) (a : Nat) : Heap α where
  cells := h.cells.filter (·.1 != a)
  next := h.next
  addrs_nodup := h.addrs_nodup.sublist (List.filter_sublist.map _)
  addr_lt := fun x hx => h.addr_lt x (List.mem_filter.1 hx).1

/-- Every object is updated or freed. -/
def filterMap (h : Heap α) (f : α → Option α) : Heap α where
  cells := h.cells.filterMap fun x => (f x.2).map (x.1, ·)
  next := h.next
  addrs_nodup := by
    refine List.Nodup.sublist ?_ h.addrs_nodup
    induction h.cells with
    | nil => exact .slnil
    | cons x cells ih => cases hx : f x.2 <;> simp_all
  addr_lt := by
    intro y hy
    obtain ⟨x, hx, hfx⟩ := List.mem_filterMap.1 hy
    obtain ⟨z, -, rfl⟩ := Option.map_eq_some_iff.1 hfx
    exact h.addr_lt x hx

variable {h : Heap α} {a b : Nat} {x : α} {f : α → α}

theorem get_eq_some_iff : h.get a = some x ↔ (a, x) ∈ h.cells :=
  lookup_eq_some_iff_mem h.addrs_nodup

theorem lt_next (hx : h.get a = some x) : a < h.next := h.addr_lt _ (get_eq_some_iff.1 hx)

@[simp] theorem get_next : h.get h.next = none := by
  cases hget : h.get h.next with
  | none => rfl
  | some x => exact absurd (lt_next hget) (Nat.lt_irrefl _)

theorem get_alloc : (h.alloc x).get a = if a = h.next then some x else h.get a := by
  simpa [get, alloc] using lookup_append_new h.next_notMem x a

theorem get_modify : (h.modify b f).get a = (h.get a).map fun x => if a = b then f x else x :=
  lookup_mapValues (fun k x => if k = b then f x else x) h.cells a

theorem get_free : (h.free b).get a = if a = b then none else h.get a := by
  simpa [get, free] using lookup_filter_ne h.cells b a

theorem get_filterMap (g : α → Option α) : (h.filterMap g).get a = (h.get a).bind g := by
  refine Option.ext fun y => ?_
  rw [get_eq_some_iff, Option.bind_eq_some_iff]
  simp only [filterMap, get_eq_some_iff, mem_filterMap, Option.map_eq_some_iff]
  grind

theorem map_cells_modify {β : Type} (g : α → β) (hf : ∀ x, h.get b = some x → g (f x) = g x) :
    ((h.modify b f).cells.map fun x => (g x.2, x.1)) = h.cells.map fun x => (g x.2, x.1) := by
  rw [modify, map_map]
  apply map_congr_left
  intro x hx
  by_cases haddr : x.1 = b
  · grind [get_eq_some_iff]
  · simp [haddr]

theorem cells_perm_free (hx : h.get a = some x) : h.cells.Perm ((a, x) :: (h.free a).cells) :=
  perm_cons_filter_ne h.addrs_nodup (get_eq_some_iff.1 hx)

theorem cells_free_modify (h : Heap α) (a : Nat) (f : α → α) :
    ((h.modify a f).free a).cells = (h.free a).cells := by
  show (h.cells.map _).filter _ = h.cells.filter _
  rw [filter_map]
  refine (map_congr_left fun x hx => ?_).trans (map_id _)
  have hne : x.1 ≠ a := by simpa using (mem_filter.1 hx).2
  rw [if_neg hne]
  rfl

end Heap

end NdnMulticast.Lib
