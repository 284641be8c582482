/-
  `ndn::detail::RecordContainer`: the table behind pending Interests, Interest filters and
  registered prefixes.  A `std::map` is a list in the order of the ids, and the order is part
  of the type.
-/

import NdnMulticast.Lib.Assoc

namespace NdnMulticast.Ndn

open Lib List Prod Nat

abbrev RecordId := Nat

structure RecordContainer (α : Type) where
  records : List (RecordId × α)
  lastId : RecordId
  sorted : (records.map Prod.fst).Pairwise (· < ·)

namespace RecordContainer

section

variable {α σ : Type}

def init : RecordContainer α := ⟨[], 0, List.Pairwise.nil⟩

def ids (c : RecordContainer α) : List RecordId := c.records.map Prod.fst

def get (c : RecordContainer α) (id : RecordId) : Option α := c.records.lookup id

def empty (c : RecordContainer α) : Bool := c.records.isEmpty

/-- `RecordContainer::allocateId`: the new `m_lastId` is the id. -/
def allocateId (c : RecordContainer α) : RecordContainer α := { c with lastId := c.lastId + 1 }

/-- `std::map::emplace`: a record that is there already stays. -/
def emplace (id : RecordId) (a : α) : List (RecordId × α) → List (RecordId × α)
  | [] => [(id, a)]
  | (j, b) :: l =>
    if id < j then (id, a) :: (j, b) :: l
    else if id = j then (j, b) :: l
    else (j, b) :: emplace id a l

variable {id j : RecordId} {a : α} {l : List (RecordId × α)} {c : RecordContainer α}

theorem mem_ids_emplace : j ∈ (emplace id a l).map fst ↔ j = id ∨ j ∈ l.map fst := by
  induction l with
  | nil => simp [emplace]
  | cons x l ih =>
    simp only [emplace]
    split
    · simp
    · grind

theorem sorted_emplace (h : (l.map fst).Pairwise (· < ·)) :
    ((emplace id a l).map fst).Pairwise (· < ·) := by
  induction l with
  | nil => simp [emplace]
  | cons x l ih =>
    rw [map_cons, pairwise_cons] at h
    simp only [emplace]
    split
    · rename_i hlt
      rw [map_cons, pairwise_cons]
      refine ⟨fun j hj => ?_, by simpa using h⟩
      rcases mem_cons.1 hj with rfl | hj
      · exact hlt
      · exact Nat.lt_trans hlt (h.1 j hj)
    · rename_i hle
      split
      · simpa using h
      rename_i hne
      rw [map_cons, pairwise_cons]
      refine ⟨fun j hj => ?_, ih h.2⟩
      rcases mem_ids_emplace.1 hj with rfl | hj
      · exact Nat.lt_of_le_of_ne (Nat.not_lt.1 hle) (Ne.symm hne)
      · exact h.1 j hj

def put (c : RecordContainer α) (id : RecordId) (a : α) : RecordContainer α :=
  { c with records := emplace id a c.records, sorted := sorted_emplace c.sorted }

def insert (c : RecordContainer α) (a : α) : RecordContainer α :=
  c.allocateId.put (c.lastId + 1) a

/-- What is done to a record through the reference that `put` returns. -/
def modify (c : RecordContainer α) (id : RecordId) (f : α → α) : RecordContainer α where
  records := c.records.map fun x => (x.1, if x.1 = id then f x.2 else x.2)
  lastId := c.lastId
  sorted := by simpa [Function.comp_def] using c.sorted

/-- `RecordContainer::erase`, without its signal. -/
def erase (c : RecordContainer α) (id : RecordId) : RecordContainer α :=
  { c with
    records := c.records.filter (·.1 != id)
    sorted := c.sorted.sublist (List.filter_sublist.map Prod.fst) }

/-- `RecordContainer::clear`, without its signal. -/
def clear (c : RecordContainer α) : RecordContainer α := { init with lastId := c.lastId }

/-- The loop of `RecordContainer::removeIf`; the visitor returns `none` to erase a record. -/
def visit (f : σ → RecordId → α → σ × Option α) : σ → List (RecordId × α) → σ × List (RecordId × α)
  | s, [] => (s, [])
  | s, (id, a) :: l =>
    match f s id a with
    | (s', none) => visit f s' l
    | (s', some a') =>
      let (t, l') := visit f s' l
      (t, (id, a') :: l')

theorem ids_visit_sublist (f : σ → RecordId → α → σ × Option α) (s : σ)
    (l : List (RecordId × α)) :
    ((visit f s l).2.map fst).Sublist (l.map fst) := by
  induction l generalizing s with
  | nil => exact List.Sublist.refl _
  | cons x l ih =>
    simp only [visit]
    split
    · exact (ih _).cons _
    · exact (ih _).cons_cons _

/-- `RecordContainer::removeIf`, without its signal. -/
def removeIf (c : RecordContainer α) (f : σ → RecordId → α → σ × Option α) (s : σ) :
    σ × RecordContainer α :=
  let r := visit f s c.records
  (r.1, { c with records := r.2, sorted := c.sorted.sublist (ids_visit_sublist f s c.records) })

/-! ## Lookup -/

theorem nodup_ids (c : RecordContainer α) : c.ids.Nodup := c.sorted.imp ne_of_lt

theorem get_eq_some_iff : c.get id = some a ↔ (id, a) ∈ c.records :=
  lookup_eq_some_iff_mem c.nodup_ids

theorem mem_ids_iff : id ∈ c.ids ↔ ∃ a, (id, a) ∈ c.records := by
  simp [ids]

@[simp] theorem ids_modify {f : α → α} : (c.modify id f).ids = c.ids := by
  simp [ids, modify, Function.comp_def]

@[simp] theorem mem_ids_erase : j ∈ (c.erase id).ids ↔ j ∈ c.ids ∧ j ≠ id := by
  simp [ids, erase]

@[simp] theorem ids_clear : c.clear.ids = [] := rfl

theorem count_ids_emplace (id j : RecordId) (a : α) (l : List (RecordId × α)) :
    ((emplace j a l).map fst).count id ≤ (l.map fst).count id + if j = id then 1 else 0 := by
  induction l with
  | nil => simp [emplace, count_cons]
  | cons x l ih =>
    simp only [emplace]
    split
    · simp [count_cons]
    · grind

section

variable (c : RecordContainer α)

theorem count_ids_put (id j : RecordId) (a : α) :
    (c.put j a).ids.count id ≤ c.ids.count id + if j = id then 1 else 0 :=
  count_ids_emplace id j a c.records

theorem count_ids_erase (id j : RecordId) : (c.erase j).ids.count id ≤ c.ids.count id :=
  (filter_sublist.map fst).count_le id

theorem count_ids_erase_self (id : RecordId) : (c.erase id).ids.count id = 0 :=
  count_eq_zero_of_not_mem (by simp)

end

theorem mem_emplace {x : RecordId × α} (h : x ∈ emplace id a l) : x = (id, a) ∨ x ∈ l := by
  induction l with
  | nil => exact Or.inl (mem_singleton.1 h)
  | cons y l ih =>
    simp only [emplace] at h
    split at h
    · exact mem_cons.1 h
    · grind

theorem removeIf_eq (c : RecordContainer α) (g : σ → RecordId → α → σ)
    (h : RecordId → α → Option α) (s : σ) :
    (c.removeIf (fun s id a => (g s id a, h id a)) s).1 =
        c.records.foldl (fun s x => g s x.1 x.2) s ∧
      (c.removeIf (fun s id a => (g s id a, h id a)) s).2.records =
        c.records.filterMap fun x => (h x.1 x.2).map (Prod.mk x.1) := by
  simp only [removeIf]
  induction c.records generalizing s with
  | nil => exact ⟨rfl, rfl⟩
  | cons x l ih =>
    obtain ⟨id, a⟩ := x
    simp only [visit, foldl_cons, filterMap_cons]
    cases hid : h id a with
    | none => exact ih (g s id a)
    | some b => exact ⟨(ih _).1, congrArg _ (ih _).2⟩

end

end RecordContainer

end NdnMulticast.Ndn
