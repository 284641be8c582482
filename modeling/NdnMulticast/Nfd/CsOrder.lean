/-
  The order of the Content Store's table, after `table/cs.cpp` and `table/cs-entry.cpp`.

  The code compares entries component by component, each by the octets of its encoding, and then by
  the digests of the Data.  That is the lexicographic order of places (`Place`), which makes it
  transitive.  An insertion keeps the table sorted in it with no two entries at one place, the other
  operations only remove entries or change what is not compared, and so every run of operations
  keeps what `std::set` relies on (`Ordered`).
-/

import NdnMulticast.Lib.Sorted
import NdnMulticast.Ndn.NameOrder
import NdnMulticast.Nfd.CsLru

namespace NdnMulticast.Nfd.Cs

open Lib Ndn List Bool

/-! ## Places in the table -/

/-- The encodings of the components, and a digest. -/
structure Place where
  wires : List (List Nat)
  digest : List Nat

namespace Place

def compare : Place → Place → Ordering :=
  compareLex (compareOn Place.wires) (compareOn Place.digest)

instance : Std.TransCmp compare :=
  inferInstanceAs (Std.TransCmp (compareLex (compareOn Place.wires) (compareOn Place.digest)))

end Place

variable (sha256 : List UInt8 → List UInt8)

/-- Digests compare by length, then octet by octet. -/
def digestKey (digest : List UInt8) : List Nat := digest.length :: octets digest

def placeOf (d : Data) : Place := ⟨d.name.wires, digestKey (sha256 d.wire)⟩

theorem compareDigest_eq (a b : List UInt8) :
    compareDigest a b = compare (digestKey a) (digestKey b) := by
  show _ = List.compareLex compare (a.length :: octets a) (b.length :: octets b)
  rw [compareDigest, List.compareLex_cons_cons]
  cases hlen : compare a.length b.length with
  | lt => rfl
  | gt => rfl
  | eq =>
    have hsame : a.length = b.length := compare_eq_iff_eq.1 hlen
    by_cases heq : memcmp a b = .eq
    · rw [heq, (memcmp_eq_iff hsame).1 heq]
      exact Std.ReflCmp.compare_self.symm
    · exact (compare_octets_of_memcmp_ne heq).symm

theorem compareDataWithData_eq {a b : Data} (ha : a.name.WellFormed) (hb : b.name.WellFormed) :
    compareDataWithData sha256 a b = (placeOf sha256 a).compare (placeOf sha256 b) := by
  rw [compareDataWithData, Name.compare_eq_wires ha hb, compareDigest_eq]
  rfl

/-! ## Sorted tables -/

/-- The table as `std::set` keeps it, with Data that have been decoded. -/
structure Ordered (table : List CsEntry) : Prop where
  sorted : table.Pairwise fun a b => compareDataWithData sha256 a.data b.data = .lt
  wellFormed : ∀ e ∈ table, e.data.name.WellFormed

variable {sha256} {table : List CsEntry} {e : CsEntry}

/-! ## Tables that operations make -/

variable (sha256) in
theorem compareDataWithData_swap (a b : Data) :
    (compareDataWithData sha256 a b).swap = compareDataWithData sha256 b a := by
  rw [compareDataWithData, compareDataWithData, Ordering.swap_then, Name.compare_swap,
    compareDigest_eq, compareDigest_eq, ← Std.OrientedOrd.eq_swap]

theorem Ordered.sublist {table' : List CsEntry} (h : Ordered sha256 table)
    (hsub : table'.Sublist table) : Ordered sha256 table' :=
  ⟨h.sorted.sublist hsub, fun e he => h.wellFormed e (hsub.subset he)⟩

theorem Ordered.insertSorted (h : Ordered sha256 table) (he : e.data.name.WellFormed)
    (hnew : ∀ x ∈ table, compareDataWithData sha256 e.data x.data ≠ .eq) :
    Ordered sha256 (insertSorted sha256 e table) := by
  induction table with
  | nil => exact ⟨pairwise_singleton _ _, by simpa [Cs.insertSorted] using he⟩
  | cons x xs ih =>
    have hx := h.wellFormed x (.head _)
    have hrest := pairwise_cons.1 h.sorted
    rw [Cs.insertSorted]
    split
    · rename_i hlt
      have hlt := beq_iff_eq.1 hlt
      refine ⟨pairwise_cons.2 ⟨fun y hy => ?_, h.sorted⟩, forall_mem_cons.2 ⟨he, h.wellFormed⟩⟩
      rcases mem_cons.1 hy with rfl | hy
      · exact hlt
      -- what comes after `x` comes after the new entry
      have hy' := h.wellFormed y (mem_cons_of_mem x hy)
      have hxy := hrest.1 y hy
      rw [compareDataWithData_eq sha256 hx hy'] at hxy
      rw [compareDataWithData_eq sha256 he hx] at hlt
      rw [compareDataWithData_eq sha256 he hy']
      exact Std.TransCmp.lt_trans hlt hxy
    · rename_i hlt
      have hne := hnew x (.head _)
      have hgt : compareDataWithData sha256 x.data e.data = .lt := by
        rw [← compareDataWithData_swap]
        cases hcmp : compareDataWithData sha256 e.data x.data with
        | lt => exact absurd (beq_iff_eq.2 hcmp) hlt
        | eq => exact absurd hcmp hne
        | gt => rfl
      have htail := ih (h.sublist (sublist_cons_self x xs))
        fun y hy => hnew y (mem_cons_of_mem x hy)
      refine ⟨pairwise_cons.2 ⟨fun y hy => ?_, htail.sorted⟩,
        forall_mem_cons.2 ⟨hx, htail.wellFormed⟩⟩
      rcases mem_cons.1 ((perm_insertSorted sha256 e xs).mem_iff.1 hy) with rfl | hy
      · exact hgt
      · exact hrest.1 y hy

theorem Ordered.effect {σ : Type} {p : CsPolicy σ} {s s' : Store σ} {now : Int} {op : CsOp}
    (h : Ordered sha256 s.table) (heffect : s.Effect sha256 p now op s')
    (hop : ∀ d isUnsolicited, op = .insert d isUnsolicited → d.name.WellFormed) :
    Ordered sha256 s'.table := by
  cases heffect with
  | reject | miss | use => exact h
  | @refresh d isUnsolicited old =>
    have hdata : ∀ e : CsEntry,
        (if e.id = old.id then Store.refreshed isUnsolicited now e else e).data = e.data := by
      intro e
      split <;> rfl
    refine ⟨pairwise_map.2 (h.sorted.imp fun {a b} hlt => ?_), fun e he => ?_⟩
    · rw [hdata, hdata]
      exact hlt
    · obtain ⟨e', he', rfl⟩ := mem_map.1 he
      rw [hdata]
      exact h.wellFormed e' he'
  | @emplace d isUnsolicited ids hadmits hstored =>
    have hnew : ∀ x ∈ s.table, compareDataWithData sha256 d x.data ≠ .eq := by
      intro x hx
      simpa using find?_eq_none.1 hstored x hx
    have hmid : Ordered sha256 (s.emplace sha256 p d isUnsolicited now).table :=
      h.insertSorted (hop d isUnsolicited rfl) hnew
    exact hmid.sublist filter_sublist
  | erase | setLimit => exact h.sublist filter_sublist

/-- **The table stays in order.**  Every run of operations that insert only Data with well-formed
    names leaves the table sorted, with one entry at most for each name and digest. -/
theorem ordered_of_run {limit : Nat} {shouldAdmit shouldServe : Bool} {es : List (Int × CsOp)}
    {t : Tracked}
    (hrun : Run (Tracked.step sha256)
      (fun _ e => ∀ d isUnsolicited, e.2 = .insert d isUnsolicited → d.name.WellFormed)
      (Tracked.init limit shouldAdmit shouldServe) es t) : Ordered sha256 t.store.table := by
  have hgood : t.Good ∧ Ordered sha256 t.store.table := by
    refine hrun.invariant (I := fun t => t.Good ∧ Ordered sha256 t.store.table) ?_
      ⟨Tracked.good_init limit shouldAdmit shouldServe,
        Pairwise.nil, by simp [Tracked.init, Store.init]⟩
    rintro t ⟨now, op⟩ t' ⟨ht, hordered⟩ hop hstep
    refine ⟨ht.step hstep, ?_⟩
    obtain ⟨store, hstore, rfl⟩ := Tracked.step_eq_some hstep
    exact hordered.effect (Store.step_effect ht.mirrored hstore) hop
  exact hgood.2

/-- `/b` is inserted before `/a`, and comes after it. -/
theorem ordered_of_run_two :
    ∃ t, Run (Tracked.step Sample.sha256)
        (fun _ e => ∀ d isUnsolicited, e.2 = .insert d isUnsolicited → d.name.WellFormed)
        (Tracked.init 10 true true)
        [(0, .insert (Sample.data 98) false), (0, .insert (Sample.data 97) false)] t ∧
      t.store.table.map CsEntry.id = [1, 0] ∧ Ordered Sample.sha256 t.store.table := by
  refine Run.exists_of_forall _ ?_ (by decide) fun t hrun ht => ⟨ht, ordered_of_run hrun⟩
  have hdecode : ∀ octet, Data.wireDecode (Sample.dataBlock octet) = .ok (Sample.data octet) :=
    fun _ => rfl
  intro e he d isUnsolicited hd
  rcases mem_pair.1 he with rfl | rfl <;> cases hd
  · exact Data.wireDecode_wellFormed (hdecode 98)
  · exact Data.wireDecode_wellFormed (hdecode 97)

end NdnMulticast.Nfd.Cs
