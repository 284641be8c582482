/-
  `cleanupOnFaceRemoval`, after `daemon/table/cleanup.cpp`.

  Nodes without entries are erased in a second pass, the longest names first.  That no bare
  node is left rests on this order: when a node goes, its parent is still in the list if it
  has no entries.
-/

import NdnMulticast.Nfd.TableOperations

namespace NdnMulticast.Nfd.Tables

open Lib Ndn List Option Bool PrefixTree NameTree

/-! ## What is left of the entries -/

/-- The next hops that are left; an entry that loses its last one goes. -/
def dropFace (face : FacePtr) (hops : List NextHop) : Option (List NextHop) :=
  let rest := NextHops.removeNextHop hops face
  if hops.any (·.face == face) && rest.isEmpty then none else some rest

/-- The entries of a node without a face. -/
def withoutFace (face : FacePtr) (v : TableEntries) : TableEntries :=
  (v.setFibEntry (v.fibEntry.bind (dropFace face))).mapPitEntries (·.deleteInOutRecords face)

variable {env : NameTreeEnv} {exact tidy : Bool} {t t' : Tables} {nte : Nat} {face : FacePtr}
  {node : TreeNode (List UInt8) TableEntries}

/-! ## The first pass -/

theorem get_modify {f : TableEntries → TableEntries} (a : Nat) :
    (t.modify nte f).nameTree.get a = (t.nameTree.get a).map fun m =>
      if a = nte then { m with value := f m.value } else m := by
  exact PrefixTree.get_modify

theorem Fib.removeNextHop_spec {hops : List NextHop} (hnode : t.nameTree.get nte = some node)
    (hfib : node.value.fibEntry = some hops) :
    ∃ t', Fib.removeNextHop env t nte face = some t' ∧
      ∀ a, t'.nameTree.get a = (t.nameTree.get a).map fun m =>
        if a = nte then { m with value := m.value.setFibEntry (dropFace face hops) } else m := by
  have hhops : Fib.nextHops t nte = some hops := by
    rw [Fib.nextHops, get, hnode]
    exact hfib
  simp only [Fib.removeNextHop, hhops, bind_eq_bind, bind_some, dropFace]
  by_cases hany : hops.any (·.face == face) = true
  · rw [if_pos hany, hany, Bool.true_and]
    by_cases hrest : NextHops.removeNextHop hops face = []
    · -- the entry is set twice: without the next hop, and then to nothing
      rw [if_pos hrest, hrest]
      refine ⟨_, rfl, fun a => ?_⟩
      show (((t.modify nte (·.setFibEntry (some []))).modify nte (·.setFibEntry none)).nameTree.get
        a) = _
      rw [get_modify, get_modify]
      cases t.nameTree.get a with
      | none => rfl
      | some m =>
        by_cases ha : a = nte
        · simp [ha, TableEntries.setFibEntry]
        · simp [ha]
    · rw [if_neg hrest]
      refine ⟨_, rfl, fun a => ?_⟩
      rw [get_modify]
      cases hcase : NextHops.removeNextHop hops face with
      | nil => exact absurd hcase hrest
      | cons nh rest => rfl
  · -- nothing to remove
    rw [if_neg hany]
    rw [not_eq_true] at hany
    have hsame : NextHops.removeNextHop hops face = hops := by
      refine eraseP_of_forall_not fun nh hnh => ?_
      simpa using any_eq_false.1 hany nh hnh
    refine ⟨t, rfl, fun a => ?_⟩
    rw [hany, hsame]
    cases hget : t.nameTree.get a with
    | none => rfl
    | some m =>
      by_cases ha : a = nte
      · subst ha
        obtain rfl : node = m := mem_unique hnode hget
        rw [map_some, if_pos rfl, Bool.false_and, if_neg (by simp), ← hfib]
        rfl
      · rw [map_some, if_neg ha]

theorem removeFaceAt_spec (hnode : t.nameTree.get nte = some node) :
    ∃ t', t.removeFaceAt env face nte = some t' ∧ Ops env exact false t t' ∧
      ∀ a, t'.nameTree.get a = (t.nameTree.get a).map fun m =>
        if a = nte then { m with value := withoutFace face m.value } else m := by
  have hnextHops : Fib.nextHops t nte = node.value.fibEntry := by
    rw [Fib.nextHops, get, hnode]
    rfl
  -- what the FIB entry becomes
  obtain ⟨t₁, ht₁, hops₁, hget₁⟩ : ∃ t₁, (if (Fib.nextHops t nte).isSome then
        Fib.removeNextHop env t nte face else some t) = some t₁ ∧ Ops env exact false t t₁ ∧
      ∀ a, t₁.nameTree.get a = (t.nameTree.get a).map fun m => if a = nte then
        { m with value := m.value.setFibEntry (m.value.fibEntry.bind (dropFace face)) } else m := by
    cases hfib : node.value.fibEntry with
    | none =>
      rw [hnextHops, hfib]
      refine ⟨t, rfl, .refl, fun a => ?_⟩
      cases hget : t.nameTree.get a with
      | none => rfl
      | some m =>
        by_cases ha : a = nte
        · subst ha
          obtain rfl : node = m := mem_unique hnode hget
          rw [map_some, if_pos rfl, hfib, bind_none, ← hfib]
          rfl
        · rw [map_some, if_neg ha]
    | some hops =>
      rw [hnextHops, hfib]
      obtain ⟨t₁, ht₁, hget₁⟩ := Fib.removeNextHop_spec hnode hfib
      refine ⟨t₁, ht₁, Fib.ops_removeNextHop (fun h => by cases h) ht₁, fun a => ?_⟩
      rw [hget₁]
      cases hget : t.nameTree.get a with
      | none => rfl
      | some m => grind
  have hnode₁ : t₁.nameTree.get nte = some
      { node with value := node.value.setFibEntry (node.value.fibEntry.bind (dropFace face)) } := by
    rw [hget₁, hnode, map_some, if_pos rfl]
  refine ⟨t₁.modify nte (·.mapPitEntries (·.deleteInOutRecords face)), ?_, hops₁.tail ?_,
    fun a => ?_⟩
  · rw [removeFaceAt, ht₁]
    rfl
  · exact Pit.op_mapPitEntries (·.deleteInOutRecords face) hnode₁ (fun _ => ⟨rfl, rfl⟩)
      t₁.nextSerial
  · rw [get_modify, hget₁]
    cases t.nameTree.get a with
    | none => rfl
    | some m =>
      by_cases ha : a = nte
      · simp [ha, withoutFace]
      · simp [ha]

variable {ntes : List Nat} {r : Nat × Nat} {rest : List (Nat × Nat)}

theorem removeFaceAll_spec (hnodup : ntes.Nodup)
    (hntes : ∀ nte ∈ ntes, ∃ node, t.nameTree.get nte = some node) :
    ∃ t', ntes.foldlM (fun t nte => t.removeFaceAt env face nte) t = some t' ∧
      Ops env exact false t t' ∧
      ∀ a, t'.nameTree.get a = (t.nameTree.get a).map fun m =>
        if a ∈ ntes then { m with value := withoutFace face m.value } else m := by
  induction ntes generalizing t with
  | nil =>
    refine ⟨t, rfl, .refl, fun a => ?_⟩
    cases t.nameTree.get a with
    | none => rfl
    | some m => rfl
  | cons nte ntes ih =>
    rw [nodup_cons] at hnodup
    obtain ⟨node, hnode⟩ := hntes nte (.head _)
    obtain ⟨t₁, ht₁, hops₁, hget₁⟩ := removeFaceAt_spec hnode
    have hntes₁ : ∀ b ∈ ntes, ∃ m, t₁.nameTree.get b = some m := by
      intro b hb
      obtain ⟨m, hm⟩ := hntes b (.tail _ hb)
      rw [hget₁, hm]
      exact ⟨_, rfl⟩
    obtain ⟨t', ht', hops', hget'⟩ := ih hnodup.2 hntes₁
    refine ⟨t', ?_, hops₁.trans hops', fun a => ?_⟩
    · rw [foldlM_cons, ht₁]
      exact ht'
    · rw [hget', hget₁]
      cases t.nameTree.get a with
      | none => rfl
      | some m => grind

/-! ## The second pass -/

/-- What holds while `rest` is still to be erased. -/
structure Pending (env : NameTreeEnv) (t : Tables) (rest : List (Nat × Nat)) : Prop where
  tree : NameTree.Sound env t.nameTree
  present : ∀ r ∈ rest, ∃ node, t.nameTree.get r.2 = some node ∧ node.name.length = r.1
  nodup : (rest.map Prod.snd).Nodup
  /-- The longest names come first. -/
  sorted : rest.Pairwise fun r r' => r'.1 ≤ r.1
  bare : ∀ a node, t.nameTree.get a = some node →
    PrefixTree.isEmpty (NameTree.config env) node = true → a ∈ rest.map Prod.snd
  /-- A node without entries is to come, or its name is too long for a parent of one that is. -/
  vacant : ∀ a node, t.nameTree.get a = some node → node.value.hasTableEntries = false →
    a ∈ rest.map Prod.snd ∨ ∀ r ∈ rest, r.1 ≤ node.name.length

theorem hasTableEntries_of_isEmpty (h : PrefixTree.isEmpty (NameTree.config env) node = true) :
    node.value.hasTableEntries = false := by
  rw [PrefixTree.isEmpty, and_eq_true, not_eq_true'] at h
  exact h.2

theorem Pending.skip (hp : Pending env t (r :: rest)) (hnode : t.nameTree.get r.2 = some node)
    (hused : PrefixTree.isEmpty (NameTree.config env) node = false) : Pending env t rest where
  tree := hp.tree
  present := fun r' hr' => hp.present r' (.tail _ hr')
  nodup := (nodup_cons.1 hp.nodup).2
  sorted := (pairwise_cons.1 hp.sorted).2
  bare := by
    intro a m hm hempty
    rcases mem_cons.1 (hp.bare a m hm hempty) with rfl | hmem
    · simp_all
    · exact hmem
  vacant := by
    intro a m hm hvacant
    rcases hp.vacant a m hm hvacant with hmem | hlong
    · rcases mem_cons.1 hmem with rfl | hmem
      · -- the others in the list are not longer
        obtain ⟨node', hnode', hlen⟩ := hp.present r (.head _)
        obtain rfl : node' = m := mem_unique hnode' hm
        refine .inr fun r' hr' => ?_
        have := (pairwise_cons.1 hp.sorted).1 r' hr'
        omega
      · exact .inl hmem
    · exact .inr fun r' hr' => hlong r' (.tail _ hr')

theorem Pending.erase (hp : Pending env t (r :: rest)) (hnode : t.nameTree.get r.2 = some node)
    (hempty : isEmpty (config env) node = true) :
    Pending env { t with nameTree := t.nameTree.eraseNode (config env) r.2 node } rest := by
  have hleaf := children_eq_nil_of_isEmpty hempty
  have hnodup := nodup_cons.1 hp.nodup
  obtain ⟨node', hnode', hlen⟩ := hp.present r (.head _)
  obtain rfl : node' = node := mem_unique hnode' hnode
  refine ⟨hp.tree.shrinks (hp.tree.linked.eraseNode hnode hleaf)
    (Shrinks.eraseNode hnode hempty), ?_, hnodup.2, (pairwise_cons.1 hp.sorted).2,
    ?_, ?_⟩
  · grind [present, get_eraseNode_of_get]
  · intro a m' hm' hbare
    obtain ⟨m, hm, ha, rfl⟩ := of_get_eraseNode hm'
    by_cases hparent : node'.parent = some a
    · -- the parent has a shorter name, so its turn has not come yet
      rw [if_pos hparent] at hbare
      have hvacant := hasTableEntries_of_isEmpty hbare
      have hshort : m.name.length < node'.name.length := by
        rcases hp.tree.linked.parent hnode with ⟨-, hnone⟩ | ⟨p, x, c, hpar, hx, hname⟩
        · rw [hnone] at hparent
          cases hparent
        · grind
      rcases hp.vacant a m hm hvacant with hmem | hlong
      · exact mem_of_ne_of_mem ha hmem
      · have := hlong r (.head _)
        omega
    · rw [if_neg hparent] at hbare
      exact mem_of_ne_of_mem ha (hp.bare a m hm hbare)
  · intro a m' hm' hvacant
    obtain ⟨m, hm, ha, rfl⟩ := of_get_eraseNode hm'
    have hsame : (if node'.parent = some a then
        { m with children := m.children.erase r.2 } else m).name = m.name ∧
        (if node'.parent = some a then
        { m with children := m.children.erase r.2 } else m).value = m.value := by
      split <;> exact ⟨rfl, rfl⟩
    rw [hsame.1]
    rw [hsame.2] at hvacant
    rcases hp.vacant a m hm hvacant with hmem | hlong
    · exact .inl (mem_of_ne_of_mem ha hmem)
    · exact .inr fun r' hr' => hlong r' (.tail _ hr')

/-- **The second pass** returns, leaves no bare node and takes no entry away. -/
theorem eraseAll_spec (hp : Pending env t rest) :
    ∃ t', rest.foldlM (fun t r => t.eraseIfEmpty env r.2 false) t = some t' ∧
      Reaches env exact t t' ∧ NoBare env t' ∧
      ∀ k, t'.nameTree.valueAt (config env) k = t.nameTree.valueAt (config env) k := by
  induction rest generalizing t with
  | nil =>
    refine ⟨t, rfl, .refl, fun a node hnode => ?_, fun _ => rfl⟩
    cases hempty : isEmpty (config env) node with
    | false => rfl
    | true => cases hp.bare a node hnode hempty
  | cons r rest ih =>
    obtain ⟨node, hnode, -⟩ := hp.present r (.head _)
    cases hempty : isEmpty (config env) node with
    | false =>
      have hkeep : t.eraseIfEmpty env r.2 false = some t := by
        rw [eraseIfEmpty, eraseIfEmpty_false hnode, hempty]
        rfl
      rw [foldlM_cons, hkeep]
      exact ih (hp.skip hnode hempty)
    | true =>
      have herase : t.eraseIfEmpty env r.2 false = some
          { t with nameTree := t.nameTree.eraseNode (config env) r.2 node } := by
        rw [eraseIfEmpty, eraseIfEmpty_false hnode, hempty]
        rfl
      rw [foldlM_cons, herase]
      obtain ⟨t', ht', hreach, hbare, hvalue⟩ := ih (hp.erase hnode hempty)
      refine ⟨t', ht', .head (.eraseIfEmpty herase) hreach, hbare, fun k => ?_⟩
      rw [hvalue k]
      have hl := hp.tree.linked
      exact hl.valueAt_shrinks (hl.eraseNode hnode (children_eq_nil_of_isEmpty hempty))
        (Shrinks.eraseNode hnode hempty)
        fun v hv => TableEntries.eq_none_of_hasTableEntries hv

/-! ## Both passes -/

theorem mem_fullEnumerate_iff (hs : NameTree.Sound env t.nameTree) {a : Nat} :
    a ∈ NameTree.fullEnumerate t.nameTree ↔ ∃ node, t.nameTree.get a = some node := by
  rw [NameTree.fullEnumerate, List.mem_map]
  constructor
  · rintro ⟨x, hx, rfl⟩
    obtain ⟨node, hnode, -⟩ := hs.linked.mem_toList_iff.1 hx
    exact ⟨node, hnode⟩
  · rintro ⟨node, hnode⟩
    exact ⟨_, hs.linked.mem_toList_iff.2 ⟨node, hnode, rfl⟩, rfl⟩

theorem nodup_fullEnumerate (hs : NameTree.Sound env t.nameTree) :
    (NameTree.fullEnumerate t.nameTree).Nodup := by
  rw [NameTree.fullEnumerate, (hs.linked.hashed.map Prod.snd).nodup_iff, List.map_map]
  exact t.nameTree.nodes.addrs_nodup

theorem maybeEmptyNte_eq_some_iff :
    t.maybeEmptyNte nte = some r ↔ nte = r.2 ∧ ∃ node, t.nameTree.get r.2 = some node ∧
      node.value.hasTableEntries = false ∧ node.name.length = r.1 := by
  constructor
  · intro h
    obtain ⟨node, hnode, h⟩ := Option.bind_eq_some_iff.1 h
    split at h
    · cases h
    · grind
  · simp_all [maybeEmptyNte]

theorem mem_maybeEmptyNtes_iff :
    r ∈ t.maybeEmptyNtes ntes ↔ r.2 ∈ ntes ∧ ∃ node, t.nameTree.get r.2 = some node ∧
      node.value.hasTableEntries = false ∧ node.name.length = r.1 := by
  rw [maybeEmptyNtes, mem_reverse, mem_insertionSort, mem_filterMap]
  constructor
  · simp [maybeEmptyNte_eq_some_iff]
  · simp [maybeEmptyNte_eq_some_iff]

theorem pending_maybeEmptyNtes (hs : NameTree.Sound env t.nameTree) (hnodup : ntes.Nodup)
    (hall : ∀ a node, t.nameTree.get a = some node → a ∈ ntes) :
    Pending env t (t.maybeEmptyNtes ntes) where
  tree := hs
  present := by
    intro r hr
    obtain ⟨-, node, hnode, -, hlen⟩ := mem_maybeEmptyNtes_iff.1 hr
    exact ⟨node, hnode, hlen⟩
  nodup := by
    -- each node is put in at most once
    have hsub : ∀ l : List Nat, ((l.filterMap t.maybeEmptyNte).map Prod.snd).Sublist l := by
      intro l
      induction l with
      | nil => exact .slnil
      | cons nte l ih =>
        cases hcase : t.maybeEmptyNte nte with
        | none => simp_all
        | some r =>
          rw [filterMap_cons_some hcase, map_cons, ← (maybeEmptyNte_eq_some_iff.1 hcase).1]
          exact ih.cons_cons nte
    rw [maybeEmptyNtes, map_reverse, nodup_reverse,
      ((perm_insertionSort _ _).map Prod.snd).nodup_iff]
    exact hnodup.sublist (hsub ntes)
  sorted := by
    rw [maybeEmptyNtes, pairwise_reverse]
    exact (sortsBy_insertionSort Prod.fst).sorted _
  bare := by
    intro a node hnode hempty
    refine mem_map.2 ⟨(node.name.length, a), mem_maybeEmptyNtes_iff.2 ?_, rfl⟩
    exact ⟨hall a node hnode, node, hnode, hasTableEntries_of_isEmpty hempty, rfl⟩
  vacant := by
    intro a node hnode hvacant
    refine .inl (mem_map.2 ⟨(node.name.length, a), mem_maybeEmptyNtes_iff.2 ?_, rfl⟩)
    exact ⟨hall a node hnode, node, hnode, hvacant, rfl⟩

/-- **Face removal** returns, takes the face out of all entries, and leaves no bare node. -/
theorem cleanup_spec (hs : Sound env t) (face : FacePtr) :
    ∃ t', t.cleanupOnFaceRemoval env face = some t' ∧ Reaches env exact t t' ∧ NoBare env t' ∧
      ∀ k, t'.nameTree.valueAt (config env) k =
        withoutFace face (t.nameTree.valueAt (NameTree.config env) k) := by
  have hmem : ∀ a, a ∈ fullEnumerate t.nameTree ↔ ∃ node, t.nameTree.get a = some node :=
    fun a => mem_fullEnumerate_iff hs.tree
  have hfirst : ∃ t₁, (fullEnumerate t.nameTree).foldlM
        (fun t nte => t.removeFaceAt env face nte) t = some t₁ ∧ Ops env exact false t t₁ ∧
      ∀ a, t₁.nameTree.get a = (t.nameTree.get a).map fun m =>
        if a ∈ fullEnumerate t.nameTree then
          { m with value := withoutFace face m.value } else m :=
    removeFaceAll_spec (nodup_fullEnumerate hs.tree) fun nte hnte => (hmem nte).1 hnte
  obtain ⟨t₁, ht₁, hops₁, hget₁⟩ := hfirst
  have hs₁ := hs.reaches (Ops.reaches hops₁)
  -- every node is visited
  have hget₁ : ∀ a, t₁.nameTree.get a = (t.nameTree.get a).map fun m =>
      { m with value := withoutFace face m.value } := by
    intro a
    rw [hget₁ a]
    cases hm : t.nameTree.get a with
    | none => rfl
    | some m => simp_all
  have hall : ∀ a node, t₁.nameTree.get a = some node → a ∈ fullEnumerate t.nameTree := by
    intro a node hnode
    rw [hget₁] at hnode
    obtain ⟨m, hm, -⟩ := map_eq_some_iff.1 hnode
    exact (hmem a).2 ⟨m, hm⟩
  have hsecond : ∃ t', (t₁.maybeEmptyNtes (fullEnumerate t.nameTree)).foldlM
        (fun t r => t.eraseIfEmpty env r.2 false) t₁ = some t' ∧ Reaches env exact t₁ t' ∧
      NoBare env t' ∧ ∀ k, t'.nameTree.valueAt (config env) k =
        t₁.nameTree.valueAt (config env) k :=
    eraseAll_spec (pending_maybeEmptyNtes hs₁.tree (nodup_fullEnumerate hs.tree) hall)
  obtain ⟨t', ht', hreach, hbare, hvalue⟩ := hsecond
  refine ⟨t', ?_, (Ops.reaches hops₁).trans hreach, hbare, fun k => ?_⟩
  · rw [cleanupOnFaceRemoval, ht₁]
    exact ht'
  · rw [hvalue k]
    have hl := hs.tree.linked
    have hl₁ := hs₁.tree.linked
    cases hfind : t.nameTree.find (config env) k with
    | some a =>
      obtain ⟨m, hm, rfl⟩ := hl.find_eq_some_iff.1 hfind
      have hm₁ : t₁.nameTree.get a = some { m with value := withoutFace face m.value } := by
        rw [hget₁, hm, map_some]
      rw [hl.valueAt_of_get hm]
      exact hl₁.valueAt_of_get hm₁
    | none =>
      have hnot := hl.find_eq_none_iff.1 hfind
      rw [hl.valueAt_of_notMem hnot]
      refine hl₁.valueAt_of_notMem fun a n hn => ?_
      rw [hget₁] at hn
      obtain ⟨m, hm, rfl⟩ := map_eq_some_iff.1 hn
      exact hnot a m hm

end NdnMulticast.Nfd.Tables
