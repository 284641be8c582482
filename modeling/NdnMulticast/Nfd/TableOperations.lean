/-
  The operations on the tables, one by one, as sequences of actions (`Op`): an edit of the entries
  at one node, with or without the erasure of the nodes it leaves empty, or the creation of the
  nodes of a name.  What holds of every action then holds of every operation, and is proved once
  (`Ops.reaches`, `Ops.noBare`); a new operation needs one lemma here.

  The flag `tidy` excludes the one change that can leave a bare node: `Fib::removeNextHop`
  keeps the node when it takes the last next hop of its FIB entry.
-/

import NdnMulticast.Nfd.TableActions

namespace NdnMulticast.Nfd

open Lib Ndn List Option PrefixTree NameTree Name NextHops

theorem PitEntry.update_same (x : PitEntry) (serial : Nat) (u : RecordUpdate) :
    (x.update serial u).id = x.id ∧ (x.update serial u).entry.interest = x.entry.interest := by
  cases u with
  | insertOrUpdateInRecord face i nonce now =>
    exact ⟨rfl, Entry.insertOrUpdateInRecord_interest _ _ _ _ _ _⟩
  | insertOrUpdateOutRecord face i nonce now =>
    exact ⟨rfl, Entry.insertOrUpdateOutRecord_interest _ _ _ _ _⟩
  | deleteInRecord | clearInRecords | deleteOutRecord | setIncomingNack => exact ⟨rfl, rfl⟩

namespace Tables

/-- The entries of a node become `v'`. -/
structure EditAt (exact : Bool) (t t' : Tables) (nte : Nat)
    (node : TreeNode (List UInt8) TableEntries) (v' : TableEntries) : Prop where
  found : t.nameTree.get nte = some node
  tree : ∃ f, t'.nameTree = t.nameTree.modify nte f ∧ f node.value = v'
  edit : Edit exact t t' node.name node.value v'

/-- A part of an operation after which the tree is in order. -/
inductive Op (env : NameTreeEnv) (exact tidy : Bool) (t t' : Tables) : Prop where
  | found {n : Name} {prefixLen nte : Nat} {v : TableEntries} :
      t.lookup env n prefixLen = some (nte, t') → t'.get nte = some v →
      v.hasTableEntries = true → Op env exact tidy t t'
  | inserted {n : Name} {prefixLen nte : Nat} {node : TreeNode (List UInt8) TableEntries}
      {v' : TableEntries} (t₁ : Tables) :
      t.lookup env n prefixLen = some (nte, t₁) → EditAt exact t₁ t' nte node v' →
      v'.hasTableEntries = true → Op env exact tidy t t'
  | changed {nte : Nat} {node : TreeNode (List UInt8) TableEntries} {v' : TableEntries} :
      EditAt exact t t' nte node v' →
      (tidy = true → PrefixTree.isEmpty (NameTree.config env) node = false →
        PrefixTree.isEmpty (NameTree.config env) { node with value := v' } = false) →
      Op env exact tidy t t'
  | erased {nte : Nat} {node : TreeNode (List UInt8) TableEntries} {v' : TableEntries}
      (t₁ : Tables) :
      EditAt exact t t₁ nte node v' → t₁.eraseIfEmpty env nte true = some t' →
      Op env exact tidy t t'

abbrev Ops (env : NameTreeEnv) (exact tidy : Bool) : Tables → Tables → Prop :=
  Relation.ReflTransGen (Op env exact tidy)

variable {env : NameTreeEnv} {exact tidy : Bool} {t t' : Tables} {nte : Nat}
  {node : TreeNode (List UInt8) TableEntries} {v v' : TableEntries}

theorem EditAt.act (h : EditAt exact t t' nte node v') : Act env exact t t' := by
  obtain ⟨f, htree, rfl⟩ := h.tree
  exact .edit h.found htree h.edit

theorem Op.reaches (h : Op env exact tidy t t') : Reaches env exact t t' := by
  cases h with
  | found hlookup => exact .single (.lookup hlookup)
  | inserted t₁ hlookup hedit => exact .tail (.single (.lookup hlookup)) hedit.act
  | changed hedit => exact .single hedit.act
  | erased t₁ hedit herase => exact .tail (.single hedit.act) (.eraseIfEmpty herase)

/-- A sequence of actions is a sequence of the steps that keep the tables sound. -/
theorem Ops.reaches (h : Ops env exact tidy t t') : Reaches env exact t t' := by
  induction h with
  | refl => exact .refl
  | tail _ hop ih => exact ih.trans hop.reaches

/-! ## Bare nodes -/

/-- No node is without entries and children. -/
def NoBare (env : NameTreeEnv) (t : Tables) : Prop :=
  ∀ a node, t.nameTree.get a = some node → PrefixTree.isEmpty (NameTree.config env) node = false

/-- No other node than `nte` is. -/
def NoBareBut (env : NameTreeEnv) (t : Tables) (nte : Nat) : Prop :=
  ∀ a node, t.nameTree.get a = some node → a ≠ nte →
    PrefixTree.isEmpty (NameTree.config env) node = false

theorem get_eq_some (h : t.get nte = some v) :
    ∃ node, t.nameTree.get nte = some node ∧ node.value = v :=
  map_eq_some_iff.1 h

theorem isEmpty_of_hasTableEntries (h : node.value.hasTableEntries = true) :
    PrefixTree.isEmpty (NameTree.config env) node = false := by
  have hentries : (config env).hasEntries node.value = true := h
  rw [PrefixTree.isEmpty, hentries, Bool.not_true, Bool.and_false]

/-- Looking a name up makes its nodes; of these only the last can be bare. -/
theorem NoBare.lookup (hs : NameTree.Sound env t.nameTree) (hb : NoBare env t) {n : Name}
    {prefixLen : Nat} (h : t.lookup env n prefixLen = some (nte, t')) : NoBareBut env t' nte := by
  intro a node hnode ha
  obtain ⟨nameTree, hlookup, rfl⟩ := lookup_eq_some h
  obtain ⟨-, hlookup⟩ := ite_none_right_eq_some.1 hlookup
  obtain ⟨rfl, rfl⟩ := Prod.mk.inj (some.inj hlookup)
  cases hempty : isEmpty (config env) node with
  | false => rfl
  | true =>
    obtain ⟨m, hm, hbare⟩ := hs.linked.isEmpty_lookup hnode ha hempty
    rw [hb a m hm] at hbare
    cases hbare

theorem EditAt.isEmpty (h : EditAt exact t t' nte node v') {a : Nat}
    {m : TreeNode (List UInt8) TableEntries} (hm : t'.nameTree.get a = some m) :
    a = nte ∧ m = { node with value := v' } ∨ a ≠ nte ∧ t.nameTree.get a = some m := by
  obtain ⟨f, htree, rfl⟩ := h.tree
  rw [htree] at hm
  obtain ⟨m₀, hm₀, rfl⟩ := of_get_modify hm
  by_cases ha : a = nte
  · subst ha
    obtain rfl : node = m₀ := mem_unique h.found hm₀
    exact .inl ⟨rfl, if_pos rfl⟩
  · rw [if_neg ha]
    exact .inr ⟨ha, hm₀⟩

/-- **No operation leaves a bare node**, except where `tidy` is not met. -/
theorem Op.noBare (hs : NameTree.Sound env t.nameTree) (hb : NoBare env t)
    (h : Op env exact true t t') : NoBare env t' := by
  intro a m hm
  cases h with
  | @found n prefixLen nte v hlookup hv hentries =>
    by_cases ha : a = nte
    · grind [get_eq_some, isEmpty_of_hasTableEntries]
    · exact hb.lookup hs hlookup a m hm ha
  | inserted t₁ hlookup hedit hentries =>
    rcases hedit.isEmpty hm with ⟨rfl, rfl⟩ | ⟨ha, hm⟩
    · exact isEmpty_of_hasTableEntries hentries
    · exact hb.lookup hs hlookup a m hm ha
  | changed hedit htidy =>
    rcases hedit.isEmpty hm with ⟨rfl, rfl⟩ | ⟨ha, hm⟩
    · exact htidy rfl (hb _ _ hedit.found)
    · exact hb a m hm
  | @erased nte node v' t₁ hedit herase =>
    obtain ⟨top, nameTree, htop, hshrink, rfl⟩ := eraseIfEmpty_eq_some herase
    obtain ⟨f, htree, hf⟩ := hedit.tree
    have hs₁ : NameTree.Sound env t₁.nameTree := by
      rw [htree]
      exact hs.modify nte f
    obtain ⟨nameTree', herase', -, -, hleft⟩ := hs₁.linked.eraseIfEmpty htop
    obtain rfl : nameTree' = nameTree := mem_unique herase' hshrink
    cases hempty : PrefixTree.isEmpty (NameTree.config env) m with
    | false => rfl
    | true =>
      -- it would have been bare before
      obtain ⟨ha, m₁, hm₁, hbare⟩ := hleft a m hm hempty
      rcases hedit.isEmpty hm₁ with ⟨heq, -⟩ | ⟨-, hm₀⟩
      · exact absurd heq ha
      · rw [hb a m₁ hm₀] at hbare
        cases hbare

/-- Actions that keep nodes with entries leave none bare. -/
theorem Ops.noBare (hs : Sound env t) (hb : NoBare env t) (h : Ops env exact true t t') :
    NoBare env t' := by
  induction h with
  | refl => exact hb
  | tail hops hop ih => exact hop.noBare (hs.reaches (Ops.reaches hops)).tree ih

/-! ## The ways to change a node -/

variable {f : TableEntries → TableEntries}

theorem EditAt.of_modify (f : TableEntries → TableEntries) (hnode : t.nameTree.get nte = some node)
    (htree : t'.nameTree = t.nameTree.modify nte f)
    (h : Edit exact t t' node.name node.value (f node.value)) :
    EditAt exact t t' nte node (f node.value) :=
  ⟨hnode, ⟨f, htree, rfl⟩, h⟩

/-- An edit of one node, after which `eraseIfEmpty` is called for it. -/
theorem Op.of_eraseIfEmpty {t₁ : Tables} (t₂ : Tables) (hnode : t.nameTree.get nte = some node)
    (herase : (t.modify nte f).eraseIfEmpty env nte true = some t₁)
    (htree : t₂.nameTree = t.nameTree.modify nte f) (ht' : t' = { t₂ with nameTree := t₁.nameTree })
    (h : Edit exact t t₂ node.name node.value (f node.value)) : Op env exact tidy t t' := by
  refine .erased t₂ (.of_modify f hnode htree h) ?_
  obtain ⟨top, nameTree, -, hshrink, rfl⟩ := eraseIfEmpty_eq_some herase
  rw [modify_nameTree, ← htree] at hshrink
  rw [eraseIfEmpty, hshrink, ht']
  rfl

/-! ## FIB -/

namespace Fib

theorem ops_insert {pfx : Name} (h : insert env t pfx = some (nte, t')) :
    Ops env exact tidy t t' := by
  simp only [insert, bind_eq_bind, bind_eq_some_iff, Prod.exists] at h
  obtain ⟨nte', t₁, hlookup, v, hv, h⟩ := h
  obtain ⟨node, hnode, rfl⟩ := get_eq_some hv
  split at h
  · rename_i hfib
    cases h
    refine .single (.found hlookup hv ?_)
    rw [TableEntries.hasTableEntries, hfib]
    rfl
  · rename_i hfib
    cases h
    rw [Bool.not_eq_true, isSome_eq_false_iff, isNone_iff_eq_none] at hfib
    refine .single (.inserted t₁ hlookup (.of_modify (·.setFibEntry (some [])) hnode rfl
      (.fib (some []) ?_ ?_ rfl rfl)) rfl)
    · intro _
      rw [hfib]
      simp
    · rintro - hops ⟨⟩
      exact valid_nil

theorem nextHops_eq_some {hops : List NextHop} (h : nextHops t nte = some hops) :
    ∃ node, t.nameTree.get nte = some node ∧ node.value.fibEntry = some hops := by
  obtain ⟨v, hv, hfib⟩ := bind_eq_some_iff.1 h
  obtain ⟨node, hnode, rfl⟩ := get_eq_some hv
  exact ⟨node, hnode, hfib⟩

variable {face : FacePtr}

theorem ops_addOrUpdateNextHop {cost : Nat} (h : addOrUpdateNextHop t nte face cost = some t') :
    Ops env exact tidy t t' := by
  simp only [addOrUpdateNextHop, bind_eq_bind, bind_eq_some_iff] at h
  obtain ⟨hops, hhops, h⟩ := h
  obtain ⟨node, hnode, hfib⟩ := nextHops_eq_some hhops
  cases h
  refine .single (.changed (.of_modify (·.setFibEntry _) hnode rfl (.fib _ ?_ ?_ rfl rfl)) ?_)
  · intro _
    rw [hfib]
    rfl
  · simp_all [addNextHop_eq, Valid.faces_nodup, Valid.addOrUpdateNextHop, sortsBy_insertionSort]
  · intro _ _
    exact isEmpty_of_hasTableEntries rfl

/-- `Fib::erase` at a node: the entry goes, and then the node if it is empty. -/
theorem op_eraseAt (hnode : t.nameTree.get nte = some node)
    (hexact : exact = true → node.value.fibEntry.isSome = true)
    (h : eraseAt env t nte true = some t') : Op env exact tidy t t' := by
  simp only [eraseAt, if_true, bind_eq_bind, bind_eq_some_iff] at h
  obtain ⟨t₁, herase, h⟩ := h
  refine .of_eraseIfEmpty { t.modify nte (·.setFibEntry none) with nFib := t.nFib - 1 } hnode herase
    rfl ?_ (.fib none ?_ (fun _ hops hmem => by cases hmem) rfl rfl)
  · obtain ⟨top, nameTree, -, -, rfl⟩ := eraseIfEmpty_eq_some herase
    cases h
    rfl
  · intro hex
    obtain ⟨hops, hfib⟩ := isSome_iff_exists.1 (hexact hex)
    rw [hfib]
    simp

theorem ops_erase (hs : NameTree.Sound env t.nameTree) {pfx : Name}
    (hexact : exact = true →
      (NameTree.findExactMatch env t.nameTree pfx pfx.length).all
        (fun nte => (nextHops t nte).isSome) = true)
    (h : erase env t pfx = some t') : Ops env exact tidy t t' := by
  unfold erase at h
  split at h
  · grind [findExactMatch_eq_some_iff, op_eraseAt, nextHops, get]
  · cases h
    exact .refl

theorem ops_eraseEntry {nte : Option Nat} (h : eraseEntry env t nte = some t') :
    Ops env exact tidy t t' := by
  cases nte with
  | none =>
    cases h
    exact .refl
  | some nte =>
    simp only [eraseEntry, bind_eq_bind, bind_eq_some_iff] at h
    obtain ⟨hops, hhops, h⟩ := h
    obtain ⟨node, hnode, hfib⟩ := nextHops_eq_some hhops
    exact .single (op_eraseAt hnode (fun _ => by rw [hfib]; rfl) h)

/-- The next hop is not the last one, or the node has other entries or children. -/
def keepsNode (env : NameTreeEnv) (t : Tables) (nte : Nat) (face : FacePtr) : Bool :=
  (t.nameTree.get nte).all fun node => node.value.fibEntry.all fun hops =>
    !hops.any (·.face == face) || !(NextHops.removeNextHop hops face).isEmpty ||
      !PrefixTree.isEmpty (NameTree.config env) { node with value := node.value.setFibEntry none }

/-- With its last next hop the FIB entry goes, and the node stays. -/
theorem ops_removeNextHop (htidy : tidy = true → keepsNode env t nte face = true)
    (h : removeNextHop env t nte face = some t') : Ops env exact tidy t t' := by
  simp only [removeNextHop, bind_eq_bind, bind_eq_some_iff] at h
  obtain ⟨hops, hhops, h⟩ := h
  obtain ⟨node, hnode, hfib⟩ := nextHops_eq_some hhops
  rw [keepsNode, hnode, all_some, hfib, all_some] at htidy
  split at h
  · rename_i hany
    rw [hany] at htidy
    have hset : Op env exact tidy t
        (t.modify nte (·.setFibEntry (some (NextHops.removeNextHop hops face)))) := by
      refine .changed (.of_modify (·.setFibEntry _) hnode rfl (.fib _ ?_ ?_ rfl rfl)) ?_
      · intro _
        rw [hfib]
        rfl
      · rintro hvalid hops' ⟨⟩
        exact (hvalid hops (hfib ▸ rfl)).removeNextHop face
      · intro _ _
        exact isEmpty_of_hasTableEntries rfl
    split at h
    · -- the entry goes as well, but not the node
      rename_i hrest
      rw [hrest] at hset htidy
      cases h
      have hnode' : (t.modify nte (·.setFibEntry (some []))).nameTree.get nte =
          some { node with value := node.value.setFibEntry (some []) } := by
        rw [modify_nameTree, get_modify, hnode, map_some, if_pos rfl]
      rw [hrest]
      refine .tail (.single hset)
        (.changed (.of_modify (·.setFibEntry none) hnode' rfl
          (.fib none ?_ (fun _ hops hmem => by cases hmem) rfl rfl)) ?_)
      · intro _
        simp [modify, TableEntries.setFibEntry]
      · intro ht _
        have hused : isEmpty (config env)
            { node with value := node.value.setFibEntry none } = false := by simpa using htidy ht
        exact hused
    · cases h
      exact .single hset
  · cases h
    exact .refl

end Fib

namespace FibManager

variable {face : Option FacePtr} {r : ControlResponse}

theorem ops_addNextHop {pfx : Name} {cost : Nat}
    (h : addNextHop env t pfx face cost = some (r, t')) :
    Ops env exact tidy t t' := by
  unfold addNextHop at h
  split at h
  · cases h
    exact .refl
  · split at h
    · cases h
      exact .refl
    · simp only [bind_eq_bind, bind_eq_some_iff, Prod.exists] at h
      obtain ⟨nte, t₁, hinsert, t₂, hadd, h⟩ := h
      cases h
      exact (Fib.ops_insert hinsert).trans (Fib.ops_addOrUpdateNextHop hadd)

theorem ops_removeNextHop {pfx : Name} (htidy : tidy = true → face.all (fun face =>
      (Fib.findExactMatch env t pfx).all fun nte => Fib.keepsNode env t nte face) = true)
    (h : removeNextHop env t pfx face = some (r, t')) : Ops env exact tidy t t' := by
  simp only [removeNextHop, bind_eq_bind] at h
  split at h
  · rename_i face nte hfind
    rw [all_some, hfind, all_some] at htidy
    obtain ⟨t₁, hremove, h⟩ := bind_eq_some_iff.1 h
    cases h
    exact Fib.ops_removeNextHop htidy hremove
  · cases h
    exact .refl

end FibManager

/-! ## PIT -/

namespace Pit

variable {id : EntryId}

theorem nodeOf_eq_some (h : t.nodeOf id = some nte) :
    ∃ node, t.nameTree.get nte = some node ∧ node.value.pitEntries.any (·.id == id) = true := by
  obtain ⟨cell, hcell, rfl⟩ := map_eq_some_iff.1 h
  have hid := List.find?_some hcell
  exact ⟨cell.2, Heap.get_eq_some_iff.2 (mem_of_find?_eq_some hcell), hid⟩

theorem hasTableEntries_of_pitEntries (h : v.pitEntries ≠ []) : v.hasTableEntries = true := by
  cases hv : v.pitEntries with
  | nil => exact absurd hv h
  | cons x l => simp [TableEntries.hasTableEntries, hv]

theorem ops_insert (hs : NameTree.Sound env t.nameTree) {i : Interest} (hwf : i.name.WellFormed)
    {isNew : Bool} (h : insert env t i = some (id, isNew, t')) : Ops env exact tidy t t' := by
  simp only [insert, bind_eq_bind, bind_eq_some_iff, Prod.exists] at h
  obtain ⟨nte, t₁, hlookup, v, hv, h⟩ := h
  obtain ⟨node, hnode, rfl⟩ := get_eq_some hv
  split at h
  · rename_i x hx
    cases h
    refine .single (.found hlookup hv (hasTableEntries_of_pitEntries ?_))
    exact ne_nil_of_mem (mem_of_find?_eq_some hx)
  · rename_i hx
    cases h
    -- the node that is returned has the name
    obtain ⟨nameTree, htree, rfl⟩ := lookup_eq_some hlookup
    obtain ⟨-, -, node', hnode', hname⟩ := hs.lookup htree
    obtain rfl : node' = node := mem_unique hnode' hnode
    refine .single (.inserted _ hlookup (.of_modify (·.insertPitEntry _) hnode rfl
      (.insertPit i hname hwf hx rfl rfl rfl)) (hasTableEntries_of_pitEntries ?_))
    simp [TableEntries.insertPitEntry]

theorem ops_erase (h : erase env t id = some t') : Ops env exact tidy t t' := by
  simp only [erase, bind_eq_bind, bind_eq_some_iff] at h
  obtain ⟨nte, hnte, t₁, herase, h⟩ := h
  obtain ⟨node, hnode, hid⟩ := nodeOf_eq_some hnte
  refine .single (.of_eraseIfEmpty { t.modify nte (·.erasePitEntry id) with nPit := t.nPit - 1 }
    hnode herase rfl ?_ (.erasePit id hid rfl rfl rfl))
  obtain ⟨top, nameTree, -, -, rfl⟩ := eraseIfEmpty_eq_some herase
  cases h
  rfl

theorem isEmpty_mapPitEntries (g : PitEntry → PitEntry) :
    isEmpty (config env) { node with value := node.value.mapPitEntries g } =
      PrefixTree.isEmpty (NameTree.config env) node := by
  have hentries : (node.value.mapPitEntries g).hasTableEntries = node.value.hasTableEntries := by
    simp [TableEntries.hasTableEntries, TableEntries.mapPitEntries]
  have hconfig : ∀ v, (config env).hasEntries v = v.hasTableEntries := fun _ => rfl
  rw [PrefixTree.isEmpty, PrefixTree.isEmpty, hconfig, hconfig, hentries]

/-- A change of the PIT entries of a node that keeps their identities and Interests. -/
theorem op_mapPitEntries (g : PitEntry → PitEntry) (hnode : t.nameTree.get nte = some node)
    (hg : ∀ x, (g x).id = x.id ∧ (g x).entry.interest = x.entry.interest) (serial : Nat) :
    Op env exact tidy t { t.modify nte (·.mapPitEntries g) with nextSerial := serial } :=
  .changed (.of_modify (·.mapPitEntries g) hnode rfl
      (.updatePit g node.value.measurementsEntry hg rfl rfl rfl))
    fun _ hused => (isEmpty_mapPitEntries g).trans hused

theorem ops_modify {g : PitEntry → PitEntry}
    (hg : ∀ x, (g x).id = x.id ∧ (g x).entry.interest = x.entry.interest) (serial : Nat)
    (h : modify t id g = some t') : Ops env exact tidy t { t' with nextSerial := serial } := by
  simp only [modify, bind_eq_bind, bind_eq_some_iff] at h
  obtain ⟨nte, hnte, h⟩ := h
  obtain ⟨node, hnode, -⟩ := nodeOf_eq_some hnte
  cases h
  refine .single (op_mapPitEntries _ hnode ?_ serial)
  intro x
  split
  · exact hg x
  · exact ⟨rfl, rfl⟩

end Pit

theorem Pit.ops_updateRecords {id : EntryId} {u : RecordUpdate}
    (h : Pit.updateRecords t id u = some t') : Ops env exact tidy t t' := by
  simp only [Pit.updateRecords, bind_eq_bind, bind_eq_some_iff] at h
  obtain ⟨t₁, hmodify, h⟩ := h
  cases h
  exact ops_modify (fun x => x.update_same _ u) _ hmodify

/-! ## Measurements -/

namespace Measurements

variable {now : Int}

/-- The node has an entry, or is given one. -/
theorem getAt_cases (h : getAt t nte now = some t') :
    ∃ node, t.nameTree.get nte = some node ∧
      (t' = t ∧ node.value.measurementsEntry.isSome = true ∨
        ∃ m, EditAt exact t t' nte node (node.value.setMeasurementsEntry (some m))) := by
  simp only [getAt, bind_eq_bind, bind_eq_some_iff] at h
  obtain ⟨v, hv, h⟩ := h
  obtain ⟨node, hnode, rfl⟩ := get_eq_some hv
  refine ⟨node, hnode, ?_⟩
  split at h
  · rename_i hsome
    cases h
    exact .inl ⟨rfl, hsome⟩
  · cases h
    exact .inr ⟨_, .of_modify (·.setMeasurementsEntry _) hnode rfl (.measurements _ rfl rfl rfl)⟩

theorem hasTableEntries_of_measurementsEntry (h : v.measurementsEntry.isSome = true) :
    v.hasTableEntries = true := by
  simp [TableEntries.hasTableEntries, h]

/-- `Measurements::get` makes the entry of a node that has none. -/
theorem ops_getAt (h : getAt t nte now = some t') : Ops env exact tidy t t' := by
  obtain ⟨node, hnode, ⟨rfl, -⟩ | ⟨m, hedit⟩⟩ := getAt_cases h
  · exact .refl
  · refine .single (.changed hedit fun _ _ => isEmpty_of_hasTableEntries ?_)
    exact hasTableEntries_of_measurementsEntry rfl

theorem ops_get {n : Name} (h : get env t n now = some t') : Ops env exact tidy t t' := by
  simp only [get, bind_eq_bind, bind_eq_some_iff, Prod.exists] at h
  obtain ⟨nte, t₁, hlookup, h⟩ := h
  obtain ⟨node, hnode, ⟨rfl, hsome⟩ | ⟨m, hedit⟩⟩ := getAt_cases h
  · have hv : t'.get nte = some node.value := by rw [Tables.get, hnode]; rfl
    exact .single (.found hlookup hv (hasTableEntries_of_measurementsEntry hsome))
  · exact .single (.inserted t₁ hlookup hedit (hasTableEntries_of_measurementsEntry rfl))

theorem ops_getOfFib {nte : Option Nat} (h : getOfFib env t nte now = some t') :
    Ops env exact tidy t t' := by
  cases nte with
  | none => exact ops_get h
  | some nte =>
    simp only [getOfFib, bind_eq_bind, bind_eq_some_iff] at h
    obtain ⟨-, -, h⟩ := h
    exact ops_getAt h

theorem ops_getOfPit {id : EntryId} (h : getOfPit env t id now = some t') :
    Ops env exact tidy t t' := by
  simp only [getOfPit, bind_eq_bind, bind_eq_some_iff] at h
  obtain ⟨nte, -, v, -, x, -, h⟩ := h
  split at h
  · exact ops_get h
  · exact ops_getAt h

theorem ops_getParent (h : getParent t nte now = some t') : Ops env exact tidy t t' := by
  simp only [getParent, bind_eq_bind, bind_eq_some_iff] at h
  obtain ⟨node, -, m, -, h⟩ := h
  split at h
  · cases h
    exact .refl
  · obtain ⟨parent, -, h⟩ := bind_eq_some_iff.1 h
    exact ops_getAt h

theorem op_setMeasurementsEntry (hnode : t.nameTree.get nte = some node) (m : MeasurementsEntry) :
    Op env exact tidy t (t.modify nte (·.setMeasurementsEntry (some m))) :=
  .changed (.of_modify (·.setMeasurementsEntry _) hnode rfl (.measurements _ rfl rfl rfl))
    fun _ _ => isEmpty_of_hasTableEntries (hasTableEntries_of_measurementsEntry rfl)

theorem ops_extendLifetime {lifetime : Int} (h : extendLifetime t nte now lifetime = some t') :
    Ops env exact tidy t t' := by
  simp only [extendLifetime, bind_eq_bind, bind_eq_some_iff] at h
  obtain ⟨v, hv, m, -, h⟩ := h
  obtain ⟨node, hnode, rfl⟩ := get_eq_some hv
  cases h
  exact .single (op_setMeasurementsEntry hnode _)

theorem ops_cleanup (h : cleanup env t nte = some t') : Ops env exact tidy t t' := by
  simp only [cleanup, bind_eq_bind, bind_eq_some_iff] at h
  obtain ⟨v, hv, m, -, t₁, herase, h⟩ := h
  obtain ⟨node, hnode, rfl⟩ := get_eq_some hv
  refine .single (.of_eraseIfEmpty
    { t.modify nte (·.setMeasurementsEntry none) with nMeasurements := t.nMeasurements - 1 }
    hnode herase rfl ?_ (.measurements none rfl rfl rfl))
  obtain ⟨top, nameTree, -, -, rfl⟩ := eraseIfEmpty_eq_some herase
  cases h
  rfl

end Measurements

/-! ## StrategyChoice -/

namespace StrategyChoice

theorem isEmpty_clearStrategyInfo :
    isEmpty (config env) { node with value := node.value.clearStrategyInfo } =
      PrefixTree.isEmpty (NameTree.config env) node := by
  have hentries : node.value.clearStrategyInfo.hasTableEntries = node.value.hasTableEntries := by
    simp [TableEntries.hasTableEntries, TableEntries.clearStrategyInfo, TableEntries.mapPitEntries,
      TableEntries.setMeasurementsEntry]
  have hconfig : ∀ v, (config env).hasEntries v = v.hasTableEntries := fun _ => rfl
  rw [PrefixTree.isEmpty, PrefixTree.isEmpty, hconfig, hconfig, hentries]

theorem op_clearStrategyInfo (hnode : t.nameTree.get nte = some node) :
    Op env exact tidy t (t.modify nte TableEntries.clearStrategyInfo) :=
  .changed (.of_modify TableEntries.clearStrategyInfo hnode rfl
      (.updatePit PitEntry.clearStrategyInfo _ (fun _ => ⟨rfl, rfl⟩) rfl rfl rfl))
    fun _ hused => isEmpty_clearStrategyInfo.trans hused

theorem ops_clear {ntes : List Nat} (h : ∀ nte ∈ ntes, ∃ node, t.nameTree.get nte = some node) :
    Ops env exact tidy t
      (ntes.foldl (fun t nte => t.modify nte TableEntries.clearStrategyInfo) t) := by
  induction ntes generalizing t with
  | nil => exact .refl
  | cons nte ntes ih =>
    obtain ⟨node, hnode⟩ := h nte (.head _)
    refine .head (op_clearStrategyInfo hnode) (ih fun a ha => ?_)
    obtain ⟨m, hm⟩ := h a (.tail _ ha)
    rw [modify_nameTree, get_modify, hm]
    exact ⟨_, rfl⟩

variable {root a : Nat} {pfx : Name}

theorem changes_iff :
    ((changes root a node).1 = true ↔ a ≠ root → hasChoice node = false) ∧
      ((changes root a node).2 = true ↔ a ≠ root → hasChoice node = false) := by
  unfold changes
  split
  · rename_i ha
    simp [ha]
  · grind

/-- **The nodes that are cleared** are those below the changing choice and not below another one. -/
theorem mem_partialEnumerate_iff (hs : NameTree.Sound env t.nameTree)
    (hnode : t.nameTree.get root = some node) (hname : node.name = pfx.key) :
    a ∈ NameTree.partialEnumerate env t.nameTree pfx (changes root) ↔
      ∃ m, t.nameTree.get a = some m ∧ pfx.key <+: m.name ∧
        ∀ b x, t.nameTree.get b = some x → pfx.key <+: x.name → x.name <+: m.name → b ≠ root →
          hasChoice x = false := by
  have hwhole : pfx.key.take pfx.length = pfx.key := take_of_length_le (by rw [key, length_map])
  have hfind : NameTree.findExactMatch env t.nameTree pfx pfx.length = some root :=
    (findExactMatch_eq_some_iff hs).2 ⟨node, hnode, hname.trans hwhole.symm⟩
  rw [NameTree.partialEnumerate, hfind]
  rw [hs.linked.mem_enumerateFrom_iff hs.depth hnode (by omega), hname]
  constructor
  · rintro ⟨m, hm, hpre, hself, habove⟩
    refine ⟨m, hm, hpre, fun b x hx hpx hxm hb => ?_⟩
    by_cases heq : x.name = m.name
    · obtain rfl := hs.linked.name_inj hx hm heq
      obtain rfl := mem_unique hx hm
      exact changes_iff.1.1 hself hb
    · exact changes_iff.2.1 (habove b x hx hpx hxm heq) hb
  · grind [changes_iff]

/-- `changeStrategy` clears the nodes below the prefix, one after the other. -/
theorem ops_changeStrategy (hs : NameTree.Sound env t.nameTree)
    (hnode : t.nameTree.get root = some node) (hname : node.name = pfx.key)
    (oldStrategy newStrategy : InstanceName) :
    Ops env exact tidy t (changeStrategy env t root pfx oldStrategy newStrategy) := by
  unfold changeStrategy
  split
  · exact .refl
  · refine ops_clear fun a ha => ?_
    obtain ⟨m, hm, -⟩ := (mem_partialEnumerate_iff hs hnode hname).1 ha
    exact ⟨m, hm⟩

theorem clearStrategyInfo_idem (v : TableEntries) :
    v.clearStrategyInfo.clearStrategyInfo = v.clearStrategyInfo := by
  simp only [TableEntries.clearStrategyInfo, TableEntries.mapPitEntries,
    TableEntries.setMeasurementsEntry, List.map_map, Option.map_map]
  rfl

theorem get_clear (ntes : List Nat) (a : Nat) :
    (ntes.foldl (fun t nte => t.modify nte TableEntries.clearStrategyInfo) t).nameTree.get a =
      (t.nameTree.get a).map fun m =>
        if a ∈ ntes then { m with value := m.value.clearStrategyInfo } else m := by
  induction ntes generalizing t with
  | nil => simp
  | cons nte ntes ih =>
    rw [List.foldl_cons, ih, modify_nameTree, get_modify, Option.map_map]
    congr 1
    funext m
    by_cases ha : a = nte
    · simp [ha, clearStrategyInfo_idem]
    · simp [ha]

/-- The nodes it visits lose their items, if the two strategies are of different types. -/
theorem get_changeStrategy (root : Nat) (pfx : Name) (oldStrategy newStrategy : InstanceName)
    (a : Nat) :
    (changeStrategy env t root pfx oldStrategy newStrategy).nameTree.get a =
      (t.nameTree.get a).map fun m =>
        if areSameType oldStrategy newStrategy = false ∧
            a ∈ partialEnumerate env t.nameTree pfx (changes root) then
          { m with value := m.value.clearStrategyInfo }
        else m := by
  unfold changeStrategy
  split
  · rename_i hsame
    simp [hsame]
  · rename_i hsame
    rw [get_clear]
    simp [hsame]

theorem exists_get_changeStrategy (hnode : t.nameTree.get a = some node) (root : Nat) (pfx : Name)
    (oldStrategy newStrategy : InstanceName) :
    ∃ node', (changeStrategy env t root pfx oldStrategy newStrategy).nameTree.get a = some node' ∧
      node'.name = node.name := by
  rw [get_changeStrategy, hnode]
  refine ⟨_, rfl, ?_⟩
  split <;> rfl

/-- The node that is found or made for a whole name has that name. -/
theorem lookup_whole (hs : NameTree.Sound env t.nameTree)
    (h : t.lookup env pfx pfx.length = some (nte, t')) :
    NameTree.Sound env t'.nameTree ∧
      ∃ node, t'.nameTree.get nte = some node ∧ node.name = pfx.key := by
  obtain ⟨nameTree, hlookup, rfl⟩ := lookup_eq_some h
  obtain ⟨hs', -, node, hnode, hname⟩ := hs.lookup hlookup
  refine ⟨hs', node, hnode, ?_⟩
  rw [hname, take_of_length_le (by rw [key, length_map])]

theorem hasTableEntries_of_choice (h : v.strategyChoiceEntry.isSome = true) :
    v.hasTableEntries = true := by
  simp [TableEntries.hasTableEntries, h]

theorem ops_insert (hs : NameTree.Sound env t.nameTree) {name : InstanceName}
    (h : insert env t pfx name = some t') : Ops env exact tidy t t' := by
  unfold insert at h
  split at h
  · cases h
    exact .refl
  · simp only [bind_eq_bind, bind_eq_some_iff, Prod.exists] at h
    obtain ⟨nte, t₁, hlookup, v, hv, h⟩ := h
    obtain ⟨hs₁, node, hnode, hname⟩ := lookup_whole hs hlookup
    obtain ⟨node', hnode', rfl⟩ := get_eq_some hv
    obtain rfl : node' = node := mem_unique hnode' hnode
    split at h
    · -- the entry is there already
      rename_i old hold
      have hfound : Op env exact tidy t t₁ :=
        .found hlookup hv (hasTableEntries_of_choice (by rw [hold]; rfl))
      split at h
      · cases h
        exact .single hfound
      · cases h
        obtain ⟨node₂, hnode₂, -⟩ : ∃ node₂,
            (changeStrategy env t₁ nte pfx old.instanceName name).nameTree.get nte = some node₂ ∧
              node₂.name = _ := exists_get_changeStrategy hnode _ _ _ _
        refine .head hfound ((ops_changeStrategy hs₁ hnode hname old.instanceName name).tail ?_)
        refine .changed (.of_modify (·.setStrategyChoiceEntry _) hnode₂ rfl
          (.choice _ (fun h => by cases h) rfl rfl rfl)) fun _ _ => ?_
        exact isEmpty_of_hasTableEntries (hasTableEntries_of_choice rfl)
    · -- a new entry
      simp only [bind_eq_some_iff] at h
      obtain ⟨old, -, h⟩ := h
      cases h
      let new : Instance := ⟨t₁.nextPtr, name⟩
      let t₂ : Tables := { t₁.modify nte (·.setStrategyChoiceEntry (some new)) with
        nStrategyChoice := t₁.nStrategyChoice + 1
        nextPtr := t₁.nextPtr + 1 }
      have hset : EditAt exact t₁ t₂ nte node' (node'.value.setStrategyChoiceEntry (some new)) :=
        .of_modify (·.setStrategyChoiceEntry (some new)) hnode rfl
          (.choice _ (fun h => by cases h) rfl rfl rfl)
      have hs₂ : NameTree.Sound env t₂.nameTree :=
        hs₁.modify nte (·.setStrategyChoiceEntry (some new))
      have hnode₂ : t₂.nameTree.get nte =
          some { node' with value := node'.value.setStrategyChoiceEntry (some new) } := by
        show (t₁.nameTree.modify nte (·.setStrategyChoiceEntry (some new))).get nte = _
        rw [get_modify, hnode, map_some, if_pos rfl]
      exact .head (.inserted t₁ hlookup hset (hasTableEntries_of_choice rfl))
        (ops_changeStrategy hs₂ hnode₂ hname old.instanceName name)

theorem ops_erase (hs : NameTree.Sound env t.nameTree) (h : erase env t pfx = some t') :
    Ops env exact tidy t t' := by
  obtain ⟨hpfx, h⟩ := ite_none_left_eq_some.1 h
  split at h
  · cases h
    exact .refl
  · rename_i nte hfind
    split at h
    · cases h
      exact .refl
    · rename_i old hold
      simp only [bind_eq_bind, bind_eq_some_iff] at h
      obtain ⟨parent, -, t₁, herase, h⟩ := h
      obtain ⟨node, hnode, hname⟩ := (findExactMatch_eq_some_iff hs).1 hfind
      have hkey : node.name = pfx.key := by
        rw [hname, take_of_length_le (by rw [key, length_map])]
      obtain ⟨node₂, hnode₂, hname₂⟩ := exists_get_changeStrategy hnode nte pfx old.instanceName
        parent.instanceName
      refine (ops_changeStrategy hs hnode hkey old.instanceName parent.instanceName).tail
        (.of_eraseIfEmpty { (changeStrategy env t nte pfx old.instanceName
            parent.instanceName).modify nte (·.setStrategyChoiceEntry none) with
          nStrategyChoice := (changeStrategy env t nte pfx old.instanceName
            parent.instanceName).nStrategyChoice - 1 } hnode₂ herase rfl ?_
          (.choice none ?_ rfl rfl rfl))
      · obtain ⟨top, nameTree, -, -, rfl⟩ := eraseIfEmpty_eq_some herase
        cases h
        rfl
      · -- the root keeps its choice
        intro _ hroot
        rw [hname₂, hkey, key, map_eq_nil_iff] at hroot
        exact hpfx hroot

end StrategyChoice

end Tables

end NdnMulticast.Nfd
