/-
  What the operations on the tables are made of: nodes are looked up or erased, and the
  entries of one node change (`Act`).

  The flag `exact` says that there was a FIB entry to erase, which `Fib::erase` by name does
  not check.
-/

import NdnMulticast.Nfd.Tables

namespace NdnMulticast.Nfd

open Lib Ndn List Option PrefixTree Name Entry Prod PitEntry NextHops Nat

/-- What distinguishes PIT entries: the encoding of the name, and the selectors. -/
def PitEntry.selectors (x : PitEntry) : NameKey × Bool × Bool :=
  (x.entry.name.key, x.entry.interest.canBePrefix, x.entry.interest.mustBeFresh)

/-- What distinguishes the PIT entry of an Interest. -/
def selectorsOf (i : Interest) : NameKey × Bool × Bool := (i.name.key, i.canBePrefix, i.mustBeFresh)

theorem nteDepth_le_length (n : Name) : nteDepth n ≤ n.length :=
  le_trans (min_le_left _ _) (sub_le _ _)

theorem Entry.length_node (e : Entry) : e.node.length = nteDepth e.name := by
  rw [node, length_take, Name.key, length_map]
  exact min_eq_left (nteDepth_le_length _)

namespace Tables

/-- A change of the entries `v` of the node `k`, together with the counters. -/
inductive Edit (exact : Bool) (t t' : Tables) (k : NameKey) (v : TableEntries) :
    TableEntries → Prop where
  | fib (fibEntry : Option (List NextHop)) :
      (exact = true → t'.nFib + .ofNat v.fibEntry.toList.length =
        t.nFib + .ofNat fibEntry.toList.length) →
      ((∀ hops ∈ v.fibEntry, NextHops.Valid hops) → ∀ hops ∈ fibEntry, NextHops.Valid hops) →
      t'.nPit = t.nPit → t'.nextEntryId = t.nextEntryId →
      Edit exact t t' k v (v.setFibEntry fibEntry)
  | insertPit (i : Interest) :
      k = i.name.key.take (nteDepth i.name) → i.name.WellFormed → Pit.matching v i = none →
      t'.nPit = t.nPit + 1 → t'.nextEntryId = t.nextEntryId + 1 → t'.nFib = t.nFib →
      Edit exact t t' k v (v.insertPitEntry (.ofInterest t.nextEntryId i))
  | erasePit (id : EntryId) :
      v.pitEntries.any (·.id == id) = true →
      t'.nPit = t.nPit - 1 → t'.nextEntryId = t.nextEntryId → t'.nFib = t.nFib →
      Edit exact t t' k v (v.erasePitEntry id)
  | updatePit (f : PitEntry → PitEntry) (measurementsEntry : Option MeasurementsEntry) :
      (∀ x, (f x).id = x.id ∧ (f x).entry.interest = x.entry.interest) →
      t'.nPit = t.nPit → t'.nextEntryId = t.nextEntryId → t'.nFib = t.nFib →
      Edit exact t t' k v ((v.mapPitEntries f).setMeasurementsEntry measurementsEntry)
  | measurements (measurementsEntry : Option MeasurementsEntry) :
      t'.nPit = t.nPit → t'.nextEntryId = t.nextEntryId → t'.nFib = t.nFib →
      Edit exact t t' k v (v.setMeasurementsEntry measurementsEntry)
  | choice (strategyChoiceEntry : Option Instance) :
      (strategyChoiceEntry = none → k ≠ []) →
      t'.nPit = t.nPit → t'.nextEntryId = t.nextEntryId → t'.nFib = t.nFib →
      Edit exact t t' k v (v.setStrategyChoiceEntry strategyChoiceEntry)

/-- One action of an operation. -/
inductive Act (env : NameTreeEnv) (exact : Bool) (t t' : Tables) : Prop where
  | lookup {n : Name} {prefixLen nte : Nat} :
      t.lookup env n prefixLen = some (nte, t') → Act env exact t t'
  | eraseIfEmpty {nte : Nat} {canEraseAncestors : Bool} :
      t.eraseIfEmpty env nte canEraseAncestors = some t' → Act env exact t t'
  | edit {nte : Nat} {node : TreeNode (List UInt8) TableEntries} {f : TableEntries → TableEntries} :
      t.nameTree.get nte = some node → t'.nameTree = t.nameTree.modify nte f →
      Edit exact t t' node.name node.value (f node.value) → Act env exact t t'

/-- A sequence of actions. -/
abbrev Reaches (env : NameTreeEnv) (exact : Bool) : Tables → Tables → Prop :=
  Relation.ReflTransGen (Act env exact)

/-! ## The PIT entries -/

/-- All PIT entries. -/
def pits (t : Tables) : List PitEntry := t.nameTree.collect TableEntries.pitEntries

/-- The PIT entries of a node hang from it. -/
def Placed (k : NameKey) (v : TableEntries) : Prop := ∀ x ∈ v.pitEntries, x.entry.node = k

/-- What every operation keeps. -/
structure Sound (env : NameTreeEnv) (t : Tables) : Prop where
  tree : NameTree.Sound env t.nameTree
  /-- The default strategy is there. -/
  root : ∃ a node, t.nameTree.get a = some node ∧ node.name = [] ∧
    node.value.strategyChoiceEntry.isSome = true
  nextHops : ∀ a node, t.nameTree.get a = some node → ∀ hops ∈ node.value.fibEntry,
    NextHops.Valid hops
  /-- A PIT entry hangs from the node of its name. -/
  placed : ∀ a node, t.nameTree.get a = some node → Placed node.name node.value
  wellFormed : ∀ x ∈ t.pits, x.entry.name.WellFormed
  ids_nodup : (t.pits.map PitEntry.id).Nodup
  id_lt : ∀ x ∈ t.pits, x.id < t.nextEntryId
  selectors_nodup : (t.pits.map PitEntry.selectors).Nodup
  nPit : t.nPit = UInt64.ofNat t.pits.length

variable {env : NameTreeEnv} {exact : Bool} {t t' : Tables} {nte : Nat} {n : Name} {prefixLen : Nat}

theorem lookup_eq_some (h : t.lookup env n prefixLen = some (nte, t')) :
    ∃ nameTree, NameTree.lookup env t.nameTree n prefixLen = some (nte, nameTree) ∧
      t' = { t with nameTree } := by
  obtain ⟨⟨nte', nameTree⟩, hlookup, heq⟩ := map_eq_some_iff.1 h
  cases heq
  exact ⟨nameTree, hlookup, rfl⟩

variable {canEraseAncestors : Bool} {v v' : TableEntries} {id : EntryId} {k : NameKey}
  {x : PitEntry} {i : Interest}

theorem eraseIfEmpty_eq_some (h : t.eraseIfEmpty env nte canEraseAncestors = some t') :
    ∃ node nameTree, t.nameTree.get nte = some node ∧
      t.nameTree.eraseIfEmpty (NameTree.config env) nte canEraseAncestors = some nameTree ∧
      t' = { t with nameTree } := by
  obtain ⟨nameTree, herase, rfl⟩ := map_eq_some_iff.1 h
  cases hnode : t.nameTree.get nte with
  | none =>
    rw [PrefixTree.eraseIfEmpty, hnode] at herase
    cases herase
  | some node => exact ⟨node, nameTree, rfl, herase, rfl⟩

theorem Act.tree (hs : NameTree.Sound env t.nameTree) (h : Act env exact t t') :
    NameTree.Sound env t'.nameTree := by
  cases h with
  | lookup h =>
    obtain ⟨nameTree, hlookup, rfl⟩ := lookup_eq_some h
    exact (hs.lookup hlookup).1
  | eraseIfEmpty h =>
    obtain ⟨node, nameTree, hnode, herase, rfl⟩ := eraseIfEmpty_eq_some h
    obtain ⟨nameTree', herase', hsound, -⟩ := hs.eraseIfEmpty hnode _
    obtain rfl : nameTree' = nameTree := mem_unique herase' herase
    exact hsound
  | edit hnode htree hedit =>
    rw [htree]
    exact hs.modify _ _

/-- What holds of every node keeps doing so, if it holds of a node without entries and the changes
    of one node keep it. -/
theorem Act.forall_node {P : NameKey → TableEntries → Prop} (hnone : ∀ k, P k .none)
    (hedit : ∀ {k v v'}, Edit exact t t' k v v' → P k v → P k v')
    (hs : NameTree.Sound env t.nameTree)
    (hP : ∀ a node, t.nameTree.get a = some node → P node.name node.value)
    (h : Act env exact t t') :
    ∀ a node, t'.nameTree.get a = some node → P node.name node.value := by
  intro a node hnode
  cases h with
  | lookup h =>
    obtain ⟨nameTree, hlookup, rfl⟩ := lookup_eq_some h
    obtain ⟨-, hgrows, -⟩ := hs.lookup hlookup
    cases hold : t.nameTree.get a with
    | some m =>
      obtain ⟨m', hm', hname, -, hvalue, -⟩ := hgrows.old hold
      obtain rfl : m' = node := mem_unique hm' hnode
      rw [hname, hvalue]
      exact hP a m hold
    | none =>
      rw [(hgrows.new hnode hold).1]
      exact hnone _
  | eraseIfEmpty h =>
    obtain ⟨top, nameTree, htop, herase, rfl⟩ := eraseIfEmpty_eq_some h
    obtain ⟨nameTree', herase', -, hshrinks⟩ := hs.eraseIfEmpty htop _
    obtain rfl : nameTree' = nameTree := mem_unique herase' herase
    obtain ⟨m, hm, hname, -, hvalue, -⟩ := hshrinks.kept hnode
    rw [hname, hvalue]
    exact hP a m hm
  | @edit nte old f hold htree h =>
    rw [htree] at hnode
    obtain ⟨m, hm, rfl⟩ := of_get_modify hnode
    split
    · grind
    · exact hP a m hm

theorem erasePitEntry_others :
    (v.erasePitEntry id).fibEntry = v.fibEntry ∧
      (v.erasePitEntry id).measurementsEntry = v.measurementsEntry ∧
      (v.erasePitEntry id).strategyChoiceEntry = v.strategyChoiceEntry := by
  unfold TableEntries.erasePitEntry
  split <;> exact ⟨rfl, rfl, rfl⟩

theorem Edit.nextHops (h : Edit exact t t' k v v') (hv : ∀ hops ∈ v.fibEntry, Valid hops) :
    ∀ hops ∈ v'.fibEntry, Valid hops := by
  cases h with
  | fib fibEntry _ hvalid => exact hvalid hv
  | insertPit | updatePit | measurements | choice => exact hv
  | erasePit id =>
    rw [erasePitEntry_others.1]
    exact hv

theorem Edit.hasChoice (h : Edit exact t t' k v v') (hroot : k = [])
    (hv : v.strategyChoiceEntry.isSome = true) : v'.strategyChoiceEntry.isSome = true := by
  cases h with
  | fib | insertPit | updatePit | measurements => exact hv
  | erasePit id =>
    rw [erasePitEntry_others.2.2]
    exact hv
  | choice choice hchoice =>
    cases choice with
    | none => exact absurd hroot (hchoice rfl)
    | some _ => rfl

theorem Act.root (hs : Sound env t) (h : Act env exact t t') :
    ∃ a node, t'.nameTree.get a = some node ∧ node.name = [] ∧
      node.value.strategyChoiceEntry.isSome = true := by
  obtain ⟨a, root, hroot, hname, hchoice⟩ := hs.root
  cases h with
  | lookup h =>
    obtain ⟨nameTree, hlookup, rfl⟩ := lookup_eq_some h
    obtain ⟨-, hgrows, -⟩ := hs.tree.lookup hlookup
    obtain ⟨root', hroot', hname', -, hvalue, -⟩ := hgrows.old hroot
    exact ⟨a, root', hroot', hname'.trans hname, by rw [hvalue, hchoice]⟩
  | eraseIfEmpty h =>
    obtain ⟨top, nameTree, htop, herase, rfl⟩ := eraseIfEmpty_eq_some h
    obtain ⟨nameTree', herase', -, hshrinks⟩ := hs.tree.eraseIfEmpty htop _
    obtain rfl : nameTree' = nameTree := mem_unique herase' herase
    cases hleft : PrefixTree.get nameTree' a with
    | none =>
      -- a node with a choice does not go
      have hempty : root.value.hasTableEntries = false := (hshrinks.gone hroot hleft).1
      rw [TableEntries.eq_none_of_hasTableEntries hempty] at hchoice
      cases hchoice
    | some root' =>
      obtain ⟨m, hm, hname', -, hvalue, -⟩ := hshrinks.kept hleft
      obtain rfl : root = m := mem_unique hroot hm
      exact ⟨a, root', hleft, hname'.trans hname, by rw [hvalue, hchoice]⟩
  | @edit nte old f hold htree h =>
    have hroot' : t'.nameTree.get a =
        some (if a = nte then { root with value := f root.value } else root) := by
      rw [htree, get_modify, hroot, map_some]
    refine ⟨a, _, hroot', ?_⟩
    split
    · grind [Edit.hasChoice]
    · exact ⟨hname, hchoice⟩

/-! ## How the PIT entries change -/

theorem perm_erasePitEntry (h : v.pitEntries.any (·.id == id) = true) :
    ∃ x ∈ v.pitEntries, x.id = id ∧ v.pitEntries.Perm (x :: (v.erasePitEntry id).pitEntries) := by
  have hlt : v.pitEntries.findIdx (·.id == id) < v.pitEntries.length :=
    findIdx_lt_length.2 (any_eq_true.1 h)
  have hx := findIdx_getElem (w := hlt)
  obtain ⟨last, hlast⟩ : ∃ last, v.pitEntries.getLast? = some last := by
    cases hlast : v.pitEntries.getLast? with
    | some last => exact ⟨last, rfl⟩
    | none =>
      rw [getLast?_eq_none_iff.1 hlast] at hlt
      cases hlt
  refine ⟨_, getElem_mem hlt, by simpa using hx, ?_⟩
  simp only [TableEntries.erasePitEntry, hlast]
  exact perm_swapRemove (getElem?_eq_getElem hlt) hlast

theorem Edit.placed (h : Edit exact t t' k v v') (hv : Placed k v) : Placed k v' := by
  cases h with
  | fib | measurements | choice => exact hv
  | insertPit i hk =>
    intro x hx
    rcases mem_append.1 hx with hx | hx
    · exact hv x hx
    · rw [mem_singleton.1 hx]
      exact hk.symm
  | erasePit id hid =>
    intro x hx
    obtain ⟨y, -, -, hperm⟩ := perm_erasePitEntry hid
    exact hv x (hperm.mem_iff.2 (.tail _ hx))
  | updatePit f _ hf =>
    intro x' hx'
    obtain ⟨x, hx, rfl⟩ := mem_map.1 hx'
    rw [← hv x hx, node, node, name, (hf x).2]
    rfl

/-- What an action does to all the PIT entries. -/
inductive PitChange (t t' : Tables) : Prop where
  | updated (f : PitEntry → PitEntry) (some others : List PitEntry) :
      (∀ x, (f x).id = x.id ∧ (f x).entry.interest = x.entry.interest) →
      t.pits.Perm (some ++ others) → t'.pits.Perm (some.map f ++ others) →
      t'.nPit = t.nPit → t'.nextEntryId = t.nextEntryId → PitChange t t'
  | inserted (i : Interest) :
      i.name.WellFormed → (PitEntry.ofInterest t.nextEntryId i).selectors ∉ t.pits.map
        (·.selectors) →
      t'.pits.Perm (.ofInterest t.nextEntryId i :: t.pits) →
      t'.nPit = t.nPit + 1 → t'.nextEntryId = t.nextEntryId + 1 → PitChange t t'
  | erased (x : PitEntry) :
      t.pits.Perm (x :: t'.pits) → t'.nPit = t.nPit - 1 → t'.nextEntryId = t.nextEntryId →
      PitChange t t'

theorem pits_lookup (h : t.lookup env n prefixLen = some (nte, t')) : t'.pits = t.pits := by
  obtain ⟨nameTree, hlookup, rfl⟩ := lookup_eq_some h
  obtain ⟨-, hlookup⟩ := ite_none_right_eq_some.1 hlookup
  obtain rfl := congrArg snd (some.inj hlookup)
  exact collect_lookup rfl _

theorem pits_eraseIfEmpty (h : t.eraseIfEmpty env nte canEraseAncestors = some t') :
    t'.pits = t.pits := by
  obtain ⟨node, nameTree, -, herase, rfl⟩ := eraseIfEmpty_eq_some h
  refine collect_eraseIfEmpty ?_ herase
  intro v hv
  rw [TableEntries.eq_none_of_hasTableEntries hv]
  rfl

theorem mem_pits_iff :
    x ∈ t.pits ↔ ∃ a node, t.nameTree.get a = some node ∧ x ∈ node.value.pitEntries :=
  mem_collect_iff

theorem nteDepth_eq_of_equals {m n : Name} (h : m.equals n = true) : nteDepth m = nteDepth n := by
  rw [equals_iff] at h
  have hdigest : ∀ n : Name, n.getLast?.any Component.isImplicitSha256Digest =
      (n.map fun c => (c.type, c.value)).getLast?.any fun x =>
        x.1 == Tlv.implicitSha256DigestComponent && x.2.length == ComponentType.digestSize := by
    intro n
    rw [getLast?_map, Option.any_map]
    rfl
  have hlen : m.length = n.length := by simpa using congrArg length h
  rw [nteDepth, nteDepth, hdigest m, hdigest n, h, hlen]

theorem equals_of_key_eq {m n : Name} (hm : m.WellFormed) (hn : n.WellFormed) (h : m.key = n.key) :
    m.equals n = true :=
  equals_of_compare_eq hm hn ((compare_eq_iff hm hn).2 h)

theorem canMatch_iff {e : Entry} (he : e.name.WellFormed) (hi : i.name.WellFormed) (k : Nat) :
    e.canMatch i k = true ↔ e.name.key.drop k = i.name.key.drop k ∧
      e.interest.canBePrefix = i.canBePrefix ∧ e.interest.mustBeFresh = i.mustBeFresh := by
  have hdrop : ∀ {n : Name}, n.WellFormed → Name.WellFormed (n.drop k) :=
    fun hn c hc => hn c (mem_of_mem_drop hc)
  rw [canMatch, Bool.and_eq_true, Bool.and_eq_true, beq_iff_eq, beq_iff_eq, beq_iff_eq,
    compare_eq_iff (hdrop he) (hdrop hi), map_drop, map_drop, and_assoc]
  rfl

section

variable {i : Interest} {x : PitEntry} {node : TreeNode (List UInt8) TableEntries}

theorem selectors_eq_iff (hx : x.entry.node = i.name.key.take (nteDepth i.name))
    (hwf : x.entry.name.WellFormed) (hi : i.name.WellFormed) :
    x.entry.canMatch i (nteDepth i.name) = true ↔ x.selectors = selectorsOf i := by
  rw [canMatch_iff hwf hi, selectors, selectorsOf, Prod.mk.injEq, Prod.mk.injEq]
  refine and_congr_left fun _ => ⟨fun hdrop => ?_, fun hkey => by rw [hkey]⟩
  have hdepth : nteDepth x.entry.name = nteDepth i.name := by
    have hlen := congrArg length hx
    rwa [length_node, length_take, Name.key, length_map, min_eq_left (nteDepth_le_length _)] at hlen
  rw [node, hdepth] at hx
  rw [← take_append_drop (nteDepth i.name) x.entry.name.key, hx, hdrop, take_append_drop]

theorem node_of_selectors (hwf : x.entry.name.WellFormed) (hi : i.name.WellFormed)
    (h : x.selectors = selectorsOf i) : x.entry.node = i.name.key.take (nteDepth i.name) := by
  have hkey : x.entry.name.key = i.name.key := congrArg fst h
  rw [node, nteDepth_eq_of_equals (equals_of_key_eq hwf hi hkey), hkey]

theorem Sound.eq_of_selectors (hs : Sound env t) {y : PitEntry} (hx : x ∈ t.pits) (hy : y ∈ t.pits)
    (h : x.selectors = y.selectors) : x = y :=
  inj_on_of_nodup_map hs.selectors_nodup hx hy h

theorem of_matching {v : TableEntries} (h : Pit.matching v i = some x) :
    x ∈ v.pitEntries ∧ x.entry.canMatch i (nteDepth i.name) = true := by
  have hcan := find?_some h
  exact ⟨mem_of_find?_eq_some h, hcan⟩

theorem Sound.matching_eq_some_iff (hs : Sound env t) (hnode : t.nameTree.get nte = some node)
    (hname : node.name = i.name.key.take (nteDepth i.name)) (hi : i.name.WellFormed) :
    Pit.matching node.value i = some x ↔ x ∈ t.pits ∧ x.selectors = selectorsOf i := by
  have hhere : ∀ y ∈ node.value.pitEntries, y ∈ t.pits ∧
      (y.entry.canMatch i (nteDepth i.name) = true ↔ y.selectors = selectorsOf i) := by
    intro y hy
    have hmem : y ∈ t.pits := mem_pits_iff.2 ⟨nte, node, hnode, hy⟩
    have hplace := (hs.placed nte node hnode y hy).trans hname
    exact ⟨hmem, selectors_eq_iff hplace (hs.wellFormed y hmem) hi⟩
  constructor
  · grind [of_matching]
  rintro ⟨hmem, hselectors⟩
  obtain ⟨b, m, hm, hxm⟩ := mem_pits_iff.1 hmem
  have hsame : m.name = node.name := by
    rw [← hs.placed b m hm x hxm, hname, node_of_selectors (hs.wellFormed x hmem) hi hselectors]
  obtain rfl := hs.tree.linked.name_inj hm hnode hsame
  obtain rfl := mem_unique hm hnode
  cases hfind : Pit.matching m.value i with
  | none =>
    have hnot := find?_eq_none.1 hfind x hxm
    exact absurd ((hhere x hxm).2.2 hselectors) hnot
  | some y =>
    obtain ⟨hy, hcan⟩ := of_matching hfind
    obtain ⟨hymem, hiff⟩ := hhere y hy
    rw [hs.eq_of_selectors hmem hymem (hselectors.trans (hiff.1 hcan).symm)]

end

theorem Sound.selectors_notMem (hs : Sound env t) {node : TreeNode (List UInt8) TableEntries}
    (hnode : t.nameTree.get nte = some node) (hname : node.name = i.name.key.take (nteDepth i.name))
    (hwf : i.name.WellFormed) (hnew : Pit.matching node.value i = none) (id : EntryId) :
    (PitEntry.ofInterest id i).selectors ∉ t.pits.map PitEntry.selectors := by
  intro hmem
  obtain ⟨x, hx, hselectors⟩ := mem_map.1 hmem
  have hmatch : Pit.matching node.value i = some x :=
    (hs.matching_eq_some_iff hnode hname hwf).2 ⟨hx, hselectors⟩
  rw [hnew] at hmatch
  cases hmatch

theorem Act.pitChange (hs : Sound env t) (h : Act env exact t t') : PitChange t t' := by
  cases h with
  | lookup h =>
    obtain ⟨nameTree, -, rfl⟩ := lookup_eq_some h
    exact .updated id [] t.pits (fun _ => ⟨rfl, rfl⟩) (.refl _) (.of_eq (pits_lookup h)) rfl rfl
  | eraseIfEmpty h =>
    obtain ⟨node, nameTree, -, -, rfl⟩ := eraseIfEmpty_eq_some h
    exact .updated id [] t.pits (fun _ => ⟨rfl, rfl⟩) (.refl _)
      (.of_eq (pits_eraseIfEmpty h)) rfl rfl
  | @edit nte node f hnode htree h =>
    obtain ⟨others, hold, hnew⟩ := collect_modify TableEntries.pitEntries f hnode
    rw [← htree] at hnew
    generalize f node.value = v' at h hnew
    -- the other entries stay
    have hkept : v'.pitEntries = node.value.pitEntries → t'.nPit = t.nPit →
        t'.nextEntryId = t.nextEntryId → PitChange t t' := by
      intro hsame hcount hnext
      rw [hsame] at hnew
      exact .updated id [] t.pits (fun _ => ⟨rfl, rfl⟩) (.refl _) (hnew.trans hold.symm)
        hcount hnext
    cases h with
    | fib _ _ _ hcount hnext | measurements _ hcount hnext | choice _ _ hcount hnext =>
      exact hkept rfl hcount hnext
    | insertPit i hname hwf hfresh hcount hnext =>
      refine .inserted i hwf (hs.selectors_notMem hnode hname hwf hfresh _) ?_ hcount hnext
      refine hnew.trans (Perm.trans ?_ (hold.symm.cons _))
      simp only [TableEntries.insertPitEntry, append_assoc]
      exact perm_middle
    | erasePit id hid hcount hnext =>
      obtain ⟨x, -, -, hperm⟩ := perm_erasePitEntry hid
      exact .erased x (hold.trans ((hperm.append_right _).trans (hnew.symm.cons x))) hcount hnext
    | updatePit f _ hf hcount hnext => exact .updated f _ others hf hold hnew hcount hnext

theorem PitChange.mem (h : PitChange t t') (hx : x ∈ t'.pits) :
    (∃ y ∈ t.pits, x.id = y.id ∧ x.entry.interest = y.entry.interest) ∨
      x.id = t.nextEntryId ∧ t'.nextEntryId = t.nextEntryId + 1 ∧ x.entry.name.WellFormed := by
  cases h with
  | updated f some others hf hold hnew => grind
  | inserted i hwf _ hnew _ hnext =>
    rcases mem_cons.1 (hnew.mem_iff.1 hx) with rfl | hx
    · exact .inr ⟨rfl, hnext, hwf⟩
    · exact .inl ⟨x, hx, rfl, rfl⟩
  | erased y hold => grind

theorem PitChange.nextEntryId_le (h : PitChange t t') : t.nextEntryId ≤ t'.nextEntryId := by
  cases h with
  | updated f some others hf hold hnew hcount hnext | erased x hold hcount hnext =>
    exact le_of_eq hnext.symm
  | inserted i hwf hfresh hnew hcount hnext => exact hnext ▸ le_succ _

/-- An update does not show in what is read off the identity and the Interest. -/
theorem perm_map_of_updated {β : Type} {f : PitEntry → PitEntry} {some others : List PitEntry}
    (hf : ∀ x, (f x).id = x.id ∧ (f x).entry.interest = x.entry.interest)
    (hold : t.pits.Perm (some ++ others)) (hnew : t'.pits.Perm (some.map f ++ others))
    (g : EntryId → Interest → β) :
    (t'.pits.map fun x => g x.id x.entry.interest).Perm
      (t.pits.map fun x => g x.id x.entry.interest) := by
  refine (hnew.map _).trans (List.Perm.trans (.of_eq ?_) (hold.map _).symm)
  rw [List.map_append, List.map_append, List.map_map]
  congr 1
  refine List.map_congr_left fun x _ => ?_
  rw [Function.comp_apply, (hf x).1, (hf x).2]

/-- **The actions keep the tables sound.** -/
theorem Sound.act (hs : Sound env t) (h : Act env exact t t') : Sound env t' where
  tree := h.tree hs.tree
  root := h.root hs
  nextHops := h.forall_node (P := fun _ v => ∀ hops ∈ v.fibEntry, Valid hops)
    (fun k hops hmem => by cases hmem) Edit.nextHops hs.tree hs.nextHops
  placed := h.forall_node (P := Placed) (fun k x hx => by cases hx) Edit.placed hs.tree hs.placed
  wellFormed := by
    intro x hx
    rcases (h.pitChange hs).mem hx with ⟨y, hy, -, hinterest⟩ | ⟨-, -, hwf⟩
    · rw [name, hinterest]
      exact hs.wellFormed y hy
    · exact hwf
  ids_nodup := by
    cases h.pitChange hs with
    | updated f some others hf hold hnew =>
      exact (perm_map_of_updated hf hold hnew fun id _ => id).nodup_iff.2 hs.ids_nodup
    | inserted i _ _ hnew =>
      refine (hnew.map PitEntry.id).nodup_iff.2 (nodup_cons.2 ⟨?_, hs.ids_nodup⟩)
      intro hmem
      obtain ⟨x, hx, hid⟩ := mem_map.1 hmem
      exact absurd (hs.id_lt x hx) (by rw [hid]; exact lt_irrefl _)
    | erased x hold => grind [ids_nodup]
  id_lt := by
    intro x hx
    rcases (h.pitChange hs).mem hx with ⟨y, hy, hid, -⟩ | ⟨hid, hnext, -⟩
    · rw [hid]
      exact lt_of_lt_of_le (hs.id_lt y hy) (h.pitChange hs).nextEntryId_le
    · rw [hid, hnext]
      exact lt_succ_self _
  selectors_nodup := by
    cases h.pitChange hs with
    | updated f some others hf hold hnew =>
      exact (perm_map_of_updated hf hold hnew fun _ i =>
        (i.name.key, i.canBePrefix, i.mustBeFresh)).nodup_iff.2 hs.selectors_nodup
    | inserted | erased => grind [selectors_nodup]
  nPit := by
    cases h.pitChange hs with
    | updated f some others hf hold hnew hcount =>
      have hlen := (perm_map_of_updated hf hold hnew fun _ _ => ()).length_eq
      rw [length_map, length_map] at hlen
      rw [hcount, hs.nPit, hlen]
    | inserted i _ _ hnew hcount =>
      rw [hcount, hs.nPit, hnew.length_eq, length_cons, UInt64.ofNat_add]
      rfl
    | erased x hold hcount =>
      rw [hcount, hs.nPit, hold.length_eq, length_cons, UInt64.ofNat_add]
      exact UInt64.add_sub_cancel _ _

theorem Sound.reaches (hs : Sound env t) (h : Reaches env exact t t') : Sound env t' := by
  induction h with
  | refl => exact hs
  | tail _ hact ih => exact ih.act hact

/-! ## How the FIB entries change -/

/-- The next hops of all FIB entries. -/
def fibs (t : Tables) : List (List NextHop) := t.nameTree.collect fun v => v.fibEntry.toList

theorem Act.nFib (h : Act env true t t') :
    t'.nFib + .ofNat t.fibs.length = t.nFib + .ofNat t'.fibs.length := by
  cases h with
  | lookup h =>
    obtain ⟨nameTree, hlookup, rfl⟩ := lookup_eq_some h
    obtain ⟨-, hlookup⟩ := ite_none_right_eq_some.1 hlookup
    obtain rfl := congrArg snd (some.inj hlookup)
    rw [fibs, fibs, collect_lookup rfl]
  | eraseIfEmpty h =>
    obtain ⟨node, nameTree, -, herase, rfl⟩ := eraseIfEmpty_eq_some h
    rw [fibs, fibs, collect_eraseIfEmpty ?_ herase]
    intro v hv
    rw [TableEntries.eq_none_of_hasTableEntries hv]
    rfl
  | @edit nte node f hnode htree h =>
    obtain ⟨others, hold, hnew⟩ := collect_modify (fun v => v.fibEntry.toList) f hnode
    rw [← htree] at hnew
    rw [fibs, fibs, hold.length_eq, hnew.length_eq, length_append, length_append,
      UInt64.ofNat_add, UInt64.ofNat_add]
    generalize f node.value = v' at h
    cases h with
    | fib fibEntry hcount =>
      rw [← UInt64.add_assoc, hcount rfl, UInt64.add_assoc]
      rfl
    | insertPit _ _ _ _ _ _ hsame | updatePit _ _ _ _ _ hsame | measurements _ _ _ hsame
    | choice _ _ _ _ hsame =>
      rw [hsame]
      rfl
    | erasePit _ _ _ _ hsame =>
      rw [hsame, erasePitEntry_others.1]

theorem Reaches.nFib (h : Reaches env true t t') (hcount : t.nFib = .ofNat t.fibs.length) :
    t'.nFib = .ofNat t'.fibs.length := by
  induction h with
  | refl => exact hcount
  | tail _ hact ih => grind [Act.nFib]

end Tables

end NdnMulticast.Nfd
