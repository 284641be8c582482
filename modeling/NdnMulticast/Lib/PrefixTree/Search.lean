/-
  A tree of prefixes as a map from names to values, which does not show empty nodes; searching
  it, by name or from a node upwards; and enumerating a subtree.
-/

import NdnMulticast.Lib.PrefixTree

namespace NdnMulticast.Lib.PrefixTree

section

open Option Heap

variable {κ α : Type} [DecidableEq κ] (cfg : Config κ α)

/-- The value under a name. -/
def valueAt (t : PrefixTree κ α) (k : List κ) : α :=
  (((t.find cfg k).bind t.get).map TreeNode.value).getD cfg.vacant

/-- The items of the values of all nodes. -/
def collect {β : Type} (items : α → List β) (t : PrefixTree κ α) : List β :=
  t.nodes.cells.flatMap fun x => items x.2.value

variable {cfg} {t t' : PrefixTree κ α} {a id : Nat} {m n node : TreeNode κ α} {k k' : List κ}
  {f : α → α}

namespace Linked

variable (hl : t.Linked cfg)
include hl

theorem valueAt_of_get (hn : t.get a = some n) : t.valueAt cfg n.name = n.value := by
  rw [valueAt, hl.find_eq_some_iff.2 ⟨n, hn, rfl⟩, bind_some, hn]
  rfl

theorem valueAt_of_notMem (h : ∀ a n, t.get a = some n → n.name ≠ k) :
    t.valueAt cfg k = cfg.vacant := by
  rw [valueAt, hl.find_eq_none_iff.2 h]
  rfl

theorem exists_get_of_hasEntries (h : cfg.hasEntries (t.valueAt cfg k) = true) :
    ∃ a n, t.get a = some n ∧ n.name = k ∧ n.value = t.valueAt cfg k := by
  cases hfind : t.find cfg k with
  | none =>
    rw [hl.valueAt_of_notMem (hl.find_eq_none_iff.1 hfind), cfg.hasEntries_vacant] at h
    cases h
  | some a => grind [find_eq_some_iff, valueAt_of_get]

/-- Nodes without a value of their own do not show. -/
theorem valueAt_congr (hl' : t'.Linked cfg)
    (hold : ∀ a m, t.get a = some m → ∃ m', t'.get a = some m' ∧ m'.name = m.name ∧
      m'.value = m.value)
    (hnew : ∀ a m', t'.get a = some m' → t.get a = none → m'.value = cfg.vacant) :
    t'.valueAt cfg k = t.valueAt cfg k := by
  cases hfind : t.find cfg k with
  | some a => grind [find_eq_some_iff, valueAt_of_get]
  | none =>
    rw [hl.valueAt_of_notMem (hl.find_eq_none_iff.1 hfind)]
    cases hfind' : t'.find cfg k with
    | none => exact hl'.valueAt_of_notMem (hl'.find_eq_none_iff.1 hfind')
    | some a =>
      obtain ⟨m', hm', rfl⟩ := hl'.find_eq_some_iff.1 hfind'
      have hnone : t.get a = none := by
        cases hget : t.get a with
        | none => rfl
        | some m =>
          obtain ⟨m'', hm'', hname, -⟩ := hold a m hget
          obtain rfl : m' = m'' := mem_unique hm' hm''
          exact absurd hname.symm (hl.find_eq_none_iff.1 hfind a m hget)
      rw [hl'.valueAt_of_get hm', hnew a m' hm' hnone]

theorem valueAt_grows (hl' : t'.Linked cfg) (hg : Grows cfg t t' k') :
    t'.valueAt cfg k = t.valueAt cfg k := by
  refine hl.valueAt_congr hl' (fun a m hm => ?_) fun a m' hm' hnone => (hg.new hm' hnone).1
  obtain ⟨m', hm', hname, -, hvalue, -⟩ := hg.old hm
  exact ⟨m', hm', hname, hvalue⟩

/-- **Erasing nodes** does not show, if a value without entries is vacant. -/
theorem valueAt_shrinks (hl' : t'.Linked cfg) (hs : Shrinks cfg t t' k')
    (hvacant : ∀ v, cfg.hasEntries v = false → v = cfg.vacant) :
    t'.valueAt cfg k = t.valueAt cfg k := by
  refine (hl'.valueAt_congr hl (fun a m' hm' => ?_) fun a m hm hnone =>
    hvacant _ (hs.gone hm hnone).1).symm
  obtain ⟨m, hm, hname, -, hvalue, -⟩ := hs.kept hm'
  exact ⟨m, hm, hname.symm, hvalue.symm⟩

/-- **Changing a value** shows at one name. -/
theorem valueAt_modify (hn : t.get id = some node) :
    (t.modify id f).valueAt cfg k =
      if k = node.name then f (t.valueAt cfg k) else t.valueAt cfg k := by
  have hl' := hl.modify id f
  cases hfind : t.find cfg k with
  | some a =>
    obtain ⟨m, hm, rfl⟩ := hl.find_eq_some_iff.1 hfind
    have hm' : (t.modify id f).get a = _ := get_modify_of_get hm
    by_cases ha : a = id
    · subst ha
      obtain rfl : m = node := mem_unique hm hn
      rw [if_pos rfl] at hm' ⊢
      rw [hl.valueAt_of_get hm]
      exact hl'.valueAt_of_get hm'
    · rw [if_neg ha] at hm'
      have hne : m.name ≠ node.name := fun heq => ha (hl.name_inj hm hn heq)
      rw [if_neg hne, hl.valueAt_of_get hm, hl'.valueAt_of_get hm']
  | none =>
    have hnot := hl.find_eq_none_iff.1 hfind
    rw [if_neg (fun heq => hnot id node hn heq.symm), hl.valueAt_of_notMem hnot]
    refine hl'.valueAt_of_notMem fun a n hn' => ?_
    obtain ⟨m, hm, hname, -⟩ := links_of_get_modify hn'
    exact hname ▸ hnot a m hm

end Linked

/-! ## Items -/

section

variable {β : Type} {items : α → List β} {x : β}

omit [DecidableEq κ] in
theorem mem_collect_iff : x ∈ t.collect items ↔ ∃ a n, t.get a = some n ∧ x ∈ items n.value := by
  rw [collect, List.mem_flatMap]
  constructor
  · rintro ⟨cell, hcell, hx⟩
    exact ⟨cell.1, cell.2, get_eq_some_iff.2 hcell, hx⟩
  · rintro ⟨a, n, hn, hx⟩
    exact ⟨(a, n), get_eq_some_iff.1 hn, hx⟩

section

variable (hvacant : items cfg.vacant = [])
include hvacant

omit [DecidableEq κ] in
theorem collect_addNode (parent : Option Nat) :
    (t.addNode cfg parent k).collect items = t.collect items := by
  cases parent <;>
    simp [collect, addNode, setParent, Heap.modify, Heap.alloc, List.flatMap_map,
      apply_ite TreeNode.value, hvacant]

theorem collect_lookupFrom (parent : Option Nat) (k cs : List κ) :
    (t.lookupFrom cfg parent k cs).2.collect items = t.collect items := by
  have hvisit : ∀ (t : PrefixTree κ α) (parent : Option Nat) (k : List κ),
      (t.visit cfg parent k).2.collect items = t.collect items := by
    intro t parent k
    unfold visit
    split
    · rfl
    · exact collect_addNode hvacant parent
  induction cs generalizing t parent k with
  | nil => exact hvisit t parent k
  | cons c cs ih => exact (ih _ _).trans (hvisit t parent k)

theorem collect_lookup (k : List κ) : (t.lookup cfg k).2.collect items = t.collect items :=
  collect_lookupFrom hvacant none [] k

end

omit [DecidableEq κ] in
theorem collect_eraseNode (hn : t.get id = some node) (hnone : items node.value = []) :
    (t.eraseNode cfg id node).collect items = t.collect items := by
  have hparent : (t.unsetParent id node).collect items = t.collect items := by
    unfold unsetParent
    split
    · simp [collect, Heap.modify, List.flatMap_map, apply_ite TreeNode.value]
    · rfl
  have hget : ∃ n, (t.unsetParent id node).nodes.get id = some n ∧ n.value = node.value := by
    have hn' : t.nodes.get id = some node := hn
    unfold unsetParent
    split
    · grind [Heap.get_modify]
    · exact ⟨node, hn', rfl⟩
  obtain ⟨n, hn', hvalue⟩ := hget
  rw [← hparent]
  -- the cell that goes has no items
  have hrest : ∀ l : List (Nat × TreeNode κ α), (∀ x ∈ l, x.1 = id → items x.2.value = []) →
      (l.filter (·.1 != id)).flatMap (fun x => items x.2.value) =
        l.flatMap fun x => items x.2.value := by
    intro l
    induction l with
    | nil => exact fun _ => rfl
    | cons y l ih => grind
  refine hrest _ fun x hx haddr => ?_
  have hsome : (t.unsetParent id node).nodes.get id = some x.2 := get_eq_some_iff.2 (haddr ▸ hx)
  obtain rfl : n = x.2 := mem_unique hn' hsome
  rw [hvalue, hnone]

section

variable (hitems : ∀ v, cfg.hasEntries v = false → items v = [])
include hitems

omit [DecidableEq κ] in
theorem collect_eraseFrom {canEraseAncestors : Bool} {rounds : Nat}
    (h : eraseFrom cfg canEraseAncestors rounds t id = some t') :
    t'.collect items = t.collect items := by
  induction rounds generalizing t id with
  | zero => cases h
  | succ rounds ih =>
    cases hn : t.get id with
    | none =>
      simp only [eraseFrom, hn] at h
      cases h
    | some node =>
      simp only [eraseFrom, hn, bind_eq_bind, bind_some] at h
      split at h
      · grind [collect_eraseNode, isEmpty]
      · rw [← some.inj h]

omit [DecidableEq κ] in
theorem collect_eraseIfEmpty {canEraseAncestors : Bool}
    (h : t.eraseIfEmpty cfg id canEraseAncestors = some t') :
    t'.collect items = t.collect items := by
  cases hn : t.get id with
  | none =>
    simp only [eraseIfEmpty, hn] at h
    cases h
  | some node =>
    simp only [eraseIfEmpty, hn, bind_eq_bind, bind_some] at h
    exact collect_eraseFrom hitems h

end

omit [DecidableEq κ] in
theorem collect_modify (items : α → List β) (f : α → α) (hn : t.get id = some node) :
    ∃ others, (t.collect items).Perm (items node.value ++ others) ∧
      ((t.modify id f).collect items).Perm (items (f node.value) ++ others) := by
  have hn' : (t.modify id f).nodes.get id = some { node with value := f node.value } := by
    have hget : (t.modify id f).get id = _ := get_modify
    rw [hn, map_some, if_pos rfl] at hget
    exact hget
  have hfree : ((t.modify id f).nodes.free id).cells = (t.nodes.free id).cells :=
    cells_free_modify _ _ _
  have hbefore := (cells_perm_free hn).flatMap_right fun x => items x.2.value
  have hafter := (cells_perm_free hn').flatMap_right fun x => items x.2.value
  rw [hfree] at hafter
  exact ⟨_, hbefore, hafter⟩

end

end

/-! ## Searching -/

open List Option Nat

variable {κ α : Type} [DecidableEq κ] (cfg : Config κ α) (t : PrefixTree κ α)
  (selected : TreeNode κ α → Bool)

/-- The node of a name, if there is one and it meets the condition. -/
def findSelected (k : List κ) : Option Nat := (t.find cfg k).filter fun a => (t.get a).any selected

/-- The prefixes of `k` of length `i` and less, the longest first. -/
def longestFrom (k : List κ) : Nat → Option Nat
  | 0 => t.findSelected cfg selected (k.take 0)
  | i + 1 =>
    match t.findSelected cfg selected (k.take (i + 1)) with
    | some a => some a
    | none => longestFrom k i

def findLongestPrefixMatch (depth : Nat) (k : List κ) : Option Nat :=
  t.longestFrom cfg selected k (min k.length depth)

/-- At most the given number of nodes on the way up. -/
def pathFrom : Nat → Nat → List Nat
  | 0, _ => []
  | rounds + 1, a =>
    match t.get a with
    | none => []
    | some n => a :: (n.parent.map (pathFrom rounds)).getD []

/-- A node and its ancestors. -/
def path (a : Nat) : List Nat :=
  match t.get a with
  | none => []
  | some n => t.pathFrom (n.name.length + 1) a

/-- The first node on the way up that meets the condition. -/
def findUp (a : Nat) : Option Nat := (t.path a).find? fun b => (t.get b).any selected

/-- The nodes on the way up that meet the condition. -/
def filterUp (a : Nat) : List Nat := (t.path a).filter fun b => (t.get b).any selected

/-- The nodes of a subtree, at most so many levels deep, in the order they are visited.  A selector
    says whether a node is wanted and whether its children are. -/
def enumerateFrom (wanted : Nat → TreeNode κ α → Bool × Bool) : Nat → Nat → List Nat
  | 0, _ => []
  | levels + 1, a =>
    match t.get a with
    | none => []
    | some n =>
      (if (wanted a n).1 then [a] else []) ++
        if (wanted a n).2 then n.children.flatMap (enumerateFrom wanted levels) else []

/-- The node of the longest prefix of `k` that meets the condition. -/
def IsLongest (k : List κ) (a : Nat) : Prop :=
  ∃ n, t.get a = some n ∧ selected n = true ∧ n.name <+: k ∧
    ∀ b m, t.get b = some m → selected m = true → m.name <+: k → m.name.length ≤ n.name.length

variable {cfg t selected} {k : List κ} {a b i depth : Nat} {m n : TreeNode κ α}

namespace Linked

section

variable (hl : t.Linked cfg)
include hl

theorem findSelected_eq_some_iff :
    t.findSelected cfg selected k = some a ↔
      ∃ n, t.get a = some n ∧ selected n = true ∧ n.name = k := by
  rw [findSelected, filter_eq_some_iff, hl.find_eq_some_iff]
  constructor
  · simp_all
  · simp_all

theorem findSelected_eq_none (h : t.findSelected cfg selected k = none) (hn : t.get a = some n)
    (hsel : selected n = true) : n.name ≠ k := by
  intro hname
  rw [hl.findSelected_eq_some_iff.2 ⟨n, hn, hsel, hname⟩] at h
  cases h

theorem longestFrom_eq_some (hi : i ≤ k.length) (h : t.longestFrom cfg selected k i = some a) :
    ∃ n, t.get a = some n ∧ selected n = true ∧ n.name <+: k ∧
      ∀ b m, t.get b = some m → selected m = true → m.name <+: k → m.name.length ≤ i →
        m.name.length ≤ n.name.length := by
  induction i with
  | zero =>
    obtain ⟨n, hn, hsel, hname⟩ := hl.findSelected_eq_some_iff.1 h
    exact ⟨n, hn, hsel, hname ▸ take_prefix _ _, fun b m _ _ _ hlen => by omega⟩
  | succ i ih =>
    rw [longestFrom] at h
    cases hfind : t.findSelected cfg selected (k.take (i + 1)) with
    | some c => grind [findSelected_eq_some_iff]
    | none =>
      rw [hfind] at h
      obtain ⟨n, hn, hsel, hpre, hmax⟩ := ih (by omega) h
      refine ⟨n, hn, hsel, hpre, fun b m hm hselm hprem hlen => hmax b m hm hselm hprem ?_⟩
      have hne := hl.findSelected_eq_none hfind hm hselm
      rcases Nat.lt_or_ge m.name.length (i + 1) with hlt | hge
      · omega
      · have heq : m.name.length = i + 1 := by omega
        exact absurd (heq ▸ prefix_iff_eq_take.1 hprem) hne

theorem longestFrom_eq_none (hi : i ≤ k.length) (h : t.longestFrom cfg selected k i = none)
    (hm : t.get b = some m) (hsel : selected m = true) (hpre : m.name <+: k) : i <
      m.name.length := by
  induction i with
  | zero =>
    have hne := hl.findSelected_eq_none h hm hsel
    exact length_pos_iff.2 hne
  | succ i ih =>
    rw [longestFrom] at h
    cases hfind : t.findSelected cfg selected (k.take (i + 1)) with
    | some c =>
      rw [hfind] at h
      cases h
    | none =>
      rw [hfind] at h
      have hlt := ih (by omega) h
      have hne := hl.findSelected_eq_none hfind hm hsel
      rcases Nat.lt_or_ge (i + 1) m.name.length with hlt' | hge
      · exact hlt'
      · have heq : m.name.length = i + 1 := by omega
        exact absurd (heq ▸ prefix_iff_eq_take.1 hpre) hne

omit [DecidableEq κ] in
theorem isLongest_unique (ha : t.IsLongest selected k a) (hb : t.IsLongest selected k b) :
    a = b := by
  obtain ⟨n, hn, hsel, hpre, hmax⟩ := ha
  obtain ⟨m, hm, hselm, hprem, hmaxm⟩ := hb
  have hlen : n.name.length = m.name.length :=
    Nat.le_antisymm (hmaxm a n hn hsel hpre) (hmax b m hm hselm hprem)
  refine hl.name_inj hn hm ?_
  rw [prefix_iff_eq_take.1 hpre, prefix_iff_eq_take.1 hprem, hlen]

variable (hdepth : ∀ b m, t.get b = some m → m.name.length ≤ depth)
include hdepth

theorem findLongestPrefixMatch_eq_none (h : t.findLongestPrefixMatch cfg selected depth k = none)
    (hm : t.get b = some m) (hsel : selected m = true) : ¬m.name <+: k := by
  intro hpre
  have hlt := hl.longestFrom_eq_none (Nat.min_le_left _ _) h hm hsel hpre
  exact absurd (Nat.le_min.2 ⟨hpre.length_le, hdepth b m hm⟩) (Nat.not_le_of_lt hlt)

/-- **Longest prefix match by name**, if no name is deeper than the search. -/
theorem findLongestPrefixMatch_eq_some_iff :
    t.findLongestPrefixMatch cfg selected depth k = some a ↔ t.IsLongest selected k a := by
  have hreach : ∀ b m, t.get b = some m → m.name <+: k → m.name.length ≤ min k.length depth :=
    fun b m hm hpre => Nat.le_min.2 ⟨hpre.length_le, hdepth b m hm⟩
  have hsound : ∀ {a}, t.findLongestPrefixMatch cfg selected depth k = some a →
      t.IsLongest selected k a := by
    intro a h
    obtain ⟨n, hn, hsel, hpre, hmax⟩ := hl.longestFrom_eq_some (Nat.min_le_left _ _) h
    exact ⟨n, hn, hsel, hpre, fun b m hm hselm hprem =>
      hmax b m hm hselm hprem (hreach b m hm hprem)⟩
  constructor
  · exact hsound
  intro hlongest
  cases hfind : t.findLongestPrefixMatch cfg selected depth k with
  | some c => rw [hl.isLongest_unique (hsound hfind) hlongest]
  | none =>
    obtain ⟨n, hn, hsel, hpre, -⟩ := hlongest
    exact absurd hpre (hl.findLongestPrefixMatch_eq_none hdepth hfind hn hsel)

end

/-! ## The way up -/

section

variable (hl : t.Linked cfg) (hn : t.get a = some n)
include hl hn

omit [DecidableEq κ] in
theorem pathFrom_spec {rounds : Nat} (hrounds : n.name.length < rounds) :
    (∀ b, b ∈ t.pathFrom rounds a ↔ ∃ m, t.get b = some m ∧ m.name <+: n.name) ∧
      (t.pathFrom rounds a).Pairwise fun b c => ∀ m m', t.get b = some m → t.get c = some m' →
        m'.name.length < m.name.length := by
  induction rounds generalizing a n with
  | zero => exact absurd hrounds (not_lt_zero _)
  | succ rounds ih =>
    simp only [pathFrom, hn]
    rcases hl.parent hn with ⟨hnil, hnone⟩ | ⟨p, m, c, hp, hm, hname⟩
    · grind [name_inj]
    rw [hp, map_some, getD_some]
    have hlen : n.name.length = m.name.length + 1 := by
      rw [hname, length_append, length_singleton]
    obtain ⟨hmem, hsorted⟩ := ih hm (by omega)
    refine ⟨fun b => ?_, pairwise_cons.2 ⟨?_, hsorted⟩⟩
    · rw [mem_cons, hmem]
      constructor
      · grind
      · rintro ⟨m', hm', hpre⟩
        rw [hname, prefix_concat_iff] at hpre
        rcases hpre with heq | hpre
        · exact Or.inl (hl.name_inj hm' hn (heq.trans hname.symm))
        · exact Or.inr ⟨m', hm', hpre⟩
    · grind

omit [DecidableEq κ] in
theorem mem_path_iff : b ∈ t.path a ↔ ∃ m, t.get b = some m ∧ m.name <+: n.name := by
  rw [path, hn]
  exact (hl.pathFrom_spec hn (lt_succ_self _)).1 b

omit [DecidableEq κ] in
theorem path_pairwise :
    (t.path a).Pairwise fun b c => ∀ m m', t.get b = some m → t.get c = some m' →
      m'.name.length < m.name.length := by
  rw [path, hn]
  exact (hl.pathFrom_spec hn (lt_succ_self _)).2

omit [DecidableEq κ] in
theorem path_nodup : (t.path a).Nodup := by
  refine (hl.path_pairwise hn).imp_of_mem ?_
  intro b c hb _ hlt heq
  subst heq
  obtain ⟨m, hm, -⟩ := (hl.mem_path_iff hn).1 hb
  exact Nat.lt_irrefl _ (hlt m m hm hm)

omit [DecidableEq κ] in
/-- **Longest prefix match from a node.** -/
theorem findUp_eq_some_iff : t.findUp selected a = some b ↔ t.IsLongest selected n.name b := by
  have hsound : ∀ {b}, t.findUp selected a = some b → t.IsLongest selected n.name b := by
    intro b h
    obtain ⟨hsel, before, after, hsplit, hbefore⟩ := List.find?_eq_some_iff_append.1 h
    have hb : b ∈ t.path a := by
      rw [hsplit]
      exact mem_append.2 (Or.inr (.head _))
    obtain ⟨m, hm, hpre⟩ := (hl.mem_path_iff hn).1 hb
    rw [hm, any_some] at hsel
    refine ⟨m, hm, hsel, hpre, fun c m' hm' hsel' hpre' => ?_⟩
    have hc := (hl.mem_path_iff hn).2 ⟨m', hm', hpre'⟩
    rw [hsplit, mem_append, mem_cons] at hc
    rcases hc with hc | rfl | hc
    · -- passed, so not selected
      have hnot := hbefore c hc
      rw [hm', any_some, hsel'] at hnot
      cases hnot
    · simp_all
    · have hsorted := hl.path_pairwise hn
      rw [hsplit, pairwise_append] at hsorted
      exact Nat.le_of_lt ((pairwise_cons.1 hsorted.2.1).1 c hc m m' hm hm')
  constructor
  · exact hsound
  intro hlongest
  cases hfind : t.findUp selected a with
  | some c => rw [hl.isLongest_unique (hsound hfind) hlongest]
  | none =>
    obtain ⟨m, hm, hsel, hpre, -⟩ := hlongest
    have hnot := List.find?_eq_none.1 hfind b ((hl.mem_path_iff hn).2 ⟨m, hm, hpre⟩)
    rw [hm, any_some] at hnot
    exact absurd hsel hnot

end

/-! ## Subtrees -/

omit [DecidableEq κ] in
theorem exists_child (hl : t.Linked cfg) (hn : t.get a = some n) (hm : t.get b = some m)
    (hpre : n.name <+: m.name) (hne : n.name ≠ m.name) :
    ∃ c x, c ∈ n.children ∧ t.get c = some x ∧ x.name = m.name.take (n.name.length + 1) ∧
      x.name <+: m.name := by
  have hlen : n.name.length < m.name.length :=
    Nat.lt_of_le_of_ne hpre.length_le fun heq => hne (hpre.eq_of_length heq)
  have hancestor : m.name.take (n.name.length + 1) <+: m.name := take_prefix _ _
  obtain ⟨c, x, hx, hname⟩ := hl.exists_of_prefix hm hancestor
  have hlength : x.name.length = n.name.length + 1 := by
    rw [hname, length_take]
    omega
  refine ⟨c, x, (hl.mem_children hn c).2 ⟨x, hx, ?_⟩, hx, hname, hname ▸ take_prefix _ _⟩
  rcases hl.parent hx with ⟨hnil, -⟩ | ⟨p, y, z, hp, hy, hxname⟩
  · rw [hnil] at hlength
    cases hlength
  · -- the parent has the name of the node
    have hylen : y.name.length = n.name.length := by
      rw [hxname, length_append, length_singleton] at hlength
      omega
    have hypre : y.name <+: m.name :=
      (hxname ▸ prefix_append y.name [z]).trans (hname ▸ take_prefix _ _)
    have hyn : y.name = n.name := by
      rw [prefix_iff_eq_take.1 hypre, prefix_iff_eq_take.1 hpre, hylen]
    rw [hp, hl.name_inj hy hn hyn]

/-- **Enumeration of a subtree.**  The wanted nodes below the node such that the children of every
    node on the way down are wanted. -/
theorem mem_enumerateFrom_iff (hl : t.Linked cfg)
    (hdepth : ∀ b m, t.get b = some m → m.name.length ≤ depth)
    {wanted : Nat → TreeNode κ α → Bool × Bool} {levels : Nat} (hn : t.get a = some n)
    (hlevels : depth < n.name.length + levels) :
    b ∈ t.enumerateFrom wanted levels a ↔
      ∃ m, t.get b = some m ∧ n.name <+: m.name ∧ (wanted b m).1 = true ∧
        ∀ c x, t.get c = some x → n.name <+: x.name → x.name <+: m.name → x.name ≠ m.name →
          (wanted c x).2 = true := by
  induction levels generalizing a n with
  | zero =>
    have := hdepth a n hn
    omega
  | succ levels ih =>
    simp only [enumerateFrom, hn, mem_append]
    constructor
    · rintro (hself | hbelow)
      · split at hself
        · rename_i hwanted
          obtain rfl : b = a := mem_singleton.1 hself
          refine ⟨n, hn, prefix_refl _, hwanted, fun c x _ hnx hxn hne => ?_⟩
          exact absurd (hxn.eq_of_length_le hnx.length_le) hne
        · cases hself
      · split at hbelow
        · rename_i hwanted
          obtain ⟨c, hc, hb⟩ := mem_flatMap.1 hbelow
          obtain ⟨x, hx, hparent⟩ := (hl.mem_children hn c).1 hc
          have hname : ∃ z, x.name = n.name ++ [z] := by
            rcases hl.parent hx with ⟨-, hnone⟩ | ⟨p, y, z, hp, hy, hxname⟩
            · rw [hnone] at hparent
              cases hparent
            · simp_all
          obtain ⟨z, hname⟩ := hname
          have hlength : x.name.length = n.name.length + 1 := by
            rw [hname, length_append, length_singleton]
          obtain ⟨m, hm, hpre, hself, hway⟩ := (ih hx (by omega)).1 hb
          have hnx : n.name <+: x.name := hname ▸ prefix_append _ _
          refine ⟨m, hm, hnx.trans hpre, hself, fun c' x' hx' hnx' hxm hne => ?_⟩
          by_cases heq : x'.name = n.name
          · grind [name_inj]
          · -- further down the way goes through the child
            have hlt : n.name.length < x'.name.length :=
              Nat.lt_of_le_of_ne hnx'.length_le fun h => heq (hnx'.eq_of_length h).symm
            exact hway c' x' hx' (prefix_of_prefix_length_le hpre hxm (by omega)) hxm hne
        · cases hbelow
    · rintro ⟨m, hm, hpre, hself, hway⟩
      by_cases heq : n.name = m.name
      · obtain rfl := hl.name_inj hn hm heq
        obtain rfl : n = m := mem_unique hn hm
        left
        rw [if_pos hself]
        exact mem_singleton.2 rfl
      · right
        rw [if_pos (hway a n hn (prefix_refl _) hpre heq), mem_flatMap]
        obtain ⟨c, x, hc, hx, hname, hxm⟩ := hl.exists_child hn hm hpre heq
        have hlen : n.name.length < m.name.length :=
          Nat.lt_of_le_of_ne hpre.length_le fun h => heq (hpre.eq_of_length h)
        have hlength : x.name.length = n.name.length + 1 := by
          rw [hname, length_take]
          omega
        have hnx : n.name <+: x.name := prefix_of_prefix_length_le hpre hxm (by omega)
        refine ⟨c, hc, (ih hx (by omega)).2 ⟨m, hm, hxm, hself, fun c' x' hx' hxx' => ?_⟩⟩
        exact hway c' x' hx' (hnx.trans hxx')

end Linked

end NdnMulticast.Lib.PrefixTree
