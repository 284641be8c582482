/-
  A tree of sequences in which every prefix of a sequence is a node, with the nodes found
  through a hash table of their names.

  Nodes are objects with addresses and carry a value that may be vacant.  A lookup creates
  the node of a name with all its ancestors; a node without children whose value is vacant
  can be erased, and with it the ancestors that become so.
-/

import NdnMulticast.Lib.Assoc
import NdnMulticast.Lib.Hashtable

namespace NdnMulticast.Lib

open List Option Heap Nat

structure TreeNode (κ α : Type) where
  name : List κ
  parent : Option Nat
  children : List Nat
  value : α

structure PrefixTree (κ α : Type) where
  ht : Hashtable Nat
  nodes : Heap (TreeNode κ α)

namespace PrefixTree

variable {κ α : Type}

/-- The hash of a name and the values of the nodes. -/
structure Config (κ α : Type) where
  options : HashtableOptions
  hash : List κ → Nat
  vacant : α
  hasEntries : α → Bool
  hasEntries_vacant : hasEntries vacant = false

variable (cfg : Config κ α)

def init : PrefixTree κ α := ⟨.init cfg.options.minSize cfg.options.minSize_pos, .empty⟩

/-- The node at an address. -/
def get (t : PrefixTree κ α) (id : Nat) : Option (TreeNode κ α) := t.nodes.get id

/-- The node with a name. -/
def find [DecidableEq κ] (t : PrefixTree κ α) (n : List κ) : Option Nat :=
  t.ht.find (cfg.hash n) fun id => (t.get id).any (·.name == n)

/-- A node without children whose value is vacant. -/
def isEmpty (node : TreeNode κ α) : Bool := node.children.isEmpty && !cfg.hasEntries node.value

def modify (t : PrefixTree κ α) (id : Nat) (f : α → α) : PrefixTree κ α :=
  { t with nodes := t.nodes.modify id fun node => { node with value := f node.value } }

/-! ## Creating nodes -/

def setParent (t : PrefixTree κ α) (id parent : Nat) : PrefixTree κ α :=
  { t with
    nodes := (t.nodes.modify id fun node => { node with parent := some parent }).modify parent
      fun node => { node with children := node.children ++ [id] } }

/-- A new node, under its parent unless it is the root. -/
def addNode (t : PrefixTree κ α) (parent : Option Nat) (n : List κ) : PrefixTree κ α :=
  let id := t.nodes.next
  let t := ⟨t.ht.insert cfg.options (cfg.hash n) id, t.nodes.alloc ⟨n, none, [], cfg.vacant⟩⟩
  match parent with
  | some p => t.setParent id p
  | none => t

/-- One round of a lookup: the node of a name, found or created. -/
def visit [DecidableEq κ] (t : PrefixTree κ α) (parent : Option Nat) (n : List κ) :
    Nat × PrefixTree κ α :=
  match t.find cfg n with
  | some id => (id, t)
  | none => (t.nodes.next, t.addNode cfg parent n)

/-- The rounds for `n` and for the names that add the elements of the list one by one. -/
def lookupFrom [DecidableEq κ] (t : PrefixTree κ α) (parent : Option Nat) (n : List κ) :
    List κ → Nat × PrefixTree κ α
  | [] => t.visit cfg parent n
  | c :: cs =>
    let visited := t.visit cfg parent n
    lookupFrom visited.2 (some visited.1) (n ++ [c]) cs

/-- The node of a name, found or created with its ancestors. -/
def lookup [DecidableEq κ] (t : PrefixTree κ α) (n : List κ) : Nat × PrefixTree κ α :=
  t.lookupFrom cfg none [] n

/-! ## Erasing nodes -/

def unsetParent (t : PrefixTree κ α) (id : Nat) (node : TreeNode κ α) : PrefixTree κ α :=
  match node.parent with
  | some p =>
    { t with
      nodes :=
        (t.nodes.modify p fun node => { node with children := node.children.erase id }).modify
        id fun node => { node with parent := none } }
  | none => t

def eraseNode (t : PrefixTree κ α) (id : Nat) (node : TreeNode κ α) : PrefixTree κ α :=
  let t := t.unsetParent id node
  ⟨t.ht.erase cfg.options (cfg.hash node.name) id, t.nodes.free id⟩

/-- At most this many rounds of `eraseIfEmpty`; `none` for a bad address or too few rounds. -/
def eraseFrom (canEraseAncestors : Bool) : Nat → PrefixTree κ α → Nat → Option (PrefixTree κ α)
  | 0, _, _ => none
  | rounds + 1, t, id => do
      let node ← t.get id
      if isEmpty cfg node then
        let t := t.eraseNode cfg id node
        match node.parent with
        | some p => if canEraseAncestors then eraseFrom canEraseAncestors rounds t p else some t
        | none => some t
      else some t

/-- Erases a node if it is empty, and then its ancestors as long as they are. -/
def eraseIfEmpty (t : PrefixTree κ α) (id : Nat) (canEraseAncestors : Bool) :
    Option (PrefixTree κ α) := do
  let node ← t.get id
  eraseFrom cfg canEraseAncestors (node.name.length + 1) t id

/-! ## Links -/

/-- The table, the names and the links fit together. -/
structure Linked (t : PrefixTree κ α) : Prop where
  hashed : t.ht.toList.Perm (t.nodes.cells.map fun x => (cfg.hash x.2.name, x.1))
  name_inj : ∀ {a b : Nat} {m n : TreeNode κ α},
    t.get a = some m → t.get b = some n → m.name = n.name → a = b
  parent : ∀ {a : Nat} {n : TreeNode κ α}, t.get a = some n →
    (n.name = [] ∧ n.parent = none) ∨
      ∃ p m c, n.parent = some p ∧ t.get p = some m ∧ n.name = m.name ++ [c]
  mem_children : ∀ {p : Nat} {m : TreeNode κ α}, t.get p = some m →
    ∀ c, c ∈ m.children ↔ ∃ n, t.get c = some n ∧ n.parent = some p
  children_nodup : ∀ {p : Nat} {m : TreeNode κ α}, t.get p = some m → m.children.Nodup

variable {cfg} {t t' : PrefixTree κ α} {a b id : Nat} {m n node : TreeNode κ α} {k : List κ}

theorem linked_init : (init cfg).Linked cfg where
  hashed := by rw [init, Hashtable.toList_init]; exact Perm.refl _
  name_inj := fun h => by cases h
  parent := fun h => by cases h
  mem_children := fun h => by cases h
  children_nodup := fun h => by cases h

namespace Linked

variable (hl : t.Linked cfg)
include hl

theorem mem_toList_iff {h : Nat} :
    (h, a) ∈ t.ht.toList ↔ ∃ n, t.get a = some n ∧ h = cfg.hash n.name := by
  rw [hl.hashed.mem_iff, List.mem_map]
  constructor
  · rintro ⟨x, hx, heq⟩
    obtain ⟨rfl, rfl⟩ := Prod.mk.inj heq
    exact ⟨x.2, get_eq_some_iff.2 hx, rfl⟩
  · rintro ⟨n, hn, rfl⟩
    exact ⟨(a, n), get_eq_some_iff.1 hn, rfl⟩

/-- **Search.**  The node that has the name is found, and nothing else. -/
theorem find_eq_some_iff [DecidableEq κ] :
    t.find cfg k = some a ↔ ∃ n, t.get a = some n ∧ n.name = k := by
  constructor
  · intro h
    obtain ⟨hmem, hname⟩ := Hashtable.find_eq_some h
    obtain ⟨n, hn, -⟩ := hl.mem_toList_iff.1 hmem
    rw [hn, any_some, beq_iff_eq] at hname
    exact ⟨n, hn, hname⟩
  · rintro ⟨n, hn, rfl⟩
    cases hfind : t.find cfg n.name with
    | none =>
      have hnot := Hashtable.find_eq_none hfind (hl.mem_toList_iff.2 ⟨n, hn, rfl⟩)
      simp [hn] at hnot
    | some b =>
      obtain ⟨hmem, hname⟩ := Hashtable.find_eq_some hfind
      obtain ⟨n', hn', -⟩ := hl.mem_toList_iff.1 hmem
      rw [hn', any_some, beq_iff_eq] at hname
      rw [hl.name_inj hn' hn hname]

theorem find_eq_none_iff [DecidableEq κ] :
    t.find cfg k = none ↔ ∀ a n, t.get a = some n → n.name ≠ k := by
  constructor
  · intro h a n hn hname
    rw [hl.find_eq_some_iff.2 ⟨n, hn, hname⟩] at h
    cases h
  · intro h
    cases hfind : t.find cfg k with
    | none => rfl
    | some a => grind [find_eq_some_iff]

theorem exists_of_prefix (hn : t.get a = some n) (hk : k <+: n.name) :
    ∃ b m, t.get b = some m ∧ m.name = k := by
  induction hlen : n.name.length generalizing a n with
  | zero => grind
  | succ len ih =>
    rcases hl.parent hn with ⟨hnil, -⟩ | ⟨p, m, c, -, hm, hname⟩
    · rw [hnil] at hlen
      cases hlen
    · rw [hname, prefix_concat_iff] at hk
      rcases hk with rfl | hk
      · exact ⟨a, n, hn, hname⟩
      · grind

theorem children_ne_nil (hm : t.get a = some m) (hn : t.get b = some n) (hpre : m.name <+: n.name)
    (hne : m.name ≠ n.name) : m.children ≠ [] := by
  induction hlen : n.name.length generalizing b n with
  | zero => simp_all
  | succ len ih =>
    rcases hl.parent hn with ⟨hnil, -⟩ | ⟨p, m', c, hparent, hm', hname⟩
    · rw [hnil] at hlen
      cases hlen
    · have hpre' : m.name <+: m'.name := by
        rw [hname, prefix_concat_iff] at hpre
        rcases hpre with heq | hpre
        · exact absurd (heq.trans hname.symm) hne
        · exact hpre
      by_cases hsame : m.name = m'.name
      · -- the parent of `n` is the node itself
        obtain rfl := hl.name_inj hm hm' hsame
        exact ne_nil_of_mem ((hl.mem_children hm b).2 ⟨n, hn, hparent⟩)
      · grind

end Linked

/-! ## What creating a node does -/

variable {parent : Option Nat} {f : α → α}

theorem get_addNode (hp : parent ≠ some t.nodes.next) :
    (t.addNode cfg parent k).get a =
      if a = t.nodes.next then some ⟨k, parent, [], cfg.vacant⟩
      else (t.get a).map fun m =>
        if parent = some a then { m with children := m.children ++ [t.nodes.next] } else m := by
  cases parent with
  | none =>
    simp only [addNode, get, get_alloc]
    split <;> simp
  | some p =>
    have hne : t.nodes.next ≠ p := fun h => hp (congrArg some h.symm)
    simp only [addNode, setParent, get, get_modify, get_alloc]
    by_cases ha : a = t.nodes.next
    · simp [ha, hne]
    · by_cases hap : a = p
      · subst hap
        cases t.nodes.get a <;> simp [ha]
      · have hpa : p ≠ a := fun h => hap h.symm
        cases t.nodes.get a <;> simp [ha, hap, hpa]

/-- The place of a new node: at the root, or under the node of the name without the last element. -/
def PlaceOf (t : PrefixTree κ α) (parent : Option Nat) (k : List κ) : Prop :=
  (k = [] ∧ parent = none) ∨ ∃ p m c, parent = some p ∧ t.get p = some m ∧ k = m.name ++ [c]

theorem PlaceOf.ne_next (h : t.PlaceOf parent k) : parent ≠ some t.nodes.next := by
  rcases h with ⟨-, rfl⟩ | ⟨p, m, c, rfl, hm, -⟩
  · simp
  · intro heq
    exact absurd (some.inj heq ▸ lt_next hm) (Nat.lt_irrefl _)

theorem toList_addNode (t : PrefixTree κ α) (parent : Option Nat) (k : List κ) :
    (t.addNode cfg parent k).ht.toList.Perm ((cfg.hash k, t.nodes.next) :: t.ht.toList) := by
  cases parent <;> exact Hashtable.toList_insert _ _ _ _

theorem cells_addNode (t : PrefixTree κ α) (parent : Option Nat) (k : List κ) :
    ((t.addNode cfg parent k).nodes.cells.map fun x => (cfg.hash x.2.name, x.1)) =
      (t.nodes.cells.map fun x => (cfg.hash x.2.name, x.1)) ++ [(cfg.hash k, t.nodes.next)] := by
  have halloc : ((t.nodes.alloc ⟨k, none, [], cfg.vacant⟩).cells.map
      fun x => (cfg.hash x.2.name, x.1)) = _ := map_append
  cases parent with
  | none => exact halloc
  | some p =>
    refine (map_cells_modify (fun m : TreeNode κ α => cfg.hash m.name) ?_).trans ?_
    · intro m _
      rfl
    · refine (map_cells_modify (fun m : TreeNode κ α => cfg.hash m.name) ?_).trans halloc
      intro m _
      rfl

theorem of_get_addNode (hp : parent ≠ some t.nodes.next)
    (h : (t.addNode cfg parent k).get a = some n) :
    (a = t.nodes.next ∧ n = ⟨k, parent, [], cfg.vacant⟩) ∨
      ∃ m, t.get a = some m ∧ n.name = m.name ∧ n.parent = m.parent ∧
        n.children = if parent = some a then m.children ++ [t.nodes.next] else m.children := by
  rw [get_addNode hp] at h
  split at h
  · rename_i ha
    exact Or.inl ⟨ha, (some.inj h).symm⟩
  · obtain ⟨m, hm, rfl⟩ := map_eq_some_iff.1 h
    refine Or.inr ⟨m, hm, ?_⟩
    split <;> exact ⟨rfl, rfl, rfl⟩

theorem get_addNode_of_get (hp : parent ≠ some t.nodes.next) (h : t.get a = some m) :
    ∃ n, (t.addNode cfg parent k).get a = some n ∧ n.name = m.name ∧ n.parent = m.parent ∧
      n.value = m.value ∧ m.children <+: n.children := by
  have hne : a ≠ t.nodes.next := Nat.ne_of_lt (lt_next h)
  rw [get_addNode hp, if_neg hne, h]
  refine ⟨_, rfl, ?_⟩
  split
  · exact ⟨rfl, rfl, rfl, prefix_append _ _⟩
  · exact ⟨rfl, rfl, rfl, prefix_refl _⟩

theorem Linked.addNode [DecidableEq κ] (hl : t.Linked cfg) (hnew : t.find cfg k = none)
    (hplace : t.PlaceOf parent k) : (t.addNode cfg parent k).Linked cfg := by
  have hp := hplace.ne_next
  rw [hl.find_eq_none_iff] at hnew
  have hkept : ∀ {c p : Nat} {n : TreeNode κ α}, t.get c = some n → n.parent = some p →
      ∃ n, (t.addNode cfg parent k).get c = some n ∧ n.parent = some p := by
    intro c p n hn hpar
    obtain ⟨n', hn', -, hparent, -⟩ := get_addNode_of_get hp hn
    exact ⟨n', hn', hparent.trans hpar⟩
  refine ⟨?_, ?_, ?_, ?_, ?_⟩
  · -- the table gains the new node
    rw [cells_addNode]
    exact (toList_addNode t parent k).trans
      ((hl.hashed.cons _).trans (perm_append_singleton _ _).symm)
  · intro a b m n hm hn heq
    rcases of_get_addNode hp hm with ⟨rfl, rfl⟩ | ⟨m₀, hm₀, hname, -⟩ <;>
      rcases of_get_addNode hp hn with ⟨rfl, rfl⟩ | ⟨n₀, hn₀, hname', -⟩
    · rfl
    · exact absurd (heq.trans hname').symm (hnew b n₀ hn₀)
    · exact absurd (hname.symm.trans heq) (hnew a m₀ hm₀)
    · exact hl.name_inj hm₀ hn₀ (hname.symm.trans (heq.trans hname'))
  · intro a n hn
    rcases of_get_addNode hp hn with ⟨rfl, rfl⟩ | ⟨n₀, hn₀, hname, hparent, -⟩
    · rcases hplace with hroot | ⟨p, m, c, rfl, hm, rfl⟩
      · exact Or.inl hroot
      · obtain ⟨m', hm', hname, -⟩ := get_addNode_of_get hp hm
        exact Or.inr ⟨p, m', c, rfl, hm', by rw [hname]⟩
    · rw [hname, hparent]
      rcases hl.parent hn₀ with hroot | ⟨p, m, c, hpar, hm, heq⟩
      · exact Or.inl hroot
      · obtain ⟨m', hm', hname, -⟩ := get_addNode_of_get hp hm
        exact Or.inr ⟨p, m', c, hpar, hm', by rw [hname, heq]⟩
  · intro p m hm c
    rcases of_get_addNode hp hm with ⟨rfl, rfl⟩ | ⟨m₀, hm₀, -, -, hchildren⟩
    · -- nothing refers to the new node yet
      simp only [not_mem_nil, false_iff]
      rintro ⟨n, hn, hpar⟩
      rcases of_get_addNode hp hn with ⟨rfl, rfl⟩ | ⟨n₀, hn₀, -, hparent, -⟩
      · exact hp hpar
      rw [hparent] at hpar
      rcases hl.parent hn₀ with ⟨-, hnone⟩ | ⟨p, m, c, hpar', hm, -⟩
      · rw [hnone] at hpar
        cases hpar
      · rw [hpar'] at hpar
        exact absurd (some.inj hpar ▸ lt_next hm) (Nat.lt_irrefl _)
    · rw [hchildren]
      constructor
      · intro hc
        have hcases : c ∈ m₀.children ∨ c = t.nodes.next ∧ parent = some p := by
          split at hc <;> simp_all
        rcases hcases with hc | ⟨rfl, hthis⟩
        · obtain ⟨n, hn, hpar⟩ := (hl.mem_children hm₀ c).1 hc
          exact hkept hn hpar
        · exact ⟨⟨k, parent, [], cfg.vacant⟩, by rw [get_addNode hp, if_pos rfl], hthis⟩
      · rintro ⟨n, hn, hpar⟩
        rcases of_get_addNode hp hn with ⟨rfl, rfl⟩ | ⟨n₀, hn₀, -, hparent, -⟩
        · rw [if_pos hpar]
          exact mem_append.2 (Or.inr (mem_singleton.2 rfl))
        · have hc := (hl.mem_children hm₀ c).2 ⟨n₀, hn₀, hparent.symm.trans hpar⟩
          split
          · exact mem_append.2 (Or.inl hc)
          · exact hc
  · intro p m hm
    rcases of_get_addNode hp hm with ⟨rfl, rfl⟩ | ⟨m₀, hm₀, -, -, hchildren⟩
    · exact nodup_nil
    have hnodup := hl.children_nodup hm₀
    rw [hchildren]
    split
    · refine hnodup.append (nodup_singleton _) ?_
      intro c hc hnext
      rw [mem_singleton] at hnext
      obtain ⟨n, hn, -⟩ := (hl.mem_children hm₀ c).1 hc
      exact absurd (hnext ▸ lt_next hn) (Nat.lt_irrefl _)
    · exact hnodup

/-- What a lookup of `k` leaves as it was, and what it adds. -/
structure Grows (cfg : Config κ α) (t t' : PrefixTree κ α) (k : List κ) : Prop where
  old : ∀ {a : Nat} {m : TreeNode κ α}, t.get a = some m →
    ∃ m', t'.get a = some m' ∧ m'.name = m.name ∧ m'.parent = m.parent ∧ m'.value = m.value ∧
      m.children <+: m'.children
  new : ∀ {a : Nat} {m' : TreeNode κ α}, t'.get a = some m' → t.get a = none →
    m'.value = cfg.vacant ∧ m'.name <+: k

namespace Grows

theorem refl (t : PrefixTree κ α) (k : List κ) : Grows cfg t t k where
  old := fun hm => ⟨_, hm, rfl, rfl, rfl, prefix_refl _⟩
  new := fun hm hnone => by
    rw [hnone] at hm
    cases hm

theorem trans {t'' : PrefixTree κ α} {k' : List κ} (h₁ : Grows cfg t t' k)
    (h₂ : Grows cfg t' t'' k')
    (hk : k <+: k') : Grows cfg t t'' k' where
  old := by
    intro a m hm
    obtain ⟨m', hm', hname', hparent', hvalue', hchildren'⟩ := h₁.old hm
    obtain ⟨m'', hm'', hname'', hparent'', hvalue'', hchildren''⟩ := h₂.old hm'
    exact ⟨m'', hm'', hname''.trans hname', hparent''.trans hparent', hvalue''.trans hvalue',
      hchildren'.trans hchildren''⟩
  new := by
    intro a m'' hm'' hnone
    cases hmid : t'.get a with
    | none => exact h₂.new hm'' hmid
    | some m' =>
      obtain ⟨hvalue, hname⟩ := h₁.new hmid hnone
      obtain ⟨m₂, hm₂, hname₂, -, hvalue₂, -⟩ := h₂.old hmid
      obtain rfl : m₂ = m'' := mem_unique hm₂ hm''
      exact ⟨hvalue₂.trans hvalue, hname₂ ▸ hname.trans hk⟩

theorem addNode {parent : Option Nat} (hp : parent ≠ some t.nodes.next) :
    Grows cfg t (t.addNode cfg parent k) k where
  old := by
    intro a m hm
    exact get_addNode_of_get hp hm
  new := by
    intro a m' hm' hnone
    rcases of_get_addNode hp hm' with ⟨-, rfl⟩ | ⟨m, hm, -⟩
    · exact ⟨rfl, prefix_refl _⟩
    · rw [hnone] at hm
      cases hm

end Grows

section

variable (hl : t.Linked cfg)
include hl

theorem Linked.visit [DecidableEq κ] (hplace : t.PlaceOf parent k) :
    (t.visit cfg parent k).2.Linked cfg ∧ Grows cfg t (t.visit cfg parent k).2 k ∧
      ∃ n, (t.visit cfg parent k).2.get (t.visit cfg parent k).1 = some n ∧ n.name = k := by
  unfold PrefixTree.visit
  cases hfind : t.find cfg k with
  | some id => exact ⟨hl, .refl t k, hl.find_eq_some_iff.1 hfind⟩
  | none =>
    have hp := hplace.ne_next
    refine ⟨hl.addNode hfind hplace, .addNode hp, ⟨k, parent, [], cfg.vacant⟩, ?_, rfl⟩
    rw [get_addNode hp, if_pos rfl]

theorem Linked.lookupFrom [DecidableEq κ] {cs : List κ} (hplace : t.PlaceOf parent k) :
    (t.lookupFrom cfg parent k cs).2.Linked cfg ∧
      Grows cfg t (t.lookupFrom cfg parent k cs).2 (k ++ cs) ∧
      ∃ n, (t.lookupFrom cfg parent k cs).2.get (t.lookupFrom cfg parent k cs).1 = some n ∧
        n.name = k ++ cs := by
  induction cs generalizing t parent k with
  | nil =>
    rw [append_nil]
    exact hl.visit hplace
  | cons c cs ih =>
    obtain ⟨hl', hgrows, n, hn, hname⟩ := hl.visit hplace
    -- the node that was visited is the parent of the next one
    have hplace' : (t.visit cfg parent k).2.PlaceOf (some (t.visit cfg parent k).1) (k ++ [c]) :=
      Or.inr ⟨_, n, c, rfl, hn, by rw [hname]⟩
    obtain ⟨hlinked, hgrows', hfound⟩ := ih hl' hplace'
    rw [append_assoc, singleton_append] at hgrows' hfound
    exact ⟨hlinked, hgrows.trans hgrows' (prefix_append _ _), hfound⟩

/-- **Lookup.**  The links are kept, nodes are added for prefixes of the name only, and the node
    returned has the name. -/
theorem Linked.lookup [DecidableEq κ] (k : List κ) :
    (t.lookup cfg k).2.Linked cfg ∧ Grows cfg t (t.lookup cfg k).2 k ∧
      ∃ n, (t.lookup cfg k).2.get (t.lookup cfg k).1 = some n ∧ n.name = k :=
  hl.lookupFrom (Or.inl ⟨rfl, rfl⟩)

/-- After a lookup, only the node that was looked up can be empty if it was not before. -/
theorem Linked.isEmpty_lookup [DecidableEq κ] {k : List κ} (hm : (t.lookup cfg k).2.get a = some m)
    (ha : a ≠ (t.lookup cfg k).1) (hempty : PrefixTree.isEmpty cfg m = true) :
    ∃ m₀, t.get a = some m₀ ∧ PrefixTree.isEmpty cfg m₀ = true := by
  obtain ⟨hl', hgrows, n, hn, hname⟩ := hl.lookup k
  rw [PrefixTree.isEmpty, Bool.and_eq_true, List.isEmpty_iff, Bool.not_eq_true'] at hempty
  cases hold : t.get a with
  | none =>
    -- a new ancestor has a child
    obtain ⟨-, hpre⟩ := hgrows.new hm hold
    have hne : m.name ≠ n.name := fun heq => ha (hl'.name_inj hm hn heq)
    exact absurd hempty.1 (hl'.children_ne_nil hm hn (hname ▸ hpre) hne)
  | some m₀ =>
    obtain ⟨m', hm', -, -, hvalue, hchildren⟩ := hgrows.old hold
    obtain rfl : m' = m := Option.mem_unique hm' hm
    rw [hempty.1, List.prefix_nil] at hchildren
    exact ⟨m₀, rfl, by rw [PrefixTree.isEmpty, hchildren, ← hvalue, hempty.2]; rfl⟩

end

/-! ## What erasing a node does -/

theorem get_eraseNode :
    (t.eraseNode cfg id node).get a =
      if a = id then none
      else (t.get a).map fun m =>
        if node.parent = some a then { m with children := m.children.erase id } else m := by
  simp only [eraseNode, unsetParent, get, get_free]
  split
  · rfl
  rename_i ha
  cases hparent : node.parent with
  | none => simp
  | some p =>
    by_cases hap : a = p
    · subst hap
      cases hget : t.nodes.get a <;> simp [get_modify, ha, hget]
    · have hpa : p ≠ a := fun h => hap h.symm
      cases hget : t.nodes.get a <;> simp [get_modify, ha, hap, hpa, hget]

theorem of_get_eraseNode (h : (t.eraseNode cfg id node).get a = some n) :
    ∃ m, t.get a = some m ∧ a ≠ id ∧
      n = if node.parent = some a then { m with children := m.children.erase id } else m := by
  rw [get_eraseNode] at h
  split at h
  · cases h
  · rename_i ha
    obtain ⟨m, hm, rfl⟩ := map_eq_some_iff.1 h
    exact ⟨m, hm, ha, rfl⟩

theorem get_eraseNode_of_get (h : t.get a = some m) (ha : a ≠ id) :
    (t.eraseNode cfg id node).get a = some
      (if node.parent = some a then { m with children := m.children.erase id } else m) := by
  rw [get_eraseNode, if_neg ha, h]
  rfl

namespace Linked

theorem parent_ne_self (hl : t.Linked cfg) (hn : t.get id = some node) : node.parent ≠ some id := by
  intro hself
  rcases hl.parent hn with ⟨-, hnone⟩ | ⟨p, m, c, hp, hm, hname⟩
  · rw [hnone] at hself
    cases hself
  · simp_all

theorem hashed_eraseNode (hl : t.Linked cfg) (hn : t.get id = some node) :
    (t.eraseNode cfg id node).ht.toList.Perm
      ((t.eraseNode cfg id node).nodes.cells.map fun x => (cfg.hash x.2.name, x.1)) := by
  have hht : (t.unsetParent id node).ht = t.ht := by
    unfold unsetParent
    split <;> rfl
  have hcells : ((t.unsetParent id node).nodes.cells.map fun x => (cfg.hash x.2.name, x.1)) =
      t.nodes.cells.map fun x => (cfg.hash x.2.name, x.1) := by
    unfold unsetParent
    split
    · refine (map_cells_modify (fun m : TreeNode κ α => cfg.hash m.name) ?_).trans ?_
      · intro m _
        rfl
      · refine map_cells_modify (fun m : TreeNode κ α => cfg.hash m.name) ?_
        intro m _
        rfl
    · rfl
  have hget : ∃ n, (t.unsetParent id node).nodes.get id = some n ∧ n.name = node.name := by
    have hn' : t.nodes.get id = some node := hn
    unfold unsetParent
    split
    · grind [get_modify]
    · exact ⟨node, hn', rfl⟩
  obtain ⟨n, hn', hname⟩ := hget
  -- both sides lose the node
  have hmem : (cfg.hash node.name, id) ∈ (t.unsetParent id node).ht.toList := by
    rw [hht]
    exact hl.mem_toList_iff.2 ⟨node, hn, rfl⟩
  have hleft := Hashtable.toList_erase cfg.options hmem
  have hright := (cells_perm_free hn').map fun x => (cfg.hash x.2.name, x.1)
  rw [hcells, map_cons, hname] at hright
  rw [hht] at hleft
  have hboth := hleft.symm.trans (hl.hashed.trans hright)
  simp only [eraseNode]
  rw [hht]
  exact hboth.cons_inv

theorem eraseNode (hl : t.Linked cfg) (hn : t.get id = some node) (hleaf : node.children = []) :
    (t.eraseNode cfg id node).Linked cfg := by
  have hname : ∀ (a : Nat) (m : TreeNode κ α), (if node.parent = some a then
      { m with children := m.children.erase id } else m).name = m.name := by
    intro a m
    split <;> rfl
  have hparent : ∀ (a : Nat) (m : TreeNode κ α), (if node.parent = some a then
      { m with children := m.children.erase id } else m).parent = m.parent := by
    intro a m
    split <;> rfl
  refine ⟨hl.hashed_eraseNode hn, ?_, ?_, ?_, ?_⟩
  · intro a b m n hm hn heq
    obtain ⟨m₀, hm₀, -, rfl⟩ := of_get_eraseNode hm
    obtain ⟨n₀, hn₀, -, rfl⟩ := of_get_eraseNode hn
    rw [hname, hname] at heq
    exact hl.name_inj hm₀ hn₀ heq
  · intro a n hn'
    obtain ⟨n₀, hn₀, -, rfl⟩ := of_get_eraseNode hn'
    rw [hname, hparent]
    rcases hl.parent hn₀ with hroot | ⟨p, m, c, hpar, hm, heq⟩
    · exact Or.inl hroot
    -- the node that goes is no parent
    have hpid : p ≠ id := by
      rintro rfl
      obtain rfl : node = m := mem_unique hn hm
      have hchild := (hl.mem_children hm a).2 ⟨n₀, hn₀, hpar⟩
      rw [hleaf] at hchild
      cases hchild
    exact Or.inr ⟨p, _, c, hpar, get_eraseNode_of_get hm hpid, by rw [hname, heq]⟩
  · intro p m hm c
    obtain ⟨m₀, hm₀, -, rfl⟩ := of_get_eraseNode hm
    have hchildren : c ∈ (if node.parent = some p then
        { m₀ with children := m₀.children.erase id } else m₀).children ↔
          c ∈ m₀.children ∧ c ≠ id := by
      have hnodup := hl.children_nodup hm₀
      split
      · rw [hnodup.mem_erase_iff, and_comm]
      · grind [mem_children]
    rw [hchildren, hl.mem_children hm₀]
    constructor
    · rintro ⟨⟨n, hn', hpar⟩, hc⟩
      exact ⟨_, get_eraseNode_of_get hn' hc, by rw [hparent]; exact hpar⟩
    · rintro ⟨n, hn', hpar⟩
      obtain ⟨n₀, hn₀, hc, rfl⟩ := of_get_eraseNode hn'
      rw [hparent] at hpar
      exact ⟨⟨n₀, hn₀, hpar⟩, hc⟩
  · intro p m hm
    obtain ⟨m₀, hm₀, -, rfl⟩ := of_get_eraseNode hm
    have hnodup := hl.children_nodup hm₀
    split
    · exact hnodup.erase id
    · exact hnodup

end Linked

/-- What an erasure below `k` takes, and what it leaves as it was. -/
structure Shrinks (cfg : Config κ α) (t t' : PrefixTree κ α) (k : List κ) : Prop where
  kept : ∀ {a : Nat} {m' : TreeNode κ α}, t'.get a = some m' →
    ∃ m, t.get a = some m ∧ m'.name = m.name ∧ m'.parent = m.parent ∧ m'.value = m.value ∧
      m'.children.Sublist m.children
  gone : ∀ {a : Nat} {m : TreeNode κ α}, t.get a = some m → t'.get a = none →
    cfg.hasEntries m.value = false ∧ m.name <+: k

namespace Shrinks

theorem refl (t : PrefixTree κ α) (k : List κ) : Shrinks cfg t t k where
  kept := fun hm => ⟨_, hm, rfl, rfl, rfl, Sublist.refl _⟩
  gone := fun hm hnone => by
    rw [hnone] at hm
    cases hm

theorem trans {t'' : PrefixTree κ α} {k' : List κ} (h₁ : Shrinks cfg t t' k')
    (h₂ : Shrinks cfg t' t'' k) (hk : k <+: k') : Shrinks cfg t t'' k' where
  kept := by
    intro a m'' hm''
    obtain ⟨m', hm', hname', hparent', hvalue', hchildren'⟩ := h₂.kept hm''
    obtain ⟨m, hm, hname, hparent, hvalue, hchildren⟩ := h₁.kept hm'
    exact ⟨m, hm, hname'.trans hname, hparent'.trans hparent, hvalue'.trans hvalue,
      hchildren'.trans hchildren⟩
  gone := by
    intro a m hm hnone
    cases hmid : t'.get a with
    | none => exact h₁.gone hm hmid
    | some m' =>
      obtain ⟨hvalue, hname⟩ := h₂.gone hmid hnone
      obtain ⟨m₁, hm₁, hname₁, -, hvalue₁, -⟩ := h₁.kept hmid
      obtain rfl : m₁ = m := mem_unique hm₁ hm
      exact ⟨hvalue₁ ▸ hvalue, hname₁ ▸ hname.trans hk⟩

theorem eraseNode (hn : t.get id = some node) (hempty : PrefixTree.isEmpty cfg node = true) :
    Shrinks cfg t (t.eraseNode cfg id node) node.name where
  kept := by
    intro a m' hm'
    obtain ⟨m, hm, -, rfl⟩ := of_get_eraseNode hm'
    refine ⟨m, hm, ?_⟩
    split
    · exact ⟨rfl, rfl, rfl, erase_sublist⟩
    · exact ⟨rfl, rfl, rfl, Sublist.refl _⟩
  gone := by
    intro a m hm hnone
    rw [get_eraseNode] at hnone
    split at hnone
    · simp_all [isEmpty]
    · rw [hm] at hnone
      cases hnone

end Shrinks

theorem children_eq_nil_of_isEmpty (h : isEmpty cfg node = true) : node.children = [] := by
  rw [isEmpty, Bool.and_eq_true, List.isEmpty_iff] at h
  exact h.1

/-- An erasure with enough rounds: only the node and ancestors of it go, and another empty node is
    left only if it was empty. -/
theorem Linked.eraseFrom (hl : t.Linked cfg) (hn : t.get id = some node) {rounds : Nat}
    (hrounds : node.name.length < rounds) :
    ∃ t', PrefixTree.eraseFrom cfg true rounds t id = some t' ∧ t'.Linked cfg ∧
      Shrinks cfg t t' node.name ∧
      ∀ a m', t'.get a = some m' → PrefixTree.isEmpty cfg m' = true →
        a ≠ id ∧ ∃ m, t.get a = some m ∧ PrefixTree.isEmpty cfg m = true := by
  induction rounds generalizing t id node with
  | zero => exact absurd hrounds (not_lt_zero _)
  | succ rounds ih =>
    simp only [PrefixTree.eraseFrom, hn, bind_eq_bind, bind_some]
    cases hempty : PrefixTree.isEmpty cfg node with
    | false => grind [Shrinks.refl]
    | true =>
      have hne := hl.parent_ne_self hn
      have hl' := hl.eraseNode hn (children_eq_nil_of_isEmpty hempty)
      have hshrinks := Shrinks.eraseNode hn hempty
      rcases hl.parent hn with ⟨-, hnone⟩ | ⟨p, m, c, hp, hm, hname⟩
      · rw [hnone]
        refine ⟨_, rfl, hl', hshrinks, fun a m' hm' hem => ?_⟩
        obtain ⟨m, hm, ha, rfl⟩ := of_get_eraseNode hm'
        rw [hnone, if_neg (by simp)] at hem
        exact ⟨ha, m, hm, hem⟩
      · rw [hp]
        have hpid : p ≠ id := fun heq => hne (hp.trans (congrArg some heq))
        have hm' : (t.eraseNode cfg id node).get p =
            some { m with children := m.children.erase id } := by
          rw [get_eraseNode_of_get hm hpid, hp, if_pos rfl]
        have hlen : m.name.length < rounds := by
          rw [hname, length_append, length_singleton] at hrounds
          omega
        obtain ⟨t', ht', hlinked, hshrinks', hleft⟩ := ih hl' hm' hlen
        refine ⟨t', ht', hlinked,
          hshrinks.trans hshrinks' (hname ▸ prefix_append _ _), fun a m' hm' hem => ?_⟩
        obtain ⟨hap, m₁, hm₁, hem₁⟩ := hleft a m' hm' hem
        obtain ⟨m₂, hm₂, ha, rfl⟩ := of_get_eraseNode hm₁
        rw [hp, if_neg (fun heq => hap (some.inj heq).symm)] at hem₁
        exact ⟨ha, m₂, hm₂, hem₁⟩

/-- **Erasure with the ancestors** always returns. -/
theorem Linked.eraseIfEmpty (hl : t.Linked cfg) (hn : t.get id = some node) :
    ∃ t', t.eraseIfEmpty cfg id true = some t' ∧ t'.Linked cfg ∧ Shrinks cfg t t' node.name ∧
      ∀ a m', t'.get a = some m' → PrefixTree.isEmpty cfg m' = true →
        a ≠ id ∧ ∃ m, t.get a = some m ∧ PrefixTree.isEmpty cfg m = true := by
  simp only [PrefixTree.eraseIfEmpty, hn, bind_eq_bind, bind_some]
  exact hl.eraseFrom hn (lt_succ_self _)

theorem eraseIfEmpty_false (hn : t.get id = some node) :
    t.eraseIfEmpty cfg id false =
      some (if isEmpty cfg node then t.eraseNode cfg id node else t) := by
  simp only [eraseIfEmpty, eraseFrom, hn, bind_eq_bind, bind_some]
  split
  · cases node.parent <;> rfl
  · rfl

/-! ## What changing a value does -/

theorem get_modify : (t.modify id f).get a =
    (t.get a).map fun m => if a = id then { m with value := f m.value } else m :=
  Heap.get_modify

theorem of_get_modify (h : (t.modify id f).get a = some n) :
    ∃ m, t.get a = some m ∧ n = if a = id then { m with value := f m.value } else m := by
  rw [get_modify] at h
  obtain ⟨m, hm, rfl⟩ := map_eq_some_iff.1 h
  exact ⟨m, hm, rfl⟩

theorem get_modify_of_get (hm : t.get a = some m) :
    (t.modify id f).get a = some (if a = id then { m with value := f m.value } else m) := by
  rw [get_modify, hm]
  rfl

/-- Only values change. -/
theorem links_of_get_modify (h : (t.modify id f).get a = some n) :
    ∃ m, t.get a = some m ∧ n.name = m.name ∧ n.parent = m.parent ∧ n.children = m.children := by
  obtain ⟨m, hm, rfl⟩ := of_get_modify h
  exact ⟨m, hm, by split <;> exact ⟨rfl, rfl, rfl⟩⟩

theorem Linked.modify (hl : t.Linked cfg) (id : Nat) (f : α → α) : (t.modify id f).Linked cfg := by
  refine ⟨?_, ?_, ?_, ?_, ?_⟩
  · refine hl.hashed.trans (Perm.of_eq ?_)
    refine (map_cells_modify (fun m : TreeNode κ α => cfg.hash m.name) ?_).symm
    intro m _
    rfl
  · intro a b m n hm hn heq
    obtain ⟨m₀, hm₀, hname, -⟩ := links_of_get_modify hm
    obtain ⟨n₀, hn₀, hname', -⟩ := links_of_get_modify hn
    exact hl.name_inj hm₀ hn₀ (hname.symm.trans (heq.trans hname'))
  · intro a n hn
    obtain ⟨n₀, hn₀, hname, hparent, -⟩ := links_of_get_modify hn
    rw [hname, hparent]
    rcases hl.parent hn₀ with hroot | ⟨p, m, c, hpar, hm, heq⟩
    · exact Or.inl hroot
    · obtain ⟨m', hm', hname'⟩ : ∃ m', (t.modify id f).get p = some m' ∧ m'.name = m.name := by
        refine ⟨_, get_modify_of_get hm, ?_⟩
        split <;> rfl
      exact Or.inr ⟨p, m', c, hpar, hm', hname' ▸ heq⟩
  · intro p m hm c
    obtain ⟨m₀, hm₀, -, -, hchildren⟩ := links_of_get_modify hm
    rw [hchildren, hl.mem_children hm₀]
    constructor
    · rintro ⟨n, hn, hpar⟩
      refine ⟨_, get_modify_of_get hn, ?_⟩
      split <;> exact hpar
    · rintro ⟨n, hn, hpar⟩
      obtain ⟨n₀, hn₀, -, hparent, -⟩ := links_of_get_modify hn
      exact ⟨n₀, hn₀, hparent.symm.trans hpar⟩
  · intro p m hm
    obtain ⟨m₀, hm₀, -, -, hchildren⟩ := links_of_get_modify hm
    exact hchildren ▸ hl.children_nodup hm₀

end PrefixTree

end NdnMulticast.Lib
