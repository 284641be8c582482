/-
  Runs of the tables: any operations in any order, from start-up on.

  Every operation is a sequence of actions, so the tree is sound in every state reached; when it has
  bare nodes, how the tables are counted and what the removal of a face leaves follow from that.
-/

import NdnMulticast.Nfd.FaceCleanup

namespace NdnMulticast.Nfd.Tables

open Lib Ndn List Option PrefixTree NameTree Component

/-- The Interests that reach the PIT have been decoded. -/
def Event.WellFormed : Event → Prop
  | .pitInsert i | .pitFind i => i.name.WellFormed
  | _ => True

/-- `Fib::erase` by name finds a FIB entry if it finds a node. -/
def erasesEntry (env : NameTreeEnv) (t : Tables) : Event → Bool
  | .fibErase pfx => (NameTree.findExactMatch env t.nameTree pfx pfx.length).all fun nte =>
    (Fib.nextHops t nte).isSome
  | _ => true

/-- The node of a FIB entry that loses its last next hop has other entries or children. -/
def keepsNodes (env : NameTreeEnv) (t : Tables) : Event → Bool
  | .removeNextHop nte face => Fib.keepsNode env t nte face
  | .mgmtRemoveNextHop pfx face => face.all fun face =>
    (Fib.findExactMatch env t pfx).all fun nte => Fib.keepsNode env t nte face
  | _ => true

variable {env : NameTreeEnv} {t t' : Tables} {e : Event}

/-- What an operation is made of, except for face removal. -/
theorem step_ops (hs : Sound env t) (hwf : e.WellFormed) (hface : ∀ face, e ≠ .removeFace face)
    (h : step env t e = some t') : Ops env (erasesEntry env t e) (keepsNodes env t e) t t' := by
  cases e with
  | fibInsert pfx =>
    obtain ⟨⟨nte, t₁⟩, hinsert, rfl⟩ := map_eq_some_iff.1 h
    exact Fib.ops_insert hinsert
  | addOrUpdateNextHop nte face cost => exact Fib.ops_addOrUpdateNextHop h
  | removeNextHop nte face => exact Fib.ops_removeNextHop (fun htidy => htidy) h
  | fibErase pfx => exact Fib.ops_erase hs.tree (fun hexact => hexact) h
  | fibEraseEntry nte => exact Fib.ops_eraseEntry h
  | mgmtAddNextHop pfx face cost =>
    obtain ⟨⟨r, t₁⟩, hadd, rfl⟩ := map_eq_some_iff.1 h
    exact FibManager.ops_addNextHop hadd
  | mgmtRemoveNextHop pfx face =>
    obtain ⟨⟨r, t₁⟩, hremove, rfl⟩ := map_eq_some_iff.1 h
    exact FibManager.ops_removeNextHop (fun htidy => htidy) hremove
  | pitInsert i =>
    obtain ⟨⟨id, isNew, t₁⟩, hinsert, rfl⟩ := map_eq_some_iff.1 h
    exact Pit.ops_insert hs.tree hwf hinsert
  | pitFind i =>
    obtain ⟨-, -, rfl⟩ := map_eq_some_iff.1 h
    exact .refl
  | pitErase id => exact Pit.ops_erase h
  | updateRecords id u => exact Pit.ops_updateRecords h
  | insertPitInfo id part item =>
    exact Pit.ops_modify (fun x => by cases part <;> exact ⟨rfl, rfl⟩) t'.nextSerial h
  | getMeasurements n now => exact Measurements.ops_get h
  | getMeasurementsOfFib nte now => exact Measurements.ops_getOfFib h
  | getMeasurementsOfPit id now => exact Measurements.ops_getOfPit h
  | getParent nte now => exact Measurements.ops_getParent h
  | insertMeasurementsInfo nte item =>
    simp only [step, bind_eq_bind, bind_eq_some_iff] at h
    obtain ⟨v, hv, m, -, h⟩ := h
    obtain ⟨node, hnode, rfl⟩ := get_eq_some hv
    cases h
    exact .single (Measurements.op_setMeasurementsEntry hnode _)
  | extendLifetime nte now lifetime => exact Measurements.ops_extendLifetime h
  | cleanup nte => exact Measurements.ops_cleanup h
  | chooseStrategy pfx name => exact StrategyChoice.ops_insert hs.tree h
  | unsetStrategy pfx => exact StrategyChoice.ops_erase hs.tree h
  | removeFace face => exact absurd rfl (hface face)

/-- Face removal is more than operations one after the other, and leaves no bare node. -/
theorem step_cases (hs : Sound env t) (hwf : e.WellFormed) (h : step env t e = some t') :
    Ops env (erasesEntry env t e) (keepsNodes env t e) t t' ∨
      Reaches env (erasesEntry env t e) t t' ∧ NoBare env t' := by
  by_cases hface : ∀ face, e ≠ .removeFace face
  · exact .inl (step_ops hs hwf hface h)
  simp only [not_forall, not_not] at hface
  obtain ⟨face, rfl⟩ := hface
  have hspec : ∃ t₁, t.cleanupOnFaceRemoval env face = some t₁ ∧ Reaches env true t t₁ ∧
      NoBare env t₁ ∧ _ := cleanup_spec hs face
  obtain ⟨t₁, ht₁, hreach, hbare, -⟩ := hspec
  obtain rfl : t₁ = t' := mem_unique ht₁ h
  exact .inr ⟨hreach, hbare⟩

theorem step_reaches (hs : Sound env t) (hwf : e.WellFormed) (h : step env t e = some t') :
    Reaches env (erasesEntry env t e) t t' :=
  (step_cases hs hwf h).elim Ops.reaches And.left

theorem step_noBare (hs : Sound env t) (hwf : e.WellFormed) (hb : NoBare env t)
    (hkeeps : keepsNodes env t e = true) (h : step env t e = some t') : NoBare env t' := by
  rcases step_cases hs hwf h with hops | ⟨-, hbare⟩
  · rw [hkeeps] at hops
    exact Ops.noBare hs hb hops
  · exact hbare

/-! ## Start-up -/

variable {default : InstanceName} {t₀ : Tables}

section

variable (h : init env default = some t₀)
include h

theorem get_init :
    NameTree.Sound env t₀.nameTree ∧ t₀.nPit = 0 ∧ t₀.nFib = 0 ∧
      ∃ nte root, t₀.nameTree.get nte = some root ∧ root.name = [] ∧
        ∃ inst, ∀ a node, t₀.nameTree.get a = some node →
          a = nte ∧ node.value = TableEntries.none.setStrategyChoiceEntry (some inst) := by
  simp only [init, StrategyChoice.setDefaultStrategy, bind_eq_bind, bind_eq_some_iff,
    Prod.exists] at h
  obtain ⟨nte, t₁, hlookup, h⟩ := h
  obtain ⟨nameTree, htree, rfl⟩ := lookup_eq_some hlookup
  have hs : NameTree.Sound env (empty env).nameTree := .init
  obtain ⟨hs₁, hgrows, root, hroot, hname⟩ := hs.lookup htree
  -- the lookup has made a node for the empty name
  have hnew : ∀ a node, nameTree.get a = some node → a = nte ∧ node.value = TableEntries.none := by
    intro a node hnode
    obtain ⟨hvalue, hpre⟩ := hgrows.new hnode rfl
    refine ⟨hs₁.linked.name_inj hnode hroot ?_, hvalue⟩
    rw [hname]
    exact prefix_nil.1 hpre
  let inst : Instance := ⟨0, default⟩
  have htree₀ : t₀.nameTree = nameTree.modify nte (·.setStrategyChoiceEntry (some inst)) := by
    cases h
    rfl
  have hcounts : t₀.nPit = 0 ∧ t₀.nFib = 0 := by
    cases h
    exact ⟨rfl, rfl⟩
  rw [htree₀]
  refine ⟨hs₁.modify nte _, hcounts.1, hcounts.2, nte,
    { root with value := root.value.setStrategyChoiceEntry (some inst) }, ?_, hname, inst, ?_⟩
  · rw [PrefixTree.get_modify, hroot, map_some, if_pos rfl]
  · intro a node hnode
    obtain ⟨m, hm, rfl⟩ := of_get_modify hnode
    obtain ⟨rfl, hvalue⟩ := hnew a m hm
    rw [if_pos rfl, hvalue]
    exact ⟨rfl, rfl⟩

theorem init_pits : t₀.pits = [] := by
  obtain ⟨-, -, -, nte, root, -, -, inst, hall⟩ := get_init h
  refine eq_nil_iff_forall_not_mem.2 fun x hx => ?_
  obtain ⟨a, node, hnode, hmem⟩ := mem_pits_iff.1 hx
  rw [(hall a node hnode).2] at hmem
  cases hmem

theorem init_sound : Sound env t₀ := by
  have hpits := init_pits h
  obtain ⟨htree, hpit, -, nte, root, hroot, hname, inst, hall⟩ := get_init h
  refine ⟨htree, ⟨nte, root, hroot, hname, ?_⟩, ?_, ?_, ?_, ?_, ?_, ?_, ?_⟩
  · rw [(hall nte root hroot).2]
    rfl
  · intro a node hnode hops hhops
    rw [(hall a node hnode).2] at hhops
    cases hhops
  · intro a node hnode x hx
    rw [(hall a node hnode).2] at hx
    cases hx
  · intro x hx
    rw [hpits] at hx
    cases hx
  · rw [hpits]
    exact nodup_nil
  · intro x hx
    rw [hpits] at hx
    cases hx
  · rw [hpits]
    exact nodup_nil
  · rw [hpit, hpits]
    rfl

theorem init_noBare : NoBare env t₀ := by
  obtain ⟨-, -, -, nte, root, hroot, -, inst, hall⟩ := get_init h
  intro a node hnode
  refine isEmpty_of_hasTableEntries ?_
  rw [(hall a node hnode).2]
  rfl

theorem init_nFib : t₀.nFib = .ofNat t₀.fibs.length := by
  obtain ⟨-, -, hfib, nte, root, hroot, -, inst, hall⟩ := get_init h
  have hfibs : t₀.fibs = [] := by
    refine eq_nil_iff_forall_not_mem.2 fun hops hmem => ?_
    obtain ⟨a, node, hnode, hmem⟩ := mem_collect_iff.1 hmem
    rw [(hall a node hnode).2] at hmem
    cases hmem
  rw [hfib, hfibs]
  rfl

end

/-- **All states of a run are sound.** -/
theorem run_sound (hinit : init env default = some t₀) {es : List Event}
    (hrun : Run (step env) (fun _ e => e.WellFormed) t₀ es t) : Sound env t :=
  hrun.invariant (fun _ _ _ hs hwf hstep => hs.reaches (step_reaches hs hwf hstep))
    (init_sound hinit)

/-! ## Bare nodes -/

/-- The names are closed under prefixes, and the links between nodes are consistent. -/
structure LinksFit (t : Tables) : Prop where
  prefixes : ∀ a node, t.nameTree.get a = some node → ∀ k, k <+: node.name →
    ∃ b m, t.nameTree.get b = some m ∧ m.name = k
  parent : ∀ a node, t.nameTree.get a = some node →
    (node.name = [] ∧ node.parent = none) ∨
      ∃ p m c, node.parent = some p ∧ t.nameTree.get p = some m ∧ node.name = m.name ++ [c]
  children : ∀ p m, t.nameTree.get p = some m →
    ∀ c, c ∈ m.children ↔ ∃ n, t.nameTree.get c = some n ∧ n.parent = some p

/-- Every node that holds no entry has a child, and the assertion of `Pit::find` holds. -/
structure Tidy (env : NameTreeEnv) (t : Tables) : Prop where
  children_ne_nil : ∀ a node, t.nameTree.get a = some node → node.value.hasTableEntries = false →
    node.children ≠ []
  find_returns : ∀ i : Interest, (Pit.find env t i).isSome = true

theorem Sound.linksFit (hs : Sound env t) : LinksFit t where
  prefixes := fun _ _ hnode _ hk => hs.tree.linked.exists_of_prefix hnode hk
  parent := fun _ _ hnode => hs.tree.linked.parent hnode
  children := fun _ _ hm => hs.tree.linked.mem_children hm

theorem noBare_iff : NoBare env t ↔ ∀ a node, t.nameTree.get a = some node →
    node.value.hasTableEntries = false → node.children ≠ [] := by
  have hbare : ∀ node : TreeNode (List UInt8) TableEntries,
      isEmpty (config env) node = false ↔
        (node.value.hasTableEntries = false → node.children ≠ []) := by
    intro node
    show (node.children.isEmpty && !node.value.hasTableEntries) = false ↔ _
    cases node.value.hasTableEntries <;> cases node.children <;> simp
  exact forall_congr' fun a => forall_congr' fun node => imp_congr_right fun _ => hbare node

theorem Pit.find_isSome (hs : Sound env t) (hb : NoBare env t) (i : Interest) :
    (Pit.find env t i).isSome = true := by
  unfold Pit.find
  split
  · rfl
  rename_i nte hfind
  obtain ⟨node, hnode, -⟩ := (findExactMatch_eq_some_iff hs.tree).1 hfind
  rw [hnode, bind_eq_bind, bind_some]
  split
  · rfl
  · rw [hb nte node hnode]
    rfl

theorem tidy_iff (hs : Sound env t) : Tidy env t ↔ NoBare env t := by
  constructor
  · intro htidy
    exact noBare_iff.2 htidy.children_ne_nil
  · intro hb
    exact ⟨noBare_iff.1 hb, Pit.find_isSome hs hb⟩

variable {face : FacePtr} {v : TableEntries}

/-- Removing the last next hop leaves a node that nothing else uses. -/
theorem Fib.not_noBare_removeNextHop {nte : Nat} (hkeeps : Fib.keepsNode env t nte face = false)
    (h : Fib.removeNextHop env t nte face = some t') : ¬NoBare env t' := by
  intro hb
  unfold Fib.keepsNode at hkeeps
  cases hnode : t.nameTree.get nte with
  | none =>
    rw [hnode] at hkeeps
    cases hkeeps
  | some node =>
    rw [hnode, all_some] at hkeeps
    cases hfib : node.value.fibEntry with
    | none =>
      rw [hfib] at hkeeps
      cases hkeeps
    | some hops =>
      rw [hfib, all_some, Bool.or_eq_false_iff, Bool.or_eq_false_iff, Bool.not_eq_false',
        Bool.not_eq_false', Bool.not_eq_false'] at hkeeps
      obtain ⟨⟨hany, hrest⟩, hempty⟩ := hkeeps
      obtain ⟨t₁, ht₁, hget⟩ := Fib.removeNextHop_spec hnode hfib
      obtain rfl : t₁ = t' := mem_unique ht₁ h
      -- the node is there, with nothing
      have hdrop : dropFace face hops = none := by
        rw [dropFace, hany, hrest]
        rfl
      have hleft := hget nte
      rw [hnode, map_some, if_pos rfl, hdrop] at hleft
      rw [hb nte _ hleft] at hempty
      cases hempty

theorem step_noBare_iff (hs : Sound env t) (hwf : e.WellFormed) (hb : NoBare env t)
    (h : step env t e = some t') : keepsNodes env t e = true ↔ NoBare env t' := by
  constructor
  · intro hkeeps
    exact step_noBare hs hwf hb hkeeps h
  · intro hb'
    by_contra hkeeps
    rw [Bool.not_eq_true] at hkeeps
    cases e with
    | removeNextHop nte face => exact Fib.not_noBare_removeNextHop hkeeps h hb'
    | mgmtRemoveNextHop pfx face =>
      simp only [step, FibManager.removeNextHop, bind_eq_bind] at h
      simp only [keepsNodes] at hkeeps
      cases face with
      | none => cases hkeeps
      | some face =>
        cases hfind : Fib.findExactMatch env t pfx with
        | none =>
          rw [hfind] at hkeeps
          cases hkeeps
        | some nte =>
          rw [hfind] at hkeeps h
          obtain ⟨⟨r, t₁⟩, hremove, rfl⟩ := map_eq_some_iff.1 h
          obtain ⟨t₂, hremove, heq⟩ := bind_eq_some_iff.1 hremove
          cases heq
          exact Fib.not_noBare_removeNextHop hkeeps hremove hb'
    | _ => cases hkeeps

/-- **The name tree.**  In every run the names are closed under prefixes and the links fit.  Every
    node holds an entry or has a child in every state iff no operation takes the last next hop from
    a node that has nothing else. -/
theorem run_noBare_iff (hinit : init env default = some t₀) :
    (∀ es t, Run (step env) (fun _ e => e.WellFormed) t₀ es t → LinksFit t) ∧
      ∀ es t, (Run (step env) (fun t e => Tidy env t ∧ e.WellFormed) t₀ es t ∧ Tidy env t) ↔
        Run (step env) (fun t e => e.WellFormed ∧ keepsNodes env t e = true) t₀ es t := by
  refine ⟨fun es t hrun => (run_sound hinit hrun).linksFit, fun es t => ?_⟩
  refine Run.forall_iff_of_step (J := fun t => Sound env t ∧ NoBare env t)
    (P := fun _ (e : Event) => e.WellFormed) ?_ ?_ ?_ ⟨init_sound hinit, init_noBare hinit⟩
  · rintro t ⟨hs, hb⟩
    exact (tidy_iff hs).2 hb
  · rintro t e t' ⟨hs, hb⟩ hstep
    refine and_congr_right fun hwf => ?_
    rw [step_noBare_iff hs hwf hb hstep, tidy_iff (hs.reaches (step_reaches hs hwf hstep))]
  · rintro t e t' ⟨hs, hb⟩ ⟨hwf, hkeeps⟩ hstep
    exact ⟨hs.reaches (step_reaches hs hwf hstep), step_noBare hs hwf hb hkeeps hstep⟩

/-! Tables to compute with. -/

def smallEnv : NameTreeEnv where
  hashFunc := fun octets => octets.foldl (fun h octet => 31 * h + octet.toNat) 7
  options :=
    { minSize := 4
      expandThreshold := fun n => n / 2
      shrinkThreshold := fun n => n / 10
      expand := fun n => 2 * n
      shrink := fun n => n / 2
      minSize_pos := by decide
      expand_pos := fun n hn => Nat.mul_pos (by decide) hn }

def smallTables : Tables := (init smallEnv ⟨.bestRoute, []⟩).get (by decide)

theorem init_smallTables : init smallEnv ⟨.bestRoute, []⟩ = some smallTables :=
  (some_get _).symm

/-- A route is added and removed again; then a Nack for the same name arrives. -/
theorem removeNextHop_leaves_bare_node :
    ∃ t, Run (step smallEnv) (fun _ e => e.WellFormed) smallTables
        [.mgmtAddNextHop [Component.ofString "a"] (some 1) 0,
          .mgmtRemoveNextHop [Component.ofString "a"] (some 1)] t ∧
      Pit.find smallEnv t (Interest.blank [Component.ofString "a"]) = none := by
  refine Run.exists_of_forall (fun t =>
    (Pit.find smallEnv t (Interest.blank [ofString "a"])).isNone = true) ?_ (by decide)
    fun _ _ ht => isNone_iff_eq_none.1 ht
  intro e he
  rcases mem_pair.1 he with rfl | rfl <;> trivial

/-- With measurements below it, the node stays in use. -/
theorem run_noBare_used :
    ∃ t, Run (step smallEnv) (fun t e => Tidy smallEnv t ∧ e.WellFormed) smallTables
        [.mgmtAddNextHop [Component.ofString "a"] (some 1) 0,
          .getMeasurements [Component.ofString "a", Component.ofString "b"] 0,
          .mgmtRemoveNextHop [Component.ofString "a"] (some 1)] t ∧ Tidy smallEnv t := by
  obtain ⟨t, hrun, -⟩ : ∃ t, Run (step smallEnv) (fun t e => keepsNodes smallEnv t e = true)
      smallTables [.mgmtAddNextHop [ofString "a"] (some 1) 0,
        .getMeasurements [ofString "a", ofString "b"] 0,
        .mgmtRemoveNextHop [ofString "a"] (some 1)] t ∧ True :=
    Run.exists_of_decide _ (by decide) fun _ _ ht => ht
  refine ⟨t, ((run_noBare_iff init_smallTables).2 _ t).2 (hrun.and_of_forall ?_)⟩
  intro e he
  simp only [mem_cons, not_mem_nil, or_false] at he
  rcases he with rfl | rfl | rfl <;> trivial

/-! ## The size of the FIB -/

/-- The number of nodes that carry a FIB entry. -/
def fibNodes (t : Tables) : Nat :=
  t.nameTree.nodes.cells.countP fun cell => cell.2.value.fibEntry.isSome

theorem length_fibs (t : Tables) : t.fibs.length = t.fibNodes := by
  rw [fibs, fibNodes, collect]
  induction t.nameTree.nodes.cells with
  | nil => rfl
  | cons cell cells ih => grind

/-- Erasing at a node without a FIB entry only moves the counter. -/
theorem Fib.nFib_ne_of_eraseAt {nte : Nat} {node : TreeNode (List UInt8) TableEntries}
    (hnode : t.nameTree.get nte = some node) (hfib : node.value.fibEntry = none)
    (hcount : t.nFib = .ofNat t.fibs.length) (h : Fib.eraseAt env t nte true = some t') :
    t'.nFib ≠ .ofNat t'.fibs.length := by
  simp only [Fib.eraseAt, if_true, bind_eq_bind, bind_eq_some_iff] at h
  obtain ⟨t₁, herase, h⟩ := h
  have hop : Op env true false t t₁ := by
    refine .of_eraseIfEmpty (t.modify nte (·.setFibEntry none)) hnode herase rfl ?_
      (.fib none ?_ (fun _ hops hmem => by cases hmem) rfl rfl)
    · obtain ⟨top, nameTree, -, -, rfl⟩ := eraseIfEmpty_eq_some herase
      rfl
    · intro _
      rw [hfib]
      rfl
  have hright : t₁.nFib = .ofNat t₁.fibs.length := Reaches.nFib hop.reaches hcount
  cases h
  show t₁.nFib - 1 ≠ .ofNat t₁.fibs.length
  rw [← hright]
  intro heq
  have hone : t₁.nFib - 1 + 1 = t₁.nFib + 1 := by rw [heq]
  rw [UInt64.sub_add_cancel] at hone
  have hzero : t₁.nFib + 0 = t₁.nFib + 1 := by rw [UInt64.add_zero]; exact hone
  exact absurd ((UInt64.add_right_inj _).1 hzero) (by decide)

/-- Erasing a prefix that has no FIB entry changes nothing. -/
def leavesAlone (env : NameTreeEnv) (t : Tables) (e : Event) : Prop :=
  ∀ pfx, e = .fibErase pfx → Fib.findExactMatch env t pfx = none → step env t e = some t

theorem step_fibSize_iff (hs : Sound env t) (hwf : e.WellFormed)
    (hcount : t.nFib = .ofNat t.fibs.length) (h : step env t e = some t') :
    erasesEntry env t e = true ↔ leavesAlone env t e ∧ t'.nFib = .ofNat t'.fibs.length := by
  constructor
  · intro herases
    have hreach := step_reaches hs hwf h
    rw [herases] at hreach
    refine ⟨?_, Reaches.nFib hreach hcount⟩
    rintro pfx rfl hnone
    rw [erasesEntry] at herases
    show Fib.erase env t pfx = some t
    unfold Fib.erase
    cases hfind : findExactMatch env t.nameTree pfx pfx.length with
    | none => rfl
    | some nte =>
      -- a node with an entry would have been found
      rw [hfind, all_some] at herases
      rw [Fib.findExactMatch, hfind, filter_some, if_pos herases] at hnone
      cases hnone
  · rintro ⟨-, hcount'⟩
    by_contra herases
    rw [Bool.not_eq_true] at herases
    cases e with
    | fibErase pfx =>
      simp only [erasesEntry] at herases
      simp only [step, Fib.erase] at h
      cases hfind : findExactMatch env t.nameTree pfx pfx.length with
      | none =>
        rw [hfind] at herases
        cases herases
      | some nte =>
        rw [hfind] at herases h
        obtain ⟨node, hnode, -⟩ := (findExactMatch_eq_some_iff hs.tree).1 hfind
        rw [all_some, Fib.nextHops, get, hnode] at herases
        exact Fib.nFib_ne_of_eraseAt hnode
          (isNone_iff_eq_none.1 (isSome_eq_false_iff.1 herases)) hcount h hcount'
    | _ => cases herases

/-- **The size of the FIB** is the number of its entries in every state of a run, and erasing a
    prefix without an entry changes nothing, iff `Fib::erase` by name never finds a node that has no
    FIB entry. -/
theorem run_fibSize_iff (hinit : init env default = some t₀) {es : List Event} :
    (Run (step env) (fun t e => t.nFib = .ofNat t.fibNodes ∧ e.WellFormed ∧
      leavesAlone env t e) t₀ es t ∧
        t.nFib = .ofNat t.fibNodes) ↔
      Run (step env) (fun t e => e.WellFormed ∧ erasesEntry env t e = true) t₀ es t := by
  simp only [← length_fibs]
  refine Run.forall_iff_of_step (J := fun t => Sound env t ∧ t.nFib = .ofNat t.fibs.length)
    (I := fun t => t.nFib = .ofNat t.fibs.length)
    (P := fun t (e : Event) => e.WellFormed ∧ leavesAlone env t e) ?_ ?_ ?_
    ⟨init_sound hinit, init_nFib hinit⟩
  · exact fun t h => h.2
  · grind [step_fibSize_iff]
  · rintro t e t' ⟨hs, hcount⟩ ⟨hwf, herases⟩ hstep
    exact ⟨hs.reaches (step_reaches hs hwf hstep),
      ((step_fibSize_iff hs hwf hcount hstep).1 herases).2⟩

/-- The node of another table: the FIB has no entry, and afterwards a size of 2⁶⁴ - 1. -/
theorem fibErase_miscounts :
    ∃ t, Run (step smallEnv) (fun _ e => e.WellFormed) smallTables
        [.getMeasurements [Component.ofString "a"] 0, .fibErase [Component.ofString "a"]] t ∧
      t.fibNodes = 0 ∧ t.nFib = 18446744073709551615 := by
  refine Run.exists_of_forall _ ?_ (by decide) fun _ _ ht => ht
  intro e he
  rcases mem_pair.1 he with rfl | rfl <;> trivial

/-- An entry is erased by name, and another one stays. -/
theorem run_fibSize_two :
    ∃ t, Run (step smallEnv) (fun t e => t.nFib = .ofNat t.fibNodes ∧ e.WellFormed ∧
          leavesAlone smallEnv t e) smallTables
        [.fibInsert [Component.ofString "a"], .fibInsert [Component.ofString "b"],
          .fibErase [Component.ofString "a"]] t ∧
      t.nFib = .ofNat t.fibNodes ∧ t.fibNodes = 1 := by
  obtain ⟨t, hrun, htest⟩ : ∃ t, Run (step smallEnv) (fun t e => erasesEntry smallEnv t e = true)
      smallTables [.fibInsert [ofString "a"], .fibInsert [ofString "b"],
        .fibErase [ofString "a"]] t ∧ t.fibNodes = 1 :=
    Run.exists_of_decide _ (by decide) fun _ _ ht => ht
  have hrun := hrun.and_of_forall (Q := Event.WellFormed) fun e he => by
    simp only [mem_cons, not_mem_nil, or_false] at he
    rcases he with rfl | rfl | rfl <;> trivial
  obtain ⟨hall, hcount⟩ := (run_fibSize_iff init_smallTables).2 hrun
  exact ⟨t, hall, hcount, htest⟩

/-! ## Face removal -/

/-- A PIT entry before and after the records of a face are removed. -/
structure RecordsRemoved (face : FacePtr) (x x' : PitEntry) : Prop where
  inRecords : x'.entry.inRecords = x.entry.inRecords.filter (·.face != face)
  outRecords : x'.entry.outRecords = x.entry.outRecords.filter (·.face != face)
  interest : x'.entry.interest = x.entry.interest
  expiryTimer : x'.entry.expiryTimer = x.entry.expiryTimer
  isSatisfied : x'.entry.isSatisfied = x.entry.isSatisfied
  dataFreshnessPeriod : x'.entry.dataFreshnessPeriod = x.entry.dataFreshnessPeriod
  id : x'.id = x.id
  info : (x'.info, x'.inInfo, x'.outInfo) = (x.info, x.inInfo, x.outInfo)

/-- The entries of one name before and after a face is removed. -/
structure FaceRemoved (face : FacePtr) (v v' : TableEntries) : Prop where
  /-- An entry that loses its last next hop goes. -/
  fibEntry : v'.fibEntry = v.fibEntry.bind fun hops =>
    if hops ≠ [] ∧ hops.filter (·.face != face) = [] then none
    else some (hops.filter (·.face != face))
  pitEntries : Forall₂ (RecordsRemoved face) v.pitEntries v'.pitEntries
  measurementsEntry : v'.measurementsEntry = v.measurementsEntry
  strategyChoiceEntry : v'.strategyChoiceEntry = v.strategyChoiceEntry

/-- Nothing refers to a face. -/
structure NoReference (face : FacePtr) (v : TableEntries) : Prop where
  nextHops : ∀ hops ∈ v.fibEntry, ∀ nh ∈ hops, nh.face ≠ face
  inRecords : ∀ x ∈ v.pitEntries, ∀ r ∈ x.entry.inRecords, r.face ≠ face
  outRecords : ∀ x ∈ v.pitEntries, ∀ r ∈ x.entry.outRecords, r.face ≠ face

theorem dropFace_eq {hops : List NextHop} (h : (hops.map NextHop.face).Nodup) :
    dropFace face hops = if hops ≠ [] ∧ hops.filter (·.face != face) = [] then none
      else some (hops.filter (·.face != face)) := by
  have hrest : NextHops.removeNextHop hops face = hops.filter (·.face != face) :=
    NextHops.removeNextHop_eq_others h
  rw [dropFace, hrest]
  by_cases hnil : hops.filter (·.face != face) = []
  · -- every next hop was to the face, so there is one unless the list was empty
    cases hops with
    | nil => rfl
    | cons nh hops => simp_all
  · grind

theorem faceRemoved_withoutFace (h : ∀ hops ∈ v.fibEntry, NextHops.Valid hops) :
    FaceRemoved face v (withoutFace face v) where
  fibEntry := by
    show v.fibEntry.bind (dropFace face) = _
    cases hfib : v.fibEntry with
    | none => rfl
    | some hops => exact dropFace_eq (h hops hfib).faces_nodup
  pitEntries := forall₂_map_right_iff.2 (forall₂_same.2 fun _ _ =>
    ⟨rfl, rfl, rfl, rfl, rfl, rfl, rfl, rfl⟩)
  measurementsEntry := rfl
  strategyChoiceEntry := rfl

theorem exists_recordsRemoved {xs xs' : List PitEntry} (h : Forall₂ (RecordsRemoved face) xs xs')
    {x' : PitEntry} (hx' : x' ∈ xs') : ∃ x, RecordsRemoved face x x' := by
  induction h with
  | nil => cases hx'
  | @cons x _ _ _ hx _ ih =>
    rcases mem_cons.1 hx' with rfl | hx'
    · exact ⟨x, hx⟩
    · exact ih hx'

theorem FaceRemoved.noReference {v' : TableEntries} (h : FaceRemoved face v v') :
    NoReference face v' where
  nextHops := by
    intro hops hhops nh hnh
    rw [h.fibEntry] at hhops
    obtain ⟨hops₀, -, hsome⟩ := bind_eq_some_iff.1 hhops
    split at hsome
    · cases hsome
    · cases hsome
      simpa using (mem_filter.1 hnh).2
  inRecords := by
    intro x' hx' r hr
    obtain ⟨x, hx⟩ := exists_recordsRemoved h.pitEntries hx'
    rw [hx.inRecords] at hr
    simpa using (mem_filter.1 hr).2
  outRecords := by
    intro x' hx' r hr
    obtain ⟨x, hx⟩ := exists_recordsRemoved h.pitEntries hx'
    rw [hx.outRecords] at hr
    simpa using (mem_filter.1 hr).2

theorem Sound.valueAt_nextHops (hs : Sound env t) (k : List (List UInt8)) :
    ∀ hops ∈ (t.nameTree.valueAt (config env) k).fibEntry, NextHops.Valid hops := by
  have hl := hs.tree.linked
  cases hfind : t.nameTree.find (config env) k with
  | some a =>
    obtain ⟨node, hnode, rfl⟩ := hl.find_eq_some_iff.1 hfind
    rw [hl.valueAt_of_get hnode]
    exact hs.nextHops a node hnode
  | none =>
    rw [hl.valueAt_of_notMem (hl.find_eq_none_iff.1 hfind)]
    intro hops hhops
    cases hhops

/-- **Face removal** in any state the tables can reach returns, leaves no reference to the face,
    leaves the entries of every name as they were but for the face, and leaves no node without a
    table entry or a child. -/
theorem run_cleanupOnFaceRemoval (hinit : init env default = some t₀) {es : List Event}
    (hrun : Run (step env) (fun _ e => e.WellFormed) t₀ es t) (face : FacePtr) :
    ∃ t', t.cleanupOnFaceRemoval env face = some t' ∧
      (∀ a node, t'.nameTree.get a = some node → NoReference face node.value) ∧
      (∀ k, FaceRemoved face (t.nameTree.valueAt (NameTree.config env) k)
        (t'.nameTree.valueAt (NameTree.config env) k)) ∧
      ∀ a node, t'.nameTree.get a = some node → node.value.hasTableEntries = false →
        node.children ≠ [] := by
  have hs : Sound env t := run_sound hinit hrun
  obtain ⟨t', ht', hreach, hbare, hvalue⟩ := cleanup_spec hs face
  have hremoved : ∀ k, FaceRemoved face (t.nameTree.valueAt (config env) k)
      (t'.nameTree.valueAt (config env) k) := by
    intro k
    rw [hvalue k]
    exact faceRemoved_withoutFace (hs.valueAt_nextHops k)
  have hl' := (@Sound.reaches env true t t' hs hreach).tree.linked
  refine ⟨t', ht', fun a node hnode => ?_, hremoved, ?_⟩
  · rw [← hl'.valueAt_of_get hnode]
    exact (hremoved node.name).noReference
  · exact noBare_iff.1 hbare

/-- `/a` loses its only next hop, `/b` one of two, and the entry of a pending Interest the records
    of one of two faces. -/
theorem run_cleanupOnFaceRemoval_two :
    ∃ t, Run (step smallEnv) (fun _ e => e.WellFormed) smallTables
        [.mgmtAddNextHop [Component.ofString "a"] (some 1) 10,
          .mgmtAddNextHop [Component.ofString "b"] (some 1) 10,
          .mgmtAddNextHop [Component.ofString "b"] (some 2) 20,
          .pitInsert (.blank [Component.ofString "b"]),
          .updateRecords 0 (.insertOrUpdateInRecord 1 (.blank [Component.ofString "b"]) [] 0),
          .updateRecords 0 (.insertOrUpdateInRecord 2 (.blank [Component.ofString "b"]) [] 0),
          .updateRecords 0 (.insertOrUpdateOutRecord 1 (.blank [Component.ofString "b"]) [] 0)] t ∧
      (t.pits.map fun x => (x.entry.inRecords.map InRecord.face,
        x.entry.outRecords.map OutRecord.face)) = [([2, 1], [1])] ∧
      ∃ t', t.cleanupOnFaceRemoval smallEnv 1 = some t' ∧
      (∀ a node, t'.nameTree.get a = some node → NoReference 1 node.value) ∧
      (∀ k, FaceRemoved 1 (t.nameTree.valueAt (NameTree.config smallEnv) k)
        (t'.nameTree.valueAt (NameTree.config smallEnv) k)) ∧
      ∀ a node, t'.nameTree.get a = some node → node.value.hasTableEntries = false →
        node.children ≠ [] := by
  refine Run.exists_of_forall _ (fun e he => ?_) (by decide) fun t hrun hrecords =>
    ⟨hrecords, run_cleanupOnFaceRemoval init_smallTables hrun 1⟩
  simp only [mem_cons, not_mem_nil, or_false] at he
  rcases he with rfl | rfl | rfl | rfl | rfl | rfl | rfl <;> try trivial
  intro c hc
  rw [mem_singleton.1 hc]
  exact wellFormed_encode (by decide) (by decide) (by decide)

end NdnMulticast.Nfd.Tables
