/-
  What `StrategyChoice::insert` and `erase` do to the items that strategies have placed on PIT
  entries, their records and measurements entries.

  A changed choice shows at the names that it governs; the source clears the entries of the
  *nodes* that it governs.  A PIT entry whose name ends with an implicit digest hangs one level
  above its name, so the two differ where a choice is made for the full name.
-/

import NdnMulticast.Lib.Hierarchy
import NdnMulticast.Nfd.TableRuns

namespace NdnMulticast.Nfd

open Lib Ndn List Option Component NameTree Function PitEntry

namespace PitEntry

variable (x : PitEntry)

/-- The entry or one of its records carries an item. -/
def carriesInfo : Bool :=
  !x.info.isEmpty || x.entry.inRecords.any (fun r => !(x.inInfo r.face).isEmpty) ||
    x.entry.outRecords.any fun r => !(x.outInfo r.face).isEmpty

/-- The items on the entry and its records are the same. -/
structure SameInfo (x' : PitEntry) : Prop where
  entry : x'.info = x.info
  inRecords : ∀ r ∈ x.entry.inRecords, x'.inInfo r.face = x.inInfo r.face
  outRecords : ∀ r ∈ x.entry.outRecords, x'.outInfo r.face = x.outInfo r.face

variable {x}

theorem carriesInfo_clearStrategyInfo : x.clearStrategyInfo.carriesInfo = false := by
  simp [carriesInfo, clearStrategyInfo]

theorem sameInfo_clearStrategyInfo_iff :
    SameInfo x x.clearStrategyInfo ↔ x.carriesInfo = false := by
  simp only [carriesInfo, Bool.or_eq_false_iff, Bool.not_eq_false', List.isEmpty_iff,
    List.any_eq_false, Bool.not_eq_true', Bool.not_eq_false]
  constructor
  · intro h
    exact ⟨⟨h.entry.symm, fun r hr => (h.inRecords r hr).symm⟩,
      fun r hr => (h.outRecords r hr).symm⟩
  · rintro ⟨⟨hentry, hin⟩, hout⟩
    exact ⟨hentry.symm, fun r hr => (hin r hr).symm, fun r hr => (hout r hr).symm⟩

end PitEntry

namespace Tables

/-- The strategy chosen for a name. -/
def choiceAt (env : NameTreeEnv) (t : Tables) (k : NameKey) : Option Instance :=
  (t.nameTree.valueAt (NameTree.config env) k).strategyChoiceEntry

variable {env : NameTreeEnv} {t t' : Tables} {nte : Nat} {node : TreeNode (List UInt8) TableEntries}
  {k p : NameKey} {inst : Instance}

/-! ## Effective strategies -/

theorem choiceAt_of_get (hs : NameTree.Sound env t.nameTree)
    (hnode : t.nameTree.get nte = some node) :
    choiceAt env t node.name = node.value.strategyChoiceEntry := by
  rw [choiceAt, hs.linked.valueAt_of_get hnode]

theorem strategyAt_of_get (hnode : t.nameTree.get nte = some node) :
    StrategyChoice.strategyAt t nte = node.value.strategyChoiceEntry := by
  rw [StrategyChoice.strategyAt, Tables.get, hnode]
  rfl

theorem exists_get_of_choiceAt (hs : NameTree.Sound env t.nameTree)
    (h : choiceAt env t k = some inst) :
    ∃ a n, t.nameTree.get a = some n ∧ n.name = k ∧ n.value.strategyChoiceEntry = some inst := by
  have hentries : (t.nameTree.valueAt (NameTree.config env) k).hasTableEntries = true := by
    apply StrategyChoice.hasTableEntries_of_choice
    show (choiceAt env t k).isSome = true
    rw [h]
    rfl
  obtain ⟨a, n, hn, hname, hvalue⟩ := hs.linked.exists_get_of_hasEntries hentries
  exact ⟨a, n, hn, hname, by rw [hvalue]; exact h⟩

theorem isLongest_iff_effective (hs : NameTree.Sound env t.nameTree) :
    (∃ a, t.nameTree.IsLongest StrategyChoice.hasChoice k a ∧
      StrategyChoice.strategyAt t a = some inst) ↔ Effective (choiceAt env t) k inst := by
  constructor
  · rintro ⟨a, ⟨n, hn, -, hpre, hmax⟩, hinst⟩
    rw [strategyAt_of_get hn] at hinst
    refine ⟨n.name, (choiceAt_of_get hs hn).trans hinst, hpre, fun q hq hchoice => ?_⟩
    obtain ⟨inst', hinst'⟩ := isSome_iff_exists.1 hchoice
    obtain ⟨b, m, hm, rfl, hm'⟩ := exists_get_of_choiceAt hs hinst'
    exact hmax b m hm (by rw [StrategyChoice.hasChoice, hm']; rfl) hq
  · rintro ⟨p, hp, hpre, hmax⟩
    obtain ⟨a, n, hn, rfl, hchoice⟩ := exists_get_of_choiceAt hs hp
    refine ⟨a, ⟨n, hn, by rw [StrategyChoice.hasChoice, hchoice]; rfl, hpre, ?_⟩,
      (strategyAt_of_get hn).trans hchoice⟩
    intro b m hm hsel hmpre
    apply hmax m.name hmpre
    rw [choiceAt_of_get hs hm]
    exact hsel

theorem Sound.exists_effective (hs : Sound env t) (k : NameKey) :
    ∃ inst, Effective (choiceAt env t) k inst := by
  obtain ⟨a, root, hroot, hname, hchoice⟩ := hs.root
  have hnil : (choiceAt env t []).isSome = true := by
    rw [← hname, choiceAt_of_get hs.tree hroot]
    exact hchoice
  -- by induction on the name: the choice of the whole name, or what is effective above it
  induction k using reverseRecOn with
  | nil =>
    obtain ⟨inst, hinst⟩ := isSome_iff_exists.1 hnil
    exact ⟨inst, effective_self hinst⟩
  | append_singleton k c ih =>
    cases hself : choiceAt env t (k ++ [c]) with
    | some inst => exact ⟨inst, effective_self hself⟩
    | none =>
      obtain ⟨inst, hinst⟩ := ih
      refine ⟨inst, (Governs.effective_iff (p := k) ⟨prefix_append _ _, ?_⟩).2 hinst⟩
      intro q hq hchoice
      rcases prefix_concat_iff.1 hq with rfl | hq
      · rw [hself] at hchoice
        cases hchoice
      · exact hq.length_le

theorem bind_strategyAt_eq_some_iff {found : Option Nat} (hs : NameTree.Sound env t.nameTree)
    (hfound : ∀ a, found = some a ↔ t.nameTree.IsLongest StrategyChoice.hasChoice k a) :
    found.bind (StrategyChoice.strategyAt t) = some inst ↔ Effective (choiceAt env t) k inst := by
  rw [← isLongest_iff_effective hs, bind_eq_some_iff]
  exact exists_congr fun a => and_congr_left fun _ => hfound a

/-- **The effective strategy of a name.** -/
theorem findEffectiveStrategy_eq_some_iff (hs : NameTree.Sound env t.nameTree) {n : Name} :
    StrategyChoice.findEffectiveStrategy env t n = some inst ↔
      Effective (choiceAt env t) n.key inst :=
  bind_strategyAt_eq_some_iff hs fun _ => findLongestPrefixMatch_eq_some_iff hs

theorem findLongestPrefixMatchOfPit_eq (hs : Sound env t) {x : PitEntry}
    (hnode : t.nameTree.get nte = some node) (hx : x ∈ node.value.pitEntries)
    (selected : TreeNode (List UInt8) TableEntries → Bool) :
    findLongestPrefixMatchOfPit env t.nameTree selected nte x.entry.name =
      findLongestPrefixMatch env t.nameTree selected x.entry.name := by
  refine Option.ext fun a => (findLongestPrefixMatchOfPit_eq_some_iff hs.tree hnode
    (hs.placed nte node hnode x hx).symm (nteDepth_le_length _)).trans ?_
  exact (findLongestPrefixMatch_eq_some_iff hs.tree).symm

/-- **The effective strategy of a PIT entry** is that of its name. -/
theorem findEffectiveStrategyOfPit_eq_some_iff (hs : Sound env t) {x : PitEntry}
    (hnode : t.nameTree.get nte = some node) (hx : x ∈ node.value.pitEntries) :
    StrategyChoice.findEffectiveStrategyOfPit env t nte x = some inst ↔
      Effective (choiceAt env t) x.entry.name.key inst := by
  rw [StrategyChoice.findEffectiveStrategyOfPit, findLongestPrefixMatchOfPit_eq hs hnode hx]
  exact findEffectiveStrategy_eq_some_iff hs.tree

/-- **The effective strategy of a measurements entry** is that of its node. -/
theorem findEffectiveStrategyOfMeasurements_eq_some_iff (hs : NameTree.Sound env t.nameTree)
    (hnode : t.nameTree.get nte = some node) :
    StrategyChoice.findEffectiveStrategyOfMeasurements t nte = some inst ↔
      Effective (choiceAt env t) node.name inst :=
  bind_strategyAt_eq_some_iff hs fun _ => hs.linked.findUp_eq_some_iff hnode

/-! ## What a change does -/

/-- The choice of `p` becomes `choice`; if `resets` the items below go, down to the next choice. -/
def Changed (env : NameTreeEnv) (t t' : Tables) (p : NameKey) (choice : Option Instance)
    (resets : Bool) : Prop :=
  ∀ k, t'.nameTree.valueAt (NameTree.config env) k =
    let v := t.nameTree.valueAt (NameTree.config env) k
    let v' := if resets = true ∧ Governs (choiceAt env t) p k then v.clearStrategyInfo else v
    if k = p then v'.setStrategyChoiceEntry choice else v'

variable {pfx : Name} {choice : Option Instance} {resets : Bool} {old new : Instance}

section

variable (hs : NameTree.Sound env t.nameTree)
include hs

/-- **The nodes that `changeStrategy` visits** are those that the choice governs. -/
theorem mem_partialEnumerate_iff_governs {a : Nat} (hnode : t.nameTree.get nte = some node)
    (hname : node.name = pfx.key) :
    a ∈ NameTree.partialEnumerate env t.nameTree pfx (StrategyChoice.changes nte) ↔
      ∃ m, t.nameTree.get a = some m ∧ Governs (choiceAt env t) pfx.key m.name := by
  rw [StrategyChoice.mem_partialEnumerate_iff hs hnode hname]
  refine exists_congr fun m => and_congr_right fun _ => and_congr_right fun hpre => ?_
  constructor
  · intro hall q hq hchoice
    obtain ⟨inst, hinst⟩ := isSome_iff_exists.1 hchoice
    obtain ⟨b, n, hn, rfl, hn'⟩ := exists_get_of_choiceAt hs hinst
    by_contra hlt
    -- a longer prefix is below the choice, and is another node
    have hbelow : pfx.key <+: n.name := prefix_of_prefix_length_le hpre hq (by omega)
    have hother : b ≠ nte := by
      rintro rfl
      obtain rfl := mem_unique hn hnode
      exact hlt (by rw [hname])
    have hnone := hall b n hn hbelow hq hother
    rw [StrategyChoice.hasChoice, hn'] at hnone
    cases hnone
  · intro hgov b n hn hbelow hq hother
    rw [Bool.eq_false_iff]
    intro hchoice
    have hle := hgov n.name hq (by rw [choiceAt_of_get hs hn]; exact hchoice)
    have hsame : n.name = node.name := by
      rw [hname]
      exact (hbelow.eq_of_length (Nat.le_antisymm hbelow.length_le hle)).symm
    exact hother (hs.linked.name_inj hn hnode hsame)

theorem tree_changeStrategy (root : Nat) (pfx : Name) (oldStrategy newStrategy : InstanceName) :
    NameTree.Sound env
      (StrategyChoice.changeStrategy env t root pfx oldStrategy newStrategy).nameTree := by
  have hclear : ∀ (ntes : List Nat) (t : Tables), NameTree.Sound env t.nameTree →
      NameTree.Sound env
        (ntes.foldl (fun t nte => t.modify nte TableEntries.clearStrategyInfo) t).nameTree := by
    intro ntes
    induction ntes with
    | nil => exact fun t hs => hs
    | cons nte ntes ih => exact fun t hs => ih _ (hs.modify nte _)
  unfold StrategyChoice.changeStrategy
  split
  · exact hs
  · exact hclear _ t hs

theorem valueAt_changeStrategy (hnode : t.nameTree.get nte = some node)
    (hname : node.name = pfx.key) (oldStrategy newStrategy : InstanceName) (k : NameKey) :
    (StrategyChoice.changeStrategy env t nte pfx oldStrategy newStrategy).nameTree.valueAt
        (NameTree.config env) k =
      if areSameType oldStrategy newStrategy = false ∧ Governs (choiceAt env t) pfx.key k then
        (t.nameTree.valueAt (NameTree.config env) k).clearStrategyInfo
      else t.nameTree.valueAt (NameTree.config env) k := by
  have hl' := (tree_changeStrategy hs nte pfx oldStrategy newStrategy).linked
  cases hfind : t.nameTree.find (NameTree.config env) k with
  | some a =>
    obtain ⟨m, hm, rfl⟩ := hs.linked.find_eq_some_iff.1 hfind
    have hget : (StrategyChoice.changeStrategy env t nte pfx oldStrategy
        newStrategy).nameTree.get a = _ := StrategyChoice.get_changeStrategy nte pfx oldStrategy
          newStrategy a
    have hgov : a ∈ NameTree.partialEnumerate env t.nameTree pfx (StrategyChoice.changes nte) ↔
        Governs (choiceAt env t) pfx.key m.name := by
      rw [mem_partialEnumerate_iff_governs hs hnode hname]
      constructor
      · simp_all
      · exact fun h => ⟨m, hm, h⟩
    simp only [hm, map_some, hgov] at hget
    rw [hs.linked.valueAt_of_get hm]
    split at hget
    · rename_i hboth
      rw [if_pos hboth]
      exact hl'.valueAt_of_get hget
    · rename_i hboth
      rw [if_neg hboth]
      exact hl'.valueAt_of_get hget
  | none =>
    have hnot := hs.linked.find_eq_none_iff.1 hfind
    rw [hs.linked.valueAt_of_notMem hnot, hl'.valueAt_of_notMem]
    · split <;> rfl
    · intro a n hn
      rw [StrategyChoice.get_changeStrategy] at hn
      obtain ⟨m, hm, rfl⟩ := map_eq_some_iff.1 hn
      have hsame := hnot a m hm
      split <;> exact hsame

end

theorem Changed.choiceAt_eq (h : Changed env t t' p choice resets) :
    choiceAt env t' = update (choiceAt env t) p choice := by
  funext k
  rw [choiceAt, h k]
  by_cases hk : k = p
  · subst hk
    rw [update_self]
    rw [if_pos rfl]
    rfl
  · rw [update_of_ne hk]
    split <;> rfl

section

variable (hs : NameTree.Sound env t.nameTree)
include hs

theorem valueAt_lookup {n : Name} {prefixLen : Nat} (h : t.lookup env n prefixLen = some (nte, t'))
    (k : NameKey) :
    t'.nameTree.valueAt (config env) k = t.nameTree.valueAt (config env) k := by
  obtain ⟨nameTree, hlookup, rfl⟩ := lookup_eq_some h
  obtain ⟨hs', hgrows, -⟩ := hs.lookup hlookup
  exact hs.linked.valueAt_grows hs'.linked hgrows

theorem valueAt_eraseIfEmpty {canEraseAncestors : Bool}
    (h : t.eraseIfEmpty env nte canEraseAncestors = some t') (k : NameKey) :
    t'.nameTree.valueAt (config env) k = t.nameTree.valueAt (config env) k := by
  obtain ⟨node, nameTree, hnode, herase, rfl⟩ := eraseIfEmpty_eq_some h
  obtain ⟨nameTree', herase', hs', hshrinks⟩ := hs.eraseIfEmpty hnode canEraseAncestors
  obtain rfl : nameTree' = nameTree := mem_unique herase' herase
  exact hs.linked.valueAt_shrinks hs'.linked hshrinks fun _ =>
    TableEntries.eq_none_of_hasTableEntries

/-- **`StrategyChoice::insert`**: a change from the effective strategy of the prefix, or none. -/
theorem insert_changed {name : InstanceName} (h : StrategyChoice.insert env t pfx name = some t') :
    (∀ k, t'.nameTree.valueAt (config env) k = t.nameTree.valueAt (config env) k) ∨
      ∃ old new, Effective (choiceAt env t) pfx.key old ∧ new.instanceName = name ∧
        Changed env t t' pfx.key (some new) (!areSameType old.instanceName name) := by
  unfold StrategyChoice.insert at h
  split at h
  · cases h
    exact .inl fun _ => rfl
  · simp only [bind_eq_bind, bind_eq_some_iff, Prod.exists] at h
    obtain ⟨nte, t₁, hlookup, v, hv, h⟩ := h
    obtain ⟨hs₁, node, hnode, hname⟩ := StrategyChoice.lookup_whole hs hlookup
    have hvalue₁ := valueAt_lookup hs hlookup
    have hchoice₁ : choiceAt env t₁ = choiceAt env t := by
      funext k
      rw [choiceAt, hvalue₁]
      rfl
    obtain ⟨node', hnode', rfl⟩ := get_eq_some hv
    obtain rfl : node' = node := mem_unique hnode' hnode
    split at h
    · -- the prefix has a choice already
      rename_i old hold
      have heff : Effective (choiceAt env t) pfx.key old := by
        apply effective_self
        rw [← hchoice₁, ← hname, choiceAt_of_get hs₁ hnode, hold]
      split at h
      · cases h
        exact .inl hvalue₁
      · cases h
        refine .inr ⟨old, ⟨t₁.nextPtr, name⟩, heff, rfl, fun k => ?_⟩
        obtain ⟨node₂, hnode₂, hname₂⟩ : ∃ node₂, (StrategyChoice.changeStrategy env t₁ nte pfx
            old.instanceName name).nameTree.get nte = some node₂ ∧ node₂.name = node'.name :=
          StrategyChoice.exists_get_changeStrategy hnode _ _ _ _
        have hs₂ := tree_changeStrategy hs₁ nte pfx old.instanceName name
        show ((StrategyChoice.changeStrategy env t₁ nte pfx old.instanceName
          name).nameTree.modify nte _).valueAt _ k = _
        rw [hs₂.linked.valueAt_modify hnode₂, hname₂, hname,
          valueAt_changeStrategy hs₁ hnode hname, hvalue₁, hchoice₁]
        simp only [Bool.not_eq_true']
    · -- a new entry
      simp only [bind_eq_some_iff] at h
      obtain ⟨old, hold, h⟩ := h
      cases h
      have heff : Effective (choiceAt env t) pfx.key old := by
        rw [← hchoice₁]
        exact (findEffectiveStrategy_eq_some_iff hs₁).1 hold
      refine .inr ⟨old, ⟨t₁.nextPtr, name⟩, heff, rfl, fun k => ?_⟩
      let t₂ : Tables := { t₁.modify nte (·.setStrategyChoiceEntry (some ⟨t₁.nextPtr, name⟩)) with
        nStrategyChoice := t₁.nStrategyChoice + 1
        nextPtr := t₁.nextPtr + 1 }
      have hs₂ : NameTree.Sound env t₂.nameTree :=
        hs₁.modify nte (·.setStrategyChoiceEntry (some ⟨t₁.nextPtr, name⟩))
      have hvalue₂ : ∀ k, t₂.nameTree.valueAt (config env) k =
          if k = pfx.key then (t.nameTree.valueAt (config env) k).setStrategyChoiceEntry
            (some ⟨t₁.nextPtr, name⟩)
          else t.nameTree.valueAt (config env) k := by
        intro k
        show (t₁.nameTree.modify nte _).valueAt _ k = _
        rw [hs₁.linked.valueAt_modify hnode, hname, hvalue₁]
      have hchoice₂ : choiceAt env t₂ =
          update (choiceAt env t) pfx.key (some ⟨t₁.nextPtr, name⟩) := by
        funext k
        rw [choiceAt, hvalue₂, update_apply]
        split <;> rfl
      have hnode₂ : t₂.nameTree.get nte = some { node' with
          value := node'.value.setStrategyChoiceEntry (some ⟨t₁.nextPtr, name⟩) } := by
        show (t₁.nameTree.modify nte _).get nte = _
        rw [PrefixTree.get_modify, hnode, map_some, if_pos rfl]
      rw [valueAt_changeStrategy hs₂ hnode₂ hname, hvalue₂]
      simp only [hchoice₂, governs_update_iff, Bool.not_eq_true']
      by_cases hk : k = pfx.key
      · simp only [hk, if_true]
        split <;> rfl
      · simp only [hk, if_false]

/-- **`StrategyChoice::erase`**: a change to the strategy effective at the name of the parent,
    encoded anew, or none. -/
theorem erase_changed (h : StrategyChoice.erase env t pfx = some t') :
    (∀ k, t'.nameTree.valueAt (NameTree.config env) k =
        t.nameTree.valueAt (NameTree.config env) k) ∨
      ∃ old parent, choiceAt env t pfx.key = some old ∧
        StrategyChoice.findEffectiveStrategy env t (Name.reencoded pfx.dropLast) = some parent ∧
        Changed env t t' pfx.key none (!areSameType old.instanceName parent.instanceName) := by
  obtain ⟨-, h⟩ := ite_none_left_eq_some.1 h
  split at h
  · cases h
    exact .inl fun _ => rfl
  · rename_i nte hfind
    obtain ⟨node, hnode, hname⟩ := (findExactMatch_eq_some_iff hs).1 hfind
    have hname : node.name = pfx.key := by
      rw [hname, take_of_length_le (by rw [Name.key, length_map])]
    split at h
    · cases h
      exact .inl fun _ => rfl
    · rename_i old hold
      simp only [bind_eq_bind, bind_eq_some_iff] at h
      obtain ⟨parent, hparent, t₁, herase, h⟩ := h
      cases h
      refine .inr ⟨old, parent, ?_, hparent, fun k => ?_⟩
      · rw [← hname, choiceAt_of_get hs hnode, ← strategyAt_of_get hnode]
        exact hold
      · have hs₁ := tree_changeStrategy hs nte pfx old.instanceName parent.instanceName
        obtain ⟨node₂, hnode₂, hname₂⟩ : ∃ node₂, (StrategyChoice.changeStrategy env t nte pfx
            old.instanceName parent.instanceName).nameTree.get nte = some node₂ ∧
              node₂.name = node.name :=
          StrategyChoice.exists_get_changeStrategy hnode _ _ _ _
        rw [valueAt_eraseIfEmpty (hs₁.modify nte (·.setStrategyChoiceEntry none)) herase,
          modify_nameTree,
          hs₁.linked.valueAt_modify hnode₂, hname₂, hname, valueAt_changeStrategy hs hnode hname]
        simp only [Bool.not_eq_true']

end

/-! ## The items after a change -/

/-- The strategies are of different types. -/
def ChangesType (old new : Option Instance) : Prop :=
  old.map (·.instanceName.type) ≠ new.map (·.instanceName.type)

/-- Items go where the effective strategy changes its type, and stay where it does not change. -/
structure InfoRight (env : NameTreeEnv) (t t' : Tables) : Prop where
  pit : ∀ nte nte' node node', t.nameTree.get nte = some node → t'.nameTree.get nte' = some node' →
    node'.name = node.name → ∀ x ∈ node.value.pitEntries, ∀ x' ∈ node'.value.pitEntries,
      x'.id = x.id →
      (ChangesType (StrategyChoice.findEffectiveStrategyOfPit env t nte x)
          (StrategyChoice.findEffectiveStrategyOfPit env t' nte' x') → x'.carriesInfo = false) ∧
        (StrategyChoice.findEffectiveStrategyOfPit env t nte x =
          StrategyChoice.findEffectiveStrategyOfPit env t' nte' x' → x.SameInfo x')
  measurements : ∀ nte nte' node node', t.nameTree.get nte = some node →
    t'.nameTree.get nte' = some node' → node'.name = node.name →
    ∀ m ∈ node.value.measurementsEntry, ∀ m' ∈ node'.value.measurementsEntry,
      (ChangesType (StrategyChoice.findEffectiveStrategyOfMeasurements t nte)
          (StrategyChoice.findEffectiveStrategyOfMeasurements t' nte') → m'.info = []) ∧
        (StrategyChoice.findEffectiveStrategyOfMeasurements t nte =
          StrategyChoice.findEffectiveStrategyOfMeasurements t' nte' → m'.info = m.info)

/-- Nothing but items and choices changes. -/
structure EntriesKept (env : NameTreeEnv) (t t' : Tables) : Prop where
  pit : ∀ k, (t'.nameTree.valueAt (NameTree.config env) k).pitEntries.map
    (fun x => (x.id, x.entry)) =
    (t.nameTree.valueAt (NameTree.config env) k).pitEntries.map fun x => (x.id, x.entry)
  measurements : ∀ k,
    (t'.nameTree.valueAt (NameTree.config env) k).measurementsEntry.map MeasurementsEntry.expiry =
      (t.nameTree.valueAt (NameTree.config env) k).measurementsEntry.map MeasurementsEntry.expiry
  fib : ∀ k, (t'.nameTree.valueAt (NameTree.config env) k).fibEntry =
    (t.nameTree.valueAt (NameTree.config env) k).fibEntry

/-- A PIT entry with items is governed by its name as by its node, if the change resets anything,
    and no measurements entry with items is governed if it does not. -/
def fitsNode (env : NameTreeEnv) (t : Tables) (p : NameKey) (resets : Bool)
    (node : TreeNode (List UInt8) TableEntries) : Bool :=
  node.value.pitEntries.all (fun x => !x.carriesInfo ||
      decide (Governs (choiceAt env t) p x.entry.name.key) ==
        (resets && decide (Governs (choiceAt env t) p node.name))) &&
    node.value.measurementsEntry.all fun m =>
      m.info.isEmpty || resets || !decide (Governs (choiceAt env t) p node.name)

def fitsAll (env : NameTreeEnv) (t : Tables) (p : NameKey) (resets : Bool) : Bool :=
  t.nameTree.nodes.cells.all fun cell => fitsNode env t p resets cell.2

theorem Changed.effective (hc : Changed env t t' p choice resets)
    (hold : Effective (choiceAt env t) k old) (hnew : Effective (choiceAt env t') k new) :
    if Governs (choiceAt env t) p k then
      Effective (choiceAt env t) p old ∧ Effective (choiceAt env t') p new
    else old = new := by
  rw [hc.choiceAt_eq] at hnew ⊢
  split
  · rename_i hgov
    exact ⟨hgov.effective_iff.1 hold, (governs_update_iff.2 hgov).effective_iff.1 hnew⟩
  · rename_i hgov
    exact hold.unique ((effective_update_iff hgov).1 hnew)

theorem requires_iff {G gone same : Prop} (hgov : G → old.instanceName.type ≠ new.instanceName.type)
    (hother : ¬G → old = new) :
    ((ChangesType (some old) (some new) → gone) ∧ (some old = some new → same)) ↔
      (G → gone) ∧ (¬G → same) := by
  have hchanges : ChangesType (some old) (some new) ↔ G := by
    constructor
    · intro h
      by_contra hnot
      exact h (by rw [hother hnot])
    · intro h hsame
      exact hgov h (some.inj hsame)
  have hequal : some old = some new ↔ ¬G := by
    constructor
    · intro h hyes
      exact hgov hyes (by rw [some.inj h])
    · intro h
      rw [hother h]
  rw [hchanges, hequal]

section

variable {choice : Option Instance} {resets : Bool} {nte' : Nat}
  {node' : TreeNode (List UInt8) TableEntries}

section

variable (hc : Changed env t t' p choice resets)
include hc

theorem Changed.pitEntries (k : NameKey) :
    (t'.nameTree.valueAt (config env) k).pitEntries =
      if resets = true ∧ Governs (choiceAt env t) p k then
        (t.nameTree.valueAt (config env) k).pitEntries.map clearStrategyInfo
      else (t.nameTree.valueAt (config env) k).pitEntries := by
  rw [hc k]
  split <;> split <;> rfl

theorem Changed.measurementsEntry (k : NameKey) :
    (t'.nameTree.valueAt (config env) k).measurementsEntry =
      if resets = true ∧ Governs (choiceAt env t) p k then
        (t.nameTree.valueAt (config env) k).measurementsEntry.map fun m => { m with info := [] }
      else (t.nameTree.valueAt (config env) k).measurementsEntry := by
  rw [hc k]
  split <;> split <;> rfl

theorem Changed.entriesKept : EntriesKept env t t' where
  pit := by
    intro k
    rw [hc.pitEntries]
    split
    · rw [List.map_map]
      rfl
    · rfl
  measurements := by
    intro k
    rw [hc.measurementsEntry]
    split
    · rw [Option.map_map]
      rfl
    · rfl
  fib := by
    intro k
    rw [hc k]
    split <;> split <;> rfl

end

variable (htype : ∀ old new, Effective (choiceAt env t) p old → Effective (choiceAt env t') p new →
  old.instanceName.type ≠ new.instanceName.type)

section

variable {x x' : PitEntry} (hs : Sound env t) (hs' : Sound env t')
  (hc : Changed env t t' p choice resets) (hnode : t.nameTree.get nte = some node)
  (hnode' : t'.nameTree.get nte' = some node') (hname : node'.name = node.name)
include hs hs' hc hnode hnode' hname

theorem Changed.pitEntry_eq (hx : x ∈ node.value.pitEntries) (hx' : x' ∈ node'.value.pitEntries)
    (hid : x'.id = x.id) :
    x' =
      if resets = true ∧ Governs (choiceAt env t) p node.name then x.clearStrategyInfo else x := by
  have hvalue := hs.tree.linked.valueAt_of_get hnode
  rw [← hs'.tree.linked.valueAt_of_get hnode', hname, hc.pitEntries, hvalue] at hx'
  -- identities are kept, and no two entries share one
  have honly : ∀ y ∈ node.value.pitEntries, y.id = x.id → y = x := by
    intro y hy hyid
    exact inj_on_of_nodup_map hs.ids_nodup (mem_pits_iff.2 ⟨nte, node, hnode, hy⟩)
      (mem_pits_iff.2 ⟨nte, node, hnode, hx⟩) hyid
  split at hx'
  · rename_i hclears
    obtain ⟨y, hy, rfl⟩ := mem_map.1 hx'
    rw [if_pos hclears, honly y hy hid]
  · rename_i hclears
    rw [if_neg hclears, honly x' hx' hid]

include htype

/-- **One PIT entry**: its items are right if none, or cleared just when its name is governed. -/
theorem Changed.pit_iff (hx : x ∈ node.value.pitEntries) (hx' : x' ∈ node'.value.pitEntries)
    (hid : x'.id = x.id) :
    ((ChangesType (StrategyChoice.findEffectiveStrategyOfPit env t nte x)
          (StrategyChoice.findEffectiveStrategyOfPit env t' nte' x') → x'.carriesInfo = false) ∧
        (StrategyChoice.findEffectiveStrategyOfPit env t nte x =
          StrategyChoice.findEffectiveStrategyOfPit env t' nte' x' → x.SameInfo x')) ↔
      (x.carriesInfo = true → (Governs (choiceAt env t) p x.entry.name.key ↔
        resets = true ∧ Governs (choiceAt env t) p node.name)) := by
  obtain ⟨old, hold⟩ := hs.exists_effective x.entry.name.key
  obtain ⟨new, hnew⟩ := hs'.exists_effective x.entry.name.key
  have hx'eq := hc.pitEntry_eq hs hs' hnode hnode' hname hx hx' hid
  have hentry : x'.entry = x.entry := by
    rw [hx'eq]
    split <;> rfl
  rw [(findEffectiveStrategyOfPit_eq_some_iff hs hnode hx).2 hold,
    (findEffectiveStrategyOfPit_eq_some_iff hs' hnode' hx').2 (hentry ▸ hnew)]
  have heff := hc.effective hold hnew
  rw [requires_iff (G := Governs (choiceAt env t) p x.entry.name.key)
    (fun hgov => by rw [if_pos hgov] at heff; exact htype old new heff.1 heff.2)
    (fun hgov => by rwa [if_neg hgov] at heff), hx'eq]
  split
  · rename_i hclears
    simp only [carriesInfo_clearStrategyInfo, sameInfo_clearStrategyInfo_iff]
    cases x.carriesInfo <;> simp [hclears]
  · rename_i hclears
    have hsame : x.SameInfo x := ⟨rfl, fun _ _ => rfl, fun _ _ => rfl⟩
    cases x.carriesInfo <;> simp [hclears, hsame]

theorem Changed.measurements_iff {m m' : MeasurementsEntry}
    (hm : m ∈ node.value.measurementsEntry) (hm' : m' ∈ node'.value.measurementsEntry) :
    ((ChangesType (StrategyChoice.findEffectiveStrategyOfMeasurements t nte)
          (StrategyChoice.findEffectiveStrategyOfMeasurements t' nte') → m'.info = []) ∧
        (StrategyChoice.findEffectiveStrategyOfMeasurements t nte =
          StrategyChoice.findEffectiveStrategyOfMeasurements t' nte' → m'.info = m.info)) ↔
      (m.info ≠ [] → Governs (choiceAt env t) p node.name → resets = true) := by
  obtain ⟨old, hold⟩ := hs.exists_effective node.name
  obtain ⟨new, hnew⟩ := hs'.exists_effective node.name
  rw [(findEffectiveStrategyOfMeasurements_eq_some_iff hs.tree hnode).2 hold,
    (findEffectiveStrategyOfMeasurements_eq_some_iff hs'.tree hnode').2 (hname ▸ hnew)]
  have heff := hc.effective hold hnew
  rw [requires_iff (G := Governs (choiceAt env t) p node.name)
    (fun hgov => by rw [if_pos hgov] at heff; exact htype old new heff.1 heff.2)
    (fun hgov => by rwa [if_neg hgov] at heff)]
  have hvalue' : t'.nameTree.valueAt (NameTree.config env) node.name = node'.value :=
    hname ▸ hs'.tree.linked.valueAt_of_get hnode'
  have hm'eq := hc.measurementsEntry node.name
  rw [hvalue', hs.tree.linked.valueAt_of_get hnode,
    show node.value.measurementsEntry = some m from hm,
    show node'.value.measurementsEntry = some m' from hm'] at hm'eq
  split at hm'eq
  · simp_all
  · grind

end

theorem fitsNode_iff : fitsNode env t p resets node = true ↔
    (∀ x ∈ node.value.pitEntries, x.carriesInfo = true →
      (Governs (choiceAt env t) p x.entry.name.key ↔
        resets = true ∧ Governs (choiceAt env t) p node.name)) ∧
      ∀ m ∈ node.value.measurementsEntry, m.info ≠ [] → Governs (choiceAt env t) p node.name →
        resets = true := by
  rw [fitsNode, Bool.and_eq_true, List.all_eq_true, Option.all_eq_true]
  refine and_congr (forall₂_congr fun x _ => ?_) (forall₂_congr fun m _ => ?_)
  · grind
  · grind

theorem fitsAll_iff : fitsAll env t p resets = true ↔
    ∀ a node, t.nameTree.get a = some node → fitsNode env t p resets node = true := by
  rw [fitsAll, List.all_eq_true]
  constructor
  · intro h a node hget
    exact h (a, node) (Heap.get_eq_some_iff.1 hget)
  · intro h cell hcell
    exact h cell.1 cell.2 (Heap.get_eq_some_iff.2 hcell)

include htype in
/-- **The items after a change** are right just if every entry with items fits. -/
theorem Changed.infoRight_iff (hs : Sound env t) (hs' : Sound env t')
    (hc : Changed env t t' p choice resets) :
    InfoRight env t t' ↔ fitsAll env t p resets = true := by
  simp only [fitsAll_iff, fitsNode_iff]
  constructor
  · intro hright a node hnode
    have hvalue := hs.tree.linked.valueAt_of_get hnode
    -- a node with a PIT or measurements entry is still there
    have hstays : (t'.nameTree.valueAt (config env) node.name).hasTableEntries = true →
        ∃ a' node', t'.nameTree.get a' = some node' ∧ node'.name = node.name ∧
          node'.value = t'.nameTree.valueAt (config env) node.name :=
      fun h => hs'.tree.linked.exists_get_of_hasEntries h
    constructor
    · intro x hx
      have hids := congrArg (map Prod.fst) (hc.entriesKept.pit node.name)
      rw [List.map_map, List.map_map, hvalue] at hids
      have hx'id : x.id ∈ (t'.nameTree.valueAt (config env) node.name).pitEntries.map
          (Prod.fst ∘ fun x => (x.id, x.entry)) := by
        rw [hids]
        exact mem_map.2 ⟨x, hx, rfl⟩
      obtain ⟨x', hx', hid⟩ := mem_map.1 hx'id
      obtain ⟨a', node', hnode', hname, hvalue'⟩ := hstays
        (Pit.hasTableEntries_of_pitEntries (ne_nil_of_mem hx'))
      rw [← hvalue'] at hx'
      exact (hc.pit_iff htype hs hs' hnode hnode' hname hx hx' hid).1
        (hright.pit a a' node node' hnode hnode' hname x hx x' hx' hid)
    · intro m hm
      have hexpiry := hc.entriesKept.measurements node.name
      rw [hvalue, show node.value.measurementsEntry = some m from hm, map_some] at hexpiry
      obtain ⟨m', hm', -⟩ := map_eq_some_iff.1 hexpiry
      obtain ⟨a', node', hnode', hname, hvalue'⟩ := hstays
        (Measurements.hasTableEntries_of_measurementsEntry (by rw [hm']; rfl))
      rw [← hvalue'] at hm'
      exact (hc.measurements_iff htype hs hs' hnode hnode' hname hm hm').1
        (hright.measurements a a' node node' hnode hnode' hname m hm m' hm')
  · intro hfits
    constructor
    · grind [pit_iff]
    · intro nte nte' node node' hnode hnode' hname m hm m' hm'
      exact (hc.measurements_iff htype hs hs' hnode hnode' hname hm hm').2
        ((hfits nte node hnode).2 m hm)

end

/-! ## The operations -/

/-- The prefix whose choice an operation sets or erases. -/
def Event.choicePrefix : Event → Option Name
  | .chooseStrategy pfx _ => some pfx
  | .unsetStrategy pfx => some pfx
  | _ => none

/-- The strategy of the parent, looked up as `StrategyChoice::erase` does, is of another type. -/
def parentDiffers (env : NameTreeEnv) (t : Tables) (pfx : Name) : Bool :=
  (choiceAt env t pfx.key).map (·.instanceName.type) !=
    (StrategyChoice.findEffectiveStrategy env t (Name.reencoded pfx.dropLast)).map
      (·.instanceName.type)

/-- The entries with items fit the change. -/
def infoFits (env : NameTreeEnv) (t : Tables) : Event → Bool
  | .chooseStrategy pfx _ => fitsAll env t pfx.key true
  | .unsetStrategy pfx => fitsAll env t pfx.key (parentDiffers env t pfx)
  | _ => true

theorem changesType_iff (hs : Sound env t) (hs' : Sound env t') :
    ChangesType (StrategyChoice.findEffectiveStrategy env t pfx)
        (StrategyChoice.findEffectiveStrategy env t' pfx) ↔
      ∀ old new, Effective (choiceAt env t) pfx.key old → Effective (choiceAt env t') pfx.key new →
        old.instanceName.type ≠ new.instanceName.type := by
  obtain ⟨old, hold⟩ := hs.exists_effective pfx.key
  obtain ⟨new, hnew⟩ := hs'.exists_effective pfx.key
  rw [(findEffectiveStrategy_eq_some_iff hs.tree).2 hold,
    (findEffectiveStrategy_eq_some_iff hs'.tree).2 hnew]
  constructor
  · intro h old' new' hold' hnew' heq
    rw [hold.unique hold', hnew.unique hnew'] at h
    exact h (congrArg some heq)
  · intro h heq
    exact h old new hold hnew (some.inj heq)

/-- Setting or erasing a choice so that the type of the strategy at its prefix changes. -/
theorem step_infoRight_iff (hs : Sound env t) {e : Event} (he : e.choicePrefix = some pfx)
    (hstep : step env t e = some t')
    (htype : ChangesType (StrategyChoice.findEffectiveStrategy env t pfx)
      (StrategyChoice.findEffectiveStrategy env t' pfx)) :
    EntriesKept env t t' ∧ (InfoRight env t t' ↔ infoFits env t e = true) := by
  have hwf : e.WellFormed := by
    cases e <;> trivial
  have hs' : Sound env t' := hs.reaches (step_reaches hs hwf hstep)
  rw [changesType_iff hs hs'] at htype
  -- without a change the effective strategy would be the same
  have hchanges : ¬∀ k, t'.nameTree.valueAt (config env) k = t.nameTree.valueAt (config env) k := by
    intro hsame
    have hchoice : choiceAt env t' = choiceAt env t := by
      funext k
      rw [choiceAt, hsame]
      rfl
    obtain ⟨old, hold⟩ := hs.exists_effective pfx.key
    exact htype old old hold (hchoice ▸ hold) rfl
  cases e with
  | chooseStrategy n name =>
    cases he
    obtain hsame | ⟨old, new, hold, rfl, hc⟩ := insert_changed hs.tree hstep
    · exact absurd hsame hchanges
    have hnew : Effective (choiceAt env t') pfx.key new := by
      apply effective_self
      rw [hc.choiceAt_eq, update_self]
    have hresets : (!areSameType old.instanceName new.instanceName) = true := by
      rw [Bool.not_eq_true', areSameType, beq_eq_false_iff_ne]
      exact htype old new hold hnew
    rw [hresets] at hc
    exact ⟨hc.entriesKept, hc.infoRight_iff htype hs hs'⟩
  | unsetStrategy n =>
    cases he
    obtain hsame | ⟨old, parent, hold, hparent, hc⟩ := erase_changed hs.tree hstep
    · exact absurd hsame hchanges
    · have hresets : parentDiffers env t pfx =
          !areSameType old.instanceName parent.instanceName := by
        rw [parentDiffers, hold, hparent, areSameType, bne, map_some, map_some]
        rfl
      rw [infoFits, hresets]
      exact ⟨hc.entriesKept, hc.infoRight_iff htype hs hs'⟩
  | _ => cases he

variable {default : InstanceName} {t₀ : Tables}

/-- **StrategyInfo after a change of strategy.**  When setting or erasing a choice changes the type
    of the strategy at its prefix, only items and choices change; and the items go where the
    effective strategy changed its type and stay where it did not change, iff the entries with items
    fit the change. -/
theorem run_strategyInfo_iff (hinit : init env default = some t₀) {es : List Event}
    (hrun : Run (step env) (fun _ e => e.WellFormed) t₀ es t) {e : Event} {pfx : Name}
    (he : e.choicePrefix = some pfx) (hstep : step env t e = some t')
    (htype : ChangesType (StrategyChoice.findEffectiveStrategy env t pfx)
      (StrategyChoice.findEffectiveStrategy env t' pfx)) :
    EntriesKept env t t' ∧ (InfoRight env t t' ↔ infoFits env t e = true) :=
  step_infoRight_iff (run_sound hinit hrun) he hstep htype

/-- A name that ends with an implicit digest. -/
def digestName : Name := [Component.ofString "a"] ++ Name.leastName

theorem wellFormed_digestName : digestName.WellFormed := by
  intro c hc
  rcases mem_pair.1 hc with rfl | rfl <;>
    exact wellFormed_encode (by decide) (by decide) (by decide)

/-- **Lookups by PIT entry** find what lookups by its name find, in every state reached. -/
theorem run_lookupsOfPit {default : InstanceName} {t₀ : Tables} (hinit : init env default = some t₀)
    {es : List Event} (hrun : Run (step env) (fun _ e => e.WellFormed) t₀ es t) {x : PitEntry}
    (hnode : t.nameTree.get nte = some node) (hx : x ∈ node.value.pitEntries) :
    (∀ selected, findLongestPrefixMatchOfPit env t.nameTree selected nte x.entry.name =
        findLongestPrefixMatch env t.nameTree selected x.entry.name) ∧
      StrategyChoice.findEffectiveStrategyOfPit env t nte x =
        StrategyChoice.findEffectiveStrategy env t x.entry.name := by
  have hmatch := findLongestPrefixMatchOfPit_eq (run_sound hinit hrun) hnode hx
  exact ⟨hmatch, congrArg (Option.bind · _) (hmatch _)⟩

/-- An entry for a digest name, which hangs from the node above. -/
theorem run_lookupsOfPit_digest :
    ∃ t, Run (step smallEnv) (fun _ e => e.WellFormed) smallTables
      [.pitInsert (.blank digestName)] t ∧
      ∃ nte node, t.nameTree.get nte = some node ∧ ∃ x ∈ node.value.pitEntries,
        findLongestPrefixMatchOfPit smallEnv t.nameTree (fun _ => true) nte x.entry.name =
          findLongestPrefixMatch smallEnv t.nameTree (fun _ => true) x.entry.name := by
  refine Run.exists_of_forall (fun t => t.pits ≠ []) (fun e he => ?_) (by decide) ?_
  · rw [mem_singleton.1 he]
    exact wellFormed_digestName
  · intro t hrun hpits
    obtain ⟨x, hx⟩ := exists_mem_of_ne_nil _ hpits
    obtain ⟨nte, node, hnode, hx⟩ := mem_pits_iff.1 hx
    exact ⟨nte, node, hnode, x, hx, (run_lookupsOfPit init_smallTables hrun hnode hx).1 _⟩

/-- An operation that changes the type of the strategy at its prefix; whether items fit. -/
theorem exists_change {es : List Event} {e : Event} {Q : Tables → Tables → Prop} (pfx : Name)
    (fits : Bool) (hes : ∀ e ∈ es, e.WellFormed)
    (h : ((es.foldlM (step smallEnv) smallTables).any fun t => (step smallEnv t e).any fun t' =>
      infoFits smallEnv t e == fits &&
        ((StrategyChoice.findEffectiveStrategy smallEnv t pfx).map (·.instanceName.type) !=
          (StrategyChoice.findEffectiveStrategy smallEnv t' pfx).map (·.instanceName.type))) = true)
    (hQ : ∀ t t', Run (step smallEnv) (fun _ e => e.WellFormed) smallTables es t →
      step smallEnv t e = some t' → infoFits smallEnv t e = fits →
      ChangesType (StrategyChoice.findEffectiveStrategy smallEnv t pfx)
        (StrategyChoice.findEffectiveStrategy smallEnv t' pfx) → Q t t') :
    ∃ t t', Run (step smallEnv) (fun _ e => e.WellFormed) smallTables es t ∧
      step smallEnv t e = some t' ∧ Q t t' := by
  obtain ⟨t, hfold, ht⟩ := (Option.any_eq_true _ _).1 h
  obtain ⟨t', hstep, ht'⟩ := (Option.any_eq_true _ _).1 ht
  rw [Bool.and_eq_true, beq_iff_eq, bne_iff_ne] at ht'
  have hrun := ((Run.of_foldlM hfold).and_of_forall hes).mono fun _ _ hok => hok.1
  exact ⟨t, t', hrun, hstep, hQ t t' hrun hstep ht'.1 ht'.2⟩

/-- An entry for a digest name hangs from the node above, and keeps its items when another type of
    strategy is chosen for the name. -/
theorem chooseStrategy_keeps_digest_info :
    ∃ t t', Run (step smallEnv) (fun _ e => e.WellFormed) smallTables
        [.pitInsert (.blank digestName), .insertPitInfo 0 .entry ⟨0, 0⟩] t ∧
      step smallEnv t (.chooseStrategy digestName ⟨.multicast, []⟩) = some t' ∧
      ChangesType (StrategyChoice.findEffectiveStrategy smallEnv t digestName)
        (StrategyChoice.findEffectiveStrategy smallEnv t' digestName) ∧
      ¬InfoRight smallEnv t t' := by
  refine exists_change digestName false (fun e he => ?_) (by decide) ?_
  · rcases mem_pair.1 he with rfl | rfl
    · exact wellFormed_digestName
    · trivial
  · intro t t' hrun hstep hfits htype
    refine ⟨htype, fun hright => ?_⟩
    rw [(step_infoRight_iff (run_sound init_smallTables hrun) rfl hstep htype).2, hfits] at hright
    cases hright

/-- An entry for `/a` and measurements below lose their items when a strategy is chosen for `/a`. -/
theorem chooseStrategy_clears_info :
    ∃ t t', Run (step smallEnv) (fun _ e => e.WellFormed) smallTables
        [.pitInsert (.blank [Component.ofString "a"]), .insertPitInfo 0 .entry ⟨0, 0⟩,
          .getMeasurements [Component.ofString "a", Component.ofString "b"] 0] t ∧
      step smallEnv t (.chooseStrategy [Component.ofString "a"] ⟨.multicast, []⟩) = some t' ∧
      EntriesKept smallEnv t t' ∧ InfoRight smallEnv t t' := by
  refine exists_change [ofString "a"] true (fun e he => ?_) (by decide) ?_
  · simp only [mem_cons, not_mem_nil, or_false] at he
    rcases he with rfl | rfl | rfl
    · intro c hc
      rw [mem_singleton.1 hc]
      exact wellFormed_encode (by decide) (by decide) (by decide)
    · trivial
    · trivial
  · intro t t' hrun hstep hfits htype
    obtain ⟨hkept, hiff⟩ := run_strategyInfo_iff init_smallTables hrun rfl hstep htype
    exact ⟨hkept, hiff.2 hfits⟩

end Tables

end NdnMulticast.Nfd
