/-
  The PIT as the name tree holds it.  Entries go by the octets of the components of their
  names.

  The flat list of entries of the forwarder's model represents them through every run
  (`Represents`).
-/

import NdnMulticast.Nfd.TableRuns

namespace NdnMulticast.Nfd.Tables

open Lib Ndn List Option PrefixTree NameTree Entry Name Prod Run Interest

variable {env : NameTreeEnv} {exact : Bool} {t t' : Tables} {nte : Nat} {i : Interest}
    {x : PitEntry}
  {node : TreeNode (List UInt8) TableEntries} {id : EntryId}

/-! ## Finding an entry -/

theorem Sound.eq_of_id (hs : Sound env t) {y : PitEntry} (hx : x ∈ t.pits) (hy : y ∈ t.pits)
    (h : x.id = y.id) : x = y :=
  inj_on_of_nodup_map hs.ids_nodup hx hy h

/-- **Finding an entry**: one with the encoding and the selectors of the Interest. -/
theorem find_eq_some_iff (hs : Sound env t) (hi : i.name.WellFormed) :
    Pit.find env t i = some (some id) ↔ ∃ x ∈ t.pits, x.id = id ∧ x.selectors = selectorsOf i := by
  unfold Pit.find
  cases hfind : NameTree.findExactMatch env t.nameTree i.name (nteDepth i.name) with
  | none =>
    refine ⟨fun h => (by cases h), ?_⟩
    rintro ⟨x, hx, -, hselectors⟩
    obtain ⟨b, m, hm, hxm⟩ := mem_pits_iff.1 hx
    refine absurd ?_ ((findExactMatch_eq_none_iff hs.tree).1 hfind b m hm)
    rw [← hs.placed b m hm x hxm, node_of_selectors (hs.wellFormed x hx) hi hselectors]
  | some nte =>
    obtain ⟨node, hnode, hname⟩ := (findExactMatch_eq_some_iff hs.tree).1 hfind
    have hiff : ∀ x, Pit.matching node.value i = some x ↔
        x ∈ t.pits ∧ x.selectors = selectorsOf i :=
      fun x => hs.matching_eq_some_iff hnode hname hi
    cases hmatch : Pit.matching node.value i with
    | some x => grind
    | none => simp_all

/-! ## Inserting an entry -/

/-- **Inserting an entry**: one with the encoding and selectors of the Interest is there or added.
    -/
theorem insert_cases (hs : Sound env t) (hi : i.name.WellFormed) {isNew : Bool}
    (h : Pit.insert env t i = some (id, isNew, t')) :
    (isNew = false ∧ t'.pits = t.pits ∧ t'.nextEntryId = t.nextEntryId ∧
        ∃ x ∈ t.pits, x.id = id ∧ x.selectors = selectorsOf i) ∨
      (isNew = true ∧ id = t.nextEntryId ∧ t'.nextEntryId = t.nextEntryId + 1 ∧
        t'.pits.Perm (.ofInterest t.nextEntryId i :: t.pits) ∧
        ∀ x ∈ t.pits, x.selectors ≠ selectorsOf i) := by
  simp only [Pit.insert, bind_eq_bind, bind_eq_some_iff, Prod.exists] at h
  obtain ⟨nte, t₁, hlookup, v, hv, h⟩ := h
  obtain ⟨node, hnode, rfl⟩ := get_eq_some hv
  have hpits := pits_lookup hlookup
  have hs₁ : Sound env t₁ := @Sound.act env true t t₁ hs (.lookup hlookup)
  obtain ⟨nameTree, htree, rfl⟩ := lookup_eq_some hlookup
  obtain ⟨-, -, node', hnode', hname⟩ := hs.tree.lookup htree
  obtain rfl : node' = node := mem_unique hnode' hnode
  have hiff : ∀ x, Pit.matching node'.value i = some x ↔ x ∈ t.pits ∧
      x.selectors = selectorsOf i := by
    intro x
    rw [hs₁.matching_eq_some_iff hnode hname hi, hpits]
  cases hmatch : Pit.matching node'.value i with
  | some x => grind
  | none =>
    rw [hmatch] at h
    cases h
    refine .inr ⟨rfl, rfl, rfl, ?_, fun x hx hselectors => ?_⟩
    · obtain ⟨others, hold, hnew⟩ := collect_modify TableEntries.pitEntries
        (·.insertPitEntry (.ofInterest t.nextEntryId i)) hnode
      refine hnew.trans (Perm.trans ?_ ((hold.symm.trans (.of_eq hpits)).cons _))
      simp only [TableEntries.insertPitEntry, append_assoc]
      exact perm_middle
    · rw [(hiff x).2 ⟨hx, hselectors⟩] at hmatch
      cases hmatch

/-- **Erasing an entry** takes that entry. -/
theorem erase_cases (h : Pit.erase env t id = some t') :
    ∃ x, x.id = id ∧ t.pits.Perm (x :: t'.pits) ∧ t'.nextEntryId = t.nextEntryId := by
  simp only [Pit.erase, bind_eq_bind, bind_eq_some_iff] at h
  obtain ⟨nte, hnte, t₁, herase, h⟩ := h
  obtain ⟨node, hnode, hany⟩ := Pit.nodeOf_eq_some hnte
  obtain ⟨others, hold, hnew⟩ := collect_modify TableEntries.pitEntries (·.erasePitEntry id) hnode
  obtain ⟨x, -, hid, hperm⟩ := perm_erasePitEntry hany
  have hpits : t₁.pits = (t.modify nte (·.erasePitEntry id)).pits := pits_eraseIfEmpty herase
  have hnext : t₁.nextEntryId = t.nextEntryId := by
    obtain ⟨top, nameTree, -, -, rfl⟩ := eraseIfEmpty_eq_some herase
    rfl
  cases h
  refine ⟨x, hid, ?_, hnext⟩
  show t.pits.Perm (x :: t₁.pits)
  rw [hpits]
  exact hold.trans ((hperm.append_right _).trans (hnew.symm.cons x))

/-! ## Entries over a run -/

theorem Reaches.old (hs : Sound env t) (h : Reaches env exact t t') :
    t.nextEntryId ≤ t'.nextEntryId ∧ ∀ x ∈ t'.pits, x.id < t.nextEntryId →
      ∃ y ∈ t.pits, x.id = y.id ∧ x.entry.interest = y.entry.interest := by
  induction h with
  | refl => exact ⟨Nat.le_refl _, fun x hx _ => ⟨x, hx, rfl, rfl⟩⟩
  | tail hreach hact ih =>
    obtain ⟨hle, hold⟩ := ih
    have hchange := hact.pitChange (hs.reaches hreach)
    refine ⟨Nat.le_trans hle hchange.nextEntryId_le, fun x hx hlt => ?_⟩
    rcases hchange.mem hx with ⟨y, hy, hid, hinterest⟩ | ⟨hid, -⟩
    · simp_all
    · exact absurd hlt (Nat.not_lt_of_le (hid ▸ hle))

/-! ## Equal names -/

theorem matchesInterest_iff {j : Interest} :
    i.matchesInterest j = true ↔
      i.name.map (fun c => (c.type, c.value)) = j.name.map (fun c => (c.type, c.value)) ∧
        i.canBePrefix = j.canBePrefix ∧ i.mustBeFresh = j.mustBeFresh := by
  rw [matchesInterest, Bool.and_eq_true, Bool.and_eq_true, beq_iff_eq, beq_iff_eq,
    equals_iff, and_assoc]

theorem matchesInterest_of_selectors (hwf : x.entry.name.WellFormed) (hi : i.name.WellFormed)
    (h : x.selectors = selectorsOf i) : x.entry.interest.matchesInterest i = true := by
  simp only [PitEntry.selectors, selectorsOf, Prod.mk.injEq] at h
  rw [matchesInterest_iff]
  exact ⟨Name.equals_iff.1 (equals_of_key_eq hwf hi h.1), h.2⟩

/-- No two entries have equal names and the same selectors. -/
def Unique (t : Tables) : Prop :=
  ∀ x ∈ t.pits, ∀ y ∈ t.pits, x.entry.interest.matchesInterest y.entry.interest = true → x = y

/-- `Pit::find` returns the entry with the name and the selectors, if there is one. -/
def FindsStored (env : NameTreeEnv) (t : Tables) (e : Event) : Prop :=
  ∀ i, e = .pitFind i → ∃ r, Pit.find env t i = some r ∧
    ∀ id, r = some id ↔ ∃ x ∈ t.pits, x.id = id ∧ x.entry.interest.matchesInterest i = true

/-- The operations of the PIT. -/
def Event.isPit : Event → Bool
  | .pitInsert _ | .pitFind _ | .pitErase _ | .updateRecords _ _ => true
  | _ => false

/-- The stored entries with the name and the selectors of an Interest have its encoding. -/
def storedAlike (t : Tables) (i : Interest) : Bool :=
  t.pits.all fun x => !x.entry.interest.matchesInterest i || x.entry.name.key == i.name.key

def encodedAlike (t : Tables) : Event → Bool
  | .pitInsert i | .pitFind i => t.storedAlike i
  | _ => true

theorem storedAlike_iff : t.storedAlike i = true ↔
    ∀ x ∈ t.pits, x.entry.interest.matchesInterest i = true → x.entry.name.key = i.name.key := by
  rw [storedAlike, List.all_eq_true]
  refine forall₂_congr fun x _ => ?_
  cases x.entry.interest.matchesInterest i <;> simp

section

variable (hs : Sound env t)
include hs

theorem selectors_iff_of_storedAlike (hi : i.name.WellFormed) (halike : t.storedAlike i = true)
    (hx : x ∈ t.pits) :
    x.selectors = selectorsOf i ↔ x.entry.interest.matchesInterest i = true := by
  refine ⟨matchesInterest_of_selectors (hs.wellFormed x hx) hi, fun hmatch => ?_⟩
  have hkey := storedAlike_iff.1 halike x hx hmatch
  rw [PitEntry.selectors, selectorsOf, hkey, (matchesInterest_iff.1 hmatch).2.1,
    (matchesInterest_iff.1 hmatch).2.2]

theorem findsStored_iff (hb : NoBare env t) (hi : i.name.WellFormed) :
    t.storedAlike i = true ↔ FindsStored env t (.pitFind i) := by
  constructor
  · rintro halike j hj
    cases hj
    obtain ⟨r, hr⟩ := isSome_iff_exists.1 (Pit.find_isSome hs hb i)
    refine ⟨r, hr, fun id => ?_⟩
    have hiff : Pit.find env t i = some (some id) ↔
        ∃ x ∈ t.pits, x.id = id ∧ x.selectors = selectorsOf i := find_eq_some_iff hs hi
    rw [hr, some.injEq] at hiff
    rw [hiff]
    exact exists_congr fun x => and_congr_right fun hx => and_congr_right fun _ =>
      selectors_iff_of_storedAlike hs hi halike hx
  · intro hfinds
    obtain ⟨r, hr, hiff⟩ := hfinds i rfl
    refine storedAlike_iff.2 fun x hx hmatch => ?_
    -- the entry found has the encoding of the Interest, and it is this one
    rw [(hiff x.id).2 ⟨x, hx, rfl, hmatch⟩] at hr
    obtain ⟨y, hy, hid, hselectors⟩ := (find_eq_some_iff hs hi).1 hr
    rw [← hs.eq_of_id hy hx hid]
    exact congrArg fst hselectors

theorem unique_insert_iff (hu : Unique t) (hi : i.name.WellFormed) {isNew : Bool}
    (h : Pit.insert env t i = some (id, isNew, t')) : t.storedAlike i = true ↔ Unique t' := by
  rcases insert_cases hs hi h with ⟨-, hpits, -, y, hy, -, hselectors⟩ | ⟨-, -, -, hpits, hnew⟩
  · -- the entry is there, and the only one
    refine ⟨fun _ => by rw [Unique, hpits]; exact hu,
      fun _ => storedAlike_iff.2 fun x hx hmatch => ?_⟩
    have hymatch := matchesInterest_of_selectors (hs.wellFormed y hy) hi hselectors
    have hxy : x.entry.interest.matchesInterest y.entry.interest = true := by
      rw [matchesInterest_iff] at hmatch hymatch ⊢
      exact ⟨hmatch.1.trans hymatch.1.symm, hmatch.2.1.trans hymatch.2.1.symm,
        hmatch.2.2.trans hymatch.2.2.symm⟩
    rw [hu x hx y hy hxy]
    exact congrArg fst hselectors
  · constructor
    · intro halike
      have hother : ∀ x ∈ t.pits, ¬x.entry.interest.matchesInterest i = true := fun x hx hmatch =>
        hnew x hx ((selectors_iff_of_storedAlike hs hi halike hx).2 hmatch)
      intro x hx y hy hmatch
      rcases mem_cons.1 (hpits.mem_iff.1 hx) with rfl | hx
      · rcases mem_cons.1 (hpits.mem_iff.1 hy) with rfl | hy
        · rfl
        · have hsymm : y.entry.interest.matchesInterest i = true := by
            have hmatch := matchesInterest_iff.1 hmatch
            exact matchesInterest_iff.2 ⟨hmatch.1.symm, hmatch.2.1.symm, hmatch.2.2.symm⟩
          exact absurd hsymm (hother y hy)
      · rcases mem_cons.1 (hpits.mem_iff.1 hy) with rfl | hy
        · exact absurd hmatch (hother x hx)
        · exact hu x hx y hy hmatch
    · intro hu'
      refine storedAlike_iff.2 fun x hx hmatch => ?_
      have hsame := hu' x (hpits.mem_iff.2 (.tail _ hx)) _ (hpits.mem_iff.2 (.head _)) hmatch
      have hlt := hs.id_lt x hx
      rw [hsame] at hlt
      exact absurd hlt (Nat.lt_irrefl _)

/-- Entries that only go or change their records stay different. -/
theorem Unique.of_old (hs' : Sound env t') (hu : Unique t) (hreach : Reaches env exact t t')
    (hnext : t'.nextEntryId = t.nextEntryId) : Unique t' := by
  have hold : ∀ x ∈ t'.pits, ∃ y ∈ t.pits, x.id = y.id ∧ x.entry.interest = y.entry.interest :=
    fun x hx => (Reaches.old hs hreach).2 x hx (hnext ▸ hs'.id_lt x hx)
  intro x hx y hy hmatch
  obtain ⟨x₀, hx₀, hxid, hxi⟩ := hold x hx
  obtain ⟨y₀, hy₀, hyid, hyi⟩ := hold y hy
  rw [hxi, hyi] at hmatch
  refine hs'.eq_of_id hx hy ?_
  rw [hxid, hyid, hu x₀ hx₀ y₀ hy₀ hmatch]

theorem step_pit_iff {e : Event} (hb : NoBare env t) (hu : Unique t) (hwf : e.WellFormed)
    (hpit : e.isPit = true) (h : step env t e = some t') :
    encodedAlike t e = true ↔ FindsStored env t e ∧ Unique t' := by
  have hreach := step_reaches hs hwf h
  have hs' : Sound env t' := hs.reaches hreach
  have hother : ∀ {e}, (∀ i, e ≠ .pitFind i) → FindsStored env t e :=
    fun hne i hi => absurd hi (hne i)
  cases e with
  | pitFind i =>
    obtain ⟨r, -, rfl⟩ := map_eq_some_iff.1 h
    rw [and_iff_left hu]
    exact findsStored_iff hs hb hwf
  | pitInsert i =>
    obtain ⟨⟨id, isNew, t₁⟩, hinsert, rfl⟩ := map_eq_some_iff.1 h
    rw [and_iff_right (hother (e := .pitInsert i) nofun)]
    exact unique_insert_iff hs hu hwf hinsert
  | pitErase id =>
    refine ⟨fun _ => ⟨hother nofun, hu.of_old hs hs' hreach ?_⟩, fun _ => rfl⟩
    obtain ⟨x, -, -, hnext⟩ := erase_cases h
    exact hnext
  | updateRecords id u =>
    refine ⟨fun _ => ⟨hother nofun, hu.of_old hs hs' hreach ?_⟩, fun _ => rfl⟩
    simp only [step, Pit.updateRecords, Pit.modify, bind_eq_bind, bind_eq_some_iff] at h
    obtain ⟨t₁, ⟨nte, -, h₁⟩, h⟩ := h
    cases h₁
    cases h
    rfl
  | _ => cases hpit

end

/-- One record per face, and as many entries as `Pit::size` says. -/
structure PitFits (t : Tables) : Prop where
  inRecords : ∀ x ∈ t.pits, (x.entry.inRecords.map InRecord.face).Nodup
  outRecords : ∀ x ∈ t.pits, (x.entry.outRecords.map OutRecord.face).Nodup
  size : t.nPit = .ofNat t.pits.length

variable {default : InstanceName} {t₀ : Tables}

/-- **The PIT.**  In every run an entry has one record per face, and `Pit::size` is right.  No two
    entries have equal names and selectors in any state, and `Pit::find` returns the entry of its
    Interest, iff no operation is called with an Interest for which an entry with the same name and
    selectors is stored under another encoding. -/
theorem run_pit_iff (hinit : init env default = some t₀) :
    (∀ es t, Run (step env) (fun _ e => e.WellFormed) t₀ es t → PitFits t) ∧
      ∀ es t, (Run (step env)
            (fun t e => Unique t ∧ (e.WellFormed ∧ e.isPit = true) ∧ FindsStored env t e) t₀ es t ∧
          Unique t) ↔
        Run (step env) (fun t e => (e.WellFormed ∧ e.isPit = true) ∧ encodedAlike t e = true)
          t₀ es t := by
  constructor
  · intro es t hrun
    have hs : Sound env t := run_sound hinit hrun
    exact ⟨fun x _ => x.entry.inFaces_nodup, fun x _ => x.entry.outFaces_nodup, hs.nPit⟩
  · intro es t
    have hkeeps : ∀ {t : Tables} {e : Event}, e.isPit = true → keepsNodes env t e = true := by
      intro t e he
      cases e <;> first | rfl | cases he
    refine forall_iff_of_step (J := fun t => (Sound env t ∧ NoBare env t) ∧ Unique t) (I := Unique)
      (P := fun t (e : Event) => (e.WellFormed ∧ e.isPit = true) ∧ FindsStored env t e) ?_ ?_ ?_
      ⟨⟨init_sound hinit, init_noBare hinit⟩, ?_⟩
    · exact fun t h => h.2
    · grind [step_pit_iff]
    · rintro t e t' ⟨⟨hs, hb⟩, hu⟩ ⟨⟨hwf, hpit⟩, halike⟩ hstep
      exact ⟨⟨hs.reaches (step_reaches hs hwf hstep), step_noBare hs hwf hb (hkeeps hpit) hstep⟩,
        ((step_pit_iff hs hb hu hwf hpit hstep).1 halike).2⟩
    · intro x hx
      rw [init_pits hinit] at hx
      cases hx

/-! `/a` in the shortest encoding, and in a packet whose length field takes three octets. -/

def shortForm : Interest := .blank [Component.ofString "a"]

/-- An entry of its own, beside that of `shortForm`. -/
def freshForm : Interest := { shortForm with mustBeFresh := true }

def longForm : Interest := .blank [⟨8, [97], [8, 253, 0, 1]⟩]

theorem wireDecode_longForm (sha256 : List UInt8 → List UInt8) :
    wireDecode false sha256 ⟨Tlv.interest, [5, 7], [7, 5, 8, 253, 0, 1, 97], []⟩ = .ok longForm :=
      rfl

theorem wireDecode_shortForm (sha256 : List UInt8 → List UInt8) :
    wireDecode false sha256 ⟨Tlv.interest, [5, 5], [7, 3, 8, 1, 97], []⟩ = .ok shortForm := rfl

theorem wellFormed_longForm : longForm.name.WellFormed :=
  wireDecode_wellFormed (wireDecode_longForm id)

theorem wellFormed_shortForm : shortForm.name.WellFormed :=
  wireDecode_wellFormed (wireDecode_shortForm id)

/-- Two Interests with equal names make two entries. -/
theorem pitInsert_twice :
    ∃ t, Run (step smallEnv) (fun _ e => e.WellFormed ∧ e.isPit = true) smallTables
        [.pitInsert shortForm, .pitInsert longForm] t ∧
      ∃ x ∈ t.pits, ∃ y ∈ t.pits, x.id ≠ y.id ∧
        x.entry.interest.matchesInterest y.entry.interest = true := by
  refine exists_of_forall _ ?_ (by decide) fun _ _ ht => ht
  intro e he
  rcases mem_pair.1 he with rfl | rfl
  · exact ⟨wellFormed_shortForm, rfl⟩
  · exact ⟨wellFormed_longForm, rfl⟩

/-- An entry is inserted, found and erased. -/
theorem run_pit_once :
    ∃ t, (Run (step smallEnv)
          (fun t e => Unique t ∧ (e.WellFormed ∧ e.isPit = true) ∧ FindsStored smallEnv t e)
            smallTables
          [.pitInsert shortForm, .pitInsert shortForm, .pitFind shortForm, .pitErase 0] t ∧
        Unique t) ∧ PitFits t := by
  obtain ⟨t, hrun, -⟩ : ∃ t, Run (step smallEnv) (fun t e => encodedAlike t e = true) smallTables
      [.pitInsert shortForm, .pitInsert shortForm, .pitFind shortForm, .pitErase 0] t ∧ True :=
    exists_of_decide _ (by decide) fun _ _ ht => ht
  have hrun := hrun.and_of_forall (Q := fun e => e.WellFormed ∧ e.isPit = true) fun e he => by
    simp only [mem_cons, not_mem_nil, or_false] at he
    rcases he with rfl | rfl | rfl | rfl
    · exact ⟨wellFormed_shortForm, rfl⟩
    · exact ⟨wellFormed_shortForm, rfl⟩
    · exact ⟨wellFormed_shortForm, rfl⟩
    · exact ⟨trivial, rfl⟩
  exact ⟨t, ((run_pit_iff init_smallTables).2 _ t).2 hrun,
    (run_pit_iff init_smallTables).1 _ t (hrun.mono fun _ _ h => h.1.1)⟩

/-! ## The entries that a Data satisfies -/

variable {sha256 : List UInt8 → List UInt8} {d : Data}

/-- **Matching a Data**: the entries that hang from a node of a prefix. -/
theorem mem_findAllDataMatches_iff (hs : Sound env t) :
    x ∈ Pit.findAllDataMatches env t sha256 d ↔
      x ∈ t.pits ∧ x.entry.node <+: d.name.key ∧ x.entry.interest.matchesData sha256 d = true := by
  rw [Pit.findAllDataMatches, mem_flatMap]
  simp only [mem_findAllMatches_iff hs.tree, mem_filter]
  constructor
  · rintro ⟨a, ⟨node, hnode, -, hpre⟩, hx, hmatch⟩
    rw [Tables.get, hnode] at hx
    rw [hs.placed a node hnode x hx]
    exact ⟨mem_pits_iff.2 ⟨a, node, hnode, hx⟩, hpre, hmatch⟩
  · rintro ⟨hx, hpre, hmatch⟩
    obtain ⟨a, node, hnode, hx⟩ := mem_pits_iff.1 hx
    have hsel : (!node.value.pitEntries.isEmpty) = true := by
      rw [Bool.not_eq_true', isEmpty_eq_false_iff]
      exact ne_nil_of_mem hx
    rw [hs.placed a node hnode x hx] at hpre
    refine ⟨a, ⟨node, hnode, hsel, hpre⟩, ?_, hmatch⟩
    rw [Tables.get, hnode]
    exact hx

theorem nodup_findAllDataMatches (hs : Sound env t) :
    ((Pit.findAllDataMatches env t sha256 d).map PitEntry.id).Nodup := by
  have hpits : t.pits.Nodup := hs.ids_nodup.of_map
  have hnode : ∀ a node, t.nameTree.get a = some node → node.value.pitEntries.Nodup := by
    intro a node hnode
    obtain ⟨others, hperm, -⟩ := collect_modify TableEntries.pitEntries id hnode
    exact (nodup_append.1 (hperm.nodup_iff.1 hpits)).1
  have hget : ∀ a x, x ∈ (t.get a).elim [] TableEntries.pitEntries →
      ∃ node, t.nameTree.get a = some node ∧ x ∈ node.value.pitEntries := by
    intro a x hx
    rw [Tables.get] at hx
    cases hnode : t.nameTree.get a with
    | none =>
      rw [hnode] at hx
      cases hx
    | some node =>
      rw [hnode] at hx
      exact ⟨node, rfl, hx⟩
  refine Nodup.map_on (fun x hx y hy hid => ?_) ?_
  · exact hs.eq_of_id ((mem_findAllDataMatches_iff hs).1 hx).1
      ((mem_findAllDataMatches_iff hs).1 hy).1 hid
  rw [Pit.findAllDataMatches, nodup_flatMap]
  refine ⟨fun a ha => ?_, (nodup_findAllMatches hs.tree).imp fun {a b} hab => ?_⟩
  · grind [get, mem_findAllMatches_iff, Sound.tree]
  -- an entry hangs from one node only
  intro x hxa hxb
  obtain ⟨n, hn, hxn⟩ := hget a x (mem_filter.1 hxa).1
  obtain ⟨m, hm, hxm⟩ := hget b x (mem_filter.1 hxb).1
  exact hab (hs.tree.linked.name_inj hn hm
    ((hs.placed a n hn x hxn).symm.trans (hs.placed b m hm x hxm)))

/-- The components of the entry's node are encoded as those of a name. -/
def placedAlike (x : PitEntry) (n : Name) : Bool :=
  x.entry.node == n.key.take (nteDepth x.entry.name)

theorem placedAlike_iff {n : Name} : placedAlike x n = true ↔ x.entry.node <+: n.key := by
  rw [placedAlike, beq_iff_eq, prefix_iff_eq_take, length_node]

/-- **The entries that a Data satisfies.**  `Pit::findAllDataMatches` returns no entry twice, and
    only entries whose Interest the Data matches; and it returns all of them iff those are attached
    under the encoding of the Data's name. -/
theorem run_findAllDataMatches_iff (hinit : init env default = some t₀) {es : List Event}
    (hrun : Run (step env) (fun _ e => e.WellFormed) t₀ es t) (sha256 : List UInt8 → List UInt8)
    (d : Data) :
    ((Pit.findAllDataMatches env t sha256 d).map PitEntry.id).Nodup ∧
      (∀ x ∈ Pit.findAllDataMatches env t sha256 d,
        x ∈ t.pits ∧ x.entry.interest.matchesData sha256 d = true) ∧
      ((∀ x, x ∈ Pit.findAllDataMatches env t sha256 d ↔
          x ∈ t.pits ∧ x.entry.interest.matchesData sha256 d = true) ↔
        ∀ x ∈ t.pits, x.entry.interest.matchesData sha256 d = true →
          placedAlike x d.name = true) := by
  have hs : Sound env t := run_sound hinit hrun
  refine ⟨nodup_findAllDataMatches hs, fun x hx => ?_, ?_⟩
  · simp_all [mem_findAllDataMatches_iff]
  · simp_all [placedAlike_iff, mem_findAllDataMatches_iff]

/-- A Data with the name `/a`. -/
def dataWire : Block := ⟨Tlv.data, [6, 12], [7, 3, 8, 1, 97, 22, 3, 27, 1, 0, 23, 0], []⟩

def dataA : Data := (Data.wireDecode dataWire).toOption.get (by decide)

/-- The Interest asks for `/a` in the long encoding, and the Data for it is not matched. -/
theorem findAllDataMatches_misses :
    ∃ t, Run (step smallEnv) (fun _ e => e.WellFormed) smallTables [.pitInsert longForm] t ∧
      ∃ x ∈ t.pits, ∀ sha256, x.entry.interest.matchesData sha256 dataA = true ∧
        Pit.findAllDataMatches smallEnv t sha256 dataA = [] := by
  refine exists_of_forall (fun t => (∃ x ∈ t.pits, x.entry.interest = longForm) ∧
    NameTree.findAllMatches smallEnv t.nameTree (fun node => !node.value.pitEntries.isEmpty)
      dataA.name = []) ?_ (by decide) ?_
  · intro e he
    rw [List.mem_singleton.1 he]
    exact wellFormed_longForm
  · rintro t - ⟨⟨x, hx, hinterest⟩, hnone⟩
    refine ⟨x, hx, fun sha256 => ⟨?_, ?_⟩⟩
    · rw [hinterest]
      rfl
    · rw [Pit.findAllDataMatches, hnone]
      rfl

theorem findAllDataMatches_finds :
    ∃ t, Run (step smallEnv) (fun _ e => e.WellFormed) smallTables
        [.pitInsert shortForm, .pitInsert freshForm] t ∧ t.pits.length = 2 ∧
      ∀ sha256 x, x ∈ Pit.findAllDataMatches smallEnv t sha256 dataA ↔
        x ∈ t.pits ∧ x.entry.interest.matchesData sha256 dataA = true := by
  refine exists_of_forall (fun t => t.pits.length = 2 ∧
    ∀ x ∈ t.pits, placedAlike x dataA.name = true) ?_ (by decide) ?_
  · intro e he
    rcases mem_pair.1 he with rfl | rfl
    · exact wellFormed_shortForm
    · exact wellFormed_shortForm
  · rintro t hrun ⟨htwo, ht⟩
    refine ⟨htwo, fun sha256 => ?_⟩
    exact (run_findAllDataMatches_iff init_smallTables hrun sha256 dataA).2.2.2
      fun x hx _ => ht x hx

/-! ## The PIT as a list of entries -/

/-- The list of entries that the forwarder is modelled with. -/
structure Represents (t : Tables) (p : Nfd.Pit) : Prop where
  entries : p.entries.Perm (t.pits.map fun x => (x.id, x.entry))
  nextId : p.nextId = t.nextEntryId

variable {p : Nfd.Pit}

theorem Represents.mem_iff (h : Represents t p) {e : Entry} :
    (id, e) ∈ p.entries ↔ ∃ x ∈ t.pits, x.id = id ∧ x.entry = e := by
  rw [h.entries.mem_iff, List.mem_map]
  simp only [Prod.mk.injEq]

theorem attachedAt_iff {e : Entry} {n : Name} (he : e.name.WellFormed) (hn : n.WellFormed)
    (depth : Nat) : e.attachedAt n depth = true ↔
      nteDepth e.name = depth ∧ e.node = n.key.take depth := by
  have htake : ∀ {m : Name} (k : Nat), m.WellFormed → WellFormed (m.take k) :=
    fun k hm c hc => hm c (List.mem_of_mem_take hc)
  rw [attachedAt, Bool.and_eq_true, beq_iff_eq, beq_iff_eq,
    compare_eq_iff (htake _ he) (htake _ hn), List.map_take, List.map_take]
  refine and_congr_right fun hdepth => ?_
  rw [node, hdepth]
  rfl

theorem attachedAt_and_canMatch_iff (hx : x.entry.name.WellFormed) (hi : i.name.WellFormed) :
    (x.entry.attachedAt i.name (nteDepth i.name) && x.entry.canMatch i (nteDepth i.name)) = true ↔
      x.selectors = selectorsOf i := by
  rw [Bool.and_eq_true, attachedAt_iff hx hi]
  constructor
  · rintro ⟨⟨-, hnode⟩, hcan⟩
    exact (selectors_eq_iff hnode hx hi).1 hcan
  · intro hselectors
    have hnode := node_of_selectors hx hi hselectors
    have hkey : x.entry.name.key = i.name.key := congrArg fst hselectors
    exact ⟨⟨nteDepth_eq_of_equals (equals_of_key_eq hx hi hkey), hnode⟩,
      (selectors_eq_iff hnode hx hi).2 hselectors⟩

section

variable (h : Represents t p) (hs : Sound env t)
include h hs

theorem Represents.find_eq_some_iff (hi : i.name.WellFormed) :
    p.find i = some id ↔ ∃ x ∈ t.pits, x.id = id ∧ x.selectors = selectorsOf i := by
  have hpred : ∀ {id e}, (id, e) ∈ p.entries →
      ((e.attachedAt i.name (nteDepth i.name) && e.canMatch i (nteDepth i.name)) = true ↔
        ∃ x ∈ t.pits, x.id = id ∧ x.entry = e ∧ x.selectors = selectorsOf i) := by
    intro id e hmem
    obtain ⟨x, hx, rfl, rfl⟩ := h.mem_iff.1 hmem
    rw [attachedAt_and_canMatch_iff (hs.wellFormed x hx) hi]
    constructor
    · intro hselectors
      exact ⟨x, hx, rfl, rfl, hselectors⟩
    · rintro ⟨y, hy, hid, -, hselectors⟩
      rwa [← hs.eq_of_id hy hx hid]
  have hfound : ∀ {id}, p.find i = some id →
      ∃ x ∈ t.pits, x.id = id ∧ x.selectors = selectorsOf i := by
    intro id hfind
    obtain ⟨⟨id', e⟩, hsome, rfl⟩ := map_eq_some_iff.1 hfind
    have htest := find?_some hsome
    obtain ⟨x, hx, hid, -, hselectors⟩ := (hpred (mem_of_find?_eq_some hsome)).1 htest
    exact ⟨x, hx, hid, hselectors⟩
  constructor
  · exact hfound
  · rintro ⟨x, hx, rfl, hselectors⟩
    have hmem : (x.id, x.entry) ∈ p.entries := h.mem_iff.2 ⟨x, hx, rfl, rfl⟩
    cases hfind : p.find i with
    | none =>
      have hnot := find?_eq_none.1 (map_eq_none_iff.1 hfind) _ hmem
      exact absurd ((hpred hmem).2 ⟨x, hx, rfl, rfl, hselectors⟩) hnot
    | some id =>
      obtain ⟨y, hy, hid, hselectors'⟩ := hfound hfind
      rw [hs.eq_of_selectors hx hy (hselectors.trans hselectors'.symm), hid]

/-- **`Pit::find` on the list** is `Pit::find` on the tree. -/
theorem Represents.find (hb : NoBare env t) (hi : i.name.WellFormed) :
    Pit.find env t i = some (p.find i) := by
  obtain ⟨r, hr⟩ := isSome_iff_exists.1 (Pit.find_isSome hs hb i)
  rw [hr, some.injEq]
  refine Option.ext fun id => ?_
  rw [h.find_eq_some_iff hs hi, ← Tables.find_eq_some_iff hs hi, hr, some.injEq]

/-- **`Pit::insert` on the list** is `Pit::insert` on the tree. -/
theorem Represents.insert (hi : i.name.WellFormed) {isNew : Bool}
    (hinsert : Pit.insert env t i = some (id, isNew, t')) :
    (p.insert i).1 = id ∧ Represents t' (p.insert i).2 := by
  rcases insert_cases hs hi hinsert with
    ⟨-, hpits, hnext, x, hx, hid, hselectors⟩ | ⟨-, rfl, hnext, hpits, hnew⟩
  · have hfind : p.find i = some id := (h.find_eq_some_iff hs hi).2 ⟨x, hx, hid, hselectors⟩
    rw [Nfd.Pit.insert, hfind]
    exact ⟨rfl, by rw [hpits]; exact h.entries, by rw [hnext]; exact h.nextId⟩
  · have hfind : p.find i = none := by
      refine eq_none_iff_forall_not_mem.2 fun id hid => ?_
      obtain ⟨x, hx, -, hselectors⟩ := (h.find_eq_some_iff hs hi).1 hid
      exact hnew x hx hselectors
    rw [Nfd.Pit.insert, hfind]
    refine ⟨h.nextId, ?_, by rw [hnext, ← h.nextId]; rfl⟩
    refine Perm.trans ?_ (hpits.map _).symm
    show (p.entries ++ [(p.nextId, ofInterest i)]).Perm _
    rw [h.nextId]
    exact perm_append_comm.trans (h.entries.cons _)

/-- **`Pit::erase` on the list** is `Pit::erase` on the tree. -/
theorem Represents.erase (herase : Pit.erase env t id = some t') : Represents t' (p.erase id) := by
  obtain ⟨x, hid, hpits, hnext⟩ := erase_cases herase
  refine ⟨?_, h.nextId.trans hnext.symm⟩
  -- no other entry has the identity
  have hothers : ∀ y ∈ t'.pits, y.id ≠ id := by
    intro y hy hyid
    have hnodup := (hpits.map PitEntry.id).nodup_iff.1 hs.ids_nodup
    exact (nodup_cons.1 hnodup).1 (mem_map.2 ⟨y, hy, hyid.trans hid.symm⟩)
  refine ((h.entries.trans (hpits.map _)).filter (·.1 != id)).trans (.of_eq ?_)
  rw [map_cons, filter_cons_of_neg (by simp [hid]), filter_eq_self]
  intro y hy
  obtain ⟨z, hz, rfl⟩ := mem_map.1 hy
  simpa using hothers z hz

/-- **`Pit::findAllDataMatches` on the list** is that on the tree, but for the order. -/
theorem Represents.findAllDataMatches (hd : d.name.WellFormed) :
    (p.findAllDataMatches sha256 d).Perm
      ((Pit.findAllDataMatches env t sha256 d).map PitEntry.id) := by
  have hnodup : (p.findAllDataMatches sha256 d).Nodup :=
    p.ids_nodup.sublist (List.filter_sublist.map _)
  refine (List.perm_ext_iff_of_nodup hnodup (nodup_findAllDataMatches hs)).2 fun id => ?_
  have hplace : ∀ {x}, x ∈ t.pits → ((decide (nteDepth x.entry.name ≤ d.name.length) &&
      x.entry.attachedAt d.name (nteDepth x.entry.name)) = true ↔ x.entry.node <+: d.name.key) := by
    intro x hx
    rw [Bool.and_eq_true, decide_eq_true_eq, attachedAt_iff (hs.wellFormed x hx) hd,
      List.prefix_iff_eq_take, length_node]
    constructor
    · rintro ⟨-, -, hnode⟩
      exact hnode
    · grind [Name.key, length_node]
  rw [Nfd.Pit.findAllDataMatches, List.mem_map, List.mem_map]
  simp only [List.mem_filter, mem_findAllDataMatches_iff hs, Prod.exists]
  constructor
  · grind [mem_iff]
  · rintro ⟨x, ⟨hx, htest⟩, rfl⟩
    refine ⟨x.id, x.entry, ⟨h.mem_iff.2 ⟨x, hx, rfl, rfl⟩, ?_⟩, rfl⟩
    rw [Bool.and_eq_true, hplace hx]
    exact htest

/-- The operations of the PIT, on the list. -/
def onList (p : Nfd.Pit) : Event → Option Nfd.Pit
  | .pitInsert i => some (p.insert i).2
  | .pitFind _ => some p
  | .pitErase id => some (p.erase id)
  | _ => none

/-- **The list follows the tree** in every run, and answers alike. -/
theorem run_represents {p' : Nfd.Pit} {es : List Event} (hb : NoBare env t)
    (hrun : Run (step env) (fun _ e => e.WellFormed) t es t')
    (hlist : Run onList (fun _ _ => True) p es p') :
    Represents t' p' ∧ (i.name.WellFormed → Pit.find env t' i = some (p'.find i)) ∧
      ∀ sha256 (d : Data), d.name.WellFormed → (p'.findAllDataMatches sha256 d).Perm
        ((Pit.findAllDataMatches env t' sha256 d).map PitEntry.id) := by
  induction hrun generalizing p with
  | nil t =>
    cases hlist
    exact ⟨h, h.find hs hb, fun _ _ => h.findAllDataMatches hs⟩
  | @cons t t₁ t' e es hwf hstep _ ih =>
    obtain - | ⟨-, hnext, hlist⟩ := hlist
    have hs₁ := hs.reaches (step_reaches hs hwf hstep)
    have hb₁ := fun hkeeps => step_noBare hs hwf hb hkeeps hstep
    cases e <;> cases hnext
    case pitInsert.refl i =>
      obtain ⟨⟨id, isNew, t₁⟩, hinsert, rfl⟩ := map_eq_some_iff.1 hstep
      exact ih (h.insert hs hwf hinsert).2 hs₁ (hb₁ rfl) hlist
    case pitFind.refl i =>
      obtain ⟨-, -, rfl⟩ := map_eq_some_iff.1 hstep
      exact ih h hs hb hlist
    case pitErase.refl id => exact ih (h.erase hs hstep) hs₁ (hb₁ rfl) hlist

end

/-- Two entries with one name, of which the first is erased. -/
theorem run_represents_once :
    ∃ t p, Run (step smallEnv) (fun _ e => e.WellFormed) smallTables
        [.pitInsert shortForm, .pitInsert freshForm, .pitFind shortForm, .pitErase 0] t ∧
      Represents t p ∧ p.find freshForm = some 1 ∧
      Pit.find smallEnv t freshForm = some (p.find freshForm) := by
  let es : List Event :=
    [.pitInsert shortForm, .pitInsert freshForm, .pitFind shortForm, .pitErase 0]
  let p := (es.foldlM onList .init).get (by decide)
  have hlist : Run onList (fun _ _ => True) .init es p := .of_foldlM (some_get _).symm
  have hinit : Represents smallTables .init :=
    ⟨by rw [init_pits init_smallTables]; exact .nil, by decide⟩
  obtain ⟨t, hrun, hrepresents, hfind⟩ : ∃ t, Run (step smallEnv) (fun _ e => e.WellFormed)
      smallTables es t ∧ Represents t p ∧ Pit.find smallEnv t freshForm =
        some (p.find freshForm) := by
    refine exists_of_forall (fun _ => True) ?_ (by decide) fun t hrun _ => ?_
    · intro e he
      simp only [es, mem_cons, not_mem_nil, or_false] at he
      rcases he with rfl | rfl | rfl | rfl
      · exact wellFormed_shortForm
      · exact wellFormed_shortForm
      · exact wellFormed_shortForm
      · trivial
    · obtain ⟨hrepresents, hfind, -⟩ := run_represents hinit (init_sound init_smallTables)
        (init_noBare init_smallTables) hrun hlist
      exact ⟨hrepresents, hfind wellFormed_shortForm⟩
  exact ⟨t, p, hrun, hrepresents, by decide, hfind⟩

end NdnMulticast.Nfd.Tables
