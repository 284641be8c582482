/-
  The checker that `Checker::createHierarchicalChecker` builds, after
  `security/validator-config/checker.cpp` and `util/regex`: the key locator has to match
  `^(<>*)<KEY><>$`, the packet name `^(<>*)$`, and the group of the first has to be a prefix
  of the group of the second.

  `<KEY>` is matched against the URI of a component, which depends on the environment
  variable `NDN_NAME_ALT_URI`.
-/

import NdnMulticast.Ndn.Regex
import NdnMulticast.Ndn.Uri

namespace NdnMulticast.Ndn

open Lib Regex Component Option ComponentType

namespace Regex

/-- The `m_matchResult` of each matcher of an anchored list after `match` has succeeded. -/
def matchResults {α : Type} : List (Matcher α) → List α → Option (List (List α))
  | [], s => if s.isEmpty then some [] else none
  | m :: ms, s => (cuts s).findSome? fun t =>
    if m.matchName (s.take t) then (matchResults ms (s.drop t)).map (s.take t :: ·) else none

theorem of_matchResults {α : Type} {ms : List (Matcher α)} {s : List α} {rs : List (List α)}
    (h : matchResults ms s = some rs) :
    rs.flatten = s ∧ List.Forall₂ (fun m r => m.matchName r = true) ms rs := by
  induction ms generalizing s rs with
  | nil =>
    obtain ⟨hs, h⟩ := ite_none_right_eq_some.1 h
    cases h
    exact ⟨(List.isEmpty_iff.1 hs).symm, .nil⟩
  | cons m ms ih =>
    obtain ⟨t, -, ht⟩ := List.exists_of_findSome?_eq_some h
    obtain ⟨hm, ht⟩ := ite_none_right_eq_some.1 ht
    obtain ⟨rest, hrest, rfl⟩ := map_eq_some_iff.1 ht
    obtain ⟨hflat, hall⟩ := ih hrest
    exact ⟨by rw [List.flatten_cons, hflat, List.take_append_drop], .cons hm hall⟩

theorem matchResults_isSome {α : Type} {ms : List (Matcher α)} {rs : List (List α)}
    (h : List.Forall₂ (fun m r => m.matchName r = true) ms rs) :
    (matchResults ms rs.flatten).isSome := by
  induction h with
  | nil => rfl
  | @cons m r ms rs hm _ ih =>
    rw [matchResults, List.findSome?_isSome_iff]
    refine ⟨r.length, mem_cuts.2 (by simp), ?_⟩
    rw [List.flatten_cons, List.take_left, List.drop_left, if_pos hm, isSome_map]
    exact ih

end Regex

namespace HierarchicalChecker

/-- What the packet is, and the format of a signed Interest. -/
inductive PacketKind where
  | data
  | interestV03
  | interestV02
deriving DecidableEq, Repr

def keyText : List UInt8 := ascii "KEY"

/-- `<>`. -/
def anyComponent : Matcher Component := .componentSet true [fun _ => true]

/-- `<KEY>`, once. -/
def keyComponent (altUri : Bool) : Matcher Component :=
  .repetition (.componentSet true [fun c => c.toUri altUri == keyText]) 1 1

/-- `(<>*)`. -/
def group : Matcher Component := .ofList [.repetition anyComponent 0 maxRepetitions]

def pktPatterns : List (Matcher Component) := [group]

def klPatterns (altUri : Bool) : List (Matcher Component) :=
  [group, keyComponent altUri, .repetition anyComponent 1 1]

/-- `HyperRelationChecker::checkNames`, where both expand to their group. -/
def checkNames (altUri : Bool) (pktName klName : Name) : Bool :=
  match matchResults pktPatterns pktName, matchResults (klPatterns altUri) klName with
  | some (pkt :: _), some (kl :: _) => Name.isPrefixOf kl pkt
  | _, _ => false

def check (altUri : Bool) (kind : PacketKind) (pktName klName : Name) : Bool :=
  match kind with
  | .data => checkNames altUri pktName klName
  | .interestV03 =>
    pktName.getLast?.any (·.type == Tlv.parametersSha256DigestComponent) &&
      checkNames altUri pktName.dropLast klName
  | .interestV02 =>
    decide (2 ≤ pktName.length) && checkNames altUri (pktName.take (pktName.length - 2)) klName

/-- The name that is signed: without the components at the end that are about the signature. -/
def signedName (kind : PacketKind) (pktName : Name) : Option Name :=
  match kind with
  | .data => some pktName
  | .interestV03 =>
    if pktName.getLast?.any (·.type == Tlv.parametersSha256DigestComponent) then
      some pktName.dropLast
    else none
  | .interestV02 => if 2 ≤ pktName.length then some (pktName.take (pktName.length - 2)) else none

/-- The key is one of an identity that is a prefix of the signed name. -/
def IsHierarchical (kind : PacketKind) (pktName klName : Name) : Prop :=
  ∃ identity key version, klName = identity ++ [key, version] ∧
    key.type = Tlv.genericNameComponent ∧ key.value = keyText ∧
    ∃ signed ∈ signedName kind pktName, Name.isPrefixOf identity signed = true

theorem toUri_eq_keyText_iff (c : Component) :
    c.toUri true = keyText ↔ c.type = Tlv.genericNameComponent ∧ c.value = keyText := by
  constructor
  · intro h
    have hparse : fromEscapedString keyText = _ :=
      fromEscapedString_of_unreserved (List.all_eq_true.1 (by decide)) (by decide)
    rw [← h, fromEscapedString_toUri, make_eq_ok_iff] at hparse
    obtain ⟨-, heq⟩ := hparse
    obtain ⟨type, value, tl⟩ := c
    injection heq with htype hvalue _
    subst htype
    exact ⟨rfl, hvalue.symm.trans h⟩
  · obtain ⟨type, value, tl⟩ := c
    rintro ⟨rfl, rfl⟩
    rfl

/-- Each component is written with its type. -/
theorem toUri_ne_keyText (c : Component) : c.toUri false ≠ keyText := by
  intro h
  have hmem : (61 : UInt8) ∈ c.toUri false := by
    simp [toUri, writeUri, writeCanonicalUri]
  rw [h] at hmem
  revert hmem
  decide

theorem group_iff (s : Name) : group.matchName s = true ↔ s.length ≤ maxRepetitions := by
  rw [Matcher.matchName_iff]
  show s ∈ anyStar.langOf true * 1 ↔ _
  rw [mul_one, mem_anyStar]

theorem once_iff (p : Component → Bool) (s : Name) :
    (Matcher.repetition (.componentSet true [p]) 1 1).matchName s = true ↔
      ∃ c, s = [c] ∧ p c = true := by
  rw [Matcher.matchName_iff]
  constructor
  · rintro ⟨⟨k, hmin, hmax, hs⟩, -⟩
    obtain rfl : k = 1 := by omega
    rw [pow_one] at hs
    obtain ⟨c, rfl, hc⟩ := hs
    exact ⟨c, rfl, by simpa using hc⟩
  · rintro ⟨c, rfl, hc⟩
    exact ⟨⟨1, le_rfl, le_rfl, by rw [pow_one]; exact ⟨c, rfl, by simpa using hc⟩⟩, by simp⟩

variable {altUri : Bool} {klName pktName : Name}

/-- However the key locator is cut, its last two components are single ones. -/
theorem of_klPatterns {rs : List Name} (h : matchResults (klPatterns altUri) klName = some rs) :
    ∃ identity key version,
      rs = [identity, [key], [version]] ∧ klName = identity ++ [key, version] ∧
        key.toUri altUri = keyText := by
  obtain ⟨hflat, hall⟩ := of_matchResults h
  simp only [klPatterns, keyComponent, anyComponent, List.forall₂_cons_left_iff, once_iff,
    List.forall₂_nil_left_iff] at hall
  obtain ⟨identity, _, -, ⟨_, _, ⟨key, rfl, hkey⟩, ⟨_, _, ⟨version, rfl, -⟩, rfl, rfl⟩, rfl⟩,
    rfl⟩ := hall
  exact ⟨identity, key, version, rfl, by simpa using hflat.symm, by simpa using hkey⟩

section

variable (hpkt : pktName.length ≤ maxRepetitions)
include hpkt

theorem matchResults_pktPatterns : matchResults pktPatterns pktName = some [pktName] := by
  have hsome := matchResults_isSome (.cons ((group_iff pktName).2 hpkt) .nil)
  obtain ⟨rs, hrs⟩ := isSome_iff_exists.1 hsome
  rw [List.flatten_singleton] at hrs
  obtain ⟨hflat, hall⟩ := of_matchResults hrs
  obtain ⟨r, _, -, hnil, rfl⟩ := List.forall₂_cons_left_iff.1 hall
  obtain rfl := List.forall₂_nil_left_iff.1 hnil
  rw [pktPatterns, hrs, ← hflat, List.flatten_singleton]

theorem checkNames_iff (hkl : klName.length ≤ maxRepetitions) :
    checkNames altUri pktName klName = true ↔ ∃ identity key version,
      klName = identity ++ [key, version] ∧ key.toUri altUri = keyText ∧
        Name.isPrefixOf identity pktName = true := by
  rw [checkNames, matchResults_pktPatterns hpkt]
  constructor
  · intro h
    cases hrs : matchResults (klPatterns altUri) klName with
    | none => rw [hrs] at h; cases h
    | some rs =>
      obtain ⟨identity, key, version, rfl, hname, hkey⟩ := of_klPatterns hrs
      rw [hrs] at h
      exact ⟨identity, key, version, hname, hkey, h⟩
  · rintro ⟨identity, key, version, rfl, hkey, hprefix⟩
    rw [List.length_append] at hkl
    have hsome : (matchResults (klPatterns altUri) [identity, [key], [version]].flatten).isSome :=
      matchResults_isSome (.cons ((group_iff _).2 (by omega))
        (.cons ((once_iff _ _).2 ⟨key, rfl, by simpa using hkey⟩)
          (.cons ((once_iff _ _).2 ⟨version, rfl, rfl⟩) .nil)))
    obtain ⟨rs, hrs⟩ := isSome_iff_exists.1 hsome
    rw [show [identity, [key], [version]].flatten = identity ++ [key, version] by simp] at hrs
    obtain ⟨identity', key', version', rfl, hname, -⟩ := of_klPatterns hrs
    rw [hrs]
    exact (List.append_inj' hname rfl).1 ▸ hprefix

theorem check_iff {kind : PacketKind} (hkl : klName.length ≤ maxRepetitions) :
    check altUri kind pktName klName = true ↔ ∃ identity key version,
      klName = identity ++ [key, version] ∧ key.toUri altUri = keyText ∧
        ∃ signed ∈ signedName kind pktName, Name.isPrefixOf identity signed = true := by
  cases kind with
  | data => simp [check, signedName, checkNames_iff hpkt hkl]
  | interestV03 =>
    rw [check, Bool.and_eq_true, checkNames_iff (by rw [List.length_dropLast]; omega) hkl]
    by_cases hlast : pktName.getLast?.any (·.type == Tlv.parametersSha256DigestComponent) = true
    · simp [signedName, hlast]
    · simp [signedName, hlast]
  | interestV02 =>
    rw [check, Bool.and_eq_true, checkNames_iff (by rw [List.length_take]; omega) hkl]
    by_cases hlen : 2 ≤ pktName.length
    · simp [signedName, hlen]
    · simp [signedName, hlen]

end

/-- The checker accepts just the hierarchical keys exactly if URIs are in the alternate format. -/
theorem check_hierarchical_iff (altUri : Bool) :
    (∀ kind pktName klName, pktName.length ≤ maxRepetitions → klName.length ≤ maxRepetitions →
      (check altUri kind pktName klName = true ↔ IsHierarchical kind pktName klName)) ↔
      altUri = true := by
  constructor
  · intro h
    have hkey := h .data [] [ofString "KEY", ofString "k"] (by decide) (by decide)
    have hyes : IsHierarchical .data [] [ofString "KEY", ofString "k"] :=
      ⟨[], _, _, rfl, rfl, rfl, [], rfl, rfl⟩
    rw [iff_true_right hyes, check_iff (by decide) (by decide)] at hkey
    obtain ⟨-, key, -, -, huri, -⟩ := hkey
    by_contra halt
    rw [Bool.not_eq_true] at halt
    exact toUri_ne_keyText key (halt ▸ huri)
  · rintro rfl kind pktName klName hpkt hkl
    rw [check_iff hpkt hkl]
    simp only [toUri_eq_keyText_iff, IsHierarchical, and_assoc]

/-- With `NDN_NAME_ALT_URI=0` the key `/KEY/k` of the empty identity is rejected for the Data
    `/a`. -/
theorem hierarchical_rejected :
    check false .data [.ofString "a"] [.ofString "KEY", .ofString "k"] = false ∧
      IsHierarchical .data [.ofString "a"] [.ofString "KEY", .ofString "k"] := by
  refine ⟨?_, [], _, _, rfl, rfl, rfl, _, rfl, rfl⟩
  rw [Bool.eq_false_iff, ne_eq, check_iff (by decide) (by decide)]
  rintro ⟨-, key, -, -, huri, -⟩
  exact toUri_ne_keyText key huri

end HierarchicalChecker

end NdnMulticast.Ndn
