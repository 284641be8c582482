/-
  Faces and the face table, after `daemon/fw/face-table.cpp`.

  `FacePtr` is the identity of a face and, where the source orders `Face*` values, its
  address.  A face has a FaceId exactly while it is in the table.  Besides its map the table
  keeps a raw pointer to the wireless Ethernet multicast face, which the constructor does not
  initialise, `addImpl` overwrites and nothing clears.
-/

import Mathlib.Data.List.Nodup
import NdnMulticast.Lib.Run

namespace NdnMulticast.Nfd

open List

abbrev FaceId := Nat
abbrev FacePtr := Nat

inductive FaceScope where
  | nonLocal
  | isLocal
deriving DecidableEq, Repr

inductive LinkType where
  | pointToPoint
  | multiAccess
  | adHoc
deriving DecidableEq, Repr

/-- The attributes of a face that the forwarder reads. -/
structure Face where
  scope : FaceScope
  linkType : LinkType
  /-- Host part of the local FaceUri: an interface name for Ethernet faces. -/
  localHost : String
  /-- Host part of the remote FaceUri. -/
  remoteHost : String
deriving DecidableEq, Repr

/-- The interface name the fork treats as the wireless one. -/
def wirelessHost : String := "wlx0013eff9002c"

/-- The Ethernet multicast group of NDN. -/
def multicastGroup : String := "01:00:5e:00:17:aa"

namespace Face

def isWireless (f : Face) : Bool := f.localHost == wirelessHost

/-- The condition under which `addImpl` records a face. -/
def isWirelessMulticast (f : Face) : Bool := f.isWireless && f.remoteHost == multicastGroup

end Face

def invalidFaceId : FaceId := 0
def faceIdReservedMax : FaceId := 255

structure FaceTable where
  lastFaceId : FaceId
  faces : List (FaceId × FacePtr)
  wirelessEtherMulticastFace : Option FacePtr
  ids_nodup : (faces.map Prod.fst).Nodup
  ptrs_nodup : (faces.map Prod.snd).Nodup
  id_le : ∀ f ∈ faces, f.1 ≤ lastFaceId
  reserved_le : faceIdReservedMax ≤ lastFaceId

namespace FaceTable

/-- The table at start-up.  `garbage` is what the uninitialised pointer holds. -/
def init (garbage : Option FacePtr) : FaceTable where
  lastFaceId := faceIdReservedMax
  faces := []
  wirelessEtherMulticastFace := garbage
  ids_nodup := List.nodup_nil
  ptrs_nodup := List.nodup_nil
  id_le := by simp
  reserved_le := Nat.le_refl _

/-- The faces in the table. -/
def ptrs (t : FaceTable) : List FacePtr := t.faces.map Prod.snd

def get (t : FaceTable) (id : FaceId) : Option FacePtr := t.faces.lookup id

def getId (t : FaceTable) (p : FacePtr) : FaceId :=
  ((t.faces.find? (·.2 == p)).map Prod.fst).getD invalidFaceId

/-- The pointer after `addImpl` of a face with these attributes. -/
def recordFace (f : Face) (p : FacePtr) (old : Option FacePtr) : Option FacePtr :=
  if f.isWirelessMulticast then some p else old

/-- `FaceTable::addImpl` under an identifier that is not in use. -/
def addImpl (face : FacePtr → Face) (t : FaceTable) (p : FacePtr) (id last : FaceId)
    (hp : p ∉ t.ptrs) (hid : id ∉ t.faces.map Prod.fst) (hle : id ≤ last)
    (hlast : t.lastFaceId ≤ last) : FaceTable where
  lastFaceId := last
  faces := (id, p) :: t.faces
  wirelessEtherMulticastFace := recordFace (face p) p t.wirelessEtherMulticastFace
  ids_nodup := List.nodup_cons.2 ⟨hid, t.ids_nodup⟩
  ptrs_nodup := List.nodup_cons.2 ⟨hp, t.ptrs_nodup⟩
  id_le := by
    intro f hf
    rcases List.mem_cons.1 hf with rfl | hf
    · exact hle
    · exact Nat.le_trans (t.id_le f hf) hlast
  reserved_le := Nat.le_trans t.reserved_le hlast

theorem succ_last_notMem (t : FaceTable) : t.lastFaceId + 1 ∉ t.faces.map Prod.fst := by
  intro h
  obtain ⟨f, hf, hid⟩ := mem_map.1 h
  exact absurd (hid ▸ t.id_le f hf) (Nat.not_succ_le_self _)

/-- `FaceTable::add`: a face that is in the table is not added again. -/
def add (face : FacePtr → Face) (t : FaceTable) (p : FacePtr) : FaceTable :=
  if hp : p ∈ t.ptrs then t
  else t.addImpl face p (t.lastFaceId + 1) (t.lastFaceId + 1) hp t.succ_last_notMem
    (Nat.le_refl _) (Nat.le_succ _)

/-- The source asserts that the face has no FaceId yet and that the identifier is reserved and free;
    a call that breaks this is not a step. -/
def addReserved (face : FacePtr → Face) (t : FaceTable) (p : FacePtr) (id : FaceId) :
    Option FaceTable :=
  if h : p ∉ t.ptrs ∧ id ∉ t.faces.map Prod.fst ∧ id ≤ faceIdReservedMax then
    some (t.addImpl face p id t.lastFaceId h.1 h.2.1 (Nat.le_trans h.2.2 t.reserved_le)
      (Nat.le_refl _))
  else none

/-- `FaceTable::remove`.  The recorded multicast pointer stays as it is. -/
def remove (t : FaceTable) (id : FaceId) : FaceTable where
  lastFaceId := t.lastFaceId
  faces := t.faces.filter (·.1 != id)
  wirelessEtherMulticastFace := t.wirelessEtherMulticastFace
  ids_nodup := t.ids_nodup.sublist (List.filter_sublist.map _)
  ptrs_nodup := t.ptrs_nodup.sublist (List.filter_sublist.map _)
  id_le := fun f hf => t.id_le f (List.mem_filter.1 hf).1
  reserved_le := t.reserved_le

/-! ## Membership -/

variable {t : FaceTable} {id last : FaceId} {p : FacePtr} {face : FacePtr → Face}

theorem getId_of_mem (h : (id, p) ∈ t.faces) : t.getId p = id := by
  cases hfind : t.faces.find? (·.2 == p) with
  | none => grind
  | some f =>
    have hf : f ∈ t.faces := mem_of_find?_eq_some hfind
    have hfp : f.2 = p := by simpa using List.find?_some hfind
    have hsame : f = (id, p) := inj_on_of_nodup_map t.ptrs_nodup hf h hfp
    simp [getId, hfind, hsame]

theorem mem_ptrs_remove (hp : p ∈ t.ptrs) (q : FacePtr) :
    q ∈ (t.remove (t.getId p)).ptrs ↔ q ∈ t.ptrs ∧ q ≠ p := by
  obtain ⟨⟨id, p'⟩, hmem, rfl⟩ := mem_map.1 hp
  rw [getId_of_mem hmem]
  constructor
  · intro hq
    obtain ⟨f, hf, rfl⟩ := mem_map.1 hq
    obtain ⟨hf, hne⟩ := mem_filter.1 hf
    refine ⟨mem_map_of_mem hf, ?_⟩
    rintro heq
    have hsame : f = (id, p') := inj_on_of_nodup_map t.ptrs_nodup hf hmem heq
    simp [hsame] at hne
  · rintro ⟨hq, hne⟩
    obtain ⟨f, hf, rfl⟩ := mem_map.1 hq
    refine mem_map_of_mem (mem_filter.2 ⟨hf, ?_⟩)
    simp only [bne_iff_ne, ne_eq]
    intro heq
    have hsame : f = (id, p') := inj_on_of_nodup_map t.ids_nodup hf hmem heq
    exact hne (by rw [hsame])

/-! ## Operations -/

/-- What can happen to the table: a face is added, or a face in it is closed. -/
inductive Op where
  | add (p : FacePtr)
  | addReserved (p : FacePtr) (id : FaceId)
  | closed (p : FacePtr)
deriving DecidableEq, Repr

def step (face : FacePtr → Face) (t : FaceTable) : Op → Option FaceTable
  | .add p => some (t.add face p)
  | .addReserved p id => t.addReserved face p id
  | .closed p => if p ∈ t.ptrs then some (t.remove (t.getId p)) else none

/-- The face was put into the table, and recorded if it is the multicast one. -/
def Added (face : FacePtr → Face) (t t' : FaceTable) (p : FacePtr) : Prop :=
  (∀ q, q ∈ t'.ptrs ↔ q = p ∨ q ∈ t.ptrs) ∧
    t'.wirelessEtherMulticastFace = recordFace (face p) p t.wirelessEtherMulticastFace

theorem added_addImpl {hp hid hle hlast} :
    Added face t (t.addImpl face p id last hp hid hle hlast) p :=
  ⟨fun _ => by simp [ptrs, addImpl], rfl⟩

/-- Nothing, when a face is added again; or a face is added; or the closed face is taken out and the
    recorded pointer kept. -/
theorem step_cases {t' : FaceTable} {op : Op} (h : step face t op = some t') :
    ((∀ p, op ≠ .closed p) ∧ (t' = t ∨ ∃ p, Added face t t' p)) ∨
    ∃ p, op = .closed p ∧ p ∈ t.ptrs ∧ (∀ q, q ∈ t'.ptrs ↔ q ∈ t.ptrs ∧ q ≠ p) ∧
      t'.wirelessEtherMulticastFace = t.wirelessEtherMulticastFace := by
  cases op with
  | add p =>
    obtain rfl := Option.some.inj h
    refine Or.inl ⟨by simp, ?_⟩
    unfold FaceTable.add
    split
    · exact Or.inl rfl
    · exact Or.inr ⟨p, added_addImpl⟩
  | addReserved p id =>
    simp only [step, FaceTable.addReserved] at h
    split at h
    · grind [added_addImpl]
    · cases h
  | closed p =>
    obtain ⟨hp, rfl⟩ := Option.ite_some_none_eq_some.1 h
    exact Or.inr ⟨p, rfl, hp, mem_ptrs_remove hp, rfl⟩

end FaceTable

end NdnMulticast.Nfd
