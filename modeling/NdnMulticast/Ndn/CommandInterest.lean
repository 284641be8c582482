/-
  `ValidationPolicyCommandInterest`: the timestamp of a command Interest is compared with the
  last one recorded for its key when the validation starts, and recorded when it succeeds.
  A run interleaves arrivals and completions freely.  Keys are names, ordered by
  `Name::compare`.
-/

import Mathlib.Data.List.Perm.Basic
import NdnMulticast.Ndn.InterestParameters
import NdnMulticast.Ndn.NameOrder
import NdnMulticast.Lib.Run

namespace NdnMulticast.Ndn.CommandInterest

open Lib List

/-- `ValidationPolicyCommandInterest::Options`, in nanoseconds. -/
structure Options where
  gracePeriod : Int
  maxRecords : Int
  recordLifetime : Int

structure LastTimestampRecord where
  keyName : Name
  timestamp : Int
  lastRefreshed : Int
deriving DecidableEq

/-- A validation that passed `checkTimestamp`, with what it will record. -/
structure Validation where
  interest : Interest
  keyName : Name
  timestamp : Int
deriving DecidableEq

structure State where
  /-- `m_queue`, the record refreshed last at the end. -/
  queue : List LastTimestampRecord
  /-- The validations that have not ended. -/
  outstanding : List Validation
  /-- The validations that succeeded, latest first. -/
  accepted : List Validation
deriving DecidableEq

inductive Event where
  /-- A command Interest arrives, at these times of the two clocks. -/
  | arrive (i : Interest) (system steady : Int)
  /-- The `n`-th outstanding validation ends. -/
  | complete (n : Nat) (verified : Bool) (steady : Int)

/-! ## The policy -/

/-- `command_interest::MIN_SIZE`, which is also `-POS_TIMESTAMP`. -/
def minSize : Nat := 4

/-- A failure of the policy about a name. -/
def policyError (before : String) (n : Name) (after : String) : Stop :=
  .failed ⟨.policyError, [.text before, .uri n, .text after]⟩

/-- The timestamp of a command Interest of either format. -/
def getTimestamp (i : Interest) : Checks Int := do
  match ← i.getSignatureInfo.checks with
  | some si =>
    match ← si.getTime.checks with
    | some timestamp => return timestamp
    | none =>
      throw
        (policyError "Signed Interest `" i.name "` doesn't include required SignatureTime element")
  | none =>
    match decide (i.name.length < minSize), Interest.fromEnd i.name minSize with
    | false, some c =>
      if c.isNumber then return fromUnixTimestamp (Tlv.bigEndian c.value)
      else throw (policyError "Command interest `" i.name "` doesn't include timestamp component")
    | _, _ => throw (policyError "Command interest name `" i.name "` is too short")

def parseCommandInterest (i : Interest) : Checks (Name × Int) := do
  let timestamp ← getTimestamp i
  let keyName ← i.getKeyLocatorName
  return (keyName, timestamp)

def cleanup (opts : Options) (steady : Int) : List LastTimestampRecord → List LastTimestampRecord
  | [] => []
  | r :: rs =>
    if r.lastRefreshed ≤ steady - opts.recordLifetime ∨
        (0 ≤ opts.maxRecords ∧ opts.maxRecords < (r :: rs).length) then
      cleanup opts steady rs
    else r :: rs

variable (queue : List LastTimestampRecord) (keyName : Name)

/-- `m_index.find`. -/
def recordOf : Option LastTimestampRecord :=
  queue.find? (·.keyName.wires == keyName.wires)

/-- `checkTimestamp`, after the cleanup. -/
def checkTimestamp (opts : Options) (system : Int) (queue : List LastTimestampRecord)
    (keyName : Name) (timestamp : Int) : Checks Unit :=
  if timestamp < system - max opts.gracePeriod 0 ∨ system + max opts.gracePeriod 0 < timestamp then
    .error (policyError "Timestamp is outside the grace period for key " keyName "")
  else if (recordOf queue keyName).any (timestamp ≤ ·.timestamp) then
    .error (policyError "Timestamp is reordered for key " keyName "")
  else .ok ()

/-- `insertNewRecord`: the record of the key, if any, is replaced by one at the end. -/
def insertNewRecord (timestamp steady : Int) : List LastTimestampRecord :=
  queue.filter (·.keyName.wires != keyName.wires) ++ [⟨keyName, timestamp, steady⟩]

def step (opts : Options) (s : State) : Event → Option State
  | .arrive i system steady =>
    match parseCommandInterest i with
    | .error _ => some s
    | .ok (keyName, timestamp) =>
      let queue := cleanup opts steady s.queue
      match checkTimestamp opts system queue keyName timestamp with
      | .error _ => some { s with queue }
      | .ok () =>
        some { s with queue, outstanding := s.outstanding ++ [⟨i, keyName, timestamp⟩] }
  | .complete n verified steady =>
    match s.outstanding[n]? with
    | none => none
    | some v =>
      -- `afterSuccess` calls the success callback, then the policy's slot
      if verified then
        some ⟨insertNewRecord s.queue v.keyName v.timestamp steady, s.outstanding.eraseIdx n,
          v :: s.accepted⟩
      else some { s with outstanding := s.outstanding.eraseIdx n }

def init : State := ⟨[], [], []⟩

/-! ## Replays -/

/-- Both validations are of one key. -/
def Validation.SameKey (v w : Validation) : Prop := v.keyName.wires = w.keyName.wires

/-- No command was accepted twice, and those of one key with increasing timestamps. -/
structure State.ReplayFree (s : State) : Prop where
  once : (s.accepted.map Validation.interest).Nodup
  increasing : s.accepted.Pairwise fun later earlier =>
    later.SameKey earlier → earlier.timestamp < later.timestamp

/-- The event evicts no record. -/
def State.keepsRecords (opts : Options) (s : State) : Event → Bool
  | .arrive _ _ steady => cleanup opts steady s.queue == s.queue
  | .complete .. => true

/-- No command arrives while another of its key is being validated. -/
def State.stopAndWait (s : State) : Event → Bool
  | .arrive i _ _ =>
    match parseCommandInterest i with
    | .error _ => true
    | .ok (keyName, _) => s.outstanding.all (·.keyName.wires != keyName.wires)
  | .complete .. => true

/-- The record of a key is at least as new as its accepted commands, and an outstanding validation
    is newer than all of them. -/
structure Inv (s : State) : Prop where
  parsed : ∀ v, v ∈ s.outstanding ∨ v ∈ s.accepted →
    parseCommandInterest v.interest = .ok (v.keyName, v.timestamp)
  recorded : ∀ a ∈ s.accepted, ∃ r, recordOf s.queue a.keyName = some r ∧ a.timestamp ≤ r.timestamp
  newer : ∀ v ∈ s.outstanding, ∀ a ∈ s.accepted, v.SameKey a → a.timestamp < v.timestamp
  single : s.outstanding.Pairwise fun v w => ¬ v.SameKey w
  increasing : s.accepted.Pairwise fun later earlier =>
    later.SameKey earlier → earlier.timestamp < later.timestamp

variable {s : State} {opts : Options} {system steady : Int}

theorem Inv.replayFree (h : Inv s) : s.ReplayFree := by
  refine ⟨?_, h.increasing⟩
  rw [Nodup, pairwise_map]
  refine Pairwise.imp_of_mem (fun {a b} ha hb hlt heq => ?_) h.increasing
  -- key and timestamp are read off the Interest
  have hparse := (h.parsed a (.inr ha)).symm.trans
    ((congrArg parseCommandInterest heq).trans (h.parsed b (.inr hb)))
  obtain ⟨hkey, htime⟩ := Prod.mk.inj (Except.ok.inj hparse)
  have := hlt (congrArg Name.wires hkey)
  omega

theorem newer_of_checkTimestamp {timestamp : Int} {queue : List LastTimestampRecord}
    {keyName : Name} {r : LastTimestampRecord}
    (h : checkTimestamp opts system queue keyName timestamp = .ok ())
    (hr : recordOf queue keyName = some r) : r.timestamp < timestamp := by
  unfold checkTimestamp at h
  split_ifs at h with _ hold
  rw [hr] at hold
  simpa using hold

theorem recordOf_insertNewRecord (k : Name) (timestamp steady : Int) :
    recordOf (insertNewRecord queue keyName timestamp steady) k =
      if keyName.wires = k.wires then some ⟨keyName, timestamp, steady⟩ else recordOf queue k := by
  unfold recordOf insertNewRecord
  by_cases hk : keyName.wires = k.wires
  · grind
  · grind

theorem Inv.arrive {s' : State} {i : Interest} (h : Inv s)
    (hkeep : s.keepsRecords opts (.arrive i system steady) = true)
    (hwait : s.stopAndWait (.arrive i system steady) = true)
    (hstep : step opts s (.arrive i system steady) = some s') : Inv s' := by
  have hqueue : cleanup opts steady s.queue = s.queue := by simpa [State.keepsRecords] using hkeep
  simp only [step, hqueue] at hstep
  simp only [State.stopAndWait] at hwait
  split at hstep
  · cases hstep
    exact h
  rename_i keyName timestamp hparse
  rw [hparse] at hwait
  split at hstep <;> cases hstep
  · exact h
  rename_i htime
  have hfree : ∀ v ∈ s.outstanding, v.keyName.wires ≠ keyName.wires := by simpa using hwait
  refine ⟨?_, h.recorded, ?_, ?_, h.increasing⟩
  · grind [parsed]
  · intro v hv a ha hsame
    rcases mem_append.1 hv with hv | hv
    · exact h.newer v hv a ha hsame
    obtain rfl := mem_singleton.1 hv
    -- the record that the check compared with covers `a`
    obtain ⟨r, hr, hle⟩ := h.recorded a ha
    have hr' : recordOf s.queue keyName = some r := by
      rw [← hr, recordOf, recordOf, show keyName.wires = a.keyName.wires from hsame]
    exact Int.lt_of_le_of_lt hle (newer_of_checkTimestamp htime hr')
  · rw [pairwise_append]
    refine ⟨h.single, pairwise_singleton _ _, ?_⟩
    intro v hv w hw
    obtain rfl := mem_singleton.1 hw
    exact hfree v hv

theorem Inv.complete {s' : State} {n : Nat} {verified : Bool} (h : Inv s)
    (hstep : step opts s (.complete n verified steady) = some s') : Inv s' := by
  simp only [step] at hstep
  split at hstep
  · cases hstep
  rename_i v hv
  obtain ⟨hn, hget⟩ := List.getElem?_eq_some_iff.1 hv
  have hperm : s.outstanding.Perm (v :: s.outstanding.eraseIdx n) :=
    hget ▸ (getElem_cons_eraseIdx_perm hn).symm
  have hsymm : ∀ {a b : Validation}, ¬ a.SameKey b → ¬ b.SameKey a := fun hab hba => hab hba.symm
  obtain ⟨hother, hsingle⟩ := pairwise_cons.1 ((hperm.pairwise_iff hsymm).1 h.single)
  have hmem : ∀ {w}, w ∈ s.outstanding.eraseIdx n → w ∈ s.outstanding := mem_of_mem_eraseIdx
  have hvmem : v ∈ s.outstanding := hperm.mem_iff.2 (.head _)
  split_ifs at hstep <;> cases hstep
  · refine ⟨?_, ?_, ?_, hsingle, pairwise_cons.2 ⟨h.newer v hvmem, h.increasing⟩⟩
    · grind [parsed]
    · intro a ha
      rw [recordOf_insertNewRecord]
      split_ifs with hkey
      · -- the new record is the newest of its key
        refine ⟨_, rfl, ?_⟩
        rcases mem_cons.1 ha with rfl | ha
        exacts [Int.le_refl _, (h.newer v hvmem a ha hkey).le]
      · grind [recorded]
    · intro w hw a ha hsame
      rcases mem_cons.1 ha with rfl | ha
      exacts [absurd hsame.symm (hother w hw), h.newer w (hmem hw) a ha hsame]
  · refine ⟨?_, h.recorded, fun w hw => h.newer w (hmem hw), hsingle, h.increasing⟩
    exact fun w hw => h.parsed w (hw.imp_left hmem)

/-- A command of format 0.2 for `/`: timestamp, random value, SignatureInfo (a digest),
    SignatureValue. -/
def command (milliseconds : UInt8) : Interest :=
  Interest.blank ([[milliseconds], [0], [22, 3, 27, 1, 0], []].map fun value =>
    ⟨Tlv.genericNameComponent, value,
      Component.encodeTypeLength Tlv.genericNameComponent value.length⟩)

def defaultOptions : Options := ⟨120000000000, 1000, 3600000000000⟩

end NdnMulticast.Ndn.CommandInterest
