/-
  The Content Store under its default policy, after `daemon/table/cs-policy-lru.cpp`.

  `Tracked` adds its history to a store: for each entry, the number of the operation that
  last inserted, refreshed or used it.
-/

import NdnMulticast.Nfd.CsPolicy

namespace NdnMulticast.Nfd

open Lib Ndn List Option Store Sample

/-! ## The policy -/

namespace Lru

/-- The front of the queue. -/
def evictOne : List Nat → Option (Nat × List Nat)
  | [] => none
  | id :: queue => some (id, queue)

variable {queue : List Nat}

theorem relocate_of_notMem {id : Nat} (h : id ∉ queue) : Cs.relocate queue id = queue ++ [id] := by
  have hsame : queue.filter (· != id) = queue :=
    filter_eq_self.2 fun j hj => by simpa using fun heq : j = id => h (heq ▸ hj)
  rw [Cs.relocate, hsame]

theorem nodup_relocate (h : queue.Nodup) (id : Nat) : (Cs.relocate queue id).Nodup :=
  (nodup_append_comm.1 (nodup_cons.2 ⟨by simp, h.filter _⟩ :
    ([id] ++ queue.filter (· != id)).Nodup))

theorem perm_relocate (h : queue.Nodup) {id : Nat} (hid : id ∈ queue) :
    (Cs.relocate queue id).Perm queue := by
  have herase : queue.filter (· != id) = queue.erase id := (h.erase_eq_filter id).symm
  rw [Cs.relocate, herase]
  exact perm_append_comm.trans (perm_cons_erase hid).symm

end Lru

/-- `LruPolicy`. -/
def lru : CsPolicy (List Nat) where
  attach queue e _ := Cs.relocate queue e.id
  afterRefresh queue e _ := Cs.relocate queue e.id
  beforeErase queue id := queue.filter (· != id)
  beforeUse := Cs.relocate
  evictOne := Lru.evictOne
  order queue := queue
  Valid queue := queue.Nodup
  nodup_order h := h
  attach_spec _ h hid := by
    refine ⟨Lru.nodup_relocate h _, ?_⟩
    rw [Lru.relocate_of_notMem hid]
    exact List.perm_append_comm
  afterRefresh_spec _ h hid := ⟨Lru.nodup_relocate h _, Lru.perm_relocate h hid⟩
  beforeUse_spec h hid := ⟨Lru.nodup_relocate h _, Lru.perm_relocate h hid⟩
  beforeErase_spec h _ := ⟨h.filter _, rfl⟩
  evictOne_eq {queue} h := by
    cases queue with
    | nil => rfl
    | cons id queue =>
      rw [List.nodup_cons] at h
      have hrest : (id :: queue).filter (· != id) = queue := by
        rw [List.filter_cons_of_neg (by simp)]
        exact List.filter_eq_self.2 fun j hj => by
          simpa using fun heq : j = id => h.1 (heq ▸ hj)
      show some (id, queue) = some (id, (id :: queue).filter (· != id))
      rw [hrest]

/-! ## The store of the forwarder -/

namespace Cs

variable (sha256 : List UInt8 → List UInt8)

def toStore (cs : Cs) : Store (List Nat) :=
  ⟨cs.table, cs.queue, cs.nextId, cs.limit, cs.shouldAdmit, cs.shouldServe⟩

theorem evictEntries_eq (limit : Nat) (queue : List Nat) (table : List CsEntry) :
    evictEntries limit queue table = Store.evictLoop lru limit queue.length queue table := by
  induction queue generalizing table with
  | nil => rfl
  | cons id queue ih =>
    rw [evictEntries, length_cons, Store.evictLoop]
    split
    · exact ih _
    · rfl

theorem toStore_insert (cs : Cs) (d : Data) (isUnsolicited : Bool) (now : Int) :
    (cs.insert sha256 d isUnsolicited now).toStore
      = cs.toStore.insert sha256 lru d isUnsolicited now := by
  have hadmits : (!cs.shouldAdmit || cs.limit == 0 || d.noCache) = !cs.toStore.admits d := by
    simp [toStore, Store.admits, bne]
  unfold insert Store.insert
  rw [hadmits]
  cases cs.toStore.admits d with
  | false => rfl
  | true =>
    have hstored : cs.toStore.stored sha256 d =
        cs.table.find? fun e => compareDataWithData sha256 d e.data == .eq := rfl
    rw [← hstored]
    cases cs.toStore.stored sha256 d with
    | some old => rfl
    | none =>
      simp only [evictEntries_eq]
      rfl

theorem toStore_find (cs : Cs) (i : Interest) (now : Int) :
    (cs.find sha256 i now).map (fun r => (r.1, r.2.toStore)) =
      cs.toStore.find sha256 lru i now := by
  show Except.map _ (if (!cs.shouldServe || cs.limit == 0) = true then _ else _) =
    if (!cs.shouldServe || cs.limit == 0) = true then _ else _
  split
  · rfl
  · show Except.map _ (findMatch sha256 cs.table i now >>= _) =
      (findMatch sha256 cs.table i now >>= _)
    cases findMatch sha256 cs.table i now with
    | error f => rfl
    | ok found => cases found <;> rfl

end Cs

/-! ## Runs -/

/-- A store under the policy, and the history that says when each entry was used. -/
structure Tracked where
  store : Store (List Nat)
  /-- The number of operations so far. -/
  clock : Nat
  /-- The operation that last inserted, refreshed or used an entry. -/
  stamp : Nat → Nat

namespace Tracked

variable (sha256 : List UInt8 → List UInt8)

def init (limit : Nat) (shouldAdmit shouldServe : Bool) : Tracked :=
  ⟨.init [] limit shouldAdmit shouldServe, 0, fun _ => 0⟩

/-- The entry an operation inserts, refreshes or uses. -/
def touched (s : Store (List Nat)) (now : Int) : CsOp → Option Nat
  | .insert d _ => s.insertedAs sha256 d
  | .find i => (s.found sha256 i now).map CsEntry.id
  | _ => none

/-- The stamps after an operation. -/
def stampAfter (t : Tracked) (now : Int) (op : CsOp) : Nat → Nat :=
  match touched sha256 t.store now op with
  | some id => Function.update t.stamp id t.clock
  | none => t.stamp

/-- An operation at a time. -/
def step (t : Tracked) (e : Int × CsOp) : Option Tracked := do
  let store ← t.store.step sha256 lru e.1 e.2
  return ⟨store, t.clock + 1, t.stampAfter sha256 e.1 e.2⟩

/-- The queue mirrors the table in the order of the last use; the table is not over its limit. -/
structure Good (t : Tracked) : Prop where
  mirrored : t.store.Mirrored lru
  size : t.store.table.length ≤ t.store.limit
  stamped : Stamped t.stamp t.clock t.store.policy

theorem good_init (limit : Nat) (shouldAdmit shouldServe : Bool) :
    (init limit shouldAdmit shouldServe).Good :=
  ⟨⟨nodup_nil, .refl _, by simp [init, Store.init]⟩, Nat.zero_le _,
    ⟨List.Pairwise.nil, by simp [init, Store.init]⟩⟩

variable {sha256} {t t' : Tracked} {now : Int} {op : CsOp}

theorem step_eq_some (h : t.step sha256 (now, op) = some t') :
    ∃ store, t.store.step sha256 lru now op = some store ∧
      t' = ⟨store, t.clock + 1, t.stampAfter sha256 now op⟩ := by
  obtain ⟨store, hstore, h⟩ := bind_eq_some_iff.1 h
  exact ⟨store, hstore, (some.inj h).symm⟩

theorem stampAfter_of_touched {id : Nat} (h : touched sha256 t.store now op = some id) :
    t.stampAfter sha256 now op = Function.update t.stamp id t.clock := by
  rw [stampAfter, h]

theorem stampAfter_of_untouched (h : touched sha256 t.store now op = none) :
    t.stampAfter sha256 now op = t.stamp := by
  rw [stampAfter, h]

variable {isUnsolicited : Bool}

theorem Good.stamped_emplace (ht : t.Good) {d : Data} (hadmits : t.store.admits d = true)
    (hstored : t.store.stored sha256 d = none) :
    Stamped (t.stampAfter sha256 now (.insert d isUnsolicited)) (t.clock + 1)
      (t.store.emplace sha256 lru d isUnsolicited now).policy := by
  have htouched : touched sha256 t.store now (.insert d isUnsolicited) = some t.store.nextId := by
    simp [touched, Store.insertedAs, hadmits, hstored]
  rw [stampAfter_of_touched htouched]
  exact ht.stamped.moveToBack t.store.nextId

theorem stamped_drop {s : Store (List Nat)} {stamp : Nat → Nat} {clock : Nat}
    (hs : s.Mirrored lru) (hstamped : Stamped stamp clock s.policy) {ids : List Nat}
    (hknown : s.Known lru ids) : Stamped stamp clock (s.drop lru ids).policy := by
  refine (hs.drop_induction (P := fun s => Stamped stamp clock s.policy) ?_ hknown hstamped).2
  intro s id _ _ h
  exact h.sublist filter_sublist

theorem Good.stamped_effect (ht : t.Good) {store : Store (List Nat)}
    (h : t.store.Effect sha256 lru now op store) :
    Stamped (t.stampAfter sha256 now op) (t.clock + 1) store.policy := by
  cases h with
  | reject hadmits =>
    rw [stampAfter_of_untouched (by simp [touched, Store.insertedAs, hadmits])]
    exact ht.stamped.later
  | @refresh d isUnsolicited old hadmits hstored =>
    have htouched : touched sha256 t.store now (.insert d isUnsolicited) = some old.id := by
      simp [touched, Store.insertedAs, hadmits, hstored]
    rw [stampAfter_of_touched htouched]
    exact ht.stamped.moveToBack old.id
  | emplace hadmits hstored hknown _ =>
    exact stamped_drop (ht.mirrored.emplace _ _ now) (ht.stamped_emplace hadmits hstored) hknown
  | miss hfound =>
    rw [stampAfter_of_untouched (by simp [touched, hfound])]
    exact ht.stamped.later
  | @use i e hfound =>
    have htouched : touched sha256 t.store now (.find i) = some e.id := by
      simp [touched, hfound]
    rw [stampAfter_of_touched htouched]
    exact ht.stamped.moveToBack e.id
  | erase hknown | setLimit hknown _ =>
    exact stamped_drop ht.mirrored ht.stamped.later hknown

/-- **One operation** keeps the queue right. -/
theorem Good.step (ht : t.Good) (h : t.step sha256 (now, op) = some t') : t'.Good := by
  obtain ⟨store, hstore, rfl⟩ := step_eq_some h
  have heffect := step_effect ht.mirrored hstore
  exact ⟨ht.mirrored.effect heffect, heffect.length_le ht.size, ht.stamped_effect heffect⟩

/-- **An eviction** takes the entry whose last use is the oldest. -/
theorem Good.step_evicts (ht : t.Good) (h : t.step sha256 (now, op) = some t')
    {mid : Store (List Nat)} (hmid : t.store.evictsFrom sha256 lru now op = some mid) :
    Evicts t'.store.limit (fun a b => t'.stamp a.id < t'.stamp b.id) mid.table t'.store.table := by
  obtain ⟨store, hstore, rfl⟩ := step_eq_some h
  cases step_effect ht.mirrored hstore with
  | reject hadmits => simp [Store.evictsFrom, hadmits] at hmid
  | refresh hadmits hstored => simp [Store.evictsFrom, hadmits, hstored] at hmid
  | emplace hadmits hstored _ hevicts =>
    simp only [Store.evictsFrom, hadmits, hstored, isNone_none, Bool.and_self, if_true,
      some.injEq] at hmid
    rw [← hmid]
    exact hevicts _ (ht.stamped_emplace hadmits hstored).inOrder
  | miss | use | erase => cases hmid
  | setLimit _ hevicts =>
    obtain rfl := some.inj hmid
    exact hevicts _ ht.stamped.inOrder

/-- **The queue in every state reached** is a permutation of the table, which is not over its limit,
    and each eviction by the next operation takes the entry whose last insertion, refresh or use is
    the oldest. -/
theorem run_lru (limit : Nat) (shouldAdmit shouldServe : Bool) {es : List (Int × CsOp)}
    (hrun : Run (step sha256) (fun t e => t.store.runsPast sha256 e.2 = false)
      (init limit shouldAdmit shouldServe) es t) :
    t.store.policy.Perm (t.store.table.map (·.id)) ∧ t.store.policy.Nodup ∧
      t.store.table.length ≤ t.store.limit ∧
      ∀ now op, t.store.runsPast sha256 op = false → ∃ t', t.step sha256 (now, op) = some t' ∧
        (∀ mid ∈ t.store.evictsFrom sha256 lru now op,
          Evicts t'.store.limit (fun a b => t'.stamp a.id < t'.stamp b.id) mid.table
            t'.store.table) ∧
        (t.store.evictsFrom sha256 lru now op = none → (∀ name limit, op ≠ .erase name limit) →
          t'.store.table.map (·.id) = t.store.table.map (·.id)) := by
  have ht : t.Good :=
    hrun.invariant (fun s e s' hs _ hstep => hs.step hstep)
      (good_init limit shouldAdmit shouldServe)
  refine ⟨ht.mirrored.mirrors, ht.mirrored.valid, ht.size, fun now op hpast => ?_⟩
  obtain ⟨store, hstore⟩ := exists_step sha256 lru now hpast
  have hstep : t.step sha256 (now, op) = some ⟨store, t.clock + 1, t.stampAfter sha256 now op⟩ := by
    rw [step, hstore]
    rfl
  refine ⟨_, hstep, fun mid hmid => ht.step_evicts hstep hmid, fun hnone herase => ?_⟩
  exact (step_effect ht.mirrored hstore).map_id hnone herase

/-- The name `/a` with a long encoding comes after `/b` in the table, its successor does not, and
    the lookup runs past the end. -/
theorem find_runs_past_end :
    Data.wireDecode (Sample.dataBlock 98) = .ok (Sample.data 98) ∧
      Interest.wireDecode false Sample.sha256 ⟨Tlv.interest, [5, 7], [7, 5, 8, 253, 0, 1, 97], []⟩
        = .ok Sample.longForm ∧
      ∃ t, Run (step Sample.sha256) (fun _ _ => True) (init 10 true true)
          [(0, .insert (Sample.data 98) false)] t ∧
        t.store.find Sample.sha256 lru Sample.longForm 0 = .error .undefinedBehavior := by
  refine ⟨rfl, rfl, Run.exists_of_decide (fun t =>
    (match t.store.find sha256 lru longForm 0 with
      | .error .undefinedBehavior => true
      | _ => false) = true) (by decide) fun t _ htest => ?_⟩
  split at htest
  · assumption
  · cases htest

/-- `/a` and `/b` are stored in a store for two, `/a` is used, and `/c` comes. -/
theorem run_lru_three :
    ∃ t, Run (step Sample.sha256) (fun t e => t.store.runsPast Sample.sha256 e.2 = false)
        (init 2 true true)
        [(0, .insert (Sample.data 97) false), (1, .insert (Sample.data 98) false),
          (2, .find (Sample.interest 97)), (3, .insert (Sample.data 99) false)] t ∧
      t.store.policy = [0, 2] ∧ t.store.policy.Perm (t.store.table.map (·.id)) ∧
      t.store.table.length ≤ t.store.limit := by
  refine Run.exists_of_decide (·.store.policy = [0, 2]) (by decide) fun t hrun htest => ?_
  obtain ⟨hperm, -, hsize, -⟩ := run_lru 2 true true hrun
  exact ⟨htest, hperm, hsize⟩

end Tracked

end NdnMulticast.Nfd
