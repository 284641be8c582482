/-
  The Content Store under the priority FIFO policy, after
  `daemon/table/cs-policy-priority-fifo.cpp`.

  The clock and the scheduler are events of their own (`Aging.Event`): between the time at
  which an event is due and the time at which it runs, any operation may come.
-/

import NdnMulticast.Nfd.CsPolicy

namespace NdnMulticast.Nfd

open Lib Ndn List Option Store Sample Function Nat

def CsEntry.isFresh (e : CsEntry) (now : Int) : Bool := decide (now ≤ e.freshUntil)

inductive QueueType where
  | unsolicited
  | stale
  | fifo
deriving DecidableEq, Repr

structure EntryInfo where
  queueType : QueueType
  moveStaleEventId : Option Nat
deriving DecidableEq, Repr

/-- A scheduled call of `moveToStaleQueue`. -/
structure MoveEvent where
  eventId : Nat
  entry : Nat
  due : Int
deriving DecidableEq, Repr

structure PriorityFifo where
  queues : QueueType → List Nat
  entryInfoMap : List (Nat × EntryInfo)
  /-- The events that are scheduled. -/
  events : List MoveEvent
  nextEventId : Nat

namespace PriorityFifo

/-! ## The policy -/

def empty : PriorityFifo := ⟨fun _ => [], [], [], 0⟩

/-- The queue `attachQueue` chooses. -/
def queueFor (e : CsEntry) (now : Int) : QueueType :=
  if e.isUnsolicited then .unsolicited
  else if !e.isFresh now then .stale
  else .fifo

/-- `getScheduler().schedule` of a move. -/
def schedule (q : PriorityFifo) (id : Nat) (due : Int) : PriorityFifo :=
  { q with events := ⟨q.nextEventId, id, due⟩ :: q.events, nextEventId := q.nextEventId + 1 }

/-- An entry goes to the end of a queue and into the map. -/
def place (q : PriorityFifo) (id : Nat) (info : EntryInfo) : PriorityFifo :=
  { q with
    queues := Function.update q.queues info.queueType (q.queues info.queueType ++ [id])
    entryInfoMap := (id, info) :: q.entryInfoMap }

def attachQueue (q : PriorityFifo) (e : CsEntry) (now : Int) : PriorityFifo :=
  match queueFor e now with
  | .fifo =>
    (q.schedule e.id (now + toNanoseconds e.data.getFreshnessPeriod)).place e.id
      ⟨.fifo, some q.nextEventId⟩
  | type => q.place e.id ⟨type, none⟩

def detachQueue (q : PriorityFifo) (id : Nat) : PriorityFifo :=
  match q.entryInfoMap.lookup id with
  | none => q
  | some info =>
    { q with
      queues := Function.update q.queues info.queueType ((q.queues info.queueType).filter (· != id))
      entryInfoMap := q.entryInfoMap.filter (·.1 != id)
      events :=
        if info.queueType = .fifo then
          q.events.filter fun ev => info.moveStaleEventId != some ev.eventId
        else q.events }

def evictOne (q : PriorityFifo) : Option (Nat × PriorityFifo) :=
  match q.queues .unsolicited, q.queues .stale, q.queues .fifo with
  | id :: _, _, _ => some (id, q.detachQueue id)
  | [], id :: _, _ => some (id, q.detachQueue id)
  | [], [], id :: _ => some (id, q.detachQueue id)
  | [], [], [] => none

def moveToStaleQueue (q : PriorityFifo) (id : Nat) : PriorityFifo :=
  { q with
    queues := Function.update
      (Function.update q.queues .fifo ((q.queues .fifo).filter (· != id)))
      .stale (q.queues .stale ++ [id])
    entryInfoMap := q.entryInfoMap.map fun x =>
      (x.1, if x.1 = id then { x.2 with queueType := .stale } else x.2) }

/-- The scheduler runs an event. -/
def fire (q : PriorityFifo) (ev : MoveEvent) : PriorityFifo :=
  moveToStaleQueue { q with events := q.events.filter (·.eventId != ev.eventId) } ev.entry

/-- The entries in the order in which they would be evicted. -/
def order (q : PriorityFifo) : List Nat :=
  q.queues .unsolicited ++ q.queues .stale ++ q.queues .fifo

theorem mem_order {q : PriorityFifo} {id : Nat} : id ∈ q.order ↔ ∃ type, id ∈ q.queues type := by
  simp only [order, mem_append]
  constructor
  · grind
  · rintro ⟨type, h⟩
    cases type with
    | unsolicited => exact Or.inl (Or.inl h)
    | stale => exact Or.inl (Or.inr h)
    | fifo => exact Or.inr h

/-! ## How queues, map and events fit together -/

/-- What the map says of an entry, if it is there. -/
def infoOf (q : PriorityFifo) (id : Nat) : Option EntryInfo := q.entryInfoMap.lookup id

structure Valid (q : PriorityFifo) : Prop where
  nodup : ∀ type, (q.queues type).Nodup
  mem_iff : ∀ type id, id ∈ q.queues type ↔ ∃ info ∈ q.infoOf id, info.queueType = type
  /-- An entry of the FIFO queue has its event. -/
  pending : ∀ id info, q.infoOf id = some info → info.queueType = .fifo →
    ∃ ev ∈ q.events, ev.entry = id ∧ info.moveStaleEventId = some ev.eventId
  /-- An event is that of an entry of the FIFO queue. -/
  owner : ∀ ev ∈ q.events, ∃ info, q.infoOf ev.entry = some info ∧ info.queueType = .fifo ∧
    info.moveStaleEventId = some ev.eventId
  eventIds : (q.events.map MoveEvent.eventId).Nodup
  past : ∀ ev ∈ q.events, ev.eventId < q.nextEventId

theorem valid_empty : Valid empty where
  nodup _ := nodup_nil
  mem_iff := by simp [empty, infoOf]
  pending := by simp [empty, infoOf]
  owner := by simp [empty]
  eventIds := nodup_nil
  past := by simp [empty]

namespace Valid

variable {q : PriorityFifo} {id : Nat} {info : EntryInfo} (hq : q.Valid)
include hq

theorem mem_queue (h : q.infoOf id = some info) : id ∈ q.queues info.queueType :=
  (hq.mem_iff _ id).2 ⟨info, h, rfl⟩

theorem eq_queueType (h : q.infoOf id = some info) {type : QueueType} (hid : id ∈ q.queues type) :
    type = info.queueType := by
  obtain ⟨info', h', htype⟩ := (hq.mem_iff type id).1 hid
  rw [mem_def, h] at h'
  rw [← htype, some.inj h']

theorem infoOf_eq_none (hid : id ∉ q.order) : q.infoOf id = none := by
  cases h : q.infoOf id with
  | none => rfl
  | some info => exact absurd (mem_order.2 ⟨_, hq.mem_queue h⟩) hid

theorem exists_infoOf (hid : id ∈ q.order) : ∃ info, q.infoOf id = some info := by
  obtain ⟨type, h⟩ := mem_order.1 hid
  obtain ⟨info, hinfo, -⟩ := (hq.mem_iff type id).1 h
  exact ⟨info, hinfo⟩

theorem nodup_order : q.order.Nodup := by
  have hdisjoint : ∀ {type type'}, type ≠ type' → (q.queues type).Disjoint (q.queues type') := by
    intro type type' hne id h h'
    obtain ⟨info, hinfo, htype⟩ := (hq.mem_iff type id).1 h
    exact hne (htype.symm.trans (hq.eq_queueType hinfo h').symm)
  refine nodup_append'.2 ⟨nodup_append'.2 ⟨hq.nodup _, hq.nodup _, hdisjoint (by decide)⟩,
    hq.nodup _, ?_⟩
  rw [disjoint_append_left]
  exact ⟨hdisjoint (by decide), hdisjoint (by decide)⟩

theorem eq_of_eventId {ev ev' : MoveEvent} (hev : ev ∈ q.events) (hev' : ev' ∈ q.events)
    (h : ev.eventId = ev'.eventId) : ev = ev' :=
  inj_on_of_nodup_map hq.eventIds hev hev' h

theorem eq_of_entry {ev ev' : MoveEvent} (hev : ev ∈ q.events) (hev' : ev' ∈ q.events)
    (h : ev.entry = ev'.entry) : ev = ev' := by
  obtain ⟨info, hinfo, -, hid⟩ := hq.owner ev hev
  obtain ⟨info', hinfo', -, hid'⟩ := hq.owner ev' hev'
  rw [h, hinfo'] at hinfo
  rw [some.inj hinfo, hid] at hid'
  exact hq.eq_of_eventId hev hev' (some.inj hid')

end Valid

/-! ### Attaching -/

variable {q : PriorityFifo} {id : Nat} {info : EntryInfo} {e : CsEntry} {now : Int}

theorem infoOf_place (j : Nat) :
    (q.place id info).infoOf j = if j = id then some info else q.infoOf j := by
  unfold infoOf place
  by_cases h : j = id
  · simp [h]
  · grind

theorem queues_place (type : QueueType) :
    (q.place id info).queues type =
      if type = info.queueType then q.queues type ++ [id] else q.queues type := by
  unfold place
  by_cases h : type = info.queueType
  · subst h
    simp
  · simp [h]

theorem mem_queues_place_iff (hmem : ∀ type id, id ∈ q.queues type ↔
      ∃ info ∈ q.infoOf id, info.queueType = type) (hid : q.infoOf id = none)
    (type : QueueType) (j : Nat) :
    j ∈ (q.place id info).queues type ↔
      ∃ info' ∈ (q.place id info).infoOf j, info'.queueType = type := by
  rw [infoOf_place, queues_place]
  by_cases hj : j = id
  · grind
  · rw [if_neg hj, ← hmem]
    split <;> simp [hj]

theorem Valid.nodup_place (hq : ∀ type, (q.queues type).Nodup)
    (hid : ∀ type, id ∉ q.queues type) (type : QueueType) :
    ((q.place id info).queues type).Nodup := by
  rw [queues_place]
  split
  · grind
  · exact hq type

theorem Valid.attachQueue (hq : q.Valid) (hid : e.id ∉ q.order) : (q.attachQueue e now).Valid := by
  have hnone := hq.infoOf_eq_none hid
  have hnot : ∀ type, e.id ∉ q.queues type := fun type h => hid (mem_order.2 ⟨type, h⟩)
  -- the events that were there are those of other entries
  have howner : ∀ ev ∈ q.events, ev.entry ≠ e.id := by
    intro ev hev heq
    obtain ⟨info, hinfo, -⟩ := hq.owner ev hev
    rw [heq, hnone] at hinfo
    cases hinfo
  have hplain : ∀ type, type ≠ .fifo → (q.place e.id ⟨type, none⟩).Valid := by
    intro type htype
    refine ⟨Valid.nodup_place hq.nodup hnot, mem_queues_place_iff hq.mem_iff hnone, ?_, ?_,
      hq.eventIds, hq.past⟩
    · intro j info hinfo hfifo
      rw [infoOf_place] at hinfo
      split at hinfo
      · grind
      · exact hq.pending j info hinfo hfifo
    · intro ev hev
      rw [infoOf_place, if_neg (howner ev hev)]
      exact hq.owner ev hev
  unfold PriorityFifo.attachQueue
  cases queueFor e now with
  | unsolicited | stale => exact hplain _ (by decide)
  | fifo =>
    refine ⟨Valid.nodup_place hq.nodup hnot, mem_queues_place_iff hq.mem_iff hnone, ?_, ?_, ?_, ?_⟩
    · intro j info hinfo hfifo
      rw [infoOf_place] at hinfo
      split at hinfo
      · rename_i hj
        obtain rfl := some.inj hinfo
        exact ⟨_, (.head _), hj.symm, rfl⟩
      · obtain ⟨ev, hev, hentry, hid⟩ := hq.pending j info hinfo hfifo
        exact ⟨ev, .tail _ hev, hentry, hid⟩
    · intro ev hev
      rw [infoOf_place]
      rcases mem_cons.1 hev with rfl | hev
      · exact ⟨_, if_pos rfl, rfl, rfl⟩
      · rw [if_neg (howner ev hev)]
        exact hq.owner ev hev
    · refine nodup_cons.2 ⟨fun hmem => ?_, hq.eventIds⟩
      obtain ⟨ev, hev, heq⟩ := mem_map.1 hmem
      exact absurd heq (Nat.ne_of_lt (hq.past ev hev))
    · intro ev hev
      rcases mem_cons.1 hev with rfl | hev
      · exact lt_succ_self _
      · exact lt_succ_of_lt (hq.past ev hev)

theorem queues_attachQueue (type : QueueType) :
    (q.attachQueue e now).queues type =
      if type = queueFor e now then q.queues type ++ [e.id] else q.queues type := by
  unfold attachQueue
  cases queueFor e now with
  | unsolicited => exact queues_place type
  | stale => exact queues_place type
  | fifo => exact queues_place type

theorem perm_order_attachQueue : (q.attachQueue e now).order.Perm (e.id :: q.order) := by
  unfold order
  simp only [queues_attachQueue]
  cases queueFor e now with
  | unsolicited => simp
  | stale => grind
  | fifo => grind

/-! ### Detaching -/

theorem detachQueue_of_infoOf (h : q.infoOf id = some info) :
    q.detachQueue id =
      { q with
        queues := update q.queues info.queueType ((q.queues info.queueType).filter (· != id))
        entryInfoMap := q.entryInfoMap.filter (·.1 != id)
        events :=
          if info.queueType = .fifo then
            q.events.filter fun ev => info.moveStaleEventId != some ev.eventId
          else q.events } := by
  unfold infoOf at h
  unfold detachQueue
  rw [h]

theorem Valid.queues_detachQueue (hq : q.Valid) (h : q.infoOf id = some info) (type : QueueType) :
    (q.detachQueue id).queues type = (q.queues type).filter (· != id) := by
  rw [detachQueue_of_infoOf h]
  by_cases htype : type = info.queueType
  · subst htype
    exact update_self _ _ _
  · show update q.queues info.queueType _ type = _
    rw [update_of_ne htype]
    refine (filter_eq_self.2 fun j hj => ?_).symm
    have hne : j ≠ id := fun heq => htype (hq.eq_queueType h (heq ▸ hj))
    simpa using hne

theorem infoOf_detachQueue (h : q.infoOf id = some info) (j : Nat) :
    (q.detachQueue id).infoOf j = if j = id then none else q.infoOf j := by
  rw [detachQueue_of_infoOf h]
  unfold infoOf
  rw [lookup_filter_ne]
  simp

/-- Exactly the event of the entry is cancelled. -/
theorem Valid.mem_events_detachQueue (hq : q.Valid) (h : q.infoOf id = some info) {ev : MoveEvent} :
    ev ∈ (q.detachQueue id).events ↔ ev ∈ q.events ∧ ev.entry ≠ id := by
  rw [detachQueue_of_infoOf h]
  split
  · grind [pending, eq_of_eventId, eq_of_entry]
  · grind [owner]

theorem Valid.detachQueue (hq : q.Valid) (h : q.infoOf id = some info) :
    (q.detachQueue id).Valid := by
  refine ⟨fun type => ?_, fun type j => ?_, ?_, ?_, ?_, ?_⟩
  · rw [hq.queues_detachQueue h]
    exact (hq.nodup type).filter _
  · grind [queues_detachQueue, infoOf_detachQueue, mem_iff]
  · grind [pending, infoOf_detachQueue, mem_events_detachQueue]
  · simp_all [mem_events_detachQueue, infoOf_detachQueue, owner]
  · rw [detachQueue_of_infoOf h]
    split
    · exact hq.eventIds.sublist (filter_sublist.map _)
    · exact hq.eventIds
  · intro ev hev
    have hsame : (q.detachQueue id).nextEventId = q.nextEventId := by
      rw [detachQueue_of_infoOf h]
    rw [hsame]
    exact hq.past ev ((hq.mem_events_detachQueue h).1 hev).1

theorem Valid.order_detachQueue (hq : q.Valid) (h : q.infoOf id = some info) :
    (q.detachQueue id).order = q.order.filter (· != id) := by
  unfold order
  simp only [hq.queues_detachQueue h, filter_append]

theorem evictOne_eq (q : PriorityFifo) :
    q.evictOne = q.order.head?.map fun id => (id, q.detachQueue id) := by
  unfold evictOne order
  cases q.queues .unsolicited with
  | cons id rest => rfl
  | nil => grind

theorem Valid.afterRefresh (hq : q.Valid) (hid : e.id ∈ q.order) :
    ((q.detachQueue e.id).attachQueue e now).Valid ∧
      ((q.detachQueue e.id).attachQueue e now).order.Perm q.order := by
  obtain ⟨info, hinfo⟩ := hq.exists_infoOf hid
  have hdetached := hq.order_detachQueue hinfo
  have hnot : e.id ∉ (q.detachQueue e.id).order := by
    rw [hdetached]
    simp
  refine ⟨(hq.detachQueue hinfo).attachQueue hnot, perm_order_attachQueue.trans ?_⟩
  rw [hdetached, ← hq.nodup_order.erase_eq_filter]
  exact (perm_cons_erase hid).symm

end PriorityFifo

/-- `PriorityFifoPolicy`. -/
def priorityFifo : CsPolicy PriorityFifo where
  attach := PriorityFifo.attachQueue
  afterRefresh q e now := (q.detachQueue e.id).attachQueue e now
  beforeErase := PriorityFifo.detachQueue
  beforeUse q _ := q
  evictOne := PriorityFifo.evictOne
  order := PriorityFifo.order
  Valid := PriorityFifo.Valid
  nodup_order h := h.nodup_order
  attach_spec _ h hid := ⟨h.attachQueue hid, PriorityFifo.perm_order_attachQueue⟩
  afterRefresh_spec _ h hid := h.afterRefresh hid
  beforeUse_spec h _ := ⟨h, .refl _⟩
  beforeErase_spec h hid := by
    obtain ⟨info, hinfo⟩ := h.exists_infoOf hid
    exact ⟨h.detachQueue hinfo, h.order_detachQueue hinfo⟩
  evictOne_eq {q} _ := q.evictOne_eq

namespace PriorityFifo

/-! ### Moving to the stale queue -/

variable {q : PriorityFifo} {ev : MoveEvent}

theorem queues_fire (type : QueueType) :
    (q.fire ev).queues type = match type with
      | .unsolicited => q.queues .unsolicited
      | .stale => q.queues .stale ++ [ev.entry]
      | .fifo => (q.queues .fifo).filter (· != ev.entry) := by
  cases type with
  | unsolicited => rfl
  | stale => rfl
  | fifo => rfl

theorem infoOf_fire (j : Nat) :
    (q.fire ev).infoOf j = (q.infoOf j).map fun info =>
      if j = ev.entry then { info with queueType := .stale } else info :=
  lookup_mapValues (fun k (info : EntryInfo) =>
    if k = ev.entry then { info with queueType := .stale } else info) q.entryInfoMap j

theorem Valid.mem_events_fire (hq : q.Valid) (hev : ev ∈ q.events) {ev' : MoveEvent} :
    ev' ∈ (q.fire ev).events ↔ ev' ∈ q.events ∧ ev'.entry ≠ ev.entry := by
  show ev' ∈ q.events.filter (·.eventId != ev.eventId) ↔ _
  rw [mem_filter, bne_iff_ne]
  refine and_congr_right fun hev' => not_congr ?_
  constructor
  · intro h
    rw [hq.eq_of_eventId hev' hev h]
  · intro h
    rw [hq.eq_of_entry hev' hev h]

theorem Valid.notMem_of_ne_fifo (hq : q.Valid) (hev : ev ∈ q.events) {type : QueueType}
    (htype : type ≠ .fifo) : ev.entry ∉ q.queues type := by
  obtain ⟨own, hown, hfifo, -⟩ := hq.owner ev hev
  exact fun h => htype ((hq.eq_queueType hown h).trans hfifo)

theorem Valid.fire (hq : q.Valid) (hev : ev ∈ q.events) : (q.fire ev).Valid := by
  obtain ⟨own, hown, hfifo, -⟩ := hq.owner ev hev
  have hnot : ∀ type, type ≠ .fifo → ev.entry ∉ q.queues type := fun _ => hq.notMem_of_ne_fifo hev
  refine ⟨fun type => ?_, fun type j => ?_, ?_, ?_, ?_, ?_⟩
  · grind [queues_fire, nodup]
  · rw [queues_fire, infoOf_fire]
    by_cases hj : j = ev.entry
    · subst hj
      have hthere := hnot type
      cases type with
      | unsolicited => simpa [hown] using hthere (by decide)
      | stale => simp [hown]
      | fifo => simp [hown]
    · have hother := hq.mem_iff type j
      cases type with
      | unsolicited => simpa [hj] using hother
      | stale => simpa [hj] using hother
      | fifo => simpa [hj] using hother
  · intro j info hinfo htype
    rw [infoOf_fire] at hinfo
    obtain ⟨info', hinfo', rfl⟩ := map_eq_some_iff.1 hinfo
    by_cases hj : j = ev.entry
    · simp [hj] at htype
    · grind [pending, mem_events_fire]
  · simp_all [mem_events_fire, owner, infoOf_fire]
  · exact hq.eventIds.sublist (filter_sublist.map _)
  · intro ev' hev'
    exact hq.past ev' ((hq.mem_events_fire hev).1 hev').1

theorem Valid.perm_order_fire (hq : q.Valid) (hev : ev ∈ q.events) :
    (q.fire ev).order.Perm q.order := by
  obtain ⟨own, hown, hfifo, -⟩ := hq.owner ev hev
  have hmem : ev.entry ∈ q.queues .fifo := hfifo ▸ hq.mem_queue hown
  show (q.queues .unsolicited ++ (q.queues .stale ++ [ev.entry]) ++
    (q.queues .fifo).filter (· != ev.entry)).Perm _
  rw [order, ← (hq.nodup .fifo).erase_eq_filter, ← append_assoc, append_assoc _ [ev.entry]]
  exact (perm_cons_erase hmem).symm.append_left _

/-! ## Where an entry is -/

/-- The entry may be in the queue the map names: unsolicited with the flag; otherwise FIFO while its
    event is scheduled for the time it is fresh until, and stale from then on. -/
def Suits (q : PriorityFifo) (now : Int) (e : CsEntry) : QueueType → Prop
  | .unsolicited => e.isUnsolicited = true
  | .stale => e.isUnsolicited = false ∧ e.freshUntil ≤ now
  | .fifo => e.isUnsolicited = false ∧ ∃ ev ∈ q.events, ev.entry = e.id ∧ ev.due = e.freshUntil

/-- The entry is where it should be. -/
def Placed (q : PriorityFifo) (now : Int) (e : CsEntry) : Prop :=
  ∃ info, q.infoOf e.id = some info ∧ q.Suits now e info.queueType

variable {q' : PriorityFifo} {e e' : CsEntry} {now now' : Int}

theorem Placed.congr (h : q.Placed now e) (hinfo : q'.infoOf e.id = q.infoOf e.id)
    (hevents : ∀ ev ∈ q.events, ev.entry = e.id → ev ∈ q'.events) : q'.Placed now e := by
  obtain ⟨info, hinfo', hsuits⟩ := h
  refine ⟨info, hinfo.trans hinfo', ?_⟩
  revert hsuits
  cases info.queueType with
  | unsolicited => exact id
  | stale => exact id
  | fifo =>
    rintro ⟨hflag, ev, hev, hentry, hdue⟩
    exact ⟨hflag, ev, hevents ev hev hentry, hentry, hdue⟩

theorem Placed.later (h : q.Placed now e) (hle : now ≤ now') : q.Placed now' e := by
  obtain ⟨info, hinfo, hsuits⟩ := h
  refine ⟨info, hinfo, ?_⟩
  revert hsuits
  cases info.queueType with
  | unsolicited => exact id
  | stale => exact fun hsuits => ⟨hsuits.1, hsuits.2.trans hle⟩
  | fifo => exact id

theorem infoOf_attachQueue_of_ne {j : Nat} (hj : j ≠ e.id) :
    (q.attachQueue e now).infoOf j = q.infoOf j := by
  unfold attachQueue
  cases queueFor e now with
  | unsolicited | stale => rw [infoOf_place, if_neg hj]
  | fifo =>
    rw [infoOf_place, if_neg hj]
    rfl

theorem events_subset_attachQueue : q.events ⊆ (q.attachQueue e now).events := by
  unfold attachQueue
  cases queueFor e now with
  | unsolicited | stale => exact Subset.refl _
  | fifo => exact subset_cons_self _ _

theorem Placed.attachQueue (h : q.Placed now e') (hne : e'.id ≠ e.id) :
    (q.attachQueue e now).Placed now e' :=
  h.congr (infoOf_attachQueue_of_ne hne) fun _ hev _ => events_subset_attachQueue hev

theorem placed_attachQueue (hfresh : e.freshUntil = Cs.freshUntil e.data now) :
    (q.attachQueue e now).Placed now e := by
  unfold PriorityFifo.attachQueue queueFor
  by_cases hflag : e.isUnsolicited = true
  · rw [if_pos hflag]
    exact ⟨⟨.unsolicited, none⟩, by rw [infoOf_place, if_pos rfl], hflag⟩
  · have hflag' : e.isUnsolicited = false := by simpa using hflag
    rw [if_neg hflag]
    by_cases hisFresh : e.isFresh now = true
    · rw [if_neg (by simp [hisFresh])]
      exact ⟨⟨.fifo, some q.nextEventId⟩, by rw [infoOf_place, if_pos rfl], hflag', _,
        (.head _), rfl, hfresh.symm⟩
    · rw [if_pos (by simpa using hisFresh)]
      have hlt : e.freshUntil < now := by simpa [CsEntry.isFresh] using hisFresh
      exact ⟨⟨.stale, none⟩, by rw [infoOf_place, if_pos rfl], hflag', hlt.le⟩

theorem Valid.placed_detachQueue (hq : q.Valid) {id : Nat} (hid : id ∈ q.order) (h : q.Placed now e)
    (hne : e.id ≠ id) : (q.detachQueue id).Placed now e := by
  obtain ⟨info, hinfo⟩ := hq.exists_infoOf hid
  refine h.congr (by rw [infoOf_detachQueue hinfo, if_neg hne]) fun ev hev hentry => ?_
  exact (hq.mem_events_detachQueue hinfo).2 ⟨hev, by rwa [hentry]⟩

theorem Valid.placed_fire (hq : q.Valid) (hev : ev ∈ q.events) (hdue : ev.due ≤ now)
    (h : q.Placed now e) : (q.fire ev).Placed now e := by
  by_cases hentry : e.id = ev.entry
  · obtain ⟨info, hinfo, hsuits⟩ := h
    obtain ⟨own, hown, hfifo, -⟩ := hq.owner ev hev
    rw [hentry, hown] at hinfo
    obtain rfl := some.inj hinfo
    rw [hfifo] at hsuits
    obtain ⟨hflag, ev', hev', hentry', hdue'⟩ := hsuits
    obtain rfl := hq.eq_of_entry hev' hev (hentry'.trans hentry)
    refine ⟨{ own with queueType := .stale }, ?_, hflag, hdue' ▸ hdue⟩
    rw [infoOf_fire, hentry, hown, map_some, if_pos rfl]
  · refine h.congr ?_ fun ev' hev' hentry' => ?_
    · rw [infoOf_fire]
      simp [hentry]
    · exact (hq.mem_events_fire hev).2 ⟨hev', by rwa [hentry']⟩

/-! ## Which entry goes first -/

def rank : QueueType → Nat
  | .unsolicited => 0
  | .stale => 1
  | .fifo => 2

/-- The first entry is in an earlier queue than the second, or came to the same one before it. -/
def GoesBefore (q : PriorityFifo) (stamp : Nat → Nat) (a b : Nat) : Prop :=
  ∃ type type', a ∈ q.queues type ∧ b ∈ q.queues type' ∧
    (rank type < rank type' ∨ type = type' ∧ stamp a < stamp b)

theorem pairwise_order {stamp : Nat → Nat} {clock : Nat}
    (h : ∀ type, Stamped stamp clock (q.queues type)) : q.order.Pairwise (q.GoesBefore stamp) := by
  have hsame : ∀ type, (q.queues type).Pairwise (q.GoesBefore stamp) := by
    intro type
    refine (h type).inOrder.imp_of_mem fun {a b} ha hb hlt => ?_
    exact ⟨type, type, ha, hb, Or.inr ⟨rfl, hlt⟩⟩
  have hother : ∀ {type type'}, rank type < rank type' →
      ∀ a ∈ q.queues type, ∀ b ∈ q.queues type', q.GoesBefore stamp a b := by
    intro type type' hlt a ha b hb
    exact ⟨type, type', ha, hb, Or.inl hlt⟩
  refine pairwise_append.2 ⟨pairwise_append.2
    ⟨hsame _, hsame _, hother (by decide)⟩, hsame _, fun a ha => ?_⟩
  rcases mem_append.1 ha with ha | ha
  · exact hother (by decide) a ha
  · exact hother (by decide) a ha

end PriorityFifo

/-! ## Runs -/

/-- A store under the policy, the time, and when each entry came to the queue it is in. -/
structure Aging where
  store : Store PriorityFifo
  now : Int
  /-- The number of events so far. -/
  clock : Nat
  /-- The event that last put an entry into a queue. -/
  stamp : Nat → Nat

namespace Aging

inductive Event where
  | op (op : CsOp)
  | tick (nanoseconds : Nat)
  /-- The scheduler runs the event with this identity. -/
  | run (eventId : Nat)

variable (sha256 : List UInt8 → List UInt8)

def init (limit : Nat) (shouldAdmit shouldServe : Bool) (now : Int) : Aging :=
  ⟨.init .empty limit shouldAdmit shouldServe, now, 0, fun _ => 0⟩

/-- The entry an operation attaches to a queue. -/
def attached (s : Store PriorityFifo) : CsOp → Option Nat
  | .insert d _ => s.insertedAs sha256 d
  | _ => none

def stampAfter (t : Aging) (op : CsOp) : Nat → Nat :=
  match attached sha256 t.store op with
  | some id => Function.update t.stamp id t.clock
  | none => t.stamp

/-- An operation reads the clock once, where the source reads it for `updateFreshUntil`, for
    `isFresh` and for the event that it schedules. -/
def step (t : Aging) : Event → Option Aging
  | .op op => do
      let store ← t.store.step sha256 priorityFifo t.now op
      return { t with store, clock := t.clock + 1, stamp := t.stampAfter sha256 op }
  | .tick nanoseconds => some { t with now := t.now + nanoseconds, clock := t.clock + 1 }
  | .run eventId => do
      let ev ← t.store.policy.events.find? (·.eventId == eventId)
      -- the scheduler runs an event when its time has come
      if ev.due ≤ t.now then
        return { t with
          store := { t.store with policy := t.store.policy.fire ev }
          clock := t.clock + 1
          stamp := Function.update t.stamp ev.entry t.clock }
      else none

/-- Every entry is where it should be, and every queue is in the order its entries came to it. -/
structure Settled (s : Store PriorityFifo) (now : Int) (stamp : Nat → Nat) (clock : Nat) :
    Prop where
  placed : ∀ e ∈ s.table, s.policy.Placed now e
  stamped : ∀ type, Stamped stamp clock (s.policy.queues type)

variable {s : Store PriorityFifo} {now : Int} {stamp : Nat → Nat} {clock : Nat}

theorem Settled.later (h : Settled s now stamp clock) : Settled s now stamp (clock + 1) :=
  ⟨h.placed, fun type => (h.stamped type).later⟩

theorem stamped_attachQueue {q : PriorityFifo} {e : CsEntry} (hid : e.id ∉ q.order)
    (h : ∀ type, Stamped stamp clock (q.queues type)) (type : QueueType) :
    Stamped (update stamp e.id clock) (clock + 1) ((q.attachQueue e now).queues type) := by
  have hnot : e.id ∉ q.queues type := fun hmem => hid (PriorityFifo.mem_order.2 ⟨type, hmem⟩)
  rw [PriorityFifo.queues_attachQueue]
  split
  · exact (h type).pushBack hnot
  · exact ((h type).update_of_notMem hnot).later

theorem Settled.drop (h : Settled s now stamp clock) (hs : s.Mirrored priorityFifo)
    {ids : List Nat} (hknown : s.Known priorityFifo ids) :
    Settled (s.drop priorityFifo ids) now stamp clock := by
  refine (hs.drop_induction (P := fun s => Settled s now stamp clock) ?_ hknown h).2
  intro s id hs hid h
  have hvalid : s.policy.Valid := hs.valid
  obtain ⟨info, hinfo⟩ := hvalid.exists_infoOf hid
  refine ⟨fun e he => ?_, fun type => ?_⟩
  · rw [s.table_drop_one, mem_filter, bne_iff_ne] at he
    exact hvalid.placed_detachQueue hid (h.placed e he.1) he.2
  · show Stamped stamp clock ((s.policy.detachQueue id).queues type)
    rw [hvalid.queues_detachQueue hinfo]
    exact (h.stamped type).sublist filter_sublist

variable {sha256} in
section

variable (h : Settled s now stamp clock) (hs : s.Mirrored priorityFifo)
include h hs

theorem Settled.emplace (d : Data) (isUnsolicited : Bool) :
    Settled (s.emplace sha256 priorityFifo d isUnsolicited now) now
      (update stamp s.nextId clock) (clock + 1) := by
  refine ⟨fun e he => ?_, stamped_attachQueue (e := s.newEntry d isUnsolicited now)
    hs.notMem_order_nextId h.stamped⟩
  have hperm := Cs.perm_insertSorted sha256 (s.newEntry d isUnsolicited now) s.table
  rcases mem_cons.1 (hperm.mem_iff.1 he) with rfl | he
  · exact PriorityFifo.placed_attachQueue rfl
  · exact (h.placed e he).attachQueue (Nat.ne_of_lt (hs.older e he))

theorem Settled.refresh {old : CsEntry} (hold : old ∈ s.table) (isUnsolicited : Bool) :
    Settled (s.refresh priorityFifo old isUnsolicited now) now
      (update stamp old.id clock) (clock + 1) := by
  have hvalid : s.policy.Valid := hs.valid
  have hid : old.id ∈ s.policy.order := hs.mem_order_iff.2 ⟨old, hold, rfl⟩
  obtain ⟨info, hinfo⟩ := hvalid.exists_infoOf hid
  refine ⟨fun e he => ?_, stamped_attachQueue (e := Store.refreshed isUnsolicited now old) ?_ ?_⟩
  · obtain ⟨e', he', rfl⟩ := mem_map.1 he
    by_cases heq : e'.id = old.id
    · obtain rfl := hs.eq_of_id he' hold heq
      rw [if_pos rfl]
      exact PriorityFifo.placed_attachQueue rfl
    · rw [if_neg heq]
      exact (hvalid.placed_detachQueue hid (h.placed e' he') heq).attachQueue heq
  · show old.id ∉ (s.policy.detachQueue old.id).order
    rw [hvalid.order_detachQueue hinfo]
    simp
  · intro type
    show Stamped stamp clock ((s.policy.detachQueue old.id).queues type)
    rw [hvalid.queues_detachQueue hinfo]
    exact (h.stamped type).sublist filter_sublist

theorem Settled.fire {ev : MoveEvent} (hev : ev ∈ s.policy.events) (hdue : ev.due ≤ now) :
    Settled { s with policy := s.policy.fire ev } now (update stamp ev.entry clock)
      (clock + 1) := by
  have hvalid : s.policy.Valid := hs.valid
  refine ⟨fun e he => hvalid.placed_fire hev hdue (h.placed e he), fun type => ?_⟩
  cases type with
  | unsolicited =>
    exact ((h.stamped _).update_of_notMem (hvalid.notMem_of_ne_fifo hev (by decide))).later
  | stale => exact (h.stamped _).pushBack (hvalid.notMem_of_ne_fifo hev (by decide))
  | fifo =>
    exact (((h.stamped _).sublist filter_sublist).update_of_notMem (by simp)).later

end

structure Good (t : Aging) : Prop where
  mirrored : t.store.Mirrored priorityFifo
  size : t.store.table.length ≤ t.store.limit
  settled : Settled t.store t.now t.stamp t.clock

theorem good_init (limit : Nat) (shouldAdmit shouldServe : Bool) (now : Int) :
    (init limit shouldAdmit shouldServe now).Good :=
  ⟨⟨PriorityFifo.valid_empty, .refl _, by simp [init, Store.init]⟩, Nat.zero_le _,
    ⟨by simp [init, Store.init],
      fun _ => ⟨Pairwise.nil, by simp [init, Store.init, PriorityFifo.empty]⟩⟩⟩

variable {sha256} {t t' : Aging} {op : CsOp}

theorem stampAfter_of_attached {id : Nat} (h : attached sha256 t.store op = some id) :
    t.stampAfter sha256 op = update t.stamp id t.clock := by
  rw [stampAfter, h]

theorem stampAfter_of_unattached (h : attached sha256 t.store op = none) :
    t.stampAfter sha256 op = t.stamp := by
  rw [stampAfter, h]

theorem Good.settled_emplace (ht : t.Good) {d : Data} {isUnsolicited : Bool}
    (hadmits : t.store.admits d = true) (hstored : t.store.stored sha256 d = none) :
    Settled (t.store.emplace sha256 priorityFifo d isUnsolicited t.now) t.now
      (t.stampAfter sha256 (.insert d isUnsolicited)) (t.clock + 1) := by
  have hattached : attached sha256 t.store (.insert d isUnsolicited) = some t.store.nextId := by
    simp [attached, Store.insertedAs, hadmits, hstored]
  rw [stampAfter_of_attached hattached]
  exact ht.settled.emplace ht.mirrored d isUnsolicited

theorem Good.settled_effect (ht : t.Good) {store : Store PriorityFifo}
    (h : t.store.Effect sha256 priorityFifo t.now op store) :
    Settled store t.now (t.stampAfter sha256 op) (t.clock + 1) := by
  cases h with
  | reject hadmits =>
    rw [stampAfter_of_unattached (by simp [attached, Store.insertedAs, hadmits])]
    exact ht.settled.later
  | @refresh d isUnsolicited old hadmits hstored =>
    have hattached : attached sha256 t.store (.insert d isUnsolicited) = some old.id := by
      simp [attached, Store.insertedAs, hadmits, hstored]
    rw [stampAfter_of_attached hattached]
    exact ht.settled.refresh ht.mirrored (mem_of_stored hstored) isUnsolicited
  | emplace hadmits hstored hknown _ =>
    exact (ht.settled_emplace hadmits hstored).drop (ht.mirrored.emplace _ _ t.now) hknown
  | miss =>
    exact ht.settled.later
  | use =>
    exact ⟨ht.settled.placed, ht.settled.later.stamped⟩
  | erase hknown =>
    exact ht.settled.later.drop ht.mirrored hknown
  | @setLimit limit ids hknown _ =>
    have hlater : Settled { t.store with limit } t.now t.stamp (t.clock + 1) :=
      ⟨ht.settled.placed, ht.settled.later.stamped⟩
    exact hlater.drop (ht.mirrored.setLimit limit) ⟨hknown.nodup, hknown.mem_order⟩

theorem step_op_eq_some (h : t.step sha256 (.op op) = some t') :
    ∃ store, t.store.step sha256 priorityFifo t.now op = some store ∧
      t' = { t with store, clock := t.clock + 1, stamp := t.stampAfter sha256 op } := by
  obtain ⟨store, hstore, h⟩ := bind_eq_some_iff.1 h
  exact ⟨store, hstore, (some.inj h).symm⟩

/-- **One event**, be it an operation, the clock or the scheduler. -/
theorem Good.step {e : Event} (ht : t.Good) (h : t.step sha256 e = some t') : t'.Good := by
  cases e with
  | op op =>
    obtain ⟨store, hstore, rfl⟩ := step_op_eq_some h
    have heffect := step_effect ht.mirrored hstore
    exact ⟨ht.mirrored.effect heffect, heffect.length_le ht.size, ht.settled_effect heffect⟩
  | tick nanoseconds =>
    obtain rfl := some.inj h
    refine ⟨ht.mirrored, ht.size, fun e he => ?_, ht.settled.later.stamped⟩
    exact (ht.settled.placed e he).later (by show t.now ≤ t.now + nanoseconds; omega)
  | run eventId =>
    obtain ⟨ev, hfind, h⟩ := bind_eq_some_iff.1 h
    have hev := mem_of_find?_eq_some hfind
    have hvalid : t.store.policy.Valid := ht.mirrored.valid
    obtain ⟨hdue, rfl⟩ := ite_some_none_eq_some.1 h
    refine ⟨⟨hvalid.fire hev, ?_, ht.mirrored.older⟩, ht.size, ht.settled.fire ht.mirrored hev hdue⟩
    exact (hvalid.perm_order_fire hev).trans ht.mirrored.mirrors

/-- **An eviction** takes the entry that came first to the first queue that is not empty. -/
theorem Good.step_evicts (ht : t.Good) (h : t.step sha256 (.op op) = some t')
    {mid : Store PriorityFifo}
    (hmid : t.store.evictsFrom sha256 priorityFifo t.now op = some mid) :
    Evicts t'.store.limit (fun a b => mid.policy.GoesBefore t'.stamp a.id b.id) mid.table
      t'.store.table := by
  obtain ⟨store, hstore, rfl⟩ := step_op_eq_some h
  cases step_effect ht.mirrored hstore with
  | reject hadmits => simp [Store.evictsFrom, hadmits] at hmid
  | refresh hadmits hstored => simp [Store.evictsFrom, hadmits, hstored] at hmid
  | emplace hadmits hstored _ hevicts =>
    simp only [Store.evictsFrom, hadmits, hstored, isNone_none, Bool.and_self, if_true,
      some.injEq] at hmid
    rw [← hmid]
    exact hevicts _ (PriorityFifo.pairwise_order (ht.settled_emplace hadmits hstored).stamped)
  | miss | use | erase => cases hmid
  | setLimit _ hevicts =>
    obtain rfl := some.inj hmid
    exact hevicts _ (PriorityFifo.pairwise_order ht.settled.stamped)

/-! ## Every state reached -/

/-- Each entry is in exactly one queue, the queues hold nothing else, and the events scheduled are
    those of the FIFO queue, one each. -/
structure Classified (s : Store PriorityFifo) (now : Int) : Prop where
  one_queue : ∀ e ∈ s.table, ∃ type, (s.policy.queues type).count e.id = 1 ∧
    ∀ other, other ≠ type → e.id ∉ s.policy.queues other
  only_entries : ∀ type, ∀ id ∈ s.policy.queues type, ∃ e ∈ s.table, e.id = id
  unsolicited : ∀ e ∈ s.table, e.id ∈ s.policy.queues .unsolicited ↔ e.isUnsolicited = true
  /-- Before the time it is fresh until. -/
  fifo : ∀ e ∈ s.table, e.isUnsolicited = false → now < e.freshUntil → e.id ∈ s.policy.queues .fifo
  /-- After that time, when its event has run. -/
  stale : ∀ e ∈ s.table, e.isUnsolicited = false → e.freshUntil < now →
    (∀ ev ∈ s.policy.events, ev.entry = e.id → now ≤ ev.due) → e.id ∈ s.policy.queues .stale
  /-- The event of an entry is scheduled for the time it is fresh until. -/
  due : ∀ e ∈ s.table, ∀ ev ∈ s.policy.events, ev.entry = e.id → ev.due = e.freshUntil
  pending : ∀ id, id ∈ s.policy.queues .fifo ↔ ∃ ev ∈ s.policy.events, ev.entry = id
  once : (s.policy.events.map MoveEvent.entry).Nodup

theorem Good.classified (ht : t.Good) : Classified t.store t.now := by
  have hvalid : t.store.policy.Valid := ht.mirrored.valid
  -- an entry is in the queue the map names, and suits it
  have hsuits : ∀ e ∈ t.store.table, ∃ type, e.id ∈ t.store.policy.queues type ∧
      t.store.policy.Suits t.now e type := by
    intro e he
    obtain ⟨info, hinfo, hsuits⟩ := ht.settled.placed e he
    exact ⟨_, hvalid.mem_queue hinfo, hsuits⟩
  refine ⟨fun e he => ?_, fun type id hid => ?_, fun e he => ?_, fun e he hflag hlt => ?_,
    fun e he hflag hlt hrun => ?_, fun e he ev hev hentry => ?_, fun id => ?_, ?_⟩
  · obtain ⟨info, hinfo, -⟩ := ht.settled.placed e he
    refine ⟨info.queueType, ?_, fun other hne hmem => hne (hvalid.eq_queueType hinfo hmem)⟩
    exact count_eq_one_of_mem (hvalid.nodup _) (hvalid.mem_queue hinfo)
  · exact ht.mirrored.mem_order_iff.1 (PriorityFifo.mem_order.2 ⟨type, hid⟩)
  · constructor
    · intro hmem
      obtain ⟨info, hinfo, hthis⟩ := ht.settled.placed e he
      rw [← hvalid.eq_queueType hinfo hmem] at hthis
      exact hthis
    · intro hflag
      obtain ⟨type, hmem, hthis⟩ := hsuits e he
      cases type with
      | unsolicited => exact hmem
      | stale | fifo => exact absurd (hflag.symm.trans hthis.1) (by decide)
  · obtain ⟨type, hmem, hthis⟩ := hsuits e he
    cases type with
    | unsolicited => exact absurd (hflag.symm.trans hthis) (by decide)
    | stale => exact absurd hthis.2 (Int.not_le.2 hlt)
    | fifo => exact hmem
  · obtain ⟨type, hmem, hthis⟩ := hsuits e he
    cases type with
    | unsolicited => exact absurd (hflag.symm.trans hthis) (by decide)
    | stale => exact hmem
    | fifo =>
      obtain ⟨-, ev, hev, hentry, hdue⟩ := hthis
      have hle := hrun ev hev hentry
      rw [hdue] at hle
      exact absurd hle (Int.not_le.2 hlt)
  · -- the event belongs to the FIFO queue, where the entry has one for that time
    obtain ⟨info, hinfo, htype, -⟩ := hvalid.owner ev hev
    obtain ⟨info', hinfo', hthis⟩ := ht.settled.placed e he
    rw [hentry, hinfo'] at hinfo
    rw [some.inj hinfo, htype] at hthis
    obtain ⟨-, ev', hev', hentry', hdue⟩ := hthis
    rw [hvalid.eq_of_entry hev hev' (hentry.trans hentry'.symm)]
    exact hdue
  · constructor
    · intro hmem
      obtain ⟨info, hinfo, htype⟩ := (hvalid.mem_iff .fifo id).1 hmem
      obtain ⟨ev, hev, hentry, -⟩ := hvalid.pending id info hinfo htype
      exact ⟨ev, hev, hentry⟩
    · grind [PriorityFifo.Valid.owner, PriorityFifo.Valid.mem_queue]
  · refine Nodup.map_on (fun a ha b hb heq => hvalid.eq_of_entry ha hb heq) ?_
    exact Nodup.of_map _ hvalid.eventIds

/-- **The queues in every state reached**: each entry is in the one queue it belongs to, the table
    is not over its limit, and each eviction by the next operation takes the oldest entry of the
    first queue that is not empty. -/
theorem run_priorityFifo (limit : Nat) (shouldAdmit shouldServe : Bool) (start : Int)
    {es : List Event}
    (hrun : Run (step sha256) (fun _ _ => True) (init limit shouldAdmit shouldServe start) es t) :
    t.store.table.length ≤ t.store.limit ∧ Classified t.store t.now ∧
      ∀ op, t.store.runsPast sha256 op = false → ∃ t', t.step sha256 (.op op) = some t' ∧
        (∀ mid ∈ t.store.evictsFrom sha256 priorityFifo t.now op,
          Evicts t'.store.limit (fun a b => mid.policy.GoesBefore t'.stamp a.id b.id) mid.table
            t'.store.table) ∧
        (t.store.evictsFrom sha256 priorityFifo t.now op = none →
          (∀ name limit, op ≠ .erase name limit) →
          t'.store.table.map (·.id) = t.store.table.map (·.id)) := by
  have ht : t.Good :=
    hrun.invariant (fun s e s' hs _ hstep => hs.step hstep)
      (good_init limit shouldAdmit shouldServe start)
  refine ⟨ht.size, ht.classified, fun op hpast => ?_⟩
  obtain ⟨store, hstore⟩ := exists_step sha256 priorityFifo t.now hpast
  have hstep : t.step sha256 (.op op) = some
      { t with store, clock := t.clock + 1, stamp := t.stampAfter sha256 op } := by
    rw [step, hstore]
    rfl
  refine ⟨_, hstep, fun mid hmid => ht.step_evicts hstep hmid, fun hnone herase => ?_⟩
  exact (step_effect ht.mirrored hstore).map_id hnone herase

/-- A Data fresh for a millisecond is moved when the millisecond is over; it is fresh at that time
    by its own account. -/
theorem fresh_entry_in_stale_queue :
    Data.wireDecode (Sample.dataBlock 97) = .ok (Sample.data 97) ∧
      ∃ t, Run (step Sample.sha256) (fun _ _ => True) (init 10 true true 0)
          [.op (.insert (Sample.data 97) false), .tick 1000000, .run 0] t ∧
        ∃ e ∈ t.store.table, e.isUnsolicited = false ∧ e.isFresh t.now = true ∧
          e.id ∈ t.store.policy.queues .stale := by
  exact ⟨rfl, Run.exists_of_decide _ (by decide) fun _ _ ht => ht⟩

/-- An unsolicited `/c` comes to a store for two in which `/a` is stale, and is evicted at once. -/
theorem run_priorityFifo_three :
    ∃ t, Run (step Sample.sha256) (fun _ _ => True) (init 2 true true 0)
        [.op (.insert (Sample.data 97) false), .tick 2000000, .run 0,
          .op (.insert (Sample.data 98) false), .op (.insert (Sample.data 99) true)] t ∧
      t.store.table.length ≤ t.store.limit ∧ Classified t.store t.now ∧
      t.store.policy.order = [0, 1] := by
  refine Run.exists_of_decide (·.store.policy.order = [0, 1]) (by decide) fun t hrun htest => ?_
  obtain ⟨hsize, hclassified, -⟩ := run_priorityFifo 2 true true 0 hrun
  exact ⟨hsize, hclassified, htest⟩

end Aging

end NdnMulticast.Nfd
