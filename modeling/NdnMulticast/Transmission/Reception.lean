/-
  What the consumer makes of the packets of an honest producer: Data that satisfies the
  `/File` Interest carries the number of segments, Data that satisfies the Interest for a
  segment carries this segment (`Honest`).
-/

import NdnMulticast.Transmission.FileClient

namespace NdnMulticast.Transmission

open Lib Ndn Nfd List Option Bool Client

/-- What the consumer may rely on in a Data. -/
structure Honest (sha256 : List UInt8 → List UInt8) (altUri : Bool) (r : Request) (count : Int)
    (file : List UInt8) (d : Data) : Prop where
  count : (expressed r.name).matchesData sha256 d = true → State.segmentCount d = .ok count
  bytes : ∀ k : Int, (expressed (r.segmentName altUri k)).matchesData sha256 d = true →
    readSegment file k = .ok (contentOf d)

/-- A packet that is a Nack, or honest Data. -/
def Packet.Honest (sha256 : List UInt8 → List UInt8) (altUri : Bool) (r : Request) (count : Int)
    (file : List UInt8) : Packet → Prop
  | .data wire => ∃ d, (Block.fromBuffer wire).bind Data.wireDecode = .ok d ∧
      Transmission.Honest sha256 altUri r count file d
  | .nack _ => True

variable (r : Request) (altUri : Bool) (count : Int)

def Request.fileEntry : PendingInterest :=
  ⟨expressed r.name, .onFile ((r.name.getSubName 1 1).toUri altUri)⟩

/-- The record of a segment in the pending Interest table. -/
def Request.segmentEntry (segment : Int) : PendingInterest :=
  ⟨expressed (r.segmentName altUri segment),
    if segment = count - 1 then .onLastSegment segment else .onSegment segment⟩

/-- The Interests `onFile` expresses, in its order. -/
def Request.segmentEntries : List PendingInterest :=
  (List.range (count - 1).toNat).map (fun k : Nat => r.segmentEntry altUri count k) ++
    [r.segmentEntry altUri count (count - 1)]

/-- The memory `onFile` allocates. -/
def freshMemory : Memory :=
  ⟨List.replicate (count * maxSegmentSize).toNat none, none, count - 1⟩

section

variable {sha256 : List UInt8 → List UInt8} {altUri : Bool} {r : Request} {count : Int}
  {file : List UInt8}

/-! ## Packets that concern nobody -/

variable {c : Client} {p : Packet} {ps : List Packet} {d : Data} {evs : List Event} {k : Int}
  {bytes : List UInt8}

theorem onReceiveElement_frame (hp : p.Honest sha256 altUri r count file)
    (hpending : ∀ e ∈ c.pending, p.concerns sha256 e.interest = false) :
    c.onReceiveElement sha256 p = .ok c := by
  cases p with
  | data wire =>
    obtain ⟨d, hdecode, -⟩ := hp
    simp only [Packet.concerns, hdecode] at hpending
    have hhits : (c.pending.filter fun e => e.interest.matchesData sha256 d) = [] := by
      rw [filter_eq_nil_iff]
      intro e he
      rw [hpending e he]
      exact false_ne_true
    have hrest : (c.pending.filter fun e => !e.interest.matchesData sha256 d) = c.pending := by
      rw [filter_eq_self]
      intro e he
      rw [hpending e he]
      rfl
    simp only [onReceiveElement, hdecode, satisfyPendingInterests, hhits, hrest]
    rfl
  | nack i =>
    have hrest : (c.pending.filter fun e => !i.matchesInterest e.interest) = c.pending := by
      rw [filter_eq_self]
      intro e he
      rw [show i.matchesInterest e.interest = false from hpending e he]
      rfl
    simp only [onReceiveElement, hrest]

theorem foldlM_onReceiveElement_frame (hps : ∀ p ∈ ps, p.Honest sha256 altUri r count file)
    (hpending : ∀ e ∈ c.pending, ∀ p ∈ ps, p.concerns sha256 e.interest = false) :
    ps.foldlM (onReceiveElement sha256) c = .ok c := by
  induction ps with
  | nil => rfl
  | cons p ps ih =>
    rw [foldlM_cons, onReceiveElement_frame (hps p (.head _)) fun e he => hpending e he p (.head _)]
    exact ih (fun q hq => hps q (.tail _ hq)) fun e he q hq => hpending e he q (.tail _ hq)

/-! ## The reply -/

theorem expressSegment_eq (segment : Int) (callback : Callback) :
    expressSegment ((r.name.getSubName 1 1).toUri altUri) segment callback =
      .ok ⟨expressed (r.segmentName altUri segment), callback⟩ := by
  have hname := (fromUri_segmentUri_subName altUri r.name segment (r.segmentName altUri segment)).2
    ⟨r.file, r.file_eq, r.valid, rfl⟩
  rw [expressSegment, hname]
  rfl

/-- **The reply** makes the consumer allocate its memory and express its Interests. -/
theorem onFile_eq (hd : State.segmentCount d = .ok count) (hcount : isInt (count - 1) = true)
    (c : Client) :
    c.onFile ((r.name.getSubName 1 1).toUri altUri) d =
      .ok { c with
        posted := c.posted ++ r.segmentEntries altUri count
        memory := some (freshMemory count) } := by
  have hothers : (range (count - 1).toNat).mapM (fun k : Nat =>
        expressSegment ((r.name.getSubName 1 1).toUri altUri) k (.onSegment k)) =
      .ok ((range (count - 1).toNat).map fun k : Nat => r.segmentEntry altUri count k) := by
    have hpure : (fun k : Nat =>
          expressSegment ((r.name.getSubName 1 1).toUri altUri) k (.onSegment k)) =
        fun k : Nat =>
          (pure ⟨expressed (r.segmentName altUri k), .onSegment k⟩ :
            Except Fault PendingInterest) :=
      funext fun k => expressSegment_eq (k : Int) (.onSegment k)
    rw [hpure, mapM_pure]
    refine congrArg Except.ok (map_congr_left fun k hk => ?_)
    have hlt : (k : Int) ≠ count - 1 := by
      have := mem_range.1 hk
      omega
    rw [Request.segmentEntry, if_neg hlt]
  have hlast : expressSegment ((r.name.getSubName 1 1).toUri altUri) (count - 1)
      (.onLastSegment (count - 1)) = .ok (r.segmentEntry altUri count (count - 1)) := by
    rw [expressSegment_eq, Request.segmentEntry, if_pos rfl]
  rw [onFile, hd]
  simp only [bind, Except.bind, hcount, true_eq_false, if_false, hlast]
  rw [hothers]
  rfl

theorem onReceiveElement_file (hp : p.Honest sha256 altUri r count file)
    (hcount : isInt (count - 1) = true) (hconcerns : p.concerns sha256 (expressed r.name) = true)
    (memory : Option Memory) :
    onReceiveElement sha256 ⟨[r.fileEntry altUri], [], memory⟩ p =
      .ok (if p.isData then ⟨[], r.segmentEntries altUri count, some (freshMemory count)⟩
        else ⟨[], [], memory⟩) := by
  cases p with
  | data wire =>
    obtain ⟨d, hdecode, hd⟩ := hp
    simp only [Packet.concerns, hdecode] at hconcerns
    simp only [onReceiveElement, hdecode, satisfyPendingInterests,
      Request.fileEntry, filter_cons, filter_nil, hconcerns, if_true, Bool.not_true,
      Bool.false_eq_true, if_false, foldlM_cons, foldlM_nil, invokeDataCallback,
      onFile_eq (hd.count hconcerns) hcount]
    rfl
  | nack i =>
    have hmatch : i.matchesInterest (expressed r.name) = true := hconcerns
    simp only [onReceiveElement, Request.fileEntry, filter_cons, hmatch]
    rfl

theorem foldlM_onReceiveElement_file (hps : ∀ p ∈ ps, p.Honest sha256 altUri r count file)
    (hcount : isInt (count - 1) = true) (memory : Option Memory) :
    ps.foldlM (onReceiveElement sha256) ⟨[r.fileEntry altUri], [], memory⟩ =
      .ok (match ps.find? (Packet.concerns sha256 (expressed r.name)) with
        | none => ⟨[r.fileEntry altUri], [], memory⟩
        | some p =>
          if p.isData then ⟨[], r.segmentEntries altUri count, some (freshMemory count)⟩
          else ⟨[], [], memory⟩) := by
  induction ps with
  | nil => rfl
  | cons p ps ih =>
    have htail : ∀ q ∈ ps, q.Honest sha256 altUri r count file := fun q hq => hps q (.tail _ hq)
    cases hconcerns : p.concerns sha256 (expressed r.name) with
    | false =>
      have hpending : ∀ e ∈ [r.fileEntry altUri], p.concerns sha256 e.interest = false := by
        intro e he
        rw [mem_singleton.1 he]
        exact hconcerns
      rw [foldlM_cons, onReceiveElement_frame (hps p (.head _)) hpending,
        find?_cons_of_neg (by rw [hconcerns]; exact false_ne_true)]
      exact ih htail
    | true =>
      rw [foldlM_cons, onReceiveElement_file (hps p (.head _)) hcount hconcerns,
        find?_cons_of_pos hconcerns]
      -- nothing is pending any more, so the rest of the read changes nothing
      generalize hc : (if p.isData then
        (⟨[], r.segmentEntries altUri count, some (freshMemory count)⟩ : Client)
        else ⟨[], [], memory⟩) = c
      have hidle : c.pending = [] := by
        rw [← hc]
        split
        · rfl
        · rfl
      have hrest := foldlM_onReceiveElement_frame (c := c) htail (by rw [hidle]; simp)
      simp only [hc]
      exact hrest

theorem processEvents_idle (hc : c.pending = []) (evs : List Event) :
    c.processEvents sha256 evs = .ok (some c) := by
  cases evs with
  | nil => rw [processEvents, if_pos hc]
  | cons ev evs => rw [processEvents, if_pos hc]

theorem handle_file {ev : Event} (hev : ∀ p ∈ ev.packets, p.Honest sha256 altUri r count file)
    (hcount : isInt (count - 1) = true) (memory : Option Memory) :
    handle sha256 ⟨[r.fileEntry altUri], [], memory⟩ ev =
      .ok (if ev.concerns sha256 (expressed r.name) then
        if ev.answers sha256 (expressed r.name) then
          ⟨r.segmentEntries altUri count, [], some (freshMemory count)⟩
        else ⟨[], [], memory⟩
      else ⟨[r.fileEntry altUri], [], memory⟩) := by
  cases ev with
  | receive ps =>
    have hps : ∀ p ∈ ps, p.Honest sha256 altUri r count file := hev
    rw [handle, foldlM_onReceiveElement_file hps hcount, Event.answers, Event.packets]
    cases hfind : ps.find? (Packet.concerns sha256 (expressed r.name)) with
    | none =>
      have hnot : Event.concerns sha256 (expressed r.name) (.receive ps) = false := by
        rw [Event.concerns, List.any_eq_false]
        exact find?_eq_none.1 hfind
      rw [hnot]
      rfl
    | some p =>
      have hyes : Event.concerns sha256 (expressed r.name) (.receive ps) = true := by
        rw [Event.concerns, List.any_eq_true]
        exact ⟨p, mem_of_find?_eq_some hfind, find?_some hfind⟩
      rw [hyes, if_pos rfl, any_some]
      dsimp only
      cases p.isData with
      | false => rfl
      | true => rfl
  | timeout name =>
    have hanswers : Event.answers sha256 (expressed r.name) (.timeout name) = false := rfl
    have hconcerns : Event.concerns sha256 (expressed r.name) (.timeout name)
        = (r.fileEntry altUri).interest.name.equals name := rfl
    rw [handle, hanswers, hconcerns]
    cases hname : (r.fileEntry altUri).interest.name.equals name with
    | false => simp_all
    | true =>
      simp only [eraseP_cons, hname]
      rfl

/-- **Until the reply comes nothing happens**, and when it comes the segments are requested. -/
theorem processEvents_file
    (hevs : ∀ ev ∈ evs, ∀ p ∈ ev.packets, p.Honest sha256 altUri r count file)
    (hcount : isInt (count - 1) = true) (memory : Option Memory) :
    (∃ rest, answer sha256 (expressed r.name) evs = some rest ∧
      processEvents sha256 evs ⟨[r.fileEntry altUri], [], memory⟩ =
        processEvents sha256 rest ⟨r.segmentEntries altUri count, [], some (freshMemory count)⟩) ∨
    (answer sha256 (expressed r.name) evs = none ∧
      (processEvents sha256 evs ⟨[r.fileEntry altUri], [], memory⟩ = .ok none ∨
        processEvents sha256 evs ⟨[r.fileEntry altUri], [], memory⟩ =
          .ok (some ⟨[], [], memory⟩))) := by
  induction evs with
  | nil => exact Or.inr ⟨rfl, Or.inl rfl⟩
  | cons ev evs ih =>
    have htail := ih fun ev' hev' => hevs ev' (.tail _ hev')
    have hne : ¬ (⟨[r.fileEntry altUri], [], memory⟩ : Client).pending = [] := cons_ne_nil _ _
    rw [processEvents, if_neg hne, handle_file (hevs ev (.head _)) hcount, answer]
    cases ev.concerns sha256 (expressed r.name) with
    | false => exact htail
    | true =>
      cases ev.answers sha256 (expressed r.name) with
      | true => exact Or.inl ⟨evs, rfl, rfl⟩
      | false =>
        have hidle : (⟨[], [], memory⟩ : Client).pending = [] := rfl
        exact Or.inr ⟨rfl, Or.inr (processEvents_idle hidle evs)⟩

/-! ## The segments -/

/-- The memory as the callbacks leave it. -/
structure Memory.Good (count : Int) (file : List UInt8) (m : Memory) : Prop where
  segment : m.segment = count - 1
  length : m.buffer.length = (count * maxSegmentSize).toNat
  lastSize : ∀ size, m.lastSize = some size →
    ∃ bytes, readSegment file (count - 1) = .ok bytes ∧ size = bytes.length

/-- A segment is in the buffer, and the size of the last one is known. -/
structure Memory.Stored (count : Int) (file : List UInt8) (m : Memory) (k : Nat) : Prop where
  cells : ∀ j < file.length, j / maxSegmentSize = k → Holds m.buffer file j
  size : (k : Int) = count - 1 → m.lastSize = some ((block maxSegmentSize k file).length : Int)

/-- The consumer waits for segments. -/
structure Receiving (altUri : Bool) (r : Request) (count : Int) (file : List UInt8) (c : Client) :
    Prop where
  posted : c.posted = []
  memory : ∃ m, c.memory = some m ∧ m.Good count file
  entries : ∀ e ∈ c.pending, ∃ k : Int, k < count ∧ (0 ≤ k ∨ k = count - 1) ∧
    e = r.segmentEntry altUri count k

/-- The consumer has a segment. -/
def Has (count : Int) (file : List UInt8) (c : Client) (k : Nat) : Prop :=
  ∃ m, c.memory = some m ∧ m.Stored count file k

/-- In a file that is too long, the index of a cell leaves the range of `int`. -/
def Overflow (file : List UInt8) (f : Fault) : Prop :=
  f = .undefinedBehavior ∧ 2 ^ 31 ≤ file.length

theorem store_spec {buffer : List (Option UInt8)}
    (hlength : buffer.length = (count * maxSegmentSize).toNat) (hk : k < count)
    (hbytes : readSegment file k = .ok bytes) :
    Ends (Overflow file)
      (fun buffer' => buffer'.length = buffer.length ∧ ∀ j < file.length,
        Holds buffer file j ∨ ((j / maxSegmentSize : Nat) : Int) = k → Holds buffer' file j)
      (store buffer k bytes) := by
  obtain ⟨hint, rfl⟩ := readSegment_eq_ok_iff.1 hbytes
  have hsize : maxSegmentSize = 8000 := rfl
  simp only [store, hint, true_eq_false, if_false]
  by_cases hneg : k < 0
  · -- nothing was read, and no cell belongs to a negative segment
    rw [if_pos hneg, if_pos rfl]
    refine ⟨rfl, fun j _ hj => hj.resolve_right fun hj => ?_⟩
    exact absurd (hj ▸ Int.natCast_nonneg _) (Int.not_le.2 hneg)
  obtain ⟨n, rfl⟩ := Int.eq_ofNat_of_zero_le (Int.not_lt.1 hneg)
  rw [if_neg hneg, Int.toNat_natCast]
  have hlen := length_block maxSegmentSize n file
  generalize hblock : block maxSegmentSize n file = bytes at hlen ⊢
  rw [hsize] at hlen
  by_cases hempty : bytes = []
  · rw [if_pos hempty]
    refine ⟨rfl, fun j hj hcell => hcell.resolve_right fun hn => ?_⟩
    -- a segment with a cell in the file is not empty
    rw [hempty, length_nil] at hlen
    rw [hsize] at hn
    omega
  · have hpos : 0 < bytes.length := length_pos_iff.2 hempty
    rw [if_neg hempty]
    by_cases hrange : (n : Int) * maxSegmentSize + bytes.length ≤ 2 ^ 31
    · have hroom : n * maxSegmentSize + bytes.length ≤ buffer.length := by
        rw [hsize] at hlength ⊢
        omega
      have htoNat : ((n : Int) * maxSegmentSize).toNat = n * maxSegmentSize := by
        omega
      rw [if_pos ⟨by rw [hsize]; omega, by exact_mod_cast hroom, hrange⟩, htoNat, ← hblock]
      rw [← hblock] at hroom
      refine ⟨length_writeAt _ _ _, fun j hj hcell => holds_writeAt_block hroom ?_⟩
      refine hcell.imp_right fun hn => ?_
      rw [hblock]
      rw [hsize] at hn ⊢
      omega
    · rw [if_neg fun h => hrange h.2.2]
      rw [hsize] at hrange
      exact ⟨rfl, by omega⟩

theorem readSegment_natCast {i : Nat} (h : readSegment file i = .ok bytes) :
    bytes = block maxSegmentSize i file := by
  obtain ⟨-, rfl⟩ := readSegment_eq_ok_iff.1 h
  rw [if_neg (by omega), Int.toNat_natCast]

theorem length_le_of_readSegment (h : readSegment file k = .ok bytes) : bytes.length ≤ 8000 := by
  obtain ⟨-, rfl⟩ := readSegment_eq_ok_iff.1 h
  split
  · exact Nat.zero_le _
  · rw [length_block]
    exact Nat.min_le_left _ _

/-- The consumer goes on receiving, has lost no segment and has got those in `new`. -/
structure Advances (altUri : Bool) (r : Request) (count : Int) (file : List UInt8)
    (new : Nat → Prop) (c c' : Client) : Prop where
  receiving : Receiving altUri r count file c'
  keeps : ∀ i, Has count file c i → Has count file c' i
  stores : ∀ i, new i → Has count file c' i

section

variable (hc : Receiving altUri r count file c)
include hc

theorem onSegment_spec (hk : k < count) (hlast : k ≠ count - 1)
    (hbytes : readSegment file k = .ok (contentOf d)) :
    Ends (Overflow file)
      (fun c' => c'.pending = c.pending ∧
        Advances altUri r count file (fun i => (i : Int) = k) c c')
      (c.onSegment k d) := by
  obtain ⟨m, hm, hgood⟩ := hc.memory
  rw [onSegment, hm]
  refine (store_spec hgood.length hk hbytes).bind fun buffer hbuffer => ?_
  obtain ⟨hlen, hcells⟩ := hbuffer
  refine ⟨rfl, ⟨hc.posted, ⟨_, rfl, hgood.segment, hlen.trans hgood.length, hgood.lastSize⟩,
    hc.entries⟩, ?_, ?_⟩
  · rintro i ⟨m', hm', hstored⟩
    obtain rfl : m = m' := mem_unique hm hm'
    exact ⟨_, rfl, fun j hj hij => hcells j hj (Or.inl (hstored.cells j hj hij)), hstored.size⟩
  · rintro i rfl
    exact ⟨_, rfl, fun j hj hij => hcells j hj (Or.inr (by rw [hij])), fun h => absurd h hlast⟩

theorem onLastSegment_spec (hbytes : readSegment file (count - 1) = .ok (contentOf d)) :
    Ends (Overflow file)
      (fun c' => c'.pending = c.pending ∧
        Advances altUri r count file (fun i => (i : Int) = count - 1) c c')
      (c.onLastSegment (count - 1) d) := by
  obtain ⟨m, hm, hgood⟩ := hc.memory
  have hsize : toInt32 (contentOf d).length = (contentOf d).length :=
    toInt32_of_lt (Nat.lt_of_le_of_lt (length_le_of_readSegment hbytes) (by decide))
  -- the size stored is that of the last segment, whether or not it was known before
  have hlast : ∀ i : Nat, (i : Int) = count - 1 →
      some (toInt32 (contentOf d).length) = some ((block maxSegmentSize i file).length : Int) := by
    intro i hi
    have hread : readSegment file i = .ok (contentOf d) := by rw [hi, hbytes]
    rw [hsize, ← readSegment_natCast hread]
  rw [onLastSegment, hm]
  refine (store_spec hgood.length (by omega) hbytes).bind fun buffer hbuffer => ?_
  obtain ⟨hlen, hcells⟩ := hbuffer
  refine ⟨rfl, ⟨hc.posted, ⟨_, rfl, hgood.segment, hlen.trans hgood.length, ?_⟩, hc.entries⟩, ?_,
    ?_⟩
  · simp_all
  · rintro i ⟨m', hm', hstored⟩
    obtain rfl : m = m' := mem_unique hm hm'
    exact ⟨_, rfl, fun j hj hij => hcells j hj (Or.inl (hstored.cells j hj hij)), hlast i⟩
  · intro i hi
    exact ⟨_, rfl, fun j hj hij => hcells j hj (Or.inr (by rw [hij, hi])), hlast i⟩

theorem invokeDataCallback_spec (hk : k < count) (hbytes : readSegment file k = .ok (contentOf d)) :
    Ends (Overflow file)
      (fun c' => c'.pending = c.pending ∧
        Advances altUri r count file (fun i => (i : Int) = k) c c')
      (c.invokeDataCallback d (r.segmentEntry altUri count k).callback) := by
  rw [Request.segmentEntry]
  by_cases hlast : k = count - 1
  · rw [if_pos hlast]
    subst hlast
    exact onLastSegment_spec hc hbytes
  · rw [if_neg hlast]
    exact onSegment_spec hc hk hlast hbytes

end

theorem segmentEntry_injective {j : Int}
    (h : r.segmentEntry altUri count j = r.segmentEntry altUri count k) : j = k := by
  have hname : r.segmentName altUri j = r.segmentName altUri k :=
    congrArg (fun e => e.interest.name) h
  simp only [Request.segmentName, cons.injEq, numberComponent, Component.mk.injEq] at hname
  exact decimalInt_injective hname.2.2.1.2.1

theorem foldlM_invokeDataCallback_spec (hd : Honest sha256 altUri r count file d)
    {es : List PendingInterest}
    (hes : ∀ e ∈ es, ∃ k : Int, k < count ∧ e = r.segmentEntry altUri count k)
    (hmatch : ∀ e ∈ es, e.interest.matchesData sha256 d = true)
    (hc : Receiving altUri r count file c) :
    Ends (Overflow file)
      (fun c' => c'.pending = c.pending ∧
        Advances altUri r count file (fun i => r.segmentEntry altUri count i ∈ es) c c')
      (es.foldlM (fun c e => c.invokeDataCallback d e.callback) c) := by
  induction es generalizing c with
  | nil => exact ⟨rfl, hc, fun _ h => h, fun _ h => nomatch h⟩
  | cons e es ih =>
    obtain ⟨k, hk, rfl⟩ := hes e (.head _)
    refine (invokeDataCallback_spec hc hk (hd.bytes k (hmatch _ (.head _)))).bind fun c₁ h₁ => ?_
    refine (ih (fun e he => hes e (.tail _ he))
      (fun e he => hmatch e (.tail _ he)) h₁.2.receiving).mono fun c₂ h₂ => ?_
    refine ⟨h₂.1.trans h₁.1, h₂.2.receiving, fun i h => h₂.2.keeps i (h₁.2.keeps i h),
      fun i hi => ?_⟩
    rcases mem_cons.1 hi with heq | hi
    · exact h₂.2.keeps i (h₁.2.stores i (segmentEntry_injective heq))
    · exact h₂.2.stores i hi

/-- **One packet** while segments are pending. -/
theorem onReceiveElement_spec (hp : p.Honest sha256 altUri r count file)
    (hc : Receiving altUri r count file c) :
    Ends (Overflow file)
      (fun c' => c'.pending = c.pending.filter (fun e => !p.concerns sha256 e.interest) ∧
        Advances altUri r count file (fun i => r.segmentEntry altUri count i ∈ c.pending ∧
          p.concerns sha256 (r.segmentEntry altUri count i).interest = true ∧ p.isData = true) c c')
      (c.onReceiveElement sha256 p) := by
  cases p with
  | nack i =>
    refine ⟨rfl, ⟨hc.posted, hc.memory, fun e he => hc.entries e (mem_of_mem_filter he)⟩,
      fun _ h => h, ?_⟩
    rintro i ⟨-, -, hdata⟩
    cases hdata
  | data wire =>
    obtain ⟨d, hdecode, hd⟩ := hp
    have hconcerns : ∀ i, Packet.concerns sha256 i (.data wire) = i.matchesData sha256 d := by
      intro i
      simp only [Packet.concerns, hdecode]
    have hrest : Receiving altUri r count file
        { c with pending := c.pending.filter fun e => !e.interest.matchesData sha256 d } :=
      ⟨hc.posted, hc.memory, fun e he => hc.entries e (mem_of_mem_filter he)⟩
    have hes : ∀ e ∈ c.pending.filter fun e => e.interest.matchesData sha256 d,
        ∃ k : Int, k < count ∧ e = r.segmentEntry altUri count k := by
      intro e he
      obtain ⟨k, hk, -, rfl⟩ := hc.entries e (mem_of_mem_filter he)
      exact ⟨k, hk, rfl⟩
    simp only [onReceiveElement, hdecode, satisfyPendingInterests, hconcerns]
    refine (foldlM_invokeDataCallback_spec hd hes (fun e he => (mem_filter.1 he).2)
      hrest).mono fun c' h => ?_
    refine ⟨h.1, h.2.receiving, h.2.keeps, ?_⟩
    rintro i ⟨hi, hmatch, -⟩
    exact h.2.stores i (mem_filter.2 ⟨hi, hmatch⟩)

theorem foldlM_onReceiveElement_spec (hps : ∀ p ∈ ps, p.Honest sha256 altUri r count file)
    (hc : Receiving altUri r count file c) :
    Ends (Overflow file)
      (fun c' => c'.pending = c.pending.filter
          (fun e => !ps.any (Packet.concerns sha256 e.interest)) ∧
        Advances altUri r count file (fun i => r.segmentEntry altUri count i ∈ c.pending ∧
          (ps.find? (Packet.concerns sha256 (r.segmentEntry altUri count i).interest)).any
            Packet.isData = true) c c')
      (ps.foldlM (onReceiveElement sha256) c) := by
  induction ps generalizing c with
  | nil =>
    refine ⟨?_, hc, fun _ h => h, fun i hi => nomatch hi.2⟩
    exact (filter_eq_self.2 fun e _ => rfl).symm
  | cons p ps ih =>
    refine (onReceiveElement_spec (hps p (.head _)) hc).bind fun c₁ h₁ => ?_
    refine (ih (fun q hq => hps q (.tail _ hq)) h₁.2.receiving).mono fun c₂ h₂ => ?_
    refine ⟨?_, h₂.2.receiving, fun i h => h₂.2.keeps i (h₁.2.keeps i h), ?_⟩
    · rw [h₂.1, h₁.1, List.filter_filter]
      refine filter_congr fun e _ => ?_
      rw [any_cons, Bool.not_or, Bool.and_comm]
    · rintro i ⟨hi, hfind⟩
      cases hconcerns : p.concerns sha256 (r.segmentEntry altUri count i).interest with
      | true =>
        -- the first packet for the segment: it is stored now and stays
        rw [find?_cons_of_pos hconcerns] at hfind
        exact h₂.2.keeps i (h₁.2.stores i ⟨hi, hconcerns, hfind⟩)
      | false => grind [Advances.stores]

theorem answers_eq_false_of_not_any {i : Interest} (h : ps.any (Packet.concerns sha256 i) = false) :
    Event.answers sha256 i (.receive ps) = false := by
  have hnone : ps.find? (Packet.concerns sha256 i) = none := find?_eq_none.2 (any_eq_false.1 h)
  rw [Event.answers, Event.packets, hnone]
  rfl

theorem runPosted_of_nil (h : c.posted = []) : c.runPosted = c := by
  obtain ⟨pending, posted, memory⟩ := c
  obtain rfl : posted = [] := h
  rw [runPosted, append_nil]

/-- **One event** while segments are pending: a record goes when the event concerns it, and when it
    brings its Data the segment is there. -/
theorem handle_receiving {ev : Event} (hev : ∀ p ∈ ev.packets, p.Honest sha256 altUri r count file)
    (hc : Receiving altUri r count file c) :
    Ends (Overflow file)
      (fun c' => (∀ e ∈ c'.pending, e ∈ c.pending ∧ ev.answers sha256 e.interest = false) ∧
        (∀ e ∈ c.pending, ev.concerns sha256 e.interest = false → e ∈ c'.pending) ∧
        Advances altUri r count file (fun i => r.segmentEntry altUri count i ∈ c.pending ∧
          ev.answers sha256 (r.segmentEntry altUri count i).interest = true) c c')
      (c.handle sha256 ev) := by
  cases ev with
  | receive ps =>
    have hps : ∀ p ∈ ps, p.Honest sha256 altUri r count file := hev
    refine (foldlM_onReceiveElement_spec hps hc).bind fun c' h => ?_
    -- no handler is posted here, so the table is what the packets leave
    rw [runPosted_of_nil h.2.receiving.posted]
    refine ⟨fun e he => ?_, fun e he hnot => ?_, h.2⟩
    · simp_all [answers_eq_false_of_not_any]
    · rw [h.1, mem_filter, not_eq_true']
      exact ⟨he, hnot⟩
  | timeout name =>
    refine ⟨fun e he => ⟨mem_of_mem_eraseP he, rfl⟩, fun e he hnot => ?_, ?_, fun _ h => h,
      fun i hi => nomatch hi.2⟩
    · exact (mem_eraseP_of_neg (by
        rw [show e.interest.name.equals name = false from hnot]
        exact false_ne_true)).2 he
    · exact ⟨hc.posted, hc.memory, fun e he => hc.entries e (mem_of_mem_eraseP he)⟩

/-! ## Runs -/

variable (hevs : ∀ ev ∈ evs, ∀ p ∈ ev.packets, p.Honest sha256 altUri r count file)
include hevs

theorem processEvents_receiving (hc : Receiving altUri r count file c) :
    Ends (Overflow file) (fun o => ∀ c', o = some c' → Receiving altUri r count file c')
      (c.processEvents sha256 evs) := by
  induction evs generalizing c with
  | nil =>
    intro c' hc'
    split at hc'
    · exact some.inj hc' ▸ hc
    · cases hc'
  | cons ev evs ih =>
    by_cases hpending : c.pending = []
    · rw [processEvents_idle hpending]
      exact fun c' hc' => some.inj hc' ▸ hc
    · rw [processEvents, if_neg hpending]
      exact (handle_receiving (hevs ev (.head _)) hc).bind fun c₁ h₁ =>
        ih (fun ev' hev' => hevs ev' (.tail _ hev')) h₁.2.2.receiving

/-- **When every pending Interest gets its Data** the consumer returns, with all segments. -/
theorem processEvents_answered (hc : Receiving altUri r count file c)
    (hpending : ∀ e ∈ c.pending, (answer sha256 e.interest evs).isSome = true)
    (hhas : ∀ i : Nat, (i : Int) < count →
      Has count file c i ∨ r.segmentEntry altUri count i ∈ c.pending) :
    Ends (Overflow file)
      (fun o => ∃ c', o = some c' ∧ Receiving altUri r count file c' ∧
        ∀ i : Nat, (i : Int) < count → Has count file c' i)
      (c.processEvents sha256 evs) := by
  induction evs generalizing c with
  | nil =>
    have hnil : c.pending = [] := eq_nil_iff_forall_not_mem.2 fun e he => nomatch hpending e he
    rw [processEvents_idle hnil]
    refine ⟨c, rfl, hc, fun i hi => (hhas i hi).resolve_right ?_⟩
    rw [hnil]
    exact not_mem_nil
  | cons ev evs ih =>
    by_cases hnil : c.pending = []
    · grind [processEvents_idle]
    rw [processEvents, if_neg hnil]
    refine (handle_receiving (hevs ev (.head _)) hc).bind fun c₁ h₁ => ?_
    obtain ⟨hsub, hkept, hadvances⟩ := h₁
    refine ih (fun ev' hev' => hevs ev' (.tail _ hev')) hadvances.receiving
      (fun e he => ?_) (fun i hi => ?_)
    · -- a record that is still there was not concerned by the event
      obtain ⟨he, hnot⟩ := hsub e he
      have hsome := hpending e he
      rw [answer, hnot] at hsome
      split at hsome
      · cases hsome
      · exact hsome
    · grind [Advances.keeps, answer, Advances.stores]

end

end NdnMulticast.Transmission
