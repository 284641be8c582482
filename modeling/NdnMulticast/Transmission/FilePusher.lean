/-
  The two threads of `transmission/FileServer.cpp` and what they share.

  A step is one access to the shared variables or one operation on the condition variable.
  The condition variable has no predicate: a notification while nobody waits is lost, and the
  pusher may wake up without one.
-/

import NdnMulticast.Transmission.FileServer

namespace NdnMulticast.Transmission.FilePusher

open Lib Ndn Option

/-- Where the server thread is in `onFileInterest`. -/
inductive Server where
  | idle
  /-- `sharedFileName` has been set. -/
  | named (fileName : List UInt8)
  /-- `sharedSegment` has been set. -/
  | counted (fileName : List UInt8)
deriving DecidableEq, Repr

/-- Where the pusher thread is. -/
inductive Pusher where
  | aboutToWait
  | waiting
  | awake
  /-- About to compare `i` with `sharedSegment`. -/
  | checking (i : Nat)
  /-- About to call `pushData`; `bound` is what `i` has been compared with. -/
  | pushing (i : Nat) (bound : Int)
deriving DecidableEq, Repr

/-- A request, or a call of `pushData` with the bound of the range of segments it belongs to. -/
inductive Record where
  | request (fileName : List UInt8)
  | push (fileName : List UInt8) (segment : Nat) (bound : Int)
deriving DecidableEq, Repr

structure State where
  sharedFileName : List UInt8
  sharedSegment : Int
  server : Server
  pusher : Pusher
  /-- Newest first. -/
  log : List Record
deriving DecidableEq, Repr

def init : State := ⟨[], 0, .idle, .aboutToWait, []⟩

inductive Event where
  | request (n : Name)
  | count
  | notify
  | wait
  | spuriousWake
  | start
  | check
  | push
deriving DecidableEq, Repr

variable (P : Producer) (s : State)

/-- The reply that the server sends between counting and notifying touches nothing shared. -/
def step : Event → Option State
  | .request n =>
    match s.server with
    | .idle => some { s with
        sharedFileName := P.fileName n
        server := .named (P.fileName n)
        log := .request (P.fileName n) :: s.log }
    | _ => none
  | .count =>
    match s.server with
    | .named fileName => some { s with
        sharedSegment := P.segmentCount fileName
        server := .counted fileName }
    | _ => none
  | .notify =>
    match s.server with
    | .counted _ => some { s with
        server := .idle
        pusher := if s.pusher = .waiting then .awake else s.pusher }
    | _ => none
  | .wait => if s.pusher = .aboutToWait then some { s with pusher := .waiting } else none
  | .spuriousWake => if s.pusher = .waiting then some { s with pusher := .awake } else none
  | .start => if s.pusher = .awake then some { s with pusher := .checking 0 } else none
  | .check =>
    match s.pusher with
    | .checking i => some { s with
        pusher := if (i : Int) < s.sharedSegment then .pushing i s.sharedSegment
          else .aboutToWait }
    | _ => none
  | .push =>
    match s.pusher with
    | .pushing i bound => some { s with
        pusher := .checking (i + 1)
        log := .push s.sharedFileName i bound :: s.log }
    | _ => none

/-- No thread can take a step by itself. -/
def State.quiescent : Bool := s.server == .idle && s.pusher == .waiting

/-- Neither a new request nor a spurious wakeup. -/
def Event.isInternal : Event → Bool
  | .request _ => false
  | .spuriousWake => false
  | _ => true

/-- Every request has each segment of its file pushed after it. -/
def Served (log : List Record) : Prop :=
  ∀ after fileName before, log = after ++ .request fileName :: before →
    ∀ i : Nat, (i : Int) < P.segmentCount fileName → ∃ bound, .push fileName i bound ∈ after

/-- Every call of `pushData` belongs to the range of the file it names. -/
def Unmixed (log : List Record) : Prop :=
  ∀ fileName i bound, Record.push fileName i bound ∈ log → bound = P.segmentCount fileName

/-- A request comes only while the pusher is blocked in `wait`, and the pusher does not wake up of
    its own accord while the server is in its handler. -/
def handsOver : Event → Bool
  | .request _ => s.pusher == .waiting
  | .spuriousWake => s.server == .idle
  | _ => true

/-! ## What is still owed -/

/-- Every request is served, but segments from `k` on of the file being pushed may be missing. -/
def Owes (k : Nat) : Prop :=
  ∀ after fileName before, s.log = after ++ .request fileName :: before →
    (∀ i : Nat, (i : Int) < P.segmentCount fileName → ∃ bound, .push fileName i bound ∈ after) ∨
    (fileName = s.sharedFileName ∧ s.sharedSegment = P.segmentCount fileName ∧
      ∀ i < k, ∃ bound, .push fileName i bound ∈ after)

section

variable {P : Producer} {s : State}

theorem Served.owes (h : Served P s.log) (k : Nat) : Owes P s k :=
  fun after fileName before hlog => Or.inl (h after fileName before hlog)

theorem Owes.served {k : Nat} (h : Owes P s k) (hk : s.sharedSegment ≤ k) : Served P s.log := by
  intro after fileName before hlog i hi
  rcases h after fileName before hlog with hall | ⟨-, hcount, hpushed⟩
  · exact hall i hi
  · exact hpushed i (by omega)

variable {log : List Record} {s' : State}

theorem split_cons {r q : Record} {after before : List Record}
    (h : r :: log = after ++ q :: before) :
    (after = [] ∧ r = q ∧ log = before) ∨ ∃ after', after = r :: after' ∧
      log = after' ++ q :: before := by
  cases after with
  | nil => simp_all
  | cons a after' => simp_all

theorem Owes.push {k : Nat} (h : Owes P s k) (bound : Int) (pusher : Pusher) :
    Owes P { s with pusher, log := .push s.sharedFileName k bound :: s.log } (k + 1) := by
  intro after fileName before hlog
  obtain ⟨-, hrecord, -⟩ | ⟨after', rfl, hrest⟩ := split_cons hlog
  · cases hrecord
  rcases h after' fileName before hrest with hall | ⟨rfl, hcount, hpushed⟩
  · grind
  · refine Or.inr ⟨rfl, hcount, fun i hi => ?_⟩
    by_cases hik : i = k
    · exact ⟨bound, by rw [hik]; exact .head _⟩
    · obtain ⟨b, hb⟩ := hpushed i (by omega)
      exact ⟨b, .tail _ hb⟩

/-! ## The invariant -/

/-- What the two threads know of each other. -/
inductive Phase (P : Producer) (s : State) : Prop where
  /-- The pusher has nothing to do. -/
  | resting (hserver : s.server = .idle) (hpusher : s.pusher = .waiting ∨ s.pusher = .aboutToWait)
      (hserved : Served P s.log)
  /-- The server is in its handler and the pusher waits. -/
  | handling (fileName : List UInt8) (hname : s.sharedFileName = fileName)
      (hserver : s.server = .named fileName ∨
        (s.server = .counted fileName ∧ s.sharedSegment = P.segmentCount fileName))
      (hpusher : s.pusher = .waiting)
      (hserved : ∃ log, s.log = .request fileName :: log ∧ Served P log)
  | starting (hserver : s.server = .idle) (hpusher : s.pusher = .awake) (howes : Owes P s 0)
  | checking (k : Nat) (hserver : s.server = .idle) (hpusher : s.pusher = .checking k)
      (howes : Owes P s k)
  | pushing (k : Nat) (hserver : s.server = .idle) (hpusher : s.pusher = .pushing k s.sharedSegment)
      (hlt : (k : Int) < s.sharedSegment) (howes : Owes P s k)

structure Inv (P : Producer) (s : State) : Prop where
  unmixed : Unmixed P s.log
  /-- The shared variables belong together, or nothing has been asked for yet. -/
  shared : s.server = .idle → s.sharedSegment = P.segmentCount s.sharedFileName ∨
    s.sharedSegment = 0
  phase : Phase P s

theorem inv_init : Inv P init where
  unmixed _ _ _ h := nomatch h
  shared _ := Or.inr rfl
  phase := .resting rfl (Or.inr rfl) fun after _ _ h => by
    cases after with
    | nil => cases h
    | cons a after => cases h

theorem owes_request (hserved : Served P log) (hlog : s.log = .request s.sharedFileName :: log)
    (hcount : s.sharedSegment = P.segmentCount s.sharedFileName) : Owes P s 0 := by
  intro after fileName before hsplit
  rw [hlog] at hsplit
  obtain ⟨-, hrecord, -⟩ | ⟨after', rfl, hrest⟩ := split_cons hsplit
  · simp_all
  · refine Or.inl fun i hi => ?_
    obtain ⟨b, hb⟩ := hserved after' fileName before hrest i hi
    exact ⟨b, .tail _ hb⟩

/-- What the pusher has still to do at its place, while the server is idle. -/
def Pending (P : Producer) (s : State) : Pusher → Prop
  | .waiting | .aboutToWait => Served P s.log
  | .awake => Owes P s 0
  | .checking k => Owes P s k
  | .pushing k bound => bound = s.sharedSegment ∧ (k : Int) < s.sharedSegment ∧ Owes P s k

theorem Inv.pending (h : Inv P s) (hidle : s.server = .idle) {pusher : Pusher}
    (hpusher : s.pusher = pusher) : Pending P s pusher := by
  subst hpusher
  cases h.phase with
  | resting _ hpusher hserved => rcases hpusher with hpusher | hpusher <;> exact hpusher ▸ hserved
  | handling f _ hserver => simp [hidle] at hserver
  | starting _ hpusher howes | checking k _ hpusher howes => exact hpusher ▸ howes
  | pushing k _ hpusher hlt howes => exact hpusher ▸ ⟨rfl, hlt, howes⟩

theorem Inv.pending_of_ne (h : Inv P s) {pusher : Pusher} (hpusher : s.pusher = pusher)
    (hne : pusher ≠ .waiting) : s.server = .idle ∧ Pending P s pusher := by
  subst hpusher
  have hidle : s.server = .idle := by
    cases h.phase with
    | resting hserver | starting hserver | checking _ hserver | pushing _ hserver => exact hserver
    | handling _ _ _ hwaiting => exact absurd hwaiting hne
  exact ⟨hidle, h.pending hidle rfl⟩

theorem Inv.handling (h : Inv P s) (hbusy : s.server ≠ .idle) :
    (s.server = .named s.sharedFileName ∨ (s.server = .counted s.sharedFileName ∧
      s.sharedSegment = P.segmentCount s.sharedFileName)) ∧ s.pusher = .waiting ∧
    ∃ log, s.log = .request s.sharedFileName :: log ∧ Served P log := by
  cases h.phase with
  | resting hserver | starting hserver | checking _ hserver | pushing _ hserver =>
    exact absurd hserver hbusy
  | handling f hname hserver hpusher hserved =>
    subst hname
    exact ⟨hserver, hpusher, hserved⟩

/-! ## Steps of the server -/

theorem Inv.request {n : Name} (h : Inv P s) (hok : handsOver s (.request n) = true)
    (hstep : step P s (.request n) = some s') : Inv P s' := by
  have hwaiting : s.pusher = .waiting := by simpa [handsOver] using hok
  simp only [step] at hstep
  split at hstep
  · rename_i hidle
    obtain rfl := some.inj hstep
    have hserved := h.pending hidle hwaiting
    refine ⟨fun f i b hmem => ?_, (fun hserver => nomatch hserver),
      .handling (P.fileName n) rfl (Or.inl rfl) hwaiting ⟨s.log, rfl, hserved⟩⟩
    exact h.unmixed f i b ((List.mem_cons.1 hmem).resolve_left fun heq => nomatch heq)
  · cases hstep

theorem Inv.count (h : Inv P s) (hstep : step P s .count = some s') : Inv P s' := by
  simp only [step] at hstep
  split at hstep
  · rename_i f hnamed
    obtain rfl := some.inj hstep
    obtain ⟨hserver, hpusher, hserved⟩ := h.handling (by simp [hnamed])
    obtain rfl : f = s.sharedFileName := by simpa [hnamed] using hserver
    exact ⟨h.unmixed, (fun hserver => nomatch hserver),
      .handling s.sharedFileName rfl (Or.inr ⟨rfl, rfl⟩) hpusher hserved⟩
  · cases hstep

theorem Inv.notify (h : Inv P s) (hstep : step P s .notify = some s') : Inv P s' := by
  simp only [step] at hstep
  split at hstep
  · rename_i f hcounted
    obtain rfl := some.inj hstep
    obtain ⟨hserver, hpusher, log, hlog, hserved⟩ := h.handling (by simp [hcounted])
    obtain ⟨rfl, hcount⟩ : f = s.sharedFileName ∧
        s.sharedSegment = P.segmentCount s.sharedFileName := by simpa [hcounted] using hserver
    have howes : Owes P s 0 := owes_request hserved hlog hcount
    -- the pusher is still waiting, so the notification reaches it
    rw [if_pos hpusher]
    exact ⟨h.unmixed, fun _ => Or.inl hcount, .starting rfl rfl howes⟩
  · cases hstep

/-! ## Steps of the pusher -/

section

variable (h : Inv P s)
include h

theorem Inv.wait (hstep : step P s .wait = some s') : Inv P s' := by
  obtain ⟨hpusher, rfl⟩ := ite_some_none_eq_some.1 hstep
  obtain ⟨hidle, hserved⟩ := h.pending_of_ne hpusher (by simp)
  exact ⟨h.unmixed, h.shared, .resting hidle (Or.inl rfl) hserved⟩

theorem Inv.spuriousWake (hok : handsOver s .spuriousWake = true)
    (hstep : step P s .spuriousWake = some s') : Inv P s' := by
  have hidle : s.server = .idle := by simpa [handsOver] using hok
  obtain ⟨hpusher, rfl⟩ := ite_some_none_eq_some.1 hstep
  have howes : Owes P s 0 := Served.owes (h.pending hidle hpusher) 0
  exact ⟨h.unmixed, h.shared, .starting hidle rfl howes⟩

theorem Inv.start (hstep : step P s .start = some s') : Inv P s' := by
  obtain ⟨hpusher, rfl⟩ := ite_some_none_eq_some.1 hstep
  obtain ⟨hidle, howes⟩ := h.pending_of_ne hpusher (by simp)
  exact ⟨h.unmixed, h.shared, .checking 0 hidle rfl howes⟩

theorem Inv.check (hstep : step P s .check = some s') : Inv P s' := by
  simp only [step] at hstep
  split at hstep
  · rename_i i hpusher
    obtain rfl := some.inj hstep
    obtain ⟨hidle, howes : Owes P s i⟩ := h.pending_of_ne hpusher (by simp)
    refine ⟨h.unmixed, h.shared, ?_⟩
    by_cases hlt : (i : Int) < s.sharedSegment
    · rw [if_pos hlt]
      exact .pushing i hidle rfl hlt howes
    · rw [if_neg hlt]
      exact .resting hidle (Or.inr rfl) (howes.served (Int.not_lt.1 hlt))
  · cases hstep

theorem Inv.push (hstep : step P s .push = some s') : Inv P s' := by
  simp only [step] at hstep
  split at hstep
  · rename_i i bound hpusher
    obtain rfl := some.inj hstep
    obtain ⟨hidle, rfl, hlt, howes⟩ := h.pending_of_ne hpusher (by simp)
    refine ⟨fun f j b hmem => ?_, h.shared, .checking (i + 1) hidle rfl (howes.push _ _)⟩
    rcases List.mem_cons.1 hmem with heq | hmem
    · -- a loop that is entered has a bound above zero, so it is the file's own
      obtain ⟨rfl, rfl, rfl⟩ := Record.push.inj heq
      exact (h.shared hidle).resolve_right (by omega)
    · exact h.unmixed f j b hmem
  · cases hstep

theorem Inv.step {e : Event} (hok : handsOver s e = true) (hstep : step P s e = some s') :
    Inv P s' := by
  cases e with
  | request n => exact h.request hok hstep
  | count => exact h.count hstep
  | notify => exact h.notify hstep
  | wait => exact h.wait hstep
  | spuriousWake => exact h.spuriousWake hok hstep
  | start => exact h.start hstep
  | check => exact h.check hstep
  | push => exact h.push hstep

end

/-! ## Runs end -/

/-- The steps the pusher has before it, for a file with so many segments. -/
def Pusher.remaining (segments : Int) : Pusher → Nat
  | .waiting => 0
  | .aboutToWait => 1
  | .awake => 2 * segments.toNat + 3
  | .checking i => 2 * (segments - i).toNat + 2
  | .pushing i _ => 2 * (segments - i).toNat + 1

/-- The steps both threads have before them without a new request. -/
def State.remaining (P : Producer) (s : State) : Nat :=
  match s.server with
  | .idle => s.pusher.remaining s.sharedSegment
  | .named fileName => 2 + Pusher.awake.remaining (P.segmentCount fileName)
  | .counted _ => 1 + Pusher.awake.remaining s.sharedSegment

theorem remaining_step {e : Event} (h : Inv P s) (he : e.isInternal = true)
    (hstep : step P s e = some s') : s'.remaining P < s.remaining P := by
  cases e with
  | request | spuriousWake => cases he
  | count =>
    simp only [step] at hstep
    split at hstep
    · rename_i f hnamed
      obtain rfl := some.inj hstep
      simp only [State.remaining, hnamed]
      omega
    · cases hstep
  | notify =>
    simp only [step] at hstep
    split at hstep
    · rename_i f hcounted
      obtain rfl := some.inj hstep
      have hpusher : s.pusher = .waiting := (h.handling (by simp [hcounted])).2.1
      simp only [State.remaining, hcounted, hpusher, if_true]
      omega
    · cases hstep
  | wait | start =>
    obtain ⟨hpusher, rfl⟩ := ite_some_none_eq_some.1 hstep
    have hidle := (h.pending_of_ne hpusher (by simp)).1
    simp [State.remaining, hidle, hpusher, Pusher.remaining]
  | check =>
    simp only [step] at hstep
    split at hstep
    · rename_i i hpusher
      obtain rfl := some.inj hstep
      have hidle := (h.pending_of_ne hpusher (by simp)).1
      simp only [State.remaining, hidle, hpusher]
      split
      · simp [Pusher.remaining]
      · simp only [Pusher.remaining]
        omega
    · cases hstep
  | push =>
    simp only [step] at hstep
    split at hstep
    · rename_i i bound hpusher
      obtain rfl := some.inj hstep
      obtain ⟨hidle, -, hlt, -⟩ := h.pending_of_ne hpusher (by simp)
      simp only [State.remaining, hidle, hpusher, Pusher.remaining]
      omega
    · cases hstep

theorem length_le_remaining {es : List Event} {t : State} (h : Inv P s)
    (hrun : Run (FilePusher.step P) (fun _ e => e.isInternal = true) s es t) :
    es.length ≤ s.remaining P := by
  induction hrun with
  | nil s => exact Nat.zero_le _
  | @cons s s' t e es he hstep _ ih =>
    have hok : handsOver s e = true := by
      cases e with
      | request n => cases he
      | spuriousWake => cases he
      | _ => rfl
    have hrest := ih (h.step hok hstep)
    have hless := remaining_step h he hstep
    rw [List.length_cons]
    omega

/-- **Every requested file is pushed under its own name**, in every run in which requests are handed
    over one at a time: no call of `pushData` mixes two files, when the threads rest every request
    has been served, and they come to rest. -/
theorem run_handsOver {es : List Event} {t : State}
    (hrun : Run (FilePusher.step P) (fun s e => handsOver s e = true) init es t) :
    Unmixed P t.log ∧ (t.quiescent = true → Served P t.log) ∧
      ∀ es' t', Run (FilePusher.step P) (fun _ e => e.isInternal = true) t es' t' →
        es'.length ≤ t.remaining P := by
  have hinv : Inv P t := hrun.invariant (fun s e s' h hok hstep => h.step hok hstep) inv_init
  refine ⟨hinv.unmixed, fun hquiescent => ?_, fun es' t' hrest => length_le_remaining hinv hrest⟩
  simp only [State.quiescent, Bool.and_eq_true, beq_iff_eq] at hquiescent
  obtain ⟨hidle, hwaiting⟩ := hquiescent
  exact hinv.pending hidle hwaiting

end

/-! ## Two files -/

/-- A file of one octet and an empty one. -/
def twoFiles : Producer where
  altUri := true
  files fileName := if fileName = ascii "/a" then some [7]
    else if fileName = ascii "/b" then some [] else none

def requestOf (file : String) : Event :=
  .request [Component.ofString "File", Component.ofString file]

/-- One request after the other. -/
def oneByOne : List Event :=
  [.wait, requestOf "a", .count, .notify, .start, .check, .push, .check, .wait,
    requestOf "b", .count, .notify, .start, .check, .wait]

theorem run_handsOver_oneByOne : ∃ t,
    Run (step twoFiles) (fun s e => handsOver s e = true) init oneByOne t ∧
      t.quiescent = true ∧ Unmixed twoFiles t.log ∧ Served twoFiles t.log := by
  refine Run.exists_of_decide (·.quiescent = true) (by decide) fun t hrun ht => ?_
  have hpushed := run_handsOver hrun
  exact ⟨ht, hpushed.1, hpushed.2.1 ht⟩

/-- The second request comes when the pusher has compared its index and not yet pushed. -/
def overlapping : List Event :=
  [.wait, requestOf "a", .count, .notify, .start, .check, requestOf "b", .push, .count, .notify,
    .check, .wait]

/-- **Two requests that overlap**: the first segment of the first file is looked up under the name
    of the second one, and nothing of the first file is ever pushed. -/
theorem run_mixes_files : ∃ t, Run (step twoFiles) (fun _ _ => True) init overlapping t ∧
    t.quiescent = true ∧ ¬ Unmixed twoFiles t.log ∧ ¬ Served twoFiles t.log := by
  refine Run.exists_of_decide (fun t => t.quiescent = true ∧ t.log = [.push (ascii "/b") 0 1,
    .request (ascii "/b"), .request (ascii "/a")]) (by decide) ?_
  rintro t - ⟨hquiescent, hlog⟩
  refine ⟨hquiescent, fun hunmixed => ?_, fun hserved => ?_⟩
  · have hbound := hunmixed (ascii "/b") 0 1 (by rw [hlog]; exact .head _)
    exact absurd hbound (by decide)
  · obtain ⟨bound, hpushed⟩ :=
      hserved [.push (ascii "/b") 0 1, .request (ascii "/b")] (ascii "/a") []
      hlog 0 (by decide)
    simp [ascii] at hpushed

end NdnMulticast.Transmission.FilePusher
