/-
  Management Interests, after `ndn-cxx/mgmt`: where `Dispatcher` sends an Interest for a
  control command, and how `StatusDatasetContext` cuts a dataset into segments.

  Handlers of datasets and of notification streams read no component by its index and are
  left out.
-/

import NdnMulticast.Ndn.NameOrder

namespace NdnMulticast.Ndn

open Lib List Name

/-! ## Control commands -/

structure Dispatcher where
  /-- The `relPrefix` of each control command. -/
  handlers : List Name
  topLevelPrefixes : List Name

namespace Dispatcher

def overlaps (a b : Name) : Bool := a.isPrefixOf b || b.isPrefixOf a

def addControlCommand (relPrefix : Name) (d : Dispatcher) : Raises Dispatcher :=
  if !d.topLevelPrefixes.isEmpty then
    .error (.logicError "one or more top-level prefix has been added")
  else if d.handlers.any (overlaps · relPrefix) then
    .error (.outOfRange "relPrefix overlaps with another relPrefix")
  else .ok { d with handlers := d.handlers ++ [relPrefix] }

def addTopPrefix (pfx : Name) (d : Dispatcher) : Raises Dispatcher :=
  if d.topLevelPrefixes.any (overlaps · pfx) then .error (.outOfRange "top-level prefix overlaps")
  else .ok { d with topLevelPrefixes := d.topLevelPrefixes ++ [pfx] }

/-- The InterestFilters: each top-level prefix with each `relPrefix`. -/
def interestFilters (d : Dispatcher) : List (Name × Name) :=
  d.topLevelPrefixes.flatMap fun pfx => d.handlers.map fun relPrefix => (pfx, relPrefix)

/-- Up to the parameters that are passed on to the authorization; `none` if they do not parse. -/
def processControlCommandInterest {π : Type} (parser : Component → Raises π)
    (pfx relPrefix name : Name) : Except Fault (Option π) :=
  -- `Name::get` checks no bounds
  match name[pfx.length + relPrefix.length]? with
  | none => .error .undefinedBehavior
  | some pc =>
    match parser pc with
    | .ok parameters => .ok (some parameters)
    | .error (.tlvError _) => .ok none
    | .error e => .error (.raised e)

/-- What the handlers whose filters match make of an Interest. -/
def onInterest {π : Type} (parser : Component → Raises π) (d : Dispatcher) (name : Name) :
    List (Except Fault (Option π)) :=
  (d.interestFilters.filter fun f => (f.1 ++ f.2).isPrefixOf name).map fun f =>
    processControlCommandInterest parser f.1 f.2 name

variable {π : Type} {parser : Component → Raises π} {pfx relPrefix name : Name}

theorem equals_eq_false_iff {m n : Name} (h : m.isPrefixOf n = true) :
    m.equals n = false ↔ m.length < n.length := by
  induction m generalizing n with
  | nil => cases n <;> simp [equals]
  | cons a m ih =>
    cases n with
    | nil => cases h
    | cons b n =>
      rw [Name.isPrefixOf, Bool.and_eq_true] at h
      simp [equals, h.1, ih h.2]

theorem processControlCommandInterest_eq_undefinedBehavior_iff :
    processControlCommandInterest parser pfx relPrefix name = .error .undefinedBehavior ↔
      name.length ≤ pfx.length + relPrefix.length := by
  unfold processControlCommandInterest
  rw [← List.getElem?_eq_none_iff]
  cases name[pfx.length + relPrefix.length]? with
  | none => simp
  | some pc =>
    dsimp only
    split <;> simp

/-- Handlers read existing components only, exactly if nothing is named like a control command
    without anything after it. -/
theorem onInterest_defined_iff {π : Type} (parser : Component → Raises π) (d : Dispatcher)
    (name : Name) :
    (∀ r ∈ d.onInterest parser name, r ≠ .error .undefinedBehavior) ↔
      ∀ f ∈ d.interestFilters, (f.1 ++ f.2).equals name = false := by
  simp only [onInterest, forall_mem_map, mem_filter, and_imp]
  refine forall₂_congr fun f _ => ?_
  by_cases hpre : (f.1 ++ f.2).isPrefixOf name = true
  · rw [Ne, processControlCommandInterest_eq_undefinedBehavior_iff, equals_eq_false_iff hpre,
      length_append, Nat.not_le]
    exact forall_prop_of_true hpre
  · have hne : (f.1 ++ f.2).equals name = false :=
      Bool.eq_false_iff.2 fun heq => hpre (isPrefixOf_of_equals heq)
    exact iff_of_true (fun h => absurd h hpre) hne

def sampleComponent (octet : UInt8) : Component := ⟨Tlv.genericNameComponent, [octet], [8, 1]⟩

/-- With the top-level prefix `/a` and the control command `b`, an Interest for `/a/b`. -/
theorem bare_command_undefined : ∃ d,
    (addControlCommand [sampleComponent 98] ⟨[], []⟩ >>= addTopPrefix [sampleComponent 97]) =
      .ok d ∧
      ¬ ∀ r ∈ d.onInterest (.ok : Component → Raises Component)
        [sampleComponent 97, sampleComponent 98], r ≠ .error .undefinedBehavior :=
  ⟨_, rfl, fun h => h (.error .undefinedBehavior) (.head _) rfl⟩

end Dispatcher

/-! ## Status datasets -/

/-- A segment, as `Dispatcher::sendStatusDatasetSegment` sends it. -/
structure DatasetSegment where
  segmentNo : Nat
  content : List UInt8
  finalBlock : Option Nat
  /-- Every segment goes to the in-memory storage. -/
  toFace : Bool
deriving DecidableEq, Repr

def sendStatusDatasetSegment (segmentNo : Nat) (content : List UInt8) (isFinalBlock : Bool) :
    DatasetSegment :=
  ⟨segmentNo, content, if isFinalBlock then some segmentNo else none, segmentNo == 0⟩

structure StatusDatasetContext where
  buffer : List UInt8
  segmentNo : Nat
  isFinalized : Bool
  /-- What has been passed to the data sender. -/
  sent : List DatasetSegment

namespace StatusDatasetContext

def init : StatusDatasetContext := ⟨[], 0, false, []⟩

def maxContentSize : Nat := maxNdnPacketSize / 2

/-- The loop of `append`. -/
def appendLoop (ctx : StatusDatasetContext) (left : List UInt8) : StatusDatasetContext :=
  if left = [] then ctx
  else
    -- the subtraction is one of `size_t`
    let nBytesAppend := min left.length ((2 ^ 64 + maxContentSize - ctx.buffer.length) % 2 ^ 64)
    let buffer := ctx.buffer ++ left.take nBytesAppend
    if left.drop nBytesAppend = [] then { ctx with buffer := buffer }
    else
      appendLoop { ctx with
        buffer := []
        segmentNo := (ctx.segmentNo + 1) % 2 ^ 64
        sent := ctx.sent ++ [sendStatusDatasetSegment ctx.segmentNo buffer false] }
        (left.drop nBytesAppend)
termination_by (left.length, ctx.buffer.length)
decreasing_by
  -- a full buffer takes nothing, but the next one does
  rename_i hleft _
  have hpos := List.length_pos_iff.2 hleft
  rw [Prod.lex_def]
  simp only [List.length_drop, List.length_nil, maxContentSize, maxNdnPacketSize]
  omega

def append (ctx : StatusDatasetContext) (block : List UInt8) : Raises StatusDatasetContext :=
  if ctx.isFinalized then .error (.logicError "state is in FINALIZED")
  else .ok (ctx.appendLoop block)

/-- `end`. -/
def finish (ctx : StatusDatasetContext) : Raises StatusDatasetContext :=
  if ctx.isFinalized then .error (.logicError "state is in FINALIZED")
  else .ok { ctx with
    isFinalized := true
    sent := ctx.sent ++ [sendStatusDatasetSegment ctx.segmentNo ctx.buffer true] }

/-- Segments with these octets, numbered from zero in 64 bits. -/
structure Segments (segments : List DatasetSegment) (octets : List UInt8) : Prop where
  segmentNo : segments.map (·.segmentNo) = (List.range segments.length).map (· % 2 ^ 64)
  content : segments.flatMap (·.content) = octets
  length_le : ∀ s ∈ segments, s.content.length ≤ maxContentSize

theorem Segments.snoc {segments : List DatasetSegment} {octets content : List UInt8}
    (h : Segments segments octets) (hle : content.length ≤ maxContentSize) (isFinalBlock : Bool) :
    Segments (segments ++
      [sendStatusDatasetSegment (segments.length % 2 ^ 64) content isFinalBlock])
      (octets ++ content) where
  segmentNo := by simp [h.segmentNo, sendStatusDatasetSegment, range_succ]
  content := by simp [h.content, sendStatusDatasetSegment]
  length_le := by
    rw [forall_mem_append, forall_mem_singleton]
    exact ⟨h.length_le, hle⟩

/-- What has been appended has been sent or is in the buffer; no segment is the final one. -/
structure Inv (ctx : StatusDatasetContext) (octets : List UInt8) : Prop where
  segments : ∃ before, Segments ctx.sent before ∧ before ++ ctx.buffer = octets
  segmentNo : ctx.segmentNo = ctx.sent.length % 2 ^ 64
  length_le : ctx.buffer.length ≤ maxContentSize
  finalBlock : ctx.sent.map (·.finalBlock) = List.replicate ctx.sent.length none
  isFinalized : ctx.isFinalized = false

variable {ctx : StatusDatasetContext} {octets : List UInt8}

section

variable (h : Inv ctx octets)
include h

theorem Inv.length_append_take (left : List UInt8) :
    (ctx.buffer ++ left.take (min left.length
      ((2 ^ 64 + maxContentSize - ctx.buffer.length) % 2 ^ 64))).length ≤ maxContentSize := by
  have hle := h.length_le
  simp only [length_append, length_take, maxContentSize, maxNdnPacketSize] at hle ⊢
  omega

theorem Inv.appendLoop (left : List UInt8) : Inv (ctx.appendLoop left) (octets ++ left) := by
  fun_induction StatusDatasetContext.appendLoop ctx left generalizing octets with
  | case1 ctx => rwa [append_nil]
  | case2 ctx left hleft n buffer =>
    rename_i hrest
    obtain ⟨before, hbefore, rfl⟩ := h.segments
    have htake : left.take n = left := by
      rw [← append_nil (left.take n), ← hrest, take_append_drop]
    have hle := h.length_append_take left
    refine ⟨⟨before, hbefore, ?_⟩, h.segmentNo, hle, h.finalBlock, h.isFinalized⟩
    show before ++ (ctx.buffer ++ left.take n) = _
    rw [htake, append_assoc]
  | case3 ctx left hleft n buffer hrest =>
    rename_i ih
    obtain ⟨before, hbefore, rfl⟩ := h.segments
    -- the buffer is sent as the next segment
    have hsent := hbefore.snoc (h.length_append_take left) false
    rw [← h.segmentNo] at hsent
    have hrun := ih ⟨⟨_, hsent, append_nil _⟩, by simp [h.segmentNo], by simp,
      by simp [h.finalBlock, sendStatusDatasetSegment, replicate_succ'], h.isFinalized⟩
    have hoctets : before ++ (ctx.buffer ++ left.take n) ++ left.drop n =
        before ++ ctx.buffer ++ left := by
      rw [append_assoc, append_assoc, take_append_drop, append_assoc]
    rwa [hoctets] at hrun

theorem Inv.append (block : List UInt8) :
    ∃ ctx', ctx.append block = .ok ctx' ∧ Inv ctx' (octets ++ block) := by
  refine ⟨_, ?_, h.appendLoop block⟩
  rw [StatusDatasetContext.append, h.isFinalized]
  rfl

theorem Inv.foldlM (blocks : List (List UInt8)) :
    ∃ ctx', blocks.foldlM StatusDatasetContext.append ctx = .ok ctx' ∧
      Inv ctx' (octets ++ blocks.flatten) := by
  induction blocks generalizing ctx octets with
  | nil => exact ⟨ctx, rfl, by simpa using h⟩
  | cons block blocks ih =>
    obtain ⟨mid, hmid, h⟩ := h.append block
    obtain ⟨ctx', hctx', h⟩ := ih h
    refine ⟨ctx', ?_, by simpa using h⟩
    rw [foldlM_cons, hmid]
    exact hctx'

end

/-- However a dataset is made up of blocks: the segments are numbered one after another, have the
    octets of the blocks, and the last one alone is the final block. -/
theorem segments_of_appends (blocks : List (List UInt8)) :
    ∃ ctx, (blocks.foldlM append init >>= finish) = .ok ctx ∧
      Segments ctx.sent blocks.flatten ∧
      ctx.sent.map (·.finalBlock) = List.replicate (ctx.sent.length - 1) none ++
        [some ((ctx.sent.length - 1) % 2 ^ 64)] := by
  have hinit : Inv init [] := ⟨⟨[], ⟨rfl, rfl, by simp [init]⟩, rfl⟩, rfl, by simp [init], rfl, rfl⟩
  obtain ⟨ctx, hctx, h⟩ := hinit.foldlM blocks
  obtain ⟨before, hbefore, hoctets⟩ := h.segments
  rw [hctx]
  refine ⟨_, by simp only [bind, Except.bind, finish, h.isFinalized]; rfl, ?_, ?_⟩
  · have := hbefore.snoc h.length_le true
    rwa [hoctets, ← h.segmentNo] at this
  · simp [h.finalBlock, h.segmentNo, sendStatusDatasetSegment]

end StatusDatasetContext

end NdnMulticast.Ndn
