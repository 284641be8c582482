/-
  Matching names against name regular expressions, after `util/regex`.  An expression is
  given as compiled: what a component has to satisfy is a predicate, and a sub-pattern in
  parentheses is its pattern list.

  `langOf` says what an expression denotes.  The matcher accepts less: it never matches a
  repetition that asks for at least one round against the empty sequence, though every
  round may be empty (`matchName_iff`).
-/

import NdnMulticast.Lib.Backtracking

namespace NdnMulticast.Ndn.Regex

open Lib List

variable {α : Type}

inductive Matcher (α : Type) where
  | componentSet (isInclusion : Bool) (components : List (α → Bool))
  | repetition (matcher : Matcher α) (repeatMin repeatMax : Nat)
  /-- The end of `m_matchers`. -/
  | nil
  | cons (matcher rest : Matcher α)

/-- `RegexRepeatMatcher::recursiveMatch`; `left` is `m_repeatMax - rounds`. -/
def recursiveMatch (matcher : List α → Bool) (repeatMin : Nat) : (left rounds : Nat) → List α → Bool
  | _, rounds, [] => decide (repeatMin ≤ rounds)
  | 0, _, _ :: _ => false
  | left + 1, rounds, c :: s =>
    anyCut matcher (recursiveMatch matcher repeatMin left (rounds + 1)) (c :: s)

namespace Matcher

/-- `match`, on the components from `offset` up to `offset + len`. -/
def matchName : Matcher α → List α → Bool
  | componentSet isInclusion components, s =>
    match s with
    | [c] => components.any (· c) == isInclusion
    | _ => false
  | repetition matcher repeatMin repeatMax, s =>
    (decide (repeatMin = 0) && s.isEmpty) || recursiveMatch matcher.matchName repeatMin
      repeatMax 0 s
  | nil, s => s.isEmpty
  | cons matcher rest, s => anyCut matcher.matchName rest.matchName s

/-- What a matcher denotes; if `strict`, not the empty sequence if a repetition asks for a round. -/
def langOf (strict : Bool) : Matcher α → Language α
  | componentSet isInclusion components =>
    {s | ∃ c, s = [c] ∧ (components.any (· c) == isInclusion) = true}
  | repetition matcher repeatMin repeatMax =>
    {s | (∃ k, repeatMin ≤ k ∧ k ≤ repeatMax ∧ s ∈ matcher.langOf strict ^ k) ∧
      (strict = true → s = [] → repeatMin = 0)}
  | nil => 1
  | cons matcher rest => matcher.langOf strict * rest.langOf strict

end Matcher

/-- Empty rounds may come first, so that the last round is not empty. -/
theorem recursiveMatch_iff {matcher : List α → Bool} {L : Language α}
    (hL : ∀ s, matcher s = true ↔ s ∈ L) (repeatMin left : Nat) :
    ∀ (rounds : Nat) (s : List α), recursiveMatch matcher repeatMin left rounds s = true ↔
      if s = [] then repeatMin ≤ rounds
      else ∃ k ≤ left, repeatMin ≤ rounds + k ∧ s ∈ L ^ k := by
  induction left with
  | zero =>
    intro rounds s
    cases s with
    | nil => simp [recursiveMatch]
    | cons c s => simp [recursiveMatch, Language.mem_one]
  | succ left ih =>
    intro rounds s
    cases s with
    | nil => simp [recursiveMatch]
    | cons c s =>
      rw [recursiveMatch, anyCut_iff, if_neg (cons_ne_nil c s)]
      simp only [hL, ih]
      constructor
      · rintro ⟨a, b, hs, ha, hb⟩
        split_ifs at hb with hnil
        · refine ⟨1, by omega, by omega, ?_⟩
          rwa [pow_one, ← hs, hnil, append_nil]
        · obtain ⟨k, hk, hmin, hb⟩ := hb
          exact ⟨k + 1, by omega, by omega, mem_pow_succ_iff.2 ⟨a, b, hs, ha, hb⟩⟩
      · rintro ⟨k, hk, hmin, hmem⟩
        obtain _ | k := k
        · simp [Language.mem_one] at hmem
        obtain ⟨a, b, hs, ha, hb⟩ := mem_pow_succ_iff.1 hmem
        by_cases hnil : b = []
        · subst hnil
          rw [append_nil] at hs
          by_cases hlast : repeatMin ≤ rounds + 1
          · exact ⟨a, [], by simpa using hs, ha, by simpa using hlast⟩
          -- the other rounds are empty: one of them comes first
          have hzero := nil_mem_of_pow (by omega : k ≠ 0) hb
          obtain _ | k := k
          · omega
          refine ⟨[], a, hs, hzero, ?_⟩
          rw [if_neg (by simp [hs])]
          exact ⟨k + 1, by omega, by omega,
            mem_pow_succ_iff.2 ⟨a, [], by simp, ha, nil_mem_pow hzero k⟩⟩
        · refine ⟨a, b, hs, ha, ?_⟩
          rw [if_neg hnil]
          exact ⟨k, by omega, by omega, hb⟩

namespace Matcher

theorem matchName_iff (m : Matcher α) (s : List α) : m.matchName s = true ↔ s ∈ m.langOf true := by
  induction m generalizing s with
  | componentSet isInclusion components =>
    show _ ↔ ∃ c, s = [c] ∧ (components.any (· c) == isInclusion) = true
    match s with
    | [] => simp [matchName]
    | [c] => simp [matchName]
    | _ :: _ :: _ => simp [matchName]
  | repetition m repeatMin repeatMax ih =>
    show _ ↔ (∃ k, _ ∧ _ ∧ s ∈ m.langOf true ^ k) ∧ _
    rw [matchName, Bool.or_eq_true, recursiveMatch_iff ih]
    by_cases hs : s = []
    · subst hs
      simp only [isEmpty_nil, Bool.and_true, decide_eq_true_eq, if_true, Nat.le_zero, or_self,
        forall_const]
      refine ⟨fun hmin => ⟨⟨0, by omega, by omega, by simp [Language.mem_one]⟩, hmin⟩, And.right⟩
    · simp [hs, and_left_comm]
  | nil => simp [matchName, langOf, Language.mem_one]
  | cons m rest ihm ihrest => exact anyCut_iff_mem_mul ihm ihrest

theorem langOf_le (m : Matcher α) : m.langOf true ≤ m.langOf false := by
  induction m with
  | componentSet isInclusion components => exact le_rfl
  | repetition m repeatMin repeatMax ih =>
    rintro s ⟨⟨k, hmin, hmax, hs⟩, -⟩
    exact ⟨⟨k, hmin, hmax, pow_le_pow_left' ih k hs⟩, by simp⟩
  | nil => exact le_rfl
  | cons m rest ihm ihrest => exact mul_le_mul' ihm ihrest

def ofList (ms : List (Matcher α)) : Matcher α := ms.foldr cons nil

theorem langOf_ofList_append (strict : Bool) (l r : List (Matcher α)) :
    (ofList (l ++ r)).langOf strict = (ofList l).langOf strict * (ofList r).langOf strict := by
  induction l with
  | nil => exact (one_mul _).symm
  | cons m l ih =>
    show _ * (ofList (l ++ r)).langOf strict = _ * _ * _
    rw [ih, mul_assoc]
    rfl

end Matcher

/-- `MAX_REPETITIONS`, which no name is longer than. -/
def maxRepetitions : Nat := 2 ^ 64 - 1

/-- `<.*>*`. -/
def anyStar : Matcher α := .repetition (.componentSet true [fun _ => true]) 0 maxRepetitions

theorem mem_anyStar {strict : Bool} {s : List α} :
    s ∈ anyStar.langOf strict ↔ s.length ≤ maxRepetitions := by
  have hpow : ∀ (k : Nat) (s : List α),
      s ∈ (Matcher.componentSet true [fun _ : α => true]).langOf strict ^ k ↔ s.length = k := by
    intro k
    induction k with
    | zero => simp [Language.mem_one]
    | succ k ih =>
      intro s
      rw [mem_pow_succ_iff]
      constructor
      · rintro ⟨_, b, rfl, ⟨c, rfl, -⟩, hb⟩
        simpa using (ih b).1 hb
      · intro hs
        obtain _ | ⟨c, s⟩ := s
        · cases hs
        · exact ⟨[c], s, rfl, ⟨c, rfl, rfl⟩, (ih s).2 (by simpa using hs)⟩
  show (∃ k, 0 ≤ k ∧ k ≤ maxRepetitions ∧ _) ∧ _ ↔ _
  simp [hpow]

/-- An expression with its anchors, `^` and `$`. -/
structure TopMatcher (α : Type) where
  patterns : List (Matcher α)
  hasStart : Bool
  hasEnd : Bool

namespace TopMatcher

/-- What `compile` puts in the place of a missing `$`. -/
def tail (t : TopMatcher α) : List (Matcher α) := if t.hasEnd then [] else [anyStar]

def primaryMatcher (t : TopMatcher α) : Matcher α := .ofList (t.patterns ++ t.tail)

def secondaryMatcher (t : TopMatcher α) : Option (Matcher α) :=
  if t.hasStart then none else some (.ofList (anyStar :: (t.patterns ++ t.tail)))

/-- `RegexTopMatcher::match`. -/
def matchName (t : TopMatcher α) (name : List α) : Bool :=
  t.primaryMatcher.matchName name || t.secondaryMatcher.any (·.matchName name)

/-- The language of an expression: where an anchor is missing the end is free. -/
def lang (strict : Bool) (t : TopMatcher α) : Language α :=
  {s | ∃ before b after, before ++ (b ++ after) = s ∧
    b ∈ (Matcher.ofList t.patterns).langOf strict ∧
    (t.hasStart = true → before = []) ∧ (t.hasEnd = true → after = [])}

variable {t : TopMatcher α} {name : List α}

section

variable (hsize : name.length ≤ maxRepetitions)
include hsize

theorem mem_tail {strict : Bool} :
    name ∈ (Matcher.ofList t.tail).langOf strict ↔ (t.hasEnd = true → name = []) := by
  cases hend : t.hasEnd with
  | true => simp [tail, hend, Matcher.ofList, Matcher.langOf, Language.mem_one]
  | false =>
    have htail : (Matcher.ofList t.tail).langOf strict = anyStar.langOf strict := by
      simp [tail, hend, Matcher.ofList, Matcher.langOf]
    simp [htail, mem_anyStar, hsize]

theorem mem_patterns_tail {strict : Bool} :
    name ∈ (Matcher.ofList (t.patterns ++ t.tail)).langOf strict ↔ ∃ b after, b ++ after = name ∧
      b ∈ (Matcher.ofList t.patterns).langOf strict ∧ (t.hasEnd = true → after = []) := by
  rw [Matcher.langOf_ofList_append, Language.mem_mul]
  constructor
  · rintro ⟨b, hb, after, hafter, rfl⟩
    rw [length_append] at hsize
    exact ⟨b, after, rfl, hb, (mem_tail (by omega)).1 hafter⟩
  · rintro ⟨b, after, rfl, hb, hafter⟩
    rw [length_append] at hsize
    exact ⟨b, hb, after, (mem_tail (by omega)).2 hafter, rfl⟩

theorem matchName_iff : t.matchName name = true ↔ name ∈ t.lang true := by
  rw [matchName, Bool.or_eq_true, primaryMatcher, Matcher.matchName_iff, mem_patterns_tail hsize]
  constructor
  · rintro (⟨b, after, rfl, hb, hafter⟩ | hsecondary)
    · exact ⟨[], b, after, rfl, hb, fun _ => rfl, hafter⟩
    unfold secondaryMatcher at hsecondary
    split at hsecondary
    · cases hsecondary
    rename_i hstart
    rw [Option.any_some, Matcher.matchName_iff] at hsecondary
    obtain ⟨before, -, rest, hrest, rfl⟩ := Language.mem_mul.1 hsecondary
    rw [length_append] at hsize
    obtain ⟨b, after, rfl, hb, hafter⟩ := (mem_patterns_tail (by omega)).1 hrest
    exact ⟨before, b, after, rfl, hb, fun h => absurd h hstart, hafter⟩
  · rintro ⟨before, b, after, rfl, hb, hbefore, hafter⟩
    cases hstart : t.hasStart with
    | true => exact .inl ⟨b, after, by rw [hbefore hstart]; rfl, hb, hafter⟩
    | false =>
      right
      rw [length_append] at hsize
      rw [secondaryMatcher, hstart, if_neg (by simp), Option.any_some, Matcher.matchName_iff]
      exact Language.mem_mul.2 ⟨before, mem_anyStar.2 (by omega), b ++ after,
        (mem_patterns_tail (by omega)).2 ⟨b, after, rfl, hb, hafter⟩, rfl⟩

end

/-- A name is matched as the expression denotes unless all ways to derive it match a repetition that
    asks for a round against the empty sequence. -/
theorem match_right_iff (t : TopMatcher α) (name : List α) (hsize : name.length ≤ maxRepetitions) :
    (t.matchName name = true ↔ name ∈ t.lang false) ↔
      (name ∈ t.lang false → name ∈ t.lang true) := by
  rw [matchName_iff hsize]
  refine ⟨Iff.mpr, fun h => ⟨?_, h⟩⟩
  rintro ⟨before, b, after, hs, hb, hbefore, hafter⟩
  exact ⟨before, b, after, hs, Matcher.langOf_le _ hb, hbefore, hafter⟩

/-- `^(<a>{0,2}){1,2}$` denotes the empty name and does not match it. -/
theorem nullable_round_not_matched :
    let t : TopMatcher Bool :=
      ⟨[.repetition (.repetition (.componentSet true [id]) 0 2) 1 2], true, true⟩
    t.matchName [] = false ∧ [] ∈ t.lang false := by
  refine ⟨by decide, [], [], [], rfl, ?_, by simp, by simp⟩
  refine Language.mem_mul.2 ⟨[], ⟨⟨1, le_rfl, by omega, ?_⟩, by simp⟩, [], rfl, rfl⟩
  rw [pow_one]
  exact ⟨⟨0, le_rfl, by omega, rfl⟩, by simp⟩

/-- `^(<a>{0,2}){1,2}` on two components. -/
theorem match_right_iff_two :
    let t : TopMatcher Bool :=
      ⟨[.repetition (.repetition (.componentSet true [id]) 0 2) 1 2], true, false⟩
    [true, false].length ≤ maxRepetitions ∧
      ((t.matchName [true, false] = true ↔ [true, false] ∈ t.lang false) ↔
        ([true, false] ∈ t.lang false → [true, false] ∈ t.lang true)) :=
  ⟨by decide, match_right_iff _ _ (by decide)⟩

end TopMatcher

/-! ## Depth of the recursion -/

/-- How deep `recursiveMatch` goes, for every first part that matches, until a call succeeds. -/
def depth (matcher : List α → Bool) (repeatMin : Nat) : (left rounds : Nat) → List α → Nat
  | _, _, [] => 1
  | 0, _, _ :: _ => 1
  | left + 1, rounds, c :: s =>
    let calls :=
      visited (fun t => recursiveMatch matcher repeatMin left (rounds + 1) ((c :: s).drop t))
      ((cuts (c :: s)).filter fun t => matcher ((c :: s).take t))
    1 + (calls.map fun t => depth matcher repeatMin left (rounds + 1) ((c :: s).drop t)).foldr max 0

section

variable {matcher : List α → Bool} {repeatMin left rounds bound : Nat} {s : List α}

theorem depth_le_of_calls
    (h : s ≠ [] → ∀ left', left = left' + 1 → ∀ t ≤ s.length, matcher (s.take t) = true →
      (∀ u ≤ s.length, t < u → matcher (s.take u) = true →
        recursiveMatch matcher repeatMin left' (rounds + 1) (s.drop u) = false) →
      depth matcher repeatMin left' (rounds + 1) (s.drop t) ≤ bound) :
    depth matcher repeatMin left rounds s ≤ bound + 1 := by
  obtain _ | ⟨c, s⟩ := s
  · rw [depth]; omega
  obtain _ | left := left
  · rw [depth]; omega
  rw [depth, Nat.add_comm]
  refine Nat.add_le_add_right (max_le_of_forall_le _ _ ?_) 1
  intro d hd
  obtain ⟨t, ht, rfl⟩ := mem_map.1 hd
  obtain ⟨hmem, hfailed⟩ := of_mem_visited ((pairwise_cuts _).filter _) ht
  rw [mem_filter, mem_cuts] at hmem
  refine h (cons_ne_nil c s) left rfl t hmem.1 hmem.2 fun u hu hlt hmatch => hfailed u ?_ hlt
  exact mem_filter.2 ⟨mem_cuts.2 hu, hmatch⟩

theorem depth_le_left : depth matcher repeatMin left rounds s ≤ left + 1 := by
  induction left generalizing rounds s with
  | zero => exact depth_le_of_calls fun _ _ h => (by omega)
  | succ left ih =>
    refine depth_le_of_calls fun _ left' hleft t _ _ _ => ?_
    obtain rfl : left = left' := by omega
    exact ih

theorem depth_le_length (hnil : matcher [] = false) :
    depth matcher repeatMin left rounds s ≤ s.length + 1 := by
  induction left generalizing rounds s with
  | zero => exact depth_le_of_calls fun _ _ h => (by omega)
  | succ left ih =>
    refine depth_le_of_calls fun _ left' hleft t ht hmatch _ => ?_
    obtain rfl : left = left' := by omega
    -- an empty first part does not match
    have hpos : t ≠ 0 := by
      rintro rfl
      rw [take_zero, hnil] at hmatch
      cases hmatch
    have hlen : (s.drop t).length = s.length - t := length_drop
    exact ih.trans (by omega)

/-- A sequence that is no sequence of rounds is tried with empty rounds up to the maximum. -/
theorem depth_of_not_mem {L : Language α} (hL : ∀ s, matcher s = true ↔ s ∈ L)
    (hnil : matcher [] = true) (hs : s ∉ KStar.kstar L) :
    depth matcher repeatMin left rounds s = left + 1 := by
  induction left generalizing rounds with
  | zero => cases s <;> rfl
  | succ left ih =>
    refine Nat.le_antisymm depth_le_left ?_
    obtain _ | ⟨c, s⟩ := s
    · exact absurd (Language.nil_mem_kstar L) hs
    rw [depth, visited_eq_self, Nat.add_comm]
    · refine Nat.add_le_add_left (le_max_of_le (x := left + 1) (mem_map.2 ⟨0, ?_, ?_⟩) le_rfl) 1
      · exact mem_filter.2 ⟨mem_cuts.2 (by omega), hnil⟩
      · exact ih
    · intro t ht
      rw [mem_filter, hL] at ht
      by_contra hcall
      rw [Bool.not_eq_false, recursiveMatch_iff hL] at hcall
      apply hs
      -- the first part and the rounds after it
      rw [← take_append_drop t (c :: s)]
      split_ifs at hcall with hempty
      · rw [hempty, append_nil]
        exact le_kstar (a := L) ht.2
      · obtain ⟨k, -, -, hmem⟩ := hcall
        exact pow_le_kstar (a := L) (mem_pow_succ_iff.2 ⟨_, _, rfl, ht.2, hmem⟩)

/-- If all that is left consists of rounds, empty rounds are only tried until there are enough. -/
theorem depth_le_of_mem {L : Language α} (hL : ∀ s, matcher s = true ↔ s ∈ L)
    (hsuffix : ∀ t, t <:+ s → t ∈ KStar.kstar L) (hleft : s.length + (repeatMin - rounds) ≤ left) :
    depth matcher repeatMin left rounds s ≤ s.length + (repeatMin - rounds) + 1 := by
  induction left generalizing rounds s with
  | zero => exact depth_le_of_calls fun _ _ h => (by omega)
  | succ left ih =>
    refine depth_le_of_calls fun hs left' hleft' t ht hmatch hfailed => ?_
    obtain rfl : left = left' := by omega
    have hlen : (s.drop t).length = s.length - t := length_drop
    have hcall : t ≠ 0 ∨ rounds < repeatMin := by
      by_contra! hno
      obtain ⟨rfl, hmin⟩ := hno
      obtain ⟨a, b, rfl, ha, haL, hb⟩ := exists_first_of_mem_kstar (hsuffix s suffix_rfl) hs
      have hpos := length_pos_of_ne_nil ha
      have hno := hfailed a.length (by simp) hpos (by rw [take_left]; exact (hL a).2 haL)
      rw [drop_left, Bool.eq_false_iff, ne_eq, recursiveMatch_iff hL] at hno
      rw [length_append] at hleft
      obtain ⟨k, hk, hbk⟩ := exists_mem_pow_of_mem_kstar hb
      split_ifs at hno
      · omega
      · exact hno ⟨k, by omega, by omega, hbk⟩
    refine (ih (fun u hu => hsuffix u (hu.trans (drop_suffix t s))) ?_).trans ?_ <;> omega

end

namespace Matcher

/-- How deep `RegexRepeatMatcher::match` calls `recursiveMatch`. -/
def repeatDepth (m : Matcher α) (repeatMin repeatMax : Nat) (s : List α) : Nat :=
  if repeatMin = 0 ∧ s = [] then 0 else depth m.matchName repeatMin repeatMax 0 s

/-- The depth is bounded by the components and the minimum exactly if no round is empty, or
    everything the maximum leaves room for consists of rounds. -/
theorem repeatDepth_bounded_iff (m : Matcher α) (repeatMin repeatMax : Nat) :
    (∀ s, m.repeatDepth repeatMin repeatMax s ≤ s.length + repeatMin + 1) ↔
      m.matchName [] = false ∨
        ∀ s, s ∉ KStar.kstar (m.langOf true) → repeatMax ≤ s.length + repeatMin := by
  constructor
  · intro h
    by_contra! hno
    obtain ⟨hnil, s, hs, hlt⟩ := hno
    rw [Bool.ne_false_iff] at hnil
    have hdepth := h s
    have hne : s ≠ [] := by rintro rfl; exact hs (Language.nil_mem_kstar _)
    rw [repeatDepth, if_neg (by simp [hne]), depth_of_not_mem m.matchName_iff hnil hs] at hdepth
    omega
  · intro h s
    rw [repeatDepth]
    split
    · omega
    rcases h with hnil | hall
    · exact (depth_le_length hnil).trans (by omega)
    by_cases hmax : repeatMax ≤ s.length + repeatMin
    · exact depth_le_left.trans (by omega)
    · refine depth_le_of_mem m.matchName_iff (fun t ht => ?_) (by omega)
      by_contra hno
      have := hall t hno
      have := ht.length_le
      omega

/-- `(<a>{0,2}){0,5}` tries empty rounds up to the maximum on a component that is not `<a>`. -/
theorem repeatDepth_up_to_max :
    (Matcher.repetition (.componentSet true [id]) 0 2).repeatDepth 0 5 [false] = 6 := by decide

end Matcher

end NdnMulticast.Ndn.Regex
