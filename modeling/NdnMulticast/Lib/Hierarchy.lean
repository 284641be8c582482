/-
  Values at some sequences, each of which is below those at its proper prefixes: searches
  upwards, and walks downwards along lists of children.
-/

import Mathlib.Data.List.Infix
import Mathlib.Data.List.TakeWhile

namespace NdnMulticast.Lib

open List Function Nat

variable {κ β γ : Type _}

/-! ## What is above a sequence -/

/-- The values at the prefixes of `k` that are shorter than `i`. -/
def aboveFrom (value : List κ → Option β) (k : List κ) : Nat → List (List κ × β)
  | 0 => []
  | i + 1 =>
    match value (k.take i) with
    | some b => (k.take i, b) :: aboveFrom value k i
    | none => aboveFrom value k i

variable (value : List κ → Option β)

def above (k : List κ) : List (List κ × β) := aboveFrom value k k.length

/-- Those that are longer than `q`. -/
def between (q k : List κ) : List (List κ × β) :=
  (above value k).takeWhile fun x => decide (q.length < x.1.length)

section

variable {value : List κ → Option β} {q k x : List κ} {b : β} {i : Nat}

section

variable (value : List κ → Option β)

theorem aboveFrom_take (k : List κ) {i j : Nat} (hij : i ≤ j) :
    aboveFrom value (k.take j) i = aboveFrom value k i := by
  induction i with
  | zero => rfl
  | succ i ih => grind [aboveFrom]

theorem above_take (hi : i ≤ k.length) : above value (k.take i) = aboveFrom value k i := by
  rw [above, length_take, min_eq_left hi, aboveFrom_take value k (le_refl i)]

theorem above_map (g : β → γ) (k : List κ) :
    above (fun n => (value n).map g) k = (above value k).map fun x => (x.1, g x.2) := by
  have hall : ∀ i, aboveFrom (fun n => (value n).map g) k i =
      (aboveFrom value k i).map fun x => (x.1, g x.2) := by
    intro i
    induction i with
    | zero => rfl
    | succ i ih => grind [aboveFrom]
  exact hall k.length

theorem between_map (g : β → γ) (q k : List κ) :
    between (fun n => (value n).map g) q k = (between value q k).map fun x => (x.1, g x.2) := by
  rw [between, above_map, takeWhile_map]
  rfl

theorem length_above_le (k : List κ) : (above value k).length ≤ k.length := by
  have hall : ∀ i, (aboveFrom value k i).length ≤ i := by
    intro i
    induction i with
    | zero => exact le_refl 0
    | succ i ih => grind [aboveFrom]
  exact hall k.length

end

theorem mem_aboveFrom (hi : i ≤ k.length) :
    (x, b) ∈ aboveFrom value k i ↔ x <+: k ∧ x.length < i ∧ value x = some b := by
  induction i with
  | zero =>
    refine ⟨fun h => (not_mem_nil h).elim, fun h => ?_⟩
    omega
  | succ i ih =>
    have ih := ih (by omega)
    have hlen : (k.take i).length = i := length_take_of_le (by omega)
    have hlast : x <+: k ∧ x.length = i ↔ x = k.take i := by
      constructor
      · rintro ⟨hpre, rfl⟩
        exact prefix_iff_eq_take.1 hpre
      · rintro rfl
        exact And.intro (List.take_prefix i k) hlen
    have hsplit : x <+: k ∧ x.length < i + 1 ∧ value x = some b ↔
        (x <+: k ∧ x.length < i ∧ value x = some b) ∨ (x = k.take i ∧ value x = some b) := by
      constructor
      · grind
      · grind
    rw [hsplit, ← ih, aboveFrom]
    cases hvalue : value (k.take i) with
    | none => simp_all
    | some b' => grind

theorem mem_above : (x, b) ∈ above value k ↔ x <+: k ∧ x.length < k.length ∧ value x = some b :=
  mem_aboveFrom (le_refl _)

theorem above_cons {rest : List (List κ × β)} (h : above value k = (x, b) :: rest) :
    rest = above value x := by
  have hall : ∀ i, i ≤ k.length → aboveFrom value k i = (x, b) :: rest → rest = above value x := by
    intro i hi h
    induction i with
    | zero => cases h
    | succ i ih => grind [aboveFrom, above_take]
  exact hall k.length (le_refl _) h

theorem between_cons_iff {rest : List (List κ × β)} :
    between value q k = (x, b) :: rest ↔
      (above value k).head? = some (x, b) ∧ q.length < x.length ∧ rest = between value q x := by
  unfold between
  cases habove : above value k with
  | nil => simp
  | cons y ys =>
    obtain ⟨y, c⟩ := y
    have hys := above_cons habove
    by_cases hlt : q.length < y.length
    · rw [takeWhile_cons_of_pos (by simpa using hlt)]
      constructor
      · grind
      · simp_all
    · rw [takeWhile_cons_of_neg (by simpa using hlt)]
      refine ⟨fun h => (cons_ne_nil _ _ h.symm).elim, ?_⟩
      rintro ⟨⟨rfl, rfl⟩, hlt', -⟩
      exact absurd hlt' hlt

theorem mem_between (h : (x, b) ∈ between value q k) :
    x <+: k ∧ q.length < x.length ∧ x.length < k.length ∧ value x = some b := by
  have hlong := mem_takeWhile_imp h
  obtain ⟨hpre, hlt, hb⟩ := mem_above.1 ((takeWhile_sublist _).subset h)
  exact ⟨hpre, by simpa using hlong, hlt, hb⟩

theorem takeWhile_aboveFrom_of_le (hi : i ≤ k.length) (hle : i ≤ q.length + 1) :
    (aboveFrom value k i).takeWhile (fun x => decide (q.length < x.1.length)) = [] := by
  cases hl : aboveFrom value k i with
  | nil => rfl
  | cons x l =>
    obtain ⟨x, b⟩ := x
    have hx := (mem_aboveFrom hi).1 (hl ▸ (.head _) : (x, b) ∈ aboveFrom value k i)
    simpa using by omega

theorem above_split (value : List κ → Option β) (hq : q <+: k) (hlt : q.length < k.length) :
    above value k = between value q k ++ ((value q).map fun b => (q, b)).toList ++
      above value q := by
  have hqk : q = k.take q.length := prefix_iff_eq_take.1 hq
  have habove : above value q = aboveFrom value k q.length := by
    conv_lhs => rw [hqk]
    exact above_take value (le_of_lt hlt)
  -- by induction on the length of the prefixes, from that of `q` on
  have hall : ∀ i, q.length < i → i ≤ k.length → aboveFrom value k i =
      (aboveFrom value k i).takeWhile (fun x => decide (q.length < x.1.length)) ++
        ((value q).map fun b => (q, b)).toList ++ above value q := by
    intro i hqi hi
    induction i with
    | zero => omega
    | succ i ih =>
      by_cases heq : i = q.length
      · have hshort : (aboveFrom value k (i + 1)).takeWhile
            (fun x => decide (q.length < x.1.length)) = [] :=
          takeWhile_aboveFrom_of_le hi (by omega)
        rw [hshort, aboveFrom, heq, ← hqk, habove]
        cases value q with
        | none => rfl
        | some b => rfl
      · have ih := ih (by omega) (by omega)
        have hlen : (k.take i).length = i := length_take_of_le (by omega)
        rw [aboveFrom]
        cases value (k.take i) with
        | none => exact ih
        | some b =>
          rw [takeWhile_cons_of_pos (by simpa [hlen] using by omega), cons_append,
            cons_append, ← ih]
  exact hall k.length hlt (le_refl _)

/-- The nearest value above is the one at `q` or the nearest above that exactly if none is
    between. -/
theorem between_eq_nil_iff (value : List κ → Option β) (hq : q <+: k) (hlt : q.length < k.length) :
    (above value k).head?.map Prod.fst =
        (((value q).map fun b => (q, b)).toList ++ above value q).head?.map Prod.fst ↔
      between value q k = [] := by
  rw [above_split value hq hlt, append_assoc]
  cases hl : between value q k with
  | nil => exact ⟨fun _ => rfl, fun _ => rfl⟩
  | cons y ys =>
    refine ⟨fun heq => ?_, fun hnil => (cons_ne_nil _ _ hnil).elim⟩
    have hlong := (mem_between (hl ▸ (.head _) : y ∈ between value q k)).2.1
    obtain ⟨z, hz, hsame⟩ := Option.map_eq_some_iff.1 heq.symm
    rw [← hsame] at hlong
    rcases mem_append.1 (mem_of_mem_head? hz) with hz | hz
    · obtain ⟨b, -, rfl⟩ := Option.map_eq_some_iff.1 (Option.mem_toList.1 hz)
      exact (Nat.lt_irrefl _ hlong).elim
    · exact (Nat.lt_asymm hlong (mem_above.1 hz).2.1).elim

theorem between_congr {value' : List κ → Option β}
    (h : ∀ x, q.length < x.length → value x = value' x) : between value q k =
      between value' q k := by
  have hall : ∀ i, i ≤ k.length →
      (aboveFrom value k i).takeWhile (fun x => decide (q.length < x.1.length)) =
        (aboveFrom value' k i).takeWhile fun x => decide (q.length < x.1.length) := by
    intro i hi
    induction i with
    | zero => rfl
    | succ i ih =>
      have hlen : (k.take i).length = i := length_take_of_le (by omega)
      by_cases hlong : q.length < i
      · rw [aboveFrom, aboveFrom, h _ (by omega)]
        cases value' (k.take i) with
        | none => exact ih (by omega)
        | some b =>
          rw [takeWhile_cons_of_pos (by simpa [hlen] using hlong),
            takeWhile_cons_of_pos (by simpa [hlen] using hlong), ih (by omega)]
      · rw [takeWhile_aboveFrom_of_le hi (by omega), takeWhile_aboveFrom_of_le hi (by omega)]
  exact hall k.length (le_refl _)

end

/-! ## A new value -/

section

variable [DecidableEq κ] {value : List κ → Option β} {q k : List κ}

theorem aboveFrom_update {i : Nat} (hi : i ≤ k.length) (h : ¬ (q <+: k ∧ q.length < i))
    (v : Option β) : aboveFrom (update value q v) k i = aboveFrom value k i := by
  induction i with
  | zero => rfl
  | succ i ih => grind [aboveFrom]

theorem above_update_of_not (h : ¬ (q <+: k ∧ q.length < k.length)) (v : Option β) :
    above (update value q v) k = above value k :=
  aboveFrom_update (le_refl _) h v

theorem above_update (hq : q <+: k) (hlt : q.length < k.length) (v : Option β) :
    above (update value q v) k =
      between value q k ++ (v.map fun b => (q, b)).toList ++ above value q := by
  have hbetween : between (update value q v) q k = between value q k :=
    between_congr fun x hx => update_of_ne (fun heq => by rw [heq] at hx; omega) _ _
  rw [above_split _ hq hlt, hbetween, update_self, above_update_of_not fun h => lt_irrefl _ h.2]

end

/-! ## Upwards -/

/-- The first value that has what is sought, none if one that stops comes first. -/
def searchUp (found stops : β → Bool) : List β → Option β
  | [] => none
  | b :: bs => if found b then some b else if stops b then none else searchUp found stops bs

section

variable {found stops : β → Bool} {bs bs' : List β}

theorem searchUp_append_of_stops (h : ∃ b ∈ bs, stops b = true) :
    searchUp found stops (bs ++ bs') = searchUp found stops bs := by
  induction bs with
  | nil =>
    obtain ⟨b, hb, -⟩ := h
    cases hb
  | cons b bs ih => grind [searchUp]

theorem searchUp_append_of_found (h : ∃ b ∈ bs, found b = true) :
    searchUp found stops (bs ++ bs') = searchUp found stops bs := by
  induction bs with
  | nil =>
    obtain ⟨b, hb, -⟩ := h
    cases hb
  | cons b bs ih => grind [searchUp]

theorem searchUp_append (hfound : ∀ b ∈ bs, found b = false) (hstops : ∀ b ∈ bs, stops b = false) :
    searchUp found stops (bs ++ bs') = searchUp found stops bs' := by
  induction bs with
  | nil => rfl
  | cons b bs ih => simp_all [searchUp]

theorem found_of_searchUp {b : β} (h : searchUp found stops bs = some b) : found b = true := by
  induction bs with
  | nil => cases h
  | cons b' bs ih => grind [searchUp]

end

/-! ## Downwards -/

/-- The sequences that are entered, from one on, with the context they are entered with. -/
def walk (children : List κ → List (List κ)) (enters : List κ → Bool) (next : List κ → γ → γ) :
    Nat → γ → List κ → List (List κ × γ)
  | 0, _, _ => []
  | fuel + 1, c, k =>
    if enters k then (k, c) :: (children k).flatMap (walk children enters next fuel (next k c))
    else []

/-- A child is a sequence for which this is the nearest one above. -/
def IsChildren (children : List κ → List (List κ)) : Prop :=
  ∀ k, (value k).isSome = true → ∀ x, x ∈ children k ↔
    (value x).isSome = true ∧ ((above value x).head?.map Prod.fst) = some k

section

variable {value : List κ → Option β} {children : List κ → List (List κ)} {enters : List κ → Bool}
  {next : List κ → γ → γ} {fuel : Nat} {c c' c₀ : γ} {k p q r : List κ}

theorem length_lt_of_parent (h : (above value k).head?.map Prod.fst = some p) :
    p <+: k ∧ p.length < k.length ∧ (value p).isSome = true := by
  obtain ⟨⟨x, b⟩, hhead, rfl⟩ := Option.map_eq_some_iff.1 h
  obtain ⟨hpre, hlt, hb⟩ := mem_above.1 (mem_of_mem_head? hhead)
  exact ⟨hpre, hlt, by rw [hb]; rfl⟩

theorem mem_walk_child (hchildren : IsChildren value children)
    (henters : ∀ k, enters k = true → (value k).isSome = true) {limit : Nat}
    (hlimit : ∀ k, (value k).isSome = true → k.length ≤ limit) (hfuel : limit < fuel + r.length)
    (hk : (k, c) ∈ walk children enters next fuel c₀ r) (hp : p ∈ children k)
    (hpe : enters p = true) : (p, next k c) ∈ walk children enters next fuel c₀ r := by
  induction fuel generalizing c₀ r with
  | zero => cases hk
  | succ fuel ih =>
    rw [walk] at hk ⊢
    split at hk
    · rename_i hr
      rw [if_pos hr]
      refine mem_cons_of_mem _ ?_
      have hlonger : ∀ y ∈ children r, r.length < y.length := fun y hy =>
        (length_lt_of_parent ((hchildren r (henters r hr) y).1 hy).2).2.1
      rcases mem_cons.1 hk with heq | hk
      · obtain ⟨rfl, rfl⟩ := Prod.mk.inj heq
        refine mem_flatMap.2 ⟨p, hp, ?_⟩
        have hlt := hlonger p hp
        have hle := hlimit p (henters p hpe)
        obtain ⟨fuel, rfl⟩ := exists_eq_succ_of_ne_zero (n := fuel) (by omega)
        rw [walk, if_pos hpe]
        exact .head _
      · grind
    · cases hk

theorem of_mem_walk (h : (p, c) ∈ walk children enters next fuel c₀ r) :
    enters p = true ∧ ((p = r ∧ c = c₀) ∨
      ∃ k c', (k, c') ∈ walk children enters next fuel c₀ r ∧ p ∈ children k ∧ c = next k c') := by
  induction fuel generalizing c₀ r with
  | zero => cases h
  | succ fuel ih => grind [walk]

/-- **Where a walk comes.**  Starting right below `q`, it comes to the sequences below `q` that are
    entered and between which and `q` all are, with the context changed by each of them. -/
theorem mem_walk_iff (hchildren : IsChildren value children)
    (henters : ∀ k, enters k = true → (value k).isSome = true) {limit : Nat}
    (hlimit : ∀ k, (value k).isSome = true → k.length ≤ limit) (hfuel : limit < fuel)
    {roots : List (List κ)}
    (hroots : ∀ x, x ∈ roots ↔ (value x).isSome = true ∧ q <+: x ∧ q.length < x.length ∧
      between value q x = []) :
    (p, c) ∈ roots.flatMap (walk children enters next fuel c₀) ↔
      q <+: p ∧ q.length < p.length ∧ enters p = true ∧
        (∀ x ∈ between value q p, enters x.1 = true) ∧
        c = (between value q p).foldr (fun x c => next x.1 c) c₀ := by
  constructor
  · intro h
    rw [mem_flatMap] at h
    obtain ⟨r, hr, h⟩ := h
    -- by induction on the length of what is reached, which is longer than its parent
    induction hn : p.length using Nat.strong_induction_on generalizing p c with
    | _ n ih =>
      subst hn
      obtain ⟨hp, ⟨rfl, rfl⟩ | ⟨k, c', hk, hpk, rfl⟩⟩ := of_mem_walk h
      · simp_all
      have hke := (of_mem_walk hk).1
      obtain ⟨-, hparent⟩ := (hchildren k (henters k hke) p).1 hpk
      obtain ⟨hkp, hlt, -⟩ := length_lt_of_parent hparent
      obtain ⟨hqk, hqlt, -, hall, rfl⟩ := ih k.length hlt hk rfl
      obtain ⟨⟨x, b⟩, hhead, rfl⟩ := Option.map_eq_some_iff.1 hparent
      have hbetween : between value q p = (x, b) :: between value q x :=
        between_cons_iff.2 ⟨hhead, hqlt, rfl⟩
      rw [hbetween]
      refine ⟨hqk.trans hkp, by omega, hp, ?_, rfl⟩
      rw [forall_mem_cons]
      exact ⟨hke, hall⟩
  · rintro ⟨hpre, hlt, hp, hall, rfl⟩
    induction hn : p.length using Nat.strong_induction_on generalizing p with
    | _ n ih =>
      subst hn
      have hvalue := henters p hp
      cases hbetween : between value q p with
      | nil =>
        refine mem_flatMap.2 ⟨p, (hroots p).2 ⟨hvalue, hpre, hlt, hbetween⟩, ?_⟩
        obtain ⟨fuel, rfl⟩ := exists_eq_succ_of_ne_zero (n := fuel) (by omega)
        rw [walk, if_pos hp]
        exact .head _
      | cons y ys =>
        obtain ⟨x, b⟩ := y
        obtain ⟨hhead, hqx, rfl⟩ := between_cons_iff.1 hbetween
        have hparent : (above value p).head?.map Prod.fst = some x := by rw [hhead]; rfl
        obtain ⟨hxp, hxlt, hxv⟩ := length_lt_of_parent hparent
        rw [hbetween, forall_mem_cons] at hall
        have hqpre : q <+: x := prefix_of_prefix_length_le hpre hxp (le_of_lt hqx)
        obtain ⟨r, hr, hx⟩ := mem_flatMap.1 (ih x.length hxlt hqpre hqx hall.1 hall.2 rfl)
        refine mem_flatMap.2 ⟨r, hr, ?_⟩
        exact mem_walk_child hchildren henters hlimit (by omega) hx
          ((hchildren x hxv p).2 ⟨hvalue, hparent⟩) hp

end

/-! ## Choices that decide down to the next one -/

variable {κ β : Type} (choice : List κ → Option β)

/-- No prefix of `k` longer than `p` has a choice. -/
def Governs (p k : List κ) : Prop :=
  p <+: k ∧ ∀ q, q <+: k → (choice q).isSome = true → q.length ≤ p.length

/-- The choice of the longest prefix. -/
def Effective (k : List κ) (b : β) : Prop := ∃ p, choice p = some b ∧ Governs choice p k

variable {choice} {p q k : List κ} {b b' : β}

theorem Governs.prefix_of_isSome (hp : Governs choice p k) (hq : q <+: k)
    (hchoice : (choice q).isSome = true) : q <+: p :=
  List.prefix_of_prefix_length_le hq hp.1 (hp.2 q hq hchoice)

theorem Effective.unique (h : Effective choice k b) (h' : Effective choice k b') : b = b' := by
  obtain ⟨p, hp, hgov⟩ := h
  obtain ⟨p', hp', hgov'⟩ := h'
  have hle := hgov.prefix_of_isSome hgov'.1 (by rw [hp']; rfl)
  have hge := hgov'.prefix_of_isSome hgov.1 (by rw [hp]; rfl)
  obtain rfl : p = p' := hge.eq_of_length (le_antisymm hge.length_le hle.length_le)
  exact Option.mem_unique hp hp'

theorem Governs.effective_iff (h : Governs choice p k) :
    Effective choice k b ↔ Effective choice p b := by
  constructor
  · rintro ⟨q, hq, hgov⟩
    have hqp := h.prefix_of_isSome hgov.1 (by rw [hq]; rfl)
    exact ⟨q, hq, hqp, fun r hr => hgov.2 r (hr.trans h.1)⟩
  · rintro ⟨q, hq, hgov⟩
    refine ⟨q, hq, hgov.1.trans h.1, fun r hr hchoice => ?_⟩
    exact hgov.2 r (h.prefix_of_isSome hr hchoice) hchoice

theorem effective_self (h : choice k = some b) : Effective choice k b :=
  ⟨k, h, List.prefix_rfl, fun _ hq _ => hq.length_le⟩

variable [DecidableEq κ] {v : Option β}

instance : Decidable (Governs choice p k) :=
  decidable_of_iff (p <+: k ∧ ∀ i < k.length + 1, p.length < i →
    (choice (k.take i)).isSome = false) (by
    refine and_congr_right fun _ => ⟨fun h q hq hchoice => ?_, fun h i hi hlt => ?_⟩
    · by_contra hlt
      have hle := hq.length_le
      have hnone := h q.length (by omega) (by omega)
      rw [← List.prefix_iff_eq_take.1 hq, hchoice] at hnone
      cases hnone
    · rw [Bool.eq_false_iff]
      intro hchoice
      have hle := h _ (List.take_prefix i k) hchoice
      rw [List.length_take] at hle
      omega)

theorem governs_update_iff : Governs (update choice p v) p k ↔ Governs choice p k := by
  refine and_congr_right fun _ => forall_congr' fun q => imp_congr_right fun _ => ?_
  by_cases hq : q = p
  · simp_all
  · rw [update_of_ne hq]

theorem effective_update (h : ¬Governs choice p k) (v : Option β) (heff : Effective choice k b) :
    Effective (update choice p v) k b := by
  obtain ⟨q, hq, hgov⟩ := heff
  have hqp : q ≠ p := by
    rintro rfl
    exact h hgov
  refine ⟨q, (update_of_ne hqp _ _).trans hq, hgov.1, fun r hr hchoice => ?_⟩
  by_cases hrp : r = p
  · subst hrp
    -- something is chosen for a longer prefix, which bounds the new choice
    have hlonger : ∃ q', q' <+: k ∧ (choice q').isSome = true ∧ r.length < q'.length := by
      by_contra hnone
      refine h ⟨hr, fun q' hq' hchoice' => ?_⟩
      by_contra hlt
      exact hnone ⟨q', hq', hchoice', Nat.lt_of_not_le hlt⟩
    obtain ⟨q', hq', hchoice', hlt⟩ := hlonger
    exact le_of_lt (lt_of_lt_of_le hlt (hgov.2 q' hq' hchoice'))
  · rw [update_of_ne hrp] at hchoice
    exact hgov.2 r hr hchoice

theorem effective_update_iff (h : ¬Governs choice p k) :
    Effective (update choice p v) k b ↔ Effective choice k b := by
  refine ⟨fun heff => ?_, effective_update h v⟩
  -- the old choice is put back
  have hback := effective_update (mt governs_update_iff.1 h) (choice p) heff
  rwa [update_idem, update_eq_self] at hback

end NdnMulticast.Lib
