/-
  Decimal numerals over octets, as the C and C++ standard libraries write and read them.

  `strtol` skips leading white space, takes an optional sign and then the longest run of
  digits; `stoi`, `strtoul` and `stoull` add range checks.  A NUL is neither white space nor
  a digit, so a C string and the memory behind it give the same number.
-/

import Mathlib.Data.List.TakeWhile
import Mathlib.Tactic.IntervalCases
import Mathlib.Tactic.Ring

namespace NdnMulticast.Lib

open List Nat

/-- The octets of an ASCII text. -/
def ascii (s : String) : List UInt8 := s.toList.map fun c => UInt8.ofNat c.toNat

/-- Octets shown as text. -/
def ofAscii (bs : List UInt8) : String := String.ofList (bs.map fun b => Char.ofNat b.toNat)

/-- `isdigit` in the C locale. -/
def isDigit (b : UInt8) : Bool := decide (48 ≤ b.toNat ∧ b.toNat ≤ 57)

/-- `isspace` in the C locale: tab, line feed, vertical tab, form feed,
    carriage return and space. -/
def isSpace (b : UInt8) : Bool := decide (9 ≤ b.toNat ∧ b.toNat ≤ 13 ∨ b.toNat = 32)

/-- Value of a run of decimal digits. -/
def digitsValue (ds : List UInt8) : Nat := ds.foldl (fun n b => 10 * n + (b.toNat - 48)) 0

/-- `std::to_string` of an unsigned number. -/
def decimal (n : Nat) : List UInt8 := (Nat.toDigits 10 n).map fun c => UInt8.ofNat c.toNat

/-- `std::to_string` of an `int`. -/
def decimalInt (n : Int) : List UInt8 :=
  if 0 ≤ n then decimal n.toNat else 45 :: decimal (-n).toNat

@[simp] theorem decimalInt_natCast (n : Nat) : decimalInt n = decimal n := by
  simp [decimalInt]

/-- Splits an optional sign off; `true` means minus. -/
def takeSign : List UInt8 → Bool × List UInt8
  | 45 :: bs => (true, bs)
  | 43 :: bs => (false, bs)
  | bs => (false, bs)

/-- The sign of a text and what follows it, after leading white space. -/
def signedText (text : List UInt8) : Bool × List UInt8 := takeSign (text.dropWhile isSpace)

/-- `strtol`/`strtoul` in base ten before a range check: sign, magnitude, `none` without a digit. -/
def strtol (text : List UInt8) : Option (Bool × Nat) :=
  let digits := (signedText text).2.takeWhile isDigit
  if digits = [] then none else some ((signedText text).1, digitsValue digits)

/-- The text ends before its numeral does: digits that follow in memory belong to the number. -/
def endsInNumeral (text : List UInt8) : Bool := (signedText text).2.all isDigit

/-- How `std::stoi` and `std::stoull` fail. -/
inductive StoiFailure where
  | invalidArgument
  | outOfRange
deriving DecidableEq, Repr

/-- The value of a sign and a magnitude. -/
def signedValue (p : Bool × Nat) : Int := if p.1 then -(p.2 : Int) else p.2

/-- `std::stoi`: `invalid_argument` if nothing is converted, `out_of_range` for no `int`. -/
def stoi (text : List UInt8) : Except StoiFailure Int :=
  match strtol text with
  | none => .error .invalidArgument
  | some p =>
    if -2 ^ 31 ≤ signedValue p ∧ signedValue p < 2 ^ 31 then .ok (signedValue p)
    else .error .outOfRange

/-- The 64-bit unsigned value: a minus sign negates modulo `2 ^ 64`. -/
def unsignedValue (p : Bool × Nat) : Nat := if p.1 then (2 ^ 64 - p.2) % 2 ^ 64 else p.2

/-- `strtoul`: `0` when nothing is converted, `ULONG_MAX` when the magnitude is out of range. -/
def strtoul (text : List UInt8) : Nat :=
  match strtol text with
  | none => 0
  | some p => if p.2 < 2 ^ 64 then unsignedValue p else 2 ^ 64 - 1

def stoull (text : List UInt8) : Except StoiFailure Nat :=
  match strtol text with
  | none => .error .invalidArgument
  | some p => if p.2 < 2 ^ 64 then .ok (unsignedValue p) else .error .outOfRange

/-! ## Digits -/

theorem digitsValue_append (xs ys : List UInt8) :
    digitsValue (xs ++ ys) = digitsValue xs * 10 ^ ys.length + digitsValue ys := by
  have hfold : ∀ (zs : List UInt8) (n : Nat),
      zs.foldl (fun n b => 10 * n + (b.toNat - 48)) n = n * 10 ^ zs.length + digitsValue zs := by
    intro zs
    induction zs with
    | nil => intro n; simp [digitsValue]
    | cons z zs ih =>
      intro n
      simp only [foldl_cons, digitsValue, length_cons]
      rw [ih, ih (10 * 0 + (z.toNat - 48)), pow_succ]
      ring
  rw [digitsValue, foldl_append, hfold]
  rfl

theorem digitsValue_singleton (b : UInt8) : digitsValue [b] = b.toNat - 48 := by
  simp [digitsValue]

theorem toNat_digitChar {d : Nat} (hd : d < 10) :
    (UInt8.ofNat (digitChar d).toNat).toNat = 48 + d := by
  interval_cases d <;> rfl

variable {n : Nat} {text rest : List UInt8} {p : Bool × Nat}

theorem decimal_of_lt (hn : n < 10) : decimal n = [UInt8.ofNat (digitChar n).toNat] := by
  simp [decimal, toDigits_of_lt_base hn]

theorem decimal_of_ge (hn : 10 ≤ n) :
    decimal n = decimal (n / 10) ++ [UInt8.ofNat (digitChar (n % 10)).toNat] := by
  simp [decimal, toDigits_of_base_le (by decide) hn]

theorem decimal_ne_nil (n : Nat) : decimal n ≠ [] := by
  simp [decimal]

theorem isDigit_of_mem_decimal (n : Nat) : ∀ b ∈ decimal n, isDigit b = true := by
  induction n using Nat.strongRecOn with
  | ind n ih =>
    intro b hb
    by_cases hn : n < 10
    · grind [isDigit, decimal_of_lt, toNat_digitChar]
    · grind [isDigit, decimal_of_ge, toNat_digitChar]

theorem digitsValue_decimal (n : Nat) : digitsValue (decimal n) = n := by
  induction n using Nat.strongRecOn with
  | ind n ih =>
    by_cases hn : n < 10
    · rw [decimal_of_lt hn, digitsValue_singleton, toNat_digitChar hn]
      omega
    · rw [decimal_of_ge (by omega), digitsValue_append, ih (n / 10) (by omega),
        digitsValue_singleton, toNat_digitChar (mod_lt n (by decide))]
      simp
      omega

theorem decimal_injective {m : Nat} (h : decimal m = decimal n) : m = n := by
  rw [← digitsValue_decimal m, h, digitsValue_decimal]

theorem length_decimal_le {k : Nat} (hk : 0 < k) (hn : n < 10 ^ k) : (decimal n).length ≤ k := by
  induction k generalizing n with
  | zero => omega
  | succ k ih => grind [decimal_of_lt, decimal_of_ge]

/-! ## Numerals inside a longer text -/

theorem takeSign_append {bs : List UInt8} (rest : List UInt8) (hbs : bs ≠ []) :
    takeSign (bs ++ rest) = ((takeSign bs).1, (takeSign bs).2 ++ rest) := by
  cases bs with
  | nil => exact absurd rfl hbs
  | cons b bs =>
    by_cases h45 : b = 45
    · subst h45; rfl
    by_cases h43 : b = 43
    · subst h43; rfl
    simp [takeSign, h45, h43]

theorem signedText_append (rest : List UInt8) (htext : (signedText text).2 ≠ []) :
    signedText (text ++ rest) = ((signedText text).1, (signedText text).2 ++ rest) := by
  have hdrop : text.dropWhile isSpace ≠ [] := by
    intro h
    exact htext (by rw [signedText, h]; rfl)
  have hempty : (text.dropWhile isSpace).isEmpty = false := by
    simpa using hdrop
  rw [signedText, dropWhile_append, hempty]
  exact takeSign_append rest hdrop

theorem strtol_eq_some_iff :
    strtol text = some p ↔
      (signedText text).2.takeWhile isDigit ≠ [] ∧
        p = ((signedText text).1, digitsValue ((signedText text).2.takeWhile isDigit)) := by
  simp only [strtol]
  split
  · rename_i h
    simp [h]
  · grind

/-- Octets after a text do not change the number read from it if the numeral ends inside the text;
    otherwise their leading digits are read as further digits. -/
theorem strtol_append (rest : List UInt8) (hp : strtol text = some p) :
    strtol (text ++ rest) =
      some (p.1, if endsInNumeral text then
        p.2 * 10 ^ (rest.takeWhile isDigit).length + digitsValue (rest.takeWhile isDigit)
        else p.2) := by
  obtain ⟨hdigits, rfl⟩ := strtol_eq_some_iff.1 hp
  have htext : (signedText text).2 ≠ [] := fun h => hdigits (by rw [h]; rfl)
  have happ := signedText_append rest htext
  by_cases hend : endsInNumeral text = true
  · -- the numeral reaches the end of the text
    have hall : (signedText text).2.takeWhile isDigit = (signedText text).2 :=
      takeWhile_eq_self_iff.2 (by simpa [endsInNumeral] using hend)
    have htake : ((signedText text).2 ++ rest).takeWhile isDigit
        = (signedText text).2 ++ rest.takeWhile isDigit := by
      rw [takeWhile_append, if_pos (by rw [hall])]
    rw [strtol_eq_some_iff, happ, htake, if_pos hend, hall, digitsValue_append]
    exact ⟨by simp [htext], rfl⟩
  · -- a non-digit inside the text ends it
    have hlen : ¬ ((signedText text).2.takeWhile isDigit).length = (signedText text).2.length := by
      intro hlen
      have hbegins : (signedText text).2.takeWhile isDigit <+: (signedText text).2 :=
        takeWhile_prefix isDigit
      have hall := hbegins.eq_of_length hlen
      exact hend (by simpa [endsInNumeral] using takeWhile_eq_self_iff.1 hall)
    have htake : ((signedText text).2 ++ rest).takeWhile isDigit
        = (signedText text).2.takeWhile isDigit := by
      rw [takeWhile_append, if_neg hlen]
    rw [strtol_eq_some_iff, happ, htake, if_neg hend]
    exact ⟨hdigits, rfl⟩

theorem stoi_lt {n : Int} (h : stoi text = .ok n) : n < 2 ^ 31 := by
  unfold stoi at h
  split at h
  · cases h
  · grind

theorem signedValue_inj {sign : Bool} {m : Nat} :
    signedValue (sign, m) = signedValue (sign, n) ↔ m = n := by
  cases sign <;> simp [signedValue]

/-- A number is read from a longer text too exactly when its numeral ends inside the text, or no
    digit follows, or all of it is zeros. -/
theorem stoi_append_eq_iff {n : Int} (rest : List UInt8) (h : stoi text = .ok n) :
    stoi (text ++ rest) = .ok n ↔
      endsInNumeral text = false ∨ rest.takeWhile isDigit = [] ∨
        n = 0 ∧ digitsValue (rest.takeWhile isDigit) = 0 := by
  unfold stoi at h
  cases hp : strtol text with
  | none =>
    rw [hp] at h
    cases h
  | some p =>
    obtain ⟨sign, m⟩ := p
    rw [hp] at h
    dsimp only at h
    split at h
    · rename_i hrange
      obtain rfl := Except.ok.inj h
      have hzero : signedValue (sign, m) = 0 ↔ m = 0 := by
        cases sign <;> simp [signedValue]
      generalize hdigits : rest.takeWhile isDigit = digits
      have happ := strtol_append rest hp
      rw [hdigits] at happ
      -- the two numbers agree exactly when the magnitudes do
      have hsame : stoi (text ++ rest) = .ok (signedValue (sign, m)) ↔
          (if endsInNumeral text then m * 10 ^ digits.length + digitsValue digits else m) = m := by
        simp only [stoi, happ]
        generalize (if endsInNumeral text then
          m * 10 ^ digits.length + digitsValue digits else m) = m'
        constructor
        · grind [signedValue_inj]
        · rintro rfl
          rw [if_pos hrange]
      rw [hsame, hzero]
      cases endsInNumeral text with
      | false => simp
      | true =>
        cases digits with
        | nil => simp [digitsValue]
        | cons d ds =>
          have hpow : m * 10 ≤ m * 10 ^ (d :: ds).length := by
            rw [length_cons, pow_succ]
            exact Nat.mul_le_mul_left m (Nat.le_mul_of_pos_left 10 (by positivity))
          simp only [if_true, Bool.true_eq_false, reduceCtorEq, false_or]
          constructor
          · intro heq
            omega
          · rintro ⟨rfl, hds⟩
            simp [hds]
    · cases h

theorem strtol_decimal (n : Nat) : strtol (decimal n) = some (false, n) := by
  have hall := isDigit_of_mem_decimal n
  obtain ⟨b, bs, hdec⟩ := exists_cons_of_ne_nil (decimal_ne_nil n)
  have hb : 48 ≤ b.toNat ∧ b.toNat ≤ 57 := by
    simpa [isDigit] using hall b (by simp [hdec])
  have hspace : isSpace b = false := by
    simp [isSpace]
    omega
  have hsigned : signedText (decimal n) = (false, decimal n) := by
    rw [signedText, hdec, dropWhile_cons, hspace]
    have h45 : b ≠ 45 := by rintro rfl; simp at hb
    have h43 : b ≠ 43 := by rintro rfl; simp at hb
    simp [takeSign, h45, h43]
  have hself : (decimal n).takeWhile isDigit = decimal n := takeWhile_eq_self_iff.2 hall
  rw [strtol_eq_some_iff, hsigned, hself, digitsValue_decimal]
  exact ⟨decimal_ne_nil n, rfl⟩

theorem strtoul_decimal (hn : n < 2 ^ 64) : strtoul (decimal n) = n := by
  simp only [strtoul, strtol_decimal, if_pos hn]
  rfl

theorem stoull_decimal (hn : n < 2 ^ 64) : stoull (decimal n) = .ok n := by
  simp only [stoull, strtol_decimal, if_pos hn]
  rfl

theorem strtol_decimalInt (n : Int) : strtol (decimalInt n) = some (decide (n < 0), n.natAbs) := by
  by_cases hn : 0 ≤ n
  · grind [decimalInt, strtol_decimal]
  have hneg : n < 0 := by omega
  have habs : (-n).toNat = n.natAbs := by omega
  have hsigned : signedText (decimalInt n) = (true, decimal n.natAbs) := by
    rw [decimalInt, if_neg hn, habs]
    rfl
  have hself : (decimal n.natAbs).takeWhile isDigit = decimal n.natAbs :=
    takeWhile_eq_self_iff.2 (isDigit_of_mem_decimal _)
  rw [strtol_eq_some_iff, hsigned, hself, digitsValue_decimal, decide_eq_true hneg]
  exact ⟨decimal_ne_nil _, rfl⟩

theorem signedValue_natAbs (n : Int) : signedValue (decide (n < 0), n.natAbs) = n := by
  unfold signedValue
  by_cases hn : n < 0
  · rw [if_pos (decide_eq_true hn)]
    omega
  · rw [if_neg (by simpa using hn)]
    omega

theorem decimalInt_injective {m n : Int} (h : decimalInt m = decimalInt n) : m = n := by
  have hread := strtol_decimalInt m
  rw [h, strtol_decimalInt] at hread
  rw [← signedValue_natAbs m, ← signedValue_natAbs n, ← Option.some.inj hread]

/-- A number printed by `std::to_string`, followed by no digit, is read back by `std::stoi`. -/
theorem stoi_decimalInt_append {n : Int} (hn : -2 ^ 31 ≤ n ∧ n < 2 ^ 31)
    (hrest : rest.takeWhile isDigit = []) : stoi (decimalInt n ++ rest) = .ok n := by
  have happ : strtol (decimalInt n ++ rest) = some (decide (n < 0), n.natAbs) := by
    rw [strtol_append rest (strtol_decimalInt n), hrest]
    simp [digitsValue]
  simp only [stoi, happ, signedValue_natAbs, if_pos hn]

theorem le_of_stoi_decimal_append {m : Int} (h : stoi (decimal n ++ rest) = .ok m) :
    (n : Int) ≤ m := by
  have happ := strtol_append rest (strtol_decimal n)
  generalize hmag : (if endsInNumeral (decimal n) then
    n * 10 ^ (rest.takeWhile isDigit).length + digitsValue (rest.takeWhile isDigit) else n) = k
    at happ
  have hle : n ≤ k := by
    rw [← hmag]
    split
    · exact Nat.le_add_right_of_le (Nat.le_mul_of_pos_right n (by positivity))
    · exact le_refl n
  simp only [stoi, happ] at h
  split at h
  · rw [← Except.ok.inj h]
    exact Int.ofNat_le.2 hle
  · cases h

example : stoi (ascii " -17x") = .ok (-17) := by decide

/-! ## Signed 64-bit integers

Arithmetic that leaves the range wraps around to the balanced residue. -/

/-- The number can be stored in an `int64_t`. -/
def FitsInt64 (x : Int) : Prop := -(2 ^ 63) ≤ x ∧ x < 2 ^ 63

instance (x : Int) : Decidable (FitsInt64 x) := inferInstanceAs (Decidable (_ ∧ _))

theorem bmod_eq_self_iff {x : Int} : x.bmod (2 ^ 64) = x ↔ FitsInt64 x := by
  unfold FitsInt64
  rw [Int.bmod_def]
  omega

theorem bmod_natCast_nonneg_iff {n : Nat} (hn : n < 2 ^ 64) :
    0 ≤ (n : Int).bmod (2 ^ 64) ↔ n < 2 ^ 63 := by
  rw [Int.bmod_def]
  omega

theorem bmod_natCast_of_lt {n : Nat} (hn : n < 2 ^ 63) : (n : Int).bmod (2 ^ 64) = n :=
  bmod_eq_self_iff.2 ⟨by omega, by omega⟩

end NdnMulticast.Lib
