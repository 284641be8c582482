/-
  Rules for programs that return a value or stop with an error.

  `Ends E Q x` is the outcome triple of such a program: if it returns, its value
  meets `Q`, and if it stops, its error meets `E`.  It composes along `bind`.
-/

namespace NdnMulticast.Lib

open Except

variable {ε ε' α β σ ι : Type _} {x : Except ε α} {f : σ → ι → Except ε σ} {bs : List ι}

theorem bind_eq_ok_iff {f : α → Except ε β} {b : β} :
    (x >>= f) = .ok b ↔ ∃ a, x = .ok a ∧ f a = .ok b := by
  cases x with
  | error e => simp [bind, Except.bind]
  | ok a => simp [bind, Except.bind]

theorem exists_eq_ok_of_isOk (h : x.isOk = true) : ∃ a, x = .ok a := by
  cases x with
  | error e => cases h
  | ok a => exact ⟨a, rfl⟩

theorem mapError_eq_ok_iff {f : ε → ε'} {a : α} : x.mapError f = .ok a ↔ x = .ok a := by
  cases x with
  | error e =>
    constructor
    · intro h
      cases h
    · intro h
      cases h
  | ok b =>
    constructor
    · intro h
      exact congrArg ok (ok.inj h)
    · intro h
      exact congrArg ok (ok.inj h)

theorem foldlM_invariant (I : σ → Prop)
    (hstep : ∀ acc, ∀ b ∈ bs, ∀ acc', I acc → f acc b = .ok acc' → I acc') {acc acc' : σ}
    (h : bs.foldlM f acc = .ok acc') (hacc : I acc) : I acc' := by
  induction bs generalizing acc with
  | nil =>
    obtain rfl : acc = acc' := ok.inj h
    exact hacc
  | cons b bs ih =>
    obtain ⟨mid, hmid, h⟩ := bind_eq_ok_iff.1 h
    refine ih (fun acc b hb => hstep acc b (.tail _ hb)) h ?_
    exact hstep acc b (.head _) mid hacc hmid

/-- A loop that accepts at most one element of a kind: when it returns, the value is that of the
    first such element, or the initial one.  `passed`: none may follow. -/
theorem foldlM_find? (kind : ι → Bool) (get : σ → α) (value : ι → α) (passed : σ → Prop)
    (hkind : ∀ acc b acc', f acc b = .ok acc' → kind b = true →
      ¬ passed acc ∧ passed acc' ∧ get acc' = value b)
    (hother : ∀ acc b acc', f acc b = .ok acc' → kind b = false →
      (passed acc → passed acc') ∧ get acc' = get acc) {acc acc' : σ}
    (h : bs.foldlM f acc = .ok acc') :
    (passed acc → bs.find? kind = none) ∧
      get acc' = ((bs.find? kind).map value).getD (get acc) := by
  induction bs generalizing acc with
  | nil =>
    obtain rfl : acc = acc' := ok.inj h
    exact ⟨fun _ => rfl, rfl⟩
  | cons b bs ih =>
    obtain ⟨mid, hmid, h⟩ := bind_eq_ok_iff.1 h
    obtain ⟨hnone, hget⟩ := ih h
    cases hb : kind b with
    | true =>
      obtain ⟨hnot, hpassed, hvalue⟩ := hkind acc b mid hmid hb
      rw [hnone hpassed] at hget
      simp only [List.find?_cons_of_pos hb]
      exact ⟨fun hacc => absurd hacc hnot, hget.trans hvalue⟩
    | false =>
      obtain ⟨hpassed, hsame⟩ := hother acc b mid hmid hb
      have hfind : (b :: bs).find? kind = bs.find? kind := by simp [hb]
      rw [hfind, hget, hsame]
      exact ⟨fun hacc => hnone (hpassed hacc), rfl⟩

/-- The outcome of a program. -/
def Ends (E : ε → Prop) (Q : α → Prop) : Except ε α → Prop
  | .ok a => Q a
  | .error e => E e

namespace Ends

variable {E : ε → Prop} {Q : α → Prop} {x : Except ε α}

theorem mono {R : α → Prop} (hx : Ends E Q x) (hQR : ∀ a, Q a → R a) : Ends E R x := by
  cases x with
  | error e => exact hx
  | ok a => exact hQR a hx

theorem bind {R : β → Prop} {f : α → Except ε β} (hx : Ends E Q x)
    (hf : ∀ a, Q a → Ends E R (f a)) :
    Ends E R (x >>= f) := by
  cases x with
  | error e => exact hx
  | ok a => exact hf a hx

/-- A program whose errors are impossible returns. -/
theorem exists_ok (hx : Ends E Q x) (hE : ∀ e, ¬ E e) : ∃ a, x = .ok a ∧ Q a := by
  cases x with
  | error e => exact absurd hx (hE e)
  | ok a => exact ⟨a, rfl, hx⟩

end Ends

end NdnMulticast.Lib
