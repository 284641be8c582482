/-
  Runs of an event-driven machine.

  A machine is a partial step function: `none` means that the event is not enabled in the
  state, or that the machine stops there.
-/

namespace NdnMulticast.Lib

variable {σ ε : Type _}

/-- The events `es` lead from the first state to the last one, each meeting `ok` as it is taken. -/
inductive Run (step : σ → ε → Option σ) (ok : σ → ε → Prop) : σ → List ε → σ → Prop where
  | nil (s : σ) : Run step ok s [] s
  | cons {s s' t : σ} {e : ε} {es : List ε} :
      ok s e → step s e = some s' → Run step ok s' es t → Run step ok s (e :: es) t

namespace Run

variable {step : σ → ε → Option σ} {ok : σ → ε → Prop} {I : σ → Prop} {s t : σ} {es : List ε}

/-- **Invariant rule.**  What every admissible step keeps, every run keeps. -/
theorem invariant (hstep : ∀ s e s', I s → ok s e → step s e = some s' → I s')
    (hrun : Run step ok s es t) (hs : I s) : I t := by
  induction hrun with
  | nil s => exact hs
  | cons hok hs' _ ih => exact ih (hstep _ _ _ hs hok hs')

theorem mono {ok' : σ → ε → Prop} (hok : ∀ s e, ok s e → ok' s e) (hrun : Run step ok s es t) :
    Run step ok' s es t := by
  induction hrun with
  | nil s => exact .nil s
  | cons h hs' _ ih => exact .cons (hok _ _ h) hs' ih

/-- What holds of every event of a run can be added to the side condition. -/
theorem and_of_forall {Q : ε → Prop} (hrun : Run step ok s es t) (hQ : ∀ e ∈ es, Q e) :
    Run step (fun s e => Q e ∧ ok s e) s es t := by
  induction hrun with
  | nil s => exact .nil s
  | cons h hs' _ ih =>
    rw [List.forall_mem_cons] at hQ
    exact .cons ⟨hQ.1, h⟩ hs' (ih hQ.2)

/-- A property of states and one of events hold all along a run iff each step meets a condition `ok`
    that says so of that step, given an invariant `J` that such steps keep. -/
theorem forall_iff_of_step {J : σ → Prop} {P : σ → ε → Prop} (hJI : ∀ s, J s → I s)
    (hok : ∀ s e s', J s → step s e = some s' → (ok s e ↔ P s e ∧ I s'))
    (hstep : ∀ s e s', J s → ok s e → step s e = some s' → J s') (hs : J s) :
    (Run step (fun s e => I s ∧ P s e) s es t ∧ I t) ↔ Run step ok s es t := by
  constructor
  · rintro ⟨hrun, ht⟩
    induction hrun with
    | nil s => exact .nil s
    | @cons s s' t e es hIP hs' htail ih =>
      -- the next state has the property, as the head of the tail or as the end
      have hI' : I s' := by
        cases htail with
        | nil => exact ht
        | cons h _ _ => exact h.1
      have hthis : ok s e := (hok s e s' hs hs').2 ⟨hIP.2, hI'⟩
      exact .cons hthis hs' (ih (hstep s e s' hs hthis hs') ht)
  · intro hrun
    induction hrun with
    | nil s => exact ⟨.nil s, hJI s hs⟩
    | @cons s s' t e es hthis hs' _ ih =>
      obtain ⟨htail, ht⟩ := ih (hstep s e s' hs hthis hs')
      exact ⟨.cons ⟨hJI s hs, ((hok s e s' hs hs').1 hthis).1⟩ hs' htail, ht⟩

/-- The same for a state property alone. -/
theorem forall_state_iff_of_step {J : σ → Prop} (hJI : ∀ s, J s → I s)
    (hok : ∀ s e s', J s → step s e = some s' → (ok s e ↔ I s'))
    (hstep : ∀ s e s', J s → ok s e → step s e = some s' → J s') (hs : J s) :
    (Run step (fun s _ => I s) s es t ∧ I t) ↔ Run step ok s es t := by
  have h : (Run step (fun s _ => I s ∧ True) s es t ∧ I t) ↔ Run step ok s es t :=
    forall_iff_of_step hJI
      (fun s e s' hs hs' => (hok s e s' hs hs').trans (true_and _).to_iff.symm) hstep hs
  simpa only [and_true] using h

/-- Runs can be computed. -/
theorem of_foldlM (h : es.foldlM step s = some t) : Run step (fun _ _ => True) s es t := by
  induction es generalizing s with
  | nil =>
    obtain rfl : s = t := Option.some.inj h
    exact .nil s
  | cons e es ih =>
    rw [List.foldlM_cons] at h
    cases hstep : step s e with
    | none =>
      rw [hstep] at h
      cases h
    | some s' =>
      rw [hstep] at h
      exact .cons trivial hstep (ih h)

section

variable (P : σ → Prop) [DecidablePred P] {Q : σ → Prop}

/-- **A run by computing.**  The events are enabled, and `Q` follows from a decidable property of
    the state they lead to. -/
theorem exists_of_decide [∀ s e, Decidable (ok s e)]
    (h : ((es.foldlM (fun s e => if ok s e then step s e else none) s).any (P ·)) = true)
    (hQ : ∀ t, Run step ok s es t → P t → Q t) : ∃ t, Run step ok s es t ∧ Q t := by
  suffices hend : ∃ t, Run step ok s es t ∧ P t by
    obtain ⟨t, hrun, ht⟩ := hend
    exact ⟨t, hrun, hQ t hrun ht⟩
  clear hQ
  induction es generalizing s with
  | nil => exact ⟨s, .nil s, of_decide_eq_true h⟩
  | cons e es ih =>
    rw [List.foldlM_cons] at h
    by_cases hok : ok s e
    · rw [if_pos hok] at h
      cases hstep : step s e with
      | none =>
        rw [hstep] at h
        cases h
      | some s' =>
        rw [hstep] at h
        obtain ⟨t, hrun, ht⟩ := ih h
        exact ⟨t, .cons hok hstep hrun, ht⟩
    · rw [if_neg hok] at h
      cases h

/-- The same for a side condition on the events that is known to hold. -/
theorem exists_of_forall {C : ε → Prop} (hC : ∀ e ∈ es, C e)
    (h : ((es.foldlM step s).any (P ·)) = true)
    (hQ : ∀ t, Run step (fun _ e => C e) s es t → P t → Q t) :
    ∃ t, Run step (fun _ e => C e) s es t ∧ Q t := by
  cases hfold : es.foldlM step s with
  | none =>
    rw [hfold] at h
    cases h
  | some t =>
    rw [hfold] at h
    have hrun := ((of_foldlM hfold).and_of_forall hC).mono fun _ _ hok => hok.1
    exact ⟨t, hrun, hQ t hrun (of_decide_eq_true h)⟩

end

end Run

end NdnMulticast.Lib
