import Mathlib.Tactic.Common

/-! Runs of a system whose steps may stop with an error, restricted to steps
that are admitted in the state they are taken from. -/
namespace Run

variable {σ α ε : Type*} {step : σ → α → Except ε σ} {admitted admitted' : σ → α → Prop}
variable {start s : σ}

/-- The states reached from `start` by admitted steps that do not stop with an
error. -/
inductive Reached (step : σ → α → Except ε σ) (admitted : σ → α → Prop) (start : σ) : σ → Prop where
  | start : Reached step admitted start start
  | step {s s' : σ} {a : α} (prior : Reached step admitted start s) (hAdmitted : admitted s a)
      (hStep : step s a = .ok s') : Reached step admitted start s'

/-- What holds at the start and is kept by every admitted step holds in every
state reached. -/
theorem Reached.invariant (Inv : σ → Prop) (hReached : Reached step admitted start s)
    (hStart : Inv start)
    (hKeep : ∀ s a s', Inv s → admitted s a → step s a = .ok s' → Inv s') : Inv s := by
  induction hReached with
  | start => exact hStart
  | step prior hAdmitted hStep ih => exact hKeep _ _ _ ih hAdmitted hStep

/-- Admitting more steps reaches every state that was reached before. -/
theorem Reached.mono (hReached : Reached step admitted start s)
    (hMore : ∀ s a, admitted s a → admitted' s a) : Reached step admitted' start s := by
  induction hReached with
  | start => exact .start
  | step prior hAdmitted hStep ih => exact .step ih (hMore _ _ hAdmitted) hStep

/-- A computation in two parts succeeds if both parts do. -/
theorem bind_eq_ok.{u, v} {ε : Type u} {β γ : Type v} {x : Except ε β} {f : β → Except ε γ} {r : γ}
    (h : (x >>= f) = .ok r) : ∃ a, x = .ok a ∧ f a = .ok r := by
  cases x with
  | error e => cases h
  | ok a => exact ⟨a, rfl, h⟩

theorem bind_ok.{u, v} {ε : Type u} {β γ : Type v} {x : Except ε β} {f : β → Except ε γ}
    (hFirst : ∃ a, x = .ok a) (hRest : ∀ a, x = .ok a → ∃ r, f a = .ok r) :
    ∃ r, (x >>= f) = .ok r := by
  obtain ⟨a, rfl⟩ := hFirst
  exact hRest a rfl

/-- A computation in two parts stops where one of them does. -/
theorem bind_eq_error.{u, v} {ε : Type u} {β γ : Type v} {x : Except ε β} {f : β → Except ε γ}
    {e : ε} (h : (x >>= f) = .error e) : x = .error e ∨ ∃ a, x = .ok a ∧ f a = .error e := by
  cases x with
  | error e' =>
      cases h
      exact Or.inl rfl
  | ok a => exact Or.inr ⟨a, rfl, h⟩

/-- Two computations that stop alike, or with related results. -/
inductive Alike {ε' β : Type*} (f : ε → ε') (R : α → β → Prop) : Except ε' α → Except ε β → Prop where
  | ok {a : α} {b : β} (h : R a b) : Alike f R (.ok a) (.ok b)
  | error (e : ε) : Alike f R (.error (f e)) (.error e)

/-- Computations in two parts are alike if both parts are. -/
theorem Alike.bind.{u, v} {ε ε' : Type u} {β β' γ γ' : Type v} {f : ε → ε'}
    {R : β → β' → Prop} {S : γ → γ' → Prop} {x : Except ε' β} {y : Except ε β'}
    {k : β → Except ε' γ} {k' : β' → Except ε γ'} (h : Alike f R x y)
    (hRest : ∀ b b', R b b' → y = .ok b' → Alike f S (k b) (k' b')) :
    Alike f S (x >>= k) (y >>= k') := by
  cases h with
  | ok h => exact hRest _ _ h rfl
  | error e => exact .error e

theorem Alike.mono {ε' β : Type*} {f : ε → ε'} {R S : α → β → Prop} {x : Except ε' α}
    {y : Except ε β} (h : Alike f R x y) (hMore : ∀ a b, R a b → S a b) : Alike f S x y := by
  cases h with
  | ok h => exact .ok (hMore _ _ h)
  | error e => exact .error e

theorem Alike.of_eq_ok {ε' β : Type*} {f : ε → ε'} {R : α → β → Prop} {x : Except ε' α}
    {y : Except ε β} {a : α} (h : Alike f R x y) (hOk : x = .ok a) : ∃ b, y = .ok b ∧ R a b := by
  subst hOk
  cases h with
  | ok h => exact ⟨_, rfl, h⟩

theorem Alike.of_eq_error {ε' β : Type*} {f : ε → ε'} {R : α → β → Prop} {x : Except ε' α}
    {y : Except ε β} {e' : ε'} (h : Alike f R x y) (hError : x = .error e') :
    ∃ e, y = .error e ∧ f e = e' := by
  subst hError
  cases h with
  | error e => exact ⟨e, rfl, rfl⟩

/-- What every step keeps is kept by the steps of a list. -/
theorem foldlM_keeps (Inv : σ → Prop) (hKeep : ∀ s a s', Inv s → step s a = .ok s' → Inv s')
    {actions : List α} {s' : σ} (hStart : Inv s) (h : actions.foldlM step s = .ok s') : Inv s' := by
  induction actions generalizing s with
  | nil =>
      cases h
      exact hStart
  | cons a rest ih =>
      rw [List.foldlM_cons] at h
      obtain ⟨next, hFirst, hRest⟩ := bind_eq_ok h
      exact ih (hKeep _ _ _ hStart hFirst) hRest

section Drive

variable [∀ s a, Decidable (admitted s a)]

/-- Take the listed steps one after another, as long as they are admitted. -/
def drive (step : σ → α → Except ε σ) (admitted : σ → α → Prop) [∀ s a, Decidable (admitted s a)] :
    σ → List α → Option σ
  | s, [] => some s
  | s, a :: rest =>
      if admitted s a then
        match step s a with
        | .ok s' => drive step admitted s' rest
        | .error _ => none
      else none

/-- The listed steps lead to a state that is reached. -/
theorem reached_of_drive {actions : List α} {s' : σ} (hPrior : Reached step admitted start s)
    (h : drive step admitted s actions = some s') : Reached step admitted start s' := by
  induction actions generalizing s with
  | nil =>
      cases h
      exact hPrior
  | cons a rest ih =>
      simp only [drive] at h
      split_ifs at h with hAdmitted
      cases hStep : step s a with
      | error e =>
          rw [hStep] at h
          cases h
      | ok next =>
          rw [hStep] at h
          exact ih (hPrior.step hAdmitted hStep) h

/-- A run of listed steps from what an initialisation makes. -/
def trial {ρ ε' : Type*} (made : Except ε' (Option ρ)) (start : ρ → σ) (step : σ → α → Except ε σ)
    (admitted : σ → α → Prop) [∀ s a, Decidable (admitted s a)] (actions : List α) : Option σ :=
  match made with
  | .ok (some r) => drive step admitted (start r) actions
  | _ => none

/-- What is seen at the end of such a run is seen in a state reached. -/
theorem reached_of_trial {ρ ε' β : Type*} {made : Except ε' (Option ρ)} {start : ρ → σ}
    {actions : List α} {view : σ → β} {v : β}
    (h : (trial made start step admitted actions).map view = some v) :
    ∃ r s, made = .ok (some r) ∧ Reached step admitted (start r) s ∧ view s = v := by
  simp only [trial] at h
  split at h
  · next r =>
      obtain ⟨s, hDrive, hView⟩ := Option.map_eq_some_iff.mp h
      exact ⟨r, s, rfl, reached_of_drive .start hDrive, hView⟩
  · cases h

end Drive

/-- What a computation stops with. -/
def failure : Except ε α → Option ε
  | .ok _ => none
  | .error e => some e

theorem eq_error_of_failure {x : Except ε α} {e : ε} (h : failure x = some e) : x = .error e := by
  cases x with
  | ok a => cases h
  | error e' =>
      cases h
      rfl

end Run
