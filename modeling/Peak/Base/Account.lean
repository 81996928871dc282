import Mathlib.Algebra.Group.Defs
import Mathlib.Tactic.Common

/-! Runs of a system that keeps accounts: if what every step does to a value is
what it was charged, the value after a run is the one before and all charges. -/
namespace Account

variable {σ α G : Type*} {step : σ → α → Option σ} {charge : σ → α → G} {s s' : σ} {actions : List α}

/-- One action after another. A refused one ends the run without a state. -/
def run (step : σ → α → Option σ) (s : σ) : List α → Option σ
  | [] => some s
  | a :: rest => (step s a).bind fun s => run step s rest

/-- The charges of a run. -/
def charges [Add G] [Zero G] (step : σ → α → Option σ) (charge : σ → α → G) (s : σ) : List α → G
  | [] => 0
  | a :: rest => charge s a + ((step s a).elim 0 fun s => charges step charge s rest)

/-- What every step keeps is kept by a run. -/
theorem run_keeps (Inv : σ → Prop) (hKeep : ∀ s a s', Inv s → step s a = some s' → Inv s')
    (hStart : Inv s) (hRun : run step s actions = some s') : Inv s' := by
  induction actions generalizing s with
  | nil =>
      cases hRun
      exact hStart
  | cons a rest ih =>
      obtain ⟨next, hStep, hRest⟩ := Option.bind_eq_some_iff.mp hRun
      exact ih (hKeep s a next hStart hStep) hRest

/-- Every step is charged what it does to the value, so a run is. -/
theorem value_run [AddMonoid G] (Inv : σ → Prop) (value : σ → G)
    (hKeep : ∀ s a s', Inv s → step s a = some s' → Inv s')
    (hStep : ∀ s a s', Inv s → step s a = some s' → value s' = value s + charge s a)
    (hStart : Inv s) (hRun : run step s actions = some s') :
    value s' = value s + charges step charge s actions := by
  induction actions generalizing s with
  | nil =>
      cases hRun
      exact (add_zero _).symm
  | cons a rest ih =>
      obtain ⟨next, hFirst, hRest⟩ := Option.bind_eq_some_iff.mp hRun
      rw [ih (hKeep s a next hStart hFirst) hRest, hStep s a next hStart hFirst, charges, hFirst, add_assoc]
      rfl

end Account
