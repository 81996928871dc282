import Mathlib.Logic.Relation
import Mathlib.Tactic.Common

/-! Loops without a bound of their own: a body that either goes again or is
done, run for a number of rounds. -/
namespace Loop

/-- What one round comes to. -/
inductive Step (σ : Type*) where
  | again (s : σ)
  | done (s : σ)
deriving DecidableEq, Repr

/-- The state, whether the loop has ended or not. -/
def Step.state {σ : Type*} : Step σ → σ
  | .again s => s
  | .done s => s

variable {σ : Type*} {body : σ → Step σ} {s s' : σ}

/-- At most `fuel` rounds of the loop. -/
def run (body : σ → Step σ) : Nat → σ → Step σ
  | 0, s => .again s
  | fuel + 1, s =>
      match body s with
      | .done s' => .done s'
      | .again s' => run body fuel s'

/-- The loop ends after finitely many rounds. -/
def Ends (body : σ → Step σ) (s : σ) : Prop := ∃ fuel s', run body fuel s = .done s'

/-- One round that goes again, from state to state. -/
def Again (body : σ → Step σ) (s s' : σ) : Prop := body s = .again s'

theorem run_succ_of_done (h : body s = .done s') (fuel : Nat) :
    run body (fuel + 1) s = .done s' := by
  simp only [run, h]

theorem run_succ_of_again (h : body s = .again s') (fuel : Nat) :
    run body (fuel + 1) s = run body fuel s' := by
  simp only [run, h]

/-- The last round of a run that has ended starts in a state that the rounds
before lead to. -/
theorem last_round {fuel : Nat} {final : σ} (h : run body fuel s = .done final) :
    ∃ last, Relation.ReflTransGen (Again body) s last ∧ body last = .done final := by
  induction fuel generalizing s with
  | zero => cases h
  | succ fuel ih =>
      cases hBody : body s with
      | done s' =>
          rw [run_succ_of_done hBody] at h
          cases h
          exact ⟨s, .refl, hBody⟩
      | again s' =>
          rw [run_succ_of_again hBody] at h
          obtain ⟨last, hReach, hLast⟩ := ih h
          exact ⟨last, .head hBody hReach, hLast⟩

/-- A run that has not ended yet is in a state that its rounds lead to. -/
theorem unfinished {fuel : Nat} {later : σ} (h : run body fuel s = .again later) :
    Relation.ReflTransGen (Again body) s later := by
  induction fuel generalizing s with
  | zero =>
      cases h
      exact .refl
  | succ fuel ih =>
      cases hBody : body s with
      | done s' =>
          rw [run_succ_of_done hBody] at h
          cases h
      | again s' =>
          rw [run_succ_of_again hBody] at h
          exact .head hBody (ih h)

/-- Rounds that go again can be run one after another. -/
theorem run_of_reach (fuel : Nat) (hReach : Relation.ReflTransGen (Again body) s s') :
    ∃ rounds, run body (rounds + fuel) s = run body fuel s' := by
  induction hReach using Relation.ReflTransGen.head_induction_on with
  | refl => exact ⟨0, by rw [Nat.zero_add]⟩
  | head hAgain _ ih =>
      obtain ⟨rounds, hRun⟩ := ih
      refine ⟨rounds + 1, ?_⟩
      rw [Nat.add_right_comm, run_succ_of_again hAgain, hRun]

/-- A loop that is led to a state where it is done ends there. -/
theorem ends_at {final : σ} (hReach : Relation.ReflTransGen (Again body) s s')
    (hDone : body s' = .done final) : ∃ fuel, run body fuel s = .done final := by
  obtain ⟨rounds, hRun⟩ := run_of_reach 1 hReach
  exact ⟨rounds + 1, hRun.trans (run_succ_of_done hDone 0)⟩

/-- The loop ends if every round that goes again lowers a measure. -/
theorem ends_of_measure (measure : σ → Nat)
    (hRound : ∀ s₁ s₂, Relation.ReflTransGen (Again body) s s₁ → body s₁ = .again s₂ →
      measure s₂ < measure s₁) :
    Ends body s := by
  induction hMeasure : measure s using Nat.strongRecOn generalizing s with
  | _ bound ih =>
      cases hBody : body s with
      | done s' => exact ⟨1, s', run_succ_of_done hBody 0⟩
      | again s' =>
          have hLess := hRound s s' .refl hBody
          obtain ⟨fuel, final, hRun⟩ := ih _ (hMeasure ▸ hLess)
            (fun s₁ s₂ hReach => hRound s₁ s₂ (.head hBody hReach)) rfl
          exact ⟨fuel + 1, final, by rw [run_succ_of_again hBody, hRun]⟩

/-- The loop does not end if it is led into states that always go again. -/
theorem not_ends_of_trap (Inv : σ → Prop)
    (hReach : Relation.ReflTransGen (Again body) s s') (hTrap : Inv s') (hRound : ∀ s, Inv s → ∃ s', body s = .again s' ∧ Inv s') :
    ¬ Ends body s := by
  induction hReach using Relation.ReflTransGen.head_induction_on with
  | refl =>
      rintro ⟨fuel, final, hRun⟩
      induction fuel generalizing s' with
      | zero => cases hRun
      | succ fuel ih =>
          obtain ⟨next, hBody, hNext⟩ := hRound _ hTrap
          rw [run_succ_of_again hBody] at hRun
          exact ih hNext hRun
  | head hAgain _ ih =>
      rintro ⟨fuel, final, hRun⟩
      cases fuel with
      | zero => cases hRun
      | succ fuel =>
          rw [run_succ_of_again hAgain] at hRun
          exact ih ⟨fuel, final, hRun⟩

end Loop
