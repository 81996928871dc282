import Mathlib.Algebra.Group.Nat.Defs
import Mathlib.Algebra.Ring.Int.Defs
import Mathlib.Tactic.Common

/-! Signed words of 64 bits, as the integers they stand for. -/
namespace Words

/-- The integers that a signed word of 64 bits stands for. -/
def Fits (x : Int) : Prop := -(2 ^ 63) ≤ x ∧ x < 2 ^ 63

instance (x : Int) : Decidable (Fits x) := inferInstanceAs (Decidable (_ ∧ _))

/-- What the word holds when the exact result of an operation is `x`. -/
def signed (x : Int) : Int := Int.bmod x (2 ^ 64)

theorem fits_signed (x : Int) : Fits (signed x) := by
  have hLow := Int.le_bmod (x := x) (m := 2 ^ 64) (by decide)
  have hHigh := Int.bmod_lt (x := x) (m := 2 ^ 64) (by decide)
  simp only [Fits, signed]
  omega

theorem signed_of_fits {x : Int} (h : Fits x) : signed x = x := by
  simp only [Fits] at h
  apply Int.bmod_eq_of_le_mul_two <;> omega

theorem signed_eq_iff {x : Int} : signed x = x ↔ Fits x := by
  constructor
  · intro h
    rw [← h]
    exact fits_signed x
  · exact signed_of_fits

/-- Only a result below the words is held as something larger. -/
theorem signed_le {x : Int} (h : -(2 ^ 63) ≤ x) : signed x ≤ x := by
  have hHigh := (fits_signed x).2
  by_cases hx : x < 2 ^ 63
  · exact Int.le_of_eq (signed_of_fits ⟨h, hx⟩)
  · omega

end Words
