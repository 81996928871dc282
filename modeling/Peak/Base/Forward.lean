import Mathlib.Algebra.Ring.Int.Defs
import Mathlib.Tactic.Common

/-! The forward part of a sequence of readings: what is left when every step
that goes back counts for nothing. -/
namespace Forward

variable {α : Type*}

/-- The steps of a reading `u`, without those that go back. -/
def total (u : α → Int) : α → List α → Int
  | _, [] => 0
  | prev, a :: rest => max 0 (u a - u prev) + total u a rest

theorem total_nonneg (u : α → Int) (prev : α) (readings : List α) : 0 ≤ total u prev readings := by
  induction readings generalizing prev with
  | nil => exact Int.le_refl 0
  | cons a rest ih =>
      have hRest := ih a
      simp only [total]
      omega

/-- A step at the end adds what it goes forward. -/
theorem total_concat (u : α → Int) (prev : α) (readings : List α) (a : α) :
    total u prev (readings ++ [a]) =
      total u prev readings + max 0 (u a - u (readings.getLastD prev)) := by
  induction readings generalizing prev with
  | nil => exact Int.add_comm _ _
  | cons b rest ih => rw [List.cons_append, total, ih, total, List.getLastD_cons, Int.add_assoc]

section Scales

variable (fine coarse : α → Int) (unit : Int)

/-- The coarse reading is the fine one in whole units. -/
def Whole (a : α) : Prop := 0 ≤ fine a - unit * coarse a ∧ fine a - unit * coarse a < unit

/-- A difference of either sign up to a bound. -/
def Within (bound d : Int) : Prop := -bound ≤ d ∧ d ≤ bound

/-- The number of stretches without a step back; `going` says that a stretch is
under way. -/
def stretches : Bool → α → List α → Nat
  | _, _, [] => 0
  | going, prev, a :: rest =>
      if fine prev ≤ fine a then (if going then 0 else 1) + stretches true a rest
      else stretches false a rest

variable {fine coarse unit}

/-- A step forward on the fine scale is none back on the coarse one, and a step
back on the fine scale is none forward on the coarse one. -/
theorem coarse_le {a b : α} (hA : Whole fine coarse unit a) (hB : Whole fine coarse unit b)
    (h : fine a ≤ fine b) : coarse a ≤ coarse b := by
  obtain ⟨hLowA, hHighA⟩ := hA
  obtain ⟨hLowB, hHighB⟩ := hB
  have hUnit : 0 < unit := by omega
  by_contra hLess
  have hStep : unit * (coarse b + 1) ≤ unit * coarse a :=
    Int.mul_le_mul_of_nonneg_left (by omega) (Int.le_of_lt hUnit)
  rw [Int.mul_add, Int.mul_one] at hStep
  omega

/-- What the two totals differ by after one more step at the front. -/
theorem drift_cons {prev a : α} (rest : List α) (hPrev : Whole fine coarse unit prev)
    (hA : Whole fine coarse unit a) :
    total fine prev (a :: rest) - unit * total coarse prev (a :: rest) =
      total fine a rest - unit * total coarse a rest +
        if fine prev ≤ fine a then
          fine a - unit * coarse a - (fine prev - unit * coarse prev)
        else 0 := by
  simp only [total, Int.mul_add]
  split_ifs with hForward
  · have hCoarse := coarse_le hPrev hA hForward
    rw [Int.max_eq_right (by omega), Int.max_eq_right (by omega), Int.mul_sub]
    omega
  · have hCoarse := coarse_le hA hPrev (by omega)
    rw [Int.max_eq_left (by omega), Int.max_eq_left (by omega), Int.mul_zero]
    omega

/-- In a stretch that began at a part `began` of a unit, and in those after it,
the two totals drift apart by less than a unit each. -/
theorem drift_stretches {prev : α} {readings : List α}
    (hWhole : ∀ a ∈ prev :: readings, Whole fine coarse unit a) :
    (∀ began, 0 ≤ began → began < unit →
      Within ((unit - 1) * (1 + stretches fine true prev readings))
        (fine prev - unit * coarse prev - began +
          (total fine prev readings - unit * total coarse prev readings))) ∧
    Within ((unit - 1) * stretches fine false prev readings)
      (total fine prev readings - unit * total coarse prev readings) := by
  induction readings generalizing prev with
  | nil =>
      obtain ⟨hLow, hHigh⟩ := hWhole prev List.mem_cons_self
      simp only [Within, total, stretches, Int.mul_zero, Nat.cast_zero, Int.add_zero, Int.mul_one]
      constructor
      · intro began hBegan hUnit
        omega
      · omega
  | cons a rest ih =>
      have hPrev := hWhole prev List.mem_cons_self
      have hA := hWhole a (List.mem_cons_of_mem _ List.mem_cons_self)
      have hDrift := drift_cons rest hPrev hA
      obtain ⟨hGoing, hStopped⟩ := ih fun b hb => hWhole b (List.mem_cons_of_mem _ hb)
      obtain ⟨hLow, hHigh⟩ := hPrev
      by_cases hForward : fine prev ≤ fine a
      · rw [if_pos hForward] at hDrift
        simp only [stretches, if_pos hForward, hDrift, Within, if_true] at hGoing ⊢
        constructor
        · intro began hBegan hUnit
          have hStretch := hGoing began hBegan hUnit
          simp only [Nat.zero_add]
          omega
        · have hStretch := hGoing _ hLow hHigh
          simp only [Bool.false_eq_true, if_false, Nat.cast_add, Nat.cast_one]
          omega
      · rw [if_neg hForward] at hDrift
        simp only [stretches, if_neg hForward, hDrift, Within, Int.add_zero, Int.mul_add,
          Int.mul_one] at hStopped ⊢
        constructor
        · intro began hBegan hUnit
          omega
        · exact hStopped

end Scales

end Forward
