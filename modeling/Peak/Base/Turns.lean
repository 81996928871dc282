import Mathlib.Data.List.Range
import Mathlib.Tactic.Common

/-! Positions that go around in a ring of slots, as remainders of counters that
only grow, and what is in the slots between two of them. -/
namespace Turns

variable {α : Type*} {size a b c i j k : Nat} {f g : Nat → α}

/-- The position after `i`. -/
def next (size i : Nat) : Nat := if i + 1 = size then 0 else i + 1

theorem next_mod (h : 0 < size) (k : Nat) : next size (k % size) = (k + 1) % size := by
  have hLt := Nat.mod_lt k h
  rw [next, Nat.add_mod]
  split_ifs with hEnd
  · rcases Nat.lt_or_ge 1 size with hMore | hOne
    · rw [Nat.mod_eq_of_lt hMore, hEnd, Nat.mod_self]
    · obtain rfl : size = 1 := by omega
      exact (Nat.mod_one _).symm
  · rw [Nat.mod_eq_of_lt (show 1 < size by omega), Nat.mod_eq_of_lt (show k % size + 1 < size by omega)]

/-- Counters less than a turn apart are at different positions. -/
theorem mod_inj (hLow : i ≤ j) (hTurn : j < i + size) (h : i % size = j % size) : i = j := by
  have hDiv := Nat.sub_mod_eq_zero_of_mod_eq h.symm
  have hLt : j - i < size := by omega
  rw [Nat.mod_eq_of_lt hLt] at hDiv
  omega

/-- A turn from anywhere passes every position. -/
theorem exists_mod (h : i < size) (j : Nat) : ∃ k, k < size ∧ (j + k) % size = i := by
  have hPos : 0 < size := by omega
  have hLt := Nat.mod_lt j hPos
  refine ⟨(i + size - j % size) % size, Nat.mod_lt _ hPos, ?_⟩
  rw [Nat.add_mod_mod, ← Nat.mod_add_mod, show j % size + (i + size - j % size) = i + size by omega,
    Nat.add_mod_right, Nat.mod_eq_of_lt h]

/-- What is at the positions from counter `a` up to counter `b`. -/
def window (size : Nat) (f : Nat → α) (a b : Nat) : List α := (List.range' a (b - a)).map fun k => f (k % size)

@[simp] theorem window_self : window size f a a = [] := by
  rw [window, Nat.sub_self]
  rfl

theorem window_push (h : a ≤ b) : window size f a (b + 1) = window size f a b ++ [f (b % size)] := by
  rw [window, Nat.succ_sub h, List.range'_concat, List.map_append, Nat.one_mul, Nat.add_sub_cancel' h]
  rfl

theorem window_pop (h : a < b) : window size f a b = f (a % size) :: window size f (a + 1) b := by
  obtain ⟨n, rfl⟩ := Nat.exists_eq_add_of_lt h
  rw [window, window, show a + n + 1 - a = n + 1 by omega, show a + n + 1 - (a + 1) = n by omega,
    List.range'_succ, List.map_cons]

theorem window_congr (h : ∀ k, a ≤ k → k < b → f (k % size) = g (k % size)) :
    window size f a b = window size g a b := by
  refine List.map_congr_left fun k hMem => ?_
  obtain ⟨hLow, hHigh⟩ := List.mem_range'_1.mp hMem
  exact h k hLow (by omega)

/-- What is at the positions from `i` on up to `j`. -/
def arc (size : Nat) (f : Nat → α) (i j : Nat) : List α :=
  (List.range ((j + size - i) % size)).map fun k => f ((i + k) % size)

theorem window_eq_arc (h : a ≤ b) (hTurn : b < a + size) :
    window size f a b = arc size f (a % size) (b % size) := by
  have hLt := Nat.mod_lt a (show 0 < size by omega)
  have hEnd : b % size = (a % size + (b - a)) % size := by
    rw [Nat.mod_add_mod, Nat.add_sub_cancel' h]
  have hLength : (b % size + size - a % size) % size = b - a := by
    rw [hEnd]
    rcases Nat.lt_or_ge (a % size + (b - a)) size with hLess | hMore
    · rw [Nat.mod_eq_of_lt hLess, show a % size + (b - a) + size - a % size = b - a + size by omega,
        Nat.add_mod_right, Nat.mod_eq_of_lt (by omega)]
    · rw [Nat.mod_eq_sub_mod hMore, Nat.mod_eq_of_lt (show a % size + (b - a) - size < size by omega),
        show a % size + (b - a) - size + size - a % size = b - a by omega, Nat.mod_eq_of_lt (by omega)]
  rw [arc, hLength, window, List.range'_eq_map_range, List.map_map]
  refine List.map_congr_left fun k _ => ?_
  show f ((a + k) % size) = _
  rw [Nat.mod_add_mod]

end Turns
