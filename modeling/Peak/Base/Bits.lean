import Mathlib.Algebra.Group.Nat.Defs
import Mathlib.Data.List.GetD
import Mathlib.Tactic.Common
import Mathlib.Tactic.IntervalCases

/-! Byte strings as strings of bits, the most significant bit of every byte
first. -/
namespace Bits

/-- A bit of a byte. -/
def bit (b : UInt8) (j : Nat) : Bool := b.toNat.testBit (7 - j)

/-- A bit of a byte string. -/
def bitAt (bytes : List UInt8) (j : Nat) : Bool := bit (bytes.getD (j / 8) 0) (j % 8)

/-- The byte whose first `n` bits are set. -/
def highBits (n : Nat) : UInt8 := UInt8.ofNat (256 - 2 ^ (8 - n))

/-- The byte string with all bits cleared but the first `n`. -/
def keep : List UInt8 → Nat → List UInt8
  | [], _ => []
  | b :: rest, n => (b &&& highBits n) :: keep rest (n - 8)

section Byte

variable {a b : UInt8} {j n : Nat}

theorem byte_ext (h : ∀ j < 8, bit a j = bit b j) : a = b := by
  apply UInt8.toNat_inj.mp
  apply Nat.eq_of_testBit_eq
  intro i
  rcases Nat.lt_or_ge i 8 with hLow | hHigh
  · have hBit := h (7 - i) (by omega)
    rwa [bit, bit, show 7 - (7 - i) = i by omega] at hBit
  · have hPow : 2 ^ 8 ≤ 2 ^ i := Nat.pow_le_pow_right (by decide) hHigh
    rw [Nat.testBit_lt_two_pow (a.toNat_lt.trans_le hPow),
      Nat.testBit_lt_two_pow (b.toNat_lt.trans_le hPow)]

@[simp] theorem bit_and : bit (a &&& b) j = (bit a j && bit b j) := by
  simp only [bit, UInt8.toNat_and, Nat.testBit_and]

theorem highBits_of_le (h : 8 ≤ n) : highBits n = 255 := by
  rw [highBits, show 8 - n = 0 by omega]
  rfl

theorem bit_highBits (hj : j < 8) : bit (highBits n) j = decide (j < n) := by
  rcases Nat.lt_or_ge n 8 with hLow | hHigh
  · interval_cases n <;> interval_cases j <;> rfl
  · rw [highBits_of_le hHigh, decide_eq_true (by omega)]
    interval_cases j <;> rfl

/-- Two bytes agree in the bits that are kept. -/
theorem and_highBits_eq_iff :
    a &&& highBits n = b &&& highBits n ↔ ∀ j < 8, j < n → bit a j = bit b j := by
  constructor
  · intro h j hj hn
    have hBit := congrArg (bit · j) h
    simpa only [bit_and, bit_highBits hj, decide_eq_true hn, Bool.and_true] using hBit
  · intro h
    apply byte_ext
    intro j hj
    by_cases hn : j < n
    · rw [bit_and, bit_and, h j hj hn]
    · simp only [bit_and, bit_highBits hj, decide_eq_false hn, Bool.and_false]

theorem and_highBits_of_le (h : 8 ≤ n) : a &&& highBits n = a := by
  apply byte_ext
  intro j hj
  rw [bit_and, bit_highBits hj, decide_eq_true (by omega), Bool.and_true]

end Byte

section String

variable {b : UInt8} {rest xs ys : List UInt8} {j n : Nat}

theorem bitAt_cons_of_lt (hj : j < 8) : bitAt (b :: rest) j = bit b j := by
  rw [bitAt, Nat.div_eq_of_lt hj, Nat.mod_eq_of_lt hj, List.getD_cons_zero]

theorem bitAt_cons_add (j : Nat) : bitAt (b :: rest) (j + 8) = bitAt rest j := by
  rw [bitAt, Nat.add_div_right j (by decide), Nat.add_mod_right, List.getD_cons_succ, bitAt]

theorem bitAt_take {k : Nat} (hj : j < 8 * k) : bitAt (xs.take k) j = bitAt xs j := by
  rw [bitAt, List.getD_eq_getElem?_getD, List.getElem?_take_of_lt (by omega),
    ← List.getD_eq_getElem?_getD, bitAt]

@[simp] theorem length_keep (xs : List UInt8) (n : Nat) : (keep xs n).length = xs.length := by
  induction xs generalizing n with
  | nil => rfl
  | cons b rest ih => rw [keep, List.length_cons, ih, List.length_cons]

theorem keep_of_le (h : 8 * xs.length ≤ n) : keep xs n = xs := by
  induction xs generalizing n with
  | nil => rfl
  | cons b rest ih =>
      rw [List.length_cons] at h
      rw [keep, and_highBits_of_le (by omega), ih (by omega)]

/-- Strings of the same size are kept the same exactly if they agree in the bits
that are kept. -/
theorem keep_eq_iff (hSize : xs.length = ys.length) :
    keep xs n = keep ys n ↔ ∀ j < min n (8 * xs.length), bitAt xs j = bitAt ys j := by
  induction xs generalizing ys n with
  | nil =>
      obtain rfl := List.length_eq_zero_iff.mp hSize.symm
      exact ⟨fun _ _ _ => rfl, fun _ => rfl⟩
  | cons a xs ih =>
      cases ys with
      | nil => cases hSize
      | cons b ys =>
          rw [List.length_cons, List.length_cons] at hSize
          rw [keep, keep, List.cons.injEq, and_highBits_eq_iff, ih (by omega), List.length_cons]
          constructor
          · rintro ⟨hByte, hRest⟩ j hj
            rcases Nat.lt_or_ge j 8 with hLow | hHigh
            · rw [bitAt_cons_of_lt hLow, bitAt_cons_of_lt hLow]
              exact hByte j hLow (by omega)
            · obtain ⟨i, rfl⟩ := Nat.exists_eq_add_of_le' hHigh
              rw [bitAt_cons_add, bitAt_cons_add]
              exact hRest i (by omega)
          · intro h
            constructor
            · intro j hj hn
              have hBit := h j (by omega)
              rwa [bitAt_cons_of_lt hj, bitAt_cons_of_lt hj] at hBit
            · intro j hj
              have hBit := h (j + 8) (by omega)
              rwa [bitAt_cons_add, bitAt_cons_add] at hBit

end String

end Bits
