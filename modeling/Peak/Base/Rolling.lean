import Mathlib.Data.List.Induction
import Mathlib.Tactic.Common

/-! Hashes by cyclic shifts: every symbol of a window has a word of its own, and
the word of a symbol is rotated once for each symbol that comes after it. -/
namespace Rolling

section Rotation

variable {w : Nat} (x y : BitVec w) (m n : Nat)

/-- A bit of a rotated word is the bit that many places below it, around the
end of the word. -/
theorem getElem_rotateLeft {i : Nat} (hBit : i < w) :
    (x.rotateLeft n)[i] = x.getLsb ⟨(i + (w - n % w)) % w, Nat.mod_lt _ (by omega)⟩ := by
  rw [BitVec.getLsb_eq_getElem, Fin.getElem_fin]
  have hTurn : n % w < w := Nat.mod_lt n (by omega)
  rw [BitVec.getElem_rotateLeft]
  split_ifs with hLow
  · congr 1
    dsimp only
    rw [Nat.add_comm, Nat.mod_eq_of_lt (show i + (w - n % w) < w by omega)]
  · congr 1
    dsimp only
    rw [show i + (w - n % w) = i - n % w + w by omega, Nat.add_mod_right,
      Nat.mod_eq_of_lt (show i - n % w < w by omega)]

theorem rotateLeft_xor : (x ^^^ y).rotateLeft n = x.rotateLeft n ^^^ y.rotateLeft n := by
  ext i hBit
  simp only [getElem_rotateLeft, BitVec.getLsb_eq_getElem, Fin.getElem_fin, BitVec.getElem_xor]

/-- Rotations add up. -/
theorem rotateLeft_rotateLeft : (x.rotateLeft m).rotateLeft n = x.rotateLeft (m + n) := by
  ext i hBit
  simp only [getElem_rotateLeft, BitVec.getLsb_eq_getElem, Fin.getElem_fin]
  congr 1
  have hM : m % w < w := Nat.mod_lt m (by omega)
  have hN : n % w < w := Nat.mod_lt n (by omega)
  rw [Nat.mod_add_mod, Nat.add_mod m n w]
  rcases Nat.lt_or_ge (m % w + n % w) w with hShort | hLong
  · rw [Nat.mod_eq_of_lt hShort,
      show i + (w - n % w) + (w - m % w) = i + (w - (m % w + n % w)) + w by omega,
      Nat.add_mod_right]
  · rw [Nat.mod_eq_sub_mod hLong, Nat.mod_eq_of_lt (by omega : m % w + n % w - w < w)]
    congr 1
    omega

theorem rotateLeft_zero : x.rotateLeft 0 = x := by
  ext i hBit
  simp only [getElem_rotateLeft, BitVec.getLsb_eq_getElem, Fin.getElem_fin, Nat.zero_mod,
    Nat.sub_zero, Nat.add_mod_right, Nat.mod_eq_of_lt hBit]

theorem zero_rotateLeft : (0#w).rotateLeft n = 0#w := by
  ext i hBit
  simp only [getElem_rotateLeft, BitVec.getLsb_eq_getElem, Fin.getElem_fin, BitVec.getElem_zero]

end Rotation

section Window

variable {w : Nat} {α : Type*} (value : α → BitVec w)

/-- The hash of a window, from its oldest symbol to its newest one. -/
def hash (window : List α) : BitVec w :=
  window.foldl (fun h a => h.rotateLeft 1 ^^^ value a) 0#w

@[simp] theorem hash_nil : hash value [] = 0#w := rfl

/-- A symbol comes in at the new end. -/
theorem hash_concat (window : List α) (a : α) :
    hash value (window ++ [a]) = (hash value window).rotateLeft 1 ^^^ value a := by
  simp only [hash, List.foldl_append, List.foldl_cons, List.foldl_nil]

/-- The oldest symbol stands in the hash rotated by the symbols after it. -/
theorem hash_cons (a : α) (window : List α) :
    hash value (a :: window) = (value a).rotateLeft window.length ^^^ hash value window := by
  induction window using List.reverseRecOn with
  | nil =>
      have hOne := hash_concat value [] a
      rw [List.nil_append, hash_nil, zero_rotateLeft, BitVec.zero_xor] at hOne
      rw [hOne, List.length_nil, rotateLeft_zero, hash_nil, BitVec.xor_zero]
  | append_singleton window b ih =>
      rw [← List.cons_append, hash_concat, ih, hash_concat, rotateLeft_xor,
        rotateLeft_rotateLeft, List.length_append, List.length_singleton, BitVec.xor_assoc]

/-- A window slides by one symbol: `a` goes out at the old end, `b` comes in at
the new one. -/
theorem hash_slide {window slid : List α} {a b : α} (hSlide : window ++ [b] = a :: slid) :
    hash value slid =
      (hash value window).rotateLeft 1 ^^^ (value a).rotateLeft window.length ^^^ value b := by
  have hLength : slid.length = window.length := by
    have hBoth := congrArg List.length hSlide
    rw [List.length_append, List.length_singleton, List.length_cons] at hBoth
    omega
  have hBoth := (hash_concat value window b).symm.trans (hSlide ▸ hash_cons value a slid)
  calc hash value slid
      = (value a).rotateLeft slid.length ^^^
          ((value a).rotateLeft slid.length ^^^ hash value slid) := by
        rw [← BitVec.xor_assoc, BitVec.xor_self, BitVec.zero_xor]
    _ = (value a).rotateLeft window.length ^^^
          ((hash value window).rotateLeft 1 ^^^ value b) := by
        rw [← hBoth, hLength]
    _ = _ := by
        rw [← BitVec.xor_assoc, BitVec.xor_comm ((value a).rotateLeft _)]

end Window

end Rolling
