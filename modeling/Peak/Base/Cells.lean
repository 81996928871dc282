import Mathlib.Data.List.GetD
import Mathlib.Tactic.Common

/-! Memory as a function from addresses to cells, with runs of cells read and
written at once. The cells may be bytes, partly unknown bytes or anything
else. -/
namespace Cells

variable {α : Type*} {m m' : Nat → α} {start count : Nat}

/-- The `count` cells from an address on, in address order. -/
def read (m : Nat → α) (start count : Nat) : List α := (List.range' start count).map m

/-- The memory with the cells from an address on replaced. -/
def write (m : Nat → α) (start : Nat) (cells : List α) : Nat → α := fun i =>
  if i < start then m i else cells.getD (i - start) (m i)

@[simp] theorem read_length (m : Nat → α) (start count : Nat) : (read m start count).length = count := by
  simp [read]

@[simp] theorem read_zero (m : Nat → α) (start : Nat) : read m start 0 = [] := rfl

@[simp] theorem write_nil (m : Nat → α) (start : Nat) : write m start [] = m := by
  funext i
  simp [write]

/-- Two memories that agree on a run read the same there. -/
theorem read_congr (hAgree : ∀ i, start ≤ i → i < start + count → m' i = m i) :
    read m' start count = read m start count := by
  apply List.map_congr_left
  intro i hMem
  obtain ⟨hLow, hHigh⟩ := List.mem_range'_1.mp hMem
  exact hAgree i hLow hHigh

/-- A run is its first part followed by the rest. -/
theorem read_add (m : Nat → α) (start first rest : Nat) :
    read m start (first + rest) = read m start first ++ read m (start + first) rest := by
  simp only [read, ← List.map_append, List.range'_append_1]

/-- The front part of a run. -/
theorem read_take (m : Nat → α) (start : Nat) {count k : Nat} (h : k ≤ count) :
    (read m start count).take k = read m start k := by
  obtain ⟨rest, rfl⟩ := Nat.exists_eq_add_of_le h
  rw [read_add, List.take_left' (read_length m start k)]

/-- Dropping cells from the front of a run moves its start. -/
theorem read_drop (m : Nat → α) (start count k : Nat) :
    (read m start count).drop k = read m (start + k) (count - k) := by
  simp only [read, ← List.map_drop, List.drop_range', Nat.mul_one]

/-- Cells outside of the written run stay. -/
theorem write_outside {cells : List α} {i : Nat} (h : i < start ∨ start + cells.length ≤ i) :
    write m start cells i = m i := by
  simp only [write]
  split_ifs with hBefore
  · rfl
  · rw [List.getD_eq_default _ _ (by omega)]

theorem write_inside {cells : List α} {i : Nat} (h : i < cells.length) :
    write m start cells (start + i) = cells[i] := by
  simp only [write]
  rw [if_neg (by omega), Nat.add_sub_cancel_left, List.getD_eq_getElem _ _ h]

/-- What was written is read back. -/
theorem read_write (m : Nat → α) (start : Nat) (cells : List α) :
    read (write m start cells) start cells.length = cells := by
  apply List.ext_getElem (by simp)
  intro i hRead hCells
  simp only [read, List.getElem_map, List.getElem_range', Nat.one_mul]
  exact write_inside hCells

/-- What was written is read back from its front on. -/
theorem read_write_front (m : Nat → α) (start : Nat) (front back : List α) :
    read (write m start (front ++ back)) start front.length = front := by
  apply List.ext_getElem (by simp)
  intro i hRead hFront
  simp only [read, List.getElem_map, List.getElem_range', Nat.one_mul]
  rw [write_inside (show i < (front ++ back).length by rw [List.length_append]; omega),
    List.getElem_append_left hFront]

/-- A run that lies outside of the written one reads as before. -/
theorem read_write_outside {cells : List α} {at_ : Nat}
    (h : start + count ≤ at_ ∨ at_ + cells.length ≤ start) :
    read (write m at_ cells) start count = read m start count := by
  apply read_congr
  intro i hLow hHigh
  exact write_outside (by omega)

end Cells
