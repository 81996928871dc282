import Peak.Base.Bytes
import Peak.Base.Cells

/-! Words of eight bytes in byte memory, least significant byte first, and
pointers as such words. The null pointer is the word zero. -/
namespace Pointers

open Cells Bytes

/-- The word at an address. -/
def word (m : Nat → UInt8) (a : Nat) : Nat := le (read m a 8)

/-- A store of a word. -/
def setWord (m : Nat → UInt8) (a v : Nat) : Nat → UInt8 := write m a (encode 8 v)

/-- The pointer at an address. -/
def load (m : Nat → UInt8) (a : Nat) : Option Nat :=
  if word m a = 0 then none else some (word m a)

/-- A store of a pointer. -/
def store (m : Nat → UInt8) (a : Nat) (p : Option Nat) : Nat → UInt8 := setWord m a (p.getD 0)

/-- A pointer that a word can hold. -/
def Storable (p : Option Nat) : Prop := ∀ a ∈ p, 0 < a ∧ a < 2 ^ 64

variable {m m' : Nat → UInt8} {a b i v : Nat} {p : Option Nat}

theorem word_lt (m : Nat → UInt8) (a : Nat) : word m a < 2 ^ 64 := by
  have hLess := le_lt (read m a 8)
  rw [read_length] at hLess
  exact hLess

/-- Memories that agree on a word have the same one. -/
theorem word_congr (h : ∀ i, a ≤ i → i < a + 8 → m' i = m i) : word m' a = word m a := by
  rw [word, read_congr h, word]

theorem word_setWord (h : v < 2 ^ 64) : word (setWord m a v) a = v := by
  have hRead := read_write m a (encode 8 v)
  rw [encode_length] at hRead
  rw [word, setWord, hRead, le_encode]
  exact Nat.mod_eq_of_lt h

theorem setWord_outside (h : i < a ∨ a + 8 ≤ i) : setWord m a v i = m i :=
  write_outside (by rw [encode_length]; exact h)

theorem word_setWord_apart (h : a + 8 ≤ b ∨ b + 8 ≤ a) : word (setWord m b v) a = word m a :=
  word_congr fun _ hLow hHigh => setWord_outside (by omega)

theorem load_congr (h : word m' a = word m a) : load m' a = load m a := by rw [load, h, load]

/-- Whatever is loaded can be stored. -/
theorem load_storable (m : Nat → UInt8) (a : Nat) : Storable (load m a) := by
  intro b hb
  rw [load] at hb
  split_ifs at hb with hZero
  · exact absurd hb (Option.not_mem_none b)
  · obtain rfl := Option.mem_some_iff.mp hb
    exact ⟨Nat.pos_of_ne_zero hZero, word_lt m a⟩

/-- A stored pointer is loaded again. -/
theorem load_store (h : Storable p) : load (store m a p) a = p := by
  cases p with
  | none =>
      rw [load, store, word_setWord (by decide)]
      rfl
  | some b =>
      obtain ⟨hPos, hLess⟩ := h b rfl
      rw [load, store, Option.getD_some, word_setWord hLess, if_neg (Nat.ne_of_gt hPos)]

theorem store_outside (h : i < a ∨ a + 8 ≤ i) : store m a p i = m i := setWord_outside h

theorem word_store_apart (h : a + 8 ≤ b ∨ b + 8 ≤ a) : word (store m b p) a = word m a :=
  word_setWord_apart h

end Pointers
