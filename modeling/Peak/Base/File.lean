import Mathlib.Algebra.Group.Nat.Defs
import Mathlib.Data.List.TakeDrop
import Mathlib.Tactic.Common
import Mathlib.Tactic.Linarith

/-! Regular files: one that is open for reading, with its file offset, and one
that is written from front to back. -/

/-- A file that is open for reading. The contents do not change while it is. -/
structure File where
  contents : List UInt8
  pos : Nat
deriving DecidableEq, Repr

namespace File

/-- What `read(2)` hands back: its return value, the bytes it stored, and the
file behind them. -/
structure Got where
  ret : Int
  bytes : List UInt8
  file : File
deriving DecidableEq, Repr

/-- `read(2)` on a regular file. A request above `SSIZE_MAX` fails and stores
nothing, any other one stores what is left up to the requested count. -/
def read (f : File) (count : Nat) : Got :=
  if 2 ^ 63 ≤ count then ⟨-1, [], f⟩
  else
    let bytes := (f.contents.drop f.pos).take count
    ⟨bytes.length, bytes, { f with pos := f.pos + bytes.length }⟩

/-- `lseek(2)` with `SEEK_SET`. -/
def seekSet (f : File) (off : Nat) : File := { f with pos := off }

/-- `lseek(2)` with `SEEK_CUR`. An offset before the start of the file is
refused and leaves the position as it was. -/
def seekCur (f : File) (off : Int) : File :=
  if 0 ≤ (f.pos : Int) + off then { f with pos := ((f.pos : Int) + off).toNat } else f

/-- The difference of two `size_t`, which wraps around. -/
def sizeSub (a b : Nat) : Nat := (a + (2 ^ 64 - b)) % 2 ^ 64

/-- A `size_t` passed as an `off_t` or an `ssize_t`. -/
def signed (n : Nat) : Int := if n < 2 ^ 63 then n else (n : Int) - 2 ^ 64

variable {f : File} {count : Nat}

/-- All of the request is there. -/
theorem read_full (hCount : count < 2 ^ 63) (hLeft : f.pos + count ≤ f.contents.length) :
    f.read count = ⟨count, (f.contents.drop f.pos).take count, { f with pos := f.pos + count }⟩ := by
  have hLength : ((f.contents.drop f.pos).take count).length = count := by
    simp only [List.length_take, List.length_drop]
    omega
  simp only [read, if_neg (show ¬ 2 ^ 63 ≤ count by omega), hLength]

/-- The request is what stands at the file position. -/
theorem read_front {front rest : List UInt8} (hAt : f.contents.drop f.pos = front ++ rest)
    (hSize : front.length < 2 ^ 63) :
    f.read front.length = ⟨front.length, front, { f with pos := f.pos + front.length }⟩ := by
  simp only [read, if_neg (Nat.not_le.mpr hSize), hAt, List.take_left' rfl]

/-- Behind what was read stands the rest. -/
theorem drop_behind {bytes front rest : List UInt8} {pos : Nat} (hAt : bytes.drop pos = front ++ rest) :
    bytes.drop (pos + front.length) = rest := by
  rw [← List.drop_drop, hAt, List.drop_left' rfl]

/-- The return value equals a reasonable request exactly if all of it is
there. -/
theorem read_ret_iff (hPos : 0 < count) (hCount : count < 2 ^ 63) :
    (f.read count).ret = count ↔ f.pos + count ≤ f.contents.length := by
  simp only [read, if_neg (show ¬ 2 ^ 63 ≤ count by omega), List.length_take, List.length_drop]
  omega

@[simp] theorem read_contents : (f.read count).file.contents = f.contents := by
  simp only [read]
  split_ifs <;> rfl

@[simp] theorem seekSet_contents (off : Nat) : (f.seekSet off).contents = f.contents := rfl

@[simp] theorem seekCur_contents (off : Int) : (f.seekCur off).contents = f.contents := by
  simp only [seekCur]
  split_ifs <;> rfl

/-- The bytes stored are those at the file position. -/
theorem read_bytes_prefix :
    (f.read count).bytes = (f.contents.drop f.pos).take (f.read count).bytes.length := by
  simp only [read]
  split_ifs <;> simp

theorem read_bytes_length_le : (f.read count).bytes.length ≤ count := by
  simp only [read]
  split_ifs <;> simp

/-- As an offset the wrapped difference is the difference again. -/
theorem signed_sizeSub {a b : Nat} (ha : a < 2 ^ 63) (hb : b < 2 ^ 63) :
    signed (sizeSub a b) = (a : Int) - b := by
  simp only [signed, sizeSub]
  split_ifs with hSmall <;> omega

/-- Moving from behind `skip` bytes that were read by the rest of `length`
ends `length` bytes behind the start, in either direction. -/
theorem seekCur_rest {length skip start : Nat} (hLength : length < 2 ^ 63) (hSkip : skip < 2 ^ 63)
    (hPos : f.pos = start + skip) :
    f.seekCur (signed (sizeSub length skip)) = { f with pos := start + length } := by
  rw [signed_sizeSub hLength hSkip, seekCur, if_pos (by omega)]
  congr 1
  omega

/-- A file that is being written: what it holds and how many more bytes the
device takes. -/
structure Sink where
  contents : List UInt8
  room : Nat
deriving DecidableEq, Repr

/-- `write(2)`: the return value and the file behind the bytes that went out. -/
def Sink.write (f : Sink) (bytes : List UInt8) : Nat × Sink :=
  let out := bytes.take f.room
  (out.length, ⟨f.contents ++ out, f.room - out.length⟩)

/-- A complete write appends all bytes. -/
theorem Sink.write_complete {f : Sink} {bytes : List UInt8}
    (h : (f.write bytes).1 = bytes.length) : (f.write bytes).2.contents = f.contents ++ bytes := by
  simp only [Sink.write, List.length_take] at h ⊢
  rw [List.take_of_length_le (by omega)]

end File
