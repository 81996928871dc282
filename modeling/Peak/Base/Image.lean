import Mathlib.Data.Nat.Basic
import Mathlib.Tactic.Common

/-! Byte images: the bytes a process finds behind a pointer, addressed by
their offset. Nothing here says where a buffer ends; programs that stop at a
length do so by their own checks. -/
namespace ByteImage

/-- All bytes behind a pointer, in address order. -/
abbrev Image := Nat → UInt8

/-- The unsigned byte at an offset. -/
def byte (m : Image) (i : Nat) : Nat := (m i).toNat

/-- Big-endian 16-bit load, as `be16dec` computes it. -/
def be16 (m : Image) (i : Nat) : Nat := byte m i * 256 + byte m (i + 1)

/-- Big-endian 32-bit load, as `be32dec` computes it. -/
def be32 (m : Image) (i : Nat) : Nat := be16 m i * 65536 + be16 m (i + 2)

/-- The `count` bytes from an offset on, in address order. -/
def bytes (m : Image) (start count : Nat) : List UInt8 :=
  (List.range count).map fun i => m (start + i)

theorem byte_lt (m : Image) (i : Nat) : byte m i < 256 := (m i).toNat_lt

theorem be16_lt (m : Image) (i : Nat) : be16 m i < 65536 := by
  have h1 := byte_lt m i
  have h2 := byte_lt m (i + 1)
  unfold be16
  omega

/-- The two images hold the same bytes below `len`. -/
def Agree (len : Nat) (m m' : Image) : Prop := ∀ i < len, m' i = m i

theorem Agree.byte {len i : Nat} {m m' : Image} (h : Agree len m m') (hi : i < len) :
    byte m' i = byte m i := by
  simp only [ByteImage.byte, h i hi]

theorem Agree.be16 {len i : Nat} {m m' : Image} (h : Agree len m m') (hi : i + 2 ≤ len) :
    be16 m' i = be16 m i := by
  simp only [ByteImage.be16, h.byte (show i < len by omega), h.byte (show i + 1 < len by omega)]

theorem Agree.be32 {len i : Nat} {m m' : Image} (h : Agree len m m') (hi : i + 4 ≤ len) :
    be32 m' i = be32 m i := by
  simp only [ByteImage.be32, h.be16 (show i + 2 ≤ len by omega),
    h.be16 (show i + 2 + 2 ≤ len by omega)]

theorem Agree.bytes {len start count : Nat} {m m' : Image} (h : Agree len m m')
    (hi : start + count ≤ len) : bytes m' start count = bytes m start count := by
  apply List.map_congr_left
  intro i hMem
  have := List.mem_range.mp hMem
  exact h _ (by omega)

@[simp] theorem bytes_length (m : Image) (start count : Nat) :
    (bytes m start count).length = count := by
  simp [bytes]

/-- Two images with equal byte runs agree at every offset of the run. -/
theorem eq_of_bytes_eq {start count : Nat} {m m' : Image}
    (h : bytes m start count = bytes m' start count) {i : Nat} (hi : i < count) :
    m (start + i) = m' (start + i) := by
  have hAt := congrArg (fun xs => xs[i]?) h
  simpa [bytes, hi] using hAt

/-- Keep the first `len` bytes and take everything behind them from `tail`. -/
def splice (len : Nat) (m tail : Image) : Image := fun i => if i < len then m i else tail i

theorem splice_agree (len : Nat) (m tail : Image) : Agree len m (splice len m tail) := by
  intro i hi
  simp [splice, hi]

theorem byte_splice_lt {len i : Nat} (m tail : Image) (hi : i < len) :
    byte (splice len m tail) i = byte m i := by
  simp [byte, splice, hi]

theorem byte_splice_ge {len i : Nat} (m tail : Image) (hi : len ≤ i) :
    byte (splice len m tail) i = byte tail i := by
  simp [byte, splice, Nat.not_lt.mpr hi]

/-- The image that holds `value` at every listed offset and zero elsewhere.
The first entry for an offset counts. -/
def ofEntries : List (Nat × UInt8) → Image
  | [], _ => 0
  | (at_, value) :: rest, i => if i = at_ then value else ofEntries rest i

@[simp] theorem byte_ofEntries_nil (i : Nat) : byte (ofEntries []) i = 0 := rfl

theorem byte_ofEntries_cons (at_ : Nat) (value : UInt8) (rest : List (Nat × UInt8)) (i : Nat) :
    byte (ofEntries ((at_, value) :: rest)) i =
      if i = at_ then value.toNat else byte (ofEntries rest) i := by
  simp only [byte, ofEntries]
  split_ifs <;> rfl

@[simp] theorem byte_ofEntries_head (at_ : Nat) (value : UInt8) (rest : List (Nat × UInt8)) :
    byte (ofEntries ((at_, value) :: rest)) at_ = value.toNat := by
  simp [byte_ofEntries_cons]

theorem byte_ofEntries_skip {at_ i : Nat} (h : i ≠ at_) (value : UInt8)
    (rest : List (Nat × UInt8)) :
    byte (ofEntries ((at_, value) :: rest)) i = byte (ofEntries rest) i := by
  simp [byte_ofEntries_cons, h]

/-- The image of a finite buffer followed by zero bytes. -/
def ofList (xs : List UInt8) : Image := fun i => xs.getD i 0

end ByteImage
