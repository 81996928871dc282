import Mathlib.Algebra.Group.Nat.Defs
import Mathlib.Data.Nat.ModEq
import Mathlib.Tactic.Common

/-! Numbers in byte strings, least significant byte first. -/
namespace Bytes

/-- The number a byte string stands for on a little-endian machine. -/
def le : List UInt8 → Nat
  | [] => 0
  | byte :: rest => byte.toNat + 256 * le rest

/-- The number a byte string stands for in network byte order. -/
def be (bytes : List UInt8) : Nat := le bytes.reverse

/-- The bytes of a number in a field of the given width. Numbers that do not
fit are truncated. -/
def encode : Nat → Nat → List UInt8
  | 0, _ => []
  | width + 1, value => UInt8.ofNat value :: encode width (value / 256)

/-- The bytes of one field of a structure. -/
def field (bytes : List UInt8) (off width : Nat) : List UInt8 := (bytes.drop off).take width

/-- The number with its four bytes in the opposite order. -/
def bswap32 (value : Nat) : Nat := be (encode 4 value)

@[simp] theorem encode_length (width value : Nat) : (encode width value).length = width := by
  induction width generalizing value with
  | zero => rfl
  | succ width ih => simp [encode, ih]

theorem le_lt (bytes : List UInt8) : le bytes < 256 ^ bytes.length := by
  induction bytes with
  | nil => simp [le]
  | cons byte rest ih =>
      have hByte := byte.toNat_lt
      simp only [le, List.length_cons, Nat.pow_succ]
      omega

@[simp] theorem le_encode (width value : Nat) : le (encode width value) = value % 256 ^ width := by
  induction width generalizing value with
  | zero => simp [encode, le, Nat.mod_one]
  | succ width ih =>
      have hPow : 256 ^ (width + 1) = 256 * 256 ^ width := Nat.pow_succ'
      simp only [encode, le, ih, UInt8.toNat_ofNat', hPow, Nat.mod_mul]

/-- Numbers that fit are told apart by their bytes. -/
theorem encode_inj {width value value' : Nat} (h : value < 256 ^ width) (h' : value' < 256 ^ width)
    (hEq : encode width value = encode width value') : value = value' := by
  have hLe := congrArg le hEq
  rwa [le_encode, le_encode, Nat.mod_eq_of_lt h, Nat.mod_eq_of_lt h'] at hLe

/-- A byte string is the code of its number. -/
theorem encode_le (bytes : List UInt8) : encode bytes.length (le bytes) = bytes := by
  induction bytes with
  | nil => rfl
  | cons byte rest ih =>
      have hByte := byte.toNat_lt
      have hHead : UInt8.ofNat (byte.toNat + 256 * le rest) = byte := by
        apply UInt8.toNat_inj.mp
        rw [UInt8.toNat_ofNat']
        omega
      have hRest : (byte.toNat + 256 * le rest) / 256 = le rest := by omega
      simp only [List.length_cons, encode, le, hHead, hRest, ih]

/-- Only the part of a number that fits is written. -/
theorem encode_congr (width : Nat) {value value' : Nat}
    (h : value % 256 ^ width = value' % 256 ^ width) : encode width value = encode width value' := by
  rw [← encode_le (encode width value), ← encode_le (encode width value'), le_encode, le_encode, h,
    encode_length, encode_length]

/-- Swapping a number is reversing the bytes that it was read from. -/
theorem bswap32_le {bytes : List UInt8} (h : bytes.length = 4) :
    bswap32 (le bytes) = le bytes.reverse := by
  rw [bswap32, ← h, encode_le, be]

/-- A number that was written in the opposite byte order is swapped back. -/
theorem bswap32_reverse (value : Nat) :
    bswap32 (le (encode 4 value).reverse) = value % 256 ^ 4 := by
  rw [bswap32_le (by simp), List.reverse_reverse, le_encode]

theorem le_field_lt (bytes : List UInt8) (off width : Nat) :
    le (field bytes off width) < 256 ^ width := by
  have hLength : (field bytes off width).length ≤ width := by simp [field]
  exact Nat.lt_of_lt_of_le (le_lt _) (Nat.pow_le_pow_right (by omega) hLength)

/-- A field of a structure that lies in a longer byte string. -/
theorem field_within (bytes : List UInt8) (start : Nat) {size off width : Nat}
    (h : off + width ≤ size) :
    field ((bytes.drop start).take size) off width = field bytes (start + off) width := by
  simp only [field, List.drop_take, List.drop_drop, List.take_take]
  rw [Nat.min_eq_left (by omega)]

/-- A field behind a prefix of known length. -/
theorem field_append_right {front : List UInt8} (bytes : List UInt8) {off : Nat} (width : Nat)
    (h : front.length ≤ off) : field (front ++ bytes) off width = field bytes (off - front.length) width := by
  simp only [field, List.drop_append, List.drop_eq_nil_of_le h, List.nil_append]

/-- The first field of a structure. -/
theorem field_append_left {front : List UInt8} (bytes : List UInt8) {width : Nat}
    (h : front.length = width) : field (front ++ bytes) 0 width = front := by
  subst h
  simp [field]

/-- A field of a structure that is followed by other bytes. -/
theorem field_append_front {front : List UInt8} (bytes : List UInt8) {off width : Nat}
    (h : off + width ≤ front.length) : field (front ++ bytes) off width = field front off width := by
  rw [field, List.drop_append_of_le_length (by omega), List.take_append_of_le_length, field]
  rw [List.length_drop]
  omega

/-- The first bytes of a number are those of a narrower field. -/
theorem take_encode {count width : Nat} (value : Nat) (h : count ≤ width) :
    (encode width value).take count = encode count value := by
  induction width generalizing count value with
  | zero =>
      obtain rfl : count = 0 := by omega
      rfl
  | succ width ih =>
      cases count with
      | zero => rfl
      | succ count => simp only [encode, List.take_succ_cons, ih (value / 256) (Nat.le_of_succ_le_succ h)]

/-- A field of a structure that is given field by field. -/
theorem field_flatten (front : List (List UInt8)) {bytes : List UInt8} (back : List (List UInt8))
    {off width : Nat} (hOff : front.flatten.length = off) (hWidth : bytes.length = width) :
    field (front ++ bytes :: back).flatten off width = bytes := by
  rw [List.flatten_append, List.flatten_cons, field_append_right _ _ (Nat.le_of_eq hOff), hOff,
    Nat.sub_self, field_append_left _ hWidth]

/-- A structure of numbers, given by the width and the value of each field. -/
def pack (fields : List (Nat × Nat)) : List UInt8 := fields.flatMap fun f => encode f.1 f.2

@[simp] theorem pack_length (fields : List (Nat × Nat)) :
    (pack fields).length = (fields.map Prod.fst).sum := by
  simp [pack, List.length_flatMap]

/-- A field of a structure of numbers, whatever follows the structure. -/
theorem le_field_pack {fields : List (Nat × Nat)} (i : Nat) {off width value : Nat}
    (rest : List UInt8) (hField : fields[i]? = some (width, value))
    (hOff : ((fields.take i).map Prod.fst).sum = off) (hFits : value < 256 ^ width) :
    le (field (pack fields ++ rest) off width) = value := by
  obtain ⟨hIndex, hGet⟩ := List.getElem?_eq_some_iff.mp hField
  have hSplit : pack fields ++ rest =
      ([pack (fields.take i)] ++ encode width value :: [pack (fields.drop (i + 1)), rest]).flatten := by
    have hPack : pack fields =
        pack (fields.take i) ++ (encode width value ++ pack (fields.drop (i + 1))) := by
      conv_lhs => rw [← List.take_append_drop i fields, List.drop_eq_getElem_cons hIndex, hGet]
      simp only [pack, List.flatMap_append, List.flatMap_cons]
    rw [hPack]
    simp only [List.singleton_append, List.flatten_cons, List.flatten_nil, List.append_nil,
      List.append_assoc]
  rw [hSplit, field_flatten _ _ (by simpa using hOff) (encode_length ..), le_encode,
    Nat.mod_eq_of_lt hFits]

/-- A number that was written in network byte order. -/
@[simp] theorem be_reverse_encode (width value : Nat) :
    be (encode width value).reverse = value % 256 ^ width := by
  rw [be, List.reverse_reverse, le_encode]

/-- A number that was read from two runs of bytes. -/
theorem le_append (low high : List UInt8) :
    le (low ++ high) = le low + 256 ^ low.length * le high := by
  induction low with
  | nil => simp [le]
  | cons byte rest ih =>
      simp only [List.cons_append, le, ih, List.length_cons, Nat.pow_succ']
      rw [Nat.mul_add, Nat.mul_assoc, Nat.add_assoc]

/-- A structure with each of its fields, of the given widths, in the opposite
byte order. A field that is cut off and what follows the last one stay. -/
def swapFields : List Nat → List UInt8 → List UInt8
  | [], bytes => bytes
  | width :: widths, bytes =>
      if bytes.length < width then bytes
      else (bytes.take width).reverse ++ swapFields widths (bytes.drop width)

@[simp] theorem swapFields_length (widths : List Nat) (bytes : List UInt8) :
    (swapFields widths bytes).length = bytes.length := by
  induction widths generalizing bytes with
  | nil => rfl
  | cons width widths ih =>
      rw [swapFields]
      split_ifs with hShort
      · rfl
      · rw [List.length_append, List.length_reverse, ih, ← List.length_append, List.take_append_drop]

/-- Swapping all fields again restores the structure. -/
@[simp] theorem swapFields_swapFields (widths : List Nat) (bytes : List UInt8) :
    swapFields widths (swapFields widths bytes) = bytes := by
  induction widths generalizing bytes with
  | nil => rfl
  | cons width widths ih =>
      by_cases hShort : bytes.length < width
      · simp only [swapFields, if_pos hShort]
      · have hTake : (bytes.take width).reverse.length = width := by
          rw [List.length_reverse, List.length_take]
          omega
        have hLong : ¬ (swapFields (width :: widths) bytes).length < width := by
          rw [swapFields_length]
          exact hShort
        rw [swapFields, if_neg hLong, swapFields, if_neg hShort, List.take_left' hTake,
          List.drop_left' hTake, List.reverse_reverse, ih, List.take_append_drop]

/-- Each field that is there has its bytes reversed. -/
theorem field_swapFields {bytes : List UInt8} (front back : List Nat) {width : Nat}
    (h : front.sum + width ≤ bytes.length) :
    field (swapFields (front ++ width :: back) bytes) front.sum width =
      (field bytes front.sum width).reverse := by
  induction front generalizing bytes with
  | nil =>
      rw [List.sum_nil, Nat.zero_add] at h
      rw [List.nil_append, swapFields, if_neg (Nat.not_lt.mpr h), List.sum_nil]
      exact field_append_left _ (by simpa using h)
  | cons first front ih =>
      rw [List.sum_cons] at h ⊢
      have hTake : (bytes.take first).reverse.length = first := by
        rw [List.length_reverse, List.length_take]
        omega
      have hRest : front.sum + width ≤ (bytes.drop first).length := by
        rw [List.length_drop]
        omega
      rw [List.cons_append, swapFields, if_neg (by omega), field_append_right _ _ (by omega), hTake,
        Nat.add_sub_cancel_left, ih hRest]
      simp only [field, List.drop_drop]

end Bytes
