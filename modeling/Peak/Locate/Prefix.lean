import Peak.Base.Bits
import Peak.Locate.Database

/-! The prefixes of `include/peak_net.h`. -/
namespace Peak.Locate

open Bits Std Track

/-- The table `prefix` of `netprefix`. -/
def prefixMasks : List UInt8 := [0x80, 0xC0, 0xE0, 0xF0, 0xF8, 0xFC, 0xFE, 0xFF]

/-- The loop of `netprefix` and what it returns, on the bytes from index `i` on.
The index stays below 16 because `yp` starts below 128. -/
def prefixLoop : List UInt8 → List UInt8 → Nat → Int
  | a :: x, b :: y, yp =>
      if prefixMasks.length ≤ yp then
        if (a.toNat : Int) - b.toNat ≠ 0 then (a.toNat : Int) - b.toNat
        else prefixLoop x y (yp - prefixMasks.length)
      else (a &&& prefixMasks.getD yp 0).toNat - (b &&& prefixMasks.getD yp 0).toNat
  | _, _, _ => 0

/-- `NET_PREFIX_MAX`. -/
def netPrefixMax : Nat := 128

/-- `netprefix`. -/
def netprefix (x y : NetAddr) (yp : Nat) : Int :=
  if yp = 0 then 0
  else prefixLoop x.bytes y.bytes ((if netPrefixMax < yp then netPrefixMax else yp) - 1)

/-- `net_in64`. -/
def netIn64 : NetAddr where
  bytes := [0, 0, 0, 0, 0, 0, 0, 0, 0, 0, 0xff, 0xff, 0, 0, 0, 0]
  size := rfl

/-- `netcmp4`. -/
def netcmp4 (x : NetAddr) : Ordering :=
  memcmp (x.bytes.take (16 - 4)) (netIn64.bytes.take (16 - 4))

/-- A bit of an address, the most significant one first. -/
def NetAddr.bit (x : NetAddr) (j : Nat) : Bool := bitAt x.bytes j

/-- An address with all bits cleared behind a prefix. -/
def NetAddr.masked (x : NetAddr) (yp : Nat) : NetAddr :=
  ⟨keep x.bytes yp, (length_keep x.bytes yp).trans x.size⟩

section Loop

variable {a b : UInt8} {x y : List UInt8} {yp : Nat}

theorem prefixMasks_getD (h : yp < 8) : prefixMasks.getD yp 0 = highBits (yp + 1) := by
  interval_cases yp <;> rfl

/-- A difference of bytes has the sign of their comparison. -/
theorem compare_sub (a b : UInt8) : compare ((a.toNat : Int) - b.toNat) 0 = compare a b := by
  rcases Nat.lt_trichotomy a.toNat b.toNat with hLess | hSame | hMore
  · have hBytes : compare a b = .lt := Std.compare_eq_lt.mpr (UInt8.lt_iff_toNat_lt.mpr hLess)
    rw [hBytes]
    exact compare_lt_iff_lt.mpr (by omega)
  · rw [UInt8.toNat_inj.mp hSame, Int.sub_self, compare_self, compare_self]
  · have hBytes : compare a b = .gt := Std.compare_eq_gt.mpr (UInt8.lt_iff_toNat_lt.mpr hMore)
    rw [hBytes]
    exact compare_gt_iff_gt.mpr (by omega)

theorem memcmp_cons : memcmp (a :: x) (b :: y) = (compare a b).then (memcmp x y) := by
  rw [memcmp, List.compareLex_cons_cons]

theorem memcmp_self (x : List UInt8) : memcmp x x = .eq := ReflCmp.compare_self

theorem memcmp_eq_iff : memcmp x y = .eq ↔ x = y := LawfulEqCmp.compare_eq_iff_eq

/-- Strings of the same size have nothing left to compare if no bit is kept. -/
theorem keep_zero_congr (hSize : x.length = y.length) : keep x 0 = keep y 0 :=
  (keep_eq_iff hSize).mpr fun j hj => absurd hj (by omega)

/-- The loop compares what the prefix of `yp + 1` bits keeps. -/
theorem compare_prefixLoop (hSize : x.length = y.length) (hStop : yp < 8 * x.length) :
    compare (prefixLoop x y yp) 0 = memcmp (keep x (yp + 1)) (keep y (yp + 1)) := by
  induction x generalizing y yp with
  | nil => exact absurd hStop (Nat.not_lt_zero _)
  | cons a x ih =>
      cases y with
      | nil => cases hSize
      | cons b y =>
          rw [List.length_cons, List.length_cons] at hSize
          rw [List.length_cons] at hStop
          rw [prefixLoop, keep, keep, memcmp_cons, show prefixMasks.length = 8 from rfl]
          split_ifs with hLong hByte
          · -- The bytes differ, which decides.
            rw [and_highBits_of_le (by omega), and_highBits_of_le (by omega), compare_sub]
            have hDiffer : compare a b ≠ .eq := by
              rw [← compare_sub]
              exact fun hSame => hByte (Std.compare_eq_iff_eq.mp hSame)
            cases hCompare : compare a b with
            | eq => exact absurd hCompare hDiffer
            | lt => rfl
            | gt => rfl
          · rw [and_highBits_of_le (by omega), and_highBits_of_le (by omega),
              ih (by omega) (by omega), ← compare_sub a b, not_not.mp hByte, compare_self,
              show yp + 1 - 8 = yp - 8 + 1 by omega]
            rfl
          · rw [compare_sub, prefixMasks_getD (by omega), Nat.sub_eq_zero_of_le (by omega),
              keep_zero_congr (show x.length = y.length by omega), memcmp_self]
            cases compare (a &&& highBits (yp + 1)) (b &&& highBits (yp + 1)) <;> rfl

end Loop

section Address

variable {x y : NetAddr} {yp : Nat}

theorem netcmp_masked (x y : NetAddr) (yp : Nat) :
    netcmp (x.masked yp) (y.masked yp) = memcmp (keep x.bytes yp) (keep y.bytes yp) := rfl

/-- The sign of `netprefix` is that of the addresses under the prefix. -/
theorem netprefix_sign (x y : NetAddr) (yp : Nat) :
    compare ( netprefix x y yp) 0 = netcmp (x.masked yp) (y.masked yp) := by
  have hSize : x.bytes.length = y.bytes.length := x.size.trans y.size.symm
  have hBits : 8 * x.bytes.length = 128 := by rw [x.size]
  unfold netprefix
  rw [netcmp_masked]
  by_cases hZero : yp = 0
  · rw [if_pos hZero, compare_self, hZero, keep_zero_congr hSize, memcmp_self]
  · rw [if_neg hZero, netPrefixMax]
    split_ifs with hLong
    · rw [compare_prefixLoop hSize (by omega), keep_of_le (by omega),
        keep_of_le (by rw [← hSize]; omega), keep_of_le (by omega),
        keep_of_le (by rw [← hSize]; omega)]
    · rw [compare_prefixLoop hSize (by omega), show yp - 1 + 1 = yp by omega]

theorem netcmp_eq_iff : netcmp x y = .eq ↔ x = y := by
  rw [netcmp, memcmp_eq_iff, NetAddr.mk.injEq]

theorem netprefix_eq_zero_iff :
    netprefix x y yp = 0 ↔ ∀ j < min yp 128, x.bit j = y.bit j := by
  have hSize : x.bytes.length = y.bytes.length := x.size.trans y.size.symm
  rw [← Std.compare_eq_iff_eq (α := Int), netprefix_sign, netcmp_eq_iff, NetAddr.masked,
    NetAddr.masked, NetAddr.mk.injEq, keep_eq_iff hSize, x.size]
  rfl

/-- `netcmp4` looks at the first 96 bits. -/
theorem netcmp4_eq_iff : netcmp4 x = .eq ↔ ∀ j < 96, x.bit j = netIn64.bit j := by
  have hFront (a : NetAddr) : (a.bytes.take 12).length = 12 := by
    rw [List.length_take, a.size]
    rfl
  have hKeep (a : NetAddr) : keep (a.bytes.take 12) 96 = a.bytes.take 12 :=
    keep_of_le (by rw [hFront])
  rw [netcmp4, memcmp_eq_iff, ← hKeep x, ← hKeep netIn64,
    keep_eq_iff ((hFront x).trans (hFront netIn64).symm), hFront]
  constructor
  · intro h j hj
    have hBit := h j hj
    rwa [bitAt_take (by omega), bitAt_take (by omega)] at hBit
  · intro h j hj
    rw [bitAt_take (by omega), bitAt_take (by omega)]
    exact h j hj

/-- Prefix matching is bitwise. -/
theorem netprefix_bitwise (x y : NetAddr) (yp : Nat) :
    ( netprefix x y yp = 0 ↔ ∀ j < min yp 128, x.bit j = y.bit j) ∧
    compare ( netprefix x y yp) 0 = netcmp (x.masked yp) (y.masked yp) ∧
    compare ( netprefix x y 128) 0 = netcmp x y ∧
    (∀ shorter ≤ yp, netprefix x y yp = 0 → netprefix x y shorter = 0) ∧
    ( netprefix x netIn64 96 = 0 ↔ netcmp4 x = .eq) := by
  refine ⟨netprefix_eq_zero_iff, netprefix_sign x y yp, ?_, ?_, ?_⟩
  · rw [netprefix_sign, netcmp_masked, netcmp, keep_of_le (by rw [x.size]),
      keep_of_le (by rw [y.size])]
  · intro shorter hShorter hSame
    rw [netprefix_eq_zero_iff] at hSame ⊢
    exact fun j hj => hSame j (by omega)
  · rw [netprefix_eq_zero_iff, netcmp4_eq_iff]
    rfl

end Address

end Peak.Locate
