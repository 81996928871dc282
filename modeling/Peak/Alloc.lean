import Mathlib.Algebra.Group.Nat.Defs

/-! What the pools and buffers use of `include/peak_alloc.h`. Sizes are
`size_t` values. -/
namespace Peak

/-- `ALLOC_ALIGN`. -/
def allocAlign (x y : Nat) : Nat := (x + y - if x % y ≠ 0 then x % y else y) % 2 ^ 64

/-- The largest size that `malign` asks the system for: `SIZE_MAX` less what it
adds itself. -/
def malignLimit : Nat := 2 ^ 64 - 1 - 64 - 72

end Peak
