import Peak.Base.Pointers
import Peak.Guarded

/-! The guards of a block in memory. `free` only takes a block back whose guards
are what the allocation wrote. -/
namespace Peak.Guarded

open Pointers

/-- `malign_VALUE`. -/
def malignValue : Nat := 0x9B97A6B5C4D3E2F1

/-- `malloc_VALUE`. -/
def mallocValue : Nat := 0xD12E3D4C5B6A7989

variable (m : Nat → UInt8)

/-- `ALLOC_INIT` of the block at `x`, whose header has `head` bytes. -/
def allocInit (value head x size : Nat) : Nat → UInt8 :=
  setWord (setWord (setWord m x size) (x + head - 8) value) (x + head + size) value

/-- `peak_malign` with the memory that it leaves. The system gives the address of
a block of so many bytes, or none. -/
def malign (system : Nat → Option Nat) (count size : Nat) : Option (Nat × (Nat → UInt8)) :=
  match peakMalign (fun n => (system n).isSome) count size with
  | .null _ => none
  | .made block =>
      (system block.requested).map fun x =>
        (x + block.user, allocInit m malignValue block.user x block.size)

/-- `ALLOC_HEALTHY`, `ALLOC_UNDERFLOW` and `ALLOC_OVERFLOW`. -/
inductive Health where
  | healthy
  | underflow
  | overflow
deriving DecidableEq, Repr

/-- `_peak_mcheck_malloc` and `_peak_mcheck_malign`. -/
def mcheck (value head ptr : Nat) : Health :=
  if value ≠ word m (ptr + word m (ptr - head)) then .overflow else .healthy

/-- `__peak_free`. -/
def peakFree : Option Nat → Health
  | none => .healthy
  | some ptr =>
      if word m (ptr - 8) = mallocValue then mcheck m mallocValue mallocHead ptr
      else if word m (ptr - 8) = malignValue then mcheck m malignValue malignHead ptr
      else .underflow

/-- `ALLOC_ERROR`. -/
def allocError : Health → Except String Unit
  | .healthy => .ok ()
  | .underflow => .error "buffer underflow detected\n"
  | .overflow => .error "buffer overflow detected\n"

/-- The guards around `bytes` bytes at `start` are what `peak_malign` wrote. -/
structure Intact (start bytes : Nat) : Prop where
  size : word m (start - 64) = bytes
  magic : word m (start - 8) = malignValue
  tail : word m (start + bytes) = malignValue

variable {m} {m' : Nat → UInt8} {start bytes count size : Nat}

/-- Guards stay intact under writes between them and outside of the block. -/
theorem Intact.congr (h : Intact m start bytes) (hHead : 64 ≤ start)
    (hSame : ∀ i, start - 64 ≤ i → i < start + bytes + 8 → m' i ≠ m i → start ≤ i ∧ i < start + bytes) :
    Intact m' start bytes := by
  have hWord : ∀ a, start - 64 ≤ a → a + 8 ≤ start ∨ a = start + bytes → word m' a = word m a := by
    intro a hLow hPlace
    apply word_congr
    intro i hi hi'
    by_contra hOther
    have hInside := hSame i (by omega) (by omega) hOther
    omega
  refine ⟨?_, ?_, ?_⟩
  · rw [hWord _ (Nat.le_refl _) (by omega)]
    exact h.size
  · rw [hWord _ (by omega) (by omega)]
    exact h.magic
  · rw [hWord _ (by omega) (.inr rfl)]
    exact h.tail

/-- `free` takes a block with intact guards back. -/
theorem Intact.peakFree (h : Intact m start bytes) : peakFree m (some start) = .healthy := by
  rw [Guarded.peakFree, h.magic, if_neg (by decide), if_pos rfl, mcheck, malignHead, h.size, h.tail]
  exact if_neg fun hOther => hOther rfl

theorem intact_allocInit {x : Nat} (hBytes : bytes < 2 ^ 64) :
    Intact (allocInit m malignValue malignHead x bytes) (x + malignHead) bytes := by
  have hValue : malignValue < 2 ^ 64 := by decide
  rw [allocInit, malignHead]
  refine ⟨?_, ?_, ?_⟩
  · rw [Nat.add_sub_cancel, word_setWord_apart (by omega), word_setWord_apart (by omega),
      word_setWord hBytes]
  · rw [word_setWord_apart (by omega), word_setWord hValue]
  · exact word_setWord hValue

/-- What the block of `peak_malign` is, if it gives one: guarded, and with room
for the exact product between the guards. -/
theorem malign_spec {system : Nat → Option Nat} (hSystem : ∀ n x, system n = some x → x + n ≤ 2 ^ 64)
    (h : malign m system count size = some (start, m')) :
    64 ≤ start ∧ start + count * size + 8 ≤ 2 ^ 64 ∧ Intact m' start (count * size) := by
  rw [malign] at h
  have hSound := peakMalign_sound (fun n => (system n).isSome) count size
  cases hBlock : peakMalign (fun n => (system n).isSome) count size with
  | null requested =>
      rw [hBlock] at h
      cases h
  | made block =>
      rw [hBlock] at h hSound
      obtain ⟨hUser, hSize, -⟩ := hSound.block block rfl
      obtain ⟨-, hHolds, hLimit⟩ := hSound.request block.requested rfl
      obtain ⟨x, hx, hEnd⟩ := Option.map_eq_some_iff.mp h
      have hRoom := hSystem _ _ hx
      rw [hUser, hSize] at hEnd
      cases hEnd
      simp only [malignHead, sizeMax] at hHolds hLimit ⊢
      exact ⟨by omega, by omega, intact_allocInit (by omega)⟩

end Peak.Guarded
