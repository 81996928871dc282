import Mathlib.Tactic.Common
import Peak.Alloc

/-! The allocations of `include/peak_alloc.h`: every block has a header in front
of what the caller gets and a guard of eight bytes behind it. Places in a block
are offsets from where the system put it. -/
namespace Peak.Guarded

/-- A granted block: the bytes asked for, the offset of the user's part, the size
in its header, and the ranges that were written, as offset and length. -/
structure Block where
  requested : Nat
  user : Nat
  size : Nat
  writes : List (Nat × Nat)
deriving DecidableEq, Repr

/-- What an allocation comes to: no block, after a request of that many bytes was
refused or without one, or a block. -/
inductive Outcome where
  | null (requested : Option Nat)
  | made (block : Block)
deriving DecidableEq, Repr

/-- The bytes that the system was asked for. -/
def Outcome.requested : Outcome → Option Nat
  | .null requested => requested
  | .made block => some block.requested

def sizeMax : Nat := 2 ^ 64 - 1

/-- `sizeof(struct peak_malloc_head)`. -/
def mallocHead : Nat := 16

/-- `sizeof(struct peak_malign_head)`. -/
def malignHead : Nat := 64

/-- `ALLOC_PAD` for a header of that size. -/
def allocPad (head : Nat) : Nat := head + 8

/-- `ALLOC_CACHELINE`. -/
def allocCacheline : Nat := 64

/-- `_peak_finalise_malloc` and `_peak_finalise_malign`: `ALLOC_INIT` writes the
size, the magic in front of the user's part and the guard behind it. -/
def finalise (head size requested : Nat) : Outcome :=
  .made {
    requested := requested
    user := head
    size := size
    writes := [(0, 8), (head - 8, 8), (head + size, 8)] }

/-- `MUL_NO_OVERFLOW`. -/
def mulNoOverflow : Nat := 2 ^ 32

/-- The test in front of the product of two sizes. -/
def mulOverflows (count size : Nat) : Bool :=
  (mulNoOverflow ≤ count || mulNoOverflow ≤ size) && 0 < count && sizeMax / count < size

section Calls

variable (grant : Nat → Bool)

/-- `peak_malloc`. -/
def peakMalloc (size : Nat) : Outcome :=
  if size = 0 then .null none
  else if sizeMax - allocPad mallocHead < size then .null none
  else if grant ((size + allocPad mallocHead) % 2 ^ 64) then
    finalise mallocHead size ((size + allocPad mallocHead) % 2 ^ 64)
  else .null (some ((size + allocPad mallocHead) % 2 ^ 64))

/-- A write of that many bytes to the user's part. -/
def Outcome.fill (size : Nat) : Outcome → Outcome
  | .null requested => .null requested
  | .made block => .made { block with writes := (block.user, size) :: block.writes }

/-- `peak_calloc`. -/
def peakCalloc (count size : Nat) : Outcome :=
  if mulOverflows count size then .null none
  else (peakMalloc grant (size * count % 2 ^ 64)).fill (size * count % 2 ^ 64)

/-- `_peak_realloc`, given the size in the header of the old block, with whether
that block was freed. -/
def peakRealloc (old : Option Nat) (size : Nat) : Outcome × Bool :=
  if size = 0 then (.null none, old.isSome)
  else
    match peakMalloc grant size with
    | .null requested => (.null requested, false)
    | .made block =>
        let copied := if old.getD 0 < size then old.getD 0 else size
        ((if copied = 0 then .made block else Outcome.fill copied (.made block)), old.isSome)

/-- `_peak_reallocarray`. -/
def peakReallocarray (old : Option Nat) (count size : Nat) : Outcome × Bool :=
  if mulOverflows count size then (.null none, false)
  else peakRealloc grant old (size * count % 2 ^ 64)

/-- `peak_malign`. -/
def peakMalign (count size : Nat) : Outcome :=
  if size = 0 then .null none
  else if mulOverflows count size then .null none
  else if sizeMax - allocCacheline - allocPad malignHead < size * count % 2 ^ 64 then .null none
  else if grant ((allocAlign (size * count % 2 ^ 64) allocCacheline + allocPad malignHead) % 2 ^ 64)
  then finalise malignHead (size * count % 2 ^ 64)
    ((allocAlign (size * count % 2 ^ 64) allocCacheline + allocPad malignHead) % 2 ^ 64)
  else .null (some ((allocAlign (size * count % 2 ^ 64) allocCacheline + allocPad malignHead) %
    2 ^ 64))

end Calls

/-- What an allocation of `bytes` bytes keeps to, all in exact arithmetic: a
request is the size `exact` and holds header, bytes and guard, all writes to a
block stay inside of it, and nothing is asked for that does not fit a `size_t`. -/
structure Sound (outcome : Outcome) (bytes head exact : Nat) : Prop where
  request : ∀ n, outcome.requested = some n → n = exact ∧ bytes + head + 8 ≤ n ∧ n ≤ sizeMax
  block : ∀ b, outcome = .made b → b.user = head ∧ b.size = bytes ∧ (b.user + b.size, 8) ∈ b.writes ∧
    ∀ w ∈ b.writes, w.1 + w.2 ≤ b.requested
  large : sizeMax < bytes + head + 8 → outcome = .null none

section Product

variable {count size : Nat}

theorem mul_le_sizeMax (hCount : count < mulNoOverflow) (hSize : size < mulNoOverflow) :
    size * count ≤ sizeMax := by
  simp only [mulNoOverflow] at hCount hSize
  calc size * count ≤ (2 ^ 32 - 1) * (2 ^ 32 - 1) := Nat.mul_le_mul (by omega) (by omega)
    _ ≤ sizeMax := by decide

/-- The test tells exactly the products that do not fit. -/
theorem mulOverflows_iff (count size : Nat) : mulOverflows count size ↔ sizeMax < size * count := by
  simp only [mulOverflows, Bool.and_eq_true, Bool.or_eq_true, decide_eq_true_eq]
  constructor
  · intro h
    obtain ⟨⟨-, hPos⟩, hLarge⟩ := h
    exact (Nat.div_lt_iff_lt_mul hPos).mp hLarge
  · intro hLarge
    have hPos : 0 < count := by
      rcases Nat.eq_zero_or_pos count with hZero | hPos
      · rw [hZero, Nat.mul_zero] at hLarge
        exact absurd hLarge (Nat.not_lt_zero _)
      · exact hPos
    have hHigh : mulNoOverflow ≤ count ∨ mulNoOverflow ≤ size := by
      by_contra hLow
      have hFits : size * count ≤ sizeMax := mul_le_sizeMax (by omega) (by omega)
      omega
    exact ⟨⟨hHigh, hPos⟩, (Nat.div_lt_iff_lt_mul hPos).mpr hLarge⟩

/-- A product that the test lets pass is computed without a wrap. -/
theorem mul_mod_of_not (h : ¬mulOverflows count size) : size * count % 2 ^ 64 = count * size := by
  rw [mulOverflows_iff, sizeMax] at h
  rw [Nat.mod_eq_of_lt (by omega), Nat.mul_comm]

end Product

section Sizes

variable (grant : Nat → Bool) {outcome : Outcome} {bytes head exact size count n : Nat}

/-- Nothing is asked for. -/
theorem sound_null (bytes head exact : Nat) : Sound (.null none) bytes head exact where
  request := fun _ h => nomatch h
  block := fun _ h => nomatch h
  large := fun _ => rfl

/-- A request that holds header, bytes and guard is sound, granted or not. -/
theorem sound_finalise (hHead : 16 ≤ head) (hHolds : bytes + head + 8 ≤ exact) (hFits : exact ≤ sizeMax) :
    Sound (if grant exact then finalise head bytes exact else .null (some exact)) bytes head exact := by
  split_ifs with hGrant
  · refine ⟨?_, ?_, fun hLarge => by omega⟩
    · intro n hn
      cases hn
      exact ⟨rfl, hHolds, hFits⟩
    · intro b hb
      cases hb
      refine ⟨rfl, rfl, by simp, ?_⟩
      intro w hw
      simp only [List.mem_cons, List.not_mem_nil, or_false] at hw
      rcases hw with rfl | rfl | rfl <;> simp only <;> omega
  · refine ⟨?_, fun _ h => (nomatch h), fun hLarge => by omega⟩
    intro n hn
    cases hn
    exact ⟨rfl, hHolds, hFits⟩

/-- Writing to the bytes of the user stays in the block. -/
theorem Sound.fill (hSound : Sound outcome bytes head exact) (hLe : size ≤ bytes) :
    Sound (outcome.fill size) bytes head exact := by
  cases outcome with
  | null requested => exact ⟨hSound.request, fun _ h => (nomatch h), hSound.large⟩
  | made block =>
      obtain ⟨hUser, hSize, hGuard, hWrites⟩ := hSound.block block rfl
      refine ⟨hSound.request, ?_, fun hLarge => nomatch hSound.large hLarge⟩
      intro b hb
      cases hb
      refine ⟨hUser, hSize, List.mem_cons_of_mem _ hGuard, ?_⟩
      intro w hw
      rcases List.mem_cons.mp hw with rfl | hOld
      · have hEnd := hWrites _ hGuard
        simp only at hEnd ⊢
        omega
      · exact hWrites w hOld

theorem peakMalloc_sound (size : Nat) :
    Sound (peakMalloc grant size) size mallocHead (size + mallocHead + 8) := by
  by_cases hNone : size = 0 ∨ sizeMax - allocPad mallocHead < size
  · have hNull : peakMalloc grant size = .null none := by
      rw [peakMalloc]
      split_ifs with hZero hLarge
      · rfl
      · rfl
      · exact absurd hNone (not_or.mpr ⟨hZero, hLarge⟩)
      · exact absurd hNone (not_or.mpr ⟨hZero, hLarge⟩)
    rw [hNull]
    exact sound_null _ _ _
  · obtain ⟨hZero, hLarge⟩ := not_or.mp hNone
    simp only [sizeMax, allocPad, mallocHead] at hLarge
    have hSum : (size + allocPad mallocHead) % 2 ^ 64 = size + mallocHead + 8 := by
      simp only [allocPad, mallocHead]
      omega
    rw [peakMalloc, if_neg hZero, if_neg (not_or.mp hNone).2, hSum]
    apply sound_finalise grant (by decide) (Nat.le_refl _)
    simp only [sizeMax, mallocHead]
    omega

theorem peakCalloc_sound (count size : Nat) :
    Sound (peakCalloc grant count size) (count * size) mallocHead (count * size + mallocHead + 8) := by
  rw [peakCalloc]
  split_ifs with hOverflow
  · exact sound_null _ _ _
  · rw [mul_mod_of_not hOverflow]
    exact (peakMalloc_sound grant _).fill (Nat.le_refl _)

theorem peakRealloc_sound (old : Option Nat) (size : Nat) :
    Sound (peakRealloc grant old size).1 size mallocHead (size + mallocHead + 8) := by
  have hSound := peakMalloc_sound grant size
  rw [peakRealloc]
  by_cases hZero : size = 0
  · rw [if_pos hZero]
    exact sound_null _ _ _
  · rw [if_neg hZero]
    cases hMalloc : peakMalloc grant size with
    | null requested =>
        rw [hMalloc] at hSound
        exact hSound
    | made block =>
        rw [hMalloc] at hSound
        have hLe : (if old.getD 0 < size then old.getD 0 else size) ≤ size := by
          split_ifs with hOld
          · exact Nat.le_of_lt hOld
          · exact Nat.le_refl _
        simp only
        generalize (if old.getD 0 < size then old.getD 0 else size) = copied at hLe
        split_ifs with hCopied
        · exact hSound
        · exact hSound.fill hLe

theorem peakReallocarray_sound (old : Option Nat) (count size : Nat) :
    Sound (peakReallocarray grant old count size).1 (count * size) mallocHead
      (count * size + mallocHead + 8) := by
  rw [peakReallocarray]
  split_ifs with hOverflow
  · exact sound_null _ _ _
  · rw [mul_mod_of_not hOverflow]
    exact peakRealloc_sound grant old _

/-- The bytes rounded up to whole cache lines. -/
def cacheLines (bytes : Nat) : Nat := (bytes + (allocCacheline - 1)) / allocCacheline * allocCacheline

theorem allocAlign_cacheline {bytes : Nat} (h : bytes < 2 ^ 64 - 64) :
    allocAlign bytes allocCacheline = cacheLines bytes := by
  rw [cacheLines, show allocCacheline = 64 from rfl, allocAlign]
  split_ifs with hPart <;> omega

theorem peakMalign_sound (count size : Nat) :
    Sound (peakMalign grant count size) (count * size) malignHead
      (cacheLines (count * size) + malignHead + 8) := by
  rw [peakMalign]
  by_cases hZero : size = 0
  · rw [if_pos hZero]
    exact sound_null _ _ _
  · by_cases hOverflow : mulOverflows count size
    · rw [if_neg hZero, if_pos hOverflow]
      exact sound_null _ _ _
    · rw [if_neg hZero, if_neg hOverflow, mul_mod_of_not hOverflow]
      generalize count * size = bytes
      by_cases hLarge : sizeMax - allocCacheline - allocPad malignHead < bytes
      · rw [if_pos hLarge]
        exact sound_null _ _ _
      · rw [if_neg hLarge]
        simp only [sizeMax, allocCacheline, allocPad, malignHead] at hLarge
        have hSum : (allocAlign bytes allocCacheline + allocPad malignHead) % 2 ^ 64 =
            cacheLines bytes + malignHead + 8 := by
          rw [allocAlign_cacheline (by omega)]
          simp only [allocCacheline, allocPad, malignHead, cacheLines]
          omega
        rw [hSum]
        apply sound_finalise grant (by decide)
        · simp only [cacheLines, allocCacheline]
          omega
        · simp only [cacheLines, allocCacheline, malignHead, sizeMax]
          omega

/-- No size of an allocation wraps, whatever is asked for. -/
theorem sizes_never_wrap (grant : Nat → Bool) (old : Option Nat) (count size : Nat) :
    Sound (peakMalloc grant size) size 16 (size + 24) ∧
    Sound (peakCalloc grant count size) (count * size) 16 (count * size + 24) ∧
    Sound (peakReallocarray grant old count size).1 (count * size) 16 (count * size + 24) ∧
    Sound (peakMalign grant count size) (count * size) 64 (cacheLines (count * size) + 72) :=
  ⟨peakMalloc_sound grant size, peakCalloc_sound grant count size,
    peakReallocarray_sound grant old count size, peakMalign_sound grant count size⟩

end Sizes

end Peak.Guarded
