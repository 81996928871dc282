import Peak.Base.Run
import Peak.Stream.Pages

/-! What the two calls of the stream interface do, case by case. A release
gives whole pages back and moves the buffer; a claim is served in one of the
cases that the source names, or refused. -/
namespace Peak.Streams

open Cells Run

variable {pool pool' : Streams} {stream stream' : Stream} {size : Nat}

/-- A pass of the loop gives one page. -/
theorem min_pageCount_succ {count : Int} (hNonneg : 0 ≤ count) (hMore : count ≠ 0) (passes : Nat) :
    min count.toNat (passes + 1) = min (count - 1).toNat passes + 1 := by
  omega

section Pass

variable {page : Nat} (hPage : page < 2 ^ 64)

include hPage

/-- One pass lowers what is left to release by one page. -/
theorem pass_rest {sizeAdj : Nat} (hMore : page ≤ (sizeAdj + size) % 2 ^ 64) :
    (sizeAdj + (size + 2 ^ 64 - page) % 2 ^ 64) % 2 ^ 64 = (sizeAdj + size) % 2 ^ 64 - page := by
  omega

theorem pass_buf (buf : Nat) :
    ((buf + page) % 2 ^ 64 + (size + 2 ^ 64 - page) % 2 ^ 64) % 2 ^ 64 = (buf + size) % 2 ^ 64 := by
  omega

theorem pass_len (hSize : size < 2 ^ 64) (len : Nat) :
    ((len + 2 ^ 64 - page) % 2 ^ 64 + 2 ^ 64 - (size + 2 ^ 64 - page) % 2 ^ 64) % 2 ^ 64 =
      (len + 2 ^ 64 - size) % 2 ^ 64 := by
  omega

end Pass

/-- The loop gives as many whole pages as the release covers and the stream
has. Buffer and length move only against the rest of the size. -/
theorem releaseLoop_spec {sizeAdj passes size' : Nat} (hSize : size < 2 ^ 64)
    (hLow : passes * pool.pageSize ≤ (sizeAdj + size) % 2 ^ 64)
    (hHigh : (sizeAdj + size) % 2 ^ 64 < (passes + 1) * pool.pageSize)
    (hNonneg : 0 ≤ stream.pageCount)
    (h : releaseLoop sizeAdj pool stream size passes = .ok (pool', stream', size')) :
    Gives pool pool' stream.pageNo (min stream.pageCount.toNat passes) ∧
      pool'.references = pool.references ∧
      stream'.slot = stream.slot ∧
      stream'.pageNo = stream.pageNo + min stream.pageCount.toNat passes ∧
      stream'.pageCount = stream.pageCount - min stream.pageCount.toNat passes ∧
      (stream'.buf + size') % 2 ^ 64 = (stream.buf + size) % 2 ^ 64 ∧
      (stream'.len + 2 ^ 64 - size') % 2 ^ 64 = (stream.len + 2 ^ 64 - size) % 2 ^ 64 := by
  induction passes generalizing pool stream size with
  | zero =>
      cases h
      simpa using Gives.none _ _
  | succ passes ih =>
      simp only [releaseLoop] at h
      split_ifs at h with hMore
      · obtain ⟨next, hRelease, hLoop⟩ := bind_eq_ok h
        obtain ⟨hGives, hRefs⟩ := releasePage_gives hRelease
        have hMin := min_pageCount_succ hNonneg hMore.1 passes
        have hLt := pool.pageSize_lt
        have hSame := hGives.area.pageSize
        rw [hSame] at hLoop
        rw [Nat.succ_mul] at hLow
        rw [Nat.succ_mul] at hHigh
        have hLeft := pass_rest hLt hMore.2
        obtain ⟨hRest, hRefs', hSlot, hNo, hCount, hBuf, hLen⟩ :=
          ih (Nat.mod_lt _ (by omega)) (by rw [hSame, hLeft]; omega)
            (by rw [hSame, hLeft]; omega) (by simp only; omega) hLoop
        simp only at hRest hSlot hNo hCount hBuf hLen
        rw [hMin]
        refine ⟨hGives.succ hRest, hRefs'.trans hRefs, hSlot, by omega, by omega, ?_, ?_⟩
        · rw [hBuf, pass_buf hLt]
        · rw [hLen, pass_len hLt hSize]
      · have hZero : stream.pageCount = 0 := by
          by_contra hCount
          refine hMore ⟨hCount, ?_⟩
          rw [Nat.succ_mul] at hLow
          omega
        cases h
        rw [hZero]
        simpa using Gives.none _ _

/-- What every page given back keeps is kept by the loop, and the stream keeps its
reference. -/
theorem releaseLoop_keeps {sizeAdj passes left : Nat} (Inv : Streams → Prop)
    (hKeep : ∀ pool no pool', Inv pool → pool.releasePage no = .ok pool' → Inv pool')
    (hStart : Inv pool)
    (h : releaseLoop sizeAdj pool stream size passes = .ok (pool', stream', left)) :
    Inv pool' ∧ stream'.slot = stream.slot := by
  induction passes generalizing pool stream size with
  | zero =>
      cases h
      exact ⟨hStart, rfl⟩
  | succ passes ih =>
      simp only [releaseLoop] at h
      split_ifs at h with hMore
      · obtain ⟨next, hRelease, hLoop⟩ := bind_eq_ok h
        obtain ⟨hInv, hSlot⟩ := ih (hKeep _ _ _ hStart hRelease) hLoop
        exact ⟨hInv, hSlot⟩
      · cases h
        exact ⟨hStart, rfl⟩

/-- The number of pages that a release gives back. -/
def given (pool : Streams) (stream : Stream) (size : Nat) : Nat :=
  min stream.pageCount.toNat ((pool.sizeAdj stream + size) % 2 ^ 64 / pool.pageSize)

/-- What a release leaves of a stream. -/
def remainder (pool : Streams) (stream : Stream) (size : Nat) : Option Stream :=
  if (stream.len + 2 ^ 64 - size) % 2 ^ 64 = 0 then none
  else
    some
      { stream with
        pageCount := stream.pageCount - pool.given stream size
        pageNo := stream.pageNo + pool.given stream size
        len := (stream.len + 2 ^ 64 - size) % 2 ^ 64
        buf := (stream.buf + size) % 2 ^ 64 }

theorem Gives.put {first count : Nat} (hGives : Gives pool pool' first count) (stream : Stream) :
    Gives pool (pool'.put stream) first count :=
  ⟨⟨hGives.area.pageCount, hGives.area.pageSize⟩, hGives.used, hGives.tree, hGives.mem⟩

/-- `peak_stream_release` on a live stream. -/
theorem release_spec {ref' : Option Stream} (hSize : size < 2 ^ 64) (hNonzero : size ≠ 0)
    (hNonneg : 0 ≤ stream.pageCount)
    (h : pool.release (some stream) size = .ok (pool', ref')) :
    Gives pool pool' stream.pageNo (pool.given stream size) ∧
      ref' = pool.remainder stream size := by
  simp only [release, if_neg hNonzero] at h
  obtain ⟨⟨next, stream', size'⟩, hLoop, hEnd⟩ := bind_eq_ok h
  obtain ⟨hGives, -, hSlot, hNo, hCount, hBuf, hLen⟩ :=
    releaseLoop_spec hSize (Nat.div_mul_le_self _ _)
      (Nat.lt_mul_of_div_lt (Nat.lt_succ_self _) pool.pageSize_pos) hNonneg hLoop
  simp only [hBuf, hLen] at hEnd
  simp only [remainder, given]
  split_ifs at hEnd ⊢ with hEmpty
  · cases hEnd
    exact ⟨hGives.put _, rfl⟩
  · cases hEnd
    refine ⟨hGives, ?_⟩
    rw [← hSlot, ← hNo, ← hCount]

/-- What `peak_stream_release` did. -/
inductive Released (pool : Streams) (size : Nat) :
    Option Stream → Streams → Option Stream → Prop where
  | nothing (ref : Option Stream) (hNothing : size = 0 ∨ ref = none) :
      Released pool size ref pool ref
  | front {stream : Stream} {pool' : Streams} (hSize : size ≠ 0)
      (hGives : Gives pool pool' stream.pageNo (pool.given stream size)) :
      Released pool size (some stream) pool' (pool.remainder stream size)

theorem release_released {ref ref' : Option Stream} (hSize : size < 2 ^ 64)
    (hNonneg : ∀ stream, ref = some stream → 0 ≤ stream.pageCount)
    (h : pool.release ref size = .ok (pool', ref')) : Released pool size ref pool' ref' := by
  rcases eq_or_ne size 0 with rfl | hNonzero
  · cases h
    exact .nothing _ (.inl rfl)
  cases ref with
  | none =>
      simp only [release, if_neg hNonzero] at h
      cases h
      exact .nothing _ (.inr rfl)
  | some stream =>
      obtain ⟨hGives, rfl⟩ := release_spec hSize hNonzero (hNonneg stream rfl) h
      exact .front hNonzero hGives

/-- A stream that was made for `size` bytes. -/
structure Fresh (pool : Streams) (size : Nat) (pool' : Streams) (stream : Stream) : Prop where
  free : stream.pageNo ∈ pool.pageTree.pages
  takes : Takes pool pool' stream.pageNo (pool.pagesFor size)
  pageCount : stream.pageCount = pool.pagesFor size
  len : stream.len = size % 2 ^ 64
  buf : stream.buf = pool.page stream.pageNo

/-- `_peak_stream_claim` without a stream. -/
theorem claimDirect_none_cases {ret : Bool} {ref' : Option Stream}
    (h : pool.claimDirect none size = .ok (ret, pool', ref')) :
    (size = 0 ∧ ret = true ∧ pool' = pool ∧ ref' = none) ∨
    (ret = false ∧ pool' = pool ∧ ref' = none) ∨
    (size ≠ 0 ∧ ret = true ∧ ∃ stream, ref' = some stream ∧ Fresh pool size pool' stream) := by
  simp only [claimDirect] at h
  split_ifs at h with hZero hEmpty
  · cases h
    exact .inl ⟨hZero, rfl, rfl, rfl⟩
  · cases h
    exact .inr (.inl ⟨rfl, rfl, rfl⟩)
  · obtain ⟨found, hClaim, hEnd⟩ := bind_eq_ok h
    rcases claimPages_cases hClaim with rfl | ⟨no, next, rfl, hFree, hTakes, -⟩
    · cases hEnd
      exact .inr (.inl ⟨rfl, rfl, rfl⟩)
    · obtain ⟨⟨last, stream⟩, hGet, hLast⟩ := bind_eq_ok hEnd
      simp only [get] at hGet
      cases hRefs : next.references with
      | nil =>
          rw [hRefs] at hGet
          cases hGet
      | cons slot rest =>
          rw [hRefs] at hGet
          cases hGet
          cases hLast
          refine .inr (.inr ⟨hZero, rfl, _, rfl, hFree, ?_, ?_, ?_, ?_⟩)
          · exact ⟨⟨hTakes.area.pageCount, hTakes.area.pageSize⟩, hTakes.free, hTakes.tree,
              hTakes.mem⟩
          · simp [extend]
          · simp [extend]
          · simp only [extend, page, hTakes.area.pageSize]

/-- `_peak_stream_claim` with a stream. -/
theorem claimDirect_some_cases {ret : Bool} {ref' : Option Stream}
    (h : pool.claimDirect (some stream) size = .ok (ret, pool', ref')) :
    (size = 0 ∧ ret = true ∧ pool' = pool ∧ ref' = some stream) ∨
    (size ≠ 0 ∧ pool.lacking stream size = 0 ∧ ret = true ∧ pool' = pool ∧
      ref' = some { stream with len := (stream.len + size) % 2 ^ 64 }) ∨
    (size ≠ 0 ∧ ret = false ∧ pool' = pool ∧ ref' = some stream ∧
      ¬pool.FreeFrom (stream.pageNo + stream.pageCount) (pool.lacking stream size).toNat) ∨
    (size ≠ 0 ∧ pool.lacking stream size ≠ 0 ∧ ret = true ∧
      ref' = some (pool.extend stream stream.pageNo (pool.lacking stream size) size) ∧
      pool.FreeFrom (stream.pageNo + stream.pageCount) (pool.lacking stream size).toNat ∧
      ∃ first : Nat, (pool.lacking stream size ≤ 0 ∨
        (first : Int) = stream.pageNo + stream.pageCount) ∧
        Takes pool pool' first (pool.lacking stream size).toNat) := by
  simp only [claimDirect] at h
  split_ifs at h with hZero hTrivial
  · cases h
    exact .inl ⟨hZero, rfl, rfl, rfl⟩
  · cases h
    exact .inr (.inl ⟨hZero, hTrivial, rfl, rfl, rfl⟩)
  · obtain ⟨found, hReclaim, hEnd⟩ := bind_eq_ok h
    rcases reclaimPages_cases hReclaim with
      ⟨rfl, hBlocked⟩ | ⟨next, first, rfl, hFree, hFirst, hTakes, -⟩
    · cases hEnd
      exact .inr (.inr (.inl ⟨hZero, rfl, rfl, rfl, hBlocked⟩))
    · cases hEnd
      refine .inr (.inr (.inr ⟨hZero, hTrivial, rfl, ?_, hFree, first, hFirst, hTakes⟩))
      simp only [extend, hTakes.area.page]

/-- How `peak_stream_claim` was served. -/
inductive Claimed (pool : Streams) (size : Nat) :
    Option Stream → Bool → Streams → Option Stream → Prop where
  | nothing (ref : Option Stream) (hZero : size = 0) : Claimed pool size ref true pool ref
  | refused (ref : Option Stream) : Claimed pool size ref false pool ref
  | fresh {pool' : Streams} {stream : Stream} (hSize : size ≠ 0)
      (hFresh : Fresh pool size pool' stream) : Claimed pool size none true pool' (some stream)
  | trivial {stream : Stream} (hSize : size ≠ 0) (hLacking : pool.lacking stream size = 0) :
      Claimed pool size (some stream) true pool
        (some { stream with len := (stream.len + size) % 2 ^ 64 })
  | inPlace {stream : Stream} {pool' : Streams} {first : Nat} (hSize : size ≠ 0)
      (hLacking : pool.lacking stream size ≠ 0)
      (hFree : pool.FreeFrom (stream.pageNo + stream.pageCount) (pool.lacking stream size).toNat)
      (hFirst : pool.lacking stream size ≤ 0 ∨ (first : Int) = stream.pageNo + stream.pageCount)
      (hTakes : Takes pool pool' first (pool.lacking stream size).toNat) :
      Claimed pool size (some stream) true pool'
        (some (pool.extend stream stream.pageNo (pool.lacking stream size) size))
  | relocated {stream retry : Stream} {pool' pool'' : Streams} {ref' : Option Stream}
      (hSize : size ≠ 0)
      (hBlocked :
        ¬pool.FreeFrom (stream.pageNo + stream.pageCount) (pool.lacking stream size).toNat)
      (hFresh : Fresh pool ((stream.len + size) % 2 ^ 64) pool' retry)
      (hRelease : (pool'.copy retry.buf stream.buf stream.len).release (some stream) stream.len =
        .ok (pool'', ref')) :
      Claimed pool size (some stream) true pool'' (some retry)

/-- A claim that is refused changes nothing. -/
theorem Claimed.eq_of_refused {ref ref' : Option Stream}
    (h : Claimed pool size ref false pool' ref') : pool' = pool ∧ ref' = ref := by
  cases h
  exact ⟨rfl, rfl⟩

theorem claim_claimed {ret : Bool} {ref ref' : Option Stream}
    (h : pool.claim ref size = .ok (ret, pool', ref')) : Claimed pool size ref ret pool' ref' := by
  obtain ⟨⟨ret₁, pool₁, ref₁⟩, hDirect, hRest⟩ := bind_eq_ok h
  cases ref with
  | none =>
      rcases claimDirect_none_cases hDirect with
        ⟨hZero, rfl, rfl, rfl⟩ | ⟨rfl, rfl, rfl⟩ | ⟨hSize, rfl, stream, rfl, hFresh⟩
      · cases hRest
        exact .nothing none hZero
      · cases hRest
        exact .refused none
      · cases hRest
        exact .fresh hSize hFresh
  | some stream =>
      rcases claimDirect_some_cases hDirect with
        ⟨hZero, rfl, rfl, rfl⟩ | ⟨hSize, hLacking, rfl, rfl, rfl⟩ |
        ⟨hSize, rfl, rfl, rfl, hBlocked⟩ |
        ⟨hSize, hLacking, rfl, rfl, hFree, first, hFirst, hTakes⟩
      · cases hRest
        exact .nothing _ hZero
      · cases hRest
        exact .trivial hSize hLacking
      · obtain ⟨⟨ret₂, pool₂, ref₂⟩, hRetry, hEnd⟩ := bind_eq_ok hRest
        rcases claimDirect_none_cases hRetry with
          ⟨-, rfl, rfl, rfl⟩ | ⟨rfl, rfl, rfl⟩ | ⟨-, rfl, retry, rfl, hFresh⟩
        · cases hEnd
        · cases hEnd
          exact .refused _
        · obtain ⟨⟨pool₃, ref₃⟩, hRelease, hLast⟩ := bind_eq_ok hEnd
          cases hLast
          exact .relocated hSize hBlocked hFresh hRelease
      · cases hRest
        exact .inPlace hSize hLacking hFree hFirst hTakes

end Peak.Streams
