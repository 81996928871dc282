import Peak.Stream.Session

/-! Stream buffers and the pages they lie in. A claim that finds room on the
pages of the stream counts the bytes of the buffer but not the bytes released
in front of it, so the buffer can outgrow its pages; a size that wraps when it
is rounded up gets no page at all. Without these two the buffer of every stream
stays in the pages of that stream. -/
namespace Peak

open Cells Run

namespace Streams

variable {pool pool' : Streams} {stream stream' : Stream} {ref ref' : Option Stream} {size : Nat}

/-- The buffer lies in the pages of the stream, in exact arithmetic. -/
structure Inside (pool : Streams) (stream : Stream) : Prop where
  low : pool.page stream.pageNo ≤ stream.buf
  high : ((stream.buf + stream.len : Nat) : Int) ≤
    (stream.pageNo + stream.pageCount) * pool.pageSize

/-- The size rounded up to whole pages fits a `size_t`. -/
def RoundsUp (pool : Streams) (size : Nat) : Prop :=
  (size + pool.pageSize - if size % pool.pageSize ≠ 0 then size % pool.pageSize else pool.pageSize)
    < 2 ^ 64

instance (pool : Streams) (size : Nat) : Decidable (pool.RoundsUp size) :=
  inferInstanceAs (Decidable (_ < _))

/-- The bytes released in front of the buffer on its first page. -/
def offset (pool : Streams) (stream : Stream) : Nat := stream.buf - pool.page stream.pageNo

/-- Without a wrap the pages hold the size. -/
theorem le_pagesFor (h : pool.RoundsUp size) : size ≤ pool.pagesFor size * pool.pageSize := by
  have hDiv := Nat.div_add_mod size pool.pageSize
  have hMod := Nat.mod_lt size pool.pageSize_pos
  simp only [RoundsUp] at h
  simp only [pagesFor, allocAlign, Nat.mod_eq_of_lt h]
  split_ifs with hExact
  · have hPages : size + pool.pageSize - size % pool.pageSize =
        pool.pageSize * (size / pool.pageSize + 1) := by
      rw [Nat.mul_add, Nat.mul_one]
      omega
    rw [hPages, Nat.mul_div_cancel_left _ pool.pageSize_pos, Nat.mul_comm, Nat.mul_add, Nat.mul_one]
    omega
  · rw [Nat.add_sub_cancel, Nat.mul_comm]
    rw [not_not] at hExact
    omega

/-- A size that wraps when it is rounded up is worth no page. -/
theorem pagesFor_of_wraps (hSize : size < 2 ^ 64) (h : ¬pool.RoundsUp size) :
    pool.pagesFor size = 0 := by
  have hMod := Nat.mod_lt size pool.pageSize_pos
  have hLt := pool.pageSize_lt
  simp only [RoundsUp] at h
  simp only [pagesFor, allocAlign]
  apply Nat.div_eq_of_lt
  split_ifs at h ⊢ <;> omega

/-- The empty size rounds up. -/
theorem pos_of_wraps (h : ¬pool.RoundsUp size) : 0 < size := by
  rcases Nat.eq_zero_or_pos size with rfl | hPos
  · simp [RoundsUp] at h
  · exact hPos

theorem Inside.area (h : pool.Inside stream) (hArea : SameArea pool pool') :
    pool'.Inside stream :=
  ⟨by rw [hArea.page]; exact h.low, by rw [hArea.pageSize]; exact h.high⟩

/-- All of the page memory is addressed without a wrap. -/
theorem area_lt (pool : Streams) : pool.pageCount * pool.pageSize < 2 ^ 64 := by
  have := pool.fits
  simp only [malignLimit] at this
  omega

/-- A buffer inside its pages ends within the page memory. -/
theorem Inside.end_lt (h : pool.Inside stream) (hArea : stream.InArea pool) :
    stream.buf + stream.len < 2 ^ 64 := by
  have hLe : ((stream.pageNo + stream.pageCount) * pool.pageSize : Int) ≤
      pool.pageCount * pool.pageSize :=
    Int.mul_le_mul_of_nonneg_right hArea.le (by omega)
  have := pool.area_lt
  have := h.high
  omega

theorem Inside.sizeAdj (h : pool.Inside stream) (hArea : stream.InArea pool) :
    pool.sizeAdj stream = pool.offset stream := by
  have hEnd := h.end_lt hArea
  have hLow := h.low
  simp only [Streams.sizeAdj, offset]
  omega

/-- A stream inside its pages gives the whole pages in front of the bytes it
keeps. -/
theorem Inside.given (h : pool.Inside stream) (hArea : stream.InArea pool)
    (hSize : size ≤ stream.len) :
    pool.given stream size = (pool.offset stream + size) / pool.pageSize := by
  have hEnd := h.end_lt hArea
  have hLow := h.low
  have hHigh := h.high
  have hNonneg := hArea.nonneg
  have hSum : (pool.offset stream + size) % 2 ^ 64 = pool.offset stream + size :=
    Nat.mod_eq_of_lt (by simp only [offset]; omega)
  simp only [Streams.given, h.sizeAdj hArea, hSum]
  apply Nat.min_eq_right
  apply Nat.div_le_of_le_mul
  have hPages : ((stream.pageNo + stream.pageCount) * pool.pageSize : Int) =
      pool.page stream.pageNo + pool.pageSize * stream.pageCount.toNat := by
    simp only [page]
    rw [Int.add_mul]
    push_cast
    rw [Int.toNat_of_nonneg hNonneg, Int.mul_comm stream.pageCount]
  rw [hPages] at hHigh
  simp only [offset]
  omega

/-- Releasing from the front keeps the buffer inside. -/
theorem Inside.remainder (h : pool.Inside stream) (hArea : stream.InArea pool)
    (hSize : size ≤ stream.len) (hRest : pool.remainder stream size = some stream') :
    pool.Inside stream' := by
  have hEnd := h.end_lt hArea
  have hLow := h.low
  have hHigh := h.high
  have hGiven := h.given hArea hSize
  have hDiv := Nat.div_mul_le_self (pool.offset stream + size) pool.pageSize
  rw [← hGiven] at hDiv
  simp only [Streams.remainder] at hRest
  split_ifs at hRest
  cases hRest
  constructor
  · simp only [page, offset, Nat.add_mul] at hLow hDiv ⊢
    omega
  · simp only
    rw [show (stream.pageNo + pool.given stream size : Nat) + (stream.pageCount -
      pool.given stream size) = (stream.pageNo + stream.pageCount : Int) by push_cast; omega]
    omega

theorem Fresh.inside (hRounds : pool.RoundsUp size) (hFresh : Fresh pool size pool' stream) :
    pool'.Inside stream := by
  have hPages := le_pagesFor hRounds
  have hLen : stream.len ≤ size := hFresh.len ▸ Nat.mod_le _ _
  refine Inside.area ⟨hFresh.buf.ge, ?_⟩ hFresh.takes.area
  rw [hFresh.buf, hFresh.pageCount, Int.add_mul]
  simp only [page]
  omega

end Streams

namespace Session

variable {s s' : Session} {pool pool' : Streams} {ref ref' : Option Stream} {size : Nat}

/-- A claim for which the arithmetic of the code is exact: the size rounds up
without a wrap, and room on the last page is counted from the page start. -/
def ClaimFits (pool : Streams) (size : Nat) : Option Stream → Prop
  | none => size = 0 ∨ pool.pageTree.pages = [] ∨ pool.RoundsUp size
  | some stream =>
      size = 0 ∨ (pool.RoundsUp ((size + stream.len) % 2 ^ 64) ∧
        (pool.lacking stream size = 0 →
          ((pool.offset stream + (size + stream.len) % 2 ^ 64 : Nat) : Int) ≤
            stream.pageCount * pool.pageSize))

def CallFits (s : Session) : Call → Prop
  | .claim r size => ClaimFits s.pool size (s.refs r)
  | _ => True

instance (pool : Streams) (size : Nat) : (ref : Option Stream) → Decidable (ClaimFits pool size ref)
  | none => inferInstanceAs (Decidable (_ ∨ _ ∨ _))
  | some _ => inferInstanceAs (Decidable (_ ∨ (_ ∧ (_ → _))))

instance (s : Session) : (call : Call) → Decidable (s.CallFits call)
  | .claim _ _ => inferInstanceAs (Decidable (ClaimFits _ _ _))
  | .write _ _ _ => .isTrue trivial
  | .release _ _ => .isTrue trivial

theorem claimed_inside {ret : Bool} (hInside : ∀ stream, ref = some stream → pool.Inside stream)
    (hFits : ClaimFits pool size ref)
    (h : Streams.Claimed pool size ref ret pool' ref')
    (hMoves : Moves pool ref pool' ref') :
    ∀ stream, ref' = some stream → pool'.Inside stream := by
  cases h with
  | nothing => exact hInside
  | refused => exact hInside
  | @fresh pool' stream hSize hFresh =>
      intro other hOther
      cases hOther
      have hTree : pool.pageTree.pages ≠ [] := List.ne_nil_of_mem hFresh.free
      rcases hFits with hZero | hEmpty | hRounds
      · exact absurd hZero hSize
      · exact absurd hEmpty hTree
      · exact hFresh.inside hRounds
  | @trivial stream hSize hLacking =>
      intro other hOther
      cases hOther
      obtain ⟨-, hRoom⟩ := hFits.resolve_left hSize
      have hLow := (hInside stream rfl).low
      have hEnd := hRoom hLacking
      refine ⟨hLow, ?_⟩
      simp only [Streams.offset, Streams.page] at hEnd hLow ⊢
      rw [Int.add_mul, Nat.add_comm stream.len size]
      omega
  | @inPlace stream pool' first hSize hLacking hFree hFirst hTakes =>
      intro other hOther
      cases hOther
      obtain ⟨hRounds, -⟩ := hFits.resolve_left hSize
      have hPages := Streams.le_pagesFor hRounds
      refine Streams.Inside.area ⟨le_refl _, ?_⟩ hTakes.area
      rw [extend_pageCount, Int.add_mul]
      simp only [Streams.extend, Streams.page, Nat.add_comm stream.len size]
      omega
  | @relocated stream retry pool₁ pool' rest hSize hBlocked hFresh hRelease =>
      intro other hOther
      cases hOther
      obtain ⟨hRounds, -⟩ := hFits.resolve_left hSize
      rw [Nat.add_comm] at hRounds
      have hArea : Streams.SameArea pool₁ pool' :=
        ⟨hMoves.area.pageCount.trans hFresh.takes.area.pageCount.symm,
          hMoves.area.pageSize.trans hFresh.takes.area.pageSize.symm⟩
      exact (hFresh.inside hRounds).area hArea

/-- A claim that does not fit hands out a buffer that leaves its pages. -/
theorem fits_of_claimed_inside (hArea : ∀ stream, ref = some stream → stream.InArea pool)
    (hSize : size < 2 ^ 64) (h : Streams.Claimed pool size ref true pool' ref')
    (hInside : ∀ stream, ref' = some stream → pool'.Inside stream) : ClaimFits pool size ref := by
  cases h with
  | nothing ref hZero => cases ref <;> exact .inl hZero
  | @fresh pool' stream hNonzero hFresh =>
      right
      right
      by_contra hWraps
      have hHigh := (hInside stream rfl).high
      rw [hFresh.pageCount, Streams.pagesFor_of_wraps hSize hWraps, hFresh.buf, hFresh.len,
        hFresh.takes.area.pageSize, Nat.mod_eq_of_lt hSize, Int.add_mul] at hHigh
      simp only [Streams.page] at hHigh
      omega
  | @trivial stream hNonzero hLacking =>
      have hHigh := (hInside _ rfl).high
      have hLow := (hInside _ rfl).low
      have hTotal : (size + stream.len) % 2 ^ 64 < 2 ^ 64 := Nat.mod_lt _ (by omega)
      rw [Int.add_mul] at hHigh
      simp only [Streams.page, Nat.add_comm stream.len size] at hHigh hLow
      refine .inr ⟨?_, fun _ => ?_⟩
      · by_contra hWraps
        have hPos := Streams.pos_of_wraps hWraps
        have hPages := Streams.pagesFor_of_wraps hTotal hWraps
        simp only [Streams.lacking, hPages] at hLacking
        rw [show stream.pageCount = 0 by omega] at hHigh
        omega
      · simp only [Streams.offset, Streams.page]
        omega
  | @inPlace stream pool' first hNonzero hLacking hFree hFirst hTakes =>
      have hTotal : (size + stream.len) % 2 ^ 64 < 2 ^ 64 := Nat.mod_lt _ (by omega)
      refine .inr ⟨?_, fun hTrivial => absurd hTrivial hLacking⟩
      by_contra hWraps
      have hPos := Streams.pos_of_wraps hWraps
      have hHigh := (hInside _ rfl).high
      rw [extend_pageCount, Streams.pagesFor_of_wraps hTotal hWraps, hTakes.area.pageSize,
        Int.add_mul] at hHigh
      simp only [Streams.extend, Streams.page, Nat.add_comm stream.len size] at hHigh
      omega
  | @relocated stream retry pool₁ pool' rest hNonzero hBlocked hFresh hRelease =>
      have hTotal : (size + stream.len) % 2 ^ 64 < 2 ^ 64 := Nat.mod_lt _ (by omega)
      have hNonneg := (hArea stream rfl).nonneg
      have hPos : 0 < pool.lacking stream size := by
        by_contra hNeg
        refine hBlocked fun j hj => ?_
        omega
      refine .inr ⟨?_, fun hTrivial => absurd hTrivial (by omega)⟩
      by_contra hWraps
      simp only [Streams.lacking, Streams.pagesFor_of_wraps hTotal hWraps] at hPos
      omega

theorem released_inside (hArea : ∀ stream, ref = some stream → stream.InArea pool)
    (hInside : ∀ stream, ref = some stream → pool.Inside stream)
    (hMost : ∀ stream ∈ ref, size ≤ stream.len) (h : Streams.Released pool size ref pool' ref') :
    ∀ stream, ref' = some stream → pool'.Inside stream := by
  cases h with
  | nothing => exact hInside
  | @front stream pool' hSize hGives =>
      intro rest hRest
      exact ((hInside stream rfl).remainder (hArea stream rfl) (hMost stream rfl) hRest).area
        hGives.area

/-- Every buffer lies in the pages of its stream. -/
def AllInside (s : Session) : Prop := ∀ r stream, s.refs r = some stream → s.pool.Inside stream

theorem AllInside.update (h : AllInside s) {r : Nat} (hArea : Streams.SameArea s.pool pool')
    (hRef : ∀ stream, ref' = some stream → pool'.Inside stream) :
    AllInside ⟨pool', Function.update s.refs r ref'⟩ :=
  forall_update hRef fun other stream hOther => (h other stream hOther).area hArea

theorem allInside_step {call : Call} (hOwned : Owned s) (h : AllInside s)
    (hPromised : s.Promised call) (hFits : s.CallFits call) (hStep : s.step call = .ok s') :
    AllInside s' := by
  cases call with
  | claim r size =>
      obtain ⟨⟨ret, pool', ref'⟩, hClaim, hEnd⟩ := bind_eq_ok hStep
      cases hEnd
      have hClaimed := Streams.claim_claimed hClaim
      have hMoves := claimed_moves hOwned.free_lt (hOwned.inArea r) (hOwned.free_apart r) hClaimed
      exact h.update hMoves.area (claimed_inside (h r) hFits hClaimed hMoves)
  | release r size =>
      obtain ⟨⟨pool', ref'⟩, hRelease, hEnd⟩ := bind_eq_ok hStep
      cases hEnd
      have hReleased := release_released (hOwned.inArea r) hPromised.1 hRelease
      have hMoves := released_moves (hOwned.inArea r) (hOwned.free_apart r) hReleased
      exact h.update hMoves.area (released_inside (hOwned.inArea r) (h r) hPromised.2 hReleased)
  | write r off bytes =>
      simp only [step] at hStep
      split at hStep
      · cases hStep
      · cases hStep
        exact fun other stream hOther => (h other stream hOther).area ⟨rfl, rfl⟩

/-- The bytes of a buffer inside its pages are in pages of the stream. -/
theorem holds_pageOf {stream : Stream} (h : pool.Inside stream) {i : Nat} (hLow : stream.buf ≤ i)
    (hHigh : i < stream.buf + stream.len) : stream.Holds (pool.pageOf i) := by
  have hStart := h.low
  have hEnd := h.high
  constructor
  · exact (Nat.le_div_iff_mul_le pool.pageSize_pos).mpr (le_trans hStart hLow)
  · have hMul := Nat.div_mul_le_self i pool.pageSize
    by_contra hOut
    have hLe : ((stream.pageNo + stream.pageCount) * pool.pageSize : Int) ≤
        pool.pageOf i * pool.pageSize := Int.mul_le_mul_of_nonneg_right (by omega) (by omega)
    simp only [Streams.pageOf] at hLe
    omega

/-- In every run whose claims fit, every buffer stays in the pages of its
stream and so meets neither a free page nor a page of another stream. The
condition on claims is exact: in every state so reached, a claim that succeeds
leaves the buffer inside if and only if it fits. -/
theorem inside_of_claims_fit {pageCount pageSize : Nat} {granted : Bool} {pool : Streams}
    (hInit : Streams.init pageCount pageSize granted = .ok (some pool))
    (hRun : Reached step (fun s call => s.Promised call ∧ s.CallFits call) (start pool) s) :
    (∀ r stream, s.refs r = some stream →
      s.pool.Inside stream ∧
        ∀ i, stream.buf ≤ i → i < stream.buf + stream.len →
          s.pool.pageOf i ∉ s.pool.pageTree.pages ∧
            ∀ r' ≠ r, ¬Held (s.refs r') (s.pool.pageOf i)) ∧
    ∀ r size pool' ref', size < 2 ^ 64 → s.pool.claim (s.refs r) size = .ok (true, pool', ref') →
      ((∀ stream, ref' = some stream → pool'.Inside stream) ↔
        ClaimFits s.pool size (s.refs r)) := by
  obtain ⟨hOwned, hAll⟩ : Owned s ∧ AllInside s := by
    refine hRun.invariant (fun s => Owned s ∧ AllInside s) ⟨owned_start hInit, ?_⟩ ?_
    · exact fun r stream hRef => by cases hRef
    · intro s call s' hInv hAdmitted hStep
      exact ⟨owned_step hInv.1 hAdmitted.1 hStep,
        allInside_step hInv.1 hInv.2 hAdmitted.1 hAdmitted.2 hStep⟩
  constructor
  · intro r stream hRef
    refine ⟨hAll r stream hRef, fun i hLow hHigh => ?_⟩
    have hHeld : Held (s.refs r) (s.pool.pageOf i) :=
      ⟨stream, hRef, holds_pageOf (hAll r stream hRef) hLow hHigh⟩
    exact ⟨hOwned.free_apart r _ hHeld, fun r' hNe => hOwned.held_apart r r' _ hNe.symm hHeld⟩
  · intro r size pool' ref' hSize hClaim
    have hClaimed := Streams.claim_claimed hClaim
    have hMoves := claimed_moves hOwned.free_lt (hOwned.inArea r) (hOwned.free_apart r) hClaimed
    exact ⟨fits_of_claimed_inside (hOwned.inArea r) hSize hClaimed,
      fun hFits => claimed_inside (hAll r) hFits hClaimed hMoves⟩

/-- On a pool of four pages a stream grows by half a page, which takes it to two
pages, and gives back its first page; another stream takes that one. -/
theorem halfPage_inside : ∃ pool s, Streams.init 4 56 true = .ok (some pool) ∧
    Reached step (fun s call => s.Promised call ∧ s.CallFits call) (start pool) s ∧
    s.refs 0 = some ⟨0, 1, 1, 28, 56⟩ ∧ s.refs 1 = some ⟨1, 1, 0, 28, 0⟩ ∧
    s.pool.Inside ⟨0, 1, 1, 28, 56⟩ ∧ s.pool.Inside ⟨1, 1, 0, 28, 0⟩ := by
  have hTrial : (trial (Streams.init 4 56 true) start step (fun s call => s.Promised call ∧ s.CallFits call)
      [.claim 0 56, .claim 0 28, .release 0 56, .claim 1 28]).map (fun s => (s.refs 0, s.refs 1)) =
        some (some ⟨0, 1, 1, 28, 56⟩, some ⟨1, 1, 0, 28, 0⟩) := by decide
  obtain ⟨pool, s, hInit, hRun, hView⟩ := reached_of_trial hTrial
  obtain ⟨hFirst, hSecond⟩ := Prod.mk.inj hView
  have hInside := (inside_of_claims_fit hInit hRun).1
  exact ⟨pool, s, hInit, hRun, hFirst, hSecond, (hInside 0 _ hFirst).1, (hInside 1 _ hSecond).1⟩

/-- A page is claimed, its first half released and half a page claimed again:
the buffer starts in the middle of its only page and is a page long. -/
theorem secondHalf_outgrows_page : ∃ pool s, Streams.init 1 56 true = .ok (some pool) ∧
    Reached step Promised (start pool) s ∧
    s.refs 0 = some ⟨0, 1, 0, 56, 28⟩ ∧ ¬s.pool.Inside ⟨0, 1, 0, 56, 28⟩ := by
  have hTrial : (trial (Streams.init 1 56 true) start step Promised
      [.claim 0 56, .release 0 28, .claim 0 28]).map (fun s => (s.refs 0, s.pool.pageSize)) =
        some (some ⟨0, 1, 0, 56, 28⟩, 56) := by decide
  obtain ⟨pool, s, hInit, hRun, hView⟩ := reached_of_trial hTrial
  obtain ⟨hRef, hSize⟩ := Prod.mk.inj hView
  refine ⟨pool, s, hInit, hRun, hRef, fun hInside => ?_⟩
  have hHigh := hInside.high
  rw [hSize] at hHigh
  exact absurd hHigh (by decide)

end Session

end Peak
