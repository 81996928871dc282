import Peak.Stream.Session

/-! Pages are not lost, except in two ways. A stream that is emptied drops its
reference even if its last page is only partly used, and then that page goes
nowhere; and a claim after a partial release may want fewer pages than the
stream has, and then the surplus is forgotten. -/
namespace Peak

open Cells Run

namespace Streams

variable {pool pool' : Streams} {stream : Stream} {size : Nat}

/-- The buffer ends where the pages of the stream end. -/
def EndsOnPage (pool : Streams) (stream : Stream) : Prop :=
  stream.pageCount.toNat * pool.pageSize ≤ (pool.sizeAdj stream + stream.len) % 2 ^ 64

instance (pool : Streams) (stream : Stream) : Decidable (pool.EndsOnPage stream) :=
  inferInstanceAs (Decidable (_ ≤ _))

/-- Nowhere are `n` free pages in a row. -/
def NoRun (pool : Streams) (n : Nat) : Prop :=
  ∀ first ∈ pool.pageTree.pages, ∃ j < n, first + j ∉ pool.pageTree.pages

instance (pool : Streams) (n : Nat) : Decidable (pool.NoRun n) :=
  inferInstanceAs (Decidable (∀ _ ∈ _, ∃ _ < _, _))

/-- Emptying a stream gives all of its pages exactly if the buffer ends where
they do. -/
theorem given_len_iff :
    pool.given stream stream.len = stream.pageCount.toNat ↔ pool.EndsOnPage stream := by
  simp only [given, EndsOnPage]
  rw [← Nat.le_div_iff_mul_le pool.pageSize_pos]
  omega

theorem remainder_len : pool.remainder stream stream.len = none := by
  simp only [remainder]
  rw [if_pos (by omega)]

theorem pagesFor_zero (pool : Streams) : pool.pagesFor 0 = 0 := by
  simp [pagesFor, allocAlign]

end Streams

namespace Session

variable {s s' : Session} {pool pool₁ pool' : Streams} {ref ref' : Option Stream} {size r : Nat}

/-- Every page is free or held by a stream. -/
def Complete (s : Session) : Prop :=
  ∀ i < s.pool.pageCount, i ∈ s.pool.pageTree.pages ∨ ∃ r, Held (s.refs r) i

/-- A stream without bytes has no pages. -/
def NoIdle (s : Session) : Prop :=
  ∀ r stream, s.refs r = some stream → stream.len = 0 → stream.pageCount = 0

/-- A claim that forgets no page: it never wants fewer pages than the stream
has, and if it relocates the stream, the old buffer ends where its pages end. -/
def ClaimSettles (pool : Streams) (size : Nat) (stream : Stream) : Prop :=
  size = 0 ∨ (0 ≤ pool.lacking stream size ∧
    (pool.FreeFrom (stream.pageNo + stream.pageCount) (pool.lacking stream size).toNat ∨
      pool.NoRun (pool.pagesFor ((stream.len + size) % 2 ^ 64)) ∨ pool.EndsOnPage stream))

/-- A release that forgets no page: if it empties the stream, the buffer ends
where its pages end. -/
def ReleaseSettles (pool : Streams) (size : Nat) (stream : Stream) : Prop :=
  size = 0 ∨ size ≠ stream.len ∨ pool.EndsOnPage stream

def CallSettles (s : Session) : Call → Prop
  | .claim r size => ∀ stream ∈ s.refs r, ClaimSettles s.pool size stream
  | .write _ _ _ => True
  | .release r size => ∀ stream ∈ s.refs r, ReleaseSettles s.pool size stream

instance (s : Session) : (call : Call) → Decidable (s.CallSettles call)
  | .claim _ _ => inferInstanceAs (Decidable (∀ _ ∈ _, _ ∨ (_ ∧ (_ ∨ _ ∨ _))))
  | .write _ _ _ => .isTrue trivial
  | .release _ _ => inferInstanceAs (Decidable (∀ _ ∈ _, _ ∨ _ ∨ _))

/-- No page of the tree or of the reference of the call is forgotten. -/
def Keeps (pool : Streams) (ref : Option Stream) (pool' : Streams) (ref' : Option Stream) : Prop :=
  ∀ i, i ∈ pool.pageTree.pages ∨ Held ref i → i ∈ pool'.pageTree.pages ∨ Held ref' i

/-- A call leaves all pages with an owner exactly if it forgets none of those
it touches. -/
theorem complete_update_iff (hOwned : Owned s) (h : Complete s)
    (hMoves : Moves s.pool (s.refs r) pool' ref') :
    Complete ⟨pool', Function.update s.refs r ref'⟩ ↔ Keeps s.pool (s.refs r) pool' ref' := by
  have hCount : pool'.pageCount = s.pool.pageCount := hMoves.area.pageCount
  constructor
  · intro hAfter i hBefore
    have hLt : i < pool'.pageCount := by
      rw [hCount]
      rcases hBefore with hFree | ⟨stream, hRef, hHolds⟩
      · exact hOwned.free_lt i hFree
      · have := (hOwned.inArea r stream hRef).le
        have := hHolds.2
        omega
    rcases hAfter i hLt with hFree | ⟨other, hHeld⟩
    · exact .inl hFree
    · by_cases hSame : other = r
      · subst hSame
        exact .inr (by simpa using hHeld)
      · simp only [Function.update_of_ne hSame] at hHeld
        rcases hBefore with hFree | hOld
        · exact absurd hFree (hOwned.free_apart other i hHeld)
        · exact absurd hOld (hOwned.held_apart other r i hSame hHeld)
  · intro hKeeps i hLt
    rw [show (Session.mk pool' (Function.update s.refs r ref')).pool = pool' from rfl, hCount] at hLt
    rcases h i hLt with hFree | ⟨other, hHeld⟩
    · rcases hKeeps i (.inl hFree) with hFree' | hHeld'
      · exact .inl hFree'
      · exact .inr ⟨r, by simpa using hHeld'⟩
    · by_cases hSame : other = r
      · subst hSame
        rcases hKeeps i (.inr hHeld) with hFree' | hHeld'
        · exact .inl hFree'
        · exact .inr ⟨other, by simpa using hHeld'⟩
      · exact .inr ⟨other, by simpa only [Function.update_of_ne hSame] using hHeld⟩

/-- Emptying a stream forgets no page exactly if its buffer ends where its
pages end. -/
theorem release_all_keeps_iff {stream : Stream} (hArea : stream.InArea pool)
    (hApart : ∀ i, stream.Holds i → i ∉ pool.pageTree.pages)
    (hGives : Streams.Gives pool pool' stream.pageNo (pool.given stream stream.len)) :
    Keeps pool (some stream) pool' none ↔ pool.EndsOnPage stream := by
  have hLe := given_le pool stream stream.len
  have hNonneg := hArea.nonneg
  rw [← Streams.given_len_iff]
  constructor
  · intro hKeeps
    by_contra hLess
    have hHolds : stream.Holds (stream.pageNo + pool.given stream stream.len) :=
      ⟨by omega, by omega⟩
    rcases hKeeps _ (.inr (held_some.mpr hHolds)) with hFree | hHeld
    · rcases (hGives.tree _).mp hFree with hOld | hNew
      · exact hApart _ hHolds hOld
      · omega
    · exact held_none _ hHeld
  · intro hAll i hBefore
    refine .inl ((hGives.tree i).mpr ?_)
    rcases hBefore with hFree | hHeld
    · exact .inl hFree
    · obtain ⟨hLow, hHigh⟩ := held_some.mp hHeld
      exact .inr ⟨hLow, by omega⟩

theorem released_keeps_iff (hArea : ∀ stream, ref = some stream → stream.InArea pool)
    (hApart : ∀ i, Held ref i → i ∉ pool.pageTree.pages)
    (hMost : ∀ stream ∈ ref, size ≤ stream.len) (h : Streams.Released pool size ref pool' ref') :
    Keeps pool ref pool' ref' ↔ ∀ stream ∈ ref, ReleaseSettles pool size stream := by
  cases h with
  | nothing ref hNothing =>
      refine ⟨fun _ stream hMem => ?_, fun _ i hi => hi⟩
      rcases hNothing with hZero | rfl
      · exact .inl hZero
      · simp at hMem
  | @front stream pool' hSize hGives =>
      have hLe := hMost stream rfl
      have hLt := (hArea stream rfl).len_lt
      have hStream : (∀ other ∈ some stream, ReleaseSettles pool size other) ↔
          ReleaseSettles pool size stream := by simp
      rw [hStream]
      rcases eq_or_ne size stream.len with rfl | hPartial
      · rw [Streams.remainder_len, release_all_keeps_iff (hArea stream rfl)
          (fun i hi => hApart i (held_some.mpr hi)) hGives]
        exact ⟨fun hEnds => .inr (.inr hEnds), fun hSettles =>
          (hSettles.resolve_left hSize).resolve_left (not_not.mpr rfl)⟩
      · refine ⟨fun _ => .inr (.inl hPartial), fun _ i hBefore => ?_⟩
        rw [hGives.tree]
        rcases hBefore with hFree | hHeld
        · exact .inl (.inl hFree)
        · obtain ⟨hLow, hHigh⟩ := held_some.mp hHeld
          by_cases hGiven : i < stream.pageNo + pool.given stream size
          · exact .inl (.inr ⟨hLow, hGiven⟩)
          · refine .inr ?_
            simp only [Streams.remainder]
            rw [if_neg (by omega), held_some]
            exact ⟨by simp only; omega, by simp only; omega⟩

/-- Relocating a stream forgets no page exactly if its old buffer ends where
its old pages end. -/
theorem relocated_keeps_iff {total : Nat} {stream retry : Stream} {rest : Option Stream}
    (hArea : stream.InArea pool) (hApart : ∀ i, stream.Holds i → i ∉ pool.pageTree.pages)
    (hIdle : stream.len = 0 → stream.pageCount = 0)
    (hFresh : Streams.Fresh pool total pool₁ retry)
    (hRelease : (pool₁.copy retry.buf stream.buf stream.len).release (some stream) stream.len =
      .ok (pool', rest)) :
    Keeps pool (some stream) pool' (some retry) ↔ pool.EndsOnPage stream := by
  have hEnds : (pool₁.copy retry.buf stream.buf stream.len).EndsOnPage stream ↔
      pool.EndsOnPage stream := by
    simp only [Streams.EndsOnPage, Streams.sizeAdj, Streams.page, Streams.copy,
      hFresh.takes.area.pageSize]
  have hTree := hFresh.takes.tree
  have hTaken : ∀ i, retry.Holds i ↔
      retry.pageNo ≤ i ∧ i < retry.pageNo + pool.pagesFor total := fun i => holds_fresh hFresh
  rcases eq_or_ne stream.len 0 with hZero | hNonzero
  · have hNone := hIdle hZero
    rw [hZero] at hRelease
    cases hRelease
    constructor
    · intro _
      simp only [Streams.EndsOnPage, hNone, Int.toNat_zero, Nat.zero_mul]
      omega
    · intro _ i hBefore
      rcases hBefore with hFree | hHeld
      · by_cases hNew : retry.Holds i
        · exact .inr (held_some.mpr hNew)
        · exact .inl ((hTree i).mpr ⟨hFree, fun h => hNew ((hTaken i).mpr h)⟩)
      · obtain ⟨hLow, hHigh⟩ := held_some.mp hHeld
        omega
  · have hAreaCopy : stream.InArea (pool₁.copy retry.buf stream.buf stream.len) :=
      ⟨hArea.nonneg, hFresh.takes.area.pageCount.symm ▸ hArea.le, hArea.len_lt⟩
    have hApartCopy : ∀ i, stream.Holds i → i ∉ pool₁.pageTree.pages :=
      fun i hi hFree => hApart i hi ((hTree i).mp hFree).1
    obtain ⟨hGives, -⟩ := Streams.release_spec hArea.len_lt hNonzero hArea.nonneg hRelease
    rw [← hEnds, ← release_all_keeps_iff hAreaCopy hApartCopy hGives]
    constructor
    · intro hKeeps i hBefore
      have hOld : i ∈ pool.pageTree.pages ∨ Held (some stream) i :=
        hBefore.imp_left fun hFree => ((hTree i).mp hFree).1
      refine .inl ((hKeeps i hOld).resolve_right fun hNew => ?_)
      rcases hBefore with hFree | hHeld
      · exact ((hTree i).mp hFree).2 ((hTaken i).mp (held_some.mp hNew))
      · exact hApart i (held_some.mp hHeld) (fresh_free hFresh (held_some.mp hNew))
    · intro hKeeps i hBefore
      by_cases hNew : retry.Holds i
      · exact .inr (held_some.mpr hNew)
      · refine .inl ((hKeeps i (hBefore.imp_left fun hFree => ?_)).resolve_right (held_none i))
        exact (hTree i).mpr ⟨hFree, fun h => hNew ((hTaken i).mpr h)⟩

/-- A claim that succeeds forgets no page exactly if it settles. -/
theorem claimed_keeps_iff (hArea : ∀ stream, ref = some stream → stream.InArea pool)
    (hApart : ∀ i, Held ref i → i ∉ pool.pageTree.pages)
    (hIdle : ∀ stream, ref = some stream → stream.len = 0 → stream.pageCount = 0)
    (h : Streams.Claimed pool size ref true pool' ref') :
    Keeps pool ref pool' ref' ↔ ∀ stream ∈ ref, ClaimSettles pool size stream := by
  cases h with
  | nothing ref hZero => exact ⟨fun _ _ _ => .inl hZero, fun _ i hi => hi⟩
  | @fresh pool' stream hSize hFresh =>
      refine ⟨fun _ other hMem => by simp at hMem, fun _ i hBefore => ?_⟩
      have hFree := hBefore.resolve_right (held_none i)
      by_cases hTaken : stream.pageNo ≤ i ∧ i < stream.pageNo + pool.pagesFor size
      · exact .inr (held_some.mpr ((holds_fresh hFresh).mpr hTaken))
      · exact .inl ((hFresh.takes.tree i).mpr ⟨hFree, hTaken⟩)
  | @trivial stream hSize hLacking =>
      refine ⟨fun _ other hMem => ?_, fun _ i hBefore => ?_⟩
      · cases hMem
        exact .inr ⟨by omega, .inl fun j hj => by omega⟩
      · simpa only [held_some, Stream.Holds] using hBefore
  | @inPlace stream pool' first hSize hLacking hFree hFirst hTakes =>
      have hNonneg := (hArea stream rfl).nonneg
      constructor
      · intro hKeeps other hMem
        cases hMem
        refine .inr ⟨?_, .inl hFree⟩
        -- The first page behind the new end of the stream has lost its owner.
        by_contra hNeg
        have hCount := extend_pageCount pool stream size
        simp only [Streams.extend] at hCount
        have hHolds : stream.Holds
            (stream.pageNo + pool.pagesFor ((size + stream.len) % 2 ^ 64)) :=
          ⟨by omega, by omega⟩
        rcases hKeeps _ (.inr (held_some.mpr hHolds)) with hTree | hHeld
        · exact hApart _ (held_some.mpr hHolds) ((hTakes.tree _).mp hTree).1
        · have hHigh := (held_some.mp hHeld).2
          simp only [Streams.extend] at hHigh
          omega
      · intro hSettles i hBefore
        obtain ⟨hMore, -⟩ := (hSettles stream rfl).resolve_left hSize
        rcases hBefore with hTree | hHeld
        · by_cases hTaken : first ≤ i ∧ i < first + (pool.lacking stream size).toNat
          · refine .inr (held_some.mpr ⟨?_, ?_⟩)
            · simp only [Streams.extend]
              omega
            · simp only [Streams.extend]
              omega
          · exact .inl ((hTakes.tree i).mpr ⟨hTree, hTaken⟩)
        · obtain ⟨hLow, hHigh⟩ := held_some.mp hHeld
          refine .inr (held_some.mpr ⟨hLow, ?_⟩)
          simp only [Streams.extend]
          omega
  | @relocated stream retry pool₁ pool' rest hSize hBlocked hFresh hRelease =>
      obtain ⟨hNonneg, hLe, hLen⟩ := hArea stream rfl
      have hPos : 0 < pool.lacking stream size := by
        by_contra hNeg
        exact hBlocked fun j hj => by omega
      have hRun : ¬pool.NoRun (pool.pagesFor ((stream.len + size) % 2 ^ 64)) := by
        intro hNoRun
        obtain ⟨j, hj, hUsed⟩ := hNoRun _ hFresh.free
        exact hUsed (hFresh.takes.free j hj)
      rw [relocated_keeps_iff ⟨hNonneg, hLe, hLen⟩ (fun i hi => hApart i (held_some.mpr hi))
        (hIdle stream rfl) hFresh hRelease]
      constructor
      · intro hEnds other hMem
        cases hMem
        exact .inr ⟨by omega, .inr (.inr hEnds)⟩
      · intro hSettles
        obtain ⟨-, hServed⟩ := (hSettles stream rfl).resolve_left hSize
        exact (hServed.resolve_left hBlocked).resolve_left hRun

/-- A stream that a claim leaves without bytes is left without pages. -/
theorem claimed_idle {ret : Bool} (hSize : size < 2 ^ 64)
    (hArea : ∀ stream, ref = some stream → stream.InArea pool)
    (hIdle : ∀ stream, ref = some stream → stream.len = 0 → stream.pageCount = 0)
    (h : Streams.Claimed pool size ref ret pool' ref') :
    ∀ stream, ref' = some stream → stream.len = 0 → stream.pageCount = 0 := by
  cases h with
  | nothing => exact hIdle
  | refused => exact hIdle
  | @fresh pool' stream hNonzero hFresh =>
      intro other hOther hZero
      cases hOther
      rw [hFresh.len] at hZero
      omega
  | @trivial stream hNonzero hLacking =>
      intro other hOther hZero
      cases hOther
      simp only [Nat.add_comm stream.len size] at hZero
      simp only [Streams.lacking, hZero, Streams.pagesFor_zero] at hLacking
      simp only
      omega
  | @inPlace stream pool' first hNonzero hLacking hFree hFirst hTakes =>
      intro other hOther hZero
      cases hOther
      simp only [Streams.extend, Nat.add_comm stream.len size] at hZero
      rw [extend_pageCount, hZero, Streams.pagesFor_zero]
      rfl
  | @relocated stream retry pool₁ pool' rest hNonzero hBlocked hFresh hRelease =>
      intro other hOther hZero
      cases hOther
      rw [hFresh.len, Nat.mod_mod, Nat.add_comm] at hZero
      refine absurd (fun j hj => ?_) hBlocked
      have := (hArea stream rfl).nonneg
      simp only [Streams.lacking, hZero, Streams.pagesFor_zero] at hj
      omega

/-- A reference that a release keeps has bytes left. -/
theorem released_idle (hIdle : ∀ stream, ref = some stream → stream.len = 0 → stream.pageCount = 0)
    (h : Streams.Released pool size ref pool' ref') :
    ∀ stream, ref' = some stream → stream.len = 0 → stream.pageCount = 0 := by
  cases h with
  | nothing => exact hIdle
  | front =>
      intro rest hRest hZero
      simp only [Streams.remainder] at hRest
      split_ifs at hRest with hEmpty
      cases hRest
      exact absurd hZero hEmpty

section Owners

variable (hOwned : Owned s) (hComplete : Complete s)

include hOwned hComplete

/-- A claim that succeeds leaves all pages with an owner exactly if it
settles. -/
theorem claim_complete_iff (hIdle : NoIdle s)
    (h : s.pool.claim (s.refs r) size = .ok (true, pool', ref')) :
    Complete ⟨pool', Function.update s.refs r ref'⟩ ↔
      ∀ stream ∈ s.refs r, ClaimSettles s.pool size stream := by
  have hClaimed := Streams.claim_claimed h
  have hMoves := claimed_moves hOwned.free_lt (hOwned.inArea r) (hOwned.free_apart r) hClaimed
  rw [complete_update_iff hOwned hComplete hMoves]
  exact claimed_keeps_iff (hOwned.inArea r) (hOwned.free_apart r) (hIdle r) hClaimed

theorem refused_complete (h : s.pool.claim (s.refs r) size = .ok (false, pool', ref')) :
    Complete ⟨pool', Function.update s.refs r ref'⟩ := by
  have hClaimed := Streams.claim_claimed h
  have hMoves := claimed_moves hOwned.free_lt (hOwned.inArea r) (hOwned.free_apart r) hClaimed
  rw [complete_update_iff hOwned hComplete hMoves]
  obtain ⟨rfl, rfl⟩ := hClaimed.eq_of_refused
  exact fun i hi => hi

/-- A release leaves all pages with an owner exactly if it settles. -/
theorem release_complete_iff (hPromised : s.Promised (.release r size))
    (h : s.pool.release (s.refs r) size = .ok (pool', ref')) :
    Complete ⟨pool', Function.update s.refs r ref'⟩ ↔
      ∀ stream ∈ s.refs r, ReleaseSettles s.pool size stream := by
  have hReleased := release_released (hOwned.inArea r) hPromised.1 h
  have hMoves := released_moves (hOwned.inArea r) (hOwned.free_apart r) hReleased
  rw [complete_update_iff hOwned hComplete hMoves]
  exact released_keeps_iff (hOwned.inArea r) (hOwned.free_apart r) hPromised.2 hReleased

theorem complete_step {call : Call} (hIdle : NoIdle s) (hPromised : s.Promised call)
    (hSettles : s.CallSettles call) (hStep : s.step call = .ok s') : Complete s' := by
  cases call with
  | claim r size =>
      obtain ⟨⟨ret, pool', ref'⟩, hClaim, hEnd⟩ := bind_eq_ok hStep
      cases hEnd
      cases ret with
      | true => exact (claim_complete_iff hOwned hComplete hIdle hClaim).mpr hSettles
      | false => exact refused_complete hOwned hComplete hClaim
  | release r size =>
      obtain ⟨⟨pool', ref'⟩, hRelease, hEnd⟩ := bind_eq_ok hStep
      cases hEnd
      exact (release_complete_iff hOwned hComplete hPromised hRelease).mpr hSettles
  | write r off bytes =>
      simp only [step] at hStep
      split at hStep
      · cases hStep
      · cases hStep
        exact hComplete

end Owners

theorem NoIdle.update (h : NoIdle s)
    (hRef : ∀ stream, ref' = some stream → stream.len = 0 → stream.pageCount = 0) :
    NoIdle ⟨pool', Function.update s.refs r ref'⟩ := forall_update hRef h

theorem noIdle_step {call : Call} (hOwned : Owned s) (h : NoIdle s) (hPromised : s.Promised call)
    (hStep : s.step call = .ok s') : NoIdle s' := by
  cases call with
  | claim r size =>
      obtain ⟨⟨ret, pool', ref'⟩, hClaim, hEnd⟩ := bind_eq_ok hStep
      cases hEnd
      exact h.update (claimed_idle hPromised (hOwned.inArea r) (h r) (Streams.claim_claimed hClaim))
  | release r size =>
      obtain ⟨⟨pool', ref'⟩, hRelease, hEnd⟩ := bind_eq_ok hStep
      cases hEnd
      exact h.update (released_idle (h r) (release_released (hOwned.inArea r) hPromised.1 hRelease))
  | write r off bytes =>
      simp only [step] at hStep
      split at hStep
      · cases hStep
      · cases hStep
        exact h

/-- In every run whose calls settle every page is free or held by a stream. -/
theorem settled_of_reached {pageCount pageSize : Nat} {granted : Bool} {pool : Streams}
    (hInit : Streams.init pageCount pageSize granted = .ok (some pool))
    (hRun : Reached step (fun s call => s.Promised call ∧ s.CallSettles call) (start pool) s) :
    Owned s ∧ Complete s ∧ NoIdle s ∧ s.pool.pageCount = pageCount := by
  obtain ⟨hCount, -, hTree⟩ := Streams.init_spec hInit
  refine hRun.invariant
    (fun s => Owned s ∧ Complete s ∧ NoIdle s ∧ s.pool.pageCount = pageCount)
    ⟨owned_start hInit, ?_, ?_, hCount⟩ ?_
  · exact fun i hi => .inl ((hTree i).mpr (hCount ▸ hi))
  · exact fun r stream hRef => by cases hRef
  · rintro s call s' ⟨hOwned, hComplete, hIdle, hSame⟩ ⟨hPromised, hSettles⟩ hStep
    exact ⟨owned_step hOwned hPromised hStep,
      complete_step hOwned hComplete hIdle hPromised hSettles hStep,
      noIdle_step hOwned hIdle hPromised hStep,
      (step_moves hOwned hPromised hStep).1.area.pageCount.trans hSame⟩

end Session

end Peak
