import Peak.Stream.Session

/-! The panics of the stream calls. Pages that a stream holds are not in the
tree, so no page is ever inserted twice. -/
namespace Peak

open Run

namespace Streams

variable {pool : Streams} {stream : Stream} {size : Nat} {e : Panic}

/-- A page that is not free can be given back. -/
theorem releasePage_ok {no : Nat} (hUsed : no ∉ pool.pageTree.pages) :
    ∃ pool', pool.releasePage no = .ok pool' := by
  have hInsert : ∃ tree, (pool.setup no).pageTree.insert no = some tree := by
    rw [Tree.insert]
    exact ⟨_, dif_pos hUsed⟩
  obtain ⟨tree, hTree⟩ := hInsert
  simp only [releasePage, hTree]
  exact ⟨_, rfl⟩

/-- The loop of a release stops at no page while the stream holds no free
page. -/
theorem releaseLoop_ok {sizeAdj passes : Nat} (hNonneg : 0 ≤ stream.pageCount)
    (hApart : ∀ i, stream.Holds i → i ∉ pool.pageTree.pages) :
    ∃ r, releaseLoop sizeAdj pool stream size passes = .ok r := by
  induction passes generalizing pool stream size with
  | zero => exact ⟨_, rfl⟩
  | succ passes ih =>
      simp only [releaseLoop]
      split_ifs with hMore
      · have hFirst : stream.Holds stream.pageNo := ⟨Nat.le_refl _, by omega⟩
        obtain ⟨next, hRelease⟩ := releasePage_ok (hApart _ hFirst)
        obtain ⟨hGives, -⟩ := releasePage_gives hRelease
        rw [hRelease]
        apply ih (by simp only; omega)
        intro i hHolds hFree
        obtain ⟨hLow, hHigh⟩ := hHolds
        simp only at hLow hHigh
        rcases (hGives.tree i).mp hFree with hOld | hNew
        · exact hApart i ⟨by omega, by omega⟩ hOld
        · omega
      · exact ⟨_, rfl⟩

theorem release_ok {ref : Option Stream} (hArea : ∀ stream, ref = some stream → stream.InArea pool)
    (hApart : ∀ i, Held ref i → i ∉ pool.pageTree.pages) (size : Nat) :
    ∃ r, pool.release ref size = .ok r := by
  simp only [release]
  split_ifs with hZero
  · exact ⟨_, rfl⟩
  cases ref with
  | none => exact ⟨_, rfl⟩
  | some stream =>
      have hHeld : ∀ i, stream.Holds i → i ∉ pool.pageTree.pages := by
        intro i hi
        exact hApart i (held_some.mpr hi)
      apply bind_ok (releaseLoop_ok (hArea stream rfl).nonneg hHeld)
      rintro ⟨next, rest, left⟩ -
      simp only
      split_ifs
      · exact ⟨_, rfl⟩
      · exact ⟨_, rfl⟩

/-- Taking pages off the tree stops at a page that is missing or trashed. -/
theorem unhook_error {pages : List Nat} {count : Nat} (h : pool.unhook pages count = .error e) :
    e = .nullPage ∨ e = .pageTrashed := by
  induction count generalizing pool pages with
  | zero => cases pages <;> cases h
  | succ count ih =>
      cases pages with
      | nil =>
          cases h
          exact Or.inl rfl
      | cons no rest =>
          simp only [unhook] at h
          split_ifs at h
          · exact ih h
          · cases h
            exact Or.inr rfl

theorem reclaimPages_error {n : Int} (h : pool.reclaimPages stream n = .error e) :
    e = .nullPage ∨ e = .pageTrashed := by
  simp only [reclaimPages] at h
  split_ifs at h
  rcases bind_eq_error h with hUnhook | ⟨next, -, hEnd⟩
  · exact unhook_error hUnhook
  · cases hEnd

theorem claimPages_error {n : Int} (h : pool.claimPages n = .error e) :
    e = .nullPage ∨ e = .pageTrashed := by
  simp only [claimPages] at h
  cases hSearch : search n 0 pool.pageTree.pages with
  | none =>
      rw [hSearch] at h
      cases h
  | some found =>
      rw [hSearch] at h
      rcases bind_eq_error h with hUnhook | ⟨next, -, hEnd⟩
      · exact unhook_error hUnhook
      · cases hEnd

/-- A panic that a claim may run into: pages that are missing or trashed, or no
reference left while pages are free. -/
def ClaimPanic (pool : Streams) (e : Panic) : Prop :=
  e = .nullPage ∨ e = .pageTrashed ∨
    e = .noReferences ∧ pool.references = [] ∧ pool.pageTree.pages ≠ []

theorem claimDirect_none_error (h : pool.claimDirect none size = .error e) : pool.ClaimPanic e := by
  simp only [claimDirect] at h
  split_ifs at h with hZero hEmpty
  rcases bind_eq_error h with hClaim | ⟨found, hClaim, hEnd⟩
  · exact (claimPages_error hClaim).imp_right Or.inl
  rcases claimPages_cases hClaim with rfl | ⟨no, next, rfl, -, -, hRefs⟩
  · cases hEnd
  rcases bind_eq_error hEnd with hGet | ⟨_, -, hLast⟩
  · simp only [get] at hGet
    cases hNone : next.references with
    | nil =>
        rw [hNone] at hGet
        cases hGet
        exact Or.inr (Or.inr ⟨rfl, hRefs.symm.trans hNone, hEmpty⟩)
    | cons slot rest =>
        rw [hNone] at hGet
        cases hGet
  · cases hLast

theorem claimDirect_some_error (h : pool.claimDirect (some stream) size = .error e) :
    pool.ClaimPanic e := by
  simp only [claimDirect] at h
  split_ifs at h
  rcases bind_eq_error h with hReclaim | ⟨found, hReclaim, hEnd⟩
  · exact (reclaimPages_error hReclaim).imp_right Or.inl
  rcases reclaimPages_cases hReclaim with ⟨rfl, -⟩ | ⟨next, first, rfl, -⟩
  · cases hEnd
  · cases hEnd

theorem claimDirect_error {ref : Option Stream} (h : pool.claimDirect ref size = .error e) :
    pool.ClaimPanic e := by
  cases ref with
  | none => exact claimDirect_none_error h
  | some stream => exact claimDirect_some_error h

/-- The panics of `peak_stream_claim`. Its own release of the old pages has
none. -/
theorem claim_error {ref : Option Stream} (hArea : ∀ stream, ref = some stream → stream.InArea pool)
    (hApart : ∀ i, Held ref i → i ∉ pool.pageTree.pages) (h : pool.claim ref size = .error e) :
    pool.ClaimPanic e ∨ e = .nullReference := by
  rcases bind_eq_error h with hDirect | ⟨⟨ret₁, pool₁, ref₁⟩, hDirect, hRest⟩
  · exact Or.inl (claimDirect_error hDirect)
  cases ref with
  | none =>
      rcases claimDirect_none_cases hDirect with
        ⟨-, rfl, rfl, rfl⟩ | ⟨rfl, rfl, rfl⟩ | ⟨-, rfl, stream, rfl, -⟩ <;> cases hRest
  | some stream =>
      rcases claimDirect_some_cases hDirect with
        ⟨-, rfl, rfl, rfl⟩ | ⟨-, -, rfl, rfl, rfl⟩ | ⟨-, rfl, rfl, rfl, -⟩ |
        ⟨-, -, rfl, rfl, -⟩
      · cases hRest
      · cases hRest
      · rcases bind_eq_error hRest with hRetry | ⟨⟨ret₂, pool₂, ref₂⟩, hRetry, hEnd⟩
        · exact Or.inl (claimDirect_error hRetry)
        rcases claimDirect_none_cases hRetry with
          ⟨-, rfl, rfl, rfl⟩ | ⟨rfl, rfl, rfl⟩ | ⟨-, rfl, retry, rfl, hFresh⟩
        · cases hEnd
          exact Or.inr rfl
        · cases hEnd
        · obtain ⟨hNonneg, hLe, hLen⟩ := hArea stream rfl
          have hOldArea : ∀ other, some stream = some other →
              other.InArea (pool₂.copy retry.buf stream.buf stream.len) := by
            intro other hOther
            cases hOther
            exact ⟨hNonneg, hFresh.takes.area.pageCount.symm ▸ hLe, hLen⟩
          have hOldApart : ∀ i, Held (some stream) i →
              i ∉ (pool₂.copy retry.buf stream.buf stream.len).pageTree.pages := by
            intro i hHeld hFree
            exact hApart i hHeld ((hFresh.takes.tree i).mp hFree).1
          rcases bind_eq_error hEnd with hError | ⟨_, -, hLast⟩
          · obtain ⟨r, hRelease⟩ := release_ok hOldArea hOldApart stream.len
            rw [hRelease] at hError
            cases hError
          · cases hLast
      · cases hRest

end Streams

namespace Session

variable {s : Session} {call : Call} {e : Panic}

/-- What stops a call: the panics of a claim, or a null reference. -/
theorem step_error (hOwned : Owned s) (h : s.step call = .error e) :
    s.pool.ClaimPanic e ∨ e = .nullReference := by
  cases call with
  | claim r size =>
      rcases bind_eq_error h with hClaim | ⟨_, -, hEnd⟩
      · exact Streams.claim_error (hOwned.inArea r) (hOwned.free_apart r) hClaim
      · cases hEnd
  | release r size =>
      obtain ⟨next, hRelease⟩ := Streams.release_ok (hOwned.inArea r) (hOwned.free_apart r) size
      rcases bind_eq_error h with hError | ⟨_, -, hEnd⟩
      · rw [hRelease] at hError
        cases hError
      · cases hEnd
  | write r off bytes =>
      simp only [step] at h
      split at h
      · cases h
        exact Or.inr rfl
      · cases h

end Session
end Peak
