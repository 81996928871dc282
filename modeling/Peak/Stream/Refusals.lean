import Peak.Stream.FirstFit

/-! Claims that are refused. They leave pool and stream alone, and a live stream
is refused only what no free pages could hold. -/
namespace Peak

open Cells Run

namespace Streams

variable {pool pool' : Streams} {stream : Stream} {ref ref' : Option Stream} {size n : Nat}

/-- A wrap asks for less than the size. -/
theorem pagesFor_le_pagesHolding (pool : Streams) (size : Nat) :
    pool.pagesFor (size % 2 ^ 64) ≤ pool.pagesHolding size := by
  have hRounded := roundedUp_div pool (size % 2 ^ 64)
  have hWrapped : pool.pagesFor (size % 2 ^ 64) ≤ pool.pagesHolding (size % 2 ^ 64) := by
    rw [← hRounded]
    exact Nat.div_le_div_right (Nat.mod_le _ _)
  have hSmaller := Nat.mod_le size (2 ^ 64)
  exact hWrapped.trans (Nat.div_le_div_right (by omega))

theorem FreeFrom.mono {index : Int} {n' : Nat} (hFree : pool.FreeFrom index n') (hLe : n ≤ n') :
    pool.FreeFrom index n := fun j hj => hFree j (by omega)

/-- Pages are refused only where no row of them is free. -/
theorem not_freeFrom_of_claimPages (h : pool.claimPages n = .ok none) (first : Nat) :
    ¬pool.FreeFrom first n ∨ pool.pageTree.pages = [] := by
  cases hPages : pool.pageTree.pages with
  | nil => exact Or.inr rfl
  | cons head tail =>
      left
      intro hFree
      simp only [claimPages] at h
      cases hSearch : search n 0 pool.pageTree.pages with
      | some found =>
          rw [hSearch] at h
          obtain ⟨next, -, hEnd⟩ := bind_eq_ok h
          cases hEnd
      | none =>
          have hNone {p : Nat} := not_row_of_search (p := p) pool.pageTree.sorted hSearch
          rw [freeFrom_iff_row] at hFree
          rcases Nat.eq_zero_or_pos n with rfl | hPos
          · exact hNone (hPages ▸ List.mem_cons_self) fun j hj => absurd hj (Nat.not_lt_zero j)
          · exact hNone (hFree 0 hPos) hFree

theorem not_freeFrom_of_claimDirect (h : pool.claimDirect none size = .ok (false, pool', ref'))
    (first : Nat) : ¬pool.FreeFrom first (pool.pagesFor size) ∨ pool.pageTree.pages = [] := by
  simp only [claimDirect] at h
  split_ifs at h with hZero hEmpty
  · cases h
  · exact Or.inr hEmpty
  · obtain ⟨found, hClaim, hEnd⟩ := bind_eq_ok h
    cases found with
    | none => exact not_freeFrom_of_claimPages hClaim first
    | some found =>
        obtain ⟨⟨next, made⟩, -, hLast⟩ := bind_eq_ok hEnd
        cases hLast

/-- The two attempts of a claim that is refused to a live stream. -/
theorem claim_refused_attempts (h : pool.claim (some stream) size = .ok (false, pool', ref')) :
    size ≠ 0 ∧ ¬pool.FreeFrom (stream.pageNo + stream.pageCount) (pool.lacking stream size).toNat ∧
      ∃ ref, pool.claimDirect none ((stream.len + size) % 2 ^ 64) = .ok (false, pool, ref) := by
  obtain ⟨⟨ret₁, pool₁, ref₁⟩, hDirect, hRest⟩ := bind_eq_ok h
  rcases claimDirect_some_cases hDirect with
    ⟨-, rfl, -, rfl⟩ | ⟨-, -, rfl, -, rfl⟩ | ⟨hSize, rfl, rfl, rfl, hBlocked⟩ | ⟨-, -, rfl, rfl, -⟩
  · cases hRest
  · cases hRest
  · obtain ⟨⟨ret₂, pool₂, ref₂⟩, hRetry, hEnd⟩ := bind_eq_ok hRest
    rcases claimDirect_none_cases hRetry with
      ⟨-, rfl, -, rfl⟩ | ⟨rfl, rfl, rfl⟩ | ⟨-, rfl, retry, rfl, -⟩
    · cases hEnd
    · exact ⟨hSize, hBlocked, _, hRetry⟩
    · obtain ⟨next, -, hLast⟩ := bind_eq_ok hEnd
      cases hLast
  · cases hRest

/-- A claim that returns 0 leaves the pool, its memory and the stream as they
were. For a live stream neither the pages behind it nor any free pages in a row
could have held the bytes. -/
theorem refused_unchanged (h : pool.claim ref size = .ok (false, pool', ref')) :
    pool' = pool ∧ ref' = ref ∧ ∀ stream, ref = some stream →
      ¬pool.FreeFrom (stream.pageNo + stream.pageCount)
        (pool.pagesHolding (stream.len + size) - stream.pageCount).toNat ∧
      ∀ first : Nat, ¬pool.FreeFrom first (pool.pagesHolding (stream.len + size)) := by
  obtain ⟨hPool, hRef⟩ := (claim_claimed h).eq_of_refused
  refine ⟨hPool, hRef, ?_⟩
  intro stream hLive
  subst hLive
  obtain ⟨hSize, hBlocked, ref, hRetry⟩ := claim_refused_attempts h
  have hWanted := pagesFor_le_pagesHolding pool (stream.len + size)
  constructor
  · intro hFree
    apply hBlocked (hFree.mono _)
    rw [lacking, Nat.add_comm size]
    omega
  · intro first hFree
    rcases not_freeFrom_of_claimDirect hRetry first with hNone | hEmpty
    · exact hNone (hFree.mono hWanted)
    · have hMem := freeFrom_iff_row.mp hFree 0 (pagesHolding_pos (by omega))
      rw [hEmpty] at hMem
      exact absurd hMem List.not_mem_nil

end Streams

end Peak
