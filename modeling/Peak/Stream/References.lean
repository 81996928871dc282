import Mathlib.Data.Finset.Card
import Peak.Stream.Bounds
import Peak.Stream.Conservation
import Peak.Stream.Panics

/-! The pool of stream references. Every reference in use has a page of its own
that is not free, as long as no reference is handed out without a page and no
release takes the last page of a stream that keeps bytes. Then there are at
least as many references left as free pages. -/
namespace Peak

open Run

namespace Streams

variable {pool pool' : Streams} {stream stream' : Stream} {ref ref' : Option Stream} {size : Nat}

theorem releaseLoop_references {sizeAdj passes left : Nat}
    (h : releaseLoop sizeAdj pool stream size passes = .ok (pool', stream', left)) :
    pool'.references = pool.references ∧ stream'.slot = stream.slot :=
  releaseLoop_keeps (fun p => p.references = pool.references)
    (fun _ _ _ hRefs hRelease => (releasePage_gives hRelease).2.trans hRefs) rfl h

/-- A release that leaves no byte puts the reference back. -/
theorem release_references (hSize : size ≠ 0)
    (h : pool.release (some stream) size = .ok (pool', ref')) :
    (ref' = none ∧ pool'.references = stream.slot :: pool.references) ∨
      ∃ rest, ref' = some rest ∧ rest.slot = stream.slot ∧ pool'.references = pool.references := by
  simp only [release, if_neg hSize] at h
  obtain ⟨⟨next, rest, left⟩, hLoop, hEnd⟩ := bind_eq_ok h
  obtain ⟨hRefs, hSlot⟩ := releaseLoop_references hLoop
  simp only at hEnd
  split_ifs at hEnd
  · cases hEnd
    refine Or.inl ⟨rfl, ?_⟩
    simp only [put, hRefs, hSlot]
  · cases hEnd
    exact Or.inr ⟨_, rfl, hSlot, hRefs⟩

/-- A new stream takes the first reference. -/
theorem claimDirect_none_references
    (h : pool.claimDirect none size = .ok (true, pool', some stream)) :
    pool.references = stream.slot :: pool'.references := by
  simp only [claimDirect] at h
  split_ifs at h
  · cases h
  · cases h
  · obtain ⟨found, hClaim, hEnd⟩ := bind_eq_ok h
    rcases claimPages_cases hClaim with rfl | ⟨no, next, rfl, -, -, hRefs⟩
    · cases hEnd
    · obtain ⟨⟨last, made⟩, hGet, hLast⟩ := bind_eq_ok hEnd
      simp only [get] at hGet
      cases hSome : next.references with
      | nil =>
          rw [hSome] at hGet
          cases hGet
      | cons slot rest =>
          rw [hSome] at hGet
          cases hGet
          cases hLast
          rw [← hRefs, hSome]
          rfl

/-- A stream that is served in place keeps its reference. -/
theorem claimDirect_some_references {ret : Bool}
    (h : pool.claimDirect (some stream) size = .ok (ret, pool', ref')) :
    pool'.references = pool.references ∧ ∃ rest, ref' = some rest ∧ rest.slot = stream.slot := by
  simp only [claimDirect] at h
  split_ifs at h
  · cases h
    exact ⟨rfl, stream, rfl, rfl⟩
  · cases h
    exact ⟨rfl, _, rfl, rfl⟩
  · obtain ⟨found, hReclaim, hEnd⟩ := bind_eq_ok h
    rcases reclaimPages_cases hReclaim with ⟨rfl, -⟩ | ⟨next, first, rfl, -, -, -, hRefs⟩
    · cases hEnd
      exact ⟨rfl, stream, rfl, rfl⟩
    · cases hEnd
      exact ⟨hRefs, _, rfl, rfl⟩

/-- What a call does to the references and their pages: it keeps the reference,
takes one for a new stream, puts the one of an emptied stream back, swaps the
old one for a new one, or takes a new one and forgets one without pages. -/
inductive Swaps (pool pool' : Streams) : Option Stream → Option Stream → Prop where
  | keep {ref ref' : Option Stream} (hRefs : pool'.references = pool.references)
      (hSlot : ref'.map Stream.slot = ref.map Stream.slot)
      (hPage : (∀ i, Held ref i → i ∉ pool'.pageTree.pages) ∨ ∃ i, Held ref' i) :
      Swaps pool pool' ref ref'
  | get {stream : Stream} (hRefs : pool.references = stream.slot :: pool'.references)
      (hPage : ∃ i, stream.Holds i) : Swaps pool pool' none (some stream)
  | put {stream : Stream} (hRefs : pool'.references = stream.slot :: pool.references) :
      Swaps pool pool' (some stream) none
  | swap {stream retry : Stream} {rest : List Nat} (hOld : pool.references = retry.slot :: rest)
      (hNew : pool'.references = stream.slot :: rest) (hPage : ∃ i, retry.Holds i) :
      Swaps pool pool' (some stream) (some retry)
  | forget {stream retry : Stream} (hRefs : pool.references = retry.slot :: pool'.references)
      (hNone : ∀ i, ¬stream.Holds i) (hPage : ∃ i, retry.Holds i) :
      Swaps pool pool' (some stream) (some retry)

/-- A reference that is left over after a call was left over before, or is the
one that the call was made with. -/
theorem Swaps.of_mem (h : Swaps pool pool' ref ref') {x : Nat} (hx : x ∈ pool'.references) :
    x ∈ pool.references ∨ ∃ stream, ref = some stream ∧ stream.slot = x := by
  cases h with
  | keep hRefs hSlot hPage => exact Or.inl (hRefs ▸ hx)
  | get hRefs hPage =>
      rw [hRefs]
      exact Or.inl (List.mem_cons_of_mem _ hx)
  | put hRefs =>
      rw [hRefs, List.mem_cons] at hx
      rcases hx with rfl | hOld
      · exact Or.inr ⟨_, rfl, rfl⟩
      · exact Or.inl hOld
  | swap hOld hNew hPage =>
      rw [hNew, List.mem_cons] at hx
      rcases hx with rfl | hRest
      · exact Or.inr ⟨_, rfl, rfl⟩
      · rw [hOld]
        exact Or.inl (List.mem_cons_of_mem _ hRest)
  | forget hRefs hNone hPage =>
      rw [hRefs]
      exact Or.inl (List.mem_cons_of_mem _ hx)

/-- The references that are left stay different from one another, and the one
of the call is not left over. -/
theorem Swaps.apart (h : Swaps pool pool' ref ref') (hNodup : pool.references.Nodup)
    (hUsed : ∀ stream, ref = some stream → stream.slot ∉ pool.references) :
    pool'.references.Nodup ∧ ∀ stream, ref' = some stream → stream.slot ∉ pool'.references ∧
      (stream.slot ∈ pool.references ∨ ∃ old, ref = some old ∧ old.slot = stream.slot) := by
  cases h with
  | keep hRefs hSlot hPage =>
      rw [hRefs]
      refine ⟨hNodup, ?_⟩
      intro stream hRef
      rw [hRef, Option.map_some, eq_comm, Option.map_eq_some_iff] at hSlot
      obtain ⟨old, hOld, hSame⟩ := hSlot
      rw [← hSame]
      exact ⟨hUsed old hOld, Or.inr ⟨old, hOld, rfl⟩⟩
  | get hRefs hPage =>
      rw [hRefs, List.nodup_cons] at hNodup
      refine ⟨hNodup.2, ?_⟩
      rintro stream ⟨⟩
      rw [hRefs]
      exact ⟨hNodup.1, Or.inl List.mem_cons_self⟩
  | @put stream hRefs =>
      rw [hRefs]
      refine ⟨List.nodup_cons.mpr ⟨hUsed stream rfl, hNodup⟩, ?_⟩
      rintro other ⟨⟩
  | @swap stream retry rest hOld hNew hPage =>
      have hFree := hUsed stream rfl
      rw [hOld, List.mem_cons, not_or] at hFree
      rw [hOld, List.nodup_cons] at hNodup
      rw [hNew]
      refine ⟨List.nodup_cons.mpr ⟨hFree.2, hNodup.2⟩, ?_⟩
      rintro other ⟨⟩
      rw [List.mem_cons, not_or, hOld]
      exact ⟨⟨Ne.symm hFree.1, hNodup.1⟩, Or.inl List.mem_cons_self⟩
  | forget hRefs hNone hPage =>
      rw [hRefs, List.nodup_cons] at hNodup
      refine ⟨hNodup.2, ?_⟩
      rintro stream ⟨⟩
      rw [hRefs]
      exact ⟨hNodup.1, Or.inl List.mem_cons_self⟩

/-- Whose page has to be chosen anew after a call: the one of its reference if
that holds a page. All other references in use were so before, and the pages
that the reference of the call held are no matter to them. -/
theorem Swaps.in_use (h : Swaps pool pool' ref ref') :
    (∃ stream i, ref' = some stream ∧ stream.Holds i ∧
      ∀ x ∉ pool'.references, x ≠ stream.slot → x ∉ pool.references ∧
        ∀ old, ref = some old → old.slot = x → ∀ j, ¬old.Holds j) ∨
    (∀ i, ¬Held ref' i) ∧ ∀ x ∉ pool'.references, x ∉ pool.references ∧
      ∀ old, ref = some old → old.slot = x → ∀ j, old.Holds j → j ∉ pool'.pageTree.pages := by
  cases h with
  | keep hRefs hSlot hPage =>
      rw [hRefs]
      by_cases hAny : ∃ i, Held ref' i
      · obtain ⟨i, stream, hRef, hHolds⟩ := hAny
        refine Or.inl ⟨stream, i, hRef, hHolds, ?_⟩
        intro x hx hne
        refine ⟨hx, ?_⟩
        intro old hOld hSame
        rw [hRef, hOld, Option.map_some, Option.map_some, Option.some.injEq] at hSlot
        exact absurd (hSlot.trans hSame).symm hne
      · refine Or.inr ⟨fun i hi => hAny ⟨i, hi⟩, ?_⟩
        intro x hx
        refine ⟨hx, ?_⟩
        intro old hOld _ j hj
        exact hPage.resolve_right hAny j ⟨old, hOld, hj⟩
  | @get stream hRefs hPage =>
      obtain ⟨i, hHolds⟩ := hPage
      refine Or.inl ⟨stream, i, rfl, hHolds, ?_⟩
      intro x hx hne
      rw [hRefs, List.mem_cons, not_or]
      refine ⟨⟨hne, hx⟩, ?_⟩
      rintro old ⟨⟩
  | @put stream hRefs =>
      refine Or.inr ⟨held_none, ?_⟩
      intro x hx
      rw [hRefs, List.mem_cons, not_or] at hx
      refine ⟨hx.2, ?_⟩
      rintro old ⟨⟩ hSame
      exact absurd hSame.symm hx.1
  | @swap stream retry rest hOld hNew hPage =>
      obtain ⟨i, hHolds⟩ := hPage
      refine Or.inl ⟨retry, i, rfl, hHolds, ?_⟩
      intro x hx hne
      rw [hNew, List.mem_cons, not_or] at hx
      rw [hOld, List.mem_cons, not_or]
      refine ⟨⟨hne, hx.2⟩, ?_⟩
      rintro old ⟨⟩ hSame
      exact absurd hSame.symm hx.1
  | @forget stream retry hRefs hNone hPage =>
      obtain ⟨i, hHolds⟩ := hPage
      refine Or.inl ⟨retry, i, rfl, hHolds, ?_⟩
      intro x hx hne
      rw [hRefs, List.mem_cons, not_or]
      refine ⟨⟨hne, hx⟩, ?_⟩
      rintro old ⟨⟩ _
      exact hNone

/-- A call that leaves the pool and the reference alone keeps both. -/
theorem Swaps.refl (hApart : ∀ i, Held ref i → i ∉ pool.pageTree.pages) : Swaps pool pool ref ref :=
  .keep rfl rfl (Or.inl hApart)

/-- A new stream of a size that rounds up without a wrap has a page. -/
theorem pagesFor_pos (hRounds : pool.RoundsUp size) (hSize : size ≠ 0) : 0 < pool.pagesFor size := by
  have hLe := le_pagesFor hRounds
  rcases Nat.eq_zero_or_pos (pool.pagesFor size) with hZero | hPos
  · rw [hZero, Nat.zero_mul] at hLe
    omega
  · exact hPos

theorem Fresh.holds_first (hFresh : Fresh pool size pool' stream) (hPos : 0 < pool.pagesFor size) :
    ∃ i, stream.Holds i :=
  ⟨stream.pageNo, (Session.holds_fresh hFresh).mpr ⟨Nat.le_refl _, by omega⟩⟩

/-- A relocated stream gives its reference back, unless it had no byte left. -/
theorem relocated_swaps {stream retry : Stream} {pool₁ : Streams} {rest : Option Stream}
    (hArea : stream.InArea pool) (hIdle : stream.len = 0 → stream.pageCount = 0)
    (hRefs : pool.references = retry.slot :: pool₁.references) (hPage : ∃ i, retry.Holds i)
    (hRelease : (pool₁.copy retry.buf stream.buf stream.len).release (some stream) stream.len =
      .ok (pool', rest)) : Swaps pool pool' (some stream) (some retry) := by
  by_cases hEmpty : stream.len = 0
  · rw [release, if_pos hEmpty] at hRelease
    cases hRelease
    refine .forget hRefs ?_ hPage
    intro i hHolds
    obtain ⟨hLow, hHigh⟩ := hHolds
    rw [hIdle hEmpty] at hHigh
    omega
  · obtain ⟨-, hNone⟩ := release_spec hArea.len_lt hEmpty hArea.nonneg hRelease
    rcases release_references hEmpty hRelease with ⟨-, hPut⟩ | ⟨other, hOther, -⟩
    · exact .swap hRefs hPut hPage
    · rw [hNone, remainder_len] at hOther
      cases hOther

/-- A claim swaps references if a new stream gets a page. -/
theorem claim_swaps {ret : Bool} (hArea : ∀ stream, ref = some stream → stream.InArea pool)
    (hApart : ∀ i, Held ref i → i ∉ pool.pageTree.pages)
    (hIdle : ∀ stream, ref = some stream → stream.len = 0 → stream.pageCount = 0)
    (hFits : ref = none → size = 0 ∨ pool.pageTree.pages = [] ∨ pool.RoundsUp size)
    (h : pool.claim ref size = .ok (ret, pool', ref')) : Swaps pool pool' ref ref' := by
  obtain ⟨⟨ret₁, pool₁, ref₁⟩, hDirect, hRest⟩ := bind_eq_ok h
  cases ref with
  | none =>
      rcases claimDirect_none_cases hDirect with
        ⟨-, rfl, rfl, rfl⟩ | ⟨rfl, rfl, rfl⟩ | ⟨hSize, rfl, stream, rfl, hFresh⟩
      · cases hRest
        exact .refl hApart
      · cases hRest
        exact .refl hApart
      · cases hRest
        have hTree : pool.pageTree.pages ≠ [] := List.ne_nil_of_mem hFresh.free
        have hRounds := ((hFits rfl).resolve_left hSize).resolve_left hTree
        exact .get (claimDirect_none_references hDirect)
          (hFresh.holds_first (pagesFor_pos hRounds hSize))
  | some stream =>
      obtain ⟨hRefs, rest, hRef, hSlot⟩ := claimDirect_some_references hDirect
      rcases claimDirect_some_cases hDirect with
        ⟨-, rfl, rfl, rfl⟩ | ⟨-, -, rfl, rfl, rfl⟩ | ⟨hSize, rfl, rfl, rfl, hBlocked⟩ |
        ⟨-, -, rfl, rfl, -, first, -, hTakes⟩
      · cases hRest
        exact .refl hApart
      · cases hRest
        exact .keep rfl rfl (Or.inl hApart)
      · obtain ⟨⟨ret₂, pool₂, ref₂⟩, hRetry, hEnd⟩ := bind_eq_ok hRest
        rcases claimDirect_none_cases hRetry with
          ⟨-, rfl, rfl, rfl⟩ | ⟨rfl, rfl, rfl⟩ | ⟨-, rfl, retry, rfl, hFresh⟩
        · cases hEnd
        · cases hEnd
          exact .refl hApart
        · obtain ⟨⟨pool₃, ref₃⟩, hRelease, hLast⟩ := bind_eq_ok hEnd
          cases hLast
          have hPos : 0 < pool₁.pagesFor ((stream.len + size) % 2 ^ 64) := by
            have hNonneg := (hArea stream rfl).nonneg
            by_contra hZero
            apply hBlocked
            intro j hj
            simp only [lacking, Nat.add_comm size] at hj
            omega
          exact relocated_swaps (hArea stream rfl) (hIdle stream rfl)
            (claimDirect_none_references hRetry) (hFresh.holds_first hPos) hRelease
      · cases hRest
        refine .keep hRefs rfl (Or.inl ?_)
        intro i hHeld hFree
        exact hApart i hHeld ((hTakes.tree i).mp hFree).1

/-- A release that takes all bytes of a stream, or ends before its pages do. -/
def ReleaseBacked (pool : Streams) (size : Nat) (stream : Stream) : Prop :=
  size = 0 ∨ size = stream.len ∨ stream.pageCount = 0 ∨
    (pool.sizeAdj stream + size) % 2 ^ 64 < stream.pageCount.toNat * pool.pageSize

instance (pool : Streams) (size : Nat) (stream : Stream) :
    Decidable (pool.ReleaseBacked size stream) := inferInstanceAs (Decidable (_ ∨ _ ∨ _ ∨ _))

/-- A release that ends before the pages of the stream do leaves it one. -/
theorem remainder_holds {rest : Stream}
    (hBefore : (pool.sizeAdj stream + size) % 2 ^ 64 < stream.pageCount.toNat * pool.pageSize)
    (hRest : pool.remainder stream size = some rest) : ∃ i, rest.Holds i := by
  have hGiven : pool.given stream size < stream.pageCount.toNat := by
    have hDiv := (Nat.div_lt_iff_lt_mul pool.pageSize_pos).mpr hBefore
    simp only [given]
    omega
  simp only [remainder] at hRest
  split_ifs at hRest
  cases hRest
  refine ⟨stream.pageNo + pool.given stream size, Nat.le_refl _, ?_⟩
  simp only
  omega

/-- A release swaps references if it leaves the stream a page. -/
theorem release_swaps (hArea : ∀ stream, ref = some stream → stream.InArea pool)
    (hApart : ∀ i, Held ref i → i ∉ pool.pageTree.pages) (hSize : size < 2 ^ 64)
    (hBacked : ∀ stream ∈ ref, pool.ReleaseBacked size stream)
    (h : pool.release ref size = .ok (pool', ref')) : Swaps pool pool' ref ref' := by
  by_cases hZero : size = 0
  · simp only [release, if_pos hZero] at h
    cases h
    exact .refl hApart
  cases ref with
  | none =>
      simp only [release, if_neg hZero] at h
      cases h
      exact .refl hApart
  | some stream =>
      have hNonneg := (hArea stream rfl).nonneg
      obtain ⟨-, hRest⟩ := release_spec hSize hZero hNonneg h
      rcases release_references hZero h with ⟨rfl, hPut⟩ | ⟨rest, rfl, hSlot, hRefs⟩
      · exact .put hPut
      · refine .keep hRefs (by rw [Option.map_some, Option.map_some, hSlot]) ?_
        rcases (hBacked stream rfl).resolve_left hZero with rfl | hNone | hBefore
        · rw [remainder_len] at hRest
          cases hRest
        · refine Or.inl ?_
          intro i hHeld
          obtain ⟨hLow, hHigh⟩ := held_some.mp hHeld
          omega
        · obtain ⟨i, hHolds⟩ := remainder_holds hBefore hRest.symm
          exact Or.inr ⟨i, held_some.mpr hHolds⟩

/-- The references of a new pool are all there. -/
theorem releasePages_references {pages : List Nat} (h : pages.foldlM releasePage pool = .ok pool') :
    pool'.references = pool.references :=
  foldlM_keeps (fun p => p.references = pool.references)
    (fun _ _ _ hRefs hRelease => (releasePage_gives hRelease).2.trans hRefs) rfl h

theorem init_references {pageCount pageSize : Nat} {granted : Bool}
    (h : init pageCount pageSize granted = .ok (some pool)) :
    pool.references = List.range pageCount := by
  simp only [init] at h
  split_ifs at h
  swap
  · cases h
  obtain ⟨made, hMade, hEnd⟩ := bind_eq_ok h
  cases hEnd
  rw [List.range_eq_range'] at hMade ⊢
  exact releasePages_references hMade

end Streams

namespace Session

variable {s s' : Session} {pool' : Streams} {r : Nat} {ref' : Option Stream} {page page' : Nat → Nat}

/-- The references that are left and those of the streams are all different. -/
structure Slotted (s : Session) : Prop where
  nodup : s.pool.references.Nodup
  lt : ∀ x ∈ s.pool.references, x < s.pool.pageCount
  slot : ∀ r stream, s.refs r = some stream →
    stream.slot < s.pool.pageCount ∧ stream.slot ∉ s.pool.references
  apart : ∀ r r' stream stream', r ≠ r' → s.refs r = some stream → s.refs r' = some stream' →
    stream.slot ≠ stream'.slot

/-- Every reference in use has a page that is not free, of its own, and that no
other stream holds. -/
structure Backed (s : Session) (page : Nat → Nat) : Prop where
  used : ∀ x < s.pool.pageCount, x ∉ s.pool.references →
    page x < s.pool.pageCount ∧ page x ∉ s.pool.pageTree.pages
  own : ∀ x < s.pool.pageCount, x ∉ s.pool.references → ∀ r stream, s.refs r = some stream →
    stream.Holds (page x) → stream.slot = x
  inj : ∀ x < s.pool.pageCount, ∀ y < s.pool.pageCount, x ∉ s.pool.references →
    y ∉ s.pool.references → page x = page y → x = y

/-- With a page for every reference in use, at least as many references are left
as pages are free. -/
theorem Backed.length_le (h : Backed s page) (hSlotted : Slotted s) (hOwned : Owned s) :
    s.pool.pageTree.pages.length ≤ s.pool.references.length := by
  have hCount : (Finset.range s.pool.pageCount \ s.pool.references.toFinset).card ≤
      (Finset.range s.pool.pageCount \ s.pool.pageTree.pages.toFinset).card := by
    apply Finset.card_le_card_of_injOn page
    · intro x hx
      simp only [Finset.coe_sdiff, Set.mem_sdiff, Finset.mem_coe, Finset.mem_range,
        List.mem_toFinset] at hx ⊢
      exact h.used x hx.1 hx.2
    · intro x hx y hy
      simp only [Finset.coe_sdiff, Set.mem_sdiff, Finset.mem_coe, Finset.mem_range,
        List.mem_toFinset] at hx hy
      exact h.inj x hx.1 y hy.1 hx.2 hy.2
  have hRefs : s.pool.references.toFinset ⊆ Finset.range s.pool.pageCount := by
    intro x hx
    exact Finset.mem_range.mpr (hSlotted.lt x (List.mem_toFinset.mp hx))
  have hFree : s.pool.pageTree.pages.toFinset ⊆ Finset.range s.pool.pageCount := by
    intro x hx
    exact Finset.mem_range.mpr (hOwned.free_lt x (List.mem_toFinset.mp hx))
  have hLe := Finset.card_le_card hFree
  rw [Finset.card_sdiff_of_subset hRefs, Finset.card_sdiff_of_subset hFree,
    List.toFinset_card_of_nodup hSlotted.nodup,
    List.toFinset_card_of_nodup s.pool.pageTree.nodup, Finset.card_range] at hCount
  rw [List.toFinset_card_of_nodup s.pool.pageTree.nodup, Finset.card_range] at hLe
  omega

theorem Slotted.update (h : Slotted s) (hArea : Streams.SameArea s.pool pool')
    (hSwaps : Streams.Swaps s.pool pool' (s.refs r) ref') :
    Slotted ⟨pool', Function.update s.refs r ref'⟩ := by
  obtain ⟨hNodup, hNew⟩ := hSwaps.apart h.nodup (fun stream hRef => (h.slot r stream hRef).2)
  have hSlotNew : ∀ stream, ref' = some stream → stream.slot < s.pool.pageCount ∧
      ∀ other old, other ≠ r → s.refs other = some old → old.slot ≠ stream.slot := by
    intro stream hRef
    rcases (hNew stream hRef).2 with hLeft | ⟨old, hOld, hSame⟩
    · refine ⟨h.lt _ hLeft, ?_⟩
      intro other old _ hOld hEq
      exact (h.slot other old hOld).2 (hEq ▸ hLeft)
    · rw [← hSame]
      exact ⟨(h.slot r old hOld).1, fun other old' hne hOld' => h.apart other r old' old hne hOld' hOld⟩
  refine ⟨hNodup, ?_, ?_, ?_⟩
  · intro x hx
    rw [hArea.pageCount]
    rcases hSwaps.of_mem hx with hLeft | ⟨old, hOld, rfl⟩
    · exact h.lt x hLeft
    · exact (h.slot r old hOld).1
  · intro other stream hRef
    rw [hArea.pageCount]
    dsimp only at hRef
    by_cases hSame : other = r
    · subst hSame
      rw [Function.update_self] at hRef
      exact ⟨(hSlotNew stream hRef).1, (hNew stream hRef).1⟩
    · rw [Function.update_of_ne hSame] at hRef
      refine ⟨(h.slot other stream hRef).1, ?_⟩
      intro hx
      rcases hSwaps.of_mem hx with hLeft | ⟨old, hOld, hEq⟩
      · exact (h.slot other stream hRef).2 hLeft
      · exact h.apart other r stream old hSame hRef hOld hEq.symm
  · intro a b streamA streamB hNe hA hB
    dsimp only at hA hB
    by_cases hSameA : a = r
    · subst hSameA
      rw [Function.update_self] at hA
      rw [Function.update_of_ne (Ne.symm hNe)] at hB
      exact Ne.symm ((hSlotNew streamA hA).2 b streamB (Ne.symm hNe) hB)
    · rw [Function.update_of_ne hSameA] at hA
      by_cases hSameB : b = r
      · subst hSameB
        rw [Function.update_self] at hB
        exact (hSlotNew streamB hB).2 a streamA hSameA hA
      · rw [Function.update_of_ne hSameB] at hB
        exact h.apart a b streamA streamB hNe hA hB

/-- After a call a reference has a page that its new stream holds, or its old
page, which is neither free now nor held by the new stream. -/
theorem Backed.update (h : Backed s page) (hOwned : Owned s)
    (hMoves : Moves s.pool (s.refs r) pool' ref')
    (hPage : ∀ x < s.pool.pageCount, x ∉ pool'.references →
      (∃ stream, ref' = some stream ∧ stream.slot = x ∧ stream.Holds (page' x)) ∨
      (x ∉ s.pool.references ∧ page' x = page x ∧ page x ∉ pool'.pageTree.pages ∧
        ¬Held ref' (page x))) : Backed ⟨pool', Function.update s.refs r ref'⟩ page' := by
  have hCount : pool'.pageCount = s.pool.pageCount := hMoves.area.pageCount
  have hAfter := hOwned.move hMoves
  refine ⟨?_, ?_, ?_⟩
  · intro x hx hUsed
    dsimp only at hx hUsed ⊢
    rw [hCount] at hx ⊢
    rcases hPage x hx hUsed with ⟨stream, hRef, -, hHolds⟩ | ⟨hBefore, hSame, hFree, -⟩
    · obtain ⟨-, hLe, -⟩ := hMoves.inArea stream hRef
      have hHigh := hHolds.2
      exact ⟨by omega, hMoves.apart _ ⟨stream, hRef, hHolds⟩⟩
    · rw [hSame]
      exact ⟨(h.used x hx hBefore).1, hFree⟩
  · intro x hx hUsed other stream hOther hHolds
    dsimp only at hx hUsed hOther
    rw [hCount] at hx
    rcases hPage x hx hUsed with ⟨new, hRef, hSlot, hNew⟩ | ⟨hBefore, hSame, -, hOut⟩
    · by_cases hMine : other = r
      · subst hMine
        rw [Function.update_self, hRef] at hOther
        cases hOther
        exact hSlot
      · have hHeld : Held (Function.update s.refs r ref' r) (page' x) := by
          rw [Function.update_self]
          exact ⟨new, hRef, hNew⟩
        exact absurd hHeld (hAfter.held_apart other r _ hMine ⟨stream, hOther, hHolds⟩)
    · rw [hSame] at hHolds
      by_cases hMine : other = r
      · subst hMine
        rw [Function.update_self] at hOther
        exact absurd ⟨stream, hOther, hHolds⟩ hOut
      · rw [Function.update_of_ne hMine] at hOther
        exact h.own x hx hBefore other stream hOther hHolds
  · intro x hx y hy hUsedX hUsedY hEq
    dsimp only at hx hy hUsedX hUsedY
    rw [hCount] at hx hy
    rcases hPage x hx hUsedX with ⟨a, hA, hSlotA, hHoldsA⟩ | ⟨hBeforeX, hSameX, -, hOutX⟩
    · rcases hPage y hy hUsedY with ⟨b, hB, hSlotB, -⟩ | ⟨-, hSameY, -, hOutY⟩
      · rw [hA] at hB
        cases hB
        exact hSlotA.symm.trans hSlotB
      · rw [hEq, hSameY] at hHoldsA
        exact absurd ⟨a, hA, hHoldsA⟩ hOutY
    · rcases hPage y hy hUsedY with ⟨b, hB, -, hHoldsB⟩ | ⟨hBeforeY, hSameY, -, -⟩
      · rw [← hEq, hSameX] at hHoldsB
        exact absurd ⟨b, hB, hHoldsB⟩ hOutX
      · exact h.inj x hx y hy hBeforeX hBeforeY (hSameX.symm.trans (hEq.trans hSameY))

/-- A call leaves every reference in use with a page. -/
theorem Backed.swap (h : Backed s page) (hOwned : Owned s)
    (hMoves : Moves s.pool (s.refs r) pool' ref')
    (hSwaps : Streams.Swaps s.pool pool' (s.refs r) ref') :
    ∃ page', Backed ⟨pool', Function.update s.refs r ref'⟩ page' := by
  -- a page of a reference other than the one of the call stays where it is
  have hOld : ∀ x < s.pool.pageCount, x ∉ s.pool.references →
      (∀ old, s.refs r = some old → old.slot = x → ∀ j, old.Holds j →
        j ∉ pool'.pageTree.pages ∧ ¬Held ref' j) →
      page x ∉ pool'.pageTree.pages ∧ ¬Held ref' (page x) := by
    intro x hx hUsed hMine
    have hNotFree := (h.used x hx hUsed).2
    constructor
    · intro hFree
      rcases hMoves.from_free _ hFree with hBefore | ⟨old, hRef, hHolds⟩
      · exact hNotFree hBefore
      · exact (hMine old hRef (h.own x hx hUsed r old hRef hHolds) _ hHolds).1 hFree
    · intro hHeld
      rcases hMoves.from_held _ hHeld with hBefore | ⟨old, hRef, hHolds⟩
      · exact hNotFree hBefore
      · exact (hMine old hRef (h.own x hx hUsed r old hRef hHolds) _ hHolds).2 hHeld
  rcases hSwaps.in_use with ⟨stream, i, hRef, hHolds, hOthers⟩ | ⟨hNone, hOthers⟩
  · refine ⟨Function.update page stream.slot i, h.update hOwned hMoves ?_⟩
    intro x hx hUsed
    by_cases hSame : x = stream.slot
    · refine Or.inl ⟨stream, hRef, hSame.symm, ?_⟩
      rw [hSame, Function.update_self]
      exact hHolds
    · obtain ⟨hBefore, hMine⟩ := hOthers x hUsed hSame
      refine Or.inr ⟨hBefore, Function.update_of_ne hSame _ _, hOld x hx hBefore ?_⟩
      intro old hOldRef hSlot j hj
      exact absurd hj (hMine old hOldRef hSlot j)
  · refine ⟨page, h.update hOwned hMoves ?_⟩
    intro x hx hUsed
    obtain ⟨hBefore, hMine⟩ := hOthers x hUsed
    refine Or.inr ⟨hBefore, rfl, hOld x hx hBefore ?_⟩
    intro old hOldRef hSlot j hj
    exact ⟨hMine old hOldRef hSlot j hj, hNone j⟩

/-- A claim of a first stream rounds its size up without a wrap, and a release
takes all bytes or ends before the pages of the stream do. -/
def CallBacked (s : Session) : Call → Prop
  | .claim r size =>
      s.refs r = none → size = 0 ∨ s.pool.pageTree.pages = [] ∨ s.pool.RoundsUp size
  | .write _ _ _ => True
  | .release r size => ∀ stream ∈ s.refs r, s.pool.ReleaseBacked size stream

instance (s : Session) : (call : Call) → Decidable (s.CallBacked call)
  | .claim _ _ => inferInstanceAs (Decidable (_ → _ ∨ _ ∨ _))
  | .write _ _ _ => .isTrue trivial
  | .release _ _ => inferInstanceAs (Decidable (∀ _ ∈ _, Streams.ReleaseBacked _ _ _))

theorem step_swaps {call : Call} (hOwned : Owned s) (hIdle : NoIdle s) (hPromised : s.Promised call)
    (hBacked : s.CallBacked call) (hStep : s.step call = .ok s') :
    Streams.Swaps s.pool s'.pool (s.refs call.ref) (s'.refs call.ref) := by
  cases call with
  | claim r size =>
      obtain ⟨⟨ret, pool', ref'⟩, hClaim, hEnd⟩ := bind_eq_ok hStep
      cases hEnd
      simpa only [Call.ref, Function.update_self] using
        Streams.claim_swaps (hOwned.inArea r) (hOwned.free_apart r) (hIdle r) hBacked hClaim
  | release r size =>
      obtain ⟨⟨pool', ref'⟩, hRelease, hEnd⟩ := bind_eq_ok hStep
      cases hEnd
      simpa only [Call.ref, Function.update_self] using
        Streams.release_swaps (hOwned.inArea r) (hOwned.free_apart r) hPromised.1 hBacked hRelease
  | write r off bytes =>
      simp only [step] at hStep
      split at hStep
      · cases hStep
      · cases hStep
        exact .keep rfl rfl (Or.inl (hOwned.free_apart r))

/-- What runs whose calls are backed keep. -/
structure Kept (s : Session) : Prop where
  owned : Owned s
  idle : NoIdle s
  slotted : Slotted s
  backed : ∃ page, Backed s page

theorem kept_start {pageCount pageSize : Nat} {granted : Bool} {pool : Streams}
    (hInit : Streams.init pageCount pageSize granted = .ok (some pool)) : Kept (start pool) := by
  have hRefs := Streams.init_references hInit
  have hCount := (Streams.init_spec hInit).1
  have hAll : ∀ x, x ∈ (start pool).pool.references ↔ x < (start pool).pool.pageCount := by
    intro x
    simp only [start, hRefs, hCount, List.mem_range]
  refine ⟨owned_start hInit, ?_, ⟨?_, ?_, ?_, ?_⟩, id, ⟨?_, ?_, ?_⟩⟩
  · rintro r stream ⟨⟩
  · simp only [start, hRefs, List.nodup_range]
  · exact fun x hx => (hAll x).mp hx
  · rintro r stream ⟨⟩
  · rintro r r' stream stream' - ⟨⟩
  · exact fun x hx hUsed => absurd ((hAll x).mpr hx) hUsed
  · exact fun x hx hUsed => absurd ((hAll x).mpr hx) hUsed
  · exact fun x hx _ _ hUsed => absurd ((hAll x).mpr hx) hUsed

theorem kept_step {call : Call} (h : Kept s) (hPromised : s.Promised call)
    (hBacked : s.CallBacked call) (hStep : s.step call = .ok s') : Kept s' := by
  obtain ⟨hOwned, hIdle, hSlotted, page, hPages⟩ := h
  obtain ⟨hMoves, hRefs⟩ := step_moves hOwned hPromised hStep
  have hSwaps := step_swaps hOwned hIdle hPromised hBacked hStep
  have hSlottedNew := hSlotted.update hMoves.area hSwaps
  have hPagesNew := hPages.swap hOwned hMoves hSwaps
  rw [← hRefs] at hSlottedNew hPagesNew
  exact ⟨owned_step hOwned hPromised hStep, noIdle_step hOwned hIdle hPromised hStep, hSlottedNew,
    hPagesNew⟩

/-- In every run whose calls are backed at least as many references are left as
pages are free. -/
theorem kept_of_reached {pageCount pageSize : Nat} {granted : Bool} {pool : Streams}
    (hInit : Streams.init pageCount pageSize granted = .ok (some pool))
    (hRun : Reached step (fun s call => s.Promised call ∧ s.CallBacked call) (start pool) s) :
    Owned s ∧ s.pool.pageTree.pages.length ≤ s.pool.references.length := by
  have hKept : Kept s := by
    apply hRun.invariant Kept (kept_start hInit)
    intro s call s' hKept hAdmitted hStep
    exact kept_step hKept hAdmitted.1 hAdmitted.2 hStep
  obtain ⟨hOwned, -, hSlotted, page, hPages⟩ := hKept
  exact ⟨hOwned, hPages.length_le hSlotted hOwned⟩

end Session
end Peak
