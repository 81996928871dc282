import Mathlib.Logic.Function.Basic
import Peak.Stream.Calls

/-! Clients of a stream pool. A session is a pool with the stream references
that its clients hold; clients claim, write into their buffers and release in
any order. Whatever they do, no page ever has two owners. -/
namespace Peak

open Cells Run

/-- A pool and the `struct peak_stream *` variables of its clients. -/
structure Session where
  pool : Streams
  refs : Nat → Option Stream

inductive Call where
  | claim (ref size : Nat)
  | write (ref off : Nat) (bytes : List UInt8)
  | release (ref size : Nat)

/-- The reference that a call is made with. -/
def Call.ref : Call → Nat
  | .claim ref _ => ref
  | .write ref _ _ => ref
  | .release ref _ => ref

namespace Session

variable {s s' : Session} {pool pool' : Streams} {r : Nat}

def start (pool : Streams) : Session := ⟨pool, fun _ => none⟩

/-- A call of a client, or a write into the buffer it was handed. -/
def step (s : Session) : Call → Except Panic Session
  | .claim ref size => do
      let (_, pool, stream) ← s.pool.claim (s.refs ref) size
      return ⟨pool, Function.update s.refs ref stream⟩
  | .write ref off bytes =>
      match s.refs ref with
      | none => .error .nullReference
      | some stream =>
          .ok { s with
            pool := { s.pool with
              pageMem := Cells.write s.pool.pageMem (stream.buf + off) (bytes.map some) } }
  | .release ref size => do
      let (pool, stream) ← s.pool.release (s.refs ref) size
      return ⟨pool, Function.update s.refs ref stream⟩

/-- What clients keep to: sizes fit a `size_t`, writes stay in the buffer and
releases take at most what it holds. -/
def Promised (s : Session) : Call → Prop
  | .claim _ size => size < 2 ^ 64
  | .write ref off bytes => ∀ stream ∈ s.refs ref, off + bytes.length ≤ stream.len
  | .release ref size => size < 2 ^ 64 ∧ ∀ stream ∈ s.refs ref, size ≤ stream.len

instance (s : Session) : (call : Call) → Decidable (s.Promised call)
  | .claim _ _ => inferInstanceAs (Decidable (_ < _))
  | .write _ _ _ => inferInstanceAs (Decidable (∀ _ ∈ _, _ ≤ _))
  | .release _ _ => inferInstanceAs (Decidable (_ ∧ ∀ _ ∈ _, _ ≤ _))

end Session

/-- The page is one of the stream's. -/
def Stream.Holds (stream : Stream) (i : Nat) : Prop :=
  stream.pageNo ≤ i ∧ (i : Int) < stream.pageNo + stream.pageCount

/-- The page is held through a reference. -/
def Held (ref : Option Stream) (i : Nat) : Prop := ∃ stream, ref = some stream ∧ stream.Holds i

@[simp] theorem held_none (i : Nat) : ¬Held none i := fun ⟨_, h, _⟩ => by cases h

@[simp] theorem held_some {stream : Stream} {i : Nat} : Held (some stream) i ↔ stream.Holds i := by
  simp [Held]

namespace Streams

/-- The claim has to move the stream to new pages. -/
def Relocates (pool : Streams) (stream : Stream) (size : Nat) : Prop :=
  size ≠ 0 ∧ ¬pool.FreeFrom (stream.pageNo + stream.pageCount) (pool.lacking stream size).toNat

/-- The old contents fit the pages that a relocation asks for. -/
def Copies (pool : Streams) (stream : Stream) (size : Nat) : Prop :=
  pool.Relocates stream size →
    stream.len ≤ pool.pagesFor ((stream.len + size) % 2 ^ 64) * pool.pageSize

instance (pool : Streams) (stream : Stream) (size : Nat) : Decidable (pool.Relocates stream size) :=
  inferInstanceAs (Decidable (_ ∧ _))

instance (pool : Streams) (stream : Stream) (size : Nat) : Decidable (pool.Copies stream size) :=
  inferInstanceAs (Decidable (_ → _))

end Streams

namespace Session

/-- Nothing is written outside of the pages of the stream that it belongs to:
clients write to pages of their stream, and a relocation copies no more than
the new pages hold. -/
def KeepsOff (s : Session) : Call → Prop
  | .claim ref size => ∀ stream ∈ s.refs ref, s.pool.Copies stream size
  | .write ref off bytes => ∀ stream ∈ s.refs ref, ∀ k < bytes.length,
      stream.Holds (s.pool.pageOf (stream.buf + off + k))
  | .release _ _ => True

instance (s : Session) : (call : Call) → Decidable (s.KeepsOff call)
  | .claim _ _ => inferInstanceAs (Decidable (∀ _ ∈ _, Streams.Copies _ _ _))
  | .write _ _ _ => inferInstanceAs (Decidable (∀ _ ∈ _, ∀ _ < _, _ ∧ _))
  | .release _ _ => inferInstanceAs (Decidable True)

end Session

/-- A stream that has its pages within the page memory. -/
structure Stream.InArea (pool : Streams) (stream : Stream) : Prop where
  nonneg : 0 ≤ stream.pageCount
  le : stream.pageNo + stream.pageCount ≤ pool.pageCount
  len_lt : stream.len < 2 ^ 64

namespace Session

variable {s s' : Session} {pool pool' : Streams} {r : Nat} {ref ref' : Option Stream} {size : Nat}

/-- Free pages and the pages of the streams lie in the page memory and no two
of them meet. -/
structure Owned (s : Session) : Prop where
  free_lt : ∀ i ∈ s.pool.pageTree.pages, i < s.pool.pageCount
  inArea : ∀ r stream, s.refs r = some stream → stream.InArea s.pool
  free_apart : ∀ r i, Held (s.refs r) i → i ∉ s.pool.pageTree.pages
  held_apart : ∀ r r' i, r ≠ r' → Held (s.refs r) i → ¬Held (s.refs r') i

/-- What one call may do to the owners: pages move between the tree and the
reference of the call. -/
structure Moves (pool : Streams) (ref : Option Stream) (pool' : Streams) (ref' : Option Stream) :
    Prop where
  area : Streams.SameArea pool pool'
  inArea : ∀ stream, ref' = some stream → stream.InArea pool'
  from_free : ∀ i ∈ pool'.pageTree.pages, i ∈ pool.pageTree.pages ∨ Held ref i
  from_held : ∀ i, Held ref' i → i ∈ pool.pageTree.pages ∨ Held ref i
  apart : ∀ i, Held ref' i → i ∉ pool'.pageTree.pages

theorem Moves.refl (h : Owned s) (r : Nat) : Moves s.pool (s.refs r) s.pool (s.refs r) where
  area := .refl _
  inArea := h.inArea r
  from_free := fun _ => .inl
  from_held := fun _ => .inr
  apart := h.free_apart r

/-- What is true of the streams of all other references and of the new one is
true of all streams after a call. -/
theorem forall_update {P : Stream → Prop} (hRef : ∀ stream, ref' = some stream → P stream)
    (hOthers : ∀ other stream, s.refs other = some stream → P stream) (other : Nat)
    (stream : Stream) (h : Function.update s.refs r ref' other = some stream) : P stream := by
  by_cases hSame : other = r
  · subst hSame
    rw [Function.update_self] at h
    exact hRef stream h
  · rw [Function.update_of_ne hSame] at h
    exact hOthers other stream h

/-- A call keeps the owners apart. -/
theorem Owned.move (h : Owned s) (hMoves : Moves s.pool (s.refs r) pool' ref') :
    Owned ⟨pool', Function.update s.refs r ref'⟩ where
  free_lt := by
    intro i hi
    rw [hMoves.area.pageCount]
    rcases hMoves.from_free i hi with hFree | ⟨stream, hRef, hHolds⟩
    · exact h.free_lt i hFree
    · have := (h.inArea r stream hRef).le
      have := hHolds.2
      omega
  inArea := by
    refine forall_update hMoves.inArea fun other stream hOther => ?_
    obtain ⟨hNonneg, hLe, hLen⟩ := h.inArea other stream hOther
    exact ⟨hNonneg, by rw [hMoves.area.pageCount]; exact hLe, hLen⟩
  free_apart := by
    intro other i hHeld hFree
    by_cases hSame : other = r
    · subst hSame
      exact hMoves.apart i (by simpa using hHeld) hFree
    · simp only [Function.update_of_ne hSame] at hHeld
      rcases hMoves.from_free i hFree with hOld | hOld
      · exact h.free_apart other i hHeld hOld
      · exact h.held_apart other r i hSame hHeld hOld
  held_apart := by
    -- Only one of two different references is the one of the call.
    intro a b i hNe hA hB
    by_cases hSameA : a = r
    · subst hSameA
      simp only [Function.update_self] at hA
      simp only [Function.update_of_ne hNe.symm] at hB
      rcases hMoves.from_held i hA with hOld | hOld
      · exact h.free_apart b i hB hOld
      · exact h.held_apart a b i hNe hOld hB
    · simp only [Function.update_of_ne hSameA] at hA
      by_cases hSameB : b = r
      · subst hSameB
        simp only [Function.update_self] at hB
        rcases hMoves.from_held i hB with hOld | hOld
        · exact h.free_apart a i hA hOld
        · exact h.held_apart a b i hNe hA hOld
      · simp only [Function.update_of_ne hSameB] at hB
        exact h.held_apart a b i hNe hA hB

theorem given_le (pool : Streams) (stream : Stream) (size : Nat) :
    pool.given stream size ≤ stream.pageCount.toNat := Nat.min_le_left _ _

/-- The pages that a release leaves to the stream. -/
theorem held_remainder {stream : Stream} {i : Nat} (h : Held (pool.remainder stream size) i) :
    stream.pageNo + pool.given stream size ≤ i ∧ stream.Holds i := by
  obtain ⟨rest, hRest, hHolds⟩ := h
  simp only [Streams.remainder] at hRest
  split_ifs at hRest
  cases hRest
  obtain ⟨hLow, hHigh⟩ := hHolds
  simp only at hLow hHigh
  exact ⟨hLow, by omega, by omega⟩

theorem released_moves (hArea : ∀ stream, ref = some stream → stream.InArea pool)
    (hApart : ∀ i, Held ref i → i ∉ pool.pageTree.pages)
    (h : Streams.Released pool size ref pool' ref') : Moves pool ref pool' ref' := by
  cases h with
  | nothing => exact ⟨.refl _, hArea, fun _ => .inl, fun _ => .inr, hApart⟩
  | @front stream pool' hSize hGives =>
      have hGiven := given_le pool stream size
      obtain ⟨hNonneg, hLe, -⟩ := hArea stream rfl
      refine ⟨hGives.area, ?_, ?_, ?_, ?_⟩
      · intro rest hRest
        simp only [Streams.remainder] at hRest
        split_ifs at hRest
        cases hRest
        refine ⟨by simp only; omega, ?_, Nat.mod_lt _ (by omega)⟩
        rw [hGives.area.pageCount]
        simp only
        omega
      · intro i hFree
        rcases (hGives.tree i).mp hFree with hOld | ⟨hLow, hHigh⟩
        · exact .inl hOld
        · exact .inr (held_some.mpr ⟨hLow, by omega⟩)
      · intro i hHeld
        exact .inr (held_some.mpr (held_remainder hHeld).2)
      · intro i hHeld hFree
        obtain ⟨hLow, hHolds⟩ := held_remainder hHeld
        rcases (hGives.tree i).mp hFree with hOld | hNew
        · exact hApart i (held_some.mpr hHolds) hOld
        · omega

/-- A release of streams that have their pages in the page memory. -/
theorem release_released (hArea : ∀ stream, ref = some stream → stream.InArea pool)
    (hSize : size < 2 ^ 64) (h : pool.release ref size = .ok (pool', ref')) :
    Streams.Released pool size ref pool' ref' :=
  Streams.release_released hSize (fun stream hRef => (hArea stream hRef).nonneg) h

/-- The pages of a fresh stream are the ones it took. -/
theorem holds_fresh {stream : Stream} (hFresh : Streams.Fresh pool size pool' stream) {i : Nat} :
    stream.Holds i ↔ stream.pageNo ≤ i ∧ i < stream.pageNo + pool.pagesFor size := by
  simp only [Stream.Holds, hFresh.pageCount]
  omega

theorem fresh_free {stream : Stream} (hFresh : Streams.Fresh pool size pool' stream) {i : Nat}
    (hHolds : stream.Holds i) : i ∈ pool.pageTree.pages := by
  obtain ⟨hLow, hHigh⟩ := (holds_fresh hFresh).mp hHolds
  have := hFresh.takes.free (i - stream.pageNo) (by omega)
  rwa [show stream.pageNo + (i - stream.pageNo) = i by omega] at this

theorem fresh_inArea {stream : Stream} (hFree : ∀ i ∈ pool.pageTree.pages, i < pool.pageCount)
    (hFresh : Streams.Fresh pool size pool' stream) : stream.InArea pool' := by
  refine ⟨by rw [hFresh.pageCount]; omega, ?_, by rw [hFresh.len]; exact Nat.mod_lt _ (by omega)⟩
  rw [hFresh.pageCount, hFresh.takes.area.pageCount]
  rcases Nat.eq_zero_or_pos (pool.pagesFor size) with hZero | hPos
  · have := hFree _ hFresh.free
    omega
  · have := hFree _ (hFresh.takes.free (pool.pagesFor size - 1) (by omega))
    omega

/-- The page count after a claim that was served in place. -/
theorem extend_pageCount (pool : Streams) (stream : Stream) (size : Nat) :
    (pool.extend stream stream.pageNo (pool.lacking stream size) size).pageCount =
      pool.pagesFor ((size + stream.len) % 2 ^ 64) := by
  simp only [Streams.extend, Streams.lacking]
  omega

/-- A stream that grows or shrinks at its end holds its old pages and the ones
behind them that it took. -/
theorem holds_extend {stream : Stream} {first i : Nat}
    (hFirst : pool.lacking stream size ≤ 0 ∨ (first : Int) = stream.pageNo + stream.pageCount)
    (h : (pool.extend stream stream.pageNo (pool.lacking stream size) size).Holds i) :
    stream.Holds i ∨ (first ≤ i ∧ i < first + (pool.lacking stream size).toNat) := by
  obtain ⟨hLow, hHigh⟩ := h
  simp only [Streams.extend] at hLow hHigh
  simp only [Stream.Holds]
  omega

/-- A claim that is served in place. -/
theorem extended_moves {stream : Stream} {first : Nat}
    (hFree : ∀ i ∈ pool.pageTree.pages, i < pool.pageCount) (hArea : stream.InArea pool)
    (hApart : ∀ i, stream.Holds i → i ∉ pool.pageTree.pages)
    (hFirst : pool.lacking stream size ≤ 0 ∨ (first : Int) = stream.pageNo + stream.pageCount)
    (hTakes : Streams.Takes pool pool' first (pool.lacking stream size).toNat) :
    Moves pool (some stream) pool'
      (some (pool.extend stream stream.pageNo (pool.lacking stream size) size)) := by
  have hCount := extend_pageCount pool stream size
  obtain ⟨hNonneg, hLe, -⟩ := hArea
  refine ⟨hTakes.area, ?_, ?_, ?_, ?_⟩
  · intro other hOther
    cases hOther
    refine ⟨by rw [hCount]; omega, ?_, Nat.mod_lt _ (by omega)⟩
    rw [hTakes.area.pageCount]
    simp only [Streams.extend]
    rcases lt_or_ge 0 (pool.lacking stream size) with hPos | hNeg
    · have := hFree _ (hTakes.free ((pool.lacking stream size).toNat - 1) (by omega))
      omega
    · omega
  · exact fun i hi => .inl ((hTakes.tree i).mp hi).1
  · intro i hi
    rcases holds_extend hFirst (held_some.mp hi) with hOld | ⟨hLow, hHigh⟩
    · exact .inr (held_some.mpr hOld)
    · have := hTakes.free (i - first) (by omega)
      exact .inl (by rwa [show first + (i - first) = i by omega] at this)
  · intro i hi hTree
    obtain ⟨hOldTree, hOut⟩ := (hTakes.tree i).mp hTree
    rcases holds_extend hFirst (held_some.mp hi) with hOld | hNew
    · exact hApart i hOld hOldTree
    · exact hOut hNew

/-- A claim that moves the stream to new pages and releases the old ones. -/
theorem relocated_moves {stream retry : Stream} {pool₁ : Streams} {rest : Option Stream}
    (hFree : ∀ i ∈ pool.pageTree.pages, i < pool.pageCount) (hArea : stream.InArea pool)
    (hApart : ∀ i, stream.Holds i → i ∉ pool.pageTree.pages)
    (hFresh : Streams.Fresh pool size pool₁ retry)
    (hRelease : (pool₁.copy retry.buf stream.buf stream.len).release (some stream) stream.len =
      .ok (pool', rest)) :
    Moves pool (some stream) pool' (some retry) := by
  obtain ⟨hNonneg, hLe, hLen⟩ := hArea
  have hOld : Moves (pool₁.copy retry.buf stream.buf stream.len) (some stream) pool' rest := by
    have hAreaCopy : ∀ other, some stream = some other →
        other.InArea (pool₁.copy retry.buf stream.buf stream.len) := by
      intro other hOther
      cases hOther
      exact ⟨hNonneg, hFresh.takes.area.pageCount.symm ▸ hLe, hLen⟩
    refine released_moves hAreaCopy ?_ (release_released hAreaCopy hLen hRelease)
    exact fun i hi hTree => hApart i (held_some.mp hi) ((hFresh.takes.tree i).mp hTree).1
  refine ⟨hFresh.takes.area.trans ⟨hOld.area.pageCount, hOld.area.pageSize⟩, ?_, ?_, ?_, ?_⟩
  · intro other hOther
    cases hOther
    obtain ⟨hNonneg', hLe', hLen'⟩ := fresh_inArea hFree hFresh
    exact ⟨hNonneg', hOld.area.pageCount.symm ▸ hLe', hLen'⟩
  · intro i hi
    rcases hOld.from_free i hi with hTree | hHeld
    · exact .inl ((hFresh.takes.tree i).mp hTree).1
    · exact .inr hHeld
  · exact fun i hi => .inl (fresh_free hFresh (held_some.mp hi))
  · intro i hi hTree
    have hFreeBefore := fresh_free hFresh (held_some.mp hi)
    rcases hOld.from_free i hTree with hMid | hHeld
    · exact ((hFresh.takes.tree i).mp hMid).2 ((holds_fresh hFresh).mp (held_some.mp hi))
    · exact hApart i (held_some.mp hHeld) hFreeBefore

theorem claimed_moves {ret : Bool} (hFree : ∀ i ∈ pool.pageTree.pages, i < pool.pageCount)
    (hArea : ∀ stream, ref = some stream → stream.InArea pool)
    (hApart : ∀ i, Held ref i → i ∉ pool.pageTree.pages)
    (h : Streams.Claimed pool size ref ret pool' ref') : Moves pool ref pool' ref' := by
  cases h with
  | nothing => exact ⟨.refl _, hArea, fun _ => .inl, fun _ => .inr, hApart⟩
  | refused => exact ⟨.refl _, hArea, fun _ => .inl, fun _ => .inr, hApart⟩
  | @fresh pool' stream hSize hFresh =>
      refine ⟨hFresh.takes.area, ?_, ?_, ?_, ?_⟩
      · intro other hOther
        cases hOther
        exact fresh_inArea hFree hFresh
      · exact fun i hi => .inl ((hFresh.takes.tree i).mp hi).1
      · exact fun i hi => .inl (fresh_free hFresh (held_some.mp hi))
      · intro i hHeld hi
        exact ((hFresh.takes.tree i).mp hi).2 ((holds_fresh hFresh).mp (held_some.mp hHeld))
  | @trivial stream hSize hLacking =>
      have hSame : ∀ i, Held (some { stream with len := (stream.len + size) % 2 ^ 64 }) i →
          Held (some stream) i := fun i hi => by simpa only [held_some, Stream.Holds] using hi
      refine ⟨.refl _, ?_, fun _ => .inl, fun i hi => .inr (hSame i hi),
        fun i hi => hApart i (hSame i hi)⟩
      intro other hOther
      cases hOther
      obtain ⟨hNonneg, hLe, -⟩ := hArea stream rfl
      exact ⟨hNonneg, hLe, Nat.mod_lt _ (by omega)⟩
  | @inPlace stream pool' first hSize hLacking hFreeFrom hFirst hTakes =>
      exact extended_moves hFree (hArea stream rfl) (fun i hi => hApart i (held_some.mpr hi))
        hFirst hTakes
  | @relocated stream retry pool₁ pool' rest hSize hBlocked hFresh hRelease =>
      exact relocated_moves hFree (hArea stream rfl) (fun i hi => hApart i (held_some.mpr hi))
        hFresh hRelease

/-- Other references stay as they are. -/
theorem step_refs {call : Call} (hStep : s.step call = .ok s') (hOther : r ≠ call.ref) :
    s'.refs r = s.refs r := by
  cases call with
  | claim ref size =>
      obtain ⟨⟨ret, pool', ref'⟩, -, hEnd⟩ := bind_eq_ok hStep
      cases hEnd
      exact Function.update_of_ne hOther _ _
  | release ref size =>
      obtain ⟨⟨pool', ref'⟩, -, hEnd⟩ := bind_eq_ok hStep
      cases hEnd
      exact Function.update_of_ne hOther _ _
  | write ref off bytes =>
      simp only [step] at hStep
      split at hStep
      · cases hStep
      · cases hStep
        rfl

/-- A reference that no call is made with stays null. -/
theorem refs_of_unused {admitted : Session → Call → Prop}
    (hRun : Reached step admitted (start pool) s) (hUnused : ∀ s call, admitted s call → r ≠ call.ref) :
    s.refs r = none := by
  refine hRun.invariant (fun s => s.refs r = none) rfl ?_
  intro s call s' hNone hAdmitted hStep
  rw [step_refs hStep (hUnused s call hAdmitted), hNone]

/-- A call moves pages between the tree and its own reference only. -/
theorem step_moves {call : Call} (h : Owned s) (hPromised : s.Promised call)
    (hStep : s.step call = .ok s') :
    Moves s.pool (s.refs call.ref) s'.pool (s'.refs call.ref) ∧
      s'.refs = Function.update s.refs call.ref (s'.refs call.ref) := by
  cases call with
  | claim r size =>
      obtain ⟨⟨ret, pool', ref'⟩, hClaim, hEnd⟩ := bind_eq_ok hStep
      cases hEnd
      have hMoves := claimed_moves h.free_lt (h.inArea r) (h.free_apart r)
        (Streams.claim_claimed hClaim)
      simpa only [Call.ref, Function.update_self, and_true] using hMoves
  | release r size =>
      obtain ⟨⟨pool', ref'⟩, hRelease, hEnd⟩ := bind_eq_ok hStep
      cases hEnd
      have hMoves := released_moves (h.inArea r) (h.free_apart r)
        (release_released (h.inArea r) hPromised.1 hRelease)
      simpa only [Call.ref, Function.update_self, and_true] using hMoves
  | write r off bytes =>
      simp only [step] at hStep
      split at hStep
      · cases hStep
      · cases hStep
        have hSame := Moves.refl h r
        refine ⟨⟨⟨rfl, rfl⟩, ?_, hSame.from_free, hSame.from_held, hSame.apart⟩, by simp⟩
        intro stream hRef
        obtain ⟨hNonneg, hLe, hLen⟩ := hSame.inArea stream hRef
        exact ⟨hNonneg, hLe, hLen⟩

/-- No call gives a page a second owner. -/
theorem owned_step {call : Call} (h : Owned s) (hPromised : s.Promised call)
    (hStep : s.step call = .ok s') : Owned s' := by
  obtain ⟨hMoves, hRefs⟩ := step_moves h hPromised hStep
  have hOwned := h.move hMoves
  rw [← hRefs] at hOwned
  exact hOwned

end Session

namespace Streams

/-- The pages of a new pool all go to the tree. -/
theorem releasePages_gives {pool pool' : Streams} {first count : Nat}
    (h : (List.range' first count).foldlM releasePage pool = .ok pool') :
    Gives pool pool' first count := by
  induction count generalizing pool first with
  | zero =>
      cases h
      exact .none _ _
  | succ count ih =>
      rw [List.range'_succ, List.foldlM_cons] at h
      obtain ⟨next, hFirst, hRest⟩ := bind_eq_ok h
      exact (releasePage_gives hFirst).1.succ (ih hRest)

/-- What `peak_stream_init` makes: a pool whose pages are all free. -/
theorem init_spec {pageCount pageSize : Nat} {granted : Bool} {pool : Streams}
    (h : init pageCount pageSize granted = .ok (some pool)) :
    pool.pageCount = pageCount ∧ pool.pageSize = pageSize ∧
      ∀ i, i ∈ pool.pageTree.pages ↔ i < pageCount := by
  simp only [init] at h
  split_ifs at h
  swap
  · cases h
  obtain ⟨made, hMade, hEnd⟩ := bind_eq_ok h
  cases hEnd
  rw [List.range_eq_range'] at hMade
  have hGives := releasePages_gives hMade
  refine ⟨hGives.area.pageCount, hGives.area.pageSize, fun i => ?_⟩
  rw [hGives.tree]
  simp [Tree.empty]

end Streams

theorem Session.owned_start {pageCount pageSize : Nat} {granted : Bool} {pool : Streams}
    (h : Streams.init pageCount pageSize granted = .ok (some pool)) : (start pool).Owned := by
  obtain ⟨hCount, -, hTree⟩ := Streams.init_spec h
  refine ⟨?_, ?_, ?_, ?_⟩
  · intro i hi
    rw [show (start pool).pool = pool from rfl, hCount]
    exact (hTree i).mp hi
  · exact fun r stream hRef => by cases hRef
  · exact fun r i hHeld => absurd hHeld (held_none i)
  · exact fun a b i _ hHeld => absurd hHeld (held_none i)

end Peak
