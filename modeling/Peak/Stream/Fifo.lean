import Peak.Stream.Bounds

/-! Streams as byte queues. Clients append bytes to a stream by claiming room
for them and filling the end of the buffer, and take bytes off its front by
releasing them. The buffer then holds the bytes that were appended and not yet
taken, unless a claim is served in place on a stream that has released part of
its first page: such a claim moves the buffer back to the page start. -/
namespace Peak

open Cells Run

namespace Streams

variable {pool pool₁ pool' : Streams} {ref ref' : Option Stream} {stream : Stream} {size : Nat}

/-- The bytes of the buffer behind a reference. -/
def contents (pool : Streams) : Option Stream → List (Option UInt8)
  | none => []
  | some stream => read pool.pageMem stream.buf stream.len

def length : Option Stream → Nat
  | none => 0
  | some stream => stream.len

/-- A claim that keeps the front of the buffer: the length does not wrap, and
the number of pages changes in place only while nothing is released from the
first page. -/
def KeepsFront (pool : Streams) (size : Nat) (stream : Stream) : Prop :=
  size = 0 ∨ (stream.len + size < 2 ^ 64 ∧
    (pool.offset stream = 0 ∨ pool.lacking stream size = 0 ∨
      ¬pool.FreeFrom (stream.pageNo + stream.pageCount) (pool.lacking stream size).toNat))

/-- Bytes change in free pages and in the pages of the reference only. -/
def Frame (pool : Streams) (ref : Option Stream) (pool' : Streams) : Prop :=
  ∀ i, pool.pageOf i ∉ pool.pageTree.pages → ¬Held ref (pool.pageOf i) →
    pool'.pageMem i = pool.pageMem i

theorem SameArea.pageOf (h : SameArea pool pool') (i : Nat) : pool'.pageOf i = pool.pageOf i := by
  simp only [Streams.pageOf, h.pageSize]

/-- A buffer inside its pages keeps its bytes if its pages do. -/
theorem read_of_pages (hInside : pool.Inside stream) {k : Nat} (hk : k ≤ stream.len)
    (h : ∀ i, stream.Holds (pool.pageOf i) → pool'.pageMem i = pool.pageMem i) :
    read pool'.pageMem stream.buf k = read pool.pageMem stream.buf k := by
  apply read_congr
  intro i hLow hHigh
  exact h i (Session.holds_pageOf hInside hLow (by omega))

/-- A release writes to pages that are free afterwards only. -/
theorem Released.mem (h : Released pool size ref pool' ref') {i : Nat}
    (hUsed : pool.pageOf i ∉ pool'.pageTree.pages) : pool'.pageMem i = pool.pageMem i := by
  cases h with
  | nothing => rfl
  | front hSize hGives => exact hGives.mem i hUsed

theorem Released.frame (hArea : ∀ stream, ref = some stream → stream.InArea pool)
    (hApart : ∀ i, Held ref i → i ∉ pool.pageTree.pages) (h : Released pool size ref pool' ref') :
    Frame pool ref pool' := by
  intro i hFree hHeld
  refine h.mem fun hAfter => ?_
  rcases (Session.released_moves hArea hApart h).from_free _ hAfter with hOld | hOld
  · exact hFree hOld
  · exact hHeld hOld

/-- The copy of a relocation goes to pages that were free. -/
theorem copy_frame (hRounds : pool.RoundsUp size) {retry : Stream} {src len : Nat}
    (hFresh : Fresh pool size pool₁ retry) (hLen : len ≤ retry.len) :
    Frame pool none (pool₁.copy retry.buf src len) := by
  intro i hFree _
  have hInside := hFresh.inside hRounds
  simp only [copy]
  rw [write_outside, hFresh.takes.mem i hFree]
  by_contra hIn
  rw [read_length] at hIn
  have hHolds := Session.holds_pageOf (i := i) hInside (by omega) (by omega)
  rw [hFresh.takes.area.pageOf] at hHolds
  exact hFree (Session.fresh_free hFresh hHolds)

/-- The old buffer after a relocation, before its pages are released. -/
theorem relocated_old {retry : Stream} {total : Nat}
    (hArea : ∀ other, some stream = some other → other.InArea pool)
    (hApart : ∀ i, Held (some stream) i → i ∉ pool.pageTree.pages)
    (hFresh : Fresh pool total pool₁ retry) :
    (∀ other, some stream = some other → other.InArea (pool₁.copy retry.buf stream.buf stream.len)) ∧
      ∀ i, Held (some stream) i → i ∉ (pool₁.copy retry.buf stream.buf stream.len).pageTree.pages := by
  constructor
  · intro other hOther
    obtain ⟨hNonneg, hLe, hLen⟩ := hArea other hOther
    exact ⟨hNonneg, hFresh.takes.area.pageCount.symm ▸ hLe, hLen⟩
  · exact fun i hi hTree => hApart i hi ((hFresh.takes.tree i).mp hTree).1

section Claim

variable (hArea : ∀ stream, ref = some stream → stream.InArea pool)
  (hApart : ∀ i, Held ref i → i ∉ pool.pageTree.pages)
  (hFits : Session.ClaimFits pool size ref)
  (hKeeps : ∀ stream ∈ ref, pool.KeepsFront size stream)

include hArea hApart hFits hKeeps

theorem claimed_frame {ret : Bool} (h : Claimed pool size ref ret pool' ref') :
    Frame pool ref pool' := by
  cases h with
  | nothing => exact fun _ _ _ => rfl
  | refused => exact fun _ _ _ => rfl
  | fresh hSize hFresh => exact fun i hFree _ => hFresh.takes.mem i hFree
  | trivial => exact fun _ _ _ => rfl
  | inPlace hSize hLacking hFree hFirst hTakes => exact fun i hUsed _ => hTakes.mem i hUsed
  | @relocated stream retry pool₁ pool' rest hSize hBlocked hFresh hRelease =>
      obtain ⟨hRounds, -⟩ := hFits.resolve_left hSize
      obtain ⟨hTotal, -⟩ := (hKeeps stream rfl).resolve_left hSize
      rw [Nat.add_comm] at hRounds
      have hLen : stream.len ≤ retry.len := by
        rw [hFresh.len]
        omega
      obtain ⟨hAreaCopy, hApartCopy⟩ := relocated_old hArea hApart hFresh
      have hReleased := Session.release_released hAreaCopy (hArea stream rfl).len_lt hRelease
      have hRest := hReleased.frame hAreaCopy hApartCopy
      intro i hFree hHeld
      have hPage : (pool₁.copy retry.buf stream.buf stream.len).pageOf i = pool.pageOf i :=
        hFresh.takes.area.pageOf i
      rw [hRest i ?_ ?_, copy_frame hRounds hFresh hLen i hFree (held_none _)]
      · rw [hPage]
        exact fun hTree => hFree ((hFresh.takes.tree _).mp hTree).1
      · rw [hPage]
        exact hHeld

/-- After a claim that succeeds, the buffer starts with its old contents and is
longer by the size of the claim. -/
theorem claimed_front (hSize : size < 2 ^ 64)
    (hInside : ∀ stream, ref = some stream → pool.Inside stream)
    (hMoves : Session.Moves pool ref pool' (some stream))
    (h : Claimed pool size ref true pool' (some stream)) :
    stream.len = length ref + size ∧
      read pool'.pageMem stream.buf (length ref) = contents pool ref := by
  cases h with
  | nothing ref hZero => exact ⟨by rw [hZero]; rfl, rfl⟩
  | fresh hNonzero hFresh =>
      exact ⟨by rw [hFresh.len, Nat.mod_eq_of_lt hSize]; simp [length], rfl⟩
  | @trivial old hNonzero hLacking =>
      obtain ⟨hTotal, -⟩ := (hKeeps old rfl).resolve_left hNonzero
      exact ⟨Nat.mod_eq_of_lt hTotal, rfl⟩
  | @inPlace old pool' first hNonzero hLacking hFree hFirst hTakes =>
      obtain ⟨hTotal, hCase⟩ := (hKeeps old rfl).resolve_left hNonzero
      have hOffset : pool.offset old = 0 :=
        hCase.resolve_right fun h => h.elim hLacking fun hBlocked => hBlocked hFree
      have hLow := (hInside old rfl).low
      have hBuf : pool.page old.pageNo = old.buf := by
        simp only [offset] at hOffset
        omega
      refine ⟨Nat.mod_eq_of_lt hTotal, ?_⟩
      simp only [extend, length, contents, hBuf]
      exact read_of_pages (hInside old rfl) (le_refl _)
        fun i hHolds => hTakes.mem i (hApart _ (held_some.mpr hHolds))
  | @relocated old retry pool₁ pool' rest hNonzero hBlocked hFresh hRelease =>
      obtain ⟨hTotal, -⟩ := (hKeeps old rfl).resolve_left hNonzero
      obtain ⟨hRounds, -⟩ := hFits.resolve_left hNonzero
      rw [Nat.add_comm] at hRounds
      have hLen : stream.len = old.len + size := by
        rw [hFresh.len, Nat.mod_mod, Nat.mod_eq_of_lt hTotal]
      obtain ⟨hAreaCopy, -⟩ := relocated_old hArea hApart hFresh
      refine ⟨hLen, ?_⟩
      simp only [length, contents]
      -- The new pages stay in use while the old ones are released.
      have hNew : read pool'.pageMem stream.buf old.len =
          read (pool₁.copy stream.buf old.buf old.len).pageMem stream.buf old.len := by
        have hInsideCopy : (pool₁.copy stream.buf old.buf old.len).Inside stream :=
          (hFresh.inside hRounds).area ⟨rfl, rfl⟩
        apply read_of_pages hInsideCopy (by omega)
        intro i hHolds
        have hReleased := Session.release_released hAreaCopy (hArea old rfl).len_lt hRelease
        refine hReleased.mem fun hTree => ?_
        exact hMoves.apart _ (held_some.mpr hHolds) hTree
      have hCopy : read (pool₁.copy stream.buf old.buf old.len).pageMem stream.buf old.len =
          read pool₁.pageMem old.buf old.len := by
        have hBack := read_write pool₁.pageMem stream.buf (read pool₁.pageMem old.buf old.len)
        rwa [read_length] at hBack
      rw [hNew, hCopy]
      exact read_of_pages (hInside old rfl) (le_refl _)
        fun i hHolds => hFresh.takes.mem i (hApart _ (held_some.mpr hHolds))

end Claim

end Streams

/-- A session together with the bytes that were appended to each stream and
not yet taken off it. -/
structure Ledger where
  session : Session
  pending : Nat → List UInt8

inductive Transfer where
  | append (ref : Nat) (data : List UInt8)
  | take (ref size : Nat)

namespace Ledger

variable {l l' : Ledger} {pool pool' : Streams} {r : Nat} {ref ref' : Option Stream}

def start (pool : Streams) : Ledger := ⟨Session.start pool, fun _ => []⟩

/-- The client writes the data to the end of the buffer. -/
def fill (pool : Streams) (data : List UInt8) : Option Stream → Streams
  | none => pool
  | some stream =>
      { pool with
        pageMem := write pool.pageMem (stream.buf + stream.len - data.length) (data.map some) }

/-- Append by a claim that is filled if it succeeds, or take by a release. -/
def step (l : Ledger) : Transfer → Except Panic Ledger
  | .append r data => do
      let (ret, pool, ref) ← l.session.pool.claim (l.session.refs r) data.length
      let refs := Function.update l.session.refs r ref
      if ret then
        return ⟨⟨fill pool data ref, refs⟩, Function.update l.pending r (l.pending r ++ data)⟩
      else return ⟨⟨pool, refs⟩, l.pending⟩
  | .take r size => do
      let (pool, ref) ← l.session.pool.release (l.session.refs r) size
      return ⟨⟨pool, Function.update l.session.refs r ref⟩,
        Function.update l.pending r ((l.pending r).drop size)⟩

/-- What the client keeps to. -/
def Promised (l : Ledger) : Transfer → Prop
  | .append _ data => data.length < 2 ^ 64
  | .take r size => l.session.Promised (.release r size)

/-- A transfer for which the buffer keeps its front: an append whose claim fits
and keeps the front. -/
def KeepsFront (l : Ledger) : Transfer → Prop
  | .append r data =>
      Session.ClaimFits l.session.pool data.length (l.session.refs r) ∧
        ∀ stream ∈ l.session.refs r, l.session.pool.KeepsFront data.length stream
  | .take _ _ => True

/-- Every stream holds its pending bytes. -/
def Holds (l : Ledger) : Prop :=
  ∀ r, l.session.pool.contents (l.session.refs r) = (l.pending r).map some

theorem fill_area (pool : Streams) (data : List UInt8) (ref : Option Stream) :
    Streams.SameArea pool (fill pool data ref) := by
  cases ref <;> exact ⟨rfl, rfl⟩

@[simp] theorem fill_pageTree (pool : Streams) (data : List UInt8) (ref : Option Stream) :
    (fill pool data ref).pageTree = pool.pageTree := by
  cases ref <;> rfl

/-- Filling moves no page. -/
theorem moves_fill (data : List UInt8) (h : Session.Moves pool ref pool' ref') :
    Session.Moves pool ref (fill pool' data ref') ref' := by
  have hArea := fill_area pool' data ref'
  refine ⟨h.area.trans hArea, ?_, ?_, h.from_held, ?_⟩
  · intro stream hStream
    obtain ⟨hNonneg, hLe, hLen⟩ := h.inArea stream hStream
    exact ⟨hNonneg, hArea.pageCount.symm ▸ hLe, hLen⟩
  · rw [fill_pageTree]
    exact h.from_free
  · rw [fill_pageTree]
    exact h.apart

/-- Filling writes to the pages of the stream only. -/
theorem frame_fill {data : List UInt8} (hMoves : Session.Moves pool ref pool' ref')
    (hInside : ∀ stream, ref' = some stream → pool'.Inside stream)
    (hLen : ∀ stream, ref' = some stream → data.length ≤ stream.len)
    (h : Streams.Frame pool ref pool') : Streams.Frame pool ref (fill pool' data ref') := by
  cases ref' with
  | none => exact h
  | some stream =>
      intro i hFree hHeld
      rw [← h i hFree hHeld]
      apply write_outside
      by_contra hIn
      have hFits := hLen stream rfl
      rw [List.length_map] at hIn
      have hHolds := Session.holds_pageOf (i := i) (hInside stream rfl) (by omega) (by omega)
      rw [hMoves.area.pageOf] at hHolds
      rcases hMoves.from_held _ (held_some.mpr hHolds) with hOld | hOld
      · exact hFree hOld
      · exact hHeld hOld

/-- A buffer whose end is filled holds its front and the data. -/
theorem contents_fill {data : List UInt8} {stream : Stream} {k : Nat}
    (hLen : stream.len = k + data.length) :
    (fill pool data (some stream)).contents (some stream) =
      read pool.pageMem stream.buf k ++ data.map some := by
  have hAt : stream.buf + stream.len - data.length = stream.buf + k := by omega
  simp only [fill, Streams.contents, hAt]
  rw [hLen, read_add, read_write_outside (by omega)]
  congr 1
  have hBack := read_write pool.pageMem (stream.buf + k) (data.map some)
  rwa [List.length_map] at hBack

/-- The other streams keep their contents. -/
theorem contents_of_frame {s : Session} {other : Nat} (hOwned : s.Owned) (hAll : s.AllInside)
    (hOther : other ≠ r) (h : Streams.Frame s.pool (s.refs r) pool') :
    pool'.contents (s.refs other) = s.pool.contents (s.refs other) := by
  cases hRef : s.refs other with
  | none => rfl
  | some stream =>
      refine Streams.read_of_pages (hAll other stream hRef) (le_refl _) fun i hHolds => ?_
      have hHeld : Held (s.refs other) (s.pool.pageOf i) := ⟨stream, hRef, hHolds⟩
      exact h i (hOwned.free_apart other _ hHeld) (hOwned.held_apart other r _ hOther hHeld)

/-- What a release leaves of a buffer that lies in its pages. -/
theorem remainder_exact {stream : Stream} {size : Nat} (hInside : pool.Inside stream)
    (hArea : stream.InArea pool) (hLe : size ≤ stream.len) :
    pool.remainder stream size =
      if stream.len - size = 0 then none
      else
        some
          { stream with
            pageCount := stream.pageCount - pool.given stream size
            pageNo := stream.pageNo + pool.given stream size
            len := stream.len - size
            buf := stream.buf + size } := by
  have hEnd := hInside.end_lt hArea
  have hLt := hArea.len_lt
  have hLen : (stream.len + 2 ^ 64 - size) % 2 ^ 64 = stream.len - size := by omega
  have hBuf : (stream.buf + size) % 2 ^ 64 = stream.buf + size := by omega
  simp only [Streams.remainder, hLen, hBuf]

/-- A release drops bytes from the front of the contents. -/
theorem released_contents {size : Nat} (hArea : ∀ stream, ref = some stream → stream.InArea pool)
    (hInside : ∀ stream, ref = some stream → pool.Inside stream)
    (hMost : ∀ stream ∈ ref, size ≤ stream.len) (hMoves : Session.Moves pool ref pool' ref')
    (h : Streams.Released pool size ref pool' ref') :
    pool'.contents ref' = (pool.contents ref).drop size := by
  cases h with
  | nothing ref hNothing =>
      rcases hNothing with rfl | rfl
      · rfl
      · simp [Streams.contents]
  | @front stream pool' hSize hGives =>
      have hLe := hMost stream rfl
      have hExact := remainder_exact (hInside stream rfl) (hArea stream rfl) hLe
      rw [show pool.contents (some stream) = read pool.pageMem stream.buf stream.len from rfl,
        read_drop]
      cases hRest : pool.remainder stream size with
      | none =>
          rw [hExact] at hRest
          split_ifs at hRest with hZero
          rw [hZero, read_zero]
          rfl
      | some rest =>
          have hRestInside := (hInside stream rfl).remainder (hArea stream rfl) hLe hRest
          have hKept : pool'.contents (some rest) = pool.contents (some rest) := by
            refine Streams.read_of_pages hRestInside (le_refl _) fun i hHolds => hGives.mem i ?_
            exact hMoves.apart _ (hRest ▸ held_some.mpr hHolds)
          rw [hExact] at hRest
          split_ifs at hRest
          cases hRest
          exact hKept

/-- Only the empty claim succeeds without a stream. -/
theorem claimed_null {size : Nat} (h : Streams.Claimed pool size ref true pool' none) :
    size = 0 ∧ pool' = pool ∧ ref = none := by
  cases h with
  | nothing _ hZero => exact ⟨hZero, rfl, rfl⟩

/-- What is true of a ledger in a run that keeps fronts. -/
structure Kept (l : Ledger) : Prop where
  owned : l.session.Owned
  inside : l.session.AllInside
  holds : l.Holds

theorem Kept.update {data : List UInt8} (h : Kept l)
    (hMoves : Session.Moves l.session.pool (l.session.refs r) pool' ref')
    (hInside : ∀ stream, ref' = some stream → pool'.Inside stream)
    (hFrame : Streams.Frame l.session.pool (l.session.refs r) pool')
    (hRef : pool'.contents ref' = data.map some) :
    Kept ⟨⟨pool', Function.update l.session.refs r ref'⟩, Function.update l.pending r data⟩ where
  owned := h.owned.move hMoves
  inside := h.inside.update hMoves.area hInside
  holds := by
    intro other
    by_cases hSame : other = r
    · subst hSame
      simpa only [Function.update_self] using hRef
    · simp only [Function.update_of_ne hSame]
      rw [contents_of_frame h.owned h.inside hSame hFrame]
      exact h.holds other

theorem kept_append {data : List UInt8} (h : Kept l) (hPromised : l.Promised (.append r data))
    (hKeeps : l.KeepsFront (.append r data)) (hStep : l.step (.append r data) = .ok l') :
    Kept l' := by
  obtain ⟨⟨ret, pool', ref'⟩, hClaim, hEnd⟩ := bind_eq_ok hStep
  obtain ⟨hFits, hFront⟩ := hKeeps
  have hClaimed := Streams.claim_claimed hClaim
  have hArea := h.owned.inArea r
  have hApart := h.owned.free_apart r
  have hMoves := Session.claimed_moves h.owned.free_lt hArea hApart hClaimed
  have hInside := Session.claimed_inside (h.inside r) hFits hClaimed hMoves
  have hFrame := Streams.claimed_frame hArea hApart hFits hFront hClaimed
  cases ret with
  | false =>
      obtain ⟨rfl, rfl⟩ := hClaimed.eq_of_refused
      cases hEnd
      have hSame := h.update hMoves hInside hFrame (h.holds r)
      simpa only [Function.update_eq_self] using hSame
  | true =>
      cases hEnd
      cases ref' with
      | none =>
          obtain ⟨hZero, rfl, hNull⟩ := claimed_null hClaimed
          have hSame := h.update hMoves hInside hFrame
            (show Streams.contents _ none = (l.pending r ++ data).map some by
              rw [List.eq_nil_of_length_eq_zero hZero, List.append_nil, ← h.holds r, hNull])
          exact hSame
      | some stream =>
          obtain ⟨hLen, hRead⟩ := Streams.claimed_front hArea hApart hFits hFront hPromised
            (h.inside r) hMoves hClaimed
          have hFill : ∀ other, some stream = some other → data.length ≤ other.len := by
            intro other hOther
            cases hOther
            omega
          refine h.update (moves_fill data hMoves) ?_ (frame_fill hMoves hInside hFill hFrame) ?_
          · exact fun other hOther => (hInside other hOther).area (fill_area _ _ _)
          · rw [contents_fill hLen, hRead, h.holds r, List.map_append]

theorem kept_take {size : Nat} (h : Kept l) (hPromised : l.Promised (.take r size))
    (hStep : l.step (.take r size) = .ok l') : Kept l' := by
  obtain ⟨⟨pool', ref'⟩, hRelease, hEnd⟩ := bind_eq_ok hStep
  cases hEnd
  have hArea := h.owned.inArea r
  have hApart := h.owned.free_apart r
  have hReleased := Session.release_released hArea hPromised.1 hRelease
  have hMoves := Session.released_moves hArea hApart hReleased
  refine h.update hMoves ?_ (hReleased.frame hArea hApart) ?_
  · exact Session.released_inside hArea (h.inside r) hPromised.2 hReleased
  · rw [released_contents hArea (h.inside r) hPromised.2 hMoves hReleased, h.holds r, List.map_drop]

/-- In every run whose appends keep the front of their buffer, the contents of
every stream are the bytes appended to it without those taken off it, whichever
case served the claims. -/
theorem contents_of_fronts_kept {pageCount pageSize : Nat} {granted : Bool} {pool : Streams}
    (hInit : Streams.init pageCount pageSize granted = .ok (some pool))
    (hRun : Reached step (fun l transfer => l.Promised transfer ∧ l.KeepsFront transfer)
      (start pool) l) :
    ∀ r, l.session.pool.contents (l.session.refs r) = (l.pending r).map some := by
  have hKept : Kept l := by
    refine hRun.invariant Kept ⟨Session.owned_start hInit, ?_, fun r => rfl⟩ ?_
    · exact fun r stream hRef => by cases hRef
    · rintro l transfer l' hKept ⟨hPromised, hKeeps⟩ hStep
      cases transfer with
      | append r data => exact kept_append hKept hPromised hKeeps hStep
      | take r size => exact kept_take hKept hPromised hStep
  exact hKept.holds

instance (l : Ledger) : (transfer : Transfer) → Decidable (l.Promised transfer)
  | .append _ _ => inferInstanceAs (Decidable (_ < _))
  | .take r size => inferInstanceAs (Decidable (l.session.Promised (.release r size)))

instance (pool : Streams) (size : Nat) (stream : Stream) :
    Decidable (pool.KeepsFront size stream) :=
  inferInstanceAs (Decidable (_ ∨ (_ ∧ (_ ∨ _ ∨ _))))

instance (l : Ledger) : (transfer : Transfer) → Decidable (l.KeepsFront transfer)
  | .append _ _ => inferInstanceAs (Decidable (_ ∧ ∀ _ ∈ _, Streams.KeepsFront _ _ _))
  | .take _ _ => .isTrue trivial

/-- Three bytes in, one byte out, on a pool of two pages. -/
theorem shortStream_contents : ∃ pool l, Streams.init 2 56 true = .ok (some pool) ∧
    Reached step (fun l transfer => l.Promised transfer ∧ l.KeepsFront transfer) (start pool) l ∧
    l.pending 0 = [2, 3] ∧
    l.session.pool.contents (l.session.refs 0) = ([2, 3] : List UInt8).map some := by
  have hTrial : (trial (Streams.init 2 56 true) start step
      (fun l transfer => l.Promised transfer ∧ l.KeepsFront transfer)
      [.append 0 [1, 2, 3], .take 0 1]).map (fun l => l.pending 0) = some [2, 3] := by decide
  obtain ⟨pool, l, hInit, hRun, hPending⟩ := reached_of_trial hTrial
  refine ⟨pool, l, hInit, hRun, hPending, ?_⟩
  rw [contents_of_fronts_kept hInit hRun 0, hPending]

/-- A page of bytes that count from zero. -/
def countingPage : List UInt8 := (List.range 56).map UInt8.ofNat

/-- A page is appended, eight bytes are taken and another page is appended: the
second claim grows the stream in place, and its buffer starts with the first
byte taken. -/
theorem grownStream_repeats_taken_bytes : ∃ pool l, Streams.init 2 56 true = .ok (some pool) ∧
    Reached step Promised (start pool) l ∧
    (l.session.pool.contents (l.session.refs 0)).head? = some (some 0) ∧
    (l.pending 0).head? = some 8 ∧ ¬l.Holds := by
  have hTrial : (trial (Streams.init 2 56 true) start step Promised
      [.append 0 countingPage, .take 0 8, .append 0 countingPage]).map
        (fun l => ((l.session.pool.contents (l.session.refs 0)).head?, (l.pending 0).head?)) =
          some (some (some 0), some 8) := by decide
  obtain ⟨pool, l, hInit, hRun, hView⟩ := reached_of_trial hTrial
  obtain ⟨hFirst, hPending⟩ := Prod.mk.inj hView
  refine ⟨pool, l, hInit, hRun, hFirst, hPending, fun hHolds => ?_⟩
  rw [hHolds 0, List.head?_map, hPending] at hFirst
  exact absurd hFirst (by decide)

end Ledger

end Peak
