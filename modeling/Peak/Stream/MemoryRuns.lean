import Peak.Stream.Refusals
import Peak.Stream.Simulation

/-! Clients of a stream pool in memory. As long as every stream writes to its own
pages only, the pool is what the list of its free pages says, so pages have one
owner and refused claims are refused with reason. A buffer that runs over the end
of its page may break both: what lies there is the header of a free page. -/
namespace Peak

open Cells Run Streams

namespace Streams

variable {m : Memory} {pages : Tree} {pool : Streams}

/-- Pages that are not free can all be given back. -/
theorem releasePages_ok (pool : Streams) (first count : Nat)
    (hUsed : ∀ j < count, first + j ∉ pool.pageTree.pages) :
    ∃ pool', (List.range' first count).foldlM releasePage pool = .ok pool' := by
  induction count generalizing pool first with
  | zero => exact ⟨pool, rfl⟩
  | succ count ih =>
      obtain ⟨next, hFirst⟩ := releasePage_ok (hUsed 0 (by omega))
      obtain ⟨pool', hRest⟩ := ih next (first + 1) fun j hj hFree => by
        rcases ((releasePage_gives hFirst).1.tree _).mp hFree with hOld | hNew
        · exact hUsed (j + 1) (by omega) (by rwa [show first + (j + 1) = first + 1 + j by omega])
        · omega
      refine ⟨pool', ?_⟩
      rw [List.range'_succ, List.foldlM_cons, show first = first + 0 from rfl, hFirst]
      exact hRest

namespace Memory

/-- The free pages of a pool in memory, as a list in index order. -/
def freeTree (self : Memory) : Tree :=
  if hSorted : self.pages.Pairwise (· < ·) then ⟨self.pages, hSorted⟩ else Tree.empty

/-- The pool as the list of its free pages shows it. -/
def shown (self : Memory) : Streams := self.listing self.freeTree

theorem Shows.freeTree_eq (h : Shows m pages) : m.freeTree = pages := by
  have hPages := h.pages_eq
  rw [freeTree, dif_pos (hPages ▸ pages.sorted)]
  cases pages
  simp only [hPages]

theorem Refines.shown_eq (h : Refines m pool) : m.shown = pool := by
  obtain ⟨pages, rfl, hShows⟩ := h
  rw [shown, hShows.freeTree_eq]

/-- The pages of a new pool go to the tree in memory as they go to the list. -/
theorem Shows.releasePages_eq {first count : Nat} {pool' : Streams} (h : Shows m pages)
    (hLe : first + count ≤ m.pageCount)
    (hOk : (List.range' first count).foldlM Streams.releasePage (m.listing pages) = .ok pool') :
    ∃ m', (List.range' first count).foldlM releasePage m = .ok m' ∧ Refines m' pool' := by
  induction count generalizing m pages first with
  | zero =>
      cases hOk
      exact ⟨m, rfl, h.refines⟩
  | succ count ih =>
      rw [List.range'_succ, List.foldlM_cons] at hOk ⊢
      obtain ⟨next, hFirst, hRest⟩ := bind_eq_ok hOk
      obtain ⟨m₁, pages₁, hRun, rfl, hShows⟩ := h.releasePage_eq (by omega) hFirst
      have hCount : m₁.pageCount = m.pageCount := (releasePage_gives hFirst).1.area.pageCount
      rw [hRun]
      exact ih hShows (by omega) hRest

/-- A new pool in memory is a new pool of lists. -/
theorem init_refines {pageCount pageSize : Nat} {granted : Bool}
    (hInit : Memory.init pageCount pageSize granted = .ok (some m)) (hFew : pageCount < 2 ^ 31) :
    ∃ pool, Streams.init pageCount pageSize granted = .ok (some pool) ∧ Refines m pool := by
  simp only [Memory.init] at hInit
  split_ifs at hInit with hGood
  swap
  · cases hInit
  obtain ⟨made, hMade, hEnd⟩ := bind_eq_ok hInit
  cases hEnd
  have hEmpty : Shows
      { tree := ⟨fun _ => ⟨none, none, none, .black, 0⟩, none⟩
        references := List.range pageCount
        pageCount := pageCount
        pageSize := pageSize
        pageMem := fun _ => none
        nonempty := hGood.1.1
        aligned := hGood.1.2.1
        large := hGood.1.2.2.1
        fits := hGood.1.2.2.2 } Tree.empty := by
    refine ⟨hFew, ?_, ⟨.leaf, ⟨rfl, trivial, List.nodup_nil⟩, ⟨0, .leaf⟩, rfl, rfl⟩, ?_⟩
    · rintro no ⟨⟩
    · rintro no ⟨⟩
  obtain ⟨pool, hOk⟩ := releasePages_ok (listing _ Tree.empty) 0 pageCount
    fun j _ hFree => by cases hFree
  obtain ⟨m', hRun, hRefines⟩ := hEmpty.releasePages_eq (Nat.le_of_eq (Nat.zero_add _)) hOk
  have hSame : m = m' := Except.ok.inj (hMade.symm.trans
    ((congrArg (List.foldlM releasePage _) List.range_eq_range').trans hRun))
  subst hSame
  refine ⟨pool, ?_, hRefines⟩
  obtain ⟨⟨hNonempty, hAligned, hLarge, hFits⟩, hGranted⟩ := hGood
  rw [Streams.init, dif_pos ⟨hNonempty, hAligned, hLarge, hFits, hGranted⟩]
  refine (congrArg (· >>= _) ((congrArg (List.foldlM Streams.releasePage _) List.range_eq_range').trans
    hOk)).trans rfl

end Memory

end Streams

/-- A pool in memory and the `struct peak_stream *` variables of its clients. -/
structure MemorySession where
  pool : Memory
  refs : Nat → Option Stream

namespace MemorySession

variable {s s' : MemorySession} {m m' : Memory} {pool : Streams} {pageCount pageSize : Nat} {granted : Bool}

def start (pool : Memory) : MemorySession := ⟨pool, fun _ => none⟩

/-- A call of a client, or a write into the buffer it was handed. -/
def step (s : MemorySession) : Call → Except Stop MemorySession
  | .claim ref size => do
      let (_, pool, stream) ← s.pool.claim (s.refs ref) size
      return ⟨pool, Function.update s.refs ref stream⟩
  | .write ref off bytes =>
      match s.refs ref with
      | none => .error (.panic .nullReference)
      | some stream => .ok { s with pool := s.pool.store (stream.buf + off) (bytes.map some) }
  | .release ref size => do
      let (pool, stream) ← s.pool.release (s.refs ref) size
      return ⟨pool, Function.update s.refs ref stream⟩

/-- The session as the list of free pages shows it. -/
def shown (s : MemorySession) : Session := ⟨s.pool.shown, s.refs⟩

/-- What clients keep to. -/
def Promised (s : MemorySession) (call : Call) : Prop := s.shown.Promised call

/-- Nothing is written outside of the pages of the stream that it belongs to. -/
def KeepsOff (s : MemorySession) (call : Call) : Prop := s.shown.KeepsOff call

instance (s : MemorySession) (call : Call) : Decidable (s.Promised call) :=
  inferInstanceAs (Decidable (s.shown.Promised call))

instance (s : MemorySession) (call : Call) : Decidable (s.KeepsOff call) :=
  inferInstanceAs (Decidable (s.shown.KeepsOff call))

/-- A session in memory that its list of free pages describes, with no page
owned twice. -/
structure Sound (s : MemorySession) : Prop where
  refines : s.pool.Refines s.pool.shown
  owned : s.shown.Owned

theorem Sound.listed (h : Sound s) : ∃ pages, s.shown.pool = s.pool.listing pages ∧ s.pool.Shows pages ∧
    (∀ r stream, s.refs r = some stream → stream.InArea (s.pool.listing pages)) ∧
    ∀ r i, Held (s.refs r) i → i ∉ pages.pages := by
  obtain ⟨⟨pages, hPool, hShows⟩, hOwned⟩ := h
  have hList : s.shown.pool = s.pool.listing pages := hPool
  refine ⟨pages, hList, hShows, ?_, fun r i hHeld hFree => hOwned.free_apart r i hHeld ?_⟩
  · rw [← hList]
    exact hOwned.inArea
  · rw [hList]
    exact hFree

theorem Sound.claim_alike {r size : Nat} (h : Sound s) (hKeeps : s.KeepsOff (.claim r size)) :
    Alike Stop.panic s.pool.Answers (s.pool.claim (s.refs r) size)
      (s.shown.pool.claim (s.refs r) size) := by
  obtain ⟨pages, hList, hShows, hArea, hApart⟩ := h.listed
  have hCopies : ∀ stream, s.refs r = some stream → s.shown.pool.Copies stream size := hKeeps
  rw [hList] at hCopies ⊢
  exact hShows.claim_alike (hArea r) (hApart r) hCopies

theorem Sound.release_alike (h : Sound s) (r size : Nat) :
    Alike Stop.panic (fun a b => a.1.Refines b.1 ∧ a.2 = b.2) (s.pool.release (s.refs r) size)
      (s.shown.pool.release (s.refs r) size) := by
  obtain ⟨pages, hList, hShows, hArea, hApart⟩ := h.listed
  rw [hList]
  exact hShows.release_alike _ _ (hArea r) (hApart r)

/-- A call in memory does what the call on lists does. -/
theorem step_alike {call : Call} (h : Sound s) (hKeeps : s.KeepsOff call) :
    Alike Stop.panic (fun s s' => s.pool.Refines s'.pool ∧ s.refs = s'.refs) (s.step call)
      (s.shown.step call) := by
  cases call with
  | claim r size =>
      apply (h.claim_alike hKeeps).bind
      rintro _ _ hAnswers -
      cases hAnswers with
      | served hRefines => exact .ok ⟨hRefines, rfl⟩
      | refused hRefines => exact .ok ⟨hRefines, rfl⟩
  | release r size =>
      apply (h.release_alike r size).bind
      rintro ⟨m', ref⟩ ⟨pool', ref'⟩ ⟨hRefines, hRef⟩ -
      exact .ok ⟨hRefines, congrArg (Function.update s.refs r) hRef⟩
  | write r off bytes =>
      obtain ⟨pages, hList, hShows, -, hApart⟩ := h.listed
      simp only [step, Session.step]
      rw [show s.shown.refs r = s.refs r from rfl]
      cases hRef : s.refs r with
      | none => exact .error Panic.nullReference
      | some stream =>
          refine .ok ⟨⟨pages, ?_, hShows.store ?_⟩, rfl⟩
          · rw [hList]
            rfl
          · intro i hLow hHigh
            rw [List.length_map] at hHigh
            have hHolds := hKeeps stream hRef (i - (stream.buf + off)) (by omega)
            rw [hList, show stream.buf + off + (i - (stream.buf + off)) = i by omega] at hHolds
            exact hApart r _ ⟨stream, hRef, hHolds⟩

/-- What a call does in memory is what it does on lists. -/
theorem shown_step {call : Call} (h : Sound s) (hKeeps : s.KeepsOff call) (hStep : s.step call = .ok s') :
    s.shown.step call = .ok s'.shown ∧ s'.pool.Refines s'.pool.shown := by
  obtain ⟨t, hList, hRefines, hRefs⟩ := (step_alike h hKeeps).of_eq_ok hStep
  have hShown : s'.shown = t := by
    rw [shown, hRefines.shown_eq, hRefs]
  exact ⟨hShown.symm ▸ hList, hRefines.shown_eq.symm ▸ hRefines⟩

theorem sound_start (hInit : Memory.init pageCount pageSize granted = .ok (some m))
    (hFew : pageCount < 2 ^ 31) : Sound (start m) ∧ m.pageCount = pageCount := by
  obtain ⟨pool, hList, hRefines⟩ := Memory.init_refines hInit hFew
  have hShown : m.shown = pool := hRefines.shown_eq
  refine ⟨⟨hShown.symm ▸ hRefines, ?_⟩, ?_⟩
  · show (Session.mk m.shown fun _ => none).Owned
    rw [hShown]
    exact Session.owned_start hList
  · rw [← (Streams.init_spec hList).1, ← hShown]
    rfl

theorem sound_step {call : Call} (h : Sound s) (hPromised : s.Promised call) (hKeeps : s.KeepsOff call)
    (hStep : s.step call = .ok s') : Sound s' ∧ s'.pool.pageCount = s.pool.pageCount := by
  obtain ⟨hList, hRefines⟩ := shown_step h hKeeps hStep
  exact ⟨⟨hRefines, Session.owned_step h.owned hPromised hList⟩,
    (Session.step_moves h.owned hPromised hList).1.area.pageCount⟩

/-- In a run that keeps off foreign pages the list of free pages describes the
pool in every state reached. -/
theorem sound_of_keepsOff (hInit : Memory.init pageCount pageSize granted = .ok (some m))
    (hFew : pageCount < 2 ^ 31)
    (hRun : Reached step (fun s call => s.Promised call ∧ s.KeepsOff call) (start m) s) :
    Sound s ∧ s.pool.pageCount = pageCount := by
  apply hRun.invariant (fun s => Sound s ∧ s.pool.pageCount = pageCount) (sound_start hInit hFew)
  rintro s call s' ⟨hSound, hCount⟩ ⟨hPromised, hKeeps⟩ hStep
  obtain ⟨hNext, hSame⟩ := sound_step hSound hPromised hKeeps hStep
  exact ⟨hNext, hSame.trans hCount⟩

/-- Such a run is one on lists. -/
theorem reached_shown {admitted : Session → Call → Prop}
    (hInit : Memory.init pageCount pageSize granted = .ok (some m)) (hFew : pageCount < 2 ^ 31)
    (hRun : Reached step (fun s call => s.Promised call ∧ s.KeepsOff call ∧ admitted s.shown call) (start m) s) :
    ∃ pool, Streams.init pageCount pageSize granted = .ok (some pool) ∧
      Reached Session.step (fun t call => t.Promised call ∧ admitted t call) (Session.start pool) s.shown := by
  obtain ⟨pool, hList, hRefines⟩ := Memory.init_refines hInit hFew
  refine ⟨pool, hList, ?_⟩
  induction hRun with
  | start =>
      rw [shown, show (start m).pool.shown = pool from hRefines.shown_eq]
      exact .start
  | step hBefore hAdmitted hStep ih =>
      obtain ⟨hPromised, hKeeps, hMore⟩ := hAdmitted
      have hSound := (sound_of_keepsOff hInit hFew (hBefore.mono fun _ _ h => ⟨h.1, h.2.1⟩)).1
      exact .step ih ⟨hPromised, hMore⟩ (shown_step hSound hKeeps hStep).1

theorem Sound.pages_eq (h : Sound s) : s.shown.pool.pageTree.pages = s.pool.pages := by
  obtain ⟨pages, hPool, hShows⟩ := h.refines
  rw [show s.shown.pool = s.pool.listing pages from hPool, hShows.pages_eq]
  rfl

/-- However streams of a pool are claimed and released, as long as they write to
their own pages only no page has two owners, all of them are pages of the pool,
and no call that does so puts a page into the tree twice or reads what is not
known. -/
theorem owners_apart (hInit : Memory.init pageCount pageSize granted = .ok (some m))
    (hFew : pageCount < 2 ^ 31)
    (hRun : Reached step (fun s call => s.Promised call ∧ s.KeepsOff call) (start m) s) :
    (∀ r r' stream stream', r ≠ r' → s.refs r = some stream → s.refs r' = some stream' →
      ∀ i, stream.Holds i → ¬stream'.Holds i) ∧
    (∀ r stream, s.refs r = some stream → 0 ≤ stream.pageCount ∧
      ∀ i, stream.Holds i → i < pageCount ∧ i ∉ s.pool.pages) ∧
    (∀ i ∈ s.pool.pages, i < pageCount) ∧
    ∀ call, s.Promised call → s.KeepsOff call →
      s.step call ≠ .error (.panic .duplicatedPage) ∧ s.step call ≠ .error .undefined := by
  obtain ⟨hSound, hCount⟩ := sound_of_keepsOff hInit hFew hRun
  have hOwned := hSound.owned
  refine ⟨?_, ?_, ?_, ?_⟩
  · intro r r' stream stream' hNe hRef hRef' i hHolds hHolds'
    exact hOwned.held_apart r r' i hNe ⟨stream, hRef, hHolds⟩ ⟨stream', hRef', hHolds'⟩
  · intro r stream hRef
    obtain ⟨hNonneg, hLe, -⟩ := hOwned.inArea r stream hRef
    have hLe : (stream.pageNo + stream.pageCount : Int) ≤ s.pool.pageCount := hLe
    refine ⟨hNonneg, fun i hHolds => ⟨?_, ?_⟩⟩
    · have hHigh := hHolds.2
      omega
    · rw [← hSound.pages_eq]
      exact hOwned.free_apart r i ⟨stream, hRef, hHolds⟩
  · intro i hFree
    rw [← hSound.pages_eq] at hFree
    exact hCount ▸ hOwned.free_lt i hFree
  · intro call _ hKeeps
    have hAlike := step_alike hSound hKeeps
    constructor
    · intro hStep
      obtain ⟨e, hList, hSame⟩ := hAlike.of_eq_error hStep
      cases hSame
      rcases Session.step_error hOwned hList with (hNull | hTrashed | ⟨hNone, -⟩) | hNull
      · cases hNull
      · cases hTrashed
      · cases hNone
      · cases hNull
    · intro hStep
      obtain ⟨e, -, hSame⟩ := hAlike.of_eq_error hStep
      cases hSame

/-- Two streams on a pool of five pages: the first writes, gives a page back and
is moved behind the second one when it grows. -/
theorem owners_apart_five : ∃ m s, Memory.init 5 56 true = .ok (some m) ∧
    Reached step (fun s call => s.Promised call ∧ s.KeepsOff call) (start m) s ∧
    s.refs 0 = some ⟨2, 2, 3, 112, 168⟩ ∧ s.refs 1 = some ⟨1, 1, 2, 56, 112⟩ ∧
    (∀ i, Stream.Holds ⟨2, 2, 3, 112, 168⟩ i → i < 5 ∧ i ∉ s.pool.pages) ∧
    ∀ call, s.Promised call → s.KeepsOff call → s.step call ≠ .error (.panic .duplicatedPage) := by
  have hTrial : (trial (Memory.init 5 56 true) start step
      (fun s call => s.Promised call ∧ s.KeepsOff call)
      [.claim 0 112, .claim 1 56, .write 0 100 [1, 2], .release 0 56, .claim 0 56]).map
        (fun s => (s.refs 0, s.refs 1)) = some (some ⟨2, 2, 3, 112, 168⟩, some ⟨1, 1, 2, 56, 112⟩) := by
    decide +kernel
  obtain ⟨m, s, hInit, hRun, hView⟩ := reached_of_trial hTrial
  obtain ⟨hFirst, hSecond⟩ := Prod.mk.inj hView
  obtain ⟨-, hHeld, -, hNone⟩ := owners_apart hInit (by decide) hRun
  exact ⟨m, s, hInit, hRun, hFirst, hSecond, (hHeld 0 _ hFirst).2,
    fun call hPromised hKeeps => (hNone call hPromised hKeeps).1⟩

/-- A stream that has outgrown its page writes the magic and the index 0 to the
header of the free page behind it. The next claim takes that page and deals out
page 0, and the second of the two owners to release it is stopped. -/
theorem owners_meet : ∃ m s, Memory.init 2 56 true = .ok (some m) ∧
    Reached step Promised (start m) s ∧ s.refs 0 = some ⟨0, 1, 0, 56, 28⟩ ∧
    s.refs 1 = some ⟨1, 1, 0, 56, 0⟩ ∧ s.Promised (.release 0 56) ∧
    (do (← s.step (.release 0 56)).step (.release 1 56)) = .error (.panic .duplicatedPage) := by
  have hTrial : (trial (Memory.init 2 56 true) start step Promised
      [.claim 0 56, .release 0 28, .claim 0 28,
        .write 0 28 [0x08, 0xFA, 0x07, 0xCD, 0x06, 0xBA, 0x05, 0xEF, 0, 0, 0, 0, 0, 0, 0, 0],
        .claim 1 56]).map
        (fun s => (s.refs 0, s.refs 1, decide (s.Promised (.release 0 56)),
          failure (do (← s.step (.release 0 56)).step (.release 1 56)))) =
      some (some ⟨0, 1, 0, 56, 28⟩, some ⟨1, 1, 0, 56, 0⟩, true, some (.panic .duplicatedPage)) := by
    decide +kernel
  obtain ⟨m, s, hInit, hRun, hView⟩ := reached_of_trial hTrial
  simp only [Prod.mk.injEq, decide_eq_true_eq] at hView
  obtain ⟨hFirst, hSecond, hPromised, hStop⟩ := hView
  exact ⟨m, s, hInit, hRun, hFirst, hSecond, hPromised, eq_error_of_failure hStop⟩

/-- As long as streams write to their own pages only, a claim that returns 0
leaves the pool, its memory and the stream as they were, and for a live stream
neither the pages behind it nor any free pages in a row could have held the
bytes. -/
theorem claim_returns_zero (hInit : Memory.init pageCount pageSize granted = .ok (some m))
    (hFew : pageCount < 2 ^ 31)
    (hRun : Reached step (fun s call => s.Promised call ∧ s.KeepsOff call) (start m) s)
    (r size : Nat) (m' : Memory) (ref' : Option Stream)
    (hClaim : s.pool.claim (s.refs r) size = .ok (false, m', ref')) :
    m' = s.pool ∧ ref' = s.refs r ∧ ∀ stream, s.refs r = some stream →
      ¬s.pool.shown.FreeFrom (stream.pageNo + stream.pageCount)
        (s.pool.shown.pagesHolding (stream.len + size) - stream.pageCount).toNat ∧
      ∀ first : Nat, ¬s.pool.shown.FreeFrom first (s.pool.shown.pagesHolding (stream.len + size)) := by
  obtain ⟨hSound, -⟩ := sound_of_keepsOff hInit hFew hRun
  obtain ⟨pages, hPool, hShows⟩ := hSound.refines
  have hArea : ∀ stream, s.refs r = some stream → stream.InArea (s.pool.listing pages) := by
    rw [← hPool]
    exact hSound.owned.inArea r
  obtain ⟨hSame, pool', hRefused⟩ := hShows.claim_refused_alike hArea hClaim
  rw [← hPool] at hRefused
  obtain ⟨-, hRef, hNone⟩ := Streams.refused_unchanged hRefused
  exact ⟨hSame, hRef, hNone⟩

/-- A stream has released and written, and is refused a second page where another
stream has the only one behind it. -/
theorem claim_returns_zero_two : ∃ m s, Memory.init 2 56 true = .ok (some m) ∧
    Reached step (fun s call => s.Promised call ∧ s.KeepsOff call) (start m) s ∧
    ∃ stream m' ref', s.refs 0 = some stream ∧
      s.pool.claim (s.refs 0) 57 = .ok (false, m', ref') ∧ m' = s.pool ∧
      ∀ first : Nat, ¬s.pool.shown.FreeFrom first (s.pool.shown.pagesHolding (stream.len + 57)) := by
  have hTrial : (trial (Memory.init 2 56 true) start step
      (fun s call => s.Promised call ∧ s.KeepsOff call)
      [.claim 0 56, .claim 1 8, .write 0 50 [1, 2], .release 0 28]).map
        (fun s => (s.refs 0, (s.pool.claim (s.refs 0) 57).map fun r => r.1)) =
          some (some ⟨0, 1, 0, 28, 28⟩, .ok false) := by decide +kernel
  obtain ⟨m, s, hInit, hRun, hView⟩ := reached_of_trial hTrial
  obtain ⟨hRef, hClaim⟩ := Prod.mk.inj hView
  cases hResult : s.pool.claim (s.refs 0) 57 with
  | error e =>
      rw [hResult] at hClaim
      cases hClaim
  | ok result =>
      obtain ⟨ret, m', ref'⟩ := result
      rw [hResult] at hClaim
      cases hClaim
      obtain ⟨hSame, -, hNone⟩ := claim_returns_zero hInit (by decide) hRun 0 57 m' ref' hResult
      exact ⟨m, s, hInit, hRun, _, m', ref', hRef, hResult, hSame, (hNone _ hRef).2⟩

/-- A stream that has outgrown its page writes the magic and the index 7 to the
header of the free page behind it: it is refused one more page although both
other pages are free. -/
theorem claim_misses_page : ∃ m s, Memory.init 3 56 true = .ok (some m) ∧
    Reached step Promised (start m) s ∧ s.refs 0 = some ⟨0, 1, 0, 56, 28⟩ ∧ s.pool.pages = [1, 2] ∧
    s.pool.area.lacking ⟨0, 1, 0, 56, 28⟩ 56 = 1 ∧ s.Promised (.claim 0 56) ∧
    (s.pool.claim (s.refs 0) 56).map (fun r => r.1) = .ok false := by
  have hTrial : (trial (Memory.init 3 56 true) start step Promised
      [.claim 0 56, .release 0 28, .claim 0 28,
        .write 0 28 [0x08, 0xFA, 0x07, 0xCD, 0x06, 0xBA, 0x05, 0xEF, 7, 0, 0, 0, 0, 0, 0, 0]]).map
        (fun s => (s.refs 0, s.pool.pages, s.pool.area.lacking ⟨0, 1, 0, 56, 28⟩ 56,
          decide (s.Promised (.claim 0 56)), (s.pool.claim (s.refs 0) 56).map fun r => r.1)) =
      some (some ⟨0, 1, 0, 56, 28⟩, [1, 2], 1, true, .ok false) := by
    decide +kernel
  obtain ⟨m, s, hInit, hRun, hView⟩ := reached_of_trial hTrial
  simp only [Prod.mk.injEq, decide_eq_true_eq] at hView
  obtain ⟨hRef, hPages, hLacking, hPromised, hZero⟩ := hView
  exact ⟨m, s, hInit, hRun, hRef, hPages, hLacking, hPromised, hZero⟩

end MemorySession

end Peak
