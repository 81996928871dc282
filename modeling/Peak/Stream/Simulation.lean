import Peak.Stream.Refinement

/-! The calls on the pool in memory, one after another as they are built: each
returns what the call on the pool of lists returns, or stops with the same
panic, and leaves a pool that shows the same free pages. -/
namespace Peak.Streams

open Cells Run

/-- The probe counts no more pages than there are. -/
theorem probeFrom_bounds (base : Nat) (stop : Int) (pages : List Nat) (count : Nat) :
    count ≤ probeFrom base stop count pages ∧
      probeFrom base stop count pages ≤ count + pages.length := by
  obtain ⟨c, hProbe, -, hLen⟩ := probeFrom_run base stop pages count
  omega

/-- Something is counted, unless nothing was asked for. -/
theorem probe_pos {stop : Int} (hStop : stop ≠ 0) (no : Nat) (rest : List Nat) :
    0 < probe stop (no :: rest) := by
  rw [probe, probeFrom, if_neg (by omega), if_neg (by omega)]
  exact (probeFrom_bounds no stop rest 1).1

/-- To move past pages is to drop them. -/
theorem search_skip (n : Int) (skip : Nat) (pages : List Nat) :
    search n skip pages = search n 0 (pages.drop skip) := by
  induction pages generalizing skip with
  | nil => cases skip <;> rfl
  | cons no rest ih =>
      cases skip with
      | zero => rfl
      | succ skip => exact ih skip

namespace Memory

variable {m : Memory} {pages : Tree} {stream : Stream} {size : Nat}

/-- The pool in memory is as the pool of lists says. -/
def Refines (m : Memory) (pool : Streams) : Prop := ∃ pages, pool = m.listing pages ∧ Shows m pages

namespace Shows

variable (h : Shows m pages) {rest : List Nat}

include h

theorem indexOf_eq {no : Nat} (hNo : no ∈ pages.pages) : m.indexOf no = .ok no := by
  rw [indexOf, h.index_eq hNo]

theorem next_of_suffix {no : Nat} (hSuffix : no :: rest <:+ pages.pages) :
    m.next no = .ok rest.head? := by
  obtain ⟨front, hList⟩ := hSuffix
  exact h.next_eq hList.symm

theorem probeFrom_eq (base : Nat) (stop : Int) {fuel : Nat} (hSuffix : rest <:+ pages.pages)
    (hFuel : rest.length ≤ fuel) (count : Nat) :
    m.probeFrom base stop fuel rest.head? count = .ok (Streams.probeFrom base stop count rest) := by
  induction rest generalizing fuel count with
  | nil => cases fuel <;> rfl
  | cons no rest ih =>
      rw [List.length_cons] at hFuel
      obtain ⟨fuel, rfl⟩ : ∃ n, fuel = n + 1 := ⟨fuel - 1, by omega⟩
      rw [List.head?_cons, probeFrom, h.indexOf_eq (hSuffix.subset List.mem_cons_self),
        h.next_of_suffix hSuffix, Streams.probeFrom]
      split_ifs with hStop hNo
      · rfl
      · exact if_pos (show (no : Int) ≠ base + count by omega)
      · refine (if_neg (show ¬(no : Int) ≠ base + count by omega)).trans ?_
        exact ih ((List.suffix_cons no rest).trans hSuffix) (by omega) (count + 1)

theorem probe_eq (stop : Int) (hSuffix : rest <:+ pages.pages) :
    m.probe rest.head? stop = .ok (Streams.probe stop rest) := by
  cases rest with
  | nil => rfl
  | cons no rest =>
      have hLength := h.length_le
      have hFew := hSuffix.length_le
      rw [List.head?_cons, probe, h.indexOf_eq (hSuffix.subset List.mem_cons_self)]
      exact h.probeFrom_eq no stop hSuffix (by rw [rounds]; omega) 0

omit h in
/-- Pages are taken off both trees, and the marks of all pages stay. -/
theorem unhook_alike (count : Nat) (h : Shows m pages) (hSuffix : rest <:+ pages.pages) :
    Alike Stop.panic
      (fun m' pool => ∃ pages', pool = m'.listing pages' ∧ Shows m' pages' ∧
        m'.pageCount = m.pageCount ∧ ∀ i, Marked (m.listing pages) i → Marked (m'.listing pages') i)
      (unhook count m rest.head?) ((m.listing pages).unhook rest count) := by
  induction count generalizing m pages rest with
  | zero => cases rest <;> exact .ok ⟨pages, rfl, h, rfl, fun _ hi => hi⟩
  | succ count ih =>
      cases rest with
      | nil => exact .error Panic.nullPage
      | cons no rest =>
          rw [List.head?_cons, unhook, Streams.unhook,
            show m.area.intact no = (m.listing pages).intact no from rfl]
          split_ifs with hIntact
          · obtain ⟨m', hRemove, hList, hShows, hMarked⟩ :=
              h.remove_eq (hSuffix.subset List.mem_cons_self)
            rw [h.next_of_suffix hSuffix, hList]
            have hRest : rest <:+ (pages.remove no).pages := by
              obtain ⟨front, hFront⟩ := hSuffix
              have hNodup := pages.nodup
              rw [← hFront] at hNodup
              have hNew : no ∉ front := fun hMem =>
                (List.nodup_cons.mp (List.nodup_middle.mp hNodup)).1 (List.mem_append_left _ hMem)
              show rest <:+ pages.pages.erase no
              rw [← hFront, List.erase_append_right _ hNew, List.erase_cons_head]
              exact List.suffix_append front rest
            simp only [bind, Except.bind, hRemove]
            apply (ih hShows hRest).mono
            rintro m'' pool ⟨pages', hPool, hShows', hCount, hMarked'⟩
            exact ⟨pages', hPool, hShows', hCount.trans (congrArg Streams.pageCount hList).symm,
              fun i hi => hMarked' i (hMarked i hi)⟩
          · exact .error Panic.pageTrashed

theorem advance_eq {count : Nat} (hSuffix : rest <:+ pages.pages) (hCount : count ≤ rest.length) :
    m.advance count rest.head? = .ok (rest.drop count).head? := by
  induction count generalizing rest with
  | zero => cases rest <;> rfl
  | succ count ih =>
      cases rest with
      | nil => simp at hCount
      | cons no rest =>
          rw [List.head?_cons, advance, h.next_of_suffix hSuffix]
          exact ih ((List.suffix_cons no rest).trans hSuffix) (by simpa using hCount)

/-- The search stops at the same page. -/
theorem search_eq (n : Int) {fuel : Nat} (hSuffix : rest <:+ pages.pages) (hSome : rest ≠ [])
    (hFuel : rest.length < fuel) :
    m.search n fuel rest.head? = .ok ((Streams.search n 0 rest).map fun found => some found.1) := by
  induction fuel generalizing rest with
  | zero => exact absurd hFuel (Nat.not_lt_zero _)
  | succ fuel ih =>
      cases rest with
      | nil => exact absurd rfl hSome
      | cons no rest =>
          have hBound : Streams.probe n (no :: rest) ≤ (no :: rest).length :=
            Nat.zero_add (no :: rest).length ▸ (probeFrom_bounds no n (no :: rest) 0).2
          rw [Memory.search, h.probe_eq n hSuffix, Streams.search]
          simp only [bind, Except.bind]
          split_ifs with hFits
          · rfl
          · -- the page after the ones that were counted
            have hPos : 0 < Streams.probe n (no :: rest) := by
              apply probe_pos
              omega
            obtain ⟨i, hi⟩ := Nat.exists_eq_add_of_lt hPos
            rw [h.advance_eq hSuffix hBound, hi]
            rw [hi, List.length_cons] at hBound
            rw [search_skip, show 0 + i + 1 - 1 = i by omega, Nat.zero_add, List.drop_succ_cons]
            have hDrop : rest.drop i <:+ pages.pages :=
              (List.drop_suffix i rest).trans ((List.suffix_cons no rest).trans hSuffix)
            have hLength : (rest.drop i).length ≤ rest.length := by
              rw [List.length_drop]
              omega
            rw [List.length_cons] at hFuel
            cases hRest : rest.drop i with
            | nil => rfl
            | cons next more =>
                rw [hRest] at hDrop hLength
                exact ih hDrop (List.cons_ne_nil _ _) (by omega)

end Shows

/-- What `__peak_stream_claim` and `__peak_stream_reclaim` return in both. -/
inductive Taken : Option (Int × Memory) → Option (Nat × Streams) → Prop where
  | none : Taken none none
  | some {m : Memory} {pages : Tree} {no : Nat} (hShows : Shows m pages) (hNo : no < m.pageCount) :
      Taken (some (no, m)) (some (no, m.listing pages))

theorem Shows.claimPages_alike (h : Shows m pages) (hSome : pages.pages ≠ []) (n : Int) :
    Alike Stop.panic Taken (m.claimPages n) ((m.listing pages).claimPages n) := by
  have hLength := h.length_le
  rw [claimPages, h.min_eq, Streams.claimPages]
  simp only [bind, Except.bind]
  rw [h.search_eq n (List.suffix_refl _) hSome (by rw [rounds]; omega),
    show (m.listing pages).pageTree = pages from rfl]
  cases hSearch : Streams.search n 0 pages.pages with
  | none => exact .ok .none
  | some found =>
      obtain ⟨no, rest⟩ := found
      have hSuffix := (search_found hSearch).1
      have hNo := hSuffix.subset List.mem_cons_self
      apply (h.unhook_alike n.toNat hSuffix).bind
      rintro m' pool ⟨pages', rfl, hShows, hCount, hMarked⟩ -
      have hLt : no < m'.pageCount := hCount ▸ h.lt no hNo
      have hFew := hShows.few
      have hIndex := index_of_read (hMarked no (h.marked no hNo)).index (show no < 2 ^ 63 by omega)
      simp only [indexOf, hIndex]
      exact .ok (.some hShows hLt)

/-- The pages behind a stream are taken in both. -/
theorem Shows.reclaimPages_alike (h : Shows m pages) (hArea : stream.InArea (m.listing pages)) (n : Int)
    (hMore : stream.pageNo < m.pageCount ∨ 0 < n) :
    Alike Stop.panic Taken (m.reclaimPages stream n) ((m.listing pages).reclaimPages stream n) := by
  obtain ⟨hNonneg, hLe, -⟩ := hArea
  have hLe : (stream.pageNo + stream.pageCount : Int) ≤ m.pageCount := hLe
  have hSuffix : pages.find (stream.pageNo + stream.pageCount) <:+ pages.pages :=
    List.dropWhile_suffix _
  rw [reclaimPages, h.find_eq (by omega) hLe, Streams.reclaimPages]
  simp only [bind, Except.bind]
  rw [h.probe_eq n hSuffix, show (m.listing pages).pageTree = pages from rfl]
  dsimp only
  split_ifs with hBlocked
  · exact .ok .none
  · apply (h.unhook_alike n.toNat hSuffix).bind
    rintro m' pool ⟨pages', rfl, hShows, hCount, -⟩ -
    refine .ok (.some hShows ?_)
    rw [hCount]
    rcases hMore with hLt | hPos
    · exact hLt
    · -- a page behind the stream was found
      cases hFind : pages.find (stream.pageNo + stream.pageCount) with
      | nil =>
          rw [hFind] at hBlocked
          exact absurd hPos hBlocked
      | cons no rest =>
          obtain ⟨hNo, hSuffix'⟩ := Tree.find_eq_cons hFind
          have := h.lt no (hSuffix'.subset List.mem_cons_self)
          omega

/-- A claim is answered alike in both. One that is refused leaves the memory as
it was. -/
inductive Answers (m : Memory) :
    Bool × Memory × Option Stream → Bool × Streams × Option Stream → Prop where
  | served {m' : Memory} {pool : Streams} (h : Refines m' pool) (ref : Option Stream) :
      Answers m (true, m', ref) (true, pool, ref)
  | refused {pool : Streams} (h : Refines m pool) (ref : Option Stream) :
      Answers m (false, m, ref) (false, pool, ref)

theorem Shows.refines (h : Shows m pages) : Refines m (m.listing pages) := ⟨pages, rfl, h⟩

/-- The references are not in the page memory. -/
theorem Shows.referring (h : Shows m pages) (references : List Nat) :
    Shows { m with references := references } pages :=
  ⟨h.few, h.lt, h.tree, fun i hi => (h.marked i hi).congr ⟨rfl, rfl⟩ fun _ _ _ => .inl rfl⟩

theorem Shows.root_eq_none_iff (h : Shows m pages) : m.tree.root = none ↔ pages.pages = [] := by
  obtain ⟨t, hHolds, -, -, hList⟩ := h.tree
  rw [hHolds.root, ← hList]
  cases t with
  | leaf => simp [RedBlack.Tree.root, RedBlack.Tree.toList]
  | node => simp [RedBlack.Tree.root, RedBlack.Tree.toList]

/-- The number that was returned is a page, so it is dealt out. -/
theorem deal_some {no : Nat} (hNo : no < m.pageCount) (n : Int) :
    m.deal (some stream) no n size =
      .ok (true, m, some (m.area.extend stream no n size)) := by
  rw [deal, if_neg (by omega), if_pos (by omega)]
  rfl

theorem Shows.deal_none {before : Memory} (h : Shows m pages) {no : Nat} (hNo : no < m.pageCount)
    (n : Int) :
    Alike Stop.panic (Answers before) (m.deal none no n size) (do
      let (pool, stream) ← (m.listing pages).get
      return (true, pool, some (pool.extend stream no n size))) := by
  rw [deal, if_neg (by omega), if_pos (by omega), get, Streams.get,
    show (m.listing pages).references = m.references from rfl]
  cases m.references with
  | nil => exact .error Panic.noReferences
  | cons slot rest =>
      exact .ok (.served (h.referring rest).refines _)

theorem Shows.claimDirect_alike {ref : Option Stream} (size : Nat) (h : Shows m pages)
    (hArea : ∀ stream, ref = some stream → stream.InArea (m.listing pages)) :
    Alike Stop.panic (Answers m) (m.claimDirect ref size) ((m.listing pages).claimDirect ref size) := by
  simp only [claimDirect, Streams.claimDirect]
  by_cases hZero : size = 0
  · rw [if_pos hZero, if_pos hZero]
    exact .ok (.served h.refines _)
  rw [if_neg hZero, if_neg hZero]
  cases ref with
  | none =>
      dsimp only
      by_cases hNone : (m.listing pages).pageTree.pages = []
      · rw [if_pos hNone, if_pos (h.root_eq_none_iff.mpr hNone)]
        exact .ok (.refused h.refines _)
      · rw [if_neg hNone, if_neg (mt h.root_eq_none_iff.mp hNone)]
        apply (h.claimPages_alike hNone _).bind
        rintro _ _ hTaken -
        cases hTaken with
        | none => exact .ok (.refused h.refines _)
        | some hShows hNo => exact hShows.deal_none hNo _
  | some stream =>
      dsimp only
      rw [show m.area.lacking stream size = (m.listing pages).lacking stream size from rfl]
      split_ifs with hTrivial
      · exact .ok (.served h.refines _)
      · apply (h.reclaimPages_alike (hArea stream rfl) _ ?_).bind
        · rintro _ _ hTaken -
          cases hTaken with
          | none => exact .ok (.refused h.refines _)
          | some hShows hNo =>
              dsimp only
              rw [deal_some hNo]
              exact .ok (.served hShows.refines _)
        · -- a stream that wants fewer pages has some
          have hLe : (stream.pageNo + stream.pageCount : Int) ≤ m.pageCount := (hArea stream rfl).le
          simp only [lacking] at hTrivial ⊢
          omega

@[simp] theorem pageSize_listing (m : Memory) (pages : Tree) : (m.listing pages).pageSize = m.pageSize :=
  rfl

theorem sizeAdj_listing (m : Memory) (pages : Tree) (stream : Stream) :
    (m.listing pages).sizeAdj stream = m.area.sizeAdj stream := by
  simp only [sizeAdj, page, area, listing]

/-- The loop of a release goes through the same pages. -/
theorem Shows.releaseLoop_eq {sizeAdj passes left : Nat} {pool' : Streams} {stream' : Stream}
    (h : Shows m pages) (hNonneg : 0 ≤ stream.pageCount)
    (hLe : (stream.pageNo + stream.pageCount : Int) ≤ m.pageCount)
    (hOk : Streams.releaseLoop sizeAdj (m.listing pages) stream size passes =
      .ok (pool', stream', left)) :
    ∃ m', releaseLoop sizeAdj m stream size passes = .ok (m', stream', left) ∧ Refines m' pool' := by
  induction passes generalizing m pages stream size with
  | zero =>
      cases hOk
      exact ⟨m, rfl, h.refines⟩
  | succ passes ih =>
      simp only [Streams.releaseLoop] at hOk
      simp only [releaseLoop]
      split_ifs at hOk with hMore
      · rw [pageSize_listing] at hMore
        rw [if_pos hMore]
        obtain ⟨pool₁, hPage, hRest⟩ := bind_eq_ok hOk
        obtain ⟨m₁, pages₁, hPage', rfl, hShows⟩ := h.releasePage_eq (by omega) hPage
        have hCount : m₁.pageCount = m.pageCount := (releasePage_gives hPage).1.area.pageCount
        have hRest' := ih hShows (by dsimp only; omega) (by dsimp only; push_cast; omega) hRest
        rw [pageSize_listing] at hRest'
        simpa only [bind, Except.bind, hPage'] using hRest'
      · rw [pageSize_listing] at hMore
        rw [if_neg hMore]
        cases hOk
        exact ⟨m, rfl, h.refines⟩

theorem Shows.put (h : Shows m pages) (stream : Stream) :
    Refines (m.put stream) ((m.listing pages).put stream) :=
  (h.referring (stream.slot :: m.references)).refines

theorem Shows.release_eq {ref ref' : Option Stream} {pool' : Streams} (h : Shows m pages)
    (hArea : ∀ stream, ref = some stream → stream.InArea (m.listing pages))
    (hOk : (m.listing pages).release ref size = .ok (pool', ref')) :
    ∃ m', m.release ref size = .ok (m', ref') ∧ Refines m' pool' := by
  simp only [Streams.release, pageSize_listing, sizeAdj_listing] at hOk
  simp only [release]
  split_ifs at hOk ⊢ with hZero
  · cases hOk
    exact ⟨m, rfl, h.refines⟩
  cases ref with
  | none =>
      cases hOk
      exact ⟨m, rfl, h.refines⟩
  | some stream =>
      obtain ⟨hNonneg, hLe, -⟩ := hArea stream rfl
      dsimp only at hOk ⊢
      obtain ⟨⟨pool₁, rest, left⟩, hLoop, hEnd⟩ := bind_eq_ok hOk
      obtain ⟨m₁, hLoop', pages₁, rfl, hShows⟩ := h.releaseLoop_eq hNonneg hLe hLoop
      have hMop : ∃ m', m₁.mopUp rest left = (m', ref') ∧ Refines m' pool' := by
        rw [mopUp]
        dsimp only at hEnd ⊢
        split_ifs at hEnd ⊢
        · cases hEnd
          exact ⟨_, rfl, hShows.put _⟩
        · cases hEnd
          exact ⟨_, rfl, hShows.refines⟩
      obtain ⟨m', hEq, hRefines⟩ := hMop
      refine ⟨m', ?_, hRefines⟩
      rw [hLoop', ← hEq]
      rfl

/-- A release in memory gives what the release on lists does, which has no
panic. -/
theorem Shows.release_alike (ref : Option Stream) (size : Nat) (h : Shows m pages)
    (hArea : ∀ stream, ref = some stream → stream.InArea (m.listing pages))
    (hApart : ∀ i, Held ref i → i ∉ pages.pages) :
    Alike Stop.panic (fun a b => Refines a.1 b.1 ∧ a.2 = b.2) (m.release ref size)
      ((m.listing pages).release ref size) := by
  obtain ⟨⟨pool', ref'⟩, hOk⟩ := release_ok hArea hApart size
  obtain ⟨m', hRun, hRefines⟩ := h.release_eq hArea hOk
  rw [hOk, hRun]
  exact .ok ⟨hRefines, rfl⟩

/-- To write to pages that are not free does no harm. -/
theorem Shows.store (h : Shows m pages) {dst : Nat} {cells : List (Option UInt8)}
    (hOff : ∀ i, dst ≤ i → i < dst + cells.length → (m.listing pages).pageOf i ∉ pages.pages) :
    Shows (m.store dst cells) pages :=
  ⟨h.few, h.lt, h.tree, fun i hi =>
    (h.marked i hi).write fun j hLow hHigh hSame => hOff j hLow hHigh (hSame ▸ hi)⟩

/-- The end of a relocation: the contents are copied and the old pages given
back. -/
theorem Shows.relocate_alike {before : Memory} {pool : Streams} {retry : Stream} (h : Shows m pages)
    (hArea : stream.InArea pool) (hApart : ∀ i, stream.Holds i → i ∉ pool.pageTree.pages)
    (hFresh : Fresh pool size (m.listing pages) retry)
    (hLen : stream.len ≤ pool.pagesFor size * pool.pageSize) :
    Alike Stop.panic (Answers before)
      (do
        let (self, _) ← (m.store retry.buf (read m.pageMem stream.buf stream.len)).release
          (some stream) stream.len
        return (true, self, some retry))
      (do
        let (pool', _) ← ((m.listing pages).copy retry.buf stream.buf stream.len).release
          (some stream) stream.len
        return (true, pool', some retry)) := by
  obtain ⟨hNonneg, hLe, hLt⟩ := hArea
  have hCopied : Shows (m.store retry.buf (read m.pageMem stream.buf stream.len)) pages := by
    apply h.store
    intro i hLow hHigh
    rw [read_length] at hHigh
    exact copy_off hFresh hLen hLow hHigh
  have hCount : m.pageCount = pool.pageCount := hFresh.takes.area.pageCount
  refine (hCopied.release_alike (some stream) stream.len ?_ ?_).bind ?_
  · intro other hOther
    cases hOther
    have hLe' : (stream.pageNo + stream.pageCount : Int) ≤ m.pageCount := by omega
    exact ⟨hNonneg, hLe', hLt⟩
  · intro i hHeld hFree
    exact hApart i (held_some.mp hHeld) ((hFresh.takes.tree i).mp hFree).1
  · rintro ⟨m', ref⟩ ⟨pool', ref'⟩ ⟨hRefines, -⟩ -
    exact .ok (.served hRefines _)

/-- A claim in memory is served as the claim on lists is. -/
theorem Shows.claim_alike {ref : Option Stream} (h : Shows m pages)
    (hArea : ∀ stream, ref = some stream → stream.InArea (m.listing pages))
    (hApart : ∀ i, Held ref i → i ∉ pages.pages)
    (hCopies : ∀ stream, ref = some stream → (m.listing pages).Copies stream size) :
    Alike Stop.panic (Answers m) (m.claim ref size) ((m.listing pages).claim ref size) := by
  rw [claim, Streams.claim]
  apply (h.claimDirect_alike _ hArea).bind
  rintro _ _ hFirst hDirect
  cases hFirst with
  | served hRefines => exact .ok (.served hRefines _)
  | refused hRefines ref₁ =>
      cases ref₁ with
      | none => exact .ok (.refused hRefines _)
      | some stream =>
          obtain ⟨pages₁, rfl, hShows₁⟩ := hRefines
          apply (hShows₁.claimDirect_alike _ fun _ hNone => by cases hNone).bind
          rintro _ _ hSecond hRetry
          cases hSecond with
          | refused hRefines => exact .ok (.refused hRefines _)
          | served hRefines ref₂ =>
              cases ref₂ with
              | none => exact .error Panic.nullReference
              | some retry =>
                  obtain ⟨pages₂, rfl, hShows₂⟩ := hRefines
                  cases ref with
                  | none =>
                      rcases claimDirect_none_cases hDirect with
                        ⟨-, hRet, -⟩ | ⟨-, -, hRef⟩ | ⟨-, hRet, -⟩
                      · cases hRet
                      · cases hRef
                      · cases hRet
                  | some old =>
                      rcases claimDirect_some_cases hDirect with
                        ⟨-, hRet, -⟩ | ⟨-, -, hRet, -⟩ | ⟨hSize, -, hSame, hRef, hBlocked⟩ |
                        ⟨-, -, hRet, -⟩
                      · cases hRet
                      · cases hRet
                      · cases hRef
                        rw [hSame] at hRetry
                        rcases claimDirect_none_cases hRetry with
                          ⟨-, -, -, hRef⟩ | ⟨hRet, -⟩ | ⟨-, -, _, hRef, hFresh⟩
                        · cases hRef
                        · cases hRet
                        · cases hRef
                          exact hShows₂.relocate_alike (hArea _ rfl)
                            (fun i hi => hApart i (held_some.mpr hi)) hFresh
                            (hCopies _ rfl ⟨hSize, hBlocked⟩)
                      · cases hRet

/-- A claim that is refused in memory is refused on lists, whatever a copy would
have done. -/
theorem Shows.claim_refused_alike {ref ref' : Option Stream} {m' : Memory} (h : Shows m pages)
    (hArea : ∀ stream, ref = some stream → stream.InArea (m.listing pages))
    (hRefused : m.claim ref size = .ok (false, m', ref')) :
    m' = m ∧ ∃ pool', (m.listing pages).claim ref size = .ok (false, pool', ref') := by
  obtain ⟨first, hDirect, hRest⟩ := bind_eq_ok hRefused
  obtain ⟨listed, hListed, hFirst⟩ := (h.claimDirect_alike size hArea).of_eq_ok hDirect
  cases hFirst with
  | served => cases hRest
  | refused hRefines ref₁ =>
      cases ref₁ with
      | none =>
          cases hRest
          exact ⟨rfl, _, by rw [Streams.claim, hListed]; rfl⟩
      | some stream =>
          obtain ⟨pages₁, rfl, hShows₁⟩ := hRefines
          obtain ⟨second, hRetry, hEnd⟩ := bind_eq_ok hRest
          obtain ⟨listed₂, hListed₂, hSecond⟩ :=
            (hShows₁.claimDirect_alike _ fun _ hNone => by cases hNone).of_eq_ok hRetry
          cases hSecond with
          | @refused pool₂ =>
              cases hEnd
              refine ⟨rfl, pool₂, ?_⟩
              rw [Streams.claim, hListed]
              simp only [bind, Except.bind, hListed₂]
              rfl
          | served _ ref₂ =>
              cases ref₂ with
              | none => cases hEnd
              | some retry =>
                  obtain ⟨_, -, hLast⟩ := bind_eq_ok hEnd
                  cases hLast

end Memory

end Peak.Streams
