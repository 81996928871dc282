import Peak.Stream.Bounds

/-! Which pages a claim without a stream is served with: the first ones that are
free in a row. The scan passes over the pages it has probed at once, which
skips no row, because what stopped the probe is a gap behind all of them. -/
namespace Peak

open Cells Run

section Rows

/-- The `n` numbers from `first` on are listed. -/
def Row (n : Nat) (pages : List Nat) (first : Nat) : Prop := ∀ j < n, first + j ∈ pages

variable {n first head : Nat} {pages tail : List Nat}

/-- In an ordered list a row that does not start at the front does without it. -/
theorem row_tail (hSorted : (head :: tail).Pairwise (· < ·)) (hFirst : first ∈ tail)
    (hRow : Row n (head :: tail) first) : Row n tail first := by
  intro j hj
  have hLess := (List.pairwise_cons.mp hSorted).1 first hFirst
  exact (List.mem_cons.mp (hRow j hj)).resolve_left (by omega)

end Rows

namespace Streams

section Search

variable {n first no : Nat} {pages rest : List Nat}

/-- What ends a probe before its limit is a gap. -/
theorem gap_of_probe (hSorted : (no :: rest).Pairwise (· < ·)) (hShort : probe n (no :: rest) < n) :
    no + probe n (no :: rest) ∉ no :: rest := by
  intro hMem
  have hRow : ∀ j < probe n (no :: rest) + 1, no + j ∈ no :: rest := by
    intro j hj
    rcases Nat.lt_succ_iff_lt_or_eq.mp hj with hLess | hEq
    · exact mem_of_take (probe_run n no rest) hLess
    · rw [hEq]
      exact hMem
  have hTake := take_of_mem hSorted hRow
  have hLength := congrArg List.length hTake
  rw [List.length_take, List.length_range'] at hLength
  have hLonger : 0 + (probe n (no :: rest) + 1) ≤ probeFrom no n 0 (no :: rest) :=
    le_probeFrom _ _ hTake (by omega) (by omega)
  have hSame : probeFrom no n 0 (no :: rest) = probe n (no :: rest) := rfl
  omega

/-- A row of `n` does not start at any page that a short probe has counted. -/
theorem not_row_of_probe (hSorted : (no :: rest).Pairwise (· < ·))
    (hShort : probe n (no :: rest) < n) {j : Nat} (hj : j ≤ probe n (no :: rest)) :
    ¬Row n (no :: rest) (no + j) := by
  intro hRow
  have hLast := hRow (probe n (no :: rest) - j) (by omega)
  rw [show no + j + (probe n (no :: rest) - j) = no + probe n (no :: rest) by omega] at hLast
  exact gap_of_probe hSorted hShort hLast

/-- The pages behind the front of the list that a probe has counted. -/
theorem mem_take_probe {p : Nat} (hp : p ∈ rest.take (probe n (no :: rest) - 1)) :
    ∃ j ≤ probe n (no :: rest), p = no + j := by
  have hRun := probe_run n no rest
  cases hCount : probe n (no :: rest) with
  | zero =>
      rw [hCount] at hp
      cases hp
  | succ c =>
      rw [hCount, List.take_succ_cons, List.range'_succ, List.cons.injEq] at hRun
      rw [hCount, Nat.add_sub_cancel, hRun.2] at hp
      have hRange := List.mem_range'_1.mp hp
      exact ⟨p - no, by omega, by omega⟩

/-- No row starts in front of where a search ended. -/
def NoRowBefore (n : Nat) (pages : List Nat) (result : Option (Nat × List Nat)) : Prop :=
  ∀ p ∈ pages, (∀ found ∈ result, p < found.1) → ¬Row n pages p

/-- Once the front is passed over, a row that is missed is a row of the rest. -/
theorem NoRowBefore.cons {result : Option (Nat × List Nat)}
    (hSorted : (no :: rest).Pairwise (· < ·)) (hFront : ¬Row n (no :: rest) no)
    (h : NoRowBefore n rest result) : NoRowBefore n (no :: rest) result := by
  intro p hp hLess hRow
  rcases List.mem_cons.mp hp with rfl | hMem
  · exact hFront hRow
  · exact h p hMem hLess (row_tail hSorted hMem hRow)

/-- The search passes over no row, whatever it is to move past at first. -/
theorem search_skips_no_row {skip : Nat} (hSorted : pages.Pairwise (· < ·))
    (hSkip : ∀ p ∈ pages.take skip, ¬Row n pages p) :
    NoRowBefore n pages (search n skip pages) := by
  induction pages generalizing skip with
  | nil => exact fun p hp => absurd hp List.not_mem_nil
  | cons head tail ih =>
      have hTail := (List.pairwise_cons.mp hSorted).2
      have hRest {skip' : Nat} (hPassed : ∀ p ∈ tail.take skip', ¬Row n (head :: tail) p) :
          NoRowBefore n tail (search n skip' tail) :=
        ih hTail fun p hp hRow => hPassed p hp fun j hj => List.mem_cons_of_mem _ (hRow j hj)
      cases skip with
      | succ skip =>
          rw [List.take_succ_cons] at hSkip
          exact (hRest fun p hp => hSkip p (List.mem_cons_of_mem _ hp)).cons hSorted
            (hSkip head List.mem_cons_self)
      | zero =>
          simp only [search]
          split_ifs with hFits
          · intro p hp hLess
            have hBefore := hLess _ rfl
            rcases List.mem_cons.mp hp with rfl | hMem
            · omega
            · have hAfter := (List.pairwise_cons.mp hSorted).1 p hMem
              omega
          · have hShort : probe n (head :: tail) < n := by omega
            apply (hRest fun p hp => ?_).cons hSorted
              (not_row_of_probe hSorted hShort (Nat.zero_le _))
            obtain ⟨j, hj, rfl⟩ := mem_take_probe hp
            exact not_row_of_probe hSorted hShort hj

theorem noRowBefore_search (hSorted : pages.Pairwise (· < ·)) :
    NoRowBefore n pages (search n 0 pages) :=
  search_skips_no_row hSorted fun _ hp => absurd hp List.not_mem_nil

/-- A search that finds nothing passed no row. -/
theorem not_row_of_search {p : Nat} (hSorted : pages.Pairwise (· < ·))
    (hSearch : search n 0 pages = none) (hp : p ∈ pages) : ¬Row n pages p := by
  apply noRowBefore_search hSorted p hp
  intro found hFound
  rw [hSearch] at hFound
  cases hFound

/-- The search ends with the first row. -/
theorem search_first (hSorted : pages.Pairwise (· < ·)) (hPos : 0 < n) (hRow : Row n pages first)
    (hEarlier : ∀ p < first, ¬Row n pages p) :
    ∃ after, search n 0 pages = some (first, after) := by
  have hMem : first ∈ pages := hRow 0 hPos
  cases hSearch : search n 0 pages with
  | none => exact absurd hRow (not_row_of_search hSorted hSearch hMem)
  | some found =>
      obtain ⟨no, after⟩ := found
      obtain ⟨hSuffix, hProbe⟩ := search_found hSearch
      have hFound : Row n pages no := fun j hj =>
        hSuffix.subset (mem_of_take (probe_run n no after) (by omega))
      have hNotLater : ¬first < no := by
        intro hLess
        refine noRowBefore_search hSorted first hMem (fun found hEnd => ?_) hRow
        rw [hSearch] at hEnd
        cases hEnd
        exact hLess
      have hNotEarlier : ¬no < first := fun hLess => hEarlier no hLess hFound
      exact ⟨after, by rw [show no = first by omega]⟩

end Search

section Intact

variable {pool pool' : Streams} {stream stream' : Stream} {ref ref' : Option Stream} {size : Nat}

/-- The bytes that `STREAM_CHECK` looks at. -/
def Checked (pool : Streams) (no i : Nat) : Prop :=
  (pool.page no ≤ i ∧ i < pool.page no + 8) ∨ (pool.tail no ≤ i ∧ i < pool.tail no + 8)

/-- A page passes the check as before if the bytes it looks at stay. -/
theorem intact_congr {no : Nat} (hArea : SameArea pool pool')
    (hMem : ∀ i, pool.Checked no i → pool'.pageMem i = pool.pageMem i) :
    pool'.intact no = pool.intact no := by
  have hPage : pool'.page no = pool.page no := hArea.page no
  have hTail : pool'.tail no = pool.tail no := by rw [tail, tail, hPage, hArea.pageSize]
  rw [intact, intact, hPage, hTail]
  rw [read_congr fun i hLow hHigh => hMem i (Or.inl ⟨hLow, hHigh⟩),
    read_congr fun i hLow hHigh => hMem i (Or.inr ⟨hLow, hHigh⟩)]

/-- The bytes that are checked lie in the page, away from its link fields. -/
theorem Checked.place {no i : Nat} (h : pool.Checked no i) :
    pool.pageOf i = no ∧ (i % pool.pageSize < 8 ∨ 48 ≤ i % pool.pageSize) := by
  have hLarge := pool.large
  simp only [pageHeaderSize] at hLarge
  have hPage : pool.pageOf i = no := by
    rw [pageOf_eq_iff]
    simp only [Checked, tail] at h
    omega
  have hDiv := Nat.div_add_mod i pool.pageSize
  have hNo : i / pool.pageSize = no := hPage
  rw [hNo, Nat.mul_comm] at hDiv
  refine ⟨hPage, ?_⟩
  simp only [Checked, tail, page] at h
  omega

theorem relink_checked {no i : Nat} (h : pool.Checked no i) (pages : List Nat) :
    pool.relink pages i = pool.pageMem i := by
  have hPlace := h.place.2
  exact if_neg fun hLink => by omega

theorem intact_remove (no i : Nat) : (pool.remove no).intact i = pool.intact i :=
  intact_congr ⟨rfl, rfl⟩ fun _ hChecked => relink_checked hChecked _

theorem intact_unhook {pages : List Nat} {count : Nat} (h : pool.unhook pages count = .ok pool')
    (i : Nat) : pool'.intact i = pool.intact i := by
  induction count generalizing pool pages with
  | zero => cases pages <;> cases h <;> rfl
  | succ count ih =>
      cases pages with
      | nil => cases h
      | cons no rest =>
          simp only [unhook] at h
          split_ifs at h
          exact (ih h).trans (intact_remove no i)

/-- Pages in a row that pass the check are taken off the tree. -/
theorem unhook_ok {pages : List Nat} {first count : Nat}
    (hRun : pages.take count = List.range' first count)
    (hIntact : ∀ j < count, pool.intact (first + j)) :
    ∃ pool', pool.unhook pages count = .ok pool' := by
  induction count generalizing pool pages first with
  | zero => cases pages <;> exact ⟨pool, rfl⟩
  | succ count ih =>
      cases pages with
      | nil => cases hRun
      | cons no rest =>
          rw [List.take_succ_cons, List.range'_succ, List.cons.injEq] at hRun
          obtain ⟨rfl, hRest⟩ := hRun
          rw [unhook, if_pos (show pool.intact no from hIntact 0 (by omega))]
          apply ih hRest
          intro j hj
          rw [intact_remove, Nat.add_assoc, Nat.add_comm 1]
          exact hIntact (j + 1) (by omega)

/-- Only pages that pass the check are taken off the tree. -/
theorem intact_of_unhook {pages : List Nat} {first count : Nat}
    (hRun : pages.take count = List.range' first count)
    (h : pool.unhook pages count = .ok pool') : ∀ j < count, pool.intact (first + j) := by
  induction count generalizing pool pages first with
  | zero => exact fun j hj => absurd hj (Nat.not_lt_zero j)
  | succ count ih =>
      cases pages with
      | nil => cases h
      | cons no rest =>
          rw [List.take_succ_cons, List.range'_succ, List.cons.injEq] at hRun
          obtain ⟨rfl, hRest⟩ := hRun
          simp only [unhook] at h
          split_ifs at h with hFirst
          intro j hj
          cases j with
          | zero => exact hFirst
          | succ j =>
              have hNext := ih hRest h j (by omega)
              rwa [intact_remove, Nat.add_assoc, Nat.add_comm 1] at hNext

/-- A page that is set up passes the check. -/
theorem intact_setup (no : Nat) : (pool.setup no).intact no := by
  have hLarge := pool.large
  simp only [pageHeaderSize] at hLarge
  have hLength (value : Nat) : (le64 value).length = 8 := by
    rw [le64, List.length_map, List.length_range]
  have hHead : read (pool.setup no).pageMem (pool.page no) 8 = le64 streamMagic := by
    rw [setup, read_write_outside (Or.inl (Nat.le_refl _)), ← hLength streamMagic, read_write]
  have hTail : read (pool.setup no).pageMem (pool.tail no) 8 = le64 streamMagic := by
    rw [setup, read_write_outside (Or.inr (by rw [hLength, tail]; omega)),
      read_write_outside (Or.inr (by rw [hLength, tail]; omega)), ← hLength streamMagic, read_write]
  rw [intact, show (pool.setup no).page no = pool.page no from rfl,
    show (pool.setup no).tail no = pool.tail no from rfl, hHead, hTail]
  simp

/-- A page that is given back passes the check, and no other page is harmed. -/
theorem intact_releasePage {no : Nat} (h : pool.releasePage no = .ok pool') :
    pool'.intact no ∧ ∀ i, pool.intact i → pool'.intact i := by
  simp only [releasePage] at h
  cases hInsert : (pool.setup no).pageTree.insert no with
  | none =>
      rw [hInsert] at h
      cases h
  | some tree =>
      rw [hInsert] at h
      cases h
      have hLinked (i : Nat) : intact { pool.setup no with
          pageTree := tree, pageMem := (pool.setup no).relink tree.pages } i =
            (pool.setup no).intact i :=
        intact_congr ⟨rfl, rfl⟩ fun _ hChecked => relink_checked hChecked _
      refine ⟨(hLinked no).trans (intact_setup no), ?_⟩
      intro i hIntact
      rw [hLinked]
      by_cases hSame : i = no
      · rw [hSame]
        exact intact_setup no
      · have hArea : SameArea pool (pool.setup no) := ⟨rfl, rfl⟩
        rw [← hIntact]
        apply intact_congr hArea
        intro a hChecked
        have hLarge := pool.large
        simp only [pageHeaderSize] at hLarge
        have hOther : pool.pageOf a ≠ no := fun hEq => hSame (hChecked.place.1.symm.trans hEq)
        simp only [setup, tail]
        rw [write_pageOf pool no, write_pageOf pool no, write_pageOf pool no]
        all_goals first | exact hOther | (simp only [le64, List.length_map, List.length_range]; omega) | omega

/-- Every free page passes the check. -/
def Unharmed (pool : Streams) : Prop := ∀ i ∈ pool.pageTree.pages, pool.intact i

theorem unharmed_releasePage {no : Nat} (hUnharmed : pool.Unharmed)
    (h : pool.releasePage no = .ok pool') : pool'.Unharmed := by
  obtain ⟨hNew, hOld⟩ := intact_releasePage h
  intro i hi
  rcases ((releasePage_gives h).1.tree i).mp hi with hFree | hRange
  · exact hOld i (hUnharmed i hFree)
  · rw [show i = no by omega]
    exact hNew

theorem unharmed_release (hUnharmed : pool.Unharmed) (h : pool.release ref size = .ok (pool', ref')) :
    pool'.Unharmed := by
  simp only [release] at h
  split_ifs at h
  · cases h
    exact hUnharmed
  · cases ref with
    | none =>
        cases h
        exact hUnharmed
    | some stream =>
        obtain ⟨⟨next, rest, left⟩, hLoop, hEnd⟩ := bind_eq_ok h
        have hNext :=
          (releaseLoop_keeps Unharmed (fun _ _ _ => unharmed_releasePage) hUnharmed hLoop).1
        simp only at hEnd
        split_ifs at hEnd <;> cases hEnd <;> exact hNext

theorem unharmed_init {pageCount pageSize : Nat} {granted : Bool}
    (h : init pageCount pageSize granted = .ok (some pool)) : pool.Unharmed := by
  simp only [init] at h
  split_ifs at h
  swap
  · cases h
  obtain ⟨made, hMade, hEnd⟩ := bind_eq_ok h
  cases hEnd
  exact foldlM_keeps Unharmed (fun _ _ _ => unharmed_releasePage)
    (fun i hi => absurd hi List.not_mem_nil) hMade

/-- Bytes written to pages that are not free harm no free page. -/
theorem unharmed_write {at_ : Nat} {cells : List (Option UInt8)} (hUnharmed : pool.Unharmed)
    (hUsed : ∀ i, at_ ≤ i → i < at_ + cells.length → pool.pageOf i ∉ pool.pageTree.pages) :
    Unharmed { pool with pageMem := write pool.pageMem at_ cells } := by
  have hArea : SameArea pool { pool with pageMem := write pool.pageMem at_ cells } := ⟨rfl, rfl⟩
  intro no hFree
  rw [← hUnharmed no hFree]
  apply intact_congr hArea
  intro i hChecked
  apply write_outside
  by_contra hInside
  exact hUsed i (by omega) (by omega) (hChecked.place.1.symm ▸ hFree)

theorem intact_claimPages {n : Int} {no : Nat} (h : pool.claimPages n = .ok (some (no, pool')))
    (i : Nat) : pool'.intact i = pool.intact i := by
  simp only [claimPages] at h
  cases hSearch : search n 0 pool.pageTree.pages with
  | none =>
      rw [hSearch] at h
      cases h
  | some found =>
      obtain ⟨first, rest⟩ := found
      rw [hSearch] at h
      obtain ⟨next, hUnhook, hEnd⟩ := bind_eq_ok h
      cases hEnd
      exact intact_unhook hUnhook i

theorem intact_reclaimPages {n : Int} {no : Nat}
    (h : pool.reclaimPages stream n = .ok (some (no, pool'))) (i : Nat) :
    pool'.intact i = pool.intact i := by
  simp only [reclaimPages] at h
  split_ifs at h
  · cases h
  · obtain ⟨next, hUnhook, hEnd⟩ := bind_eq_ok h
    cases hEnd
    exact intact_unhook hUnhook i

theorem intact_get (h : pool.get = .ok (pool', stream)) (i : Nat) :
    pool'.intact i = pool.intact i := by
  simp only [get] at h
  cases hRefs : pool.references with
  | nil =>
      rw [hRefs] at h
      cases h
  | cons slot rest =>
      rw [hRefs] at h
      cases h
      rfl

theorem intact_claimDirect {ret : Bool} (h : pool.claimDirect ref size = .ok (ret, pool', ref'))
    (i : Nat) : pool'.intact i = pool.intact i := by
  cases ref with
  | none =>
      simp only [claimDirect] at h
      split_ifs at h
      · cases h
        rfl
      · cases h
        rfl
      · obtain ⟨found, hClaim, hEnd⟩ := bind_eq_ok h
        cases found with
        | none =>
            cases hEnd
            rfl
        | some found =>
            obtain ⟨⟨next, made⟩, hGet, hLast⟩ := bind_eq_ok hEnd
            cases hLast
            exact (intact_get hGet i).trans (intact_claimPages hClaim i)
  | some stream =>
      simp only [claimDirect] at h
      split_ifs at h
      · cases h
        rfl
      · cases h
        rfl
      · obtain ⟨found, hReclaim, hEnd⟩ := bind_eq_ok h
        cases found with
        | none =>
            cases hEnd
            rfl
        | some found =>
            cases hEnd
            exact intact_reclaimPages hReclaim i

/-- `_peak_stream_claim` frees no page. -/
theorem free_of_claimDirect {ret : Bool} (h : pool.claimDirect ref size = .ok (ret, pool', ref'))
    {i : Nat} (hFree : i ∈ pool'.pageTree.pages) : i ∈ pool.pageTree.pages := by
  cases ref with
  | none =>
      rcases claimDirect_none_cases h with ⟨-, -, rfl, -⟩ | ⟨-, rfl, -⟩ | ⟨-, -, made, -, hFresh⟩
      · exact hFree
      · exact hFree
      · exact ((hFresh.takes.tree i).mp hFree).1
  | some stream =>
      rcases claimDirect_some_cases h with
        ⟨-, -, rfl, -⟩ | ⟨-, -, -, rfl, -⟩ | ⟨-, -, rfl, -⟩ | ⟨-, -, -, -, -, first, -, hTakes⟩
      · exact hFree
      · exact hFree
      · exact hFree
      · exact ((hTakes.tree i).mp hFree).1

theorem unharmed_claimDirect {ret : Bool} (hUnharmed : pool.Unharmed)
    (h : pool.claimDirect ref size = .ok (ret, pool', ref')) : pool'.Unharmed := by
  intro i hFree
  rw [intact_claimDirect h]
  exact hUnharmed i (free_of_claimDirect h hFree)

/-- The copy of a relocation goes to the new pages only, if it fits them. -/
theorem copy_off {retry : Stream} (hFresh : Fresh pool size pool' retry) {len i : Nat}
    (hLen : len ≤ pool.pagesFor size * pool.pageSize) (hLow : retry.buf ≤ i)
    (hHigh : i < retry.buf + len) : pool'.pageOf i ∉ pool'.pageTree.pages := by
  intro hFree
  rw [hFresh.buf, page] at hLow hHigh
  have hTaken := ((hFresh.takes.tree _).mp hFree).2
  rw [pageOf, hFresh.takes.area.pageSize, Nat.le_div_iff_mul_le pool.pageSize_pos,
    Nat.div_lt_iff_lt_mul pool.pageSize_pos, Nat.add_mul] at hTaken
  omega

/-- So it harms no free page. -/
theorem unharmed_copy {retry : Stream} (hUnharmed : pool'.Unharmed)
    (hFresh : Fresh pool size pool' retry) {src len : Nat}
    (hLen : len ≤ pool.pagesFor size * pool.pageSize) :
    (pool'.copy retry.buf src len).Unharmed := by
  apply unharmed_write hUnharmed
  intro i hLow hHigh
  rw [read_length] at hHigh
  exact copy_off hFresh hLen hLow hHigh

theorem unharmed_claim {ret : Bool} (hUnharmed : pool.Unharmed)
    (hCopies : ∀ stream, ref = some stream → pool.Copies stream size)
    (h : pool.claim ref size = .ok (ret, pool', ref')) : pool'.Unharmed := by
  obtain ⟨⟨ret₁, pool₁, ref₁⟩, hDirect, hRest⟩ := bind_eq_ok h
  have hFirst := unharmed_claimDirect hUnharmed hDirect
  cases ref with
  | none =>
      rcases claimDirect_none_cases hDirect with
        ⟨-, rfl, -, rfl⟩ | ⟨rfl, -, rfl⟩ | ⟨-, rfl, made, rfl, -⟩ <;> cases hRest <;> exact hFirst
  | some stream =>
      rcases claimDirect_some_cases hDirect with
        ⟨-, rfl, -, rfl⟩ | ⟨-, -, rfl, -, rfl⟩ | ⟨hSize, rfl, rfl, rfl, hBlocked⟩ |
        ⟨-, -, rfl, rfl, -⟩
      · cases hRest
        exact hFirst
      · cases hRest
        exact hFirst
      · obtain ⟨⟨ret₂, pool₂, ref₂⟩, hRetry, hEnd⟩ := bind_eq_ok hRest
        have hSecond := unharmed_claimDirect hFirst hRetry
        rcases claimDirect_none_cases hRetry with
          ⟨-, rfl, -, rfl⟩ | ⟨rfl, -, rfl⟩ | ⟨-, rfl, retry, rfl, hFresh⟩
        · cases hEnd
        · cases hEnd
          exact hSecond
        · obtain ⟨⟨pool₃, ref₃⟩, hRelease, hLast⟩ := bind_eq_ok hEnd
          cases hLast
          have hLen := hCopies stream rfl ⟨hSize, hBlocked⟩
          exact unharmed_release (unharmed_copy hSecond hFresh hLen) hRelease
      · cases hRest
        exact hFirst

end Intact

section Fit

variable {pool pool' : Streams} {stream : Stream} {size n first : Nat}

/-- The number of pages that hold a size, in exact arithmetic. -/
def pagesHolding (pool : Streams) (size : Nat) : Nat := (size + pool.pageSize - 1) / pool.pageSize

theorem roundedUp_div (pool : Streams) (size : Nat) :
    (size + pool.pageSize - if size % pool.pageSize ≠ 0 then size % pool.pageSize
      else pool.pageSize) / pool.pageSize = pool.pagesHolding size := by
  have hPos := pool.pageSize_pos
  have hDiv := Nat.div_add_mod size pool.pageSize
  have hMod := Nat.mod_lt size hPos
  rw [pagesHolding]
  split_ifs with hPart
  · rw [show size + pool.pageSize - size % pool.pageSize =
        pool.pageSize * (size / pool.pageSize + 1) by rw [Nat.mul_add, Nat.mul_one]; omega,
      Nat.mul_div_cancel_left _ hPos, eq_comm, Nat.div_eq_iff hPos, Nat.add_mul, Nat.one_mul,
      Nat.mul_comm]
    omega
  · rw [Nat.add_sub_cancel, eq_comm, Nat.div_eq_iff hPos, Nat.mul_comm]
    omega

theorem pagesFor_eq_pagesHolding (hMax : size + pool.pageSize ≤ 2 ^ 64 - 1) :
    pool.pagesFor size = pool.pagesHolding size := by
  rw [pagesFor, allocAlign, Nat.mod_eq_of_lt (by split_ifs <;> omega), roundedUp_div]

theorem freeFrom_iff_row : pool.FreeFrom first n ↔ Row n pool.pageTree.pages first := by
  constructor
  · intro hFree j hj
    obtain ⟨no, hMem, hNo⟩ := hFree j hj
    rw [show first + j = no by omega]
    exact hMem
  · intro hRow j hj
    exact ⟨first + j, hRow j hj, by push_cast; rfl⟩

/-- The first `n` pages that are free in a row start at `first`. -/
def FirstFree (pool : Streams) (n first : Nat) : Prop :=
  pool.FreeFrom first n ∧ ∀ earlier < first, ¬pool.FreeFrom earlier n

theorem exists_firstFree (hFree : pool.FreeFrom first n) : ∃ first, pool.FirstFree n first := by
  have hSome : ∃ first : Nat, pool.FreeFrom first n := ⟨first, hFree⟩
  exact ⟨Nat.find hSome, Nat.find_spec hSome, fun earlier hEarlier => Nat.find_min hSome hEarlier⟩

theorem claimPages_refused (hNone : ∀ first : Nat, ¬pool.FreeFrom first n) :
    pool.claimPages n = .ok none := by
  simp only [claimPages]
  cases hSearch : search n 0 pool.pageTree.pages with
  | none => rfl
  | some found =>
      obtain ⟨no, after⟩ := found
      obtain ⟨hSuffix, hProbe⟩ := search_found hSearch
      have hRow : Row n pool.pageTree.pages no := fun j hj =>
        hSuffix.subset (mem_of_take (probe_run n no after) (by omega))
      exact absurd (freeFrom_iff_row.mpr hRow) (hNone no)

/-- Where there is a row, the pages that are taken off the tree are the first
one. -/
theorem claimPages_first (hPos : 0 < n) (hFirst : pool.FirstFree n first) :
    ∃ pages, pages.take n = List.range' first n ∧
      pool.claimPages n = (do
        let pool ← pool.unhook pages n
        return some (first, pool)) := by
  obtain ⟨hFree, hEarlier⟩ := hFirst
  obtain ⟨after, hSearch⟩ := search_first pool.pageTree.sorted hPos (freeFrom_iff_row.mp hFree)
    fun p hp hRow => hEarlier p hp (freeFrom_iff_row.mpr hRow)
  have hProbe := (search_found hSearch).2
  refine ⟨first :: after, take_of_le_probe n (by omega), ?_⟩
  simp only [claimPages, hSearch, Int.toNat_natCast]

theorem claim_none (pool : Streams) (size : Nat) :
    pool.claim none size = pool.claimDirect none size := by
  simp only [claim]
  cases hDirect : pool.claimDirect none size with
  | error e => rfl
  | ok result =>
      obtain ⟨ret, pool', ref'⟩ := result
      rcases claimDirect_none_cases hDirect with
        ⟨-, rfl, rfl, rfl⟩ | ⟨rfl, rfl, rfl⟩ | ⟨-, rfl, made, rfl, -⟩ <;> rfl

/-- What first fit asks of a claim of `size` bytes without a stream. -/
structure FirstFit (pool : Streams) (size : Nat) : Prop where
  succeeds : (∃ pool' ref, pool.claim none size = .ok (true, pool', ref)) ↔
    ∃ first : Nat, pool.FreeFrom first (pool.pagesHolding size)
  refused : (∀ first : Nat, ¬pool.FreeFrom first (pool.pagesHolding size)) →
    pool.claim none size = .ok (false, pool, none)
  served : ∀ first, pool.FirstFree (pool.pagesHolding size) first →
    ∃ pool' stream, pool.claim none size = .ok (true, pool', some stream) ∧
      Takes pool pool' first (pool.pagesHolding size) ∧
      pool.references = stream.slot :: pool'.references ∧ stream.pageNo = first ∧
      stream.pageCount = pool.pagesHolding size ∧ stream.len = size ∧
      stream.buf = pool.page first

theorem claim_refused (hSize : 1 ≤ size) (hMax : size + pool.pageSize ≤ 2 ^ 64 - 1)
    (hNone : ∀ first : Nat, ¬pool.FreeFrom first (pool.pagesHolding size)) :
    pool.claim none size = .ok (false, pool, none) := by
  rw [← pagesFor_eq_pagesHolding hMax] at hNone
  rw [claim_none]
  simp only [claimDirect]
  rw [if_neg (by omega), claimPages_refused hNone]
  split_ifs <;> rfl

theorem pagesHolding_pos (hSize : 1 ≤ size) : 0 < pool.pagesHolding size :=
  Nat.div_pos (by omega) pool.pageSize_pos

/-- What a claim comes to where there is a row: it takes the pages of the first
one off the tree, which works if they pass the check. -/
theorem claim_eq_unhook (hSize : 1 ≤ size) (hMax : size + pool.pageSize ≤ 2 ^ 64 - 1)
    (hFirst : pool.FirstFree (pool.pagesHolding size) first) :
    ∃ pages, pages.take (pool.pagesHolding size) = List.range' first (pool.pagesHolding size) ∧
      pool.claim none size = (do
        let pool' ← pool.unhook pages (pool.pagesHolding size)
        let (pool', stream) ← pool'.get
        return (true, pool', some (pool'.extend stream first (pool.pagesHolding size) size))) := by
  have hPos : 0 < pool.pagesHolding size := pagesHolding_pos hSize
  obtain ⟨pages, hRun, hClaim⟩ := claimPages_first hPos hFirst
  refine ⟨pages, hRun, ?_⟩
  have hTree : pool.pageTree.pages ≠ [] :=
    List.ne_nil_of_mem (freeFrom_iff_row.mp hFirst.1 0 hPos)
  rw [claim_none]
  simp only [claimDirect]
  rw [if_neg (by omega), if_neg hTree, pagesFor_eq_pagesHolding hMax, hClaim, bind_assoc]
  rfl

theorem claim_served (hSize : 1 ≤ size) (hMax : size + pool.pageSize ≤ 2 ^ 64 - 1)
    (hLeft : pool.references ≠ []) (hFirst : pool.FirstFree (pool.pagesHolding size) first)
    (hIntact : ∀ j < pool.pagesHolding size, pool.intact (first + j)) :
    ∃ pool' stream, pool.claim none size = .ok (true, pool', some stream) ∧
      Takes pool pool' first (pool.pagesHolding size) ∧
      pool.references = stream.slot :: pool'.references ∧ stream.pageNo = first ∧
      stream.pageCount = pool.pagesHolding size ∧ stream.len = size ∧
      stream.buf = pool.page first := by
  obtain ⟨pages, hRun, hClaim⟩ := claim_eq_unhook hSize hMax hFirst
  obtain ⟨next, hUnhook⟩ := unhook_ok hRun hIntact
  have hTakes := unhook_takes hRun (freeFrom_iff_row.mp hFirst.1) hUnhook
  have hRefs := unhook_references hUnhook
  rw [hUnhook] at hClaim
  cases hSlots : pool.references with
  | nil => exact absurd hSlots hLeft
  | cons slot rest =>
      have hGet : next.get = .ok ({ next with references := rest }, ⟨slot, 0, 0, 0, 0⟩) := by
        rw [get, hRefs.trans hSlots]
      refine ⟨{ next with references := rest },
        extend { next with references := rest } ⟨slot, 0, 0, 0, 0⟩ first (pool.pagesHolding size)
          size, hClaim.trans ?_, ?_, rfl, rfl, ?_, ?_, ?_⟩
      · simp only [bind, Except.bind, hGet]
        rfl
      · exact ⟨⟨hTakes.area.pageCount, hTakes.area.pageSize⟩, hTakes.free, hTakes.tree, hTakes.mem⟩
      · exact Int.zero_add _
      · simp only [extend]
        omega
      · exact hTakes.area.page first

/-- A claim is first fit exactly if the pages of the first row pass the check. -/
theorem firstFit_iff_intact (hSize : 1 ≤ size) (hMax : size + pool.pageSize ≤ 2 ^ 64 - 1)
    (hLeft : pool.references ≠ []) :
    pool.FirstFit size ↔ ∀ first, pool.FirstFree (pool.pagesHolding size) first →
      ∀ j < pool.pagesHolding size, pool.intact (first + j) := by
  constructor
  · intro hFit first hFirst
    obtain ⟨pages, hRun, hClaim⟩ := claim_eq_unhook hSize hMax hFirst
    obtain ⟨pool', stream, hServed, -⟩ := hFit.served first hFirst
    obtain ⟨next, hUnhook, -⟩ := bind_eq_ok (hClaim.symm.trans hServed)
    exact intact_of_unhook hRun hUnhook
  · intro hIntact
    refine ⟨⟨?_, ?_⟩, claim_refused hSize hMax, ?_⟩
    · intro hClaim
      obtain ⟨pool', ref, hClaim⟩ := hClaim
      by_contra hNone
      rw [claim_refused hSize hMax (not_exists.mp hNone)] at hClaim
      cases hClaim
    · intro hFree
      obtain ⟨start, hFree⟩ := hFree
      obtain ⟨first, hFirst⟩ := exists_firstFree hFree
      obtain ⟨pool', stream, hClaim, -⟩ :=
        claim_served hSize hMax hLeft hFirst (hIntact first hFirst)
      exact ⟨pool', some stream, hClaim⟩
    · exact fun first hFirst => claim_served hSize hMax hLeft hFirst (hIntact first hFirst)

end Fit

end Streams

namespace Session

variable {s s' : Session}

theorem unharmed_step {call : Call} (hOwned : Owned s) (hUnharmed : s.pool.Unharmed)
    (hKeeps : s.KeepsOff call) (hStep : s.step call = .ok s') : s'.pool.Unharmed := by
  cases call with
  | claim r size =>
      obtain ⟨⟨ret, pool', ref'⟩, hClaim, hEnd⟩ := bind_eq_ok hStep
      cases hEnd
      exact Streams.unharmed_claim hUnharmed hKeeps hClaim
  | release r size =>
      obtain ⟨⟨pool', ref'⟩, hRelease, hEnd⟩ := bind_eq_ok hStep
      cases hEnd
      exact Streams.unharmed_release hUnharmed hRelease
  | write r off bytes =>
      simp only [step] at hStep
      split at hStep
      · cases hStep
      · next stream hRef =>
        cases hStep
        apply Streams.unharmed_write hUnharmed
        intro i hLow hHigh
        rw [List.length_map] at hHigh
        have hHolds := hKeeps stream hRef (i - (stream.buf + off)) (by omega)
        rw [show stream.buf + off + (i - (stream.buf + off)) = i by omega] at hHolds
        exact hOwned.free_apart r _ ⟨stream, hRef, hHolds⟩

/-- In a run that keeps off foreign pages every free page passes the check. -/
theorem unharmed_of_keepsOff {pageCount pageSize : Nat} {granted : Bool} {pool : Streams}
    (hInit : Streams.init pageCount pageSize granted = .ok (some pool))
    (hRun : Reached step (fun s call => s.Promised call ∧ s.KeepsOff call) (start pool) s) :
    s.pool.Unharmed := by
  have hInv : Owned s ∧ s.pool.Unharmed := by
    apply hRun.invariant (fun s => Owned s ∧ s.pool.Unharmed)
      ⟨owned_start hInit, Streams.unharmed_init hInit⟩
    intro s call s' hInv hAdmitted hStep
    exact ⟨owned_step hInv.1 hAdmitted.1 hStep,
      unharmed_step hInv.1 hInv.2 hAdmitted.2 hStep⟩
  exact hInv.2

theorem fit_of_unharmed {pool : Streams} {size : Nat} (hUnharmed : pool.Unharmed)
    (hSize : 1 ≤ size) (hMax : size + pool.pageSize ≤ 2 ^ 64 - 1) (hLeft : pool.references ≠ []) :
    pool.FirstFit size := by
  apply (Streams.firstFit_iff_intact hSize hMax hLeft).mpr
  intro first hFirst j hj
  exact hUnharmed _ (Streams.freeFrom_iff_row.mp hFirst.1 j hj)

/-- Buffers inside their pages are written to there. -/
theorem keepsOff_of_inside {call : Call} (hInside : AllInside s) (hPromised : s.Promised call) :
    s.KeepsOff call := by
  cases call with
  | claim r size =>
      intro stream hRef hRelocates
      -- A relocation asks for more pages than the stream has.
      have hMore : stream.pageCount < s.pool.pagesFor ((stream.len + size) % 2 ^ 64) := by
        by_contra hEnough
        apply hRelocates.2
        intro j hj
        rw [Streams.lacking, Nat.add_comm size] at hj
        omega
      have hLow := (hInside r stream hRef).low
      have hHigh := (hInside r stream hRef).high
      rw [Streams.page] at hLow
      rw [Int.add_mul] at hHigh
      have hLe : (stream.pageCount * s.pool.pageSize : Int) ≤
          s.pool.pagesFor ((stream.len + size) % 2 ^ 64) * s.pool.pageSize :=
        Int.mul_le_mul_of_nonneg_right (Int.le_of_lt hMore) (by omega)
      omega
  | write r off bytes =>
      intro stream hRef k hk
      have hLen := hPromised stream hRef
      exact holds_pageOf (hInside r stream hRef) (by omega) (by omega)
  | release r size => trivial

/-- Runs whose claims fit keep off foreign pages. -/
theorem reached_keepsOff {pageCount pageSize : Nat} {granted : Bool} {pool : Streams}
    (hInit : Streams.init pageCount pageSize granted = .ok (some pool))
    (hRun : Reached step (fun s call => s.Promised call ∧ s.CallFits call) (start pool) s) :
    Reached step (fun s call => s.Promised call ∧ s.KeepsOff call) (start pool) s ∧
      Owned s ∧ AllInside s := by
  induction hRun with
  | start => exact ⟨.start, owned_start hInit, fun r stream hRef => by cases hRef⟩
  | step prior hAdmitted hStep ih =>
      obtain ⟨hReached, hOwned, hInside⟩ := ih
      have hKeeps := keepsOff_of_inside hInside hAdmitted.1
      exact ⟨hReached.step ⟨hAdmitted.1, hKeeps⟩ hStep, owned_step hOwned hAdmitted.1 hStep,
        allInside_step hOwned hInside hAdmitted.1 hAdmitted.2 hStep⟩

/-- In a run whose claims fit all claims without a stream are first fit. -/
theorem firstFit_of_fits {pageCount pageSize size : Nat} {granted : Bool} {pool : Streams}
    (hInit : Streams.init pageCount pageSize granted = .ok (some pool))
    (hRun : Reached step (fun s call => s.Promised call ∧ s.CallFits call) (start pool) s)
    (hSize : 1 ≤ size) (hMax : size + s.pool.pageSize ≤ 2 ^ 64 - 1)
    (hLeft : s.pool.references ≠ []) : s.pool.FirstFit size :=
  fit_of_unharmed (unharmed_of_keepsOff hInit (reached_keepsOff hInit hRun).1) hSize hMax hLeft

end Session

end Peak
