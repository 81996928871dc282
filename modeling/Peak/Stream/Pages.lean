import Peak.Stream.Pool

/-! What the page operations do to the set of free pages and to the page
memory. Claims take consecutive pages out of the tree, releases put
consecutive pages back; both write only to pages that are free before or
after. -/
namespace Peak

open Cells

namespace Tree

theorem mem_remove {tree : Tree} {page i : Nat} :
    i ∈ (tree.remove page).pages ↔ i ∈ tree.pages ∧ i ≠ page := by
  simp only [remove, tree.nodup.mem_erase_iff, and_comm]

theorem insert_eq_some {tree tree' : Tree} {page : Nat} (h : tree.insert page = some tree') :
    page ∉ tree.pages ∧ ∀ i, i ∈ tree'.pages ↔ i = page ∨ i ∈ tree.pages := by
  simp only [insert] at h
  split_ifs at h with hFresh
  refine ⟨hFresh, fun i => ?_⟩
  cases h
  exact List.mem_orderedInsert _

end Tree

namespace Streams

variable {pool pool' pool'' : Streams}

theorem pageSize_pos (pool : Streams) : 0 < pool.pageSize := by
  have := pool.large
  simp only [pageHeaderSize] at this
  omega

theorem pageSize_lt (pool : Streams) : pool.pageSize < 2 ^ 64 := by
  have hLe : 1 * pool.pageSize ≤ pool.pageCount * pool.pageSize :=
    Nat.mul_le_mul_right _ (Nat.one_le_iff_ne_zero.mpr pool.nonempty)
  have := pool.fits
  simp only [malignLimit] at this
  omega

/-- The same pages in the same memory area. -/
structure SameArea (pool pool' : Streams) : Prop where
  pageCount : pool'.pageCount = pool.pageCount
  pageSize : pool'.pageSize = pool.pageSize

theorem SameArea.refl (pool : Streams) : SameArea pool pool := ⟨rfl, rfl⟩

theorem SameArea.trans (h : SameArea pool pool') (h' : SameArea pool' pool'') :
    SameArea pool pool'' :=
  ⟨h'.pageCount.trans h.pageCount, h'.pageSize.trans h.pageSize⟩

theorem SameArea.page (h : SameArea pool pool') (no : Nat) : pool'.page no = pool.page no := by
  simp only [Streams.page, h.pageSize]

/-- The page that holds a byte of the page memory. -/
def pageOf (pool : Streams) (i : Nat) : Nat := i / pool.pageSize

theorem pageOf_eq_iff (pool : Streams) (i no : Nat) :
    pool.pageOf i = no ↔ pool.page no ≤ i ∧ i < pool.page no + pool.pageSize := by
  simp only [pageOf, page]
  rw [Nat.div_eq_iff pool.pageSize_pos]
  have := pool.pageSize_pos
  omega

/-- The pages `[first, first + count)` leave the tree. Bytes change in pages
that were free only. -/
structure Takes (pool pool' : Streams) (first count : Nat) : Prop where
  area : SameArea pool pool'
  free : ∀ j < count, first + j ∈ pool.pageTree.pages
  tree : ∀ i, i ∈ pool'.pageTree.pages ↔
    i ∈ pool.pageTree.pages ∧ ¬(first ≤ i ∧ i < first + count)
  mem : ∀ i, pool.pageOf i ∉ pool.pageTree.pages → pool'.pageMem i = pool.pageMem i

/-- The pages `[first, first + count)` enter the tree. Bytes change in these
pages and in free pages only. -/
structure Gives (pool pool' : Streams) (first count : Nat) : Prop where
  area : SameArea pool pool'
  used : ∀ j < count, first + j ∉ pool.pageTree.pages
  tree : ∀ i, i ∈ pool'.pageTree.pages ↔
    i ∈ pool.pageTree.pages ∨ (first ≤ i ∧ i < first + count)
  mem : ∀ i, pool.pageOf i ∉ pool'.pageTree.pages → pool'.pageMem i = pool.pageMem i

theorem Takes.none (pool : Streams) (first : Nat) : Takes pool pool first 0 :=
  ⟨.refl pool, by omega, fun i => by constructor <;> intro h <;> [exact ⟨h, by omega⟩; exact h.1],
    fun _ _ => rfl⟩

theorem Gives.none (pool : Streams) (first : Nat) : Gives pool pool first 0 :=
  ⟨.refl pool, by omega, fun i => ⟨.inl, fun h => h.resolve_right (by omega)⟩, fun _ _ => rfl⟩

theorem remove_takes {no : Nat} (hFree : no ∈ pool.pageTree.pages) :
    Takes pool (pool.remove no) no 1 where
  area := ⟨rfl, rfl⟩
  free := by
    intro j hj
    rwa [show no + j = no by omega]
  tree := by
    intro i
    rw [show (pool.remove no).pageTree = pool.pageTree.remove no from rfl, Tree.mem_remove]
    exact and_congr_right fun _ => by omega
  mem := by
    intro i hi
    exact if_neg fun h => hi h.1

/-- Taking a page and then the ones behind it. -/
theorem Takes.succ {first count : Nat} (hFirst : Takes pool pool' first 1)
    (hRest : Takes pool' pool'' (first + 1) count) : Takes pool pool'' first (count + 1) where
  area := hFirst.area.trans hRest.area
  free := by
    intro j hj
    rcases Nat.eq_zero_or_pos j with rfl | hPos
    · exact hFirst.free 0 (by omega)
    · have hNext := hRest.free (j - 1) (by omega)
      rw [hFirst.tree, show first + 1 + (j - 1) = first + j by omega] at hNext
      exact hNext.1
  tree := by
    intro i
    rw [hRest.tree, hFirst.tree, and_assoc]
    exact and_congr_right fun _ => by omega
  mem := by
    intro i hi
    rw [hRest.mem i, hFirst.mem i hi]
    intro hMem
    simp only [pageOf, hFirst.area.pageSize] at hMem
    exact hi ((hFirst.tree _).mp hMem).1

/-- Giving a page and then the ones behind it. -/
theorem Gives.succ {first count : Nat} (hFirst : Gives pool pool' first 1)
    (hRest : Gives pool' pool'' (first + 1) count) : Gives pool pool'' first (count + 1) where
  area := hFirst.area.trans hRest.area
  used := by
    intro j hj hMem
    rcases Nat.eq_zero_or_pos j with rfl | hPos
    · exact hFirst.used 0 (by omega) hMem
    · refine hRest.used (j - 1) (by omega) ((hFirst.tree _).mpr (.inl ?_))
      rwa [show first + 1 + (j - 1) = first + j by omega]
  tree := by
    intro i
    rw [hRest.tree, hFirst.tree, or_assoc]
    exact or_congr_right (by omega)
  mem := by
    intro i hi
    have hSame : pool'.pageOf i = pool.pageOf i := by
      simp only [pageOf, hFirst.area.pageSize]
    rw [hRest.mem i (hSame.symm ▸ hi), hFirst.mem i]
    exact fun hMem => hi ((hRest.tree _).mpr (.inl hMem))

/-- Unhooking consecutive free pages takes them. -/
theorem unhook_takes {pages : List Nat} {first count : Nat}
    (hRun : pages.take count = List.range' first count)
    (hFree : ∀ j < count, first + j ∈ pool.pageTree.pages)
    (h : pool.unhook pages count = .ok pool') : Takes pool pool' first count := by
  induction count generalizing pool pages first with
  | zero =>
      cases pages <;> cases h <;> exact .none _ first
  | succ count ih =>
      cases pages with
      | nil => cases h
      | cons no rest =>
          rw [List.take_succ_cons, List.range'_succ, List.cons.injEq] at hRun
          obtain ⟨rfl, hRest⟩ := hRun
          have hFirst := remove_takes (hFree 0 (by omega))
          simp only [unhook] at h
          split_ifs at h
          refine hFirst.succ (ih hRest ?_ h)
          intro j hj
          refine (hFirst.tree _).mpr ⟨?_, by omega⟩
          have := hFree (j + 1) (by omega)
          rwa [show no + 1 + j = no + (j + 1) by omega]

/-- The pages that the probe counted follow one another. -/
theorem probeFrom_run (base : Nat) (stop : Int) : ∀ (pages : List Nat) (count : Nat),
    ∃ c, probeFrom base stop count pages = count + c ∧
      pages.take c = List.range' (base + count) c ∧ c ≤ pages.length := by
  intro pages
  induction pages with
  | nil => exact fun count => ⟨0, rfl, rfl, Nat.le_refl _⟩
  | cons next rest ih =>
      intro count
      simp only [probeFrom]
      split_ifs with hStop hNext
      · exact ⟨0, rfl, rfl, Nat.zero_le _⟩
      · exact ⟨0, rfl, rfl, Nat.zero_le _⟩
      · obtain ⟨c, hProbe, hRun, hLen⟩ := ih (count + 1)
        refine ⟨c + 1, by omega, ?_, by simpa using hLen⟩
        rw [List.take_succ_cons, List.range'_succ, hRun, not_not.mp hNext, Nat.add_assoc]

theorem probe_run (stop : Int) (no : Nat) (rest : List Nat) :
    (no :: rest).take (probe stop (no :: rest)) = List.range' no (probe stop (no :: rest)) := by
  obtain ⟨c, hProbe, hRun, -⟩ := probeFrom_run no stop (no :: rest) 0
  simp only [probe]
  rw [hProbe, Nat.zero_add]
  exact hRun

/-- The first `n` pages follow one another once the probe counts that many. -/
theorem take_of_le_probe (stop : Int) {no n : Nat} {rest : List Nat}
    (hLe : n ≤ probe stop (no :: rest)) : (no :: rest).take n = List.range' no n := by
  have hRun := congrArg (List.take n) (probe_run stop no rest)
  rwa [List.take_take, Nat.min_eq_left hLe, List.take_range'_of_length_ge hLe] at hRun

theorem mem_of_take {pages : List Nat} {no n : Nat} (hRun : pages.take n = List.range' no n)
    {j : Nat} (hj : j < n) : no + j ∈ pages := by
  apply List.mem_of_mem_take (i := n)
  rw [hRun]
  exact List.mem_range'_1.mpr ⟨by omega, by omega⟩

/-- The probe counts free pages in a row up to its limit. -/
theorem le_probeFrom {base : Nat} {stop : Int} {n : Nat} : ∀ (pages : List Nat) (count : Nat),
    pages.take n = List.range' (base + count) n → n ≤ pages.length → (count + n : Int) ≤ stop →
      count + n ≤ probeFrom base stop count pages := by
  induction n with
  | zero =>
      intro pages count _ _ _
      obtain ⟨c, hProbe, -⟩ := probeFrom_run base stop pages count
      omega
  | succ n ih =>
      intro pages count hRun hLen hStop
      cases pages with
      | nil => simp at hLen
      | cons next rest =>
          rw [List.take_succ_cons, List.range'_succ, List.cons.injEq] at hRun
          have hRest := ih rest (count + 1) (by rw [hRun.2, Nat.add_assoc])
            (by simpa using hLen) (by push_cast; omega)
          simp only [probeFrom]
          rw [if_neg (by omega), if_neg (not_not.mpr hRun.1)]
          omega

/-- In an ordered list that starts with `no`, pages in a row stand in a row. -/
theorem take_of_mem {no n : Nat} : ∀ {rest : List Nat}, (no :: rest).Pairwise (· < ·) →
    (∀ j < n, no + j ∈ no :: rest) → (no :: rest).take n = List.range' no n := by
  induction n generalizing no with
  | zero => exact fun _ _ => rfl
  | succ n ih =>
      intro rest hSorted hMem
      rw [List.take_succ_cons, List.range'_succ]
      congr 1
      cases n with
      | zero => rfl
      | succ n =>
          have hNext := hMem 1 (by omega)
          cases rest with
          | nil => simp at hNext
          | cons next rest =>
              rw [List.pairwise_cons] at hSorted
              have hLt := hSorted.1 next List.mem_cons_self
              have hSecond := hSorted.2
              rw [List.pairwise_cons] at hSecond
              have hEq : next = no + 1 := by
                simp only [List.mem_cons] at hNext
                rcases hNext with h | h | h
                · omega
                · exact h.symm
                · have := hSecond.1 _ h
                  omega
              subst hEq
              apply ih hSorted.2
              intro j hj
              have hFree := hMem (j + 1) (by omega)
              rw [List.mem_cons, show no + (j + 1) = no + 1 + j by omega] at hFree
              exact hFree.resolve_left (by omega)

end Streams

namespace Tree

/-- A page that was found is the one that was asked for, and everything from it
on is free. -/
theorem find_eq_cons {tree : Tree} {index : Int} {no : Nat} {rest : List Nat}
    (h : tree.find index = no :: rest) : (no : Int) = index ∧ no :: rest <:+ tree.pages := by
  have hSuffix : tree.find index <:+ tree.pages := List.dropWhile_suffix _
  refine ⟨?_, h ▸ hSuffix⟩
  have hHead := List.head?_dropWhile_not (fun page : Nat => decide ((page : Int) ≠ index)) tree.pages
  simp only [find] at h
  simpa only [h, List.head?_cons, decide_eq_false_iff_not, not_not] using hHead

theorem find_of_mem {tree : Tree} {no : Nat} (hMem : no ∈ tree.pages) :
    ∃ rest, tree.find no = no :: rest := by
  cases hFind : tree.find no with
  | nil =>
      have hAll := List.takeWhile_append_dropWhile (p := fun page : Nat => decide ((page : Int) ≠ no))
        (l := tree.pages)
      simp only [find] at hFind
      rw [hFind, List.append_nil] at hAll
      have hEvery := List.all_takeWhile (p := fun page : Nat => decide ((page : Int) ≠ no))
        (l := tree.pages)
      rw [hAll, List.all_eq_true] at hEvery
      simpa using hEvery no hMem
  | cons first rest =>
      have hEq := (find_eq_cons hFind).1
      exact ⟨rest, by rw [show first = no by omega]⟩

end Tree

namespace Streams

variable {pool pool' pool'' : Streams}

/-- The first `n` pages from an index on are free. -/
def FreeFrom (pool : Streams) (index : Int) (n : Nat) : Prop :=
  ∀ j < n, ∃ no ∈ pool.pageTree.pages, (no : Int) = index + j

instance (pool : Streams) (index : Int) (n : Nat) : Decidable (pool.FreeFrom index n) :=
  inferInstanceAs (Decidable (∀ _ < _, ∃ _ ∈ _, _))

/-- The probe behind a stream succeeds exactly if the wanted pages are free. -/
theorem le_probe_find_iff (pool : Streams) (index n : Int) :
    n ≤ probe n (pool.pageTree.find index) ↔ pool.FreeFrom index n.toNat := by
  constructor
  · intro hLe j hj
    cases hFind : pool.pageTree.find index with
    | nil =>
        rw [hFind] at hLe
        simp only [probe] at hLe
        omega
    | cons no rest =>
        obtain ⟨hNo, hSuffix⟩ := Tree.find_eq_cons hFind
        rw [hFind] at hLe
        refine ⟨no + j, hSuffix.subset (mem_of_take (probe_run n no rest) (by omega)), by omega⟩
  · intro hFree
    rcases lt_or_ge 0 n with hPos | hNeg
    swap
    · omega
    obtain ⟨no, hMem, hNo⟩ := hFree 0 (by omega)
    obtain rfl : index = no := by omega
    obtain ⟨rest, hFind⟩ := Tree.find_of_mem hMem
    have hSuffix := (Tree.find_eq_cons hFind).2
    have hSorted := pool.pageTree.sorted.sublist hSuffix.sublist
    have hAll : ∀ j < n.toNat, no + j ∈ no :: rest := by
      intro j hj
      obtain ⟨no', hMem', hNo'⟩ := hFree j hj
      obtain rfl : no' = no + j := by omega
      obtain ⟨before, hPages⟩ := hSuffix
      rw [← hPages] at hMem'
      rcases List.mem_append.mp hMem' with hBefore | hHere
      · have hLt := (hPages ▸ pool.pageTree.sorted : (before ++ no :: rest).Pairwise (· < ·))
        have := (List.pairwise_append.mp hLt).2.2 _ hBefore no List.mem_cons_self
        omega
      · exact hHere
    have hRun := take_of_mem hSorted hAll
    have hLen : n.toNat ≤ (no :: rest).length := by
      have := congrArg List.length hRun
      simp only [List.length_take, List.length_range'] at this
      omega
    have hProbe : 0 + n.toNat ≤ probeFrom no n 0 (no :: rest) :=
      le_probeFrom _ _ hRun hLen (by omega)
    rw [hFind]
    simp only [probe]
    omega

theorem unhook_references {pages : List Nat} {count : Nat}
    (h : pool.unhook pages count = .ok pool') : pool'.references = pool.references := by
  induction count generalizing pool pages with
  | zero => cases pages <;> cases h <;> rfl
  | succ count ih =>
      cases pages with
      | nil => cases h
      | cons no rest =>
          simp only [unhook] at h
          split_ifs at h
          have hRest := ih h
          exact hRest

/-- What `__peak_stream_reclaim` returns. -/
theorem reclaimPages_cases {stream : Stream} {n : Int} {r : Option (Nat × Streams)}
    (h : pool.reclaimPages stream n = .ok r) :
    (r = none ∧ ¬pool.FreeFrom (stream.pageNo + stream.pageCount) n.toNat) ∨
    ∃ (pool' : Streams) (first : Nat), r = some (stream.pageNo, pool') ∧
      pool.FreeFrom (stream.pageNo + stream.pageCount) n.toNat ∧
      (n ≤ 0 ∨ (first : Int) = stream.pageNo + stream.pageCount) ∧
      Takes pool pool' first n.toNat ∧ pool'.references = pool.references := by
  simp only [reclaimPages] at h
  split_ifs at h with hBlocked
  · cases h
    exact .inl ⟨rfl, fun hFree => not_le.mpr hBlocked ((pool.le_probe_find_iff _ n).mpr hFree)⟩
  · have hFree := (pool.le_probe_find_iff _ n).mp (not_lt.mp hBlocked)
    cases hUnhook : pool.unhook (pool.pageTree.find (stream.pageNo + stream.pageCount)) n.toNat with
    | error e =>
        rw [hUnhook] at h
        cases h
    | ok pool' =>
        rw [hUnhook] at h
        cases h
        refine .inr ⟨pool', (stream.pageNo + stream.pageCount).toNat, rfl, hFree, ?_, ?_,
          unhook_references hUnhook⟩
        · by_cases hPos : 0 < n
          · obtain ⟨no, -, hNo⟩ := hFree 0 (by omega)
            omega
          · omega
        · cases hFind : pool.pageTree.find (stream.pageNo + stream.pageCount) with
          | nil =>
              rw [hFind] at hBlocked hUnhook
              simp only [probe] at hBlocked
              rw [show n.toNat = 0 by omega] at hUnhook ⊢
              cases hUnhook
              exact .none _ _
          | cons no rest =>
              obtain ⟨hNo, hSuffix⟩ := Tree.find_eq_cons hFind
              rw [hFind] at hBlocked hUnhook
              have hRun := take_of_le_probe n (show n.toNat ≤ probe n (no :: rest) by omega)
              rw [show (stream.pageNo + stream.pageCount).toNat = no by omega]
              exact unhook_takes hRun (fun j hj => hSuffix.subset (mem_of_take hRun hj)) hUnhook

/-- What the search of `__peak_stream_claim` finds. -/
theorem search_found {n : Int} {no : Nat} {rest : List Nat} : ∀ {pages : List Nat} {skip : Nat},
    search n skip pages = some (no, rest) →
      no :: rest <:+ pages ∧ n ≤ probe n (no :: rest) := by
  intro pages
  induction pages with
  | nil =>
      intro skip h
      cases skip <;> cases h
  | cons head tail ih =>
      intro skip h
      cases skip with
      | succ skip =>
          obtain ⟨hSuffix, hProbe⟩ := ih h
          exact ⟨hSuffix.trans (List.suffix_cons _ _), hProbe⟩
      | zero =>
          simp only [search] at h
          split_ifs at h with hFits
          · cases h
            exact ⟨List.suffix_refl _, hFits⟩
          · obtain ⟨hSuffix, hProbe⟩ := ih h
            exact ⟨hSuffix.trans (List.suffix_cons _ _), hProbe⟩

/-- What `__peak_stream_claim` returns. -/
theorem claimPages_cases {n : Nat} {r : Option (Nat × Streams)}
    (h : pool.claimPages n = .ok r) :
    r = none ∨ ∃ no pool', r = some (no, pool') ∧ no ∈ pool.pageTree.pages ∧
      Takes pool pool' no n ∧ pool'.references = pool.references := by
  simp only [claimPages] at h
  cases hSearch : search n 0 pool.pageTree.pages with
  | none =>
      rw [hSearch] at h
      cases h
      exact .inl rfl
  | some found =>
      obtain ⟨no, rest⟩ := found
      rw [hSearch] at h
      obtain ⟨hSuffix, hProbe⟩ := search_found hSearch
      cases hUnhook : pool.unhook (no :: rest) n with
      | error e =>
          simp only [Int.toNat_natCast, hUnhook] at h
          cases h
      | ok pool' =>
          simp only [Int.toNat_natCast, hUnhook] at h
          cases h
          have hRun := take_of_le_probe n (show n ≤ probe n (no :: rest) by omega)
          exact .inr ⟨no, pool', rfl, hSuffix.subset List.mem_cons_self,
            unhook_takes hRun (fun j hj => hSuffix.subset (mem_of_take hRun hj)) hUnhook,
            unhook_references hUnhook⟩

/-- A write that stays in one page. -/
theorem write_pageOf (pool : Streams) (no : Nat) {cells : List (Option UInt8)}
    {m : Nat → Option UInt8} {at_ i : Nat}
    (hLow : pool.page no ≤ at_) (hHigh : at_ + cells.length ≤ pool.page no + pool.pageSize)
    (hi : pool.pageOf i ≠ no) : write m at_ cells i = m i := by
  rw [Ne, pageOf_eq_iff] at hi
  exact write_outside (by omega)

/-- `_peak_stream_release` gives one page. -/
theorem releasePage_gives {no : Nat} (h : pool.releasePage no = .ok pool') :
    Gives pool pool' no 1 ∧ pool'.references = pool.references := by
  simp only [releasePage] at h
  cases hInsert : (pool.setup no).pageTree.insert no with
  | none =>
      rw [hInsert] at h
      cases h
  | some tree =>
      rw [hInsert] at h
      cases h
      obtain ⟨hFresh, hTree⟩ := Tree.insert_eq_some hInsert
      refine ⟨⟨⟨rfl, rfl⟩, ?_, ?_, ?_⟩, rfl⟩
      · intro j hj
        rwa [show no + j = no by omega]
      · intro i
        rw [hTree, or_comm]
        exact or_congr_right (by omega)
      · intro i hi
        have hOther : pool.pageOf i ≠ no := fun hEq => hi (hEq ▸ (hTree no).mpr (.inl rfl))
        have hLarge := pool.large
        simp only [pageHeaderSize] at hLarge
        have hKept : (pool.setup no).relink tree.pages i = (pool.setup no).pageMem i :=
          if_neg fun hLink => hi hLink.1
        refine hKept.trans ?_
        simp only [setup, tail]
        rw [write_pageOf pool no, write_pageOf pool no, write_pageOf pool no]
        all_goals first | exact hOther | (simp only [le64, List.length_map, List.length_range]; omega) | omega

end Streams

end Peak
