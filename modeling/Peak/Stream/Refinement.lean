import Peak.Stream.FirstFit
import Peak.Stream.Memory
import Peak.Stream.Panics

/-! What calls do to the pool in memory is what they do to the pool of lists, as
long as nobody writes to free pages: then the bytes of these pages are what
`_peak_stream_release` and the tree have left there, and the tree is in the order
of the page numbers. -/
namespace Peak.Streams

open Cells Run RedBlack

section Marked

variable {pool pool' : Streams} {no : Nat}

/-- Index and links of a free page are as they were left. -/
structure Marked (pool : Streams) (no : Nat) : Prop where
  index : read pool.pageMem (pool.page no + 8) 8 = le64 no
  links : ∀ k, 16 ≤ k → k < 48 → pool.pageMem (pool.page no + k) = none

/-- The place of a byte of a page header. -/
theorem place_in_page (pool : Streams) (no : Nat) {k : Nat} (hk : k < 56) :
    pool.pageOf (pool.page no + k) = no ∧ (pool.page no + k) % pool.pageSize = k := by
  have hLarge := pool.large
  simp only [pageHeaderSize] at hLarge
  constructor
  · rw [pageOf_eq_iff]
    omega
  · rw [page, Nat.mul_comm, Nat.mul_add_mod, Nat.mod_eq_of_lt (by omega)]

/-- Bytes may only change in the links, and to something new. -/
theorem Marked.congr (h : Marked pool no) (hArea : SameArea pool pool')
    (hMem : ∀ k, 8 ≤ k → k < 48 →
      pool'.pageMem (pool.page no + k) = pool.pageMem (pool.page no + k) ∨
        (16 ≤ k ∧ pool'.pageMem (pool.page no + k) = none)) : Marked pool' no := by
  constructor
  · rw [hArea.page, ← h.index]
    apply read_congr
    intro i hLow hHigh
    obtain ⟨k, rfl⟩ := Nat.exists_eq_add_of_le (show pool.page no ≤ i by omega)
    exact (hMem k (by omega) (by omega)).resolve_right fun hLink => by omega
  · intro k hLow hHigh
    rw [hArea.page]
    rcases hMem k (by omega) hHigh with hSame | ⟨-, hNew⟩
    · exact hSame.trans (h.links k hLow hHigh)
    · exact hNew

theorem Marked.relink (h : Marked pool no) {pages : List Nat} {tree : Tree} :
    Marked { pool with pageTree := tree, pageMem := pool.relink pages } no := by
  refine h.congr ⟨rfl, rfl⟩ fun k hLow hHigh => ?_
  obtain ⟨-, hMod⟩ := place_in_page pool no (show k < 56 by omega)
  show pool.relink pages _ = _ ∨ _ ∧ pool.relink pages _ = _
  simp only [Streams.relink, hMod]
  split_ifs with hLink
  · exact .inr ⟨hLink.2.1, rfl⟩
  · exact .inl rfl

/-- To write to other pages does no harm. -/
theorem Marked.write (h : Marked pool no) {start : Nat} {cells : List (Option UInt8)}
    (hOff : ∀ i, start ≤ i → i < start + cells.length → pool.pageOf i ≠ no) :
    Marked { pool with pageMem := Cells.write pool.pageMem start cells } no := by
  refine h.congr ⟨rfl, rfl⟩ fun k hLow hHigh => .inl ?_
  have hPlace := (place_in_page pool no (show k < 56 by omega)).1
  apply write_outside
  by_contra hInside
  exact hOff _ (by omega) (by omega) hPlace

/-- Setting up a page does no harm to others. -/
theorem Marked.setup (h : Marked pool no) {other : Nat} (hOther : other ≠ no) :
    Marked (pool.setup other) no := by
  refine h.congr ⟨rfl, rfl⟩ fun k hLow hHigh => .inl ?_
  have hPlace := (place_in_page pool no (show k < 56 by omega)).1
  have hLarge := pool.large
  simp only [pageHeaderSize] at hLarge
  have hElse : pool.pageOf (pool.page no + k) ≠ other := fun hSame => hOther (hSame.symm.trans hPlace)
  simp only [Streams.setup, tail]
  rw [write_pageOf pool other, write_pageOf pool other, write_pageOf pool other]
  all_goals first
    | exact hElse
    | (simp only [le64, List.length_map, List.length_range]; omega)
    | omega

/-- The index of a page that was set up. -/
theorem index_setup (pool : Streams) (no : Nat) :
    read (pool.setup no).pageMem (pool.page no + 8) 8 = le64 no := by
  have hLength : (le64 no).length = 8 := by rw [le64, List.length_map, List.length_range]
  rw [Streams.setup, ← hLength, read_write]

/-- Pages that are given back are marked, and others stay so. -/
theorem marked_releasePage (h : pool.releasePage no = .ok pool') :
    Marked pool' no ∧ ∀ i, Marked pool i → Marked pool' i := by
  simp only [releasePage] at h
  cases hInsert : (pool.setup no).pageTree.insert no with
  | none =>
      rw [hInsert] at h
      cases h
  | some tree =>
      rw [hInsert] at h
      cases h
      have hMem := ((Tree.insert_eq_some hInsert).2 no).mpr (.inl rfl)
      have hNew : Marked { pool.setup no with
          pageTree := tree, pageMem := (pool.setup no).relink tree.pages } no := by
        constructor
        · rw [← index_setup pool no]
          apply read_congr
          intro i hLow hHigh
          obtain ⟨k, rfl⟩ := Nat.exists_eq_add_of_le (show pool.page no ≤ i from
            Nat.le_trans (Nat.le_add_right _ 8) hLow)
          have hHigh' : pool.page no + k < pool.page no + 8 + 8 := hHigh
          obtain ⟨-, hMod⟩ := place_in_page pool no (show k < 56 by omega)
          have hOut : ¬16 ≤ (pool.page no + k) % pool.pageSize := by omega
          exact if_neg fun hLink => hOut hLink.2.1
        · intro k hLow hHigh
          obtain ⟨hPlace, hMod⟩ := place_in_page pool no (show k < 56 by omega)
          have hLink : pool.pageOf (pool.page no + k) ∈ tree.pages ∧
              16 ≤ (pool.page no + k) % pool.pageSize ∧ (pool.page no + k) % pool.pageSize < 48 := by
            rw [hPlace, hMod]
            exact ⟨hMem, hLow, hHigh⟩
          exact if_pos hLink
      refine ⟨hNew, fun i hi => ?_⟩
      by_cases hSame : i = no
      · exact hSame ▸ hNew
      · exact (hi.setup (Ne.symm hSame)).relink

end Marked

/-- The index is stored as the eight bytes of a number. -/
theorem le64_eq (value : Nat) : le64 value = (Bytes.encode 8 value).map some := by
  simp [le64, List.range_succ, Bytes.encode, Nat.div_div_eq_div_mul]

/-- Differences of page numbers that an `int` holds compare as they are. -/
theorem streamCmp_eq {x y : Int} (hLow : x - y < 2 ^ 31) (hHigh : y - x < 2 ^ 31) :
    streamCmp x y = compare x y := by
  have hExact : Int.bmod (x - y) (2 ^ 32) = x - y := by
    apply Int.bmod_eq_of_le_mul_two <;> omega
  rw [streamCmp, hExact]
  rcases lt_trichotomy x y with hLess | rfl | hMore
  · rw [compare_lt_iff_lt.mpr hLess, compare_lt_iff_lt.mpr (show x - y < 0 by omega)]
  · rw [Int.sub_self, compare_eq_iff_eq.mpr rfl, compare_eq_iff_eq.mpr rfl]
  · rw [compare_gt_iff_gt.mpr hMore, compare_gt_iff_gt.mpr (show x - y > 0 by omega)]

namespace Memory

variable {m m' : Memory} {pages : Tree} {no : Nat}

/-- The tree in memory holds these pages, in this order. -/
structure Shows (m : Memory) (pages : Tree) : Prop where
  few : m.pageCount < 2 ^ 31
  lt : ∀ no ∈ pages.pages, no < m.pageCount
  tree : ∃ t, m.tree.Holds t ∧ (∃ n, t.Balanced n) ∧ t.isRed = false ∧ t.toList = pages.pages
  marked : ∀ no ∈ pages.pages, Marked (m.listing pages) no

theorem index_of_read (hIndex : read m.pageMem (m.area.page no + 8) 8 = le64 no)
    (hFew : no < 2 ^ 63) : m.index no = some (no : Int) := by
  have hRead : read m.pageMem (m.area.page no + 8) 8 = (Bytes.encode 8 no).map some :=
    hIndex.trans (le64_eq no)
  have hAll : ∀ bytes : List UInt8, (bytes.map some).mapM id = some bytes := by
    intro bytes
    induction bytes with
    | nil => rfl
    | cons byte rest ih =>
        rw [List.map_cons, List.mapM_cons, ih]
        rfl
  have hFits : Words.Fits no := by
    simp only [Words.Fits]
    omega
  rw [index, hRead, hAll, Option.map_some, Bytes.le_encode, Nat.mod_eq_of_lt (by omega),
    Words.signed_of_fits hFits]

namespace Shows

variable (h : Shows m pages)

include h

theorem length_le : pages.pages.length ≤ m.pageCount := by
  have hSub : pages.pages ⊆ List.range m.pageCount :=
    fun no hNo => List.mem_range.mpr (h.lt no hNo)
  simpa using (List.subperm_of_subset pages.nodup hSub).length_le

theorem index_eq (hNo : no ∈ pages.pages) : m.index no = some (no : Int) := by
  have hFew := h.few
  have hLt := h.lt no hNo
  exact index_of_read (h.marked no hNo).index (by omega)

/-- The nodes that are listed are the free pages. -/
theorem elements_eq {s : Store Nat Int} {t : RedBlack.Tree Nat} (hHolds : s.Holds t)
    (hList : t.toList = pages.pages) : s.elements m.rounds s.root = pages.pages := by
  have hLength := h.length_le
  rw [hHolds.root, Store.elements_linked hHolds.linked (by rw [hList, rounds]; omega), hList]

theorem pages_eq : m.pages = pages.pages := by
  obtain ⟨t, hHolds, -, -, hList⟩ := h.tree
  exact h.elements_eq hHolds hList

theorem readable_eq : m.readable = true := by
  rw [readable, h.pages_eq, List.all_eq_true]
  intro no hNo
  have hLinks : m.linked no = true := by
    rw [linked, List.all_eq_true]
    intro byte hByte
    obtain ⟨i, hi, rfl⟩ := List.mem_map.mp hByte
    obtain ⟨hLow, hHigh⟩ := List.mem_range'_1.mp hi
    obtain ⟨k, rfl⟩ := Nat.exists_eq_add_of_le (show m.area.page no ≤ i by omega)
    exact beq_iff_eq.mpr ((h.marked no hNo).links k (by omega) (by omega))
  rw [hLinks, h.index_eq hNo]
  rfl

/-- What `sys/tree.h` works on is a set of numbers in their order. -/
theorem sets : ∃ t, m.nodes.Sets compare t ∧ t.toList = pages.pages := by
  obtain ⟨t, hHolds, hBalanced, hBlack, hList⟩ := h.tree
  refine ⟨t, ⟨⟨hHolds.root, ?_, hHolds.nodup⟩, hBalanced, hBlack, ?_⟩, hList⟩
  · exact Store.linked_of_links hHolds.linked fun a _ => ⟨_, rfl⟩
  · rw [hList]
    refine pages.sorted.imp_of_mem ?_
    intro a b ha hb hLess
    simp only [nodes, h.index_eq ha, h.index_eq hb, Option.getD_some]
    exact compare_lt_iff_lt.mpr (by omega)

theorem onTree_eq {α : Type} {f : Store Nat Int → Option α} {result : α} (hRun : f m.nodes = some result) :
    m.onTree f = .ok result := by
  rw [onTree, if_pos h.readable_eq, hRun]

theorem min_eq : m.min = .ok pages.pages.head? := by
  obtain ⟨t, hSets, hList⟩ := h.sets
  have hLength := h.length_le
  have hRun := hSets.holds.min (show t.toList.length ≤ m.rounds by rw [hList, rounds]; omega)
  exact h.onTree_eq (hList ▸ hRun)

theorem next_eq {front rest : List Nat} (hList : pages.pages = front ++ no :: rest) :
    m.next no = .ok rest.head? := by
  obtain ⟨t, hSets, hSame⟩ := h.sets
  have hLength := h.length_le
  exact h.onTree_eq (hSets.holds.next (hSame.trans hList)
    (show t.toList.length ≤ m.rounds by rw [hSame, rounds]; omega))

/-- Every loop over the tree has enough rounds. -/
theorem enough_le : Store.enough pages.pages.length ≤ m.rounds := by
  have hLength := h.length_le
  have hLog : (pages.pages.length + 1).log2 < pages.pages.length + 1 :=
    (Nat.log2_lt (Nat.succ_ne_zero _)).mpr Nat.lt_two_pow_self
  rw [Store.enough, rounds]
  omega

/-- `RB_FIND` finds the page with the index. -/
theorem find_eq {index : Int} (hLow : 0 ≤ index) (hHigh : index ≤ m.pageCount) :
    m.find index = .ok (pages.find index).head? := by
  obtain ⟨t, hSets, hList⟩ := h.sets
  have hFew := h.few
  have hData : ∀ a ∈ pages.pages, (m.nodes.cells a).data = a := by
    intro a ha
    simp only [nodes, h.index_eq ha, Option.getD_some]
  obtain ⟨found, hRun, hSome, hNone⟩ := hSets.find (hList ▸ h.enough_le) index
  have hCut : m.nodes.find streamCmp m.rounds index = some found := by
    rw [← hRun, Store.find, Store.find, hSets.holds.root]
    apply Store.findFrom_congr hSets.holds.linked
    intro a ha
    rw [hList] at ha
    have hLt := h.lt a ha
    rw [hData a ha]
    exact streamCmp_eq (by omega) (by omega)
  rw [find, h.onTree_eq hCut, Except.ok.injEq]
  cases found with
  | some a =>
      obtain ⟨hMem, hEq⟩ := hSome a rfl
      rw [hList] at hMem
      rw [hData a hMem, compare_eq_iff_eq] at hEq
      obtain ⟨rest, hFind⟩ := Tree.find_of_mem hMem
      rw [hEq, hFind]
      rfl
  | none =>
      cases hFind : pages.find index with
      | nil => rfl
      | cons a rest =>
          obtain ⟨hEq, hSuffix⟩ := Tree.find_eq_cons hFind
          have hMem := hSuffix.subset List.mem_cons_self
          refine absurd ?_ (hNone rfl a (hList ▸ hMem))
          rw [hData a hMem, compare_eq_iff_eq, hEq]

/-- `RB_REMOVE` takes the page out. -/
theorem remove_eq (hNo : no ∈ pages.pages) :
    ∃ m', m.remove no = .ok m' ∧ (m.listing pages).remove no = m'.listing (pages.remove no) ∧
      Shows m' (pages.remove no) ∧
      ∀ i, Marked (m.listing pages) i → Marked (m'.listing (pages.remove no)) i := by
  obtain ⟨t, hSets, hList⟩ := h.sets
  obtain ⟨s, t', hRun, hSets', hErase, -⟩ := hSets.remove (hList ▸ hNo) (hList ▸ h.enough_le)
  refine ⟨m.relinked s m.pages, ?_, ?_, ⟨h.few, ?_, ?_, ?_⟩, fun i hi => hi.relink⟩
  · rw [remove, h.onTree_eq hRun]
    rfl
  · rw [h.pages_eq]
    rfl
  · exact fun i hi => h.lt i (List.mem_of_mem_erase hi)
  · exact ⟨t', hSets'.holds, hSets'.balanced, hSets'.black, by rw [hErase, hList]; rfl⟩
  · intro i hi
    rw [h.pages_eq]
    exact (h.marked i (List.mem_of_mem_erase hi)).relink

omit h in
/-- `RB_INSERT` puts a page that is not free among those that are. -/
theorem insert_eq {tree : Tree} (h : Shows m pages) (hLt : no < m.pageCount)
    (hIndex : read m.pageMem (m.area.page no + 8) 8 = le64 no) (hInsert : pages.insert no = some tree) :
    ∃ s, m.onTree (fun s => s.insert streamCmp m.rounds no) = .ok (.ok s) ∧
      ∃ t, s.Holds t ∧ (∃ n, t.Balanced n) ∧ t.isRed = false ∧ t.toList = tree.pages := by
  obtain ⟨hFresh, hTree⟩ := Tree.insert_eq_some hInsert
  obtain ⟨t, hSets, hList⟩ := h.sets
  have hFew := h.few
  have hData : ∀ a, a = no ∨ a ∈ pages.pages → (m.nodes.cells a).data = a := by
    rintro a (rfl | ha)
    · simp only [nodes, index_of_read hIndex (show a < 2 ^ 63 by omega), Option.getD_some]
    · simp only [nodes, h.index_eq ha, Option.getD_some]
  have hOther : ∀ a ∈ t.toList, compare (m.nodes.cells no).data (m.nodes.cells a).data ≠ .eq := by
    intro a ha hEq
    rw [hList] at ha
    rw [hData no (.inl rfl), hData a (.inr ha), compare_eq_iff_eq] at hEq
    exact hFresh (show no = a by omega ▸ ha)
  obtain ⟨s, t', hRun, hSets', hPerm, hKeeps⟩ :=
    hSets.insert (fun hMem => hFresh (hList ▸ hMem)) hOther (hList ▸ h.enough_le)
  refine ⟨s, ?_, t', hSets'.holds, hSets'.balanced, hSets'.black, ?_⟩
  · apply h.onTree_eq
    rw [← hRun]
    apply Store.insert_congr hSets.holds
    intro a ha
    rw [hList] at ha
    have := h.lt a ha
    rw [hData no (.inl rfl), hData a (.inr ha)]
    exact streamCmp_eq (by omega) (by omega)
  · -- both lists increase and have the same elements
    rw [hList] at hPerm
    have hMem (a : Nat) : a ∈ t'.toList ↔ a ∈ tree.pages := by
      rw [hPerm.mem_iff, List.mem_cons, hTree a]
    have hSorted : t'.toList.Pairwise (· < ·) := by
      refine hSets'.increasing.imp_of_mem ?_
      intro a b ha hb hLess
      have hA := hData a (List.mem_cons.mp (hPerm.mem_iff.mp ha))
      have hB := hData b (List.mem_cons.mp (hPerm.mem_iff.mp hb))
      simp only [hKeeps.data, hA, hB, compare_lt_iff_lt] at hLess
      omega
    exact hSorted.eq_of_mem_iff tree.sorted hMem

omit h in
/-- `_peak_stream_release` gives the page back in both. -/
theorem releasePage_eq {pool : Streams} (h : Shows m pages) (hLt : no < m.pageCount)
    (hOk : (m.listing pages).releasePage no = .ok pool) :
    ∃ m' pages', m.releasePage no = .ok m' ∧ pool = m'.listing pages' ∧ Shows m' pages' := by
  obtain ⟨hNew, hOld⟩ := marked_releasePage hOk
  simp only [Streams.releasePage] at hOk
  cases hInsert : ((m.listing pages).setup no).pageTree.insert no with
  | none =>
      rw [hInsert] at hOk
      cases hOk
  | some tree =>
      rw [hInsert] at hOk
      cases hOk
      have hInsert : pages.insert no = some tree := hInsert
      obtain ⟨hFresh, hTree⟩ := Tree.insert_eq_some hInsert
      have hSetup : Shows (m.setup no) pages :=
        ⟨h.few, h.lt, h.tree, fun i hi => (h.marked i hi).setup fun hSame => hFresh (hSame ▸ hi)⟩
      obtain ⟨s, hRun, t, hHolds, hBalanced, hBlack, hList⟩ :=
        hSetup.insert_eq hLt (index_setup (m.listing pages) no) hInsert
      have hShows : Shows ((m.setup no).relinked s tree.pages) tree := by
        refine ⟨h.few, ?_, ⟨t, hHolds, hBalanced, hBlack, hList⟩, ?_⟩
        · intro i hi
          rcases (hTree i).mp hi with rfl | hMem
          · exact hLt
          · exact h.lt i hMem
        · intro i hi
          rcases (hTree i).mp hi with rfl | hMem
          · exact hNew
          · exact hOld i (h.marked i hMem)
      have hElements : s.elements (m.setup no).rounds s.root = tree.pages :=
        hShows.elements_eq hHolds hList
      refine ⟨_, tree, ?_, rfl, hShows⟩
      rw [releasePage, if_pos hLt]
      dsimp only
      rw [hRun, ← hElements]
      rfl

end Shows

end Memory

end Peak.Streams
