import Mathlib.Data.List.Chain
import Peak.Locate.Helpers

/-! The loop of `finalise` puts every element back while it is at it. Nothing is
lost: the links that it overwrites are not followed any more. -/
namespace Peak.Locate

open RedBlack Prealloc Ordered

variable {self after : Helpers} {geo : Geo} {t b : RedBlack.Tree Nat} {chunks free : List Nat}
variable {path : List (Frame Nat)} {a fuel : Nat}

theorem Helpers.tree_put (self : Helpers) (a : Nat) :
    (self.put a).tree = self.tree.setChild .left a self.mem.free := rfl

theorem Helpers.data_put (self : Helpers) (a z : Nat) :
    ((self.put a).tree.cells z).data = (self.tree.cells z).data := by
  rw [tree_put, Store.setChild, Store.cells_modify]
  split_ifs
  · exact Cell.data_setChild ..
  · rfl

/-- The data of the elements, in the order of the list. -/
def Helpers.dataOf (self : Helpers) (xs : List Nat) : List Location :=
  xs.map fun a => (self.tree.cells a).data

theorem Helpers.dataOf_put (self : Helpers) (a : Nat) (xs : List Nat) :
    (self.put a).dataOf xs = self.dataOf xs :=
  List.map_congr_left fun z _ => self.data_put a z

/-- No chunk is in use. -/
structure Helpers.AllFree (helpers : Helpers) (chunks : List Nat) : Prop where
  used : helpers.mem.used = 0
  chain : ∃ free, Chain geoOverlay helpers.tree.cells helpers.mem.free free ∧ free.Perm chunks

/-- The loop does what writing the elements in order does, and every one that it
was at is back in the pool. -/
theorem Helpers.foreach_stands (hStands : Stands self.tree.cells geoRounds path a b)
    (hMem : Prealloc.Holds geoOverlay self.tree.cells self.mem chunks (toCome path a b) free)
    (hFuel : (toCome path a b).length ≤ fuel) (out : File.Sink) :
    (∃ out' after, writeLocations (self.dataOf (toCome path a b)) out = .ok out' ∧
      foreach fuel self (some a) out = .ok (out', after) ∧ after.AllFree chunks) ∨
    ∃ msg, writeLocations (self.dataOf (toCome path a b)) out = .error msg ∧
      foreach fuel self (some a) out = .error (.exit msg) := by
  induction fuel generalizing self path a b free out with
  | zero => exact absurd hFuel (Nat.not_succ_le_zero _)
  | succ fuel ih =>
      have hWrite : writeLocations (self.dataOf (toCome path a b)) out =
          if (out.write (self.tree.cells a).data.encode).1 ≠ 40 then .error "entry write failed\n"
          else writeLocations ((self.put a).dataOf (b.toList ++ behind path))
            (out.write (self.tree.cells a).data.encode).2 := by
        rw [self.dataOf_put]
        rfl
      rw [hWrite, foreach]
      dsimp only
      by_cases hShort : (out.write (self.tree.cells a).data.encode).1 ≠ 40
      · rw [if_pos hShort, if_pos hShort]
        exact .inr ⟨_, rfl, rfl⟩
      rw [if_neg hShort, if_neg hShort]
      -- the link written over the left one leads to a chunk that is not in the tree
      have hLink : ∀ r, b.root = some r → ((self.put a).tree.cells a).left ≠ some r := by
        intro r hRoot
        have hClaimed : r ∈ toCome path a b :=
          List.mem_cons_of_mem a (List.mem_append_left _ (RedBlack.Tree.root_mem hRoot))
        rw [self.tree_put, Store.setChild, Store.cells_modify_same]
        exact hMem.free_ne hClaimed
      have hPut := hMem.put
      have hAfter : Stands (self.put a).tree.cells geoRounds path a b := hStands.overwrite self.mem.free
      obtain ⟨hRun, hEnd⟩ | ⟨path', a', b', hRun, hNext, hToCome⟩ := Store.next_stands hAfter hLink
      · rw [hRun, hEnd]
        rw [hEnd] at hPut
        refine .inl ⟨_, self.put a, rfl, by cases fuel <;> rfl, hPut.used, _, hPut.chain, ?_⟩
        exact hPut.perm
      · rw [hRun]
        rw [← hToCome] at hPut ⊢
        apply ih hNext hPut
        rw [hToCome]
        exact Nat.le_of_succ_le_succ hFuel

theorem root_eq_none_iff : t.root = none ↔ t = .leaf := by
  cases t with
  | leaf => exact ⟨fun _ => rfl, fun _ => rfl⟩
  | node colour l a r => exact ⟨fun h => (nomatch h), fun h => (nomatch h)⟩

theorem map_eq_leaf_iff {α β : Type} {f : α → β} {t : RedBlack.Tree α} : t.map f = .leaf ↔ t = .leaf := by
  cases t with
  | leaf => exact ⟨fun _ => rfl, fun _ => rfl⟩
  | node colour l a r => exact ⟨fun h => (nomatch h), fun h => (nomatch h)⟩

theorem Helpers.Refines.dataOf_eq (h : self.Refines chunks geo t free) :
    self.dataOf t.toList = geo.head.toList := by
  rw [← h.head, toList_map]
  rfl

/-- `finalise` writes the tree, and leaves all chunks in the pool. -/
theorem Helpers.Refines.finalise (h : self.Refines chunks geo t free) (openOk : Bool) (room : Nat) :
    (∃ out after, geo.finalise openOk room = .ok out ∧ self.finalise openOk room = .ok (out, after) ∧
      after.AllFree chunks) ∨
    ∃ msg, geo.finalise openOk room = .error msg ∧ self.finalise openOk room = .error (.exit msg) := by
  rw [Geo.finalise, Helpers.finalise, h.tree.root, h.used]
  have hLeaf : geo.head = .leaf ↔ t = .leaf := by rw [← h.head, map_eq_leaf_iff]
  by_cases hEmpty : t = .leaf
  · have hMem := h.mem
    rw [hEmpty] at hMem
    rw [if_pos (hLeaf.mpr hEmpty), if_pos (root_eq_none_iff.mpr hEmpty)]
    exact .inl ⟨none, self, rfl, rfl, hMem.used, free, hMem.chain, hMem.perm⟩
  rw [if_neg fun hHead => hEmpty (hLeaf.mp hHead), if_neg fun hRoot => hEmpty (root_eq_none_iff.mp hRoot)]
  by_cases hOpen : openOk = false
  · rw [if_pos hOpen, if_pos hOpen]
    exact .inr ⟨_, rfl, rfl⟩
  rw [if_neg hOpen, if_neg hOpen]
  dsimp only
  generalize (File.Sink.mk [] room).write (header self.mem.used) = written
  by_cases hShort : written.1 ≠ 16
  · rw [if_pos hShort, if_pos hShort]
    exact .inr ⟨_, rfl, rfl⟩
  rw [if_neg hShort, if_neg hShort]
  have hRounds : t.toList.length ≤ geoRounds := by
    have hLength := h.length_eq
    rw [h.used, h.mem.used] at hLength
    rw [geoRounds]
    omega
  obtain ⟨_, hLeaf⟩ | ⟨path, a, b, hMin, hStands, hToCome⟩ := Store.min_stands h.tree hRounds
  · exact absurd hLeaf hEmpty
  · rw [← h.dataOf_eq, hMin, ← hToCome]
    dsimp only
    obtain ⟨out, after, hWrite, hRun, hFree⟩ | ⟨msg, hWrite, hRun⟩ :=
      Helpers.foreach_stands hStands (hToCome ▸ h.mem) (hToCome ▸ hRounds) written.2
    · rw [hWrite, hRun]
      exact .inl ⟨_, after, rfl, rfl, hFree⟩
    · rw [hWrite, hRun]
      exact .inr ⟨msg, rfl, rfl⟩

/-- What an entry is above is below the entry, also where a range is none. -/
theorem peakLocateCmp_lt_of_gt {x y : Location} (h : peakLocateCmp x y = .gt) :
    peakLocateCmp y x = .lt := by
  rw [peakLocateCmp] at h
  split_ifs at h with _ hGt
  rw [peakLocateCmp, if_pos (Std.OrientedCmp.lt_of_gt hGt)]

/-- The data of the entries that `geoconv` does not pass over. -/
def inserted (entries : List Entry) : List Location :=
  (entries.filter fun e => e.loc != 0).map Entry.data

/-- Each element is below the next one. -/
def Ascending (xs : List Location) : Prop := xs.IsChain fun x y => peakLocateCmp x y = .lt

theorem Ascending.insert {front back : List Location} {x : Location} (h : Ascending (front ++ back))
    (hFront : ∀ y ∈ front.getLast?, peakLocateCmp x y = .gt)
    (hBack : ∀ y ∈ back.head?, peakLocateCmp x y = .lt) : Ascending (front ++ x :: back) := by
  obtain ⟨hLeft, hRight, _⟩ := List.isChain_append.mp h
  refine List.isChain_append.mpr ⟨hLeft, List.isChain_cons.mpr ⟨hBack, hRight⟩, ?_⟩
  intro y hy z hz
  cases hz
  exact peakLocateCmp_lt_of_gt (hFront y hy)

/-- Between proper ranges what holds of neighbours holds of all. -/
theorem Ascending.increasing {xs : List Location} (h : Ascending xs)
    (hProper : ∀ x ∈ xs, x.range.Proper netcmp) : Increasing peakLocateCmp xs := by
  induction xs with
  | nil => exact List.Pairwise.nil
  | cons x xs ih =>
      obtain ⟨hHead, hRest⟩ := List.isChain_cons.mp h
      have hIncreasing := ih hRest fun z hz => hProper z (List.mem_cons_of_mem x hz)
      refine List.pairwise_cons.mpr ⟨?_, hIncreasing⟩
      intro z hz
      cases xs with
      | nil => cases hz
      | cons y xs =>
          have hxy := hHead y rfl
          obtain rfl | hz := List.mem_cons.mp hz
          · exact hxy
          · have hyz := (List.pairwise_cons.mp hIncreasing).1 z hz
            rw [peakLocateCmp_eq] at hxy hyz ⊢
            exact Ranges.overlapCmp_trans (hProper y (by simp)) hxy hyz

/-- The tree grows by what is inserted, and goes on ascending. -/
theorem Geo.line_ascends {geo' : Geo} (h : Ascending geo.head.toList) {entries : List Entry}
    (hLine : geo.line entries = .ok geo') :
    Ascending geo'.head.toList ∧ geo'.head.toList.Perm (inserted entries ++ geo.head.toList) := by
  induction entries generalizing geo with
  | nil =>
      cases hLine
      exact ⟨h, .refl _⟩
  | cons e rest ih =>
      rw [Geo.line] at hLine
      cases hEntry : geo.entry e with
      | error msg =>
          rw [hEntry] at hLine
          cases hLine
      | ok next =>
          rw [hEntry] at hLine
          rw [Geo.entry] at hEntry
          split_ifs at hEntry with hUnknown hFull
          · cases hEntry
            have hSame : inserted (e :: rest) = inserted rest := by
              rw [inserted, List.filter_cons, if_neg (by simpa using hUnknown), inserted]
            rw [hSame]
            exact ih h hLine
          · have hMore : inserted (e :: rest) = e.data :: inserted rest := by
              rw [inserted, List.filter_cons, if_pos (by simpa using hUnknown), List.map_cons, inserted]
            cases hInsert : RedBlack.insert (peakLocateCmp e.data) e.data geo.head with
            | error met =>
                rw [hInsert] at hEntry
                cases hEntry
            | ok head =>
                rw [hInsert] at hEntry
                cases hEntry
                obtain ⟨front, back, hList, hNew, hFront, hBack⟩ := insert_between hInsert
                rw [hList] at h ⊢
                have hAscending : Ascending head.toList := hNew ▸ h.insert hFront hBack
                obtain ⟨hAll, hPerm⟩ := ih hAscending hLine
                refine ⟨hAll, hPerm.trans ?_⟩
                rw [hMore, hNew]
                exact (List.perm_middle.append_left _).trans List.perm_middle

theorem proper_of_inserted {entries : List Entry} {xs : List Location} (hPerm : xs.Perm (inserted entries))
    (hProper : ∀ e ∈ entries, e.data.range.Proper netcmp) : ∀ x ∈ xs, x.range.Proper netcmp := by
  intro x hx
  obtain ⟨e, he, rfl⟩ := List.mem_map.mp (hPerm.mem_iff.mp hx)
  exact hProper e (List.mem_filter.mp he).1

/-- Whatever was inserted: the loop of `finalise` is at every element once, one
above the other, although it puts each back before it goes on. It writes as many
elements as the header says and leaves every chunk in the pool; no link that is
missing is followed. -/
theorem finalise_loses_nothing {cells : Nat → GeoHelper} {start : Nat} {entries : List Entry}
    (hParse : Helpers.parse cells (some start) entries = .ok self) :
    ∃ xs : List Location, xs.Perm (inserted entries) ∧ Ascending xs ∧
      ((∀ e ∈ entries, e.data.range.Proper netcmp) → Increasing peakLocateCmp xs) ∧
      xs.length = self.mem.used ∧ xs.length < 2 ^ 32 ∧
      (∀ openOk room, self.finalise openOk room ≠ .error .crash) ∧
      (∀ openOk room out after, self.finalise openOk room = .ok (out, after) →
        after.AllFree (geoChunks start) ∧
        ∀ file ∈ out, file.contents = header self.mem.used ++ xs.flatMap Location.encode) ∧
      (xs ≠ [] → ∀ room, 16 + 40 * xs.length ≤ room →
        ∃ file after, self.finalise true room = .ok (some file, after)) := by
  obtain ⟨geo, self', t, free, hGeo, hSelf, h⟩ | ⟨msg, _, hSelf⟩ :=
    Helpers.parse_refines cells start entries
  · cases hSelf.symm.trans hParse
    have hStart : Ascending (Geo.mk .leaf 0).head.toList := List.IsChain.nil
    obtain ⟨hAscending, hPerm⟩ := Geo.line_ascends hStart hGeo
    rw [RedBlack.Tree.toList, List.append_nil] at hPerm
    have hLength : geo.head.toList.length = self.mem.used := by
      rw [← h.head, toList_map, List.length_map, h.mem.used]
    have hFew := h.length_eq
    rw [h.used, ← hLength, geoCapacity] at hFew
    refine ⟨geo.head.toList, hPerm, hAscending, fun hProper =>
      hAscending.increasing (proper_of_inserted hPerm hProper), hLength, by omega, ?_, ?_, ?_⟩
    · intro openOk room hCrash
      obtain ⟨out, after, _, hRun, _⟩ | ⟨msg, _, hRun⟩ := h.finalise openOk room
      · cases hRun.symm.trans hCrash
      · cases hRun.symm.trans hCrash
    · intro openOk room out after hOk
      obtain ⟨out', after', hWrite, hRun, hFree⟩ | ⟨msg, _, hRun⟩ := h.finalise openOk room
      · cases hRun.symm.trans hOk
        refine ⟨hFree, fun file hFile => ?_⟩
        cases hFile
        rw [Geo.finalise_contents hWrite, h.used]
      · cases hRun.symm.trans hOk
    · intro hSome room hRoom
      obtain ⟨file, hFile⟩ := Geo.finalise_room hSome hRoom
      obtain ⟨out, after, hWrite, hRun, _⟩ | ⟨msg, hWrite, _⟩ := h.finalise true room
      · cases hWrite.symm.trans hFile
        exact ⟨file, after, hRun⟩
      · cases hWrite.symm.trans hFile
  · cases hSelf.symm.trans hParse

/-- Memory that held something else before. -/
def usedMemory : Nat → GeoHelper := fun a => ⟨some a, some a, some a, .red, ⟨lowAddr 7, lowAddr 7, 7, 7⟩⟩

theorem finalise_loses_nothing_two :
    ∃ self file after, Helpers.parse usedMemory (some 4096) twoRanges = .ok self ∧ self.mem.used = 2 ∧
      self.finalise true 96 = .ok (some file, after) ∧ after.AllFree (geoChunks 4096) := by
  have hGeo : ∃ geo, Locate.parse twoRanges = .ok geo := ⟨_, rfl⟩
  obtain ⟨geo, hGeo⟩ := hGeo
  obtain ⟨_, self, _, _, _, hSelf, _⟩ | ⟨msg, hMsg, _⟩ := Helpers.parse_refines usedMemory 4096 twoRanges
  · obtain ⟨xs, hPerm, _, _, hUsed, _, _, hAfter, hRoom⟩ := finalise_loses_nothing hSelf
    have hLength : xs.length = 2 := hPerm.length_eq
    have hSome : xs ≠ [] := fun hNil => by
      rw [hNil] at hLength
      cases hLength
    obtain ⟨file, after, hRun⟩ := hRoom hSome 96 (by rw [hLength])
    exact ⟨self, file, after, hSelf, hUsed.symm.trans hLength, hRun, (hAfter true 96 _ after hRun).1⟩
  · cases hMsg.symm.trans hGeo

end Peak.Locate
