import Peak.Base.RedBlack
import Peak.Locate.Database

/-! `bin/geoconv`: a list of address ranges goes into a tree, and the tree in
order into the file that `peak_locate_init` loads. -/
namespace Peak.Locate

open Ordered Ranges Search

/-- What the scanner and the parser make of a line. -/
structure Entry where
  min : NetAddr
  max : NetAddr
  loc : UInt32
deriving DecidableEq, Repr

/-- `elm->data` as the rule fills it in. -/
def Entry.data (e : Entry) : Location := ⟨e.min, e.max, e.loc, 0⟩

/-- The address is in the range of the entry. -/
def Entry.Contains (e : Entry) (me : NetAddr) : Prop := e.data.range.Contains netcmp me

/-- `geo_head`, and how many elements of `geo_mem` are in use. -/
structure Geo where
  head : RedBlack.Tree Location
  used : Nat
deriving DecidableEq, Repr

/-- How many elements `main` allocates. -/
def geoCapacity : Nat := 150000

/-- The rule `entry`. An unknown location is passed over. -/
def Geo.entry (self : Geo) (e : Entry) : Except String Geo :=
  if e.loc = 0 then .ok self
  else if self.used = geoCapacity then .error "too many entries\n"
  else
    match RedBlack.insert (peakLocateCmp e.data) e.data self.head with
    | .error _ => .error "found duplicated entry\n"
    | .ok head => .ok ⟨head, self.used + 1⟩

/-- The rule `line`: all entries of the files, one after another. -/
def Geo.line (self : Geo) : List Entry → Except String Geo
  | [] => .ok self
  | e :: rest =>
      match self.entry e with
      | .error msg => .error msg
      | .ok self => self.line rest

/-- What the parser leaves behind, starting from an empty tree. -/
def parse (entries : List Entry) : Except String Geo := Geo.line ⟨.leaf, 0⟩ entries

/-- The loop of `finalise`. `prealloc_put` writes over the left link of an
element that was visited, which the traversal does not follow any more. -/
def writeLocations : List Location → File.Sink → Except String File.Sink
  | [], out => .ok out
  | elm :: rest, out =>
      let (ret, out) := out.write elm.encode
      if ret ≠ 40 then .error "entry write failed\n" else writeLocations rest out

/-- `finalise` on a device with so much room: the file that was written, if there
was anything to write. -/
def Geo.finalise (self : Geo) (openOk : Bool) (room : Nat) : Except String (Option File.Sink) :=
  if self.head = .leaf then .ok none
  else if openOk = false then .error "output open failed\n"
  else
    let (ret, out) := (File.Sink.mk [] room).write (header self.used)
    if ret ≠ 16 then .error "header write failed\n"
    else
      match writeLocations self.head.toList out with
      | .error msg => .error msg
      | .ok out => .ok (some out)

/-- A list of entries as the GeoIP input provides it. -/
structure GeoInput (entries : List Entry) : Prop where
  some : entries ≠ []
  few : entries.length ≤ geoCapacity
  known : ∀ e ∈ entries, e.loc ≠ 0
  proper : ∀ e ∈ entries, e.data.range.Proper netcmp

/-- No address lies in the ranges of both entries. -/
def Entry.Apart (e e' : Entry) : Prop := ∀ me, ¬ (e.Contains me ∧ e'.Contains me)

/-- The database knows the entries: each address has the location of the one
entry that contains it, or none. -/
structure Knows (db : Locates) (entries : List Entry) : Prop where
  found : ∀ e ∈ entries, ∀ me, e.Contains me → db.get me = e.loc.toNat
  unique : ∀ e ∈ entries, ∀ e' ∈ entries, ∀ me, e.Contains me → e'.Contains me → e' = e
  missing : ∀ me, (∀ e ∈ entries, ¬ e.Contains me) → db.get me = locateXx

/-- The tree holds the entries, in the order of their addresses. -/
structure Geo.Holds (geo : Geo) (entries : List Entry) : Prop where
  increasing : Increasing peakLocateCmp geo.head.toList
  perm : geo.head.toList.Perm (entries.map Entry.data)
  used : geo.used = entries.length
  proper : ∀ e ∈ entries, e.data.range.Proper netcmp

variable {self self' : Geo} {e : Entry} {entries rest : List Entry} {msg : String}

theorem parse_holds : Geo.Holds ⟨.leaf, 0⟩ [] := by
  refine ⟨List.Pairwise.nil, .refl _, rfl, fun e hMem => ?_⟩
  cases hMem

theorem Geo.Holds.proper_data (h : self.Holds entries) :
    ∀ x ∈ self.head.toList, x.range.Proper netcmp := by
  intro x hMem
  obtain ⟨e, he, rfl⟩ := List.mem_map.mp (h.perm.mem_iff.mp hMem)
  exact h.proper e he

/-- Entries are apart if and only if their data is not equal to the comparison. -/
theorem apart_iff {e e' : Entry} (he : e.data.range.Proper netcmp) (he' : e'.data.range.Proper netcmp) :
    e.Apart e' ↔ peakLocateCmp e.data e'.data ≠ .eq := by
  rw [peakLocateCmp_eq, Ne, overlapCmp_eq he he', not_not]
  rfl

/-- An element of the tree that does not compare equal to an entry is apart from
it. -/
theorem Geo.Holds.apart (h : self.Holds entries) (hProper : e.data.range.Proper netcmp)
    (hNe : ∀ x ∈ self.head.toList, peakLocateCmp e.data x ≠ .eq) : ∀ e' ∈ entries, e'.Apart e := by
  intro e' hMem me hBoth
  have hTree : e'.data ∈ self.head.toList := h.perm.mem_iff.mpr (List.mem_map_of_mem hMem)
  exact (apart_iff hProper (h.proper e' hMem)).mpr (hNe _ hTree) me hBoth.symm

/-- An entry that is accepted is apart from the ones before and is held with
them. -/
theorem Geo.entry_ok (hHolds : self.Holds entries) (hKnown : e.loc ≠ 0)
    (hProper : e.data.range.Proper netcmp) (h : self.entry e = .ok self') :
    self'.Holds (entries ++ [e]) ∧ ∀ e' ∈ entries, e'.Apart e := by
  rw [Geo.entry, if_neg hKnown] at h
  split_ifs at h with hFull
  have hPart := peakLocateCmp_partitioned hHolds.increasing hHolds.proper_data hProper
  cases hInsert : RedBlack.insert (peakLocateCmp e.data) e.data self.head with
  | error met =>
      rw [hInsert] at h
      cases h
  | ok head =>
      rw [hInsert] at h
      cases h
      obtain ⟨front, back, hList, hNew, hFront, hBack⟩ := RedBlack.insert_ok hPart hInsert
      have hData := hHolds.proper_data
      have hIncreasing := hHolds.increasing
      have hPerm := hHolds.perm
      have hApart := hHolds.apart hProper
      rw [hList] at hData hIncreasing hPerm hApart
      constructor
      · constructor
        · show Increasing peakLocateCmp head.toList
          rw [hNew]
          exact peakLocateCmp_insert hIncreasing hProper
            (fun x hx => hData x (List.mem_append_left back hx)) hFront hBack
        · show head.toList.Perm _
          rw [hNew, List.map_append, List.map_singleton]
          exact List.perm_middle.trans ((hPerm.cons _).trans (List.perm_append_singleton _ _).symm)
        · simp [hHolds.used]
        · intro e' hMem
          rcases List.mem_append.mp hMem with hOld | hOnly
          · exact hHolds.proper e' hOld
          · exact List.mem_singleton.mp hOnly ▸ hProper
      · apply hApart
        intro x hMem
        rcases List.mem_append.mp hMem with hx | hx
        · rw [hFront x hx]
          decide
        · rw [hBack x hx]
          decide

/-- An entry is refused because of one before that it is not apart from. -/
theorem Geo.entry_error (hHolds : self.Holds entries) (hRoom : entries.length < geoCapacity)
    (hProper : e.data.range.Proper netcmp) (h : self.entry e = .error msg) :
    ∃ e' ∈ entries, ¬ e'.Apart e := by
  rw [Geo.entry] at h
  split_ifs at h with hUnknown hFull
  · have hUsed := hHolds.used
    omega
  · cases hInsert : RedBlack.insert (peakLocateCmp e.data) e.data self.head with
    | ok head =>
        rw [hInsert] at h
        cases h
    | error met =>
        obtain ⟨hMem, hEq⟩ := RedBlack.insert_error hInsert
        obtain ⟨e', he', rfl⟩ := List.mem_map.mp (hHolds.perm.mem_iff.mp hMem)
        refine ⟨e', he', fun hApart => ?_⟩
        exact (apart_iff hProper (hHolds.proper e' he')).mp (fun me hBoth => hApart me hBoth.symm) hEq

/-- What is left of the input is accepted if and only if its entries are apart
from one another and from the ones before. -/
theorem Geo.line_ok_iff (hHolds : self.Holds entries)
    (hRoom : entries.length + rest.length ≤ geoCapacity) (hKnown : ∀ e ∈ rest, e.loc ≠ 0)
    (hProper : ∀ e ∈ rest, e.data.range.Proper netcmp) :
    (∃ geo, self.line rest = .ok geo) ↔
      rest.Pairwise Entry.Apart ∧ ∀ e' ∈ entries, ∀ e ∈ rest, e'.Apart e := by
  induction rest generalizing self entries with
  | nil => exact ⟨fun _ => ⟨.nil, fun _ _ _ hMem => (by cases hMem)⟩, fun _ => ⟨self, rfl⟩⟩
  | cons e rest ih =>
      rw [List.length_cons] at hRoom
      have hFirst := hProper e List.mem_cons_self
      cases hEntry : self.entry e with
      | error msg =>
          obtain ⟨e', he', hOverlap⟩ := Geo.entry_error hHolds (by omega) hFirst hEntry
          simp only [Geo.line, hEntry, reduceCtorEq, exists_false, false_iff]
          exact fun h => hOverlap (h.2 e' he' e List.mem_cons_self)
      | ok next =>
          obtain ⟨hNext, hApart⟩ := Geo.entry_ok hHolds (hKnown e List.mem_cons_self) hFirst hEntry
          have hLength : (entries ++ [e]).length + rest.length ≤ geoCapacity := by
            rw [List.length_append, List.length_singleton]
            omega
          rw [Geo.line, hEntry]
          refine (ih hNext hLength (fun x hx => hKnown x (List.mem_cons_of_mem e hx))
            (fun x hx => hProper x (List.mem_cons_of_mem e hx))).trans ?_
          rw [List.pairwise_cons]
          constructor
          · rintro ⟨hRest, hOld⟩
            refine ⟨⟨fun x hx => hOld e (by simp) x hx, hRest⟩, fun e' he' x hx => ?_⟩
            rcases List.mem_cons.mp hx with rfl | hx
            · exact hApart e' he'
            · exact hOld e' (List.mem_append_left _ he') x hx
          · rintro ⟨⟨hHead, hRest⟩, hOld⟩
            refine ⟨hRest, fun e' he' x hx => ?_⟩
            rcases List.mem_append.mp he' with he' | he'
            · exact hOld e' he' x (List.mem_cons_of_mem e hx)
            · exact List.mem_singleton.mp he' ▸ hHead x hx

/-- What was accepted is in the tree. -/
theorem Geo.line_holds {geo : Geo} (hHolds : self.Holds entries) (hKnown : ∀ e ∈ rest, e.loc ≠ 0)
    (hProper : ∀ e ∈ rest, e.data.range.Proper netcmp) (h : self.line rest = .ok geo) :
    geo.Holds (entries ++ rest) := by
  induction rest generalizing self entries with
  | nil =>
      cases h
      rwa [List.append_nil]
  | cons e rest ih =>
      cases hEntry : self.entry e with
      | error msg =>
          rw [Geo.line, hEntry] at h
          cases h
      | ok next =>
          rw [Geo.line, hEntry] at h
          have hNext := (Geo.entry_ok hHolds (hKnown e List.mem_cons_self)
            (hProper e List.mem_cons_self) hEntry).1
          have hAll := ih hNext (fun x hx => hKnown x (List.mem_cons_of_mem e hx))
            (fun x hx => hProper x (List.mem_cons_of_mem e hx)) h
          rwa [List.append_assoc, List.singleton_append] at hAll

/-- Entries that were all written are in the file one after another. -/
theorem writeLocations_contents {xs : List Location} {out out' : File.Sink}
    (h : writeLocations xs out = .ok out') :
    out'.contents = out.contents ++ xs.flatMap Location.encode := by
  induction xs generalizing out with
  | nil =>
      cases h
      simp
  | cons x xs ih =>
      simp only [writeLocations] at h
      split_ifs at h with hShort
      have hWhole : (out.write x.encode).1 = x.encode.length := by
        rw [encode_length]
        exact not_not.mp hShort
      rw [ih h, File.Sink.write_complete hWhole, List.flatMap_cons, List.append_assoc]

/-- On a device with room for them they are all written. -/
theorem writeLocations_room {xs : List Location} (out : File.Sink)
    (hRoom : 40 * xs.length ≤ out.room) : ∃ out', writeLocations xs out = .ok out' := by
  induction xs generalizing out with
  | nil => exact ⟨out, rfl⟩
  | cons x xs ih =>
      rw [List.length_cons] at hRoom
      have hWrite : out.write x.encode = (40, ⟨out.contents ++ x.encode, out.room - 40⟩) := by
        have hTake : x.encode.take out.room = x.encode := by
          apply List.take_of_length_le
          rw [encode_length]
          omega
        simp only [File.Sink.write, hTake, encode_length]
      obtain ⟨out', hRest⟩ := ih ⟨out.contents ++ x.encode, out.room - 40⟩
        (by dsimp only; omega)
      refine ⟨out', ?_⟩
      simp only [writeLocations, hWrite]
      exact hRest

/-- The file that was written. -/
theorem Geo.finalise_contents {openOk : Bool} {room : Nat} {out : File.Sink}
    (h : self.finalise openOk room = .ok (some out)) :
    out.contents = header self.used ++ self.head.toList.flatMap Location.encode := by
  simp only [Geo.finalise] at h
  split_ifs at h with hEmpty hOpen hHeader
  · cases h
  · cases hWrite : writeLocations self.head.toList ((File.Sink.mk [] room).write (header self.used)).2 with
    | error msg =>
        rw [hWrite] at h
        cases h
    | ok written =>
        rw [hWrite] at h
        cases h
        have hWhole : ((File.Sink.mk [] room).write (header self.used)).1 = (header self.used).length := by
          rw [header_length]
          exact not_not.mp hHeader
        rw [writeLocations_contents hWrite, File.Sink.write_complete hWhole, List.nil_append]

/-- A tree with elements is written where there is room. -/
theorem Geo.finalise_room {room : Nat} (hSome : self.head.toList ≠ [])
    (hRoom : 16 + 40 * self.head.toList.length ≤ room) :
    ∃ out, self.finalise true room = .ok (some out) := by
  have hTree : self.head ≠ .leaf := fun h => hSome (by rw [h]; rfl)
  have hWrite : (File.Sink.mk [] room).write (header self.used) = (16, ⟨header self.used, room - 16⟩) := by
    have hTake : (header self.used).take room = header self.used := by
      apply List.take_of_length_le
      rw [header_length]
      omega
    simp only [File.Sink.write, hTake, header_length, List.nil_append]
  obtain ⟨out, hOut⟩ := writeLocations_room ⟨header self.used, room - 16⟩
    (show 40 * self.head.toList.length ≤ room - 16 by omega)
  refine ⟨out, ?_⟩
  simp only [Geo.finalise, if_neg hTree, hWrite, hOut]
  rfl

/-- The database of the elements of the tree knows the entries that are in it. -/
theorem Geo.Holds.knows (h : self.Holds entries) (hSome : entries ≠ []) :
    Knows ⟨self.head.toList, self.head.toList.length⟩ entries := by
  have hProper := h.proper_data
  have hData : ∀ e ∈ entries, e.data ∈ self.head.toList := fun e hMem =>
    h.perm.mem_iff.mpr (List.mem_map_of_mem hMem)
  refine ⟨fun e he me hMe => ?_, fun e he e' he' me hMe hMe' => ?_, fun me hNone => ?_⟩
  · exact get_found h.increasing hProper (hData e he) hMe
  · have hSame := eq_of_contains h.increasing hProper (hData e' he') (hData e he) hMe' hMe
    cases e
    cases e'
    simpa [Entry.data] using hSame
  · apply get_missing h.increasing hProper
    · intro hNil
      have hLength := h.perm.length_eq
      rw [hNil, List.length_nil, List.length_map] at hLength
      exact hSome (List.length_eq_zero_iff.mp hLength.symm)
    · intro x hx hContains
      obtain ⟨e, he, rfl⟩ := List.mem_map.mp (h.perm.mem_iff.mp hx)
      exact hNone e he hContains

/-- A file that was cut off is not intact. -/
theorem not_intact_of_cut {xs : List Location} {n : Nat} (hCount : xs.length < 2 ^ 32)
    (hCut : n < (header xs.length ++ xs.flatMap Location.encode).length) :
    ¬ Intact ((header xs.length ++ xs.flatMap Location.encode).take n) := by
  intro hIntact
  have hLength : (xs.flatMap Location.encode).length = 40 * xs.length := by
    simp [List.length_flatMap, Nat.mul_comm]
  have hHeader := hIntact.header
  have hComplete := hIntact.complete
  rw [List.length_append, header_length, hLength] at hCut
  rw [List.length_take, List.length_append, header_length, hLength] at hHeader hComplete
  have hField : Bytes.field ((header xs.length ++ xs.flatMap Location.encode).take n) 12 4 =
      Bytes.field (header xs.length ++ xs.flatMap Location.encode) 12 4 := by
    simpa using Bytes.field_within (header xs.length ++ xs.flatMap Location.encode) 0
      (show 12 + 4 ≤ n by omega)
  rw [hField, (header_fields xs.length _).2.2,
    Nat.mod_eq_of_lt (show xs.length < 256 ^ 4 from hCount)] at hComplete
  omega

/-- A list of entries as the GeoIP input provides it is accepted if and only if
no two ranges overlap. The file that is written then is loaded into a database
that knows the entries, and no part of it is. Of a file that is damaged nothing
is known. -/
theorem locate_correct (hInput : GeoInput entries) :
    ((∃ geo, parse entries = .ok geo) ↔ entries.Pairwise Entry.Apart) ∧
    (∀ geo, parse entries = .ok geo →
      (∀ room, 16 + 40 * entries.length ≤ room → ∃ out, geo.finalise true room = .ok (some out)) ∧
      ∀ openOk room out, geo.finalise openOk room = .ok (some out) →
        (∃ db, init true true (some out.contents) = some db ∧ Knows db entries) ∧
        ∀ n < out.contents.length, ¬ Intact (out.contents.take n)) ∧
    ∀ contents reallocOk, ¬ Intact contents →
      init true reallocOk (some contents) = some .empty ∧
        ∀ me, Locates.empty.get me = locateUnknown := by
  refine ⟨?_, fun geo hParse => ?_, fun contents reallocOk hDamaged => ?_⟩
  · rw [parse, Geo.line_ok_iff parse_holds (by simpa using hInput.few) hInput.known hInput.proper]
    simp
  · have hHolds : geo.Holds entries := by
      simpa using Geo.line_holds parse_holds hInput.known hInput.proper hParse
    have hLength : geo.head.toList.length = entries.length := by
      rw [hHolds.perm.length_eq, List.length_map]
    have hUsed : geo.used = geo.head.toList.length := hHolds.used.trans hLength.symm
    have hCount : geo.head.toList.length < 2 ^ 32 := by
      have hFew := hInput.few
      simp only [geoCapacity] at hFew
      omega
    have hSome : geo.head.toList ≠ [] := fun hNil => by
      rw [hNil, List.length_nil] at hLength
      exact hInput.some (List.length_eq_zero_iff.mp hLength.symm)
    constructor
    · intro room hRoom
      exact Geo.finalise_room hSome (by rw [hLength]; exact hRoom)
    · intro openOk room out hOut
      rw [Geo.finalise_contents hOut, hUsed]
      constructor
      · refine ⟨⟨geo.head.toList, geo.head.toList.length⟩, ?_, hHolds.knows hInput.some⟩
        rw [init, if_neg (by decide), load_entries hSome hCount]
      · intro n hCut
        exact not_intact_of_cut hCount hCut
  · rw [init, if_neg (by decide), load_damaged reallocOk hDamaged]
    exact ⟨rfl, get_empty⟩

/-- An address with a number in its last byte. -/
def lowAddr (low : UInt8) : NetAddr := ⟨List.replicate 15 0 ++ [low], by simp⟩

/-- Two ranges that touch but do not overlap. -/
def twoRanges : List Entry := [⟨lowAddr 5, lowAddr 9, 17⟩, ⟨lowAddr 1, lowAddr 4, 3⟩]

theorem twoRanges_input : GeoInput twoRanges := by
  refine ⟨by decide, by decide, ?_, ?_⟩
  · intro e hMem
    simp only [twoRanges, List.mem_cons, List.not_mem_nil, or_false] at hMem
    rcases hMem with rfl | rfl
    · decide
    · decide
  · intro e hMem
    simp only [twoRanges, List.mem_cons, List.not_mem_nil, or_false] at hMem
    rcases hMem with rfl | rfl
    · decide
    · decide

theorem locate_correct_two :
    ∃ geo out db, parse twoRanges = .ok geo ∧ geo.finalise true 96 = .ok (some out) ∧
      init true true (some out.contents) = some db ∧ Knows db twoRanges := by
  obtain ⟨hAccept, hWritten, _⟩ := locate_correct twoRanges_input
  have hApart : twoRanges.Pairwise Entry.Apart := by
    refine List.pairwise_pair.mpr ?_
    rw [apart_iff (by decide) (by decide)]
    decide
  obtain ⟨geo, hParse⟩ := hAccept.mpr hApart
  obtain ⟨hRoom, hFile⟩ := hWritten geo hParse
  obtain ⟨out, hOut⟩ := hRoom 96 (by decide)
  obtain ⟨⟨db, hInit, hKnows⟩, _⟩ := hFile true 96 out hOut
  exact ⟨geo, out, db, hParse, hOut, hInit, hKnows⟩

end Peak.Locate
