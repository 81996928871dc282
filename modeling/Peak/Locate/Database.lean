import Mathlib.Algebra.Group.Nat.Defs
import Peak.Base.File
import Peak.Base.Ranges
import Peak.Track.Key

/-! `lib/peak_locate.c`: the location database. It is loaded from a file as a
whole and then searched by address. -/
namespace Peak.Locate

open Bytes Ordered Ranges Search Std Track

/-- `struct netaddr`. -/
structure NetAddr where
  bytes : List UInt8
  size : bytes.length = 16
deriving DecidableEq, Repr

/-- `netcmp`. -/
def netcmp (x y : NetAddr) : Ordering := memcmp x.bytes y.bytes

instance : TransCmp netcmp := inferInstanceAs (TransCmp (compareOn NetAddr.bytes))

/-- `struct peak_locate`. -/
structure Location where
  min : NetAddr
  max : NetAddr
  location : UInt32
  reserved : UInt32
deriving DecidableEq, Repr

/-- The addresses that an entry is about. -/
def Location.range (e : Location) : Range NetAddr := ⟨e.min, e.max⟩

/-- `peak_locate_cmp`. -/
def peakLocateCmp (x y : Location) : Ordering :=
  if netcmp x.max y.min = .lt then .lt
  else if netcmp x.min y.max = .gt then .gt
  else .eq

/-- `LOCATE_UNKNOWN`. -/
def locateUnknown : Nat := 0

/-- `LOCATE_XX`, the location that is not defined. -/
def locateXx : Nat := 245

def locateMagic : Nat := 0x10CA7E10CA7E7412
def locateRevision : Nat := 1

/-- `struct peak_locates`. -/
structure Locates where
  mem : List Location
  count : Nat
deriving DecidableEq, Repr

/-- The database in which nothing is known. -/
def Locates.empty : Locates := ⟨[], 0⟩

/-- `peak_locate_get`. The comparison does not look at the location of the
reference entry. -/
def Locates.get (self : Locates) (me : NetAddr) : Nat :=
  if self.count ≠ 0 then
    match bsearch (peakLocateCmp ⟨me, me, 0, 0⟩) self.mem self.count with
    | some elm => elm.location.toNat
    | none => locateXx
  else locateUnknown

/-- An address in memory. Bytes that are missing are taken for zero. -/
def NetAddr.ofBytes (bytes : List UInt8) : NetAddr := ⟨bytes.takeD 16 0, List.takeD_length 16 bytes 0⟩

/-- The bytes of `struct peak_locate` on a little-endian machine. -/
def Location.encode (e : Location) : List UInt8 :=
  e.min.bytes ++ (e.max.bytes ++ (Bytes.encode 4 e.location.toNat ++ Bytes.encode 4 e.reserved.toNat))

/-- The bytes of `struct peak_locate_hdr` for a number of entries. -/
def header (count : Nat) : List UInt8 :=
  Bytes.encode 8 locateMagic ++ (Bytes.encode 4 locateRevision ++ Bytes.encode 4 count)

/-- The entry that is copied from the bytes of a `struct peak_locate`. -/
def Location.decode (bytes : List UInt8) : Location where
  min := .ofBytes (field bytes 0 16)
  max := .ofBytes (field bytes 16 16)
  location := .ofNat (le (field bytes 32 4))
  reserved := .ofNat (le (field bytes 36 4))

/-- The loop of `peak_locate_init` over the entries that are still to be read.
It gives up on a file that is not complete. -/
def readLocations : Nat → File → Option (List Location)
  | 0, _ => some []
  | count + 1, f =>
      let got := f.read 40
      if got.ret ≠ 40 then none
      else (readLocations count got.file).map (Location.decode got.bytes :: ·)

/-- `peak_locate_init` behind the opening of the file. -/
def load (reallocOk : Bool) (contents : List UInt8) : Locates :=
  let hdr := (File.mk contents 0).read 16
  let count := le (field hdr.bytes 12 4)
  if hdr.ret ≠ 16 then .empty
  else if le (field hdr.bytes 0 8) ≠ locateMagic then .empty
  else if le (field hdr.bytes 8 4) ≠ locateRevision then .empty
  else if count = 0 then .empty
  else if reallocOk = false then .empty
  else
    match readLocations count hdr.file with
    | none => .empty
    | some mem => ⟨mem, count⟩

/-- `peak_locate_init` on a file that can be opened or not. -/
def init (mallocOk reallocOk : Bool) (file : Option (List UInt8)) : Option Locates :=
  if mallocOk = false then none
  else
    match file with
    | none => some .empty
    | some contents => some (load reallocOk contents)

/-- A database file with a header that is accepted and as many entries as that
says. -/
structure Intact (contents : List UInt8) : Prop where
  header : 16 ≤ contents.length
  magic : le (field contents 0 8) = locateMagic
  revision : le (field contents 8 4) = locateRevision
  complete : 16 + 40 * le (field contents 12 4) ≤ contents.length

variable {contents : List UInt8} {e x y : Location} {me : NetAddr} {xs : List Location}

theorem peakLocateCmp_eq (x y : Location) :
    peakLocateCmp x y = overlapCmp netcmp x.range y.range := rfl

@[simp] theorem encode_length (e : Location) : e.encode.length = 40 := by
  simp [Location.encode, e.min.size, e.max.size]

theorem ofBytes_bytes (a : NetAddr) : NetAddr.ofBytes a.bytes = a := by
  cases a with
  | mk bytes size =>
      rw [NetAddr.ofBytes, NetAddr.mk.injEq]
      rw [List.takeD_eq_take _ (Nat.le_of_eq size.symm)]
      exact List.take_of_length_le (Nat.le_of_eq size)

/-- An entry that was written is read back. -/
theorem decode_encode (e : Location) : Location.decode e.encode = e := by
  have hMin : field e.encode 0 16 = e.min.bytes := field_append_left _ e.min.size
  have hMax : field e.encode 16 16 = e.max.bytes := by
    rw [Location.encode, field_append_right _ _ (Nat.le_of_eq e.min.size), e.min.size]
    exact field_append_left _ e.max.size
  have hLocation : field e.encode 32 4 = Bytes.encode 4 e.location.toNat := by
    rw [Location.encode, field_append_right _ _ (by rw [e.min.size]; omega), e.min.size,
      field_append_right _ _ (Nat.le_of_eq e.max.size), e.max.size]
    exact field_append_left _ (Bytes.encode_length 4 _)
  have hReserved : field e.encode 36 4 = Bytes.encode 4 e.reserved.toNat := by
    rw [Location.encode, field_append_right _ _ (by rw [e.min.size]; omega), e.min.size,
      field_append_right _ _ (by rw [e.max.size]; omega), e.max.size,
      field_append_right _ _ (Nat.le_of_eq (Bytes.encode_length 4 _)), Bytes.encode_length]
    simp [field]
  have hWord : ∀ word : UInt32, UInt32.ofNat (le (Bytes.encode 4 word.toNat)) = word := by
    intro word
    rw [le_encode, Nat.mod_eq_of_lt (show word.toNat < 256 ^ 4 from word.toNat_lt), UInt32.ofNat_toNat]
  rw [Location.decode, hMin, hMax, hLocation, hReserved, ofBytes_bytes, ofBytes_bytes, hWord, hWord]

/-- Entries that are all there are read. -/
theorem readLocations_encode {f : File} {rest : List UInt8}
    (hAt : f.contents.drop f.pos = xs.flatMap Location.encode ++ rest) :
    readLocations xs.length f = some xs := by
  induction xs generalizing f with
  | nil => rfl
  | cons x xs ih =>
      rw [List.flatMap_cons, List.append_assoc] at hAt
      have hLeft : f.pos + 40 ≤ f.contents.length := by
        have hLength := congrArg List.length hAt
        rw [List.length_drop, List.length_append, encode_length] at hLength
        omega
      have hEntry : (f.contents.drop f.pos).take 40 = x.encode := by
        rw [hAt, List.take_left' (encode_length x)]
      have hNext : f.contents.drop (f.pos + 40) = xs.flatMap Location.encode ++ rest := by
        rw [← List.drop_drop, hAt, List.drop_left' (encode_length x)]
      rw [List.length_cons, readLocations, File.read_full (show 40 < 2 ^ 63 by omega) hLeft, hEntry]
      dsimp only
      rw [if_neg (by decide), ih hNext, decode_encode, Option.map_some]

/-- Entries of which some are missing are not. -/
theorem readLocations_short {f : File} {count : Nat} (hPos : f.pos ≤ f.contents.length)
    (hShort : f.contents.length < f.pos + 40 * count) : readLocations count f = none := by
  induction count generalizing f with
  | zero => omega
  | succ count ih =>
      rw [readLocations]
      by_cases hLeft : f.pos + 40 ≤ f.contents.length
      · rw [File.read_full (show 40 < 2 ^ 63 by omega) hLeft]
        dsimp only
        rw [if_neg (by decide), ih hLeft (by dsimp only; omega), Option.map_none]
      · have hRet : (f.read 40).ret ≠ 40 := fun h =>
          hLeft ((File.read_ret_iff (show 0 < 40 by omega) (show 40 < 2 ^ 63 by omega)).mp h)
        rw [if_pos hRet]

/-- `load` on a file with a whole header. -/
theorem load_header (reallocOk : Bool) (hHeader : 16 ≤ contents.length) :
    load reallocOk contents =
      let count := le (field contents 12 4)
      if le (field contents 0 8) ≠ locateMagic then .empty
      else if le (field contents 8 4) ≠ locateRevision then .empty
      else if count = 0 then .empty
      else if reallocOk = false then .empty
      else
        match readLocations count ⟨contents, 16⟩ with
        | none => .empty
        | some mem => ⟨mem, count⟩ := by
  have hRead := File.read_full (f := ⟨contents, 0⟩) (show 16 < 2 ^ 63 by omega)
    (show 0 + 16 ≤ contents.length by omega)
  have hField : ∀ off width, off + width ≤ 16 →
      field (contents.take 16) off width = field contents off width := by
    intro off width hInside
    simpa using field_within contents 0 hInside
  simp only [load, hRead, List.drop_zero, hField 0 8 (by omega), hField 8 4 (by omega),
    hField 12 4 (by omega)]
  rw [if_neg (show ¬ ((16 : Nat) : Int) ≠ 16 by decide)]

/-- A file that is cut off, or that has another magic number or revision, is
taken for one without entries. -/
theorem load_damaged (reallocOk : Bool) (hDamaged : ¬ Intact contents) :
    load reallocOk contents = .empty := by
  by_cases hHeader : 16 ≤ contents.length
  · rw [load_header reallocOk hHeader]
    dsimp only
    split_ifs with hMagic hRevision hCount hRealloc
    · rfl
    · rfl
    · rfl
    · rfl
    · have hShort : contents.length < 16 + 40 * le (field contents 12 4) := by
        by_contra hLong
        exact hDamaged ⟨hHeader, not_not.mp hMagic, not_not.mp hRevision, Nat.le_of_not_lt hLong⟩
      rw [readLocations_short hHeader hShort]
  · have hRet : ((File.mk contents 0).read 16).ret ≠ 16 := fun h => by
      have hLeft := (File.read_ret_iff (show 0 < 16 by omega) (show 16 < 2 ^ 63 by omega)).mp h
      dsimp only at hLeft
      omega
    rw [load, if_pos hRet]

/-- In the empty database every address is unknown. -/
theorem get_empty (me : NetAddr) : Locates.empty.get me = locateUnknown := rfl

@[simp] theorem header_length (count : Nat) : (header count).length = 16 := by
  simp [header]

/-- The fields of a header that was written. -/
theorem header_fields (count : Nat) (rest : List UInt8) :
    le (field (header count ++ rest) 0 8) = locateMagic ∧
      le (field (header count ++ rest) 8 4) = locateRevision ∧
      le (field (header count ++ rest) 12 4) = count % 256 ^ 4 := by
  have hFront : ∀ off width, off + width ≤ 16 →
      field (header count ++ rest) off width = field (header count) off width := by
    intro off width hInside
    exact field_append_front rest (by rw [header_length]; exact hInside)
  refine ⟨?_, ?_, ?_⟩
  · rw [hFront 0 8 (by omega), header, field_append_left _ (Bytes.encode_length 8 _), le_encode]
    rfl
  · rw [hFront 8 4 (by omega), header, field_append_right _ _ (Nat.le_of_eq (Bytes.encode_length 8 _)),
      Bytes.encode_length]
    rw [field_append_left _ (Bytes.encode_length 4 _), le_encode]
    rfl
  · have hLast : field (header count) 12 4 = Bytes.encode 4 count := by
      rw [header, field_append_right _ _ (by rw [Bytes.encode_length]; omega), Bytes.encode_length,
        field_append_right _ _ (Nat.le_of_eq (Bytes.encode_length 4 _)), Bytes.encode_length]
      simp [field]
    rw [hFront 12 4 (by omega), hLast, le_encode]

/-- A file with its header and all its entries is loaded. -/
theorem load_entries (hSome : xs ≠ []) (hCount : xs.length < 2 ^ 32) :
    load true (header xs.length ++ xs.flatMap Location.encode) = ⟨xs, xs.length⟩ := by
  obtain ⟨hMagic, hRevision, hEntries⟩ := header_fields xs.length (xs.flatMap Location.encode)
  rw [Nat.mod_eq_of_lt (show xs.length < 256 ^ 4 from hCount)] at hEntries
  have hAt : (header xs.length ++ xs.flatMap Location.encode).drop 16 =
      xs.flatMap Location.encode ++ [] := by
    rw [List.drop_left' (header_length xs.length), List.append_nil]
  have hPos : xs.length ≠ 0 := fun h => hSome (List.length_eq_zero_iff.mp h)
  rw [load_header true (by rw [List.length_append, header_length]; omega), hEntries]
  dsimp only
  rw [if_neg (not_not_intro hMagic), if_neg (not_not_intro hRevision), if_neg hPos,
    if_neg (by decide), readLocations_encode hAt]

/-- On entries that follow one another every address has its order. -/
theorem peakLocateCmp_partitioned (hIncreasing : Increasing peakLocateCmp xs)
    (hProper : ∀ e ∈ xs, e.range.Proper netcmp) (hx : x.range.Proper netcmp) :
    Partitioned (peakLocateCmp x) xs := by
  have hRanges : Increasing (overlapCmp netcmp) (xs.map Location.range) :=
    List.pairwise_map.mpr hIncreasing
  exact List.pairwise_map.mp (partitioned hRanges hx (List.forall_mem_map.mpr hProper))

/-- An entry that goes between the ones in front of it and the ones behind it
keeps them in order. -/
theorem peakLocateCmp_insert {front back : List Location}
    (hIncreasing : Increasing peakLocateCmp (front ++ back)) (hx : x.range.Proper netcmp)
    (hProper : ∀ e ∈ front, e.range.Proper netcmp) (hFront : ∀ y ∈ front, peakLocateCmp x y = .gt)
    (hBack : ∀ y ∈ back, peakLocateCmp x y = .lt) :
    Increasing peakLocateCmp (front ++ x :: back) := by
  have hRanges : Increasing (overlapCmp netcmp) (front.map Location.range ++ back.map Location.range) := by
    rw [← List.map_append]
    exact List.pairwise_map.mpr hIncreasing
  have hNew := Ranges.increasing_insert hRanges hx (List.forall_mem_map.mpr hProper)
    (List.forall_mem_map.mpr hFront) (List.forall_mem_map.mpr hBack)
  rw [← List.map_cons, ← List.map_append] at hNew
  exact List.pairwise_map.mp hNew

/-- The reference entry of a search. -/
theorem point_proper (me : NetAddr) : (Location.mk me me 0 0).range.Proper netcmp := by
  have hSame : netcmp me me = .eq := ReflCmp.compare_self
  show (netcmp me me).isLE
  rw [hSame]
  rfl

/-- No two entries that follow one another contain the same address. -/
theorem eq_of_contains (hIncreasing : Increasing peakLocateCmp xs)
    (hProper : ∀ e ∈ xs, e.range.Proper netcmp) (hx : x ∈ xs) (hy : y ∈ xs)
    (hxMe : x.range.Contains netcmp me) (hyMe : y.range.Contains netcmp me) : x = y := by
  have hEq : ∀ v ∈ xs, ∀ w ∈ xs, v.range.Contains netcmp me → w.range.Contains netcmp me →
      peakLocateCmp v w = .eq := by
    intro v hv w hw hvMe hwMe
    rw [peakLocateCmp_eq, overlapCmp_eq (hProper v hv) (hProper w hw)]
    exact fun hApart => hApart me ⟨hvMe, hwMe⟩
  rcases hIncreasing.cases hx hy with hSame | hLess | hLess
  · exact hSame
  · rw [hEq x hx y hy hxMe hyMe] at hLess
    cases hLess
  · rw [hEq y hy x hx hyMe hxMe] at hLess
    cases hLess

/-- An address is found in the entry that contains it. -/
theorem get_found (hIncreasing : Increasing peakLocateCmp xs)
    (hProper : ∀ e ∈ xs, e.range.Proper netcmp) (hMem : e ∈ xs)
    (hContains : e.range.Contains netcmp me) :
    (Locates.mk xs xs.length).get me = e.location.toNat := by
  have hPos : xs.length ≠ 0 := fun h => by
    rw [List.length_eq_zero_iff.mp h] at hMem
    cases hMem
  have hFound : bsearch (peakLocateCmp ⟨me, me, 0, 0⟩) xs xs.length = some e := by
    apply bsearch_eq_some (peakLocateCmp_partitioned hIncreasing hProper (point_proper me)) hMem
    · rw [peakLocateCmp_eq]
      exact overlapCmp_point.mpr hContains
    · intro y hy hEq
      rw [peakLocateCmp_eq] at hEq
      exact eq_of_contains hIncreasing hProper hy hMem (overlapCmp_point.mp hEq) hContains
  simp only [Locates.get, ne_eq, hPos, not_false_eq_true, if_true, hFound]

/-- An address that no entry contains is undefined. -/
theorem get_missing (hIncreasing : Increasing peakLocateCmp xs)
    (hProper : ∀ e ∈ xs, e.range.Proper netcmp) (hSome : xs ≠ [])
    (hNone : ∀ e ∈ xs, ¬ e.range.Contains netcmp me) :
    (Locates.mk xs xs.length).get me = locateXx := by
  have hPos : xs.length ≠ 0 := fun h => hSome (List.length_eq_zero_iff.mp h)
  have hMissing : bsearch (peakLocateCmp ⟨me, me, 0, 0⟩) xs xs.length = none := by
    rw [bsearch_none_iff (peakLocateCmp_partitioned hIncreasing hProper (point_proper me))]
    intro e he hEq
    rw [peakLocateCmp_eq] at hEq
    exact hNone e he (overlapCmp_point.mp hEq)
  simp only [Locates.get, ne_eq, hPos, not_false_eq_true, if_true, hMissing]

end Peak.Locate
