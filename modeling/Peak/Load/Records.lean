import Peak.Load.Reader

/-! What a call of `peak_load_packet` finds in the file: the record at the file
position, or the packet block that the PCAPNG blocks lead to. Everything a call
does to the packet buffer follows from that record. -/
namespace Peak.Load

open Bytes

/-- A record as its reader sees it: where its data starts, how many bytes of it
are asked for, and the length that is reported for it. -/
structure Record where
  start : Nat
  asked : Nat
  reported : Nat
deriving DecidableEq, Repr

/-- The ERF record at a position, if its header is complete and small enough. -/
def erfRecord (contents : List UInt8) (pos : Nat) : Option Record :=
  let rlen := (be (field contents (pos + 10) 2) + (65536 - 18)) % 65536
  if pos + 18 ≤ contents.length ∧ rlen ≤ bufSize then
    some ⟨pos + 18, rlen, be (field contents (pos + 14) 2)⟩
  else none

def pcapRecord (fmt : Format) (contents : List UInt8) (pos : Nat) : Option Record :=
  let inclLen := pcapWord fmt contents (pos + 8)
  if pos + 16 ≤ contents.length ∧ inclLen ≤ bufSize then some ⟨pos + 16, inclLen, inclLen⟩
  else none

def netmonRecord (contents : List UInt8) (pos : Nat) : Option Record :=
  let includeLength := le (field contents (pos + 12) 4)
  if pos + 16 ≤ contents.length ∧ includeLength ≤ bufSize then
    some ⟨pos + 16, includeLength, le (field contents (pos + 8) 4)⟩
  else none

/-- The type of the block at a position. -/
def blockType (contents : List UInt8) (pos : Nat) : Nat := le (field contents pos 4)

/-- The length of the block at a position. -/
def blockLength (contents : List UInt8) (pos : Nat) : Nat := le (field contents (pos + 4) 4)

/-- There is a whole block header at the position, and its length passes the
check against the packet buffer. -/
def BlockAt (contents : List UInt8) (pos : Nat) : Prop :=
  pos + 8 ≤ contents.length ∧ blockLength contents pos ≤ bufSize

instance (contents : List UInt8) (pos : Nat) : Decidable (BlockAt contents pos) :=
  inferInstanceAs (Decidable (_ ∧ _))

/-- The block at the position holds a packet. -/
def PacketBlock (contents : List UInt8) (pos : Nat) : Prop :=
  blockType contents pos = 2 ∨ blockType contents pos = 6

instance (contents : List UInt8) (pos : Nat) : Decidable (PacketBlock contents pos) :=
  inferInstanceAs (Decidable (_ ∨ _))

/-- The block at the position is skipped: it holds no packet, and an interface
description has its first eight bytes. -/
def Skipped (contents : List UInt8) (pos : Nat) : Prop :=
  BlockAt contents pos ∧ ¬ PacketBlock contents pos ∧
    (blockType contents pos = 1 → pos + 16 ≤ contents.length)

instance (contents : List UInt8) (pos : Nat) : Decidable (Skipped contents pos) :=
  inferInstanceAs (Decidable (_ ∧ _ ∧ _))

/-- From a block that is skipped to the one its length points to. -/
def Skip (contents : List UInt8) (pos pos' : Nat) : Prop :=
  Skipped contents pos ∧ pos' = pos + blockLength contents pos

/-- Skipping blocks leads from one position to the other. -/
def SkipTo (contents : List UInt8) : Nat → Nat → Prop := Relation.ReflTransGen (Skip contents)

def pcapngRecord (contents : List UInt8) (pos : Nat) : Option Record :=
  if BlockAt contents pos ∧ PacketBlock contents pos ∧ pos + 28 ≤ contents.length then
    some ⟨pos + 28, File.sizeSub (File.sizeSub (blockLength contents pos) 8) 20,
      le (field contents (pos + 24) 4)⟩
  else none

/-- The record that the next call takes its packet from. -/
def Meets (s : Loader) (r : Record) : Prop :=
  match s.fmt with
  | .erf => erfRecord s.file.contents s.file.pos = some r
  | .pcap => pcapRecord .pcap s.file.contents s.file.pos = some r
  | .pcapSwap => pcapRecord .pcapSwap s.file.contents s.file.pos = some r
  | .pcapng => ∃ pos, SkipTo s.file.contents s.file.pos pos ∧
      pcapngRecord s.file.contents pos = some r
  | .netmon => s.netmonPos ≠ s.netmonCount ∧
      netmonRecord s.file.contents (s.netmonTable.getD s.netmonPos 0) = some r

/-- The read of a record's data. -/
def Record.got (r : Record) (contents : List UInt8) : File.Got :=
  (File.mk contents r.start).read r.asked

/-- The reader takes the read of the record's data for complete. -/
def Record.Complete (r : Record) (contents : List UInt8) : Prop :=
  (r.got contents).ret = File.signed r.asked

instance (r : Record) (contents : List UInt8) : Decidable (r.Complete contents) :=
  inferInstanceAs (Decidable (_ = _))

/-- What a call leaves behind if it took its packet from the record. -/
structure Taken (s s' : Loader) (r : Record) : Prop where
  transfers : s'.transfers = [⟨r.start, r.asked, (r.got s.file.contents).bytes⟩]
  buf : s'.buf = Cells.write s.buf 0 (r.got s.file.contents).bytes
  len : s'.len = if r.Complete s.file.contents then r.reported else 0
  contents : s'.file.contents = s.file.contents

/-- What a call leaves behind if it found no record. -/
structure Missed (s s' : Loader) : Prop where
  transfers : s'.transfers = []
  len : s'.len = 0
  contents : s'.file.contents = s.file.contents

/-- What a call leaves behind, with or without a record. -/
def Follows (s s' : Loader) : Option Record → Prop
  | some r => Taken s s' r
  | none => Missed s s'

/-- The state in which a call turns to the file: nothing is loaded yet. -/
structure Fresh (s : Loader) : Prop where
  transfers : s.transfers = []
  len : s.len = 0

/-- The header at the file position is complete. -/
theorem readHeader_full {s : Loader} {size : Nat} (hSize : size < 2 ^ 63)
    (hLeft : s.file.pos + size ≤ s.file.contents.length) :
    s.readHeader size = (some ((s.file.contents.drop s.file.pos).take size),
      { s with file := ⟨s.file.contents, s.file.pos + size⟩ }) := by
  simp only [Loader.readHeader, File.read_full hSize hLeft, if_true]

/-- The file ends within the header. -/
theorem readHeader_short {s : Loader} {size : Nat} (hPos : 0 < size) (hSize : size < 2 ^ 63)
    (hLeft : s.file.contents.length < s.file.pos + size) :
    s.readHeader size = (none, { s with file := (s.file.read size).file }) := by
  have hRet : (s.file.read size).ret ≠ size := fun h => by
    have := (File.read_ret_iff hPos hSize).mp h
    omega
  simp only [Loader.readHeader, if_neg hRet]

/-- All readers end by reading the data of the record. -/
theorem loadData_taken {s s₁ : Loader} {start asked reported : Nat} {sec usec : Int}
    (hFile : s₁.file = ⟨s.file.contents, start⟩) (hBuf : s₁.buf = s.buf) (hFresh : Fresh s₁) :
    Taken s (s₁.loadData asked sec usec reported) ⟨start, asked, reported⟩ := by
  have hGot : s₁.file.read asked = Record.got ⟨start, asked, reported⟩ s.file.contents := by
    rw [hFile, Record.got]
  have hPos : s₁.file.pos = start := by rw [hFile]
  have hContents : (s₁.readBuf asked).2.file.contents = s.file.contents := by
    simp only [Loader.readBuf, File.read_contents, hFile]
  by_cases hComplete : Record.Complete ⟨start, asked, reported⟩ s.file.contents
  · have hRet : (s₁.readBuf asked).1 = File.signed asked := by
      rw [Loader.readBuf, hGot]
      exact hComplete
    have hData : s₁.loadData asked sec usec reported =
        { (s₁.readBuf asked).2 with tsSec := sec, tsUsec := usec, len := reported } :=
      if_neg (not_not_intro hRet)
    rw [hData]
    constructor
    · simp only [Loader.readBuf, hGot, hPos, hFresh.transfers, List.nil_append]
    · simp only [Loader.readBuf, hGot, hBuf]
    · rw [if_pos hComplete]
    · exact hContents
  · have hRet : (s₁.readBuf asked).1 ≠ File.signed asked := by
      rw [Loader.readBuf, hGot]
      exact hComplete
    have hData : s₁.loadData asked sec usec reported = (s₁.readBuf asked).2 := if_pos hRet
    rw [hData]
    constructor
    · simp only [Loader.readBuf, hGot, hPos, hFresh.transfers, List.nil_append]
    · simp only [Loader.readBuf, hGot, hBuf]
    · rw [if_neg hComplete]
      exact hFresh.len
    · exact hContents

/-- They give up on records that are larger than the packet buffer. -/
theorem guarded_follows {s s₁ : Loader} {start asked reported : Nat} {sec usec : Int}
    (hFile : s₁.file = ⟨s.file.contents, start⟩) (hBuf : s₁.buf = s.buf) (hFresh : Fresh s₁) :
    Follows s (if bufSize < asked then s₁ else s₁.loadData asked sec usec reported)
      (if asked ≤ bufSize then some ⟨start, asked, reported⟩ else none) := by
  by_cases hBig : bufSize < asked
  · rw [if_pos hBig, if_neg (Nat.not_le.mpr hBig)]
    exact ⟨hFresh.transfers, hFresh.len, by rw [hFile]⟩
  · rw [if_neg hBig, if_pos (Nat.le_of_not_lt hBig)]
    exact loadData_taken hFile hBuf hFresh

/-- `_peak_load_erf` follows the ERF record at the file position. -/
theorem loadErf_follows {s : Loader} (hFresh : Fresh s) :
    Follows s (loadErf s) (erfRecord s.file.contents s.file.pos) := by
  by_cases hHeader : s.file.pos + 18 ≤ s.file.contents.length
  · have hRlen := field_within s.file.contents s.file.pos (show 10 + 2 ≤ 18 by omega)
    have hWlen := field_within s.file.contents s.file.pos (show 14 + 2 ≤ 18 by omega)
    simp only [loadErf, readHeader_full (show 18 < 2 ^ 63 by omega) hHeader, erfRecord, hRlen, hWlen,
      hHeader, true_and]
    generalize (be (field s.file.contents (s.file.pos + 10) 2) + (65536 - 18)) % 65536 = rlen
    exact guarded_follows rfl rfl ⟨hFresh.transfers, hFresh.len⟩
  · simp only [loadErf, readHeader_short (show 0 < 18 by omega) (show 18 < 2 ^ 63 by omega)
      (Nat.lt_of_not_le hHeader), erfRecord, hHeader, false_and, if_false]
    exact ⟨hFresh.transfers, hFresh.len, File.read_contents⟩

/-- `_peak_load_pcap` follows the PCAP record at the file position. -/
theorem loadPcap_follows {s : Loader} (hFresh : Fresh s) :
    Follows s (loadPcap s) (pcapRecord s.fmt s.file.contents s.file.pos) := by
  by_cases hHeader : s.file.pos + 16 ≤ s.file.contents.length
  · have hIncl : pcapWord s.fmt ((s.file.contents.drop s.file.pos).take 16) 8 =
        pcapWord s.fmt s.file.contents (s.file.pos + 8) := by
      simp only [pcapWord, field_within s.file.contents s.file.pos (show 8 + 4 ≤ 16 by omega)]
    simp only [loadPcap, readHeader_full (show 16 < 2 ^ 63 by omega) hHeader, pcapRecord, hIncl,
      hHeader, true_and]
    exact guarded_follows rfl rfl ⟨hFresh.transfers, hFresh.len⟩
  · simp only [loadPcap, readHeader_short (show 0 < 16 by omega) (show 16 < 2 ^ 63 by omega)
      (Nat.lt_of_not_le hHeader), pcapRecord, hHeader, false_and, if_false]
    exact ⟨hFresh.transfers, hFresh.len, File.read_contents⟩

/-- `_peak_load_netmon` follows the record that the frame table names next. -/
theorem loadNetmon_follows {s : Loader} (hFresh : Fresh s) (hMore : s.netmonPos ≠ s.netmonCount) :
    Follows s (loadNetmon s)
      (netmonRecord s.file.contents (s.netmonTable.getD s.netmonPos 0)) := by
  simp only [loadNetmon, if_neg hMore, File.seekSet]
  generalize s.netmonTable.getD s.netmonPos 0 = pos
  by_cases hHeader : pos + 16 ≤ s.file.contents.length
  · have hOriginal := field_within s.file.contents pos (show 8 + 4 ≤ 16 by omega)
    have hInclude := field_within s.file.contents pos (show 12 + 4 ≤ 16 by omega)
    rw [readHeader_full (show 16 < 2 ^ 63 by omega) hHeader]
    simp only [netmonRecord, hOriginal, hInclude, hHeader, true_and]
    exact guarded_follows rfl rfl ⟨hFresh.transfers, hFresh.len⟩
  · rw [readHeader_short (show 0 < 16 by omega) (show 16 < 2 ^ 63 by omega)
      (Nat.lt_of_not_le hHeader)]
    simp only [netmonRecord, hHeader, false_and, if_false]
    exact ⟨hFresh.transfers, hFresh.len, File.read_contents⟩

/-- All records of the frame table are read. -/
theorem loadNetmon_end {s : Loader} (hFresh : Fresh s) (hEnd : s.netmonPos = s.netmonCount) :
    Follows s (loadNetmon s) none := by
  rw [loadNetmon, if_pos hEnd]
  exact ⟨hFresh.transfers, hFresh.len, rfl⟩

end Peak.Load
