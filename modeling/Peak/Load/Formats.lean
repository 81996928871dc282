import Peak.Load.Store

/-! Reading well-formed ERF and NETMON traces with the loader. A trace is given
by its parts, written out byte by byte; what is proved is which packets the
calls of `peak_load_packet` hand out for it, with their link type. -/
namespace Peak.Load

open Bytes

/-- What a call that loaded a packet leaves to its caller. -/
structure Handed where
  ll : Nat
  frame : Frame
deriving DecidableEq, Repr

/-- The packet in the loader with the link type beside it. -/
def Loader.handed (s : Loader) : Handed := ⟨s.ll, s.frame⟩

/-- Load packets until `peak_load_packet` returns zero, with at most the given
number of calls, and note the link type at each packet. -/
def listing (fuel : Nat) : Nat → Loader → Option (List Handed)
  | 0, _ => none
  | calls + 1, s =>
      match packet fuel s with
      | .again _ => none
      | .done s' => if s'.len = 0 then some [] else (listing fuel calls s').map (s'.handed :: ·)

/-- A description of the states that still hand out the given packets yields
the listing, if one call hands out the first of them and leads to the
others. -/
theorem listing_of_holds {fuel : Nat} (Holds : List Handed → Loader → Prop)
    (hNone : ∀ s, Holds [] s → ∃ s', packet fuel s = .done s' ∧ s'.len = 0)
    (hNext : ∀ first others s, Holds (first :: others) s →
      ∃ s', packet fuel s = .done s' ∧ s'.len ≠ 0 ∧ s'.handed = first ∧ Holds others s')
    {packets : List Handed} {s : Loader} {calls : Nat} (hHolds : Holds packets s)
    (hCalls : packets.length < calls) : listing fuel calls s = some packets := by
  induction packets generalizing s calls with
  | nil =>
      obtain ⟨calls, rfl⟩ := Nat.exists_eq_add_of_lt hCalls
      obtain ⟨s', hPacket, hLen⟩ := hNone s hHolds
      simp only [listing, hPacket, hLen, if_true]
  | cons first others ih =>
      obtain ⟨calls, rfl⟩ := Nat.exists_eq_add_of_lt hCalls
      obtain ⟨s', hPacket, hLen, hHanded, hOthers⟩ := hNext first others s hHolds
      have hRest : listing fuel ((first :: others).length + calls) s' = some others :=
        ih hOthers (by simp only [List.length_cons]; omega)
      simp only [listing, hPacket, if_neg hLen, hRest, hHanded, Option.map_some]

variable {s : Loader} {front rest : List UInt8}

/-- A header that stands at the file position is read. -/
theorem readHeader_front (hAt : s.file.contents.drop s.file.pos = front ++ rest)
    (hSize : front.length < 2 ^ 63) :
    s.readHeader front.length =
      (some front, { s with file := ⟨s.file.contents, s.file.pos + front.length⟩ }) := by
  simp only [Loader.readHeader, File.read_front hAt hSize, if_true]

/-- Behind the last byte of a trace no header is read. -/
theorem readHeader_end (size : Nat) (hAt : s.file.contents.drop s.file.pos = [])
    (hPos : 0 < size) (hSize : size < 2 ^ 63) :
    s.readHeader size = (none, { s with file := (s.file.read size).file }) := by
  have hEnd := List.drop_eq_nil_iff.mp hAt
  exact readHeader_short hPos hSize (by omega)

/-- The data of a packet that stands at the file position is loaded. -/
theorem loadData_front {sec usec : Int} {len : Nat}
    (hAt : s.file.contents.drop s.file.pos = front ++ rest) (hSize : front.length < 2 ^ 63) :
    s.loadData front.length sec usec len =
      { s with
        file := ⟨s.file.contents, s.file.pos + front.length⟩
        buf := Cells.write s.buf 0 front
        transfers := s.transfers ++ [⟨s.file.pos, front.length, front⟩]
        tsSec := sec
        tsUsec := usec
        len := len } := by
  have hSigned : File.signed front.length = front.length := if_pos hSize
  simp only [Loader.loadData, Loader.readBuf, File.read_front hAt hSize, hSigned, ne_eq,
    not_true_eq_false, if_false]

/-- A packet whose time stamp and data were stored is handed out, whatever
follows its bytes in the data. -/
theorem frame_loaded {f : Frame} {tail : List UInt8} (file : File) (transfers : List Transfer) :
    Loader.handed
      { s with
        file := file
        buf := Cells.write s.buf 0 (f.bytes ++ tail)
        transfers := transfers
        tsSec := f.sec
        tsUsec := f.usec
        len := f.bytes.length } = ⟨s.ll, f⟩ := by
  simp only [Loader.handed, Loader.frame, Cells.read_write_front]

section Erf

/-- A record of an ERF trace. The fraction is the part of a second behind
`frame.sec`, in units of `2 ^ -32` seconds; the tail is what pads the record. -/
structure ErfRecord where
  frame : Frame
  fraction : Nat
  type : Nat
  flags : Nat
  lctr : Nat
  wtf : Nat
  tail : List UInt8
deriving DecidableEq, Repr

/-- The record fits into the buffer of the loader and its time stamp lies in
the microsecond of its packet. -/
structure ErfRecord.WellFormed (r : ErfRecord) : Prop where
  pos : 1 ≤ r.frame.bytes.length
  fits : r.frame.bytes.length + r.tail.length ≤ bufSize
  sec : 0 ≤ r.frame.sec ∧ r.frame.sec < 2 ^ 32
  fraction : r.fraction < 2 ^ 32
  usec : r.frame.usec * 2 ^ 32 ≤ r.fraction * 10 ^ 6 ∧
    (r.fraction * 10 ^ 6 : Int) < (r.frame.usec + 1) * 2 ^ 32

/-- `struct erf_packet_header`, with its two lengths and the loss counter in
network byte order. -/
def ErfRecord.header (r : ErfRecord) : List UInt8 :=
  [encode 8 (r.frame.sec.toNat * 2 ^ 32 + r.fraction), encode 1 r.type, encode 1 r.flags,
    (encode 2 (18 + (r.frame.bytes ++ r.tail).length)).reverse, (encode 2 r.lctr).reverse,
    (encode 2 r.frame.bytes.length).reverse, encode 2 r.wtf].flatten

/-- The bytes of a record in the file. -/
def ErfRecord.encode (r : ErfRecord) : List UInt8 := r.header ++ (r.frame.bytes ++ r.tail)

/-- A well-formed ERF trace has no header of its own. -/
def erfFile (records : List ErfRecord) : List UInt8 := records.flatMap ErfRecord.encode

@[simp] theorem ErfRecord.header_length (r : ErfRecord) : r.header.length = 18 := by
  simp [ErfRecord.header]

/-- The time stamp of a record, as the loader converts it. -/
theorem ErfRecord.stamp {r : ErfRecord} (hWell : r.WellFormed) :
    le (field r.header 0 8) = r.frame.sec.toNat * 2 ^ 32 + r.fraction ∧
      (erfSec (r.frame.sec.toNat * 2 ^ 32 + r.fraction) : Int) = r.frame.sec ∧
      (erfUsec (r.frame.sec.toNat * 2 ^ 32 + r.fraction) : Int) = r.frame.usec := by
  obtain ⟨hLow, hHigh⟩ := hWell.usec
  have hSec := hWell.sec
  have hFraction := hWell.fraction
  have hField : field r.header 0 8 = Bytes.encode 8 (r.frame.sec.toNat * 2 ^ 32 + r.fraction) :=
    field_flatten [] _ rfl (encode_length ..)
  refine ⟨?_, ?_, ?_⟩
  · rw [hField, le_encode]
    omega
  · simp only [erfSec]
    omega
  · simp only [erfUsec]
    omega

/-- The two lengths of a record, as the loader takes them. -/
theorem ErfRecord.lengths {r : ErfRecord} (hWell : r.WellFormed) :
    (be (field r.header 10 2) + (65536 - 18)) % 65536 = (r.frame.bytes ++ r.tail).length ∧
      be (field r.header 14 2) = r.frame.bytes.length := by
  have hFits := hWell.fits
  have hRlen : field r.header 10 2 = (Bytes.encode 2 (18 + (r.frame.bytes ++ r.tail).length)).reverse :=
    field_flatten [Bytes.encode 8 _, Bytes.encode 1 _, Bytes.encode 1 _] _ (by simp) (by simp)
  have hWlen : field r.header 14 2 = (Bytes.encode 2 r.frame.bytes.length).reverse :=
    field_flatten [Bytes.encode 8 _, Bytes.encode 1 _, Bytes.encode 1 _, (Bytes.encode 2 _).reverse,
      (Bytes.encode 2 _).reverse] _ (by simp) (by simp)
  rw [hRlen, hWlen, be_reverse_encode, be_reverse_encode, List.length_append]
  simp only [bufSize] at hFits
  omega

/-- A call at a record of an ERF trace hands out its packet and stops behind
the record. -/
theorem packet_erfRecord {r : ErfRecord} (fuel : Nat) (hFmt : s.fmt = .erf) (hWell : r.WellFormed)
    (hAt : s.file.contents.drop s.file.pos = r.encode ++ rest) :
    ∃ s', packet fuel s = .done s' ∧ s'.len ≠ 0 ∧ s'.handed = ⟨s.ll, r.frame⟩ ∧ s'.fmt = .erf ∧
      s'.ll = s.ll ∧ s'.file.contents.drop s'.file.pos = rest := by
  have hPos := hWell.pos
  have hFits := hWell.fits
  obtain ⟨hStamp, hSec, hUsec⟩ := ErfRecord.stamp hWell
  obtain ⟨hRlen, hWlen⟩ := ErfRecord.lengths hWell
  rw [ErfRecord.encode, List.append_assoc] at hAt
  have hData := File.drop_behind hAt
  have hFit : ¬ bufSize < (r.frame.bytes ++ r.tail).length := by
    rw [List.length_append]
    omega
  have hHeader := readHeader_front (s := entered s) hAt (by rw [r.header_length]; omega)
  rw [r.header_length] at hHeader hData
  have hLoad : packet fuel s = .done
      { s with
        file := ⟨s.file.contents, s.file.pos + 18 + (r.frame.bytes ++ r.tail).length⟩
        buf := Cells.write s.buf 0 (r.frame.bytes ++ r.tail)
        transfers := [⟨s.file.pos + 18, (r.frame.bytes ++ r.tail).length, r.frame.bytes ++ r.tail⟩]
        tsSec := r.frame.sec
        tsUsec := r.frame.usec
        len := r.frame.bytes.length } := by
    simp only [packet, hFmt, loadErf, hHeader, hStamp, hSec, hUsec, hRlen, hWlen, if_neg hFit]
    rw [loadData_front hData (by simp only [bufSize] at hFit; omega)]
    simp only [entered, hFmt, List.nil_append]
  exact ⟨_, hLoad, Nat.pos_iff_ne_zero.mp hPos, frame_loaded _ _, hFmt, rfl, File.drop_behind hData⟩

/-- A call at the end of an ERF trace returns zero. -/
theorem packet_erfEnd (fuel : Nat) (hFmt : s.fmt = .erf)
    (hAt : s.file.contents.drop s.file.pos = []) :
    ∃ s', packet fuel s = .done s' ∧ s'.len = 0 := by
  have hEnd := readHeader_end (s := entered s) 18 hAt (by omega) (by omega)
  refine ⟨(entered s).readHeader 18 |>.2, ?_, ?_⟩
  · simp only [packet, hFmt, loadErf, hEnd]
  · rw [hEnd]
    rfl

/-- From the start of its records on, an ERF trace hands out their packets in
order and then ends. -/
theorem listing_erf {records : List ErfRecord} {calls : Nat} (fuel : Nat) (hFmt : s.fmt = .erf)
    (hWell : ∀ r ∈ records, r.WellFormed)
    (hAt : s.file.contents.drop s.file.pos = erfFile records) (hCalls : records.length < calls) :
    listing fuel calls s = some (records.map fun r => ⟨s.ll, r.frame⟩) := by
  refine listing_of_holds (fun packets s' => ∃ left : List ErfRecord, s'.fmt = .erf ∧
    s'.ll = s.ll ∧ (∀ r ∈ left, r.WellFormed) ∧ s'.file.contents.drop s'.file.pos = erfFile left ∧
    left.map (fun r => (⟨s.ll, r.frame⟩ : Handed)) = packets) ?_ ?_ ⟨records, hFmt, rfl, hWell, hAt, rfl⟩
    (by simpa using hCalls)
  · rintro s' ⟨left, hFmt', _, _, hAt', hLeft⟩
    rw [List.map_eq_nil_iff.mp hLeft] at hAt'
    exact packet_erfEnd fuel hFmt' hAt'
  · rintro first others s' ⟨left, hFmt', hLl, hWell', hAt', hLeft⟩
    obtain ⟨r, left, rfl, rfl, rfl⟩ := List.map_eq_cons_iff.mp hLeft
    rw [erfFile, List.flatMap_cons] at hAt'
    obtain ⟨s'', hPacket, hLen, hHanded, hFmt'', hLl', hRest⟩ :=
      packet_erfRecord fuel hFmt' (hWell' r List.mem_cons_self) hAt'
    refine ⟨s'', hPacket, hLen, by rw [hHanded, hLl], left, hFmt'', hLl'.trans hLl, ?_, hRest, rfl⟩
    exact fun r' hMem => hWell' r' (List.mem_cons_of_mem _ hMem)

/-- The first word of the trace is the fraction of its first time stamp. -/
theorem erfFile_word {first : ErfRecord} (others : List ErfRecord) (hWell : first.WellFormed) :
    (File.mk (erfFile (first :: others)) 0).read 4 =
      ⟨4, encode 4 first.fraction, ⟨erfFile (first :: others), 4⟩⟩ := by
  have hFraction := hWell.fraction
  have hHeader : first.header.take 4 = encode 4 first.fraction := by
    have hFour : (encode 8 (first.frame.sec.toNat * 2 ^ 32 + first.fraction)).take 4 =
        encode 4 first.fraction := by
      rw [take_encode _ (by omega)]
      refine encode_congr 4 ?_
      omega
    rw [← hFour]
    simp only [ErfRecord.header, List.flatten_cons]
    exact List.take_append_of_le_length (by rw [encode_length]; omega)
  have hAt : (erfFile (first :: others)).drop 0 = encode 4 first.fraction ++
      (first.header.drop 4 ++ (first.frame.bytes ++ first.tail) ++ erfFile others) := by
    rw [List.drop_zero, erfFile, List.flatMap_cons, ErfRecord.encode, ← hHeader]
    simp only [← List.append_assoc, List.take_append_drop]
    rfl
  simpa using File.read_front (f := ⟨erfFile (first :: others), 0⟩) hAt (by rw [encode_length]; omega)

/-- An ERF trace is taken for one on standard input, and in a named file unless
its first word is the magic number of another format. -/
theorem init_erf {records : List ErfRecord} (named mallocOk : Bool)
    (hWell : ∀ r ∈ records, r.WellFormed)
    (hNamed : named → ∃ first ∈ records.head?,
      first.fraction ∉ [pcapSwapMagic, pcapMagic, netmonMagic, pcapngMagic]) :
    init named mallocOk true (erfFile records) =
      some (start ⟨⟨erfFile records, 0⟩, .erf, linktypeEthernet, [], 0⟩) := by
  cases named with
  | false => rfl
  | true =>
      obtain ⟨first, hFirst, hMagic⟩ := hNamed rfl
      obtain ⟨others, rfl⟩ := List.head?_eq_some_iff.mp hFirst
      have hWell' := hWell first List.mem_cons_self
      have hFraction := hWell'.fraction
      have hNumber : first.fraction % 256 ^ 4 = first.fraction := Nat.mod_eq_of_lt hFraction
      simp only [List.mem_cons, List.not_mem_nil, or_false, not_or] at hMagic
      obtain ⟨hSwap, hPcap, hNetmon, hPcapng⟩ := hMagic
      refine init_of_detect ?_
      simp only [detect, erfFile_word others hWell', le_encode, hNumber, if_neg hSwap, if_neg hPcap,
        if_neg hNetmon, if_neg hPcapng, ne_eq, not_true_eq_false, if_false, File.seekSet]

/-- Two records, the second of them padded. -/
def erfPair : List ErfRecord :=
  [⟨⟨[7], 1, 500000⟩, 2 ^ 31, 2, 4, 0, 0, []⟩, ⟨⟨[8, 9], 2, 999999⟩, 2 ^ 32 - 1, 2, 4, 0, 0, [0, 0, 0]⟩]

theorem erfPair_wellFormed : ∀ r ∈ erfPair, r.WellFormed := by
  intro r hMem
  simp only [erfPair, List.mem_cons, List.not_mem_nil, or_false] at hMem
  rcases hMem with rfl | rfl
  · exact ⟨by decide, by decide, by decide, by decide, by decide⟩
  · exact ⟨by decide, by decide, by decide, by decide, by decide⟩

end Erf

section Netmon

/-- The start of a capture, field by field as in `struct netmon_file_header`. -/
structure NetmonStart where
  year : Nat
  month : Nat
  dow : Nat
  day : Nat
  hour : Nat
  min : Nat
  sec : Nat
  msec : Nat
deriving DecidableEq, Repr

/-- All fields fit into their two bytes. -/
def NetmonStart.Fits (t : NetmonStart) : Prop :=
  t.year < 2 ^ 16 ∧ t.month < 2 ^ 16 ∧ t.day < 2 ^ 16 ∧ t.hour < 2 ^ 16 ∧ t.min < 2 ^ 16 ∧
    t.sec < 2 ^ 16

instance (t : NetmonStart) : Decidable t.Fits := by
  unfold NetmonStart.Fits
  infer_instance

/-- The start of a capture in seconds. -/
def NetmonStart.seconds (t : NetmonStart) : Int :=
  timegm t.year ((t.month : Int) - 1) t.day t.hour t.min t.sec

/-- A record of a NETMON trace: where it stands in the file, the microseconds
since the start of the capture, and the packet. -/
structure NetmonRecord where
  offset : Nat
  stamp : Nat
  bytes : List UInt8
deriving DecidableEq, Repr

/-- The record can be named by the frame table, fits into the buffer of the
loader and its time stamp does not wrap where it is converted. -/
structure NetmonRecord.WellFormed (r : NetmonRecord) : Prop where
  offset : r.offset < 2 ^ 32
  stamp : r.stamp * 10 < 2 ^ 64
  pos : 1 ≤ r.bytes.length
  fits : r.bytes.length ≤ bufSize

/-- `struct netmon_record_header`. -/
def NetmonRecord.header (r : NetmonRecord) : List UInt8 :=
  pack [(8, r.stamp), (4, r.bytes.length), (4, r.bytes.length)]

/-- The bytes of a record in the file. -/
def NetmonRecord.encode (r : NetmonRecord) : List UInt8 := r.header ++ r.bytes

/-- The packet of a record in a capture that began at the given second. -/
def NetmonRecord.frame (began : Int) (r : NetmonRecord) : Frame :=
  ⟨r.bytes, ((r.stamp / 10 ^ 6 : Nat) : Int) + began, (r.stamp % 10 ^ 6 : Nat)⟩

/-- `struct netmon_file_header` of version 2.0, with the fields behind the frame
table as they are. -/
def netmonHeader (network : Nat) (t : NetmonStart) (tableOffset tableLength : Nat)
    (others : List UInt8) : List UInt8 :=
  pack [(4, netmonMagic), (1, 0), (1, 2), (2, network), (2, t.year), (2, t.month), (2, t.dow),
    (2, t.day), (2, t.hour), (2, t.min), (2, t.sec), (2, t.msec), (4, tableOffset),
    (4, tableLength)] ++ others

/-- The frame table of a NETMON trace. -/
def frameTable (records : List NetmonRecord) : List UInt8 :=
  records.flatMap fun r => encode 4 r.offset

/-- A well-formed NETMON trace: the header in front, and the frame table and the
records wherever the header and the table say. -/
structure NetmonTrace (contents : List UInt8) (t : NetmonStart) (records : List NetmonRecord) :
    Prop where
  start : t.Fits
  header : ∃ network tableOffset others, network ≤ 1 ∧ tableOffset < 2 ^ 32 ∧
    others.length = 32 ∧ 4 * records.length < 2 ^ 32 ∧
    netmonHeader network t tableOffset (4 * records.length) others <+: contents ∧
    frameTable records <+: contents.drop tableOffset
  wellFormed : ∀ r ∈ records, r.WellFormed
  record : ∀ r ∈ records, r.encode <+: contents.drop r.offset

@[simp] theorem NetmonRecord.header_length (r : NetmonRecord) : r.header.length = 16 := by
  simp [NetmonRecord.header]

@[simp] theorem frameTable_length (records : List NetmonRecord) :
    (frameTable records).length = 4 * records.length := by
  induction records with
  | nil => rfl
  | cons r records ih =>
      rw [frameTable, List.flatMap_cons, List.length_append, encode_length, ← frameTable, ih,
        List.length_cons]
      omega

/-- The loader takes the offsets out of the frame table one by one. -/
theorem frameTable_offsets {records : List NetmonRecord} (hWell : ∀ r ∈ records, r.WellFormed) :
    ((List.range (4 * records.length / 4)).map fun i => le (field (frameTable records) (4 * i) 4)) =
      records.map NetmonRecord.offset := by
  rw [Nat.mul_div_cancel_left _ (by omega)]
  apply List.ext_getElem (by simp)
  intro i hLeft hRight
  have hIndex : i < records.length := by simpa using hRight
  have hSplit : frameTable records = ((records.take i).map (fun r => encode 4 r.offset) ++
      encode 4 records[i].offset ::
        (records.drop (i + 1)).map (fun r => encode 4 r.offset)).flatten := by
    have hMap := congrArg (List.map fun r : NetmonRecord => encode 4 r.offset)
      (List.take_append_drop i records)
    rw [List.drop_eq_getElem_cons hIndex, List.map_append, List.map_cons] at hMap
    rw [hMap]
    exact List.flatMap_def
  have hFront : ((records.take i).map (fun r => encode 4 r.offset)).flatten.length = 4 * i := by
    rw [← List.flatMap_def, ← frameTable, frameTable_length, List.length_take, Nat.min_eq_left (by omega)]
  have hOffset := (hWell records[i] (List.getElem_mem hIndex)).offset
  simp only [List.getElem_map, List.getElem_range]
  rw [hSplit, field_flatten _ _ hFront (encode_length ..), le_encode]
  exact Nat.mod_eq_of_lt hOffset

/-- The fields of a record, as the loader converts them. -/
theorem NetmonRecord.fields {r : NetmonRecord} (hWell : r.WellFormed) (began : Int) :
    le (field r.header 8 4) = r.bytes.length ∧ le (field r.header 12 4) = r.bytes.length ∧
      (netmonSec (le (field r.header 0 8)) : Int) + began = (r.frame began).sec ∧
      (netmonUsec (le (field r.header 0 8)) : Int) = (r.frame began).usec := by
  have hStamp := hWell.stamp
  have hFits : r.bytes.length ≤ 32 * 1024 := hWell.fits
  have hTime : le (field (r.header ++ []) 0 8) = r.stamp := le_field_pack 0 [] rfl rfl (by omega)
  have hOriginal : le (field (r.header ++ []) 8 4) = r.bytes.length :=
    le_field_pack 1 [] rfl rfl (by omega)
  have hInclude : le (field (r.header ++ []) 12 4) = r.bytes.length :=
    le_field_pack 2 [] rfl rfl (by omega)
  rw [List.append_nil] at hTime hOriginal hInclude
  have hTimes : r.stamp * 10 % 2 ^ 64 = r.stamp * 10 := Nat.mod_eq_of_lt hStamp
  rw [hTime]
  refine ⟨hOriginal, hInclude, ?_, ?_⟩
  · simp only [netmonSec, NetmonRecord.frame, hTimes]
    omega
  · simp only [netmonUsec, NetmonRecord.frame, hTimes]
    omega

/-- A call with a record next in the frame table hands out its packet. -/
theorem packet_netmonRecord {r : NetmonRecord} (fuel : Nat) (hFmt : s.fmt = .netmon)
    (hWell : r.WellFormed) (hMore : s.netmonPos ≠ s.netmonCount)
    (hOffset : s.netmonTable.getD s.netmonPos 0 = r.offset)
    (hAt : r.encode <+: s.file.contents.drop r.offset) :
    ∃ file buf transfers, packet fuel s = .done
      { s with
        file := ⟨s.file.contents, file⟩
        netmonPos := s.netmonPos + 1
        buf := Cells.write buf 0 r.bytes
        transfers := transfers
        tsSec := (r.frame s.netmonTime).sec
        tsUsec := (r.frame s.netmonTime).usec
        len := r.bytes.length } := by
  obtain ⟨rest, hRest⟩ := hAt
  rw [NetmonRecord.encode, List.append_assoc] at hRest
  have hFits := hWell.fits
  obtain ⟨hOriginal, hInclude, hSec, hUsec⟩ := NetmonRecord.fields hWell s.netmonTime
  have hData := File.drop_behind hRest.symm
  have hHeader := readHeader_front
    (s := { entered s with file := s.file.seekSet r.offset, netmonPos := s.netmonPos + 1 })
    hRest.symm (by rw [r.header_length]; omega)
  rw [r.header_length] at hHeader hData
  refine ⟨r.offset + 16 + r.bytes.length, s.buf, [⟨r.offset + 16, r.bytes.length, r.bytes⟩], ?_⟩
  simp only [packet, hFmt, loadNetmon, entered] at hHeader ⊢
  simp only [if_neg hMore, hOffset, hHeader, hOriginal, hInclude, hSec, hUsec,
    if_neg (Nat.not_lt.mpr hFits)]
  rw [loadData_front hData (by simp only [bufSize] at hFits; omega)]
  simp only [File.seekSet, List.nil_append]

/-- From any place in the frame table on, the records named behind it are
handed out in the order of the table. -/
theorem listing_netmon {contents : List UInt8} {records : List NetmonRecord} {calls : Nat}
    (fuel : Nat) (hFmt : s.fmt = .netmon) (hContents : s.file.contents = contents)
    (hWell : ∀ r ∈ records, r.WellFormed) (hAt : ∀ r ∈ records, r.encode <+: contents.drop r.offset)
    (hTable : s.netmonTable.drop s.netmonPos = records.map NetmonRecord.offset)
    (hCount : s.netmonCount = s.netmonPos + records.length) (hCalls : records.length < calls) :
    listing fuel calls s = some (records.map fun r => ⟨s.ll, r.frame s.netmonTime⟩) := by
  refine listing_of_holds (fun packets s' => ∃ left : List NetmonRecord,
    (s'.fmt = .netmon ∧ s'.ll = s.ll ∧ s'.netmonTime = s.netmonTime ∧ s'.file.contents = contents) ∧
    (∀ r ∈ left, r.WellFormed ∧ r.encode <+: contents.drop r.offset) ∧
    s'.netmonTable.drop s'.netmonPos = left.map NetmonRecord.offset ∧
    s'.netmonCount = s'.netmonPos + left.length ∧
    left.map (fun r => (⟨s.ll, r.frame s.netmonTime⟩ : Handed)) = packets) ?_ ?_
    ⟨records, ⟨hFmt, rfl, rfl, hContents⟩, fun r hMem => ⟨hWell r hMem, hAt r hMem⟩, hTable, hCount, rfl⟩
    (by simpa using hCalls)
  · rintro s' ⟨left, ⟨hFmt', _⟩, _, _, hCount', hLeft⟩
    rw [List.map_eq_nil_iff.mp hLeft, List.length_nil, Nat.add_zero] at hCount'
    exact ⟨entered s', by simp only [packet, hFmt', loadNetmon, entered, hCount', if_true], rfl⟩
  · rintro first others s' ⟨left, ⟨hFmt', hLl, hTime, hContents'⟩, hRecords, hTable', hCount', hLeft⟩
    obtain ⟨r, left, rfl, rfl, rfl⟩ := List.map_eq_cons_iff.mp hLeft
    obtain ⟨hWell', hAt'⟩ := hRecords r List.mem_cons_self
    have hMore : s'.netmonPos ≠ s'.netmonCount := by
      rw [hCount', List.length_cons]
      omega
    have hOffset : s'.netmonTable.getD s'.netmonPos 0 = r.offset := by
      have hHead := congrArg List.head? hTable'
      rw [List.head?_drop, List.map_cons, List.head?_cons] at hHead
      rw [List.getD_eq_getElem?_getD, hHead, Option.getD_some]
    have hTail : s'.netmonTable.drop (s'.netmonPos + 1) = left.map NetmonRecord.offset := by
      rw [← List.drop_drop, hTable', List.map_cons, List.drop_one, List.tail_cons]
    rw [← hContents'] at hAt'
    obtain ⟨file, buf, transfers, hPacket⟩ :=
      packet_netmonRecord fuel hFmt' hWell' hMore hOffset hAt'
    refine ⟨_, hPacket, Nat.pos_iff_ne_zero.mp hWell'.pos, ?_, left, ⟨hFmt', hLl, hTime, hContents'⟩,
      fun r' hMem => hRecords r' (List.mem_cons_of_mem _ hMem), hTail, ?_, rfl⟩
    · simp only [Loader.handed, Loader.frame, Cells.read_write, hLl, hTime, NetmonRecord.frame]
    · simp only [hCount', List.length_cons]
      omega

/-- A NETMON trace is opened as Ethernet, with the start of the capture and the
offsets of its frame table, unless there is none. -/
theorem initNetmon_trace {contents : List UInt8} {t : NetmonStart} {records : List NetmonRecord}
    (hTrace : NetmonTrace contents t records) :
    ∃ pos, initNetmon true ⟨contents, 0⟩ = if records = [] then none else
      some ⟨⟨contents, pos⟩, .netmon, linktypeEthernet, records.map NetmonRecord.offset, t.seconds⟩ := by
  obtain ⟨network, tableOffset, others, hNetwork, hOffset, hOthers, hSize, ⟨rest, hRest⟩,
    ⟨rest', hTable⟩⟩ := hTrace.header
  obtain ⟨hYear, hMonth, hDay, hHour, hMin, hSec⟩ := hTrace.start
  have hRead := File.read_front (f := ⟨contents, tableOffset⟩) hTable.symm
    (by rw [frameTable_length]; omega)
  rw [frameTable_length] at hRead
  have hLength : (netmonHeader network t tableOffset (4 * records.length) others).length = 64 := by
    simp [netmonHeader, hOthers]
  have hHeader := File.read_front (f := ⟨contents, 0⟩) hRest.symm (by rw [hLength]; omega)
  rw [hLength] at hHeader
  set header := netmonHeader network t tableOffset (4 * records.length) others
  have hMinor : le (field header 4 1) = 0 := le_field_pack 1 others rfl (by simp) (by omega)
  have hMajor : le (field header 5 1) = 2 := le_field_pack 2 others rfl (by simp) (by omega)
  have hNet : le (field header 6 2) = network := le_field_pack 3 others rfl (by simp) (by omega)
  have hYear' : le (field header 8 2) = t.year := le_field_pack 4 others rfl (by simp) hYear
  have hMonth' : le (field header 10 2) = t.month := le_field_pack 5 others rfl (by simp) hMonth
  have hDay' : le (field header 14 2) = t.day := le_field_pack 7 others rfl (by simp) hDay
  have hHour' : le (field header 16 2) = t.hour := le_field_pack 8 others rfl (by simp) hHour
  have hMin' : le (field header 18 2) = t.min := le_field_pack 9 others rfl (by simp) hMin
  have hSec' : le (field header 20 2) = t.sec := le_field_pack 10 others rfl (by simp) hSec
  have hWhere : le (field header 24 4) = tableOffset := le_field_pack 12 others rfl (by simp) hOffset
  have hMany : le (field header 28 4) = 4 * records.length := le_field_pack 13 others rfl (by simp) hSize
  have hEmpty : (4 * records.length = 0 ∨ true = false) ↔ records = [] := by
    rw [Nat.mul_eq_zero, List.length_eq_zero_iff]
    simp
  refine ⟨tableOffset + 4 * records.length, ?_⟩
  simp only [initNetmon, hHeader, hMinor, hMajor, hNet, hYear', hMonth', hDay', hHour', hMin', hSec',
    hWhere, hMany, File.seekSet, hRead, frameTable_offsets hTrace.wellFormed,
    if_neg (Nat.not_lt.mpr hNetwork), hEmpty]
  simp [NetmonStart.seconds]

/-- The magic number tells a NETMON trace. -/
theorem detect_netmon {contents : List UInt8} {t : NetmonStart} {records : List NetmonRecord}
    (hTrace : NetmonTrace contents t records) :
    detect true contents = initNetmon true ⟨contents, 0⟩ := by
  obtain ⟨network, tableOffset, others, _, _, _, _, ⟨rest, hRest⟩, _⟩ := hTrace.header
  have hAt : contents.drop 0 = encode 4 netmonMagic ++
      ((netmonHeader network t tableOffset (4 * records.length) others).drop 4 ++ rest) := by
    rw [List.drop_zero, ← List.append_assoc, ← hRest]
    rfl
  have hRead := File.read_front (f := ⟨contents, 0⟩) hAt (by rw [encode_length]; omega)
  rw [encode_length] at hRead
  have hNumber : le (encode 4 netmonMagic) = netmonMagic := by decide
  simp only [detect, hRead, hNumber, File.seekSet]
  rfl

/-- Two records that stand in the file in the opposite order. -/
def netmonPair : List NetmonRecord := [⟨90, 1500000, [7]⟩, ⟨72, 2000001, [8, 9]⟩]

/-- The turn of the millennium. -/
def netmonPairStart : NetmonStart := ⟨2000, 1, 6, 1, 0, 0, 0, 0⟩

def netmonPairFile : List UInt8 :=
  netmonHeader 1 netmonPairStart 64 8 (List.replicate 32 0) ++ frameTable netmonPair ++
    (NetmonRecord.mk 72 2000001 [8, 9]).encode ++ (NetmonRecord.mk 90 1500000 [7]).encode

theorem netmonPair_trace : NetmonTrace netmonPairFile netmonPairStart netmonPair := by
  refine ⟨by decide, ⟨1, 64, List.replicate 32 0, by decide, by decide, by decide, by decide, by decide,
    by decide⟩, ?_, by decide⟩
  intro r hMem
  simp only [netmonPair, List.mem_cons, List.not_mem_nil, or_false] at hMem
  rcases hMem with rfl | rfl
  · exact ⟨by decide, by decide, by decide, by decide⟩
  · exact ⟨by decide, by decide, by decide, by decide⟩

end Netmon

end Peak.Load
