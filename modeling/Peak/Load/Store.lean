import Peak.Base.Image
import Peak.Load.Calls

/-! `lib/peak_store.c`: writing packets to a PCAP file, and reading well-formed
PCAP files back with the loader. -/
namespace Peak.Load

open Bytes

/-- A packet with its time stamp, as it is handed from and to the caller. -/
structure Frame where
  bytes : List UInt8
  sec : Int
  usec : Int
deriving DecidableEq, Repr

/-- The packet fits into the buffer of the loader and its time stamp into the
fields of a PCAP header. -/
structure Frame.Storable (f : Frame) : Prop where
  pos : 1 ≤ f.bytes.length
  fits : f.bytes.length ≤ bufSize
  sec : 0 ≤ f.sec ∧ f.sec < 2 ^ 32
  usec : 0 ≤ f.usec ∧ f.usec < 2 ^ 32

/-- The packet that a call left in the loader. -/
def Loader.frame (s : Loader) : Frame := ⟨Cells.read s.buf 0 s.len, s.tsSec, s.tsUsec⟩

/-- Load packets until `peak_load_packet` returns zero, with at most the given
number of calls. -/
def drain (fuel : Nat) : Nat → Loader → Option (List Frame)
  | 0, _ => none
  | calls + 1, s =>
      match packet fuel s with
      | .again _ => none
      | .done s' => if s'.len = 0 then some [] else (drain fuel calls s').map (s'.frame :: ·)

/-- A field of a PCAP header in one of the two byte orders. -/
def pcapField (swapped : Bool) (width value : Nat) : List UInt8 :=
  if swapped then (encode width value).reverse else encode width value

/-- The format that the loader detects for a byte order. -/
def pcapFormat (swapped : Bool) : Format := if swapped then .pcapSwap else .pcap

/-- A `uint32_t` made from a 64-bit time stamp. -/
def stampWord (stamp : Int) : Nat := (stamp % 2 ^ 32).toNat

/-- `struct pcap_packet_header`. -/
def packetHeader (swapped : Bool) (sec usec inclLen origLen : Nat) : List UInt8 :=
  pcapField swapped 4 sec ++ pcapField swapped 4 usec ++ pcapField swapped 4 inclLen ++
    pcapField swapped 4 origLen

/-- A record of a PCAP file: a packet and the length it had on the wire. -/
structure PcapRecord where
  frame : Frame
  origLen : Nat
deriving DecidableEq, Repr

/-- The bytes of a record in the file. -/
def PcapRecord.encode (swapped : Bool) (r : PcapRecord) : List UInt8 :=
  packetHeader swapped (stampWord r.frame.sec) (stampWord r.frame.usec) r.frame.bytes.length
    r.origLen ++ r.frame.bytes

/-- `struct pcap_file_header`. -/
structure PcapFileHeader where
  versionMajor : Nat
  versionMinor : Nat
  thiszone : Nat
  sigfigs : Nat
  snaplen : Nat
  network : Nat
deriving DecidableEq, Repr

/-- The bytes of a file header, with the magic number in front. -/
def PcapFileHeader.encode (swapped : Bool) (h : PcapFileHeader) : List UInt8 :=
  pcapField swapped 4 pcapMagic ++ pcapField swapped 2 h.versionMajor ++
    pcapField swapped 2 h.versionMinor ++ pcapField swapped 4 h.thiszone ++
    pcapField swapped 4 h.sigfigs ++ pcapField swapped 4 h.snaplen ++ pcapField swapped 4 h.network

/-- A well-formed PCAP file. -/
def pcapFile (swapped : Bool) (h : PcapFileHeader) (records : List PcapRecord) : List UInt8 :=
  h.encode swapped ++ records.flatMap (PcapRecord.encode swapped)

/-- The file header that `peak_store_init` writes. -/
def storeHeader : PcapFileHeader where
  versionMajor := 2
  versionMinor := 4
  thiszone := 0
  sigfigs := 0
  snaplen := 65535
  network := linktypeEthernet

/-- `peak_store_init` on a file that can be opened, on a device with so much
room. -/
def storeInit (room : Nat) : Option File.Sink :=
  let (ret, out) := (File.Sink.mk [] room).write (storeHeader.encode false)
  if ret ≠ 24 then none else some out

/-- `peak_store_packet`. -/
def storePacket (out : File.Sink) (buf : Nat → UInt8) (len : Nat) (sec usec : Int) :
    Nat × File.Sink :=
  let (ret, out) := out.write (packetHeader false (stampWord sec) (stampWord usec) len len)
  if ret ≠ 16 then (0, out)
  else
    let (ret, out) := out.write (Cells.read buf 0 len)
    if ret ≠ len then (0, out) else (1, out)

@[simp] theorem pcapField_length (swapped : Bool) (width value : Nat) :
    (pcapField swapped width value).length = width := by
  cases swapped <;> simp [pcapField]

@[simp] theorem packetHeader_length (swapped : Bool) (sec usec inclLen origLen : Nat) :
    (packetHeader swapped sec usec inclLen origLen).length = 16 := by
  simp [packetHeader]

@[simp] theorem encode_fileHeader_length (swapped : Bool) (h : PcapFileHeader) :
    (h.encode swapped).length = 24 := by
  simp [PcapFileHeader.encode]

/-- A field that the file has in front is read back in either byte order. -/
theorem pcapWord_pcapField (swapped : Bool) (front rest : List UInt8) (value : Nat) :
    pcapWord (pcapFormat swapped) (front ++ pcapField swapped 4 value ++ rest) front.length =
      value % 256 ^ 4 := by
  have hField : field (front ++ pcapField swapped 4 value ++ rest) front.length 4 =
      pcapField swapped 4 value := by
    rw [List.append_assoc, field_append_right _ _ (Nat.le_refl _), Nat.sub_self,
      field_append_left _ (pcapField_length swapped 4 value)]
  cases swapped with
  | false =>
      simp only [pcapWord, pcapFormat, hField]
      exact le_encode 4 value
  | true =>
      simp only [pcapWord, pcapFormat, hField]
      exact bswap32_reverse value

/-- The first three fields of a packet header, as the loader reads them. -/
theorem pcapWord_packetHeader (swapped : Bool) (sec usec inclLen origLen : Nat) :
    pcapWord (pcapFormat swapped) (packetHeader swapped sec usec inclLen origLen) 0 = sec % 256 ^ 4 ∧
    pcapWord (pcapFormat swapped) (packetHeader swapped sec usec inclLen origLen) 4 = usec % 256 ^ 4 ∧
    pcapWord (pcapFormat swapped) (packetHeader swapped sec usec inclLen origLen) 8 =
      inclLen % 256 ^ 4 := by
  refine ⟨?_, ?_, ?_⟩
  · simpa [packetHeader] using pcapWord_pcapField swapped [] (pcapField swapped 4 usec ++
      pcapField swapped 4 inclLen ++ pcapField swapped 4 origLen) sec
  · simpa [packetHeader] using pcapWord_pcapField swapped (pcapField swapped 4 sec)
      (pcapField swapped 4 inclLen ++ pcapField swapped 4 origLen) usec
  · simpa [packetHeader] using pcapWord_pcapField swapped
      (pcapField swapped 4 sec ++ pcapField swapped 4 usec) (pcapField swapped 4 origLen) inclLen

theorem stampWord_cast {stamp : Int} (h : 0 ≤ stamp ∧ stamp < 2 ^ 32) :
    ((stampWord stamp % 256 ^ 4 : Nat) : Int) = stamp := by
  simp only [stampWord]
  omega

/-- The data of a packet is all there. -/
theorem loadData_full {s : Loader} {count len : Nat} {sec usec : Int} (hCount : count < 2 ^ 63)
    (hLeft : s.file.pos + count ≤ s.file.contents.length) :
    s.loadData count sec usec len =
      { s with
        file := ⟨s.file.contents, s.file.pos + count⟩
        buf := Cells.write s.buf 0 ((s.file.contents.drop s.file.pos).take count)
        transfers := s.transfers ++
          [⟨s.file.pos, count, (s.file.contents.drop s.file.pos).take count⟩]
        tsSec := sec
        tsUsec := usec
        len := len } := by
  have hSigned : File.signed count = count := if_pos hCount
  simp only [Loader.loadData, Loader.readBuf, File.read_full hCount hLeft, hSigned, ne_eq,
    not_true_eq_false, if_false]

/-- A call at a record of a PCAP file loads its packet and stops behind it. -/
theorem packet_record {s : Loader} {swapped : Bool} {r : PcapRecord} {rest : List UInt8}
    (fuel : Nat) (hFmt : s.fmt = pcapFormat swapped) (hStorable : r.frame.Storable)
    (hAt : s.file.contents.drop s.file.pos = r.encode swapped ++ rest) :
    ∃ s', packet fuel s = .done s' ∧ s'.fmt = s.fmt ∧ s'.ll = s.ll ∧
      s'.len = r.frame.bytes.length ∧ s'.frame = r.frame ∧
      s'.buf = Cells.write s.buf 0 r.frame.bytes ∧
      s'.file.contents.drop s'.file.pos = rest := by
  have hFits := hStorable.fits
  obtain ⟨hSec, hUsec, hIncl⟩ := pcapWord_packetHeader swapped (stampWord r.frame.sec)
    (stampWord r.frame.usec) r.frame.bytes.length r.origLen
  have hLen : r.frame.bytes.length % 256 ^ 4 = r.frame.bytes.length := by
    simp only [bufSize] at hFits
    omega
  have hLength : s.file.pos + 16 + r.frame.bytes.length ≤ s.file.contents.length := by
    have hDrop := congrArg List.length hAt
    simp only [List.length_drop, PcapRecord.encode, List.length_append, packetHeader_length] at hDrop
    omega
  have hHeader : (s.file.contents.drop s.file.pos).take 16 = packetHeader swapped
      (stampWord r.frame.sec) (stampWord r.frame.usec) r.frame.bytes.length r.origLen := by
    rw [hAt, PcapRecord.encode, List.append_assoc, List.take_left' (packetHeader_length ..)]
  have hData : s.file.contents.drop (s.file.pos + 16) = r.frame.bytes ++ rest := by
    rw [← List.drop_drop, hAt, PcapRecord.encode, List.append_assoc,
      List.drop_left' (packetHeader_length ..)]
  have hPacket : packet fuel s = .done (loadPcap (entered s)) := by
    cases swapped <;> simp only [packet, hFmt, pcapFormat, if_true, if_false, Bool.false_eq_true]
  have hLoad : loadPcap (entered s) =
      { s with
        file := ⟨s.file.contents, s.file.pos + 16 + r.frame.bytes.length⟩
        buf := Cells.write s.buf 0 r.frame.bytes
        transfers := [⟨s.file.pos + 16, r.frame.bytes.length, r.frame.bytes⟩]
        tsSec := r.frame.sec
        tsUsec := r.frame.usec
        len := r.frame.bytes.length } := by
    have hLeft : (entered s).file.pos + 16 ≤ (entered s).file.contents.length := by
      simp only [entered]
      omega
    rw [loadPcap, readHeader_full (show 16 < 2 ^ 63 by omega) hLeft]
    simp only [entered, hHeader, hFmt, hIncl, hSec, hUsec, hLen, if_neg (Nat.not_lt.mpr hFits),
      stampWord_cast hStorable.sec, stampWord_cast hStorable.usec]
    rw [loadData_full (by simp only [bufSize] at hFits; omega) hLength]
    simp only [hData, List.take_left' rfl, List.nil_append]
  refine ⟨_, hPacket, ?_⟩
  rw [hLoad]
  refine ⟨rfl, rfl, rfl, ?_, rfl, ?_⟩
  · simp only [Loader.frame, Cells.read_write]
  · rw [← List.drop_drop, hData, List.drop_left' rfl]

/-- A call at the end of a PCAP file returns zero. -/
theorem packet_end {s : Loader} {swapped : Bool} (fuel : Nat) (hFmt : s.fmt = pcapFormat swapped)
    (hAt : s.file.contents.drop s.file.pos = []) :
    ∃ s', packet fuel s = .done s' ∧ s'.len = 0 := by
  have hPacket : packet fuel s = .done (loadPcap (entered s)) := by
    cases swapped <;> simp only [packet, hFmt, pcapFormat, if_true, if_false, Bool.false_eq_true]
  have hShort : (entered s).file.contents.length < (entered s).file.pos + 16 := by
    have hEnd := List.drop_eq_nil_iff.mp hAt
    simp only [entered]
    omega
  refine ⟨_, hPacket, ?_⟩
  rw [loadPcap, readHeader_short (show 0 < 16 by omega) (show 16 < 2 ^ 63 by omega) hShort]
  rfl

/-- From the start of its records on, a PCAP file yields their packets in order
and then zero. -/
theorem drain_records {swapped : Bool} {records : List PcapRecord} {s : Loader} (fuel : Nat)
    {calls : Nat} (hFmt : s.fmt = pcapFormat swapped)
    (hStorable : ∀ r ∈ records, r.frame.Storable)
    (hAt : s.file.contents.drop s.file.pos = records.flatMap (PcapRecord.encode swapped))
    (hCalls : records.length < calls) :
    drain fuel calls s = some (records.map PcapRecord.frame) := by
  induction records generalizing s calls with
  | nil =>
      obtain ⟨calls, rfl⟩ := Nat.exists_eq_add_of_lt hCalls
      obtain ⟨s', hPacket, hLen⟩ := packet_end fuel hFmt hAt
      simp only [drain, hPacket, hLen, if_true, List.map_nil]
  | cons r records ih =>
      obtain ⟨calls, rfl⟩ := Nat.exists_eq_add_of_lt hCalls
      rw [List.flatMap_cons] at hAt
      have hFirst := hStorable r List.mem_cons_self
      obtain ⟨s', hPacket, hFmt', _, hLen, hFrame, _, hAt'⟩ := packet_record fuel hFmt hFirst hAt
      have hPos := hFirst.pos
      have hRest : drain fuel ((r :: records).length + calls) s' =
          some (records.map PcapRecord.frame) :=
        ih (hFmt'.trans hFmt) (fun r' hMem => hStorable r' (List.mem_cons_of_mem _ hMem)) hAt'
          (by simp only [List.length_cons]; omega)
      have hLen' : s'.len ≠ 0 := by omega
      simp only [drain, hPacket, if_neg hLen', hRest, hFrame, Option.map_some, List.map_cons]

/-- The magic number of a PCAP file tells its byte order. -/
theorem le_pcapField_magic (swapped : Bool) :
    le (pcapField swapped 4 pcapMagic) = if swapped then pcapSwapMagic else pcapMagic := by
  cases swapped <;> decide

theorem pcapWord_network (swapped : Bool) (h : PcapFileHeader) :
    pcapWord (pcapFormat swapped) (h.encode swapped) 20 = h.network % 256 ^ 4 := by
  simpa [PcapFileHeader.encode] using pcapWord_pcapField swapped
    (pcapField swapped 4 pcapMagic ++ pcapField swapped 2 h.versionMajor ++
      pcapField swapped 2 h.versionMinor ++ pcapField swapped 4 h.thiszone ++
      pcapField swapped 4 h.sigfigs ++ pcapField swapped 4 h.snaplen) [] h.network

/-- The format of a PCAP file, its link type and the place of its first record
are detected. -/
theorem detect_pcapFile (swapped mallocOk : Bool) (h : PcapFileHeader) (records : List PcapRecord) :
    detect mallocOk (pcapFile swapped h records) =
      some ⟨⟨pcapFile swapped h records, 24⟩, pcapFormat swapped, h.network % 256 ^ 4, [], 0⟩ := by
  have hHeader : (pcapFile swapped h records).take 24 = h.encode swapped := by
    rw [pcapFile, List.take_left' (encode_fileHeader_length swapped h)]
  have hLength : 24 ≤ (pcapFile swapped h records).length := by
    simp only [pcapFile, List.length_append, encode_fileHeader_length]
    omega
  have hMagic : (pcapFile swapped h records).take 4 = pcapField swapped 4 pcapMagic := by
    have hTake : (pcapFile swapped h records).take 4 = (h.encode swapped).take 4 := by
      rw [← hHeader, List.take_take]
      rfl
    rw [hTake]
    simp only [PcapFileHeader.encode, List.append_assoc]
    exact List.take_left' (pcapField_length swapped 4 pcapMagic)
  have hInit : initPcap (pcapFormat swapped) ⟨pcapFile swapped h records, 0⟩ =
      some ⟨⟨pcapFile swapped h records, 24⟩, pcapFormat swapped, h.network % 256 ^ 4, [], 0⟩ := by
    have hRead := File.read_full (f := ⟨pcapFile swapped h records, 0⟩) (show 24 < 2 ^ 63 by omega)
      (show 0 + 24 ≤ _ by omega)
    simp only [initPcap, hRead, List.drop_zero, hHeader, pcapWord_network]
    rfl
  have hRead := File.read_full (f := ⟨pcapFile swapped h records, 0⟩) (show 4 < 2 ^ 63 by omega)
    (show 0 + 4 ≤ (pcapFile swapped h records).length by omega)
  simp only [detect, hRead, List.drop_zero, hMagic, le_pcapField_magic, File.seekSet]
  rw [if_neg (show ¬ ((4 : Nat) : Int) ≠ 4 by decide)]
  cases swapped with
  | false => exact hInit
  | true => exact hInit

/-- The loader that `peak_load_init` makes for a PCAP file. -/
def pcapStart (swapped : Bool) (h : PcapFileHeader) (records : List PcapRecord) : Loader :=
  start ⟨⟨pcapFile swapped h records, 24⟩, pcapFormat swapped, h.network % 256 ^ 4, [], 0⟩

/-- A well-formed PCAP file is opened with its link type and yields its packets
in order and then zero. -/
theorem load_pcapFile (swapped mallocOk : Bool) (h : PcapFileHeader) {records : List PcapRecord}
    (hStorable : ∀ r ∈ records, r.frame.Storable) :
    init true mallocOk true (pcapFile swapped h records) = some (pcapStart swapped h records) ∧
      ∀ fuel calls, records.length < calls →
        drain fuel calls (pcapStart swapped h records) = some (records.map PcapRecord.frame) := by
  refine ⟨init_of_detect (detect_pcapFile swapped mallocOk h records), fun fuel calls hCalls => ?_⟩
  refine drain_records fuel rfl hStorable ?_ hCalls
  exact List.drop_left' (encode_fileHeader_length swapped h)

/-- Store packets one after another, as long as all writes succeed. -/
def storePackets (out : File.Sink) : List Frame → Option File.Sink
  | [] => some out
  | f :: rest =>
      match storePacket out (ByteImage.ofList f.bytes) f.bytes.length f.sec f.usec with
      | (0, _) => none
      | (_, out') => storePackets out' rest

/-- The record that `peak_store_packet` makes of a packet. -/
def Frame.record (f : Frame) : PcapRecord := ⟨f, f.bytes.length⟩

/-- A packet that was stored is at the end of the file. -/
theorem storePacket_contents {out out' : File.Sink} {buf : Nat → UInt8} {len ret : Nat}
    {sec usec : Int} (h : storePacket out buf len sec usec = (ret + 1, out')) :
    out'.contents =
      out.contents ++ (Frame.record ⟨Cells.read buf 0 len, sec, usec⟩).encode false := by
  simp only [storePacket] at h
  split_ifs at h with hHeader hData
  · cases h
  · cases h
  · cases h
    have hFirst := File.Sink.write_complete ((not_not.mp hHeader).trans (packetHeader_length ..).symm)
    have hSecond := File.Sink.write_complete ((not_not.mp hData).trans (Cells.read_length buf 0 len).symm)
    rw [hSecond, hFirst, List.append_assoc]
    simp only [Frame.record, PcapRecord.encode, Cells.read_length]

/-- The image of a byte string holds the string in front. -/
theorem read_ofList (bytes : List UInt8) :
    Cells.read (ByteImage.ofList bytes) 0 bytes.length = bytes := by
  apply List.ext_getElem (by simp)
  intro i hRead hBytes
  simp [Cells.read, ByteImage.ofList, hBytes]

/-- Packets that were all stored are at the end of the file, in order. -/
theorem storePackets_contents {frames : List Frame} {out out' : File.Sink}
    (h : storePackets out frames = some out') :
    out'.contents = out.contents ++ (frames.map Frame.record).flatMap (PcapRecord.encode false) := by
  induction frames generalizing out with
  | nil =>
      cases h
      simp
  | cons f rest ih =>
      cases hStore : storePacket out (ByteImage.ofList f.bytes) f.bytes.length f.sec f.usec with
      | mk ret next =>
          cases ret with
          | zero => simp [storePackets, hStore] at h
          | succ ret =>
              simp only [storePackets, hStore] at h
              rw [ih h, storePacket_contents hStore, read_ofList, List.map_cons, List.flatMap_cons, List.append_assoc]

theorem storeInit_contents {room : Nat} {out : File.Sink} (h : storeInit room = some out) :
    out.contents = storeHeader.encode false := by
  rw [storeInit, Option.ite_none_left_eq_some] at h
  obtain ⟨hRet, hOut⟩ := h
  cases hOut
  rw [File.Sink.write_complete ((not_not.mp hRet).trans (encode_fileHeader_length ..).symm)]
  rfl

/-- A file as `peak_store_packet` leaves it is loaded packet by packet. -/
theorem load_stored {frames : List Frame} (mallocOk : Bool) (hStorable : ∀ f ∈ frames, f.Storable) :
    ∃ s, init true mallocOk true (pcapFile false storeHeader (frames.map Frame.record)) = some s ∧
      (∀ fuel calls, frames.length < calls → drain fuel calls s = some frames) ∧
      s.ll = linktypeEthernet := by
  have hRecords : ∀ r ∈ frames.map Frame.record, r.frame.Storable := by
    intro r hMem
    obtain ⟨f, hFrame, rfl⟩ := List.mem_map.mp hMem
    exact hStorable f hFrame
  obtain ⟨hInit, hDrain⟩ := load_pcapFile false mallocOk storeHeader hRecords
  refine ⟨_, hInit, fun fuel calls hCalls => ?_, rfl⟩
  rw [hDrain fuel calls (by simpa using hCalls), List.map_map]
  exact congrArg some (List.map_id frames)

/-- Storing a list of packets and loading the file again yields the same
lengths, bytes and time stamps in order, and then zero. -/
theorem store_load_identity {frames : List Frame} {room : Nat} {out : File.Sink} (mallocOk : Bool)
    (hStorable : ∀ f ∈ frames, f.Storable)
    (hStore : (storeInit room).bind (storePackets · frames) = some out) :
    ∃ s, init true mallocOk true out.contents = some s ∧
      ∀ fuel calls, frames.length < calls → drain fuel calls s = some frames := by
  obtain ⟨opened, hInit, hPackets⟩ := Option.bind_eq_some_iff.mp hStore
  have hContents : out.contents = pcapFile false storeHeader (frames.map Frame.record) := by
    rw [storePackets_contents hPackets, storeInit_contents hInit, pcapFile]
  obtain ⟨s, hLoad, hDrain, _⟩ := load_stored mallocOk hStorable
  rw [hContents]
  exact ⟨s, hLoad, hDrain⟩

/-- Two packets of one and two bytes on a device with a hundred bytes of room. -/
def twoFrames : List Frame := [⟨[7], 1, 2⟩, ⟨[8, 9], 2 ^ 32 - 1, 0⟩]

theorem twoFrames_storable : ∀ f ∈ twoFrames, f.Storable := by
  intro f hMem
  simp only [twoFrames, List.mem_cons, List.not_mem_nil, or_false] at hMem
  rcases hMem with rfl | rfl
  · exact ⟨by decide, by decide, by decide, by decide⟩
  · exact ⟨by decide, by decide, by decide, by decide⟩

theorem twoFrames_identity :
    ∃ out s, (storeInit 100).bind (storePackets · twoFrames) = some out ∧
      init true true true out.contents = some s ∧ drain 0 3 s = some twoFrames := by
  have hStored : ((storeInit 100).bind (storePackets · twoFrames)).isSome := by decide
  obtain ⟨out, hOut⟩ := Option.isSome_iff_exists.mp hStored
  obtain ⟨s, hInit, hDrain⟩ := store_load_identity true twoFrames_storable hOut
  exact ⟨out, s, hOut, hInit, hDrain 0 3 (by decide)⟩

end Peak.Load
