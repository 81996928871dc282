import Mathlib.Data.Option.Basic
import Peak.Load.Store

/-! PCAP files in the two byte orders: an image and the one with every field of
its headers swapped are loaded alike, whatever the file ends in. -/
namespace Peak.Load

open Bytes

/-- `peak_bswap16`. -/
def peakBswap16 (u : Nat) : Nat := (u <<< 8 ||| u >>> 8) % 2 ^ 16

/-- `peak_bswap32`. Its halves are passed as 16-bit values. -/
def peakBswap32 (u : Nat) : Nat :=
  peakBswap16 (u % 2 ^ 16) <<< 16 ||| peakBswap16 (u >>> 16 % 2 ^ 16)

/-- `peak_bswap64`. Its halves are passed as 32-bit values. -/
def peakBswap64 (u : Nat) : Nat :=
  peakBswap32 (u % 2 ^ 32) <<< 32 ||| peakBswap32 (u >>> 32 % 2 ^ 32)

/-- The widths of the fields of `struct pcap_file_header`. -/
def fileWidths : List Nat := [4, 2, 2, 4, 4, 4, 4]

/-- The widths of the fields of `struct pcap_packet_header`. -/
def packetWidths : List Nat := [4, 4, 4, 4]

/-- The format of the image in the opposite byte order. -/
def Format.twin : Format → Format
  | .pcap => .pcapSwap
  | .pcapSwap => .pcap
  | fmt => fmt

/-- The byte order of a PCAP file, told by its magic number. -/
def byteOrder (contents : List UInt8) : Option Format :=
  if contents.length < 4 then none
  else if le (field contents 0 4) = pcapSwapMagic then some .pcapSwap
  else if le (field contents 0 4) = pcapMagic then some .pcap
  else none

/-- The packets of a PCAP file with every field of their headers swapped. The
data of a packet is as long as the header in front of it says, and the file may
end anywhere. -/
def swapRecords (fmt : Format) (bytes : List UInt8) : List UInt8 :=
  if bytes.length < 16 then swapFields packetWidths bytes
  else
    let inclLen := pcapWord fmt bytes 8
    swapFields packetWidths (bytes.take 16) ++ ((bytes.drop 16).take inclLen ++
      swapRecords fmt ((bytes.drop 16).drop inclLen))
termination_by bytes.length
decreasing_by
  simp only [List.length_drop]
  omega

/-- The image with every field of its file header and of its packet headers
swapped. -/
def swapImage (contents : List UInt8) : List UInt8 :=
  match byteOrder contents with
  | none => contents
  | some fmt =>
      swapFields fileWidths (contents.take 24) ++ swapRecords fmt (contents.drop 24)

/-- What a call of `peak_load_packet` hands its caller: the length it returns,
and the packet with its time stamp. -/
def Loader.result (s : Loader) : Nat × Frame := (s.len, s.frame)

/-- The results of at most so many calls, up to and including the first that
returns zero. -/
def results (fuel : Nat) : Nat → Loader → Option (List (Nat × Frame))
  | 0, _ => some []
  | calls + 1, s =>
      match packet fuel s with
      | .again _ => none
      | .done s' =>
          if s'.len = 0 then some [s'.result]
          else (results fuel calls s').map (s'.result :: ·)

/-- Two loaders that have the same link type and return from every call with
the same results. -/
def Alike (s s' : Loader) : Prop :=
  s'.ll = s.ll ∧ ∀ fuel calls, ∃ found,
    results fuel calls s = some found ∧ results fuel calls s' = some found

variable {fmt : Format} {s s' : Loader} {contents bytes : List UInt8}

/-- The halves of a number that was read from two runs of bytes, swapped. -/
theorem swap_halves (low high : List UInt8) :
    le low.reverse <<< (8 * high.length) ||| le high.reverse = le (low ++ high).reverse := by
  have hHigh := le_lt high.reverse
  rw [List.length_reverse] at hHigh
  have hPow : 256 ^ high.length = 2 ^ (8 * high.length) := by
    rw [Nat.pow_mul]
  rw [hPow] at hHigh
  rw [Nat.shiftLeft_eq, Nat.mul_comm, ← Nat.two_pow_add_eq_or_of_lt hHigh, List.reverse_append,
    le_append, List.length_reverse, hPow, Nat.add_comm]

/-- The lower and the upper half of such a number. -/
theorem le_halves (low high : List UInt8) :
    le (low ++ high) % 256 ^ low.length = le low ∧ le (low ++ high) / 256 ^ low.length = le high := by
  have hLow := le_lt low
  rw [le_append]
  constructor
  · rw [Nat.add_mul_mod_self_left, Nat.mod_eq_of_lt hLow]
  · rw [Nat.add_mul_div_left _ _ (Nat.lt_of_le_of_lt (Nat.zero_le _) hLow),
      Nat.div_eq_of_lt hLow, Nat.zero_add]

/-- `peak_bswap16` reverses the bytes of its argument. -/
theorem peakBswap16_le (h : bytes.length = 2) : peakBswap16 (le bytes) = le bytes.reverse := by
  match bytes, h with
  | [low, high], _ =>
      have hLow := low.toNat_lt
      have hHigh := high.toNat_lt
      have hNumber : le [low, high] = low.toNat + 256 * high.toNat := by simp [le]
      have hShift : (low.toNat + 256 * high.toNat) >>> 8 = high.toNat := by
        rw [Nat.shiftRight_eq_div_pow]
        omega
      have hSwapped : le [low, high].reverse = high.toNat + 256 * low.toNat := by simp [le]
      rw [peakBswap16, hNumber, hShift, hSwapped, Nat.shiftLeft_eq, Nat.mul_comm,
        ← Nat.two_pow_add_eq_or_of_lt (show high.toNat < 2 ^ 8 by omega)]
      omega

/-- `peak_bswap32` does so as well, one half after the other. -/
theorem peakBswap32_le (h : bytes.length = 4) : peakBswap32 (le bytes) = le bytes.reverse := by
  obtain ⟨low, high, rfl, hLow, hHigh⟩ : ∃ low high, bytes = low ++ high ∧
      low.length = 2 ∧ high.length = 2 :=
    ⟨bytes.take 2, bytes.drop 2, (List.take_append_drop 2 bytes).symm, by simp [h], by simp [h]⟩
  obtain ⟨hMod, hDiv⟩ := le_halves low high
  have hBound := le_lt high
  rw [hLow] at hMod hDiv
  rw [hHigh] at hBound
  have hFirst : le (low ++ high) % 2 ^ 16 = le low := hMod
  have hSecond : le (low ++ high) >>> 16 % 2 ^ 16 = le high := by
    rw [Nat.shiftRight_eq_div_pow]
    exact (congrArg (· % 2 ^ 16) hDiv).trans (Nat.mod_eq_of_lt hBound)
  rw [peakBswap32, hFirst, hSecond, peakBswap16_le hLow, peakBswap16_le hHigh, ← swap_halves, hHigh]

/-- And so does `peak_bswap64`. -/
theorem peakBswap64_le (h : bytes.length = 8) : peakBswap64 (le bytes) = le bytes.reverse := by
  obtain ⟨low, high, rfl, hLow, hHigh⟩ : ∃ low high, bytes = low ++ high ∧
      low.length = 4 ∧ high.length = 4 :=
    ⟨bytes.take 4, bytes.drop 4, (List.take_append_drop 4 bytes).symm, by simp [h], by simp [h]⟩
  obtain ⟨hMod, hDiv⟩ := le_halves low high
  have hBound := le_lt high
  rw [hLow] at hMod hDiv
  rw [hHigh] at hBound
  have hFirst : le (low ++ high) % 2 ^ 32 = le low := hMod
  have hSecond : le (low ++ high) >>> 32 % 2 ^ 32 = le high := by
    rw [Nat.shiftRight_eq_div_pow]
    exact (congrArg (· % 2 ^ 32) hDiv).trans (Nat.mod_eq_of_lt hBound)
  rw [peakBswap64, hFirst, hSecond, peakBswap32_le hLow, peakBswap32_le hHigh, ← swap_halves, hHigh]

/-- The swap that the loader uses is `peak_bswap32`. -/
theorem peakBswap32_eq {value : Nat} (h : value < 2 ^ 32) : peakBswap32 value = bswap32 value := by
  have hBytes : le (encode 4 value) = value := by
    rw [le_encode]
    exact Nat.mod_eq_of_lt h
  rw [← hBytes, peakBswap32_le (encode_length 4 value), bswap32_le (encode_length 4 value)]

/-- A field reads the same in both byte orders. -/
theorem pcapWord_twin {off : Nat} (hOrder : fmt = .pcap ∨ fmt = .pcapSwap) {twin : List UInt8}
    (hLength : (field bytes off 4).length = 4)
    (hField : field twin off 4 = (field bytes off 4).reverse) :
    pcapWord fmt.twin twin off = pcapWord fmt bytes off := by
  rcases hOrder with rfl | rfl
  · simp only [pcapWord, Format.twin, hField, if_true, reduceCtorEq, if_false]
    rw [bswap32_le (by simpa using hLength), List.reverse_reverse]
  · simp only [pcapWord, Format.twin, hField, if_true, reduceCtorEq, if_false]
    rw [bswap32_le hLength]

/-- The header in front of swapped records. -/
theorem swapRecords_header (hHeader : 16 ≤ bytes.length) :
    swapRecords fmt bytes = swapFields packetWidths (bytes.take 16) ++
      ((bytes.drop 16).take (pcapWord fmt bytes 8) ++
        swapRecords fmt ((bytes.drop 16).drop (pcapWord fmt bytes 8))) := by
  rw [swapRecords, if_neg (Nat.not_lt.mpr hHeader)]

/-- A header that is cut off stays cut off. -/
theorem swapRecords_short (hShort : bytes.length < 16) :
    swapRecords fmt bytes = swapFields packetWidths bytes := by
  rw [swapRecords, if_pos hShort]

theorem swapRecords_nil : swapRecords fmt [] = [] := by
  rw [swapRecords_short (by simp)]
  rfl

/-- Swapping moves no byte to another header or packet. -/
@[simp] theorem swapRecords_length (fmt : Format) (bytes : List UInt8) :
    (swapRecords fmt bytes).length = bytes.length := by
  induction bytes using swapRecords.induct fmt with
  | case1 bytes hShort => rw [swapRecords_short hShort, swapFields_length]
  | case2 bytes hHeader inclLen ih =>
      rw [swapRecords_header (Nat.le_of_not_lt hHeader), List.length_append, List.length_append, ih,
        swapFields_length]
      simp only [List.length_take, List.length_drop, inclLen]
      omega

/-- What follows the first header of swapped records. -/
theorem swapRecords_drop (hHeader : 16 ≤ bytes.length) :
    (swapRecords fmt bytes).drop 16 = (bytes.drop 16).take (pcapWord fmt bytes 8) ++
      swapRecords fmt ((bytes.drop 16).drop (pcapWord fmt bytes 8)) := by
  rw [swapRecords_header hHeader]
  apply List.drop_left'
  rw [swapFields_length, List.length_take]
  omega

/-- The header fields of swapped records are those of the records. -/
theorem pcapWord_swapRecords (hOrder : fmt = .pcap ∨ fmt = .pcapSwap)
    (hHeader : 16 ≤ bytes.length) (front back : List Nat) (hWidths : front ++ 4 :: back = packetWidths) :
    pcapWord fmt.twin (swapRecords fmt bytes) front.sum = pcapWord fmt bytes front.sum := by
  have hSum : front.sum + 4 ≤ 16 := by
    have hTotal := congrArg List.sum hWidths
    rw [List.sum_append, List.sum_cons] at hTotal
    have hSixteen : packetWidths.sum = 16 := rfl
    omega
  have hTake : (bytes.take 16).length = 16 := by
    rw [List.length_take]
    omega
  have hField : field (bytes.take 16) front.sum 4 = field bytes front.sum 4 := by
    simpa using field_within bytes 0 hSum
  apply pcapWord_twin hOrder
  · simp only [field, List.length_take, List.length_drop]
    omega
  · rw [swapRecords_header hHeader, field_append_front _ (by rw [swapFields_length, hTake]; exact hSum),
      ← hWidths, field_swapFields front back (by omega), hField]

/-- Swapping the records again, in the byte order that they have then, restores
them. -/
theorem swapRecords_swapRecords (hOrder : fmt = .pcap ∨ fmt = .pcapSwap) (bytes : List UInt8) :
    swapRecords fmt.twin (swapRecords fmt bytes) = bytes := by
  induction bytes using swapRecords.induct fmt with
  | case1 bytes hShort =>
      rw [swapRecords_short (by rw [swapRecords_length]; exact hShort), swapRecords_short hShort,
        swapFields_swapFields]
  | case2 bytes hHeader inclLen ih =>
      have hFull : 16 ≤ bytes.length := Nat.le_of_not_lt hHeader
      have hIncl : pcapWord fmt.twin (swapRecords fmt bytes) 8 = inclLen :=
        pcapWord_swapRecords hOrder hFull [4, 4] [4] rfl
      have hTake : (swapRecords fmt bytes).take 16 = swapFields packetWidths (bytes.take 16) := by
        rw [swapRecords_header hFull]
        apply List.take_left'
        rw [swapFields_length, List.length_take]
        omega
      rw [swapRecords_header (by rw [swapRecords_length]; exact hFull), hTake, swapFields_swapFields,
        hIncl, swapRecords_drop hFull]
      by_cases hData : ((bytes.drop 16).take inclLen).length = inclLen
      · rw [List.take_left' hData, List.drop_left' hData, ih, List.take_append_drop,
          List.take_append_drop]
      · have hEnd : (bytes.drop 16).drop inclLen = [] := by
          rw [List.length_take] at hData
          exact List.drop_eq_nil_of_le (by omega)
        have hAll : (bytes.drop 16).take inclLen = bytes.drop 16 := by
          rw [List.length_take] at hData
          exact List.take_of_length_le (by omega)
        have hTaken : (bytes.drop 16).take (pcapWord fmt bytes 8) = bytes.drop 16 := hAll
        have hDropped : (bytes.drop 16).drop (pcapWord fmt bytes 8) = [] := hEnd
        rw [hTaken, hDropped, swapRecords_nil, List.append_nil, hAll, hEnd, swapRecords_nil,
          List.append_nil, List.take_append_drop]

/-- What is left of the file. -/
def Loader.rest (s : Loader) : List UInt8 := s.file.contents.drop s.file.pos

/-- The state behind the data of a packet, complete or not. -/
theorem loadData_rest {count len : Nat} {sec usec : Int} (hCount : count < 2 ^ 63) :
    s.loadData count sec usec len =
      if (s.rest.take count).length = count then
        { (s.readBuf count).2 with tsSec := sec, tsUsec := usec, len := len }
      else (s.readBuf count).2 := by
  have hSigned : File.signed count = count := if_pos hCount
  have hRet : (s.file.read count).ret = (s.rest.take count).length := by
    simp only [File.read, if_neg (Nat.not_le.mpr hCount), Loader.rest]
  by_cases hFull : (s.rest.take count).length = count
  · rw [if_pos hFull]
    exact if_neg (not_not_intro (by rw [hRet, hSigned, hFull]))
  · rw [if_neg hFull]
    exact if_pos (by rw [hRet, hSigned]; exact fun h => hFull (Int.ofNat.inj h))

/-- The buffer and the rest of the file behind a read. -/
theorem readBuf_rest {count : Nat} (hCount : count < 2 ^ 63) :
    (s.readBuf count).2.buf = Cells.write s.buf 0 (s.rest.take count) ∧
      (s.readBuf count).2.rest = s.rest.drop (s.rest.take count).length := by
  simp only [Loader.readBuf, File.read, if_neg (Nat.not_le.mpr hCount), Loader.rest, List.drop_drop,
    and_self]

/-- Two loaders of an image and its twin between two calls. -/
structure Twins (fmt : Format) (s s' : Loader) : Prop where
  fmt_eq : s.fmt = fmt
  twin_eq : s'.fmt = fmt.twin
  buf_eq : s'.buf = s.buf
  sec_eq : s'.tsSec = s.tsSec
  usec_eq : s'.tsUsec = s.tsUsec
  rest_eq : s'.rest = swapRecords fmt s.rest

/-- A call on a PCAP file enters `_peak_load_pcap` and returns. -/
theorem packet_pcap (fuel : Nat) (hOrder : s.fmt = .pcap ∨ s.fmt = .pcapSwap) :
    packet fuel s = .done (loadPcap (entered s)) := by
  rcases hOrder with hFmt | hFmt
  · simp only [packet, hFmt]
  · simp only [packet, hFmt]

/-- `_peak_load_pcap` at the end of the file. -/
theorem loadPcap_short (hShort : s.rest.length < 16) :
    loadPcap s = { s with file := (s.file.read 16).file } := by
  rw [Loader.rest, List.length_drop] at hShort
  rw [loadPcap, readHeader_short (show 0 < 16 by omega) (show 16 < 2 ^ 63 by omega) (by omega)]

/-- The state behind a packet header. -/
def Loader.behindHeader (s : Loader) : Loader :=
  { s with file := ⟨s.file.contents, s.file.pos + 16⟩ }

theorem behindHeader_rest : s.behindHeader.rest = s.rest.drop 16 := by
  simp only [Loader.rest, Loader.behindHeader, List.drop_drop]

/-- `_peak_load_pcap` at a packet header. -/
theorem loadPcap_header (hHeader : 16 ≤ s.rest.length) :
    loadPcap s =
      let inclLen := pcapWord s.fmt s.rest 8
      if bufSize < inclLen then s.behindHeader
      else
        s.behindHeader.loadData inclLen (pcapWord s.fmt s.rest 0) (pcapWord s.fmt s.rest 4)
          inclLen := by
  have hLeft : s.file.pos + 16 ≤ s.file.contents.length := by
    rw [Loader.rest, List.length_drop] at hHeader
    omega
  have hWord : ∀ off, off + 4 ≤ 16 →
      pcapWord s.fmt ((s.file.contents.drop s.file.pos).take 16) off = pcapWord s.fmt s.rest off := by
    intro off hOff
    have hField : field (s.rest.take 16) off 4 = field s.rest off 4 := by
      simpa using field_within s.rest 0 hOff
    rw [pcapWord, pcapWord, ← hField, Loader.rest]
  rw [loadPcap, readHeader_full (show 16 < 2 ^ 63 by omega) hLeft]
  simp only [hWord 0 (by omega), hWord 4 (by omega), hWord 8 (by omega)]
  rfl

/-- The data of a packet is read alike from two files that go on with it and
with records in opposite byte orders. -/
theorem loadData_twins (s s' : Loader) {count : Nat} (sec usec : Int) (hCount : count < 2 ^ 63)
    (hFmt : s.fmt = fmt) (hFmt' : s'.fmt = fmt.twin) (hBuf : s'.buf = s.buf) (hSec : s'.tsSec = s.tsSec)
    (hUsec : s'.tsUsec = s.tsUsec) (hLen : s.len = 0) (hLen' : s'.len = 0)
    (hRest : s'.rest = s.rest.take count ++ swapRecords fmt (s.rest.drop count)) :
    (s'.loadData count sec usec count).result = (s.loadData count sec usec count).result ∧
      ((s.loadData count sec usec count).len ≠ 0 →
        Twins fmt (s.loadData count sec usec count) (s'.loadData count sec usec count)) := by
  obtain ⟨hRead, hBehind⟩ := readBuf_rest (s := s) hCount
  obtain ⟨hRead', hBehind'⟩ := readBuf_rest (s := s') hCount
  by_cases hFull : (s.rest.take count).length = count
  · have hData : s'.rest.take count = s.rest.take count := by
      rw [hRest, List.take_left' hFull]
    have hNext : s'.rest.drop count = swapRecords fmt (s.rest.drop count) := by
      rw [hRest, List.drop_left' hFull]
    rw [loadData_rest hCount, loadData_rest hCount, hData, if_pos hFull, if_pos hFull]
    rw [hData, hBuf, ← hRead] at hRead'
    rw [hData, hFull, hNext] at hBehind'
    rw [hFull] at hBehind
    constructor
    · simp only [Loader.result, Loader.frame, hRead']
    · intro _
      exact ⟨hFmt, hFmt', hRead', rfl, rfl, hBehind'.trans (congrArg (swapRecords fmt) hBehind.symm)⟩
  · have hEnd : s.rest.drop count = [] := by
      rw [List.length_take] at hFull
      exact List.drop_eq_nil_of_le (by omega)
    have hData : s'.rest.take count = s.rest.take count := by
      rw [hRest, hEnd, swapRecords_nil, List.append_nil, List.take_take, Nat.min_self]
    rw [loadData_rest hCount, loadData_rest hCount, hData, if_neg hFull, if_neg hFull]
    constructor
    · simp only [Loader.result, Loader.frame, Loader.readBuf, hLen, hLen', hSec, hUsec, Cells.read_zero]
    · exact fun h => absurd hLen h

/-- A call on the image and one on its twin return the same, and unless that is
the end they leave an image and its twin again. -/
theorem packet_twins (fuel : Nat) (hOrder : fmt = .pcap ∨ fmt = .pcapSwap) (hTwins : Twins fmt s s') :
    ∃ t t', packet fuel s = .done t ∧ packet fuel s' = .done t' ∧ t'.result = t.result ∧
      (t.len ≠ 0 → Twins fmt t t') := by
  have hFmt := hTwins.fmt_eq
  have hFmt' := hTwins.twin_eq
  have hRest : (entered s').rest = swapRecords fmt (entered s).rest := hTwins.rest_eq
  have hOrder' : fmt.twin = .pcap ∨ fmt.twin = .pcapSwap := by
    rcases hOrder with rfl | rfl
    · exact .inr rfl
    · exact .inl rfl
  refine ⟨_, _, packet_pcap fuel (hFmt ▸ hOrder), packet_pcap fuel (hFmt' ▸ hOrder'), ?_⟩
  -- without a packet nothing but the time stamps of the call before is left
  have hNone : ∀ file file' : File,
      Loader.result { entered s' with file := file' } = Loader.result { entered s with file := file } := by
    intro file file'
    simp only [Loader.result, Loader.frame, entered, Cells.read_zero, hTwins.sec_eq, hTwins.usec_eq]
  have hLength : (entered s').rest.length = (entered s).rest.length := by
    rw [hRest, swapRecords_length]
  by_cases hHeader : (entered s).rest.length < 16
  · rw [loadPcap_short hHeader, loadPcap_short (hLength ▸ hHeader)]
    exact ⟨hNone _ _, fun h => absurd rfl h⟩
  · have hFull : 16 ≤ (entered s).rest.length := Nat.le_of_not_lt hHeader
    have hWord : ∀ front back : List Nat, front ++ 4 :: back = packetWidths →
        pcapWord (entered s').fmt (entered s').rest front.sum =
          pcapWord (entered s).fmt (entered s).rest front.sum := by
      intro front back hWidths
      rw [hRest, show (entered s').fmt = fmt.twin from hFmt', show (entered s).fmt = fmt from hFmt]
      exact pcapWord_swapRecords hOrder hFull front back hWidths
    have hSec : pcapWord (entered s').fmt (entered s').rest 0 =
        pcapWord (entered s).fmt (entered s).rest 0 := hWord [] [4, 4, 4] rfl
    have hUsec : pcapWord (entered s').fmt (entered s').rest 4 =
        pcapWord (entered s).fmt (entered s).rest 4 := hWord [4] [4, 4] rfl
    have hIncl : pcapWord (entered s').fmt (entered s').rest 8 =
        pcapWord (entered s).fmt (entered s).rest 8 := hWord [4, 4] [4] rfl
    rw [loadPcap_header hFull, loadPcap_header (hLength ▸ hFull)]
    dsimp only
    rw [hSec, hUsec, hIncl]
    split_ifs with hBig
    · exact ⟨hNone _ _, fun h => absurd rfl h⟩
    · have hCount : pcapWord (entered s).fmt (entered s).rest 8 < 2 ^ 63 := by
        simp only [bufSize] at hBig
        omega
      apply loadData_twins (entered s).behindHeader (entered s').behindHeader _ _ hCount hFmt hFmt'
        hTwins.buf_eq hTwins.sec_eq hTwins.usec_eq rfl rfl
      rw [behindHeader_rest, behindHeader_rest, hRest, swapRecords_drop hFull,
        show (entered s).fmt = fmt from hFmt]

/-- So do any number of calls. -/
theorem results_twins (fuel calls : Nat) (hOrder : fmt = .pcap ∨ fmt = .pcapSwap)
    (hTwins : Twins fmt s s') :
    ∃ found, results fuel calls s = some found ∧ results fuel calls s' = some found := by
  induction calls generalizing s s' with
  | zero => exact ⟨[], rfl, rfl⟩
  | succ calls ih =>
      obtain ⟨t, t', hCall, hCall', hResult, hNext⟩ := packet_twins fuel hOrder hTwins
      have hLen : t'.len = t.len := congrArg Prod.fst hResult
      simp only [results, hCall, hCall', hLen, hResult]
      by_cases hEnd : t.len = 0
      · exact ⟨[t.result], by rw [if_pos hEnd], by rw [if_pos hEnd]⟩
      · obtain ⟨found, hFound, hFound'⟩ := ih (hNext hEnd)
        refine ⟨t.result :: found, ?_, ?_⟩
        · rw [if_neg hEnd, hFound, Option.map_some]
        · rw [if_neg hEnd, hFound', Option.map_some]

/-- What the magic number says. -/
theorem byteOrder_some (h : byteOrder contents = some fmt) :
    4 ≤ contents.length ∧ (fmt = .pcapSwap ∧ le (field contents 0 4) = pcapSwapMagic ∨
      fmt = .pcap ∧ le (field contents 0 4) = pcapMagic) := by
  simp only [byteOrder] at h
  split_ifs at h with hShort hSwapped hNative
  · exact ⟨Nat.le_of_not_lt hShort, .inl ⟨(Option.some.inj h).symm, hSwapped⟩⟩
  · exact ⟨Nat.le_of_not_lt hShort, .inr ⟨(Option.some.inj h).symm, hNative⟩⟩

theorem byteOrder_order (h : byteOrder contents = some fmt) : fmt = .pcap ∨ fmt = .pcapSwap := by
  rcases (byteOrder_some h).2 with ⟨hFmt, _⟩ | ⟨hFmt, _⟩
  · exact .inr hFmt
  · exact .inl hFmt

/-- Four bytes that hold a number. -/
theorem eq_encode_of_le {value : Nat} (hLength : bytes.length = 4) (h : le bytes = value) :
    bytes = encode 4 value := by
  rw [← h, ← hLength, encode_le]

/-- The swapped image has the swapped magic number. -/
theorem byteOrder_twin (h : byteOrder contents = some fmt) {twin : List UInt8}
    (hLength : 4 ≤ twin.length) (hMagic : field twin 0 4 = (field contents 0 4).reverse) :
    byteOrder twin = some fmt.twin := by
  obtain ⟨hLong, hOrder⟩ := byteOrder_some h
  have hFour : (field contents 0 4).length = 4 := by
    simp only [field, List.drop_zero, List.length_take]
    omega
  rw [byteOrder, if_neg (Nat.not_lt.mpr hLength), hMagic]
  rcases hOrder with ⟨rfl, hNumber⟩ | ⟨rfl, hNumber⟩
  · rw [eq_encode_of_le hFour hNumber]
    decide
  · rw [eq_encode_of_le hFour hNumber]
    decide

/-- A PCAP file is opened as one. -/
theorem detect_pcap (mallocOk : Bool) (h : byteOrder contents = some fmt) :
    detect mallocOk contents = initPcap fmt ⟨contents, 0⟩ := by
  obtain ⟨hLong, hOrder⟩ := byteOrder_some h
  have hRead := File.read_full (f := ⟨contents, 0⟩) (show 4 < 2 ^ 63 by omega)
    (show 0 + 4 ≤ contents.length by omega)
  have hMagic : le ((contents.drop 0).take 4) = le (field contents 0 4) := rfl
  simp only [detect, hRead, hMagic, File.seekSet]
  rw [if_neg (show ¬ ((4 : Nat) : Int) ≠ 4 by decide)]
  rcases hOrder with ⟨rfl, hNumber⟩ | ⟨rfl, hNumber⟩
  · rw [if_pos hNumber]
  · rw [hNumber, if_neg (by decide), if_pos rfl]

/-- The state behind the file header, if that is complete. -/
theorem initPcap_eq (fmt : Format) (contents : List UInt8) : initPcap fmt ⟨contents, 0⟩ =
    if contents.length < 24 then none
    else some ⟨⟨contents, 24⟩, fmt, pcapWord fmt contents 20, [], 0⟩ := by
  have hWord : pcapWord fmt (contents.take 24) 20 = pcapWord fmt contents 20 := by
    have hField : field (contents.take 24) 20 4 = field contents 20 4 := by
      simpa using field_within contents 0 (show 20 + 4 ≤ 24 by omega)
    rw [pcapWord, pcapWord, hField]
  by_cases hShort : contents.length < 24
  · have hRet : ((File.mk contents 0).read 24).ret ≠ 24 := fun h => by
      have hLeft := (File.read_ret_iff (show 0 < 24 by omega) (show 24 < 2 ^ 63 by omega)).mp h
      simp only at hLeft
      omega
    simp only [initPcap, if_pos hRet, if_pos hShort]
  · have hRead := File.read_full (f := ⟨contents, 0⟩) (show 24 < 2 ^ 63 by omega)
      (show 0 + 24 ≤ contents.length by omega)
    simp only [initPcap, hRead, List.drop_zero, hWord, if_neg hShort]
    rfl

/-- The twin of a PCAP file. -/
theorem swapImage_eq (h : byteOrder contents = some fmt) :
    swapImage contents =
      swapFields fileWidths (contents.take 24) ++ swapRecords fmt (contents.drop 24) := by
  rw [swapImage, h]

@[simp] theorem swapImage_length (contents : List UInt8) :
    (swapImage contents).length = contents.length := by
  cases hOrder : byteOrder contents with
  | none => rw [swapImage, hOrder]
  | some fmt =>
      rw [swapImage_eq hOrder, List.length_append, swapFields_length, swapRecords_length,
        ← List.length_append, List.take_append_drop]

/-- Its file header and its records are those of the image, swapped. -/
theorem swapImage_split (h : byteOrder contents = some fmt) :
    (swapImage contents).take 24 = swapFields fileWidths (contents.take 24) ∧
      (swapImage contents).drop 24 = swapRecords fmt (contents.drop 24) := by
  have hLength : (swapFields fileWidths (contents.take 24)).length = min 24 contents.length := by
    rw [swapFields_length, List.length_take]
  rw [swapImage_eq h]
  by_cases hFull : 24 ≤ contents.length
  · rw [Nat.min_eq_left hFull] at hLength
    exact ⟨List.take_left' hLength, List.drop_left' hLength⟩
  · rw [List.drop_eq_nil_of_le (show contents.length ≤ 24 by omega), swapRecords_nil,
      List.append_nil]
    exact ⟨List.take_of_length_le (by omega), List.drop_eq_nil_of_le (by omega)⟩

/-- The fields of the twin's file header. -/
theorem field_swapImage (h : byteOrder contents = some fmt) (front back : List Nat) {width : Nat}
    (hWidths : front ++ width :: back = fileWidths) (hThere : front.sum + width ≤ contents.length) :
    field (swapImage contents) front.sum width = (field contents front.sum width).reverse := by
  have hSum : front.sum + width ≤ 24 := by
    have hTotal := congrArg List.sum hWidths
    rw [List.sum_append, List.sum_cons] at hTotal
    have hAll : fileWidths.sum = 24 := rfl
    omega
  have hTake : front.sum + width ≤ (contents.take 24).length := by
    rw [List.length_take]
    omega
  rw [swapImage_eq h, field_append_front _ (by rw [swapFields_length]; exact hTake), ← hWidths,
    field_swapFields front back hTake]
  congr 1
  simpa using field_within contents 0 hSum

/-- The twin of a PCAP file is one in the opposite byte order. -/
theorem byteOrder_swapImage (h : byteOrder contents = some fmt) :
    byteOrder (swapImage contents) = some fmt.twin := by
  have hLong := (byteOrder_some h).1
  apply byteOrder_twin h
  · rw [swapImage_length]
    exact hLong
  · exact field_swapImage h [] [2, 2, 4, 4, 4, 4] rfl (by simpa using hLong)

/-- Swapping is undone by swapping once more. -/
theorem swapImage_swapImage (contents : List UInt8) : swapImage (swapImage contents) = contents := by
  cases hOrder : byteOrder contents with
  | none =>
      have hSame : swapImage contents = contents := by rw [swapImage, hOrder]
      rw [hSame, hSame]
  | some fmt =>
      obtain ⟨hHeader, hRecords⟩ := swapImage_split hOrder
      rw [swapImage_eq (byteOrder_swapImage hOrder), hHeader, hRecords, swapFields_swapFields,
        swapRecords_swapRecords (byteOrder_order hOrder), List.take_append_drop]

/-- A PCAP file and the one with all header fields swapped are both opened with
the same link type and yield the same packets up to the first call that returns
zero, or neither is opened. -/
theorem byte_order_irrelevant (mallocOk callocOk : Bool) (h : byteOrder contents = some fmt) :
    Option.Rel Alike (init true mallocOk callocOk contents)
      (init true mallocOk callocOk (swapImage contents)) := by
  have hOrder := byteOrder_order h
  have hTwin := byteOrder_swapImage h
  have hFile := initPcap_eq fmt contents
  have hFile' := initPcap_eq fmt.twin (swapImage contents)
  simp only [init, if_true, detect_pcap mallocOk h, detect_pcap mallocOk hTwin, hFile, hFile',
    swapImage_length]
  by_cases hShort : contents.length < 24
  · rw [if_pos hShort, if_pos hShort]
    exact .none
  · have hNetwork := field_swapImage h [4, 2, 2, 4, 4, 4] [] rfl (Nat.le_of_not_lt hShort)
    have hField : (field contents 20 4).length = 4 := by
      simp only [field, List.length_take, List.length_drop]
      omega
    have hLink : pcapWord fmt.twin (swapImage contents) 20 = pcapWord fmt contents 20 :=
      pcapWord_twin hOrder hField hNetwork
    rw [if_neg hShort, if_neg hShort, hLink, Option.bind_some, Option.bind_some]
    cases callocOk with
    | false => exact .none
    | true =>
        refine .some ⟨rfl, fun fuel calls => results_twins fuel calls hOrder ?_⟩
        exact ⟨rfl, rfl, rfl, rfl, rfl, (swapImage_split h).2⟩

/-- Two packets and the beginning of a third. -/
def cutImage : List UInt8 := pcapFile false storeHeader (twoFrames.map Frame.record) ++ [1, 2, 3]

theorem byte_order_irrelevant_cut :
    byteOrder cutImage = some .pcap ∧
      Option.Rel Alike (init true true true cutImage) (init true true true (swapImage cutImage)) :=
  ⟨by decide, byte_order_irrelevant true true (show byteOrder cutImage = some .pcap by decide)⟩

end Peak.Load
