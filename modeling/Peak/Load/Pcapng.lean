import Peak.Load.Formats

/-! Reading well-formed PCAPNG traces with the loader: the packets of a section
in order, each with the link type that the last interface description before it
has announced. -/
namespace Peak.Load

open Bytes

/-- A block of a PCAPNG trace. A packet block is given with the fields that the
loader does not look at and with all that follows the packet in it: padding and
options. -/
inductive Block where
  | packet (obsolete : Bool) (id captured : Nat) (frame : Frame) (tail : List UInt8)
  | interface (linktype reserved snaplen : Nat) (options : List UInt8)
  | other (type : Nat) (body : List UInt8)
deriving DecidableEq, Repr

namespace Block

/-- The time stamp of a packet, in microseconds. -/
def stamp (f : Frame) : Nat := (f.sec * 10 ^ 6 + f.usec).toNat

/-- The block type. -/
def type : Block → Nat
  | packet obsolete .. => if obsolete then 2 else 6
  | interface .. => 1
  | other type _ => type

/-- `struct pcapng_enhanced_pkt_header`. -/
def packetFields (id captured : Nat) (f : Frame) : List (Nat × Nat) :=
  [(4, id), (4, stamp f / 2 ^ 32), (4, stamp f % 2 ^ 32), (4, captured), (4, f.bytes.length)]

/-- `struct pcapng_iface_desc_header`. -/
def interfaceFields (linktype reserved snaplen : Nat) : List (Nat × Nat) :=
  [(2, linktype), (2, reserved), (4, snaplen)]

/-- What stands between the block header and the trailing length. -/
def body : Block → List UInt8
  | packet _ id captured frame tail =>
      pack (packetFields id captured frame) ++ (frame.bytes ++ tail)
  | interface linktype reserved snaplen options =>
      pack (interfaceFields linktype reserved snaplen) ++ options
  | other _ body => body

/-- The block length: both lengths and the type count as well. -/
def length (b : Block) : Nat := 12 + b.body.length

/-- `struct pcapng_block_header`. -/
def header (b : Block) : List UInt8 := pack [(4, b.type), (4, b.length)]

/-- The bytes of a block in the file. -/
def encode (b : Block) : List UInt8 := b.header ++ (b.body ++ Bytes.encode 4 b.length)

/-- A packet is not empty and its time stamp fits, a link type fits its field,
and no other block has the type of these two. -/
def Plain : Block → Prop
  | packet _ _ _ f _ =>
      1 ≤ f.bytes.length ∧ 0 ≤ f.sec ∧ (0 ≤ f.usec ∧ f.usec < 10 ^ 6) ∧
        f.sec * 10 ^ 6 + f.usec < 2 ^ 63
  | interface linktype .. => linktype < 2 ^ 16
  | other type _ => type < 2 ^ 32 ∧ type ∉ [1, 2, 6]

instance (b : Block) : Decidable b.Plain :=
  match b with
  | packet .. => inferInstanceAs (Decidable (_ ∧ _ ∧ (_ ∧ _) ∧ _))
  | interface .. => inferInstanceAs (Decidable (_ < _))
  | other .. => inferInstanceAs (Decidable (_ ∧ _))

/-- The block fits into the buffer of the loader as well. -/
structure WellFormed (b : Block) : Prop where
  fits : b.length ≤ bufSize
  plain : b.Plain

@[simp] theorem header_length (b : Block) : b.header.length = 8 := by
  simp [header]

/-- The block header, as the loader reads it. -/
theorem header_fields {b : Block} (hWell : b.WellFormed) :
    le (field b.header 0 4) = b.type ∧ le (field b.header 4 4) = b.length := by
  have hFits : b.length ≤ 32 * 1024 := hWell.fits
  have hType : b.type < 2 ^ 32 := by
    cases b with
    | packet obsolete =>
        simp only [type]
        split_ifs <;> omega
    | interface =>
        simp only [type]
        omega
    | other type body => exact hWell.plain.1
  have hFirst : le (field (b.header ++ []) 0 4) = b.type := le_field_pack 0 [] rfl rfl hType
  have hSecond : le (field (b.header ++ []) 4 4) = b.length := le_field_pack 1 [] rfl rfl (by omega)
  rw [List.append_nil] at hFirst hSecond
  exact ⟨hFirst, hSecond⟩

/-- The fields of a packet block that the loader uses. -/
theorem packet_fields (id captured : Nat) {f : Frame} (hLength : f.bytes.length ≤ bufSize)
    (hSec : 0 ≤ f.sec) (hUsec : 0 ≤ f.usec ∧ f.usec < 10 ^ 6)
    (hStamp : f.sec * 10 ^ 6 + f.usec < 2 ^ 63) :
    pcapngStamp (le (field (pack (packetFields id captured f)) 4 4))
      (le (field (pack (packetFields id captured f)) 8 4)) = f.sec * 10 ^ 6 + f.usec ∧
      le (field (pack (packetFields id captured f)) 16 4) = f.bytes.length := by
  have hFits : f.bytes.length ≤ 32 * 1024 := hLength
  have hValue : (stamp f : Int) = f.sec * 10 ^ 6 + f.usec := by
    rw [stamp]
    omega
  have hHigh : le (field (pack (packetFields id captured f) ++ []) 4 4) = stamp f / 2 ^ 32 :=
    le_field_pack 1 [] rfl (by simp [packetFields]) (by omega)
  have hLow : le (field (pack (packetFields id captured f) ++ []) 8 4) = stamp f % 2 ^ 32 :=
    le_field_pack 2 [] rfl (by simp [packetFields]) (by omega)
  have hLen : le (field (pack (packetFields id captured f) ++ []) 16 4) = f.bytes.length :=
    le_field_pack 4 [] rfl (by simp [packetFields]) (by omega)
  rw [List.append_nil] at hHigh hLow hLen
  refine ⟨?_, hLen⟩
  rw [hHigh, hLow, pcapngStamp, Nat.div_add_mod', BitVec.toInt_ofNat', ← hValue]
  exact Int.bmod_eq_of_le (by omega) (by omega)

/-- The two parts of a time stamp in microseconds. -/
theorem stamp_parts {sec usec : Int} (hSec : 0 ≤ sec) (hUsec : 0 ≤ usec ∧ usec < 10 ^ 6) :
    ((sec * 10 ^ 6 + usec).tdiv 1000).tdiv 1000 = sec ∧
      (sec * 10 ^ 6 + usec).tmod (1000 * 1000) = usec := by
  have hNonneg : 0 ≤ sec * 10 ^ 6 + usec := by omega
  rw [Int.tdiv_eq_ediv_of_nonneg hNonneg, Int.tdiv_eq_ediv_of_nonneg (by omega),
    Int.tmod_eq_emod_of_nonneg hNonneg]
  omega

end Block

/-- The section header block, with a body of any kind. -/
def sectionHeader (body : List UInt8) : List UInt8 :=
  pack [(4, pcapngMagic), (4, 12 + body.length)] ++ (body ++ encode 4 (12 + body.length))

/-- A well-formed PCAPNG trace. -/
def pcapngFile (body : List UInt8) (blocks : List Block) : List UInt8 :=
  sectionHeader body ++ blocks.flatMap Block.encode

/-- The packets of the blocks, if the given link type is the one announced
last. -/
def carried : Nat → List Block → List Handed
  | _, [] => []
  | ll, .packet _ _ _ frame _ :: blocks => ⟨ll, frame⟩ :: carried ll blocks
  | _, .interface linktype _ _ _ :: blocks => carried linktype blocks
  | ll, .other _ _ :: blocks => carried ll blocks

variable {s : Loader} {rest : List UInt8}

/-- The loop reads the header of a block that stands at the file position. -/
theorem block_front {b : Block} (hWell : b.WellFormed)
    (hAt : s.file.contents.drop s.file.pos = b.encode ++ rest) :
    loadPcapngBlock s =
      let behind := { s with file := ⟨s.file.contents, s.file.pos + 8⟩ }
      if b.type = 2 ∨ b.type = 6 then .done (loadPcapngPacket b.length behind)
      else if b.type = 1 then loadPcapngIface b.length behind
      else .again { behind with file := behind.file.seekCur (File.signed (File.sizeSub b.length 8)) } := by
  rw [Block.encode, List.append_assoc] at hAt
  have hHeader := readHeader_front hAt (by rw [b.header_length]; omega)
  rw [b.header_length] at hHeader
  obtain ⟨hType, hLength⟩ := Block.header_fields hWell
  simp only [loadPcapngBlock, hHeader, hType, hLength, if_neg (Nat.not_lt.mpr hWell.fits)]

/-- A block of the file ends where its length says. -/
theorem block_rest {b : Block} (hAt : s.file.contents.drop s.file.pos = b.encode ++ rest) :
    s.file.contents.drop (s.file.pos + b.length) = rest := by
  have hLength : b.encode.length = b.length := by
    rw [Block.encode, List.length_append, List.length_append, b.header_length, encode_length,
      Block.length]
    omega
  rw [← hLength]
  exact File.drop_behind hAt

/-- The loop goes on behind an interface description, with its link type. -/
theorem block_interface {linktype reserved snaplen : Nat} {options : List UInt8}
    (hWell : (Block.interface linktype reserved snaplen options).WellFormed)
    (hAt : s.file.contents.drop s.file.pos =
      (Block.interface linktype reserved snaplen options).encode ++ rest) :
    loadPcapngBlock s = .again
      { s with
        file := ⟨s.file.contents,
          s.file.pos + (Block.interface linktype reserved snaplen options).length⟩
        ll := linktype } := by
  have hFront := block_front hWell hAt
  have hFits : (Block.interface linktype reserved snaplen options).length ≤ 32 * 1024 := hWell.fits
  have hLinktype : linktype < 2 ^ 16 := hWell.plain
  rw [Block.encode, List.append_assoc] at hAt
  have hBody := File.drop_behind hAt
  rw [Block.header_length, Block.body, List.append_assoc, List.append_assoc] at hBody
  have hSize : (pack (Block.interfaceFields linktype reserved snaplen)).length = 8 := by
    simp [Block.interfaceFields]
  have hHeader := readHeader_front (s := { s with file := ⟨s.file.contents, s.file.pos + 8⟩ }) hBody
    (by rw [hSize]; omega)
  have hType : le (field (pack (Block.interfaceFields linktype reserved snaplen) ++ []) 0 2) = linktype :=
    le_field_pack 0 [] rfl rfl hLinktype
  rw [List.append_nil] at hType
  rw [hSize] at hHeader
  have hSub : File.sizeSub (File.sizeSub (Block.interface linktype reserved snaplen options).length 8) 8 =
      File.sizeSub (Block.interface linktype reserved snaplen options).length 16 := by
    simp only [File.sizeSub]
    omega
  rw [hFront]
  simp only [Block.type, loadPcapngIface, hHeader, hType, hSub]
  rw [File.seekCur_rest (by omega) (show 16 < 2 ^ 63 by omega) rfl]
  rfl

/-- The loop goes on behind a block that it does not know. -/
theorem block_other {type : Nat} {body : List UInt8} (hWell : (Block.other type body).WellFormed)
    (hAt : s.file.contents.drop s.file.pos = (Block.other type body).encode ++ rest) :
    loadPcapngBlock s = .again
      { s with file := ⟨s.file.contents, s.file.pos + (Block.other type body).length⟩ } := by
  have hFits : (Block.other type body).length ≤ 32 * 1024 := hWell.fits
  have hType := hWell.plain.2
  simp only [List.mem_cons, List.not_mem_nil, or_false, not_or] at hType
  obtain ⟨hOne, hTwo, hSix⟩ := hType
  rw [block_front hWell hAt]
  simp only [Block.type, hOne, hTwo, hSix, or_self, if_false]
  rw [File.seekCur_rest (by omega) (show 8 < 2 ^ 63 by omega) rfl]

/-- The loop ends at a packet block, with the packet in the loader and the file
position behind the block. -/
theorem block_packet {obsolete : Bool} {id captured : Nat} {f : Frame} {tail : List UInt8}
    (hWell : (Block.packet obsolete id captured f tail).WellFormed)
    (hAt : s.file.contents.drop s.file.pos = (Block.packet obsolete id captured f tail).encode ++ rest) :
    ∃ s', loadPcapngBlock s = .done s' ∧ s'.len ≠ 0 ∧ s'.handed = ⟨s.ll, f⟩ ∧ s'.fmt = s.fmt ∧
      s'.ll = s.ll ∧ s'.file.contents.drop s'.file.pos = rest := by
  have hFront := block_front hWell hAt
  have hEnd := block_rest hAt
  have hFits := hWell.fits
  obtain ⟨hPos, hSec, hUsec, hStamp⟩ := hWell.plain
  have hType : (Block.packet obsolete id captured f tail).type = 2 ∨
      (Block.packet obsolete id captured f tail).type = 6 := by
    cases obsolete with
    | true => exact .inl rfl
    | false => exact .inr rfl
  have hSize : (pack (Block.packetFields id captured f)).length = 20 := by
    simp [Block.packetFields]
  obtain ⟨trailer, hTrailer⟩ : ∃ trailer, trailer =
      tail ++ encode 4 (Block.packet obsolete id captured f tail).length := ⟨_, rfl⟩
  have hLength : (Block.packet obsolete id captured f tail).length =
      28 + (f.bytes ++ trailer).length := by
    simp only [hTrailer, Block.length, Block.body, List.length_append, hSize, encode_length]
    omega
  have hBody : s.file.contents.drop (s.file.pos + 8) =
      pack (Block.packetFields id captured f) ++ ((f.bytes ++ trailer) ++ rest) := by
    rw [Block.encode, List.append_assoc] at hAt
    have hBehind := File.drop_behind hAt
    rw [Block.header_length] at hBehind
    rw [hBehind, Block.body, hTrailer]
    simp only [List.append_assoc]
  have hHeader := readHeader_front (s := { s with file := ⟨s.file.contents, s.file.pos + 8⟩ }) hBody
    (by rw [hSize]; omega)
  have hData := File.drop_behind hBody
  rw [hSize] at hHeader hData
  rw [hLength] at hFits hEnd hFront
  simp only [bufSize] at hFits
  obtain ⟨hTime, hLen⟩ := Block.packet_fields id captured
    (show f.bytes.length ≤ bufSize by rw [List.length_append] at hFits; simp only [bufSize]; omega)
    hSec hUsec hStamp
  obtain ⟨hSeconds, hMicros⟩ := Block.stamp_parts hSec hUsec
  have hSub : File.sizeSub (File.sizeSub (28 + (f.bytes ++ trailer).length) 8) 20 =
      (f.bytes ++ trailer).length := by
    simp only [File.sizeSub]
    omega
  have hLoad : loadPcapngBlock s = .done
      { s with
        file := ⟨s.file.contents, s.file.pos + 8 + 20 + (f.bytes ++ trailer).length⟩
        buf := Cells.write s.buf 0 (f.bytes ++ trailer)
        transfers := s.transfers ++
          [⟨s.file.pos + 8 + 20, (f.bytes ++ trailer).length, f.bytes ++ trailer⟩]
        tsSec := f.sec
        tsUsec := f.usec
        len := f.bytes.length } := by
    rw [hFront]
    simp only [hType, if_true, loadPcapngPacket, hHeader, hTime, hLen, hSub, hSeconds, hMicros]
    rw [loadData_front hData (by omega)]
  refine ⟨_, hLoad, Nat.pos_iff_ne_zero.mp hPos, frame_loaded _ _, rfl, rfl, ?_⟩
  rw [← hEnd, Nat.add_assoc, Nat.add_assoc, ← Nat.add_assoc 8]

/-- What is left to be read: well-formed blocks that carry the given packets,
and not more blocks than a call may look at. -/
structure Ahead (fuel : Nat) (packets : List Handed) (s : Loader) (blocks : List Block) : Prop where
  wellFormed : ∀ b ∈ blocks, b.WellFormed
  at_front : s.file.contents.drop s.file.pos = blocks.flatMap Block.encode
  carries : carried s.ll blocks = packets
  few : blocks.length < fuel

/-- Entering a call changes nothing about it. -/
theorem Ahead.entered {blocks : List Block} {packets : List Handed} {fuel : Nat}
    (h : Ahead fuel packets s blocks) : Ahead fuel packets (entered s) blocks :=
  ⟨h.wellFormed, h.at_front, h.carries, h.few⟩

/-- A block that is passed over leaves the blocks behind it ahead, with one
round less. -/
theorem Ahead.pass {b : Block} {blocks : List Block} {packets : List Handed} {fuel ll : Nat}
    (h : Ahead (fuel + 1) packets s (b :: blocks))
    (hCarried : carried s.ll (b :: blocks) = carried ll blocks) :
    Ahead fuel packets { s with file := ⟨s.file.contents, s.file.pos + b.length⟩, ll := ll } blocks where
  wellFormed b' hMem := h.wellFormed b' (List.mem_cons_of_mem _ hMem)
  at_front := block_rest (by simpa using h.at_front)
  carries := hCarried.symm.trans h.carries
  few := Nat.lt_of_succ_lt_succ h.few

/-- The loop passes over blocks up to the first packet. -/
theorem loop_packet {blocks : List Block} {first : Handed} {others : List Handed} {fuel : Nat}
    (h : Ahead fuel (first :: others) s blocks) :
    ∃ s' left, Loop.run loadPcapngBlock fuel s = .done s' ∧ s'.len ≠ 0 ∧ s'.handed = first ∧
      s'.fmt = s.fmt ∧ Ahead fuel others s' left := by
  induction blocks generalizing s fuel with
  | nil => cases h.carries
  | cons b blocks ih =>
      obtain ⟨fuel, rfl⟩ : ∃ n, fuel = n + 1 := ⟨fuel - 1, by have := h.few; omega⟩
      have hWell := h.wellFormed b List.mem_cons_self
      have hAt : s.file.contents.drop s.file.pos = b.encode ++ blocks.flatMap Block.encode := by
        simpa using h.at_front
      cases b with
      | packet obsolete id captured f tail =>
          obtain ⟨s', hBlock, hLen, hHanded, hFmt, hLl, hRest⟩ := block_packet hWell hAt
          obtain ⟨hFirst, hOthers⟩ := List.cons.inj h.carries
          refine ⟨s', blocks, Loop.run_succ_of_done hBlock fuel, hLen, hHanded.trans hFirst, hFmt,
            fun b' hMem => h.wellFormed b' (List.mem_cons_of_mem _ hMem), hRest, ?_, ?_⟩
          · rw [hLl]
            exact hOthers
          · have := h.few
            rw [List.length_cons] at this
            omega
      | interface linktype reserved snaplen options =>
          obtain ⟨s', left, hRun, hLen, hHanded, hFmt, hAhead⟩ := ih (h.pass rfl)
          refine ⟨s', left, ?_, hLen, hHanded, hFmt, { hAhead with few := by have := hAhead.few; omega }⟩
          rw [Loop.run_succ_of_again (block_interface hWell hAt), hRun]
      | other type body =>
          obtain ⟨s', left, hRun, hLen, hHanded, hFmt, hAhead⟩ := ih (h.pass rfl)
          refine ⟨s', left, ?_, hLen, hHanded, hFmt, { hAhead with few := by have := hAhead.few; omega }⟩
          rw [Loop.run_succ_of_again (block_other hWell hAt), hRun]

/-- Without a packet ahead the loop gets to the end of the trace. -/
theorem loop_end {blocks : List Block} {fuel : Nat} (h : Ahead fuel [] s blocks) :
    ∃ s', Loop.run loadPcapngBlock fuel s = .done s' ∧ s'.len = s.len := by
  induction blocks generalizing s fuel with
  | nil =>
      obtain ⟨fuel, rfl⟩ : ∃ n, fuel = n + 1 := ⟨fuel - 1, by have := h.few; omega⟩
      have hEnd := readHeader_end 8 h.at_front (by omega) (by omega)
      have hBlock : loadPcapngBlock s = .done { s with file := (s.file.read 8).file } := by
        simp only [loadPcapngBlock, hEnd]
      exact ⟨_, Loop.run_succ_of_done hBlock fuel, rfl⟩
  | cons b blocks ih =>
      obtain ⟨fuel, rfl⟩ : ∃ n, fuel = n + 1 := ⟨fuel - 1, by have := h.few; omega⟩
      have hWell := h.wellFormed b List.mem_cons_self
      have hAt : s.file.contents.drop s.file.pos = b.encode ++ blocks.flatMap Block.encode := by
        simpa using h.at_front
      cases b with
      | packet => cases h.carries
      | interface linktype reserved snaplen options =>
          obtain ⟨s', hRun, hLen⟩ := ih (h.pass rfl)
          exact ⟨s', by rw [Loop.run_succ_of_again (block_interface hWell hAt), hRun], hLen⟩
      | other type body =>
          obtain ⟨s', hRun, hLen⟩ := ih (h.pass rfl)
          exact ⟨s', by rw [Loop.run_succ_of_again (block_other hWell hAt), hRun], hLen⟩

/-- The section header is recognised, and the loader starts behind it with no
link type. -/
theorem detect_pcapng (mallocOk : Bool) {body : List UInt8} (hBody : 12 + body.length < 2 ^ 32)
    (blocks : List Block) :
    detect mallocOk (pcapngFile body blocks) =
      some ⟨⟨pcapngFile body blocks, 12 + body.length⟩, .pcapng, 0, [], 0⟩ := by
  have hSize : (pack [(4, pcapngMagic), (4, 12 + body.length)]).length = 8 := by simp
  have hAt : (pcapngFile body blocks).drop 0 = pack [(4, pcapngMagic), (4, 12 + body.length)] ++
      (body ++ encode 4 (12 + body.length) ++ blocks.flatMap Block.encode) := by
    rw [List.drop_zero, pcapngFile, sectionHeader]
    simp only [List.append_assoc]
  have hWord : (pcapngFile body blocks).drop 0 = encode 4 pcapngMagic ++
      ((pack [(4, pcapngMagic), (4, 12 + body.length)]).drop 4 ++
        (body ++ encode 4 (12 + body.length) ++ blocks.flatMap Block.encode)) := by
    rw [hAt, ← List.append_assoc]
    rfl
  have hMagic := File.read_front (f := ⟨pcapngFile body blocks, 0⟩) hWord (by rw [encode_length]; omega)
  have hHeader := File.read_front (f := ⟨pcapngFile body blocks, 0⟩) hAt (by rw [hSize]; omega)
  have hLength : le (field (pack [(4, pcapngMagic), (4, 12 + body.length)] ++ []) 4 4) =
      12 + body.length := le_field_pack 1 [] rfl rfl (by omega)
  have hNumber : le (encode 4 pcapngMagic) = pcapngMagic := by decide
  rw [encode_length] at hMagic
  rw [hSize] at hHeader
  rw [List.append_nil] at hLength
  have hSeek : (File.mk (pcapngFile body blocks) (0 + 8)).seekCur
      (File.signed (File.sizeSub (12 + body.length) 8)) =
        ⟨pcapngFile body blocks, 0 + (12 + body.length)⟩ :=
    File.seekCur_rest (by omega) (by omega) rfl
  simp only [detect, hMagic, hNumber, File.seekSet, initPcapng, hHeader, hLength, hSeek]
  simp [pcapngMagic, pcapMagic, pcapSwapMagic, netmonMagic]

/-- Two interfaces, a packet of each kind, and a block of another type. -/
def mixedBlocks : List Block :=
  [.interface 1 0 65535 [], .packet false 0 1 ⟨[7], 1, 2⟩ [0, 0, 0], .other 5 [0, 0, 0, 0],
    .interface 113 0 65535 [], .packet true 1 2 ⟨[8, 9], 2 ^ 33, 999999⟩ [0, 0]]

theorem mixedBlocks_wellFormed : ∀ b ∈ mixedBlocks, b.WellFormed :=
  fun b hMem => ⟨(by decide : ∀ b ∈ mixedBlocks, b.length ≤ bufSize) b hMem,
    (by decide : ∀ b ∈ mixedBlocks, b.Plain) b hMem⟩

end Peak.Load
