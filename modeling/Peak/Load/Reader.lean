import Peak.Base.Bytes
import Peak.Base.Cells
import Peak.Base.File
import Peak.Base.Loop

/-! `lib/peak_load.c`: the packet loader for PCAP, PCAPNG, ERF and NETMON traces.
The packet buffer is the memory from `data.buf` on, so a read that is too long
writes behind it. Next to the fields of the source the state keeps a record of
the reads into the buffer that the current call made. -/
namespace Peak.Load

open Bytes

/-- `sizeof(data.buf)`. -/
def bufSize : Nat := 32 * 1024

/-- The values of `fmt`: the magic numbers of the formats that have one. -/
inductive Format where
  | erf
  | pcap
  | pcapSwap
  | pcapng
  | netmon
deriving DecidableEq, Repr

/-- One `read(2)` into `data.buf`: where in the file it started, how many bytes
were asked for, and the bytes that were stored. -/
structure Transfer where
  start : Nat
  asked : Nat
  got : List UInt8
deriving DecidableEq, Repr

/-- `struct _peak_load` with the open file behind its descriptor. -/
structure Loader where
  file : File
  netmonTable : List Nat
  netmonCount : Nat
  netmonPos : Nat
  netmonTime : Int
  fmt : Format
  tsSec : Int
  tsUsec : Int
  len : Nat
  ll : Nat
  buf : Nat → UInt8
  transfers : List Transfer

namespace Loader

variable (s : Loader)

/-- A `read(2)` of a header: its bytes, if all of them were there. -/
def readHeader (size : Nat) : Option (List UInt8) × Loader :=
  let got := s.file.read size
  (if got.ret = size then some got.bytes else none, { s with file := got.file })

/-- A `read(2)` into `data.buf`: the return value and the state behind it. -/
def readBuf (count : Nat) : Int × Loader :=
  let got := s.file.read count
  (got.ret,
    { s with
      file := got.file
      buf := Cells.write s.buf 0 got.bytes
      transfers := s.transfers ++ [⟨s.file.pos, count, got.bytes⟩] })

/-- The end of every reader: read the data of a packet, return if that is not
what was asked for, and fill in the time stamp and the length. -/
def loadData (count : Nat) (sec usec : Int) (len : Nat) : Loader :=
  let (ret, s) := s.readBuf count
  if ret ≠ File.signed count then s
  else { s with tsSec := sec, tsUsec := usec, len := len }

end Loader

/-- `ERF_USEC`. -/
def erfUsec (ts : Nat) : Nat := ts % 2 ^ 32 * 1000 * 1000 / 2 ^ 32

/-- `ERF_SEC`. -/
def erfSec (ts : Nat) : Nat := ts / 2 ^ 32

/-- `NETMON_USEC`, in 64 bits. -/
def netmonUsec (stamp : Nat) : Nat := stamp * 10 % 2 ^ 64 / 10 % (1000 * 1000)

/-- `NETMON_SEC`, in 64 bits. -/
def netmonSec (stamp : Nat) : Nat := stamp * 10 % 2 ^ 64 / (10 * 1000 * 1000)

/-- `(int64_t)ts_high << 32 | (int64_t)ts_low`. -/
def pcapngStamp (high low : Nat) : Int := (BitVec.ofNat 64 (high * 2 ^ 32 + low)).toInt

/-- `_peak_load_erf`. The record length is a 16-bit field, so taking the header
off a shorter record wraps. -/
def loadErf (s : Loader) : Loader :=
  match s.readHeader 18 with
  | (none, s) => s
  | (some hdr, s) =>
      let ts := le (field hdr 0 8)
      let rlen := (be (field hdr 10 2) + (65536 - 18)) % 65536
      let wlen := be (field hdr 14 2)
      if bufSize < rlen then s else s.loadData rlen (erfSec ts) (erfUsec ts) wlen

/-- A field of a PCAP header in the byte order of the file. -/
def pcapWord (fmt : Format) (bytes : List UInt8) (off : Nat) : Nat :=
  if fmt = .pcapSwap then bswap32 (le (field bytes off 4)) else le (field bytes off 4)

/-- `_peak_load_pcap`. -/
def loadPcap (s : Loader) : Loader :=
  match s.readHeader 16 with
  | (none, s) => s
  | (some hdr, s) =>
      let tsSec := pcapWord s.fmt hdr 0
      let tsUsec := pcapWord s.fmt hdr 4
      let inclLen := pcapWord s.fmt hdr 8
      if bufSize < inclLen then s else s.loadData inclLen tsSec tsUsec inclLen

/-- A packet block of `_peak_load_pcapng`, behind its block header. -/
def loadPcapngPacket (length : Nat) (s : Loader) : Loader :=
  match s.readHeader 20 with
  | (none, s) => s
  | (some pkt, s) =>
      let ts := pcapngStamp (le (field pkt 4 4)) (le (field pkt 8 4))
      let packetLen := le (field pkt 16 4)
      s.loadData (File.sizeSub (File.sizeSub length 8) 20) ((ts.tdiv 1000).tdiv 1000)
        (ts.tmod (1000 * 1000)) packetLen

/-- An interface description block of `_peak_load_pcapng`, behind its block
header. -/
def loadPcapngIface (length : Nat) (s : Loader) : Loop.Step Loader :=
  match s.readHeader 8 with
  | (none, s) => .done s
  | (some iface, s) =>
      .again
        { s with
          file := s.file.seekCur (File.signed (File.sizeSub (File.sizeSub length 8) 8))
          ll := le (field iface 0 2) }

/-- One block of `_peak_load_pcapng`, from the label `_peak_load_pcapng_again`
to the next jump to it. -/
def loadPcapngBlock (s : Loader) : Loop.Step Loader :=
  match s.readHeader 8 with
  | (none, s) => .done s
  | (some hdr, s) =>
      let type := le (field hdr 0 4)
      let length := le (field hdr 4 4)
      if bufSize < length then .done s
      else if type = 2 ∨ type = 6 then .done (loadPcapngPacket length s)
      else if type = 1 then loadPcapngIface length s
      else .again { s with file := s.file.seekCur (File.signed (File.sizeSub length 8)) }

/-- `_peak_load_netmon`. -/
def loadNetmon (s : Loader) : Loader :=
  if s.netmonPos = s.netmonCount then s
  else
    let s : Loader :=
      { s with
        file := s.file.seekSet (s.netmonTable.getD s.netmonPos 0)
        netmonPos := s.netmonPos + 1 }
    match s.readHeader 16 with
    | (none, s) => s
    | (some hdr, s) =>
        let stamp := le (field hdr 0 8)
        let originalLength := le (field hdr 8 4)
        let includeLength := le (field hdr 12 4)
        if bufSize < includeLength then s
        else
          s.loadData includeLength (netmonSec stamp + s.netmonTime) (netmonUsec stamp)
            originalLength

/-- The state in which `peak_load_packet` enters the reader of the format: no
packet is loaded. -/
def entered (s : Loader) : Loader := { s with len := 0, transfers := [] }

/-- `peak_load_packet` up to `fuel` block headers of the PCAPNG loop. It returns
`len`. -/
def packet (fuel : Nat) (s : Loader) : Loop.Step Loader :=
  match s.fmt with
  | .erf => .done (loadErf (entered s))
  | .pcapSwap => .done (loadPcap (entered s))
  | .pcap => .done (loadPcap (entered s))
  | .pcapng => Loop.run loadPcapngBlock fuel (entered s)
  | .netmon => .done (loadNetmon (entered s))

/-- Days from the epoch to a day of the Gregorian calendar. The month counts
from 0 and the year starts in March here, so that the leap day is the last. -/
def civilDays (year month day : Int) : Int :=
  let y := year + month / 12 - (if month % 12 < 2 then 1 else 0)
  let m := (month % 12 + 10) % 12
  365 * y + y / 4 - y / 100 + y / 400 + (153 * m + 2) / 5 + (day - 1) - 719468

/-- `timegm` for a date that need not be normalised. -/
def timegm (year month day hour min sec : Int) : Int :=
  civilDays year month day * 86400 + hour * 3600 + min * 60 + sec

/-- What `peak_load_init` learns about a trace before it allocates its state. -/
structure Header where
  file : File
  fmt : Format
  ll : Nat
  netmonTable : List Nat
  netmonTime : Int
deriving DecidableEq, Repr

def pcapMagic : Nat := 0xA1B2C3D4
def pcapSwapMagic : Nat := 0xD4C3B2A1
def pcapngMagic : Nat := 0x0A0D0D0A
def netmonMagic : Nat := 0x55424D47
def linktypeEthernet : Nat := 1

/-- The PCAP case of `peak_load_init`. -/
def initPcap (fmt : Format) (file : File) : Option Header :=
  let hdr := file.read 24
  if hdr.ret ≠ 24 then none
  else some ⟨hdr.file, fmt, pcapWord fmt hdr.bytes 20, [], 0⟩

/-- The NETMON case of `peak_load_init`. There is no frame table of no bytes:
`peak_malloc` returns `NULL` for it. -/
def initNetmon (mallocOk : Bool) (file : File) : Option Header :=
  let hdr := file.read 64
  if hdr.ret ≠ 64 then none
  else if le (field hdr.bytes 4 1) ≠ 0 ∨ le (field hdr.bytes 5 1) ≠ 2 then none
  else if 1 < le (field hdr.bytes 6 2) then none
  else if le (field hdr.bytes 28 4) = 0 ∨ mallocOk = false then none
  else
    let time := timegm (le (field hdr.bytes 8 2)) ((le (field hdr.bytes 10 2) : Int) - 1)
      (le (field hdr.bytes 14 2)) (le (field hdr.bytes 16 2)) (le (field hdr.bytes 18 2))
      (le (field hdr.bytes 20 2))
    let length := le (field hdr.bytes 28 4)
    let table := (hdr.file.seekSet (le (field hdr.bytes 24 4))).read length
    if table.ret ≠ length then none
    else
      some ⟨table.file, .netmon, linktypeEthernet,
        (List.range (length / 4)).map fun i => le (field table.bytes (4 * i) 4), time⟩

/-- The PCAPNG case of `peak_load_init`: skip over the section header block. -/
def initPcapng (file : File) : Option Header :=
  let hdr := file.read 8
  if hdr.ret ≠ 8 then none
  else
    let length := le (field hdr.bytes 4 4)
    some ⟨hdr.file.seekCur (File.signed (File.sizeSub length 8)), .pcapng, 0, [], 0⟩

/-- The format detection of `peak_load_init`. An unknown magic number means
ERF. -/
def detect (mallocOk : Bool) (contents : List UInt8) : Option Header :=
  let magic := (File.mk contents 0).read 4
  if magic.ret ≠ 4 then none
  else
    let file := magic.file.seekSet 0
    let number := le magic.bytes
    if number = pcapSwapMagic then initPcap .pcapSwap file
    else if number = pcapMagic then initPcap .pcap file
    else if number = netmonMagic then initNetmon mallocOk file
    else if number = pcapngMagic then initPcapng file
    else some ⟨file, .erf, linktypeEthernet, [], 0⟩

/-- The state that `peak_load_init` allocates. -/
def start (h : Header) : Loader where
  file := h.file
  netmonTable := h.netmonTable
  netmonCount := h.netmonTable.length
  netmonPos := 0
  netmonTime := h.netmonTime
  fmt := h.fmt
  tsSec := 0
  tsUsec := 0
  len := 0
  ll := h.ll
  buf := fun _ => 0
  transfers := []

/-- `peak_load_init` on a file that can be opened, or on standard input if no
file is named: standard input is always taken for ERF. -/
def init (named mallocOk callocOk : Bool) (contents : List UInt8) : Option Loader :=
  let header :=
    if named then detect mallocOk contents
    else some ⟨⟨contents, 0⟩, .erf, linktypeEthernet, [], 0⟩
  header.bind fun h => if callocOk then some (start h) else none

end Peak.Load
