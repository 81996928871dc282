import Peak.Packet.Parse

/-! The application detectors of `lib/peak_li.c`. A guard of the form "return
zero unless" is one conjunct, in the order of the source. Struct overlays are
written as their byte offsets. -/
namespace Peak.Li

open ByteImage

/-- What the detectors see of a `struct peak_packet`: the bytes behind
`app.raw` and `flow.raw`, their announced lengths, the protocol and the ports. -/
structure Seen where
  app : Image
  flow : Image
  appLen : Nat
  flowLen : Nat
  netType : UInt8
  flowSport : Nat
  flowDport : Nat

/-- The view of a dissected packet in the memory it was dissected from. -/
def seen (m : Image) (p : Packet) : Seen :=
  { app := fun i => m (p.app.getD 0 + i)
    flow := fun i => m (p.flow.getD 0 + i)
    appLen := p.appLen
    flowLen := p.flowLen
    netType := UInt8.ofNat p.netType
    flowSport := p.flowSport
    flowDport := p.flowDport }

def ipprotoIcmp : Nat := 1
def ipprotoIgmp : Nat := 2
def ipprotoTcp : Nat := 6
def ipprotoUdp : Nat := 17
def ipprotoGre : Nat := 47
def ipprotoIcmpv6 : Nat := 58
def ipprotoOspfigp : Nat := 89
def ipprotoL2tp : Nat := 115
/-- No protocol number: `net_type` has eight bits. -/
def ipprotoMax : Nat := 256

variable (s : Seen)

/-- `LI_ISDIGIT`. -/
def isdigit (x : Nat) : Bool := 48 ≤ x && x ≤ 57

/-- The scan of `LI_STRLEN` from `off + ret` on: the length once a zero byte
is met, zero once the end of the payload is. -/
def strlenFrom (off : Nat) : Nat → Nat → Nat
  | 0, _ => 0
  | fuel + 1, ret =>
      if byte s.app (off + ret) = 0 then ret
      else if s.appLen ≤ off + (ret + 1) then 0
      else strlenFrom off fuel (ret + 1)

/-- `LI_STRLEN` at a payload offset. The scan ends within the payload. -/
def strlen (off : Nat) : Nat :=
  if off < s.appLen then strlenFrom s off (s.appLen - off) 0 else 0

/-- `LI_EXCLUDE_PORT`: exactly one side uses the port. -/
def excludePort (port : Nat) : Bool :=
  xor (s.flowSport == port) (s.flowDport == port)

/-- `LI_MATCH_PAYLOAD` with four byte keys: `none` falls through. -/
def matchPayload (keys : List String) : Option Bool :=
  if s.appLen < 4 then some false
  else if keys.any fun key => (bytes s.app 0 4).map UInt8.toNat == key.toList.map Char.toNat then
    some true
  else none

/-- A detector that only compares the first four bytes with its keys. -/
def keyed (keys : List String) : Bool := (matchPayload s keys).getD false

/-- TCP: padded with two bytes of length. -/
def padding : Nat := if s.netType.toNat = ipprotoTcp then 2 else 0

def dns : Bool :=
  12 + padding s ≤ s.appLen &&
  !(padding s != 0 && be16 s.app 0 + 2 < s.appLen) &&
  be16 s.app (padding s + 2) &&& 0x0070 == 0 &&
  [0x0000, 0x0800, 0x1000].contains (be16 s.app (padding s + 2) &&& 0x7800) &&
  if be16 s.app (padding s + 2) &&& 0x8000 ≠ 0 then
    [0, 1, 3, 4, 5].contains (be16 s.app (padding s + 2) &&& 0x000f)
  else
    be16 s.app (padding s + 2) &&& 0x000f == 0 &&
    be16 s.app (padding s + 2) &&& 0x0480 == 0 &&
    be16 s.app (padding s + 4) != 0 &&
    be16 s.app (padding s + 6) == 0

def dhcp : Bool :=
  236 ≤ s.appLen && [1, 2].contains (byte s.app 0) && byte s.app 1 == 1 && byte s.app 2 == 6

def stun : Bool :=
  (matchPayload s ["RSP/"]).getD (20 ≤ s.appLen && be32 s.app 4 == 0x2112A442)

def cvs : Bool := keyed s ["BEGI", "I LO", "I HA"]

def rtcp : Bool :=
  4 ≤ s.appLen && byte s.app 0 >>> 6 == 2 &&
  [192, 193, 194, 195, 200, 201, 202, 203, 204, 205, 206, 207, 208, 209].contains (byte s.app 1)

def rtp : Bool :=
  12 ≤ s.appLen && byte s.app 0 >>> 6 == 2 &&
  (be32 s.app 4 == 0 ||
    [0, 3, 4, 5, 6, 7, 8, 9, 10, 11, 12, 13, 14, 15, 16, 17, 18, 25, 26, 28, 31, 32, 33, 34].contains
      (byte s.app 1 &&& 0x7f))

def sip : Bool := keyed s
  ["SIP/", "INVI", "ACK ", "BYE ", "CANC", "OPTI", "REGI", "PRAC", "SUBS", "NOTI", "PUBL",
   "INFO", "REFE", "MESS", "UPDA"]

def ftp : Bool :=
  !([110, 25, 465, 587, 194, 6667].any (excludePort s)) && keyed s ["220 ", "220-", "USER"]

def ssh : Bool := keyed s ["SSH-"]

def imap : Bool := keyed s ["* OK"]

def smtp : Bool := !([21].any (excludePort s)) && keyed s ["220 ", "220-", "HELO", "EHLO"]

def pop3 : Bool :=
  !([21, 194, 6667].any (excludePort s)) && keyed s ["+OK ", "USER", "CAPA", "AUTH"]

/-- The index of the byte that must start the next telnet command. -/
def telnetNext : Nat :=
  if byte s.app 1 = 0xF0 then 2 else if byte s.app 1 = 0xFA then 4 else 3

def telnet : Bool :=
  2 ≤ s.appLen && byte s.app 0 == 0xFF &&
  !(telnetNext s < s.appLen && byte s.app (telnetNext s) != 0xFF)

def rip : Bool :=
  24 ≤ s.appLen && be16 s.app 2 == 0 && [1, 2].contains (byte s.app 1) &&
  [1, 2].contains (byte s.app 0)

def dtls : Bool :=
  13 ≤ s.appLen && !(be16 s.app 11 == 0 || 0x4000 < be16 s.app 11) && be16 s.app 1 == 0xFEFF

def tls : Bool :=
  5 ≤ s.appLen && !(be16 s.app 3 == 0 || 0x4000 < be16 s.app 3) &&
  [20, 21, 22, 23].contains (byte s.app 0) &&
  [0x0300, 0x0301, 0x0302, 0x0303].contains (be16 s.app 1)

def ike : Bool :=
  28 ≤ s.appLen && !(be32 s.app 0 == 0 && be32 s.app 4 == 0) &&
  (if byte s.app 17 >>> 4 = 1 then
    1 ≤ byte s.app 16 && byte s.app 16 ≤ 13 && 1 ≤ byte s.app 18 && byte s.app 18 ≤ 5
  else if byte s.app 17 >>> 4 = 2 then
    33 ≤ byte s.app 16 && byte s.app 16 ≤ 49 && 34 ≤ byte s.app 18 && byte s.app 18 ≤ 38
  else false) &&
  be32 s.app 24 == s.appLen

def bgp : Bool :=
  19 ≤ s.appLen && bytes s.app 0 16 == List.replicate 16 0xFF && 19 ≤ be16 s.app 16 &&
  [1, 2, 3, 4, 5].contains (byte s.app 18)

def http : Bool := keyed s
  ["HTTP", "GET ", "HEAD", "POST", "PUT ", "DELE", "TRAC", "CONN", "OPTI", "PROP", "MKCO", "COPY",
   "MOVE", "LOCK", "UNLO", "SOUR"]

def rtsp : Bool := keyed s
  ["RTSP", "DESC", "ANNO", "GET_", "OPTI", "PAUS", "PLAY", "RECO", "REDI", "SETU", "SET_", "TEAR"]

def netflowV1 : Bool :=
  64 ≤ s.appLen && !(be16 s.app 2 == 0 || 24 < be16 s.app 2) && be16 s.app 52 == 0 &&
  bytes s.app 57 3 == [0, 0, 0] && !(be32 s.app 16 == 0 || be32 s.app 20 == 0) &&
  s.appLen == 16 + be16 s.app 2 * 48

def netflowV5 : Bool :=
  72 ≤ s.appLen && !(be16 s.app 2 == 0 || 30 < be16 s.app 2) &&
  !(byte s.app 60 != 0 || be16 s.app 70 != 0) && !(be32 s.app 24 == 0 || be32 s.app 28 == 0) &&
  s.appLen == 24 + be16 s.app 2 * 48

def netflow : Bool :=
  2 ≤ s.appLen &&
  if be16 s.app 0 = 1 then netflowV1 s else if be16 s.app 0 = 5 then netflowV5 s else false

def radius : Bool :=
  20 ≤ s.appLen && !(be16 s.app 2 < 20 || 4096 < be16 s.app 2) && s.appLen == be16 s.app 2 &&
  [1, 2, 3, 4, 5, 11, 12, 13].contains (byte s.app 0)

def bittorrent : Bool := keyed s ["\x13Bit"]

def gnutella : Bool := keyed s ["GNUT", "GIV "]

def netbiosNameService : Bool :=
  12 + padding s ≤ s.appLen &&
  be16 s.app (padding s + 2) &&& 0x0060 == 0 &&
  [0, 1, 2, 3, 4, 5, 6, 7].contains (be16 s.app (padding s + 2) &&& 0x000F) &&
  [0x0000, 0x2800, 0x3000, 0x3800, 0x4000].contains (be16 s.app (padding s + 2) &&& 0x7800)

/-- The first letters of the modes "octet", "netascii" and "mail". -/
def isModeLetter (x : Nat) : Bool := [79, 111, 78, 110, 77, 109].contains x

def tftp : Bool :=
  4 ≤ s.appLen &&
  if be16 s.app 0 = 1 ∨ be16 s.app 0 = 2 then
    strlen s 2 != 0 && strlen s (2 + strlen s 2 + 1) != 0 &&
    isModeLetter (byte s.app (2 + strlen s 2 + 1))
  else if be16 s.app 0 = 3 then be16 s.app 2 != 0 && s.appLen ≤ 4 + 512
  else if be16 s.app 0 = 4 then s.appLen ≤ 4
  else if be16 s.app 0 = 5 then [0, 1, 2, 3, 4, 5, 6, 7].contains (be16 s.app 2)
  else false

def netbiosSessionService : Bool :=
  s.netType.toNat == ipprotoTcp && 4 ≤ s.appLen && byte s.app 1 &&& 0xFE == 0 &&
  [0x00, 0x81, 0x82, 0x83, 0x84, 0x85].contains (byte s.app 0)

def netbiosDatagramService : Bool :=
  s.netType.toNat == ipprotoUdp && 14 ≤ s.appLen && byte s.app 1 &&& 0xF0 == 0 &&
  !(be32 s.app 4 == 0 || be16 s.app 8 == 0) &&
  [0x10, 0x11, 0x12, 0x13, 0x14, 0x15, 0x16].contains (byte s.app 0)

def netbios : Bool :=
  netbiosDatagramService s || netbiosSessionService s || netbiosNameService s

def pptpRaw : Bool :=
  8 ≤ s.appLen && be32 s.app 4 == 0x1A2B3C4D && 8 ≤ be16 s.app 0 && [1, 2].contains (be16 s.app 2)

def l2tp : Bool :=
  12 ≤ s.appLen && [2, 3].contains (byte s.app 1) && byte s.app 0 &&& 0x80 != 0 &&
  byte s.app 0 &&& 0x78 != 0 && byte s.app 0 &&& 0x37 == 0 && s.appLen == be16 s.app 2

def ntp : Bool :=
  48 ≤ s.appLen &&
  if byte s.app 0 &&& 0x38 = 8 then s.appLen == 48 && byte s.app 0 &&& 0x05 == 0
  else if byte s.app 0 &&& 0x38 = 16 ∨ byte s.app 0 &&& 0x38 = 24 then
    [48, 60].contains s.appLen && byte s.app 0 &&& 0x05 != 0
  else if byte s.app 0 &&& 0x38 = 32 then
    [48, 68].contains s.appLen && byte s.app 0 &&& 0x05 != 0
  else false

/-- The one detector that looks at the transport header. -/
def pptpGre : Bool :=
  8 ≤ s.flowLen && be16 s.flow 2 == 0x880B && byte s.flow 0 &&& 0xCF == 0 &&
  byte s.flow 0 &&& 0x20 != 0 && byte s.flow 1 &&& 0x07 == 1 && byte s.flow 1 &&& 0x78 == 0

def pptp : Bool := if s.netType.toNat = ipprotoGre then pptpGre s else pptpRaw s

/-- The guards of `peak_li_ldap` on the fixed part of the message. -/
def ldapHead : Bool :=
  8 ≤ s.appLen && byte s.app 0 == 0x30 &&
  (byte s.app 1 &&& 0x80 != 0 && byte s.app 1 &&& 0x7F == 4) &&
  (byte s.app 6 == 0x02 && byte s.app 7 != 0)

/-- The operation type behind the message number must be a known one. -/
def ldapOp (op : Nat) : Bool :=
  op &&& 0xE0 == 0x60 &&
  [0, 1, 2, 3, 4, 5, 6, 7, 8, 9, 10, 11, 12, 13, 14, 15, 16, 19, 23, 24].contains (op &&& 0x1F)

/-- The length guard admits a message that ends right before its operation
type. -/
def ldap : Bool :=
  ldapHead s && 8 + byte s.app 7 ≤ s.appLen && ldapOp (byte s.app (8 + byte s.app 7))

/-- The guards of `peak_li_snmp` on the fixed part of the message. -/
def snmpHead : Bool :=
  7 ≤ s.appLen && byte s.app 0 == 0x30 && byte s.app 2 == 0x02 && byte s.app 3 == 0x01 &&
  [0, 1, 3].contains (byte s.app 4) && byte s.app 5 == 0x04

def snmpPdu (value : Nat) : Bool := [0, 1, 2, 3, 4, 5, 6, 7, 8].contains value

/-- The length guard leaves room for two bytes behind the community string;
the third one is looked at. -/
def snmp : Bool :=
  snmpHead s && 7 + byte s.app 6 + 2 ≤ s.appLen && snmpPdu (byte s.app (7 + byte s.app 6 + 2))

def impp : Bool :=
  4 ≤ s.appLen && byte s.app 0 == 0x6F && [1, 2].contains (byte s.app 1) &&
  [6, 7, 8, 10].contains (be16 s.app 2)

def xmpp : Bool := keyed s ["<?xm", "<str", "<pre"]

def openvpn : Bool :=
  9 + padding s ≤ s.appLen && !(padding s != 0 && be16 s.app 0 + 2 < s.appLen) &&
  [32, 40, 56, 64].contains (byte s.app (padding s))

def irc : Bool :=
  !([110, 21].any (excludePort s)) &&
  keyed s ["NICK", "PASS", "USER", ":irc", ":loc", "WHO ", "WHOI", "PING", "CAP ", "JOIN", "PRIV"]

def syslog : Bool :=
  3 ≤ s.appLen && byte s.app 0 == 60 && isdigit (byte s.app 1) &&
  (isdigit (byte s.app 2) || byte s.app 2 == 62)

def iptype (_ : Seen) : Bool := true

end Peak.Li
