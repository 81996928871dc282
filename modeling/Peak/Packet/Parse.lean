import Peak.Base.Image

/-! The packet dissector of `lib/peak_packet.c`. Pointers are offsets from
`buf`, and `none` is the null pointer left by `memset`. The image holds every
byte the process finds behind `buf`: `len` is stored, never consulted. Header
lengths are kept modulo the width of the field that stores them. -/
namespace Peak

open ByteImage

/-- `struct peak_packet` without its padding. A `struct netaddr` is the list
of its sixteen bytes. -/
structure Packet where
  mac : Option Nat := none
  net : Option Nat := none
  flow : Option Nat := none
  app : Option Nat := none
  linkType : Nat := 0
  macLen : Nat := 0
  macType : Nat := 0
  macVlan : Nat := 0
  netSaddr : List UInt8 := List.replicate 16 0
  netDaddr : List UInt8 := List.replicate 16 0
  netFamily : Nat := 0
  netLen : Nat := 0
  netHlen : Nat := 0
  netType : Nat := 0
  flowHlen : Nat := 0
  flowLen : Nat := 0
  flowSport : Nat := 0
  flowDport : Nat := 0
  appLen : Nat := 0
deriving DecidableEq, Repr

namespace Packet

def linktypeNull : Nat := 0
def linktypeEthernet : Nat := 1
def linktypeLinuxSll : Nat := 113

def ethertypeIp : Nat := 0x0800
def ethertypeVlan : Nat := 0x8100
def ethertypeIpv6 : Nat := 0x86DD

def ipprotoHopopts : Nat := 0
def ipprotoIcmp : Nat := 1
def ipprotoTcp : Nat := 6
def ipprotoUdp : Nat := 17
def ipprotoRouting : Nat := 43
def ipprotoFragment : Nat := 44
def ipprotoEsp : Nat := 50
def ipprotoAh : Nat := 51
def ipprotoNone : Nat := 59
def ipprotoDstopts : Nat := 60

/-- The Linux values of the address families. -/
def afInet : Nat := 2
def afInet6 : Nat := 10

def icmpMinlen : Nat := 8
def ipversion : Nat := 4

def thFin : Nat := 0x01
def thSyn : Nat := 0x02
def thRst : Nat := 0x04
def thPush : Nat := 0x08
def thAck : Nat := 0x10
def thUrg : Nat := 0x20

/-- `netaddr4`: the IPv4-mapped prefix followed by the four address bytes in
memory order. -/
def netaddr4 (m : Image) (i : Nat) : List UInt8 :=
  List.replicate 10 0 ++ [0xff, 0xff] ++ bytes m i 4

/-- `netaddr6`: a plain copy of sixteen bytes. -/
def netaddr6 (m : Image) (i : Nat) : List UInt8 := bytes m i 16

/-- Difference of two 16-bit fields, stored in a 16-bit field. -/
def sub16 (a b : Nat) : Nat := (a + 65536 - b) % 65536

/-- The extension headers whose length byte `peak_packet_ipv6` trusts. -/
def isVariable (nextType : Nat) : Bool :=
  nextType == ipprotoHopopts || nextType == ipprotoRouting || nextType == ipprotoDstopts ||
    nextType == ipprotoEsp || nextType == ipprotoAh

/-- The loop variables of `peak_packet_ipv6`: `next_hdr` as an offset from
`buf`, `next_type`, and the 8-bit `net_hlen` accumulated so far. -/
structure Walk where
  nextHdr : Nat
  nextType : Nat
  netHlen : Nat
deriving DecidableEq, Repr

/-- What one pass through the loop body does. `outside` is a read that the
reader does not serve. -/
inductive WalkStep where
  | next (w : Walk)
  | ret (code : Nat)
  | outside
deriving DecidableEq, Repr

/-- One pass through the `for (;;)` of `peak_packet_ipv6`. Bytes come from a
reader, so that the same loop runs on a buffer that ends and on one that is
followed by arbitrary memory. `next_hdr` counts in units of the two byte
`struct ip6_ext`. -/
def walkStep (read : Nat → Option UInt8) (w : Walk) : WalkStep :=
  if isVariable w.nextType then
    match read (w.nextHdr + 1), read w.nextHdr with
    | some extLen, some extNxt =>
        if extLen.toNat % 8 ≠ 0 then .ret 1
        else .next
          { nextHdr := w.nextHdr + 2 * (extLen.toNat >>> 1)
            nextType := extNxt.toNat
            netHlen := (w.netHlen + extLen.toNat) % 256 }
    | _, _ => .outside
  else if w.nextType = ipprotoFragment then
    match read w.nextHdr with
    | some extNxt => .next
        { nextHdr := w.nextHdr + 2 * (8 >>> 1)
          nextType := extNxt.toNat
          netHlen := (w.netHlen + 8) % 256 }
    | none => .outside
  else .ret 0

/-- How the loop ended, with the loop variables at that moment. -/
inductive WalkEnd where
  | returned (code : Nat) (w : Walk)
  | outside
deriving DecidableEq, Repr

/-- At most `fuel` passes of the loop; `none` means that it is still running. -/
def walk (read : Nat → Option UInt8) : Nat → Walk → Option WalkEnd
  | 0, _ => none
  | fuel + 1, w =>
      match walkStep read w with
      | .next w' => walk read fuel w'
      | .ret code => some (.returned code w)
      | .outside => some .outside

/-- The reader of a total image. -/
def total (m : Image) : Nat → Option UInt8 := fun i => some (m i)

/-- The loop variables on entry: the fixed header is forty bytes long and
names the first extension in its seventh byte. -/
def walkStart (m : Image) (net : Nat) : Walk :=
  { nextHdr := net + 40, nextType := byte m (net + 6), netHlen := 40 }

/-- `peak_packet_ipv6` after the address copy. `none`: not returned yet. -/
def ipv6 (fuel : Nat) (m : Image) (net : Nat) (self : Packet) : Option (Nat × Packet) :=
  match walk (total m) fuel (walkStart m net) with
  | some (.returned 0 w) => some (0,
      { self with netLen := (40 + be16 m (net + 4)) % 65536, netHlen := w.netHlen,
                  netType := w.nextType })
  | some (.returned code w) => some (code,
      { self with netLen := (40 + be16 m (net + 4)) % 65536, netHlen := w.netHlen })
  | _ => none

/-- `peak_packet_udp` on the header at `flow`. -/
def udp (m : Image) (flow : Nat) (self : Packet) : Nat × Packet :=
  if 8 > self.flowLen then (1, self)
  else if be16 m flow = 0 ∨ be16 m (flow + 2) = 0 then (1, self)
  else if be16 m (flow + 4) = 0 ∨ 8 > be16 m (flow + 4) then (1, self)
  else (0,
    { self with
      appLen := sub16 self.flowLen 8
      app := some (flow + 8)
      flowSport := be16 m flow
      flowDport := be16 m (flow + 2)
      flowHlen := 8 })

/-- The flag combinations `peak_packet_tcp` lets through. -/
def tcpFlagsOk (flags : Nat) : Bool :=
  (if flags &&& thSyn ≠ 0 then flags &&& thRst = 0
    else flags &&& (thAck ||| thRst) ≠ 0) &&
  (flags &&& thAck ≠ 0 || flags &&& (thFin ||| thPush ||| thUrg) = 0)

/-- The TCP header length in bytes. -/
def tcpHlen (m : Image) (flow : Nat) : Nat := byte m (flow + 12) / 16 * 4

/-- `peak_packet_tcp` on the header at `flow`. -/
def tcp (m : Image) (flow : Nat) (self : Packet) : Nat × Packet :=
  if tcpHlen m flow < 20 ∨ tcpHlen m flow > 60 then (1, self)
  else if tcpHlen m flow > self.flowLen then (1, self)
  else if be16 m flow = 0 ∨ be16 m (flow + 2) = 0 then (1, self)
  else if ¬ tcpFlagsOk (byte m (flow + 13)) then (1, self)
  else (0,
    { self with
      app := some (flow + tcpHlen m flow)
      appLen := sub16 self.flowLen (tcpHlen m flow)
      flowSport := be16 m flow
      flowDport := be16 m (flow + 2)
      flowHlen := tcpHlen m flow })

/-- The ICMP branch of `peak_packet_parse`. -/
def icmp (flow : Nat) (self : Packet) : Nat × Packet :=
  if self.flowLen < icmpMinlen then (1, self)
  else (0,
    { self with
      appLen := sub16 self.flowLen icmpMinlen
      app := some (flow + icmpMinlen)
      flowHlen := icmpMinlen })

/-- The last switch of `peak_packet_parse`, by transport protocol. -/
def transport (m : Image) (flow : Nat) (self : Packet) : Nat × Packet :=
  if self.netType = ipprotoTcp then tcp m flow self
  else if self.netType = ipprotoUdp then udp m flow self
  else if self.netType = ipprotoIcmp then icmp flow self
  else (0, self)

/-- "Calculate next header start and length", then the last switch. The
start uses the stored 8-bit header length. -/
def flowLayer (m : Image) (net : Nat) (self : Packet) : Nat × Packet :=
  transport m (net + self.netHlen)
    { self with
      flow := some (net + self.netHlen)
      flowLen := sub16 self.netLen self.netHlen }

/-- What the link header says: the protocol, the VLAN tag and where the
network header starts. `none` for an unknown link type. -/
def linkHeader (m : Image) (type : Nat) : Option (Nat × Nat × Nat) :=
  if type = linktypeNull then some (ethertypeIp, 0, 0)
  else if type = linktypeEthernet then
    if be16 m 12 = ethertypeVlan then some (be16 m 16, be16 m 14 &&& 0x0FFF, 18)
    else some (be16 m 12, 0, 14)
  else if type = linktypeLinuxSll then some (be16 m 14, 0, 16)
  else none

def ipHlen (m : Image) (net : Nat) : Nat := byte m net % 16 * 4

/-- The IPv4 case of the network switch and everything behind it. -/
def ipv4 (m : Image) (net : Nat) (self : Packet) : Nat × Packet :=
  if byte m net / 16 ≠ ipversion then (1, self)
  else if ipHlen m net < 20 then (1, self)
  else if be16 m (net + 2) < ipHlen m net then (1, self)
  else flowLayer m net
    { self with
      netSaddr := netaddr4 m (net + 12)
      netDaddr := netaddr4 m (net + 16)
      netFamily := afInet
      netType := byte m (net + 9)
      netHlen := ipHlen m net
      netLen := be16 m (net + 2) }

/-- The fields set before the network switch. -/
def linkPacket (len type macType macVlan net : Nat) : Packet :=
  { mac := some 0, net := some net, linkType := type, macLen := len,
    macType := macType, macVlan := macVlan }

/-- The packet as `peak_packet_ipv6` receives it. -/
def ipv6Packet (m : Image) (net : Nat) (self : Packet) : Packet :=
  { self with
    netSaddr := netaddr6 m (net + 8)
    netDaddr := netaddr6 m (net + 24)
    netFamily := afInet6 }

/-- The network switch. -/
def network (fuel : Nat) (m : Image) (net : Nat) (self : Packet) : Option (Nat × Packet) :=
  if self.macType = ethertypeIp then some (ipv4 m net self)
  else if self.macType = ethertypeIpv6 then
    match ipv6 fuel m net (ipv6Packet m net self) with
    | some (0, p) => some (flowLayer m net p)
    | r => r
  else some (0, self)

theorem network_ip (fuel : Nat) (m : Image) (net : Nat) {self : Packet}
    (h : self.macType = ethertypeIp) : network fuel m net self = some (ipv4 m net self) := by
  simp [network, h]

theorem network_ipv6 (fuel : Nat) (m : Image) (net : Nat) {self : Packet}
    (h : self.macType = ethertypeIpv6) :
    network fuel m net self =
      match ipv6 fuel m net (ipv6Packet m net self) with
      | some (0, p) => some (flowLayer m net p)
      | r => r := by
  have hNe : ethertypeIpv6 ≠ ethertypeIp := by decide
  simp only [network, h, if_neg hNe, if_true]

theorem network_other (fuel : Nat) (m : Image) (net : Nat) {self : Packet}
    (hIp : self.macType ≠ ethertypeIp) (hIpv6 : self.macType ≠ ethertypeIpv6) :
    network fuel m net self = some (0, self) := by
  simp [network, hIp, hIpv6]

/-- `peak_packet_parse`: the return value and the filled structure, or `none`
while the extension header loop has not returned within `fuel` passes. -/
def parse (fuel : Nat) (m : Image) (len type : Nat) : Option (Nat × Packet) :=
  match linkHeader m type with
  | none => some (1, { mac := some 0, linkType := type, macLen := len })
  | some (macType, macVlan, net) =>
      network fuel m net (linkPacket len type macType macVlan net)

end Packet

end Peak
