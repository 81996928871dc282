import Mathlib.Data.BitVec
import Mathlib.Logic.Function.Basic
import Peak.Base.Turns

/-! `lib/peak_netmap.c`: packets that are received, sent, forwarded and dropped in
place. Rings and packet buffers are in memory that is shared with the kernel, and
a packet is sent by an exchange of two buffers. -/
namespace Peak.Netmap

open Turns

/-- `ifname`, a text without its end. -/
abbrev Name := List UInt8

/-- The `NR_REG` types of `net/netmap.h` that are used. -/
inductive RegType where
  | allNic
  | pipeMaster
  | pipeSlave
deriving DecidableEq

/-- `NETMAP_DFLT`, `NETMAP_WIRE`, `NETMAP_HOST` and `NETMAP_PIPE`. -/
inductive Mode where
  | dflt
  | wire
  | host
  | pipe
deriving DecidableEq

/-- `NS_BUF_CHANGED`. -/
def nsBufChanged : BitVec 16 := 1

/-- `NS_FORWARD`. -/
def nsForward : BitVec 16 := 4

/-- `struct netmap_slot`. -/
structure Slot where
  bufIdx : Nat
  len : Nat
  flags : BitVec 16
deriving DecidableEq

/-- `struct peak_timeval`. -/
structure Timeval where
  sec : Int
  usec : Int
deriving DecidableEq

/-- `struct netmap_ring`, and how far the kernel got with the slots that it was
given back, which it keeps for itself. -/
structure Ring where
  slot : Nat → Slot
  numSlots : Nat
  head : Nat
  cur : Nat
  tail : Nat
  ts : Timeval
  hwcur : Nat

inductive Side where
  | rx
  | tx
deriving DecidableEq

/-- What `NETMAP_RXRING` and `NETMAP_TXRING` lead to. -/
structure RingId where
  nifp : Nat
  side : Side
  index : Nat
deriving DecidableEq

/-- The memory that is shared with the kernel. -/
structure Shared where
  ring : RingId → Ring
  buf : Nat → List UInt8

/-- `struct peak_netmap_dev` as far as it is used once it is set up, with `end` as
`stop`. -/
structure Dev where
  ifname : Name
  nifp : Nat
  type : RegType
  begin : Nat
  stop : Nat

/-- What `peak_netmap_find` looks for: a name, where one type is ignored. -/
def Dev.named (ifname : Name) (ignore : RegType) (dev : Dev) : Bool :=
  !(ignore != .allNic && ignore == dev.type) && ifname == dev.ifname

/-- `NETMAP_RXRING` of a device. -/
def Dev.rxRing (dev : Dev) (i : Nat) : RingId := ⟨dev.nifp, .rx, i⟩

/-- `NETMAP_TXRING` of a device. -/
def Dev.txRing (dev : Dev) (i : Nat) : RingId := ⟨dev.nifp, .tx, i⟩

/-- `struct peak_netmap`. It is in use when it has a value. -/
structure Claim where
  ring : RingId
  i : Nat
deriving DecidableEq

/-- `struct peak_transfer` after `memset`, or with a packet. The buffer is named by
its number. -/
structure Transfer where
  ts : Timeval := ⟨0, 0⟩
  ifname : Option Name := none
  privateData : Bool := false
  type : Mode := .dflt
  len : Nat := 0
  ll : Nat := 0
  id : Nat := 0
  buf : Option Nat := none
deriving DecidableEq

/-- `struct peak_netmaps` with the devices that it counts, and the variables of the
thread. -/
structure Netmaps where
  shared : Shared
  dev : List Dev
  last : Nat
  priv : Option Claim
  ts : Timeval

/-- `nm_ring_empty`. -/
def Ring.empty (ring : Ring) : Bool := ring.cur == ring.tail

/-- The slot at `cur` is given back to the kernel. -/
def Ring.release (ring : Ring) : Ring :=
  { ring with head := next ring.numSlots ring.cur, cur := next ring.numSlots ring.cur }

def Ring.modifySlot (ring : Ring) (i : Nat) (f : Slot → Slot) : Ring :=
  { ring with slot := Function.update ring.slot i (f (ring.slot i)) }

def Shared.modify (m : Shared) (r : RingId) (f : Ring → Ring) : Shared :=
  { m with ring := Function.update m.ring r (f (m.ring r)) }

/-- The packet in a slot. -/
def Shared.content (m : Shared) (slot : Slot) : List UInt8 := (m.buf slot.bufIdx).take slot.len

/-- `LINKTYPE_ETHERNET`. -/
def linktypeEthernet : Nat := 1

/-- The timestamp for a packet: a step back of less than three seconds is ignored. -/
def advance (ts ring : Timeval) : Timeval :=
  if ring.sec > ts.sec ∨ ts.sec - ring.sec ≥ 3 then ring else ts

namespace Netmaps

variable (self : Netmaps)

/-- `peak_netmap_find` with the type that is ignored. -/
def find (ifname : Option Name) (ignore : RegType) : Nat :=
  match ifname with
  | none => self.dev.length
  | some ifname => self.dev.findIdx (Dev.named ifname ignore)

/-- `___peak_netmap_recv`. -/
def recvRing (dev : Dev) (rx : Nat) : Except String (Option (Transfer × Netmaps)) :=
  let r := dev.rxRing rx
  let ring := self.shared.ring r
  if ring.empty then .ok none
  else
    let slot := ring.slot ring.cur
    if slot.bufIdx < 2 then .error "bogus RX index"
    else
      let ts := advance self.ts ring.ts
      let packet : Transfer :=
        { ts := ts
          ifname := some dev.ifname
          privateData := true
          type := if dev.type = .pipeSlave then .pipe else if rx ≠ dev.stop then .wire else .host
          len := slot.len
          ll := linktypeEthernet
          id := slot.bufIdx
          buf := some slot.bufIdx }
      .ok (some (packet, { self with priv := some ⟨r, ring.cur⟩, ts := ts }))

/-- A loop over rings up to one with a packet. -/
def recvFirst (dev : Dev) : List Nat → Except String (Option (Transfer × Netmaps))
  | [] => .ok none
  | rx :: rest =>
      match self.recvRing dev rx with
      | .ok none => recvFirst dev rest
      | found => found

/-- What `NR_FOREACH_WIRE` goes through. -/
def wire (dev : Dev) : List Nat := List.range' dev.begin (dev.stop - dev.begin)

/-- What `NR_FOREACH_HOST` goes through. -/
def host (dev : Dev) : List Nat := [dev.stop]

/-- The rings that `__peak_netmap_recv` looks at. -/
def recvRings (dev : Dev) (mode : Mode) : List Nat :=
  match mode with
  | .dflt => if dev.type ≠ .pipeSlave then host dev ++ wire dev else wire dev
  | .host => if dev.type ≠ .pipeSlave then host dev else wire dev
  | _ => wire dev

/-- `__peak_netmap_recv`. -/
def recvDev (dev : Dev) (mode : Mode) : Except String (Option (Transfer × Netmaps)) :=
  if dev.type = .pipeMaster then .ok none else self.recvFirst dev (recvRings dev mode)

/-- The loop of `_peak_netmap_recv` with its index. -/
def recvTurn (mode : Mode) : Nat → Nat → Except String (Option (Transfer × Netmaps))
  | 0, _ => .ok none
  | n + 1, j =>
      let j := (j + 1) % self.dev.length
      match self.dev[j]? with
      | none => .ok none
      | some dev =>
          match self.recvDev dev mode with
          | .ok none => recvTurn mode n j
          | .ok (some (packet, self)) => .ok (some (packet, { self with last := j }))
          | .error message => .error message

/-- `_peak_netmap_recv`. -/
def recvAny (mode : Mode) : Except String (Option (Transfer × Netmaps)) :=
  self.recvTurn mode self.dev.length self.last

/-- `peak_netmap_recv` up to `poll`. There is a packet, or an answer without one, or
the call goes on to wait. -/
inductive Start where
  | packet (packet : Transfer) (self : Netmaps)
  | null
  | poll

def recv (ifname : Option Name) (mode : Mode) : Except String Start :=
  if self.priv.isSome then .ok .null
  else
    match ifname with
    | some _ =>
        match self.dev[self.find ifname .pipeMaster]? with
        | none => .ok .null
        | some dev =>
            (self.recvDev dev mode).map fun
              | some (packet, self) => .packet packet self
              | none => .poll
    | none =>
        (self.recvAny mode).map fun
          | some (packet, self) => .packet packet self
          | none => .poll

/-- A device is read if its descriptor is readable. -/
def recvReadable (mode : Mode) (readable : Nat → Bool) (i : Nat) : Except String (Option Transfer × Netmaps) :=
  match self.dev[i]? with
  | none => .ok (none, self)
  | some dev =>
      if readable i then
        (self.recvDev dev mode).map fun
          | some (packet, self) => (some packet, self)
          | none => (none, self)
      else .ok (none, self)

/-- `peak_netmap_recv` after `poll`, which failed, timed out or tells which
descriptors are readable. -/
def polled (ifname : Option Name) (mode : Mode) (revents : Option (Nat → Bool)) :
    Except String (Option Transfer × Netmaps) :=
  match revents, ifname with
  | none, _ => .ok (none, self)
  | some readable, some _ => self.recvReadable mode readable (self.find ifname .pipeMaster)
  | some readable, none =>
      let i := (List.range self.dev.length).findIdx readable
      if i < self.dev.length then { self with last := i }.recvReadable mode readable i else .ok (none, self)

/-- The slot of a claim goes back to the kernel, and the claim ends. -/
def settle (claim : Claim) (f : Slot → Slot) : Netmaps :=
  { self with
    shared := self.shared.modify claim.ring fun ring => (ring.modifySlot claim.i f).release
    priv := none }

/-- `peak_netmap_forward`. Without a packet it follows a missing pointer. -/
def forward (packet : Transfer) : Option (Transfer × Netmaps) :=
  if packet.privateData then
    self.priv.map fun claim =>
      ({}, self.settle claim fun slot => { slot with flags := slot.flags ||| nsForward })
  else none

/-- `peak_netmap_drop`. -/
def drop (claim : Claim) : Transfer × Netmaps :=
  ({}, self.settle claim fun slot => { slot with flags := slot.flags &&& ~~~nsForward })

/-- `_peak_netmap_send`, to a ring. -/
def sendRing (claim : Claim) (r : RingId) : Option (Transfer × Netmaps) :=
  let ring := self.shared.ring r
  if ring.empty then none
  else
    let rs := (self.shared.ring claim.ring).slot claim.i
    let ts := ring.slot ring.cur
    let shared := self.shared.modify r fun ring => (ring.modifySlot ring.cur fun ts =>
      { bufIdx := rs.bufIdx, len := rs.len, flags := ts.flags ||| nsBufChanged }).release
    some ({}, { self with shared := shared }.settle claim fun rs =>
      { rs with bufIdx := ts.bufIdx, flags := (rs.flags ||| nsBufChanged) &&& ~~~nsForward })

/-- A loop over rings up to one with room. -/
def sendFirst (claim : Claim) (dev : Dev) : List Nat → Option (Transfer × Netmaps)
  | [] => none
  | tx :: rest =>
      match self.sendRing claim (dev.txRing tx) with
      | none => sendFirst claim dev rest
      | sent => sent

/-- The rings that `peak_netmap_send` looks at. -/
def sendRings (dev : Dev) (mode : Mode) : List Nat :=
  match mode with
  | .host => host dev
  | _ => wire dev

/-- `peak_netmap_send`: whether it failed, and what it left. -/
def send (packet : Transfer) (ifname : Option Name) (mode : Mode) : Bool × Transfer × Netmaps :=
  match packet.privateData, self.priv with
  | true, some claim =>
      match ifname with
      | none => (false, self.drop claim)
      | some _ =>
          match self.dev[self.find ifname .pipeSlave]? with
          | none => (true, packet, self)
          | some dev =>
              match self.sendFirst claim dev (sendRings dev mode) with
              | some sent => (false, sent)
              | none => (true, packet, self)
  | _, _ => (true, packet, self)

end Netmaps

end Peak.Netmap
