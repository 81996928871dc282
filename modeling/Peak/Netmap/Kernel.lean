import Peak.Base.Run
import Peak.Netmap.Slots

/-! A program that uses `lib/peak_netmap.c` and the kernel on the other side of the
rings, one step at a time in any order. Beside what the code does every step keeps a
record of what it was asked for: the packets that came in, and for each call that is
about a packet its bytes at that moment and what is to become of it. -/
namespace Peak.Netmap

open Turns

/-- What the program did with a packet. -/
inductive Fate where
  | sent (ring : RingId)
  | dropped
  | forwarded
deriving DecidableEq

/-- A packet from where it was received until the program was done with it, and the
rings that had no room for it when it was last to be sent. -/
structure Entry where
  source : RingId
  received : List UInt8
  released : List UInt8
  full : List RingId
  fate : Fate
deriving DecidableEq

/-- What the kernel put into rings, moved over to the host and sent, by ring. -/
structure Traffic where
  arrived : RingId → List (List UInt8)
  forwarded : RingId → List (List UInt8)
  transmitted : RingId → List (List UInt8)

/-- The state of the program and of the kernel, with the record. While it waits in
`poll`, the program keeps the arguments of its call. -/
structure World where
  self : Netmaps
  packet : Transfer
  received : List UInt8
  waiting : Option (Option Name × Mode)
  traffic : Traffic
  full : List RingId
  log : List Entry

/-- A step of the kernel, or a call of the program. -/
inductive Action where
  | arrive (r : RingId) (packet : List UInt8) (flags : BitVec 16) (ts : Timeval)
  | reclaim (r : RingId)
  | grant (r : RingId) (ts : Timeval)
  | transmit (r : RingId)
  | recv (ifname : Option Name) (mode : Mode)
  | polled (revents : Option (Nat → Bool))
  | write (content : List UInt8)
  | send (ifname : Option Name) (mode : Mode)
  | forward

/-- The bytes that a packet leads to. -/
def Netmaps.bytes (self : Netmaps) (packet : Transfer) : List UInt8 :=
  self.shared.content ⟨packet.buf.getD 0, packet.len, 0⟩

/-- The transmit rings behind a name. A name never leads to the slave end of a pipe. -/
def Netmaps.ringsOf (self : Netmaps) (ifname : Name) (mode : Mode) : List RingId :=
  match self.dev.find? fun dev => dev.ifname = ifname ∧ dev.type ≠ .pipeSlave with
  | none => []
  | some dev => (Netmaps.sendRings dev mode).map dev.txRing

/-- The slot is to be moved over to the host. -/
def Slot.forwards (slot : Slot) : Bool := slot.flags &&& nsForward ≠ 0

/-- A store to the start of a buffer. -/
def Shared.write (m : Shared) (b : Nat) (content : List UInt8) : Shared :=
  { m with buf := Function.update m.buf b (content ++ (m.buf b).drop content.length) }

/-- The kernel puts a packet into the buffer of the next slot, and hands it over. -/
def Shared.arrive (m : Shared) (r : RingId) (packet : List UInt8) (flags : BitVec 16) (ts : Timeval) : Shared :=
  (m.write ((m.ring r).slot (m.ring r).tail).bufIdx packet).modify r fun ring =>
    ring.provide (fun slot => { slot with len := packet.length, flags := flags }) ts

/-- The kernel hands over a slot as it is. -/
def Shared.grant (m : Shared) (r : RingId) (ts : Timeval) : Shared := m.modify r fun ring => ring.provide id ts

/-- There is such a ring. -/
def Shared.Known (m : Shared) (r : RingId) : Prop := 0 < (m.ring r).numSlots

def Traffic.arrive (s : Traffic) (r : RingId) (packet : List UInt8) : Traffic :=
  { s with arrived := Function.update s.arrived r (s.arrived r ++ [packet]) }

def Traffic.forward (s : Traffic) (r : RingId) (packet : List UInt8) : Traffic :=
  { s with forwarded := Function.update s.forwarded r (s.forwarded r ++ [packet]) }

def Traffic.transmit (s : Traffic) (r : RingId) (packet : List UInt8) : Traffic :=
  { s with transmitted := Function.update s.transmitted r (s.transmitted r ++ [packet]) }

namespace World

variable (s : World)

def setShared (m : Shared) : World := { s with self := { s.self with shared := m } }

/-- The program has a packet. -/
def claim (packet : Transfer) (self : Netmaps) : World :=
  { s with
    self := self
    packet := packet
    received := self.bytes packet
    waiting := none
    full := [] }

/-- What is to become of a packet that is sent: without a name it is dropped, else it
goes to the first ring behind the name that has room. -/
def fate (ifname : Option Name) (mode : Mode) : Option Fate :=
  match ifname with
  | none => some .dropped
  | some ifname =>
      ((s.self.ringsOf ifname mode).find? fun r => !(s.self.shared.ring r).empty).map .sent

/-- What goes on record when the packet of the program has this fate. -/
def given (fate : Option Fate) : List Entry :=
  match s.self.priv, fate with
  | some claim, some fate => [⟨claim.ring, s.received, s.self.bytes s.packet, s.full, fate⟩]
  | _, _ => []

/-- The rings behind a name that have no room. -/
def fullRings (ifname : Option Name) (mode : Mode) : List RingId :=
  match ifname with
  | none => s.full
  | some ifname => (s.self.ringsOf ifname mode).filter fun r => (s.self.shared.ring r).empty

/-- The program sends its packet, or drops it. The record does not depend on what the
call does: it is made of the state before it. -/
def send (ifname : Option Name) (mode : Mode) : Bool × World :=
  let (failed, packet, self) := s.self.send s.packet ifname mode
  (failed, { s with
    self := self
    packet := packet
    full := s.fullRings ifname mode
    log := s.log ++ s.given (s.fate ifname mode) })

/-- The kernel puts a packet into a ring. -/
def arrive (r : RingId) (packet : List UInt8) (flags : BitVec 16) (ts : Timeval) : World :=
  { s.setShared (s.self.shared.arrive r packet flags ts) with traffic := s.traffic.arrive r packet }

/-- The kernel takes back a slot of a receive ring, and moves the packet over to the
host if it is to. -/
def reclaim (r : RingId) : World :=
  let m := s.self.shared
  let slot := (m.ring r).slot (m.ring r).hwcur
  let s' := s.setShared (m.modify r Ring.collect)
  if slot.forwards then { s' with traffic := s.traffic.forward r (m.content slot) } else s'

/-- The kernel hands over a slot of a transmit ring. -/
def grant (r : RingId) (ts : Timeval) : World :=
  s.setShared (s.self.shared.grant r ts)

/-- The kernel sends the packet in a slot of a transmit ring. -/
def transmit (r : RingId) : World :=
  let m := s.self.shared
  let slot := (m.ring r).slot (m.ring r).hwcur
  { s.setShared (m.modify r Ring.collect) with traffic := s.traffic.transmit r (m.content slot) }

/-- The program has an answer, or waits for it. -/
def started (ifname : Option Name) (mode : Mode) : Netmaps.Start → World
  | .packet packet self => s.claim packet self
  | .null => s
  | .poll => { s with waiting := some (ifname, mode) }

/-- The program has waited. -/
def answered : Option Transfer × Netmaps → World
  | (some packet, self) => s.claim packet self
  | (none, self) => { s with self := self, waiting := none }

/-- What may happen next. -/
def Admitted : Action → Prop
  | .arrive r _ _ _ => r.side = .rx ∧ s.self.shared.Known r ∧
      next (s.self.shared.ring r).numSlots (s.self.shared.ring r).tail ≠ (s.self.shared.ring r).hwcur
  | .reclaim r => r.side = .rx ∧ s.self.shared.Known r ∧
      (s.self.shared.ring r).hwcur ≠ (s.self.shared.ring r).head
  | .grant r _ => r.side = .tx ∧ s.self.shared.Known r ∧
      next (s.self.shared.ring r).numSlots (s.self.shared.ring r).tail ≠ (s.self.shared.ring r).hwcur
  | .transmit r => r.side = .tx ∧ s.self.shared.Known r ∧
      (s.self.shared.ring r).hwcur ≠ (s.self.shared.ring r).head
  | .recv _ _ => s.waiting = none
  | .polled _ => s.waiting ≠ none
  | .write content => s.waiting = none ∧ s.packet.privateData ∧ content.length = s.packet.len
  | .send _ _ => s.waiting = none
  | .forward => s.waiting = none ∧ s.packet.privateData

def step : Action → Except String World
  | .arrive r packet flags ts => .ok (s.arrive r packet flags ts)
  | .reclaim r => .ok (s.reclaim r)
  | .grant r ts => .ok (s.grant r ts)
  | .transmit r => .ok (s.transmit r)
  | .recv ifname mode => (s.self.recv ifname mode).map (s.started ifname mode)
  | .polled revents =>
      match s.waiting with
      | none => .ok s
      | some (ifname, mode) => (s.self.polled ifname mode revents).map s.answered
  | .write content => .ok (s.setShared (s.self.shared.write (s.packet.buf.getD 0) content))
  | .send ifname mode => .ok (s.send ifname mode).2
  | .forward =>
      match s.self.forward s.packet with
      | none => .error "missing packet"
      | some (packet, self) =>
          .ok { s with packet := packet, self := self, log := s.log ++ s.given (some .forwarded) }

end World

end Peak.Netmap
