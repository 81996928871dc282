import Peak.Load.Store
import Peak.Packet.Chain
import Peak.Track.Tracker

/-! `bin/flowsplit/flowsplit.c`: every packet of a trace that can be dissected
goes to the output file that the number of its flow stands for. Memory for the
loader, the tracker and the descriptors is there. -/
namespace Peak.Flowsplit

open Load Track ByteImage

/-- The bytes that are found behind `trace->buf`: those of the buffer, and behind
it whatever the process has there. -/
def image (memory : Nat → UInt8) (buf : Nat → UInt8) : Image := fun i =>
  if i < bufSize then buf i else memory i

instance (packet : Packet) : Decidable (PacketTyped packet) :=
  decidable_of_iff (packet.netSaddr.length = 16 ∧ packet.netDaddr.length = 16 ∧
      packet.flowSport < 256 ^ 2 ∧ packet.flowDport < 256 ^ 2 ∧ packet.netType < 256 ^ 1)
    ⟨fun ⟨h₁, h₂, h₃, h₄, h₅⟩ => ⟨h₁, h₂, h₃, h₄, h₅⟩, fun ⟨h₁, h₂, h₃, h₄, h₅⟩ => ⟨h₁, h₂, h₃, h₄, h₅⟩⟩

/-- The key that `TRACK_KEY` makes of a packet. The members of a packet always
have the sizes of their types. -/
def trackRef (packet : Packet) : Ref :=
  if h : PacketTyped packet then ⟨trackKey packet, trackKey_typed h⟩ else Ref.zeroed

/-- How the process ended. -/
inductive Ending where
  | finished
  | panicked (message : String)
  | crashed
deriving DecidableEq, Repr

/-- What `flowsplit_packet` did: it returned a value, or it ended the process. -/
inductive Verdict where
  | returned (ret : Int) (track : Tracks)
  | ended (ending : Ending)

/-- `flowsplit_packet`. There is no verdict while the dissector has not
returned. -/
def flowsplitPacket (fuel : Nat) (track : Tracks) (buf : Image) (len type : Nat) : Option Verdict :=
  match Packet.parse fuel buf len type with
  | none => none
  | some (ret, packet) =>
      if ret ≠ 0 ∨ packet.netLen = 0 then some (.returned (-1) track)
      else
        match trackAcquire track (some (trackRef packet)) with
        | .ret none _ => some (.ended (.panicked "tracker is empty\n"))
        | .ret (some slot) track => some (.returned (File.signed (track.mem slot).id) track)
        | .panic message => some (.ended (.panicked message))
        | .fault => some (.ended .crashed)

/-- The variables of `main`, the files behind the descriptors, and whether all
writes so far succeeded. -/
structure State where
  trace : Loader
  track : Tracks
  files : List File.Sink
  written : Bool

/-- What the process leaves behind. -/
structure Exit where
  ending : Ending
  files : List File.Sink
  written : Bool

def State.exit (s : State) (ending : Ending) : Exit := ⟨ending, s.files, s.written⟩

/-- `peak_store_packet` for the packet in the loader. Its return value is not
looked at. -/
def State.store (s : State) (i : Nat) : State :=
  match s.files[i]? with
  | none => s
  | some out =>
      let (ret, out) := storePacket out s.trace.buf s.trace.len s.trace.tsSec s.trace.tsUsec
      { s with files := s.files.set i out, written := s.written && ret != 0 }

/-- The loop of `main`, for at most so many packets. -/
def loop (fuel : Nat) (memory : Nat → UInt8) : Nat → State → Option Exit
  | 0, _ => none
  | calls + 1, s =>
      match packet fuel s.trace with
      | .again _ => none
      | .done trace =>
          if trace.len = 0 then some (s.exit .finished)
          else
            match flowsplitPacket fuel s.track (image memory trace.buf) trace.len trace.ll with
            | none => none
            | some (.ended ending) => some (s.exit ending)
            | some (.returned ret track) =>
                let s := { s with trace := trace, track := track }
                if ret < 0 then loop fuel memory calls s
                else loop fuel memory calls (s.store (ret.toNat % s.files.length))

/-- The output files on devices with so much room. -/
def openFiles (room : Nat → Nat) : Nat → Option (List File.Sink)
  | 0 => some []
  | n + 1 => (openFiles room n).bind fun files => (storeInit (room n)).map fun out => files ++ [out]

/-- `main`, on a trace with the given contents. For no files at all
`reallocarray` returns `NULL`, so the check behind it, with a message of its
own, is never met. -/
def flowsplit (fuel calls : Nat) (memory : Nat → UInt8) (slots : Nat → Flow) (room : Nat → Nat)
    (fileCount flowCount : Nat) (contents : List UInt8) : Option Exit :=
  match Load.init true true true contents with
  | none => some ⟨.panicked "cannot init file loader\n", [], true⟩
  | some trace =>
      match trackInit true true slots 0 flowCount true with
      | none => some ⟨.panicked "cannot init flow tracker\n", [], true⟩
      | some track =>
          if fileCount = 0 then some ⟨.panicked "cannot allocate file descriptor memory\n", [], true⟩
          else
            match openFiles room (min fileCount flowCount) with
            | none => some ⟨.panicked "cannot open an output file\n", [], false⟩
            | some files => loop fuel memory calls ⟨trace, track, files, true⟩

section Typed

open Packet

variable {m : Image} {fuel net : Nat} {self p : Packet}

/-- The transport layer fills in the ports. -/
theorem transport_typed {flow ret : Nat} (h : PacketTyped self)
    (hTransport : transport m flow self = (ret, p)) : PacketTyped p := by
  have hSport := be16_lt m flow
  have hDport := be16_lt m (flow + 2)
  simp only [transport, tcp, udp, icmp] at hTransport
  split_ifs at hTransport <;> cases hTransport
  all_goals first | exact h | exact ⟨h.saddr, h.daddr, hSport, hDport, h.type⟩ |
    exact ⟨h.saddr, h.daddr, h.sport, h.dport, h.type⟩

theorem flowLayer_typed {ret : Nat} (h : PacketTyped self) (hFlow : flowLayer m net self = (ret, p)) :
    PacketTyped p := by
  refine transport_typed ?_ hFlow
  exact ⟨h.saddr, h.daddr, h.sport, h.dport, h.type⟩

theorem ipv4_typed {ret : Nat} (h : PacketTyped self) (hIp : ipv4 m net self = (ret, p)) :
    PacketTyped p := by
  simp only [ipv4] at hIp
  split_ifs at hIp
  · exact (Prod.mk.inj hIp).2 ▸ h
  · exact (Prod.mk.inj hIp).2 ▸ h
  · exact (Prod.mk.inj hIp).2 ▸ h
  · refine flowLayer_typed ?_ hIp
    exact ⟨by simp [netaddr4], by simp [netaddr4], h.sport, h.dport, byte_lt m _⟩

/-- Every type in the chain of extension headers is a byte. -/
theorem walk_nextType_lt {code : Nat} {w e : Walk} (hLt : w.nextType < 256)
    (h : walk (total m) fuel w = some (.returned code e)) : e.nextType < 256 := by
  induction fuel generalizing w with
  | zero => cases h
  | succ fuel ih =>
      rw [walk] at h
      cases hStep : walkStep (total m) w with
      | next w' =>
          rw [hStep] at h
          refine ih ?_ h
          simp only [walkStep, total] at hStep
          split_ifs at hStep <;> cases hStep
          · exact UInt8.toNat_lt _
          · exact UInt8.toNat_lt _
      | ret code =>
          rw [hStep] at h
          cases h
          exact hLt
      | outside =>
          rw [hStep] at h
          cases h

theorem ipv6_typed {r : Nat × Packet} (h : PacketTyped self) (hIp : ipv6 fuel m net self = some r) :
    PacketTyped r.2 := by
  simp only [ipv6] at hIp
  cases hWalk : walk (total m) fuel (walkStart m net) with
  | none =>
      rw [hWalk] at hIp
      cases hIp
  | some e =>
      rw [hWalk] at hIp
      cases e with
      | outside => cases hIp
      | returned code w =>
          have hType := walk_nextType_lt (byte_lt m (net + 6)) hWalk
          cases code with
          | zero =>
              cases hIp
              exact ⟨h.saddr, h.daddr, h.sport, h.dport, hType⟩
          | succ code =>
              cases hIp
              exact ⟨h.saddr, h.daddr, h.sport, h.dport, h.type⟩

/-- What `peak_packet_parse` filled in has the sizes of its types. -/
theorem parse_typed {len type : Nat} {r : Nat × Packet} (h : parse fuel m len type = some r) :
    PacketTyped r.2 := by
  have hBlank (macType macVlan net : Nat) : PacketTyped (linkPacket len type macType macVlan net) :=
    ⟨rfl, rfl, Nat.zero_lt_succ _, Nat.zero_lt_succ _, Nat.zero_lt_succ _⟩
  simp only [parse] at h
  cases hLink : linkHeader m type with
  | none =>
      rw [hLink] at h
      cases h
      exact ⟨rfl, rfl, Nat.zero_lt_succ _, Nat.zero_lt_succ _, Nat.zero_lt_succ _⟩
  | some link =>
      obtain ⟨macType, macVlan, net⟩ := link
      simp only [hLink] at h
      have hSelf := hBlank macType macVlan net
      generalize linkPacket len type macType macVlan net = self at h hSelf
      by_cases hIp : self.macType = ethertypeIp
      · rw [network_ip fuel m net hIp] at h
        exact ipv4_typed hSelf (Option.some.inj h)
      by_cases hIpv6 : self.macType = ethertypeIpv6
      · rw [network_ipv6 fuel m net hIpv6] at h
        have hFilled : PacketTyped (ipv6Packet m net self) :=
          ⟨by simp [ipv6Packet, netaddr6], by simp [ipv6Packet, netaddr6], hSelf.sport, hSelf.dport,
            hSelf.type⟩
        cases hRes : ipv6 fuel m net (ipv6Packet m net self) with
        | none =>
            rw [hRes] at h
            cases h
        | some res =>
            have hTyped := ipv6_typed hFilled hRes
            rw [hRes] at h
            obtain ⟨code, packet⟩ := res
            cases code with
            | zero => exact flowLayer_typed hTyped (Option.some.inj h)
            | succ code =>
                cases h
                exact hTyped
      · rw [network_other fuel m net hIp hIpv6] at h
        cases h
        exact hSelf

end Typed

/-- `TRACK_KEY` of a packet that was dissected. -/
theorem trackRef_key {fuel len type : Nat} {m : Image} {ret : Nat} {packet : Packet}
    (h : Packet.parse fuel m len type = some (ret, packet)) : (trackRef packet).1 = trackKey packet := by
  rw [trackRef, dif_pos (parse_typed h)]

end Peak.Flowsplit
