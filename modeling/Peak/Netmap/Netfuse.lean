import Peak.Netmap.Devices
import Peak.Netmap.Runs

/-! `bin/netfuse/netfuse.c`: two devices are connected by a program that receives from
one and sends to the other. -/
namespace Peak.Netmap

/-- Where the loop of `main` is: in front of `recv`, in `poll`, in front of one of the
two calls of `send`, or left. -/
inductive Pc where
  | top
  | polling
  | sending
  | dropping
  | done
deriving DecidableEq

/-- What the kernel does by itself. -/
def Action.byKernel : Action → Bool
  | .arrive .. => true
  | .reclaim _ => true
  | .grant .. => true
  | .transmit _ => true
  | _ => false

/-- `netfuse` between two steps. -/
structure Fuse where
  world : World
  loop : Bool
  pc : Pc

/-- A step of the kernel, `SIGINT`, or a call in the loop with what `poll` tells. -/
inductive Tick where
  | kernel (a : Action)
  | signal
  | call (revents : Option (Nat → Bool))

/-- Both devices are attached, or the program ends. -/
def attachBoth (self : Registry) (dev0 dev1 : Name) (opened0 opened1 : Option (Nat × Nat)) : Option Registry :=
  let first := self.attach dev0 .allNic opened0
  if first.1 then none
  else
    let second := first.2.attach dev1 .allNic opened1
    if second.1 then none else some second.2.lock

namespace Fuse

variable (dev0 dev1 : Name) (s : Fuse)

/-- `recv` has returned, or waits. -/
def received : Netmaps.Start → Fuse
  | .packet packet self => { s with world := s.world.claim packet self, pc := .sending }
  | .null => s
  | .poll => { s with world := { s.world with waiting := some (none, .wire) }, pc := .polling }

/-- `recv` has waited. -/
def polled : Option Transfer × Netmaps → Fuse
  | (some packet, self) => { s with world := s.world.claim packet self, pc := .sending }
  | (none, self) => { s with world := { s.world with self := self, waiting := none }, pc := .top }

/-- `send` has returned. -/
def sent (pc : Pc) : Bool × World → Fuse
  | (failed, world) => { s with world := world, pc := if failed then pc else .top }

/-- The device that a packet is sent to. -/
def target : Name := if s.world.packet.ifname = some dev0 then dev1 else dev0

/-- The next call of the loop. -/
def call (revents : Option (Nat → Bool)) : Except String Fuse :=
  match s.pc with
  | .top => if s.loop then (s.world.self.recv none .wire).map s.received else .ok { s with pc := .done }
  | .polling => (s.world.self.polled none .wire revents).map s.polled
  | .sending => .ok (s.sent .dropping (s.world.send (some (s.target dev0 dev1)) .wire))
  | .dropping => .ok (s.sent .top (s.world.send none .wire))
  | .done => .ok s

def step : Tick → Except String Fuse
  | .kernel a => (s.world.step a).map fun world => { s with world := world }
  | .signal => .ok { s with loop := false }
  | .call revents => s.call dev0 dev1 revents

/-- The kernel takes its turns, and the program runs its loop only. -/
def Admitted : Tick → Prop
  | .kernel a => a.byKernel ∧ s.world.Admitted a
  | .signal => True
  | .call _ => True

end Fuse

/-- A packet goes from a device to another one as it came in, or is dropped because all
rings of that one were full when it was to be sent. -/
structure Entry.Passes (source target : Dev) (e : Entry) : Prop where
  same : e.released = e.received
  source : ∃ rx ∈ Netmaps.wire source, e.source = source.rxRing rx
  fate : (e.fate = .dropped ∧ ∀ tx ∈ Netmaps.wire target, target.txRing tx ∈ e.full) ∨
    ∃ tx ∈ Netmaps.wire target, e.fate = .sent (target.txRing tx)

variable {bufs : Set Nat} {s s' : World} {log : List Entry} {r : RingId} {claim : Claim} {a : Action}

/-- The kernel leaves the program and its packet alone. -/
structure Untouched (s s' : World) : Prop where
  priv : s'.self.priv = s.self.priv
  dev : s'.self.dev = s.self.dev
  packet : s'.packet = s.packet
  received : s'.received = s.received
  full : s'.full = s.full
  log : s'.log = s.log
  content : ∀ claim, s.self.priv = some claim →
    s'.self.shared.content (s'.self.shared.current claim.ring) =
      s.self.shared.content (s.self.shared.current claim.ring)

theorem Sound.untouched_arrive (h : Sound bufs s log) {content : List UInt8} {flags : BitVec 16} {ts : Timeval}
    (hKnown : s.self.shared.Known r) : Untouched s (s.arrive r content flags ts) := by
  refine ⟨rfl, rfl, rfl, rfl, rfl, rfl, fun claim hClaim => ?_⟩
  have hHolds := h.held claim hClaim
  have hSlot : (s.self.shared.arrive r content flags ts).current claim.ring = s.self.shared.current claim.ring := by
    rw [Shared.current, Shared.arrive, Shared.ring_modify_apply]
    split_ifs with hSame
    · rw [← hSame]
      exact Ring.current_provide hHolds.some _ _
    · rfl
  have hOther : (s.self.shared.current claim.ring).bufIdx ≠
      ((s.self.shared.ring r).slot (s.self.shared.ring r).tail).bufIdx := by
    intro hBuf
    obtain ⟨hRing, hPosition⟩ := h.ok.same (h.ok.ordered _ hHolds.known).cur_lt (h.ok.ordered _ hKnown).tail_lt hBuf
    have hEmpty := hHolds.some
    rw [hRing] at hEmpty hPosition
    simp [Ring.empty, hPosition] at hEmpty
  show (s.self.shared.arrive r content flags ts).content
    ((s.self.shared.arrive r content flags ts).current claim.ring) = _
  rw [hSlot, Shared.arrive, Shared.content_modify, Shared.content_write_of_ne hOther]

/-- A ring goes on, but not the slot of the packet. -/
theorem untouched_modify (traffic : Traffic) {g : Ring → Ring}
    (hCurrent : ∀ claim, s.self.priv = some claim →
      (s.self.shared.modify r g).current claim.ring = s.self.shared.current claim.ring) :
    Untouched s { s.setShared (s.self.shared.modify r g) with traffic := traffic } := by
  refine ⟨rfl, rfl, rfl, rfl, rfl, rfl, fun claim hClaim => ?_⟩
  show (s.self.shared.modify r g).content ((s.self.shared.modify r g).current claim.ring) = _
  rw [hCurrent claim hClaim, Shared.content_modify]

theorem current_collect (m : Shared) (r r' : RingId) : (m.modify r Ring.collect).current r' = m.current r' := by
  rw [Shared.current, Shared.ring_modify_apply]
  split_ifs with hSame
  · rw [hSame]
    rfl
  · rfl

/-- A turn of the kernel. -/
theorem Sound.step_kernel (h : Sound bufs s log) (hKernel : a.byKernel) (hAdmitted : s.Admitted a) :
    ∃ s', s.step a = .ok s' ∧ Sound bufs s' log ∧ Untouched s s' := by
  have hCollect : ∀ r claim, s.self.priv = some claim →
      (s.self.shared.modify r Ring.collect).current claim.ring = s.self.shared.current claim.ring :=
    fun r claim _ => current_collect _ _ _
  cases a with
  | arrive r packet flags ts =>
      exact ⟨_, rfl, h.arrive hAdmitted.1 hAdmitted.2.1 hAdmitted.2.2, h.untouched_arrive hAdmitted.2.1⟩
  | reclaim r =>
      refine ⟨_, rfl, h.reclaim hAdmitted.1 hAdmitted.2.1 hAdmitted.2.2, ?_⟩
      rw [World.reclaim]
      split_ifs
      · exact untouched_modify _ (hCollect r)
      · exact untouched_modify s.traffic (hCollect r)
  | grant r ts =>
      refine ⟨_, rfl, h.grant hAdmitted.1 hAdmitted.2.1 hAdmitted.2.2,
        untouched_modify s.traffic fun claim hClaim => ?_⟩
      have hOther : claim.ring ≠ r := by
        rintro rfl
        exact Side.noConfusion ((h.held claim hClaim).side.symm.trans hAdmitted.1)
      rw [Shared.current, Shared.ring_modify_of_ne hOther]
      rfl
  | transmit r =>
      exact ⟨_, rfl, h.transmit hAdmitted.1 hAdmitted.2.1 hAdmitted.2.2, untouched_modify _ (hCollect r)⟩
  | recv ifname mode => cases hKernel
  | polled revents => cases hKernel
  | write content => cases hKernel
  | send ifname mode => cases hKernel
  | forward => cases hKernel

/-- The program has a packet of a device, as it came in. -/
structure Carries (s : World) (source : Dev) (claim : Claim) : Prop where
  priv : s.self.priv = some claim
  ring : ∃ rx ∈ Netmaps.wire source, claim.ring = source.rxRing rx
  received : s.received = s.self.shared.content (s.self.shared.current claim.ring)
  ifname : s.packet.ifname = some source.ifname

variable {source target d₀ d₁ : Dev} {packet : Transfer} {self' : Netmaps}

theorem Carries.untouched (h : Carries s source claim) (hSame : Untouched s s') : Carries s' source claim :=
  ⟨hSame.priv.trans h.priv, h.ring, hSame.received.trans (h.received.trans (hSame.content claim h.priv).symm),
    (congrArg Transfer.ifname hSame.packet).trans h.ifname⟩

theorem Netmaps.Finds.carries (h : s.self.Finds .wire packet self') :
    ∃ source ∈ s.self.dev, ∃ claim, Carries (s.claim packet self') source claim := by
  obtain ⟨source, hMem, _, rx, hRings, hTakes⟩ := h
  refine ⟨source, hMem, _, hTakes.priv, ⟨rx, hRings, rfl⟩, ?_, hTakes.ifname⟩
  show self'.shared.content ⟨packet.buf.getD 0, packet.len, 0⟩ = self'.shared.content (self'.shared.current _)
  rw [hTakes.shared, hTakes.buf, hTakes.len]
  rfl

/-- All rings of a device were full when the packet was last to be sent. -/
def Refused (s : World) (target : Dev) : Prop := ∀ tx ∈ Netmaps.wire target, target.txRing tx ∈ s.full

/-- A packet is sent if there is room for it. -/
theorem Carries.send (h : Carries s source claim) (hSound : Sound bufs s s.log)
    (hFound : s.self.dev[s.self.find (some target.ifname) .pipeSlave]? = some target) :
    ∃ failed s', s.send (some target.ifname) .wire = (failed, s') ∧ s'.self.dev = s.self.dev ∧
      (failed = true ∧ Carries s' source claim ∧ Refused s' target ∧ s'.log = s.log ∨
        failed = false ∧ s'.packet = {} ∧ ∃ e : Entry, e.Passes source target ∧ s'.log = s.log ++ [e]) := by
  obtain ⟨packet, self', hSend, hStays, hGone⟩ := hSound.send h.priv (some target.ifname) .wire
  have hRings : s.self.ringsOf target.ifname .wire = (Netmaps.wire target).map target.txRing := by
    rw [Netmaps.ringsOf_eq, hFound]
    rfl
  have hWorld : s.send (some target.ifname) .wire = ((s.fate (some target.ifname) .wire).isNone, { s with
      self := self'
      packet := packet
      full := s.fullRings (some target.ifname) .wire
      log := s.log ++ s.given (s.fate (some target.ifname) .wire) }) := by
    simp only [World.send, hSend]
  refine ⟨_, _, hWorld, ?_⟩
  cases hFate : s.fate (some target.ifname) .wire with
  | none =>
      obtain ⟨rfl, rfl⟩ := hStays hFate
      have hFull := List.find?_eq_none.mp (Option.map_eq_none_iff.mp hFate)
      refine ⟨rfl, .inl ⟨rfl, ⟨h.priv, h.ring, h.received, h.ifname⟩, fun tx hMem => ?_, ?_⟩⟩
      · have hRing : target.txRing tx ∈ s.self.ringsOf target.ifname .wire := by
          rw [hRings]
          exact List.mem_map_of_mem hMem
        exact List.mem_filter.mpr ⟨hRing, by simpa using hFull _ hRing⟩
      · simp only [World.given, h.priv, List.append_nil]
  | some fate =>
      obtain ⟨rfl, hDevices, -⟩ := hGone fate hFate
      obtain ⟨r, hFirst, rfl⟩ := Option.map_eq_some_iff.mp hFate
      obtain ⟨tx, hMem, rfl⟩ := List.mem_map.mp (hRings ▸ List.mem_of_find?_eq_some hFirst)
      exact ⟨hDevices, .inr ⟨rfl, rfl, _, ⟨h.received.symm, h.ring, .inr ⟨tx, hMem, rfl⟩⟩,
        by rw [hSound.given_eq h.priv]⟩⟩

theorem Carries.drop (h : Carries s source claim) (hSound : Sound bufs s s.log) (hRefused : Refused s target) :
    ∃ s', s.send none .wire = (false, s') ∧ s'.self.dev = s.self.dev ∧ s'.packet = {} ∧
      ∃ e : Entry, e.Passes source target ∧ s'.log = s.log ++ [e] := by
  obtain ⟨packet, self', hSend, -, hGone⟩ := hSound.send h.priv none .wire
  obtain ⟨rfl, hDevices, -⟩ := hGone .dropped rfl
  have hWorld : s.send none .wire = (false, { s with
      self := self'
      packet := {}
      full := s.full
      log := s.log ++ s.given (some .dropped) }) := by
    simp only [World.send, hSend]
    rfl
  rw [hSound.given_eq h.priv] at hWorld
  exact ⟨_, hWorld, hDevices, rfl, ⟨claim.ring, s.received, _, s.full, .dropped⟩,
    ⟨h.received.symm, h.ring, .inl ⟨rfl, hRefused⟩⟩, rfl⟩

/-- Two interfaces. -/
structure Dev.Joined (d₀ d₁ : Dev) : Prop where
  names : d₀.ifname ≠ d₁.ifname
  nics : d₀.type = .allNic ∧ d₁.type = .allNic

/-- A name leads to its device. -/
theorem Dev.Joined.found (h : d₀.Joined d₁) {net : Netmaps} (hDevices : net.dev = [d₀, d₁]) (hMem : target ∈ net.dev) :
    net.dev[net.find (some target.ifname) .pipeSlave]? = some target := by
  have hDistinct : (Registry.mk net true).Distinct := by
    rw [Registry.Distinct, hDevices]
    exact List.pairwise_pair.mpr fun hSame => absurd hSame h.names
  have hType : target.type = .allNic := by
    rw [hDevices] at hMem
    rcases List.mem_pair.mp hMem with rfl | rfl
    · exact h.nics.1
    · exact h.nics.2
  refine hDistinct.find_eq (s := ⟨net, true⟩) hMem (by decide) ?_
  rw [hType]
  decide

namespace Fuse

/-- The two devices, in the one order or the other. -/
def Across (d₀ d₁ source target : Dev) : Prop := source = d₀ ∧ target = d₁ ∨ source = d₁ ∧ target = d₀

theorem Across.mem (h : Across d₀ d₁ source target) : target ∈ [d₀, d₁] := by
  rcases h with ⟨_, rfl⟩ | ⟨_, rfl⟩
  · exact List.mem_cons_of_mem _ List.mem_cons_self
  · exact List.mem_cons_self

theorem Across.passes (h : Across d₀ d₁ source target) {e : Entry} (hPasses : e.Passes source target) :
    e.Passes d₀ d₁ ∨ e.Passes d₁ d₀ := by
  rcases h with ⟨rfl, rfl⟩ | ⟨rfl, rfl⟩
  · exact .inl hPasses
  · exact .inr hPasses

/-- What the program has where its loop is. -/
def Phase (s : World) (d₀ d₁ : Dev) : Pc → Prop
  | .sending => ∃ source target claim, Across d₀ d₁ source target ∧ Carries s source claim
  | .dropping => ∃ source target claim, Across d₀ d₁ source target ∧ Carries s source claim ∧ Refused s target
  | _ => s.self.priv = none

/-- What holds at any time. -/
structure Bridges (bufs : Set Nat) (d₀ d₁ : Dev) (s : Fuse) : Prop where
  sound : Sound bufs s.world s.world.log
  devices : s.world.self.dev = [d₀, d₁]
  passes : ∀ e ∈ s.world.log, e.Passes d₀ d₁ ∨ e.Passes d₁ d₀
  phase : Phase s.world d₀ d₁ s.pc

variable {f : Fuse} {revents : Option (Nat → Bool)}

theorem Phase.untouched {pc : Pc} (h : Phase s d₀ d₁ pc) (hSame : Untouched s s') : Phase s' d₀ d₁ pc := by
  cases pc with
  | top => exact hSame.priv.trans h
  | polling => exact hSame.priv.trans h
  | sending =>
      obtain ⟨source, target, claim, hAcross, hCarries⟩ := h
      exact ⟨source, target, claim, hAcross, hCarries.untouched hSame⟩
  | dropping =>
      obtain ⟨source, target, claim, hAcross, hCarries, hRefused⟩ := h
      refine ⟨source, target, claim, hAcross, hCarries.untouched hSame, fun tx hMem => ?_⟩
      rw [hSame.full]
      exact hRefused tx hMem
  | done => exact hSame.priv.trans h

theorem Bridges.kernel (h : Bridges bufs d₀ d₁ f) (hKernel : a.byKernel) (hAdmitted : f.world.Admitted a) :
    ∃ f', f.step d₀.ifname d₁.ifname (.kernel a) = .ok f' ∧ Bridges bufs d₀ d₁ f' := by
  obtain ⟨world, hStep, hSound, hSame⟩ := h.sound.step_kernel hKernel hAdmitted
  rw [← hSame.log] at hSound
  refine ⟨{ f with world := world }, ?_, hSound, hSame.dev.trans h.devices, ?_, h.phase.untouched hSame⟩
  · rw [Fuse.step, hStep]
    rfl
  · show ∀ e ∈ world.log, _
    rw [hSame.log]
    exact h.passes

/-- The loop has a packet, which comes from one of the two devices. -/
theorem Bridges.take (h : Bridges bufs d₀ d₁ f) (hFree : f.world.self.priv = none)
    (hFinds : f.world.self.Finds .wire packet self') :
    Bridges bufs d₀ d₁ { f with world := f.world.claim packet self', pc := .sending } := by
  obtain ⟨source, hMem, claim, hCarries⟩ := hFinds.carries
  have hDevices : self'.dev = [d₀, d₁] := by
    obtain ⟨_, _, _, _, _, hTakes⟩ := hFinds
    rw [hTakes.devices, h.devices]
  refine ⟨h.sound.take hFree hFinds, hDevices, h.passes, ?_⟩
  rw [h.devices] at hMem
  rcases List.mem_pair.mp hMem with rfl | rfl
  · exact ⟨source, d₁, claim, .inl ⟨rfl, rfl⟩, hCarries⟩
  · exact ⟨source, d₀, claim, .inr ⟨rfl, rfl⟩, hCarries⟩

/-- The program has no packet while it asks for one. -/
theorem Bridges.free (h : Bridges bufs d₀ d₁ f) (hPc : f.pc = .top ∨ f.pc = .polling) :
    f.world.self.priv = none := by
  have hPhase := h.phase
  rcases hPc with hPc | hPc
  · rwa [hPc] at hPhase
  · rwa [hPc] at hPhase

theorem Bridges.top (h : Bridges bufs d₀ d₁ f) (hPc : f.pc = .top) :
    ∃ f', f.call d₀.ifname d₁.ifname revents = .ok f' ∧ Bridges bufs d₀ d₁ f' := by
  have hFree := h.free (.inl hPc)
  simp only [Fuse.call, hPc]
  split_ifs with hLoop
  · rcases h.sound.recv_cases none .wire with hNull | ⟨packet, self', hPacket, _, hFinds⟩ | ⟨hPoll, _, _⟩
    · exact ⟨f, by rw [hNull]; rfl, h⟩
    · exact ⟨_, by rw [hPacket]; rfl, h.take hFree hFinds⟩
    · exact ⟨f.received .poll, by rw [hPoll]; rfl, h.sound.of_last hFree f.world.self.last _, h.devices, h.passes, hFree⟩
  · exact ⟨_, rfl, h.sound, h.devices, h.passes, hFree⟩

theorem Bridges.polling (h : Bridges bufs d₀ d₁ f) (hPc : f.pc = .polling) :
    ∃ f', f.call d₀.ifname d₁.ifname revents = .ok f' ∧ Bridges bufs d₀ d₁ f' := by
  have hFree := h.free (.inr hPc)
  simp only [Fuse.call, hPc]
  rcases h.sound.polled_cases none .wire revents with ⟨last, hNone⟩ | ⟨packet, self', hSome, hFinds⟩
  · exact ⟨f.polled (none, { f.world.self with last := last }), by rw [hNone]; rfl,
      h.sound.of_last hFree last none, h.devices, h.passes, hFree⟩
  · exact ⟨_, by rw [hSome]; rfl, h.take hFree hFinds⟩

/-- The program is done with a packet. -/
theorem Bridges.snoc (h : Bridges bufs d₀ d₁ f) {e : Entry} (hSound : Sound bufs s s.log)
    (hDevices : s.self.dev = f.world.self.dev) (hEmpty : s.packet = {})
    (hPasses : e.Passes d₀ d₁ ∨ e.Passes d₁ d₀) (hLog : s.log = f.world.log ++ [e]) :
    Bridges bufs d₀ d₁ { f with world := s, pc := .top } := by
  refine ⟨hSound, hDevices.trans h.devices, fun e' hMem => ?_, ?_⟩
  · rw [show ({ f with world := s, pc := .top } : Fuse).world.log = s.log from rfl, hLog] at hMem
    rcases List.mem_append.mp hMem with hOld | hNew
    · exact h.passes e' hOld
    · rwa [List.mem_singleton.mp hNew]
  · show s.self.priv = none
    cases hPriv : s.self.priv with
    | none => rfl
    | some claim =>
        have hData := (hSound.held claim hPriv).privateData
        rw [hEmpty] at hData
        cases hData

/-- A packet is to be sent to the device that it does not come from. -/
theorem Across.target_eq (h : Across d₀ d₁ source target) (hJoined : d₀.Joined d₁)
    (hCarries : Carries f.world source claim) : f.target d₀.ifname d₁.ifname = target.ifname := by
  rcases h with ⟨rfl, rfl⟩ | ⟨rfl, rfl⟩
  · rw [Fuse.target, hCarries.ifname, if_pos rfl]
  · rw [Fuse.target, hCarries.ifname, if_neg fun hSame => hJoined.names (Option.some.inj hSame).symm]

/-- Without room for the packet on the other device, it is dropped next. -/
theorem Bridges.sending (h : Bridges bufs d₀ d₁ f) (hJoined : d₀.Joined d₁) (hPc : f.pc = .sending) :
    ∃ f', f.call d₀.ifname d₁.ifname revents = .ok f' ∧ Bridges bufs d₀ d₁ f' := by
  have hPhase := h.phase
  rw [hPc] at hPhase
  obtain ⟨source, target, claim, hAcross, hCarries⟩ := hPhase
  have hMem : target ∈ f.world.self.dev := by
    rw [h.devices]
    exact hAcross.mem
  have hSound := (h.sound.send_recorded (some target.ifname) .wire).1
  obtain ⟨failed, world, hSend, hDevices, hEnd⟩ := hCarries.send h.sound (hJoined.found h.devices hMem)
  simp only [hSend] at hSound
  simp only [Fuse.call, hPc, hAcross.target_eq hJoined hCarries, hSend]
  rcases hEnd with ⟨rfl, hStill, hRefused, hLog⟩ | ⟨rfl, hEmpty, e, hPasses, hLog⟩
  · refine ⟨_, rfl, hSound, hDevices.trans h.devices, ?_, source, target, claim, hAcross, hStill, hRefused⟩
    show ∀ e ∈ world.log, _
    rw [hLog]
    exact h.passes
  · exact ⟨_, rfl, h.snoc hSound hDevices hEmpty (hAcross.passes hPasses) hLog⟩

theorem Bridges.dropping (h : Bridges bufs d₀ d₁ f) (hPc : f.pc = .dropping) :
    ∃ f', f.call d₀.ifname d₁.ifname revents = .ok f' ∧ Bridges bufs d₀ d₁ f' := by
  have hPhase := h.phase
  rw [hPc] at hPhase
  obtain ⟨source, target, claim, hAcross, hCarries, hRefused⟩ := hPhase
  have hSound := (h.sound.send_recorded none .wire).1
  obtain ⟨world, hSend, hDevices, hEmpty, e, hPasses, hLog⟩ := hCarries.drop h.sound hRefused
  simp only [hSend] at hSound
  simp only [Fuse.call, hPc, hSend]
  exact ⟨_, rfl, h.snoc hSound hDevices hEmpty (hAcross.passes hPasses) hLog⟩

/-- Every step is taken. -/
theorem Bridges.step (h : Bridges bufs d₀ d₁ f) (hJoined : d₀.Joined d₁) (t : Tick) (hAdmitted : f.Admitted t) :
    ∃ f', f.step d₀.ifname d₁.ifname t = .ok f' ∧ Bridges bufs d₀ d₁ f' := by
  cases t with
  | kernel a => exact h.kernel hAdmitted.1 hAdmitted.2
  | signal => exact ⟨_, rfl, h.sound, h.devices, h.passes, h.phase⟩
  | call revents =>
      cases hPc : f.pc with
      | top => exact h.top hPc
      | polling => exact h.polling hPc
      | sending => exact h.sending hJoined hPc
      | dropping => exact h.dropping hPc
      | done => exact ⟨f, by rw [Fuse.step, Fuse.call, hPc], h⟩

/-- In front of the loop. -/
def start (registry : Registry) : Fuse where
  world := ⟨registry.netmaps, {}, [], none, ⟨fun _ => [], fun _ => [], fun _ => []⟩, [], []⟩
  loop := true
  pc := .top

variable {dev0 dev1 : Name} {opened0 opened1 : Option (Nat × Nat)} {shared : Shared} {registry : Registry}

/-- What a call that does not fail does. -/
theorem attach_eq {registry : Registry} {ifname : Name} {type : RegType} {opened : Option (Nat × Nat)}
    (h : (registry.attach ifname type opened).1 = false) :
    registry.netmaps.dev.length ≤ registry.netmaps.find (some ifname) (Registry.ignored type) ∧
      ∃ nifp rings, (registry.attach ifname type opened).2.netmaps =
        { registry.netmaps with
          dev := registry.netmaps.dev ++ [⟨ifname.take (ifnamsiz - 1), nifp, type, 0, rings⟩] } := by
  unfold Registry.attach at h ⊢
  split_ifs at h ⊢ with hLocked hFound hFull
  cases opened with
  | none => cases h
  | some opened => exact ⟨Nat.le_of_not_lt hFound, opened.1, opened.2, rfl⟩

/-- Both interfaces are there, and they are not the same one. -/
theorem joined_of_attachBoth (h : attachBoth (.empty shared) dev0 dev1 opened0 opened1 = some registry)
    (hNames : dev0.length < ifnamsiz ∧ dev1.length < ifnamsiz) :
    ∃ d₀ d₁, registry.netmaps.dev = [d₀, d₁] ∧ d₀.ifname = dev0 ∧ d₁.ifname = dev1 ∧ d₀.Joined d₁ := by
  have hWhole : ∀ name : Name, name.length < ifnamsiz → name.take (ifnamsiz - 1) = name :=
    fun name hLength => List.take_of_length_le (Nat.le_pred_of_lt hLength)
  unfold attachBoth at h
  dsimp only at h
  split_ifs at h with hFail0 hFail1
  obtain ⟨_, nifp0, rings0, hFirst⟩ := attach_eq (Bool.eq_false_of_not_eq_true hFail0)
  obtain ⟨hNew, nifp1, rings1, hSecond⟩ := attach_eq (Bool.eq_false_of_not_eq_true hFail1)
  cases h
  rw [hWhole dev0 hNames.1] at hFirst
  rw [hWhole dev1 hNames.2, hFirst] at hSecond
  refine ⟨_, _, congrArg Netmaps.dev hSecond, rfl, rfl, fun hSame => ?_, rfl, rfl⟩
  -- the second call would have found the first device
  obtain rfl : dev0 = dev1 := hSame
  rw [hFirst] at hNew
  refine absurd hNew (Nat.not_le.mpr (List.findIdx_lt_length.mpr ⟨_, List.mem_concat_self, ?_⟩))
  exact Dev.named_iff.mpr ⟨rfl, .inl rfl⟩

theorem Across.passes_of_sent (h : Across d₀ d₁ source target) (hApart : source.nifp ≠ target.nifp) {e : Entry}
    {tx : Nat} (hPasses : e.Passes d₀ d₁ ∨ e.Passes d₁ d₀) (hFate : e.fate = .sent (target.txRing tx)) :
    e.Passes source target := by
  have hNot : ¬e.Passes target source := by
    intro hBack
    rcases hBack.fate with ⟨hDropped, _⟩ | ⟨tx', _, hFate'⟩
    · rw [hFate] at hDropped
      cases hDropped
    · rw [hFate] at hFate'
      exact hApart (congrArg RingId.nifp (Fate.sent.inj hFate')).symm
  rcases h with ⟨rfl, rfl⟩ | ⟨rfl, rfl⟩
  · exact hPasses.resolve_right hNot
  · exact hPasses.resolve_left hNot

/-- What a ring of one device sends came in on the only ring of the other one. -/
theorem Bridges.sublist (h : Bridges bufs d₀ d₁ f) (hAcross : Across d₀ d₁ source target)
    (hApart : source.nifp ≠ target.nifp) {rx tx : Nat} (hOnly : Netmaps.wire source = [rx])
    (hMem : tx ∈ Netmaps.wire target) :
    (f.world.traffic.transmitted (target.txRing tx)).Sublist (f.world.traffic.arrived (source.rxRing rx)) := by
  have hWired : source.Wired f.world.self.shared ∧ target.Wired f.world.self.shared := by
    have hWired := h.sound.wired
    rw [h.devices] at hWired
    have hAll := And.intro (hWired d₀ List.mem_cons_self) (hWired d₁ (List.mem_cons_of_mem _ List.mem_cons_self))
    rcases hAcross with ⟨rfl, rfl⟩ | ⟨rfl, rfl⟩
    · exact hAll
    · exact hAll.symm
  have hRx := Netmaps.mem_wire (hOnly ▸ List.mem_singleton_self rx)
  have hTx := Netmaps.mem_wire hMem
  have hArrived := h.sound.account.arrived (source.rxRing rx) (hWired.1.rx rx hRx.1 hRx.2.le) rfl
  have hSent := h.sound.account.transmitted (target.txRing tx) (hWired.2.tx tx hTx.1 hTx.2.le) rfl
  have hOrigin : ∀ e ∈ f.world.log, e.fate = .sent (target.txRing tx) →
      e.source = source.rxRing rx ∧ e.released = e.received := by
    intro e hLog hFate
    have hPasses := hAcross.passes_of_sent hApart (h.passes e hLog) hFate
    obtain ⟨rx', hWire, hSource⟩ := hPasses.source
    rw [hOnly] at hWire
    exact ⟨List.mem_singleton.mp hWire ▸ hSource, hPasses.same⟩
  have hPart : (sentTo f.world.log (target.txRing tx)).Sublist (receivedFrom f.world.log (source.rxRing rx)) := by
    have hFilter : (f.world.log.filter fun e => e.fate = .sent (target.txRing tx)) =
        (f.world.log.filter fun e => e.source = source.rxRing rx).filter fun e => e.fate = .sent (target.txRing tx) := by
      rw [List.filter_filter]
      refine List.filter_congr fun e hLog => ?_
      rw [← Bool.decide_and, decide_eq_decide]
      exact ⟨fun hFate => ⟨hFate, (hOrigin e hLog hFate).1⟩, And.left⟩
    have hMap : sentTo f.world.log (target.txRing tx) =
        (f.world.log.filter fun e => e.fate = .sent (target.txRing tx)).map Entry.received := by
      refine List.map_congr_left fun e hMem => ?_
      obtain ⟨hLog, hFate⟩ := List.mem_filter.mp hMem
      exact (hOrigin e hLog (of_decide_eq_true hFate)).2
    rw [hMap, hFilter]
    exact List.filter_sublist.map _
  rw [hArrived]
  exact ((List.sublist_append_left _ _).trans (hSent ▸ hPart)).trans (List.sublist_append_left _ _)

/-- In every run both ways: each packet that came in on one device goes to the other one
as it came in, or still waits, or was dropped because the other device had no room for it
when it was to be sent. No step stops with an error. With one ring a device what is sent
is in order. -/
theorem bridge_faithful (hNames : dev0.length < ifnamsiz ∧ dev1.length < ifnamsiz)
    (hAttach : attachBoth (.empty shared) dev0 dev1 opened0 opened1 = some registry)
    (hFresh : Fresh bufs (start registry).world)
    (hReached : Run.Reached (step dev0 dev1) Admitted (start registry) f) :
    ∃ d₀ d₁, registry.netmaps.dev = [d₀, d₁] ∧ d₀.ifname = dev0 ∧ d₁.ifname = dev1 ∧
      Accounted f.world f.world.log ∧ (∀ e ∈ f.world.log, e.Passes d₀ d₁ ∨ e.Passes d₁ d₀) ∧
      (∀ t, f.Admitted t → ∃ f', f.step dev0 dev1 t = .ok f') ∧
      ∀ source target, Across d₀ d₁ source target → source.nifp ≠ target.nifp →
        ∀ rx, Netmaps.wire source = [rx] → ∀ tx ∈ Netmaps.wire target,
          (f.world.traffic.transmitted (target.txRing tx)).Sublist
            (f.world.traffic.arrived (source.rxRing rx)) := by
  obtain ⟨d₀, d₁, hDevices, rfl, rfl, hJoined⟩ := joined_of_attachBoth hAttach hNames
  have hStart : Bridges bufs d₀ d₁ (start registry) :=
    ⟨hFresh.sound, hDevices, fun e hMem => absurd hMem List.not_mem_nil, hFresh.free.1⟩
  have hBridges : Bridges bufs d₀ d₁ f := by
    refine hReached.invariant (Bridges bufs d₀ d₁) hStart ?_
    intro f t f' hBridges hAdmitted hStep
    obtain ⟨f'', hStep', hBridges'⟩ := hBridges.step hJoined t hAdmitted
    rw [hStep] at hStep'
    cases hStep'
    exact hBridges'
  refine ⟨d₀, d₁, hDevices, rfl, rfl, hBridges.sound.account, hBridges.passes, fun t hAdmitted => ?_,
    fun source target hAcross hApart rx hOnly tx hMem => hBridges.sublist hAcross hApart hOnly hMem⟩
  obtain ⟨f', hStep, _⟩ := hBridges.step hJoined t hAdmitted
  exact ⟨f', hStep⟩

instance (f : Fuse) (t : Tick) : Decidable (f.Admitted t) :=
  match t with
  | .kernel _ => inferInstanceAs (Decidable (_ ∧ _))
  | .signal => inferInstanceAs (Decidable True)
  | .call _ => inferInstanceAs (Decidable True)

/-- Two packets come in on one device, where the other one has room for the first. -/
def twoPackets : List Tick :=
  [.kernel (.arrive ⟨0, .rx, 0⟩ [1, 2, 3] 0 ⟨0, 0⟩), .kernel (.grant ⟨1, .tx, 0⟩ ⟨0, 0⟩), .call none, .call none,
    .kernel (.reclaim ⟨0, .rx, 0⟩), .kernel (.arrive ⟨0, .rx, 0⟩ [4] 0 ⟨0, 0⟩), .call none, .call none, .call none,
    .kernel (.transmit ⟨1, .tx, 0⟩)]

/-- The first packet goes to the other device, and the second one is dropped. -/
theorem packet_bridged :
    ∃ f, attachBoth (.empty (.initial 2)) [97] [98] (some (0, 1)) (some (1, 1)) =
        some ⟨(World.initial 2 twoDevices).self, true⟩ ∧
      Run.drive (step [97] [98]) Admitted (start ⟨(World.initial 2 twoDevices).self, true⟩) twoPackets = some f ∧
      f.world.log = [⟨⟨0, .rx, 0⟩, [1, 2, 3], [1, 2, 3], [], .sent ⟨1, .tx, 0⟩⟩,
        ⟨⟨0, .rx, 0⟩, [4], [4], [⟨1, .tx, 0⟩], .dropped⟩] ∧
      f.world.traffic.transmitted ⟨1, .tx, 0⟩ = [[1, 2, 3]] ∧
      Accounted f.world f.world.log ∧ ∃ d₀ d₁, ∀ e ∈ f.world.log, e.Passes d₀ d₁ ∨ e.Passes d₁ d₀ := by
  have hAttach : attachBoth (.empty (.initial 2)) [97] [98] (some (0, 1)) (some (1, 1)) =
      some ⟨(World.initial 2 twoDevices).self, true⟩ := rfl
  have hRun : (Run.drive (step [97] [98]) Admitted (start ⟨(World.initial 2 twoDevices).self, true⟩) twoPackets).map
      (fun f => (f.world.log, f.world.traffic.transmitted ⟨1, .tx, 0⟩)) =
        some ([⟨⟨0, .rx, 0⟩, [1, 2, 3], [1, 2, 3], [], .sent ⟨1, .tx, 0⟩⟩,
          ⟨⟨0, .rx, 0⟩, [4], [4], [⟨1, .tx, 0⟩], .dropped⟩], [[1, 2, 3]]) := by
    decide +kernel
  obtain ⟨f, hDrive, hView⟩ := Option.map_eq_some_iff.mp hRun
  have hFresh := World.fresh_initial (show 0 < 2 by decide) twoDevices (by decide)
  obtain ⟨d₀, d₁, _, _, _, hAccount, hPasses, _⟩ := bridge_faithful (by decide) hAttach hFresh
    (Run.reached_of_drive .start hDrive)
  exact ⟨f, hAttach, hDrive, congrArg Prod.fst hView, congrArg Prod.snd hView, hAccount, d₀, d₁, hPasses⟩

end Fuse

end Peak.Netmap
