import Peak.Packet.Chain

/-! Layer arithmetic of the dissector. The IPv4 path checks its header length
against its total length, and the transport headers are checked against
`flow_len`. The IPv6 path checks nothing: `net_hlen` has eight bits, `net_len`
and `flow_len` sixteen. -/
namespace Peak.Packet

open ByteImage StateTransition

/-- The network header walk of a packet at `net` stops `offset` bytes behind
`net`: after the IPv4 header, or at the end of the IPv6 extension chain. -/
def StopsAt (m : Image) (macType net offset : Nat) : Prop :=
  (macType = ethertypeIp ∧ offset = ipHlen m net) ∨
  (macType = ethertypeIpv6 ∧ ∃ type, ChainReaches m net ⟨net + offset, type⟩ ∧
    extNext (total m) ⟨net + offset, type⟩ = none)

/-- Protocols whose header the dissector strips. -/
def isTransport (netType : Nat) : Prop :=
  netType = ipprotoTcp ∨ netType = ipprotoUdp ∨ netType = ipprotoIcmp

/-- The stored layer fields are the exact natural numbers. -/
structure LayersExact (m : Image) (p : Packet) : Prop where
  netHlen_le : p.netHlen ≤ p.netLen
  flowLen_eq : p.flowLen = p.netLen - p.netHlen
  flow_eq : ∃ net offset, p.net = some net ∧ StopsAt m p.macType net offset ∧
    p.flow = some (net + offset)
  app_eq : isTransport p.netType → p.flowHlen ≤ p.flowLen ∧
    p.appLen = p.flowLen - p.flowHlen ∧
    ∃ flow, p.flow = some flow ∧ p.app = some (flow + p.flowHlen)
  ipv6_netLen_eq : p.macType = ethertypeIpv6 →
    ∃ net, p.net = some net ∧ p.netLen = 40 + be16 m (net + 4)

/-- The header chain of an IPv6 packet fits its length fields: the total
length fits sixteen bits, the chain is at most 255 bytes long and ends within
the announced payload. Packets of other kinds are not concerned. -/
def HeadersFit (m : Image) (type : Nat) : Prop :=
  ∀ macVlan net offset, linkHeader m type = some (ethertypeIpv6, macVlan, net) →
    StopsAt m ethertypeIpv6 net offset →
      40 + be16 m (net + 4) < 65536 ∧ offset < 256 ∧ offset ≤ 40 + be16 m (net + 4)

theorem sub16_of_le {a b : Nat} (hle : b ≤ a) (ha : a < 65536) : sub16 a b = a - b := by
  unfold sub16
  omega

theorem sub16_lt (a b : Nat) : sub16 a b < 65536 := Nat.mod_lt _ (by decide)

/-- The transport step writes the application and port fields only. -/
theorem transport_frame (m : Image) (flow : Nat) (self : Packet) :
    ∃ app appLen sport dport hlen, (transport m flow self).2 =
      { self with app := app, appLen := appLen, flowSport := sport, flowDport := dport,
                  flowHlen := hlen } := by
  unfold transport tcp udp icmp
  split_ifs <;> exact ⟨_, _, _, _, _, rfl⟩

/-- An accepted transport header lies within `flow_len`, and the payload is
what it leaves. -/
theorem transport_accepts {m : Image} {flow : Nat} {self p : Packet}
    (h : transport m flow self = (0, p)) (hLen : self.flowLen < 65536)
    (hType : isTransport self.netType) :
    p.flowHlen ≤ self.flowLen ∧ p.appLen = self.flowLen - p.flowHlen ∧
      p.app = some (flow + p.flowHlen) := by
  unfold transport at h
  rcases hType with hTcp | hUdp | hIcmp
  · rw [if_pos hTcp] at h
    unfold tcp at h
    split_ifs at h with h1 h2 h3 h4 <;> cases h
    exact ⟨by simp only; omega, sub16_of_le (by omega) hLen, rfl⟩
  · rw [if_neg (by simp [hUdp, ipprotoTcp, ipprotoUdp]), if_pos hUdp] at h
    unfold udp at h
    split_ifs at h with h1 h2 h3 <;> cases h
    exact ⟨by simp only; omega, sub16_of_le (by omega) hLen, rfl⟩
  · rw [if_neg (by simp [hIcmp, ipprotoTcp, ipprotoIcmp]),
      if_neg (by simp [hIcmp, ipprotoUdp, ipprotoIcmp]), if_pos hIcmp] at h
    unfold icmp at h
    split_ifs at h with h1 <;> cases h
    exact ⟨by simp only; omega, sub16_of_le (by omega) hLen, rfl⟩

/-- What an accepted packet says about its flow: the start and length come
from the stored header length, the payload from the transport header. -/
structure FlowOf (net : Nat) (entry p : Packet) : Prop where
  net_eq : p.net = entry.net
  macType_eq : p.macType = entry.macType
  netLen_eq : p.netLen = entry.netLen
  netHlen_eq : p.netHlen = entry.netHlen
  flow_eq : p.flow = some (net + entry.netHlen)
  flowLen_eq : p.flowLen = sub16 entry.netLen entry.netHlen
  app_eq : isTransport p.netType → p.flowHlen ≤ p.flowLen ∧
    p.appLen = p.flowLen - p.flowHlen ∧
    ∃ flow, p.flow = some flow ∧ p.app = some (flow + p.flowHlen)

theorem flowLayer_accepts {m : Image} {net : Nat} {self p : Packet}
    (h : flowLayer m net self = (0, p)) : FlowOf net self p := by
  unfold flowLayer at h
  obtain ⟨app, appLen, sport, dport, hlen, hFrame⟩ := transport_frame m (net + self.netHlen)
    { self with flow := some (net + self.netHlen), flowLen := sub16 self.netLen self.netHlen }
  have hAccept := transport_accepts h (sub16_lt _ _)
  rw [h] at hFrame
  simp only at hFrame hAccept
  subst hFrame
  refine ⟨rfl, rfl, rfl, rfl, rfl, rfl, ?_⟩
  intro hType
  obtain ⟨hLe, hAppLen, hApp⟩ := hAccept hType
  exact ⟨hLe, hAppLen, net + self.netHlen, rfl, hApp⟩

/-- The layers are exact when the header walk stops at the stored header
length and the stored lengths were not cut. -/
theorem layersExact_of_flowOf {m : Image} {net offset : Nat} {self p : Packet}
    (hFlow : FlowOf net self p) (hNet : self.net = some net)
    (hStop : StopsAt m self.macType net offset) (hHlen : self.netHlen = offset)
    (hLe : self.netHlen ≤ self.netLen) (hLt : self.netLen < 65536)
    (hIpv6 : self.macType = ethertypeIpv6 → self.netLen = 40 + be16 m (net + 4)) :
    LayersExact m p where
  netHlen_le := by rw [hFlow.netHlen_eq, hFlow.netLen_eq]; exact hLe
  flowLen_eq := by
    rw [hFlow.flowLen_eq, hFlow.netHlen_eq, hFlow.netLen_eq, sub16_of_le hLe hLt]
  flow_eq := ⟨net, offset, hFlow.net_eq.trans hNet, hFlow.macType_eq ▸ hStop,
    by rw [hFlow.flow_eq, hHlen]⟩
  app_eq := hFlow.app_eq
  ipv6_netLen_eq := fun hType => ⟨net, hFlow.net_eq.trans hNet,
    hFlow.netLen_eq.trans (hIpv6 (hFlow.macType_eq ▸ hType))⟩

theorem ipHlen_lt (m : Image) (net : Nat) : ipHlen m net ≤ 60 := by
  unfold ipHlen
  omega

/-- Every accepted IPv4 packet has exact layers. -/
theorem ipv4_layersExact {m : Image} {net : Nat} {self p : Packet}
    (h : ipv4 m net self = (0, p)) (hNet : self.net = some net)
    (hType : self.macType = ethertypeIp) : LayersExact m p := by
  unfold ipv4 at h
  split_ifs at h with h1 h2 h3
  · cases h
  · cases h
  · cases h
  · refine layersExact_of_flowOf (flowLayer_accepts h) hNet
      (Or.inl ⟨hType, rfl⟩ : StopsAt m self.macType net (ipHlen m net)) rfl
      (by simp only; omega) (be16_lt m (net + 2)) ?_
    intro hIpv6
    rw [show self.macType = ethertypeIp from hType] at hIpv6
    exact absurd hIpv6 (by decide)

/-- Where the chain of one packet stops is determined. -/
theorem stopsAt_unique {m : Image} {net a b : Nat} (ha : StopsAt m ethertypeIpv6 net a)
    (hb : StopsAt m ethertypeIpv6 net b) : a = b := by
  have hNe : ethertypeIpv6 ≠ ethertypeIp := by decide
  rcases ha with ⟨h, -⟩ | ⟨-, typeA, hReachA, hStopA⟩
  · exact absurd h hNe
  rcases hb with ⟨h, -⟩ | ⟨-, typeB, hReachB, hStopB⟩
  · exact absurd h hNe
  have hSame := Part.mem_unique (mem_eval.mpr ⟨hReachA, hStopA⟩) (mem_eval.mpr ⟨hReachB, hStopB⟩)
  have hPos := congrArg ExtHeader.pos hSame
  simpa using hPos

/-- `peak_packet_ipv6` accepts at a header of the chain that is no extension.
It stores the chain offset modulo 256 and the total length modulo 65536. -/
theorem ipv6_accepts {fuel : Nat} {m : Image} {net : Nat} {self p : Packet}
    (h : ipv6 fuel m net self = some (0, p)) :
    ∃ e, ChainReaches m net e ∧ isVariable e.type = false ∧ e.type ≠ ipprotoFragment ∧
      p = { self with netLen := (40 + be16 m (net + 4)) % 65536,
                      netHlen := (e.pos - net) % 256, netType := e.type } := by
  unfold ipv6 at h
  cases hWalk : walk (total m) fuel (walkStart m net) with
  | none => simp [hWalk] at h
  | some e =>
      cases e with
      | outside => simp [hWalk] at h
      | returned code w =>
          cases code with
          | succ code => simp [hWalk] at h
          | zero =>
              simp only [hWalk, Option.some.injEq, Prod.mk.injEq, true_and] at h
              obtain ⟨hReach, -, hRet, hLe, hHlen⟩ := walk_returned hWalk
              have hLt := walk_netHlen_lt (show 40 < 256 by decide) hWalk
              simp only [walkStart] at hLe hHlen
              have hMod : w.netHlen = (w.nextHdr - net) % 256 := by omega
              have hEnd := walkStep_ret_zero hRet
              refine ⟨w.header, hReach, hEnd.1, hEnd.2, ?_⟩
              rw [← h, hMod]
              rfl

/-- A header of the chain that is no extension is where the walk stops. -/
theorem stopsAt_of_chainReaches {m : Image} {net : Nat} {e : ExtHeader}
    (hReach : ChainReaches m net e) (hVar : isVariable e.type = false)
    (hFrag : e.type ≠ ipprotoFragment) : StopsAt m ethertypeIpv6 net (e.pos - net) := by
  have hLe : net + 40 ≤ e.pos := pos_le_of_reaches hReach
  have hPos : (⟨net + (e.pos - net), e.type⟩ : ExtHeader) = e := by
    rw [show net + (e.pos - net) = e.pos by omega]
  refine Or.inr ⟨rfl, e.type, ?_, ?_⟩
  · rw [hPos]
    exact hReach
  · rw [hPos]
    exact extNext_of_not_extension hVar hFrag

/-- An IPv6 packet accepted with its chain ending at `offset` has exact
layers when nothing was cut, and only then. -/
theorem ipv6_layersExact_iff {m : Image} {net offset netType : Nat} {self p : Packet}
    (hStop : StopsAt m ethertypeIpv6 net offset) (hNet : self.net = some net)
    (hType : self.macType = ethertypeIpv6)
    (h : flowLayer m net { self with netLen := (40 + be16 m (net + 4)) % 65536,
                                     netHlen := offset % 256, netType := netType } = (0, p)) :
    LayersExact m p ↔ 40 + be16 m (net + 4) < 65536 ∧ offset < 256 ∧
      offset ≤ 40 + be16 m (net + 4) := by
  have hFlow := flowLayer_accepts h
  constructor
  · intro hExact
    obtain ⟨net', hNet', hLen⟩ := hExact.ipv6_netLen_eq (hFlow.macType_eq.trans hType)
    obtain rfl : net = net' := Option.some.inj (hNet.symm.trans (hFlow.net_eq.symm.trans hNet'))
    have hTotal := hLen.symm.trans hFlow.netLen_eq
    obtain ⟨net'', offset', hNet'', hStop', hFlowEq⟩ := hExact.flow_eq
    obtain rfl : net = net'' := Option.some.inj (hNet.symm.trans (hFlow.net_eq.symm.trans hNet''))
    rw [hFlow.macType_eq.trans hType] at hStop'
    obtain rfl := stopsAt_unique hStop hStop'
    have hPos := Option.some.inj (hFlowEq.symm.trans hFlow.flow_eq)
    have hLe := hExact.netHlen_le
    rw [hFlow.netHlen_eq, hLen] at hLe
    simp only at hTotal hPos hLe
    omega
  · rintro ⟨hTotal, hOffset, hLe⟩
    have hStop' : StopsAt m self.macType net offset := hType ▸ hStop
    refine layersExact_of_flowOf hFlow hNet hStop' ?_ ?_ ?_ ?_
    · exact Nat.mod_eq_of_lt hOffset
    · simp only [Nat.mod_eq_of_lt hTotal, Nat.mod_eq_of_lt hOffset]
      exact hLe
    · exact Nat.mod_lt _ (by decide)
    · intro _
      exact Nat.mod_eq_of_lt hTotal

/-- For every packet the dissector accepts as IPv4 or IPv6, the layer fields
are exact if and only if the IPv6 header chain fits its length fields. -/
theorem layersExact_iff_headersFit {fuel : Nat} {m : Image} {len type : Nat} {p : Packet}
    (h : parse fuel m len type = some (0, p))
    (hIp : p.macType = ethertypeIp ∨ p.macType = ethertypeIpv6) :
    LayersExact m p ↔ HeadersFit m type := by
  unfold parse at h
  cases hLink : linkHeader m type with
  | none => simp [hLink] at h
  | some link =>
      obtain ⟨macType, macVlan, net⟩ := link
      simp only [hLink] at h
      by_cases hMacIp : macType = ethertypeIp
      · rw [network_ip fuel m net hMacIp] at h
        have hExact := ipv4_layersExact (Option.some.inj h) rfl hMacIp
        refine iff_of_true hExact ?_
        intro vlan net' offset hLink'
        simp only [hLink, Option.some.injEq, Prod.mk.injEq] at hLink'
        exact absurd (hMacIp.symm.trans hLink'.1) (by decide)
      by_cases hMacIpv6 : macType = ethertypeIpv6
      · rw [network_ipv6 fuel m net hMacIpv6] at h
        split at h
        · rename_i p' hIpv6
          obtain ⟨e, hReach, hVar, hFrag, rfl⟩ := ipv6_accepts hIpv6
          have hStop := stopsAt_of_chainReaches hReach hVar hFrag
          rw [ipv6_layersExact_iff hStop rfl hMacIpv6 (Option.some.inj h)]
          constructor
          · intro hFit vlan net' offset' hLink' hStop'
            simp only [hLink, Option.some.injEq, Prod.mk.injEq] at hLink'
            obtain ⟨-, -, rfl⟩ := hLink'
            obtain rfl := stopsAt_unique hStop hStop'
            exact hFit
          · intro hFit
            exact hFit macVlan net (e.pos - net) (by rw [hLink, hMacIpv6]) hStop
        · rename_i r hNot
          exact (hNot p h).elim
      · rw [network_other fuel m net hMacIp hMacIpv6] at h
        cases h
        exact absurd hIp (by simp [linkPacket, hMacIp, hMacIpv6])

/-- An Ethernet frame with an IPv4 datagram of 28 bytes: an empty UDP
message from port 1 to port 2. -/
def emptyDatagram : Image := ofEntries
  [(12, 0x08), (14, 0x45), (17, 28), (23, 17), (35, 1), (37, 2), (39, 8)]

/-- How `emptyDatagram` is dissected. -/
def emptyDatagramPacket : Packet :=
  { mac := some 0, net := some 14, flow := some 34, app := some 42
    linkType := 1, macLen := 42, macType := 0x0800
    netSaddr := [0, 0, 0, 0, 0, 0, 0, 0, 0, 0, 255, 255, 0, 0, 0, 0]
    netDaddr := [0, 0, 0, 0, 0, 0, 0, 0, 0, 0, 255, 255, 0, 0, 0, 0]
    netFamily := 2, netLen := 28, netHlen := 20, netType := 17
    flowHlen := 8, flowLen := 8, flowSport := 1, flowDport := 2 }

theorem emptyDatagram_layersExact :
    parse 0 emptyDatagram 42 linktypeEthernet = some (0, emptyDatagramPacket) ∧
      HeadersFit emptyDatagram linktypeEthernet ∧
      LayersExact emptyDatagram emptyDatagramPacket := by
  have hParse : parse 0 emptyDatagram 42 linktypeEthernet = some (0, emptyDatagramPacket) := by
    decide +kernel
  have hFit : HeadersFit emptyDatagram linktypeEthernet := by
    intro macVlan net offset hLink
    have hIp : linkHeader emptyDatagram linktypeEthernet = some (ethertypeIp, 0, 14) := by decide
    have hSame := congrArg Prod.fst (Option.some.inj (hIp.symm.trans hLink))
    exact absurd hSame (show ethertypeIp ≠ ethertypeIpv6 by decide)
  exact ⟨hParse, hFit, (layersExact_iff_headersFit hParse (Or.inl rfl)).mpr hFit⟩

/-- An Ethernet frame with an IPv6 packet that announces no payload and still
carries a hop-by-hop header of eight bytes. -/
def headerBehindPayload : Image := ofEntries
  [(12, 0x86), (13, 0xDD), (14, 0x60), (54, 59), (55, 8)]

/-- How `headerBehindPayload` is dissected: 48 header bytes in a packet of 40
bytes, and a flow length that wraps around. -/
def headerBehindPayloadPacket : Packet :=
  { mac := some 0, net := some 14, flow := some 62
    linkType := 1, macLen := 62, macType := 0x86DD, netFamily := 10
    netLen := 40, netHlen := 48, netType := 59, flowLen := 65528 }

theorem headerBehindPayload_not_layersExact :
    parse 2 headerBehindPayload 62 linktypeEthernet = some (0, headerBehindPayloadPacket) ∧
      headerBehindPayloadPacket.macType = ethertypeIpv6 ∧
      ¬ LayersExact headerBehindPayload headerBehindPayloadPacket := by
  refine ⟨by decide +kernel, rfl, ?_⟩
  intro hExact
  exact absurd hExact.netHlen_le (by decide)

end Peak.Packet
