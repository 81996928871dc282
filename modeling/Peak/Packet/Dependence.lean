import Peak.Packet.Locality

/-! The converse of `Peak.Packet.Locality`: as soon as one deciding byte lies
at or behind `len`, two memories behind the same packet give two results. -/
namespace Peak.Packet

open ByteImage StateTransition

variable {m : Image} {len type : Nat}

theorem returns_unique {r r' : Nat × Packet} (h : Returns m len type r)
    (h' : Returns m len type r') : r = r' := by
  obtain ⟨fuel, hParse⟩ := h
  obtain ⟨fuel', hParse'⟩ := h'
  have hMono := parse_mono hParse (Nat.le_max_left fuel fuel')
  have hMono' := parse_mono hParse' (Nat.le_max_right fuel fuel')
  exact Option.some.inj (hMono.symm.trans hMono')

/-- Two continuations of the same packet must give the same result. -/
theorem LooksOnlyAtPacket.eq_of_splice (h : LooksOnlyAtPacket m len type) {t1 t2 : Image}
    {r1 r2 : Nat × Packet} (h1 : Returns (splice len m t1) len type r1)
    (h2 : Returns (splice len m t2) len type r2) : r1 = r2 := by
  have h1' := (h _ (splice_agree len m t1) r1).mp h1
  have h2' := (h _ (splice_agree len m t2) r2).mp h2
  exact returns_unique h1' h2'

section Link

theorem returns_other {macType macVlan net : Nat}
    (hLink : linkHeader m type = some (macType, macVlan, net)) (hIp : macType ≠ ethertypeIp)
    (hIpv6 : macType ≠ ethertypeIpv6) :
    Returns m len type (0, linkPacket len type macType macVlan net) :=
  ⟨0, by simp only [parse, hLink]; exact network_other 0 m net hIp hIpv6⟩

/-- A protocol number that ends in 1 or 2 is neither IPv4, IPv6 nor a VLAN. -/
private theorem not_known_of_low {low n : Nat} (hLow : low = 1 ∨ low = 2) (hn : n % 256 = low) :
    n ≠ ethertypeIp ∧ n ≠ ethertypeIpv6 ∧ n ≠ ethertypeVlan := by
  refine ⟨?_, ?_, ?_⟩ <;> rintro rfl <;> revert hn <;>
    rcases hLow with rfl | rfl <;> decide

private theorem be16_low {i low : Nat} (t : Image) (hi : len ≤ i + 1)
    (ht : byte t (i + 1) = low) : be16 (splice len m t) i % 256 = low := by
  have hLt := byte_lt t (i + 1)
  unfold be16
  rw [byte_splice_ge m t hi]
  omega

private theorem low_tail (i : Nat) (low : UInt8) : byte (ofEntries [(i, low)]) i = low.toNat := by
  simp [byte, ofEntries]

/-- If the protocol number `n` of the link header depends on a free byte, the
result does: the byte may be 1 or 2. -/
private theorem link_covered {i : Nat} (h : LooksOnlyAtPacket m len type)
    (hHeader : ∀ t, (byte t (i + 1) = 1 ∨ byte t (i + 1) = 2) →
      ∃ macVlan net, linkHeader (splice len m t) type =
        some (be16 (splice len m t) i, macVlan, net)) : i + 2 ≤ len := by
  by_contra hLen
  have hFree : len ≤ i + 1 := by omega
  have hBoth : ∀ low : UInt8, (low.toNat = 1 ∨ low.toNat = 2) →
      ∃ r : Nat × Packet, Returns (splice len m (ofEntries [(i + 1, low)])) len type r ∧
        r.2.macType % 256 = low.toNat := by
    intro low hLow
    have hTail := low_tail (i + 1) low
    obtain ⟨macVlan, net, hLink⟩ := hHeader _ (hTail.symm ▸ hLow)
    have hMod := be16_low (m := m) _ hFree hTail
    obtain ⟨hIp, hIpv6, -⟩ := not_known_of_low hLow hMod
    exact ⟨_, returns_other hLink hIp hIpv6, hMod⟩
  obtain ⟨r1, hR1, hMod1⟩ := hBoth 1 (Or.inl rfl)
  obtain ⟨r2, hR2, hMod2⟩ := hBoth 2 (Or.inr rfl)
  rw [h.eq_of_splice hR1 hR2] at hMod1
  exact absurd (hMod1.symm.trans hMod2) (by decide)

theorem LooksOnlyAtPacket.ethernet (h : LooksOnlyAtPacket m len linktypeEthernet) :
    14 ≤ len ∧ (be16 m 12 = ethertypeVlan → 18 ≤ len) := by
  have hNe : linktypeEthernet ≠ linktypeNull := by decide
  have hPlain : 12 + 2 ≤ len := by
    by_contra hLen
    refine hLen (link_covered h fun t ht => ⟨0, 14, ?_⟩)
    have hVlan : be16 (splice len m t) 12 ≠ ethertypeVlan := by
      rcases ht with ht | ht
      · exact (not_known_of_low (Or.inl rfl) (be16_low t (by omega) ht)).2.2
      · exact (not_known_of_low (Or.inr rfl) (be16_low t (by omega) ht)).2.2
    simp [linkHeader, hNe, hVlan]
  refine ⟨hPlain, ?_⟩
  intro hTag
  refine link_covered (i := 16) h fun t _ =>
    ⟨be16 (splice len m t) 14 &&& 0x0FFF, 18, ?_⟩
  have hSame : be16 (splice len m t) 12 = ethertypeVlan :=
    ((splice_agree len m t).be16 hPlain).trans hTag
  simp [linkHeader, hNe, hSame]

theorem LooksOnlyAtPacket.sll (h : LooksOnlyAtPacket m len linktypeLinuxSll) : 16 ≤ len := by
  refine link_covered (i := 14) h fun t _ => ⟨0, 16, ?_⟩
  simp [linkHeader, linktypeLinuxSll, linktypeNull, linktypeEthernet]

end Link

section Transport

variable {flow : Nat} {self : Packet}

/-- A TCP header that is acceptable wherever its bytes are free, with the
given flags. -/
def tcpTail (flow : Nat) (flags : UInt8) : Image :=
  ofEntries [(flow + 1, 1), (flow + 3, 1), (flow + 12, 0x50), (flow + 13, flags)]

private theorem port_ne_zero {i : Nat} {t : Image} (hKnown : i + 2 ≤ len → be16 m i ≠ 0)
    (hFree : byte t (i + 1) = 1) : be16 (splice len m t) i ≠ 0 := by
  by_cases hLen : i + 2 ≤ len
  · rw [(splice_agree len m t).be16 hLen]
    exact hKnown hLen
  · unfold be16
    rw [byte_splice_ge (i := i + 1) m t (by omega), hFree]
    omega

/-- Where the TCP header is not covered, the flags are free and decide. -/
theorem tcp_splits (hNot : ¬ TcpCovered m len flow self.flowLen) (flags : UInt8) :
    (tcp (splice len m (tcpTail flow flags)) flow self).1 =
      if tcpFlagsOk flags.toNat then 0 else 1 := by
  simp only [TcpCovered, not_or, not_and, not_lt] at hNot
  obtain ⟨hFlowLen, hSport, hDport, hHlen, hLen⟩ := hNot
  have hPorts : ¬ (be16 (splice len m (tcpTail flow flags)) flow = 0 ∨
      be16 (splice len m (tcpTail flow flags)) (flow + 2) = 0) := by
    rw [not_or]
    exact ⟨port_ne_zero hSport (by simp [tcpTail, byte, ofEntries]),
      port_ne_zero hDport (by simp [tcpTail, byte, ofEntries])⟩
  have hFlags : byte (splice len m (tcpTail flow flags)) (flow + 13) = flags.toNat := by
    rw [byte_splice_ge m _ (by omega)]
    simp [tcpTail, byte, ofEntries]
  have hTcpHlen : 20 ≤ tcpHlen (splice len m (tcpTail flow flags)) flow ∧
      tcpHlen (splice len m (tcpTail flow flags)) flow ≤ self.flowLen := by
    by_cases hKnown : flow + 13 ≤ len
    · rw [tcpHlen_congr (splice_agree len m _) hKnown]
      exact ⟨(hHlen hKnown).1, (hHlen hKnown).2⟩
    · have hFree : tcpHlen (splice len m (tcpTail flow flags)) flow = 20 := by
        unfold tcpHlen
        rw [byte_splice_ge m _ (by omega)]
        simp [tcpTail, byte, ofEntries]
      omega
  have hMax : tcpHlen (splice len m (tcpTail flow flags)) flow ≤ 60 := by
    have := byte_lt (splice len m (tcpTail flow flags)) (flow + 12)
    unfold tcpHlen
    omega
  unfold tcp
  rw [if_neg (by omega), if_neg (by omega), if_neg hPorts, hFlags]
  by_cases hOk : tcpFlagsOk flags.toNat = true
  · simp [hOk]
  · simp [hOk]

/-- A UDP header that is acceptable wherever its bytes are free, if its
length bytes are. -/
def udpTail (flow : Nat) (high low : UInt8) : Image :=
  ofEntries [(flow + 1, 1), (flow + 3, 1), (flow + 4, high), (flow + 5, low)]

/-- Where the UDP header is not covered, the low length byte is free, the high
length byte is free or zero, and they decide. -/
theorem udp_splits (hNot : ¬ UdpCovered m len flow self.flowLen) (low : UInt8) :
    (udp (splice len m (udpTail flow 0 low)) flow self).1 = if low.toNat < 8 then 1 else 0 := by
  simp only [UdpCovered, not_or, not_and, not_lt, ne_eq, not_not] at hNot
  obtain ⟨hFlowLen, hSport, hDport, hHigh, hLen⟩ := hNot
  have hPorts : ¬ (be16 (splice len m (udpTail flow 0 low)) flow = 0 ∨
      be16 (splice len m (udpTail flow 0 low)) (flow + 2) = 0) := by
    rw [not_or]
    exact ⟨port_ne_zero hSport (by simp [udpTail, byte, ofEntries]),
      port_ne_zero hDport (by simp [udpTail, byte, ofEntries])⟩
  have hUlen : be16 (splice len m (udpTail flow 0 low)) (flow + 4) = low.toNat := by
    have hLow : byte (splice len m (udpTail flow 0 low)) (flow + 4 + 1) = low.toNat := by
      rw [byte_splice_ge m _ (by omega)]
      simp [udpTail, byte, ofEntries]
    have hZero : byte (splice len m (udpTail flow 0 low)) (flow + 4) = 0 := by
      by_cases hKnown : flow + 5 ≤ len
      · rw [byte_splice_lt m _ (by omega)]
        exact hHigh hKnown
      · rw [byte_splice_ge m _ (by omega)]
        simp [udpTail, byte, ofEntries]
    unfold be16
    rw [hLow, hZero]
    omega
  unfold udp
  rw [if_neg (by omega), if_neg hPorts, hUlen]
  by_cases hShort : low.toNat < 8
  · rw [if_pos (by omega), if_pos hShort]
  · rw [if_neg (by omega), if_neg hShort]

/-- Where the transport header is not covered, one continuation is accepted
and another one is dropped. -/
theorem transport_splits (self : Packet)
    (hNot : ¬ TransportCovered m len self.netType flow self.flowLen) :
    ∃ t1 t2, (transport (splice len m t1) flow self).1 = 0 ∧
      (transport (splice len m t2) flow self).1 = 1 := by
  by_cases hTcp : self.netType = ipprotoTcp
  · have hUdp : self.netType ≠ ipprotoUdp := by simp [hTcp, ipprotoTcp, ipprotoUdp]
    have hNotTcp : ¬ TcpCovered m len flow self.flowLen := by
      intro hCovered
      exact hNot ⟨fun _ => hCovered, fun h => absurd h hUdp⟩
    refine ⟨tcpTail flow 0x10, tcpTail flow 0, ?_, ?_⟩
    · simp only [transport, if_pos hTcp]
      rw [tcp_splits hNotTcp]
      decide
    · simp only [transport, if_pos hTcp]
      rw [tcp_splits hNotTcp]
      decide
  · have hUdp : self.netType = ipprotoUdp := by
      by_contra hUdp
      exact hNot ⟨fun h => absurd h hTcp, fun h => absurd h hUdp⟩
    have hNotUdp : ¬ UdpCovered m len flow self.flowLen := by
      intro hCovered
      exact hNot ⟨fun h => absurd h hTcp, fun _ => hCovered⟩
    refine ⟨udpTail flow 0 8, udpTail flow 0 0, ?_, ?_⟩
    · simp only [transport, if_neg hTcp, if_pos hUdp]
      rw [udp_splits hNotUdp]
      decide
    · simp only [transport, if_neg hTcp, if_pos hUdp]
      rw [udp_splits hNotUdp]
      decide

end Transport

section Ipv4

variable {macVlan net : Nat}

theorem returns_ip (hLink : linkHeader m type = some (ethertypeIp, macVlan, net)) :
    Returns m len type (ipv4 m net (linkPacket len type ethertypeIp macVlan net)) :=
  ⟨0, by simp only [parse, hLink]; exact network_ip 0 m net rfl⟩

/-- An IPv4 header that passes its checks is stored before the transport
header is looked at. -/
theorem ipv4_passes {self : Packet} (hVersion : byte m net / 16 = ipversion)
    (hHlen : 20 ≤ ipHlen m net) (hTotal : ipHlen m net ≤ be16 m (net + 2)) :
    ipv4 m net self = flowLayer m net
      { self with
        netSaddr := netaddr4 m (net + 12)
        netDaddr := netaddr4 m (net + 16)
        netFamily := afInet
        netType := byte m (net + 9)
        netHlen := ipHlen m net
        netLen := be16 m (net + 2) } := by
  unfold ipv4
  rw [if_neg (not_not.mpr hVersion), if_neg (by omega), if_neg (by omega)]

theorem flowLayer_frame (m : Image) (net : Nat) (self : Packet) :
    (flowLayer m net self).2.netDaddr = self.netDaddr ∧
      (flowLayer m net self).2.netFamily = self.netFamily ∧
      (flowLayer m net self).2.netLen = self.netLen ∧
      (flowLayer m net self).2.netHlen = self.netHlen ∧
      (flowLayer m net self).2.netType = self.netType := by
  obtain ⟨app, appLen, sport, dport, hlen, hFrame⟩ := transport_frame m (net + self.netHlen)
    { self with flow := some (net + self.netHlen), flowLen := sub16 self.netLen self.netHlen }
  unfold flowLayer
  rw [hFrame]
  exact ⟨rfl, rfl, rfl, rfl, rfl⟩

/-- What an IPv4 packet with a covered fixed header hands to the transport
step does not depend on what follows the packet. -/
private theorem ipv4_splice_transport (self : Packet) (hLen : net + 20 ≤ len)
    (hVersion : byte m net / 16 = ipversion) (hHlen : 20 ≤ ipHlen m net)
    (hTotal : ipHlen m net ≤ be16 m (net + 2)) :
    ∃ inner : Packet, inner.netType = byte m (net + 9) ∧
      inner.flowLen = be16 m (net + 2) - ipHlen m net ∧
      ∀ t, ipv4 (splice len m t) net self =
        transport (splice len m t) (net + ipHlen m net) inner := by
  refine ⟨{ self with
      netSaddr := netaddr4 m (net + 12), netDaddr := netaddr4 m (net + 16), netFamily := afInet
      netType := byte m (net + 9), netHlen := ipHlen m net, netLen := be16 m (net + 2)
      flow := some (net + ipHlen m net), flowLen := sub16 (be16 m (net + 2)) (ipHlen m net) },
    rfl, sub16_of_le hTotal (be16_lt _ _), ?_⟩
  intro t
  have hAgree := splice_agree len m t
  have hByte := hAgree.byte (show net < len by omega)
  have hSameHlen : ipHlen (splice len m t) net = ipHlen m net := by simp only [ipHlen, hByte]
  have hSameTotal := hAgree.be16 (show net + 2 + 2 ≤ len by omega)
  rw [ipv4_passes (by rw [hByte]; exact hVersion) (by omega) (by omega)]
  simp only [flowLayer, hSameHlen, hSameTotal, netaddr4,
    hAgree.bytes (show net + 12 + 4 ≤ len by omega),
    hAgree.bytes (show net + 16 + 4 ≤ len by omega), hAgree.byte (show net + 9 < len by omega)]

variable (h : LooksOnlyAtPacket m len type)
  (hSplice : ∀ t, linkHeader (splice len m t) type = some (ethertypeIp, macVlan, net))

include h hSplice

private theorem ipv4_first : net + 1 ≤ len := by
  by_contra hLen
  have hFree : len ≤ net := by omega
  have hDropped : (ipv4 (splice len m (ofEntries [])) net
      (linkPacket len type ethertypeIp macVlan net)).2.netFamily = 0 := by
    unfold ipv4
    rw [byte_splice_ge m _ hFree, if_pos (by simp [ipversion])]
    rfl
  -- An IPv4 header of twenty bytes with nothing behind it.
  let good : Image := splice len m (ofEntries [(net, 0x45), (net + 3, 20)])
  have hFirst : byte good net = 0x45 := by
    rw [byte_splice_ge m _ hFree]
    simp
  have hHigh : byte good (net + 2) = 0 := by
    rw [byte_splice_ge m _ (by omega), byte_ofEntries_skip (by omega),
      byte_ofEntries_skip (by omega)]
    rfl
  have hLow : byte good (net + 3) = 20 := by
    rw [byte_splice_ge m _ (by omega), byte_ofEntries_skip (by omega)]
    simp
  have hHlen : ipHlen good net = 20 := by rw [ipHlen, hFirst]
  have hTotal : be16 good (net + 2) = 20 := by rw [be16, hHigh, hLow]
  have hAccepted : (ipv4 good net
      (linkPacket len type ethertypeIp macVlan net)).2.netFamily = afInet := by
    rw [ipv4_passes (by rw [hFirst]; decide) (by omega) (by omega)]
    exact (flowLayer_frame _ _ _).2.1
  have hSame := h.eq_of_splice (returns_ip (hSplice (ofEntries [])))
    (returns_ip (hSplice (ofEntries [(net, 0x45), (net + 3, 20)])))
  rw [← hSame, hDropped] at hAccepted
  exact absurd hAccepted (by decide)

private theorem ipv4_total (hVersion : byte m net / 16 = ipversion)
    (hHlen : 20 ≤ ipHlen m net) : net + 4 ≤ len := by
  have hFirst := ipv4_first h hSplice
  by_contra hLen
  have hBoth : ∀ low : UInt8, 60 ≤ low.toNat →
      (ipv4 (splice len m (ofEntries [(net + 3, low)])) net
        (linkPacket len type ethertypeIp macVlan net)).2.netLen % 256 = low.toNat := by
    intro low hLow
    have hByte : byte (splice len m (ofEntries [(net + 3, low)])) net = byte m net :=
      byte_splice_lt m _ (by omega)
    have hSameHlen : ipHlen (splice len m (ofEntries [(net + 3, low)])) net = ipHlen m net := by
      simp only [ipHlen, hByte]
    have hMax := ipHlen_lt m net
    have hFree : byte (splice len m (ofEntries [(net + 3, low)])) (net + 2 + 1) = low.toNat := by
      rw [byte_splice_ge m _ (by omega)]
      simp
    have hLt := byte_lt (splice len m (ofEntries [(net + 3, low)])) (net + 2 + 1)
    rw [ipv4_passes (by rw [hByte]; exact hVersion) (by omega) (by unfold be16; omega),
      (flowLayer_frame _ _ _).2.2.1]
    simp only [be16]
    omega
  have h1 := hBoth 100 (by decide)
  have h2 := hBoth 101 (by decide)
  rw [h.eq_of_splice (returns_ip (hSplice (ofEntries [(net + 3, 100)])))
    (returns_ip (hSplice (ofEntries [(net + 3, 101)])))] at h1
  exact absurd (h1.symm.trans h2) (by decide)

private theorem ipv4_addresses (hVersion : byte m net / 16 = ipversion)
    (hHlen : 20 ≤ ipHlen m net) (hTotal : ipHlen m net ≤ be16 m (net + 2)) : net + 20 ≤ len := by
  have hKnown := ipv4_total h hSplice hVersion hHlen
  by_contra hLen
  have hBoth : ∀ last : UInt8,
      (ipv4 (splice len m (ofEntries [(net + 19, last)])) net
        (linkPacket len type ethertypeIp macVlan net)).2.netDaddr =
      netaddr4 (splice len m (ofEntries [(net + 19, last)])) (net + 16) := by
    intro last
    have hAgree := splice_agree len m (ofEntries [(net + 19, last)])
    have hByte := hAgree.byte (show net < len by omega)
    have hSameHlen : ipHlen (splice len m (ofEntries [(net + 19, last)])) net = ipHlen m net := by
      simp only [ipHlen, hByte]
    rw [ipv4_passes (by rw [hByte]; exact hVersion) (by omega)
      (by rw [hSameHlen, hAgree.be16 (by omega)]; exact hTotal)]
    exact (flowLayer_frame _ _ _).1
  have h0 := hBoth 0
  rw [h.eq_of_splice (returns_ip (hSplice (ofEntries [(net + 19, 0)])))
    (returns_ip (hSplice (ofEntries [(net + 19, 1)]))), hBoth 1] at h0
  have hByte := eq_of_bytes_eq (List.append_cancel_left h0) (show 3 < 4 by decide)
  simp [splice, ofEntries, show ¬ net + 16 + 3 < len by omega] at hByte

theorem LooksOnlyAtPacket.ipv4 : Ipv4Covered m len net := by
  refine ⟨ipv4_first h hSplice, ?_⟩
  intro hVersion hHlen
  refine ⟨ipv4_total h hSplice hVersion hHlen, ?_⟩
  intro hTotal
  have hLen := ipv4_addresses h hSplice hVersion hHlen hTotal
  refine ⟨hLen, ?_⟩
  by_contra hNot
  obtain ⟨inner, hType, hFlowLen, hInner⟩ := ipv4_splice_transport
    (linkPacket len type ethertypeIp macVlan net) hLen hVersion hHlen hTotal
  rw [← hType, ← hFlowLen] at hNot
  obtain ⟨t1, t2, hAccept, hDrop⟩ := transport_splits inner hNot
  have hSame := h.eq_of_splice (returns_ip (hSplice t1)) (returns_ip (hSplice t2))
  rw [hInner, hInner] at hSame
  rw [hSame, hDrop] at hAccept
  exact absurd hAccept (by decide)

end Ipv4

section Ipv6

variable {macVlan net : Nat}

/-- Once the loop has returned, the packet carries the destination address,
the header length at the end of the loop and, if accepted, the final type. -/
theorem returns_ipv6 (hLink : linkHeader m type = some (ethertypeIpv6, macVlan, net))
    {fuel code : Nat} {w : Walk}
    (hWalk : walk (total m) fuel (walkStart m net) = some (.returned code w)) :
    ∃ r : Nat × Packet, Returns m len type r ∧ r.2.netDaddr = netaddr6 m (net + 24) ∧
      r.2.netHlen = w.netHlen ∧ (code = 0 → r.2.netType = w.nextType) := by
  have hParse : parse fuel m len type =
      network fuel m net (linkPacket len type ethertypeIpv6 macVlan net) := by
    simp only [parse, hLink]
  rw [network_ipv6 fuel m net rfl] at hParse
  cases code with
  | zero =>
      simp only [ipv6, hWalk] at hParse
      obtain ⟨hDaddr, -, -, hHlen, hType⟩ := flowLayer_frame m net
        { ipv6Packet m net (linkPacket len type ethertypeIpv6 macVlan net) with
          netLen := (40 + be16 m (net + 4)) % 65536, netHlen := w.netHlen, netType := w.nextType }
      exact ⟨_, ⟨fuel, hParse⟩, hDaddr, hHlen, fun _ => hType⟩
  | succ code =>
      simp only [ipv6, hWalk] at hParse
      exact ⟨_, ⟨fuel, hParse⟩, rfl, rfl, fun hCode => absurd hCode (by omega)⟩

/-- The loop passes every header of the chain, with `net_hlen` advanced by
the distance. -/
theorem walk_passes {read : Nat → Option UInt8} {w : Walk} {h : ExtHeader}
    (hReach : Reaches (extNext read) w.header h) (hLt : w.netHlen < 256) :
    ∃ passes at_, Walk.header at_ = h ∧ at_.netHlen < 256 ∧
      at_.netHlen = (w.netHlen + (h.pos - w.nextHdr)) % 256 ∧
      ∀ fuel, walk read (fuel + passes) w = walk read fuel at_ := by
  induction hReach with
  | refl => exact ⟨0, w, rfl, hLt, by simp [Walk.header, Nat.mod_eq_of_lt hLt], fun _ => rfl⟩
  | @tail prior h hPrior hNext ih =>
      obtain ⟨passes, at_, rfl, hAtLt, hAtHlen, hAtWalk⟩ := ih
      cases hStep : walkStep read at_ with
      | next w' =>
          obtain ⟨hNext', hLe, hHlen⟩ := walkStep_next hStep
          obtain rfl := Option.some.inj (hNext'.symm.trans hNext)
          have hPos : w.nextHdr ≤ at_.nextHdr := pos_le_of_reaches hPrior
          refine ⟨passes + 1, w', rfl, by rw [hHlen]; exact Nat.mod_lt _ (by decide), ?_, ?_⟩
          · rw [hHlen, hAtHlen]
            simp only [Walk.header]
            omega
          · intro fuel
            rw [← Nat.add_assoc, Nat.add_right_comm, hAtWalk, walk, hStep]
      | ret code =>
          rw [walkStep_stop (by simp [hStep])] at hNext
          cases hNext
      | outside =>
          rw [walkStep_stop (by simp [hStep])] at hNext
          cases hNext

/-- With 59 and 1 at the next header the loop ends within two passes: a
variable header is refused, a fragment announces no next header. -/
theorem walk_ends_at {m : Image} {w : Walk} (hNxt : byte m w.nextHdr = ipprotoNone)
    (hLen : byte m (w.nextHdr + 1) = 1) :
    ∃ code e, walk (total m) 2 w = some (.returned code e) ∧
      (e.netHlen = w.netHlen ∨ e.netHlen = (w.netHlen + 8) % 256) := by
  by_cases hVar : isVariable w.nextType = true
  · have hRet : walkStep (total m) w = .ret 1 := by
      rw [walkStep_variable m hVar, hLen]
      rfl
    exact ⟨1, w, walk_of_ret hRet 1, Or.inl rfl⟩
  by_cases hFrag : w.nextType = ipprotoFragment
  · have hNext := walkStep_fragment m hFrag
    rw [hNxt] at hNext
    have hNone : isVariable ipprotoNone = false := by decide
    have hNotFrag : ipprotoNone ≠ ipprotoFragment := by decide
    exact ⟨0, _, (walk_of_next hNext 1).trans (walk_of_ret (walkStep_end hNone hNotFrag) 0),
      Or.inr rfl⟩
  · exact ⟨0, w, walk_of_ret (walkStep_end (by simpa using hVar) hFrag) 1, Or.inl rfl⟩

/-- The loop accepts at a header of the chain that is no extension. -/
theorem ipv6_of_chainReaches {hdr : ExtHeader} (hReach : ChainReaches m net hdr)
    (hVar : isVariable hdr.type = false) (hFrag : hdr.type ≠ ipprotoFragment) (self : Packet) :
    ∃ fuel p, ipv6 fuel m net self = some (0, p) ∧ p.netHlen = (hdr.pos - net) % 256 ∧
      p.netType = hdr.type ∧ p.netLen = (40 + be16 m (net + 4)) % 65536 := by
  obtain ⟨passes, w, hHead, -, hHlen, hWalk⟩ :=
    walk_passes (w := walkStart m net) hReach (show 40 < 256 by decide)
  have hType : w.nextType = hdr.type := congrArg ExtHeader.type hHead
  have hPos : net + 40 ≤ hdr.pos := pos_le_of_reaches hReach
  have hEnd : walk (total m) (1 + passes) (walkStart m net) = some (.returned 0 w) := by
    rw [hWalk]
    exact walk_of_ret (walkStep_end (by rw [hType]; exact hVar) (by rw [hType]; exact hFrag)) 0
  have hRes : ipv6 (1 + passes) m net self = some (0,
      { self with netLen := (40 + be16 m (net + 4)) % 65536, netHlen := w.netHlen,
                  netType := w.nextType }) := by
    simp only [ipv6, hEnd]
  refine ⟨1 + passes, _, hRes, ?_, hType, rfl⟩
  rw [hHlen]
  simp only [walkStart]
  rw [show 40 + (hdr.pos - (net + 40)) = hdr.pos - net by omega]

variable (h : LooksOnlyAtPacket m len type)
  (hSplice : ∀ t, linkHeader (splice len m t) type = some (ethertypeIpv6, macVlan, net))

include h hSplice

private theorem ipv6_fixed : net + 40 ≤ len := by
  by_contra hLen
  let tail (last : UInt8) : Image := ofEntries [(net + 39, last), (net + 40, 59), (net + 41, 1)]
  have hBoth : ∀ last : UInt8, ∃ r : Nat × Packet,
      Returns (splice len m (tail last)) len type r ∧
      r.2.netDaddr = netaddr6 (splice len m (tail last)) (net + 24) := by
    intro last
    have hNxt : byte (splice len m (tail last)) (net + 40) = ipprotoNone := by
      rw [byte_splice_ge m _ (by omega), byte_ofEntries_skip (by omega)]
      simp [ipprotoNone]
    have hOne : byte (splice len m (tail last)) (net + 40 + 1) = 1 := by
      rw [byte_splice_ge m _ (by omega), byte_ofEntries_skip (by omega),
        byte_ofEntries_skip (by omega)]
      simp
    obtain ⟨code, e, hWalk, -⟩ :=
      walk_ends_at (w := walkStart (splice len m (tail last)) net) hNxt hOne
    obtain ⟨r, hReturns, hDaddr, -⟩ := returns_ipv6 (hSplice _) hWalk
    exact ⟨r, hReturns, hDaddr⟩
  obtain ⟨r0, hR0, hDaddr0⟩ := hBoth 0
  obtain ⟨r1, hR1, hDaddr1⟩ := hBoth 1
  rw [h.eq_of_splice hR0 hR1, hDaddr1] at hDaddr0
  have hByte := eq_of_bytes_eq hDaddr0 (show 15 < 16 by decide)
  simp [tail, splice, ofEntries, show ¬ net + 24 + 15 < len by omega] at hByte

variable {hdr : ExtHeader} (hReach : ∀ t, ChainReaches (splice len m t) net hdr)

include hReach

/-- At a variable header with a free length byte, the length 1 drops the
packet on the spot and the length 8 moves on. -/
private theorem variable_covered (hVar : isVariable hdr.type = true) : hdr.pos + 2 ≤ len := by
  by_contra hLen
  let dropped : Image := splice len m (ofEntries [(hdr.pos + 1, 1)])
  let longer : Image := splice len m
    (ofEntries [(hdr.pos + 1, 8), (hdr.pos + 8, 59), (hdr.pos + 9, 1)])
  have hDropLen : byte dropped (hdr.pos + 1) = 1 := by
    rw [byte_splice_ge m _ (by omega)]
    simp
  have hLongLen : byte longer (hdr.pos + 1) = 8 := by
    rw [byte_splice_ge m _ (by omega)]
    simp
  have hLongNxt : byte longer (hdr.pos + 8) = ipprotoNone := by
    rw [byte_splice_ge m _ (by omega), byte_ofEntries_skip (by omega)]
    simp [ipprotoNone]
  have hLongOne : byte longer (hdr.pos + 8 + 1) = 1 := by
    rw [byte_splice_ge m _ (by omega), byte_ofEntries_skip (by omega),
      byte_ofEntries_skip (by omega)]
    simp
  obtain ⟨passes1, w1, hHead1, hLt1, hHlen1, hWalk1⟩ :=
    walk_passes (w := walkStart dropped net) (hReach _) (show 40 < 256 by decide)
  obtain ⟨passes2, w2, hHead2, hLt2, hHlen2, hWalk2⟩ :=
    walk_passes (w := walkStart longer net) (hReach _) (show 40 < 256 by decide)
  have hSameHlen : w2.netHlen = w1.netHlen := hHlen2.trans hHlen1.symm
  have hPos1 : w1.nextHdr = hdr.pos := congrArg ExtHeader.pos hHead1
  have hPos2 : w2.nextHdr = hdr.pos := congrArg ExtHeader.pos hHead2
  have hVar1 : isVariable w1.nextType = true := by rw [← hHead1] at hVar; exact hVar
  have hVar2 : isVariable w2.nextType = true := by rw [← hHead2] at hVar; exact hVar
  have hEnd1 : walk (total dropped) (1 + passes1) (walkStart dropped net) =
      some (.returned 1 w1) := by
    have hRet : walkStep (total dropped) w1 = .ret 1 := by
      rw [walkStep_variable dropped hVar1, hPos1, hDropLen]
      rfl
    rw [hWalk1]
    exact walk_of_ret hRet 0
  obtain ⟨code, e, hEnd, hHlen⟩ := walk_ends_at
    (w := { nextHdr := hdr.pos + 8, nextType := byte longer hdr.pos
            netHlen := (w2.netHlen + 8) % 256 }) hLongNxt hLongOne
  have hEnd2 : walk (total longer) (3 + passes2) (walkStart longer net) =
      some (.returned code e) := by
    have hNext := walkStep_variable longer hVar2
    rw [hPos2, hLongLen, if_neg (by decide)] at hNext
    rw [hWalk2]
    exact (walk_of_next hNext 2).trans hEnd
  obtain ⟨r1, hR1, -, hRes1, -⟩ := returns_ipv6 (hSplice _) hEnd1
  obtain ⟨r2, hR2, -, hRes2, -⟩ := returns_ipv6 (hSplice _) hEnd2
  rw [h.eq_of_splice hR1 hR2, hRes2] at hRes1
  simp only at hHlen
  omega

/-- At a free fragment header, two next types give two packets. -/
private theorem fragment_covered (hFrag : hdr.type = ipprotoFragment) : hdr.pos + 1 ≤ len := by
  by_contra hLen
  have hBoth : ∀ nxt : UInt8, isVariable nxt.toNat = false → nxt.toNat ≠ ipprotoFragment →
      ∃ r : Nat × Packet, Returns (splice len m (ofEntries [(hdr.pos, nxt)])) len type r ∧
        r.2.netType = nxt.toNat := by
    intro nxt hVar hNotFrag
    let image : Image := splice len m (ofEntries [(hdr.pos, nxt)])
    have hByte : byte image hdr.pos = nxt.toNat := by
      rw [byte_splice_ge m _ (by omega)]
      simp
    obtain ⟨passes, w, hHead, -, -, hWalk⟩ :=
      walk_passes (w := walkStart image net) (hReach _) (show 40 < 256 by decide)
    have hPos : w.nextHdr = hdr.pos := congrArg ExtHeader.pos hHead
    have hType : w.nextType = ipprotoFragment := (congrArg ExtHeader.type hHead).trans hFrag
    have hNext := walkStep_fragment image hType
    rw [hPos, hByte] at hNext
    have hEnd := (hWalk 2).trans
      ((walk_of_next hNext 1).trans (walk_of_ret (walkStep_end hVar hNotFrag) 0))
    obtain ⟨r, hR, -, -, hRes⟩ := returns_ipv6 (hSplice _) hEnd
    exact ⟨r, hR, hRes rfl⟩
  obtain ⟨r1, hR1, hType1⟩ := hBoth 58 (by decide) (by decide)
  obtain ⟨r2, hR2, hType2⟩ := hBoth 59 (by decide) (by decide)
  rw [h.eq_of_splice hR1 hR2, hType2] at hType1
  exact absurd hType1 (by decide)

/-- A header that every continuation of the packet reaches is covered. -/
private theorem header_covered : HeaderCovered len hdr :=
  ⟨variable_covered h hSplice hReach, fragment_covered h hSplice hReach⟩

omit hReach

/-- The chain of a packet that is dissected from its own bytes is covered,
and every continuation of the packet has the same chain. -/
private theorem chain_covered (hFixed : net + 40 ≤ len) {hdr : ExtHeader}
    (hReach : ChainReaches m net hdr) :
    HeaderCovered len hdr ∧ ∀ t, ChainReaches (splice len m t) net hdr := by
  have hFirst : ∀ t, byte (splice len m t) (net + 6) = byte m (net + 6) :=
    fun t => byte_splice_lt m t (by omega)
  unfold ChainReaches at hReach
  induction hReach with
  | refl =>
      have hAll : ∀ t, ChainReaches (splice len m t) net ⟨net + 40, byte m (net + 6)⟩ := by
        intro t
        unfold ChainReaches
        rw [hFirst t]
        exact .refl
      exact ⟨header_covered h hSplice hAll, hAll⟩
  | tail _ hNext ih =>
      have hAll := fun t => (ih.2 t).tail
        ((extNext_congr (splice_agree len m t) ih.1).trans hNext)
      exact ⟨header_covered h hSplice hAll, hAll⟩

theorem LooksOnlyAtPacket.ipv6 : Ipv6Covered m len net := by
  have hFixed := ipv6_fixed h hSplice
  have hChain : ∀ hdr, ChainReaches m net hdr → HeaderCovered len hdr :=
    fun hdr hReach => (chain_covered h hSplice hFixed hReach).1
  refine ⟨hFixed, hChain, ?_⟩
  intro hdr hReach hVar hFrag
  by_contra hNot
  obtain ⟨fuel, p, hIpv6, hHlen, hType, hLen⟩ := ipv6_of_chainReaches hReach hVar hFrag
    (ipv6Packet m net (linkPacket len type ethertypeIpv6 macVlan net))
  have hReturns : ∀ t, Returns (splice len m t) len type (flowLayer (splice len m t) net p) := by
    intro t
    have hNetwork := network_ipv6 fuel (splice len m t) net
      (show (linkPacket len type ethertypeIpv6 macVlan net).macType = ethertypeIpv6 from rfl)
    rw [ipv6_congr (splice_agree len m t) hFixed hChain, hIpv6] at hNetwork
    refine ⟨fuel, ?_⟩
    simp only [parse, hSplice t]
    exact hNetwork
  rw [← hHlen, ← hLen, ← hType] at hNot
  obtain ⟨t1, t2, hAccept, hDrop⟩ := transport_splits
    { p with flow := some (net + p.netHlen), flowLen := sub16 p.netLen p.netHlen } hNot
  have hSame := h.eq_of_splice (hReturns t1) (hReturns t2)
  unfold flowLayer at hSame
  rw [hSame, hDrop] at hAccept
  exact absurd hAccept (by decide)

end Ipv6

/-- What follows a packet never changes its dissection if and only if every
byte that decides the dissection lies below `len`. -/
theorem looksOnlyAtPacket_iff_covered (m : Image) (len type : Nat) :
    LooksOnlyAtPacket m len type ↔ Covered m len type := by
  constructor
  · intro h
    have hEthernet : type = linktypeEthernet →
        14 ≤ len ∧ (be16 m 12 = ethertypeVlan → 18 ≤ len) := by
      rintro rfl
      exact h.ethernet
    have hSll : type = linktypeLinuxSll → 16 ≤ len := by
      rintro rfl
      exact h.sll
    have hLink : ∀ t, linkHeader (splice len m t) type = linkHeader m type :=
      fun t => linkHeader_congr (splice_agree len m t) hEthernet hSll
    exact
      { ethernet := hEthernet
        sll := hSll
        ipv4 := fun macVlan net hIp => h.ipv4 fun t => (hLink t).trans hIp
        ipv6 := fun macVlan net hIpv6 => h.ipv6 fun t => (hLink t).trans hIpv6 }
  · intro hCovered m' hAgree r
    exact exists_congr fun fuel => by rw [parse_congr hAgree hCovered]

/-- A captured Ethernet header that announces IPv4, in a cleared buffer. -/
def bareHeader : Image := ofEntries [(12, 0x08)]

/-- The same fourteen captured bytes are dropped in a cleared buffer and
accepted as a datagram where the buffer still holds one. -/
theorem bareHeader_depends_on_stale_bytes :
    Agree 14 bareHeader emptyDatagram ∧
      (parse 0 bareHeader 14 linktypeEthernet).map Prod.fst = some 1 ∧
      (parse 0 emptyDatagram 14 linktypeEthernet).map Prod.fst = some 0 ∧
      ¬ LooksOnlyAtPacket bareHeader 14 linktypeEthernet := by
  have hAgree : Agree 14 bareHeader emptyDatagram := by unfold Agree; decide
  have hDropped : (parse 0 bareHeader 14 linktypeEthernet).map Prod.fst = some 1 := by decide
  have hAccepted : (parse 0 emptyDatagram 14 linktypeEthernet).map Prod.fst = some 0 := by
    decide +kernel
  refine ⟨hAgree, hDropped, hAccepted, ?_⟩
  intro h
  obtain ⟨r, hParse, hCode⟩ := Option.map_eq_some_iff.mp hDropped
  obtain ⟨r', hParse', hCode'⟩ := Option.map_eq_some_iff.mp hAccepted
  have hSame := returns_unique ((h _ hAgree r).mpr ⟨0, hParse⟩) ⟨0, hParse'⟩
  rw [hSame, hCode'] at hCode
  exact absurd hCode (by decide)

end Peak.Packet
