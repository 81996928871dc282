import Peak.Packet.Layers

/-! Which bytes the verdict and the fields of a packet depend on. The
dissector never consults `len`, so a packet is dissected from its own bytes
only when every byte that decides the result happens to lie below `len`. -/
namespace Peak.Packet

open ByteImage StateTransition

/-- `peak_packet_parse` returns `r`. -/
def Returns (m : Image) (len type : Nat) (r : Nat × Packet) : Prop :=
  ∃ fuel, parse fuel m len type = some r

/-- The result is the same for every memory behind the first `len` bytes,
including whether the dissector returns at all. -/
def LooksOnlyAtPacket (m : Image) (len type : Nat) : Prop :=
  ∀ m', Agree len m m' → ∀ r, Returns m' len type r ↔ Returns m len type r

/-- The bytes below `len` decide what becomes of the TCP header at `flow`: a
check fails on known bytes, or everything up to the flags is known. -/
def TcpCovered (m : Image) (len flow flowLen : Nat) : Prop :=
  flowLen < 20 ∨ (flow + 2 ≤ len ∧ be16 m flow = 0) ∨
  (flow + 4 ≤ len ∧ be16 m (flow + 2) = 0) ∨
  (flow + 13 ≤ len ∧ (tcpHlen m flow < 20 ∨ flowLen < tcpHlen m flow)) ∨
  flow + 14 ≤ len

/-- The same for the UDP header. A length with a non-zero high byte passes
whatever its low byte is. -/
def UdpCovered (m : Image) (len flow flowLen : Nat) : Prop :=
  flowLen < 8 ∨ (flow + 2 ≤ len ∧ be16 m flow = 0) ∨
  (flow + 4 ≤ len ∧ be16 m (flow + 2) = 0) ∨
  (flow + 5 ≤ len ∧ byte m (flow + 4) ≠ 0) ∨
  flow + 6 ≤ len

def TransportCovered (m : Image) (len netType flow flowLen : Nat) : Prop :=
  (netType = ipprotoTcp → TcpCovered m len flow flowLen) ∧
  (netType = ipprotoUdp → UdpCovered m len flow flowLen)

/-- Each IPv4 check that is reached finds its bytes below `len`. -/
def Ipv4Covered (m : Image) (len net : Nat) : Prop :=
  net + 1 ≤ len ∧
  (byte m net / 16 = ipversion → 20 ≤ ipHlen m net → net + 4 ≤ len ∧
    (ipHlen m net ≤ be16 m (net + 2) → net + 20 ≤ len ∧
      TransportCovered m len (byte m (net + 9)) (net + ipHlen m net)
        (be16 m (net + 2) - ipHlen m net)))

/-- The two bytes the loop reads at a header lie below `len`. -/
def HeaderCovered (len : Nat) (h : ExtHeader) : Prop :=
  (isVariable h.type = true → h.pos + 2 ≤ len) ∧ (h.type = ipprotoFragment → h.pos + 1 ≤ len)

/-- The fixed header, every extension header and the transport header behind
the chain are covered. The transport header is looked up at the 8-bit header
length. -/
def Ipv6Covered (m : Image) (len net : Nat) : Prop :=
  net + 40 ≤ len ∧ (∀ h, ChainReaches m net h → HeaderCovered len h) ∧
  ∀ h, ChainReaches m net h → isVariable h.type = false → h.type ≠ ipprotoFragment →
    TransportCovered m len h.type (net + (h.pos - net) % 256)
      (sub16 ((40 + be16 m (net + 4)) % 65536) ((h.pos - net) % 256))

/-- Every byte that decides the result lies below `len`. -/
structure Covered (m : Image) (len type : Nat) : Prop where
  ethernet : type = linktypeEthernet →
    14 ≤ len ∧ (be16 m 12 = ethertypeVlan → 18 ≤ len)
  sll : type = linktypeLinuxSll → 16 ≤ len
  ipv4 : ∀ macVlan net, linkHeader m type = some (ethertypeIp, macVlan, net) →
    Ipv4Covered m len net
  ipv6 : ∀ macVlan net, linkHeader m type = some (ethertypeIpv6, macVlan, net) →
    Ipv6Covered m len net

section Sufficient

variable {m m' : Image} {len : Nat} (hAgree : Agree len m m')

theorem tcp_rejects {flow : Nat} {self : Packet}
    (h : self.flowLen < 20 ∨ be16 m flow = 0 ∨ be16 m (flow + 2) = 0 ∨
      tcpHlen m flow < 20 ∨ self.flowLen < tcpHlen m flow) : tcp m flow self = (1, self) := by
  unfold tcp
  split_ifs <;> first | omega | rfl

theorem udp_rejects {flow : Nat} {self : Packet}
    (h : self.flowLen < 8 ∨ be16 m flow = 0 ∨ be16 m (flow + 2) = 0) :
    udp m flow self = (1, self) := by
  unfold udp
  split_ifs <;> first | omega | rfl

include hAgree in
theorem tcpHlen_congr {flow : Nat} (h : flow + 13 ≤ len) : tcpHlen m' flow = tcpHlen m flow := by
  simp only [tcpHlen, hAgree.byte (show flow + 12 < len by omega)]

include hAgree in
theorem tcp_congr {flow : Nat} {self : Packet} (h : TcpCovered m len flow self.flowLen) :
    tcp m' flow self = tcp m flow self := by
  rcases h with hShort | ⟨hLen, hPort⟩ | ⟨hLen, hPort⟩ | ⟨hLen, hHlen⟩ | hLen
  · rw [tcp_rejects (Or.inl hShort), tcp_rejects (Or.inl hShort)]
  · have hPort' : be16 m' flow = 0 := (hAgree.be16 hLen).trans hPort
    rw [tcp_rejects (Or.inr (Or.inl hPort')), tcp_rejects (Or.inr (Or.inl hPort))]
  · have hPort' : be16 m' (flow + 2) = 0 := (hAgree.be16 hLen).trans hPort
    rw [tcp_rejects (Or.inr (Or.inr (Or.inl hPort'))), tcp_rejects (Or.inr (Or.inr (Or.inl hPort)))]
  · have hHlen' := hHlen
    rw [← tcpHlen_congr hAgree hLen] at hHlen'
    rw [tcp_rejects (Or.inr (Or.inr (Or.inr hHlen'))), tcp_rejects (Or.inr (Or.inr (Or.inr hHlen)))]
  · simp only [tcp, tcpHlen_congr hAgree (show flow + 13 ≤ len by omega),
      hAgree.be16 (show flow + 2 ≤ len by omega), hAgree.be16 (show flow + 2 + 2 ≤ len by omega),
      hAgree.byte (show flow + 13 < len by omega)]

include hAgree in
theorem udp_congr {flow : Nat} {self : Packet} (h : UdpCovered m len flow self.flowLen) :
    udp m' flow self = udp m flow self := by
  rcases h with hShort | ⟨hLen, hPort⟩ | ⟨hLen, hPort⟩ | ⟨hLen, hHigh⟩ | hLen
  · rw [udp_rejects (Or.inl hShort), udp_rejects (Or.inl hShort)]
  · have hPort' : be16 m' flow = 0 := (hAgree.be16 hLen).trans hPort
    rw [udp_rejects (Or.inr (Or.inl hPort')), udp_rejects (Or.inr (Or.inl hPort))]
  · have hPort' : be16 m' (flow + 2) = 0 := (hAgree.be16 hLen).trans hPort
    rw [udp_rejects (Or.inr (Or.inr hPort')), udp_rejects (Or.inr (Or.inr hPort))]
  · have hHigh' : byte m' (flow + 4) ≠ 0 := by rwa [hAgree.byte (by omega)]
    have hUlen : ¬ (be16 m (flow + 4) = 0 ∨ 8 > be16 m (flow + 4)) := by
      unfold be16
      omega
    have hUlen' : ¬ (be16 m' (flow + 4) = 0 ∨ 8 > be16 m' (flow + 4)) := by
      unfold be16
      omega
    simp only [udp, hAgree.be16 (show flow + 2 ≤ len by omega),
      hAgree.be16 (show flow + 2 + 2 ≤ len by omega), if_neg hUlen, if_neg hUlen']
  · simp only [udp, hAgree.be16 (show flow + 2 ≤ len by omega),
      hAgree.be16 (show flow + 2 + 2 ≤ len by omega), hAgree.be16 (show flow + 4 + 2 ≤ len by omega)]

include hAgree in
theorem transport_congr {flow : Nat} {self : Packet}
    (h : TransportCovered m len self.netType flow self.flowLen) :
    transport m' flow self = transport m flow self := by
  unfold transport
  split_ifs with hTcp hUdp hIcmp
  · exact tcp_congr hAgree (h.1 hTcp)
  · exact udp_congr hAgree (h.2 hUdp)
  · rfl
  · rfl

include hAgree in
theorem flowLayer_congr {net : Nat} {self : Packet}
    (h : TransportCovered m len self.netType (net + self.netHlen)
      (sub16 self.netLen self.netHlen)) : flowLayer m' net self = flowLayer m net self := by
  unfold flowLayer
  exact transport_congr hAgree h

include hAgree in
theorem ipv4_congr {net : Nat} {self : Packet} (h : Ipv4Covered m len net) :
    ipv4 m' net self = ipv4 m net self := by
  obtain ⟨hNet, hChecks⟩ := h
  have hByte := hAgree.byte (show net < len by omega)
  have hHlen : ipHlen m' net = ipHlen m net := by simp only [ipHlen, hByte]
  unfold ipv4
  rw [hByte, hHlen]
  by_cases hVersion : byte m net / 16 = ipversion
  · by_cases hShort : ipHlen m net < 20
    · simp [hShort]
    · obtain ⟨hLen, hRest⟩ := hChecks hVersion (by omega)
      have hTotal := hAgree.be16 (show net + 2 + 2 ≤ len by omega)
      rw [hTotal]
      by_cases hCut : be16 m (net + 2) < ipHlen m net
      · simp [hCut]
      · obtain ⟨hFixed, hTransport⟩ := hRest (by omega)
        have hLe := ipHlen_lt m net
        simp only [hVersion, hShort, hCut, ne_eq, not_true_eq_false, if_false, netaddr4,
          hAgree.bytes (show net + 12 + 4 ≤ len by omega),
          hAgree.bytes (show net + 16 + 4 ≤ len by omega),
          hAgree.byte (show net + 9 < len by omega)]
        apply flowLayer_congr hAgree
        simp only [sub16_of_le (show ipHlen m net ≤ be16 m (net + 2) by omega) (be16_lt _ _)]
        exact hTransport
  · simp [hVersion]

include hAgree in
theorem walkStep_congr {w : Walk} (h : HeaderCovered len w.header) :
    walkStep (total m') w = walkStep (total m) w := by
  obtain ⟨hVariable, hFragment⟩ := h
  unfold walkStep total
  split_ifs with hVar hFrag
  · have hLen := hVariable hVar
    simp only [Walk.header] at hLen
    rw [hAgree _ (show w.nextHdr + 1 < len by omega), hAgree _ (show w.nextHdr < len by omega)]
  · have hLen := hFragment hFrag
    simp only [Walk.header] at hLen
    rw [hAgree _ (show w.nextHdr < len by omega)]
  · rfl

include hAgree in
theorem extNext_congr {h : ExtHeader} (hCovered : HeaderCovered len h) :
    extNext (total m') h = extNext (total m) h := by
  obtain ⟨hVariable, hFragment⟩ := hCovered
  unfold extNext total
  split_ifs with hVar hFrag
  · have hLen := hVariable hVar
    rw [hAgree _ (show h.pos + 1 < len by omega), hAgree _ (show h.pos < len by omega)]
  · have hLen := hFragment hFrag
    rw [hAgree _ (show h.pos < len by omega)]
  · rfl

include hAgree in
/-- The loop does the same on both images as long as the chain is covered. -/
theorem walk_congr {fuel : Nat} {w : Walk}
    (h : ∀ hdr, Reaches (extNext (total m)) w.header hdr → HeaderCovered len hdr) :
    walk (total m') fuel w = walk (total m) fuel w := by
  induction fuel generalizing w with
  | zero => rfl
  | succ fuel ih =>
      unfold walk
      rw [walkStep_congr hAgree (h _ .refl)]
      cases hStep : walkStep (total m) w with
      | next w' => exact ih fun hdr hReach => h hdr (.head (walkStep_next hStep).1 hReach)
      | ret code => rfl
      | outside => rfl

include hAgree in
theorem linkHeader_congr {type : Nat}
    (hEthernet : type = linktypeEthernet → 14 ≤ len ∧ (be16 m 12 = ethertypeVlan → 18 ≤ len))
    (hSll : type = linktypeLinuxSll → 16 ≤ len) : linkHeader m' type = linkHeader m type := by
  unfold linkHeader
  by_cases hEth : type = linktypeEthernet
  · obtain ⟨hLen, hVlan⟩ := hEthernet hEth
    rw [hAgree.be16 (show 12 + 2 ≤ len by omega)]
    by_cases hTag : be16 m 12 = ethertypeVlan
    · have hLen' := hVlan hTag
      rw [hAgree.be16 (show 14 + 2 ≤ len by omega), hAgree.be16 (show 16 + 2 ≤ len by omega)]
    · simp [hTag, hEth, linktypeEthernet, linktypeNull]
  · by_cases hLinux : type = linktypeLinuxSll
    · rw [hAgree.be16 (show 14 + 2 ≤ len by have := hSll hLinux; omega)]
      simp [hEth]
    · simp [hEth, hLinux]

include hAgree in
theorem ipv6_congr {fuel net : Nat} {self : Packet} (hFixed : net + 40 ≤ len)
    (hChain : ∀ h, ChainReaches m net h → HeaderCovered len h) :
    ipv6 fuel m' net (ipv6Packet m' net self) = ipv6 fuel m net (ipv6Packet m net self) := by
  have hStart : walkStart m' net = walkStart m net := by
    simp only [walkStart, hAgree.byte (show net + 6 < len by omega)]
  have hWalk : walk (total m') fuel (walkStart m net) = walk (total m) fuel (walkStart m net) :=
    walk_congr hAgree hChain
  simp only [ipv6, ipv6Packet, netaddr6, hStart, hWalk,
    hAgree.be16 (show net + 4 + 2 ≤ len by omega),
    hAgree.bytes (show net + 8 + 16 ≤ len by omega),
    hAgree.bytes (show net + 24 + 16 ≤ len by omega)]

end Sufficient

/-- A covered packet is dissected the same whatever follows it. -/
theorem parse_congr {m m' : Image} {len type : Nat} (hAgree : Agree len m m')
    (hCovered : Covered m len type) (fuel : Nat) :
    parse fuel m' len type = parse fuel m len type := by
  unfold parse
  rw [linkHeader_congr hAgree hCovered.ethernet hCovered.sll]
  cases hLink : linkHeader m type with
  | none => rfl
  | some link =>
      obtain ⟨macType, macVlan, net⟩ := link
      simp only
      by_cases hIp : macType = ethertypeIp
      · rw [network_ip fuel m' net hIp, network_ip fuel m net hIp]
        rw [ipv4_congr hAgree (hCovered.ipv4 macVlan net (by rw [hLink, hIp]))]
      by_cases hIpv6 : macType = ethertypeIpv6
      · obtain ⟨hFixed, hChain, hTransport⟩ := hCovered.ipv6 macVlan net (by rw [hLink, hIpv6])
        rw [network_ipv6 fuel m' net hIpv6, network_ipv6 fuel m net hIpv6,
          ipv6_congr hAgree hFixed hChain]
        split
        · rename_i p hAccept
          obtain ⟨e, hReach, hVar, hFrag, rfl⟩ := ipv6_accepts hAccept
          rw [flowLayer_congr hAgree (hTransport e hReach hVar hFrag)]
        · rfl
      · rw [network_other fuel m' net hIp hIpv6, network_other fuel m net hIp hIpv6]

end Peak.Packet
