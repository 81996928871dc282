import Peak.Base.Bytes
import Peak.Packet.Parse

/-! The keys of `lib/peak_track.h`: `TRACK_KEY` puts the two ends of a packet in
an order that depends on their addresses, and `TRACK_CMP` compares the bytes at
the start of `struct peak_track`. -/
namespace Peak.Track

open Bytes Std

/-- `memcmp` of regions of the same size. -/
def memcmp : List UInt8 → List UInt8 → Ordering := List.compareLex compare

instance : TransCmp memcmp := inferInstanceAs (TransCmp (List.compareLex compare))

instance : LawfulEqCmp memcmp := inferInstanceAs (LawfulEqCmp (List.compareLex compare))

/-- The first members of `struct peak_track`, up to the padding. -/
structure Key where
  addr₀ : List UInt8
  addr₁ : List UInt8
  port₀ : Nat
  port₁ : Nat
  type : Nat
deriving DecidableEq, Repr

/-- The members have the sizes of their types. -/
structure Key.Typed (key : Key) : Prop where
  addr₀ : key.addr₀.length = 16
  addr₁ : key.addr₁.length = 16
  port₀ : key.port₀ < 256 ^ 2
  port₁ : key.port₁ < 256 ^ 2
  type : key.type < 256 ^ 1

/-- The `TRACK_SIZE` bytes in memory, on a little endian machine. -/
def Key.bytes (key : Key) : List UInt8 :=
  key.addr₀ ++ (key.addr₁ ++ (encode 2 key.port₀ ++ (encode 2 key.port₁ ++ encode 1 key.type)))

/-- `TRACK_CMP`. -/
def trackCmp (x y : Key) : Ordering := memcmp x.bytes y.bytes

instance : TransCmp trackCmp := inferInstanceAs (TransCmp (compareOn Key.bytes))

/-- `netcmp`. -/
def netcmp (x y : List UInt8) : Ordering := memcmp x y

/-- `TRACK_KEY`. The ends change places unless the source address comes
first. -/
def trackKey (packet : Packet) : Key :=
  let dir : Bool := !(netcmp packet.netSaddr packet.netDaddr == .lt)
  { addr₀ := if dir then packet.netDaddr else packet.netSaddr
    addr₁ := if dir then packet.netSaddr else packet.netDaddr
    port₀ := if dir then packet.flowDport else packet.flowSport
    port₁ := if dir then packet.flowSport else packet.flowDport
    type := packet.netType }

/-- The members of a packet that go into a key have the sizes of their types. -/
structure PacketTyped (packet : Packet) : Prop where
  saddr : packet.netSaddr.length = 16
  daddr : packet.netDaddr.length = 16
  sport : packet.flowSport < 256 ^ 2
  dport : packet.flowDport < 256 ^ 2
  type : packet.netType < 256 ^ 1

variable {p q : Packet} {x y : Key}

theorem trackKey_typed (h : PacketTyped p) : (trackKey p).Typed := by
  simp only [trackKey]
  refine ⟨?_, ?_, ?_, ?_, h.type⟩
  · split_ifs
    exacts [h.daddr, h.saddr]
  · split_ifs
    exacts [h.saddr, h.daddr]
  · split_ifs
    exacts [h.dport, h.sport]
  · split_ifs
    exacts [h.sport, h.dport]

/-- Keys compare equal only if they are. -/
theorem trackCmp_eq_iff (hx : x.Typed) (hy : y.Typed) : trackCmp x y = .eq ↔ x = y := by
  constructor
  · intro hCmp
    have hBytes : x.bytes = y.bytes := LawfulEqCmp.eq_of_compare hCmp
    obtain ⟨hAddr₀, hBytes⟩ := List.append_inj hBytes (hx.addr₀.trans hy.addr₀.symm)
    obtain ⟨hAddr₁, hBytes⟩ := List.append_inj hBytes (hx.addr₁.trans hy.addr₁.symm)
    obtain ⟨hPort₀, hBytes⟩ := List.append_inj hBytes (by simp)
    obtain ⟨hPort₁, hType⟩ := List.append_inj hBytes (by simp)
    cases x
    cases y
    simp only [Key.mk.injEq]
    exact ⟨hAddr₀, hAddr₁, encode_inj hx.port₀ hy.port₀ hPort₀, encode_inj hx.port₁ hy.port₁ hPort₁,
      encode_inj hx.type hy.type hType⟩
  · rintro rfl
    exact ReflCmp.compare_self

/-- The packets have the same ends in the same roles. -/
def SameWay (p q : Packet) : Prop :=
  q.netType = p.netType ∧ q.netSaddr = p.netSaddr ∧ q.flowSport = p.flowSport ∧
    q.netDaddr = p.netDaddr ∧ q.flowDport = p.flowDport

/-- One packet is a reply to the other. -/
def Exchanged (p q : Packet) : Prop :=
  q.netType = p.netType ∧ q.netSaddr = p.netDaddr ∧ q.flowSport = p.flowDport ∧
    q.netDaddr = p.netSaddr ∧ q.flowDport = p.flowSport

instance (p q : Packet) : Decidable (SameWay p q) := inferInstanceAs (Decidable (_ ∧ _))

instance (p q : Packet) : Decidable (Exchanged p q) := inferInstanceAs (Decidable (_ ∧ _))

/-- A reply between different addresses has the same key. -/
theorem trackKey_exchanged (h : Exchanged p q) (hAddr : p.netSaddr ≠ p.netDaddr) :
    trackKey q = trackKey p := by
  obtain ⟨hType, hSaddr, hSport, hDaddr, hDport⟩ := h
  have hOrder : memcmp p.netSaddr p.netDaddr = .lt ∨ memcmp p.netSaddr p.netDaddr = .gt := by
    cases hCmp : memcmp p.netSaddr p.netDaddr with
    | lt => exact .inl rfl
    | eq => exact absurd (LawfulEqCmp.eq_of_compare hCmp) hAddr
    | gt => exact .inr rfl
  rcases hOrder with hCmp | hCmp
  · simp [trackKey, netcmp, hType, hSaddr, hSport, hDaddr, hDport, hCmp, OrientedCmp.gt_of_lt hCmp]
  · simp [trackKey, netcmp, hType, hSaddr, hSport, hDaddr, hDport, hCmp, OrientedCmp.lt_of_gt hCmp]

/-- Packets with the same key have the same ends. -/
theorem ends_of_trackKey (h : trackKey p = trackKey q) : SameWay p q ∨ Exchanged p q := by
  simp only [trackKey, Key.mk.injEq] at h
  obtain ⟨hAddr₀, hAddr₁, hPort₀, hPort₁, hType⟩ := h
  split_ifs at hAddr₀ hAddr₁ hPort₀ hPort₁
  · exact .inl ⟨hType.symm, hAddr₁.symm, hPort₁.symm, hAddr₀.symm, hPort₀.symm⟩
  · exact .inr ⟨hType.symm, hAddr₀.symm, hPort₀.symm, hAddr₁.symm, hPort₁.symm⟩
  · exact .inr ⟨hType.symm, hAddr₁.symm, hPort₁.symm, hAddr₀.symm, hPort₀.symm⟩
  · exact .inl ⟨hType.symm, hAddr₀.symm, hPort₀.symm, hAddr₁.symm, hPort₁.symm⟩

/-- Between equal addresses the ports stay in the order of the packet. -/
theorem trackKey_same_addr (h : p.netSaddr = p.netDaddr) :
    (trackKey p).port₀ = p.flowDport ∧ (trackKey p).port₁ = p.flowSport := by
  have hCmp : netcmp p.netSaddr p.netDaddr = .eq := by
    rw [h, netcmp]
    exact ReflCmp.compare_self
  simp [trackKey, hCmp]

/-- Keys identify connections, except that a reply between equal addresses and
different ports has a key of its own. -/
theorem track_key_connection (hp : PacketTyped p) (hq : PacketTyped q) :
    (trackCmp (trackKey p) (trackKey q) = .eq ↔ SameWay p q ∨ Exchanged p q) ↔
      ¬ (p.netSaddr = p.netDaddr ∧ p.flowSport ≠ p.flowDport ∧ Exchanged p q) := by
  rw [trackCmp_eq_iff (trackKey_typed hp) (trackKey_typed hq)]
  constructor
  · rintro hIff ⟨hAddr, hPorts, hExchanged⟩
    have hKeys := hIff.mpr (.inr hExchanged)
    have hAddr' : q.netSaddr = q.netDaddr := by
      rw [hExchanged.2.1, hExchanged.2.2.2.1, hAddr]
    have hPort := (trackKey_same_addr hAddr).2
    rw [hKeys, (trackKey_same_addr hAddr').2, hExchanged.2.2.1] at hPort
    exact hPorts hPort.symm
  · intro hNot
    refine ⟨ends_of_trackKey, ?_⟩
    rintro (⟨hType, hSaddr, hSport, hDaddr, hDport⟩ | hExchanged)
    · simp only [trackKey, hType, hSaddr, hSport, hDaddr, hDport]
    · by_cases hAddr : p.netSaddr = p.netDaddr
      · have hPorts : p.flowSport = p.flowDport := by
          by_contra hPorts
          exact hNot ⟨hAddr, hPorts, hExchanged⟩
        obtain ⟨hType, hSaddr, hSport, hDaddr, hDport⟩ := hExchanged
        simp only [trackKey, hType, hSaddr, hSport, hDaddr, hDport, hAddr, hPorts]
      · exact (trackKey_exchanged hExchanged hAddr).symm

/-- A packet of a connection between two addresses, and its reply. -/
theorem twoHosts_connection :
    PacketTyped { netDaddr := List.replicate 16 1, flowSport := 80, flowDport := 51000 } ∧
      (trackCmp (trackKey { netDaddr := List.replicate 16 1, flowSport := 80, flowDport := 51000 })
          (trackKey { netSaddr := List.replicate 16 1, flowSport := 51000, flowDport := 80 }) = .eq ↔
        SameWay { netDaddr := List.replicate 16 1, flowSport := 80, flowDport := 51000 }
            { netSaddr := List.replicate 16 1, flowSport := 51000, flowDport := 80 } ∨
          Exchanged { netDaddr := List.replicate 16 1, flowSport := 80, flowDport := 51000 }
            { netSaddr := List.replicate 16 1, flowSport := 51000, flowDport := 80 }) :=
  ⟨⟨rfl, rfl, by decide, by decide, by decide⟩,
    (track_key_connection ⟨rfl, rfl, by decide, by decide, by decide⟩
      ⟨rfl, rfl, by decide, by decide, by decide⟩).mpr (by decide)⟩

/-- A host that talks to itself: the reply is not taken for the same flow. -/
theorem oneHost_reply_differs :
    Exchanged { flowSport := 80, flowDport := 51000 } { flowSport := 51000, flowDport := 80 } ∧
      trackCmp (trackKey { flowSport := 80, flowDport := 51000 })
        (trackKey { flowSport := 51000, flowDport := 80 }) ≠ .eq := by
  decide

end Peak.Track
