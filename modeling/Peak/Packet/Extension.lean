import Peak.Packet.Layers

/-! Extension headers as RFC 8200 lays them out: the length byte of a
hop-by-hop, routing or destination options header counts units of eight octets
and leaves out the first eight. The dissector takes it for a number of octets. -/
namespace Peak.Packet

open ByteImage StateTransition

/-- The extension headers with a length byte that may precede the upper layer. -/
def isOptions (type : Nat) : Bool :=
  type == ipprotoHopopts || type == ipprotoRouting || type == ipprotoDstopts

/-- No extension header of any kind. -/
def IsUpper (type : Nat) : Prop := isVariable type = false ∧ type ≠ ipprotoFragment

instance (type : Nat) : Decidable (IsUpper type) := inferInstanceAs (Decidable (_ ∧ _))

/-- The header behind `h` by the layout of RFC 8200. -/
def rfcNext (m : Image) (h : ExtHeader) : Option ExtHeader :=
  if isOptions h.type then some ⟨h.pos + (byte m (h.pos + 1) + 1) * 8, byte m h.pos⟩
  else if h.type = ipprotoFragment then some ⟨h.pos + 8, byte m h.pos⟩
  else none

/-- The header behind `h` if that is a fragment header. -/
def fragmentNext (m : Image) (h : ExtHeader) : Option ExtHeader :=
  if h.type = ipprotoFragment then some ⟨h.pos + 8, byte m h.pos⟩ else none

/-- What the fixed header of the IPv6 packet at `net` is followed by. -/
def firstHeader (m : Image) (net : Nat) : ExtHeader := ⟨net + 40, byte m (net + 6)⟩

/-- The packet at `net` has a well-formed chain of extension headers that ends
in the upper-layer header `upper`. -/
structure WellFormed (m : Image) (net : Nat) (upper : ExtHeader) : Prop where
  chain : Reaches (rfcNext m) (firstHeader m net) upper
  ends : IsUpper upper.type
  short : upper.pos - net ≤ 255
  inside : upper.pos ≤ net + 40 + be16 m (net + 4)

/-- `peak_packet_ipv6` accepts the packet and finds its upper-layer header. -/
def FindsUpper (m : Image) (net : Nat) (self : Packet) (upper : ExtHeader) : Prop :=
  ∃ fuel p, ipv6 fuel m net self = some (0, p) ∧ p.netType = upper.type ∧
    p.netHlen = upper.pos - net

/-- The chain has no extension headers but fragment headers. -/
def OnlyFragments (m : Image) (net : Nat) (upper : ExtHeader) : Prop :=
  Reaches (fragmentNext m) (firstHeader m net) upper

/-- The first header of the chain with a length byte has a multiple of eight in
it, and the octets from so many octets behind its start on look like headers,
each as many octets long as its length byte says, that lead to the same
protocol at the same offset modulo 256. -/
def Rejoins (m : Image) (net : Nat) (upper : ExtHeader) : Prop :=
  ∃ first pos, Reaches (fragmentNext m) (firstHeader m net) first ∧ isOptions first.type ∧
    byte m (first.pos + 1) % 8 = 0 ∧
    Reaches (extNext (total m)) ⟨first.pos + byte m (first.pos + 1), byte m first.pos⟩
      ⟨pos, upper.type⟩ ∧
    (pos - net) % 256 = upper.pos - net

variable {m : Image} {net : Nat} {h h' first upper : ExtHeader}

theorem isVariable_of_isOptions {type : Nat} (hOptions : isOptions type = true) :
    isVariable type = true := by
  simp only [isOptions, isVariable, Bool.or_eq_true] at hOptions ⊢
  exact .inl (.inl hOptions)

/-- On fragment headers the dissector follows the layout. -/
theorem extNext_of_fragmentNext (hNext : fragmentNext m h = some h') :
    extNext (total m) h = some h' := by
  rw [fragmentNext] at hNext
  split_ifs at hNext with hFrag
  have hVar : ¬ isVariable h.type = true := by
    rw [hFrag]
    decide
  rw [extNext, if_neg hVar, if_pos hFrag]
  exact hNext

theorem reaches_of_fragments (hReach : Reaches (fragmentNext m) h h') :
    Reaches (extNext (total m)) h h' := by
  induction hReach with
  | refl => exact .refl
  | tail _ hNext ih => exact ih.tail (extNext_of_fragmentNext hNext)

/-- A header with a length byte, as the dissector takes it. -/
theorem extNext_options (hOptions : isOptions h.type = true) :
    extNext (total m) h =
      if byte m (h.pos + 1) % 8 = 0 then some ⟨h.pos + byte m (h.pos + 1), byte m h.pos⟩
      else none := by
  rw [extNext, if_pos (isVariable_of_isOptions hOptions)]
  rfl

/-- A chain has only fragment headers, or a first header with a length byte. -/
theorem fragments_or_options (hChain : Reaches (rfcNext m) h upper) :
    Reaches (fragmentNext m) h upper ∨
      ∃ first, Reaches (fragmentNext m) h first ∧ isOptions first.type = true := by
  induction hChain using Relation.ReflTransGen.head_induction_on with
  | refl => exact .inl .refl
  | @head h next hNext _ ih =>
      by_cases hOptions : isOptions h.type = true
      · exact .inr ⟨h, .refl, hOptions⟩
      · have hStep : fragmentNext m h = some next := by
          have hSplit : next ∈ rfcNext m h := hNext
          rw [rfcNext, if_neg hOptions] at hSplit
          exact hSplit
        rcases ih with hFragments | ⟨first, hFirst, hType⟩
        · exact .inl (.head hStep hFragments)
        · exact .inr ⟨first, .head hStep hFirst, hType⟩

/-- Where a chain as the dissector takes it ends in an upper-layer header,
`peak_packet_ipv6` accepts the packet there. -/
theorem ipv6_accepts_at (self : Packet) (hReach : ChainReaches m net h) (hUpper : IsUpper h.type) :
    ∃ fuel p, ipv6 fuel m net self = some (0, p) ∧ p.netType = h.type ∧
      p.netHlen = (h.pos - net) % 256 := by
  have hStop : extNext (total m) h = none := extNext_of_not_extension hUpper.1 hUpper.2
  obtain ⟨fuel, e, hWalk⟩ := (walk_ends_iff (walkStart m net)).mpr ⟨h, hReach, hStop⟩
  cases e with
  | outside => exact absurd hWalk (walk_total_ne_outside m fuel _)
  | returned code w =>
      obtain ⟨hEnd, hEndStop, hRet, hLe, hHlen⟩ := walk_returned hWalk
      have hSame : w.header = h :=
        Part.mem_unique (mem_eval.mpr ⟨hEnd, hEndStop⟩) (mem_eval.mpr ⟨hReach, hStop⟩)
      have hType : w.nextType = h.type := congrArg ExtHeader.type hSame
      have hPos : w.nextHdr = h.pos := congrArg ExtHeader.pos hSame
      have hCode : code = 0 := by
        rw [walkStep_end (hType ▸ hUpper.1) (hType ▸ hUpper.2)] at hRet
        cases hRet
        rfl
      subst hCode
      have hLt := walk_netHlen_lt (show 40 < 256 by decide) hWalk
      have hAccept : ipv6 fuel m net self = some (0,
          { self with netLen := (40 + be16 m (net + 4)) % 65536, netHlen := w.netHlen,
                      netType := w.nextType }) := by
        simp only [ipv6, hWalk]
      refine ⟨fuel, _, hAccept, hType, ?_⟩
      simp only [walkStart] at hLe hHlen
      show w.netHlen = (h.pos - net) % 256
      omega

/-- `peak_packet_ipv6` finds the upper-layer header exactly if the chain that it
takes the octets for ends in the same protocol, and at the same offset as far
as eight bits tell. -/
theorem findsUpper_iff (self : Packet) (hUpper : IsUpper upper.type) :
    FindsUpper m net self upper ↔
      ∃ pos, ChainReaches m net ⟨pos, upper.type⟩ ∧ (pos - net) % 256 = upper.pos - net := by
  constructor
  · rintro ⟨fuel, p, hAccept, hType, hHlen⟩
    obtain ⟨e, hReach, _, _, rfl⟩ := ipv6_accepts hAccept
    have hEnd : e = ⟨e.pos, upper.type⟩ := by
      rw [← hType]
    exact ⟨e.pos, hEnd ▸ hReach, hHlen⟩
  · rintro ⟨pos, hReach, hPos⟩
    obtain ⟨fuel, p, hAccept, hType, hHlen⟩ := ipv6_accepts_at self hReach hUpper
    exact ⟨fuel, p, hAccept, hType, hHlen.trans hPos⟩

/-- Behind the first header with a length byte the dissector goes on where that
many octets end. -/
theorem chainReaches_behind (hFirst : Reaches (fragmentNext m) (firstHeader m net) first)
    (hOptions : isOptions first.type = true) (hUpper : IsUpper h.type) :
    ChainReaches m net h ↔ byte m (first.pos + 1) % 8 = 0 ∧
      Reaches (extNext (total m)) ⟨first.pos + byte m (first.pos + 1), byte m first.pos⟩ h := by
  have hStart : Reaches (extNext (total m)) (firstHeader m net) first := reaches_of_fragments hFirst
  have hNext := extNext_options (m := m) hOptions
  constructor
  · intro hReach
    have hStop : extNext (total m) h = none := extNext_of_not_extension hUpper.1 hUpper.2
    have hRest : Reaches (extNext (total m)) first h := by
      rcases reaches_total hStart hReach with hForward | hBack
      · exact hForward
      · rcases hBack.cases_head with rfl | ⟨next, hStep, _⟩
        · exact .refl
        · rw [hStop] at hStep
          cases hStep
    rcases hRest.cases_head with rfl | ⟨next, hStep, hGoes⟩
    · have hVar := isVariable_of_isOptions hOptions
      rw [hUpper.1] at hVar
      cases hVar
    · rw [hNext] at hStep
      split_ifs at hStep with hMod
      · cases hStep
        exact ⟨hMod, hGoes⟩
      · cases hStep
  · rintro ⟨hMod, hGoes⟩
    rw [if_pos hMod] at hNext
    exact hStart.trans (.head hNext hGoes)

/-- On a well-formed chain `peak_packet_ipv6` finds the upper-layer header if
all extension headers are fragment headers, or if the octets inside the first
other one happen to lead there, and in no other case. -/
theorem findsUpper_iff_rejoins (self : Packet) (hChain : WellFormed m net upper) :
    FindsUpper m net self upper ↔ OnlyFragments m net upper ∨ Rejoins m net upper := by
  have hShort := hChain.short
  rw [findsUpper_iff self hChain.ends]
  constructor
  · rintro ⟨pos, hReach, hPos⟩
    rcases fragments_or_options hChain.chain with hFragments | ⟨first, hFirst, hOptions⟩
    · exact .inl hFragments
    · obtain ⟨hMod, hGoes⟩ := (chainReaches_behind hFirst hOptions
        (show IsUpper (ExtHeader.mk pos upper.type).type from hChain.ends)).mp hReach
      exact .inr ⟨first, pos, hFirst, hOptions, hMod, hGoes, hPos⟩
  · rintro (hFragments | ⟨first, pos, hFirst, hOptions, hMod, hGoes, hPos⟩)
    · refine ⟨upper.pos, reaches_of_fragments hFragments, ?_⟩
      exact Nat.mod_eq_of_lt (by omega)
    · refine ⟨pos, ?_, hPos⟩
      exact (chainReaches_behind hFirst hOptions
        (show IsUpper (ExtHeader.mk pos upper.type).type from hChain.ends)).mpr ⟨hMod, hGoes⟩

/-- Right in front of the upper-layer header no header with a length byte is
walked over correctly. -/
theorem not_findsUpper_of_last (self : Packet) (hChain : WellFormed m net upper)
    (hFirst : Reaches (fragmentNext m) (firstHeader m net) first)
    (hOptions : isOptions first.type = true) (hLast : rfcNext m first = some upper) :
    ¬ FindsUpper m net self upper := by
  have hShort := hChain.short
  rw [findsUpper_iff self hChain.ends]
  rintro ⟨pos, hReach, hPos⟩
  obtain ⟨hMod, hGoes⟩ := (chainReaches_behind hFirst hOptions
    (show IsUpper (ExtHeader.mk pos upper.type).type from hChain.ends)).mp hReach
  rw [rfcNext, if_pos hOptions] at hLast
  cases hLast
  have hLow : net + 40 ≤ first.pos := pos_le_of_reaches (reaches_of_fragments hFirst)
  have hEnd : extNext (total m) ⟨first.pos + byte m (first.pos + 1), byte m first.pos⟩ = none :=
    extNext_of_not_extension hChain.ends.1 hChain.ends.2
  rcases hGoes.cases_head with hSame | ⟨next, hStep, _⟩
  · have hBehind := congrArg ExtHeader.pos hSame
    simp only at hBehind hPos hShort
    omega
  · rw [hEnd] at hStep
    cases hStep

/-- An IPv6 header with a payload of 28 bytes, in which a hop-by-hop header of
eight bytes is followed by TCP. -/
def hopByHopPacket : Image := ofEntries
  [(0, 0x60), (5, 28), (6, 0), (40, 6), (41, 0), (42, 1), (43, 4)]

theorem hopByHopPacket_wellFormed : WellFormed hopByHopPacket 0 ⟨48, ipprotoTcp⟩ := by
  refine ⟨.single ?_, by decide, by decide, by decide⟩
  decide

/-- The TCP header at 48 is taken to start at 40. -/
theorem hopByHopPacket_misread :
    ¬ ∀ m net self upper, WellFormed m net upper → FindsUpper m net self upper := by
  intro hClaim
  apply not_findsUpper_of_last {} hopByHopPacket_wellFormed .refl (by decide) (by decide)
  exact hClaim _ _ _ _ hopByHopPacket_wellFormed

/-- An IPv6 header with a fragment header in front of UDP. -/
def fragmentPacket : Image := ofEntries [(0, 0x60), (5, 16), (6, 44), (40, 17)]

theorem fragmentPacket_findsUpper : FindsUpper fragmentPacket 0 {} ⟨48, ipprotoUdp⟩ := by
  have hFragment : OnlyFragments fragmentPacket 0 ⟨48, ipprotoUdp⟩ := .single (by decide)
  have hChain : WellFormed fragmentPacket 0 ⟨48, ipprotoUdp⟩ :=
    ⟨.single (by decide), by decide, by decide, by decide⟩
  exact (findsUpper_iff_rejoins {} hChain).mpr (.inl hFragment)

end Peak.Packet
