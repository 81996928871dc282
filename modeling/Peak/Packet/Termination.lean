import Peak.Packet.Chain

/-! When `peak_packet_parse` returns. Only the extension header loop can keep
it from returning: it has no bound on the number of headers, and a variable
header whose length byte is zero is read again at the same place. -/
namespace Peak.Packet

open ByteImage StateTransition

variable {read : Nat → Option UInt8}

/-- A variable header of length zero that announces a variable header. The
loop reads the same two bytes again and stays where it is. -/
def Stuck (read : Nat → Option UInt8) (h : ExtHeader) : Prop :=
  isVariable h.type = true ∧ read (h.pos + 1) = some 0 ∧
    ∃ extNxt, read h.pos = some extNxt ∧ isVariable extNxt.toNat = true

/-- No header that the chain reaches is stuck. -/
def ChainMoves (read : Nat → Option UInt8) (start : ExtHeader) : Prop :=
  ∀ h, Reaches (extNext read) start h → ¬ Stuck read h

/-- All headers of the chain start below some address. -/
def ChainBounded (read : Nat → Option UInt8) (start : ExtHeader) : Prop :=
  ∃ bound, ∀ h, Reaches (extNext read) start h → h.pos < bound

/-- The header behind a stuck header is stuck, and it exists. -/
theorem Stuck.next {h : ExtHeader} (hStuck : Stuck read h) :
    ∃ h', extNext read h = some h' ∧ Stuck read h' := by
  obtain ⟨hVar, hLen, extNxt, hNxt, hNxtVar⟩ := hStuck
  refine ⟨⟨h.pos, extNxt.toNat⟩, ?_, hNxtVar, hLen, extNxt, hNxt, hNxtVar⟩
  simp [extNext, hVar, hLen, hNxt]

theorem Stuck.of_reaches {h h' : ExtHeader} (hStuck : Stuck read h)
    (hReach : Reaches (extNext read) h h') : Stuck read h' := by
  induction hReach with
  | refl => exact hStuck
  | tail _ hNext ih =>
      obtain ⟨next, hSome, hNextStuck⟩ := ih.next
      exact Option.some.inj (hSome.symm.trans hNext) ▸ hNextStuck

/-- Behind a header that is not stuck the chain goes on at least eight bytes
later, or stays in place for a header that is not variable. -/
theorem extNext_advances {h h' : ExtHeader} (hMove : ¬ Stuck read h)
    (hNext : extNext read h = some h') :
    h.pos + 8 ≤ h'.pos ∨
      (h'.pos = h.pos ∧ isVariable h.type = true ∧ isVariable h'.type = false) := by
  unfold extNext at hNext
  by_cases hVar : isVariable h.type = true
  · simp only [hVar, if_true] at hNext
    split at hNext
    · rename_i extLen extNxt hLen hNxt
      split_ifs at hNext with hMod
      cases hNext
      by_cases hZero : extLen.toNat = 0
      · refine Or.inr ⟨by simp [hZero], hVar, ?_⟩
        by_contra hNxtVar
        have hLenZero : extLen = 0 := UInt8.toNat_inj.mp hZero
        exact hMove ⟨hVar, hLenZero ▸ hLen, extNxt, hNxt, by simpa using hNxtVar⟩
      · exact Or.inl (by simp only; omega)
    · cases hNext
  · simp only [hVar, Bool.false_eq_true, if_false] at hNext
    split_ifs at hNext
    obtain ⟨extNxt, -, rfl⟩ := Option.map_eq_some_iff.mp hNext
    exact Or.inl (le_refl _)

/-- A chain that moves and stays below an address ends. The measure counts
the bytes left below the bound twice, plus one at a variable header. -/
theorem chain_ends_of_moves {start : ExtHeader} (hMoves : ChainMoves read start)
    (hBounded : ChainBounded read start) :
    ∃ e, Reaches (extNext read) start e ∧ extNext read e = none := by
  obtain ⟨bound, hBound⟩ := hBounded
  suffices hMeasure : ∀ n h, Reaches (extNext read) start h →
      2 * (bound - h.pos) + (if isVariable h.type then 1 else 0) ≤ n →
      ∃ e, Reaches (extNext read) start e ∧ extNext read e = none from
    hMeasure _ start .refl (le_refl _)
  intro n
  induction n with
  | zero =>
      intro h hReach hLe
      have := hBound h hReach
      omega
  | succ n ih =>
      intro h hReach hLe
      cases hNext : extNext read h with
      | none => exact ⟨h, hReach, hNext⟩
      | some h' =>
          have hReach' : Reaches (extNext read) start h' := hReach.tail hNext
          have hPos := hBound h hReach
          have hPos' := hBound h' hReach'
          apply ih h' hReach'
          rcases extNext_advances (hMoves h hReach) hNext with hFar | ⟨hSame, hVar, hVar'⟩
          · split_ifs at hLe ⊢ <;> omega
          · simp only [hVar, hVar', if_true, Bool.false_eq_true, if_false] at hLe ⊢
            omega

/-- The chain ends exactly when it moves and stays below an address. -/
theorem chain_ends_iff (start : ExtHeader) :
    (∃ e, Reaches (extNext read) start e ∧ extNext read e = none) ↔
      ChainMoves read start ∧ ChainBounded read start := by
  constructor
  · rintro ⟨e, hReach, hStop⟩
    have hToEnd : ∀ h, Reaches (extNext read) start h → Reaches (extNext read) h e := by
      intro h hReachH
      rcases reaches_total hReachH hReach with hTo | hFrom
      · exact hTo
      · rcases Relation.ReflTransGen.cases_head hFrom with hEq | ⟨next, hNext, -⟩
        · exact hEq ▸ .refl
        · cases hStop.symm.trans hNext
    constructor
    · intro h hReachH hStuck
      obtain ⟨next, hNext, -⟩ := (hStuck.of_reaches (hToEnd h hReachH)).next
      cases hStop.symm.trans hNext
    · exact ⟨e.pos + 1, fun h hReachH =>
        Nat.lt_succ_of_le (pos_le_of_reaches (hToEnd h hReachH))⟩
  · rintro ⟨hMoves, hBounded⟩
    exact chain_ends_of_moves hMoves hBounded

/-- A buffer that ends bounds every chain in it: a header at or behind its
end cannot be read, so nothing follows it. -/
theorem chainBounded_of_finite (buf : List UInt8) (start : ExtHeader) :
    ChainBounded (fun i => buf[i]?) start := by
  refine ⟨max (start.pos + 1) (buf.length + 256), ?_⟩
  intro h hReach
  rcases Relation.ReflTransGen.cases_tail hReach with hEq | ⟨prior, -, hNext⟩
  · subst hEq
    omega
  · unfold extNext at hNext
    split_ifs at hNext
    · split at hNext
      · rename_i extLen extNxt hLen hNxt
        have hIn := (List.getElem?_eq_some_iff.mp hNxt).1
        have hByte := extLen.toNat_lt
        simp only [Option.mem_def] at hNext
        split_ifs at hNext
        cases hNext
        simp only
        omega
      · cases hNext
    · obtain ⟨extNxt, hNxt, rfl⟩ := Option.map_eq_some_iff.mp hNext
      have hIn := (List.getElem?_eq_some_iff.mp hNxt).1
      simp only
      omega
    · cases hNext

/-- `peak_packet_ipv6` returns when its loop does. -/
theorem ipv6_returns_iff (m : Image) (net : Nat) (self : Packet) :
    (∃ fuel r, ipv6 fuel m net self = some r) ↔
      ∃ fuel e, walk (total m) fuel (walkStart m net) = some e := by
  constructor
  · rintro ⟨fuel, r, h⟩
    unfold ipv6 at h
    cases hWalk : walk (total m) fuel (walkStart m net) with
    | none => simp [hWalk] at h
    | some e => exact ⟨fuel, e, hWalk⟩
  · rintro ⟨fuel, e, h⟩
    refine ⟨fuel, ?_⟩
    unfold ipv6
    cases e with
    | outside => exact absurd h (walk_total_ne_outside m fuel _)
    | returned code w =>
        rw [h]
        cases code with
        | zero => exact ⟨_, rfl⟩
        | succ code => exact ⟨_, rfl⟩

theorem network_returns_iff (m : Image) (net : Nat) (self : Packet) :
    (∃ fuel r, network fuel m net self = some r) ↔
      (self.macType = ethertypeIpv6 →
        ∃ fuel e, walk (total m) fuel (walkStart m net) = some e) := by
  by_cases hIp : self.macType = ethertypeIp
  · simp [network_ip _ m net hIp, hIp, ethertypeIp, ethertypeIpv6]
  by_cases hIpv6 : self.macType = ethertypeIpv6
  · rw [← ipv6_returns_iff m net (ipv6Packet m net self)]
    simp only [network_ipv6 _ m net hIpv6, hIpv6, true_implies]
    refine exists_congr fun fuel => ?_
    cases hRes : ipv6 fuel m net (ipv6Packet m net self) with
    | none => simp
    | some r =>
        obtain ⟨code, p⟩ := r
        cases code <;> simp
  · simp [network_other _ m net hIp hIpv6, hIpv6]

/-- On an image that goes on behind the packet, only an IPv6 chain can keep
the dissector from returning. -/
theorem parse_returns_iff_of_image (m : Image) (len type : Nat) :
    (∃ fuel r, parse fuel m len type = some r) ↔
      ∀ macVlan net, linkHeader m type = some (ethertypeIpv6, macVlan, net) →
        ChainMoves (total m) ⟨net + 40, byte m (net + 6)⟩ ∧
          ChainBounded (total m) ⟨net + 40, byte m (net + 6)⟩ := by
  unfold parse
  cases hLink : linkHeader m type with
  | none => simp
  | some link =>
      obtain ⟨macType, macVlan, net⟩ := link
      simp only [network_returns_iff, walk_ends_iff, chain_ends_iff, Walk.header, walkStart]
      simp only [linkPacket, Option.some.injEq, Prod.mk.injEq]
      constructor
      · rintro h vlan net' ⟨rfl, rfl, rfl⟩
        exact h rfl
      · rintro h rfl
        exact h macVlan net ⟨rfl, rfl, rfl⟩

/-- The dissector returns on an image that goes on behind the packet exactly
when, for an IPv6 packet, the chain of extension headers holds no stuck header
and does not go on for ever. On a buffer that ends, the loop is over after
finitely many passes exactly when the chain holds no stuck header. -/
theorem parse_returns_iff_chain_moves (m : Image) (len type : Nat) (buf : List UInt8) (start : Nat) :
    ((∃ fuel r, parse fuel m len type = some r) ↔
      ∀ macVlan net, linkHeader m type = some (ethertypeIpv6, macVlan, net) →
        ChainMoves (total m) ⟨net + 40, byte m (net + 6)⟩ ∧
          ChainBounded (total m) ⟨net + 40, byte m (net + 6)⟩) ∧
    ((∃ fuel e, walk (fun i => buf[i]?) fuel (walkStart (ofList buf) start) = some e) ↔
      ChainMoves (fun i => buf[i]?) ⟨start + 40, byte (ofList buf) (start + 6)⟩) := by
  refine ⟨parse_returns_iff_of_image m len type, ?_⟩
  rw [walk_ends_iff, chain_ends_iff]
  exact and_iff_left (chainBounded_of_finite buf _)

/-- An Ethernet frame that announces IPv6 and is zero otherwise: a hop-by-hop
header of length zero that announces another hop-by-hop header. -/
def stuckFrame : Image := ofEntries [(12, 0x86), (13, 0xDD)]

theorem parse_stuckFrame_never_returns :
    ¬ ∃ fuel r, parse fuel stuckFrame 62 linktypeEthernet = some r := by
  rw [parse_returns_iff_of_image]
  intro h
  have hStuck : Stuck (total stuckFrame) ⟨14 + 40, byte stuckFrame (14 + 6)⟩ :=
    ⟨by decide, by decide, 0, by decide, by decide⟩
  exact (h 0 14 (by decide)).1 _ .refl hStuck

end Peak.Packet
