import Peak.Netmap.Contents

/-! What happens to packets on the way: whatever the program calls and whenever the
kernel takes its turns, every packet that came in is dropped, moved over to the host
or sent to one ring, once and in order, and the bytes that are sent are those that
the program gave back. -/
namespace Peak.Netmap

open Turns

/-- The packets of a ring that the program is done with, as they came in. -/
def receivedFrom (log : List Entry) (r : RingId) : List (List UInt8) :=
  (log.filter fun e => e.source = r).map Entry.received

/-- The packets of a ring that were moved over to the host. -/
def forwardedFrom (log : List Entry) (r : RingId) : List (List UInt8) :=
  (log.filter fun e => e.source = r ∧ e.fate = .forwarded).map Entry.released

/-- The packets that were sent to a ring. -/
def sentTo (log : List Entry) (r : RingId) : List (List UInt8) :=
  (log.filter fun e => e.fate = .sent r).map Entry.released

/-- The packets of a ring that the program is not done with, as they came in. -/
def World.pending (s : World) (r : RingId) : List (List UInt8) :=
  if s.self.priv.map Claim.ring = some r then s.received :: (s.self.shared.unread r).tail
  else s.self.shared.unread r

/-- A log accounts for the traffic. -/
structure Accounted (s : World) (log : List Entry) : Prop where
  arrived : ∀ r, s.self.shared.Known r → r.side = .rx →
    s.traffic.arrived r = receivedFrom log r ++ s.pending r
  forwarded : ∀ r, s.self.shared.Known r → r.side = .rx →
    s.traffic.forwarded r ++ s.self.shared.leaving r = forwardedFrom log r
  transmitted : ∀ r, s.self.shared.Known r → r.side = .tx →
    s.traffic.transmitted r ++ s.self.shared.queued r = sentTo log r

/-- The packet of the program is the next one in a receive ring. -/
structure Holds (s : World) (claim : Claim) : Prop where
  side : claim.ring.side = .rx
  known : s.self.shared.Known claim.ring
  some : (s.self.shared.ring claim.ring).empty = false
  i : claim.i = (s.self.shared.ring claim.ring).cur
  waiting : s.waiting = none
  privateData : s.packet.privateData = true
  buf : s.packet.buf = Option.some (s.self.shared.current claim.ring).bufIdx
  len : s.packet.len = (s.self.shared.current claim.ring).len

/-- The device has all of its rings. -/
structure Dev.Wired (m : Shared) (dev : Dev) : Prop where
  order : dev.begin ≤ dev.stop
  rx : ∀ i, dev.begin ≤ i → i ≤ dev.stop → m.Known (dev.rxRing i)
  tx : ∀ i, dev.begin ≤ i → i ≤ dev.stop → m.Known (dev.txRing i)

/-- What holds at any time. -/
structure Sound (bufs : Set Nat) (s : World) (log : List Entry) : Prop where
  ok : s.self.shared.Ok bufs
  wired : ∀ dev ∈ s.self.dev, dev.Wired s.self.shared
  held : ∀ claim, s.self.priv = some claim → Holds s claim
  idle : s.self.priv = none → s.packet.privateData = false
  account : Accounted s log

variable {bufs : Set Nat} {s : World} {log : List Entry} {e : Entry} {r c t : RingId} {self self' : Netmaps}
variable {dev : Dev} {mode : Mode} {rx : Nat} {packet : Transfer} {claim : Claim} {m : Shared}

theorem receivedFrom_snoc :
    receivedFrom (log ++ [e]) r = receivedFrom log r ++ if e.source = r then [e.received] else [] := by
  rw [receivedFrom, List.filter_append, List.map_append, ← receivedFrom, List.filter_singleton]
  by_cases h : e.source = r <;> simp [h]

theorem forwardedFrom_snoc : forwardedFrom (log ++ [e]) r =
    forwardedFrom log r ++ if e.source = r ∧ e.fate = .forwarded then [e.released] else [] := by
  rw [forwardedFrom, List.filter_append, List.map_append, ← forwardedFrom, List.filter_singleton]
  by_cases h : e.source = r ∧ e.fate = .forwarded <;> simp [h]

theorem sentTo_snoc :
    sentTo (log ++ [e]) r = sentTo log r ++ if e.fate = .sent r then [e.released] else [] := by
  rw [sentTo, List.filter_append, List.map_append, ← sentTo, List.filter_singleton]
  by_cases h : e.fate = .sent r <;> simp [h]

/-- A packet was taken from a ring of a device. -/
structure Takes (net : Netmaps) (dev : Dev) (rx : Nat) (packet : Transfer) (net' : Netmaps) : Prop where
  some : (net.shared.ring (dev.rxRing rx)).empty = false
  shared : net'.shared = net.shared
  devices : net'.dev = net.dev
  priv : net'.priv = Option.some ⟨dev.rxRing rx, (net.shared.ring (dev.rxRing rx)).cur⟩
  privateData : packet.privateData = true
  ifname : packet.ifname = Option.some dev.ifname
  buf : packet.buf = Option.some (net.shared.current (dev.rxRing rx)).bufIdx
  len : packet.len = (net.shared.current (dev.rxRing rx)).len

theorem Takes.last (h : Takes self dev rx packet self') (j : Nat) :
    Takes self dev rx packet { self' with last := j } :=
  ⟨h.some, h.shared, h.devices, h.priv, h.privateData, h.ifname, h.buf, h.len⟩

/-- There is nothing to read from a device. -/
def Netmaps.Empty (self : Netmaps) (mode : Mode) (dev : Dev) : Prop :=
  dev.type ≠ .pipeMaster → ∀ rx ∈ Netmaps.recvRings dev mode, (self.shared.ring (dev.rxRing rx)).empty = true

namespace Netmaps

theorem recvRing_cases (hOk : self.shared.Ok bufs) (hKnown : self.shared.Known (dev.rxRing rx)) :
    (self.shared.ring (dev.rxRing rx)).empty = true ∧ self.recvRing dev rx = .ok none ∨
      ∃ packet self', self.recvRing dev rx = .ok (some (packet, self')) ∧ Takes self dev rx packet self' := by
  have hSlot : (dev.rxRing rx, (self.shared.ring (dev.rxRing rx)).cur) ∈ self.shared.slots :=
    (hOk.ordered _ hKnown).cur_lt
  have hUsable : 2 ≤ (self.shared.current (dev.rxRing rx)).bufIdx := hOk.usable _ (hOk.once.mapsTo hSlot)
  cases hEmpty : (self.shared.ring (dev.rxRing rx)).empty with
  | true => exact .inl ⟨rfl, by simp only [recvRing, hEmpty, if_true]⟩
  | false =>
      refine .inr ?_
      simp only [recvRing, hEmpty, Bool.false_eq_true, if_false]
      rw [Shared.current] at hUsable
      rw [if_neg (Nat.not_lt.mpr hUsable)]
      exact ⟨_, _, rfl, hEmpty, rfl, rfl, rfl, rfl, rfl, rfl, rfl⟩

theorem recvFirst_cases (hOk : self.shared.Ok bufs) {rings : List Nat}
    (hKnown : ∀ rx ∈ rings, self.shared.Known (dev.rxRing rx)) :
    (∀ rx ∈ rings, (self.shared.ring (dev.rxRing rx)).empty = true) ∧ self.recvFirst dev rings = .ok none ∨
      ∃ rx ∈ rings, ∃ packet self', self.recvFirst dev rings = .ok (some (packet, self')) ∧
        Takes self dev rx packet self' := by
  induction rings with
  | nil => exact .inl ⟨fun rx hMem => absurd hMem List.not_mem_nil, rfl⟩
  | cons rx rest ih =>
      rcases recvRing_cases hOk (hKnown rx List.mem_cons_self) with ⟨hEmpty, hNone⟩ | ⟨packet, self', hSome, hTakes⟩
      · simp only [recvFirst, hNone]
        rcases ih fun rx hMem => hKnown rx (List.mem_cons_of_mem _ hMem) with ⟨hAll, hRest⟩ | ⟨rx', hMem, hFound⟩
        · exact .inl ⟨List.forall_mem_cons.mpr ⟨hEmpty, hAll⟩, hRest⟩
        · exact .inr ⟨rx', List.mem_cons_of_mem _ hMem, hFound⟩
      · refine .inr ⟨rx, List.mem_cons_self, packet, self', ?_, hTakes⟩
        simp only [recvFirst, hSome]

theorem mem_wire (h : rx ∈ wire dev) : dev.begin ≤ rx ∧ rx < dev.stop := by
  obtain ⟨hLow, hHigh⟩ := List.mem_range'_1.mp h
  exact ⟨hLow, by omega⟩

theorem mem_recvRings (hOrder : dev.begin ≤ dev.stop) (h : rx ∈ recvRings dev mode) :
    dev.begin ≤ rx ∧ rx ≤ dev.stop := by
  have hEither : rx ∈ wire dev ∨ rx = dev.stop := by
    unfold recvRings at h
    cases mode with
    | dflt =>
        dsimp only at h
        split_ifs at h
        · exact (List.mem_append.mp h).symm.imp_right List.mem_singleton.mp
        · exact .inl h
    | host =>
        dsimp only at h
        split_ifs at h
        · exact .inr (List.mem_singleton.mp h)
        · exact .inl h
    | wire => exact .inl h
    | pipe => exact .inl h
  rcases hEither with hWire | rfl
  · exact ⟨(mem_wire hWire).1, (mem_wire hWire).2.le⟩
  · exact ⟨hOrder, Nat.le_refl _⟩

theorem recvDev_cases (hOk : self.shared.Ok bufs) (hWired : dev.Wired self.shared) (mode : Mode) :
    self.Empty mode dev ∧ self.recvDev dev mode = .ok none ∨
      dev.type ≠ .pipeMaster ∧ ∃ rx ∈ recvRings dev mode, ∃ packet self',
        self.recvDev dev mode = .ok (some (packet, self')) ∧ Takes self dev rx packet self' := by
  rw [recvDev]
  split_ifs with hMaster
  · exact .inl ⟨fun hType => absurd hMaster hType, rfl⟩
  · have hKnown : ∀ rx ∈ recvRings dev mode, self.shared.Known (dev.rxRing rx) := by
      intro rx hMem
      obtain ⟨hLow, hHigh⟩ := mem_recvRings hWired.order hMem
      exact hWired.rx rx hLow hHigh
    rcases recvFirst_cases hOk hKnown with ⟨hAll, hNone⟩ | hFound
    · exact .inl ⟨fun _ => hAll, hNone⟩
    · exact .inr ⟨hMaster, hFound⟩

/-- A packet was taken from one of the devices. -/
def Finds (self : Netmaps) (mode : Mode) (packet : Transfer) (self' : Netmaps) : Prop :=
  ∃ dev ∈ self.dev, dev.type ≠ .pipeMaster ∧ ∃ rx ∈ recvRings dev mode, Takes self dev rx packet self'

theorem recvTurn_cases (hOk : self.shared.Ok bufs) (hWired : ∀ dev ∈ self.dev, dev.Wired self.shared)
    (mode : Mode) (n j : Nat) :
    (∀ k, k < n → ∀ dev, self.dev[(j + k + 1) % self.dev.length]? = some dev → self.Empty mode dev) ∧
        self.recvTurn mode n j = .ok none ∨
      ∃ packet self', self.recvTurn mode n j = .ok (some (packet, self')) ∧ self.Finds mode packet self' := by
  induction n generalizing j with
  | zero => exact .inl ⟨fun k hk => absurd hk (Nat.not_lt_zero k), rfl⟩
  | succ n ih =>
      simp only [recvTurn]
      cases hDev : self.dev[(j + 1) % self.dev.length]? with
      | none =>
          refine .inl ⟨fun k _ dev' hDev' => ?_, rfl⟩
          have hFew := List.getElem?_eq_none_iff.mp hDev
          rcases Nat.eq_zero_or_pos self.dev.length with hZero | hPos
          · rw [List.eq_nil_of_length_eq_zero hZero] at hDev'
            simp at hDev'
          · exact absurd (Nat.mod_lt (j + 1) hPos) (Nat.not_lt.mpr hFew)
      | some dev =>
          have hMem := List.mem_of_getElem? hDev
          rcases recvDev_cases hOk (hWired dev hMem) mode with
            ⟨hEmpty, hNone⟩ | ⟨hType, rx, hRings, packet, self', hSome, hTakes⟩
          · simp only [hNone]
            rcases ih ((j + 1) % self.dev.length) with ⟨hAll, hRest⟩ | hFound
            · refine .inl ⟨fun k hk dev' hDev' => ?_, hRest⟩
              cases k with
              | zero =>
                  rw [Nat.add_zero, hDev] at hDev'
                  exact Option.some.inj hDev' ▸ hEmpty
              | succ k =>
                  refine hAll k (Nat.lt_of_succ_lt_succ hk) dev' ?_
                  rw [← hDev']
                  congr 1
                  rw [Nat.add_assoc, Nat.mod_add_mod]
                  congr 1
                  omega
            · exact .inr hFound
          · simp only [hSome]
            exact .inr ⟨packet, _, rfl, dev, hMem, hType, rx, hRings, hTakes.last _⟩

end Netmaps

/-- The kernel does not take the packet away from the program. -/
theorem Sound.kernel (h : Sound bufs s log) (traffic : Traffic) (hOk : m.Ok bufs)
    (hSize : ∀ r, (m.ring r).numSlots = (s.self.shared.ring r).numSlots)
    (hKeeps : ∀ r, r.side = .rx → (s.self.shared.ring r).empty = false → s.self.shared.Known r →
      (m.ring r).empty = false ∧ (m.ring r).cur = (s.self.shared.ring r).cur ∧
        m.current r = s.self.shared.current r)
    (hAccount : Accounted { s.setShared m with traffic := traffic } log) :
    Sound bufs { s.setShared m with traffic := traffic } log := by
  have hKnown : ∀ r, m.Known r ↔ s.self.shared.Known r := fun r => by rw [Shared.Known, Shared.Known, hSize]
  refine ⟨hOk, fun dev hMem => ?_, fun claim hClaim => ?_, h.idle, hAccount⟩
  · have hWired := h.wired dev hMem
    exact ⟨hWired.order, fun i hLow hHigh => (hKnown _).mpr (hWired.rx i hLow hHigh),
      fun i hLow hHigh => (hKnown _).mpr (hWired.tx i hLow hHigh)⟩
  · have hHolds := h.held claim hClaim
    obtain ⟨hSome, hCur, hCurrent⟩ := hKeeps claim.ring hHolds.side hHolds.some hHolds.known
    refine ⟨hHolds.side, (hKnown _).mpr hHolds.known, hSome, hHolds.i.trans hCur.symm, hHolds.waiting,
      hHolds.privateData, ?_, ?_⟩
    · show s.packet.buf = some (m.current claim.ring).bufIdx
      rw [hCurrent]
      exact hHolds.buf
    · show s.packet.len = (m.current claim.ring).len
      rw [hCurrent]
      exact hHolds.len

theorem pending_congr {traffic : Traffic} (h : m.unread r = s.self.shared.unread r) :
    World.pending { s.setShared m with traffic := traffic } r = s.pending r := by
  rw [World.pending, World.pending, ← h]
  rfl

/-- The packet that comes in is the last one that the program will get. -/
theorem Sound.pending_arrive (h : Sound bufs s log) {content : List UInt8} {traffic : Traffic}
    (hUnread : m.unread r = s.self.shared.unread r ++ [content]) :
    World.pending { s.setShared m with traffic := traffic } r = s.pending r ++ [content] := by
  show (if s.self.priv.map Claim.ring = some r then s.received :: (m.unread r).tail else m.unread r) = _
  rw [World.pending, hUnread]
  split_ifs with hClaim
  · obtain ⟨claim, hClaim', rfl⟩ := Option.map_eq_some_iff.mp hClaim
    have hHolds := h.held claim hClaim'
    rw [h.ok.unread_eq hHolds.known hHolds.some]
    rfl
  · rfl

theorem Sound.arrive (h : Sound bufs s log) {content : List UInt8} {flags : BitVec 16} {ts : Timeval}
    (hSide : r.side = .rx) (hKnown : s.self.shared.Known r)
    (hRoom : next (s.self.shared.ring r).numSlots (s.self.shared.ring r).tail ≠ (s.self.shared.ring r).hwcur) :
    Sound bufs (s.arrive r content flags ts) log := by
  have hEither : ∀ r', ((s.self.shared.arrive r content flags ts).ring r') =
      if r' = r then (s.self.shared.ring r).provide
        (fun slot => { slot with len := content.length, flags := flags }) ts else s.self.shared.ring r' :=
    fun r' => Shared.ring_modify_apply _ _ _ _
  have hSize : ∀ r', ((s.self.shared.arrive r content flags ts).ring r').numSlots =
      (s.self.shared.ring r').numSlots := by
    intro r'
    rw [hEither]
    split_ifs with hSame
    · rw [hSame]
      rfl
    · rfl
  have hOld : ∀ r', (s.self.shared.arrive r content flags ts).Known r' → s.self.shared.Known r' := by
    intro r' hKnown'
    rwa [Shared.Known, ← hSize r']
  refine h.kernel _ (h.ok.arrive hRoom) hSize (fun r' hSide' hSome hKnown' => ?_) ?_
  · rw [Shared.current, hEither]
    split_ifs with hSame
    · subst hSame
      exact ⟨(h.ok.ordered r' hKnown).some_provide hRoom hSome _ _, rfl, Ring.current_provide hSome _ _⟩
    · exact ⟨hSome, rfl, rfl⟩
  · refine ⟨fun r' hNew hSide' => ?_, fun r' hNew hSide' => ?_, fun r' hNew hSide' => ?_⟩
    · show Function.update s.traffic.arrived r (s.traffic.arrived r ++ [content]) r' = _
      rw [Function.update_apply]
      split_ifs with hSame
      · subst hSame
        rw [h.account.arrived r' hKnown hSide, h.pending_arrive (h.ok.unread_arrive hKnown hRoom), List.append_assoc]
      · rw [pending_congr (h.ok.unread_arrive_of_ne hKnown (hOld r' hNew) hSame),
          h.account.arrived r' (hOld r' hNew) hSide']
    · show s.traffic.forwarded r' ++ (s.self.shared.arrive r content flags ts).leaving r' = _
      rw [h.ok.leaving_arrive hKnown (hOld r' hNew) hRoom, h.account.forwarded r' (hOld r' hNew) hSide']
    · show s.traffic.transmitted r' ++ (s.self.shared.arrive r content flags ts).queued r' = _
      rw [h.ok.queued_arrive hKnown (hOld r' hNew) hRoom, h.account.transmitted r' (hOld r' hNew) hSide']

/-- The kernel only looks at slots that were given back. -/
theorem Sound.collect (h : Sound bufs s log) (traffic : Traffic)
    (hSome : (s.self.shared.ring r).hwcur ≠ (s.self.shared.ring r).head)
    (hArrived : traffic.arrived = s.traffic.arrived)
    (hForwarded : ∀ r', s.self.shared.Known r' → r'.side = .rx →
      traffic.forwarded r' ++ (s.self.shared.modify r Ring.collect).leaving r' =
        s.traffic.forwarded r' ++ s.self.shared.leaving r')
    (hTransmitted : ∀ r', s.self.shared.Known r' → r'.side = .tx →
      traffic.transmitted r' ++ (s.self.shared.modify r Ring.collect).queued r' =
        s.traffic.transmitted r' ++ s.self.shared.queued r') :
    Sound bufs { s.setShared (s.self.shared.modify r Ring.collect) with traffic := traffic } log := by
  have hEither := Shared.ring_modify_apply s.self.shared r (g := Ring.collect)
  have hSize : ∀ r', ((s.self.shared.modify r Ring.collect).ring r').numSlots = (s.self.shared.ring r').numSlots := by
    intro r'
    rw [hEither]
    split_ifs with hSame
    · rw [hSame]
      rfl
    · rfl
  have hOld : ∀ r', (s.self.shared.modify r Ring.collect).Known r' → s.self.shared.Known r' := by
    intro r' hKnown'
    rwa [Shared.Known, ← hSize r']
  refine h.kernel _ (h.ok.collect hSome) hSize (fun r' hSide' hSome' hKnown' => ?_) ?_
  · rw [Shared.current, hEither]
    split_ifs with hSame
    · subst hSame
      exact ⟨hSome', rfl, rfl⟩
    · exact ⟨hSome', rfl, rfl⟩
  · refine ⟨fun r' hNew hSide' => ?_, fun r' hNew hSide' => ?_, fun r' hNew hSide' => ?_⟩
    · show traffic.arrived r' = _
      rw [hArrived, h.account.arrived r' (hOld r' hNew) hSide', pending_congr (Shared.unread_collect _ _ _)]
    · exact (hForwarded r' (hOld r' hNew) hSide').trans (h.account.forwarded r' (hOld r' hNew) hSide')
    · exact (hTransmitted r' (hOld r' hNew) hSide').trans (h.account.transmitted r' (hOld r' hNew) hSide')

/-- A packet that is moved over to the host, or not. -/
theorem Sound.reclaim (h : Sound bufs s log) (hSide : r.side = .rx) (hKnown : s.self.shared.Known r)
    (hSome : (s.self.shared.ring r).hwcur ≠ (s.self.shared.ring r).head) : Sound bufs (s.reclaim r) log := by
  have hHead := h.ok.leaving_collect hKnown hSome
  have hQueued : ∀ r', r'.side = .tx →
      (s.self.shared.modify r Ring.collect).queued r' = s.self.shared.queued r' := by
    intro r' hSide'
    exact Shared.queued_modify_of_ne fun hSame => by rw [hSame, hSide] at hSide'; cases hSide'
  rw [World.reclaim]
  by_cases hForwards : ((s.self.shared.ring r).slot (s.self.shared.ring r).hwcur).forwards
  · rw [if_pos hForwards]
    rw [if_pos hForwards] at hHead
    refine h.collect _ hSome rfl (fun r' _ hSide' => ?_) fun r' _ hSide' => ?_
    · show Function.update s.traffic.forwarded r _ r' ++ _ = _
      rw [Function.update_apply]
      split_ifs with hSame
      · rw [hSame, hHead, List.append_assoc]
        rfl
      · rw [Shared.leaving_modify_of_ne hSame]
    · show s.traffic.transmitted r' ++ _ = _
      rw [hQueued r' hSide']
  · rw [if_neg hForwards]
    rw [if_neg hForwards] at hHead
    refine h.collect s.traffic hSome rfl (fun r' _ hSide' => ?_) fun r' _ hSide' => ?_
    · by_cases hSame : r' = r
      · rw [hSame, hHead]
      · rw [Shared.leaving_modify_of_ne hSame]
    · rw [hQueued r' hSide']

/-- A packet that is sent. -/
theorem Sound.transmit (h : Sound bufs s log) (hSide : r.side = .tx) (hKnown : s.self.shared.Known r)
    (hSome : (s.self.shared.ring r).hwcur ≠ (s.self.shared.ring r).head) : Sound bufs (s.transmit r) log := by
  have hHead := h.ok.queued_collect hKnown hSome
  refine h.collect _ hSome rfl (fun r' _ hSide' => ?_) fun r' _ hSide' => ?_
  · show s.traffic.forwarded r' ++ _ = _
    rw [Shared.leaving_modify_of_ne fun hSame => by rw [hSame, hSide] at hSide'; cases hSide']
  · show Function.update s.traffic.transmitted r _ r' ++ _ = _
    rw [Function.update_apply]
    split_ifs with hSame
    · rw [hSame, hHead, List.append_assoc]
      rfl
    · rw [Shared.queued_modify_of_ne hSame]

/-- Room for packets. -/
theorem Sound.grant (h : Sound bufs s log) {ts : Timeval} (hSide : r.side = .tx) (hKnown : s.self.shared.Known r)
    (hRoom : next (s.self.shared.ring r).numSlots (s.self.shared.ring r).tail ≠ (s.self.shared.ring r).hwcur) :
    Sound bufs (s.grant r ts) log := by
  have hOther : ∀ r', r'.side = .rx → r' ≠ r := by
    rintro r' hSide' rfl
    rw [hSide] at hSide'
    cases hSide'
  have hSize : ∀ r', ((s.self.shared.grant r ts).ring r').numSlots =
      (s.self.shared.ring r').numSlots := by
    intro r'
    rw [Shared.grant, Shared.ring_modify_apply]
    split_ifs with hSame
    · rw [hSame]
      rfl
    · rfl
  have hOld : ∀ r', (s.self.shared.grant r ts).Known r' → s.self.shared.Known r' := by
    intro r' hKnown'
    rwa [Shared.Known, ← hSize r']
  refine h.kernel s.traffic (h.ok.grant hRoom) hSize (fun r' hSide' hSome _ => ?_) ?_
  · rw [Shared.current, Shared.grant, Shared.ring_modify_of_ne (hOther r' hSide')]
    exact ⟨hSome, rfl, rfl⟩
  · refine ⟨fun r' hNew hSide' => ?_, fun r' hNew hSide' => ?_, fun r' hNew hSide' => ?_⟩
    · have hUnread : (s.self.shared.grant r ts).unread r' = s.self.shared.unread r' :=
        Shared.unread_modify_of_ne (hOther r' hSide')
      rw [pending_congr hUnread]
      exact h.account.arrived r' (hOld r' hNew) hSide'
    · show s.traffic.forwarded r' ++ (s.self.shared.grant r ts).leaving r' = _
      rw [Shared.grant, Shared.leaving_modify_of_ne (hOther r' hSide')]
      exact h.account.forwarded r' (hOld r' hNew) hSide'
    · show s.traffic.transmitted r' ++ (s.self.shared.grant r ts).queued r' = _
      rw [h.ok.queued_grant hKnown hRoom]
      exact h.account.transmitted r' (hOld r' hNew) hSide'

/-- The program gets a packet. -/
theorem Sound.take (h : Sound bufs s log) (hFree : s.self.priv = none) (hFinds : s.self.Finds mode packet self') :
    Sound bufs (s.claim packet self') log := by
  obtain ⟨dev, hDev, hType, rx, hRings, hTakes⟩ := hFinds
  obtain ⟨hLow, hHigh⟩ := Netmaps.mem_recvRings (h.wired dev hDev).order hRings
  have hKnown := (h.wired dev hDev).rx rx hLow hHigh
  have hShared := hTakes.shared
  have hContent : (s.claim packet self').received = s.self.shared.content (s.self.shared.current (dev.rxRing rx)) := by
    show self'.shared.content ⟨packet.buf.getD 0, packet.len, 0⟩ = _
    rw [hShared, hTakes.buf, hTakes.len]
    rfl
  have hPending : ∀ r, (s.claim packet self').pending r = s.pending r := by
    intro r
    show (if self'.priv.map Claim.ring = some r then _ :: (self'.shared.unread r).tail else self'.shared.unread r) = _
    have hOld : s.pending r = s.self.shared.unread r := by
      rw [World.pending, hFree]
      exact if_neg (Option.some_ne_none r).symm
    rw [hOld, hTakes.priv, hShared, Option.map_some]
    split_ifs with hSame
    · cases hSame
      rw [hContent]
      exact (h.ok.unread_eq hKnown hTakes.some).symm
    · rfl
  have hAccount := h.account
  refine ⟨hShared ▸ h.ok, ?_, fun claim hClaim => ?_, fun hNone => ?_, ?_, ?_, ?_⟩
  · show ∀ dev ∈ self'.dev, dev.Wired self'.shared
    rw [hShared, hTakes.devices]
    exact h.wired
  · obtain rfl : _ = claim := Option.some.inj (hTakes.priv.symm.trans hClaim)
    have hSelf : (s.claim packet self').self.shared = s.self.shared := hShared
    refine ⟨rfl, hSelf ▸ hKnown, hSelf ▸ hTakes.some, ?_, rfl, hTakes.privateData, hSelf ▸ hTakes.buf,
      hSelf ▸ hTakes.len⟩
    rw [hSelf]
  · rw [show (s.claim packet self').self.priv = self'.priv from rfl, hTakes.priv] at hNone
    cases hNone
  · intro r hKnown' hSide
    rw [hPending]
    exact hAccount.arrived r (hShared ▸ hKnown') hSide
  · intro r hKnown' hSide
    show s.traffic.forwarded r ++ self'.shared.leaving r = _
    rw [hShared]
    exact hAccount.forwarded r (hShared ▸ hKnown') hSide
  · intro r hKnown' hSide
    show s.traffic.transmitted r ++ self'.shared.queued r = _
    rw [hShared]
    exact hAccount.transmitted r (hShared ▸ hKnown') hSide

/-- The program changes its packet. -/
theorem Sound.write (h : Sound bufs s log) {content : List UInt8} (hClaim : s.self.priv = some claim) :
    Sound bufs (s.setShared (s.self.shared.write (s.packet.buf.getD 0) content)) log := by
  have hHolds := h.held claim hClaim
  have hBuf : s.packet.buf.getD 0 = (s.self.shared.current claim.ring).bufIdx := by
    rw [hHolds.buf]
    rfl
  have hPending : ∀ r, s.self.shared.Known r →
      (s.setShared (s.self.shared.write (s.self.shared.current claim.ring).bufIdx content)).pending r = s.pending r := by
    intro r hKnown
    show (if s.self.priv.map Claim.ring = some r then s.received :: (Shared.unread _ r).tail
      else Shared.unread _ r) = _
    rw [World.pending]
    split_ifs with hSame
    · rw [hClaim] at hSame
      cases hSame
      exact congrArg (List.cons s.received) (h.ok.later_write hHolds.known)
    · refine h.ok.unread_write_of_ne hHolds.known hKnown fun hSame' => hSame ?_
      rw [hClaim, hSame']
      rfl
  rw [hBuf]
  refine ⟨h.ok.write, fun dev hDev => ⟨(h.wired dev hDev).order, (h.wired dev hDev).rx, (h.wired dev hDev).tx⟩,
    fun claim' hClaim' => ?_, h.idle, fun r hKnown hSide => ?_, fun r hKnown hSide => ?_,
    fun r hKnown hSide => ?_⟩
  · have hHolds' := h.held claim' hClaim'
    exact ⟨hHolds'.side, hHolds'.known, hHolds'.some, hHolds'.i, hHolds'.waiting, hHolds'.privateData, hHolds'.buf,
      hHolds'.len⟩
  · rw [hPending r hKnown]
    exact h.account.arrived r hKnown hSide
  · show s.traffic.forwarded r ++ (s.self.shared.write _ content).leaving r = _
    rw [h.ok.leaving_write hHolds.known hKnown]
    exact h.account.forwarded r hKnown hSide
  · show s.traffic.transmitted r ++ (s.self.shared.write _ content).queued r = _
    rw [h.ok.queued_write hHolds.known hKnown]
    exact h.account.transmitted r hKnown hSide

end Peak.Netmap
