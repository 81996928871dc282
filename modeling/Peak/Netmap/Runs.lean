import Mathlib.Data.Nat.Pairing
import Peak.Netmap.Devices
import Peak.Netmap.Traffic

/-! Runs of a program that uses `lib/peak_netmap.c`. -/
namespace Peak.Netmap

open Turns

variable {bufs : Set Nat} {s s' start : World} {log : List Entry} {r c t : RingId} {self self' : Netmaps}
variable {dev : Dev} {mode : Mode} {rx tx : Nat} {packet : Transfer} {claim : Claim} {m : Shared} {f : Slot → Slot}
variable {ifname : Option Name}

/-- What goes on record of the packet in a slot. -/
theorem Sound.given_eq (h : Sound bufs s log) (hClaim : s.self.priv = some claim) (fate : Fate) :
    s.given (some fate) =
      [⟨claim.ring, s.received, s.self.shared.content (s.self.shared.current claim.ring), s.full, fate⟩] := by
  have hHolds := h.held claim hClaim
  simp only [World.given, hClaim, Netmaps.bytes, hHolds.buf, hHolds.len]
  rfl

/-- The record does not change what it is a record of. -/
theorem Sound.record (h : Sound bufs s log) (full : List RingId) (log' : List Entry) :
    Sound bufs { s with full := full, log := log' } log := by
  refine ⟨h.ok, h.wired, fun claim hClaim => ?_, h.idle,
    ⟨h.account.arrived, h.account.forwarded, h.account.transmitted⟩⟩
  have hHolds := h.held claim hClaim
  exact ⟨hHolds.side, hHolds.known, hHolds.some, hHolds.i, hHolds.waiting, hHolds.privateData, hHolds.buf,
    hHolds.len⟩

/-- The program is done with its packet. -/
def World.done (s : World) (m : Shared) : World :=
  { s with packet := {}, self := { s.self with shared := m, priv := none } }

/-- The packet is done with, and its ring goes on to the next one. -/
theorem Sound.done (h : Sound bufs s log) (hClaim : s.self.priv = some claim) (fate : Fate) (hOk : m.Ok bufs)
    (hSize : ∀ r, (m.ring r).numSlots = (s.self.shared.ring r).numSlots)
    (hUnread : m.unread claim.ring = (s.self.shared.unread claim.ring).tail)
    (hOthers : ∀ r, r.side = .rx → r ≠ claim.ring → m.unread r = s.self.shared.unread r)
    (hLeaving : ∀ r, s.self.shared.Known r → r.side = .rx → m.leaving r = s.self.shared.leaving r ++
      if claim.ring = r ∧ fate = .forwarded then [s.self.shared.content (s.self.shared.current claim.ring)] else [])
    (hQueued : ∀ r, s.self.shared.Known r → r.side = .tx → m.queued r = s.self.shared.queued r ++
      if fate = .sent r then [s.self.shared.content (s.self.shared.current claim.ring)] else []) :
    Sound bufs (s.done m) (log ++ s.given (some fate)) := by
  rw [h.given_eq hClaim]
  have hHolds := h.held claim hClaim
  have hKnown : ∀ r, m.Known r ↔ s.self.shared.Known r := fun r => by rw [Shared.Known, Shared.Known, hSize]
  refine ⟨hOk, fun dev hMem => ?_, fun claim' hNone => ?_, fun _ => rfl, fun r hNew hSide => ?_,
    fun r hNew hSide => ?_, fun r hNew hSide => ?_⟩
  · have hWired := h.wired dev hMem
    exact ⟨hWired.order, fun i hLow hHigh => (hKnown _).mpr (hWired.rx i hLow hHigh),
      fun i hLow hHigh => (hKnown _).mpr (hWired.tx i hLow hHigh)⟩
  · cases hNone
  · have hPending : (s.done m).pending r = m.unread r := if_neg (Option.some_ne_none r).symm
    show s.traffic.arrived r = _
    rw [hPending, h.account.arrived r ((hKnown r).mp hNew) hSide, receivedFrom_snoc, World.pending, hClaim,
      Option.map_some]
    by_cases hSame : claim.ring = r
    · subst hSame
      rw [if_pos rfl, if_pos rfl, hUnread, List.append_assoc]
      rfl
    · rw [if_neg fun h => hSame (Option.some.inj h), if_neg hSame, List.append_nil, hOthers r hSide (Ne.symm hSame)]
  · show s.traffic.forwarded r ++ m.leaving r = _
    rw [hLeaving r ((hKnown r).mp hNew) hSide, ← List.append_assoc,
      h.account.forwarded r ((hKnown r).mp hNew) hSide, forwardedFrom_snoc]
  · show s.traffic.transmitted r ++ m.queued r = _
    rw [hQueued r ((hKnown r).mp hNew) hSide, ← List.append_assoc,
      h.account.transmitted r ((hKnown r).mp hNew) hSide, sentTo_snoc]

/-- The slot of a packet is the next one of its ring. -/
theorem Sound.settle_eq (h : Sound bufs s log) (hClaim : s.self.priv = some claim) :
    { s with packet := {}, self := s.self.settle claim f } = s.done (s.self.shared.release claim.ring f) := by
  have hModify : (s.self.shared.modify claim.ring fun ring => (ring.modifySlot claim.i f).release) =
      s.self.shared.release claim.ring f := Shared.modify_congr (by rw [(h.held claim hClaim).i])
  rw [Netmaps.settle, hModify]
  rfl

/-- A packet is dropped or moved over to the host. -/
theorem Sound.settle (h : Sound bufs s log) (hClaim : s.self.priv = some claim) (fate : Fate)
    (hf : ∀ slot, (f slot).bufIdx = slot.bufIdx ∧ (f slot).len = slot.len)
    (hFate : ∀ slot, (f slot).forwards = decide (fate = .forwarded)) (hNotSent : ∀ r, fate ≠ .sent r) :
    Sound bufs { s with packet := {}, self := s.self.settle claim f } (log ++ s.given (some fate)) := by
  have hHolds := h.held claim hClaim
  have hContent : s.self.shared.content (f (s.self.shared.current claim.ring)) =
      s.self.shared.content (s.self.shared.current claim.ring) := by
    rw [Shared.content, Shared.content, (hf _).1, (hf _).2]
  rw [h.settle_eq hClaim]
  refine h.done hClaim fate (h.ok.release hHolds.some (hf _).1) (fun r => ?_)
    (h.ok.unread_release hHolds.known hHolds.some) (fun r _ hOther => Shared.unread_modify_of_ne hOther)
    (fun r hKnown hSide => ?_) fun r hKnown hSide => ?_
  · rw [Shared.release, Shared.ring_modify_apply]
    split_ifs with hSame
    · rw [hSame]
      rfl
    · rfl
  · by_cases hSame : claim.ring = r
    · subst hSame
      rw [h.ok.leaving_release hKnown hHolds.some, hFate, hContent]
      simp only [decide_eq_true_eq, true_and]
    · rw [if_neg fun h => hSame h.1, List.append_nil, Shared.release, Shared.leaving_modify_of_ne (Ne.symm hSame)]
  · have hOther : r ≠ claim.ring := by
      rintro rfl
      rw [hHolds.side] at hSide
      cases hSide
    rw [if_neg (hNotSent r), List.append_nil, Shared.release, Shared.queued_modify_of_ne hOther]

/-- What a slot is told about its new buffer. -/
def sentFlags (flags : BitVec 16) : BitVec 16 := flags ||| nsBufChanged

/-- What the slot of a packet that is sent is told. -/
def takenFlags (flags : BitVec 16) : BitVec 16 := (flags ||| nsBufChanged) &&& ~~~nsForward

theorem clear_forward (flags : BitVec 16) : flags &&& ~~~nsForward &&& nsForward = 0 := by
  rw [BitVec.and_assoc, BitVec.and_comm (~~~nsForward), BitVec.and_not_self]
  exact BitVec.and_zero

theorem set_forward (flags : BitVec 16) : (flags ||| nsForward) &&& nsForward ≠ 0 := by
  have hAbsorb : (flags ||| nsForward) &&& nsForward = nsForward := by
    ext i hi
    rw [BitVec.getElem_and, BitVec.getElem_or]
    cases flags[i] <;> cases nsForward[i] <;> rfl
  rw [hAbsorb]
  decide

/-- To send a packet is to exchange two buffers. -/
theorem Sound.sendRing_cases (h : Sound bufs s log) (hClaim : s.self.priv = some claim) (hSide : r.side = .tx) :
    (s.self.shared.ring r).empty = true ∧ s.self.sendRing claim r = none ∨
      (s.self.shared.ring r).empty = false ∧ ∃ self', s.self.sendRing claim r = some ({}, self') ∧
        { s with packet := {}, self := self' } =
          s.done (s.self.shared.exchange claim.ring r sentFlags takenFlags) := by
  have hHolds := h.held claim hClaim
  have hOther : claim.ring ≠ r := by
    rintro rfl
    rw [hHolds.side] at hSide
    cases hSide
  cases hEmpty : (s.self.shared.ring r).empty with
  | true => exact .inl ⟨rfl, by rw [Netmaps.sendRing]; simp only [hEmpty, if_true]⟩
  | false =>
      let m := s.self.shared.modify r fun ring => (ring.modifySlot ring.cur fun ts =>
        { bufIdx := (s.self.shared.current claim.ring).bufIdx, len := (s.self.shared.current claim.ring).len,
          flags := sentFlags ts.flags }).release
      have hCur : m.ring claim.ring = s.self.shared.ring claim.ring := Shared.ring_modify_of_ne hOther
      have hModify : (m.modify claim.ring fun ring => (ring.modifySlot claim.i fun rs =>
          { rs with bufIdx := (s.self.shared.current r).bufIdx, flags := takenFlags rs.flags }).release) =
            s.self.shared.exchange claim.ring r sentFlags takenFlags := by
        rw [Shared.exchange]
        refine Shared.modify_congr ?_
        rw [hCur, hHolds.i]
        rfl
      refine .inr ⟨rfl, { s.self with
        shared := s.self.shared.exchange claim.ring r sentFlags takenFlags, priv := none }, ?_, rfl⟩
      rw [← hModify, Netmaps.sendRing]
      simp only [hEmpty, Bool.false_eq_true, if_false, Netmaps.settle]
      rw [hHolds.i]
      rfl

/-- A packet is sent to a ring with room. -/
theorem Sound.exchange (h : Sound bufs s log) (hClaim : s.self.priv = some claim) (hSide : r.side = .tx)
    (hKnown : s.self.shared.Known r) (hRoom : (s.self.shared.ring r).empty = false) :
    Sound bufs (s.done (s.self.shared.exchange claim.ring r sentFlags takenFlags))
      (log ++ s.given (some (.sent r))) := by
  have hHolds := h.held claim hClaim
  have hOther : ∀ r', r'.side = .rx → r' ≠ r := by
    rintro r' hSide' rfl
    rw [hSide] at hSide'
    cases hSide'
  have hApart := hOther claim.ring hHolds.side
  refine h.done hClaim _ (h.ok.exchange hApart hHolds.known hKnown hHolds.some hRoom)
    (Shared.numSlots_exchange hApart)
    (h.ok.unread_exchange hApart hHolds.known hHolds.some)
    (fun r' hSide' hNe => Shared.unread_exchange_of_ne hNe (hOther r' hSide')) (fun r' _ hSide' => ?_)
    fun r' _ hSide' => ?_
  · rw [if_neg fun hBoth => Fate.noConfusion hBoth.2, List.append_nil]
    by_cases hSame : r' = claim.ring
    · rw [hSame]
      exact h.ok.leaving_exchange hApart hHolds.known hHolds.some fun flags => clear_forward _
    · exact Shared.leaving_exchange_of_ne hSame (hOther r' hSide')
  · by_cases hSame : r' = r
    · subst hSame
      rw [h.ok.queued_exchange hApart hKnown hRoom, if_pos rfl]
    · have hNe : r' ≠ claim.ring := by
        rintro rfl
        rw [hHolds.side] at hSide'
        cases hSide'
      rw [if_neg fun hFate => hSame (Fate.sent.inj hFate).symm, List.append_nil,
        Shared.queued_exchange_of_ne hNe hSame]

/-- The packet goes to the first ring with room. -/
theorem Sound.sendFirst_cases (h : Sound bufs s log) (hClaim : s.self.priv = some claim) {rings : List Nat}
    (hKnown : ∀ tx ∈ rings, s.self.shared.Known (dev.txRing tx)) :
    ((rings.map dev.txRing).find? fun r => !(s.self.shared.ring r).empty) = none ∧
        s.self.sendFirst claim dev rings = none ∨
      ∃ r, ((rings.map dev.txRing).find? fun r => !(s.self.shared.ring r).empty) = some r ∧
        ∃ self', s.self.sendFirst claim dev rings = some ({}, self') ∧ self'.dev = s.self.dev ∧
          Sound bufs { s with packet := {}, self := self' } (log ++ s.given (some (.sent r))) := by
  induction rings with
  | nil => exact .inl ⟨rfl, rfl⟩
  | cons tx rest ih =>
      rw [List.map_cons, List.find?_cons]
      rcases h.sendRing_cases hClaim (r := dev.txRing tx) rfl with ⟨hFull, hNone⟩ | ⟨hRoom, self', hSome, hDone⟩
      · simp only [Netmaps.sendFirst, hNone, hFull]
        exact ih fun tx hMem => hKnown tx (List.mem_cons_of_mem _ hMem)
      · refine .inr ⟨dev.txRing tx, by simp only [hRoom, Bool.not_false], self', ?_,
          congrArg (·.self.dev) hDone, ?_⟩
        · simp only [Netmaps.sendFirst, hSome]
        · rw [hDone]
          exact h.exchange hClaim rfl (hKnown tx List.mem_cons_self) hRoom

theorem mem_sendRings (hOrder : dev.begin ≤ dev.stop) (h : tx ∈ Netmaps.sendRings dev mode) :
    dev.begin ≤ tx ∧ tx ≤ dev.stop := by
  have hEither : tx ∈ Netmaps.wire dev ∨ tx = dev.stop := by
    cases mode with
    | host => exact .inr (List.mem_singleton.mp h)
    | dflt => exact .inl h
    | wire => exact .inl h
    | pipe => exact .inl h
  rcases hEither with hWire | rfl
  · exact ⟨(Netmaps.mem_wire hWire).1, (Netmaps.mem_wire hWire).2.le⟩
  · exact ⟨hOrder, Nat.le_refl _⟩

/-- A name leads to the device that has it and is not the slave end of a pipe. -/
theorem Netmaps.ringsOf_eq (self : Netmaps) (ifname : Name) (mode : Mode) :
    self.ringsOf ifname mode =
      ((self.dev[self.find (some ifname) .pipeSlave]?).map fun dev => (sendRings dev mode).map dev.txRing).getD [] := by
  have hSame : Dev.named ifname .pipeSlave = fun dev => decide (dev.ifname = ifname ∧ dev.type ≠ .pipeSlave) := by
    funext dev
    rw [Bool.eq_iff_iff, Dev.named_iff, decide_eq_true_iff]
    simp only [reduceCtorEq, false_or]
    exact and_congr eq_comm ne_comm
  rw [ringsOf, find, ← List.find?_eq_getElem?_findIdx, hSame]
  cases self.dev.find? fun dev => decide (dev.ifname = ifname ∧ dev.type ≠ .pipeSlave) <;> rfl

/-- A packet without a fate stays with the program. -/
theorem Sound.send (h : Sound bufs s log) (hClaim : s.self.priv = some claim) (ifname : Option Name) (mode : Mode) :
    ∃ packet self', s.self.send s.packet ifname mode = ((s.fate ifname mode).isNone, packet, self') ∧
      (s.fate ifname mode = none → packet = s.packet ∧ self' = s.self) ∧
      ∀ fate, s.fate ifname mode = some fate → packet = {} ∧ self'.dev = s.self.dev ∧
        Sound bufs { s with packet := packet, self := self' } (log ++ s.given (some fate)) := by
  have hData := (h.held claim hClaim).privateData
  cases ifname with
  | none =>
      refine ⟨{}, s.self.settle claim fun slot => { slot with flags := slot.flags &&& ~~~nsForward },
        ?_, fun hNone => absurd hNone (Option.some_ne_none _), ?_⟩
      · simp only [Netmaps.send, hData, hClaim]
        rfl
      · rintro fate ⟨⟩
        refine ⟨rfl, rfl, h.settle hClaim .dropped (fun slot => ⟨rfl, rfl⟩) (fun slot => ?_)
          fun r hSent => Fate.noConfusion hSent⟩
        show decide (slot.flags &&& ~~~nsForward &&& nsForward ≠ 0) = _
        rw [clear_forward]
        rfl
  | some ifname =>
      rw [World.fate, Netmaps.ringsOf_eq]
      cases hDev : s.self.dev[s.self.find (some ifname) .pipeSlave]? with
      | none =>
          refine ⟨s.packet, s.self, ?_, fun _ => ⟨rfl, rfl⟩,
            fun fate hNone => absurd hNone.symm (Option.some_ne_none _)⟩
          simp only [Netmaps.send, hData, hClaim, hDev]
          rfl
      | some dev =>
          have hWired := h.wired dev (List.mem_of_getElem? hDev)
          have hKnown : ∀ tx ∈ Netmaps.sendRings dev mode, s.self.shared.Known (dev.txRing tx) := by
            intro tx hMem
            obtain ⟨hLow, hHigh⟩ := mem_sendRings hWired.order hMem
            exact hWired.tx tx hLow hHigh
          rw [Option.map_some, Option.getD_some]
          rcases h.sendFirst_cases hClaim hKnown with ⟨hFull, hNone⟩ | ⟨r, hFirst, self', hSome, hDevices, hSound⟩
          · rw [hFull]
            refine ⟨s.packet, s.self, ?_, fun _ => ⟨rfl, rfl⟩,
              fun fate hNone => absurd hNone.symm (Option.some_ne_none _)⟩
            simp only [Netmaps.send, hData, hClaim, hDev, hNone]
            rfl
          · rw [hFirst]
            refine ⟨{}, self', ?_, fun hNone => absurd hNone (Option.some_ne_none _), ?_⟩
            · simp only [Netmaps.send, hData, hClaim, hDev, hSome]
              rfl
            · rintro fate ⟨⟩
              exact ⟨rfl, hDevices, hSound⟩

/-- What is sent goes on record, and the call fails if there is nothing to record. -/
theorem Sound.send_recorded (h : Sound bufs s s.log) (ifname : Option Name) (mode : Mode) :
    Sound bufs (s.send ifname mode).2 (s.send ifname mode).2.log ∧
      (s.send ifname mode).1 = (s.given (s.fate ifname mode)).isEmpty := by
  cases hPriv : s.self.priv with
  | none =>
      have hSend : s.self.send s.packet ifname mode = (true, s.packet, s.self) := by
        simp only [Netmaps.send, hPriv]
        cases s.packet.privateData <;> rfl
      have hGiven : s.given (s.fate ifname mode) = [] := by simp only [World.given, hPriv]
      simp only [World.send, hSend, hGiven, List.append_nil]
      exact ⟨h.record _ _, rfl⟩
  | some claim =>
      obtain ⟨packet, self', hSend, hStays, hGone⟩ := h.send hPriv ifname mode
      simp only [World.send, hSend]
      cases hFate : s.fate ifname mode with
      | none =>
          obtain ⟨rfl, rfl⟩ := hStays hFate
          have hGiven : s.given none = [] := by simp only [World.given, hPriv]
          rw [hGiven, List.append_nil]
          exact ⟨h.record _ _, rfl⟩
      | some fate =>
          refine ⟨(hGone fate hFate).2.2.record _ _, ?_⟩
          rw [h.given_eq hPriv]
          rfl

/-- What the first part of `peak_netmap_recv` does. It waits only if there is nothing to
read. -/
theorem Sound.recv_cases (h : Sound bufs s log) (ifname : Option Name) (mode : Mode) :
    s.self.recv ifname mode = .ok .null ∨
      (∃ packet self', s.self.recv ifname mode = .ok (.packet packet self') ∧ s.self.priv = none ∧
        s.self.Finds mode packet self') ∨
      s.self.recv ifname mode = .ok .poll ∧ s.self.priv = none ∧
        (ifname = none → ∀ dev ∈ s.self.dev, s.self.Empty mode dev) := by
  cases hPriv : s.self.priv with
  | some claim => exact .inl (by simp only [Netmaps.recv, hPriv, Option.isSome_some, if_true])
  | none =>
      cases ifname with
      | some ifname =>
          cases hDev : s.self.dev[s.self.find (some ifname) .pipeMaster]? with
          | none => exact .inl (by simp only [Netmaps.recv, hPriv, Option.isSome_none, hDev]; rfl)
          | some dev =>
              have hMem := List.mem_of_getElem? hDev
              rcases Netmaps.recvDev_cases h.ok (h.wired dev hMem) mode with
                ⟨_, hNone⟩ | ⟨hType, rx, hRings, packet, self', hSome, hTakes⟩
              · refine .inr (.inr ⟨?_, rfl, fun hNone => absurd hNone (Option.some_ne_none _)⟩)
                simp only [Netmaps.recv, hPriv, Option.isSome_none, hDev, hNone]
                rfl
              · refine .inr (.inl ⟨packet, self', ?_, rfl, dev, hMem, hType, rx, hRings, hTakes⟩)
                simp only [Netmaps.recv, hPriv, Option.isSome_none, hDev, hSome]
                rfl
      | none =>
          rcases Netmaps.recvTurn_cases h.ok h.wired mode s.self.dev.length s.self.last with
            ⟨hAll, hNone⟩ | ⟨packet, self', hSome, hFinds⟩
          · refine .inr (.inr ⟨?_, rfl, fun _ dev hMem => ?_⟩)
            · simp only [Netmaps.recv, hPriv, Option.isSome_none, Netmaps.recvAny, hNone]
              rfl
            · obtain ⟨i, hi, hDev⟩ := List.getElem_of_mem hMem
              obtain ⟨k, hk, hTurn⟩ := exists_mod hi (s.self.last + 1)
              refine hAll k hk dev ?_
              rw [Nat.add_right_comm, hTurn, List.getElem?_eq_getElem hi, hDev]
          · refine .inr (.inl ⟨packet, self', ?_, rfl, hFinds⟩)
            simp only [Netmaps.recv, hPriv, Option.isSome_none, Netmaps.recvAny, hSome]
            rfl

/-- The device that was read last does not matter. -/
theorem Sound.recvReadable_cases (h : Sound bufs s log) (mode : Mode) (readable : Nat → Bool) (i last : Nat) :
    { s.self with last := last }.recvReadable mode readable i = .ok (none, { s.self with last := last }) ∨
      ∃ packet self', { s.self with last := last }.recvReadable mode readable i = .ok (some packet, self') ∧
        s.self.Finds mode packet self' := by
  have hOk : { s.self with last := last }.shared.Ok bufs := h.ok
  cases hDev : s.self.dev[i]? with
  | none => exact .inl (by simp only [Netmaps.recvReadable, hDev])
  | some dev =>
      by_cases hReadable : readable i = true
      · have hMem := List.mem_of_getElem? hDev
        rcases Netmaps.recvDev_cases hOk (h.wired dev hMem) mode with
          ⟨_, hNone⟩ | ⟨hType, rx, hRings, packet, self', hSome, hTakes⟩
        · refine .inl ?_
          simp only [Netmaps.recvReadable, hDev, hReadable, if_true, hNone]
          rfl
        · refine .inr ⟨packet, self', ?_, dev, hMem, hType, rx, hRings, hTakes.some, hTakes.shared, hTakes.devices,
            hTakes.priv, hTakes.privateData, hTakes.ifname, hTakes.buf, hTakes.len⟩
          simp only [Netmaps.recvReadable, hDev, hReadable, if_true, hSome]
          rfl
      · exact .inl (by simp only [Netmaps.recvReadable, hDev, hReadable, Bool.false_eq_true, if_false])

/-- What the second part of `peak_netmap_recv` does. -/
theorem Sound.polled_cases (h : Sound bufs s log) (ifname : Option Name) (mode : Mode)
    (revents : Option (Nat → Bool)) :
    (∃ last, s.self.polled ifname mode revents = .ok (none, { s.self with last := last })) ∨
      ∃ packet self', s.self.polled ifname mode revents = .ok (some packet, self') ∧
        s.self.Finds mode packet self' := by
  cases revents with
  | none => exact .inl ⟨s.self.last, rfl⟩
  | some readable =>
      cases ifname with
      | some ifname =>
          rcases h.recvReadable_cases mode readable (s.self.find (some ifname) .pipeMaster) s.self.last with
            hNone | hSome
          · exact .inl ⟨s.self.last, hNone⟩
          · exact .inr hSome
      | none =>
          rw [Netmaps.polled]
          split_ifs with hWithin
          · rcases h.recvReadable_cases mode readable ((List.range s.self.dev.length).findIdx readable)
              ((List.range s.self.dev.length).findIdx readable) with hNone | hSome
            · exact .inl ⟨_, hNone⟩
            · exact .inr hSome
          · exact .inl ⟨s.self.last, rfl⟩

/-- A call without a packet changes nothing that matters. -/
theorem Sound.of_last (h : Sound bufs s log) (hFree : s.self.priv = none) (last : Nat)
    (waiting : Option (Option Name × Mode)) :
    Sound bufs { s with self := { s.self with last := last }, waiting := waiting } log := by
  refine ⟨h.ok, h.wired, fun claim hClaim => ?_, h.idle, ⟨h.account.arrived, h.account.forwarded, h.account.transmitted⟩⟩
  rw [show s.self.priv = some claim from hClaim] at hFree
  cases hFree

/-- The program has no packet while it waits. -/
theorem Sound.free_of_waiting (h : Sound bufs s log) (hWaiting : s.waiting ≠ none) : s.self.priv = none := by
  cases hPriv : s.self.priv with
  | none => rfl
  | some claim => exact absurd (h.held claim hPriv).waiting hWaiting

/-- The program has a packet as long as its arguments say so. -/
theorem Sound.exists_claim (h : Sound bufs s log) (hData : s.packet.privateData = true) :
    ∃ claim, s.self.priv = some claim := by
  cases hPriv : s.self.priv with
  | none =>
      rw [h.idle hPriv] at hData
      cases hData
  | some claim => exact ⟨claim, rfl⟩

theorem Sound.step_recv (h : Sound bufs s s.log) (ifname : Option Name) (mode : Mode) :
    ∃ s', s.step (.recv ifname mode) = .ok s' ∧ Sound bufs s' s'.log := by
  rcases h.recv_cases ifname mode with hNull | ⟨packet, self', hPacket, hFree, hFinds⟩ | ⟨hPoll, hFree, _⟩
  · exact ⟨s, by rw [World.step, hNull]; rfl, h⟩
  · exact ⟨s.claim packet self', by rw [World.step, hPacket]; rfl, h.take hFree hFinds⟩
  · exact ⟨{ s with waiting := some (ifname, mode) }, by rw [World.step, hPoll]; rfl, h.of_last hFree s.self.last _⟩

theorem Sound.step_polled (h : Sound bufs s s.log) (hWaiting : s.waiting ≠ none) (revents : Option (Nat → Bool)) :
    ∃ s', s.step (.polled revents) = .ok s' ∧ Sound bufs s' s'.log := by
  obtain ⟨⟨ifname, mode⟩, hCall⟩ := Option.ne_none_iff_exists'.mp hWaiting
  have hFree := h.free_of_waiting hWaiting
  have hStep : s.step (.polled revents) = (s.self.polled ifname mode revents).map s.answered := by
    simp only [World.step, hCall]
  rw [hStep]
  rcases h.polled_cases ifname mode revents with ⟨last, hNone⟩ | ⟨packet, self', hSome, hFinds⟩
  · exact ⟨_, by rw [hNone]; rfl, h.of_last hFree last none⟩
  · exact ⟨_, by rw [hSome]; rfl, h.take hFree hFinds⟩

theorem Sound.step_forward (h : Sound bufs s s.log) (hData : s.packet.privateData = true) :
    ∃ s', s.step .forward = .ok s' ∧ Sound bufs s' s'.log := by
  obtain ⟨claim, hClaim⟩ := h.exists_claim hData
  have hStep : s.step .forward = .ok { s with
      packet := {}
      self := s.self.settle claim fun slot => { slot with flags := slot.flags ||| nsForward }
      log := s.log ++ s.given (some .forwarded) } := by
    simp only [World.step, Netmaps.forward, hData, if_true, hClaim, Option.map_some]
  have hSound : Sound bufs
      { s with
        packet := {}
        self := s.self.settle claim fun slot => { slot with flags := slot.flags ||| nsForward } }
      (s.log ++ s.given (some .forwarded)) :=
    h.settle hClaim .forwarded (fun slot => ⟨rfl, rfl⟩) (fun slot => decide_eq_true (set_forward slot.flags))
      fun r hSent => Fate.noConfusion hSent
  exact ⟨_, hStep, hSound.record s.full _⟩

theorem World.log_reclaim (s : World) (r : RingId) : (s.reclaim r).log = s.log := by
  rw [reclaim]
  split_ifs <;> rfl

/-- Every step that may happen is taken, and the record accounts for what it did. -/
theorem Sound.step (h : Sound bufs s s.log) (a : Action) (hAdmitted : s.Admitted a) :
    ∃ s', s.step a = .ok s' ∧ Sound bufs s' s'.log := by
  cases a with
  | arrive r packet flags ts => exact ⟨_, rfl, h.arrive hAdmitted.1 hAdmitted.2.1 hAdmitted.2.2⟩
  | reclaim r =>
      refine ⟨_, rfl, ?_⟩
      rw [World.log_reclaim]
      exact h.reclaim hAdmitted.1 hAdmitted.2.1 hAdmitted.2.2
  | grant r ts => exact ⟨_, rfl, h.grant hAdmitted.1 hAdmitted.2.1 hAdmitted.2.2⟩
  | transmit r => exact ⟨_, rfl, h.transmit hAdmitted.1 hAdmitted.2.1 hAdmitted.2.2⟩
  | recv ifname mode => exact h.step_recv ifname mode
  | polled revents => exact h.step_polled hAdmitted revents
  | write content =>
      obtain ⟨claim, hClaim⟩ := h.exists_claim hAdmitted.2.1
      exact ⟨_, rfl, h.write hClaim⟩
  | send ifname mode => exact ⟨_, rfl, (h.send_recorded ifname mode).1⟩
  | forward => exact h.step_forward hAdmitted.2

/-- Nothing happened yet: the kernel has all of the receive rings, and nothing is to be
sent. -/
structure Fresh (bufs : Set Nat) (s : World) : Prop where
  ok : s.self.shared.Ok bufs
  wired : ∀ dev ∈ s.self.dev, dev.Wired s.self.shared
  unread : ∀ r, s.self.shared.Known r → r.side = .rx → s.self.shared.unread r = []
  released : ∀ r, s.self.shared.Known r → (s.self.shared.ring r).released = []
  free : s.self.priv = none ∧ s.packet.privateData = false
  quiet : ∀ r, s.traffic.arrived r = [] ∧ s.traffic.forwarded r = [] ∧ s.traffic.transmitted r = []
  unlogged : s.log = []

theorem Fresh.sound (h : Fresh bufs s) : Sound bufs s s.log := by
  rw [h.unlogged]
  refine ⟨h.ok, h.wired, fun claim hClaim => ?_, fun _ => h.free.2, fun r hKnown hSide => ?_,
    fun r hKnown hSide => ?_, fun r hKnown hSide => ?_⟩
  · rw [h.free.1] at hClaim
    cases hClaim
  · have hPending : s.pending r = [] := by
      rw [World.pending, h.free.1, h.unread r hKnown hSide]
      exact if_neg (Option.some_ne_none r).symm
    rw [hPending, (h.quiet r).1]
    rfl
  · rw [(h.quiet r).2.1, Shared.leaving, h.released r hKnown]
    rfl
  · rw [(h.quiet r).2.2, Shared.queued, h.released r hKnown]
    rfl

/-- In every run the record accounts for the traffic. -/
theorem Fresh.reached (h : Fresh bufs start) (hReached : Run.Reached World.step World.Admitted start s) :
    Sound bufs s s.log := by
  refine hReached.invariant (fun s => Sound bufs s s.log) h.sound ?_
  intro s a s' hSound hAdmitted hStep
  obtain ⟨s'', hStep', hSound'⟩ := hSound.step a hAdmitted
  rw [hStep] at hStep'
  cases hStep'
  exact hSound'

/-- Whatever the program calls and whenever the kernel takes its turns, the record of the
calls accounts for the traffic: every packet that came in was sent to one ring, moved
over to the host or dropped, or still waits in its ring, in order. What a ring sends is
what was given back for it, byte for byte and in order, and that was the first ring of
those asked for that had room. A call fails if there was none, or no packet. Every buffer
stays in one slot, and no call stops the process. -/
theorem traffic_accounted (hFresh : Fresh bufs start)
    (hReached : Run.Reached World.step World.Admitted start s) :
    Accounted s s.log ∧ Set.BijOn s.self.shared.bufOf s.self.shared.slots bufs ∧
      (∀ ifname mode, (s.send ifname mode).1 = (s.given (s.fate ifname mode)).isEmpty) ∧
      ∀ a, s.Admitted a → ∃ s', s.step a = .ok s' := by
  have hSound := hFresh.reached hReached
  refine ⟨hSound.account, hSound.ok.once, fun ifname mode => (hSound.send_recorded ifname mode).2,
    fun a hAdmitted => ?_⟩
  obtain ⟨s', hStep, _⟩ := hSound.step a hAdmitted
  exact ⟨s', hStep⟩

/-- Rings as they are when all of their slots are with the kernel. -/
def Shared.initial (numSlots : Nat) : Shared where
  ring r :=
    { slot := fun i => ⟨2 + Nat.pair (Nat.pair r.nifp r.index) (Nat.pair (if r.side = .rx then 0 else 1) i), 0, 0⟩
      numSlots := numSlots
      head := 0
      cur := 0
      tail := 0
      ts := ⟨0, 0⟩
      hwcur := 0 }
  buf _ := []

/-- A world that nothing happened in. -/
def World.initial (numSlots : Nat) (devs : List Dev) : World where
  self := ⟨.initial numSlots, devs, 0, none, ⟨0, 0⟩⟩
  packet := {}
  received := []
  waiting := none
  traffic := ⟨fun _ => [], fun _ => [], fun _ => []⟩
  full := []
  log := []

theorem Shared.bufOf_initial_injective (numSlots : Nat) : Function.Injective (Shared.initial numSlots).bufOf := by
  rintro ⟨⟨nifp, side, index⟩, i⟩ ⟨⟨nifp', side', index'⟩, i'⟩ hSame
  have hPair := Nat.pair_eq_pair.mp (Nat.add_left_cancel hSame)
  obtain ⟨rfl, rfl⟩ := Nat.pair_eq_pair.mp hPair.1
  obtain ⟨hSide, rfl⟩ := Nat.pair_eq_pair.mp hPair.2
  cases side with
  | rx =>
      cases side' with
      | rx => rfl
      | tx => exact absurd hSide Nat.zero_ne_one
  | tx =>
      cases side' with
      | rx => exact absurd hSide Nat.one_ne_zero
      | tx => rfl

theorem Shared.placed_initial {numSlots : Nat} (hSlots : 0 < numSlots) (r : RingId) :
    ((Shared.initial numSlots).ring r).Placed 0 0 0 := by
  have hZero := (Nat.zero_mod numSlots).symm
  refine ⟨hSlots, hZero, hZero, rfl, hZero, Nat.le_refl 0, Nat.le_refl 0, ?_⟩
  rwa [Nat.zero_add]

theorem World.fresh_initial {numSlots : Nat} (hSlots : 0 < numSlots) (devs : List Dev)
    (hOrder : ∀ dev ∈ devs, dev.begin ≤ dev.stop) :
    Fresh ((Shared.initial numSlots).bufOf '' (Shared.initial numSlots).slots) (.initial numSlots devs) := by
  refine ⟨⟨fun r _ => ⟨0, 0, 0, Shared.placed_initial hSlots r⟩, ?_, ?_⟩, fun dev hMem => ?_,
    fun r _ _ => ?_, fun r _ => ?_, ⟨rfl, rfl⟩, fun r => ⟨rfl, rfl, rfl⟩, rfl⟩
  · exact (Shared.bufOf_initial_injective numSlots).injOn.bijOn_image
  · rintro _ ⟨p, _, rfl⟩
    exact Nat.le_add_right 2 _
  · exact ⟨hOrder dev hMem, fun _ _ _ => hSlots, fun _ _ _ => hSlots⟩
  · show ((Shared.initial numSlots).ring r).unread.map _ = []
    rw [(Shared.placed_initial hSlots r).unread_eq, window_self]
    rfl
  · show ((Shared.initial numSlots).ring r).released = []
    rw [(Shared.placed_initial hSlots r).released_eq, window_self]

instance (m : Shared) (r : RingId) : Decidable (m.Known r) := inferInstanceAs (Decidable (0 < _))

instance (s : World) (a : Action) : Decidable (s.Admitted a) :=
  match a with
  | .arrive .. => inferInstanceAs (Decidable (_ ∧ _ ∧ _))
  | .reclaim _ => inferInstanceAs (Decidable (_ ∧ _ ∧ _))
  | .grant .. => inferInstanceAs (Decidable (_ ∧ _ ∧ _))
  | .transmit _ => inferInstanceAs (Decidable (_ ∧ _ ∧ _))
  | .recv .. => inferInstanceAs (Decidable (_ = _))
  | .polled _ => inferInstanceAs (Decidable (_ ≠ _))
  | .write _ => inferInstanceAs (Decidable (_ ∧ _ ∧ _))
  | .send .. => inferInstanceAs (Decidable (_ = _))
  | .forward => inferInstanceAs (Decidable (_ ∧ _))

/-- Two devices with a ring each. -/
def twoDevices : List Dev := [⟨[97], 0, .allNic, 0, 1⟩, ⟨[98], 1, .allNic, 0, 1⟩]

/-- Two packets come in and are changed on the way. The first goes from one device to the
other one, which has no room for the second, so that is moved over to the host. -/
def twoCalls : List Action :=
  [.arrive ⟨0, .rx, 0⟩ [1, 2, 3] 0 ⟨0, 0⟩, .grant ⟨1, .tx, 0⟩ ⟨0, 0⟩, .recv none .wire, .write [1, 2, 4],
    .send (some [98]) .wire, .reclaim ⟨0, .rx, 0⟩, .arrive ⟨0, .rx, 0⟩ [5] 0 ⟨0, 0⟩, .recv none .wire,
    .send (some [98]) .wire, .forward, .transmit ⟨1, .tx, 0⟩]

theorem packet_accounted :
    ∃ s, Run.drive World.step World.Admitted (.initial 2 twoDevices) twoCalls = some s ∧
      s.log = [⟨⟨0, .rx, 0⟩, [1, 2, 3], [1, 2, 4], [], .sent ⟨1, .tx, 0⟩⟩,
        ⟨⟨0, .rx, 0⟩, [5], [5], [⟨1, .tx, 0⟩], .forwarded⟩] ∧
      s.traffic.transmitted ⟨1, .tx, 0⟩ = [[1, 2, 4]] ∧ Accounted s s.log := by
  have hRun : (Run.drive World.step World.Admitted (.initial 2 twoDevices) twoCalls).map
      (fun s => (s.log, s.traffic.transmitted ⟨1, .tx, 0⟩)) =
        some ([⟨⟨0, .rx, 0⟩, [1, 2, 3], [1, 2, 4], [], .sent ⟨1, .tx, 0⟩⟩,
          ⟨⟨0, .rx, 0⟩, [5], [5], [⟨1, .tx, 0⟩], .forwarded⟩], [[1, 2, 4]]) := by
    decide +kernel
  obtain ⟨s, hDrive, hView⟩ := Option.map_eq_some_iff.mp hRun
  have hFresh := World.fresh_initial (show 0 < 2 by decide) twoDevices (by decide)
  exact ⟨s, hDrive, congrArg Prod.fst hView, congrArg Prod.snd hView,
    (traffic_accounted hFresh (Run.reached_of_drive .start hDrive)).1⟩

end Peak.Netmap
