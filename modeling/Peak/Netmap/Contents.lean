import Peak.Netmap.Ownership

/-! The packets that are in rings, as their buffers show them. -/
namespace Peak.Netmap.Shared

open Turns

variable {m : Shared} {r r' c t : RingId} {b : Nat} {f : Slot → Slot} {slot : Slot} {g : Ring → Ring}
variable {bufs : Set Nat} {packet content : List UInt8} {ts : Timeval} {flags : BitVec 16} {f₁ f₂ : BitVec 16 → BitVec 16}

/-- The packets that the program did not give back. -/
def unread (m : Shared) (r : RingId) : List (List UInt8) := (m.ring r).unread.map m.content

/-- The packets that were given back to be sent. -/
def queued (m : Shared) (r : RingId) : List (List UInt8) := (m.ring r).released.map m.content

/-- The packets that were given back to be moved over to the host. -/
def leaving (m : Shared) (r : RingId) : List (List UInt8) :=
  ((m.ring r).released.filter Slot.forwards).map m.content

/-- The slot that comes next for the program. -/
def current (m : Shared) (r : RingId) : Slot := (m.ring r).slot (m.ring r).cur

theorem unread_modify_of_ne (h : r' ≠ r) : (m.modify r g).unread r' = m.unread r' := by
  rw [unread, ring_modify_of_ne h, content_modify, unread]

theorem queued_modify_of_ne (h : r' ≠ r) : (m.modify r g).queued r' = m.queued r' := by
  rw [queued, ring_modify_of_ne h, content_modify, queued]

theorem leaving_modify_of_ne (h : r' ≠ r) : (m.modify r g).leaving r' = m.leaving r' := by
  rw [leaving, ring_modify_of_ne h, content_modify, leaving]

/-- A store to a buffer that is in no slot of a list. -/
theorem map_content_write {slots : List Slot} (h : ∀ slot ∈ slots, slot.bufIdx ≠ b) :
    slots.map (m.write b content).content = slots.map m.content :=
  List.map_congr_left fun slot hMem => content_write_of_ne (h slot hMem)

/-- Slots with one buffer are the same slot. -/
theorem Ok.same (h : m.Ok bufs) {i j : Nat} (hi : i < (m.ring r).numSlots) (hj : j < (m.ring r').numSlots)
    (hBuf : ((m.ring r).slot i).bufIdx = ((m.ring r').slot j).bufIdx) : r = r' ∧ i = j := by
  have hPair : (r, i) = (r', j) := h.once.injOn hi hj hBuf
  exact ⟨congrArg Prod.fst hPair, congrArg Prod.snd hPair⟩

/-- No slot that was given back has the buffer that the kernel fills next. -/
theorem Ok.released_tail (h : m.Ok bufs) (hr : m.Known r) (hr' : m.Known r') (hMem : slot ∈ (m.ring r').released) :
    slot.bufIdx ≠ ((m.ring r).slot (m.ring r).tail).bufIdx := by
  obtain ⟨i, hi, _, hTail, rfl⟩ := (h.ordered r' hr').of_released hMem
  intro hBuf
  obtain ⟨rfl, rfl⟩ := h.same hi (h.ordered r hr).tail_lt hBuf
  exact hTail rfl

/-- No slot that the program has does. -/
theorem Ok.unread_tail (h : m.Ok bufs) (hr : m.Known r) (hr' : m.Known r') (hMem : slot ∈ (m.ring r').unread) :
    slot.bufIdx ≠ ((m.ring r).slot (m.ring r).tail).bufIdx := by
  obtain ⟨i, hi, hTail, rfl⟩ := (h.ordered r' hr').of_unread hMem
  intro hBuf
  obtain ⟨rfl, rfl⟩ := h.same hi (h.ordered r hr).tail_lt hBuf
  exact hTail rfl

/-- No slot that was given back has the buffer of the next packet. -/
theorem Ok.released_current (h : m.Ok bufs) (hr : m.Known r) (hr' : m.Known r')
    (hMem : slot ∈ (m.ring r').released) : slot.bufIdx ≠ (m.current r).bufIdx := by
  obtain ⟨i, hi, hCur, _, rfl⟩ := (h.ordered r' hr').of_released hMem
  intro hBuf
  obtain ⟨rfl, rfl⟩ := h.same hi (h.ordered r hr).cur_lt hBuf
  exact hCur rfl

/-- The packets behind the next one have other buffers. -/
theorem Ok.later_current (h : m.Ok bufs) (hr : m.Known r) (hMem : slot ∈ (m.ring r).unread.tail) :
    slot.bufIdx ≠ (m.current r).bufIdx := by
  obtain ⟨i, hi, hCur, rfl⟩ := (h.ordered r hr).of_later hMem
  intro hBuf
  exact hCur (h.same hi (h.ordered r hr).cur_lt hBuf).2

/-- So have the packets in other rings. -/
theorem Ok.other_current (h : m.Ok bufs) (hr : m.Known r) (hr' : m.Known r') (hOther : r' ≠ r)
    (hMem : slot ∈ (m.ring r').unread) : slot.bufIdx ≠ (m.current r).bufIdx := by
  obtain ⟨i, hi, _, rfl⟩ := (h.ordered r' hr').of_unread hMem
  intro hBuf
  exact hOther (h.same hi (h.ordered r hr).cur_lt hBuf).1

/-- The next packet is the first one that was not given back. -/
theorem Ok.unread_eq (h : m.Ok bufs) (hr : m.Known r) (hSome : (m.ring r).empty = false) :
    m.unread r = m.content (m.current r) :: (m.unread r).tail := by
  rw [unread, (h.ordered r hr).unread_release hSome id]
  rfl

theorem Ok.arrive (h : m.Ok bufs) (hRoom : next (m.ring r).numSlots (m.ring r).tail ≠ (m.ring r).hwcur) :
    (m.arrive r packet flags ts).Ok bufs := by
  refine h.write.modify rfl (fun i => ?_) fun hKnown => (h.ordered r hKnown).provide hRoom _ _
  show (Function.update (m.ring r).slot (m.ring r).tail _ i).bufIdx = _
  rw [Function.update_apply]
  split_ifs with hSame
  · rw [hSame]
    rfl
  · rfl

/-- What comes in is at the end. -/
theorem Ok.unread_arrive (h : m.Ok bufs) (hr : m.Known r)
    (hRoom : next (m.ring r).numSlots (m.ring r).tail ≠ (m.ring r).hwcur) :
    (m.arrive r packet flags ts).unread r = m.unread r ++ [packet] := by
  have hOld : (m.ring r).unread.map (m.write ((m.ring r).slot (m.ring r).tail).bufIdx packet).content = m.unread r :=
    map_content_write fun slot hMem => h.unread_tail hr hr hMem
  have hNew : (m.write ((m.ring r).slot (m.ring r).tail).bufIdx packet).content
      { (m.ring r).slot (m.ring r).tail with len := packet.length, flags := flags } = packet :=
    content_write rfl rfl
  rw [unread, Shared.arrive, ring_modify, content_modify, ring_write, (h.ordered r hr).unread_provide hRoom,
    List.map_append, hOld, List.map_singleton, hNew]

theorem Ok.unread_arrive_of_ne (h : m.Ok bufs) (hr : m.Known r) (hr' : m.Known r') (hOther : r' ≠ r) :
    (m.arrive r packet flags ts).unread r' = m.unread r' := by
  rw [Shared.arrive, unread_modify_of_ne hOther, unread, ring_write]
  exact map_content_write fun slot hMem => h.unread_tail hr hr' hMem

theorem Ok.released_arrive (h : m.Ok bufs) (hr' : m.Known r')
    (hRoom : next (m.ring r).numSlots (m.ring r).tail ≠ (m.ring r).hwcur) :
    ((m.arrive r packet flags ts).ring r').released = (m.ring r').released := by
  by_cases hSame : r' = r
  · subst hSame
    rw [Shared.arrive, ring_modify, ring_write, (h.ordered r' hr').released_provide hRoom]
  · rw [Shared.arrive, ring_modify_of_ne hSame, ring_write]

theorem Ok.queued_arrive (h : m.Ok bufs) (hr : m.Known r) (hr' : m.Known r')
    (hRoom : next (m.ring r).numSlots (m.ring r).tail ≠ (m.ring r).hwcur) :
    (m.arrive r packet flags ts).queued r' = m.queued r' := by
  rw [queued, h.released_arrive hr' hRoom, Shared.arrive, content_modify]
  exact map_content_write fun slot hMem => h.released_tail hr hr' hMem

theorem Ok.leaving_arrive (h : m.Ok bufs) (hr : m.Known r) (hr' : m.Known r')
    (hRoom : next (m.ring r).numSlots (m.ring r).tail ≠ (m.ring r).hwcur) :
    (m.arrive r packet flags ts).leaving r' = m.leaving r' := by
  rw [leaving, h.released_arrive hr' hRoom, Shared.arrive, content_modify]
  exact map_content_write fun slot hMem => h.released_tail hr hr' (List.mem_of_mem_filter hMem)

/-- The kernel takes slots back one after another. -/
theorem Ok.collect (h : m.Ok bufs) (hSome : (m.ring r).hwcur ≠ (m.ring r).head) : (m.modify r Ring.collect).Ok bufs :=
  h.modify rfl (fun _ => rfl) fun hKnown => (h.ordered r hKnown).collect hSome

theorem unread_collect (m : Shared) (r r' : RingId) : (m.modify r Ring.collect).unread r' = m.unread r' := by
  by_cases hSame : r' = r
  · subst hSame
    rw [unread, ring_modify]
    rfl
  · exact unread_modify_of_ne hSame

theorem Ok.queued_collect (h : m.Ok bufs) (hr : m.Known r) (hSome : (m.ring r).hwcur ≠ (m.ring r).head) :
    m.queued r = m.content ((m.ring r).slot (m.ring r).hwcur) :: (m.modify r Ring.collect).queued r := by
  rw [queued, (h.ordered r hr).released_collect hSome, queued, ring_modify]
  rfl

theorem Ok.leaving_collect (h : m.Ok bufs) (hr : m.Known r) (hSome : (m.ring r).hwcur ≠ (m.ring r).head) :
    m.leaving r =
      if ((m.ring r).slot (m.ring r).hwcur).forwards then
        m.content ((m.ring r).slot (m.ring r).hwcur) :: (m.modify r Ring.collect).leaving r
      else (m.modify r Ring.collect).leaving r := by
  rw [leaving, (h.ordered r hr).released_collect hSome, leaving, ring_modify, List.filter_cons]
  split_ifs <;> rfl

/-- The kernel hands over slots of transmit rings as they are. -/
theorem Ok.grant (h : m.Ok bufs) (hRoom : next (m.ring r).numSlots (m.ring r).tail ≠ (m.ring r).hwcur) :
    (m.grant r ts).Ok bufs := by
  refine h.modify rfl (fun i => ?_) fun hKnown => (h.ordered r hKnown).provide hRoom _ _
  show (Function.update (m.ring r).slot (m.ring r).tail _ i).bufIdx = _
  rw [id, Function.update_eq_self]

theorem Ok.queued_grant (h : m.Ok bufs) (hr : m.Known r)
    (hRoom : next (m.ring r).numSlots (m.ring r).tail ≠ (m.ring r).hwcur) (r' : RingId) :
    (m.grant r ts).queued r' = m.queued r' := by
  by_cases hSame : r' = r
  · subst hSame
    rw [queued, Shared.grant, ring_modify, (h.ordered r' hr).released_provide hRoom]
    rfl
  · exact queued_modify_of_ne hSame

/-- The next slot goes back to the kernel. -/
def release (m : Shared) (r : RingId) (f : Slot → Slot) : Shared :=
  m.modify r fun ring => (ring.modifySlot ring.cur f).release

theorem Ok.release (h : m.Ok bufs) (hSome : (m.ring r).empty = false)
    (hf : (f (m.current r)).bufIdx = (m.current r).bufIdx) : (m.release r f).Ok bufs := by
  refine h.modify rfl (fun i => ?_) fun hKnown => (h.ordered r hKnown).release hSome f
  show (Function.update (m.ring r).slot (m.ring r).cur _ i).bufIdx = _
  rw [Function.update_apply]
  split_ifs with hSame
  · rw [hSame]
    exact hf
  · rfl

theorem Ok.unread_release (h : m.Ok bufs) (hr : m.Known r) (hSome : (m.ring r).empty = false) :
    (m.release r f).unread r = (m.unread r).tail := by
  rw [unread, unread, (h.ordered r hr).unread_release hSome f, Shared.release, ring_modify]
  rfl

theorem Ok.leaving_release (h : m.Ok bufs) (hr : m.Known r) (hSome : (m.ring r).empty = false) :
    (m.release r f).leaving r =
      m.leaving r ++ if (f (m.current r)).forwards then [m.content (f (m.current r))] else [] := by
  rw [leaving, Shared.release, ring_modify, content_modify, (h.ordered r hr).released_release hSome f,
    List.filter_append, List.map_append, leaving]
  congr 1
  rw [List.filter_singleton, current]
  cases (f ((m.ring r).slot (m.ring r).cur)).forwards <;> rfl

theorem Ok.unread_exchange (h : m.Ok bufs) (hApart : c ≠ t) (hc : m.Known c) (hPacket : (m.ring c).empty = false) :
    (m.exchange c t f₁ f₂).unread c = (m.unread c).tail := by
  rw [unread, ring_exchange_source hApart, unread, (h.ordered c hc).unread_release hPacket]
  rfl

theorem unread_exchange_of_ne (hSource : r ≠ c) (hTarget : r ≠ t) :
    (m.exchange c t f₁ f₂).unread r = m.unread r := by
  rw [unread, ring_exchange_of_ne hSource hTarget]
  rfl

/-- The packet is in the buffer that the slot got. -/
theorem Ok.queued_exchange (h : m.Ok bufs) (hApart : c ≠ t) (ht : m.Known t) (hRoom : (m.ring t).empty = false) :
    (m.exchange c t f₁ f₂).queued t = m.queued t ++ [m.content (m.current c)] := by
  rw [queued, ring_exchange_target hApart, (h.ordered t ht).released_release hRoom, List.map_append]
  rfl

theorem queued_exchange_of_ne (hSource : r ≠ c) (hTarget : r ≠ t) :
    (m.exchange c t f₁ f₂).queued r = m.queued r := by
  rw [queued, ring_exchange_of_ne hSource hTarget]
  rfl

theorem Ok.leaving_exchange (h : m.Ok bufs) (hApart : c ≠ t) (hc : m.Known c)
    (hPacket : (m.ring c).empty = false) (hf : ∀ flags, f₂ flags &&& nsForward = 0) :
    (m.exchange c t f₁ f₂).leaving c = m.leaving c := by
  rw [leaving, ring_exchange_source hApart, (h.ordered c hc).released_release hPacket, List.filter_append]
  have hNone : ∀ slot : Slot, slot.flags &&& nsForward = 0 → slot.forwards = false := by
    intro slot hFlags
    simp [Slot.forwards, hFlags]
  rw [List.filter_singleton, hNone _ (hf _), cond_false, List.append_nil]
  rfl

theorem leaving_exchange_of_ne (hSource : r ≠ c) (hTarget : r ≠ t) :
    (m.exchange c t f₁ f₂).leaving r = m.leaving r := by
  rw [leaving, ring_exchange_of_ne hSource hTarget]
  rfl

/-- A store to the next packet is seen in no other one. -/
theorem Ok.later_write (h : m.Ok bufs) (hr : m.Known r) :
    ((m.write (m.current r).bufIdx content).unread r).tail = (m.unread r).tail := by
  rw [unread, unread, ← List.map_tail, ← List.map_tail, ring_write]
  exact map_content_write fun slot hMem => h.later_current hr hMem

theorem Ok.unread_write_of_ne (h : m.Ok bufs) (hr : m.Known r) (hr' : m.Known r') (hOther : r' ≠ r) :
    (m.write (m.current r).bufIdx content).unread r' = m.unread r' := by
  rw [unread, ring_write]
  exact map_content_write fun slot hMem => h.other_current hr hr' hOther hMem

theorem Ok.queued_write (h : m.Ok bufs) (hr : m.Known r) (hr' : m.Known r') :
    (m.write (m.current r).bufIdx content).queued r' = m.queued r' := by
  rw [queued, ring_write]
  exact map_content_write fun slot hMem => h.released_current hr hr' hMem

theorem Ok.leaving_write (h : m.Ok bufs) (hr : m.Known r) (hr' : m.Known r') :
    (m.write (m.current r).bufIdx content).leaving r' = m.leaving r' := by
  rw [leaving, ring_write]
  exact map_content_write fun slot hMem => h.released_current hr hr' (List.mem_of_mem_filter hMem)

end Peak.Netmap.Shared
