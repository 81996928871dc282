import Peak.Netmap.Rings

/-! What is in a ring. From `hwcur` to `cur` the slots were given back to the
kernel, from `cur` to `tail` they are for the program, and the others belong to the
kernel. -/
namespace Peak.Netmap.Ring

open Turns

variable {ring : Ring} {h c t i : Nat} {f : Slot → Slot} {slot : Slot}

/-- The slots that the program did not give back yet. -/
def unread (ring : Ring) : List Slot := arc ring.numSlots ring.slot ring.cur ring.tail

/-- The slots that the kernel did not take back yet. -/
def released (ring : Ring) : List Slot := arc ring.numSlots ring.slot ring.hwcur ring.cur

/-- The kernel takes a slot back. -/
def collect (ring : Ring) : Ring := { ring with hwcur := next ring.numSlots ring.hwcur }

/-- The kernel hands a slot over. -/
def provide (ring : Ring) (f : Slot → Slot) (ts : Timeval) : Ring :=
  { ring.modifySlot ring.tail f with tail := next ring.numSlots ring.tail, ts := ts }

/-- Positions by counters: how many slots were taken back, given back and handed over
so far. -/
structure Placed (ring : Ring) (h c t : Nat) : Prop where
  size : 0 < ring.numSlots
  hwcur : ring.hwcur = h % ring.numSlots
  cur : ring.cur = c % ring.numSlots
  head : ring.head = ring.cur
  tail : ring.tail = t % ring.numSlots
  taken : h ≤ c
  seen : c ≤ t
  within : t < h + ring.numSlots

/-- A ring with its positions in order. -/
def Ordered (ring : Ring) : Prop := ∃ h c t, ring.Placed h c t

theorem Placed.unread_eq (hRing : ring.Placed h c t) : ring.unread = window ring.numSlots ring.slot c t := by
  have hWithin := hRing.within
  have hTaken := hRing.taken
  rw [unread, hRing.cur, hRing.tail, window_eq_arc hRing.seen (by omega)]

theorem Placed.released_eq (hRing : ring.Placed h c t) : ring.released = window ring.numSlots ring.slot h c := by
  have hWithin := hRing.within
  have hSeen := hRing.seen
  rw [released, hRing.hwcur, hRing.cur, window_eq_arc hRing.taken (by omega)]

theorem Placed.empty_iff (hRing : ring.Placed h c t) : ring.empty = true ↔ c = t := by
  have hWithin := hRing.within
  have hTaken := hRing.taken
  rw [empty, beq_iff_eq, hRing.cur, hRing.tail]
  exact ⟨mod_inj hRing.seen (by omega), fun hSame => by rw [hSame]⟩

theorem Placed.lt_of_not_empty (hRing : ring.Placed h c t) (hSome : ring.empty = false) : c < t := by
  have hNe : c ≠ t := fun hSame => by simp [hRing.empty_iff.mpr hSame] at hSome
  exact Nat.lt_of_le_of_ne hRing.seen hNe

/-- A slot is given back. -/
theorem Placed.release (hRing : ring.Placed h c t) (hSome : ring.empty = false) (f : Slot → Slot) :
    (ring.modifySlot ring.cur f).release.Placed h (c + 1) t := by
  have hCur : next ring.numSlots ring.cur = (c + 1) % ring.numSlots := by
    rw [hRing.cur, next_mod hRing.size]
  exact ⟨hRing.size, hRing.hwcur, hCur, rfl, hRing.tail, Nat.le_succ_of_le hRing.taken,
    hRing.lt_of_not_empty hSome, hRing.within⟩

theorem Ordered.release (hRing : ring.Ordered) (hSome : ring.empty = false) (f : Slot → Slot) :
    (ring.modifySlot ring.cur f).release.Ordered := by
  obtain ⟨h, c, t, hPlaced⟩ := hRing
  exact ⟨h, c + 1, t, hPlaced.release hSome f⟩

theorem Ordered.unread_release (hRing : ring.Ordered) (hSome : ring.empty = false) (f : Slot → Slot) :
    ring.unread = ring.slot ring.cur :: (ring.modifySlot ring.cur f).release.unread := by
  obtain ⟨h, c, t, hPlaced⟩ := hRing
  have hLt := hPlaced.lt_of_not_empty hSome
  have hWithin := hPlaced.within
  have hTaken := hPlaced.taken
  rw [hPlaced.unread_eq, (hPlaced.release hSome f).unread_eq, window_pop hLt, ← hPlaced.cur]
  congr 1
  refine window_congr fun k hLow hHigh => ?_
  refine (Function.update_of_ne (fun hSame => ?_) _ _).symm
  rw [hPlaced.cur] at hSame
  have hCounter : c = k := mod_inj (by omega) (by omega) hSame.symm
  omega

theorem Ordered.released_release (hRing : ring.Ordered) (hSome : ring.empty = false) (f : Slot → Slot) :
    (ring.modifySlot ring.cur f).release.released = ring.released ++ [f (ring.slot ring.cur)] := by
  obtain ⟨h, c, t, hPlaced⟩ := hRing
  have hWithin := hPlaced.within
  have hSeen := hPlaced.seen
  have hTaken := hPlaced.taken
  rw [(hPlaced.release hSome f).released_eq, hPlaced.released_eq, window_push hTaken]
  congr 1
  · show window ring.numSlots _ h c = _
    refine window_congr fun k hLow hHigh => Function.update_of_ne (fun hSame => ?_) _ _
    rw [hPlaced.cur] at hSame
    have hCounter : k = c := mod_inj (by omega) (by omega) hSame
    omega
  · show [Function.update ring.slot ring.cur (f (ring.slot ring.cur)) (c % ring.numSlots)] = _
    rw [← hPlaced.cur, Function.update_self]

/-- The kernel does not hand over its last slot. -/
theorem Placed.provide (hRing : ring.Placed h c t) (hRoom : next ring.numSlots ring.tail ≠ ring.hwcur)
    (f : Slot → Slot) (ts : Timeval) : (ring.provide f ts).Placed h c (t + 1) := by
  have hTail : next ring.numSlots ring.tail = (t + 1) % ring.numSlots := by
    rw [hRing.tail, next_mod hRing.size]
  refine ⟨hRing.size, hRing.hwcur, hRing.cur, hRing.head, hTail, hRing.taken, Nat.le_succ_of_le hRing.seen, ?_⟩
  have hNe : t + 1 ≠ h + ring.numSlots := by
    intro hFull
    rw [hTail, hFull, Nat.add_mod_right, hRing.hwcur] at hRoom
    exact hRoom rfl
  exact Nat.lt_of_le_of_ne hRing.within hNe

theorem Ordered.provide (hRing : ring.Ordered) (hRoom : next ring.numSlots ring.tail ≠ ring.hwcur)
    (f : Slot → Slot) (ts : Timeval) : (ring.provide f ts).Ordered := by
  obtain ⟨h, c, t, hPlaced⟩ := hRing
  exact ⟨h, c, t + 1, hPlaced.provide hRoom f ts⟩

/-- A slot that the program has stays where it is. -/
theorem Ordered.some_provide (hRing : ring.Ordered) (hRoom : next ring.numSlots ring.tail ≠ ring.hwcur)
    (hSome : ring.empty = false) (f : Slot → Slot) (ts : Timeval) : (ring.provide f ts).empty = false := by
  obtain ⟨h, c, t, hPlaced⟩ := hRing
  have hLt := hPlaced.lt_of_not_empty hSome
  rw [← Bool.not_eq_true, (hPlaced.provide hRoom f ts).empty_iff]
  omega

theorem current_provide (hSome : ring.empty = false) (f : Slot → Slot) (ts : Timeval) :
    (ring.provide f ts).slot ring.cur = ring.slot ring.cur :=
  Function.update_of_ne (fun hSame => by simp [empty, hSame] at hSome) _ _

theorem Ordered.unread_provide (hRing : ring.Ordered) (hRoom : next ring.numSlots ring.tail ≠ ring.hwcur)
    (f : Slot → Slot) (ts : Timeval) :
    (ring.provide f ts).unread = ring.unread ++ [f (ring.slot ring.tail)] := by
  obtain ⟨h, c, t, hPlaced⟩ := hRing
  have hWithin := hPlaced.within
  have hTaken := hPlaced.taken
  rw [(hPlaced.provide hRoom f ts).unread_eq, hPlaced.unread_eq, window_push hPlaced.seen]
  congr 1
  · show window ring.numSlots _ c t = _
    refine window_congr fun k hLow hHigh => Function.update_of_ne (fun hSame => ?_) _ _
    rw [hPlaced.tail] at hSame
    have hCounter : k = t := mod_inj (by omega) (by omega) hSame
    omega
  · show [Function.update ring.slot ring.tail (f (ring.slot ring.tail)) (t % ring.numSlots)] = _
    rw [← hPlaced.tail, Function.update_self]

theorem Ordered.released_provide (hRing : ring.Ordered) (hRoom : next ring.numSlots ring.tail ≠ ring.hwcur)
    (f : Slot → Slot) (ts : Timeval) : (ring.provide f ts).released = ring.released := by
  obtain ⟨h, c, t, hPlaced⟩ := hRing
  have hWithin := hPlaced.within
  have hSeen := hPlaced.seen
  rw [(hPlaced.provide hRoom f ts).released_eq, hPlaced.released_eq]
  show window ring.numSlots _ h c = _
  refine window_congr fun k hLow hHigh => Function.update_of_ne (fun hSame => ?_) _ _
  rw [hPlaced.tail] at hSame
  have hCounter : k = t := mod_inj (by omega) (by omega) hSame
  omega

theorem Placed.lt_of_released (hRing : ring.Placed h c t) (hSome : ring.hwcur ≠ ring.head) : h < c := by
  have hNe : h ≠ c := fun hSame => hSome (by rw [hRing.head, hRing.hwcur, hRing.cur, hSame])
  exact Nat.lt_of_le_of_ne hRing.taken hNe

theorem Placed.collect (hRing : ring.Placed h c t) (hSome : ring.hwcur ≠ ring.head) :
    ring.collect.Placed (h + 1) c t := by
  have hHwcur : next ring.numSlots ring.hwcur = (h + 1) % ring.numSlots := by
    rw [hRing.hwcur, next_mod hRing.size]
  refine ⟨hRing.size, hHwcur, hRing.cur, hRing.head, hRing.tail, hRing.lt_of_released hSome, hRing.seen, ?_⟩
  have hWithin := hRing.within
  show t < h + 1 + ring.numSlots
  omega

theorem Ordered.collect (hRing : ring.Ordered) (hSome : ring.hwcur ≠ ring.head) : ring.collect.Ordered := by
  obtain ⟨h, c, t, hPlaced⟩ := hRing
  exact ⟨h + 1, c, t, hPlaced.collect hSome⟩

theorem Ordered.released_collect (hRing : ring.Ordered) (hSome : ring.hwcur ≠ ring.head) :
    ring.released = ring.slot ring.hwcur :: ring.collect.released := by
  obtain ⟨h, c, t, hPlaced⟩ := hRing
  rw [hPlaced.released_eq, (hPlaced.collect hSome).released_eq, window_pop (hPlaced.lt_of_released hSome),
    hPlaced.hwcur]
  rfl

theorem mem_window {n a b : Nat} {g : Nat → Slot} (hMem : slot ∈ window n g a b) :
    ∃ k, a ≤ k ∧ k < b ∧ slot = g (k % n) := by
  obtain ⟨k, hk, rfl⟩ := List.mem_map.mp hMem
  obtain ⟨hLow, hHigh⟩ := List.mem_range'_1.mp hk
  exact ⟨k, hLow, by omega, rfl⟩

/-- Where a slot is that was given back. -/
theorem Ordered.of_released (hRing : ring.Ordered) (hMem : slot ∈ ring.released) :
    ∃ i, i < ring.numSlots ∧ i ≠ ring.cur ∧ i ≠ ring.tail ∧ slot = ring.slot i := by
  obtain ⟨h, c, t, hPlaced⟩ := hRing
  have hWithin := hPlaced.within
  have hSeen := hPlaced.seen
  rw [hPlaced.released_eq] at hMem
  obtain ⟨k, hLow, hHigh, rfl⟩ := mem_window hMem
  refine ⟨k % ring.numSlots, Nat.mod_lt _ hPlaced.size, fun hSame => ?_, fun hSame => ?_, rfl⟩
  · rw [hPlaced.cur] at hSame
    have hCounter : k = c := mod_inj (by omega) (by omega) hSame
    omega
  · rw [hPlaced.tail] at hSame
    have hCounter : k = t := mod_inj (by omega) (by omega) hSame
    omega

/-- Where a slot is that the program has. -/
theorem Ordered.of_unread (hRing : ring.Ordered) (hMem : slot ∈ ring.unread) :
    ∃ i, i < ring.numSlots ∧ i ≠ ring.tail ∧ slot = ring.slot i := by
  obtain ⟨h, c, t, hPlaced⟩ := hRing
  have hWithin := hPlaced.within
  have hTaken := hPlaced.taken
  rw [hPlaced.unread_eq] at hMem
  obtain ⟨k, hLow, hHigh, rfl⟩ := mem_window hMem
  refine ⟨k % ring.numSlots, Nat.mod_lt _ hPlaced.size, fun hSame => ?_, rfl⟩
  rw [hPlaced.tail] at hSame
  have hCounter : k = t := mod_inj (by omega) (by omega) hSame
  omega

/-- Where a slot is that the program has behind the first one. -/
theorem Ordered.of_later (hRing : ring.Ordered) (hMem : slot ∈ ring.unread.tail) :
    ∃ i, i < ring.numSlots ∧ i ≠ ring.cur ∧ slot = ring.slot i := by
  obtain ⟨h, c, t, hPlaced⟩ := hRing
  have hWithin := hPlaced.within
  have hTaken := hPlaced.taken
  rw [hPlaced.unread_eq] at hMem
  rcases Nat.lt_or_ge c t with hLt | hGe
  · rw [window_pop hLt, List.tail_cons] at hMem
    obtain ⟨k, hLow, hHigh, rfl⟩ := mem_window hMem
    refine ⟨k % ring.numSlots, Nat.mod_lt _ hPlaced.size, fun hSame => ?_, rfl⟩
    rw [hPlaced.cur] at hSame
    have hCounter : c = k := mod_inj (by omega) (by omega) hSame.symm
    omega
  · obtain rfl : c = t := Nat.le_antisymm hPlaced.seen hGe
    rw [window_self] at hMem
    cases hMem

theorem Ordered.cur_lt (hRing : ring.Ordered) : ring.cur < ring.numSlots := by
  obtain ⟨h, c, t, hPlaced⟩ := hRing
  rw [hPlaced.cur]
  exact Nat.mod_lt _ hPlaced.size

theorem Ordered.tail_lt (hRing : ring.Ordered) : ring.tail < ring.numSlots := by
  obtain ⟨h, c, t, hPlaced⟩ := hRing
  rw [hPlaced.tail]
  exact Nat.mod_lt _ hPlaced.size

end Peak.Netmap.Ring
