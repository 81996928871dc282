import Mathlib.Data.Set.Function
import Mathlib.Logic.Equiv.Basic
import Peak.Netmap.Kernel

/-! Every buffer belongs to one slot at a time. So a store to a buffer is seen in one
slot only, whatever was exchanged before. -/
namespace Peak.Netmap

open Turns

variable {m m' : Shared} {r r' : RingId} {i b : Nat} {f : Slot → Slot} {slot : Slot} {g : Ring → Ring}
variable {content : List UInt8} {ts : Timeval} {flags : BitVec 16}

namespace Shared

@[simp] theorem ring_modify : (m.modify r g).ring r = g (m.ring r) := Function.update_self ..

theorem ring_modify_of_ne (h : r' ≠ r) : (m.modify r g).ring r' = m.ring r' := Function.update_of_ne h ..

theorem modify_congr {g' : Ring → Ring} (h : g (m.ring r) = g' (m.ring r)) : m.modify r g = m.modify r g' := by
  rw [modify, h, modify]

@[simp] theorem content_modify : (m.modify r g).content = m.content := rfl

@[simp] theorem ring_write : (m.write b content).ring = m.ring := rfl

theorem content_write_of_ne (h : slot.bufIdx ≠ b) : (m.write b content).content slot = m.content slot := by
  rw [Shared.content, write]
  dsimp only
  rw [Function.update_of_ne h]
  rfl

theorem content_write (hBuf : slot.bufIdx = b) (hLen : slot.len = content.length) :
    (m.write b content).content slot = content := by
  rw [Shared.content, write]
  dsimp only
  rw [hBuf, Function.update_self, hLen, List.take_left']
  rfl

/-- The buffer of a slot. -/
def bufOf (m : Shared) (p : RingId × Nat) : Nat := ((m.ring p.1).slot p.2).bufIdx

/-- The slots that there are. -/
def slots (m : Shared) : Set (RingId × Nat) := {p | p.2 < (m.ring p.1).numSlots}

/-- Positions are in order, and every buffer is in one slot. The first two buffers are
not used for packets. -/
structure Ok (bufs : Set Nat) (m : Shared) : Prop where
  ordered : ∀ r, m.Known r → (m.ring r).Ordered
  once : Set.BijOn m.bufOf m.slots bufs
  usable : ∀ b ∈ bufs, 2 ≤ b

variable {bufs : Set Nat}

/-- The buffers went around among the slots. -/
theorem Ok.of_perm (h : m.Ok bufs) (hSize : ∀ r, (m'.ring r).numSlots = (m.ring r).numSlots)
    (σ : Equiv.Perm (RingId × Nat)) (hMaps : ∀ p, σ p ∈ m.slots ↔ p ∈ m.slots)
    (hBuf : ∀ p, m'.bufOf p = m.bufOf (σ p)) (hOrdered : ∀ r, m.Known r → (m'.ring r).Ordered) :
    m'.Ok bufs := by
  have hSlots : m'.slots = m.slots := by
    refine Set.ext fun p => ?_
    show p.2 < (m'.ring p.1).numSlots ↔ p.2 < (m.ring p.1).numSlots
    rw [hSize]
  refine ⟨fun r hKnown => hOrdered r ?_, ?_, h.usable⟩
  · rw [Known, ← hSize r]
    exact hKnown
  · have hBij : Set.BijOn σ m.slots m.slots := by
      refine ⟨fun p hp => (hMaps p).mpr hp, σ.injective.injOn, fun p hp => ?_⟩
      exact ⟨σ.symm p, (hMaps _).mp (by rwa [σ.apply_symm_apply]), σ.apply_symm_apply p⟩
    rw [hSlots]
    exact (h.once.comp hBij).congr fun p _ => (hBuf p).symm

/-- The slots keep their buffers. -/
theorem Ok.of_bufOf (h : m.Ok bufs) (hSize : ∀ r, (m'.ring r).numSlots = (m.ring r).numSlots)
    (hBuf : ∀ p, m'.bufOf p = m.bufOf p) (hOrdered : ∀ r, m.Known r → (m'.ring r).Ordered) : m'.Ok bufs :=
  h.of_perm hSize (Equiv.refl _) (fun _ => Iff.rfl) hBuf hOrdered

theorem Ok.write (h : m.Ok bufs) : (m.write b content).Ok bufs := h.of_bufOf (fun _ => rfl) (fun _ => rfl) h.ordered

/-- A ring changes, but not the buffers in its slots. -/
theorem Ok.modify (h : m.Ok bufs) (hSize : (g (m.ring r)).numSlots = (m.ring r).numSlots)
    (hBuf : ∀ i, ((g (m.ring r)).slot i).bufIdx = ((m.ring r).slot i).bufIdx)
    (hOrdered : m.Known r → (g (m.ring r)).Ordered) : (m.modify r g).Ok bufs := by
  have hEither : ∀ r', (m.modify r g).ring r' = if r' = r then g (m.ring r) else m.ring r' :=
    fun r' => Function.update_apply ..
  refine h.of_bufOf (fun r' => ?_) (fun p => ?_) fun r' hKnown => ?_
  · rw [hEither]
    split_ifs with hSame
    · rw [hSize, hSame]
    · rfl
  · rw [bufOf, bufOf, hEither]
    split_ifs with hSame
    · rw [hBuf, hSame]
    · rfl
  · rw [hEither]
    split_ifs with hSame
    · exact hOrdered (hSame ▸ hKnown)
    · exact h.ordered r' hKnown

theorem ring_modify_apply (m : Shared) (r r' : RingId) (g : Ring → Ring) :
    (m.modify r g).ring r' = if r' = r then g (m.ring r) else m.ring r' :=
  Function.update_apply ..

/-- A slot gets the packet of a claimed one, and the claimed one gets its buffer. -/
def exchange (m : Shared) (c t : RingId) (f f' : BitVec 16 → BitVec 16) : Shared :=
  let rs := (m.ring c).slot (m.ring c).cur
  let ts := (m.ring t).slot (m.ring t).cur
  (m.modify t fun ring => (ring.modifySlot ring.cur fun ts =>
    { bufIdx := rs.bufIdx, len := rs.len, flags := f ts.flags }).release).modify c fun ring =>
      (ring.modifySlot ring.cur fun rs => { rs with bufIdx := ts.bufIdx, flags := f' rs.flags }).release

variable {c t : RingId} {f₁ f₂ : BitVec 16 → BitVec 16}

theorem ring_exchange_source (h : c ≠ t) : (m.exchange c t f₁ f₂).ring c =
    ((m.ring c).modifySlot (m.ring c).cur fun rs =>
      { rs with bufIdx := ((m.ring t).slot (m.ring t).cur).bufIdx, flags := f₂ rs.flags }).release := by
  rw [exchange, ring_modify, ring_modify_of_ne h]

theorem ring_exchange_target (h : c ≠ t) : (m.exchange c t f₁ f₂).ring t =
    ((m.ring t).modifySlot (m.ring t).cur fun ts =>
      { bufIdx := ((m.ring c).slot (m.ring c).cur).bufIdx, len := ((m.ring c).slot (m.ring c).cur).len,
        flags := f₁ ts.flags }).release := by
  rw [exchange, ring_modify_of_ne h.symm, ring_modify]

theorem ring_exchange_of_ne (hSource : r ≠ c) (hTarget : r ≠ t) :
    (m.exchange c t f₁ f₂).ring r = m.ring r := by
  rw [exchange, ring_modify_of_ne hSource, ring_modify_of_ne hTarget]

theorem numSlots_exchange (h : c ≠ t) (r : RingId) :
    ((m.exchange c t f₁ f₂).ring r).numSlots = (m.ring r).numSlots := by
  by_cases hSource : r = c
  · rw [hSource, ring_exchange_source h]
    rfl
  · by_cases hTarget : r = t
    · rw [hTarget, ring_exchange_target h]
      rfl
    · rw [ring_exchange_of_ne hSource hTarget]

/-- Two slots exchange their buffers. -/
theorem bufOf_exchange (h : c ≠ t) (p : RingId × Nat) : (m.exchange c t f₁ f₂).bufOf p =
    m.bufOf (Equiv.swap (c, (m.ring c).cur) (t, (m.ring t).cur) p) := by
  obtain ⟨r, i⟩ := p
  rw [Equiv.swap_apply_def]
  by_cases hSource : r = c
  · subst hSource
    rw [bufOf, ring_exchange_source h]
    show (Function.update (m.ring r).slot (m.ring r).cur _ i).bufIdx = _
    rw [Function.update_apply]
    by_cases hSame : i = (m.ring r).cur
    · rw [if_pos hSame, if_pos (by rw [hSame])]
      rfl
    · rw [if_neg hSame, if_neg fun hPair => hSame (congrArg Prod.snd hPair),
        if_neg fun hPair => h (congrArg Prod.fst hPair)]
      rfl
  · rw [if_neg fun hPair => hSource (congrArg Prod.fst hPair)]
    by_cases hTarget : r = t
    · subst hTarget
      rw [bufOf, ring_exchange_target h]
      show (Function.update (m.ring r).slot (m.ring r).cur _ i).bufIdx = _
      rw [Function.update_apply]
      by_cases hSame : i = (m.ring r).cur
      · rw [if_pos hSame, if_pos (by rw [hSame])]
        rfl
      · rw [if_neg hSame, if_neg fun hPair => hSame (congrArg Prod.snd hPair)]
        rfl
    · rw [if_neg fun hPair => hTarget (congrArg Prod.fst hPair), bufOf, ring_exchange_of_ne hSource hTarget]
      rfl

theorem Ok.exchange (h : m.Ok bufs) (hApart : c ≠ t) (hSource : m.Known c) (hTarget : m.Known t)
    (hPacket : (m.ring c).empty = false) (hRoom : (m.ring t).empty = false) :
    (m.exchange c t f₁ f₂).Ok bufs := by
  have hEither : ∀ r, r = c ∨ r = t ∨ r ≠ c ∧ r ≠ t := by
    intro r
    by_cases hc : r = c
    · exact .inl hc
    · by_cases ht : r = t
      · exact .inr (.inl ht)
      · exact .inr (.inr ⟨hc, ht⟩)
  refine h.of_perm (numSlots_exchange hApart) _ (fun p => ?_) (bufOf_exchange hApart) fun r hKnown => ?_
  · have hFirst : (c, (m.ring c).cur) ∈ m.slots := (h.ordered c hSource).cur_lt
    have hSecond : (t, (m.ring t).cur) ∈ m.slots := (h.ordered t hTarget).cur_lt
    rw [Equiv.swap_apply_def]
    split_ifs with hSame hSame'
    · exact iff_of_true hSecond (hSame ▸ hFirst)
    · exact iff_of_true hFirst (hSame' ▸ hSecond)
    · exact Iff.rfl
  · rcases hEither r with rfl | rfl | ⟨hc, ht⟩
    · rw [ring_exchange_source hApart]
      exact (h.ordered r hKnown).release hPacket _
    · rw [ring_exchange_target hApart]
      exact (h.ordered r hKnown).release hRoom _
    · rw [ring_exchange_of_ne hc ht]
      exact h.ordered r hKnown

end Shared

end Peak.Netmap
