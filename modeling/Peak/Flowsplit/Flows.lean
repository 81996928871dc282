import Peak.Flowsplit.Program
import Peak.Track.Recency

/-! The tracker while it has room for all flows: the number of a flow is its place
in the order in which the keys were first seen, and it stays. -/
namespace Peak.Flowsplit

open Track Lru

variable {flowCount : Nat} {order : List Key} {track : Tracks} {ref : Ref}

/-- The keys in the order in which they were first seen, after one more. -/
def extend (order : List Key) (key : Key) : List Key := if key ∈ order then order else order ++ [key]

/-- The tracker holds a flow for every key that was seen, numbered in order. -/
structure Flows (flowCount : Nat) (order : List Key) (track : Tracks) : Prop where
  ok : Ok flowCount track
  keep : track.noTimeout = true
  next : track.nextFlowId = order.length
  nodup : order.Nodup
  tracked (slot : Nat) (hMem : slot ∈ track.tos) : (track.keyOf slot).1 ∈ order ∧
    (track.mem slot).id = order.idxOf (track.keyOf slot).1
  known (key : Key) (hMem : key ∈ order) : ∃ slot ∈ track.tos, (track.keyOf slot).1 = key

theorem mem_extend (order : List Key) (key : Key) : key ∈ extend order key := by
  rw [extend]
  split_ifs with hMem
  · exact hMem
  · exact List.mem_append_right _ (List.mem_singleton_self key)

/-- The place of a key stays. -/
theorem idxOf_extend {key key' : Key} (h : key' ∈ order) :
    (extend order key).idxOf key' = order.idxOf key' := by
  rw [extend]
  split_ifs
  · rfl
  · exact List.idxOf_append_of_mem h

theorem Flows.length_tos (h : Flows flowCount order track) : track.tos.length ≤ order.length := by
  have hNodup : (track.tos.map fun slot => (track.keyOf slot).1).Nodup := by
    have hKeys := h.ok.keys.map Subtype.val_injective
    rwa [List.map_map] at hKeys
  have hSubset : (track.tos.map fun slot => (track.keyOf slot).1) ⊆ order := by
    intro key hMem
    obtain ⟨slot, hSlot, rfl⟩ := List.mem_map.mp hMem
    exact (h.tracked slot hSlot).1
  have hLength := (hNodup.subperm hSubset).length_le
  rwa [List.length_map] at hLength

/-- A key that is not tracked was not seen. -/
theorem Flows.not_seen (h : Flows flowCount order track)
    (hNew : ∀ slot ∈ track.tos, track.keyOf slot ≠ ref) : ref.1 ∉ order := by
  intro hMem
  obtain ⟨slot, hSlot, hKey⟩ := h.known ref.1 hMem
  exact hNew slot hSlot (Subtype.ext hKey)

/-- The flow of a key that was seen before. -/
theorem Flows.acquire_known (h : Flows flowCount order track) {slot : Nat} (hMem : slot ∈ track.tos) :
    Flows flowCount order { track with tos := track.tos.erase slot ++ [slot] } := by
  have hSame (slot' : Nat) : slot' ∈ track.tos.erase slot ++ [slot] ↔ slot' ∈ track.tos :=
    ((List.perm_append_singleton slot _).trans (List.perm_cons_erase hMem).symm).mem_iff
  refine ⟨(Acquires.known slot hMem rfl).ok h.ok, h.keep, h.next, h.nodup, fun slot' hSlot => ?_,
    fun key hKey => ?_⟩
  · exact h.tracked slot' ((hSame slot').mp hSlot)
  · obtain ⟨slot', hSlot, hEq⟩ := h.known key hKey
    exact ⟨slot', (hSame slot').mpr hSlot, hEq⟩

/-- A flow for a new key. -/
theorem Flows.acquire_made (h : Flows flowCount order track) {slot : Nat} {free flows : List Nat}
    (hSize : order.length + 1 < 2 ^ 64) (hNew : ∀ slot ∈ track.tos, track.keyOf slot ≠ ref)
    (hFree : track.pool.free = slot :: free) (hFlows : flows.Perm (slot :: track.tos)) :
    Flows flowCount (order ++ [ref.1]) { track with
      mem := Function.update track.mem slot (Flow.fresh ref track.nextFlowId)
      flows := flows
      tos := track.tos ++ [slot]
      pool := ⟨free, track.pool.used + 1⟩
      nextFlowId := (track.nextFlowId + 1) % 2 ^ 64 } := by
  have hUnseen := h.not_seen hNew
  have hApart {slot' : Nat} (hSlot : slot' ∈ track.tos) : slot' ≠ slot := by
    rintro rfl
    exact h.ok.free_apart (hFree ▸ List.mem_cons_self) (h.ok.tree.symm.subset hSlot)
  refine ⟨(Acquires.made slot free flows hNew hFree hFlows).ok h.ok, h.keep, ?_, ?_,
    fun slot' hSlot => ?_, fun key hKey => ?_⟩
  · rw [List.length_append, List.length_singleton, h.next]
    exact Nat.mod_eq_of_lt hSize
  · refine List.nodup_append'.mpr ⟨h.nodup, List.nodup_singleton _, ?_⟩
    intro key hOld hLast
    exact hUnseen (List.mem_singleton.mp hLast ▸ hOld)
  · rcases List.mem_append.mp hSlot with hSlot | hSlot
    · obtain ⟨hSeen, hId⟩ := h.tracked slot' hSlot
      simp only [Tracks.keyOf, Function.update_of_ne (hApart hSlot)] at hSeen hId ⊢
      exact ⟨List.mem_append_left _ hSeen, hId.trans (List.idxOf_append_of_mem hSeen).symm⟩
    · obtain rfl := List.mem_singleton.mp hSlot
      simp only [Tracks.keyOf, Function.update_self, Flow.fresh]
      refine ⟨List.mem_append_right _ (List.mem_singleton_self _), ?_⟩
      rw [List.idxOf_append_of_notMem hUnseen, List.idxOf_cons_self, Nat.add_zero]
      exact h.next
  · rcases List.mem_append.mp hKey with hKey | hKey
    · obtain ⟨slot', hSlot, hEq⟩ := h.known key hKey
      refine ⟨slot', List.mem_append_left _ hSlot, ?_⟩
      simp only [Tracks.keyOf, Function.update_of_ne (hApart hSlot)]
      exact hEq
    · refine ⟨slot, List.mem_append_right _ (List.mem_singleton_self slot), ?_⟩
      simp only [Tracks.keyOf, Function.update_self]
      exact (List.mem_singleton.mp hKey).symm

/-- A call for a key while there is room for its flow: the flow has the number
that the key has in the order. -/
theorem Flows.acquire (h : Flows flowCount order track) (hCount : 0 < flowCount)
    (hSize : flowCount < 2 ^ 32) (hRoom : (extend order ref.1).length ≤ flowCount) :
    ∃ slot track', trackAcquire track (some ref) = .ret (some slot) track' ∧
      (track'.mem slot).id = (extend order ref.1).idxOf ref.1 ∧
      Flows flowCount (extend order ref.1) track' := by
  obtain ⟨answer, track', hReturn, hAcquires⟩ := h.ok.acquire_returns hCount ref
  cases hAcquires with
  | known slot hMem hKey =>
      obtain ⟨hSeen, hId⟩ := h.tracked slot hMem
      rw [hKey] at hSeen hId
      have hOrder : extend order ref.1 = order := if_pos hSeen
      rw [hOrder]
      exact ⟨slot, _, hReturn, hId, h.acquire_known hMem⟩
  | made slot free flows hNew hFree hFlows =>
      have hOrder : extend order ref.1 = order ++ [ref.1] := if_neg (h.not_seen hNew)
      rw [hOrder, List.length_append, List.length_singleton] at hRoom
      have hFlows' := h.acquire_made (by omega) hNew hFree hFlows
      rw [hOrder]
      refine ⟨slot, _, hReturn, ?_, hFlows'⟩
      have hId := (hFlows'.tracked slot (List.mem_append_right _ (List.mem_singleton_self slot))).2
      simpa [Tracks.keyOf, Flow.fresh] using hId
  | recycled _ _ _ _ _ hTimeout =>
      rw [h.keep] at hTimeout
      cases hTimeout
  | refused hNew hFull _ =>
      have hOrder : extend order ref.1 = order ++ [ref.1] := if_neg (h.not_seen hNew)
      have hLength := h.ok.length
      have hTos := h.length_tos
      rw [hOrder, List.length_append, List.length_singleton] at hRoom
      rw [hFull, List.length_nil] at hLength
      omega

/-- A tracker without flows. -/
theorem Flows.init {slots : Nat → Flow} (hSize : flowCount < 2 ^ 32)
    (hInit : trackInit true true slots 0 flowCount true = some track) :
    Flows flowCount [] track := by
  rw [trackInit_eq hInit]
  exact ⟨.init slots true 0 (by omega), rfl, rfl, List.nodup_nil,
    fun slot hMem => absurd hMem List.not_mem_nil, fun key hMem => absurd hMem List.not_mem_nil⟩

end Peak.Flowsplit
