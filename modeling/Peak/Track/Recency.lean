import Peak.Base.Lru
import Peak.Track.Tracker

/-! The tracker as a map of bounded size: in every state that calls lead to, the
tree, the queue and the pool agree, and what a call does is what a map does that
drops the key that was used least recently. -/
namespace Peak.Track

open Lru

variable {count : Nat} {s s' : Tracks} {key : Ref} {slot : Nat} {free : List Nat}

theorem Ref.trackCmp_eq_iff {key key' : Ref} : trackCmp key.1 key'.1 = .eq ↔ key = key' := by
  rw [Track.trackCmp_eq_iff key.2 key'.2, Subtype.ext_iff]

theorem rbFind_eq_none_iff : s.rbFind key = none ↔ ∀ slot ∈ s.flows, s.keyOf slot ≠ key := by
  simp only [Tracks.rbFind, List.find?_eq_none, beq_iff_eq, Ref.trackCmp_eq_iff]
  exact ⟨fun h slot hMem hKey => h slot hMem hKey.symm, fun h slot hMem hKey => h slot hMem hKey.symm⟩

theorem mem_of_rbFind (h : s.rbFind key = some slot) : slot ∈ s.flows ∧ s.keyOf slot = key := by
  refine ⟨List.mem_of_find?_eq_some h, ?_⟩
  have hEq := List.find?_some h
  exact (Ref.trackCmp_eq_iff.mp (by simpa using hEq)).symm

/-- The flow that is made for a key. -/
def Flow.fresh (key : Ref) (id : Nat) : Flow := { Flow.zeroed with key := key, id := id }

/-- The tree and the queue hold the same flows, one for each key, the other
slots are free, and the pool knows how many are in use. -/
structure Ok (count : Nat) (s : Tracks) : Prop where
  size : count < 2 ^ 64
  tree : s.flows.Perm s.tos
  keys : (s.tos.map s.keyOf).Nodup
  slots : (s.tos ++ s.pool.free).Perm (List.range count)
  used : s.pool.used = s.tos.length

theorem Ok.length (h : Ok count s) : s.tos.length + s.pool.free.length = count := by
  have hLength := h.slots.length_eq
  rwa [List.length_append, List.length_range] at hLength

theorem Ok.slots_nodup (h : Ok count s) : (s.tos ++ s.pool.free).Nodup :=
  h.slots.nodup_iff.mpr List.nodup_range

/-- The state that `peak_track_init` makes. -/
theorem trackInit_eq {callocOk malignOk noTimeout : Bool} {mem : Nat → Flow} {start : Nat}
    (hInit : trackInit callocOk malignOk mem start count noTimeout = some s) :
    s = ⟨mem, [], [], noTimeout, ⟨List.range count, 0⟩, start⟩ := by
  cases callocOk with
  | false => cases hInit
  | true =>
      obtain ⟨pool, hPool, rfl⟩ := Option.map_eq_some_iff.mp hInit
      have hFull : pool = ⟨List.range count, 0⟩ := by
        simp only [Pool.init] at hPool
        split_ifs at hPool
        exact (Option.some.inj hPool).symm
      rw [hFull]

/-- Without flows all slots are free. -/
theorem Ok.init (mem : Nat → Flow) (noTimeout : Bool) (start : Nat) (hSize : count < 2 ^ 64) :
    Ok count ⟨mem, [], [], noTimeout, ⟨List.range count, 0⟩, start⟩ :=
  ⟨hSize, .refl _, List.nodup_nil, .refl _, rfl⟩

/-- What a call for a key did, by its answer. -/
inductive Acquires (s : Tracks) (key : Ref) : Answer Nat → Tracks → Prop where
  | known (slot : Nat) (hMem : slot ∈ s.tos) (hKey : s.keyOf slot = key) :
      Acquires s key (.known slot) { s with tos := s.tos.erase slot ++ [slot] }
  | made (slot : Nat) (free flows : List Nat) (hNew : ∀ slot ∈ s.tos, s.keyOf slot ≠ key)
      (hFree : s.pool.free = slot :: free) (hFlows : flows.Perm (slot :: s.tos)) :
      Acquires s key (.made slot) { s with
        mem := Function.update s.mem slot (Flow.fresh key s.nextFlowId)
        flows := flows
        tos := s.tos ++ [slot]
        pool := ⟨free, s.pool.used + 1⟩
        nextFlowId := (s.nextFlowId + 1) % 2 ^ 64 }
  | recycled (slot : Nat) (tos flows : List Nat) (hNew : ∀ slot ∈ s.tos, s.keyOf slot ≠ key)
      (hFull : s.pool.free = []) (hTimeout : s.noTimeout = false) (hTos : s.tos = slot :: tos)
      (hFlows : flows.Perm (slot :: tos)) :
      Acquires s key (.made slot) { s with
        mem := Function.update s.mem slot (Flow.fresh key s.nextFlowId)
        flows := flows
        tos := tos ++ [slot]
        nextFlowId := (s.nextFlowId + 1) % 2 ^ 64 }
  | refused (hNew : ∀ slot ∈ s.tos, s.keyOf slot ≠ key) (hFull : s.pool.free = [])
      (hTimeout : s.noTimeout = true) : Acquires s key .refused s

/-- A flow is added to a tree without its key. -/
theorem addFlow_eq (hFree : s.pool.free = slot :: free) (hApart : slot ∉ s.flows)
    (hNew : ∀ slot ∈ s.flows, s.keyOf slot ≠ key) :
    ∃ flows, flows.Perm (slot :: s.flows) ∧
      addFlow s key = .ret (some slot) { s with
        mem := Function.update s.mem slot (Flow.fresh key s.nextFlowId)
        flows := flows
        tos := s.tos ++ [slot]
        pool := ⟨free, (s.pool.used + 1) % 2 ^ 64⟩
        nextFlowId := (s.nextFlowId + 1) % 2 ^ 64 } := by
  have hGet : s.pool.get = some (slot, ⟨free, (s.pool.used + 1) % 2 ^ 64⟩) := by
    rw [Pool.get, hFree]
  let filled : Tracks := { s with
    pool := ⟨free, (s.pool.used + 1) % 2 ^ 64⟩
    mem := Function.update s.mem slot { Flow.zeroed with key := key } }
  have hKey : filled.keyOf slot = key := by simp [filled, Tracks.keyOf]
  have hNone : filled.rbFind (filled.keyOf slot) = none := by
    rw [hKey, rbFind_eq_none_iff]
    intro slot' hMem
    have hOther : slot' ≠ slot := fun hEq => hApart (hEq ▸ hMem)
    simpa [filled, Tracks.keyOf, hOther] using hNew slot' hMem
  refine ⟨_, List.perm_orderedInsert
    (fun slot slot' => trackCmp (filled.keyOf slot).1 (filled.keyOf slot').1 = .lt) slot s.flows, ?_⟩
  have hInsert : filled.rbInsert slot = (none, { filled with
      flows := s.flows.orderedInsert
        (fun slot slot' => trackCmp (filled.keyOf slot).1 (filled.keyOf slot').1 = .lt) slot }) := by
    rw [Tracks.rbInsert, hNone]
  simp only [addFlow, hGet]
  rw [hInsert]
  simp [filled, Flow.fresh]

theorem Ok.flows_nodup (h : Ok count s) : s.flows.Nodup :=
  h.tree.nodup_iff.mpr (List.nodup_append'.mp h.slots_nodup).1

/-- A flow from the pool is in neither the tree nor the queue. -/
theorem Ok.free_apart (h : Ok count s) (hFree : slot ∈ s.pool.free) : slot ∉ s.flows := by
  intro hMem
  exact (List.nodup_append'.mp h.slots_nodup).2.2 (h.tree.subset hMem) hFree

/-- A call while there are free slots. -/
theorem Ok.acquire_room (h : Ok count s) (hNone : s.rbFind key = none)
    (hFree : s.pool.free = slot :: free) :
    ∃ s', trackAcquire s (some key) = .ret (some slot) s' ∧ Acquires s key (.made slot) s' := by
  have hNew := rbFind_eq_none_iff.mp hNone
  have hUsed : (s.pool.used + 1) % 2 ^ 64 = s.pool.used + 1 := by
    have hLength := h.length
    have hSize := h.size
    rw [hFree, List.length_cons] at hLength
    rw [h.used]
    exact Nat.mod_eq_of_lt (by omega)
  have hApart := h.free_apart (hFree ▸ List.mem_cons_self)
  obtain ⟨flows, hFlows, hAdd⟩ := addFlow_eq hFree hApart hNew
  have hEmpty : s.pool.empty = false := by rw [Pool.empty, hFree, List.isEmpty_cons]
  rw [hUsed] at hAdd
  refine ⟨_, ?_, .made slot free flows (fun slot hMem => hNew slot (h.tree.symm.subset hMem)) hFree
    (hFlows.trans (h.tree.cons slot))⟩
  simp only [trackAcquire, hNone, hEmpty]
  exact hAdd

/-- A slot that is put back and taken again is counted as before. -/
theorem Pool.used_of_put {pool : Pool} (hSome : 0 < pool.used) (hSize : pool.used < 2 ^ 64) :
    ((pool.put slot).used + 1) % 2 ^ 64 = pool.used := by
  simp only [Pool.put]
  omega

/-- A call that takes the slot of the flow that was used least recently. -/
theorem Ok.acquire_full (h : Ok count s) (hNone : s.rbFind key = none) (hFull : s.pool.free = [])
    (hTimeout : s.noTimeout = false) {tos : List Nat} (hTos : s.tos = slot :: tos) :
    ∃ s', trackAcquire s (some key) = .ret (some slot) s' ∧ Acquires s key (.made slot) s' := by
  have hNew := rbFind_eq_none_iff.mp hNone
  have hEmpty : s.pool.empty = true := by rw [Pool.empty, hFull, List.isEmpty_nil]
  have hErase : (s.flows.erase slot).Perm tos := by
    have hPerm := h.tree.erase slot
    rwa [hTos, List.erase_cons_head] at hPerm
  have hUsed : ((s.pool.put slot).used + 1) % 2 ^ 64 = s.pool.used := by
    have hLength := h.length
    have hSize := h.size
    have hCounted := h.used
    rw [hTos, List.length_cons] at hLength hCounted
    exact Pool.used_of_put (by omega) (by omega)
  have hPool : (⟨[], s.pool.used⟩ : Pool) = s.pool := by rw [← hFull]
  have hFree : (s.pool.put slot).free = slot :: [] := by rw [Pool.put, hFull]
  obtain ⟨flows, hFlows, hAdd⟩ := addFlow_eq
    (s := { s with tos := tos, flows := s.flows.erase slot, pool := s.pool.put slot }) hFree
    h.flows_nodup.not_mem_erase fun slot hMem => hNew slot (List.mem_of_mem_erase hMem)
  rw [hUsed, hPool] at hAdd
  refine ⟨_, ?_, .recycled slot tos flows (fun slot hMem => hNew slot (h.tree.symm.subset hMem)) hFull
    hTimeout hTos (hFlows.trans (hErase.cons slot))⟩
  simp only [trackAcquire, hNone, hEmpty, hTos, if_true]
  rw [if_neg (by simp [hTimeout])]
  exact hAdd

/-- Every call returns. -/
theorem Ok.acquire_returns (h : Ok count s) (hCount : 0 < count) (key : Ref) :
    ∃ answer s', trackAcquire s (some key) = .ret answer.value s' ∧ Acquires s key answer s' := by
  cases hFind : s.rbFind key with
  | some slot =>
      obtain ⟨hMem, hKey⟩ := mem_of_rbFind hFind
      refine ⟨.known slot, _, ?_, .known slot (h.tree.subset hMem) hKey⟩
      simp only [trackAcquire, hFind]
      rfl
  | none =>
      cases hFree : s.pool.free with
      | cons slot free =>
          obtain ⟨s', hReturn, hAcquires⟩ := h.acquire_room hFind hFree
          exact ⟨.made slot, s', hReturn, hAcquires⟩
      | nil =>
          cases hTimeout : s.noTimeout with
          | true =>
              have hNew := rbFind_eq_none_iff.mp hFind
              refine ⟨.refused, s, ?_, .refused (fun slot hMem => hNew slot (h.tree.symm.subset hMem))
                hFree hTimeout⟩
              simp [trackAcquire, hFind, Pool.empty, hFree, hTimeout, Answer.value]
          | false =>
              cases hTos : s.tos with
              | nil =>
                  have hLength := h.length
                  rw [hTos, hFree] at hLength
                  exact absurd hLength.symm hCount.ne'
              | cons slot tos =>
                  obtain ⟨s', hReturn, hAcquires⟩ := h.acquire_full hFind hFree hTimeout hTos
                  exact ⟨.made slot, s', hReturn, hAcquires⟩

/-- A slot that is not in a list keeps the keys of the list. -/
theorem map_keyOf_update {slots : List Nat} {flow : Flow} (mem : Nat → Flow) (h : slot ∉ slots) :
    slots.map (fun slot' => (Function.update mem slot flow slot').key) =
      slots.map fun slot' => (mem slot').key := by
  refine List.map_congr_left fun slot' hMem => ?_
  have hOther : slot' ≠ slot := fun hEq => h (hEq ▸ hMem)
  rw [Function.update_of_ne hOther]

/-- The keys after a flow was made: one key in place of some. -/
theorem keys_made {slots : List Nat} {id : Nat} (mem : Nat → Flow)
    (hKeys : (slots.map fun slot' => (mem slot').key).Nodup) (hApart : slot ∉ slots)
    (hNew : ∀ slot' ∈ slots, (mem slot').key ≠ key) :
    ((slots ++ [slot]).map fun slot' =>
      (Function.update mem slot (Flow.fresh key id) slot').key).Nodup := by
  rw [List.map_append, map_keyOf_update mem hApart, List.map_singleton, Function.update_self]
  refine List.nodup_append'.mpr ⟨hKeys, List.nodup_singleton _, ?_⟩
  intro key' hOld hLast
  obtain ⟨slot', hMem, hKey⟩ := List.mem_map.mp hOld
  exact hNew slot' hMem (hKey.trans (List.mem_singleton.mp hLast))

/-- A call keeps the tree, the queue and the pool in step. -/
theorem Acquires.ok {answer : Answer Nat} (h : Ok count s) (hStep : Acquires s key answer s') :
    Ok count s' := by
  have hNodup := List.nodup_append'.mp h.slots_nodup
  cases hStep with
  | known slot hMem hKey =>
      have hPerm : (s.tos.erase slot ++ [slot]).Perm s.tos :=
        (List.perm_append_singleton slot _).trans (List.perm_cons_erase hMem).symm
      exact ⟨h.size, h.tree.trans hPerm.symm, (hPerm.map _).nodup_iff.mpr h.keys,
        (hPerm.append_right _).trans h.slots, h.used.trans hPerm.length_eq.symm⟩
  | made slot free flows hNew hFree hFlows =>
      have hApart : slot ∉ s.tos := fun hMem => hNodup.2.2 hMem (hFree ▸ List.mem_cons_self)
      refine ⟨h.size, hFlows.trans (List.perm_append_singleton slot _).symm,
        keys_made s.mem h.keys hApart hNew, ?_, ?_⟩
      · have hSlots := h.slots
        rw [hFree] at hSlots
        rwa [List.append_assoc, List.singleton_append]
      · rw [List.length_append, List.length_singleton, ← h.used]
  | recycled slot tos flows hNew hFull hTimeout hTos hFlows =>
      have hTosNodup := hNodup.1
      have hKeys := h.keys
      have hSlots := h.slots
      have hUsed := h.used
      rw [hTos] at hTosNodup hKeys hSlots hUsed hNew
      refine ⟨h.size, hFlows.trans (List.perm_append_singleton slot _).symm,
        keys_made s.mem (List.nodup_cons.mp hKeys).2 (List.nodup_cons.mp hTosNodup).1
          fun slot' hMem => hNew slot' (List.mem_cons_of_mem _ hMem), ?_, ?_⟩
      · exact ((List.perm_append_singleton slot tos).append_right _).trans hSlots
      · rw [List.length_append, List.length_singleton]
        exact hUsed
  | refused => exact h

/-- The flows that are tracked, in the order of their last use. -/
def Tracks.entries (s : Tracks) : List (Ref × Flow) := s.tos.map fun slot => (s.keyOf slot, s.mem slot)

theorem entries_keys (s : Tracks) : s.entries.map Prod.fst = s.tos.map s.keyOf := by
  rw [Tracks.entries, List.map_map]
  rfl

/-- The tracker as a map of bounded size. -/
def Ok.cache (h : Ok count s) : Cache Ref Flow count where
  entries := s.entries
  keys := by
    rw [entries_keys]
    exact h.keys
  within := by
    have hLength := h.length
    rw [Tracks.entries, List.length_map]
    omega

/-- The queue without a flow, by its key. -/
theorem Ok.filter_keyOf (h : Ok count s) (hMem : slot ∈ s.tos) :
    s.tos.filter (fun slot' => s.keyOf slot' ≠ s.keyOf slot) = s.tos.erase slot := by
  rw [(List.nodup_append'.mp h.slots_nodup).1.erase_eq_filter]
  refine List.filter_congr fun slot' hMem' => ?_
  have hInj : s.keyOf slot' = s.keyOf slot ↔ slot' = slot :=
    ⟨fun hKey => List.inj_on_of_nodup_map h.keys hMem' hMem hKey, fun hEq => hEq ▸ rfl⟩
  rw [Bool.eq_iff_iff]
  simp [hInj]

/-- The entries for some slots after a flow was made in another one. -/
theorem entries_made {slots : List Nat} {id : Nat} (mem : Nat → Flow) (hApart : slot ∉ slots) :
    ((slots ++ [slot]).map fun slot' => ((Function.update mem slot (Flow.fresh key id) slot').key,
        Function.update mem slot (Flow.fresh key id) slot')) =
      (slots.map fun slot' => ((mem slot').key, mem slot')) ++ [(key, Flow.fresh key id)] := by
  rw [List.map_append, List.map_singleton, Function.update_self]
  congr 1
  refine List.map_congr_left fun slot' hMem => ?_
  have hOther : slot' ≠ slot := fun hEq => hApart (hEq ▸ hMem)
  rw [Function.update_of_ne hOther]

theorem not_mem_keys (h : Ok count s) (hNew : ∀ slot ∈ s.tos, s.keyOf slot ≠ key) :
    key ∉ h.cache.entries.map Prod.fst := by
  intro hMem
  have hKeys : key ∈ s.tos.map s.keyOf := entries_keys s ▸ hMem
  obtain ⟨slot, hSlot, hKey⟩ := List.mem_map.mp hKeys
  exact hNew slot hSlot hKey

/-- What a call does is what a map of bounded size does. -/
theorem Acquires.simulates {answer : Answer Nat} (h : Ok count s) (hStep : Acquires s key answer s')
    (hCount : 0 < count) :
    h.cache.acquire s.noTimeout hCount (Flow.fresh key s.nextFlowId) key =
      (answer.map s'.mem, (hStep.ok h).cache) := by
  have hLength := h.length
  have hEntries : h.cache.entries.length = s.tos.length := List.length_map _
  have hNodup := List.nodup_append'.mp h.slots_nodup
  cases hStep with
  | known slot hMem hKey =>
      have hEntry : (s.keyOf slot, s.mem slot) ∈ h.cache.entries := List.mem_map_of_mem hMem
      rw [Cache.acquire_known hEntry hKey]
      refine Prod.ext rfl (Cache.ext ?_)
      have hOthers : h.cache.entries.filter (fun e => e.1 ≠ s.keyOf slot) =
          (s.tos.erase slot).map fun slot' => (s.keyOf slot', s.mem slot') := by
        rw [← h.filter_keyOf hMem]
        exact List.filter_map
      change h.cache.entries.filter (fun e => e.1 ≠ s.keyOf slot) ++ [_] =
        (s.tos.erase slot ++ [slot]).map _
      rw [hOthers, List.map_append]
      rfl
  | made slot free flows hNew hFree hFlows =>
      have hApart : slot ∉ s.tos := fun hMem => hNodup.2.2 hMem (hFree ▸ List.mem_cons_self)
      have hRoom : h.cache.entries.length < count := by
        rw [hFree, List.length_cons] at hLength
        omega
      rw [Cache.acquire_room (not_mem_keys h hNew) hRoom]
      refine Prod.ext ?_ (Cache.ext ?_)
      · simp [Answer.map]
      · exact (entries_made s.mem hApart).symm
  | recycled slot tos flows hNew hFull hTimeout hTos hFlows =>
      have hFullCache : ¬ h.cache.entries.length < count := by
        rw [hFull, List.length_nil] at hLength
        omega
      rw [Cache.acquire_full (not_mem_keys h hNew) hFullCache hTimeout]
      refine Prod.ext ?_ (Cache.ext ?_)
      · simp [Answer.map]
      · have hApart : slot ∉ tos := by
          have hTosNodup := hNodup.1
          rw [hTos] at hTosNodup
          exact (List.nodup_cons.mp hTosNodup).1
        have hTail : h.cache.entries.tail = tos.map fun slot' => (s.keyOf slot', s.mem slot') := by
          simp only [Ok.cache, Tracks.entries, hTos, List.map_cons, List.tail_cons]
        change h.cache.entries.tail ++ [_] = _
        rw [hTail]
        exact (entries_made s.mem hApart).symm
  | refused hNew hFull hTimeout =>
      have hFullCache : ¬ h.cache.entries.length < count := by
        rw [hFull, List.length_nil] at hLength
        omega
      rw [Cache.acquire_refused (not_mem_keys h hNew) hFullCache hTimeout]
      rfl

end Peak.Track
