import Peak.Track.Recency

/-! Sequences of calls of the tracker. Between the calls a caller may change the
`li` of flows that it got. -/
namespace Peak.Track

open Lru

variable {count start : Nat} {s s' : Tracks} {keep : Bool}

/-- What happens to a tracker. -/
inductive Event where
  | acquire (ref : Option Ref)
  | setLi (key : Ref) (li : Nat × Nat)

/-- The caller writes to a flow that is tracked. -/
def Tracks.setLi (s : Tracks) (key : Ref) (li : Nat × Nat) : Tracks :=
  match s.rbFind key with
  | none => s
  | some slot => { s with mem := Function.update s.mem slot { s.mem slot with li := li } }

/-- One event, with the flow that a call returned. A call that stops the process
has no result. -/
def step (s : Tracks) : Event → Option (Option Nat × Tracks)
  | .acquire ref =>
      match trackAcquire s ref with
      | .ret flow s => some (flow, s)
      | .panic _ => none
      | .fault => none
  | .setLi key li => some (none, s.setLi key li)

/-- Events one after another, with the slots of the flows that were returned and
what they held at that time. -/
def run (s : Tracks) : List Event → Option (List (Option (Nat × Flow)) × Tracks)
  | [] => some ([], s)
  | event :: events =>
      match step s event with
      | none => none
      | some (ret, s) =>
          (run s events).map fun (rets, s') => (ret.map (fun slot => (slot, s.mem slot)) :: rets, s')

/-- A map of bounded size with the numbers of the flows that were made. -/
structure Model (count : Nat) where
  cache : Cache Ref Flow count
  ids : List Nat

/-- The number for the next flow. The first one of all flows gets `start`. -/
def Model.nextId (start : Nat) (m : Model count) : Nat := (start + m.ids.length) % 2 ^ 64

/-- What an event does to the map. -/
def Model.step (keep : Bool) (hCount : 0 < count) (start : Nat) (m : Model count) :
    Event → Option Flow × Model count
  | .acquire none => (none, m)
  | .acquire (some key) =>
      match m.cache.acquire keep hCount (Flow.fresh key (m.nextId start)) key with
      | (.known flow, cache) => (some flow, ⟨cache, m.ids⟩)
      | (.made flow, cache) => (some flow, ⟨cache, m.ids ++ [m.nextId start]⟩)
      | (.refused, cache) => (none, ⟨cache, m.ids⟩)
  | .setLi key li => (none, ⟨m.cache.modify key fun flow => { flow with li := li }, m.ids⟩)

/-- Events one after another. -/
def Model.run (keep : Bool) (hCount : 0 < count) (start : Nat) (m : Model count) :
    List Event → List (Option Flow) × Model count
  | [] => ([], m)
  | event :: events =>
      let (ret, m) := m.step keep hCount start event
      let (rets, m) := m.run keep hCount start events
      (ret :: rets, m)

/-- Writing to a flow changes neither the lists nor the keys. -/
theorem setLi_cases (s : Tracks) (key : Ref) (li : Nat × Nat) :
    (s.setLi key li = s ∧ ∀ slot ∈ s.flows, s.keyOf slot ≠ key) ∨
      ∃ slot, slot ∈ s.flows ∧ s.keyOf slot = key ∧
        s.setLi key li = { s with mem := Function.update s.mem slot { s.mem slot with li := li } } := by
  cases hFind : s.rbFind key with
  | none => exact .inl ⟨by simp only [Tracks.setLi, hFind], rbFind_eq_none_iff.mp hFind⟩
  | some slot =>
      obtain ⟨hMem, hKey⟩ := mem_of_rbFind hFind
      exact .inr ⟨slot, hMem, hKey, by simp only [Tracks.setLi, hFind]⟩

theorem setLi_keyOf (s : Tracks) (key : Ref) (li : Nat × Nat) :
    (s.setLi key li).keyOf = s.keyOf := by
  rcases setLi_cases s key li with ⟨hSame, _⟩ | ⟨slot, _, _, hSet⟩
  · rw [hSame]
  · rw [hSet]
    funext slot'
    by_cases hEq : slot' = slot
    · subst hEq
      simp [Tracks.keyOf]
    · simp [Tracks.keyOf, hEq]

theorem setLi_lists (s : Tracks) (key : Ref) (li : Nat × Nat) :
    (s.setLi key li).flows = s.flows ∧ (s.setLi key li).tos = s.tos ∧
      (s.setLi key li).pool = s.pool ∧ (s.setLi key li).noTimeout = s.noTimeout ∧
      (s.setLi key li).nextFlowId = s.nextFlowId := by
  rcases setLi_cases s key li with ⟨hSame, _⟩ | ⟨slot, _, _, hSet⟩
  · rw [hSame]
    exact ⟨rfl, rfl, rfl, rfl, rfl⟩
  · rw [hSet]
    exact ⟨rfl, rfl, rfl, rfl, rfl⟩

theorem Ok.setLi (h : Ok count s) (key : Ref) (li : Nat × Nat) : Ok count (s.setLi key li) := by
  obtain ⟨hFlows, hTos, hPool, _⟩ := setLi_lists s key li
  refine ⟨h.size, ?_, ?_, ?_, ?_⟩
  · rw [hFlows, hTos]
    exact h.tree
  · rw [hTos, setLi_keyOf]
    exact h.keys
  · rw [hTos, hPool]
    exact h.slots
  · rw [hTos, hPool]
    exact h.used

/-- In the map the value of the key changes. -/
theorem Ok.cache_setLi (h : Ok count s) (key : Ref) (li : Nat × Nat) :
    (h.setLi key li).cache = h.cache.modify key fun flow => { flow with li := li } := by
  refine Cache.ext ?_
  change (s.setLi key li).tos.map _ = (s.tos.map _).map _
  rw [(setLi_lists s key li).2.1, List.map_map]
  refine List.map_congr_left fun slot hMem => ?_
  simp only [Function.comp_apply, setLi_keyOf]
  rcases setLi_cases s key li with ⟨hSame, hNone⟩ | ⟨slot', hMem', hKey, hSet⟩
  · rw [if_neg (hNone slot (h.tree.symm.subset hMem)), hSame]
  · rw [hSet]
    by_cases hEq : slot = slot'
    · subst hEq
      simp [hKey]
    · have hOther : s.keyOf slot ≠ key := fun hSame =>
        hEq (List.inj_on_of_nodup_map h.keys hMem (h.tree.subset hMem') (hSame.trans hKey.symm))
      simp [hOther, hEq]

/-- The tracker is in step with a map: they hold the same flows in the same
order, and agree on the next number. -/
structure Simulates (keep : Bool) (start : Nat) (s : Tracks) (m : Model count) : Prop where
  ok : Ok count s
  cache : m.cache = ok.cache
  noTimeout : s.noTimeout = keep
  nextFlowId : s.nextFlowId = m.nextId start

/-- The number after the next one. -/
theorem Model.nextId_snoc (start : Nat) (m : Model count) (cache : Cache Ref Flow count) :
    (⟨cache, m.ids ++ [m.nextId start]⟩ : Model count).nextId start = (m.nextId start + 1) % 2 ^ 64 := by
  simp only [Model.nextId, List.length_append, List.length_singleton, ← Nat.add_assoc]
  rw [Nat.mod_add_mod]

/-- A call for a key keeps them in step, whatever its answer was. -/
theorem Simulates.acquires {m : Model count} {key : Ref} {answer : Answer Nat}
    (h : Simulates keep start s m) (hCount : 0 < count) (hAcquires : Acquires s key answer s') :
    answer.value.map s'.mem = (m.step keep hCount start (.acquire (some key))).1 ∧
      Simulates keep start s' (m.step keep hCount start (.acquire (some key))).2 ∧
      (m.step keep hCount start (.acquire (some key))).2.ids.length =
        m.ids.length + answer.isMade.toNat := by
  obtain ⟨hOk, hCache, rfl, hNext⟩ := h
  have hModel : m.cache.acquire s.noTimeout hCount (Flow.fresh key (m.nextId start)) key =
      (answer.map s'.mem, (hAcquires.ok hOk).cache) := by
    rw [hCache, ← hNext]
    exact hAcquires.simulates hOk hCount
  have hOk' := hAcquires.ok hOk
  simp only [Model.step, hModel]
  cases hAcquires with
  | known slot hMem hKey => exact ⟨rfl, ⟨hOk', rfl, rfl, hNext⟩, rfl⟩
  | made =>
      refine ⟨rfl, ⟨hOk', rfl, rfl, ?_⟩, List.length_append⟩
      exact (congrArg (fun id => (id + 1) % 2 ^ 64) hNext).trans
        (Model.nextId_snoc start m _).symm
  | recycled =>
      refine ⟨rfl, ⟨hOk', rfl, rfl, ?_⟩, List.length_append⟩
      exact (congrArg (fun id => (id + 1) % 2 ^ 64) hNext).trans
        (Model.nextId_snoc start m _).symm
  | refused => exact ⟨rfl, ⟨hOk', rfl, rfl, hNext⟩, rfl⟩

/-- So does a write to a flow. -/
theorem Simulates.setLi {m : Model count} (h : Simulates keep start s m) (hCount : 0 < count) (key : Ref)
    (li : Nat × Nat) : Simulates keep start (s.setLi key li) (m.step keep hCount start (.setLi key li)).2 := by
  obtain ⟨hOk, hCache, rfl, hNext⟩ := h
  obtain ⟨_, _, _, hTimeout', hNext'⟩ := setLi_lists s key li
  have hCache' : m.cache.modify key (fun flow => { flow with li := li }) =
      (hOk.setLi key li).cache := by
    rw [hCache, hOk.cache_setLi]
  exact ⟨hOk.setLi key li, hCache', hTimeout', hNext'.trans hNext⟩

/-- One event keeps them in step, and both return the same. -/
theorem Simulates.step {m : Model count} (h : Simulates keep start s m) (hCount : 0 < count)
    (event : Event) :
    ∃ ret s', Track.step s event = some (ret, s') ∧
      ret.map s'.mem = (m.step keep hCount start event).1 ∧
      Simulates keep start s' (m.step keep hCount start event).2 := by
  cases event with
  | setLi key li => exact ⟨none, s.setLi key li, rfl, rfl, h.setLi hCount key li⟩
  | acquire ref =>
      cases ref with
      | none => exact ⟨none, s, rfl, rfl, h⟩
      | some key =>
          obtain ⟨answer, s', hReturn, hAcquires⟩ := h.ok.acquire_returns hCount key
          have hStep : Track.step s (.acquire (some key)) = some (answer.value, s') := by
            simp only [Track.step, hReturn]
          obtain ⟨hRet, hSimulates, _⟩ := h.acquires hCount hAcquires
          exact ⟨answer.value, s', hStep, hRet, hSimulates⟩

/-- A run keeps them in step, and both return the same. -/
theorem Simulates.run {m : Model count} (h : Simulates keep start s m) (hCount : 0 < count)
    (events : List Event) :
    ∃ rets s', Track.run s events = some (rets, s') ∧
      rets.map (Option.map Prod.snd) = (m.run keep hCount start events).1 ∧
      Simulates keep start s' (m.run keep hCount start events).2 := by
  induction events generalizing s m with
  | nil => exact ⟨[], s, rfl, rfl, h⟩
  | cons event events ih =>
      obtain ⟨ret, s₁, hStep, hRet, hNext⟩ := h.step hCount event
      obtain ⟨rets, s₂, hRun, hRets, hLast⟩ := ih hNext
      refine ⟨ret.map (fun slot => (slot, s₁.mem slot)) :: rets, s₂, ?_, ?_, hLast⟩
      · rw [Track.run, hStep]
        simp only [hRun, Option.map_some]
      · have hModel : (m.run keep hCount start (event :: events)).1 =
            (m.step keep hCount start event).1 ::
              ((m.step keep hCount start event).2.run keep hCount start events).1 := rfl
        rw [List.map_cons, hRets, hModel, ← hRet, Option.map_map]
        rfl

/-- The numbers are given out in order. -/
def Numbered (start : Nat) (ids : List Nat) : Prop :=
  ids = (List.range ids.length).map fun k => (start + k) % 2 ^ 64

theorem Numbered.snoc {ids : List Nat} (h : Numbered start ids) :
    Numbered start (ids ++ [(start + ids.length) % 2 ^ 64]) := by
  rw [Numbered, List.length_append, List.length_singleton, List.range_succ, List.map_append, ← h]
  rfl

theorem Model.step_numbered {m : Model count} (h : Numbered start m.ids) (hCount : 0 < count)
    (event : Event) : Numbered start (m.step keep hCount start event).2.ids := by
  cases event with
  | setLi key li => exact h
  | acquire ref =>
      cases ref with
      | none => exact h
      | some key =>
          simp only [Model.step]
          split
          · exact h
          · exact h.snoc
          · exact h

theorem Model.run_numbered {m : Model count} (h : Numbered start m.ids) (hCount : 0 < count)
    (events : List Event) : Numbered start (m.run keep hCount start events).2.ids := by
  induction events generalizing m with
  | nil => exact h
  | cons event events ih => exact ih (Model.step_numbered h hCount event)

/-- Numbers that do not wrap are not used twice. -/
theorem Numbered.increasing {ids : List Nat} (h : Numbered start ids)
    (hWrap : start + ids.length ≤ 2 ^ 64) :
    ids.Pairwise (· < ·) ∧ ∀ id ∈ ids, start ≤ id := by
  have hPlain : ids = (List.range ids.length).map fun k => start + k := by
    refine h.trans (List.map_congr_left fun k hMem => Nat.mod_eq_of_lt ?_)
    have hWithin := List.mem_range.mp hMem
    omega
  rw [hPlain]
  constructor
  · refine List.pairwise_map.mpr (List.pairwise_lt_range.imp fun hLt => ?_)
    exact Nat.add_lt_add_left hLt start
  · intro id hMem
    obtain ⟨k, _, rfl⟩ := List.mem_map.mp hMem
    exact Nat.le_add_right start k

/-- A tracker without flows, as `peak_track_init` leaves it. -/
theorem Simulates.init {callocOk malignOk noTimeout : Bool} {mem : Nat → Flow}
    (hInit : trackInit callocOk malignOk mem start count noTimeout = some s) (hSize : count < 2 ^ 64)
    (hStart : start < 2 ^ 64) :
    Simulates noTimeout start s (⟨.empty, []⟩ : Model count) := by
  rw [trackInit_eq hInit]
  exact ⟨.init mem noTimeout start hSize, rfl, rfl, (Nat.mod_eq_of_lt hStart).symm⟩

/-- Whatever happened before, a call for a flow that is tracked returns the very
flow and leaves it as it is, and no call moves or changes another flow. -/
structure KeepsFlows (s : Tracks) : Prop where
  known (slot : Nat) (hMem : slot ∈ s.tos) : ∃ s', trackAcquire s (some (s.keyOf slot)) = .ret (some slot) s' ∧
    s'.mem = s.mem
  others (key : Ref) (ret : Option Nat) (s' : Tracks) (hReturn : trackAcquire s (some key) = .ret ret s')
    (slot : Nat) (hMem : slot ∈ s'.tos) (hOther : some slot ≠ ret) : slot ∈ s.tos ∧ s'.mem slot = s.mem slot

/-- A slot of the queue after a call is the one that was returned or as it was. -/
theorem Acquires.others {key : Ref} {answer : Answer Nat} {slot : Nat} (h : Acquires s key answer s')
    (hMem : slot ∈ s'.tos) (hOther : some slot ≠ answer.value) :
    slot ∈ s.tos ∧ s'.mem slot = s.mem slot := by
  cases h with
  | known slot' hFound hKey =>
      rcases List.mem_append.mp hMem with hMem | hMem
      · exact ⟨List.mem_of_mem_erase hMem, rfl⟩
      · exact absurd (congrArg some (List.mem_singleton.mp hMem)) hOther
  | made slot' free flows hNew hFree hFlows =>
      rcases List.mem_append.mp hMem with hMem | hMem
      · have hNe : slot ≠ slot' := fun hEq => hOther (congrArg some hEq)
        exact ⟨hMem, Function.update_of_ne hNe _ _⟩
      · exact absurd (congrArg some (List.mem_singleton.mp hMem)) hOther
  | recycled slot' tos flows hNew hFull hTimeout hTos hFlows =>
      rcases List.mem_append.mp hMem with hMem | hMem
      · have hNe : slot ≠ slot' := fun hEq => hOther (congrArg some hEq)
        rw [hTos]
        exact ⟨List.mem_cons_of_mem _ hMem, Function.update_of_ne hNe _ _⟩
      · exact absurd (congrArg some (List.mem_singleton.mp hMem)) hOther
  | refused => exact ⟨hMem, rfl⟩

theorem Ok.keepsFlows (h : Ok count s) (hCount : 0 < count) : KeepsFlows s := by
  constructor
  · intro slot hMem
    have hFind : s.rbFind (s.keyOf slot) = some slot := by
      cases hFind : s.rbFind (s.keyOf slot) with
      | none => exact absurd rfl (rbFind_eq_none_iff.mp hFind slot (h.tree.symm.subset hMem))
      | some slot' =>
          obtain ⟨hMem', hKey⟩ := mem_of_rbFind hFind
          exact congrArg some (List.inj_on_of_nodup_map h.keys (h.tree.subset hMem') hMem hKey)
    refine ⟨{ s with tos := s.tos.erase slot ++ [slot] }, ?_, rfl⟩
    simp only [trackAcquire, hFind]
  · intro key ret s' hReturn slot hMem hOther
    obtain ⟨answer, s'', hReturn', hAcquires⟩ := h.acquire_returns hCount key
    rw [hReturn'] at hReturn
    cases hReturn
    exact hAcquires.others hMem hOther

/-- The tracker is a map of bounded size that drops the flow that was used least
recently: no sequence of calls stops the process, the calls return what the map
returns, and afterwards the tracker holds what the map holds. As long as no more
than 2^64 flows were made in all, no number was used twice. -/
theorem track_lru {callocOk malignOk noTimeout : Bool} {mem : Nat → Flow} (hCount : 0 < count)
    (hSize : count < 2 ^ 64) (hStart : start < 2 ^ 64)
    (hInit : trackInit callocOk malignOk mem start count noTimeout = some s) (events : List Event) :
    ∃ rets s' m, run s events = some (rets, s') ∧
      Model.run noTimeout hCount start ⟨.empty, []⟩ events = (rets.map (Option.map Prod.snd), m) ∧
      m.cache.entries = s'.entries ∧ s'.flows.Perm s'.tos ∧ s'.pool.used = s'.tos.length ∧
      KeepsFlows s' ∧
      (start + m.ids.length ≤ 2 ^ 64 → m.ids.Pairwise (· < ·) ∧ ∀ id ∈ m.ids, start ≤ id) := by
  obtain ⟨rets, s', hRun, hRets, hLast⟩ := (Simulates.init hInit hSize hStart).run hCount events
  have hNumbered : Numbered start (Model.run noTimeout hCount start ⟨.empty, []⟩ events).2.ids :=
    Model.run_numbered (m := ⟨.empty, []⟩) rfl hCount events
  refine ⟨rets, s', _, hRun, Prod.ext hRets.symm rfl, ?_, hLast.ok.tree, hLast.ok.used,
    hLast.ok.keepsFlows hCount, hNumbered.increasing⟩
  exact congrArg Cache.entries hLast.cache

/-- Keys that differ in one byte. -/
def typeKey (type : UInt8) : Ref :=
  ⟨{ Ref.zeroed.1 with type := type.toNat },
    ⟨rfl, rfl, (by decide : 0 < 256 ^ 2), (by decide : 0 < 256 ^ 2), UInt8.toNat_lt type⟩⟩

/-- Two keys and a write to the first flow, which is used again before a third key
comes; then the first two keys once more. -/
def threeKeys : List Event :=
  [.acquire (some (typeKey 0)), .acquire (some (typeKey 1)), .setLi (typeKey 0) (7, 0),
    .acquire (some (typeKey 0)), .acquire (some (typeKey 2)), .acquire (some (typeKey 0)),
    .acquire (some (typeKey 1))]

/-- In a tracker of two flows the third key takes the place of the second one, whose
flow is a new one when it comes again. -/
theorem twoFlows_lru :
    ∃ s rets s' m, trackInit true true (fun _ => Flow.zeroed) 0 2 false = some s ∧
      run s threeKeys = some (rets, s') ∧
      Model.run false (show 0 < 2 by decide) 0 ⟨.empty, []⟩ threeKeys = (rets.map (Option.map Prod.snd), m) ∧
      rets.map (Option.map fun r => (r.2.id, r.2.li)) =
        [some (0, (0, 0)), some (1, (0, 0)), none, some (0, (7, 0)), some (2, (0, 0)), some (0, (7, 0)),
          some (3, (0, 0))] := by
  obtain ⟨s, hInit⟩ : ∃ s, trackInit true true (fun _ => Flow.zeroed) 0 2 false = some s := ⟨_, rfl⟩
  obtain ⟨rets, s', m, hRun, hModel, _⟩ := track_lru (show 0 < 2 by decide) (by decide) (by decide) hInit threeKeys
  have hIds : ((trackInit true true (fun _ => Flow.zeroed) 0 2 false).bind fun s => run s threeKeys).map
      (fun r => r.1.map (Option.map fun r => (r.2.id, r.2.li))) =
        some [some (0, (0, 0)), some (1, (0, 0)), none, some (0, (7, 0)), some (2, (0, 0)), some (0, (7, 0)),
          some (3, (0, 0))] := by
    decide +kernel
  rw [hInit, Option.bind_some, hRun, Option.map_some] at hIds
  exact ⟨s, rets, s', m, hInit, hRun, hModel, Option.some.inj hIds⟩

/-- Two keys in turn. -/
def turnKey (k : Nat) : Ref :=
  if k % 2 = 0 then Ref.zeroed
  else ⟨{ Ref.zeroed.1 with type := 1 }, ⟨rfl, rfl, by decide, by decide, by decide⟩⟩

theorem turnKey_ne (k : Nat) : turnKey k ≠ turnKey (k + 1) := by
  have hTypes : Ref.zeroed ≠ turnKey 1 := by decide
  by_cases hEven : k % 2 = 0
  · have hKey : turnKey k = Ref.zeroed := if_pos hEven
    have hKey' : turnKey (k + 1) = turnKey 1 := by simp only [turnKey, show (k + 1) % 2 = 1 by omega]
    rw [hKey, hKey']
    exact hTypes
  · have hKey : turnKey k = turnKey 1 := by simp only [turnKey, show k % 2 = 1 by omega]
    have hKey' : turnKey (k + 1) = Ref.zeroed := if_pos (by omega)
    rw [hKey, hKey']
    exact hTypes.symm

/-- Calls for two keys in turn. -/
def turns (k : Nat) : Nat → List Event
  | 0 => []
  | n + 1 => .acquire (some (turnKey k)) :: turns (k + 1) n

/-- A tracker for one flow that is about to be asked for another one. -/
structure Busy (k : Nat) (s : Tracks) : Prop where
  ok : Ok 1 s
  noTimeout : s.noTimeout = false
  nextFlowId : s.nextFlowId = k % 2 ^ 64
  other (slot : Nat) (hMem : slot ∈ s.tos) : s.keyOf slot ≠ turnKey k

/-- A flow that was made is at the end of the queue. -/
theorem Acquires.made_flow {key : Ref} {slot : Nat} (h : Acquires s key (.made slot) s') :
    s'.mem slot = Flow.fresh key s.nextFlowId ∧ s'.nextFlowId = (s.nextFlowId + 1) % 2 ^ 64 ∧
      s'.noTimeout = s.noTimeout ∧ ∃ rest, s'.tos = rest ++ [slot] := by
  cases h with
  | made => exact ⟨Function.update_self _ _ _, rfl, rfl, _, rfl⟩
  | recycled => exact ⟨Function.update_self _ _ _, rfl, rfl, _, rfl⟩

/-- Every call makes a flow, and the next call is for the other key. -/
theorem Busy.step {k : Nat} (h : Busy k s) :
    ∃ slot s', Track.step s (.acquire (some (turnKey k))) = some (some slot, s') ∧
      s'.mem slot = Flow.fresh (turnKey k) (k % 2 ^ 64) ∧ Busy (k + 1) s' := by
  obtain ⟨answer, s', hReturn, hAcquires⟩ := h.ok.acquire_returns Nat.one_pos (turnKey k)
  have hStep : Track.step s (.acquire (some (turnKey k))) = some (answer.value, s') := by
    simp only [Track.step, hReturn]
  have hOk := hAcquires.ok h.ok
  cases answer with
  | known slot =>
      cases hAcquires with
      | known _ hMem hKey => exact absurd hKey (h.other slot hMem)
  | refused =>
      cases hAcquires with
      | refused _ _ hTimeout =>
          rw [h.noTimeout] at hTimeout
          cases hTimeout
  | made slot =>
      obtain ⟨hFlow, hNext, hTimeout, rest, hTos⟩ := hAcquires.made_flow
      have hNextId : (s.nextFlowId + 1) % 2 ^ 64 = (k + 1) % 2 ^ 64 := by
        rw [h.nextFlowId, Nat.mod_add_mod]
      rw [h.nextFlowId] at hFlow
      refine ⟨slot, s', hStep, hFlow, hOk, hTimeout.trans h.noTimeout, hNext.trans hNextId, ?_⟩
      -- the queue has room for one flow only
      intro slot' hMem
      have hLength := hOk.length
      rw [hTos, List.length_append, List.length_singleton] at hLength
      obtain rfl := List.length_eq_zero_iff.mp (show rest.length = 0 by omega)
      rw [hTos] at hMem
      rw [List.mem_singleton.mp hMem, Tracks.keyOf, hFlow]
      exact turnKey_ne k

/-- The flows that the calls return. -/
theorem Busy.run {k : Nat} (h : Busy k s) (n : Nat) :
    ∃ rets s', Track.run s (turns k n) = some (rets, s') ∧
      rets.map (Option.map Prod.snd) =
        (List.range n).map fun j => some (Flow.fresh (turnKey (k + j)) ((k + j) % 2 ^ 64)) := by
  induction n generalizing k s with
  | zero => exact ⟨[], s, rfl, rfl⟩
  | succ n ih =>
      obtain ⟨slot, s₁, hStep, hFlow, hNext⟩ := h.step
      obtain ⟨rets, s₂, hRun, hRets⟩ := ih hNext
      refine ⟨some (slot, s₁.mem slot) :: rets, s₂, ?_, ?_⟩
      · simp only [turns, Track.run, hStep, hRun, Option.map_some]
      · rw [List.range_succ_eq_map, List.map_cons, List.map_cons, hRets, Option.map_some, hFlow,
          List.map_map]
        refine congrArg _ (List.map_congr_left fun j _ => ?_)
        simp only [Function.comp_apply, Nat.succ_eq_add_one, Nat.add_assoc, Nat.add_comm 1 j]

/-- A tracker for one flow gives the number of its first flow to a new flow
again after 2^64 flows. -/
theorem turns_repeat_id :
    ∃ s rets s', trackInit true true (fun _ => Flow.zeroed) 0 1 false = some s ∧
      run s (turns 0 (2 ^ 64 + 1)) = some (rets, s') ∧
      (rets.map (Option.map Prod.snd))[0]? = some (some (Flow.fresh (turnKey 0) 0)) ∧
      (rets.map (Option.map Prod.snd))[2 ^ 64]? = some (some (Flow.fresh (turnKey (2 ^ 64)) 0)) := by
  obtain ⟨s, hInit⟩ : ∃ s, trackInit true true (fun _ => Flow.zeroed) 0 1 false = some s := ⟨_, rfl⟩
  have hOk := Simulates.init hInit (by decide) (by decide)
  have hBusy : Busy 0 s := by
    cases hInit
    exact ⟨hOk.ok, rfl, rfl, fun slot hMem => absurd hMem List.not_mem_nil⟩
  obtain ⟨rets, s', hRun, hRets⟩ := hBusy.run (2 ^ 64 + 1)
  refine ⟨s, rets, s', hInit, hRun, ?_, ?_⟩
  · rw [hRets, List.getElem?_map, List.getElem?_range (by omega)]
    rfl
  · rw [hRets, List.getElem?_map, List.getElem?_range (by omega), Option.map_some, Nat.zero_add,
      Nat.mod_self]

end Peak.Track
