import Peak.Track.Refinement
import Peak.Track.Runs

/-! Sequences of calls of the tracker in memory, from `peak_track_init` to
`peak_track_exit`. -/
namespace Peak

namespace Audit

variable {field m n : Nat}

theorem only_ofNat_add (field m n : Nat) :
    only field (BitVec.ofNat 64 (m + n)) = only field (BitVec.ofNat 64 m) + only field (BitVec.ofNat 64 n) := by
  funext f
  rw [Pi.add_apply, only, only, only, BitVec.ofNat_add]
  split_ifs
  · rfl
  · exact (add_zero 0).symm

/-- Counters after so many flows were added and recycled, and so many calls
failed. -/
def tracked (self : Audit) (added recycled failed : Nat) : Audit :=
  self + only auditTrackAdded (BitVec.ofNat 64 added) + only auditTrackRecycled (BitVec.ofNat 64 recycled) +
    only auditTrackFailed (BitVec.ofNat 64 failed)

variable {self : Audit} {added recycled failed : Nat}

theorem tracked_zero : self.tracked 0 0 0 = self := by
  have hZero : ∀ field, only field (BitVec.ofNat 64 0) = 0 := by
    intro field
    funext f
    exact ite_self _
  rw [tracked, hZero, hZero, hZero, add_zero, add_zero, add_zero]

theorem inc_added : (self.tracked added recycled failed).inc auditTrackAdded =
    self.tracked (added + 1) recycled failed := by
  rw [inc_eq, tracked, tracked, only_ofNat_add, ← add_assoc self, add_right_comm, add_right_comm _ _ (only _ 1)]
  rfl

theorem inc_recycled : (self.tracked added recycled failed).inc auditTrackRecycled =
    self.tracked added (recycled + 1) failed := by
  rw [inc_eq, tracked, tracked, only_ofNat_add _ recycled, ← add_assoc, add_right_comm]
  rfl

theorem inc_failed : (self.tracked added recycled failed).inc auditTrackFailed =
    self.tracked added recycled (failed + 1) := by
  rw [inc_eq, tracked, tracked, only_ofNat_add _ failed, ← add_assoc]
  rfl

end Audit

namespace Track

open RedBlack Prealloc Lru

namespace Memory

/-- The caller writes to a flow that is tracked. -/
def setLi (rounds : Nat) (self : Memory) (key : Ref) (li : Nat × Nat) : Option Memory :=
  (self.tree.find chunkCmp rounds (Chunk.ofKey key)).map fun
    | none => self
    | some flow => self.onData flow fun c => { c with li := li }

/-- One event, with the flow that a call returned. A call that stops the process
or follows a missing link has no result. -/
def step (rounds : Nat) (self : Memory) : Event → Option (Option Nat × Memory)
  | .acquire ref =>
      match self.acquire rounds ref with
      | .ret flow self => some (flow, self)
      | .panic _ => none
      | .fault => none
  | .setLi key li => (self.setLi rounds key li).map fun self => (none, self)

/-- The flow at an address. -/
def flowAt (self : Memory) (a : Nat) : Flow := (self.tree.cells a).data.flow

/-- Events one after another, with the addresses of the flows that were returned
and what they held at that time. -/
def run (rounds : Nat) (self : Memory) : List Event → Option (List (Option (Nat × Flow)) × Memory)
  | [] => some ([], self)
  | event :: events =>
      match self.step rounds event with
      | none => none
      | some (ret, self) =>
          (run rounds self events).map fun (rets, self') =>
            (ret.map (fun flow => (flow, self.flowAt flow)) :: rets, self')

end Memory

/-- A call for a key that returned no flow. -/
def Event.failed {α : Type} : Event → Option α → Bool
  | .acquire (some _), none => true
  | _, _ => false

variable {count rounds e start : Nat} {m m' : Memory} {s s' : Tracks} {t : RedBlack.Tree Nat} {key : Ref}
variable {keep : Bool} {map : Model count} {before : Audit} {failed recycled : Nat}

/-- A write to a flow shows as one. -/
theorem Shows.setLi (h : Shows count e m s t) (hOk : Ok count s) (hRounds : Store.enough count ≤ rounds)
    (key : Ref) (li : Nat × Nat) :
    ∃ m', m.setLi rounds key li = some m' ∧ Shows count e m' (s.setLi key li) t ∧ m'.audit = m.audit := by
  obtain ⟨found, hFind, hSome, hNone⟩ := h.tree.find (h.enough hOk.few hRounds) (Chunk.ofKey key)
  rw [Memory.setLi, hFind]
  rcases setLi_cases s key li with ⟨hSame, hNew⟩ | ⟨slot, hSlot, hKey, hSet⟩
  · cases found with
    | none =>
        rw [hSame]
        exact ⟨m, rfl, h, rfl⟩
    | some a =>
        obtain ⟨hMem, hEq⟩ := hSome a rfl
        obtain ⟨slot, hSlot, rfl⟩ := List.mem_map.mp (h.flows.mem_iff.mp hMem)
        exact absurd ((h.keyOf_eq slot).trans (Ref.trackCmp_eq_iff.mp hEq).symm) (hNew slot hSlot)
  · have hEqual : ∀ slot' ∈ s.flows, chunkCmp (Chunk.ofKey key) (m.tree.cells (place e slot')).data = .eq →
        slot' = slot := by
      intro slot' hSlot' hEq
      have hKey' : s.keyOf slot' = key := (h.keyOf_eq slot').trans (Ref.trackCmp_eq_iff.mp hEq).symm
      exact List.inj_on_of_nodup_map hOk.keys (hOk.tree.subset hSlot') (hOk.tree.subset hSlot)
        (hKey'.trans hKey.symm)
    cases found with
    | none =>
        apply absurd _ (hNone rfl _ (h.mem_tree.mpr hSlot))
        exact Ref.trackCmp_eq_iff.mpr (hKey.symm.trans (h.keyOf_eq slot))
    | some a =>
        obtain ⟨hMem, hEq⟩ := hSome a rfl
        obtain ⟨slot', hSlot', rfl⟩ := List.mem_map.mp (h.flows.mem_iff.mp hMem)
        obtain rfl := hEqual slot' hSlot' hEq
        refine ⟨_, rfl, ?_, rfl⟩
        rw [hSet]
        refine ⟨Memory.sets_onData h.tree fun _ => rfl, h.flows, Memory.queue_onData h.queue fun _ => ⟨rfl, rfl⟩,
          Memory.holds_onData h.pool fun _ => rfl, ?_, h.noTimeout, h.nextFlowId⟩
        intro slot
        rw [Memory.cells_onData]
        show Function.update s.mem slot' _ slot = _
        rw [Function.update_apply]
        by_cases hSame : slot = slot'
        · rw [if_pos hSame, hSame, if_pos rfl, h.mem]
          rfl
        · rw [if_neg hSame, if_neg fun hPlace => hSame (place_injective e hPlace), h.mem]

/-- The memory follows the map, and the counters follow the calls. -/
structure Follows (keep : Bool) (start e : Nat) (before : Audit) (failed : Nat) (m : Memory)
    (map : Model count) (s : Tracks) (t : RedBlack.Tree Nat) (recycled : Nat) : Prop where
  shows : Shows count e m s t
  simulates : Simulates keep start s map
  made : map.ids.length = recycled + s.tos.length
  audit : m.audit = before.tracked map.ids.length recycled failed

/-- A call for a key. -/
theorem Follows.acquire (h : Follows keep start e before failed m map s t recycled) (hCount : 0 < count)
    (hRounds : Store.enough count ≤ rounds) (key : Ref) :
    ∃ ret m' s' t' recycled', m.acquire rounds (some key) = .ret ret m' ∧
      ret.map m'.flowAt = (map.step keep hCount start (.acquire (some key))).1 ∧
      Follows keep start e before (failed + (Event.failed (.acquire (some key)) ret).toNat) m'
        (map.step keep hCount start (.acquire (some key))).2 s' t' recycled' := by
  obtain ⟨answer, m', s', t', hRun, hAcquires, hShows, hAudit⟩ := h.shows.acquire h.simulates.ok hCount hRounds key
  obtain ⟨hRet, hSimulates, hIds⟩ := h.simulates.acquires hCount hAcquires
  have hRet' : (answer.value.map (place e)).map m'.flowAt = answer.value.map s'.mem := by
    rw [Option.map_map]
    exact congrArg (Option.map · answer.value) (funext fun slot => (hShows.mem slot).symm)
  have hMade := h.made
  rw [h.audit] at hAudit
  -- what is left is the account of the call
  suffices ∃ recycled', map.ids.length + answer.isMade.toNat = recycled' + s'.tos.length ∧
      m'.audit = before.tracked (map.ids.length + answer.isMade.toNat) recycled'
        (failed + (Event.failed (.acquire (some key)) (answer.value.map (place e))).toNat) by
    obtain ⟨recycled', hLength, hCounted⟩ := this
    refine ⟨_, m', s', t', recycled', hRun, hRet'.trans hRet, hShows, hSimulates, ?_, ?_⟩
    · rw [hIds, hLength]
    · rw [hIds, hCounted]
  cases hAcquires with
  | known slot hMem hKey =>
      refine ⟨recycled, ?_, hAudit⟩
      rw [(List.perm_append_singleton slot _).trans (List.perm_cons_erase hMem).symm |>.length_eq]
      exact hMade
  | made slot free flows hNew hFree hFlows =>
      refine ⟨recycled, ?_, ?_⟩
      · rw [List.length_append, hMade]
        exact Nat.add_assoc ..
      · rw [hAudit, audited, if_neg (by rw [hFree]; exact List.cons_ne_nil slot free)]
        exact Audit.inc_added
  | recycled slot tos flows hNew hFull hTimeout hTos hFlows =>
      refine ⟨recycled + 1, ?_, ?_⟩
      · rw [List.length_append, hMade, hTos, List.length_cons]
        simp only [Answer.isMade, Bool.toNat_true, List.length_singleton]
        omega
      · rw [hAudit, audited, if_pos hFull, Audit.inc_recycled]
        exact Audit.inc_added
  | refused hNew hFull hTimeout => exact ⟨recycled, hMade, hAudit.trans Audit.inc_failed⟩

/-- One event. -/
theorem Follows.step (h : Follows keep start e before failed m map s t recycled) (hCount : 0 < count)
    (hRounds : Store.enough count ≤ rounds) (event : Event) :
    ∃ ret m' s' t' recycled', m.step rounds event = some (ret, m') ∧
      ret.map m'.flowAt = (map.step keep hCount start event).1 ∧
      Follows keep start e before (failed + (event.failed ret).toNat) m' (map.step keep hCount start event).2
        s' t' recycled' := by
  cases event with
  | setLi key li =>
      obtain ⟨m', hRun, hShows, hAudit⟩ := h.shows.setLi h.simulates.ok hRounds key li
      refine ⟨none, m', s.setLi key li, t, recycled, ?_, rfl, hShows, h.simulates.setLi hCount key li, ?_,
        hAudit.trans h.audit⟩
      · rw [Memory.step, hRun, Option.map_some]
      · rw [(setLi_lists s key li).2.1]
        exact h.made
  | acquire ref =>
      cases ref with
      | none => exact ⟨none, m, s, t, recycled, rfl, rfl, h⟩
      | some key =>
          obtain ⟨ret, m', s', t', recycled', hRun, hRet, hFollows⟩ := h.acquire hCount hRounds key
          refine ⟨ret, m', s', t', recycled', ?_, hRet, hFollows⟩
          rw [Memory.step, hRun]

/-- The calls for a key that returned no flow. -/
def failures {α : Type} (events : List Event) (rets : List (Option α)) : Nat :=
  (events.zip rets).countP fun call => call.1.failed call.2

/-- A run. -/
theorem Follows.run (h : Follows keep start e before failed m map s t recycled) (hCount : 0 < count)
    (hRounds : Store.enough count ≤ rounds) (events : List Event) :
    ∃ rets m' s' t' recycled', m.run rounds events = some (rets, m') ∧
      rets.map (Option.map Prod.snd) = (map.run keep hCount start events).1 ∧
      Follows keep start e before (failed + failures events rets) m' (map.run keep hCount start events).2
        s' t' recycled' := by
  induction events generalizing m map s t recycled failed with
  | nil => exact ⟨[], m, s, t, recycled, rfl, rfl, h⟩
  | cons event events ih =>
      obtain ⟨ret, m₁, s₁, t₁, recycled₁, hStep, hRet, hNext⟩ := h.step hCount hRounds event
      obtain ⟨rets, m₂, s₂, t₂, recycled₂, hRun, hRets, hLast⟩ := ih hNext
      refine ⟨ret.map (fun flow => (flow, m₁.flowAt flow)) :: rets, m₂, s₂, t₂, recycled₂, ?_, ?_, ?_⟩
      · rw [Memory.run, hStep]
        simp only [hRun, Option.map_some]
      · have hModel : (map.run keep hCount start (event :: events)).1 =
            (map.step keep hCount start event).1 ::
              ((map.step keep hCount start event).2.run keep hCount start events).1 := rfl
        rw [List.map_cons, hRets, hModel, ← hRet, Option.map_map]
        rfl
      · have hFailed : event.failed (ret.map fun flow => (flow, m₁.flowAt flow)) = event.failed ret := by
          cases event with
          | setLi key li => rfl
          | acquire ref => cases ref <;> cases ret <;> rfl
        have hCounted : failures (event :: events) (ret.map (fun flow => (flow, m₁.flowAt flow)) :: rets) =
            (event.failed ret).toNat + failures events rets := by
          rw [failures, List.zip_cons_cons, List.countP_cons, Nat.add_comm]
          dsimp only
          rw [hFailed, failures]
          cases event.failed ret <;> rfl
        rw [hCounted, ← Nat.add_assoc]
        exact hLast

/-- An empty tracker in memory, as `peak_track_init` leaves it. -/
theorem Follows.init {callocOk noTimeout : Bool} {granted : Option Nat} {cells : Nat → Cell Nat Chunk}
    {maxFlows : Nat} (hSize : maxFlows < 2 ^ 64) (hStart : start < 2 ^ 64)
    (h : Memory.init callocOk granted cells start before maxFlows noTimeout = some m) :
    ∃ s, granted = some m.pool.memStart ∧
      Follows noTimeout start m.pool.memStart before 0 m (⟨.empty, []⟩ : Model maxFlows) s .leaf 0 := by
  rw [Memory.init] at h
  cases callocOk with
  | false => cases h
  | true =>
      obtain ⟨⟨pool, cells'⟩, hInit, rfl⟩ := Option.map_eq_some_iff.mp h
      obtain ⟨hHolds, hGranted⟩ := init_holds hSize hInit
      let e := pool.memStart
      let mem : Nat → Flow := fun slot => (cells' (place e slot)).data.flow
      refine ⟨⟨mem, [], [], noTimeout, ⟨List.range maxFlows, 0⟩, start⟩, hGranted, ?_, ?_, rfl,
        Audit.tracked_zero.symm⟩
      · refine ⟨⟨⟨rfl, trivial, List.nodup_nil⟩, ⟨0, .leaf⟩, rfl, List.Pairwise.nil⟩, .refl _,
          TailQueue.init_queue Memory.tos_lawful _ _, hHolds, fun _ => rfl, rfl, rfl⟩
      · exact ⟨.init mem noTimeout start hSize, rfl, rfl, (Nat.mod_eq_of_lt hStart).symm⟩

/-- The tree is ordered, red-black and holds the flows of the queue, the queue has
the entries of the map in their order, and every other chunk is free. -/
structure Linked (e : Nat) (m : Memory) (map : Model count) (t : RedBlack.Tree Nat) (queue free : List Nat) : Prop where
  tree : m.tree.Sets chunkCmp t
  flows : t.toList.Perm queue
  order : Memory.tos.Queue (· ≠ ·) m none queue
  pool : Prealloc.Holds trackOverlay m.tree.cells m.pool (chunksFrom e trackSize count) queue free
  entries : map.cache.entries = queue.map fun a => ((m.flowAt a).key, m.flowAt a)

theorem Follows.linked (h : Follows keep start e before failed m map s t recycled) :
    Linked e m map t (s.tos.map (place e)) (s.pool.free.map (place e)) := by
  refine ⟨h.shows.tree, h.shows.flows.trans (h.simulates.ok.tree.map _), h.shows.queue, h.shows.pool, ?_⟩
  rw [h.simulates.cache, List.map_map]
  refine List.map_congr_left fun slot _ => ?_
  exact Prod.ext (h.shows.keyOf_eq slot) (h.shows.mem slot)

/-- The tracker in memory is a map of bounded size that drops the flow that was
used least recently. No run follows a missing link or stops the process, and no
loop over the tree takes more rounds than twice the logarithm of the number of
flows that there may be. The counters tell how many flows were made, how many of
them are gone and how many calls failed. -/
theorem linked_lru {callocOk noTimeout : Bool} {granted : Option Nat} {cells : Nat → Cell Nat Chunk}
    (hCount : 0 < count) (hSize : count < 2 ^ 64) (hStart : start < 2 ^ 64)
    (hInit : Memory.init callocOk granted cells start before count noTimeout = some m) (events : List Event) :
    ∃ rets m' map t queue free recycled, m.run (Store.enough count) events = some (rets, m') ∧
      Model.run noTimeout hCount start ⟨.empty, []⟩ events = (rets.map (Option.map Prod.snd), map) ∧
      Linked m.pool.memStart m' map t queue free ∧ map.ids.length = recycled + queue.length ∧
      m'.audit = before.tracked map.ids.length recycled (failures events rets) := by
  obtain ⟨s, _, hFollows⟩ := Follows.init hSize hStart hInit
  obtain ⟨rets, m', s', t', recycled, hRun, hRets, hLast⟩ := hFollows.run hCount (Nat.le_refl _) events
  refine ⟨rets, m', _, t', _, _, recycled, hRun, Prod.ext hRets.symm rfl, hLast.linked, ?_, ?_⟩
  · rw [List.length_map]
    exact hLast.made
  · rw [hLast.audit, Nat.zero_add]

/-- Memory for two flows at address 16. -/
theorem twoChunks_lru :
    ∃ m rets m' map t queue free recycled,
      Memory.init true (some 16) (fun _ => Memory.blank Ref.zeroed) 0 (fun _ => 0) 2 false = some m ∧
      m.run (Store.enough 2) [.acquire (some Ref.zeroed), .setLi Ref.zeroed (7, 0), .acquire (some (turnKey 1))] =
        some (rets, m') ∧
      Linked 16 m' (map : Model 2) t queue free ∧ map.ids.length = recycled + queue.length := by
  obtain ⟨m, hInit, hStart⟩ : ∃ m, Memory.init true (some 16) (fun _ => Memory.blank Ref.zeroed) 0 (fun _ => 0)
      2 false = some m ∧ m.pool.memStart = 16 := ⟨_, rfl, rfl⟩
  obtain ⟨rets, m', map, t, queue, free, recycled, hRun, _, hLinked, hMade, _⟩ :=
    linked_lru (by decide) (by decide) (by decide) hInit
      [.acquire (some Ref.zeroed), .setLi Ref.zeroed (7, 0), .acquire (some (turnKey 1))]
  exact ⟨m, rets, m', map, t, queue, free, recycled, hInit, hRun, hStart ▸ hLinked, hMade⟩

/-- Nothing is in the tree, and all chunks are free. -/
structure Drained (count e : Nat) (m : Memory) : Prop where
  root : m.tree.root = none
  pool : ∃ free, Prealloc.Holds trackOverlay m.tree.cells m.pool (chunksFrom e trackSize count) [] free

theorem Memory.drain_empty {fuel : Nat} (hRoot : m.tree.root = none) : m.drain rounds fuel = some m := by
  rw [Memory.drain.eq_def]
  simp only [hRoot]

theorem Memory.drain_root {fuel flow : Nat} {tree : Store Nat Chunk} (hRoot : m.tree.root = some flow)
    (hErase : m.tree.remove rounds flow = some tree) :
    m.drain rounds (fuel + 1) = ({ m with tree := tree }.put flow).drain rounds fuel := by
  rw [Memory.drain.eq_def]
  simp only [hRoot, hErase, Option.bind_eq_bind, Option.bind_some]

/-- Every round takes the root out of the tree and puts its chunk back. -/
theorem drained_of_drain {fuel : Nat} {claimed free : List Nat} (hTree : m.tree.Sets chunkCmp t)
    (hHolds : Prealloc.Holds trackOverlay m.tree.cells m.pool (chunksFrom e trackSize count) claimed free)
    (hClaimed : t.toList.Perm claimed) (hFuel : t.toList.length ≤ fuel)
    (hRounds : Store.enough t.toList.length ≤ rounds) :
    ∃ m', m.drain rounds fuel = some m' ∧ Drained count e m' := by
  -- the flows of the tree are what the pool has given away
  have hHolds' := hHolds.claimed_perm hClaimed.symm
  clear hHolds hClaimed
  have hRoot := hTree.holds.root
  induction fuel generalizing m t free with
  | zero =>
      cases t with
      | leaf => exact ⟨m, Memory.drain_empty hRoot, hRoot, free, hHolds'⟩
      | node k l flow r => simp [RedBlack.Tree.toList] at hFuel
  | succ fuel ih =>
      cases t with
      | leaf => exact ⟨m, Memory.drain_empty hRoot, hRoot, free, hHolds'⟩
      | node k l flow r =>
          have hMem : flow ∈ (RedBlack.Tree.node k l flow r).toList := RedBlack.Tree.root_mem rfl
          obtain ⟨tree, t', hErase, hSets, hList, hKeeps⟩ := hTree.remove hMem hRounds
          let m₁ : Memory := { m with tree := tree }
          have hLength := List.length_erase_of_mem hMem
          have hPool : Prealloc.Holds trackOverlay tree.cells m.pool (chunksFrom e trackSize count)
              (flow :: t'.toList) free := by
            refine Prealloc.Holds.claimed_perm (hHolds'.of_next fun a => ?_) ?_
            · show (tree.cells a).data.next = _
              rw [hKeeps.data]
              rfl
            · rw [hList]
              exact List.perm_cons_erase hMem
          have hRest : (m₁.put flow).tree.Sets chunkCmp t' := by
            refine hSets.outside rfl fun b hb => link_of_ne fun hSame => ?_
            rw [hList, hSame] at hb
            exact hTree.holds.nodup.not_mem_erase hb
          rw [← hList] at hLength
          obtain ⟨m', hRun, hDrained⟩ := ih hRest (by omega)
            (Nat.le_trans (Store.enough_mono (by omega)) hRounds) hPool.put hRest.holds.root
          refine ⟨m', ?_, hDrained⟩
          rw [Memory.drain_root hRoot hErase]
          exact hRun

/-- Whatever happened to a tracker before, `peak_track_exit` takes every flow out of
the tree and puts back every chunk: the pool does not miss any. -/
theorem exit_drained {callocOk noTimeout : Bool} {granted : Option Nat} {cells : Nat → Cell Nat Chunk}
    {rets : List (Option (Nat × Flow))} (hCount : 0 < count) (hSize : count < 2 ^ 64) (hStart : start < 2 ^ 64)
    (hInit : Memory.init callocOk granted cells start before count noTimeout = some m) (events : List Event)
    (hRun : m.run (Store.enough count) events = some (rets, m')) :
    ∃ m'', m'.exit (Store.enough count) count = some (.ok m'') ∧ Drained count m.pool.memStart m'' := by
  obtain ⟨s, _, hFollows⟩ := Follows.init hSize hStart hInit
  obtain ⟨_, _, s', t', recycled, hRun', _, hLast⟩ := hFollows.run hCount (Nat.le_refl _) events
  rw [hRun] at hRun'
  cases hRun'
  have hLinked := hLast.linked
  have hFew : t'.toList.length ≤ count := by
    rw [hLast.shows.flows.length_eq, List.length_map]
    exact hLast.simulates.ok.few
  obtain ⟨m'', hDrain, hDrained⟩ := drained_of_drain hLinked.tree hLinked.pool hLinked.flows hFew
    (Store.enough_mono hFew)
  obtain ⟨free, hPool⟩ := hDrained.pool
  refine ⟨m'', ?_, hDrained⟩
  have hNone : m''.pool.used = 0 := hPool.used
  rw [Memory.exit, hDrain, Option.map_some, if_neg (not_not_intro hNone)]

/-- The tracker is full, and one of its chunks was taken over, when it goes. -/
theorem twoChunks_drained :
    ∃ m rets m' m'', Memory.init true (some 16) (fun _ => Memory.blank Ref.zeroed) 0 (fun _ => 0) 2 false = some m ∧
      m.run (Store.enough 2) threeKeys = some (rets, m') ∧
      m'.exit (Store.enough 2) 2 = some (.ok m'') ∧ Drained 2 16 m'' := by
  obtain ⟨m, hInit, hStart⟩ : ∃ m, Memory.init true (some 16) (fun _ => Memory.blank Ref.zeroed) 0 (fun _ => 0)
      2 false = some m ∧ m.pool.memStart = 16 := ⟨_, rfl, rfl⟩
  obtain ⟨s, _, hFollows⟩ := Follows.init (by decide) (by decide) hInit
  obtain ⟨rets, m', _, _, _, hRun, _, _⟩ := hFollows.run (by decide) (Nat.le_refl _) threeKeys
  obtain ⟨m'', hExit, hDrained⟩ := exit_drained (by decide) (by decide) (by decide) hInit _ hRun
  exact ⟨m, rets, m', m'', hInit, hRun, hExit, hStart ▸ hDrained⟩

end Track

end Peak
